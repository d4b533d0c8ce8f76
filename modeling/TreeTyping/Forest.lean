import TreeTyping.Change
import TreeTyping.Phrase

/-!
# Forests and trees

A forest grows by one node at a time, and each new node takes earlier nodes that still
stand alone as its parts. A tree is a forest together with the node chosen as its root.

## Implementation notes

Each node is stored with its phrase, so that a tree needs no search to be walked. The
parent of a node is the only field that changes after the node has been added.
-/

namespace TreeTyping

/-- A node of a forest. -/
structure Node where
  phrase : Phrase
  parent : Option NodeId := none

namespace Node

/-- The name of a node. -/
def id (n : Node) : NodeId := n.phrase.id

/-- The category of a node. -/
def category (n : Node) : Category := n.phrase.category

/-- The text of a node. -/
def lexeme (n : Node) : String := n.phrase.lexeme

/-- The names of the parts of a node. -/
def children (n : Node) : List NodeId := n.phrase.parts.map Phrase.id

/-- The number of parts of a node. -/
def arity (n : Node) : Nat := n.phrase.arity

/-- Where a node stands. -/
def location (n : Node) : Location := n.phrase.location

/-- The parts of a node named by their roles in a construct. The node need not be of
that construct, but it must have a number of parts that the construct admits. -/
def view {α : Type} (n : Node) (construct : Construct)
    (ofParts? : List NodeId → Option α) : Except Fault α :=
  match ofParts? n.children with
  | some roles => .ok roles
  | none => .error (n.phrase.arityFault construct.title construct.arities)

end Node

/-- Nodes in the order in which they were added. -/
structure Forest where
  nodes : List Node := []

namespace Forest

/-- The number of nodes that a forest can hold. -/
def capacity : Nat := 4294967296

/-- The number of nodes of a forest. -/
def size (f : Forest) : Nat := f.nodes.length

/-- The node with a given name. -/
def node (f : Forest) (id : NodeId) : Except Fault Node :=
  match f.nodes[id]? with
  | some n => .ok n
  | none => .error (.nodeNotFound id)

/-- A node that stands alone and is not among those taken already. -/
def freeNode (f : Forest) (taken : List NodeId) (id : NodeId) : Except Fault Node := do
  let n ← f.node id
  if n.parent.isSome ∨ id ∈ taken then throw ⟨.nodeAttached id, n.location⟩
  return n

/-- The name of the node that is added after a number of others. -/
def newId (count : Nat) : Except Fault NodeId :=
  if count < capacity then .ok count
  else .error ⟨.tooManyNodes count, .unknown (capacity - 1)⟩

/-- Looks at the nodes that are to be taken as parts, from left to right, and returns their
phrases. The first node that cannot be taken decides the fault. -/
def gather (taken : List NodeId) : List NodeId → Change Forest (List Phrase)
  | [] => return []
  | id :: rest => do
      let n ← Change.look (·.freeNode taken id)
      return n.phrase :: (← gather (id :: taken) rest)

/-- The forest in which a node has another as its parent. -/
def setParent (f : Forest) (parent id : NodeId) : Forest :=
  ⟨f.nodes.modify id fun n => { n with parent := some parent }⟩

/-- Gives a parent to one node after the other. -/
def link (parent : NodeId) : List NodeId → Change Forest Unit
  | [] => return
  | id :: rest => do
      modify (·.setParent parent id)
      link parent rest

/-- The forest with one node more. -/
def push (f : Forest) (n : Node) : Forest := ⟨f.nodes ++ [n]⟩

/-- Adds a node above existing ones and returns its name. All of these are looked at before
the first is given its parent. -/
def add (category : Category) (lexeme : String) (children : List NodeId) :
    Change Forest NodeId := do
  let id ← Change.look fun f => newId f.size
  let parts ← gather [] children
  link id children
  modify (·.push ⟨.mk id category lexeme parts, none⟩)
  return id

/-- Adds a node without parts. -/
def addLeaf (category : Category) (lexeme : String) : Change Forest NodeId :=
  add category lexeme []

end Forest

/-- A forest and the phrase of its root. Nodes that do not lie below the root are
kept but not checked. -/
structure Tree where
  forest : Forest
  root : Phrase

namespace Tree

/-- The tree of a forest with a chosen root, which must stand alone. -/
def ofForest (f : Forest) (root : NodeId) : Except Fault Tree := do
  let n ← f.freeNode [] root
  return ⟨f, n.phrase⟩

/-- The number of nodes of the forest. -/
def size (t : Tree) : Nat := t.forest.size

/-- Whether there are no nodes. -/
def isEmpty (t : Tree) : Bool := t.size == 0

/-- The node with a given name. -/
def node (t : Tree) (id : NodeId) : Except Fault Node := t.forest.node id

/-- The part of a node at a position. -/
def child (t : Tree) (id : NodeId) (index : Nat) : Except Fault Node := do
  let n ← t.node id
  t.node (← n.phrase.part index).id

/-- The category of the parent of a node. -/
def parentCategory? (t : Tree) (id : NodeId) : Option Category := do
  let n ← t.forest.nodes[id]?
  let parent ← t.forest.nodes[← n.parent]?
  return parent.category

/-- The nodes below the root and the root itself, parents first and from left to right. -/
def preOrder (t : Tree) : List NodeId := Phrase.unstack [t.root]

end Tree

end TreeTyping
