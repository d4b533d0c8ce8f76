import TreeTyping.Forest

/-!
# Type tables

A type table holds one record for each node of a tree, in the order in which the records
were entered. A record keeps the node's category and text and what a check has found
out about it: its tag, the scope in which it was typed, and whether its text has been
defined.

## Implementation notes

The record of a node is found through an index that leads from nodes to positions. A table comes
with the facts that its index fits its records and that no node has two of them, and every operation
gives them anew.
-/

namespace TreeTyping

/-- Whether the text of a node has been defined as a variable or a procedure. -/
inductive Definition where
  | undefined
  | defined
deriving DecidableEq, Repr

/-- The word for the state of a definition. -/
def Definition.text : Definition → String
  | .undefined => "Undefined"
  | .defined => "Defined"

/-- What is known about one node. -/
structure Record where
  id : NodeId
  category : Category
  lexeme : String
  tag : Tag := .unbound
  scope : UInt32 := 0
  definition : Definition := .undefined
deriving DecidableEq, Repr

namespace Record

/-- Where the node of a record stands. -/
def location (r : Record) : Location := ⟨r.id, r.category, r.lexeme⟩

/-- A record in one line of text. -/
def text (r : Record) : String :=
  "[" ++ r.id.repr ++ "] " ++ r.category.symbol ++ " " ++ Text.quote r.lexeme ++ " : " ++
    r.tag.text ++ " (scope " ++ r.scope.toNat.repr ++ ", " ++ r.definition.text ++ ")"

end Record

/-- Records in the order of their entry, and an index by which the record of a node is found. -/
structure Table where
  records : List Record
  /-- The nodes that have a record, each with the position of its record. -/
  index : List (NodeId × Nat)
  /-- The index leads to every record and to nothing else. -/
  indexed : index = (records.map Record.id).zipIdx
  /-- No node has two records. -/
  distinct : (records.map Record.id).Nodup
deriving DecidableEq, Repr

namespace Table

/-- The table without records. -/
def empty : Table where
  records := []
  index := []
  indexed := rfl
  distinct := .nil

/-- The number of records. -/
def size (t : Table) : Nat := t.records.length

/-- Whether there are no records. -/
def isEmpty (t : Table) : Bool := t.records.isEmpty

/-- The names of the nodes that have a record. -/
def ids (t : Table) : List NodeId := t.records.map Record.id

/-- The position of the record of a node, if it has one. -/
def position? (t : Table) (id : NodeId) : Option Nat := t.index.lookup id

theorem lookup_zipIdx (records : List Record) (id : NodeId) (start : Nat) :
    ((records.map Record.id).zipIdx start).lookup id =
      (records.findIdx? (·.id == id)).map (· + start) := by
  induction records generalizing start with
  | nil => rfl
  | cons r rest ih =>
      by_cases h : r.id = id
      · simp [h, List.findIdx?_cons]
      · have hne : (id == r.id) = false := by simpa using Ne.symm h
        have hrest : ∀ position, position + (start + 1) = position + 1 + start := by omega
        simp [List.lookup_cons, hne, ih, List.findIdx?_cons, h, Function.comp_def, hrest]

/-- The index leads to the first record of a node, and to none if the node has none. -/
theorem position?_eq (t : Table) (id : NodeId) :
    t.position? id = t.records.findIdx? (·.id == id) := by
  rw [position?, t.indexed, lookup_zipIdx]
  exact Option.map_id'

/-- The index does not lead beyond the records. -/
theorem position_lt (t : Table) {id : NodeId} {position : Nat}
    (h : t.position? id = some position) : position < t.records.length := by
  rw [position?_eq, List.findIdx?_eq_some_iff_getElem] at h
  exact h.1

theorem position?_eq_none_iff (t : Table) (id : NodeId) : t.position? id = none ↔ id ∉ t.ids := by
  simp [position?_eq, ids]

/-- The record of a node, if it has one. -/
def get? (t : Table) (id : NodeId) : Option Record :=
  match h : t.position? id with
  | some position =>
      have := t.position_lt h
      some t.records[position]
  | none => none

/-- The record of a node. -/
def get (t : Table) (id : NodeId) : Except Fault Record :=
  match t.get? id with
  | some r => .ok r
  | none => .error (.nodeNotFound id)

/-- The table with other records for the same nodes. -/
def withRecords (t : Table) (records : List Record)
    (h : records.map Record.id = t.records.map Record.id) : Table where
  records
  index := t.index
  indexed := h ▸ t.indexed
  distinct := h ▸ t.distinct

theorem map_id_map {f : Record → Record} (hf : ∀ r, (f r).id = r.id) (records : List Record) :
    (records.map f).map Record.id = records.map Record.id := by
  simp [hf]

theorem map_id_modify {f : Record → Record} (hf : ∀ r, (f r).id = r.id) (records : List Record)
    (position : Nat) :
    (records.modify position f).map Record.id = records.map Record.id := by
  induction records generalizing position with
  | nil => simp
  | cons r rest ih => cases position <;> simp [hf, ih]

/-- The table in which every record has been changed. -/
def map (t : Table) (f : Record → Record) (hf : ∀ r, (f r).id = r.id) : Table :=
  t.withRecords (t.records.map f) (map_id_map hf t.records)

/-- Enters an unbound record for a node. A node that has a record keeps it. -/
def insert (t : Table) (id : NodeId) (category : Category) (lexeme : String) : Table :=
  if h : (t.position? id).isSome then t
  else {
    records := t.records ++ [{ id, category, lexeme }]
    index := t.index ++ [(id, t.records.length)]
    indexed := by simp [t.indexed, List.zipIdx_append]
    distinct := by
      have hnew : id ∉ t.ids := (t.position?_eq_none_iff id).mp (by simpa using h)
      rw [List.map_append, List.nodup_append]
      refine ⟨t.distinct, by simp, fun other hother id' hid' => ?_⟩
      obtain rfl : id' = id := by simpa using hid'
      exact fun he => hnew (he ▸ hother) }

/-- The position of the record of a node. -/
def position (t : Table) (id : NodeId) : Except Fault Nat :=
  match t.position? id with
  | some position => .ok position
  | none => .error (.nodeNotFound id)

/-- The table in which the record at a position has been changed. -/
def reviseAt (t : Table) (position : Nat) (f : Record → Record) (hf : ∀ r, (f r).id = r.id) :
    Table :=
  t.withRecords (t.records.modify position f) (map_id_modify hf t.records position)

/-- Changes the record of a node. -/
def revise (id : NodeId) (f : Record → Record) (hf : ∀ r, (f r).id = r.id) :
    Change Table Unit := do
  let position ← Change.look (·.position id)
  modify (·.reviseAt position f hf)

/-- Gives a node its tag. -/
def setTag (id : NodeId) (tag : Tag) : Change Table Unit :=
  revise id (fun r => { r with tag }) fun _ => rfl

/-- Puts a node into a scope. -/
def setScope (id : NodeId) (scope : UInt32) : Change Table Unit :=
  revise id (fun r => { r with scope }) fun _ => rfl

/-- Gives a node its tag and puts it into a scope. -/
def assign (id : NodeId) (tag : Tag) (scope : UInt32) : Change Table Unit := do
  setTag id tag
  setScope id scope

/-- Marks every record with the given text as defined. -/
def define (t : Table) (name : String) : Table :=
  t.map (fun r => if r.lexeme = name then { r with definition := .defined } else r) fun r => by
    split <;> rfl

/-- The tag of a node. -/
def tag (t : Table) (id : NodeId) : Except Fault Tag := return (← t.get id).tag

/-- The tag of a node, unbound if the node has no record. -/
def tagD (t : Table) (id : NodeId) : Tag := ((t.get? id).map (·.tag)).getD .unbound

/-- The scope of a node. -/
def scope (t : Table) (id : NodeId) : Except Fault UInt32 := return (← t.get id).scope

/-- Whether a text has been defined, as its first record says. -/
def definition (t : Table) (name : String) : Definition :=
  ((t.records.find? (·.lexeme == name)).map (·.definition)).getD .undefined

/-- Whether every record is bound. -/
def allTyped (t : Table) : Bool := t.records.all (·.tag.isBound)

/-- The earliest record that is still unbound. -/
def firstUnbound? (t : Table) : Option Record := t.records.find? (!·.tag.isBound)

/-- A table in text, one line for each record. -/
def text (t : Table) : String := String.join (t.records.map fun r => r.text ++ "\n")

/-- Enters the given nodes of a tree one after the other. -/
def insertNodes (tree : Tree) (t : Table) : List NodeId → Except Fault Table
  | [] => return t
  | id :: rest => do
      let n ← tree.node id
      insertNodes tree (t.insert n.id n.category n.lexeme) rest

/-- The table of a tree before any check: an unbound record for each node below the
root, in pre-order. -/
def ofTree (tree : Tree) : Except Fault Table := insertNodes tree .empty tree.preOrder

end Table

end TreeTyping
