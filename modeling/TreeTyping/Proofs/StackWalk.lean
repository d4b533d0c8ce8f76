import Mathlib.Logic.Function.Iterate
import TreeTyping.Proofs.Columns
import TreeTyping.Proofs.Links

/-!
# Walking a tree with a stack

A walk keeps the names of nodes on a stack. In each round it takes the name on top, lists it, and
puts the children of that node in its place, the first child on top. In a grown forest the walk from
a root stops, and it has then listed the tree in pre-order. The invariant is that the nodes listed
so far, followed by the pre-orders of the nodes on the stack, are the whole pre-order. So the number
of nodes below the stack decreases by one in each round. The first table of a tree has a record for
each node that is listed.
-/

namespace TreeTyping

namespace Forest

/-- The children of a node. A node that is not in the forest has none. -/
def childrenOf (f : Forest) (id : NodeId) : List NodeId := (f.nodes[id]?).elim [] Node.children

/-- A node and the nodes below it, in pre-order. -/
def below (f : Forest) (id : NodeId) : List NodeId :=
  (f.nodes[id]?).elim [id] fun n => n.phrase.preOrder

/-- The names that are still on the stack, and those that have been listed. -/
structure Walk where
  stack : List NodeId
  order : List NodeId := []

/-- One round of a walk. -/
def Walk.next (f : Forest) : Walk → Walk
  | ⟨[], order⟩ => ⟨[], order⟩
  | ⟨id :: rest, order⟩ => ⟨f.childrenOf id ++ rest, order ++ [id]⟩

section Below

variable {f : Forest} {id : NodeId}

theorem WellFormed.below_of_mem (wf : f.WellFormed) {n : Node} (hn : f.nodes[id]? = some n)
    {q : Phrase} (hq : q ∈ n.phrase.subphrases) : f.below q.id = q.preOrder := by
  obtain ⟨m, hm, rfl⟩ := wf.stored id n hn q hq
  rw [below, hm]
  rfl

/-- The pre-order below a node is the node, and then the pre-orders below its children from left to
right. -/
theorem WellFormed.below_eq (wf : f.WellFormed) (id : NodeId) :
    f.below id = id :: (f.childrenOf id).flatMap f.below := by
  cases hn : f.nodes[id]? with
  | none => simp [below, childrenOf, hn]
  | some n =>
      have hid : n.phrase.id = id := wf.named id n hn
      have hparts : ∀ q ∈ n.phrase.parts, q.preOrder = f.below q.id :=
        fun q hq => (wf.below_of_mem hn (Phrase.part_mem_subphrases hq)).symm
      calc f.below id
        _ = n.phrase.preOrder := by rw [below, hn]; rfl
        _ = id :: n.phrase.parts.flatMap Phrase.preOrder := by rw [Phrase.preOrder_eq_cons, hid]
        _ = id :: n.phrase.parts.flatMap (fun q => f.below q.id) := by
            rw [List.flatMap_congr hparts]
        _ = id :: (f.childrenOf id).flatMap f.below := by
            rw [childrenOf, hn]
            simp [Node.children, List.flatMap_map]

end Below

namespace Walk

variable {f : Forest} (w : Walk)

/-- The nodes that a walk has listed and those that it has still to list. -/
def whole (f : Forest) : List NodeId := w.order ++ w.stack.flatMap f.below

theorem whole_next (wf : f.WellFormed) : (w.next f).whole f = w.whole f := by
  obtain ⟨stack, order⟩ := w
  cases stack with
  | nil => rfl
  | cons id rest => simp [whole, next, wf.below_eq id]

/-- What holds after a number of rounds. -/
structure Reached (f : Forest) (root : NodeId) (rounds : Nat) : Prop where
  whole_eq : w.whole f = f.below root
  length_le : w.order.length ≤ rounds
  length_eq : w.stack ≠ [] → w.order.length = rounds

theorem Reached.next (wf : f.WellFormed) {w : Walk} {root : NodeId} {rounds : Nat}
    (h : w.Reached f root rounds) : (w.next f).Reached f root (rounds + 1) := by
  refine ⟨(w.whole_next wf).trans h.whole_eq, ?_, ?_⟩
  · obtain ⟨stack, order⟩ := w
    have hle := h.length_le
    cases stack with
    | nil => exact Nat.le_succ_of_le hle
    | cons id rest => simpa [Walk.next] using hle
  · obtain ⟨stack, order⟩ := w
    cases stack with
    | nil => exact fun hne => absurd rfl hne
    | cons id rest =>
        have hlength : order.length = rounds := h.length_eq (List.cons_ne_nil id rest)
        intro _
        simp [Walk.next, hlength]

theorem reached_iterate (wf : f.WellFormed) (root : NodeId) (rounds : Nat) :
    ((next f)^[rounds] ⟨[root], []⟩).Reached f root rounds := by
  induction rounds with
  | zero => exact ⟨by simp [whole], Nat.le_refl 0, fun _ => rfl⟩
  | succ rounds ih =>
      rw [Function.iterate_succ_apply']
      exact ih.next wf

/-- The stack is empty as soon as there have been as many rounds as there are nodes to list. -/
theorem Reached.stack_eq_nil_iff (wf : f.WellFormed) {w : Walk} {root : NodeId} {rounds : Nat}
    (h : w.Reached f root rounds) : w.stack = [] ↔ (f.below root).length ≤ rounds := by
  have hlength := congrArg List.length h.whole_eq
  rw [whole, List.length_append] at hlength
  constructor
  · intro hnil
    rw [hnil, List.flatMap_nil, List.length_nil] at hlength
    have hle := h.length_le
    omega
  · intro hle
    by_contra hne
    obtain ⟨id, rest, hstack⟩ := List.exists_cons_of_ne_nil hne
    have hrounds := h.length_eq hne
    rw [hstack, List.flatMap_cons, wf.below_eq id, List.cons_append, List.length_cons] at hlength
    omega

theorem Reached.order_eq {w : Walk} {root : NodeId} {rounds : Nat}
    (h : w.Reached f root rounds) (hnil : w.stack = []) : w.order = f.below root := by
  have hwhole := h.whole_eq
  rwa [whole, hnil, List.flatMap_nil, List.append_nil] at hwhole

end Walk

end Forest

/-- What lies below a stored phrase can be reached from it through children. -/
theorem Forest.WellFormed.reachable_of_mem {f : Forest} (wf : f.WellFormed) {p q : Phrase}
    (hp : ∃ n, f.nodes[p.id]? = some n ∧ n.phrase = p) (hq : q ∈ p.subphrases) :
    Relation.ReflTransGen f.Holds p.id q.id := by
  induction p using Phrase.induction with
  | step i c l ps ih =>
      obtain ⟨n, hn, hphrase⟩ := hp
      rcases (Phrase.mem_subphrases_iff _ q).mp hq with rfl | ⟨part, hpart, hq⟩
      · exact .refl
      · have hholds : f.Holds i part.id := by
          refine ⟨n, hn, List.mem_map_of_mem ?_⟩
          rw [hphrase]
          exact hpart
        have hstored := wf.stored i n hn part (hphrase ▸ Phrase.part_mem_subphrases hpart)
        exact .head hholds (ih part hpart hstored hq)

namespace Tree

variable {t : Tree}

namespace Grown

theorem preOrder_eq_below (h : t.Grown) : t.preOrder = t.forest.below t.root.id := by
  obtain ⟨n, hn, hroot⟩ := h.stored t.root.self_mem_subphrases
  rw [preOrder_eq, Forest.below, hn, ← hroot]
  rfl

/-- The nodes of a tree are those that can be reached from the root through children. -/
theorem mem_preOrder_iff_reachable (h : t.Grown) (id : NodeId) :
    id ∈ t.root.preOrder ↔ Relation.ReflTransGen t.forest.Holds t.root.id id := by
  constructor
  · intro hid
    rw [← Phrase.map_id_subphrases] at hid
    obtain ⟨q, hq, rfl⟩ := List.mem_map.mp hid
    exact h.1.wellFormed.reachable_of_mem (h.stored t.root.self_mem_subphrases) hq
  · intro hreach
    induction hreach with
    | refl => exact t.root.id_mem_preOrder
    | tail _ hholds ih =>
        rw [← Phrase.map_id_subphrases] at ih
        obtain ⟨q, hq, rfl⟩ := List.mem_map.mp ih
        obtain ⟨n, hn, rfl⟩ := h.stored hq
        obtain ⟨m, hm, hchild⟩ := hholds
        obtain rfl := Option.some.inj (hn.symm.trans hm)
        obtain ⟨part, hpart, rfl⟩ := List.mem_map.mp hchild
        have hbelow := Phrase.subphrases_subset hq (Phrase.part_mem_subphrases hpart)
        exact Phrase.id_mem_preOrder_of_mem hbelow

/-- The records of the first table stand in the order of the walk, each with what the forest knows
of its node. -/
theorem getElem?_blankTable (h : t.Grown) {i : Nat} {id : NodeId}
    (hid : t.preOrder[i]? = some id) :
    ∃ n, t.node id = .ok n ∧ t.blankTable.records[i]? =
      some ⟨id, n.category, n.lexeme, .unbound, 0, .undefined⟩ := by
  rw [preOrder_eq, ← Phrase.map_id_subphrases, List.getElem?_map,
    Option.map_eq_some_iff] at hid
  obtain ⟨q, hq, rfl⟩ := hid
  obtain ⟨n, hn, rfl⟩ := h.node_eq (List.mem_of_getElem? hq)
  refine ⟨n, hn, ?_⟩
  rw [h.records_blankTable, List.getElem?_map, hq]
  rfl

/-- In a grown tree, the walk with a stack stops after as many rounds as there are nodes below the
root. It has then listed the pre-order of the root, in which every node comes before the pre-orders
of its children. Nothing is listed twice, and what is listed is what can be reached from the root.
The first table has a blank record for each listed node, in the same order, and for no other. -/
theorem walk_eq_preOrder (h : t.Grown) :
    (∀ id, t.forest.below id = id :: (t.forest.childrenOf id).flatMap t.forest.below) ∧
    t.preOrder = t.forest.below t.root.id ∧
    (∀ rounds,
      let walk := (Forest.Walk.next t.forest)^[rounds] ⟨[t.root.id], []⟩
      (walk.stack = [] ↔ t.preOrder.length ≤ rounds) ∧
        (walk.stack = [] → walk.order = t.preOrder)) ∧
    t.preOrder.Nodup ∧
    (∀ id, id ∈ t.preOrder ↔ Relation.ReflTransGen t.forest.Holds t.root.id id) ∧
    ∃ table, Table.ofTree t = .ok table ∧ table.size = t.preOrder.length ∧
      (∀ (i : Nat) (id : NodeId), t.preOrder[i]? = some id → ∃ n, t.node id = .ok n ∧
        table.records[i]? = some ⟨id, n.category, n.lexeme, .unbound, 0, .undefined⟩) ∧
      ∀ id, (∃ r, table.get id = .ok r) ↔
        Relation.ReflTransGen t.forest.Holds t.root.id id := by
  have wf := h.1.wellFormed
  refine ⟨wf.below_eq, h.preOrder_eq_below, fun rounds => ?_, ?_, ?_,
    t.blankTable, h.ofTree_eq, ?_, fun i id => h.getElem?_blankTable, fun id => ?_⟩
  · have hreached := Forest.Walk.reached_iterate wf t.root.id rounds
    rw [h.preOrder_eq_below]
    exact ⟨hreached.stack_eq_nil_iff wf, hreached.order_eq⟩
  · rw [preOrder_eq]
    exact h.nodup_preOrder
  · rw [preOrder_eq]
    exact h.mem_preOrder_iff_reachable
  · rw [preOrder_eq, ← h.ids_blankTable, Table.ids, List.length_map]
    rfl
  · rw [← h.mem_preOrder_iff_reachable, ← h.ids_blankTable]
    exact t.blankTable.exists_get_iff id

end Grown

/-- The tree of an assignment, in a forest with one more node that stands alone. -/
def strayNodeTree : Tree :=
  { assignmentTree with
    forest := ⟨assignmentTree.forest.nodes ++ [⟨.mk 5 .token "stray" [], none⟩]⟩ }

theorem strayNodeTree_grown : strayNodeTree.Grown :=
  grown_of_regrown rfl

/-- The walk through an assignment stops after five rounds. The node that stands alone is neither
listed nor entered in the table. -/
theorem Grown.walk_strayNodeTree :
    strayNodeTree.Grown ∧
      strayNodeTree.preOrder = [4, 1, 0, 2, 3] ∧
      (Forest.Walk.next strayNodeTree.forest)^[5] ⟨[4], []⟩ = ⟨[], [4, 1, 0, 2, 3]⟩ ∧
      ∃ table, Table.ofTree strayNodeTree = .ok table ∧
        table.records[2]? = some { id := 0, category := .name, lexeme := "x" } ∧
        ¬ ∃ r, table.get 5 = .ok r := by
  have hgrown := strayNodeTree_grown
  obtain ⟨-, -, hwalk, -, hmem, table, htable, -, hrecords, hget⟩ := walk_eq_preOrder hgrown
  have horder : strayNodeTree.preOrder = [4, 1, 0, 2, 3] := preOrder_eq _
  refine ⟨hgrown, horder, ?_, table, htable, ?_, ?_⟩
  · obtain ⟨hstack, hlisted⟩ := hwalk 5
    have hnil := hstack.mpr (by rw [horder]; decide)
    exact congrArg₂ Forest.Walk.mk hnil ((hlisted hnil).trans horder)
  · obtain ⟨n, hn, hrecord⟩ := hrecords 2 0 (by rw [horder]; rfl)
    cases hn
    exact hrecord
  · rw [hget, ← hmem, horder]
    decide

end Tree

end TreeTyping
