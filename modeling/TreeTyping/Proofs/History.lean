import Mathlib.Data.List.Induction
import TreeTyping.Proofs.Columns

/-!
# Tables and their histories

A table is made from the empty one by entering nodes, giving tags and scopes, and defining texts, in
any order and with any arguments. What it then holds can be read off the history. A node has the
category and text with which it was first entered. Of all that happened before that it shows
nothing. Its tag and its scope are the last that it was given since then, and its text is defined if
it has been defined since then. An operation that fails leaves its table as it was, and the index
leads to the records after every history.
-/

namespace TreeTyping

namespace Table

/-- What can be done to a table. -/
inductive Operation where
  | insert (id : NodeId) (category : Category) (lexeme : String)
  | setTag (id : NodeId) (tag : Tag)
  | setScope (id : NodeId) (scope : UInt32)
  | define (name : String)
deriving DecidableEq

/-- What an operation does to a table. -/
def Operation.action : Operation → Change Table Unit
  | .insert id category lexeme => modify (·.insert id category lexeme)
  | .setTag id tag => Table.setTag id tag
  | .setScope id scope => Table.setScope id scope
  | .define name => modify (·.define name)

/-- The table that an operation leaves behind, whether or not it fails. -/
def perform (t : Table) (op : Operation) : Table := op.action.leaving t

/-- The table after a sequence of operations, starting from the empty one. -/
def ofHistory (ops : List Operation) : Table := ops.foldl perform .empty

namespace Operation

/-- The node that an operation enters. -/
def inserted? : Operation → Option NodeId
  | .insert id .. => some id
  | .setTag .. | .setScope .. | .define _ => none

/-- The tag that an operation gives to a node. -/
def tagFor? (n : NodeId) : Operation → Option Tag
  | .setTag id tag => if n = id then some tag else none
  | .insert .. | .setScope .. | .define _ => none

/-- The scope that an operation gives to a node. -/
def scopeFor? (n : NodeId) : Operation → Option UInt32
  | .setScope id scope => if n = id then some scope else none
  | .insert .. | .setTag .. | .define _ => none

/-- What an operation makes of a record. -/
def update (r : Record) : Operation → Record
  | .insert .. => r
  | .setTag id tag => if r.id = id then { r with tag } else r
  | .setScope id scope => if r.id = id then { r with scope } else r
  | .define name => if r.lexeme = name then { r with definition := .defined } else r

/-- The record that an operation enters for a node. -/
def enter? (n : NodeId) : Operation → Option Record
  | .insert id category lexeme => if n = id then some { id, category, lexeme } else none
  | .setTag .. | .setScope .. | .define _ => none

end Operation

/-- The nodes that a history enters. -/
def insertedIds (ops : List Operation) : List NodeId := ops.filterMap Operation.inserted?

/-- The record of a node that was entered with a category and a text, after the operations since
then. -/
def recordAfter (id : NodeId) (category : Category) (lexeme : String)
    (after : List Operation) : Record where
  id
  category
  lexeme
  tag := (after.filterMap (Operation.tagFor? id)).getLast?.getD .unbound
  scope := (after.filterMap (Operation.scopeFor? id)).getLast?.getD 0
  definition := if .define lexeme ∈ after then .defined else .undefined

/-- A history leaves a record for a node, by what has happened since the node was first entered. -/
def Leaves (ops : List Operation) (id : NodeId) (r : Record) : Prop :=
  ∃ before category lexeme after, ops = before ++ .insert id category lexeme :: after ∧
    id ∉ insertedIds before ∧ r = recordAfter id category lexeme after

section Spec

variable {ops : List Operation} {op : Operation} {id : NodeId} {r : Record}

theorem insertedIds_append (ops ops' : List Operation) :
    insertedIds (ops ++ ops') = insertedIds ops ++ insertedIds ops' :=
  List.filterMap_append

theorem recordAfter_append (category : Category) (lexeme : String) (after : List Operation) :
    recordAfter id category lexeme (after ++ [op]) =
      op.update (recordAfter id category lexeme after) := by
  cases op with
  | insert => simp [recordAfter, Operation.update, Operation.tagFor?, Operation.scopeFor?]
  | setTag n tag =>
      by_cases h : id = n <;>
        simp [recordAfter, Operation.update, Operation.tagFor?, Operation.scopeFor?, h]
  | setScope n scope =>
      by_cases h : id = n <;>
        simp [recordAfter, Operation.update, Operation.tagFor?, Operation.scopeFor?, h]
  | define name =>
      by_cases h : lexeme = name <;>
        simp [recordAfter, Operation.update, Operation.tagFor?, Operation.scopeFor?, h]

/-- A longer history leaves the records of the shorter one, updated by its last operation, and the
record that this operation enters if the node is new. -/
theorem leaves_append_iff :
    Leaves (ops ++ [op]) id r ↔
      (∃ r', Leaves ops id r' ∧ op.update r' = r) ∨
        (id ∉ insertedIds ops ∧ op.enter? id = some r) := by
  constructor
  · rintro ⟨before, category, lexeme, after, hops, hnew, rfl⟩
    rcases List.eq_nil_or_concat after with rfl | ⟨after', op', rfl⟩
    · obtain ⟨rfl, hop⟩ := List.append_inj' hops rfl
      obtain rfl := List.singleton_inj.mp hop
      exact .inr ⟨hnew, by simp [Operation.enter?, recordAfter]⟩
    · rw [List.concat_eq_append, ← List.cons_append, ← List.append_assoc] at hops
      obtain ⟨rfl, hop⟩ := List.append_inj' hops rfl
      obtain rfl := List.singleton_inj.mp hop
      refine .inl ⟨_, ⟨before, category, lexeme, after', rfl, hnew, rfl⟩, ?_⟩
      rw [List.concat_eq_append, recordAfter_append]
  · rintro (⟨r', ⟨before, category, lexeme, after, rfl, hnew, rfl⟩, rfl⟩ | ⟨hnew, henter⟩)
    · refine ⟨before, category, lexeme, after ++ [op], by simp, hnew, ?_⟩
      rw [recordAfter_append]
    · cases op with
      | insert n category lexeme =>
          simp only [Operation.enter?, Option.ite_none_right_eq_some, Option.some.injEq] at henter
          obtain ⟨rfl, rfl⟩ := henter
          exact ⟨ops, category, lexeme, [], rfl, hnew, by simp [recordAfter]⟩
      | setTag | setScope | define => cases henter

end Spec

theorem Operation.id_update (op : Operation) (r : Record) : (op.update r).id = r.id := by
  cases op with
  | insert => rfl
  | setTag | setScope | define =>
      simp only [update]
      split <;> rfl

/-- The record that an operation adds to a table, if it enters a new node. -/
def added (t : Table) : Operation → List Record
  | .insert id category lexeme => if id ∈ t.ids then [] else [{ id, category, lexeme }]
  | .setTag .. | .setScope .. | .define _ => []

section Perform

variable (t : Table) (op : Operation)

theorem records_insert_eq (id : NodeId) (category : Category) (lexeme : String) :
    (t.insert id category lexeme).records =
      t.records ++ t.added (.insert id category lexeme) := by
  rw [records_insert, added]
  split
  · exact (List.append_nil _).symm
  · rfl

/-- A change to the record of a node updates the list of records, which stays the same if the node
has no record. -/
theorem records_leaving_revise (id : NodeId) (f : Record → Record) (hf : ∀ r, (f r).id = r.id) :
    ((revise id f hf).leaving t).records =
      t.records.map fun r => if r.id = id then f r else r := by
  by_cases h : id ∈ t.ids
  · rw [Change.leaving_of_ok (t.revise_of_mem hf h)]
    rfl
  · have hsame : ∀ r ∈ t.records, (if r.id = id then f r else r) = r := by
      intro r hr
      have hid : r.id ≠ id := by
        rintro rfl
        exact h (List.mem_map_of_mem hr)
      exact if_neg hid
    rw [Change.leaving_of_error (t.revise_of_notMem hf h), List.map_congr_left hsame, List.map_id']

/-- Every operation updates the records one by one and adds at most one. -/
theorem records_perform :
    (t.perform op).records = t.records.map op.update ++ t.added op := by
  cases op with
  | insert id category lexeme =>
      have hupdate : (Operation.insert id category lexeme).update = fun r => r := rfl
      rw [hupdate, List.map_id']
      exact t.records_insert_eq id category lexeme
  | setTag id tag => exact (t.records_leaving_revise id _ _).trans (List.append_nil _).symm
  | setScope id scope => exact (t.records_leaving_revise id _ _).trans (List.append_nil _).symm
  | define name => exact (List.append_nil _).symm

theorem ids_perform : (t.perform op).ids = t.ids ++ (t.added op).map Record.id := by
  rw [ids, records_perform, List.map_append, map_id_map op.id_update]
  rfl

theorem find?_added {n : NodeId} (hn : t.get? n = none) :
    (t.added op).find? (·.id == n) = op.enter? n := by
  have hmem := (t.get?_eq_none_iff n).mp hn
  cases op with
  | setTag | setScope | define => rfl
  | insert id category lexeme =>
      by_cases hid : n = id
      · subst hid
        simp [added, hmem, Operation.enter?]
      · by_cases h : id ∈ t.ids <;> simp [added, Operation.enter?, h, hid, Ne.symm hid]

theorem get?_perform (n : NodeId) :
    (t.perform op).get? n = ((t.get? n).map op.update).or (op.enter? n) := by
  have hold : (t.records.map op.update).find? (·.id == n) = (t.get? n).map op.update := by
    rw [← t.get?_map op.id_update n, get?_eq_find?, records_map]
  rw [get?_eq_find?, records_perform, List.find?_append, hold]
  cases hn : t.get? n with
  | some r => rfl
  | none => rw [t.find?_added op hn]

end Perform

section OfHistory

variable (ops : List Operation) (op : Operation)

theorem ofHistory_append : ofHistory (ops ++ [op]) = (ofHistory ops).perform op :=
  List.foldl_append

/-- The records are those of the distinct nodes that were entered, in the order of their first
entry. -/
theorem ids_ofHistory : (ofHistory ops).ids = (insertedIds ops).eraseDups := by
  induction ops using List.reverseRecOn with
  | nil => rfl
  | append_singleton ops op ih =>
      rw [ofHistory_append, ids_perform, ih, insertedIds_append, List.eraseDups_append]
      congr 1
      cases op with
      | setTag | setScope | define => rfl
      | insert id category lexeme =>
          have hlast : insertedIds [.insert id category lexeme] = [id] := rfl
          by_cases h : id ∈ insertedIds ops <;>
            simp [added, ih, hlast, List.removeAll, List.eraseDups_cons, h]

theorem mem_ids_ofHistory_iff {id : NodeId} :
    id ∈ (ofHistory ops).ids ↔ id ∈ insertedIds ops := by
  rw [ids_ofHistory, List.mem_eraseDups]

/-- What a table holds for a node is what its history leaves for it. -/
theorem get?_ofHistory_eq_some_iff {id : NodeId} {r : Record} :
    (ofHistory ops).get? id = some r ↔ Leaves ops id r := by
  induction ops using List.reverseRecOn generalizing r with
  | nil => simp [ofHistory, empty, get?_eq_some_iff, Leaves]
  | append_singleton ops op ih =>
      rw [ofHistory_append, get?_perform, leaves_append_iff, Option.or_eq_some_iff,
        Option.map_eq_some_iff, Option.map_eq_none_iff, get?_eq_none_iff, mem_ids_ofHistory_iff]
      simp only [ih]

end OfHistory

/-- The earliest unbound record is unbound and comes after records that are all bound. -/
theorem firstUnbound?_eq_some_iff {t : Table} {r : Record} :
    t.firstUnbound? = some r ↔
      ∃ before after, t.ids = before ++ r.id :: after ∧ t.get r.id = .ok r ∧ r.tag = .unbound ∧
        ∀ id ∈ before, ∀ r', t.get id = .ok r' → r'.tag ≠ .unbound := by
  have hget : ∀ r ∈ t.records, t.get r.id = .ok r := fun r hr =>
    get_eq_ok_iff.mpr (t.get?_of_mem hr)
  rw [firstUnbound?, List.find?_eq_some_iff_append]
  constructor
  · rintro ⟨hr, before, after, hrecords, hbefore⟩
    have hmem : ∀ q ∈ before, q ∈ t.records := fun q hq => by simp [hrecords, hq]
    refine ⟨before.map Record.id, after.map Record.id, by simp [ids, hrecords],
      hget r (by simp [hrecords]), by simpa [Tag.isBound] using hr, ?_⟩
    intro id hid r' hr'
    obtain ⟨q, hq, rfl⟩ := List.mem_map.mp hid
    obtain rfl : q = r' := Except.ok.inj ((hget q (hmem q hq)).symm.trans hr')
    simpa [Tag.isBound] using hbefore q hq
  · rintro ⟨before, after, hids, hr, hunbound, hbefore⟩
    obtain ⟨l, l', hrecords, rfl, hl'⟩ := List.map_eq_append_iff.mp hids
    obtain ⟨q, rest, rfl, hq, -⟩ := List.map_eq_cons_iff.mp hl'
    have hmem : ∀ q' ∈ l ++ q :: rest, q' ∈ t.records := fun q' hq' => hrecords ▸ hq'
    obtain rfl : q = r := by
      have hget' := hget q (hmem q (by simp))
      rw [hq] at hget'
      exact Except.ok.inj (hget'.symm.trans hr)
    refine ⟨by simp [Tag.isBound, hunbound], l, rest, hrecords, fun q' hq' => ?_⟩
    have hne := hbefore q'.id (List.mem_map_of_mem hq') q' (hget q' (hmem q' (by simp [hq'])))
    simpa [Tag.isBound] using hne

theorem isSome_firstUnbound? (t : Table) : t.firstUnbound?.isSome = !t.allTyped := by
  rw [Bool.eq_iff_iff, firstUnbound?, allTyped, List.find?_isSome]
  simp

/-- A table reflects a history if all that can be asked of it is settled by what has been done. -/
structure Reflects (t : Table) (ops : List Operation) : Prop where
  /-- There is one record for each node that was entered, in the order of the first entries. -/
  order : t.ids = (insertedIds ops).eraseDups
  /-- The nodes that were entered are those that can be looked up. -/
  found : ∀ id, (∃ r, t.get id = .ok r) ↔ id ∈ insertedIds ops
  /-- What is looked up has the category and text of the first entry and shows what has been done
  since then. -/
  record : ∀ id r, t.get id = .ok r ↔ Leaves ops id r
  /-- The index has one entry for each of these nodes, with its place in that order. -/
  places : t.index = (insertedIds ops).eraseDups.zipIdx
  /-- The index leads from a node to the position at which its record stands. -/
  index : ∀ id position, t.index.lookup id = some position ↔
    ∃ r, t.records[position]? = some r ∧ r.id = id
  /-- Entering a node again changes nothing. -/
  again : ∀ id category lexeme, id ∈ insertedIds ops → t.insert id category lexeme = t
  /-- A node that was entered can be given every tag and every scope. -/
  granted : ∀ id, id ∈ insertedIds ops →
    (∀ tag, ∃ u, setTag id tag t = .ok () u) ∧ ∀ scope, ∃ u, setScope id scope t = .ok () u
  /-- A node that was not entered can be given neither a tag nor a scope, and the table in which
  this was tried is left as it was. -/
  refused : ∀ id, id ∉ insertedIds ops →
    (∀ tag, setTag id tag t = .error (.nodeNotFound id) t) ∧
      ∀ scope, setScope id scope t = .error (.nodeNotFound id) t
  /-- The first unbound record is the earliest that the history leaves unbound. -/
  unbound : ∀ r, t.firstUnbound? = some r ↔
    ∃ before after, (insertedIds ops).eraseDups = before ++ r.id :: after ∧ Leaves ops r.id r ∧
      r.tag = .unbound ∧ ∀ id ∈ before, ∀ r', Leaves ops id r' → r'.tag ≠ .unbound
  /-- There is an unbound record exactly if not every record is bound. -/
  typed : t.firstUnbound?.isSome = !t.allTyped

/-- Every table reflects its history. -/
theorem ofHistory_reflects (ops : List Operation) : (ofHistory ops).Reflects ops where
  order := ids_ofHistory ops
  found id := by rw [exists_get_iff, mem_ids_ofHistory_iff]
  record id r := by rw [get_eq_ok_iff, get?_ofHistory_eq_some_iff]
  places := by
    rw [← ids_ofHistory]
    exact (ofHistory ops).indexed
  index id position := (ofHistory ops).position?_eq_some_iff
  again id category lexeme h := by
    apply ext_records
    rw [records_insert, if_pos ((mem_ids_ofHistory_iff ops).mpr h)]
  granted id h := by
    have hid : id ∈ (ofHistory ops).ids := (mem_ids_ofHistory_iff ops).mpr h
    exact ⟨fun tag => ⟨_, revise_of_mem _ _ hid⟩, fun scope => ⟨_, revise_of_mem _ _ hid⟩⟩
  refused id h := by
    have hid : id ∉ (ofHistory ops).ids := fun hmem => h ((mem_ids_ofHistory_iff ops).mp hmem)
    exact ⟨fun tag => revise_of_notMem _ _ hid, fun scope => revise_of_notMem _ _ hid⟩
  unbound r := by
    simp only [firstUnbound?_eq_some_iff, ids_ofHistory, get_eq_ok_iff, get?_ofHistory_eq_some_iff]
  typed := isSome_firstUnbound? _

/-- A history in which a node is tagged before and after its entry and entered twice, and a text is
defined between the entries of two of its nodes. -/
def crossedHistory : List Operation :=
  [.setTag 8 .string, .insert 8 .name "x", .define "x", .insert 7 .name "x",
    .insert 8 .number "duplicate", .setTag 7 .number, .setScope 8 3, .setTag 7 .unbound,
    .setTag 9 .number]

/-- The crossed history leaves two records, the first of which is unbound and defined. The index
leads to both, and a further attempt to tag a node that was never entered changes nothing. -/
theorem crossedHistory_reflects :
    (ofHistory crossedHistory).Reflects crossedHistory ∧
      (ofHistory crossedHistory).records =
        [⟨8, .name, "x", .unbound, 3, .defined⟩, ⟨7, .name, "x", .unbound, 0, .undefined⟩] ∧
      (ofHistory crossedHistory).index = [(8, 0), (7, 1)] ∧
      setTag 9 .number (ofHistory crossedHistory) =
        .error (.nodeNotFound 9) (ofHistory crossedHistory) := by
  have hreflects := ofHistory_reflects crossedHistory
  exact ⟨hreflects, rfl, rfl, (hreflects.refused 9 (by decide)).1 .number⟩

end Table

end TreeTyping
