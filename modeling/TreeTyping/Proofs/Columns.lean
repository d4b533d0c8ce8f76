import TreeTyping.Proofs.Growth

/-!
# The tags of a phrase in a table

A step that gives a node its tag rewrites one record and nothing else. The tags that a
table holds for the nodes of a phrase, in pre-order, form the column of the phrase. Such a
column is made up of the tag of the top and the columns of the parts.
-/

namespace TreeTyping

namespace Table

/-- The table in which a node has been given a tag and a scope. -/
def write (t : Table) (id : NodeId) (tag : Tag) (scope : UInt32) : Table :=
  t.reviseRecord id (fun r => { r with tag, scope }) fun _ => rfl

section Write

variable (t : Table) (id n : NodeId) (tag : Tag) (scope : UInt32) (name : String)

theorem records_write :
    (t.write id tag scope).records =
      t.records.map fun r => if r.id = id then { r with tag, scope } else r := rfl

theorem records_define :
    (t.define name).records = t.records.map fun r =>
      if r.lexeme = name then { r with definition := .defined } else r := rfl

@[simp] theorem ids_write : (t.write id tag scope).ids = t.ids := by
  rw [write, reviseRecord, ids_map]

@[simp] theorem ids_define : (t.define name).ids = t.ids := by
  rw [define, ids_map]

theorem get?_write :
    (t.write id tag scope).get? n =
      (t.get? n).map fun r => if n = id then { r with tag, scope } else r := by
  rw [write, reviseRecord, get?_map]
  refine Option.map_congr fun r hr => ?_
  rw [(t.get?_eq_some_iff.mp hr).2]

theorem get?_define :
    (t.define name).get? n = (t.get? n).map fun r =>
      if r.lexeme = name then { r with definition := .defined } else r := by
  rw [define, get?_map]

theorem isSome_get?_iff : (t.get? n).isSome ↔ n ∈ t.ids := by
  rw [Option.isSome_iff_ne_none, ne_eq, get?_eq_none_iff, not_not]

variable {t n} in
theorem get_eq_ok_iff {r : Record} : t.get n = .ok r ↔ t.get? n = some r := by
  unfold get
  cases t.get? n <;> simp

/-- A node has a record exactly if it is one of the nodes of the table. -/
theorem exists_get_iff : (∃ r, t.get n = .ok r) ↔ n ∈ t.ids := by
  simp only [get_eq_ok_iff, ← Option.isSome_iff_exists, isSome_get?_iff]

theorem tagD_write_of_ne (h : n ≠ id) : (t.write id tag scope).tagD n = t.tagD n := by
  simp [tagD, get?_write, h]

variable {id} in
theorem tagD_write_self (h : id ∈ t.ids) : (t.write id tag scope).tagD id = tag := by
  obtain ⟨r, hr⟩ := Option.isSome_iff_exists.mp ((isSome_get?_iff t id).mpr h)
  simp [tagD, get?_write, hr]

@[simp] theorem tagD_define : (t.define name).tagD n = t.tagD n := by
  simp only [tagD, get?_define, Option.map_map]
  congr 2
  funext r
  simp only [Function.comp_apply]
  split <;> rfl

variable {n} in
theorem tag_eq (h : n ∈ t.ids) : t.tag n = .ok (t.tagD n) := by
  obtain ⟨r, hr⟩ := Option.isSome_iff_exists.mp ((isSome_get?_iff t n).mpr h)
  simp [tag, tagD, get, hr, bind, Except.bind, pure, Except.pure]

variable {id} in
/-- Giving a known node a tag and a scope rewrites its record once. -/
theorem assign_of_mem (h : id ∈ t.ids) :
    Table.assign id tag scope t = .ok () (t.write id tag scope) := by
  have htag : setTag id tag t =
      .ok () (t.reviseRecord id (fun r => { r with tag }) fun _ => rfl) := t.revise_of_mem _ h
  rw [Table.assign, Change.bind_of_ok htag, setScope, revise_of_mem _ _ (by simpa [reviseRecord])]
  congr 1
  apply ext_records
  simp only [reviseRecord, records_map, write, List.map_map]
  refine List.map_congr_left fun r _ => ?_
  by_cases hr : r.id = id <;> simp [hr]

variable {id} in
/-- Giving an unknown node a tag and a scope fails and leaves the table as it was. -/
theorem assign_of_notMem (h : id ∉ t.ids) :
    Table.assign id tag scope t = .error (.nodeNotFound id) t :=
  Change.bind_of_error (t.revise_of_notMem _ h)

/-- Giving a tag and defining a text do not get in each other's way. -/
theorem define_write :
    (t.write id tag scope).define name = (t.define name).write id tag scope := by
  apply ext_records
  simp only [records_define, records_write, List.map_map]
  refine List.map_congr_left fun r _ => ?_
  by_cases hid : r.id = id <;> by_cases hl : r.lexeme = name <;> simp [hid, hl]

end Write

/-- The table in which several nodes have been given tags, one after the other. -/
def writeAll (t : Table) (scope : UInt32) : List (NodeId × Tag) → Table
  | [] => t
  | mark :: marks => (t.write mark.1 mark.2 scope).writeAll scope marks

section WriteAll

variable (t : Table) (scope : UInt32) (marks : List (NodeId × Tag))

@[simp] theorem ids_writeAll : (t.writeAll scope marks).ids = t.ids := by
  induction marks generalizing t with
  | nil => rfl
  | cons mark marks ih => simp [writeAll, ih]

theorem writeAll_append (more : List (NodeId × Tag)) :
    t.writeAll scope (marks ++ more) = (t.writeAll scope marks).writeAll scope more := by
  induction marks generalizing t with
  | nil => rfl
  | cons mark marks ih => simp [writeAll, ih]

theorem define_writeAll (name : String) :
    (t.writeAll scope marks).define name = (t.define name).writeAll scope marks := by
  induction marks generalizing t with
  | nil => rfl
  | cons mark marks ih => simp [writeAll, ih, define_write]

variable {marks}

theorem tagD_writeAll_of_notMem {n : NodeId} (h : n ∉ marks.map Prod.fst) :
    (t.writeAll scope marks).tagD n = t.tagD n := by
  induction marks generalizing t with
  | nil => rfl
  | cons mark marks ih =>
      simp only [List.map_cons, List.mem_cons, not_or] at h
      rw [writeAll, ih _ h.2, tagD_write_of_ne t mark.1 n mark.2 scope h.1]

/-- A node that is given the same tag each time has that tag in the end. -/
theorem tagD_writeAll_of_mem {n : NodeId} {tag : Tag} (hmem : n ∈ marks.map Prod.fst)
    (honly : ∀ mark ∈ marks, mark.1 = n → mark.2 = tag) (hid : n ∈ t.ids) :
    (t.writeAll scope marks).tagD n = tag := by
  induction marks generalizing t with
  | nil => simp at hmem
  | cons mark marks ih =>
      have hid' : n ∈ (t.write mark.1 mark.2 scope).ids := by simpa using hid
      by_cases hrest : n ∈ marks.map Prod.fst
      · exact ih _ hrest (fun m hm => honly m (by simp [hm])) hid'
      · have hn : mark.1 = n := by
          rcases List.mem_cons.mp hmem with h | h
          · exact h.symm
          · exact absurd h hrest
        rw [writeAll, tagD_writeAll_of_notMem _ _ hrest, ← honly mark (by simp) hn, ← hn]
        exact tagD_write_self t mark.2 scope (hn ▸ hid)

end WriteAll

/-- The tags of the nodes of a phrase, in pre-order. -/
def column (t : Table) (p : Phrase) : List Tag := p.preOrder.map t.tagD

section Column

variable {t u : Table} {p : Phrase}

theorem column_eq_cons (t : Table) (p : Phrase) :
    t.column p = t.tagD p.id :: p.parts.flatMap t.column := by
  simp only [column, Phrase.preOrder_eq_cons p, List.map_cons, List.map_flatMap]
  rfl

@[simp] theorem length_column (t : Table) (p : Phrase) : (t.column p).length = p.size := by
  simp [column, Phrase.length_preOrder]

theorem column_eq_iff : t.column p = u.column p ↔ ∀ n ∈ p.preOrder, t.tagD n = u.tagD n :=
  List.map_inj_left

theorem column_write (t : Table) {id : NodeId} (h : id ∉ p.preOrder) (tag : Tag)
    (scope : UInt32) : (t.write id tag scope).column p = t.column p :=
  column_eq_iff.mpr fun n hn => tagD_write_of_ne t id n tag scope fun he => h (he ▸ hn)

theorem tagD_of_mem_records {r : Record} (hr : r ∈ t.records) : t.tagD r.id = r.tag := by
  simp [tagD, t.get?_of_mem hr]

/-- In a table for the nodes of a phrase, the column of the phrase lists the tags of all
records. -/
theorem column_eq_map_tag (hids : t.ids = p.preOrder) :
    t.column p = t.records.map Record.tag := by
  rw [column, ← hids, ids, List.map_map]
  exact List.map_congr_left fun r hr => tagD_of_mem_records hr

end Column

end Table

namespace Step

/-- Giving a known node a tag succeeds and rewrites its record. -/
theorem assign_eq {s : State} {id : NodeId} (h : id ∈ s.table.ids) (tag : Tag) :
    assign id tag s = {
      state := { s with table := s.table.write id tag s.scope }
      events := [.assigned id tag s.scope] } := by
  simp only [assign, s.table.assign_of_mem tag s.scope h]

/-- Giving an unknown node a tag fails and changes nothing. -/
theorem assign_of_notMem {s : State} {id : NodeId} (h : id ∉ s.table.ids) (tag : Tag) :
    assign id tag s = fail (.nodeNotFound id) s := by
  simp only [assign, s.table.assign_of_notMem tag s.scope h]
  rfl

/-- Giving several known nodes their tags succeeds. -/
theorem all_assign_eq {s : State} {marks : List (NodeId × Tag)}
    (h : ∀ mark ∈ marks, mark.1 ∈ s.table.ids) :
    all (marks.map fun mark => assign mark.1 mark.2) s = {
      state := { s with table := s.table.writeAll s.scope marks }
      events := marks.map fun mark => .assigned mark.1 mark.2 s.scope } := by
  induction marks generalizing s with
  | nil => rfl
  | cons mark marks ih =>
      let next : State := { s with table := s.table.write mark.1 mark.2 s.scope }
      have hrest : ∀ m ∈ marks, m.1 ∈ next.table.ids := by
        intro m hm
        simpa [next] using h m (by simp [hm])
      simp only [List.map_cons, all_cons, andThen, assign_eq (h mark (by simp))]
      exact congrArg (fun out : Outcome => { out with
        events := .assigned mark.1 mark.2 s.scope :: out.events }) (ih hrest)

/-- After a step without a fault, what follows goes on from the state it has left. -/
theorem andThen_of_none {first : Step} {s : State} (h : (first s).fault = none)
    (second : Step) :
    first.andThen second s = { second (first s).state with
      events := (first s).events ++ (second (first s).state).events } := by
  simp [andThen, h]

theorem andThen_of_some {first : Step} {s : State} {fault : Fault}
    (h : (first s).fault = some fault) (second : Step) :
    first.andThen second s = first s := by
  simp [andThen, h]

theorem andThen_eq {first : Step} {s s' : State} {events : List Event}
    (h : first s = { state := s', events }) (second : Step) :
    first.andThen second s = { second s' with events := events ++ (second s').events } := by
  rw [andThen_of_none (by rw [h]), h]

@[simp] theorem withValue_ok {α : Type} (a : α) (next : α → Step) :
    withValue (.ok a) next = next a := rfl

theorem withTag_eq {s : State} {id : NodeId} (h : id ∈ s.table.ids) (next : Tag → Step) :
    withTag id next s = next (s.table.tagD id) s := by
  simp [withTag, Table.tag_eq s.table h]

end Step

namespace Tree

/-- Before the first run, every record is the blank one of its phrase. -/
theorem exists_of_get?_blankTable {t : Tree} {n : NodeId} {r : Record}
    (h : t.blankTable.get? n = some r) : ∃ q, r = .blank q := by
  have hr := (t.blankTable.get?_eq_some_iff.mp h).1
  exact (Table.mem_records_enter hr).resolve_left List.not_mem_nil

theorem tagD_blankTable (t : Tree) (n : NodeId) : t.blankTable.tagD n = .unbound := by
  rw [Table.tagD]
  cases hn : t.blankTable.get? n with
  | none => rfl
  | some r =>
      obtain ⟨q, rfl⟩ := exists_of_get?_blankTable hn
      rfl

end Tree

end TreeTyping
