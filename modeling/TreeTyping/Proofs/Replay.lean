import TreeTyping.Proofs.Reports

/-!
# Replaying the log

The log of a checker tells every tag that was given, and the scope in which it was given. Whoever
has the table from before the first run and the log can therefore do again what was done, and ends
with the tags and scopes of the checker's table. This holds of each single step, whatever the table
before it, and so of every typing and of every number of runs. Definitions are not logged, and the
replayed table has none.
-/

namespace TreeTyping

namespace Table

/-- Does to a table what an event reports. Only events of given tags change it. -/
def redo (t : Table) : Event → Except Fault Table
  | .assigned id tag scope =>
      match assign id tag scope t with
      | .ok () u => .ok u
      | .error fault _ => .error fault
  | .visiting .. | .completed _ | .rejected _ => .ok t

/-- Does to a table what the events of a log report, in their order. -/
def replay (t : Table) (events : List Event) : Except Fault Table := events.foldlM redo t

/-- The same table with every text undefined. -/
def withoutDefinitions (t : Table) : Table :=
  t.map (fun r => { r with definition := .undefined }) fun _ => rfl

section Replay

variable (t : Table)

theorem replay_append (first second : List Event) :
    t.replay (first ++ second) = (t.replay first).bind (·.replay second) :=
  List.foldlM_append

/-- Two logs that can be replayed one after the other make one log that can be replayed. -/
theorem replay_append_of_ok {u v : Table} {first second : List Event}
    (h : t.replay first = .ok u) (h' : u.replay second = .ok v) :
    t.replay (first ++ second) = .ok v := by
  rw [replay_append, h]
  exact h'

/-- A log in which no tag is given changes nothing. -/
theorem replay_of_unassigned {events : List Event} (h : ∀ e ∈ events, e.assigned? = none) :
    t.replay events = .ok t := by
  induction events with
  | nil => rfl
  | cons e rest ih =>
      have hrest := ih fun e' he' => h e' (List.mem_cons_of_mem e he')
      cases e with
      | assigned id tag scope => cases h _ List.mem_cons_self
      | visiting | completed | rejected => exact hrest

end Replay

section WithoutDefinitions

variable (t : Table) (id n : NodeId) (tag : Tag) (scope : UInt32) (name : String)

theorem get?_withoutDefinitions :
    t.withoutDefinitions.get? n =
      (t.get? n).map fun r => { r with definition := .undefined } := by
  rw [withoutDefinitions, get?_map]

@[simp] theorem ids_withoutDefinitions : t.withoutDefinitions.ids = t.ids := by
  rw [withoutDefinitions, ids_map]

theorem tag_withoutDefinitions : t.withoutDefinitions.tag n = t.tag n := by
  simp only [Table.tag, get, get?_withoutDefinitions]
  cases t.get? n <;> rfl

theorem scope_withoutDefinitions : t.withoutDefinitions.scope n = t.scope n := by
  simp only [Table.scope, get, get?_withoutDefinitions]
  cases t.get? n <;> rfl

theorem withoutDefinitions_write :
    (t.write id tag scope).withoutDefinitions = t.withoutDefinitions.write id tag scope := by
  apply ext_records
  simp only [withoutDefinitions, records_map, records_write, List.map_map]
  apply List.map_congr_left
  intro r _
  by_cases h : r.id = id <;> simp [h]

theorem withoutDefinitions_define :
    (t.define name).withoutDefinitions = t.withoutDefinitions := by
  apply ext_records
  simp only [withoutDefinitions, records_map, records_define, List.map_map]
  apply List.map_congr_left
  intro r _
  by_cases h : r.lexeme = name <;> simp [h]

end WithoutDefinitions

end Table

theorem Tree.Grown.withoutDefinitions_blankTable {t : Tree} (h : t.Grown) :
    t.blankTable.withoutDefinitions = t.blankTable := by
  apply Table.ext_records
  rw [Table.withoutDefinitions, Table.records_map, h.records_blankTable, List.map_map]
  rfl

namespace Step

/-- What a step reports can be replayed, and the replay gives the same tags and scopes as the step
itself, whether or not the step fails. -/
def Replays (step : Step) : Prop :=
  ∀ s : State,
    s.table.withoutDefinitions.replay (step s).events =
      .ok (step s).state.table.withoutDefinitions

theorem replays_assign (id : NodeId) (tag : Tag) : (assign id tag).Replays := by
  intro s
  by_cases hid : id ∈ s.table.ids
  · have hid' : id ∈ s.table.withoutDefinitions.ids := by rwa [Table.ids_withoutDefinitions]
    have hredo : s.table.withoutDefinitions.redo (.assigned id tag s.scope) =
        .ok (s.table.withoutDefinitions.write id tag s.scope) := by
      rw [Table.redo, Table.assign_of_mem _ _ _ hid']
    rw [assign_eq hid, Table.withoutDefinitions_write, ← hredo]
    -- The log has one entry, so the fold ends after it.
    exact bind_pure _
  · rw [assign_of_notMem hid]
    rfl

theorem Replays.andThen {first second : Step} (h : first.Replays) (h' : second.Replays) :
    (first.andThen second).Replays := by
  intro s
  cases hf : (first s).fault with
  | some fault =>
      rw [andThen_of_some hf]
      exact h s
  | none =>
      rw [andThen_of_none hf]
      exact Table.replay_append_of_ok _ (h s) (h' (first s).state)

/-- No typing gives a tag without reporting it, or reports one without giving it. -/
theorem pervasive_replays (ids : List NodeId) : Pervasive ids Replays where
  done _ := rfl
  fail _ _ := rfl
  andThen := Replays.andThen
  withTag := by
    intro id next h s
    unfold withTag
    cases s.table.tag id with
    | ok tag => exact h tag s
    | error fault => rfl
  assign id _ tag := replays_assign id tag
  define name s := by
    simp only [define, Table.withoutDefinitions_define]
    rfl
  emit _ _ _ := rfl
  inNewScope h s := h { s with scope := s.lastScope + 1, lastScope := s.lastScope + 1 }

end Step

namespace Checker

variable (c : Checker)

/-- The events of a run replay to the table that the run leaves. -/
theorem replay_check :
    c.table.withoutDefinitions.replay c.check.events =
      .ok c.check.checker.table.withoutDefinitions := by
  obtain ⟨closing, hevents, hclosing⟩ := c.events_check
  have htyping : (c.tree.root.typing none).Replays :=
    Phrase.pervasive_typing (Step.pervasive_replays _) none
  have hrest : ∀ e ∈ closing, e.assigned? = none := by
    intro e he
    obtain ⟨records, rfl⟩ := hclosing e he
    rfl
  rw [hevents, checker_check]
  exact Table.replay_append_of_ok _ (htyping c.state) (Table.replay_of_unassigned _ hrest)

/-- The log of any number of runs replays to the table after them. -/
theorem replay_log (k : Nat) :
    c.table.withoutDefinitions.replay (c.log k) = .ok (c.after k).table.withoutDefinitions := by
  induction k with
  | zero => rfl
  | succ k ih => exact Table.replay_append_of_ok _ ih (c.after k).replay_check

end Checker

namespace Tree.Grown

variable {t : Tree}

/-- From the table before the first run, the log of any number of runs replays to the tags and
scopes of the checker's table, whatever the runs have returned. Of all runs, only the first adds to
the tags in the log. -/
theorem replay_gives_table (h : t.Grown) :
    ∃ checker, Checker.start t = .ok checker ∧ Table.ofTree t = .ok checker.table ∧ ∀ k,
      (∃ replayed, checker.table.replay (checker.log k) = .ok replayed ∧
        (∀ n, replayed.tag n = (checker.after k).table.tag n ∧
          replayed.scope n = (checker.after k).table.scope n) ∧
        replayed = (checker.after k).table.withoutDefinitions) ∧
      ∀ id tag scope, Event.assigned id tag scope ∉ (checker.after (k + 1)).check.events := by
  refine ⟨t.freshChecker, h.start_eq_fresh, h.ofTree_eq, fun k => ⟨?_, ?_⟩⟩
  · have hreplay := t.freshChecker.replay_log k
    have hblank : t.freshChecker.table.withoutDefinitions = t.freshChecker.table :=
      h.withoutDefinitions_blankTable
    rw [hblank] at hreplay
    refine ⟨_, hreplay, fun n => ⟨?_, ?_⟩, rfl⟩
    · exact Table.tag_withoutDefinitions _ n
    · exact Table.scope_withoutDefinitions _ n
  · intro id tag scope hmem
    have hnode : id ∈ assignedNodes (t.freshChecker.after (k + 1)).check.events :=
      List.mem_filterMap.mpr ⟨_, hmem, rfl⟩
    rw [h.assignedNodes_check k] at hnode
    exact List.not_mem_nil hnode

/-- Two failed runs on the broken procedure log three tags, all of them in the first run and in the
scope of the body, and these three make the table. -/
theorem replay_brokenProcedureTree :
    brokenProcedureTree.Grown ∧
      ∃ checker, Checker.start brokenProcedureTree = .ok checker ∧
        assignedNodes (checker.log 2) = [0, 1, 3] ∧
        ∃ replayed, checker.table.replay (checker.log 2) = .ok replayed ∧
          replayed.tag 3 = .ok .string ∧ replayed.scope 3 = .ok 1 ∧
          replayed.tag 7 = .ok .unbound ∧
          replayed = (checker.after 2).table.withoutDefinitions ∧
          Event.assigned 3 .string 1 ∉ (checker.after 1).check.events := by
  have hgrown := brokenProcedureTree_grown
  obtain ⟨checker, hstart, -, hruns⟩ := replay_gives_table hgrown
  obtain rfl := Except.ok.inj (hstart.symm.trans hgrown.start_eq_fresh)
  obtain ⟨replayed, hreplay, htable, hrecords⟩ := (hruns 2).1
  refine ⟨hgrown, _, hstart, rfl, replayed, hreplay, ?_, ?_, ?_, hrecords, (hruns 0).2 3 .string 1⟩
  · exact (htable 3).1
  · exact (htable 3).2
  · exact (htable 7).1

end Tree.Grown

end TreeTyping
