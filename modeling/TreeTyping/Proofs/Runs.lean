import TreeTyping.Proofs.Recheck

/-!
# Any number of runs

A checker can be run again and again, whatever its runs return. The tree and the nodes of the
table stay what they were, every run ends its typing in the fault of the evaluation of the tree,
and from the first run on the table holds the tags of that typing.
-/

namespace TreeTyping

namespace Checker

/-- A checker after a number of runs. -/
def after (c : Checker) : Nat → Checker
  | 0 => c
  | k + 1 => (c.after k).check.checker

theorem rerun_eq_check (c : Checker) (k : Nat) : c.rerun k = (c.after k).check := by
  induction k with
  | zero => rfl
  | succ k ih => rw [rerun, ih, after]

theorem tree_after (c : Checker) (k : Nat) : (c.after k).tree = c.tree := by
  induction k with
  | zero => rfl
  | succ k ih => rw [after, checker_check, ← ih]

theorem table_after_succ (c : Checker) (k : Nat) :
    (c.after (k + 1)).table = (c.tree.root.typing none (c.after k).state).state.table := by
  rw [after, checker_check, ← c.tree_after k]
  rfl

end Checker

/-- Typing a phrase changes neither the nodes of a table nor what is written at them. -/
theorem Phrase.locations_typing (p : Phrase) (context : Option Category) (s : State) :
    (p.typing context s).state.table.records.map Record.location =
      s.table.records.map Record.location := by
  let related : Table → Table → Prop := fun t u =>
    u.records.map Record.location = t.records.map Record.location
  have frame : Table.Frame p.preOrder related := by
    refine ⟨fun t => rfl, fun h h' => Eq.trans h' h, ?_, ?_⟩
    · intro t id tag scope _
      simp only [related, Table.records_write, List.map_map]
      refine List.map_congr_left fun r _ => ?_
      simp only [Function.comp_apply]
      split <;> rfl
    · intro t name
      simp only [related, Table.records_define, List.map_map]
      refine List.map_congr_left fun r _ => ?_
      simp only [Function.comp_apply]
      split <;> rfl
  exact Phrase.keeps_typing frame context s

/-- A checker for a tree, before its first run. -/
def Tree.freshChecker (t : Tree) : Checker := ⟨t, { table := t.blankTable }⟩

namespace Tree

variable {t : Tree}

theorem Grown.start_eq_fresh (h : t.Grown) : Checker.start t = .ok t.freshChecker := h.start_eq

/-- After any number of runs the table has one record for each phrase of the tree, in
pre-order. -/
theorem Grown.locations_after (h : t.Grown) (k : Nat) :
    (t.freshChecker.after k).table.records.map Record.location =
      t.root.subphrases.map Phrase.location := by
  induction k with
  | zero =>
      have hrecords : (t.freshChecker.after 0).table.records = _ := h.records_blankTable
      rw [hrecords, List.map_map]
      rfl
  | succ k ih =>
      rw [Checker.table_after_succ, Phrase.locations_typing]
      exact ih

theorem Grown.ids_after (h : t.Grown) (k : Nat) :
    (t.freshChecker.after k).table.ids = t.root.preOrder := by
  have hnodes := congrArg (List.map Location.node) (h.locations_after k)
  rw [List.map_map, List.map_map] at hnodes
  rw [← Phrase.map_id_subphrases]
  exact hnodes

/-- After any number of runs, the tag of every phrase can be looked up. -/
theorem Grown.tag_after (h : t.Grown) (k : Nat) {p : Phrase} (hp : p ∈ t.root.subphrases) :
    (t.freshChecker.after k).table.tag p.id =
      .ok ((t.freshChecker.after k).table.tagD p.id) := by
  apply Table.tag_eq
  rw [h.ids_after]
  exact Phrase.id_mem_preOrder_of_mem hp

namespace Grown

/-- Every run but the first starts from a table that holds the tags of the tree. -/
theorem atRest_after (h : t.Grown) (k : Nat) : (t.freshChecker.after (k + 1)).AtRest := by
  obtain ⟨htree, htable⟩ := h.atRest_check.rerun k
  have hrest := h.atRest_check.congr htree htable
  rwa [Checker.rerun_eq_check] at hrest

/-- From the first run on, the table holds the tags of the tree. -/
theorem column_after (h : t.Grown) (k : Nat) :
    (t.freshChecker.after (k + 1)).table.column t.root = t.root.tagging none := by
  have hcolumn := (h.atRest_after k).column_eq
  rwa [Checker.tree_after] at hcolumn

/-- The typing of every run ends in the fault of the evaluation of the tree. -/
theorem fault_after (h : t.Grown) (k : Nat) :
    (t.root.typing none (t.freshChecker.after k).state).fault =
      faultOf (t.root.evaluate none) := by
  -- The first run starts from a blank table, every other run from a table at rest.
  cases k with
  | zero => exact h.settles_root.1
  | succ k =>
      have hrest := h.atRest_after k
      have hrun := (t.freshChecker.after (k + 1)).tree.root.rests none _ hrest.known hrest.column_eq
      rw [Checker.tree_after] at hrun
      exact hrun.1

/-- Every run returns the fault of the evaluation of the tree, or else the verdict on its
table. -/
theorem result_after (h : t.Grown) (k : Nat) :
    (t.freshChecker.after k).check.result =
      match faultOf (t.root.evaluate none) with
      | some fault => .error fault
      | none => (t.freshChecker.after (k + 1)).table.verdict t.root := by
  rw [Checker.result_check, Checker.tree_after, Checker.table_after_succ, ← h.fault_after k]
  rfl

/-- If the tree has a tag, a run returns what its table is judged to be. -/
theorem judged_after (h : t.Grown) (k : Nat) {tag : Tag} (hok : t.root.evaluate none = .ok tag) :
    (t.freshChecker.after (k + 1)).table.Judged t.root (t.freshChecker.after k).check.result := by
  rw [h.result_after k, hok, faultOf_ok]
  apply Table.judged_verdict
  rw [h.ids_after]
  exact t.root.id_mem_preOrder

/-- After any number of runs, a record stands for a phrase of the tree. -/
theorem exists_phrase_of_record (h : t.Grown) {k : Nat} {r : Record}
    (hr : r ∈ (t.freshChecker.after k).table.records) :
    ∃ p ∈ t.root.subphrases, r.location = p.location := by
  have hmem := List.mem_map_of_mem (f := Record.location) hr
  rw [h.locations_after k] at hmem
  obtain ⟨p, hp, hlocation⟩ := List.mem_map.mp hmem
  exact ⟨p, hp, hlocation.symm⟩

theorem tagD_of_record {k : Nat} {r : Record}
    (hr : r ∈ (t.freshChecker.after k).table.records) :
    (t.freshChecker.after k).table.tagD r.id = r.tag :=
  Table.tagD_of_mem_records hr

end Grown

end Tree

end TreeTyping
