import TreeTyping.Proofs.Reports
import TreeTyping.Proofs.Scopes
import TreeTyping.Proofs.Visits

/-!
# What a run does not touch

A node keeps its tag and its scope as long as no event reports a tag for it. A phrase that fails
has typed some of its parts only. Nothing in its other parts is ever visited or given a tag, so
after any number of runs these parts are as they were before the first.
-/

namespace TreeTyping

theorem Tree.scopeD_blankTable (t : Tree) (n : NodeId) : t.blankTable.scopeD n = 0 := by
  rw [Table.scopeD]
  cases hn : t.blankTable.get? n with
  | none => rfl
  | some r =>
      obtain ⟨q, rfl⟩ := exists_of_get?_blankTable hn
      rfl

namespace Step

/-- A step changes the tag or the scope of a node only if it reports a tag for it. -/
def Spares (n : NodeId) (step : Step) : Prop :=
  ∀ s : State, n ∉ assignedNodes (step s).events →
    (step s).state.table.tagD n = s.table.tagD n ∧
      (step s).state.table.scopeD n = s.table.scopeD n

theorem pervasive_spares (ids : List NodeId) (n : NodeId) : Pervasive ids (Spares n) where
  done _ _ := ⟨rfl, rfl⟩
  fail _ _ _ := ⟨rfl, rfl⟩
  andThen := by
    intro first second h h' s hn
    cases hf : (first s).fault with
    | some fault =>
        rw [andThen_of_some hf] at hn ⊢
        exact h s hn
    | none =>
        rw [andThen_of_none hf] at hn ⊢
        rw [assignedNodes_append, List.mem_append, not_or] at hn
        obtain ⟨htag, hscope⟩ := h s hn.1
        obtain ⟨htag', hscope'⟩ := h' (first s).state hn.2
        exact ⟨htag'.trans htag, hscope'.trans hscope⟩
  withTag := by
    intro id next h s
    unfold withTag
    cases s.table.tag id with
    | ok tag => exact h tag s
    | error fault => exact fun _ => ⟨rfl, rfl⟩
  assign := by
    intro id _ tag s hn
    by_cases hid : id ∈ s.table.ids
    · rw [assign_eq hid] at hn ⊢
      have hne : n ≠ id := by simpa [assignedNodes, Event.assigned?] using hn
      exact ⟨s.table.tagD_write_of_ne id n tag s.scope hne,
        s.table.scopeD_write_of_ne id n tag s.scope hne⟩
    · rw [assign_of_notMem hid]
      exact ⟨rfl, rfl⟩
  define name s _ := ⟨s.table.tagD_define n name, s.table.scopeD_define n name⟩
  emit _ _ _ _ := ⟨rfl, rfl⟩
  inNewScope h s := h { s with scope := s.lastScope + 1, lastScope := s.lastScope + 1 }

end Step

namespace Checker

/-- A node for which no tag has been reported is as it was before the first run. -/
theorem spared_after (c : Checker) {n : NodeId} (k : Nat) (h : n ∉ assignedNodes (c.log k)) :
    (c.after k).table.tagD n = c.table.tagD n ∧ (c.after k).table.scopeD n = c.table.scopeD n := by
  induction k with
  | zero => exact ⟨rfl, rfl⟩
  | succ k ih =>
      rw [log, assignedNodes_append, List.mem_append, not_or] at h
      obtain ⟨htag, hscope⟩ := ih h.1
      have hrun : n ∉ assignedNodes ((c.after k).tree.root.typing none (c.after k).state).events :=
        fun hmem => h.2 (List.filterMap_subset _ (c.after k).events_typing_subset hmem)
      have hspares :=
        Phrase.pervasive_typing (Step.pervasive_spares _ n) none (c.after k).state hrun
      rw [after, checker_check]
      exact ⟨hspares.1.trans htag, hspares.2.trans hscope⟩

end Checker

namespace Phrase

/-- A construct has the same value wherever it stands. -/
theorem evaluate_eq_of_construct {p : Phrase} {c : Construct} (hc : p.category = .construct c)
    (context context' : Option Category) : p.evaluate context = p.evaluate context' := by
  rw [evaluate_eq_valueOf, evaluate_eq_valueOf]
  simp only [valueOf, hc]

section Untyped

variable {root z b : Phrase} {context : Option Category} {j : Nat}
  (hnodup : root.preOrder.Nodup) (hz : z ∈ root.subphrases) (hb : z.parts[j]? = some b)

include hnodup hz hb

/-- Whatever is entered below a part has been entered through it. -/
theorem Entered.typed_of_part {context' : Option Category} {q : Phrase}
    (h : root.Entered context context' q) (hq : q ∈ b.subphrases) :
    j ∈ z.fate.typed ∧ ∃ context'', root.Entered context context'' z := by
  have hmem := List.mem_of_getElem? hb
  have hbelow := subphrases_subset hz (part_mem_subphrases hmem)
  obtain ⟨context'', hentered⟩ := h.of_mem hnodup hbelow hq
  cases hentered with
  | top => exact absurd hz (notMem_subphrases_part (nodup_of_mem_subphrases hnodup hz) hmem)
  | @part context' p _ i before typed hpart =>
      obtain rfl := holder_eq hnodup before.mem_subphrases hz (List.mem_of_getElem? hpart) hmem
      have hznodup := nodup_of_mem_subphrases hnodup hz
      obtain rfl := position_eq hznodup hpart hb b.self_mem_subphrases b.self_mem_subphrases
      exact ⟨typed, _, before⟩

/-- If a phrase fails, no event speaks of what lies below a part that it has not typed. -/
theorem Reported.notMem_untyped {e : Event} (h : root.Reported context e)
    (hfailed : ∀ context value, z.evaluate context ≠ .ok value) (hj : j ∉ z.fate.typed) :
    ∀ m ∈ b.preOrder, e.visited? ≠ some m ∧ e.assigned? ≠ some m := by
  intro m hm
  have hbelow := subphrases_subset hz (part_mem_subphrases (List.mem_of_getElem? hb))
  have hphrase : ∀ q ∈ root.subphrases, q.id = m → q ∈ b.subphrases := by
    rintro q hq rfl
    rw [← map_id_subphrases] at hm
    obtain ⟨r, hr, hid⟩ := List.mem_map.mp hm
    exact eq_of_id_eq hnodup (subphrases_subset hbelow hr) hq hid ▸ hr
  cases h with
  | @visit _ q entered =>
      refine ⟨fun hid => hj ?_, by simp [Event.assigned?]⟩
      have hq := hphrase q entered.mem_subphrases (Option.some.inj hid)
      exact (entered.typed_of_part hnodup hz hb hq).1
  | @tag _ p q value tag scope entered evaluated named =>
      refine ⟨by simp [Event.visited?], fun hid => hj ?_⟩
      rcases named with rfl | hpart
      · have hq := hphrase q entered.mem_subphrases (Option.some.inj hid)
        exact (entered.typed_of_part hnodup hz hb hq).1
      · have hroot := subphrases_subset entered.mem_subphrases (part_mem_subphrases hpart)
        have hq := hphrase q hroot (Option.some.inj hid)
        rcases eq_or_holder_mem hnodup hbelow entered.mem_subphrases hpart hq with rfl | hp
        · obtain rfl := holder_eq hnodup entered.mem_subphrases hz hpart (List.mem_of_getElem? hb)
          exact absurd evaluated (hfailed _ value)
        · exact (entered.typed_of_part hnodup hz hb hp).1

end Untyped

end Phrase

/-- No node of a phrase is among the visited ones, and all of them are unbound and in scope zero. -/
def Table.Untouched (t : Table) (visited : List NodeId) (p : Phrase) : Prop :=
  ∀ m ∈ p.preOrder, t.tag m = .ok .unbound ∧ t.scope m = .ok 0 ∧ m ∉ visited

namespace Tree.Grown

variable {t : Tree}

/-- A phrase that any run has visited has been entered. -/
theorem entered_of_visited (h : t.Grown) {k : Nat} {q : Phrase} (hq : q ∈ t.root.subphrases)
    (hvisited : q.id ∈ visitedNodes (t.freshChecker.log k)) :
    ∃ context, t.root.Entered none context q := by
  obtain ⟨e, he, hid⟩ := List.mem_filterMap.mp hvisited
  rcases h.reported_log k e he with hreported | ⟨records, rfl⟩
  · cases hreported with
    | @visit context r entered =>
        have hr := entered.mem_subphrases
        obtain rfl := Phrase.eq_of_id_eq h.nodup_preOrder hr hq (Option.some.inj hid)
        exact ⟨context, entered⟩
    | tag => cases hid
  · cases hid

/-- If a phrase fails, then no run touches what lies below a part that it has not typed. -/
theorem untouched_after (h : t.Grown) (k : Nat) {z b : Phrase} {j : Nat}
    (hz : z ∈ t.root.subphrases) (hb : z.parts[j]? = some b)
    (hfailed : ∀ context value, z.evaluate context ≠ .ok value) (hj : j ∉ z.fate.typed) :
    (t.freshChecker.after k).table.Untouched (visitedNodes (t.freshChecker.log k)) b := by
  intro m hm
  have hevents : ∀ e ∈ t.freshChecker.log k, e.visited? ≠ some m ∧ e.assigned? ≠ some m := by
    intro e he
    rcases h.reported_log k e he with hreported | ⟨records, rfl⟩
    · exact hreported.notMem_untyped h.nodup_preOrder hz hb hfailed hj m hm
    · simp [Event.visited?, Event.assigned?]
  have hids : m ∈ (t.freshChecker.after k).table.ids := by
    rw [h.ids_after k]
    have hbelow := Phrase.subphrases_subset hz
      (Phrase.part_mem_subphrases (List.mem_of_getElem? hb))
    exact Phrase.preOrder_subset hbelow hm
  have hassigned : m ∉ assignedNodes (t.freshChecker.log k) := by
    intro hmem
    obtain ⟨e, he, hid⟩ := List.mem_filterMap.mp hmem
    exact (hevents e he).2 hid
  obtain ⟨htag, hscope⟩ := t.freshChecker.spared_after k hassigned
  refine ⟨?_, ?_, ?_⟩
  · rw [Table.tag_eq _ hids, htag]
    exact congrArg _ (t.tagD_blankTable m)
  · rw [Table.scope_eq _ hids, hscope]
    exact congrArg _ (t.scopeD_blankTable m)
  · intro hmem
    obtain ⟨e, he, hid⟩ := List.mem_filterMap.mp hmem
    exact (hevents e he).1 hid

end Tree.Grown

end TreeTyping
