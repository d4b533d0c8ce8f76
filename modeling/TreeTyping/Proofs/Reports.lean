import TreeTyping.Proofs.Entry
import TreeTyping.Proofs.Runs

/-!
# What a typing reports

The first typing of a phrase reports visits to the phrases that it enters, and tags of entered
phrases that have a value and of their parts. Typing the phrase again from its own tags reports
visits on the way to the fault and no tags. Of all the runs of a checker, only the first
therefore reports tags.
-/

namespace TreeTyping

/-- The node to which an event reports that a tag is given. -/
def Event.assigned? : Event → Option NodeId
  | .assigned id .. => some id
  | .visiting .. | .completed _ | .rejected _ => none

/-- The nodes that are given tags in a sequence of events, in order. -/
def assignedNodes (events : List Event) : List NodeId := events.filterMap Event.assigned?

@[simp] theorem assignedNodes_append (events events' : List Event) :
    assignedNodes (events ++ events') = assignedNodes events ++ assignedNodes events' :=
  List.filterMap_append

namespace Step

/-- A step that reports nothing. -/
def Silent (step : Step) : Prop := ∀ s : State, (step s).events = []

theorem observing_silent : Observing Silent where
  done _ := rfl
  fail _ _ := rfl
  withTag := by
    intro id next h s
    unfold withTag
    cases s.table.tag id with
    | ok tag => exact h tag s
    | error fault => rfl

theorem Silent.all {steps : List Step} (h : ∀ step ∈ steps, step.Silent) :
    (all steps).Silent := by
  induction steps with
  | nil => exact fun s => rfl
  | cons step rest ih =>
      intro s
      have hstep := h step (by simp) s
      have hrest := ih fun next hnext => h next (by simp [hnext])
      rw [all_cons]
      cases hf : (step s).fault with
      | some fault => rw [andThen_of_some hf, hstep]
      | none => rw [andThen_of_none hf, hstep, hrest, List.append_nil]

/-- From a point at which the given parts have been seen, a step reports only events of one
kind. -/
def Reports (step : Step) (inv : List Nat → Table → Prop) (seen : List Nat)
    (kind : Event → Prop) : Prop :=
  ∀ s : State, inv seen s.table → ∀ e ∈ (step s).events, kind e

section Reports

variable {inv : List Nat → Table → Prop} {seen : List Nat} {kind : Event → Prop}

theorem Silent.reports {step : Step} (h : step.Silent) : step.Reports inv seen kind := by
  intro s _ e he
  rw [h s] at he
  exact absurd he (List.not_mem_nil)

theorem Reports.andThen {first second : Step} {progress : Progress}
    (h : first.Reports inv seen kind) (hfollows : first.Follows inv seen progress)
    (h' : progress.fault = none → second.Reports inv (seen ++ progress.visited) kind) :
    (first.andThen second).Reports inv seen kind := by
  intro s hs e he
  obtain ⟨hf, hinv⟩ := hfollows s hs
  cases hp : progress.fault with
  | some fault =>
      rw [andThen_of_some (hf.trans hp)] at he
      exact h s hs e he
  | none =>
      rw [andThen_of_none (hf.trans hp)] at he
      rcases List.mem_append.mp he with he | he
      · exact h s hs e he
      · exact h' hp (first s).state hinv e he

theorem Reports.inNewScope {step : Step} (h : step.Reports inv seen kind) :
    step.inNewScope.Reports inv seen kind :=
  fun s hs => h { s with scope := s.lastScope + 1, lastScope := s.lastScope + 1 } hs

/-- Visits along a plan report what each of them does. -/
theorem reports_visits {plan : List Nat} {visit : Nat → Step} {fault : Nat → Option Fault}
    (hvisit : ∀ seen i, seen ++ [i] <+: plan → (visit i).Follows inv seen ⟨[i], fault i⟩)
    (hreport : ∀ seen i, seen ++ [i] <+: plan → (visit i).Reports inv seen kind)
    (parts : List Nat)
    (h : seen ++ (Progress.all (parts.map fun i => ⟨[i], fault i⟩)).visited <+: plan) :
    (all (parts.map visit)).Reports inv seen kind := by
  induction parts generalizing seen with
  | nil => exact Silent.reports fun s => rfl
  | cons i rest ih =>
      simp only [List.map_cons, Progress.all_cons] at h
      have hfirst : seen ++ [i] <+: plan :=
        ((List.prefix_append_right_inj seen).mpr (Progress.isPrefix_andThen _ _)).trans h
      refine (hreport seen i hfirst).andThen (hvisit seen i hfirst) fun hnone => ih ?_
      rw [Progress.visited_andThen_of_none hnone] at h
      rwa [List.append_assoc]

end Reports

end Step

namespace Rule

variable {rule : Rule} {p : Phrase} {inv : List Nat → Table → Prop} {kind : Event → Prop}

section Stages

variable (orderly : rule.Orderly p.arity)
  (hread : ∀ seen t, seen <+: (rule.progress p p.values).visited → inv seen t →
    rule.Reads p seen t)
  (hvisit : ∀ seen i q, p.parts[i]? = some q →
    seen ++ [i] <+: (rule.progress p p.values).visited →
      (q.typing (some p.category)).Follows inv seen
        ⟨[i], faultOf (q.evaluate (some p.category))⟩)
  (hreport : ∀ seen i q, p.parts[i]? = some q →
    seen ++ [i] <+: (rule.progress p p.values).visited →
      (q.typing (some p.category)).Reports inv seen kind)

include orderly hreport in
/-- A visit reports what the typing of the part at its position does. -/
theorem visit_reports {seen : List Nat} {i : Nat}
    (h : seen ++ [i] <+: (rule.progress p p.values).visited) :
    (((p.parts.map (Phrase.typing (some p.category)))[i]?).getD
      (.fail (p.missingPart i))).Reports inv seen kind := by
  have hi : i ∈ rule.visits :=
    (rule.progress_keeps p p.values).1.subset (h.subset (by simp))
  obtain ⟨q, hq, -⟩ := orderly.exists_part hi
  rw [List.getElem?_map, hq]
  exact hreport seen i _ hq h

include orderly hvisit hreport in
theorem stage_reports {seen : List Nat} {stage : Stage}
    (hplan : seen ++ (rule.stageProgress p p.values stage).visited <+:
      (rule.progress p p.values).visited) :
    (stage.apply p (p.parts.map (Phrase.typing (some p.category)))).Reports inv seen kind := by
  have hprefix : seen ++ (Progress.all (stage.visits.map fun part =>
      ⟨[part], faultOf (p.valueAt p.values part)⟩)).visited <+:
        (rule.progress p p.values).visited :=
    ((List.prefix_append_right_inj seen).mpr (Progress.isPrefix_andThen _ _)).trans hplan
  have hfollows := Step.follows_visits
    (fun seen i h => visit_follows orderly hvisit h) stage.visits hprefix
  have hvisits := Step.reports_visits (fun seen i h => visit_follows orderly hvisit h)
    (fun seen i h => visit_reports orderly hreport h) stage.visits hprefix
  have htests : (Step.all (stage.demands.map (Demand.test p))).Silent := by
    refine Step.Silent.all fun step hstep => ?_
    obtain ⟨d, -, rfl⟩ := List.mem_map.mp hstep
    exact d.observing_test Step.observing_silent
  unfold Stage.apply
  split
  · exact hvisits.inNewScope.andThen hfollows.inNewScope fun _ => htests.reports
  · exact hvisits.andThen hfollows fun _ => htests.reports

include orderly hread hvisit hreport in
/-- The stages of a rule report what the typings of its parts do. -/
theorem stages_report :
    (Step.all (rule.stages.map
      (Stage.apply p (p.parts.map (Phrase.typing (some p.category)))))).Reports inv [] kind := by
  have hsome : ∀ (stages : List Stage) (seen : List Nat), stages ⊆ rule.stages →
      seen ++ (Progress.all (stages.map (rule.stageProgress p p.values))).visited <+:
        (rule.progress p p.values).visited →
      (Step.all (stages.map
        (Stage.apply p (p.parts.map (Phrase.typing (some p.category)))))).Reports inv seen
          kind := by
    intro stages
    induction stages with
    | nil => exact fun seen _ _ => Step.Silent.reports fun s => rfl
    | cons stage rest ih =>
        intro seen hsub hplan
        simp only [List.map_cons, Progress.all_cons] at hplan
        have hfirst := ((List.prefix_append_right_inj seen).mpr
          (Progress.isPrefix_andThen _ _)).trans hplan
        refine (stage_reports orderly hvisit hreport hfirst).andThen
          (stage_follows orderly hread hvisit (hsub (by simp)) hfirst)
          fun hnone => ih _ (fun r hr => hsub (by simp [hr])) ?_
        rw [Progress.visited_andThen_of_none hnone] at hplan
        rwa [List.append_assoc]
  exact hsome rule.stages [] (List.Subset.refl _) List.prefix_rfl

end Stages

end Rule

namespace Phrase

/-- The events that the first typing of a phrase may report. -/
inductive Reported (context : Option Category) (root : Phrase) : Event → Prop
  | visit {context' : Option Category} {q : Phrase} (entered : root.Entered context context' q) :
      Reported context root (.visiting q.id q.category)
  | tag {context' : Option Category} {p q : Phrase} {value tag : Tag} {scope : UInt32}
      (entered : root.Entered context context' p) (evaluated : p.evaluate context' = .ok value)
      (named : q = p ∨ q ∈ p.parts) : Reported context root (.assigned q.id tag scope)

section Reported

variable {p q : Phrase} {context : Option Category} {e : Event}

theorem Reported.of_part {i : Nat} (typed : i ∈ p.fate.typed) (part : p.parts[i]? = some q)
    (h : q.Reported (some p.category) e) : p.Reported context e := by
  have hq : p.Entered context (some p.category) q := .part .top typed part
  cases h with
  | visit entered => exact .visit (hq.trans entered)
  | tag entered evaluated named => exact .tag (hq.trans entered) evaluated named

/-- A phrase that is given its tag at once reports it. -/
theorem reported_assign {tag : Tag} {s : State} (hid : p.id ∈ s.table.ids)
    (hvalue : p.evaluate context = .ok tag) :
    ∀ e ∈ (Step.assign p.id tag s).events, p.Reported context e := by
  rw [Step.assign_eq hid]
  intro e he
  obtain rfl := List.mem_singleton.mp he
  exact .tag .top hvalue (.inl rfl)

end Reported

section Rule

variable {p : Phrase} {context : Option Category} {c : Construct} {rule : Rule} {s : State}
  (hc : p.category = .construct c) (hr : c.rule? (p.parts.map category) = some rule)

include hc hr

/-- A construct that is untouched reports what its parts do when they are typed, and the tags that
its rule gives at the end. -/
theorem reported_of_rule (hnodup : p.preOrder.Nodup) (hknown : p.preOrder ⊆ s.table.ids)
    (hfresh : ∀ n ∈ p.preOrder, s.table.tagD n = .unbound)
    (hparts : ∀ q ∈ p.parts, ∀ s : State, q.preOrder ⊆ s.table.ids →
      (∀ n ∈ q.preOrder, s.table.tagD n = .unbound) →
        ∀ e ∈ (q.typing (some p.category) s).events, q.Reported (some p.category) e) :
    ∀ e ∈ (rule.apply p (p.parts.map (typing (some p.category))) s).events,
      p.Reported context e := by
  have orderly := Construct.orderly hr
  have hsettles : ∀ q ∈ p.parts, q.Settles (some p.category) :=
    fun q hq => q.settles _ (nodup_part hnodup hq)
  have hunder := Underway.of_fresh hknown hfresh
  have hreports := @Rule.stages_report rule p p.Underway (p.Reported context) orderly ?_ ?_ ?_ s
    hunder
  · obtain ⟨hfault, hafter⟩ := Rule.stages_underway orderly hnodup hsettles s hunder
    intro e he
    rw [Rule.apply, Step.all_append] at he
    cases hf : (rule.progress p p.values).fault with
    | some fault =>
        rw [Step.andThen_of_some (hfault.trans hf)] at he
        exact hreports e he
    | none =>
        rw [Step.andThen_of_none (hfault.trans hf), Rule.finish_eq orderly hafter.known] at he
        rcases List.mem_append.mp he with he | he
        · exact hreports e he
        · obtain ⟨mark, hmark, rfl⟩ := List.mem_map.mp he
          obtain ⟨q, hq, hid⟩ := Rule.exists_of_mem_marks hmark
          have hvalue : p.evaluate context = .ok rule.result := by
            rw [evaluate_construct hc hr, hf]
          rw [hid]
          exact .tag .top hvalue hq
  · intro seen t hseen h
    exact h.reads (hseen.trans (rule.progress_keeps p p.values).1).subset
  · intro seen i q hq hseen s h
    obtain ⟨hknown, hfresh⟩ := Rule.fresh_of_underway orderly h hq hseen
    obtain ⟨hfault, hcolumn⟩ := hsettles q (List.mem_of_getElem? hq) s hknown hfresh
    exact ⟨hfault, h.visit hnodup hq hcolumn⟩
  · intro seen i q hq hseen s h e he
    obtain ⟨hknown, hfresh⟩ := Rule.fresh_of_underway orderly h hq hseen
    have hi : i ∈ p.fate.typed := typed_eq_visited hc hr ▸ hseen.subset (by simp)
    exact .of_part hi hq (hparts q (List.mem_of_getElem? hq) s hknown hfresh e he)

/-- A construct that has failed reports what its parts do when they are typed again. -/
theorem revisited_of_rule {fault : Fault} (hf : (rule.progress p p.values).fault = some fault)
    (hknown : p.preOrder ⊆ s.table.ids) (hcolumn : s.table.column p = p.tagging context)
    (hparts : ∀ q ∈ p.parts, ∀ s : State, q.preOrder ⊆ s.table.ids →
      s.table.column q = q.tagging (some p.category) →
        ∀ e ∈ (q.typing (some p.category) s).events,
          q.Reported (some p.category) e ∧ e.assigned? = none) :
    ∀ e ∈ (p.typing context s).events, p.Reported context e ∧ e.assigned? = none := by
  have hrests : ∀ q ∈ p.parts, q.Rests (some p.category) := fun q _ => q.rests _
  obtain ⟨hunder, htyping⟩ := typing_of_failed hc hr hrests hf hknown hcolumn
  rw [htyping]
  intro e he
  rcases List.mem_cons.mp he with rfl | he
  · exact ⟨.visit .top, rfl⟩
  refine @Rule.stages_report rule p (fun _ t => t = s.table)
    (fun e => p.Reported context e ∧ e.assigned? = none) (Construct.orderly hr)
    (Rule.rest_reads hunder) (Rule.rest_visit hunder hrests) ?_ s rfl e he
  intro seen i q hq hseen s' hs' e he
  obtain ⟨hknown, hcolumn⟩ := Rule.rest_part hunder hq hseen
  have hi : i ∈ p.fate.typed := typed_eq_visited hc hr ▸ hseen.subset (by simp)
  rw [← hs'] at hknown hcolumn
  obtain ⟨hreported, hnone⟩ := hparts q (List.mem_of_getElem? hq) s' hknown hcolumn e he
  exact ⟨.of_part hi hq hreported, hnone⟩

end Rule

/-- What the first typing of a phrase reports. -/
theorem reported_typing (p : Phrase) (context : Option Category) (hnodup : p.preOrder.Nodup)
    {s : State} (hknown : p.preOrder ⊆ s.table.ids)
    (hfresh : ∀ n ∈ p.preOrder, s.table.tagD n = .unbound) :
    ∀ e ∈ (p.typing context s).events, p.Reported context e := by
  induction p using Phrase.induction generalizing context s with
  | step i c l ps ih =>
      have htop := id_mem_preOrder (mk i c l ps)
      have hid : i ∈ s.table.ids := hknown htop
      intro e he
      rw [typing_of_unbound hid (hfresh i htop)] at he
      rcases List.mem_cons.mp he with rfl | he
      · exact .visit .top
      cases c with
      | number => exact reported_assign (p := mk i .number l ps) hid rfl e he
      | shortString => exact reported_assign (p := mk i .shortString l ps) hid rfl e he
      | keyword | token | operator op => exact absurd he List.not_mem_nil
      | name =>
          have htype := (mk i .name l ps).typeName_eq context
          simp only [typeAs, category_mk, htype] at he
          cases hvalue : (mk i .name l ps).nameValue context with
          | ok tag =>
              rw [hvalue] at he
              exact reported_assign (p := mk i .name l ps) hid hvalue e he
          | error fault =>
              rw [hvalue] at he
              exact absurd he List.not_mem_nil
      | construct c =>
          cases hr : c.rule? (ps.map category) with
          | none =>
              simp only [typeAs, category_mk, parts_mk, hr] at he
              exact absurd he List.not_mem_nil
          | some rule =>
              simp only [typeAs, category_mk, parts_mk, hr] at he
              exact reported_of_rule (p := mk i (.construct c) l ps) rfl hr hnodup hknown hfresh
                (fun q hq s => ih q hq _ (nodup_part hnodup hq)) e he

/-- A phrase whose typing does nothing but visit it. -/
theorem revisited_of_unchanged {p : Phrase} {context : Option Category} {s : State}
    (hid : p.id ∈ s.table.ids) (htop : s.table.tagD p.id = .unbound)
    (htype : (p.typeAs context (p.parts.map (typing (some p.category))) s).events = []) :
    ∀ e ∈ (p.typing context s).events, p.Reported context e ∧ e.assigned? = none := by
  rw [typing_of_unbound hid htop, htype]
  intro e he
  obtain rfl := List.mem_singleton.mp he
  exact ⟨.visit .top, rfl⟩

/-- Typing a phrase again reports visits only. -/
theorem revisited_typing (p : Phrase) (context : Option Category) {s : State}
    (hknown : p.preOrder ⊆ s.table.ids) (hcolumn : s.table.column p = p.tagging context) :
    ∀ e ∈ (p.typing context s).events, p.Reported context e ∧ e.assigned? = none := by
  induction p using Phrase.induction generalizing context s with
  | step i c l ps ih =>
      have hid : i ∈ s.table.ids := hknown (id_mem_preOrder (mk i c l ps))
      have htop := ((Table.column_eq_tagging_iff (mk i c l ps) context).mp hcolumn).1
      by_cases hbound : s.table.tagD i ≠ .unbound
      · rw [typing_of_bound (p := mk i c l ps) hid hbound]
        exact fun e he => absurd he List.not_mem_nil
      have hunbound := not_not.mp hbound
      cases c with
      | number | shortString =>
          exact absurd (htop.symm.trans hunbound) (by simp [evaluate, valueOf])
      | keyword | token | operator op => exact revisited_of_unchanged hid hunbound rfl
      | name =>
          have htype := (mk i .name l ps).typeName_eq context
          cases hvalue : (mk i .name l ps).nameValue context with
          | ok tag =>
              have hevaluate : (mk i .name l ps).evaluate context = .ok tag := hvalue
              rw [hevaluate, tagOf_ok] at htop
              exact absurd (htop.symm.trans hunbound) (nameValue_ne_unbound hvalue)
          | error fault =>
              refine revisited_of_unchanged hid hunbound ?_
              simp only [typeAs, category_mk, htype, hvalue]
              rfl
      | construct c =>
          cases hr : c.rule? (ps.map category) with
          | none =>
              refine revisited_of_unchanged hid hunbound ?_
              simp only [typeAs, category_mk, parts_mk, hr]
              rfl
          | some rule =>
              have hvalue := evaluate_construct (p := mk i (.construct c) l ps) rfl hr context
              cases hf : (rule.progress (mk i (.construct c) l ps) _).fault with
              | none =>
                  rw [hf] at hvalue
                  rw [hvalue, tagOf_ok] at htop
                  exact absurd (htop.symm.trans hunbound) (Construct.serves hr).result_ne
              | some fault =>
                  exact revisited_of_rule (p := mk i (.construct c) l ps) rfl hr hf hknown hcolumn
                    fun q hq s => ih q hq _

end Phrase

namespace Checker

theorem events_typing_subset (c : Checker) :
    (c.tree.root.typing none c.state).events ⊆ c.check.events := by
  obtain ⟨closing, hevents, -⟩ := c.events_check
  rw [hevents]
  exact List.subset_append_left _ _

/-- The events of a number of runs, one run after the other. -/
def log (c : Checker) : Nat → List Event
  | 0 => []
  | k + 1 => c.log k ++ (c.after k).check.events

end Checker

namespace Tree.Grown

variable {t : Tree}

/-- What is reported by the typing of a run. Only the first run reports tags. -/
theorem reported_after (h : t.Grown) (k : Nat) :
    ∀ e ∈ (t.root.typing none (t.freshChecker.after k).state).events,
      t.root.Reported none e ∧ (k ≠ 0 → e.assigned? = none) := by
  cases k with
  | zero =>
      intro e he
      refine ⟨t.root.reported_typing none h.nodup_preOrder ?_ ?_ e he, fun hk => absurd rfl hk⟩
      · rw [← h.ids_after 0]
        exact List.Subset.refl _
      · exact fun n _ => t.tagD_blankTable n
  | succ k =>
      have hrest := h.atRest_after k
      have hagain := Phrase.revisited_typing _ none hrest.known hrest.column_eq
      rw [Checker.tree_after] at hagain
      intro e he
      obtain ⟨hreported, hnone⟩ := hagain e he
      exact ⟨hreported, fun _ => hnone⟩

/-- The events of any number of runs. -/
theorem reported_log (h : t.Grown) (k : Nat) :
    ∀ e ∈ t.freshChecker.log k, t.root.Reported none e ∨ ∃ records, e = .completed records := by
  induction k with
  | zero => simp [Checker.log]
  | succ k ih =>
      intro e he
      rw [Checker.log, List.mem_append] at he
      rcases he with he | he
      · exact ih e he
      · refine (Checker.mem_events_check _ he).imp_left fun he => ?_
        rw [Checker.tree_after] at he
        exact (h.reported_after k e he).1

/-- Runs after the first give no tags. -/
theorem assignedNodes_check (h : t.Grown) (k : Nat) :
    assignedNodes (t.freshChecker.after (k + 1)).check.events = [] := by
  refine List.filterMap_eq_nil_iff.mpr fun e he => ?_
  rcases Checker.mem_events_check _ he with he | ⟨records, rfl⟩
  · rw [Checker.tree_after] at he
    exact (h.reported_after (k + 1) e he).2 (Nat.succ_ne_zero k)
  · rfl

/-- The tags that any number of runs give are those that the first run gives. -/
theorem assignedNodes_log (h : t.Grown) (k : Nat) :
    assignedNodes (t.freshChecker.log (k + 1)) = assignedNodes t.freshChecker.check.events := by
  induction k with
  | zero => rfl
  | succ k ih => rw [Checker.log, assignedNodes_append, ih, h.assignedNodes_check, List.append_nil]

end Tree.Grown

end TreeTyping
