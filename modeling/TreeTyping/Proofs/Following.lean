import TreeTyping.Proofs.Columns
import TreeTyping.Proofs.Rules

/-!
# Steps that follow a progress

A step follows a progress if it ends in the same fault and keeps an invariant that may speak
of the parts visited so far. If every visit of a part follows the value of that part, and the
invariant tells the tags of the visited parts, then the stages of a rule follow the progress
of the rule.
-/

namespace TreeTyping

namespace Step

/-- A step follows a progress from a point at which the given parts have been seen. -/
def Follows (step : Step) (inv : List Nat → Table → Prop) (seen : List Nat)
    (progress : Progress) : Prop :=
  ∀ s : State, inv seen s.table →
    (step s).fault = progress.fault ∧
      inv (seen ++ progress.visited) (step s).state.table

section Follows

variable {inv : List Nat → Table → Prop} {seen : List Nat}

theorem follows_done : done.Follows inv seen {} := by
  intro s h
  exact ⟨rfl, (List.append_nil seen).symm ▸ h⟩

theorem Follows.andThen {first second : Step} {progress progress' : Progress}
    (h : first.Follows inv seen progress)
    (h' : progress.fault = none → second.Follows inv (seen ++ progress.visited) progress') :
    (first.andThen second).Follows inv seen (progress.andThen progress') := by
  intro s hs
  obtain ⟨hf, hinv⟩ := h s hs
  unfold Step.andThen
  cases hp : progress.fault with
  | some fault =>
      rw [hp] at hf
      simp only [hf, Progress.fault_andThen, hp,
        Progress.visited_andThen_of_some hp]
      exact ⟨rfl, hinv⟩
  | none =>
      rw [hp] at hf
      simp only [hf, Progress.fault_andThen, hp, Option.none_or,
        Progress.visited_andThen_of_none hp, ← List.append_assoc]
      exact h' hp (first s).state hinv

theorem Follows.inNewScope {step : Step} {progress : Progress}
    (h : step.Follows inv seen progress) : step.inNewScope.Follows inv seen progress :=
  fun s hs => h { s with scope := s.lastScope + 1, lastScope := s.lastScope + 1 } hs

/-- Tests that leave the state alone follow their faults. -/
theorem follows_tests {α : Type} (items : List α) {test : α → Step}
    {judge : α → Option Fault}
    (h : ∀ a ∈ items, (test a).Follows inv seen ⟨[], judge a⟩) :
    (all (items.map test)).Follows inv seen
      (Progress.all (items.map fun a => ⟨[], judge a⟩)) := by
  induction items with
  | nil => exact follows_done
  | cons a rest ih =>
      refine (h a (by simp)).andThen fun _ => ?_
      simp only [List.append_nil]
      exact ih fun b hb => h b (by simp [hb])

/-- Visits along a plan follow their faults. -/
theorem follows_visits {plan : List Nat} {visit : Nat → Step} {fault : Nat → Option Fault}
    (hvisit : ∀ seen i, seen ++ [i] <+: plan → (visit i).Follows inv seen ⟨[i], fault i⟩)
    (parts : List Nat)
    (h : seen ++ (Progress.all (parts.map fun i => ⟨[i], fault i⟩)).visited <+: plan) :
    (all (parts.map visit)).Follows inv seen
      (Progress.all (parts.map fun i => ⟨[i], fault i⟩)) := by
  induction parts generalizing seen with
  | nil => exact follows_done
  | cons i rest ih =>
      simp only [List.map_cons, Progress.all_cons] at h ⊢
      have hfirst : seen ++ [i] <+: plan :=
        ((List.prefix_append_right_inj seen).mpr (Progress.isPrefix_andThen _ _)).trans h
      refine (hvisit seen i hfirst).andThen fun hnone => ih ?_
      rw [Progress.visited_andThen_of_none hnone] at h
      rwa [List.append_assoc]

end Follows

end Step

namespace Demand

/-- A demand ends in the fault that the tags of its parts call for, and changes nothing. -/
theorem test_eq {p : Phrase} {s : State} {tags : Nat → Tag} (d : Demand)
    (h : ∀ i ∈ d.parts, ∃ q, p.parts[i]? = some q ∧ q.id ∈ s.table.ids ∧
      s.table.tagD q.id = tags i) :
    d.test p s = { state := s, fault := d.judge p tags } := by
  cases d with
  | oneOf part accepted =>
      obtain ⟨q, hq, hid, htag⟩ := h part (by simp [parts])
      simp only [test, judge, Phrase.part_eq_ok_iff.mpr hq, Step.withValue_ok,
        Step.withTag_eq hid, htag, Phrase.expect]
      split <;> rfl
  | unbound part =>
      obtain ⟨q, hq, hid, htag⟩ := h part (by simp [parts])
      simp only [test, judge, Phrase.part_eq_ok_iff.mpr hq, Step.withValue_ok,
        Step.withTag_eq hid, htag, hq, Option.map_some, Option.getD_some]
      split <;> rfl
  | comparable left right =>
      obtain ⟨l, hl, hlid, hltag⟩ := h left (by simp [parts])
      obtain ⟨r, hr, hrid, hrtag⟩ := h right (by simp [parts])
      simp only [test, judge, Phrase.part_eq_ok_iff.mpr hl, Phrase.part_eq_ok_iff.mpr hr,
        Step.withValue_ok, Step.withTag_eq hlid, Step.withTag_eq hrid, hltag, hrtag,
        Phrase.expect, List.mem_singleton]
      by_cases h₁ : tags left ∈ Tag.comparable <;> by_cases h₂ : tags right ∈ Tag.comparable <;>
        by_cases h₃ : tags right = tags left <;> simp_all [Step.fail, Step.done]
  | assignable target value =>
      obtain ⟨l, hl, hlid, hltag⟩ := h target (by simp [parts])
      obtain ⟨r, hr, hrid, hrtag⟩ := h value (by simp [parts])
      simp only [test, judge, Phrase.part_eq_ok_iff.mpr hl, Phrase.part_eq_ok_iff.mpr hr,
        Step.withValue_ok, Step.withTag_eq hlid, Step.withTag_eq hrid, hltag, hrtag,
        Phrase.expect, List.mem_singleton]
      by_cases h₁ : tags target ∈ Tag.assignable <;>
        by_cases h₂ : tags value = tags target <;> simp_all [Step.fail, Step.done]

end Demand

namespace Rule

variable {rule : Rule} {p : Phrase} {inv : List Nat → Table → Prop}

/-- What an invariant has to tell about the parts at which the demands of a rule look: the tags
of the parts seen so far, and that parts which the rule never types are unbound. -/
def Reads (rule : Rule) (p : Phrase) (seen : List Nat) (t : Table) : Prop :=
  ∀ i < p.arity, (i ∈ seen ∨ i ∉ rule.visits) →
    ∃ q, p.parts[i]? = some q ∧ q.id ∈ t.ids ∧ t.tagD q.id = rule.tagAt p p.values i

section Stages

variable (orderly : rule.Orderly p.arity)
  (hread : ∀ seen t, seen <+: (rule.progress p p.values).visited → inv seen t →
    rule.Reads p seen t)
  (hvisit : ∀ seen i q, p.parts[i]? = some q →
    seen ++ [i] <+: (rule.progress p p.values).visited →
      (q.typing (some p.category)).Follows inv seen
        ⟨[i], faultOf (q.evaluate (some p.category))⟩)

include orderly hvisit in
/-- A visit picks the typing of the part at its position. -/
theorem visit_follows {seen : List Nat} {i : Nat}
    (h : seen ++ [i] <+: (rule.progress p p.values).visited) :
    (((p.parts.map (Phrase.typing (some p.category)))[i]?).getD
      (.fail (p.missingPart i))).Follows inv seen ⟨[i], faultOf (p.valueAt p.values i)⟩ := by
  have hi : i ∈ rule.visits :=
    (rule.progress_keeps p p.values).1.subset (h.subset (by simp))
  obtain ⟨q, hq, hvalue⟩ := orderly.exists_part hi
  rw [List.getElem?_map, hq, hvalue]
  exact hvisit seen i _ hq h

include orderly hread hvisit in
theorem stage_follows {seen : List Nat} {stage : Stage} (hstage : stage ∈ rule.stages)
    (hplan : seen ++ (rule.stageProgress p p.values stage).visited <+:
      (rule.progress p p.values).visited) :
    (stage.apply p (p.parts.map (Phrase.typing (some p.category)))).Follows inv seen
      (rule.stageProgress p p.values stage) := by
  have hprefix : seen ++ (Progress.all (stage.visits.map fun part =>
      ⟨[part], faultOf (p.valueAt p.values part)⟩)).visited <+:
        (rule.progress p p.values).visited :=
    ((List.prefix_append_right_inj seen).mpr (Progress.isPrefix_andThen _ _)).trans hplan
  have hvisits := Step.follows_visits
    (fun seen i h => visit_follows orderly hvisit h) stage.visits hprefix
  refine Step.Follows.andThen ?_ fun hnone => ?_
  · split
    · exact hvisits.inNewScope
    · exact hvisits
  · -- No visit has failed, so all parts of the stage have been seen.
    have hall := (visits_keep p p.values stage.visits).2 hnone
    refine Step.follows_tests stage.demands fun d hd s hs => ?_
    rw [d.test_eq fun i hi => ?_]
    · exact ⟨rfl, (List.append_nil _).symm ▸ hs⟩
    · obtain ⟨hlt, hseen⟩ := orderly.looks stage hstage d hd i hi
      refine hread _ _ hprefix hs i hlt (hseen.imp_left fun h => ?_)
      rw [hall]
      exact List.mem_append_right seen h

include orderly hread hvisit in
/-- The stages of a rule follow its progress. -/
theorem stages_follow :
    (Step.all (rule.stages.map
      (Stage.apply p (p.parts.map (Phrase.typing (some p.category)))))).Follows inv []
        (rule.progress p p.values) := by
  have hsome : ∀ (stages : List Stage) (seen : List Nat), stages ⊆ rule.stages →
      seen ++ (Progress.all (stages.map (rule.stageProgress p p.values))).visited <+:
        (rule.progress p p.values).visited →
      (Step.all (stages.map
        (Stage.apply p (p.parts.map (Phrase.typing (some p.category)))))).Follows inv seen
          (Progress.all (stages.map (rule.stageProgress p p.values))) := by
    intro stages
    induction stages with
    | nil => exact fun seen _ _ => Step.follows_done
    | cons stage rest ih =>
        intro seen hsub hplan
        simp only [List.map_cons, Progress.all_cons] at hplan ⊢
        have hfirst := ((List.prefix_append_right_inj seen).mpr
          (Progress.isPrefix_andThen _ _)).trans hplan
        refine (stage_follows orderly hread hvisit (hsub (by simp)) hfirst).andThen
          fun hnone => ih _ (fun r hr => hsub (by simp [hr])) ?_
        rw [Progress.visited_andThen_of_none hnone] at hplan
        rwa [List.append_assoc]
  exact hsome rule.stages [] (List.Subset.refl _) List.prefix_rfl

end Stages

end Rule

end TreeTyping
