import TreeTyping.Proofs.Openings
import TreeTyping.Proofs.Visits

/-!
# The phrases that are come to

A typing reports a visit at every phrase that it finds unbound. Each such report has its place in
the course of the typing: what goes before it has not failed, and it comes from the typing of one
part. So every phrase at which a visit is reported has been come to.
-/

namespace TreeTyping

theorem visitedNodes_append (events events' : List Event) :
    visitedNodes (events ++ events') = visitedNodes events ++ visitedNodes events' :=
  List.filterMap_append

namespace Step

variable {s : State} {n : NodeId}

/-- A visit within two steps belongs to the first, or to the second if the first does not fail. -/
theorem mem_visitedNodes_andThen {first second : Step}
    (h : n ∈ visitedNodes (first.andThen second s).events) :
    n ∈ visitedNodes (first s).events ∨
      (first s).fault = none ∧ n ∈ visitedNodes (second (first s).state).events := by
  cases hf : (first s).fault with
  | some fault =>
      rw [andThen_of_some hf] at h
      exact .inl h
  | none =>
      rw [andThen_of_none hf, visitedNodes_append, List.mem_append] at h
      exact h.imp_right fun h => ⟨rfl, h⟩

/-- A visit within several steps belongs to one of them, and the steps before it do not fail. -/
theorem mem_visitedNodes_all {steps : List Step} (h : n ∈ visitedNodes (all steps s).events) :
    ∃ before step after, steps = before ++ step :: after ∧ (all before s).fault = none ∧
      n ∈ visitedNodes (step (all before s).state).events := by
  induction steps generalizing s with
  | nil => exact absurd h List.not_mem_nil
  | cons step rest ih =>
      rcases mem_visitedNodes_andThen h with h | ⟨hnone, h⟩
      · exact ⟨[], step, rest, rfl, rfl, h⟩
      · obtain ⟨before, step', after, rfl, hbefore, hn⟩ := ih h
        refine ⟨step :: before, step', after, rfl, ?_, ?_⟩
        · rw [all_cons, andThen_of_none hnone]
          exact hbefore
        · rw [all_cons, andThen_of_none hnone]
          exact hn

/-- A step that has no visits in its plan makes none. -/
theorem VisitsWithin.not_mem {step : Step} (h : step.VisitsWithin []) :
    n ∉ visitedNodes (step s).events := by
  intro hn
  rw [List.sublist_nil.mp (h s)] at hn
  exact absurd hn List.not_mem_nil

end Step

/-- A visit within a stage belongs to the typing of one of its parts. -/
theorem Stage.mem_visitedNodes_apply {stage : Stage} {p : Phrase} {s : State} {n : NodeId}
    (h : n ∈ visitedNodes
      (stage.apply p (p.parts.map (Phrase.typing (some p.category))) s).events) :
    ∃ seen i rest q, stage.visits = seen ++ i :: rest ∧ p.parts[i]? = some q ∧
      (Step.all (seen.map p.visit) (stage.entry s)).fault = none ∧
      n ∈ visitedNodes (q.typing (some p.category)
        (Step.all (seen.map p.visit) (stage.entry s)).state).events := by
  have htests : (Step.all (stage.demands.map (Demand.test p))).VisitsWithin [] := by
    have closed := Step.planned_visitsWithin.closed
    refine closed.all fun step hstep => ?_
    obtain ⟨d, -, rfl⟩ := List.mem_map.mp hstep
    exact d.closed_test closed
  have hvisits : n ∈ visitedNodes
      (Step.all (stage.visits.map p.visit) (stage.entry s)).events := by
    rcases Step.mem_visitedNodes_andThen h with h | ⟨-, h⟩
    · unfold entry
      cases hopens : stage.opensScope with
      | false | true =>
          rw [hopens] at h
          exact h
    · exact absurd h htests.not_mem
  obtain ⟨before, step, after, hsplit, hnone, hn⟩ := Step.mem_visitedNodes_all hvisits
  obtain ⟨seen, later, hpositions, rfl, hlater⟩ := List.map_eq_append_iff.mp hsplit
  obtain ⟨i, rest, rfl, rfl, -⟩ := List.map_eq_cons_iff.mp hlater
  refine ⟨seen, i, rest, ?_⟩
  cases hq : p.parts[i]? with
  | none =>
      rw [Phrase.visit, List.getElem?_map, hq] at hn
      exact absurd hn List.not_mem_nil
  | some q =>
      rw [Phrase.visit, List.getElem?_map, hq] at hn
      exact ⟨q, hpositions, rfl, hnone, hn⟩

namespace Phrase

variable {root p : Phrase} {start s : State} {context : Option Category}

theorem Reaches.mem_subphrases (h : root.Reaches start context p s) : p ∈ root.subphrases := by
  induction h with
  | top => exact root.self_mem_subphrases
  | part _ _ _ _ _ _ part _ _ _ _ ih =>
      exact subphrases_subset ih (part_mem_subphrases (List.mem_of_getElem? part))

/-- A construct that follows its rule visits what its parts visit. -/
theorem mem_visitedNodes_rule {c : Construct} {rule : Rule} {n : NodeId}
    (hr : c.rule? (p.parts.map category) = some rule)
    (h : n ∈ visitedNodes (rule.apply p (p.parts.map (typing (some p.category))) s).events) :
    ∃ before stage after, rule.stages = before ++ stage :: after ∧
      (Step.all (before.map (Stage.apply p (p.parts.map (typing (some p.category))))) s).fault =
        none ∧
      n ∈ visitedNodes (stage.apply p (p.parts.map (typing (some p.category)))
        (Step.all (before.map
          (Stage.apply p (p.parts.map (typing (some p.category))))) s).state).events := by
  have hfinish := Step.planned_visitsWithin.finish (Construct.orderly hr)
  rw [List.flatMap_eq_nil_iff.mpr fun _ _ => rfl] at hfinish
  rw [Rule.apply, Step.all_append] at h
  rcases Step.mem_visitedNodes_andThen h with h | ⟨-, h⟩
  · obtain ⟨before, step, after, hsplit, hnone, hn⟩ := Step.mem_visitedNodes_all h
    obtain ⟨stages, later, hstages, rfl, hlater⟩ := List.map_eq_append_iff.mp hsplit
    obtain ⟨stage, rest, rfl, rfl, -⟩ := List.map_eq_cons_iff.mp hlater
    exact ⟨stages, stage, rest, hstages, hnone, hn⟩
  · exact absurd h hfinish.not_mem

/-- Whatever is visited while a phrase is typed has been come to, and was unbound. -/
theorem Reaches.exists_of_visited {n : NodeId} (h : root.Reaches start context p s)
    (hn : n ∈ visitedNodes (p.typing context s).events) :
    ∃ context' q s', root.Reaches start context' q s' ∧ s'.table.tag q.id = .ok .unbound ∧
      q.id = n := by
  induction p using Phrase.induction generalizing context s with
  | step i c l ps ih =>
      rw [typing_eq, Step.withTag] at hn
      cases htag : s.table.tag (mk i c l ps).id with
      | error fault =>
          rw [htag] at hn
          exact absurd hn List.not_mem_nil
      | ok tag =>
          rw [htag, Step.withValue_ok] at hn
          by_cases hbound : tag.isBound = true
          · rw [if_pos hbound] at hn
            exact absurd hn List.not_mem_nil
          rw [Tag.isBound_iff, not_not] at hbound
          subst hbound
          rw [if_neg (by decide)] at hn
          rcases Step.mem_visitedNodes_andThen hn with hn | ⟨-, hn⟩
          · obtain rfl : n = (mk i c l ps).id := List.mem_singleton.mp hn
            exact ⟨context, _, s, h, htag, rfl⟩
          have hassign : ∀ tag, n ∉ visitedNodes (Step.assign i tag s).events := fun tag =>
            (Step.planned_visitsWithin.assign i tag).not_mem
          cases c with
          | number | shortString => exact absurd hn (hassign _)
          | keyword | token | operator op => exact absurd hn List.not_mem_nil
          | name =>
              simp only [typeAs, category_mk, typeName] at hn
              split at hn
              · exact absurd hn (hassign _)
              · exact absurd hn (hassign _)
              · exact absurd hn List.not_mem_nil
          | construct c =>
              cases hr : c.rule? (ps.map category) with
              | none =>
                  simp only [typeAs, category_mk, parts_mk, hr] at hn
                  exact absurd hn List.not_mem_nil
              | some rule =>
                  simp only [typeAs, category_mk, parts_mk, hr] at hn
                  obtain ⟨before, stage, after, hstages, hpassed, hn⟩ :=
                    @mem_visitedNodes_rule (mk i (.construct c) l ps) _ _ _ _ hr hn
                  obtain ⟨seen, j, rest, q, hvisits, hq, hvisited, hn⟩ :=
                    Stage.mem_visitedNodes_apply hn
                  exact ih q (List.mem_of_getElem? hq)
                    (.part h htag rfl hr hstages hvisits hq rfl hpassed rfl hvisited) hn

end Phrase

/-- Every visit that a run reports is at a phrase that the run has come to. -/
theorem Checker.exists_reaches_of_visited {c : Checker} {n : NodeId}
    (h : n ∈ visitedNodes c.check.events) :
    ∃ context p s, c.tree.root.Reaches c.state context p s ∧ s.table.tag p.id = .ok .unbound ∧
      p.id = n := by
  obtain ⟨e, he, hid⟩ := List.mem_filterMap.mp h
  rcases c.mem_events_check he with he | ⟨records, rfl⟩
  · exact Phrase.Reaches.top.exists_of_visited (List.mem_filterMap.mpr ⟨e, he, hid⟩)
  · cases hid

end TreeTyping
