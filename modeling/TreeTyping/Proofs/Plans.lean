import Mathlib.Data.List.Flatten
import Mathlib.Data.List.Sort
import TreeTyping.Proofs.Conclusion
import TreeTyping.Proofs.Conduct
import TreeTyping.Proofs.Procedures

/-!
# Typings that keep to a plan

Some of the things that a typing does can be planned from its phrase, such as the nodes that it
visits, the scopes that it opens or the nodes to which it gives tags. A plan lists them in order,
and a typing that fails or that finds its phrase bound leaves some of them out. The plan of a phrase
comes from what a visit to the phrase needs, from what a scope of its own needs if it is a
procedure, from the plans of its parts, and from what the tags need that are given at the end. If
steps in a row keep to their plans in a row, then the typing of a phrase keeps to the plan of the
phrase, since every rule takes the parts in order and none of them twice.
-/

namespace TreeTyping

/-- The rule of a procedure types the body in a scope of its own, and no other rule opens a
scope. -/
theorem Construct.rule?_cases {c : Construct} {categories : List Category} {rule : Rule}
    (h : c.rule? categories = some rule) :
    (c = .procedure ∧ categories.length = 3 ∧ rule = Rule.procedure ⟨1, 2⟩) ∨
      (c ≠ .procedure ∧ ∀ stage ∈ rule.stages, stage.opensScope = false) := by
  obtain ⟨sample, hmem, hlength, -⟩ := exists_sample h
  have hall : ∀ entry ∈ c.rules,
      (c = .procedure ∧ entry.1.length = 3 ∧ entry.2 = Rule.procedure ⟨1, 2⟩) ∨
        (c ≠ .procedure ∧ ∀ stage ∈ entry.2.stages, stage.opensScope = false) := by
    cases c <;> decide
  have hcases := hall _ hmem
  rwa [hlength] at hcases

namespace Phrase

variable {p : Phrase}

/-- A phrase opens a scope exactly if its rule is that of a procedure. -/
theorem opensScope_cases {c : Construct} {rule : Rule} (hc : p.category = .construct c)
    (hr : c.rule? (p.parts.map category) = some rule) :
    (p.opensScope = true ∧ rule = Rule.procedure ⟨1, 2⟩) ∨
      (p.opensScope = false ∧ ∀ stage ∈ rule.stages, stage.opensScope = false) := by
  rcases Construct.rule?_cases hr with ⟨rfl, hlength, rfl⟩ | ⟨hne, hclosed⟩
  · refine .inl ⟨(opensScope_iff p).mpr ⟨hc, ?_⟩, rfl⟩
    simpa [arity] using hlength
  · refine .inr ⟨?_, hclosed⟩
    rw [Bool.eq_false_iff, ne_eq, opensScope_iff, hc]
    rintro ⟨hprocedure, -⟩
    exact hne (Category.construct.inj hprocedure)

/-- What the part at a position gives rise to. -/
def itemsAt {α : Type} (f : Phrase → List α) (p : Phrase) (i : Nat) : List α :=
  (p.parts[i]?).elim [] f

section ItemsAt

variable {α : Type} {f : Phrase → List α} {i : Nat}

theorem itemsAt_of_part {q : Phrase} (h : p.parts[i]? = some q) : p.itemsAt f i = f q := by
  rw [itemsAt, h]
  rfl

theorem flatMap_range_itemsAt (f : Phrase → List α) (p : Phrase) (n : Nat) :
    (List.range n).flatMap (p.itemsAt f) = (p.parts.take n).flatMap f := by
  induction n with
  | zero => simp
  | succ n ih =>
      rw [List.range_succ, List.flatMap_append, ih, List.take_add_one, List.flatMap_append]
      cases hn : p.parts[n]? <;> simp [itemsAt, hn]

/-- What increases and stays in a range is picked from the range in order. -/
theorem sublist_range {positions : List Nat} {n : Nat} (hlt : ∀ i ∈ positions, i < n)
    (hincreasing : positions.Pairwise (· < ·)) : positions.Sublist (List.range n) := by
  have hsubset : positions ⊆ List.range n := fun i hi => List.mem_range.mpr (hlt i hi)
  exact List.sublist_of_subperm_of_pairwise (List.subperm_of_subset hincreasing.nodup hsubset)
    hincreasing List.pairwise_lt_range

/-- Positions that increase pick their parts in order. -/
theorem flatMap_itemsAt_sublist (f : Phrase → List α) {positions : List Nat}
    (hlt : ∀ i ∈ positions, i < p.arity) (hincreasing : positions.Pairwise (· < ·)) :
    (positions.flatMap (p.itemsAt f)).Sublist (p.parts.flatMap f) := by
  have hall := flatMap_range_itemsAt f p p.arity
  rw [arity, List.take_length] at hall
  rw [← hall]
  exact (sublist_range hlt hincreasing).flatMap _

end ItemsAt

end Phrase

namespace Step

variable {α : Type}

/-- A relation between plans and the steps that keep to them. Visiting a phrase, opening a scope
for it and giving a tag to a node may take items, and so may the typing of a phrase as a whole. All
other steps take none. -/
structure Planned (P : List α → Step → Prop) (visiting opening : Phrase → List α)
    (assigning : NodeId → List α) (typing : Phrase → List α) : Prop where
  mono : ∀ {plan plan' : List α} {step : Step}, plan.Sublist plan' → P plan step → P plan' step
  done : P [] done
  fail : ∀ fault, P [] (fail fault)
  assign : ∀ id tag, P (assigning id) (assign id tag)
  define : ∀ name, P [] (define name)
  andThen : ∀ {plan plan' : List α} {first second : Step}, P plan first → P plan' second →
    P (plan ++ plan') (first.andThen second)
  withTag : ∀ (id : NodeId) {plan : List α} {next : Tag → Step}, (∀ tag, P plan (next tag)) →
    P plan (withTag id next)
  emit : ∀ p : Phrase, P (visiting p) (emit (.visiting p.id p.category))
  inNewScope : ∀ (p : Phrase) {plan : List α} {step : Step}, P plan step →
    P (opening p ++ plan) step.inNewScope
  covers : ∀ p : Phrase, (visiting p ++ ((if p.opensScope then opening p else []) ++
    p.parts.flatMap typing ++ (p.markable.map Phrase.id).flatMap assigning)).Sublist (typing p)

namespace Planned

variable {P : List α → Step → Prop} {visiting opening : Phrase → List α}
  {assigning : NodeId → List α} {typing : Phrase → List α}

/-- What gives no tags takes no items. -/
theorem closed (planned : Planned P visiting opening assigning typing) : Closed [] (P []) where
  done := planned.done
  fail := planned.fail
  andThen := planned.andThen
  withTag id _ := planned.withTag id
  assign _ hid := absurd hid List.not_mem_nil
  define := planned.define

theorem all (planned : Planned P visiting opening assigning typing) {β : Type} {items : List β}
    {step : β → Step} {plan : β → List α} (h : ∀ b ∈ items, P (plan b) (step b)) :
    P (items.flatMap plan) (all (items.map step)) := by
  induction items with
  | nil => exact planned.done
  | cons b rest ih => exact planned.andThen (h b (by simp)) (ih fun b' hb' => h b' (by simp [hb']))

end Planned

end Step

/-- The plan of a stage. -/
def Stage.plan {α : Type} (opening typing : Phrase → List α) (p : Phrase) (stage : Stage) :
    List α :=
  (if stage.opensScope then opening p else []) ++ stage.visits.flatMap (p.itemsAt typing)

variable {α : Type} {P : List α → Step → Prop} {visiting opening : Phrase → List α}
  {assigning : NodeId → List α} {typing : Phrase → List α} {p : Phrase}

/-- The plans of the stages of a rule make up the plan of the phrase. -/
theorem Rule.plan_sublist {rule : Rule} {c : Construct} (opening typing : Phrase → List α)
    (hc : p.category = .construct c) (hr : c.rule? (p.parts.map Phrase.category) = some rule) :
    (rule.stages.flatMap (Stage.plan opening typing p)).Sublist
      ((if p.opensScope then opening p else []) ++ p.parts.flatMap typing) := by
  have orderly := Construct.orderly hr
  have hvisits := Phrase.flatMap_itemsAt_sublist typing orderly.visits_lt orderly.increasing
  rcases Phrase.opensScope_cases hc hr with ⟨hopens, rfl⟩ | ⟨hopens, hclosed⟩
  · rw [if_pos hopens]
    simpa [visits, procedure, Stage.plan] using hvisits
  · have hsame : rule.stages.flatMap (Stage.plan opening typing p) =
        rule.visits.flatMap (p.itemsAt typing) := by
      rw [visits, List.flatMap_assoc]
      refine List.flatMap_congr fun stage hstage => ?_
      rw [Stage.plan, hclosed stage hstage]
      rfl
    rw [hsame]
    exact hvisits.trans (List.sublist_append_right _ _)

/-- The end of a rule gives tags to the phrase and to parts of it. -/
theorem Step.Planned.finish (planned : Step.Planned P visiting opening assigning typing)
    {rule : Rule} (orderly : rule.Orderly p.arity) :
    P ((p.markable.map Phrase.id).flatMap assigning)
      (.all [rule.grantParts p, (rule.defining.map (Defining.apply p)).getD .done,
        rule.conclude p]) := by
  have hmarks : ∀ marks : List (NodeId × Tag),
      P ((marks.map Prod.fst).flatMap assigning)
        (Step.all (marks.map fun mark => .assign mark.1 mark.2)) := by
    intro marks
    rw [List.flatMap_map]
    exact planned.all fun mark _ => planned.assign mark.1 mark.2
  have hdefining : P [] ((rule.defining.map (Defining.apply p)).getD .done) := by
    cases rule.defining with
    | none => exact planned.done
    | some d => exact d.closed_apply planned.closed
  rw [Step.all_cons, Step.all_cons, Step.all_cons, Step.all_nil, Step.andThen_done,
    Rule.grantParts_eq orderly, Rule.conclude_eq]
  refine planned.mono ?_
    (planned.andThen (hmarks _) (planned.andThen hdefining (hmarks _)))
  rw [List.nil_append, ← List.flatMap_append, ← List.map_append]
  exact (Rule.marks_sublist orderly).flatMap assigning

section Typings

variable (planned : Step.Planned P visiting opening assigning typing) {typings : List Step}
  (h : ∀ (i : Nat) (step : Step), typings[i]? = some step → P (p.itemsAt typing i) step)

include planned h

theorem Step.Planned.visits (positions : List Nat) :
    P (positions.flatMap (p.itemsAt typing)) (Step.all (positions.map fun part =>
      (typings[part]?).getD (.fail (p.missingPart part)))) := by
  refine planned.all fun i _ => ?_
  cases ht : typings[i]? with
  | none => exact planned.mono (List.nil_sublist _) (planned.fail _)
  | some step => exact h i step ht

theorem Stage.planned_apply (stage : Stage) :
    P (stage.plan opening typing p) (stage.apply p typings) := by
  have hvisits := planned.visits h stage.visits
  have htests : P [] (Step.all (stage.demands.map (Demand.test p))) := by
    refine planned.closed.all fun step hstep => ?_
    obtain ⟨d, -, rfl⟩ := List.mem_map.mp hstep
    exact d.closed_test planned.closed
  rw [← List.append_nil (stage.plan opening typing p)]
  refine planned.andThen ?_ htests
  unfold plan
  split
  · exact planned.inNewScope p hvisits
  · exact hvisits

theorem Rule.planned_apply {rule : Rule} {c : Construct} (hc : p.category = .construct c)
    (hr : c.rule? (p.parts.map Phrase.category) = some rule) :
    P ((if p.opensScope then opening p else []) ++ p.parts.flatMap typing ++
      (p.markable.map Phrase.id).flatMap assigning) (rule.apply p typings) := by
  have hstages : P (rule.stages.flatMap (Stage.plan opening typing p))
      (Step.all (rule.stages.map (Stage.apply p typings))) :=
    planned.all fun stage _ => stage.planned_apply planned h
  have hfinish := planned.finish (Construct.orderly hr)
  rw [Rule.apply, Step.all_append]
  exact planned.mono ((Rule.plan_sublist opening typing hc hr).append (List.Sublist.refl _))
    (planned.andThen hstages hfinish)

end Typings

theorem Phrase.planned_parts (p : Phrase) {context : Option Category}
    (h : ∀ q ∈ p.parts, P (typing q) (q.typing context)) (i : Nat) (step : Step)
    (hstep : (p.parts.map (Phrase.typing context))[i]? = some step) :
    P (p.itemsAt typing i) step := by
  rw [List.getElem?_map, Option.map_eq_some_iff] at hstep
  obtain ⟨q, hq, rfl⟩ := hstep
  rw [itemsAt_of_part hq]
  exact h q (List.mem_of_getElem? hq)

/-- The typing of a phrase keeps to the plan of the phrase. -/
theorem Phrase.planned_typing (planned : Step.Planned P visiting opening assigning typing)
    (p : Phrase) (context : Option Category) : P (typing p) (p.typing context) := by
  induction p using Phrase.induction generalizing context with
  | step i c l ps ih =>
      refine planned.mono (planned.covers _) ?_
      rw [Phrase.typing_eq]
      refine planned.withTag i fun tag => iteInduction
        (fun _ => planned.mono (List.nil_sublist _) planned.done) fun _ => ?_
      refine planned.andThen (planned.emit (.mk i c l ps)) ?_
      have hassign : ∀ (plan : List α) (tag : Tag),
          P (plan ++ ((mk i c l ps).markable.map id).flatMap assigning) (.assign i tag) := by
        intro plan tag
        refine planned.mono ?_ (planned.assign i tag)
        simp [markable, List.flatMap_append, ← List.append_assoc]
      cases c with
      | number | shortString => exact hassign _ _
      | name =>
          have hname : ∀ plan : List α, P (plan ++
              ((mk i .name l ps).markable.map id).flatMap assigning)
                ((mk i .name l ps).typeName context) := by
            intro plan
            unfold typeName
            split
            · exact hassign plan _
            · exact hassign plan _
            · exact planned.mono (List.nil_sublist _) (planned.fail _)
          exact hname _
      | keyword | token | operator op => exact planned.mono (List.nil_sublist _) planned.done
      | construct c =>
          cases hr : c.rule? (ps.map category) with
          | none =>
              simp only [typeAs, category_mk, parts_mk, hr]
              exact planned.mono (List.nil_sublist _) (planned.fail _)
          | some rule =>
              simp only [typeAs, category_mk, parts_mk, hr]
              exact Rule.planned_apply planned
                (planned_parts (mk i (.construct c) l ps) fun q hq => ih q hq _) rfl hr

end TreeTyping
