import TreeTyping.Proofs.Breaks
import TreeTyping.Proofs.Tagging

/-!
# How an evaluation fails

A phrase that evaluates to a fault raises the fault at its own place, or hands on the fault of
one of its parts. In the second case all parts at earlier slots have values, and no part at a
later slot has been typed. Following the parts down leads to the phrase that has raised the
fault.
-/

namespace TreeTyping

/-- A construct has no rule only if it does not admit the number of its parts. -/
theorem Construct.length_notMem_admitted {c : Construct} {categories : List Category}
    (h : c.rule? categories = none) : categories.length ∉ c.admitted := by
  rw [← isSome_rule?_iff, h]
  simp

namespace Phrase

/-- The causes for which a phrase raises a fault at its own place. -/
inductive Raises (context : Option Category) (p : Phrase) : Cause → Prop
  | ambiguous (category : p.category = .name) :
      Raises context p (.ambiguousName p.lexeme context)
  | misfit {c : Construct} (category : p.category = .construct c)
      (arity : p.arity ∉ c.admitted) :
      Raises context p (.invalidArity c.title c.arities p.arity)
  | mismatch {c : Construct} {expected : List Tag} {received : Tag}
      (category : p.category = .construct c) (arity : p.arity ∈ c.admitted) :
      Raises context p (.typeMismatch expected received)

/-- The two ways in which a phrase comes to a fault. -/
inductive Fails (context : Option Category) (p : Phrase) (fault : Fault) : Prop
  | own (cause : p.Raises context fault.cause) (location : fault.location = p.location)
  | part {i : Nat} {q : Phrase} (part : p.parts[i]? = some q) (slot : i ∈ p.slots)
      (value : q.evaluate (some p.category) = .error fault)
      (typed : ∀ j, j ∈ p.fate.typed ↔ j ∈ p.slots ∧ j ≤ i)
      (before : ∀ j r, p.parts[j]? = some r → j ∈ p.slots → j < i →
        ∃ tag, r.evaluate (some p.category) = .ok tag)

/-- In a list that increases, a beginning holds what does not exceed its last element. -/
theorem mem_append_singleton_iff {seen plan : List Nat} {i : Nat} (h : seen ++ [i] <+: plan)
    (hplan : plan.Pairwise (· < ·)) (j : Nat) : j ∈ seen ++ [i] ↔ j ∈ plan ∧ j ≤ i := by
  obtain ⟨rest, rfl⟩ := h
  obtain ⟨hfirst, -, hrest⟩ := List.pairwise_append.mp hplan
  have hseen := (List.pairwise_append.mp hfirst).2.2
  constructor
  · intro hj
    refine ⟨List.mem_append_left _ hj, ?_⟩
    rcases List.mem_append.mp hj with hj | hj
    · exact Nat.le_of_lt (hseen j hj i (by simp))
    · exact Nat.le_of_eq (List.mem_singleton.mp hj)
  · rintro ⟨hj, hle⟩
    refine (List.mem_append.mp hj).resolve_right fun hj => ?_
    exact absurd (hrest i (by simp) j hj) (by omega)

/-- A construct fails as its rule does. -/
theorem fails_of_rule {p : Phrase} {context : Option Category} {c : Construct} {rule : Rule}
    {fault : Fault} (hc : p.category = .construct c)
    (hr : c.rule? (p.parts.map category) = some rule)
    (h : p.evaluate context = .error fault) : p.Fails context fault := by
  have serves := Construct.serves hr
  have hslots : rule.visits = p.slots := by rw [serves.visits_eq, slots, hc]
  cases breaks_of_error hc hr h with
  | @demand before after stage met rest d stages _ _ demands _ refused _ =>
      have hstage : stage ∈ rule.stages := by simp [stages]
      have hd : d ∈ stage.demands := by simp [demands]
      obtain ⟨expected, i, -, -, -, rfl⟩ :=
        Construct.exists_mismatch_of_refused hr hstage hd refused
      have harity : p.arity ∈ c.admitted := by
        simpa [Phrase.arity] using Construct.length_mem_admitted hr
      exact .own (.mismatch hc harity) rfl
  | @visit before after stage seen rest i stages passed visits sound faulty visited =>
      -- What has been visited is a beginning of the plan, and the plan increases. So the visited
      -- parts are the slots up to `i`.
      rw [← List.append_assoc] at visited
      have hprefix : before.flatMap Stage.visits ++ seen ++ [i] <+: rule.visits :=
        visited ▸ (rule.progress_keeps p p.values).1
      have hmem := mem_append_singleton_iff hprefix serves.increasing
      have hslot : i ∈ rule.visits := hprefix.subset (by simp)
      obtain ⟨q, hq, hvalue⟩ := (Construct.orderly hr).exists_faulty hslot faulty
      have hclean : ∀ j ∈ before.flatMap Stage.visits ++ seen,
          faultOf (p.valueAt p.values j) = none := by
        intro j hj
        rcases List.mem_append.mp hj with hj | hj
        · obtain ⟨earlier, hearlier, hj⟩ := List.mem_flatMap.mp hj
          exact (passed earlier hearlier).sound j hj
        · exact sound j hj
      refine .part hq (hslots ▸ hslot) hvalue (fun j => ?_) fun j r hr' hj hlt => ?_
      · rw [typed_eq_visited hc hr, visited, hmem, hslots]
      · have hseen : j ∈ before.flatMap Stage.visits ++ seen := by
          have hj' := (hmem j).mpr ⟨hslots ▸ hj, Nat.le_of_lt hlt⟩
          exact (List.mem_append.mp hj').resolve_right fun he =>
            Nat.ne_of_lt hlt (List.mem_singleton.mp he)
        have hvalue := eq_ok_of_faultOf (hclean j hseen)
        rw [valueAt_values hr'] at hvalue
        exact ⟨_, hvalue⟩

/-- A phrase that evaluates to a fault raises it or hands it on. -/
theorem fails_of_error {p : Phrase} {context : Option Category} {fault : Fault}
    (h : p.evaluate context = .error fault) : p.Fails context fault := by
  cases hc : p.category with
  | number | shortString | keyword | token | operator op =>
      rw [evaluate_eq_valueOf, valueOf, hc] at h
      cases h
  | name =>
      rw [evaluate_eq_valueOf, valueOf, hc] at h
      simp only [nameValue] at h
      split at h
      · cases h
      · cases h
      · cases h
        exact .own (.ambiguous hc) rfl
  | construct c =>
      cases hr : c.rule? (p.parts.map category) with
      | none =>
          rw [evaluate_misfit hc hr] at h
          cases h
          have harity : p.arity ∉ c.admitted := by
            simpa [Phrase.arity] using Construct.length_notMem_admitted hr
          exact .own (.misfit hc harity) rfl
      | some rule => exact fails_of_rule hc hr h

/-- The parts of a failed phrase that have not been typed receive no tag. -/
theorem fate_left_of_error {p : Phrase} {context : Option Category} {fault : Fault}
    (h : p.evaluate context = .error fault) (part : Nat) (category : Category) :
    p.fate.left part category = .unbound := by
  cases hc : p.category with
  | number | name | shortString | keyword | token | operator op =>
      simp only [fate, hc, Fate.untouched]
  | construct c =>
      cases hr : c.rule? (p.parts.map Phrase.category) with
      | none => simp only [fate, hc, hr, Fate.untouched]
      | some rule =>
          rw [evaluate_construct hc hr] at h
          cases hf : (rule.progress p p.values).fault with
          | none => simp [hf] at h
          | some fault' => simp [fate, hc, hr, Rule.fate, hf]

/-- Every fault is raised by a phrase below, to whose place it points. -/
theorem exists_raises {p : Phrase} {context : Option Category} {fault : Fault}
    (h : p.evaluate context = .error fault) :
    ∃ n ∈ p.subphrases, fault.location = n.location ∧
      ∃ context', n.Raises context' fault.cause := by
  induction p using Phrase.induction generalizing context with
  | step i c l ps ih =>
      cases fails_of_error h with
      | own cause location => exact ⟨_, by simp [subphrases], location, context, cause⟩
      | part part slot value typed before =>
          have hmem := List.mem_of_getElem? part
          obtain ⟨n, hn, hraised⟩ := ih _ hmem value
          exact ⟨n, (mem_subphrases_iff _ n).mpr (.inr ⟨_, hmem, hn⟩), hraised⟩

/-- The fault of a phrase points into the phrase. -/
theorem location_mem_preOrder {p : Phrase} {context : Option Category} {fault : Fault}
    (h : p.evaluate context = .error fault) : fault.location.node ∈ p.preOrder := by
  obtain ⟨n, hn, hlocation, -⟩ := exists_raises h
  rw [hlocation]
  exact id_mem_preOrder_of_mem hn

end Phrase

end TreeTyping
