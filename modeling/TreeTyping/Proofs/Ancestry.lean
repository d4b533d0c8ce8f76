import TreeTyping.Proofs.Subphrases

/-!
# Orders of the phrases of a tree

A phrase lies properly below another if it lies below one of its parts. Pre-order lists every
phrase before what lies properly below it. Closing order lists it after that: first comes what is
below the parts, then the parts themselves may be named again, and the phrase comes last.
-/

namespace TreeTyping

namespace Phrase

/-- A phrase lies below a part of another. -/
def Below (q p : Phrase) : Prop := ∃ part ∈ p.parts, q ∈ part.subphrases

/-- The phrases that may be marked at the end of a rule: parts to which it grants a tag, parts that
are words, and the phrase itself. -/
def markable (p : Phrase) : List Phrase := p.parts ++ p.parts ++ [p]

mutual

/-- The phrases of a phrase in an order in which each comes after all that lies properly below
it. -/
def closing : Phrase → List Phrase
  | .mk id category lexeme parts =>
      closingAll parts ++ (Phrase.mk id category lexeme parts).markable

/-- The closing orders of several phrases, one after the other. -/
def closingAll : List Phrase → List Phrase
  | [] => []
  | p :: ps => p.closing ++ closingAll ps

end

theorem closingAll_eq_flatMap (ps : List Phrase) : closingAll ps = ps.flatMap closing := by
  induction ps with
  | nil => rfl
  | cons p ps ih => simp [closingAll, ih]

theorem closing_eq_append (p : Phrase) :
    p.closing = p.parts.flatMap closing ++ p.markable := by
  cases p with
  | mk i c l ps => simp [closing, closingAll_eq_flatMap]

section Below

variable {p q r : Phrase}

theorem Below.mem_subphrases (h : q.Below p) : q ∈ p.subphrases :=
  (mem_subphrases_iff p q).mpr (.inr h)

/-- What lies properly below a phrase lies properly below everything around the phrase. -/
theorem Below.of_mem (h : r.Below q) (hq : q ∈ p.subphrases) : r.Below p := by
  rcases (mem_subphrases_iff p q).mp hq with rfl | ⟨part, hpart, hq⟩
  · exact h
  · exact ⟨part, hpart, subphrases_subset hq h.mem_subphrases⟩

theorem mem_markable : q ∈ p.markable ↔ q = p ∨ q ∈ p.parts := by
  rw [markable, List.mem_append, List.mem_append, List.mem_singleton, or_self, or_comm]

theorem mem_subphrases_of_mem_closing (h : q ∈ p.closing) : q ∈ p.subphrases := by
  induction p using Phrase.induction with
  | step i c l ps ih =>
      rw [closing_eq_append, List.mem_append, List.mem_flatMap, mem_markable] at h
      rcases h with ⟨part, hpart, hq⟩ | rfl | hq
      · exact subphrases_subset (part_mem_subphrases hpart) (ih part hpart hq)
      · exact self_mem_subphrases _
      · exact part_mem_subphrases hq

variable (hnodup : p.preOrder.Nodup)

include hnodup

/-- No phrase lies properly below itself. -/
theorem not_below_self : ¬ p.Below p := by
  rintro ⟨part, hpart, hp⟩
  exact notMem_subphrases_part hnodup hpart hp

/-- Neither a phrase nor one of its parts lies properly below a phrase in one of the parts. -/
theorem not_below_of_part {part : Phrase} (hpart : part ∈ p.parts) (hq : q ∈ part.subphrases)
    (hr : r = p ∨ r ∈ p.parts) : ¬ r.Below q := by
  intro hbelow
  have hbelow' := hbelow.of_mem hq
  rcases hr with rfl | hr
  · exact notMem_subphrases_part hnodup hpart hbelow'.mem_subphrases
  · obtain ⟨i, hi⟩ := List.getElem?_of_mem hpart
    obtain ⟨j, hj⟩ := List.getElem?_of_mem hr
    obtain rfl := position_eq hnodup hi hj hbelow'.mem_subphrases r.self_mem_subphrases
    obtain rfl : part = r := Option.some.inj (hi.symm.trans hj)
    exact not_below_self (nodup_part hnodup hpart) hbelow'

/-- Of two phrases in different parts, neither lies below the other. -/
theorem not_below_of_parts {i j : Nat} {a b : Phrase} (hi : p.parts[i]? = some a)
    (hj : p.parts[j]? = some b) (hij : i ≠ j) (hq : q ∈ a.subphrases) (hr : r ∈ b.subphrases) :
    ¬ r.Below q := by
  intro hbelow
  exact hij (position_eq hnodup hi hj (hbelow.of_mem hq).mem_subphrases hr)

/-- Lists of the phrases in each part are in order one after the other if each of them is, as long
as the order does not care for phrases in different parts. -/
theorem pairwise_flatMap_parts {R : Phrase → Phrase → Prop} {list : Phrase → List Phrase}
    (hsub : ∀ part ∈ p.parts, list part ⊆ part.subphrases)
    (hpart : ∀ part ∈ p.parts, (list part).Pairwise R)
    (hR : ∀ q r, ¬ q.Below r → ¬ r.Below q → R q r) : (p.parts.flatMap list).Pairwise R := by
  refine List.pairwise_flatMap.mpr ⟨hpart, List.pairwise_iff_getElem.mpr ?_⟩
  intro i j hi hj hij q hq r hr
  have hi' := List.getElem?_eq_getElem hi
  have hj' := List.getElem?_eq_getElem hj
  have hq' := hsub _ (List.mem_of_getElem? hi') hq
  have hr' := hsub _ (List.mem_of_getElem? hj') hr
  exact hR q r (not_below_of_parts hnodup hj' hi' (Nat.ne_of_gt hij) hr' hq')
    (not_below_of_parts hnodup hi' hj' (Nat.ne_of_lt hij) hq' hr')

/-- In pre-order no phrase comes after something that lies properly below it. -/
theorem pairwise_subphrases : p.subphrases.Pairwise fun q r => ¬ q.Below r := by
  induction p using Phrase.induction with
  | step i c l ps ih =>
      rw [subphrases_eq_cons, List.pairwise_cons]
      constructor
      · intro r hr
        obtain ⟨part, hpart, hr⟩ := List.mem_flatMap.mp hr
        exact not_below_of_part hnodup hpart hr (.inl rfl)
      · apply pairwise_flatMap_parts hnodup
        · exact fun part _ => List.Subset.refl _
        · exact fun part hpart => ih part hpart (nodup_part hnodup hpart)
        · exact fun _ _ hqr _ => hqr

/-- In closing order no phrase comes before something that lies properly below it. -/
theorem pairwise_closing : p.closing.Pairwise fun q r => ¬ r.Below q := by
  induction p using Phrase.induction with
  | step i c l ps ih =>
      rw [closing_eq_append, List.pairwise_append]
      refine ⟨?_, ?_, ?_⟩
      · apply pairwise_flatMap_parts hnodup
        · exact fun part _ q => mem_subphrases_of_mem_closing
        · exact fun part hpart => ih part hpart (nodup_part hnodup hpart)
        · exact fun _ _ _ hrq => hrq
      · apply List.pairwise_append.mpr
        refine ⟨List.pairwise_of_forall_mem_list ?_, List.pairwise_singleton _ _, ?_⟩
        all_goals
          intro q hq r hr
          have hq' : q ∈ ps := by simpa using hq
          exact not_below_of_part hnodup hq' q.self_mem_subphrases (by simp_all)
      · intro q hq r hr
        obtain ⟨part, hpart, hq⟩ := List.mem_flatMap.mp hq
        exact not_below_of_part hnodup hpart (mem_subphrases_of_mem_closing hq)
          (mem_markable.mp hr)

end Below

end Phrase

end TreeTyping
