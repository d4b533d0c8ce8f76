import Mathlib.Data.List.Nodup
import TreeTyping.Phrase

/-!
# The phrases below a phrase

The walk with a stack visits the nodes of a phrase in pre-order. If the names of these
nodes are distinct, the parts of a phrase share no node, and none of them holds the top.
-/

namespace TreeTyping

namespace Phrase

mutual

/-- A phrase and all phrases below it, in pre-order. -/
def subphrases : Phrase → List Phrase
  | .mk id category lexeme parts => .mk id category lexeme parts :: subphrasesAll parts

/-- The phrases of several phrases, one after the other. -/
def subphrasesAll : List Phrase → List Phrase
  | [] => []
  | p :: ps => p.subphrases ++ subphrasesAll ps

end

theorem subphrasesAll_eq_flatMap (ps : List Phrase) :
    subphrasesAll ps = ps.flatMap subphrases := by
  induction ps with
  | nil => rfl
  | cons p ps ih => simp [subphrasesAll, ih]

theorem preOrderAll_eq_flatMap (ps : List Phrase) : preOrderAll ps = ps.flatMap preOrder := by
  induction ps with
  | nil => rfl
  | cons p ps ih => simp [preOrderAll, ih]

theorem subphrases_eq_cons (p : Phrase) : p.subphrases = p :: p.parts.flatMap subphrases := by
  cases p with
  | mk i c l ps => simp [subphrases, subphrasesAll_eq_flatMap]

theorem preOrder_eq_cons (p : Phrase) : p.preOrder = p.id :: p.parts.flatMap preOrder := by
  cases p with
  | mk i c l ps => simp [preOrder, preOrderAll_eq_flatMap]

theorem id_mem_preOrder (p : Phrase) : p.id ∈ p.preOrder := by
  simp [preOrder_eq_cons p]

theorem part_eq_ok_iff {p q : Phrase} {i : Nat} : p.part i = .ok q ↔ p.parts[i]? = some q := by
  unfold part
  cases p.parts[i]? <;> simp

/-- A phrase lies below another if it is that phrase or lies below one of its parts. -/
theorem mem_subphrases_iff (p q : Phrase) :
    q ∈ p.subphrases ↔ q = p ∨ ∃ part ∈ p.parts, q ∈ part.subphrases := by
  rw [subphrases_eq_cons p]
  simp

theorem self_mem_subphrases (p : Phrase) : p ∈ p.subphrases :=
  (mem_subphrases_iff p p).mpr (.inl rfl)

theorem part_mem_subphrases {p q : Phrase} (h : q ∈ p.parts) : q ∈ p.subphrases :=
  (mem_subphrases_iff p q).mpr (.inr ⟨q, h, q.self_mem_subphrases⟩)

/-- A phrase below another holds nothing that the other does not hold. -/
theorem subphrases_subset {p q : Phrase} (h : q ∈ p.subphrases) :
    q.subphrases ⊆ p.subphrases := by
  induction p using Phrase.induction with
  | step i c l ps ih =>
      rcases (mem_subphrases_iff _ q).mp h with rfl | ⟨part, hpart, hq⟩
      · exact List.Subset.refl _
      · intro r hr
        exact (mem_subphrases_iff _ r).mpr (.inr ⟨part, hpart, ih part hpart hq hr⟩)

/-- A phrase below another is that phrase, or a part of a phrase below it. -/
theorem eq_or_exists_holder {p q : Phrase} (h : q ∈ p.subphrases) :
    q = p ∨ ∃ holder ∈ p.subphrases, q ∈ holder.parts := by
  induction p using Phrase.induction with
  | step i c l ps ih =>
      rcases (mem_subphrases_iff _ q).mp h with rfl | ⟨part, hpart, hq⟩
      · exact .inl rfl
      · right
        rcases ih part hpart hq with rfl | ⟨holder, hholder, hq⟩
        · exact ⟨_, self_mem_subphrases _, hpart⟩
        · exact ⟨holder, subphrases_subset (part_mem_subphrases hpart) hholder, hq⟩

theorem mem_preOrder_iff (p : Phrase) (id : NodeId) :
    id ∈ p.preOrder ↔ id = p.id ∨ ∃ part ∈ p.parts, id ∈ part.preOrder := by
  rw [preOrder_eq_cons p]
  simp

theorem preOrder_part_subset {p part : Phrase} (hp : part ∈ p.parts) :
    part.preOrder ⊆ p.preOrder := by
  intro id hid
  exact (mem_preOrder_iff p id).mpr (Or.inr ⟨part, hp, hid⟩)

/-- The pre-order names the phrases below a phrase one by one. -/
theorem map_id_subphrases (p : Phrase) : p.subphrases.map id = p.preOrder := by
  induction p using Phrase.induction with
  | step i c l ps ih =>
      rw [subphrases_eq_cons, preOrder_eq_cons]
      simp only [List.map_cons, List.map_flatMap, parts_mk]
      exact congrArg _ (List.flatMap_congr ih)

theorem id_mem_preOrder_of_mem {p q : Phrase} (h : q ∈ p.subphrases) : q.id ∈ p.preOrder := by
  rw [← map_id_subphrases]
  exact List.mem_map_of_mem h

theorem preOrder_subset {p q : Phrase} (h : q ∈ p.subphrases) : q.preOrder ⊆ p.preOrder := by
  rw [← map_id_subphrases, ← map_id_subphrases]
  exact List.map_subset _ (subphrases_subset h)

theorem length_preOrder (p : Phrase) : p.preOrder.length = p.size := by
  induction p using Phrase.induction with
  | step i c l ps ih =>
      have hall : ∀ qs : List Phrase, (∀ q ∈ qs, q.preOrder.length = q.size) →
          (preOrderAll qs).length = sizeAll qs := by
        intro qs
        induction qs with
        | nil => simp [preOrderAll, sizeAll]
        | cons q qs ihq =>
            intro h
            simp only [preOrderAll, sizeAll, List.length_append]
            rw [h q (by simp), ihq fun r hr => h r (by simp [hr])]
      simp [preOrder, size, hall ps ih]

/-- The walk with a stack gives the pre-orders of the phrases on the stack in turn. -/
theorem unstack_eq_preOrderAll (ps : List Phrase) : unstack ps = preOrderAll ps := by
  induction ps using unstack.induct with
  | case1 => simp [unstack, preOrderAll]
  | case2 i c l parts rest ih =>
      rw [unstack, ih]
      simp [preOrderAll_eq_flatMap, preOrderAll, preOrder]

section Distinct

variable {p q r : Phrase}

theorem nodup_part (h : p.preOrder.Nodup) (hq : q ∈ p.parts) : q.preOrder.Nodup := by
  rw [preOrder_eq_cons, List.nodup_cons, List.nodup_flatMap] at h
  exact h.2.1 q hq

theorem nodup_of_mem_subphrases (h : p.preOrder.Nodup) (hq : q ∈ p.subphrases) :
    q.preOrder.Nodup := by
  induction p using Phrase.induction with
  | step i c l ps ih =>
      rcases (mem_subphrases_iff _ q).mp hq with rfl | ⟨part, hpart, hq⟩
      · exact h
      · exact ih part hpart (nodup_part h hpart) hq

/-- Phrases with the same top node are the same. -/
theorem eq_of_id_eq (h : p.preOrder.Nodup) (hq : q ∈ p.subphrases) (hr : r ∈ p.subphrases)
    (hid : q.id = r.id) : q = r := by
  rw [← map_id_subphrases] at h
  exact List.inj_on_of_nodup_map h hq hr hid

theorem id_notMem_part (h : p.preOrder.Nodup) (hq : q ∈ p.parts) : p.id ∉ q.preOrder := by
  rw [preOrder_eq_cons, List.nodup_cons] at h
  intro hid
  exact h.1 (List.mem_flatMap.mpr ⟨q, hq, hid⟩)

/-- Parts at different positions share no node. -/
theorem disjoint_parts (h : p.preOrder.Nodup) {i j : Nat} (hi : p.parts[i]? = some q)
    (hj : p.parts[j]? = some r) (hij : i ≠ j) : q.preOrder.Disjoint r.preOrder := by
  rw [preOrder_eq_cons, List.nodup_cons, List.nodup_flatMap] at h
  obtain ⟨hi', rfl⟩ := List.getElem?_eq_some_iff.mp hi
  obtain ⟨hj', rfl⟩ := List.getElem?_eq_some_iff.mp hj
  have hpair := List.pairwise_iff_getElem.mp h.2.2
  rcases Nat.lt_or_gt_of_ne hij with hlt | hgt
  · exact hpair i j hi' hj' hlt
  · exact fun id hid hid' => hpair j i hj' hi' hgt hid' hid

theorem part_id_ne (h : p.preOrder.Nodup) {i j : Nat} (hi : p.parts[i]? = some q)
    (hj : p.parts[j]? = some r) (hij : i ≠ j) : q.id ≠ r.id := by
  intro he
  exact disjoint_parts h hi hj hij q.id_mem_preOrder (he ▸ r.id_mem_preOrder)

/-- A phrase with distinct nodes does not lie below its own parts. -/
theorem notMem_subphrases_part (h : p.preOrder.Nodup) (hq : q ∈ p.parts) : p ∉ q.subphrases :=
  fun hp => id_notMem_part h hq (id_mem_preOrder_of_mem hp)

/-- Two phrases that lie below each other are the same. -/
theorem eq_of_mem_subphrases (h : p.preOrder.Nodup) (hq : q ∈ p.subphrases)
    (hp : p ∈ q.subphrases) : q = p := by
  rcases (mem_subphrases_iff p q).mp hq with rfl | ⟨part, hpart, hq⟩
  · rfl
  · exact absurd (subphrases_subset hq hp) (notMem_subphrases_part h hpart)

/-- A phrase lies below one part only. -/
theorem position_eq (h : p.preOrder.Nodup) {n : Phrase} {i j : Nat} (hi : p.parts[i]? = some q)
    (hj : p.parts[j]? = some r) (hq : n ∈ q.subphrases) (hr : n ∈ r.subphrases) : i = j := by
  by_contra hij
  exact disjoint_parts h hi hj hij (id_mem_preOrder_of_mem hq) (id_mem_preOrder_of_mem hr)

/-- A phrase is a part of one phrase only. -/
theorem holder_eq (h : p.preOrder.Nodup) {n : Phrase} (hq : q ∈ p.subphrases)
    (hr : r ∈ p.subphrases) (hn : n ∈ q.parts) (hn' : n ∈ r.parts) : q = r := by
  induction p using Phrase.induction with
  | step i c l ps ih =>
      -- The top holds no phrase that is a part of a phrase below one of its own parts.
      have htop : ∀ part ∈ ps, ∀ r ∈ part.subphrases, n ∈ r.parts → n ∉ ps := by
        intro part hpart r hr hn' hn
        obtain ⟨j, hj⟩ := List.getElem?_of_mem hpart
        obtain ⟨k, hk⟩ := List.getElem?_of_mem hn
        have hbelow := subphrases_subset hr (part_mem_subphrases hn')
        obtain rfl := position_eq h hj hk hbelow n.self_mem_subphrases
        obtain rfl : part = n := Option.some.inj (hj.symm.trans hk)
        exact notMem_subphrases_part
          (nodup_of_mem_subphrases (nodup_part h hpart) hr) hn' hr
      rcases (mem_subphrases_iff _ q).mp hq with rfl | ⟨part, hpart, hq⟩ <;>
        rcases (mem_subphrases_iff _ r).mp hr with rfl | ⟨part', hpart', hr⟩
      · rfl
      · exact absurd hn (htop part' hpart' r hr hn')
      · exact absurd hn' (htop part hpart q hq hn)
      · obtain ⟨j, hj⟩ := List.getElem?_of_mem hpart
        obtain ⟨k, hk⟩ := List.getElem?_of_mem hpart'
        obtain rfl := position_eq h hj hk (subphrases_subset hq (part_mem_subphrases hn))
          (subphrases_subset hr (part_mem_subphrases hn'))
        obtain rfl : part = part' := Option.some.inj (hj.symm.trans hk)
        exact ih part hpart (nodup_part h hpart) hq hr

/-- What holds a phrase below another lies below the other as well, unless it is the other that is
held. -/
theorem eq_or_holder_mem (h : p.preOrder.Nodup) {n : Phrase} (hq : q ∈ p.subphrases)
    (hr : r ∈ p.subphrases) (hn : n ∈ r.parts) (hbelow : n ∈ q.subphrases) :
    n = q ∨ r ∈ q.subphrases := by
  rcases eq_or_exists_holder hbelow with rfl | ⟨holder, hholder, hn'⟩
  · exact .inl rfl
  · exact .inr (holder_eq h hr (subphrases_subset hq hholder) hn hn' ▸ hholder)

end Distinct

end Phrase

end TreeTyping
