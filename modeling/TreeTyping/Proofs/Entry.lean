import TreeTyping.Proofs.Failure
import TreeTyping.Proofs.Refinement

/-!
# The phrases that a typing enters

A typing enters a phrase if a chain of typed parts leads to it. The phrases that it enters
carry the tags of their own typings. Any other phrase with a tag is a part of an entered phrase,
from which it has received the tag without being looked into.
-/

namespace TreeTyping

namespace Phrase

/-- The phrases that are entered when a phrase is typed, each with the category of the phrase
around it. -/
inductive Entered (context : Option Category) (root : Phrase) : Option Category → Phrase → Prop
  | top : Entered context root context root
  | part {context' : Option Category} {p q : Phrase} {i : Nat}
      (before : Entered context root context' p) (typed : i ∈ p.fate.typed)
      (part : p.parts[i]? = some q) : Entered context root (some p.category) q

namespace Entered

variable {t : Table} {root p q : Phrase} {context context' : Option Category}

theorem mem_subphrases (h : root.Entered context context' p) : p ∈ root.subphrases := by
  induction h with
  | top => exact root.self_mem_subphrases
  | part _ _ hpart ih =>
      exact subphrases_subset ih (part_mem_subphrases (List.mem_of_getElem? hpart))

/-- What an entered phrase enters is entered. -/
theorem trans {context'' : Option Category} (h : root.Entered context context' p)
    (h' : p.Entered context' context'' q) : root.Entered context context'' q := by
  induction h' with
  | top => exact h
  | part _ typed hpart ih => exact ih.part typed hpart

/-- What lies around an entered phrase has been entered. -/
theorem of_mem (hnodup : root.preOrder.Nodup) (h : root.Entered context context' q)
    (hp : p ∈ root.subphrases) (hq : q ∈ p.subphrases) :
    ∃ context'', root.Entered context context'' p := by
  induction h with
  | top =>
      obtain rfl := eq_of_mem_subphrases hnodup hp hq
      exact ⟨context, .top⟩
  | @part context' holder q i before typed hpart ih =>
      rcases eq_or_holder_mem hnodup hp before.mem_subphrases (List.mem_of_getElem? hpart) hq with
        rfl | hholder
      · exact ⟨_, before.part typed hpart⟩
      · exact ih hholder

/-- The context of an entered phrase is the category of the phrase around it, or that of the
whole. -/
theorem context_eq (h : root.Entered context context' p) :
    context' = context ∨
      ∃ holder ∈ root.subphrases, p ∈ holder.parts ∧ context' = some holder.category := by
  cases h with
  | top => exact .inl rfl
  | part before _ hpart =>
      exact .inr ⟨_, before.mem_subphrases, List.mem_of_getElem? hpart, rfl⟩

/-- An entered phrase carries the tags of its own typing. -/
theorem column_eq (hcolumn : t.column root = root.tagging context)
    (h : root.Entered context context' p) : t.column p = p.tagging context' := by
  induction h with
  | top => exact hcolumn
  | @part context' p q i before typed hpart ih =>
      have hq := ((Table.column_eq_tagging_iff p context').mp ih).2 i q hpart
      rwa [taggingAt_of_mem typed] at hq

theorem tagD_eq (hcolumn : t.column root = root.tagging context)
    (h : root.Entered context context' p) : t.tagD p.id = tagOf (p.evaluate context') :=
  ((Table.column_eq_tagging_iff p context').mp (h.column_eq hcolumn)).1

/-- A part that an entered phrase has not typed carries the tag that is left to it, and nothing
below it is bound. -/
theorem left_eq (hcolumn : t.column root = root.tagging context)
    (h : root.Entered context context' p) {i : Nat} (hpart : p.parts[i]? = some q)
    (hi : i ∉ p.fate.typed) :
    t.tagD q.id = p.fate.left i q.category ∧
      ∀ r ∈ q.parts, ∀ n ∈ r.preOrder, t.tagD n = .unbound := by
  have hq := ((Table.column_eq_tagging_iff p context').mp (h.column_eq hcolumn)).2 i q hpart
  rwa [taggingAt_of_notMem hi, Table.column_eq_left_iff] at hq

/-- A phrase with a tag has been entered, or it has received the tag from the entered phrase
around it. -/
theorem of_bound (hcolumn : t.column root = root.tagging context)
    (h : root.Entered context context' p) (hq : q ∈ p.subphrases)
    (hbound : t.tagD q.id ≠ .unbound) :
    (∃ context'', root.Entered context context'' q) ∨
      ∃ context'' holder i, root.Entered context context'' holder ∧
        holder.parts[i]? = some q ∧ i ∉ holder.fate.typed := by
  induction p using Phrase.induction generalizing context' with
  | step i c l ps ih =>
      rcases (mem_subphrases_iff _ q).mp hq with rfl | ⟨part, hpart, hq⟩
      · exact .inl ⟨context', h⟩
      obtain ⟨j, hj⟩ := List.getElem?_of_mem hpart
      by_cases htyped : j ∈ (mk i c l ps).fate.typed
      · exact ih part hpart (h.part htyped hj) hq
      · -- Nothing below a part that is not typed is bound, so only the part itself can be meant.
        rcases (mem_subphrases_iff part q).mp hq with rfl | ⟨r, hr, hq⟩
        · exact .inr ⟨context', _, j, h, hj, htyped⟩
        · have hunbound := (h.left_eq hcolumn hj htyped).2 r hr q.id (id_mem_preOrder_of_mem hq)
          exact absurd hunbound hbound

/-- A part that has a tag without being typed stands in a construct that is bound. It is a word
with the tag in which words are settled, or it has the tag that the construct asserts. -/
theorem left_cases (hcolumn : t.column root = root.tagging context)
    (h : root.Entered context context' p) {i : Nat} (hpart : p.parts[i]? = some q)
    (hi : i ∉ p.fate.typed) (hbound : t.tagD q.id ≠ .unbound) :
    ∃ c, p.category = .construct c ∧ p.evaluate context' = .ok c.conclusion ∧
      (q.category.settledTag? = some (t.tagD q.id) ∨
        q.category.isWord = false ∧
          (c.asserted (p.parts.map category)).lookup i = some (t.tagD q.id)) := by
  have htag := (h.left_eq hcolumn hpart hi).1
  cases hvalue : p.evaluate context' with
  | error fault =>
      rw [fate_left_of_error hvalue] at htag
      exact absurd htag hbound
  | ok tag =>
      rw [fate_of_ok hvalue] at htag
      simp only [leftTag] at htag
      cases hc : p.category with
      | number | name | shortString | keyword | token | operator op =>
          simp only [hc] at htag
          exact absurd htag hbound
      | construct c =>
          obtain ⟨rule, -, -, rfl⟩ := exists_rule_of_ok hc hvalue
          refine ⟨c, rfl, rfl, ?_⟩
          simp only [hc] at htag
          cases hword : q.category.settledTag? with
          | some word =>
              rw [hword, Option.getD_some] at htag
              exact .inl (congrArg some htag.symm)
          | none =>
              rw [hword, Option.getD_none] at htag
              refine .inr ⟨?_, ?_⟩
              · rw [← Category.isSome_settledTag?, hword]
                rfl
              · cases hasserted : (c.asserted (p.parts.map category)).lookup i with
                | none =>
                    rw [hasserted] at htag
                    exact absurd htag hbound
                | some tag =>
                    rw [hasserted] at htag
                    exact congrArg some htag.symm

end Entered

/-- A phrase that holds the place of a fault has been entered, and it hands on the fault or has
raised it. -/
theorem entered_of_error {p z : Phrase} {context : Option Category} {fault : Fault}
    (hnodup : p.preOrder.Nodup) (h : p.evaluate context = .error fault) (hz : z ∈ p.subphrases)
    (hnode : fault.location.node ∈ z.preOrder) :
    ∃ context', p.Entered context context' z ∧ z.evaluate context' = .error fault := by
  induction p using Phrase.induction generalizing context with
  | step id c l ps ih =>
      rcases (mem_subphrases_iff _ z).mp hz with rfl | ⟨b, hb, hz⟩
      · exact ⟨context, .top, h⟩
      have hnode' : fault.location.node ∈ b.preOrder := preOrder_subset hz hnode
      cases fails_of_error h with
      | own _ location =>
          rw [location] at hnode'
          exact absurd hnode' (id_notMem_part hnodup hb)
      | @part i q part slot value typed before =>
          -- The fault has come up through one part, and `z` lies in the same one.
          obtain ⟨j, hj⟩ := List.getElem?_of_mem hb
          have hij : i = j := by
            by_contra hne
            exact disjoint_parts hnodup part hj hne (location_mem_preOrder value) hnode'
          subst hij
          obtain rfl : q = b := Option.some.inj (part.symm.trans hj)
          obtain ⟨context', hentered, hvalue⟩ := ih q hb (nodup_part hnodup hb) value hz
          have htyped := (typed i).mpr ⟨slot, Nat.le_refl i⟩
          exact ⟨context', (Entered.part .top htyped part).trans hentered, hvalue⟩

end Phrase

end TreeTyping
