import TreeTyping.Proofs.Subphrases

/-!
# Procedures and the scopes of their bodies

A procedure with a word, a name and a body opens a scope for its body. The procedures of a tree are
numbered from one in pre-order, and the scope of a phrase is the number of the innermost procedure
whose body holds it. The same number is found by going down from the root: one has to know the
scope of the phrase at which one is, and the number of procedures that come before it.
-/

namespace TreeTyping

namespace Phrase

/-- Whether a phrase is a procedure with as many parts as a procedure admits. -/
def opensScope (p : Phrase) : Bool :=
  decide (p.category = .construct .procedure ∧ p.arity = 3)

theorem opensScope_iff (p : Phrase) :
    p.opensScope = true ↔ p.category = .construct .procedure ∧ p.arity = 3 := by
  simp [opensScope]

/-- The procedures in a phrase that open a scope, in pre-order. -/
def procedures (p : Phrase) : List Phrase := p.subphrases.filter opensScope

/-- A phrase lies in the body of a procedure. -/
def InBody (x r : Phrase) : Prop := ∃ body, r.parts[2]? = some body ∧ x ∈ body.subphrases

/-- The scope of a phrase in a tree: the number of the innermost procedure in whose body it lies,
or zero. -/
inductive ScopeNumber (root x : Phrase) : Nat → Prop
  | outside (none : ∀ r ∈ root.procedures, ¬ x.InBody r) : ScopeNumber root x 0
  | inside {i : Nat} {r : Phrase} (listed : root.procedures[i]? = some r) (inBody : x.InBody r)
      (innermost : ∀ r' ∈ root.procedures, x.InBody r' → r ∈ r'.subphrases) :
      ScopeNumber root x (i + 1)

section Procedures

variable {root p q r x : Phrase}

theorem procedures_eq (p : Phrase) :
    p.procedures = (if p.opensScope then [p] else []) ++ p.parts.flatMap procedures := by
  rw [procedures, subphrases_eq_cons, List.filter_cons, List.filter_flatMap]
  split <;> rfl

theorem mem_procedures : r ∈ p.procedures ↔ r ∈ p.subphrases ∧ r.opensScope = true :=
  List.mem_filter

/-- A phrase without parts opens no scope. -/
theorem procedures_of_parts_eq_nil (h : p.parts = []) : p.procedures = [] := by
  have harity : p.opensScope = false := by simp [opensScope, arity, h]
  simp [procedures_eq, harity, h]

theorem exists_leaf (p : Phrase) : ∃ q ∈ p.subphrases, q.parts = [] := by
  induction p using Phrase.induction with
  | step i c l ps ih =>
      cases ps with
      | nil => exact ⟨_, self_mem_subphrases _, rfl⟩
      | cons part rest =>
          obtain ⟨q, hq, hleaf⟩ := ih part (List.mem_cons_self ..)
          exact ⟨q, (mem_subphrases_iff _ q).mpr (.inr ⟨part, List.mem_cons_self .., hq⟩), hleaf⟩

/-- A phrase has more nodes than procedures, since it has a leaf. -/
theorem length_procedures_lt (p : Phrase) : p.procedures.length < p.size := by
  have hlength : p.subphrases.length = p.size := by
    rw [← length_preOrder, ← map_id_subphrases, List.length_map]
  rw [← hlength, procedures, List.length_filter_lt_length_iff_exists]
  obtain ⟨q, hq, hleaf⟩ := p.exists_leaf
  exact ⟨q, hq, by simp [opensScope, arity, hleaf]⟩

/-- A part lies in the same bodies as the phrase around it, unless it is the body of a procedure
itself. -/
theorem InBody.of_part (hnodup : root.preOrder.Nodup) (hp : p ∈ root.subphrases)
    (hr : r ∈ root.subphrases) {i : Nat} (hq : p.parts[i]? = some q) (h : q.InBody r) :
    (r = p ∧ i = 2) ∨ p.InBody r := by
  obtain ⟨body, hbody, hin⟩ := h
  have hmem := List.mem_of_getElem? hbody
  have hbelow := subphrases_subset hr (part_mem_subphrases hmem)
  rcases eq_or_holder_mem hnodup hbelow hp (List.mem_of_getElem? hq) hin with rfl | hholder
  · left
    obtain rfl := holder_eq hnodup hr hp hmem (List.mem_of_getElem? hq)
    exact ⟨rfl, position_eq (nodup_of_mem_subphrases hnodup hp) hq hbody
      q.self_mem_subphrases q.self_mem_subphrases⟩
  · exact .inr ⟨body, hbody, hholder⟩

theorem InBody.part (h : p.InBody r) (hq : q ∈ p.parts) : q.InBody r := by
  obtain ⟨body, hbody, hp⟩ := h
  exact ⟨body, hbody, subphrases_subset hp (part_mem_subphrases hq)⟩

theorem InBody.mem_subphrases (h : x.InBody r) : x ∈ r.subphrases := by
  obtain ⟨body, hbody, hx⟩ := h
  exact subphrases_subset (part_mem_subphrases (List.mem_of_getElem? hbody)) hx

/-- The body of a procedure has the number of the procedure as its scope. -/
theorem ScopeNumber.body (hnodup : root.preOrder.Nodup) {k : Nat}
    (hp : root.procedures[k]? = some p) (hq : p.parts[2]? = some q) :
    root.ScopeNumber q (k + 1) := by
  have hmem := (mem_procedures.mp (List.mem_of_getElem? hp)).1
  refine .inside hp ⟨q, hq, q.self_mem_subphrases⟩ fun r' hr' hin => ?_
  rcases hin.of_part hnodup hmem (mem_procedures.mp hr').1 hq with ⟨rfl, -⟩ | hin
  · exact r'.self_mem_subphrases
  · exact hin.mem_subphrases

/-- Any other part has the scope of the phrase around it. -/
theorem ScopeNumber.part (hnodup : root.preOrder.Nodup) (hp : p ∈ root.subphrases) {i n : Nat}
    (hq : p.parts[i]? = some q) (hother : ¬ (p.opensScope = true ∧ i = 2))
    (h : root.ScopeNumber p n) : root.ScopeNumber q n := by
  have hsame : ∀ r ∈ root.procedures, q.InBody r → p.InBody r := by
    intro r hr hin
    obtain ⟨hmem, hopens⟩ := mem_procedures.mp hr
    rcases hin.of_part hnodup hp hmem hq with ⟨rfl, hi⟩ | hin
    · exact absurd ⟨hopens, hi⟩ hother
    · exact hin
  cases h with
  | outside hnone => exact .outside fun r hr hin => hnone r hr (hsame r hr hin)
  | inside hlisted hin hinnermost =>
      refine .inside hlisted (hin.part (List.mem_of_getElem? hq)) fun r' hr' hin' => ?_
      exact hinnermost r' hr' (hsame r' hr' hin')

end Procedures

/-- The scope of a part of a phrase with the given scope that comes after `last` procedures. -/
def scopeAt (p : Phrase) (outer last i : Nat) : Nat :=
  if p.opensScope = true ∧ i = 2 then last + 1 else outer

/-- The number of procedures that come before a part of a phrase that comes after `last`
procedures. -/
def countAt (p : Phrase) (last i : Nat) : Nat :=
  last + (if p.opensScope then 1 else 0) + ((p.parts.take i).flatMap procedures).length

/-- The scopes that are found by going down from a phrase, given the scope of the phrase and the
number of procedures that come before it. -/
inductive Placed : Nat → Nat → Phrase → Phrase → Nat → Prop
  | top {outer last : Nat} {p : Phrase} : Placed outer last p p outer
  | part {outer last i n : Nat} {p q x : Phrase} (part : p.parts[i]? = some q)
      (inner : Placed (p.scopeAt outer last i) (p.countAt last i) q x n) :
      Placed outer last p x n

namespace Placed

variable {root p q x : Phrase} {outer last n : Nat}

theorem mem_subphrases (h : Placed outer last p x n) : x ∈ p.subphrases := by
  induction h with
  | top => exact self_mem_subphrases _
  | part hq _ ih => exact subphrases_subset (part_mem_subphrases (List.mem_of_getElem? hq)) ih

theorem of_mem (h : x ∈ p.subphrases) (outer last : Nat) : ∃ n, Placed outer last p x n := by
  induction p using Phrase.induction generalizing outer last with
  | step i c l ps ih =>
      rcases (mem_subphrases_iff _ x).mp h with rfl | ⟨part, hpart, hx⟩
      · exact ⟨outer, .top⟩
      · obtain ⟨j, hj⟩ := List.getElem?_of_mem hpart
        obtain ⟨n, hn⟩ := ih part hpart hx _ _
        exact ⟨n, .part hj hn⟩

/-- The procedures of a phrase are its own, those of the earlier parts, those of a part, and those
of the later parts. -/
theorem procedures_eq_append {i : Nat} (hq : p.parts[i]? = some q) :
    p.procedures = (if p.opensScope then [p] else []) ++ (p.parts.take i).flatMap procedures ++
      (q.procedures ++ (p.parts.drop (i + 1)).flatMap procedures) := by
  obtain ⟨hlt, rfl⟩ := List.getElem?_eq_some_iff.mp hq
  rw [procedures_eq, List.append_assoc, ← List.flatMap_cons, ← List.drop_eq_getElem_cons hlt,
    ← List.flatMap_append, List.take_append_drop]

/-- What is found by going down is the scope of a phrase in the whole tree. -/
theorem scopeNumber (hnodup : root.preOrder.Nodup) (h : Placed outer last p x n)
    (hp : p ∈ root.subphrases) (before after : List Phrase)
    (hlist : root.procedures = before ++ (p.procedures ++ after)) (hbefore : before.length = last)
    (houter : root.ScopeNumber p outer) : root.ScopeNumber x n := by
  induction h generalizing before after with
  | top => exact houter
  | @part outer last i n p q x hq inner ih =>
      have hq' := subphrases_subset hp (part_mem_subphrases (List.mem_of_getElem? hq))
      have hcount : (before ++ ((if p.opensScope then [p] else []) ++
          (p.parts.take i).flatMap procedures)).length = p.countAt last i := by
        simp only [countAt, List.length_append, hbefore]
        split <;> simp [Nat.add_assoc]
      refine ih hq' _ ((p.parts.drop (i + 1)).flatMap procedures ++ after) ?_ hcount ?_
      · rw [hlist, procedures_eq_append hq]
        simp only [List.append_assoc]
      · unfold scopeAt
        split
        · rename_i hbody
          obtain ⟨hopens, rfl⟩ := hbody
          refine .body hnodup ?_ hq
          rw [hlist, procedures_eq p, if_pos hopens, ← hbefore]
          simp
        · exact houter.part hnodup hp hq ‹_›

/-- Going down from the root finds the scopes of all phrases. -/
theorem scopeNumber_root (hnodup : root.preOrder.Nodup) (h : Placed 0 0 root x n) :
    root.ScopeNumber x n := by
  refine h.scopeNumber hnodup root.self_mem_subphrases [] [] ?_ rfl ?_
  · simp
  · -- The root lies in no body, since bodies lie below it.
    refine .outside fun r hr ⟨body, hbody, hin⟩ => ?_
    have hmem := List.mem_of_getElem? hbody
    have hr' := (mem_procedures.mp hr).1
    have hnodup' := nodup_of_mem_subphrases hnodup hr'
    exact notMem_subphrases_part hnodup' hmem (subphrases_subset hin hr')

end Placed

end Phrase

end TreeTyping
