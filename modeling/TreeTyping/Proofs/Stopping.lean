import TreeTyping.Proofs.Entry
import TreeTyping.Proofs.Runs

/-!
# Where a typing stops

A rule that raises a fault stops the whole typing. The phrase that has raised it and the phrases
around it stay unbound, and their words are not settled. On the way down to it, the parts that
were to be typed earlier are done, and all that comes later has not been touched.
-/

namespace TreeTyping

/-- The typing of a phrase `a` has been broken off at `n`, which is `a` itself or lies below
it. -/
structure Table.BrokenOff (t : Table) (a n : Phrase) : Prop where
  /-- The phrase is unbound. -/
  top : t.tag a.id = .ok .unbound
  /-- The words in it have not been settled. -/
  words : ∀ q ∈ a.parts, q.category.isWord = true → t.tag q.id = .ok .unbound
  /-- Nothing is bound in the parts after the one that holds `n`. -/
  later : ∀ (i : Nat) (b : Phrase), a.parts[i]? = some b → n ∈ b.subphrases →
    ∀ (j : Nat) (q : Phrase), a.parts[j]? = some q → i < j →
      ∀ m ∈ q.preOrder, t.tag m = .ok .unbound
  /-- The parts before it that are evaluated are bound, if evaluation binds them at all. -/
  earlier : ∀ (i : Nat) (b : Phrase), a.parts[i]? = some b → n ∈ b.subphrases →
    ∀ (j : Nat) (q : Phrase), a.parts[j]? = some q → j ∈ a.slots → j < i →
      (∃ tag, t.tag q.id = .ok tag ∧ tag ≠ .unbound) ∨
        q.category.isWord = true ∨ q.category = .keyword

namespace Phrase

variable {p q : Phrase} {context : Option Category} {fault : Fault}

/-- Only words and keywords evaluate to no type. -/
theorem category_of_evaluate_unbound (h : p.evaluate context = .ok .unbound) :
    p.category.isWord = true ∨ p.category = .keyword := by
  cases hc : p.category with
  | token | operator op => exact .inl rfl
  | keyword => exact .inr rfl
  | number | shortString =>
      rw [evaluate_eq_valueOf, valueOf, hc] at h
      cases h
  | name =>
      rw [evaluate_eq_valueOf, valueOf, hc] at h
      exact absurd rfl (nameValue_ne_unbound h)
  | construct c =>
      obtain ⟨rule, hr, -, hconclusion⟩ := exists_rule_of_ok hc h
      rw [← (Construct.serves hr).result_eq] at hconclusion
      exact absurd hconclusion.symm (Construct.serves hr).result_ne

/-- A phrase that raises a fault for the number of its parts, or as a name, has typed none of its
parts. -/
theorem Raises.untouched {cause : Cause} (h : p.Raises context cause)
    (hcause : ∀ expected received, cause ≠ .typeMismatch expected received) :
    p.fate = .untouched := by
  cases h with
  | ambiguous category => simp only [fate, category]
  | @misfit c category arity =>
      cases hr : c.rule? (p.parts.map Phrase.category) with
      | none => simp only [fate, category, hr]
      | some rule =>
          have hadmitted := Construct.length_mem_admitted hr
          rw [List.length_map] at hadmitted
          exact absurd hadmitted arity
  | mismatch => exact absurd rfl (hcause _ _)

section Column

variable {t : Table} (hknown : p.preOrder ⊆ t.ids) (hcolumn : t.column p = p.tagging context)
  (h : p.evaluate context = .error fault)

include hknown hcolumn h

/-- A phrase that has failed is left as its rule was underway. -/
theorem underway_of_error : p.Underway p.fate.typed t := by
  obtain ⟨htop, hparts⟩ := (Table.column_eq_tagging_iff p context).mp hcolumn
  have hleft : p.fate.left = fun _ _ => .unbound := funext₂ (fate_left_of_error h)
  refine ⟨hknown, ?_, ?_⟩
  · rw [htop, h, tagOf_error]
  · intro i q hq
    rw [hparts i q hq, ← hleft]

/-- The words in a phrase that has failed are not settled, whether they have been typed or not. -/
theorem word_unbound_of_error (hq : q ∈ p.parts) (hword : q.category.isWord = true) :
    t.tagD q.id = .unbound := by
  have hunder := underway_of_error hknown hcolumn h
  obtain ⟨i, hi⟩ := List.getElem?_of_mem hq
  by_cases htyped : i ∈ p.fate.typed
  · rw [← Category.isSome_settledTag?, Option.isSome_iff_exists] at hword
    obtain ⟨tag, htag⟩ := hword
    rw [hunder.tagD_of_mem hi htyped, evaluate_of_settledTag? htag, tagOf_ok]
  · exact hunder.unbound_of_notMem hi htyped q.id q.id_mem_preOrder

/-- A phrase that has failed is broken off at `n` if its parts are as they should be around the
one that holds `n`. -/
theorem brokenOff_of_error {n : Phrase}
    (hlater : ∀ (i : Nat) (b : Phrase), p.parts[i]? = some b → n ∈ b.subphrases →
      ∀ j, i < j → j ∉ p.fate.typed)
    (hearlier : ∀ (i : Nat) (b : Phrase), p.parts[i]? = some b → n ∈ b.subphrases →
      ∀ (j : Nat) (q : Phrase), p.parts[j]? = some q → j ∈ p.slots → j < i →
        j ∈ p.fate.typed ∧ ∃ tag, q.evaluate (some p.category) = .ok tag) :
    t.BrokenOff p n := by
  have hunder := underway_of_error hknown hcolumn h
  have htag : ∀ m ∈ p.preOrder, t.tag m = .ok (t.tagD m) := fun m hm => t.tag_eq (hknown hm)
  have hpart : ∀ q ∈ p.parts, ∀ m ∈ q.preOrder, m ∈ p.preOrder :=
    fun q hq m hm => preOrder_part_subset hq hm
  refine ⟨?_, ?_, ?_, ?_⟩
  · rw [htag p.id p.id_mem_preOrder, hunder.top]
  · intro q hq hword
    rw [htag q.id (hpart q hq q.id q.id_mem_preOrder),
      word_unbound_of_error hknown hcolumn h hq hword]
  · intro i b hb hn j q hq hij m hm
    rw [htag m (hpart q (List.mem_of_getElem? hq) m hm),
      hunder.unbound_of_notMem hq (hlater i b hb hn j hij) m hm]
  · intro i b hb hn j q hq hslot hji
    obtain ⟨htyped, tag, hvalue⟩ := hearlier i b hb hn j q hq hslot hji
    by_cases hunbound : tag = .unbound
    · exact .inr (category_of_evaluate_unbound (hunbound ▸ hvalue))
    · refine .inl ⟨tag, ?_, hunbound⟩
      rw [htag q.id (hpart q (List.mem_of_getElem? hq) q.id q.id_mem_preOrder),
        hunder.tagD_of_mem hq htyped, hvalue, tagOf_ok]

/-- The phrase that raises a fault is broken off at itself. -/
theorem brokenOff_self (hnodup : p.preOrder.Nodup) : t.BrokenOff p p := by
  have hnone : ∀ (i : Nat) (b : Phrase), p.parts[i]? = some b → p ∉ b.subphrases :=
    fun i b hb => notMem_subphrases_part hnodup (List.mem_of_getElem? hb)
  exact brokenOff_of_error hknown hcolumn h (fun i b hb hn => absurd hn (hnone i b hb))
    fun i b hb hn => absurd hn (hnone i b hb)

/-- A phrase that hands on the fault of a part is broken off where the part is. -/
theorem brokenOff_of_part (hnodup : p.preOrder.Nodup) {n : Phrase} {i : Nat}
    (hpart : p.parts[i]? = some q) (hn : n ∈ q.subphrases)
    (htyped : ∀ j, j ∈ p.fate.typed ↔ j ∈ p.slots ∧ j ≤ i)
    (hbefore : ∀ j r, p.parts[j]? = some r → j ∈ p.slots → j < i →
      ∃ tag, r.evaluate (some p.category) = .ok tag) : t.BrokenOff p n := by
  refine brokenOff_of_error hknown hcolumn h ?_ ?_
  · intro i' b hb hnb j hij hj
    obtain rfl := position_eq hnodup hb hpart hnb hn
    exact absurd ((htyped j).mp hj).2 (by omega)
  · intro i' b hb hnb j r hr hslot hji
    obtain rfl := position_eq hnodup hb hpart hnb hn
    exact ⟨(htyped j).mpr ⟨hslot, Nat.le_of_lt hji⟩, hbefore j r hr hslot hji⟩

/-- A phrase that has raised a fault other than a mismatch has bound nothing below itself. -/
theorem unbound_of_raises {cause : Cause} (hraises : p.Raises context cause)
    (hcause : ∀ expected received, cause ≠ .typeMismatch expected received) :
    ∀ m ∈ p.preOrder, t.tag m = .ok .unbound := by
  have hunder := underway_of_error hknown hcolumn h
  rw [hraises.untouched hcause] at hunder
  intro m hm
  rw [t.tag_eq (hknown hm)]
  rcases (mem_preOrder_iff p m).mp hm with rfl | ⟨q, hq, hmq⟩
  · rw [hunder.top]
  · obtain ⟨i, hi⟩ := List.getElem?_of_mem hq
    rw [hunder.unbound_of_notMem hi (by simp [Fate.untouched]) m hmq]

end Column

/-- In a table with the tags of a phrase that has failed, everything around the phrase that has
raised the fault is broken off there. -/
theorem exists_brokenOff {t : Table} (hnodup : p.preOrder.Nodup) (hknown : p.preOrder ⊆ t.ids)
    (hcolumn : t.column p = p.tagging context) (h : p.evaluate context = .error fault) :
    ∃ n ∈ p.subphrases, fault.location = n.location ∧
      (∀ a ∈ p.subphrases, n ∈ a.subphrases → t.BrokenOff a n) ∧
      ((∀ expected received, fault.cause ≠ .typeMismatch expected received) →
        ∀ m ∈ n.preOrder, t.tag m = .ok .unbound) := by
  induction p using Phrase.induction generalizing context with
  | step id c l ps ih =>
      cases fails_of_error h with
      | own cause location =>
          refine ⟨_, self_mem_subphrases _, location, fun a ha hn => ?_,
            unbound_of_raises hknown hcolumn h cause⟩
          obtain rfl := eq_of_mem_subphrases hnodup ha hn
          exact brokenOff_self hknown hcolumn h hnodup
      | @part i q part slot value typed before =>
          have hmem := List.mem_of_getElem? part
          have hknownq := List.Subset.trans (preOrder_part_subset hmem) hknown
          have hcolumnq := ((Table.column_eq_tagging_iff _ context).mp hcolumn).2 i q part
          rw [taggingAt_of_mem ((typed i).mpr ⟨slot, Nat.le_refl i⟩)] at hcolumnq
          obtain ⟨n, hn, hlocation, hbroken, hraised⟩ :=
            ih q hmem (nodup_part hnodup hmem) hknownq hcolumnq value
          refine ⟨n, (mem_subphrases_iff _ n).mpr (.inr ⟨q, hmem, hn⟩), hlocation,
            fun a ha hna => ?_, hraised⟩
          rcases (mem_subphrases_iff _ a).mp ha with rfl | ⟨b, hb, hab⟩
          · exact brokenOff_of_part hknown hcolumn h hnodup part hn typed before
          · -- The fault has come up through `q`, so what is around `n` is below `q` as well.
            obtain ⟨i', hi'⟩ := List.getElem?_of_mem hb
            obtain rfl := position_eq hnodup hi' part (subphrases_subset hab hna) hn
            obtain rfl : b = q := Option.some.inj (hi'.symm.trans part)
            exact hbroken a hab hna

end Phrase

namespace Tree.Grown

variable {t : Tree}

/-- Whenever the typing of a run stops at a fault, the run returns the fault. The table is then
broken off at the phrase to which the fault points, all the way up to the root. -/
theorem brokenOff_after (h : t.Grown) :
    ∃ checker, Checker.start t = .ok checker ∧ ∀ k fault,
      (t.root.typing none (checker.after k).state).fault = some fault →
        (checker.after k).check.result = .error fault ∧
        ∃ n ∈ t.root.subphrases, fault.location = n.location ∧
          (∀ a ∈ t.root.subphrases, n ∈ a.subphrases →
            (checker.after k).check.checker.table.BrokenOff a n) ∧
          ((∀ expected received, fault.cause ≠ .typeMismatch expected received) →
            ∀ m ∈ n.preOrder, (checker.after k).check.checker.table.tag m = .ok .unbound) := by
  refine ⟨_, h.start_eq_fresh, fun k fault hfault => ?_⟩
  rw [h.fault_after k] at hfault
  refine ⟨by rw [h.result_after k, hfault], ?_⟩
  have hknown : t.root.preOrder ⊆ (t.freshChecker.after (k + 1)).table.ids := by
    rw [h.ids_after (k + 1)]
    exact List.Subset.refl _
  exact Phrase.exists_brokenOff h.nodup_preOrder hknown (h.column_after k)
    (faultOf_eq_some_iff.mp hfault)

/-- A string is assigned to a number in the body of a procedure. The procedure around it stays
unbound, and its word is not settled. -/
theorem brokenOff_brokenProcedureTree :
    brokenProcedureTree.Grown ∧
      ∃ checker, Checker.start brokenProcedureTree = .ok checker ∧
        (brokenProcedureTree.root.typing none (checker.after 1).state).fault =
          some ⟨.typeMismatch [.number] .string, ⟨4, .construct .assignment, ""⟩⟩ ∧
        (checker.after 1).check.checker.table.tag 7 = .ok .unbound ∧
        (checker.after 1).check.checker.table.tag 5 = .ok .unbound := by
  obtain ⟨checker, hstart, hstops⟩ := brokenOff_after brokenProcedureTree_grown
  refine ⟨brokenProcedureTree_grown, checker, hstart, ?_⟩
  obtain rfl := Except.ok.inj (hstart.symm.trans brokenProcedureTree_grown.start_eq_fresh)
  have hfault := brokenProcedureTree_grown.fault_after 1
  obtain ⟨-, n, hn, -, hbroken, -⟩ := hstops 1 _ hfault
  have htop := hbroken _ (Phrase.self_mem_subphrases _) hn
  have hword := htop.words (.mk 5 .token "proc" []) (.head _) rfl
  exact ⟨hfault, htop.top, hword⟩

end Tree.Grown

end TreeTyping
