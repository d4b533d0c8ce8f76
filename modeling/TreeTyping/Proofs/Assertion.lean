import TreeTyping.Proofs.Justification

/-!
# Asserted tags

A statement with an argument asserts that its second part is a number, and a procedure
definition that its second part is a procedure. Both settle their words after that. So the
asserted tag stays unless the part is itself a word: then the part ends with the tag in which
words are settled.
-/

namespace TreeTyping

namespace Phrase.Entered

variable {t : Table} {root p x : Phrase} {context : Option Category} {c : Construct}

/-- A well-typed construct has been typed by its own rule, since no construct is asserted to be
well-typed. -/
theorem of_wellTyped (hcolumn : t.column root = root.tagging none) (hp : p ∈ root.subphrases)
    (hc : p.category = .construct c) (htag : t.tagD p.id = .wellTyped) :
    ∃ context, root.Entered none context p ∧ p.evaluate context = .ok .wellTyped := by
  have hbound : t.tagD p.id ≠ .unbound := by simp [htag]
  rcases of_bound hcolumn .top hp hbound with
    ⟨context, hentered⟩ | ⟨context, holder, i, hentered, hpart, hi⟩
  · refine ⟨context, hentered, ?_⟩
    have hvalue := hentered.tagD_eq hcolumn
    rw [htag] at hvalue
    cases hcase : p.evaluate context with
    | error fault => simp [hcase] at hvalue
    | ok tag =>
        rw [hcase, tagOf_ok] at hvalue
        rw [← hvalue]
  · -- Otherwise the tag would be that of a word, or asserted, and neither fits a construct.
    obtain ⟨c', -, -, hleft⟩ := hentered.left_cases hcolumn hpart hi hbound
    rw [htag, hc] at hleft
    rcases hleft with hword | ⟨-, hasserted⟩
    · simp [Category.settledTag?] at hword
    · have hcases := Construct.asserted_cases hasserted
      simp at hcases

end Phrase.Entered

/-- A part that is asserted by a well-typed construct has the asserted tag, or the tag in which it
is settled if it is a word. -/
theorem Table.tagD_asserted {t : Table} {root p : Phrase} {c : Construct} {i : Nat} {asserted : Tag}
    (hcolumn : t.column root = root.tagging none) (hp : p ∈ root.subphrases)
    (hc : p.category = .construct c) (htag : t.tagD p.id = .wellTyped)
    (hasserted : (c.asserted (p.parts.map Phrase.category)).lookup i = some asserted) :
    ∃ x, p.parts[i]? = some x ∧ t.tagD x.id = x.category.settledTag?.getD asserted := by
  obtain ⟨context, hentered, hvalue⟩ := Phrase.Entered.of_wellTyped hcolumn hp hc htag
  obtain ⟨rule, hr, -⟩ := Phrase.exists_rule_of_ok hc hvalue
  have serves := Construct.serves hr
  have hgrant : (i, asserted) ∈ rule.grants := by
    rw [serves.grants_eq]
    exact Construct.mem_asserted hasserted
  obtain ⟨hlt, hslot⟩ := serves.grants_lt _ hgrant
  rw [List.length_map] at hlt
  refine ⟨p.parts[i], List.getElem?_eq_getElem hlt, ?_⟩
  have hi : i ∉ p.fate.typed := by
    rw [Phrase.fate_of_ok hvalue]
    simpa only [Phrase.slots, hc, ← serves.visits_eq] using hslot
  have hleft := (hentered.left_eq hcolumn (List.getElem?_eq_getElem hlt) hi).1
  rw [Phrase.fate_of_ok hvalue] at hleft
  simpa only [Phrase.leftTag, hc, hasserted, Option.getD_some] using hleft

namespace Tree

/-- A tree of one statement whose argument is a leaf of the given category. -/
def argumentTree (category : Category) : Tree :=
  let word : Phrase := .mk 0 .token "output" []
  let argument : Phrase := .mk 1 category "x" []
  let root : Phrase := .mk 2 (.construct .inputOutput) "" [word, argument]
  { forest := ⟨[⟨word, some 2⟩, ⟨argument, some 2⟩, ⟨root, none⟩]⟩
    root }

theorem argumentTree_grown (category : Category) : (argumentTree category).Grown :=
  grown_of_regrown rfl

namespace Grown

variable {t : Tree}

/-- The second part of a well-typed statement with an argument is a number, and that of a
well-typed procedure definition is a procedure, unless it is a word. A word has the tag in which
it is settled. -/
theorem asserted_unless_word (h : t.Grown) :
    ∃ checker, Checker.start t = .ok checker ∧ ∀ k, ∀ p ∈ t.root.subphrases,
      (checker.after k).table.tag p.id = .ok .wellTyped →
        (∀ c ∈ [.inputOutput, .call], p.category = .construct c →
          ∃ x, p.parts[1]? = some x ∧ (checker.after k).table.tag x.id =
            .ok (x.category.settledTag?.getD .number)) ∧
        (p.category = .construct .procedure →
          ∃ x, p.parts[1]? = some x ∧ (checker.after k).table.tag x.id =
            .ok (x.category.settledTag?.getD .procedure)) := by
  refine ⟨_, h.start_eq_fresh, fun k p hp htag => ?_⟩
  rw [h.tag_after k hp, Except.ok.injEq] at htag
  cases k with
  | zero => exact absurd (htag.symm.trans (t.tagD_blankTable p.id)) (by decide)
  | succ k =>
      have hasserts : ∀ {c : Construct} {tag : Tag}, p.category = .construct c →
          (c.asserted (p.parts.map Phrase.category)).lookup 1 = some tag →
          ∃ x, p.parts[1]? = some x ∧ (t.freshChecker.after (k + 1)).table.tag x.id =
            .ok (x.category.settledTag?.getD tag) := by
        intro c tag hc hasserted
        obtain ⟨x, hx, hvalue⟩ := Table.tagD_asserted (h.column_after k) hp hc htag hasserted
        have hin := Phrase.subphrases_subset hp
          (Phrase.part_mem_subphrases (List.mem_of_getElem? hx))
        exact ⟨x, hx, by rw [h.tag_after (k + 1) hin, hvalue]⟩
      constructor
      · intro c hstatement hc
        refine hasserts hc ?_
        simp only [List.mem_cons, List.not_mem_nil, or_false] at hstatement
        rcases hstatement with rfl | rfl <;> rfl
      · intro hc
        exact hasserts hc rfl

/-- A name that is an argument is a number. -/
theorem asserted_argumentTree :
    (argumentTree .name).Grown ∧ ∃ checker, Checker.start (argumentTree .name) = .ok checker ∧
      (checker.after 1).table.tag 2 = .ok .wellTyped ∧
      (checker.after 1).table.tag 1 = .ok .number := by
  have hgrown := argumentTree_grown .name
  obtain ⟨checker, hstart, hasserted⟩ := asserted_unless_word hgrown
  obtain rfl := Except.ok.inj (hstart.symm.trans hgrown.start_eq_fresh)
  have htag : ((argumentTree .name).freshChecker.after 1).table.tag 2 = .ok .wellTyped := rfl
  obtain ⟨x, hx, hvalue⟩ := (hasserted 1 (argumentTree .name).root
    (Phrase.self_mem_subphrases _) htag).1 .inputOutput (by simp) rfl
  cases hx
  exact ⟨hgrown, _, hstart, htag, hvalue⟩

/-- The asserted tags do not stay in every tree that a check accepts: a token that is an argument
ends up well-typed. -/
theorem not_forall_asserted :
    ¬ ∀ t : Tree, t.Grown → ∀ checker, Checker.start t = .ok checker →
      checker.check.result = .ok .wellTyped → ∀ p ∈ t.root.subphrases,
        checker.check.checker.table.tag p.id = .ok .wellTyped →
          (∀ c ∈ [.inputOutput, .call], p.category = .construct c → ∀ x, p.parts[1]? = some x →
            checker.check.checker.table.tag x.id = .ok .number) ∧
          (p.category = .construct .procedure → ∀ x, p.parts[1]? = some x →
            checker.check.checker.table.tag x.id = .ok .procedure) := by
  intro hclaim
  have hgrown := argumentTree_grown .token
  have hasserted := hclaim _ hgrown _ hgrown.start_eq_fresh rfl (argumentTree .token).root
    (Phrase.self_mem_subphrases _) rfl
  have hnumber := hasserted.1 .inputOutput (by simp) rfl _ rfl
  have hword : (argumentTree .token).freshChecker.check.checker.table.tag 1 = .ok .wellTyped := rfl
  exact absurd (Except.ok.inj (hword.symm.trans hnumber)) (by decide)

end Grown

end Tree

end TreeTyping
