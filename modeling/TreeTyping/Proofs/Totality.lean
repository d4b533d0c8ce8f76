import TreeTyping.Proofs.Failure
import TreeTyping.Proofs.Runs
import TreeTyping.Proofs.Visits

/-!
# Every check ends, for a reason that lies in its tree

A check goes down along the parts of a phrase, whose names decrease, and sets to work at each
node at most once. If it rejects the tree, the fault points to a phrase of the tree and is one of
four: a mismatch of types, a name without a type, a node without a type, or a number of parts that
the construct does not admit. The faults of lookups, which every step of a check could raise, do
not arise.
-/

namespace TreeTyping

/-- The faults with which a tree may be rejected because of a phrase in it. -/
inductive Phrase.Rejects (p : Phrase) : Fault → Prop
  | mismatch (expected : List Tag) (received : Tag) : Rejects p (p.mismatch expected received)
  | ambiguous (context : Option Category) (category : p.category = .name) :
      Rejects p ⟨.ambiguousName p.lexeme context, p.location⟩
  | residual : Rejects p ⟨.residual, p.location⟩
  | misfit {c : Construct} (category : p.category = .construct c)
      (arity : p.arity ∉ c.admitted) : Rejects p (p.arityFault c.title c.arities)

/-- What a phrase raises at its own place is a reason to reject the tree. -/
theorem Phrase.Raises.rejects {p : Phrase} {context : Option Category} {cause : Cause}
    (h : p.Raises context cause) : p.Rejects ⟨cause, p.location⟩ := by
  cases h with
  | ambiguous category => exact .ambiguous context category
  | misfit category arity => exact .misfit category arity
  | mismatch => exact .mismatch _ _

/-- The numbers of parts in words do not speak of a least number, as the fault of a missing part
does. -/
theorem Construct.arities_ne_atLeast (c : Construct) (bound : String) :
    c.arities ≠ "at least " ++ bound := by
  intro h
  -- One text begins with a digit, the other with a letter.
  have hfirst := congrArg (fun s => s.toList.head?) h
  cases c <;> simp [Construct.arities] at hfirst

/-- No reason to reject a tree is a missing part. -/
theorem Phrase.Rejects.ne_missingPart {p : Phrase} {fault : Fault} (h : p.Rejects fault)
    (q : Phrase) (index : Nat) : fault ≠ q.missingPart index := by
  intro hfault
  have hcause := congrArg Fault.cause hfault
  cases h with
  | mismatch | ambiguous | residual => cases hcause
  | @misfit c => exact c.arities_ne_atLeast _ (Cause.invalidArity.inj hcause).2.1

/-- A verdict rejects a table because of an unbound record or because of the root. -/
theorem Table.rejects_of_verdict {t : Table} {root : Phrase} {fault : Fault}
    (hroot : root.id ∈ t.ids) (h : t.verdict root = .error fault) :
    (∃ r ∈ t.records, fault = ⟨.residual, r.location⟩) ∨
      ∃ tag, fault = root.mismatch [.wellTyped] tag := by
  have hjudged := t.judged_verdict hroot
  rw [h] at hjudged
  cases hjudged with
  | residual records => exact .inl ⟨_, by simp [records], rfl⟩
  | mismatch => exact .inr ⟨_, rfl⟩

namespace Tree

variable {t : Tree}

namespace Grown

/-- Every run that rejects a tree does so because of a phrase in it. -/
theorem exists_rejects (h : t.Grown) {k : Nat} {fault : Fault}
    (hresult : (t.freshChecker.after k).check.result = .error fault) :
    ∃ p ∈ t.root.subphrases, p.Rejects fault := by
  rw [h.result_after k] at hresult
  cases hvalue : t.root.evaluate none with
  | error fault' =>
      rw [hvalue, faultOf_error] at hresult
      cases hresult
      obtain ⟨p, hp, hlocation, context, hraises⟩ := Phrase.exists_raises hvalue
      refine ⟨p, hp, ?_⟩
      have hrejects := hraises.rejects
      rwa [← hlocation] at hrejects
  | ok tag =>
      rw [hvalue, faultOf_ok] at hresult
      have hroot : t.root.id ∈ (t.freshChecker.after (k + 1)).table.ids := by
        rw [h.ids_after]
        exact t.root.id_mem_preOrder
      rcases Table.rejects_of_verdict hroot hresult with ⟨r, hr, rfl⟩ | ⟨tag, rfl⟩
      · obtain ⟨p, hp, hlocation⟩ := h.exists_phrase_of_record hr
        exact ⟨p, hp, hlocation ▸ .residual⟩
      · exact ⟨t.root, t.root.self_mem_subphrases, .mismatch _ _⟩

/-- A checker of a grown tree always starts. Its runs go down along decreasing names and visit no
more nodes than the tree has. A run that fails does so because of a phrase of the tree. -/
theorem ends_after (h : t.Grown) :
    ∃ checker, Checker.start t = .ok checker ∧
      (∀ p ∈ t.root.subphrases, ∀ q ∈ p.parts, q.id < p.id) ∧
      ∀ k, (visitedNodes (checker.after k).check.events).length ≤ t.root.size ∧
        ∀ fault, (checker.after k).check.result = .error fault →
          (∃ p ∈ t.root.subphrases, p.Rejects fault) ∧
            ∀ q index, fault ≠ Phrase.missingPart q index := by
  refine ⟨_, h.start_eq_fresh, fun p hp q hq => h.part_id_lt hp hq, fun k => ⟨?_, ?_⟩⟩
  · have hvisits := (t.freshChecker.after k).visitedNodes_check.length_le
    rwa [Checker.tree_after, Phrase.length_preOrder] at hvisits
  · intro fault hresult
    obtain ⟨p, hp, hrejects⟩ := h.exists_rejects hresult
    exact ⟨⟨p, hp, hrejects⟩, hrejects.ne_missingPart⟩

/-- The second run on a procedure with a string assigned to a number is rejected because of the
assignment in its body. -/
theorem ends_brokenProcedureTree :
    brokenProcedureTree.Grown ∧
      ∃ checker, Checker.start brokenProcedureTree = .ok checker ∧
        (checker.after 1).check.result =
          .error ⟨.typeMismatch [.number] .string, ⟨4, .construct .assignment, ""⟩⟩ ∧
        ∃ p ∈ brokenProcedureTree.root.subphrases,
          p.Rejects ⟨.typeMismatch [.number] .string, ⟨4, .construct .assignment, ""⟩⟩ := by
  obtain ⟨checker, hstart, -, hends⟩ := ends_after brokenProcedureTree_grown
  refine ⟨brokenProcedureTree_grown, checker, hstart, ?_⟩
  obtain rfl := Except.ok.inj (hstart.symm.trans brokenProcedureTree_grown.start_eq_fresh)
  have hresult := brokenProcedureTree_grown.result_after 1
  exact ⟨hresult, ((hends 1).2 _ hresult).1⟩

end Grown

end Tree

end TreeTyping
