import TreeTyping.Proofs.Entry
import TreeTyping.Proofs.Runs

/-!
# Faults tell the truth

A fault of a run points to a phrase of the tree. If it is a mismatch, then the tag that it reports
is not among those that it asks for, and the table still holds that tag: for a part that the phrase
has typed, or for the root when nothing is unbound.
-/

namespace TreeTyping

namespace Phrase

variable {p : Phrase} {context : Option Category} {fault : Fault}

/-- A phrase hands on the fault of a part only if the fault points into the part. -/
theorem location_ne_of_part (hnodup : p.preOrder.Nodup) {q : Phrase} (hq : q ∈ p.parts)
    {context' : Option Category} (h : q.evaluate context' = .error fault) :
    fault.location.node ≠ p.id := by
  intro hid
  exact id_notMem_part hnodup hq (hid ▸ location_mem_preOrder h)

/-- A phrase that raises a mismatch has typed a part whose tag it reports and does not ask for. -/
theorem exists_part_of_mismatch (hnodup : p.preOrder.Nodup)
    (h : p.evaluate context = .error fault) (hnode : fault.location.node = p.id)
    {expected : List Tag} {received : Tag}
    (hcause : fault.cause = .typeMismatch expected received) :
    expected ≠ [] ∧ received ∉ expected ∧ ∃ i ∈ p.fate.typed, ∃ q, p.parts[i]? = some q ∧
      tagOf (q.evaluate (some p.category)) = received := by
  cases fails_of_error h with
  | part part _ value =>
      exact absurd hnode (location_ne_of_part hnodup (List.mem_of_getElem? part) value)
  | own cause _ =>
      rw [hcause] at cause
      cases cause with
      | @mismatch c _ _ hc arity =>
          have hlength : (p.parts.map category).length ∈ c.admitted := by
            simpa [Phrase.arity] using arity
          obtain ⟨rule, hr⟩ := Option.isSome_iff_exists.mp ((c.isSome_rule?_iff _).mpr hlength)
          have orderly := Construct.orderly hr
          cases breaks_of_error hc hr h with
          | @visit before after stage seen rest i stages _ visits _ faulty _ =>
              have hi : i ∈ rule.visits := by simp [Rule.visits, stages, visits]
              obtain ⟨q, hq, hvalue⟩ := orderly.exists_faulty hi faulty
              exact absurd hnode (location_ne_of_part hnodup (List.mem_of_getElem? hq) hvalue)
          | @demand before after stage met rest d stages _ _ demands _ refused visited =>
              have hstage : stage ∈ rule.stages := by simp [stages]
              have hd : d ∈ stage.demands := by simp [demands]
              obtain ⟨expected', i, hi, hne, hnot, rfl⟩ :=
                Construct.exists_mismatch_of_refused hr hstage hd refused
              obtain ⟨rfl, rfl⟩ := Cause.typeMismatch.inj hcause
              have hvisit : i ∈ rule.visits := List.mem_flatMap.mpr ⟨stage, hstage, hi⟩
              obtain ⟨q, hq, hvalue⟩ := orderly.exists_part hvisit
              refine ⟨hne, hnot, i, ?_, q, hq, by rw [hvalue]⟩
              rw [typed_eq_visited hc hr, visited]
              exact List.mem_append_right _ hi

end Phrase

namespace Tree.Grown

variable {t : Tree}

/-- A phrase that has raised a mismatch stays unbound, and the table holds the tag that is reported
for one of its parts. -/
theorem tag_of_mismatch (h : t.Grown) (k : Nat) {fault : Fault}
    (hroot : t.root.evaluate none = .error fault) {n : Phrase} (hn : n ∈ t.root.subphrases)
    (hnode : fault.location.node = n.id) {expected : List Tag} {received : Tag}
    (hcause : fault.cause = .typeMismatch expected received) :
    expected ≠ [] ∧ received ∉ expected ∧
      (t.freshChecker.after (k + 1)).table.tag n.id = .ok .unbound ∧
      ∃ i ∈ n.slots, ∃ q, n.parts[i]? = some q ∧
        (t.freshChecker.after (k + 1)).table.tag q.id = .ok received := by
  have hcolumn := h.column_after k
  obtain ⟨context, hentered, herror⟩ := Phrase.entered_of_error h.nodup_preOrder hroot hn
    (hnode ▸ n.id_mem_preOrder)
  obtain ⟨hne, hnot, i, hi, q, hq, hreceived⟩ := Phrase.exists_part_of_mismatch
    (Phrase.nodup_of_mem_subphrases h.nodup_preOrder hn) herror hnode hcause
  have hpart := hentered.part hi hq
  refine ⟨hne, hnot, ?_, i, n.typed_subset_slots hi, q, hq, ?_⟩
  · rw [h.tag_after (k + 1) hn, hentered.tagD_eq hcolumn, herror, tagOf_error]
  · rw [h.tag_after (k + 1) hpart.mem_subphrases, hpart.tagD_eq hcolumn, hreceived]

/-- Every fault of a run points to a phrase of the tree. If it is a mismatch, then the reported tag
is none of those that are asked for. The table holds it for a part that is typed by the rule of the
phrase, which stays unbound, or for the root, which is asked to be well-typed once every record is
bound. -/
theorem fault_truthful (h : t.Grown) :
    ∃ checker, Checker.start t = .ok checker ∧ ∀ k fault,
      (checker.after k).check.result = .error fault →
        let table := (checker.after k).check.checker.table
        ∃ n ∈ t.root.subphrases, fault.location = n.location ∧
          ∀ expected received, fault.cause = .typeMismatch expected received →
            expected ≠ [] ∧ received ∉ expected ∧
              ((table.tag n.id = .ok .unbound ∧ ∃ i ∈ n.slots, ∃ q, n.parts[i]? = some q ∧
                  table.tag q.id = .ok received) ∨
                ((∀ r ∈ table.records, r.tag ≠ .unbound) ∧ n = t.root ∧
                  expected = [.wellTyped] ∧ table.tag n.id = .ok received)) := by
  refine ⟨_, h.start_eq_fresh, fun k fault hresult => ?_⟩
  intro table
  cases hvalue : t.root.evaluate none with
  | error fault' =>
      rw [h.result_after k, hvalue, faultOf_error] at hresult
      cases hresult
      obtain ⟨n, hn, hlocation, -⟩ := Phrase.exists_raises hvalue
      refine ⟨n, hn, hlocation, fun expected received hcause => ?_⟩
      obtain ⟨hne, hnot, hunbound, hpart⟩ :=
        h.tag_of_mismatch k hvalue hn (congrArg Location.node hlocation) hcause
      exact ⟨hne, hnot, .inl ⟨hunbound, hpart⟩⟩
  | ok tag =>
      have hjudged := h.judged_after k hvalue
      rw [hresult] at hjudged
      cases hjudged with
      | @residual before after r records =>
          obtain ⟨n, hn, hlocation⟩ := h.exists_phrase_of_record (r := r) (by rw [records]; simp)
          refine ⟨n, hn, hlocation, fun expected received hcause => ?_⟩
          cases hcause
      | mismatch bound hne =>
          refine ⟨t.root, t.root.self_mem_subphrases, rfl, fun expected received hcause => ?_⟩
          cases hcause
          refine ⟨by simp, by simpa using hne, .inr ⟨bound, rfl, rfl, ?_⟩⟩
          exact h.tag_after (k + 1) t.root.self_mem_subphrases

/-- A text is assigned to a number variable. The mismatch points to the assignment, which is
unbound, and reports the tag of the text. -/
theorem fault_brokenProcedureTree :
    brokenProcedureTree.Grown ∧
      ∃ checker, Checker.start brokenProcedureTree = .ok checker ∧
        (checker.after 1).check.result =
          .error ⟨.typeMismatch [.number] .string, ⟨4, .construct .assignment, ""⟩⟩ ∧
        ∃ n ∈ brokenProcedureTree.root.subphrases, n.id = 4 ∧
          (checker.after 1).check.checker.table.tag 4 = .ok .unbound ∧
          ∃ i ∈ n.slots, ∃ q, n.parts[i]? = some q ∧
            (checker.after 1).check.checker.table.tag q.id = .ok .string := by
  obtain ⟨checker, hstart, hfaults⟩ := fault_truthful brokenProcedureTree_grown
  obtain rfl := Except.ok.inj (hstart.symm.trans brokenProcedureTree_grown.start_eq_fresh)
  have hresult : (brokenProcedureTree.freshChecker.after 1).check.result =
      .error ⟨.typeMismatch [.number] .string, ⟨4, .construct .assignment, ""⟩⟩ :=
    brokenProcedureTree_grown.result_after 1
  obtain ⟨n, hn, hlocation, hmismatch⟩ := hfaults 1 _ hresult
  have hid : 4 = n.id := congrArg Location.node hlocation
  obtain ⟨-, -, ⟨hunbound, hpart⟩ | ⟨-, -, hexpected, -⟩⟩ := hmismatch _ _ rfl
  · exact ⟨brokenProcedureTree_grown, _, hstart, hresult, n, hn, hid.symm, hid ▸ hunbound, hpart⟩
  · simp at hexpected

end Tree.Grown

end TreeTyping
