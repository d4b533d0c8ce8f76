import TreeTyping.Proofs.Ancestry
import TreeTyping.Proofs.Reports
import TreeTyping.Proofs.Visits

/-!
# Down with the visits, up with the tags

A typing visits nodes in pre-order, and it gives tags in closing order, whether or not it ends in a
fault. Only the first run of a checker gives tags. So over all its runs, what lies below a phrase
has received its tags before the phrase receives one.
-/

namespace TreeTyping

namespace Phrase

/-- The tags of a typing are planned in closing order. -/
theorem picksWithin_closing (p : Phrase) (context : Option Category) :
    (p.typing context).PicksWithin Event.assigned? (p.closing.map id) := by
  have planned : Step.Planned (Step.PicksWithin Event.assigned?) (fun _ => []) (fun _ => [])
      (fun id => [id]) fun p => p.closing.map id := by
    apply Step.planned_picksWithin
    · exact fun _ => rfl
    · exact fun _ _ _ => rfl
    · intro p
      rw [closing_eq_append p, List.map_append, List.map_flatMap, List.flatMap_singleton',
        List.nil_append]
  exact p.planned_typing planned context

/-- If tags are given in closing order, then none is given to a phrase that lies below one to which
a tag has been given before. -/
theorem pairwise_of_sublist_closing {root : Phrase} (hnodup : root.preOrder.Nodup)
    {ids : List NodeId} (h : ids.Sublist (root.closing.map id)) :
    ids.Pairwise fun m n => ∀ p ∈ root.subphrases, ∀ q : Phrase, q.Below p → p.id = m →
      q.id ≠ n := by
  refine List.Pairwise.sublist h (List.pairwise_map.mpr ?_)
  refine (pairwise_closing hnodup).imp_of_mem ?_
  intro a b ha hb hnot p hp q hbelow hpa hqb
  have hq := subphrases_subset hp hbelow.mem_subphrases
  obtain rfl := eq_of_id_eq hnodup hp (mem_subphrases_of_mem_closing ha) hpa
  obtain rfl := eq_of_id_eq hnodup hq (mem_subphrases_of_mem_closing hb) hqb
  exact hnot hbelow

end Phrase

namespace Tree.Grown

variable {t : Tree}

/-- Over any number of runs, tags are given in closing order. -/
theorem assignedNodes_log_sublist (h : t.Grown) (k : Nat) :
    (assignedNodes (t.freshChecker.log k)).Sublist (t.root.closing.map Phrase.id) := by
  cases k with
  | zero => exact List.nil_sublist _
  | succ k =>
      rw [h.assignedNodes_log k]
      exact Checker.picksWithin_check (t.root.picksWithin_closing none) fun _ => rfl

/-- In the log of any number of runs, a tag of a phrase comes after the tags of all that lies
properly below it. -/
theorem log_lt_of_below (h : t.Grown) {k i j : Nat} {p q : Phrase} (hp : p ∈ t.root.subphrases)
    (hbelow : q.Below p) {e e' : Event} (hi : (t.freshChecker.log k)[i]? = some e)
    (hj : (t.freshChecker.log k)[j]? = some e') (he : e.assigned? = some q.id)
    (he' : e'.assigned? = some p.id) : i < j := by
  have hpair := Phrase.pairwise_of_sublist_closing h.nodup_preOrder
    (h.assignedNodes_log_sublist k)
  rw [assignedNodes, List.pairwise_filterMap, List.pairwise_iff_getElem] at hpair
  obtain ⟨hi', rfl⟩ := List.getElem?_eq_some_iff.mp hi
  obtain ⟨hj', rfl⟩ := List.getElem?_eq_some_iff.mp hj
  by_contra hle
  rcases Nat.lt_or_eq_of_le (Nat.not_lt.mp hle) with hlt | rfl
  · exact hpair j i hj' hi' hlt p.id he' q.id he p hp q hbelow rfl rfl
  · -- One event gives a tag to one node, and no phrase lies properly below itself.
    have hid : q.id = p.id := Option.some.inj (he.symm.trans he')
    have hq := Phrase.subphrases_subset hp hbelow.mem_subphrases
    obtain rfl := Phrase.eq_of_id_eq h.nodup_preOrder hq hp hid
    exact Phrase.not_below_self (Phrase.nodup_of_mem_subphrases h.nodup_preOrder hp) hbelow

/-- Every run visits nodes of the tree in pre-order, and none of them twice. In the log of any
number of runs, all tags of a phrase come before every tag of a phrase around it. -/
theorem visits_down_tags_up (h : t.Grown) :
    ∃ checker, Checker.start t = .ok checker ∧ ∀ k,
      (visitedNodes (checker.after k).check.events).Sublist t.preOrder ∧
      (visitedNodes (checker.after k).check.events).Nodup ∧
      ∀ p ∈ t.root.subphrases, ∀ q : Phrase, q.Below p → ∀ (i j : Nat) tag tag' scope scope',
        (checker.log k)[i]? = some (Event.assigned q.id tag scope) →
        (checker.log k)[j]? = some (Event.assigned p.id tag' scope') → i < j := by
  refine ⟨_, h.start_eq_fresh, fun k => ?_⟩
  have hvisits := (t.freshChecker.after k).visitedNodes_check
  rw [Checker.tree_after] at hvisits
  refine ⟨?_, hvisits.nodup h.nodup_preOrder, ?_⟩
  · rw [t.preOrder_eq]
    exact hvisits
  · intro p hp q hbelow i j tag tag' scope scope' hi hj
    exact h.log_lt_of_below hp hbelow hi hj rfl rfl

/-- In two runs on an assignment, the name in its variable receives its tag before the assignment
does. -/
theorem visits_down_assignmentTree :
    assignmentTree.Grown ∧ ∃ checker, Checker.start assignmentTree = .ok checker ∧
      (visitedNodes checker.check.events) = [4, 1, 0, 3] ∧
      (visitedNodes checker.check.events).Sublist assignmentTree.preOrder ∧
      (checker.log 2)[3]? = some (Event.assigned 0 .number 0) ∧
      (checker.log 2)[8]? = some (Event.assigned 4 .wellTyped 0) ∧ 3 < 8 := by
  obtain ⟨checker, hstart, hruns⟩ := visits_down_tags_up assignmentTree_grown
  obtain rfl := Except.ok.inj (hstart.symm.trans assignmentTree_grown.start_eq_fresh)
  have hname : (assignmentTree.freshChecker.log 2)[3]? = some (Event.assigned 0 .number 0) := rfl
  have htop : (assignmentTree.freshChecker.log 2)[8]? = some (Event.assigned 4 .wellTyped 0) := rfl
  have hbelow : (Phrase.mk 0 .name "x" []).Below assignmentTree.root :=
    ⟨.mk 1 (.construct .numberVariable) "" [.mk 0 .name "x" []], .head _, .tail _ (.head _)⟩
  refine ⟨assignmentTree_grown, _, hstart, rfl, (hruns 0).1, hname, htop, ?_⟩
  exact (hruns 2).2.2 _ (Phrase.self_mem_subphrases _) _ hbelow 3 8 _ _ _ _ hname htop

end Tree.Grown

end TreeTyping
