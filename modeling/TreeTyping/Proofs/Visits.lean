import TreeTyping.Proofs.Plans

/-!
# The nodes that a typing visits

A typing reports each phrase at which it sets to work. From whatever state it starts, and
whether or not it ends in a fault, it reports nodes of its phrase only, in pre-order and each of
them at most once. So a typing takes no more visits than its phrase has nodes.
-/

namespace TreeTyping

/-- The node that an event reports as visited. -/
def Event.visited? : Event → Option NodeId
  | .visiting id _ => some id
  | .assigned .. | .completed _ | .rejected _ => none

/-- The visited nodes of a sequence of events, in order. -/
def visitedNodes (events : List Event) : List NodeId := events.filterMap Event.visited?

namespace Step

/-- From every state, what is picked from the events of a step is found in the list, in the same
order. -/
def PicksWithin {α : Type} (pick : Event → Option α) (items : List α) (step : Step) : Prop :=
  ∀ s : State, ((step s).events.filterMap pick).Sublist items

/-- What is picked from the events of a typing can be planned if it is known what is picked from
each visit and from each tag that is given. -/
theorem planned_picksWithin {α : Type} {pick : Event → Option α} {visiting : Phrase → List α}
    {assigning : NodeId → List α} {typing : Phrase → List α}
    (hvisit : ∀ p : Phrase, [Event.visiting p.id p.category].filterMap pick = visiting p)
    (hassign : ∀ id tag scope, [Event.assigned id tag scope].filterMap pick = assigning id)
    (hcovers : ∀ p : Phrase, (visiting p ++ (p.parts.flatMap typing ++
      (p.markable.map Phrase.id).flatMap assigning)).Sublist (typing p)) :
    Planned (PicksWithin pick) visiting (fun _ => []) assigning typing where
  mono hitems h s := (h s).trans hitems
  done _ := List.nil_sublist []
  fail _ _ := List.nil_sublist []
  assign := by
    intro id tag s
    unfold assign
    split
    · exact (hassign id tag s.scope) ▸ List.Sublist.refl _
    · exact List.nil_sublist _
  define _ _ := List.nil_sublist []
  andThen := by
    intro items items' first second h h' s
    unfold Step.andThen
    cases hf : (first s).fault with
    | some fault => simpa only [hf] using (h s).trans (List.sublist_append_left items items')
    | none => simpa only [hf, List.filterMap_append] using (h s).append (h' (first s).state)
  withTag := by
    intro id items next h s
    unfold withTag
    cases s.table.tag id with
    | ok tag => exact h tag s
    | error fault => exact List.nil_sublist items
  emit p _ := hvisit p ▸ List.Sublist.refl _
  inNewScope _ _ _ h s := h { s with scope := s.lastScope + 1, lastScope := s.lastScope + 1 }
  covers p := by
    rw [ite_self, List.nil_append]
    exact hcovers p

/-- From every state, the nodes that a step visits are found in the list, in the same order. -/
def VisitsWithin (ids : List NodeId) (step : Step) : Prop :=
  ∀ s : State, (visitedNodes (step s).events).Sublist ids

/-- The visits of a typing are planned in pre-order. -/
theorem planned_visitsWithin :
    Planned VisitsWithin (fun p => [p.id]) (fun _ => []) (fun _ => []) Phrase.preOrder :=
  planned_picksWithin (fun _ => rfl) (fun _ _ _ => rfl) fun p => by
    simp [Phrase.preOrder_eq_cons]

end Step

/-- Typing a phrase visits nodes of the phrase, in pre-order and each at most once. -/
theorem Phrase.visitsWithin_typing (p : Phrase) (context : Option Category) :
    (p.typing context).VisitsWithin p.preOrder :=
  p.planned_typing Step.planned_visitsWithin context

namespace Checker

/-- What is picked from the events of a run comes from its typing, unless it is picked from the
report that the run is complete. -/
theorem picksWithin_check {α : Type} {c : Checker} {pick : Event → Option α} {items : List α}
    (h : (c.tree.root.typing none).PicksWithin pick items)
    (hcompleted : ∀ records, pick (.completed records) = none) :
    (c.check.events.filterMap pick).Sublist items := by
  obtain ⟨closing, hevents, hclosing⟩ := c.events_check
  have hnone : closing.filterMap pick = [] := by
    apply List.filterMap_eq_nil_iff.mpr
    intro e he
    obtain ⟨records, rfl⟩ := hclosing e he
    exact hcompleted records
  rw [hevents, List.filterMap_append, hnone, List.append_nil]
  exact h c.state

/-- The visits of a run are those of its typing. -/
theorem visitedNodes_check (c : Checker) :
    (visitedNodes c.check.events).Sublist c.tree.root.preOrder :=
  picksWithin_check (c.tree.root.visitsWithin_typing none) fun _ => rfl

end Checker

end TreeTyping
