import TreeTyping.Proofs.Columns

/-!
# What a typing may change

A step changes a table only by giving tags to nodes and by marking texts as defined. Every
relation between tables that allows these changes on the nodes of a phrase therefore holds
between the tables before and after the phrase is typed, whether or not the typing succeeds.
-/

namespace TreeTyping

/-- A relation between an earlier and a later table that allows the nodes of `ids` to receive
tags and any text to be defined. -/
structure Table.Frame (ids : List NodeId) (related : Table → Table → Prop) : Prop where
  refl : ∀ t, related t t
  trans : ∀ {t u v}, related t u → related u v → related t v
  write : ∀ t id tag scope, id ∈ ids → related t (t.write id tag scope)
  define : ∀ t name, related t (t.define name)

namespace Step

/-- A property of steps that holds of all that only looks at tags. -/
structure Observing (P : Step → Prop) : Prop where
  done : P done
  fail : ∀ fault, P (fail fault)
  withTag : ∀ (id : NodeId) {next : Tag → Step}, (∀ tag, P (next tag)) → P (withTag id next)

theorem Observing.withValue {α : Type} {P : Step → Prop} (observing : Observing P)
    (value : Except Fault α) {next : α → Step} (h : ∀ a, value = .ok a → P (next a)) :
    P (withValue value next) := by
  cases value with
  | ok a => exact h a rfl
  | error fault => exact observing.fail fault

/-- A property of steps that holds of reading tags, of giving tags to the nodes of `ids` and of
defining texts, and of all that is put together from steps with the property. -/
structure Closed (ids : List NodeId) (P : Step → Prop) : Prop where
  done : P done
  fail : ∀ fault, P (fail fault)
  andThen : ∀ {first second : Step}, P first → P second → P (first.andThen second)
  withTag : ∀ (id : NodeId) {next : Tag → Step}, (∀ tag, P (next tag)) → P (withTag id next)
  assign : ∀ id ∈ ids, ∀ tag, P (assign id tag)
  define : ∀ name, P (define name)

namespace Closed

variable {ids : List NodeId} {P : Step → Prop}

theorem all (closed : Closed ids P) {steps : List Step} (h : ∀ step ∈ steps, P step) :
    P (all steps) := by
  induction steps with
  | nil => exact closed.done
  | cons step rest ih =>
      exact closed.andThen (h step (by simp)) (ih fun next hnext => h next (by simp [hnext]))

theorem observing (closed : Closed ids P) : Observing P :=
  ⟨closed.done, closed.fail, closed.withTag⟩

theorem withValue {α : Type} (closed : Closed ids P) (value : Except Fault α) {next : α → Step}
    (h : ∀ a, value = .ok a → P (next a)) : P (withValue value next) :=
  closed.observing.withValue value h

end Closed

end Step

section Closed

variable {P : Step → Prop} {p : Phrase}

theorem Demand.observing_test (observing : Step.Observing P) (d : Demand) : P (d.test p) := by
  cases d with
  | oneOf part accepted =>
      refine observing.withValue _ fun q _ => observing.withTag _ fun tag => ?_
      exact iteInduction (fun _ => observing.done) fun _ => observing.fail _
  | unbound part =>
      refine observing.withValue _ fun q _ => observing.withTag _ fun tag => ?_
      exact iteInduction (fun _ => observing.fail _) fun _ => observing.done
  | comparable left right =>
      refine observing.withValue _ fun l _ => observing.withValue _ fun r _ =>
        observing.withTag _ fun tag => observing.withTag _ fun tag' => ?_
      refine iteInduction (fun _ => observing.fail _) fun _ => ?_
      refine iteInduction (fun _ => observing.fail _) fun _ => ?_
      exact iteInduction (fun _ => observing.fail _) fun _ => observing.done
  | assignable target value =>
      refine observing.withValue _ fun l _ => observing.withValue _ fun r _ =>
        observing.withTag _ fun tag => observing.withTag _ fun tag' => ?_
      refine iteInduction (fun _ => observing.fail _) fun _ => ?_
      exact iteInduction (fun _ => observing.fail _) fun _ => observing.done

theorem Demand.closed_test {ids : List NodeId} (closed : Step.Closed ids P) (d : Demand) :
    P (d.test p) :=
  d.observing_test closed.observing

theorem Defining.closed_apply {ids : List NodeId} (closed : Step.Closed ids P) (d : Defining) :
    P (d.apply p) := by
  cases d with
  | nameBelow part =>
      refine closed.withValue _ fun q _ => ?_
      split
      · exact closed.define _
      · exact closed.done
  | textOf part => exact closed.withValue _ fun q _ => closed.define _

variable (closed : Step.Closed p.preOrder P)

include closed

theorem Rule.closed_grantParts (rule : Rule) : P (rule.grantParts p) := by
  refine closed.all fun step hstep => ?_
  obtain ⟨grant, -, rfl⟩ := List.mem_map.mp hstep
  refine closed.withValue _ fun q hq => ?_
  have hmem : q ∈ p.parts := List.mem_of_getElem? (Phrase.part_eq_ok_iff.mp hq)
  exact closed.assign _ (Phrase.preOrder_part_subset hmem q.id_mem_preOrder) _

theorem Rule.closed_conclude (rule : Rule) : P (rule.conclude p) := by
  refine closed.andThen (closed.all ?_) (closed.assign _ p.id_mem_preOrder _)
  intro step hstep
  obtain ⟨q, hq, rfl⟩ := List.mem_map.mp hstep
  unfold Phrase.settle
  split
  · exact closed.assign _ (Phrase.preOrder_part_subset hq q.id_mem_preOrder) _
  · exact closed.done

/-- What a rule does after its stages. -/
theorem Rule.closed_finish (rule : Rule) :
    P (.all [rule.grantParts p, (rule.defining.map (Defining.apply p)).getD .done,
      rule.conclude p]) := by
  refine closed.all fun step hstep => ?_
  simp only [List.mem_cons, List.not_mem_nil, or_false] at hstep
  rcases hstep with rfl | rfl | rfl
  · exact rule.closed_grantParts closed
  · cases rule.defining with
    | none => exact closed.done
    | some d => exact d.closed_apply closed
  · exact rule.closed_conclude closed

end Closed

namespace Step

/-- A step keeps a relation if it holds between the tables before and after it. -/
def Keeps (related : Table → Table → Prop) (step : Step) : Prop :=
  ∀ s : State, related s.table (step s).state.table

variable {ids : List NodeId} {related : Table → Table → Prop}

theorem closed_keeps (frame : Table.Frame ids related) : Closed ids (Keeps related) where
  done s := frame.refl s.table
  fail _ s := frame.refl s.table
  andThen := by
    intro first second h h' s
    unfold Step.andThen
    cases hf : (first s).fault with
    | some fault => simpa only [hf] using h s
    | none => simpa only [hf] using frame.trans (h s) (h' (first s).state)
  withTag := by
    intro id next h s
    unfold withTag
    cases s.table.tag id with
    | ok tag => exact h tag s
    | error fault => exact frame.refl s.table
  assign := by
    intro id hid tag s
    by_cases h : id ∈ s.table.ids
    · rw [assign_eq h]
      exact frame.write s.table id tag s.scope hid
    · rw [assign_of_notMem h]
      exact frame.refl s.table
  define name s := frame.define s.table name

/-- A property of steps that a typing cannot break: one that is closed and that also holds of
the reports of visits and of steps in a scope of their own. -/
structure Pervasive (ids : List NodeId) (P : Step → Prop) : Prop extends Closed ids P where
  emit : ∀ id category, P (emit (.visiting id category))
  inNewScope : ∀ {step : Step}, P step → P step.inNewScope

theorem Pervasive.mono {ids' : List NodeId} {P : Step → Prop} (pervasive : Pervasive ids P)
    (h : ids' ⊆ ids) : Pervasive ids' P :=
  { pervasive with assign := fun id hid tag => pervasive.assign id (h hid) tag }

theorem pervasive_keeps (frame : Table.Frame ids related) : Pervasive ids (Keeps related) :=
  { closed_keeps frame with
    emit := fun _ _ s => frame.refl s.table
    inNewScope := fun h s => h { s with scope := s.lastScope + 1, lastScope := s.lastScope + 1 } }

end Step

theorem Phrase.typing_eq (context : Option Category) (p : Phrase) :
    p.typing context = .withTag p.id fun tag =>
      if tag.isBound then .done
      else (Step.emit (.visiting p.id p.category)).andThen
        (p.typeAs context (p.parts.map (typing (some p.category)))) := by
  cases p with
  | mk i c l ps =>
      rw [typing, typings_eq_map]
      rfl

section Typing

variable {P : Step → Prop} {p : Phrase}

/-- Visits of parts have a property if the typings of these parts have it. -/
theorem Step.Closed.visits {ids : List NodeId} (closed : Step.Closed ids P) {typings : List Step}
    {positions : List Nat} (h : ∀ i ∈ positions, ∀ typing, typings[i]? = some typing → P typing) :
    P (Step.all (positions.map fun part =>
      (typings[part]?).getD (.fail (p.missingPart part)))) := by
  refine closed.all fun step hstep => ?_
  obtain ⟨part, hpart, rfl⟩ := List.mem_map.mp hstep
  cases ht : typings[part]? with
  | none => exact closed.fail _
  | some typing => exact h part hpart typing ht

theorem Stage.pervasive_apply {ids : List NodeId} (pervasive : Step.Pervasive ids P)
    {typings : List Step} (stage : Stage)
    (h : ∀ i ∈ stage.visits, ∀ typing, typings[i]? = some typing → P typing) :
    P (stage.apply p typings) := by
  have closed := pervasive.toClosed
  have hvisits := closed.visits (p := p) h
  refine closed.andThen (iteInduction (fun _ => pervasive.inNewScope hvisits) fun _ => hvisits)
    (closed.all ?_)
  intro step hstep
  obtain ⟨d, -, rfl⟩ := List.mem_map.mp hstep
  exact d.closed_test closed

theorem Rule.pervasive_apply (pervasive : Step.Pervasive p.preOrder P) (rule : Rule)
    {typings : List Step} (h : ∀ typing ∈ typings, P typing) : P (rule.apply p typings) := by
  have closed := pervasive.toClosed
  rw [Rule.apply, Step.all_append]
  refine closed.andThen (closed.all fun step hstep => ?_) (rule.closed_finish closed)
  obtain ⟨stage, -, rfl⟩ := List.mem_map.mp hstep
  exact stage.pervasive_apply pervasive fun i _ typing ht => h typing (List.mem_of_getElem? ht)

/-- A property that a typing cannot break holds of it. -/
theorem Phrase.pervasive_typing (pervasive : Step.Pervasive p.preOrder P)
    (context : Option Category) : P (p.typing context) := by
  induction p using Phrase.induction generalizing context with
  | step i c l ps ih =>
      have closed := pervasive.toClosed
      have htypings : ∀ typing ∈ ps.map (Phrase.typing (some c)), P typing := by
        intro typing ht
        obtain ⟨q, hq, rfl⟩ := List.mem_map.mp ht
        exact ih q hq (pervasive.mono (Phrase.preOrder_part_subset hq)) _
      rw [Phrase.typing_eq]
      refine closed.withTag i fun tag => iteInduction (fun _ => closed.done) fun _ => ?_
      refine closed.andThen (pervasive.emit _ _) ?_
      have htop := closed.assign i (Phrase.mk i c l ps).id_mem_preOrder
      cases c with
      | number => exact htop _
      | shortString => exact htop _
      | name =>
          simp only [Phrase.typeAs, Phrase.category_mk, Phrase.typeName]
          split
          · exact htop _
          · exact htop _
          · exact closed.fail _
      | keyword | token | operator op => exact closed.done
      | construct c =>
          simp only [Phrase.typeAs, Phrase.category_mk]
          split
          · exact Rule.pervasive_apply pervasive _ htypings
          · exact closed.fail _

/-- Typing a phrase keeps every relation that allows its nodes to receive tags. -/
theorem Phrase.keeps_typing {related : Table → Table → Prop}
    (frame : Table.Frame p.preOrder related) (context : Option Category) :
    (p.typing context).Keeps related :=
  Phrase.pervasive_typing (Step.pervasive_keeps frame) context

/-- Typing a phrase keeps the nodes of a table, and the tags of all nodes outside the phrase. -/
theorem Phrase.frame_typing (p : Phrase) (context : Option Category) (s : State) :
    (p.typing context s).state.table.ids = s.table.ids ∧
      ∀ n ∉ p.preOrder, (p.typing context s).state.table.tagD n = s.table.tagD n := by
  let related : Table → Table → Prop := fun t u =>
    u.ids = t.ids ∧ ∀ n ∉ p.preOrder, u.tagD n = t.tagD n
  have frame : Table.Frame p.preOrder related := by
    refine ⟨?_, ?_, ?_, ?_⟩
    · exact fun t => ⟨rfl, fun n _ => rfl⟩
    · rintro t u v ⟨hids, htags⟩ ⟨hids', htags'⟩
      exact ⟨hids'.trans hids, fun n hn => (htags' n hn).trans (htags n hn)⟩
    · intro t id tag scope hid
      refine ⟨t.ids_write id tag scope, fun n hn => ?_⟩
      exact t.tagD_write_of_ne id n tag scope fun he => hn (he ▸ hid)
    · exact fun t name => ⟨t.ids_define name, fun n _ => t.tagD_define n name⟩
  exact Phrase.keeps_typing frame context s

end Typing

/-- The verdicts on a table, each with what it tells about the table. -/
inductive Table.Judged (t : Table) (root : Phrase) : Except Fault Tag → Prop
  /-- The first record without a tag is named. -/
  | residual {before after : List Record} {r : Record} (records : t.records = before ++ r :: after)
      (bound : ∀ r' ∈ before, r'.tag ≠ .unbound) (unbound : r.tag = .unbound) :
      Judged t root (.error ⟨.residual, r.location⟩)
  /-- Every record has a tag, but that of the root is not the right one. -/
  | mismatch (bound : ∀ r ∈ t.records, r.tag ≠ .unbound) (tag : t.tagD root.id ≠ .wellTyped) :
      Judged t root (.error (root.mismatch [.wellTyped] (t.tagD root.id)))
  /-- Every record has a tag, and the root is well-typed. -/
  | accepted (bound : ∀ r ∈ t.records, r.tag ≠ .unbound) (tag : t.tagD root.id = .wellTyped) :
      Judged t root (.ok .wellTyped)

theorem Table.judged_verdict {t : Table} {root : Phrase} (hroot : root.id ∈ t.ids) :
    t.Judged root (t.verdict root) := by
  have hbound : ∀ tag : Tag, (!tag.isBound) = true ↔ tag = .unbound := by
    intro tag
    cases tag <;> simp [Tag.isBound]
  unfold verdict
  cases hfirst : t.firstUnbound? with
  | some r =>
      obtain ⟨hr, before, after, hrecords, hbefore⟩ := List.find?_eq_some_iff_append.mp hfirst
      refine .residual hrecords (fun r' hr' htag => ?_) ((hbound r.tag).mp hr)
      simpa [htag] using hbefore r' hr'
  | none =>
      have hall : ∀ r ∈ t.records, r.tag ≠ .unbound := by
        intro r hr htag
        simpa [htag] using List.find?_eq_none.mp hfirst r hr
      simp only [t.tag_eq hroot, bind, Except.bind]
      split
      · rename_i htag
        rw [htag]
        exact .accepted hall htag
      · rename_i htag
        exact .mismatch hall htag

namespace Checker

variable (c : Checker)

/-- A check returns the fault of its typing, or else the verdict on the table. -/
theorem result_check :
    c.check.result =
      match (c.tree.root.typing none c.state).fault with
      | some fault => .error fault
      | none => (c.tree.root.typing none c.state).state.table.verdict c.tree.root := by
  simp only [check]
  cases (c.tree.root.typing none c.state).fault with
  | some fault => rfl
  | none =>
      cases (c.tree.root.typing none c.state).state.table.verdict c.tree.root <;> rfl

theorem checker_check :
    c.check.checker = { c with state := (c.tree.root.typing none c.state).state } := by
  simp only [check]
  split
  · rfl
  · split <;> rfl

/-- A check reports what its typing does, and after that at most that it is complete. -/
theorem events_check :
    ∃ closing, c.check.events = (c.tree.root.typing none c.state).events ++ closing ∧
      ∀ e ∈ closing, ∃ records, e = .completed records := by
  have hsilent : ∀ e ∈ ([] : List Event), ∃ records, e = .completed records := by simp
  simp only [check]
  split
  · exact ⟨[], (List.append_nil _).symm, hsilent⟩
  · split
    · exact ⟨_, rfl, by simp⟩
    · exact ⟨[], (List.append_nil _).symm, hsilent⟩

/-- A run reports what its typing does, and at most that it is complete. -/
theorem mem_events_check {e : Event} (h : e ∈ c.check.events) :
    e ∈ (c.tree.root.typing none c.state).events ∨ ∃ records, e = .completed records := by
  obtain ⟨closing, hevents, hclosing⟩ := c.events_check
  rw [hevents, List.mem_append] at h
  exact h.imp_right (hclosing e)

end Checker

end TreeTyping
