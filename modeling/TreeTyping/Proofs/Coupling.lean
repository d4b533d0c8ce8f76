import Mathlib.Data.List.Forall2
import TreeTyping.Proofs.Conduct

/-!
# Two checks side by side

Two trees may be built alike and differ in the names of their nodes or in their texts. Typing
goes through both in step: it reads only tags and categories, and a node of one tree is told
apart from other nodes exactly when its counterpart is. So two checks of such trees end alike,
and their tables belong together record by record.

## Implementation notes

What belongs together is a parameter, a `Coupling`. Both tables hold a record for every
coupled node, so no lookup of such a node can fail.
-/

namespace TreeTyping

/-- How the nodes, texts and records of two checks belong together. -/
structure Coupling where
  node : NodeId → NodeId → Prop
  text : String → String → Prop
  record : Record → Record → Prop
  /-- A node belongs to one node only. -/
  biunique : ∀ {a b a' b'}, node a a' → node b b' → (a = b ↔ a' = b')
  record_node : ∀ {r r'}, record r r' → node r.id r'.id
  record_category : ∀ {r r'}, record r r' → r.category = r'.category
  record_text : ∀ {r r'}, record r r' → text r.lexeme r'.lexeme
  record_tag : ∀ {r r'}, record r r' → r.tag = r'.tag
  /-- Records still belong together when both are given the same tag and scope. -/
  record_write : ∀ {r r'} (tag : Tag) (scope : UInt32), record r r' →
    record { r with tag, scope } { r' with tag, scope }
  /-- Records still belong together when texts that belong together become defined. -/
  record_define : ∀ {r r' name name'}, record r r' → text name name' →
    record (if r.lexeme = name then { r with definition := .defined } else r)
      (if r'.lexeme = name' then { r' with definition := .defined } else r')

/-- Lists that belong together element by element do so at each position. -/
theorem rel_getElem? {α β : Type} {related : α → β → Prop} {xs : List α} {ys : List β}
    (h : List.Forall₂ related xs ys) (i : Nat) : Option.Rel related xs[i]? ys[i]? := by
  induction h generalizing i with
  | nil => exact .none
  | cons hx _ ih =>
      cases i with
      | zero => exact .some hx
      | succ i => simpa using ih i

namespace Coupling

variable (K : Coupling)

/-- Phrases that are built alike from coupled nodes. -/
inductive Phrases : Phrase → Phrase → Prop
  | mk {i i' : NodeId} {c : Category} {l l' : String} {ps ps' : List Phrase}
      (node : K.node i i') (text : K.text l l') (parts : List.Forall₂ Phrases ps ps') :
      Phrases (.mk i c l ps) (.mk i' c l' ps')

/-- Causes that differ at most in the text of a name. -/
inductive Causes : Cause → Cause → Prop
  | typeMismatch (expected : List Tag) (received : Tag) :
      Causes (.typeMismatch expected received) (.typeMismatch expected received)
  | ambiguousName {name name' : String} (text : K.text name name') (context : Option Category) :
      Causes (.ambiguousName name context) (.ambiguousName name' context)
  | invalidArity (construct expected : String) (received : Nat) :
      Causes (.invalidArity construct expected received) (.invalidArity construct expected received)
  | procedureBound {name name' : String} (text : K.text name name') (bound : Tag) :
      Causes (.procedureBound name bound) (.procedureBound name' bound)
  | residual : Causes .residual .residual

/-- Faults at coupled nodes with causes that belong together. -/
structure Faults (fault fault' : Fault) : Prop where
  cause : K.Causes fault.cause fault'.cause
  node : K.node fault.location.node fault'.location.node
  category : fault.location.category = fault'.location.category
  text : K.text fault.location.lexeme fault'.location.lexeme

/-- States with tables that belong together and hold all coupled nodes. -/
structure States (s s' : State) : Prop where
  records : List.Forall₂ K.record s.table.records s'.table.records
  scope : s.scope = s'.scope
  lastScope : s.lastScope = s'.lastScope
  known : ∀ {a a'}, K.node a a' → a ∈ s.table.ids

/-- Steps that lead from states that belong together to such states, and end alike. -/
def Steps (step step' : Step) : Prop :=
  ∀ s s', K.States s s' →
    K.States (step s).state (step' s').state ∧
      Option.Rel K.Faults (step s).fault (step' s').fault

/-- Results that are the same tag, or faults that belong together. -/
inductive Results : Except Fault Tag → Except Fault Tag → Prop
  | ok (tag : Tag) : Results (.ok tag) (.ok tag)
  | error {fault fault' : Fault} (faults : K.Faults fault fault') :
      Results (.error fault) (.error fault')

variable {K}

section States

variable {s s' : State}

theorem States.get? (h : K.States s s') {a a' : NodeId} (ha : K.node a a') :
    Option.Rel K.record (s.table.get? a) (s'.table.get? a') := by
  have hrecords := h.records
  rw [Table.get?_eq_find?, Table.get?_eq_find?]
  generalize s.table.records = records at hrecords
  generalize s'.table.records = records' at hrecords
  induction hrecords with
  | nil => exact .none
  | @cons r r' rest rest' hr _ ih =>
      have hid := K.biunique (K.record_node hr) ha
      by_cases hra : r.id = a
      · simp only [List.find?_cons, hra, hid.mp hra, beq_self_eq_true]
        exact .some hr
      · have hra' : r'.id ≠ a' := fun he => hra (hid.mpr he)
        simpa [List.find?_cons, hra, hra'] using ih

theorem States.known_right (h : K.States s s') {a a' : NodeId} (ha : K.node a a') :
    a' ∈ s'.table.ids := by
  have hget := h.get? ha
  have hsome := (Table.isSome_get?_iff s.table a).mpr (h.known ha)
  rw [← Table.isSome_get?_iff]
  cases hr : s.table.get? a with
  | none => simp [hr] at hsome
  | some r =>
      rw [hr] at hget
      cases hr' : s'.table.get? a' with
      | none =>
          rw [hr'] at hget
          cases hget
      | some r' => rfl

theorem States.tagD (h : K.States s s') {a a' : NodeId} (ha : K.node a a') :
    s.table.tagD a = s'.table.tagD a' := by
  have hget := h.get? ha
  unfold Table.tagD
  generalize s.table.get? a = r at hget
  generalize s'.table.get? a' = r' at hget
  cases hget with
  | some hr => simp [K.record_tag hr]
  | none => rfl

theorem States.write (h : K.States s s') {a a' : NodeId} (ha : K.node a a') (tag : Tag) :
    K.States { s with table := s.table.write a tag s.scope }
      { s' with table := s'.table.write a' tag s'.scope } where
  records := by
    simp only [Table.records_write, List.forall₂_map_left_iff, List.forall₂_map_right_iff]
    refine h.records.imp fun r r' hr => ?_
    have hid := K.biunique (K.record_node hr) ha
    by_cases hra : r.id = a
    · rw [if_pos hra, if_pos (hid.mp hra), h.scope]
      exact K.record_write tag _ hr
    · rw [if_neg hra, if_neg fun he => hra (hid.mpr he)]
      exact hr
  scope := h.scope
  lastScope := h.lastScope
  known := by
    intro b b' hb
    rw [Table.ids_write]
    exact h.known hb

theorem States.define (h : K.States s s') {name name' : String} (hname : K.text name name') :
    K.States { s with table := s.table.define name }
      { s' with table := s'.table.define name' } where
  records := by
    simp only [Table.records_define, List.forall₂_map_left_iff, List.forall₂_map_right_iff]
    exact h.records.imp fun r r' hr => K.record_define hr hname
  scope := h.scope
  lastScope := h.lastScope
  known := by
    intro b b' hb
    rw [Table.ids_define]
    exact h.known hb

end States

section Steps

theorem steps_done : K.Steps .done .done :=
  fun _ _ h => ⟨h, .none⟩

theorem steps_fail {fault fault' : Fault} (h : K.Faults fault fault') :
    K.Steps (.fail fault) (.fail fault') :=
  fun _ _ hs => ⟨hs, .some h⟩

theorem steps_emit (event event' : Event) : K.Steps (.emit event) (.emit event') :=
  fun _ _ h => ⟨h, .none⟩

theorem Steps.andThen {first first' second second' : Step} (h : K.Steps first first')
    (h' : K.Steps second second') : K.Steps (first.andThen second) (first'.andThen second') := by
  intro s s' hs
  obtain ⟨hstate, hfault⟩ := h s s' hs
  cases hf : (first s).fault with
  | some fault =>
      cases hf' : (first' s').fault with
      | none => simp [hf, hf'] at hfault
      | some fault' =>
          rw [Step.andThen_of_some hf, Step.andThen_of_some hf']
          exact ⟨hstate, hfault⟩
  | none =>
      cases hf' : (first' s').fault with
      | some fault' => simp [hf, hf'] at hfault
      | none =>
          rw [Step.andThen_of_none hf, Step.andThen_of_none hf']
          exact h' _ _ hstate

theorem steps_all {steps steps' : List Step} (h : List.Forall₂ K.Steps steps steps') :
    K.Steps (.all steps) (.all steps') := by
  induction h with
  | nil => exact steps_done
  | cons hstep _ ih => exact hstep.andThen ih

theorem steps_ite {c : Prop} [Decidable c] {a a' b b' : Step} (ha : K.Steps a a')
    (hb : K.Steps b b') : K.Steps (if c then a else b) (if c then a' else b') := by
  split
  · exact ha
  · exact hb

theorem steps_withTag {a a' : NodeId} (ha : K.node a a') {next next' : Tag → Step}
    (h : ∀ tag, K.Steps (next tag) (next' tag)) :
    K.Steps (.withTag a next) (.withTag a' next') := by
  intro s s' hs
  rw [Step.withTag_eq (hs.known ha), Step.withTag_eq (hs.known_right ha), hs.tagD ha]
  exact h _ s s' hs

theorem steps_assign {a a' : NodeId} (ha : K.node a a') (tag : Tag) :
    K.Steps (.assign a tag) (.assign a' tag) := by
  intro s s' hs
  rw [Step.assign_eq (hs.known ha), Step.assign_eq (hs.known_right ha)]
  exact ⟨hs.write ha tag, .none⟩

theorem steps_define {name name' : String} (h : K.text name name') :
    K.Steps (.define name) (.define name') :=
  fun _ _ hs => ⟨hs.define h, .none⟩

theorem Steps.inNewScope {step step' : Step} (h : K.Steps step step') :
    K.Steps step.inNewScope step'.inNewScope := by
  intro s s' hs
  have hfresh : K.States { s with scope := s.lastScope + 1, lastScope := s.lastScope + 1 }
      { s' with scope := s'.lastScope + 1, lastScope := s'.lastScope + 1 } :=
    { hs with
      scope := congrArg (· + 1) hs.lastScope
      lastScope := congrArg (· + 1) hs.lastScope }
  obtain ⟨hstate, hfault⟩ := h _ _ hfresh
  exact ⟨{ hstate with scope := hs.scope }, hfault⟩

end Steps

namespace Phrases

variable {p p' : Phrase}

theorem id (h : K.Phrases p p') : K.node p.id p'.id := by
  cases h with
  | mk node text parts => exact node

theorem category (h : K.Phrases p p') : p.category = p'.category := by
  cases h with
  | mk node text parts => rfl

theorem lexeme (h : K.Phrases p p') : K.text p.lexeme p'.lexeme := by
  cases h with
  | mk node text parts => exact text

theorem parts (h : K.Phrases p p') : List.Forall₂ K.Phrases p.parts p'.parts := by
  cases h with
  | mk node text parts => exact parts

theorem arity (h : K.Phrases p p') : p.arity = p'.arity := h.parts.length_eq

/-- Coupled phrases have parts of the same categories. -/
theorem categories (h : K.Phrases p p') :
    p.parts.map Phrase.category = p'.parts.map Phrase.category := by
  have hparts := h.parts
  generalize p.parts = ps at hparts
  generalize p'.parts = ps' at hparts
  induction hparts with
  | nil => rfl
  | cons hq _ ih => rw [List.map_cons, List.map_cons, hq.category, ih]

theorem fault (h : K.Phrases p p') {cause cause' : Cause} (hcause : K.Causes cause cause') :
    K.Faults ⟨cause, p.location⟩ ⟨cause', p'.location⟩ :=
  ⟨hcause, h.id, h.category, h.lexeme⟩

theorem mismatch (h : K.Phrases p p') (expected : List Tag) (received : Tag) :
    K.Faults (p.mismatch expected received) (p'.mismatch expected received) :=
  h.fault (.typeMismatch expected received)

theorem arityFault (h : K.Phrases p p') (construct expected : String) :
    K.Faults (p.arityFault construct expected) (p'.arityFault construct expected) := by
  unfold Phrase.arityFault
  rw [h.arity]
  exact h.fault (.invalidArity construct expected _)

theorem missingPart (h : K.Phrases p p') (i : Nat) :
    K.Faults (p.missingPart i) (p'.missingPart i) := by
  unfold Phrase.missingPart
  rw [h.category]
  exact h.arityFault _ _

theorem withPart (h : K.Phrases p p') (i : Nat) {next next' : Phrase → Step}
    (hnext : ∀ {q q'}, K.Phrases q q' → K.Steps (next q) (next' q')) :
    K.Steps (.withValue (p.part i) next) (.withValue (p'.part i) next') := by
  have hpart := rel_getElem? h.parts i
  unfold Phrase.part
  generalize p.parts[i]? = q at hpart
  generalize p'.parts[i]? = q' at hpart
  cases hpart with
  | some hq => exact hnext hq
  | none => exact steps_fail (h.missingPart i)

theorem firstName? (h : K.Phrases p p') :
    Option.Rel K.text p.firstName? p'.firstName? := by
  induction p using Phrase.induction generalizing p' with
  | step i c l ps ih =>
      cases h with
      | mk node text parts =>
          by_cases hc : c = .name
          · cases parts <;> simpa [Phrase.firstName?, hc] using text
          · cases parts with
            | nil => simp [Phrase.firstName?, hc]
            | cons hq _ => simpa [Phrase.firstName?, hc] using ih _ (by simp) hq

theorem test (h : K.Phrases p p') (d : Demand) : K.Steps (d.test p) (d.test p') := by
  cases d with
  | oneOf part accepted =>
      refine h.withPart part fun hq => steps_withTag hq.id fun tag => ?_
      exact steps_ite steps_done (steps_fail (h.mismatch _ _))
  | unbound part =>
      refine h.withPart part fun hq => steps_withTag hq.id fun tag => ?_
      exact steps_ite (steps_fail (h.fault (.procedureBound hq.lexeme tag))) steps_done
  | comparable left right =>
      refine h.withPart left fun hl => h.withPart right fun hr =>
        steps_withTag hl.id fun tag => steps_withTag hr.id fun tag' => ?_
      exact steps_ite (steps_fail (h.mismatch _ _)) (steps_ite (steps_fail (h.mismatch _ _))
        (steps_ite (steps_fail (h.mismatch _ _)) steps_done))
  | assignable target value =>
      refine h.withPart target fun hl => h.withPart value fun hr =>
        steps_withTag hl.id fun tag => steps_withTag hr.id fun tag' => ?_
      exact steps_ite (steps_fail (h.mismatch _ _))
        (steps_ite (steps_fail (h.mismatch _ _)) steps_done)

theorem defining (h : K.Phrases p p') (d : Defining) : K.Steps (d.apply p) (d.apply p') := by
  cases d with
  | nameBelow part =>
      refine h.withPart part fun {q q'} hq => ?_
      have hname := hq.firstName?
      generalize q.firstName? = name at hname ⊢
      generalize q'.firstName? = name' at hname ⊢
      cases hname with
      | some htext => exact steps_define htext
      | none => exact steps_done
  | textOf part => exact h.withPart part fun hq => steps_define hq.lexeme

theorem settle (h : K.Phrases p p') : K.Steps p.settle p'.settle := by
  unfold Phrase.settle
  rw [h.category]
  split
  · exact steps_assign h.id _
  · exact steps_done

section Rule

variable {typings typings' : List Step} (htypings : List.Forall₂ K.Steps typings typings')

include htypings in
theorem stage (h : K.Phrases p p') (stage : Stage) :
    K.Steps (stage.apply p typings) (stage.apply p' typings') := by
  have hvisits : K.Steps
      (.all (stage.visits.map fun part => (typings[part]?).getD (.fail (p.missingPart part))))
      (.all (stage.visits.map fun part =>
        (typings'[part]?).getD (.fail (p'.missingPart part)))) := by
    refine steps_all ?_
    rw [List.forall₂_map_left_iff, List.forall₂_map_right_iff, List.forall₂_same]
    intro part _
    have htyping := rel_getElem? htypings part
    generalize typings[part]? = typing at htyping
    generalize typings'[part]? = typing' at htyping
    cases htyping with
    | some h => exact h
    | none => exact steps_fail (h.missingPart part)
  refine Steps.andThen ?_ (steps_all ?_)
  · split
    · exact hvisits.inNewScope
    · exact hvisits
  · rw [List.forall₂_map_left_iff, List.forall₂_map_right_iff, List.forall₂_same]
    exact fun d _ => h.test d

theorem conclude (h : K.Phrases p p') (rule : Rule) :
    K.Steps (rule.conclude p) (rule.conclude p') := by
  refine Steps.andThen (steps_all ?_) (steps_assign h.id _)
  rw [List.forall₂_map_left_iff, List.forall₂_map_right_iff]
  exact h.parts.imp fun q q' hq => hq.settle

theorem grantParts (h : K.Phrases p p') (rule : Rule) :
    K.Steps (rule.grantParts p) (rule.grantParts p') := by
  refine steps_all ?_
  rw [List.forall₂_map_left_iff, List.forall₂_map_right_iff, List.forall₂_same]
  exact fun grant _ => h.withPart grant.1 fun hq => steps_assign hq.id grant.2

include htypings in
theorem apply (h : K.Phrases p p') (rule : Rule) :
    K.Steps (rule.apply p typings) (rule.apply p' typings') := by
  unfold Rule.apply
  rw [Step.all_append, Step.all_append]
  refine Steps.andThen (steps_all ?_) (steps_all ?_)
  · rw [List.forall₂_map_left_iff, List.forall₂_map_right_iff, List.forall₂_same]
    exact fun stage _ => h.stage htypings stage
  · refine .cons (h.grantParts rule) (.cons ?_ (.cons (h.conclude rule) .nil))
    cases rule.defining with
    | none => exact steps_done
    | some d => exact h.defining d

end Rule

theorem typeName (h : K.Phrases p p') (context : Option Category) :
    K.Steps (p.typeName context) (p'.typeName context) := by
  unfold Phrase.typeName
  split
  · exact steps_assign h.id .number
  · exact steps_assign h.id .string
  · exact steps_fail (h.fault (.ambiguousName h.lexeme context))

theorem typeAs {typings typings' : List Step}
    (htypings : List.Forall₂ K.Steps typings typings') (h : K.Phrases p p')
    (context : Option Category) :
    K.Steps (p.typeAs context typings) (p'.typeAs context typings') := by
  unfold Phrase.typeAs
  rw [← h.category, ← h.categories]
  cases p.category with
  | number | shortString => exact steps_assign h.id _
  | name => exact h.typeName context
  | keyword | token | operator op => exact steps_done
  | construct c =>
      simp only
      split
      · exact h.apply htypings _
      · exact steps_fail (h.arityFault _ _)

/-- Coupled phrases are typed in step. -/
theorem typing (h : K.Phrases p p') (context : Option Category) :
    K.Steps (p.typing context) (p'.typing context) := by
  induction p using Phrase.induction generalizing p' context with
  | step i c l ps ih =>
      have htypings : List.Forall₂ K.Steps (ps.map (Phrase.typing (some c)))
          (p'.parts.map (Phrase.typing (some c))) := by
        rw [List.forall₂_map_left_iff, List.forall₂_map_right_iff]
        have hparts : List.Forall₂ (fun q q' => q ∈ ps ∧ K.Phrases q q') ps p'.parts :=
          (List.forall₂_and_left ps p'.parts).mpr ⟨fun q hq => hq, h.parts⟩
        exact hparts.imp fun q q' ⟨hmem, hq⟩ => ih q hmem hq (some c)
      rw [Phrase.typing_eq, Phrase.typing_eq]
      refine steps_withTag h.id fun tag => steps_ite steps_done ?_
      refine Steps.andThen (steps_emit _ _) ?_
      rw [← h.category]
      exact h.typeAs htypings context

end Phrases

/-- Below coupled phrases, the phrases are coupled one by one. -/
theorem Phrases.subphrases {p p' : Phrase} (h : K.Phrases p p') :
    List.Forall₂ K.Phrases p.subphrases p'.subphrases := by
  induction p using Phrase.induction generalizing p' with
  | step i c l ps ih =>
      rw [Phrase.subphrases_eq_cons, Phrase.subphrases_eq_cons p']
      refine .cons h ?_
      have hparts : List.Forall₂ (fun q q' => q ∈ ps ∧ K.Phrases q q') ps p'.parts :=
        (List.forall₂_and_left ps p'.parts).mpr ⟨fun q hq => hq, h.parts⟩
      exact List.rel_flatMap hparts fun q q' ⟨hmem, hq⟩ => ih q hmem hq

/-- Tables that belong together have their first unbound records at the same place. -/
theorem States.firstUnbound? {s s' : State} (h : K.States s s') :
    Option.Rel K.record s.table.firstUnbound? s'.table.firstUnbound? := by
  have hrecords := h.records
  simp only [Table.firstUnbound?]
  generalize s.table.records = records at hrecords
  generalize s'.table.records = records' at hrecords
  induction hrecords with
  | nil => exact .none
  | @cons r r' rest rest' hr _ ih =>
      rw [List.find?_cons, List.find?_cons, K.record_tag hr]
      split
      · exact .some hr
      · exact ih

theorem States.verdict {s s' : State} {root root' : Phrase} (h : K.States s s')
    (hroot : K.Phrases root root') :
    K.Results (s.table.verdict root) (s'.table.verdict root') := by
  have hfirst := h.firstUnbound?
  unfold Table.verdict
  generalize s.table.firstUnbound? = first at hfirst ⊢
  generalize s'.table.firstUnbound? = first' at hfirst ⊢
  cases hfirst with
  | some hr =>
      exact .error ⟨.residual, K.record_node hr, K.record_category hr, K.record_text hr⟩
  | none =>
      simp only [s.table.tag_eq (h.known hroot.id), s'.table.tag_eq (h.known_right hroot.id),
        h.tagD hroot.id, bind, Except.bind]
      split
      · exact .ok _
      · exact .error (hroot.mismatch _ _)

/-- Checks of coupled trees return results that belong together, and leave such states. -/
theorem Phrases.check {c c' : Checker} (hroot : K.Phrases c.tree.root c'.tree.root)
    (h : K.States c.state c'.state) :
    K.Results c.check.result c'.check.result ∧
      K.States c.check.checker.state c'.check.checker.state := by
  obtain ⟨hstate, hfault⟩ := hroot.typing none _ _ h
  have hverdict := hstate.verdict hroot
  rw [Checker.result_check, Checker.result_check, Checker.checker_check, Checker.checker_check]
  refine ⟨?_, hstate⟩
  generalize (c.tree.root.typing none c.state).fault = fault at hfault ⊢
  generalize (c'.tree.root.typing none c'.state).fault = fault' at hfault ⊢
  cases hfault with
  | some hfault => exact .error hfault
  | none => exact hverdict

end Coupling

end TreeTyping
