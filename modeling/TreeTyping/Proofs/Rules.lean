import Mathlib.Data.List.Basic
import Mathlib.Tactic.MkIffOfInductiveProp
import TreeTyping.Proofs.Progress

/-!
# The rules of the constructs

A construct admits few numbers of parts, and these decide its rule. All rules go through
their parts from left to right and demand a tag of every part that they type. The fault in
which a rule ends is the one that the inspection of the construct finds.
-/

namespace TreeTyping

section Positions

variable {α : Type} (n : Nat)

/-- A view of parts fails on a number of positions that it does not admit. -/
theorem range_eq_none (admitted : List Nat) {view : List Nat → Option α}
    (h : ∀ positions, (view positions).isSome → positions.length ∈ admitted)
    (hn : n ∉ admitted) : view (List.range n) = none := by
  rw [← Option.not_isSome_iff_eq_none]
  intro hsome
  exact hn (by simpa using h _ hsome)

theorem Calculation.ofParts?_range :
    Calculation.ofParts? (List.range n) = if n = 3 then some ⟨0, 1, 2⟩ else none := by
  split
  · subst n
    rfl
  · refine range_eq_none n [3] (fun positions => ?_) (by simpa)
    unfold ofParts?
    split <;> simp

theorem BooleanForm.ofParts?_range :
    BooleanForm.ofParts? (List.range n) =
      if n = 2 then some (.unary 0 1) else if n = 3 then some (.binary 0 1 2) else none := by
  split
  · subst n
    rfl
  split
  · subst n
    rfl
  · refine range_eq_none n [2, 3] (fun positions => ?_) (by simp; omega)
    unfold ofParts?
    split <;> simp

theorem Branch.ofParts?_range :
    Branch.ofParts? (List.range n) =
      if n = 4 then some ⟨1, 3, none⟩ else if n = 6 then some ⟨1, 3, some 5⟩ else none := by
  split
  · subst n
    rfl
  split
  · subst n
    rfl
  · refine range_eq_none n [4, 6] (fun positions => ?_) (by simp; omega)
    unfold ofParts?
    split <;> simp

theorem Assignment.ofParts?_range :
    Assignment.ofParts? (List.range n) = if n = 3 then some ⟨0, 2⟩ else none := by
  split
  · subst n
    rfl
  · refine range_eq_none n [3] (fun positions => ?_) (by simpa)
    unfold ofParts?
    split <;> simp

theorem Loop.ofParts?_range :
    Loop.ofParts? (List.range n) =
      if n = 3 then some (.conditional 1 2)
      else if n = 13 then some (.counted ⟨1, 3, 4, 6, 7, 10, 11, 12⟩)
      else none := by
  split
  · subst n
    rfl
  split
  · subst n
    rfl
  · refine range_eq_none n [3, 13] (fun positions => ?_) (by simp; omega)
    unfold ofParts?
    split <;> simp

theorem Procedure.ofParts?_range :
    Procedure.ofParts? (List.range n) = if n = 3 then some ⟨1, 2⟩ else none := by
  split
  · subst n
    rfl
  · refine range_eq_none n [3] (fun positions => ?_) (by simpa)
    unfold ofParts?
    split <;> simp

theorem Rule.ofOnePart?_range (accepted : List Tag) (result : Tag) :
    Rule.ofOnePart? accepted result (List.range n) =
      if n = 1 then some { stages := [.ofSlots [(0, accepted)]], result } else none := by
  split
  · subst n
    rfl
  · refine range_eq_none n [1] (fun positions => ?_) (by simpa)
    unfold ofOnePart?
    split <;> simp

theorem Rule.argument?_range :
    Rule.argument? (List.range n) =
      if n = 2 then some { grants := [(1, .number)], result := .wellTyped } else none := by
  split
  · subst n
    rfl
  · refine range_eq_none n [2] (fun positions => ?_) (by simpa)
    unfold argument?
    split <;> simp

theorem Rule.sequence?_range :
    Rule.sequence? (List.range n) =
      if n = 1 then some { stages := [.ofSlots [(0, [.wellTyped])]], result := .wellTyped }
      else if n = 2 then some {
        stages := [.ofSlots [(0, [.wellTyped]), (1, [.wellTyped])]]
        result := .wellTyped }
      else none := by
  split
  · subst n
    rfl
  split
  · subst n
    rfl
  · rw [sequence?, if_neg]
    simp
    omega

end Positions

section Lengths

variable {α : Type} {l : List α}

theorem exists_of_length_eq_six (h : l.length = 6) :
    ∃ u v w x y z, l = [u, v, w, x, y, z] := by
  match l, h with
  | [u, v, w, x, y, z], _ => exact ⟨u, v, w, x, y, z, rfl⟩

theorem exists_of_length_eq_thirteen (h : l.length = 13) :
    ∃ a₀ a₁ a₂ a₃ a₄ a₅ a₆ a₇ a₈ a₉ b₀ b₁ b₂,
      l = [a₀, a₁, a₂, a₃, a₄, a₅, a₆, a₇, a₈, a₉, b₀, b₁, b₂] := by
  match l, h with
  | [a₀, a₁, a₂, a₃, a₄, a₅, a₆, a₇, a₈, a₉, b₀, b₁, b₂], _ =>
      exact ⟨a₀, a₁, a₂, a₃, a₄, a₅, a₆, a₇, a₈, a₉, b₀, b₁, b₂, rfl⟩

end Lengths

namespace Phrase

section Inspect

variable (p : Phrase) (values : List Value)

theorem faultOf_inspectOne (title : String) (accepted : List Tag) (result : Tag) :
    faultOf (p.inspectOne title accepted values) =
      match Rule.ofOnePart? accepted result (List.range values.length) with
      | some rule => (rule.progress p values).fault
      | none => some (p.arityFault title "1") := by
  rw [Rule.ofOnePart?_range]
  by_cases h : values.length = 1
  · obtain ⟨u, rfl⟩ := List.length_eq_one_iff.mp h
    simp [inspectOne, Rule.progress, Rule.stageProgress, Stage.ofSlots, Demand.judge,
      Rule.tagAt, Rule.visits, valueAt]
  · unfold inspectOne
    split
    · simp at h
    · simp [h]

theorem faultOf_inspectSequence (title : String) :
    faultOf (p.inspectSequence title values) =
      match Rule.sequence? (List.range values.length) with
      | some rule => (rule.progress p values).fault
      | none => some (p.arityFault title "1 or 2") := by
  rw [Rule.sequence?_range]
  by_cases h1 : values.length = 1
  · obtain ⟨u, rfl⟩ := List.length_eq_one_iff.mp h1
    simp [inspectSequence, Rule.progress, Rule.stageProgress, Stage.ofSlots, Demand.judge,
      Rule.tagAt, Rule.visits, valueAt]
  by_cases h2 : values.length = 2
  · obtain ⟨u, v, rfl⟩ := List.length_eq_two.mp h2
    simp [inspectSequence, Rule.progress, Rule.stageProgress, Stage.ofSlots, Demand.judge,
      Rule.tagAt, Rule.visits, valueAt, Option.or_assoc]
  · unfold inspectSequence
    split
    · simp at h1
    · simp at h2
    · simp [h1, h2]

theorem faultOf_inspectCalculation :
    faultOf (p.inspectCalculation values) =
      match (Calculation.ofParts? (List.range values.length)).map Rule.calculation with
      | some rule => (rule.progress p values).fault
      | none => some (p.arityFault "Calculation" "3") := by
  rw [Calculation.ofParts?_range]
  by_cases h : values.length = 3
  · obtain ⟨u, v, w, rfl⟩ := List.length_eq_three.mp h
    simp [inspectCalculation, Rule.calculation, Rule.progress, Rule.stageProgress,
      Stage.ofSlots, Demand.judge, Rule.tagAt, Rule.visits, valueAt, Option.or_assoc]
  · unfold inspectCalculation
    split
    · simp at h
    · simp [h]

theorem faultOf_inspectBoolean :
    faultOf (p.inspectBoolean values) =
      match (BooleanForm.ofParts? (List.range values.length)).map Rule.booleanExpression with
      | some rule => (rule.progress p values).fault
      | none => some (p.arityFault "Boolean expression" "2 or 3") := by
  rw [BooleanForm.ofParts?_range]
  by_cases h2 : values.length = 2
  · obtain ⟨u, v, rfl⟩ := List.length_eq_two.mp h2
    simp [inspectBoolean, Rule.booleanExpression, Rule.progress, Rule.stageProgress,
      Stage.ofSlots, Demand.judge, Rule.tagAt, Rule.visits, valueAt]
  by_cases h3 : values.length = 3
  · obtain ⟨u, v, w, rfl⟩ := List.length_eq_three.mp h3
    simp [inspectBoolean, Rule.booleanExpression, Rule.progress, Rule.stageProgress,
      Demand.judge, Tag.comparable, Rule.tagAt, Rule.visits, valueAt, Option.or_assoc]
  · unfold inspectBoolean
    split
    · simp at h2
    · simp at h3
    · simp [h2, h3]

theorem faultOf_inspectBranch :
    faultOf (p.inspectBranch values) =
      match (Branch.ofParts? (List.range values.length)).map Rule.branch with
      | some rule => (rule.progress p values).fault
      | none => some (p.arityFault "Conditional branch" "4 or 6") := by
  rw [Branch.ofParts?_range]
  by_cases h4 : values.length = 4
  · obtain ⟨u, v, w, x, rfl⟩ := List.length_eq_four.mp h4
    simp [inspectBranch, Rule.branch, Rule.progress, Rule.stageProgress, Stage.ofSlots,
      Demand.judge, Rule.tagAt, Rule.visits, valueAt, Option.or_assoc]
  by_cases h6 : values.length = 6
  · obtain ⟨u, v, w, x, y, z, rfl⟩ := exists_of_length_eq_six h6
    simp [inspectBranch, Rule.branch, Rule.progress, Rule.stageProgress, Stage.ofSlots,
      Demand.judge, Rule.tagAt, Rule.visits, valueAt, Option.or_assoc]
  · unfold inspectBranch
    split
    · simp at h4
    · simp at h6
    · simp [h4, h6]

theorem faultOf_inspectAssignment :
    faultOf (p.inspectAssignment values) =
      match (Assignment.ofParts? (List.range values.length)).map Rule.assignment with
      | some rule => (rule.progress p values).fault
      | none => some (p.arityFault "Assignment" "3") := by
  rw [Assignment.ofParts?_range]
  by_cases h : values.length = 3
  · obtain ⟨u, v, w, rfl⟩ := List.length_eq_three.mp h
    simp [inspectAssignment, Rule.assignment, Rule.progress, Rule.stageProgress,
      Demand.judge, Tag.assignable, Rule.tagAt, Rule.visits, valueAt, Option.or_assoc]
  · unfold inspectAssignment
    split
    · simp at h
    · simp [h]

theorem faultOf_inspectLoop :
    faultOf (p.inspectLoop values) =
      match (Loop.ofParts? (List.range values.length)).map Rule.loop with
      | some rule => (rule.progress p values).fault
      | none => some (p.arityFault "Conditional loop" "3 or 13") := by
  rw [Loop.ofParts?_range]
  by_cases h3 : values.length = 3
  · obtain ⟨u, v, w, rfl⟩ := List.length_eq_three.mp h3
    simp [inspectLoop, Rule.loop, Rule.progress, Rule.stageProgress, Stage.ofSlots,
      Demand.judge, Rule.tagAt, Rule.visits, valueAt, Option.or_assoc]
  by_cases h13 : values.length = 13
  · obtain ⟨a₀, a₁, a₂, a₃, a₄, a₅, a₆, a₇, a₈, a₉, b₀, b₁, b₂, rfl⟩ :=
      exists_of_length_eq_thirteen h13
    simp [inspectLoop, Rule.loop, CountedLoop.numberGroups, Rule.progress,
      Rule.stageProgress, Stage.ofSlots, Demand.judge, Rule.tagAt, Rule.visits, valueAt,
      Option.or_assoc]
  · unfold inspectLoop
    split
    · simp at h3
    · simp at h13
    · simp [h3, h13]

theorem faultOf_inspectProcedure :
    faultOf (p.inspectProcedure values) =
      match (Procedure.ofParts? (List.range values.length)).map Rule.procedure with
      | some rule => (rule.progress p values).fault
      | none => some (p.arityFault "Procedure" "3") := by
  rw [Procedure.ofParts?_range]
  by_cases h : values.length = 3
  · obtain ⟨u, v, w, rfl⟩ := List.length_eq_three.mp h
    -- The name is not typed, so the demand that it be unbound is always met.
    simp [inspectProcedure, Rule.procedure, Rule.progress, Rule.stageProgress,
      Demand.judge, Rule.tagAt, Rule.visits, valueAt]
  · unfold inspectProcedure
    split
    · simp at h
    · simp [h]

theorem faultOf_inspectArgument :
    faultOf (p.inspectArgument values) =
      match Rule.argument? (List.range values.length) with
      | some rule => (rule.progress p values).fault
      | none => some (p.arityFault "Argument statement" "2") := by
  rw [Rule.argument?_range]
  by_cases h : values.length = 2
  · obtain ⟨u, v, rfl⟩ := List.length_eq_two.mp h
    simp [inspectArgument, Rule.progress]
  · unfold inspectArgument
    split
    · simp at h
    · simp [h]

variable {values} in
theorem faultOf_inspectInstruction (hlen : values.length = p.parts.length) :
    faultOf (p.inspectInstruction values) =
      match Rule.instruction? (p.parts.map category) with
      | some rule => (rule.progress p values).fault
      | none => some (p.arityFault "Instruction" "1") := by
  unfold inspectInstruction Rule.instruction?
  split
  · simp [Rule.progress]
  · rw [List.length_map, ← hlen]
    exact p.faultOf_inspectOne values "Instruction" [.wellTyped] .wellTyped

variable {values} in
/-- With a number of parts that a construct admits, its inspection meets the faults that its
rule meets, in the same order. With any other number it says so. -/
theorem faultOf_inspect (hlen : values.length = p.parts.length) (c : Construct) :
    faultOf (p.inspect values c) =
      match c.rule? (p.parts.map category) with
      | some rule => (rule.progress p values).fault
      | none => some (p.arityFault c.title c.arities) := by
  have hrange : (p.parts.map category).length = values.length := by simp [hlen]
  cases c with
  | instruction => exact p.faultOf_inspectInstruction hlen
  | numberVariable | stringVariable | anyVariable | intermediateT | intermediateU | terminator =>
      simp only [Construct.rule?, hrange]
      exact p.faultOf_inspectOne values _ _ _
  | program | procedures | code =>
      simp only [Construct.rule?, hrange]
      exact p.faultOf_inspectSequence values _
  | calculation =>
      simp only [Construct.rule?, hrange]
      exact p.faultOf_inspectCalculation values
  | booleanExpression =>
      simp only [Construct.rule?, hrange]
      exact p.faultOf_inspectBoolean values
  | branch =>
      simp only [Construct.rule?, hrange]
      exact p.faultOf_inspectBranch values
  | assignment =>
      simp only [Construct.rule?, hrange]
      exact p.faultOf_inspectAssignment values
  | loop =>
      simp only [Construct.rule?, hrange]
      exact p.faultOf_inspectLoop values
  | procedure =>
      simp only [Construct.rule?, hrange]
      exact p.faultOf_inspectProcedure values
  | inputOutput | call =>
      simp only [Construct.rule?, hrange]
      exact p.faultOf_inspectArgument values

end Inspect

end Phrase

/-- The part in which a rule finds the text that it defines. -/
def Defining.part : Defining → Nat
  | .nameBelow part => part
  | .textOf part => part

/-- What the rules of all constructs have in common. -/
@[mk_iff]
structure Rule.Orderly (rule : Rule) (arity : Nat) : Prop where
  /-- The parts to be typed are there. -/
  visits_lt : ∀ i ∈ rule.visits, i < arity
  /-- The parts are typed from left to right, and each of them once. -/
  increasing : rule.visits.Pairwise (· < ·)
  /-- A stage looks at the parts that it has typed and at parts that are never typed. -/
  looks : ∀ stage ∈ rule.stages, ∀ d ∈ stage.demands, ∀ i ∈ d.parts,
    i < arity ∧ (i ∈ stage.visits ∨ i ∉ rule.visits)
  /-- No part that has been typed may stay unbound. -/
  binds : ∀ stage ∈ rule.stages, ∀ i ∈ stage.visits, ∃ d ∈ stage.demands, i ∈ d.binds
  /-- Tags are granted to parts that are never typed. -/
  grants_lt : ∀ grant ∈ rule.grants, grant.1 < arity ∧ grant.1 ∉ rule.visits
  grants_le : rule.grants.length ≤ 1
  defining_lt : ∀ d ∈ rule.defining, d.part < arity
  result_ne : rule.result ≠ .unbound

instance (rule : Rule) (arity : Nat) : Decidable (rule.Orderly arity) :=
  decidable_of_iff' _ (Rule.orderly_iff rule arity)

/-- The parts that an orderly rule has typed are bound when it gets to its end. -/
theorem Rule.Orderly.tagOf_ne_unbound {rule : Rule} {arity : Nat} (orderly : rule.Orderly arity)
    {p : Phrase} {values : List Value} (h : (rule.progress p values).fault = none) {i : Nat}
    (hi : i ∈ rule.visits) : tagOf (p.valueAt values i) ≠ .unbound := by
  obtain ⟨stage, hstage, hi'⟩ := List.mem_flatMap.mp hi
  obtain ⟨d, hd, hbinds⟩ := orderly.binds stage hstage i hi'
  have hne := Demand.isBound_of_judge ((Rule.met_of_progress h hstage).2 d hd) hbinds
  rwa [Rule.tagAt, if_pos hi] at hne

/-- The parts that an orderly rule types are there, with their values. -/
theorem Rule.Orderly.exists_part {rule : Rule} {p : Phrase} (orderly : rule.Orderly p.arity)
    {i : Nat} (hi : i ∈ rule.visits) :
    ∃ q, p.parts[i]? = some q ∧ p.valueAt p.values i = q.evaluate (some p.category) := by
  have hq := List.getElem?_eq_getElem (orderly.visits_lt i hi)
  exact ⟨_, hq, Phrase.valueAt_values hq⟩

/-- A part that an orderly rule types and finds faulty evaluates to the fault. -/
theorem Rule.Orderly.exists_faulty {rule : Rule} {p : Phrase} (orderly : rule.Orderly p.arity)
    {i : Nat} (hi : i ∈ rule.visits) {fault : Fault}
    (h : faultOf (p.valueAt p.values i) = some fault) :
    ∃ q, p.parts[i]? = some q ∧ q.evaluate (some p.category) = .error fault := by
  obtain ⟨q, hq, hvalue⟩ := orderly.exists_part hi
  rw [hvalue, faultOf_eq_some_iff] at h
  exact ⟨q, hq, h⟩

/-- An orderly rule that types the parts that a construct evaluates, grants the tags that it
asserts, and concludes with its tag. -/
structure Rule.Serves (rule : Rule) (c : Construct) (categories : List Category) : Prop
    extends rule.Orderly categories.length where
  visits_eq : rule.visits = c.slots categories
  grants_eq : rule.grants = c.asserted categories
  result_eq : rule.result = c.conclusion

/-- Categories of parts that decide the rule of a construct: as many of one kind as the construct
admits, or the keyword that an instruction tells from other parts. -/
def Construct.samples (c : Construct) : List (List Category) :=
  [.keyword] :: c.admitted.map (List.replicate · .token)

/-- The rules of a construct, each with categories of parts for which it is the rule. -/
def Construct.rules (c : Construct) : List (List Category × Rule) :=
  c.samples.filterMap fun sample => (c.rule? sample).map fun rule => (sample, rule)

section Rules

variable {c : Construct} {categories : List Category} {rule : Rule}

/-- A construct has rules exactly for the numbers of parts that it admits. -/
theorem Construct.isSome_rule?_iff (c : Construct) (categories : List Category) :
    (c.rule? categories).isSome ↔ categories.length ∈ c.admitted := by
  cases c
  all_goals
    simp only [Construct.rule?, Rule.ofOnePart?_range, Rule.sequence?_range,
      Rule.argument?_range, Calculation.ofParts?_range, BooleanForm.ofParts?_range,
      Branch.ofParts?_range, Assignment.ofParts?_range, Loop.ofParts?_range,
      Procedure.ofParts?_range, Rule.instruction?, Construct.admitted]
    repeat' split
  all_goals simp_all

theorem Construct.length_mem_admitted (h : c.rule? categories = some rule) :
    categories.length ∈ c.admitted :=
  (c.isSome_rule?_iff categories).mp (by simp [h])

/-- Every rule of a construct is listed, with categories that the construct does not tell from
those at hand. So a fact about all rules can be decided. -/
theorem Construct.exists_sample (h : c.rule? categories = some rule) :
    ∃ sample, (sample, rule) ∈ c.rules ∧ sample.length = categories.length ∧
      c.slots sample = c.slots categories ∧ c.asserted sample = c.asserted categories := by
  have hlisted : ∀ sample ∈ c.samples, c.rule? sample = some rule → (sample, rule) ∈ c.rules :=
    fun sample hsample hr => List.mem_filterMap.mpr ⟨sample, hsample, by rw [hr]; rfl⟩
  by_cases hkeyword : categories = [.keyword]
  · exact ⟨categories, hlisted _ (by simp [samples, hkeyword]) h, rfl, rfl, rfl⟩
  -- Otherwise only the number of parts counts.
  let sample := List.replicate categories.length Category.token
  have hlength : sample.length = categories.length := List.length_replicate
  have hother : sample ≠ [.keyword] := by
    intro he
    have hmem : Category.keyword ∈ sample := by simp [he]
    exact absurd (List.eq_of_mem_replicate hmem) (by simp)
  have hsample : sample ∈ c.samples :=
    List.mem_cons_of_mem _ (List.mem_map_of_mem (length_mem_admitted h))
  refine ⟨sample, hlisted sample hsample ?_, hlength, ?_, ?_⟩
  · rw [← h]
    unfold rule? Rule.instruction?
    rw [hlength, if_neg hkeyword, if_neg hother]
  · cases c with
    | instruction => simp only [slots, hlength, hkeyword, hother]
    | _ =>
        unfold slots
        rw [hlength, if_neg hkeyword, if_neg hother]
  · cases c <;> simp only [asserted, hkeyword, hother]

/-- Every rule of a construct serves it. -/
theorem Construct.serves (h : c.rule? categories = some rule) : rule.Serves c categories := by
  obtain ⟨sample, hmem, hlength, hslots, hasserted⟩ := exists_sample h
  have hall : ∀ entry ∈ c.rules, entry.2.Orderly entry.1.length ∧
      entry.2.visits = c.slots entry.1 ∧ entry.2.grants = c.asserted entry.1 ∧
      entry.2.result = c.conclusion := by
    cases c <;> decide
  obtain ⟨orderly, hvisits, hgrants, hresult⟩ := hall _ hmem
  exact ⟨hlength ▸ orderly, hvisits.trans hslots, hgrants.trans hasserted, hresult⟩

/-- The rule of a phrase is orderly for its number of parts. -/
theorem Construct.orderly {p : Phrase}
    (h : c.rule? (p.parts.map Phrase.category) = some rule) : rule.Orderly p.arity := by
  have orderly := (Construct.serves h).toOrderly
  rwa [List.length_map] at orderly

end Rules

namespace Phrase

theorem length_values (p : Phrase) : p.values.length = p.parts.length := by
  simp [values]

/-- The value of a construct is decided by how far its rule gets. -/
theorem evaluate_construct {p : Phrase} {c : Construct} {rule : Rule}
    (hc : p.category = .construct c) (hr : c.rule? (p.parts.map category) = some rule)
    (context : Option Category) :
    p.evaluate context =
      match (rule.progress p p.values).fault with
      | none => .ok rule.result
      | some fault => .error fault := by
  have hf := p.faultOf_inspect p.length_values c
  simp only [hr] at hf
  rw [← hf, (Construct.serves hr).result_eq, evaluate_eq_valueOf]
  simp only [valueOf, hc]
  cases p.inspect p.values c <;> rfl

/-- A construct without a rule for its number of parts is faulty. -/
theorem evaluate_misfit {p : Phrase} {c : Construct} (hc : p.category = .construct c)
    (hr : c.rule? (p.parts.map category) = none) (context : Option Category) :
    p.evaluate context = .error (p.arityFault c.title c.arities) := by
  have hf := p.faultOf_inspect p.length_values c
  simp only [hr, faultOf_eq_some_iff] at hf
  rw [evaluate_eq_valueOf]
  simp only [valueOf, hc, hf]
  rfl

/-- A construct has a tag only if its rule has come to its end. -/
theorem exists_rule_of_ok {p : Phrase} {c : Construct} {context : Option Category} {tag : Tag}
    (hc : p.category = .construct c) (h : p.evaluate context = .ok tag) :
    ∃ rule, c.rule? (p.parts.map category) = some rule ∧
      (rule.progress p p.values).fault = none ∧ tag = c.conclusion := by
  cases hr : c.rule? (p.parts.map category) with
  | none => simp [evaluate_misfit hc hr] at h
  | some rule =>
      refine ⟨rule, rfl, ?_⟩
      rw [evaluate_construct hc hr] at h
      cases hf : (rule.progress p p.values).fault with
      | none =>
          rw [hf] at h
          exact ⟨rfl, (Except.ok.inj h).symm.trans (Construct.serves hr).result_eq⟩
      | some fault => simp [hf] at h

end Phrase

end TreeTyping
