import TreeTyping.Proofs.Refinement

/-!
# Derivations of tags

The tags of phrases can be derived by rules that know neither a table nor an order of
events. A check accepts a tree exactly when its root is derivably well-typed. The link is a
phrase that has a tag and below which nothing stays unbound: such phrases are exactly those
with a derivation.
-/

namespace TreeTyping

/-- A token or an operator without parts. -/
def Phrase.IsWord (p : Phrase) : Prop := p.category.isWord = true ∧ p.parts = []

/-- The tags that can be derived for a phrase in the context of the phrase around it. -/
inductive Derives : Option Category → Phrase → Tag → Prop
  | number {context i l} :
      Derives context (.mk i .number l []) .number
  | shortString {context i l} :
      Derives context (.mk i .shortString l []) .string
  | numberName {i l} :
      Derives (some (.construct .numberVariable)) (.mk i .name l []) .number
  | stringName {i l} :
      Derives (some (.construct .stringVariable)) (.mk i .name l []) .string
  | numberVariable {context i l} {a : Phrase}
      (inner : Derives (some (.construct .numberVariable)) a .number) :
      Derives context (.mk i (.construct .numberVariable) l [a]) .number
  | stringVariable {context i l} {a : Phrase}
      (inner : Derives (some (.construct .stringVariable)) a .string) :
      Derives context (.mk i (.construct .stringVariable) l [a]) .string
  | anyVariable {context i l} {a : Phrase} {tag : Tag}
      (accepted : tag ∈ [.number, .string])
      (inner : Derives (some (.construct .anyVariable)) a tag) :
      Derives context (.mk i (.construct .anyVariable) l [a]) .output
  | intermediateT {context i l} {a : Phrase} {tag : Tag}
      (accepted : tag ∈ [.number, .string])
      (inner : Derives (some (.construct .intermediateT)) a tag) :
      Derives context (.mk i (.construct .intermediateT) l [a]) .wellTyped
  | intermediateU {context i l} {a : Phrase} {tag : Tag}
      (accepted : tag ∈ [.number, .string])
      (inner : Derives (some (.construct .intermediateU)) a tag) :
      Derives context (.mk i (.construct .intermediateU) l [a]) .wellTyped
  | terminator {context i l} {a : Phrase}
      (inner : Derives (some (.construct .terminator)) a .wellTyped) :
      Derives context (.mk i (.construct .terminator) l [a]) .wellTyped
  | calculation {context i l} {k a b : Phrase}
      (word : k.IsWord) (left : Derives (some (.construct .calculation)) a .number)
      (right : Derives (some (.construct .calculation)) b .number) :
      Derives context (.mk i (.construct .calculation) l [k, a, b]) .number
  | negation {context i l} {k a : Phrase}
      (word : k.IsWord) (operand : Derives (some (.construct .booleanExpression)) a .boolean) :
      Derives context (.mk i (.construct .booleanExpression) l [k, a]) .boolean
  | comparison {context i l} {k a b : Phrase} {tag : Tag}
      (comparable : tag ∈ [.output, .number, .boolean])
      (left : Derives (some (.construct .booleanExpression)) a tag) (word : k.IsWord)
      (right : Derives (some (.construct .booleanExpression)) b tag) :
      Derives context (.mk i (.construct .booleanExpression) l [a, k, b]) .boolean
  | branch {context i l} {k k' c b : Phrase}
      (word : k.IsWord) (condition : Derives (some (.construct .branch)) c .boolean)
      (word' : k'.IsWord) (thenBody : Derives (some (.construct .branch)) b .wellTyped) :
      Derives context (.mk i (.construct .branch) l [k, c, k', b]) .wellTyped
  | branchElse {context i l} {k k' k'' c b e : Phrase}
      (word : k.IsWord) (condition : Derives (some (.construct .branch)) c .boolean)
      (word' : k'.IsWord) (thenBody : Derives (some (.construct .branch)) b .wellTyped)
      (word'' : k''.IsWord) (elseBody : Derives (some (.construct .branch)) e .wellTyped) :
      Derives context (.mk i (.construct .branch) l [k, c, k', b, k'', e]) .wellTyped
  | assignment {context i l} {k a b : Phrase} {tag : Tag}
      (assignable : tag ∈ [.number, .string])
      (target : Derives (some (.construct .assignment)) a tag) (word : k.IsWord)
      (value : Derives (some (.construct .assignment)) b tag) :
      Derives context (.mk i (.construct .assignment) l [a, k, b]) .wellTyped
  | conditionalLoop {context i l} {k c b : Phrase}
      (word : k.IsWord) (condition : Derives (some (.construct .loop)) c .boolean)
      (body : Derives (some (.construct .loop)) b .wellTyped) :
      Derives context (.mk i (.construct .loop) l [k, c, b]) .wellTyped
  | countedLoop {context i l}
      {k₀ k₂ k₅ k₈ k₉ a₁ a₃ a₄ a₆ a₇ a₁₀ a₁₁ b : Phrase}
      (words : ∀ k ∈ [k₀, k₂, k₅, k₈, k₉], k.IsWord)
      (counter : Derives (some (.construct .loop)) a₁ .number)
      (start : Derives (some (.construct .loop)) a₃ .number)
      (boundLeft : Derives (some (.construct .loop)) a₄ .number)
      (boundRight : Derives (some (.construct .loop)) a₆ .number)
      (stepTarget : Derives (some (.construct .loop)) a₇ .number)
      (stepOperand : Derives (some (.construct .loop)) a₁₀ .number)
      (stepAmount : Derives (some (.construct .loop)) a₁₁ .number)
      (body : Derives (some (.construct .loop)) b .wellTyped) :
      Derives context (.mk i (.construct .loop) l
        [k₀, a₁, k₂, a₃, a₄, k₅, a₆, a₇, k₈, k₉, a₁₀, a₁₁, b]) .wellTyped
  | sequenceOne {context i l} {c : Construct} {a : Phrase}
      (sequential : c ∈ [.program, .procedures, .code])
      (only : Derives (some (.construct c)) a .wellTyped) :
      Derives context (.mk i (.construct c) l [a]) .wellTyped
  | sequenceTwo {context i l} {c : Construct}
      {a b : Phrase} (sequential : c ∈ [.program, .procedures, .code])
      (first : Derives (some (.construct c)) a .wellTyped)
      (second : Derives (some (.construct c)) b .wellTyped) :
      Derives context (.mk i (.construct c) l [a, b]) .wellTyped
  | procedure {context i l} {k x b : Phrase}
      (word : k.IsWord) (name : x.parts = [])
      (body : Derives (some (.construct .procedure)) b .wellTyped) :
      Derives context (.mk i (.construct .procedure) l [k, x, b]) .wellTyped
  | halt {context i l} {x : Phrase}
      (keyword : x.category = .keyword) (leaf : x.parts = []) :
      Derives context (.mk i (.construct .instruction) l [x]) .wellTyped
  | instruction {context i l} {a : Phrase}
      (inner : Derives (some (.construct .instruction)) a .wellTyped) :
      Derives context (.mk i (.construct .instruction) l [a]) .wellTyped
  | argument {context i l} {c : Construct} {k x : Phrase}
      (statement : c ∈ [.inputOutput, .call]) (word : k.IsWord) (leaf : x.parts = []) :
      Derives context (.mk i (.construct c) l [k, x]) .wellTyped

/-- A result that is bound comes from a value. -/
@[simp] theorem bind_eq_ok_iff {α β : Type} {value : Except Fault α} {next : α → Except Fault β}
    {b : β} : (value >>= next) = .ok b ↔ ∃ a, value = .ok a ∧ next a = .ok b := by
  cases value <;> simp [bind, Except.bind]

namespace Phrase

@[simp] theorem expect_eq_ok_iff {p : Phrase} {accepted : List Tag} {tag : Tag} {u : Unit} :
    p.expect accepted tag = .ok u ↔ tag ∈ accepted := by
  unfold expect
  split <;> simp_all

/-- A phrase with a tag, below which nothing stays unbound. -/
def Typed (context : Option Category) (p : Phrase) (tag : Tag) : Prop :=
  p.evaluate context = .ok tag ∧ .unbound ∉ p.tagging context

theorem unbound_notMem_taggingAll_iff (fate : Fate) (context : Option Category) (first : Nat)
    (ps : List Phrase) :
    .unbound ∉ taggingAll fate context first ps ↔
      ∀ x ∈ ps.zipIdx first, .unbound ∉ x.1.taggingAt fate context x.2 := by
  induction ps generalizing first with
  | nil => simp [taggingAll]
  | cons p ps ih => simp [taggingAll_cons, List.zipIdx_cons, ih]

theorem sizeAll_eq_zero_iff (ps : List Phrase) : sizeAll ps = 0 ↔ ps = [] := by
  cases ps with
  | nil => simp [sizeAll]
  | cons p ps => simp [sizeAll, size_eq]

theorem lookup_ne_unbound_iff {asserted : List (Nat × Tag)} (part : Nat)
    (h : ∀ x ∈ asserted, x.2 ≠ .unbound) :
    (asserted.lookup part).getD .unbound ≠ .unbound ↔ part ∈ asserted.map Prod.fst := by
  induction asserted with
  | nil => simp
  | cons x rest ih =>
      obtain ⟨position, tag⟩ := x
      obtain ⟨htag, hrest⟩ := List.forall_mem_cons.mp h
      by_cases hpart : part = position
      · simpa [hpart] using htag
      · simpa [hpart, List.lookup_cons, beq_false_of_ne hpart] using ih hrest

/-- A part that is passed over receives a tag if it is a word or the construct asserts one. -/
theorem leftTag_ne_unbound_iff {i : NodeId} {c : Construct} {l : String} {ps : List Phrase}
    (part : Nat) (category : Category) :
    (mk i (.construct c) l ps).leftTag part category ≠ .unbound ↔
      category.isWord = true ∨ part ∈ (c.asserted (ps.map Phrase.category)).map Prod.fst := by
  have hne : ∀ x ∈ c.asserted (ps.map Phrase.category), x.2 ≠ .unbound := by
    unfold Construct.asserted
    split <;> try split
    all_goals simp
  cases category with
  | token | operator op => simp [leftTag, Category.settledTag?, Category.isWord]
  | number | name | shortString | keyword | construct c' =>
      simpa [leftTag, Category.settledTag?, Category.isWord] using lookup_ne_unbound_iff part hne

/-- A construct is typed if it passes its inspection, the parts at its slots are typed, and the
other parts are leaves that receive a tag. -/
theorem typed_construct_iff {context : Option Category} {i : NodeId} {c : Construct} {l : String}
    {ps : List Phrase} {tag : Tag} :
    (mk i (.construct c) l ps).Typed context tag ↔
      (mk i (.construct c) l ps).inspect (ps.map (evaluate (some (.construct c)))) c = .ok () ∧
      tag = c.conclusion ∧
      ∀ x ∈ ps.zipIdx, if x.2 ∈ c.slots (ps.map category)
        then .unbound ∉ x.1.tagging (some (.construct c))
        else x.1.parts = [] ∧ (x.1.category.isWord = true ∨
          x.2 ∈ (c.asserted (ps.map category)).map Prod.fst) := by
  have hvalue : (mk i (.construct c) l ps).evaluate context = .ok tag ↔
      (mk i (.construct c) l ps).inspect (ps.map (evaluate (some (.construct c)))) c = .ok () ∧
        tag = c.conclusion := by
    rw [evaluate_eq_valueOf]
    simp only [valueOf, category_mk, values, parts_mk, bind_eq_ok_iff]
    constructor
    · rintro ⟨_, hinspect, htag⟩
      exact ⟨hinspect, (Except.ok.inj htag).symm⟩
    · rintro ⟨hinspect, rfl⟩
      exact ⟨(), hinspect, rfl⟩
  rw [Typed, hvalue, and_assoc]
  refine and_congr_right fun hinspect => and_congr_right fun htag => ?_
  have hok := hvalue.mpr ⟨hinspect, htag⟩
  have hne : tag ≠ .unbound := by
    rw [htag]
    cases c <;> decide
  rw [tagging_eq_cons, hok, fate_of_ok hok, List.mem_cons, not_or, tagOf_ok]
  simp only [parts_mk, category_mk, unbound_notMem_taggingAll_iff]
  refine (and_iff_right hne.symm).trans (forall₂_congr fun x hx => ?_)
  by_cases hslot : x.2 ∈ c.slots (ps.map category)
  · rw [if_pos hslot, taggingAt, if_pos (show x.2 ∈ (mk i (.construct c) l ps).slots from hslot)]
  · rw [if_neg hslot, taggingAt,
      if_neg (show x.2 ∉ (mk i (.construct c) l ps).slots from hslot), List.mem_cons, not_or,
      List.mem_replicate, ne_eq, sizeAll_eq_zero_iff, and_comm,
      ← @leftTag_ne_unbound_iff i c l ps, ne_comm]
    simp

section Typed

variable {context : Option Category} {i : NodeId} {c : Construct} {l : String}
  {ps : List Phrase} {tag : Tag}

theorem Typed.admitted (h : (mk i (.construct c) l ps).Typed context tag) :
    ps.length ∈ c.admitted := by
  obtain ⟨rule, hr, -⟩ := exists_rule_of_ok (p := mk i (.construct c) l ps) rfl h.1
  simpa using Construct.length_mem_admitted hr

theorem typed_onePart_iff {a : Phrase} {title : String} {accepted : List Tag}
    (hinspect : ∀ (p : Phrase) values, p.inspect values c = p.inspectOne title accepted values)
    (hslots : ∀ category, c.slots [category] = [0]) :
    (mk i (.construct c) l [a]).Typed context tag ↔
      tag = c.conclusion ∧ ∃ inner ∈ accepted, a.Typed (some (.construct c)) inner := by
  rw [typed_construct_iff, hinspect]
  constructor
  · rintro ⟨hok, htag, hbound⟩
    obtain ⟨inner, hvalue, hmem⟩ : ∃ inner, a.evaluate (some (.construct c)) = .ok inner ∧
        inner ∈ accepted := by simpa [inspectOne] using hok
    exact ⟨htag, inner, hmem, hvalue, by simpa [hslots] using hbound⟩
  · rintro ⟨htag, inner, hmem, hvalue, hbound⟩
    exact ⟨by simp [inspectOne, hvalue, hmem], htag, by simpa [hslots] using hbound⟩

theorem typed_sequenceOne_iff {a : Phrase} (hc : c ∈ [.program, .procedures, .code]) :
    (mk i (.construct c) l [a]).Typed context tag ↔
      tag = .wellTyped ∧ a.Typed (some (.construct c)) .wellTyped := by
  obtain ⟨title, hinspect, hslots, hresult⟩ : ∃ title,
      (∀ (p : Phrase) values, p.inspect values c = p.inspectSequence title values) ∧
      (∀ category, c.slots [category] = [0]) ∧ c.conclusion = .wellTyped := by
    simp only [List.mem_cons, List.not_mem_nil, or_false] at hc
    rcases hc with rfl | rfl | rfl
    all_goals exact ⟨_, fun _ _ => rfl, fun _ => rfl, rfl⟩
  rw [typed_construct_iff, hinspect, hresult]
  simp [inspectSequence, hslots, Typed, and_left_comm]

theorem typed_sequenceTwo_iff {a b : Phrase} (hc : c ∈ [.program, .procedures, .code]) :
    (mk i (.construct c) l [a, b]).Typed context tag ↔
      tag = .wellTyped ∧ a.Typed (some (.construct c)) .wellTyped ∧
        b.Typed (some (.construct c)) .wellTyped := by
  obtain ⟨title, hinspect, hslots, hresult⟩ : ∃ title,
      (∀ (p : Phrase) values, p.inspect values c = p.inspectSequence title values) ∧
      (∀ first second, c.slots [first, second] = [0, 1]) ∧ c.conclusion = .wellTyped := by
    simp only [List.mem_cons, List.not_mem_nil, or_false] at hc
    rcases hc with rfl | rfl | rfl
    all_goals exact ⟨_, fun _ _ => rfl, fun _ _ => rfl, rfl⟩
  rw [typed_construct_iff, hinspect, hresult]
  simp [inspectSequence, hslots, Typed, and_left_comm, and_assoc]

theorem typed_calculation_iff {k a b : Phrase} :
    (mk i (.construct .calculation) l [k, a, b]).Typed context tag ↔
      tag = .number ∧ k.IsWord ∧ a.Typed (some (.construct .calculation)) .number ∧
        b.Typed (some (.construct .calculation)) .number := by
  rw [typed_construct_iff]
  simp [inspect, inspectCalculation, Construct.slots, Construct.asserted,
    Construct.conclusion, Typed, IsWord, and_comm, and_left_comm, and_assoc]

theorem typed_negation_iff {k a : Phrase} :
    (mk i (.construct .booleanExpression) l [k, a]).Typed context tag ↔
      tag = .boolean ∧ k.IsWord ∧
        a.Typed (some (.construct .booleanExpression)) .boolean := by
  rw [typed_construct_iff]
  simp [inspect, inspectBoolean, Construct.slots, Construct.asserted, Construct.conclusion,
    Typed, IsWord, and_comm, and_left_comm, and_assoc]

theorem typed_comparison_iff {a k b : Phrase} :
    (mk i (.construct .booleanExpression) l [a, k, b]).Typed context tag ↔
      tag = .boolean ∧ k.IsWord ∧ ∃ inner ∈ [.output, .number, .boolean],
        a.Typed (some (.construct .booleanExpression)) inner ∧
        b.Typed (some (.construct .booleanExpression)) inner := by
  rw [typed_construct_iff]
  constructor
  · rintro ⟨hok, htag, hbound⟩
    obtain ⟨left, hleft, right, hright, hmem, -, rfl⟩ :
        ∃ left, a.evaluate (some (.construct .booleanExpression)) = .ok left ∧
        ∃ right, b.evaluate (some (.construct .booleanExpression)) = .ok right ∧
          left ∈ [.output, .number, .boolean] ∧ right ∈ [.output, .number, .boolean] ∧
          right = left := by simpa [inspect, inspectBoolean] using hok
    obtain ⟨ha, ⟨hk, hword⟩, hb⟩ :
        .unbound ∉ a.tagging (some (.construct .booleanExpression)) ∧
        (k.parts = [] ∧ k.category.isWord = true) ∧
        .unbound ∉ b.tagging (some (.construct .booleanExpression)) := by
      simpa [Construct.slots, Construct.asserted] using hbound
    exact ⟨htag, ⟨hword, hk⟩, right, hmem, ⟨hleft, ha⟩, hright, hb⟩
  · rintro ⟨rfl, ⟨hword, hk⟩, inner, hmem, ha, hb⟩
    refine ⟨by simp_all [inspect, inspectBoolean, ha.1, hb.1], rfl, ?_⟩
    simp [Construct.slots, Construct.asserted, ha.2, hb.2, hk, hword]

theorem typed_assignment_iff {a k b : Phrase} :
    (mk i (.construct .assignment) l [a, k, b]).Typed context tag ↔
      tag = .wellTyped ∧ k.IsWord ∧ ∃ inner ∈ [.number, .string],
        a.Typed (some (.construct .assignment)) inner ∧
        b.Typed (some (.construct .assignment)) inner := by
  rw [typed_construct_iff]
  constructor
  · rintro ⟨hok, htag, hbound⟩
    obtain ⟨target, htarget, value, hvalue, hmem, rfl⟩ :
        ∃ target, a.evaluate (some (.construct .assignment)) = .ok target ∧
        ∃ value, b.evaluate (some (.construct .assignment)) = .ok value ∧
          target ∈ [.number, .string] ∧ value = target := by
      simpa [inspect, inspectAssignment] using hok
    obtain ⟨ha, ⟨hk, hword⟩, hb⟩ :
        .unbound ∉ a.tagging (some (.construct .assignment)) ∧
        (k.parts = [] ∧ k.category.isWord = true) ∧
        .unbound ∉ b.tagging (some (.construct .assignment)) := by
      simpa [Construct.slots, Construct.asserted] using hbound
    exact ⟨htag, ⟨hword, hk⟩, value, hmem, ⟨htarget, ha⟩, hvalue, hb⟩
  · rintro ⟨rfl, ⟨hword, hk⟩, inner, hmem, ha, hb⟩
    refine ⟨by simp_all [inspect, inspectAssignment, ha.1, hb.1], rfl, ?_⟩
    simp [Construct.slots, Construct.asserted, ha.2, hb.2, hk, hword]

theorem typed_branch_iff {k c k' b : Phrase} :
    (mk i (.construct .branch) l [k, c, k', b]).Typed context tag ↔
      tag = .wellTyped ∧ k.IsWord ∧ k'.IsWord ∧ c.Typed (some (.construct .branch)) .boolean ∧
        b.Typed (some (.construct .branch)) .wellTyped := by
  rw [typed_construct_iff]
  simp [inspect, inspectBranch, Construct.slots, Construct.asserted, Construct.conclusion,
    Typed, IsWord, and_comm, and_left_comm, and_assoc]

theorem typed_branchElse_iff {k c k' b k'' e : Phrase} :
    (mk i (.construct .branch) l [k, c, k', b, k'', e]).Typed context tag ↔
      tag = .wellTyped ∧ k.IsWord ∧ k'.IsWord ∧ k''.IsWord ∧
        c.Typed (some (.construct .branch)) .boolean ∧
        b.Typed (some (.construct .branch)) .wellTyped ∧
        e.Typed (some (.construct .branch)) .wellTyped := by
  rw [typed_construct_iff]
  simp [inspect, inspectBranch, Construct.slots, Construct.asserted, Construct.conclusion,
    Typed, IsWord, and_comm, and_left_comm, and_assoc]

theorem typed_conditionalLoop_iff {k c b : Phrase} :
    (mk i (.construct .loop) l [k, c, b]).Typed context tag ↔
      tag = .wellTyped ∧ k.IsWord ∧ c.Typed (some (.construct .loop)) .boolean ∧
        b.Typed (some (.construct .loop)) .wellTyped := by
  rw [typed_construct_iff]
  simp [inspect, inspectLoop, Construct.slots, Construct.asserted, Construct.conclusion,
    Typed, IsWord, and_comm, and_left_comm, and_assoc]

theorem typed_countedLoop_iff {k₀ k₂ k₅ k₈ k₉ a₁ a₃ a₄ a₆ a₇ a₁₀ a₁₁ b : Phrase} :
    (mk i (.construct .loop) l
      [k₀, a₁, k₂, a₃, a₄, k₅, a₆, a₇, k₈, k₉, a₁₀, a₁₁, b]).Typed context tag ↔
      tag = .wellTyped ∧ (∀ k ∈ [k₀, k₂, k₅, k₈, k₉], k.IsWord) ∧
        (∀ a ∈ [a₁, a₃, a₄, a₆, a₇, a₁₀, a₁₁], a.Typed (some (.construct .loop)) .number) ∧
        b.Typed (some (.construct .loop)) .wellTyped := by
  rw [typed_construct_iff]
  constructor
  · rintro ⟨hok, htag, hbound⟩
    obtain ⟨hnumbers, hbody⟩ : (∀ a ∈ [a₁, a₃, a₄, a₆, a₇, a₁₀, a₁₁],
        a.evaluate (some (.construct .loop)) = .ok .number) ∧
        b.evaluate (some (.construct .loop)) = .ok .wellTyped := by
      simpa [inspect, inspectLoop, and_assoc] using hok
    obtain ⟨hwords, hinner, hb⟩ : (∀ k ∈ [k₀, k₂, k₅, k₈, k₉], k.IsWord) ∧
        (∀ a ∈ [a₁, a₃, a₄, a₆, a₇, a₁₀, a₁₁], .unbound ∉ a.tagging (some (.construct .loop))) ∧
        .unbound ∉ b.tagging (some (.construct .loop)) := by
      clear hok hnumbers
      simp_all [Construct.slots, Construct.asserted, IsWord]
    exact ⟨htag, hwords, fun a ha => ⟨hnumbers a ha, hinner a ha⟩, hbody, hb⟩
  · rintro ⟨rfl, hwords, hnumbers, hbody⟩
    simp only [List.forall_mem_cons, IsWord, Typed] at hwords hnumbers
    refine ⟨?_, rfl, ?_⟩
    · simp [inspect, inspectLoop, hnumbers, hbody.1]
    · simp [Construct.slots, Construct.asserted, hwords, hnumbers, hbody.2]

theorem typed_procedure_iff {k x b : Phrase} :
    (mk i (.construct .procedure) l [k, x, b]).Typed context tag ↔
      tag = .wellTyped ∧ k.IsWord ∧ x.parts = [] ∧
        b.Typed (some (.construct .procedure)) .wellTyped := by
  rw [typed_construct_iff]
  simp [inspect, inspectProcedure, Construct.slots, Construct.asserted, Construct.conclusion,
    Typed, IsWord, and_comm, and_left_comm, and_assoc]

theorem typed_instruction_iff {a : Phrase} :
    (mk i (.construct .instruction) l [a]).Typed context tag ↔
      tag = .wellTyped ∧ (a.category = .keyword ∧ a.parts = [] ∨
        a.Typed (some (.construct .instruction)) .wellTyped) := by
  rw [typed_construct_iff]
  by_cases hkey : a.category = .keyword
  · have hvalue : a.evaluate (some (.construct .instruction)) = .ok .unbound := by
      rw [evaluate_eq_valueOf, valueOf, hkey]
    simp [inspect, inspectInstruction, Construct.slots, Construct.asserted,
      Construct.conclusion, Typed, hkey, hvalue]
  · simp [inspect, inspectInstruction, inspectOne, Construct.slots, Construct.conclusion,
      Typed, hkey, and_left_comm]

theorem typed_argument_iff {k x : Phrase} (hc : c ∈ [.inputOutput, .call]) :
    (mk i (.construct c) l [k, x]).Typed context tag ↔
      tag = .wellTyped ∧ k.IsWord ∧ x.parts = [] := by
  obtain ⟨hinspect, hslots, hasserted, hresult⟩ :
      (∀ (p : Phrase) values, p.inspect values c = p.inspectArgument values) ∧
      (∀ categories, c.slots categories = []) ∧
      (∀ categories, c.asserted categories = [(1, .number)]) ∧ c.conclusion = .wellTyped := by
    simp only [List.mem_cons, List.not_mem_nil, or_false] at hc
    rcases hc with rfl | rfl
    all_goals exact ⟨fun _ _ => rfl, fun _ => rfl, fun _ => rfl, rfl⟩
  rw [typed_construct_iff, hinspect, hresult]
  simp [inspectArgument, hslots, hasserted, IsWord, and_comm, and_assoc]

/-- A literal, a name or a word is typed if it is a leaf with a tag. -/
theorem typed_leaf_iff {category : Category} (hc : ∀ c, category ≠ .construct c) :
    (mk i category l ps).Typed context tag ↔
      (mk i category l ps).evaluate context = .ok tag ∧ tag ≠ .unbound ∧ ps = [] := by
  refine and_congr_right fun hok => ?_
  have hslots : (mk i category l ps).slots = [] := by
    cases category <;> first | rfl | exact absurd rfl (hc _)
  have hleft : (mk i category l ps).leftTag = fun _ _ => .unbound := by
    funext part category'
    cases category <;> first | rfl | exact absurd rfl (hc _)
  rw [tagging_eq_cons, hok, fate_of_ok hok, hslots, hleft, List.mem_cons, not_or, tagOf_ok]
  cases ps with
  | nil => simp [taggingAll, eq_comm]
  | cons q qs => simp [taggingAll]

end Typed

end Phrase

/-- A derivation types the phrase. -/
theorem Derives.typed {context : Option Category} {p : Phrase} {tag : Tag}
    (h : Derives context p tag) : p.Typed context tag := by
  induction h with
  | number | shortString | numberName | stringName =>
      exact (Phrase.typed_leaf_iff (by simp)).mpr ⟨rfl, by decide, rfl⟩
  | numberVariable _ ih | stringVariable _ ih | terminator _ ih =>
      exact (Phrase.typed_onePart_iff (fun _ _ => rfl) fun _ => rfl).mpr
        ⟨rfl, _, List.mem_singleton.mpr rfl, ih⟩
  | anyVariable accepted _ ih | intermediateT accepted _ ih | intermediateU accepted _ ih =>
      exact (Phrase.typed_onePart_iff (fun _ _ => rfl) fun _ => rfl).mpr
        ⟨rfl, _, accepted, ih⟩
  | calculation word _ _ left right =>
      exact Phrase.typed_calculation_iff.mpr ⟨rfl, word, left, right⟩
  | negation word _ operand =>
      exact Phrase.typed_negation_iff.mpr ⟨rfl, word, operand⟩
  | comparison comparable _ word _ left right =>
      exact Phrase.typed_comparison_iff.mpr ⟨rfl, word, _, comparable, left, right⟩
  | branch word _ word' _ condition thenBody =>
      exact Phrase.typed_branch_iff.mpr ⟨rfl, word, word', condition, thenBody⟩
  | branchElse word _ word' _ word'' _ condition thenBody elseBody =>
      exact Phrase.typed_branchElse_iff.mpr
        ⟨rfl, word, word', word'', condition, thenBody, elseBody⟩
  | assignment assignable _ word _ target value =>
      exact Phrase.typed_assignment_iff.mpr ⟨rfl, word, _, assignable, target, value⟩
  | conditionalLoop word _ _ condition body =>
      exact Phrase.typed_conditionalLoop_iff.mpr ⟨rfl, word, condition, body⟩
  | countedLoop words _ _ _ _ _ _ _ _ h₁ h₃ h₄ h₆ h₇ h₁₀ h₁₁ body =>
      refine Phrase.typed_countedLoop_iff.mpr ⟨rfl, words, ?_, body⟩
      simp [h₁, h₃, h₄, h₆, h₇, h₁₀, h₁₁]
  | sequenceOne sequential _ only =>
      exact (Phrase.typed_sequenceOne_iff sequential).mpr ⟨rfl, only⟩
  | sequenceTwo sequential _ _ first second =>
      exact (Phrase.typed_sequenceTwo_iff sequential).mpr ⟨rfl, first, second⟩
  | procedure word name _ body =>
      exact Phrase.typed_procedure_iff.mpr ⟨rfl, word, name, body⟩
  | halt keyword leaf =>
      exact Phrase.typed_instruction_iff.mpr ⟨rfl, .inl ⟨keyword, leaf⟩⟩
  | instruction _ inner =>
      exact Phrase.typed_instruction_iff.mpr ⟨rfl, .inr inner⟩
  | argument statement word leaf =>
      exact (Phrase.typed_argument_iff statement).mpr ⟨rfl, word, leaf⟩

section Complete

variable {context : Option Category} {i : NodeId} {c : Construct} {l : String}
  {ps : List Phrase} {tag : Tag}

/-- A typed construct has a derivation if its typed parts have derivations. -/
theorem Phrase.Typed.derives_construct
    (ih : ∀ q ∈ ps, ∀ {context tag}, q.Typed context tag → Derives context q tag)
    (h : (Phrase.mk i (.construct c) l ps).Typed context tag) :
    Derives context (.mk i (.construct c) l ps) tag := by
  have hlen := h.admitted
  cases c <;> simp only [Construct.admitted, List.mem_cons, List.not_mem_nil, or_false] at hlen
  case numberVariable =>
    obtain ⟨a, rfl⟩ := List.length_eq_one_iff.mp hlen
    obtain ⟨rfl, _, hmem, ha⟩ := (Phrase.typed_onePart_iff (fun _ _ => rfl) fun _ => rfl).mp h
    obtain rfl := List.mem_singleton.mp hmem
    exact .numberVariable (ih a (by simp) ha)
  case stringVariable =>
    obtain ⟨a, rfl⟩ := List.length_eq_one_iff.mp hlen
    obtain ⟨rfl, _, hmem, ha⟩ := (Phrase.typed_onePart_iff (fun _ _ => rfl) fun _ => rfl).mp h
    obtain rfl := List.mem_singleton.mp hmem
    exact .stringVariable (ih a (by simp) ha)
  case terminator =>
    obtain ⟨a, rfl⟩ := List.length_eq_one_iff.mp hlen
    obtain ⟨rfl, _, hmem, ha⟩ := (Phrase.typed_onePart_iff (fun _ _ => rfl) fun _ => rfl).mp h
    obtain rfl := List.mem_singleton.mp hmem
    exact .terminator (ih a (by simp) ha)
  case anyVariable =>
    obtain ⟨a, rfl⟩ := List.length_eq_one_iff.mp hlen
    obtain ⟨rfl, _, hmem, ha⟩ := (Phrase.typed_onePart_iff (fun _ _ => rfl) fun _ => rfl).mp h
    exact .anyVariable hmem (ih a (by simp) ha)
  case intermediateT =>
    obtain ⟨a, rfl⟩ := List.length_eq_one_iff.mp hlen
    obtain ⟨rfl, _, hmem, ha⟩ := (Phrase.typed_onePart_iff (fun _ _ => rfl) fun _ => rfl).mp h
    exact .intermediateT hmem (ih a (by simp) ha)
  case intermediateU =>
    obtain ⟨a, rfl⟩ := List.length_eq_one_iff.mp hlen
    obtain ⟨rfl, _, hmem, ha⟩ := (Phrase.typed_onePart_iff (fun _ _ => rfl) fun _ => rfl).mp h
    exact .intermediateU hmem (ih a (by simp) ha)
  case calculation =>
    obtain ⟨k, a, b, rfl⟩ := List.length_eq_three.mp hlen
    obtain ⟨rfl, hk, ha, hb⟩ := Phrase.typed_calculation_iff.mp h
    exact .calculation hk (ih a (by simp) ha) (ih b (by simp) hb)
  case booleanExpression =>
    rcases hlen with hlen | hlen
    · obtain ⟨k, a, rfl⟩ := List.length_eq_two.mp hlen
      obtain ⟨rfl, hk, ha⟩ := Phrase.typed_negation_iff.mp h
      exact .negation hk (ih a (by simp) ha)
    · obtain ⟨a, k, b, rfl⟩ := List.length_eq_three.mp hlen
      obtain ⟨rfl, hk, _, hmem, ha, hb⟩ := Phrase.typed_comparison_iff.mp h
      exact .comparison hmem (ih a (by simp) ha) hk (ih b (by simp) hb)
  case branch =>
    rcases hlen with hlen | hlen
    · obtain ⟨k, c, k', b, rfl⟩ := List.length_eq_four.mp hlen
      obtain ⟨rfl, hk, hk', hc, hb⟩ := Phrase.typed_branch_iff.mp h
      exact .branch hk (ih c (by simp) hc) hk' (ih b (by simp) hb)
    · obtain ⟨k, c, k', b, k'', e, rfl⟩ := exists_of_length_eq_six hlen
      obtain ⟨rfl, hk, hk', hk'', hc, hb, he⟩ := Phrase.typed_branchElse_iff.mp h
      exact .branchElse hk (ih c (by simp) hc) hk' (ih b (by simp) hb) hk'' (ih e (by simp) he)
  case assignment =>
    obtain ⟨a, k, b, rfl⟩ := List.length_eq_three.mp hlen
    obtain ⟨rfl, hk, _, hmem, ha, hb⟩ := Phrase.typed_assignment_iff.mp h
    exact .assignment hmem (ih a (by simp) ha) hk (ih b (by simp) hb)
  case loop =>
    rcases hlen with hlen | hlen
    · obtain ⟨k, c, b, rfl⟩ := List.length_eq_three.mp hlen
      obtain ⟨rfl, hk, hc, hb⟩ := Phrase.typed_conditionalLoop_iff.mp h
      exact .conditionalLoop hk (ih c (by simp) hc) (ih b (by simp) hb)
    · obtain ⟨k₀, a₁, k₂, a₃, a₄, k₅, a₆, a₇, k₈, k₉, a₁₀, a₁₁, b, rfl⟩ :=
        exists_of_length_eq_thirteen hlen
      obtain ⟨rfl, hk, ha, hb⟩ := Phrase.typed_countedLoop_iff.mp h
      simp only [List.forall_mem_cons] at ha
      obtain ⟨h₁, h₃, h₄, h₆, h₇, h₁₀, h₁₁, -⟩ := ha
      exact .countedLoop hk (ih a₁ (by simp) h₁) (ih a₃ (by simp) h₃) (ih a₄ (by simp) h₄)
        (ih a₆ (by simp) h₆) (ih a₇ (by simp) h₇) (ih a₁₀ (by simp) h₁₀)
        (ih a₁₁ (by simp) h₁₁) (ih b (by simp) hb)
  case program | procedures | code =>
    rcases hlen with hlen | hlen
    · obtain ⟨a, rfl⟩ := List.length_eq_one_iff.mp hlen
      obtain ⟨rfl, ha⟩ := (Phrase.typed_sequenceOne_iff (by simp)).mp h
      exact .sequenceOne (by simp) (ih a (by simp) ha)
    · obtain ⟨a, b, rfl⟩ := List.length_eq_two.mp hlen
      obtain ⟨rfl, ha, hb⟩ := (Phrase.typed_sequenceTwo_iff (by simp)).mp h
      exact .sequenceTwo (by simp) (ih a (by simp) ha) (ih b (by simp) hb)
  case procedure =>
    obtain ⟨k, x, b, rfl⟩ := List.length_eq_three.mp hlen
    obtain ⟨rfl, hk, hx, hb⟩ := Phrase.typed_procedure_iff.mp h
    exact .procedure hk hx (ih b (by simp) hb)
  case instruction =>
    obtain ⟨a, rfl⟩ := List.length_eq_one_iff.mp hlen
    obtain ⟨rfl, ⟨hkeyword, hleaf⟩ | ha⟩ := Phrase.typed_instruction_iff.mp h
    · exact .halt hkeyword hleaf
    · exact .instruction (ih a (by simp) ha)
  case inputOutput | call =>
    obtain ⟨k, x, rfl⟩ := List.length_eq_two.mp hlen
    obtain ⟨rfl, hk, hx⟩ := (Phrase.typed_argument_iff (by simp)).mp h
    exact .argument (by simp) hk hx

end Complete

/-- A typed phrase has a derivation. -/
theorem Phrase.Typed.derives {context : Option Category} {p : Phrase} {tag : Tag}
    (h : p.Typed context tag) : Derives context p tag := by
  induction p using Phrase.induction generalizing context tag with
  | step i c l ps ih =>
      have hleaf := fun hc => (Phrase.typed_leaf_iff hc).mp h
      cases c with
      | number =>
          obtain ⟨⟨⟩, -, rfl⟩ := hleaf (by simp)
          exact .number
      | shortString =>
          obtain ⟨⟨⟩, -, rfl⟩ := hleaf (by simp)
          exact .shortString
      | keyword | token | operator op =>
          obtain ⟨⟨⟩, hne, -⟩ := hleaf (by simp)
          exact absurd rfl hne
      | name =>
          obtain ⟨hvalue, -, rfl⟩ := hleaf (by simp)
          change Phrase.nameValue _ context = .ok tag at hvalue
          unfold Phrase.nameValue at hvalue
          split at hvalue
          · cases hvalue
            exact .numberName
          · cases hvalue
            exact .stringName
          · cases hvalue
      | construct c => exact Phrase.Typed.derives_construct (fun q hq => ih q hq) h

/-- The verdict is good if every record is bound and the root is well-typed. -/
theorem Table.verdict_eq_ok_iff {t : Table} {root : Phrase} (hroot : root.id ∈ t.ids)
    (tag : Tag) :
    t.verdict root = .ok tag ↔
      .unbound ∉ t.records.map Record.tag ∧ t.tagD root.id = .wellTyped ∧ tag = .wellTyped := by
  have hjudged := t.judged_verdict hroot
  constructor
  · intro hverdict
    rw [hverdict] at hjudged
    cases hjudged with
    | accepted bound htag =>
        refine ⟨fun hmem => ?_, htag, rfl⟩
        obtain ⟨r, hr, hunbound⟩ := List.mem_map.mp hmem
        exact bound r hr hunbound
  · rintro ⟨hbound, htag, rfl⟩
    generalize hverdict : t.verdict root = verdict at hjudged
    cases hjudged with
    | residual records _ unbound =>
        refine absurd (List.mem_map.mpr ⟨_, ?_, unbound⟩) hbound
        simp [records]
    | mismatch _ hne => exact absurd htag hne
    | accepted => rfl

namespace Tree.Grown

variable {t : Tree}

/-- The first check of a tree returns a tag if the root is well-typed and nothing below it
stays unbound. -/
theorem check_eq_ok_iff (h : t.Grown) (tag : Tag) :
    (Checker.mk t { table := t.blankTable }).check.result = .ok tag ↔
      t.root.Typed none .wellTyped ∧ tag = .wellTyped := by
  obtain ⟨hfault, hcolumn⟩ := h.settles_root
  have htags := (Table.column_eq_map_tag h.ids_typing).symm.trans hcolumn
  have hroot := ((Table.column_eq_tagging_iff t.root none).mp hcolumn).1
  rw [Checker.result_check, hfault]
  cases hvalue : t.root.evaluate none with
  | error fault => simp [Phrase.Typed, hvalue]
  | ok tag' =>
      have hid : t.root.id ∈ (t.root.typing none { table := t.blankTable }).state.table.ids :=
        h.ids_typing ▸ t.root.id_mem_preOrder
      simp only [faultOf_ok, Table.verdict_eq_ok_iff hid, htags, hroot, Phrase.Typed, hvalue,
        tagOf_ok, Except.ok.injEq]
      exact ⟨fun ⟨hall, htag, h⟩ => ⟨⟨htag, hall⟩, h⟩, fun ⟨⟨htag, hall⟩, h⟩ => ⟨hall, htag, h⟩⟩

/-- A check accepts a tree exactly when its root is derivably well-typed, and this is the only
tag that it returns. -/
theorem check_accepts_iff_derives (h : t.Grown) :
    ∃ checker, Checker.start t = .ok checker ∧
      (checker.check.result = .ok .wellTyped ↔ Derives none t.root .wellTyped) ∧
      ∀ tag, checker.check.result = .ok tag → tag = .wellTyped := by
  refine ⟨_, h.start_eq, ?_, fun tag htag => ((h.check_eq_ok_iff tag).mp htag).2⟩
  rw [h.check_eq_ok_iff]
  constructor
  · rintro ⟨htyped, -⟩
    exact htyped.derives
  · intro hderives
    exact ⟨hderives.typed, rfl⟩

theorem check_accepts_assignmentTree :
    assignmentTree.Grown ∧ Derives none assignmentTree.root .wellTyped ∧
      ∃ checker, Checker.start assignmentTree = .ok checker ∧
        checker.check.result = .ok .wellTyped := by
  have hderives : Derives none assignmentTree.root .wellTyped :=
    .assignment (List.mem_cons_self) (.numberVariable .numberName) ⟨rfl, rfl⟩ .number
  obtain ⟨checker, hstart, haccepts, -⟩ := check_accepts_iff_derives assignmentTree_grown
  exact ⟨assignmentTree_grown, hderives, checker, hstart, haccepts.mpr hderives⟩

end Tree.Grown

end TreeTyping
