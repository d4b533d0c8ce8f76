import TreeTyping.Phrase

/-!
# Evaluation without a table

The value of a phrase is its tag, or the first fault that a walk from the top meets. It
is found by recursion on the phrase alone: a construct tests its number of parts,
evaluates some of them from left to right, and then tests their tags from left to right.
A counted loop does so group by group.

## Implementation notes

The values of all parts are at hand when a construct is inspected, and a value that is
not bound there plays no role. So the order in which an inspection binds them is the
order of evaluation, and the first fault is the first one bound.
-/

namespace TreeTyping

/-- A tag, or the fault that stands in its place. -/
abbrev Value := Except Fault Tag

/-- The tag of a construct whose parts pass its inspection. -/
def Construct.conclusion : Construct → Tag
  | .numberVariable | .calculation => .number
  | .stringVariable => .string
  | .anyVariable => .output
  | .booleanExpression => .boolean
  | .branch | .intermediateT | .intermediateU | .assignment | .loop | .terminator => .wellTyped
  | .program | .procedures | .procedure | .code | .instruction => .wellTyped
  | .inputOutput | .call => .wellTyped

/-- The numbers of parts that a construct admits. -/
def Construct.admitted : Construct → List Nat
  | .numberVariable | .stringVariable | .anyVariable => [1]
  | .intermediateT | .intermediateU | .terminator | .instruction => [1]
  | .program | .procedures | .code => [1, 2]
  | .calculation | .assignment | .procedure => [3]
  | .booleanExpression => [2, 3]
  | .branch => [4, 6]
  | .loop => [3, 13]
  | .inputOutput | .call => [2]

/-- The positions of the parts that a construct evaluates, given the categories of its
parts. -/
def Construct.slots (c : Construct) (parts : List Category) : List Nat :=
  match c, parts.length with
  | .numberVariable, 1 | .stringVariable, 1 | .anyVariable, 1 => [0]
  | .intermediateT, 1 | .intermediateU, 1 | .terminator, 1 => [0]
  | .program, 1 | .procedures, 1 | .code, 1 => [0]
  | .program, 2 | .procedures, 2 | .code, 2 => [0, 1]
  | .calculation, 3 => [1, 2]
  | .booleanExpression, 2 => [1]
  | .booleanExpression, 3 => [0, 2]
  | .branch, 4 => [1, 3]
  | .branch, 6 => [1, 3, 5]
  | .assignment, 3 => [0, 2]
  | .loop, 3 => [1, 2]
  | .loop, 13 => [1, 3, 4, 6, 7, 10, 11, 12]
  | .procedure, 3 => [2]
  | .instruction, 1 => if parts = [.keyword] then [] else [0]
  | _, _ => []

/-- The tags that a construct gives to parts without evaluating them. -/
def Construct.asserted (c : Construct) (parts : List Category) : List (Nat × Tag) :=
  match c with
  | .inputOutput | .call => [(1, .number)]
  | .procedure => [(1, .procedure)]
  | .instruction => if parts = [.keyword] then [(0, .halt)] else []
  | _ => []

namespace Phrase

/-- Tests the tag of a part. -/
def expect (p : Phrase) (accepted : List Tag) (received : Tag) : Except Fault Unit :=
  if received ∈ accepted then .ok () else .error (p.mismatch accepted received)

/-- Inspects one part, which must have an accepted tag. -/
def inspectOne (p : Phrase) (title : String) (accepted : List Tag) :
    List Value → Except Fault Unit
  | [value] => do p.expect accepted (← value)
  | _ => .error (p.arityFault title "1")

/-- Inspects one or two parts, which must be well-typed. -/
def inspectSequence (p : Phrase) (title : String) : List Value → Except Fault Unit
  | [value] => do p.expect [.wellTyped] (← value)
  | [first, second] => do
      let first ← first
      let second ← second
      p.expect [.wellTyped] first
      p.expect [.wellTyped] second
  | _ => .error (p.arityFault title "1 or 2")

/-- Inspects two parts of a calculation after its operator. -/
def inspectCalculation (p : Phrase) : List Value → Except Fault Unit
  | [_, left, right] => do
      let left ← left
      let right ← right
      p.expect [.number] left
      p.expect [.number] right
  | _ => .error (p.arityFault "Calculation" "3")

/-- Inspects the operand of a negation, or two operands that have to be alike. -/
def inspectBoolean (p : Phrase) : List Value → Except Fault Unit
  | [_, operand] => do p.expect [.boolean] (← operand)
  | [left, _, right] => do
      let left ← left
      let right ← right
      p.expect [.output, .number, .boolean] left
      p.expect [.output, .number, .boolean] right
      p.expect [left] right
  | _ => .error (p.arityFault "Boolean expression" "2 or 3")

/-- Inspects a condition and the bodies that follow from it. -/
def inspectBranch (p : Phrase) : List Value → Except Fault Unit
  | [_, condition, _, thenBody] => do
      let condition ← condition
      let thenBody ← thenBody
      p.expect [.boolean] condition
      p.expect [.wellTyped] thenBody
  | [_, condition, _, thenBody, _, elseBody] => do
      let condition ← condition
      let thenBody ← thenBody
      let elseBody ← elseBody
      p.expect [.boolean] condition
      p.expect [.wellTyped] thenBody
      p.expect [.wellTyped] elseBody
  | _ => .error (p.arityFault "Conditional branch" "4 or 6")

/-- Inspects a variable and the value it receives, which have to be alike. -/
def inspectAssignment (p : Phrase) : List Value → Except Fault Unit
  | [target, _, value] => do
      let target ← target
      let value ← value
      p.expect [.number, .string] target
      p.expect [target] value
  | _ => .error (p.arityFault "Assignment" "3")

/-- Inspects a condition and a body, or the numbers of a counted loop group by group
and then its body. -/
def inspectLoop (p : Phrase) : List Value → Except Fault Unit
  | [_, condition, body] => do
      let condition ← condition
      let body ← body
      p.expect [.boolean] condition
      p.expect [.wellTyped] body
  | [_, counter, _, start, boundLeft, _, boundRight, stepTarget, _, _, stepOperand,
      stepAmount, body] => do
      let counter ← counter
      let start ← start
      p.expect [.number] counter
      p.expect [.number] start
      let boundLeft ← boundLeft
      let boundRight ← boundRight
      p.expect [.number] boundLeft
      p.expect [.number] boundRight
      let stepTarget ← stepTarget
      let stepOperand ← stepOperand
      let stepAmount ← stepAmount
      p.expect [.number] stepTarget
      p.expect [.number] stepOperand
      p.expect [.number] stepAmount
      p.expect [.wellTyped] (← body)
  | _ => .error (p.arityFault "Conditional loop" "3 or 13")

/-- Inspects the body of a procedure. The word before the name and the name itself are
not evaluated. -/
def inspectProcedure (p : Phrase) : List Value → Except Fault Unit
  | [_, _, body] => do p.expect [.wellTyped] (← body)
  | _ => .error (p.arityFault "Procedure" "3")

/-- Inspects the one part of an instruction, unless it is a keyword. -/
def inspectInstruction (p : Phrase) (values : List Value) : Except Fault Unit :=
  if p.parts.map category = [.keyword] then .ok ()
  else p.inspectOne "Instruction" [.wellTyped] values

/-- Only the number of parts of a statement with an argument is looked at. -/
def inspectArgument (p : Phrase) : List Value → Except Fault Unit
  | [_, _] => .ok ()
  | _ => .error (p.arityFault "Argument statement" "2")

/-- The tests that a construct makes, given the values of its parts. -/
def inspect (p : Phrase) (values : List Value) : Construct → Except Fault Unit
  | .numberVariable => p.inspectOne "Number variable" [.number] values
  | .stringVariable => p.inspectOne "String variable" [.string] values
  | .anyVariable => p.inspectOne "Variable" [.number, .string] values
  | .intermediateT => p.inspectOne "Intermediate statement" [.number, .string] values
  | .intermediateU => p.inspectOne "Intermediate statement" [.number, .string] values
  | .terminator => p.inspectOne "Terminator" [.wellTyped] values
  | .program => p.inspectSequence "Program" values
  | .procedures => p.inspectSequence "Procedure definitions" values
  | .code => p.inspectSequence "Code" values
  | .calculation => p.inspectCalculation values
  | .booleanExpression => p.inspectBoolean values
  | .branch => p.inspectBranch values
  | .assignment => p.inspectAssignment values
  | .loop => p.inspectLoop values
  | .procedure => p.inspectProcedure values
  | .instruction => p.inspectInstruction values
  | .inputOutput => p.inspectArgument values
  | .call => p.inspectArgument values

/-- The value of a name, which the category of the phrase around it decides. -/
def nameValue (p : Phrase) : Option Category → Value
  | some (.construct .numberVariable) => .ok .number
  | some (.construct .stringVariable) => .ok .string
  | context => .error ⟨.ambiguousName p.lexeme context, p.location⟩

/-- The value of a phrase, given the values of its parts. -/
def valueOf (p : Phrase) (context : Option Category) (values : List Value) : Value :=
  match p.category with
  | .number => .ok .number
  | .shortString => .ok .string
  | .name => p.nameValue context
  | .keyword | .token | .operator _ => .ok .unbound
  | .construct c => do
      p.inspect values c
      return c.conclusion

mutual

/-- The value of a phrase in the context of the phrase around it. -/
def evaluate (context : Option Category) : Phrase → Value
  | .mk id category lexeme parts =>
      (Phrase.mk id category lexeme parts).valueOf context (evaluateAll (some category) parts)

/-- The values of several phrases in the same context. -/
def evaluateAll (context : Option Category) : List Phrase → List Value
  | [] => []
  | p :: ps => p.evaluate context :: evaluateAll context ps

end

theorem evaluateAll_eq_map (context : Option Category) (ps : List Phrase) :
    evaluateAll context ps = ps.map (evaluate context) := by
  induction ps with
  | nil => rfl
  | cons p ps ih => simp [evaluateAll, ih]

/-- The positions of the parts of a phrase that are evaluated. -/
def slots (p : Phrase) : List Nat :=
  match p.category with
  | .construct c => c.slots (p.parts.map category)
  | _ => []

/-- The phrases that are evaluated on the way, each with the category of the phrase around
it, unless a fault comes first. -/
inductive Evaluated (context : Option Category) (p : Phrase) : Option Category → Phrase → Prop
  | top : Evaluated context p context p
  | slot {context' : Option Category} {q r : Phrase} {i : Nat}
      (before : Evaluated context p context' q) (slot : i ∈ q.slots)
      (part : q.parts[i]? = some r) : Evaluated context p (some q.category) r

/-- The values of the parts of a phrase. -/
def values (p : Phrase) : List Value := p.parts.map (evaluate (some p.category))

theorem evaluate_eq_valueOf (context : Option Category) (p : Phrase) :
    p.evaluate context = p.valueOf context p.values := by
  cases p with
  | mk i c l ps => simp [evaluate, values, evaluateAll_eq_map]

end Phrase

/-- The tag of a value, unbound where there is none. -/
def tagOf : Value → Tag
  | .ok tag => tag
  | .error _ => .unbound

/-- The fault of a result, if it is one. -/
def faultOf {α : Type} : Except Fault α → Option Fault
  | .ok _ => none
  | .error fault => some fault

section Fault

variable {α : Type}

@[simp] theorem faultOf_ok (a : α) : faultOf (.ok a) = none := rfl

@[simp] theorem faultOf_pure (a : α) : faultOf (pure a : Except Fault α) = none := rfl

@[simp] theorem faultOf_error (fault : Fault) :
    faultOf (.error fault : Except Fault α) = some fault := rfl

@[simp] theorem tagOf_ok (tag : Tag) : tagOf (.ok tag) = tag := rfl

@[simp] theorem tagOf_error (fault : Fault) : tagOf (.error fault) = .unbound := rfl

/-- What follows a value is reached with its tag, unless the value is a fault. -/
@[simp] theorem faultOf_bind (value : Value) (next : Tag → Except Fault α) :
    faultOf (value >>= next) = (faultOf value).or (faultOf (next (tagOf value))) := by
  cases value <;> rfl

@[simp] theorem faultOf_bind_unit (test : Except Fault Unit) (next : Unit → Except Fault α) :
    faultOf (test >>= next) = (faultOf test).or (faultOf (next ())) := by
  cases test <;> rfl

theorem eq_ok_of_faultOf {value : Value} (h : faultOf value = none) :
    value = .ok (tagOf value) := by
  cases value with
  | ok tag => rfl
  | error fault => simp at h

theorem faultOf_eq_some_iff {value : Except Fault α} {fault : Fault} :
    faultOf value = some fault ↔ value = .error fault := by
  cases value <;> simp

end Fault

end TreeTyping
