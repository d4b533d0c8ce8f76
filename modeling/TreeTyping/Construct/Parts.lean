/-!
# Named parts of constructs

A construct with several parts gives each of them a role by its position. The views
below read the roles off a list of parts, and fail if the construct does not admit that
number of parts.

## Implementation notes

The views are generic in what stands for a part. Typing rules read the roles off the
positions of the parts, and callers read them off the names of the nodes.
-/

namespace TreeTyping

universe u
variable {α : Type u}

/-- An operator and the two operands that follow it. -/
structure Calculation (α : Type u) where
  operator : α
  left : α
  right : α

/-- The roles of the parts of a calculation. -/
def Calculation.ofParts? : List α → Option (Calculation α)
  | [operator, left, right] => some ⟨operator, left, right⟩
  | _ => none

/-- An operator before its operand, or between its two operands. -/
inductive BooleanForm (α : Type u) where
  | unary (operator operand : α)
  | binary (left operator right : α)

/-- The roles of the parts of a boolean expression. -/
def BooleanForm.ofParts? : List α → Option (BooleanForm α)
  | [operator, operand] => some (.unary operator operand)
  | [left, operator, right] => some (.binary left operator right)
  | _ => none

/-- A condition and the statements that follow from it. -/
structure Branch (α : Type u) where
  condition : α
  thenBody : α
  elseBody : Option α

/-- The roles of the parts of a conditional branch. -/
def Branch.ofParts? : List α → Option (Branch α)
  | [_, condition, _, thenBody] => some ⟨condition, thenBody, none⟩
  | [_, condition, _, thenBody, _, elseBody] =>
      some ⟨condition, thenBody, some elseBody⟩
  | _ => none

/-- A loop that counts from a start to a bound by steps. -/
structure CountedLoop (α : Type u) where
  counter : α
  start : α
  boundLeft : α
  boundRight : α
  stepTarget : α
  stepOperand : α
  stepAmount : α
  body : α

/-- The parts of a counted loop that have to be numbers, grouped as they are typed. -/
def CountedLoop.numberGroups (l : CountedLoop α) : List (List α) :=
  [[l.counter, l.start], [l.boundLeft, l.boundRight],
    [l.stepTarget, l.stepOperand, l.stepAmount]]

/-- A loop with a condition, or one that counts. -/
inductive Loop (α : Type u) where
  | conditional (condition body : α)
  | counted (loop : CountedLoop α)

/-- The roles of the parts of a loop. -/
def Loop.ofParts? : List α → Option (Loop α)
  | [_, condition, body] => some (.conditional condition body)
  | [_, counter, _, start, boundLeft, _, boundRight, stepTarget, _, _, stepOperand,
      stepAmount, body] =>
      some (.counted ⟨counter, start, boundLeft, boundRight, stepTarget, stepOperand,
        stepAmount, body⟩)
  | _ => none

/-- A variable and the value that it receives. -/
structure Assignment (α : Type u) where
  target : α
  value : α

/-- The roles of the parts of an assignment. -/
def Assignment.ofParts? : List α → Option (Assignment α)
  | [target, _, value] => some ⟨target, value⟩
  | _ => none

/-- The name of a procedure and its body. -/
structure Procedure (α : Type u) where
  name : α
  body : α

/-- The roles of the parts of a procedure definition. -/
def Procedure.ofParts? : List α → Option (Procedure α)
  | [_, name, body] => some ⟨name, body⟩
  | _ => none

end TreeTyping
