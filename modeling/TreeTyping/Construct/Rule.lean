import TreeTyping.Category
import TreeTyping.Construct.Parts
import TreeTyping.Tag

/-!
# Typing rules

Every construct has a typing rule for each number of parts that it admits. A rule says
which parts are typed and in which order, what their tags must be, which tags it gives
to parts without looking at them, and the tag of the construct itself.

## Implementation notes

A rule speaks of parts by their positions. It goes through its stages in order, and a
stage types all its parts before it tests any of them.
-/

namespace TreeTyping

/-- A condition on the tags of parts. -/
inductive Demand where
  /-- The part has one of the accepted tags. -/
  | oneOf (part : Nat) (accepted : List Tag)
  /-- The part has no tag yet. -/
  | unbound (part : Nat)
  /-- Both parts have the same tag, and it is one that can be compared. -/
  | comparable (left right : Nat)
  /-- Both parts have the same tag, and it is one that a variable can hold. -/
  | assignable (target value : Nat)
deriving DecidableEq, Repr

/-- Parts to be typed from left to right, and the demands that they then have to meet. -/
structure Stage where
  visits : List Nat
  demands : List Demand
  /-- Whether the parts of the stage are typed in a scope of their own. -/
  opensScope : Bool := false
deriving DecidableEq, Repr

/-- Types the given parts and demands that each has one of the tags beside it. -/
def Stage.ofSlots (slots : List (Nat × List Tag)) : Stage where
  visits := slots.map (·.1)
  demands := slots.map fun slot => .oneOf slot.1 slot.2

/-- How a rule finds the text that it defines. -/
inductive Defining where
  /-- The first name below a part. -/
  | nameBelow (part : Nat)
  /-- The text of a part. -/
  | textOf (part : Nat)
deriving DecidableEq, Repr

/-- How a construct is typed. -/
structure Rule where
  stages : List Stage := []
  grants : List (Nat × Tag) := []
  defining : Option Defining := none
  result : Tag
deriving DecidableEq, Repr

namespace Rule

/-- One part, whose tag decides. -/
def ofOnePart? (accepted : List Tag) (result : Tag) : List Nat → Option Rule
  | [part] => some { stages := [.ofSlots [(part, accepted)]], result }
  | _ => none

/-- One or two parts that are all well-typed. -/
def sequence? (positions : List Nat) : Option Rule :=
  if positions.length = 1 ∨ positions.length = 2 then
    some {
      stages := [.ofSlots (positions.map fun part => (part, [.wellTyped]))]
      result := .wellTyped }
  else none

/-- Two operands that are numbers. -/
def calculation (roles : Calculation Nat) : Rule where
  stages := [.ofSlots [(roles.left, [.number]), (roles.right, [.number])]]
  result := .number

/-- One boolean operand, or two operands that can be compared. -/
def booleanExpression : BooleanForm Nat → Rule
  | .unary _ operand => { stages := [.ofSlots [(operand, [.boolean])]], result := .boolean }
  | .binary left _ right => {
      stages := [{ visits := [left, right], demands := [.comparable left right] }]
      result := .boolean }

/-- A boolean condition and one or two well-typed bodies. -/
def branch (roles : Branch Nat) : Rule where
  stages := [.ofSlots ([(roles.condition, [.boolean]), (roles.thenBody, [.wellTyped])] ++
    roles.elseBody.toList.map fun part => (part, [.wellTyped]))]
  result := .wellTyped

/-- A value of the same tag as the variable, whose name becomes defined. -/
def assignment (roles : Assignment Nat) : Rule where
  stages := [{
    visits := [roles.target, roles.value]
    demands := [.assignable roles.target roles.value] }]
  defining := some (.nameBelow roles.target)
  result := .wellTyped

/-- A boolean condition and a well-typed body, or numbers group by group and then a
well-typed body. -/
def loop : Loop Nat → Rule
  | .conditional condition body => {
      stages := [.ofSlots [(condition, [.boolean]), (body, [.wellTyped])]]
      result := .wellTyped }
  | .counted roles => {
      stages := roles.numberGroups.map (fun group =>
        .ofSlots (group.map fun part => (part, [.number]))) ++
          [.ofSlots [(roles.body, [.wellTyped])]]
      result := .wellTyped }

/-- A well-typed body in a scope of its own, after which the name is a procedure. -/
def procedure (roles : Procedure Nat) : Rule where
  stages := [{
    visits := [roles.body]
    demands := [.unbound roles.name, .oneOf roles.body [.wellTyped]]
    opensScope := true }]
  grants := [(roles.name, .procedure)]
  defining := some (.textOf roles.name)
  result := .wellTyped

/-- A keyword, which halts, or a well-typed statement. -/
def instruction? (parts : List Category) : Option Rule :=
  if parts = [.keyword] then some { grants := [(0, .halt)], result := .wellTyped }
  else ofOnePart? [.wellTyped] .wellTyped (List.range parts.length)

/-- An argument that becomes a number without being looked at. -/
def argument? : List Nat → Option Rule
  | [_, argument] => some { grants := [(argument, .number)], result := .wellTyped }
  | _ => none

end Rule

/-- The rule of a construct with parts of the given categories, if it admits that many
parts. Only an instruction looks at the categories. -/
def Construct.rule? (c : Construct) (parts : List Category) : Option Rule :=
  let positions := List.range parts.length
  match c with
  | .numberVariable => Rule.ofOnePart? [.number] .number positions
  | .stringVariable => Rule.ofOnePart? [.string] .string positions
  | .anyVariable => Rule.ofOnePart? [.number, .string] .output positions
  | .intermediateT => Rule.ofOnePart? [.number, .string] .wellTyped positions
  | .intermediateU => Rule.ofOnePart? [.number, .string] .wellTyped positions
  | .terminator => Rule.ofOnePart? [.wellTyped] .wellTyped positions
  | .calculation => (Calculation.ofParts? positions).map Rule.calculation
  | .booleanExpression => (BooleanForm.ofParts? positions).map Rule.booleanExpression
  | .branch => (Branch.ofParts? positions).map Rule.branch
  | .assignment => (Assignment.ofParts? positions).map Rule.assignment
  | .loop => (Loop.ofParts? positions).map Rule.loop
  | .program => Rule.sequence? positions
  | .procedures => Rule.sequence? positions
  | .code => Rule.sequence? positions
  | .procedure => (Procedure.ofParts? positions).map Rule.procedure
  | .instruction => Rule.instruction? parts
  | .inputOutput => Rule.argument? positions
  | .call => Rule.argument? positions

end TreeTyping
