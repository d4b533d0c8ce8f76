/-!
# Constructs

A construct is a phrase of the checked language that has a typing rule of its own:
the variables, expressions, statements and groups of statements that are built from
smaller phrases. Every construct has a one-letter symbol.
-/

namespace TreeTyping

/-- The phrases that are built from parts and typed by a rule. -/
inductive Construct where
  | numberVariable
  | stringVariable
  | anyVariable
  | calculation
  | booleanExpression
  | branch
  | intermediateT
  | intermediateU
  | assignment
  | loop
  | terminator
  | program
  | procedures
  | procedure
  | code
  | instruction
  | inputOutput
  | call
deriving DecidableEq, Repr

namespace Construct

/-- The letter under which a construct appears in trees and messages. -/
def symbol : Construct → String
  | numberVariable => "N"
  | stringVariable => "S"
  | anyVariable => "V"
  | calculation => "L"
  | booleanExpression => "B"
  | branch => "W"
  | intermediateT => "T"
  | intermediateU => "U"
  | assignment => "A"
  | loop => "Z"
  | terminator => "Q"
  | program => "P"
  | procedures => "D"
  | procedure => "R"
  | code => "C"
  | instruction => "I"
  | inputOutput => "O"
  | call => "Y"

/-- The spelled-out name of a construct. -/
def name : Construct → String
  | numberVariable => "NumberVariable"
  | stringVariable => "StringVariable"
  | anyVariable => "Variable"
  | calculation => "Calculation"
  | booleanExpression => "BooleanExpr"
  | branch => "ConditionalBranch"
  | intermediateT => "IntermediateT"
  | intermediateU => "IntermediateU"
  | assignment => "Assign"
  | loop => "ConditionalLoop"
  | terminator => "Terminator"
  | program => "Program"
  | procedures => "ProcDefs"
  | procedure => "Proc"
  | code => "Code"
  | instruction => "Instr"
  | inputOutput => "Io"
  | call => "Call"

/-- The words for a construct in a message about its number of parts. -/
def title : Construct → String
  | numberVariable => "Number variable"
  | stringVariable => "String variable"
  | anyVariable => "Variable"
  | calculation => "Calculation"
  | booleanExpression => "Boolean expression"
  | branch => "Conditional branch"
  | intermediateT => "Intermediate statement"
  | intermediateU => "Intermediate statement"
  | assignment => "Assignment"
  | loop => "Conditional loop"
  | terminator => "Terminator"
  | program => "Program"
  | procedures => "Procedure definitions"
  | procedure => "Procedure"
  | code => "Code"
  | instruction => "Instruction"
  | inputOutput => "Argument statement"
  | call => "Argument statement"

/-- The numbers of parts that a construct admits, in words. -/
def arities : Construct → String
  | numberVariable | stringVariable | anyVariable => "1"
  | intermediateT | intermediateU | terminator | instruction => "1"
  | program | procedures | code => "1 or 2"
  | inputOutput | call => "2"
  | booleanExpression => "2 or 3"
  | calculation | assignment | procedure => "3"
  | loop => "3 or 13"
  | branch => "4 or 6"

end Construct

end TreeTyping
