import TreeTyping.Construct

/-!
# Categories of tree nodes

Each node of a tree has a category: a literal, a name, a word of the language, or a
construct. Trees are handed over with a class name at each node. The reading `ofClass`
looks a text up among the class names. A text that is not among them is an operator if the
pattern of operators fits it, and a token otherwise.
-/

namespace TreeTyping

/-- The operators of boolean expressions. -/
inductive Operator where
  | eq
  | not
  | and
  | or
deriving DecidableEq, Repr

namespace Operator

/-- The word for an operator. -/
def symbol : Operator → String
  | .eq => "eq"
  | .not => "not"
  | .and => "and"
  | .or => "or"

/-- The spelled-out name of an operator. -/
def name : Operator → String
  | .eq => "Eq"
  | .not => "Not"
  | .and => "And"
  | .or => "Or"

/-- The pattern of operators, which fits a text that is one of these words from its
beginning to its end. -/
def fits (text : String) : Bool := ["eq", "not", "and", "or"].contains text

/-- The operator of a text that the pattern of operators fits. All that is left after three
of the words is a disjunction. -/
def ofFitting : String → Operator
  | "eq" => .eq
  | "not" => .not
  | "and" => .and
  | _ => .or

end Operator

/-- The syntactic category of a node. -/
inductive Category where
  | number
  | name
  | shortString
  | keyword
  | token
  | operator (op : Operator)
  | construct (c : Construct)
deriving DecidableEq, Repr

namespace Category

/-- The class names other than the words of the operators. -/
def classes : List (String × Category) :=
  [("number", .number),
    ("user-defined name", .name),
    ("short string", .shortString),
    ("keyword", .keyword),
    ("N", .construct .numberVariable),
    ("S", .construct .stringVariable),
    ("V", .construct .anyVariable),
    ("L", .construct .calculation),
    ("B", .construct .booleanExpression),
    ("W", .construct .branch),
    ("T", .construct .intermediateT),
    ("U", .construct .intermediateU),
    ("A", .construct .assignment),
    ("Z", .construct .loop),
    ("Q", .construct .terminator),
    ("P", .construct .program),
    ("D", .construct .procedures),
    ("R", .construct .procedure),
    ("C", .construct .code),
    ("I", .construct .instruction),
    ("O", .construct .inputOutput),
    ("Y", .construct .call)]

/-- The category of a text, by the class names and by a pattern of operators. -/
def ofClassBy (fits : String → Bool) (text : String) : Category :=
  match classes.lookup text with
  | some c => c
  | none => if fits text then .operator (.ofFitting text) else .token

/-- The category of a class name. A text that is no class name is a token. -/
def ofClass (text : String) : Category := ofClassBy Operator.fits text

/-- The text by which a category appears in messages. -/
def symbol : Category → String
  | .number => "number"
  | .name => "user-defined name"
  | .shortString => "short string"
  | .keyword => "keyword"
  | .token => "token"
  | .operator op => op.symbol
  | .construct c => c.symbol

/-- The spelled-out name of a category. -/
def fullName : Category → String
  | .number => "NumberLiteral"
  | .name => "UserDefinedName"
  | .shortString => "ShortString"
  | .keyword => "Keyword"
  | .token => "Token"
  | .operator op => "BooleanOperator(" ++ op.name ++ ")"
  | .construct c => c.name

/-- The operator of an operator node. -/
def operator? : Category → Option Operator
  | .operator op => some op
  | _ => none

/-- Tokens and operators carry no phrase of their own. They are typed by the
construct that holds them. -/
def isWord : Category → Bool
  | .token | .operator _ => true
  | _ => false

end Category

end TreeTyping
