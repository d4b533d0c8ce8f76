import TreeTyping.Category
import TreeTyping.Tag
import TreeTyping.Text.Quoted

/-!
# Faults

A fault is a cause together with the node to which it points. Faults arise when a
forest refuses a node, when a lookup names a node that does not exist, and when a check
rejects a tree. The wording of every message is kept here.
-/

namespace TreeTyping

/-- A node is named by its position in the forest that holds it. -/
abbrev NodeId := Nat

/-- The node to which a fault points, with the category and text it had there. -/
structure Location where
  node : NodeId
  category : Category
  lexeme : String
deriving DecidableEq, Repr

namespace Location

/-- The location of a node of which only its name is known. -/
def unknown (node : NodeId) : Location := ⟨node, .token, "<unknown>"⟩

/-- A location in one line of text. -/
def text (l : Location) : String :=
  "node [" ++ l.node.repr ++ "] (" ++ l.category.symbol ++ " " ++ Text.quote l.lexeme ++ ")"

end Location

/-- What went wrong. -/
inductive Cause where
  | typeMismatch (expected : List Tag) (received : Tag)
  | ambiguousName (name : String) (context : Option Category)
  | invalidArity (construct : String) (expected : String) (received : Nat)
  | procedureBound (name : String) (bound : Tag)
  | residual
  | nodeNotFound (id : NodeId)
  | nodeAttached (id : NodeId)
  | tooManyNodes (count : Nat)
deriving DecidableEq, Repr

/-- The families of causes. -/
inductive Kind where
  | typeMismatch
  | ambiguousBinding
  | structural
  | residualUnbound
  | lookup
deriving DecidableEq, Repr

/-- The name of a family of causes. -/
def Kind.name : Kind → String
  | .typeMismatch => "TypeMismatch"
  | .ambiguousBinding => "AmbiguousBinding"
  | .structural => "Structural"
  | .residualUnbound => "ResidualUnbound"
  | .lookup => "Lookup"

namespace Cause

/-- The family to which a cause belongs. -/
def kind : Cause → Kind
  | .typeMismatch .. => .typeMismatch
  | .ambiguousName .. => .ambiguousBinding
  | .invalidArity .. => .structural
  | .procedureBound .. => .typeMismatch
  | .residual => .residualUnbound
  | .nodeNotFound _ => .lookup
  | .nodeAttached _ => .lookup
  | .tooManyNodes _ => .structural

/-- The name of a cause. -/
def name : Cause → String
  | .typeMismatch .. => "TypeMismatch"
  | .ambiguousName .. => "AmbiguousBinding"
  | .invalidArity .. => "InvalidArity"
  | .procedureBound .. => "ProcedureAlreadyBound"
  | .residual => "ResidualUnbound"
  | .nodeNotFound _ => "NodeNotFound"
  | .nodeAttached _ => "NodeAlreadyAttached"
  | .tooManyNodes _ => "TooManyNodes"

/-- A cause in words, without its location. -/
def text : Cause → String
  | .typeMismatch expected received =>
      "types do not match: expected " ++ Tag.describe expected ++ ", received " ++ received.text
  | .ambiguousName name _ =>
      "cannot decide the type of name " ++ Text.quote name ++ " from its context"
  | .invalidArity construct expected received =>
      construct ++ ": invalid number of arguments: expected " ++ expected ++
        ", received " ++ received.repr
  | .procedureBound name bound =>
      "procedure name " ++ Text.quote name ++ " already bound as " ++ bound.text
  | .residual => "node never received a type"
  | .nodeNotFound id => "node " ++ id.repr ++ " not found"
  | .nodeAttached id => "node " ++ id.repr ++ " is already attached to a parent"
  | .tooManyNodes count => "cannot add node: tree already holds " ++ count.repr ++ " nodes"

/-- The hint that a diagnostic adds to a cause. A residual node has none. -/
def tip? : Cause → Option String
  | .typeMismatch expected received =>
      some ("Expected type `" ++ Tag.describe expected ++ "`, received `" ++ received.text ++ "`")
  | .ambiguousName name (some context) =>
      some ("Name `" ++ name ++ "` used under `" ++ context.symbol ++
        "` is neither a number nor a string variable")
  | .ambiguousName name none => some ("Name `" ++ name ++ "` has no enclosing variable")
  | .invalidArity construct expected received =>
      some (construct ++ " expects " ++ expected ++ " children, received " ++ received.repr)
  | .procedureBound name bound =>
      some ("Procedure name `" ++ name ++ "` is already bound as `" ++ bound.text ++ "`")
  | .residual => none
  | .nodeNotFound id => some ("No node with id " ++ id.repr ++ " exists")
  | .nodeAttached id => some ("Node " ++ id.repr ++ " already has a parent")
  | .tooManyNodes _ => some "A tree holds at most 4294967296 nodes"

/-- The admitted tags in words and the tag that stood in their place. -/
def typePair? : Cause → Option (String × Tag)
  | .typeMismatch expected received => some (Tag.describe expected, received)
  | _ => none

end Cause

/-- The text of a hint, empty where there is none. -/
def tipText (tip : Option String) : String := tip.getD ""

/-- A cause at a node. -/
structure Fault where
  cause : Cause
  location : Location
deriving DecidableEq, Repr

namespace Fault

/-- The fault of naming a node that does not exist. -/
def nodeNotFound (id : NodeId) : Fault := ⟨.nodeNotFound id, .unknown id⟩

/-- A fault in one line of text. -/
def message (f : Fault) : String := f.cause.text ++ " at " ++ f.location.text

/-- The first line of a diagnostic names the cause and gives its hint. -/
def headline (f : Fault) : String :=
  match f.cause.tip? with
  | some tip => "Error: " ++ f.cause.name ++ " (" ++ tip ++ ")"
  | none => "Error: " ++ f.cause.name

/-- The last lines of a diagnostic repeat the two sides of a type mismatch. -/
def typeLines (f : Fault) : List String :=
  match f.cause.typePair? with
  | some (expected, received) =>
      ["Expected a type of " ++ expected, "Received a type of " ++ received.text]
  | none => []

/-- A fault as a diagnostic of several lines. -/
def diagnostic (f : Fault) : String :=
  "\n".intercalate
    ([f.headline,
      "-> node [" ++ f.location.node.repr ++ "]",
      "   | class: " ++ f.location.category.symbol,
      "   | snippet: " ++ f.location.lexeme] ++ f.typeLines)

end Fault

end TreeTyping
