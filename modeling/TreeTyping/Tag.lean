/-!
# Type tags

A tag is the type that a check gives to a node. Nodes start unbound, and a check
accepts a tree only if every node of it receives another tag.
-/

namespace TreeTyping

/-- The types of nodes. -/
inductive Tag where
  | unbound
  | wellTyped
  | procedure
  | number
  | output
  | string
  | boolean
  | halt
deriving DecidableEq, Repr, Inhabited

namespace Tag

/-- The text of a tag in messages and tables. -/
def text : Tag → String
  | .unbound => "Unbound"
  | .wellTyped => "Well-Typed"
  | .procedure => "Procedure"
  | .number => "Number"
  | .output => "Output"
  | .string => "String"
  | .boolean => "Boolean"
  | .halt => "Halt"

/-- Whether a node with this tag has received a type. -/
def isBound (tag : Tag) : Bool := tag != .unbound

/-- A list of admitted tags in words, joined by "or". -/
def describe (tags : List Tag) : String := " or ".intercalate (tags.map text)

/-- The tags that two compared values may share. -/
def comparable : List Tag := [.output, .number, .boolean]

/-- The tags that an assigned variable may have. -/
def assignable : List Tag := [.number, .string]

@[simp] theorem isBound_unbound : isBound .unbound = false := rfl

theorem isBound_iff (tag : Tag) : tag.isBound = true ↔ tag ≠ .unbound := by
  simp [isBound]

end Tag

end TreeTyping
