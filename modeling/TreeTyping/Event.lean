import TreeTyping.Fault

/-!
# Events

A check reports what it does as a sequence of events. Each event has a level, a message
and named fields.
-/

namespace TreeTyping

/-- What a check reports. -/
inductive Event where
  | visiting (id : NodeId) (category : Category)
  | assigned (id : NodeId) (tag : Tag) (scope : UInt32)
  | completed (records : Nat)
  | rejected (fault : Fault)
deriving DecidableEq, Repr

namespace Event

/-- How much an event matters. -/
def level : Event → String
  | .visiting .. => "TRACE"
  | .assigned .. => "DEBUG"
  | .completed _ => "INFO"
  | .rejected _ => "ERROR"

/-- The message of an event. -/
def message : Event → String
  | .visiting .. => "visiting node"
  | .assigned .. => "assigned type"
  | .completed _ => "type check complete"
  | .rejected fault => fault.message

/-- The named fields of an event. -/
def fields : Event → List (String × String)
  | .visiting id category => [("node", id.repr), ("production", category.symbol)]
  | .assigned id tag scope =>
      [("node", id.repr), ("tag", tag.text), ("scope", scope.toNat.repr)]
  | .completed records => [("records", records.repr)]
  | .rejected fault => [("node", fault.location.node.repr), ("kind", fault.cause.kind.name)]

end Event

end TreeTyping
