import TreeTyping.Event
import TreeTyping.Table

/-!
# Steps of a check

A check works on a table and on two scope numbers: the scope in which it is, and the
last scope that it has opened. A step changes this state, reports events, and may end in
a fault. The state that a failed step leaves behind is kept, because it is part of the
answer.
-/

namespace TreeTyping

/-- What a check works on. -/
structure State where
  table : Table := .empty
  scope : UInt32 := 0
  lastScope : UInt32 := 0

/-- What a step leaves behind. -/
structure Outcome where
  state : State
  events : List Event := []
  fault : Option Fault := none

/-- One action of a check, or several in a row. -/
abbrev Step := State → Outcome

namespace Step

/-- Does nothing. -/
def done : Step := fun s => { state := s }

/-- Ends in a fault and changes nothing. -/
def fail (fault : Fault) : Step := fun s => { state := s, fault := some fault }

/-- Reports an event. -/
def emit (event : Event) : Step := fun s => { state := s, events := [event] }

/-- Does one step and then the other, unless the first ends in a fault. -/
def andThen (first second : Step) : Step := fun s =>
  let out := first s
  match out.fault with
  | some _ => out
  | none =>
      let next := second out.state
      { next with events := out.events ++ next.events }

/-- Does the steps of a list one after the other, up to the first fault. -/
def all : List Step → Step
  | [] => done
  | step :: rest => step.andThen (all rest)

/-- Goes on with the value of a lookup, or ends in its fault. -/
def withValue {α : Type} (value : Except Fault α) (next : α → Step) : Step :=
  match value with
  | .ok a => next a
  | .error fault => fail fault

/-- Goes on with the tag of a node. -/
def withTag (id : NodeId) (next : Tag → Step) : Step := fun s =>
  withValue (s.table.tag id) next s

/-- Gives a node a tag and puts it into the current scope. -/
def assign (id : NodeId) (tag : Tag) : Step := fun s =>
  match Table.assign id tag s.scope s.table with
  | .ok () table => { state := { s with table }, events := [.assigned id tag s.scope] }
  | .error fault table => { state := { s with table }, fault := some fault }

/-- Marks a text as defined. -/
def define (name : String) : Step := fun s =>
  { state := { s with table := s.table.define name } }

/-- Does a step in a scope of its own and returns to the scope outside it, also after a
fault. -/
def inNewScope (step : Step) : Step := fun s =>
  let fresh := s.lastScope + 1
  let out := step { s with scope := fresh, lastScope := fresh }
  { out with state := { out.state with scope := s.scope } }

@[simp] theorem done_andThen (step : Step) : done.andThen step = step := by
  funext s
  simp [andThen, done]

@[simp] theorem andThen_done (step : Step) : step.andThen done = step := by
  funext s
  cases h : step s with
  | mk state events fault => cases fault <;> simp [andThen, done, h]

theorem andThen_assoc (a b c : Step) : (a.andThen b).andThen c = a.andThen (b.andThen c) := by
  funext s
  cases ha : a s with
  | mk state events fault =>
    cases fault with
    | some f => simp [andThen, ha]
    | none =>
      cases hb : b state with
      | mk state' events' fault' => cases fault' <;> simp [andThen, ha, hb]

@[simp] theorem all_nil : all [] = done := rfl

@[simp] theorem all_cons (step : Step) (rest : List Step) :
    all (step :: rest) = step.andThen (all rest) := rfl

theorem all_append (first second : List Step) :
    all (first ++ second) = (all first).andThen (all second) := by
  induction first with
  | nil => simp
  | cons step rest ih => simp [ih, andThen_assoc]

end Step

end TreeTyping
