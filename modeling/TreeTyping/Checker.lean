import TreeTyping.Typing

/-!
# Checking a tree

A checker holds a tree and the state of its check. It can be run again: later runs go on
from the table that earlier runs have left, and a fault does not undo what was typed
before it. A check accepts a tree if no rule fails, every node below the root is bound,
and the root is well-typed.
-/

namespace TreeTyping

/-- A tree and the state of its check. -/
structure Checker where
  tree : Tree
  state : State

/-- What one run of a checker leaves behind. -/
structure Run where
  checker : Checker
  events : List Event
  result : Except Fault Tag

namespace Checker

/-- A checker for a tree, before its first run. -/
def start (tree : Tree) : Except Fault Checker :=
  return { tree, state := { table := ← Table.ofTree tree } }

/-- The table of a checker. -/
def table (c : Checker) : Table := c.state.table

end Checker

namespace Table

/-- Judges a tree by its table after typing: the first node without a type decides the
fault, and otherwise the root has to be well-typed. -/
def verdict (t : Table) (root : Phrase) : Except Fault Tag :=
  match t.firstUnbound? with
  | some r => .error ⟨.residual, r.location⟩
  | none => do
      let tag ← t.tag root.id
      if tag = .wellTyped then return tag else throw (root.mismatch [.wellTyped] tag)

end Table

namespace Checker

/-- Types the tree from the root down and judges the result. -/
def check (c : Checker) : Run :=
  let out := c.tree.root.typing none c.state
  let checker := { c with state := out.state }
  match out.fault with
  | some fault => { checker, events := out.events, result := .error fault }
  | none =>
      match out.state.table.verdict c.tree.root with
      | .ok tag => {
          checker
          events := out.events ++ [.completed out.state.table.size]
          result := .ok tag }
      | .error fault => { checker, events := out.events, result := .error fault }

end Checker

/-- The answer of a whole check. -/
structure Report where
  table : Table
  fault : Option Fault := none
  events : List Event := []
  printed : String := ""

namespace Report

/-- A report that ends in a fault, with its diagnostic if one is wanted. -/
def ofFault (table : Table) (events : List Event) (fault : Fault) (loud : Bool) : Report :=
  if loud then {
    table
    fault := some fault
    events := events ++ [.rejected fault]
    printed := fault.diagnostic ++ "\n" }
  else { table, fault := some fault, events }

end Report

/-- Checks a tree once. A loud check also prints the diagnostic of its fault. -/
def Tree.check (tree : Tree) (loud : Bool) : Report :=
  match Checker.start tree with
  | .error fault => .ofFault .empty [] fault loud
  | .ok checker =>
      let run := checker.check
      match run.result with
      | .ok _ => { table := run.checker.table, events := run.events }
      | .error fault => .ofFault run.checker.table run.events fault loud

end TreeTyping
