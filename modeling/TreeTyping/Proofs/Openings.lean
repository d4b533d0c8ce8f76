import TreeTyping.Proofs.Plans
import TreeTyping.Proofs.Runs

/-!
# The scopes that a typing opens

A typing ends in the scope in which it began, also if it fails within a procedure. Whatever
happens, it opens no more scopes than its phrase has procedures. So the counter of scopes cannot
overflow in the first run of a checker, since no tree has that many procedures.
-/

namespace TreeTyping

/-- The counter of scopes may wrap around, which makes it smaller. -/
theorem toNat_add_one_le (last : UInt32) : (last + 1).toNat ≤ last.toNat + 1 := by
  rw [UInt32.toNat_add]
  exact Nat.mod_le _ _

namespace Step

/-- A step ends in the scope in which it began. -/
def Restores (step : Step) : Prop := ∀ s : State, (step s).state.scope = s.scope

theorem pervasive_restores (ids : List NodeId) : Pervasive ids Restores where
  done _ := rfl
  fail _ _ := rfl
  andThen := by
    intro first second h h' s
    unfold Step.andThen
    cases hf : (first s).fault with
    | some fault => simpa only [hf] using h s
    | none => simpa only [hf] using (h' (first s).state).trans (h s)
  withTag := by
    intro id next h s
    unfold withTag
    cases s.table.tag id with
    | ok tag => exact h tag s
    | error fault => rfl
  assign := by
    intro id _ tag s
    unfold assign
    split <;> rfl
  define _ _ := rfl
  emit _ _ _ := rfl
  inNewScope _ _ := rfl

/-- A relation between the counter of scopes before and after a number of scopes may have been
opened. -/
structure Counting (related : Nat → UInt32 → UInt32 → Prop) : Prop where
  refl : ∀ last, related 0 last last
  mono : ∀ {m n last last'}, m ≤ n → related m last last' → related n last last'
  trans : ∀ {m n last last' last''}, related m last last' → related n last' last'' →
    related (m + n) last last''
  next : ∀ {n last last'}, related n (last + 1) last' → related (1 + n) last last'

/-- The scopes of a typing are planned for the procedures of the phrase. -/
theorem planned_counting {related : Nat → UInt32 → UInt32 → Prop} (counting : Counting related) :
    Planned (fun plan step => ∀ s : State, related plan.length s.lastScope (step s).state.lastScope)
      (fun _ => []) (fun p => [p]) (fun _ => []) Phrase.procedures where
  mono hplan h s := counting.mono hplan.length_le (h s)
  done _ := counting.refl _
  fail _ _ := counting.refl _
  assign := by
    intro id tag s
    unfold assign
    split <;> exact counting.refl _
  define _ _ := counting.refl _
  andThen := by
    intro plan plan' first second h h' s
    rw [List.length_append]
    unfold Step.andThen
    cases hf : (first s).fault with
    | some fault => simpa only [hf] using counting.mono (Nat.le_add_right _ _) (h s)
    | none => simpa only [hf] using counting.trans (h s) (h' (first s).state)
  withTag := by
    intro id plan next h s
    unfold withTag
    cases s.table.tag id with
    | ok tag => exact h tag s
    | error fault => exact counting.mono (Nat.zero_le _) (counting.refl _)
  emit _ _ := counting.refl _
  inNewScope := by
    intro p plan step h s
    rw [List.length_append, List.length_singleton]
    exact counting.next (h { s with scope := s.lastScope + 1, lastScope := s.lastScope + 1 })
  covers p := by
    simp [Phrase.procedures_eq p]

/-- From every state, a step opens at most as many scopes as there are procedures in the list. -/
def OpensWithin (plan : List Phrase) (step : Step) : Prop :=
  ∀ s : State, (step s).state.lastScope.toNat ≤ s.lastScope.toNat + plan.length

theorem planned_opensWithin :
    Planned OpensWithin (fun _ => []) (fun p => [p]) (fun _ => []) Phrase.procedures := by
  refine @planned_counting (fun n last last' => last'.toNat ≤ last.toNat + n) ⟨?_, ?_, ?_, ?_⟩
  · exact fun last => Nat.le_refl _
  · intro m n last last' hle h
    omega
  · intro m n last last' last'' h h'
    omega
  · intro n last last' h
    have hnext := toNat_add_one_le last
    omega

end Step

/-- The state in which a stage begins to type its parts. -/
def Stage.entry (stage : Stage) (s : State) : State :=
  if stage.opensScope then { s with scope := s.lastScope + 1, lastScope := s.lastScope + 1 } else s

namespace Phrase

/-- The typing of the part at a position. -/
def visit (p : Phrase) (i : Nat) : Step :=
  ((p.parts.map (typing (some p.category)))[i]?).getD (.fail (p.missingPart i))

/-- The phrases that are come to while a phrase is typed, each with its context and with the state
at that time. A phrase that is bound already is not looked into. Otherwise its parts are come to
one by one, as long as what goes before them does not fail. -/
inductive Reaches (root : Phrase) (start : State) : Option Category → Phrase → State → Prop
  | top : Reaches root start none root start
  | part {context : Option Category} {p q : Phrase} {s : State} {c : Construct} {rule : Rule}
      {before after : List Stage} {stage : Stage} {seen rest : List Nat} {i : Nat}
      (around : Reaches root start context p s) (unbound : s.table.tag p.id = .ok .unbound)
      (construct : p.category = .construct c)
      (follows : c.rule? (p.parts.map category) = some rule)
      (stages : rule.stages = before ++ stage :: after)
      (visits : stage.visits = seen ++ i :: rest) (part : p.parts[i]? = some q)
      {out out' : Outcome}
      (passed : Step.all (before.map
        (Stage.apply p (p.parts.map (typing (some p.category))))) s = out)
      (passed_ok : out.fault = none)
      (visited : Step.all (seen.map p.visit) (stage.entry out.state) = out')
      (visited_ok : out'.fault = none) :
      Reaches root start (some p.category) q out'.state

/-- At every time of a typing, the procedures that are still to be opened are left of those in the
whole phrase. -/
theorem Reaches.lastScope_le {root p : Phrase} {start s : State} {context : Option Category}
    (h : root.Reaches start context p s) :
    s.lastScope.toNat + p.procedures.length ≤
      start.lastScope.toNat + root.procedures.length := by
  induction h with
  | top => exact Nat.le_refl _
  | @part context p q s c rule before after stage seen rest i around unbound construct follows
      stages visits part out out' passed _ visited _ ih =>
      have hparts := p.planned_parts fun q _ =>
        q.planned_typing Step.planned_opensWithin (some p.category)
      have hstages := (Step.planned_opensWithin.all fun stage (_ : stage ∈ before) =>
        stage.planned_apply Step.planned_opensWithin hparts) s
      rw [passed] at hstages
      have hentry : (stage.entry out.state).lastScope.toNat ≤
          out.state.lastScope.toNat + (if stage.opensScope then [p] else []).length := by
        unfold Stage.entry
        split
        · exact toNat_add_one_le out.state.lastScope
        · exact Nat.le_refl _
      have hvisits : out'.state.lastScope.toNat ≤ (stage.entry out.state).lastScope.toNat +
          (seen.flatMap (p.itemsAt procedures)).length := by
        rw [← visited]
        exact Step.planned_opensWithin.visits hparts seen _
      have hplan := (Rule.plan_sublist (fun p => [p]) procedures construct follows).length_le
      rw [← procedures_eq] at hplan
      simp only [stages, List.flatMap_append, List.flatMap_cons, Stage.plan, visits,
        itemsAt_of_part part, List.length_append] at hplan
      omega

end Phrase

namespace Checker

/-- A run ends in the scope in which it began. -/
theorem scope_after (c : Checker) (k : Nat) : (c.after k).state.scope = c.state.scope := by
  induction k with
  | zero => rfl
  | succ k ih =>
      rw [after, checker_check, ← ih]
      exact Phrase.pervasive_typing (Step.pervasive_restores _) none (c.after k).state

end Checker

/-- In the first run on a tree there is always room for the next scope. -/
theorem Tree.Grown.lastScope_lt {t : Tree} (h : t.Grown) {context : Option Category} {p : Phrase}
    {s : State} (hreach : t.root.Reaches t.freshChecker.state context p s)
    (hopens : p.opensScope = true) : s.lastScope.toNat + 1 < UInt32.size := by
  have hlast := hreach.lastScope_le
  have hown : 1 ≤ p.procedures.length := by
    rw [Phrase.procedures_eq, if_pos hopens, List.length_append]
    exact Nat.le_add_right _ _
  have hprocedures := t.root.length_procedures_lt.trans_le h.size_root_le
  have hstart : t.freshChecker.state.lastScope.toNat = 0 := rfl
  have hcapacity : Forest.capacity = UInt32.size := rfl
  omega

end TreeTyping
