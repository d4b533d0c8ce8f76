import TreeTyping.Proofs.Evaluation
import TreeTyping.Typing

/-!
# How far a rule gets

A rule goes through its stages until a part or a demand ends it in a fault. The parts that
it has visited by then, and that fault, are its progress. It depends on the values of the
parts alone, and the fault is the one that the evaluation of the construct finds.
-/

namespace TreeTyping

/-- The parts that have been visited, and the fault that ended the visits, if any. -/
structure Progress where
  visited : List Nat := []
  fault : Option Fault := none

namespace Progress

/-- Goes on with the second progress unless the first ended in a fault. -/
def andThen (first second : Progress) : Progress where
  visited := if first.fault.isSome then first.visited else first.visited ++ second.visited
  fault := first.fault.or second.fault

/-- Goes through several progresses, up to the first fault. -/
def all : List Progress → Progress
  | [] => {}
  | first :: rest => first.andThen (all rest)

@[simp] theorem all_nil : all [] = {} := rfl

@[simp] theorem all_cons (first : Progress) (rest : List Progress) :
    all (first :: rest) = first.andThen (all rest) := rfl

@[simp] theorem fault_andThen (first second : Progress) :
    (first.andThen second).fault = first.fault.or second.fault := rfl

theorem visited_andThen_of_none {first : Progress} (h : first.fault = none)
    (second : Progress) :
    (first.andThen second).visited = first.visited ++ second.visited := by
  simp [andThen, h]

theorem visited_andThen_of_some {first : Progress} {fault : Fault}
    (h : first.fault = some fault) (second : Progress) :
    (first.andThen second).visited = first.visited := by
  simp [andThen, h]

/-- What the first progress has visited stays the beginning of what is visited. -/
theorem isPrefix_andThen (first second : Progress) :
    first.visited <+: (first.andThen second).visited := by
  cases h : first.fault with
  | none => exact visited_andThen_of_none h second ▸ List.prefix_append _ _
  | some fault => exact visited_andThen_of_some h second ▸ List.prefix_rfl

theorem fault_all_eq_none_iff (ps : List Progress) :
    (all ps).fault = none ↔ ∀ progress ∈ ps, progress.fault = none := by
  induction ps with
  | nil => simp
  | cons first rest ih => simp [ih]

/-- A progress keeps to a plan if it visits the parts of the plan in order, and all of them
unless it ends in a fault. -/
def Keeps (progress : Progress) (plan : List Nat) : Prop :=
  progress.visited <+: plan ∧ (progress.fault = none → progress.visited = plan)

theorem Keeps.andThen {first second : Progress} {plan plan' : List Nat}
    (h : first.Keeps plan) (h' : second.Keeps plan') :
    (first.andThen second).Keeps (plan ++ plan') := by
  cases hf : first.fault with
  | some fault =>
      refine ⟨?_, by simp [hf]⟩
      rw [visited_andThen_of_some hf]
      exact h.1.trans (List.prefix_append _ _)
  | none =>
      rw [Keeps, visited_andThen_of_none hf, h.2 hf]
      refine ⟨(List.prefix_append_right_inj plan).mpr h'.1, ?_⟩
      intro hn
      rw [h'.2 (by simpa [hf] using hn)]

theorem keeps_all {α : Type} (items : List α) (progress : α → Progress)
    (plan : α → List Nat) (h : ∀ a ∈ items, (progress a).Keeps (plan a)) :
    (all (items.map progress)).Keeps (items.flatMap plan) := by
  induction items with
  | nil => simp [Keeps]
  | cons a rest ih =>
      simp only [List.map_cons, all_cons, List.flatMap_cons]
      exact (h a (by simp)).andThen (ih fun b hb => h b (by simp [hb]))

end Progress

/-- A tag that is not refused is among those that are asked for. -/
theorem Phrase.mem_of_expect {p : Phrase} {accepted : List Tag} {received : Tag}
    (h : faultOf (p.expect accepted received) = none) : received ∈ accepted := by
  unfold Phrase.expect at h
  split at h
  · assumption
  · cases h

namespace Demand

/-- The parts at which a demand looks. -/
def parts : Demand → List Nat
  | .oneOf part _ => [part]
  | .unbound part => [part]
  | .comparable left right => [left, right]
  | .assignable target value => [target, value]

/-- The parts that are bound if a demand is met. -/
def binds : Demand → List Nat
  | .oneOf part accepted => if .unbound ∈ accepted then [] else [part]
  | .unbound _ => []
  | .comparable left right => [left, right]
  | .assignable target value => [target, value]

/-- The fault of a demand that the tags of the parts do not meet. -/
def judge (p : Phrase) (tags : Nat → Tag) : Demand → Option Fault
  | .oneOf part accepted => faultOf (p.expect accepted (tags part))
  | .unbound part =>
      if (tags part).isBound then
        some ⟨.procedureBound ((p.parts[part]?.map Phrase.lexeme).getD "") (tags part),
          p.location⟩
      else none
  | .comparable left right =>
      (faultOf (p.expect Tag.comparable (tags left))).or
        ((faultOf (p.expect Tag.comparable (tags right))).or
          (faultOf (p.expect [tags left] (tags right))))
  | .assignable target value =>
      (faultOf (p.expect Tag.assignable (tags target))).or
        (faultOf (p.expect [tags target] (tags value)))

/-- A demand that is met leaves none of its parts unbound. -/
theorem isBound_of_judge {p : Phrase} {tags : Nat → Tag} {d : Demand}
    (h : d.judge p tags = none) {i : Nat} (hi : i ∈ d.binds) : tags i ≠ .unbound := by
  cases d with
  | oneOf part accepted =>
      simp only [binds] at hi
      split at hi
      · simp at hi
      · rename_i hun
        obtain rfl : i = part := by simpa using hi
        exact fun he => hun (he ▸ Phrase.mem_of_expect h)
  | unbound part => simp [binds] at hi
  | comparable left right =>
      simp only [judge, Option.or_eq_none_iff] at h
      have hl := Phrase.mem_of_expect h.1
      have hr := Phrase.mem_of_expect h.2.1
      simp only [binds, List.mem_cons, List.not_mem_nil, or_false] at hi
      rcases hi with rfl | rfl
      · exact fun he => by simp [he, Tag.comparable] at hl
      · exact fun he => by simp [he, Tag.comparable] at hr
  | assignable target value =>
      simp only [judge, Option.or_eq_none_iff] at h
      have ht := Phrase.mem_of_expect h.1
      have hv := Phrase.mem_of_expect h.2
      simp only [binds, List.mem_cons, List.not_mem_nil, or_false] at hi
      rcases hi with rfl | rfl
      · exact fun he => by simp [he, Tag.assignable] at ht
      · intro he
        simp only [List.mem_singleton, he] at hv
        simp [← hv, Tag.assignable] at ht

end Demand

namespace Phrase

/-- The value at a position, a fault beyond the last part. -/
def valueAt (p : Phrase) (values : List Value) (part : Nat) : Value :=
  (values[part]?).getD (.error (p.missingPart part))

theorem valueAt_values {p q : Phrase} {i : Nat} (hq : p.parts[i]? = some q) :
    p.valueAt p.values i = q.evaluate (some p.category) := by
  simp [valueAt, values, hq]

end Phrase

namespace Rule

/-- The positions of the parts that a rule types, in the order in which it does. -/
def visits (rule : Rule) : List Nat := rule.stages.flatMap Stage.visits

/-- The tag of a part as the demands of a rule see it. A part that is not typed by the rule is
unbound, whatever its value. -/
def tagAt (rule : Rule) (p : Phrase) (values : List Value) (part : Nat) : Tag :=
  if part ∈ rule.visits then tagOf (p.valueAt values part) else .unbound

/-- How far a rule gets in one of its stages. -/
def stageProgress (rule : Rule) (p : Phrase) (values : List Value) (stage : Stage) : Progress :=
  (Progress.all (stage.visits.map fun part =>
    ⟨[part], faultOf (p.valueAt values part)⟩)).andThen
      (Progress.all (stage.demands.map fun d => ⟨[], d.judge p (rule.tagAt p values)⟩))

/-- How far a rule gets with parts of the given values. -/
def progress (rule : Rule) (p : Phrase) (values : List Value) : Progress :=
  Progress.all (rule.stages.map (rule.stageProgress p values))

section Progress

variable (rule : Rule) (p : Phrase) (values : List Value)

/-- The parts of a stage are visited in order, and all of them unless one is faulty. -/
theorem visits_keep (parts : List Nat) :
    (Progress.all (parts.map fun part =>
      ⟨[part], faultOf (p.valueAt values part)⟩)).Keeps parts := by
  have hkeeps := Progress.keeps_all parts
    (fun part => ⟨[part], faultOf (p.valueAt values part)⟩) (fun part => [part])
    fun part _ => ⟨List.prefix_rfl, fun _ => rfl⟩
  rwa [List.flatMap_singleton'] at hkeeps

theorem stageProgress_keeps (stage : Stage) :
    (rule.stageProgress p values stage).Keeps stage.visits := by
  have hdemands := Progress.keeps_all stage.demands
    (fun d => ⟨[], d.judge p (rule.tagAt p values)⟩) (fun _ => [])
    fun d _ => ⟨List.prefix_rfl, fun _ => rfl⟩
  have hplan : stage.visits ++ stage.demands.flatMap (fun _ => []) = stage.visits := by simp
  exact hplan ▸ (visits_keep p values stage.visits).andThen hdemands

/-- A rule visits its parts in order, and all of them unless it ends in a fault. -/
theorem progress_keeps : (rule.progress p values).Keeps rule.visits :=
  Progress.keeps_all rule.stages _ Stage.visits fun stage _ =>
    stageProgress_keeps rule p values stage

variable {rule p values}

/-- A stage that ends without a fault has found none in its parts, and its demands met. -/
theorem met_of_stageProgress {stage : Stage}
    (h : (rule.stageProgress p values stage).fault = none) :
    (∀ i ∈ stage.visits, faultOf (p.valueAt values i) = none) ∧
      ∀ d ∈ stage.demands, d.judge p (rule.tagAt p values) = none := by
  rw [stageProgress, Progress.fault_andThen, Option.or_eq_none_iff,
    Progress.fault_all_eq_none_iff, Progress.fault_all_eq_none_iff] at h
  constructor
  · intro i hi
    exact h.1 _ (List.mem_map_of_mem hi)
  · intro d hd
    exact h.2 _ (List.mem_map_of_mem hd)

/-- A rule that gets to its end has found no fault in its parts, and all its demands met. -/
theorem met_of_progress (h : (rule.progress p values).fault = none) {stage : Stage}
    (hs : stage ∈ rule.stages) :
    (∀ i ∈ stage.visits, faultOf (p.valueAt values i) = none) ∧
      ∀ d ∈ stage.demands, d.judge p (rule.tagAt p values) = none := by
  rw [progress, Progress.fault_all_eq_none_iff] at h
  exact met_of_stageProgress (h _ (List.mem_map_of_mem hs))

end Progress

end Rule

end TreeTyping
