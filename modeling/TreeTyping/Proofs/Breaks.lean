import TreeTyping.Proofs.Rules

/-!
# Where a rule breaks off

A rule that ends in a fault has passed some of its stages and breaks off in the next one: at a part
that it types there, or at a demand once all parts of the stage have values. The parts of that
stage and of the stages before it are the only ones that it has visited. A demand that is not met
names the tag of a part that the stage has typed.
-/

namespace TreeTyping

/-- If several progresses in a row end in a fault, then one of them does, and those before it have
come to their ends. -/
theorem Progress.exists_of_fault_all {α : Type} {items : List α} {progress : α → Progress}
    {fault : Fault} (h : (all (items.map progress)).fault = some fault) :
    ∃ before a after, items = before ++ a :: after ∧ (∀ b ∈ before, (progress b).fault = none) ∧
      (progress a).fault = some fault ∧
      (all (items.map progress)).visited =
        before.flatMap (fun b => (progress b).visited) ++ (progress a).visited := by
  induction items with
  | nil => simp at h
  | cons first rest ih =>
      rw [List.map_cons, all_cons] at h ⊢
      cases hf : (progress first).fault with
      | some fault' =>
          rw [fault_andThen, hf] at h
          refine ⟨[], first, rest, rfl, by simp, hf.trans h, ?_⟩
          rw [visited_andThen_of_some hf]
          rfl
      | none =>
          rw [fault_andThen, hf, Option.none_or] at h
          obtain ⟨before, a, after, rfl, hbefore, ha, hvisited⟩ := ih h
          refine ⟨first :: before, a, after, rfl, ?_, ha, ?_⟩
          · simpa [hf] using hbefore
          · rw [visited_andThen_of_none hf, hvisited, List.flatMap_cons, List.append_assoc]

namespace Rule

/-- A stage of a rule is passed if its parts have values and its demands are met. -/
structure Passes (rule : Rule) (p : Phrase) (values : List Value) (stage : Stage) : Prop where
  sound : ∀ i ∈ stage.visits, faultOf (p.valueAt values i) = none
  met : ∀ d ∈ stage.demands, d.judge p (rule.tagAt p values) = none

/-- The two ways in which a rule breaks off with a fault. -/
inductive Breaks (rule : Rule) (p : Phrase) (values : List Value) (fault : Fault) : Prop
  /-- A part is faulty. -/
  | visit {before after : List Stage} {stage : Stage} {seen rest : List Nat} {i : Nat}
      (stages : rule.stages = before ++ stage :: after)
      (passed : ∀ earlier ∈ before, rule.Passes p values earlier)
      (visits : stage.visits = seen ++ i :: rest)
      (sound : ∀ j ∈ seen, faultOf (p.valueAt values j) = none)
      (faulty : faultOf (p.valueAt values i) = some fault)
      (visited : (rule.progress p values).visited =
        before.flatMap Stage.visits ++ (seen ++ [i]))
  /-- A demand is not met. -/
  | demand {before after : List Stage} {stage : Stage} {met rest : List Demand} {d : Demand}
      (stages : rule.stages = before ++ stage :: after)
      (passed : ∀ earlier ∈ before, rule.Passes p values earlier)
      (sound : ∀ i ∈ stage.visits, faultOf (p.valueAt values i) = none)
      (demands : stage.demands = met ++ d :: rest)
      (satisfied : ∀ d' ∈ met, d'.judge p (rule.tagAt p values) = none)
      (refused : d.judge p (rule.tagAt p values) = some fault)
      (visited : (rule.progress p values).visited = before.flatMap Stage.visits ++ stage.visits)

section Breaks

variable {rule : Rule} {p : Phrase} {values : List Value} {fault : Fault}

/-- A rule that ends in a fault breaks off. -/
theorem breaks_of_fault (h : (rule.progress p values).fault = some fault) :
    rule.Breaks p values fault := by
  obtain ⟨before, stage, after, hstages, hbefore, hstage, hvisited⟩ :=
    Progress.exists_of_fault_all h
  have hpassed : ∀ earlier ∈ before, rule.Passes p values earlier := by
    intro earlier hearlier
    obtain ⟨hsound, hmet⟩ := met_of_stageProgress (hbefore earlier hearlier)
    exact ⟨hsound, hmet⟩
  have hseen : before.flatMap (fun earlier => (rule.stageProgress p values earlier).visited) =
      before.flatMap Stage.visits :=
    List.flatMap_congr fun earlier hearlier =>
      (rule.stageProgress_keeps p values earlier).2 (hbefore earlier hearlier)
  change (rule.progress p values).visited = _ at hvisited
  rw [hseen] at hvisited
  rw [stageProgress] at hstage hvisited
  cases hvisits : (Progress.all (stage.visits.map fun part =>
      ⟨[part], faultOf (p.valueAt values part)⟩)).fault with
  | some fault' =>
      rw [Progress.fault_andThen, hvisits] at hstage
      rw [Progress.visited_andThen_of_some hvisits] at hvisited
      obtain ⟨seen, i, rest, hparts, hclean, hi, hlast⟩ := Progress.exists_of_fault_all hvisits
      rw [hlast, List.flatMap_singleton'] at hvisited
      exact .visit hstages hpassed hparts hclean (hi.trans hstage) hvisited
  | none =>
      have hall := (visits_keep p values stage.visits).2 hvisits
      rw [Progress.fault_andThen, hvisits, Option.none_or] at hstage
      rw [Progress.visited_andThen_of_none hvisits, hall] at hvisited
      obtain ⟨met, d, rest, hdemands, hmet, hd, hlast⟩ := Progress.exists_of_fault_all hstage
      have hnone : (Progress.all (stage.demands.map fun d =>
          ⟨[], d.judge p (rule.tagAt p values)⟩)).visited = [] := by
        rw [hlast]
        simp
      rw [hnone, List.append_nil] at hvisited
      refine .demand hstages hpassed ?_ hdemands hmet hd hvisited
      intro i hi
      exact (Progress.fault_all_eq_none_iff _).mp hvisits _ (List.mem_map_of_mem hi)

end Breaks

end Rule

/-- The rule of a faulty construct breaks off with its fault. -/
theorem Phrase.breaks_of_error {p : Phrase} {c : Construct} {rule : Rule}
    (hc : p.category = .construct c) (hr : c.rule? (p.parts.map category) = some rule)
    {context : Option Category} {fault : Fault} (h : p.evaluate context = .error fault) :
    rule.Breaks p p.values fault := by
  rw [evaluate_construct hc hr] at h
  cases hf : (rule.progress p p.values).fault with
  | none => simp [hf] at h
  | some fault' =>
      rw [hf] at h
      cases h
      exact Rule.breaks_of_fault hf

theorem Phrase.mismatch_of_expect {p : Phrase} {accepted : List Tag} {received : Tag}
    {fault : Fault} (h : faultOf (p.expect accepted received) = some fault) :
    received ∉ accepted ∧ fault = p.mismatch accepted received := by
  unfold Phrase.expect at h
  split at h
  · simp at h
  · rename_i hnot
    exact ⟨hnot, (Option.some.inj h).symm⟩

namespace Demand

/-- The tags from which a demand wants the first tag that it looks at. -/
def accepted : Demand → List Tag
  | .oneOf _ accepted => accepted
  | .unbound _ => [.unbound]
  | .comparable .. => Tag.comparable
  | .assignable .. => Tag.assignable

variable {p : Phrase} {tags : Nat → Tag} {d : Demand} {fault : Fault}

/-- A demand that binds no part is met by parts that are unbound. -/
theorem judge_of_unbound (hbinds : d.binds = []) (h : ∀ i ∈ d.parts, tags i = .unbound) :
    d.judge p tags = none := by
  cases d with
  | oneOf part accepted =>
      have hpart := h part (by simp [parts])
      have hmem : Tag.unbound ∈ accepted := by simpa [binds] using hbinds
      simp [judge, hpart, Phrase.expect, hmem]
  | unbound part =>
      have hpart := h part (by simp [parts])
      simp [judge, hpart]
  | comparable left right => simp [binds] at hbinds
  | assignable target value => simp [binds] at hbinds

/-- A demand that binds its parts and is not met names the tag of one of them, and others that it
would rather have. -/
theorem exists_mismatch_of_judge (hbinds : d.binds ≠ []) (haccepted : d.accepted ≠ [])
    (h : d.judge p tags = some fault) :
    ∃ expected, ∃ i ∈ d.parts, expected ≠ [] ∧ tags i ∉ expected ∧
      fault = p.mismatch expected (tags i) := by
  cases d with
  | oneOf part accepted =>
      exact ⟨accepted, part, by simp [parts], haccepted, Phrase.mismatch_of_expect h⟩
  | unbound part => simp [binds] at hbinds
  | comparable left right =>
      simp only [judge, Option.or_eq_some_iff] at h
      rcases h with h | ⟨-, h | ⟨-, h⟩⟩
      · exact ⟨_, left, by simp [parts], haccepted, Phrase.mismatch_of_expect h⟩
      · exact ⟨_, right, by simp [parts], haccepted, Phrase.mismatch_of_expect h⟩
      · exact ⟨_, right, by simp [parts], by simp, Phrase.mismatch_of_expect h⟩
  | assignable target value =>
      simp only [judge, Option.or_eq_some_iff] at h
      rcases h with h | ⟨-, h⟩
      · exact ⟨_, target, by simp [parts], haccepted, Phrase.mismatch_of_expect h⟩
      · exact ⟨_, value, by simp [parts], by simp, Phrase.mismatch_of_expect h⟩

end Demand

namespace Construct

variable {c : Construct} {categories : List Category} {rule : Rule} {stage : Stage} {d : Demand}

/-- In the rules of the constructs, a demand that binds no part looks only at parts that are never
typed. Any other demand accepts some tag and looks only at parts that its stage has typed. -/
theorem demand_cases (h : c.rule? categories = some rule) (hstage : stage ∈ rule.stages)
    (hd : d ∈ stage.demands) :
    (d.binds = [] ∧ ∀ i ∈ d.parts, i ∉ rule.visits) ∨
      (d.binds ≠ [] ∧ d.accepted ≠ [] ∧ ∀ i ∈ d.parts, i ∈ stage.visits) := by
  obtain ⟨sample, hmem, -⟩ := exists_sample h
  have hall : ∀ entry ∈ c.rules, ∀ stage ∈ entry.2.stages, ∀ d ∈ stage.demands,
      (d.binds = [] ∧ ∀ i ∈ d.parts, i ∉ entry.2.visits) ∨
        (d.binds ≠ [] ∧ d.accepted ≠ [] ∧ ∀ i ∈ d.parts, i ∈ stage.visits) := by
    cases c <;> decide
  exact hall _ hmem stage hstage d hd

/-- A demand of a rule that is not met names the tag of a part that its stage has typed. -/
theorem exists_mismatch_of_refused (h : c.rule? categories = some rule)
    (hstage : stage ∈ rule.stages) (hd : d ∈ stage.demands) {p : Phrase} {values : List Value}
    {fault : Fault} (hrefused : d.judge p (rule.tagAt p values) = some fault) :
    ∃ expected, ∃ i ∈ stage.visits, expected ≠ [] ∧ tagOf (p.valueAt values i) ∉ expected ∧
      fault = p.mismatch expected (tagOf (p.valueAt values i)) := by
  rcases demand_cases h hstage hd with ⟨hbinds, hparts⟩ | ⟨hbinds, haccepted, hparts⟩
  · have hmet : d.judge p (rule.tagAt p values) = none :=
      Demand.judge_of_unbound hbinds fun i hi => if_neg (hparts i hi)
    rw [hmet] at hrefused
    cases hrefused
  · obtain ⟨expected, i, hi, hfault⟩ := Demand.exists_mismatch_of_judge hbinds haccepted hrefused
    have htyped : i ∈ rule.visits := List.mem_flatMap.mpr ⟨stage, hstage, hparts i hi⟩
    rw [Rule.tagAt, if_pos htyped] at hfault
    exact ⟨expected, i, hparts i hi, hfault⟩

end Construct

end TreeTyping
