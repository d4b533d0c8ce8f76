import TreeTyping.Proofs.Diagnosis
import TreeTyping.Proofs.Untouched

/-!
# Loops that count

A loop that counts wants numbers in three groups of its parts, and then types its body. The parts
of a group are all typed before one of them is looked at, and the next group has its turn only if
they are all numbers. So a fault that comes from a group leaves the later groups and the body
untouched.
-/

namespace TreeTyping

/-- Types the parts of a group and demands that all of them are numbers. -/
def Stage.ofNumbers (group : List Nat) : Stage :=
  .ofSlots (group.map fun part => (part, [.number]))

theorem Stage.visits_ofNumbers (group : List Nat) : (ofNumbers group).visits = group := by
  simp [ofNumbers, ofSlots, Function.comp_def]

theorem Stage.demands_ofNumbers (group : List Nat) :
    (ofNumbers group).demands = group.map fun part => .oneOf part [.number] := by
  simp [ofNumbers, ofSlots]

namespace CountedLoop

/-- The positions in a counted loop at which numbers are wanted, group by group. -/
def numberSlots : List (List Nat) := [[1, 3], [4, 6], [7, 10, 11]]

/-- The position of the body of a counted loop. -/
def bodySlot : Nat := 12

/-- The rule of a loop that counts. -/
def rule : Rule where
  stages := numberSlots.map Stage.ofNumbers ++ [.ofSlots [(bodySlot, [.wellTyped])]]
  result := .wellTyped

theorem visits_rule : rule.visits = numberSlots.flatten ++ [bodySlot] := by decide

section Groups

variable {before after : List (List Nat)} {group : List Nat}

/-- The groups are gone through from left to right, and the body comes last. -/
theorem slot_lt_slot (h : numberSlots = before ++ group :: after) {i j : Nat}
    (hi : i ∈ before.flatten ++ group) (hj : j ∈ after.flatten ++ [bodySlot]) : i < j := by
  have hincreasing : (numberSlots.flatten ++ [bodySlot]).Pairwise (· < ·) := by decide
  have hsplit : numberSlots.flatten ++ [bodySlot] =
      (before.flatten ++ group) ++ (after.flatten ++ [bodySlot]) := by simp [h]
  rw [hsplit] at hincreasing
  exact (List.pairwise_append.mp hincreasing).2.2 i hi j hj

/-- A stage of the rule belongs to a group or to the body. -/
theorem stage_cases {earlier later : List Stage} {stage : Stage}
    (h : rule.stages = earlier ++ stage :: later) :
    (∃ before group after, numberSlots = before ++ group :: after ∧
        earlier = before.map Stage.ofNumbers ∧ stage = .ofNumbers group) ∨
      (earlier = numberSlots.map Stage.ofNumbers ∧
        stage = .ofSlots [(bodySlot, [.wellTyped])]) := by
  rcases List.append_eq_append_iff.mp h with ⟨between, hearlier, hlast⟩ | ⟨between, hgroups, hrest⟩
  · cases between with
    | nil =>
        rw [List.append_nil] at hearlier
        exact .inr ⟨hearlier, (List.cons.inj hlast).1.symm⟩
    | cons first rest => simp at hlast
  · cases between with
    | nil =>
        rw [List.append_nil] at hgroups
        exact .inr ⟨hgroups.symm, (List.cons.inj hrest).1⟩
    | cons first rest =>
        obtain ⟨before, tail, hslots, hbefore, htail⟩ := List.map_eq_append_iff.mp hgroups
        obtain ⟨group, after, rfl, hgroup, -⟩ := List.map_eq_cons_iff.mp htail
        exact .inl ⟨before, group, after, hslots, hbefore.symm,
          (List.cons.inj hrest).1.trans hgroup.symm⟩

end Groups

end CountedLoop

open CountedLoop

namespace Phrase

/-- A loop with as many parts as counting takes. -/
structure IsCountedLoop (z : Phrase) : Prop where
  category : z.category = .construct .loop
  arity : z.arity = 13

theorem IsCountedLoop.rule?_eq {z : Phrase} (hz : z.IsCountedLoop) :
    Construct.loop.rule? (z.parts.map Phrase.category) = some rule := by
  have hlength : (z.parts.map Phrase.category).length = 13 := by
    simpa [Phrase.arity] using hz.arity
  simp only [Construct.rule?, hlength, Loop.ofParts?_range]
  rfl

/-- The part at a position has been typed, and it is a number. -/
def HasNumber (z : Phrase) (i : Nat) : Prop :=
  i ∈ z.fate.typed ∧ tagOf (z.valueAt z.values i) = .number

/-- A counted loop stops in a group: the groups before it hold numbers, and neither a group after
it nor the body is typed. -/
structure StopsBetween (z : Phrase) (before after : List (List Nat)) : Prop where
  earlier : ∀ i ∈ before.flatten, z.HasNumber i
  later : ∀ i ∈ after.flatten ++ [bodySlot], i ∉ z.fate.typed

/-- The ways in which a counted loop comes to a fault. -/
inductive LoopFails (z : Phrase) (fault : Fault) : Prop
  /-- A part of a group is faulty. -/
  | slot {before after : List (List Nat)} {group : List Nat} {i : Nat} {q : Phrase}
      (groups : numberSlots = before ++ group :: after) (mem : i ∈ group)
      (part : z.parts[i]? = some q) (value : q.evaluate (some z.category) = .error fault)
      (stops : z.StopsBetween before after)
  /-- All parts of a group have values, and the first that is no number is refused. -/
  | number {before after : List (List Nat)} {group seen rest : List Nat} {i : Nat}
      (groups : numberSlots = before ++ group :: after) (split : group = seen ++ i :: rest)
      (typed : i ∈ z.fate.typed) (numbers : ∀ j ∈ seen, z.HasNumber j)
      (refused : tagOf (z.valueAt z.values i) ≠ .number)
      (raised : fault = z.mismatch [.number] (tagOf (z.valueAt z.values i)))
      (stops : z.StopsBetween before after)
  /-- The body is faulty or refused, after all groups. -/
  | body (numbers : ∀ i ∈ numberSlots.flatten, z.HasNumber i)
      (raised : (∃ q, z.parts[bodySlot]? = some q ∧ q.evaluate (some z.category) = .error fault) ∨
        ∃ received, fault = z.mismatch [.wellTyped] received)

namespace IsCountedLoop

variable {z : Phrase} (hz : z.IsCountedLoop)

include hz

theorem typed_eq : z.fate.typed = (rule.progress z z.values).visited :=
  typed_eq_visited hz.category hz.rule?_eq

theorem mem_visits_of_typed {i : Nat} (hi : i ∈ z.fate.typed) : i ∈ rule.visits :=
  (rule.progress_keeps z z.values).1.subset (hz.typed_eq ▸ hi)

/-- A part that has been typed is a number if the demand for one is met. -/
theorem hasNumber_of_judge {i : Nat} (hi : i ∈ z.fate.typed)
    (h : (Demand.oneOf i [.number]).judge z (rule.tagAt z z.values) = none) : z.HasNumber i := by
  have hmem := mem_of_expect h
  rw [Rule.tagAt, if_pos (hz.mem_visits_of_typed hi)] at hmem
  exact ⟨hi, List.mem_singleton.mp hmem⟩

/-- The parts of groups whose stages have been passed are numbers. -/
theorem hasNumber_of_passed {before : List (List Nat)} {seen : List Nat}
    (hpassed : ∀ stage ∈ before.map Stage.ofNumbers, rule.Passes z z.values stage)
    (htyped : z.fate.typed = before.flatten ++ seen) : ∀ i ∈ before.flatten, z.HasNumber i := by
  intro i hi
  obtain ⟨group, hgroup, hmem⟩ := List.mem_flatten.mp hi
  have hmet := (hpassed _ (List.mem_map_of_mem hgroup)).met (.oneOf i [.number]) (by
    rw [Stage.demands_ofNumbers]
    exact List.mem_map_of_mem hmem)
  exact hz.hasNumber_of_judge (htyped ▸ List.mem_append_left seen hi) hmet

/-- A counted loop that has typed no more than a group and what goes before it stops there. -/
theorem stopsBetween {before after : List (List Nat)} {group seen : List Nat}
    (hgroups : numberSlots = before ++ group :: after)
    (hpassed : ∀ stage ∈ before.map Stage.ofNumbers, rule.Passes z z.values stage)
    (htyped : z.fate.typed = before.flatten ++ seen) (hseen : seen ⊆ group) :
    z.StopsBetween before after := by
  refine ⟨hz.hasNumber_of_passed hpassed htyped, fun j hj htyped' => ?_⟩
  rw [htyped] at htyped'
  have hearlier : j ∈ before.flatten ++ group :=
    List.append_subset.mpr ⟨List.subset_append_left _ _,
      List.Subset.trans hseen (List.subset_append_right _ _)⟩ htyped'
  exact absurd (slot_lt_slot hgroups hearlier hj) (Nat.lt_irrefl j)

/-- A counted loop fails in one of its groups or at its body. -/
theorem loopFails_of_error {context : Option Category} {fault : Fault}
    (h : z.evaluate context = .error fault) : z.LoopFails fault := by
  have hflatten : ∀ groups : List (List Nat),
      (groups.map Stage.ofNumbers).flatMap Stage.visits = groups.flatten := by
    intro groups
    simp only [List.flatMap_map, Stage.visits_ofNumbers, List.flatMap_id']
  have htyped := hz.typed_eq
  cases breaks_of_error hz.category hz.rule?_eq h with
  | @visit earlier later stage seen rest i stages passed visits sound faulty visited =>
      have hi : i ∈ rule.visits := by simp [Rule.visits, stages, visits]
      obtain ⟨q, hq, hvalue⟩ := (Construct.orderly hz.rule?_eq).exists_faulty hi faulty
      rcases stage_cases stages with ⟨before, group, after, hgroups, rfl, rfl⟩ | ⟨rfl, rfl⟩
      · rw [Stage.visits_ofNumbers] at visits
        rw [hflatten] at visited
        refine .slot hgroups (by simp [visits]) hq hvalue
          (hz.stopsBetween hgroups passed (htyped.trans visited) ?_)
        rw [visits]
        intro j
        simp only [List.mem_append, List.mem_cons]
        tauto
      · rw [hflatten] at visited
        have hbody : i = bodySlot := by
          have hmem : i ∈ [bodySlot] := by
            have hvisits : [bodySlot] = seen ++ i :: rest := visits
            simp [hvisits]
          exact List.mem_singleton.mp hmem
        exact .body (hz.hasNumber_of_passed passed (htyped.trans visited))
          (.inl ⟨q, hbody ▸ hq, hvalue⟩)
  | @demand earlier later stage met rest d stages passed sound demands satisfied refused visited =>
      rcases stage_cases stages with ⟨before, group, after, hgroups, rfl, rfl⟩ | ⟨rfl, rfl⟩
      · rw [Stage.demands_ofNumbers] at demands
        rw [hflatten, Stage.visits_ofNumbers] at visited
        obtain ⟨seen, tail, rfl, rfl, htail⟩ := List.map_eq_append_iff.mp demands
        obtain ⟨i, rest, rfl, rfl, -⟩ := List.map_eq_cons_iff.mp htail
        have hstage := htyped.trans visited
        have hi : i ∈ z.fate.typed := by simp [hstage]
        obtain ⟨hnot, hfault⟩ := mismatch_of_expect refused
        rw [Rule.tagAt, if_pos (hz.mem_visits_of_typed hi)] at hnot hfault
        refine .number hgroups rfl hi (fun j hj => ?_) (fun he => hnot (by simp [he])) hfault
          (hz.stopsBetween hgroups passed hstage (List.Subset.refl _))
        exact hz.hasNumber_of_judge (by simp [hstage, hj]) (satisfied _ (List.mem_map_of_mem hj))
      · rw [hflatten] at visited
        refine .body (hz.hasNumber_of_passed passed (htyped.trans visited)) (.inr ?_)
        have hd : d ∈ [Demand.oneOf bodySlot [.wellTyped]] := by
          have hdemands : [Demand.oneOf bodySlot [.wellTyped]] = met ++ d :: rest := demands
          simp [hdemands]
        obtain rfl := List.mem_singleton.mp hd
        exact ⟨_, (mismatch_of_expect refused).2⟩

/-- A counted loop types its body only if all groups hold numbers. -/
theorem hasNumber_of_body (h : bodySlot ∈ z.fate.typed) :
    ∀ i ∈ numberSlots.flatten, z.HasNumber i := by
  cases hvalue : z.evaluate none with
  | error fault =>
      cases hz.loopFails_of_error hvalue with
      | slot _ _ _ _ stops | number _ _ _ _ _ _ stops =>
          exact absurd h (stops.later bodySlot (by simp))
      | body numbers _ => exact numbers
  | ok tag =>
      have hdone : (rule.progress z z.values).fault = none := by
        cases hf : (rule.progress z z.values).fault with
        | none => rfl
        | some fault =>
            rw [evaluate_construct hz.category hz.rule?_eq, hf] at hvalue
            cases hvalue
      have htyped : z.fate.typed = numberSlots.flatten ++ [bodySlot] := by
        rw [hz.typed_eq, (rule.progress_keeps z z.values).2 hdone, visits_rule]
      refine hz.hasNumber_of_passed (fun stage hstage => ?_) htyped
      obtain ⟨hsound, hmet⟩ := Rule.met_of_progress hdone (List.mem_append_left _ hstage)
      exact ⟨hsound, hmet⟩

end IsCountedLoop

end Phrase

/-- In a table, a counted loop has stopped in a group: the groups before it hold numbers, and
neither a group after it nor the body has been touched. -/
structure Table.StopsBetween (t : Table) (visited : List NodeId) (z : Phrase)
    (before after : List (List Nat)) : Prop where
  earlier : ∀ group ∈ before, ∀ i ∈ group, ∀ slot, z.parts[i]? = some slot →
    t.tag slot.id = .ok .number
  later : ∀ group ∈ after, ∀ i ∈ group, ∀ slot, z.parts[i]? = some slot →
    t.Untouched visited slot
  body : ∀ body, z.parts[bodySlot]? = some body → t.Untouched visited body

namespace Tree

namespace Grown

variable {t : Tree} {z : Phrase} {context : Option Category}

/-- A part that has been typed and is a number has that tag in the table. -/
theorem tag_of_hasNumber (h : t.Grown) (k : Nat) (hentered : t.root.Entered none context z)
    {i : Nat} (hi : z.HasNumber i) {slot : Phrase} (hslot : z.parts[i]? = some slot) :
    (t.freshChecker.after (k + 1)).table.tag slot.id = .ok .number := by
  obtain ⟨htyped, hnumber⟩ := hi
  have hpart := hentered.part htyped hslot
  rw [h.tag_after (k + 1) hpart.mem_subphrases, hpart.tagD_eq (h.column_after k),
    ← Phrase.valueAt_values hslot, hnumber]

theorem stopsBetween_after (h : t.Grown) (k : Nat) (hz : z.IsCountedLoop)
    (hentered : t.root.Entered none context z) {fault : Fault}
    (herror : z.evaluate context = .error fault) {before after : List (List Nat)}
    (hstops : z.StopsBetween before after) :
    (t.freshChecker.after (k + 1)).table.StopsBetween
      (visitedNodes (t.freshChecker.log (k + 1))) z before after := by
  have hfailed : ∀ context value, z.evaluate context ≠ .ok value := by
    intro context' value hvalue
    rw [Phrase.evaluate_eq_of_construct hz.category context' context, herror] at hvalue
    cases hvalue
  have huntouched : ∀ i ∈ after.flatten ++ [bodySlot], ∀ slot, z.parts[i]? = some slot →
      (t.freshChecker.after (k + 1)).table.Untouched
        (visitedNodes (t.freshChecker.log (k + 1))) slot :=
    fun i hi slot hslot =>
      h.untouched_after (k + 1) hentered.mem_subphrases hslot hfailed (hstops.later i hi)
  refine ⟨?_, ?_, huntouched bodySlot (by simp)⟩
  · intro group hgroup i hi slot
    exact h.tag_of_hasNumber k hentered (hstops.earlier i (List.mem_flatten_of_mem hgroup hi))
  · intro group hgroup i hi
    exact huntouched i (List.mem_append_left _ (List.mem_flatten_of_mem hgroup hi))

section Fault

variable {fault : Fault} (h : t.Grown) (k : Nat) (hroot : t.root.evaluate none = .error fault)
  (hmem : z ∈ t.root.subphrases) (hz : z.IsCountedLoop)

include h hroot hmem hz

/-- If a fault lies within a part that has to be a number, the loop has stopped in the group of the
part. -/
theorem stopsBetween_of_slot {i : Nat} (hi : i ∈ numberSlots.flatten) {slot : Phrase}
    (hslot : z.parts[i]? = some slot) (hnode : fault.location.node ∈ slot.preOrder) :
    ∃ before group after, numberSlots = before ++ group :: after ∧ i ∈ group ∧
      (t.freshChecker.after (k + 1)).table.StopsBetween
        (visitedNodes (t.freshChecker.log (k + 1))) z before after := by
  have hnodup := Phrase.nodup_of_mem_subphrases h.nodup_preOrder hmem
  have hpart := List.mem_of_getElem? hslot
  obtain ⟨context, hentered, herror⟩ := Phrase.entered_of_error h.nodup_preOrder hroot hmem
    (Phrase.preOrder_part_subset hpart hnode)
  -- The fault has come up through this part, so neither another part nor the loop has raised it.
  have hposition : ∀ (j : Nat) (q : Phrase), z.parts[j]? = some q →
      q.evaluate (some z.category) = .error fault → j = i := by
    intro j q hq hvalue
    by_contra hne
    exact Phrase.disjoint_parts hnodup hq hslot hne (Phrase.location_mem_preOrder hvalue) hnode
  have hbelow : fault.location.node ≠ z.id := by
    intro hid
    exact Phrase.id_notMem_part hnodup hpart (hid ▸ hnode)
  cases hz.loopFails_of_error herror with
  | @slot before after group j q groups mem part value stops =>
      obtain rfl := hposition j q part value
      exact ⟨before, group, after, groups, mem, h.stopsBetween_after k hz hentered herror stops⟩
  | number _ _ _ _ _ raised _ => exact absurd (by rw [raised]; rfl) hbelow
  | body _ raised =>
      rcases raised with ⟨q, hq, hvalue⟩ | ⟨received, rfl⟩
      · obtain rfl := hposition bodySlot q hq hvalue
        exact absurd hi (by decide)
      · exact absurd rfl hbelow

/-- If a loop refuses a part that has to be a number, then it is the first part that is none, and
the loop has stopped in its group. -/
theorem stopsBetween_of_refusal {received : Tag} (hnode : fault.location.node = z.id)
    (hcause : fault.cause = .typeMismatch [.number] received) :
    ∃ before group after, numberSlots = before ++ group :: after ∧
      (t.freshChecker.after (k + 1)).table.StopsBetween
        (visitedNodes (t.freshChecker.log (k + 1))) z before after ∧
      ∃ seen i rest slot, group = seen ++ i :: rest ∧
        (∀ j ∈ seen, ∀ slot, z.parts[j]? = some slot →
          (t.freshChecker.after (k + 1)).table.tag slot.id = .ok .number) ∧
        z.parts[i]? = some slot ∧
        (t.freshChecker.after (k + 1)).table.tag slot.id = .ok received ∧
        received ≠ .number := by
  have hnodup := Phrase.nodup_of_mem_subphrases h.nodup_preOrder hmem
  obtain ⟨context, hentered, herror⟩ := Phrase.entered_of_error h.nodup_preOrder hroot hmem
    (hnode ▸ z.id_mem_preOrder)
  have hown : ∀ q ∈ z.parts, q.evaluate (some z.category) ≠ .error fault :=
    fun q hq hvalue => Phrase.location_ne_of_part hnodup hq hvalue hnode
  cases hz.loopFails_of_error herror with
  | slot _ _ part value _ => exact absurd value (hown _ (List.mem_of_getElem? part))
  | @number before after group seen rest i groups split typed numbers refused raised stops =>
      have hvisit := hz.mem_visits_of_typed typed
      obtain ⟨slot, hslot, hvalue⟩ := (Construct.orderly hz.rule?_eq).exists_part hvisit
      rw [raised] at hcause
      obtain ⟨-, rfl⟩ := Cause.typeMismatch.inj hcause
      refine ⟨before, group, after, groups, h.stopsBetween_after k hz hentered herror stops,
        seen, i, rest, slot, split, fun j hj slot => ?_, hslot, ?_, refused⟩
      · exact h.tag_of_hasNumber k hentered (numbers j hj)
      · have hpart := hentered.part typed hslot
        rw [hvalue, ← hpart.tagD_eq (h.column_after k)]
        exact h.tag_after (k + 1) hpart.mem_subphrases
  | body _ raised =>
      rcases raised with ⟨q, hq, hvalue⟩ | ⟨received', rfl⟩
      · exact absurd hvalue (hown q (List.mem_of_getElem? hq))
      · cases hcause

end Fault

/-- A counted loop takes its numbers group by group. If the fault of a run lies within one of the
parts that have to be numbers, or if the loop refuses such a part, then the groups before that part
hold numbers, and neither the groups after it nor the body have been touched. The part that a loop
refuses is the first that is no number. The body is visited only if all groups hold numbers. -/
theorem stops_group_by_group (h : t.Grown) :
    ∃ checker, Checker.start t = .ok checker ∧ ∀ k, ∀ z ∈ t.root.subphrases, z.IsCountedLoop →
      let table := (checker.after k).check.checker.table
      let visited := visitedNodes (checker.log (k + 1))
      (∀ fault, (t.root.typing none (checker.after k).state).fault = some fault →
        (checker.after k).check.result = .error fault ∧
        (∀ i ∈ numberSlots.flatten, ∀ slot, z.parts[i]? = some slot →
          fault.location.node ∈ slot.preOrder →
            ∃ before group after, numberSlots = before ++ group :: after ∧ i ∈ group ∧
              table.StopsBetween visited z before after) ∧
        (∀ received, fault.location.node = z.id →
          fault.cause = .typeMismatch [.number] received →
            ∃ before group after, numberSlots = before ++ group :: after ∧
              table.StopsBetween visited z before after ∧
              ∃ seen i rest slot, group = seen ++ i :: rest ∧
                (∀ j ∈ seen, ∀ slot, z.parts[j]? = some slot →
                  table.tag slot.id = .ok .number) ∧
                z.parts[i]? = some slot ∧ table.tag slot.id = .ok received ∧
                received ≠ .number)) ∧
      ∀ body, z.parts[bodySlot]? = some body → body.id ∈ visited →
        ∀ i ∈ numberSlots.flatten, ∀ slot, z.parts[i]? = some slot →
          table.tag slot.id = .ok .number := by
  refine ⟨_, h.start_eq_fresh, fun k z hmem hz => ⟨fun fault hfault => ?_, ?_⟩⟩
  · rw [h.fault_after k] at hfault
    have hroot := faultOf_eq_some_iff.mp hfault
    refine ⟨by rw [h.result_after k, hfault], ?_, ?_⟩
    · intro i hi slot
      exact h.stopsBetween_of_slot k hroot hmem hz hi
    · intro received
      exact h.stopsBetween_of_refusal k hroot hmem hz
  · intro body hbody hvisited i hi slot
    have hbelow := Phrase.subphrases_subset hmem
      (Phrase.part_mem_subphrases (List.mem_of_getElem? hbody))
    obtain ⟨context, hentered⟩ := h.entered_of_visited hbelow hvisited
    obtain ⟨htyped, context', hloop⟩ := hentered.typed_of_part h.nodup_preOrder hmem hbody
      body.self_mem_subphrases
    exact h.tag_of_hasNumber k hloop (hz.hasNumber_of_body htyped i hi)

end Grown

/-- A tree of a loop that counts up to a text. -/
def textBoundLoopTree : Tree :=
  let word : Phrase := .mk 0 .token "for" []
  let i : Phrase := .mk 1 .name "i" []
  let counter : Phrase := .mk 2 (.construct .numberVariable) "" [i]
  let becomes : Phrase := .mk 3 .token ":=" []
  let start : Phrase := .mk 4 .number "0" []
  let left : Phrase := .mk 5 .number "1" []
  let less : Phrase := .mk 6 .token "<" []
  let right : Phrase := .mk 7 .shortString "ten" []
  let i' : Phrase := .mk 8 .name "i" []
  let target : Phrase := .mk 9 (.construct .numberVariable) "" [i']
  let becomes' : Phrase := .mk 10 .token ":=" []
  let add : Phrase := .mk 11 .token "add" []
  let operand : Phrase := .mk 12 .number "1" []
  let amount : Phrase := .mk 13 .number "2" []
  let halt : Phrase := .mk 14 .keyword "halt" []
  let body : Phrase := .mk 15 (.construct .instruction) "" [halt]
  let root : Phrase := .mk 16 (.construct .loop) "" [word, counter, becomes, start, left, less,
    right, target, becomes', add, operand, amount, body]
  { forest := ⟨[⟨word, some 16⟩, ⟨i, some 2⟩, ⟨counter, some 16⟩, ⟨becomes, some 16⟩,
      ⟨start, some 16⟩, ⟨left, some 16⟩, ⟨less, some 16⟩, ⟨right, some 16⟩, ⟨i', some 9⟩,
      ⟨target, some 16⟩, ⟨becomes', some 16⟩, ⟨add, some 16⟩, ⟨operand, some 16⟩,
      ⟨amount, some 16⟩, ⟨halt, some 15⟩, ⟨body, some 16⟩, ⟨root, none⟩]⟩
    root }

theorem textBoundLoopTree_grown : textBoundLoopTree.Grown := by
  set_option maxRecDepth 1000 in exact grown_of_regrown rfl

/-- The loop refuses the text. The group before that of the text holds numbers, and the variable in
the group after it is never visited, nor is the name in it. -/
theorem Grown.stops_textBoundLoopTree :
    textBoundLoopTree.Grown ∧
      ∃ checker, Checker.start textBoundLoopTree = .ok checker ∧
        (textBoundLoopTree.root.typing none (checker.after 1).state).fault =
          some ⟨.typeMismatch [.number] .string, ⟨16, .construct .loop, ""⟩⟩ ∧
        (checker.after 1).check.checker.table.tag 2 = .ok .number ∧
        (checker.after 1).check.checker.table.Untouched (visitedNodes (checker.log 2))
          (.mk 9 (.construct .numberVariable) "" [.mk 8 .name "i" []]) := by
  obtain ⟨checker, hstart, hstops⟩ := stops_group_by_group textBoundLoopTree_grown
  refine ⟨textBoundLoopTree_grown, checker, hstart, ?_⟩
  obtain rfl := Except.ok.inj (hstart.symm.trans textBoundLoopTree_grown.start_eq_fresh)
  have hfault := textBoundLoopTree_grown.fault_after 1
  obtain ⟨hfaults, -⟩ := hstops 1 _ (Phrase.self_mem_subphrases _) ⟨rfl, rfl⟩
  obtain ⟨-, -, hrefusal⟩ := hfaults _ hfault
  obtain ⟨before, group, after, hgroups, hbetween, seen, i, rest, slot, hsplit, -, hslot, htag,
    -⟩ := hrefusal .string rfl rfl
  have hi : i ∈ group := by simp [hsplit]
  -- Only one of the seven parts is a text, so it is known which group is meant.
  have hsix : i = 6 := by
    have hmem : i ∈ numberSlots.flatten := by simp [hgroups, hi]
    simp only [numberSlots, List.flatten_cons, List.flatten_nil, List.cons_append, List.nil_append,
      List.mem_cons, List.not_mem_nil, or_false] at hmem
    rcases hmem with rfl | rfl | rfl | rfl | rfl | rfl | rfl <;> cases hslot <;>
      first | rfl | exact absurd htag (by decide)
  subst hsix
  have hmiddle : before = [[1, 3]] ∧ after = [[7, 10, 11]] := by
    rcases before with _ | ⟨first, _ | ⟨second, _ | ⟨third, before⟩⟩⟩
    · cases hgroups
      exact absurd hi (by decide)
    · cases hgroups
      exact ⟨rfl, rfl⟩
    · cases hgroups
      exact absurd hi (by decide)
    · simp [numberSlots] at hgroups
  obtain ⟨rfl, rfl⟩ := hmiddle
  exact ⟨hfault, hbetween.earlier [1, 3] (by simp) 1 (by simp) _ rfl,
    hbetween.later [7, 10, 11] (by simp) 7 (by simp) _ rfl⟩

end Tree

end TreeTyping
