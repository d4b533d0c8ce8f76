import TreeTyping.Proofs.Derivation
import TreeTyping.Proofs.Failure
import TreeTyping.Proofs.Openings

/-!
# The scopes of a tree that is accepted

If a check accepts a tree, then it has typed every procedure with three parts, each in its turn. So
the number that the counter of scopes has when a procedure is typed is the number of the procedure
in pre-order, and every node is recorded with the scope in which it stands. The proof goes by
induction on the phrase. Within a construct the invariant tells the scopes of the parts visited so
far and the procedures that have been counted.
-/

namespace TreeTyping

namespace Table

/-- The scope of a node, zero if the node has no record. -/
def scopeD (t : Table) (id : NodeId) : UInt32 := ((t.get? id).map (·.scope)).getD 0

section ScopeD

variable (t : Table) (id n : NodeId) (tag : Tag) (scope : UInt32) (marks : List (NodeId × Tag))

theorem scopeD_write_of_ne (h : n ≠ id) : (t.write id tag scope).scopeD n = t.scopeD n := by
  simp [scopeD, get?_write, h]

variable {id} in
theorem scopeD_write_self (h : id ∈ t.ids) : (t.write id tag scope).scopeD id = scope := by
  obtain ⟨r, hr⟩ := Option.isSome_iff_exists.mp ((isSome_get?_iff t id).mpr h)
  simp [scopeD, get?_write, hr]

@[simp] theorem scopeD_define (name : String) : (t.define name).scopeD n = t.scopeD n := by
  simp only [scopeD, get?_define, Option.map_map]
  congr 2
  funext r
  simp only [Function.comp_apply]
  split <;> rfl

@[simp] theorem scopeD_defineSome (name? : Option String) :
    (t.defineSome name?).scopeD n = t.scopeD n := by
  cases name? <;> simp [defineSome]

variable {n} in
theorem scope_eq (h : n ∈ t.ids) : t.scope n = .ok (t.scopeD n) := by
  obtain ⟨r, hr⟩ := Option.isSome_iff_exists.mp ((isSome_get?_iff t n).mpr h)
  simp [Table.scope, scopeD, get, hr, bind, Except.bind, pure, Except.pure]

variable {marks} in
theorem scopeD_writeAll_of_notMem (h : n ∉ marks.map Prod.fst) :
    (t.writeAll scope marks).scopeD n = t.scopeD n := by
  induction marks generalizing t with
  | nil => rfl
  | cons mark marks ih =>
      simp only [List.map_cons, List.mem_cons, not_or] at h
      rw [writeAll, ih _ h.2, scopeD_write_of_ne t mark.1 n mark.2 scope h.1]

variable {n marks} in
theorem scopeD_writeAll_of_mem (hmem : n ∈ marks.map Prod.fst) (hid : n ∈ t.ids) :
    (t.writeAll scope marks).scopeD n = scope := by
  induction marks generalizing t with
  | nil => cases hmem
  | cons mark marks ih =>
      by_cases hrest : n ∈ marks.map Prod.fst
      · exact ih _ hrest (by simpa using hid)
      · have hn : n = mark.1 := (List.mem_cons.mp hmem).resolve_right hrest
        rw [writeAll, scopeD_writeAll_of_notMem _ _ _ hrest, hn]
        exact scopeD_write_self t mark.2 scope (hn ▸ hid)

end ScopeD

end Table

/-- Typing a phrase keeps the scopes of all nodes outside the phrase. -/
theorem Phrase.scopeD_typing (p : Phrase) (context : Option Category) (s : State) {n : NodeId}
    (hn : n ∉ p.preOrder) :
    (p.typing context s).state.table.scopeD n = s.table.scopeD n := by
  have frame : Table.Frame p.preOrder fun t u => u.scopeD n = t.scopeD n := by
    refine ⟨fun t => rfl, fun h h' => h'.trans h, fun t id tag scope hid => ?_, ?_⟩
    · exact t.scopeD_write_of_ne id n tag scope fun he => hn (he ▸ hid)
    · exact fun t name => t.scopeD_define n name
  exact Phrase.keeps_typing frame context s

namespace Step

variable {first second : Step} {s : State}

/-- A sequence that does not fail goes through both of its steps. -/
theorem andThen_ok (h : (first.andThen second s).fault = none) :
    (first s).fault = none ∧ (second (first s).state).fault = none ∧
      (first.andThen second s).state = (second (first s).state).state := by
  cases hf : (first s).fault with
  | some fault =>
      rw [andThen_of_some hf, hf] at h
      cases h
  | none =>
      rw [andThen_of_none hf] at h ⊢
      exact ⟨rfl, h, rfl⟩

/-- A step that does not change the state. -/
def Inert (step : Step) : Prop := ∀ s : State, (step s).state = s

theorem Inert.all {steps : List Step} (h : ∀ step ∈ steps, step.Inert) : (all steps).Inert := by
  induction steps with
  | nil => exact fun s => rfl
  | cons step rest ih =>
      intro s
      have hfirst := h step (by simp) s
      rw [all_cons]
      cases hf : (step s).fault with
      | some fault => rw [andThen_of_some hf, hfirst]
      | none =>
          rw [andThen_of_none hf, hfirst]
          exact ih (fun next hnext => h next (by simp [hnext])) s

/-- Looking at tags changes nothing. -/
theorem observing_inert : Observing Inert where
  done _ := rfl
  fail _ _ := rfl
  withTag := by
    intro id next h s
    unfold withTag
    cases s.table.tag id with
    | ok tag => exact h tag s
    | error fault => rfl

end Step

section Stages

variable {p : Phrase} {s : State}

/-- A stage that does not fail leaves the state in which it has visited its parts. -/
theorem Stage.apply_ok {stage : Stage} {typings : List Step}
    (h : (stage.apply p typings s).fault = none) :
    let visits := Step.all (stage.visits.map fun part =>
      (typings[part]?).getD (.fail (p.missingPart part)))
    let out := (if stage.opensScope then visits.inNewScope else visits) s
    out.fault = none ∧ (stage.apply p typings s).state = out.state := by
  obtain ⟨hvisits, -, hstate⟩ := Step.andThen_ok h
  refine ⟨hvisits, hstate.trans ?_⟩
  apply Step.Inert.all
  intro step hstep
  obtain ⟨d, -, rfl⟩ := List.mem_map.mp hstep
  exact d.observing_test Step.observing_inert

/-- Stages that open no scope and do not fail leave the state in which all their parts have been
visited in a row. -/
theorem Rule.stages_ok {stages : List Stage}
    (hclosed : ∀ stage ∈ stages, stage.opensScope = false)
    (h : (Step.all (stages.map
      (Stage.apply p (p.parts.map (Phrase.typing (some p.category))))) s).fault = none) :
    let out := Step.all ((stages.flatMap Stage.visits).map p.visit) s
    out.fault = none ∧ (Step.all (stages.map
      (Stage.apply p (p.parts.map (Phrase.typing (some p.category))))) s).state = out.state := by
  induction stages generalizing s with
  | nil => exact ⟨rfl, rfl⟩
  | cons stage rest ih =>
      obtain ⟨hfirst, hrest, hstate⟩ := Step.andThen_ok h
      obtain ⟨hvisits, hvisited⟩ := Stage.apply_ok hfirst
      rw [if_neg (by simp [hclosed stage])] at hvisits hvisited
      rw [hvisited] at hrest hstate
      obtain ⟨hlater, hlast⟩ := ih (fun stage hstage => hclosed stage (by simp [hstage])) hrest
      have hnone : (Step.all (stage.visits.map p.visit) s).fault = none := hvisits
      rw [List.flatMap_cons, List.map_append, Step.all_append, Step.andThen_of_none hnone]
      exact ⟨hlater, hstate.trans hlast⟩

end Stages

namespace Phrase

/-- What a typing does to the scopes of a phrase: it counts the procedures of the phrase, and gives
each node the scope that going down from the phrase finds. -/
structure Numbers (p : Phrase) (s s' : State) : Prop where
  lastScope_eq : s'.lastScope.toNat = s.lastScope.toNat + p.procedures.length
  scopes : ∀ x n, Placed s.scope.toNat s.lastScope.toNat p x n →
    (s'.table.scopeD x.id).toNat = n

/-- The first typing of a phrase, with room for its procedures, numbers its scopes. -/
def Counts (p : Phrase) (context : Option Category) : Prop :=
  ∀ s : State, p.preOrder ⊆ s.table.ids → (∀ n ∈ p.preOrder, s.table.tagD n = .unbound) →
    s.lastScope.toNat + p.procedures.length < UInt32.size →
      p.Numbers s (p.typing context s).state

theorem visit_eq {p q : Phrase} {i : Nat} (hq : p.parts[i]? = some q) :
    p.visit i = q.typing (some p.category) := by
  rw [visit, List.getElem?_map, hq]
  rfl

/-- Elements that give rise to nothing can be left out. -/
theorem flatMap_eq_of_sublist {α β : Type} {l l' : List α} {f : α → List β} (h : l.Sublist l')
    (hnodup : l'.Nodup) (hf : ∀ a ∈ l', a ∉ l → f a = []) : l.flatMap f = l'.flatMap f := by
  induction h with
  | slnil => rfl
  | @cons l l' a h ih =>
      obtain ⟨ha, hnodup⟩ := List.nodup_cons.mp hnodup
      have hnone : f a = [] := hf a (by simp) fun hmem => ha (h.subset hmem)
      rw [ih hnodup fun b hb => hf b (by simp [hb]), List.flatMap_cons, hnone, List.nil_append]
  | @cons_cons l l' a h ih =>
      obtain ⟨ha, hnodup⟩ := List.nodup_cons.mp hnodup
      rw [List.flatMap_cons, List.flatMap_cons, ih hnodup fun b hb hnot => hf b (by simp [hb]) ?_]
      intro hmem
      rcases List.mem_cons.mp hmem with rfl | hmem
      · exact ha hb
      · exact hnot hmem

/-- Positions below a bound give all procedures of the parts there, if the parts at the other
positions have none. -/
theorem flatMap_itemsAt {p : Phrase} {seen : List Nat} {n : Nat}
    (hincreasing : seen.Pairwise (· < ·)) (hlt : ∀ i ∈ seen, i < n)
    (hidle : ∀ i < n, i ∉ seen → p.itemsAt procedures i = []) :
    seen.flatMap (p.itemsAt procedures) = (p.parts.take n).flatMap procedures := by
  rw [← flatMap_range_itemsAt]
  exact flatMap_eq_of_sublist (sublist_range hlt hincreasing) List.nodup_range
    fun i hi => hidle i (List.mem_range.mp hi)

/-- Within a construct that opens no scope: the parts at the seen positions have been typed and
numbered, and their procedures have been counted. -/
structure Numbering (p : Phrase) (s : State) (seen : List Nat) (s' : State) : Prop where
  underway : p.Underway seen s'.table
  scope_eq : s'.scope = s.scope
  lastScope_eq : s'.lastScope.toNat =
    s.lastScope.toNat + (seen.flatMap (p.itemsAt procedures)).length
  scopes : ∀ i ∈ seen, ∀ q, p.parts[i]? = some q → ∀ x n,
    Placed s.scope.toNat (p.countAt s.lastScope.toNat i) q x n →
      (s'.table.scopeD x.id).toNat = n

namespace Numbering

variable {p : Phrase} {visits : List Nat} {s s' : State} {seen : List Nat}
  (hnodup : p.preOrder.Nodup) (hopens : p.opensScope = false)
  (hincreasing : visits.Pairwise (· < ·)) (hlt : ∀ i ∈ visits, i < p.arity)
  (hidle : ∀ i ∉ visits, p.itemsAt procedures i = [])
  (hcounts : ∀ i ∈ visits, ∀ q, p.parts[i]? = some q → q.Counts (some p.category))
  (hroom : s.lastScope.toNat + p.procedures.length < UInt32.size)

include hopens hincreasing hidle in
/-- The counter stands at the number of procedures that come before the next part. -/
theorem countAt_eq (h : p.Numbering s seen s') {i : Nat} (hplan : seen ++ [i] <+: visits) :
    p.countAt s.lastScope.toNat i = s'.lastScope.toNat := by
  have hpair := hincreasing.sublist hplan.sublist
  have hbefore := flatMap_itemsAt (p := p) (List.pairwise_append.mp hpair).1
    (fun j hj => (List.pairwise_append.mp hpair).2.2 j hj i (by simp)) fun j hj hseen => by
      refine hidle j fun hvisit => hseen ?_
      have hmem := (mem_append_singleton_iff hplan hincreasing j).mpr ⟨hvisit, Nat.le_of_lt hj⟩
      exact (List.mem_append.mp hmem).resolve_right fun he =>
        Nat.ne_of_lt hj (List.mem_singleton.mp he)
  rw [countAt, ← hbefore, h.lastScope_eq]
  simp [hopens]

include hnodup hopens hincreasing hlt hidle hcounts hroom in
/-- Visiting the next part numbers it and keeps the scopes of the parts before it. -/
theorem visit (h : p.Numbering s seen s') {i : Nat} (hplan : seen ++ [i] <+: visits) :
    p.Numbering s (seen ++ [i]) (p.visit i s').state := by
  have hi : i ∈ visits := hplan.subset (by simp)
  obtain ⟨q, hq⟩ : ∃ q, p.parts[i]? = some q := ⟨_, List.getElem?_eq_getElem (hlt i hi)⟩
  have hmem := List.mem_of_getElem? hq
  have hnew : i ∉ seen := by
    intro hseen
    have hpair := hincreasing.sublist hplan.sublist
    exact Nat.lt_irrefl i ((List.pairwise_append.mp hpair).2.2 i hseen i (by simp))
  have hknown : q.preOrder ⊆ s'.table.ids :=
    fun n hn => h.underway.known (preOrder_part_subset hmem hn)
  have hfresh := h.underway.unbound_of_notMem hq hnew
  have hat : p.itemsAt procedures i = q.procedures := itemsAt_of_part hq
  have hcount := h.countAt_eq hopens hincreasing hidle hplan
  have hplanned : ((seen ++ [i]).flatMap (p.itemsAt procedures)).length ≤ p.procedures.length := by
    have hparts := (hplan.sublist.flatMap (p.itemsAt procedures)).trans
      (flatMap_itemsAt_sublist procedures hlt hincreasing)
    rw [procedures_eq, List.length_append]
    exact hparts.length_le.trans (Nat.le_add_left _ _)
  rw [List.flatMap_append, List.flatMap_singleton, hat, List.length_append] at hplanned
  have hlast := h.lastScope_eq
  obtain ⟨hcounted, hscopes⟩ := hcounts i hi q hq s' hknown hfresh (by omega)
  obtain ⟨-, hcolumn⟩ := q.settles (some p.category) (nodup_part hnodup hmem) s' hknown hfresh
  rw [visit_eq hq]
  refine ⟨h.underway.visit hnodup hq hcolumn, ?_, ?_, fun j hj r hr x n hplaced => ?_⟩
  · exact (pervasive_typing (Step.pervasive_restores _) _ s').trans h.scope_eq
  · rw [hcounted, hlast, List.flatMap_append, List.flatMap_singleton, hat, List.length_append]
    omega
  · rcases List.mem_append.mp hj with hj | hj
    · -- What has been typed before lies outside the part.
      have hne : j ≠ i := fun he => hnew (he ▸ hj)
      have hout : x.id ∉ q.preOrder := fun hin =>
        disjoint_parts hnodup hr hq hne (id_mem_preOrder_of_mem hplaced.mem_subphrases) hin
      rw [q.scopeD_typing _ _ hout]
      exact h.scopes j hj r hr x n hplaced
    · obtain rfl := List.mem_singleton.mp hj
      obtain rfl : q = r := Option.some.inj (hq.symm.trans hr)
      rw [hcount, ← h.scope_eq] at hplaced
      exact hscopes x n hplaced

include hnodup hopens hincreasing hlt hidle hcounts hroom in
/-- Visits along the plan that do not fail number all their parts. -/
theorem all_visits (h : p.Numbering s seen s') {rest : List Nat} (hplan : seen ++ rest = visits)
    (hok : (Step.all (rest.map p.visit) s').fault = none) :
    p.Numbering s visits (Step.all (rest.map p.visit) s').state := by
  induction rest generalizing seen s' with
  | nil =>
      rw [List.append_nil] at hplan
      exact hplan ▸ h
  | cons i rest ih =>
      obtain ⟨-, hrest, hstate⟩ := Step.andThen_ok hok
      have hnext : seen ++ [i] ++ rest = visits := by simpa using hplan
      have hvisit := h.visit hnodup hopens hincreasing hlt hidle hcounts hroom ⟨rest, hnext⟩
      rw [List.map_cons, Step.all_cons, hstate]
      exact ih hvisit hnext hrest

end Numbering

/-- After the stages of a construct: its procedures have been counted, and the parts at the given
positions have the scopes that going down from it finds. -/
structure Counted (p : Phrase) (s : State) (visits : List Nat) (s' : State) : Prop where
  scope_eq : s'.scope = s.scope
  lastScope_eq : s'.lastScope.toNat = s.lastScope.toNat + p.procedures.length
  scopes : ∀ i ∈ visits, ∀ q, p.parts[i]? = some q → ∀ x n,
    Placed (p.scopeAt s.scope.toNat s.lastScope.toNat i) (p.countAt s.lastScope.toNat i) q x n →
      (s'.table.scopeD x.id).toNat = n

section Counted

variable {p : Phrase} {visits : List Nat} {s s' : State}

theorem flatMap_itemsAt_visits (hincreasing : visits.Pairwise (· < ·))
    (hlt : ∀ i ∈ visits, i < p.arity) (hidle : ∀ i ∉ visits, p.itemsAt procedures i = []) :
    visits.flatMap (p.itemsAt procedures) = p.parts.flatMap procedures := by
  have hall := flatMap_itemsAt hincreasing hlt fun i _ => hidle i
  rwa [arity, List.take_length] at hall

theorem Numbering.counted (hopens : p.opensScope = false) (hincreasing : visits.Pairwise (· < ·))
    (hlt : ∀ i ∈ visits, i < p.arity) (hidle : ∀ i ∉ visits, p.itemsAt procedures i = [])
    (h : p.Numbering s visits s') : p.Counted s visits s' where
  scope_eq := h.scope_eq
  lastScope_eq := by
    rw [h.lastScope_eq, flatMap_itemsAt_visits hincreasing hlt hidle, procedures_eq p, hopens]
    rfl
  scopes := by
    intro i hi q hq x n hplaced
    have hscope : p.scopeAt s.scope.toNat s.lastScope.toNat i = s.scope.toNat := by
      simp [scopeAt, hopens]
    rw [hscope] at hplaced
    exact h.scopes i hi q hq x n hplaced

/-- A procedure types its body in the scope that comes next. -/
theorem counted_procedure {body : Phrase} (hopens : p.opensScope = true)
    (hidle : ∀ i ∉ [2], p.itemsAt procedures i = []) (hbody : p.parts[2]? = some body)
    (hcounts : body.Counts (some p.category)) (hunder : p.Underway [] s.table)
    (hroom : s.lastScope.toNat + p.procedures.length < UInt32.size) :
    p.Counted s [2] ((body.typing (some p.category)).inNewScope s).state := by
  have hmem := List.mem_of_getElem? hbody
  have hat : p.itemsAt procedures 2 = body.procedures := itemsAt_of_part hbody
  have hall : p.procedures.length = body.procedures.length + 1 := by
    have hparts : [2].flatMap (p.itemsAt procedures) = p.parts.flatMap procedures :=
      flatMap_itemsAt_visits (by simp) (by
        simpa [arity] using (List.getElem?_eq_some_iff.mp hbody).1) hidle
    rw [procedures_eq, if_pos hopens, ← hparts, List.flatMap_singleton, hat]
    rfl
  have hcount : p.countAt s.lastScope.toNat 2 = s.lastScope.toNat + 1 := by
    have hbefore : [].flatMap (p.itemsAt procedures) = (p.parts.take 2).flatMap procedures :=
      flatMap_itemsAt (by simp) (by simp) fun i hi _ => hidle i (by simp; omega)
    rw [countAt, if_pos hopens, ← hbefore]
    rfl
  have hfresh : (s.lastScope + 1).toNat = s.lastScope.toNat + 1 := by
    rw [UInt32.toNat_add]
    exact Nat.mod_eq_of_lt (by change s.lastScope.toNat + 1 < UInt32.size; omega)
  obtain ⟨hlast, hscopes⟩ := hcounts
    { s with scope := s.lastScope + 1, lastScope := s.lastScope + 1 }
    (fun n hn => hunder.known (preOrder_part_subset hmem hn))
    (hunder.unbound_of_notMem hbody (by simp)) (by dsimp only; omega)
  refine ⟨rfl, ?_, fun i hi q hq x n hplaced => ?_⟩
  · have hlast' : ((body.typing (some p.category)).inNewScope s).state.lastScope.toNat =
        (s.lastScope + 1).toNat + body.procedures.length := hlast
    omega
  · obtain rfl := List.mem_singleton.mp hi
    obtain rfl : body = q := Option.some.inj (hbody.symm.trans hq)
    have hscope : p.scopeAt s.scope.toNat s.lastScope.toNat 2 = s.lastScope.toNat + 1 :=
      if_pos ⟨hopens, rfl⟩
    rw [hscope, hcount, ← hfresh] at hplaced
    exact hscopes x n hplaced

end Counted

end Phrase

namespace Rule

variable {rule : Rule} {p : Phrase} {c : Construct} {s s' : State}

/-- The stages of a rule that do not fail count the procedures of the phrase. -/
theorem stages_counted (hnodup : p.preOrder.Nodup) (hc : p.category = .construct c)
    (hr : c.rule? (p.parts.map Phrase.category) = some rule)
    (hidle : ∀ i ∉ rule.visits, p.itemsAt Phrase.procedures i = [])
    (hcounts : ∀ i ∈ rule.visits, ∀ q, p.parts[i]? = some q → q.Counts (some p.category))
    (hunder : p.Underway [] s.table)
    (hroom : s.lastScope.toNat + p.procedures.length < UInt32.size)
    (hok : (Step.all (rule.stages.map
      (Stage.apply p (p.parts.map (Phrase.typing (some p.category))))) s).fault = none) :
    p.Counted s rule.visits (Step.all (rule.stages.map
      (Stage.apply p (p.parts.map (Phrase.typing (some p.category))))) s).state := by
  have orderly := Construct.orderly hr
  rcases Phrase.opensScope_cases hc hr with ⟨hopens, rfl⟩ | ⟨hopens, hclosed⟩
  · obtain ⟨body, hbody⟩ : ∃ body, p.parts[2]? = some body :=
      ⟨_, List.getElem?_eq_getElem (orderly.visits_lt 2 (by decide))⟩
    obtain ⟨hstage, -, hstate⟩ := Step.andThen_ok hok
    have hvisited := (Stage.apply_ok hstage).2
    simp only [List.getElem?_map, List.map_cons, List.map_nil, Step.all_cons, Step.all_nil,
      Step.andThen_done, if_true, hbody, Option.map_some, Option.getD_some] at hvisited
    have hcounted := Phrase.counted_procedure hopens hidle hbody
      (hcounts 2 (by decide) body hbody) hunder hroom
    rw [← hstate.trans hvisited] at hcounted
    exact hcounted
  · obtain ⟨hvisits, hstate⟩ := stages_ok hclosed hok
    have hstart : p.Numbering s [] s := ⟨hunder, rfl, by simp, by simp⟩
    rw [hstate]
    exact (hstart.all_visits hnodup hopens orderly.increasing orderly.visits_lt hidle hcounts hroom
      (List.nil_append _) hvisits).counted hopens orderly.increasing orderly.visits_lt hidle

/-- The end of a rule does not touch what lies in the parts that it has typed. -/
theorem notMem_marks_of_visited (orderly : rule.Orderly p.arity) (hnodup : p.preOrder.Nodup)
    (hnone : (rule.progress p p.values).fault = none) {i : Nat} (hi : i ∈ rule.visits)
    {q : Phrase} (hq : p.parts[i]? = some q) {n : NodeId} (hn : n ∈ q.preOrder) :
    n ∉ (rule.marks p).map Prod.fst := by
  intro hmem
  obtain ⟨mark, hmark, rfl⟩ := List.mem_map.mp hmem
  obtain ⟨tag, htag⟩ := exists_settledTag?_of_marked orderly hnodup hi hq hmark hn
  rw [orderly.settledTag?_of_visited hnone hi hq] at htag
  cases htag

/-- The end of a rule gives a tag to every word of the phrase and to the parts that it grants
one. -/
theorem mem_marks_of_left {i : Nat} {q : Phrase} (hq : p.parts[i]? = some q)
    (h : q.category.isWord = true ∨ i ∈ rule.grants.map Prod.fst) :
    q.id ∈ (rule.marks p).map Prod.fst := by
  rw [List.mem_map]
  rcases h with hword | hgrant
  · rw [← Category.isSome_settledTag?, Option.isSome_iff_exists] at hword
    obtain ⟨tag, htag⟩ := hword
    have hmem : (q.id, tag) ∈ wordMarks p :=
      List.mem_filterMap.mpr ⟨q, List.mem_of_getElem? hq, by simp [htag]⟩
    exact ⟨_, List.mem_append_right _ (List.mem_append_left _ hmem), rfl⟩
  · obtain ⟨grant, hmem, rfl⟩ := List.mem_map.mp hgrant
    have hmem : (q.id, grant.2) ∈ rule.grantMarks p :=
      List.mem_filterMap.mpr ⟨grant, hmem, by simp [hq]⟩
    exact ⟨_, List.mem_append_left _ hmem, rfl⟩

/-- A procedure that opens a scope types its body. -/
theorem body_mem_visits (hc : p.category = .construct c)
    (hr : c.rule? (p.parts.map Phrase.category) = some rule) (hopens : p.opensScope = true) :
    2 ∈ rule.visits := by
  rcases Phrase.opensScope_cases hc hr with ⟨-, rfl⟩ | ⟨hclosed, -⟩
  · decide
  · exact absurd (hopens.symm.trans hclosed) (by decide)

end Rule

namespace Phrase

variable {p q : Phrase} {context : Option Category} {tag : Tag} {c : Construct} {rule : Rule}

/-- In a typed construct, the parts that its rule visits are typed. -/
theorem Typed.of_visited (h : p.Typed context tag) (hc : p.category = .construct c)
    (hr : c.rule? (p.parts.map category) = some rule) {i : Nat} (hq : p.parts[i]? = some q)
    (hi : i ∈ rule.visits) : ∃ tag', q.Typed (some p.category) tag' := by
  obtain ⟨id, category', l, ps⟩ := p
  cases hc
  rw [parts_mk] at hr hq
  rw [(Construct.serves hr).visits_eq] at hi
  obtain ⟨tag', hvalue, -⟩ := exists_tag_of_slot h.1 hi hq
  have hpart := (typed_construct_iff.mp h).2.2 (q, i) (List.mk_mem_zipIdx_iff_getElem?.mpr hq)
  rw [if_pos hi] at hpart
  exact ⟨tag', hvalue, hpart⟩

/-- The other parts are leaves that receive a tag at the end. -/
theorem Typed.of_left (h : p.Typed context tag) (hc : p.category = .construct c)
    (hr : c.rule? (p.parts.map category) = some rule) {i : Nat} (hq : p.parts[i]? = some q)
    (hi : i ∉ rule.visits) : q.parts = [] ∧ q.id ∈ (rule.marks p).map Prod.fst := by
  obtain ⟨id, category', l, ps⟩ := p
  cases hc
  rw [parts_mk] at hr hq
  have serves := Construct.serves hr
  have hpart := (typed_construct_iff.mp h).2.2 (q, i) (List.mk_mem_zipIdx_iff_getElem?.mpr hq)
  rw [if_neg (serves.visits_eq ▸ hi), ← serves.grants_eq] at hpart
  exact ⟨hpart.1, Rule.mem_marks_of_left hq hpart.2⟩

/-- A leaf that is given its tag at once stands in the scope in which it is typed. -/
theorem counts_of_assign (hparts : p.parts = [])
    (htype : p.typeAs context (p.parts.map (typing (some p.category))) = .assign p.id tag) :
    p.Counts context := by
  intro s hknown hfresh _
  have hid := hknown p.id_mem_preOrder
  rw [typing_of_unbound hid (hfresh p.id p.id_mem_preOrder), htype, Step.assign_eq hid]
  refine ⟨by simp [procedures_of_parts_eq_nil hparts], fun x n hplaced => ?_⟩
  cases hplaced with
  | top => exact congrArg UInt32.toNat (Table.scopeD_write_self _ _ _ hid)
  | part hq _ => simp [hparts] at hq

/-- The end of a rule puts the phrase and its leaves into the scope in which it is typed. -/
theorem Counted.numbers {s s' : State} (h : p.Counted s rule.visits s')
    (hnodup : p.preOrder.Nodup) (htyped : p.Typed context tag) (hc : p.category = .construct c)
    (hr : c.rule? (p.parts.map category) = some rule)
    (hnone : (rule.progress p p.values).fault = none) (hknown : p.preOrder ⊆ s'.table.ids) :
    p.Numbers s { s' with
      table := (s'.table.defineSome (rule.definedText? p)).writeAll s'.scope (rule.marks p) } where
  lastScope_eq := h.lastScope_eq
  scopes := by
    have orderly := Construct.orderly hr
    intro x n hplaced
    cases hplaced with
    | top =>
        rw [Table.scopeD_writeAll_of_mem, h.scope_eq]
        · simp [Rule.marks]
        · simpa using hknown p.id_mem_preOrder
    | @part _ _ i _ _ q _ hq inner =>
        by_cases hi : i ∈ rule.visits
        · have hx := id_mem_preOrder_of_mem inner.mem_subphrases
          rw [Table.scopeD_writeAll_of_notMem _ _ _
            (Rule.notMem_marks_of_visited orderly hnodup hnone hi hq hx), Table.scopeD_defineSome]
          exact h.scopes i hi q hq x n inner
        · obtain ⟨hleaf, hmark⟩ := htyped.of_left hc hr hq hi
          have hscope : p.scopeAt s.scope.toNat s.lastScope.toNat i = s.scope.toNat := by
            refine if_neg ?_
            rintro ⟨hopens, rfl⟩
            exact hi (Rule.body_mem_visits hc hr hopens)
          have hid := hknown (preOrder_part_subset (List.mem_of_getElem? hq) q.id_mem_preOrder)
          cases inner with
          | top =>
              rw [Table.scopeD_writeAll_of_mem _ _ hmark (by simpa using hid), h.scope_eq, hscope]
          | part hq' _ => simp [hleaf] at hq'

/-- A typed construct counts the procedures of its parts. -/
theorem Typed.counts_construct (h : p.Typed context tag) (hnodup : p.preOrder.Nodup)
    (hc : p.category = .construct c) (hparts : ∀ q ∈ p.parts, ∀ tag',
      q.Typed (some p.category) tag' → q.Counts (some p.category)) : p.Counts context := by
  intro s hknown hfresh hroom
  have hunder := Underway.of_fresh hknown hfresh
  obtain ⟨rule, hr, hnone, -⟩ := exists_rule_of_ok hc h.1
  have orderly := Construct.orderly hr
  obtain ⟨hfault, hunder'⟩ := Rule.stages_underway orderly hnodup
    (fun q hq => q.settles _ (nodup_part hnodup hq)) s hunder
  rw [hnone] at hfault
  have hidle : ∀ i ∉ rule.visits, p.itemsAt procedures i = [] := by
    intro i hi
    cases hq : p.parts[i]? with
    | none => simp [itemsAt, hq]
    | some q => simp [itemsAt, hq, procedures_of_parts_eq_nil (h.of_left hc hr hq hi).1]
  have hcounts : ∀ i ∈ rule.visits, ∀ q, p.parts[i]? = some q → q.Counts (some p.category) := by
    intro i hi q hq
    obtain ⟨tag', htyped⟩ := h.of_visited hc hr hq hi
    exact hparts q (List.mem_of_getElem? hq) tag' htyped
  have hcounted := Rule.stages_counted hnodup hc hr hidle hcounts hunder hroom hfault
  have htype : p.typeAs context (p.parts.map (typing (some p.category))) =
      rule.apply p (p.parts.map (typing (some p.category))) := by
    simp only [typeAs, hc, hr]
  rw [typing_of_unbound (hknown p.id_mem_preOrder) hunder.top, htype, Rule.apply, Step.all_append,
    Step.andThen_of_none hfault, Rule.finish_eq orderly hunder'.known]
  exact hcounted.numbers hnodup h hc hr hnone hunder'.known

/-- The first typing of a typed phrase numbers its scopes. -/
theorem Typed.counts (hnodup : p.preOrder.Nodup) (h : p.Typed context tag) : p.Counts context := by
  induction p using Phrase.induction generalizing context tag with
  | step i c l ps ih =>
      cases c with
      | number | shortString =>
          obtain ⟨-, -, hparts⟩ := (typed_leaf_iff (by simp)).mp h
          exact counts_of_assign hparts rfl
      | keyword | token | operator op =>
          obtain ⟨hvalue, hne, -⟩ := (typed_leaf_iff (by simp)).mp h
          cases hvalue
          exact absurd rfl hne
      | name =>
          obtain ⟨hvalue, -, hparts⟩ := (typed_leaf_iff (by simp)).mp h
          have htype := (mk i .name l ps).typeName_eq context
          rw [show (mk i .name l ps).nameValue context = .ok tag from hvalue] at htype
          exact counts_of_assign hparts htype
      | construct c =>
          refine h.counts_construct hnodup rfl fun q hq tag' htyped => ?_
          exact ih q hq (nodup_part hnodup hq) htyped

end Phrase

namespace Tree

variable {t : Tree}

namespace Grown

/-- The first run on a tree that it accepts numbers the scopes of the tree. -/
theorem numbers_root (h : t.Grown) {tag : Tag} (hok : t.freshChecker.check.result = .ok tag) :
    t.root.Numbers t.freshChecker.state t.freshChecker.check.checker.state := by
  rw [Checker.checker_check]
  refine Phrase.Typed.counts h.nodup_preOrder ((h.check_eq_ok_iff tag).mp hok).1 _ ?_ ?_ ?_
  · exact h.ids_blankTable ▸ List.Subset.refl _
  · exact fun n _ => t.tagD_blankTable n
  · have hprocedures := t.root.length_procedures_lt.trans_le h.size_root_le
    have hstart : t.freshChecker.state.lastScope.toNat = 0 := rfl
    have hcapacity : Forest.capacity = UInt32.size := rfl
    omega

/-- After every run a checker is back in the outermost scope. The counter of scopes does not
overflow in the first run. If that run accepts the tree, then the counter stands at the number of
procedures, and every node is recorded with the number of the innermost procedure in whose body it
lies. -/
theorem scope_eq_number (h : t.Grown) :
    ∃ checker, Checker.start t = .ok checker ∧
      (∀ k, (checker.after k).state.scope = 0) ∧
      (∀ context p s, t.root.Reaches checker.state context p s → p.opensScope = true →
        s.lastScope.toNat + 1 < UInt32.size) ∧
      ∀ tag, checker.check.result = .ok tag →
        checker.check.checker.state.lastScope.toNat = t.root.procedures.length ∧
        ∀ x ∈ t.root.subphrases, ∃ n, checker.check.checker.table.scope x.id = .ok n ∧
          t.root.ScopeNumber x n.toNat := by
  refine ⟨_, h.start_eq_fresh, fun k => Checker.scope_after _ k,
    fun context p s hreach hopens => h.lastScope_lt hreach hopens, fun tag hok => ?_⟩
  obtain ⟨hlast, hscopes⟩ := h.numbers_root hok
  constructor
  · rw [hlast]
    exact Nat.zero_add _
  · intro x hx
    obtain ⟨n, hplaced⟩ := Phrase.Placed.of_mem hx 0 0
    have hknown : x.id ∈ t.freshChecker.check.checker.table.ids := by
      rw [show t.freshChecker.check.checker.table.ids = t.root.preOrder from h.ids_after 1]
      exact Phrase.id_mem_preOrder_of_mem hx
    have hscope : (t.freshChecker.check.checker.table.scopeD x.id).toNat = n :=
      hscopes x n hplaced
    refine ⟨_, Table.scope_eq _ hknown, ?_⟩
    rw [hscope]
    exact hplaced.scopeNumber_root h.nodup_preOrder

end Grown

/-- A tree of two procedures, the first of which has a procedure as its body. -/
def nestedProcedureTree : Tree :=
  let word : Phrase := .mk 0 .token "proc" []
  let f : Phrase := .mk 1 .name "f" []
  let word' : Phrase := .mk 2 .token "proc" []
  let g : Phrase := .mk 3 .name "g" []
  let halt : Phrase := .mk 4 .keyword "halt" []
  let stop : Phrase := .mk 5 (.construct .instruction) "" [halt]
  let inner : Phrase := .mk 6 (.construct .procedure) "" [word', g, stop]
  let body : Phrase := .mk 7 (.construct .procedures) "" [inner]
  let first : Phrase := .mk 8 (.construct .procedure) "" [word, f, body]
  let word'' : Phrase := .mk 9 .token "proc" []
  let h : Phrase := .mk 10 .name "h" []
  let halt' : Phrase := .mk 11 .keyword "halt" []
  let stop' : Phrase := .mk 12 (.construct .instruction) "" [halt']
  let second : Phrase := .mk 13 (.construct .procedure) "" [word'', h, stop']
  let root : Phrase := .mk 14 (.construct .procedures) "" [first, second]
  { forest := ⟨[⟨word, some 8⟩, ⟨f, some 8⟩, ⟨word', some 6⟩, ⟨g, some 6⟩, ⟨halt, some 5⟩,
      ⟨stop, some 6⟩, ⟨inner, some 7⟩, ⟨body, some 8⟩, ⟨first, some 14⟩, ⟨word'', some 13⟩,
      ⟨h, some 13⟩, ⟨halt', some 12⟩, ⟨stop', some 13⟩, ⟨second, some 14⟩, ⟨root, none⟩]⟩
    root }

theorem nestedProcedureTree_grown : nestedProcedureTree.Grown :=
  grown_of_regrown rfl

/-- The keyword in the inner procedure stands in the second scope. The second procedure outside is
come to after two scopes have been opened. -/
theorem Grown.scope_nestedProcedureTree :
    nestedProcedureTree.Grown ∧ ∃ checker, Checker.start nestedProcedureTree = .ok checker ∧
      checker.check.result = .ok .wellTyped ∧
      checker.check.checker.state.lastScope = 3 ∧
      checker.check.checker.table.scope 4 = .ok 2 ∧
      nestedProcedureTree.root.ScopeNumber (.mk 4 .keyword "halt" []) 2 ∧
      (∃ second s, nestedProcedureTree.root.parts[1]? = some second ∧
        nestedProcedureTree.root.Reaches checker.state (some (.construct .procedures)) second s ∧
        s.lastScope = 2 ∧ s.lastScope.toNat + 1 < UInt32.size) ∧
      (checker.after 2).state.scope = 0 := by
  have hgrown := nestedProcedureTree_grown
  obtain ⟨checker, hstart, hscope, hroom, hnumbers⟩ := scope_eq_number hgrown
  refine ⟨hgrown, checker, hstart, ?_⟩
  obtain rfl := Except.ok.inj (hstart.symm.trans hgrown.start_eq_fresh)
  have hresult : nestedProcedureTree.freshChecker.check.result = .ok .wellTyped := by decide
  have hreach : nestedProcedureTree.root.Reaches nestedProcedureTree.freshChecker.state
      (some (.construct .procedures)) _ _ :=
    @Phrase.Reaches.part nestedProcedureTree.root _ none nestedProcedureTree.root _ _ .procedures
      _ [] [] _ [0] [] 1 .top rfl rfl rfl rfl rfl rfl _ _ rfl rfl rfl rfl
  obtain ⟨n, hn, hnumber⟩ := (hnumbers .wellTyped hresult).2 (.mk 4 .keyword "halt" [])
    (by simp [nestedProcedureTree, Phrase.subphrases, Phrase.subphrasesAll])
  cases hn
  exact ⟨hresult, rfl, rfl, hnumber, ⟨_, _, rfl, hreach, rfl, hroom _ _ _ hreach rfl⟩, hscope 2⟩

end Tree

end TreeTyping
