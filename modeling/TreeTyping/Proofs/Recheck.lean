import TreeTyping.Proofs.Refinement

/-!
# Checking a tree again

A table that holds the tags of a typing is a resting point. Typing the phrase again retraces
the way to the same fault and writes nothing. Parts that have been typed are skipped, and the
only phrases that are entered again are those on the way to the fault, which are unbound. So
a checker can be run any number of times: every run returns what the first returned and
leaves its table.
-/

namespace TreeTyping

/-- Typing a phrase from its own tags ends in the fault of its evaluation and changes
nothing. -/
def Phrase.Rests (p : Phrase) (context : Option Category) : Prop :=
  ∀ s : State, p.preOrder ⊆ s.table.ids → s.table.column p = p.tagging context →
    (p.typing context s).fault = faultOf (p.evaluate context) ∧
      (p.typing context s).state.table = s.table

namespace Rule

variable {rule : Rule} {p : Phrase}

section Rest

variable {t : Table} (h : p.Underway (rule.progress p p.values).visited t)

include h

/-- The table never changes, so it knows all parts that are visited from the start. -/
theorem rest_reads (seen : List Nat) (u : Table)
    (hseen : seen <+: (rule.progress p p.values).visited) (hu : u = t) : rule.Reads p seen u := by
  subst u
  intro i hi hlook
  exact h.reads (rule.progress_keeps p p.values).1.subset i hi
    (hlook.imp_left fun hmem => hseen.subset hmem)

/-- A part that is visited again carries its tags already. -/
theorem rest_part {seen : List Nat} {i : Nat} {q : Phrase} (hq : p.parts[i]? = some q)
    (hseen : seen ++ [i] <+: (rule.progress p p.values).visited) :
    q.preOrder ⊆ t.ids ∧ t.column q = q.tagging (some p.category) := by
  constructor
  · exact fun n hn => h.known (Phrase.preOrder_part_subset (List.mem_of_getElem? hq) hn)
  · exact (h.parts i q hq).trans (Phrase.taggingAt_of_mem (hseen.subset (by simp)) _)

theorem rest_visit (hparts : ∀ q ∈ p.parts, q.Rests (some p.category)) (seen : List Nat) (i : Nat)
    (q : Phrase) (hq : p.parts[i]? = some q)
    (hseen : seen ++ [i] <+: (rule.progress p p.values).visited) :
    (q.typing (some p.category)).Follows (fun _ u => u = t) seen
      ⟨[i], faultOf (q.evaluate (some p.category))⟩ := by
  intro s hs
  subst t
  obtain ⟨hknown, hcolumn⟩ := rest_part h hq hseen
  exact hparts q (List.mem_of_getElem? hq) s hknown hcolumn

end Rest

/-- The stages of a rule that has failed fail again in the same way, and change nothing. -/
theorem stages_rest (orderly : rule.Orderly p.arity)
    (hparts : ∀ q ∈ p.parts, q.Rests (some p.category)) {s : State}
    (h : p.Underway (rule.progress p p.values).visited s.table) :
    let out := Step.all (rule.stages.map
      (Stage.apply p (p.parts.map (Phrase.typing (some p.category))))) s
    out.fault = (rule.progress p p.values).fault ∧ out.state.table = s.table :=
  stages_follow orderly (rest_reads h) (rest_visit h hparts) s rfl

end Rule

namespace Phrase

variable {p : Phrase} {context : Option Category}

/-- A phrase with a tag is skipped. -/
theorem rests_of_bound {tag : Tag} (hvalue : p.evaluate context = .ok tag)
    (hne : tag ≠ .unbound) : p.Rests context := by
  intro s hknown hcolumn
  have htop := ((Table.column_eq_tagging_iff p context).mp hcolumn).1
  rw [hvalue, tagOf_ok] at htop
  rw [typing_of_bound (hknown p.id_mem_preOrder) (htop ▸ hne), hvalue]
  exact ⟨rfl, rfl⟩

/-- A phrase without a tag whose typing changes nothing. -/
theorem rests_of_unchanged (hvalue : tagOf (p.evaluate context) = .unbound)
    (htype : ∀ s, p.typeAs context (p.parts.map (typing (some p.category))) s =
      { state := s, fault := faultOf (p.evaluate context) }) : p.Rests context := by
  intro s hknown hcolumn
  have htop := ((Table.column_eq_tagging_iff p context).mp hcolumn).1
  rw [typing_of_unbound (hknown p.id_mem_preOrder) (htop.trans hvalue), htype]
  exact ⟨rfl, rfl⟩

section Rule

variable {c : Construct} {rule : Rule} (hc : p.category = .construct c)
  (hr : c.rule? (p.parts.map category) = some rule)

include hc hr

/-- A construct that has failed is visited again and goes through its stages once more. -/
theorem typing_of_failed (hparts : ∀ q ∈ p.parts, q.Rests (some p.category)) {fault : Fault}
    (hf : (rule.progress p p.values).fault = some fault) {s : State}
    (hknown : p.preOrder ⊆ s.table.ids) (hcolumn : s.table.column p = p.tagging context) :
    p.Underway (rule.progress p p.values).visited s.table ∧
      p.typing context s =
        let out := Step.all (rule.stages.map
          (Stage.apply p (p.parts.map (typing (some p.category))))) s
        { out with events := .visiting p.id p.category :: out.events } := by
  obtain ⟨htop, hcolumns⟩ := (Table.column_eq_tagging_iff p context).mp hcolumn
  rw [evaluate_construct hc hr, hf, tagOf_error] at htop
  have hfate : p.fate = ⟨(rule.progress p p.values).visited, fun _ _ => .unbound⟩ := by
    simp [fate, hc, hr, Rule.fate, hf]
  have hunder : p.Underway (rule.progress p p.values).visited s.table :=
    ⟨hknown, htop, hfate ▸ hcolumns⟩
  obtain ⟨hfault, -⟩ := Rule.stages_rest (Construct.orderly hr) hparts hunder
  have htype : p.typeAs context (p.parts.map (typing (some p.category))) s =
      Step.all (rule.stages.map
        (Stage.apply p (p.parts.map (typing (some p.category))))) s := by
    simp only [typeAs, hc, hr, Rule.apply, Step.all_append]
    exact Step.andThen_of_some (hc ▸ hfault.trans hf) _
  refine ⟨hunder, ?_⟩
  rw [typing_of_unbound (hknown p.id_mem_preOrder) htop, htype]

/-- A construct that follows its rule. -/
theorem rests_of_rule (hparts : ∀ q ∈ p.parts, q.Rests (some p.category)) : p.Rests context := by
  have orderly := Construct.orderly hr
  have hvalue := evaluate_construct hc hr context
  cases hf : (rule.progress p p.values).fault with
  | none =>
      rw [hf] at hvalue
      exact rests_of_bound hvalue orderly.result_ne
  | some fault =>
      rw [hf] at hvalue
      intro s hknown hcolumn
      obtain ⟨hunder, htyping⟩ := typing_of_failed hc hr hparts hf hknown hcolumn
      obtain ⟨hfault, htable⟩ := Rule.stages_rest orderly hparts hunder
      rw [htyping, hvalue]
      exact ⟨hfault.trans hf, htable⟩

end Rule

/-- The tags of a typing are a resting point of the typing. -/
theorem rests (p : Phrase) (context : Option Category) : p.Rests context := by
  induction p using Phrase.induction generalizing context with
  | step i c l ps ih =>
      cases c with
      | number | shortString => exact rests_of_bound rfl (by decide)
      | keyword | token | operator op => exact rests_of_unchanged rfl fun s => rfl
      | name =>
          have htype := (mk i .name l ps).typeName_eq context
          cases hvalue : (mk i .name l ps).nameValue context with
          | ok tag => exact rests_of_bound hvalue (nameValue_ne_unbound hvalue)
          | error fault =>
              rw [hvalue] at htype
              have hevaluate : (mk i .name l ps).evaluate context = .error fault := hvalue
              refine rests_of_unchanged (by rw [hevaluate]; rfl) fun s => ?_
              rw [hevaluate]
              exact congrFun htype s
      | construct c =>
          cases hr : c.rule? (ps.map category) with
          | some rule =>
              exact rests_of_rule (p := mk i (.construct c) l ps) rfl hr fun q hq => ih q hq _
          | none =>
              have hvalue := evaluate_misfit (p := mk i (.construct c) l ps) rfl hr context
              refine rests_of_unchanged (by rw [hvalue]; rfl) fun s => ?_
              simp only [typeAs, category_mk, parts_mk, hr, hvalue, faultOf_error]
              rfl

end Phrase

namespace Checker

/-- The run of a checker after a number of earlier runs. -/
def rerun (c : Checker) : Nat → Run
  | 0 => c.check
  | k + 1 => (c.rerun k).checker.check

/-- A checker whose table holds the tags of its tree. -/
structure AtRest (c : Checker) : Prop where
  known : c.tree.root.preOrder ⊆ c.table.ids
  column_eq : c.table.column c.tree.root = c.tree.root.tagging none

/-- A run from a resting point returns what the tree calls for and keeps the table. -/
theorem AtRest.check {c : Checker} (h : c.AtRest) :
    c.check.result =
        (match faultOf (c.tree.root.evaluate none) with
        | some fault => .error fault
        | none => c.table.verdict c.tree.root) ∧
      c.check.checker.tree = c.tree ∧ c.check.checker.table = c.table := by
  obtain ⟨hfault, htable⟩ := c.tree.root.rests none c.state h.known h.column_eq
  rw [result_check, checker_check, hfault, htable]
  exact ⟨rfl, rfl, htable⟩

theorem AtRest.congr {c c' : Checker} (h : c.AtRest) (htree : c'.tree = c.tree)
    (htable : c'.table = c.table) : c'.AtRest := by
  constructor
  · rw [htree, htable]
    exact h.known
  · rw [htree, htable]
    exact h.column_eq

/-- If the first run ends at rest, then every later run keeps what it has left. -/
theorem AtRest.rerun {c : Checker} (h : c.check.checker.AtRest) (k : Nat) :
    (c.rerun k).checker.tree = c.check.checker.tree ∧
      (c.rerun k).checker.table = c.check.checker.table := by
  induction k with
  | zero => exact ⟨rfl, rfl⟩
  | succ k ih =>
      obtain ⟨htree, htable⟩ := ih
      obtain ⟨-, htree', htable'⟩ := (h.congr htree htable).check
      exact ⟨htree'.trans htree, htable'.trans htable⟩

end Checker

namespace Tree.Grown

variable {t : Tree}

/-- After its first run a checker is at rest. -/
theorem atRest_check (h : t.Grown) :
    (Checker.mk t { table := t.blankTable }).check.checker.AtRest := by
  rw [Checker.checker_check]
  refine ⟨?_, h.settles_root.2⟩
  change t.root.preOrder ⊆ (t.root.typing none { table := t.blankTable }).state.table.ids
  rw [h.ids_typing]
  exact List.Subset.refl _

theorem result_check_eq (h : t.Grown) :
    (Checker.mk t { table := t.blankTable }).check.result =
      match faultOf (t.root.evaluate none) with
      | some fault => .error fault
      | none => (Checker.mk t { table := t.blankTable }).check.checker.table.verdict t.root := by
  rw [Checker.result_check, Checker.checker_check, h.settles_root.1]
  rfl

/-- Every run of a checker returns the result of the first run, a fault included, and leaves
the table of the first run. -/
theorem rerun_eq_first (h : t.Grown) :
    ∃ checker, Checker.start t = .ok checker ∧ ∀ k,
      (checker.rerun k).result = checker.check.result ∧
        (checker.rerun k).checker.table = checker.check.checker.table := by
  refine ⟨_, h.start_eq, fun k => ⟨?_, (h.atRest_check.rerun k).2⟩⟩
  cases k with
  | zero => rfl
  | succ k =>
      obtain ⟨htree, htable⟩ := h.atRest_check.rerun k
      obtain ⟨hresult, -⟩ := (h.atRest_check.congr htree htable).check
      have hfirst : (Checker.mk t { table := t.blankTable }).check.checker.tree = t := by
        rw [Checker.checker_check]
      rw [htree, htable, hfirst] at hresult
      exact hresult.trans h.result_check_eq.symm

/-- A checker that has failed within a procedure fails in the same way the third time. -/
theorem rerun_brokenProcedureTree :
    brokenProcedureTree.Grown ∧
      ∃ checker, Checker.start brokenProcedureTree = .ok checker ∧
        (checker.rerun 2).result =
          .error ⟨.typeMismatch [.number] .string, ⟨4, .construct .assignment, ""⟩⟩ ∧
        (checker.rerun 2).checker.table = checker.check.checker.table := by
  obtain ⟨checker, hstart, hruns⟩ := rerun_eq_first brokenProcedureTree_grown
  refine ⟨brokenProcedureTree_grown, checker, hstart, ?_, (hruns 2).2⟩
  obtain rfl := Except.ok.inj (hstart.symm.trans brokenProcedureTree_grown.start_eq)
  rw [(hruns 2).1, brokenProcedureTree_grown.result_check_eq]
  rfl

end Tree.Grown

end TreeTyping
