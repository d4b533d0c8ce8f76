import TreeTyping.Proofs.Coupling
import TreeTyping.Proofs.Totality

/-!
# Texts do not influence types

Two trees may have the same nodes, categories and children and differ in the texts at their nodes.
Texts decide which records count as defined, and nothing else: every run gives the two trees the
same tags and scopes, and ends in the same way.
-/

namespace TreeTyping

/-- The nodes of a forest without their texts. -/
def Forest.skeleton (f : Forest) : List (NodeId × Category × List NodeId) :=
  f.nodes.map fun n => (n.id, n.category, n.children)

/-- A record without its text and without what is known about the text. -/
def Record.bare (r : Record) : Record := { r with lexeme := "", definition := .undefined }

/-- A cause without the text of an ambiguous name. -/
def Cause.bare : Cause → Cause
  | .ambiguousName _ context => .ambiguousName "" context
  | cause => cause

/-- A fault without the text at its node and without that of an ambiguous name. -/
def Fault.bare (fault : Fault) : Fault where
  cause := fault.cause.bare
  location := { fault.location with lexeme := "" }

theorem Record.bare_ite_defined (r : Record) (c : Prop) [Decidable c] :
    (if c then { r with definition := .defined } else r).bare = r.bare := by
  split <;> rfl

/-- Nodes belong together if they are the same node of a list. All texts belong together, and
records do if they differ at most in their texts. -/
def Coupling.ofNodes (ids : List NodeId) : Coupling where
  node a a' := a = a' ∧ a ∈ ids
  text _ _ := True
  record r r' := r.bare = r'.bare ∧ r.id ∈ ids
  biunique := by
    rintro a b a' b' ⟨rfl, -⟩ ⟨rfl, -⟩
    rfl
  record_node := by
    rintro r r' ⟨hbare, hid⟩
    exact ⟨show r.bare.id = r'.bare.id by rw [hbare], hid⟩
  record_category := by
    rintro r r' ⟨hbare, -⟩
    exact show r.bare.category = r'.bare.category by rw [hbare]
  record_text _ := trivial
  record_tag := by
    rintro r r' ⟨hbare, -⟩
    exact show r.bare.tag = r'.bare.tag by rw [hbare]
  record_write := by
    rintro r r' tag scope ⟨hbare, hid⟩
    exact ⟨congrArg (fun r : Record => { r with tag, scope }) hbare, hid⟩
  record_define := by
    rintro r r' name name' ⟨hbare, hid⟩ -
    refine ⟨?_, ?_⟩
    · rw [Record.bare_ite_defined, Record.bare_ite_defined, hbare]
    · split <;> exact hid

namespace Coupling

theorem Phrases.of_parts {K : Coupling} {p p' : Phrase} (node : K.node p.id p'.id)
    (category : p.category = p'.category) (text : K.text p.lexeme p'.lexeme)
    (parts : List.Forall₂ K.Phrases p.parts p'.parts) : K.Phrases p p' := by
  cases p
  cases p'
  cases category
  exact .mk node text parts

/-- Apart from the fault of a bound procedure name, causes that belong together differ at most in
the text of an ambiguous name. -/
theorem Causes.bare_eq {K : Coupling} {cause cause' : Cause} (h : K.Causes cause cause')
    (hunbound : ∀ name bound, cause ≠ .procedureBound name bound) : cause.bare = cause'.bare := by
  cases h with
  | typeMismatch | ambiguousName | invalidArity | residual => rfl
  | procedureBound => exact absurd rfl (hunbound _ _)

/-- Runs of coupled checkers keep their states coupled and end alike. -/
theorem Phrases.check_after {K : Coupling} {c c' : Checker}
    (hroot : K.Phrases c.tree.root c'.tree.root) (h : K.States c.state c'.state) (k : Nat) :
    K.States (c.after k).state (c'.after k).state ∧
      K.Results (c.after k).check.result (c'.after k).check.result := by
  have hroots : ∀ k, K.Phrases (c.after k).tree.root (c'.after k).tree.root := by
    intro k
    rw [c.tree_after, c'.tree_after]
    exact hroot
  have hstates : K.States (c.after k).state (c'.after k).state := by
    induction k with
    | zero => exact h
    | succ k ih => exact ((hroots k).check ih).2
  exact ⟨hstates, ((hroots k).check hstates).1⟩

/-- Apart from the fault of a bound procedure name, results that belong together differ at most in
the texts of a fault. -/
theorem Results.mapError_bare {ids : List NodeId} {result result' : Except Fault Tag}
    (h : (ofNodes ids).Results result result')
    (hunbound : ∀ fault, result = .error fault → ∀ name bound,
      fault.cause ≠ .procedureBound name bound) :
    result.mapError Fault.bare = result'.mapError Fault.bare := by
  cases h with
  | ok tag => rfl
  | @error fault fault' faults =>
      have hcause := faults.cause.bare_eq (hunbound fault rfl)
      have hnode : fault.location.node = fault'.location.node := faults.node.1
      simp only [Except.mapError, Fault.bare, hcause, hnode, faults.category]

end Coupling

namespace Forest

variable {f g : Forest}

/-- Nodes at the same position of forests with the same skeleton have the same category and the
same children. -/
theorem skeleton_getElem? (h : f.skeleton = g.skeleton) {i : NodeId} {n m : Node}
    (hn : f.nodes[i]? = some n) (hm : g.nodes[i]? = some m) :
    n.category = m.category ∧ n.children = m.children := by
  have hi := congrArg (·[i]?) h
  simp only [skeleton, List.getElem?_map, hn, hm, Option.map_some, Option.some.injEq,
    Prod.mk.injEq] at hi
  exact hi.2

/-- In forests with the same skeleton, phrases under the same name are built alike. -/
theorem WellFormed.phrases_of_skeleton (wf : f.WellFormed) (wg : g.WellFormed)
    (h : f.skeleton = g.skeleton) {ids : List NodeId} {p : Phrase} {n m : Node}
    (hids : p.preOrder ⊆ ids) (hn : f.nodes[p.id]? = some n) (hp : n.phrase = p)
    (hm : g.nodes[p.id]? = some m) : (Coupling.ofNodes ids).Phrases p m.phrase := by
  induction p using Phrase.induction generalizing n m with
  | step i c l ps ih =>
      obtain ⟨hcategory, hchildren⟩ := skeleton_getElem? h hn hm
      have hparts : ps.map Phrase.id = m.phrase.parts.map Phrase.id := by
        simpa only [Node.children, hp, Phrase.parts_mk] using hchildren
      rw [Node.category, hp] at hcategory
      have hid := hids (Phrase.id_mem_preOrder _)
      refine .of_parts ⟨(wg.named i m hm).symm, hid⟩ hcategory trivial ?_
      refine List.forall₂_iff_get.mpr ⟨by simpa using congrArg List.length hparts, ?_⟩
      intro j hj hj'
      have hq : ps.get ⟨j, hj⟩ ∈ (Phrase.mk i c l ps).parts := List.get_mem ps ⟨j, hj⟩
      have hq' := List.get_mem m.phrase.parts ⟨j, hj'⟩
      have hid : (ps.get ⟨j, hj⟩).id = (m.phrase.parts.get ⟨j, hj'⟩).id := by
        have hpart := congrArg (·[j]?) hparts
        simpa [show j < ps.length from hj, hj'] using hpart
      obtain ⟨n', hn', hpart⟩ := wf.stored i n hn _ (hp ▸ Phrase.part_mem_subphrases hq)
      obtain ⟨m', hm', hpart'⟩ := wg.stored i m hm _ (Phrase.part_mem_subphrases hq')
      rw [← hpart']
      exact ih _ hq (List.Subset.trans (Phrase.preOrder_part_subset hq) hids) hn' hpart (hid ▸ hm')

end Forest

namespace Tree

variable {t t' : Tree}

/-- Trees with the same skeleton and the same root start from coupled states. -/
theorem states_of_skeleton (h : t.Grown) (h' : t'.Grown)
    (hforest : t.forest.skeleton = t'.forest.skeleton) (hroot : t.root.id = t'.root.id) :
    (Coupling.ofNodes t.root.preOrder).Phrases t.root t'.root ∧
      (Coupling.ofNodes t.root.preOrder).States t.freshChecker.state t'.freshChecker.state := by
  have hphrases : (Coupling.ofNodes t.root.preOrder).Phrases t.root t'.root := by
    obtain ⟨r, n, hn, -, hp⟩ := h.free
    obtain ⟨r', n', hn', -, hp'⟩ := h'.free
    have hr : t.root.id = r := hp ▸ h.1.wellFormed.named r n hn
    have hr' : t'.root.id = r' := hp' ▸ h'.1.wellFormed.named r' n' hn'
    rw [← hp']
    refine h.1.wellFormed.phrases_of_skeleton h'.1.wellFormed hforest (List.Subset.refl _)
      (hr ▸ hn) hp ?_
    rw [hroot, hr']
    exact hn'
  refine ⟨hphrases, ?_, rfl, rfl, ?_⟩
  · simp only [freshChecker, h.records_blankTable, h'.records_blankTable,
      List.forall₂_map_left_iff, List.forall₂_map_right_iff]
    refine hphrases.subphrases.imp fun q q' hq => ⟨?_, hq.id.2⟩
    simp only [Record.bare, Record.blank, hq.id.1, hq.category]
  · rintro a a' ⟨-, ha⟩
    exact h.ids_blankTable ▸ ha

/-- No run ends in the fault of a bound procedure name. -/
theorem Grown.ne_procedureBound (h : t.Grown) {k : Nat} {fault : Fault}
    (hresult : (t.freshChecker.after k).check.result = .error fault) (name : String) (bound : Tag) :
    fault.cause ≠ .procedureBound name bound := by
  obtain ⟨p, -, hrejects⟩ := h.exists_rejects hresult
  cases hrejects <;> exact Cause.noConfusion

/-- Trees that differ only in their texts are checked alike, by the first run and by every later
one. Their records differ at most in their texts and in what counts as defined, and their results
at most in the texts of a fault. -/
theorem check_eq_of_skeleton (h : t.Grown) (h' : t'.Grown)
    (hforest : t.forest.skeleton = t'.forest.skeleton) (hroot : t.root.id = t'.root.id) :
    ∃ c c', Checker.start t = .ok c ∧ Checker.start t' = .ok c' ∧ ∀ k,
      (c.after k).table.records.map Record.bare = (c'.after k).table.records.map Record.bare ∧
        (c.after k).check.result.mapError Fault.bare =
          (c'.after k).check.result.mapError Fault.bare := by
  obtain ⟨hphrases, hstates⟩ := states_of_skeleton h h' hforest hroot
  refine ⟨_, _, h.start_eq_fresh, h'.start_eq_fresh, fun k => ?_⟩
  obtain ⟨hstates', hresults⟩ := hphrases.check_after hstates k
  constructor
  · rw [← List.forall₂_eq_eq_eq, List.forall₂_map_left_iff, List.forall₂_map_right_iff]
    exact hstates'.records.imp fun r r' hr => hr.1
  · exact hresults.mapError_bare fun fault hfault => h.ne_procedureBound hfault

/-- The tree of the assignment in `assignmentTree`, in which the variable has the same text as the
word that follows it. -/
def renamedAssignmentTree : Tree :=
  let x : Phrase := .mk 0 .name ":=" []
  let target : Phrase := .mk 1 (.construct .numberVariable) "" [x]
  let becomes : Phrase := .mk 2 .token ":=" []
  let five : Phrase := .mk 3 .number "5" []
  let root : Phrase := .mk 4 (.construct .assignment) "" [target, becomes, five]
  { forest := ⟨[⟨x, some 1⟩, ⟨target, some 4⟩, ⟨becomes, some 4⟩, ⟨five, some 4⟩,
      ⟨root, none⟩]⟩
    root }

theorem renamedAssignmentTree_grown : renamedAssignmentTree.Grown :=
  grown_of_regrown rfl

/-- The word counts as defined in one of the two tables only, and all tags and scopes agree. -/
theorem check_renamedAssignmentTree :
    assignmentTree.Grown ∧ renamedAssignmentTree.Grown ∧
      assignmentTree.forest.skeleton = renamedAssignmentTree.forest.skeleton ∧
      assignmentTree.root.id = renamedAssignmentTree.root.id ∧
      ∃ c c', Checker.start assignmentTree = .ok c ∧
        Checker.start renamedAssignmentTree = .ok c' ∧
        (c.after 2).table.definition ":=" = .undefined ∧
        (c'.after 2).table.definition ":=" = .defined ∧
        (c.after 2).table.records.map Record.bare = (c'.after 2).table.records.map Record.bare := by
  have hgrown := assignmentTree_grown
  have hgrown' := renamedAssignmentTree_grown
  obtain ⟨c, c', hc, hc', halike⟩ := check_eq_of_skeleton hgrown hgrown' rfl rfl
  refine ⟨hgrown, hgrown', rfl, rfl, c, c', hc, hc', ?_, ?_, (halike 2).1⟩
  · obtain rfl := Except.ok.inj (hc.symm.trans hgrown.start_eq_fresh)
    decide
  · obtain rfl := Except.ok.inj (hc'.symm.trans hgrown'.start_eq_fresh)
    decide

end Tree

end TreeTyping
