import TreeTyping.Proofs.Coupling

/-!
# A check sees only the shape of a tree

The shape of a tree is what remains when the names of its nodes are forgotten. Trees of the
same shape are checked alike, in whatever order their nodes were added and whatever else
their forests hold. The nodes at the same place of the two pre-orders belong together.
-/

namespace TreeTyping

/-- An ordered tree of categories and texts. -/
inductive Shape where
  | mk (category : Category) (lexeme : String) (parts : List Shape)

namespace Phrase

mutual

/-- A phrase without the names of its nodes. -/
def shape : Phrase → Shape
  | .mk _ category lexeme parts => .mk category lexeme (shapeAll parts)

/-- Several phrases without the names of their nodes. -/
def shapeAll : List Phrase → List Shape
  | [] => []
  | p :: ps => p.shape :: shapeAll ps

end

end Phrase

/-- What a record says apart from the name of its node. -/
def Record.content (r : Record) : Category × String × Tag × UInt32 × Definition :=
  (r.category, r.lexeme, r.tag, r.scope, r.definition)

/-- Elements at the same place of two lists. -/
def SamePlace (xs ys : List NodeId) (x y : NodeId) : Prop :=
  ∃ i : Nat, xs[i]? = some x ∧ ys[i]? = some y

theorem SamePlace.eq_of_eq {xs ys : List NodeId} (hxs : xs.Nodup) {a b a' b' : NodeId}
    (ha : SamePlace xs ys a a') (hb : SamePlace xs ys b b') (h : a = b) : a' = b' := by
  obtain ⟨i, hi, hi'⟩ := ha
  obtain ⟨j, hj, hj'⟩ := hb
  obtain ⟨hlt, -⟩ := List.getElem?_eq_some_iff.mp hi
  have hij : i = j := by
    refine (List.getElem?_inj hlt hxs).mp ?_
    rw [hi, hj, h]
  rw [hij, hj'] at hi'
  exact (Option.some.inj hi').symm

theorem SamePlace.symm {xs ys : List NodeId} {x y : NodeId} (h : SamePlace xs ys x y) :
    SamePlace ys xs y x := by
  obtain ⟨i, hx, hy⟩ := h
  exact ⟨i, hy, hx⟩

/-- Nodes belong together if they are at the same place of two lists of distinct nodes, and
records if they also have the same content. -/
def Coupling.ofPlaces {xs ys : List NodeId} (hxs : xs.Nodup) (hys : ys.Nodup) : Coupling where
  node := SamePlace xs ys
  text := Eq
  record r r' := SamePlace xs ys r.id r'.id ∧ r.content = r'.content
  biunique := by
    intro a b a' b' ha hb
    exact ⟨ha.eq_of_eq hxs hb, ha.symm.eq_of_eq hys hb.symm⟩
  record_node h := h.1
  record_category h := congrArg (·.1) h.2
  record_text h := congrArg (·.2.1) h.2
  record_tag h := congrArg (·.2.2.1) h.2
  record_write := by
    rintro r r' tag scope ⟨hid, hcontent⟩
    refine ⟨hid, ?_⟩
    simp_all [Record.content]
  record_define := by
    rintro r r' name name' ⟨hid, hcontent⟩ rfl
    simp only [Record.content, Prod.mk.injEq] at hcontent
    obtain ⟨hcategory, hlexeme, htag, hscope, hdefinition⟩ := hcontent
    by_cases hname : r.lexeme = name
    · rw [if_pos hname, if_pos (hlexeme ▸ hname)]
      exact ⟨hid, by simp_all [Record.content]⟩
    · rw [if_neg hname, if_neg (hlexeme ▸ hname)]
      exact ⟨hid, by simp_all [Record.content]⟩

/-- Lists that belong together and are cut at the same place have parts that do. -/
theorem forall₂_of_append {α β : Type} {related : α → β → Prop} {xs xs' : List α}
    {ys ys' : List β} (h : List.Forall₂ related (xs ++ xs') (ys ++ ys'))
    (hlen : xs.length = ys.length) :
    List.Forall₂ related xs ys ∧ List.Forall₂ related xs' ys' := by
  have htake := List.forall₂_take xs.length h
  have hdrop := List.forall₂_drop xs.length h
  rw [List.take_left, hlen, List.take_left] at htake
  rw [List.drop_left, hlen, List.drop_left] at hdrop
  exact ⟨htake, hdrop⟩

/-- Pieces of the same lengths whose concatenations belong together do so one by one. -/
theorem forall₂_of_flatMap {α : Type} {related : NodeId → NodeId → Prop} {good : α → α → Prop}
    {pieces : α → List NodeId} {xs ys : List α}
    (h : List.Forall₂ (fun x y => (pieces x).length = (pieces y).length ∧
      (List.Forall₂ related (pieces x) (pieces y) → good x y)) xs ys)
    (hall : List.Forall₂ related (xs.flatMap pieces) (ys.flatMap pieces)) :
    List.Forall₂ good xs ys := by
  induction h with
  | nil => exact .nil
  | cons hx _ ih =>
      rw [List.flatMap_cons, List.flatMap_cons] at hall
      obtain ⟨hfirst, hrest⟩ := forall₂_of_append hall hx.1
      exact .cons (hx.2 hfirst) (ih hrest)

theorem forall₂_samePlace {xs ys : List NodeId} (h : xs.length = ys.length) :
    List.Forall₂ (SamePlace xs ys) xs ys := by
  rw [List.forall₂_iff_get]
  refine ⟨h, fun i hx hy => ⟨i, ?_, ?_⟩⟩
  · exact List.getElem?_eq_getElem hx
  · exact List.getElem?_eq_getElem hy

namespace Phrase

theorem shapeAll_eq_map (ps : List Phrase) : shapeAll ps = ps.map shape := by
  induction ps with
  | nil => rfl
  | cons p ps ih => simp [shapeAll, ih]

/-- Phrases of the same shape have parts of the same shapes. -/
theorem shape_eq_iff {p p' : Phrase} :
    p.shape = p'.shape ↔ p.category = p'.category ∧ p.lexeme = p'.lexeme ∧
      List.Forall₂ (fun q q' => q ∈ p.parts ∧ q.shape = q'.shape) p.parts p'.parts := by
  obtain ⟨i, c, l, ps⟩ := p
  obtain ⟨i', c', l', ps'⟩ := p'
  have hmap : ps.map shape = ps'.map shape ↔
      List.Forall₂ (fun q q' => q.shape = q'.shape) ps ps' := by
    rw [← List.forall₂_eq_eq_eq, List.forall₂_map_left_iff, List.forall₂_map_right_iff]
  simp only [shape, shapeAll_eq_map, Shape.mk.injEq, category_mk, lexeme_mk, parts_mk, hmap,
    List.forall₂_and_left]
  simp

theorem length_preOrder_of_shape {p p' : Phrase} (h : p.shape = p'.shape) :
    p.preOrder.length = p'.preOrder.length := by
  induction p using Phrase.induction generalizing p' with
  | step i c l ps ih =>
      obtain ⟨-, -, hparts⟩ := shape_eq_iff.mp h
      have hlengths : ps.map (fun q => q.preOrder.length) =
          p'.parts.map fun q => q.preOrder.length := by
        rw [← List.forall₂_eq_eq_eq, List.forall₂_map_left_iff, List.forall₂_map_right_iff]
        exact hparts.imp fun q q' ⟨hmem, hq⟩ => ih q hmem hq
      rw [preOrder_eq_cons, preOrder_eq_cons p', List.length_cons, List.length_cons,
        List.length_flatMap, List.length_flatMap, parts_mk, hlengths]

end Phrase

/-- Phrases of the same shape are coupled if their nodes are coupled in pre-order. -/
theorem Coupling.phrases_of_shape {K : Coupling} (htext : ∀ l, K.text l l) {p p' : Phrase}
    (h : p.shape = p'.shape) (hnodes : List.Forall₂ K.node p.preOrder p'.preOrder) :
    K.Phrases p p' := by
  induction p using Phrase.induction generalizing p' with
  | step i c l ps ih =>
      obtain ⟨i', c', l', ps'⟩ := p'
      obtain ⟨rfl, rfl, hparts⟩ := Phrase.shape_eq_iff.mp h
      rw [Phrase.preOrder_eq_cons, Phrase.preOrder_eq_cons, List.forall₂_cons] at hnodes
      obtain ⟨hnode, hnodes⟩ := hnodes
      refine .mk hnode (htext _) ?_
      refine forall₂_of_flatMap (hparts.imp fun q q' ⟨hmem, hq⟩ => ?_) hnodes
      exact ⟨Phrase.length_preOrder_of_shape hq, ih q hmem hq⟩

/-- Where texts belong together only if they are equal, so do causes. -/
theorem Coupling.Causes.eq {K : Coupling} (htext : ∀ {l l'}, K.text l l' → l = l')
    {cause cause' : Cause} (h : K.Causes cause cause') : cause = cause' := by
  cases h with
  | typeMismatch expected received => rfl
  | ambiguousName text context => rw [htext text]
  | invalidArity construct expected received => rfl
  | procedureBound text bound => rw [htext text]
  | residual => rfl

namespace Tree

variable {t t' : Tree}

/-- Trees of the same shape start from coupled states. -/
theorem states_of_shape (h : t.Grown) (h' : t'.Grown) (hshape : t.root.shape = t'.root.shape) :
    (Coupling.ofPlaces h.nodup_preOrder h'.nodup_preOrder).Phrases t.root t'.root ∧
      (Coupling.ofPlaces h.nodup_preOrder h'.nodup_preOrder).States
        { table := t.blankTable } { table := t'.blankTable } := by
  have hroot : (Coupling.ofPlaces h.nodup_preOrder h'.nodup_preOrder).Phrases
      t.root t'.root := by
    refine Coupling.phrases_of_shape (fun _ => rfl) hshape ?_
    exact forall₂_samePlace (Phrase.length_preOrder_of_shape hshape)
  refine ⟨hroot, ?_, rfl, rfl, ?_⟩
  · simp only [h.records_blankTable, h'.records_blankTable, List.forall₂_map_left_iff,
      List.forall₂_map_right_iff]
    refine hroot.subphrases.imp fun q q' hq => ⟨hq.id, ?_⟩
    have hlexeme : q.lexeme = q'.lexeme := hq.lexeme
    simp only [Record.content, Record.blank, hq.category, hlexeme]
  · rintro a a' ⟨i, hi, -⟩
    rw [h.ids_blankTable]
    exact List.mem_of_getElem? hi

/-- Trees of the same shape are checked alike. Their tables agree record by record, and either
both checks accept, or both fail for the same cause and at the same place. -/
theorem check_eq_of_shape (h : t.Grown) (h' : t'.Grown)
    (hshape : t.root.shape = t'.root.shape) :
    ∃ c c', Checker.start t = .ok c ∧ Checker.start t' = .ok c' ∧
      c.check.checker.table.records.map Record.content =
        c'.check.checker.table.records.map Record.content ∧
      ((∃ tag, c.check.result = .ok tag ∧ c'.check.result = .ok tag) ∨
        ∃ fault fault', c.check.result = .error fault ∧ c'.check.result = .error fault' ∧
          fault.cause = fault'.cause ∧
          fault.location.category = fault'.location.category ∧
          fault.location.lexeme = fault'.location.lexeme ∧
          SamePlace t.preOrder t'.preOrder fault.location.node fault'.location.node) := by
  obtain ⟨hroot, hstates⟩ := states_of_shape h h' hshape
  obtain ⟨hresult, htables⟩ := @Coupling.Phrases.check _ ⟨t, { table := t.blankTable }⟩
    ⟨t', { table := t'.blankTable }⟩ hroot hstates
  refine ⟨_, _, h.start_eq, h'.start_eq, ?_, ?_⟩
  · rw [← List.forall₂_eq_eq_eq, List.forall₂_map_left_iff, List.forall₂_map_right_iff]
    exact htables.records.imp fun r r' hr => hr.2
  · rw [preOrder_eq, preOrder_eq]
    generalize Run.result _ = result at hresult ⊢
    generalize Run.result _ = result' at hresult ⊢
    cases hresult with
    | ok tag => exact .inl ⟨tag, rfl, rfl⟩
    | error faults =>
        exact .inr ⟨_, _, rfl, rfl, faults.cause.eq fun htext => htext, faults.category,
          faults.text, faults.node⟩

/-- The tree of the assignment in `assignmentTree`, with its nodes added in another order
beside a node that belongs to no tree. -/
def shuffledAssignmentTree : Tree :=
  let five : Phrase := .mk 0 .number "5" []
  let other : Phrase := .mk 1 .keyword "halt" []
  let becomes : Phrase := .mk 2 .token ":=" []
  let x : Phrase := .mk 3 .name "x" []
  let target : Phrase := .mk 4 (.construct .numberVariable) "" [x]
  let root : Phrase := .mk 5 (.construct .assignment) "" [target, becomes, five]
  { forest := ⟨[⟨five, some 5⟩, ⟨other, none⟩, ⟨becomes, some 5⟩, ⟨x, some 4⟩,
      ⟨target, some 5⟩, ⟨root, none⟩]⟩
    root }

theorem shuffledAssignmentTree_grown : shuffledAssignmentTree.Grown :=
  grown_of_regrown rfl

theorem check_shuffledAssignmentTree :
    assignmentTree.Grown ∧ shuffledAssignmentTree.Grown ∧
      assignmentTree.root.shape = shuffledAssignmentTree.root.shape ∧
      ∃ c c', Checker.start assignmentTree = .ok c ∧
        Checker.start shuffledAssignmentTree = .ok c' ∧
        c.check.checker.table.records.map Record.content =
          c'.check.checker.table.records.map Record.content := by
  obtain ⟨c, c', hc, hc', htables, -⟩ :=
    check_eq_of_shape assignmentTree_grown shuffledAssignmentTree_grown rfl
  exact ⟨assignmentTree_grown, shuffledAssignmentTree_grown, rfl, c, c', hc, hc', htables⟩

end Tree

end TreeTyping
