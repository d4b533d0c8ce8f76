import Mathlib.Data.List.Perm.Subperm
import TreeTyping.Checker
import TreeTyping.Proofs.Index
import TreeTyping.Proofs.Subphrases

/-!
# Forests grown node by node

Every forest that grows from the empty one stores each phrase below its nodes under that
phrase's own name, and nodes without a parent share nothing. So the nodes of a tree have
distinct names, and its first table holds one unbound record for each of them.
-/

namespace TreeTyping

namespace Forest

/-- What can be asked of a forest that grows. -/
inductive Request where
  | node (category : Category) (lexeme : String) (children : List NodeId)
  | leaf (category : Category) (lexeme : String)

/-- The answer to a request, which is a new node or a refusal. -/
def Request.answer : Request → Change Forest NodeId
  | .node category lexeme children => add category lexeme children
  | .leaf category lexeme => addLeaf category lexeme

/-- Every request adds a node, a leaf being a node above no others. -/
theorem Request.exists_answer_eq (request : Request) :
    ∃ category lexeme children, request.answer = add category lexeme children := by
  cases request with
  | node category lexeme children => exact ⟨category, lexeme, children, rfl⟩
  | leaf category lexeme => exact ⟨category, lexeme, [], rfl⟩

/-- The forest that a request leaves behind, granted or refused. -/
def serve (f : Forest) (request : Request) : Forest := request.answer.leaving f

/-- The forest after a sequence of requests, starting from the empty one. -/
def ofRequests (requests : List Request) : Forest := requests.foldl serve {}

/-- The forests that arise from the empty one by requests, granted or refused. -/
inductive Grown : Forest → Prop
  | empty : Grown {}
  | serve {f : Forest} (grown : Grown f) (request : Request) : Grown (f.serve request)

/-- The requests for the nodes of a forest, one after the other. -/
def requests (f : Forest) : List Request :=
  f.nodes.map fun n => .node n.category n.lexeme n.children

theorem grown_ofRequests (requests : List Request) : (ofRequests requests).Grown := by
  have hserved : ∀ f : Forest, f.Grown → (requests.foldl Forest.serve f).Grown := by
    induction requests with
    | nil => exact fun f h => h
    | cons request rest ih => exact fun f h => ih _ (h.serve request)
  exact hserved {} .empty

end Forest

/-- The trees that arise by choosing a root in a grown forest. -/
def Tree.Grown (t : Tree) : Prop :=
  t.forest.Grown ∧ ∃ root, Tree.ofForest t.forest root = .ok t

namespace Node

/-- The same node, below `parent` if it is among the adopted nodes. -/
def adopt (adopted : List NodeId) (parent : NodeId) (n : Node) : Node :=
  if n.id ∈ adopted then { n with parent := some parent } else n

variable (adopted : List NodeId) (parent : NodeId) (n : Node)

@[simp] theorem phrase_adopt : (n.adopt adopted parent).phrase = n.phrase := by
  unfold adopt
  split <;> rfl

theorem parent_adopt_eq_none_iff :
    (n.adopt adopted parent).parent = none ↔ n.parent = none ∧ n.id ∉ adopted := by
  unfold adopt
  split <;> simp_all

end Node

namespace Forest

variable {f g : Forest} {category : Category} {lexeme : String}

/-- A node and its phrase stand at a position of the forest without a parent. -/
def Free (f : Forest) (id : NodeId) (phrase : Phrase) : Prop :=
  ∃ n, f.nodes[id]? = some n ∧ n.parent = none ∧ n.phrase = phrase

theorem freeNode_ok {taken : List NodeId} {id : NodeId} {n : Node}
    (h : f.freeNode taken id = .ok n) : id ∉ taken ∧ f.Free id n.phrase := by
  unfold freeNode node at h
  cases hn : f.nodes[id]? with
  | none => simp [hn, bind, Except.bind] at h
  | some m =>
      simp only [hn, bind, Except.bind, throw, throwThe, MonadExceptOf.throw, pure,
        Except.pure] at h
      split at h
      · simp at h
      · rename_i hfree
        obtain rfl : m = n := by simpa using h
        rw [not_or, Option.not_isSome_iff_eq_none] at hfree
        exact ⟨hfree.2, m, hn, hfree.1, rfl⟩

theorem gather_cons (taken : List NodeId) (id : NodeId) (rest : List NodeId) :
    gather taken (id :: rest) = do
      let n ← Change.look (·.freeNode taken id)
      return n.phrase :: (← gather (id :: taken) rest) := rfl

/-- The first pass over the children of a new node changes nothing, whatever it finds. -/
theorem gather_reads (taken children : List NodeId) : (gather taken children).Reads := by
  induction children generalizing taken with
  | nil => exact .pure []
  | cons id rest ih =>
      rw [gather_cons]
      exact .bind (.look _) fun n => .bind (ih (id :: taken)) fun parts => .pure (n.phrase :: parts)

/-- The second pass never fails. -/
theorem link_eq (parent : NodeId) (children : List NodeId) (f : Forest) :
    link parent children f = .ok () (children.foldl (setParent · parent) f) := by
  induction children generalizing f with
  | nil => rfl
  | cons id rest ih => exact ih (f.setParent parent id)

/-- In a forest in which nodes are named by their positions, the second pass changes the parents of
the children and nothing else. -/
theorem foldl_setParent {children : List NodeId} (parent : NodeId)
    (named : ∀ (i : NodeId) (n : Node), f.nodes[i]? = some n → n.id = i) :
    children.foldl (setParent · parent) f = ⟨f.nodes.map (Node.adopt children parent)⟩ := by
  induction children generalizing f with
  | nil =>
      have hnone : ∀ n ∈ f.nodes, Node.adopt [] parent n = n := by simp [Node.adopt]
      rw [List.foldl_nil, List.map_congr_left hnone, List.map_id']
  | cons id rest ih =>
      have hone : ∀ i : NodeId, (f.setParent parent id).nodes[i]? =
          f.nodes[i]?.map (Node.adopt [id] parent) := by
        intro i
        rw [setParent, List.getElem?_modify]
        refine Option.map_congr fun n hn => ?_
        simp only [Node.adopt, named i n hn, List.mem_singleton, eq_comm]
      have hnamed : ∀ (i : NodeId) (n : Node),
          (f.setParent parent id).nodes[i]? = some n → n.id = i := by
        intro i n hn
        rw [hone, Option.map_eq_some_iff] at hn
        obtain ⟨m, hm, rfl⟩ := hn
        rw [Node.id, Node.phrase_adopt]
        exact named i m hm
      rw [List.foldl_cons, ih hnamed]
      congr 1
      apply List.ext_getElem?
      intro i
      rw [List.getElem?_map, List.getElem?_map, hone, Option.map_map]
      refine Option.map_congr fun n _ => ?_
      by_cases hid : n.id = id <;> by_cases hrest : n.id ∈ rest <;> simp [Node.adopt, hid, hrest]

theorem newId_eq_ok_iff {count : Nat} {id : NodeId} :
    newId count = .ok id ↔ count < capacity ∧ id = count := by
  unfold newId
  split
  · rename_i hroom
    simp [hroom, eq_comm]
  · rename_i hfull
    simp [hfull]

/-- An added node stands at the end, above the phrases that the first pass has found, and the
second pass has linked its children to it. -/
theorem add_ok {children : List NodeId} {id : NodeId}
    (h : add category lexeme children f = .ok id g) :
    id = f.size ∧ f.size < capacity ∧ ∃ parts, gather [] children f = .ok parts f ∧
      g = (children.foldl (setParent · f.size) f).push
        ⟨.mk f.size category lexeme parts, none⟩ := by
  unfold add at h
  obtain ⟨next, f', hnext, h⟩ := Change.bind_eq_ok_iff.mp h
  obtain ⟨hnext, rfl⟩ := Change.look_eq_ok_iff.mp hnext
  obtain ⟨hroom, rfl⟩ := newId_eq_ok_iff.mp hnext
  obtain ⟨parts, f'', hparts, h⟩ := Change.bind_eq_ok_iff.mp h
  obtain rfl := (gather_reads [] children).eq_of_ok hparts
  rw [Change.bind_of_ok (link_eq _ children _)] at h
  cases h
  exact ⟨rfl, hroom, parts, hparts, rfl⟩

/-- A node is refused because there is no room for it, or by the first pass. -/
theorem add_error {children : List NodeId} {fault : Fault}
    (h : add category lexeme children f = .error fault g) :
    newId f.size = .error fault ∧ g = f ∨
      f.size < capacity ∧ gather [] children f = .error fault g := by
  unfold add at h
  rcases Change.bind_eq_error_iff.mp h with hnext | ⟨next, f', hnext, hadd⟩
  · exact .inl (Change.look_eq_error_iff.mp hnext)
  obtain ⟨hnext, rfl⟩ := Change.look_eq_ok_iff.mp hnext
  rcases Change.bind_eq_error_iff.mp hadd with hparts | ⟨parts, f'', hparts, hlink⟩
  · exact .inr ⟨(newId_eq_ok_iff.mp hnext).1, hparts⟩
  rw [Change.bind_of_ok (link_eq _ children _)] at hlink
  cases hlink

/-- A forest that refuses a node is left as it was. -/
theorem eq_of_add_error {children : List NodeId} {fault : Fault}
    (h : add category lexeme children f = .error fault g) : g = f := by
  rcases add_error h with ⟨-, hg⟩ | ⟨-, hgather⟩
  · exact hg
  · exact (gather_reads [] children).eq_of_error hgather

/-- What holds of every grown forest. -/
structure WellFormed (f : Forest) : Prop where
  /-- A node is named by its position. -/
  named : ∀ (i : NodeId) (n : Node), f.nodes[i]? = some n → n.phrase.id = i
  /-- The phrases below a node are stored under their names. -/
  stored : ∀ (i : NodeId) (n : Node), f.nodes[i]? = some n →
    ∀ q ∈ n.phrase.subphrases, ∃ m, f.nodes[q.id]? = some m ∧ m.phrase = q
  /-- The nodes below a node are distinct. -/
  distinct : ∀ (i : NodeId) (n : Node), f.nodes[i]? = some n → n.phrase.preOrder.Nodup
  /-- Nodes that stand alone share nothing. -/
  apart : ∀ (i j : NodeId) (p q : Phrase), f.Free i p → f.Free j q → i ≠ j →
    p.preOrder.Disjoint q.preOrder

theorem WellFormed.empty : WellFormed {} where
  named := by simp
  stored := by simp
  distinct := by simp
  apart := by
    rintro i j p q ⟨n, hn, -⟩
    simp at hn

theorem WellFormed.lt_size (wf : f.WellFormed) {i : NodeId} {n : Node}
    (hn : f.nodes[i]? = some n) {id : NodeId} (hid : id ∈ n.phrase.preOrder) : id < f.size := by
  rw [← Phrase.map_id_subphrases] at hid
  obtain ⟨q, hq, rfl⟩ := List.mem_map.mp hid
  obtain ⟨m, hm, -⟩ := wf.stored i n hn q hq
  exact (List.getElem?_eq_some_iff.mp hm).1

/-- The gathered nodes are distinct and stand alone, and the phrases are theirs. -/
theorem WellFormed.gather_ok (wf : f.WellFormed) {taken children : List NodeId}
    {parts : List Phrase} (h : gather taken children f = .ok parts f) :
    parts.map Phrase.id = children ∧ (∀ id ∈ children, id ∉ taken) ∧ children.Nodup ∧
      ∀ part ∈ parts, f.Free part.id part := by
  induction children generalizing taken parts with
  | nil =>
      cases h
      simp
  | cons id rest ih =>
      rw [gather_cons] at h
      obtain ⟨n, f', hn, hrest⟩ := Change.bind_eq_ok_iff.mp h
      obtain ⟨hn, rfl⟩ := Change.look_eq_ok_iff.mp hn
      obtain ⟨tail, f'', htail, hparts⟩ := Change.bind_eq_ok_iff.mp hrest
      obtain rfl := (gather_reads (id :: taken) rest).eq_of_ok htail
      cases hparts
      obtain ⟨hid, hfree⟩ := freeNode_ok hn
      obtain ⟨rfl, hrest, hnodup, hall⟩ := ih htail
      have hname : n.phrase.id = id := by
        obtain ⟨m, hm, -, hp⟩ := hfree
        exact hp ▸ wf.named id m hm
      refine ⟨by simp [hname], ?_, ?_, ?_⟩
      · exact List.forall_mem_cons.mpr
          ⟨hid, fun i hi ht => hrest i hi (List.mem_cons_of_mem _ ht)⟩
      · exact List.nodup_cons.mpr ⟨fun hi => hrest id hi List.mem_cons_self, hnodup⟩
      · exact List.forall_mem_cons.mpr ⟨hname ▸ hfree, hall⟩

section Add

variable {parts : List Phrase}

/-- The forest with one node more, above the given phrases. -/
def extend (f : Forest) (category : Category) (lexeme : String) (parts : List Phrase) : Forest :=
  ⟨f.nodes.map (Node.adopt (parts.map Phrase.id) f.size) ++
    [⟨.mk f.size category lexeme parts, none⟩]⟩

/-- A node of the extended forest is an old node or the added one. -/
theorem getElem?_extend {i : Nat} {n : Node}
    (hn : (f.extend category lexeme parts).nodes[i]? = some n) :
    (∃ m, f.nodes[i]? = some m ∧ n = m.adopt (parts.map Phrase.id) f.size) ∨
      (i = f.size ∧ n = ⟨.mk f.size category lexeme parts, none⟩) := by
  rw [extend, List.getElem?_append, List.length_map] at hn
  split at hn
  · rw [List.getElem?_map, Option.map_eq_some_iff] at hn
    obtain ⟨m, hm, rfl⟩ := hn
    exact Or.inl ⟨m, hm, rfl⟩
  · obtain ⟨hlt, rfl⟩ := List.getElem?_eq_some_iff.mp hn
    have hi : i = f.nodes.length := by
      simp only [List.length_cons, List.length_nil] at hlt
      omega
    exact Or.inr ⟨hi, by simp⟩

theorem getElem?_extend_size :
    (f.extend category lexeme parts).nodes[f.size]? =
      some ⟨.mk f.size category lexeme parts, none⟩ := by
  simp [extend, size]

theorem getElem?_extend_adopt {id : NodeId} {m : Node} (hm : f.nodes[id]? = some m) :
    (f.extend category lexeme parts).nodes[id]? =
      some (m.adopt (parts.map Phrase.id) f.size) := by
  have hlt := (List.getElem?_eq_some_iff.mp hm).1
  rw [extend, List.getElem?_append_left (by simpa using hlt), List.getElem?_map, hm]
  rfl

theorem getElem?_extend_old {id : NodeId} {m : Node} (hm : f.nodes[id]? = some m) :
    ∃ n, (f.extend category lexeme parts).nodes[id]? = some n ∧ n.phrase = m.phrase :=
  ⟨_, getElem?_extend_adopt hm, Node.phrase_adopt _ _ m⟩

/-- A node that stands alone in the extended forest is the added one, or an old one that
was not among the parts. -/
theorem WellFormed.free_extend (wf : f.WellFormed) {i : NodeId} {p : Phrase}
    (h : (f.extend category lexeme parts).Free i p) :
    (f.Free i p ∧ i ∉ parts.map Phrase.id) ∨
      (i = f.size ∧ p = .mk f.size category lexeme parts) := by
  obtain ⟨n, hn, hparent, rfl⟩ := h
  rcases getElem?_extend hn with ⟨m, hm, rfl⟩ | ⟨rfl, rfl⟩
  · rw [Node.parent_adopt_eq_none_iff] at hparent
    have hid : m.id = i := wf.named i m hm
    exact Or.inl ⟨⟨m, hm, hparent.1, (Node.phrase_adopt _ _ m).symm⟩, hid ▸ hparent.2⟩
  · exact Or.inr ⟨rfl, rfl⟩

/-- The phrases that a new node takes as its parts share nothing with it or each other. -/
theorem WellFormed.nodup_extend (wf : f.WellFormed) (hnodup : (parts.map Phrase.id).Nodup)
    (hfree : ∀ part ∈ parts, f.Free part.id part) :
    (Phrase.mk f.size category lexeme parts).preOrder.Nodup := by
  rw [Phrase.preOrder_eq_cons, List.nodup_cons, List.nodup_flatMap]
  refine ⟨?_, ?_, ?_⟩
  · intro hid
    obtain ⟨part, hp, hid⟩ := List.mem_flatMap.mp hid
    obtain ⟨n, hn, -, rfl⟩ := hfree part hp
    exact Nat.lt_irrefl _ (wf.lt_size hn hid)
  · intro part hp
    obtain ⟨n, hn, -, rfl⟩ := hfree part hp
    exact wf.distinct _ n hn
  · refine (List.pairwise_map.mp hnodup).imp_of_mem ?_
    intro p q hp hq hne
    exact wf.apart p.id q.id p q (hfree p hp) (hfree q hq) hne

/-- An old node that is not among the parts of the added one shares nothing with it. -/
theorem WellFormed.disjoint_extend (wf : f.WellFormed)
    (hfree : ∀ part ∈ parts, f.Free part.id part) {i : NodeId} {p : Phrase} (hp : f.Free i p)
    (hi : i ∉ parts.map Phrase.id) :
    p.preOrder.Disjoint (Phrase.mk f.size category lexeme parts).preOrder := by
  intro id hid hid'
  rcases (Phrase.mem_preOrder_iff _ id).mp hid' with rfl | ⟨part, hpart, hid'⟩
  · obtain ⟨n, hn, -, rfl⟩ := hp
    exact Nat.lt_irrefl _ (wf.lt_size hn hid)
  · have hne : i ≠ part.id := fun he => hi (he ▸ List.mem_map_of_mem hpart)
    exact wf.apart i part.id p part hp (hfree part hpart) hne hid hid'

theorem WellFormed.extend (wf : f.WellFormed) (hnodup : (parts.map Phrase.id).Nodup)
    (hfree : ∀ part ∈ parts, f.Free part.id part) :
    (f.extend category lexeme parts).WellFormed where
  named := by
    intro i n hn
    rcases getElem?_extend hn with ⟨m, hm, rfl⟩ | ⟨rfl, rfl⟩
    · rw [Node.phrase_adopt]
      exact wf.named i m hm
    · rfl
  stored := by
    intro i n hn q hq
    have hold : ∀ (k : NodeId) (m : Node), f.nodes[k]? = some m → q ∈ m.phrase.subphrases →
        ∃ m', (f.extend category lexeme parts).nodes[q.id]? = some m' ∧ m'.phrase = q := by
      intro k m hm hq
      obtain ⟨m', hm', rfl⟩ := wf.stored k m hm q hq
      exact getElem?_extend_old hm'
    rcases getElem?_extend hn with ⟨m, hm, rfl⟩ | ⟨rfl, rfl⟩
    · rw [Node.phrase_adopt] at hq
      exact hold i m hm hq
    · rcases (Phrase.mem_subphrases_iff _ q).mp hq with rfl | ⟨part, hpart, hq⟩
      · exact ⟨_, getElem?_extend_size, rfl⟩
      · obtain ⟨m, hm, -, rfl⟩ := hfree part hpart
        exact hold _ m hm hq
  distinct := by
    intro i n hn
    rcases getElem?_extend hn with ⟨m, hm, rfl⟩ | ⟨rfl, rfl⟩
    · rw [Node.phrase_adopt]
      exact wf.distinct i m hm
    · exact wf.nodup_extend hnodup hfree
  apart := by
    intro i j p q hp hq hij
    rcases wf.free_extend hp with ⟨hp, hi⟩ | ⟨rfl, rfl⟩
    · rcases wf.free_extend hq with ⟨hq, -⟩ | ⟨rfl, rfl⟩
      · exact wf.apart i j p q hp hq hij
      · exact wf.disjoint_extend hfree hp hi
    · rcases wf.free_extend hq with ⟨hq, hj⟩ | ⟨rfl, rfl⟩
      · exact fun id hid hid' => wf.disjoint_extend hfree hq hj hid' hid
      · exact absurd rfl hij

/-- A forest with an added node is the old one extended above distinct nodes that stand alone. -/
theorem WellFormed.eq_extend (wf : f.WellFormed) {children : List NodeId} {id : NodeId}
    (h : add category lexeme children f = .ok id g) :
    ∃ parts : List Phrase, parts.map Phrase.id = children ∧ children.Nodup ∧
      (∀ part ∈ parts, f.Free part.id part) ∧ g = f.extend category lexeme parts := by
  obtain ⟨-, -, parts, hparts, hg⟩ := add_ok h
  obtain ⟨rfl, -, hnodup, hfree⟩ := wf.gather_ok hparts
  refine ⟨parts, rfl, hnodup, hfree, ?_⟩
  rw [hg, foldl_setParent f.size wf.named]
  rfl

/-- A request leaves a forest as it was, or there was room and it has been extended by a node above
distinct nodes that stand alone. -/
theorem WellFormed.serve_cases (wf : f.WellFormed) (request : Request) :
    f.serve request = f ∨
      f.size < capacity ∧ ∃ (category : Category) (lexeme : String) (parts : List Phrase),
        (parts.map Phrase.id).Nodup ∧ (∀ part ∈ parts, f.Free part.id part) ∧
          f.serve request = f.extend category lexeme parts := by
  obtain ⟨category, lexeme, children, hanswer⟩ := request.exists_answer_eq
  unfold Forest.serve
  rw [hanswer]
  cases hadd : add category lexeme children f with
  | error fault g =>
      rw [Change.leaving_of_error hadd]
      exact .inl (eq_of_add_error hadd)
  | ok id g =>
      obtain ⟨parts, rfl, hnodup, hfree, hg⟩ := wf.eq_extend hadd
      rw [Change.leaving_of_ok hadd]
      exact .inr ⟨(add_ok hadd).2.1, category, lexeme, parts, hnodup, hfree, hg⟩

end Add

theorem Grown.wellFormed (h : f.Grown) : f.WellFormed := by
  induction h with
  | empty => exact .empty
  | serve _ request ih =>
      rcases ih.serve_cases request with hsame | ⟨-, category, lexeme, parts, hnodup, hfree, hg⟩
      · rwa [hsame]
      · rw [hg]
        exact ih.extend hnodup hfree

/-- An accepted node makes a forest larger by one. -/
theorem size_extend (parts : List Phrase) : (f.extend category lexeme parts).size = f.size + 1 := by
  simp [extend, size]

theorem Grown.size_le (h : f.Grown) : f.size ≤ capacity := by
  induction h with
  | empty => exact Nat.zero_le _
  | serve grown request ih =>
      rcases grown.wellFormed.serve_cases request with hsame | ⟨hroom, _, _, _, -, -, hg⟩
      · rwa [hsame]
      · rw [hg, size_extend]
        omega

/-- A node is younger than its parts. -/
theorem Grown.part_lt (h : f.Grown) {i : NodeId} {n : Node} (hn : f.nodes[i]? = some n) {q : Phrase}
    (hq : q ∈ n.phrase.parts) : q.id < i := by
  induction h generalizing i n with
  | empty => simp at hn
  | serve grown request ih =>
      rcases grown.wellFormed.serve_cases request with hsame | ⟨-, _, _, parts, -, hfree, hg⟩
      · rw [hsame] at hn
        exact ih hn hq
      · rw [hg] at hn
        rcases getElem?_extend hn with ⟨m, hm, rfl⟩ | ⟨rfl, rfl⟩
        · exact ih hm (by simpa using hq)
        · obtain ⟨m, hm, -, rfl⟩ := hfree q hq
          exact grown.wellFormed.lt_size hm m.phrase.id_mem_preOrder

end Forest

namespace Tree

variable {t : Tree}

/-- A tree is made of a forest and of a node that stands alone in it. -/
theorem ofForest_ok {f : Forest} {root : NodeId} (h : ofForest f root = .ok t) :
    t.forest = f ∧ f.Free root t.root := by
  unfold ofForest at h
  cases hn : f.freeNode [] root with
  | error e => simp [hn, bind, Except.bind] at h
  | ok n =>
      simp only [hn, bind, Except.bind, pure, Except.pure, Except.ok.injEq] at h
      rw [← h]
      exact ⟨rfl, (Forest.freeNode_ok hn).2⟩

/-- A tree is grown if the requests for its nodes make the same tree again. -/
theorem grown_of_regrown
    (h : ofForest (Forest.ofRequests t.forest.requests) t.root.id = .ok t) : t.Grown := by
  have hforest := (ofForest_ok h).1
  rw [← hforest] at h
  exact ⟨hforest ▸ Forest.grown_ofRequests _, t.root.id, h⟩

/-- A root stands alone in its forest, under the name by which it was chosen. -/
theorem Grown.free (h : t.Grown) : ∃ root, t.forest.Free root t.root := by
  obtain ⟨-, root, hroot⟩ := h
  exact ⟨root, (ofForest_ok hroot).2⟩

theorem Grown.nodup_preOrder (h : t.Grown) : t.root.preOrder.Nodup := by
  obtain ⟨root, n, hn, -, hp⟩ := h.free
  exact hp ▸ h.1.wellFormed.distinct root n hn

/-- Every phrase of a tree is stored in its forest. -/
theorem Grown.stored (h : t.Grown) {q : Phrase} (hq : q ∈ t.root.subphrases) :
    ∃ n, t.forest.nodes[q.id]? = some n ∧ n.phrase = q := by
  obtain ⟨root, n, hn, -, hp⟩ := h.free
  exact h.1.wellFormed.stored root n hn q (hp ▸ hq)

/-- Every phrase of a tree can be looked up by its name. -/
theorem Grown.node_eq (h : t.Grown) {q : Phrase} (hq : q ∈ t.root.subphrases) :
    ∃ n, t.node q.id = .ok n ∧ n.phrase = q := by
  obtain ⟨n, hn, hphrase⟩ := h.stored hq
  exact ⟨n, by simp [node, Forest.node, hn], hphrase⟩

/-- On the way down a tree the names of the nodes decrease. -/
theorem Grown.part_id_lt (h : t.Grown) {p q : Phrase} (hp : p ∈ t.root.subphrases)
    (hq : q ∈ p.parts) : q.id < p.id := by
  obtain ⟨n, hn, rfl⟩ := h.stored hp
  exact h.1.part_lt hn hq

/-- A tree has no more nodes than a forest can hold. -/
theorem Grown.size_root_le (h : t.Grown) : t.root.size ≤ Forest.capacity := by
  obtain ⟨root, n, hn, -, hroot⟩ := h.free
  have hsubset : t.root.preOrder ⊆ List.range t.forest.size := by
    intro id hid
    rw [List.mem_range]
    exact h.1.wellFormed.lt_size hn (hroot ▸ hid)
  have hlength := (List.subperm_of_subset h.nodup_preOrder hsubset).length_le
  rw [Phrase.length_preOrder, List.length_range] at hlength
  exact Nat.le_trans hlength h.1.size_le

theorem preOrder_eq (t : Tree) : t.preOrder = t.root.preOrder := by
  simp [preOrder, Phrase.unstack_eq_preOrderAll, Phrase.preOrderAll]

end Tree

/-- The record of a phrase before any check. -/
def Record.blank (p : Phrase) : Record := { id := p.id, category := p.category, lexeme := p.lexeme }

namespace Table

/-- The table with blank records for several phrases, one after the other. -/
def enter (t : Table) (qs : List Phrase) : Table :=
  qs.foldl (fun t q => t.insert q.id q.category q.lexeme) t

/-- The nodes of phrases that are stored in a tree can all be entered. -/
theorem insertNodes_eq {tree : Tree} {qs : List Phrase}
    (hstored : ∀ q ∈ qs, ∃ n, tree.node q.id = .ok n ∧ n.phrase = q) (t : Table) :
    insertNodes tree t (qs.map Phrase.id) = .ok (t.enter qs) := by
  induction qs generalizing t with
  | nil => rfl
  | cons q qs ih =>
      obtain ⟨n, hn, rfl⟩ := hstored q List.mem_cons_self
      simp only [List.map_cons, insertNodes, hn, bind, Except.bind]
      exact ih (fun r hr => hstored r (List.mem_cons_of_mem _ hr)) _

/-- Entering distinct new nodes appends their records in order. -/
theorem records_enter {qs : List Phrase} (hnodup : (qs.map Phrase.id).Nodup) (t : Table)
    (hnew : ∀ q ∈ qs, q.id ∉ t.ids) :
    (t.enter qs).records = t.records ++ qs.map Record.blank := by
  induction qs generalizing t with
  | nil => exact (List.append_nil _).symm
  | cons q qs ih =>
      obtain ⟨hq, hnodup⟩ := List.nodup_cons.mp hnodup
      have hinsert : (t.insert q.id q.category q.lexeme).records =
          t.records ++ [Record.blank q] := by
        rw [records_insert, if_neg (hnew q List.mem_cons_self)]
        rfl
      have hnew' : ∀ r ∈ qs, r.id ∉ (t.insert q.id q.category q.lexeme).ids := by
        intro r hr hmem
        rw [ids, hinsert, List.map_append, List.mem_append] at hmem
        rcases hmem with hmem | hmem
        · exact hnew r (List.mem_cons_of_mem q hr) hmem
        · have hid : r.id = q.id := List.mem_singleton.mp hmem
          exact hq (hid ▸ List.mem_map_of_mem hr)
      rw [enter, List.foldl_cons, ← enter, ih hnodup _ hnew', hinsert, List.append_assoc]
      rfl

/-- All that is entered is blank. -/
theorem mem_records_enter {qs : List Phrase} {t : Table} {r : Record}
    (hr : r ∈ (t.enter qs).records) : r ∈ t.records ∨ ∃ q, r = .blank q := by
  induction qs generalizing t with
  | nil => exact .inl hr
  | cons q qs ih =>
      rcases ih hr with hold | hblank
      · rw [records_insert] at hold
        split at hold
        · exact .inl hold
        · rcases List.mem_append.mp hold with hold | hnew
          · exact .inl hold
          · exact .inr ⟨q, List.mem_singleton.mp hnew⟩
      · exact .inr hblank

end Table

namespace Tree

/-- The table of a tree before any check. -/
def blankTable (t : Tree) : Table := Table.empty.enter t.root.subphrases

theorem Grown.records_blankTable {t : Tree} (h : t.Grown) :
    t.blankTable.records = t.root.subphrases.map Record.blank := by
  refine (Table.records_enter ?_ .empty ?_).trans (List.nil_append _)
  · rw [Phrase.map_id_subphrases]
    exact h.nodup_preOrder
  · exact fun q _ => List.not_mem_nil

theorem Grown.ids_blankTable {t : Tree} (h : t.Grown) : t.blankTable.ids = t.root.preOrder := by
  rw [Table.ids, h.records_blankTable, List.map_map, ← Phrase.map_id_subphrases]
  rfl

/-- A grown tree always has a first table. -/
theorem Grown.ofTree_eq {t : Tree} (h : t.Grown) : Table.ofTree t = .ok t.blankTable := by
  rw [Table.ofTree, preOrder_eq, ← Phrase.map_id_subphrases]
  exact Table.insertNodes_eq (fun q hq => h.node_eq hq) .empty

theorem Grown.start_eq {t : Tree} (h : t.Grown) :
    Checker.start t = .ok { tree := t, state := { table := t.blankTable } } := by
  simp [Checker.start, h.ofTree_eq, bind, Except.bind, pure, Except.pure]

/-- A tree in which the number 5 is assigned to the variable x. -/
def assignmentTree : Tree :=
  let x : Phrase := .mk 0 .name "x" []
  let target : Phrase := .mk 1 (.construct .numberVariable) "" [x]
  let becomes : Phrase := .mk 2 .token ":=" []
  let five : Phrase := .mk 3 .number "5" []
  let root : Phrase := .mk 4 (.construct .assignment) "" [target, becomes, five]
  { forest := ⟨[⟨x, some 1⟩, ⟨target, some 4⟩, ⟨becomes, some 4⟩, ⟨five, some 4⟩,
      ⟨root, none⟩]⟩
    root }

theorem assignmentTree_grown : assignmentTree.Grown :=
  grown_of_regrown rfl

/-- A tree of a procedure p in whose body a text is assigned to a number variable. -/
def brokenProcedureTree : Tree :=
  let x : Phrase := .mk 0 .name "x" []
  let target : Phrase := .mk 1 (.construct .numberVariable) "" [x]
  let becomes : Phrase := .mk 2 .token ":=" []
  let text : Phrase := .mk 3 .shortString "five" []
  let body : Phrase := .mk 4 (.construct .assignment) "" [target, becomes, text]
  let word : Phrase := .mk 5 .token "proc" []
  let name : Phrase := .mk 6 .name "p" []
  let root : Phrase := .mk 7 (.construct .procedure) "" [word, name, body]
  { forest := ⟨[⟨x, some 1⟩, ⟨target, some 4⟩, ⟨becomes, some 4⟩, ⟨text, some 4⟩,
      ⟨body, some 7⟩, ⟨word, some 7⟩, ⟨name, some 7⟩, ⟨root, none⟩]⟩
    root }

theorem brokenProcedureTree_grown : brokenProcedureTree.Grown :=
  grown_of_regrown rfl

end Tree

end TreeTyping
