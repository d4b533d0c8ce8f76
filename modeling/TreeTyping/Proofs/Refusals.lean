import Mathlib.Data.Nat.Find
import TreeTyping.Proofs.Links

/-!
# Nodes that a forest refuses

A forest looks at all children of a new node before it takes any of them. It goes through the list
from left to right and refuses the node because of the first child that it does not know, that has a
parent, or that it has met already in the list. A refusal leaves the forest as it was, so requests
that are refused can be left out of a sequence. A node that is accepted changes nothing but the
parents of its children.
-/

namespace TreeTyping

namespace Forest

/-- Why a node cannot be taken as a child after the nodes of `taken`. -/
inductive Refuses (f : Forest) (taken : List NodeId) (id : NodeId) : Fault → Prop
  | absent (unknown : f.nodes[id]? = none) :
      Refuses f taken id ⟨.nodeNotFound id, .unknown id⟩
  | attached {n : Node} (known : f.nodes[id]? = some n) (held : n.parent ≠ none ∨ id ∈ taken) :
      Refuses f taken id ⟨.nodeAttached id, n.location⟩

/-- The child at a position is not in the forest, has a parent, or occurs earlier in the list. -/
def OffendsAt (f : Forest) (children : List NodeId) (i : Nat) : Prop :=
  ∃ id, children[i]? = some id ∧
    (f.size ≤ id ∨ (∃ p, f.LinksTo id p) ∨ id ∈ children.take i)

/-- The fault of the first child in a list that cannot be taken. -/
def RefusesFirst (f : Forest) (children : List NodeId) (fault : Fault) : Prop :=
  ∃ i id, children[i]? = some id ∧ f.Refuses (children.take i) id fault ∧
    ∀ j < i, ¬ f.OffendsAt children j

/-- How a forest grows to another by a node above the given children: the node stands at the end and
has no parent, and of the other nodes only the children have changed, in their parents. -/
structure GrowsTo (f g : Forest) (category : Category) (lexeme : String)
    (children : List NodeId) : Prop where
  size_eq : g.size = f.size + 1
  added : ∃ n, g.nodes[f.size]? = some n ∧ n.id = f.size ∧ n.category = category ∧
    n.lexeme = lexeme ∧ n.children = children ∧ n.parent = none
  child : ∀ (id : NodeId) (n : Node), id ∈ children → f.nodes[id]? = some n →
    n.parent = none ∧ g.nodes[id]? = some { n with parent := some f.size }
  other : ∀ (id : NodeId) (n : Node), id ∉ children → f.nodes[id]? = some n →
    g.nodes[id]? = some n

/-- The requests of a sequence that are not refused when their turn comes. -/
def accepted (f : Forest) : List Request → List Request
  | [] => []
  | request :: rest =>
      match request.answer f with
      | .ok _ g => request :: g.accepted rest
      | .error _ g => g.accepted rest

section Refuses

variable {f : Forest} {taken taken' : List NodeId} {id : NodeId} {fault : Fault}

theorem Refuses.congr (h : f.Refuses taken id fault) (hmem : id ∈ taken ↔ id ∈ taken') :
    f.Refuses taken' id fault := by
  cases h with
  | absent unknown => exact .absent unknown
  | attached known held => exact .attached known (held.imp_right hmem.mp)

theorem linksTo_iff_parent {n : Node} (hn : f.nodes[id]? = some n) :
    (∃ p, f.LinksTo id p) ↔ n.parent ≠ none := by
  constructor
  · rintro ⟨p, m, hm, hlink⟩ hnone
    obtain rfl : n = m := Option.some.inj (hn.symm.trans hm)
    rw [hnone] at hlink
    cases hlink
  · intro hne
    obtain ⟨p, hp⟩ := Option.ne_none_iff_exists'.mp hne
    exact ⟨p, n, hn, hp⟩

/-- A node is refused exactly if it is not in the forest, has a parent, or has been taken. -/
theorem exists_refuses_iff :
    (∃ fault, f.Refuses taken id fault) ↔
      f.size ≤ id ∨ (∃ p, f.LinksTo id p) ∨ id ∈ taken := by
  cases hn : f.nodes[id]? with
  | none =>
      have hsize : f.size ≤ id := List.getElem?_eq_none_iff.mp hn
      exact ⟨fun _ => .inl hsize, fun _ => ⟨_, .absent hn⟩⟩
  | some n =>
      have hsize : ¬ f.size ≤ id := Nat.not_le.mpr (List.getElem?_eq_some_iff.mp hn).1
      rw [linksTo_iff_parent hn]
      constructor
      · rintro ⟨fault, h⟩
        cases h with
        | absent unknown => simp [hn] at unknown
        | attached known held =>
            obtain rfl := Option.some.inj (hn.symm.trans known)
            exact .inr held
      · intro h
        exact ⟨_, .attached hn (h.resolve_left hsize)⟩

/-- The test of a single child. -/
theorem freeNode_error_iff : f.freeNode taken id = .error fault ↔ f.Refuses taken id fault := by
  unfold freeNode node
  cases hn : f.nodes[id]? with
  | none =>
      simp only [bind, Except.bind, Except.error.injEq]
      constructor
      · rintro rfl
        exact .absent hn
      · intro h
        cases h with
        | absent => rfl
        | attached known => simp [hn] at known
  | some n =>
      simp only [bind, Except.bind, throw, throwThe, MonadExceptOf.throw, pure, Except.pure]
      split
      · rename_i hheld
        rw [Option.isSome_iff_ne_none] at hheld
        rw [Except.error.injEq]
        constructor
        · rintro rfl
          exact .attached hn hheld
        · intro h
          cases h with
          | absent unknown => simp [hn] at unknown
          | attached known => rw [Option.some.inj (hn.symm.trans known)]
      · rename_i hfree
        rw [Option.isSome_iff_ne_none] at hfree
        simp only [reduceCtorEq, false_iff]
        intro h
        cases h with
        | absent unknown => simp [hn] at unknown
        | attached known held =>
            obtain rfl := Option.some.inj (hn.symm.trans known)
            exact hfree held

end Refuses

/-- The child at a position is refused with a fault. The nodes of `taken` have been met before the
list. -/
def RefusesAt (f : Forest) (taken children : List NodeId) (i : Nat) (fault : Fault) : Prop :=
  ∃ id, children[i]? = some id ∧ f.Refuses (taken ++ children.take i) id fault

section Gather

variable {f : Forest} {taken rest children : List NodeId} {id : NodeId} {i : Nat} {fault : Fault}

theorem refusesAt_zero_iff :
    f.RefusesAt taken (id :: rest) 0 fault ↔ f.Refuses taken id fault := by
  simp [RefusesAt]

theorem refusesAt_succ_iff :
    f.RefusesAt taken (id :: rest) (i + 1) fault ↔ f.RefusesAt (id :: taken) rest i fault := by
  have hmem : ∀ x, x ∈ taken ++ id :: rest.take i ↔ x ∈ id :: taken ++ rest.take i := by
    simp [or_left_comm]
  simp only [RefusesAt, List.getElem?_cons_succ, List.take_succ_cons]
  constructor
  · rintro ⟨x, hx, h⟩
    exact ⟨x, hx, h.congr (hmem x)⟩
  · rintro ⟨x, hx, h⟩
    exact ⟨x, hx, h.congr (hmem x).symm⟩

/-- Children are tested from left to right, and the first that is refused decides the fault. -/
theorem gather_error_iff :
    gather taken children f = .error fault f ↔
      ∃ i, f.RefusesAt taken children i fault ∧
        ∀ j < i, ¬ ∃ fault', f.RefusesAt taken children j fault' := by
  induction children generalizing taken with
  | nil => simp [gather, RefusesAt, pure, EStateM.pure]
  | cons id rest ih =>
      cases hfree : f.freeNode taken id with
      | error fault' =>
          have hhead : f.RefusesAt taken (id :: rest) 0 fault' :=
            refusesAt_zero_iff.mpr (freeNode_error_iff.mp hfree)
          have hgather : gather taken (id :: rest) f = .error fault' f := by
            rw [gather_cons]
            exact Change.bind_of_error (Change.look_eq_error_iff.mpr ⟨hfree, rfl⟩)
          rw [hgather, EStateM.Result.error.injEq]
          constructor
          · rintro ⟨rfl, -⟩
            exact ⟨0, hhead, fun j hj => absurd hj (Nat.not_lt_zero j)⟩
          · rintro ⟨i, hi, hbefore⟩
            cases i with
            | zero =>
                have hsame := freeNode_error_iff.mpr (refusesAt_zero_iff.mp hi)
                exact ⟨Except.error.inj (hfree.symm.trans hsame), rfl⟩
            | succ i => exact absurd ⟨fault', hhead⟩ (hbefore 0 (Nat.succ_pos i))
      | ok n =>
          have hhead : ∀ fault', ¬ f.RefusesAt taken (id :: rest) 0 fault' := by
            intro fault' h
            have hrefused := freeNode_error_iff.mpr (refusesAt_zero_iff.mp h)
            rw [hfree] at hrefused
            cases hrefused
          have hgather : gather taken (id :: rest) f = .error fault f ↔
              gather (id :: taken) rest f = .error fault f := by
            have hlook : Change.look (fun f : Forest => f.freeNode taken id) f = .ok n f :=
              Change.look_eq_ok_iff.mpr ⟨hfree, rfl⟩
            rw [gather_cons, Change.bind_of_ok hlook, Change.bind_eq_error_iff]
            simp [pure, EStateM.pure]
          rw [hgather, ih]
          constructor
          · rintro ⟨i, hi, hbefore⟩
            refine ⟨i + 1, refusesAt_succ_iff.mpr hi, ?_⟩
            rintro j hj ⟨fault', h⟩
            cases j with
            | zero => exact hhead fault' h
            | succ j =>
                exact hbefore j (Nat.lt_of_succ_lt_succ hj) ⟨fault', refusesAt_succ_iff.mp h⟩
          · rintro ⟨i, hi, hbefore⟩
            cases i with
            | zero => exact absurd hi (hhead fault)
            | succ i =>
                refine ⟨i, refusesAt_succ_iff.mp hi, ?_⟩
                rintro j hj ⟨fault', h⟩
                exact hbefore (j + 1) (Nat.succ_lt_succ hj) ⟨fault', refusesAt_succ_iff.mpr h⟩

theorem offendsAt_iff : f.OffendsAt children i ↔ ∃ fault, f.RefusesAt [] children i fault := by
  simp only [OffendsAt, RefusesAt, List.nil_append, ← exists_refuses_iff]
  constructor
  · rintro ⟨id, hid, fault, h⟩
    exact ⟨fault, id, hid, h⟩
  · rintro ⟨fault, id, hid, h⟩
    exact ⟨id, hid, fault, h⟩

/-- If some child offends, then one of them is the first to do so. -/
theorem exists_refusesFirst_iff :
    (∃ fault, f.RefusesFirst children fault) ↔ ∃ i, f.OffendsAt children i := by
  classical
  constructor
  · rintro ⟨fault, i, id, hid, h, -⟩
    exact ⟨i, offendsAt_iff.mpr ⟨fault, id, hid, h⟩⟩
  · intro h
    obtain ⟨fault, id, hid, hrefuses⟩ := offendsAt_iff.mp (Nat.find_spec h)
    exact ⟨fault, Nat.find h, id, hid, hrefuses, fun j hj => Nat.find_min h hj⟩

variable {category : Category} {lexeme : String}

/-- As long as there is room, a node is refused because of its children only, and the forest that
refuses it is left as it was. -/
theorem add_error_iff (hroom : f.size < capacity) {g : Forest} :
    add category lexeme children f = .error fault g ↔ f.RefusesFirst children fault ∧ g = f := by
  have hgather : add category lexeme children f = .error fault g ↔
      gather [] children f = .error fault f ∧ g = f := by
    constructor
    · intro h
      obtain rfl := eq_of_add_error h
      rcases add_error h with ⟨hfull, -⟩ | ⟨-, hparts⟩
      · simp [newId, hroom] at hfull
      · exact ⟨hparts, rfl⟩
    · rintro ⟨hparts, rfl⟩
      have hnext : Change.look (fun f => newId f.size) g = .ok g.size g :=
        Change.look_eq_ok_iff.mpr ⟨newId_eq_ok_iff.mpr ⟨hroom, rfl⟩, rfl⟩
      rw [add, Change.bind_of_ok hnext, Change.bind_of_error hparts]
  rw [hgather, gather_error_iff]
  simp only [← offendsAt_iff]
  constructor
  · rintro ⟨⟨i, ⟨id, hid, h⟩, hbefore⟩, rfl⟩
    exact ⟨⟨i, id, hid, h, hbefore⟩, rfl⟩
  · rintro ⟨⟨i, id, hid, h, hbefore⟩, rfl⟩
    exact ⟨⟨i, ⟨id, hid, h⟩, hbefore⟩, rfl⟩

/-- A node that is accepted is added above its children and changes nothing else. -/
theorem WellFormed.growsTo (wf : f.WellFormed) {g : Forest}
    (h : add category lexeme children f = .ok id g) :
    f.GrowsTo g category lexeme children := by
  obtain ⟨parts, rfl, -, hfree, rfl⟩ := wf.eq_extend h
  have hnamed : ∀ (i : NodeId) (n : Node), f.nodes[i]? = some n → n.id = i := wf.named
  refine ⟨size_extend parts, ?_, fun i n hi hn => ⟨?_, ?_⟩, fun i n hi hn => ?_⟩
  · exact ⟨_, getElem?_extend_size, rfl, rfl, rfl, rfl, rfl⟩
  · obtain ⟨part, hpart, rfl⟩ := List.mem_map.mp hi
    obtain ⟨m, hm, hparent, -⟩ := hfree part hpart
    obtain rfl := Option.some.inj (hn.symm.trans hm)
    exact hparent
  · rw [getElem?_extend_adopt hn, Node.adopt, if_pos (hnamed i n hn ▸ hi)]
  · rw [getElem?_extend_adopt hn, Node.adopt, if_neg (hnamed i n hn ▸ hi)]

end Gather

/-- A refused request leaves the forest as it was, also if there is no room. -/
theorem eq_of_refused {f g : Forest} {request : Request} {fault : Fault}
    (h : request.answer f = .error fault g) : g = f := by
  obtain ⟨category, lexeme, children, hanswer⟩ := request.exists_answer_eq
  rw [hanswer] at h
  exact eq_of_add_error h

/-- Requests that are refused can be left out. -/
theorem foldl_serve_accepted (f : Forest) (requests : List Request) :
    (f.accepted requests).foldl serve f = requests.foldl serve f := by
  induction requests generalizing f with
  | nil => rfl
  | cons request rest ih =>
      cases hanswer : request.answer f with
      | ok id g =>
          have hserve : f.serve request = g := Change.leaving_of_ok hanswer
          simp only [accepted, hanswer, List.foldl_cons, hserve, ih]
      | error fault g =>
          have hserve : f.serve request = g := Change.leaving_of_error hanswer
          obtain rfl := eq_of_refused hanswer
          simp only [accepted, hanswer, List.foldl_cons, hserve, ih]

end Forest

/-- A root is refused exactly as a child would be of which nothing has been taken. -/
theorem Tree.ofForest_error_iff {f : Forest} {root : NodeId} {fault : Fault} :
    ofForest f root = .error fault ↔ f.Refuses [] root fault := by
  rw [← Forest.freeNode_error_iff]
  unfold ofForest
  cases f.freeNode [] root <;> simp [bind, Except.bind, pure, Except.pure]

namespace Forest

/-- After every sequence of requests that leaves room for a node, a node is refused exactly if one
of its children offends, and the first such child decides the fault. The forest that a refused
request leaves behind is the one from before it, so the accepted requests alone make the same
forest. An accepted node gets the next name and changes nothing but the parents of its children. A
root is refused exactly if it is not in the forest or has a parent. -/
theorem refuses_exactly (requests : List Request)
    (hroom : (ofRequests requests).size < capacity) :
    let f := ofRequests requests
    (∀ category lexeme children,
      ((∃ fault g, add category lexeme children f = .error fault g) ↔
        ∃ i, f.OffendsAt children i) ∧
      (∀ fault g, add category lexeme children f = .error fault g ↔
        f.RefusesFirst children fault ∧ g = f) ∧
      ∀ id g, add category lexeme children f = .ok id g →
        id = f.size ∧ f.GrowsTo g category lexeme children) ∧
    (∀ (request : Request) fault g, request.answer f = .error fault g → g = f) ∧
    ofRequests (accepted {} requests) = f ∧
    ∀ root, (∃ fault, Tree.ofForest f root = .error fault) ↔
      f.size ≤ root ∨ ∃ p, f.LinksTo root p := by
  have wf := (grown_ofRequests requests).wellFormed
  refine ⟨fun category lexeme children => ⟨?_, fun fault g => add_error_iff hroom, ?_⟩,
    fun request fault g => eq_of_refused, foldl_serve_accepted {} requests, fun root => ?_⟩
  · simp only [add_error_iff hroom, exists_and_left, exists_eq, and_true]
    exact exists_refusesFirst_iff
  · intro id g h
    exact ⟨(add_ok h).1, wf.growsTo h⟩
  · simp only [Tree.ofForest_error_iff, exists_refuses_iff, List.not_mem_nil, or_false]

/-- After the requests for an assignment, one of which is refused, a node above the assignment is
refused because of a child that does not exist, although the child before it could have been linked
and a later one has a parent. It is refused as well if the assignment is listed twice. In both cases
the assignment stands alone as before. The name of the variable cannot be a root. -/
theorem refuses_assignmentRequests :
    let f := ofRequests Tree.assignmentRequests
    f.size < capacity ∧
      add .token "" [4, 7, 0] f = .error ⟨.nodeNotFound 7, .unknown 7⟩ f ∧
      add .token "" [4, 4, 7] f =
        .error ⟨.nodeAttached 4, ⟨4, .construct .assignment, ""⟩⟩ f ∧
      (accepted {} Tree.assignmentRequests).length = 5 ∧
      ofRequests (accepted {} Tree.assignmentRequests) = f ∧
      (∃ g, add .token "" [4] f = .ok 5 g ∧ f.GrowsTo g .token "" [4]) ∧
      ∃ fault, Tree.ofForest f 0 = .error fault := by
  intro f
  have hroom : f.size < capacity := by decide
  obtain ⟨hnode, -, haccepted, hroot⟩ := refuses_exactly Tree.assignmentRequests hroom
  have hfirst : ∀ rest, ∀ j < 1, ¬ f.OffendsAt (4 :: rest) j := by
    rintro rest j hj ⟨id, hid, hoffends⟩
    obtain rfl : j = 0 := Nat.lt_one_iff.mp hj
    obtain rfl : 4 = id := Option.some.inj hid
    rcases hoffends with hsize | ⟨p, n, hn, hlink⟩ | htaken
    · exact absurd hsize (by decide)
    · cases hn
      cases hlink
    · cases htaken
  refine ⟨hroom, ?_, ?_, rfl, haccepted, ⟨_, rfl, ?_⟩, (hroot 0).mpr (.inr ⟨1, _, rfl, rfl⟩)⟩
  · exact ((hnode .token "" [4, 7, 0]).2.1 _ _).mpr ⟨⟨1, 7, rfl, .absent rfl, hfirst _⟩, rfl⟩
  · have htop : f.nodes[4]? = some ⟨Tree.assignmentTree.root, none⟩ := rfl
    have hagain : 4 ∈ [4, 4, 7].take 1 := by decide
    exact ((hnode .token "" [4, 4, 7]).2.1 _ _).mpr
      ⟨⟨1, 4, rfl, .attached htop (.inr hagain), hfirst _⟩, rfl⟩
  · exact ((hnode .token "" [4]).2.2 5 _ rfl).2

end Forest

end TreeTyping
