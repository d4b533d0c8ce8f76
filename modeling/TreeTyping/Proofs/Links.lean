import Mathlib.Logic.Relation
import TreeTyping.Proofs.Growth

/-!
# Parent links and children lists

A forest says twice how its nodes hang together: a node lists its children, and each child has a
link to its parent. Whatever nodes are asked for, and whether or not they are refused, the two
agree, no node is listed twice, and children are older than their parents. So what can be reached
from a root is a tree.
-/

namespace TreeTyping

namespace Forest

/-- A node lists another among its children. -/
def Holds (f : Forest) (parent child : NodeId) : Prop :=
  ∃ n, f.nodes[parent]? = some n ∧ child ∈ n.children

/-- A node has a link to another as its parent. -/
def LinksTo (f : Forest) (child parent : NodeId) : Prop :=
  ∃ n, f.nodes[child]? = some n ∧ n.parent = some parent

/-- How the nodes of a forest hang together. -/
structure Linked (f : Forest) : Prop where
  /-- A node is named by its position. -/
  named : ∀ (i : NodeId) (n : Node), f.nodes[i]? = some n → n.id = i
  /-- Children are older than the node that lists them. -/
  older : ∀ p c, f.Holds p c → c < p
  /-- No node is listed twice, by one node or by two. -/
  distinct : (f.nodes.flatMap Node.children).Nodup
  /-- A node links to the node that lists it. -/
  linksTo_iff : ∀ c p, f.LinksTo c p ↔ f.Holds p c

section Extend

variable {f : Forest} {category : Category} {lexeme : String} {parts : List Phrase}

/-- In an extended forest the added node lists its parts, and all else is listed as before. -/
theorem holds_extend (p c : NodeId) :
    (f.extend category lexeme parts).Holds p c ↔
      f.Holds p c ∨ p = f.size ∧ c ∈ parts.map Phrase.id := by
  constructor
  · rintro ⟨n, hn, hc⟩
    rcases getElem?_extend hn with ⟨m, hm, rfl⟩ | ⟨rfl, rfl⟩
    · exact .inl ⟨m, hm, by simpa [Node.children] using hc⟩
    · exact .inr ⟨rfl, hc⟩
  · rintro (⟨m, hm, hc⟩ | ⟨rfl, hc⟩)
    · exact ⟨_, getElem?_extend_adopt hm, by simpa [Node.children] using hc⟩
    · exact ⟨_, getElem?_extend_size, hc⟩

theorem not_linksTo_of_free {c p : NodeId} {phrase : Phrase} (h : f.Free c phrase) :
    ¬ f.LinksTo c p := by
  obtain ⟨n, hn, hparent, -⟩ := h
  rintro ⟨m, hm, hlink⟩
  rw [hn] at hm
  cases hm
  simp [hparent] at hlink

/-- In an extended forest the parts of the added node link to it, and all other links are as
before. -/
theorem WellFormed.linksTo_extend (wf : f.WellFormed)
    (hfree : ∀ part ∈ parts, f.Free part.id part) (c p : NodeId) :
    (f.extend category lexeme parts).LinksTo c p ↔
      f.LinksTo c p ∨ p = f.size ∧ c ∈ parts.map Phrase.id := by
  have hname : ∀ m, f.nodes[c]? = some m → m.id = c := fun m hm => wf.named c m hm
  constructor
  · rintro ⟨n, hn, hlink⟩
    rcases getElem?_extend hn with ⟨m, hm, rfl⟩ | ⟨rfl, rfl⟩
    · unfold Node.adopt at hlink
      split at hlink
      · rename_i hmem
        exact .inr ⟨(Option.some.inj hlink).symm, hname m hm ▸ hmem⟩
      · exact .inl ⟨m, hm, hlink⟩
    · simp at hlink
  · rintro (⟨m, hm, hlink⟩ | ⟨rfl, hc⟩)
    · -- A node with a parent cannot have been taken as a part.
      have hnot : m.id ∉ parts.map Phrase.id := by
        rw [hname m hm]
        intro hmem
        obtain ⟨part, hpart, rfl⟩ := List.mem_map.mp hmem
        exact not_linksTo_of_free (hfree part hpart) ⟨m, hm, hlink⟩
      exact ⟨_, getElem?_extend_adopt hm, by simpa [Node.adopt, hnot] using hlink⟩
    · obtain ⟨part, hpart, rfl⟩ := List.mem_map.mp hc
      obtain ⟨m, hm, -, -⟩ := hfree part hpart
      have hmem : m.id ∈ parts.map Phrase.id := (hname m hm).symm ▸ hc
      exact ⟨_, getElem?_extend_adopt hm, by simp only [Node.adopt, if_pos hmem]⟩

theorem children_extend :
    (f.extend category lexeme parts).nodes.flatMap Node.children =
      f.nodes.flatMap Node.children ++ parts.map Phrase.id := by
  have hold : ∀ n : Node, (n.adopt (parts.map Phrase.id) f.size).children = n.children := by
    simp [Node.children]
  simp only [extend, List.flatMap_append, List.flatMap_map, hold, List.flatMap_cons,
    List.flatMap_nil, List.append_nil]
  rfl

theorem mem_children_iff (c : NodeId) :
    c ∈ f.nodes.flatMap Node.children ↔ ∃ p, f.Holds p c := by
  rw [List.mem_flatMap]
  constructor
  · rintro ⟨n, hn, hc⟩
    obtain ⟨p, hp⟩ := List.getElem?_of_mem hn
    exact ⟨p, n, hp, hc⟩
  · rintro ⟨p, n, hp, hc⟩
    exact ⟨n, List.mem_of_getElem? hp, hc⟩

/-- A node that is added above distinct nodes that stand alone keeps a forest linked. -/
theorem Linked.extend (wf : f.WellFormed) (h : f.Linked) (hnodup : (parts.map Phrase.id).Nodup)
    (hfree : ∀ part ∈ parts, f.Free part.id part) :
    (f.extend category lexeme parts).Linked where
  named := (wf.extend hnodup hfree).named
  older := by
    intro p c hholds
    rcases (holds_extend p c).mp hholds with hold | ⟨rfl, hc⟩
    · exact h.older p c hold
    · obtain ⟨part, hpart, rfl⟩ := List.mem_map.mp hc
      obtain ⟨n, hn, -, -⟩ := hfree part hpart
      exact (List.getElem?_eq_some_iff.mp hn).1
  distinct := by
    rw [children_extend, List.nodup_append']
    refine ⟨h.distinct, hnodup, fun c hold hnew => ?_⟩
    obtain ⟨p, hholds⟩ := (mem_children_iff c).mp hold
    obtain ⟨part, hpart, rfl⟩ := List.mem_map.mp hnew
    exact not_linksTo_of_free (hfree part hpart) ((h.linksTo_iff _ p).mpr hholds)
  linksTo_iff := by
    intro c p
    rw [wf.linksTo_extend hfree, holds_extend, h.linksTo_iff]

end Extend

theorem Linked.empty : Linked {} where
  named := by simp
  older := by simp [Holds]
  distinct := by simp
  linksTo_iff := by simp [LinksTo, Holds]

/-- A grown forest is linked. -/
theorem Grown.linked {f : Forest} (h : f.Grown) : f.Linked := by
  induction h with
  | empty => exact .empty
  | serve grown request ih =>
      rcases grown.wellFormed.serve_cases request with hsame | ⟨-, _, _, parts, hnodup, hfree, hg⟩
      · rwa [hsame]
      · rw [hg]
        exact ih.extend grown.wellFormed hnodup hfree

namespace Linked

variable {f : Forest}

/-- Nodes that can be reached through children are older. -/
theorem lt_of_transGen (h : f.Linked) {p c : NodeId} (hpath : Relation.TransGen f.Holds p c) :
    c < p := by
  induction hpath with
  | single hholds => exact h.older _ _ hholds
  | tail _ hholds ih => exact Nat.lt_trans (h.older _ _ hholds) ih

/-- A node is listed by one node only. -/
theorem eq_of_holds (h : f.Linked) {p p' c : NodeId} (hp : f.Holds p c) (hp' : f.Holds p' c) :
    p = p' := by
  obtain ⟨n, hn, hlink⟩ := (h.linksTo_iff c p).mpr hp
  obtain ⟨n', hn', hlink'⟩ := (h.linksTo_iff c p').mpr hp'
  rw [hn] at hn'
  cases hn'
  exact Option.some.inj (hlink.symm.trans hlink')

end Linked

end Forest

namespace Tree

variable {t : Tree}

/-- The category around a node is that of the node that lists it. -/
theorem parentCategory?_of_holds (h : t.forest.Linked) {p c : NodeId} {n : Node}
    (hn : t.forest.nodes[p]? = some n) (hc : c ∈ n.children) :
    t.parentCategory? c = some n.category := by
  obtain ⟨m, hm, hlink⟩ := (h.linksTo_iff c p).mpr ⟨n, hn, hc⟩
  simp [parentCategory?, hm, hlink, hn]

/-- The phrase around a part, in whose context the part is typed, is the one to which the link of
the part leads. -/
theorem Grown.parentCategory?_part (h : t.Grown) {p q : Phrase} (hp : p ∈ t.root.subphrases)
    (hq : q ∈ p.parts) : t.parentCategory? q.id = some p.category := by
  obtain ⟨n, hn, rfl⟩ := h.stored hp
  exact parentCategory?_of_holds h.1.linked hn (List.mem_map_of_mem hq)

/-- A forest is linked after every sequence of requests, accepted or refused. In each tree made
from it, the root has no parent, no node that can be reached from the root lies on a cycle, and
every such node but the root is listed by exactly one node, whose category is the one around it. -/
theorem linked_ofRequests (requests : List Forest.Request) :
    (Forest.ofRequests requests).Linked ∧
      ∀ root t, ofForest (Forest.ofRequests requests) root = .ok t →
        (∃ n, t.node root = .ok n ∧ n.phrase = t.root ∧ n.parent = none) ∧
        ∀ c, Relation.ReflTransGen t.forest.Holds root c →
          ¬ Relation.TransGen t.forest.Holds c c ∧
          (c ≠ root → ∃ p n, t.node p = .ok n ∧ c ∈ n.children ∧
            (∀ p', t.forest.Holds p' c → p' = p) ∧ t.parentCategory? c = some n.category) := by
  have hlinked := (Forest.grown_ofRequests requests).linked
  refine ⟨hlinked, fun root t htree => ?_⟩
  obtain ⟨hforest, n, hn, hparent, hphrase⟩ := ofForest_ok htree
  rw [← hforest] at hlinked hn
  refine ⟨⟨n, by simp [node, Forest.node, hn], hphrase, hparent⟩, fun c hreach => ⟨?_, ?_⟩⟩
  · exact fun hcycle => Nat.lt_irrefl c (hlinked.lt_of_transGen hcycle)
  · intro hne
    obtain ⟨p, -, m, hm, hc⟩ := hreach.cases_tail.resolve_left hne
    refine ⟨p, m, by simp [node, Forest.node, hm], hc, fun p' hp' => ?_, ?_⟩
    · exact hlinked.eq_of_holds hp' ⟨m, hm, hc⟩
    · exact parentCategory?_of_holds hlinked hm hc

/-- The requests that make up `assignmentTree`, and one that is refused because the name already
has a parent. -/
def assignmentRequests : List Forest.Request :=
  [.leaf .name "x", .node (.construct .numberVariable) "" [0], .leaf .token ":=",
    .leaf .number "5", .node (.construct .stringVariable) "" [0],
    .node (.construct .assignment) "" [1, 2, 3]]

/-- The name in an assignment stands below a number variable and nowhere else. -/
theorem linked_assignmentRequests :
    ofForest (Forest.ofRequests assignmentRequests) 4 = .ok assignmentTree ∧
      Relation.ReflTransGen assignmentTree.forest.Holds 4 0 ∧
      (∀ p, assignmentTree.forest.Holds p 0 → p = 1) ∧
      assignmentTree.parentCategory? 0 = some (.construct .numberVariable) := by
  have htree : ofForest (Forest.ofRequests assignmentRequests) 4 = .ok assignmentTree := rfl
  have htarget : assignmentTree.forest.Holds 4 1 := ⟨_, rfl, by decide⟩
  have hname : assignmentTree.forest.Holds 1 0 := ⟨_, rfl, by decide⟩
  have hreach : Relation.ReflTransGen assignmentTree.forest.Holds 4 0 :=
    .tail (.single htarget) hname
  obtain ⟨p, n, hn, -, honly, hcategory⟩ :=
    ((linked_ofRequests assignmentRequests).2 4 _ htree).2 0 hreach |>.2 (by decide)
  obtain rfl := honly 1 hname
  cases hn
  exact ⟨htree, hreach, honly, hcategory⟩

end Tree

end TreeTyping
