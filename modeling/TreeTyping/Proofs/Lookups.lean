import TreeTyping.Proofs.Arrivals
import TreeTyping.Proofs.Links

/-!
# Lookups in a tree

A tree can be asked by the name of a node for the node, for one of its parts and for the category
around it. A typing asks nothing of this kind, since a phrase comes with its parts and with its
context. The two ways agree: at every phrase that a run comes to, what the tree tells by name is the
phrase, its parts and the context in which it is typed.
-/

namespace TreeTyping

theorem Phrase.firstName?_eq (p : Phrase) :
    p.firstName? =
      if p.category = .name then some p.lexeme else p.parts.head?.bind firstName? := by
  obtain ⟨i, c, l, ps⟩ := p
  cases ps <;> rfl

namespace Tree

/-- What a tree tells about a node is that it stands for the given phrase in the given context. -/
structure Shows (t : Tree) (context : Option Category) (p : Phrase) : Prop where
  /-- The node that is found under the name of the phrase stands for the phrase. -/
  node : (t.node p.id).map Node.phrase = .ok p
  /-- The node that is found at a position below stands for the part at that position. Where there
  is no such part, both ways end in the same fault. -/
  child : ∀ index, (t.child p.id index).map Node.phrase = p.part index
  /-- The category around the node is the context. -/
  parent : t.parentCategory? p.id = context

/-- A tree leads from a node down to a text. Each step looks up one node, takes its text if it is a
name, and goes on with its first child otherwise. -/
inductive LeadsTo (t : Tree) : NodeId → String → Prop
  | name {id : NodeId} {n : Node} (node : t.node id = .ok n) (category : n.category = .name) :
      LeadsTo t id n.lexeme
  | first {id child : NodeId} {n : Node} {text : String} (node : t.node id = .ok n)
      (category : n.category ≠ .name) (head : n.children.head? = some child)
      (rest : LeadsTo t child text) : LeadsTo t id text

namespace Grown

variable {t : Tree} {p : Phrase}

theorem node_map (h : t.Grown) (hp : p ∈ t.root.subphrases) :
    (t.node p.id).map Node.phrase = .ok p := by
  obtain ⟨n, hn, rfl⟩ := h.node_eq hp
  rw [hn]
  rfl

/-- A part that is looked up by name and position is the part of the phrase. -/
theorem child_map (h : t.Grown) (hp : p ∈ t.root.subphrases) (index : Nat) :
    (t.child p.id index).map Node.phrase = p.part index := by
  obtain ⟨n, hn, rfl⟩ := h.node_eq hp
  have hchild : t.child n.phrase.id index = (n.phrase.part index).bind fun q => t.node q.id := by
    rw [child, hn]
    rfl
  rw [hchild, Phrase.part]
  cases hq : n.phrase.parts[index]? with
  | none => rfl
  | some q =>
      have hmem : q ∈ t.root.subphrases :=
        Phrase.subphrases_subset hp (Phrase.part_mem_subphrases (List.mem_of_getElem? hq))
      exact h.node_map hmem

/-- There is no category around the root. -/
theorem parentCategory?_root (h : t.Grown) : t.parentCategory? t.root.id = none := by
  obtain ⟨root, n, hn, hparent, hphrase⟩ := h.free
  have hid : t.root.id = root := hphrase ▸ h.1.wellFormed.named root n hn
  simp [parentCategory?, hid, hn, hparent]

theorem shows_root (h : t.Grown) : t.Shows none t.root where
  node := h.node_map t.root.self_mem_subphrases
  child := h.child_map t.root.self_mem_subphrases
  parent := h.parentCategory?_root

theorem shows_part (h : t.Grown) {q : Phrase} (hp : p ∈ t.root.subphrases) (hq : q ∈ p.parts) :
    t.Shows (some p.category) q where
  node := h.node_map (Phrase.subphrases_subset hp (Phrase.part_mem_subphrases hq))
  child := h.child_map (Phrase.subphrases_subset hp (Phrase.part_mem_subphrases hq))
  parent := h.parentCategory?_part hp hq

/-- The way down from a phrase by lookups ends where the phrase has its first name. -/
theorem leadsTo_iff (h : t.Grown) (hp : p ∈ t.root.subphrases) {text : String} :
    t.LeadsTo p.id text ↔ p.firstName? = some text := by
  induction p using Phrase.induction with
  | step i c l ps ih =>
      obtain ⟨n, hn, hphrase⟩ := h.node_eq hp
      have hparts : ∀ q ∈ n.phrase.parts,
          (t.LeadsTo q.id text ↔ q.firstName? = some text) := by
        intro q hq
        rw [hphrase] at hq
        exact ih q hq (Phrase.subphrases_subset hp (Phrase.part_mem_subphrases hq))
      rw [← hphrase, Phrase.firstName?_eq]
      rw [← hphrase] at hn
      constructor
      · intro hleads
        cases hleads with
        | name node category =>
            obtain rfl := Except.ok.inj (hn.symm.trans node)
            exact if_pos category
        | first node category head rest =>
            obtain rfl := Except.ok.inj (hn.symm.trans node)
            have hother : n.phrase.category ≠ .name := category
            obtain ⟨q, hq, rfl⟩ := Option.map_eq_some_iff.mp (List.head?_map.symm.trans head)
            rw [if_neg hother, hq]
            exact (hparts q (List.mem_of_head? hq)).mp rest
      · intro hname
        by_cases hcategory : n.phrase.category = .name
        · rw [if_pos hcategory] at hname
          exact Option.some.inj hname ▸ .name hn hcategory
        · rw [if_neg hcategory] at hname
          obtain ⟨q, hq, hname⟩ := Option.bind_eq_some_iff.mp hname
          have hhead : n.children.head? = some q.id := by
            rw [Node.children, List.head?_map, hq]
            rfl
          exact .first hn hcategory hhead ((hparts q (List.mem_of_head? hq)).mpr hname)

/-- At a phrase that a typing comes to, the tree tells the phrase and its context. -/
theorem shows_of_reaches (h : t.Grown) {start s : State} {context : Option Category}
    (hreach : t.root.Reaches start context p s) : t.Shows context p := by
  cases hreach with
  | top => exact h.shows_root
  | part around _ _ _ _ _ part =>
      exact h.shows_part around.mem_subphrases (List.mem_of_getElem? part)

/-- In every run, whatever the runs before it have returned, the tree tells at every phrase that the
run comes to what the phrase is and in which context it is typed, and for each of its parts what the
part is and what its first name is. All visits that are reported are at such phrases. -/
theorem shows_of_visit (h : t.Grown) :
    ∃ checker, Checker.start t = .ok checker ∧ ∀ k,
      (∀ context p s, t.root.Reaches (checker.after k).state context p s →
        (checker.after k).tree.Shows context p ∧
        ∀ q ∈ p.parts, (checker.after k).tree.Shows (some p.category) q ∧
          ∀ text, (checker.after k).tree.LeadsTo q.id text ↔ q.firstName? = some text) ∧
      ∀ n ∈ visitedNodes (checker.after k).check.events, ∃ context p,
        (checker.after k).tree.Shows context p ∧ p.id = n := by
  refine ⟨_, h.start_eq_fresh, fun k => ?_⟩
  have htree : (t.freshChecker.after k).tree = t := Checker.tree_after _ k
  rw [htree]
  refine ⟨fun context p s hreach => ⟨h.shows_of_reaches hreach, fun q hq => ?_⟩, fun n hn => ?_⟩
  · have hp := hreach.mem_subphrases
    have hmem := Phrase.subphrases_subset hp (Phrase.part_mem_subphrases hq)
    exact ⟨h.shows_part hp hq, fun text => h.leadsTo_iff hmem⟩
  · obtain ⟨context, p, s, hreach, -, hid⟩ := Checker.exists_reaches_of_visited hn
    rw [htree] at hreach
    exact ⟨context, p, h.shows_of_reaches hreach, hid⟩

end Grown

end Tree

end TreeTyping
