import TreeTyping.Proofs.Columns
import TreeTyping.Proofs.Rules

/-!
# The tags that a typing leaves behind

A typed phrase carries its own value on top. Below it, the parts that its rule has visited
carry the tags of their own typings. The other parts are not looked into: if the rule gets to
its end, words among them are settled and one of them may be granted a tag, and otherwise
they stay as they were.

## Implementation notes

The tags are listed in pre-order and do not mention the names of the nodes.
-/

namespace TreeTyping

/-- What becomes of the parts of a phrase: the positions of those that are typed, and the
tags of the others by their positions and categories. -/
structure Fate where
  typed : List Nat
  left : Nat → Category → Tag

/-- The fate of parts that are not touched. -/
def Fate.untouched : Fate := ⟨[], fun _ _ => .unbound⟩

namespace Rule

/-- The tag of a part that a rule has not typed, after the rule has come to its end. A word
is settled after tags have been granted. -/
def leftTag (rule : Rule) (part : Nat) (category : Category) : Tag :=
  category.settledTag?.getD ((rule.grants.lookup part).getD .unbound)

/-- What becomes of the parts of a phrase under a rule. -/
def fate (rule : Rule) (p : Phrase) : Fate where
  typed := (rule.progress p p.values).visited
  left part category :=
    if (rule.progress p p.values).fault.isSome then .unbound else rule.leftTag part category

end Rule

namespace Phrase

/-- What becomes of the parts of a phrase when it is typed. -/
def fate (p : Phrase) : Fate :=
  match p.category with
  | .construct c =>
      match c.rule? (p.parts.map category) with
      | some rule => rule.fate p
      | none => .untouched
  | _ => .untouched

mutual

/-- The tags of a typed phrase, in pre-order. -/
def tagging (context : Option Category) : Phrase → List Tag
  | .mk id category lexeme parts =>
      tagOf ((Phrase.mk id category lexeme parts).evaluate context) ::
        taggingAll (Phrase.mk id category lexeme parts).fate (some category) 0 parts

/-- The tags of the parts of a phrase from a position on. -/
def taggingAll (fate : Fate) (context : Option Category) (first : Nat) :
    List Phrase → List Tag
  | [] => []
  | p :: ps =>
      (if first ∈ fate.typed then p.tagging context
        else fate.left first p.category :: List.replicate (sizeAll p.parts) .unbound) ++
        taggingAll fate context (first + 1) ps

end

/-- The tag of a part that is not evaluated, in a phrase that has been typed. A construct
settles its words after it has asserted tags. -/
def leftTag (p : Phrase) (part : Nat) (category : Category) : Tag :=
  match p.category with
  | .construct c =>
      category.settledTag?.getD
        (((c.asserted (p.parts.map Phrase.category)).lookup part).getD .unbound)
  | _ => .unbound

/-- The tags of a part at a position. -/
def taggingAt (p : Phrase) (fate : Fate) (context : Option Category) (position : Nat) : List Tag :=
  if position ∈ fate.typed then p.tagging context
  else fate.left position p.category :: List.replicate (sizeAll p.parts) .unbound

theorem size_eq (p : Phrase) : p.size = sizeAll p.parts + 1 := by
  cases p with
  | mk i c l ps => rfl

theorem tagging_eq_cons (context : Option Category) (p : Phrase) :
    p.tagging context =
      tagOf (p.evaluate context) :: taggingAll p.fate (some p.category) 0 p.parts := by
  cases p with
  | mk i c l ps => rfl

theorem taggingAll_cons (fate : Fate) (context : Option Category) (first : Nat) (p : Phrase)
    (ps : List Phrase) :
    taggingAll fate context first (p :: ps) =
      p.taggingAt fate context first ++ taggingAll fate context (first + 1) ps := rfl

theorem length_tagging (p : Phrase) (context : Option Category) :
    (p.tagging context).length = p.size := by
  induction p using Phrase.induction generalizing context with
  | step i c l ps ih =>
      have hall : ∀ (qs : List Phrase) (fate : Fate) (context : Option Category) (first : Nat),
          (∀ q ∈ qs, ∀ context, (q.tagging context).length = q.size) →
          (taggingAll fate context first qs).length = sizeAll qs := by
        intro qs fate context
        induction qs with
        | nil => simp [taggingAll, sizeAll]
        | cons q qs ihq =>
            intro first h
            rw [taggingAll_cons, List.length_append, ihq _ fun r hr => h r (by simp [hr]),
              taggingAt, sizeAll]
            split
            · rw [h q (by simp)]
            · simp [size_eq]
      exact congrArg (· + 1) (hall ps _ _ _ ih)

theorem length_taggingAt (p : Phrase) (fate : Fate) (context : Option Category)
    (position : Nat) : (p.taggingAt fate context position).length = p.size := by
  unfold taggingAt
  split
  · exact p.length_tagging context
  · simp [size_eq]

/-- In a phrase with a tag, the parts at its slots are typed and the others are left. -/
theorem fate_of_ok {p : Phrase} {context : Option Category} {tag : Tag}
    (h : p.evaluate context = .ok tag) : p.fate = ⟨p.slots, p.leftTag⟩ := by
  unfold fate slots leftTag
  cases hc : p.category with
  | number | name | shortString | keyword | token | operator op => rfl
  | construct c =>
      obtain ⟨rule, hr, hnone, -⟩ := exists_rule_of_ok hc h
      have serves := Construct.serves hr
      simp only [hr, Rule.fate, hnone, Rule.leftTag, ← serves.grants_eq,
        ← serves.visits_eq, (rule.progress_keeps p p.values).2 hnone]
      rfl

/-- In a construct, the parts that its rule visits are typed. -/
theorem typed_eq_visited {p : Phrase} {c : Construct} {rule : Rule}
    (hc : p.category = .construct c) (hr : c.rule? (p.parts.map category) = some rule) :
    p.fate.typed = (rule.progress p p.values).visited := by
  simp only [fate, hc, hr, Rule.fate]

/-- Only parts at slots are typed. -/
theorem typed_subset_slots (p : Phrase) : p.fate.typed ⊆ p.slots := by
  unfold fate slots
  cases p.category with
  | number | name | shortString | keyword | token | operator op => exact List.nil_subset _
  | construct c =>
      cases hr : c.rule? (p.parts.map category) with
      | none =>
          simp only [hr]
          exact List.nil_subset _
      | some rule =>
          simp only [hr, ← (Construct.serves hr).visits_eq]
          exact (rule.progress_keeps p p.values).1.subset

/-- In a phrase with a tag, the parts at its slots have tags, and none of them is unbound. -/
theorem exists_tag_of_slot {p : Phrase} {context : Option Category} {tag : Tag}
    (h : p.evaluate context = .ok tag) {i : Nat} (hi : i ∈ p.slots) {q : Phrase}
    (hq : p.parts[i]? = some q) :
    ∃ tag', q.evaluate (some p.category) = .ok tag' ∧ tag' ≠ .unbound := by
  unfold slots at hi
  cases hc : p.category with
  | number | name | shortString | keyword | token | operator op => simp [hc] at hi
  | construct c =>
      obtain ⟨rule, hr, hnone, -⟩ := exists_rule_of_ok hc h
      have serves := Construct.serves hr
      simp only [hc, ← serves.visits_eq] at hi
      obtain ⟨stage, hstage, hi'⟩ := List.mem_flatMap.mp hi
      have hok := eq_ok_of_faultOf ((Rule.met_of_progress hnone hstage).1 i hi')
      have hne := serves.tagOf_ne_unbound hnone hi
      rw [valueAt_values hq, hc] at hok hne
      exact ⟨_, hok, hne⟩

end Phrase

namespace Table

variable {t : Table}

/-- Several phrases have the tags of the parts of a phrase if each of them has its own. -/
theorem flatMap_column_eq_iff (fate : Fate) (context : Option Category) (first : Nat)
    (ps : List Phrase) :
    ps.flatMap t.column = Phrase.taggingAll fate context first ps ↔
      ∀ i p, ps[i]? = some p → t.column p = p.taggingAt fate context (first + i) := by
  induction ps generalizing first with
  | nil => simp [Phrase.taggingAll]
  | cons p ps ih =>
      have hlen : (t.column p).length = (p.taggingAt fate context first).length := by
        rw [length_column, Phrase.length_taggingAt]
      rw [List.flatMap_cons, Phrase.taggingAll_cons]
      constructor
      · intro h i q hq
        obtain ⟨hp, hps⟩ := List.append_inj h hlen
        cases i with
        | zero =>
            obtain rfl : p = q := by simpa using hq
            exact hp
        | succ i =>
            have hq' := (ih _).mp hps i q (by simpa using hq)
            rwa [Nat.add_right_comm] at hq'
      · intro h
        have hps : ps.flatMap t.column = Phrase.taggingAll fate context (first + 1) ps := by
          refine (ih _).mpr fun i q hq => ?_
          rw [Nat.add_right_comm]
          exact h (i + 1) q (by simpa using hq)
        rw [h 0 p rfl, hps]
        rfl

/-- A phrase has the tags of its typing if the top has its value and each part its own tags. -/
theorem column_eq_tagging_iff (p : Phrase) (context : Option Category) :
    t.column p = p.tagging context ↔
      t.tagD p.id = tagOf (p.evaluate context) ∧
        ∀ i q, p.parts[i]? = some q →
          t.column q = q.taggingAt p.fate (some p.category) i := by
  rw [column_eq_cons, Phrase.tagging_eq_cons, List.cons.injEq, flatMap_column_eq_iff]
  simp

/-- A part that has not been looked into may have a tag of its own, but nothing below it has. -/
theorem column_eq_left_iff (p : Phrase) (tag : Tag) :
    t.column p = tag :: List.replicate (Phrase.sizeAll p.parts) .unbound ↔
      t.tagD p.id = tag ∧ ∀ q ∈ p.parts, ∀ n ∈ q.preOrder, t.tagD n = .unbound := by
  have hlen : (p.parts.flatMap t.column).length = Phrase.sizeAll p.parts := by
    have h := length_column t p
    rw [column_eq_cons, List.length_cons, Phrase.size_eq] at h
    omega
  rw [column_eq_cons, List.cons.injEq, List.eq_replicate_iff]
  simp only [hlen, true_and, List.mem_flatMap, column, List.mem_map]
  constructor
  · rintro ⟨htag, h⟩
    exact ⟨htag, fun q hq n hn => h _ ⟨q, hq, n, hn, rfl⟩⟩
  · rintro ⟨htag, h⟩
    refine ⟨htag, ?_⟩
    rintro _ ⟨q, hq, n, hn, rfl⟩
    exact h q hq n hn

end Table

end TreeTyping
