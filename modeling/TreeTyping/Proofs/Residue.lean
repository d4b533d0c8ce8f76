import TreeTyping.Proofs.Ancestry
import TreeTyping.Proofs.Justification
import TreeTyping.Proofs.Stopping

/-!
# What stays unbound

If the typing of a tree raises no fault, the phrases that it evaluates are bound, and so are some of
their parts that it passes over: words, the keyword that halts, and arguments and names whose tags
are asserted. Everything else stays unbound, and with it all that lies below. A run then reports
the first phrase in pre-order that is unbound, if there is one, and looks at the tag of the root
only if there is none.
-/

namespace TreeTyping

/-- The positions in a construct with the given number of parts that are meant for operators and
keywords. -/
def Construct.wordSlots (c : Construct) (arity : Nat) : List Nat :=
  match c, arity with
  | .calculation, 3 => [0]
  | .booleanExpression, 2 => [0]
  | .booleanExpression, 3 => [1]
  | .branch, 4 => [0, 2]
  | .branch, 6 => [0, 2, 4]
  | .assignment, 3 => [1]
  | .loop, 3 => [0]
  | .loop, 13 => [0, 2, 5, 8, 9]
  | .procedure, 3 => [0]
  | .inputOutput, 2 | .call, 2 => [0]
  | _, _ => []

/-- In a construct that has a rule, each part is evaluated, or its tag is asserted, or it stands
where a word is meant to. -/
theorem Construct.slot_cases {c : Construct} {categories : List Category} {rule : Rule}
    (h : c.rule? categories = some rule) {i : Nat} (hi : i < categories.length) :
    i ∈ c.slots categories ∨ i ∈ (c.asserted categories).map Prod.fst ∨
      i ∈ c.wordSlots categories.length := by
  obtain ⟨sample, hmem, hlength, hslots, hasserted⟩ := exists_sample h
  have hall : ∀ entry ∈ c.rules, ∀ i < entry.1.length,
      i ∈ c.slots entry.1 ∨ i ∈ (c.asserted entry.1).map Prod.fst ∨
        i ∈ c.wordSlots entry.1.length := by
    cases c <;> decide
  rw [← hslots, ← hasserted, ← hlength]
  exact hall _ hmem i (hlength ▸ hi)

namespace Phrase

/-- The phrases that are given a tag by an evaluated phrase around them, without being looked
into. -/
inductive PassedOver (root : Phrase) : Phrase → Prop
  | word {context : Option Category} {p x : Phrase} (evaluated : root.Evaluated none context p)
      (holder : p.category ∉ [.number, .shortString, .name]) (part : x ∈ p.parts)
      (word : x.category.isWord = true) : PassedOver root x
  | halt {context : Option Category} {p x : Phrase} (evaluated : root.Evaluated none context p)
      (holder : p.category = .construct .instruction) (part : x ∈ p.parts)
      (keyword : x.category = .keyword) : PassedOver root x
  | argument {context : Option Category} {p x : Phrase} {c : Construct}
      (evaluated : root.Evaluated none context p) (asserts : c ∈ [.inputOutput, .call, .procedure])
      (holder : p.category = .construct c) (part : p.parts[1]? = some x) : PassedOver root x

/-- The phrases that are evaluated or passed over. -/
def Covered (root x : Phrase) : Prop :=
  (∃ context, root.Evaluated none context x) ∨ root.PassedOver x

/-- The ways in which a part of a covered phrase escapes the typing. -/
inductive Escapes (root p x : Phrase) : Prop
  /-- It stands where a word is meant to, and is none. -/
  | slot {context : Option Category} {c : Construct} {i : Nat}
      (evaluated : root.Evaluated none context p) (holder : p.category = .construct c)
      (slot : i ∈ c.wordSlots p.arity) (unvisited : i ∉ p.slots) (part : p.parts[i]? = some x)
      (other : x.category.isWord = false)
  /-- It stands in a literal or in a name. -/
  | leaf {context : Option Category} (evaluated : root.Evaluated none context p)
      (leaf : p.category ∈ [.number, .shortString, .name]) (part : x ∈ p.parts)
  /-- It stands in a phrase that is passed over. -/
  | inside (passed : root.PassedOver p) (part : x ∈ p.parts)

/-- Whatever is entered is evaluated. -/
theorem Entered.evaluated {root p : Phrase} {context context' : Option Category}
    (h : root.Entered context context' p) : root.Evaluated context context' p := by
  induction h with
  | top => exact .top
  | part _ typed hpart ih => exact ih.slot (typed_subset_slots _ typed) hpart

section Covered

variable {t : Table} {root p x : Phrase} {context : Option Category} {tag : Tag}
  (hok : root.evaluate none = .ok tag) (hne : tag ≠ .unbound)

include hok hne

/-- If the whole has a tag, then whatever is evaluated is entered and has a tag. -/
theorem Evaluated.entered (h : root.Evaluated none context p) :
    root.Entered none context p ∧ ∃ tag', p.evaluate context = .ok tag' ∧ tag' ≠ .unbound := by
  induction h with
  | top => exact ⟨.top, tag, hok, hne⟩
  | @slot context p q i before slot hpart ih =>
      obtain ⟨hentered, tag', hvalue, -⟩ := ih
      have htyped : i ∈ p.fate.typed := by
        rw [fate_of_ok hvalue]
        exact slot
      exact ⟨hentered.part htyped hpart, exists_tag_of_slot hvalue slot hpart⟩

/-- Only literals, names and constructs are evaluated. -/
theorem Evaluated.category_cases (h : root.Evaluated none context p) :
    p.category ∈ [.number, .shortString, .name] ∨ ∃ c, p.category = .construct c := by
  obtain ⟨-, tag', hvalue, hne'⟩ := h.entered hok hne
  cases hc : p.category with
  | number | shortString | name => exact .inl (by simp)
  | construct c => exact .inr ⟨c, rfl⟩
  | keyword | token | operator op =>
      rw [evaluate_eq_valueOf, valueOf, hc] at hvalue
      exact absurd (Except.ok.inj hvalue).symm hne'

variable (hcolumn : t.column root = root.tagging none)

include hcolumn

theorem Evaluated.bound (h : root.Evaluated none context p) : t.tagD p.id ≠ .unbound := by
  obtain ⟨hentered, tag', hvalue, hne'⟩ := h.entered hok hne
  rw [hentered.tagD_eq hcolumn, hvalue]
  exact hne'

/-- A part of an evaluated construct is bound if it is a word, or if its tag is asserted. -/
theorem Evaluated.bound_part {c : Construct} {i : Nat} (h : root.Evaluated none context p)
    (hc : p.category = .construct c) (hx : p.parts[i]? = some x)
    (hgiven : x.category.isWord = true ∨
      i ∈ (c.asserted (p.parts.map category)).map Prod.fst) : t.tagD x.id ≠ .unbound := by
  by_cases hi : i ∈ p.slots
  · exact (h.slot hi hx).bound hok hne hcolumn
  · obtain ⟨hentered, tag', hvalue, -⟩ := h.entered hok hne
    have hfate := fate_of_ok hvalue
    rw [(hentered.left_eq hcolumn hx (by rw [hfate]; exact hi)).1, hfate]
    obtain ⟨id, category, lexeme, parts⟩ := p
    obtain rfl : category = .construct c := hc
    exact (leftTag_ne_unbound_iff i x.category).mpr hgiven

/-- A phrase that is passed over is bound. -/
theorem PassedOver.bound (h : root.PassedOver x) : t.tagD x.id ≠ .unbound := by
  cases h with
  | @word context p _ evaluated holder part hword =>
      obtain ⟨c, hc⟩ := (evaluated.category_cases hok hne).resolve_left holder
      obtain ⟨i, hi⟩ := List.getElem?_of_mem part
      exact evaluated.bound_part hok hne hcolumn hc hi (.inl hword)
  | @halt context p _ evaluated holder part keyword =>
      obtain ⟨-, tag', hvalue, -⟩ := evaluated.entered hok hne
      obtain ⟨rule, hr, -⟩ := exists_rule_of_ok holder hvalue
      obtain ⟨i, hi⟩ := List.getElem?_of_mem part
      -- An instruction has one part only, so the keyword is all that there is.
      have hlength : p.parts.length = 1 := by
        simpa [Construct.admitted] using Construct.length_mem_admitted hr
      obtain ⟨y, hparts⟩ := List.length_eq_one_iff.mp hlength
      obtain rfl : x = y := by simpa [hparts] using part
      obtain rfl : i = 0 := by
        have hlt := (List.getElem?_eq_some_iff.mp hi).1
        omega
      refine evaluated.bound_part hok hne hcolumn holder hi (.inr ?_)
      simp [Construct.asserted, hparts, keyword]
  | @argument context p _ c evaluated asserts holder part =>
      refine evaluated.bound_part hok hne hcolumn holder part (.inr ?_)
      simp only [List.mem_cons, List.not_mem_nil, or_false] at asserts
      rcases asserts with rfl | rfl | rfl <;> simp [Construct.asserted]

/-- The phrases that are bound are those that are covered. -/
theorem bound_iff_covered (hx : x ∈ root.subphrases) :
    t.tagD x.id ≠ .unbound ↔ root.Covered x := by
  constructor
  · intro hbound
    rcases Entered.of_bound hcolumn .top hx hbound with
      ⟨context, hentered⟩ | ⟨context, p, i, hentered, hpart, hi⟩
    · exact .inl ⟨context, hentered.evaluated⟩
    · obtain ⟨c, hc, -, hleft⟩ := hentered.left_cases hcolumn hpart hi hbound
      have hmem := List.mem_of_getElem? hpart
      right
      rcases hleft with hword | ⟨-, hasserted⟩
      · refine .word hentered.evaluated (by simp [hc]) hmem ?_
        rw [← Category.isSome_settledTag?, hword]
        rfl
      · rcases Construct.asserted_cases hasserted with
          ⟨hstatement, rfl, -⟩ | ⟨rfl, rfl, -⟩ | ⟨rfl, hkeyword, -, -⟩
        · have hlisted : c ∈ [.inputOutput, .call, .procedure] := by
            simp only [List.mem_cons, List.not_mem_nil, or_false] at hstatement ⊢
            tauto
          exact .argument hentered.evaluated hlisted hc hpart
        · exact .argument hentered.evaluated (by simp) hc hpart
        · refine .halt hentered.evaluated hc hmem ?_
          have hcategory := List.mem_map_of_mem (f := category) hmem
          rw [hkeyword] at hcategory
          exact List.mem_singleton.mp hcategory
  · rintro (⟨context, hevaluated⟩ | hpassed)
    · exact hevaluated.bound hok hne hcolumn
    · exact hpassed.bound hok hne hcolumn

/-- Nothing is bound below a phrase that is unbound. -/
theorem unbound_below (hnodup : root.preOrder.Nodup) (hx : x ∈ root.subphrases)
    (hunbound : t.tagD x.id = .unbound) : ∀ y ∈ x.subphrases, t.tagD y.id = .unbound := by
  intro y hy
  by_contra hbound
  -- Otherwise something below `x` would have been entered, and `x` with it.
  have hentered : ∃ context, root.Entered none context x := by
    rcases Entered.of_bound hcolumn .top (subphrases_subset hx hy) hbound with
      ⟨context, hentered⟩ | ⟨context, p, i, hentered, hpart, -⟩
    · exact hentered.of_mem hnodup hx hy
    · rcases eq_or_holder_mem hnodup hx hentered.mem_subphrases (List.mem_of_getElem? hpart) hy with
        rfl | hp
      · exact absurd hunbound hbound
      · exact hentered.of_mem hnodup hx hp
  obtain ⟨context, hentered⟩ := hentered
  exact hentered.evaluated.bound hok hne hcolumn hunbound

/-- A part that is unbound although the phrase around it is bound escapes the typing. -/
theorem escapes_of_unbound (hp : p ∈ root.subphrases) (hpart : x ∈ p.parts)
    (hbound : t.tagD p.id ≠ .unbound) (hunbound : t.tagD x.id = .unbound) :
    root.Escapes p x := by
  rcases (bound_iff_covered hok hne hcolumn hp).mp hbound with ⟨context, hevaluated⟩ | hpassed
  · rcases hevaluated.category_cases hok hne with hleaf | ⟨c, hc⟩
    · exact .leaf hevaluated hleaf hpart
    obtain ⟨-, tag', hvalue, -⟩ := hevaluated.entered hok hne
    obtain ⟨rule, hr, -⟩ := exists_rule_of_ok hc hvalue
    obtain ⟨i, hi⟩ := List.getElem?_of_mem hpart
    have hlt : i < (p.parts.map category).length := by
      simpa using (List.getElem?_eq_some_iff.mp hi).1
    -- An unbound part is neither evaluated nor given a tag, so one place is left for it.
    have hslot : i ∉ p.slots :=
      fun hslot => (hevaluated.slot hslot hi).bound hok hne hcolumn hunbound
    have hgiven : ¬ (x.category.isWord = true ∨
        i ∈ (c.asserted (p.parts.map category)).map Prod.fst) :=
      fun hgiven => hevaluated.bound_part hok hne hcolumn hc hi hgiven hunbound
    obtain ⟨hword, hasserted⟩ := not_or.mp hgiven
    have hplace : i ∈ c.wordSlots (p.parts.map category).length := by
      rcases Construct.slot_cases hr hlt with hslot' | hasserted' | hplace
      · exact absurd (by simpa [slots, hc] using hslot') hslot
      · exact absurd hasserted' hasserted
      · exact hplace
    rw [List.length_map] at hplace
    exact .slot hevaluated hc hplace hslot hi (by simpa using hword)
  · exact .inside hpassed hpart

end Covered

/-- In pre-order, a phrase comes after the phrase of which it is a part. -/
theorem holder_mem_before {root p x : Phrase} (hnodup : root.preOrder.Nodup)
    {before after : List Phrase} (h : root.subphrases = before ++ x :: after)
    (hp : p ∈ root.subphrases) (hpart : x ∈ p.parts) : p ∈ before := by
  have hbelow : x.Below p := ⟨x, hpart, x.self_mem_subphrases⟩
  have hpairs := pairwise_subphrases hnodup
  rw [h] at hp hpairs
  rcases List.mem_append.mp hp with hp | hp
  · exact hp
  · have hlater := (List.pairwise_cons.mp (List.pairwise_append.mp hpairs).2.1).1
    rcases List.mem_cons.mp hp with rfl | hp
    · have hx : p ∈ root.subphrases := by simp [h]
      exact absurd hbelow (not_below_self (nodup_of_mem_subphrases hnodup hx))
    · exact absurd hbelow (hlater p hp)

end Phrase

namespace Tree

namespace Grown

variable {t : Tree}

/-- A place among the records of a table is the same place in the pre-order of the phrases. -/
theorem exists_split_of_records (h : t.Grown) {k : Nat} {before after : List Record} {r : Record}
    (hrecords : (t.freshChecker.after k).table.records = before ++ r :: after) :
    ∃ before' x after', t.root.subphrases = before' ++ x :: after' ∧ r.location = x.location ∧
      before.map Record.location = before'.map Phrase.location := by
  have hlocations := h.locations_after k
  rw [hrecords, List.map_append, List.map_cons] at hlocations
  obtain ⟨before', tail, hsplit, hbefore, htail⟩ := List.map_eq_append_iff.mp hlocations.symm
  obtain ⟨x, after', rfl, hx, -⟩ := List.map_eq_cons_iff.mp htail
  exact ⟨before', x, after', hsplit, hx.symm, hbefore.symm⟩

/-- No record is unbound exactly if no phrase of the tree is. -/
theorem records_bound_iff (h : t.Grown) (k : Nat) :
    (∀ r ∈ (t.freshChecker.after k).table.records, r.tag ≠ .unbound) ↔
      ∀ x ∈ t.root.subphrases, (t.freshChecker.after k).table.tagD x.id ≠ .unbound := by
  constructor
  · intro hbound x hx
    have hmem := List.mem_map_of_mem (f := Phrase.location) hx
    rw [← h.locations_after k] at hmem
    obtain ⟨r, hr, hlocation⟩ := List.mem_map.mp hmem
    have hid : r.id = x.id := congrArg Location.node hlocation
    rw [← hid, tagD_of_record hr]
    exact hbound r hr
  · intro hbound r hr
    obtain ⟨x, hx, hlocation⟩ := h.exists_phrase_of_record hr
    have hid : r.id = x.id := congrArg Location.node hlocation
    rw [← tagD_of_record hr, hid]
    exact hbound x hx

section Verdict

variable (h : t.Grown) (k : Nat) {tag : Tag} (hok : t.root.evaluate none = .ok tag)

include h hok

/-- A residue that a run reports is the first phrase in pre-order that is unbound. -/
theorem first_unbound_of_residual {location : Location}
    (hresult : (t.freshChecker.after k).check.result = .error ⟨.residual, location⟩) :
    ∃ before x after, t.root.subphrases = before ++ x :: after ∧ location = x.location ∧
      (t.freshChecker.after (k + 1)).table.tagD x.id = .unbound ∧
      ∀ y ∈ before, (t.freshChecker.after (k + 1)).table.tagD y.id ≠ .unbound := by
  have hjudged := h.judged_after k hok
  rw [hresult] at hjudged
  cases hjudged with
  | @residual before after r records bound unbound =>
      obtain ⟨before', x, after', hsplit, hlocation, hbefore⟩ := h.exists_split_of_records records
      have htags : ∀ r' ∈ before ++ r :: after, ∀ y : Phrase, r'.location = y.location →
          (t.freshChecker.after (k + 1)).table.tagD y.id = r'.tag := by
        intro r' hr' y hlocation
        have hid : r'.id = y.id := congrArg Location.node hlocation
        rw [← hid]
        exact tagD_of_record (records ▸ hr')
      refine ⟨before', x, after', hsplit, hlocation, ?_, fun y hy => ?_⟩
      · rw [htags r (by simp) x hlocation, unbound]
      · have hmem := List.mem_map_of_mem (f := Phrase.location) hy
        rw [← hbefore] at hmem
        obtain ⟨r', hr', hlocation'⟩ := List.mem_map.mp hmem
        rw [htags r' (List.mem_append_left _ hr') y hlocation']
        exact bound r' hr'

/-- The first phrase in pre-order that is unbound is not the root. It escapes from the phrase around
it, which comes earlier and is bound. -/
theorem exists_holder_of_first (hne : tag ≠ .unbound) {before after : List Phrase} {x : Phrase}
    (hsplit : t.root.subphrases = before ++ x :: after)
    (hunbound : (t.freshChecker.after (k + 1)).table.tagD x.id = .unbound)
    (hbefore : ∀ y ∈ before, (t.freshChecker.after (k + 1)).table.tagD y.id ≠ .unbound) :
    ∃ p ∈ before, x ∈ p.parts ∧ t.root.Escapes p x := by
  have hcolumn := h.column_after k
  have hx : x ∈ t.root.subphrases := by simp [hsplit]
  rcases Phrase.eq_or_exists_holder hx with rfl | ⟨p, hp, hpart⟩
  · exact absurd hunbound (Phrase.Evaluated.bound hok hne hcolumn .top)
  · have hearlier := Phrase.holder_mem_before h.nodup_preOrder hsplit hp hpart
    exact ⟨p, hearlier, hpart, Phrase.escapes_of_unbound hok hne hcolumn hp hpart
      (hbefore p hearlier) hunbound⟩

/-- If a phrase is unbound, the run reports a residue. -/
theorem residual_of_unbound {x : Phrase} (hx : x ∈ t.root.subphrases)
    (hunbound : (t.freshChecker.after (k + 1)).table.tagD x.id = .unbound) :
    ∃ location, (t.freshChecker.after k).check.result = .error ⟨.residual, location⟩ := by
  have hjudged := h.judged_after k hok
  generalize (t.freshChecker.after k).check.result = result at hjudged ⊢
  cases hjudged with
  | residual => exact ⟨_, rfl⟩
  | mismatch bound _ | accepted bound _ =>
      exact absurd hunbound ((h.records_bound_iff (k + 1)).mp bound x hx)

/-- If nothing is unbound, the tag of the root decides. -/
theorem result_of_bound
    (hbound : ∀ x ∈ t.root.subphrases, (t.freshChecker.after (k + 1)).table.tagD x.id ≠ .unbound) :
    (t.freshChecker.after k).check.result =
      if (t.freshChecker.after (k + 1)).table.tagD t.root.id = .wellTyped then .ok .wellTyped
      else .error (t.root.mismatch [.wellTyped]
        ((t.freshChecker.after (k + 1)).table.tagD t.root.id)) := by
  have hrecords := (h.records_bound_iff (k + 1)).mpr hbound
  have hjudged := h.judged_after k hok
  generalize (t.freshChecker.after k).check.result = result at hjudged ⊢
  cases hjudged with
  | @residual _ _ r records _ unbound => exact absurd unbound (hrecords r (by simp [records]))
  | mismatch _ hne => rw [if_neg hne]
  | accepted _ htag => rw [if_pos htag]

end Verdict

/-- If the first run of a checker raises no fault by a rule, and the root is neither a word nor a
keyword, then the phrases that are unbound after any run are those that are not covered, and
everything below them is unbound as well. A run returns a residue exactly if there are such
phrases. It names the first of them in pre-order, which escapes from a phrase that is bound. If
there are none, the tag of the root decides. -/
theorem residual_iff_unbound (h : t.Grown) :
    ∃ checker, Checker.start t = .ok checker ∧
      ((t.root.typing none checker.state).fault = none → t.root.category.isWord = false →
        t.root.category ≠ .keyword → ∀ k,
          let table := (checker.after k).check.checker.table
          let result := (checker.after k).check.result
          (∀ x ∈ t.root.subphrases, table.tag x.id = .ok .unbound →
            ∀ y ∈ x.subphrases, table.tag y.id = .ok .unbound) ∧
          (∀ x ∈ t.root.subphrases, table.tag x.id = .ok .unbound ↔ ¬ t.root.Covered x) ∧
          ((∃ location, result = .error ⟨.residual, location⟩) ↔
            ∃ x ∈ t.root.subphrases, table.tag x.id = .ok .unbound) ∧
          (∀ location, result = .error ⟨.residual, location⟩ →
            ∃ before x after, t.root.subphrases = before ++ x :: after ∧ location = x.location ∧
              table.tag x.id = .ok .unbound ∧
              (∀ y ∈ before, table.tag y.id ≠ .ok .unbound) ∧
              ∃ p ∈ t.root.subphrases, x ∈ p.parts ∧ table.tag p.id ≠ .ok .unbound ∧
                t.root.Escapes p x) ∧
          ((∀ x ∈ t.root.subphrases, table.tag x.id ≠ .ok .unbound) →
            ∃ tag, table.tag t.root.id = .ok tag ∧
              result = if tag = .wellTyped then .ok .wellTyped
                else .error (t.root.mismatch [.wellTyped] tag))) := by
  refine ⟨_, h.start_eq_fresh, fun hfault hword hkeyword k => ?_⟩
  intro table result
  have hok := eq_ok_of_faultOf ((h.fault_after 0).symm.trans hfault)
  have hne : tagOf (t.root.evaluate none) ≠ .unbound := by
    intro hunbound
    rw [hunbound] at hok
    rcases Phrase.category_of_evaluate_unbound hok with hroot | hroot
    · rw [hroot] at hword
      cases hword
    · exact hkeyword hroot
  have hcolumn := h.column_after k
  have htag : ∀ x ∈ t.root.subphrases, table.tag x.id = .ok .unbound ↔
      (t.freshChecker.after (k + 1)).table.tagD x.id = .unbound := by
    intro x hx
    have hlookup : table.tag x.id = _ := h.tag_after (k + 1) hx
    rw [hlookup, Except.ok.injEq]
  refine ⟨?_, ?_, ?_, ?_, ?_⟩
  · intro x hx hunbound y hy
    rw [htag y (Phrase.subphrases_subset hx hy)]
    exact Phrase.unbound_below hok hne hcolumn h.nodup_preOrder hx ((htag x hx).mp hunbound) y hy
  · intro x hx
    rw [htag x hx, ← Phrase.bound_iff_covered hok hne hcolumn hx, not_not]
  · constructor
    · rintro ⟨location, hresult⟩
      obtain ⟨before, x, after, hsplit, -, hunbound, -⟩ :=
        h.first_unbound_of_residual k hok hresult
      have hx : x ∈ t.root.subphrases := by simp [hsplit]
      exact ⟨x, hx, (htag x hx).mpr hunbound⟩
    · rintro ⟨x, hx, hunbound⟩
      exact h.residual_of_unbound k hok hx ((htag x hx).mp hunbound)
  · intro location hresult
    obtain ⟨before, x, after, hsplit, hlocation, hunbound, hbefore⟩ :=
      h.first_unbound_of_residual k hok hresult
    obtain ⟨p, hp, hpart, hescapes⟩ := h.exists_holder_of_first k hok hne hsplit hunbound hbefore
    have hmem : ∀ y ∈ before, y ∈ t.root.subphrases := fun y hy => by simp [hsplit, hy]
    have hbound : ∀ y ∈ before, table.tag y.id ≠ .ok .unbound :=
      fun y hy => (htag y (hmem y hy)).not.mpr (hbefore y hy)
    have hx : x ∈ t.root.subphrases := by simp [hsplit]
    exact ⟨before, x, after, hsplit, hlocation, (htag x hx).mpr hunbound, hbound,
      p, hmem p hp, hpart, hbound p hp, hescapes⟩
  · intro hbound
    refine ⟨_, h.tag_after (k + 1) t.root.self_mem_subphrases, h.result_of_bound k hok ?_⟩
    exact fun x hx => (htag x hx).not.mp (hbound x hx)

end Grown

/-- A tree of one statement whose argument is a variable. -/
def variableArgumentTree : Tree :=
  let word : Phrase := .mk 0 .token "output" []
  let x : Phrase := .mk 1 .name "x" []
  let argument : Phrase := .mk 2 (.construct .numberVariable) "" [x]
  let root : Phrase := .mk 3 (.construct .inputOutput) "" [word, argument]
  { forest := ⟨[⟨word, some 3⟩, ⟨x, some 2⟩, ⟨argument, some 3⟩, ⟨root, none⟩]⟩
    root }

theorem variableArgumentTree_grown : variableArgumentTree.Grown :=
  grown_of_regrown rfl

/-- The argument is passed over, so the name in it stays unbound, and every run reports it. -/
theorem Grown.residual_variableArgumentTree :
    variableArgumentTree.Grown ∧
      ∃ checker, Checker.start variableArgumentTree = .ok checker ∧
        (variableArgumentTree.root.typing none checker.state).fault = none ∧
        (checker.after 1).check.result = .error ⟨.residual, ⟨1, .name, "x"⟩⟩ ∧
        ∃ p x, x ∈ p.parts ∧ x.id = 1 ∧
          (checker.after 1).check.checker.table.tag x.id = .ok .unbound ∧
          (checker.after 1).check.checker.table.tag p.id ≠ .ok .unbound ∧
          variableArgumentTree.root.Escapes p x := by
  obtain ⟨checker, hstart, hresidue⟩ := residual_iff_unbound variableArgumentTree_grown
  refine ⟨variableArgumentTree_grown, checker, hstart, ?_⟩
  obtain rfl := Except.ok.inj (hstart.symm.trans variableArgumentTree_grown.start_eq_fresh)
  have hfault : (variableArgumentTree.root.typing none
      variableArgumentTree.freshChecker.state).fault = none := by decide
  have hresult : (variableArgumentTree.freshChecker.after 1).check.result =
      .error ⟨.residual, ⟨1, .name, "x"⟩⟩ := by decide
  obtain ⟨-, -, -, hfirst, -⟩ := hresidue hfault rfl (by decide) 1
  obtain ⟨before, x, after, -, hlocation, hunbound, -, p, -, hpart, hbound, hescapes⟩ :=
    hfirst _ hresult
  have hid : x.id = 1 := (congrArg Location.node hlocation).symm
  exact ⟨hfault, hresult, p, x, hpart, hid, hunbound, hbound, hescapes⟩

end Tree

end TreeTyping
