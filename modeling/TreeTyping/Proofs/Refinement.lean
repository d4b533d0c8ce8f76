import TreeTyping.Proofs.Conclusion
import TreeTyping.Proofs.Conduct

/-!
# Typing refines evaluation

Typing a phrase of which nothing is bound ends in the fault that its evaluation finds, and
leaves behind the tags of `Phrase.tagging`. The proof goes by induction on the phrase. Within
a construct the invariant is that the parts visited so far carry the tags of their typings
and that nothing else of the phrase is bound.
-/

namespace TreeTyping

namespace Phrase

/-- A phrase that is bound already is left alone. -/
theorem typing_of_bound {p : Phrase} {s : State} (hid : p.id ∈ s.table.ids)
    (h : s.table.tagD p.id ≠ .unbound) (context : Option Category) :
    p.typing context s = { state := s } := by
  have hbound : (s.table.tagD p.id).isBound = true := by
    cases htag : s.table.tagD p.id <;> simp_all [Tag.isBound]
  rw [typing_eq, Step.withTag_eq hid, if_pos hbound]
  rfl

/-- A phrase that is not bound is typed by its category. -/
theorem typing_of_unbound {p : Phrase} {s : State} (hid : p.id ∈ s.table.ids)
    (h : s.table.tagD p.id = .unbound) (context : Option Category) :
    p.typing context s =
      { p.typeAs context (p.parts.map (typing (some p.category))) s with
        events := .visiting p.id p.category ::
          (p.typeAs context (p.parts.map (typing (some p.category))) s).events } := by
  have hbound : (s.table.tagD p.id).isBound ≠ true := by simp [h, Tag.isBound]
  rw [typing_eq, Step.withTag_eq hid, if_neg hbound]
  rfl

theorem taggingAt_of_mem {q : Phrase} {fate : Fate} {i : Nat} (h : i ∈ fate.typed)
    (context : Option Category) : q.taggingAt fate context i = q.tagging context :=
  if_pos h

theorem taggingAt_of_notMem {q : Phrase} {fate : Fate} {i : Nat} (h : i ∉ fate.typed)
    (context : Option Category) :
    q.taggingAt fate context i =
      fate.left i q.category :: List.replicate (sizeAll q.parts) .unbound :=
  if_neg h

/-- The parts at the seen positions carry the tags of their typings, and nothing else of the
phrase is bound. -/
structure Underway (p : Phrase) (seen : List Nat) (t : Table) : Prop where
  known : p.preOrder ⊆ t.ids
  top : t.tagD p.id = .unbound
  parts : ∀ i q, p.parts[i]? = some q →
    t.column q = q.taggingAt ⟨seen, fun _ _ => .unbound⟩ (some p.category) i

namespace Underway

variable {p q : Phrase} {seen : List Nat} {t : Table} {i : Nat}

theorem of_fresh (hknown : p.preOrder ⊆ t.ids)
    (hfresh : ∀ n ∈ p.preOrder, t.tagD n = .unbound) : p.Underway [] t where
  known := hknown
  top := hfresh p.id p.id_mem_preOrder
  parts := by
    intro i q hq
    have hsub := preOrder_part_subset (List.mem_of_getElem? hq)
    rw [taggingAt_of_notMem (by simp), Table.column_eq_left_iff]
    refine ⟨hfresh _ (hsub q.id_mem_preOrder), fun r hr n hn => ?_⟩
    exact hfresh n (hsub (preOrder_part_subset hr hn))

theorem tagD_of_mem (h : p.Underway seen t) (hq : p.parts[i]? = some q) (hi : i ∈ seen) :
    t.tagD q.id = tagOf (q.evaluate (some p.category)) := by
  have hcolumn := h.parts i q hq
  rw [taggingAt_of_mem hi, Table.column_eq_tagging_iff] at hcolumn
  exact hcolumn.1

theorem unbound_of_notMem (h : p.Underway seen t) (hq : p.parts[i]? = some q) (hi : i ∉ seen) :
    ∀ n ∈ q.preOrder, t.tagD n = .unbound := by
  have hcolumn := h.parts i q hq
  rw [taggingAt_of_notMem hi, Table.column_eq_left_iff] at hcolumn
  intro n hn
  rcases (mem_preOrder_iff q n).mp hn with rfl | ⟨r, hr, hn⟩
  · exact hcolumn.1
  · exact hcolumn.2 r hr n hn

/-- The invariant speaks of tags alone, so a text may become defined. -/
theorem defineSome (h : p.Underway seen t) (name? : Option String) :
    p.Underway seen (t.defineSome name?) where
  known := by simpa using h.known
  top := by simpa using h.top
  parts := by
    intro i q hq
    rw [← h.parts i q hq]
    exact Table.column_eq_iff.mpr fun n _ => t.tagD_defineSome name? n

/-- The invariant tells a rule the tags at which it looks. -/
theorem reads {rule : Rule} (h : p.Underway seen t) (hseen : seen ⊆ rule.visits) :
    rule.Reads p seen t := by
  intro i hi hlook
  obtain ⟨q, hq⟩ : ∃ q, p.parts[i]? = some q := ⟨_, List.getElem?_eq_getElem hi⟩
  have hid : q.id ∈ t.ids :=
    h.known (preOrder_part_subset (List.mem_of_getElem? hq) q.id_mem_preOrder)
  refine ⟨q, hq, hid, ?_⟩
  by_cases hmem : i ∈ seen
  · rw [h.tagD_of_mem hq hmem, Rule.tagAt, if_pos (hseen hmem), Phrase.valueAt_values hq]
  · have hnot : i ∉ rule.visits := hlook.resolve_left hmem
    rw [h.unbound_of_notMem hq hmem q.id q.id_mem_preOrder, Rule.tagAt, if_neg hnot]

/-- Typing one more part keeps the invariant. -/
theorem visit (hnodup : p.preOrder.Nodup) {s : State} (h : p.Underway seen s.table)
    (hq : p.parts[i]? = some q)
    (hcolumn : (q.typing (some p.category) s).state.table.column q =
      q.tagging (some p.category)) :
    p.Underway (seen ++ [i]) (q.typing (some p.category) s).state.table := by
  have hmem := List.mem_of_getElem? hq
  obtain ⟨hids, htags⟩ := q.frame_typing (some p.category) s
  refine ⟨by rw [hids]; exact h.known, ?_, fun j r hr => ?_⟩
  · rw [htags p.id (id_notMem_part hnodup hmem)]
    exact h.top
  · rcases eq_or_ne j i with rfl | hne
    · obtain rfl : q = r := by simpa [hq] using hr
      rw [hcolumn, taggingAt_of_mem (by simp)]
    · have hsame : (q.typing (some p.category) s).state.table.column r = s.table.column r :=
        Table.column_eq_iff.mpr fun n hn =>
          htags n fun hn' => disjoint_parts hnodup hq hr hne.symm hn' hn
      rw [hsame, h.parts j r hr]
      simp [taggingAt, hne]

end Underway

/-- Words evaluate to no type. They wait for the construct that holds them. -/
theorem evaluate_of_settledTag? {q : Phrase} {tag : Tag} (h : q.category.settledTag? = some tag)
    (context : Option Category) : q.evaluate context = .ok .unbound := by
  rw [evaluate_eq_valueOf, valueOf]
  cases hc : q.category <;> simp_all [Category.settledTag?]

end Phrase

namespace Rule

variable {rule : Rule} {p : Phrase}

/-- A part that a rule has typed is no word. -/
theorem Orderly.settledTag?_of_visited (orderly : rule.Orderly p.arity)
    (hnone : (rule.progress p p.values).fault = none) {i : Nat} (hi : i ∈ rule.visits)
    {q : Phrase} (hq : p.parts[i]? = some q) : q.category.settledTag? = none := by
  refine Option.eq_none_iff_forall_not_mem.mpr fun tag htag => ?_
  have hne := orderly.tagOf_ne_unbound hnone hi
  rw [Phrase.valueAt_values hq, Phrase.evaluate_of_settledTag? htag] at hne
  exact hne rfl

/-- A part that a rule has typed is not touched again by the end of the rule. -/
theorem leftTag_of_visited (orderly : rule.Orderly p.arity)
    (hnone : (rule.progress p p.values).fault = none) {i : Nat} (hi : i ∈ rule.visits)
    {q : Phrase} (hq : p.parts[i]? = some q) (old : Tag) :
    q.category.settledTag?.getD ((rule.grants.lookup i).getD old) = old := by
  have hgrant : rule.grants.lookup i = none := by
    refine List.lookup_eq_none_iff.mpr fun grant hmem => ?_
    have hne : i ≠ grant.1 := fun he => (orderly.grants_lt grant hmem).2 (he ▸ hi)
    simpa using hne
  simp [hgrant, orderly.settledTag?_of_visited hnone hi hq]

/-- The end of a rule completes the tags of its parts. -/
theorem column_finish (orderly : rule.Orderly p.arity) (hnodup : p.preOrder.Nodup)
    (hnone : (rule.progress p p.values).fault = none) {t : Table}
    (h : p.Underway (rule.progress p p.values).visited t) (scope : UInt32) {i : Nat} {q : Phrase}
    (hq : p.parts[i]? = some q) :
    (t.writeAll scope (rule.marks p)).column q =
      q.taggingAt (rule.fate p) (some p.category) i := by
  have hid : q.id ∈ t.ids :=
    h.known (Phrase.preOrder_part_subset (List.mem_of_getElem? hq) q.id_mem_preOrder)
  have htop := tagD_marks_part t scope orderly hnodup hq hid
  by_cases hi : i ∈ (rule.progress p p.values).visited
  · have hvisit : i ∈ rule.visits := (rule.progress_keeps p p.values).1.subset hi
    calc (t.writeAll scope (rule.marks p)).column q
      _ = t.column q := by
          refine Table.column_eq_iff.mpr fun n hn => ?_
          by_cases hne : n = q.id
          · rw [hne, htop, leftTag_of_visited orderly hnone hvisit hq]
          · exact tagD_marks_below t scope rule hnodup hq hn hne
      _ = q.tagging (some p.category) := (h.parts i q hq).trans (Phrase.taggingAt_of_mem hi _)
      _ = q.taggingAt (rule.fate p) (some p.category) i :=
          (Phrase.taggingAt_of_mem (show i ∈ (rule.fate p).typed from hi) _).symm
  · have hunbound := h.unbound_of_notMem hq hi
    rw [Phrase.taggingAt_of_notMem (show i ∉ (rule.fate p).typed from hi),
      Table.column_eq_left_iff, htop, hunbound q.id q.id_mem_preOrder]
    refine ⟨by simp [fate, hnone, leftTag], fun r hr n hn => ?_⟩
    have hn' : n ∈ q.preOrder := Phrase.preOrder_part_subset hr hn
    have hne : n ≠ q.id := by
      rintro rfl
      exact Phrase.id_notMem_part (Phrase.nodup_part hnodup (List.mem_of_getElem? hq)) hr hn
    rw [tagD_marks_below t scope rule hnodup hq hn' hne]
    exact hunbound n hn'

end Rule

/-- Typing a phrase of which nothing is bound ends in the fault of its evaluation and leaves
the tags of its typing. -/
def Phrase.Settles (p : Phrase) (context : Option Category) : Prop :=
  ∀ s : State, p.preOrder ⊆ s.table.ids → (∀ n ∈ p.preOrder, s.table.tagD n = .unbound) →
    (p.typing context s).fault = faultOf (p.evaluate context) ∧
      (p.typing context s).state.table.column p = p.tagging context

namespace Rule

variable {rule : Rule} {p : Phrase}

/-- The part that a rule is about to visit is untouched. -/
theorem fresh_of_underway (orderly : rule.Orderly p.arity) {seen : List Nat} {t : Table}
    (h : p.Underway seen t) {i : Nat} {q : Phrase} (hq : p.parts[i]? = some q)
    (hseen : seen ++ [i] <+: (rule.progress p p.values).visited) :
    q.preOrder ⊆ t.ids ∧ ∀ n ∈ q.preOrder, t.tagD n = .unbound := by
  have hnew : i ∉ seen := by
    have hpair := orderly.increasing.sublist
      (hseen.trans (rule.progress_keeps p p.values).1).sublist
    intro hmem
    exact Nat.lt_irrefl i ((List.pairwise_append.mp hpair).2.2 i hmem i (by simp))
  refine ⟨fun n hn => h.known ?_, h.unbound_of_notMem hq hnew⟩
  exact Phrase.preOrder_part_subset (List.mem_of_getElem? hq) hn

/-- The stages of a rule follow its progress. What the first typing of every part preserves is
preserved by them. -/
theorem stages_underway_and {inv : Table → Prop} (orderly : rule.Orderly p.arity)
    (hnodup : p.preOrder.Nodup) (hparts : ∀ q ∈ p.parts, q.Settles (some p.category))
    (hinv : ∀ q ∈ p.parts, ∀ s : State, q.preOrder ⊆ s.table.ids →
      (∀ n ∈ q.preOrder, s.table.tagD n = .unbound) → inv s.table →
        inv (q.typing (some p.category) s).state.table) :
    (Step.all (rule.stages.map
      (Stage.apply p (p.parts.map (Phrase.typing (some p.category)))))).Follows
        (fun seen t => p.Underway seen t ∧ inv t) [] (rule.progress p p.values) := by
  refine stages_follow orderly ?_ ?_
  · intro seen t hseen h
    exact h.1.reads (hseen.trans (rule.progress_keeps p p.values).1).subset
  · rintro seen i q hq hseen s ⟨h, hs⟩
    have hmem := List.mem_of_getElem? hq
    obtain ⟨hknown, hfresh⟩ := fresh_of_underway orderly h hq hseen
    obtain ⟨hfault, hcolumn⟩ := hparts q hmem s hknown hfresh
    exact ⟨hfault, h.visit hnodup hq hcolumn, hinv q hmem s hknown hfresh hs⟩

theorem stages_underway (orderly : rule.Orderly p.arity) (hnodup : p.preOrder.Nodup)
    (hparts : ∀ q ∈ p.parts, q.Settles (some p.category)) :
    (Step.all (rule.stages.map
      (Stage.apply p (p.parts.map (Phrase.typing (some p.category)))))).Follows p.Underway []
        (rule.progress p p.values) := by
  have hfollows := @stages_underway_and rule p (fun _ => True) orderly hnodup hparts
    fun _ _ _ _ _ _ => trivial
  intro s h
  obtain ⟨hfault, hunder, -⟩ := hfollows s ⟨h, trivial⟩
  exact ⟨hfault, hunder⟩

/-- A rule ends in the fault of its progress. It binds the phrase unless there is one, and
leaves each part to its fate. -/
theorem apply_underway (orderly : rule.Orderly p.arity) (hnodup : p.preOrder.Nodup)
    (hparts : ∀ q ∈ p.parts, q.Settles (some p.category)) {s : State}
    (h : p.Underway [] s.table) :
    let out := rule.apply p (p.parts.map (Phrase.typing (some p.category))) s
    out.fault = (rule.progress p p.values).fault ∧
      out.state.table.tagD p.id =
        (if (rule.progress p p.values).fault.isSome then .unbound else rule.result) ∧
      ∀ i q, p.parts[i]? = some q →
        out.state.table.column q = q.taggingAt (rule.fate p) (some p.category) i := by
  obtain ⟨hfault, hunder⟩ := stages_underway orderly hnodup hparts s h
  rw [List.nil_append] at hunder
  rw [apply, Step.all_append]
  cases hf : (rule.progress p p.values).fault with
  | some fault =>
      have hfate : rule.fate p =
          ⟨(rule.progress p p.values).visited, fun _ _ => .unbound⟩ := by
        simp [fate, hf]
      rw [Step.andThen_of_some (hfault.trans hf), hfate]
      exact ⟨hfault.trans hf, hunder.top, hunder.parts⟩
  | none =>
      rw [Step.andThen_of_none (hfault.trans hf), finish_eq orderly hunder.known]
      refine ⟨rfl, tagD_marks_top _ _ rule ?_, fun i q hq => ?_⟩
      · simpa using hunder.known p.id_mem_preOrder
      · exact column_finish orderly hnodup hf (hunder.defineSome _) _ hq

end Rule

namespace Phrase

theorem typeName_eq (p : Phrase) (context : Option Category) :
    p.typeName context =
      match p.nameValue context with
      | .ok tag => .assign p.id tag
      | .error fault => .fail fault := by
  unfold typeName nameValue
  split
  · rfl
  · rfl
  · simp

theorem nameValue_ne_unbound {p : Phrase} {context : Option Category} {tag : Tag}
    (h : p.nameValue context = .ok tag) : tag ≠ .unbound := by
  unfold nameValue at h
  split at h <;> cases h <;> decide

/-- A phrase that is given its tag at once, without a look at its parts. -/
theorem settles_of_assign {p : Phrase} {context : Option Category} {tag : Tag}
    (hnodup : p.preOrder.Nodup) (hfate : p.fate = .untouched)
    (hvalue : p.evaluate context = .ok tag)
    (htype : p.typeAs context (p.parts.map (typing (some p.category))) = .assign p.id tag) :
    p.Settles context := by
  intro s hknown hfresh
  have hid := hknown p.id_mem_preOrder
  have hunder := Underway.of_fresh hknown hfresh
  rw [typing_of_unbound hid hunder.top, htype, Step.assign_eq hid, hvalue]
  refine ⟨rfl, (Table.column_eq_tagging_iff _ _).mpr ⟨?_, fun i q hq => ?_⟩⟩
  · rw [hvalue]
    exact Table.tagD_write_self _ _ _ hid
  · rw [hfate, Table.column_write _ (id_notMem_part hnodup (List.mem_of_getElem? hq))]
    exact hunder.parts i q hq

/-- A phrase whose typing changes nothing. -/
theorem settles_of_unchanged {p : Phrase} {context : Option Category}
    (hfate : p.fate = .untouched) (hvalue : tagOf (p.evaluate context) = .unbound)
    (htype : ∀ s, p.typeAs context (p.parts.map (typing (some p.category))) s =
      { state := s, fault := faultOf (p.evaluate context) }) :
    p.Settles context := by
  intro s hknown hfresh
  have hunder := Underway.of_fresh hknown hfresh
  rw [typing_of_unbound (hknown p.id_mem_preOrder) hunder.top, htype]
  refine ⟨rfl, (Table.column_eq_tagging_iff _ _).mpr ⟨?_, fun i q hq => ?_⟩⟩
  · rw [hvalue]
    exact hunder.top
  · rw [hfate]
    exact hunder.parts i q hq

/-- A construct that follows its rule. -/
theorem settles_of_rule {p : Phrase} {context : Option Category} {c : Construct} {rule : Rule}
    (hnodup : p.preOrder.Nodup) (hparts : ∀ q ∈ p.parts, q.Settles (some p.category))
    (hc : p.category = .construct c) (hr : c.rule? (p.parts.map category) = some rule) :
    p.Settles context := by
  intro s hknown hfresh
  have hunder := Underway.of_fresh hknown hfresh
  have orderly := Construct.orderly hr
  obtain ⟨hfault, htop, hcolumns⟩ := Rule.apply_underway orderly hnodup hparts hunder
  have htype : p.typeAs context (p.parts.map (typing (some p.category))) =
      rule.apply p (p.parts.map (typing (some p.category))) := by
    simp only [typeAs, hc, hr]
  have hfate : p.fate = rule.fate p := by simp only [fate, hc, hr]
  rw [typing_of_unbound (hknown p.id_mem_preOrder) hunder.top, htype,
    Table.column_eq_tagging_iff, evaluate_construct hc hr, hfate]
  cases hf : (rule.progress p p.values).fault with
  | none =>
      rw [hf] at hfault htop
      exact ⟨hfault, htop, hcolumns⟩
  | some fault =>
      rw [hf] at hfault htop
      exact ⟨hfault, htop, hcolumns⟩

/-- Typing refines evaluation, on every phrase whose nodes are distinct. -/
theorem settles (p : Phrase) (context : Option Category) (hnodup : p.preOrder.Nodup) :
    p.Settles context := by
  induction p using Phrase.induction generalizing context with
  | step i c l ps ih =>
      have hparts : ∀ q ∈ ps, q.Settles (some c) :=
        fun q hq => ih q hq _ (nodup_part (p := mk i c l ps) hnodup hq)
      cases c with
      | number | shortString => exact settles_of_assign hnodup rfl rfl rfl
      | keyword | token | operator op => exact settles_of_unchanged rfl rfl fun s => rfl
      | name =>
          have htype := (mk i .name l ps).typeName_eq context
          cases hvalue : (mk i .name l ps).nameValue context with
          | ok tag =>
              rw [hvalue] at htype
              exact settles_of_assign hnodup rfl hvalue htype
          | error fault =>
              rw [hvalue] at htype
              have hevaluate : (mk i .name l ps).evaluate context = .error fault := hvalue
              refine settles_of_unchanged rfl (by rw [hevaluate]; rfl) fun s => ?_
              rw [hevaluate]
              exact congrFun htype s
      | construct c =>
          cases hr : c.rule? (ps.map category) with
          | some rule => exact settles_of_rule hnodup hparts rfl hr
          | none =>
              have hvalue := evaluate_misfit (p := mk i (.construct c) l ps) rfl hr context
              refine settles_of_unchanged ?_ (by rw [hvalue]; rfl) fun s => ?_
              · simp only [fate, category_mk, parts_mk, hr]
              · simp only [typeAs, category_mk, parts_mk, hr, hvalue, faultOf_error]
                rfl

end Phrase

section Evaluated

variable {t : Table} {root : Phrase} {context context' : Option Category} {q : Phrase}

/-- If a phrase has a tag and the tags of its typing, so has every phrase that is evaluated
on the way. -/
theorem Phrase.Evaluated.column_eq {tag : Tag} (hok : root.evaluate context = .ok tag)
    (hcolumn : t.column root = root.tagging context)
    (h : root.Evaluated context context' q) :
    t.column q = q.tagging context' ∧ ∃ tag', q.evaluate context' = .ok tag' := by
  induction h with
  | top => exact ⟨hcolumn, tag, hok⟩
  | @slot context' q r i before hslot hpart ih =>
      obtain ⟨hq, tag', hok'⟩ := ih
      have hr := ((Table.column_eq_tagging_iff q context').mp hq).2 i r hpart
      rw [Phrase.fate_of_ok hok', Phrase.taggingAt_of_mem hslot] at hr
      obtain ⟨tag'', hok'', -⟩ := Phrase.exists_tag_of_slot hok' hslot hpart
      exact ⟨hr, tag'', hok''⟩

theorem Phrase.Evaluated.preOrder_subset (h : root.Evaluated context context' q) :
    q.preOrder ⊆ root.preOrder := by
  induction h with
  | top => exact List.Subset.refl _
  | slot _ _ hpart ih =>
      exact fun n hn => ih (Phrase.preOrder_part_subset (List.mem_of_getElem? hpart) hn)

end Evaluated

namespace Tree.Grown

variable {t : Tree}

theorem ids_typing (h : t.Grown) :
    (t.root.typing none { table := t.blankTable }).state.table.ids = t.root.preOrder := by
  rw [(t.root.frame_typing none { table := t.blankTable }).1, h.ids_blankTable]

/-- The first typing of a tree ends in the fault of its evaluation and leaves its tags. -/
theorem settles_root (h : t.Grown) :
    (t.root.typing none { table := t.blankTable }).fault = faultOf (t.root.evaluate none) ∧
      (t.root.typing none { table := t.blankTable }).state.table.column t.root =
        t.root.tagging none := by
  refine t.root.settles none h.nodup_preOrder { table := t.blankTable } ?_ ?_
  · rw [h.ids_blankTable]
    exact List.Subset.refl _
  · exact fun n _ => t.tagD_blankTable n

/-- The first typing of a tree agrees with its evaluation, which knows no table. It ends in a
fault exactly when the evaluation does, and in the same one. Without a fault, a phrase that is
evaluated on the way carries its value. A part that is passed over carries the tag that is left
to it, and nothing below such a part is bound. -/
theorem typing_refines_evaluate (h : t.Grown) :
    ∃ checker, Checker.start t = .ok checker ∧
      let out := checker.tree.root.typing none checker.state
      (∀ fault, out.fault = some fault ↔ t.root.evaluate none = .error fault) ∧
      (out.fault = none → ∀ context q, t.root.Evaluated none context q →
        (∃ tag, q.evaluate context = .ok tag ∧ out.state.table.tag q.id = .ok tag) ∧
        ∀ i r, q.parts[i]? = some r → i ∉ q.slots →
          out.state.table.tag r.id = .ok (q.leftTag i r.category) ∧
          ∀ s ∈ r.parts, ∀ n ∈ s.preOrder, out.state.table.tag n = .ok .unbound) := by
  refine ⟨_, h.start_eq, ?_⟩
  obtain ⟨hfault, hcolumn⟩ := h.settles_root
  have htag : ∀ n ∈ t.root.preOrder,
      (t.root.typing none { table := t.blankTable }).state.table.tag n =
        .ok ((t.root.typing none { table := t.blankTable }).state.table.tagD n) := by
    intro n hn
    apply Table.tag_eq
    rwa [h.ids_typing]
  constructor
  · intro fault
    rw [hfault, faultOf_eq_some_iff]
  · intro hnone context q hq
    have hok := eq_ok_of_faultOf (hfault.symm.trans hnone)
    have hsub := hq.preOrder_subset
    obtain ⟨hcolumn, tag, htag'⟩ := hq.column_eq hok hcolumn
    obtain ⟨htop, hparts⟩ := (Table.column_eq_tagging_iff q context).mp hcolumn
    refine ⟨⟨tag, htag', ?_⟩, fun i r hr hi => ?_⟩
    · rw [htag q.id (hsub q.id_mem_preOrder), htop, htag', tagOf_ok]
    · have hleft := hparts i r hr
      rw [Phrase.fate_of_ok htag', Phrase.taggingAt_of_notMem hi,
        Table.column_eq_left_iff] at hleft
      have hsub' := Phrase.preOrder_part_subset (List.mem_of_getElem? hr)
      constructor
      · rw [htag r.id (hsub (hsub' r.id_mem_preOrder)), hleft.1]
      · intro s hs n hn
        rw [htag n (hsub (hsub' (Phrase.preOrder_part_subset hs hn))), hleft.2 s hs n hn]

/-- In an assignment the variable and the number are evaluated, and the word between them is
settled. -/
theorem typing_assignmentTree :
    assignmentTree.Grown ∧ ∃ checker, Checker.start assignmentTree = .ok checker ∧
      let out := checker.tree.root.typing none checker.state
      out.fault = none ∧ out.state.table.tag 0 = .ok .number ∧
        out.state.table.tag 2 = .ok .wellTyped ∧ out.state.table.tag 4 = .ok .wellTyped := by
  obtain ⟨checker, hstart, hfault, htags⟩ := typing_refines_evaluate assignmentTree_grown
  have hvalue : assignmentTree.root.evaluate none = .ok .wellTyped := rfl
  have hnone : (checker.tree.root.typing none checker.state).fault = none := by
    refine Option.eq_none_iff_forall_ne_some.mpr fun fault hf => ?_
    rw [hfault fault, hvalue] at hf
    simp at hf
  have hvariable : assignmentTree.root.Evaluated none (some (.construct .assignment))
      (.mk 1 (.construct .numberVariable) "" [.mk 0 .name "x" []]) :=
    .slot .top (show 0 ∈ assignmentTree.root.slots by decide) rfl
  obtain ⟨⟨tag, hx, hx'⟩, -⟩ := htags hnone _ (.mk 0 .name "x" [])
    (.slot hvariable (List.mem_singleton.mpr rfl) rfl)
  obtain ⟨⟨tag', htop, htop'⟩, hleft⟩ := htags hnone none assignmentTree.root .top
  cases hx
  cases htop
  exact ⟨assignmentTree_grown, checker, hstart, hnone, hx',
    (hleft 1 (.mk 2 .token ":=" []) rfl (by decide)).1, htop'⟩

end Tree.Grown

end TreeTyping
