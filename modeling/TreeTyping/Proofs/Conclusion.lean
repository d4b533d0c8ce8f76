import TreeTyping.Proofs.Ancestry
import TreeTyping.Proofs.Following
import TreeTyping.Proofs.Tagging

/-!
# The end of a rule

A rule that has gone through its stages can no longer fail. It grants a tag, marks a text as
defined, settles words and binds the phrase: it writes a fixed list of tags, all in the
scope in which the phrase is typed.
-/

namespace TreeTyping

namespace Rule

/-- The parts to which a rule grants a tag. -/
def grantMarks (rule : Rule) (p : Phrase) : List (NodeId × Tag) :=
  rule.grants.filterMap fun grant => (p.parts[grant.1]?).map fun q => (q.id, grant.2)

/-- The words that a phrase holds, with the tags in which they are settled. -/
def wordMarks (p : Phrase) : List (NodeId × Tag) :=
  p.parts.filterMap fun q => q.category.settledTag?.map fun tag => (q.id, tag)

/-- The tags that a rule writes at its end, in this order. -/
def marks (rule : Rule) (p : Phrase) : List (NodeId × Tag) :=
  rule.grantMarks p ++ (wordMarks p ++ [(p.id, rule.result)])

/-- The text that a rule defines, if any. -/
def definedText? (rule : Rule) (p : Phrase) : Option String :=
  match rule.defining with
  | none => none
  | some (.nameBelow part) => (p.parts[part]?).bind Phrase.firstName?
  | some (.textOf part) => (p.parts[part]?).map Phrase.lexeme

end Rule

/-- The table in which a text has been marked as defined, if there is one. -/
def Table.defineSome (t : Table) : Option String → Table
  | none => t
  | some name => t.define name

namespace Table

variable (t : Table) (name? : Option String)

@[simp] theorem ids_defineSome : (t.defineSome name?).ids = t.ids := by
  cases name? <;> simp [defineSome]

@[simp] theorem tagD_defineSome (n : NodeId) : (t.defineSome name?).tagD n = t.tagD n := by
  cases name? <;> simp [defineSome]

theorem defineSome_writeAll (scope : UInt32) (marks : List (NodeId × Tag)) :
    (t.writeAll scope marks).defineSome name? = (t.defineSome name?).writeAll scope marks := by
  cases name? with
  | none => rfl
  | some name => exact define_writeAll t scope marks name

end Table

namespace Rule

variable {rule : Rule} {p : Phrase}

theorem grantParts_eq (orderly : rule.Orderly p.arity) :
    rule.grantParts p =
      Step.all ((rule.grantMarks p).map fun mark => .assign mark.1 mark.2) := by
  have hgrants := orderly.grants_lt
  unfold grantParts grantMarks
  generalize rule.grants = grants at hgrants
  induction grants with
  | nil => rfl
  | cons grant rest ih =>
      obtain ⟨q, hq⟩ : ∃ q, p.parts[grant.1]? = some q :=
        ⟨_, List.getElem?_eq_getElem (hgrants grant (by simp)).1⟩
      simp only [List.map_cons, Step.all_cons, Phrase.part_eq_ok_iff.mpr hq,
        Step.withValue_ok, List.filterMap_cons, hq, Option.map_some]
      rw [ih fun g hg => hgrants g (by simp [hg])]

theorem conclude_eq (rule : Rule) (p : Phrase) :
    rule.conclude p =
      Step.all ((wordMarks p ++ [(p.id, rule.result)]).map fun mark =>
        .assign mark.1 mark.2) := by
  have hsettle : ∀ parts : List Phrase, Step.all (parts.map Phrase.settle) =
      Step.all ((parts.filterMap fun q => q.category.settledTag?.map fun tag =>
        (q.id, tag)).map fun mark => .assign mark.1 mark.2) := by
    intro parts
    induction parts with
    | nil => rfl
    | cons q rest ih =>
        cases hq : q.category.settledTag? with
        | none => simp [Phrase.settle, hq, ih]
        | some tag => simp [Phrase.settle, hq, ih]
  rw [conclude, hsettle, List.map_append, Step.all_append]
  simp [wordMarks]

theorem defining_eq (orderly : rule.Orderly p.arity) (s : State) :
    (rule.defining.map (Defining.apply p)).getD .done s =
      { state := { s with table := s.table.defineSome (rule.definedText? p) } } := by
  have hdefining := orderly.defining_lt
  unfold definedText?
  cases hd : rule.defining with
  | none => rfl
  | some d =>
      obtain ⟨q, hq⟩ : ∃ q, p.parts[d.part]? = some q :=
        ⟨_, List.getElem?_eq_getElem (hdefining d hd)⟩
      cases d with
      | nameBelow part =>
          simp only [Defining.part] at hq
          simp only [Option.map_some, Option.getD_some, Defining.apply,
            Phrase.part_eq_ok_iff.mpr hq, Step.withValue_ok, hq, Option.bind_some]
          cases q.firstName? <;> rfl
      | textOf part =>
          simp only [Defining.part] at hq
          simp only [Option.map_some, Option.getD_some, Defining.apply,
            Phrase.part_eq_ok_iff.mpr hq, Step.withValue_ok, hq]
          rfl

/-- A rule marks the phrase and parts of it. -/
theorem exists_of_mem_marks {mark : NodeId × Tag} (h : mark ∈ rule.marks p) :
    ∃ q, (q = p ∨ q ∈ p.parts) ∧ mark.1 = q.id := by
  simp only [marks, grantMarks, wordMarks, List.mem_append, List.mem_filterMap,
    List.mem_singleton, Option.map_eq_some_iff] at h
  rcases h with ⟨grant, -, q, hq, rfl⟩ | ⟨q, hq, tag, -, rfl⟩ | rfl
  · exact ⟨q, .inr (List.mem_of_getElem? hq), rfl⟩
  · exact ⟨q, .inr hq, rfl⟩
  · exact ⟨p, .inl rfl, rfl⟩

theorem mem_marks_ids (rule : Rule) (p : Phrase) {mark : NodeId × Tag}
    (h : mark ∈ rule.marks p) : mark.1 ∈ p.preOrder := by
  obtain ⟨q, rfl | hq, hid⟩ := exists_of_mem_marks h
  · exact hid ▸ q.id_mem_preOrder
  · exact hid ▸ Phrase.preOrder_part_subset hq q.id_mem_preOrder

/-- What a rule both visits and marks at its end is a word. -/
theorem exists_settledTag?_of_marked (orderly : rule.Orderly p.arity)
    (hnodup : p.preOrder.Nodup) {i : Nat} (hi : i ∈ rule.visits) {q : Phrase}
    (hq : p.parts[i]? = some q) {mark : NodeId × Tag} (hmark : mark ∈ rule.marks p)
    (hmem : mark.1 ∈ q.preOrder) : ∃ tag, q.category.settledTag? = some tag := by
  simp only [marks, grantMarks, wordMarks, List.mem_append, List.mem_filterMap,
    List.mem_singleton, Option.map_eq_some_iff] at hmark
  rcases hmark with ⟨grant, hgrant, r, hr, rfl⟩ | ⟨r, hr, tag, htag, rfl⟩ | rfl
  · have hne : grant.1 ≠ i := fun he => (orderly.grants_lt grant hgrant).2 (he ▸ hi)
    exact absurd hmem (Phrase.disjoint_parts hnodup hr hq hne r.id_mem_preOrder)
  · obtain ⟨j, hj⟩ := List.getElem?_of_mem hr
    rcases eq_or_ne j i with rfl | hne
    · obtain rfl := Option.some.inj (hj.symm.trans hq)
      exact ⟨tag, htag⟩
    · exact absurd hmem (Phrase.disjoint_parts hnodup hj hq hne r.id_mem_preOrder)
  · exact absurd hmem (Phrase.id_notMem_part hnodup (List.mem_of_getElem? hq))

theorem grantMarks_sublist (orderly : rule.Orderly p.arity) :
    ((rule.grantMarks p).map Prod.fst).Sublist (p.parts.map Phrase.id) := by
  have hle := orderly.grants_le
  unfold grantMarks
  match hg : rule.grants with
  | [] => exact List.nil_sublist _
  | _ :: _ :: _ => simp [hg] at hle
  | [grant] =>
      cases hq : p.parts[grant.1]? with
      | none => simp [hq]
      | some q => simpa [hq] using ⟨q, List.mem_of_getElem? hq, rfl⟩

theorem wordMarks_sublist (p : Phrase) :
    ((wordMarks p).map Prod.fst).Sublist (p.parts.map Phrase.id) := by
  unfold wordMarks
  induction p.parts with
  | nil => exact List.nil_sublist _
  | cons q rest ih =>
      cases hq : q.category.settledTag? with
      | none => simpa [hq] using ih.cons q.id
      | some tag => simpa [hq] using ih

/-- A rule marks the phrase last, and the parts in order. -/
theorem marks_sublist (orderly : rule.Orderly p.arity) :
    ((rule.marks p).map Prod.fst).Sublist (p.markable.map Phrase.id) := by
  rw [marks, Phrase.markable, List.append_assoc, List.map_append, List.map_append,
    List.map_append, List.map_append]
  apply (grantMarks_sublist orderly).append
  exact (wordMarks_sublist p).append (List.Sublist.refl [p.id])

/-- The end of a rule on known nodes does not fail. It defines a text and writes its marks. -/
theorem finish_eq (orderly : rule.Orderly p.arity) {s : State} (h : p.preOrder ⊆ s.table.ids) :
    Step.all [rule.grantParts p, (rule.defining.map (Defining.apply p)).getD .done,
        rule.conclude p] s = {
      state := { s with
        table := (s.table.defineSome (rule.definedText? p)).writeAll s.scope (rule.marks p) }
      events := (rule.marks p).map fun mark => .assigned mark.1 mark.2 s.scope } := by
  have hids : ∀ mark ∈ rule.marks p, mark.1 ∈ s.table.ids :=
    fun mark hmark => h (rule.mem_marks_ids p hmark)
  simp only [marks] at hids ⊢
  have hgrant : rule.grantParts p s = {
      state := { s with table := s.table.writeAll s.scope (rule.grantMarks p) }
      events := (rule.grantMarks p).map fun mark => .assigned mark.1 mark.2 s.scope } := by
    rw [grantParts_eq orderly]
    exact Step.all_assign_eq fun mark hmark => hids mark (List.mem_append_left _ hmark)
  let middle : State := { s with
    table := (s.table.writeAll s.scope (rule.grantMarks p)).defineSome (rule.definedText? p) }
  have hclosing : rule.conclude p middle = {
      state := { middle with
        table := middle.table.writeAll s.scope (wordMarks p ++ [(p.id, rule.result)]) }
      events := (wordMarks p ++ [(p.id, rule.result)]).map fun mark =>
        .assigned mark.1 mark.2 s.scope } := by
    rw [conclude_eq]
    refine Step.all_assign_eq fun mark hmark => ?_
    simpa [middle] using hids mark (List.mem_append_right _ hmark)
  rw [Step.all_cons, Step.andThen_eq hgrant, Step.all_cons,
    Step.andThen_eq (defining_eq orderly _), Step.all_cons, Step.all_nil, Step.andThen_done,
    hclosing]
  simp [middle, Table.writeAll_append, Table.defineSome_writeAll]

section Marks

variable (t : Table) (scope : UInt32)

/-- The end of a rule binds the phrase. -/
theorem tagD_marks_top (rule : Rule) (h : p.id ∈ t.ids) :
    (t.writeAll scope (rule.marks p)).tagD p.id = rule.result := by
  rw [marks, Table.writeAll_append, Table.writeAll_append]
  exact Table.tagD_write_self _ _ _ (by simpa using h)

/-- Below the parts of a phrase, the end of its rule changes nothing. -/
theorem tagD_marks_below (rule : Rule) (hnodup : p.preOrder.Nodup) {q : Phrase} {i : Nat}
    (hq : p.parts[i]? = some q) {n : NodeId} (hn : n ∈ q.preOrder) (hne : n ≠ q.id) :
    (t.writeAll scope (rule.marks p)).tagD n = t.tagD n := by
  have hpart : ∀ r ∈ p.parts, r.id ≠ n := by
    intro r hr he
    obtain ⟨j, hj⟩ := List.getElem?_of_mem hr
    rcases eq_or_ne i j with rfl | hij
    · exact hne (he ▸ (by simpa [hq] using hj : q = r) ▸ rfl)
    · exact Phrase.disjoint_parts hnodup hq hj hij hn (he ▸ r.id_mem_preOrder)
  refine Table.tagD_writeAll_of_notMem _ _ fun hmem => ?_
  obtain ⟨mark, hmark, rfl⟩ := List.mem_map.mp hmem
  obtain ⟨r, rfl | hr, hid⟩ := exists_of_mem_marks hmark
  · exact Phrase.id_notMem_part hnodup (List.mem_of_getElem? hq) (hid ▸ hn)
  · exact hpart r hr hid.symm

theorem tagD_grantMarks (orderly : rule.Orderly p.arity) (hnodup : p.preOrder.Nodup)
    {q : Phrase} {i : Nat} (hq : p.parts[i]? = some q) (hid : q.id ∈ t.ids) :
    (t.writeAll scope (rule.grantMarks p)).tagD q.id =
      (rule.grants.lookup i).getD (t.tagD q.id) := by
  have hlt := orderly.grants_lt
  have hle := orderly.grants_le
  unfold grantMarks
  match hg : rule.grants with
  | [] => rfl
  | _ :: _ :: _ => simp [hg] at hle
  | [(part, tag)] =>
      obtain ⟨r, hr⟩ : ∃ r, p.parts[part]? = some r :=
        ⟨_, List.getElem?_eq_getElem (hlt (part, tag) (by simp [hg])).1⟩
      simp only [List.filterMap_cons, List.filterMap_nil, hr, Option.map_some, Table.writeAll]
      rcases eq_or_ne i part with rfl | hne
      · obtain rfl : q = r := by simpa [hq] using hr
        simp [Table.tagD_write_self t tag scope hid]
      · rw [Table.tagD_write_of_ne _ _ _ _ _ (Phrase.part_id_ne hnodup hq hr hne)]
        simp [List.lookup_cons, beq_false_of_ne hne]

theorem tagD_wordMarks (hnodup : p.preOrder.Nodup) {q : Phrase} {i : Nat}
    (hq : p.parts[i]? = some q) (hid : q.id ∈ t.ids) :
    (t.writeAll scope (wordMarks p)).tagD q.id =
      q.category.settledTag?.getD (t.tagD q.id) := by
  have hsame : ∀ r ∈ p.parts, r.id = q.id → r = q := by
    intro r hr he
    obtain ⟨j, hj⟩ := List.getElem?_of_mem hr
    rcases eq_or_ne i j with rfl | hij
    · exact (by simpa [hq] using hj : q = r).symm
    · exact absurd he.symm (Phrase.part_id_ne hnodup hq hj hij)
  cases htag : q.category.settledTag? with
  | some tag =>
      refine Table.tagD_writeAll_of_mem _ _ ?_ ?_ hid
      · refine List.mem_map.mpr ⟨(q.id, tag), List.mem_filterMap.mpr ?_, rfl⟩
        exact ⟨q, List.mem_of_getElem? hq, by simp [htag]⟩
      · intro mark hmark he
        simp only [wordMarks, List.mem_filterMap, Option.map_eq_some_iff] at hmark
        obtain ⟨r, hr, tag', htag', rfl⟩ := hmark
        rw [hsame r hr he, htag] at htag'
        exact (Option.some.inj htag').symm
  | none =>
      refine Table.tagD_writeAll_of_notMem _ _ fun hmem => ?_
      obtain ⟨mark, hmark, he⟩ := List.mem_map.mp hmem
      simp only [wordMarks, List.mem_filterMap, Option.map_eq_some_iff] at hmark
      obtain ⟨r, hr, tag', htag', rfl⟩ := hmark
      rw [hsame r hr he, htag] at htag'
      exact absurd htag' (by simp)

/-- The end of a rule settles a part that is a word, and grants another part its tag if there
is one for it. -/
theorem tagD_marks_part (orderly : rule.Orderly p.arity) (hnodup : p.preOrder.Nodup)
    {q : Phrase} {i : Nat} (hq : p.parts[i]? = some q) (hid : q.id ∈ t.ids) :
    (t.writeAll scope (rule.marks p)).tagD q.id =
      q.category.settledTag?.getD ((rule.grants.lookup i).getD (t.tagD q.id)) := by
  have hne : q.id ≠ p.id := by
    intro he
    exact Phrase.id_notMem_part hnodup (List.mem_of_getElem? hq) (he ▸ q.id_mem_preOrder)
  rw [marks, Table.writeAll_append, Table.writeAll_append, Table.writeAll, Table.writeAll,
    Table.tagD_write_of_ne _ _ _ _ _ hne, tagD_wordMarks _ _ hnodup hq (by simpa using hid),
    tagD_grantMarks _ _ orderly hnodup hq hid]

end Marks

end Rule

end TreeTyping
