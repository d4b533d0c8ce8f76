import TreeTyping.Proofs.Justification

/-!
# What counts as defined

A procedure defines the text of its name, and an assignment the first name below its target, at
the moment at which they become well-typed. A record counts as defined exactly if its text is
defined by a phrase of the tree that is well-typed in the same table. The two sides go apart only
within the end of a single rule, which cannot fail, so they agree after every run, successful or
not.
-/

namespace TreeTyping

namespace Phrase

/-- The text that a phrase defines when it becomes well-typed. -/
def definedName? (p : Phrase) : Option String :=
  match p.category with
  | .construct .procedure => (p.parts[1]?).map lexeme
  | .construct .assignment => (p.parts[0]?).bind firstName?
  | _ => none

variable {p : Phrase} {name : String}

/-- Only procedures and assignments define a text. -/
theorem definedName?_cases (h : p.definedName? = some name) :
    p.category = .construct .procedure ∨ p.category = .construct .assignment := by
  unfold definedName? at h
  split at h
  · exact .inl ‹_›
  · exact .inr ‹_›
  · cases h

end Phrase

/-- How a construct finds the text that it defines. -/
def Construct.defining : Construct → Option Defining
  | .procedure => some (.textOf 1)
  | .assignment => some (.nameBelow 0)
  | _ => none

/-- The rule of a construct defines what the construct defines. -/
theorem Construct.definedText?_eq {c : Construct} {p : Phrase} {rule : Rule}
    (hc : p.category = .construct c) (hr : c.rule? (p.parts.map Phrase.category) = some rule) :
    rule.definedText? p = p.definedName? := by
  obtain ⟨sample, hmem, -⟩ := exists_sample hr
  have hall : ∀ entry ∈ c.rules, entry.2.defining = c.defining := by
    cases c <;> decide
  rw [Rule.definedText?, hall _ hmem, Phrase.definedName?, hc]
  cases c <;> rfl

namespace Table

/-- The records that count as defined are those with one of the given texts. -/
def DefinesExactly (t : Table) (names : String → Prop) : Prop :=
  ∀ r ∈ t.records, r.definition = .defined ↔ names r.lexeme

section DefinesExactly

variable {t : Table} {names : String → Prop}

theorem DefinesExactly.congr {names' : String → Prop} (h : t.DefinesExactly names)
    (hnames : ∀ name, names name ↔ names' name) : t.DefinesExactly names' :=
  fun r hr => (h r hr).trans (hnames r.lexeme)

theorem DefinesExactly.write (h : t.DefinesExactly names) (id : NodeId) (tag : Tag)
    (scope : UInt32) : (t.write id tag scope).DefinesExactly names := by
  intro r' hr'
  obtain ⟨r, hr, rfl⟩ := List.mem_map.mp hr'
  split <;> exact h r hr

theorem DefinesExactly.writeAll (h : t.DefinesExactly names) (scope : UInt32)
    (marks : List (NodeId × Tag)) : (t.writeAll scope marks).DefinesExactly names := by
  induction marks generalizing t with
  | nil => exact h
  | cons mark marks ih => exact ih (h.write mark.1 mark.2 scope)

/-- Marking a text as defined adds it to the defined texts. -/
theorem DefinesExactly.defineSome (h : t.DefinesExactly names) (name? : Option String) :
    (t.defineSome name?).DefinesExactly fun name => names name ∨ name? = some name := by
  cases name? with
  | none => exact h.congr fun name => by simp
  | some text =>
      intro r' hr'
      obtain ⟨r, hr, rfl⟩ := List.mem_map.mp hr'
      by_cases hl : r.lexeme = text
      · simp [hl]
      · have hne : text ≠ r.lexeme := fun he => hl he.symm
        simpa [hl, hne] using h r hr

/-- Whether a text is defined can be read off any record with that text. -/
theorem DefinesExactly.definition_eq_iff (h : t.DefinesExactly names) (name : String) :
    t.definition name = .defined ↔
      ∃ r ∈ t.records, r.lexeme = name ∧ r.definition = .defined := by
  unfold definition
  cases hfirst : t.records.find? (·.lexeme == name) with
  | none =>
      rw [List.find?_eq_none] at hfirst
      constructor
      · intro hdefined
        cases hdefined
      · rintro ⟨r, hr, hl, -⟩
        simpa [hl] using hfirst r hr
  | some first =>
      have hmem := List.mem_of_find?_eq_some hfirst
      have hl : first.lexeme = name := by simpa using List.find?_some hfirst
      constructor
      · intro hdefined
        exact ⟨first, hmem, hl, hdefined⟩
      · rintro ⟨r, hr, hl', hdefined⟩
        apply (h first hmem).mpr
        rw [hl, ← hl']
        exact (h r hr).mp hdefined

end DefinesExactly

/-- A text is completed if a phrase of the tree defines it and is well-typed. -/
def Completed (t : Table) (root : Phrase) (name : String) : Prop :=
  ∃ p ∈ root.subphrases, t.tagD p.id = .wellTyped ∧ p.definedName? = some name

/-- What counts as defined depends on the tags of the phrases that define a text. -/
theorem completed_congr {t u : Table} {root : Phrase}
    (h : ∀ p ∈ root.subphrases, ∀ name, p.definedName? = some name →
      (t.tagD p.id = .wellTyped ↔ u.tagD p.id = .wellTyped)) (name : String) :
    t.Completed root name ↔ u.Completed root name := by
  constructor
  · rintro ⟨p, hp, htag, hname⟩
    exact ⟨p, hp, (h p hp name hname).mp htag, hname⟩
  · rintro ⟨p, hp, htag, hname⟩
    exact ⟨p, hp, (h p hp name hname).mpr htag, hname⟩

end Table

namespace Rule

variable {rule : Rule} {root p : Phrase} {c : Construct} {t : Table}

section Finish

variable (hnodup : root.preOrder.Nodup) (hp : p ∈ root.subphrases)
  (hc : p.category = .construct c) (hr : c.rule? (p.parts.map Phrase.category) = some rule)
  (h : p.Underway (rule.progress p p.values).visited t)

include hnodup hp hr h in
/-- The end of a rule makes no phrase well-typed that defines a text, apart from its own, and
leaves none that is. -/
theorem tagD_marks_wellTyped_iff (scope : UInt32) {q : Phrase} {name : String}
    (hq : q ∈ root.subphrases) (hne : q ≠ p) (hname : q.definedName? = some name) :
    (t.writeAll scope (rule.marks p)).tagD q.id = .wellTyped ↔ t.tagD q.id = .wellTyped := by
  have serves := Construct.serves hr
  have orderly := Construct.orderly hr
  have hnodup' := Phrase.nodup_of_mem_subphrases hnodup hp
  by_cases hin : q.id ∈ p.preOrder
  · rcases (Phrase.mem_preOrder_iff p q.id).mp hin with hid | ⟨part, hpart, hid⟩
    · exact absurd (Phrase.eq_of_id_eq hnodup hq hp hid) hne
    obtain ⟨i, hi⟩ := List.getElem?_of_mem hpart
    by_cases htop : q.id = part.id
    · -- A part that defines a text is no word. If it is granted a tag, then it is unbound before.
      obtain rfl := Phrase.eq_of_id_eq hnodup hq
        (Phrase.subphrases_subset hp (Phrase.part_mem_subphrases hpart)) htop
      have hword : q.category.settledTag? = none := by
        rcases Phrase.definedName?_cases hname with hcat | hcat <;> rw [hcat] <;> rfl
      rw [tagD_marks_part t scope orderly hnodup' hi (h.known hin), hword, Option.getD_none]
      cases hgrant : rule.grants.lookup i with
      | none => rw [Option.getD_none]
      | some tag =>
          rw [serves.grants_eq] at hgrant
          have htag : tag ≠ .wellTyped := by
            rintro rfl
            simpa using Construct.asserted_cases hgrant
          have hslot : i ∉ (rule.progress p p.values).visited := by
            have hmem := Construct.mem_asserted hgrant
            rw [← serves.grants_eq] at hmem
            exact fun hvisited => (orderly.grants_lt _ hmem).2
              ((rule.progress_keeps p p.values).1.subset hvisited)
          simp [htag, h.unbound_of_notMem hi hslot q.id q.id_mem_preOrder]
    · rw [tagD_marks_below t scope rule hnodup' hi hid htop]
  · rw [Table.tagD_writeAll_of_notMem]
    intro hmem
    obtain ⟨mark, hmark, hid⟩ := List.mem_map.mp hmem
    exact hin (hid ▸ rule.mem_marks_ids p hmark)

include hnodup hp hc hr h in
/-- The end of a rule completes the text that it defines, and no other. -/
theorem completed_marks_iff (scope : UInt32) (name : String) :
    (t.writeAll scope (rule.marks p)).Completed root name ↔
      t.Completed root name ∨ rule.definedText? p = some name := by
  have hid : p.id ∈ t.ids := h.known p.id_mem_preOrder
  rw [Construct.definedText?_eq hc hr]
  constructor
  · rintro ⟨q, hq, htag, hname⟩
    by_cases hqp : q = p
    · exact .inr (hqp ▸ hname)
    · rw [tagD_marks_wellTyped_iff hnodup hp hr h scope hq hqp hname] at htag
      exact .inl ⟨q, hq, htag, hname⟩
  · rintro (⟨q, hq, htag, hname⟩ | hname)
    · have hqp : q ≠ p := by
        rintro rfl
        exact absurd (htag.symm.trans h.top) (by decide)
      refine ⟨q, hq, ?_, hname⟩
      rwa [tagD_marks_wellTyped_iff hnodup hp hr h scope hq hqp hname]
    · refine ⟨p, hp, ?_, hname⟩
      rw [tagD_marks_top t scope rule hid, (Construct.serves hr).result_eq]
      rcases Phrase.definedName?_cases hname with hcat | hcat
      all_goals
        cases hc.symm.trans hcat
        rfl

end Finish

end Rule

/-- The records that count as defined are those whose texts are completed. -/
def Table.Faithful (t : Table) (root : Phrase) : Prop := t.DefinesExactly (t.Completed root)

namespace Phrase

variable {root p : Phrase} {context : Option Category} {s : State}

/-- Giving a tag to a phrase that defines no text does not matter to what is defined. -/
theorem faithful_write (hnodup : root.preOrder.Nodup) (hp : p ∈ root.subphrases)
    (hname : p.definedName? = none) {t : Table} (h : t.Faithful root) (tag : Tag)
    (scope : UInt32) : (t.write p.id tag scope).Faithful root := by
  refine (h.write p.id tag scope).congr (Table.completed_congr fun q hq name hq' => ?_)
  rw [Table.tagD_write_of_ne]
  intro hid
  rw [eq_of_id_eq hnodup hq hp hid, hname] at hq'
  cases hq'

/-- A construct that follows its rule. -/
theorem faithful_apply {c : Construct} {rule : Rule} (hnodup : root.preOrder.Nodup)
    (hp : p ∈ root.subphrases) (hc : p.category = .construct c)
    (hr : c.rule? (p.parts.map category) = some rule) (hunder : p.Underway [] s.table)
    (hparts : ∀ q ∈ p.parts, ∀ s : State, q.preOrder ⊆ s.table.ids →
      (∀ n ∈ q.preOrder, s.table.tagD n = .unbound) → s.table.Faithful root →
        (q.typing (some p.category) s).state.table.Faithful root)
    (h : s.table.Faithful root) :
    (rule.apply p (p.parts.map (typing (some p.category))) s).state.table.Faithful root := by
  have hnodup' := nodup_of_mem_subphrases hnodup hp
  have orderly := Construct.orderly hr
  obtain ⟨hfault, hunder', h'⟩ := @Rule.stages_underway_and rule p (·.Faithful root) orderly
    hnodup' (fun q hq => q.settles _ (nodup_part hnodup' hq)) hparts s ⟨hunder, h⟩
  rw [List.nil_append] at hunder'
  rw [Rule.apply, Step.all_append]
  cases hf : (rule.progress p p.values).fault with
  | some fault =>
      rw [Step.andThen_of_some (hfault.trans hf)]
      exact h'
  | none =>
      rw [Step.andThen_of_none (hfault.trans hf), Rule.finish_eq orderly hunder'.known]
      refine ((h'.defineSome _).writeAll _ _).congr fun name => ?_
      rw [← Table.defineSome_writeAll, ← Rule.completed_marks_iff hnodup hp hc hr hunder' _ name]
      exact Table.completed_congr (fun q _ _ _ => by rw [Table.tagD_defineSome]) name

/-- The first typing of a phrase leaves a table in which what counts as defined is what is
completed, if it starts from such a table. -/
theorem faithful_typing (hnodup : root.preOrder.Nodup) (hp : p ∈ root.subphrases)
    (hknown : p.preOrder ⊆ s.table.ids) (hfresh : ∀ n ∈ p.preOrder, s.table.tagD n = .unbound)
    (h : s.table.Faithful root) : (p.typing context s).state.table.Faithful root := by
  induction p using Phrase.induction generalizing context s with
  | step i c l ps ih =>
      have hid := hknown (mk i c l ps).id_mem_preOrder
      have hunder := Underway.of_fresh hknown hfresh
      rw [typing_of_unbound hid hunder.top]
      cases c with
      | number | shortString =>
          simp only [typeAs, category_mk, Step.assign_eq hid]
          exact faithful_write hnodup hp rfl h _ _
      | keyword | token | operator op => exact h
      | name =>
          simp only [typeAs, category_mk, typeName_eq]
          cases (mk i .name l ps).nameValue context with
          | error fault => exact h
          | ok tag =>
              simp only [Step.assign_eq hid]
              exact faithful_write hnodup hp rfl h _ _
      | construct c =>
          cases hr : c.rule? (ps.map category) with
          | none =>
              simp only [typeAs, category_mk, parts_mk, hr]
              exact h
          | some rule =>
              simp only [typeAs, category_mk, parts_mk, hr]
              refine faithful_apply hnodup hp rfl hr hunder (fun q hq s' hknown' hfresh' h' => ?_) h
              exact ih q hq (subphrases_subset hp (part_mem_subphrases hq)) hknown' hfresh' h'

end Phrase

namespace Tree

variable {t : Tree}

theorem Grown.faithful_blankTable (h : t.Grown) : t.blankTable.Faithful t.root := by
  intro r hr
  rw [h.records_blankTable] at hr
  obtain ⟨p, -, rfl⟩ := List.mem_map.mp hr
  constructor
  · intro hdefined
    cases hdefined
  · rintro ⟨q, -, htag, -⟩
    rw [t.tagD_blankTable] at htag
    cases htag

namespace Grown

/-- After any number of runs, what counts as defined is what is completed. -/
theorem faithful_after (h : t.Grown) (k : Nat) :
    (t.freshChecker.after k).table.Faithful t.root := by
  cases k with
  | zero => exact h.faithful_blankTable
  | succ k =>
      -- Later runs keep the table of the first.
      have htable := (h.atRest_check.rerun k).2
      rw [Checker.rerun_eq_check] at htable
      have hfirst : (t.freshChecker.after 1).table.Faithful t.root := by
        rw [Checker.table_after_succ]
        refine Phrase.faithful_typing h.nodup_preOrder t.root.self_mem_subphrases ?_ ?_
          h.faithful_blankTable
        · exact h.ids_blankTable ▸ List.Subset.refl _
        · exact fun n _ => t.tagD_blankTable n
      exact htable ▸ hfirst

/-- After any number of runs, a record counts as defined exactly if its text is defined by a
well-typed procedure or assignment. So records with the same text agree, and a text counts as
defined if any record with it does. -/
theorem definition_iff_completed (h : t.Grown) :
    ∃ checker, Checker.start t = .ok checker ∧ ∀ k,
      let table := (checker.after k).table
      (∀ r ∈ table.records, r.definition = .defined ↔ ∃ p ∈ t.root.subphrases,
        table.tag p.id = .ok .wellTyped ∧ p.definedName? = some r.lexeme) ∧
      (∀ r ∈ table.records, ∀ r' ∈ table.records, r.lexeme = r'.lexeme →
        r.definition = r'.definition) ∧
      ∀ name, table.definition name = .defined ↔
        ∃ r ∈ table.records, r.lexeme = name ∧ r.definition = .defined := by
  refine ⟨_, h.start_eq_fresh, fun k => ?_⟩
  have hfaithful := h.faithful_after k
  refine ⟨fun r hr => (hfaithful r hr).trans ?_, fun r hr r' hr' hlexeme => ?_,
    hfaithful.definition_eq_iff⟩
  · constructor
    · rintro ⟨p, hp, htag, hname⟩
      exact ⟨p, hp, by rw [h.tag_after k hp, htag], hname⟩
    · rintro ⟨p, hp, htag, hname⟩
      rw [h.tag_after k hp] at htag
      exact ⟨p, hp, Except.ok.inj htag, hname⟩
  · have hiff : r.definition = .defined ↔ r'.definition = .defined := by
      rw [hfaithful r hr, hfaithful r' hr', hlexeme]
    cases hd : r.definition <;> cases hd' : r'.definition <;> simp [hd, hd'] at hiff ⊢

end Grown

/-- A tree of two assignments, of which the second assigns a string to the number y. The text of
the string is the name of the variable in the first. -/
def halfAssignedTree : Tree :=
  let x : Phrase := .mk 0 .name "x" []
  let target : Phrase := .mk 1 (.construct .numberVariable) "" [x]
  let becomes : Phrase := .mk 2 .token ":=" []
  let five : Phrase := .mk 3 .number "5" []
  let first : Phrase := .mk 4 (.construct .assignment) "" [target, becomes, five]
  let y : Phrase := .mk 5 .name "y" []
  let target' : Phrase := .mk 6 (.construct .numberVariable) "" [y]
  let becomes' : Phrase := .mk 7 .token ":=" []
  let text : Phrase := .mk 8 .shortString "x" []
  let second : Phrase := .mk 9 (.construct .assignment) "" [target', becomes', text]
  let root : Phrase := .mk 10 (.construct .code) "" [first, second]
  { forest := ⟨[⟨x, some 1⟩, ⟨target, some 4⟩, ⟨becomes, some 4⟩, ⟨five, some 4⟩,
      ⟨first, some 10⟩, ⟨y, some 6⟩, ⟨target', some 9⟩, ⟨becomes', some 9⟩, ⟨text, some 9⟩,
      ⟨second, some 10⟩, ⟨root, none⟩]⟩
    root }

theorem halfAssignedTree_grown : halfAssignedTree.Grown :=
  grown_of_regrown rfl

/-- The second run fails at the second assignment, after the first has defined x. The string with
that text counts as defined as well. -/
theorem Grown.definition_halfAssignedTree :
    halfAssignedTree.Grown ∧ ∃ checker, Checker.start halfAssignedTree = .ok checker ∧
      (checker.after 1).check.result =
        .error ⟨.typeMismatch [.number] .string, ⟨9, .construct .assignment, ""⟩⟩ ∧
      (∃ r ∈ (checker.after 2).table.records, r.id = 8 ∧ r.tag = .string ∧
        r.definition = .defined) ∧
      (checker.after 2).table.definition "x" = .defined := by
  have hgrown := halfAssignedTree_grown
  obtain ⟨checker, hstart, hdefined⟩ := definition_iff_completed hgrown
  refine ⟨hgrown, checker, hstart, ?_⟩
  obtain rfl := Except.ok.inj (hstart.symm.trans hgrown.start_eq_fresh)
  obtain ⟨hrecords, -, htexts⟩ := hdefined 2
  obtain ⟨r, hr, hid, hlexeme, htag⟩ : ∃ r ∈ (halfAssignedTree.freshChecker.after 2).table.records,
      r.id = 8 ∧ r.lexeme = "x" ∧ r.tag = .string := by decide
  have hfirst : ∃ p ∈ halfAssignedTree.root.subphrases,
      (halfAssignedTree.freshChecker.after 2).table.tag p.id = .ok .wellTyped ∧
        p.definedName? = some r.lexeme :=
    ⟨_, Phrase.part_mem_subphrases (List.mem_cons_self ..), rfl, hlexeme ▸ rfl⟩
  have hr' := (hrecords r hr).mpr hfirst
  exact ⟨hgrown.result_after 1, ⟨r, hr, hid, htag, hr'⟩, (htexts "x").mpr ⟨r, hr, hlexeme, hr'⟩⟩

end Tree

end TreeTyping
