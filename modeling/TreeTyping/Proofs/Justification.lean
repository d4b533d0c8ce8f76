import TreeTyping.Proofs.Derivation
import TreeTyping.Proofs.Entry
import TreeTyping.Proofs.Failure
import TreeTyping.Proofs.Runs

/-!
# Every tag has a reason

The tags of a table can be justified one by one, each by the tags next to it. A word is settled
by the bound phrase that holds it, some parts have their tag asserted by the phrase around them,
and every other tag is what the rule of its own node concludes from the tags of the parts. This
holds after any number of runs, and in particular of the tables that failed runs leave behind.
-/

namespace TreeTyping

/-- The premises of a construct: which tags its parts have, given their categories. The tags of
parts that are not evaluated are left open. -/
def Construct.Premises (c : Construct) (categories : List Category) (tags : List Tag) : Prop :=
  match c with
  | .numberVariable => tags = [.number]
  | .stringVariable => tags = [.string]
  | .anyVariable | .intermediateT | .intermediateU => tags = [.number] ∨ tags = [.string]
  | .terminator => tags = [.wellTyped]
  | .calculation => ∃ k, tags = [k, .number, .number]
  | .booleanExpression =>
      (∃ k, tags = [k, .boolean]) ∨
        ∃ k, ∃ tag ∈ [.output, .number, .boolean], tags = [tag, k, tag]
  | .branch =>
      (∃ k k', tags = [k, .boolean, k', .wellTyped]) ∨
        ∃ k k' k'', tags = [k, .boolean, k', .wellTyped, k'', .wellTyped]
  | .assignment => ∃ k, tags = [.number, k, .number] ∨ tags = [.string, k, .string]
  | .loop =>
      (∃ k, tags = [k, .boolean, .wellTyped]) ∨
        ∃ k₀ k₂ k₅ k₈ k₉, tags = [k₀, .number, k₂, .number, .number, k₅, .number, .number,
          k₈, k₉, .number, .number, .wellTyped]
  | .program | .procedures | .code => tags = [.wellTyped] ∨ tags = [.wellTyped, .wellTyped]
  | .procedure => ∃ k x, tags = [k, x, .wellTyped]
  | .instruction => categories = [.keyword] ∨ tags = [.wellTyped]
  | .inputOutput | .call => ∃ k x, tags = [k, x]

/-- The reasons for which a table may hold a tag for a phrase of a tree. -/
inductive Table.Justifies (t : Table) (root : Phrase) : Phrase → Tag → Prop
  /-- A token is settled by the bound phrase that holds it. -/
  | token {holder p : Phrase} (inTree : holder ∈ root.subphrases) (held : p ∈ holder.parts)
      (bound : t.tagD holder.id ≠ .unbound) (category : p.category = .token) :
      t.Justifies root p .wellTyped
  /-- So is an operator. -/
  | operator {holder p : Phrase} {op : Operator} (inTree : holder ∈ root.subphrases)
      (held : p ∈ holder.parts) (bound : t.tagD holder.id ≠ .unbound)
      (category : p.category = .operator op) : t.Justifies root p .boolean
  /-- The argument of a statement is asserted to be a number. -/
  | argument {holder p : Phrase} {c : Construct} (inTree : holder ∈ root.subphrases)
      (statement : c ∈ [.inputOutput, .call]) (around : holder.category = .construct c)
      (bound : t.tagD holder.id = .wellTyped) (held : holder.parts[1]? = some p)
      (other : p.category.isWord = false) : t.Justifies root p .number
  /-- The name of a procedure is asserted to be one. -/
  | procedureName {holder p : Phrase} (inTree : holder ∈ root.subphrases)
      (around : holder.category = .construct .procedure)
      (bound : t.tagD holder.id = .wellTyped) (held : holder.parts[1]? = some p)
      (other : p.category.isWord = false) : t.Justifies root p .procedure
  /-- A keyword is asserted to halt. -/
  | halt {holder p : Phrase} (inTree : holder ∈ root.subphrases)
      (around : holder.category = .construct .instruction)
      (bound : t.tagD holder.id = .wellTyped) (held : holder.parts[0]? = some p)
      (category : p.category = .keyword) : t.Justifies root p .halt
  | number {p : Phrase} (category : p.category = .number) : t.Justifies root p .number
  | shortString {p : Phrase} (category : p.category = .shortString) :
      t.Justifies root p .string
  /-- A name is typed by the phrase around it. -/
  | numberName {holder p : Phrase} (inTree : holder ∈ root.subphrases) (held : p ∈ holder.parts)
      (around : holder.category = .construct .numberVariable) (category : p.category = .name) :
      t.Justifies root p .number
  | stringName {holder p : Phrase} (inTree : holder ∈ root.subphrases) (held : p ∈ holder.parts)
      (around : holder.category = .construct .stringVariable) (category : p.category = .name) :
      t.Justifies root p .string
  /-- A construct is typed by its own rule. -/
  | construct {p : Phrase} {c : Construct} (category : p.category = .construct c)
      (premises : c.Premises (p.parts.map Phrase.category) (p.parts.map fun q => t.tagD q.id)) :
      t.Justifies root p c.conclusion

namespace Phrase

theorem inspect_of_ok {p : Phrase} {c : Construct} {context : Option Category} {tag : Tag}
    (hc : p.category = .construct c) (h : p.evaluate context = .ok tag) :
    p.inspect p.values c = .ok () := by
  rw [evaluate_eq_valueOf] at h
  simp only [valueOf, hc, bind_eq_ok_iff] at h
  obtain ⟨_, hinspect, -⟩ := h
  exact hinspect

/-- A construct with a tag has its premises, in every assignment of tags that agrees with the
values at its slots. -/
theorem premises_of_ok {p : Phrase} {c : Construct} {context : Option Category} {tag : Tag}
    {tags : Phrase → Tag} (hc : p.category = .construct c) (h : p.evaluate context = .ok tag)
    (htags : ∀ i ∈ p.slots, ∀ q, p.parts[i]? = some q →
      tags q = tagOf (q.evaluate (some p.category))) :
    c.Premises (p.parts.map category) (p.parts.map tags) := by
  obtain ⟨i, _, l, ps⟩ := p
  obtain rfl := hc
  obtain ⟨rule, hr, -⟩ := exists_rule_of_ok rfl h
  have hlen : ps.length ∈ c.admitted := by simpa using Construct.length_mem_admitted hr
  have hok := inspect_of_ok rfl h
  simp only [values, parts_mk, category_mk, slots] at hok htags
  -- From here on each construct is a matter of its own: its number of parts, what is inspected
  -- and the tags at its slots.
  clear h hr
  cases c <;>
    simp only [Construct.admitted, List.mem_cons, List.not_mem_nil, or_false] at hlen
  case numberVariable | stringVariable | terminator =>
    obtain ⟨a, rfl⟩ := List.length_eq_one_iff.mp hlen
    simp_all [inspect, inspectOne, Construct.slots, Construct.Premises]
  case anyVariable | intermediateT | intermediateU =>
    obtain ⟨a, rfl⟩ := List.length_eq_one_iff.mp hlen
    simp only [inspect, inspectOne, List.map_cons, List.map_nil,
      bind_eq_ok_iff, expect_eq_ok_iff] at hok
    obtain ⟨inner, hinner, hmem⟩ := hok
    simp_all [Construct.slots, Construct.Premises]
  case calculation =>
    obtain ⟨k, a, b, rfl⟩ := List.length_eq_three.mp hlen
    simp_all [inspect, inspectCalculation, Construct.slots, Construct.Premises]
  case booleanExpression =>
    rcases hlen with hlen | hlen
    · obtain ⟨k, a, rfl⟩ := List.length_eq_two.mp hlen
      simp_all [inspect, inspectBoolean, Construct.slots, Construct.Premises]
    · obtain ⟨a, k, b, rfl⟩ := List.length_eq_three.mp hlen
      simp only [inspect, inspectBoolean, List.map_cons, List.map_nil,
      bind_eq_ok_iff, expect_eq_ok_iff] at hok
      obtain ⟨left, hleft, right, hright, _, hmem, _, -, heq⟩ := hok
      have ha : tags a = left := by simp [htags 0 (by simp [Construct.slots]) a rfl, hleft]
      have hb : tags b = left := by
        simpa [htags 2 (by simp [Construct.slots]) b rfl, hright] using heq
      exact .inr ⟨tags k, left, hmem, by simp [ha, hb]⟩
  case branch =>
    rcases hlen with hlen | hlen
    · obtain ⟨k, c, k', b, rfl⟩ := List.length_eq_four.mp hlen
      simp_all [inspect, inspectBranch, Construct.slots, Construct.Premises]
    · obtain ⟨k, c, k', b, k'', e, rfl⟩ := exists_of_length_eq_six hlen
      simp_all [inspect, inspectBranch, Construct.slots, Construct.Premises]
  case assignment =>
    obtain ⟨a, k, b, rfl⟩ := List.length_eq_three.mp hlen
    simp only [inspect, inspectAssignment, List.map_cons, List.map_nil,
      bind_eq_ok_iff, expect_eq_ok_iff] at hok
    obtain ⟨target, htarget, value, hvalue, _, hmem, heq⟩ := hok
    have ha : tags a = target := by simp [htags 0 (by simp [Construct.slots]) a rfl, htarget]
    have hb : tags b = target := by
      simpa [htags 2 (by simp [Construct.slots]) b rfl, hvalue] using heq
    refine ⟨tags k, ?_⟩
    simpa [ha, hb] using hmem
  case loop =>
    rcases hlen with hlen | hlen
    · obtain ⟨k, c, b, rfl⟩ := List.length_eq_three.mp hlen
      simp_all [inspect, inspectLoop, Construct.slots, Construct.Premises]
    · obtain ⟨k₀, a₁, k₂, a₃, a₄, k₅, a₆, a₇, k₈, k₉, a₁₀, a₁₁, b, rfl⟩ :=
        exists_of_length_eq_thirteen hlen
      simp_all [inspect, inspectLoop, Construct.slots, Construct.Premises]
  case program | procedures | code =>
    rcases hlen with hlen | hlen
    · obtain ⟨a, rfl⟩ := List.length_eq_one_iff.mp hlen
      simp_all [inspect, inspectSequence, Construct.slots, Construct.Premises]
    · obtain ⟨a, b, rfl⟩ := List.length_eq_two.mp hlen
      simp_all [inspect, inspectSequence, Construct.slots, Construct.Premises]
  case procedure =>
    obtain ⟨k, x, b, rfl⟩ := List.length_eq_three.mp hlen
    simp_all [inspect, inspectProcedure, Construct.slots, Construct.Premises]
  case instruction =>
    obtain ⟨a, rfl⟩ := List.length_eq_one_iff.mp hlen
    by_cases hkey : a.category = .keyword
    · simp [Construct.Premises, hkey]
    · simp_all [inspect, inspectInstruction, inspectOne, Construct.slots, Construct.Premises]
  case inputOutput | call =>
    obtain ⟨k, x, rfl⟩ := List.length_eq_two.mp hlen
    simp [Construct.Premises]

namespace Entered

variable {t : Table} {root p q : Phrase} {context : Option Category}

/-- In an entered phrase with a tag, the parts at its slots carry their values. -/
theorem tagD_slot (hcolumn : t.column root = root.tagging none)
    (h : root.Entered none context p) {tag : Tag} (hvalue : p.evaluate context = .ok tag)
    {i : Nat} (hi : i ∈ p.slots) (hq : p.parts[i]? = some q) :
    t.tagD q.id = tagOf (q.evaluate (some p.category)) := by
  have htyped : i ∈ p.fate.typed := by
    rw [fate_of_ok hvalue]
    exact hi
  exact (h.part htyped hq).tagD_eq hcolumn

/-- The tag of an entered phrase is concluded from the tags of its parts, or it is decided by the
category of the phrase and of the phrase around it. -/
theorem justifies (hcolumn : t.column root = root.tagging none)
    (h : root.Entered none context p) (hbound : t.tagD p.id ≠ .unbound) :
    t.Justifies root p (t.tagD p.id) := by
  have htag := h.tagD_eq hcolumn
  cases hvalue : p.evaluate context with
  | error fault =>
      rw [hvalue] at htag
      exact absurd htag hbound
  | ok tag =>
      rw [hvalue, tagOf_ok] at htag
      rw [htag] at hbound ⊢
      have hvalue' := hvalue
      rw [evaluate_eq_valueOf, valueOf] at hvalue'
      cases hc : p.category with
      | number =>
          simp only [hc] at hvalue'
          cases hvalue'
          exact .number hc
      | shortString =>
          simp only [hc] at hvalue'
          cases hvalue'
          exact .shortString hc
      | keyword | token | operator op =>
          simp only [hc] at hvalue'
          cases hvalue'
          exact absurd rfl hbound
      | name =>
          simp only [hc, nameValue] at hvalue'
          -- A name with nothing around it is ambiguous and has no value.
          have hholder := h.context_eq.resolve_left fun hnone => by simp [hnone] at hvalue'
          obtain ⟨holder, hin, hheld, rfl⟩ := hholder
          split at hvalue'
          · rename_i haround
            cases hvalue'
            exact .numberName hin hheld (Option.some.inj haround) hc
          · rename_i haround
            cases hvalue'
            exact .stringName hin hheld (Option.some.inj haround) hc
          · cases hvalue'
      | construct c =>
          obtain ⟨rule, -, -, rfl⟩ := exists_rule_of_ok hc hvalue
          exact .construct hc (premises_of_ok hc hvalue fun i hi q hq =>
            h.tagD_slot hcolumn hvalue hi hq)

end Entered

end Phrase

theorem Construct.mem_asserted {c : Construct} {categories : List Category} {i : Nat} {tag : Tag}
    (h : (c.asserted categories).lookup i = some tag) : (i, tag) ∈ c.asserted categories := by
  obtain ⟨front, back, happ, -⟩ := List.lookup_eq_some_iff.mp h
  simp [happ]

/-- The constructs that assert a tag, with the part to which they do. -/
theorem Construct.asserted_cases {c : Construct} {categories : List Category} {i : Nat}
    {tag : Tag} (h : (c.asserted categories).lookup i = some tag) :
    (c ∈ [.inputOutput, .call] ∧ i = 1 ∧ tag = .number) ∨
      (c = .procedure ∧ i = 1 ∧ tag = .procedure) ∨
      (c = .instruction ∧ categories = [.keyword] ∧ i = 0 ∧ tag = .halt) := by
  have hpair := Construct.mem_asserted h
  cases c <;> simp_all [Construct.asserted]

theorem Construct.conclusion_ne_unbound (c : Construct) : c.conclusion ≠ .unbound := by
  cases c <;> decide

namespace Phrase.Entered

variable {t : Table} {root p q : Phrase} {context : Option Category}

/-- The tag of a part that an entered phrase has not typed is that of a settled word, or it is
asserted by the phrase. -/
theorem justifies_left (hcolumn : t.column root = root.tagging none)
    (h : root.Entered none context p) {i : Nat} (hq : p.parts[i]? = some q)
    (hi : i ∉ p.fate.typed) (hbound : t.tagD q.id ≠ .unbound) :
    t.Justifies root q (t.tagD q.id) := by
  have hin := h.mem_subphrases
  have hheld := List.mem_of_getElem? hq
  obtain ⟨c, hc, hvalue, hleft⟩ := h.left_cases hcolumn hq hi hbound
  have hp := h.tagD_eq hcolumn
  rw [hvalue, tagOf_ok] at hp
  generalize t.tagD q.id = tag at hleft
  rcases hleft with hword | ⟨hother, hasserted⟩
  · have hpbound : t.tagD p.id ≠ .unbound := hp ▸ c.conclusion_ne_unbound
    cases hcat : q.category <;> simp only [hcat, Category.settledTag?] at hword <;> cases hword
    · exact .token hin hheld hpbound hcat
    · exact .operator hin hheld hpbound hcat
  · rcases Construct.asserted_cases hasserted with
      ⟨hstatement, rfl, rfl⟩ | ⟨rfl, rfl, rfl⟩ | ⟨rfl, hkeyword, rfl, rfl⟩
    · have hwell : c.conclusion = .wellTyped := by
        simp only [List.mem_cons, List.not_mem_nil, or_false] at hstatement
        rcases hstatement with rfl | rfl <;> rfl
      exact .argument hin hstatement hc (hp.trans hwell) hq hother
    · exact .procedureName hin hc hp hq hother
    · have hcat : q.category = .keyword := by
        have hmem := List.mem_map_of_mem (f := category) hheld
        rw [hkeyword] at hmem
        exact List.mem_singleton.mp hmem
      exact .halt hin hc hp hq hcat

end Phrase.Entered

namespace Table

variable {t : Table} {root p : Phrase}

/-- A table that holds the tags of a tree justifies each of them. -/
theorem justifies_of_bound (hcolumn : t.column root = root.tagging none)
    (hp : p ∈ root.subphrases) (hbound : t.tagD p.id ≠ .unbound) :
    t.Justifies root p (t.tagD p.id) := by
  rcases Phrase.Entered.of_bound hcolumn .top hp hbound with
    ⟨context, hentered⟩ | ⟨context, holder, i, hentered, hpart, hi⟩
  · exact hentered.justifies hcolumn hbound
  · exact hentered.justifies_left hcolumn hpart hi hbound

namespace Justifies

theorem procedure_holder {tag : Tag} (h : t.Justifies root p tag) (htag : tag = .procedure) :
    ∃ holder ∈ root.subphrases, holder.category = .construct .procedure ∧
      t.tagD holder.id = .wellTyped ∧ holder.parts[1]? = some p := by
  cases h with
  | procedureName inTree around bound held _ => exact ⟨_, inTree, around, bound, held⟩
  | @construct _ c => cases c <;> cases htag
  | _ => cases htag

theorem halt_holder {tag : Tag} (h : t.Justifies root p tag) (htag : tag = .halt) :
    p.category = .keyword ∧ ∃ holder ∈ root.subphrases,
      holder.category = .construct .instruction ∧ t.tagD holder.id = .wellTyped ∧
        holder.parts[0]? = some p := by
  cases h with
  | halt inTree around bound held category => exact ⟨category, _, inTree, around, bound, held⟩
  | @construct _ c => cases c <;> cases htag
  | _ => cases htag

theorem output_category {tag : Tag} (h : t.Justifies root p tag) (htag : tag = .output) :
    p.category = .construct .anyVariable := by
  cases h with
  | @construct _ c category =>
      cases c
      case anyVariable => exact category
      all_goals cases htag
  | _ => cases htag

end Justifies

end Table

namespace Tree.Grown

variable {t : Tree}

/-- The report on a tree shows the table of the first run, whether or not it ends in a fault. -/
theorem table_check (h : t.Grown) (loud : Bool) :
    (t.check loud).table = (t.freshChecker.after 1).table := by
  simp only [Tree.check, h.start_eq_fresh]
  cases t.freshChecker.check.result with
  | ok tag => rfl
  | error fault =>
      simp only [Report.ofFault]
      split <;> rfl

/-- After any number of runs, whatever they have returned, every tag of the table is justified by
the tags next to it. In particular only the name of a well-typed procedure is a procedure, only a
keyword in a well-typed instruction halts, and only a variable of any kind has output. The table
of a report is one of these tables. -/
theorem justifies_after (h : t.Grown) :
    ∃ checker, Checker.start t = .ok checker ∧
      (∀ k, ∀ r ∈ (checker.after k).table.records, r.tag ≠ .unbound →
        ∃ p ∈ t.root.subphrases, r.location = p.location ∧
          (checker.after k).table.Justifies t.root p r.tag ∧
          (r.tag = .procedure → ∃ holder ∈ t.root.subphrases,
            holder.category = .construct .procedure ∧
            (checker.after k).table.tagD holder.id = .wellTyped ∧ holder.parts[1]? = some p) ∧
          (r.tag = .halt → p.category = .keyword ∧ ∃ holder ∈ t.root.subphrases,
            holder.category = .construct .instruction ∧
            (checker.after k).table.tagD holder.id = .wellTyped ∧ holder.parts[0]? = some p) ∧
          (r.tag = .output → p.category = .construct .anyVariable)) ∧
      ∀ loud, (t.check loud).table = (checker.after 1).table := by
  refine ⟨_, h.start_eq_fresh, fun k r hr hbound => ?_, h.table_check⟩
  obtain ⟨p, hp, hlocation⟩ := h.exists_phrase_of_record hr
  have hid : r.id = p.id := congrArg Location.node hlocation
  have htag := tagD_of_record hr
  rw [hid] at htag
  rw [← htag] at hbound ⊢
  cases k with
  | zero => exact absurd (t.tagD_blankTable p.id) hbound
  | succ k =>
      have hjust := Table.justifies_of_bound (h.column_after k) hp hbound
      exact ⟨p, hp, hlocation, hjust, hjust.procedure_holder, hjust.halt_holder,
        hjust.output_category⟩

/-- In the table that two failed runs have left, the number variable of an assignment is justified
by the name in it. -/
theorem justifies_brokenProcedureTree :
    brokenProcedureTree.Grown ∧
      ∃ checker, Checker.start brokenProcedureTree = .ok checker ∧
        ∃ r ∈ (checker.after 2).table.records, r.id = 1 ∧ r.tag = .number ∧
          ∃ p ∈ brokenProcedureTree.root.subphrases, r.location = p.location ∧
            (checker.after 2).table.Justifies brokenProcedureTree.root p .number := by
  obtain ⟨checker, hstart, hjustified, -⟩ := justifies_after brokenProcedureTree_grown
  refine ⟨brokenProcedureTree_grown, checker, hstart, ?_⟩
  obtain rfl := Except.ok.inj (hstart.symm.trans brokenProcedureTree_grown.start_eq_fresh)
  obtain ⟨r, hr, hid, htag⟩ : ∃ r ∈ (brokenProcedureTree.freshChecker.after 2).table.records,
      r.id = 1 ∧ r.tag = .number := by decide
  obtain ⟨p, hp, hlocation, hjust, -⟩ := hjustified 2 r hr (by simp [htag])
  exact ⟨r, hr, hid, htag, p, hp, hlocation, htag ▸ hjust⟩

end Tree.Grown

end TreeTyping
