import Mathlib.Data.List.Forall2
import TreeTyping.Proofs.Arrivals
import TreeTyping.Proofs.Reports

/-!
# The frame of a typing

A typing gives tags to nodes of its own phrase that have none yet. All other nodes keep their tags
and their scopes, although a rule writes tags at its end without a look at what it overwrites. It
overwrites nothing, because what a phrase marks at its end stays unbound for as long as the phrase
itself does. This holds before the first run, no typing breaks it, whether or not it fails, and so
it holds whenever a phrase is come to.
-/

namespace TreeTyping

/-- A typing of a phrase is free to mark the nodes of the phrase that are unbound. -/
def Phrase.Free (p : Phrase) (n : NodeId) (tag : Tag) : Prop := n ∈ p.preOrder ∧ tag = .unbound

/-- What may become of a record. It stays where it is, its text stays defined once it has been
defined, and unless the record is free, it keeps its tag and its scope. -/
structure Record.Remains (free : NodeId → Tag → Prop) (r r' : Record) : Prop where
  location : r'.location = r.location
  kept : ¬ free r.id r.tag → r'.tag = r.tag ∧ r'.scope = r.scope
  defined : r.definition = .defined → r'.definition = .defined

namespace Record.Remains

variable {free : NodeId → Tag → Prop} {r r' r'' : Record}

theorem refl (free : NodeId → Tag → Prop) (r : Record) : r.Remains free r :=
  ⟨rfl, fun _ => ⟨rfl, rfl⟩, fun h => h⟩

theorem id_eq (h : r.Remains free r') : r'.id = r.id := congrArg Location.node h.location

theorem trans (h : r.Remains free r') (h' : r'.Remains free r'') : r.Remains free r'' := by
  refine ⟨h'.location.trans h.location, fun hfree => ?_, fun hd => h'.defined (h.defined hd)⟩
  obtain ⟨htag, hscope⟩ := h.kept hfree
  obtain ⟨htag', hscope'⟩ := h'.kept (by rwa [htag, h.id_eq])
  exact ⟨htag'.trans htag, hscope'.trans hscope⟩

theorem mono {free' : NodeId → Tag → Prop} (hfree : free r.id r.tag → free' r.id r.tag)
    (h : r.Remains free r') : r.Remains free' r' :=
  ⟨h.location, fun hnot => h.kept fun hr => hnot (hfree hr), h.defined⟩

end Record.Remains

namespace Table

/-- The records of two tables correspond one to one, and only free records have received another
tag or scope. -/
def Remains (free : NodeId → Tag → Prop) (t u : Table) : Prop :=
  List.Forall₂ (Record.Remains free) t.records u.records

section Remains

variable {free free' : NodeId → Tag → Prop} {t u : Table}

theorem Remains.mono (hfree : ∀ r ∈ t.records, free r.id r.tag → free' r.id r.tag)
    (h : t.Remains free u) : t.Remains free' u :=
  ((List.forall₂_and_left _ _).mpr ⟨hfree, h⟩).imp fun _ _ hr => hr.2.mono hr.1

theorem Remains.refl (t : Table) : t.Remains free t :=
  List.forall₂_same.mpr fun r _ => .refl free r

theorem Remains.trans {v : Table} (h : t.Remains free u) (h' : u.Remains free v) :
    t.Remains free v := by
  unfold Remains at h h' ⊢
  generalize t.records = ts at h ⊢
  generalize u.records = us at h h'
  generalize v.records = vs at h' ⊢
  induction h generalizing vs with
  | nil => exact h'
  | cons hr hrest ih =>
      cases h' with
      | cons hr' hrest' => exact .cons (hr.trans hr') (ih _ hrest')

/-- Only free nodes may be given tags, while texts may be defined at any time. -/
theorem frame_remains {ids : List NodeId} (h : ∀ id ∈ ids, ∀ tag, free id tag) :
    Frame ids (Remains free) where
  refl := Remains.refl
  trans := Remains.trans
  write t id tag scope hid := by
    refine List.forall₂_map_right_iff.mpr (List.forall₂_same.mpr fun r _ => ?_)
    split
    · rename_i he
      exact ⟨rfl, fun hnot => absurd (h r.id (he ▸ hid) r.tag) hnot, fun hd => hd⟩
    · exact .refl free r
  define t name := by
    refine List.forall₂_map_right_iff.mpr (List.forall₂_same.mpr fun r _ => ?_)
    split
    · exact ⟨rfl, fun _ => ⟨rfl, rfl⟩, fun _ => rfl⟩
    · exact .refl free r

/-- Marks on free records touch no other record. -/
theorem remains_writeAll (name? : Option String) (scope : UInt32) (marks : List (NodeId × Tag))
    (h : ∀ r ∈ t.records, r.id ∈ marks.map Prod.fst → free r.id r.tag) :
    t.Remains free ((t.defineSome name?).writeAll scope marks) := by
  have frame : Frame (marks.map Prod.fst) (Remains fun n _ => n ∈ marks.map Prod.fst) :=
    frame_remains fun id hid _ => hid
  have hdefine : t.Remains (fun n _ => n ∈ marks.map Prod.fst) (t.defineSome name?) := by
    cases name? with
    | none => exact frame.refl t
    | some name => exact frame.define t name
  have hall : ∀ (later : List (NodeId × Tag)) (u : Table), later ⊆ marks →
      u.Remains (fun n _ => n ∈ marks.map Prod.fst) (u.writeAll scope later) := by
    intro later
    induction later with
    | nil => exact fun u _ => frame.refl u
    | cons mark rest ih =>
        intro u hsub
        obtain ⟨hmark, hrest⟩ := List.cons_subset.mp hsub
        exact frame.trans (frame.write u _ _ scope (List.mem_map_of_mem hmark)) (ih _ hrest)
  exact (frame.trans hdefine (hall marks _ (List.Subset.refl _))).mono h

end Remains

/-- As long as a phrase is unbound, so is all that its rule marks at its end. -/
def Awaits (t : Table) (p : Phrase) : Prop :=
  t.tagD p.id = .unbound → ∀ c rule, p.category = .construct c →
    c.rule? (p.parts.map Phrase.category) = some rule →
      ∀ mark ∈ rule.marks p, t.tagD mark.1 = .unbound

theorem Awaits.congr {t u : Table} {p : Phrase} (h : t.Awaits p)
    (htags : ∀ n ∈ p.preOrder, u.tagD n = t.tagD n) : u.Awaits p := by
  intro htop c rule hc hr mark hmark
  rw [htags _ p.id_mem_preOrder] at htop
  rw [htags _ (rule.mem_marks_ids p hmark)]
  exact h htop c rule hc hr mark hmark

/-- A table in which a phrase can be typed: it has one record for each node of the phrase, and
every phrase within awaits its rule. -/
structure Ready (t : Table) (p : Phrase) : Prop where
  known : p.preOrder ⊆ t.ids
  awaits : ∀ q ∈ p.subphrases, t.Awaits q

namespace Ready

variable {t u : Table} {p q : Phrase}

theorem of_mem (h : t.Ready p) (hq : q ∈ p.subphrases) : t.Ready q where
  known := List.Subset.trans (Phrase.preOrder_subset hq) h.known
  awaits r hr := h.awaits r (Phrase.subphrases_subset hq hr)

theorem congr (h : t.Ready p) (hids : u.ids = t.ids) (htags : ∀ n, u.tagD n = t.tagD n) :
    u.Ready p where
  known := hids ▸ h.known
  awaits q hq := (h.awaits q hq).congr fun n _ => htags n

/-- Marks on unbound nodes among a phrase and its parts keep the table ready, provided that the
phrase still awaits its rule afterwards. -/
theorem writeAll (h : t.Ready p) (hnodup : p.preOrder.Nodup) (scope : UInt32)
    (marks : List (NodeId × Tag))
    (hmarks : ∀ mark ∈ marks, t.tagD mark.1 = .unbound ∧
      ∃ q, (q = p ∨ q ∈ p.parts) ∧ mark.1 = q.id)
    (htop : (t.writeAll scope marks).Awaits p) : (t.writeAll scope marks).Ready p := by
  refine ⟨by simpa using h.known, fun q hq => ?_⟩
  rcases eq_or_ne q p with rfl | hne
  · exact htop
  intro hunbound c rule hc hr mark hmark
  -- A node that is unbound afterwards was so before, since only unbound nodes are marked.
  have hbefore : t.tagD q.id = .unbound := by
    by_cases hmem : q.id ∈ marks.map Prod.fst
    · obtain ⟨mark, hmark, hid⟩ := List.mem_map.mp hmem
      exact hid ▸ (hmarks mark hmark).1
    · rwa [tagD_writeAll_of_notMem _ _ hmem] at hunbound
  rcases Rule.exists_of_mem_marks hmark with ⟨r, rfl | hpart, hid⟩
  · rwa [hid]
  -- A part of another phrase is neither the top nor one of its parts.
  have hr' : r ∈ p.subphrases := Phrase.subphrases_subset hq (Phrase.part_mem_subphrases hpart)
  have hnot : mark.1 ∉ marks.map Prod.fst := by
    intro hmem
    obtain ⟨mark', hmark', hid'⟩ := List.mem_map.mp hmem
    obtain ⟨-, r', hr'', hid''⟩ := hmarks mark' hmark'
    have hsame : r = r' := by
      refine Phrase.eq_of_id_eq hnodup hr' ?_ (hid.symm.trans (hid'.symm.trans hid''))
      rcases hr'' with rfl | hr''
      · exact Phrase.self_mem_subphrases _
      · exact Phrase.part_mem_subphrases hr''
    subst hsame
    rcases hr'' with rfl | hr''
    · exact hne (Phrase.eq_of_mem_subphrases hnodup hq (Phrase.part_mem_subphrases hpart))
    · exact hne (Phrase.holder_eq hnodup hq p.self_mem_subphrases hpart hr'')
  rw [tagD_writeAll_of_notMem _ _ hnot]
  exact h.awaits q hq hbefore c rule hc hr mark hmark

/-- Such marks keep the table ready and are made on free records only. -/
theorem marked (h : t.Ready p) (hnodup : p.preOrder.Nodup) (name? : Option String)
    (scope : UInt32) (marks : List (NodeId × Tag))
    (hmarks : ∀ mark ∈ marks, t.tagD mark.1 = .unbound ∧
      ∃ q, (q = p ∨ q ∈ p.parts) ∧ mark.1 = q.id)
    (htop : ((t.defineSome name?).writeAll scope marks).Awaits p) :
    ((t.defineSome name?).writeAll scope marks).Ready p ∧
      t.Remains p.Free ((t.defineSome name?).writeAll scope marks) := by
  constructor
  · have hready := h.congr (t.ids_defineSome name?) (t.tagD_defineSome name?)
    refine hready.writeAll hnodup scope marks (fun mark hmark => ?_) htop
    rw [tagD_defineSome]
    exact hmarks mark hmark
  · refine remains_writeAll name? scope marks fun r hr hmem => ?_
    obtain ⟨mark, hmark, hid⟩ := List.mem_map.mp hmem
    obtain ⟨hunbound, q, hq, hid'⟩ := hmarks mark hmark
    constructor
    · rw [← hid, hid']
      rcases hq with rfl | hq
      · exact q.id_mem_preOrder
      · exact Phrase.preOrder_part_subset hq q.id_mem_preOrder
    · rw [← tagD_of_mem_records hr, ← hid]
      exact hunbound

end Ready

end Table

namespace Step

/-- From every table with a property, a step comes to a table that has it too and that is related to
the one before. -/
def Maintains (inv : Table → Prop) (related : Table → Table → Prop) (step : Step) : Prop :=
  ∀ s : State, inv s.table →
    inv (step s).state.table ∧ related s.table (step s).state.table

/-- What holds of tables before and after texts are defined is maintained by all that gives no
tags. -/
theorem pervasive_maintains {inv : Table → Prop} {related : Table → Table → Prop}
    (frame : Table.Frame [] related) (hdefine : ∀ t name, inv t → inv (t.define name)) :
    Pervasive [] (Maintains inv related) where
  done s h := ⟨h, frame.refl s.table⟩
  fail _ s h := ⟨h, frame.refl s.table⟩
  andThen := by
    intro first second h h' s hs
    obtain ⟨hinv, hrelated⟩ := h s hs
    cases hf : (first s).fault with
    | some fault =>
        rw [andThen_of_some hf]
        exact ⟨hinv, hrelated⟩
    | none =>
        obtain ⟨hinv', hrelated'⟩ := h' (first s).state hinv
        rw [andThen_of_none hf]
        exact ⟨hinv', frame.trans hrelated hrelated'⟩
  withTag := by
    intro id next h s hs
    unfold withTag
    cases s.table.tag id with
    | ok tag => exact h tag s hs
    | error fault => exact ⟨hs, frame.refl s.table⟩
  assign _ hid := absurd hid List.not_mem_nil
  define name s h := ⟨hdefine s.table name h, frame.define s.table name⟩
  emit _ _ s h := ⟨h, frame.refl s.table⟩
  inNewScope h s hs := h { s with scope := s.lastScope + 1, lastScope := s.lastScope + 1 } hs

end Step

/-- A table in which a phrase is being typed, so that it is still unbound. -/
structure Table.AtWork (t : Table) (p : Phrase) : Prop extends t.Ready p where
  unbound : t.tagD p.id = .unbound

namespace Phrase

/-- Typing a word does nothing to the table. -/
theorem table_typing_of_word {q : Phrase} {tag : Tag} (h : q.category.settledTag? = some tag)
    {s : State} (hid : q.id ∈ s.table.ids) (context : Option Category) :
    (q.typing context s).state.table = s.table := by
  by_cases hunbound : s.table.tagD q.id = .unbound
  · rw [typing_of_unbound hid hunbound]
    cases hc : q.category with
    | token | operator op =>
        simp only [typeAs, hc]
        rfl
    | number | name | shortString | keyword | construct c => simp [hc, Category.settledTag?] at h
  · rw [typing_of_bound hid hunbound]

/-- Typing a phrase keeps a table ready for it and marks unbound nodes of the phrase only. -/
def Framed (p : Phrase) (context : Option Category) : Prop :=
  (p.typing context).Maintains (·.Ready p) (Table.Remains p.Free)

end Phrase

section AtWork

variable {p : Phrase} {c : Construct} {rule : Rule}

theorem Table.pervasive_atWork (p : Phrase) :
    Step.Pervasive [] (Step.Maintains (·.AtWork p) (Remains p.Free)) := by
  refine Step.pervasive_maintains (frame_remains fun id hid => absurd hid List.not_mem_nil) ?_
  intro t name h
  refine ⟨h.toReady.congr (t.ids_define name) fun n => t.tagD_define n name, ?_⟩
  rw [tagD_define]
  exact h.unbound

variable (hnodup : p.preOrder.Nodup) (hc : p.category = .construct c)
  (hr : c.rule? (p.parts.map Phrase.category) = some rule)
  (hparts : ∀ q ∈ p.parts, q.Framed (some p.category))

include hnodup hc hr

/-- The end of a rule marks unbound nodes only, since the phrase is at work. -/
theorem Rule.framed_finish {s : State} (hwork : s.table.AtWork p) :
    let out := Step.all [rule.grantParts p, (rule.defining.map (Defining.apply p)).getD .done,
      rule.conclude p] s
    out.state.table.Ready p ∧ s.table.Remains p.Free out.state.table := by
  have orderly := Construct.orderly hr
  have hunbound := hwork.awaits p p.self_mem_subphrases hwork.unbound c rule hc hr
  rw [finish_eq orderly hwork.known]
  refine hwork.toReady.marked hnodup _ _ _
    (fun mark hmark => ⟨hunbound mark hmark, exists_of_mem_marks hmark⟩) fun htop => ?_
  -- The phrase is bound now, so it awaits nothing.
  rw [tagD_marks_top _ _ rule (by simpa using hwork.known p.id_mem_preOrder)] at htop
  exact absurd htop orderly.result_ne

/-- Typing a part of a phrase at work marks nothing for which the phrase waits. -/
theorem Phrase.Framed.maintains_part {i : Nat} (hi : i ∈ rule.visits) {q : Phrase}
    (hq : p.parts[i]? = some q) (hframed : q.Framed (some p.category)) :
    (q.typing (some p.category)).Maintains (·.AtWork p) (Table.Remains p.Free) := by
  intro s hwork
  have hmem := List.mem_of_getElem? hq
  have hbelow := part_mem_subphrases hmem
  obtain ⟨hready, hremains⟩ := hframed s (hwork.toReady.of_mem hbelow)
  obtain ⟨hids, htags⟩ := q.frame_typing (some p.category) s
  have htop : (q.typing (some p.category) s).state.table.tagD p.id = .unbound := by
    rw [htags p.id (id_notMem_part hnodup hmem)]
    exact hwork.unbound
  refine ⟨⟨⟨hids ▸ hwork.known, fun r hr' => ?_⟩, htop⟩,
    hremains.mono fun r _ hfree => ⟨preOrder_part_subset hmem hfree.1, hfree.2⟩⟩
  rcases (mem_subphrases_iff p r).mp hr' with rfl | ⟨part, hpart, hr'⟩
  · -- The phrase itself waits for words, which are not touched, and for parts not visited.
    intro _ c' rule' hc' hr' mark hmark
    obtain rfl := Category.construct.inj (hc.symm.trans hc')
    obtain rfl := Option.some.inj (hr.symm.trans hr')
    have hmark' := hwork.awaits r r.self_mem_subphrases hwork.unbound c rule hc hr mark hmark
    by_cases hin : mark.1 ∈ q.preOrder
    · obtain ⟨tag, htag⟩ := Rule.exists_settledTag?_of_marked (Construct.orderly hr) hnodup hi hq
        hmark hin
      have hid : q.id ∈ s.table.ids := hwork.known (preOrder_part_subset hmem q.id_mem_preOrder)
      rwa [table_typing_of_word htag hid]
    · rwa [htags _ hin]
  · obtain ⟨j, hj⟩ := List.getElem?_of_mem hpart
    rcases eq_or_ne j i with rfl | hne
    · obtain rfl := Option.some.inj (hj.symm.trans hq)
      exact hready.awaits r hr'
    · have hawaits := hwork.awaits r (subphrases_subset (part_mem_subphrases hpart) hr')
      refine hawaits.congr fun n hn => htags n fun hn' => ?_
      exact disjoint_parts hnodup hj hq hne (preOrder_subset hr' hn) hn'

include hparts

/-- The typings that a rule picks for its visits keep the phrase at work. -/
theorem Rule.maintains_typing {i : Nat} (hi : i ∈ rule.visits) (typing : Step)
    (htyping : (p.parts.map (Phrase.typing (some p.category)))[i]? = some typing) :
    typing.Maintains (·.AtWork p) (Table.Remains p.Free) := by
  rw [List.getElem?_map, Option.map_eq_some_iff] at htyping
  obtain ⟨q, hq, rfl⟩ := htyping
  exact (hparts q (List.mem_of_getElem? hq)).maintains_part hnodup hc hr hi hq

/-- So do its stages. -/
theorem Rule.maintains_stages {stages : List Stage} (hsub : stages ⊆ rule.stages) :
    (Step.all (stages.map (Stage.apply p (p.parts.map
      (Phrase.typing (some p.category)))))).Maintains (·.AtWork p) (Table.Remains p.Free) := by
  have pervasive := Table.pervasive_atWork p
  refine pervasive.toClosed.all fun step hstep => ?_
  obtain ⟨stage, hstage, rfl⟩ := List.mem_map.mp hstep
  refine stage.pervasive_apply pervasive fun i hi => ?_
  exact maintains_typing hnodup hc hr hparts (List.mem_flatMap.mpr ⟨stage, hsub hstage, hi⟩)

/-- A construct that follows its rule. -/
theorem Rule.framed_apply {s : State} (hwork : s.table.AtWork p) :
    let out := rule.apply p (p.parts.map (Phrase.typing (some p.category))) s
    out.state.table.Ready p ∧ s.table.Remains p.Free out.state.table := by
  obtain ⟨hwork', hremains⟩ :=
    maintains_stages hnodup hc hr hparts (List.Subset.refl rule.stages) s hwork
  rw [apply, Step.all_append]
  cases hf : (Step.all (rule.stages.map
      (Stage.apply p (p.parts.map (Phrase.typing (some p.category))))) s).fault with
  | some fault =>
      rw [Step.andThen_of_some hf]
      exact ⟨hwork'.toReady, hremains⟩
  | none =>
      rw [Step.andThen_of_none hf]
      obtain ⟨hready, hremains'⟩ := framed_finish hnodup hc hr hwork'
      exact ⟨hready, hremains.trans hremains'⟩

end AtWork

/-- A stage changes the scopes only when it begins to type its parts. -/
theorem Stage.table_entry (stage : Stage) (s : State) : (stage.entry s).table = s.table := by
  unfold entry
  split <;> rfl

namespace Phrase

/-- A phrase that is no construct may be given a tag at once. -/
theorem framed_assign {p : Phrase} {s : State} (hnodup : p.preOrder.Nodup)
    (hleaf : ∀ c, p.category ≠ .construct c) (hwork : s.table.AtWork p) (tag : Tag) :
    let out := Step.assign p.id tag s
    out.state.table.Ready p ∧ s.table.Remains p.Free out.state.table := by
  rw [Step.assign_eq (hwork.known p.id_mem_preOrder)]
  refine hwork.toReady.marked hnodup none s.scope [(p.id, tag)] (fun mark hmark => ?_) ?_
  · obtain rfl := List.mem_singleton.mp hmark
    exact ⟨hwork.unbound, p, .inl rfl, rfl⟩
  · intro _ c rule hc
    exact absurd hc (hleaf c)

/-- Every typing keeps its table ready and marks unbound nodes of its phrase only. -/
theorem framed {p : Phrase} (hnodup : p.preOrder.Nodup) (context : Option Category) :
    p.Framed context := by
  induction p using Phrase.induction generalizing context with
  | step i c l ps ih =>
      intro s hready
      have hid := hready.known (mk i c l ps).id_mem_preOrder
      have hsame : s.table.Ready (mk i c l ps) ∧ s.table.Remains (mk i c l ps).Free s.table :=
        ⟨hready, .refl s.table⟩
      by_cases htop : s.table.tagD (mk i c l ps).id = .unbound
      · have hwork : s.table.AtWork (mk i c l ps) := ⟨hready, htop⟩
        rw [typing_of_unbound hid htop]
        cases c with
        | number | shortString => exact framed_assign hnodup (by simp) hwork _
        | keyword | token | operator op => exact hsame
        | name =>
            simp only [typeAs, category_mk, typeName_eq]
            cases (mk i .name l ps).nameValue context with
            | error fault => exact hsame
            | ok tag => exact framed_assign hnodup (by simp) hwork tag
        | construct c =>
            cases hr : c.rule? (ps.map category) with
            | none =>
                simp only [typeAs, category_mk, parts_mk, hr]
                exact hsame
            | some rule =>
                simp only [typeAs, category_mk, parts_mk, hr]
                exact Rule.framed_apply hnodup rfl hr
                  (fun q hq => ih q hq (nodup_part hnodup hq) _) hwork
      · rw [typing_of_bound hid htop]
        exact hsame

/-- Whenever a phrase is come to, the table is ready for it. -/
theorem Reaches.ready {root p : Phrase} {start s : State} {context : Option Category}
    (hnodup : root.preOrder.Nodup) (hstart : start.table.Ready root)
    (h : root.Reaches start context p s) : s.table.Ready p := by
  induction h with
  | top => exact hstart
  | @part context p q s c rule before after stage seen rest i around unbound construct follows
      stages visits part out out' passed _ visited _ ih =>
      have hnodup' := nodup_of_mem_subphrases hnodup around.mem_subphrases
      have hparts : ∀ q ∈ p.parts, q.Framed (some p.category) :=
        fun q hq => framed (nodup_part hnodup' hq) _
      have hwork : s.table.AtWork p := by
        refine ⟨ih, ?_⟩
        rw [Table.tag_eq _ (ih.known p.id_mem_preOrder)] at unbound
        exact Except.ok.inj unbound
      have hbefore : before ⊆ rule.stages := by simp [stages]
      have hseen : ∀ j ∈ seen, j ∈ rule.visits := fun j hj =>
        List.mem_flatMap.mpr ⟨stage, by simp [stages], by simp [visits, hj]⟩
      have hstages := (Rule.maintains_stages hnodup' construct follows hparts hbefore s hwork).1
      have hvisits : (Step.all (seen.map p.visit)).Maintains (·.AtWork p)
          (Table.Remains p.Free) :=
        (Table.pervasive_atWork p).toClosed.visits fun j hj =>
          Rule.maintains_typing hnodup' construct follows hparts (hseen j hj)
      have hentry : (stage.entry out.state).table.AtWork p := by
        rwa [stage.table_entry, ← passed]
      rw [← visited]
      exact (hvisits _ hentry).1.of_mem (part_mem_subphrases (List.mem_of_getElem? part))

end Phrase

/-- The counter of scopes moves on by a number of openings, for which there are enough
procedures. -/
theorem Step.planned_advances :
    Planned (fun plan step => ∀ s : State, ∃ opened ≤ plan.length,
        (step s).state.lastScope = s.lastScope + .ofNat opened)
      (fun _ => []) (fun p => [p]) (fun _ => []) Phrase.procedures := by
  refine @planned_counting (fun n last last' => ∃ opened ≤ n, last' = last + .ofNat opened)
    ⟨?_, ?_, ?_, ?_⟩
  · exact fun last => ⟨0, Nat.le_refl 0, by simp⟩
  · rintro m n last last' hle ⟨opened, hopened, rfl⟩
    exact ⟨opened, hopened.trans hle, rfl⟩
  · rintro m n last last' last'' ⟨opened, hopened, rfl⟩ ⟨opened', hopened', rfl⟩
    exact ⟨opened + opened', Nat.add_le_add hopened hopened', by simp [UInt32.add_assoc]⟩
  · rintro n last last' ⟨opened, hopened, rfl⟩
    exact ⟨1 + opened, Nat.add_le_add_left hopened 1, by simp [UInt32.add_assoc]⟩

/-- The counter does not go back unless it overflows. -/
theorem le_add_ofNat {last : UInt32} {opened : Nat} (h : last.toNat + opened < UInt32.size) :
    last ≤ last + .ofNat opened := by
  have hopened : (UInt32.ofNat opened).toNat = opened :=
    UInt32.toNat_ofNat_of_lt' (by omega)
  rw [UInt32.le_iff_toNat_le, UInt32.toNat_add, hopened, Nat.mod_eq_of_lt h]
  exact Nat.le_add_right _ _

/-- What the typing of a phrase has left as it was. -/
structure Phrase.Frames (p : Phrase) (s : State) (out : Outcome) : Prop where
  /-- The records are the same, and only unbound ones in the phrase have received a tag. -/
  records : s.table.Remains p.Free out.state.table
  scope : out.state.scope = s.scope
  /-- The counter of scopes has moved on by the number of scopes that were opened, which it
  determines because a tree has fewer procedures than the counter has values. Unless the counter has
  overflowed on the way, it has not gone back. -/
  lastScope : ∃ opened ≤ p.procedures.length,
    out.state.lastScope = s.lastScope + .ofNat opened ∧
      (s.lastScope.toNat + opened < UInt32.size → s.lastScope ≤ out.state.lastScope)

theorem Phrase.frames_typing {p : Phrase} {s : State} (hnodup : p.preOrder.Nodup)
    (h : s.table.Ready p) (context : Option Category) : p.Frames s (p.typing context s) := by
  obtain ⟨opened, hle, hlast⟩ := p.planned_typing Step.planned_advances context s
  refine ⟨(framed hnodup context s h).2, ?_, opened, hle, hlast, fun hroom => ?_⟩
  · exact Phrase.pervasive_typing (Step.pervasive_restores _) context s
  · rw [hlast]
    exact le_add_ofNat hroom

namespace Tree

variable {t : Tree}

theorem ready_blankTable (h : t.Grown) : t.blankTable.Ready t.root where
  known := h.ids_blankTable ▸ List.Subset.refl _
  awaits _ _ _ _ _ _ _ mark _ := t.tagD_blankTable mark.1

/-- Before every run, the table is ready for the tree. -/
theorem Grown.ready_after (h : t.Grown) (k : Nat) :
    (t.freshChecker.after k).table.Ready t.root := by
  induction k with
  | zero => exact ready_blankTable h
  | succ k ih =>
      rw [Checker.table_after_succ]
      exact (Phrase.framed h.nodup_preOrder none _ ih).1

/-- In every run, whatever the runs before it have returned, every typing of a phrase that is come
to leaves all but the unbound records of the phrase as they were, and returns to the scope in which
it began. All visits that are reported are at such phrases. -/
theorem Grown.frame_of_visit (h : t.Grown) :
    ∃ checker, Checker.start t = .ok checker ∧ ∀ k,
      (∀ context p s, t.root.Reaches (checker.after k).state context p s →
        p.Frames s (p.typing context s)) ∧
      ∀ n ∈ visitedNodes (checker.after k).check.events, ∃ context p s,
        t.root.Reaches (checker.after k).state context p s ∧
          s.table.tag p.id = .ok .unbound ∧ p.id = n := by
  refine ⟨_, h.start_eq_fresh, fun k => ⟨fun context p s hreach => ?_, fun n hn => ?_⟩⟩
  · have hnodup := Phrase.nodup_of_mem_subphrases h.nodup_preOrder hreach.mem_subphrases
    exact Phrase.frames_typing hnodup (hreach.ready h.nodup_preOrder (h.ready_after k)) context
  · have hvisited := Checker.exists_reaches_of_visited hn
    rwa [Checker.tree_after] at hvisited

/-- In the second run on the broken procedure, the body is typed in a new scope and fails again, and
the parts that the first run has typed stay in the scope of that run. -/
theorem Grown.frame_brokenProcedureTree :
    brokenProcedureTree.Grown ∧ ∃ checker, Checker.start brokenProcedureTree = .ok checker ∧
      ∃ body s, brokenProcedureTree.root.parts[2]? = some body ∧
        brokenProcedureTree.root.Reaches (checker.after 1).state (some (.construct .procedure))
          body s ∧
        s.scope = 2 ∧ s.table.tag 1 = .ok .number ∧ s.table.scope 1 = .ok 1 ∧
        (body.typing (some (.construct .procedure)) s).fault.isSome = true ∧
        body.Frames s (body.typing (some (.construct .procedure)) s) := by
  have hgrown := brokenProcedureTree_grown
  obtain ⟨checker, hstart, hframe⟩ := frame_of_visit hgrown
  refine ⟨hgrown, checker, hstart, ?_⟩
  obtain rfl := Except.ok.inj (hstart.symm.trans hgrown.start_eq_fresh)
  have hreach : brokenProcedureTree.root.Reaches (brokenProcedureTree.freshChecker.after 1).state
      (some (.construct .procedure)) _ _ :=
    @Phrase.Reaches.part brokenProcedureTree.root _ none brokenProcedureTree.root _ _ .procedure
      _ [] [] _ [] [] 2 .top rfl rfl rfl rfl rfl rfl _ _ rfl rfl rfl rfl
  exact ⟨_, _, rfl, hreach, rfl, rfl, rfl, rfl, (hframe 1).1 _ _ _ hreach⟩

end Tree

end TreeTyping
