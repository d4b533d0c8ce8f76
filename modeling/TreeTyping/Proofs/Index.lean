import Mathlib.Data.List.Nodup
import TreeTyping.Table

/-!
# Tables as lists of records

A table finds the record of a node through its index and changes it at the position to which the
index leads. What it finds is the one record of the node in the list, and what it changes is this
record and no other. So a table can be thought of as the list of its records, in which records are
looked for by their nodes.
-/

namespace TreeTyping.Table

/-- The index is settled by the records. -/
theorem ext_records {t u : Table} (h : t.records = u.records) : t = u := by
  have hindex : t.index = u.index := by rw [t.indexed, u.indexed, h]
  cases t
  cases u
  simp only at h hindex
  subst h hindex
  rfl

section Lookup

variable (t : Table) {id : NodeId}

/-- The index leads from a node to a position exactly if the record of the node stands there. -/
theorem position?_eq_some_iff {position : Nat} :
    t.position? id = some position ↔ ∃ r, t.records[position]? = some r ∧ r.id = id := by
  rw [position?_eq, List.findIdx?_eq_some_iff_getElem]
  constructor
  · rintro ⟨hlt, hid, -⟩
    exact ⟨_, List.getElem?_eq_getElem hlt, by simpa using hid⟩
  · rintro ⟨r, hr, rfl⟩
    obtain ⟨hlt, rfl⟩ := List.getElem?_eq_some_iff.mp hr
    refine ⟨hlt, by simp, fun j hj hsame => ?_⟩
    have hne := List.pairwise_iff_getElem.mp t.distinct j position (by simp; omega) (by simpa) hj
    simp only [List.getElem_map] at hne
    exact hne (by simpa using hsame)

/-- Looking up a node through the index gives its record in the list. -/
theorem get?_eq_some_iff {r : Record} : t.get? id = some r ↔ r ∈ t.records ∧ r.id = id := by
  unfold get?
  split
  · rename_i position hposition
    obtain ⟨q, hq, rfl⟩ := t.position?_eq_some_iff.mp hposition
    obtain ⟨hlt, rfl⟩ := List.getElem?_eq_some_iff.mp hq
    rw [Option.some.injEq]
    constructor
    · rintro rfl
      exact ⟨List.getElem_mem hlt, rfl⟩
    · rintro ⟨hr, hid⟩
      exact (List.inj_on_of_nodup_map t.distinct hr (List.getElem_mem hlt) hid).symm
  · rename_i hnone
    have hid := (t.position?_eq_none_iff id).mp hnone
    simp only [reduceCtorEq, false_iff]
    rintro ⟨hr, rfl⟩
    exact hid (List.mem_map_of_mem hr)

theorem get?_eq_none_iff (id : NodeId) : t.get? id = none ↔ id ∉ t.ids := by
  rw [← position?_eq_none_iff]
  unfold get?
  split <;> simp_all

/-- A record is found under its node. -/
theorem get?_of_mem {r : Record} (hr : r ∈ t.records) : t.get? r.id = some r :=
  t.get?_eq_some_iff.mpr ⟨hr, rfl⟩

/-- Looking up a node through the index is as good as searching the list for it. -/
theorem get?_eq_find? (id : NodeId) : t.get? id = t.records.find? (·.id == id) := by
  cases hfind : t.records.find? (·.id == id) with
  | none =>
      rw [get?_eq_none_iff]
      simpa [ids] using hfind
  | some r =>
      have hid : r.id = id := by simpa using List.find?_some hfind
      exact t.get?_eq_some_iff.mpr ⟨List.mem_of_find?_eq_some hfind, hid⟩

end Lookup

/-- The table in which the record of a node has been changed. -/
def reviseRecord (t : Table) (id : NodeId) (f : Record → Record) (hf : ∀ r, (f r).id = r.id) :
    Table :=
  t.map (fun r => if r.id = id then f r else r) fun r => by
    split
    · exact hf r
    · rfl

section Change

variable (t : Table) {f : Record → Record} (hf : ∀ r, (f r).id = r.id) {id : NodeId}

@[simp] theorem records_map : (t.map f hf).records = t.records.map f := rfl

/-- Changing records without their nodes changes no node of the table. -/
@[simp] theorem ids_map : (t.map f hf).ids = t.ids := by
  simp [ids, hf]

theorem get?_map (n : NodeId) : (t.map f hf).get? n = (t.get? n).map f := by
  apply Option.ext
  intro r
  rw [get?_eq_some_iff, records_map, List.mem_map, Option.map_eq_some_iff]
  simp only [get?_eq_some_iff]
  constructor
  · rintro ⟨⟨q, hq, rfl⟩, hid⟩
    exact ⟨q, ⟨hq, (hf q).symm.trans hid⟩, rfl⟩
  · rintro ⟨q, ⟨hq, rfl⟩, rfl⟩
    exact ⟨⟨q, hq, rfl⟩, hf q⟩

/-- Changing the record at the position of a node changes the record of this node in the list. -/
theorem modify_position {position : Nat} (h : t.position? id = some position) :
    t.records.modify position f = t.records.map fun r => if r.id = id then f r else r := by
  apply List.ext_getElem?
  intro i
  rw [List.getElem?_modify, List.getElem?_map]
  refine Option.map_congr fun r hr => ?_
  have hsame : position = i ↔ r.id = id := by
    constructor
    · rintro rfl
      obtain ⟨q, hq, hid⟩ := t.position?_eq_some_iff.mp h
      rw [Option.some.inj (hr.symm.trans hq)]
      exact hid
    · intro hid
      exact Option.some.inj (h.symm.trans (t.position?_eq_some_iff.mpr ⟨r, hr, hid⟩))
  simp only [hsame]

/-- A change to the record of a known node succeeds. -/
theorem revise_of_mem (h : id ∈ t.ids) : revise id f hf t = .ok () (t.reviseRecord id f hf) := by
  obtain ⟨position, hposition⟩ : ∃ position, t.position? id = some position := by
    rw [← Option.ne_none_iff_exists', ne_eq, position?_eq_none_iff, not_not]
    exact h
  have hlook : Change.look (fun t : Table => t.position id) t = .ok position t := by
    simp [Change.look_eq_ok_iff, Table.position, hposition]
  have hrecords : t.reviseAt position f hf = t.reviseRecord id f hf :=
    ext_records (t.modify_position hposition)
  rw [revise, Change.bind_of_ok hlook, ← hrecords]
  rfl

/-- A change to the record of an unknown node fails and leaves the table as it was. -/
theorem revise_of_notMem (h : id ∉ t.ids) :
    revise id f hf t = .error (.nodeNotFound id) t := by
  have hnone := (t.position?_eq_none_iff id).mpr h
  have hlook : Change.look (fun t : Table => t.position id) t = .error (.nodeNotFound id) t := by
    simp [Change.look_eq_error_iff, Table.position, hnone]
  rw [revise, Change.bind_of_error hlook]

/-- Entering a node adds a record at the end, unless the node has one already. -/
theorem records_insert (id : NodeId) (category : Category) (lexeme : String) :
    (t.insert id category lexeme).records =
      if id ∈ t.ids then t.records
      else t.records ++ [⟨id, category, lexeme, .unbound, 0, .undefined⟩] := by
  unfold insert
  by_cases h : id ∈ t.ids
  · have hsome : (t.position? id).isSome := by
      rw [Option.isSome_iff_ne_none, ne_eq, position?_eq_none_iff, not_not]
      exact h
    simp [h, hsome]
  · have hnone := (t.position?_eq_none_iff id).mpr h
    simp [h, hnone]

end Change

end TreeTyping.Table
