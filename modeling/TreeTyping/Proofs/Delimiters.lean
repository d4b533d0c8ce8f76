import Mathlib.Data.List.Infix

/-!
# Texts that can be taken apart

A text that is put together from smaller ones can be taken apart again if the ends of the smaller
texts can be told. The end of one is told by a character that it does not contain, and then the rest
is of no account. A writing with this property is self-delimiting, and so is a row of values in such
a writing, up to a text that cannot be taken for another value. Words that are joined by a separator
are given back by splitting at the separator if none of them contains its first character.
-/

namespace TreeTyping

namespace Text

open String.Slice String.Slice.Pattern.Model

/-- A text can be cut at the first place at which a character stands. -/
theorem cut_at {stop : Char} {left left' right right' : List Char} (hleft : stop ∉ left)
    (hleft' : stop ∉ left') (h : left ++ stop :: right = left' ++ stop :: right') :
    left = left' ∧ right = right' := by
  have hlength : left.length = left'.length := by
    simpa [List.idxOf_append_of_notMem, hleft, hleft'] using congrArg (List.idxOf stop) h
  obtain ⟨heq, hrest⟩ := List.append_inj h hlength
  exact ⟨heq, List.tail_eq_of_cons_eq hrest⟩

/-- A way of writing values in which a written value can be told from all that follows it. -/
def SelfDelimiting {α : Type} (write : α → List Char) : Prop :=
  ∀ ⦃a b : α⦄ ⦃rest rest' : List Char⦄, write a ++ rest = write b ++ rest' → a = b ∧ rest = rest'

namespace SelfDelimiting

variable {α : Type} {write : α → List Char}

/-- A field of a line: the text for a value stands between fixed texts, the second of which begins
with a character that is in no text for a value. -/
theorem field {text : α → String} (hinjective : Function.Injective text) {stop : Char}
    (hstop : ∀ a, stop ∉ (text a).toList) (opening closing : List Char) :
    SelfDelimiting fun a => opening ++ ((text a).toList ++ stop :: closing) := by
  intro a b rest rest' h
  simp only [List.append_assoc, List.append_cancel_left_eq, List.cons_append] at h
  obtain ⟨htext, hrest⟩ := cut_at (hstop a) (hstop b) h
  exact ⟨hinjective (String.toList_inj.mp htext), List.append_cancel_left hrest⟩

/-- Values that are written one after the other can be told from what follows the last of them, if
this cannot be taken for the writing of a value. -/
theorem row (hwrite : SelfDelimiting write) (Ends : List Char → Prop)
    (hends : ∀ a rest, ¬ Ends (write a ++ rest)) {as bs : List α} {rest rest' : List Char}
    (hrest : Ends rest) (hrest' : Ends rest')
    (h : as.flatMap write ++ rest = bs.flatMap write ++ rest') : as = bs ∧ rest = rest' := by
  induction as generalizing bs with
  | nil =>
      cases bs with
      | nil => exact ⟨rfl, h⟩
      | cons b bs =>
          rw [List.flatMap_nil, List.nil_append] at h
          rw [h, List.flatMap_cons, List.append_assoc] at hrest
          exact absurd hrest (hends b _)
  | cons a as ih =>
      cases bs with
      | nil =>
          rw [List.flatMap_nil, List.nil_append] at h
          rw [← h, List.flatMap_cons, List.append_assoc] at hrest'
          exact absurd hrest' (hends a _)
      | cons b bs =>
          rw [List.flatMap_cons, List.flatMap_cons, List.append_assoc, List.append_assoc] at h
          obtain ⟨rfl, htail⟩ := hwrite h
          obtain ⟨rfl, hend⟩ := ih htail
          exact ⟨rfl, hend⟩

end SelfDelimiting

section Split

variable {s : String.Slice} {p q : s.Pos} {separator seen word rest : String} {first : Char}
  (hfirst : separator.toList.head? = some first)

/-- What lies between two positions is the text between them. -/
theorem copy_subslice (hp : p.Splits seen (word ++ rest)) (hq : q.Splits (seen ++ word) rest)
    (hle : p ≤ q) : (s.subslice p q hle).copy = word := by
  obtain ⟨_, hcopy⟩ := String.Slice.copy_slice_eq_iff_splits.mpr ⟨seen, rest, hp, hq⟩
  rw [Subslice.copy_eq, Function.comp_apply, toSlice_subslice]
  exact hcopy

include hfirst

/-- No occurrence of the separator begins within a word that does not contain its first character. -/
theorem not_matchesAt {r : s.Pos} (hp : p.Splits seen (word ++ rest))
    (hq : q.Splits (seen ++ word) rest) (hword : first ∉ word.toList) (hpr : p ≤ r) (hrq : r < q) :
    ¬ MatchesAt separator r := by
  intro hmatch
  obtain ⟨before, after, hr⟩ := ForwardStringSearcher.matchesAt_iff_splits.mp hmatch
  obtain ⟨skipped, rfl, -⟩ := (hp.le_iff_exists_eq_append hr).mp hpr
  obtain ⟨left, hne, hsplit, hleft⟩ := (hr.lt_iff_exists_eq_append hq).mp hrq
  -- The word goes on after the position, and its next character is that of the separator.
  have hsuffix : word.toList = skipped.toList ++ left.toList := by
    simpa [← String.toList_inj] using hsplit
  have hhead := congrArg (fun text => text.toList.head?) hleft
  cases hl : left.toList with
  | nil => exact hne (String.toList_eq_nil_iff.mp hl)
  | cons x xs =>
      have hx : x = first := by simpa [hl, hfirst] using hhead.symm
      apply hword
      rw [hsuffix, hl, hx]
      exact List.mem_append_right _ List.mem_cons_self

/-- From the end of what has been read, joined words are cut into these words. -/
theorem split_joined [StrictPatternModel separator] {words : List String}
    (hwords : ∀ w ∈ word :: words, first ∉ w.toList)
    (hp : p.Splits seen (separator.intercalate (word :: words))) :
    (Pattern.Model.split separator p p (String.Slice.Pos.le_refl p)).map Subslice.copy =
      word :: words := by
  induction words generalizing word p seen with
  | nil =>
      have hp' : p.Splits seen (word ++ "") := by simpa using hp
      have hend : s.endPos.Splits (seen ++ word) "" := by
        have hall := s.splits_endPos
        rwa [hp'.eq_append, String.append_empty] at hall
      rw [split_eq_of_not_matchesAt s.endPos p.le_endPos fun r hpr hrq =>
        not_matchesAt hfirst hp' hend (hwords word List.mem_cons_self) hpr hrq, split_endPos]
      rw [List.map_singleton, copy_subslice hp' hend]
  | cons next words ih =>
      rw [String.intercalate_cons_cons, String.append_assoc] at hp
      have hq := hp.splits_rotateRight
      have hr := hq.splits_rotateRight
      have hle : p ≤ hp.rotateRight := (hp.le_iff_exists_eq_append hq).mpr ⟨word, rfl, rfl⟩
      have hmatch : IsLongestMatchAt separator hp.rotateRight hq.rotateRight :=
        ForwardStringSearcher.isLongestMatchAt_iff_splits.mpr ⟨_, _, hq, hr⟩
      have hrest := ih (fun w hw => hwords w (List.mem_cons_of_mem word hw)) hr
      rw [split_eq_of_not_matchesAt hp.rotateRight hle fun r hpr hrq =>
        not_matchesAt hfirst hp hq (hwords word List.mem_cons_self) hpr hrq,
        split_eq_of_isLongestMatchAt hmatch, List.map_cons, hrest, copy_subslice hp hq]

/-- Splitting joined words at the separator gives the words, and one empty word if there are none. -/
theorem toList_split_joined {words : List String} (hwords : ∀ w ∈ words, first ∉ w.toList) :
    ((separator.intercalate words).split separator).toList.map String.Slice.copy =
      if words = [] then [""] else words := by
  have hseparator : separator ≠ "" := by
    rintro rfl
    simp at hfirst
  have := ForwardStringSearcher.strictPatternModel hseparator
  have := ForwardStringSearcher.lawfulToForwardSearcherModel hseparator
  rw [String.split_eq_split_toSlice, toList_split_eq_splitToSubslice,
    Pattern.toList_splitToSubslice_eq_modelSplit, List.map_map, ← Subslice.copy_eq]
  have hstart := (separator.intercalate words).toSlice.splits_startPos
  rw [String.copy_toSlice] at hstart
  cases words with
  | nil =>
      have hempty : separator.intercalate [] = separator.intercalate [""] := by simp
      rw [hempty] at hstart
      exact split_joined hfirst (by simp) hstart
  | cons word words => exact split_joined hfirst hwords hstart

end Split

end Text

end TreeTyping
