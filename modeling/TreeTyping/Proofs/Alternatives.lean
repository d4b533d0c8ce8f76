import Mathlib.Data.List.Nodup
import TreeTyping.Proofs.Delimiters
import TreeTyping.Tag

/-!
# Reading back a list of tags

A list of admitted tags is told as the texts of its tags with the word "or" between them. No tag has
a space in its text, and none begins with the letter of that word, so the word between two spaces is
found only where two tags are joined. The list can therefore be read back from its description.
-/

namespace TreeTyping.Tag

/-- All tags. -/
def all : List Tag :=
  [.unbound, .wellTyped, .procedure, .number, .output, .string, .boolean, .halt]

theorem mem_all (tag : Tag) : tag ∈ all := by
  cases tag <;> decide

theorem text_injective : Function.Injective text := by
  have hdistinct : (all.map text).Nodup := by decide
  intro tag tag' h
  exact List.inj_on_of_nodup_map hdistinct (mem_all tag) (mem_all tag') h

theorem space_notMem_text (tag : Tag) : ' ' ∉ tag.text.toList := by
  cases tag <;> decide

theorem text_ne_empty (tag : Tag) : tag.text ≠ "" := by
  cases tag <;> decide

/-- Two descriptions are joined like two tags. -/
theorem describe_append {left right : List Tag} (hleft : left ≠ []) (hright : right ≠ []) :
    describe (left ++ right) = describe left ++ " or " ++ describe right := by
  rw [describe, List.map_append, String.intercalate_append_of_ne_nil]
  · rfl
  · simpa using hleft
  · simpa using hright

theorem describe_singleton (tag : Tag) : describe [tag] = tag.text := by
  simp [describe]

theorem toList_describe_cons (tag : Tag) {rest : List Tag} (h : rest ≠ []) :
    (describe (tag :: rest)).toList =
      tag.text.toList ++ ' ' :: 'o' :: 'r' :: ' ' :: (describe rest).toList := by
  have happend := describe_append (List.cons_ne_nil tag []) h
  rw [List.singleton_append, describe_singleton] at happend
  simp [happend]

/-- No description begins like the word between two tags. -/
theorem head?_describe_ne (tags : List Tag) : (describe tags).toList.head? ≠ some 'o' := by
  have hletter : ∀ tag : Tag, ∀ more, (tag.text.toList ++ more).head? ≠ some 'o' := by
    intro tag more
    cases tag <;> simp [text]
  cases tags with
  | nil => decide
  | cons tag rest =>
      by_cases hrest : rest = []
      · rw [hrest, describe_singleton]
        simpa using hletter tag []
      · rw [toList_describe_cons tag hrest]
        exact hletter tag _

/-- After the first space of a description, the joining word that is read next begins either two
letters later or further on. -/
theorem exists_of_joined {rest : List Tag} {skipped after : List Char}
    (h : 'o' :: 'r' :: ' ' :: (describe rest).toList =
      skipped ++ ' ' :: 'o' :: 'r' :: ' ' :: after) :
    ∃ further, skipped = 'o' :: 'r' :: ' ' :: further ∧
      (describe rest).toList = further ++ ' ' :: 'o' :: 'r' :: ' ' :: after := by
  rcases skipped with _ | ⟨a, _ | ⟨b, _ | ⟨c, further⟩⟩⟩
  · simp at h
  · simp at h
  · -- The space would be the one after the joining word, and the next tag would be that word.
    simp only [List.cons_append, List.nil_append, List.cons.injEq, true_and] at h
    obtain ⟨-, -, hnext⟩ := h
    exact absurd (congrArg List.head? hnext) (head?_describe_ne rest)
  · simp only [List.cons_append, List.cons.injEq] at h
    obtain ⟨rfl, rfl, rfl, hrest⟩ := h
    exact ⟨further, rfl, hrest⟩

/-- Every occurrence of the joining word in a description joins two parts of the list. -/
theorem exists_of_occurrence {tags : List Tag} {before after : String}
    (h : describe tags = before ++ " or " ++ after) :
    ∃ left right, left ≠ [] ∧ right ≠ [] ∧ tags = left ++ right ∧ before = describe left ∧
      after = describe right := by
  induction tags generalizing before with
  | nil =>
      have hlength := congrArg (fun text => text.toList.length) h
      simp [describe] at hlength
  | cons tag rest ih =>
      replace h : (describe (tag :: rest)).toList =
          before.toList ++ ' ' :: 'o' :: 'r' :: ' ' :: after.toList := by simp [h]
      by_cases hrest : rest = []
      · rw [hrest, describe_singleton] at h
        have hspace : ' ' ∈ tag.text.toList := by simp [h]
        exact absurd hspace (space_notMem_text tag)
      rw [toList_describe_cons tag hrest] at h
      by_cases hspace : ' ' ∈ before.toList
      · obtain ⟨word, skipped, hbefore, hword⟩ := List.eq_append_cons_of_mem hspace
        rw [hbefore, List.append_assoc, List.cons_append] at h
        obtain ⟨htext, htail⟩ := Text.cut_at (space_notMem_text tag) hword h
        obtain ⟨further, rfl, hfurther⟩ := exists_of_joined htail
        have hdescribe : describe rest = String.ofList further ++ " or " ++ after := by
          rw [← String.toList_inj, hfurther]
          simp
        obtain ⟨left, right, hleft, hright, rfl, hfurther', hafter⟩ := ih hdescribe
        refine ⟨tag :: left, right, List.cons_ne_nil tag left, hright, rfl, ?_, hafter⟩
        rw [← String.toList_inj, toList_describe_cons tag hleft, ← hfurther', hbefore, htext,
          String.toList_ofList]
      · obtain ⟨htext, htail⟩ := Text.cut_at (space_notMem_text tag) hspace h
        simp only [List.cons.injEq, true_and, String.toList_inj] at htext htail
        refine ⟨[tag], rest, List.cons_ne_nil tag [], hrest, rfl, ?_, htail.symm⟩
        rw [describe_singleton, htext]

/-- Splitting a description at the joining word gives the texts of the tags. -/
theorem split_describe (tags : List Tag) :
    ((describe tags).split " or ").toList.map String.Slice.copy =
      if tags = [] then [""] else tags.map text := by
  have hfirst : " or ".toList.head? = some ' ' := rfl
  have hwords : ∀ word ∈ tags.map text, ' ' ∉ word.toList := by
    intro word hword
    obtain ⟨tag, -, rfl⟩ := List.mem_map.mp hword
    exact space_notMem_text tag
  rw [describe, Text.toList_split_joined hfirst hwords]
  simp only [List.map_eq_nil_iff]

theorem map_text_ne (tags : List Tag) : tags.map text ≠ [""] := by
  intro h
  obtain ⟨tag, -, htext⟩ := List.mem_map.mp (h ▸ List.mem_singleton_self "")
  exact text_ne_empty tag htext

theorem describe_injective : Function.Injective describe := by
  intro tags tags' h
  have hsplit : (if tags = [] then [""] else tags.map text) =
      if tags' = [] then [""] else tags'.map text := by
    rw [← split_describe, ← split_describe, h]
  split at hsplit
  · rename_i hnil
    split at hsplit
    · rename_i hnil'
      rw [hnil, hnil']
    · exact absurd hsplit.symm (map_text_ne tags')
  · split at hsplit
    · exact absurd hsplit (map_text_ne tags)
    · exact text_injective.list_map hsplit

/-- A list of tags can be read back from its description. Different lists have different
descriptions, splitting the description of a list at the joining word gives the texts of its tags in
order, and wherever that word is found, the list has a part before it and a part after it. -/
theorem describe_reads_back (tags : List Tag) :
    (∀ tags', describe tags = describe tags' ↔ tags = tags') ∧
      ((describe tags).split " or ").toList.map String.Slice.copy =
        (if tags = [] then [""] else tags.map text) ∧
      ∀ before after, describe tags = before ++ " or " ++ after ↔
        ∃ left right, left ≠ [] ∧ right ≠ [] ∧ tags = left ++ right ∧ before = describe left ∧
          after = describe right := by
  refine ⟨fun tags' => describe_injective.eq_iff, split_describe tags, fun before after => ?_⟩
  constructor
  · exact exists_of_occurrence
  · rintro ⟨left, right, hleft, hright, rfl, rfl, rfl⟩
    exact describe_append hleft hright

end TreeTyping.Tag
