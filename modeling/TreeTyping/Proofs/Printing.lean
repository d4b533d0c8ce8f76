import Mathlib
import TreeTyping.Proofs.Alternatives
import TreeTyping.Proofs.ClassNames
import TreeTyping.Proofs.Quotation
import TreeTyping.Table

/-!
# Printed tables

A table is printed with one line for each record. A line is a row of fields, each of which ends at a
character that its value does not contain, except for the text of the node, which is quoted and ends
at the closing quote. So the printed table tells every field of every record, whatever texts the
nodes have.
-/

namespace TreeTyping

open Text

section Values

theorem notMem_repr {c : Char} (h : c.isDigit = false) (n : Nat) : c ∉ n.repr.toList := by
  intro hmem
  rw [Nat.toList_repr] at hmem
  have hdigit := Nat.isDigit_of_mem_toDigits (by decide) (by decide) hmem
  rw [h] at hdigit
  cases hdigit

theorem Category.notMem_symbol (c : Category) :
    '"' ∉ c.symbol.toList ∧ '\n' ∉ c.symbol.toList := by
  cases c with
  | number | name | shortString | keyword | token => decide
  | operator op => cases op <;> decide
  | construct c => cases c <;> decide

theorem Tag.feed_notMem_text (tag : Tag) : '\n' ∉ tag.text.toList := by
  cases tag <;> decide

theorem Definition.notMem_text (d : Definition) : ')' ∉ d.text.toList ∧ '\n' ∉ d.text.toList := by
  cases d <;> decide

theorem Definition.text_injective : Function.Injective text := by
  intro d d' h
  cases d with
  | undefined => cases d' with
    | undefined => rfl
    | defined => exact absurd h (by decide)
  | defined => cases d' with
    | undefined => exact absurd h (by decide)
    | defined => rfl

end Values

namespace Record

/-! The fields of a line, each with the marks around it. The quote that opens the text of the node
ends the field of its category. -/

def idField (id : NodeId) : List Char := ['['] ++ (id.repr.toList ++ ']' :: [' '])

def categoryField (c : Category) : List Char := (c.symbol ++ " ").toList ++ '"' :: []

def lexemeField (text : String) : List Char := text.toList.flatMap escape ++ '"' :: " : ".toList

def tagField (tag : Tag) : List Char := tag.text.toList ++ ' ' :: "(scope ".toList

def scopeField (scope : UInt32) : List Char := scope.toNat.repr.toList ++ ',' :: [' ']

def definitionField (d : Definition) : List Char := d.text.toList ++ ')' :: ['\n']

/-- The line of a record as a row of fields. -/
def line (r : Record) : List Char :=
  idField r.id ++ (categoryField r.category ++ (lexemeField r.lexeme ++
    (tagField r.tag ++ (scopeField r.scope ++ definitionField r.definition))))

theorem toList_text_append (r : Record) : (r.text ++ "\n").toList = r.line := by
  -- The equation of this definition takes long to derive, and unfolding it does not.
  delta text
  simp [line, idField, categoryField, lexemeField, tagField, scopeField, definitionField,
    toList_quote]

theorem selfDelimiting_idField : SelfDelimiting idField :=
  .field (fun _ _ => Nat.repr_injective) (notMem_repr (by decide)) _ _

theorem selfDelimiting_categoryField : SelfDelimiting categoryField := by
  have hinjective : Function.Injective fun c : Category => c.symbol ++ " " := by
    intro c c' h
    apply Category.symbol_injective
    exact (String.append_left_inj " ").mp h
  have hquote : ∀ c : Category, '"' ∉ (c.symbol ++ " ").toList := by
    intro c
    simpa using c.notMem_symbol.1
  exact .field hinjective hquote [] []

theorem selfDelimiting_lexemeField : SelfDelimiting lexemeField :=
  selfDelimiting_quoted form_escape _

theorem selfDelimiting_tagField : SelfDelimiting tagField :=
  .field Tag.text_injective Tag.space_notMem_text [] _

theorem selfDelimiting_scopeField : SelfDelimiting scopeField := by
  have hinjective : Function.Injective fun scope : UInt32 => scope.toNat.repr := by
    intro scope scope' h
    exact UInt32.toNat_inj.mp (Nat.repr_injective h)
  exact .field hinjective (fun scope => notMem_repr (by decide) scope.toNat) [] _

theorem selfDelimiting_definitionField : SelfDelimiting definitionField :=
  .field Definition.text_injective (fun d => d.notMem_text.1) [] _

/-- A line tells all that is known about a node, and where the line ends. -/
theorem selfDelimiting_line : SelfDelimiting line := by
  intro r r' rest rest' h
  simp only [line, List.append_assoc] at h
  obtain ⟨hid, h⟩ := selfDelimiting_idField h
  obtain ⟨hcategory, h⟩ := selfDelimiting_categoryField h
  obtain ⟨hlexeme, h⟩ := selfDelimiting_lexemeField h
  obtain ⟨htag, h⟩ := selfDelimiting_tagField h
  obtain ⟨hscope, h⟩ := selfDelimiting_scopeField h
  obtain ⟨hdefinition, hrest⟩ := selfDelimiting_definitionField h
  cases r
  cases r'
  simp only [mk.injEq]
  exact ⟨⟨hid, hcategory, hlexeme, htag, hscope, hdefinition⟩, hrest⟩

theorem line_append_ne_nil (r : Record) (rest : List Char) : r.line ++ rest ≠ [] := by
  simp [line, idField]

/-- A line has no line feed but the one at its end. -/
theorem count_feed_line (r : Record) : r.line.count '\n' = 1 := by
  have hlexeme := feed_notMem_flatMap form_escape r.lexeme.toList
  have htext : '\n' ∉ r.text.toList := by
    delta text
    simp [toList_quote, -Nat.toList_repr, notMem_repr, r.category.notMem_symbol.2, hlexeme,
      r.tag.feed_notMem_text, r.definition.notMem_text.2]
  rw [← toList_text_append, String.toList_append, List.count_append,
    List.count_eq_zero_of_not_mem htext]
  rfl

end Record

namespace Table

theorem toList_text (t : Table) : t.text.toList = t.records.flatMap Record.line := by
  rw [text, String.toList_join, List.flatMap_map]
  exact List.flatMap_congr fun r _ => r.toList_text_append

theorem records_eq_of_text {t u : Table} (h : t.text = u.text) : t.records = u.records := by
  have hlines : t.records.flatMap Record.line ++ [] = u.records.flatMap Record.line ++ [] := by
    rw [List.append_nil, List.append_nil, ← toList_text, ← toList_text, h]
  have hrow := Record.selfDelimiting_line.row (· = []) Record.line_append_ne_nil rfl rfl hlines
  exact hrow.1

theorem count_feed_text (t : Table) : t.text.toList.count '\n' = t.size := by
  rw [toList_text, List.count_flatMap]
  simp [Function.comp_def, Record.count_feed_line, size]

/-- A printed table tells its records: whatever is written at the nodes, tables with the same text
have the same records in every field. The text has one line feed for each record. In the quoted
texts a character stands in one of its forms. -/
theorem text_determines_records :
    (∀ c, Form c (escape c)) ∧
      ∀ t u : Table, (t.text = u.text ↔ t.records = u.records) ∧
        t.text.toList.count '\n' = t.size := by
  refine ⟨form_escape, fun t u => ⟨⟨records_eq_of_text, fun h => ?_⟩, t.count_feed_text⟩⟩
  rw [text, text, h]

end Table

end TreeTyping
