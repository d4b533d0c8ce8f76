import Mathlib.Data.List.Infix
import Mathlib.Logic.Function.Basic
import TreeTyping.Category

/-!
# Class names and symbols

A category other than that of tokens is read from one text only, and this text is its symbol. The
table of class names, the pattern of operators and the symbols are written down apart from each
other, so each of them is compared with the symbols first. The last operator is read without a look
at the text, so the pattern has to fit the words of the operators and nothing else. With such a
pattern, all that is no symbol is a token, also if it comes close to the word of an operator.
-/

namespace TreeTyping

namespace Operator

theorem ofFitting_symbol (op : Operator) : ofFitting op.symbol = op := by
  cases op <;> rfl

/-- A pattern that fits the words of the operators and nothing else. -/
def Exact (fits : String → Bool) : Prop :=
  ∀ text, fits text = true ↔ ∃ op : Operator, text = op.symbol

theorem exact_fits : Exact fits := by
  intro text
  rw [fits, List.contains_iff_mem]
  constructor
  · intro h
    have hwords : ∀ word ∈ ["eq", "not", "and", "or"], word = (ofFitting word).symbol := by decide
    exact ⟨ofFitting text, hwords text h⟩
  · rintro ⟨op, rfl⟩
    cases op <;> decide

end Operator

namespace Category

/-- The table has an entry for every category but those of tokens and operators, under the symbol
of the category, and no other entries. -/
theorem mem_classes_iff {text : String} {c : Category} :
    (text, c) ∈ classes ↔ text = c.symbol ∧ c ≠ .token ∧ ∀ op, c ≠ .operator op := by
  constructor
  · have hentries : ∀ entry ∈ classes, entry.1 = entry.2.symbol ∧ entry.2.isWord = false := by
      decide
    intro h
    obtain ⟨hsymbol, hword⟩ := hentries _ h
    refine ⟨hsymbol, ?_, ?_⟩
    · rintro rfl
      cases hword
    · rintro op rfl
      cases hword
  · rintro ⟨rfl, htoken, hoperator⟩
    cases c with
    | token => exact absurd rfl htoken
    | operator op => exact absurd rfl (hoperator op)
    | number | name | shortString | keyword => decide
    | construct c => cases c <;> decide

/-- What is looked up in the table stands in it. -/
theorem mem_classes_of_lookup {text : String} {c : Category}
    (h : classes.lookup text = some c) : (text, c) ∈ classes := by
  obtain ⟨before, after, hsplit, -⟩ := List.lookup_eq_some_iff.mp h
  rw [hsplit]
  exact List.mem_append_right before List.mem_cons_self

section Pattern

variable {fits : String → Bool} (h : Operator.Exact fits)

include h

/-- A text is read as its entry in the table if it has one, as an operator if it is the word for
one, and as a token otherwise. -/
theorem ofClassBy_cases (text : String) :
    (∃ op, text = op.symbol ∧ ofClassBy fits text = .operator op) ∨
      (text, ofClassBy fits text) ∈ classes ∨ ofClassBy fits text = .token := by
  unfold ofClassBy
  cases hclass : classes.lookup text with
  | some c => exact .inr (.inl (mem_classes_of_lookup hclass))
  | none =>
      by_cases hfits : fits text = true
      · obtain ⟨op, rfl⟩ := (h text).mp hfits
        refine .inl ⟨op, rfl, ?_⟩
        simp only [if_pos hfits, Operator.ofFitting_symbol]
      · exact .inr (.inr (if_neg hfits))

/-- Every symbol is read as its category, those of the operators because the table has no entry for
them. -/
theorem ofClassBy_symbol (c : Category) : ofClassBy fits c.symbol = c := by
  cases c with
  | number | name | shortString | keyword => rfl
  | construct c => cases c <;> rfl
  | operator op =>
      have hnone : classes.lookup op.symbol = none := by cases op <;> rfl
      have hfits : fits op.symbol = true := (h _).mpr ⟨op, rfl⟩
      simp only [ofClassBy, symbol, hnone, if_pos hfits, Operator.ofFitting_symbol]
  | token =>
      have hfits : fits "token" ≠ true := by
        rw [ne_eq, h]
        rintro ⟨op, hop⟩
        cases op <;> exact absurd hop (by decide)
      exact if_neg hfits

end Pattern

theorem ofClass_cases (text : String) :
    (∃ op, text = op.symbol ∧ ofClass text = .operator op) ∨ (text, ofClass text) ∈ classes ∨
      ofClass text = .token :=
  ofClassBy_cases Operator.exact_fits text

@[simp] theorem ofClass_symbol (c : Category) : ofClass c.symbol = c :=
  ofClassBy_symbol Operator.exact_fits c

theorem symbol_injective : Function.Injective symbol :=
  Function.LeftInverse.injective ofClass_symbol

theorem eq_symbol_of_ofClass {text : String} {c : Category} (h : ofClass text = c)
    (hc : c ≠ .token) : text = c.symbol := by
  subst h
  rcases ofClass_cases text with ⟨op, htext, hread⟩ | hentry | htoken
  · rw [hread]
    exact htext
  · exact (mem_classes_iff.mp hentry).1
  · exact absurd htoken hc

theorem ofClass_eq_token_iff {text : String} :
    ofClass text = .token ↔ ∀ c : Category, c ≠ .token → text ≠ c.symbol := by
  constructor
  · rintro h c hc rfl
    exact hc ((ofClass_symbol c).symm.trans h)
  · intro h
    by_contra hne
    exact h _ hne (eq_symbol_of_ofClass rfl hne)

/-- Let each operator have texts that are like its word. If no entry of the table is like the word
of an operator and no operator is like another, then a text like the word of an operator is a token
unless it is that word. -/
theorem ofClass_of_like (like : Operator → String → Prop) (op : Operator) {text : String}
    (htable : ∀ op, ∀ entry ∈ classes, ¬ like op entry.1)
    (hwords : ∀ op other : Operator, like op other.symbol → other = op)
    (h : like op text) (hne : text ≠ op.symbol) : ofClass text = .token := by
  rcases ofClass_cases text with ⟨other, rfl, -⟩ | hentry | htoken
  · rw [hwords op other h] at hne
    exact absurd rfl hne
  · exact absurd h (htable op _ hentry)
  · exact htoken

section NearMisses

variable (op : Operator) {before after more text : String}

/-- Two class names have the word of an operator inside them. Any other text with such a word in it
is a token, except for the word. -/
theorem ofClass_around_symbol (hne : before ++ op.symbol ++ after ≠ op.symbol)
    (hnames : before ++ op.symbol ++ after ∉ ["keyword", "short string"]) :
    ofClass (before ++ op.symbol ++ after) = .token := by
  refine ofClass_of_like (fun op text => (∃ tail ∈ text.toList.tails, op.symbol.toList <+: tail) ∧
    text ∉ ["keyword", "short string"]) op ?_ ?_ ⟨?_, hnames⟩ hne
  · intro op
    cases op <;> decide
  · intro op other
    cases op <;> cases other <;> decide
  · refine ⟨op.symbol.toList ++ after.toList, ?_, List.prefix_append _ _⟩
    rw [String.toList_append, String.toList_append, List.append_assoc, List.mem_tails]
    exact List.suffix_append _ _

/-- No text that ends in the word of an operator is a class name, except for the word. -/
theorem ofClass_append_symbol (h : more ≠ "") : ofClass (more ++ op.symbol) = .token := by
  refine ofClass_of_like (fun op text => op.symbol.toList <:+ text.toList) op ?_ ?_ ?_ ?_
  · intro op
    cases op <;> decide
  · intro op other
    cases op <;> cases other <;> decide
  · rw [String.toList_append]
    exact List.suffix_append _ _
  · simpa using h

/-- No text that begins with the word of an operator is a class name, except for the word. -/
theorem ofClass_symbol_append (h : more ≠ "") : ofClass (op.symbol ++ more) = .token := by
  refine ofClass_of_like (fun op text => op.symbol.toList <+: text.toList) op ?_ ?_ ?_ ?_
  · intro op
    cases op <;> decide
  · intro op other
    cases op <;> cases other <;> decide
  · rw [String.toList_append]
    exact List.prefix_append _ _
  · simpa using h

theorem toList_toLower (text : String) : text.toLower.toList = text.toList.map Char.toLower :=
  String.toList_map

/-- The word of an operator in other letter cases is no class name. -/
theorem ofClass_of_toLower (hcase : text.toLower = op.symbol) (hne : text ≠ op.symbol) :
    ofClass text = .token := by
  refine ofClass_of_like
    (fun op text => text.toList.map Char.toLower = op.symbol.toList) op ?_ ?_ ?_ ?_
  · intro op
    cases op <;> decide
  · intro op other
    cases op <;> cases other <;> decide
  · rw [← hcase, toList_toLower]
  · exact hne

end NearMisses

/-- A text is read as a category other than that of tokens exactly if it is the symbol of that
category. So every symbol is read as its category, and all that is no symbol is a token, among it
the word of an operator with something before it or after it, with something on both sides unless
this makes a class name, and in other letter cases. -/
theorem ofClass_inverse_symbol :
    (∀ (text : String) (c : Category), c ≠ .token → (ofClass text = c ↔ text = c.symbol)) ∧
      (∀ text : String,
        ofClass text = .token ↔ ∀ c : Category, c ≠ .token → text ≠ c.symbol) ∧
      (∀ c : Category, ofClass c.symbol = c) ∧
      ofClass "token" = .token ∧ ofClass "for" = .token ∧
      (∀ (op : Operator) (more : String), more ≠ "" →
        ofClass (more ++ op.symbol) = .token ∧ ofClass (op.symbol ++ more) = .token) ∧
      (∀ (op : Operator) (before after : String), before ++ op.symbol ++ after ≠ op.symbol →
        before ++ op.symbol ++ after ∉ ["keyword", "short string"] →
          ofClass (before ++ op.symbol ++ after) = .token) ∧
      ∀ (op : Operator) (text : String), text.toLower = op.symbol → text ≠ op.symbol →
        ofClass text = .token := by
  refine ⟨fun text c hc => ⟨fun h => eq_symbol_of_ofClass h hc, ?_⟩,
    fun text => ofClass_eq_token_iff, ofClass_symbol, rfl, rfl, fun op more h => ⟨?_, ?_⟩, ?_, ?_⟩
  · rintro rfl
    exact ofClass_symbol c
  · exact ofClass_append_symbol op h
  · exact ofClass_symbol_append op h
  · exact fun op before after => ofClass_around_symbol op
  · exact fun op text => ofClass_of_toLower op

/-- The word for a disjunction is read as its operator. With a line feed after it, in other letter
cases or inside another word it is a token, but inside the class name of keywords it is not. -/
theorem ofClass_disjunction :
    (Category.operator .or ≠ .token ∧ ofClass "or" = .operator .or) ∧
      ("\n" ≠ "" ∧ ofClass ("or" ++ "\n") = .token) ∧
      ("Or".toLower = "or" ∧ "Or" ≠ "or" ∧ ofClass "Or" = .token) ∧
      ("w" ++ "or" ++ "d" ∉ ["keyword", "short string"] ∧ ofClass ("w" ++ "or" ++ "d") = .token) ∧
      "keyw" ++ "or" ++ "d" = "keyword" ∧ ofClass "keyword" = .keyword := by
  obtain ⟨hread, -, hsymbol, -, -, hbeside, haround, hcase⟩ := ofClass_inverse_symbol
  have hlower : "Or".toLower = "or" := by
    apply String.toList_inj.mp
    rw [toList_toLower]
    decide
  refine ⟨⟨by decide, ?_⟩, ⟨by decide, ?_⟩, ⟨hlower, by decide, ?_⟩, ⟨by decide, ?_⟩, by decide, ?_⟩
  · exact (hread "or" (.operator .or) (by decide)).mpr rfl
  · exact (hbeside .or "\n" (by decide)).2
  · exact hcase .or "Or" hlower (by decide)
  · exact haround .or "w" "d" (by decide) (by decide)
  · exact hsymbol .keyword

end Category

end TreeTyping
