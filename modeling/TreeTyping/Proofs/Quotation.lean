import Mathlib.Data.List.Nodup
import TreeTyping.Proofs.Delimiters
import TreeTyping.Text.Quoted

/-!
# Quoted texts can be read back

Inside quotes a character stands as it is, as a backslash and a letter, or as a backslash and its
code point between braces. The double quote, the backslash and the line feed never stand as they
are. Which of the other characters are escaped is of no account here. So a quoted text is one line,
its end is the first double quote that no backslash precedes, and different texts have different
quotations.
-/

namespace TreeTyping.Text

section HexDigits

theorem digitChar_injective {m n : Nat} (hm : m < 16) (hn : n < 16)
    (h : Nat.digitChar m = Nat.digitChar n) : m = n := by
  have hall : ∀ m < 16, ∀ n < 16, Nat.digitChar m = Nat.digitChar n → m = n := by decide
  exact hall m hm n hn h

theorem exists_digit_of_mem {n : Nat} {c : Char} (h : c ∈ Nat.toDigits 16 n) :
    ∃ d < 16, c = Nat.digitChar d := by
  induction n using Nat.strongRecOn with
  | ind n ih =>
      rw [Nat.toDigits_eq_if (by decide)] at h
      split at h
      · rename_i hlt
        exact ⟨n, hlt, List.mem_singleton.mp h⟩
      · rcases List.mem_append.mp h with h | h
        · exact ih (n / 16) (by omega) h
        · exact ⟨n % 16, by omega, List.mem_singleton.mp h⟩

theorem notMem_hexDigits {c : Char} (h : ∀ digit < 16, c ≠ Nat.digitChar digit) {n : Nat} :
    c ∉ Nat.toDigits 16 n := by
  intro hmem
  obtain ⟨digit, hlt, hc⟩ := exists_digit_of_mem hmem
  exact h digit hlt hc

theorem hexDigits_injective {m n : Nat} (h : Nat.toDigits 16 m = Nat.toDigits 16 n) : m = n := by
  induction m using Nat.strongRecOn generalizing n with
  | ind m ih =>
      have hexpand : ∀ k, Nat.toDigits 16 k = if k < 16 then [Nat.digitChar k]
          else Nat.toDigits 16 (k / 16) ++ [Nat.digitChar (k % 16)] :=
        fun k => Nat.toDigits_eq_if (by decide)
      rw [hexpand m, hexpand n] at h
      split at h
      · rename_i hm
        split at h
        · rename_i hn
          exact digitChar_injective hm hn (List.singleton_inj.mp h)
        · exact absurd (List.append_eq_singleton_iff.mp h.symm) (by simp [Nat.toDigits_ne_nil])
      · rename_i hm
        split at h
        · exact absurd (List.append_eq_singleton_iff.mp h) (by simp [Nat.toDigits_ne_nil])
        · obtain ⟨hinit, hlast⟩ := List.append_inj' h rfl
          have hdiv : m / 16 = n / 16 := ih (m / 16) (by omega) hinit
          have hmod : m % 16 = n % 16 :=
            digitChar_injective (by omega) (by omega) (List.singleton_inj.mp hlast)
          omega

end HexDigits

/-- The characters with a short escape, each with the letter that stands for it. -/
def shortForms : List (Char × Char) :=
  [('\x00', '0'), ('\t', 't'), ('\r', 'r'), ('\n', 'n'), ('"', '"'), ('\\', '\\')]

/-- The forms that a character can have inside a quoted text. -/
inductive Form (c : Char) : List Char → Prop
  | plain (quote : c ≠ '"') (backslash : c ≠ '\\') (feed : c ≠ '\n') : Form c [c]
  | short {letter : Char} (entry : (c, letter) ∈ shortForms) : Form c ['\\', letter]
  | code : Form c (codePoint c)

theorem form_escape (c : Char) : Form c (escape c) := by
  unfold escape
  split
  · exact .short (by decide)
  · exact .short (by decide)
  · exact .short (by decide)
  · exact .short (by decide)
  · exact .short (by decide)
  · exact .short (by decide)
  · rename_i _ _ _ hfeed hquote hbackslash
    split
    · exact .code
    · exact .plain hquote hbackslash hfeed

namespace Form

variable {c d : Char} {form form' rest rest' : List Char}

/-- No form begins with the character that ends a quoted text. -/
theorem head_ne (h : Form c form) : (form ++ rest).head? ≠ some '"' := by
  cases h with
  | plain quote backslash feed => simpa using quote
  | short entry => simp
  | code => simp [codePoint]

theorem feed_notMem (h : Form c form) : '\n' ∉ form := by
  cases h with
  | plain quote backslash feed => simpa using feed.symm
  | short entry =>
      have hletters : ∀ entry ∈ shortForms, entry.2 ≠ '\n' := by decide
      simpa using (hletters _ entry).symm
  | code =>
      have hdigits : '\n' ∉ Nat.toDigits 16 c.toNat := notMem_hexDigits (by decide)
      simp [codePoint, hdigits]

/-- A form tells its character and its own end. -/
theorem cut (h : Form c form) (h' : Form d form') (heq : form ++ rest = form' ++ rest') :
    c = d ∧ rest = rest' := by
  have hletters : ∀ entry ∈ shortForms, entry.2 ≠ 'u' := by decide
  have hdistinct : (shortForms.map Prod.snd).Nodup := by decide
  cases h with
  | plain _ backslash _ =>
      cases h' with
      | plain => simpa using heq
      | short => exact absurd (List.head_eq_of_cons_eq heq) backslash
      | code => exact absurd (List.head_eq_of_cons_eq heq) backslash
  | short entry =>
      cases h' with
      | plain _ backslash _ => exact absurd (List.head_eq_of_cons_eq heq).symm backslash
      | short entry' =>
          simp only [List.cons_append, List.nil_append, List.cons.injEq, true_and] at heq
          obtain ⟨hletter, hrest⟩ := heq
          have hentry := List.inj_on_of_nodup_map hdistinct entry entry' hletter
          exact ⟨congrArg Prod.fst hentry, hrest⟩
      | code =>
          simp only [codePoint, List.cons_append, List.cons.injEq, true_and] at heq
          exact absurd heq.1 (hletters _ entry)
  | code =>
      cases h' with
      | plain _ backslash _ => exact absurd (List.head_eq_of_cons_eq heq).symm backslash
      | short entry' =>
          simp only [codePoint, List.cons_append, List.cons.injEq, true_and] at heq
          exact absurd heq.1.symm (hletters _ entry')
      | code =>
          simp only [codePoint, List.append_assoc, List.cons_append, List.nil_append,
            List.cons.injEq, true_and] at heq
          have hbrace : ∀ n, '\x7d' ∉ Nat.toDigits 16 n := fun n => notMem_hexDigits (by decide)
          obtain ⟨hdigits, hrest⟩ := cut_at (hbrace _) (hbrace _) heq
          exact ⟨Char.toNat_inj.mp (hexDigits_injective hdigits), hrest⟩

end Form

section Quoted

variable {write : Char → List Char} (hwrite : ∀ c, Form c (write c))

include hwrite

/-- Up to the closing quote, a text that is written character by character can be read back. -/
theorem selfDelimiting_quoted (closing : List Char) :
    SelfDelimiting fun text : String => text.toList.flatMap write ++ '"' :: closing := by
  have hchars : SelfDelimiting write := fun c d rest rest' => (hwrite c).cut (hwrite d)
  intro text text' rest rest' h
  rw [List.append_assoc, List.append_assoc] at h
  obtain ⟨htext, hclosing⟩ :=
    hchars.row (·.head? = some '"') (fun c _ => (hwrite c).head_ne) rfl rfl h
  exact ⟨String.toList_inj.mp htext, List.append_cancel_left hclosing⟩

theorem feed_notMem_flatMap (text : List Char) : '\n' ∉ text.flatMap write := by
  intro hmem
  obtain ⟨c, -, hc⟩ := List.mem_flatMap.mp hmem
  exact (hwrite c).feed_notMem hc

end Quoted

theorem toList_quote (text : String) :
    (quote text).toList = '"' :: (text.toList.flatMap escape ++ ['"']) := by
  rw [quote, String.toList_ofList]

end TreeTyping.Text
