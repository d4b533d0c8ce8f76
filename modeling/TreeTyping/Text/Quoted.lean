import TreeTyping.Text.DefaultIgnorable
import TreeTyping.Text.ExtendingMark
import TreeTyping.Text.Unprintable

/-!
# Quoted text

A quoted text stands between two double quotes on one line. The double quote, the
backslash and the common control characters have short escapes, and a character
without a visible form of its own is written by its code point.
-/

namespace TreeTyping.Text

/-- Whether a character cannot be told from the text around it by its looks. -/
def isHidden (c : Char) : Bool :=
  isUnprintable c || isExtendingMark c || isDefaultIgnorable c

/-- A character written by its code point, in lower-case hexadecimal digits
without leading zeros. -/
def codePoint (c : Char) : List Char :=
  ['\\', 'u', '\x7b'] ++ Nat.toDigits 16 c.toNat ++ ['\x7d']

/-- The form of one character inside a quoted text. -/
def escape (c : Char) : List Char :=
  match c with
  | '\x00' => ['\\', '0']
  | '\t' => ['\\', 't']
  | '\r' => ['\\', 'r']
  | '\n' => ['\\', 'n']
  | '"' => ['\\', '"']
  | '\\' => ['\\', '\\']
  | c => if isHidden c then codePoint c else [c]

/-- A text between double quotes, escaped character by character. -/
def quote (text : String) : String :=
  String.ofList ('"' :: (text.toList.flatMap escape ++ ['"']))

end TreeTyping.Text
