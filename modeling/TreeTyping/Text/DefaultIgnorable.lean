/-!
# Characters that are shown as nothing

A default ignorable character has no glyph where it is not supported: joiners, variation
selectors, and fillers that take the place of a letter.

## Implementation notes

The ranges are those of the property Default_Ignorable_Code_Point of Unicode 17.0. They
are disjoint and increasing, and both ends of a range belong to it.
-/

namespace TreeTyping.Text

/-- The code points of the default ignorable characters. -/
def defaultIgnorableRanges : List (Nat × Nat) :=
  [(0xad, 0xad), (0x34f, 0x34f), (0x61c, 0x61c), (0x115f, 0x1160), (0x17b4, 0x17b5),
    (0x180b, 0x180f), (0x200b, 0x200f), (0x202a, 0x202e), (0x2060, 0x206f), (0x3164, 0x3164),
    (0xfe00, 0xfe0f), (0xfeff, 0xfeff), (0xffa0, 0xffa0), (0xfff0, 0xfff8), (0x1bca0, 0x1bca3),
    (0x1d173, 0x1d17a), (0xe0000, 0xe0fff)]

/-- Whether a character is shown as nothing by default. No ASCII character is. -/
def isDefaultIgnorable (c : Char) : Bool :=
  if c.toNat < 0x80 then false
  else defaultIgnorableRanges.any fun range => range.1 ≤ c.toNat && c.toNat ≤ range.2

end TreeTyping.Text
