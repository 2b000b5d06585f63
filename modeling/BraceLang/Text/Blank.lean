/-! # Blanks — the characters that leave space

    The table holds the characters with the Unicode property `White_Space`, as
    ranges of code points, both ends included.  Trimming takes them away from
    both ends of a text and keeps all others, and those inside. -/

namespace BraceLang

namespace Text

/-- The code points with the property `White_Space`. -/
def blankRanges : List (Nat × Nat) :=
  [(0x9, 0xD), (0x20, 0x20), (0x85, 0x85), (0xA0, 0xA0), (0x1680, 0x1680),
    (0x2000, 0x200A), (0x2028, 0x2029), (0x202F, 0x202F), (0x205F, 0x205F),
    (0x3000, 0x3000)]

/-- Whether a character has the property `White_Space`. -/
def isBlank (c : Char) : Bool :=
  blankRanges.any (fun range => range.1 ≤ c.toNat && c.toNat ≤ range.2)

/-- The text without the blanks at its ends. -/
def trimChars (text : List Char) : List Char :=
  ((text.dropWhile isBlank).reverse.dropWhile isBlank).reverse

/-- The string without the blanks at its ends. -/
def trim (s : String) : String :=
  String.ofList (trimChars s.toList)

end Text

end BraceLang
