/-!
# Blank characters

A character is blank when it has the Unicode property `White_Space`.  The
property is stable: its members are the twenty-five characters listed below.
`strip` removes the blanks at both ends of a text and leaves the inner ones.
-/

namespace JointModel.Text

/-- The characters with the Unicode property `White_Space`. -/
def isBlank (c : Char) : Bool :=
  (0x0009 ≤ c.toNat && c.toNat ≤ 0x000D) ||
  c.toNat == 0x0020 || c.toNat == 0x0085 || c.toNat == 0x00A0 || c.toNat == 0x1680 ||
  (0x2000 ≤ c.toNat && c.toNat ≤ 0x200A) ||
  c.toNat == 0x2028 || c.toNat == 0x2029 || c.toNat == 0x202F || c.toNat == 0x205F ||
  c.toNat == 0x3000

/-- The characters of a text without the blanks at either end. -/
def stripChars (cs : List Char) : List Char :=
  ((cs.dropWhile isBlank).reverse.dropWhile isBlank).reverse

/-- A text without the blanks at either end. -/
def strip (s : String) : String :=
  String.ofList (stripChars s.toList)

end JointModel.Text
