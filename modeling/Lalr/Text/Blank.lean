import Lalr.Text.Ranges

/-!
# Blank characters

The characters with the Unicode property `White_Space` (`is_whitespace`). They separate tokens and
belong to none.
-/

namespace Lalr.Text

/-- The ranges of `White_Space`. -/
def blankRanges : List (Nat × Nat) := [
  (0x9, 0xD), (0x20, 0x20), (0x85, 0x85), (0xA0, 0xA0), (0x1680, 0x1680), (0x2000, 0x200A),
  (0x2028, 0x2029), (0x202F, 0x202F), (0x205F, 0x205F), (0x3000, 0x3000)]

/-- A blank character: spaces, tabs, line ends and their Unicode relatives. -/
def isBlank (c : Char) : Bool := inRanges blankRanges c.toNat

end Lalr.Text
