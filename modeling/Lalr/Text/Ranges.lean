/-!
# Range tables

A property of characters is a table of code point ranges, both ends included. The tables of this
folder are sorted and their ranges do not touch, but `inRanges` needs neither: a code point has
the property iff some range holds it.
-/

namespace Lalr.Text

/-- Some range of the table holds the code point. -/
def inRanges (table : List (Nat × Nat)) (code : Nat) : Bool :=
  table.any fun range => range.1 ≤ code && code ≤ range.2

theorem inRanges_iff {table : List (Nat × Nat)} {code : Nat} :
    inRanges table code = true ↔ ∃ range ∈ table, range.1 ≤ code ∧ code ≤ range.2 := by
  simp [inRanges]

end Lalr.Text
