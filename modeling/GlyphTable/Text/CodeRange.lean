/-!
# Sets of characters given by ranges

A property of the Unicode standard is a list of closed ranges of code points in
increasing order. A character has the property when some range holds its code.
-/

namespace GlyphTable.Text

/-- Closed ranges of code points, first and last code of each. -/
abbrev CodeRanges := List (Nat × Nat)

def CodeRanges.holds (ranges : CodeRanges) (c : Char) : Bool :=
  ranges.any fun (first, last) => decide (first ≤ c.toNat) && decide (c.toNat ≤ last)

end GlyphTable.Text
