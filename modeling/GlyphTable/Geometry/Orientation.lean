import GlyphTable.Geometry.Point

/-!
# Reading directions

`east` is ordinary text from left to right; `north` runs down the page, glyph
below glyph. The clockwise successor of a direction is the one in which the lines
of a paragraph follow each other: lines of east text stack downwards (north),
those of north text to the left (west).
-/

namespace GlyphTable

inductive Axis where
  | horizontal
  | vertical
deriving DecidableEq, Repr

inductive Orientation where
  | east
  | north
  | west
  | south
deriving DecidableEq, Repr

namespace Orientation

def direction : Orientation → Point
  | east => ⟨1, 0⟩
  | north => ⟨0, 1⟩
  | west => ⟨-1, 0⟩
  | south => ⟨0, -1⟩

def clockwise : Orientation → Orientation
  | east => north
  | north => west
  | west => south
  | south => east

def axis : Orientation → Axis
  | east | west => .horizontal
  | north | south => .vertical

/-- Unit vector along which lines of this direction follow each other. -/
def lineAdvance (o : Orientation) : Point :=
  o.clockwise.direction

end Orientation

end GlyphTable
