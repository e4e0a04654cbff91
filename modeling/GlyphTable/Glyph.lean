import GlyphTable.Geometry.Box
import GlyphTable.Spacing

/-!
# Glyphs

A glyph is a piece of text at a place on a page. Its successor on a line is found
by the offset between centers, measured ahead, in reading direction, and aside,
in the direction in which lines follow each other.
-/

namespace GlyphTable

structure Glyph where
  codePoint : UInt32
  text : String
  size : Float
  /-- Fingerprint of the fill colour, compared for equality only. -/
  color : UInt64
  orientation : Orientation
  box : Box
deriving DecidableEq

namespace Glyph

/-- A glyph whose code point is that of the first character of its text, zero if
there is none. -/
def ofText (text : String) (box : Box) (size : Float) (orientation : Orientation)
    (color : UInt64) : Glyph where
  codePoint := (text.toList.head?.map Char.val).getD 0
  text := text
  size := size
  color := color
  orientation := orientation
  box := box

def center (c : Glyph) : Point :=
  c.box.center

/-- How far `d` stands ahead of `c` on the line of `c`; `none` if it does not
stand on it. It does if it reads the same way, lies ahead by less than the margin,
and further ahead than aside. -/
def ahead? (s : Spacing) (c d : Glyph) : Option Float :=
  let offset := c.center.vectorTo d.center
  let ahead := offset.dot c.orientation.direction
  let aside := offset.dot c.orientation.lineAdvance
  if d.orientation = c.orientation ∧ 0 < ahead ∧ ahead < s.glyphMargin * c.size
      ∧ aside.abs < ahead then
    some ahead
  else
    none

def searchBox? (s : Spacing) (c : Glyph) : Option Box :=
  let reach := s.reach c.size
  (Box.centered c.center reach reach).toOption

end Glyph

end GlyphTable
