import GlyphTable.Binary64.Order
import GlyphTable.TableError

/-!
# Spacing of glyphs and lines

Distances are relative to the font size. `Spacing.ofMargin` admits positive finite
margins only; a spacing that was stored or built by hand may hold any number.
-/

namespace GlyphTable

structure Spacing where
  /-- A glyph further ahead than this begins a new segment. -/
  glyphMargin : Float
deriving DecidableEq

namespace Spacing

def standard : Spacing :=
  ⟨0.9⟩

def lineLimit : Float := 1.7

def leastReach : Float := 1

def ofMargin (margin : Float) : Except TableError Spacing :=
  if margin.isFinite ∧ 0 < margin then .ok ⟨margin⟩ else .error (.invalidMargin margin)

def reach (s : Spacing) (size : Float) : Float :=
  size * Binary64.greater s.glyphMargin leastReach

end Spacing

end GlyphTable
