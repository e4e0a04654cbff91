import GlyphTable.Binary64.Fused

/-!
# Points of a page

Page coordinates grow to the right and downwards. A point also serves as the
vector from the origin to it.
-/

namespace GlyphTable

structure Point where
  x : Float
  y : Float
deriving DecidableEq

namespace Point

def vectorTo (p q : Point) : Point :=
  ⟨q.x - p.x, q.y - p.y⟩

/-- Scalar product. The product of the ordinates is rounded first; that of the
abscissas and the sum are rounded once together. -/
def dot (p q : Point) : Float :=
  Binary64.fusedMulAdd p.x q.x (p.y * q.y)

end Point

end GlyphTable
