/-!
# Fused multiply-add

`fusedMulAdd x y z` is `x * y + z` rounded once. The product is formed exactly,
with as many bits as it needs, and only the sum is rounded to nearest, ties to
even. The special cases are those of a product followed by a sum.
-/

namespace GlyphTable.Binary64

open Float.Model (UnpackedFloat Format)

/-- The product without any rounding: its mantissa may be twice as wide as the
format admits. -/
def exactProduct : UnpackedFloat → UnpackedFloat → UnpackedFloat
  | .notANumber, _ => .notANumber
  | _, .notANumber => .notANumber
  | .infinity _, .zero _ => .notANumber
  | .zero _, .infinity _ => .notANumber
  | .infinity s, .infinity t => .infinity (s * t)
  | .infinity s, .finite t .. => .infinity (s * t)
  | .finite s .., .infinity t => .infinity (s * t)
  | .zero s, .zero t => .zero (s * t)
  | .zero s, .finite t .. => .zero (s * t)
  | .finite s .., .zero t => .zero (s * t)
  | .finite s m e hm, .finite t n f hn => .finite (s * t) (m * n) (e + f) (Nat.mul_pos hm hn)

/-- The sum of an exact product and a number, rounded once. A product that is not
zero keeps its sign next to a zero summand, also where it rounds to zero. -/
def addRounded : UnpackedFloat → UnpackedFloat → UnpackedFloat
  | .finite s m e _, .zero _ => UnpackedFloat.round Format.binary64 s m e
  | product, summand => UnpackedFloat.add Format.binary64 product summand

def fusedMulAdd (x y z : Float) : Float :=
  .ofModel <| .pack <|
    addRounded (exactProduct x.toModel.unpack y.toModel.unpack) z.toModel.unpack

end GlyphTable.Binary64
