/-!
# Shortest decimal digits

A binary64 number is the nearest one to every real in an interval around it. Of
the decimals in that interval `shortest` picks one with the fewest digits, of
those the nearest, and the greater of two equally near ones. The search is exact:
it tests the two neighbours of the number on each decimal grid, from the coarsest
grid down, and the first grid with a hit wins.
-/

namespace GlyphTable.Binary64

structure Decimal where
  digits : Nat
  exponent : Int
deriving Repr, DecidableEq

def leastFullMantissa : Nat := 0x10000000000000

/-- The interval of reals that round to `m * 2 ^ e`, in units of `2 ^ (e - 2)`:
half a unit in the last place on either side, and a quarter below a power of two,
where the numbers lie twice as close. -/
def roundingInterval (m : Nat) (e : Int) : Nat × Nat :=
  (if m = leastFullMantissa ∧ -1074 < e then 4 * m - 1 else 4 * m - 2, 4 * m + 2)

/-- The multiple of `10 ^ p` that is nearest to `m * 2 ^ e` among its two
neighbours on that grid, provided it lies in the rounding interval. The ends of
the interval belong to it exactly when the mantissa is even. -/
def nearestOnGrid? (m : Nat) (e p : Int) : Option Nat :=
  let step := Nat.pow 10 p.toNat * Nat.pow 2 (2 - e).toNat
  let unit := Nat.pow 10 (-p).toNat * Nat.pow 2 (e - 2).toNat
  let (low, high) := roundingInterval m e
  let value := 4 * m * unit
  let below := value / step
  let above := below + 1
  let isHit (c : Nat) : Bool :=
    if m % 2 = 0 then
      decide (low * unit ≤ c * step) && decide (c * step ≤ high * unit)
    else
      decide (low * unit < c * step) && decide (c * step < high * unit)
  match isHit below, isHit above with
  | true, true => if value - below * step < above * step - value then some below else some above
  | true, false => some below
  | false, true => some above
  | false, false => none

/-- Exponents of the decimal grids that can matter, coarsest first. -/
def gridExponents : List Int :=
  (List.range 634).map fun (i : Nat) => 309 - (i : Int)

def shortest (m : Nat) (e : Int) : Decimal :=
  (gridExponents.findSome? fun p => (nearestOnGrid? m e p).map (⟨·, p⟩)).getD ⟨0, 0⟩

def Decimal.positional (d : Decimal) : String :=
  let digits := Nat.toDigits 10 d.digits
  if 0 ≤ d.exponent then
    String.ofList (digits ++ List.replicate d.exponent.toNat '0')
  else
    let places := d.exponent.natAbs
    let padded := List.replicate (places + 1 - digits.length) '0' ++ digits
    let whole := padded.length - places
    String.ofList (padded.take whole ++ '.' :: padded.drop whole)

/-- A number in running text: its shortest digits in positional notation, a sign
where the sign bit is set, and words for what is no number. -/
def text (a : Float) : String :=
  match a.toModel.unpack with
  | .notANumber => "NaN"
  | .infinity .positive => "inf"
  | .infinity .negative => "-inf"
  | .zero .positive => "0"
  | .zero .negative => "-0"
  | .finite .positive m e _ => (shortest m e).positional
  | .finite .negative m e _ => "-" ++ (shortest m e).positional

end GlyphTable.Binary64
