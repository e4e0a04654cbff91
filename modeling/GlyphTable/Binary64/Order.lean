/-!
# Orders on binary64 numbers

The arithmetic comparison `≤` is false of NaN and identifies the two zeros.
Boxes and spans need the lesser and the greater of two numbers under it; sorting
needs total orders, of which there are two: one that keeps `≤` and puts NaN
last, and the total order of the IEEE standard, which also tells the zeros apart.
-/

namespace GlyphTable.Binary64

/-- The lesser of two numbers. Of two equal ones, such as the zeros, the second,
which also takes the place of NaN. -/
def lesser (a b : Float) : Float :=
  if a < b then a else b

def greater (a b : Float) : Float :=
  if b < a then a else b

def near (tolerance a b : Float) : Bool :=
  decide ((a - b).abs < tolerance)

/-- The order `≤` with NaN placed above everything and equal to itself. -/
def leNanLast (a b : Float) : Bool :=
  b.isNaN || decide (a ≤ b)

/-- Lexicographic order of keyed positions: by key with NaN last, then by position. -/
def leKeyed (a b : Float × Nat) : Bool :=
  if leNanLast a.1 b.1 && leNanLast b.1 a.1 then decide (a.2 ≤ b.2) else leNanLast a.1 b.1

def signBit : Int := 0x8000000000000000

/-- Place of a number in the total order of the IEEE standard, where `-0` comes
just before `+0`: the bit pattern of a non-negative number, and the reflection
below zero of that of a negative one. -/
def totalRank (a : Float) : Int :=
  let bits : Int := a.toBits.toNat
  if bits < signBit then bits else signBit - 1 - bits

def leTotal (a b : Float) : Bool :=
  decide (totalRank a ≤ totalRank b)

theorem leTotal_total (a b : Float) : leTotal a b || leTotal b a := by
  simpa [leTotal] using Int.le_total (totalRank a) (totalRank b)

theorem leTotal_trans (a b c : Float) (hab : leTotal a b) (hbc : leTotal b c) : leTotal a c := by
  simp only [leTotal, decide_eq_true_eq] at *
  omega

end GlyphTable.Binary64
