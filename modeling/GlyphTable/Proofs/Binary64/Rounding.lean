import Mathlib
import GlyphTable.Proofs.Binary64.Ranked

/-!
# Rounding does not pass a number of the format

Sums, products and halves are rounded. Mostly it does not matter which neighbour rounding picks,
only that no number of the format lies strictly between a value and what it is rounded to
(`Faithful`). Sums and products are rounded to a nearest number (`Nearest`), and so in their
order.
-/

namespace GlyphTable.Binary64

open Float.Model (UnpackedFloat Format totalExponent)
open Float.Model.UnpackedFloat (Sign Accuracy ExtendedMantissa)

def signed : Sign → ℚ → ℚ
  | .negative, q => -q
  | .positive, q => q

def Unpacked.value : UnpackedFloat → ℚ
  | .finite s m e _ => signed s (m * 2 ^ e)
  | _ => 0

/-- Whether a number of the format, or a greater one of its precision, has this value. -/
def Representable (q : ℚ) : Prop :=
  ∃ n e : Int, |n| < 2 ^ 53 ∧ -1074 ≤ e ∧ q = n * 2 ^ e

/-- No number of the format lies strictly between the values. -/
def Faithful (q v : ℚ) : Prop :=
  ∀ y, Representable y → (y ≤ q → y ≤ v) ∧ (q ≤ y → v ≤ y)

theorem Representable.neg {q : ℚ} (h : Representable q) : Representable (-q) := by
  obtain ⟨n, e, hn, he, rfl⟩ := h
  exact ⟨-n, e, by rwa [abs_neg], he, by push_cast; ring⟩

theorem Representable.double {q : ℚ} (h : Representable q) : Representable (2 * q) := by
  obtain ⟨n, e, hn, he, rfl⟩ := h
  refine ⟨n, e + 1, hn, by omega, ?_⟩
  rw [zpow_add_one₀ (by norm_num)]
  ring

theorem Faithful.refl (q : ℚ) : Faithful q q :=
  fun _ _ => ⟨id, id⟩

theorem Faithful.neg {q v : ℚ} (h : Faithful q v) : Faithful (-q) (-v) := by
  intro y hy
  obtain ⟨hle, hge⟩ := h (-y) hy.neg
  constructor
  · intro hyq
    have hv := hge (by linarith)
    linarith
  · intro hqy
    have hv := hle (by linarith)
    linarith

theorem Faithful.signed {q v : ℚ} (h : Faithful q v) (s : Sign) :
    Faithful (signed s q) (signed s v) := by
  cases s with
  | negative => exact h.neg
  | positive => exact h

/-- No number of the format is nearer to the first value than the second is. -/
def Nearest (q v : ℚ) : Prop :=
  ∀ y, Representable y → |v - q| ≤ |y - q|

theorem Nearest.refl (q : ℚ) : Nearest q q := by
  intro y _
  rw [sub_self, abs_zero]
  exact abs_nonneg _

theorem abs_neg_sub_neg (a b : ℚ) : |-a - -b| = |a - b| := by
  rw [neg_sub_neg, abs_sub_comm]

theorem Nearest.neg {q v : ℚ} (h : Nearest q v) : Nearest (-q) (-v) := by
  intro y hy
  rw [abs_neg_sub_neg, ← neg_neg y, abs_neg_sub_neg]
  exact h (-y) hy.neg

theorem Nearest.signed {q v : ℚ} (h : Nearest q v) (s : Sign) :
    Nearest (signed s q) (signed s v) := by
  cases s with
  | negative => exact h.neg
  | positive => exact h

theorem Nearest.faithful {q v : ℚ} (h : Nearest q v) : Faithful q v := by
  intro y hy
  have hnear := h y hy
  constructor
  · intro hyq
    by_contra hvy
    rw [abs_of_nonpos (by linarith), abs_of_nonpos (by linarith)] at hnear
    linarith
  · intro hqy
    by_contra hyv
    rw [abs_of_nonneg (by linarith), abs_of_nonneg (by linarith)] at hnear
    linarith

theorem middle_le_of_nearer {p v w : ℚ} (hwv : w < v) (h : |v - p| ≤ |w - p|) : v + w ≤ 2 * p := by
  by_contra hlow
  have hpos : 0 < (v - w) * (v + w - 2 * p) := mul_pos (by linarith) (by linarith)
  have hsquares := sq_le_sq.mpr h
  nlinarith

theorem le_middle_of_nearer {p v w : ℚ} (hwv : w < v) (h : |w - p| ≤ |v - p|) : 2 * p ≤ v + w := by
  rw [← abs_neg_sub_neg w, ← abs_neg_sub_neg v] at h
  have hmiddle := middle_le_of_nearer (neg_lt_neg hwv) h
  linarith

theorem Nearest.le_of_lt {p q v w : ℚ} (hv : Nearest p v) (hw : Nearest q w) (hrv : Representable v)
    (hrw : Representable w) (hlt : p < q) : v ≤ w := by
  by_contra hwv
  have hp := middle_le_of_nearer (not_le.mp hwv) (hv w hrw)
  have hq := le_middle_of_nearer (not_le.mp hwv) (hw v hrv)
  linarith

-- ---------------------------------------------------------------------------
-- Bits dropped from a mantissa
-- ---------------------------------------------------------------------------

/-- The mantissa is the whole part, and no residual bit is set exactly if that is all. -/
structure Truncates (em : ExtendedMantissa) (x : ℚ) : Prop where
  le : (em.mantissa : ℚ) ≤ x
  lt : x < em.mantissa + 1
  exact_iff : (em.roundBit || em.stickyBit) = false ↔ x = em.mantissa

theorem Truncates.shiftRightOne {em : ExtendedMantissa} {x : ℚ} (h : Truncates em x) :
    Truncates em.shiftRightOne (x / 2) := by
  obtain ⟨hle, hlt, hexact⟩ := h
  obtain ⟨m, r, s⟩ := em
  simp only [ExtendedMantissa.shiftRightOne] at *
  obtain ⟨k, hk | hk⟩ : ∃ k, m = 2 * k ∨ m = 2 * k + 1 := ⟨m / 2, by omega⟩
  · have hhalf : m / 2 = k := by omega
    have hbit : (m % 2 != 0) = false := by simp [hk]
    have hm : (m : ℚ) = 2 * k := by rw [hk]; push_cast; ring
    rw [hm] at hle hlt hexact
    rw [hhalf, hbit]
    refine ⟨by linarith, by linarith, ?_⟩
    rw [Bool.false_or, hexact]
    constructor <;> intro heq <;> linarith
  · have hhalf : m / 2 = k := by omega
    have hbit : (m % 2 != 0) = true := by
      have hodd : m % 2 = 1 := by omega
      rw [hodd]
      rfl
    have hm : (m : ℚ) = 2 * k + 1 := by rw [hk]; push_cast; ring
    rw [hm] at hle hlt hexact
    rw [hhalf, hbit]
    refine ⟨by linarith, by linarith, ?_⟩
    rw [Bool.true_or]
    constructor
    · intro heq
      cases heq
    · intro heq
      linarith

theorem Truncates.shiftRight {em : ExtendedMantissa} {x : ℚ} (h : Truncates em x) (k : Nat) :
    Truncates (em >>> k) (x / 2 ^ k) := by
  change Truncates (k.repeat ExtendedMantissa.shiftRightOne em) _
  induction k with
  | zero => simpa [Nat.repeat] using h
  | succ k ih =>
    rw [Nat.repeat, pow_succ, ← div_div]
    exact ih.shiftRightOne

theorem mantissa_shiftRight (em : ExtendedMantissa) (k : Nat) :
    (em >>> k).mantissa = em.mantissa / 2 ^ k := by
  change (k.repeat ExtendedMantissa.shiftRightOne em).mantissa = _
  induction k with
  | zero => simp [Nat.repeat]
  | succ k ih =>
    rw [Nat.repeat, ExtendedMantissa.shiftRightOne, ih, Nat.div_div_eq_div_mul, pow_succ]

theorem roundedMantissa_between (em : ExtendedMantissa) :
    em.mantissa ≤ em.roundedMantissa ∧ em.roundedMantissa ≤ em.mantissa + 1 := by
  obtain ⟨m, r, s⟩ := em
  cases r <;> cases s <;>
    simp only [ExtendedMantissa.roundedMantissa, ExtendedMantissa.accuracy,
      Accuracy.roundToNearestEven] <;> omega

theorem Truncates.roundedMantissa_eq {em : ExtendedMantissa} {x : ℚ} (h : Truncates em x)
    (hx : x = em.mantissa) : em.roundedMantissa = em.mantissa := by
  have hbits := h.exact_iff.mpr hx
  obtain ⟨m, r, s⟩ := em
  obtain ⟨rfl, rfl⟩ := Bool.or_eq_false_iff.mp hbits
  rfl

/-- The bits behind the mantissa tell on which side of the middle between it and the next the
value lies. -/
structure Splits (em : ExtendedMantissa) (x : ℚ) : Prop extends Truncates em x where
  roundBit_iff : em.roundBit = true ↔ em.mantissa + 1 / 2 ≤ x
  stickyBit_iff : em.stickyBit = false ↔ x = em.mantissa ∨ x = em.mantissa + 1 / 2

theorem Splits.shiftRightOne {em : ExtendedMantissa} {x : ℚ} (h : Splits em x) :
    Splits em.shiftRightOne (x / 2) := by
  refine ⟨h.toTruncates.shiftRightOne, ?_, ?_⟩ <;> obtain ⟨⟨hle, hlt, hexact⟩, -, -⟩ := h <;>
    obtain ⟨m, r, s⟩ := em <;> simp only [ExtendedMantissa.shiftRightOne] at *
  all_goals
    obtain ⟨k, hk⟩ : ∃ k : Nat, k = m / 2 := ⟨_, rfl⟩
    rw [← hk]
  · have hodd : (m % 2 != 0) = true ↔ 2 * k + 1 ≤ m := by
      rw [bne_iff_ne]
      omega
    rw [hodd]
    constructor
    · intro hm
      have hm : (2 * k + 1 : ℚ) ≤ m := by exact_mod_cast hm
      linarith
    · intro hx
      by_contra hm
      have hm : (m : ℚ) ≤ 2 * k := by exact_mod_cast (by omega : m ≤ 2 * k)
      linarith
  · rw [hexact]
    constructor
    · intro hx
      rw [hx]
      rcases (by omega : m = 2 * k ∨ m = 2 * k + 1) with hm | hm
      · left
        rw [hm]
        push_cast
        ring
      · right
        rw [hm]
        push_cast
        ring
    · -- Twice a half is whole, and there is one whole number from `m` to the next.
      intro hx
      obtain ⟨n, hn⟩ : ∃ n : Nat, x = n := by
        rcases hx with hx | hx
        · exact ⟨2 * k, by push_cast; linarith⟩
        · exact ⟨2 * k + 1, by push_cast; linarith⟩
      rw [hn] at hle hlt ⊢
      have hle : m ≤ n := by exact_mod_cast hle
      have hlt : n < m + 1 := by exact_mod_cast hlt
      rw [Nat.le_antisymm (Nat.lt_succ_iff.mp hlt) hle]

theorem Splits.shiftRight {em : ExtendedMantissa} {x : ℚ} (h : Splits em x) (k : Nat) :
    Splits (em >>> k) (x / 2 ^ k) := by
  change Splits (k.repeat ExtendedMantissa.shiftRightOne em) _
  induction k with
  | zero => simpa [Nat.repeat] using h
  | succ k ih =>
    rw [Nat.repeat, pow_succ, ← div_div]
    exact ih.shiftRightOne

theorem Splits.abs_sub_le {em : ExtendedMantissa} {x : ℚ} (h : Splits em x) :
    |(em.roundedMantissa : ℚ) - x| ≤ x - em.mantissa ∧
      |(em.roundedMantissa : ℚ) - x| ≤ em.mantissa + 1 - x := by
  obtain ⟨⟨hle, hlt, hexact⟩, hround, hsticky⟩ := h
  obtain ⟨m, r, s⟩ := em
  rw [abs_le, abs_le]
  cases r <;> cases s <;>
    simp only [ExtendedMantissa.roundedMantissa, ExtendedMantissa.accuracy,
      Accuracy.roundToNearestEven] at *
  · have hx : x = m := hexact.mp rfl
    refine ⟨⟨?_, ?_⟩, ?_, ?_⟩ <;> linarith
  · have hlow : x < m + 1 / 2 := not_le.mp fun hx => Bool.false_ne_true (hround.mpr hx)
    refine ⟨⟨?_, ?_⟩, ?_, ?_⟩ <;> linarith
  · -- The value is the middle, from where the even neighbour is taken.
    have hhigh := hround.mp trivial
    have hmiddle : x = m + 1 / 2 := (hsticky.mp trivial).resolve_left fun hx => by linarith
    have hbit : ((m % 2 : Nat) : ℚ) ≤ 1 := by exact_mod_cast (by omega : m % 2 ≤ 1)
    have hbit' : (0 : ℚ) ≤ (m % 2 : Nat) := Nat.cast_nonneg _
    push_cast at hbit hbit' ⊢
    refine ⟨⟨?_, ?_⟩, ?_, ?_⟩ <;> linarith
  · have hhigh := hround.mp trivial
    push_cast
    refine ⟨⟨?_, ?_⟩, ?_, ?_⟩ <;> linarith

theorem truncates_exact (m : Nat) : Truncates (.ofMantissaAndAccuracy m .exact) m := by
  refine ⟨Eq.le rfl, ?_, ?_⟩ <;> simp [ExtendedMantissa.ofMantissaAndAccuracy]

theorem splits_exact (m : Nat) : Splits (.ofMantissaAndAccuracy m .exact) m := by
  refine ⟨truncates_exact m, ?_, ?_⟩ <;> norm_num [ExtendedMantissa.ofMantissaAndAccuracy]

theorem truncates_quotient (a : Nat) {d : Nat} (hd : 0 < d) :
    Truncates (.ofMantissaAndAccuracy (a / d) (UnpackedFloat.accuracyOfFraction (a % d) d))
      ((a : ℚ) / d) := by
  have hpos : (0 : ℚ) < d := by exact_mod_cast hd
  have hsplit : (a : ℚ) / d = (a / d : Nat) + ((a % d : Nat) : ℚ) / d := by
    have hcast : (a : ℚ) = d * (a / d : Nat) + (a % d : Nat) := by
      exact_mod_cast (Nat.div_add_mod a d).symm
    rw [hcast]
    field_simp
  have hle : (0 : ℚ) ≤ ((a % d : Nat) : ℚ) / d := by positivity
  have hlt : ((a % d : Nat) : ℚ) / d < 1 := by
    rw [div_lt_one hpos]
    exact_mod_cast Nat.mod_lt a hd
  rw [hsplit, UnpackedFloat.accuracyOfFraction]
  split
  · next hzero =>
    rw [hzero, Nat.cast_zero, zero_div, add_zero]
    exact truncates_exact _
  · next hrest =>
    have hne : ((a % d : Nat) : ℚ) / d ≠ 0 :=
      div_ne_zero (by exact_mod_cast hrest) (ne_of_gt hpos)
    cases compare (2 * (a % d)) d <;>
      exact ⟨le_add_of_nonneg_right hle, add_lt_add_right hlt _,
        by simp [ExtendedMantissa.ofMantissaAndAccuracy, hne]⟩

-- ---------------------------------------------------------------------------
-- Rounding a mantissa
-- ---------------------------------------------------------------------------

def Unpacked.ofMantissa (s : Sign) (m : Nat) (e : Int) : UnpackedFloat :=
  if h : m = 0 then .zero s else .finite s m e (Nat.pos_of_ne_zero h)

theorem value_ofMantissa (s : Sign) (m : Nat) (e : Int) :
    Unpacked.value (Unpacked.ofMantissa s m e) = signed s (m * 2 ^ e) := by
  rw [Unpacked.ofMantissa]
  split
  · next hzero => cases s <;> simp [Unpacked.value, Binary64.signed, hzero]
  · rfl

/-- Whether a number is one of the format, or would be if its exponent were not too great. -/
def Unpacked.Finite (x : UnpackedFloat) : Prop :=
  ∃ s m e, Binary64.Canonical m e ∧ x = ofMantissa s m e

structure Unpacked.Rounds (q : ℚ) (x : UnpackedFloat) : Prop where
  finite : Finite x
  faithful : Faithful q (value x)

structure Unpacked.RoundsNearest (q : ℚ) (x : UnpackedFloat) : Prop where
  finite : Finite x
  nearest : Nearest q (value x)

theorem Unpacked.RoundsNearest.rounds {q : ℚ} {x : UnpackedFloat}
    (h : RoundsNearest q x) : Rounds q x :=
  ⟨h.finite, h.nearest.faithful⟩

theorem targetExponent_eq (m : Nat) (e : Int) :
    Format.binary64.targetExponent (totalExponent m e) = max (m.log2 + e - 52) (-1074) := by
  have hmantissa : Format.binary64.mantissaBits = 53 := rfl
  have hexponent : Format.binary64.minExponent = -1074 := rfl
  rw [Format.targetExponent, totalExponent, hmantissa, hexponent]
  omega

/-- Dropping bits down to the exponent aimed at leaves a mantissa of the format. -/
theorem canonical_shift {m : Nat} {e : Int} (h : 2 ^ 52 ≤ m ∨ e ≤ -1074) {k : Nat}
    (hk : k = (Format.binary64.targetExponent (totalExponent m e) - e).toNat) :
    Canonical (m / 2 ^ k) (e + k) := by
  rw [targetExponent_eq] at hk
  have hlt := Nat.lt_log2_self (n := m)
  have hbelow : m / 2 ^ k < 2 ^ 53 := by
    rw [Nat.div_lt_iff_lt_mul (Nat.two_pow_pos k), ← Nat.pow_add]
    exact hlt.trans_le (Nat.pow_le_pow_right (by decide) (by omega))
  by_cases hfull : 52 ≤ m.log2 ∧ -1074 < (m.log2 : Int) + e - 52
  · have hne : m ≠ 0 := by
      rintro rfl
      simp at hfull
    refine ⟨hbelow, by omega, .inl ?_⟩
    rw [Nat.le_div_iff_mul_le (Nat.two_pow_pos k), ← Nat.pow_add]
    exact (Nat.pow_le_pow_right (by decide) (by omega)).trans (Nat.log2_self_le hne)
  · -- The least exponent is the one aimed at, and the bits to drop reach it.
    have hlog (hm : 2 ^ 52 ≤ m) : 52 ≤ m.log2 := (Nat.le_log2 (by omega)).mpr hm
    refine ⟨hbelow, by omega, .inr ?_⟩
    rcases h with h | h
    · have := hlog h
      omega
    · omega

theorem shiftToTargetExponent_fits {m : Nat} {e : Int} (hm : m < 2 ^ 53) (he : -1074 ≤ e) :
    UnpackedFloat.shiftToTargetExponent Format.binary64 m e .exact = (⟨m, false, false⟩, e) := by
  have hlog : m.log2 ≤ 52 := by
    by_cases hzero : m = 0
    · rw [hzero]
      decide
    · have := (Nat.log2_lt hzero).mpr hm
      omega
  have hk : (Format.binary64.targetExponent (totalExponent m e) - e).toNat = 0 := by
    rw [targetExponent_eq]
    omega
  simp only [UnpackedFloat.shiftToTargetExponent, UnpackedFloat.shiftToExponent, hk]
  exact Prod.ext rfl (Int.add_zero e)

theorem shiftToTargetExponent_carry {e : Int} (he : -1074 ≤ e) :
    UnpackedFloat.shiftToTargetExponent Format.binary64 (2 ^ 53) e .exact =
      (⟨2 ^ 52, false, false⟩, e + 1) := by
  have hk : (Format.binary64.targetExponent (totalExponent (2 ^ 53) e) - e).toNat = 1 := by
    rw [targetExponent_eq, Nat.log2_two_pow]
    omega
  simp only [UnpackedFloat.shiftToTargetExponent, UnpackedFloat.shiftToExponent, hk]
  rfl

/-- Either the exponent is too small for a number to reach the mantissa, or the number is a
multiple of the unit. -/
theorem faithful_of_truncates {em : ExtendedMantissa} {x : ℚ} (h : Truncates em x) {e : Int}
    (hcanonical : Canonical em.mantissa e) {r : Nat} (hle : em.mantissa ≤ r)
    (hge : r ≤ em.mantissa + 1)
    (hexact : x = em.mantissa → r = em.mantissa) : Faithful (x * 2 ^ e) (r * 2 ^ e) := by
  obtain ⟨-, hleast, hfull⟩ := hcanonical
  have hpos : (0 : ℚ) < 2 ^ e := by positivity
  have hle' : (em.mantissa : ℚ) ≤ r := by exact_mod_cast hle
  rintro y ⟨n, f, hn, hf, rfl⟩
  rcases Int.lt_or_le f e with hfe | hef
  · have hfull : 2 ^ 52 ≤ em.mantissa := hfull.resolve_right (by omega)
    have hbelow : (n : ℚ) * 2 ^ f < em.mantissa * 2 ^ e := by
      have hn' : (n : ℚ) < 2 ^ 53 := by exact_mod_cast (abs_lt.mp hn).2
      have hm : (2 : ℚ) ^ 52 ≤ em.mantissa := by exact_mod_cast hfull
      calc (n : ℚ) * 2 ^ f < 2 ^ 53 * 2 ^ f := by gcongr
        _ = 2 ^ 52 * 2 ^ (f + 1) := by rw [zpow_add_one₀ (by norm_num)]; ring
        _ ≤ em.mantissa * 2 ^ e := by
          gcongr
          · norm_num
          · omega
    have hx : (em.mantissa : ℚ) * 2 ^ e ≤ x * 2 ^ e := by
      gcongr
      exact h.le
    have hr : (em.mantissa : ℚ) * 2 ^ e ≤ r * 2 ^ e := by gcongr
    exact ⟨fun _ => by linarith, fun hge => by linarith⟩
  · obtain ⟨k, rfl⟩ : ∃ k : Nat, f = e + k := ⟨(f - e).toNat, by omega⟩
    have hunits : (n : ℚ) * 2 ^ (e + (k : Int)) = (n * 2 ^ k : Int) * 2 ^ e := by
      rw [zpow_add₀ (by norm_num), zpow_natCast]
      push_cast
      ring
    rw [hunits]
    generalize n * 2 ^ k = N
    constructor
    · intro hle
      have hNx : (N : ℚ) ≤ x := le_of_mul_le_mul_right hle hpos
      have hN : N < em.mantissa + 1 := by exact_mod_cast hNx.trans_lt h.lt
      have hNr : (N : ℚ) ≤ r := by exact_mod_cast (by omega : N ≤ (r : Int))
      gcongr
    · intro hge
      have hxN : x ≤ N := le_of_mul_le_mul_right hge hpos
      have hrN : (r : Int) ≤ N := by
        rcases h.le.eq_or_lt with heq | hlt
        · rw [hexact heq.symm]
          exact_mod_cast heq.trans_le hxN
        · have hN : (em.mantissa : Int) < N := by exact_mod_cast hlt.trans_le hxN
          omega
      have hrN' : (r : ℚ) ≤ N := by exact_mod_cast hrN
      gcongr

theorem nearest_of_splits {em : ExtendedMantissa} {x : ℚ} (h : Splits em x) {e : Int}
    (hcanonical : Canonical em.mantissa e) : Nearest (x * 2 ^ e) (em.roundedMantissa * 2 ^ e) := by
  have htruncates := h.toTruncates
  rcases eq_or_ne x em.mantissa with hx | hx
  · rw [htruncates.roundedMantissa_eq hx, hx]
    exact .refl _
  · have hlow := faithful_of_truncates htruncates hcanonical le_rfl (Nat.le_succ _) fun _ => rfl
    have hhigh :=
      faithful_of_truncates htruncates hcanonical (Nat.le_succ _) le_rfl fun heq => absurd heq hx
    have hpos : (0 : ℚ) < 2 ^ e := by positivity
    have habs : |(em.roundedMantissa : ℚ) * 2 ^ e - x * 2 ^ e| =
        |em.roundedMantissa - x| * 2 ^ e := by
      rw [← sub_mul, abs_mul, abs_of_pos hpos]
    obtain ⟨hbelow, habove⟩ := h.abs_sub_le
    have hbelow := mul_le_mul_of_nonneg_right hbelow hpos.le
    have habove := mul_le_mul_of_nonneg_right habove hpos.le
    rw [← habs, sub_mul] at hbelow habove
    intro y hy
    rcases le_total y (x * 2 ^ e) with hyx | hxy
    · have hyle := (hlow y hy).1 hyx
      rw [abs_of_nonpos (by linarith : y - x * 2 ^ e ≤ 0)]
      linarith
    · have hley := (hhigh y hy).2 hxy
      push_cast at hley
      rw [abs_of_nonneg (by linarith : 0 ≤ y - x * 2 ^ e)]
      linarith

/-- What is left of a mantissa, rounded, is the result. The given bits suffice: there is a full
mantissa of them, or they reach below the least exponent. -/
theorem roundWithAccuracy_spec (s : Sign) {m : Nat} {e : Int} (accuracy : Accuracy)
    (hbits : 2 ^ 52 ≤ m ∨ e ≤ -1074) :
    ∃ (k : Nat) (em : ExtendedMantissa),
      em = ExtendedMantissa.ofMantissaAndAccuracy m accuracy >>> k ∧
      Canonical em.mantissa (e + k) ∧
      Unpacked.Finite (UnpackedFloat.roundWithAccuracy Format.binary64 s m e accuracy) ∧
      Unpacked.value (UnpackedFloat.roundWithAccuracy Format.binary64 s m e accuracy) =
        signed s (em.roundedMantissa * 2 ^ (e + k : Int)) := by
  obtain ⟨k, hk⟩ :
    ∃ k, k = (Format.binary64.targetExponent (totalExponent m e) - e).toNat := ⟨_, rfl⟩
  have hcanonical := canonical_shift hbits hk
  have hm : (ExtendedMantissa.ofMantissaAndAccuracy m accuracy).mantissa = m := by
    cases accuracy with
    | exact => rfl
    | inexact o => cases o <;> rfl
  have hfirst : UnpackedFloat.shiftToTargetExponent Format.binary64 m e accuracy =
      (ExtendedMantissa.ofMantissaAndAccuracy m accuracy >>> k, e + (k : Int)) := by
    rw [hk]
    rfl
  rw [← hm, ← mantissa_shiftRight] at hcanonical
  refine ⟨k, _, rfl, hcanonical, ?_⟩
  rw [UnpackedFloat.roundWithAccuracy, hfirst]
  simp only
  generalize ExtendedMantissa.ofMantissaAndAccuracy m accuracy >>> k = em at *
  obtain ⟨hle, hge⟩ := roundedMantissa_between em
  generalize em.roundedMantissa = r at *
  obtain ⟨hlt, hleast, hfull⟩ := hcanonical
  rcases Nat.lt_or_ge r (2 ^ 53) with hr | hr
  · rw [shiftToTargetExponent_fits hr hleast]
    have hvalue := value_ofMantissa s r (e + k)
    rw [Unpacked.ofMantissa] at hvalue
    exact ⟨⟨s, r, e + k, ⟨hr, hleast, by omega⟩, rfl⟩, hvalue⟩
  · obtain rfl : r = 2 ^ 53 := by omega
    rw [shiftToTargetExponent_carry hleast]
    refine ⟨⟨s, 2 ^ 52, e + k + 1, ⟨by norm_num, by omega, by omega⟩, rfl⟩, ?_⟩
    have hcarry :
        ((2 ^ 53 : Nat) : ℚ) * 2 ^ (e + (k : Int)) = (2 ^ 52 : Nat) * 2 ^ (e + (k : Int) + 1) := by
      rw [zpow_add_one₀ (by norm_num)]
      push_cast
      ring
    rw [hcarry]
    rfl

theorem div_mul_zpow (x : ℚ) (e : Int) (k : Nat) : x / 2 ^ k * 2 ^ (e + k : Int) = x * 2 ^ e := by
  rw [zpow_add₀ (by norm_num), zpow_natCast]
  field_simp

theorem rounds_roundWithAccuracy (s : Sign) {m : Nat} {e : Int} {accuracy : Accuracy} {x : ℚ}
    (h : Truncates (.ofMantissaAndAccuracy m accuracy) x) (hbits : 2 ^ 52 ≤ m ∨ e ≤ -1074) :
    Unpacked.Rounds (signed s (x * 2 ^ e))
      (UnpackedFloat.roundWithAccuracy Format.binary64 s m e accuracy) := by
  obtain ⟨k, em, rfl, hcanonical, hfinite, hvalue⟩ := roundWithAccuracy_spec s accuracy hbits
  have hshift := h.shiftRight k
  obtain ⟨hle, hge⟩ :=
    roundedMantissa_between (ExtendedMantissa.ofMantissaAndAccuracy m accuracy >>> k)
  have hfaithful := faithful_of_truncates hshift hcanonical hle hge hshift.roundedMantissa_eq
  rw [div_mul_zpow] at hfaithful
  exact ⟨hfinite, hvalue ▸ hfaithful.signed s⟩

theorem nearest_roundWithAccuracy (s : Sign) {m : Nat} {e : Int} {accuracy : Accuracy} {x : ℚ}
    (h : Splits (.ofMantissaAndAccuracy m accuracy) x) (hbits : 2 ^ 52 ≤ m ∨ e ≤ -1074) :
    Unpacked.RoundsNearest (signed s (x * 2 ^ e))
      (UnpackedFloat.roundWithAccuracy Format.binary64 s m e accuracy) := by
  obtain ⟨k, em, rfl, hcanonical, hfinite, hvalue⟩ := roundWithAccuracy_spec s accuracy hbits
  have hnearest := nearest_of_splits (h.shiftRight k) hcanonical
  rw [div_mul_zpow] at hnearest
  exact ⟨hfinite, hvalue ▸ hnearest.signed s⟩

-- ---------------------------------------------------------------------------
-- Operations
-- ---------------------------------------------------------------------------

open Unpacked (Rounds RoundsNearest Finite value)

theorem finite_zero (s : Sign) : Finite (.zero s) :=
  ⟨s, 0, -1074, ⟨by decide, by decide, .inr rfl⟩, rfl⟩

theorem value_zero (s : Sign) : value (.zero s) = 0 :=
  rfl

theorem Unpacked.Finite.zero_or_finite {x : UnpackedFloat} (h : Finite x) :
    (∃ s, x = .zero s) ∨ ∃ s m e hm, Binary64.Canonical m e ∧ x = .finite s m e hm := by
  obtain ⟨s, m, e, hcanonical, rfl⟩ := h
  rw [Unpacked.ofMantissa]
  split
  · exact .inl ⟨s, rfl⟩
  · next hm => exact .inr ⟨s, m, e, Nat.pos_of_ne_zero hm, hcanonical, rfl⟩

theorem nearest_round (s : Sign) {m : Nat} (hm : m ≠ 0) (e : Int) :
    RoundsNearest (signed s (m * 2 ^ e)) (UnpackedFloat.round Format.binary64 s m e) := by
  rw [UnpackedFloat.round, targetExponent_eq]
  simp only [UnpackedFloat.decreaseExponent]
  generalize hk : (e - max ((m.log2 : Int) + e - 52) (-1074)).toNat = k
  have hvalue : (m : ℚ) * 2 ^ e = (m <<< k : Nat) * 2 ^ (e - (k : Int)) := by
    rw [Nat.shiftLeft_eq, zpow_sub₀ (by norm_num), zpow_natCast]
    push_cast
    field_simp
  rw [hvalue]
  refine nearest_roundWithAccuracy s (splits_exact _) ?_
  by_cases hleast : e - (k : Int) ≤ -1074
  · exact .inr hleast
  · left
    rw [Nat.shiftLeft_eq]
    calc 2 ^ 52 ≤ 2 ^ (m.log2 + k) := Nat.pow_le_pow_right (by decide) (by omega)
      _ = 2 ^ m.log2 * 2 ^ k := Nat.pow_add 2 _ _
      _ ≤ m * 2 ^ k := Nat.mul_le_mul_right _ (Nat.log2_self_le hm)

theorem nearest_normalize (m e : Int) :
    RoundsNearest (m * 2 ^ e) (UnpackedFloat.normalize Format.binary64 m e .positive) := by
  rw [UnpackedFloat.normalize]
  rcases Int.lt_trichotomy m 0 with hm | rfl | hm
  · rw [Int.compare_eq_lt.mpr hm]
    obtain ⟨n, rfl⟩ : ∃ n : Nat, m = -n := ⟨(-m).toNat, by omega⟩
    have hround := nearest_round .negative (m := n) (by omega) e
    simp only [Int.neg_neg, Int.toNat_natCast]
    convert hround using 1
    rw [signed]
    push_cast
    ring
  · refine ⟨finite_zero _, ?_⟩
    rw [Int.cast_zero, zero_mul]
    exact .refl 0
  · rw [Int.compare_eq_gt.mpr hm]
    obtain ⟨n, rfl⟩ : ∃ n : Nat, m = n := ⟨m.toNat, by omega⟩
    exact nearest_round .positive (by omega) e

theorem decreaseExponent_spec (s : Sign) (m : Nat) {e f : Int} (h : f ≤ e) :
    ((s.apply (UnpackedFloat.decreaseExponent m e f).1 : Int) : ℚ) * 2 ^ f =
      signed s (m * 2 ^ e) := by
  obtain ⟨k, rfl⟩ : ∃ k : Nat, e = f + k := ⟨(e - f).toNat, by omega⟩
  have hk : (f + (k : Int) - f).toNat = k := by omega
  rw [UnpackedFloat.decreaseExponent, hk, zpow_add₀ (by norm_num), zpow_natCast, Nat.shiftLeft_eq]
  cases s <;>
  · simp only [Sign.apply, signed]
    push_cast
    ring

theorem nearest_add {x y : UnpackedFloat} (hx : Finite x) (hy : Finite y) :
    RoundsNearest (value x + value y) (UnpackedFloat.add Format.binary64 x y) := by
  have hxself : RoundsNearest (value x) x := ⟨hx, .refl _⟩
  have hyself : RoundsNearest (value y) y := ⟨hy, .refl _⟩
  rcases hx.zero_or_finite with ⟨s, rfl⟩ | ⟨s, m, e, hm, -, rfl⟩
  · rw [value_zero, zero_add]
    rcases hy.zero_or_finite with ⟨t, rfl⟩ | ⟨t, n, f, hn, -, rfl⟩
    · rw [UnpackedFloat.add]
      split <;> exact ⟨finite_zero _, .refl 0⟩
    · exact hyself
  · rcases hy.zero_or_finite with ⟨t, rfl⟩ | ⟨t, n, f, hn, -, rfl⟩
    · rw [value_zero, add_zero]
      exact hxself
    · have hnormalize := nearest_normalize
        (s.apply (UnpackedFloat.decreaseExponent m e (min e f)).1 +
          t.apply (UnpackedFloat.decreaseExponent n f (min e f)).1) (min e f)
      rw [Int.cast_add, add_mul, decreaseExponent_spec s m (Int.min_le_left e f),
        decreaseExponent_spec t n (Int.min_le_right e f)] at hnormalize
      exact hnormalize

/-- The quotient of two mantissas has enough bits to be rounded: a full mantissa of them, or they
reach below the least exponent. -/
theorem divCore_spec {m n : Nat} (hm : 0 < m) (hn : 0 < n) (e f : Int) :
    ∃ (k : Nat) (t : Int), UnpackedFloat.divCore Format.binary64 m e n f =
        (m <<< k / n, t, UnpackedFloat.accuracyOfFraction (m <<< k % n) n) ∧
      e - f = t + k ∧ (2 ^ 52 ≤ m <<< k / n ∨ t ≤ -1074) := by
  obtain ⟨t, ht⟩ : ∃ t, t = min (e - f)
      (Format.binary64.targetExponent (totalExponent m e - totalExponent n f)) := ⟨_, rfl⟩
  have htarget : t = min (e - f) (max (m.log2 + e - (n.log2 + f) - 53) (-1074)) := by
    have hmantissa : Format.binary64.mantissaBits = 53 := rfl
    have hexponent : Format.binary64.minExponent = -1074 := rfl
    rw [ht, Format.targetExponent, totalExponent, totalExponent, hmantissa, hexponent]
    omega
  refine ⟨(e - f - t).toNat, t, by rw [ht]; rfl, by omega, ?_⟩
  by_cases hleast : t ≤ -1074
  · exact .inr hleast
  · -- The shift makes the numerator 53 bits longer than the denominator.
    left
    generalize hk : (e - f - t).toNat = k
    rw [Nat.shiftLeft_eq, Nat.le_div_iff_mul_le hn]
    calc 2 ^ 52 * n ≤ 2 ^ 52 * 2 ^ (n.log2 + 1) := Nat.mul_le_mul_left _ Nat.lt_log2_self.le
      _ = 2 ^ (52 + (n.log2 + 1)) := (Nat.pow_add 2 _ _).symm
      _ ≤ 2 ^ (m.log2 + k) := Nat.pow_le_pow_right (by decide) (by omega)
      _ = 2 ^ m.log2 * 2 ^ k := Nat.pow_add 2 _ _
      _ ≤ m * 2 ^ k := Nat.mul_le_mul_right _ (Nat.log2_self_le (Nat.ne_of_gt hm))

theorem signed_div (s t : Sign) (p q : ℚ) : signed (s / t) (p / q) = signed s p / signed t q := by
  cases s <;> cases t
  · exact (neg_div_neg_eq p q).symm
  · exact (neg_div q p).symm
  · exact (div_neg p).symm
  · rfl

theorem rounds_div {x y : UnpackedFloat} (hx : Finite x) (hy : Finite y) (hne : value y ≠ 0) :
    Rounds (value x / value y) (UnpackedFloat.div Format.binary64 x y) := by
  rcases hy.zero_or_finite with ⟨t, rfl⟩ | ⟨t, n, f, hn, -, rfl⟩
  · exact absurd (value_zero t) hne
  rcases hx.zero_or_finite with ⟨s, rfl⟩ | ⟨s, m, e, hm, -, rfl⟩
  · rw [value_zero, zero_div]
    exact ⟨finite_zero _, .refl 0⟩
  · obtain ⟨k, least, hcore, hexponent, hbits⟩ := divCore_spec hm hn e f
    have hround := rounds_roundWithAccuracy (s / t) (truncates_quotient (m <<< k) hn) hbits
    have hvalue : ((m <<< k : Nat) : ℚ) / n * 2 ^ least = m * 2 ^ e / (n * 2 ^ f) := by
      have hexponent : e = least + k + f := by omega
      rw [Nat.shiftLeft_eq, hexponent, zpow_add₀ (by norm_num),
        zpow_add₀ (by norm_num), zpow_natCast]
      push_cast
      field_simp
    rw [hvalue, signed_div] at hround
    rw [UnpackedFloat.div, hcore]
    exact hround

def Unpacked.two : UnpackedFloat :=
  .finite .positive (2 ^ 52) (-51) (by decide)

theorem finite_two : Finite Unpacked.two :=
  ⟨.positive, 2 ^ 52, -51, ⟨by decide, by decide, .inl le_rfl⟩, rfl⟩

theorem value_two : value Unpacked.two = 2 := by
  have hvalue : value Unpacked.two = ((2 ^ 52 : Nat) : ℚ) * 2 ^ (-51 : Int) := rfl
  rw [hvalue]
  norm_num

theorem rounds_half {x : UnpackedFloat} (hx : Finite x) :
    Rounds (value x / 2) (UnpackedFloat.div Format.binary64 x Unpacked.two) := by
  have hround := rounds_div hx finite_two (by rw [value_two]; norm_num)
  rwa [value_two] at hround

end GlyphTable.Binary64
