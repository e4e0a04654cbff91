import GlyphTable.Proofs.Binary64.Halving

/-!
# Whole numbers

Whole numbers are of the format as long as they are multiples of a large enough power of two.
What is computed from numbers that are whole or nearly so is bounded by whole numbers again, which
rounding does not pass (`Whole.half_sum`, `Near.le_sub`). An interval that is divided no further is
therefore short, unless it lies far out (`Stuck.sub_le`).
-/

namespace GlyphTable.Binary64

theorem representable_mul_pow {k : Int} (hk : |k| < 2 ^ 53) (e : Nat) :
    Representable ((k : ℚ) * 2 ^ e) :=
  ⟨k, e, hk, by omega, by rw [zpow_natCast]⟩

theorem representable_pow (e : Nat) : Representable (2 ^ e) := by
  simpa using representable_mul_pow (k := 1) (by decide) e

theorem representable_intCast {k : Int} (hk : |k| < 2 ^ 53) : Representable k := by
  simpa using representable_mul_pow hk 0

theorem le_limit {q : ℚ} (h : q ≤ 2 ^ 60) : q ≤ 2 ^ 52 * 2 ^ (971 : Int) :=
  h.trans (by decide +kernel)

theorem RoundedTo.value_eq {z c : Float} (h : RoundedTo (value z) c) (hz : z.isFinite = true) :
    c.isFinite = true ∧ value c = value z := by
  have hle := h.le_of_le z hz le_rfl
  have hge := h.ge_of_ge z hz le_rfl
  have hc := isFinite_of_between hz hz hle hge
  exact ⟨hc, le_antisymm ((le_iff_value_le hc hz).mp hge) ((le_iff_value_le hz hc).mp hle)⟩

/-- Numbers that are no further out than the even whole numbers of the format reach. -/
def Moderate (a : Float) : Prop :=
  a.isFinite = true ∧ |value a| ≤ 2 ^ 54

instance (a : Float) : Decidable (Moderate a) :=
  inferInstanceAs (Decidable (_ ∧ _))

theorem lt_iff_value_lt {a b : Float} (ha : a.isFinite = true) (hb : b.isFinite = true) :
    a < b ↔ value a < value b := by
  rw [← not_le, ← le_iff_value_le hb ha]
  constructor
  · exact fun h hle => lt_irrefl _ (lt_of_lt_of_le h hle)
  · exact (lt_or_le (isNumber_of_isFinite ha) (isNumber_of_isFinite hb)).resolve_right

section

variable {a b : Float} (ha : Moderate a) (hb : Moderate b)

include ha hb

theorem faithful_sub : (b - a).isFinite = true ∧ Faithful (value b - value a) (value (b - a)) := by
  obtain ⟨ha, halimit⟩ := ha
  obtain ⟨hb, hblimit⟩ := hb
  have hlimit : |value b + value (-a)| ≤ 2 ^ 52 * 2 ^ (971 : Int) := by
    refine le_limit ?_
    rw [value_neg]
    obtain ⟨halow, hahigh⟩ := abs_le.mp halimit
    obtain ⟨hblow, hbhigh⟩ := abs_le.mp hblimit
    exact abs_le.mpr ⟨by linarith, by linarith⟩
  have hsum := faithful_add hb (isFinite_neg ha) hlimit
  rw [value_neg, ← sub_eq_add_neg, ← sub_eq_add_opposite] at hsum
  exact hsum

theorem le_sub_of_le {q : ℚ} (hq : Representable q) (h : q ≤ value b - value a) :
    q ≤ value (b - a) :=
  ((faithful_sub ha hb).2 q hq).1 h

theorem sub_le_of_le {q : ℚ} (hq : Representable q) (h : value b - value a ≤ q) :
    value (b - a) ≤ q :=
  ((faithful_sub ha hb).2 q hq).2 h

theorem faithful_half_sum : ((a + b) / 2).isFinite = true ∧
    Faithful ((value a + value b) / 2) (value ((a + b) / 2)) := by
  obtain ⟨ha, halimit⟩ := ha
  obtain ⟨hb, hblimit⟩ := hb
  obtain ⟨halow, hahigh⟩ := abs_le.mp halimit
  obtain ⟨hblow, hbhigh⟩ := abs_le.mp hblimit
  have hsumlimit : |value a + value b| ≤ 2 ^ 55 := abs_le.mpr ⟨by linarith, by linarith⟩
  obtain ⟨hsum, hfaithful⟩ := faithful_add ha hb (le_limit (hsumlimit.trans (by norm_num)))
  have hpow := representable_pow 55
  have hsumlow := (hfaithful _ hpow.neg).1 (by linarith)
  have hsumhigh := (hfaithful _ hpow).2 (by linarith)
  have hhalflimit : |value (a + b) / 2| ≤ 2 ^ 52 * 2 ^ (971 : Int) :=
    le_limit (abs_le.mpr ⟨by linarith, by linarith⟩)
  obtain ⟨hhalf, hfaithful'⟩ := faithful_half hsum hhalflimit
  exact ⟨hhalf, hfaithful.half hfaithful'⟩

theorem Moderate.half_sum : Moderate ((a + b) / 2) := by
  obtain ⟨halow, hahigh⟩ := abs_le.mp ha.2
  obtain ⟨hblow, hbhigh⟩ := abs_le.mp hb.2
  obtain ⟨hhalf, hfaithful⟩ := faithful_half_sum ha hb
  exact ⟨hhalf, abs_le.mpr ⟨(hfaithful _ (representable_pow 54).neg).1 (by linarith),
    (hfaithful _ (representable_pow 54)).2 (by linarith)⟩⟩

end

/-- An interval that is divided no further holds no multiple of four near its middle. -/
theorem Stuck.sub_le {a b : Float} (h : Stuck a b) (ha : Moderate a) (hb : Moderate b) :
    value b - value a ≤ 8 := by
  by_contra hwide
  obtain ⟨halow, hahigh⟩ := abs_le.mp ha.2
  obtain ⟨hblow, hbhigh⟩ := abs_le.mp hb.2
  obtain ⟨-, hfaithful⟩ := faithful_half_sum ha hb
  have hrep (k : Int) (hlow : -(2 ^ 54) - 4 ≤ (k : ℚ) * 4) (hhigh : (k : ℚ) * 4 ≤ 2 ^ 54 + 4) :
      Representable (k * 4) := by
    have hlimit : |k| < 2 ^ 53 := by
      have hcast : (|k| : ℚ) < 2 ^ 53 := abs_lt.mpr ⟨by linarith, by linarith⟩
      exact_mod_cast hcast
    have hpow := representable_mul_pow hlimit 2
    norm_num at hpow
    exact hpow
  obtain ⟨middle, hmiddle⟩ : ∃ q, q = (value a + value b) / 2 := ⟨_, rfl⟩
  have hfloor := Int.floor_le (middle / 4)
  have hfloor' := Int.lt_floor_add_one (middle / 4)
  have hbelow := (hfaithful _ (hrep ⌊middle / 4⌋ (by linarith) (by linarith))).1 (by linarith)
  have habove := (hfaithful _ (hrep (⌊middle / 4⌋ + 1) (by push_cast; linarith)
    (by push_cast; linarith))).2 (by push_cast; linarith)
  push_cast at habove
  rcases h with heq | heq <;> rw [heq] at hbelow habove <;> linarith

-- ---------------------------------------------------------------------------
-- Whole numbers and what is next to them
-- ---------------------------------------------------------------------------

def Exact (n : Nat) : Prop :=
  value (.ofNat n) = n

instance (n : Nat) : Decidable (Exact n) :=
  inferInstanceAs (Decidable (_ = _))

theorem isFinite_of_value_ne_zero {a : Float} (h : value a ≠ 0) : a.isFinite = true := by
  change a.toModel.unpack.isFinite = true
  rw [value] at h
  cases hx : a.toModel.unpack with
  | notANumber => rw [hx] at h; exact absurd rfl h
  | infinity s => rw [hx] at h; exact absurd rfl h
  | zero s => rfl
  | finite s m e hm => rfl

theorem Exact.four_dvd {n : Nat} (h : Exact n) (hn : 2 ^ 54 ≤ n) : 4 ∣ n := by
  have hfinite : (Float.ofNat n).isFinite = true := by
    refine isFinite_of_value_ne_zero ?_
    rw [h]
    exact_mod_cast Nat.ne_of_gt (Nat.lt_of_lt_of_le (by decide) hn)
  obtain ⟨k, e, hk, -, heq⟩ := representable_of_isFinite hfinite
  rw [h] at heq
  have hklimit : (k : ℚ) < 2 ^ 53 := by exact_mod_cast (abs_lt.mp hk).2
  have hnlimit : (2 : ℚ) ^ 54 ≤ n := by exact_mod_cast hn
  have he : 2 ≤ e := by
    by_contra hsmall
    have hpow : (2 : ℚ) ^ e ≤ 2 := by
      simpa using zpow_le_zpow_right₀ (a := (2 : ℚ)) (by norm_num) (show e ≤ 1 by omega)
    have hpos : (0 : ℚ) < 2 ^ e := by positivity
    nlinarith
  obtain ⟨f, rfl⟩ : ∃ f : Nat, e = f + 2 := ⟨(e - 2).toNat, by omega⟩
  have hint : (n : Int) = k * 2 ^ f * 4 := by
    have hcast : (n : ℚ) = (k * 2 ^ f * 4 : Int) := by
      rw [heq, zpow_add₀ (by norm_num), zpow_natCast]
      push_cast
      ring
    exact_mod_cast hcast
  exact Int.natCast_dvd_natCast.mp ⟨k * 2 ^ f, by rw [hint]; push_cast; ring⟩

def Whole (n : Nat) (a : Float) : Prop :=
  Moderate a ∧ value a = n

def Near (n : Nat) (a : Float) : Prop :=
  Moderate a ∧ |value a - n| ≤ 1

theorem Exact.whole {n : Nat} (h : Exact n) (hle : n ≤ 2 ^ 54) : Whole n (.ofNat n) := by
  refine ⟨⟨?_, ?_⟩, h⟩
  · rcases Nat.eq_zero_or_pos n with rfl | hpos
    · decide +kernel
    · refine isFinite_of_value_ne_zero ?_
      rw [h]
      exact_mod_cast Nat.ne_of_gt hpos
  · rw [h, abs_of_nonneg (Nat.cast_nonneg n)]
    exact_mod_cast hle

section

variable {m n : Nat} {a b : Float}

theorem Whole.eq (ha : Whole n a) (hb : Whole n b) (hn : 0 < n) : a = b :=
  eq_of_value_eq ha.1.1 hb.1.1 (ha.2.trans hb.2.symm) (by
    rw [ha.2]
    exact_mod_cast Nat.ne_of_gt hn)

theorem Whole.le_iff (ha : Whole m a) (hb : Whole n b) : a ≤ b ↔ m ≤ n := by
  rw [le_iff_value_le ha.1.1 hb.1.1, ha.2, hb.2]
  exact Nat.cast_le

theorem Whole.lt_iff (ha : Whole m a) (hb : Whole n b) : a < b ↔ m < n := by
  rw [lt_iff_value_lt ha.1.1 hb.1.1, ha.2, hb.2]
  exact Nat.cast_lt

theorem Whole.lt_near (ha : Whole m a) (hb : Near n b) (h : m + 1 < n) : a < b := by
  have hcast : (m : ℚ) + 1 < n := by exact_mod_cast h
  rw [lt_iff_value_lt ha.1.1 hb.1.1, ha.2]
  linarith [(abs_le.mp hb.2).1]

theorem Near.lt_whole (ha : Near m a) (hb : Whole n b) (h : m + 1 < n) : a < b := by
  have hcast : (m : ℚ) + 1 < n := by exact_mod_cast h
  rw [lt_iff_value_lt ha.1.1 hb.1.1, hb.2]
  linarith [(abs_le.mp ha.2).2]

theorem Near.lt_near (ha : Near m a) (hb : Near n b) (h : m + 2 < n) : a < b := by
  have hcast : (m : ℚ) + 2 < n := by exact_mod_cast h
  rw [lt_iff_value_lt ha.1.1 hb.1.1]
  linarith [(abs_le.mp ha.2).2, (abs_le.mp hb.2).1]

/-- Half a sum of whole numbers that is odd is off by one at most. -/
theorem Whole.half_sum {k : Nat} (ha : Whole m a) (hb : Whole n b) (hsum : m + n = 2 * (2 * k + 1))
    (hk : k + 1 < 2 ^ 53) : Near (2 * k + 1) ((a + b) / 2) := by
  have hvalues : value a + value b = 2 * (2 * k + 1) := by
    rw [ha.2, hb.2]
    exact_mod_cast hsum
  obtain ⟨hhalf, hfaithful⟩ := faithful_half_sum ha.1 hb.1
  have hrep (j : Nat) (hj : j < 2 ^ 53) : Representable (j * 2) := by
    simpa using representable_mul_pow (k := j) (by rw [abs_lt]; omega) 1
  have hlow := (hfaithful _ (hrep k (by omega))).1 (by linarith)
  have hhigh := (hfaithful _ (hrep (k + 1) hk)).2 (by push_cast; linarith)
  push_cast at hhigh
  refine ⟨ha.1.half_sum hb.1, abs_le.mpr ⟨?_, ?_⟩⟩ <;> push_cast <;> linarith

theorem Near.le_sub (ha : Near m a) (hb : Near n b) {k : Int} (hk : |k| < 2 ^ 53)
    (h : k + 2 ≤ (n : Int) - m) : k ≤ value (b - a) := by
  have hcast : (k : ℚ) + 2 ≤ n - m := by exact_mod_cast h
  obtain ⟨-, hahigh⟩ := abs_le.mp ha.2
  obtain ⟨hblow, -⟩ := abs_le.mp hb.2
  exact le_sub_of_le ha.1 hb.1 (representable_intCast hk) (by linarith)

theorem Near.sub_le (ha : Near m a) (hb : Near n b) {k : Int} (hk : |k| < 2 ^ 53)
    (h : (n : Int) - m + 2 ≤ k) : value (b - a) ≤ k := by
  have hcast : (n : ℚ) - m + 2 ≤ k := by exact_mod_cast h
  obtain ⟨halow, -⟩ := abs_le.mp ha.2
  obtain ⟨-, hbhigh⟩ := abs_le.mp hb.2
  exact sub_le_of_le ha.1 hb.1 (representable_intCast hk) (by linarith)

end

theorem value_sub_self {a : Float} (h : Moderate a) : value (a - a) = 0 := by
  have hzero : Representable 0 := by simpa using representable_intCast (k := 0) (by decide)
  exact le_antisymm (sub_le_of_le h h hzero (sub_self _).le)
    (le_sub_of_le h h hzero (sub_self _).ge)

end GlyphTable.Binary64
