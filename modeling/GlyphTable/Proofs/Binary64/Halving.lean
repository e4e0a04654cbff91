import GlyphTable.Proofs.Binary64.Overflow

/-!
# Halving an interval

Half the sum of the ends of an interval divides it into two. Rounding puts that anywhere
between the ends, even onto one of them, and then dividing goes no further (`Stuck`).
Otherwise neither part is wider than five sixths of the interval (`Narrow.parts`): to be
further from the middle the rounded half would have passed the number next to it.
-/

namespace GlyphTable.Binary64

open Float.Model (UnpackedFloat)
open Float.Model.UnpackedFloat (Sign)

-- ---------------------------------------------------------------------------
-- The next number
-- ---------------------------------------------------------------------------

theorem exists_next_of_unit_le {n e : Int} (hn : |n| < 2 ^ 53) (he : -1074 ≤ e) {gap : ℚ}
    (hgap : 2 ^ e ≤ gap) : ∃ r, Representable r ∧ n * 2 ^ e < r ∧ r - n * 2 ^ e ≤ gap := by
  have hunit : (0 : ℚ) < 2 ^ e := by positivity
  refine ⟨((n + 1 : Int) : ℚ) * 2 ^ e, ?_, by push_cast; linarith, by push_cast; linarith⟩
  rw [abs_lt] at hn
  by_cases hlast : n + 1 = 2 ^ 53
  · refine ⟨2 ^ 52, e + 1, by norm_num, by omega, ?_⟩
    rw [hlast, zpow_add_one₀ (by norm_num)]
    push_cast
    ring
  · exact ⟨n + 1, e, abs_lt.mpr ⟨by omega, by omega⟩, he, rfl⟩

theorem unit_le_sub {m n e f : Int} (hfe : e ≤ f) (h : (m : ℚ) * 2 ^ f < n * 2 ^ e) :
    (2 : ℚ) ^ e ≤ n * 2 ^ e - m * 2 ^ f := by
  have hunit : (0 : ℚ) < 2 ^ e := by positivity
  have hsame : (m : ℚ) * 2 ^ f = ((m * 2 ^ (f - e).toNat : Int) : ℚ) * 2 ^ e := by
    have hexponent : f = ((f - e).toNat : Int) + e := by omega
    nth_rewrite 1 [hexponent]
    rw [zpow_add₀ (by norm_num), zpow_natCast]
    push_cast
    ring
  rw [hsame] at h ⊢
  have hlt : m * 2 ^ (f - e).toNat + 1 ≤ n := by
    exact_mod_cast lt_of_mul_lt_mul_right h hunit.le
  have hle : ((m * 2 ^ (f - e).toNat + 1 : Int) : ℚ) * 2 ^ e ≤ n * 2 ^ e := by
    gcongr
  rw [Int.cast_add, Int.cast_one, add_mul, one_mul] at hle
  linarith

/-- What has a lesser unit than a number of full mantissa is half a unit below it at least. -/
theorem unit_le_sub_of_full {m n e f : Int} (hm : |m| < 2 ^ 53) (hn : 2 ^ 52 ≤ |n|) (hfe : f < e)
    (h : (m : ℚ) * 2 ^ f < n * 2 ^ e) : (2 : ℚ) ^ e ≤ 2 * (n * 2 ^ e - m * 2 ^ f) := by
  have hhalf : (2 : ℚ) ^ e = 2 * 2 ^ (e - 1) := by
    rw [zpow_sub_one₀ (by norm_num)]
    ring
  have hunit : (0 : ℚ) < 2 ^ (e - 1) := by positivity
  have hgrid : |(m : ℚ) * 2 ^ f| ≤ (2 ^ 53 - 1) * 2 ^ (e - 1) := by
    have hm' : |(m : ℚ)| ≤ 2 ^ 53 - 1 := by exact_mod_cast Int.le_sub_one_of_lt hm
    rw [abs_mul, abs_of_pos (by positivity : (0 : ℚ) < 2 ^ f)]
    gcongr
    · norm_num
    · omega
  obtain ⟨hlow, hhigh⟩ := abs_le.mp hgrid
  rw [hhalf] at h ⊢
  rcases le_abs.mp hn with hpos | hneg
  · have hn' : (2 : ℚ) ^ 52 ≤ n := by exact_mod_cast hpos
    nlinarith
  · have hn' : (2 : ℚ) ^ 52 ≤ -n := by exact_mod_cast hneg
    nlinarith

theorem Representable.exists_next {p q : ℚ} (hp : Representable p) (hq : Representable q)
    (h : p < q) : ∃ r, Representable r ∧ q < r ∧ r - q ≤ 2 * (q - p) := by
  obtain ⟨m, f, hm, hf, rfl⟩ := hp
  obtain ⟨n, e, hn, he, rfl⟩ := hq
  -- `q` is written with half the unit until `p` has no lesser one, or its mantissa is full.
  obtain ⟨k, hk⟩ : ∃ k : Nat, e ≤ f + k := ⟨(e - f).toNat, by omega⟩
  induction k generalizing n e with
  | zero =>
    have hunit : (0 : ℚ) < 2 ^ e := by positivity
    exact exists_next_of_unit_le hn he (by linarith [unit_le_sub (by omega) h])
  | succ k ih =>
    by_cases hcoarse : e ≤ f + k
    · exact ih n e hn he h hcoarse
    by_cases hfull : 2 ^ 52 ≤ |n|
    · exact exists_next_of_unit_le hn he (unit_le_sub_of_full hm hfull (by omega) h)
    · have hsame : (n : ℚ) * 2 ^ e = ((2 * n : Int) : ℚ) * 2 ^ (e - 1) := by
        rw [zpow_sub_one₀ (by norm_num)]
        push_cast
        ring
      rw [hsame] at h ⊢
      refine ih (2 * n) (e - 1) ?_ (by omega) h (by omega)
      rw [abs_mul, abs_two]
      omega

/-- The part above a rounded middle that is not the lower end. -/
theorem Faithful.above_le {p q c : ℚ} (hp : Representable p) (hc : Representable c)
    (h : Faithful ((p + q) / 2) c) (hpc : p < c) : q - c ≤ 5 / 6 * (q - p) := by
  by_cases hmiddle : (p + q) / 2 ≤ c
  · linarith
  · obtain ⟨r, hr, hcr, hgap⟩ := hp.exists_next hc hpc
    have hpassed : (p + q) / 2 < r := by
      by_contra hnot
      exact absurd ((h r hr).1 (not_lt.mp hnot)) (not_le.mpr hcr)
    linarith

theorem Faithful.below_le {p q c : ℚ} (hq : Representable q) (hc : Representable c)
    (h : Faithful ((p + q) / 2) c) (hcq : c < q) : c - p ≤ 5 / 6 * (q - p) := by
  have hneg : Faithful ((-q + -p) / 2) (-c) := by
    have hmiddle : (-q + -p) / 2 = -((p + q) / 2) := by ring
    rw [hmiddle]
    exact h.neg
  have habove := hneg.above_le hq.neg hc.neg (neg_lt_neg hcq)
  linarith

-- ---------------------------------------------------------------------------
-- Numbers at one place
-- ---------------------------------------------------------------------------

theorem eq_of_place_eq {a b : Float} (h : place a = place b) (hne : place a ≠ 0) : a = b := by
  have hnumber {c : Float} (hc : place c ≠ 0) : c.toModel.unpack ≠ .notANumber := by
    intro hnan
    rw [place, hnan] at hc
    exact hc rfl
  obtain ⟨hapos, -, habits⟩ := toBits_eq (hnumber hne)
  obtain ⟨hbpos, -, hbbits⟩ := toBits_eq (hnumber (h ▸ hne))
  have hbits : (a.toModel.toBits.toNat : Int) = b.toModel.toBits.toNat := by
    rw [habits, hbbits]
    rw [place, place, Unpacked.place, Unpacked.place] at h
    rw [place, Unpacked.place] at hne
    cases hs : Unpacked.sign a.toModel.unpack <;> cases ht : Unpacked.sign b.toModel.unpack <;>
      rw [hs] at h hne <;> rw [ht] at h <;> simp only [Sign.apply, signBits] at * <;> omega
  cases a with | ofModel a
  cases b with | ofModel b
  cases a
  cases b
  congr
  exact UInt64.toNat_inj.mp (Int.ofNat.inj hbits)

theorem place_eq_iff {a b : Float} (ha : a.isFinite = true) (hb : b.isFinite = true) :
    place a = place b ↔ value a = value b := by
  have hle := le_iff_value_le ha hb
  have hge := le_iff_value_le hb ha
  simp only [le_iff, isNumber_of_isFinite ha, isNumber_of_isFinite hb, true_and] at hle hge
  rw [Int.le_antisymm_iff, hle, hge, ← le_antisymm_iff]

theorem eq_of_value_eq {a b : Float} (ha : a.isFinite = true) (hb : b.isFinite = true)
    (h : value a = value b) (hne : value a ≠ 0) : a = b := by
  have hzero : place a = 0 ↔ value a = 0 := place_eq_iff (b := 0) ha rfl
  exact eq_of_place_eq ((place_eq_iff ha hb).mpr h) fun h => hne (hzero.mp h)

theorem eq_of_infinity {a b : Float} {s : Sign} (ha : a.toModel.unpack = .infinity s)
    (hb : b.toModel.unpack = .infinity s) : a = b := by
  refine eq_of_place_eq ?_ ?_
  · rw [place, place, ha, hb]
  · rw [place, ha]
    cases s <;> decide

-- ---------------------------------------------------------------------------
-- Intervals
-- ---------------------------------------------------------------------------

/-- Whether rounding puts the middle onto an end. -/
def Stuck (a b : Float) : Prop :=
  (a + b) / 2 = a ∨ (a + b) / 2 = b

section

variable {a b c : Float}

theorem stuck_or_isFinite (h : IsNumber (a + b)) :
    Stuck a b ∨ a.isFinite = true ∧ b.isFinite = true := by
  obtain ⟨ha, hb⟩ := isNumber_of_add h
  rcases finite_or_infinity ha with hafinite | ⟨s, hs⟩
  · rcases finite_or_infinity hb with hbfinite | ⟨s, hs⟩
    · exact .inr ⟨hafinite, hbfinite⟩
    · rw [add_comm] at h
      refine .inl (.inr ?_)
      rw [add_comm]
      exact eq_of_infinity (unpack_half_sum_infinity h hs) hs
  · exact .inl (.inl (eq_of_infinity (unpack_half_sum_infinity h hs) hs))

/-- A middle that is not put onto an end is away from both, as long as the ends are
two of the least steps apart. -/
theorem lt_half_sum_lt (ha : a.isFinite = true) (hb : b.isFinite = true)
    (hwide : 2 * 2 ^ (-1074 : Int) ≤ value b - value a) (hfree : ¬ Stuck a b)
    (hhalf : ((a + b) / 2).isFinite = true)
    (hfaithful : Faithful ((value a + value b) / 2) (value ((a + b) / 2))) :
    value a < value ((a + b) / 2) ∧ value ((a + b) / 2) < value b := by
  have hstep : (0 : ℚ) < 2 ^ (-1074 : Int) := by positivity
  have hleast : Representable (2 ^ (-1074 : Int)) := ⟨1, -1074, by decide, by decide, by simp⟩
  obtain ⟨hlow, hhigh⟩ := hfaithful.between (representable_of_isFinite ha)
    (representable_of_isFinite hb) (by linarith)
  refine ⟨lt_of_le_of_ne hlow fun heq => hfree (.inl ?_),
    lt_of_le_of_ne hhigh fun heq => hfree (.inr ?_)⟩
  · refine (eq_of_value_eq ha hhalf heq fun hzero => ?_).symm
    have hge := (hfaithful _ hleast).1 (by linarith)
    linarith
  · refine eq_of_value_eq hhalf hb heq fun hzero => ?_
    have hle := (hfaithful _ hleast.neg).2 (by linarith)
    linarith

/-- Whether dividing goes no further, or the interval is no wider than given. -/
def Narrow (w : ℚ) (a b : Float) : Prop :=
  Stuck a b ∨ a.isFinite = true ∧ b.isFinite = true ∧ value b - value a ≤ w

theorem Narrow.mono {w w' : ℚ} (h : Narrow w a b) (hle : w ≤ w') : Narrow w' a b :=
  h.imp_right fun ⟨ha, hb, hw⟩ => ⟨ha, hb, hw.trans hle⟩

theorem narrow_of_isNumber (h : IsNumber (a + b)) : Narrow (2 ^ 54 * 2 ^ (971 : Int)) a b := by
  refine (stuck_or_isFinite h).imp_right fun ⟨ha, hb⟩ => ⟨ha, hb, ?_⟩
  have halow := (abs_lt.mp (abs_value_lt ha)).1
  have hbhigh := (abs_lt.mp (abs_value_lt hb)).2
  linarith

theorem Narrow.parts {w : ℚ} (h : Narrow w a b) (hfree : ¬ Stuck a b)
    (hwide : 2 * 2 ^ (-1074 : Int) ≤ value b - value a) :
    Narrow (5 / 6 * w) a ((a + b) / 2) ∧ Narrow (5 / 6 * w) ((a + b) / 2) b := by
  obtain ⟨ha, hb, hw⟩ := h.resolve_left hfree
  have hadd := roundedTo_add ha hb
  obtain ⟨-, hbelow, habove⟩ := isNumber_half_sum hadd.isNumber
  by_cases hhalf : ((a + b) / 2).isFinite = true
  · have hsum := isFinite_of_half hadd.isNumber hhalf
    have hfaithful := (hadd.faithful hsum).half ((roundedTo_half hsum).faithful hhalf)
    obtain ⟨hlow, hhigh⟩ := lt_half_sum_lt ha hb hwide hfree hhalf hfaithful
    have hrep := representable_of_isFinite hhalf
    refine ⟨.inr ⟨ha, hhalf, ?_⟩, .inr ⟨hhalf, hb, ?_⟩⟩
    · exact (hfaithful.below_le (representable_of_isFinite hb) hrep hhigh).trans (by gcongr)
    · exact (hfaithful.above_le (representable_of_isFinite ha) hrep hlow).trans (by gcongr)
  · exact ⟨.inl ((stuck_or_isFinite hbelow).resolve_right fun h => hhalf h.2),
      .inl ((stuck_or_isFinite habove).resolve_right fun h => hhalf h.1)⟩

/-- Of the parts of an interval that is divided no further, one has no width, and the other is
the interval. -/
theorem Stuck.part_eq (h : Stuck a b) :
    (0 < (a + b) / 2 - a → (a + b) / 2 = b) ∧ (0 < b - (a + b) / 2 → (a + b) / 2 = a) := by
  constructor <;> intro hwidth
  · refine h.resolve_left fun heq => ?_
    rw [heq] at hwidth
    exact lt_irrefl a (lt_of_sub_pos hwidth)
  · refine h.resolve_right fun heq => ?_
    rw [heq] at hwidth
    exact lt_irrefl b (lt_of_sub_pos hwidth)

end

end GlyphTable.Binary64
