import GlyphTable.Proofs.Binary64.Whole

/-!
# Results keep the order of the numbers they come from

Results are rounded to nearest, so a greater exact result is never rounded to a lesser number, also
where one of the two is too great to be finite. Of equal exact results only the signs of zeros can
differ. So products keep the order of their factors (`Binary64.mul_le_mul_right`), and differences
that of the distances (`Binary64.sub_le_sub`).
-/

namespace GlyphTable.Binary64

open Float.Model (UnpackedFloat Format)
open Float.Model.UnpackedFloat (Sign)
open Unpacked (Finite HasSign)

variable {a b c : Float} {x y : UnpackedFloat}

theorem finite_or_beyond (hx : Finite x) (ha : a.toModel.unpack = (Float.Model.pack x).unpack) :
    a.isFinite = true ∧ value a = Unpacked.value x ∨
      ∃ s, a.toModel.unpack = .infinity s ∧
        2 ^ 53 * 2 ^ (971 : Int) ≤ signed s (Unpacked.value x) := by
  obtain ⟨s, m, e, hcanonical, rfl⟩ := hx
  rw [unpack_pack hcanonical] at ha
  by_cases he : e ≤ 971
  · rw [if_pos he] at ha
    exact .inl ⟨isFinite_of_finite ⟨s, m, e, hcanonical, ha⟩, congrArg Unpacked.value ha⟩
  · rw [if_neg he] at ha
    have htwice : signed s (signed s ((m : ℚ) * 2 ^ e)) = m * 2 ^ e := by
      cases s
      · exact neg_neg _
      · rfl
    refine .inr ⟨s, ha, ?_⟩
    rw [value_ofMantissa, htwice]
    exact le_value_of_overflow hcanonical (by omega)

theorem beq_iff : a == b ↔ a ≤ b ∧ b ≤ a := by
  have hcompare : a == b ↔ a.toModel.unpack.compare b.toModel.unpack = some .eq := by
    change (a.toModel.unpack.compare b.toModel.unpack == some .eq) = true ↔ _
    rw [beq_iff_eq]
  rw [hcompare, compare_eq_some_iff, Int.compare_eq_eq, le_iff, le_iff]
  exact ⟨fun ⟨ha, hb, h⟩ => ⟨⟨ha, hb, h.le⟩, hb, ha, h.ge⟩,
    fun ⟨⟨ha, hb, hle⟩, _, _, hge⟩ => ⟨ha, hb, Int.le_antisymm hle hge⟩⟩

theorem beq_iff_value_eq (ha : a.isFinite = true) (hb : b.isFinite = true) :
    a == b ↔ value a = value b := by
  rw [beq_iff, le_iff_value_le ha hb, le_iff_value_le hb ha, ← le_antisymm_iff]

theorem pack_le_pack (hx : Finite x) (hy : Finite y) (hle : Unpacked.value x ≤ Unpacked.value y)
    (ha : a.toModel.unpack = (Float.Model.pack x).unpack)
    (hb : b.toModel.unpack = (Float.Model.pack y).unpack) : a ≤ b := by
  rcases finite_or_beyond hx ha with ⟨ha, hvaluea⟩ | ⟨s, ha, hbeyonda⟩ <;>
    rcases finite_or_beyond hy hb with ⟨hb, hvalueb⟩ | ⟨t, hb, hbeyondb⟩
  · rw [le_iff_value_le ha hb, hvaluea, hvalueb]
    exact hle
  · cases t with
    | positive => exact le_of_infinity (isNumber_of_isFinite ha) hb
    | negative =>
      have hlimit := (abs_lt.mp (abs_value_lt ha)).1
      simp only [signed] at hbeyondb
      linarith
  · cases s with
    | positive =>
      have hlimit := (abs_lt.mp (abs_value_lt hb)).2
      simp only [signed] at hbeyonda
      linarith
    | negative => exact infinity_le ha (isNumber_of_isFinite hb)
  · cases s with
    | negative => exact infinity_le ha (isNumber_of_infinity hb)
    | positive =>
      cases t with
      | positive => exact le_of_infinity (isNumber_of_infinity ha) hb
      | negative =>
        have hlimit : (0 : ℚ) < 2 ^ 53 * 2 ^ (971 : Int) := by positivity
        have hbeyonda : _ ≤ Unpacked.value x := hbeyonda
        have hbeyondb : _ ≤ -Unpacked.value y := hbeyondb
        generalize (2 : ℚ) ^ 53 * 2 ^ (971 : Int) = limit at *
        linarith

-- ---------------------------------------------------------------------------
-- Products
-- ---------------------------------------------------------------------------

theorem unpack_mul_infinity (ha : 0 < a) (hc : c.toModel.unpack = .infinity .positive) :
    (a * c).toModel.unpack = .infinity .positive := by
  have hsign := pos_iff.mp ha
  have hmul : UnpackedFloat.mul Format.binary64 a.toModel.unpack c.toModel.unpack =
      .infinity .positive := by
    rw [hc]
    cases hx : a.toModel.unpack with
    | notANumber => rw [hx] at hsign; cases hsign
    | zero s => rw [hx] at hsign; cases hsign
    | infinity s =>
      rw [hx] at hsign
      obtain rfl : s = .positive := hsign
      rfl
    | finite s m e hm =>
      rw [hx] at hsign
      obtain rfl : s = .positive := hsign
      rfl
  exact unpack_of_pack (congrArg Float.Model.pack hmul) trivial

theorem mul_le_mul_right (ha : a.isFinite = true) (hb : b.isFinite = true)
    (hpos : 0 < a) (hab : a ≤ b)
    (hc : 0 < c) : a * c ≤ b * c := by
  rcases finite_or_infinity (lt_iff.mp hc).2.1 with hcfinite | ⟨s, hinfinite⟩
  · have hplace : 0 < place a := (lt_iff.mp hpos).2.2
    obtain ⟨hnumbera, hnumberb, hle⟩ := le_iff.mp hab
    rcases hle.eq_or_lt with heq | hlt
    · rw [eq_of_place_eq heq hplace.ne']
      exact le_refl (roundedTo_mul hb hcfinite).isNumber
    · have hvalue := (lt_iff_value_lt ha hb).mp (lt_iff.mpr ⟨hnumbera, hnumberb, hlt⟩)
      have hcvalue : 0 < value c := (lt_iff_value_lt (a := 0) rfl hcfinite).mp hc
      obtain ⟨hx, hnearx⟩ := nearest_mul (finite_unpack ha) (finite_unpack hcfinite)
      obtain ⟨hy, hneary⟩ := nearest_mul (finite_unpack hb) (finite_unpack hcfinite)
      refine pack_le_pack hx hy ?_ rfl rfl
      exact hnearx.le_of_lt hneary (representable_value hx) (representable_value hy)
        (mul_lt_mul_of_pos_right hvalue hcvalue)
  · obtain rfl : s = .positive := by
      have hsign := pos_iff.mp hc
      rwa [hinfinite] at hsign
    exact le_of_infinity (isNumber_of_infinity (unpack_mul_infinity hpos hinfinite))
      (unpack_mul_infinity (lt_of_lt_of_le hpos hab) hinfinite)

-- ---------------------------------------------------------------------------
-- Differences
-- ---------------------------------------------------------------------------

theorem sub_self_eq_zero (ha : a.isFinite = true) : a - a = 0 := by
  have hsub : UnpackedFloat.sub Format.binary64 a.toModel.unpack a.toModel.unpack =
      .zero .positive := by
    have ha : a.toModel.unpack.isFinite = true := ha
    cases hx : a.toModel.unpack with
    | notANumber => rw [hx] at ha; cases ha
    | infinity s => rw [hx] at ha; cases ha
    | zero s => cases s <;> rfl
    | finite s m e hm =>
      simp only [UnpackedFloat.sub, Int.sub_self]
      rfl
  exact congrArg (fun x => Float.ofModel (Float.Model.pack x)) hsub

/-- A difference that is a number of the format is not rounded, but for the sign of zero. -/
theorem place_sub_eq {z : Float} (ha : a.isFinite = true) (hb : b.isFinite = true)
    (hz : z.isFinite = true)
    (hvalue : value a - value b = value z) : place (a - b) = place z := by
  have hround := roundedTo_sub ha hb
  rw [hvalue] at hround
  exact hround.place_eq hz

theorem place_sub_congr {a' b' : Float} (ha : a.isFinite = true) (hb : b.isFinite = true)
    (ha' : a'.isFinite = true) (hb' : b'.isFinite = true) (hvaluea : value a = value a')
    (hvalueb : value b = value b') : place (a - b) = place (a' - b') := by
  by_cases hzeroa : value a = 0
  · rw [place_sub_eq ha hb (isFinite_neg hb) (by rw [hzeroa, zero_sub, value_neg]),
      place_sub_eq ha' hb' (isFinite_neg hb) (by rw [← hvaluea, hzeroa, zero_sub,
        value_neg, hvalueb])]
  by_cases hzerob : value b = 0
  · rw [place_sub_eq ha hb ha (by rw [hzerob, sub_zero]),
      place_sub_eq ha' hb' ha (by rw [← hvalueb, hzerob, sub_zero, hvaluea])]
  · rw [eq_of_value_eq ha ha' hvaluea hzeroa, eq_of_value_eq hb hb' hvalueb hzerob]

theorem sub_le_sub {a' b' : Float} (ha : a.isFinite = true) (hb : b.isFinite = true)
    (ha' : a'.isFinite = true) (hb' : b'.isFinite = true) (hle : a ≤ a') (hge : b' ≤ b) :
    a - b ≤ a' - b' := by
  have hvaluea := (le_iff_value_le ha ha').mp hle
  have hvalueb := (le_iff_value_le hb' hb).mp hge
  have hexact : value a - value b ≤ value a' - value b' := by linarith
  rcases hexact.lt_or_eq with hlt | heq
  · obtain ⟨hx, hnearx⟩ := nearest_sub ha hb
    obtain ⟨hy, hneary⟩ := nearest_sub ha' hb'
    exact pack_le_pack hx hy
      (hnearx.le_of_lt hneary (representable_value hx) (representable_value hy) hlt) rfl rfl
  · have hplace := place_sub_congr ha hb ha' hb' (by linarith) (by linarith)
    exact le_iff.mpr ⟨(roundedTo_sub ha hb).isNumber, (roundedTo_sub ha' hb').isNumber, hplace.le⟩

-- ---------------------------------------------------------------------------
-- Quotients
-- ---------------------------------------------------------------------------

theorem value_one : value 1 = 1 := by
  decide +kernel

theorem value_pos_of_not_le_zero (ha : a.isFinite = true) (h : ¬ a ≤ 0) : 0 < value a :=
  lt_of_not_ge fun hle => h ((le_iff_value_le (b := 0) ha rfl).mpr hle)

theorem div_beq_div (ha : a.isFinite = true) (hb : b.isFinite = true) (hc : c.isFinite = true)
    (hne : value c ≠ 0) (h : a == b) : a / c == b / c := by
  have hvalue := (beq_iff_value_eq ha hb).mp h
  by_cases hzero : value a = 0
  · have hnull {x : Float} (hx : x.isFinite = true) (hxzero : value x = 0) :
        (x / c).isFinite = true ∧ value (x / c) = value 0 := by
      have hround := roundedTo_div hx hc hne
      rw [hxzero, zero_div] at hround
      exact hround.value_eq (z := 0) rfl
    obtain ⟨hafinite, havalue⟩ := hnull ha hzero
    obtain ⟨hbfinite, hbvalue⟩ := hnull hb (hvalue ▸ hzero)
    exact (beq_iff_value_eq hafinite hbfinite).mpr (havalue.trans hbvalue.symm)
  · obtain rfl := eq_of_value_eq ha hb hvalue hzero
    have hnumber := (roundedTo_div ha hc hne).isNumber
    exact beq_iff.mpr ⟨le_refl hnumber, le_refl hnumber⟩

theorem div_self_eq_one (ha : a.isFinite = true) (hne : value a ≠ 0) : a / a = 1 := by
  have hround := roundedTo_div ha ha hne
  rw [div_self hne, ← value_one] at hround
  obtain ⟨hfinite, hvalue⟩ := hround.value_eq rfl
  exact eq_of_value_eq hfinite rfl hvalue (by rw [hvalue, value_one]; exact one_ne_zero)

end GlyphTable.Binary64
