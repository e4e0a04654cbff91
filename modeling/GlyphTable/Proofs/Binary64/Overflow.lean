import GlyphTable.Proofs.Binary64.Signs

/-!
# Rounding when results overflow

A sum, a difference or a product of finite numbers may be infinite. Still no finite number
lies strictly between the exact result and the rounded one (`RoundedTo`), so whoever
compares with finite numbers need not know whether it overflowed. Half the sum of two
numbers lies between them as long as it is finite itself (`between_of_isFinite`).
-/

namespace GlyphTable.Binary64

open Float.Model (UnpackedFloat Format)
open Float.Model.UnpackedFloat (Sign)
open Unpacked (Finite Rounds RoundsNearest ofMantissa)

-- ---------------------------------------------------------------------------
-- Opposite and absolute numbers
-- ---------------------------------------------------------------------------

theorem unpack_pack_canonical {x : UnpackedFloat} (h : Unpacked.Canonical x) :
    (Float.Model.pack x).unpack = x := by
  cases x with
  | notANumber => exact unpack_packComponents _ _ _
  | infinity s => exact unpack_packComponents _ _ _
  | zero s => exact unpack_packComponents _ _ _
  | finite s m e hm =>
    have hpack := unpack_pack (s := s) h.1
    rw [if_pos h.2] at hpack
    rwa [ofMantissa, dif_neg (Nat.ne_of_gt hm)] at hpack

theorem unpack_neg (a : Float) : (-a).toModel.unpack = a.toModel.unpack.neg := by
  refine unpack_pack_canonical ?_
  have h := canonical_unpack a.toModel
  cases hx : a.toModel.unpack <;> rw [hx] at h <;> exact h

theorem unpack_abs (a : Float) : a.abs.toModel.unpack = a.toModel.unpack.abs := by
  refine unpack_pack_canonical ?_
  have h := canonical_unpack a.toModel
  cases hx : a.toModel.unpack <;> rw [hx] at h <;> exact h

theorem isFinite_neg {a : Float} (h : a.isFinite = true) : (-a).isFinite = true := by
  change (-a).toModel.unpack.isFinite = true
  have h : a.toModel.unpack.isFinite = true := h
  rw [unpack_neg]
  cases hx : a.toModel.unpack <;> rw [hx] at h <;> exact h

theorem place_neg (a : Float) : place (-a) = -place a := by
  rw [place, place, unpack_neg]
  cases a.toModel.unpack with
  | notANumber => rfl
  | infinity s => exact apply_neg s _
  | zero s => exact apply_neg s _
  | finite s m e hm => exact apply_neg s _

theorem value_neg (a : Float) : value (-a) = -value a := by
  rw [value, value, unpack_neg]
  cases a.toModel.unpack with
  | finite s m e hm =>
    cases s with
    | negative => exact (neg_neg _).symm
    | positive => rfl
  | _ => exact neg_zero.symm

theorem Unpacked.abs_value {s : Sign} {m : Nat} {e : Int} (hm : 0 < m) :
    |Unpacked.value (.finite s m e hm)| = m * 2 ^ e := by
  have hpos : (0 : ℚ) ≤ m * 2 ^ e := by positivity
  cases s
  · exact (abs_neg _).trans (abs_of_nonneg hpos)
  · exact abs_of_nonneg hpos

theorem isFinite_abs {a : Float} (h : a.isFinite = true) : a.abs.isFinite = true := by
  change a.abs.toModel.unpack.isFinite = true
  have h : a.toModel.unpack.isFinite = true := h
  rw [unpack_abs]
  cases hx : a.toModel.unpack <;> rw [hx] at h <;> exact h

theorem value_abs (a : Float) : value a.abs = |value a| := by
  rw [value, value, unpack_abs]
  cases a.toModel.unpack with
  | finite s m e hm =>
    rw [Unpacked.abs_value]
    rfl
  | _ => exact abs_zero.symm

theorem steps_nonneg {x : UnpackedFloat} (h : Unpacked.Canonical x) : 0 ≤ Unpacked.steps x := by
  cases x with
  | notANumber => exact Int.le_refl 0
  | infinity s => exact (by decide : (0 : Int) ≤ 2047 * 2 ^ 52)
  | zero s => exact Int.le_refl 0
  | finite s m e hm => exact (Unpacked.steps_finite_pos h.1 hm).le

theorem place_abs (a : Float) : place a.abs = |place a| := by
  have hsteps := steps_nonneg (canonical_unpack a.toModel)
  have hplace :
    place a = (Unpacked.sign a.toModel.unpack).apply (Unpacked.steps a.toModel.unpack) := rfl
  have habs : place a.abs = Unpacked.steps a.toModel.unpack := by
    rw [place, unpack_abs]
    cases a.toModel.unpack <;> rfl
  rw [habs, hplace]
  cases Unpacked.sign a.toModel.unpack with
  | positive => exact (abs_of_nonneg hsteps).symm
  | negative => exact (abs_of_nonpos (Int.neg_nonpos_of_nonneg hsteps)).symm ▸ (neg_neg _).symm

theorem isNumber_abs {a : Float} (h : IsNumber a.abs) : IsNumber a := by
  intro hnan
  rw [IsNumber, unpack_abs, hnan] at h
  exact h rfl

-- ---------------------------------------------------------------------------
-- Infinite numbers
-- ---------------------------------------------------------------------------

theorem Unpacked.place_between_infinities {x : UnpackedFloat} (h : Unpacked.Canonical x) :
    Unpacked.place (.infinity .negative) ≤ Unpacked.place x ∧
      Unpacked.place x ≤ Unpacked.place (.infinity .positive) := by
  cases x with
  | notANumber => decide
  | infinity s => cases s <;> decide
  | zero s => cases s <;> decide
  | finite s m e hm =>
    exact (Unpacked.place_finite_between s h.1 h.2 hm).imp Int.le_of_lt Int.le_of_lt

theorem place_lt_of_isFinite {a : Float} (h : a.isFinite = true) :
    Unpacked.place (.infinity .negative) < place a ∧
      place a < Unpacked.place (.infinity .positive) := by
  have hcanonical := canonical_unpack a.toModel
  have h : a.toModel.unpack.isFinite = true := h
  rw [place]
  cases hx : a.toModel.unpack with
  | notANumber =>
    rw [hx] at h
    cases h
  | infinity s =>
    rw [hx] at h
    cases h
  | zero s =>
    rw [Unpacked.place_zero]
    decide
  | finite s m e hm =>
    rw [hx] at hcanonical
    exact Unpacked.place_finite_between s hcanonical.1 hcanonical.2 hm

theorem le_of_infinity {a b : Float} (ha : IsNumber a)
    (hb : b.toModel.unpack = .infinity .positive) :
    a ≤ b := by
  refine le_iff.mpr ⟨ha, by simp [IsNumber, hb], ?_⟩
  rw [place, place, hb]
  exact (Unpacked.place_between_infinities (canonical_unpack _)).2

theorem infinity_le {a b : Float} (ha : a.toModel.unpack = .infinity .negative) (hb : IsNumber b) :
    a ≤ b := by
  refine le_iff.mpr ⟨by simp [IsNumber, ha], hb, ?_⟩
  rw [place, place, ha]
  exact (Unpacked.place_between_infinities (canonical_unpack _)).1

theorem finite_or_infinity {a : Float} (h : IsNumber a) :
    a.isFinite = true ∨ ∃ s, a.toModel.unpack = .infinity s := by
  cases hx : a.toModel.unpack with
  | notANumber => exact absurd hx h
  | infinity s => exact .inr ⟨s, rfl⟩
  | zero s => exact .inl (isFinite_of_finite (hx ▸ finite_zero s))
  | finite s m e hm =>
    refine .inl ?_
    change a.toModel.unpack.isFinite = true
    rw [hx]
    rfl

theorem ne_infinity_of_isFinite {a : Float} (h : a.isFinite = true) (s : Sign) :
    a.toModel.unpack ≠ .infinity s := by
  intro hinfinite
  have h : a.toModel.unpack.isFinite = true := h
  rw [hinfinite] at h
  cases h

theorem abs_value_lt {a : Float} (h : a.isFinite = true) :
    |value a| < 2 ^ 53 * 2 ^ (971 : Int) := by
  have hcanonical := canonical_unpack a.toModel
  have h : a.toModel.unpack.isFinite = true := h
  rw [value]
  cases hx : a.toModel.unpack with
  | notANumber => rw [hx] at h; cases h
  | infinity s => rw [hx] at h; cases h
  | zero s =>
    rw [value_zero, abs_zero]
    positivity
  | finite s m e hm =>
    rw [hx] at hcanonical
    obtain ⟨⟨hlt, -, -⟩, he⟩ := hcanonical
    have hm' : (m : ℚ) < 2 ^ 53 := by exact_mod_cast hlt
    rw [Unpacked.abs_value]
    calc (m : ℚ) * 2 ^ e < 2 ^ 53 * 2 ^ e := by gcongr
      _ ≤ 2 ^ 53 * 2 ^ (971 : Int) := by
        gcongr
        norm_num

theorem le_value_of_overflow {m : Nat} {e : Int} (h : Canonical m e) (he : 971 < e) :
    (2 : ℚ) ^ 53 * 2 ^ (971 : Int) ≤ m * 2 ^ e := by
  have hm : (2 : ℚ) ^ 52 ≤ m := by exact_mod_cast h.2.2.resolve_right (by omega)
  calc (2 : ℚ) ^ 53 * 2 ^ (971 : Int) = 2 ^ 52 * 2 ^ (971 + 1 : Int) := by
        rw [zpow_add_one₀ (by norm_num)]
        ring
    _ ≤ (m : ℚ) * 2 ^ e := by
      gcongr
      · norm_num
      · omega

-- ---------------------------------------------------------------------------
-- Results of operations
-- ---------------------------------------------------------------------------

/-- No finite number lies strictly between an exact result and the number it is rounded to,
which may be infinite. -/
structure RoundedTo (q : ℚ) (c : Float) : Prop where
  isNumber : IsNumber c
  le_of_le : ∀ z, z.isFinite = true → value z ≤ q → z ≤ c
  ge_of_ge : ∀ z, z.isFinite = true → q ≤ value z → c ≤ z
  faithful : c.isFinite = true → Faithful q (value c)

theorem Unpacked.Rounds.roundedTo {q : ℚ} {x : UnpackedFloat} (h : Rounds q x) {c : Float}
    (hc : c.toModel.unpack = (Float.Model.pack x).unpack) : RoundedTo q c := by
  obtain ⟨⟨s, m, e, hcanonical, rfl⟩, hfaithful⟩ := h
  rw [Binary64.unpack_pack hcanonical] at hc
  by_cases he : e ≤ 971
  · rw [if_pos he] at hc
    have hfinite : c.isFinite = true := isFinite_of_finite ⟨s, m, e, hcanonical, hc⟩
    rw [← hc] at hfaithful
    refine ⟨isNumber_of_isFinite hfinite, fun z hz hle => ?_, fun z hz hge => ?_,
      fun _ => hfaithful⟩
    · exact (le_iff_value_le hz hfinite).mpr ((hfaithful _ (representable_of_isFinite hz)).1 hle)
    · exact (le_iff_value_le hfinite hz).mpr ((hfaithful _ (representable_of_isFinite hz)).2 hge)
  · -- The exact result is then beyond every finite number on the side of its sign.
    rw [if_neg he] at hc
    have hgreat := le_value_of_overflow hcanonical (by omega)
    have hinfinite : c.isFinite ≠ true := by
      change c.toModel.unpack.isFinite ≠ true
      simp [hc, UnpackedFloat.isFinite]
    rw [value_ofMantissa] at hfaithful
    refine ⟨by simp [IsNumber, hc], fun z hz hle => ?_, fun z hz hge => ?_,
      fun h => absurd h hinfinite⟩
    · cases s with
      | positive => exact le_of_infinity (isNumber_of_isFinite hz) hc
      | negative =>
        have hbelow := (hfaithful _ (representable_of_isFinite hz)).1 hle
        have hlimit := (abs_lt.mp (abs_value_lt hz)).1
        simp only [signed] at hbelow
        linarith
    · cases s with
      | positive =>
        have habove := (hfaithful _ (representable_of_isFinite hz)).2 hge
        have hlimit := (abs_lt.mp (abs_value_lt hz)).2
        simp only [signed] at habove
        linarith
      | negative => exact infinity_le hc (isNumber_of_isFinite hz)

theorem RoundedTo.place_eq {c z : Float} (h : RoundedTo (value z) c) (hz : z.isFinite = true) :
    place c = place z := by
  have hle := (le_iff.mp (h.le_of_le z hz le_rfl)).2.2
  have hge := (le_iff.mp (h.ge_of_ge z hz le_rfl)).2.2
  exact Int.le_antisymm hge hle

theorem sub_eq_add (x y : UnpackedFloat) :
    UnpackedFloat.sub Format.binary64 x y = UnpackedFloat.add Format.binary64 x y.neg := by
  cases x with
  | finite s m e hm =>
    cases y with
    | finite t n f hn =>
      simp only [UnpackedFloat.sub, UnpackedFloat.add, UnpackedFloat.neg, apply_neg,
        Int.sub_eq_add_neg]
    | _ => rfl
  | _ => cases y <;> rfl

theorem signed_mul (s t : Sign) (p q : ℚ) : signed (s * t) (p * q) = signed s p * signed t q := by
  cases s <;> cases t
  · exact (neg_mul_neg p q).symm
  · exact (neg_mul p q).symm
  · exact (mul_neg p q).symm
  · rfl

theorem nearest_mul {x y : UnpackedFloat} (hx : Finite x) (hy : Finite y) :
    RoundsNearest (Unpacked.value x * Unpacked.value y)
      (UnpackedFloat.mul Format.binary64 x y) := by
  rcases hx.zero_or_finite with ⟨s, rfl⟩ | ⟨s, m, e, hm, hmcanonical, rfl⟩
  · rw [value_zero, zero_mul]
    rcases hy.zero_or_finite with ⟨t, rfl⟩ | ⟨t, n, f, hn, -, rfl⟩ <;>
      exact ⟨finite_zero _, .refl 0⟩
  · rcases hy.zero_or_finite with ⟨t, rfl⟩ | ⟨t, n, f, hn, hncanonical, rfl⟩
    · rw [value_zero, mul_zero]
      exact ⟨finite_zero _, .refl 0⟩
    · -- A product of few bits comes from factors of few bits, which have the least exponent.
      have hbits : 2 ^ 52 ≤ m * n ∨ e + f ≤ -1074 := by
        rcases hmcanonical.2.2 with hfull | rfl
        · exact .inl (hfull.trans (Nat.le_mul_of_pos_right m hn))
        · rcases hncanonical.2.2 with hfull | rfl
          · exact .inl (hfull.trans (Nat.le_mul_of_pos_left n hm))
          · exact .inr (by decide)
      have hround := nearest_roundWithAccuracy (s * t) (splits_exact (m * n)) hbits
      have hvalue : signed (s * t) ((m * n : Nat) * 2 ^ (e + f)) =
          Unpacked.value (.finite s m e hm) * Unpacked.value (.finite t n f hn) := by
        rw [Unpacked.value, Unpacked.value, ← signed_mul, zpow_add₀ (by norm_num)]
        push_cast
        ring_nf
      rw [hvalue] at hround
      exact hround

section

variable {a b : Float} (ha : a.isFinite = true) (hb : b.isFinite = true)

include ha in
theorem roundedTo_half : RoundedTo (value a / 2) (a / 2) :=
  (rounds_half (finite_unpack ha)).roundedTo rfl

include ha hb

theorem roundedTo_add : RoundedTo (value a + value b) (a + b) :=
  (nearest_add (finite_unpack ha) (finite_unpack hb)).rounds.roundedTo rfl

theorem roundedTo_mul : RoundedTo (value a * value b) (a * b) :=
  (nearest_mul (finite_unpack ha) (finite_unpack hb)).rounds.roundedTo rfl

theorem nearest_sub : RoundsNearest (value a - value b)
    (UnpackedFloat.sub Format.binary64 a.toModel.unpack b.toModel.unpack) := by
  have hneg := nearest_add (finite_unpack ha) (finite_unpack (isFinite_neg hb))
  rw [unpack_neg, ← sub_eq_add, ← unpack_neg] at hneg
  have hvalue : value a - value b = value a + value (-b) := by rw [value_neg, sub_eq_add_neg]
  rw [hvalue]
  exact hneg

theorem roundedTo_sub : RoundedTo (value a - value b) (a - b) :=
  (nearest_sub ha hb).rounds.roundedTo rfl

theorem roundedTo_div (hne : value b ≠ 0) : RoundedTo (value a / value b) (a / b) :=
  (rounds_div (finite_unpack ha) (finite_unpack hb) hne).roundedTo rfl

end

-- ---------------------------------------------------------------------------
-- Sums with infinite numbers
-- ---------------------------------------------------------------------------

section

variable {a b : Float} {s : Sign}

theorem ne_notANumber_of_pack {x : UnpackedFloat} (h : (Float.Model.pack x).unpack ≠ .notANumber) :
    x ≠ .notANumber := by
  rintro rfl
  exact h (unpack_pack_canonical trivial)

theorem isNumber_of_add (h : IsNumber (a + b)) : IsNumber a ∧ IsNumber b := by
  have hadd : UnpackedFloat.add Format.binary64 a.toModel.unpack b.toModel.unpack ≠ .notANumber :=
    ne_notANumber_of_pack h
  constructor
  · intro ha
    rw [ha] at hadd
    exact hadd rfl
  · intro hb
    rw [hb] at hadd
    cases hx : a.toModel.unpack <;> rw [hx] at hadd <;> exact hadd rfl

theorem unpack_of_pack {x : UnpackedFloat} {c : Float} (hc : c.toModel = Float.Model.pack x)
    (hx : Unpacked.Canonical x) : c.toModel.unpack = x :=
  (congrArg Float.Model.unpack hc).trans (unpack_pack_canonical hx)

theorem unpack_add_infinity (ha : a.toModel.unpack = .infinity s)
    (hb : ∀ t, b.toModel.unpack = .infinity t → t = s) (hnumber : IsNumber b) :
    (a + b).toModel.unpack = .infinity s := by
  have hadd : UnpackedFloat.add Format.binary64 a.toModel.unpack b.toModel.unpack =
      .infinity s := by
    rw [ha]
    cases hy : b.toModel.unpack with
    | notANumber => exact absurd hy hnumber
    | infinity t =>
      obtain rfl := hb t hy
      cases t <;> rfl
    | zero t => rfl
    | finite t n f hn => rfl
  exact unpack_of_pack (congrArg Float.Model.pack hadd) trivial

theorem unpack_half_infinity (ha : a.toModel.unpack = .infinity s) :
    (a / 2).toModel.unpack = .infinity s := by
  have hhalf : UnpackedFloat.div Format.binary64 a.toModel.unpack Unpacked.two = .infinity s := by
    rw [ha]
    cases s <;> rfl
  exact unpack_of_pack (congrArg Float.Model.pack hhalf) trivial

theorem add_comm_unpacked (x y : UnpackedFloat) :
    UnpackedFloat.add Format.binary64 x y = UnpackedFloat.add Format.binary64 y x := by
  cases x with
  | infinity s => cases y with
    | infinity t => cases s <;> cases t <;> rfl
    | _ => rfl
  | zero s => cases y with
    | zero t => cases s <;> cases t <;> rfl
    | _ => rfl
  | finite s m e hm => cases y with
    | finite t n f hn => simp only [UnpackedFloat.add, Int.min_comm e f, Int.add_comm]
    | _ => rfl
  | notANumber => cases y <;> rfl

theorem add_comm (a b : Float) : a + b = b + a :=
  congrArg (fun x => Float.ofModel (Float.Model.pack x)) (add_comm_unpacked _ _)

theorem isNumber_of_infinity (ha : a.toModel.unpack = .infinity s) : IsNumber a := by
  simp [IsNumber, ha]

theorem unpack_infinity_add (ha : a.toModel.unpack = .infinity s) (hb : b.isFinite = true) :
    (a + b).toModel.unpack = .infinity s :=
  unpack_add_infinity ha (fun t ht =>
    absurd ht (ne_infinity_of_isFinite hb t)) (isNumber_of_isFinite hb)

theorem isNumber_add (ha : a.isFinite = true) (hb : IsNumber b) : IsNumber (a + b) := by
  rcases finite_or_infinity hb with hb | ⟨s, hb⟩
  · exact (roundedTo_add ha hb).isNumber
  · rw [add_comm]
    exact isNumber_of_infinity (unpack_infinity_add hb ha)

theorem sign_eq_of_add {t : Sign} (h : IsNumber (a + b)) (ha : a.toModel.unpack = .infinity s)
    (hb : b.toModel.unpack = .infinity t) : t = s := by
  have hadd : UnpackedFloat.add Format.binary64 a.toModel.unpack b.toModel.unpack ≠ .notANumber :=
    ne_notANumber_of_pack h
  rw [ha, hb] at hadd
  cases s <;> cases t <;> first | rfl | exact absurd rfl hadd

theorem unpack_half_sum_infinity (h : IsNumber (a + b)) (ha : a.toModel.unpack = .infinity s) :
    ((a + b) / 2).toModel.unpack = .infinity s :=
  unpack_half_infinity
    (unpack_add_infinity ha (fun _ => sign_eq_of_add h ha) (isNumber_of_add h).2)

theorem isFinite_of_half (ha : IsNumber a) (h : (a / 2).isFinite = true) : a.isFinite = true := by
  rcases finite_or_infinity ha with hfinite | ⟨s, hs⟩
  · exact hfinite
  · exact absurd (unpack_half_infinity hs) (ne_infinity_of_isFinite h s)

/-- Between two numbers that can be added stands half their sum, to which either can be
added in turn. -/
theorem isNumber_half_sum (h : IsNumber (a + b)) :
    IsNumber ((a + b) / 2) ∧ IsNumber (a + (a + b) / 2) ∧ IsNumber ((a + b) / 2 + b) := by
  obtain ⟨ha, hb⟩ := isNumber_of_add h
  have hsame {x y : Float} {s : Sign} (hx : x.toModel.unpack = .infinity s)
      (hy : y.toModel.unpack = .infinity s) : IsNumber (x + y) := by
    refine isNumber_of_infinity (unpack_add_infinity hx (fun t hyt => ?_) (isNumber_of_infinity hy))
    exact UnpackedFloat.infinity.inj (hyt.symm.trans hy)
  have hhalf : IsNumber ((a + b) / 2) := by
    rcases finite_or_infinity h with hsum | ⟨s, hsum⟩
    · exact (roundedTo_half hsum).isNumber
    · exact isNumber_of_infinity (unpack_half_infinity hsum)
  refine ⟨hhalf, ?_, ?_⟩
  · rcases finite_or_infinity ha with ha | ⟨s, ha⟩
    · exact isNumber_add ha hhalf
    · exact hsame ha (unpack_half_sum_infinity h ha)
  · rw [add_comm]
    rcases finite_or_infinity hb with hb | ⟨s, hb⟩
    · exact isNumber_add hb hhalf
    · rw [add_comm a b] at h ⊢
      exact hsame hb (unpack_half_sum_infinity h hb)

/-- Half the sum of two finite numbers lies between them, unless the sum overflows. -/
theorem between_of_isFinite (ha : a.isFinite = true) (hb : b.isFinite = true) (hle : a ≤ b)
    (hhalf : ((a + b) / 2).isFinite = true) : a ≤ (a + b) / 2 ∧ (a + b) / 2 ≤ b := by
  have hsum := isFinite_of_half (roundedTo_add ha hb).isNumber hhalf
  rw [le_iff_value_le ha hhalf, le_iff_value_le hhalf hb]
  exact (((roundedTo_add ha hb).faithful hsum).half ((roundedTo_half hsum).faithful hhalf)).between
    (representable_of_isFinite ha) (representable_of_isFinite hb)
    ((le_iff_value_le ha hb).mp hle)

-- ---------------------------------------------------------------------------
-- Distances across a finite number
-- ---------------------------------------------------------------------------

theorem sub_eq_add_opposite (a b : Float) : a - b = a + -b := by
  have hunpacked : UnpackedFloat.sub Format.binary64 a.toModel.unpack b.toModel.unpack =
      UnpackedFloat.add Format.binary64 a.toModel.unpack (-b).toModel.unpack := by
    rw [sub_eq_add, unpack_neg]
  exact congrArg (fun x => Float.ofModel (Float.Model.pack x)) hunpacked

theorem isNumber_neg (h : IsNumber a) : IsNumber (-a) := by
  rw [IsNumber, unpack_neg]
  cases hx : a.toModel.unpack with
  | notANumber => exact absurd hx h
  | infinity s => exact UnpackedFloat.noConfusion
  | zero s => exact UnpackedFloat.noConfusion
  | finite s m e hm => exact UnpackedFloat.noConfusion

theorem finite_or_infinity_of_le (ha : a.isFinite = true) (hle : a ≤ b) :
    b.isFinite = true ∨ b.toModel.unpack = .infinity .positive := by
  obtain ⟨-, hb, hplace⟩ := le_iff.mp hle
  refine (finite_or_infinity hb).imp_right fun ⟨s, hs⟩ => ?_
  cases s with
  | positive => exact hs
  | negative =>
    rw [place.eq_def b, hs] at hplace
    exact absurd hplace (Int.not_le.mpr (place_lt_of_isFinite ha).1)

theorem finite_or_infinity_of_ge (hb : b.isFinite = true) (hle : a ≤ b) :
    a.isFinite = true ∨ a.toModel.unpack = .infinity .negative := by
  obtain ⟨ha, -, hplace⟩ := le_iff.mp hle
  refine (finite_or_infinity ha).imp_right fun ⟨s, hs⟩ => ?_
  cases s with
  | negative => exact hs
  | positive =>
    rw [place.eq_def a, hs] at hplace
    exact absurd hplace (Int.not_le.mpr (place_lt_of_isFinite hb).2)

theorem isFinite_of_between {c : Float} (ha : a.isFinite = true)
    (hc : c.isFinite = true) (hab : a ≤ b)
    (hbc : b ≤ c) : b.isFinite = true := by
  refine (finite_or_infinity_of_le ha hab).resolve_right fun hupper => ?_
  rcases finite_or_infinity_of_ge hc hbc with hb | hlower
  · exact ne_infinity_of_isFinite hb _ hupper
  · rw [hupper] at hlower
    cases hlower

theorem isNumber_sub_of_between {x : Float} (hx : x.isFinite = true) (ha : a ≤ x) (hb : x ≤ b) :
    IsNumber (b - a) := by
  rw [sub_eq_add_opposite]
  rcases finite_or_infinity_of_le hx hb with hfinite | hinfinite
  · exact isNumber_add hfinite (isNumber_neg (le_iff.mp ha).1)
  · rcases finite_or_infinity_of_ge hx ha with hfinite | hinfinite'
    · exact isNumber_of_infinity (unpack_infinity_add hinfinite (isFinite_neg hfinite))
    · have hneg : (-a).toModel.unpack = .infinity .positive := by
        rw [unpack_neg, hinfinite']
        rfl
      refine isNumber_of_infinity (unpack_add_infinity hinfinite (fun t ht => ?_)
        (isNumber_of_infinity hneg))
      exact UnpackedFloat.infinity.inj (ht.symm.trans hneg)

end

end GlyphTable.Binary64
