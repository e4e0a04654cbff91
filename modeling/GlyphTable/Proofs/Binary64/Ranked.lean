import Mathlib
import GlyphTable.Binary64.Order

/-!
# Numbers ranked by an integer

The numbers that are not NaN stand in a row: `place` counts the steps from zero, which
both zeros share. Comparisons are comparisons of places (`lt_iff`, `le_iff`), so the order
laws hold for the infinite numbers too.
-/

namespace GlyphTable.Binary64

open Float.Model (UnpackedFloat Format)
open Float.Model.UnpackedFloat (Sign)

/-- Mantissa and exponent as the format has them: a full mantissa, or the least exponent. -/
def Canonical (m : Nat) (e : Int) : Prop :=
  m < 2 ^ 53 ∧ -1074 ≤ e ∧ (2 ^ 52 ≤ m ∨ e = -1074)

def Unpacked.Canonical : UnpackedFloat → Prop
  | .finite _ m e _ => Binary64.Canonical m e ∧ e ≤ 971
  | _ => True

def Unpacked.sign : UnpackedFloat → Sign
  | .notANumber => .positive
  | .infinity s => s
  | .zero s => s
  | .finite s .. => s

def Unpacked.steps : UnpackedFloat → Int
  | .notANumber => 0
  | .infinity _ => 2047 * 2 ^ 52
  | .zero _ => 0
  | .finite _ m e _ => (e + 1074) * 2 ^ 52 + m

def Unpacked.place (x : UnpackedFloat) : Int :=
  (sign x).apply (steps x)

-- ---------------------------------------------------------------------------
-- Bit patterns
-- ---------------------------------------------------------------------------

def Unpacked.ofFields (s : Sign) (e : BitVec 11) (m : BitVec 52) : UnpackedFloat :=
  if e = -1#11 then
    if m = 0#52 then .infinity s else .notANumber
  else if e = 0#11 then
    if h : m = 0#52 then .zero s
    else .finite s m.toNat (-1074) (Nat.pos_of_ne_zero fun hm => h (BitVec.eq_of_toNat_eq hm))
  else
    .finite s (2 ^ 52 + m.toNat) (e.toNat - 1075) (by omega)

theorem toNat_append_one (m : BitVec 52) : (1#1 ++ m).toNat = 2 ^ 52 + m.toNat := by
  rw [BitVec.toNat_append, ← Nat.shiftLeft_add_eq_or_of_lt m.isLt]
  rfl

theorem unpack_eq_ofFields (b : BitVec Format.binary64.numBits) :
    UnpackedFloat.unpack Format.binary64 b =
      Unpacked.ofFields (Sign.ofBitVec (UnpackedFloat.unpackSign b))
        (UnpackedFloat.unpackExponent b) (UnpackedFloat.unpackMantissa b) := by
  have hbias : (Format.binary64.exponentBias : Int) = 1023 := rfl
  rw [UnpackedFloat.unpack, Unpacked.ofFields]
  simp only [hbias]
  by_cases hones : UnpackedFloat.unpackExponent b = -1#11
  · rw [if_pos hones, if_pos hones]
  · rw [if_neg hones, if_neg hones]
    by_cases hzero : UnpackedFloat.unpackExponent b = 0#11
    · rw [if_pos hzero, if_pos hzero]
      by_cases hm : UnpackedFloat.unpackMantissa b = 0#52
      · rw [dif_pos hm, dif_pos hm]
      · rw [dif_neg hm, dif_neg hm]
        simp only [hzero]
        rfl
    · rw [if_neg hzero, if_neg hzero]
      simp only [toNat_append_one]
      rfl

namespace Unpacked

theorem canonical_ofFields (s : Sign) (e : BitVec 11) (m : BitVec 52) :
    Canonical (ofFields s e m) := by
  have hm := m.isLt
  have he := e.isLt
  rw [ofFields]
  split
  · split <;> trivial
  · next hones =>
    have hones' : e.toNat ≠ 2047 := fun h => hones (BitVec.eq_of_toNat_eq h)
    split
    · split
      · trivial
      · refine ⟨⟨?_, ?_, ?_⟩, ?_⟩ <;> omega
    · next hzero =>
      have hzero' : e.toNat ≠ 0 := fun h => hzero (BitVec.eq_of_toNat_eq h)
      refine ⟨⟨?_, ?_, ?_⟩, ?_⟩ <;> omega

theorem sign_steps_ofFields {s : Sign} {e : BitVec 11} {m : BitVec 52}
    (h : ofFields s e m ≠ .notANumber) :
    sign (ofFields s e m) = s ∧ steps (ofFields s e m) = e.toNat * 2 ^ 52 + m.toNat := by
  rw [ofFields] at h ⊢
  split
  · next hones =>
    rw [if_pos hones] at h
    split
    · next hm => exact ⟨rfl, by rw [hones, hm]; rfl⟩
    · next hm =>
      rw [if_neg hm] at h
      exact absurd rfl h
  · split
    · next hzero =>
      split
      · next hm => exact ⟨rfl, by rw [hzero, hm]; rfl⟩
      · refine ⟨rfl, ?_⟩
        rw [hzero, steps, show (0#11).toNat = 0 from rfl]
        omega
    · refine ⟨rfl, ?_⟩
      have hcast : ((2 ^ 52 + m.toNat : Nat) : Int) = 2 ^ 52 + m.toNat := by omega
      rw [steps, hcast]
      omega

end Unpacked

theorem canonical_unpack (f : Float.Model) : Unpacked.Canonical f.unpack := by
  rw [Float.Model.unpack, unpack_eq_ofFields]
  exact Unpacked.canonical_ofFields _ _ _

def signBits : Sign → Int
  | .positive => 0
  | .negative => 2 ^ 63

theorem signBits_ofBitVec (b : BitVec 1) :
    (b.toNat : Int) * 2 ^ 63 = signBits (Sign.ofBitVec b) := by
  have hlt := b.isLt
  rw [Sign.ofBitVec]
  split
  · next hzero => rw [hzero]; rfl
  · next hzero =>
    have hone : b.toNat ≠ 0 := fun h => hzero (BitVec.eq_of_toNat_eq h)
    rw [signBits]
    omega

theorem toNat_fields (b : BitVec Format.binary64.numBits) :
    (UnpackedFloat.unpackMantissa b).toNat = b.toNat % 2 ^ 52 ∧
      (UnpackedFloat.unpackExponent b).toNat = b.toNat / 2 ^ 52 % 2 ^ 11 ∧
      (UnpackedFloat.unpackSign b).toNat = b.toNat / 2 ^ 63 % 2 := by
  refine ⟨?_, ?_, ?_⟩
  · simp [UnpackedFloat.unpackMantissa]
  · simp [UnpackedFloat.unpackExponent, Nat.shiftRight_eq_div_pow]
  · simp [UnpackedFloat.unpackSign, Nat.shiftRight_eq_div_pow]

theorem toBits_eq {f : Float.Model} (h : f.unpack ≠ .notANumber) :
    0 ≤ Unpacked.steps f.unpack ∧ Unpacked.steps f.unpack < 2 ^ 63 ∧
      (f.toBits.toNat : Int) = signBits (Unpacked.sign f.unpack) + Unpacked.steps f.unpack := by
  rw [Float.Model.unpack, unpack_eq_ofFields] at h ⊢
  obtain ⟨hsign, hsteps⟩ := Unpacked.sign_steps_ofFields h
  rw [hsign, hsteps]
  obtain ⟨hmantissa, hexponent, hsignbit⟩ := toNat_fields f.toBits.toBitVec
  have hbits : f.toBits.toBitVec.toNat < 2 ^ 64 := f.toBits.toBitVec.isLt
  rw [← UInt64.toNat_toBitVec, ← signBits_ofBitVec, hmantissa, hexponent, hsignbit]
  omega

-- ---------------------------------------------------------------------------
-- Comparisons
-- ---------------------------------------------------------------------------

namespace Unpacked

/-- Exponents come first: a number of higher exponent has a full mantissa. -/
theorem steps_lt {m n : Nat} {e f : Int} (hm : Binary64.Canonical m e) (hn : Binary64.Canonical n f)
    (h : e < f ∨ e = f ∧ m < n) : (e + 1074) * 2 ^ 52 + m < (f + 1074) * 2 ^ 52 + (n : Int) := by
  obtain ⟨hm, hle, -⟩ := hm
  obtain ⟨-, -, hfull⟩ := hn
  omega

theorem compare_steps {m n : Nat} {e f : Int} (hm : Binary64.Canonical m e)
    (hn : Binary64.Canonical n f) :
    (compare e f).then (compare m n) =
      compare ((e + 1074) * 2 ^ 52 + (m : Int)) ((f + 1074) * 2 ^ 52 + (n : Int)) := by
  rcases Int.lt_trichotomy e f with hef | rfl | hef
  · rw [Int.compare_eq_lt.mpr hef, Int.compare_eq_lt.mpr (steps_lt hm hn (.inl hef))]
    rfl
  · rw [Int.compare_eq_eq.mpr rfl]
    rcases Nat.lt_trichotomy m n with hmn | rfl | hmn
    · rw [Nat.compare_eq_lt.mpr hmn, Int.compare_eq_lt.mpr (steps_lt hm hn (.inr ⟨rfl, hmn⟩))]
      rfl
    · rw [Nat.compare_eq_eq.mpr rfl, Int.compare_eq_eq.mpr rfl]
      rfl
    · rw [Nat.compare_eq_gt.mpr hmn, Int.compare_eq_gt.mpr (steps_lt hn hm (.inr ⟨rfl, hmn⟩))]
      rfl
  · rw [Int.compare_eq_gt.mpr hef, Int.compare_eq_gt.mpr (steps_lt hn hm (.inl hef))]
    rfl

theorem steps_finite_pos {m : Nat} {e : Int} (h : Binary64.Canonical m e) (hm : 0 < m) :
    0 < (e + 1074) * 2 ^ 52 + (m : Int) := by
  have hle := h.2.1
  omega

theorem steps_finite_lt {m : Nat} {e : Int} (h : Binary64.Canonical m e) (he : e ≤ 971) :
    (e + 1074) * 2 ^ 52 + (m : Int) < 2047 * 2 ^ 52 := by
  have hlt := h.1
  omega

theorem compare_neg (a b : Int) : compare (-a) (-b) = (compare a b).swap := by
  rcases Int.lt_trichotomy a b with h | rfl | h
  · rw [Int.compare_eq_lt.mpr h, Int.compare_eq_gt.mpr (by omega)]
    rfl
  · rw [Int.compare_eq_eq.mpr rfl, Int.compare_eq_eq.mpr rfl]
    rfl
  · rw [Int.compare_eq_gt.mpr h, Int.compare_eq_lt.mpr (by omega)]
    rfl

theorem place_zero (s : Sign) : place (.zero s) = 0 := by
  cases s <;> rfl

section

variable {m : Nat} {e : Int}

theorem place_finite_pos (h : Binary64.Canonical m e) (hm : 0 < m) :
    0 < place (.finite .positive m e hm) :=
  steps_finite_pos h hm

theorem place_finite_neg (h : Binary64.Canonical m e) (hm : 0 < m) :
    place (.finite .negative m e hm) < 0 :=
  Int.neg_neg_of_pos (steps_finite_pos h hm)

theorem place_finite_between (s : Sign) (h : Binary64.Canonical m e) (he : e ≤ 971) (hm : 0 < m) :
    place (.infinity .negative) < place (.finite s m e hm) ∧
      place (.finite s m e hm) < place (.infinity .positive) := by
  have hpos := steps_finite_pos h hm
  have hlt := steps_finite_lt h he
  cases s <;> simp only [place, sign, steps, Sign.apply] <;> omega

end

theorem compare_of_place_lt {x y : UnpackedFloat} (hplace : place x < place y)
    (h : x.compare y = some .lt) : x.compare y = some (compare (place x) (place y)) := by
  rw [h, Int.compare_eq_lt.mpr hplace]

theorem compare_of_place_gt {x y : UnpackedFloat} (hplace : place y < place x)
    (h : x.compare y = some .gt) : x.compare y = some (compare (place x) (place y)) := by
  rw [h, Int.compare_eq_gt.mpr hplace]

theorem compare_finite {s t : Sign} {m n : Nat} {e f : Int} {hm : 0 < m} {hn : 0 < n}
    (hx : Binary64.Canonical m e) (hy : Binary64.Canonical n f) :
    (UnpackedFloat.finite s m e hm).compare (.finite t n f hn) =
      some (compare (place (.finite s m e hm)) (place (.finite t n f hn))) := by
  have hsteps := compare_steps hx hy
  cases s
  · cases t
    · simp only [place, sign, steps, Sign.apply, compare_neg, ← hsteps]
      rfl
    · exact compare_of_place_lt ((place_finite_neg hx hm).trans (place_finite_pos hy hn)) rfl
  · cases t
    · exact compare_of_place_gt ((place_finite_neg hy hn).trans (place_finite_pos hx hm)) rfl
    · simp only [place, sign, steps, Sign.apply, ← hsteps]
      rfl

/-- Numbers that are not NaN compare as their places do. -/
theorem compare_eq {x y : UnpackedFloat} (hx : Canonical x) (hy : Canonical y)
    (hxn : x ≠ .notANumber) (hyn : y ≠ .notANumber) :
    x.compare y = some (compare (place x) (place y)) := by
  cases x with
  | notANumber => exact absurd rfl hxn
  | infinity s =>
    cases y with
    | notANumber => exact absurd rfl hyn
    | infinity t => cases s <;> cases t <;> rfl
    | zero t => cases s <;> cases t <;> rfl
    | finite t n f hn =>
      obtain ⟨hlow, hhigh⟩ := place_finite_between t hy.1 hy.2 hn
      cases s
      · exact compare_of_place_lt hlow rfl
      · exact compare_of_place_gt hhigh rfl
  | zero s =>
    cases y with
    | notANumber => exact absurd rfl hyn
    | infinity t => cases s <;> cases t <;> rfl
    | zero t => cases s <;> cases t <;> rfl
    | finite t n f hn =>
      have hzero := place_zero s
      cases t
      · exact compare_of_place_gt (hzero ▸ place_finite_neg hy.1 hn) rfl
      · exact compare_of_place_lt (hzero ▸ place_finite_pos hy.1 hn) rfl
  | finite s m e hm =>
    cases y with
    | notANumber => exact absurd rfl hyn
    | infinity t =>
      obtain ⟨hlow, hhigh⟩ := place_finite_between s hx.1 hx.2 hm
      cases t
      · exact compare_of_place_gt hlow (by cases s <;> rfl)
      · exact compare_of_place_lt hhigh (by cases s <;> rfl)
    | zero t =>
      have hzero := place_zero t
      cases s
      · exact compare_of_place_lt (hzero ▸ place_finite_neg hx.1 hm) rfl
      · exact compare_of_place_gt (hzero ▸ place_finite_pos hx.1 hm) rfl
    | finite t n f hn => exact compare_finite hx.1 hy.1

end Unpacked

/-- Place of a number in the row of all that are not NaN. -/
def place (a : Float) : Int :=
  Unpacked.place a.toModel.unpack

def IsNumber (a : Float) : Prop :=
  a.toModel.unpack ≠ .notANumber

theorem compare_eq_none {x y : UnpackedFloat} (h : x = .notANumber ∨ y = .notANumber) :
    x.compare y = none := by
  rcases h with rfl | rfl
  · rfl
  · cases x <;> rfl

theorem compare_eq_some_iff {a b : Float} {o : Ordering} :
    a.toModel.unpack.compare b.toModel.unpack = some o ↔
      IsNumber a ∧ IsNumber b ∧ compare (place a) (place b) = o := by
  by_cases h : IsNumber a ∧ IsNumber b
  · rw [Unpacked.compare_eq (canonical_unpack _) (canonical_unpack _) h.1 h.2, Option.some.injEq]
    exact ⟨fun heq => ⟨h.1, h.2, heq⟩, fun h => h.2.2⟩
  · have hnan : a.toModel.unpack = .notANumber ∨ b.toModel.unpack = .notANumber := by
      by_cases ha : a.toModel.unpack = .notANumber
      · exact .inl ha
      · exact .inr (by_contra fun hb => h ⟨ha, hb⟩)
    rw [compare_eq_none hnan]
    exact iff_of_false nofun fun ⟨ha, hb, _⟩ => h ⟨ha, hb⟩

theorem lt_iff {a b : Float} : a < b ↔ IsNumber a ∧ IsNumber b ∧ place a < place b := by
  have hcompare : a < b ↔ a.toModel.unpack.compare b.toModel.unpack = some .lt := by
    change decide (a.toModel < b.toModel) = true ↔ _
    rw [decide_eq_true_iff]
    change (a.toModel.unpack.compare b.toModel.unpack == some .lt) = true ↔ _
    rw [beq_iff_eq]
  rw [hcompare, compare_eq_some_iff, Int.compare_eq_lt]

theorem le_iff {a b : Float} : a ≤ b ↔ IsNumber a ∧ IsNumber b ∧ place a ≤ place b := by
  have hcompare : a ≤ b ↔ ∃ o : Ordering, o.isLE ∧
      a.toModel.unpack.compare b.toModel.unpack = some o := by
    change decide (a.toModel ≤ b.toModel) = true ↔ _
    rw [decide_eq_true_iff]
    change (a.toModel.unpack.compare b.toModel.unpack).any (·.isLE) = true ↔ _
    rw [Option.any_eq_true]
    exact exists_congr fun o => and_comm
  rw [hcompare]
  simp only [compare_eq_some_iff]
  constructor
  · rintro ⟨o, ho, ha, hb, rfl⟩
    exact ⟨ha, hb, Int.isLE_compare.mp ho⟩
  · rintro ⟨ha, hb, hle⟩
    exact ⟨_, Int.isLE_compare.mpr hle, ha, hb, rfl⟩

section

variable {a b c : Float}

theorem lt_irrefl (a : Float) : ¬ a < a :=
  fun h => Int.lt_irrefl _ (lt_iff.mp h).2.2

theorem lt_trans (hab : a < b) (hbc : b < c) : a < c := by
  obtain ⟨ha, -, hab⟩ := lt_iff.mp hab
  obtain ⟨-, hc, hbc⟩ := lt_iff.mp hbc
  exact lt_iff.mpr ⟨ha, hc, Int.lt_trans hab hbc⟩

theorem le_trans (hab : a ≤ b) (hbc : b ≤ c) : a ≤ c := by
  obtain ⟨ha, -, hab⟩ := le_iff.mp hab
  obtain ⟨-, hc, hbc⟩ := le_iff.mp hbc
  exact le_iff.mpr ⟨ha, hc, Int.le_trans hab hbc⟩

theorem lt_of_lt_of_le (hab : a < b) (hbc : b ≤ c) : a < c := by
  obtain ⟨ha, -, hab⟩ := lt_iff.mp hab
  obtain ⟨-, hc, hbc⟩ := le_iff.mp hbc
  exact lt_iff.mpr ⟨ha, hc, Int.lt_of_lt_of_le hab hbc⟩

theorem lt_of_le_of_lt (hab : a ≤ b) (hbc : b < c) : a < c := by
  obtain ⟨ha, -, hab⟩ := le_iff.mp hab
  obtain ⟨-, hc, hbc⟩ := lt_iff.mp hbc
  exact lt_iff.mpr ⟨ha, hc, Int.lt_of_le_of_lt hab hbc⟩

theorem le_refl (h : IsNumber a) : a ≤ a :=
  le_iff.mpr ⟨h, h, Int.le_refl _⟩

theorem le_of_lt (h : a < b) : a ≤ b := by
  obtain ⟨ha, hb, hab⟩ := lt_iff.mp h
  exact le_iff.mpr ⟨ha, hb, Int.le_of_lt hab⟩

theorem lt_or_le (ha : IsNumber a) (hb : IsNumber b) : a < b ∨ b ≤ a := by
  rw [lt_iff, le_iff]
  rcases Int.lt_or_le (place a) (place b) with h | h
  · exact .inl ⟨ha, hb, h⟩
  · exact .inr ⟨hb, ha, h⟩

theorem totalRank_eq (h : IsNumber a) :
    0 ≤ place a ∧ totalRank a = place a ∨ place a ≤ 0 ∧ totalRank a = place a - 1 := by
  obtain ⟨hnonneg, hbound, hbits⟩ := toBits_eq h
  have hrank : totalRank a = if (a.toModel.toBits.toNat : Int) < signBit then
      (a.toModel.toBits.toNat : Int) else signBit - 1 - a.toModel.toBits.toNat := rfl
  have hplace :
    place a = (Unpacked.sign a.toModel.unpack).apply (Unpacked.steps a.toModel.unpack) := rfl
  have hsignBit : signBit = 2 ^ 63 := rfl
  rw [hrank, hsignBit]
  cases hsign : Unpacked.sign a.toModel.unpack with
  | positive =>
    rw [hsign] at hbits hplace
    rw [signBits] at hbits
    rw [Sign.apply] at hplace
    rw [if_pos (by omega)]
    omega
  | negative =>
    rw [hsign] at hbits hplace
    rw [signBits] at hbits
    rw [Sign.apply] at hplace
    rw [if_neg (by omega)]
    omega

theorem totalRank_lt (h : a < b) : totalRank a < totalRank b := by
  obtain ⟨ha, hb, hlt⟩ := lt_iff.mp h
  have hranka := totalRank_eq ha
  have hrankb := totalRank_eq hb
  omega

theorem lesser_eq (a b : Float) : lesser a b = a ∨ lesser a b = b := by
  rw [lesser]
  split
  · exact .inl rfl
  · exact .inr rfl

theorem greater_eq (a b : Float) : greater a b = a ∨ greater a b = b := by
  rw [greater]
  split
  · exact .inl rfl
  · exact .inr rfl

theorem lesser_of {P : Float → Prop} (ha : P a) (hb : P b) : P (lesser a b) := by
  rcases lesser_eq a b with heq | heq <;> rw [heq] <;> assumption

theorem greater_of {P : Float → Prop} (ha : P a) (hb : P b) : P (greater a b) := by
  rcases greater_eq a b with heq | heq <;> rw [heq] <;> assumption

theorem lesser_le (ha : IsNumber a) (hb : IsNumber b) : lesser a b ≤ a ∧ lesser a b ≤ b := by
  rw [lesser]
  split
  · next h => exact ⟨le_refl ha, le_of_lt h⟩
  · next h => exact ⟨(lt_or_le ha hb).resolve_left h, le_refl hb⟩

theorem le_greater (ha : IsNumber a) (hb : IsNumber b) : a ≤ greater a b ∧ b ≤ greater a b := by
  rw [greater]
  split
  · next h => exact ⟨le_refl ha, le_of_lt h⟩
  · next h => exact ⟨(lt_or_le hb ha).resolve_left h, le_refl hb⟩

-- ---------------------------------------------------------------------------
-- Keyed positions
-- ---------------------------------------------------------------------------

theorem isNaN_iff : a.isNaN = true ↔ ¬ IsNumber a := by
  change a.toModel.unpack.isNaN = true ↔ ¬ a.toModel.unpack ≠ .notANumber
  cases a.toModel.unpack <;> simp [UnpackedFloat.isNaN]

theorem leNanLast_iff : leNanLast a b ↔ ¬ IsNumber b ∨ IsNumber a ∧ place a ≤ place b := by
  rw [leNanLast, Bool.or_eq_true, isNaN_iff, decide_eq_true_iff, le_iff]
  tauto

end

theorem leKeyed_total (a b : Float × Nat) : leKeyed a b || leKeyed b a := by
  have hab := leNanLast_iff (a := a.1) (b := b.1)
  have hba := leNanLast_iff (a := b.1) (b := a.1)
  simp only [leKeyed, Bool.or_eq_true]
  grind

theorem leKeyed_trans (a b c : Float × Nat) (hab : leKeyed a b) (hbc : leKeyed b c) :
    leKeyed a c := by
  have h1 := leNanLast_iff (a := a.1) (b := b.1)
  have h2 := leNanLast_iff (a := b.1) (b := a.1)
  have h3 := leNanLast_iff (a := b.1) (b := c.1)
  have h4 := leNanLast_iff (a := c.1) (b := b.1)
  have h5 := leNanLast_iff (a := a.1) (b := c.1)
  have h6 := leNanLast_iff (a := c.1) (b := a.1)
  simp only [leKeyed] at *
  grind

theorem le_of_leKeyed {a b : Float} {i j : Nat} (hb : IsNumber b) (h : leKeyed (a, i) (b, j)) :
    a ≤ b ∧ (b ≤ a → i ≤ j) := by
  have hab := leNanLast_iff (a := a) (b := b)
  have hba := leNanLast_iff (a := b) (b := a)
  rw [le_iff, le_iff]
  simp only [leKeyed] at h
  grind

theorem leKeyed_of_lt {a b : Float} (h : a < b) (i j : Nat) : leKeyed (a, i) (b, j) := by
  have hab := leNanLast_iff (a := a) (b := b)
  have hba := leNanLast_iff (a := b) (b := a)
  rw [lt_iff] at h
  simp only [leKeyed]
  grind

end GlyphTable.Binary64
