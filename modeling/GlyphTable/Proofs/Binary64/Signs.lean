import GlyphTable.Binary64.Fused
import GlyphTable.Proofs.Binary64.Midpoint

/-!
# Signs of results

Rounding may turn a result into zero but never changes its sign. So a positive difference
orders its numbers, infinite ones included (`lt_of_sub_pos`), and a positive sum beside a
zero has the sign of the other summand.
-/

namespace GlyphTable.Binary64

open Float.Model (UnpackedFloat Format)
open Float.Model.UnpackedFloat (Sign)
open Unpacked (Finite ofMantissa)

def Unpacked.HasSign (s : Sign) : UnpackedFloat → Prop
  | .infinity t => t = s
  | .finite t .. => t = s
  | _ => False

open Unpacked (HasSign)

theorem hasSign_iff {x : UnpackedFloat} (hx : Unpacked.Canonical x) {s : Sign} :
    HasSign s x ↔ x ≠ .notANumber ∧ 0 < s.apply (Unpacked.place x) := by
  cases x with
  | notANumber => exact iff_of_false id fun h => h.1 rfl
  | zero t => exact iff_of_false id fun h => absurd h.2 (by cases s <;> cases t <;> decide)
  | infinity t =>
    cases s <;> cases t
    · exact iff_of_true rfl ⟨by simp, by decide⟩
    · exact iff_of_false (by simp [HasSign]) fun h => absurd h.2 (by decide)
    · exact iff_of_false (by simp [HasSign]) fun h => absurd h.2 (by decide)
    · exact iff_of_true rfl ⟨by simp, by decide⟩
  | finite t m e hm =>
    have hpos := Unpacked.steps_finite_pos hx.1 hm
    cases s <;> cases t <;> simp only [Unpacked.place, Unpacked.sign, Unpacked.steps, Sign.apply]
    · exact iff_of_true rfl ⟨by simp, by omega⟩
    · exact iff_of_false (by simp [HasSign]) fun h => by omega
    · exact iff_of_false (by simp [HasSign]) fun h => by omega
    · exact iff_of_true rfl ⟨by simp, by omega⟩

theorem pos_iff {a : Float} : 0 < a ↔ HasSign .positive a.toModel.unpack := by
  rw [hasSign_iff (canonical_unpack _), lt_iff]
  exact ⟨fun h => h.2, fun h => ⟨nofun, h⟩⟩

theorem neg_iff {a : Float} : a < 0 ↔ HasSign .negative a.toModel.unpack := by
  rw [hasSign_iff (canonical_unpack _), lt_iff]
  exact ⟨fun h => ⟨h.1, Int.neg_pos_of_neg h.2.2⟩, fun h => ⟨h.1, nofun, Int.neg_of_neg_pos h.2⟩⟩

theorem hasSign_ofFields {s t : Sign} {e : BitVec 11} {m : BitVec 52}
    (h : HasSign s (Unpacked.ofFields t e m)) : t = s := by
  have hne : Unpacked.ofFields t e m ≠ .notANumber := by
    intro heq
    rw [heq] at h
    exact h
  have hsign := (Unpacked.sign_steps_ofFields hne).1
  rw [← hsign]
  generalize Unpacked.ofFields t e m = x at *
  cases x with
  | notANumber => cases h
  | zero => cases h
  | infinity => exact h
  | finite => exact h

theorem Unpacked.HasSign.of_pack {s : Sign} {x : UnpackedFloat}
    (h : HasSign s (Float.Model.pack x).unpack) : HasSign s x := by
  rw [unpack_pack_eq] at h
  cases x with
  | notANumber =>
    rw [UnpackedFloat.pack, UnpackedFloat.packedNaN, unpack_packComponents] at h
    cases h
  | zero t =>
    rw [UnpackedFloat.pack, UnpackedFloat.packedZero, unpack_packComponents] at h
    cases h
  | infinity t =>
    rw [UnpackedFloat.pack, UnpackedFloat.packedInfinity, unpack_packComponents] at h
    exact hasSign_ofFields h
  | finite t m e hm =>
    simp only [UnpackedFloat.pack] at h
    split at h
    · exact hasSign_ofFields (unpack_packComponents _ _ _ ▸ h)
    · split at h <;> exact hasSign_ofFields (unpack_packComponents _ _ _ ▸ h)

-- ---------------------------------------------------------------------------
-- Rounding
-- ---------------------------------------------------------------------------

theorem hasSign_roundWithAccuracy {s t : Sign} {m : Nat} {e : Int}
    {accuracy : UnpackedFloat.Accuracy}
    (h : HasSign s (UnpackedFloat.roundWithAccuracy Format.binary64 t m e accuracy)) : t = s := by
  simp only [UnpackedFloat.roundWithAccuracy] at h
  split at h
  · cases h
  · exact h

theorem hasSign_normalize {s t : Sign} {m e : Int}
    (h : HasSign s (UnpackedFloat.normalize Format.binary64 m e t)) : 0 < s.apply m := by
  rw [UnpackedFloat.normalize] at h
  rcases Int.lt_trichotomy m 0 with hm | rfl | hm
  · rw [Int.compare_eq_lt.mpr hm] at h
    rw [← hasSign_roundWithAccuracy h]
    exact Int.neg_pos_of_neg hm
  · cases h
  · rw [Int.compare_eq_gt.mpr hm] at h
    rw [← hasSign_roundWithAccuracy h]
    exact hm

-- ---------------------------------------------------------------------------
-- Differences
-- ---------------------------------------------------------------------------

theorem apply_neg (s : Sign) (n : Int) : (-s).apply n = -s.apply n := by
  cases s with
  | negative => exact (Int.neg_neg n).symm
  | positive => rfl

theorem place_lt_of_normalize {s t u : Sign} {m n : Nat} {e f : Int} (hm : 0 < m) (hn : 0 < n)
    (hx : Canonical m e) (hy : Canonical n f)
    (h : HasSign s (UnpackedFloat.normalize Format.binary64
      (t.apply (UnpackedFloat.decreaseExponent m e (min e f)).1 -
        u.apply (UnpackedFloat.decreaseExponent n f (min e f)).1) (min e f) .positive)) :
    0 < s.apply (Unpacked.place (.finite t m e hm) - Unpacked.place (.finite u n f hn)) := by
  have hpos := hasSign_normalize h
  have hm' := decreaseExponent_spec t m (Int.min_le_left e f)
  have hn' := decreaseExponent_spec u n (Int.min_le_right e f)
  have hunit : (0 : ℚ) < 2 ^ min e f := by positivity
  have hxfinite : Finite (.finite t m e hm) :=
    ⟨t, m, e, hx, by rw [ofMantissa, dif_neg (Nat.ne_of_gt hm)]⟩
  have hyfinite : Finite (.finite u n f hn) :=
    ⟨u, n, f, hy, by rw [ofMantissa, dif_neg (Nat.ne_of_gt hn)]⟩
  generalize t.apply (UnpackedFloat.decreaseExponent m e (min e f)).1 = M at *
  generalize u.apply (UnpackedFloat.decreaseExponent n f (min e f)).1 = N at *
  have hscale {A B : Int} (hAB : A < B) : (A : ℚ) * 2 ^ min e f < B * 2 ^ min e f := by
    have : (A : ℚ) < B := by exact_mod_cast hAB
    gcongr
  cases s with
  | positive =>
    have hlt : Unpacked.value (.finite u n f hn) < Unpacked.value (.finite t m e hm) := by
      rw [Unpacked.value, Unpacked.value, ← hm', ← hn']
      exact hscale (Int.sub_pos.mp hpos)
    exact Int.sub_pos.mpr ((place_lt_iff hyfinite hxfinite).mpr hlt)
  | negative =>
    have hlt : Unpacked.value (.finite t m e hm) < Unpacked.value (.finite u n f hn) := by
      rw [Unpacked.value, Unpacked.value, ← hm', ← hn']
      exact hscale (Int.lt_of_sub_neg (Int.neg_of_neg_pos hpos))
    exact Int.neg_pos_of_neg (Int.sub_neg_of_lt ((place_lt_iff hxfinite hyfinite).mpr hlt))

/-- The sign of a difference tells on which side of one number the other stands. -/
theorem hasSign_sub {x y : UnpackedFloat} (hx : Unpacked.Canonical x)
    (hy : Unpacked.Canonical y) {s : Sign}
    (h : HasSign s (UnpackedFloat.sub Format.binary64 x y)) :
    x ≠ .notANumber ∧ y ≠ .notANumber ∧ 0 < s.apply (Unpacked.place x - Unpacked.place y) := by
  have hne : x ≠ .notANumber ∧ y ≠ .notANumber := by
    constructor
    · rintro rfl
      cases h
    · rintro rfl
      cases x <;> cases h
  refine ⟨hne.1, hne.2, ?_⟩
  cases x with
  | notANumber => cases h
  | infinity t =>
    cases y with
    | notANumber => cases h
    | infinity u => cases t <;> cases u <;> cases h <;> decide
    | zero u =>
      obtain rfl : t = s := h
      cases t <;> cases u <;> decide
    | finite u n f hn =>
      obtain rfl : t = s := h
      obtain ⟨hlow, hhigh⟩ := Unpacked.place_finite_between u hy.1 hy.2 hn
      cases t
      · exact Int.neg_pos_of_neg (Int.sub_neg_of_lt hlow)
      · exact Int.sub_pos.mpr hhigh
  | zero t =>
    cases y with
    | notANumber => cases h
    | infinity u =>
      obtain rfl : -u = s := h
      cases t <;> cases u <;> decide
    | zero u => cases t <;> cases u <;> cases h
    | finite u n f hn =>
      obtain rfl : -u = s := h
      rw [apply_neg, Unpacked.place_zero, Int.zero_sub]
      cases u
      · exact Int.neg_pos_of_neg
          (Int.neg_neg_of_pos (Int.neg_pos_of_neg (Unpacked.place_finite_neg hy.1 hn)))
      · exact Int.neg_pos_of_neg (Int.neg_neg_of_pos (Unpacked.place_finite_pos hy.1 hn))
  | finite t m e hm =>
    cases y with
    | notANumber => cases h
    | infinity u =>
      obtain rfl : -u = s := h
      obtain ⟨hlow, hhigh⟩ := Unpacked.place_finite_between t hx.1 hx.2 hm
      cases u
      · exact Int.sub_pos.mpr hlow
      · exact Int.neg_pos_of_neg (Int.sub_neg_of_lt hhigh)
    | zero u =>
      obtain rfl : t = s := h
      rw [Unpacked.place_zero, Int.sub_zero]
      cases t
      · exact Int.neg_pos_of_neg (Unpacked.place_finite_neg hx.1 hm)
      · exact Unpacked.place_finite_pos hx.1 hm
    | finite u n f hn => exact place_lt_of_normalize hm hn hx.1 hy.1 h

theorem lt_of_sub_pos {a b : Float} (h : 0 < b - a) : a < b := by
  obtain ⟨hb, ha, hpos⟩ :=
    hasSign_sub (canonical_unpack _) (canonical_unpack _) (pos_iff.mp h).of_pack
  exact lt_iff.mpr ⟨ha, hb, Int.sub_pos.mp hpos⟩

theorem lt_of_sub_neg {a b : Float} (h : b - a < 0) : b < a := by
  obtain ⟨hb, ha, hpos⟩ :=
    hasSign_sub (canonical_unpack _) (canonical_unpack _) (neg_iff.mp h).of_pack
  exact lt_iff.mpr ⟨hb, ha, Int.lt_of_sub_neg (Int.neg_of_neg_pos hpos)⟩

-- ---------------------------------------------------------------------------
-- Products with units
-- ---------------------------------------------------------------------------

theorem hasSign_mul {s t : Sign} {x : UnpackedFloat} {n : Nat} {f : Int} {hn : 0 < n}
    (h : HasSign s (UnpackedFloat.mul Format.binary64 x (.finite t n f hn))) :
    HasSign (s * t) x := by
  cases x with
  | notANumber => cases h
  | zero u => cases h
  | infinity u =>
    obtain rfl : u * t = s := h
    cases u <;> cases t <;> rfl
  | finite u m e hm =>
    obtain rfl : u * t = s := hasSign_roundWithAccuracy h
    cases u <;> cases t <;> rfl

theorem hasSign_add_zero {s t : Sign} {z : UnpackedFloat}
    (h : HasSign s (UnpackedFloat.add Format.binary64 (.zero t) z)) : HasSign s z := by
  cases z with
  | zero u => cases t <;> cases u <;> cases h
  | _ => exact h

theorem hasSign_addRounded_zero {s t : Sign} {x z : UnpackedFloat}
    (h : HasSign s (addRounded (exactProduct x (.zero t)) z)) : HasSign s z := by
  cases x with
  | notANumber => cases h
  | infinity u => cases h
  | zero u => exact hasSign_add_zero h
  | finite u m e hm => exact hasSign_add_zero h

theorem hasSign_addRounded_finite {s t : Sign} {x z : UnpackedFloat} {n : Nat}
    {f : Int} {hn : 0 < n}
    (hz : ∀ u, ¬ HasSign u z) (h : HasSign s (addRounded (exactProduct x (.finite t n f hn)) z)) :
    HasSign (s * t) x := by
  cases z with
  | infinity u => exact absurd rfl (hz u)
  | finite u m e hm => exact absurd rfl (hz u)
  | notANumber => cases x <;> cases h
  | zero u =>
    cases x with
    | notANumber => cases h
    | zero v => cases v <;> cases t <;> cases u <;> cases h
    | infinity v =>
      obtain rfl : v * t = s := h
      cases v <;> cases t <;> rfl
    | finite v m e hm =>
      obtain rfl : v * t = s := hasSign_roundWithAccuracy h
      cases v <;> cases t <;> rfl

end GlyphTable.Binary64
