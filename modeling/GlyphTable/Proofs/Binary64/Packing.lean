import GlyphTable.Proofs.Binary64.Rounding

/-!
# Numbers as they are stored

A finite number of the format survives packing (`unpack_pack`), a greater one becomes
infinite, and none changes its sign. Finite numbers stand in the order of their values
(`place_lt_iff`).
-/

namespace GlyphTable.Binary64

open Float.Model (UnpackedFloat Format)
open Float.Model.UnpackedFloat (Sign)
open Unpacked (Finite ofMantissa)

-- ---------------------------------------------------------------------------
-- Packing
-- ---------------------------------------------------------------------------

theorem unpackSign_packComponents {format : Format} (s : Sign) (e : BitVec format.exponentBits)
    (m : BitVec format.mantissaBitsWithoutImplicit) :
    UnpackedFloat.unpackSign (UnpackedFloat.packComponents format s e m) = s.toBitVec := by
  ext i hi
  obtain rfl : i = 0 := by omega
  simp [UnpackedFloat.unpackSign, UnpackedFloat.packComponents, BitVec.getLsbD_append,
    BitVec.getElem_append]

theorem unpack_packComponents (s : Sign) (e : BitVec 11) (m : BitVec 52) :
    UnpackedFloat.unpack Format.binary64 (UnpackedFloat.packComponents Format.binary64 s e m) =
      Unpacked.ofFields s e m := by
  have hsign : Sign.ofBitVec s.toBitVec = s := by cases s <;> rfl
  rw [unpack_eq_ofFields, UnpackedFloat.unpackExponent_packComponents,
    UnpackedFloat.unpackMantissa_packComponents, unpackSign_packComponents, hsign]

theorem unpack_pack_eq (x : UnpackedFloat) :
    (Float.Model.pack x).unpack =
      UnpackedFloat.unpack Format.binary64 (UnpackedFloat.pack Format.binary64 x) :=
  rfl

theorem ofFields_subnormal {s : Sign} {m : Nat} (hne : m ≠ 0) (hm : m < 2 ^ 52) :
    Unpacked.ofFields s 0#11 (BitVec.ofNat 52 m) =
      .finite s m (-1074) (Nat.pos_of_ne_zero hne) := by
  have hmantissa : (BitVec.ofNat 52 m).toNat = m := by
    rw [BitVec.toNat_ofNat, Nat.mod_eq_of_lt hm]
  have hmne : BitVec.ofNat 52 m ≠ 0#52 := by
    intro heq
    rw [heq] at hmantissa
    exact hne hmantissa.symm
  rw [Unpacked.ofFields, if_neg (by decide), if_pos rfl, dif_neg hmne]
  simp only [hmantissa]

theorem ofFields_normal {s : Sign} {m : Nat} {e : Int} (hm : 2 ^ 52 ≤ m) (hlt : m < 2 ^ 53)
    (hleast : -1074 ≤ e) (he : e ≤ 971) :
    Unpacked.ofFields s (BitVec.ofNat 11 (e + 1023 + (52 : Nat)).toNat) (BitVec.ofNat 52 m) =
      .finite s m e (Nat.lt_of_lt_of_le (by decide) hm) := by
  have hexponent : (BitVec.ofNat 11 (e + 1023 + (52 : Nat)).toNat).toNat = (e + 1075).toNat := by
    rw [BitVec.toNat_ofNat, Nat.mod_eq_of_lt] <;> omega
  have hmantissa : 2 ^ 52 + (BitVec.ofNat 52 m).toNat = m := by
    rw [BitVec.toNat_ofNat]
    omega
  have hones : BitVec.ofNat 11 (e + 1023 + (52 : Nat)).toNat ≠ -1#11 := by
    intro heq
    rw [heq, show (-1#11).toNat = 2047 from rfl] at hexponent
    omega
  have hzeros : BitVec.ofNat 11 (e + 1023 + (52 : Nat)).toNat ≠ 0#11 := by
    intro heq
    rw [heq, show (0#11).toNat = 0 from rfl] at hexponent
    omega
  have hback : ((e + 1075).toNat : Int) - 1075 = e := by omega
  rw [Unpacked.ofFields, if_neg hones, if_neg hzeros]
  simp only [hexponent, hmantissa, hback]

/-- Packing keeps the sign and makes infinite what is too great. -/
theorem unpack_pack {s : Sign} {m : Nat} {e : Int} (h : Canonical m e) :
    (Float.Model.pack (ofMantissa s m e)).unpack =
      if e ≤ 971 then ofMantissa s m e else .infinity s := by
  obtain ⟨hlt, hleast, hfull⟩ := h
  rw [unpack_pack_eq, ofMantissa]
  split
  · next hzero =>
    rw [if_pos (by omega)]
    exact unpack_packComponents s 0 0
  · next hne =>
    have hbias : (Format.binary64.exponentBias : Int) = 1023 := rfl
    have hbits : Format.binary64.mantissaBits = 53 := rfl
    have hlog := (Nat.log2_lt hne).mpr hlt
    simp only [UnpackedFloat.pack, hbias]
    by_cases he : e ≤ 971
    · rw [if_neg (by omega), if_pos he]
      rcases Nat.lt_or_ge m (2 ^ 52) with hm | hm
      · have hlow := (Nat.log2_lt hne).mpr hm
        obtain rfl : e = -1074 := hfull.resolve_left (by omega)
        rw [if_neg (by omega), unpack_packComponents]
        exact ofFields_subnormal hne hm
      · have hhigh := (Nat.le_log2 hne).mpr hm
        rw [if_pos (by omega), unpack_packComponents]
        exact ofFields_normal hm hlt hleast he
    · rw [if_pos (by omega), if_neg he]
      exact unpack_packComponents s (-1#11) 0

theorem Unpacked.Canonical.finite {x : UnpackedFloat} (h : Unpacked.Canonical x)
    (hfinite : x.isFinite = true) : Finite x := by
  cases x with
  | notANumber => cases hfinite
  | infinity => cases hfinite
  | zero s => exact finite_zero s
  | finite s m e hm => exact ⟨s, m, e, h.1, by rw [ofMantissa, dif_neg (Nat.ne_of_gt hm)]⟩

-- ---------------------------------------------------------------------------
-- Values
-- ---------------------------------------------------------------------------

theorem place_ofMantissa {s : Sign} {m : Nat} {e : Int} (h : Canonical m e) :
    Unpacked.place (ofMantissa s m e) = s.apply ((e + 1074) * 2 ^ 52 + m) := by
  rw [ofMantissa]
  split
  · next hzero =>
    obtain rfl : e = -1074 := h.2.2.resolve_left (by omega)
    rw [hzero]
    rfl
  · rfl

theorem value_lt_of_steps_lt {m n : Nat} {e f : Int} (hm : Canonical m e) (hn : Canonical n f)
    (h : (e + 1074) * 2 ^ 52 + (m : Int) < (f + 1074) * 2 ^ 52 + n) :
    (m : ℚ) * 2 ^ e < n * 2 ^ f := by
  obtain ⟨hmlt, hmleast, hmfull⟩ := hm
  obtain ⟨hnlt, hnleast, hnfull⟩ := hn
  rcases Int.lt_trichotomy e f with hef | rfl | hef
  · have hm' : (m : ℚ) < 2 ^ 53 := by exact_mod_cast hmlt
    have hn' : (2 : ℚ) ^ 52 ≤ n := by exact_mod_cast hnfull.resolve_right (by omega)
    calc (m : ℚ) * 2 ^ e < 2 ^ 53 * 2 ^ e := by gcongr
      _ = 2 ^ 52 * 2 ^ (e + 1) := by rw [zpow_add_one₀ (by norm_num)]; ring
      _ ≤ n * 2 ^ f := by
        gcongr
        · norm_num
        · omega
  · have hmn : (m : ℚ) < n := by exact_mod_cast (by omega : m < n)
    gcongr
  · omega

theorem steps_lt_iff_value_lt {m n : Nat} {e f : Int} (hm : Canonical m e) (hn : Canonical n f) :
    (e + 1074) * 2 ^ 52 + (m : Int) < (f + 1074) * 2 ^ 52 + n ↔ (m : ℚ) * 2 ^ e < n * 2 ^ f := by
  refine ⟨value_lt_of_steps_lt hm hn, fun h => ?_⟩
  by_contra hle
  rcases Int.lt_or_eq_of_le (Int.not_lt.mp hle) with hlt | heq
  · exact lt_asymm h (value_lt_of_steps_lt hn hm hlt)
  · obtain ⟨hmlt, hmleast, hmfull⟩ := hm
    obtain ⟨hnlt, hnleast, hnfull⟩ := hn
    obtain rfl : e = f := by omega
    obtain rfl : m = n := by omega
    exact Rat.lt_irrefl h

theorem place_lt_iff {x y : UnpackedFloat} (hx : Finite x) (hy : Finite y) :
    Unpacked.place x < Unpacked.place y ↔ Unpacked.value x < Unpacked.value y := by
  obtain ⟨s, m, e, hm, rfl⟩ := hx
  obtain ⟨t, n, f, hn, rfl⟩ := hy
  have hmn := steps_lt_iff_value_lt hm hn
  have hnm := steps_lt_iff_value_lt hn hm
  have hzero : Canonical 0 (-1074) := ⟨by decide, by decide, .inr rfl⟩
  have hmzero := steps_lt_iff_value_lt hzero hm
  have hnzero := steps_lt_iff_value_lt hzero hn
  rw [place_ofMantissa hm, place_ofMantissa hn, value_ofMantissa, value_ofMantissa]
  simp only [Nat.cast_zero, zero_mul, Int.reduceNeg, Int.reduceAdd] at hmzero hnzero
  have hA : 0 ≤ (e + 1074) * 2 ^ 52 + (m : Int) := by have := hm.2.1; omega
  have hB : 0 ≤ (f + 1074) * 2 ^ 52 + (n : Int) := by have := hn.2.1; omega
  have ha : (0 : ℚ) ≤ m * 2 ^ e := by positivity
  have hb : (0 : ℚ) ≤ n * 2 ^ f := by positivity
  generalize (e + 1074) * 2 ^ 52 + (m : Int) = A at *
  generalize (f + 1074) * 2 ^ 52 + (n : Int) = B at *
  generalize (m : ℚ) * 2 ^ e = a at *
  generalize (n : ℚ) * 2 ^ f = b at *
  cases s <;> cases t <;> simp only [Sign.apply, signed]
  · rw [Int.neg_lt_neg_iff, neg_lt_neg_iff]
    exact hnm
  · constructor
    · intro h
      rcases Int.lt_or_le 0 A with hA | hA
      · have := hmzero.mp (by omega)
        linarith
      · have := hnzero.mp (by omega)
        linarith
    · intro h
      rcases ha.eq_or_lt with ha | ha
      · have := hnzero.mpr (by linarith)
        omega
      · have := hmzero.mpr ha
        omega
  · constructor
    · intro h
      omega
    · intro h
      linarith
  · exact hmn

end GlyphTable.Binary64
