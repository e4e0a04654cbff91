import GlyphTable.Proofs.Binary64.Packing

/-!
# The midpoint of two numbers

`midpoint_between`: as long as the sum of two numbers cannot overflow, half of it lies
between them, both operations rounded. The numbers themselves, and their doubles, are
numbers of the format, so rounding does not pass them.
-/

namespace GlyphTable.Binary64

open Float.Model (UnpackedFloat Format)
open Float.Model.UnpackedFloat (Sign)
open Unpacked (Finite Rounds ofMantissa)

def value (a : Float) : ℚ :=
  Unpacked.value a.toModel.unpack

/-- Whether the number is finite and so small that the sum of two such numbers is, too. -/
def Bounded (a : Float) : Prop :=
  a.isFinite = true ∧ |value a| ≤ 2 ^ 1022

instance (a : Float) : Decidable (Bounded a) :=
  inferInstanceAs (Decidable (_ ∧ _))

theorem finite_unpack {a : Float} (h : a.isFinite = true) : Finite a.toModel.unpack :=
  (canonical_unpack a.toModel).finite h

theorem isNumber_of_isFinite {a : Float} (h : a.isFinite = true) : IsNumber a := by
  intro hnan
  have hfinite : a.toModel.unpack.isFinite = true := h
  rw [hnan] at hfinite
  cases hfinite

theorem isFinite_of_finite {a : Float} (h : Finite a.toModel.unpack) : a.isFinite = true := by
  change a.toModel.unpack.isFinite = true
  rcases h.zero_or_finite with ⟨s, heq⟩ | ⟨s, m, e, hm, -, heq⟩ <;>
  · rw [heq]
    rfl

theorem le_iff_value_le {a b : Float} (ha : a.isFinite = true) (hb : b.isFinite = true) :
    a ≤ b ↔ value a ≤ value b := by
  rw [le_iff, place, place, ← Int.not_lt,
    place_lt_iff (finite_unpack hb) (finite_unpack ha), not_lt]
  exact ⟨fun h => h.2.2, fun h => ⟨isNumber_of_isFinite ha, isNumber_of_isFinite hb, h⟩⟩

theorem representable_value {x : UnpackedFloat} (h : Finite x) :
    Representable (Unpacked.value x) := by
  obtain ⟨s, m, e, ⟨hlt, hleast, -⟩, rfl⟩ := h
  refine ⟨s.apply m, e, ?_, hleast, ?_⟩
  · have habs : |s.apply (m : Int)| = m := by cases s <;> simp [Sign.apply]
    rw [habs]
    exact_mod_cast hlt
  · rw [value_ofMantissa]
    cases s with
    | positive => rfl
    | negative =>
      simp only [signed, Sign.apply]
      push_cast
      ring

theorem representable_of_isFinite {a : Float} (h : a.isFinite = true) : Representable (value a) :=
  representable_value (finite_unpack h)

theorem Unpacked.Rounds.unpack_pack {q : ℚ} {x : UnpackedFloat} (h : Rounds q x)
    (hq : |q| ≤ 2 ^ 52 * 2 ^ (971 : Int)) : (Float.Model.pack x).unpack = x := by
  obtain ⟨⟨s, m, e, hcanonical, rfl⟩, hfaithful⟩ := h
  have hlimit : Representable (2 ^ 52 * 2 ^ (971 : Int)) :=
    ⟨2 ^ 52, 971, by decide, by decide, by rw [Int.cast_pow, Int.cast_ofNat]⟩
  obtain ⟨hlow, hhigh⟩ := abs_le.mp hq
  have habove := (hfaithful _ hlimit).2 hhigh
  have hbelow := (hfaithful _ hlimit.neg).1 hlow
  rw [value_ofMantissa] at habove hbelow
  have hmagnitude : (m : ℚ) * 2 ^ e ≤ 2 ^ 52 * 2 ^ (971 : Int) := by
    cases s
    · exact neg_le_neg_iff.mp hbelow
    · exact habove
  have he : e ≤ 971 := by
    by_contra hgt
    have hm : (2 : ℚ) ^ 52 ≤ m := by exact_mod_cast hcanonical.2.2.resolve_right (by omega)
    have hpow : (2 : ℚ) ^ (971 : Int) < 2 ^ e := zpow_lt_zpow_right₀ (by norm_num) (by omega)
    have hgreat : (2 : ℚ) ^ 52 * 2 ^ (971 : Int) < m * 2 ^ e :=
      mul_lt_mul_of_le_of_lt_of_pos_of_nonneg hm hpow (by positivity) (by positivity)
    exact absurd hmagnitude (not_le.mpr hgreat)
  rw [Binary64.unpack_pack hcanonical, if_pos he]

theorem faithful_add {a b : Float} (ha : a.isFinite = true) (hb : b.isFinite = true)
    (h : |value a + value b| ≤ 2 ^ 52 * 2 ^ (971 : Int)) :
    (a + b).isFinite = true ∧ Faithful (value a + value b) (value (a + b)) := by
  have hrounds := (nearest_add (finite_unpack ha) (finite_unpack hb)).rounds
  have hpack : (a + b).toModel.unpack = _ := hrounds.unpack_pack h
  refine ⟨isFinite_of_finite (hpack ▸ hrounds.finite), ?_⟩
  have hfaithful := hrounds.faithful
  rw [← hpack] at hfaithful
  exact hfaithful

theorem faithful_half {a : Float} (ha : a.isFinite = true)
    (h : |value a / 2| ≤ 2 ^ 52 * 2 ^ (971 : Int)) :
    (a / 2).isFinite = true ∧ Faithful (value a / 2) (value (a / 2)) := by
  have hrounds := rounds_half (finite_unpack ha)
  have hpack : (a / 2).toModel.unpack = _ := hrounds.unpack_pack h
  refine ⟨isFinite_of_finite (hpack ▸ hrounds.finite), ?_⟩
  have hfaithful := hrounds.faithful
  rw [← hpack] at hfaithful
  exact hfaithful

theorem twice_limit : (2 : ℚ) * 2 ^ 1022 = 2 ^ 52 * 2 ^ (971 : Int) := by
  rw [← pow_succ', ← zpow_natCast, ← zpow_natCast, ← zpow_add₀ (by norm_num)]
  rfl

theorem Faithful.between_doubles {p q sum : ℚ} (hp : Representable p) (hq : Representable q)
    (hle : p ≤ q) (hsum : Faithful (p + q) sum) : 2 * p ≤ sum ∧ sum ≤ 2 * q :=
  ⟨(hsum _ hp.double).1 (by linarith), (hsum _ hq.double).2 (by linarith)⟩

/-- Half the rounded sum is as faithful to the exact middle as one rounding would be. -/
theorem Faithful.half {q sum half : ℚ} (hsum : Faithful q sum) (hhalf : Faithful (sum / 2) half) :
    Faithful (q / 2) half := by
  intro y hy
  obtain ⟨hlow, hhigh⟩ := hsum _ hy.double
  exact ⟨fun hle => (hhalf y hy).1 (by linarith [hlow (by linarith)]),
    fun hge => (hhalf y hy).2 (by linarith [hhigh (by linarith)])⟩

theorem Faithful.between {p q half : ℚ} (hp : Representable p) (hq : Representable q) (hle : p ≤ q)
    (h : Faithful ((p + q) / 2) half) : p ≤ half ∧ half ≤ q :=
  ⟨(h _ hp).1 (by linarith), (h _ hq).2 (by linarith)⟩

theorem midpoint_between {a b : Float} (ha : Bounded a) (hb : Bounded b) (h : a ≤ b) :
    a ≤ (a + b) / 2 ∧ (a + b) / 2 ≤ b := by
  obtain ⟨hafinite, ha⟩ := ha
  obtain ⟨hbfinite, hb⟩ := hb
  have hle := (le_iff_value_le hafinite hbfinite).mp h
  have harep := representable_of_isFinite hafinite
  have hbrep := representable_of_isFinite hbfinite
  have hlimit : (0 : ℚ) ≤ 2 ^ 1022 := by positivity
  have hsumlimit := faithful_add hafinite hbfinite
  have hhalflimit := faithful_half (a := a + b)
  rw [← twice_limit] at hsumlimit hhalflimit
  generalize (2 : ℚ) ^ 1022 = limit at *
  obtain ⟨halow, hahigh⟩ := abs_le.mp ha
  obtain ⟨hblow, hbhigh⟩ := abs_le.mp hb
  obtain ⟨hsum, hfaithful⟩ := hsumlimit (abs_le.mpr ⟨by linarith, by linarith⟩)
  obtain ⟨hsumlow, hsumhigh⟩ := hfaithful.between_doubles harep hbrep hle
  obtain ⟨hhalf, hfaithful'⟩ := hhalflimit hsum (abs_le.mpr ⟨by linarith, by linarith⟩)
  rw [le_iff_value_le hafinite hhalf, le_iff_value_le hhalf hbfinite]
  exact (hfaithful.half hfaithful').between harep hbrep hle

end GlyphTable.Binary64
