import GlyphTable.Geometry.Orientation
import GlyphTable.Glyph
import GlyphTable.Proofs.Binary64.Monotone

/-!
# What a search box reaches

Scalar products with the unit vectors of an orientation give coordinates back unrounded
(`Orientation.places_of_dots`), so a glyph on the line of another is off from it by less
than the margin either way, infinite sizes included. The search box of a glyph holds every
glyph that follows on its line (`Glyph.searchBox?_holds`).
-/

namespace GlyphTable

namespace Binary64

open Float.Model (UnpackedFloat Format)
open Float.Model.UnpackedFloat (Sign)
open Unpacked (Finite Rounds)

variable {a b p q r u : Float} {s : Sign}

-- ---------------------------------------------------------------------------
-- Finite operands
-- ---------------------------------------------------------------------------

theorem isFinite_of_pack {x : UnpackedFloat} (h : (Float.Model.pack x).unpack.isFinite = true) :
    x.isFinite = true := by
  cases x with
  | notANumber => rwa [unpack_pack_canonical (x := .notANumber) trivial] at h
  | infinity s => rwa [unpack_pack_canonical (x := .infinity s) trivial] at h
  | zero s => rfl
  | finite s m e hm => rfl

theorem isFinite_of_sub_unpacked {x y : UnpackedFloat}
    (h : (UnpackedFloat.sub Format.binary64 x y).isFinite = true) :
    x.isFinite = true ∧ y.isFinite = true := by
  cases x with
  | notANumber => cases h
  | infinity s =>
    cases y with
    | infinity t => cases s <;> cases t <;> cases h
    | _ => cases h
  | zero s =>
    cases y with
    | notANumber => cases h
    | infinity t => cases h
    | _ => exact ⟨rfl, rfl⟩
  | finite s m e hm =>
    cases y with
    | notANumber => cases h
    | infinity t => cases h
    | _ => exact ⟨rfl, rfl⟩

theorem isFinite_of_sub (h : (a - b).isFinite = true) : a.isFinite = true ∧ b.isFinite = true :=
  isFinite_of_sub_unpacked (isFinite_of_pack h)

theorem isFinite_of_exactProduct_zero {x : UnpackedFloat}
    (h : exactProduct x (.zero s) ≠ .notANumber) :
    x.isFinite = true := by
  cases x with
  | notANumber => exact absurd rfl h
  | infinity t => exact absurd rfl h
  | zero t => rfl
  | finite t m e hm => rfl

theorem isFinite_of_mul_zero (h : IsNumber (a * 0)) : a.isFinite = true := by
  have hmul : UnpackedFloat.mul Format.binary64 a.toModel.unpack (.zero .positive) ≠ .notANumber :=
    ne_notANumber_of_pack h
  change a.toModel.unpack.isFinite = true
  cases hx : a.toModel.unpack with
  | notANumber => rw [hx] at hmul; exact absurd rfl hmul
  | infinity t => rw [hx] at hmul; exact absurd rfl hmul
  | zero t => rfl
  | finite t m e hm => rfl

theorem isNumber_of_fusedMulAdd (h : IsNumber (fusedMulAdd p q r)) :
    exactProduct p.toModel.unpack q.toModel.unpack ≠ .notANumber ∧ IsNumber r := by
  have hadd : addRounded (exactProduct p.toModel.unpack q.toModel.unpack) r.toModel.unpack ≠
      .notANumber :=
    ne_notANumber_of_pack h
  constructor
  · intro hnan
    rw [hnan] at hadd
    exact hadd rfl
  · intro hnan
    rw [hnan] at hadd
    cases hx : exactProduct p.toModel.unpack q.toModel.unpack <;> rw [hx] at hadd <;> exact hadd rfl

-- ---------------------------------------------------------------------------
-- Products with units
-- ---------------------------------------------------------------------------

def IsUnit (s : Sign) (u : Float) : Prop :=
  ∃ hm, u.toModel.unpack = .finite s (2 ^ 52) (-52) hm

theorem IsUnit.value_eq (h : IsUnit s u) : value u = signed s 1 := by
  obtain ⟨hm, h⟩ := h
  rw [value, h]
  simp only [Unpacked.value]
  norm_num

theorem IsUnit.isFinite (h : IsUnit s u) : u.isFinite = true := by
  obtain ⟨hm, h⟩ := h
  change u.toModel.unpack.isFinite = true
  rw [h]
  rfl

theorem RoundedTo.abs_place_eq {c : Float} (h : RoundedTo (signed s (value a)) c)
    (ha : a.isFinite = true) : |place c| = |place a| := by
  cases s with
  | positive => rw [h.place_eq ha]
  | negative =>
    have h : RoundedTo (value (-a)) c := by rwa [value_neg]
    rw [h.place_eq (isFinite_neg ha), place_neg, abs_neg]

theorem signed_mul_one (s : Sign) (q : ℚ) : q * signed s 1 = signed s q := by
  cases s
  · exact mul_neg_one q
  · exact mul_one q

theorem exactProduct_zero {x : UnpackedFloat} (hx : Finite x) (s : Sign) :
    ∃ t, exactProduct x (.zero s) = .zero t := by
  rcases hx.zero_or_finite with ⟨t, rfl⟩ | ⟨t, m, e, hm, -, rfl⟩
  · exact ⟨t * s, rfl⟩
  · exact ⟨t * s, rfl⟩

theorem mul_zero_unpacked {x : UnpackedFloat} (hx : Finite x) (s : Sign) :
    ∃ t, UnpackedFloat.mul Format.binary64 x (.zero s) = .zero t := by
  rcases hx.zero_or_finite with ⟨t, rfl⟩ | ⟨t, m, e, hm, -, rfl⟩
  · exact ⟨t * s, rfl⟩
  · exact ⟨t * s, rfl⟩

theorem place_addRounded_zero {x : UnpackedFloat} (hx : Unpacked.Canonical x) (s : Sign) :
    Unpacked.place (Float.Model.pack (addRounded (.zero s) x)).unpack = Unpacked.place x := by
  cases x with
  | zero t => cases s <;> cases t <;> rfl
  | notANumber => exact congrArg Unpacked.place (unpack_pack_canonical hx)
  | infinity t => exact congrArg Unpacked.place (unpack_pack_canonical hx)
  | finite t m e hm => exact congrArg Unpacked.place (unpack_pack_canonical hx)

theorem roundedTo_fusedMulAdd_unit (hu : IsUnit s u) (hp : p.isFinite = true)
    (hq : q.isFinite = true) :
    RoundedTo (signed s (value p)) (fusedMulAdd p u (q * 0)) := by
  obtain ⟨t, hmul⟩ := mul_zero_unpacked (finite_unpack hq) .positive
  have hzero : (q * 0).toModel.unpack = .zero t :=
    unpack_of_pack (congrArg Float.Model.pack hmul) trivial
  have hfused : Rounds (signed s (value p))
      (addRounded (exactProduct p.toModel.unpack u.toModel.unpack) (q * 0).toModel.unpack) := by
    obtain ⟨hone, hu⟩ := hu
    rw [hzero, hu, value]
    rcases (finite_unpack hp).zero_or_finite with ⟨v, heq⟩ | ⟨v, m, e, hm, -, heq⟩
    · rw [heq, value_zero]
      have hsum : ∃ w, addRounded (exactProduct (.zero v) (.finite s (2 ^ 52) (-52) hone))
          (.zero t) = .zero w := by
        cases v <;> cases s <;> cases t <;> exact ⟨_, rfl⟩
      obtain ⟨w, hsum⟩ := hsum
      rw [hsum]
      refine ⟨finite_zero w, ?_⟩
      cases s <;> simpa [signed, value_zero] using Faithful.refl 0
    · rw [heq]
      have hround := (nearest_round (v * s) (m := m * 2 ^ 52) (by positivity) (e + -52)).rounds
      have hvalue : signed (v * s) ((m * 2 ^ 52 : Nat) * 2 ^ (e + -52)) =
          signed s (Unpacked.value (.finite v m e hm)) := by
        rw [Unpacked.value, ← signed_mul_one s, ← signed_mul, zpow_add₀ (by norm_num)]
        push_cast
        congr 1
        ring_nf
      rw [hvalue] at hround
      exact hround
  exact hfused.roundedTo rfl

theorem abs_place_fusedMulAdd_unit (hu : IsUnit s u) (hp : p.isFinite = true)
    (hq : q.isFinite = true) :
    |place (fusedMulAdd p u (q * 0))| = |place p| :=
  (roundedTo_fusedMulAdd_unit hu hp hq).abs_place_eq hp

theorem roundedTo_fusedMulAdd_zero (hp : p.isFinite = true) (hq : q.isFinite = true) :
    RoundedTo (value q) (fusedMulAdd p 0 q) := by
  obtain ⟨t, hzero⟩ := exactProduct_zero (finite_unpack hp) .positive
  have hfused : (fusedMulAdd p 0 q).toModel =
      Float.Model.pack (addRounded (.zero t) q.toModel.unpack) :=
    congrArg (fun x => Float.Model.pack (addRounded x q.toModel.unpack)) hzero
  have hadd : addRounded (.zero t) q.toModel.unpack =
      UnpackedFloat.add Format.binary64 (.zero t) q.toModel.unpack := by
    cases q.toModel.unpack <;> rfl
  have hsum := (nearest_add (finite_zero t) (finite_unpack hq)).rounds
  rw [value_zero, zero_add, ← hadd] at hsum
  exact hsum.roundedTo (congrArg Float.Model.unpack hfused)

theorem abs_place_fusedMulAdd_zero (hu : IsUnit s u) (hp : p.isFinite = true)
    (hq : q.isFinite = true) :
    |place (fusedMulAdd p 0 (q * u))| = |place q| := by
  have hproduct := roundedTo_mul hq hu.isFinite
  rw [hu.value_eq, signed_mul_one] at hproduct
  rw [← hproduct.abs_place_eq hq]
  obtain ⟨t, hzero⟩ := exactProduct_zero (finite_unpack hp) .positive
  have hsum : (fusedMulAdd p 0 (q * u)).toModel =
      Float.Model.pack (addRounded (.zero t) (q * u).toModel.unpack) :=
    congrArg (fun x => Float.Model.pack (addRounded x (q * u).toModel.unpack)) hzero
  rw [place, place, hsum, place_addRounded_zero (canonical_unpack _)]

theorem unpack_zero : (0 : Float).toModel.unpack = .zero .positive :=
  rfl

theorem isUnit_one : IsUnit .positive 1 :=
  ⟨by decide, rfl⟩

theorem isUnit_neg_one : IsUnit .negative (-1) :=
  ⟨by decide, rfl⟩

-- ---------------------------------------------------------------------------
-- Distances
-- ---------------------------------------------------------------------------

theorem eq_positive_of_place_pos (h : 0 < place r) (hr : r.toModel.unpack = .infinity s) :
    s = .positive := by
  rw [place, hr] at h
  cases s with
  | positive => rfl
  | negative => exact absurd h (by decide)

theorem unpack_sub_infinity (hp : p.isFinite = true) (hr : r.toModel.unpack = .infinity .positive) :
    (p - r).toModel.unpack = .infinity .negative := by
  have hneg : (-r).toModel.unpack = .infinity .negative := by
    rw [unpack_neg, hr]
    rfl
  have hsum := unpack_infinity_add hneg hp
  rw [add_comm] at hsum
  rw [← hsum]
  refine congrArg (fun x => (Float.Model.pack x).unpack) ?_
  rw [unpack_neg]
  exact sub_eq_add _ _

theorem within_of_sub (hp : p.isFinite = true) (hq : q.isFinite = true) (hr : IsNumber r)
    (h : |place (q - p)| < place r) : p - r ≤ q ∧ q ≤ p + r := by
  obtain ⟨hlow, hhigh⟩ := abs_lt.mp h
  have hsub := roundedTo_sub hq hp
  rcases finite_or_infinity hr with hr | ⟨s, hinfinite⟩
  · constructor
    · refine (roundedTo_sub hp hr).ge_of_ge q hq ?_
      by_contra hlt
      have hle := hsub.ge_of_ge (-r) (isFinite_neg hr) (by rw [value_neg]; linarith)
      have hplace := (le_iff.mp hle).2.2
      rw [place_neg] at hplace
      omega
    · refine (roundedTo_add hp hr).le_of_le q hq ?_
      by_contra hlt
      have hplace := (le_iff.mp (hsub.le_of_le r hr (by linarith))).2.2
      omega
  · obtain rfl := eq_positive_of_place_pos ((abs_nonneg _).trans_lt h) hinfinite
    have hnumber := isNumber_of_isFinite hq
    refine ⟨infinity_le (unpack_sub_infinity hp hinfinite) hnumber, le_of_infinity hnumber ?_⟩
    rw [add_comm]
    exact unpack_infinity_add hinfinite hp

theorem mul_comm_unpacked (x y : UnpackedFloat) :
    UnpackedFloat.mul Format.binary64 x y = UnpackedFloat.mul Format.binary64 y x := by
  have hsign (s t : Sign) : s * t = t * s := by cases s <;> cases t <;> rfl
  cases x <;> cases y <;>
    simp only [UnpackedFloat.mul, hsign, Nat.mul_comm, Int.add_comm]

theorem mul_comm (a b : Float) : a * b = b * a :=
  congrArg (fun x => Float.ofModel (Float.Model.pack x)) (mul_comm_unpacked _ _)

end Binary64

open Binary64 (place IsNumber IsUnit)

theorem Point.places_of_dots {v : Point} {u w : Float} {s t : Float.Model.UnpackedFloat.Sign}
    (hu : IsUnit s u) (hw : IsUnit t w) (h : IsNumber (v.dot ⟨u, 0⟩))
    (h' : IsNumber (v.dot ⟨0, w⟩)) :
    v.x.isFinite = true ∧ v.y.isFinite = true ∧ |place v.x| = |place (v.dot ⟨u, 0⟩)| ∧
      |place v.y| = |place (v.dot ⟨0, w⟩)| := by
  have hproduct := (Binary64.isNumber_of_fusedMulAdd h').1
  rw [Binary64.unpack_zero] at hproduct
  have hx := Binary64.isFinite_of_exactProduct_zero hproduct
  have hy := Binary64.isFinite_of_mul_zero (Binary64.isNumber_of_fusedMulAdd h).2
  exact ⟨hx, hy, (Binary64.abs_place_fusedMulAdd_unit hu hx hy).symm,
    (Binary64.abs_place_fusedMulAdd_zero hw hx hy).symm⟩

theorem Orientation.places_of_dots (o : Orientation) {v : Point}
    (hahead : IsNumber (v.dot o.direction))
    (haside : IsNumber (v.dot o.lineAdvance)) :
    v.x.isFinite = true ∧ v.y.isFinite = true ∧
      (|place v.x| = |place (v.dot o.direction)| ∧ |place v.y| = |place (v.dot o.lineAdvance)| ∨
        |place v.x| = |place (v.dot o.lineAdvance)| ∧
          |place v.y| = |place (v.dot o.direction)|) := by
  open Binary64 in
  cases o with
  | east =>
    obtain ⟨hx, hy, h⟩ := Point.places_of_dots isUnit_one isUnit_one hahead haside
    exact ⟨hx, hy, .inl h⟩
  | north =>
    obtain ⟨hx, hy, h⟩ := Point.places_of_dots isUnit_neg_one isUnit_one haside hahead
    exact ⟨hx, hy, .inr h⟩
  | west =>
    obtain ⟨hx, hy, h⟩ := Point.places_of_dots isUnit_neg_one isUnit_neg_one hahead haside
    exact ⟨hx, hy, .inl h⟩
  | south =>
    obtain ⟨hx, hy, h⟩ := Point.places_of_dots isUnit_one isUnit_neg_one haside hahead
    exact ⟨hx, hy, .inr h⟩

theorem Binary64.pos_of_mul_pos {m size : Float} (hm : 0 < m) (hfinite : m.isFinite = true)
    (h : 0 < m * size) : 0 < size := by
  rw [Binary64.mul_comm] at h
  have hsign := Binary64.pos_iff.mp hm
  have hmul : Binary64.Unpacked.HasSign .positive
      (Float.Model.UnpackedFloat.mul _ size.toModel.unpack m.toModel.unpack) :=
    (Binary64.pos_iff.mp h).of_pack
  rcases (Binary64.finite_unpack hfinite).zero_or_finite with ⟨s, heq⟩ | ⟨s, n, e, hn, -, heq⟩
  · rw [heq] at hsign
    cases hsign
  · rw [heq] at hsign hmul
    obtain rfl : s = .positive := hsign
    exact Binary64.pos_iff.mpr (Binary64.hasSign_mul hmul)

theorem Spacing.eq_of_ofMargin {margin : Float} {s : Spacing} (hs : ofMargin margin = .ok s) :
    margin.isFinite = true ∧ 0 < margin ∧ s = ⟨margin⟩ := by
  rw [ofMargin] at hs
  split at hs
  · next hmargin => exact ⟨hmargin.1, hmargin.2, (Except.ok.inj hs).symm⟩
  · cases hs

/-- The search box covers the margin. -/
theorem Spacing.limit_le_reach {margin : Float} {s : Spacing} (hs : ofMargin margin = .ok s)
    {size : Float}
    (h : 0 < s.glyphMargin * size) : s.glyphMargin * size ≤ s.reach size := by
  obtain ⟨hfinite, hpos, rfl⟩ := eq_of_ofMargin hs
  have hone : leastReach.isFinite = true := Binary64.isUnit_one.isFinite
  have hgreater : (Binary64.greater margin leastReach).isFinite = true := by
    rcases Binary64.greater_eq margin leastReach with heq | heq <;> rwa [heq]
  have hle := (Binary64.le_greater (Binary64.isNumber_of_isFinite hfinite)
    (Binary64.isNumber_of_isFinite hone)).1
  rw [reach, Binary64.mul_comm size]
  exact Binary64.mul_le_mul_right hfinite hgreater hpos hle (Binary64.pos_of_mul_pos hpos hfinite h)

theorem Glyph.off_of_ahead {margin : Float} {s : Spacing} (hs : Spacing.ofMargin margin = .ok s)
    {c d : Glyph} {ahead : Float} (h : c.ahead? s d = some ahead) :
    let offset := c.center.vectorTo d.center
    offset.x.isFinite = true ∧ offset.y.isFinite = true ∧ IsNumber (s.reach c.size) ∧
      |place offset.x| < place (s.reach c.size) ∧ |place offset.y| < place (s.reach c.size) := by
  simp only [ahead?, Option.ite_none_right_eq_some, Option.some.injEq] at h
  obtain ⟨⟨-, hpos, hlimit, haside⟩, rfl⟩ := h
  obtain ⟨habs, hahead, hplace⟩ := Binary64.lt_iff.mp haside
  have hreach := Spacing.limit_le_reach hs (Binary64.lt_trans hpos hlimit)
  obtain ⟨-, hnumber, hlt⟩ := Binary64.lt_iff.mp (Binary64.lt_of_lt_of_le hlimit hreach)
  have hpositive : 0 < place ((c.center.vectorTo d.center).dot c.orientation.direction) :=
    (Binary64.lt_iff.mp hpos).2.2
  rw [Binary64.place_abs] at hplace
  rw [← abs_of_pos hpositive] at hplace hlt
  obtain ⟨hx, hy, ⟨hdx, hdy⟩ | ⟨hdx, hdy⟩⟩ :=
    c.orientation.places_of_dots hahead (Binary64.isNumber_abs habs)
  · exact ⟨hx, hy, hnumber, hdx ▸ hlt, hdy ▸ hplace.trans hlt⟩
  · exact ⟨hx, hy, hnumber, hdx ▸ hplace.trans hlt, hdy ▸ hlt⟩

/-- The search box of a glyph holds whatever stands ahead of it on its line. -/
theorem Glyph.searchBox?_holds {margin : Float} {s : Spacing} (hs : Spacing.ofMargin margin = .ok s)
    {c d : Glyph} {ahead : Float} (h : c.ahead? s d = some ahead) :
    ∃ area, c.searchBox? s = some area ∧ area.Holds d.center := by
  obtain ⟨hx, hy, hnumber, hdx, hdy⟩ := off_of_ahead hs h
  obtain ⟨hdxfinite, hcxfinite⟩ := Binary64.isFinite_of_sub hx
  obtain ⟨hdyfinite, hcyfinite⟩ := Binary64.isFinite_of_sub hy
  obtain ⟨hleft, hright⟩ := Binary64.within_of_sub hcxfinite hdxfinite hnumber hdx
  obtain ⟨htop, hbottom⟩ := Binary64.within_of_sub hcyfinite hdyfinite hnumber hdy
  have hvalid : Box.Valid ⟨c.center.x - s.reach c.size, c.center.y - s.reach c.size,
      c.center.x + s.reach c.size, c.center.y + s.reach c.size⟩ :=
    ⟨Binary64.le_trans hleft hright, Binary64.le_trans htop hbottom⟩
  refine ⟨⟨c.center.x - s.reach c.size, c.center.y - s.reach c.size,
    c.center.x + s.reach c.size, c.center.y + s.reach c.size⟩, ?_, hleft, hright, htop, hbottom⟩
  simp only [searchBox?, Box.centered, Box.ofEdges, if_pos hvalid]
  rfl

end GlyphTable
