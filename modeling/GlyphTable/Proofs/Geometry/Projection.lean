import GlyphTable.Proofs.Binary64.Whole
import GlyphTable.Proofs.Geometry.Ahead
import GlyphTable.Proofs.Geometry.Reach

/-!
# Sorting by projection

Glyphs are sorted along their line, and lines down their block, by scalar products of their
centers with a unit vector. For finite points the product is the coordinate itself, so it puts
them in the order in which they lie ahead of each other (`Orientation.dot_lt_dot_iff`). A finite
positive distance is enough for that (`Orientation.dot_lt_dot`): the product of the difference
is finite only where both points are.
-/

namespace GlyphTable

namespace Binary64

open Float.Model (UnpackedFloat Format)
open Float.Model.UnpackedFloat (Sign)

variable {a b c : Float} {s : Sign}

theorem isFinite_of_mul (h : (a * b).isFinite = true) : a.isFinite = true := by
  have hmul : (UnpackedFloat.mul Format.binary64 a.toModel.unpack
      b.toModel.unpack).isFinite = true :=
    isFinite_of_pack h
  change a.toModel.unpack.isFinite = true
  cases hx : a.toModel.unpack with
  | notANumber => rw [hx] at hmul; cases hmul
  | infinity t => rw [hx] at hmul; cases hy : b.toModel.unpack <;> rw [hy] at hmul <;> cases hmul
  | zero t => rfl
  | finite t m e hm => rfl

theorem isFinite_of_addRounded {x y : UnpackedFloat} (h : (addRounded x y).isFinite = true) :
    x.isFinite = true ∧ y.isFinite = true := by
  cases x with
  | notANumber => cases h
  | infinity s =>
    cases y with
    | infinity t => cases s <;> cases t <;> cases h
    | _ => cases h
  | zero s =>
    cases y with
    | notANumber => cases h
    | infinity t => cases h
    | _ => exact ⟨rfl, rfl⟩
  | finite s m e hm =>
    cases y with
    | notANumber => cases h
    | infinity t => cases h
    | _ => exact ⟨rfl, rfl⟩

theorem isFinite_of_exactProduct {x y : UnpackedFloat} (h : (exactProduct x y).isFinite = true) :
    x.isFinite = true := by
  cases x with
  | notANumber => cases y <;> cases h
  | infinity s => cases y <;> cases h
  | zero s => rfl
  | finite s m e hm => rfl

theorem isFinite_of_fusedMulAdd (h : (fusedMulAdd a b c).isFinite = true) :
    a.isFinite = true ∧ c.isFinite = true := by
  obtain ⟨hproduct, hsummand⟩ := isFinite_of_addRounded (isFinite_of_pack h)
  exact ⟨isFinite_of_exactProduct hproduct, hsummand⟩

theorem RoundedTo.value_eq_signed (h : RoundedTo (signed s (value a)) c) (ha : a.isFinite = true) :
    c.isFinite = true ∧ value c = signed s (value a) := by
  cases s with
  | positive => exact h.value_eq ha
  | negative =>
    rw [signed, ← value_neg] at h ⊢
    exact h.value_eq (isFinite_neg ha)

theorem isFinite_of_pos_of_lt (hpos : 0 < a) (hlt : a < b) : a.isFinite = true := by
  rcases finite_or_infinity (lt_iff.mp hpos).2.1 with hfinite | ⟨t, hinfinite⟩
  · exact hfinite
  · obtain rfl := eq_positive_of_place_pos (lt_iff.mp hpos).2.2 hinfinite
    have hle : b ≤ a := le_of_infinity (lt_iff.mp hlt).2.1 hinfinite
    exact absurd (lt_of_lt_of_le hlt hle) (lt_irrefl a)

theorem lt_iff_signed_lt {d : Float} (hc : c.isFinite = true ∧ value c = signed s (value a))
    (hd : d.isFinite = true ∧ value d = signed s (value b)) :
    c < d ↔ signed s (value a) < signed s (value b) := by
  rw [lt_iff_value_lt hc.1 hd.1, hc.2, hd.2]

end Binary64

open Binary64 (value signed IsUnit)

namespace Point

variable {v w : Point}

theorem isFinite_of_dot (h : (v.dot w).isFinite = true) :
    v.x.isFinite = true ∧ v.y.isFinite = true := by
  obtain ⟨hx, hproduct⟩ := Binary64.isFinite_of_fusedMulAdd h
  exact ⟨hx, Binary64.isFinite_of_mul hproduct⟩

section

variable {s : Float.Model.UnpackedFloat.Sign} {u : Float} (hu : IsUnit s u)
  (hx : v.x.isFinite = true) (hy : v.y.isFinite = true)

include hu hx hy

theorem value_dot_abscissa :
    (v.dot ⟨u, 0⟩).isFinite = true ∧ value (v.dot ⟨u, 0⟩) = signed s (value v.x) :=
  (Binary64.roundedTo_fusedMulAdd_unit hu hx hy).value_eq_signed hx

theorem value_dot_ordinate :
    (v.dot ⟨0, u⟩).isFinite = true ∧ value (v.dot ⟨0, u⟩) = signed s (value v.y) := by
  have hmul := Binary64.roundedTo_mul hy hu.isFinite
  rw [hu.value_eq, Binary64.signed_mul_one] at hmul
  obtain ⟨hfinite, hvalue⟩ := hmul.value_eq_signed hy
  obtain ⟨hdot, heq⟩ := (Binary64.roundedTo_fusedMulAdd_zero hx hfinite).value_eq hfinite
  exact ⟨hdot, heq.trans hvalue⟩

end

end Point

namespace Orientation

section

variable {p q : Point} (hpx : p.x.isFinite = true) (hpy : p.y.isFinite = true)
  (hqx : q.x.isFinite = true) (hqy : q.y.isFinite = true)

include hpx hpy hqx hqy

/-- Finite points project onto a direction in the order in which they lie ahead of each other. -/
theorem dot_lt_dot_iff (o : Orientation) : p.dot o.direction < q.dot o.direction ↔ o.Ahead p q := by
  open Binary64 Point in
  cases o with
  | east =>
    have hdots := lt_iff_signed_lt (value_dot_abscissa isUnit_one hpx hpy)
      (value_dot_abscissa isUnit_one hqx hqy)
    exact hdots.trans (lt_iff_value_lt hpx hqx).symm
  | north =>
    have hdots := lt_iff_signed_lt (value_dot_ordinate isUnit_one hpx hpy)
      (value_dot_ordinate isUnit_one hqx hqy)
    exact hdots.trans (lt_iff_value_lt hpy hqy).symm
  | west =>
    have hdots := lt_iff_signed_lt (value_dot_abscissa isUnit_neg_one hpx hpy)
      (value_dot_abscissa isUnit_neg_one hqx hqy)
    exact hdots.trans (neg_lt_neg_iff.trans (lt_iff_value_lt hqx hpx).symm)
  | south =>
    have hdots := lt_iff_signed_lt (value_dot_ordinate isUnit_neg_one hpx hpy)
      (value_dot_ordinate isUnit_neg_one hqx hqy)
    exact hdots.trans (neg_lt_neg_iff.trans (lt_iff_value_lt hqy hpy).symm)

end

theorem dot_lt_dot {o : Orientation} {p q : Point} (hpos : 0 < (p.vectorTo q).dot o.direction)
    (hfinite : ((p.vectorTo q).dot o.direction).isFinite = true) :
    p.dot o.direction < q.dot o.direction := by
  obtain ⟨hx, hy⟩ := Point.isFinite_of_dot hfinite
  obtain ⟨hqx, hpx⟩ := Binary64.isFinite_of_sub hx
  obtain ⟨hqy, hpy⟩ := Binary64.isFinite_of_sub hy
  exact (dot_lt_dot_iff hpx hpy hqx hqy o).mpr (ahead_of_dot_pos hpos)

end Orientation

end GlyphTable
