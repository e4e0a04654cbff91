import GlyphTable.Geometry.Orientation
import GlyphTable.Proofs.Binary64.Signs

/-!
# What lies ahead

A distance is a scalar product with a unit vector, and positive only if the vector points
that way (`Orientation.ahead_of_dot_pos`).
-/

namespace GlyphTable

def Orientation.Ahead (p q : Point) : Orientation → Prop
  | east => p.x < q.x
  | north => p.y < q.y
  | west => q.x < p.x
  | south => q.y < p.y

namespace Point

open Binary64 (hasSign_mul hasSign_addRounded_zero hasSign_addRounded_finite)
open Float.Model.UnpackedFloat (Sign)

theorem hasSign_dot {p q : Point} (h : 0 < p.dot q) :
    Binary64.Unpacked.HasSign .positive (Binary64.addRounded
      (Binary64.exactProduct p.x.toModel.unpack q.x.toModel.unpack) (p.y * q.y).toModel.unpack) :=
  (Binary64.pos_iff.mp h).of_pack

theorem not_hasSign_mul_zero (y : Float) (s : Sign) :
    ¬ Binary64.Unpacked.HasSign s (y * 0).toModel.unpack := by
  intro h
  have h : Binary64.Unpacked.HasSign s
      (Float.Model.UnpackedFloat.mul _ y.toModel.unpack (.zero .positive)) :=
    h.of_pack
  cases hy : y.toModel.unpack <;> rw [hy] at h <;> cases h

theorem pos_of_dot_east {v : Point} (h : 0 < v.dot ⟨1, 0⟩) : 0 < v.x :=
  Binary64.pos_iff.mpr (hasSign_addRounded_finite (not_hasSign_mul_zero v.y) (hasSign_dot h))

theorem neg_of_dot_west {v : Point} (h : 0 < v.dot ⟨-1, 0⟩) : v.x < 0 :=
  Binary64.neg_iff.mpr (hasSign_addRounded_finite (not_hasSign_mul_zero v.y) (hasSign_dot h))

theorem pos_of_dot_north {v : Point} (h : 0 < v.dot ⟨0, 1⟩) : 0 < v.y :=
  Binary64.pos_iff.mpr (hasSign_mul (hasSign_addRounded_zero (hasSign_dot h)).of_pack)

theorem neg_of_dot_south {v : Point} (h : 0 < v.dot ⟨0, -1⟩) : v.y < 0 :=
  Binary64.neg_iff.mpr (hasSign_mul (hasSign_addRounded_zero (hasSign_dot h)).of_pack)

end Point

theorem Orientation.ahead_of_dot_pos {o : Orientation} {p q : Point}
    (h : 0 < (p.vectorTo q).dot o.direction) : o.Ahead p q := by
  cases o with
  | east =>
    have hpos : 0 < q.x - p.x := Point.pos_of_dot_east (v := p.vectorTo q) h
    exact Binary64.lt_of_sub_pos hpos
  | north =>
    have hpos : 0 < q.y - p.y := Point.pos_of_dot_north (v := p.vectorTo q) h
    exact Binary64.lt_of_sub_pos hpos
  | west =>
    have hneg : q.x - p.x < 0 := Point.neg_of_dot_west (v := p.vectorTo q) h
    exact Binary64.lt_of_sub_neg hneg
  | south =>
    have hneg : q.y - p.y < 0 := Point.neg_of_dot_south (v := p.vectorTo q) h
    exact Binary64.lt_of_sub_neg hneg

end GlyphTable
