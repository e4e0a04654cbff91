import GlyphTable.Proofs.Binary64.Overflow
import GlyphTable.Proofs.Geometry.Hull

/-!
# Boxes with a center

A box of finite edges has a center, and unless that is too far out to be a finite point, it
lies in the box.
-/

namespace GlyphTable

open Binary64 (IsNumber)

/-- Whether opposite edges add up to a number, so that there is a center. -/
structure Box.Centered (b : Box) : Prop where
  horizontal : IsNumber (b.left + b.right)
  vertical : IsNumber (b.top + b.bottom)

structure Box.Finite (b : Box) : Prop where
  valid : b.Valid
  left : b.left.isFinite = true
  top : b.top.isFinite = true
  right : b.right.isFinite = true
  bottom : b.bottom.isFinite = true

instance (b : Box) : Decidable b.Finite :=
  decidable_of_iff (b.Valid ∧ b.left.isFinite = true ∧ b.top.isFinite = true ∧
      b.right.isFinite = true ∧ b.bottom.isFinite = true)
    ⟨fun ⟨h, hl, ht, hr, hb⟩ => ⟨h, hl, ht, hr, hb⟩, fun ⟨h, hl, ht, hr, hb⟩ => ⟨h, hl, ht, hr, hb⟩⟩

namespace Box

variable {b : Box}

theorem Finite.centered (h : b.Finite) : b.Centered :=
  ⟨Binary64.isNumber_add h.left (Binary64.isNumber_of_isFinite h.right),
    Binary64.isNumber_add h.top (Binary64.isNumber_of_isFinite h.bottom)⟩

theorem Finite.holds_center (h : b.Finite) (hx : b.center.x.isFinite = true)
    (hy : b.center.y.isFinite = true) : b.Holds b.center := by
  obtain ⟨hleft, hright⟩ := Binary64.between_of_isFinite h.left h.right h.valid.1 hx
  obtain ⟨htop, hbottom⟩ := Binary64.between_of_isFinite h.top h.bottom h.valid.2 hy
  exact ⟨hleft, hright, htop, hbottom⟩

theorem IsHull.finite {boxes : List Box} (h : IsHull boxes b) (hfinite : ∀ a ∈ boxes, a.Finite) :
    b.Finite := by
  obtain ⟨hl, ht, hr, hb⟩ := h.edges (P := fun edge => edge.isFinite = true) fun a ha =>
    ⟨(hfinite a ha).left, (hfinite a ha).top, (hfinite a ha).right, (hfinite a ha).bottom⟩
  exact ⟨h.valid fun a ha => (hfinite a ha).valid, hl, ht, hr, hb⟩

theorem IsHull.holds {boxes : List Box} (h : IsHull boxes b) {a : Box} (ha : a ∈ boxes) {p : Point}
    (hp : a.Holds p) : b.Holds p := by
  obtain ⟨hleft, hright, htop, hbottom⟩ := hp
  exact ⟨Binary64.le_trans (h.left_le a ha) hleft, Binary64.le_trans hright (h.le_right a ha),
    Binary64.le_trans (h.top_le a ha) htop, Binary64.le_trans hbottom (h.le_bottom a ha)⟩

end Box

end GlyphTable
