import GlyphTable.Geometry.Box
import GlyphTable.Proofs.Binary64.Midpoint

/-!
# The box around boxes

Every edge of a hull is an edge of one of its boxes, and no box reaches beyond it
(`Box.hull?_isHull`). So a hull is as bounded as its boxes are, and the center of a bounded
box lies in it.
-/

namespace GlyphTable.Box

open Binary64 (lesser_eq greater_eq lesser_le le_greater)

/-- Ordered edges that are finite and so small that the sum of two does not overflow. -/
structure Bounded (b : Box) : Prop where
  valid : b.Valid
  left : Binary64.Bounded b.left
  top : Binary64.Bounded b.top
  right : Binary64.Bounded b.right
  bottom : Binary64.Bounded b.bottom

instance (b : Box) : Decidable b.Bounded :=
  decidable_of_iff (b.Valid ∧ Binary64.Bounded b.left ∧ Binary64.Bounded b.top ∧
      Binary64.Bounded b.right ∧ Binary64.Bounded b.bottom)
    ⟨fun ⟨h, hl, ht, hr, hb⟩ => ⟨h, hl, ht, hr, hb⟩, fun ⟨h, hl, ht, hr, hb⟩ => ⟨h, hl, ht, hr, hb⟩⟩

theorem Bounded.center_between {b : Box} (h : b.Bounded) :
    b.top ≤ b.vertical.center ∧ b.vertical.center ≤ b.bottom :=
  Binary64.midpoint_between h.top h.bottom h.valid.2

structure IsHull (boxes : List Box) (b : Box) : Prop where
  left_mem : ∃ a ∈ boxes, a.left = b.left
  top_mem : ∃ a ∈ boxes, a.top = b.top
  right_mem : ∃ a ∈ boxes, a.right = b.right
  bottom_mem : ∃ a ∈ boxes, a.bottom = b.bottom
  left_le : ∀ a ∈ boxes, b.left ≤ a.left
  top_le : ∀ a ∈ boxes, b.top ≤ a.top
  le_right : ∀ a ∈ boxes, a.right ≤ b.right
  le_bottom : ∀ a ∈ boxes, a.bottom ≤ b.bottom

theorem hull?_isSome {boxes : List Box} (h : boxes ≠ []) : ∃ b, hull? boxes = some b := by
  cases boxes with
  | nil => exact absurd rfl h
  | cons b rest => exact ⟨_, rfl⟩

section

variable {boxes : List Box} {a b : Box}

theorem IsHull.congr {boxes' : List Box} (h : IsHull boxes b) (hperm : boxes.Perm boxes') :
    IsHull boxes' b := by
  obtain ⟨hleft, htop, hright, hbottom, hll, htl, hlr, hlb⟩ := h
  simp only [hperm.mem_iff] at *
  exact ⟨hleft, htop, hright, hbottom, hll, htl, hlr, hlb⟩

theorem IsHull.valid (h : IsHull boxes b) (hvalid : ∀ a ∈ boxes, a.Valid) : b.Valid := by
  constructor
  · obtain ⟨a, ha, heq⟩ := h.left_mem
    rw [← heq]
    exact Binary64.le_trans (hvalid a ha).1 (h.le_right a ha)
  · obtain ⟨a, ha, heq⟩ := h.top_mem
    rw [← heq]
    exact Binary64.le_trans (hvalid a ha).2 (h.le_bottom a ha)

theorem IsHull.edges {P : Float → Prop} (h : IsHull boxes b)
    (hp : ∀ a ∈ boxes, P a.left ∧ P a.top ∧ P a.right ∧ P a.bottom) :
    P b.left ∧ P b.top ∧ P b.right ∧ P b.bottom := by
  obtain ⟨⟨l, hl, hleft⟩, ⟨t, ht, htop⟩, ⟨r, hr, hright⟩, ⟨c, hc, hbottom⟩, -⟩ := h
  rw [← hleft, ← htop, ← hright, ← hbottom]
  exact ⟨(hp l hl).1, (hp t ht).2.1, (hp r hr).2.2.1, (hp c hc).2.2.2⟩

theorem IsHull.bounded (h : IsHull boxes b) (hbounded : ∀ a ∈ boxes, a.Bounded) : b.Bounded := by
  obtain ⟨hl, ht, hr, hb⟩ := h.edges fun a ha =>
    ⟨(hbounded a ha).left, (hbounded a ha).top, (hbounded a ha).right, (hbounded a ha).bottom⟩
  exact ⟨h.valid fun a ha => (hbounded a ha).valid, hl, ht, hr, hb⟩

theorem isHull_singleton (h : a.Valid) : IsHull [a] a := by
  obtain ⟨⟨hleft, hright, -⟩, htop, hbottom, -⟩ := And.imp Binary64.le_iff.mp Binary64.le_iff.mp h
  have hself := List.mem_singleton_self a
  refine ⟨⟨a, hself, rfl⟩, ⟨a, hself, rfl⟩, ⟨a, hself, rfl⟩, ⟨a, hself, rfl⟩, ?_, ?_, ?_, ?_⟩ <;>
    intro c hc <;> obtain rfl := List.mem_singleton.mp hc
  · exact Binary64.le_refl hleft
  · exact Binary64.le_refl htop
  · exact Binary64.le_refl hright
  · exact Binary64.le_refl hbottom

theorem mem_append_of_eq {edge : Box → Float} {x y z : Float} (hx : ∃ c ∈ boxes, edge c = x)
    (hy : edge a = y) (hz : z = x ∨ z = y) : ∃ c ∈ boxes ++ [a], edge c = z := by
  rcases hz with rfl | rfl
  · obtain ⟨c, hc, heq⟩ := hx
    exact ⟨c, List.mem_append_left _ hc, heq⟩
  · exact ⟨a, List.mem_append_right _ (List.mem_singleton_self a), hy⟩

theorem IsHull.join (h : IsHull boxes b) (hb : b.Valid) (ha : a.Valid) :
    IsHull (boxes ++ [a]) (b.join a) := by
  obtain ⟨⟨hbl, hbr, -⟩, hbt, hbb, -⟩ := And.imp Binary64.le_iff.mp Binary64.le_iff.mp hb
  obtain ⟨⟨hal, har, -⟩, hat, hab, -⟩ := And.imp Binary64.le_iff.mp Binary64.le_iff.mp ha
  refine ⟨mem_append_of_eq h.left_mem rfl (lesser_eq _ _),
    mem_append_of_eq h.top_mem rfl (lesser_eq _ _),
    mem_append_of_eq h.right_mem rfl (greater_eq _ _),
      mem_append_of_eq h.bottom_mem rfl (greater_eq _ _),
    ?_, ?_, ?_, ?_⟩ <;>
    intro c hc <;> rcases List.mem_append.mp hc with hc | hc
  · exact Binary64.le_trans (lesser_le hbl hal).1 (h.left_le c hc)
  · obtain rfl := List.mem_singleton.mp hc
    exact (lesser_le hbl hal).2
  · exact Binary64.le_trans (lesser_le hbt hat).1 (h.top_le c hc)
  · obtain rfl := List.mem_singleton.mp hc
    exact (lesser_le hbt hat).2
  · exact Binary64.le_trans (h.le_right c hc) (le_greater hbr har).1
  · obtain rfl := List.mem_singleton.mp hc
    exact (le_greater hbr har).2
  · exact Binary64.le_trans (h.le_bottom c hc) (le_greater hbb hab).1
  · obtain rfl := List.mem_singleton.mp hc
    exact (le_greater hbb hab).2

theorem hull?_isHull (hvalid : ∀ a ∈ boxes, a.Valid) (h : hull? boxes = some b) :
    IsHull boxes b := by
  cases boxes with
  | nil => cases h
  | cons a rest =>
    obtain rfl := Option.some.inj h
    have hfold (done rest : List Box) (c : Box) (hc : IsHull done c) (hdone : ∀ a ∈ done, a.Valid)
        (hrest : ∀ a ∈ rest, a.Valid) : IsHull (done ++ rest) (rest.foldl Box.join c) := by
      induction rest generalizing done c with
      | nil => rwa [List.append_nil]
      | cons a rest ih =>
        have ha := hrest a List.mem_cons_self
        have hnext := ih (done ++ [a]) (c.join a) (hc.join (hc.valid hdone) ha)
          (fun x hx => (List.mem_append.mp hx).elim (hdone x) fun hx =>
            List.mem_singleton.mp hx ▸ ha)
          fun x hx => hrest x (List.mem_cons_of_mem _ hx)
        rwa [List.append_assoc] at hnext
    have ha := hvalid a List.mem_cons_self
    exact hfold [a] rest a (isHull_singleton ha) (fun x hx => List.mem_singleton.mp hx ▸ ha)
      fun x hx => hvalid x (List.mem_cons_of_mem _ hx)

theorem hull?_bounded (hbounded : ∀ a ∈ boxes, a.Bounded) (h : hull? boxes = some b) : b.Bounded :=
  (hull?_isHull (fun a ha => (hbounded a ha).valid) h).bounded hbounded

theorem IsHull.contains (ha : IsHull boxes a) (hb : IsHull boxes b) : a.Contains b := by
  obtain ⟨l, hl, hleft⟩ := hb.left_mem
  obtain ⟨t, ht, htop⟩ := hb.top_mem
  obtain ⟨r, hr, hright⟩ := hb.right_mem
  obtain ⟨c, hc, hbottom⟩ := hb.bottom_mem
  exact ⟨hleft ▸ ha.left_le l hl, hright ▸ ha.le_right r hr, htop ▸ ha.top_le t ht,
    hbottom ▸ ha.le_bottom c hc⟩

theorem IsHull.exists_hull? (h : IsHull boxes a) (hvalid : ∀ b ∈ boxes, b.Valid) :
    ∃ b, hull? boxes = some b ∧ b.Contains a ∧ a.Contains b := by
  obtain ⟨l, hl, -⟩ := h.left_mem
  obtain ⟨b, hb⟩ := hull?_isSome (List.ne_nil_of_mem hl)
  have hhull := hull?_isHull hvalid hb
  exact ⟨b, hb, hhull.contains h, h.contains hhull⟩

end

section

variable {α : Type} {l : List α} {boxes : α → List Box} {hull : α → Box}

theorem exists_mem_flatMap {edge : Box → Float} {x : Float} (h : ∃ a ∈ l.map hull, edge a = x)
    (hparts : ∀ a ∈ l, ∃ c ∈ boxes a, edge c = edge (hull a)) :
    ∃ c ∈ l.flatMap boxes, edge c = x := by
  obtain ⟨_, hmem, rfl⟩ := h
  obtain ⟨a, ha, rfl⟩ := List.mem_map.mp hmem
  obtain ⟨c, hc, heq⟩ := hparts a ha
  exact ⟨c, List.mem_flatMap.mpr ⟨a, ha, hc⟩, heq⟩

theorem IsHull.flatMap {b : Box} (h : IsHull (l.map hull) b)
    (hparts : ∀ a ∈ l, IsHull (boxes a) (hull a)) :
    IsHull (l.flatMap boxes) b where
  left_mem := exists_mem_flatMap h.left_mem fun a ha => (hparts a ha).left_mem
  top_mem := exists_mem_flatMap h.top_mem fun a ha => (hparts a ha).top_mem
  right_mem := exists_mem_flatMap h.right_mem fun a ha => (hparts a ha).right_mem
  bottom_mem := exists_mem_flatMap h.bottom_mem fun a ha => (hparts a ha).bottom_mem
  left_le c hc := by
    obtain ⟨a, ha, hca⟩ := List.mem_flatMap.mp hc
    exact Binary64.le_trans (h.left_le _ (List.mem_map_of_mem ha)) ((hparts a ha).left_le c hca)
  top_le c hc := by
    obtain ⟨a, ha, hca⟩ := List.mem_flatMap.mp hc
    exact Binary64.le_trans (h.top_le _ (List.mem_map_of_mem ha)) ((hparts a ha).top_le c hca)
  le_right c hc := by
    obtain ⟨a, ha, hca⟩ := List.mem_flatMap.mp hc
    exact Binary64.le_trans ((hparts a ha).le_right c hca) (h.le_right _ (List.mem_map_of_mem ha))
  le_bottom c hc := by
    obtain ⟨a, ha, hca⟩ := List.mem_flatMap.mp hc
    exact Binary64.le_trans ((hparts a ha).le_bottom c hca) (h.le_bottom _ (List.mem_map_of_mem ha))

end

end GlyphTable.Box
