import GlyphTable.Proofs.Binary64.Whole
import GlyphTable.Proofs.PointTree.Depth

/-!
# Sparse points are inserted

Division without end comes down to a region that is divided no further on either axis
(`PointTree.exists_stuck_of_grow?_eq_none`). Not too far out on the page such a region is small
(`Binary64.Stuck.sub_le`). So where no small region has more points than a leaf holds, each
insertion succeeds (`PointTree.exists_insertAll?_of_sparse`).
-/

namespace GlyphTable

open Binary64 (Moderate Stuck value)

structure Box.Moderate (b : Box) : Prop where
  left : Binary64.Moderate b.left
  top : Binary64.Moderate b.top
  right : Binary64.Moderate b.right
  bottom : Binary64.Moderate b.bottom

theorem Box.IsHull.moderate {boxes : List Box} {b : Box} (h : Box.IsHull boxes b)
    (hboxes : ∀ a ∈ boxes, a.Moderate) : b.Moderate := by
  obtain ⟨hleft, htop, hright, hbottom⟩ := h.edges fun a ha =>
    ⟨(hboxes a ha).left, (hboxes a ha).top, (hboxes a ha).right, (hboxes a ha).bottom⟩
  exact ⟨hleft, htop, hright, hbottom⟩

theorem Box.Moderate.centered {b : Box} (h : b.Moderate) : b.Centered :=
  ⟨Binary64.isNumber_add h.left.1 (Binary64.isNumber_of_isFinite h.right.1),
    Binary64.isNumber_add h.top.1 (Binary64.isNumber_of_isFinite h.bottom.1)⟩

namespace PointTree

variable {α : Type} {region : Box} {points : List (Point × α)} {depth : Nat} {t u : PointTree α}

theorem Quadrant.moderate_within (h : region.Moderate) (q : Quadrant) :
    (q.within region).Moderate := by
  have hx : Moderate region.center.x := Moderate.half_sum h.left h.right
  have hy : Moderate region.center.y := Moderate.half_sum h.top h.bottom
  obtain ⟨hleft, htop, hright, hbottom⟩ := h
  cases q with
  | northWest => exact ⟨hleft, htop, hx, hy⟩
  | northEast => exact ⟨hx, htop, hright, hy⟩
  | southWest => exact ⟨hleft, hy, hx, hbottom⟩
  | southEast => exact ⟨hx, hy, hright, hbottom⟩

structure Stand (region : Box) (points : List (Point × α)) : Prop where
  moderate : region.Moderate
  holds : ∀ x ∈ points, region.Holds x.1

theorem Stand.part (h : Stand region points) (q : Quadrant) :
    Stand (q.within region) (part region points q) :=
  ⟨Quadrant.moderate_within h.moderate q, Quadrant.holds_part h.moderate.centered h.holds q⟩

theorem exists_stuck_of_grow?_eq_none {n : Nat} (h : region.Narrow (sideLimit n))
    (hstand : Stand region points) (hnone : grow? (n + 1) region points = none) :
    ∃ region' points', points'.Sublist points ∧ Stand region' points' ∧ Overfull region' points' ∧
      Stuck region'.left region'.right ∧ Stuck region'.top region'.bottom := by
  have hfull := overfull_of_grow?_eq_none hnone
  induction n generalizing region points with
  | zero =>
    exact ⟨region, points, .refl _, hstand, hfull, stuck_of_narrow h.horizontal hfull.2.1,
      stuck_of_narrow h.vertical hfull.2.2⟩
  | succ n ih =>
    obtain ⟨q, hq⟩ := (grow?_succ_eq_none_iff hfull).mp hnone
    have hpart := overfull_of_grow?_eq_none hq
    obtain ⟨region', points', hsublist, hrest⟩ :=
      ih (Quadrant.narrow_within h hfull.2 hpart.2) (hstand.part q) hq hpart
    exact ⟨region', points', hsublist.trans List.filter_sublist, hrest⟩

/-- Whether of every more than `leafCapacity` points there are two that are more than eight
apart on an axis. -/
def Sparse (points : List (Point × α)) : Prop :=
  ∀ few : List (Point × α), few.Subperm points → leafCapacity < few.length →
    ∃ a ∈ few, ∃ b ∈ few, 8 < value b.1.x - value a.1.x ∨ 8 < value b.1.y - value a.1.y

theorem Sparse.mono {few : List (Point × α)} (h : Sparse points) (hsub : few.Subperm points) :
    Sparse few :=
  fun fewer hfewer => h fewer (hfewer.trans hsub)

theorem Sparse.perm {points' : List (Point × α)} (h : Sparse points) (hperm : points'.Perm points) :
    Sparse points' :=
  h.mono hperm.subperm

theorem sub_le_of_stuck {a b p q : Float} (h : Stuck a b) (ha : Moderate a) (hb : Moderate b)
    (hp : a ≤ p ∧ p ≤ b) (hq : a ≤ q ∧ q ≤ b) : value q - value p ≤ 8 := by
  have hpfinite := Binary64.isFinite_of_between ha.1 hb.1 hp.1 hp.2
  have hqfinite := Binary64.isFinite_of_between ha.1 hb.1 hq.1 hq.2
  have hlow := (Binary64.le_iff_value_le ha.1 hpfinite).mp hp.1
  have hhigh := (Binary64.le_iff_value_le hqfinite hb.1).mp hq.2
  have hroom := h.sub_le ha hb
  linarith

theorem grow?_ne_none (hstand : Stand region points) (hsparse : Sparse points) :
    grow? depthLimit region points ≠ none := by
  intro hnone
  obtain ⟨region', points', hsublist, hstand', hfull, hx, hy⟩ :=
    exists_stuck_of_grow?_eq_none (narrow_of_centered hstand.moderate.centered) hstand hnone
  obtain ⟨a, ha, b, hb, hapart⟩ := hsparse points' hsublist.subperm hfull.1
  obtain ⟨hleft, htop, hright, hbottom⟩ := hstand'.moderate
  obtain ⟨haleft, haright, hatop, habottom⟩ := hstand'.holds a ha
  obtain ⟨hbleft, hbright, hbtop, hbbottom⟩ := hstand'.holds b hb
  rcases hapart with hapart | hapart
  · exact absurd (sub_le_of_stuck hx hleft hright ⟨haleft, haright⟩ ⟨hbleft, hbright⟩)
      (not_le.mpr hapart)
  · exact absurd (sub_le_of_stuck hy htop hbottom ⟨hatop, habottom⟩ ⟨hbtop, hbbottom⟩)
      (not_le.mpr hapart)

theorem Sound.place?_ne_none {p : Point} {value : α} (h : t.Sound) (hregion : t.region.Moderate)
    (hp : t.region.Holds p) (hsparse : Sparse ((p, value) :: t.toList)) :
    t.place? p value ≠ none := by
  induction h with
  | @leaf region points hcentered hpoints =>
    refine grow?_ne_none ⟨hregion, fun x hx => ?_⟩ (hsparse.perm List.perm_append_comm)
    rcases List.mem_append.mp hx with hx | hx
    · exact hpoints x hx
    · rw [List.mem_singleton.mp hx]
      exact hp
  | @branch region nw ne sw se hcentered hpoints rnw rne rsw rse hnw hne hsw hse inw ine isw ise =>
    have hquadrant := Quadrant.holds_within hcentered hp
    have hmoderate := Quadrant.moderate_within hregion
    have hbelow {few : List (Point × α)}
      (hfew : few.Sublist (PointTree.branch region nw ne sw se).toList) :
        Sparse ((p, value) :: few) :=
      hsparse.mono (hfew.cons_cons _).subperm
    have hnorth : (nw.toList ++ ne.toList).Sublist (PointTree.branch region nw ne sw se).toList :=
      (List.sublist_append_left _ _).trans (List.sublist_append_left _ _)
    rw [PointTree.place?]
    split <;> rename_i hq <;> rw [hq] at hquadrant <;> rw [ne_eq, Option.map_eq_none_iff]
    · rw [← rnw] at hquadrant
      exact inw (rnw ▸ hmoderate _) hquadrant (hbelow ((List.sublist_append_left _ _).trans hnorth))
    · rw [← rne] at hquadrant
      exact ine (rne ▸ hmoderate _) hquadrant
        (hbelow ((List.sublist_append_right _ _).trans hnorth))
    · rw [← rsw] at hquadrant
      exact isw (rsw ▸ hmoderate _) hquadrant
        (hbelow ((List.sublist_append_right _ _).trans (List.sublist_append_left _ _)))
    · rw [← rse] at hquadrant
      exact ise (rse ▸ hmoderate _) hquadrant (hbelow (List.sublist_append_right _ _))

theorem Index.exists_insert? {x : Index α} {p : Point} {value : α} (h : x.tree.Sound)
    (hregion : x.region.Moderate) (hsparse : Sparse ((p, value) :: x.tree.toList)) :
    ∃ answer y, x.insert? p value = some (answer, y) := by
  by_cases hp : x.region.Holds p
  · obtain ⟨t, ht⟩ := Option.ne_none_iff_exists'.mp (h.place?_ne_none hregion hp hsparse)
    exact ⟨_, _, insert?_eq_some_iff.mpr (.inl ⟨hp, rfl, t, ht, rfl⟩)⟩
  · exact ⟨_, _, insert?_eq_some_iff.mpr (.inr ⟨hp, rfl, rfl⟩)⟩

theorem Index.exists_insertEach? {x : Index α} (h : x.tree.Sound) (hregion : x.region.Moderate)
    (hsparse : Sparse (points ++ x.tree.toList)) :
    ∃ answers y, x.insertEach? points = some (answers, y) := by
  induction points generalizing x with
  | nil => exact ⟨[], x, rfl⟩
  | cons a rest ih =>
    obtain ⟨answer, y, hy⟩ := exists_insert? h hregion
      (hsparse.mono ((List.sublist_append_right rest x.tree.toList).cons_cons a).subperm)
    have hone : x.insertEach? [a] = some ([answer], y) := insertEach?_cons hy rfl
    have hanswered := answered_of_insertEach? hone
    have hrest : Sparse (rest ++ y.tree.toList) := by
      refine hsparse.mono ((hanswered.toList_perm.append_left rest).subperm.trans ?_)
      rw [← List.append_assoc]
      refine ((List.filter_sublist.append_left rest).append_right _).subperm.trans ?_
      exact (List.perm_append_comm.append_right _).subperm
    obtain ⟨answers, z, hz⟩ := ih (tree_insertEach? Sound.place? h hone)
      (hanswered.region_eq ▸ hregion) hrest
    exact ⟨answer :: answers, z, insertEach?_cons hy hz⟩

/-- Points that are sparse are inserted, wherever the region is divided. -/
theorem exists_insertAll?_of_sparse (hregion : region.Moderate) (hsparse : Sparse points) :
    ∃ x, (Index.empty region).insertAll? points = some x := by
  obtain ⟨answers, x, hx⟩ := Index.exists_insertEach? (x := .empty region)
    (sound_empty hregion.centered) hregion
    (by simpa [Index.empty, empty, toList] using hsparse)
  exact ⟨x, Index.insertAll?_eq_some_iff.mpr ⟨answers, hx⟩⟩

end PointTree

end GlyphTable
