import GlyphTable.Proofs.PointTree.Depth

/-!
# The shape of a tree does not tell the sequence of its points

However a tree came about, a region is divided in it exactly if it is large enough and more points
than a leaf holds belong to it (`PointTree.Divided`): inserting a point keeps that, whether it
divides nothing, one leaf or several at once. So points that come in another sequence are divided
in the same way: `PointTree.insertAll?_shape`.
-/

namespace GlyphTable.PointTree

variable {α : Type} {region : Box} {points points' : List (Point × α)} {t u : PointTree α}

-- ---------------------------------------------------------------------------
-- Quadrants as a family
-- ---------------------------------------------------------------------------

def ofQuadrants (region : Box) (grown : Quadrant → PointTree α) : PointTree α :=
  branch region (grown .northWest) (grown .northEast) (grown .southWest) (grown .southEast)

theorem place?_ofQuadrants (region : Box) (grown : Quadrant → PointTree α) (p : Point) (value : α) :
    (ofQuadrants region grown).place? p value =
      ((grown (Quadrant.of region p)).place? p value).map fun v =>
        ofQuadrants region (Function.update grown (Quadrant.of region p) v) := by
  rw [ofQuadrants, place?]
  cases Quadrant.of region p <;> rfl

theorem part_cons (region : Box) (x : Point × α) (points : List (Point × α)) (q : Quadrant) :
    part region (x :: points) q =
      if Quadrant.of region x.1 = q then x :: part region points q else part region points q := by
  simp only [part, List.filter_cons, decide_eq_true_eq]

theorem part_perm (h : points.Perm points') (q : Quadrant) :
    (part region points q).Perm (part region points' q) :=
  h.filter _

theorem part_subperm (h : points.Subperm points') (q : Quadrant) :
    (part region points q).Subperm (part region points' q) :=
  h.filter _

theorem overfull_congr (h : points.Perm points') :
    Overfull region points ↔ Overfull region points' := by
  rw [Overfull, Overfull, h.length_eq]

theorem Overfull.mono (h : Overfull region points) (hsub : points.Subperm points') :
    Overfull region points' :=
  ⟨h.1.trans_le hsub.length_le, h.2⟩

-- ---------------------------------------------------------------------------
-- Divided trees
-- ---------------------------------------------------------------------------

/-- The tree over the region that the points of the region come to: they are divided among its
quadrants exactly if they are more than a leaf holds and the region is not too small. -/
inductive Divided : Box → List (Point × α) → PointTree α → Prop
  | leaf {region : Box} {points held : List (Point × α)} :
      ¬ Overfull region points → held.Perm points → Divided region points (.leaf region held)
  | branch {region : Box} {points : List (Point × α)} {grown : Quadrant → PointTree α} :
      Overfull region points → (∀ q, Divided (q.within region) (part region points q) (grown q)) →
        Divided region points (ofQuadrants region grown)

theorem Divided.region_eq (h : Divided region points t) : t.region = region := by
  cases h with
  | leaf => rfl
  | branch => rfl

theorem Divided.perm (h : Divided region points t) (hperm : points.Perm points') :
    Divided region points' t := by
  induction h generalizing points' with
  | leaf hnot hheld => exact .leaf (mt (overfull_congr hperm).mpr hnot) (hheld.trans hperm)
  | branch hfull _ ih =>
    exact .branch ((overfull_congr hperm).mp hfull) fun q => ih q (part_perm hperm q)

theorem Divided.toList_perm (h : Divided region points t) : t.toList.Perm points := by
  induction h with
  | leaf _ hheld => exact hheld
  | @branch region points grown _ _ ih =>
    refine List.Perm.trans ?_ (quadrants_perm region points)
    exact (((ih _).append (ih _)).append (ih _)).append (ih _)

theorem divided_of_grow? {depth : Nat} (h : grow? depth region points = some t) :
    Divided region points t := by
  induction depth generalizing region points t with
  | zero =>
    by_cases hfull : Overfull region points
    · rw [grow?_zero_of_overfull hfull] at h
      cases h
    · rw [grow?_of_not_overfull hfull] at h
      obtain rfl := Option.some.inj h
      exact .leaf hfull (.refl _)
  | succ depth ih =>
    by_cases hfull : Overfull region points
    · obtain ⟨grown, hgrown, rfl⟩ := (grow?_succ_eq_some_iff hfull).mp h
      exact .branch hfull fun q => ih (hgrown q)
    · rw [grow?_of_not_overfull hfull] at h
      obtain rfl := Option.some.inj h
      exact .leaf hfull (.refl _)

theorem Divided.place? {p : Point} {value : α} (h : Divided region points t)
    (hu : t.place? p value = some u) :
    Divided region ((p, value) :: points) u := by
  induction h generalizing u with
  | leaf _ hheld => exact (divided_of_grow? hu).perm (List.perm_append_comm.trans (hheld.cons _))
  | @branch region points grown hfull hgrown ih =>
    rw [place?_ofQuadrants] at hu
    obtain ⟨v, hv, rfl⟩ := Option.map_eq_some_iff.mp hu
    refine .branch (hfull.mono (List.sublist_cons_self _ _).subperm) fun q => ?_
    rw [part_cons]
    by_cases hq : Quadrant.of region p = q
    · subst hq
      rw [if_pos rfl, Function.update_self]
      exact ih _ hv
    · rw [if_neg hq, Function.update_of_ne (Ne.symm hq)]
      exact hgrown q

theorem Divided.insert? {x y : Index α} {p : Point} {value : α} {answer : Bool}
    (h : Divided region points x.tree) (hy : x.insert? p value = some (answer, y)) :
    Divided region (if region.Holds p then (p, value) :: points else points) y.tree := by
  have hregion : x.region = region := h.region_eq
  rcases Index.insert?_eq_some_iff.mp hy with ⟨hp, -, t, ht, rfl⟩ | ⟨hp, -, rfl⟩
  · rw [if_pos (hregion ▸ hp)]
    exact h.place? ht
  · rw [if_neg (hregion ▸ hp)]
    exact h

theorem divided_empty (region : Box) : Divided region [] (empty region : PointTree α) :=
  .leaf (fun h => Nat.not_lt_zero _ h.1) (.refl _)

theorem Divided.insertEach? {x y : Index α} {offered : List (Point × α)} {answers : List Bool}
    (h : Divided region points x.tree) (hy : x.insertEach? offered = some (answers, y)) :
    Divided region (offered.filter (fun a => region.Holds a.1) ++ points) y.tree := by
  induction offered generalizing points x answers with
  | nil =>
    cases hy
    exact h
  | cons a rest ih =>
    obtain ⟨_, z, _, hz, hy, -⟩ := Index.insertEach?_cons_eq_some hy
    have hrest := ih (h.insert? hz) hy
    rw [List.filter_cons]
    by_cases ha : region.Holds a.1
    · rw [if_pos ha] at hrest
      rw [if_pos (decide_eq_true ha)]
      exact hrest.perm List.perm_middle
    · rw [if_neg ha] at hrest
      rwa [if_neg (by simpa using ha)]

theorem divided_insertAll? {x : Index α} (h : (Index.empty region).insertAll? points = some x) :
    Divided region (points.filter fun a => region.Holds a.1) x.tree := by
  obtain ⟨answers, h⟩ := Index.insertAll?_eq_some_iff.mp h
  have hdivided := (divided_empty region).insertEach? h
  rwa [List.append_nil] at hdivided

-- ---------------------------------------------------------------------------
-- The shape
-- ---------------------------------------------------------------------------

def outline : PointTree α → PointTree α
  | leaf region _ => leaf region []
  | branch region nw ne sw se => branch region nw.outline ne.outline sw.outline se.outline

theorem nodeCount_outline (t : PointTree α) : t.outline.nodeCount = t.nodeCount := by
  induction t with
  | leaf => rfl
  | branch region nw ne sw se hnw hne hsw hse => simp only [outline, nodeCount, hnw, hne, hsw, hse]

theorem Divided.outline_eq (h : Divided region points t) (h' : Divided region points u) :
    t.outline = u.outline := by
  induction h generalizing u with
  | leaf hnot _ =>
    cases h' with
    | leaf => rfl
    | branch hfull => exact absurd hfull hnot
  | branch hfull _ ih =>
    cases h' with
    | leaf hnot => exact absurd hfull hnot
    | branch _ hgrown => simp only [ofQuadrants, outline, ih _ (hgrown _)]

-- ---------------------------------------------------------------------------
-- Division that ends
-- ---------------------------------------------------------------------------

theorem Divided.exists_of_subperm (h : Divided region points t) (hsub : points'.Subperm points) :
    ∃ u, Divided region points' u := by
  induction h generalizing points' with
  | leaf hnot => exact ⟨_, .leaf (fun hfull => hnot (hfull.mono hsub)) (.refl _)⟩
  | @branch region points _ _ _ ih =>
    by_cases hfull : Overfull region points'
    · choose grown hgrown using fun q => ih q (part_subperm hsub q)
      exact ⟨_, .branch hfull hgrown⟩
    · exact ⟨_, .leaf hfull (.refl _)⟩

theorem Divided.exists_grow? (h : Divided region points t) :
    ∃ depth u, grow? depth region points = some u := by
  induction h with
  | leaf hnot => exact ⟨0, _, grow?_of_not_overfull hnot⟩
  | branch hfull _ ih =>
    choose depth grown hgrown using ih
    -- The deepest quadrant decides, and a depth more than needed does no harm.
    have hdeepest (q : Quadrant) :
        depth q ≤ depth .northWest + depth .northEast + depth .southWest + depth .southEast := by
      cases q <;> omega
    refine ⟨depth .northWest + depth .northEast + depth .southWest + depth .southEast + 1, _,
      (grow?_succ_eq_some_iff hfull).mpr ⟨grown, fun q => ?_, rfl⟩⟩
    rw [← Nat.add_sub_of_le (hdeepest q)]
    exact grow?_add (hgrown q) _

theorem Divided.exists_place? {p : Point} {value : α} (h : Divided region points t)
    (h' : Divided region points' u) (hregion : region.Centered)
    (hsub : ((p, value) :: points).Subperm points') : ∃ v, t.place? p value = some v := by
  induction h generalizing points' u with
  | @leaf region points held _ hheld =>
    have hperm : (held ++ [(p, value)]).Perm ((p, value) :: points) :=
      List.perm_append_comm.trans (hheld.cons _)
    obtain ⟨w, hw⟩ := h'.exists_of_subperm (hperm.subperm.trans hsub)
    obtain ⟨depth, v, hv⟩ := hw.exists_grow?
    exact ⟨v, (grow?_depthLimit hregion).mpr ⟨depth, hv⟩⟩
  | @branch region points grown hfull _ ih =>
    cases h' with
    | leaf hnot =>
      exact absurd (hfull.mono ((List.sublist_cons_self _ _).subperm.trans hsub)) hnot
    | branch _ hgrown =>
      have hpart : (part region ((p, value) :: points) (Quadrant.of region p)).Subperm
          (part region points' (Quadrant.of region p)) := part_subperm hsub _
      rw [part_cons, if_pos rfl] at hpart
      obtain ⟨v, hv⟩ := ih _ (hgrown _) (Quadrant.centered_within hregion _) hpart
      rw [place?_ofQuadrants, hv]
      exact ⟨_, rfl⟩

theorem Divided.exists_insert? {x : Index α} {p : Point} {value : α}
    (h : Divided region points x.tree) (h' : Divided region points' u) (hregion : region.Centered)
    (hsub : (if region.Holds p then (p, value) :: points else points).Subperm points') :
    ∃ answer y, x.insert? p value = some (answer, y) := by
  by_cases hp : region.Holds p
  · rw [if_pos hp] at hsub
    obtain ⟨v, hv⟩ := h.exists_place? h' hregion hsub
    have hholds : x.tree.region.Holds p := h.region_eq ▸ hp
    exact ⟨_, _, Index.insert?_eq_some_iff.mpr (.inl ⟨hholds, rfl, v, hv, rfl⟩)⟩
  · have hholds : ¬ x.tree.region.Holds p := h.region_eq ▸ hp
    exact ⟨_, _, Index.insert?_eq_some_iff.mpr (.inr ⟨hholds, rfl, rfl⟩)⟩

theorem Divided.exists_insertEach? {x : Index α} {offered : List (Point × α)}
    (h : Divided region points x.tree) (h' : Divided region points' u) (hregion : region.Centered)
    (hsub : (offered.filter (fun a => region.Holds a.1) ++ points).Subperm points') :
    ∃ answers y, x.insertEach? offered = some (answers, y) := by
  induction offered generalizing points x with
  | nil => exact ⟨[], x, rfl⟩
  | cons a rest ih =>
    have hoffered : (rest.filter (fun a => region.Holds a.1) ++
        if region.Holds a.1 then a :: points else points).Subperm points' := by
      by_cases ha : region.Holds a.1
      · rw [List.filter_cons, if_pos (decide_eq_true ha), List.cons_append] at hsub
        rw [if_pos ha]
        exact List.perm_middle.subperm.trans hsub
      · rw [List.filter_cons, if_neg (by simpa using ha)] at hsub
        rwa [if_neg ha]
    obtain ⟨answer, y, hy⟩ := h.exists_insert? h' hregion
      ((List.sublist_append_right _ _).subperm.trans hoffered)
    obtain ⟨answers, z, hz⟩ := ih (h.insert? hy) hoffered
    exact ⟨answer :: answers, z, Index.insertEach?_cons hy hz⟩

theorem exists_insertAll? {offered : List (Point × α)} (hregion : region.Centered)
    (h : Divided region points u)
    (hsub : (offered.filter fun a => region.Holds a.1).Subperm points) :
    ∃ x, (Index.empty region).insertAll? offered = some x := by
  obtain ⟨answers, x, hx⟩ :=
    (divided_empty region).exists_insertEach? (x := .empty region) h hregion
    (by rwa [List.append_nil])
  exact ⟨x, Index.insertAll?_eq_some_iff.mpr ⟨answers, hx⟩⟩

/-- Points that are offered to an index in another sequence are divided in the same way: if one
sequence comes to an end then so does the other, and with the same nodes. A node is divided
exactly if it is large enough and more points than a leaf holds belong to it. -/
theorem insertAll?_shape (hregion : region.Finite) (hperm : points.Perm points') :
    (((Index.empty region).insertAll? points).isSome ↔
      ((Index.empty region).insertAll? points').isSome) ∧
    ∀ x y : Index α, (Index.empty region).insertAll? points = some x →
      (Index.empty region).insertAll? points' = some y →
      Divided region (points.filter fun a => region.Holds a.1) x.tree ∧
      Divided region (points.filter fun a => region.Holds a.1) y.tree ∧
      x.tree.outline = y.tree.outline ∧ x.nodeCount = y.nodeCount ∧
      ∀ area : Box, (x.query area).Perm (y.query area) := by
  have hfilter := hperm.filter fun a => region.Holds a.1
  have hdivided {y : Index α} (hy : (Index.empty region).insertAll? points' = some y) :
      Divided region (points.filter fun a => region.Holds a.1) y.tree :=
    (divided_insertAll? hy).perm hfilter.symm
  refine ⟨?_, fun x y hx hy => ⟨divided_insertAll? hx, hdivided hy, ?_, ?_, fun area => ?_⟩⟩
  · simp only [Option.isSome_iff_exists]
    constructor
    · rintro ⟨x, hx⟩
      exact exists_insertAll? hregion.centered (divided_insertAll? hx) hfilter.symm.subperm
    · rintro ⟨y, hy⟩
      exact exists_insertAll? hregion.centered (divided_insertAll? hy) hfilter.subperm
  · exact (divided_insertAll? hx).outline_eq (hdivided hy)
  · rw [Index.nodeCount, Index.nodeCount, ← nodeCount_outline,
      (divided_insertAll? hx).outline_eq (hdivided hy), nodeCount_outline]
  · rw [Index.query, Index.query, (Index.sound_insertAll? hregion.centered hx).query_eq,
      (Index.sound_insertAll? hregion.centered hy).query_eq]
    have hlist := (divided_insertAll? hx).toList_perm.trans (hdivided hy).toList_perm.symm
    exact (hlist.filter _).map _

/-- Twenty points that crowd a corner, more than the region has room for in one leaf, one outside
the region, and the far corner. -/
def crowdedPoints : List (Point × Nat) :=
  ((List.range 20).map fun i => (⟨.ofNat i, .ofNat (i % 3)⟩, i)) ++
    [(⟨101, 50⟩, 20), (⟨100, 100⟩, 21)]

theorem crowdedPoints_shape :
    ∃ x y, (Index.empty ⟨0, 0, 100, 100⟩).insertAll? crowdedPoints = some x ∧
      (Index.empty ⟨0, 0, 100, 100⟩).insertAll? crowdedPoints.reverse = some y ∧
      x.nodeCount = 13 ∧ x.tree.outline = y.tree.outline ∧
      (x.query ⟨0, 0, 2, 2⟩).Perm (y.query ⟨0, 0, 2, 2⟩) := by
  have hregion : (⟨0, 0, 100, 100⟩ : Box).Finite := by decide +kernel
  have hnodes : ((Index.empty ⟨0, 0, 100, 100⟩).insertAll? crowdedPoints).map
      Index.nodeCount = some 13 := by
    decide +kernel
  obtain ⟨x, hx, hcount⟩ := Option.map_eq_some_iff.mp hnodes
  obtain ⟨hends, hsame⟩ := insertAll?_shape hregion crowdedPoints.reverse_perm.symm
  obtain ⟨y, hy⟩ := Option.isSome_iff_exists.mp (hends.mp (hx ▸ rfl))
  obtain ⟨-, -, houtline, -, hquery⟩ := hsame x y hx hy
  exact ⟨x, y, hx, hy, hcount, houtline, hquery _⟩

end GlyphTable.PointTree
