import GlyphTable.Proofs.Binary64.Bisection
import GlyphTable.Proofs.PointTree.Insertion
import GlyphTable.Proofs.PointTree.Shape
import GlyphTable.Proofs.PointTree.Sparse

/-!
# Division comes to an end

In a region that is not far out, each division puts the center strictly inside and makes all four
parts narrower and lower (`PointTree.splits_of_divisible`), by half but for a unit of rounding. So
after a number of divisions that no points can change the sides are too short for another, and every
sequence of points is inserted, however many of them coincide: `PointTree.insertAll?_ends`.
-/

namespace GlyphTable

open Binary64 (value gridUnit halved)

structure Box.Close (b : Box) : Prop where
  left : Binary64.Close b.left
  top : Binary64.Close b.top
  right : Binary64.Close b.right
  bottom : Binary64.Close b.bottom

instance (b : Box) : Decidable b.Close :=
  decidable_of_iff (Binary64.Close b.left ∧ Binary64.Close b.top ∧ Binary64.Close b.right ∧
      Binary64.Close b.bottom)
    ⟨fun ⟨hl, ht, hr, hb⟩ => ⟨hl, ht, hr, hb⟩, fun ⟨hl, ht, hr, hb⟩ => ⟨hl, ht, hr, hb⟩⟩

structure Box.Sides (w : ℚ) (b : Box) : Prop where
  horizontal : value b.right - value b.left ≤ w
  vertical : value b.bottom - value b.top ≤ w

theorem Box.Close.moderate {b : Box} (h : b.Close) : b.Moderate :=
  ⟨h.left.moderate, h.top.moderate, h.right.moderate, h.bottom.moderate⟩

namespace PointTree

variable {α : Type} {region : Box} {points : List (Point × α)} {t n : PointTree α}

-- ---------------------------------------------------------------------------
-- One division
-- ---------------------------------------------------------------------------

theorem Quadrant.within_of_halves {P Q : Float → Float → Prop}
    (hwest : P region.left region.center.x)
    (heast : P region.center.x region.right) (hnorth : Q region.top region.center.y)
    (hsouth : Q region.center.y region.bottom) (q : Quadrant) :
    P (q.within region).left (q.within region).right ∧
      Q (q.within region).top (q.within region).bottom := by
  cases q with
  | northWest => exact ⟨hwest, hnorth⟩
  | northEast => exact ⟨heast, hnorth⟩
  | southWest => exact ⟨hwest, hsouth⟩
  | southEast => exact ⟨heast, hsouth⟩

theorem Quadrant.close_within (h : region.Close) (q : Quadrant) : (q.within region).Close := by
  have hx : Binary64.Close region.center.x := h.left.half_sum h.right
  have hy : Binary64.Close region.center.y := h.top.half_sum h.bottom
  obtain ⟨⟨hleft, hright⟩, htop, hbottom⟩ := q.within_of_halves
    (P := fun left right => Binary64.Close left ∧ Binary64.Close right)
    (Q := fun top bottom => Binary64.Close top ∧ Binary64.Close bottom)
    ⟨h.left, hx⟩ ⟨hx, h.right⟩ ⟨h.top, hy⟩ ⟨hy, h.bottom⟩
  exact ⟨hleft, htop, hright, hbottom⟩

/-- Division of the region gets somewhere: the center is strictly inside, and all parts are
narrower and lower. -/
structure Splits (region : Box) : Prop where
  left_lt : region.left < region.center.x
  lt_right : region.center.x < region.right
  top_lt : region.top < region.center.y
  lt_bottom : region.center.y < region.bottom
  width_lt : ∀ q : Quadrant, (q.within region).width < region.width
  height_lt : ∀ q : Quadrant, (q.within region).height < region.height

theorem leastSide_eq : leastSide = 4 * gridUnit := by
  decide +kernel

theorem halved_sides (h : region.Close) (hdiv : Divisible region) :
    Binary64.Halved region.left region.right region.center.x ∧
      Binary64.Halved region.top region.bottom region.center.y :=
  ⟨halved h.left h.right (leastSide_eq ▸ (leastSide_lt_sub h.left.1 h.right.1 hdiv.1).le),
    halved h.top h.bottom (leastSide_eq ▸ (leastSide_lt_sub h.top.1 h.bottom.1 hdiv.2).le)⟩

theorem splits_of_divisible (h : region.Close) (hdiv : Divisible region) : Splits region := by
  obtain ⟨hx, hy⟩ := halved_sides h hdiv
  have hshorter (q : Quadrant) := q.within_of_halves
    (P := fun left right => right - left < region.width)
    (Q := fun top bottom => bottom - top < region.height)
    hx.lower_lt hx.upper_lt hy.lower_lt hy.upper_lt
  exact ⟨hx.lt_middle, hx.middle_lt, hy.lt_middle, hy.middle_lt, fun q => (hshorter q).1,
    fun q => (hshorter q).2⟩

def halvedLimit (n : Nat) : ℚ := 2 * gridUnit * (2 ^ n + 1)

theorem halvedLimit_succ (n : Nat) : halvedLimit (n + 1) / 2 + gridUnit = halvedLimit n := by
  rw [halvedLimit, halvedLimit, pow_succ]
  ring

theorem Quadrant.sides_within {n : Nat} (h : region.Close) (hdiv : Divisible region)
    (hsides : region.Sides (halvedLimit (n + 1))) (q : Quadrant) :
    (q.within region).Sides (halvedLimit n) := by
  obtain ⟨hx, hy⟩ := halved_sides h hdiv
  have hshort {side part : ℚ} (hside : side ≤ halvedLimit (n + 1))
      (hpart : part ≤ side / 2 + gridUnit) :
      part ≤ halvedLimit n := by
    rw [← halvedLimit_succ]
    linarith
  obtain ⟨hwidth, hheight⟩ := q.within_of_halves
    (P := fun left right => value right - value left ≤ halvedLimit n)
    (Q := fun top bottom => value bottom - value top ≤ halvedLimit n)
    (hshort hsides.1 hx.lower_le) (hshort hsides.1 hx.upper_le)
    (hshort hsides.2 hy.lower_le) (hshort hsides.2 hy.upper_le)
  exact ⟨hwidth, hheight⟩

theorem not_divisible_of_sides (h : region.Close) (hsides : region.Sides (halvedLimit 0)) :
    ¬ Divisible region := by
  intro hdiv
  have hlimit : halvedLimit 0 = leastSide := by decide +kernel
  have hwide := leastSide_lt_sub h.left.1 h.right.1 hdiv.1
  exact absurd hsides.horizontal (not_le.mpr (hlimit ▸ hwide))

/-- How often a region that is not far out is divided at most. -/
def divisionLimit : Nat := 52

theorem sides_of_close (h : region.Close) : region.Sides (halvedLimit divisionLimit) := by
  have hlimit : 2 * 2 ^ 30 ≤ halvedLimit divisionLimit := by decide +kernel
  obtain ⟨⟨-, hleft⟩, ⟨-, htop⟩, ⟨-, hright⟩, ⟨-, hbottom⟩⟩ := h
  rw [abs_le] at hleft htop hright hbottom
  exact ⟨by linarith, by linarith⟩

-- ---------------------------------------------------------------------------
-- Division of a leaf
-- ---------------------------------------------------------------------------

theorem grow?_ne_none_of_sides {depth : Nat} (h : region.Close)
    (hsides : region.Sides (halvedLimit depth)) :
    grow? depth region points ≠ none := by
  induction depth generalizing region points with
  | zero =>
    rw [grow?_of_not_overfull fun hfull => not_divisible_of_sides h hsides hfull.2]
    exact Option.some_ne_none _
  | succ depth ih =>
    intro hnone
    have hfull := overfull_of_grow?_eq_none hnone
    obtain ⟨q, hq⟩ := (grow?_succ_eq_none_iff hfull).mp hnone
    exact ih (Quadrant.close_within h q) (Quadrant.sides_within h hfull.2 hsides q) hq

theorem exists_divided (h : region.Close) (points : List (Point × α)) :
    ∃ t, Divided region points t := by
  have hgrows : grow? divisionLimit region points ≠ none :=
    grow?_ne_none_of_sides h (sides_of_close h)
  obtain ⟨t, ht⟩ := Option.ne_none_iff_exists'.mp hgrows
  exact ⟨t, divided_of_grow? ht⟩

-- ---------------------------------------------------------------------------
-- Trees that were divided
-- ---------------------------------------------------------------------------

def depth : PointTree α → Nat
  | leaf .. => 0
  | branch _ nw ne sw se => 1 + max (max nw.depth ne.depth) (max sw.depth se.depth)

def children : PointTree α → List (PointTree α)
  | leaf .. => []
  | branch _ nw ne sw se => [nw, ne, sw, se]

theorem depth_ofQuadrants_le {grown : Quadrant → PointTree α} {k : Nat}
    (h : ∀ q, (grown q).depth ≤ k) :
    (ofQuadrants region grown).depth ≤ k + 1 := by
  have hnw := h .northWest
  have hne := h .northEast
  have hsw := h .southWest
  have hse := h .southEast
  simp only [ofQuadrants, depth]
  omega

theorem mem_nodes_ofQuadrants {grown : Quadrant → PointTree α} :
    n ∈ (ofQuadrants region grown).nodes ↔
      n = ofQuadrants region grown ∨ ∃ q, n ∈ (grown q).nodes := by
  rw [ofQuadrants, mem_nodes_branch]
  refine or_congr_right ⟨?_, ?_⟩
  · rintro (h | h | h | h) <;> exact ⟨_, h⟩
  · rintro ⟨q, h⟩
    cases q <;> simp only [h, true_or, or_true]

theorem Divided.depth_le {k : Nat} (h : Divided region points t) (hclose : region.Close)
    (hsides : region.Sides (halvedLimit k)) : t.depth ≤ k := by
  induction h generalizing k with
  | leaf => exact Nat.zero_le k
  | branch hfull _ ih =>
    cases k with
    | zero => exact absurd hfull.2 (not_divisible_of_sides hclose hsides)
    | succ k =>
      exact depth_ofQuadrants_le fun q =>
        ih q (Quadrant.close_within hclose q) (Quadrant.sides_within hclose hfull.2 hsides q)

theorem Divided.of_mem_nodes (h : Divided region points t) (hclose : region.Close)
    (hn : n ∈ t.nodes) :
    n.region.Close ∧ ∃ points, Divided n.region points n := by
  induction h with
  | @leaf region points held hnot hheld =>
    rw [mem_nodes_leaf.mp hn]
    exact ⟨hclose, points, .leaf hnot hheld⟩
  | @branch region points grown hfull hgrown ih =>
    rcases mem_nodes_ofQuadrants.mp hn with rfl | ⟨q, hq⟩
    · exact ⟨hclose, points, .branch hfull hgrown⟩
    · exact ih q (Quadrant.close_within hclose q) hq

structure Bounded (t : PointTree α) : Prop where
  splits : ∀ n ∈ t.nodes, Divisible n.region → Splits n.region
  children_region : ∀ n ∈ t.nodes, n.isLeaf = false →
    Divisible n.region ∧ n.children.map PointTree.region =
      [Quadrant.northWest, .northEast, .southWest, .southEast].map (·.within n.region)
  leaf_small : ∀ n ∈ t.nodes, n.isLeaf = true →
    n.region.width ≤ leastExtent ∨ n.region.height ≤ leastExtent ∨ n.held.length ≤ leafCapacity
  depth_le : t.depth ≤ divisionLimit

theorem Divided.children_region (h : Divided region points n) (hbranch : n.isLeaf = false) :
    Divisible region ∧ n.children.map PointTree.region =
      [Quadrant.northWest, .northEast, .southWest, .southEast].map (·.within region) := by
  cases h with
  | leaf => cases hbranch
  | branch hfull hgrown =>
    refine ⟨hfull.2, ?_⟩
    simp only [ofQuadrants, children, List.map_cons, List.map_nil, (hgrown _).region_eq]

theorem Divided.leaf_small (h : Divided region points n) (hclose : region.Close)
    (hleaf : n.isLeaf = true) :
    region.width ≤ leastExtent ∨ region.height ≤ leastExtent ∨ n.held.length ≤ leafCapacity := by
  cases h with
  | branch => cases hleaf
  | leaf hnot hheld =>
    have hleast : Binary64.IsNumber leastExtent := (Binary64.lt_iff.mp leastExtent_pos).2.1
    have hwidth :=
      Binary64.lt_or_le hleast (Binary64.roundedTo_sub hclose.right.1 hclose.left.1).isNumber
    have hheight :=
      Binary64.lt_or_le hleast (Binary64.roundedTo_sub hclose.bottom.1 hclose.top.1).isNumber
    rcases hwidth with hwide | hnarrow
    · rcases hheight with hhigh | hlow
      · exact .inr
          (.inr (hheld.length_eq ▸ not_lt.mp fun hcapacity => hnot ⟨hcapacity, hwide, hhigh⟩))
      · exact .inr (.inl hlow)
    · exact .inl hnarrow

/-- Every insertion of every sequence of points succeeds in a region that is not far out. -/
theorem insertAll?_ends (h : region.Close) (points : List (Point × α)) :
    ∃ x, (Index.empty region).insertAll? points = some x ∧ x.region = region ∧
      Bounded x.tree := by
  obtain ⟨u, hu⟩ := exists_divided h (points.filter fun a => region.Holds a.1)
  obtain ⟨x, hx⟩ := exists_insertAll? h.moderate.centered hu (List.Perm.refl _).subperm
  have hdivided := divided_insertAll? hx
  refine ⟨x, hx, hdivided.region_eq, fun n hn hdiv => ?_, fun n hn hbranch => ?_,
    fun n hn hleaf => ?_,
    hdivided.depth_le h (sides_of_close h)⟩
  all_goals obtain ⟨hclose, held, hnode⟩ := hdivided.of_mem_nodes h hn
  · exact splits_of_divisible hclose hdiv
  · exact hnode.children_region hbranch
  · exact hnode.leaf_small hclose hleaf

def coincidentPoints : List (Point × Nat) :=
  ((List.range 18).map fun i => (⟨25, 1e-6⟩, i)) ++ [(⟨-1073741824, 0⟩, 18), (⟨26, 1⟩, 19)]

/-- A region as wide as close edges allow, and high enough for four divisions. -/
theorem coincidentPoints_ends :
    (⟨-1073741824, 0, 1073741824, 1e-5⟩ : Box).Close ∧
      ∃ x, (Index.empty ⟨-1073741824, 0, 1073741824, 1e-5⟩).insertAll? coincidentPoints = some x ∧
        x.nodeCount = 17 ∧ x.tree.depth = 4 ∧ Bounded x.tree := by
  have hclose : (⟨-1073741824, 0, 1073741824, 1e-5⟩ : Box).Close := by decide +kernel
  have hshape : ((Index.empty ⟨-1073741824, 0, 1073741824, 1e-5⟩).insertAll? coincidentPoints).map
      (fun x => (x.nodeCount, x.tree.depth)) = some (17, 4) := by
    decide +kernel
  obtain ⟨x, hx, -, hbounded⟩ := insertAll?_ends hclose coincidentPoints
  rw [hx] at hshape
  obtain ⟨hcount, hdepth⟩ := Prod.mk.inj (Option.some.inj hshape)
  exact ⟨hclose, x, hx, hcount, hdepth, hbounded⟩

end PointTree

end GlyphTable
