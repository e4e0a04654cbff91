import GlyphTable.Geometry.Box

/-!
# Trees of points

A point tree covers a region of the page and answers which of its points lie in a
box. A leaf that grows past its capacity is divided into four quadrants around
the center of its region, wherever its points lie, unless it is already too small
to divide.

Where coordinates are so large that the center of a region rounds to one of its
edges, dividing may never end. Division is therefore followed down to a depth
that no division that ends comes near, and insertion says when that is not enough.
-/

namespace GlyphTable

inductive PointTree (α : Type) where
  | leaf (region : Box) (points : List (Point × α))
  | branch (region : Box) (northWest northEast southWest southEast : PointTree α)

namespace PointTree

variable {α : Type}

def leafCapacity : Nat := 16

def leastExtent : Float := 1e-6

/-- Depth to which the division of one leaf is followed. -/
def depthLimit : Nat := 4096

def Divisible (region : Box) : Prop :=
  leastExtent < region.width ∧ leastExtent < region.height

instance (region : Box) : Decidable (Divisible region) :=
  inferInstanceAs (Decidable (_ ∧ _))

inductive Quadrant where
  | northWest
  | northEast
  | southWest
  | southEast
deriving DecidableEq, Repr

/-- The part of the region that a point belongs to. Points on a center line go
east or south. -/
def Quadrant.of (region : Box) (p : Point) : Quadrant :=
  match decide (region.center.x ≤ p.x), decide (region.center.y ≤ p.y) with
  | false, false => .northWest
  | true, false => .northEast
  | false, true => .southWest
  | true, true => .southEast

def Quadrant.within (region : Box) : Quadrant → Box
  | .northWest => ⟨region.left, region.top, region.center.x, region.center.y⟩
  | .northEast => ⟨region.center.x, region.top, region.right, region.center.y⟩
  | .southWest => ⟨region.left, region.center.y, region.center.x, region.bottom⟩
  | .southEast => ⟨region.center.x, region.center.y, region.right, region.bottom⟩

def empty (region : Box) : PointTree α :=
  .leaf region []

def region : PointTree α → Box
  | leaf r _ => r
  | branch r .. => r

/-- The points with their values: quadrants in the order north-west, north-east,
south-west, south-east, and those of a leaf in order of insertion. -/
def toList : PointTree α → List (Point × α)
  | leaf _ points => points
  | branch _ nw ne sw se => nw.toList ++ ne.toList ++ sw.toList ++ se.toList

def nodeCount : PointTree α → Nat
  | leaf .. => 1
  | branch _ nw ne sw se => 1 + nw.nodeCount + ne.nodeCount + sw.nodeCount + se.nodeCount

/-- The tree over the region that holds the points, divided as far as capacity
asks; `none` if that takes more than the given number of levels. -/
def grow? : Nat → Box → List (Point × α) → Option (PointTree α)
  | depth, region, points =>
    if leafCapacity < points.length ∧ Divisible region then
      match depth with
      | 0 => none
      | depth + 1 => do
        let part (q : Quadrant) :=
          grow? depth (q.within region) (points.filter fun (p, _) => Quadrant.of region p = q)
        return .branch region (← part .northWest) (← part .northEast)
          (← part .southWest) (← part .southEast)
    else
      some (.leaf region points)

theorem quadrants_perm (region : Box) (points : List (Point × α)) :
    let part (q : Quadrant) := points.filter fun (p, _) => Quadrant.of region p = q
    (part .northWest ++ part .northEast ++ part .southWest ++ part .southEast).Perm points := by
  induction points with
  | nil => exact .refl _
  | cons a rest ih =>
    simp only [List.append_assoc] at ih ⊢
    cases h : Quadrant.of region a.1 <;> simp only [List.filter_cons, h]
    · exact ih.cons a
    · exact List.perm_middle.trans (ih.cons a)
    · rw [← List.append_assoc] at ih ⊢
      exact List.perm_middle.trans (ih.cons a)
    · rw [← List.append_assoc, ← List.append_assoc] at ih ⊢
      exact List.perm_middle.trans (ih.cons a)

theorem grow?_eq_some {depth : Nat} {region : Box} {points : List (Point × α)} {t : PointTree α}
    (h : grow? depth region points = some t) : t.region = region ∧ t.toList.Perm points := by
  induction depth generalizing region points t with
  | zero =>
    simp only [grow?] at h
    split at h
    · simp at h
    · obtain rfl := Option.some.inj h
      exact ⟨rfl, .refl _⟩
  | succ depth ih =>
    simp only [grow?] at h
    split at h
    · simp only [Option.bind_eq_bind, Option.bind_eq_some_iff, Option.pure_def,
        Option.some.injEq] at h
      obtain ⟨nw, hnw, ne, hne, sw, hsw, se, hse, rfl⟩ := h
      refine ⟨rfl, List.Perm.trans ?_ (quadrants_perm region points)⟩
      exact ((((ih hnw).2.append (ih hne).2).append (ih hsw).2).append (ih hse).2)
    · obtain rfl := Option.some.inj h
      exact ⟨rfl, .refl _⟩

def place? (p : Point) (value : α) : PointTree α → Option (PointTree α)
  | leaf region points => grow? depthLimit region (points ++ [(p, value)])
  | branch region nw ne sw se =>
    match Quadrant.of region p with
    | .northWest => (nw.place? p value).map (branch region · ne sw se)
    | .northEast => (ne.place? p value).map (branch region nw · sw se)
    | .southWest => (sw.place? p value).map (branch region nw ne · se)
    | .southEast => (se.place? p value).map (branch region nw ne sw ·)

theorem place?_eq_some {p : Point} {value : α} {t u : PointTree α} (h : t.place? p value = some u) :
    u.region = t.region ∧ u.toList.Perm ((p, value) :: t.toList) := by
  induction t generalizing u with
  | leaf region points =>
    obtain ⟨hr, hp⟩ := grow?_eq_some h
    exact ⟨hr, hp.trans List.perm_append_comm⟩
  | branch region nw ne sw se hnw hne hsw hse =>
    rw [place?] at h
    split at h <;> obtain ⟨v, hv, rfl⟩ := Option.map_eq_some_iff.mp h <;> refine ⟨rfl, ?_⟩ <;>
      simp only [toList, List.append_assoc]
    · exact (hnw hv).2.append_right _
    · exact (((hne hv).2.append_right _).append_left _).trans List.perm_middle
    · exact ((((hsw hv).2.append_right _).append_left _).append_left _).trans
        ((List.perm_middle.append_left _).trans List.perm_middle)
    · exact ((((hse hv).2.append_left _).append_left _).append_left _).trans
        (((List.perm_middle.append_left _).append_left _).trans
          ((List.perm_middle.append_left _).trans List.perm_middle))

/-- The values at points of the area, edges included, in the order of `toList`.
Parts of the tree whose region does not meet the area are passed over. -/
def query (t : PointTree α) (area : Box) : List α :=
  if t.region.Meets area then
    match t with
    | leaf _ points => (points.filter fun (p, _) => area.Holds p).map (·.2)
    | branch _ nw ne sw se =>
      nw.query area ++ ne.query area ++ sw.query area ++ se.query area
  else
    []

-- ---------------------------------------------------------------------------
-- Indexes
-- ---------------------------------------------------------------------------

/-- A tree with the number of points it has taken. -/
structure Index (α : Type) where
  tree : PointTree α
  size : Nat

namespace Index

def empty (region : Box) : Index α :=
  ⟨.empty region, 0⟩

def region (x : Index α) : Box :=
  x.tree.region

def nodeCount (x : Index α) : Nat :=
  x.tree.nodeCount

def query (x : Index α) (area : Box) : List α :=
  x.tree.query area

/-- Offers a point; the answer says whether it was taken, as one in the region is.
`none` means that dividing the leaf did not end. -/
def insert? (x : Index α) (p : Point) (value : α) : Option (Bool × Index α) :=
  if x.region.Holds p then
    (x.tree.place? p value).map fun t => (true, ⟨t, x.size + 1⟩)
  else
    some (false, x)

def insertEach? (x : Index α) : List (Point × α) → Option (List Bool × Index α)
  | [] => some ([], x)
  | (p, value) :: rest => do
    let (answer, y) ← x.insert? p value
    let (answers, z) ← y.insertEach? rest
    return (answer :: answers, z)

def insertAll? (x : Index α) (points : List (Point × α)) : Option (Index α) :=
  (x.insertEach? points).map (·.2)

variable {x y : Index α} {p : Point} {value : α} {answer : Bool}

theorem insert?_eq_some_iff :
    x.insert? p value = some (answer, y) ↔
      (x.region.Holds p ∧ answer = true ∧
        ∃ t, x.tree.place? p value = some t ∧ y = ⟨t, x.size + 1⟩) ∨
      (¬ x.region.Holds p ∧ answer = false ∧ y = x) := by
  rw [insert?]
  split
  · next hp =>
    simp only [Option.map_eq_some_iff, Prod.mk.injEq, hp, true_and, not_true, false_and, or_false]
    constructor
    · rintro ⟨t, ht, rfl, rfl⟩
      exact ⟨rfl, t, ht, rfl⟩
    · rintro ⟨rfl, t, ht, rfl⟩
      exact ⟨t, ht, rfl, rfl⟩
  · next hp => simp [hp, eq_comm]

theorem insertAll?_eq_some_iff {points : List (Point × α)} :
    x.insertAll? points = some y ↔ ∃ answers, x.insertEach? points = some (answers, y) := by
  simp [insertAll?]

end Index

end PointTree

end GlyphTable
