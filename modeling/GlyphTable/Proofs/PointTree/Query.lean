import GlyphTable.PointTree
import GlyphTable.Proofs.Geometry.Finite

/-!
# Queries miss nothing

Every node of a point tree holds all points below it (`PointTree.Sound`), however its region
was divided and whether or not the center of that is finite. So passing over the nodes that
do not meet an area loses no point of it: a query gives what a scan of all points gives
(`PointTree.Sound.query_eq`).
-/

namespace GlyphTable

theorem Box.meets_of_holds {b area : Box} {p : Point} (h : b.Holds p) (harea : area.Holds p) :
    b.Meets area := by
  obtain ⟨hleft, hright, htop, hbottom⟩ := h
  obtain ⟨hleft', hright', htop', hbottom'⟩ := harea
  exact ⟨Binary64.le_trans hleft hright', Binary64.le_trans hleft' hright,
    Binary64.le_trans htop hbottom', Binary64.le_trans htop' hbottom⟩

namespace PointTree

variable {α : Type}

theorem Quadrant.centered_within {region : Box} (h : region.Centered) (q : Quadrant) :
    (q.within region).Centered := by
  obtain ⟨-, hwest, heast⟩ := Binary64.isNumber_half_sum h.horizontal
  obtain ⟨-, hnorth, hsouth⟩ := Binary64.isNumber_half_sum h.vertical
  cases q with
  | northWest => exact ⟨hwest, hnorth⟩
  | northEast => exact ⟨heast, hnorth⟩
  | southWest => exact ⟨hwest, hsouth⟩
  | southEast => exact ⟨heast, hsouth⟩

theorem Quadrant.holds_within {region : Box} (h : region.Centered) {p : Point}
    (hp : region.Holds p) :
    ((Quadrant.of region p).within region).Holds p := by
  obtain ⟨hleft, hright, htop, hbottom⟩ := hp
  have hwest (hlt : ¬ region.center.x ≤ p.x) : p.x ≤ region.center.x :=
    Binary64.le_of_lt ((Binary64.lt_or_le (Binary64.le_iff.mp hright).1
      (Binary64.isNumber_half_sum h.horizontal).1).resolve_right hlt)
  have hnorth (hlt : ¬ region.center.y ≤ p.y) : p.y ≤ region.center.y :=
    Binary64.le_of_lt ((Binary64.lt_or_le (Binary64.le_iff.mp hbottom).1
      (Binary64.isNumber_half_sum h.vertical).1).resolve_right hlt)
  by_cases hx : region.center.x ≤ p.x <;> by_cases hy : region.center.y ≤ p.y <;>
    simp only [Quadrant.of, hx, hy, decide_true, decide_false]
  · exact ⟨hx, hright, hy, hbottom⟩
  · exact ⟨hx, hright, htop, hnorth hy⟩
  · exact ⟨hleft, hwest hx, hy, hbottom⟩
  · exact ⟨hleft, hwest hx, htop, hnorth hy⟩

-- ---------------------------------------------------------------------------
-- Sound trees
-- ---------------------------------------------------------------------------

/-- Every node holds the points below it, and its parts are the quadrants of its region. -/
inductive Sound : PointTree α → Prop
  | leaf {region : Box} {points : List (Point × α)} : region.Centered →
      (∀ x ∈ points, region.Holds x.1) → Sound (.leaf region points)
  | branch {region : Box} {nw ne sw se : PointTree α} : region.Centered →
      (∀ x ∈ (branch region nw ne sw se).toList, region.Holds x.1) →
      nw.region = Quadrant.within region .northWest →
        ne.region = Quadrant.within region .northEast →
      sw.region = Quadrant.within region .southWest →
        se.region = Quadrant.within region .southEast →
      nw.Sound → ne.Sound → sw.Sound → se.Sound → Sound (.branch region nw ne sw se)

variable {t u : PointTree α}

theorem Sound.holds (h : t.Sound) : ∀ x ∈ t.toList, t.region.Holds x.1 := by
  cases h with
  | leaf _ hpoints => exact hpoints
  | branch _ hpoints => exact hpoints

theorem filter_eq_nil_of_not_meets {region area : Box} {points : List (Point × α)}
    (hpoints : ∀ x ∈ points, region.Holds x.1) (h : ¬ region.Meets area) :
    points.filter (fun x => area.Holds x.1) = [] := by
  refine List.filter_eq_nil_iff.mpr fun x hx harea => h ?_
  exact Box.meets_of_holds (hpoints x hx) (of_decide_eq_true harea)

/-- A query gives the values at all points of the area, in the sequence of `toList`. -/
theorem Sound.query_eq (h : t.Sound) (area : Box) :
    t.query area = (t.toList.filter fun x => area.Holds x.1).map (·.2) := by
  induction h with
  | leaf hcentered hpoints =>
    rw [query]
    split
    · rfl
    · next hmeets => rw [toList, filter_eq_nil_of_not_meets hpoints hmeets, List.map_nil]
  | branch hcentered hpoints _ _ _ _ _ _ _ _ hnw hne hsw hse =>
    rw [query]
    split
    · simp only [hnw, hne, hsw, hse, toList, List.filter_append, List.map_append]
    · next hmeets => rw [filter_eq_nil_of_not_meets hpoints hmeets, List.map_nil]

def Overfull (region : Box) (points : List (Point × α)) : Prop :=
  leafCapacity < points.length ∧ Divisible region

def part (region : Box) (points : List (Point × α)) (q : Quadrant) : List (Point × α) :=
  points.filter fun (p, _) => Quadrant.of region p = q

section

variable {region : Box} {points : List (Point × α)} {depth : Nat}

theorem grow?_of_not_overfull (h : ¬ Overfull region points) :
    grow? depth region points = some (.leaf region points) := by
  cases depth <;> exact if_neg h

theorem grow?_zero_of_overfull (h : Overfull region points) : grow? 0 region points = none :=
  if_pos h

theorem grow?_succ_eq_some_iff (h : Overfull region points) :
    grow? (depth + 1) region points = some t ↔
      ∃ grown : Quadrant → PointTree α,
        (∀ q, grow? depth (q.within region) (part region points q) = some (grown q)) ∧
        t = .branch region (grown .northWest) (grown .northEast) (grown .southWest)
          (grown .southEast) := by
  have hgrow : grow? (depth + 1) region points = (do
      let grown (q : Quadrant) := grow? depth (q.within region) (part region points q)
      return .branch region (← grown .northWest) (← grown .northEast) (← grown .southWest)
        (← grown .southEast)) := if_pos h
  rw [hgrow]
  simp only [Option.bind_eq_bind, Option.bind_eq_some_iff, Option.pure_def, Option.some.injEq]
  constructor
  · rintro ⟨nw, hnw, ne, hne, sw, hsw, se, hse, rfl⟩
    refine ⟨fun q => q.casesOn nw ne sw se, fun q => ?_, rfl⟩
    cases q with
    | northWest => exact hnw
    | northEast => exact hne
    | southWest => exact hsw
    | southEast => exact hse
  · rintro ⟨grown, hgrown, rfl⟩
    exact ⟨_, hgrown _, _, hgrown _, _, hgrown _, _, hgrown _, rfl⟩

theorem Quadrant.holds_part (h : region.Centered) (hpoints : ∀ x ∈ points, region.Holds x.1)
    (q : Quadrant) : ∀ x ∈ part region points q, (q.within region).Holds x.1 := by
  intro x hx
  obtain ⟨hx, hq⟩ := List.mem_filter.mp hx
  rw [← of_decide_eq_true hq]
  exact Quadrant.holds_within h (hpoints x hx)

theorem grow?_sound (hregion : region.Centered) (hpoints : ∀ x ∈ points, region.Holds x.1)
    (h : grow? depth region points = some t) : t.Sound := by
  have hperm := (grow?_eq_some h).2
  induction depth generalizing region points t with
  | zero =>
    by_cases hfull : Overfull region points
    · rw [grow?_zero_of_overfull hfull] at h
      cases h
    · rw [grow?_of_not_overfull hfull] at h
      obtain rfl := Option.some.inj h
      exact .leaf hregion hpoints
  | succ depth ih =>
    by_cases hfull : Overfull region points
    · obtain ⟨grown, hgrown, rfl⟩ := (grow?_succ_eq_some_iff hfull).mp h
      have hsound (q : Quadrant) : (grown q).Sound :=
        ih (Quadrant.centered_within hregion q) (Quadrant.holds_part hregion hpoints q) (hgrown q)
          (grow?_eq_some (hgrown q)).2
      exact .branch hregion (fun x hx => hpoints x (hperm.mem_iff.mp hx))
        (grow?_eq_some (hgrown _)).1 (grow?_eq_some (hgrown _)).1 (grow?_eq_some (hgrown _)).1
        (grow?_eq_some (hgrown _)).1 (hsound _) (hsound _) (hsound _) (hsound _)
    · rw [grow?_of_not_overfull hfull] at h
      obtain rfl := Option.some.inj h
      exact .leaf hregion hpoints

end

theorem Sound.place? {p : Point} {value : α} (h : t.Sound) (hp : t.region.Holds p)
    (hu : t.place? p value = some u) : u.Sound := by
  induction h generalizing u with
  | leaf hregion hpoints =>
    refine grow?_sound hregion (fun x hx => ?_) hu
    rcases List.mem_append.mp hx with hx | hx
    · exact hpoints x hx
    · rw [List.mem_singleton.mp hx]
      exact hp
  | @branch region nw ne sw se hregion hpoints rnw rne rsw rse hnw hne hsw hse inw ine isw ise =>
    have hall : ∀ x ∈ u.toList, region.Holds x.1 := by
      intro x hx
      rcases List.mem_cons.mp ((place?_eq_some hu).2.mem_iff.mp hx) with rfl | hx
      · exact hp
      · exact hpoints x hx
    have hquadrant := Quadrant.holds_within hregion hp
    rw [PointTree.place?] at hu
    split at hu <;> rename_i hq <;> rw [hq] at hquadrant <;>
      obtain ⟨v, hv, rfl⟩ := Option.map_eq_some_iff.mp hu
    · rw [← rnw] at hquadrant
      exact .branch hregion hall ((place?_eq_some hv).1.trans rnw) rne rsw rse
        (inw hquadrant hv) hne hsw hse
    · rw [← rne] at hquadrant
      exact .branch hregion hall rnw ((place?_eq_some hv).1.trans rne) rsw rse
        hnw (ine hquadrant hv) hsw hse
    · rw [← rsw] at hquadrant
      exact .branch hregion hall rnw rne ((place?_eq_some hv).1.trans rsw) rse
        hnw hne (isw hquadrant hv) hse
    · rw [← rse] at hquadrant
      exact .branch hregion hall rnw rne rsw ((place?_eq_some hv).1.trans rse)
        hnw hne hsw (ise hquadrant hv)

-- ---------------------------------------------------------------------------
-- Insertion in turn
-- ---------------------------------------------------------------------------

theorem sound_empty {region : Box} (h : region.Centered) : (empty region : PointTree α).Sound :=
  .leaf h fun _ hx => absurd hx List.not_mem_nil

namespace Index

variable {x y : Index α} {points : List (Point × α)} {answers : List Bool}

theorem insertEach?_cons_eq_some {a : Point × α}
    (h : x.insertEach? (a :: points) = some (answers, y)) :
    ∃ answer z rest, x.insert? a.1 a.2 = some (answer, z) ∧
      z.insertEach? points = some (rest, y) ∧ answers = answer :: rest := by
  simp only [insertEach?, Option.bind_eq_bind, Option.bind_eq_some_iff, Option.pure_def,
    Option.some.injEq, Prod.mk.injEq] at h
  obtain ⟨⟨answer, z⟩, hz, ⟨rest, _⟩, hrest, rfl, rfl⟩ := h
  exact ⟨answer, z, rest, hz, hrest, rfl⟩

theorem insertEach?_cons {a : Point × α} {answer : Bool} {z : Index α}
    (hz : x.insert? a.1 a.2 = some (answer, z))
    (hy : z.insertEach? points = some (answers, y)) :
    x.insertEach? (a :: points) = some (answer :: answers, y) := by
  simp only [insertEach?, hz, hy, Option.bind_eq_bind, Option.bind_some, Option.pure_def]

theorem tree_insertEach? {Keeps : PointTree α → Prop}
    (hplace : ∀ {t u : PointTree α} {p : Point} {value : α},
      Keeps t → t.region.Holds p → t.place? p value = some u → Keeps u)
    (h : Keeps x.tree) (hy : x.insertEach? points = some (answers, y)) : Keeps y.tree := by
  induction points generalizing x answers with
  | nil =>
    cases hy
    exact h
  | cons a rest ih =>
    obtain ⟨_, z, _, hz, hrest, -⟩ := insertEach?_cons_eq_some hy
    rcases insert?_eq_some_iff.mp hz with ⟨ha, -, t, ht, rfl⟩ | ⟨-, -, rfl⟩
    · exact ih (hplace h ha ht) hrest
    · exact ih h hrest

/-- What the answers to points that are offered to an index tell of it. -/
structure Answered (x : Index α) (points : List (Point × α)) (answers : List Bool)
    (y : Index α) : Prop where
  region_eq : y.region = x.region
  answers_eq : answers = points.map fun a => decide (x.region.Holds a.1)
  size_eq : y.size = x.size + answers.count true
  toList_perm : y.tree.toList.Perm
    (points.filter (fun a => x.region.Holds a.1) ++ x.tree.toList)

theorem answered_of_insertEach? (h : x.insertEach? points = some (answers, y)) :
    x.Answered points answers y := by
  induction points generalizing x answers with
  | nil =>
    cases h
    exact ⟨rfl, rfl, rfl, .refl _⟩
  | cons a rest ih =>
    obtain ⟨_, z, _, hz, hrest, rfl⟩ := insertEach?_cons_eq_some h
    obtain ⟨hregion, hanswers, hsize, hperm⟩ := ih hrest
    rcases insert?_eq_some_iff.mp hz with ⟨ha, rfl, t, ht, rfl⟩ | ⟨ha, rfl, rfl⟩
    · obtain ⟨htregion, htperm⟩ := place?_eq_some ht
      have hsame : (⟨t, x.size + 1⟩ : Index α).region = x.region := htregion
      rw [hsame] at hregion hanswers hperm
      refine ⟨hregion, ?_, ?_, ?_⟩
      · rw [List.map_cons, decide_eq_true ha, hanswers]
      · rw [List.count_cons_self]
        exact hsize.trans (Nat.add_right_comm _ _ _)
      · rw [List.filter_cons, if_pos (decide_eq_true ha)]
        exact hperm.trans ((htperm.append_left _).trans List.perm_middle)
    · refine ⟨hregion, ?_, ?_, ?_⟩
      · rw [List.map_cons, decide_eq_false ha, hanswers]
      · rw [hsize, List.count_cons_of_ne Bool.false_ne_true]
      · rwa [List.filter_cons, if_neg (by simpa using ha)]

theorem sound_insertAll? {region : Box} (h : region.Centered)
    (hy : (empty region).insertAll? points = some y) : y.tree.Sound := by
  obtain ⟨answers, hy⟩ := insertAll?_eq_some_iff.mp hy
  exact tree_insertEach? Sound.place? (sound_empty h) hy

theorem mem_query_of_insertAll? {region area : Box} (h : region.Centered)
    (hy : (empty region).insertAll? points = some y) {value : α} :
    value ∈ y.query area ↔ ∃ p, (p, value) ∈ points ∧ region.Holds p ∧ area.Holds p := by
  have hsound := sound_insertAll? h hy
  obtain ⟨answers, hy⟩ := insertAll?_eq_some_iff.mp hy
  have hperm := (answered_of_insertEach? hy).toList_perm
  rw [query, hsound.query_eq, List.mem_map]
  simp only [List.mem_filter, hperm.mem_iff, List.mem_append, decide_eq_true_eq]
  constructor
  · rintro ⟨a, ⟨⟨ha, hregion⟩ | ha, harea⟩, rfl⟩
    · exact ⟨a.1, ha, hregion, harea⟩
    · exact absurd ha List.not_mem_nil
  · rintro ⟨p, hp, hregion, harea⟩
    exact ⟨(p, value), ⟨.inl ⟨hp, hregion⟩, harea⟩, rfl⟩

end Index

end PointTree

end GlyphTable
