import GlyphTable.Proofs.PointTree.Depth

/-!
# Points inserted in turn

A tree over a region of finite edges takes exactly the points of the region, and answers
queries with exactly what it took. The leaves hold that, and one holds more than its capacity
only where it is too small to be divided: insertion leaves no overfull leaf behind
(`PointTree.Settled`), and a region around a finite point has a width and a height to measure.
All of it is `PointTree.insertEach?_exact`.
-/

namespace GlyphTable.PointTree

variable {α : Type} {t u n : PointTree α}

-- ---------------------------------------------------------------------------
-- Nodes
-- ---------------------------------------------------------------------------

def nodes : PointTree α → List (PointTree α)
  | leaf region points => [leaf region points]
  | branch region nw ne sw se =>
    branch region nw ne sw se :: (nw.nodes ++ ne.nodes ++ sw.nodes ++ se.nodes)

def isLeaf : PointTree α → Bool
  | leaf .. => true
  | branch .. => false

def held : PointTree α → List (Point × α)
  | leaf _ points => points
  | branch .. => []

section

variable {region : Box} {points : List (Point × α)} {nw ne sw se : PointTree α}

theorem mem_nodes_leaf : n ∈ (leaf region points).nodes ↔ n = leaf region points :=
  List.mem_singleton

theorem mem_nodes_branch :
    n ∈ (branch region nw ne sw se).nodes ↔
      n = branch region nw ne sw se ∨ n ∈ nw.nodes ∨ n ∈ ne.nodes ∨ n ∈ sw.nodes ∨
      n ∈ se.nodes := by
  simp only [nodes, List.mem_cons, List.mem_append, or_assoc]

end

theorem held_eq_nil (h : n.isLeaf = false) : n.held = [] := by
  cases n with
  | leaf => cases h
  | branch => rfl

theorem mem_toList_of_mem_held {x : Point × α} (h : x ∈ n.held) : x ∈ n.toList := by
  cases n with
  | leaf => exact h
  | branch => cases h

theorem flatMap_held_nodes (t : PointTree α) : t.nodes.flatMap held = t.toList := by
  induction t with
  | leaf => exact List.append_nil _
  | branch region nw ne sw se hnw hne hsw hse =>
    simp only [nodes, List.flatMap_cons, List.flatMap_append, hnw, hne, hsw, hse]
    rfl

theorem mem_toList_of_mem_nodes (hn : n ∈ t.nodes) {x : Point × α} (hx : x ∈ n.held) :
    x ∈ t.toList := by
  rw [← flatMap_held_nodes]
  exact List.mem_flatMap.mpr ⟨n, hn, hx⟩

theorem Sound.of_mem_nodes (h : t.Sound) (hn : n ∈ t.nodes) : n.Sound := by
  induction h with
  | leaf hcentered hpoints =>
    rw [mem_nodes_leaf.mp hn]
    exact .leaf hcentered hpoints
  | branch hcentered hpoints rnw rne rsw rse hnw hne hsw hse inw ine isw ise =>
    rcases mem_nodes_branch.mp hn with rfl | hn | hn | hn | hn
    · exact .branch hcentered hpoints rnw rne rsw rse hnw hne hsw hse
    · exact inw hn
    · exact ine hn
    · exact isw hn
    · exact ise hn

-- ---------------------------------------------------------------------------
-- Settled trees
-- ---------------------------------------------------------------------------

def Settled (t : PointTree α) : Prop :=
  ∀ n ∈ t.nodes, ¬ Overfull n.region n.held

section

variable {region : Box} {points : List (Point × α)} {depth : Nat} {nw ne sw se : PointTree α}

theorem settled_leaf : (leaf region points).Settled ↔ ¬ Overfull region points := by
  simp only [Settled, mem_nodes_leaf, forall_eq]
  rfl

theorem settled_branch :
    (branch region nw ne sw se).Settled ↔ nw.Settled ∧ ne.Settled ∧ sw.Settled ∧ se.Settled := by
  have hself : ¬ Overfull region ([] : List (Point × α)) := fun h => Nat.not_lt_zero _ h.1
  simp only [Settled, mem_nodes_branch, or_imp, forall_and, forall_eq]
  exact and_iff_right hself

theorem settled_of_grow? (h : grow? depth region points = some t) : t.Settled := by
  induction depth generalizing region points t with
  | zero =>
    by_cases hfull : Overfull region points
    · rw [grow?_zero_of_overfull hfull] at h
      cases h
    · rw [grow?_of_not_overfull hfull] at h
      obtain rfl := Option.some.inj h
      exact settled_leaf.mpr hfull
  | succ depth ih =>
    by_cases hfull : Overfull region points
    · obtain ⟨grown, hgrown, rfl⟩ := (grow?_succ_eq_some_iff hfull).mp h
      exact settled_branch.mpr ⟨ih (hgrown _), ih (hgrown _), ih (hgrown _), ih (hgrown _)⟩
    · rw [grow?_of_not_overfull hfull] at h
      obtain rfl := Option.some.inj h
      exact settled_leaf.mpr hfull

end

theorem Settled.place? {p : Point} {value : α} (h : t.Settled) (hu : t.place? p value = some u) :
    u.Settled := by
  induction t generalizing u with
  | leaf => exact settled_of_grow? hu
  | branch region nw ne sw se inw ine isw ise =>
    obtain ⟨hnw, hne, hsw, hse⟩ := settled_branch.mp h
    rw [PointTree.place?] at hu
    split at hu <;> obtain ⟨v, hv, rfl⟩ := Option.map_eq_some_iff.mp hu <;>
      refine settled_branch.mpr ?_
    · exact ⟨inw hnw hv, hne, hsw, hse⟩
    · exact ⟨hnw, ine hne hv, hsw, hse⟩
    · exact ⟨hnw, hne, isw hsw hv, hse⟩
    · exact ⟨hnw, hne, hsw, ise hse hv⟩

theorem settled_empty {region : Box} : (empty region : PointTree α).Settled :=
  settled_leaf.mpr fun h => Nat.not_lt_zero _ h.1

-- ---------------------------------------------------------------------------
-- What an index took
-- ---------------------------------------------------------------------------

def taken (points : List (Point × α)) (answers : List Bool) : List (Point × α) :=
  ((points.zip answers).filter (·.2)).map (·.1)

variable {points : List (Point × α)} {answers : List Bool}

theorem taken_map (points : List (Point × α)) (p : Point × α → Bool) :
    taken points (points.map p) = points.filter p := by
  induction points with
  | nil => rfl
  | cons x rest ih =>
    rw [taken] at ih
    cases hx : p x <;> simp [taken, hx, ih]

/-- What is true of an index over the region that was offered the points and gave the answers. -/
structure Exact (region : Box) (points : List (Point × α)) (answers : List Bool)
    (x : Index α) : Prop where
  answers_eq : answers = points.map fun a => decide (region.Holds a.1)
  size_eq : x.size = answers.count true
  query_perm : ∀ area : Box,
    (x.query area).Perm (((taken points answers).filter fun a => area.Holds a.1).map (·.2))
  held_perm : (x.tree.nodes.flatMap held).Perm (taken points answers)
  branch_held : ∀ n ∈ x.tree.nodes, n.isLeaf = false → n.held = []
  leaf_held : ∀ n ∈ x.tree.nodes, leafCapacity < n.held.length →
    n.region.width ≤ leastExtent ∨ n.region.height ≤ leastExtent

theorem width_le_or_height_le {region : Box} (hfull : ¬ Overfull region points)
    (hcapacity : leafCapacity < points.length) {p : Point} (hp : region.Holds p)
    (hx : p.x.isFinite = true) (hy : p.y.isFinite = true) :
    region.width ≤ leastExtent ∨ region.height ≤ leastExtent := by
  obtain ⟨hleft, hright, htop, hbottom⟩ := hp
  have hleast : Binary64.IsNumber leastExtent := (Binary64.lt_iff.mp leastExtent_pos).2.1
  by_contra hwide
  obtain ⟨hwidth, hheight⟩ := not_or.mp hwide
  exact hfull ⟨hcapacity,
    (Binary64.lt_or_le hleast
      (Binary64.isNumber_sub_of_between hx hleft hright)).resolve_right hwidth,
    (Binary64.lt_or_le hleast
      (Binary64.isNumber_sub_of_between hy htop hbottom)).resolve_right hheight⟩

/-- An index over a region of finite edges takes the points of the region and counts them,
answers each query with those of them in the area, each once, and has no leaf over capacity that
could have been divided. -/
theorem insertEach?_exact {region : Box} (hregion : region.Finite) {x : Index α}
    (h : (Index.empty region).insertEach? points = some (answers, x)) :
    Exact region points answers x := by
  obtain ⟨-, hanswers, hsize, hperm⟩ := Index.answered_of_insertEach? h
  have hsound : x.tree.Sound :=
    Index.tree_insertEach? Sound.place? (sound_empty hregion.centered) h
  have hsettled : x.tree.Settled :=
    Index.tree_insertEach? (fun ht _ hu => ht.place? hu) settled_empty h
  have htaken : x.tree.toList.Perm (taken points answers) := by
    rw [hanswers, taken_map]
    exact hperm.trans (.of_eq (List.append_nil _))
  have hheld : ∀ a ∈ x.tree.toList, region.Holds a.1 := by
    intro a ha
    rcases List.mem_append.mp (hperm.mem_iff.mp ha) with ha | ha
    · exact of_decide_eq_true (List.mem_filter.mp ha).2
    · exact absurd ha List.not_mem_nil
  refine ⟨hanswers, hsize.trans (Nat.zero_add _), fun area => ?_, ?_, fun n _ => held_eq_nil,
    fun n hn hcapacity => ?_⟩
  · rw [Index.query, hsound.query_eq]
    exact (htaken.filter _).map _
  · rw [flatMap_held_nodes]
    exact htaken
  · obtain ⟨a, ha⟩ := List.exists_mem_of_length_pos (Nat.zero_lt_of_lt hcapacity)
    obtain ⟨hleft, hright, htop, hbottom⟩ := hheld a (mem_toList_of_mem_nodes hn ha)
    exact width_le_or_height_le (hsettled n hn) hcapacity
      ((hsound.of_mem_nodes hn).holds a (mem_toList_of_mem_held ha))
      (Binary64.isFinite_of_between hregion.left hregion.right hleft hright)
      (Binary64.isFinite_of_between hregion.top hregion.bottom htop hbottom)

def edgePoints : List (Point × Nat) :=
  ((List.range 17).map fun i => (⟨.ofNat i, 1⟩, i)) ++
    [(⟨16, 50⟩, 17), (⟨100, 100⟩, 18), (⟨101, 50⟩, 19), (⟨50, -0.5⟩, 20)]

theorem edgePoints_exact :
    (⟨0, 0, 100, 100⟩ : Box).Finite ∧
      ∃ answers x, (Index.empty ⟨0, 0, 100, 100⟩).insertEach? edgePoints = some (answers, x) ∧
        x.nodeCount = 13 ∧ x.size = 19 ∧ Exact ⟨0, 0, 100, 100⟩ edgePoints answers x := by
  have hregion : (⟨0, 0, 100, 100⟩ : Box).Finite := by decide +kernel
  have hcounts : ((Index.empty ⟨0, 0, 100, 100⟩).insertEach? edgePoints).map
      (fun (_, x) => (x.nodeCount, x.size)) = some (13, 19) := by
    decide +kernel
  obtain ⟨⟨answers, x⟩, hx, hcount⟩ := Option.map_eq_some_iff.mp hcounts
  obtain ⟨hnodes, hsize⟩ := Prod.mk.inj hcount
  exact ⟨hregion, answers, x, hx, hnodes, hsize, insertEach?_exact hregion hx⟩

end GlyphTable.PointTree
