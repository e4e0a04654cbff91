import GlyphTable.Proofs.Partition.Runs

/-!
# Searches and merges in any sequence

A partition is used by calls: searches, which shorten paths, and merges. Whatever the sequence of
calls, two positions have one root exactly if the merges so far connect them, and a search leaves
it so (`Partition.Represents`). Every search comes to its root without a limit to its steps
(`Partition.Climbs`). A position of rank `r` shares its class with `2 ^ r` positions
(`Partition.Ranked`), so no rank comes near the greatest. `Partition.run_exact` puts this together.
-/

namespace GlyphTable.Partition

/-- A search that comes to an end, however many steps it takes: from `x` it comes to the root `r`,
and leaves the parents as in `parent'`. -/
inductive Climbs : Array Nat → Nat → Nat → Array Nat → Prop
  | root {parent : Array Nat} {x : Nat} (h : up parent x = x) : Climbs parent x x parent
  | step {parent parent' : Array Nat} {x r : Nat} (h : up parent x ≠ x)
      (hrest : Climbs (parent.setIfInBounds x (up parent (up parent x))) (up parent (up parent x)) r
        parent') : Climbs parent x r parent'

/-- Levels rise at every step and are bounded, so that a search ends. -/
theorem Leveled.climbs (steps : Nat) {parent : Array Nat} {level : Nat → Nat}
    (h : Leveled parent level) {x : Nat} (hx : x < parent.size)
    (hsteps : parent.size ≤ level x + steps) :
    Climbs parent x (climb steps parent x).1 (climb steps parent x).2 := by
  induction steps generalizing parent x with
  | zero =>
    have hlt := h.level_lt x hx
    omega
  | succ steps ih =>
    rw [climb_succ]
    by_cases hroot : up parent x = x
    · rw [if_pos hroot]
      exact .root hroot
    · rw [if_neg hroot]
      have hupper := h.rises_twice hroot
      have hsize : (parent.setIfInBounds x (up parent (up parent x))).size = parent.size := by simp
      have hlt := h.up_lt _ (h.up_lt x hx)
      exact .step hroot (ih (h.halve hx hroot) (hsize.symm ▸ hlt) (by omega))

-- ---------------------------------------------------------------------------
-- What a merge does
-- ---------------------------------------------------------------------------

section

variable {p : Partition} {n : Nat} {edges : List (Nat × Nat)} (h : p.Represents n edges) {x y : Nat}
  (hx : x < n) (hy : y < n)

include h hx hy

theorem Represents.root_find : (p.find x).2.root y = p.root y :=
  Partition.root_find h.leveled (h.size.symm ▸ hx) (h.size.symm ▸ hy)

theorem Represents.merge_cases :
    (p.root x = p.root y ∧ (p.merge x y).1 = false ∧ (p.merge x y).2.rank = p.rank) ∨
    (p.root x ≠ p.root y ∧ (p.merge x y).1 = true ∧
      ((p.merge x y).2.rank = p.rank ∨
        p.rank.getD (p.root x) 0 = p.rank.getD (p.root y) 0 ∧
          (p.merge x y).2.rank = p.rank.setIfInBounds (p.root x)
            (min (p.rank.getD (p.root x) 0 + 1) greatestRank))) := by
  have hroot : ((p.find x).2.find y).1 = p.root y := h.root_find hx hy
  have hrank : ((p.find x).2.find y).2.rank = p.rank := rfl
  have hfirst : (p.find x).1 = p.root x := rfl
  simp only [Partition.merge, hroot, hrank, hfirst]
  by_cases heq : p.root x = p.root y
  · exact .inl ⟨heq, by rw [if_pos heq], by rw [if_pos heq]; exact hrank⟩
  · refine .inr ⟨heq, ?_⟩
    rw [if_neg heq]
    split
    · exact ⟨rfl, .inl hrank⟩
    · split
      · exact ⟨rfl, .inl hrank⟩
      · exact ⟨rfl, .inr ⟨by omega, rfl⟩⟩

theorem Represents.merge_iff : (p.merge x y).1 = true ↔ ¬ Connected edges x y := by
  rw [← h.root_eq_iff hx hy]
  rcases h.merge_cases hx hy with ⟨heq, hflag, -⟩ | ⟨hne, hflag, -⟩
  · simp [hflag, heq]
  · simp [hflag, Ne.symm hne]

end

section

variable {p : Partition} {n : Nat} {edges : List (Nat × Nat)} (h : p.Represents n edges) {x : Nat}
  (hx : x < n)

include h hx

theorem Represents.connected_root : Connected edges x (p.root x) := by
  have hroot := h.rootOf_root hx
  exact (h.same _ _).mp ⟨_, hroot, .root hroot.isRoot⟩

theorem Represents.root_lt : p.root x < n := by
  obtain ⟨level, hlevel⟩ := h.leveled
  have hlt := hlevel.root_lt (h.rootOf_root hx) (h.size.symm ▸ hx)
  rwa [h.size] at hlt

end

-- ---------------------------------------------------------------------------
-- Ranks
-- ---------------------------------------------------------------------------

open Classical in
noncomputable def reach (n : Nat) (edges : List (Nat × Nat)) (x : Nat) : Finset Nat :=
  (Finset.range n).filter (Connected edges x)

theorem mem_reach {n : Nat} {edges : List (Nat × Nat)} {x y : Nat} :
    y ∈ reach n edges x ↔ y < n ∧ Connected edges x y := by
  simp [reach]

theorem reach_subset (n : Nat) (edges more : List (Nat × Nat)) (x : Nat) :
    reach n edges x ⊆ reach n (edges ++ more) x := by
  intro y hy
  obtain ⟨hlt, hc⟩ := mem_reach.mp hy
  exact mem_reach.mpr ⟨hlt, hc.mono fun _ _ hmem => List.mem_append_left _ hmem⟩

theorem Represents.card_reach_merge {p : Partition} {n : Nat} {edges : List (Nat × Nat)}
    (h : p.Represents n edges) {x y : Nat} (hx : x < n) (hy : y < n) (hne : p.root x ≠ p.root y) :
    (reach n edges (p.root x)).card + (reach n edges (p.root y)).card ≤
      (reach n (edges ++ [(x, y)]) (p.root x)).card := by
  have hxr := h.connected_root hx
  have hyr := h.connected_root hy
  have hdisjoint : Disjoint (reach n edges (p.root x)) (reach n edges (p.root y)) := by
    refine Finset.disjoint_left.mpr fun u hu hu' => hne ?_
    have hxu := hxr.trans _ _ _ (mem_reach.mp hu).2
    have hyu := hyr.trans _ _ _ (mem_reach.mp hu').2
    exact ((h.root_eq_iff hx hy).mpr (hxu.trans _ _ _ (hyu.symm _ _))).symm
  have hmono (u v : Nat) (hc : Connected edges u v) : Connected (edges ++ [(x, y)]) u v :=
    hc.mono fun _ _ hmem => List.mem_append_left _ hmem
  have hxy : Connected (edges ++ [(x, y)]) x y := .rel _ _ (by simp)
  have hroots : Connected (edges ++ [(x, y)]) (p.root x) (p.root y) :=
    ((hmono _ _ hxr).symm _ _).trans _ _ _ (hxy.trans _ _ _ (hmono _ _ hyr))
  rw [← Finset.card_union_of_disjoint hdisjoint]
  refine Finset.card_le_card (Finset.union_subset (reach_subset n edges _ _) fun u hu => ?_)
  obtain ⟨hlt, hc⟩ := mem_reach.mp hu
  exact mem_reach.mpr ⟨hlt, hroots.trans _ _ _ (hmono _ _ hc)⟩

/-- A partition whose ranks are no more than the binary logarithms of the sizes of classes. -/
structure Ranked (p : Partition) (n : Nat) (edges : List (Nat × Nat)) : Prop where
  represents : p.Represents n edges
  pow_le : ∀ x < n, 2 ^ p.rank.getD x 0 ≤ (reach n edges x).card

theorem ranked_discrete (n : Nat) : (discrete n).Ranked n [] := by
  refine ⟨represents_discrete n, fun x hx => ?_⟩
  have hzero : (discrete n).rank.getD x 0 = 0 := by simp [discrete, hx]
  rw [hzero]
  exact Finset.card_pos.mpr ⟨x, mem_reach.mpr ⟨hx, .refl _⟩⟩

theorem getD_setIfInBounds (ranks : Array Nat) (i z v : Nat) :
    (ranks.setIfInBounds i v).getD z 0 = ranks.getD z 0 ∨
      z = i ∧ (ranks.setIfInBounds i v).getD z 0 = v := by
  simp only [Array.getD_eq_getD_getElem?, Array.getElem?_setIfInBounds]
  by_cases hz : i = z
  · subst hz
    by_cases hi : i < ranks.size <;> simp [hi]
  · simp [hz]

section

variable {p : Partition} {n : Nat} {edges : List (Nat × Nat)} (h : p.Ranked n edges) {x y : Nat}

include h

theorem Ranked.find (hx : x < n) : (p.find x).2.Ranked n edges :=
  ⟨h.represents.find hx, h.pow_le⟩

theorem Ranked.merge (hx : x < n) (hy : y < n) : (p.merge x y).2.Ranked n (edges ++ [(x, y)]) := by
  refine ⟨h.represents.merge hx hy, fun z hz => ?_⟩
  have hold : 2 ^ p.rank.getD z 0 ≤ (reach n (edges ++ [(x, y)]) z).card :=
    (h.pow_le z hz).trans (Finset.card_le_card (reach_subset n edges _ z))
  rcases h.represents.merge_cases hx hy with ⟨-, -, hrank⟩ | ⟨hne, -, hrank | ⟨htie, hrank⟩⟩
  · rwa [hrank]
  · rwa [hrank]
  · rw [hrank]
    rcases getD_setIfInBounds p.rank (p.root x) z _ with heq | ⟨rfl, heq⟩
    · rwa [heq]
    · rw [heq]
      calc 2 ^ min (p.rank.getD (p.root x) 0 + 1) greatestRank
          ≤ 2 ^ (p.rank.getD (p.root x) 0 + 1) := Nat.pow_le_pow_right Nat.two_pos (min_le_left _ _)
        _ = 2 ^ p.rank.getD (p.root x) 0 + 2 ^ p.rank.getD (p.root y) 0 := by rw [← htie]; ring
        _ ≤ (reach n edges (p.root x)).card + (reach n edges (p.root y)).card :=
            Nat.add_le_add (h.pow_le _ hz) (h.pow_le _ (h.represents.root_lt hy))
        _ ≤ (reach n (edges ++ [(x, y)]) (p.root x)).card := h.represents.card_reach_merge hx hy hne

theorem Ranked.card_reach (hx : x < n) : (reach n edges x).card = (p.classOf x).length := by
  have hnodup : (p.classOf x).Nodup := List.nodup_range.filter _
  have hset : reach n edges x = (p.classOf x).toFinset := by
    ext y
    have hsize : p.size = n := h.represents.size
    rw [mem_reach, List.mem_toFinset, classOf, mem_sharing, hsize]
    exact and_congr_right fun hy => (h.represents.root_eq_iff hx hy).symm
  rw [hset, List.toFinset_card_of_nodup hnodup]

end

-- ---------------------------------------------------------------------------
-- Sequences of calls
-- ---------------------------------------------------------------------------

inductive Call where
  | find (x : Nat)
  | merge (x y : Nat)

namespace Call

def Below (n : Nat) : Call → Prop
  | find x => x < n
  | merge x y => x < n ∧ y < n

def apply (p : Partition) : Call → Partition
  | find x => (p.find x).2
  | merge x y => (p.merge x y).2

def edge? : Call → Option (Nat × Nat)
  | find _ => none
  | merge x y => some (x, y)

end Call

def run (p : Partition) (calls : List Call) : Partition :=
  calls.foldl Call.apply p

def merged (calls : List Call) : List (Nat × Nat) :=
  calls.filterMap Call.edge?

theorem Ranked.apply {p : Partition} {n : Nat} {edges : List (Nat × Nat)} (h : p.Ranked n edges)
    {c : Call} (hc : c.Below n) : (c.apply p).Ranked n (edges ++ merged [c]) := by
  cases c with
  | find x =>
    rw [show merged [.find x] = [] from rfl, List.append_nil]
    exact h.find hc
  | merge x y => exact h.merge hc.1 hc.2

theorem Ranked.run {p : Partition} {n : Nat} {edges : List (Nat × Nat)} (h : p.Ranked n edges)
    {calls : List Call} (hcalls : ∀ c ∈ calls, c.Below n) :
    (p.run calls).Ranked n (edges ++ merged calls) := by
  induction calls generalizing p edges with
  | nil => simpa [merged, Partition.run] using h
  | cons c rest ih =>
    have hnext := ih (h.apply (hcalls c List.mem_cons_self)) fun d hd =>
      hcalls d (List.mem_cons_of_mem _ hd)
    rw [List.append_assoc, merged, merged, ← List.filterMap_append] at hnext
    exact hnext

/-- What a partition gives out once some pairs of the positions below `n` have been merged. -/
structure Exact (p : Partition) (n : Nat) (merged : List (Nat × Nat)) : Prop where
  /-- Parents are positions, and every search comes to an end. -/
  up_lt : ∀ x < n, up p.parent x < n
  find_ends : ∀ x < n, Climbs p.parent x (p.find x).1 (p.find x).2.parent
  root_eq_iff : ∀ x < n, ∀ y < n, p.root x = p.root y ↔ Connected merged x y
  merge_iff : ∀ x < n, ∀ y < n, (p.merge x y).1 = true ↔ ¬ Connected merged x y
  /-- A search leaves all roots and classes. -/
  find_root : ∀ x < n, ∀ y < n, (p.find x).2.root y = p.root y
  find_classes : ∀ x < n, (p.find x).2.classes = p.classes
  pow_rank_le : ∀ x < n, 2 ^ p.rank.getD x 0 ≤ (p.classOf x).length
  rank_lt : n < 2 ^ greatestRank → ∀ x < n, p.rank.getD x 0 < greatestRank
  /-- Classes are the connected components, members ascending, by their smallest members. -/
  components : Components n merged p.classes
  ascending : p.classes.Pairwise fun c d => c.headD 0 < d.headD 0

theorem Ranked.exact {p : Partition} {n : Nat} {edges : List (Nat × Nat)} (h : p.Ranked n edges) :
    p.Exact n edges where
  up_lt x hx := by
    obtain ⟨level, hlevel⟩ := h.represents.leveled
    have hlt := hlevel.up_lt x (h.represents.size.symm ▸ hx)
    rwa [h.represents.size] at hlt
  find_ends x hx := by
    obtain ⟨level, hlevel⟩ := h.represents.leveled
    exact hlevel.climbs _ (h.represents.size.symm ▸ hx) (Nat.le_add_left _ _)
  root_eq_iff x hx y hy := eq_comm.trans (h.represents.root_eq_iff hx hy)
  merge_iff x hx y hy := h.represents.merge_iff hx hy
  find_root x hx y hy := h.represents.root_find hx hy
  find_classes x hx :=
    (h.represents.find hx).components.eq_of_ascending h.represents.components
      (h.represents.find hx).classes_ascending h.represents.classes_ascending
  pow_rank_le x hx := (h.pow_le x hx).trans_eq (h.card_reach hx)
  rank_lt hn x hx := by
    have hsub : reach n edges x ⊆ Finset.range n := fun y hy =>
      Finset.mem_range.mpr (mem_reach.mp hy).1
    have hcard := (h.pow_le x hx).trans (Finset.card_le_card hsub)
    rw [Finset.card_range] at hcard
    have hpow := hcard.trans_lt hn
    exact (Nat.pow_lt_pow_iff_right (by decide)).mp hpow
  components := h.represents.components
  ascending := h.represents.classes_ascending

/-- Whether two lists hold the same pairs, whichever way round and however often. -/
def SamePairs (edges edges' : List (Nat × Nat)) : Prop :=
  (∀ e ∈ edges, e ∈ edges' ∨ e.swap ∈ edges') ∧ ∀ e ∈ edges', e ∈ edges ∨ e.swap ∈ edges

instance (edges edges' : List (Nat × Nat)) : Decidable (SamePairs edges edges') :=
  inferInstanceAs (Decidable (_ ∧ _))

section

variable {n : Nat} {edges edges' : List (Nat × Nat)} (h : SamePairs edges edges')

include h

theorem SamePairs.connected_iff {x y : Nat} : Connected edges x y ↔ Connected edges' x y := by
  have hmono {edges edges' : List (Nat × Nat)} (hmem : ∀ e ∈ edges, e ∈ edges' ∨ e.swap ∈ edges')
      (hxy : Connected edges x y) : Connected edges' x y := by
    refine (Relation.EqvGen.is_equivalence _).eqvGen_iff.mp (hxy.mono fun u v huv => ?_)
    rcases hmem (u, v) huv with hpair | hturned
    · exact .rel _ _ hpair
    · exact .symm _ _ (.rel _ _ hturned)
  exact ⟨hmono h.1, hmono h.2⟩

theorem SamePairs.below (hedges : ∀ e ∈ edges, e.1 < n ∧ e.2 < n) :
    ∀ e ∈ edges', e.1 < n ∧ e.2 < n := by
  intro e he
  rcases h.2 e he with hpair | hturned
  · exact hedges e hpair
  · exact (hedges e.swap hturned).symm

theorem SamePairs.components {classes : List (List Nat)} (hc : Components n edges classes) :
    Components n edges' classes where
  ascending := hc.ascending
  nonempty := hc.nonempty
  mem_iff c hmem x hx y := (hc.mem_iff c hmem x hx y).trans
    (and_congr_right fun _ => h.connected_iff)
  cover := hc.cover
  disjoint := hc.disjoint

end

theorem ofEdges_eq_run (n : Nat) (edges : List (Nat × Nat)) :
    ofEdges n edges = (discrete n).run (edges.map fun e => .merge e.1 e.2) := by
  rw [run, List.foldl_map]
  rfl

/-- Searches and merges of positions below `n`, in any sequence, keep account of what the merges
connect. So the classes of edges are what they connect, and the same for edges in another
sequence, turned round or repeated. -/
theorem run_exact (n : Nat) :
    (∀ calls : List Call, (∀ c ∈ calls, c.Below n) →
      ((discrete n).run calls).Exact n (merged calls)) ∧
    ∀ edges : List (Nat × Nat), (∀ e ∈ edges, e.1 < n ∧ e.2 < n) →
      Components n edges (ofEdges n edges).classes ∧
      ((ofEdges n edges).classes.Pairwise fun c d => c.headD 0 < d.headD 0) ∧
      ∀ edges' : List (Nat × Nat), SamePairs edges edges' →
        (ofEdges n edges').classes = (ofEdges n edges).classes := by
  have hrun (calls : List Call) (hcalls : ∀ c ∈ calls, c.Below n) :
      ((discrete n).run calls).Exact n (merged calls) :=
    ((ranked_discrete n).run hcalls).exact
  refine ⟨hrun, fun edges hedges => ?_⟩
  have hcalls : ∀ c ∈ edges.map fun e => Call.merge e.1 e.2, c.Below n :=
    List.forall_mem_map.mpr hedges
  have hmerged : merged (edges.map fun e => .merge e.1 e.2) = edges := by
    rw [merged, List.filterMap_map]
    exact List.filterMap_some
  have hexact := hrun _ hcalls
  rw [hmerged, ← ofEdges_eq_run] at hexact
  exact ⟨hexact.components, hexact.ascending, fun edges' hsame =>
    (hsame.components hexact.components).classes_eq hexact.ascending (hsame.below hedges)⟩

def crossedCalls : List Call :=
  [.merge 3 1, .merge 4 2, .merge 2 1, .find 1, .merge 1 4, .merge 0 0, .find 0]

theorem run_exact_crossed :
    ((discrete 6).run crossedCalls).classes = [[0], [1, 2, 3, 4], [5]] ∧
      ((discrete 6).run crossedCalls).Exact 6 (merged crossedCalls) ∧
      (ofEdges 6 [(1, 2), (1, 3), (3, 1), (2, 4)]).classes =
      (ofEdges 6 [(3, 1), (4, 2), (2, 1)]).classes := by
  refine ⟨by decide, (run_exact 6).1 _ (by simp [crossedCalls, Call.Below]), ?_⟩
  exact ((run_exact 6).2 _ (by decide)).2.2 _ (by decide)

end GlyphTable.Partition
