import GlyphTable.Proofs.Partition.Runs
import GlyphTable.Proofs.Regrouping
import GlyphTable.Row

/-!
# Division of blocks

Blocks may be equal, so they are followed through the grouping by their positions: a list of
blocks with their numbers is divided into parts, such that two are in one part exactly if a chain of
related blocks leads from one to the other (`Block.divided_division`).
-/

namespace GlyphTable

namespace Partition

theorem mem_pairs {n i j : Nat} : (i, j) ∈ pairs n ↔ i < j ∧ j < n := by
  simp only [pairs, List.mem_flatMap, List.mem_range, List.mem_filterMap,
    Option.ite_none_right_eq_some,
    Option.some.injEq, Prod.mk.injEq]
  constructor
  · rintro ⟨x, -, y, hy, hlt, rfl, rfl⟩
    exact ⟨hlt, hy⟩
  · rintro ⟨hlt, hj⟩
    exact ⟨i, hlt.trans hj, j, hj, hlt, rfl, rfl⟩

theorem ofRelation_components (n : Nat) (related : Nat → Nat → Bool) :
    Components n ((pairs n).filter fun (i, j) => related i j) (ofRelation n related).classes := by
  refine ofEdges_components fun e he => ?_
  obtain ⟨hlt, hn⟩ := mem_pairs.mp (List.mem_of_mem_filter he)
  exact ⟨hlt.trans hn, hn⟩

end Partition

namespace Block

/-- Whether a chain of related blocks of the list leads from one to the other. Blocks are told
apart by their positions. -/
def Chained (R : Block → Block → Prop) (blocks : List (Block × Nat)) :
    Block × Nat → Block × Nat → Prop :=
  Relation.EqvGen fun x y => x ∈ blocks ∧ y ∈ blocks ∧ R x.1 y.1

/-- A division of blocks into parts, such that two are in one part exactly if a chain leads from one
to the other. -/
structure Division (R : Block → Block → Prop) (blocks : List (Block × Nat))
    (parts : List (List (Block × Nat))) : Prop where
  perm : parts.flatten.Perm blocks
  nonempty : ∀ g ∈ parts, g ≠ []
  together_iff : ∀ x ∈ blocks, ∀ y ∈ blocks, (∃ g ∈ parts, x ∈ g ∧ y ∈ g) ↔ Chained R blocks x y

section

variable {R : Block → Block → Prop} {blocks blocks' : List (Block × Nat)}
  {parts parts' : List (List (Block × Nat))}

theorem Chained.congr (h : blocks.Perm blocks') {x y : Block × Nat} :
    Chained R blocks x y ↔ Chained R blocks' x y := by
  simp only [Chained, h.mem_iff]

theorem Division.perm_blocks (h : Division R blocks parts) (hperm : blocks.Perm blocks') :
    Division R blocks' parts where
  perm := h.perm.trans hperm
  nonempty := h.nonempty
  together_iff x hx y hy := by
    rw [h.together_iff x (hperm.mem_iff.mpr hx) y (hperm.mem_iff.mpr hy), Chained.congr hperm]

theorem Division.perm_parts (h : Division R blocks parts) (hperm : parts.Perm parts') :
    Division R blocks parts' where
  perm := hperm.symm.flatten.trans h.perm
  nonempty g hg := h.nonempty g (hperm.mem_iff.mpr hg)
  together_iff x hx y hy := by
    rw [← h.together_iff x hx y hy]
    simp only [hperm.mem_iff]

theorem Division.forall₂ (h : Division R blocks parts)
    (hparts : List.Forall₂ List.Perm parts' parts) :
    Division R blocks parts' where
  perm := (List.Perm.flatten_congr hparts).trans h.perm
  nonempty g hg hnil := by
    obtain ⟨k, hk, hperm⟩ := exists_of_mem_forall₂ hparts.flip hg
    exact h.nonempty k hk (List.nil_perm.mp (hnil ▸ hperm))
  together_iff x hx y hy := by
    rw [← h.together_iff x hx y hy]
    constructor
    · rintro ⟨g, hg, hxg, hyg⟩
      obtain ⟨k, hk, hperm⟩ := exists_of_mem_forall₂ hparts.flip hg
      exact ⟨k, hk, hperm.mem_iff.mp hxg, hperm.mem_iff.mp hyg⟩
    · rintro ⟨k, hk, hxk, hyk⟩
      obtain ⟨g, hg, hperm⟩ := exists_of_mem_forall₂ hparts hk
      exact ⟨g, hg, hperm.mem_iff.mpr hxk, hperm.mem_iff.mpr hyk⟩

section

variable (h : Division R blocks parts) (hnodup : blocks.Nodup) {g k : List (Block × Nat)}
  (hg : g ∈ parts) {x y : Block × Nat}

include h hnodup

theorem Division.disjoint : parts.Pairwise List.Disjoint :=
  (List.nodup_flatten.mp (h.perm.nodup_iff.mpr hnodup)).2

include hg

theorem Division.part_unique (hk : k ∈ parts) (hxg : x ∈ g) (hxk : x ∈ k) : g = k := by
  by_contra hne
  have hsymm : Std.Symm (@List.Disjoint (Block × Nat)) := ⟨fun _ _ hd => hd.symm⟩
  exact (h.disjoint hnodup).forall hg hk hne hxg hxk

theorem Division.mem_of_chained (hx : x ∈ g) (hy : y ∈ blocks)
    (hxy : Chained R blocks x y) : y ∈ g := by
  have hxb := h.perm.mem_iff.mp (List.mem_flatten.mpr ⟨g, hg, hx⟩)
  obtain ⟨k, hk, hxk, hyk⟩ := (h.together_iff x hxb y hy).mpr hxy
  rwa [h.part_unique hnodup hg hk hx hxk]

theorem Division.chained (hx : x ∈ g) (hy : y ∈ g) : Chained R g x y := by
  have hmem := fun z (hz : z ∈ g) => h.perm.mem_iff.mp (List.mem_flatten.mpr ⟨g, hg, hz⟩)
  have hclosed {u v : Block × Nat} (hv : v ∈ blocks) (huv : Chained R blocks u v)
      (hu : u ∈ g) : v ∈ g :=
    h.mem_of_chained hnodup hg hu hv huv
  have hxy := (h.together_iff x (hmem x hx) y (hmem y hy)).mp ⟨g, hg, hx, hy⟩
  suffices (x ∈ g ↔ y ∈ g) ∧ (x ∈ g → Chained R g x y) from this.2 hx
  clear hx hy
  induction hxy with
  | rel u v huv =>
    have hchained : Chained R blocks u v := .rel _ _ huv
    have hiff : u ∈ g ↔ v ∈ g := ⟨hclosed huv.2.1 hchained, hclosed huv.1 (hchained.symm _ _)⟩
    exact ⟨hiff, fun hu => .rel _ _ ⟨hu, hiff.mp hu, huv.2.2⟩⟩
  | refl u => exact ⟨Iff.rfl, fun _ => .refl _⟩
  | symm u v _ ih => exact ⟨ih.1.symm, fun hv => (ih.2 (ih.1.mpr hv)).symm _ _⟩
  | trans u v w _ _ ihuv ihvw =>
    exact ⟨ihuv.1.trans ihvw.1, fun hu => (ihuv.2 hu).trans _ _ _ (ihvw.2 (ihuv.1.mp hu))⟩

end

end

-- ---------------------------------------------------------------------------
-- Related positions
-- ---------------------------------------------------------------------------

section

variable {related : Block → Block → Bool} {blocks : List Block}

def relatedAt (related : Block → Block → Bool) (blocks : List Block) (i j : Nat) : Bool :=
  (blocks.toArray[i]?.bind fun a => blocks.toArray[j]?.map (related a)).getD false

theorem relatedAt_eq {i j : Nat} {a b : Block} (ha : blocks.toArray[i]? = some a)
    (hb : blocks.toArray[j]? = some b) : relatedAt related blocks i j = related a b := by
  rw [relatedAt, ha, hb]
  rfl

def ConnectedAt (related : Block → Block → Bool) (blocks : List Block) : Nat → Nat → Prop :=
  Partition.Connected ((Partition.pairs blocks.toArray.size).filter fun (i, j) =>
    relatedAt related blocks i j)

theorem connectedAt_of_related (hsymm : ∀ a b, related a b → related b a) {i j : Nat} {a b : Block}
    (ha : blocks.toArray[i]? = some a) (hb : blocks.toArray[j]? = some b) (hab : related a b) :
    ConnectedAt related blocks i j := by
  have hi := (Array.getElem?_eq_some_iff.mp ha).1
  have hj := (Array.getElem?_eq_some_iff.mp hb).1
  -- The relation is only looked at with the lesser position first.
  rcases Nat.lt_trichotomy i j with hij | rfl | hji
  · exact .rel _ _ (List.mem_filter.mpr
      ⟨Partition.mem_pairs.mpr ⟨hij, hj⟩, (relatedAt_eq ha hb).trans hab⟩)
  · exact .refl _
  · exact .symm _ _ (.rel _ _ (List.mem_filter.mpr
      ⟨Partition.mem_pairs.mpr ⟨hji, hi⟩, (relatedAt_eq hb ha).trans (hsymm a b hab)⟩))

end

-- ---------------------------------------------------------------------------
-- Groups of numbered blocks
-- ---------------------------------------------------------------------------

def divided (related : Block → Block → Bool) (blocks : List (Block × Nat)) :
    List (List (Block × Nat)) :=
  (Partition.ofRelation (blocks.map (·.1)).toArray.size
    (relatedAt related (blocks.map (·.1)))).classes.map (·.filterMap (blocks[·]?))

theorem grouped_eq_divided (related : Block → Block → Bool) (blocks : List (Block × Nat)) :
    grouped related (blocks.map (·.1)) = (divided related blocks).map (·.map (·.1)) := by
  rw [divided, List.map_map]
  refine List.map_congr_left fun c _ => ?_
  rw [Function.comp_apply, List.map_filterMap]
  refine List.filterMap_congr fun i _ => ?_
  rw [List.getElem?_toArray, List.getElem?_map]

section

variable {related : Block → Block → Bool} {blocks : List (Block × Nat)}

theorem mem_divided {g : List (Block × Nat)} : g ∈ divided related blocks ↔
    ∃ c ∈ (Partition.ofRelation (blocks.map (·.1)).toArray.size
      (relatedAt related (blocks.map (·.1)))).classes, c.filterMap (blocks[·]?) = g :=
  List.mem_map

theorem getElem?_blocks {i : Nat} {x : Block × Nat} (hx : blocks[i]? = some x) :
    (blocks.map (·.1)).toArray[i]? = some x.1 := by
  rw [List.getElem?_toArray, List.getElem?_map, hx, Option.map_some]

theorem chained_of_connectedAt {i j : Nat} (hij : ConnectedAt related (blocks.map (·.1)) i j)
    {x y : Block × Nat} (hx : blocks[i]? = some x) (hy : blocks[j]? = some y) :
    Chained (fun a b => related a b) blocks x y := by
  -- Positions outside the list, which no path meets, are read as `x`.
  let blockAt (i : Nat) := blocks[i]?.getD x
  have hequivalence := (Relation.EqvGen.is_equivalence fun x y : Block × Nat =>
    x ∈ blocks ∧ y ∈ blocks ∧ related x.1 y.1).comap blockAt
  have hchained : Chained (fun a b => related a b) blocks (blockAt i) (blockAt j) := by
    refine hequivalence.eqvGen_iff.mp (hij.mono fun u v huv => .rel _ _ ?_)
    obtain ⟨hpair, hrelated⟩ := List.mem_filter.mp huv
    obtain ⟨hlt, hv⟩ := Partition.mem_pairs.mp hpair
    rw [List.size_toArray, List.length_map] at hv
    have hgetu := List.getElem?_eq_getElem (hlt.trans hv)
    have hgetv := List.getElem?_eq_getElem hv
    simp only [blockAt, hgetu, hgetv, Option.getD_some]
    refine ⟨List.getElem_mem _, List.getElem_mem _, ?_⟩
    exact (relatedAt_eq (getElem?_blocks hgetu) (getElem?_blocks hgetv)).symm.trans hrelated
  simpa only [blockAt, hx, hy, Option.getD_some] using hchained

theorem divided_flatten_perm (related : Block → Block → Bool) (blocks : List (Block × Nat)) :
    (divided related blocks).flatten.Perm blocks := by
  have hflat := (Partition.ofRelation_components (blocks.map (·.1)).toArray.size
    (relatedAt related (blocks.map (·.1)))).flatten_perm.filterMap (blocks[·]?)
  have hsize : (blocks.map (·.1)).toArray.size = blocks.length := by simp
  rw [List.filterMap_flatten, hsize, List.range_eq_range', Partition.filterMap_range',
    List.drop_zero, List.take_length] at hflat
  rw [divided, hsize]
  exact hflat

theorem divided_division (hsymm : ∀ a b, related a b → related b a) (blocks : List (Block × Nat)) :
    Division (fun a b => related a b) blocks (divided related blocks) := by
  have hcomponents := Partition.ofRelation_components (blocks.map (·.1)).toArray.size
    (relatedAt related (blocks.map (·.1)))
  have hsize : (blocks.map (·.1)).toArray.size = blocks.length := by simp
  refine ⟨divided_flatten_perm related blocks, fun g hg => ?_, fun x hx y hy => ⟨?_, fun hxy => ?_⟩⟩
  · obtain ⟨c, hc, rfl⟩ := mem_divided.mp hg
    obtain ⟨i, hi⟩ := List.exists_mem_of_ne_nil c (hcomponents.nonempty c hc)
    have hlt := hsize ▸ hcomponents.lt_of_mem hc i hi
    exact List.ne_nil_of_mem (List.mem_filterMap.mpr ⟨i, hi, List.getElem?_eq_getElem hlt⟩)
  · rintro ⟨g, hg, hxg, hyg⟩
    obtain ⟨c, hc, rfl⟩ := mem_divided.mp hg
    obtain ⟨i, hi, hx⟩ := List.mem_filterMap.mp hxg
    obtain ⟨j, hj, hy⟩ := List.mem_filterMap.mp hyg
    exact chained_of_connectedAt ((hcomponents.mem_iff c hc i hi j).mp hj).2 hx hy
  · obtain ⟨i, hi⟩ := List.mem_iff_getElem?.mp hx
    obtain ⟨c, hc, hic⟩ :=
      hcomponents.cover i (by rw [hsize]; exact (List.getElem?_eq_some_iff.mp hi).1)
    have hxg : x ∈ c.filterMap (blocks[·]?) := List.mem_filterMap.mpr ⟨i, hic, hi⟩
    -- The part that holds `x` takes in every block that the chain passes.
    have hstep {u v : Block × Nat} (hv : v ∈ blocks) (huv : related u.1 v.1)
        (hu : u ∈ c.filterMap (blocks[·]?)) : v ∈ c.filterMap (blocks[·]?) := by
      obtain ⟨k, hk, hu⟩ := List.mem_filterMap.mp hu
      obtain ⟨l, hl⟩ := List.mem_iff_getElem?.mp hv
      refine List.mem_filterMap.mpr ⟨l, (hcomponents.mem_iff c hc k hk l).mpr ⟨?_, ?_⟩, hl⟩
      · rw [hsize]
        exact (List.getElem?_eq_some_iff.mp hl).1
      · exact connectedAt_of_related hsymm (getElem?_blocks hu) (getElem?_blocks hl) huv
    have heq : (x ∈ c.filterMap (blocks[·]?)) = (y ∈ c.filterMap (blocks[·]?)) := by
      refine (eq_equivalence.comap (· ∈ c.filterMap (blocks[·]?))).eqvGen_iff.mp (hxy.mono ?_)
      exact fun u v ⟨hu, hv, huv⟩ => propext ⟨hstep hv huv, hstep hu (hsymm _ _ huv)⟩
    exact ⟨_, mem_divided.mpr ⟨c, hc, rfl⟩, hxg, heq.mp hxg⟩

theorem division_of_symm {R : Block → Block → Prop} [DecidableRel R]
    (hsymm : ∀ {a b}, R a b → R b a)
    (blocks : List (Block × Nat)) :
    Division R blocks (divided (fun a b => decide (R a b)) blocks) := by
  have hsymm' : ∀ a b, decide (R a b) = true → decide (R b a) = true :=
    fun _ _ hab => decide_eq_true (hsymm (of_decide_eq_true hab))
  simpa only [decide_eq_true_eq] using divided_division hsymm' blocks

theorem divided_ascending (h : blocks.Pairwise fun x y => x.2 < y.2) :
    ∀ g ∈ divided related blocks, g.Pairwise fun x y => x.2 < y.2 := by
  intro g hg
  obtain ⟨c, hc, rfl⟩ := mem_divided.mp hg
  have hcomponents := Partition.ofRelation_components (blocks.map (·.1)).toArray.size
    (relatedAt related (blocks.map (·.1)))
  refine List.pairwise_filterMap.mpr
    ((hcomponents.ascending c hc).imp fun {i j} hij x hx y hy => ?_)
  obtain ⟨hi, rfl⟩ := List.getElem?_eq_some_iff.mp hx
  obtain ⟨hj, rfl⟩ := List.getElem?_eq_some_iff.mp hy
  exact List.pairwise_iff_getElem.mp h i j hi hj hij

end

end Block

end GlyphTable
