import GlyphTable.Proofs.Partition.Runs
import GlyphTable.Proofs.Row.Inventory

/-!
# Blocks that are arranged already

Blocks that come row by row and from left to right, each clear of the others of its row, are the
cells of a table as they are (`Row.texts_arrange`).
-/

namespace GlyphTable

namespace Block

theorem grouped_flatten {related : Block → Block → Bool} {groups : List (List Block)}
    (hne : ∀ g ∈ groups, g ≠ []) (hinside : ∀ g ∈ groups, g.IsChain fun a b => related a b)
    (hacross : groups.Pairwise fun g k => ∀ a ∈ g, ∀ b ∈ k, ¬ related a b ∧ ¬ related b a) :
    grouped related groups.flatten = groups := by
  have hget {i : Nat} {a : Block} (ha : groups.flatten[i]? = some a) :
      groups.flatten.toArray[i]? = some a := by
    rwa [List.getElem?_toArray]
  have hconfined : Partition.Confined (fun a b => related a b) groups
      ((Partition.pairs groups.flatten.length).filter fun e =>
        relatedAt related groups.flatten e.1 e.2) := by
    refine ⟨hne, hinside, hacross, fun e he => ?_, fun i a b ha hb hab => ?_⟩
    · obtain ⟨hpair, hrelated⟩ := List.mem_filter.mp he
      obtain ⟨hij, hj⟩ := Partition.mem_pairs.mp hpair
      have ha := List.getElem?_eq_getElem (hij.trans hj)
      have hb := List.getElem?_eq_getElem hj
      refine ⟨_, _, ha, hb, ?_⟩
      exact (relatedAt_eq (hget ha) (hget hb)).symm.trans hrelated
    · refine List.mem_filter.mpr ⟨Partition.mem_pairs.mpr ⟨Nat.lt_succ_self i, ?_⟩, ?_⟩
      · exact (List.getElem?_eq_some_iff.mp hb).1
      · exact (relatedAt_eq (hget ha) (hget hb)).trans hab
  have hruns := Partition.map_runs groups
  rw [← Partition.classes_eq_runs hconfined] at hruns
  simp only [← List.getElem?_toArray] at hruns
  exact hruns

theorem cellsOf_eq_self {blocks : List Block}
    (h : blocks.Pairwise fun a b => ¬ a.SharesColumn b ∧ a.box.left < b.box.left) :
    cellsOf blocks = blocks := by
  have hgrouped : grouped (fun a b => a.SharesColumn b) blocks = blocks.map ([·]) := by
    have hflatten : (blocks.map ([·])).flatten = blocks := List.flatMap_singleton' blocks
    conv_lhs => rw [← hflatten]
    refine grouped_flatten (List.forall_mem_map.mpr fun b _ => List.cons_ne_nil b [])
      (List.forall_mem_map.mpr fun b _ =>
        List.isChain_singleton b) (List.pairwise_map.mpr (h.imp ?_))
    intro a b hab x hx y hy
    obtain rfl := List.mem_singleton.mp hx
    obtain rfl := List.mem_singleton.mp hy
    simpa using ⟨hab.1, fun hba => hab.1 hba.symm⟩
  have hcells : (blocks.map ([·])).filterMap ofFragments? = blocks := by
    rw [List.filterMap_map]
    exact List.filterMap_some
  rw [cellsOf, hgrouped, hcells]
  exact sortStably_eq_self (h.imp fun hab => decide_eq_true (Binary64.totalRank_lt hab.2).le)

end Block

namespace Row

/-- Blocks row by row: those of a row from left to right, and clear of each other. -/
structure Arranged (groups : List (List Block)) : Prop where
  nonempty : ∀ g ∈ groups, g ≠ []
  valid : ∀ g ∈ groups, ∀ b ∈ g, b.box.Valid
  inside : ∀ g ∈ groups, ∀ a ∈ g, ∀ b ∈ g, a.SharesRow b
  clear : ∀ g ∈ groups, g.Pairwise fun a b => ¬ a.SharesColumn b ∧ a.box.left < b.box.left
  below : groups.Pairwise fun g k => ∀ a ∈ g, ∀ b ∈ k, ¬ a.SharesRow b ∧ a.box.top < b.box.top

variable {groups : List (List Block)}

theorem Arranged.grouped (h : Arranged groups) :
    Block.grouped (fun a b => a.SharesRow b) groups.flatten = groups := by
  refine Block.grouped_flatten h.nonempty (fun g hg => ?_)
    (h.below.imp fun {g k} hgk a ha b hb => ?_)
  · exact (List.pairwise_of_forall_mem_list fun a ha b hb =>
      decide_eq_true (h.inside g hg a ha b hb)).isChain
  · have hab := (hgk a ha b hb).1
    simpa using ⟨hab, fun hba => hab hba.symm⟩

theorem Arranged.rows (h : Arranged groups) :
    List.Forall₂ (fun g r => r.blocks = g ∧ Box.IsHull (g.map (·.box)) r.box) groups
      (groups.filterMap fun group => ofBlocks? (Block.cellsOf group)) := by
  refine forall₂_filterMap (List.forall₂_same.mpr fun g hg => ?_)
  rw [Block.cellsOf_eq_self (h.clear g hg)]
  have hboxes : g.map (·.box) ≠ [] := by simpa using h.nonempty g hg
  obtain ⟨box, hbox⟩ := Box.hull?_isSome hboxes
  refine ⟨⟨g, box⟩, Option.map_eq_some_iff.mpr ⟨box, hbox, rfl⟩, rfl, Box.hull?_isHull ?_ hbox⟩
  exact List.forall_mem_map.mpr (h.valid g hg)

/-- The table of blocks that are arranged already shows their texts as they are. -/
theorem texts_arrange (h : Arranged groups) :
    (arrange groups.flatten).map texts = groups.map (·.map (·.text)) := by
  have hrows := h.rows
  have hsorted : sortStably (fun a b => Binary64.leTotal a.box.top b.box.top)
      (groups.filterMap fun group => ofBlocks? (Block.cellsOf group)) =
        groups.filterMap fun group => ofBlocks? (Block.cellsOf group) := by
    refine sortStably_eq_self (pairwise_of_forall₂ hrows h.below ?_)
    rintro g k r s ⟨-, hr⟩ ⟨-, hs⟩ hgk
    obtain ⟨box, hbox, htop⟩ := hr.top_mem
    obtain ⟨box', hbox', htop'⟩ := hs.top_mem
    obtain ⟨a, ha, rfl⟩ := List.mem_map.mp hbox
    obtain ⟨b, hb, rfl⟩ := List.mem_map.mp hbox'
    rw [← htop, ← htop']
    exact decide_eq_true (Binary64.totalRank_lt (hgk a ha b hb).2).le
  have htexts : (groups.filterMap fun group => ofBlocks? (Block.cellsOf group)).map texts =
      groups.map (·.map (·.text)) :=
    map_eq_of_forall₂ (hrows.imp fun g r hr => by rw [texts, hr.1])
  rw [arrange, h.grouped, hsorted, ← htexts]
  exact map_blocks_numbered (fun _ _ _ => rfl) _

end Row

end GlyphTable
