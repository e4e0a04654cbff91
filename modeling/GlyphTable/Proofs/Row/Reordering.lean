import GlyphTable.Proofs.Row.Inventory
import GlyphTable.Proofs.Row.Placement
import GlyphTable.Proofs.Row.Table

/-!
# The sequence of the blocks has no part in the table

Grouping follows the sequence in which blocks are given, and so does every stable sort, in what it
does with ties. But groups are the same in any sequence (`Block.grouped_perm`), and there are no
ties: rows stand one over the other, cells of a row clear of each other, and fragments of a cell
differ in an edge. So blocks in any sequence make the same table (`Row.arrange_perm`).
-/

namespace GlyphTable

theorem Binary64.totalRank_inj {a b : Float} (h : totalRank a = totalRank b) : a = b := by
  have ha := a.toBits.toNat_lt
  have hb := b.toBits.toNat_lt
  have hsignBit : signBit = 2 ^ 63 := rfl
  simp only [totalRank] at h
  refine Float.toBits_inj.mp (UInt64.toNat_inj.mp ?_)
  split at h <;> split at h <;> omega

namespace Block

/-- Whether no two of the blocks begin at the same point. Zeros of different signs are different
edges, as they are in the order of fragments. -/
def Scattered (blocks : List Block) : Prop :=
  blocks.Pairwise fun a b => ¬ (a.box.top = b.box.top ∧ a.box.left = b.box.left)

instance (blocks : List Block) : Decidable (Scattered blocks) :=
  inferInstanceAs (Decidable (blocks.Pairwise _))

section

variable {blocks blocks' : List Block}

theorem Scattered.eq (h : Scattered blocks) {a b : Block} (ha : a ∈ blocks) (hb : b ∈ blocks)
    (htop : a.box.top = b.box.top) (hleft : a.box.left = b.box.left) : a = b := by
  by_contra hne
  have hsymm : Std.Symm fun a b : Block => ¬ (a.box.top = b.box.top ∧ a.box.left = b.box.left) :=
    ⟨fun _ _ hab hba => hab ⟨hba.1.symm, hba.2.symm⟩⟩
  exact List.Pairwise.forall h ha hb hne ⟨htop, hleft⟩

theorem Scattered.nodup (h : Scattered blocks) : blocks.Nodup := by
  refine List.Pairwise.imp (fun hab heq => ?_) h
  rw [heq] at hab
  exact hab ⟨rfl, rfl⟩

theorem Scattered.of_subperm (h : Scattered blocks) (hsub : blocks'.Subperm blocks) :
    Scattered blocks' := by
  obtain ⟨l, hperm, hl⟩ := hsub
  have hsymm : ∀ {a b : Block}, ¬ (a.box.top = b.box.top ∧ a.box.left = b.box.left) →
      ¬ (b.box.top = a.box.top ∧ b.box.left = a.box.left) := fun hab hba =>
        hab ⟨hba.1.symm, hba.2.symm⟩
  exact (hperm.pairwise_iff hsymm).mp (List.Pairwise.sublist hl h)

-- ---------------------------------------------------------------------------
-- Groups
-- ---------------------------------------------------------------------------

theorem Grouping.mem_iff_linked {R : Block → Block → Prop} {groups : List (List Block)}
    (h : Grouping R blocks groups) (hsymm : ∀ a b, R a b → R b a) {g : List Block} (hg : g ∈ groups)
    {a b : Block} (ha : a ∈ g) : b ∈ g ↔ Linked R blocks a b :=
  ⟨fun hb => (h.chained g hg a ha b hb).mono (h.subset hg), h.mem_of_linked hsymm hg ha⟩

theorem subperm_of_mem_grouped {related : Block → Block → Bool} {g : List Block}
    (hg : g ∈ grouped related blocks) : g.Subperm blocks :=
  (List.sublist_flatten_of_mem hg).subperm.trans (grouped_flatten_perm related blocks).subperm

variable {related : Block → Block → Bool} (hsymm : ∀ a b, related a b → related b a)

include hsymm

theorem grouped_perm (hnodup : blocks.Nodup) (hperm : blocks.Perm blocks') :
    ((grouped related blocks).map Multiset.ofList).Perm
      ((grouped related blocks').map Multiset.ofList) := by
  have hgroups {l : List Block} (hl : l.Nodup) : ∀ g ∈ grouped related l, g.Nodup :=
    (List.nodup_flatten.mp ((grouped_flatten_perm related l).nodup_iff.mpr hl)).1
  have hsub {l m : List Block} (hl : l.Nodup) (hlm : l.Perm m) :
      ∀ g ∈ (grouped related l).map Multiset.ofList,
        g ∈ (grouped related m).map Multiset.ofList := by
    have hgrouping := grouped_grouping related hsymm l
    have hgrouping' := grouped_grouping related hsymm m
    refine List.forall_mem_map.mpr fun g hg => ?_
    obtain ⟨a, ha⟩ := List.exists_mem_of_ne_nil g (hgrouping.nonempty g hg)
    obtain ⟨k, hk, hak⟩ := (hgrouping'.mem a).mp (hlm.mem_iff.mp (hgrouping.subset hg a ha))
    refine List.mem_map.mpr ⟨k, hk, Multiset.coe_eq_coe.mpr ?_⟩
    refine (List.perm_ext_iff_of_nodup (hgroups (hlm.nodup_iff.mp hl) k hk)
      (hgroups hl g hg)).mpr fun b => ?_
    rw [hgrouping'.mem_iff_linked hsymm hk hak, hgrouping.mem_iff_linked hsymm hg ha]
    simp only [Linked, hlm.mem_iff]
  have hdistinct {l : List Block} (hl : l.Nodup) :
      ((grouped related l).map Multiset.ofList).Nodup := by
    have hflat := List.nodup_flatten.mp ((grouped_flatten_perm related l).nodup_iff.mpr hl)
    refine List.pairwise_map.mpr (hflat.2.imp_of_mem fun {g k} hg _ hdisjoint heq => ?_)
    obtain ⟨a, ha⟩ := List.exists_mem_of_ne_nil g ((grouped_grouping related hsymm l).nonempty g hg)
    exact hdisjoint ha ((Multiset.coe_eq_coe.mp heq).mem_iff.mp ha)
  have hnodup' := hperm.nodup_iff.mp hnodup
  exact (List.perm_ext_iff_of_nodup (hdistinct hnodup) (hdistinct hnodup')).mpr fun g =>
    ⟨hsub hnodup hperm g, hsub hnodup' hperm.symm g⟩

theorem filterMap_grouped_perm (hnodup : blocks.Nodup) (hperm : blocks.Perm blocks') {β : Type}
    {f : List Block → Option β} (hf : ∀ g k : List Block, g.Subperm blocks → g.Perm k → f g = f k) :
    ((grouped related blocks).filterMap f).Perm ((grouped related blocks').filterMap f) := by
  have hmultiset {l : List Block} (hl : l.Perm blocks) : (grouped related l).filterMap f =
      ((grouped related l).map Multiset.ofList).filterMap fun g => f g.toList := by
    rw [List.filterMap_map]
    refine List.filterMap_congr fun g hg => ?_
    have hlist : g.Perm (Multiset.toList (Multiset.ofList g)) :=
      Multiset.coe_eq_coe.mp (Multiset.coe_toList _).symm
    exact hf g _ ((subperm_of_mem_grouped hg).trans hl.subperm) hlist
  rw [hmultiset (.refl blocks), hmultiset hperm.symm]
  exact (grouped_perm hsymm hnodup hperm).filterMap _

end

-- ---------------------------------------------------------------------------
-- Cells
-- ---------------------------------------------------------------------------

section

variable {blocks blocks' : List Block} (h : Scattered blocks) (hperm : blocks.Perm blocks')

include h hperm

theorem ofFragments?_perm : ofFragments? blocks = ofFragments? blocks' := by
  have hsort : sortStably leFragment blocks = sortStably leFragment blocks' := by
    refine sortStably_eq_of_perm leFragment_total leFragment_trans
      (fun a ha b hb hab hba => ?_) hperm
    rw [leFragment_iff] at hab hba
    refine h.eq ha hb ?_ ?_ <;> exact Binary64.totalRank_inj (by omega)
  by_cases hone : ∃ b, blocks = [b]
  · obtain ⟨b, rfl⟩ := hone
    rw [List.singleton_perm.mp hperm]
  · have hone' : ¬ ∃ b, blocks' = [b] := by
      rintro ⟨b, rfl⟩
      exact hone ⟨b, List.perm_singleton.mp hperm⟩
    rw [ofFragments?.eq_2 blocks fun b hb => hone ⟨b, hb⟩,
      ofFragments?.eq_2 blocks' fun b hb => hone' ⟨b, hb⟩, hsort]

theorem cellsOf_perm (hbounded : ∀ b ∈ blocks, b.box.Bounded) :
    cellsOf blocks = cellsOf blocks' := by
  have hbounded' : ∀ b ∈ blocks', b.box.Bounded := fun b hb => hbounded b (hperm.mem_iff.mpr hb)
  have hcells : (cellsOf blocks).Perm (cellsOf blocks') := by
    refine (sortStably_perm _ _).trans (.trans ?_ (sortStably_perm _ _).symm)
    refine filterMap_grouped_perm (fun a b hab => ?_) h.nodup hperm fun f k hf hfk => ?_
    · exact decide_eq_true (of_decide_eq_true hab).symm
    · exact ofFragments?_perm (h.of_subperm hf) hfk
  -- Two cells cannot each stand before the other.
  refine hcells.eq_of_pairwise (fun a b ha hb hab hba => ?_) (cellsOf_before hbounded)
    (cellsOf_before hbounded')
  have hlt := Before.left_lt (cellsOf_bounded hbounded ha).valid hab
  have hlt' := Before.left_lt (cellsOf_bounded hbounded' hb).valid hba
  exact absurd (Binary64.lt_trans hlt hlt') (Binary64.lt_irrefl _)

end

end Block

namespace Row

/-- Blocks of bounded boxes, no two of which begin at the same point, make the same table in any
sequence. -/
theorem arrange_perm {blocks blocks' : List Block} (hbounded : ∀ b ∈ blocks, b.box.Bounded)
    (hscattered : Block.Scattered blocks) (hperm : blocks.Perm blocks') :
    arrange blocks = arrange blocks' := by
  have hbounded' : ∀ b ∈ blocks', b.box.Bounded := fun b hb => hbounded b (hperm.mem_iff.mpr hb)
  have hrows : ((Block.grouped (fun a b => a.SharesRow b) blocks).filterMap fun group =>
      ofBlocks? (Block.cellsOf group)).Perm
        ((Block.grouped (fun a b => a.SharesRow b) blocks').filterMap fun group =>
          ofBlocks? (Block.cellsOf group)) := by
    refine Block.filterMap_grouped_perm (fun a b hab => ?_) hscattered.nodup hperm
      fun g k hg hgk => ?_
    · exact decide_eq_true (of_decide_eq_true hab).symm
    · rw [Block.cellsOf_perm (hscattered.of_subperm hg) hgk fun b hb => hbounded b (hg.subset hb)]
  refine congrArg numbered ?_
  refine List.Perm.eq_of_pairwise (fun r s _ _ hrs hsr => ?_) (sorted_over hbounded)
    (sorted_over hbounded') ((sortStably_perm _ _).trans (hrows.trans (sortStably_perm _ _).symm))
  exact absurd (Binary64.lt_trans hrs.top_lt hsr.top_lt) (Binary64.lt_irrefl _)

def unsortedBlocks : List Block :=
  let cell (segment : Nat) (text : String) (box : Box) : Block :=
    ⟨[segment], text, box, 10, .east, 0, 0⟩
  [cell 3 "total" ⟨20, 30, 30, 40⟩, cell 2 "42" ⟨20, 0, 30, 22⟩, cell 1 "price" ⟨0, 12, 10, 22⟩,
    cell 0 "unit" ⟨0, 0, 10, 10⟩]

theorem arrange_perm_unsorted : arrange unsortedBlocks.reverse = arrange unsortedBlocks ∧
    (arrange unsortedBlocks).map (fun r => r.blocks.map fun b => (b.text, b.segments)) =
      [[("unit\nprice", [0, 1]), ("42", [2])], [("total", [3])]] :=
  ⟨arrange_perm (by decide +kernel) (by decide +kernel) (List.reverse_perm _), by decide +kernel⟩

end Row

end GlyphTable
