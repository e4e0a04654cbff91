import GlyphTable.Proofs.Block.Stacking
import GlyphTable.Proofs.Regrouping
import GlyphTable.Proofs.Row.Cells

/-!
# Every block is in one cell

Blocks are sorted into rows and their rows into cells, and what a cell lists is what its
fragments listed. `Row.arrange_segments_perm`: all cells of a table together list the
segments that the blocks listed, each as often.
-/

namespace GlyphTable

namespace Block

theorem grouped_segments_perm (related : Block → Block → Bool) (blocks : List Block) :
    ((grouped related blocks).flatMap (·.flatMap (·.segments))).Perm
      (blocks.flatMap (·.segments)) := by
  have hflat := (grouped_flatten_perm related blocks).flatMap_right (·.segments)
  rwa [← List.flatMap_id', List.flatMap_assoc] at hflat

theorem exists_cell_of_group {blocks f : List Block}
    (hf : f ∈ grouped (fun a b => a.SharesColumn b) blocks) :
    ∃ c, ofFragments? f = some c ∧ c.segments.Perm (f.flatMap (·.segments)) := by
  obtain ⟨c, hc⟩ := ofFragments?_isSome ((columns_grouping blocks).nonempty f hf)
  obtain ⟨parts, hperm, -, hsegments⟩ := ofFragments?_eq_some hc
  exact ⟨c, hc, hsegments ▸ hperm.flatMap_right _⟩

theorem cellsOf_segments_perm (blocks : List Block) :
    ((cellsOf blocks).flatMap (·.segments)).Perm (blocks.flatMap (·.segments)) := by
  refine ((sortStably_perm _ _).flatMap_right _).trans ?_
  refine (flatMap_filterMap_perm fun f hf => ?_).trans (grouped_segments_perm _ blocks)
  exact exists_cell_of_group hf

theorem length_cellsOf_le (blocks : List Block) : (cellsOf blocks).length ≤ blocks.length := by
  have hsome : ∀ f ∈ grouped (fun a b => a.SharesColumn b) blocks, (ofFragments? f).isSome := by
    intro f hf
    obtain ⟨c, hc, -⟩ := exists_cell_of_group hf
    simp [hc]
  rw [cellsOf, (sortStably_perm _ _).length_eq, List.filterMap_length_eq_length.mpr hsome,
    ← (grouped_flatten_perm _ blocks).length_eq, ← List.flatMap_id']
  exact length_le_length_flatMap (columns_grouping blocks).nonempty

theorem cellsOf_ne_nil {blocks : List Block} (h : blocks ≠ []) : cellsOf blocks ≠ [] := by
  obtain ⟨a, ha⟩ := List.exists_mem_of_ne_nil blocks h
  obtain ⟨f, hf, -⟩ := ((columns_grouping blocks).mem a).mp ha
  obtain ⟨c, hc, -⟩ := exists_cell_of_group hf
  exact List.ne_nil_of_mem (mem_cellsOf.mpr ⟨f, hf, hc⟩)

end Block

namespace Row

theorem ofBlocks?_isSome {blocks : List Block} (h : blocks ≠ []) :
    ∃ r, ofBlocks? blocks = some r ∧ r.blocks = blocks := by
  have hboxes : blocks.map (·.box) ≠ [] := by simpa using h
  obtain ⟨box, hbox⟩ := Box.hull?_isSome hboxes
  exact ⟨⟨blocks, box⟩, by rw [ofBlocks?, hbox]; rfl, rfl⟩

theorem exists_row_of_group {blocks g : List Block}
    (hg : g ∈ Block.grouped (fun a b => a.SharesRow b) blocks) :
    ∃ r, ofBlocks? (Block.cellsOf g) = some r ∧ r.blocks = Block.cellsOf g :=
  ofBlocks?_isSome (Block.cellsOf_ne_nil ((Block.rows_grouping blocks).nonempty g hg))

theorem map_blocks_numbered {β : Type} {f : Block → β}
    (hf : ∀ (b : Block) (i j : Nat), f { b with row := i, col := j } = f b) (rows : List Row) :
    (numbered rows).map (fun r => r.blocks.map f) = rows.map fun r => r.blocks.map f := by
  refine List.ext_getElem? fun i => ?_
  rw [List.getElem?_map, List.getElem?_map, getElem?_numbered, Option.map_map]
  refine congrArg (Option.map · _) (funext fun r => List.ext_getElem? fun j => ?_)
  rw [Function.comp_apply, List.getElem?_map, getElem?_placed, List.getElem?_map, Option.map_map]
  exact congrArg (Option.map · _) (funext fun b => hf b i j)

/-- What the cells of a table list, row by row: one row for each group of blocks. -/
theorem listing_arrange_perm (blocks : List Block) :
    ((arrange blocks).map fun r => r.blocks.map (·.segments)).Perm
      ((Block.grouped (fun a b => a.SharesRow b) blocks).map fun g =>
        (Block.cellsOf g).map (·.segments)) := by
  rw [arrange, map_blocks_numbered fun _ _ _ => rfl]
  refine ((sortStably_perm _ _).map _).trans (.of_eq (map_filterMap_of_some fun g hg => ?_))
  obtain ⟨r, hr, hblocks⟩ := exists_row_of_group hg
  exact ⟨r, hr, by rw [hblocks]⟩

theorem arrange_segments_perm (blocks : List Block) :
    ((arrange blocks).flatMap fun r => r.blocks.flatMap (·.segments)).Perm
      (blocks.flatMap (·.segments)) := by
  have hlisting := ((listing_arrange_perm blocks).flatMap_right List.flatten)
  simp only [List.flatMap_map, ← List.flatMap_def] at hlisting
  have hcells := List.Perm.flatMap_left (Block.grouped (fun a b => a.SharesRow b) blocks)
    fun g _ => Block.cellsOf_segments_perm g
  exact hlisting.trans (hcells.trans (Block.grouped_segments_perm _ blocks))

theorem arrange_nonempty {blocks : List Block} {r : Row} (hr : r ∈ arrange blocks) :
    r.blocks ≠ [] := by
  have hmem := (listing_arrange_perm blocks).mem_iff.mp (List.mem_map_of_mem hr)
  obtain ⟨g, hg, heq⟩ := List.mem_map.mp hmem
  have hne := Block.cellsOf_ne_nil ((Block.rows_grouping blocks).nonempty g hg)
  rintro hnil
  simp [hnil, hne] at heq

theorem segments_nonempty {blocks : List Block} (h : ∀ b ∈ blocks, b.segments ≠ []) :
    ∀ r ∈ arrange blocks, ∀ c ∈ r.blocks, c.segments ≠ [] := by
  intro r hr c hc hnil
  obtain ⟨g, hg, d, hd, hnil⟩ := (exists_cell_arrange (P := (· = []))).mp ⟨r, hr, c, hc, hnil⟩
  obtain ⟨f, hf, hfd⟩ := Block.mem_cellsOf.mp hd
  obtain ⟨b, hb⟩ := List.exists_mem_of_ne_nil f ((Block.columns_grouping g).nonempty f hf)
  obtain ⟨i, hi⟩ := List.exists_mem_of_ne_nil b.segments
    (h b ((Block.rows_grouping blocks).subset hg b ((Block.columns_grouping g).subset hf b hb)))
  have hmem := (Block.mem_segments_ofFragments? hfd).mpr ⟨b, hb, hi⟩
  simp [hnil] at hmem

theorem length_arrange_le (blocks : List Block) :
    (arrange blocks).length ≤ ((arrange blocks).flatMap (·.blocks)).length ∧
      ((arrange blocks).flatMap (·.blocks)).length ≤ blocks.length := by
  refine ⟨length_le_length_flatMap fun r hr => arrange_nonempty hr, ?_⟩
  have hlisting := ((listing_arrange_perm blocks).flatMap_right id).length_eq
  simp only [List.length_flatMap, List.map_map, Function.comp_def, id,
    List.length_map] at hlisting ⊢
  rw [hlisting, ← (Block.grouped_flatten_perm _ blocks).length_eq, List.length_flatten]
  exact List.sum_le_sum fun g _ => Block.length_cellsOf_le g

end Row

end GlyphTable
