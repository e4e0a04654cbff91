import GlyphTable.Proofs.Geometry.Hull
import GlyphTable.Proofs.Row.Grouping
import GlyphTable.Proofs.Sorting

/-!
# What a cell is made of

Blocks become one cell exactly if a chain of blocks of one row leads from one to the other
in which each stands above or below the next (`Row.exists_cell_iff`). Nothing else about a
block is asked, and vetoes in particular are not.
-/

namespace GlyphTable

namespace Block

theorem SharesRow.symm {a b : Block} (h : a.SharesRow b) : b.SharesRow a :=
  Or.symm h

theorem SharesColumn.symm {a b : Block} (h : a.SharesColumn b) : b.SharesColumn a :=
  And.symm h

def SameRow (blocks : List Block) : Block → Block → Prop :=
  Linked SharesRow blocks

def SameCell (blocks : List Block) : Block → Block → Prop :=
  Linked (fun a b => SameRow blocks a b ∧ a.SharesColumn b) blocks

theorem rows_grouping (blocks : List Block) :
    Grouping SharesRow blocks (grouped (fun a b => a.SharesRow b) blocks) :=
  grouping_of_symm SharesRow.symm blocks

theorem columns_grouping (blocks : List Block) :
    Grouping SharesColumn blocks (grouped (fun a b => a.SharesColumn b) blocks) :=
  grouping_of_symm SharesColumn.symm blocks

-- ---------------------------------------------------------------------------
-- Cells
-- ---------------------------------------------------------------------------

theorem ofFragments?_eq_some {fragments : List Block} {c : Block}
    (h : ofFragments? fragments = some c) :
    ∃ parts : List Block, parts.Perm fragments ∧ Box.hull? (parts.map (·.box)) = some c.box ∧
      c.segments = parts.flatMap (·.segments) := by
  rw [ofFragments?.eq_def] at h
  split at h
  · obtain rfl := Option.some.inj h
    exact ⟨_, .refl _, rfl, by simp⟩
  · simp only [Option.bind_eq_bind, Option.bind_eq_some_iff, Option.pure_def,
      Option.some.injEq] at h
    obtain ⟨head, -, box, hbox, rfl⟩ := h
    exact ⟨_, sortStably_perm _ _, hbox, rfl⟩

theorem mem_segments_ofFragments? {fragments : List Block} {c : Block}
    (h : ofFragments? fragments = some c)
    {i : Nat} : i ∈ c.segments ↔ ∃ b ∈ fragments, i ∈ b.segments := by
  obtain ⟨parts, hperm, -, hsegments⟩ := ofFragments?_eq_some h
  rw [hsegments, List.mem_flatMap]
  simp only [hperm.mem_iff]

theorem ofFragments?_isHull {fragments : List Block} {c : Block}
    (h : ofFragments? fragments = some c)
    (hvalid : ∀ b ∈ fragments, b.box.Valid) : Box.IsHull (fragments.map (·.box)) c.box := by
  obtain ⟨parts, hperm, hhull, -⟩ := ofFragments?_eq_some h
  refine (Box.hull?_isHull (fun a ha => ?_) hhull).congr (hperm.map _)
  obtain ⟨b, hb, rfl⟩ := List.mem_map.mp ha
  exact hvalid b (hperm.mem_iff.mp hb)

theorem ofFragments?_isSome {fragments : List Block} (h : fragments ≠ []) :
    ∃ c, ofFragments? fragments = some c := by
  rw [ofFragments?.eq_def]
  split
  · exact ⟨_, rfl⟩
  · have hne : sortStably leFragment fragments ≠ [] := fun hnil =>
      h (List.nil_perm.mp (hnil ▸ sortStably_perm leFragment fragments))
    obtain ⟨head, rest, hcons⟩ := List.exists_cons_of_ne_nil hne
    simp only [hcons]
    exact ⟨_, rfl⟩

theorem mem_cellsOf {blocks : List Block} {c : Block} :
    c ∈ cellsOf blocks ↔
      ∃ f ∈ grouped (fun a b => a.SharesColumn b) blocks, ofFragments? f = some c := by
  rw [cellsOf, mem_sortStably, List.mem_filterMap]

end Block

-- ---------------------------------------------------------------------------
-- Rows
-- ---------------------------------------------------------------------------

namespace Row

open Block (SharesRow SharesColumn SameRow SameCell)

def placed (r : Row) (i : Nat) : Row :=
  { r with blocks := r.blocks.zipIdx.map fun (b, j) => { b with row := i, col := j } }

theorem getElem?_numbered (rows : List Row) (i : Nat) :
    (numbered rows)[i]? = rows[i]?.map (placed · i) := by
  rw [numbered, List.getElem?_map, List.getElem?_zipIdx, Option.map_map]
  simp only [Nat.zero_add]
  rfl

theorem getElem?_placed (r : Row) (i j : Nat) :
    (r.placed i).blocks[j]? = r.blocks[j]?.map fun b => { b with row := i, col := j } := by
  rw [placed, List.getElem?_map, List.getElem?_zipIdx, Option.map_map]
  simp only [Nat.zero_add]
  rfl

theorem exists_cell_numbered {rows : List Row} {P : List Nat → Prop} :
    (∃ r ∈ numbered rows, ∃ c ∈ r.blocks, P c.segments) ↔
      ∃ r ∈ rows, ∃ c ∈ r.blocks, P c.segments := by
  simp only [List.mem_iff_getElem?]
  constructor
  · rintro ⟨r, ⟨i, hi⟩, c, ⟨j, hj⟩, hP⟩
    rw [getElem?_numbered] at hi
    obtain ⟨s, hs, rfl⟩ := Option.map_eq_some_iff.mp hi
    rw [getElem?_placed] at hj
    obtain ⟨b, hb, rfl⟩ := Option.map_eq_some_iff.mp hj
    exact ⟨s, ⟨i, hs⟩, b, ⟨j, hb⟩, hP⟩
  · rintro ⟨s, ⟨i, hi⟩, b, ⟨j, hj⟩, hP⟩
    refine ⟨s.placed i, ⟨i, ?_⟩, { b with row := i, col := j }, ⟨j, ?_⟩, hP⟩
    · rw [getElem?_numbered, hi]
      rfl
    · rw [getElem?_placed, hj]
      rfl

theorem ofBlocks?_eq_some {blocks : List Block} {r : Row} (h : ofBlocks? blocks = some r) :
    r.blocks = blocks ∧ Box.hull? (blocks.map (·.box)) = some r.box := by
  obtain ⟨box, hbox, rfl⟩ := Option.map_eq_some_iff.mp h
  exact ⟨rfl, hbox⟩

theorem exists_cell_arrange {blocks : List Block} {P : List Nat → Prop} :
    (∃ r ∈ arrange blocks, ∃ c ∈ r.blocks, P c.segments) ↔
      ∃ g ∈ Block.grouped (fun a b => a.SharesRow b) blocks, ∃ c ∈ Block.cellsOf g,
      P c.segments := by
  rw [arrange, exists_cell_numbered]
  simp only [mem_sortStably, List.mem_filterMap]
  constructor
  · rintro ⟨r, ⟨g, hg, hr⟩, c, hc, hP⟩
    rw [(ofBlocks?_eq_some hr).1] at hc
    exact ⟨g, hg, c, hc, hP⟩
  · rintro ⟨g, hg, c, hc, hP⟩
    obtain ⟨box, hbox⟩ :=
      Box.hull?_isSome (List.ne_nil_of_mem (List.mem_map_of_mem (f := Block.box) hc))
    exact ⟨⟨Block.cellsOf g, box⟩, ⟨g, hg, Option.map_eq_some_iff.mpr ⟨box, hbox, rfl⟩⟩, c, hc, hP⟩

/-- Two segments, each listed by one of the blocks, are listed by one cell exactly if those
blocks end up in one. -/
theorem exists_cell_iff {blocks : List Block} {a b : Block} (ha : a ∈ blocks) (hb : b ∈ blocks)
    {u l : Nat} (hua : u ∈ a.segments) (hlb : l ∈ b.segments)
    (hu : ∀ x ∈ blocks, u ∈ x.segments → x = a) (hl : ∀ x ∈ blocks, l ∈ x.segments → x = b) :
    (∃ r ∈ arrange blocks, ∃ c ∈ r.blocks, u ∈ c.segments ∧ l ∈ c.segments) ↔
      SameCell blocks a b := by
  have hrows := Block.rows_grouping blocks
  rw [exists_cell_arrange (P := fun segments => u ∈ segments ∧ l ∈ segments)]
  constructor
  · rintro ⟨g, hg, c, hc, huc, hlc⟩
    have hcolumns := Block.columns_grouping g
    obtain ⟨f, hf, hfc⟩ := Block.mem_cellsOf.mp hc
    obtain ⟨x, hxf, hux⟩ := (Block.mem_segments_ofFragments? hfc).mp huc
    obtain ⟨y, hyf, hly⟩ := (Block.mem_segments_ofFragments? hfc).mp hlc
    have hmem : ∀ z ∈ f, z ∈ g ∧ z ∈ blocks := fun z hz =>
      ⟨hcolumns.subset hf z hz, hrows.subset hg z (hcolumns.subset hf z hz)⟩
    obtain rfl := hu x (hmem x hxf).2 hux
    obtain rfl := hl y (hmem y hyf).2 hly
    -- All fragments of a cell are in one row, so its chain is one within the row.
    refine Relation.EqvGen.mono (fun v w ⟨hv, hw, hvw⟩ => ?_) _ _
      (hcolumns.chained f hf x hxf y hyf)
    have hrow : SameRow blocks v w :=
      (hrows.chained g hg v (hmem v hv).1 w (hmem w hw).1).mono (hrows.subset hg)
    exact ⟨(hmem v hv).2, (hmem w hw).2, hrow, hvw⟩
  · intro hsame
    obtain ⟨g, hg, hag⟩ := (hrows.mem a).mp ha
    have hcolumns := Block.columns_grouping g
    obtain ⟨f, hf, haf⟩ := (hcolumns.mem a).mp hag
    -- The cell of `a` takes in every block that the chain passes.
    have hbf : b ∈ f := by
      refine (hsame.invariant (P := (· ∈ f)) fun x hx y hy ⟨hrow, hcolumn⟩ => ?_).mp haf
      constructor
      · intro hxf
        have hyg := hrows.mem_of_linked (fun _ _ =>
          SharesRow.symm) hg (hcolumns.subset hf x hxf) hrow
        exact hcolumns.closed (fun _ _ => SharesColumn.symm) hf hxf hyg hcolumn
      · intro hyf
        have hxg := hrows.mem_of_linked (fun _ _ => SharesRow.symm) hg (hcolumns.subset hf y hyf)
          (hrow.symm _ _)
        exact hcolumns.closed (fun _ _ => SharesColumn.symm) hf hyf hxg hcolumn.symm
    obtain ⟨c, hc⟩ := Block.ofFragments?_isSome (hcolumns.nonempty f hf)
    exact ⟨g, hg, c, Block.mem_cellsOf.mpr ⟨f, hf, hc⟩,
      (Block.mem_segments_ofFragments? hc).mpr ⟨a, haf, hua⟩,
      (Block.mem_segments_ofFragments? hc).mpr ⟨b, hbf, hlb⟩⟩

end Row

end GlyphTable
