import GlyphTable.Proofs.Row.Inventory

/-!
# Where each block of a page goes

A row is a connected component of the blocks of a page under sharing a row, and a cell one of the
blocks of its row under sharing a column (`Block.Division`). `Row.arrange_placement` says so of the
whole table, with what each cell is made of (`Block.MadeOf`). Fragments that begin at the same point
come in the sequence in which the blocks were given.
-/

namespace GlyphTable

namespace Block

/-- Order of the blocks in a cell: by top edge, then by left edge, in the total order of the IEEE
standard, and at last by position. -/
def FragmentBefore (x y : Block × Nat) : Prop :=
  Binary64.totalRank x.1.box.top < Binary64.totalRank y.1.box.top ∨
    Binary64.totalRank x.1.box.top = Binary64.totalRank y.1.box.top ∧
      (Binary64.totalRank x.1.box.left < Binary64.totalRank y.1.box.left ∨
        Binary64.totalRank x.1.box.left = Binary64.totalRank y.1.box.left ∧ x.2 < y.2)

structure MadeOf (parts : List Block) (c : Block) : Prop where
  segments : c.segments = parts.flatMap (·.segments)
  box : Box.hull? (parts.map (·.box)) = some c.box
  text : c.text = if parts.length = 1 then "\n".intercalate (parts.map (·.text))
    else Text.trimEnd ("\n".intercalate (parts.map (·.text)))
  style : ∃ head ∈ parts.head?, c.size = head.size ∧ c.orientation = head.orientation

theorem leFragment_iff {a b : Block} : leFragment a b ↔
    Binary64.totalRank a.box.top < Binary64.totalRank b.box.top ∨
      Binary64.totalRank a.box.top = Binary64.totalRank b.box.top ∧
        Binary64.totalRank a.box.left ≤ Binary64.totalRank b.box.left := by
  rw [leFragment]
  split <;> simp only [Binary64.leTotal, decide_eq_true_eq] <;> omega

theorem leFragment_total (a b : Block) : leFragment a b || leFragment b a := by
  rw [Bool.or_eq_true, leFragment_iff, leFragment_iff]
  omega

theorem leFragment_trans (a b c : Block) (hab : leFragment a b) (hbc : leFragment b c) :
    leFragment a c := by
  rw [leFragment_iff] at *
  omega

def fragments (f : List (Block × Nat)) : List (Block × Nat) :=
  sortStably (fun x y => leFragment x.1 y.1) f

theorem fragments_pairwise {f : List (Block × Nat)} (h : f.Pairwise fun x y => x.2 < y.2) :
    (fragments f).Pairwise FragmentBefore := by
  have hsorted := pairwise_sortStably (fun x y : Block × Nat => leFragment_total x.1 y.1)
    (fun x y z => leFragment_trans x.1 y.1 z.1) f
  refine (hsorted.and (pairwise_sortStably_of_tie h)).imp fun {x y} ⟨hle, htie⟩ => ?_
  rw [leFragment_iff] at hle htie
  rw [FragmentBefore]
  omega

theorem ofFragments?_madeOf {f : List (Block × Nat)} (hne : f ≠ []) :
    ∃ c, ofFragments? (f.map (·.1)) = some c ∧ MadeOf ((fragments f).map (·.1)) c := by
  have hparts : (fragments f).map (·.1) = sortStably leFragment (f.map (·.1)) := by
    rw [fragments, sortStably_eq_insertionSort, sortStably_eq_insertionSort]
    exact List.map_insertionSort _ (leFragment · ·) (·.1) f fun _ _ _ _ => Iff.rfl
  have hlength : ((fragments f).map (·.1)).length = f.length := by
    rw [List.length_map, fragments, (sortStably_perm _ f).length_eq]
  rw [ofFragments?.eq_def]
  split
  · next b heq =>
    rw [hparts, heq]
    exact ⟨b, rfl, by simp [sortStably, insertSorted], rfl, by simp [sortStably, insertSorted],
      b, rfl, rfl, rfl⟩
  · next hmany =>
    have hone : f.length ≠ 1 := by
      intro hone
      obtain ⟨x, rfl⟩ := List.length_eq_one_iff.mp hone
      exact hmany x.1 rfl
    obtain ⟨head, rest, hcons⟩ : ∃ head rest, (fragments f).map (·.1) = head :: rest := by
      refine List.exists_cons_of_ne_nil (List.ne_nil_of_length_pos ?_)
      rw [hlength]
      exact List.length_pos_of_ne_nil hne
    rw [← hparts, hcons]
    refine ⟨_, rfl, rfl, rfl, ?_, head, rfl, rfl, rfl⟩
    rw [← hcons, hlength, if_neg hone]

theorem cellsOf_placement {g : List (Block × Nat)} (h : g.Pairwise fun x y => x.2 < y.2) :
    ∃ row, Division SharesColumn g row ∧ (∀ cell ∈ row, cell.Pairwise FragmentBefore) ∧
      List.Forall₂ (fun cell c => MadeOf (cell.map (·.1)) c) row (cellsOf (g.map (·.1))) := by
  have hdivision : Division SharesColumn g (divided (fun a b => a.SharesColumn b) g) :=
    division_of_symm SharesColumn.symm g
  have hcells : List.Forall₂ (fun part c => MadeOf ((fragments part).map (·.1)) c)
      (divided (fun a b => a.SharesColumn b) g)
      ((grouped (fun a b => a.SharesColumn b) (g.map (·.1))).filterMap ofFragments?) := by
    refine forall₂_filterMap ?_
    rw [grouped_eq_divided, List.forall₂_map_right_iff, List.forall₂_same]
    exact fun part hpart => ofFragments?_madeOf (hdivision.nonempty part hpart)
  obtain ⟨parts, hperm, hmade⟩ := exists_perm_of_forall₂ hcells
    (sortStably_perm (fun a b => Binary64.leTotal a.box.left b.box.left) _)
  refine ⟨parts.map fragments, ?_, ?_, List.forall₂_map_left_iff.mpr hmade⟩
  · refine (hdivision.perm_parts hperm.symm).forall₂ (List.forall₂_map_left_iff.mpr ?_)
    exact List.forall₂_same.mpr fun part _ => sortStably_perm _ part
  · refine List.forall_mem_map.mpr fun part hpart => fragments_pairwise ?_
    exact divided_ascending h part (hperm.mem_iff.mp hpart)

end Block

namespace Row

open Block (SharesRow SharesColumn Division FragmentBefore)

def MadeOf (row : List (List (Block × Nat))) (r : Row) : Prop :=
  List.Forall₂ (fun cell c => Block.MadeOf (cell.map (·.1)) c) row r.blocks

/-- A table of the blocks that its cells are made of, in the sequence in which these list them. -/
structure Placement (blocks : List Block) (table : List (List (List (Block × Nat))))
    (rows : List Row) : Prop where
  /-- Every block is in one row, with those that a chain of shared rows joins it to. -/
  byRow : Division SharesRow blocks.zipIdx (table.map List.flatten)
  /-- Every block of a row is in one cell of it, with those that a chain of shared columns inside
  the row joins it to. -/
  byCell : ∀ row ∈ table, Division SharesColumn row.flatten row
  sorted : ∀ row ∈ table, ∀ cell ∈ row, cell.Pairwise FragmentBefore
  made : List.Forall₂ MadeOf table rows

theorem forall₂_numbered (rows : List Row) : List.Forall₂ (fun r s : Row => List.Forall₂ (fun b c =>
    ∃ i j, c = { b with row := i, col := j }) r.blocks s.blocks) rows (numbered rows) := by
  refine forall₂_zipIdx_map (fun r i => ?_) rows 0
  exact forall₂_zipIdx_map (fun b j => ⟨i, j, rfl⟩) r.blocks 0

theorem madeOf_numbered {table : List (List (List (Block × Nat)))} {rows : List Row}
    (h : List.Forall₂ MadeOf table rows) : List.Forall₂ MadeOf table (numbered rows) := by
  refine forall₂_comp h (forall₂_numbered rows) fun row r s hr hs => ?_
  refine forall₂_comp hr hs fun cell b c hb hc => ?_
  obtain ⟨i, j, rfl⟩ := hc
  exact ⟨hb.segments, hb.box, hb.text, hb.style⟩

theorem ofBlocks?_placement {g : List (Block × Nat)} (hne : g ≠ [])
    (h : g.Pairwise fun x y => x.2 < y.2) :
    ∃ r, ofBlocks? (Block.cellsOf (g.map (·.1))) = some r ∧
      ∃ row : List (List (Block × Nat)), (Division SharesColumn g row ∧
        ∀ cell ∈ row, cell.Pairwise FragmentBefore) ∧ MadeOf row r := by
  obtain ⟨row, hcells, hsorted, hmade⟩ := Block.cellsOf_placement h
  have hne' : g.map (·.1) ≠ [] := by simpa using hne
  obtain ⟨r, hr, hblocks⟩ := ofBlocks?_isSome (Block.cellsOf_ne_nil hne')
  refine ⟨r, hr, row, ⟨hcells, hsorted⟩, ?_⟩
  rwa [MadeOf, hblocks]

/-- Blocks of any boxes are placed in a table: its rows are the connected components of the blocks
under sharing a row, and its cells those of the blocks of a row under sharing a column. -/
theorem arrange_placement (blocks : List Block) :
    ∃ table, Placement blocks table (arrange blocks) := by
  have hascending : blocks.zipIdx.Pairwise fun x y => x.2 < y.2 := pairwise_zipIdx blocks
  have hdivision : Division SharesRow blocks.zipIdx
      (Block.divided (fun a b => a.SharesRow b) blocks.zipIdx) :=
    Block.division_of_symm SharesRow.symm blocks.zipIdx
  have hrows :
    List.Forall₂ (fun g r => ∃ row : List (List (Block × Nat)), (Division SharesColumn g row ∧
      ∀ cell ∈ row, cell.Pairwise FragmentBefore) ∧ MadeOf row r)
      (Block.divided (fun a b => a.SharesRow b) blocks.zipIdx)
      ((Block.grouped (fun a b => a.SharesRow b) blocks).filterMap fun group =>
        ofBlocks? (Block.cellsOf group)) := by
    refine forall₂_filterMap ?_
    rw [Block.grouped_eq_zipIdx, List.forall₂_map_right_iff, List.forall₂_same]
    intro g hg
    exact ofBlocks?_placement (hdivision.nonempty g hg) (Block.divided_ascending hascending g hg)
  obtain ⟨parts, hperm, hmade⟩ := exists_perm_of_forall₂ hrows
    (sortStably_perm (fun a b => Binary64.leTotal a.box.top b.box.top) _)
  obtain ⟨table, hparts, hmade⟩ := exists_between_of_forall₂ hmade
  refine ⟨table, ?_, fun row hrow => ?_, fun row hrow => ?_, madeOf_numbered hmade⟩
  · refine (hdivision.perm_parts hperm.symm).forall₂ (List.forall₂_map_left_iff.mpr ?_)
    exact (hparts.imp fun _ _ h => h.1.perm).flip
  · obtain ⟨g, -, hcells, -⟩ := exists_of_mem_forall₂ hparts hrow
    exact hcells.perm_blocks hcells.perm.symm
  · obtain ⟨g, -, -, hsorted⟩ := exists_of_mem_forall₂ hparts hrow
    exact hsorted

end Row

end GlyphTable
