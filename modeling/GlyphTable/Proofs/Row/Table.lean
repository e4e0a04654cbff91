import GlyphTable.Proofs.Row.Separation

/-!
# The rows of a table

`Row.arrange_table`: rows made of bounded blocks form a table. Besides what that says of
each row, no row has a top, its own or that of a cell, at or below one of a later row
(`Row.Over`). This outlives the loss of cells, where the order of the rows alone would not.
-/

namespace GlyphTable

theorem pairwise_sortStably_edge {α : Type} {edge : α → Float} {B : α → α → Prop} {l : List α}
    (hclear : l.Pairwise fun a b => B a b ∨ B b a)
    (hB : ∀ a ∈ l, ∀ b ∈ l, B a b → edge a < edge b) :
    (sortStably (fun a b => Binary64.leTotal (edge a) (edge b)) l).Pairwise B := by
  have hsorted : (sortStably (fun a b => Binary64.leTotal (edge a) (edge b)) l).Pairwise
      fun a b => Binary64.leTotal (edge a) (edge b) :=
    pairwise_sortStably (fun a b => Binary64.leTotal_total (edge a) (edge b))
      (fun a b c => Binary64.leTotal_trans (edge a) (edge b) (edge c)) l
  rw [← (sortStably_perm (fun a b => Binary64.leTotal (edge a) (edge b)) l).pairwise_iff
    fun h => h.symm] at hclear
  refine (hsorted.and hclear).imp_of_mem fun {a b} ha hb ⟨hle, hab⟩ => ?_
  refine hab.resolve_right fun hba => ?_
  have hlt := Binary64.totalRank_lt (hB b (mem_sortStably.mp hb) a (mem_sortStably.mp ha) hba)
  exact absurd (of_decide_eq_true hle) (Int.not_le.mpr hlt)

namespace Block

theorem cellsOf_bounded {blocks : List Block} (h : ∀ b ∈ blocks, b.box.Bounded) {c : Block}
    (hc : c ∈ cellsOf blocks) : c.box.Bounded := by
  obtain ⟨f, hf, hfc⟩ := mem_cellsOf.mp hc
  have hmem := (columns_grouping blocks).subset hf
  refine (ofFragments?_isHull hfc fun b hb => (h b (hmem b hb)).valid).bounded fun a ha => ?_
  obtain ⟨b, hb, rfl⟩ := List.mem_map.mp ha
  exact h b (hmem b hb)

theorem exists_top_of_mem_cellsOf {blocks : List Block} (h : ∀ b ∈ blocks, b.box.Valid) {c : Block}
    (hc : c ∈ cellsOf blocks) : ∃ b ∈ blocks, b.box.top = c.box.top := by
  obtain ⟨f, hf, hfc⟩ := mem_cellsOf.mp hc
  have hmem := (columns_grouping blocks).subset hf
  obtain ⟨a, ha, htop⟩ := (ofFragments?_isHull hfc fun b hb => h b (hmem b hb)).top_mem
  obtain ⟨b, hb, rfl⟩ := List.mem_map.mp ha
  exact ⟨b, hmem b hb, htop⟩

theorem before_of_fragments {f k : List Block} {c d : Block} (hc : ofFragments? f = some c)
    (hd : ofFragments? k = some d) (hf : ∀ b ∈ f, b.box.Valid) (hk : ∀ b ∈ k, b.box.Valid)
    (h : ∀ a ∈ f, ∀ b ∈ k, a.Before b) : c.Before d := by
  obtain ⟨x, hx, hright⟩ := (ofFragments?_isHull hc hf).right_mem
  obtain ⟨y, hy, hleft⟩ := (ofFragments?_isHull hd hk).left_mem
  obtain ⟨a, ha, rfl⟩ := List.mem_map.mp hx
  obtain ⟨b, hb, rfl⟩ := List.mem_map.mp hy
  rw [Before, ← hright, ← hleft]
  exact h a ha b hb

theorem Before.left_lt {a b : Block} (ha : a.box.Valid) (h : a.Before b) :
    a.box.left < b.box.left :=
  Binary64.lt_of_le_of_lt ha.1 h

theorem cellsOf_before {blocks : List Block} (h : ∀ b ∈ blocks, b.box.Bounded) :
    (cellsOf blocks).Pairwise Before := by
  have hmem {f : List Block} (hf : f ∈ grouped (fun a b => a.SharesColumn b) blocks) :
      ∀ b ∈ f, b.box.Valid := fun b hb => (h b ((columns_grouping blocks).subset hf b hb)).valid
  refine pairwise_sortStably_edge ?_ fun a ha b _ hab => hab.left_lt ?_
  · rw [List.pairwise_filterMap]
    refine (columns_ordered fun b hb =>
      (h b hb).valid).imp_of_mem fun {f k} hf hk hfk c hc d hd => ?_
    refine hfk.imp (before_of_fragments hc hd (hmem hf) (hmem hk)) fun hkf => ?_
    exact before_of_fragments hd hc (hmem hk) (hmem hf) fun b hb a ha => hkf a ha b hb
  · obtain ⟨f, hf, hfa⟩ := List.mem_filterMap.mp ha
    refine (ofFragments?_isHull hfa (hmem hf)).valid fun x hx => ?_
    obtain ⟨b, hb, rfl⟩ := List.mem_map.mp hx
    exact hmem hf b hb

end Block

namespace Row

def boxes (r : Row) : List Box :=
  r.blocks.map (·.box)

def tops (r : Row) : List Float :=
  r.box.top :: r.boxes.map (·.top)

def Over (r s : Row) : Prop :=
  ∀ x ∈ r.tops, ∀ y ∈ s.tops, x < y

/-- Boxes from left to right that stand clear of each other, and their hull, which is
anything if there are none. -/
structure Framed (boxes : List Box) (box : Box) : Prop where
  hull : boxes ≠ [] → Box.hull? boxes = some box
  valid : ∀ b ∈ boxes, b.Valid
  apart : boxes.Pairwise fun a b => a.right < b.left

structure Table (rows : List Row) : Prop where
  placed : ∀ (i : Nat) (r : Row), rows[i]? = some r →
    ∀ (j : Nat) (b : Block), r.blocks[j]? = some b → b.row = i ∧ b.col = j
  framed : ∀ r ∈ rows, Framed r.boxes r.box
  descending : rows.Pairwise Over

-- ---------------------------------------------------------------------------
-- Arranging blocks
-- ---------------------------------------------------------------------------

theorem ofBlocks?_framed {group : List Block} {r : Row} (h : ∀ b ∈ group, b.box.Bounded)
    (hr : ofBlocks? (Block.cellsOf group) = some r) : Framed r.boxes r.box := by
  obtain ⟨hblocks, hhull⟩ := ofBlocks?_eq_some hr
  rw [boxes, hblocks]
  refine ⟨fun _ => hhull, fun a ha => ?_, List.pairwise_map.mpr (Block.cellsOf_before h)⟩
  obtain ⟨c, hc, rfl⟩ := List.mem_map.mp ha
  exact (Block.cellsOf_bounded h hc).valid

theorem exists_top_of_mem_tops {group : List Block} {r : Row} (h : ∀ b ∈ group, b.box.Bounded)
    (hr : ofBlocks? (Block.cellsOf group) = some r) {x : Float} (hx : x ∈ r.tops) :
    ∃ b ∈ group, b.box.top = x := by
  obtain ⟨hblocks, hhull⟩ := ofBlocks?_eq_some hr
  have hcell : ∀ a ∈ r.boxes, ∃ b ∈ group, b.box.top = a.top := by
    intro a ha
    rw [boxes, hblocks] at ha
    obtain ⟨c, hc, rfl⟩ := List.mem_map.mp ha
    exact Block.exists_top_of_mem_cellsOf (fun b hb => (h b hb).valid) hc
  rcases List.mem_cons.mp hx with rfl | hx
  · rw [← hblocks] at hhull
    obtain ⟨a, ha, htop⟩ := (Box.hull?_isHull (ofBlocks?_framed h hr).valid hhull).top_mem
    rw [← htop]
    exact hcell a ha
  · obtain ⟨a, ha, rfl⟩ := List.mem_map.mp hx
    exact hcell a ha

theorem over_of_groups {g k : List Block} {r s : Row} (hg : ∀ b ∈ g, b.box.Bounded)
    (hk : ∀ b ∈ k, b.box.Bounded) (hr : ofBlocks? (Block.cellsOf g) = some r)
    (hs : ofBlocks? (Block.cellsOf k) = some s) (h : ∀ a ∈ g, ∀ b ∈ k, a.box.top < b.box.top) :
    r.Over s := by
  intro x hx y hy
  obtain ⟨a, ha, rfl⟩ := exists_top_of_mem_tops hg hr hx
  obtain ⟨b, hb, rfl⟩ := exists_top_of_mem_tops hk hs hy
  exact h a ha b hb

theorem Over.top_lt {r s : Row} (h : r.Over s) : r.box.top < s.box.top :=
  h _ List.mem_cons_self _ List.mem_cons_self

theorem boxes_placed (r : Row) (i : Nat) : (r.placed i).boxes = r.boxes := by
  refine List.ext_getElem? fun j => ?_
  rw [boxes, boxes, List.getElem?_map, List.getElem?_map, getElem?_placed, Option.map_map]
  rfl

theorem tops_placed (r : Row) (i : Nat) : (r.placed i).tops = r.tops := by
  rw [tops, tops, boxes_placed]
  rfl

theorem numbered_table {rows : List Row} (hframed : ∀ r ∈ rows, Framed r.boxes r.box)
    (hover : rows.Pairwise Over) : Table (numbered rows) := by
  have hget {i : Nat} {r : Row} (h : (numbered rows)[i]? = some r) :
      ∃ s, rows[i]? = some s ∧ s.placed i = r :=
    Option.map_eq_some_iff.mp (getElem?_numbered rows i ▸ h)
  refine ⟨fun i r hr j b hb => ?_, fun r hr => ?_, ?_⟩
  · obtain ⟨s, -, rfl⟩ := hget hr
    rw [getElem?_placed] at hb
    obtain ⟨c, -, rfl⟩ := Option.map_eq_some_iff.mp hb
    exact ⟨rfl, rfl⟩
  · obtain ⟨i, hi⟩ := List.mem_iff_getElem?.mp hr
    obtain ⟨s, hs, rfl⟩ := hget hi
    rw [boxes_placed]
    exact hframed s (List.mem_of_getElem? hs)
  · rw [List.pairwise_iff_getElem] at hover ⊢
    intro i j hi hj hij
    obtain ⟨s, hs, hsi⟩ := hget (List.getElem?_eq_getElem hi)
    obtain ⟨t, ht, htj⟩ := hget (List.getElem?_eq_getElem hj)
    obtain ⟨hi', rfl⟩ := List.getElem?_eq_some_iff.mp hs
    obtain ⟨hj', rfl⟩ := List.getElem?_eq_some_iff.mp ht
    rw [← hsi, ← htj, Over, tops_placed, tops_placed]
    exact hover i j hi' hj' hij

theorem sorted_over {blocks : List Block} (h : ∀ b ∈ blocks, b.box.Bounded) :
    (sortStably (fun a b => Binary64.leTotal a.box.top b.box.top)
      ((Block.grouped (fun a b => a.SharesRow b) blocks).filterMap fun group =>
        ofBlocks? (Block.cellsOf group))).Pairwise Over := by
  have hmem {g : List Block} (hg : g ∈ Block.grouped (fun a b => a.SharesRow b) blocks) :
      ∀ b ∈ g, b.box.Bounded := fun b hb => h b ((Block.rows_grouping blocks).subset hg b hb)
  refine pairwise_sortStably_edge ?_ fun r _ s _ hrs => hrs.top_lt
  rw [List.pairwise_filterMap]
  refine (Block.rows_ordered h).imp_of_mem fun {g k} hg hk hgk r hr s hs => ?_
  refine hgk.imp (over_of_groups (hmem hg) (hmem hk) hr hs) fun hkg => ?_
  exact over_of_groups (hmem hk) (hmem hg) hs hr fun b hb a ha => hkg a ha b hb

theorem arrange_table {blocks : List Block} (h : ∀ b ∈ blocks, b.box.Bounded) :
    Table (arrange blocks) := by
  refine numbered_table (fun r hr => ?_) (sorted_over h)
  obtain ⟨g, hg, hgr⟩ := List.mem_filterMap.mp (mem_sortStably.mp hr)
  exact ofBlocks?_framed (fun b hb => h b ((Block.rows_grouping blocks).subset hg b hb)) hgr

end Row

end GlyphTable
