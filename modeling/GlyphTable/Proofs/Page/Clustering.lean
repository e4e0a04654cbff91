import GlyphTable.Page
import GlyphTable.Proofs.PointTree.Ending
import GlyphTable.Proofs.Segment.Scan

/-!
# What clustering puts on a page

`Page.exists_clusters` is all that the other modules know of clustering: the segments that the
links of the indexed glyphs make, the rows that the blocks of these segments make, and the outcome
that counts them. On a page that is not far out the glyphs are indexed, so clustering succeeds there
(`Page.exists_cluster?`).
-/

namespace GlyphTable

theorem Box.IsHull.close {boxes : List Box} {b : Box} (h : Box.IsHull boxes b)
    (hboxes : ∀ a ∈ boxes, a.Close) : b.Close := by
  obtain ⟨hleft, htop, hright, hbottom⟩ := h.edges fun a ha =>
    ⟨(hboxes a ha).left, (hboxes a ha).top, (hboxes a ha).right, (hboxes a ha).bottom⟩
  exact ⟨hleft, htop, hright, hbottom⟩

theorem Glyph.exists_index? {page : Box} {glyphs : Array Glyph} (hpage : page.Finite)
    (hglyphs : ∀ g ∈ glyphs, g.box.Finite) (hclose : page.Close)
    (hboxes : ∀ g ∈ glyphs, g.box.Close) : ∃ index, index? page glyphs = some index := by
  have hregion : ∀ a ∈ page :: glyphs.toList.map (·.box), a.Close := by
    refine List.forall_mem_cons.mpr ⟨hclose, fun a ha => ?_⟩
    obtain ⟨g, hg, rfl⟩ := List.mem_map.mp ha
    exact hboxes g (Array.mem_toList_iff.mp hg)
  obtain ⟨index, hindex, -⟩ :=
    PointTree.insertAll?_ends ((region_isHull hpage hglyphs).close hregion) _
  exact ⟨index, hindex⟩

namespace Page

variable {p q : Page} {s : Spacing} {vetoes : List Veto} {o : Outcome}

/-- The blocks that clustering makes of the segments, before it makes rows of them. -/
def stacked (p : Page) (vetoes : List Veto) : List Block :=
  (Block.ofSegments p.segments vetoes).1

/-- What clustering makes of a page `p` and its index: the page `q` and the outcome `o`. -/
structure Clusters (p : Page) (s : Spacing) (vetoes : List Veto) (index : PointTree.Index Nat)
    (q : Page) (o : Outcome) : Prop where
  glyphs_eq : q.glyphs = p.glyphs
  segments_eq : q.segments =
    (Segment.ofLinks p.glyphs (Glyph.links s p.glyphs index)).toArray
  rows_eq : q.rows = Row.arrange (q.stacked vetoes)
  segments_count : o.segments = q.segments.size
  blocks_count : o.blocks = (q.stacked vetoes).length
  rows_count : o.rows = q.rows.length

theorem exists_clusters (h : p.cluster? s vetoes = some (q, o)) :
    ∃ index, Glyph.index? p.box p.glyphs = some index ∧ p.Clusters s vetoes index q o := by
  obtain ⟨segments, hsegments, heq⟩ := Option.map_eq_some_iff.mp h
  obtain ⟨index, hindex, rfl⟩ := Segment.ofGlyphs?_eq_some_iff.mp hsegments
  simp only [assemble, Prod.mk.injEq] at heq
  obtain ⟨rfl, rfl⟩ := heq
  refine ⟨index, hindex, ?_⟩
  constructor <;> simp only [stacked]

theorem Clusters.distinct {index : PointTree.Index Nat} (h : p.Clusters s vetoes index q o) :
    Segment.Distinct q.segments.toList := by
  rw [h.segments_eq]
  exact Segment.ofLinks_distinct fun _ he => Glyph.lt_of_mem_links he

theorem exists_cluster?_of_index (s : Spacing) (vetoes : List Veto) {index : PointTree.Index Nat}
    (hindex : Glyph.index? p.box p.glyphs = some index) :
    ∃ q o, p.cluster? s vetoes = some (q, o) := by
  obtain ⟨segments, hsegments⟩ : ∃ segments, Segment.ofGlyphs? s p.box p.glyphs = some segments :=
    ⟨_, Segment.ofGlyphs?_eq_some_iff.mpr ⟨index, hindex, rfl⟩⟩
  exact ⟨_, _, Option.map_eq_some_iff.mpr ⟨segments, hsegments, rfl⟩⟩

theorem exists_cluster? (s : Spacing) (vetoes : List Veto) (hpage : p.box.Finite)
    (hglyphs : ∀ g ∈ p.glyphs, g.box.Finite) (hclose : p.box.Close)
    (hboxes : ∀ g ∈ p.glyphs, g.box.Close) : ∃ q o, p.cluster? s vetoes = some (q, o) := by
  obtain ⟨index, hindex⟩ := Glyph.exists_index? hpage hglyphs hclose hboxes
  exact exists_cluster?_of_index s vetoes hindex

end Page

end GlyphTable
