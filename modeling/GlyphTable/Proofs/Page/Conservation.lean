import GlyphTable.Proofs.Page.Vetoed
import GlyphTable.Proofs.Row.Inventory
import GlyphTable.Proofs.Segment.Coverage

/-!
# Clustering loses nothing and repeats nothing

`Page.cluster_conserves`: a glyph is in one segment or, where nothing it is linked to has
text, in none; every segment is listed by one cell; and the outcome counts what the page
then holds.
-/

namespace GlyphTable

namespace Page

/-- What clustering makes of the glyphs and links of a page: `p` is the page afterwards and
`o` the outcome reported. -/
structure Conserves (glyphs : Array Glyph) (links : List (Nat × Nat)) (p : Page) (o : Outcome) :
    Prop where
  glyphs_eq : p.glyphs = glyphs
  /-- Every segment is listed by one cell, once. -/
  segments_once : (p.rows.flatMap fun r => r.blocks.flatMap (·.segments)).Perm
    (List.range p.segments.size)
  glyphs_nonempty : ∀ s ∈ p.segments.toList, s.glyphs ≠ []
  glyphs_nodup : ∀ s ∈ p.segments.toList, s.glyphs.Nodup
  glyphs_lt : ∀ s ∈ p.segments.toList, ∀ i ∈ s.glyphs, i < glyphs.size
  glyphs_disjoint : p.segments.toList.Pairwise fun s t => s.glyphs.Disjoint t.glyphs
  /-- The glyphs left out are those of which no linked one has text. -/
  unlisted_iff : ∀ i < glyphs.size, (∀ s ∈ p.segments.toList, i ∉ s.glyphs) ↔
    ∀ j c, glyphs[j]? = some c → Partition.Connected links i j → c.text = ""
  rows_nonempty : ∀ r ∈ p.rows, r.blocks ≠ []
  cells_nonempty : ∀ r ∈ p.rows, ∀ c ∈ r.blocks, c.segments ≠ []
  segments_eq : o.segments = p.segments.size
  rows_eq : o.rows = p.rows.length
  rows_le : o.rows ≤ p.blocks.length
  cells_le : p.blocks.length ≤ o.blocks
  blocks_le : o.blocks ≤ o.segments

theorem blocks_eq (p : Page) : p.blocks = p.rows.flatMap (·.blocks) :=
  rfl

theorem stacked_perm (p : Page) (vetoes : List Veto) :
    ((p.stacked vetoes).flatMap (·.segments)).Perm (List.range p.segments.size) :=
  Block.ofSegments_perm _ vetoes

theorem stacked_nonempty {p : Page} {vetoes : List Veto} :
    ∀ b ∈ p.stacked vetoes, b.segments ≠ [] :=
  fun _ hb => Block.ofSegments_nonempty hb

/-- Clustering loses nothing and repeats nothing, whatever the glyphs, the spacing and the
vetoes are. -/
theorem cluster_conserves {p q : Page} {s : Spacing} {vetoes : List Veto} {o : Outcome}
    (h : p.cluster? s vetoes = some (q, o)) :
    ∃ index, Glyph.index? p.box p.glyphs = some index ∧
      Conserves p.glyphs (Glyph.links s p.glyphs index) q o := by
  obtain ⟨index, hindex, hclusters⟩ := exists_clusters h
  have hlinks : ∀ e ∈ Glyph.links s p.glyphs index, e.1 < p.glyphs.size ∧ e.2 < p.glyphs.size :=
    fun e he => Glyph.lt_of_mem_links he
  have hdistinct := hclusters.distinct
  have hsegments : q.segments.toList = Segment.ofLinks p.glyphs (Glyph.links s p.glyphs index) := by
    rw [hclusters.segments_eq]
  have hrows := hclusters.rows_eq
  have hperm := q.stacked_perm vetoes
  have hcounts := Row.length_arrange_le (q.stacked vetoes)
  refine ⟨index, hindex, {
    glyphs_eq := hclusters.glyphs_eq
    segments_once := ?_
    glyphs_nonempty := hdistinct.nonempty
    glyphs_nodup := fun g hg => (Segment.ofLinks_sound hlinks (hsegments ▸ hg)).1
    glyphs_lt := fun g hg => (Segment.ofLinks_sound hlinks (hsegments ▸ hg)).2
    glyphs_disjoint := hdistinct.disjoint
    unlisted_iff := ?_
    rows_nonempty := ?_
    cells_nonempty := ?_
    segments_eq := hclusters.segments_count
    rows_eq := hclusters.rows_count
    rows_le := ?_
    cells_le := ?_
    blocks_le := ?_ }⟩
  · rw [hrows]
    exact (Row.arrange_segments_perm _).trans hperm
  · rw [hsegments]
    exact fun i hi => Segment.ofLinks_covers_iff hlinks hi
  · rw [hrows]
    exact fun r hr => Row.arrange_nonempty hr
  · rw [hrows]
    exact Row.segments_nonempty stacked_nonempty
  · rw [hclusters.rows_count, blocks_eq, hrows]
    exact hcounts.1
  · rw [hclusters.blocks_count, blocks_eq, hrows]
    exact hcounts.2
  · rw [hclusters.blocks_count, hclusters.segments_count,
      ← List.length_range (n := q.segments.size),
      ← hperm.length_eq]
    exact length_le_length_flatMap stacked_nonempty

theorem tallNeighbour_conserves :
    ∃ q o index, tallNeighbour.cluster? .standard [⟨"A", "B"⟩] = some (q, o) ∧
      (o.segments, o.blocks, o.rows) = (3, 3, 1) ∧
      Conserves tallNeighbour.glyphs (Glyph.links .standard tallNeighbour.glyphs index) q o := by
  have hcounts : (tallNeighbour.cluster? .standard [⟨"A", "B"⟩]).map
      (fun (_, o) => (o.segments, o.blocks, o.rows)) = some (3, 3, 1) := by
    decide +kernel
  obtain ⟨⟨q, o⟩, hq, hcount⟩ := Option.map_eq_some_iff.mp hcounts
  obtain ⟨index, -, hconserves⟩ := cluster_conserves hq
  exact ⟨q, o, index, hq, hcount, hconserves⟩

end Page

end GlyphTable
