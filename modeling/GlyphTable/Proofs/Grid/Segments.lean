import GlyphTable.Proofs.Block.Single
import GlyphTable.Proofs.Grid.Links
import GlyphTable.Proofs.Page.Vetoed
import GlyphTable.Proofs.Segment.Runs

/-!
# The texts of a grid as segments

Every text of a grid becomes one segment (`Grid.segments_setAs`), and as rows are further apart than
the lines of a paragraph, one block (`Grid.stacked_printed`).
-/

namespace GlyphTable

open Binary64 (Whole Near Moderate value)

namespace Word

variable {w v : Word}

-- ---------------------------------------------------------------------------
-- Lines of glyphs
-- ---------------------------------------------------------------------------

theorem join_glyphs (w : Word) : String.join (w.glyphs.map (·.text)) = w.text := by
  have hchars : w.glyphs.map (·.text) = w.text.toList.map String.singleton := by
    conv_rhs => rw [← List.zipIdx_map_fst 0 w.text.toList]
    rw [glyphs, List.map_map, List.map_map]
    rfl
  rw [hchars, ← String.toList_inj, String.toList_join, List.flatMap_map]
  simp only [String.toList_singleton, List.flatMap_singleton']

theorem text_ne (h : w.WellSpaced) : w.text ≠ "" := by
  intro hempty
  have hlength := h.length_pos
  rw [hempty] at hlength
  exact absurd hlength (by decide)

theorem line_glyphs (h : w.WellSpaced) : Glyph.Line w.glyphs := by
  refine ⟨by rw [join_glyphs]; exact text_ne h, fun head hhead => ?_⟩
  rw [glyphs_eq] at hhead ⊢
  obtain ⟨m, -, rfl⟩ := List.mem_map.mp (List.mem_of_mem_head? hhead)
  refine List.pairwise_map.mpr (w.letters_pairwise.imp_of_mem fun {m n} hm hn hbefore => ?_)
  obtain ⟨hrow, -⟩ := h.col_eq hm
  obtain ⟨hrow', -⟩ := h.col_eq hn
  exact Letter.dot_lt_dot (h.exact_letter hm) (h.exact_letter hn) (by
    simp only [Letter.Before] at hbefore
    omega)

-- ---------------------------------------------------------------------------
-- Segments
-- ---------------------------------------------------------------------------

def frame (w : Word) : Frame where
  left := 10 + 150 * w.col
  top := 10 + 40 * w.row
  right := 10 + 150 * w.col + 6 * w.text.length
  bottom := 20 + 40 * w.row

theorem exists_letter (w : Word) {i : Nat} (hi : i < w.text.length) :
    ∃ m ∈ w.letters, m.slot = 25 * w.col + i := by
  have hi : i < w.letters.length := w.length_letters ▸ hi
  exact ⟨_, List.getElem_mem hi, (w.getElem_letters hi).2⟩

theorem letter_partOf {m : Letter} (hm : m ∈ w.letters) : m.frame.PartOf w.frame := by
  obtain ⟨hrow, i, hi, hslot⟩ := exists_index_of_mem_letters hm
  constructor <;> simp only [Letter.frame, frame, hrow] <;> omega

theorem bounds_hull (h : w.WellSpaced) {b : Box} (hb : Box.hull? (w.glyphs.map (·.box)) = some b) :
    w.frame.Bounds b := by
  have hboxes : w.glyphs.map (·.box) = w.letters.map (·.frame.box) := by
    rw [glyphs_eq, List.map_map]
    rfl
  rw [hboxes] at hb
  have hbounds {m : Letter} (hm : m ∈ w.letters) := (Letter.bounds (h.exact_letter hm)).1
  have hvalid : ∀ a ∈ w.letters.map (·.frame.box), a.Valid :=
    List.forall_mem_map.mpr fun m hm => ((hbounds hm).finite (by simp only [Letter.frame]; omega)
      (by simp only [Letter.frame]; omega)).valid
  have hpos := h.length_pos
  obtain ⟨first, hfirst, hfirstslot⟩ := w.exists_letter hpos
  obtain ⟨last, hlast, hlastslot⟩ := w.exists_letter (i := w.text.length - 1) (by omega)
  have hleft : first.frame.left = w.frame.left := by
    simp only [Letter.frame, frame, hfirstslot]
    omega
  have hright : last.frame.right = w.frame.right := by
    simp only [Letter.frame, frame, hlastslot]
    omega
  exact Frame.bounds_of_isHull (Box.hull?_isHull hvalid hb)
    (List.forall_mem_map.mpr fun m hm => ⟨m.frame, hbounds hm, letter_partOf hm⟩)
    ⟨_, List.mem_map_of_mem hfirst, hleft ▸ (hbounds hfirst).left⟩
    ⟨_, List.mem_map_of_mem hlast, hright ▸ (hbounds hlast).right⟩

structure SetAs (w : Word) (s : Segment) : Prop where
  wellSpaced : w.WellSpaced
  text : s.text = w.text
  bounds : w.frame.Bounds s.box
  size : s.size = 10
  orientation : s.orientation = .east

theorem setAs_of_reads (h : w.WellSpaced) {s : Segment} (hs : Segment.Reads w.glyphs s) :
    w.SetAs s := by
  obtain ⟨htext, hbox, head, hhead, hsize, -, horientation⟩ := hs
  rw [glyphs_eq] at hhead
  obtain ⟨m, -, rfl⟩ := List.mem_map.mp (List.mem_of_mem_head? hhead)
  exact ⟨h, htext.trans w.join_glyphs, bounds_hull h hbox, hsize, horientation⟩

theorem WellSpaced.row_lt (h : w.WellSpaced) : 20 + 40 * w.row < 2 ^ 54 := by
  obtain ⟨m, hm, -⟩ := w.exists_letter h.length_pos
  have hlimit := (Letter.bounds (h.exact_letter hm)).2.2
  simp only [Letter.frame, (h.col_eq hm).1] at hlimit
  exact hlimit

-- ---------------------------------------------------------------------------
-- No paragraphs
-- ---------------------------------------------------------------------------

theorem center_y_near (h : w.WellSpaced) {b : Box} (hb : w.frame.Bounds b) :
    Near (15 + 40 * w.row) b.center.y :=
  near_center_line hb.top hb.bottom h.row_lt

theorem center_y_eq (hrow : w.row = v.row) {a b : Box} (ha : w.frame.Bounds a)
    (hb : v.frame.Bounds b) :
    a.center.y = b.center.y := by
  obtain ⟨-, hatop, -, habottom⟩ := ha
  obtain ⟨-, hbtop, -, hbbottom⟩ := hb
  simp only [frame, hrow] at *
  rw [Box.center, Box.center, hatop.eq hbtop (by omega), habottom.eq hbbottom (by omega)]

/-- The next row is too far off to continue a paragraph. -/
theorem not_continues {s t : Segment} (hs : w.SetAs s) (ht : v.SetAs t) : ¬ s.Continues t := by
  intro hcontinues
  have hahead : s.box.center.y < t.box.center.y := by
    have hahead := hcontinues.ahead
    rwa [hs.orientation] at hahead
  have hsy := center_y_near hs.wellSpaced hs.bounds
  have hty := center_y_near ht.wellSpaced ht.bounds
  have hrow : w.row < v.row := by
    rcases Nat.lt_trichotomy w.row v.row with hlt | heq | hlt
    · exact hlt
    · rw [center_y_eq heq hs.bounds ht.bounds] at hahead
      exact absurd hahead (Binary64.lt_irrefl _)
    · exact absurd (Binary64.lt_trans hahead (hty.lt_near hsy (by omega))) (Binary64.lt_irrefl _)
  have hx := (Binary64.faithful_sub (hs.bounds.left.1.half_sum hs.bounds.right.1)
    (ht.bounds.left.1.half_sum ht.bounds.right.1)).1
  obtain ⟨hfinite, hdistance⟩ := Point.value_dot_north (v := s.box.center.vectorTo t.box.center) hx
    (Binary64.faithful_sub hsy.1 hty.1).1
  have hlimit : (Spacing.lineLimit * 10).isFinite = true ∧ value (Spacing.lineLimit * 10) = 17 := by
    decide +kernel
  have hless := hcontinues.2.2.2.2.2
  rw [hs.size, hs.orientation] at hless
  have hvalue := (Binary64.lt_iff_value_lt hfinite hlimit.1).mp hless
  have hfar := hsy.le_sub hty (k := 38) (by decide) (by push_cast; omega)
  rw [hdistance, hlimit.2] at hvalue
  push_cast at hfar
  exact absurd (hfar.trans_lt hvalue) (by norm_num)

structure Printed (w : Word) (b : Block) : Prop where
  wellSpaced : w.WellSpaced
  text : b.text = w.text
  bounds : w.frame.Bounds b.box

end Word

namespace Grid

variable {g : Grid} (h : ∀ w ∈ g.words, w.WellSpaced)

include h

theorem segments_setAs {index : PointTree.Index Nat}
    (hindex : Glyph.index? g.page.box g.page.glyphs = some index) :
    List.Forall₂ Word.SetAs g.words
      (Segment.ofLinks g.page.glyphs (Glyph.links .standard g.page.glyphs index)) := by
  have hglyphs : g.page.glyphs = (g.words.map Word.glyphs).flatten.toArray := rfl
  have hlines : (g.words.map Word.letters).map (·.map Letter.glyph) = g.words.map Word.glyphs := by
    rw [List.map_map]
    exact List.map_congr_left fun w _ => w.glyphs_eq.symm
  have hclasses := Partition.classes_eq_runs (confined_links h hindex)
  rw [← Partition.runs_map Letter.glyph, hlines] at hclasses
  have hlength :
      (g.words.map Word.letters).flatten.length = (g.words.map Word.glyphs).flatten.length := by
    rw [← hlines, ← List.map_flatten, List.length_map]
  rw [hlength] at hclasses
  have hreads := Segment.ofLinks_runs
    (List.forall_mem_map.mpr fun w hw => Word.line_glyphs (h w hw)) hclasses
  rw [List.forall₂_map_left_iff] at hreads
  refine ((List.forall₂_and_left _ _).mpr ⟨h, hreads⟩).imp fun w s ⟨hw, hs⟩ => ?_
  exact Word.setAs_of_reads hw hs

theorem stacked_printed {q : Page} {o : Outcome}
    (hq : g.page.cluster? .standard [] = some (q, o)) :
    List.Forall₂ Word.Printed g.words (q.stacked []) := by
  obtain ⟨index, hindex, hclusters⟩ := Page.exists_clusters hq
  have hsegments : List.Forall₂ Word.SetAs g.words q.segments.toList := by
    rw [hclusters.segments_eq]
    exact segments_setAs h hindex
  have hapart : ∀ s ∈ q.segments, ∀ t ∈ q.segments, ¬ s.Continues t := by
    intro s hs t ht
    obtain ⟨w, -, hw⟩ := exists_of_mem_forall₂ hsegments (Array.mem_toList_iff.mpr hs)
    obtain ⟨v, -, hv⟩ := exists_of_mem_forall₂ hsegments (Array.mem_toList_iff.mpr ht)
    exact Word.not_continues hw hv
  refine forall₂_comp hsegments (Block.ofSegments_single hapart) fun w s b hs hb => ?_
  exact ⟨hs.wellSpaced, hb.text.trans hs.text, hb.box ▸ hs.bounds⟩

end Grid

end GlyphTable
