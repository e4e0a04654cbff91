import GlyphTable.Page
import GlyphTable.Proofs.PointTree.Sparse
import GlyphTable.Proofs.Regrouping

/-!
# Texts laid out in a grid

A grid of texts is laid out character by character, row by row, in columns that leave more room
than a text of 20 characters takes up. On a line every character then has a number of its own, its
slot, 25 to a column, and one character is next to another exactly if it follows in the same text.
-/

namespace GlyphTable

open Binary64 (Whole Near)

-- ---------------------------------------------------------------------------
-- Frames
-- ---------------------------------------------------------------------------

structure Frame where
  left : Nat
  top : Nat
  right : Nat
  bottom : Nat
deriving DecidableEq, Repr

namespace Frame

def box (f : Frame) : Box :=
  ⟨.ofNat f.left, .ofNat f.top, .ofNat f.right, .ofNat f.bottom⟩

def Exact (f : Frame) : Prop :=
  Binary64.Exact f.left ∧ Binary64.Exact f.top ∧ Binary64.Exact f.right ∧ Binary64.Exact f.bottom

instance (f : Frame) : Decidable f.Exact :=
  inferInstanceAs (Decidable (_ ∧ _))

structure Bounds (f : Frame) (b : Box) : Prop where
  left : Whole f.left b.left
  top : Whole f.top b.top
  right : Whole f.right b.right
  bottom : Whole f.bottom b.bottom

theorem Exact.bounds_box {f : Frame} (h : f.Exact) (hleft : f.left ≤ 2 ^ 54) (htop : f.top ≤ 2 ^ 54)
    (hright : f.right ≤ 2 ^ 54) (hbottom : f.bottom ≤ 2 ^ 54) : f.Bounds f.box :=
  ⟨h.1.whole hleft, h.2.1.whole htop, h.2.2.1.whole hright, h.2.2.2.whole hbottom⟩

theorem Bounds.moderate {f : Frame} {b : Box} (h : f.Bounds b) : b.Moderate :=
  ⟨h.left.1, h.top.1, h.right.1, h.bottom.1⟩

theorem Bounds.finite {f : Frame} {b : Box} (h : f.Bounds b) (hwidth : f.left ≤ f.right)
    (hheight : f.top ≤ f.bottom) : b.Finite :=
  ⟨⟨(h.left.le_iff h.right).mpr hwidth, (h.top.le_iff h.bottom).mpr hheight⟩, h.left.1.1, h.top.1.1,
    h.right.1.1, h.bottom.1.1⟩

structure PartOf (f line : Frame) : Prop where
  left : line.left ≤ f.left
  top : f.top = line.top
  right : f.right ≤ line.right
  bottom : f.bottom = line.bottom

theorem bounds_of_isHull {line : Frame} {boxes : List Box} {b : Box} (h : Box.IsHull boxes b)
    (hparts : ∀ a ∈ boxes, ∃ f : Frame, f.Bounds a ∧ f.PartOf line)
    (hfirst : ∃ a ∈ boxes, Whole line.left a.left) (hlast : ∃ a ∈ boxes, Whole line.right a.right) :
    line.Bounds b := by
  obtain ⟨⟨l, hl, hleft⟩, ⟨t, ht, htop⟩, ⟨r, hr, hright⟩, ⟨c, hc, hbottom⟩, hleftle, -,
    hrightle, -⟩ := h
  obtain ⟨first, hfirst, hfirstleft⟩ := hfirst
  obtain ⟨last, hlast, hlastright⟩ := hlast
  refine ⟨?_, ?_, ?_, ?_⟩
  · obtain ⟨f, hf, hpart⟩ := hparts l hl
    have hle := hleftle first hfirst
    rw [← hleft] at hle ⊢
    rw [← Nat.le_antisymm ((hf.left.le_iff hfirstleft).mp hle) hpart.left]
    exact hf.left
  · obtain ⟨f, hf, hpart⟩ := hparts t ht
    rw [← htop, ← hpart.top]
    exact hf.top
  · obtain ⟨f, hf, hpart⟩ := hparts r hr
    have hle := hrightle last hlast
    rw [← hright] at hle ⊢
    rw [Nat.le_antisymm ((hlastright.le_iff hf.right).mp hle) hpart.right]
    exact hf.right
  · obtain ⟨f, hf, hpart⟩ := hparts c hc
    rw [← hbottom, ← hpart.bottom]
    exact hf.bottom

end Frame

-- ---------------------------------------------------------------------------
-- Grids
-- ---------------------------------------------------------------------------

structure Word where
  row : Nat
  col : Nat
  text : String
deriving DecidableEq, Repr

namespace Word

def charFrame (w : Word) (i : Nat) : Frame where
  left := 10 + 150 * w.col + 6 * i
  top := 10 + 40 * w.row
  right := 16 + 150 * w.col + 6 * i
  bottom := 20 + 40 * w.row

def glyphs (w : Word) : List Glyph :=
  w.text.toList.zipIdx.map fun (char, i) =>
    .ofText (String.singleton char) (w.charFrame i).box 10 .east 0

structure WellSpaced (w : Word) : Prop where
  length_pos : 0 < w.text.length
  length_le : w.text.length ≤ 20
  exact : ∀ i < w.text.length, (w.charFrame i).Exact

instance (w : Word) : Decidable w.WellSpaced :=
  decidable_of_iff
    (0 < w.text.length ∧ w.text.length ≤ 20 ∧ ∀ i < w.text.length, (w.charFrame i).Exact)
    ⟨fun ⟨h, h', h''⟩ => ⟨h, h', h''⟩, fun ⟨h, h', h''⟩ => ⟨h, h', h''⟩⟩

end Word

/-- Texts by rows and columns. A place may be left empty, and rows may differ in length. -/
abbrev Grid := List (List (Option String))

namespace Grid

def wordsOf (row : Nat) (cells : List (Option String)) : List Word :=
  cells.zipIdx.filterMap fun (cell, col) => cell.map (⟨row, col, ·⟩)

def wordRows (g : Grid) : List (List Word) :=
  g.zipIdx.map fun (cells, row) => wordsOf row cells

def words (g : Grid) : List Word :=
  g.wordRows.flatten

def page (g : Grid) : Page :=
  .ofGlyphs 612 792 (g.words.flatMap Word.glyphs).toArray

end Grid

-- ---------------------------------------------------------------------------
-- Words in sequence
-- ---------------------------------------------------------------------------

namespace Grid

theorem row_of_mem_wordsOf {row : Nat} {cells : List (Option String)} {w : Word}
    (h : w ∈ wordsOf row cells) : w.row = row := by
  obtain ⟨⟨cell, col⟩, -, h⟩ := List.mem_filterMap.mp h
  obtain ⟨text, -, rfl⟩ := Option.map_eq_some_iff.mp h
  rfl

theorem wordsOf_pairwise (row : Nat) (cells : List (Option String)) :
    (wordsOf row cells).Pairwise fun w v => w.row = v.row ∧ w.col < v.col := by
  refine List.pairwise_filterMap.mpr ((pairwise_zipIdx cells).imp fun {x y} hlt w hw v hv => ?_)
  obtain ⟨_, -, rfl⟩ := Option.map_eq_some_iff.mp hw
  obtain ⟨_, -, rfl⟩ := Option.map_eq_some_iff.mp hv
  exact ⟨rfl, hlt⟩

theorem wordRows_pairwise (g : Grid) :
    g.wordRows.Pairwise fun row below => ∀ w ∈ row, ∀ v ∈ below, w.row < v.row := by
  refine List.pairwise_map.mpr ((pairwise_zipIdx g).imp fun {x y} hlt w hw v hv => ?_)
  rw [row_of_mem_wordsOf hw, row_of_mem_wordsOf hv]
  exact hlt

theorem wordRows_inside (g : Grid) :
    ∀ row ∈ g.wordRows, row.Pairwise fun w v => w.row = v.row ∧ w.col < v.col := by
  intro row hrow
  obtain ⟨x, -, rfl⟩ := List.mem_map.mp hrow
  exact wordsOf_pairwise x.2 x.1

theorem row_eq_of_mem (g : Grid) {row : List Word} (hrow : row ∈ g.wordRows) {w v : Word}
    (hw : w ∈ row)
    (hv : v ∈ row) : w.row = v.row := by
  obtain ⟨x, -, rfl⟩ := List.mem_map.mp hrow
  exact (row_of_mem_wordsOf hw).trans (row_of_mem_wordsOf hv).symm

theorem words_pairwise (g : Grid) :
    g.words.Pairwise fun w v => w.row < v.row ∨ w.row = v.row ∧ w.col < v.col :=
  List.pairwise_flatten.mpr ⟨fun row hrow => (g.wordRows_inside row hrow).imp .inr,
    g.wordRows_pairwise.imp fun h w hw v hv => .inl (h w hw v hv)⟩

theorem map_text_wordsOf (row : Nat) (cells : List (Option String)) :
    (wordsOf row cells).map (·.text) = cells.filterMap id := by
  have hcells : cells.filterMap id = cells.zipIdx.filterMap (·.1) := by
    conv_lhs => rw [← List.zipIdx_map_fst 0 cells, List.filterMap_map]
    rfl
  rw [wordsOf, List.map_filterMap, hcells]
  refine List.filterMap_congr fun x _ => ?_
  rw [Option.map_map]
  exact Option.map_id'

theorem map_texts_wordRows (g : Grid) :
    g.wordRows.map (·.map (·.text)) = g.map (·.filterMap id) := by
  have hrows : g.map (·.filterMap id) = g.zipIdx.map fun x => x.1.filterMap id := by
    conv_lhs => rw [← List.zipIdx_map_fst 0 g, List.map_map]
    rfl
  rw [wordRows, List.map_map, hrows]
  exact List.map_congr_left fun x _ => map_text_wordsOf x.2 x.1

end Grid

-- ---------------------------------------------------------------------------
-- Letters
-- ---------------------------------------------------------------------------

/-- A character at its place. Slots are as wide as characters, and 25 of them make a column. -/
structure Letter where
  row : Nat
  slot : Nat
  char : Char
deriving DecidableEq, Repr

namespace Letter

def frame (m : Letter) : Frame where
  left := 10 + 6 * m.slot
  top := 10 + 40 * m.row
  right := 16 + 6 * m.slot
  bottom := 20 + 40 * m.row

def glyph (m : Letter) : Glyph :=
  .ofText (String.singleton m.char) m.frame.box 10 .east 0

def Next (m n : Letter) : Prop :=
  n.row = m.row ∧ n.slot = m.slot + 1

def Before (m n : Letter) : Prop :=
  m.row < n.row ∨ m.row = n.row ∧ m.slot < n.slot

theorem bounds {m : Letter} (h : m.frame.Exact) :
    m.frame.Bounds m.frame.box ∧ m.frame.right ≤ 2 ^ 54 ∧ m.frame.bottom < 2 ^ 54 := by
  obtain ⟨hleft, htop, hright, hbottom⟩ := id h
  simp only [frame] at *
  -- Neighbouring edges are not both multiples of four, and the others miss the limit.
  have hl : 10 + 6 * m.slot < 2 ^ 54 := by
    by_contra hfar
    have hleft := hleft.four_dvd (by omega)
    have hright := hright.four_dvd (by omega)
    omega
  have hr : 16 + 6 * m.slot ≤ 2 ^ 54 := by
    by_contra hfar
    have hright := hright.four_dvd (by omega)
    omega
  have ht : 10 + 40 * m.row < 2 ^ 54 := by
    by_contra hfar
    have htop := htop.four_dvd (by omega)
    omega
  have hb : 20 + 40 * m.row < 2 ^ 54 := by omega
  exact ⟨h.bounds_box hl.le ht.le hr hb.le, hr, hb⟩

end Letter

namespace Word

def letters (w : Word) : List Letter :=
  w.text.toList.zipIdx.map fun (char, i) => ⟨w.row, 25 * w.col + i, char⟩

theorem charFrame_eq (w : Word) (i : Nat) (char : Char) :
    w.charFrame i = Letter.frame ⟨w.row, 25 * w.col + i, char⟩ := by
  simp only [charFrame, Letter.frame, Frame.mk.injEq, true_and, and_true]
  omega

theorem glyphs_eq (w : Word) : w.glyphs = w.letters.map Letter.glyph := by
  rw [glyphs, letters, List.map_map]
  refine List.map_congr_left fun (char, i) _ => ?_
  simp only [charFrame_eq w i char]
  rfl

theorem length_letters (w : Word) : w.letters.length = w.text.length := by
  rw [letters, List.length_map, List.length_zipIdx, String.length_toList]

theorem getElem_letters (w : Word) {i : Nat} (hi : i < w.letters.length) :
    w.letters[i].row = w.row ∧ w.letters[i].slot = 25 * w.col + i := by
  simp [letters]

theorem exists_index_of_mem_letters {w : Word} {m : Letter} (h : m ∈ w.letters) :
    m.row = w.row ∧ ∃ i < w.text.length, m.slot = 25 * w.col + i := by
  obtain ⟨i, hi, rfl⟩ := List.getElem_of_mem h
  obtain ⟨hrow, hslot⟩ := w.getElem_letters hi
  exact ⟨hrow, i, w.length_letters ▸ hi, hslot⟩

theorem letters_isChain (w : Word) : w.letters.IsChain Letter.Next := by
  refine List.isChain_iff_getElem.mpr fun i hi => ?_
  obtain ⟨hrow, hslot⟩ := w.getElem_letters (i := i) (by omega)
  obtain ⟨hrow', hslot'⟩ := w.getElem_letters hi
  exact ⟨hrow'.trans hrow.symm, by omega⟩

theorem letters_pairwise (w : Word) : w.letters.Pairwise Letter.Before := by
  refine List.pairwise_iff_getElem.mpr fun i j hi hj hij => ?_
  obtain ⟨hrow, hslot⟩ := w.getElem_letters hi
  obtain ⟨hrow', hslot'⟩ := w.getElem_letters hj
  exact .inr ⟨hrow.trans hrow'.symm, by omega⟩

variable {w v : Word} {m n : Letter}

theorem WellSpaced.exact_letter (h : w.WellSpaced) (hm : m ∈ w.letters) : m.frame.Exact := by
  obtain ⟨hrow, i, hi, hslot⟩ := exists_index_of_mem_letters hm
  have hexact := h.exact i hi
  rw [charFrame_eq w i m.char, ← hrow, ← hslot] at hexact
  exact hexact

theorem WellSpaced.col_eq (h : w.WellSpaced) (hm : m ∈ w.letters) :
    m.row = w.row ∧ 25 * w.col ≤ m.slot ∧ m.slot < 25 * w.col + 20 := by
  obtain ⟨hrow, i, hi, hslot⟩ := exists_index_of_mem_letters hm
  have hlength := h.length_le
  exact ⟨hrow, by omega, by omega⟩

theorem letters_apart (hw : w.WellSpaced) (hv : v.WellSpaced)
    (hbefore : w.row < v.row ∨ w.row = v.row ∧ w.col < v.col) (hm : m ∈ w.letters)
    (hn : n ∈ v.letters) : ¬ m.Next n ∧ ¬ n.Next m ∧ m.Before n := by
  obtain ⟨hrow, hlow, hhigh⟩ := hw.col_eq hm
  obtain ⟨hrow', hlow', hhigh'⟩ := hv.col_eq hn
  simp only [Letter.Next, Letter.Before]
  omega

end Word

namespace Grid

def letters (g : Grid) : List Letter :=
  (g.words.map Word.letters).flatten

theorem glyphs_page (g : Grid) : g.page.glyphs = (g.letters.map Letter.glyph).toArray := by
  have hglyphs : Word.glyphs = fun w => w.letters.map Letter.glyph := funext Word.glyphs_eq
  rw [page, Page.ofGlyphs, letters, List.map_flatten, List.map_map, List.flatMap_def, hglyphs]
  rfl

theorem mem_letters {g : Grid} {m : Letter} : m ∈ g.letters ↔ ∃ w ∈ g.words, m ∈ w.letters := by
  rw [letters, List.mem_flatten]
  simp

section

variable {g : Grid} (h : ∀ w ∈ g.words, w.WellSpaced)

include h

theorem exact_letter {m : Letter} (hm : m ∈ g.letters) : m.frame.Exact := by
  obtain ⟨w, hw, hm⟩ := mem_letters.mp hm
  exact (h w hw).exact_letter hm

theorem letters_pairwise : g.letters.Pairwise Letter.Before := by
  refine List.pairwise_flatten.mpr ⟨List.forall_mem_map.mpr fun w _ => w.letters_pairwise, ?_⟩
  refine List.pairwise_map.mpr (g.words_pairwise.imp_of_mem fun {w v} hw hv hbefore m hm n hn => ?_)
  exact (Word.letters_apart (h w hw) (h v hv) hbefore hm hn).2.2

theorem index_eq {i j : Nat} {m n : Letter} (hm : g.letters[i]? = some m)
    (hn : g.letters[j]? = some n)
    (hrow : m.row = n.row) (hslot : m.slot = n.slot) : i = j := by
  obtain ⟨hi, rfl⟩ := List.getElem?_eq_some_iff.mp hm
  obtain ⟨hj, rfl⟩ := List.getElem?_eq_some_iff.mp hn
  have hpairwise := List.pairwise_iff_getElem.mp (letters_pairwise h)
  simp only [Letter.Before] at hpairwise
  rcases Nat.lt_trichotomy i j with hlt | heq | hlt
  · have hbefore := hpairwise i j hi hj hlt
    omega
  · exact heq
  · have hbefore := hpairwise j i hj hi hlt
    omega

end

end Grid

end GlyphTable
