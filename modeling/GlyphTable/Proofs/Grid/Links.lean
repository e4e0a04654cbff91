import GlyphTable.Proofs.Geometry.Projection
import GlyphTable.Proofs.Grid.Layout
import GlyphTable.Proofs.Partition.Runs
import GlyphTable.Proofs.Segment.Scan

/-!
# Links in a grid

In a grid of texts one character stands ahead of another on its line exactly if it is the next of
the same text (`Letter.ahead?_iff`): slots are 6 wide and the margin is 9, and lines are 40 apart.
Three characters never come so close that the tree of their centers would be divided without end
(`Grid.exists_index?`). So the links are confined to the texts (`Grid.confined_links`).
-/

namespace GlyphTable

open Binary64 (Whole Near Moderate value)

-- ---------------------------------------------------------------------------
-- Distances along the axes
-- ---------------------------------------------------------------------------

section

variable {v : Point} (hx : v.x.isFinite = true) (hy : v.y.isFinite = true)

include hx hy

theorem Point.value_dot_east :
    (v.dot ⟨1, 0⟩).isFinite = true ∧ value (v.dot ⟨1, 0⟩) = value v.x :=
  Point.value_dot_abscissa Binary64.isUnit_one hx hy

theorem Point.value_dot_north :
    (v.dot ⟨0, 1⟩).isFinite = true ∧ value (v.dot ⟨0, 1⟩) = value v.y :=
  Point.value_dot_ordinate Binary64.isUnit_one hx hy

end

theorem near_center_line {row : Nat} {top bottom : Float} (htop : Whole (10 + 40 * row) top)
    (hbottom : Whole (20 + 40 * row) bottom) (hrow : 20 + 40 * row < 2 ^ 54) :
    Near (15 + 40 * row) ((top + bottom) / 2) := by
  have hnear := htop.half_sum hbottom (k := 7 + 20 * row) (by omega) (by omega)
  rwa [show 2 * (7 + 20 * row) + 1 = 15 + 40 * row by omega] at hnear

namespace Letter

variable {m n : Letter}

theorem near_center (h : m.frame.Exact) :
    Near (13 + 6 * m.slot) m.glyph.center.x ∧ Near (15 + 40 * m.row) m.glyph.center.y := by
  obtain ⟨⟨hleft, htop, hright, hbottom⟩, hslot, hrow⟩ := bounds h
  simp only [frame] at hslot hrow
  have hx := hleft.half_sum hright (k := 6 + 3 * m.slot) (by simp only [frame]; omega) (by omega)
  rw [show 2 * (6 + 3 * m.slot) + 1 = 13 + 6 * m.slot by omega] at hx
  exact ⟨hx, near_center_line htop hbottom hrow⟩

theorem center_x_eq (h : m.slot = n.slot) : m.glyph.center.x = n.glyph.center.x := by
  change (m.frame.box.left + m.frame.box.right) / 2 = (n.frame.box.left + n.frame.box.right) / 2
  simp only [frame, Frame.box, h]

theorem dot_lt_dot (hm : m.frame.Exact) (hn : n.frame.Exact) (hslot : m.slot < n.slot) :
    m.glyph.center.dot ⟨1, 0⟩ < n.glyph.center.dot ⟨1, 0⟩ := by
  obtain ⟨hmx, hmy⟩ := near_center hm
  obtain ⟨hnx, hny⟩ := near_center hn
  obtain ⟨hmfinite, hmvalue⟩ := Point.value_dot_east hmx.1.1 hmy.1.1
  obtain ⟨hnfinite, hnvalue⟩ := Point.value_dot_east hnx.1.1 hny.1.1
  rw [Binary64.lt_iff_value_lt hmfinite hnfinite, hmvalue, hnvalue,
    ← Binary64.lt_iff_value_lt hmx.1.1 hnx.1.1]
  exact hmx.lt_near hnx (by omega)

theorem ahead?_iff_offset (hm : m.frame.Exact) (hn : n.frame.Exact) :
    (∃ distance, m.glyph.ahead? .standard n.glyph = some distance) ↔
      0 < value (n.glyph.center.x - m.glyph.center.x) ∧
        value (n.glyph.center.x - m.glyph.center.x) < 9 ∧
        |value (n.glyph.center.y - m.glyph.center.y)| <
          value (n.glyph.center.x - m.glyph.center.x) := by
  have hx := (Binary64.faithful_sub (near_center hm).1.1 (near_center hn).1.1).1
  have hy := (Binary64.faithful_sub (near_center hm).2.1 (near_center hn).2.1).1
  obtain ⟨hahead, haheadvalue⟩ :=
    Point.value_dot_east (v := m.glyph.center.vectorTo n.glyph.center) hx hy
  obtain ⟨haside, hasidevalue⟩ :=
    Point.value_dot_north (v := m.glyph.center.vectorTo n.glyph.center) hx hy
  have hmargin : (Spacing.standard.glyphMargin * 10).isFinite = true ∧
      value (Spacing.standard.glyphMargin * 10) = 9 := by
    decide +kernel
  have hpos := Binary64.lt_iff_value_lt (a := 0) rfl hahead
  have hlimit := Binary64.lt_iff_value_lt hahead hmargin.1
  have hdiagonal := Binary64.lt_iff_value_lt (Binary64.isFinite_abs haside) hahead
  rw [haheadvalue] at hpos
  rw [haheadvalue, hmargin.2] at hlimit
  rw [Binary64.value_abs, haheadvalue, hasidevalue] at hdiagonal
  simp only [Glyph.ahead?, Option.ite_none_right_eq_some, exists_and_left]
  constructor
  · rintro ⟨⟨-, hpos', hlimit', hdiagonal'⟩, -⟩
    exact ⟨hpos.mp hpos', hlimit.mp hlimit', hdiagonal.mp hdiagonal'⟩
  · rintro ⟨hpos', hlimit', hdiagonal'⟩
    exact ⟨⟨rfl, hpos.mpr hpos', hlimit.mpr hlimit', hdiagonal.mpr hdiagonal'⟩, _, rfl⟩

/-- A character stands ahead of another exactly in the slot after it. -/
theorem ahead?_iff (hm : m.frame.Exact) (hn : n.frame.Exact) :
    (∃ distance, m.glyph.ahead? .standard n.glyph = some distance) ↔ m.Next n := by
  obtain ⟨hmx, hmy⟩ := near_center hm
  obtain ⟨hnx, hny⟩ := near_center hn
  rw [ahead?_iff_offset hm hn]
  constructor
  · rintro ⟨hpos, hlimit, hdiagonal⟩
    obtain ⟨hup, hdown⟩ := abs_lt.mp hdiagonal
    have hrow : n.row = m.row := by
      by_contra hrow
      rcases Nat.lt_or_gt_of_ne hrow with hlt | hlt
      · have hfar := hmy.sub_le hny (k := -38) (by decide) (by push_cast; omega)
        push_cast at hfar
        linarith
      · have hfar := hmy.le_sub hny (k := 38) (by decide) (by push_cast; omega)
        push_cast at hfar
        linarith
    refine ⟨hrow, ?_⟩
    by_contra hslot
    rcases Nat.lt_trichotomy n.slot m.slot with hlt | heq | hlt
    · have hbehind := hmx.sub_le hnx (k := -4) (by decide) (by push_cast; omega)
      push_cast at hbehind
      linarith
    · rw [center_x_eq heq, Binary64.value_sub_self hmx.1] at hpos
      exact absurd hpos (lt_irrefl _)
    · have hfar := hmx.le_sub hnx (k := 10) (by decide) (by push_cast; omega)
      push_cast at hfar
      linarith
  · rintro ⟨hrow, hslot⟩
    have hlow := hmx.le_sub hnx (k := 4) (by decide) (by push_cast; omega)
    have hhigh := hmx.sub_le hnx (k := 8) (by decide) (by push_cast; omega)
    have hup := hmy.le_sub hny (k := -2) (by decide) (by push_cast; omega)
    have hdown := hmy.sub_le hny (k := 2) (by decide) (by push_cast; omega)
    push_cast at hlow hhigh hup hdown
    exact ⟨by linarith, by linarith, abs_lt.mpr ⟨by linarith, by linarith⟩⟩

theorem le_of_close (hm : m.frame.Exact) (hn : n.frame.Exact)
    (hx : value n.glyph.center.x - value m.glyph.center.x ≤ 8)
    (hy : value n.glyph.center.y - value m.glyph.center.y ≤ 8) :
    n.row ≤ m.row ∧ n.slot ≤ m.slot + 1 := by
  obtain ⟨⟨-, hmx⟩, -, hmy⟩ := near_center hm
  obtain ⟨⟨-, hnx⟩, -, hny⟩ := near_center hn
  obtain ⟨-, hmx⟩ := abs_le.mp hmx
  obtain ⟨-, hmy⟩ := abs_le.mp hmy
  obtain ⟨hnx, -⟩ := abs_le.mp hnx
  obtain ⟨hny, -⟩ := abs_le.mp hny
  push_cast at hmx hmy hnx hny
  have hslot : (6 * n.slot : ℚ) ≤ (6 * m.slot + 10 : Nat) := by
    push_cast
    linarith
  have hrow : (40 * n.row : ℚ) ≤ (40 * m.row + 10 : Nat) := by
    push_cast
    linarith
  have hslot' : 6 * n.slot ≤ 6 * m.slot + 10 := by exact_mod_cast hslot
  have hrow' : 40 * n.row ≤ 40 * m.row + 10 := by exact_mod_cast hrow
  omega

end Letter

namespace Grid

theorem box_page (g : Grid) : g.page.box = ⟨0, 0, 612, 792⟩ := by
  change Box.mk 0 0 (Binary64.greater 612 0) (Binary64.greater 792 0) = _
  decide +kernel

theorem finite_page (g : Grid) : g.page.box.Finite := by
  rw [box_page]
  decide +kernel

theorem moderate_page (g : Grid) : g.page.box.Moderate := by
  rw [box_page]
  exact ⟨by decide +kernel, by decide +kernel, by decide +kernel, by decide +kernel⟩

variable {g : Grid} (h : ∀ w ∈ g.words, w.WellSpaced)

theorem getElem?_glyphs {i : Nat} {c : Glyph} :
    g.page.glyphs[i]? = some c ↔ ∃ m, g.letters[i]? = some m ∧ m.glyph = c := by
  rw [glyphs_page, List.getElem?_toArray, List.getElem?_map, Option.map_eq_some_iff]

include h

theorem exact_of_getElem? {i : Nat} {m : Letter} (hm : g.letters[i]? = some m) : m.frame.Exact :=
  exact_letter h (List.mem_of_getElem? hm)

theorem follows_iff {i j : Nat} : Glyph.Follows .standard g.page.glyphs i j ↔
    ∃ m n, g.letters[i]? = some m ∧ g.letters[j]? = some n ∧ m.Next n := by
  constructor
  · rintro ⟨c, d, distance, hc, hd, -, hahead, -⟩
    obtain ⟨m, hm, rfl⟩ := getElem?_glyphs.mp hc
    obtain ⟨n, hn, rfl⟩ := getElem?_glyphs.mp hd
    exact ⟨m, n, hm, hn,
      (Letter.ahead?_iff (exact_of_getElem? h hm) (exact_of_getElem? h hn)).mp ⟨distance, hahead⟩⟩
  · rintro ⟨m, n, hm, hn, hnext⟩
    have hexact := exact_of_getElem? h hm
    obtain ⟨distance, hahead⟩ := (Letter.ahead?_iff hexact (exact_of_getElem? h hn)).mpr hnext
    refine ⟨m.glyph, n.glyph, distance, getElem?_glyphs.mpr ⟨m, hm, rfl⟩,
      getElem?_glyphs.mpr ⟨n, hn, rfl⟩, ?_, hahead, fun k e other _ he hother => ?_⟩
    · rintro rfl
      obtain rfl := Option.some.inj (hm.symm.trans hn)
      exact absurd hnext.2 (by omega)
    · -- Nothing else stands in the next slot.
      obtain ⟨l, hl, rfl⟩ := getElem?_glyphs.mp he
      have hnext' := (Letter.ahead?_iff hexact (exact_of_getElem? h hl)).mp ⟨other, hother⟩
      obtain rfl := index_eq h hn hl (hnext.1.trans hnext'.1.symm) (hnext.2.trans hnext'.2.symm)
      obtain rfl := Option.some.inj (hn.symm.trans hl)
      obtain rfl := Option.some.inj (hahead.symm.trans hother)
      exact ⟨Binary64.le_refl (Glyph.isNumber_of_ahead? hahead), fun _ => Nat.le_refl _⟩

-- ---------------------------------------------------------------------------
-- The tree of centers
-- ---------------------------------------------------------------------------

theorem box_bounds {c : Glyph} (hc : c ∈ g.page.glyphs) : c.box.Finite ∧ c.box.Moderate := by
  obtain ⟨i, hi⟩ := Array.getElem?_of_mem hc
  obtain ⟨m, hm, rfl⟩ := getElem?_glyphs.mp hi
  have hbounds := (Letter.bounds (exact_of_getElem? h hm)).1
  refine ⟨hbounds.finite ?_ ?_, hbounds.moderate⟩ <;> simp only [Letter.frame] <;> omega

theorem region_moderate :
    (g.page.glyphs.toList.foldl (fun region c => region.join c.box) g.page.box).Moderate := by
  refine (Glyph.region_isHull (finite_page g) fun c hc => (box_bounds h hc).1).moderate ?_
  refine List.forall_mem_cons.mpr ⟨moderate_page g, List.forall_mem_map.mpr fun c hc => ?_⟩
  exact (box_bounds h (Array.mem_toList_iff.mp hc)).2

theorem neighbours_of_close {a b : Point × Nat} {m n : Letter} (hm : g.letters[a.2]? = some m)
    (hn : g.letters[b.2]? = some n) (ha : a.1 = m.glyph.center)
    (hb : b.1 = n.glyph.center) (hne : a ≠ b)
    (hab : value b.1.x - value a.1.x ≤ 8 ∧ value b.1.y - value a.1.y ≤ 8)
    (hba : value a.1.x - value b.1.x ≤ 8 ∧ value a.1.y - value b.1.y ≤ 8) :
    m.slot = n.slot + 1 ∨ n.slot = m.slot + 1 := by
  rw [ha, hb] at hab hba
  obtain ⟨hrow, hslot⟩ :=
    Letter.le_of_close (exact_of_getElem? h hm) (exact_of_getElem? h hn) hab.1 hab.2
  obtain ⟨hrow', hslot'⟩ :=
    Letter.le_of_close (exact_of_getElem? h hn) (exact_of_getElem? h hm) hba.1 hba.2
  by_contra hfar
  have hindex := index_eq h hm hn (by omega) (by omega)
  rw [hindex] at hm
  obtain rfl := Option.some.inj (hm.symm.trans hn)
  exact hne (Prod.ext (ha.trans hb.symm) hindex)

/-- The tree of the centers is divided to an end: of any three, two are not close. -/
theorem exists_index? : ∃ index, Glyph.index? g.page.box g.page.glyphs = some index := by
  refine PointTree.exists_insertAll?_of_sparse (region_moderate h) fun few hfew hlength => ?_
  obtain ⟨few', hperm, hsublist⟩ := hfew
  have hnodup : few.Nodup := by
    refine hperm.nodup_iff.mp (hsublist.nodup (List.Nodup.of_map (·.2) ?_))
    rw [List.map_map]
    exact (List.zipIdx_map_snd 0 g.page.glyphs.toList) ▸ List.nodup_range'
  have hentry : ∀ x ∈ few, ∃ m, g.letters[x.2]? = some m ∧ x.1 = m.glyph.center := by
    intro x hx
    obtain ⟨⟨c, i⟩, hc, rfl⟩ := List.mem_map.mp (hsublist.subset (hperm.mem_iff.mpr hx))
    rw [List.mem_zipIdx_iff_getElem?, Array.getElem?_toList] at hc
    obtain ⟨m, hm, rfl⟩ := getElem?_glyphs.mp hc
    exact ⟨m, hm, rfl⟩
  obtain ⟨a, b, c, rest, rfl⟩ : ∃ a b c rest, few = a :: b :: c :: rest := by
    match few, hlength with
    | a :: b :: c :: rest, _ => exact ⟨a, b, c, rest, rfl⟩
  by_contra hclose
  push Not at hclose
  simp only [List.nodup_cons, List.mem_cons, not_or] at hnodup
  simp only [List.forall_mem_cons] at hclose hentry
  obtain ⟨⟨l, hl, hla⟩, ⟨m, hm, hmb⟩, ⟨n, hn, hnc⟩, -⟩ := hentry
  obtain ⟨⟨-, hab, hac, -⟩, ⟨hba, -, hbc, -⟩, ⟨hca, hcb, -⟩, -⟩ := hclose
  have hlm := neighbours_of_close h hl hm hla hmb hnodup.1.1 hab hba
  have hln := neighbours_of_close h hl hn hla hnc hnodup.1.2.1 hac hca
  have hmn := neighbours_of_close h hm hn hmb hnc hnodup.2.1.1 hbc hcb
  omega

-- ---------------------------------------------------------------------------
-- Links
-- ---------------------------------------------------------------------------

variable {index : PointTree.Index Nat} (hindex : Glyph.index? g.page.box g.page.glyphs = some index)

include hindex

theorem mem_links {i j : Nat} : (i, j) ∈ Glyph.links .standard g.page.glyphs index ↔
    ∃ m n, g.letters[i]? = some m ∧ g.letters[j]? = some n ∧ m.Next n := by
  rw [Glyph.links_eq_scan Spacing.ofMargin_standard (finite_page g) (fun c hc =>
    (box_bounds h hc).1) hindex,
    ← follows_iff h, ← Glyph.follower?_eq_some_iff, Glyph.linked, List.mem_filterMap]
  constructor
  · rintro ⟨k, -, hk⟩
    obtain ⟨l, hl, heq⟩ := Option.map_eq_some_iff.mp hk
    obtain ⟨rfl, rfl⟩ := Prod.mk.inj heq
    exact hl
  · intro hj
    obtain ⟨c, -, -, hc, -⟩ := Glyph.follower?_eq_some_iff.mp hj
    exact ⟨i, List.mem_range.mpr (Array.getElem?_eq_some_iff.mp hc).1, by rw [hj]; rfl⟩

theorem confined_links : Partition.Confined Letter.Next (g.words.map Word.letters)
    (Glyph.links .standard g.page.glyphs index) := by
  refine ⟨List.forall_mem_map.mpr fun w hw hnil => ?_,
    List.forall_mem_map.mpr fun w _ => w.letters_isChain,
    List.pairwise_map.mpr (g.words_pairwise.imp_of_mem fun {w v} hw hv hbefore m hm n hn => ?_),
    fun e he => (mem_links h hindex).mp he,
    fun i m n hm hn hnext => (mem_links h hindex).mpr ⟨m, n, hm, hn, hnext⟩⟩
  · have hlength := w.length_letters
    rw [hnil] at hlength
    exact absurd hlength (Nat.ne_of_lt (h w hw).length_pos)
  · obtain ⟨hnext, hback, -⟩ := Word.letters_apart (h w hw) (h v hv) hbefore hm hn
    exact ⟨hnext, hback⟩

end Grid

end GlyphTable
