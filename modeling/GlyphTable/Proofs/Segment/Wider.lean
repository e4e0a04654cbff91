import GlyphTable.Proofs.Segment.Coverage
import GlyphTable.Proofs.Segment.Trees

/-!
# A wider margin only joins

With a wider margin more glyphs stand on the line of a glyph, all of them further ahead than
those that stood there before. So a glyph that had a follower keeps it, and the links of a
narrow margin are those of a wider one that are short enough (`Glyph.follows_iff_wider`).
`Segment.ofGlyphs_wider` says what comes of it: what was in one segment stays in one.
-/

namespace GlyphTable

theorem Partition.Components.subset_of_edges {n : Nat} {edges edges' : List (Nat × Nat)}
    {classes classes' : List (List Nat)} (h : Components n edges classes)
    (h' : Components n edges' classes') (hedges : edges ⊆ edges') {c : List Nat}
    (hc : c ∈ classes) :
    ∃ d ∈ classes', c ⊆ d := by
  obtain ⟨i, hi⟩ := List.exists_mem_of_ne_nil c (h.nonempty c hc)
  obtain ⟨d, hd, hid⟩ := h'.cover i (h.lt_of_mem hc i hi)
  refine ⟨d, hd, fun j hj => (h'.mem_iff d hd i hid j).mpr ⟨h.lt_of_mem hc j hj, ?_⟩⟩
  exact ((h.mem_iff c hc i hi j).mp hj).2.mono fun _ _ he => hedges he

theorem Spacing.limit_le_limit {margin margin' : Float} {s s' : Spacing}
    (hs : ofMargin margin = .ok s)
    (hs' : ofMargin margin' = .ok s') (hle : margin ≤ margin') {size : Float}
    (h : 0 < s.glyphMargin * size) : s.glyphMargin * size ≤ s'.glyphMargin * size := by
  obtain ⟨hfinite, hpos, rfl⟩ := eq_of_ofMargin hs
  obtain ⟨hfinite', -, rfl⟩ := eq_of_ofMargin hs'
  exact Binary64.mul_le_mul_right hfinite hfinite' hpos hle (Binary64.pos_of_mul_pos hpos hfinite h)

namespace Glyph

def Within (s : Spacing) (c d : Glyph) : Prop :=
  (c.center.vectorTo d.center).dot c.orientation.direction < s.glyphMargin * c.size

section

variable {margin margin' : Float} {s s' : Spacing} (hs : Spacing.ofMargin margin = .ok s)
  (hs' : Spacing.ofMargin margin' = .ok s') (hle : margin ≤ margin')
    {glyphs : Array Glyph} {i j : Nat}

include hs hs' hle

/-- What stands on the line of a glyph is what does so with the wider margin, if it is near
enough. -/
theorem ahead?_eq_some_iff_wider {c d : Glyph} {ahead : Float} :
    c.ahead? s d = some ahead ↔ c.ahead? s' d = some ahead ∧ c.Within s d := by
  simp only [ahead?, Option.ite_none_right_eq_some, Within]
  constructor
  · rintro ⟨⟨horientation, hpos, hlimit, haside⟩, heq⟩
    have hlimits := Spacing.limit_le_limit hs hs' hle (Binary64.lt_trans hpos hlimit)
    exact ⟨⟨⟨horientation, hpos, Binary64.lt_of_lt_of_le hlimit hlimits, haside⟩, heq⟩, hlimit⟩
  · rintro ⟨⟨⟨horientation, hpos, -, haside⟩, heq⟩, hlimit⟩
    exact ⟨⟨horientation, hpos, hlimit, haside⟩, heq⟩

/-- The follower is that of the wider margin, if it is near enough. -/
theorem follows_iff_wider :
    Follows s glyphs i j ↔
      Follows s' glyphs i j ∧ ∃ c ∈ glyphs[i]?, ∃ d ∈ glyphs[j]?, c.Within s d := by
  have hwider {c d : Glyph} {ahead : Float} :
      c.ahead? s d = some ahead ↔ c.ahead? s' d = some ahead ∧ c.Within s d :=
        ahead?_eq_some_iff_wider hs hs' hle
  constructor
  · rintro ⟨c, d, ahead, hc, hd, hne, hahead, hleast⟩
    obtain ⟨hahead', hwithin⟩ := hwider.mp hahead
    refine ⟨⟨c, d, ahead, hc, hd, hne, hahead', fun k e distance hk he hdistance => ?_⟩, c, hc,
      d, hd, hwithin⟩
    by_cases hnear : c.Within s e
    · exact hleast k e distance hk he (hwider.mpr ⟨hdistance, hnear⟩)
    · -- What has come into view is beyond the limit that the follower is within.
      simp only [ahead?, Option.ite_none_right_eq_some, Option.some.injEq] at hahead' hdistance
      obtain ⟨⟨-, hpos, -⟩, rfl⟩ := hdistance
      obtain ⟨-, rfl⟩ := hahead'
      have hbeyond := (Binary64.lt_or_le (Binary64.lt_iff.mp hpos).2.1
        (Binary64.lt_iff.mp hwithin).2.1).resolve_left hnear
      have hlt := Binary64.lt_of_lt_of_le hwithin hbeyond
      exact ⟨Binary64.le_of_lt hlt,
        fun hback => absurd (Binary64.lt_of_lt_of_le hlt hback) (Binary64.lt_irrefl _)⟩
  · rintro ⟨⟨c, d, ahead, hc, hd, hne, hahead, hleast⟩, c', hc', d', hd', hwithin⟩
    obtain rfl := Option.some.inj (hc.symm.trans hc')
    obtain rfl := Option.some.inj (hd.symm.trans hd')
    refine ⟨c, d, ahead, hc, hd, hne, hwider.mpr ⟨hahead, hwithin⟩,
      fun k e distance hk he hdistance => ?_⟩
    exact hleast k e distance hk he (hwider.mp hdistance).1

end

end Glyph

namespace Segment

theorem exists_ofMembers?_of_subset {glyphs : Array Glyph} {c d : List Nat} (hcd : c ⊆ d)
    (hne : c ≠ [])
    (hlt : ∀ i ∈ d, i < glyphs.size) {g : Segment} (hg : ofMembers? glyphs c = some g) :
    ∃ k, ofMembers? glyphs d = some k := by
  refine Option.ne_none_iff_exists'.mp fun hnone => ?_
  have hd : d ≠ [] := by
    rintro rfl
    exact hne (List.subset_nil.mp hcd)
  have hempty := (ofMembers?_eq_none_iff hd hlt).mp hnone
  have hc := (ofMembers?_eq_none_iff hne fun i hi => hlt i (hcd hi)).mpr fun i hi =>
    hempty i (hcd hi)
  rw [hc] at hg
  cases hg

theorem ofLinks_subset {glyphs : Array Glyph} {links links' : List (Nat × Nat)}
    (hlinks : links ⊆ links')
    (h : ∀ e ∈ links', e.1 < glyphs.size ∧ e.2 < glyphs.size) {g : Segment}
    (hg : g ∈ ofLinks glyphs links) :
    ∃ k ∈ ofLinks glyphs links', g.glyphs ⊆ k.glyphs := by
  have hbefore : ∀ e ∈ links, e.1 < glyphs.size ∧ e.2 < glyphs.size := fun e he => h e (hlinks he)
  have hcomponents := Partition.ofEdges_components hbefore
  have hcomponents' := Partition.ofEdges_components h
  obtain ⟨c, hc, hgc, hperm⟩ := exists_class_of_mem_ofLinks hbefore hg
  obtain ⟨d, hd, hcd⟩ := hcomponents.subset_of_edges hcomponents' hlinks hc
  have hlt := hcomponents'.lt_of_mem hd
  obtain ⟨k, hk⟩ := exists_ofMembers?_of_subset hcd (hcomponents.nonempty c hc) hlt hgc
  refine ⟨k, mem_sortStably.mpr (List.mem_filterMap.mpr ⟨d, hd, hk⟩), fun i hi => ?_⟩
  exact (glyphs_perm hlt hk).mem_iff.mpr (hcd (hperm.mem_iff.mp hi))

/-- As long as the division of the tree ends, a wider margin leaves every glyph the follower that
it had, and so every class of linked glyphs together, and every segment. The followers of the
narrower margin are those of the wider one that are within it. -/
theorem ofGlyphs_wider {margin margin' : Float} {s s' : Spacing}
    (hs : Spacing.ofMargin margin = .ok s)
    (hs' : Spacing.ofMargin margin' = .ok s') (hle : margin ≤ margin') {page : Box}
    (hpage : page.Finite) {glyphs : Array Glyph} (hglyphs : ∀ g ∈ glyphs, g.box.Finite)
    {index : PointTree.Index Nat} (hindex : Glyph.index? page glyphs = some index) :
    (∀ i j, Glyph.followerIn? s glyphs index i = some j ↔
      Glyph.followerIn? s' glyphs index i = some j ∧
        ∃ c ∈ glyphs[i]?, ∃ d ∈ glyphs[j]?, c.Within s d) ∧
    (∀ c ∈ (Partition.ofEdges glyphs.size (Glyph.links s glyphs index)).classes,
      ∃ d ∈ (Partition.ofEdges glyphs.size (Glyph.links s' glyphs index)).classes, c ⊆ d) ∧
    ∃ segments segments', ofGlyphs? s page glyphs = some segments ∧
      ofGlyphs? s' page glyphs = some segments' ∧
      ∀ g ∈ segments, ∃ k ∈ segments', g.glyphs ⊆ k.glyphs := by
  have hfollower (i j : Nat) : Glyph.followerIn? s glyphs index i = some j ↔
      Glyph.followerIn? s' glyphs index i = some j ∧
        ∃ c ∈ glyphs[i]?, ∃ d ∈ glyphs[j]?, c.Within s d := by
    rw [Glyph.followerIn?_eq_some_iff hs hpage hglyphs hindex,
      Glyph.followerIn?_eq_some_iff hs' hpage hglyphs hindex, Glyph.follows_iff_wider hs hs' hle]
  have hlinks : Glyph.links s glyphs index ⊆ Glyph.links s' glyphs index := by
    rintro ⟨i, j⟩ hij
    rw [Glyph.mem_links] at hij ⊢
    exact ((hfollower i j).mp hij).1
  refine ⟨hfollower, fun c hc => ?_, _, _, ofGlyphs?_eq_some_iff.mpr ⟨index, hindex, rfl⟩,
    ofGlyphs?_eq_some_iff.mpr ⟨index, hindex, rfl⟩, fun g hg => ?_⟩
  · exact (links_components s glyphs index).subset_of_edges (links_components s' glyphs index)
      hlinks hc
  · exact ofLinks_subset hlinks (fun _ he => Glyph.lt_of_mem_links he) hg

def spacedGlyphs : Array Glyph :=
  #[.ofText "A" ⟨0, 0, 6, 10⟩ 10 .east 0, .ofText "B" ⟨8, 0, 14, 10⟩ 10 .east 0,
    .ofText "C" ⟨20, 0, 26, 10⟩ 10 .east 0, .ofText "D" ⟨20, 0, 26, 10⟩ 10 .east 0,
    .ofText "" ⟨6, 0, 8, 10⟩ 10 .east 0]

theorem spacedGlyphs_ofGlyphs_wider :
    ∃ segments segments', ofGlyphs? .standard ⟨0, 0, 100, 100⟩ spacedGlyphs = some segments ∧
      ofGlyphs? ⟨1.5⟩ ⟨0, 0, 100, 100⟩ spacedGlyphs = some segments' ∧
      segments.map (·.glyphs) = [[0, 4, 1], [2], [3]] ∧
      ∃ k ∈ segments', [0, 4, 1] ⊆ k.glyphs ∧ 2 ∈ k.glyphs := by
  have hmargin : Spacing.ofMargin 1.5 = .ok ⟨1.5⟩ := by
    rw [Spacing.ofMargin, if_pos (by decide +kernel)]
  have hglyphs : ∀ g ∈ spacedGlyphs.toList, g.box.Finite := by decide +kernel
  obtain ⟨index, hindex⟩ : ∃ index, Glyph.index? ⟨0, 0, 100, 100⟩ spacedGlyphs = some index :=
    Option.isSome_iff_exists.mp (by decide +kernel)
  obtain ⟨-, -, segments, segments', hsegments, hsegments', hwider⟩ :=
    ofGlyphs_wider Spacing.ofMargin_standard hmargin (by decide +kernel) (by decide +kernel)
      (fun g hg => hglyphs g (Array.mem_toList_iff.mpr hg)) hindex
  have hnarrow : (ofGlyphs? .standard ⟨0, 0, 100, 100⟩ spacedGlyphs).map (·.map (·.glyphs)) =
      some [[0, 4, 1], [2], [3]] := by
    decide +kernel
  have hwide : ∀ l ∈ ofGlyphs? ⟨1.5⟩ ⟨0, 0, 100, 100⟩ spacedGlyphs,
      ∀ k ∈ l, 0 ∈ k.glyphs → 2 ∈ k.glyphs := by
    decide +kernel
  rw [hsegments] at hnarrow
  have hnarrow : segments.map (·.glyphs) = [[0, 4, 1], [2], [3]] := Option.some.inj hnarrow
  obtain ⟨g, hg, hgc⟩ : ∃ g ∈ segments, g.glyphs = [0, 4, 1] :=
    List.mem_map.mp (hnarrow ▸ List.mem_cons_self)
  obtain ⟨k, hk, hsub⟩ := hwider g hg
  exact ⟨segments, segments', hsegments, hsegments', hnarrow, k, hk, hgc ▸ hsub,
    hwide segments' hsegments' k hk (hsub (hgc ▸ List.mem_cons_self))⟩

end Segment

end GlyphTable
