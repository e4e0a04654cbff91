import GlyphTable.Proofs.Geometry.Reach
import GlyphTable.Proofs.PointTree.Query
import GlyphTable.Proofs.Segment.Distinct

/-!
# The tree of centers only saves time

`Glyph.Follows` says what a follower is without any search: the glyph nearest ahead on the
line, of equally near ones the first. A scan of all glyphs finds it, and so does a query of
the tree, whatever the font sizes are and wherever the tree is divided
(`Segment.ofGlyphs_scan`). The page box has no part in it.
-/

namespace GlyphTable

section

variable {α : Type} {le : α → α → Bool} (total : ∀ a b, le a b || le b a)
  (trans : ∀ a b c, le a b → le b c → le a c)

include total trans

theorem le_foldl_least (best : α) (rest : List α) :
    le (rest.foldl (fun best b => if le best b then best else b) best) best ∧
      ∀ b ∈ rest, le (rest.foldl (fun best b => if le best b then best else b) best) b := by
  induction rest generalizing best with
  | nil => simpa using total best best
  | cons d rest ih =>
    simp only [List.foldl_cons, List.forall_mem_cons]
    obtain ⟨hbest, hrest⟩ := ih (if le best d then best else d)
    by_cases hle : le best d
    · simp only [if_pos hle] at hbest hrest ⊢
      exact ⟨hbest, trans _ _ _ hbest hle, hrest⟩
    · have hback : le d best := by simpa [hle] using total best d
      simp only [if_neg hle] at hbest hrest ⊢
      exact ⟨trans _ _ _ hbest hback, hbest, hrest⟩

theorem le_of_least? {l : List α} {a : α} (h : least? le l = some a) : ∀ b ∈ l, le a b := by
  cases l with
  | nil => cases h
  | cons c rest =>
    obtain rfl := Option.some.inj h
    exact List.forall_mem_cons.mpr (le_foldl_least total trans c rest)

end

namespace Glyph

/-- Whether the glyph at `j` follows the one at `i`: it stands ahead on its line, no other
does so at a lesser distance, and at the same distance none that comes first. -/
def Follows (s : Spacing) (glyphs : Array Glyph) (i j : Nat) : Prop :=
  ∃ c d ahead, glyphs[i]? = some c ∧ glyphs[j]? = some d ∧ j ≠ i ∧ c.ahead? s d = some ahead ∧
    ∀ k e distance, k ≠ i → glyphs[k]? = some e → c.ahead? s e = some distance →
      ahead ≤ distance ∧ (distance ≤ ahead → j ≤ k)

section

variable {s : Spacing} {glyphs : Array Glyph} {i j : Nat} {candidates : List Nat}

theorem Follows.unique {k : Nat} (hj : Follows s glyphs i j)
    (hk : Follows s glyphs i k) : j = k := by
  obtain ⟨c, d, ahead, hc, hd, hji, hahead, hleast⟩ := hj
  obtain ⟨c', e, distance, hc', he, hki, hdistance, hleast'⟩ := hk
  obtain rfl := Option.some.inj (hc.symm.trans hc')
  obtain ⟨hle, hfirst⟩ := hleast k e distance hki he hdistance
  obtain ⟨hle', hfirst'⟩ := hleast' j d ahead hji hd hahead
  exact Nat.le_antisymm (hfirst hle') (hfirst' hle)

theorem isNumber_of_ahead? {c d : Glyph} {ahead : Float} (h : c.ahead? s d = some ahead) :
    Binary64.IsNumber ahead := by
  simp only [ahead?, Option.ite_none_right_eq_some, Option.some.injEq] at h
  obtain ⟨⟨-, hpos, -⟩, rfl⟩ := h
  exact (Binary64.lt_iff.mp hpos).2.1

theorem mem_aheads {c : Glyph} {ahead : Float} {k : Nat} :
    (ahead, k) ∈ candidates.filterMap (fun j =>
        if j = i then none else (glyphs[j]?.bind (c.ahead? s)).map (·, j)) ↔
      k ∈ candidates ∧ k ≠ i ∧ ∃ d, glyphs[k]? = some d ∧ c.ahead? s d = some ahead := by
  simp only [List.mem_filterMap, Option.ite_none_left_eq_some, Option.map_eq_some_iff,
    Option.bind_eq_some_iff, Prod.mk.injEq]
  constructor
  · rintro ⟨j, hj, hne, a, ⟨d, hd, ha⟩, rfl, rfl⟩
    exact ⟨hj, hne, d, hd, ha⟩
  · rintro ⟨hk, hne, d, hd, ha⟩
    exact ⟨k, hk, hne, ahead, ⟨d, hd, ha⟩, rfl, rfl⟩

/-- Among candidates that leave out nothing ahead the follower is found, in whatever sequence
they come. -/
theorem followerAmong?_eq_some_iff
    (hall : ∀ c k e distance, glyphs[i]? = some c → glyphs[k]? = some e →
      c.ahead? s e = some distance → k ∈ candidates) :
    followerAmong? s glyphs i candidates = some j ↔ Follows s glyphs i j := by
  have hfollows {j : Nat} (h : followerAmong? s glyphs i candidates = some j) :
      Follows s glyphs i j := by
    simp only [followerAmong?, Option.bind_eq_bind, Option.bind_eq_some_iff, Option.pure_def,
      Option.some.injEq] at h
    obtain ⟨c, hc, ⟨ahead, j'⟩, hleast, rfl⟩ := h
    obtain ⟨-, hne, d, hd, hahead⟩ := mem_aheads.mp (mem_of_least? hleast)
    refine ⟨c, d, ahead, hc, hd, hne, hahead, fun k e distance hk he hdistance => ?_⟩
    have hmem := mem_aheads.mpr ⟨hall c k e distance hc he hdistance, hk, e, he, hdistance⟩
    exact Binary64.le_of_leKeyed (isNumber_of_ahead? hdistance)
      (le_of_least? Binary64.leKeyed_total Binary64.leKeyed_trans hleast _ hmem)
  refine ⟨hfollows, fun h => ?_⟩
  -- Something is ahead, so something is found, and there is one follower only.
  obtain ⟨k, hk⟩ : ∃ k, followerAmong? s glyphs i candidates = some k := by
    obtain ⟨c, d, ahead, hc, hd, hne, hahead, -⟩ := h
    have hmem := mem_aheads.mpr ⟨hall c j d ahead hc hd hahead, hne, d, hd, hahead⟩
    simp only [followerAmong?, hc, Option.bind_eq_bind, Option.bind_some]
    cases haheads : candidates.filterMap (fun j =>
        if j = i then none else (glyphs[j]?.bind (c.ahead? s)).map (·, j)) with
    | nil =>
      rw [haheads] at hmem
      cases hmem
    | cons a rest => exact ⟨_, rfl⟩
  rw [hk, h.unique (hfollows hk)]

def follower? (s : Spacing) (glyphs : Array Glyph) (i : Nat) : Option Nat :=
  followerAmong? s glyphs i (List.range glyphs.size)

theorem follower?_eq_some_iff : follower? s glyphs i = some j ↔ Follows s glyphs i j :=
  followerAmong?_eq_some_iff fun _ _ _ _ _ he _ =>
    List.mem_range.mpr (Array.getElem?_eq_some_iff.mp he).1

end

end Glyph

-- ---------------------------------------------------------------------------
-- Followers that the tree finds
-- ---------------------------------------------------------------------------

namespace Glyph

variable {margin : Float} {s : Spacing} {page : Box} {glyphs : Array Glyph}
    {index : PointTree.Index Nat}

theorem finite_boxes (hpage : page.Finite) (hglyphs : ∀ g ∈ glyphs, g.box.Finite) :
    ∀ a ∈ page :: glyphs.toList.map (·.box), a.Finite := by
  refine List.forall_mem_cons.mpr ⟨hpage, fun a ha => ?_⟩
  obtain ⟨g, hg, rfl⟩ := List.mem_map.mp ha
  exact hglyphs g (Array.mem_toList_iff.mp hg)

theorem region_isHull (hpage : page.Finite) (hglyphs : ∀ g ∈ glyphs, g.box.Finite) :
    Box.IsHull (page :: glyphs.toList.map (·.box))
      (glyphs.toList.foldl (fun region c => region.join c.box) page) := by
  refine Box.hull?_isHull (fun a ha => (finite_boxes hpage hglyphs a ha).valid) ?_
  rw [Box.hull?, List.foldl_map]

theorem mem_query_index (hpage : page.Finite) (hglyphs : ∀ g ∈ glyphs, g.box.Finite)
    (hindex : index? page glyphs = some index) {area : Box} {k : Nat} {d : Glyph}
    (hd : glyphs[k]? = some d) (hx : d.center.x.isFinite = true) (hy : d.center.y.isFinite = true)
    (harea : area.Holds d.center) : k ∈ index.query area := by
  have hboxes := finite_boxes hpage hglyphs
  have hregion := region_isHull hpage hglyphs
  have hmem : d ∈ glyphs := Array.mem_of_getElem? hd
  refine (PointTree.Index.mem_query_of_insertAll? (hregion.finite hboxes).centered hindex).mpr
    ⟨d.center, ?_, ?_, harea⟩
  · refine List.mem_map.mpr ⟨(d, k), List.mem_zipIdx_iff_getElem?.mpr ?_, rfl⟩
    rwa [Array.getElem?_toList]
  · refine hregion.holds ?_ ((hglyphs d hmem).holds_center hx hy)
    exact List.mem_cons_of_mem _ (List.mem_map_of_mem (Array.mem_toList_iff.mpr hmem))

theorem followerIn?_eq_some_iff (hs : Spacing.ofMargin margin = .ok s) (hpage : page.Finite)
    (hglyphs : ∀ g ∈ glyphs, g.box.Finite) (hindex : index? page glyphs = some index) {i j : Nat} :
    followerIn? s glyphs index i = some j ↔ Follows s glyphs i j := by
  have hamong {c : Glyph} {area : Box} (hc : glyphs[i]? = some c)
      (harea : c.searchBox? s = some area) :
      followerAmong? s glyphs i (index.query area) = some j ↔ Follows s glyphs i j := by
    refine followerAmong?_eq_some_iff fun c' k e distance hc' he hdistance => ?_
    obtain rfl := Option.some.inj (hc.symm.trans hc')
    obtain ⟨area', harea', hholds⟩ := searchBox?_holds hs hdistance
    obtain rfl := Option.some.inj (harea.symm.trans harea')
    obtain ⟨hx, hy, -⟩ := off_of_ahead hs hdistance
    exact mem_query_index hpage hglyphs hindex he (Binary64.isFinite_of_sub hx).1
      (Binary64.isFinite_of_sub hy).1 hholds
  simp only [followerIn?, Option.bind_eq_bind, Option.bind_eq_some_iff]
  constructor
  · rintro ⟨c, hc, area, harea, h⟩
    exact (hamong hc harea).mp h
  · intro h
    obtain ⟨c, d, ahead, hc, hd, hne, hahead, -⟩ := id h
    obtain ⟨area, harea, -⟩ := searchBox?_holds hs hahead
    exact ⟨c, hc, area, harea, (hamong hc harea).mpr h⟩

theorem links_eq_scan (hs : Spacing.ofMargin margin = .ok s) (hpage : page.Finite)
    (hglyphs : ∀ g ∈ glyphs, g.box.Finite) (hindex : index? page glyphs = some index) :
    links s glyphs index = linked glyphs.size (follower? s glyphs) := by
  have hsame : followerIn? s glyphs index = follower? s glyphs := by
    funext i
    refine Option.ext fun j => ?_
    rw [followerIn?_eq_some_iff hs hpage hglyphs hindex, follower?_eq_some_iff]
  rw [links, ← hsame]

end Glyph

theorem Spacing.ofMargin_standard : ofMargin 0.9 = .ok standard := by
  rw [ofMargin, if_pos (by decide +kernel)]
  rfl

namespace Segment

/-- As long as its division ends, the tree has no part in what the segments are: every
follower is the glyph nearest ahead on the line, which a scan of all glyphs finds. So the
page box has no part in it either. -/
theorem ofGlyphs_scan {margin : Float} {s : Spacing} (hs : Spacing.ofMargin margin = .ok s)
    {page : Box} (hpage : page.Finite) {glyphs : Array Glyph} (hglyphs : ∀ g ∈ glyphs, g.box.Finite)
    {index : PointTree.Index Nat} (hindex : Glyph.index? page glyphs = some index) :
    (∀ i j, Glyph.followerIn? s glyphs index i = some j ↔ Glyph.Follows s glyphs i j) ∧
    (∀ i j, Glyph.follower? s glyphs i = some j ↔ Glyph.Follows s glyphs i j) ∧
    ofGlyphs? s page glyphs =
      some (ofLinks glyphs (Glyph.linked glyphs.size (Glyph.follower? s glyphs))) ∧
    ∀ page' : Box, page'.Finite → Glyph.index? page' glyphs ≠ none →
      ofGlyphs? s page' glyphs = ofGlyphs? s page glyphs := by
  have hscan {page : Box} (hpage : page.Finite) {index : PointTree.Index Nat}
      (hindex : Glyph.index? page glyphs = some index) : ofGlyphs? s page glyphs =
        some (ofLinks glyphs (Glyph.linked glyphs.size (Glyph.follower? s glyphs))) := by
    rw [ofGlyphs?, hindex, Option.map_some, Glyph.links_eq_scan hs hpage hglyphs hindex]
  refine ⟨fun _ _ => Glyph.followerIn?_eq_some_iff hs hpage hglyphs hindex,
    fun _ _ => Glyph.follower?_eq_some_iff, hscan hpage hindex, fun page' hpage' hends => ?_⟩
  obtain ⟨index', hindex'⟩ := Option.ne_none_iff_exists'.mp hends
  rw [hscan hpage' hindex', hscan hpage hindex]

def unevenGlyphs : Array Glyph :=
  #[.ofText "A" ⟨0, 0, 10, 10⟩ 10 .east 0, .ofText "B" ⟨8, 0, 18, 10⟩ (1 / 0) .east 0,
    .ofText "C" ⟨5000, 0, 5010, 10⟩ (0 / 0) .east 0]

theorem unevenGlyphs_ofGlyphs_scan :
    (ofGlyphs? .standard ⟨-9, -9, -8, -8⟩ unevenGlyphs).map (·.map (·.glyphs)) = some
      [[0, 1, 2]] := by
  have hglyphs : ∀ g ∈ unevenGlyphs.toList, g.box.Finite := by decide +kernel
  obtain ⟨index, hindex⟩ : ∃ index, Glyph.index? ⟨-9, -9, -8, -8⟩ unevenGlyphs = some index :=
    Option.isSome_iff_exists.mp (by decide +kernel)
  rw [(ofGlyphs_scan Spacing.ofMargin_standard (by decide +kernel)
    (fun g hg => hglyphs g (Array.mem_toList_iff.mpr hg)) hindex).2.2.1]
  decide +kernel

end Segment

end GlyphTable
