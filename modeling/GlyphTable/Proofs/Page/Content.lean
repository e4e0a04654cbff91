import GlyphTable.Proofs.Page.Vetoed
import GlyphTable.Proofs.Row.Placement

/-!
# What segments and cells show

Text, box and style of a segment are those of the glyphs that it lists, in the sequence in which
it lists them, and so for the lines of a block. A cell puts blocks one after the other with their
lines, so that it is made of its own lines in turn: `Page.cluster_contents`. Only where there are
several blocks does a cell lose the blanks at its end.
-/

namespace GlyphTable

theorem intercalate_flatMap {α : Type} (sep : String) {f : α → List String} {l : List α}
    (h : ∀ a ∈ l, f a ≠ []) :
    sep.intercalate (l.map fun a => sep.intercalate (f a)) = sep.intercalate (l.flatMap f) := by
  induction l with
  | nil => rfl
  | cons a rest ih =>
    have hrest : ∀ b ∈ rest, f b ≠ [] := fun b hb => h b (List.mem_cons_of_mem _ hb)
    cases rest with
    | nil => simp
    | cons b rest =>
      have hflat : (b :: rest).flatMap f ≠ [] := by
        simp [List.flatMap_cons, h b (List.mem_cons_of_mem _ List.mem_cons_self)]
      rw [List.flatMap_cons,
        String.intercalate_append_of_ne_nil (h a List.mem_cons_self) hflat, ← ih hrest,
        List.map_cons, String.intercalate_cons_of_ne_nil (by simp)]

namespace Segment

def parts (glyphs : Array Glyph) (s : Segment) : List Glyph :=
  s.glyphs.filterMap (glyphs[·]?)

structure MadeOf (parts : List Glyph) (s : Segment) : Prop where
  text : s.text = String.join (parts.map (·.text))
  box : Box.hull? (parts.map (·.box)) = some s.box
  style : ∃ head ∈ parts.head?,
    s.size = head.size ∧ s.color = head.color ∧ s.orientation = head.orientation

theorem ofMembers?_madeOf {glyphs : Array Glyph} {members : List Nat} {s : Segment}
    (h : ofMembers? glyphs members = some s) : MadeOf (s.parts glyphs) s := by
  simp only [ofMembers?, Option.bind_eq_bind, Option.bind_eq_some_iff, Option.ite_none_left_eq_some,
    Option.pure_def, Option.some.injEq] at h
  obtain ⟨i, -, lowest, -, head, hhead, box, hbox, -, rfl⟩ := h
  exact ⟨rfl, hbox, head, hhead, rfl, rfl, rfl⟩

theorem ofLinks_madeOf {glyphs : Array Glyph} {links : List (Nat × Nat)}
    (h : ∀ e ∈ links, e.1 < glyphs.size ∧ e.2 < glyphs.size) {s : Segment}
    (hs : s ∈ ofLinks glyphs links) :
    (∀ i ∈ s.glyphs, i < glyphs.size) ∧ MadeOf (s.parts glyphs) s := by
  obtain ⟨c, hc, hmembers, hperm⟩ := exists_class_of_mem_ofLinks h hs
  refine ⟨fun i hi => ?_, ofMembers?_madeOf hmembers⟩
  exact (Partition.ofEdges_components h).lt_of_mem hc i (hperm.mem_iff.mp hi)

theorem MadeOf.valid {glyphs : List Glyph} {s : Segment} (h : MadeOf glyphs s)
    (hglyphs : ∀ g ∈ glyphs, g.box.Valid) : s.box.Valid := by
  have hboxes : ∀ b ∈ glyphs.map (·.box), b.Valid := List.forall_mem_map.mpr hglyphs
  exact (Box.hull?_isHull hboxes h.box).valid hboxes

end Segment

namespace Block

def lines (segments : Array Segment) (b : Block) : List Segment :=
  b.segments.filterMap (segments[·]?)

structure Stacks (lines : List Segment) (b : Block) : Prop where
  text : b.text = "\n".intercalate (lines.map (·.text))
  box : Box.hull? (lines.map (·.box)) = some b.box
  style : ∃ head ∈ lines.head?, b.size = head.size ∧ b.orientation = head.orientation

theorem ofMembers?_stacks {segments : Array Segment} {members : List Nat} {b : Block}
    (h : ofMembers? segments members = some b) : Stacks (b.lines segments) b := by
  simp only [ofMembers?, Option.bind_eq_bind, Option.bind_eq_some_iff, Option.pure_def,
    Option.some.injEq] at h
  obtain ⟨i, -, lowest, -, head, hhead, box, hbox, rfl⟩ := h
  exact ⟨rfl, hbox, head, hhead, rfl, rfl⟩

theorem valid_lines {segments : Array Segment} (hvalid : ∀ s ∈ segments, s.box.Valid) (b : Block) :
    ∀ s ∈ b.lines segments, s.box.Valid := by
  intro s hs
  obtain ⟨i, -, hi⟩ := List.mem_filterMap.mp hs
  exact hvalid s (Array.mem_of_getElem? hi)

/-- What a cell shows that lists the lines, in the sequence given. Only as it comes from stacking
does it keep the blanks at its end. -/
structure Shows (lines : List Segment) (whole : Prop) [Decidable whole] (c : Block) : Prop where
  text : c.text = if whole then "\n".intercalate (lines.map (·.text))
    else Text.trimEnd ("\n".intercalate (lines.map (·.text)))
  box : ∃ b, Box.hull? (lines.map (·.box)) = some b ∧ b.Contains c.box ∧ c.box.Contains b
  style : ∃ head ∈ lines.head?, c.size = head.size ∧ c.orientation = head.orientation

variable {segments : Array Segment} {parts : List Block} {c : Block}

theorem MadeOf.lines_eq (h : MadeOf parts c) :
    c.lines segments = parts.flatMap (·.lines segments) := by
  rw [lines, h.segments, List.filterMap_flatMap]
  rfl

section

variable (h : MadeOf parts c) (hstacks : ∀ b ∈ parts, Stacks (b.lines segments) b)

include h hstacks

theorem MadeOf.intercalate_lines :
    "\n".intercalate (parts.map (·.text)) = "\n".intercalate ((c.lines segments).map (·.text)) := by
  rw [h.lines_eq, List.map_flatMap, ← intercalate_flatMap]
  · exact congrArg _ (List.map_congr_left fun b hb => (hstacks b hb).text)
  · intro b hb hnil
    obtain ⟨head, hhead, -⟩ := (hstacks b hb).style
    rw [List.map_eq_nil_iff.mp hnil] at hhead
    cases hhead

theorem MadeOf.isHull_lines (hvalid : ∀ s ∈ segments, s.box.Valid) :
    Box.IsHull ((c.lines segments).map (·.box)) c.box := by
  have hlines : ∀ b ∈ parts, ∀ s ∈ b.lines segments, s.box.Valid := fun b _ => valid_lines hvalid b
  have hhulls : ∀ b ∈ parts, Box.IsHull ((b.lines segments).map (·.box)) b.box := fun b hb =>
    Box.hull?_isHull (List.forall_mem_map.mpr (hlines b hb)) (hstacks b hb).box
  rw [h.lines_eq, List.map_flatMap]
  refine (Box.hull?_isHull (List.forall_mem_map.mpr fun b hb => ?_) h.box).flatMap hhulls
  exact (hhulls b hb).valid (List.forall_mem_map.mpr (hlines b hb))

theorem MadeOf.head_lines :
    ∃ head ∈ (c.lines segments).head?, c.size = head.size ∧ c.orientation = head.orientation := by
  obtain ⟨first, hfirst, hsize, horientation⟩ := h.style
  obtain ⟨head, hhead, hsize', horientation'⟩ := (hstacks first (List.mem_of_head? hfirst)).style
  obtain ⟨rest, rfl⟩ := List.head?_eq_some_iff.mp hfirst
  refine ⟨head, ?_, hsize.trans hsize', horientation.trans horientation'⟩
  rw [h.lines_eq, Option.mem_def, List.flatMap_cons, List.head?_append, hhead, Option.some_or]

theorem MadeOf.shows (hvalid : ∀ s ∈ segments, s.box.Valid) {whole : Prop} [Decidable whole]
    (hwhole : whole ↔ parts.length = 1) : Shows (c.lines segments) whole c := by
  refine ⟨?_, ?_, h.head_lines hstacks⟩
  · rw [h.text, h.intercalate_lines hstacks]
    exact if_congr hwhole.symm rfl rfl
  · exact (h.isHull_lines hstacks hvalid).exists_hull?
      (List.forall_mem_map.mpr (valid_lines hvalid c))

end

theorem MadeOf.exists_eq_iff {blocks : List Block} (h : MadeOf parts c) (hne : parts ≠ [])
    (hparts : ∀ b ∈ parts, b ∈ blocks) (hlines : ∀ b ∈ blocks, b.segments ≠ [])
    (heq : ∀ a ∈ blocks, ∀ b ∈ blocks, ∀ i ∈ a.segments, i ∈ b.segments → a = b) :
    (∃ b ∈ blocks, b.segments = c.segments) ↔ parts.length = 1 := by
  obtain ⟨first, rest, rfl⟩ := List.exists_cons_of_ne_nil hne
  have hfirst := hparts first List.mem_cons_self
  rw [h.segments, List.flatMap_cons]
  constructor
  · rintro ⟨b, hb, hsegments⟩
    obtain ⟨i, hi⟩ := List.exists_mem_of_ne_nil _ (hlines first hfirst)
    obtain rfl := heq first hfirst b hb i hi (hsegments ▸ List.mem_append_left _ hi)
    have hrest := List.self_eq_append_right.mp hsegments
    rw [List.flatMap_eq_nil_iff] at hrest
    have hnil : rest = [] := List.eq_nil_iff_forall_not_mem.mpr fun d hd =>
      hlines d (hparts d (List.mem_cons_of_mem _ hd)) (hrest d hd)
    rw [hnil, List.length_singleton]
  · intro hlength
    obtain rfl := List.length_eq_zero_iff.mp (Nat.succ.inj hlength)
    exact ⟨first, hfirst, (List.append_nil _).symm⟩

end Block

namespace Row

theorem exists_parts {blocks : List Block} {r : Row} (hr : r ∈ arrange blocks) {c : Block}
    (hc : c ∈ r.blocks) :
    ∃ parts : List Block, parts ≠ [] ∧ (∀ b ∈ parts, b ∈ blocks) ∧ Block.MadeOf parts c := by
  obtain ⟨s, hs, hblocks⟩ := exists_of_mem_forall₂ (forall₂_numbered _) hr
  obtain ⟨d, hd, i, j, rfl⟩ := exists_of_mem_forall₂ hblocks hc
  obtain ⟨g, hg, hgs⟩ := List.mem_filterMap.mp (mem_sortStably.mp hs)
  rw [(ofBlocks?_eq_some hgs).1] at hd
  obtain ⟨f, hf, hfd⟩ := Block.mem_cellsOf.mp hd
  have hne : f.zipIdx ≠ [] := by simpa using (Block.columns_grouping g).nonempty f hf
  obtain ⟨d', hd', hmade⟩ := Block.ofFragments?_madeOf hne
  rw [List.zipIdx_map_fst, hfd] at hd'
  obtain rfl := Option.some.inj hd'
  have hperm : ((Block.fragments f.zipIdx).map (·.1)).Perm f :=
    ((sortStably_perm _ f.zipIdx).map _).trans (.of_eq (List.zipIdx_map_fst 0 f))
  refine ⟨_, ?_, fun b hb => ?_, ⟨hmade.segments, hmade.box, hmade.text, hmade.style⟩⟩
  · obtain ⟨b, hb⟩ := List.exists_mem_of_ne_nil f ((Block.columns_grouping g).nonempty f hf)
    exact List.ne_nil_of_mem (hperm.mem_iff.mpr hb)
  · have hbg := (Block.columns_grouping g).subset hf b (hperm.mem_iff.mp hb)
    exact (Block.rows_grouping blocks).subset hg b hbg

end Row

namespace Page

/-- After clustering, every segment is made of the glyphs that it lists, and every cell of the
segments that it lists. -/
theorem cluster_contents {p q : Page} (h : ∀ g ∈ p.glyphs, g.box.Valid) {s : Spacing}
    {vetoes : List Veto} {o : Outcome} (hq : p.cluster? s vetoes = some (q, o)) :
    (∀ g ∈ q.segments, (∀ i ∈ g.glyphs, i < p.glyphs.size) ∧
      Segment.MadeOf (g.parts p.glyphs) g) ∧
    ∀ r ∈ q.rows, ∀ c ∈ r.blocks,
      (∀ i ∈ c.segments, i < q.segments.size) ∧
      c.Shows (c.lines q.segments) (∃ b ∈ q.stacked vetoes, b.segments = c.segments) := by
  obtain ⟨index, -, hclusters⟩ := exists_clusters hq
  have hmade : ∀ g ∈ q.segments, (∀ i ∈ g.glyphs, i < p.glyphs.size) ∧
      Segment.MadeOf (g.parts p.glyphs) g := by
    intro g hg
    rw [hclusters.segments_eq] at hg
    exact Segment.ofLinks_madeOf (fun _ he => Glyph.lt_of_mem_links he) (List.mem_toArray.mp hg)
  have hvalid : ∀ g ∈ q.segments, g.box.Valid := fun g hg =>
    (hmade g hg).2.valid fun c hc => by
      obtain ⟨i, -, hi⟩ := List.mem_filterMap.mp hc
      exact h c (Array.mem_of_getElem? hi)
  rw [hclusters.rows_eq]
  refine ⟨hmade, fun r hr c hc => ?_⟩
  obtain ⟨parts, hne, hparts, hcell⟩ := Row.exists_parts hr hc
  have hperm := Block.ofSegments_perm q.segments vetoes
  refine ⟨fun i hi => ?_, hcell.shows (fun b hb => ?_) hvalid ?_⟩
  · rw [hcell.segments] at hi
    obtain ⟨b, hb, hib⟩ := List.mem_flatMap.mp hi
    exact List.mem_range.mp (hperm.mem_iff.mp (List.mem_flatMap.mpr ⟨b, hparts b hb, hib⟩))
  · obtain ⟨members, -, hmembers, -⟩ := Block.exists_class_of_mem (hparts b hb)
    exact Block.ofMembers?_stacks hmembers
  · exact hcell.exists_eq_iff hne hparts (fun b hb => Block.ofSegments_nonempty hb)
      fun a ha b hb i hia hib => Block.eq_of_mem_segments ha hb hia hib

def paddedColumns : Page :=
  ofGlyphs 100 100 #[
    .ofText "A " ⟨0, 0, 10, 10⟩ 10 .east 0,
    .ofText "B " ⟨0, 12, 10, 22⟩ 10 .east 0,
    .ofText "C " ⟨20, 0, 30, 22⟩ 10 .east 0]

theorem paddedColumns_cluster_contents :
    ∃ q o, paddedColumns.cluster? .standard [⟨"A ", "B "⟩] = some (q, o) ∧
      q.rows.map Row.texts = [["A \nB", "C "]] ∧
      ∀ r ∈ q.rows, ∀ c ∈ r.blocks,
        c.text = if ∃ b ∈ q.stacked [⟨"A ", "B "⟩], b.segments = c.segments then
            "\n".intercalate ((c.lines q.segments).map (·.text))
          else Text.trimEnd ("\n".intercalate ((c.lines q.segments).map (·.text))) := by
  have hvalid : ∀ g ∈ paddedColumns.glyphs.toList, g.box.Valid := by decide +kernel
  have htexts : (paddedColumns.cluster? .standard [⟨"A ", "B "⟩]).map (·.1.rows.map Row.texts) =
      some [["A \nB", "C "]] := by
    decide +kernel
  obtain ⟨⟨q, o⟩, hq, htext⟩ := Option.map_eq_some_iff.mp htexts
  have hcontents := cluster_contents (fun g hg => hvalid g (Array.mem_toList_iff.mpr hg)) hq
  exact ⟨q, o, hq, htext, fun r hr c hc => (hcontents.2 r hr c hc).2.text⟩

end Page

end GlyphTable
