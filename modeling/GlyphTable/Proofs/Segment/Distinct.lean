import Mathlib
import GlyphTable.Proofs.Partition.Components
import GlyphTable.Proofs.Sorting
import GlyphTable.Segment

/-!
# No two segments have a glyph in common

`Segment.ofLinks_distinct`: the segments of a page have glyphs, and each glyph is in one
segment at most, so that a segment is known by any of its glyphs.
-/

namespace GlyphTable

theorem mem_of_least? {α : Type} {le : α → α → Bool} {l : List α} {a : α}
    (h : least? le l = some a) :
    a ∈ l := by
  cases l with
  | nil => cases h
  | cons b rest =>
    obtain rfl := Option.some.inj h
    have hfold (best : α) :
        rest.foldl (fun best b => if le best b then best else b) best ∈ best :: rest := by
      induction rest generalizing best with
      | nil => exact List.mem_cons_self
      | cons c rest ih =>
        rw [List.foldl_cons]
        have hmem := ih (by rfl) (if le best c then best else c)
        rcases List.mem_cons.mp hmem with heq | hmem
        · rw [heq]
          split
          · exact List.mem_cons_self
          · exact List.mem_cons_of_mem _ List.mem_cons_self
        · exact List.mem_cons_of_mem _ (List.mem_cons_of_mem _ hmem)
    exact hfold b

theorem sortKeyed_perm {κ : Type} (le : κ × Nat → κ × Nat → Bool) {entry : Nat → Option (κ × Nat)}
    {members : List Nat} (h : ∀ i ∈ members, ∃ k, entry i = some (k, i)) :
    ((sortStably le (members.filterMap entry)).map (·.2)).Perm members := by
  refine ((sortStably_perm le _).map _).trans (.of_eq ?_)
  induction members with
  | nil => rfl
  | cons i rest ih =>
    obtain ⟨k, hk⟩ := h i List.mem_cons_self
    rw [List.filterMap_cons_some hk, List.map_cons, ih fun j hj => h j (List.mem_cons_of_mem _ hj)]

theorem sortKeyed_pairwise {κ : Type} {le : κ × Nat → κ × Nat → Bool}
    (total : ∀ a b, le a b || le b a)
    (trans : ∀ a b c, le a b → le b c → le a c) {entry : Nat → Option (κ × Nat)}
    (h : ∀ i e, entry i = some e → e.2 = i) (members : List Nat) :
    ((sortStably le (members.filterMap entry)).map (·.2)).Pairwise fun i j =>
      ∀ a b, entry i = some a → entry j = some b → le a b := by
  refine List.pairwise_map.mpr
    ((pairwise_sortStably total trans _).imp_of_mem fun {a b} ha hb hle x y hx hy => ?_)
  obtain ⟨i, -, hi⟩ := List.mem_filterMap.mp (mem_sortStably.mp ha)
  obtain ⟨j, -, hj⟩ := List.mem_filterMap.mp (mem_sortStably.mp hb)
  rw [h i a hi, hi] at hx
  rw [h j b hj, hj] at hy
  rwa [← Option.some.inj hx, ← Option.some.inj hy]

namespace Glyph

theorem lt_of_followerAmong? {s : Spacing} {glyphs : Array Glyph} {i j : Nat}
    {candidates : List Nat}
    (h : followerAmong? s glyphs i candidates = some j) : j < glyphs.size := by
  simp only [followerAmong?, Option.bind_eq_bind, Option.bind_eq_some_iff, Option.pure_def,
    Option.some.injEq] at h
  obtain ⟨c, -, ⟨ahead, j'⟩, hleast, rfl⟩ := h
  obtain ⟨k, -, hk⟩ := List.mem_filterMap.mp (mem_of_least? hleast)
  rw [Option.ite_none_left_eq_some] at hk
  obtain ⟨-, hk⟩ := hk
  obtain ⟨a, ha, heq⟩ := Option.map_eq_some_iff.mp hk
  obtain ⟨d, hd, -⟩ := Option.bind_eq_some_iff.mp ha
  obtain ⟨rfl, rfl⟩ := Prod.mk.inj heq
  exact (Array.getElem?_eq_some_iff.mp hd).1

theorem lt_of_mem_linked {n m : Nat} {follower? : Nat → Option Nat}
    (h : ∀ i j, follower? i = some j → j < m) {e : Nat × Nat} (he : e ∈ linked n follower?) :
    e.1 < n ∧ e.2 < m := by
  obtain ⟨i, hi, hmap⟩ := List.mem_filterMap.mp he
  obtain ⟨j, hj, rfl⟩ := Option.map_eq_some_iff.mp hmap
  exact ⟨List.mem_range.mp hi, h i j hj⟩

theorem lt_of_mem_links {s : Spacing} {glyphs : Array Glyph} {index : PointTree.Index Nat}
    {e : Nat × Nat} (he : e ∈ links s glyphs index) : e.1 < glyphs.size ∧ e.2 < glyphs.size := by
  refine lt_of_mem_linked (fun i j hj => ?_) he
  simp only [followerIn?, Option.bind_eq_bind, Option.bind_eq_some_iff] at hj
  obtain ⟨_, _, _, _, hj⟩ := hj
  exact lt_of_followerAmong? hj

end Glyph

namespace Segment

theorem readingOrder_perm {glyphs : Array Glyph} {members : List Nat} (o : Orientation)
    (h : ∀ i ∈ members, i < glyphs.size) : (readingOrder glyphs o members).Perm members :=
  sortKeyed_perm _ fun i hi => ⟨_, by rw [Array.getElem?_eq_getElem (h i hi)]; rfl⟩

theorem glyphs_perm {glyphs : Array Glyph} {members : List Nat} {s : Segment}
    (hmembers : ∀ i ∈ members, i < glyphs.size) (h : ofMembers? glyphs members = some s) :
    s.glyphs.Perm members := by
  simp only [ofMembers?, Option.bind_eq_bind, Option.bind_eq_some_iff, Option.ite_none_left_eq_some,
    Option.pure_def, Option.some.injEq] at h
  obtain ⟨i, -, lowest, -, head, -, box, -, -, rfl⟩ := h
  exact readingOrder_perm lowest.orientation hmembers

structure Distinct (segments : List Segment) : Prop where
  nonempty : ∀ s ∈ segments, s.glyphs ≠ []
  disjoint : segments.Pairwise fun s t => s.glyphs.Disjoint t.glyphs

theorem exists_class_of_mem_ofLinks {glyphs : Array Glyph} {links : List (Nat × Nat)}
    (h : ∀ e ∈ links, e.1 < glyphs.size ∧ e.2 < glyphs.size) {s : Segment}
    (hs : s ∈ ofLinks glyphs links) :
    ∃ c ∈ (Partition.ofEdges glyphs.size links).classes,
      ofMembers? glyphs c = some s ∧ s.glyphs.Perm c := by
  obtain ⟨c, hc, hcs⟩ := List.mem_filterMap.mp (mem_sortStably.mp hs)
  exact ⟨c, hc, hcs, glyphs_perm ((Partition.ofEdges_components h).lt_of_mem hc) hcs⟩

theorem ofLinks_distinct {glyphs : Array Glyph} {links : List (Nat × Nat)}
    (h : ∀ e ∈ links, e.1 < glyphs.size ∧ e.2 < glyphs.size) : Distinct (ofLinks glyphs links) := by
  have hcomponents := Partition.ofEdges_components h
  constructor
  · intro s hs hnil
    obtain ⟨c, hc, -, hperm⟩ := exists_class_of_mem_ofLinks h hs
    rw [hnil] at hperm
    exact hcomponents.nonempty c hc (List.nil_perm.mp hperm)
  · have hsymm : ∀ {s t : Segment}, s.glyphs.Disjoint t.glyphs → t.glyphs.Disjoint s.glyphs :=
      fun h => h.symm
    rw [ofLinks, (sortStably_perm _ _).pairwise_iff hsymm, List.pairwise_filterMap]
    refine hcomponents.disjoint.imp_of_mem fun {c d} hc hd hdisjoint s hs t ht i his hit => ?_
    exact hdisjoint ((glyphs_perm (hcomponents.lt_of_mem hc) hs).mem_iff.mp his)
      ((glyphs_perm (hcomponents.lt_of_mem hd) ht).mem_iff.mp hit)

theorem ofGlyphs?_eq_some_iff {s : Spacing} {page : Box} {glyphs : Array Glyph}
    {segments : List Segment} :
    ofGlyphs? s page glyphs = some segments ↔ ∃ index, Glyph.index? page glyphs = some index ∧
      segments = ofLinks glyphs (Glyph.links s glyphs index) := by
  simp only [ofGlyphs?, Option.map_eq_some_iff, @eq_comm _ segments]

theorem first_mem {s : Segment} (h : s.glyphs ≠ []) : s.first ∈ s.glyphs := by
  cases hs : s.glyphs with
  | nil => exact absurd hs h
  | cons i rest =>
    rw [first, hs]
    exact List.mem_cons_self

theorem last_mem {s : Segment} (h : s.glyphs ≠ []) : s.last ∈ s.glyphs := by
  rw [last, List.getLastD_eq_getLast?, List.getLast?_eq_some_getLast h]
  exact List.getLast_mem h

section

variable {segments : List Segment} (h : Distinct segments) {i j : Nat} {s t : Segment}
  (hs : segments[i]? = some s) (ht : segments[j]? = some t)

include h hs ht

theorem Distinct.eq_of_mem {c : Nat} (hcs : c ∈ s.glyphs) (hct : c ∈ t.glyphs) : i = j := by
  obtain ⟨hi, rfl⟩ := List.getElem?_eq_some_iff.mp hs
  obtain ⟨hj, rfl⟩ := List.getElem?_eq_some_iff.mp ht
  have hpairwise := List.pairwise_iff_getElem.mp h.disjoint
  rcases Nat.lt_trichotomy i j with hlt | heq | hlt
  · exact absurd hct (hpairwise i j hi hj hlt hcs)
  · exact heq
  · exact absurd hcs (hpairwise j i hj hi hlt hct)

theorem Distinct.first_inj (heq : s.first = t.first) : i = j :=
  h.eq_of_mem hs ht (first_mem (h.nonempty s (List.mem_of_getElem? hs)))
    (heq ▸ first_mem (h.nonempty t (List.mem_of_getElem? ht)))

theorem Distinct.last_inj (heq : s.last = t.last) : i = j :=
  h.eq_of_mem hs ht (last_mem (h.nonempty s (List.mem_of_getElem? hs)))
    (heq ▸ last_mem (h.nonempty t (List.mem_of_getElem? ht)))

end

end Segment

end GlyphTable
