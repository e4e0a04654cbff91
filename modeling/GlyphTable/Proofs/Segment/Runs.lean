import GlyphTable.Proofs.Geometry.Hull
import GlyphTable.Proofs.Partition.Runs
import GlyphTable.Proofs.Regrouping
import GlyphTable.Proofs.Segment.Distinct

/-!
# Segments that are runs

Where links keep to lines that the page holds one after the other, each read from its first glyph
on, the segments are those lines in sequence (`Segment.ofLinks_runs`).
-/

namespace GlyphTable

/-- Glyphs with text, each further on than the one before in the direction of the first. -/
structure Glyph.Line (line : List Glyph) : Prop where
  text_ne : String.join (line.map (·.text)) ≠ ""
  ascending : ∀ head ∈ line.head?, line.Pairwise fun c d =>
    c.center.dot head.orientation.direction < d.center.dot head.orientation.direction

namespace Segment

structure Reads (line : List Glyph) (s : Segment) : Prop where
  text : s.text = String.join (line.map (·.text))
  box : Box.hull? (line.map (·.box)) = some s.box
  style : ∃ head ∈ line.head?, s.size = head.size ∧ s.color = head.color ∧
    s.orientation = head.orientation

variable {glyphs : Array Glyph} {members : List Nat} {line : List Glyph}

theorem readingOrder_eq_self {o : Orientation} (hlt : ∀ i ∈ members, i < glyphs.size)
    (h : (members.filterMap (glyphs[·]?)).Pairwise fun c d =>
      c.center.dot o.direction <
      d.center.dot o.direction) : readingOrder glyphs o members = members := by
  rw [readingOrder, sortStably_eq_self]
  · have hpositions : (members.filterMap fun i =>
        glyphs[i]?.map fun c => (c.center.dot o.direction, i)).map (·.2) = members.map id := by
      refine map_filterMap_of_some fun i hi => ?_
      rw [Array.getElem?_eq_getElem (hlt i hi)]
      exact ⟨_, rfl, rfl⟩
    exact hpositions.trans (List.map_id members)
  · refine List.pairwise_filterMap.mpr ((List.pairwise_filterMap.mp h).imp ?_)
    intro i j hij x hx y hy
    obtain ⟨c, hc, rfl⟩ := Option.map_eq_some_iff.mp hx
    obtain ⟨d, hd, rfl⟩ := Option.map_eq_some_iff.mp hy
    exact Binary64.leKeyed_of_lt (hij c hc d hd) i j

theorem ofMembers?_of_line (hlt : ∀ i ∈ members, i < glyphs.size)
    (hmembers : members.filterMap (glyphs[·]?) = line) (h : Glyph.Line line) :
    ∃ s, ofMembers? glyphs members = some s ∧ s.glyphs = members ∧ Reads line s := by
  cases members with
  | nil => exact absurd (by rw [← hmembers]; rfl) h.text_ne
  | cons i rest =>
    obtain ⟨c, hc⟩ : ∃ c, glyphs[i]? = some c :=
      ⟨_, Array.getElem?_eq_getElem (hlt i List.mem_cons_self)⟩
    obtain ⟨tail, rfl⟩ : ∃ tail, line = c :: tail :=
      ⟨rest.filterMap (glyphs[·]?), by rw [← hmembers, List.filterMap_cons_some hc]⟩
    have hboxes : (c :: tail).map (·.box) ≠ [] := List.cons_ne_nil _ _
    obtain ⟨box, hbox⟩ := Box.hull?_isSome hboxes
    have horder : readingOrder glyphs c.orientation (i :: rest) = i :: rest :=
      readingOrder_eq_self hlt (by rw [hmembers]; exact h.ascending c rfl)
    have hsome : ofMembers? glyphs (i :: rest) = some ⟨i :: rest,
        String.join ((c :: tail).map (·.text)), box, c.size, c.color, c.orientation⟩ := by
      simp only [ofMembers?, List.head?_cons, Option.bind_eq_bind, Option.bind_some, hc,
        horder, hmembers,
        hbox]
      exact if_neg h.text_ne
    exact ⟨_, hsome, rfl, rfl, hbox, c, rfl, rfl, rfl, rfl⟩

theorem first_lt_first {run run' : List Nat} {s t : Segment} (hs : ofMembers? glyphs run = some s)
    (ht : ofMembers? glyphs run' = some t) (hlt : ∀ i ∈ run, i < glyphs.size)
    (hlt' : ∀ i ∈ run', i < glyphs.size) (h : ∀ i ∈ run, ∀ j ∈ run', i < j) :
    s.first < t.first := by
  have hmem {run : List Nat} {s : Segment} (hs : ofMembers? glyphs run = some s)
      (hlt : ∀ i ∈ run, i < glyphs.size) : s.first ∈ run := by
    have hperm := glyphs_perm hlt hs
    refine hperm.mem_iff.mp (first_mem fun hnil => ?_)
    rw [hnil] at hperm
    rw [List.nil_perm.mp hperm] at hs
    cases hs
  exact h _ (hmem hs hlt) _ (hmem ht hlt')

theorem ofLinks_runs {lines : List (List Glyph)} {links : List (Nat × Nat)}
    (hlines : ∀ line ∈ lines, Glyph.Line line)
    (hlinks : (Partition.ofEdges lines.flatten.length links).classes = Partition.runs 0 lines) :
    List.Forall₂ Reads lines (ofLinks lines.flatten.toArray links) := by
  have hlt : ∀ run ∈ Partition.runs 0 lines, ∀ i ∈ run, i < lines.flatten.toArray.size :=
    fun run hrun => by
    rw [List.size_toArray]
    exact Partition.lt_of_mem_runs hrun
  have hruns :
    List.Forall₂ (fun line run => ∃ s, ofMembers? lines.flatten.toArray run = some s ∧ Reads line s)
      lines (Partition.runs 0 lines) := by
    refine ((List.forall₂_and_left _ _).mpr ⟨hlines, Partition.forall₂_runs lines⟩).imp ?_
    rintro line run ⟨hline, hrun, hmembers⟩
    have hpart : run.filterMap (lines.flatten.toArray[·]?) = line := by
      simpa only [List.getElem?_toArray] using hmembers
    obtain ⟨s, hs, -, hreads⟩ := ofMembers?_of_line (hlt run hrun) hpart hline
    exact ⟨s, hs, hreads⟩
  rw [ofLinks, List.size_toArray, hlinks, sortStably_eq_self]
  · exact forall₂_filterMap hruns
  · refine List.pairwise_filterMap.mpr ((Partition.runs_pairwise 0 lines).imp_of_mem ?_)
    intro run run' hrun hrun' h s hs t ht
    exact decide_eq_true (first_lt_first hs ht (hlt run hrun) (hlt run' hrun') h).le

end Segment

end GlyphTable
