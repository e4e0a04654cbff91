import GlyphTable.Proofs.Block.Stacking
import GlyphTable.Proofs.Page.Clustering
import GlyphTable.Proofs.Row.Cells

/-!
# A veto does not hold in the table

Vetoes are looked at when lines are stacked into blocks, not when blocks of a row are put
into one cell. `Page.keepsApart_iff` says what that comes to: a veto holds in the table
unless the rows bring its two blocks together again, which a tall neighbour can do.
-/

namespace GlyphTable

/-- Whether the second segment would be the next line of the first and a veto is about them. -/
def Segment.Forbidden (segments : Array Segment) (vetoes : List Veto) (u l : Nat) : Prop :=
  ∃ upper ∈ segments[u]?, ∃ lower ∈ segments[l]?,
    upper.last + 1 = lower.first ∧ upper.Continues lower ∧ ∃ v ∈ vetoes, v.Names upper lower

instance (segments : Array Segment) (vetoes : List Veto) (u l : Nat) :
    Decidable (Segment.Forbidden segments vetoes u l) :=
  inferInstanceAs (Decidable (∃ _ ∈ _, ∃ _ ∈ _, _))

theorem Segment.Distinct.forbidden {segments : Array Segment} (h : Distinct segments.toList)
    {vetoes : List Veto} {u l : Nat} (hforbidden : Forbidden segments vetoes u l) :
    Segment.continuation? segments u = some l ∧ Vetoed segments vetoes u l := by
  obtain ⟨upper, hu, lower, hl, hnext, hcontinues, hveto⟩ := hforbidden
  exact ⟨h.continuation?_eq_some_iff.mpr ⟨upper, hu, lower, hl, hnext, hcontinues⟩,
    upper, lower, hu, hl, hveto⟩

theorem Segment.Forbidden.lt {segments : Array Segment} {vetoes : List Veto} {u l : Nat}
    (h : Forbidden segments vetoes u l) : u < segments.size ∧ l < segments.size := by
  obtain ⟨upper, hu, lower, hl, -⟩ := h
  exact ⟨(Array.getElem?_eq_some_iff.mp hu).1, (Array.getElem?_eq_some_iff.mp hl).1⟩

namespace Page

/-- Whether no cell holds two segments that a veto is meant to keep apart. -/
def KeepsApart (p : Page) (vetoes : List Veto) : Prop :=
  ∀ r ∈ p.rows, ∀ c ∈ r.blocks, ∀ u ∈ c.segments, ∀ l ∈ c.segments,
    ¬ Segment.Forbidden p.segments vetoes u l

instance (p : Page) (vetoes : List Veto) : Decidable (p.KeepsApart vetoes) :=
  inferInstanceAs (Decidable (∀ _ ∈ _, _))

/-- The vetoes hold in the table exactly if no two blocks that a veto has kept apart are
linked into one cell. -/
theorem keepsApart_iff {p q : Page} {s : Spacing} {vetoes : List Veto} {o : Outcome}
    (h : p.cluster? s vetoes = some (q, o)) :
    q.KeepsApart vetoes ↔
      ∀ a ∈ q.stacked vetoes, ∀ b ∈ q.stacked vetoes, a ≠ b →
        Block.SameCell (q.stacked vetoes) a b → ∀ u ∈ a.segments, ∀ l ∈ b.segments,
          ¬ Segment.Forbidden q.segments vetoes u l := by
  obtain ⟨index, -, hclusters⟩ := exists_clusters h
  have hdistinct := hclusters.distinct
  rw [KeepsApart, hclusters.rows_eq, stacked]
  generalize q.segments = segments at hdistinct
  -- A block is known by any of its segments, and a cell by any two.
  have hcell {a b : Block} (ha : a ∈ (Block.ofSegments segments vetoes).1)
      (hb : b ∈ (Block.ofSegments segments vetoes).1) {u l : Nat} (hu : u ∈ a.segments)
      (hl : l ∈ b.segments) :=
    Row.exists_cell_iff ha hb hu hl (fun x hx hux => Block.eq_of_mem_segments hx ha hux hu)
      fun x hx hlx => Block.eq_of_mem_segments hx hb hlx hl
  constructor
  · intro h a ha b hb _ hsame u hu l hl hforbidden
    obtain ⟨r, hr, c, hc, huc, hlc⟩ := (hcell ha hb hu hl).mpr hsame
    exact h r hr c hc u huc l hlc hforbidden
  · intro h r hr c hc u huc l hlc hforbidden
    obtain ⟨hu, hl⟩ := hforbidden.lt
    obtain ⟨a, ha, hua⟩ := Block.exists_mem_segments vetoes hu
    obtain ⟨b, hb, hlb⟩ := Block.exists_mem_segments vetoes hl
    obtain ⟨hcontinuation, hveto⟩ := hdistinct.forbidden hforbidden
    have hne : a ≠ b := by
      rintro rfl
      exact Block.vetoed_apart hcontinuation hveto ha hua hlb
    exact h a ha b hb hne ((hcell ha hb hua hlb).mp ⟨r, hr, c, hc, huc, hlc⟩) u hua l hlb hforbidden

def tallNeighbour : Page :=
  ofGlyphs 100 100 #[
    .ofText "A" ⟨0, 0, 10, 10⟩ 10 .east 0,
    .ofText "B" ⟨0, 12, 10, 22⟩ 10 .east 0,
    .ofText "C" ⟨20, 0, 30, 22⟩ 10 .east 0]

theorem tallNeighbour_merged : (tallNeighbour.cluster? .standard [⟨"A", "B"⟩]).map
    (fun r => decide (r.1.KeepsApart [⟨"A", "B"⟩])) = some false := by
  decide +kernel

/-- The tall line holds the centers of both short ones, and so brings them into one row,
where they stand above each other. -/
theorem tallNeighbour_not_keepsApart :
    ∃ q o, tallNeighbour.cluster? .standard [⟨"A", "B"⟩] = some (q, o) ∧
      ¬ q.KeepsApart [⟨"A", "B"⟩] := by
  obtain ⟨⟨q, o⟩, hq, hnot⟩ := Option.map_eq_some_iff.mp tallNeighbour_merged
  exact ⟨q, o, hq, of_decide_eq_false hnot⟩

/-- The tall line links the blocks of the two short ones, though these are a continuation that
the veto forbids. -/
theorem tallNeighbour_sameCell :
    ∃ q o, tallNeighbour.cluster? .standard [⟨"A", "B"⟩] = some (q, o) ∧
      ∃ a ∈ q.stacked [⟨"A", "B"⟩], ∃ b ∈ q.stacked [⟨"A", "B"⟩], a ≠ b ∧
        Block.SameCell (q.stacked [⟨"A", "B"⟩]) a b ∧ ∃ u ∈ a.segments, ∃ l ∈ b.segments,
          Segment.Forbidden q.segments [⟨"A", "B"⟩] u l := by
  obtain ⟨⟨q, o⟩, hq, hnot⟩ := Option.map_eq_some_iff.mp tallNeighbour_merged
  have hlinked := mt (keepsApart_iff hq).mpr (of_decide_eq_false hnot)
  simp only [not_forall, not_not, exists_prop] at hlinked
  exact ⟨q, o, hq, hlinked⟩

end Page

end GlyphTable
