import GlyphTable.Proofs.Block.Stacking
import GlyphTable.Proofs.Partition.Paths

/-!
# Blocks are chains of lines

Among segments without a common glyph, every one is the next line of one other at most and has
one next line at most, and centers advance strictly from line to line, so that joins make paths
(`Segment.Distinct.paths`). Sorting a block by its centers therefore lists the path:
`Block.ofSegments_chains` says that the blocks are the maximal chains of lines that follow each
other and that no veto keeps apart.
-/

namespace GlyphTable

open Relation (EqvGen ReflTransGen TransGen)

variable {segments : Array Segment} {vetoes : List Veto}

namespace Segment

def NextLine (segments : Array Segment) (vetoes : List Veto) (i j : Nat) : Prop :=
  IsContinuation segments i j ∧ ¬ Vetoed segments vetoes i j

theorem transGen_isContinuation {i j : Nat} (h : TransGen (NextLine segments vetoes) i j) :
    TransGen (IsContinuation segments) i j :=
  TransGen.mono (fun _ _ hstep => hstep.1) i j h

namespace Distinct

variable (h : Distinct segments.toList)

include h

theorem joinable_iff {i j : Nat} :
    Block.Joinable segments vetoes i j ↔ NextLine segments vetoes i j :=
  and_congr_left' h.continuation?_eq_some_iff

theorem paths (vetoes : List Veto) : Paths (NextLine segments vetoes) where
  rightUnique := by
    rintro i j k ⟨hij, -⟩ ⟨hik, -⟩
    exact Option.some.inj
      ((h.continuation?_eq_some_iff.mpr hij).symm.trans (h.continuation?_eq_some_iff.mpr hik))
  leftUnique := by
    rintro i j k ⟨⟨upper, hi, lower, hk, hnext, -⟩, -⟩ ⟨⟨upper', hj, lower', hk', hnext', -⟩, -⟩
    obtain rfl := Option.some.inj (hk.symm.trans hk')
    refine h.last_inj (Array.getElem?_toList ▸ hi) (Array.getElem?_toList ▸ hj) ?_
    exact Nat.succ.inj (hnext.trans hnext'.symm)
  acyclic i hcircle := not_transGen_self segments i (transGen_isContinuation hcircle)

theorem orientation_eq_of_eqvGen {i j : Nat} {s t : Segment}
    (hij : EqvGen (NextLine segments vetoes) i j)
    (hs : segments[i]? = some s) (ht : segments[j]? = some t) : s.orientation = t.orientation := by
  have hlead {i j : Nat} {s t : Segment} (hij : ReflTransGen (NextLine segments vetoes) i j)
    (hs : segments[i]? = some s) (ht : segments[j]? = some t) :
    s.orientation = t.orientation := by
    rcases Relation.reflTransGen_iff_eq_or_transGen.mp hij with rfl | hij
    · exact congrArg orientation (Option.some.inj (hs.symm.trans ht))
    · exact (advance_of_transGen (transGen_isContinuation hij) hs ht).1
  exact ((h.paths vetoes).leads_or_leads hij).elim (hlead · hs ht) fun hji => (hlead hji ht hs).symm

end Distinct

end Segment

namespace Block

open Segment (NextLine)

theorem lineOrder_pairwise (segments : Array Segment) (direction : Point) (members : List Nat) :
    (lineOrder segments direction members).Pairwise fun i j => ∀ s t, segments[i]? = some s →
      segments[j]? = some t →
        Binary64.leKeyed (s.box.center.dot direction, s.first)
          (t.box.center.dot direction, t.first) := by
  have hposition (i : Nat) (e : (Float × Nat) × Nat)
      (he : (segments[i]?.map fun s => ((s.box.center.dot direction, s.first), i)) = some e) :
      e.2 = i := by
    obtain ⟨s, -, rfl⟩ := Option.map_eq_some_iff.mp he
    rfl
  have hsorted := sortKeyed_pairwise (fun a b => Binary64.leKeyed_total a.1 b.1)
    (fun a b c => Binary64.leKeyed_trans a.1 b.1 c.1) hposition members
  refine hsorted.imp fun {i j} hle s t hs ht => ?_
  exact hle ((s.box.center.dot direction, s.first), i) ((t.box.center.dot direction, t.first), j)
    (by rw [hs]; rfl) (by rw [ht]; rfl)

theorem segments_eq_lineOrder {members : List Nat} {b : Block}
    (h : ofMembers? segments members = some b) :
    ∃ i ∈ members, ∃ lowest, segments[i]? = some lowest ∧
      b.segments = lineOrder segments lowest.orientation.lineAdvance members := by
  simp only [ofMembers?, Option.bind_eq_bind, Option.bind_eq_some_iff, Option.pure_def,
    Option.some.injEq] at h
  obtain ⟨i, hi, lowest, hlowest, head, -, box, -, rfl⟩ := h
  exact ⟨i, List.mem_of_head? hi, lowest, hlowest, rfl⟩

section

variable (h : Segment.Distinct segments.toList)

include h

theorem connected_joins_iff {i j : Nat} :
    Partition.Connected (stack segments vetoes).joins i j ↔
      EqvGen (NextLine segments vetoes) i j := by
  have hedges : (fun i j => (i, j) ∈ (stack segments vetoes).joins) = NextLine segments vetoes := by
    funext i j
    exact propext (mem_joins_iff.trans h.joinable_iff)
  rw [Partition.Connected, hedges]

theorem mem_segments_iff {b : Block} (hb : b ∈ (ofSegments segments vetoes).1) {i : Nat}
    (hi : i ∈ b.segments) (j : Nat) :
    j ∈ b.segments ↔ j < segments.size ∧ EqvGen (NextLine segments vetoes) i j := by
  obtain ⟨c, hc, -, hperm⟩ := exists_class_of_mem hb
  rw [hperm.mem_iff, (ofSegments_components segments vetoes).mem_iff c hc i (hperm.mem_iff.mp hi),
    connected_joins_iff h]

/-- Sorting by centers lists the lines of a block from one to the next. -/
theorem isChain_segments {b : Block} (hb : b ∈ (ofSegments segments vetoes).1) :
    b.segments.IsChain (NextLine segments vetoes) := by
  obtain ⟨c, hc, hmembers, hperm⟩ := exists_class_of_mem hb
  have hmem {i : Nat} := mem_segments_iff h hb (i := i)
  have hnodup : b.segments.Nodup :=
    hperm.nodup_iff.mpr (((ofSegments_components segments vetoes).ascending c hc).imp Nat.ne_of_lt)
  refine (h.paths vetoes).isChain_of_sorted hnodup (fun i hi j hij => ?_) (fun i hi j hj => ?_) ?_
  · exact (hmem hi j).mpr ⟨hij.1.lt.2, .rel i j hij⟩
  · exact ((hmem hi j).mp hj).2
  obtain ⟨k, hk, lowest, hlowest, hlines⟩ := segments_eq_lineOrder hmembers
  have hsorted := lineOrder_pairwise segments lowest.orientation.lineAdvance c
  rw [← hlines] at hsorted
  refine hsorted.imp_of_mem fun {i j} hi hj hle hback => ?_
  obtain ⟨t, ht⟩ : ∃ t, segments[j]? = some t :=
    ⟨_, Array.getElem?_eq_getElem ((hmem hi j).mp hj).1⟩
  obtain ⟨s, hs⟩ : ∃ s, segments[i]? = some s :=
    ⟨_, Array.getElem?_eq_getElem ((hmem hj i).mp hi).1⟩
  -- The sort uses the direction of the segment listed first, which is that of all of them.
  have hdirection : lowest.orientation = t.orientation :=
    h.orientation_eq_of_eqvGen ((hmem (hperm.mem_iff.mpr hk) j).mp hj).2 hlowest ht
  have hadvance := (Segment.advance_of_transGen (Segment.transGen_isContinuation hback) ht hs).2
  rw [← hdirection] at hadvance
  have hle := Binary64.le_of_leKeyed (Binary64.lt_iff.mp hadvance).1 (hle s t hs ht)
  exact Binary64.lt_irrefl _ (Binary64.lt_of_lt_of_le hadvance hle.1)

end

/-- Blocks that are the maximal chains of lines which follow each other and which no veto keeps
apart. -/
structure Chains (segments : Array Segment) (vetoes : List Veto) (blocks : List Block) : Prop where
  /-- Every segment is a line of one block, once. -/
  once : (blocks.flatMap (·.segments)).Perm (List.range segments.size)
  nonempty : ∀ b ∈ blocks, b.segments ≠ []
  /-- A block lists its lines from one to the next. -/
  next : ∀ b ∈ blocks, b.segments.IsChain (NextLine segments vetoes)
  /-- The next line of a segment is next to it in a block. -/
  complete : ∀ i j, NextLine segments vetoes i j → ∃ b ∈ blocks, [i, j] <:+: b.segments
  /-- Where a veto is about a continuation, no block has both lines, also further apart. -/
  apart : ∀ i j, Segment.IsContinuation segments i j → Segment.Vetoed segments vetoes i j →
    ∀ b ∈ blocks, i ∈ b.segments → j ∉ b.segments

theorem ofSegments_chains (h : Segment.Distinct segments.toList) (vetoes : List Veto) :
    Chains segments vetoes (ofSegments segments vetoes).1 where
  once := ofSegments_perm segments vetoes
  nonempty _ hb := ofSegments_nonempty hb
  next _ hb := isChain_segments h hb
  complete i j hij := by
    obtain ⟨b, hb, hi⟩ := exists_mem_segments vetoes hij.1.lt.1
    have hj : j ∈ b.segments := (mem_segments_iff h hb hi j).mpr ⟨hij.1.lt.2, .rel i j hij⟩
    exact ⟨b, hb, (h.paths vetoes).infix_of_isChain (isChain_segments h hb) hi hj hij⟩
  apart i j hij hveto b hb hi := vetoed_apart (h.continuation?_eq_some_iff.mpr hij) hveto hb hi

/-- Lines read to the left, of which each stands above the one before. The second is listed first
and the last before the third. -/
def westLines : Array Segment :=
  #[⟨[2, 3], "b", ⟨0, 24, 20, 34⟩, 10, 0, .west⟩, ⟨[0, 1], "a", ⟨0, 36, 20, 46⟩, 10, 0, .west⟩,
    ⟨[6], "d", ⟨0, 0, 20, 10⟩, 10, 0, .west⟩, ⟨[4, 5], "c", ⟨0, 12, 20, 22⟩, 10, 0, .west⟩]

theorem ofSegments_chains_west :
    (ofSegments westLines [⟨"c", "d"⟩]).1.map (·.segments) = [[1, 0, 3], [2]] ∧
      Chains westLines [⟨"c", "d"⟩] (ofSegments westLines [⟨"c", "d"⟩]).1 :=
  ⟨by decide +kernel, ofSegments_chains ⟨by decide, by simp [westLines, List.Disjoint]⟩ _⟩

end Block

end GlyphTable
