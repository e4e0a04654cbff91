import GlyphTable.Block
import GlyphTable.Proofs.Geometry.Projection
import GlyphTable.Proofs.Regrouping
import GlyphTable.Proofs.Segment.Distinct

/-!
# A veto holds among the blocks

`Block.vetoed_apart`: two segments that a veto keeps apart are in different blocks before
rows are made of them. A segment is joined to one continuation at most, so what leads to a
segment that lost its continuation never leads past it; and as lines advance strictly
(`Segment.advance_of_transGen`), it does not lead there from behind either.
-/

namespace GlyphTable

open Relation (ReflTransGen TransGen)

def Segment.Vetoed (segments : Array Segment) (vetoes : List Veto) (i j : Nat) : Prop :=
  ∃ upper lower, segments[i]? = some upper ∧ segments[j]? = some lower ∧
    ∃ v ∈ vetoes, v.Names upper lower

/-- Whether the segment at position `j` is the next line after that at `i`: it takes up the
sequence of glyphs there, and continues it. -/
def Segment.IsContinuation (segments : Array Segment) (i j : Nat) : Prop :=
  ∃ upper ∈ segments[i]?, ∃ lower ∈ segments[j]?,
    upper.last + 1 = lower.first ∧ upper.Continues lower

instance (segments : Array Segment) (i j : Nat) : Decidable (Segment.IsContinuation segments i j) :=
  inferInstanceAs (Decidable (∃ _ ∈ _, ∃ _ ∈ _, _))

namespace Segment

theorem IsContinuation.lt {segments : Array Segment} {i j : Nat} (h : IsContinuation segments i j) :
    i < segments.size ∧ j < segments.size := by
  obtain ⟨upper, hi, lower, hj, -⟩ := h
  exact ⟨(Array.getElem?_eq_some_iff.mp hi).1, (Array.getElem?_eq_some_iff.mp hj).1⟩

theorem Continues.ahead {upper lower : Segment} (h : upper.Continues lower) :
    upper.orientation.clockwise.Ahead upper.box.center lower.box.center :=
  Orientation.ahead_of_dot_pos h.2.2.2.2.1

theorem Continues.dot_lt_dot {upper lower : Segment} (h : upper.Continues lower) :
    upper.box.center.dot upper.orientation.lineAdvance <
      lower.box.center.dot upper.orientation.lineAdvance := by
  obtain ⟨-, -, -, -, hpos, hlimit⟩ := h
  exact Orientation.dot_lt_dot hpos (Binary64.isFinite_of_pos_of_lt hpos hlimit)

theorem advance_of_transGen {segments : Array Segment} {i j : Nat} {s t : Segment}
    (h : TransGen (IsContinuation segments) i j) (hs : segments[i]? = some s)
    (ht : segments[j]? = some t) :
    s.orientation = t.orientation ∧
      s.box.center.dot s.orientation.lineAdvance < t.box.center.dot s.orientation.lineAdvance := by
  induction h generalizing t with
  | single hstep =>
    obtain ⟨upper, hupper, lower, hlower, -, hcontinues⟩ := hstep
    obtain rfl := Option.some.inj (hupper.symm.trans hs)
    obtain rfl := Option.some.inj (hlower.symm.trans ht)
    exact ⟨hcontinues.1, hcontinues.dot_lt_dot⟩
  | tail _ hstep ih =>
    obtain ⟨upper, hupper, lower, hlower, -, hcontinues⟩ := hstep
    obtain rfl := Option.some.inj (hlower.symm.trans ht)
    obtain ⟨horientation, hadvance⟩ := ih hupper
    rw [horientation] at hadvance ⊢
    exact ⟨hcontinues.1, Binary64.lt_trans hadvance hcontinues.dot_lt_dot⟩

theorem not_transGen_self (segments : Array Segment) (i : Nat) :
    ¬ TransGen (IsContinuation segments) i i := by
  intro hcircle
  obtain ⟨j, ⟨s, hs, -⟩, -⟩ := TransGen.head'_iff.mp hcircle
  exact Binary64.lt_irrefl _ (advance_of_transGen hcircle hs hs).2

theorem startingAt?_eq_some {segments : Array Segment} {first j : Nat}
    (h : startingAt? segments first = some j) : ∃ s, segments[j]? = some s ∧ s.first = first := by
  have hfound := List.find?_some h
  rw [Option.any_eq_true] at hfound
  obtain ⟨s, hs, hfirst⟩ := hfound
  exact ⟨s, hs, of_decide_eq_true hfirst⟩

theorem startingAt?_isSome {segments : Array Segment} {j : Nat} {s : Segment}
    (h : segments[j]? = some s) : (startingAt? segments s.first).isSome := by
  rw [startingAt?, List.find?_isSome]
  refine ⟨j, ?_, ?_⟩
  · rw [List.mem_reverse, List.mem_range]
    exact (Array.getElem?_eq_some_iff.mp h).1
  · simp [h]

theorem isContinuation_of_continuation? {segments : Array Segment} {i j : Nat}
    (h : continuation? segments i = some j) : IsContinuation segments i j := by
  simp only [continuation?, Option.bind_eq_bind, Option.bind_eq_some_iff,
    Option.ite_none_right_eq_some,
    Option.some.injEq] at h
  obtain ⟨upper, hupper, k, hk, lower, hlower, ⟨-, hcontinues⟩, rfl⟩ := h
  obtain ⟨s, hs, hfirst⟩ := startingAt?_eq_some hk
  obtain rfl := Option.some.inj (hs.symm.trans hlower)
  exact ⟨upper, hupper, s, hlower, hfirst.symm, hcontinues⟩

theorem continuation?_eq_some {segments : Array Segment} {i j : Nat}
    (h : continuation? segments i = some j) :
    ∃ upper lower, segments[i]? = some upper ∧ segments[j]? = some lower ∧
      upper.Continues lower := by
  obtain ⟨upper, hupper, lower, hlower, -, hcontinues⟩ := isContinuation_of_continuation? h
  exact ⟨upper, lower, hupper, hlower, hcontinues⟩

theorem Distinct.continuation?_eq_some_iff {segments : Array Segment} (h : Distinct segments.toList)
    {i j : Nat} : continuation? segments i = some j ↔ IsContinuation segments i j := by
  refine ⟨isContinuation_of_continuation?, fun hij => ?_⟩
  have hne : j ≠ i := by
    rintro rfl
    exact not_transGen_self segments j (.single hij)
  obtain ⟨upper, hi, lower, hj, hnext, hcontinues⟩ := hij
  obtain ⟨k, hk⟩ := Option.isSome_iff_exists.mp (startingAt?_isSome hj)
  obtain ⟨s, hs, hfirst⟩ := startingAt?_eq_some hk
  obtain rfl : k = j := h.first_inj (Array.getElem?_toList ▸ hs) (Array.getElem?_toList ▸ hj) hfirst
  rw [Option.mem_def] at hi hj
  rw [Segment.continuation?, hi]
  simp only [Option.bind_eq_bind, Option.bind_some, hnext, hk, hj]
  rw [if_pos ⟨hne, hcontinues⟩]

end Segment

namespace Block

theorem vetoFor?_eq_none_iff {vetoes : List Veto} {counts : List Nat} {upper lower : Segment} :
    vetoFor? vetoes counts upper lower = none ↔ ∀ v ∈ vetoes, ¬ v.Names upper lower := by
  simp only [vetoFor?, Option.or_eq_none_iff, List.find?_eq_none, List.head?_eq_none_iff,
    List.filterMap_eq_nil_iff, Prod.forall, ite_eq_right_iff, reduceCtorEq, imp_false]
  constructor
  · rintro ⟨-, hnone⟩ v hv
    obtain ⟨k, hk⟩ := List.mem_iff_getElem?.mp hv
    exact hnone v k (List.mem_zipIdx_iff_getElem?.mpr hk)
  · intro h
    have hnone : ∀ v k, (v, k) ∈ vetoes.zipIdx → ¬ v.Names upper lower := fun v k hvk =>
      h v (List.mem_of_getElem? (List.mem_zipIdx_iff_getElem?.mp hvk))
    refine ⟨fun k hk => ?_, hnone⟩
    obtain ⟨⟨v, m⟩, hvm, hsome⟩ := List.mem_filterMap.mp hk
    rw [if_neg (hnone v m hvm)] at hsome
    cases hsome

theorem vetoFor?_eq_none_iff_not_vetoed {segments : Array Segment} {vetoes : List Veto} {i j : Nat}
    {upper lower : Segment} (hupper : segments[i]? = some upper)
    (hlower : segments[j]? = some lower)
    (counts : List Nat) :
    vetoFor? vetoes counts upper lower = none ↔ ¬ Segment.Vetoed segments vetoes i j := by
  rw [vetoFor?_eq_none_iff]
  constructor
  · rintro hnone ⟨u, l, hu, hl, v, hv, hnames⟩
    obtain rfl := Option.some.inj (hupper.symm.trans hu)
    obtain rfl := Option.some.inj (hlower.symm.trans hl)
    exact hnone v hv hnames
  · exact fun hfree v hv hnames => hfree ⟨upper, lower, hupper, hlower, v, hv, hnames⟩

def Joinable (segments : Array Segment) (vetoes : List Veto) (i j : Nat) : Prop :=
  Segment.continuation? segments i = some j ∧ ¬ Segment.Vetoed segments vetoes i j

theorem mem_joins_step {segments : Array Segment} {vetoes : List Veto} {s : Stack} {k i j : Nat} :
    (i, j) ∈ (s.step segments vetoes k).joins ↔
      (i, j) ∈ s.joins ∨ k = i ∧ Joinable segments vetoes i j := by
  rw [Stack.step]
  cases hcontinuation : Segment.continuation? segments k with
  | none =>
    refine (or_iff_left ?_).symm
    rintro ⟨rfl, hnext, -⟩
    cases hcontinuation.symm.trans hnext
  | some m =>
    obtain ⟨upper, lower, hupper, hlower, -⟩ := Segment.continuation?_eq_some hcontinuation
    have hveto : _ ↔ ¬ Segment.Vetoed segments vetoes k m :=
      vetoFor?_eq_none_iff_not_vetoed hupper hlower s.counts
    simp only [hupper, hlower]
    cases hfound : vetoFor? vetoes s.counts upper lower with
    | some v =>
      refine (or_iff_left ?_).symm
      rintro ⟨rfl, hnext, hfree⟩
      obtain rfl := Option.some.inj (hcontinuation.symm.trans hnext)
      cases hfound.symm.trans (hveto.mpr hfree)
    | none =>
      rw [List.mem_append, List.mem_singleton]
      refine or_congr_right ⟨fun heq => ?_, ?_⟩
      · obtain ⟨rfl, rfl⟩ := Prod.mk.inj heq
        exact ⟨rfl, hcontinuation, hveto.mp hfound⟩
      · rintro ⟨rfl, hnext, -⟩
        rw [Option.some.inj (hcontinuation.symm.trans hnext)]

/-- What gets joined are the pairs that can be, whatever the vetoes count by then. -/
theorem mem_joins_iff {segments : Array Segment} {vetoes : List Veto} {i j : Nat} :
    (i, j) ∈ (stack segments vetoes).joins ↔ Joinable segments vetoes i j := by
  have hfold (positions : List Nat) (s : Stack) :
      (i, j) ∈ (positions.foldl (Stack.step segments vetoes) s).joins ↔
        (i, j) ∈ s.joins ∨ i ∈ positions ∧ Joinable segments vetoes i j := by
    induction positions generalizing s with
    | nil => simp
    | cons k rest ih =>
      rw [List.foldl_cons, ih, mem_joins_step, List.mem_cons, or_assoc, ← or_and_right,
        eq_comm (a := k)]
  rw [stack, hfold, List.mem_range]
  exact ⟨fun h => h.elim (fun hmem => absurd hmem List.not_mem_nil) And.right,
    fun h => .inr ⟨(Segment.isContinuation_of_continuation? h.1).lt.1, h⟩⟩

theorem joinable_of_mem_joins {segments : Array Segment} {vetoes : List Veto} {i j : Nat}
    (h : (i, j) ∈ (stack segments vetoes).joins) : Joinable segments vetoes i j :=
  mem_joins_iff.mp h

def Leads (segments : Array Segment) (vetoes : List Veto) : Nat → Nat → Prop :=
  ReflTransGen fun i j => (i, j) ∈ (stack segments vetoes).joins

theorem Leads.isContinuation {segments : Array Segment} {vetoes : List Veto} {i j : Nat}
    (h : Leads segments vetoes i j) : ReflTransGen (Segment.IsContinuation segments) i j :=
  ReflTransGen.mono (fun _ _ hjoin =>
    Segment.isContinuation_of_continuation? (joinable_of_mem_joins hjoin).1) i j h

theorem not_connected_of_vetoed {segments : Array Segment} {vetoes : List Veto} {i j : Nat}
    (hcontinuation : Segment.continuation? segments i = some j)
    (hveto : Segment.Vetoed segments vetoes i j) :
    ¬ Partition.Connected (stack segments vetoes).joins i j := by
  intro hconnected
  -- What leads to `i` is closed under joins in both directions: the only way on from `i` is vetoed.
  have hclosed : ∀ x y, Partition.Connected (stack segments vetoes).joins x y →
      (Leads segments vetoes x i ↔ Leads segments vetoes y i) := by
    intro x y hxy
    induction hxy with
    | rel x y hjoin =>
      constructor
      · intro hx
        rcases ReflTransGen.cases_head hx with rfl | ⟨z, hz, hzi⟩
        · obtain ⟨hnext, hfree⟩ := joinable_of_mem_joins hjoin
          obtain rfl := Option.some.inj (hnext.symm.trans hcontinuation)
          exact absurd hveto hfree
        · have hnext := (joinable_of_mem_joins hjoin).1
          obtain rfl := Option.some.inj (hnext.symm.trans (joinable_of_mem_joins hz).1)
          exact hzi
      · exact fun hy => .head hjoin hy
    | refl => exact Iff.rfl
    | symm _ _ _ ih => exact ih.symm
    | trans _ _ _ _ _ ihxy ihyz => exact ihxy.trans ihyz
  have hback : Leads segments vetoes j i := (hclosed i j hconnected).mp .refl
  exact Segment.not_transGen_self segments i
    (.head' (Segment.isContinuation_of_continuation? hcontinuation) hback.isContinuation)

-- ---------------------------------------------------------------------------
-- Segments of a block
-- ---------------------------------------------------------------------------

theorem ofMembers?_perm {segments : Array Segment} {members : List Nat} {b : Block}
    (hmembers : ∀ i ∈ members, i < segments.size) (h : ofMembers? segments members = some b) :
    b.segments.Perm members := by
  simp only [ofMembers?, Option.bind_eq_bind, Option.bind_eq_some_iff, Option.pure_def,
    Option.some.injEq] at h
  obtain ⟨i, -, lowest, -, head, -, box, -, rfl⟩ := h
  exact sortKeyed_perm _ fun i hi => ⟨_, by rw [Array.getElem?_eq_getElem (hmembers i hi)]; rfl⟩

theorem ofMembers?_isSome {segments : Array Segment} {members : List Nat} (hne : members ≠ [])
    (hmembers : ∀ i ∈ members, i < segments.size) : ∃ b, ofMembers? segments members = some b := by
  obtain ⟨i, rest, rfl⟩ := List.exists_cons_of_ne_nil hne
  obtain ⟨lowest, hi⟩ : ∃ s, segments[i]? = some s :=
    ⟨_, Array.getElem?_eq_getElem (hmembers i List.mem_cons_self)⟩
  have hperm : (lineOrder segments lowest.orientation.lineAdvance (i :: rest)).Perm (i :: rest) :=
    sortKeyed_perm _ fun j hj => ⟨_, by rw [Array.getElem?_eq_getElem (hmembers j hj)]; rfl⟩
  generalize hlines : lineOrder segments lowest.orientation.lineAdvance (i :: rest) = lines at hperm
  have hparts : lines.filterMap (segments[·]?) ≠ [] :=
    List.ne_nil_of_mem (List.mem_filterMap.mpr ⟨i, hperm.mem_iff.mpr List.mem_cons_self, hi⟩)
  obtain ⟨head, tail, hcons⟩ := List.exists_cons_of_ne_nil hparts
  simp only [ofMembers?, List.head?_cons, Option.bind_eq_bind, Option.bind_some, hi, hlines, hcons]
  exact ⟨_, rfl⟩

section

variable {segments : Array Segment} {vetoes : List Veto}

theorem ofSegments_components (segments : Array Segment) (vetoes : List Veto) :
    Partition.Components segments.size (stack segments vetoes).joins
      (Partition.ofEdges segments.size (stack segments vetoes).joins).classes := by
  exact Partition.ofEdges_components fun (i, j) hij =>
    (Segment.isContinuation_of_continuation? (joinable_of_mem_joins hij).1).lt

theorem exists_class_of_mem {b : Block} (h : b ∈ (ofSegments segments vetoes).1) :
    ∃ c ∈ (Partition.ofEdges segments.size (stack segments vetoes).joins).classes,
      ofMembers? segments c = some b ∧ b.segments.Perm c := by
  obtain ⟨c, hc, hb⟩ := List.mem_filterMap.mp h
  exact ⟨c, hc, hb, ofMembers?_perm ((ofSegments_components segments vetoes).lt_of_mem hc) hb⟩

theorem exists_block_of_class {c : List Nat}
    (hc : c ∈ (Partition.ofEdges segments.size (stack segments vetoes).joins).classes) :
    ∃ b, ofMembers? segments c = some b ∧ b.segments.Perm c := by
  have hcomponents := ofSegments_components segments vetoes
  have hlt := hcomponents.lt_of_mem hc
  obtain ⟨b, hb⟩ := ofMembers?_isSome (hcomponents.nonempty c hc) hlt
  exact ⟨b, hb, ofMembers?_perm hlt hb⟩

theorem exists_mem_segments (vetoes : List Veto) {i : Nat} (hi : i < segments.size) :
    ∃ b ∈ (ofSegments segments vetoes).1, i ∈ b.segments := by
  obtain ⟨c, hc, hic⟩ := (ofSegments_components segments vetoes).cover i hi
  obtain ⟨b, hb, hperm⟩ := exists_block_of_class hc
  exact ⟨b, List.mem_filterMap.mpr ⟨c, hc, hb⟩, hperm.mem_iff.mpr hic⟩

theorem eq_of_mem_segments {a b : Block} (ha : a ∈ (ofSegments segments vetoes).1)
    (hb : b ∈ (ofSegments segments vetoes).1) {i : Nat} (hia : i ∈ a.segments)
    (hib : i ∈ b.segments) :
    a = b := by
  obtain ⟨c, hc, hac, hpermc⟩ := exists_class_of_mem ha
  obtain ⟨d, hd, hbd, hpermd⟩ := exists_class_of_mem hb
  by_cases heq : c = d
  · rw [heq] at hac
    exact Option.some.inj (hac.symm.trans hbd)
  · have hsymm : Std.Symm (List.Disjoint : List Nat → List Nat → Prop) := ⟨fun _ _ h => h.symm⟩
    have hdisjoint := (ofSegments_components segments vetoes).disjoint.forall hc hd heq
    exact absurd (hpermd.mem_iff.mp hib) (hdisjoint (hpermc.mem_iff.mp hia))

theorem ofSegments_perm (segments : Array Segment) (vetoes : List Veto) :
    ((ofSegments segments vetoes).1.flatMap (·.segments)).Perm (List.range segments.size) := by
  have hclasses := (ofSegments_components segments vetoes).flatten_perm
  rw [← List.flatMap_id'] at hclasses
  exact (flatMap_filterMap_perm fun c hc => exists_block_of_class hc).trans hclasses

theorem ofSegments_nonempty {b : Block} (h : b ∈ (ofSegments segments vetoes).1) :
    b.segments ≠ [] := by
  obtain ⟨c, hc, -, hperm⟩ := exists_class_of_mem h
  rintro hnil
  rw [hnil] at hperm
  exact (ofSegments_components segments vetoes).nonempty c hc (List.nil_perm.mp hperm)

theorem vetoed_apart {i j : Nat} (hcontinuation : Segment.continuation? segments i = some j)
    (hveto : Segment.Vetoed segments vetoes i j) {b : Block}
    (hb : b ∈ (ofSegments segments vetoes).1)
    (hi : i ∈ b.segments) : j ∉ b.segments := by
  obtain ⟨c, hc, -, hperm⟩ := exists_class_of_mem hb
  intro hj
  have hconnected :=
    ((ofSegments_components segments vetoes).mem_iff c hc i (hperm.mem_iff.mp hi) j).mp
      (hperm.mem_iff.mp hj)
  exact not_connected_of_vetoed hcontinuation hveto hconnected.2

end

end Block

end GlyphTable
