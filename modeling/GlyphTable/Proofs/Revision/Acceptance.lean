import GlyphTable.Proofs.Revision.Coverage

/-!
# Looking at both ends of a run is enough

`Counterparts.ofRuns_endsSuffice`: runs have their turn longest first, so a run whose end cells
are unmapped meets no run taken before it, and one that is turned down has an end in a taken run
at least as long. Runs are put in order before any is taken, so the sequence in which they are
given decides nothing.
-/

namespace GlyphTable

namespace CommonRun

def Holds (r : CommonRun) (i : Nat) : Prop :=
  r.source ≤ i ∧ i < r.source + r.length

theorem covers_iff {r : CommonRun} {i j : Nat} :
    r.Covers i j ↔ r.Holds i ∧ j = r.target + (i - r.source) := by
  constructor
  · rintro ⟨k, hk, rfl, rfl⟩
    exact ⟨⟨by omega, by omega⟩, by omega⟩
  · rintro ⟨⟨hle, hlt⟩, rfl⟩
    exact ⟨i - r.source, by omega, by omega, rfl⟩

theorem apart_iff {r s : CommonRun} : r.Apart s ↔ ∀ i, r.Holds i → ¬ s.Holds i := by
  constructor
  · intro h i hr hs
    exact h i _ _ (covers_iff.mpr ⟨hr, rfl⟩) (covers_iff.mpr ⟨hs, rfl⟩)
  · intro h i j k hr hs
    exact h i (covers_iff.mp hr).1 (covers_iff.mp hs).1

theorem le_antisymm (r s : CommonRun) (hrs : r.le s) (hsr : s.le r) : r = s := by
  have hlength : r.length = s.length := Nat.le_antisymm (length_le_of_le hsr) (length_le_of_le hrs)
  rw [le, if_pos hlength] at hrs
  rw [le, if_pos hlength.symm] at hsr
  have hsource : r.source = s.source := by
    by_contra hne
    rw [if_neg hne] at hrs
    rw [if_neg (Ne.symm hne)] at hsr
    exact hne (Nat.le_antisymm (of_decide_eq_true hrs) (of_decide_eq_true hsr))
  rw [if_pos hsource] at hrs
  rw [if_pos hsource.symm] at hsr
  have htarget : r.target = s.target :=
    Nat.le_antisymm (of_decide_eq_true hrs) (of_decide_eq_true hsr)
  cases r
  cases s
  rw [mk.injEq]
  exact ⟨hsource, htarget, hlength⟩

end CommonRun

namespace Counterparts

theorem foldl_take_eq (m : Counterparts) (runs : List CommonRun) :
    runs.foldl take m = (m.accepted runs).foldl assign m := by
  induction runs generalizing m with
  | nil => rfl
  | cons r rest ih =>
    rw [List.foldl_cons, take, accepted]
    split
    · exact ih _
    · exact ih m

/-- At its turn a run is taken exactly if it has a cell, is in range and meets none of the runs
taken before. -/
theorem AtTurn.accepts_iff {n : Nat} {runs earlier : List CommonRun} {r : CommonRun}
    {m : Counterparts} (h : AtTurn n runs r m earlier) :
    m.Accepts r ↔ 0 < r.length ∧ r.source + r.length ≤ n ∧
      ∀ s ∈ earlier, ∀ i, s.Holds i → ¬ r.Holds i := by
  constructor
  · intro ha
    refine ⟨ha.1, h.size ▸ ha.2.1, fun s hs i hsi hri => ?_⟩
    have hmapped := (h.madeOf.covered i _).mpr ⟨s, hs, CommonRun.covers_iff.mpr ⟨hsi, rfl⟩⟩
    rw [h.madeOf.free ha i hri.1 hri.2] at hmapped
    cases hmapped
  · rintro ⟨hpos, hroom, hapart⟩
    by_contra hrejected
    obtain ⟨s, hs, -, hend⟩ := h.exists_earlier hpos hroom hrejected
    rcases hend with ⟨k, hk⟩ | ⟨k, hk⟩
    · exact hapart s hs _ (CommonRun.covers_iff.mp hk).1 ⟨le_rfl, by omega⟩
    · exact hapart s hs _ (CommonRun.covers_iff.mp hk).1 ⟨by omega, by omega⟩

theorem eq_of_holds {n : Nat} {runs : List CommonRun} {r s : CommonRun} (hr : r ∈ taken n runs)
    (hs : s ∈ taken n runs) {i : Nat} (hri : r.Holds i) (hsi : s.Holds i) : r = s := by
  have hsymm : Std.Symm CommonRun.Apart := ⟨fun r s h i j k hs hr => h i k j hr hs⟩
  by_contra hne
  have hapart := (ofRuns_madeOf n runs).apart.forall hr hs hne
  exact CommonRun.apart_iff.mp hapart i hri hsi

/-- How `n` cells are mapped by runs of which only the ends are looked at. -/
structure EndsSuffice (n : Nat) (runs : List CommonRun) : Prop where
  /-- The mapping is that of the taken runs. -/
  built : ofRuns n runs = (taken n runs).foldl assign (blank n)
  apart : (taken n runs).Pairwise fun r s => ∀ i, r.Holds i → ¬ s.Holds i
  /-- What the ends of a run tell is what a look at all cells of the runs taken before would. -/
  accepts_iff : ∀ before r, TurnAfter runs before r →
    ((before.foldl take (blank n)).Accepts r ↔ 0 < r.length ∧ r.source + r.length ≤ n ∧
      ∀ s ∈ (blank n).accepted before, ∀ i, s.Holds i → ¬ r.Holds i)
  /-- A run that is taken has cells of the sequence, and none is mapped before. -/
  fresh : ∀ before r, TurnAfter runs before r →
    (before.foldl take (blank n)).Accepts r →
      r ∈ taken n runs ∧ ∀ i, r.Holds i → i < n ∧ (before.foldl take (blank n)).get? i = none
  /-- A run that is turned down meets one that is at least as long with an end. -/
  rejected : ∀ before r, TurnAfter runs before r →
    ¬ (before.foldl take (blank n)).Accepts r → 0 < r.length → r.source + r.length ≤ n →
      ∃ s ∈ taken n runs, r.length ≤ s.length ∧
        (s.Holds r.source ∨ s.Holds (r.source + r.length - 1))
  mapped : ∀ i j, (ofRuns n runs).get? i = some j ↔ ∃ r ∈ taken n runs, r.Holds i ∧
    (∀ s ∈ taken n runs, s.Holds i → s = r) ∧ j = r.target + (i - r.source)
  reordered : ∀ runs', runs'.Perm runs →
    taken n runs' = taken n runs ∧ ofRuns n runs' = ofRuns n runs

/-- Whatever the runs are and in whatever sequence they come, it is enough to look at the ends
of each. -/
theorem ofRuns_endsSuffice (n : Nat) (runs : List CommonRun) : EndsSuffice n runs := by
  refine {
    built := foldl_take_eq _ _
    apart := (ofRuns_madeOf n runs).apart.imp CommonRun.apart_iff.mp
    accepts_iff := fun before r hturn => (hturn.atTurn n).accepts_iff
    fresh := fun before r hturn ha => ?_
    rejected := fun before r hturn hrejected hpos hroom => ?_
    mapped := fun i j => ?_
    reordered := fun runs' hperm => ?_ }
  · have h := hturn.atTurn n
    refine ⟨h.taken_of_accepts ha, fun i hi => ⟨?_, h.madeOf.free ha i hi.1 hi.2⟩⟩
    exact hi.2.trans_le (h.accepts_iff.mp ha).2.1
  · have h := hturn.atTurn n
    obtain ⟨s, hs, hlength, hend⟩ := h.exists_earlier hpos hroom hrejected
    refine ⟨s, h.taken s hs, hlength, hend.imp ?_ ?_⟩ <;>
      exact fun ⟨k, hk⟩ => (CommonRun.covers_iff.mp hk).1
  · rw [get?_ofRuns_iff]
    constructor
    · rintro ⟨r, hr, hcovers⟩
      obtain ⟨hholds, hj⟩ := CommonRun.covers_iff.mp hcovers
      exact ⟨r, hr, hholds, fun s hs hsi => eq_of_holds hs hr hsi hholds, hj⟩
    · rintro ⟨r, hr, hholds, -, hj⟩
      exact ⟨r, hr, CommonRun.covers_iff.mpr ⟨hholds, hj⟩⟩
  · have hsorted := sortStably_eq_of_perm CommonRun.le_total CommonRun.le_trans
      (fun a _ b _ => CommonRun.le_antisymm a b) hperm
    rw [taken, taken, ofRuns, ofRuns, hsorted]
    exact ⟨rfl, rfl⟩

/-- A run inside a longer one, one over its end and one given twice. -/
example : taken 6 [⟨1, 7, 1⟩, ⟨4, 1, 2⟩, ⟨0, 2, 3⟩, ⟨2, 9, 2⟩, ⟨4, 1, 2⟩] =
    [⟨0, 2, 3⟩, ⟨4, 1, 2⟩] := by
  decide +kernel

end Counterparts

end GlyphTable
