import Mathlib
import GlyphTable.Proofs.Revision.RunContent
import GlyphTable.Proofs.Sorting
import GlyphTable.Revision.Counterparts

/-!
# What the taken runs cover

`get?_ofRuns_iff`: two cells correspond exactly if a taken run covers them at the same
place. `oneToOne_commonRuns_iff`: the mapping is one-to-one exactly if no taken run has
an end in the new sequence that an earlier one covers, which `Accepts` does not look at.
-/

namespace GlyphTable

namespace CommonRun

def Covers (r : CommonRun) (i j : Nat) : Prop :=
  ∃ k < r.length, i = r.source + k ∧ j = r.target + k

def Apart (r s : CommonRun) : Prop :=
  ∀ i j k, r.Covers i j → ¬ s.Covers i k

def ApartAhead (r s : CommonRun) : Prop :=
  ∀ i j k, r.Covers i j → ¬ s.Covers k j

def SparesEnds (r s : CommonRun) : Prop :=
  ∀ k, ¬ r.Covers k s.target ∧ ¬ r.Covers k (s.target + s.length - 1)

theorem length_le_of_le {r s : CommonRun} (h : r.le s) : s.length ≤ r.length := by
  simp only [le] at h
  grind

theorem Covers.source_eq {r : CommonRun} {i j k : Nat} (hi : r.Covers i j) (hk : r.Covers k j) :
    i = k := by
  obtain ⟨d, -, rfl, hd⟩ := hi
  obtain ⟨e, -, rfl, he⟩ := hk
  omega

theorem exists_covers_iff {r : CommonRun} {i : Nat} :
    (∃ j, r.Covers i j) ↔ r.source ≤ i ∧ i < r.source + r.length := by
  constructor
  · rintro ⟨j, k, hk, rfl, -⟩
    omega
  · rintro ⟨hle, hlt⟩
    exact ⟨r.target + (i - r.source), i - r.source, by omega, by omega, rfl⟩

/-- A run at least as long that meets another covers one of its ends. -/
theorem covers_end {r s : CommonRun} {i j : Nat} (hlength : r.length ≤ s.length)
    (hr : r.source ≤ i ∧ i < r.source + r.length) (hs : s.Covers i j) :
    (∃ k, s.Covers r.source k) ∨ ∃ k, s.Covers (r.source + r.length - 1) k := by
  have hs' := exists_covers_iff.mp ⟨j, hs⟩
  rw [exists_covers_iff, exists_covers_iff]
  omega

def flip (r : CommonRun) : CommonRun :=
  ⟨r.target, r.source, r.length⟩

theorem covers_flip {r : CommonRun} {i j : Nat} : r.flip.Covers j i ↔ r.Covers i j := by
  constructor <;> exact fun ⟨k, hk, hi, hj⟩ => ⟨k, hk, hj, hi⟩

/-- For a shorter run it is enough to spare the ends. -/
theorem apartAhead_iff_sparesEnds {r s : CommonRun} (hpos : 0 < s.length)
    (hlength : s.length ≤ r.length) : r.ApartAhead s ↔ r.SparesEnds s := by
  constructor
  · intro hapart k
    refine ⟨fun h => hapart k _ s.source h ⟨0, hpos, rfl, rfl⟩, fun h => ?_⟩
    exact hapart k _ (s.source + (s.length - 1)) h ⟨s.length - 1, by omega, rfl, by omega⟩
  · intro hspares i j k hr hs
    have hflip := exists_covers_iff.mp ⟨k, covers_flip.mpr hs⟩
    rcases covers_end (r := s.flip) (s := r.flip) hlength hflip (covers_flip.mpr hr) with
      ⟨l, hl⟩ | ⟨l, hl⟩
    · exact (hspares l).1 (covers_flip.mp hl)
    · exact (hspares l).2 (covers_flip.mp hl)

end CommonRun

namespace Counterparts

theorem get?_blank (n i : Nat) : (blank n).get? i = none := by
  simp only [get?, blank, List.getElem?_toArray, List.getElem?_replicate]
  split <;> rfl

theorem get?_assign {m : Counterparts} {r : CommonRun}
    (hr : r.source + r.length ≤ m.size) (i : Nat) :
    (m.assign r).get? i =
      if r.source ≤ i ∧ i < r.source + r.length then some (r.target + (i - r.source))
      else m.get? i := by
  -- After `l` steps the first `l` cells of the run are mapped.
  have hsteps (l : Nat) (hl : l ≤ r.length) :
      ((List.range l).foldl (fun targets k =>
        targets.setIfInBounds (r.source + k) (some (r.target + k))) m.targets)[i]? =
      if r.source ≤ i ∧ i < r.source + l then some (some (r.target + (i - r.source)))
      else m.targets[i]? := by
    induction l with
    | zero => rw [if_neg (by omega)]; rfl
    | succ l ih =>
      have hsize := size_assign m ⟨r.source, r.target, l⟩
      simp only [assign, size] at hsize hr
      rw [List.range_succ, List.foldl_append, List.foldl_cons, List.foldl_nil,
        Array.getElem?_setIfInBounds, ih (by omega), hsize]
      grind
  rw [get?, assign, hsteps r.length le_rfl, get?]
  split <;> rfl

theorem get?_assign_eq_some {m : Counterparts} {r : CommonRun} {i j : Nat}
    (hr : r.source + r.length ≤ m.size)
    (hfree : ∀ i, r.source ≤ i → i < r.source + r.length → m.get? i = none) :
    (m.assign r).get? i = some j ↔ r.Covers i j ∨ m.get? i = some j := by
  rw [get?_assign hr]
  split
  · next hi =>
    rw [hfree i hi.1 hi.2]
    simp only [Option.some.injEq, reduceCtorEq, or_false]
    constructor
    · rintro rfl
      exact ⟨i - r.source, by omega, by omega, rfl⟩
    · rintro ⟨k, -, rfl, rfl⟩
      omega
  · next hi =>
    constructor
    · exact .inr
    · rintro (hcovers | hget)
      · exact absurd (CommonRun.exists_covers_iff.mp ⟨j, hcovers⟩) hi
      · exact hget

-- ---------------------------------------------------------------------------
-- Taking runs, longest first
-- ---------------------------------------------------------------------------

def accepted (m : Counterparts) : List CommonRun → List CommonRun
  | [] => []
  | r :: rest => if m.Accepts r then r :: (m.assign r).accepted rest else m.accepted rest

def taken (n : Nat) (runs : List CommonRun) : List CommonRun :=
  (blank n).accepted (sortStably CommonRun.le runs)

theorem accepted_sublist (m : Counterparts) (runs : List CommonRun) :
    (m.accepted runs).Sublist runs := by
  induction runs generalizing m with
  | nil => exact .slnil
  | cons r rest ih =>
    rw [accepted]
    split
    · exact (ih _).cons_cons r
    · exact (ih _).cons r

theorem pos_of_mem_accepted {m : Counterparts} {runs : List CommonRun} {r : CommonRun}
    (h : r ∈ m.accepted runs) : 0 < r.length := by
  induction runs generalizing m with
  | nil => cases h
  | cons s rest ih =>
    rw [accepted] at h
    split at h
    · next ha =>
      rcases List.mem_cons.mp h with rfl | h
      · exact ha.1
      · exact ih h
    · exact ih h

theorem mem_of_mem_taken {n : Nat} {runs : List CommonRun} {r : CommonRun}
    (h : r ∈ taken n runs) : r ∈ runs :=
  mem_sortStably.mp ((accepted_sublist _ _).mem h)

theorem taken_descending (n : Nat) (runs : List CommonRun) :
    (taken n runs).Pairwise fun r s => s.length ≤ r.length := by
  refine .imp (fun {r s} hle => ?_)
    ((pairwise_sortStably CommonRun.le_total CommonRun.le_trans runs).sublist
    (accepted_sublist (blank n) _))
  exact CommonRun.length_le_of_le hle

/-- The mapping made by `runs`, of which none is shorter than `least`. -/
structure MadeOf (m : Counterparts) (runs : List CommonRun) (least : Nat) : Prop where
  covered : ∀ i j, m.get? i = some j ↔ ∃ r ∈ runs, r.Covers i j
  long : ∀ r ∈ runs, least ≤ r.length
  apart : runs.Pairwise CommonRun.Apart

section

variable {m : Counterparts} {runs : List CommonRun} {least : Nat}

theorem MadeOf.mono (h : m.MadeOf runs least) {least' : Nat} (hle : least' ≤ least) :
    m.MadeOf runs least' :=
  ⟨h.covered, fun r hr => hle.trans (h.long r hr), h.apart⟩

/-- Free ends are enough: what meets the run inside is long enough to reach an end. -/
theorem MadeOf.free {r : CommonRun} (h : m.MadeOf runs r.length) (ha : m.Accepts r) (i : Nat)
    (hle : r.source ≤ i) (hlt : i < r.source + r.length) : m.get? i = none := by
  obtain ⟨-, -, hfirst, hlast⟩ := ha
  refine Option.eq_none_iff_forall_ne_some.mpr fun j hj => ?_
  obtain ⟨s, hs, hcovers⟩ := (h.covered i j).mp hj
  rcases CommonRun.covers_end (h.long s hs) ⟨hle, hlt⟩ hcovers with ⟨k, hk⟩ | ⟨k, hk⟩
  · have hmapped := (h.covered r.source k).mpr ⟨s, hs, hk⟩
    rw [hfirst] at hmapped
    cases hmapped
  · have hmapped := (h.covered _ k).mpr ⟨s, hs, hk⟩
    rw [hlast] at hmapped
    cases hmapped

theorem MadeOf.assign {r : CommonRun} (h : m.MadeOf runs r.length) (ha : m.Accepts r) :
    (m.assign r).MadeOf (runs ++ [r]) r.length := by
  have hfree := h.free ha
  refine ⟨fun i j => ?_, fun s hs => ?_, ?_⟩
  · rw [get?_assign_eq_some ha.2.1 hfree, h.covered]
    simp only [List.mem_append, List.mem_singleton]
    constructor
    · rintro (hr | ⟨s, hs, hcovers⟩)
      · exact ⟨r, .inr rfl, hr⟩
      · exact ⟨s, .inl hs, hcovers⟩
    · rintro ⟨s, hs | rfl, hcovers⟩
      · exact .inr ⟨s, hs, hcovers⟩
      · exact .inl hcovers
  · rcases List.mem_append.mp hs with hs | hs
    · exact h.long s hs
    · rw [List.mem_singleton.mp hs]
  · refine List.pairwise_append.mpr ⟨h.apart, List.pairwise_singleton _ _, fun s hs t ht => ?_⟩
    obtain rfl := List.mem_singleton.mp ht
    intro i j k hsi hti
    -- A cell of both would be mapped by `s` already.
    obtain ⟨hle, hlt⟩ := CommonRun.exists_covers_iff.mp ⟨k, hti⟩
    have hmapped := (h.covered i j).mpr ⟨s, hs, hsi⟩
    rw [hfree i hle hlt] at hmapped
    cases hmapped

theorem MadeOf.foldl {rest : List CommonRun} (h : m.MadeOf runs least)
    (hleast : ∀ r ∈ rest, r.length ≤ least) (hrest : rest.Pairwise (CommonRun.le · ·)) :
    (rest.foldl take m).MadeOf (runs ++ m.accepted rest) 0 := by
  induction rest generalizing m runs least with
  | nil => simpa [accepted] using h.mono (Nat.zero_le least)
  | cons r rest ih =>
    obtain ⟨hr, hrest⟩ := List.pairwise_cons.mp hrest
    have hm := h.mono (hleast r List.mem_cons_self)
    have hshorter (s : CommonRun) (hs : s ∈ rest) : s.length ≤ r.length :=
      CommonRun.length_le_of_le (hr s hs)
    rw [List.foldl_cons, take, accepted]
    split
    · next ha =>
      simpa using ih (hm.assign ha) hshorter hrest
    · exact ih hm hshorter hrest

end

theorem blank_madeOf (n least : Nat) : (blank n).MadeOf [] least := by
  refine ⟨fun i j => ?_, by simp, .nil⟩
  simp [get?_blank]

theorem exists_length_le (runs : List CommonRun) : ∃ most, ∀ r ∈ runs, r.length ≤ most := by
  induction runs with
  | nil => exact ⟨0, by simp⟩
  | cons s rest ih =>
    obtain ⟨most, h⟩ := ih
    refine ⟨max s.length most, fun r hr => ?_⟩
    rcases List.mem_cons.mp hr with rfl | hr
    · exact le_max_left _ _
    · exact (h r hr).trans (le_max_right _ _)

theorem ofRuns_madeOf (n : Nat) (runs : List CommonRun) :
    (ofRuns n runs).MadeOf (taken n runs) 0 := by
  obtain ⟨most, hmost⟩ := exists_length_le (sortStably CommonRun.le runs)
  exact (blank_madeOf n most).foldl hmost
    (pairwise_sortStably CommonRun.le_total CommonRun.le_trans runs)

theorem get?_ofRuns_iff {n : Nat} {runs : List CommonRun} {i j : Nat} :
    (ofRuns n runs).get? i = some j ↔ ∃ r ∈ taken n runs, r.Covers i j :=
  (ofRuns_madeOf n runs).covered i j

-- ---------------------------------------------------------------------------
-- A run at its turn
-- ---------------------------------------------------------------------------

theorem accepted_append (m : Counterparts) (before rest : List CommonRun) :
    m.accepted (before ++ rest) = m.accepted before ++ (before.foldl take m).accepted rest := by
  induction before generalizing m with
  | nil => rfl
  | cons r before ih =>
    rw [List.cons_append, accepted, accepted, List.foldl_cons, take]
    split
    · rw [ih, List.cons_append]
    · exact ih m

/-- Whether the run `r` has a turn just when the runs `before` have had theirs. -/
def TurnAfter (runs before : List CommonRun) (r : CommonRun) : Prop :=
  ∃ after, sortStably CommonRun.le runs = before ++ r :: after

theorem exists_turnAfter {runs : List CommonRun} {r : CommonRun} (h : r ∈ runs) :
    ∃ before, TurnAfter runs before r :=
  List.append_of_mem (mem_sortStably.mpr h)

/-- The runs and the mapping that a run finds when it has its turn. -/
structure AtTurn (n : Nat) (runs : List CommonRun) (r : CommonRun) (m : Counterparts)
    (earlier : List CommonRun) : Prop where
  size : m.size = n
  madeOf : m.MadeOf earlier r.length
  taken : ∀ s ∈ earlier, s ∈ taken n runs
  taken_of_accepts : m.Accepts r → r ∈ Counterparts.taken n runs

theorem TurnAfter.atTurn {runs before : List CommonRun} {r : CommonRun}
    (h : TurnAfter runs before r)
    (n : Nat) : AtTurn n runs r (before.foldl take (blank n)) ((blank n).accepted before) := by
  obtain ⟨after, h⟩ := h
  have hsorted := pairwise_sortStably CommonRun.le_total CommonRun.le_trans runs
  rw [h] at hsorted
  obtain ⟨hbefore, -, hlater⟩ := List.pairwise_append.mp hsorted
  have htaken : taken n runs = (blank n).accepted before ++
      (before.foldl take (blank n)).accepted (r :: after) := by
    rw [taken, h, accepted_append]
  obtain ⟨most, hmost⟩ := exists_length_le before
  have hmade := (blank_madeOf n most).foldl hmost hbefore
  refine ⟨?_, ⟨hmade.covered, fun s hs => ?_, hmade.apart⟩, fun s hs => ?_, fun ha => ?_⟩
  · rw [size_foldl_take]
    simp [blank, size]
  · exact CommonRun.length_le_of_le (hlater s ((accepted_sublist _ _).mem hs) r List.mem_cons_self)
  · rw [htaken]
    exact List.mem_append_left _ hs
  · rw [htaken, accepted, if_pos ha]
    exact List.mem_append_right _ List.mem_cons_self

/-- A run is turned down only for one at least as long that has a cell at one of its ends. -/
theorem AtTurn.exists_earlier {n : Nat} {runs earlier : List CommonRun} {r : CommonRun}
    {m : Counterparts} (h : AtTurn n runs r m earlier) (hpos : 0 < r.length)
    (hroom : r.source + r.length ≤ n) (hrejected : ¬ m.Accepts r) :
    ∃ s ∈ earlier, r.length ≤ s.length ∧
      ((∃ k, s.Covers r.source k) ∨ ∃ k, s.Covers (r.source + r.length - 1) k) := by
  have hmapped (i : Nat) (hi : m.get? i ≠ none) : ∃ s ∈ earlier, ∃ k, s.Covers i k := by
    obtain ⟨k, hk⟩ := Option.ne_none_iff_exists'.mp hi
    obtain ⟨s, hs, hcovers⟩ := (h.madeOf.covered i k).mp hk
    exact ⟨s, hs, k, hcovers⟩
  -- The run is in range, so it is turned down for an end that is mapped.
  by_cases hfirst : m.get? r.source = none
  · obtain ⟨s, hs, hk⟩ := hmapped _ fun hlast =>
      hrejected ⟨hpos, hroom.trans_eq h.size.symm, hfirst, hlast⟩
    exact ⟨s, hs, h.madeOf.long s hs, .inr hk⟩
  · obtain ⟨s, hs, hk⟩ := hmapped _ hfirst
    exact ⟨s, hs, h.madeOf.long s hs, .inl hk⟩

theorem exists_taken_of_mem {n : Nat} {runs : List CommonRun} {r : CommonRun} (hr : r ∈ runs)
    (hpos : 0 < r.length) (hroom : r.source + r.length ≤ n) :
    ∃ s ∈ taken n runs, r.length ≤ s.length ∧
      ((∃ k, s.Covers r.source k) ∨ ∃ k, s.Covers (r.source + r.length - 1) k) := by
  obtain ⟨before, hturn⟩ := exists_turnAfter hr
  have h := hturn.atTurn n
  by_cases ha : (before.foldl take (blank n)).Accepts r
  · exact ⟨r, h.taken_of_accepts ha, le_rfl,
      .inl (CommonRun.exists_covers_iff.mpr ⟨le_rfl, by omega⟩)⟩
  · obtain ⟨s, hs, hlength, hend⟩ := h.exists_earlier hpos hroom ha
    exact ⟨s, h.taken s hs, hlength, hend⟩

theorem get?_commonRuns_equal {a b : Array UInt64} (hb : separator ∉ b) {i j : Nat}
    (h : (ofRuns a.size (commonRuns a b)).get? i = some j) :
    i < a.size ∧ j < b.size ∧ a[i]? = b[j]? := by
  obtain ⟨r, hr, k, hk, rfl, rfl⟩ := get?_ofRuns_iff.mp h
  have hmatches := commonRuns_matches hb (mem_of_mem_taken hr)
  have hsource := hmatches.source_le
  have htarget := hmatches.target_le
  exact ⟨by omega, by omega, hmatches.equal k hk⟩

-- ---------------------------------------------------------------------------
-- One-to-one mappings
-- ---------------------------------------------------------------------------

def OneToOne (m : Counterparts) : Prop :=
  ∀ i k j, m.get? i = some j → m.get? k = some j → i = k

theorem get?_eq_some {m : Counterparts} {i j : Nat} :
    m.get? i = some j ↔ m.targets.toList[i]? = some (some j) := by
  rw [get?, Option.join_eq_some_iff, Array.getElem?_toList]

theorem oneToOne_iff_nodup {m : Counterparts} :
    m.OneToOne ↔ (m.targets.toList.filterMap id).Nodup := by
  rw [List.Nodup, List.pairwise_filterMap, List.pairwise_iff_getElem]
  constructor
  · rintro hone i k hi hk hlt j hj j' hj' rfl
    have heq := hone i k j (get?_eq_some.mpr (List.getElem?_eq_some_iff.mpr ⟨hi, hj⟩))
      (get?_eq_some.mpr (List.getElem?_eq_some_iff.mpr ⟨hk, hj'⟩))
    exact absurd heq (Nat.ne_of_lt hlt)
  · intro hpairwise i k j hi hk
    obtain ⟨hilt, hi⟩ := List.getElem?_eq_some_iff.mp (get?_eq_some.mp hi)
    obtain ⟨hklt, hk⟩ := List.getElem?_eq_some_iff.mp (get?_eq_some.mp hk)
    rcases Nat.lt_trichotomy i k with hlt | heq | hlt
    · exact absurd rfl (hpairwise i k hilt hklt hlt j hi j hk)
    · exact heq
    · exact absurd rfl (hpairwise k i hklt hilt hlt j hk j hi)

instance (m : Counterparts) : Decidable m.OneToOne :=
  decidable_of_iff _ oneToOne_iff_nodup.symm

theorem oneToOne_ofRuns_iff {n : Nat} {runs : List CommonRun} :
    (ofRuns n runs).OneToOne ↔ (taken n runs).Pairwise CommonRun.ApartAhead := by
  have hmade := ofRuns_madeOf n runs
  constructor
  · intro hone
    refine hmade.apart.imp_of_mem fun {r s} hr hs hapart i j k hi hk => ?_
    obtain rfl := hone i k j (get?_ofRuns_iff.mpr ⟨r, hr, hi⟩) (get?_ofRuns_iff.mpr ⟨s, hs, hk⟩)
    exact hapart i j j hi hk
  · intro hahead i k j hi hk
    obtain ⟨r, hr, hri⟩ := get?_ofRuns_iff.mp hi
    obtain ⟨s, hs, hsk⟩ := get?_ofRuns_iff.mp hk
    by_cases hrs : r = s
    · subst hrs
      exact hri.source_eq hsk
    · have hsymm : Std.Symm CommonRun.ApartAhead :=
        ⟨fun r s h i j k hs hr => h k j i hr hs⟩
      exact absurd hsk (hahead.forall hr hs hrs i j k hri)

/-- The mapping of two sequences is one-to-one exactly if no run is taken that has an end
in the new sequence where an earlier one has a cell. Old cells that share a counterpart
hold one word. -/
theorem oneToOne_commonRuns_iff {a b : Array UInt64} (hb : separator ∉ b) :
    ((ofRuns a.size (commonRuns a b)).OneToOne ↔
      (taken a.size (commonRuns a b)).Pairwise CommonRun.SparesEnds) ∧
    ∀ i k j, (ofRuns a.size (commonRuns a b)).get? i = some j →
      (ofRuns a.size (commonRuns a b)).get? k = some j → a[i]? = a[k]? := by
  refine ⟨?_, fun i k j hi hk => ?_⟩
  · rw [oneToOne_ofRuns_iff]
    have hdescending := taken_descending a.size (commonRuns a b)
    constructor
    · intro hahead
      refine (hahead.and hdescending).imp_of_mem fun {r s} _ hs h => ?_
      exact (CommonRun.apartAhead_iff_sparesEnds (pos_of_mem_accepted hs) h.2).mp h.1
    · intro hspares
      refine (hspares.and hdescending).imp_of_mem fun {r s} _ hs h => ?_
      exact (CommonRun.apartAhead_iff_sparesEnds (pos_of_mem_accepted hs) h.2).mpr h.1
  · rw [(get?_commonRuns_equal hb hi).2.2, (get?_commonRuns_equal hb hk).2.2]

/-- The run of length two is taken first, then its other end is mapped again. -/
theorem commonRuns_collide : ¬ (ofRuns 3 (commonRuns #[2, 1, 2] #[1, 2, 2])).OneToOne := by
  decide +kernel

theorem commonRuns_share_end :
    separator ∉ (#[1, 2, 2] : Array UInt64) ∧
      ¬ (taken 3 (commonRuns #[2, 1, 2] #[1, 2, 2])).Pairwise CommonRun.SparesEnds := by
  have hb : separator ∉ (#[1, 2, 2] : Array UInt64) := by decide +kernel
  refine ⟨hb, fun hspares => ?_⟩
  have hone := (oneToOne_commonRuns_iff (a := #[2, 1, 2]) hb).1.mpr hspares
  exact absurd (hone 0 2 1 (by decide +kernel) (by decide +kernel)) (by decide)

end Counterparts

end GlyphTable
