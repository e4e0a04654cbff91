import GlyphTable.Proofs.Revision.Coverage
import GlyphTable.Proofs.Revision.Neighbours

/-!
# Contents that do not repeat

Where no word that two sequences share stands twice in either, cells correspond exactly if
they hold the same word (`Counterparts.get?_commonRuns_iff`). The run of a pair of equal
cells is turned down only for a longer one on the same diagonal, which covers the pair too
because both end where the sequences begin to differ.
-/

namespace GlyphTable

theorem eq_of_count_eq_one {a : Array UInt64} {v : UInt64} (h : a.count v = 1) {i k : Nat}
    (hi : a[i]? = some v) (hk : a[k]? = some v) : i = k := by
  rw [← Array.count_toList] at h
  rw [← Array.getElem?_toList] at hi hk
  obtain ⟨hilt, hi⟩ := List.getElem?_eq_some_iff.mp hi
  obtain ⟨hklt, hk⟩ := List.getElem?_eq_some_iff.mp hk
  have hnotwice : ¬ List.Duplicate v a.toList := by
    rw [List.duplicate_iff_two_le_count]
    omega
  rw [List.duplicate_iff_exists_distinct_get] at hnotwice
  rcases Nat.lt_trichotomy i k with hlt | heq | hlt
  · exact absurd ⟨⟨i, hilt⟩, ⟨k, hklt⟩, hlt, hi.symm, hk.symm⟩ hnotwice
  · exact heq
  · exact absurd ⟨⟨k, hklt⟩, ⟨i, hilt⟩, hlt, hk.symm, hi.symm⟩ hnotwice

def SharedOnce (a b : Array UInt64) : Prop :=
  ∀ v ∈ a, v ∈ b → a.count v = 1 ∧ b.count v = 1

namespace CommonRun

variable {a b : Array UInt64} {r s : CommonRun}

theorem Matches.exists_word (h : r.Matches a b) {i j : Nat} (hcovers : r.Covers i j) :
    ∃ v, a[i]? = some v ∧ b[j]? = some v := by
  obtain ⟨k, hk, rfl, rfl⟩ := hcovers
  have hsource := h.source_le
  have hlt : r.source + k < a.size := by omega
  refine ⟨a[r.source + k], Array.getElem?_eq_getElem hlt, ?_⟩
  rw [← h.equal k hk, Array.getElem?_eq_getElem hlt]

/-- Runs that meet in the old sequence meet in the new one at the same cells. -/
theorem Matches.meet (hr : r.Matches a b) (hs : s.Matches a b)
    (honce : SharedOnce a b) {i j k : Nat}
    (hri : r.Covers i j) (hsi : s.Covers i k) : j = k := by
  obtain ⟨v, hv, hj⟩ := hr.exists_word hri
  obtain ⟨u, hu, hk⟩ := hs.exists_word hsi
  obtain rfl := Option.some.inj (hv.symm.trans hu)
  exact eq_of_count_eq_one (honce v (Array.mem_of_getElem? hv) (Array.mem_of_getElem? hj)).2 hj hk

theorem Matches.end_le (hs : s.Matches a b)
    (hmaximal : ∀ v, a[r.source + r.length]? = some v → b[r.target + r.length]? ≠ some v)
    (hpos : 0 < r.length)
    (hlast : s.Covers (r.source + r.length - 1) (r.target + r.length - 1)) :
    s.source + s.length ≤ r.source + r.length := by
  by_contra hlt
  obtain ⟨k, hk, hsource, htarget⟩ := hlast
  have hnext : s.Covers (r.source + r.length) (r.target + r.length) :=
    ⟨k + 1, by omega, by omega, by omega⟩
  obtain ⟨v, hv, hv'⟩ := hs.exists_word hnext
  exact hmaximal v hv hv'

end CommonRun

namespace Counterparts

theorem get?_commonRuns_of_equal {a b : Array UInt64} (ha : separator ∉ a) (hb : separator ∉ b)
    (honce : SharedOnce a b) {i j : Nat} {v : UInt64} (hi : a[i]? = some v) (hj : b[j]? = some v) :
    (ofRuns a.size (commonRuns a b)).get? i = some j := by
  obtain ⟨hcounta, hcountb⟩ := honce v (Array.mem_of_getElem? hi) (Array.mem_of_getElem? hj)
  obtain ⟨r, hr, rfl, rfl⟩ := exists_run_of_once ha hi hj
    (fun k hk => eq_of_count_eq_one hcounta hk hi) (fun k hk => eq_of_count_eq_one hcountb hk hj)
  have hmatches := commonRuns_matches hb hr
  obtain ⟨s, hs, hlength, hend⟩ := exists_taken_of_mem hr hmatches.pos hmatches.source_le
  have hmatches' := commonRuns_matches hb (mem_of_mem_taken hs)
  have hpos := hmatches.pos
  have hfirst : r.Covers r.source r.target := ⟨0, hpos, rfl, rfl⟩
  have hlast : r.Covers (r.source + r.length - 1) (r.target + r.length - 1) :=
    ⟨r.length - 1, by omega, by omega, by omega⟩
  refine get?_ofRuns_iff.mpr ⟨s, hs, ?_⟩
  rcases hend with ⟨k, hk⟩ | ⟨k, hk⟩
  · rwa [← hmatches.meet hmatches' honce hfirst hk] at hk
  · rw [← hmatches.meet hmatches' honce hlast hk] at hk
    have hle := hmatches'.end_le (fun _ => commonRuns_maximal hr) hpos hk
    obtain ⟨d, hd, hsource, htarget⟩ := hk
    exact ⟨r.source - s.source, by omega, by omega, by omega⟩

/-- Where shared words do not repeat, cells correspond exactly if they hold the same word,
and a cell is unmapped exactly if its word is missing in the new sequence. -/
theorem get?_commonRuns_iff {a b : Array UInt64} (ha : separator ∉ a) (hb : separator ∉ b)
    (honce : ∀ v ∈ a, v ∈ b → a.count v = 1 ∧ b.count v = 1) :
    (∀ i j, (ofRuns a.size (commonRuns a b)).get? i = some j ↔
      ∃ v, a[i]? = some v ∧ b[j]? = some v) ∧
    ∀ i v, a[i]? = some v → ((ofRuns a.size (commonRuns a b)).get? i = none ↔ v ∉ b) := by
  have hiff (i j : Nat) : (ofRuns a.size (commonRuns a b)).get? i = some j ↔
      ∃ v, a[i]? = some v ∧ b[j]? = some v := by
    constructor
    · intro hget
      obtain ⟨hlt, -, hequal⟩ := get?_commonRuns_equal hb hget
      rw [Array.getElem?_eq_getElem hlt] at hequal ⊢
      exact ⟨_, rfl, hequal.symm⟩
    · rintro ⟨v, hi, hj⟩
      exact get?_commonRuns_of_equal ha hb honce hi hj
  refine ⟨hiff, fun i v hi => ?_⟩
  rw [Option.eq_none_iff_forall_ne_some, Array.mem_iff_getElem?, not_exists]
  refine forall_congr' fun j => not_congr ((hiff i j).trans ?_)
  simp [hi]

/-- One cell has moved, two are new, and what repeats is on one side only. -/
theorem get?_commonRuns_moved :
    (ofRuns 5 (commonRuns #[1, 2, 9, 9, 3] #[3, 8, 1, 8, 2])).get? 4 = some 0 ∧
      (ofRuns 5 (commonRuns #[1, 2, 9, 9, 3] #[3, 8, 1, 8, 2])).get? 2 = none := by
  have honce : ∀ v ∈ (#[1, 2, 9, 9, 3] : Array UInt64), v ∈ (#[3, 8, 1, 8, 2] : Array UInt64) →
      (#[1, 2, 9, 9, 3] : Array UInt64).count v = 1 ∧
          (#[3, 8, 1, 8, 2] : Array UInt64).count v = 1 := by
    intro v hv
    simp only [List.mem_toArray, List.mem_cons, List.not_mem_nil, or_false] at hv
    rcases hv with rfl | rfl | rfl | rfl | rfl <;> decide +kernel
  have h := get?_commonRuns_iff (a := #[1, 2, 9, 9, 3]) (b := #[3, 8, 1, 8, 2])
    (by decide +kernel) (by decide +kernel) honce
  exact ⟨(h.1 4 0).mpr ⟨3, rfl, rfl⟩, (h.2 2 9 rfl).mpr (by decide +kernel)⟩

end Counterparts

end GlyphTable
