import GlyphTable.Proofs.Revision.CommonPrefix
import GlyphTable.Revision.CommonRun

/-!
# Runs hold equal cells

`commonRuns_matches`: every run that `commonRuns` finds lies inside both sequences and
has the same words in both, provided neither sequence contains the separator.
-/

namespace GlyphTable

/-- A run of at least one cell, inside both sequences and equal in both. -/
structure CommonRun.Matches (r : CommonRun) (a b : Array UInt64) : Prop where
  pos : 0 < r.length
  source_le : r.source + r.length ≤ a.size
  target_le : r.target + r.length ≤ b.size
  equal : ∀ k < r.length, a[r.source + k]? = b[r.target + k]?

theorem CommonRun.ofSuffixes?_eq_some {split x y length : Nat} {r : CommonRun}
    (h : CommonRun.ofSuffixes? split x y length = some r) :
    ∃ s t, (x = s ∧ y = t ∨ x = t ∧ y = s) ∧ 0 < length ∧ s < split ∧ split < t ∧
      r = ⟨s, t - split - 1, length⟩ := by
  unfold ofSuffixes? at h
  by_cases hx : x < split
  · simp only [hx, if_true, Option.ite_none_right_eq_some, Option.some.injEq] at h
    obtain ⟨⟨hpos, -, ht⟩, rfl⟩ := h
    exact ⟨x, y, .inl ⟨rfl, rfl⟩, hpos, hx, ht, rfl⟩
  · simp only [hx, if_false, Option.ite_none_right_eq_some, Option.some.injEq] at h
    obtain ⟨⟨hpos, hs, ht⟩, rfl⟩ := h
    exact ⟨y, x, .inr ⟨rfl, rfl⟩, hpos, hs, ht, rfl⟩

/-- A run comes from two neighbours in the order of suffixes, with all they share. -/
theorem exists_sharedAt_of_mem_commonRuns {a b : Array UInt64} {r : CommonRun}
    (h : r ∈ commonRuns a b) :
    ∃ t, r.source < a.size ∧ a.size < t ∧ r.target = t - a.size - 1 ∧ 0 < r.length ∧
      r.length = sharedAt (symbols (a.push separator ++ b)) r.source t := by
  let joined := a.push separator ++ b
  have hs := suffixOrder_sorted joined
  have hlengths := commonPrefixes_sorted hs
  obtain ⟨⟨⟨x, y⟩, length⟩, hmem, hr⟩ := List.mem_filterMap.mp h
  obtain ⟨p, hp⟩ := List.mem_iff_getElem?.mp hmem
  rw [List.getElem?_zip_eq_some, List.getElem?_zip_eq_some, List.getElem?_tail,
    List.getElem?_tail] at hp
  obtain ⟨⟨hx, hy⟩, hlength⟩ := hp
  rw [hlengths.listed p x y hx hy] at hlength
  obtain rfl := Option.some.inj hlength
  obtain ⟨s, t, hst, hpos, hsplit, hsplit', rfl⟩ := CommonRun.ofSuffixes?_eq_some hr
  refine ⟨t, hsplit, hsplit', rfl, hpos, ?_⟩
  rcases hst with ⟨rfl, rfl⟩ | ⟨rfl, rfl⟩
  · rfl
  · exact sharedAt_comm _ _ _

section

variable {a b : Array UInt64}

theorem getElem?_joined_lt {i : Nat} (h : i < a.size) :
    (a.push separator ++ b)[i]? = a[i]? := by
  rw [Array.getElem?_append_left (by rw [Array.size_push]; omega), Array.getElem?_push_lt h,
    Array.getElem?_eq_getElem h]

theorem getElem?_joined_size : (a.push separator ++ b)[a.size]? = some separator := by
  rw [Array.getElem?_append_left (by rw [Array.size_push]; omega), Array.getElem?_push_size]

theorem getElem?_joined_gt (i : Nat) :
    (a.push separator ++ b)[a.size + 1 + i]? = b[i]? := by
  rw [Array.getElem?_append_right (by rw [Array.size_push]; omega), Array.size_push,
    Nat.add_sub_cancel_left]

theorem commonRuns_matches (hb : separator ∉ b) {r : CommonRun} (h : r ∈ commonRuns a b) :
    r.Matches a b := by
  obtain ⟨t, hs, ht, htarget, hpos, hlength⟩ := exists_sharedAt_of_mem_commonRuns h
  obtain ⟨d, rfl⟩ : ∃ d, t = a.size + 1 + d := ⟨r.target, by omega⟩
  obtain rfl : r.target = d := by omega
  have hequal : ∀ k < r.length, ∃ x, (a.push separator ++ b)[r.source + k]? = some x ∧
      b[r.target + k]? = some x := by
    intro k hk
    rw [hlength] at hk
    obtain ⟨x, hx, hy⟩ := (lt_sharedAt_iff hk.le).mp hk
    rw [Nat.add_assoc, getElem?_joined_gt] at hy
    exact ⟨x, hx, hy⟩
  -- A run past the end of the old sequence would have the separator in it.
  have hsource : r.source + r.length ≤ a.size := by
    by_contra hlt
    obtain ⟨x, hx, hy⟩ := hequal (a.size - r.source) (by omega)
    rw [show r.source + (a.size - r.source) = a.size by omega, getElem?_joined_size] at hx
    obtain rfl := Option.some.inj hx
    exact hb (Array.mem_of_getElem? hy)
  refine ⟨hpos, hsource, ?_, fun k hk => ?_⟩
  · obtain ⟨x, -, hy⟩ := hequal (r.length - 1) (by omega)
    have hlt := (Array.getElem?_eq_some_iff.mp hy).1
    omega
  · obtain ⟨x, hx, hy⟩ := hequal k hk
    rw [getElem?_joined_lt (by omega)] at hx
    rw [hx, hy]

end

end GlyphTable
