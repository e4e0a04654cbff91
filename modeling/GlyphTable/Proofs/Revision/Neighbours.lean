import GlyphTable.Proofs.Revision.RunContent

/-!
# Which suffixes are neighbours

Two suffixes between which no other stands are neighbours in order, and if they begin in
different sequences they start a run as long as what they share
(`mem_commonRuns_of_neighbours`). That is so where a word stands once in either sequence
(`exists_run_of_once`), and where a sequence is compared with itself (`mem_commonRuns_self`).
-/

namespace GlyphTable

theorem SuffixesSorted.neighbours {w order : List Nat} (hs : SuffixesSorted w order) {i j : Nat}
    (hi : i < w.length) (hj : j < w.length) (hij : w.drop i < w.drop j)
    (hbetween : ∀ k < w.length, w.drop i < w.drop k → ¬ w.drop k < w.drop j) :
    ∃ r : Nat, order[r]? = some i ∧ order[r + 1]? = some j := by
  obtain ⟨r, hr⟩ := hs.exists_place hi
  obtain ⟨t, ht⟩ := hs.exists_place hj
  have hrt := (hs.lt_iff hr ht).mp hij
  obtain ⟨k, hk⟩ : ∃ k, order[r + 1]? = some k :=
    ⟨_, List.getElem?_eq_getElem (lt_of_le_of_lt hrt (List.getElem?_eq_some_iff.mp ht).1)⟩
  have hik := (hs.lt_iff hr hk).mpr (Nat.lt_succ_self r)
  have hle : ¬ r + 1 < t := fun h => hbetween k (hs.lt_length hk) hik ((hs.lt_iff hk ht).mpr h)
  obtain rfl : t = r + 1 := by omega
  exact ⟨r, hr, ht⟩

section

variable {a b : Array UInt64}

def joined (a b : Array UInt64) : Array UInt64 :=
  a.push separator ++ b

@[simp] theorem size_joined (a b : Array UInt64) : (joined a b).size = a.size + 1 + b.size := by
  simp [joined]

theorem mem_commonRuns_of_neighbours {r i j : Nat} (hi : i < a.size)
    (hpos : 0 < sharedAt (symbols (joined a b)) i (a.size + 1 + j))
    (h : (suffixOrder (joined a b))[r]? = some i ∧
        (suffixOrder (joined a b))[r + 1]? = some (a.size + 1 + j) ∨
      (suffixOrder (joined a b))[r]? = some (a.size + 1 + j) ∧
        (suffixOrder (joined a b))[r + 1]? = some i) :
    ⟨i, j, sharedAt (symbols (joined a b)) i (a.size + 1 + j)⟩ ∈ commonRuns a b := by
  have hlengths := commonPrefixes_sorted (suffixOrder_sorted (joined a b))
  have hlisted {x y : Nat} (hx : (suffixOrder (joined a b))[r]? = some x)
      (hy : (suffixOrder (joined a b))[r + 1]? = some y) :
      ((x, y), sharedAt (symbols (joined a b)) x y) ∈
        ((suffixOrder (joined a b)).zip (suffixOrder (joined a b)).tail).zip
          (commonPrefixes (joined a b) (suffixOrder (joined a b))).tail := by
    refine List.mem_iff_getElem?.mpr ⟨r, ?_⟩
    simp only [List.getElem?_zip_eq_some, List.getElem?_tail]
    exact ⟨⟨hx, hy⟩, hlengths.listed r x y hx hy⟩
  have htarget : a.size + 1 + j - a.size - 1 = j := by omega
  rcases h with ⟨hx, hy⟩ | ⟨hx, hy⟩
  · refine List.mem_filterMap.mpr ⟨_, hlisted hx hy, ?_⟩
    simp only [CommonRun.ofSuffixes?, if_pos hi, htarget]
    exact if_pos ⟨hpos, hi, by omega⟩
  · refine List.mem_filterMap.mpr ⟨_, hlisted hx hy, ?_⟩
    have hbehind : ¬ a.size + 1 + j < a.size := by omega
    rw [sharedAt_comm]
    simp only [CommonRun.ofSuffixes?, if_neg hbehind, htarget]
    exact if_pos ⟨hpos, hi, by omega⟩

theorem commonRuns_maximal {r : CommonRun} (h : r ∈ commonRuns a b) {v : UInt64}
    (hsource : a[r.source + r.length]? = some v) : b[r.target + r.length]? ≠ some v := by
  intro htarget
  obtain ⟨t, hs, ht, hrt, hpos, hlength⟩ := exists_sharedAt_of_mem_commonRuns h
  obtain rfl : t = a.size + 1 + r.target := by omega
  have hlt := (lt_sharedAt_iff hlength.le).mpr ⟨v, ?_, ?_⟩
  · omega
  · rw [getElem?_joined_lt (Array.getElem?_eq_some_iff.mp hsource).1, hsource]
  · rw [Nat.add_assoc, getElem?_joined_gt, htarget]

-- ---------------------------------------------------------------------------
-- Words that stand once
-- ---------------------------------------------------------------------------

theorem sharedAt_pos_iff {seq : Array UInt64} {i j : Nat} :
    0 < sharedAt (symbols seq) i j ↔ ∃ v, seq[i]? = some v ∧ seq[j]? = some v := by
  simpa using lt_sharedAt_iff (Nat.zero_le (sharedAt (symbols seq) i j))

theorem getElem?_of_between {seq : Array UInt64} {i j k : Nat} {v : UInt64}
    (hi : seq[i]? = some v) (hj : seq[j]? = some v)
    (hik : (symbols seq).drop i ≤ (symbols seq).drop k)
    (hkj : (symbols seq).drop k ≤ (symbols seq).drop j) : seq[k]? = some v := by
  have hpos : 0 < sharedAt (symbols seq) k j :=
    lt_of_lt_of_le (sharedAt_pos_iff.mpr ⟨v, hi, hj⟩) (shared_le_shared hik hkj)
  obtain ⟨u, hk, hu⟩ := sharedAt_pos_iff.mp hpos
  rw [hj] at hu
  rw [hk, hu]

theorem getElem?_joined_of_once (ha : separator ∉ a) {i j : Nat} {v : UInt64} (hi : a[i]? = some v)
    (honce : ∀ k, a[k]? = some v → k = i) (honce' : ∀ k, b[k]? = some v → k = j) {k : Nat}
    (hk : (joined a b)[k]? = some v) : k = i ∨ k = a.size + 1 + j := by
  rcases Nat.lt_trichotomy k a.size with hlt | rfl | hgt
  · exact .inl (honce k ((getElem?_joined_lt hlt).symm.trans hk))
  · obtain rfl := Option.some.inj (getElem?_joined_size.symm.trans hk)
    exact absurd (Array.mem_of_getElem? hi) ha
  · obtain ⟨d, rfl⟩ : ∃ d, k = a.size + 1 + d := ⟨k - a.size - 1, by omega⟩
    rw [honce' d ((getElem?_joined_gt d).symm.trans hk)]
    exact .inr rfl

theorem exists_run_of_once (ha : separator ∉ a) {i j : Nat} {v : UInt64} (hi : a[i]? = some v)
    (hj : b[j]? = some v) (honce : ∀ k, a[k]? = some v → k = i)
    (honce' : ∀ k, b[k]? = some v → k = j) :
    ∃ r ∈ commonRuns a b, r.source = i ∧ r.target = j := by
  have hs := suffixOrder_sorted (joined a b)
  have hilt := (Array.getElem?_eq_some_iff.mp hi).1
  have hjlt := (Array.getElem?_eq_some_iff.mp hj).1
  have hi' : (joined a b)[i]? = some v := (getElem?_joined_lt hilt).trans hi
  have hj' : (joined a b)[a.size + 1 + j]? = some v := (getElem?_joined_gt j).trans hj
  have hlen : i < (symbols (joined a b)).length ∧
      a.size + 1 + j < (symbols (joined a b)).length := by
    simp only [length_symbols, size_joined]
    omega
  have hpos := sharedAt_pos_iff.mpr ⟨v, hi', hj'⟩
  have hne : (symbols (joined a b)).drop i ≠ (symbols (joined a b)).drop (a.size + 1 + j) := by
    intro heq
    have := drop_injective hlen.1 hlen.2 heq
    omega
  -- What stood between the two suffixes would begin with the word, so nothing does.
  have honly {k : Nat} (hk : (joined a b)[k]? = some v) :=
    getElem?_joined_of_once ha hi honce honce' hk
  rcases lt_or_gt_of_ne hne with hlt | hlt
  · obtain ⟨r, hr⟩ := hs.neighbours hlen.1 hlen.2 hlt fun k hk hik hkj => by
      rcases honly (getElem?_of_between hi' hj' hik.le hkj.le) with rfl | rfl
      · exact lt_irrefl _ hik
      · exact lt_irrefl _ hkj
    exact ⟨_, mem_commonRuns_of_neighbours hilt hpos (.inl hr), rfl, rfl⟩
  · obtain ⟨r, hr⟩ := hs.neighbours hlen.2 hlen.1 hlt fun k hk hjk hki => by
      rcases honly (getElem?_of_between hj' hi' hjk.le hki.le) with rfl | rfl
      · exact lt_irrefl _ hki
      · exact lt_irrefl _ hjk
    exact ⟨_, mem_commonRuns_of_neighbours hilt hpos (.inr hr), rfl, rfl⟩

-- ---------------------------------------------------------------------------
-- A sequence beside itself
-- ---------------------------------------------------------------------------

theorem symbols_joined (a b : Array UInt64) :
    symbols (joined a b) = symbols a ++ separator.toNat :: symbols b := by
  simp [symbols, joined]

theorem eq_of_shared_self (ha : separator ∉ a) {k : Nat}
    (h : a.size ≤ sharedAt (symbols (joined a a)) k 0) (hk : k < (symbols (joined a a)).length) :
    k = 0 ∨ k = a.size + 1 := by
  have hequal := le_shared_iff.mp h
  have hroom := h.trans (shared_le_length _ _)
  simp only [List.length_drop, length_symbols, size_joined] at hroom hk
  -- Anywhere between, the separator would stand beside a word of the sequence.
  by_contra hne
  have hinside : a.size - k < a.size := by omega
  have hbeside : a.size - k < sharedAt (symbols (joined a a)) k 0 := hinside.trans_le h
  obtain ⟨v, hv, hv'⟩ := (lt_sharedAt_iff hbeside.le).mp hbeside
  rw [show k + (a.size - k) = a.size by omega, joined, getElem?_joined_size] at hv
  rw [Nat.zero_add, joined, getElem?_joined_lt hinside] at hv'
  obtain rfl := Option.some.inj hv
  exact ha (Array.mem_of_getElem? hv')

theorem drop_copy (a : Array UInt64) : (symbols (joined a a)).drop (a.size + 1) = symbols a := by
  rw [symbols_joined, ← length_symbols a, ← List.drop_drop, List.drop_left, List.drop_one,
    List.tail_cons]

theorem take_copy (a : Array UInt64) : ((symbols (joined a a)).drop 0).take a.size = symbols a := by
  rw [List.drop_zero, symbols_joined, ← length_symbols a, List.take_left]

theorem sharedAt_copy (a : Array UInt64) :
    sharedAt (symbols (joined a a)) (a.size + 1) 0 = a.size := by
  refine le_antisymm ?_ (le_shared_iff.mpr fun k hk => ?_)
  · have hle :=
      shared_le_length ((symbols (joined a a)).drop (a.size + 1)) ((symbols (joined a a)).drop 0)
    rwa [drop_copy, length_symbols, ← drop_copy] at hle
  · have hk' : k < (symbols a).length := by rwa [length_symbols]
    refine ⟨(symbols a)[k], ?_, ?_⟩
    · rw [drop_copy, List.getElem?_eq_getElem hk']
    · rw [← List.getElem?_take_of_lt hk, take_copy, List.getElem?_eq_getElem hk']

theorem copy_lt (a : Array UInt64) :
    (symbols (joined a a)).drop (a.size + 1) < (symbols (joined a a)).drop 0 := by
  refine (lt_iff_take_drop a.size _ _).mpr (.inr ⟨?_, ?_⟩)
  · rw [take_copy, drop_copy, List.take_of_length_le (length_symbols a).le]
  · rw [drop_copy, List.drop_of_length_le (length_symbols a).le, List.drop_zero, symbols_joined,
      ← length_symbols a, List.drop_left]
    exact List.nil_lt_cons _ _

theorem mem_commonRuns_self (ha : separator ∉ a) (hpos : 0 < a.size) :
    ⟨0, 0, a.size⟩ ∈ commonRuns a a := by
  have hlen : 0 < (symbols (joined a a)).length ∧ a.size + 1 < (symbols (joined a a)).length := by
    simp only [length_symbols, size_joined]
    omega
  obtain ⟨r, hr⟩ := (suffixOrder_sorted (joined a a)).neighbours hlen.2 hlen.1 (copy_lt a)
    fun k hk hjk hki => by
      have hle := shared_le_shared hjk.le hki.le
      rw [← sharedAt, ← sharedAt, sharedAt_copy] at hle
      rcases eq_of_shared_self ha hle hk with rfl | rfl
      · exact lt_irrefl _ hki
      · exact lt_irrefl _ hjk
  have hwhole : sharedAt (symbols (joined a a)) 0 (a.size + 1 + 0) = a.size :=
    (sharedAt_comm _ _ _).trans (sharedAt_copy a)
  have hmem :=
    mem_commonRuns_of_neighbours (b := a) (j := 0) hpos (hpos.trans_eq hwhole.symm) (.inr hr)
  rwa [hwhole] at hmem

end

end GlyphTable
