import GlyphTable.Proofs.Revision.Coverage
import GlyphTable.Proofs.Revision.Neighbours

/-!
# Words that two sequences share

Suffixes that begin with one word stand side by side in order. On the way from one of the old
sequence to one of the new, two neighbours begin in different sequences, and these start a run
with the word (`exists_run_of_common`). So no common word is longer than the longest run, and
that is mapped as a whole (`Counterparts.commonRuns_exact`).
-/

namespace GlyphTable

theorem exists_last_step {P : Nat → Prop} {m n : Nat} (hmn : m ≤ n) (hm : P m) (hn : ¬ P n) :
    ∃ k, m ≤ k ∧ k < n ∧ P k ∧ ¬ P (k + 1) := by
  by_contra! hstep
  have hall (k : Nat) (hk : m ≤ k) : k ≤ n → P k := by
    induction k, hk using Nat.le_induction with
    | base => exact fun _ => hm
    | succ k hk ih => exact fun hlt => hstep k hk hlt (ih (Nat.le_of_succ_le hlt))
  exact hn (hall n hmn le_rfl)

-- ---------------------------------------------------------------------------
-- Where a word stands
-- ---------------------------------------------------------------------------

section

variable {seq : Array UInt64} {w : List UInt64}

theorem prefix_drop_iff {i : Nat} :
    w <+: seq.toList.drop i ↔ ∀ k < w.length, seq[i + k]? = w[k]? := by
  simp only [List.prefix_iff_getElem?, List.getElem?_drop, Array.getElem?_toList]
  exact forall₂_congr fun k hk => by rw [List.getElem?_eq_getElem hk]

theorem infix_iff_exists_drop : w <:+: seq.toList ↔ ∃ i, w <+: seq.toList.drop i := by
  constructor
  · intro h
    obtain ⟨t, hprefix, hsuffix⟩ := List.infix_iff_prefix_suffix.mp h
    rw [List.suffix_iff_eq_drop] at hsuffix
    exact ⟨_, hsuffix ▸ hprefix⟩
  · rintro ⟨i, h⟩
    exact List.infix_iff_prefix_suffix.mpr ⟨_, h, List.drop_suffix i _⟩

theorem lt_size_of_prefix_drop {i : Nat} (h : w <+: seq.toList.drop i) (hne : w ≠ []) :
    i < seq.size := by
  have hlength := h.length_le
  have hpos := List.length_pos_iff.mpr hne
  simp only [List.length_drop, Array.length_toList] at hlength
  omega

theorem length_le_sharedAt {i j : Nat} (hi : w <+: seq.toList.drop i)
    (hj : w <+: seq.toList.drop j) : w.length ≤ sharedAt (symbols seq) i j := by
  rw [prefix_drop_iff] at hi hj
  by_contra! hlt
  have hword := List.getElem?_eq_getElem hlt
  exact lt_irrefl _ ((lt_sharedAt_iff le_rfl).mpr ⟨_, (hi _ hlt).trans hword,
    (hj _ hlt).trans hword⟩)

theorem prefix_drop_of_sharedAt {i j : Nat} (hj : w <+: seq.toList.drop j)
    (hle : w.length ≤ sharedAt (symbols seq) i j) : w <+: seq.toList.drop i := by
  rw [prefix_drop_iff] at hj ⊢
  intro k hk
  have hshared : k < sharedAt (symbols seq) i j := hk.trans_le hle
  obtain ⟨v, hv, hv'⟩ := (lt_sharedAt_iff hshared.le).mp hshared
  rw [hv, ← hv', hj k hk]

theorem prefix_drop_of_between {i j k : Nat} (hi : w <+: seq.toList.drop i)
    (hj : w <+: seq.toList.drop j) (hik : (symbols seq).drop i ≤ (symbols seq).drop k)
    (hkj : (symbols seq).drop k ≤ (symbols seq).drop j) : w <+: seq.toList.drop k :=
  prefix_drop_of_sharedAt hj ((length_le_sharedAt hi hj).trans (shared_le_shared hik hkj))

theorem SuffixesSorted.prefix_drop {order : List Nat} (hs : SuffixesSorted (symbols seq) order)
    {p q r i j k : Nat} (hp : order[p]? = some i) (hq : order[q]? = some j)
    (hr : order[r]? = some k) (hpr : p ≤ r) (hrq : r ≤ q) (hi : w <+: seq.toList.drop i)
    (hj : w <+: seq.toList.drop j) : w <+: seq.toList.drop k := by
  refine prefix_drop_of_between hi hj ?_ ?_
  · exact not_lt.mp fun hlt => by have := (hs.lt_iff hr hp).mp hlt; omega
  · exact not_lt.mp fun hlt => by have := (hs.lt_iff hq hr).mp hlt; omega

end

-- ---------------------------------------------------------------------------
-- Runs for words
-- ---------------------------------------------------------------------------

section

variable {a b : Array UInt64} {w : List UInt64}

theorem prefix_drop_joined {i : Nat} (h : w <+: a.toList.drop i) :
    w <+: (joined a b).toList.drop i := by
  rw [prefix_drop_iff] at h ⊢
  intro k hk
  have hlt := Array.getElem?_eq_some_iff.mp ((h k hk).trans (List.getElem?_eq_getElem hk))
  rw [joined, getElem?_joined_lt hlt.1, h k hk]

theorem prefix_drop_joined_gt {j : Nat} :
    w <+: (joined a b).toList.drop (a.size + 1 + j) ↔ w <+: b.toList.drop j := by
  simp only [prefix_drop_iff, joined, Nat.add_assoc _ j, getElem?_joined_gt]

theorem ne_size_of_prefix_drop {i : Nat} (hw : separator ∉ w) (hne : w ≠ [])
    (h : w <+: (joined a b).toList.drop i) : i ≠ a.size := by
  rintro rfl
  have hpos := List.length_pos_iff.mpr hne
  have hfirst := prefix_drop_iff.mp h 0 hpos
  rw [Nat.add_zero, joined, getElem?_joined_size] at hfirst
  exact hw (List.mem_of_getElem? hfirst.symm)

theorem exists_run_of_sides (hb : separator ∉ b) (hw : separator ∉ w) (hne : w ≠ []) {r x y : Nat}
    (hx : x < a.size) (hy : ¬ y < a.size) (hxw : w <+: (joined a b).toList.drop x)
    (hyw : w <+: (joined a b).toList.drop y)
    (h : (suffixOrder (joined a b))[r]? = some x ∧ (suffixOrder (joined a b))[r + 1]? = some y ∨
      (suffixOrder (joined a b))[r]? = some y ∧ (suffixOrder (joined a b))[r + 1]? = some x) :
    ∃ s ∈ commonRuns a b, w.length ≤ s.length ∧ w <+: a.toList.drop s.source ∧
      w <+: b.toList.drop s.target := by
  have hsize := ne_size_of_prefix_drop hw hne hyw
  obtain ⟨j, rfl⟩ : ∃ j, y = a.size + 1 + j := ⟨y - a.size - 1, by omega⟩
  have hshared := length_le_sharedAt hxw hyw
  have hpos := (List.length_pos_iff.mpr hne).trans_le hshared
  have hmem := mem_commonRuns_of_neighbours hx hpos h
  have hsource := (commonRuns_matches hb hmem).source_le
  refine ⟨_, hmem, hshared, ?_, prefix_drop_joined_gt.mp hyw⟩
  rw [prefix_drop_iff] at hxw ⊢
  intro k hk
  simp only at hsource
  rw [← hxw k hk, joined, getElem?_joined_lt (by omega)]

/-- Every word that stands in both sequences stands where some run starts. -/
theorem exists_run_of_common (ha : separator ∉ a) (hb : separator ∉ b) (hne : w ≠ [])
    (hwa : w <:+: a.toList) (hwb : w <:+: b.toList) :
    ∃ s ∈ commonRuns a b, w.length ≤ s.length ∧ w <+: a.toList.drop s.source ∧
      w <+: b.toList.drop s.target := by
  have hw : separator ∉ w := fun hmem => ha (Array.mem_toList_iff.mp (hwa.subset hmem))
  obtain ⟨i, hi⟩ := infix_iff_exists_drop.mp hwa
  obtain ⟨j, hj⟩ := infix_iff_exists_drop.mp hwb
  have hs := suffixOrder_sorted (joined a b)
  have hilt := lt_size_of_prefix_drop hi hne
  have hjlt := lt_size_of_prefix_drop hj hne
  have hxw : w <+: (joined a b).toList.drop i := prefix_drop_joined hi
  have hyw := (prefix_drop_joined_gt (a := a)).mpr hj
  obtain ⟨p, hp⟩ := hs.exists_place (i := i) (by simp only [length_symbols, size_joined]; omega)
  obtain ⟨q, hq⟩ := hs.exists_place (i := a.size + 1 + j)
    (by simp only [length_symbols, size_joined]; omega)
  -- The side on which the suffixes begin changes somewhere between the two places.
  let Old (r : Nat) : Prop := ∃ x < a.size, (suffixOrder (joined a b))[r]? = some x
  have hold : Old p := ⟨i, hilt, hp⟩
  have hnew : ¬ Old q := by
    rintro ⟨x, hx, hqx⟩
    rw [hq] at hqx
    have := Option.some.inj hqx
    omega
  have hlast {r : Nat} (hle : r ≤ max p q) : ∃ x, (suffixOrder (joined a b))[r]? = some x := by
    refine ⟨_, List.getElem?_eq_getElem (hle.trans_lt (max_lt ?_ ?_))⟩
    · exact (List.getElem?_eq_some_iff.mp hp).1
    · exact (List.getElem?_eq_some_iff.mp hq).1
  rcases Nat.le_total p q with hpq | hqp
  · obtain ⟨r, hpr, hrq, ⟨x, hx, hrx⟩, hnext⟩ := exists_last_step hpq hold hnew
    obtain ⟨y, hry⟩ := hlast (r := r + 1) (by omega)
    have hy : ¬ y < a.size := fun hlt => hnext ⟨y, hlt, hry⟩
    exact exists_run_of_sides hb hw hne hx hy (hs.prefix_drop hp hq hrx hpr (by omega) hxw hyw)
      (hs.prefix_drop hp hq hry (by omega) hrq hxw hyw) (.inl ⟨hrx, hry⟩)
  · obtain ⟨r, hqr, hrp, hprev, hnext⟩ :=
      exists_last_step (P := fun r => ¬ Old r) hqp hnew (not_not.mpr hold)
    obtain ⟨x, hx, hrx⟩ := not_not.mp hnext
    obtain ⟨y, hry⟩ := hlast (r := r) (by omega)
    have hy : ¬ y < a.size := fun hlt => hprev ⟨y, hlt, hry⟩
    exact exists_run_of_sides hb hw hne hx hy (hs.prefix_drop hq hp hrx (by omega) hrp hyw hxw)
      (hs.prefix_drop hq hp hry hqr (by omega) hyw hxw) (.inr ⟨hry, hrx⟩)

-- ---------------------------------------------------------------------------
-- The longest common word
-- ---------------------------------------------------------------------------

theorem CommonRun.Matches.exists_common {r : CommonRun} (h : r.Matches a b) :
    ∃ w, w.length = r.length ∧ w <+: a.toList.drop r.source ∧ w <+: b.toList.drop r.target := by
  have hlength : ((a.toList.drop r.source).take r.length).length = r.length := by
    have hle := h.source_le
    rw [List.length_take, List.length_drop, Array.length_toList]
    omega
  refine ⟨_, hlength, List.take_prefix _ _, prefix_drop_iff.mpr fun k hk => ?_⟩
  rw [hlength] at hk
  rw [← h.equal k hk, List.getElem?_take_of_lt hk, List.getElem?_drop, Array.getElem?_toList]

theorem exists_longest {runs : List CommonRun} (hne : runs ≠ []) :
    ∃ r ∈ runs, ∀ s ∈ runs, s.length ≤ r.length := by
  obtain ⟨r, hr⟩ := List.exists_mem_of_ne_nil _ hne
  obtain ⟨r, hr, hmax⟩ :=
    runs.toFinset.exists_max_image CommonRun.length ⟨r, List.mem_toFinset.mpr hr⟩
  exact ⟨r, List.mem_toFinset.mp hr, fun s hs => hmax s (List.mem_toFinset.mpr hs)⟩

end

namespace Counterparts

variable {a b : Array UInt64}

theorem exists_longest_mapped (hb : separator ∉ b) (hne : commonRuns a b ≠ []) :
    ∃ r ∈ commonRuns a b, (∀ s ∈ commonRuns a b, s.length ≤ r.length) ∧
      ∀ k < r.length, (ofRuns a.size (commonRuns a b)).get? (r.source + k) =
      some (r.target + k) := by
  obtain ⟨r, hr, hmax⟩ := exists_longest hne
  have hmatches := commonRuns_matches hb hr
  obtain ⟨s, hs, hlength, -⟩ := exists_taken_of_mem hr hmatches.pos hmatches.source_le
  refine ⟨s, mem_of_mem_taken hs, fun t ht => (hmax t ht).trans hlength, fun k hk => ?_⟩
  exact get?_ofRuns_iff.mpr ⟨s, hs, k, hk, rfl, rfl⟩

/-- Runs are stretches of equal cells that go on as far as they can, and every word that both
sequences have stands where one starts. A longest common word is mapped cell by cell. -/
theorem commonRuns_exact (ha : separator ∉ a) (hb : separator ∉ b) :
    (∀ r ∈ commonRuns a b, r.Matches a b ∧ (r.source + r.length = a.size ∨
      r.target + r.length = b.size ∨ a[r.source + r.length]? ≠ b[r.target + r.length]?)) ∧
    (∀ w ≠ [], w <:+: a.toList → w <:+: b.toList → ∃ r ∈ commonRuns a b, w.length ≤ r.length ∧
      w <+: a.toList.drop r.source ∧ w <+: b.toList.drop r.target) ∧
    ∃ w i j, w <+: a.toList.drop i ∧ w <+: b.toList.drop j ∧
      (∀ u, u <:+: a.toList → u <:+: b.toList → u.length ≤ w.length) ∧
      ∀ k < w.length, (ofRuns a.size (commonRuns a b)).get? (i + k) = some (j + k) := by
  refine ⟨fun r hr => ?_, fun w => exists_run_of_common ha hb, ?_⟩
  · have hmatches := commonRuns_matches hb hr
    refine ⟨hmatches, or_iff_not_imp_left.mpr fun hend => .inr fun heq => ?_⟩
    have hlt : r.source + r.length < a.size := lt_of_le_of_ne hmatches.source_le hend
    have hword := Array.getElem?_eq_getElem hlt
    exact commonRuns_maximal hr hword (heq ▸ hword)
  · by_cases hnil : commonRuns a b = []
    · refine ⟨[], 0, 0, List.nil_prefix, List.nil_prefix, fun u hua hub => ?_, by simp⟩
      by_contra hne
      obtain ⟨r, hr, -⟩ := exists_run_of_common ha hb (by rintro rfl; exact hne le_rfl) hua hub
      simp [hnil] at hr
    · obtain ⟨r, hr, hmax, hmapped⟩ := exists_longest_mapped hb hnil
      obtain ⟨w, hlength, hsource, htarget⟩ := (commonRuns_matches hb hr).exists_common
      refine ⟨w, r.source, r.target, hsource, htarget, fun u hua hub => ?_, hlength ▸ hmapped⟩
      by_cases hu : u = []
      · simp [hu]
      · obtain ⟨s, hs, hle, -⟩ := exists_run_of_common ha hb hu hua hub
        exact hle.trans (hlength ▸ hmax s hs)

/-- The old sequence has the word twice, and neither sequence is the word alone. -/
theorem commonRuns_exact_repeated :
    separator ∉ (#[1, 2, 1, 2, 7] : Array UInt64) ∧ separator ∉ (#[8, 1, 2] : Array UInt64) ∧
      ∃ r ∈ commonRuns #[1, 2, 1, 2, 7] #[8, 1, 2], 2 ≤ r.length ∧ r.target ≤ 1 := by
  have ha : separator ∉ (#[1, 2, 1, 2, 7] : Array UInt64) := by decide +kernel
  have hb : separator ∉ (#[8, 1, 2] : Array UInt64) := by decide +kernel
  have h := commonRuns_exact ha hb
  obtain ⟨r, hr, hlength, -⟩ := h.2.1 [1, 2] (by decide) ⟨[], [1, 2, 7], rfl⟩ ⟨[8], [], rfl⟩
  have hle := (h.1 r hr).1.target_le
  have hsize : (#[8, 1, 2] : Array UInt64).size = 3 := rfl
  have hword : ([1, 2] : List UInt64).length = 2 := rfl
  exact ⟨ha, hb, r, hr, hlength, by omega⟩

end Counterparts

end GlyphTable
