import GlyphTable.Proofs.Revision.CommonWords

/-!
# Suffixes compared word by word

`suffixOrder_exact`: prefix doubling comes to an end and gives what sorting all suffixes one
against the other would, whatever numbers stand for the words and in whatever sequence a round
leaves equal keys. `commonPrefixes_exact`: the lengths listed beside the suffixes are those of
the longest words that neighbours begin with.
-/

namespace GlyphTable

-- ---------------------------------------------------------------------------
-- Sorting suffixes one against the other
-- ---------------------------------------------------------------------------

def sortedSuffixes (seq : Array UInt64) : List Nat :=
  sortStably (fun i j => decide (seq.toList.drop i ≤ seq.toList.drop j)) (List.range seq.size)

theorem map_toNat_lt_iff {a b : List UInt64} :
    a.map UInt64.toNat < b.map UInt64.toNat ↔ a < b := by
  induction a generalizing b with
  | nil => cases b <;> simp
  | cons x a ih =>
    cases b with
    | nil => simp
    | cons y b =>
      rw [List.map_cons, List.map_cons, List.cons_lt_cons_iff, List.cons_lt_cons_iff, ih,
        UInt64.toNat_inj, UInt64.lt_iff_toNat_lt]

theorem drop_lt_iff {seq : Array UInt64} {i j : Nat} :
    (symbols seq).drop i < (symbols seq).drop j ↔ seq.toList.drop i < seq.toList.drop j := by
  rw [symbols, ← List.map_drop, ← List.map_drop, map_toNat_lt_iff]

theorem drop_le_iff {seq : Array UInt64} {i j : Nat} :
    seq.toList.drop i ≤ seq.toList.drop j ↔ (symbols seq).drop i ≤ (symbols seq).drop j := by
  rw [← List.not_lt, ← drop_lt_iff, not_lt]

theorem sortedSuffixes_sorted (seq : Array UInt64) :
    SuffixesSorted (symbols seq) (sortedSuffixes seq) := by
  have hperm : (sortedSuffixes seq).Perm (List.range seq.size) := sortStably_perm _ _
  have hsorted : (sortedSuffixes seq).Pairwise fun i j =>
      decide (seq.toList.drop i ≤ seq.toList.drop j) := by
    refine pairwise_sortStably (fun i j => ?_) (fun i j k hij hjk => ?_) _
    · simp only [Bool.or_eq_true, decide_eq_true_eq, drop_le_iff]
      exact le_total _ _
    · simp only [decide_eq_true_eq, drop_le_iff] at *
      exact hij.trans hjk
  refine ⟨by rw [length_symbols]; exact hperm, ?_⟩
  -- No two suffixes are equal, so they ascend strictly.
  refine (hsorted.and (hperm.nodup_iff.mpr List.nodup_range)).imp_of_mem fun {i j} hi hj h => ?_
  have hlt {l : Nat} (hl : l ∈ sortedSuffixes seq) : l < (symbols seq).length := by
    rw [length_symbols]
    exact List.mem_range.mp (hperm.mem_iff.mp hl)
  have hle := drop_le_iff.mp (of_decide_eq_true h.1)
  exact lt_of_le_of_ne hle fun heq => h.2 (drop_injective (hlt hi) (hlt hj) heq)

/-- For each word of a sequence its place in the alphabet, which lists the different words in
ascending order. -/
def alphabetPlaces (seq : Array UInt64) : Array Nat :=
  seq.map fun x => (seq.toList.dedup.filter (· < x)).length

theorem numbering_alphabetPlaces (seq : Array UInt64) : Numbering seq (alphabetPlaces seq) := by
  let place (x : UInt64) := (seq.toList.dedup.filter (· < x)).length
  have hplace {i : Nat} {x : UInt64} (hx : seq[i]? = some x) :
      (alphabetPlaces seq).getD i 0 = place x := by
    rw [alphabetPlaces, Array.getD_eq_getD_getElem?, Array.getElem?_map, hx]
    rfl
  have hmono {i : Nat} {x y : UInt64} (hx : seq[i]? = some x) (hxy : x < y) :
      place x < place y := by
    have hmem : x ∈ seq.toList := Array.mem_toList_iff.mpr (Array.mem_of_getElem? hx)
    have hlists : x :: seq.toList.dedup.filter (· < x) ⊆ seq.toList.dedup.filter (· < y) := by
      intro z hz
      rcases List.mem_cons.mp hz with rfl | hz
      · simp [hmem, hxy]
      · simp only [List.mem_filter, decide_eq_true_eq] at hz ⊢
        exact ⟨hz.1, UInt64.lt_trans hz.2 hxy⟩
    have hnodup : (x :: seq.toList.dedup.filter (· < x)).Nodup :=
      List.nodup_cons.mpr ⟨by simp, (List.nodup_dedup _).filter _⟩
    exact (hnodup.subperm hlists).length_le
  refine ⟨by simp [alphabetPlaces], fun i j x y hx hy => ?_⟩
  rw [hplace hx, hplace hy]
  refine ⟨fun hlt => ?_, hmono hx⟩
  rcases Nat.lt_trichotomy x.toNat y.toNat with hxy | heq | hyx
  · exact UInt64.lt_iff_toNat_lt.mpr hxy
  · rw [UInt64.toNat_inj.mp heq] at hlt
    exact absurd hlt (Nat.lt_irrefl _)
  · exact absurd hlt (hmono hy (UInt64.lt_iff_toNat_lt.mpr hyx)).asymm

theorem Numbering.doublesTo_iff {seq : Array UInt64} {rank : Array Nat} (h : Numbering seq rank)
    {order : List Nat} : DoublesTo seq.size (1, rank) order ↔ order = suffixOrder seq := by
  have hunique {order : List Nat} (hto : DoublesTo seq.size (1, rank) order) :
      order = suffixOrder seq := by
    rw [← length_symbols] at hto
    exact (h.rankedBy.sorted Nat.one_pos hto).unique (suffixOrder_sorted seq)
  refine ⟨hunique, ?_⟩
  rintro rfl
  have hlen : seq.size ≤ 2 ^ seq.size * 1 := by
    rw [Nat.mul_one]
    exact Nat.lt_two_pow_self.le
  have hto : DoublesTo seq.size (1, rank) _ := doublesTo_doublePrefixes hlen
  rwa [hunique hto] at hto

/-- The starts of all suffixes come out once each, and the suffixes ascend strictly, as sorting
them one against the other gives them. Whatever numbers the rounds start from, such as places in
the alphabet, and in whatever sequence they leave equal keys, they come to an end, and to this
one. -/
theorem suffixOrder_exact (seq : Array UInt64) :
    (suffixOrder seq).Perm (List.range seq.size) ∧
    ((suffixOrder seq).Pairwise fun i j => seq.toList.drop i < seq.toList.drop j) ∧
    suffixOrder seq = sortedSuffixes seq ∧
    Numbering seq (alphabetPlaces seq) ∧
    ∀ rank, Numbering seq rank → Acc (fun t s => Doubles seq.size s t) (1, rank) ∧
      ∀ order, DoublesTo seq.size (1, rank) order ↔ order = suffixOrder seq := by
  have hs := suffixOrder_sorted seq
  refine ⟨?_, ?_, hs.unique (sortedSuffixes_sorted seq), numbering_alphabetPlaces seq,
    fun rank h => ⟨?_, fun order => ?_⟩⟩
  · rw [← length_symbols]
    exact hs.perm
  · exact hs.sorted.imp drop_lt_iff.mp
  · exact acc_doubles Nat.one_pos rank
  · exact h.doublesTo_iff

-- ---------------------------------------------------------------------------
-- What neighbours begin with
-- ---------------------------------------------------------------------------

structure LongestPrefix (w a b : List UInt64) : Prop where
  left : w <+: a
  right : w <+: b
  longest : ∀ u, u <+: a → u <+: b → u <+: w

theorem exists_longestPrefix (seq : Array UInt64) (i j : Nat) :
    ∃ w, LongestPrefix w (seq.toList.drop i) (seq.toList.drop j) ∧
      w.length = sharedAt (symbols seq) i j := by
  have hle : sharedAt (symbols seq) i j ≤ (seq.toList.drop i).length := by
    have hshared := shared_le_length ((symbols seq).drop i) ((symbols seq).drop j)
    rwa [List.length_drop, length_symbols, ← Array.length_toList, ← List.length_drop] at hshared
  have hlength : ((seq.toList.drop i).take (sharedAt (symbols seq) i j)).length =
      sharedAt (symbols seq) i j := List.length_take_of_le hle
  have hbegins := List.take_prefix (sharedAt (symbols seq) i j) (seq.toList.drop i)
  refine ⟨_, ⟨hbegins, ?_, fun u hi hj => ?_⟩, hlength⟩
  · refine prefix_drop_of_sharedAt hbegins ?_
    rw [hlength, sharedAt_comm]
  · refine List.prefix_of_prefix_length_le hi hbegins ?_
    rw [hlength]
    exact length_le_sharedAt hi hj

/-- Beside every suffix but the first stands the length of the longest word with which both it
and the suffix before it in order begin. -/
theorem commonPrefixes_exact (seq : Array UInt64) :
    (commonPrefixes seq (suffixOrder seq)).length = seq.size ∧
    (0 < seq.size → (commonPrefixes seq (suffixOrder seq))[0]? = some 0) ∧
    ∀ k, k + 1 < seq.size → ∃ i j w, (suffixOrder seq)[k]? = some i ∧
      (suffixOrder seq)[k + 1]? = some j ∧
      LongestPrefix w (seq.toList.drop i) (seq.toList.drop j) ∧
      (commonPrefixes seq (suffixOrder seq))[k + 1]? = some w.length := by
  have hs := suffixOrder_sorted seq
  have hlengths := commonPrefixes_sorted hs
  have hlength := hlengths.length.trans (length_symbols seq)
  refine ⟨hlength, fun hpos => ?_, fun k hk => ?_⟩
  · rw [← hlength] at hpos
    have hfirst := hlengths.first
    rw [List.headD_eq_head?_getD, List.head?_eq_getElem?, List.getElem?_eq_getElem hpos] at hfirst
    rw [List.getElem?_eq_getElem hpos]
    exact congrArg some hfirst
  · rw [← length_symbols, ← hs.length] at hk
    have hi := List.getElem?_eq_getElem (Nat.lt_of_succ_lt hk)
    have hj := List.getElem?_eq_getElem hk
    obtain ⟨w, hw, hwlength⟩ := exists_longestPrefix seq _ _
    exact ⟨_, _, w, hi, hj, hw, hwlength ▸ hlengths.listed k _ _ hi hj⟩

example : suffixOrder #[1, 2, 1, 2, 1] = [4, 2, 0, 3, 1] ∧
    commonPrefixes #[1, 2, 1, 2, 1] [4, 2, 0, 3, 1] = [0, 1, 3, 0, 2] := by
  decide +kernel

end GlyphTable
