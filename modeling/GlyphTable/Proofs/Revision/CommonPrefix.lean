import GlyphTable.Proofs.Revision.SuffixOrder

/-!
# Common prefixes of neighbouring suffixes

`commonPrefixes_sorted`: scanned over the suffixes in order, `commonPrefixes` lists the
exact number of symbols that each suffix shares with the one before. The scan never
looks again at symbols it has counted; `shared_next` says why it need not.
-/

namespace GlyphTable

-- ---------------------------------------------------------------------------
-- Shared symbols of two sequences
-- ---------------------------------------------------------------------------

def shared : List Nat → List Nat → Nat
  | x :: a, y :: b => if x = y then shared a b + 1 else 0
  | _, _ => 0

theorem shared_comm (a b : List Nat) : shared a b = shared b a := by
  induction a generalizing b with
  | nil => cases b <;> rfl
  | cons x a ih =>
    cases b with
    | nil => rfl
    | cons y b => simp only [shared, ih b, eq_comm]

theorem shared_le_length (a b : List Nat) : shared a b ≤ a.length := by
  fun_induction shared a b with
  | case1 a y b ih => simpa using ih
  | case2 => simp
  | case3 => simp

theorem le_shared_iff {a b : List Nat} {m : Nat} :
    m ≤ shared a b ↔ ∀ k < m, ∃ x, a[k]? = some x ∧ b[k]? = some x := by
  fun_induction shared a b generalizing m with
  | case1 a y b ih =>
    cases m with
    | zero => simp
    | succ m =>
      rw [Nat.succ_le_succ_iff, ih]
      constructor
      · intro h k hk
        cases k with
        | zero => exact ⟨y, rfl, rfl⟩
        | succ k => exact h k (by omega)
      · intro h k hk
        exact h (k + 1) (by omega)
  | case2 x a y b hne =>
    constructor
    · intro h k hk
      omega
    · intro h
      by_contra hm
      obtain ⟨z, hx, hy⟩ := h 0 (by omega)
      exact hne ((Option.some.inj hx).trans (Option.some.inj hy).symm)
  | case3 a b hnil =>
    constructor
    · intro h k hk
      omega
    · intro h
      by_contra hm
      obtain ⟨z, hx, hy⟩ := h 0 (by omega)
      cases a with
      | nil => simp at hx
      | cons x a =>
        cases b with
        | nil => simp at hy
        | cons y b => exact hnil x a y b rfl rfl

theorem take_eq_of_le_shared {a b : List Nat} {m : Nat} (h : m ≤ shared a b) :
    a.take m = b.take m := by
  refine List.ext_getElem? fun k => ?_
  rw [List.getElem?_take, List.getElem?_take]
  split
  · next hk =>
    obtain ⟨x, hx, hy⟩ := le_shared_iff.mp h k hk
    rw [hx, hy]
  · rfl

/-- A sequence between two others shares with the upper one what the lower one does. -/
theorem shared_le_shared {a b c : List Nat} (hab : a ≤ b) (hbc : b ≤ c) :
    shared a c ≤ shared b c := by
  have hac := take_eq_of_le_shared (le_refl (shared a c))
  have hcb : b.take (shared a c) = c.take (shared a c) :=
    le_antisymm (take_le_take hbc _) (hac ▸ take_le_take hab _)
  refine le_shared_iff.mpr fun k hk => ?_
  obtain ⟨x, -, hx⟩ := le_shared_iff.mp (le_refl (shared a c)) k hk
  have hk' := congrArg (·[k]?) hcb
  simp only [List.getElem?_take, hk, if_true] at hk'
  exact ⟨x, hk'.trans hx, hx⟩

def sharedAt (w : List Nat) (i j : Nat) : Nat :=
  shared (w.drop i) (w.drop j)

theorem sharedAt_comm (w : List Nat) (i j : Nat) : sharedAt w i j = sharedAt w j i :=
  shared_comm _ _

theorem lt_sharedAt_iff {seq : Array UInt64} {i j h : Nat} (hle : h ≤ sharedAt (symbols seq) i j) :
    h < sharedAt (symbols seq) i j ↔ ∃ x, seq[i + h]? = some x ∧ seq[j + h]? = some x := by
  have hsymbol (l : Nat) : ((symbols seq).drop l)[h]? = (seq[l + h]?).map UInt64.toNat := by
    simp [symbols]
  rw [sharedAt] at hle ⊢
  have hbefore := le_shared_iff.mp hle
  rw [← Nat.succ_le_iff, le_shared_iff]
  constructor
  · intro hall
    obtain ⟨x, hx, hy⟩ := hall h (Nat.lt_succ_self h)
    rw [hsymbol] at hx hy
    obtain ⟨u, hu, rfl⟩ := Option.map_eq_some_iff.mp hx
    obtain ⟨v, hv, hvu⟩ := Option.map_eq_some_iff.mp hy
    exact ⟨u, hu, by rw [hv, UInt64.toNat_inj.mp hvu]⟩
  · rintro ⟨x, hx, hy⟩ k hk
    rcases Nat.lt_succ_iff_lt_or_eq.mp hk with hk | rfl
    · exact hbefore k hk
    · exact ⟨x.toNat, by rw [hsymbol, hx]; rfl, by rw [hsymbol, hy]; rfl⟩

theorem extendPrefix_eq {seq : Array UInt64} {i j limit h : Nat}
    (hle : h ≤ sharedAt (symbols seq) i j) (hge : sharedAt (symbols seq) i j ≤ h + limit) :
    extendPrefix seq i j limit h = sharedAt (symbols seq) i j := by
  induction limit generalizing h with
  | zero => rw [extendPrefix]; omega
  | succ limit ih =>
    have hnext := lt_sharedAt_iff hle
    rw [extendPrefix]
    split
    · next x y hx hy =>
      split
      · next hxy =>
        subst hxy
        exact ih (hnext.mpr ⟨x, hx, hy⟩) (by omega)
      · next hxy =>
        refine le_antisymm hle (not_lt.mp fun hlt => ?_)
        obtain ⟨z, hz, hz'⟩ := hnext.mp hlt
        rw [hx] at hz
        rw [hy] at hz'
        exact hxy ((Option.some.inj hz).trans (Option.some.inj hz').symm)
    · next hnone =>
      refine le_antisymm hle (not_lt.mp fun hlt => ?_)
      obtain ⟨z, hz, hz'⟩ := hnext.mp hlt
      exact hnone z z hz hz'

-- ---------------------------------------------------------------------------
-- Neighbours in order
-- ---------------------------------------------------------------------------

section

variable {w : List Nat} {order : List Nat} (hs : SuffixesSorted w order)

include hs

theorem SuffixesSorted.length : order.length = w.length := by
  simpa using hs.perm.length_eq

theorem SuffixesSorted.lt_length {r i : Nat} (hi : order[r]? = some i) : i < w.length :=
  List.mem_range.mp (hs.perm.mem_iff.mp (List.mem_of_getElem? hi))

theorem SuffixesSorted.exists_place {i : Nat} (hi : i < w.length) : ∃ r : Nat, order[r]? = some i :=
  List.mem_iff_getElem?.mp (hs.perm.mem_iff.mpr (List.mem_range.mpr hi))

theorem SuffixesSorted.lt_iff {r t i j : Nat} (hi : order[r]? = some i) (hj : order[t]? = some j) :
    w.drop i < w.drop j ↔ r < t := by
  obtain ⟨hr, rfl⟩ := List.getElem?_eq_some_iff.mp hi
  obtain ⟨ht, rfl⟩ := List.getElem?_eq_some_iff.mp hj
  have hsorted := List.pairwise_iff_getElem.mp hs.sorted
  rcases Nat.lt_trichotomy r t with h | rfl | h
  · exact iff_of_true (hsorted r t hr ht h) h
  · simp
  · exact iff_of_false (hsorted t r ht hr h).asymm (by omega)

theorem SuffixesSorted.place_inj {r t i : Nat} (hr : order[r]? = some i) (ht : order[t]? = some i) :
    r = t := by
  have hlt := hs.lt_iff hr ht
  have hgt := hs.lt_iff ht hr
  simp only [lt_irrefl, false_iff] at hlt hgt
  omega

/-- A suffix shares with the one before it in order all but one of the symbols that the
suffix one longer shares with the one before that. -/
theorem SuffixesSorted.shared_next {r t i j i' : Nat} (hj : order[r]? = some j)
    (hi : order[r + 1]? = some i) (hi' : order[t]? = some i')
    (hnext : order[t + 1]? = some (i + 1)) :
    sharedAt w i j ≤ sharedAt w (i + 1) i' + 1 := by
  by_cases hone : sharedAt w i j ≤ 1
  · omega
  -- Dropping the first symbol, which both share, keeps the order of the two suffixes.
  have hji := (hs.lt_iff hj hi).mpr (Nat.lt_succ_self r)
  have hsplit (l : Nat) (hl : l < w.length) : w.drop l = w[l] :: w.drop (l + 1) :=
    List.drop_eq_getElem_cons hl
  have hilt := hs.lt_length hi
  have hjlt := hs.lt_length hj
  have hcount : sharedAt w i j = if w[i] = w[j] then sharedAt w (i + 1) (j + 1) + 1 else 0 := by
    rw [sharedAt, hsplit i hilt, hsplit j hjlt, shared, sharedAt]
  have heq : w[i] = w[j] := by
    by_contra hne
    rw [if_neg hne] at hcount
    omega
  rw [if_pos heq] at hcount
  have hlt : w.drop (j + 1) < w.drop (i + 1) := by
    rw [hsplit i hilt, hsplit j hjlt, heq, List.cons_lt_cons_self] at hji
    exact hji
  have hj' : j + 1 < w.length := by
    have hlen := shared_le_length (w.drop (j + 1)) (w.drop (i + 1))
    rw [← sharedAt, sharedAt_comm, List.length_drop] at hlen
    omega
  obtain ⟨p, hp⟩ := hs.exists_place hj'
  have hle : w.drop (j + 1) ≤ w.drop i' := by
    have hpt := (hs.lt_iff hp hnext).mp hlt
    exact not_lt.mp fun h => by have := (hs.lt_iff hi' hp).mp h; omega
  have hbetween := shared_le_shared hle ((hs.lt_iff hi' hnext).mpr (Nat.lt_succ_self t)).le
  rw [← sharedAt, ← sharedAt, sharedAt_comm, sharedAt_comm w i'] at hbetween
  omega

theorem SuffixesSorted.rank_eq {r i : Nat} (hi : order[r]? = some i) :
    (ranksOf w.length order.zipIdx).getD i 0 = r := by
  have hnodup : (order.zipIdx.map (·.1)).Nodup := by
    rw [List.zipIdx_map_fst]
    exact hs.perm.nodup_iff.mpr List.nodup_range
  have hmem : (i, r) ∈ order.zipIdx := List.mem_zipIdx_iff_getElem?.mpr hi
  exact getD_ranksOf hnodup hmem (hs.lt_length hi)

end

-- ---------------------------------------------------------------------------
-- The scan
-- ---------------------------------------------------------------------------

/-- What holds before the scan comes to the suffix at `i`: lengths are listed for all
suffixes that begin earlier, and the count carried over is not too high for this one. -/
structure ScannedTo (w order : List Nat) (i : Nat) (state : Nat × Array Nat) : Prop where
  size : state.2.size = w.length
  first : state.2.getD 0 0 = 0
  carried : ∀ r j : Nat, order[r]? = some j → order[r + 1]? = some i → state.1 ≤ sharedAt w i j
  listed : ∀ r j t : Nat, t < i → order[r]? = some j → order[r + 1]? = some t →
    state.2[r + 1]? = some (sharedAt w t j)

theorem ScannedTo.step {seq : Array UInt64} {order : List Nat} {i : Nat} {state : Nat × Array Nat}
    (h : ScannedTo (symbols seq) order i state) (hs : SuffixesSorted (symbols seq) order)
    (hi : i < (symbols seq).length) :
    ScannedTo (symbols seq) order (i + 1)
      (scanSuffix seq order.toArray (ranksOf (symbols seq).length order.zipIdx) state i) := by
  obtain ⟨count, lengths⟩ := state
  obtain ⟨hsize, hfirst, hcarried, hlisted⟩ := h
  obtain ⟨p, hp⟩ := hs.exists_place hi
  rw [scanSuffix, hs.rank_eq hp]
  cases p with
  | zero =>
    refine ⟨hsize, hfirst, fun _ _ _ _ => Nat.zero_le _, fun r j t ht hj hrt => ?_⟩
    rcases Nat.lt_succ_iff_lt_or_eq.mp ht with ht | rfl
    · exact hlisted r j t ht hj hrt
    · exact absurd (hs.place_inj hrt hp) (Nat.succ_ne_zero r)
  | succ p =>
    obtain ⟨j, hj⟩ : ∃ j, order[p]? = some j :=
      ⟨_, List.getElem?_eq_getElem (Nat.lt_of_succ_lt (List.getElem?_eq_some_iff.mp hp).1)⟩
    have hbefore : order.toArray.getD p 0 = j := by
      simp [Array.getD_eq_getD_getElem?, hj]
    have hcount : extendPrefix seq i j seq.size count = sharedAt (symbols seq) i j := by
      refine extendPrefix_eq (hcarried p j hj hp) ?_
      have hlen := shared_le_length ((symbols seq).drop i) ((symbols seq).drop j)
      rw [← sharedAt, List.length_drop, length_symbols] at hlen
      omega
    simp only [hbefore, hcount]
    refine ⟨by simpa using hsize, ?_, fun t j' hj' hnext => ?_, fun r k t ht hk hrt => ?_⟩
    · simpa [Array.getD_eq_getD_getElem?, Array.getElem?_setIfInBounds] using hfirst
    · have hnext := hs.shared_next hj hp hj' hnext
      simp only
      omega
    · have hplace : p + 1 < (symbols seq).length := by
        rw [← hs.length]
        exact (List.getElem?_eq_some_iff.mp hp).1
      rcases Nat.lt_succ_iff_lt_or_eq.mp ht with ht | rfl
      · have hne : p + 1 ≠ r + 1 := by
          intro heq
          rw [← heq, hp] at hrt
          exact absurd (Option.some.inj hrt) (by omega)
        rw [Array.getElem?_setIfInBounds_ne hne]
        exact hlisted r k t ht hk hrt
      · obtain rfl : p = r := Nat.succ.inj (hs.place_inj hp hrt)
        obtain rfl : j = k := Option.some.inj (hj.symm.trans hk)
        rw [← hsize] at hplace
        exact Array.getElem?_setIfInBounds_self_of_lt hplace

theorem scannedTo_range {seq : Array UInt64} {order : List Nat}
    (hs : SuffixesSorted (symbols seq) order) {i : Nat} (hi : i ≤ (symbols seq).length) :
    ScannedTo (symbols seq) order i
      ((List.range i).foldl
        (scanSuffix seq order.toArray (ranksOf (symbols seq).length order.zipIdx))
        (0, (List.replicate (symbols seq).length 0).toArray)) := by
  induction i with
  | zero =>
    refine ⟨by simp, ?_, fun _ _ _ _ => Nat.zero_le _,
      fun _ _ _ ht => absurd ht (Nat.not_lt_zero _)⟩
    simp only [List.range_zero, List.foldl_nil, Array.getD_eq_getD_getElem?]
    cases (symbols seq).length <;> simp [List.replicate_succ]
  | succ i ih =>
    rw [List.range_succ, List.foldl_append]
    exact (ih (by omega)).step hs (by omega)

structure PrefixesListed (w order : List Nat) (lengths : List Nat) : Prop where
  length : lengths.length = w.length
  first : lengths.headD 0 = 0
  listed : ∀ r i j : Nat, order[r]? = some i → order[r + 1]? = some j →
    lengths[r + 1]? = some (sharedAt w i j)

theorem commonPrefixes_sorted {seq : Array UInt64} {order : List Nat}
    (hs : SuffixesSorted (symbols seq) order) :
    PrefixesListed (symbols seq) order (commonPrefixes seq order) := by
  have h := scannedTo_range hs le_rfl
  simp only [length_symbols] at h
  refine ⟨?_, ?_, fun r i j hi hj => ?_⟩
  · simpa [commonPrefixes] using h.size
  · have hfirst := h.first
    rw [Array.getD_eq_getD_getElem?, ← Array.getElem?_toList, ← List.head?_eq_getElem?] at hfirst
    rw [commonPrefixes, List.headD_eq_head?_getD]
    exact hfirst
  · have hlt := hs.lt_length hj
    rw [length_symbols] at hlt
    rw [commonPrefixes, Array.getElem?_toList, h.listed r i j hlt hi hj, sharedAt_comm]

end GlyphTable
