import Mathlib
import GlyphTable.Proofs.Sorting
import GlyphTable.Revision.SuffixOrder

/-!
# The suffixes come out in order

`suffixOrder_sorted`: the starts that `suffixOrder` lists are
all positions of the sequence, each once, and the suffixes they begin ascend strictly
in lexicographic order. The invariant of prefix doubling is `RankedBy`: after a round
the ranks compare as the suffixes cut off behind `k` symbols do.

A sort need not leave equal keys in a fixed sequence, so a round is a relation (`Round`), and
`Doubles` is a step from one round to the next. Steps come to an end (`acc_doubles`), and whatever
a run comes to is sorted (`RankedBy.sorted`). `doublePrefixes` is one such run.
-/

namespace GlyphTable

def symbols (seq : Array UInt64) : List Nat :=
  seq.toList.map UInt64.toNat

@[simp] theorem length_symbols (seq : Array UInt64) : (symbols seq).length = seq.size := by
  simp [symbols]

-- ---------------------------------------------------------------------------
-- Lexicographic order, cut in two
-- ---------------------------------------------------------------------------

theorem lt_iff_take_drop (k : Nat) (a b : List Nat) :
    a < b ↔ a.take k < b.take k ∨ a.take k = b.take k ∧ a.drop k < b.drop k := by
  induction k generalizing a b with
  | zero => simp
  | succ k ih =>
    cases a with
    | nil => cases b <;> simp
    | cons x a =>
      cases b with
      | nil => simp
      | cons y b =>
        simp only [List.take_succ_cons, List.drop_succ_cons, List.cons_lt_cons_iff, ih a b,
          List.cons.injEq]
        tauto

theorem take_le_take {a b : List Nat} (h : a ≤ b) (k : Nat) : a.take k ≤ b.take k := by
  by_contra hlt
  exact absurd ((lt_iff_take_drop k b a).mpr (.inl (not_le.mp hlt))) (not_lt.mpr h)

def window (w : List Nat) (k i : Nat) : List Nat :=
  (w.drop i).take k

theorem window_double (w : List Nat) (k i j : Nat) :
    window w (2 * k) i < window w (2 * k) j ↔ window w k i < window w k j ∨
      window w k i = window w k j ∧ window w k (i + k) < window w k (j + k) := by
  have htake (l : Nat) : (window w (2 * k) l).take k = window w k l := by
    rw [window, List.take_take, Nat.min_eq_left (by omega), window]
  have hdrop (l : Nat) : (window w (2 * k) l).drop k = window w k (l + k) := by
    rw [window, List.drop_take, List.drop_drop, window, show 2 * k - k = k by omega]
  rw [lt_iff_take_drop k, htake, htake, hdrop, hdrop]

theorem window_eq_nil {w : List Nat} {k i : Nat} (h : w.length ≤ i) : window w k i = [] := by
  rw [window, List.drop_eq_nil_of_le h, List.take_nil]

theorem nil_lt_window {w : List Nat} {k i : Nat} (hk : 0 < k) (h : i < w.length) :
    [] < window w k i := by
  obtain ⟨k, rfl⟩ := Nat.exists_eq_succ_of_ne_zero hk.ne'
  rw [window, List.drop_eq_getElem_cons h, List.take_succ_cons]
  exact List.nil_lt_cons _ _

theorem window_eq_drop {w : List Nat} {k : Nat} (h : w.length ≤ k) (i : Nat) :
    window w k i = w.drop i := by
  rw [window, List.take_of_length_le]
  rw [List.length_drop]
  omega

theorem drop_injective {w : List Nat} {i j : Nat} (hi : i < w.length) (hj : j < w.length)
    (h : w.drop i = w.drop j) : i = j := by
  have hlen := congrArg List.length h
  simp only [List.length_drop] at hlen
  omega

-- ---------------------------------------------------------------------------
-- Ranks
-- ---------------------------------------------------------------------------

structure RankedBy (w : List Nat) (k : Nat) (rank : Array Nat) : Prop where
  size : rank.size = w.length
  lt_iff : ∀ i < w.length, ∀ j < w.length,
    rank.getD i 0 < rank.getD j 0 ↔ window w k i < window w k j

theorem RankedBy.eq_iff {w : List Nat} {k i j : Nat} {rank : Array Nat} (h : RankedBy w k rank)
    (hi : i < w.length) (hj : j < w.length) :
    rank.getD i 0 = rank.getD j 0 ↔ window w k i = window w k j := by
  rw [le_antisymm_iff, le_antisymm_iff, ← not_lt, ← not_lt, ← not_lt, ← not_lt,
    h.lt_iff j hj i hi, h.lt_iff i hi j hj]

theorem lePair_antisymm {a b : Nat × Nat} (hab : lePair a b) (hba : lePair b a) : a = b := by
  simp only [lePair, Bool.or_eq_true, Bool.and_eq_true, decide_eq_true_eq] at hab hba
  exact Prod.ext (by omega) (by omega)

/-- Keys of the next round compare as windows of twice the length. -/
theorem RankedBy.key_le_iff {w : List Nat} {k i j : Nat} {rank : Array Nat} (h : RankedBy w k rank)
    (hk : 0 < k) (hi : i < w.length) (hj : j < w.length) :
    lePair (suffixKey rank k i) (suffixKey rank k j) ↔ window w (2 * k) i ≤ window w (2 * k) j := by
  have hbehind (l : Nat) : (rank[l + k]?.map (· + 1)).getD 0 =
      if l + k < w.length then rank.getD (l + k) 0 + 1 else 0 := by
    simp only [Array.getD_eq_getD_getElem?, ← h.size]
    split
    · next hl => simp [hl]
    · next hl => simp [Array.getElem?_eq_none (Nat.le_of_not_lt hl)]
  have hsecond : (rank[i + k]?.map (· + 1)).getD 0 ≤ (rank[j + k]?.map (· + 1)).getD 0 ↔
      ¬ window w k (j + k) < window w k (i + k) := by
    rw [hbehind, hbehind]
    by_cases hik : i + k < w.length
    · by_cases hjk : j + k < w.length
      · simp only [hik, hjk, if_true, ← h.lt_iff (j + k) hjk (i + k) hik]
        omega
      · rw [window_eq_nil (Nat.le_of_not_lt hjk)]
        simp [hik, hjk, nil_lt_window hk hik]
    · rw [window_eq_nil (Nat.le_of_not_lt hik)]
      simp [hik]
  rw [← not_lt, window_double, h.eq_iff hj hi |>.symm, ← h.lt_iff j hj i hi]
  simp only [lePair, suffixKey, Bool.or_eq_true, Bool.and_eq_true, decide_eq_true_eq, hsecond]
  grind

-- ---------------------------------------------------------------------------
-- One round
-- ---------------------------------------------------------------------------

theorem map_fst_rankKeys (r : Nat) (l : List ((Nat × Nat) × Nat)) :
    (rankKeys r l).map (·.1) = l.map (·.2) := by
  fun_induction rankKeys r l with
  | case1 => rfl
  | case2 => rfl
  | case3 r a i b j rest ih => rw [List.map_cons, ih]; rfl

theorem le_of_mem_rankKeys {r : Nat} {l : List ((Nat × Nat) × Nat)} {x : Nat × Nat}
    (h : x ∈ rankKeys r l) : r ≤ x.2 := by
  fun_induction rankKeys r l with
  | case1 => simp at h
  | case2 r a i => simp_all
  | case3 r a i b j rest ih =>
    rcases List.mem_cons.mp h with rfl | h
    · exact le_rfl
    · have hr := ih h
      split at hr <;> omega

theorem rankKeys_cons (r : Nat) (a : (Nat × Nat) × Nat) (l : List ((Nat × Nat) × Nat)) :
    ∃ rest, rankKeys r (a :: l) = (a.2, r) :: rest := by
  cases l with
  | nil => exact ⟨[], rfl⟩
  | cons b l => exact ⟨_, rfl⟩

theorem rankKeys_pairwise {key : Nat → Nat × Nat} {l : List ((Nat × Nat) × Nat)}
    (hkey : ∀ a ∈ l, a.1 = key a.2) (hl : l.Pairwise fun a b => lePair a.1 b.1) (r : Nat) :
    (rankKeys r l).Pairwise fun x y =>
      lePair (key x.1) (key y.1) ∧ x.2 ≤ y.2 ∧ (x.2 = y.2 ↔ key x.1 = key y.1) := by
  fun_induction rankKeys r l with
  | case1 => exact .nil
  | case2 => simp
  | case3 r a i b j rest ih =>
    obtain ⟨ha, htail⟩ := List.pairwise_cons.mp hl
    have hrest := ih (fun c hc => hkey c (List.mem_cons_of_mem _ hc)) htail
    obtain rfl : a = key i := hkey (a, i) List.mem_cons_self
    obtain rfl : b = key j := hkey (b, j) (List.mem_cons_of_mem _ List.mem_cons_self)
    refine .cons (fun y hy => ?_) hrest
    have hry := le_of_mem_rankKeys hy
    -- `y` is the next entry or stands behind it, so its rank is tied to that of `j`.
    have hj : (if key i = key j then r else r + 1) = y.2 ↔ key j = key y.1 := by
      obtain ⟨tail, htl⟩ := rankKeys_cons (if key i = key j then r else r + 1) (key j, j) rest
      rw [htl] at hy hrest
      rcases List.mem_cons.mp hy with rfl | hy
      · simp
      · exact ((List.pairwise_cons.mp hrest).1 y hy).2.2
    have hle : lePair (key i) (key y.1) ∧ lePair (key j) (key y.1) := by
      have hmem : y.1 ∈ ((key j, j) :: rest).map (·.2) := by
        rw [← map_fst_rankKeys]
        exact List.mem_map_of_mem hy
      obtain ⟨c, hc, hcy⟩ := List.mem_map.mp hmem
      have hck := hkey c (List.mem_cons_of_mem _ hc)
      rw [← hcy, ← hck]
      refine ⟨ha c hc, ?_⟩
      rcases List.mem_cons.mp hc with rfl | hc
      · simpa using lePair_total (key j) (key j)
      · exact (List.pairwise_cons.mp htail).1 c hc
    refine ⟨hle.1, ?_⟩
    by_cases hij : key i = key j
    · simp only [hij, if_true] at hj hry ⊢
      exact ⟨hry, hj⟩
    · simp only [hij, if_false] at hj hry
      refine ⟨by omega, ⟨fun h => by omega, fun h => ?_⟩⟩
      have hji : lePair (key j) (key i) := h ▸ hle.2
      exact absurd (lePair_antisymm (ha (key j, j) List.mem_cons_self) hji) hij

theorem rankKeys_strict {r : Nat} {l : List ((Nat × Nat) × Nat)} {x : Nat × Nat}
    (h : (rankKeys r l).getLast? = some x) :
    x.2 + 1 ≤ r + l.length ∧ (x.2 + 1 = r + l.length → (rankKeys r l).Pairwise (·.2 < ·.2)) := by
  fun_induction rankKeys r l with
  | case1 => simp at h
  | case2 r a i =>
    obtain rfl : (i, r) = x := by simpa using h
    simp
  | case3 r a i b j rest ih =>
    obtain ⟨tail, htl⟩ := rankKeys_cons (if a = b then r else r + 1) (b, j) rest
    rw [htl, List.getLast?_cons_cons, ← htl] at h
    obtain ⟨hle, hstrict⟩ := ih h
    simp only [List.length_cons] at hle hstrict ⊢
    refine ⟨by split at hle <;> omega, fun hlast => .cons (fun y hy => ?_) (hstrict ?_)⟩
    · have hy := le_of_mem_rankKeys hy
      split at hy <;> rename_i hab <;> simp only [hab, if_true, if_false] at hle <;>
        simp only <;> omega
    · split at hle <;> rename_i hab <;> simp only [hab, if_true, if_false] <;> omega

/-- Positions in ascending order of their keys, those with equal keys in any sequence. -/
structure Round (n k : Nat) (rank : Array Nat) (order : List Nat) : Prop where
  perm : order.Perm (List.range n)
  ascending : order.Pairwise fun i j => lePair (suffixKey rank k i) (suffixKey rank k j)

def reranked (k : Nat) (rank : Array Nat) (order : List Nat) : List (Nat × Nat) :=
  rankKeys 0 (order.map fun i => (suffixKey rank k i, i))

theorem map_fst_reranked (k : Nat) (rank : Array Nat) (order : List Nat) :
    (reranked k rank order).map (·.1) = order := by
  rw [reranked, map_fst_rankKeys, List.map_map]
  exact List.map_id' order

theorem sortSuffixes_round (n k : Nat) (rank : Array Nat) :
    ∃ order, Round n k rank order ∧ sortSuffixes n k rank = reranked k rank order := by
  let keyed := (List.range n).map fun i => (suffixKey rank k i, i)
  let sorted := sortStably (fun a b => lePair a.1 b.1) keyed
  have hsorted : sorted.Pairwise fun a b => lePair a.1 b.1 :=
    pairwise_sortStably (fun a b => lePair_total a.1 b.1) (fun a b c =>
      lePair_trans a.1 b.1 c.1) keyed
  have hkey : ∀ a ∈ sorted, (suffixKey rank k a.2, a.2) = a := by
    intro a ha
    obtain ⟨i, -, rfl⟩ := List.mem_map.mp (mem_sortStably.mp ha)
    rfl
  have hkeyed : (sorted.map (·.2)).map (fun i => (suffixKey rank k i, i)) = sorted := by
    rw [List.map_map]
    exact (List.map_congr_left hkey).trans (List.map_id' sorted)
  refine ⟨sorted.map (·.2), ⟨?_, ?_⟩, by rw [reranked, hkeyed]; rfl⟩
  · refine ((sortStably_perm _ _).map _).trans ?_
    simp [keyed, Function.comp_def]
  · rw [← hkeyed, List.pairwise_map] at hsorted
    exact hsorted

section

variable {w order : List Nat} {n k : Nat} {rank : Array Nat}

theorem Round.fst_lt (hr : Round n k rank order) {x : Nat × Nat} (hx : x ∈ reranked k rank order) :
    x.1 < n := by
  have hmem : x.1 ∈ order := map_fst_reranked k rank order ▸ List.mem_map_of_mem hx
  exact List.mem_range.mp (hr.perm.mem_iff.mp hmem)

theorem Round.pairwise (hr : Round w.length k rank order) (h : RankedBy w k rank) (hk : 0 < k) :
    (reranked k rank order).Pairwise fun x y =>
      window w (2 * k) x.1 ≤ window w (2 * k) y.1 ∧ x.2 ≤ y.2 ∧
        (x.2 < y.2 ↔ window w (2 * k) x.1 < window w (2 * k) y.1) := by
  have hkeyed : ∀ a ∈ order.map fun i => (suffixKey rank k i, i), a.1 = suffixKey rank k a.2 := by
    intro a ha
    obtain ⟨i, -, rfl⟩ := List.mem_map.mp ha
    rfl
  refine (rankKeys_pairwise hkeyed (List.pairwise_map.mpr hr.ascending) 0).imp_of_mem ?_
  intro x y hx hy ⟨hkey, hle, heq⟩
  have hx := hr.fst_lt hx
  have hy := hr.fst_lt hy
  refine ⟨(h.key_le_iff hk hx hy).mp hkey, hle, ?_⟩
  rw [← not_le (a := window w (2 * k) y.1), ← h.key_le_iff hk hy hx, lt_iff_le_and_ne, heq.ne]
  constructor
  · rintro ⟨-, hne⟩ hback
    exact hne (lePair_antisymm hkey hback)
  · intro hback
    exact ⟨hle, fun h => hback (h ▸ hkey)⟩

end

-- ---------------------------------------------------------------------------
-- Ranks by position
-- ---------------------------------------------------------------------------

@[simp] theorem size_ranksOf (n : Nat) (sorted : List (Nat × Nat)) :
    (ranksOf n sorted).size = n := by
  have h (sorted : List (Nat × Nat)) (rank : Array Nat) :
      (sorted.foldl (fun rank x => rank.setIfInBounds x.1 x.2) rank).size = rank.size := by
    induction sorted generalizing rank with
    | nil => rfl
    | cons x rest ih => simp [ih]
  have hzeros : (List.replicate n 0).toArray.size = n := by simp
  exact (h sorted _).trans hzeros

theorem getD_ranksOf {n : Nat} {sorted : List (Nat × Nat)} (hnodup : (sorted.map (·.1)).Nodup)
    {x : Nat × Nat} (hx : x ∈ sorted) (hlt : x.1 < n) : (ranksOf n sorted).getD x.1 0 = x.2 := by
  have h (sorted : List (Nat × Nat)) (hnodup : (sorted.map (·.1)).Nodup) (rank : Array Nat)
      (hsize : rank.size = n) (hx : rank.getD x.1 0 = x.2 ∧ x.1 ∉ sorted.map (·.1) ∨ x ∈ sorted) :
      (sorted.foldl (fun rank x => rank.setIfInBounds x.1 x.2) rank).getD x.1 0 = x.2 := by
    induction sorted generalizing rank with
    | nil => simpa using hx
    | cons y rest ih =>
      obtain ⟨hy, hrest⟩ := List.nodup_cons.mp hnodup
      refine ih hrest _ (by simpa using hsize) ?_
      rcases hx with ⟨hr, hx⟩ | hx
      · simp only [List.map_cons, List.mem_cons, not_or] at hx
        exact .inl ⟨by simpa [Array.getD_eq_getD_getElem?,
          Array.getElem?_setIfInBounds, Ne.symm hx.1]
          using hr, hx.2⟩
      · rcases List.mem_cons.mp hx with rfl | hx
        · exact .inl ⟨by simp [Array.getD_eq_getD_getElem?, hsize, hlt], hy⟩
        · exact .inr hx
  exact h sorted hnodup _ (by simp) (.inr hx)

theorem RankedBy.double {w order : List Nat} {k : Nat} {rank : Array Nat} (h : RankedBy w k rank)
    (hk : 0 < k) (hr : Round w.length k rank order) :
    RankedBy w (2 * k) (ranksOf w.length (reranked k rank order)) := by
  refine ⟨size_ranksOf _ _, fun i hi j hj => ?_⟩
  have hlisted (l : Nat) (hl : l < w.length) : ∃ x ∈ reranked k rank order, x.1 = l := by
    have hmem : l ∈ (reranked k rank order).map (·.1) := by
      rw [map_fst_reranked]
      exact hr.perm.mem_iff.mpr (List.mem_range.mpr hl)
    exact List.mem_map.mp hmem
  have hnodup : ((reranked k rank order).map (·.1)).Nodup := by
    rw [map_fst_reranked]
    exact hr.perm.nodup_iff.mpr List.nodup_range
  obtain ⟨x, hx, rfl⟩ := hlisted i hi
  obtain ⟨y, hy, rfl⟩ := hlisted j hj
  rw [getD_ranksOf hnodup hx hi, getD_ranksOf hnodup hy hj]
  have hsorted := hr.pairwise h hk
  -- Read from the later to the earlier entry, both sides are false.
  have hback : (reranked k rank order).Pairwise fun x y =>
      y.2 < x.2 ↔ window w (2 * k) y.1 < window w (2 * k) x.1 := by
    refine hsorted.imp ?_
    rintro x y ⟨hwindow, hrank, -⟩
    exact iff_of_false (Nat.not_lt.mpr hrank) (not_lt.mpr hwindow)
  exact (hsorted.imp fun h => h.2.2).forall_of_forall_of_flip (fun _ _ => by simp) hback hx hy

-- ---------------------------------------------------------------------------
-- All rounds
-- ---------------------------------------------------------------------------

/-- All positions, the suffixes they begin in strictly ascending order. -/
structure SuffixesSorted (w : List Nat) (order : List Nat) : Prop where
  perm : order.Perm (List.range w.length)
  sorted : order.Pairwise fun i j => w.drop i < w.drop j

theorem SuffixesSorted.unique {w order order' : List Nat} (h : SuffixesSorted w order)
    (h' : SuffixesSorted w order') : order = order' :=
  List.Perm.eq_of_pairwise (fun _ _ _ _ hlt hgt => absurd hgt (not_lt_of_gt hlt)) h.sorted h'.sorted
    (h.perm.trans h'.perm.symm)

/-- Whether a round is the last one: all ranks differ, or no longer prefix exists. -/
def LastRound (n k : Nat) (rank : Array Nat) (order : List Nat) : Prop :=
  ((reranked k rank order).getLast?.map (·.2)) = some (n - 1) ∨ n ≤ k

/-- A round that is not the last hands on ranks by twice as many symbols. -/
inductive Doubles (n : Nat) : Nat × Array Nat → Nat × Array Nat → Prop
  | round {k : Nat} {rank : Array Nat} {order : List Nat} (hr : Round n k rank order)
      (hmore : ¬ LastRound n k rank order) :
      Doubles n (k, rank) (2 * k, ranksOf n (reranked k rank order))

def DoublesTo (n : Nat) (start : Nat × Array Nat) (order : List Nat) : Prop :=
  ∃ k rank, Relation.ReflTransGen (Doubles n) start (k, rank) ∧ Round n k rank order ∧
    LastRound n k rank order

/-- The length doubles up to that of the sequence at most, so rounds come to an end. -/
theorem acc_doubles {n k : Nat} (hk : 0 < k) (rank : Array Nat) :
    Acc (fun t s => Doubles n s t) (k, rank) := by
  induction hmeasure : n - k using Nat.strong_induction_on generalizing k rank with
  | _ measure ih =>
    refine ⟨_, fun t ht => ?_⟩
    cases ht with
    | round hr hmore =>
      have hlt : ¬ n ≤ k := fun hle => hmore (.inr hle)
      exact ih (n - 2 * k) (by omega) (by omega) _ rfl

section

variable {w order : List Nat} {k : Nat} {rank : Array Nat}

theorem RankedBy.run {s t : Nat × Array Nat} (h : RankedBy w s.1 s.2) (hk : 0 < s.1)
    (hrun : Relation.ReflTransGen (Doubles w.length) s t) : RankedBy w t.1 t.2 ∧ 0 < t.1 := by
  induction hrun with
  | refl => exact ⟨h, hk⟩
  | tail _ hstep ih =>
    cases hstep with
    | round hr _ => exact ⟨ih.1.double ih.2 hr, Nat.mul_pos Nat.two_pos ih.2⟩

theorem RankedBy.sorted_of_last (h : RankedBy w k rank) (hk : 0 < k)
    (hr : Round w.length k rank order) (hlast : LastRound w.length k rank order) :
    SuffixesSorted w order := by
  refine ⟨hr.perm, ?_⟩
  rw [← map_fst_reranked k rank order]
  refine List.pairwise_map.mpr ?_
  have hsorted := hr.pairwise h hk
  rcases hlast with hlast | hlen
  · obtain ⟨x, hx, hrank⟩ := Option.map_eq_some_iff.mp hlast
    have hpos : 0 < w.length := Nat.zero_lt_of_lt (hr.fst_lt (List.mem_of_getLast? hx))
    have hlength : order.length = w.length := by simpa using hr.perm.length_eq
    have hstrict := (rankKeys_strict hx).2
    rw [List.length_map, hlength] at hstrict
    refine (hsorted.and (hstrict (by omega))).imp ?_
    rintro x y ⟨⟨-, -, hiff⟩, hlt⟩
    exact (lt_iff_take_drop (2 * k) _ _).mpr (.inl (hiff.mp hlt))
  · have hnodup := hr.perm.nodup_iff.mpr List.nodup_range
    rw [← map_fst_reranked k rank order] at hnodup
    refine (hsorted.and (List.pairwise_map.mp hnodup)).imp_of_mem ?_
    rintro x y hx hy ⟨⟨hle, -, -⟩, hne⟩
    rw [window_eq_drop (by omega), window_eq_drop (by omega)] at hle
    exact lt_of_le_of_ne hle fun heq => hne (drop_injective (hr.fst_lt hx) (hr.fst_lt hy) heq)

/-- Whatever sequence equal keys are left in, the rounds end with the suffixes in order. -/
theorem RankedBy.sorted (h : RankedBy w k rank) (hk : 0 < k)
    (hto : DoublesTo w.length (k, rank) order) :
    SuffixesSorted w order := by
  obtain ⟨l, rank', hrun, hr, hlast⟩ := hto
  obtain ⟨h', hl⟩ := h.run hk hrun
  exact h'.sorted_of_last hl hr hlast

end

theorem doublesTo_doublePrefixes {n rounds k : Nat} {rank : Array Nat} (hlen : n ≤ 2 ^ rounds * k) :
    DoublesTo n (k, rank) (doublePrefixes n (rounds + 1) k rank) := by
  induction rounds generalizing k rank with
  | zero =>
    obtain ⟨order, hr, hsorted⟩ := sortSuffixes_round n k rank
    have hlast : n ≤ k := by simpa using hlen
    rw [doublePrefixes, if_pos (.inr hlast), hsorted, map_fst_reranked]
    exact ⟨k, rank, .refl, hr, .inr hlast⟩
  | succ rounds ih =>
    obtain ⟨order, hr, hsorted⟩ := sortSuffixes_round n k rank
    rw [doublePrefixes, hsorted]
    split
    · next hlast =>
      rw [map_fst_reranked]
      exact ⟨k, rank, .refl, hr, hlast⟩
    · next hmore =>
      rw [Nat.pow_succ, Nat.mul_assoc] at hlen
      have hto : DoublesTo n (2 * k, ranksOf n (reranked k rank order)) _ := ih hlen
      obtain ⟨l, rank', hrun, hend⟩ := hto
      exact ⟨l, rank', .head (.round hr hmore) hrun, hend⟩

/-- Numbers that compare as the symbols of a sequence do, such as their places in an
alphabet. -/
structure Numbering (seq : Array UInt64) (rank : Array Nat) : Prop where
  size : rank.size = seq.size
  lt_iff : ∀ i j x y, seq[i]? = some x → seq[j]? = some y →
    (rank.getD i 0 < rank.getD j 0 ↔ x < y)

theorem numbering_symbols (seq : Array UInt64) : Numbering seq (symbols seq).toArray := by
  refine ⟨by simp, fun i j x y hx hy => ?_⟩
  obtain ⟨hi, rfl⟩ := Array.getElem?_eq_some_iff.mp hx
  obtain ⟨hj, rfl⟩ := Array.getElem?_eq_some_iff.mp hy
  simp [symbols, Array.getD_eq_getD_getElem?, hi, hj, UInt64.lt_iff_toNat_lt]

theorem Numbering.rankedBy {seq : Array UInt64} {rank : Array Nat} (h : Numbering seq rank) :
    RankedBy (symbols seq) 1 rank := by
  refine ⟨by rw [h.size, length_symbols], fun i hi j hj => ?_⟩
  have hone (l : Nat) (hl : l < (symbols seq).length) :
      window (symbols seq) 1 l = [(symbols seq)[l]] := by
    rw [window, List.drop_eq_getElem_cons hl, List.take_succ_cons, List.take_zero]
  rw [hone i hi, hone j hj]
  rw [length_symbols] at hi hj
  rw [h.lt_iff i j _ _ (Array.getElem?_eq_getElem hi) (Array.getElem?_eq_getElem hj)]
  simp [symbols, List.cons_lt_cons_iff, UInt64.lt_iff_toNat_lt]

theorem doublesTo_suffixOrder (seq : Array UInt64) :
    DoublesTo seq.size (1, (symbols seq).toArray) (suffixOrder seq) := by
  unfold suffixOrder
  cases hn : seq.size with
  | zero => exact ⟨1, _, .refl, ⟨.refl _, .nil⟩, .inr (Nat.zero_le 1)⟩
  | succ n =>
    refine doublesTo_doublePrefixes ?_
    rw [Nat.mul_one]
    exact Nat.lt_two_pow_self

theorem suffixOrder_sorted (seq : Array UInt64) :
    SuffixesSorted (symbols seq) (suffixOrder seq) := by
  have hto := doublesTo_suffixOrder seq
  rw [← length_symbols] at hto
  exact (numbering_symbols seq).rankedBy.sorted Nat.one_pos hto

end GlyphTable
