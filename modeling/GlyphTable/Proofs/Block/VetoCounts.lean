import GlyphTable.Proofs.Block.Chains

/-!
# How often a veto is counted

Vetoes of the same two texts share the continuations between segments of these texts. Every
continuation is counted for the first of them that is still unused, or else for the first of
them, whatever other vetoes stand between them: `Block.countsOf_stackUpTo` follows this through
the segments. `Block.ofGlyphs_vetoCounts` says what it comes to at the end, and when the strict
outcome is an error.
-/

namespace GlyphTable

-- ---------------------------------------------------------------------------
-- Shares of equal vetoes
-- ---------------------------------------------------------------------------

namespace Veto

theorem names_iff {v : Veto} {upper lower : Segment} :
    v.Names upper lower ↔ v = ⟨upper.text, lower.text⟩ := by
  constructor
  · rintro ⟨hupper, hlower⟩
    rw [← hupper, ← hlower]
  · rintro rfl
    exact ⟨rfl, rfl⟩

/-- What `k` equal vetoes are counted for `n` continuations: one each in turn, and what is left
over goes to the first. -/
def shares (k n : Nat) : List Nat :=
  if n ≤ k then List.replicate n 1 ++ List.replicate (k - n) 0
  else (n - k + 1) :: List.replicate (k - 1) 1

def About (v : Veto) (segments : Array Segment) (i j : Nat) : Prop :=
  ∃ upper ∈ segments[i]?, ∃ lower ∈ segments[j]?, v.Names upper lower

instance (v : Veto) (segments : Array Segment) (i j : Nat) : Decidable (v.About segments i j) :=
  inferInstanceAs (Decidable (∃ _ ∈ _, ∃ _ ∈ _, _))

def demand (v : Veto) (segments : Array Segment) : Nat :=
  ((Finset.range segments.size ×ˢ Finset.range segments.size).filter fun e =>
    Segment.IsContinuation segments e.1 e.2 ∧ v.About segments e.1 e.2).card

theorem shares_zero (k : Nat) : shares k 0 = List.replicate k 0 := by
  simp [shares]

theorem shares_of_lt {k n : Nat} (h : n < k) :
    shares k n = List.replicate n 1 ++ 0 :: List.replicate (k - n - 1) 0 := by
  rw [shares, if_pos h.le, ← List.replicate_succ, Nat.sub_add_cancel (Nat.sub_pos_of_lt h)]

theorem shares_of_le {k n : Nat} (hk : 0 < k) (h : k ≤ n) :
    shares k n = (n - k + 1) :: List.replicate (k - 1) 1 := by
  rcases h.eq_or_lt with rfl | hlt
  · rw [shares, if_pos le_rfl, Nat.sub_self, List.replicate_zero, List.append_nil, Nat.zero_add,
      ← List.replicate_succ, Nat.sub_add_cancel hk]
  · rw [shares, if_neg hlt.not_ge]

theorem zero_mem_shares_iff {k n : Nat} (hk : 0 < k) : 0 ∈ shares k n ↔ n < k := by
  rcases Nat.lt_or_ge n k with hlt | hle
  · simp [shares_of_lt hlt, hlt]
  · simp [shares_of_le hk hle, hle.not_gt]

theorem sum_shares {k n : Nat} (hk : 0 < k) : (shares k n).sum = n := by
  rcases Nat.lt_or_ge n k with hlt | hle
  · simp [shares_of_lt hlt]
  · rw [shares_of_le hk hle, List.sum_cons, List.sum_replicate, smul_eq_mul]
    omega

theorem shares_eq_one_iff {k n : Nat} (hk : 0 < k) : (∀ c ∈ shares k n, c = 1) ↔ n = k := by
  rcases Nat.lt_or_ge n k with hlt | hle
  · refine iff_of_false (fun h => ?_) hlt.ne
    exact absurd (h 0 ((zero_mem_shares_iff hk).mpr hlt)) Nat.zero_ne_one
  · rw [shares_of_le hk hle, List.forall_mem_cons]
    have hrest : ∀ c ∈ List.replicate (k - 1) 1, c = 1 := fun c hc => List.eq_of_mem_replicate hc
    rw [and_iff_left hrest]
    omega

theorem shares_succ {k n c : Nat} {before after : List Nat} (h : shares k n = before ++ c :: after)
    (hplace : c = 0 ∧ 0 ∉ before ∨ before = [] ∧ 0 ∉ shares k n) (hk : 0 < k) :
    shares k (n + 1) = before ++ (c + 1) :: after := by
  rcases Nat.lt_or_ge n k with hlt | hle
  · obtain ⟨rfl, hbefore⟩ := hplace.resolve_right fun hnone =>
      hnone.2 ((zero_mem_shares_iff hk).mpr hlt)
    rw [shares_of_lt hlt] at h
    have hlength : (List.replicate n 1).length = before.length := by
      have hone : 0 ∉ List.replicate n 1 := fun hzero =>
        Nat.zero_ne_one (List.eq_of_mem_replicate hzero)
      have hidx := congrArg (List.idxOf 0) h
      rwa [List.idxOf_append_of_notMem hone, List.idxOf_append_of_notMem hbefore,
        List.idxOf_cons_self,
        List.idxOf_cons_self] at hidx
    obtain ⟨rfl, hrest⟩ := List.append_inj h hlength
    obtain ⟨-, rfl⟩ := List.cons.inj hrest
    rw [shares, if_pos (Nat.succ_le_of_lt hlt), List.replicate_succ', List.append_assoc,
      List.singleton_append,
      Nat.zero_add, Nat.sub_add_eq]
  · obtain ⟨rfl, -⟩ := hplace.resolve_left fun hzero => by
      have hmem : 0 ∈ shares k n := by simp [h, hzero.1]
      exact hle.not_gt ((zero_mem_shares_iff hk).mp hmem)
    rw [shares_of_le hk hle, List.nil_append] at h
    obtain ⟨rfl, rfl⟩ := List.cons.inj h
    rw [shares_of_le hk (Nat.le_succ_of_le hle), List.nil_append, Nat.succ_sub hle]

end Veto

theorem Segment.vetoed_iff {segments : Array Segment} {vetoes : List Veto} {i j : Nat} :
    Vetoed segments vetoes i j ↔ ∃ v ∈ vetoes, v.About segments i j := by
  constructor
  · rintro ⟨upper, lower, hupper, hlower, v, hv, hnames⟩
    exact ⟨v, hv, upper, hupper, lower, hlower, hnames⟩
  · rintro ⟨v, hv, upper, hupper, lower, hlower, hnames⟩
    exact ⟨upper, lower, hupper, hlower, v, hv, hnames⟩

-- ---------------------------------------------------------------------------
-- Counts of one veto
-- ---------------------------------------------------------------------------

namespace VetoUse

def countsOf (v : Veto) (uses : List VetoUse) : List Nat :=
  (uses.filter (·.veto = v)).map (·.count)

theorem mem_countsOf {v : Veto} {uses : List VetoUse} {c : Nat} :
    c ∈ countsOf v uses ↔ ⟨v, c⟩ ∈ uses := by
  simp only [countsOf, List.mem_map, List.mem_filter, decide_eq_true_eq]
  constructor
  · rintro ⟨u, ⟨hu, rfl⟩, rfl⟩
    exact hu
  · exact fun h => ⟨⟨v, c⟩, ⟨h, rfl⟩, rfl⟩

theorem countsOf_append (v : Veto) (uses rest : List VetoUse) :
    countsOf v (uses ++ rest) = countsOf v uses ++ countsOf v rest := by
  rw [countsOf, List.filter_append, List.map_append, countsOf, countsOf]

theorem countsOf_cons_self (v : Veto) (c : Nat) (uses : List VetoUse) :
    countsOf v (⟨v, c⟩ :: uses) = c :: countsOf v uses := by
  simp [countsOf]

theorem countsOf_cons_of_ne {v w : Veto} (h : w ≠ v) (c : Nat) (uses : List VetoUse) :
    countsOf v (⟨w, c⟩ :: uses) = countsOf v uses := by
  simp [countsOf, h]

theorem countsOf_eq_nil {v : Veto} {uses : List VetoUse} (h : ∀ u ∈ uses, u.veto ≠ v) :
    countsOf v uses = [] := by
  simpa [countsOf] using h

end VetoUse

namespace Outcome

theorem strict_eq_ok_iff {o : Outcome} : o.strict = .ok o ↔ ∀ u ∈ o.vetoes, u.count = 1 := by
  have hmisused : o.misused = [] ↔ ∀ u ∈ o.vetoes, u.count = 1 := by simp [misused]
  rw [← hmisused, strict]
  split
  · next hnil => exact iff_of_true rfl hnil
  · next u rest hcons => exact iff_of_false (fun h => by cases h) (hcons ▸ List.cons_ne_nil u rest)

theorem strict_eq_error_iff {o : Outcome} {e : TableError} :
    o.strict = .error e ↔ ∃ (before : List VetoUse) (u : VetoUse) (after : List VetoUse),
      o.vetoes = before ++ u :: after ∧ (∀ w ∈ before, w.count = 1) ∧ u.count ≠ 1 ∧
        e = .vetoCount u.veto.upper u.veto.lower u.count := by
  rw [strict]
  constructor
  · intro h
    split at h
    · cases h
    · next u rest hcons =>
      obtain ⟨before, after, hsplit, hbefore, hu, -⟩ := List.filter_eq_cons_iff.mp hcons
      refine ⟨before, u, after, hsplit, fun w hw => ?_, of_decide_eq_true hu,
        (Except.error.inj h).symm⟩
      simpa using hbefore w hw
  · rintro ⟨before, u, after, hsplit, hbefore, hu, rfl⟩
    have hones : ∀ w ∈ before, ¬ decide (w.count ≠ 1) = true := fun w hw => by simp [hbefore w hw]
    have hcons : o.misused = u :: after.filter (·.count ≠ 1) :=
      List.filter_eq_cons_iff.mpr ⟨before, after, hsplit, hones, decide_eq_true hu, rfl⟩
    rw [hcons]

end Outcome

namespace Block

open VetoUse (countsOf)

variable {vetoes : List Veto}

def positionsOf (vetoes : List Veto) (upper lower : Segment) : List Nat :=
  vetoes.zipIdx.filterMap fun (v, k) => if v.Names upper lower then some k else none

theorem mem_positionsOf {upper lower : Segment} {m : Nat} :
    m ∈ positionsOf vetoes upper lower ↔ vetoes[m]? = some ⟨upper.text, lower.text⟩ := by
  simp only [positionsOf, List.mem_filterMap, Option.ite_none_right_eq_some, Prod.exists,
    List.mem_zipIdx_iff_getElem?, Option.some.injEq]
  constructor
  · rintro ⟨v, m, hm, hnames, rfl⟩
    rw [hm, Veto.names_iff.mp hnames]
  · exact fun hm => ⟨_, m, hm, ⟨rfl, rfl⟩, rfl⟩

theorem positionsOf_ascending (vetoes : List Veto) (upper lower : Segment) :
    (positionsOf vetoes upper lower).Pairwise (· < ·) := by
  have hpositions : vetoes.zipIdx.Pairwise fun a b => a.2 < b.2 := by
    rw [← List.pairwise_map, List.zipIdx_map_snd]
    exact List.pairwise_lt_range'
  rw [positionsOf, List.pairwise_filterMap]
  refine hpositions.imp fun {a b} hab i hi j hj => ?_
  rw [← Option.some.inj (Option.ite_none_right_eq_some.mp hi).2,
    ← Option.some.inj (Option.ite_none_right_eq_some.mp hj).2]
  exact hab

theorem le_of_find?_ascending {positions : List Nat} (hascending : positions.Pairwise (· < ·))
    {p : Nat → Bool} {k m : Nat} (hfound : positions.find? p = some k)
    (hm : m ∈ positions) (hp : p m) :
    k ≤ m := by
  obtain ⟨-, before, after, rfl, hbefore⟩ := List.find?_eq_some_iff_append.mp hfound
  rcases List.mem_append.mp hm with hmbefore | hmafter
  · have hnot := hbefore m hmbefore
    rw [hp] at hnot
    cases hnot
  · rcases List.mem_cons.mp hmafter with rfl | hmafter
    · exact le_rfl
    · exact ((List.pairwise_cons.mp (List.pairwise_append.mp hascending).2.1).1 m hmafter).le

/-- The position for which a continuation is counted: that of the first veto of its texts that
is unused, or else, if all of them are used, that of the first. -/
theorem vetoFor?_eq_some {counts : List Nat} {upper lower : Segment} {k : Nat}
    (h : vetoFor? vetoes counts upper lower = some k) :
    vetoes[k]? = some ⟨upper.text, lower.text⟩ ∧
      (counts[k]? = some 0 ∧
          (∀ m, vetoes[m]? = some ⟨upper.text, lower.text⟩ → counts[m]? = some 0 → k ≤ m) ∨
        ∀ m, vetoes[m]? = some ⟨upper.text, lower.text⟩ → counts[m]? ≠ some 0 ∧ k ≤ m) := by
  have hascending := positionsOf_ascending vetoes upper lower
  have hsome : ((positionsOf vetoes upper lower).find? fun k => counts[k]? = some 0).or
      (positionsOf vetoes upper lower).head? = some k := h
  simp only [← mem_positionsOf]
  rcases Option.or_eq_some_iff.mp hsome with hfound | ⟨hnone, hhead⟩
  · refine ⟨List.mem_of_find?_eq_some hfound, .inl ⟨?_, fun m hm hzero => ?_⟩⟩
    · simpa using List.find?_some hfound
    · exact le_of_find?_ascending hascending hfound hm (decide_eq_true hzero)
  · refine ⟨List.mem_of_head? hhead, .inr fun m hm => ⟨?_, ?_⟩⟩
    · simpa using List.find?_eq_none.mp hnone m hm
    · obtain ⟨rest, hrest⟩ := List.head?_eq_some_iff.mp hhead
      have hfirst : (positionsOf vetoes upper lower).find? (fun _ => true) = some k := by
        rw [hrest, List.find?_cons_of_pos rfl]
      exact le_of_find?_ascending hascending hfirst hm rfl

theorem getElem?_uses {counts : List Nat} {m : Nat} {u : VetoUse} :
    (vetoes.zipWith VetoUse.mk counts)[m]? = some u ↔
      vetoes[m]? = some u.veto ∧ counts[m]? = some u.count := by
  rw [List.getElem?_zipWith_eq_some]
  constructor
  · rintro ⟨v, c, hv, hc, rfl⟩
    exact ⟨hv, hc⟩
  · exact fun ⟨hv, hc⟩ => ⟨_, _, hv, hc, rfl⟩

theorem zipWith_modify (vetoes : List Veto) (counts : List Nat) (k : Nat) :
    vetoes.zipWith VetoUse.mk (counts.modify k (· + 1)) =
      (vetoes.zipWith VetoUse.mk counts).modify k fun u => ⟨u.veto, u.count + 1⟩ := by
  induction vetoes generalizing counts k with
  | nil => simp
  | cons v rest ih =>
    cases counts with
    | nil => simp
    | cons c counts =>
      cases k with
      | zero => rfl
      | succ k => simp [List.modify_succ_cons, ih]

/-- Among the uses, one more is counted for the first veto of the two texts that is unused, or
else for the first. -/
theorem vetoFor?_split {counts : List Nat} {upper lower : Segment} {k : Nat} {v : Veto}
    (hlength : counts.length = vetoes.length) (h : vetoFor? vetoes counts upper lower = some k)
    (hv : v = ⟨upper.text, lower.text⟩) :
    ∃ before c after, vetoes.zipWith VetoUse.mk counts = before ++ ⟨v, c⟩ :: after ∧
      vetoes.zipWith VetoUse.mk (counts.modify k (· + 1)) = before ++ ⟨v, c + 1⟩ :: after ∧
      (c = 0 ∧ ⟨v, 0⟩ ∉ before ∨
        (∀ u ∈ before, u.veto ≠ v) ∧ ⟨v, 0⟩ ∉ vetoes.zipWith VetoUse.mk counts) := by
  obtain ⟨hk, hplace⟩ := vetoFor?_eq_some h
  rw [← hv] at hk hplace
  obtain ⟨c, hc⟩ : ∃ c, counts[k]? = some c :=
    ⟨_, List.getElem?_eq_getElem (hlength ▸ (List.getElem?_eq_some_iff.mp hk).1)⟩
  rw [zipWith_modify]
  have huse {m : Nat} {u : VetoUse} : (vetoes.zipWith VetoUse.mk counts)[m]? = some u ↔
      vetoes[m]? = some u.veto ∧ counts[m]? = some u.count := getElem?_uses
  generalize vetoes.zipWith VetoUse.mk counts = uses at huse
  obtain ⟨hlt, hget⟩ := List.getElem?_eq_some_iff.mp (huse.mpr ⟨hk, hc⟩ : uses[k]? = some ⟨v, c⟩)
  have hbefore {u : VetoUse} (hu : u ∈ uses.take k) : ∃ m < k, uses[m]? = some u := by
    obtain ⟨m, hm⟩ := List.mem_iff_getElem?.mp hu
    rw [List.getElem?_take, Option.ite_none_right_eq_some] at hm
    exact ⟨m, hm⟩
  refine ⟨uses.take k, c, uses.drop (k + 1), ?_, ?_, ?_⟩
  · rw [← hget, ← List.drop_eq_getElem_cons hlt, List.take_append_drop]
  · rw [List.modify_eq_take_cons_drop hlt, hget]
  rcases hplace with ⟨hzero, hfirst⟩ | hused
  · refine .inl ⟨Option.some.inj (hc.symm.trans hzero), fun hmem => ?_⟩
    obtain ⟨m, hm, hu⟩ := hbefore hmem
    exact hm.not_ge (hfirst m (huse.mp hu).1 (huse.mp hu).2)
  · refine .inr ⟨fun u hmem heq => ?_, fun hmem => ?_⟩
    · obtain ⟨m, hm, hu⟩ := hbefore hmem
      exact hm.not_ge (hused m (heq ▸ (huse.mp hu).1)).2
    · obtain ⟨m, hu⟩ := List.mem_iff_getElem?.mp hmem
      exact (hused m (huse.mp hu).1).1 (huse.mp hu).2

theorem countsOf_vetoFor? {counts : List Nat} {upper lower : Segment} {k n : Nat} {v : Veto}
    (hv : v ∈ vetoes) (hlength : counts.length = vetoes.length)
    (h : vetoFor? vetoes counts upper lower = some k)
    (hcounts : countsOf v (vetoes.zipWith VetoUse.mk counts) = Veto.shares (vetoes.count v) n) :
    countsOf v (vetoes.zipWith VetoUse.mk (counts.modify k (· + 1))) =
      Veto.shares (vetoes.count v) (n + if v.Names upper lower then 1 else 0) := by
  by_cases hnames : v.Names upper lower
  · obtain ⟨before, c, after, huses, huses', hplace⟩ :=
      vetoFor?_split hlength h (Veto.names_iff.mp hnames)
    rw [if_pos hnames, huses', VetoUse.countsOf_append, VetoUse.countsOf_cons_self]
    rw [huses, VetoUse.countsOf_append, VetoUse.countsOf_cons_self] at hcounts
    refine (Veto.shares_succ hcounts.symm ?_ (List.count_pos_iff.mpr hv)).symm
    rw [huses] at hplace
    rw [← hcounts, ← VetoUse.countsOf_cons_self, ← VetoUse.countsOf_append, VetoUse.mem_countsOf,
      VetoUse.mem_countsOf]
    exact hplace.imp_right fun ⟨hbefore, hused⟩ => ⟨VetoUse.countsOf_eq_nil hbefore, hused⟩
  · have hne : ⟨upper.text, lower.text⟩ ≠ v := fun heq => hnames (Veto.names_iff.mpr heq.symm)
    obtain ⟨before, c, after, huses, huses', -⟩ := vetoFor?_split hlength h rfl
    rw [if_neg hnames, Nat.add_zero, ← hcounts, huses, huses', VetoUse.countsOf_append,
      VetoUse.countsOf_append, VetoUse.countsOf_cons_of_ne hne, VetoUse.countsOf_cons_of_ne hne]

-- ---------------------------------------------------------------------------
-- Counting through the segments
-- ---------------------------------------------------------------------------

variable {segments : Array Segment}

def Stops (segments : Array Segment) (v : Veto) (i : Nat) : Prop :=
  ∃ j ∈ Segment.continuation? segments i, v.About segments i j

instance (segments : Array Segment) (v : Veto) (i : Nat) : Decidable (Stops segments v i) :=
  inferInstanceAs (Decidable (∃ _ ∈ _, _))

theorem length_counts_step (s : Stack) (i : Nat) :
    (s.step segments vetoes i).counts.length = s.counts.length := by
  rw [Stack.step]
  split
  · rfl
  · split
    · split
      · exact List.length_modify ..
      · rfl
    · rfl

theorem countsOf_step {s : Stack} {v : Veto} {i n : Nat} (hv : v ∈ vetoes)
    (hlength : s.counts.length = vetoes.length)
    (hcounts : countsOf v (vetoes.zipWith VetoUse.mk s.counts) = Veto.shares (vetoes.count v) n) :
    countsOf v (vetoes.zipWith VetoUse.mk (s.step segments vetoes i).counts) =
      Veto.shares (vetoes.count v) (n + if Stops segments v i then 1 else 0) := by
  rw [Stack.step]
  cases hcontinuation : Segment.continuation? segments i with
  | none =>
    have hstops : ¬ Stops segments v i := by
      rintro ⟨j, hj, -⟩
      cases hcontinuation.symm.trans hj
    rw [if_neg hstops]
    exact hcounts
  | some j =>
    obtain ⟨upper, lower, hupper, hlower, -⟩ := Segment.continuation?_eq_some hcontinuation
    have hstops : Stops segments v i ↔ v.Names upper lower := by
      simp [Stops, Veto.About, hcontinuation, hupper, hlower]
    simp only [hupper, hlower, hstops]
    cases hfound : vetoFor? vetoes s.counts upper lower with
    | some k => exact countsOf_vetoFor? hv hlength hfound hcounts
    | none =>
      rw [if_neg (vetoFor?_eq_none_iff.mp hfound v hv)]
      exact hcounts

def stackUpTo (segments : Array Segment) (vetoes : List Veto) (n : Nat) : Stack :=
  (List.range n).foldl (Stack.step segments vetoes) ⟨vetoes.map fun _ => 0, []⟩

theorem stackUpTo_succ (n : Nat) :
    stackUpTo segments vetoes (n + 1) = (stackUpTo segments vetoes n).step segments vetoes n := by
  rw [stackUpTo, List.range_succ, List.foldl_append, List.foldl_cons, List.foldl_nil, stackUpTo]

theorem length_counts_stackUpTo (n : Nat) :
    (stackUpTo segments vetoes n).counts.length = vetoes.length := by
  induction n with
  | zero => exact List.length_map ..
  | succ n ih => rw [stackUpTo_succ, length_counts_step, ih]

theorem countsOf_unused (v : Veto) (vetoes : List Veto) :
    countsOf v (vetoes.zipWith VetoUse.mk (vetoes.map fun _ => 0)) =
      List.replicate (vetoes.count v) 0 := by
  induction vetoes with
  | nil => rfl
  | cons w rest ih =>
    rw [List.map_cons, List.zipWith_cons_cons]
    by_cases h : w = v
    · rw [h, VetoUse.countsOf_cons_self, ih, List.count_cons_self, List.replicate_succ]
    · rw [VetoUse.countsOf_cons_of_ne h, ih, List.count_cons_of_ne h]

theorem countsOf_stackUpTo {v : Veto} (hv : v ∈ vetoes) (n : Nat) :
    countsOf v (vetoes.zipWith VetoUse.mk (stackUpTo segments vetoes n).counts) =
      Veto.shares (vetoes.count v) (Nat.count (Stops segments v) n) := by
  induction n with
  | zero => exact (countsOf_unused v vetoes).trans (Veto.shares_zero _).symm
  | succ n ih =>
    rw [stackUpTo_succ, Nat.count_succ]
    exact countsOf_step hv (length_counts_stackUpTo n) ih

theorem ofSegments_uses (segments : Array Segment) (vetoes : List Veto) :
    (ofSegments segments vetoes).2 =
      vetoes.zipWith VetoUse.mk (stackUpTo segments vetoes segments.size).counts :=
  rfl

theorem map_veto_ofSegments (segments : Array Segment) (vetoes : List Veto) :
    (ofSegments segments vetoes).2.map (·.veto) = vetoes := by
  have hlength : vetoes.length ≤ (stackUpTo segments vetoes segments.size).counts.length :=
    (length_counts_stackUpTo _).ge
  rw [ofSegments_uses, ← List.map_uncurry_zip_eq_zipWith, List.map_map]
  exact List.map_fst_zip hlength

theorem count_stops (h : Segment.Distinct segments.toList) (v : Veto) :
    Nat.count (Stops segments v) segments.size = v.demand segments := by
  have hmem {e : Nat × Nat} : e ∈ (Finset.range segments.size ×ˢ Finset.range segments.size).filter
      (fun e => Segment.IsContinuation segments e.1 e.2 ∧ v.About segments e.1 e.2) ↔
        Segment.continuation? segments e.1 = some e.2 ∧ v.About segments e.1 e.2 := by
    rw [Finset.mem_filter, Finset.mem_product, Finset.mem_range, Finset.mem_range,
      h.continuation?_eq_some_iff]
    exact and_iff_right_of_imp fun he => he.1.lt
  rw [Nat.count_eq_card_filter_range, Veto.demand]
  refine (Finset.card_bij (fun e _ => e.1) (fun e he => ?_) (fun e he e' he' heq => ?_)
    fun i hi => ?_).symm
  · obtain ⟨hcontinuation, habout⟩ := hmem.mp he
    have hlt := (Segment.isContinuation_of_continuation? hcontinuation).lt.1
    exact Finset.mem_filter.mpr ⟨Finset.mem_range.mpr hlt, e.2, hcontinuation, habout⟩
  · have hnext := (hmem.mp he).1
    rw [heq, (hmem.mp he').1] at hnext
    exact Prod.ext heq (Option.some.inj hnext).symm
  · obtain ⟨-, j, hj, habout⟩ := Finset.mem_filter.mp hi
    exact ⟨(i, j), hmem.mpr ⟨hj, habout⟩, rfl⟩

theorem countsOf_ofSegments (h : Segment.Distinct segments.toList) {v : Veto} (hv : v ∈ vetoes) :
    countsOf v (ofSegments segments vetoes).2 =
      Veto.shares (vetoes.count v) (v.demand segments) := by
  rw [ofSegments_uses, countsOf_stackUpTo hv, count_stops h]

/-- Every veto keeps one pair apart if, for each pair of texts, there are as many vetoes as
continuations. -/
theorem count_eq_one_iff (h : Segment.Distinct segments.toList) :
    (∀ u ∈ (ofSegments segments vetoes).2, u.count = 1) ↔
      ∀ v ∈ vetoes, v.demand segments = vetoes.count v := by
  have hshares {v : Veto} (hv : v ∈ vetoes) :
    (∀ c ∈ countsOf v (ofSegments segments vetoes).2, c = 1) ↔
      v.demand segments = vetoes.count v := by
    rw [countsOf_ofSegments h hv, Veto.shares_eq_one_iff (List.count_pos_iff.mpr hv)]
  constructor
  · exact fun hone v hv => (hshares hv).mp fun c hc => hone _ (VetoUse.mem_countsOf.mp hc)
  · intro hdemand u hu
    have hv : u.veto ∈ vetoes := map_veto_ofSegments segments vetoes ▸ List.mem_map_of_mem hu
    exact (hshares hv).mpr (hdemand _ hv) u.count (VetoUse.mem_countsOf.mpr hu)

/-- Vetoes and their counts, for segments among which some continue others. -/
structure Counted (segments : Array Segment) (vetoes : List Veto) (uses : List VetoUse) : Prop where
  /-- Every veto has a count, in the order of the vetoes. -/
  order : uses.map (·.veto) = vetoes
  /-- Equal vetoes are counted once each in turn, and then the first of them for what is left
  over. -/
  shares : ∀ v ∈ vetoes, countsOf v uses = Veto.shares (vetoes.count v) (v.demand segments)
  /-- Together they are counted for all continuations of their texts. -/
  sum : ∀ v ∈ vetoes, (countsOf v uses).sum = v.demand segments

/-- The segments of a page lose the continuations that a veto is about, used before or not, and
no other. Each is counted once, in turn for the vetoes of its texts. So the strict outcome is
the outcome if for each pair of texts there are as many vetoes as continuations, and names the
first veto with another count than one if there are not. -/
theorem ofGlyphs_vetoCounts {s : Spacing} {page : Box} {glyphs : Array Glyph}
    {lines : List Segment} {segments : Array Segment}
    (hlines : Segment.ofGlyphs? s page glyphs = some lines) (hsegments : segments = lines.toArray)
    (vetoes : List Veto) :
    (∀ i j, Segment.IsContinuation segments i j →
      ((∃ v ∈ vetoes, v.About segments i j) ↔ (i, j) ∉ (stack segments vetoes).joins) ∧
      ((∃ v ∈ vetoes, v.About segments i j) ↔
        ∀ b ∈ (ofSegments segments vetoes).1, i ∈ b.segments → j ∉ b.segments)) ∧
    Counted segments vetoes (ofSegments segments vetoes).2 ∧
    ∀ o : Outcome, o.vetoes = (ofSegments segments vetoes).2 →
      (o.strict = .ok o ↔ ∀ v ∈ vetoes, v.demand segments = vetoes.count v) ∧
      ∀ e, o.strict = .error e ↔ ∃ (before : List VetoUse) (u : VetoUse) (after : List VetoUse),
        o.vetoes = before ++ u :: after ∧ (∀ w ∈ before, w.count = 1) ∧ u.count ≠ 1 ∧
          e = .vetoCount u.veto.upper u.veto.lower u.count := by
  have h : Segment.Distinct segments.toList := by
    obtain ⟨index, -, rfl⟩ := Segment.ofGlyphs?_eq_some_iff.mp hlines
    rw [hsegments]
    exact Segment.ofLinks_distinct fun _ he => Glyph.lt_of_mem_links he
  refine ⟨fun i j hij => ⟨?_, ?_⟩, ⟨map_veto_ofSegments segments vetoes,
    fun v hv => countsOf_ofSegments h hv, fun v hv => ?_⟩,
    fun o ho => ⟨?_, fun e => Outcome.strict_eq_error_iff⟩⟩
  · rw [mem_joins_iff, h.joinable_iff, Segment.NextLine, and_iff_right hij, not_not,
      Segment.vetoed_iff]
  · rw [← Segment.vetoed_iff]
    have hcontinuation := h.continuation?_eq_some_iff.mpr hij
    refine ⟨fun hveto b hb hi => vetoed_apart hcontinuation hveto hb hi, fun hapart => ?_⟩
    by_contra hfree
    obtain ⟨b, hb, hi⟩ := exists_mem_segments vetoes hij.lt.1
    exact hapart b hb hi ((mem_segments_iff h hb hi j).mpr ⟨hij.lt.2, .rel i j ⟨hij, hfree⟩⟩)
  · rw [countsOf_ofSegments h hv, Veto.sum_shares (List.count_pos_iff.mpr hv)]
  · rw [Outcome.strict_eq_ok_iff, ho, count_eq_one_iff h]

def threeColumns : Array Glyph :=
  #[.ofText "A" ⟨0, 0, 6, 10⟩ 10 .east 0, .ofText "B" ⟨0, 12, 6, 22⟩ 10 .east 0,
    .ofText "A" ⟨30, 0, 36, 10⟩ 10 .east 0, .ofText "B" ⟨30, 12, 36, 22⟩ 10 .east 0,
    .ofText "A" ⟨60, 0, 66, 10⟩ 10 .east 0, .ofText "B" ⟨60, 12, 66, 22⟩ 10 .east 0]

def threeColumnLines : List Segment :=
  (Segment.ofGlyphs? .standard ⟨0, 0, 100, 100⟩ threeColumns).getD []

/-- Two equal vetoes for three continuations, and between them one for none. -/
def columnVetoes : List Veto :=
  [⟨"A", "B"⟩, ⟨"B", "A"⟩, ⟨"A", "B"⟩]

theorem threeColumns_vetoCounts :
    (ofSegments threeColumnLines.toArray columnVetoes).2.map (·.count) = [2, 0, 1] ∧
      VetoUse.countsOf ⟨"A", "B"⟩ (ofSegments threeColumnLines.toArray columnVetoes).2 =
        Veto.shares 2 3 ∧
      (∀ b ∈ (ofSegments threeColumnLines.toArray columnVetoes).1,
        4 ∈ b.segments → 5 ∉ b.segments) ∧
      (⟨6, 6, 1, (ofSegments threeColumnLines.toArray columnVetoes).2⟩ : Outcome).strict =
        .error (.vetoCount "A" "B" 2) := by
  have hlines :
      Segment.ofGlyphs? .standard ⟨0, 0, 100, 100⟩ threeColumns = some threeColumnLines := by
    decide +kernel
  have huses : (ofSegments threeColumnLines.toArray columnVetoes).2 =
      [⟨⟨"A", "B"⟩, 2⟩, ⟨⟨"B", "A"⟩, 0⟩, ⟨⟨"A", "B"⟩, 1⟩] := by decide +kernel
  have hdemand : Veto.demand ⟨"A", "B"⟩ threeColumnLines.toArray = 3 := by decide +kernel
  have hcontinuation : Segment.IsContinuation threeColumnLines.toArray 4 5 := by decide +kernel
  have happart : ∃ v ∈ columnVetoes, v.About threeColumnLines.toArray 4 5 := by decide +kernel
  obtain ⟨hvetoed, hcounted, hstrict⟩ := ofGlyphs_vetoCounts hlines rfl columnVetoes
  have hshares := hcounted.shares ⟨"A", "B"⟩ List.mem_cons_self
  rw [hdemand] at hshares
  refine ⟨by rw [huses]; rfl, hshares, (hvetoed 4 5 hcontinuation).2.mp happart, ?_⟩
  generalize (ofSegments threeColumnLines.toArray columnVetoes).2 = uses at huses hstrict
  refine ((hstrict ⟨6, 6, 1, uses⟩ rfl).2 _).mpr ⟨[], ⟨⟨"A", "B"⟩, 2⟩,
    [⟨⟨"B", "A"⟩, 0⟩, ⟨⟨"A", "B"⟩, 1⟩], huses, fun w hw =>
      absurd hw List.not_mem_nil, by decide, rfl⟩

end Block

end GlyphTable
