import GlyphTable.Sorting

/-!
# The order of suffixes

`suffixOrder` lists the starts of all suffixes of a sequence of words in ascending
order of the suffixes, a proper prefix first. It sorts by the first symbol, then by
the first two, four and so on: the rank of a suffix by twice as many symbols
follows from the ranks by half as many of it and of the suffix behind those.
`commonPrefixes` gives, for each suffix in that order, how many symbols it shares
with the one before.
-/

namespace GlyphTable

-- ---------------------------------------------------------------------------
-- Sorting by prefixes of doubling length
-- ---------------------------------------------------------------------------

def suffixKey (rank : Array Nat) (k i : Nat) : Nat × Nat :=
  (rank.getD i 0, (rank[i + k]?.map (· + 1)).getD 0)

def lePair (a b : Nat × Nat) : Bool :=
  decide (a.1 < b.1) || (decide (a.1 = b.1) && decide (a.2 ≤ b.2))

theorem lePair_total (a b : Nat × Nat) : lePair a b || lePair b a := by
  simp only [lePair, Bool.or_eq_true, Bool.and_eq_true, decide_eq_true_eq]
  omega

theorem lePair_trans (a b c : Nat × Nat) (hab : lePair a b) (hbc : lePair b c) : lePair a c := by
  simp only [lePair, Bool.or_eq_true, Bool.and_eq_true, decide_eq_true_eq] at *
  omega

def rankKeys : Nat → List ((Nat × Nat) × Nat) → List (Nat × Nat)
  | _, [] => []
  | r, [(_, i)] => [(i, r)]
  | r, (a, i) :: (b, j) :: rest =>
    (i, r) :: rankKeys (if a = b then r else r + 1) ((b, j) :: rest)

/-- The suffixes sorted by their first `2 * k` symbols, each with its rank, from the
ranks by the first `k`. -/
def sortSuffixes (n k : Nat) (rank : Array Nat) : List (Nat × Nat) :=
  let keyed := (List.range n).map fun i => (suffixKey rank k i, i)
  rankKeys 0 (sortStably (fun a b => lePair a.1 b.1) keyed)

def ranksOf (n : Nat) (sorted : List (Nat × Nat)) : Array Nat :=
  sorted.foldl (fun rank (i, r) => rank.setIfInBounds i r) (List.replicate n 0).toArray

/-- Doubles the length until all ranks differ or no longer prefix exists. A round
doubles `k`, so `n` rounds are more than enough. -/
def doublePrefixes (n : Nat) : Nat → Nat → Array Nat → List Nat
  | 0, _, _ => List.range n
  | rounds + 1, k, rank =>
    let sorted := sortSuffixes n k rank
    if (sorted.getLast?.map (·.2)) = some (n - 1) ∨ n ≤ k then
      sorted.map (·.1)
    else
      doublePrefixes n rounds (2 * k) (ranksOf n sorted)

def suffixOrder (seq : Array UInt64) : List Nat :=
  doublePrefixes seq.size seq.size 1 (seq.toList.map UInt64.toNat).toArray

-- ---------------------------------------------------------------------------
-- Common prefixes of neighbours
-- ---------------------------------------------------------------------------

/-- How many symbols the suffixes at `i` and `j` share, counted on from the first
`h`; at most `limit` more are looked at. -/
def extendPrefix (seq : Array UInt64) (i j : Nat) : Nat → Nat → Nat
  | 0, h => h
  | limit + 1, h =>
    match seq[i + h]?, seq[j + h]? with
    | some x, some y => if x = y then extendPrefix seq i j limit (h + 1) else h
    | _, _ => h

/-- One step of the scan: for the suffix at `i`, counts what it shares with the one
before it in order. All but one of the symbols counted for the suffix at `i - 1`
need not be looked at again. -/
def scanSuffix (seq : Array UInt64) (sorted rank : Array Nat) (state : Nat × Array Nat) (i : Nat) :
    Nat × Array Nat :=
  let (h, lengths) := state
  match rank.getD i 0 with
  | 0 => (0, lengths)
  | r + 1 =>
    let h := extendPrefix seq i (sorted.getD r 0) seq.size h
    (h - 1, lengths.setIfInBounds (r + 1) h)

def commonPrefixes (seq : Array UInt64) (order : List Nat) : List Nat :=
  let n := seq.size
  let rank := ranksOf n order.zipIdx
  ((List.range n).foldl (scanSuffix seq order.toArray rank)
    (0, (List.replicate n 0).toArray)).2.toList

end GlyphTable
