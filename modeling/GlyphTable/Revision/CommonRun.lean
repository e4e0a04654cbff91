import GlyphTable.Revision.CellSequence
import GlyphTable.Revision.SuffixOrder

/-!
# Runs of equal cells

A run is a stretch of cells with the same contents in two sequences. The suffixes
of both, joined with the separator between them, are put in order; neighbours that
begin in different sequences start a run as long as their common prefix.
-/

namespace GlyphTable

structure CommonRun where
  /-- Where it begins in the old sequence. -/
  source : Nat
  /-- Where it begins in the new sequence. -/
  target : Nat
  length : Nat
deriving DecidableEq, Repr

/-- The run that two suffixes of the joined sequence start, which share the first
`length` symbols, when the old sequence has `split` cells. Suffixes on the same
side start none, nor does the separator itself. -/
def CommonRun.ofSuffixes? (split x y length : Nat) : Option CommonRun :=
  let (source, target) := if x < split then (x, y) else (y, x)
  if 0 < length ∧ source < split ∧ split < target then
    some ⟨source, target - split - 1, length⟩
  else
    none

def commonRuns (a b : Array UInt64) : List CommonRun :=
  let joined := a.push separator ++ b
  let order := suffixOrder joined
  let lengths := commonPrefixes joined order
  ((order.zip order.tail).zip lengths.tail).filterMap fun ((x, y), length) =>
    CommonRun.ofSuffixes? a.size x y length

end GlyphTable
