import GlyphTable.Revision.Counterparts

/-!
# Matching two revisions

The cells of two revisions correspond by content. A cell of the old one is located
in the new one by its place in the sequence of cells.
-/

namespace GlyphTable

structure Matching where
  source : CellSequence
  target : CellSequence
  mapping : Counterparts
deriving DecidableEq, Repr

namespace Matching

def ofRevisions (hash : List UInt8 → UInt64) (old new : Document) : Matching :=
  let source := CellSequence.ofDocument hash old
  let target := CellSequence.ofDocument hash new
  ⟨source, target, .ofRuns source.size (commonRuns source.hashes target.hashes)⟩

def locate? (m : Matching) (a : Address) : Option Address := do
  let i ← m.source.position? a
  let j ← m.mapping.get? i
  m.target.address? j

end Matching

end GlyphTable
