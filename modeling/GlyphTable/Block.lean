import GlyphTable.Veto

/-!
# Blocks

A block is a paragraph: segments that follow each other line by line. A segment
continues another when it takes up the sequence of glyphs where the other leaves
off, in the same style, over or under a common part of the line, and less than a
line margin further on. A veto undoes a single continuation.
-/

namespace GlyphTable

structure Block where
  /-- Positions of its segments on the page, in line order. -/
  segments : List Nat
  text : String
  box : Box
  size : Float
  orientation : Orientation
  row : Nat
  col : Nat
deriving DecidableEq

-- ---------------------------------------------------------------------------
-- Continuations
-- ---------------------------------------------------------------------------

def Segment.sizeTolerance : Float := 1e-9

/-- Whether `lower` has the style of `upper` and stands where its next line would.
That it also takes up the sequence of glyphs is another matter. -/
def Segment.Continues (upper lower : Segment) : Prop :=
  let along := upper.orientation.axis
  let distance :=
    (upper.box.center.vectorTo lower.box.center).dot upper.orientation.lineAdvance
  upper.orientation = lower.orientation ∧ upper.color = lower.color
    ∧ Binary64.near sizeTolerance upper.size lower.size
    ∧ (upper.box.along along).Meets (lower.box.along along)
    ∧ 0 < distance ∧ distance < Spacing.lineLimit * upper.size

instance (upper lower : Segment) : Decidable (upper.Continues lower) :=
  inferInstanceAs (Decidable (_ ∧ _))

/-- Position of the segment that begins with glyph `first`, of several the last. -/
def Segment.startingAt? (segments : Array Segment) (first : Nat) : Option Nat :=
  (List.range segments.size).reverse.find? fun i => segments[i]?.any (·.first = first)

def Segment.continuation? (segments : Array Segment) (i : Nat) : Option Nat := do
  let upper ← segments[i]?
  let j ← startingAt? segments (upper.last + 1)
  let lower ← segments[j]?
  if j ≠ i ∧ upper.Continues lower then some j else none

namespace Block

-- ---------------------------------------------------------------------------
-- Stacking lines
-- ---------------------------------------------------------------------------

/-- Progress of stacking: how many pairs each veto has kept apart so far, and the
pairs of segments that have been joined. -/
structure Stack where
  counts : List Nat
  joins : List (Nat × Nat)
deriving DecidableEq, Repr

/-- The veto against joining two segments: the first about them that is still
unused, or else the first about them. -/
def vetoFor? (vetoes : List Veto) (counts : List Nat) (upper lower : Segment) : Option Nat :=
  let about := vetoes.zipIdx.filterMap fun (v, k) => if v.Names upper lower then some k else none
  (about.find? fun k => counts[k]? = some 0).or about.head?

def Stack.step (segments : Array Segment) (vetoes : List Veto) (s : Stack) (i : Nat) : Stack :=
  match Segment.continuation? segments i with
  | none => s
  | some j =>
    match segments[i]?, segments[j]? with
    | some upper, some lower =>
      match vetoFor? vetoes s.counts upper lower with
      | some k => { s with counts := s.counts.modify k (· + 1) }
      | none => { s with joins := s.joins ++ [(i, j)] }
    | _, _ => s

def stack (segments : Array Segment) (vetoes : List Veto) : Stack :=
  (List.range segments.size).foldl (Stack.step segments vetoes) ⟨vetoes.map fun _ => 0, []⟩

-- ---------------------------------------------------------------------------
-- Assembly
-- ---------------------------------------------------------------------------

/-- Positions of segments, ordered by how far along the direction their centers
lie, and at equal distance by their first glyphs. -/
def lineOrder (segments : Array Segment) (direction : Point) (members : List Nat) : List Nat :=
  let keyed := members.filterMap fun i =>
    segments[i]?.map fun s => ((s.box.center.dot direction, s.first), i)
  (sortStably (fun a b => Binary64.leKeyed a.1 b.1) keyed).map (·.2)

/-- The block of the segments at the given positions. Its lines advance in the
direction of the segment listed first. -/
def ofMembers? (segments : Array Segment) (members : List Nat) : Option Block := do
  let lowest ← segments[← members.head?]?
  let lines := lineOrder segments lowest.orientation.lineAdvance members
  let parts := lines.filterMap (segments[·]?)
  let head ← parts.head?
  let box ← Box.hull? (parts.map (·.box))
  return {
    segments := lines
    text := "\n".intercalate (parts.map (·.text))
    box := box
    size := head.size
    orientation := head.orientation
    row := 0
    col := 0 }

def ofSegments (segments : Array Segment) (vetoes : List Veto) : List Block × List VetoUse :=
  let s := stack segments vetoes
  ((Partition.ofEdges segments.size s.joins).classes.filterMap (ofMembers? segments),
    vetoes.zipWith VetoUse.mk s.counts)

end Block

end GlyphTable
