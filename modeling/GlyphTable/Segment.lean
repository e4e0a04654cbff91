import GlyphTable.Glyph
import GlyphTable.Partition
import GlyphTable.PointTree
import GlyphTable.Sorting

/-!
# Segments

A segment is a run of glyphs on one line. Every glyph is linked to at most one
follower: the nearest glyph ahead of it on its line. What the links connect is a
segment, read in the order of its glyphs along the line. Several glyphs may share
a follower. Segments without text are dropped.
-/

namespace GlyphTable

structure Segment where
  /-- Positions of its glyphs on the page, in reading order. -/
  glyphs : List Nat
  text : String
  box : Box
  size : Float
  color : UInt64
  orientation : Orientation
deriving DecidableEq

-- ---------------------------------------------------------------------------
-- Links
-- ---------------------------------------------------------------------------

/-- The one of the candidates that follows the glyph at position `i`: the nearest
ahead on its line, of equally near ones the first on the page. -/
def Glyph.followerAmong? (s : Spacing) (glyphs : Array Glyph) (i : Nat) (candidates : List Nat) :
    Option Nat := do
  let c ← glyphs[i]?
  let ahead := candidates.filterMap fun j =>
    if j = i then none else (glyphs[j]?.bind (c.ahead? s)).map (·, j)
  let (_, j) ← least? Binary64.leKeyed ahead
  return j

/-- The centers of all glyphs in a tree over the page and every glyph's box; `none`
if a division of the tree does not end. -/
def Glyph.index? (page : Box) (glyphs : Array Glyph) : Option (PointTree.Index Nat) :=
  let region := glyphs.toList.foldl (fun region c => region.join c.box) page
  (PointTree.Index.empty region).insertAll? (glyphs.toList.zipIdx.map fun (c, i) => (c.center, i))

def Glyph.followerIn? (s : Spacing) (glyphs : Array Glyph) (index : PointTree.Index Nat) (i : Nat) :
    Option Nat := do
  let c ← glyphs[i]?
  let area ← c.searchBox? s
  followerAmong? s glyphs i (index.query area)

def Glyph.linked (n : Nat) (follower? : Nat → Option Nat) : List (Nat × Nat) :=
  (List.range n).filterMap fun i => (follower? i).map (i, ·)

def Glyph.links (s : Spacing) (glyphs : Array Glyph) (index : PointTree.Index Nat) :
    List (Nat × Nat) :=
  linked glyphs.size (followerIn? s glyphs index)

namespace Segment

-- ---------------------------------------------------------------------------
-- Assembly
-- ---------------------------------------------------------------------------

def first (s : Segment) : Nat :=
  s.glyphs.headD 0

def last (s : Segment) : Nat :=
  s.glyphs.getLastD 0

def readingOrder (glyphs : Array Glyph) (o : Orientation) (members : List Nat) : List Nat :=
  let keyed := members.filterMap fun i => glyphs[i]?.map fun c => (c.center.dot o.direction, i)
  (sortStably Binary64.leKeyed keyed).map (·.2)

/-- The segment of the glyphs at the given positions, unless they have no text. It
is read in the direction of the glyph listed first, and takes its style from the
glyph read first. -/
def ofMembers? (glyphs : Array Glyph) (members : List Nat) : Option Segment := do
  let lowest ← glyphs[← members.head?]?
  let line := readingOrder glyphs lowest.orientation members
  let parts := line.filterMap (glyphs[·]?)
  let head ← parts.head?
  let box ← Box.hull? (parts.map (·.box))
  let text := String.join (parts.map (·.text))
  if text = "" then
    none
  else
    return {
      glyphs := line
      text := text
      box := box
      size := head.size
      color := head.color
      orientation := head.orientation }

def ofLinks (glyphs : Array Glyph) (links : List (Nat × Nat)) : List Segment :=
  sortStably (fun a b => decide (a.first ≤ b.first))
    ((Partition.ofEdges glyphs.size links).classes.filterMap (ofMembers? glyphs))

def ofGlyphs? (s : Spacing) (page : Box) (glyphs : Array Glyph) : Option (List Segment) :=
  (Glyph.index? page glyphs).map fun index => ofLinks glyphs (Glyph.links s glyphs index)

end Segment

end GlyphTable
