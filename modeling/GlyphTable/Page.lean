import GlyphTable.Row

/-!
# Pages

A page holds its glyphs and, once clustered, the segments and the rows made of
them. Clustering starts from the glyphs alone: what an earlier one made, and what
was changed in it, is discarded.
-/

namespace GlyphTable

structure Page where
  width : Float
  height : Float
  glyphs : Array Glyph
  segments : Array Segment
  rows : List Row
deriving DecidableEq

namespace Page

def ofGlyphs (width height : Float) (glyphs : Array Glyph) : Page :=
  ⟨width, height, glyphs, #[], []⟩

/-- The rectangle of the page, with the origin in its corner; empty where the size
is not positive. -/
def box (p : Page) : Box :=
  ⟨0, 0, Binary64.greater p.width 0, Binary64.greater p.height 0⟩

def blocks (p : Page) : List Block :=
  p.rows.flatMap (·.blocks)

def Clustered (p : Page) : Prop :=
  p.rows ≠ []

instance (p : Page) : Decidable p.Clustered :=
  inferInstanceAs (Decidable (_ ≠ _))

def assemble (p : Page) (segments : Array Segment) (vetoes : List Veto) : Page × Outcome :=
  let (blocks, uses) := Block.ofSegments segments vetoes
  let rows := Row.arrange blocks
  ({ p with segments, rows },
    { segments := segments.size, blocks := blocks.length, rows := rows.length, vetoes := uses })

def cluster? (p : Page) (s : Spacing) (vetoes : List Veto) : Option (Page × Outcome) :=
  (Segment.ofGlyphs? s p.box p.glyphs).map fun segments => p.assemble segments.toArray vetoes

-- ---------------------------------------------------------------------------
-- Shape of the table
-- ---------------------------------------------------------------------------

def columns (p : Page) : Nat :=
  (p.rows.map Row.length).foldl max 0

/-- Succeeds if all rows have as many cells as the first; the error names the first
that has not. -/
def rectangular (p : Page) : Except TableError Unit :=
  let expected := (p.rows.head?.map Row.length).getD 0
  match p.rows.zipIdx.find? fun (r, _) => r.length ≠ expected with
  | none => .ok ()
  | some (r, i) => .error (.raggedRow i expected r.length)

def grid (p : Page) : Except TableError (List (List String)) := do
  p.rectangular
  return p.rows.map Row.texts

end Page

end GlyphTable
