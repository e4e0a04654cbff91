import GlyphTable.Block
import GlyphTable.Text.Blank

/-!
# Rows of a table

Blocks that share a center line belong to one row. Within a row, blocks above each
other are fragments of one cell. Both relations are taken transitively. Rows stand
from top to bottom and cells from left to right, each by its box.
-/

namespace GlyphTable

structure Row where
  blocks : List Block
  box : Box
deriving DecidableEq

namespace Block

def SharesRow (a b : Block) : Prop :=
  a.box.vertical.HoldsCenterOf b.box.vertical ∨ b.box.vertical.HoldsCenterOf a.box.vertical

instance (a b : Block) : Decidable (a.SharesRow b) :=
  inferInstanceAs (Decidable (_ ∨ _))

def SharesColumn (a b : Block) : Prop :=
  a.box.horizontal.Meets b.box.horizontal

instance (a b : Block) : Decidable (a.SharesColumn b) :=
  inferInstanceAs (Decidable (Span.Meets _ _))

def leFragment (a b : Block) : Bool :=
  if Binary64.totalRank a.box.top = Binary64.totalRank b.box.top then
    Binary64.leTotal a.box.left b.box.left
  else
    Binary64.leTotal a.box.top b.box.top

/-- One cell of its fragments: their lines from top to bottom without the blanks at
the end. A single fragment stays as it is. -/
def ofFragments? : List Block → Option Block
  | [b] => some b
  | fragments => do
    let parts := sortStably leFragment fragments
    let head ← parts.head?
    let box ← Box.hull? (parts.map (·.box))
    return {
      segments := parts.flatMap (·.segments)
      text := Text.trimEnd ("\n".intercalate (parts.map (·.text)))
      box := box
      size := head.size
      orientation := head.orientation
      row := head.row
      col := head.col }

def grouped (related : Block → Block → Bool) (blocks : List Block) : List (List Block) :=
  let array := blocks.toArray
  let relatedAt (i j : Nat) := (array[i]?.bind fun a => array[j]?.map (related a)).getD false
  (Partition.ofRelation array.size relatedAt).classes.map (·.filterMap (array[·]?))

def cellsOf (blocks : List Block) : List Block :=
  sortStably (fun a b => Binary64.leTotal a.box.left b.box.left)
    ((grouped (fun a b => a.SharesColumn b) blocks).filterMap ofFragments?)

end Block

namespace Row

def ofBlocks? (blocks : List Block) : Option Row :=
  (Box.hull? (blocks.map (·.box))).map (⟨blocks, ·⟩)

def length (r : Row) : Nat :=
  r.blocks.length

def texts (r : Row) : List String :=
  r.blocks.map (·.text)

def numbered (rows : List Row) : List Row :=
  rows.zipIdx.map fun (r, i) =>
    { r with blocks := r.blocks.zipIdx.map fun (b, j) => { b with row := i, col := j } }

def arrange (blocks : List Block) : List Row :=
  let rows := (Block.grouped (fun a b => a.SharesRow b) blocks).filterMap fun group =>
    ofBlocks? (Block.cellsOf group)
  numbered (sortStably (fun a b => Binary64.leTotal a.box.top b.box.top) rows)

end Row

end GlyphTable
