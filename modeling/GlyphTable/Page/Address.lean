import GlyphTable.Page

/-!
# Addresses of cells

Rows and cells are numbered from zero, or backwards from `-1`, the last. A number
outside the table finds nothing.
-/

namespace GlyphTable

structure Address where
  page : Nat
  row : Nat
  col : Nat
deriving DecidableEq, Repr

def position? (i : Int) (length : Nat) : Option Nat :=
  if 0 ≤ i then
    if i.toNat < length then some i.toNat else none
  else
    if i.natAbs ≤ length then some (length - i.natAbs) else none

theorem position?_lt {i : Int} {length k : Nat} (h : position? i length = some k) : k < length := by
  simp only [position?] at h
  grind

theorem position?_natCast {k length : Nat} (h : k < length) : position? k length = some k := by
  simp [position?, h]

namespace Page

def row? (p : Page) (row : Int) : Option Row :=
  (position? row p.rows.length).bind (p.rows[·]?)

def cellAt? (p : Page) (row col : Int) : Option (Nat × Nat) := do
  let i ← position? row p.rows.length
  let r ← p.rows[i]?
  let j ← position? col r.length
  return (i, j)

def block? (p : Page) (row col : Int) : Option Block := do
  let (i, j) ← p.cellAt? row col
  let r ← p.rows[i]?
  r.blocks[j]?

def text? (p : Page) (row col : Int) : Option String :=
  (p.block? row col).map (·.text)

def modifyBlock (p : Page) (row col : Nat) (f : Block → Block) : Page :=
  { p with rows := p.rows.modify row fun r => { r with blocks := r.blocks.modify col f } }

def setText? (p : Page) (row col : Int) (text : String) : Option Page :=
  (p.cellAt? row col).map fun (i, j) => p.modifyBlock i j ({ · with text })

end Page

end GlyphTable
