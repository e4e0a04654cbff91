import GlyphTable.Page.Address
import GlyphTable.Patch

/-!
# Applying patches to a page

A patch applies where its address finds a cell with the expected text. Several
apply one after another, each to what the ones before it left, and either all of
them do or none: a failure keeps the page as it was.
-/

namespace GlyphTable

/-- One less than a machine word; before zero comes the greatest. -/
def wordBefore (n : Nat) : Nat :=
  if n = 0 then UInt64.size - 1 else n - 1

theorem wordBefore_eq_toNat {n : Nat} (h : n < UInt64.size) :
    wordBefore n = (UInt64.ofNat n - 1).toNat := by
  rw [UInt64.toNat_sub, UInt64.toNat_ofNat_of_lt' h, wordBefore]
  simp only [UInt64.size] at *
  split <;> simp <;> omega

@[simp] theorem wordBefore_of_pos {n : Nat} (h : 0 < n) : wordBefore n = n - 1 :=
  if_neg (Nat.ne_of_gt h)

/-- Takes a cell out of a row. Later cells move to the left, and the box of the row
shrinks to the cells that remain; a row without cells keeps its box. -/
def Row.removeAt (r : Row) (col : Nat) : Row :=
  let blocks := r.blocks.take col
    ++ (r.blocks.drop (col + 1)).map fun b => { b with col := wordBefore b.col }
  { blocks, box := (Box.hull? (blocks.map (·.box))).getD r.box }

namespace Page

def edit (p : Page) (row col : Nat) : Edit → Page
  | .replace text => p.modifyBlock row col ({ · with text })
  | .remove => { p with rows := p.rows.modify row (·.removeAt col) }

def apply (p : Page) (patch : Patch) : Except TableError Page :=
  match p.cellAt? patch.row patch.col, p.text? patch.row patch.col with
  | some (row, col), some found =>
    if found = patch.expected then
      .ok (p.edit row col patch.edit)
    else
      .error (.textMismatch patch.row patch.col patch.expected found)
  | _, _ => .error (.noCell patch.row patch.col)

def applyAll (p : Page) (patches : List Patch) : Except TableError Page :=
  patches.foldlM apply p

end Page

end GlyphTable
