import GlyphTable.Revision.Matching

/-!
# Carrying patches over to a newer revision

A patch addresses a cell as it stands when the patches before it have been applied,
so a cell taken out moves the address of later ones in its row. The patches are
therefore replayed on the old revision, which tells the cell each one really
edits; its counterpart is addressed as it will stand in the new revision when the
patches carried over before have been applied there.

A patch that does not apply to the old revision, or whose cell has no counterpart
that is still there, is handed back as it was.
-/

namespace GlyphTable

-- ---------------------------------------------------------------------------
-- Columns after removals
-- ---------------------------------------------------------------------------

/-- For each row the initial columns of the cells it still has, in order. -/
abbrev ColumnTable := List (List Nat)

namespace ColumnTable

def ofPage (p : Page) : ColumnTable :=
  p.rows.map fun r => List.range r.length

def initial? (t : ColumnTable) (row col : Nat) : Option Nat :=
  (t[row]?).bind (·[col]?)

def present? (t : ColumnTable) (row initial : Nat) : Option Nat :=
  (t[row]?).bind fun cols => cols.findIdx? (· = initial)

def remove (t : ColumnTable) (row col : Nat) : ColumnTable :=
  t.modify row (·.eraseIdx col)

def edit (t : ColumnTable) (row col : Nat) : Edit → ColumnTable
  | .replace _ => t
  | .remove => t.remove row col

end ColumnTable

-- ---------------------------------------------------------------------------
-- Replay
-- ---------------------------------------------------------------------------

/-- Progress of carrying over: every page of the old revision as its patches have left
it, with the initial columns of its cells, and the initial columns of the cells
that every page of the new revision still has. -/
structure Replay where
  working : List (Page × ColumnTable)
  ahead : List ColumnTable
deriving DecidableEq

namespace Replay

def start (old new : Document) : Replay where
  working := old.pages.map fun p => (p, .ofPage p)
  ahead := new.pages.map .ofPage

/-- Applies a patch to its old page and returns the initial row and column of the
cell it edits; changes nothing where the patch does not apply. -/
def redo (s : Replay) (page : Nat) (patch : Patch) : Option (Nat × Nat) × Replay :=
  match s.working[page]? with
  | none => (none, s)
  | some (p, columns) =>
    match p.cellAt? patch.row patch.col, p.apply patch with
    | some (row, col), .ok edited =>
      ((columns.initial? row col).map (row, ·),
        { s with working := s.working.set page (edited, columns.edit row col patch.edit) })
    | _, _ => (none, s)

/-- Makes an edit in the counterpart `target` of a cell and returns where that
stands now; `none` if it has been taken out. -/
def follow (s : Replay) (target : Address) (edit : Edit) : Option Address × Replay :=
  match s.ahead[target.page]? with
  | none => (none, s)
  | some columns =>
    match columns.present? target.row target.col with
    | none => (none, s)
    | some col =>
      (some ⟨target.page, target.row, col⟩,
        { s with ahead := s.ahead.set target.page (columns.edit target.row col edit) })

def carry (s : Replay) (m : Matching) (page : Nat) (patch : Patch) :
    Option Address × Replay :=
  let (cell, s) := s.redo page patch
  match cell.bind fun (row, col) => m.locate? ⟨page, row, col⟩ with
  | none => (none, s)
  | some target => s.follow target patch.edit

end Replay

-- ---------------------------------------------------------------------------
-- Whole catalogs
-- ---------------------------------------------------------------------------

structure CarryOver where
  /-- Patches that are now addressed to the new revision. -/
  carried : Catalog
  /-- Patches handed back, still addressed to the old one. -/
  returned : Catalog
deriving DecidableEq, Repr

namespace CarryOver

def add (r : CarryOver) (page : Nat) (patch : Patch) : Option Address → CarryOver
  | some target =>
    { r with carried := r.carried.push target.page (patch.movedTo target.row target.col) }
  | none => { r with returned := r.returned.push page patch }

def ofCatalog (hash : List UInt8 → UInt64) (old new : Document) (c : Catalog) :
    Except TableError CarryOver :=
  if c.document ≠ old.id then
    .error (.foreignCatalog old.id c.document)
  else
    let m := Matching.ofRevisions hash old new
    let step := fun ((s, r) : Replay × CarryOver) ((page, patch) : Nat × Patch) =>
      let (target, s) := s.carry m page patch
      (s, r.add page patch target)
    .ok (c.entries.foldl step (Replay.start old new, ⟨.empty new.id, .empty old.id⟩)).2

end CarryOver

end GlyphTable
