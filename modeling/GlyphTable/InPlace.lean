import GlyphTable.Document

/-!
# Patching in place

`Page.apply`, `Page.applyAll` and `Document.apply` say what comes of a patch, of patches and
of a catalog. Here the same is done to the page or the document itself, change by change. A
failure may then come when some changes have been made, and what was set aside before them
is put back: the rows of a page, the pages of a document.
-/

namespace GlyphTable

/-- Makes changes in turn, up to the first that fails. What that one and those before it have
done stays. -/
def changeInTurn {σ α : Type} (change : σ → α → σ × Except TableError Unit) :
    σ → List α → σ × Except TableError Unit
  | s, [] => (s, .ok ())
  | s, a :: rest =>
    match change s a with
    | (t, .ok ()) => changeInTurn change t rest
    | (t, .error e) => (t, .error e)

def puttingBack {σ : Type} (restore : σ → σ) :
    σ × Except TableError Unit → σ × Except TableError Unit
  | (s, .ok ()) => (s, .ok ())
  | (s, .error e) => (restore s, .error e)

namespace Page

/-- Patches the page, unless its cell is missing or holds another text. That is settled before
anything is written. -/
def patchInPlace (p : Page) (patch : Patch) : Page × Except TableError Unit :=
  match p.cellAt? patch.row patch.col, p.text? patch.row patch.col with
  | some (row, col), some found =>
    if found = patch.expected then
      (p.edit row col patch.edit, .ok ())
    else
      (p, .error (.textMismatch patch.row patch.col patch.expected found))
  | _, _ => (p, .error (.noCell patch.row patch.col))

def patchAllInPlace (p : Page) (patches : List Patch) : Page × Except TableError Unit :=
  let rows := p.rows
  puttingBack ({ · with rows }) (changeInTurn patchInPlace p patches)

end Page

namespace Document

def patchPageInPlace (d : Document) (entry : Nat × List Patch) :
    Document × Except TableError Unit :=
  match d.pages[entry.1]? with
  | none => (d, .error (.noPage entry.1))
  | some p =>
    let (p, result) := p.patchAllInPlace entry.2
    ({ d with pages := d.pages.set entry.1 p }, result)

def patchInPlace (d : Document) (c : Catalog) : Document × Except TableError Unit :=
  if c.document ≠ d.id then
    (d, .error (.foreignCatalog d.id c.document))
  else
    match c.pages.find? fun (number, _) => d.pages.length ≤ number with
    | some (missing, _) => (d, .error (.noPage missing))
    | none =>
      let pages := d.pages
      puttingBack ({ · with pages }) (changeInTurn patchPageInPlace d c.pages)

end Document

end GlyphTable
