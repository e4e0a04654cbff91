import GlyphTable.Page.Patching

/-!
# Documents

A document is one revision: its identity and its pages. A catalog applies to the
very revision it was written for, as a whole or not at all.
-/

namespace GlyphTable

structure Document where
  id : RevisionId
  pages : List Page
deriving DecidableEq

namespace Document

def page? (d : Document) (number : Nat) : Option Page :=
  d.pages[number]?

/-- Clusters every page under its own vetoes; `none` if one of them cannot be. The
outcomes come in page order; vetoes for pages that the document lacks have no effect. -/
def cluster? (d : Document) (s : Spacing) (vetoes : Nat → List Veto) :
    Option (Document × List Outcome) := do
  let results ← d.pages.zipIdx.mapM fun (p, number) => p.cluster? s (vetoes number)
  return ({ d with pages := results.map (·.1) }, results.map (·.2))

def applyToPage (pages : List Page) (number : Nat) (patches : List Patch) :
    Except TableError (List Page) :=
  match pages[number]? with
  | none => .error (.noPage number)
  | some p => do
    let p ← p.applyAll patches
    return pages.set number p

/-- The document after a catalog. It must be written for this revision and name
existing pages only, which is settled before the first patch is tried. -/
def apply (d : Document) (c : Catalog) : Except TableError Document :=
  if c.document ≠ d.id then
    .error (.foreignCatalog d.id c.document)
  else
    match c.pages.find? fun (number, _) => d.pages.length ≤ number with
    | some (missing, _) => .error (.noPage missing)
    | none => do
      let pages ← c.pages.foldlM (fun pages (number, patches) =>
        applyToPage pages number patches) d.pages
      return { d with pages }

def cells (d : Document) : List (Address × Block) :=
  d.pages.zipIdx.flatMap fun (p, page) =>
    p.rows.zipIdx.flatMap fun (r, row) =>
      r.blocks.zipIdx.map fun (b, col) => (⟨page, row, col⟩, b)

end Document

end GlyphTable
