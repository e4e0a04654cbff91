import GlyphTable.RevisionId

/-!
# Patches and catalogs

A patch corrects one cell and names the text it expects there. A catalog holds the
patches for one document revision, page by page in ascending order of the pages
and within a page in the order they are to be applied.
-/

namespace GlyphTable

inductive Edit where
  | replace (text : String)
  /-- Takes the cell out of its row; later cells move to the left. -/
  | remove
deriving DecidableEq, Repr

/-- A correction of the cell at a signed address, made only where the cell holds
the expected text. -/
structure Patch where
  row : Int
  col : Int
  expected : String
  edit : Edit
deriving DecidableEq, Repr

def Patch.movedTo (p : Patch) (row col : Int) : Patch :=
  { p with row, col }

structure Catalog where
  document : RevisionId
  pages : List (Nat × List Patch)
  /-- Every page has one entry, and entries ascend by page. -/
  ascending : (pages.map (·.1)).Pairwise (· < ·)
deriving DecidableEq, Repr

namespace Catalog

def empty (document : RevisionId) : Catalog :=
  ⟨document, [], .nil⟩

def alterPage (page : Nat) (f : List Patch → List Patch) :
    List (Nat × List Patch) → List (Nat × List Patch)
  | [] => [(page, f [])]
  | (n, patches) :: rest =>
    if page < n then (page, f []) :: (n, patches) :: rest
    else if page = n then (n, f patches) :: rest
    else (n, patches) :: alterPage page f rest

theorem mem_map_alterPage {page n : Nat} {f : List Patch → List Patch}
    {pages : List (Nat × List Patch)} :
    n ∈ (alterPage page f pages).map (·.1) ↔ n = page ∨ n ∈ pages.map (·.1) := by
  fun_induction alterPage page f pages with
  | case1 => simp
  | case2 => simp
  | case3 => simp
  | case4 m patches rest _ _ ih =>
    rw [List.map_cons, List.mem_cons, ih, List.map_cons, List.mem_cons]
    exact or_left_comm

theorem ascending_alterPage {page : Nat} {f : List Patch → List Patch}
    {pages : List (Nat × List Patch)} (h : (pages.map (·.1)).Pairwise (· < ·)) :
    ((alterPage page f pages).map (·.1)).Pairwise (· < ·) := by
  fun_induction alterPage page f pages with
  | case1 => simp
  | case2 n patches rest hlt =>
    refine .cons (fun m hm => ?_) h
    rcases List.mem_cons.mp hm with rfl | hm
    · exact hlt
    · exact Nat.lt_trans hlt ((List.pairwise_cons.mp h).1 m hm)
  | case3 => exact h
  | case4 n patches rest hlt hne ih =>
    obtain ⟨hn, hrest⟩ := List.pairwise_cons.mp h
    refine .cons (fun m hm => ?_) (ih hrest)
    rcases mem_map_alterPage.mp hm with rfl | hm
    · exact Nat.lt_of_le_of_ne (Nat.le_of_not_lt hlt) (Ne.symm hne)
    · exact hn m hm

def alter (c : Catalog) (page : Nat) (f : List Patch → List Patch) : Catalog where
  document := c.document
  pages := alterPage page f c.pages
  ascending := ascending_alterPage c.ascending

def push (c : Catalog) (page : Nat) (patch : Patch) : Catalog :=
  c.alter page (· ++ [patch])

def ofEntries (document : RevisionId) (entries : List (Nat × Patch)) : Catalog :=
  entries.foldl (fun c (page, patch) => c.push page patch) (empty document)

def entries (c : Catalog) : List (Nat × Patch) :=
  c.pages.flatMap fun (page, patches) => patches.map (page, ·)

def size (c : Catalog) : Nat :=
  c.pages.foldr (fun (_, patches) n => patches.length + n) 0

theorem length_entries (c : Catalog) : c.entries.length = c.size := by
  have h (pages : List (Nat × List Patch)) :
      (pages.flatMap fun (page, patches) => patches.map (page, ·)).length =
        pages.foldr (fun (_, patches) n => patches.length + n) 0 := by
    induction pages with
    | nil => rfl
    | cons entry rest ih => simp [ih]
  exact h c.pages

@[simp] theorem document_push (c : Catalog) (page : Nat) (patch : Patch) :
    (c.push page patch).document = c.document := rfl

@[simp] theorem size_push (c : Catalog) (page : Nat) (patch : Patch) :
    (c.push page patch).size = c.size + 1 := by
  have h (pages : List (Nat × List Patch)) :
      (alterPage page (· ++ [patch]) pages).foldr (fun (_, patches) n => patches.length + n) 0 =
        pages.foldr (fun (_, patches) n => patches.length + n) 0 + 1 := by
    fun_induction alterPage page (· ++ [patch]) pages with
    | case1 => rfl
    | case2 => simp [Nat.add_comm]
    | case3 => simp; omega
    | case4 _ _ _ _ _ ih => rw [List.foldr_cons, ih, List.foldr_cons, Nat.add_assoc]
  exact h c.pages

end Catalog

end GlyphTable
