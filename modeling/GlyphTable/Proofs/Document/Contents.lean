import GlyphTable.Proofs.Document.Replay

/-!
# What a document reads

`Document.texts` has the texts of all cells by page and row, and with them the number of
pages and the shape of their tables. Contents and replays of a document depend on nothing
else (`Document.contents_congr`, `Document.textAfter?_of_texts`). The patches that a replay
leaves out are `Document.skipped`.
-/

namespace GlyphTable

namespace Document

def texts (d : Document) : List (List (List String)) :=
  d.pages.map Page.texts

def contents (d : Document) : List (Address × String) :=
  d.cells.map fun (a, b) => (a, b.text)

theorem contents_eq (d : Document) :
    d.contents = d.texts.zipIdx.flatMap fun (rows, page) =>
      rows.zipIdx.flatMap fun (cells, row) =>
        cells.zipIdx.map fun (text, col) => (⟨page, row, col⟩, text) := by
  simp [contents, cells, texts, Page.texts, Row.texts, List.map_flatMap, List.zipIdx_map,
    List.flatMap_map, Function.comp_def]

theorem contents_congr {d d' : Document} (h : d'.texts = d.texts) : d'.contents = d.contents := by
  rw [contents_eq, contents_eq, h]

theorem getElem?_texts (d : Document) (q : Nat) : d.texts[q]? = (d.page? q).map Page.texts :=
  List.getElem?_map

end Document

-- ---------------------------------------------------------------------------
-- Replays by texts
-- ---------------------------------------------------------------------------

theorem TracedPage.ofPage_eq (p : Page) :
    ofPage p = p.texts.map fun cells => cells.zipIdx.map fun (text, col) => ⟨col, text⟩ := by
  simp [ofPage, Page.texts, Row.texts, List.zipIdx_map, Function.comp_def]

theorem TracedPage.LeftOf.texts_eq {t : TracedPage} {p : Page} (h : t.LeftOf p) :
    t.texts = p.texts.zipIdx.map fun (cells, row) =>
      (List.range cells.length).filterMap (t.text? row) := by
  refine List.ext_getElem? fun row => ?_
  rw [List.getElem?_map, List.getElem?_zipIdx, Page.texts, List.getElem?_map]
  cases hr : p.rows[row]? with
  | none =>
    refine List.getElem?_eq_none ?_
    rw [TracedPage.texts, List.length_map, h.length]
    exact List.getElem?_eq_none_iff.mp hr
  | some r => simp [h.texts_row hr, Row.texts, Row.length]

namespace Document

theorem textAfter?_of_texts {d d' : Document} (h : d'.texts = d.texts)
    (entries : List (Nat × Patch))
    (a : Address) : d'.textAfter? entries a = d.textAfter? entries a := by
  have hpage := congrArg (fun texts => texts[a.page]?) h
  simp only [getElem?_texts] at hpage
  rw [textAfter?, textAfter?]
  cases hp : d.page? a.page <;> cases hp' : d'.page? a.page <;> simp_all [TracedPage.ofPage_eq]

/-- A replay leaves in every row the texts of its cells that are left, in order. -/
theorem texts_replay (d : Document) (entries : List (Nat × Patch)) :
    (d.replay entries).texts = d.texts.zipIdx.map fun (rows, page) =>
      rows.zipIdx.map fun (cells, row) =>
        (List.range cells.length).filterMap fun col => d.textAfter? entries ⟨page, row, col⟩ := by
  refine List.ext_getElem? fun page => ?_
  rw [getElem?_texts, page_replay, List.getElem?_map, List.getElem?_zipIdx, getElem?_texts]
  cases hp : d.page? page with
  | none => rfl
  | some p =>
    have hfollows := (TracedPage.Follows.ofPage p).replay (patchesOn page entries)
    simp only [Option.map_some, Nat.zero_add, Option.some.injEq, textAfter?, hp, Option.bind_some]
    rw [← hfollows.texts, hfollows.left.texts_eq]

theorem mem_contents_of_texts {d : Document} {page row col : Nat} {rows : List (List String)}
    {cells : List String} (hpage : d.texts[page]? = some rows) (hrow : rows[row]? = some cells)
    (hcol : col < cells.length) : (⟨page, row, col⟩, cells[col]) ∈ d.contents := by
  simp only [contents_eq, List.mem_flatMap, List.mem_map, Prod.exists, List.mem_zipIdx_iff_getElem?]
  exact ⟨rows, page, hpage, cells, row, hrow, cells[col], col, List.getElem?_eq_getElem hcol, rfl⟩

theorem texts_replay_congr {d d' : Document} (h : d'.texts = d.texts)
    {entries entries' : List (Nat × Patch)}
    (hcells : ∀ a text, (a, text) ∈ d.contents →
      d'.textAfter? entries' a = d.textAfter? entries a) :
    (d'.replay entries').texts = (d.replay entries).texts := by
  rw [texts_replay, texts_replay, h]
  refine List.map_congr_left fun (rows, page) hpage =>
    List.map_congr_left fun (cells, row) hrow => ?_
  rw [List.mem_zipIdx_iff_getElem?] at hpage hrow
  refine List.filterMap_congr fun col hcol => ?_
  exact hcells _ _ (mem_contents_of_texts hpage hrow (List.mem_range.mp hcol))

-- ---------------------------------------------------------------------------
-- Patches that are left out
-- ---------------------------------------------------------------------------

def Applies (d : Document) (page : Nat) (patch : Patch) : Prop :=
  ∃ p q, d.page? page = some p ∧ p.apply patch = .ok q

instance (d : Document) (page : Nat) (patch : Patch) : Decidable (d.Applies page patch) :=
  decidable_of_iff ((d.page? page).any fun p => (p.apply patch).isOk) (by
    cases hp : d.page? page with
    | none => simp [Applies, hp]
    | some p => cases hok : p.apply patch <;> simp [Applies, hp, hok, Except.isOk, Except.toBool])

/-- The entries that do not apply at their turn, when such are left out. -/
def skipped (d : Document) : List (Nat × Patch) → List (Nat × Patch)
  | [] => []
  | (page, patch) :: rest =>
    if d.Applies page patch then (d.replay [(page, patch)]).skipped rest
    else (page, patch) :: d.skipped rest

theorem skipped_sublist (d : Document) (entries : List (Nat × Patch)) :
    (d.skipped entries).Sublist entries := by
  induction entries generalizing d with
  | nil => exact .slnil
  | cons entry rest ih =>
    rw [skipped]
    split
    · exact (ih _).cons _
    · exact (ih d).cons_cons _

theorem replay_append (d : Document) (entries more : List (Nat × Patch)) :
    d.replay (entries ++ more) = (d.replay entries).replay more := by
  simp [replay, List.foldl_append]

theorem replay_of_not_applies {d : Document} {page : Nat} {patch : Patch}
    (h : ¬ d.Applies page patch) : d.replay [(page, patch)] = d := by
  refine congrArg (Document.mk d.id) (List.ext_getElem? fun q => ?_)
  rw [List.foldl_cons, List.foldl_nil, List.getElem?_modify]
  by_cases hq : page = q
  · cases hp : d.pages[q]? with
    | none => rfl
    | some p =>
      cases hok : p.apply patch with
      | ok p' => exact absurd ⟨p, p', hq ▸ hp, hok⟩ h
      | error e => simp [hok, attempt]
  · simp [hq]

end Document

-- ---------------------------------------------------------------------------
-- Catalogs in order
-- ---------------------------------------------------------------------------

namespace Catalog

theorem pairwise_entries (c : Catalog) : c.entries.Pairwise (·.1 ≤ ·.1) := by
  refine List.pairwise_flatMap.mpr ⟨fun entry _ => ?_, ?_⟩
  · exact List.pairwise_map.mpr (List.pairwise_of_forall fun _ _ => le_rfl)
  · refine (List.pairwise_map.mp c.ascending).imp fun hlt x hx y hy => ?_
    obtain ⟨patch, -, rfl⟩ := List.mem_map.mp hx
    obtain ⟨patch', -, rfl⟩ := List.mem_map.mp hy
    exact hlt.le

theorem entries_push {c : Catalog} {page : Nat} (h : ∀ n ∈ c.pages.map (·.1), n ≤ page)
    (patch : Patch) : (c.push page patch).entries = c.entries ++ [(page, patch)] := by
  obtain ⟨document, pages, hasc⟩ := c
  simp only [push, alter, entries] at h ⊢
  induction pages with
  | nil => rfl
  | cons entry rest ih =>
    obtain ⟨n, patches⟩ := entry
    obtain ⟨hn, hrest⟩ := List.pairwise_cons.mp hasc
    have hle := h n List.mem_cons_self
    rw [alterPage, if_neg (Nat.not_lt.mpr hle)]
    split
    · next heq =>
      subst heq
      have hlast : rest = [] := List.eq_nil_iff_forall_not_mem.mpr fun entry hentry => by
        have hmem := List.mem_map_of_mem (f := Prod.fst) hentry
        exact absurd (hn _ hmem) (Nat.not_lt.mpr (h _ (List.mem_cons_of_mem _ hmem)))
      simp [hlast]
    · simp [ih hrest fun m hm => h m (List.mem_cons_of_mem _ hm)]

theorem entries_foldl_push {entries : List (Nat × Patch)} (hasc : entries.Pairwise (·.1 ≤ ·.1))
    {c : Catalog} (h : ∀ n ∈ c.pages.map (·.1), ∀ entry ∈ entries, n ≤ entry.1) :
    (entries.foldl (fun c (page, patch) => c.push page patch) c).entries =
      c.entries ++ entries := by
  induction entries generalizing c with
  | nil => simp
  | cons entry rest ih =>
    obtain ⟨page, patch⟩ := entry
    obtain ⟨hpage, hrest⟩ := List.pairwise_cons.mp hasc
    rw [List.foldl_cons, ih hrest, entries_push fun n hn => h n hn _ List.mem_cons_self]
    · simp
    · intro n hn next hnext
      rcases mem_map_alterPage.mp hn with rfl | hn
      · exact hpage next hnext
      · exact h n hn next (List.mem_cons_of_mem _ hnext)

theorem entries_ofEntries {document : RevisionId} {entries : List (Nat × Patch)}
    (hasc : entries.Pairwise (·.1 ≤ ·.1)) : (ofEntries document entries).entries = entries :=
  entries_foldl_push hasc fun _ hn => absurd hn List.not_mem_nil

theorem ofEntries_concat (document : RevisionId) (entries : List (Nat × Patch))
    (entry : Nat × Patch) :
    ofEntries document (entries ++ [entry]) =
      (ofEntries document entries).push entry.1 entry.2 := by
  rw [ofEntries, List.foldl_append]
  rfl

section

variable {document : RevisionId} {entries : List (Nat × Patch)}

theorem patchesOn_ofEntries (q : Nat) :
    patchesOn q (ofEntries document entries).entries = patchesOn q entries := by
  induction entries using List.reverseRecOn with
  | nil => rfl
  | append_singleton rest entry ih => rw [ofEntries_concat, patchesOn_push, ih, patchesOn_append]

theorem document_ofEntries : (ofEntries document entries).document = document := by
  induction entries using List.reverseRecOn with
  | nil => rfl
  | append_singleton rest entry ih => rw [ofEntries_concat, document_push, ih]

theorem size_ofEntries : (ofEntries document entries).size = entries.length := by
  induction entries using List.reverseRecOn with
  | nil => rfl
  | append_singleton rest entry ih =>
    rw [ofEntries_concat, size_push, ih, List.length_append, List.length_singleton]

theorem ne_nil_of_mem_alterPage {page : Nat} {patch : Patch} {pages : List (Nat × List Patch)}
    (h : ∀ x ∈ pages, x.2 ≠ []) : ∀ x ∈ alterPage page (· ++ [patch]) pages, x.2 ≠ [] := by
  fun_induction alterPage page (· ++ [patch]) pages with
  | case1 => simp
  | case2 => simpa using h
  | case3 => simpa using fun n patches hmem => h (n, patches) (List.mem_cons_of_mem _ hmem)
  | case4 n patches rest _ _ ih =>
    obtain ⟨hhead, hrest⟩ := List.forall_mem_cons.mp h
    exact List.forall_mem_cons.mpr ⟨hhead, ih hrest⟩

theorem ne_nil_of_mem_ofEntries : ∀ x ∈ (ofEntries document entries).pages, x.2 ≠ [] := by
  induction entries using List.reverseRecOn with
  | nil => exact fun _ h => absurd h List.not_mem_nil
  | append_singleton rest entry ih =>
    rw [ofEntries_concat]
    exact ne_nil_of_mem_alterPage ih

theorem mem_entries_iff {c : Catalog} {q : Nat} {patch : Patch} :
    (q, patch) ∈ c.entries ↔ patch ∈ patchesOn q c.entries := by
  simp [patchesOn]

theorem mem_entries_ofEntries {q : Nat} {patch : Patch} :
    (q, patch) ∈ (ofEntries document entries).entries ↔ (q, patch) ∈ entries := by
  rw [mem_entries_iff, patchesOn_ofEntries]
  simp [patchesOn]

theorem mem_pages_ofEntries {q : Nat} {patches : List Patch} :
    (q, patches) ∈ (ofEntries document entries).pages ↔
      patches ≠ [] ∧ patches = patchesOn q entries := by
  have hlist {patches : List Patch} (h : (q, patches) ∈ (ofEntries document entries).pages) :
      patches = patchesOn q entries :=
    (patchesOn_of_mem h).symm.trans (patchesOn_ofEntries q)
  refine ⟨fun h => ⟨ne_nil_of_mem_ofEntries _ h, hlist h⟩, ?_⟩
  rintro ⟨hne, rfl⟩
  obtain ⟨patch, hpatch⟩ := List.exists_mem_of_ne_nil _ hne
  have hentry : (q, patch) ∈ (ofEntries document entries).entries := by
    rwa [mem_entries_iff, patchesOn_ofEntries]
  obtain ⟨⟨n, patches⟩, hmem, hin⟩ := List.mem_flatMap.mp hentry
  obtain ⟨_, -, heq⟩ := List.mem_map.mp hin
  cases heq
  rwa [← hlist hmem]

end

end Catalog

end GlyphTable
