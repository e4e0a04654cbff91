import GlyphTable.Document
import GlyphTable.Proofs.Page.Trace

/-!
# Replaying patches

A replay applies patches in turn and skips those that do not apply. Patches of one page
do not touch another, so a replay can be looked at page by page (`Document.page_replay`).
A catalog of which every patch applies at its turn is applied as a whole, with what its
replay gives (`Document.apply_eq_ok`).
-/

namespace GlyphTable

def patchesOn (page : Nat) (entries : List (Nat × Patch)) : List Patch :=
  entries.filterMap fun (n, patch) => if n = page then some patch else none

theorem patchesOn_append (page : Nat) (entries more : List (Nat × Patch)) :
    patchesOn page (entries ++ more) = patchesOn page entries ++ patchesOn page more :=
  List.filterMap_append

theorem patchesOn_self (page : Nat) (patch : Patch) : patchesOn page [(page, patch)] = [patch] := by
  simp [patchesOn]

theorem patchesOn_of_ne {page n : Nat} (h : n ≠ page) (patch : Patch) :
    patchesOn page [(n, patch)] = [] := by
  simp [patchesOn, h]

theorem patchesOn_concat_self (page : Nat) (entries : List (Nat × Patch)) (patch : Patch) :
    patchesOn page (entries ++ [(page, patch)]) = patchesOn page entries ++ [patch] := by
  rw [patchesOn_append, patchesOn_self]

theorem patchesOn_concat_of_ne {page n : Nat} (h : n ≠ page) (entries : List (Nat × Patch))
    (patch : Patch) : patchesOn page (entries ++ [(n, patch)]) = patchesOn page entries := by
  rw [patchesOn_append, patchesOn_of_ne h, List.append_nil]

theorem patchesOn_map (page n : Nat) (patches : List Patch) :
    patchesOn page (patches.map (n, ·)) = if n = page then patches else [] := by
  rw [patchesOn, List.filterMap_map]
  by_cases h : n = page <;> simp [h]

-- ---------------------------------------------------------------------------
-- Catalogs page by page
-- ---------------------------------------------------------------------------

namespace Catalog

theorem patchesOn_eq_nil {pages : List (Nat × List Patch)} {page : Nat}
    (h : page ∉ pages.map (·.1)) :
    patchesOn page (pages.flatMap fun (n, patches) => patches.map (n, ·)) = [] := by
  induction pages with
  | nil => rfl
  | cons entry rest ih =>
    rw [List.map_cons, List.mem_cons, not_or] at h
    rw [List.flatMap_cons, patchesOn_append, patchesOn_map, if_neg (Ne.symm h.1), ih h.2]
    rfl

theorem patchesOn_alterPage {pages : List (Nat × List Patch)}
    (hasc : (pages.map (·.1)).Pairwise (· < ·)) (page : Nat) (patch : Patch) (q : Nat) :
    patchesOn q ((alterPage page (· ++ [patch]) pages).flatMap
      fun (n, patches) => patches.map (n, ·)) =
    patchesOn q (pages.flatMap fun (n, patches) => patches.map (n, ·)) ++
      patchesOn q [(page, patch)] := by
  induction pages with
  | nil => simp [alterPage, patchesOn]
  | cons entry rest ih =>
    obtain ⟨n, patches⟩ := entry
    obtain ⟨hn, hrest⟩ := List.pairwise_cons.mp hasc
    rw [alterPage]
    split
    · next hlt =>
      -- Nothing behind belongs to the new page.
      have hnil : page = q → patchesOn q (((n, patches) :: rest).flatMap
          fun (n, patches) => patches.map (n, ·)) = [] := by
        rintro rfl
        refine patchesOn_eq_nil fun hmem => ?_
        rcases List.mem_cons.mp hmem with rfl | hmem
        · exact Nat.lt_irrefl _ hlt
        · exact Nat.lt_asymm hlt (hn page hmem)
      rw [List.flatMap_cons, patchesOn_append, patchesOn_map]
      by_cases hq : page = q
      · rw [hnil hq, if_pos hq, hq, patchesOn_self]
        rfl
      · rw [if_neg hq, patchesOn_of_ne hq, List.append_nil, List.nil_append]
    · split
      · next heq =>
        subst heq
        have hrest' : page = q → patchesOn q (rest.flatMap
            fun (n, patches) => patches.map (n, ·)) = [] := by
          rintro rfl
          exact patchesOn_eq_nil fun hmem => Nat.lt_irrefl _ (hn page hmem)
        rw [List.flatMap_cons, List.flatMap_cons, patchesOn_append, patchesOn_append, patchesOn_map,
          patchesOn_map]
        by_cases hq : page = q
        · rw [hrest' hq, if_pos hq, if_pos hq, hq, patchesOn_self, List.append_nil, List.append_nil]
        · rw [if_neg hq, if_neg hq, patchesOn_of_ne hq, List.append_nil]
      · rw [List.flatMap_cons, List.flatMap_cons, patchesOn_append, patchesOn_append, ih hrest,
          List.append_assoc]

theorem patchesOn_push (c : Catalog) (page : Nat) (patch : Patch) (q : Nat) :
    patchesOn q (c.push page patch).entries =
      patchesOn q c.entries ++ patchesOn q [(page, patch)] :=
  patchesOn_alterPage c.ascending page patch q

theorem patchesOn_of_mem {c : Catalog} {page : Nat} {patches : List Patch}
    (h : (page, patches) ∈ c.pages) : patchesOn page c.entries = patches := by
  obtain ⟨document, pages, hasc⟩ := c
  rw [entries]
  simp only at h ⊢
  induction pages with
  | nil => cases h
  | cons entry rest ih =>
    obtain ⟨hn, hrest⟩ := List.pairwise_cons.mp hasc
    rw [List.flatMap_cons, patchesOn_append, patchesOn_map]
    rcases List.mem_cons.mp h with rfl | h
    · rw [if_pos rfl, patchesOn_eq_nil fun hmem => Nat.lt_irrefl _ (hn page hmem), List.append_nil]
    · have hlt := hn page (List.mem_map_of_mem h)
      rw [if_neg (Nat.ne_of_lt hlt), ih hrest h, List.nil_append]

end Catalog

-- ---------------------------------------------------------------------------
-- Replays of one page
-- ---------------------------------------------------------------------------

namespace Page

/-- The page after the patches in turn, without those that do not apply at theirs. -/
def replay (p : Page) (patches : List Patch) : Page :=
  patches.foldl (fun p patch => (attempt p (p.apply patch)).1) p

theorem replay_append (p : Page) (patches : List Patch) (patch : Patch) :
    p.replay (patches ++ [patch]) =
      (attempt (p.replay patches) ((p.replay patches).apply patch)).1 := by
  rw [replay, List.foldl_append]
  rfl

theorem applyAll_append (p : Page) (patches : List Patch) (patch : Patch) :
    p.applyAll (patches ++ [patch]) = p.applyAll patches >>= (·.apply patch) := by
  rw [applyAll, List.foldlM_append]
  simp [applyAll]

theorem replay_eq_of_applyAll {p p' : Page} {patches : List Patch}
    (h : p.applyAll patches = .ok p') : p.replay patches = p' := by
  induction patches generalizing p with
  | nil => exact Except.ok.inj h
  | cons patch rest ih =>
    obtain ⟨q, hpatch, h⟩ := foldlM_cons_eq_ok.mp h
    rw [replay, List.foldl_cons, hpatch]
    exact ih h

end Page

namespace TracedPage

def replay (t : TracedPage) (patches : List Patch) : TracedPage :=
  patches.foldl (fun t patch => (t.patched? patch).getD t) t

theorem replay_append (t : TracedPage) (patches : List Patch) (patch : Patch) :
    t.replay (patches ++ [patch]) =
      ((t.replay patches).patched? patch).getD (t.replay patches) := by
  rw [replay, List.foldl_append]
  rfl

structure Follows (t : TracedPage) (p first : Page) : Prop where
  texts : t.texts = p.texts
  left : t.LeftOf first

theorem Follows.ofPage (p : Page) : (ofPage p).Follows p p :=
  ⟨texts_ofPage p, .ofPage p⟩

theorem Follows.replay {t : TracedPage} {p first : Page} (h : t.Follows p first)
    (patches : List Patch) : (t.replay patches).Follows (p.replay patches) first := by
  induction patches generalizing t p with
  | nil => exact h
  | cons patch rest ih =>
    rw [TracedPage.replay, Page.replay, List.foldl_cons, List.foldl_cons]
    rcases apply_trace h.texts patch with ⟨row, col, c, -, -, -, hp, ht, htexts⟩ | ⟨⟨e, hp⟩, ht⟩
    · rw [hp, ht]
      exact ih ⟨htexts, h.left.edit row col patch.edit⟩
    · rw [hp, ht]
      exact ih h

end TracedPage

-- ---------------------------------------------------------------------------
-- Catalogs that apply as a whole
-- ---------------------------------------------------------------------------

namespace Catalog

/-- A catalog for this document, of which every patch applies at its turn. -/
structure Fits (c : Catalog) (d : Document) : Prop where
  document : c.document = d.id
  pages : ∀ page ∈ c.pages.map (·.1), page < d.pages.length
  applies : ∀ q p, d.page? q = some p → ∃ p', p.applyAll (patchesOn q c.entries) = .ok p'

theorem Fits.empty (d : Document) : (empty d.id).Fits d :=
  ⟨rfl, fun _ h => absurd h List.not_mem_nil, fun _ p _ => ⟨p, rfl⟩⟩

theorem Fits.push {c : Catalog} {d : Document} (h : c.Fits d) {page : Nat} {p : Page}
    (hp : d.page? page = some p) {patch : Patch} {t : TracedPage}
    (ht : ((TracedPage.ofPage p).replay (patchesOn page c.entries)).patched? patch = some t) :
    (c.push page patch).Fits d := by
  refine ⟨h.document, fun q hq => ?_, fun q p' hp' => ?_⟩
  · rcases mem_map_alterPage.mp hq with rfl | hq
    · exact (List.getElem?_eq_some_iff.mp hp).1
    · exact h.pages q hq
  · obtain ⟨now, hnow⟩ := h.applies q p' hp'
    rw [patchesOn_push]
    by_cases hq : page = q
    · subst hq
      obtain rfl := Option.some.inj (hp.symm.trans hp')
      have hfollows := (TracedPage.Follows.ofPage p).replay (patchesOn page c.entries)
      rw [Page.replay_eq_of_applyAll hnow] at hfollows
      rw [patchesOn_self, Page.applyAll_append, hnow]
      rcases TracedPage.apply_trace hfollows.texts patch with ⟨row, col, _, -, -, -, hok, -,
        -⟩ | ⟨-, hnone⟩
      · exact ⟨now.edit row col patch.edit, hok⟩
      · rw [hnone] at ht
        cases ht
    · rw [patchesOn_of_ne hq, List.append_nil]
      exact ⟨now, hnow⟩

end Catalog

-- ---------------------------------------------------------------------------
-- Replays of documents
-- ---------------------------------------------------------------------------

namespace Document

def replay (d : Document) (entries : List (Nat × Patch)) : Document :=
  { d with pages := entries.foldl (fun pages (page, patch) =>
      pages.modify page fun p => (attempt p (p.apply patch)).1) d.pages }

theorem page_replay (d : Document) (entries : List (Nat × Patch)) (q : Nat) :
    (d.replay entries).page? q = (d.page? q).map (·.replay (patchesOn q entries)) := by
  obtain ⟨id, pages⟩ := d
  simp only [replay, page?]
  induction entries generalizing pages with
  | nil => simp [patchesOn, Page.replay]
  | cons entry rest ih =>
    obtain ⟨n, patch⟩ := entry
    rw [List.foldl_cons, ih, List.getElem?_modify, ← List.singleton_append (l := rest),
      patchesOn_append]
    cases pages[q]? with
    | none => rfl
    | some p =>
      by_cases h : n = q
      · subst h
        rw [patchesOn_self]
        simp [Page.replay]
      · rw [patchesOn_of_ne h]
        simp [h]

/-- Text of the cell that stood at an address before the patches were replayed, unless
they took it out. -/
def textAfter? (d : Document) (entries : List (Nat × Patch)) (a : Address) : Option String :=
  (d.page? a.page).bind fun p =>
    ((TracedPage.ofPage p).replay (patchesOn a.page entries)).text? a.row a.col

def RowsKeepOrder (d : Document) (entries : List (Nat × Patch)) : Prop :=
  ∀ page row p r, d.page? page = some p → p.rows[row]? = some r →
    ∃ p' r', (d.replay entries).page? page = some p' ∧ p'.rows.length = p.rows.length ∧
      p'.rows[row]? = some r' ∧
      r'.texts = (List.range r.length).filterMap fun col => d.textAfter? entries ⟨page, row, col⟩

theorem rowsKeepOrder (d : Document) (entries : List (Nat × Patch)) : d.RowsKeepOrder entries := by
  intro page row p r hp hr
  have hfollows := (TracedPage.Follows.ofPage p).replay (patchesOn page entries)
  have htexts := hfollows.left.texts_row hr
  rw [hfollows.texts, Page.texts, List.getElem?_map] at htexts
  obtain ⟨r', hr', heq⟩ := Option.map_eq_some_iff.mp htexts
  refine ⟨_, r', by rw [page_replay, hp]; rfl, ?_, hr', ?_⟩
  · have hlength := congrArg List.length hfollows.texts
    rw [TracedPage.texts, Page.texts, List.length_map, List.length_map,
      hfollows.left.length] at hlength
    exact hlength.symm
  · rw [heq]
    simp only [textAfter?, hp, Option.bind_some]

theorem textAfter?_nil {d : Document} {a : Address} {p : Page} {r : Row} {b : Block}
    (hp : d.page? a.page = some p) (hr : p.rows[a.row]? = some r) (hb : r.blocks[a.col]? = some b) :
    d.textAfter? [] a = some b.text := by
  have hcell : (TracedPage.ofPage p).cell? a.row a.col = some ⟨a.col, b.text⟩ := by
    simp [TracedPage.cell?, TracedPage.ofPage, hr, hb]
  rw [textAfter?, hp]
  exact (TracedPage.LeftOf.ofPage p).text?_home hcell

theorem textAfter?_congr {d : Document} {entries entries' : List (Nat × Patch)}
    (h : ∀ q p, d.page? q = some p → (TracedPage.ofPage p).replay (patchesOn q entries') =
      (TracedPage.ofPage p).replay (patchesOn q entries)) (a : Address) :
    d.textAfter? entries' a = d.textAfter? entries a := by
  rw [textAfter?, textAfter?]
  cases hp : d.page? a.page with
  | none => rfl
  | some p => rw [Option.bind_some, Option.bind_some, h a.page p hp]

/-- Replays that differ by an edit of one cell leave the same in all others. -/
theorem textAfter?_edit {d : Document} {entries entries' : List (Nat × Patch)} {page row col : Nat}
    {p : Page} {c : TracedCell} {e : Edit} (hp : d.page? page = some p)
    (hc : ((TracedPage.ofPage p).replay (patchesOn page entries)).cell? row col = some c)
    (hedit : (TracedPage.ofPage p).replay (patchesOn page entries') =
      ((TracedPage.ofPage p).replay (patchesOn page entries)).edit row col e)
    (hother : ∀ q, q ≠ page → patchesOn q entries' = patchesOn q entries) (a : Address) :
    d.textAfter? entries' a =
      if a = ⟨page, row, c.home⟩ then e.left? else d.textAfter? entries a := by
  obtain ⟨q, i, j⟩ := a
  simp only [Address.mk.injEq]
  by_cases hq : q = page
  · subst hq
    have hleft := ((TracedPage.Follows.ofPage p).replay (patchesOn q entries)).left
    simp only [textAfter?, hp, Option.bind_some, hedit, hleft.text?_edit hc, true_and]
  · simp only [textAfter?, hother q hq, hq, false_and, if_false]

-- ---------------------------------------------------------------------------
-- Applying a catalog
-- ---------------------------------------------------------------------------

theorem applyToPage_eq_ok_iff {pages pages' : List Page} {page : Nat} {patches : List Patch} :
    applyToPage pages page patches = .ok pages' ↔
      ∃ p p', pages[page]? = some p ∧ p.applyAll patches = .ok p' ∧ pages' = pages.set page p' := by
  rw [applyToPage]
  cases pages[page]? with
  | none => simp
  | some p =>
    simp only [Option.some.injEq, exists_and_left, exists_eq_left', bind_eq_ok]
    refine exists_congr fun p' => and_congr_right fun _ => ?_
    exact ⟨fun h => (Except.ok.inj h).symm, fun h => h ▸ rfl⟩

theorem foldlM_applyToPage {entries : List (Nat × List Patch)} {pages : List Page}
    (hasc : (entries.map (·.1)).Pairwise (· < ·))
    (h : ∀ page patches, (page, patches) ∈ entries → ∃ p p', pages[page]? = some p ∧
      p.applyAll patches = .ok p') :
    ∃ pages', entries.foldlM (fun pages (page, patches) => applyToPage pages page patches) pages =
        .ok pages' ∧ ∀ q : Nat, pages'[q]? = (pages[q]?).map fun p => p.replay (patchesOn q
          (entries.flatMap fun (n, patches) => patches.map (n, ·))) := by
  induction entries generalizing pages with
  | nil => exact ⟨pages, rfl, fun q => by simp [patchesOn, Page.replay]⟩
  | cons entry rest ih =>
    obtain ⟨n, patches⟩ := entry
    obtain ⟨hn, hrest⟩ := List.pairwise_cons.mp hasc
    obtain ⟨p, p', hp, hall⟩ := h n patches List.mem_cons_self
    have hnext : ∀ page patches, (page, patches) ∈ rest → ∃ p q, (pages.set n p')[page]? = some p ∧
        p.applyAll patches = .ok q := by
      intro page patches hmem
      obtain ⟨q, q', hq, hall'⟩ := h page patches (List.mem_cons_of_mem _ hmem)
      refine ⟨q, q', ?_, hall'⟩
      rw [List.getElem?_set_ne (Nat.ne_of_lt (hn page (List.mem_map_of_mem hmem)))]
      exact hq
    obtain ⟨pages', hfold, hpages⟩ := ih hrest hnext
    refine ⟨pages', ?_, fun q => ?_⟩
    · exact foldlM_cons_eq_ok.mpr
        ⟨_, applyToPage_eq_ok_iff.mpr ⟨p, p', hp, hall, rfl⟩, hfold⟩
    · rw [hpages, List.flatMap_cons, patchesOn_append, patchesOn_map]
      by_cases hq : n = q
      · subst hq
        have hnil : patchesOn n (rest.flatMap fun (n, patches) => patches.map (n, ·)) = [] :=
          Catalog.patchesOn_eq_nil fun hmem => Nat.lt_irrefl _ (hn n hmem)
        have hlt := (List.getElem?_eq_some_iff.mp hp).1
        rw [if_pos rfl, hnil, List.append_nil, List.getElem?_set_self hlt, hp]
        exact congrArg some (Page.replay_eq_of_applyAll hall).symm
      · rw [if_neg hq, List.nil_append, List.getElem?_set_ne hq]

/-- A catalog of which every patch applies at its turn is applied as a whole, and none of
its patches is skipped in a replay. -/
theorem apply_eq_ok {d : Document} {c : Catalog} (h : c.Fits d) :
    d.apply c = .ok (d.replay c.entries) := by
  have hfind : c.pages.find? (fun (n, _) => d.pages.length ≤ n) = none := by
    refine List.find?_eq_none.mpr fun entry hentry => ?_
    simpa using h.pages entry.1 (List.mem_map_of_mem hentry)
  have heach : ∀ page patches, (page, patches) ∈ c.pages → ∃ p p', d.pages[page]? = some p ∧
      p.applyAll patches = .ok p' := by
    intro page patches hmem
    have hlt := h.pages page (List.mem_map_of_mem hmem)
    obtain ⟨p', hp'⟩ := h.applies page d.pages[page] (List.getElem?_eq_getElem hlt)
    rw [Catalog.patchesOn_of_mem hmem] at hp'
    exact ⟨_, p', List.getElem?_eq_getElem hlt, hp'⟩
  obtain ⟨pages', hfold, hget⟩ := foldlM_applyToPage c.ascending heach
  have heq : pages' = (d.replay c.entries).pages := by
    refine List.ext_getElem? fun q => ?_
    rw [hget]
    exact (d.page_replay c.entries q).symm
  rw [apply, if_neg (not_not.mpr h.document), hfind]
  simp only [hfold]
  rw [show d.replay c.entries = { d with pages := (d.replay c.entries).pages } from rfl, ← heq]
  rfl

end Document

end GlyphTable
