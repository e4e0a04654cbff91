import GlyphTable.Proofs.Document.Contents
import GlyphTable.Proofs.Document.InPlace
import GlyphTable.Proofs.Page.RowByRow

/-!
# Only the order within a row matters

A catalog made of entries applies exactly if every entry addresses a row that is there and every
row takes its own patches in turn, and then the document is what that makes of its rows
(`Document.apply_ofEntries_iff`). So entries may be reordered as long as those for one row keep
their order (`Document.patching_byRow`).
-/

namespace GlyphTable

namespace Document

-- ---------------------------------------------------------------------------
-- Which catalogs apply
-- ---------------------------------------------------------------------------

theorem applyAll_of_foldlM {entries : List (Nat × List Patch)} {pages pages' : List Page}
    (hasc : (entries.map (·.1)).Pairwise (· < ·))
    (h : entries.foldlM (fun pages (page, patches) => applyToPage pages page patches) pages =
      .ok pages') {page : Nat} {patches : List Patch} (hmem : (page, patches) ∈ entries) :
    ∃ p p', pages[page]? = some p ∧ p.applyAll patches = .ok p' := by
  induction entries generalizing pages with
  | nil => cases hmem
  | cons entry rest ih =>
    obtain ⟨n, first⟩ := entry
    obtain ⟨hn, hrest⟩ := List.pairwise_cons.mp hasc
    obtain ⟨_, happly, hfold⟩ := foldlM_cons_eq_ok.mp h
    obtain ⟨p, p', hp, hall, rfl⟩ := applyToPage_eq_ok_iff.mp happly
    rcases List.mem_cons.mp hmem with heq | hmem
    · cases heq
      exact ⟨p, p', hp, hall⟩
    · obtain ⟨q, q', hq, hall'⟩ := ih hrest hfold hmem
      rw [List.getElem?_set_ne (Nat.ne_of_lt (hn page (List.mem_map_of_mem hmem)))] at hq
      exact ⟨q, q', hq, hall'⟩

theorem fits_of_apply {d d' : Document} {c : Catalog} (h : d.apply c = .ok d') : c.Fits d := by
  rw [apply] at h
  split at h
  · cases h
  · next hid =>
    split at h
    · cases h
    · next hfind =>
      obtain ⟨pages', hfold, -⟩ := bind_eq_ok.mp h
      refine ⟨not_not.mp hid, forall_lt_of_find? hfind, fun page p hp => ?_⟩
      by_cases hmem : page ∈ c.pages.map (·.1)
      · obtain ⟨⟨n, patches⟩, hentry, rfl⟩ := List.mem_map.mp hmem
        obtain ⟨q, q', hq, hall⟩ := applyAll_of_foldlM c.ascending hfold hentry
        obtain rfl := Option.some.inj (hp.symm.trans hq)
        rw [Catalog.patchesOn_of_mem hentry]
        exact ⟨q', hall⟩
      · rw [Catalog.entries, Catalog.patchesOn_eq_nil hmem]
        exact ⟨p, rfl⟩

theorem apply_eq_ok_iff {d d' : Document} {c : Catalog} :
    d.apply c = .ok d' ↔ c.Fits d ∧ d' = d.replay c.entries := by
  constructor
  · intro h
    have hfits := fits_of_apply h
    exact ⟨hfits, (Except.ok.inj ((apply_eq_ok hfits).symm.trans h)).symm⟩
  · rintro ⟨hfits, rfl⟩
    exact apply_eq_ok hfits

-- ---------------------------------------------------------------------------
-- Row by row
-- ---------------------------------------------------------------------------

/-- Every entry has a page, and every page is what its own entries make of it row by row. -/
structure ByRow (d : Document) (entries : List (Nat × Patch)) (d' : Document) : Prop where
  id : d'.id = d.id
  length : d'.pages.length = d.pages.length
  addressed : ∀ entry ∈ entries, entry.1 < d.pages.length
  pages : ∀ page p, d.page? page = some p → ∃ q, d'.page? page = some q ∧
    p.ByRow (patchesOn page entries) q

variable {d d' : Document} {entries entries' : List (Nat × Patch)}

theorem mem_patchesOn {page : Nat} {patch : Patch} :
    patch ∈ patchesOn page entries ↔ (page, patch) ∈ entries := by
  simp [patchesOn]

theorem mem_pages_ofEntries_iff {document : RevisionId} {page : Nat} :
    page ∈ (Catalog.ofEntries document entries).pages.map (·.1) ↔
      ∃ patch, (page, patch) ∈ entries := by
  simp only [List.mem_map, Prod.exists, exists_and_right, exists_eq_right,
    Catalog.mem_pages_ofEntries]
  constructor
  · intro hne
    obtain ⟨patch, hpatch⟩ := List.exists_mem_of_ne_nil _ hne
    exact ⟨patch, mem_patchesOn.mp hpatch⟩
  · rintro ⟨patch, hpatch⟩
    exact List.ne_nil_of_mem (mem_patchesOn.mpr hpatch)

theorem fits_ofEntries_iff : (Catalog.ofEntries d.id entries).Fits d ↔
    (∀ entry ∈ entries, entry.1 < d.pages.length) ∧
      ∀ page p, d.page? page = some p → ∃ q, p.applyAll (patchesOn page entries) = .ok q := by
  constructor
  · intro h
    refine ⟨fun (page, patch) hmem => h.pages page ?_, fun page p hp => ?_⟩
    · exact mem_pages_ofEntries_iff.mpr ⟨patch, hmem⟩
    · have happlies := h.applies page p hp
      rwa [Catalog.patchesOn_ofEntries] at happlies
  · rintro ⟨haddressed, happlies⟩
    refine ⟨Catalog.document_ofEntries, fun page hpage => ?_, fun page p hp => ?_⟩
    · obtain ⟨patch, hmem⟩ := mem_pages_ofEntries_iff.mp hpage
      exact haddressed _ hmem
    · rw [Catalog.patchesOn_ofEntries]
      exact happlies page p hp

theorem length_replay (d : Document) (entries : List (Nat × Patch)) :
    (d.replay entries).pages.length = d.pages.length := by
  simp only [replay]
  generalize d.pages = pages
  induction entries generalizing pages with
  | nil => rfl
  | cons entry rest ih => rw [List.foldl_cons, ih, List.length_modify]

theorem apply_ofEntries_iff : d.apply (.ofEntries d.id entries) = .ok d' ↔ d.ByRow entries d' := by
  have hreplay (page : Nat) := d.page_replay (Catalog.ofEntries d.id entries).entries page
  simp only [Catalog.patchesOn_ofEntries] at hreplay
  rw [apply_eq_ok_iff, fits_ofEntries_iff]
  constructor
  · rintro ⟨⟨haddressed, happlies⟩, rfl⟩
    refine ⟨rfl, length_replay d _, haddressed, fun page p hp => ?_⟩
    obtain ⟨q, hq⟩ := happlies page p hp
    refine ⟨q, ?_, Page.applyAll_eq_ok_iff.mp hq⟩
    rw [hreplay, hp, Option.map_some, Page.replay_eq_of_applyAll hq]
  · intro h
    refine ⟨⟨h.addressed, fun page p hp => ?_⟩, ?_⟩
    · obtain ⟨q, -, hq⟩ := h.pages page p hp
      exact ⟨q, Page.applyAll_eq_ok_iff.mpr hq⟩
    · have hpages : d'.pages = (d.replay (Catalog.ofEntries d.id entries).entries).pages := by
        refine List.ext_getElem? fun page => ?_
        rw [← page?, ← page?, hreplay]
        cases hp : d.page? page with
        | none =>
          rw [page?, List.getElem?_eq_none_iff] at hp
          exact List.getElem?_eq_none (h.length.trans_le hp)
        | some p =>
          obtain ⟨q, hq, hrows⟩ := h.pages page p hp
          rw [hq, Option.map_some, Page.replay_eq_of_applyAll (Page.applyAll_eq_ok_iff.mpr hrows)]
      obtain ⟨id', pages'⟩ := d'
      obtain rfl : id' = d.id := h.id
      exact congrArg (Document.mk d.id) hpages

-- ---------------------------------------------------------------------------
-- Reordering
-- ---------------------------------------------------------------------------

/-- Whether two lists have the same entries, and those for one row of the document in the same
order. Entries that address no row may stand anywhere. -/
structure SameByRow (d : Document) (entries entries' : List (Nat × Patch)) : Prop where
  perm : entries.Perm entries'
  rows : ∀ page p row, d.page? page = some p →
    patchesIn p.rows.length row (patchesOn page entries) =
      patchesIn p.rows.length row (patchesOn page entries')

theorem SameByRow.symm (h : d.SameByRow entries entries') : d.SameByRow entries' entries where
  perm := h.perm.symm
  rows page p row hp := (h.rows page p row hp).symm

theorem ByRow.congr (h : d.ByRow entries d') (hsame : d.SameByRow entries entries') :
    d.ByRow entries' d' where
  id := h.id
  length := h.length
  addressed entry hentry := h.addressed entry (hsame.perm.mem_iff.mpr hentry)
  pages page p hp := by
    obtain ⟨q, hq, hrows⟩ := h.pages page p hp
    refine ⟨q, hq, hrows.congr (fun patch => ?_) fun row => (hsame.rows page p row hp).symm⟩
    rw [mem_patchesOn, mem_patchesOn, hsame.perm.mem_iff]

theorem patchInPlace_eq_attempt (d : Document) (c : Catalog) :
    d.patchInPlace c = attempt d (d.apply c) := by
  rw [← finished_patchInPlace]
  exact (d.patchInPlace_settled c).eq_attempt

/-- Catalogs made of the same entries, those for one row in the same order, both apply and give
one document, in which each row is what its own patches make of it; or both fail, and leave the
document as it was. -/
theorem patching_byRow (d : Document) {entries entries' : List (Nat × Patch)}
    (h : d.SameByRow entries entries') :
    (∃ d', d.ByRow entries d' ∧ d.patchInPlace (.ofEntries d.id entries) = (d', .ok ()) ∧
      d.patchInPlace (.ofEntries d.id entries') = (d', .ok ())) ∨
    (¬ ∃ d', d.ByRow entries d') ∧
      ∃ e e', d.patchInPlace (.ofEntries d.id entries) = (d, .error e) ∧
        d.patchInPlace (.ofEntries d.id entries') = (d, .error e') := by
  simp only [patchInPlace_eq_attempt]
  cases happly : d.apply (.ofEntries d.id entries) with
  | ok d' =>
    have hrows := apply_ofEntries_iff.mp happly
    exact .inl ⟨d', hrows, rfl, by rw [apply_ofEntries_iff.mpr (hrows.congr h)]; rfl⟩
  | error e =>
    have hnone : ¬ ∃ d', d.ByRow entries d' := by
      rintro ⟨d', hrows⟩
      rw [apply_ofEntries_iff.mpr hrows] at happly
      cases happly
    cases happly' : d.apply (.ofEntries d.id entries') with
    | ok d' => exact absurd ⟨d', (apply_ofEntries_iff.mp happly').congr h.symm⟩ hnone
    | error e' => exact .inr ⟨hnone, e, e', rfl, rfl⟩

/-- The patch of the last row, counted from the end, overtakes a removal in the first. -/
theorem patching_byRow_overtaking :
    let p := Page.ofGlyphs 100 100 #[
      .ofText "A" ⟨0, 0, 10, 10⟩ 10 .east 0,
      .ofText "B" ⟨50, 0, 60, 10⟩ 10 .east 0,
      .ofText "C" ⟨0, 40, 10, 50⟩ 10 .east 0]
    let entries := [(0, ⟨0, 0, "A", .remove⟩), (0, ⟨0, 0, "B", .replace "E"⟩),
      (0, ⟨-1, 0, "C", .replace "D"⟩)]
    let entries' := [(0, ⟨-1, 0, "C", .replace "D"⟩), (0, ⟨0, 0, "A", .remove⟩),
      (0, ⟨0, 0, "B", .replace "E"⟩)]
    ∃ q o, p.cluster? .standard [] = some (q, o) ∧
      let d : Document := ⟨⟨"t", "a", "b"⟩, [q]⟩
      d.SameByRow entries entries' ∧ ∃ d', d.patchInPlace (.ofEntries d.id entries) = (d', .ok ()) ∧
        d.patchInPlace (.ofEntries d.id entries') = (d', .ok ()) := by
  intro p entries entries'
  have hshape : (p.cluster? .standard []).map (fun (q, _) => (q.rows.length, decide
      ((patchInPlace ⟨⟨"t", "a", "b"⟩, [q]⟩ (.ofEntries ⟨"t", "a", "b"⟩ entries)).2 = .ok ()))) =
        some (2, true) := by
    decide +kernel
  obtain ⟨⟨q, o⟩, hq, hqshape⟩ := Option.map_eq_some_iff.mp hshape
  obtain ⟨hcount, hok⟩ := Prod.mk.inj hqshape
  refine ⟨q, o, hq, ?_⟩
  intro d
  have hsame : d.SameByRow entries entries' := by
    refine ⟨by decide, fun page r row hr => ?_⟩
    have hr : [q][page]? = some r := hr
    obtain ⟨rfl, rfl⟩ : page = 0 ∧ q = r := by
      cases page with
      | zero => simpa using hr
      | succ n => simp at hr
    rw [hcount]
    match row with
    | 0 => rfl
    | 1 => rfl
    | n + 2 => rfl
  have hok : (d.patchInPlace (.ofEntries d.id entries)).2 = .ok () := of_decide_eq_true hok
  refine ⟨hsame, ?_⟩
  rcases d.patching_byRow hsame with ⟨d', -, heq, heq'⟩ | ⟨-, e, e', heq, -⟩
  · exact ⟨d', heq, heq'⟩
  · rw [heq] at hok
    cases hok

end Document

end GlyphTable
