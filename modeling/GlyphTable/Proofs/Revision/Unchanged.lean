import GlyphTable.Proofs.Document.Contents
import GlyphTable.Proofs.Revision.Neighbours
import GlyphTable.Proofs.Revision.Simulation

/-!
# Revisions with the same texts

Where a revision has the texts of the one before, cell by cell, every cell is its own
counterpart however often the texts repeat: all cells together are one run, and that is
taken first. Carrying a catalog over then hands back exactly the patches that a replay on
the old revision leaves out, and both revisions read alike afterwards
(`CarryOver.unchanged_verbatim`).
-/

namespace GlyphTable

theorem Counterparts.lt_size_of_get? {m : Counterparts} {i j : Nat} (h : m.get? i = some j) :
    i < m.size := by
  simpa [size] using (List.getElem?_eq_some_iff.mp (get?_eq_some.mp h)).1

theorem Counterparts.get?_commonRuns_self {a : Array UInt64} (ha : separator ∉ a) {i : Nat}
    (hi : i < a.size) : (ofRuns a.size (commonRuns a a)).get? i = some i := by
  have hwhole := mem_commonRuns_self ha (Nat.zero_lt_of_lt hi)
  obtain ⟨s, hs, hlength, -⟩ :=
    exists_taken_of_mem hwhole (Nat.zero_lt_of_lt hi) (Nat.zero_add _).le
  -- No other run is as long.
  have hmatches := commonRuns_matches ha (mem_of_mem_taken hs)
  have hsource := hmatches.source_le
  have htarget := hmatches.target_le
  simp only at hlength
  exact get?_ofRuns_iff.mpr ⟨s, hs, i, by omega, by omega, by omega⟩

theorem CellSequence.ofDocument_congr {hash : List UInt8 → UInt64} {d e : Document}
    (h : d.contents = e.contents) : ofDocument hash d = ofDocument hash e := by
  have hcontents (d : Document) :
      ofDocument hash d = d.contents.foldl (fun s (a, text) => s.add hash a text) empty := by
    rw [Document.contents, List.foldl_map]
    rfl
  rw [hcontents, hcontents, h]

namespace Matching

variable {hash : List UInt8 → UInt64} {old new : Document}

theorem ofRevisions_eq (h : new.texts = old.texts) :
    ofRevisions hash old new = ofRevisions hash old old := by
  simp only [ofRevisions, CellSequence.ofDocument_congr (Document.contents_congr h)]

theorem mapping_self (hash : List UInt8 → UInt64) (d : Document) {i : Nat}
    (hi : i < d.cells.length) :
    (ofRevisions hash d d).mapping.get? i = some i := by
  rw [← CellSequence.size_ofDocument hash] at hi
  rw [mapping_ofRevisions]
  exact Counterparts.get?_commonRuns_self (CellSequence.separator_not_mem_hashes d) hi

theorem oneToOne_self (d : Document) : (ofRevisions hash d d).mapping.OneToOne := by
  have hself {i j : Nat} (hij : (ofRevisions hash d d).mapping.get? i = some j) : j = i := by
    have hlt := Counterparts.lt_size_of_get? hij
    rw [ofRevisions, Counterparts.size_ofRuns, CellSequence.size_ofDocument] at hlt
    exact Option.some.inj (hij.symm.trans (mapping_self hash d hlt))
  intro i k j hi hk
  rw [← hself hi, ← hself hk]

theorem locate?_self {d : Document} {a : Address} {b : Block} (h : (a, b) ∈ d.cells) :
    (ofRevisions hash d d).locate? a = some a := by
  obtain ⟨i, hi⟩ := CellSequence.exists_position h
  have haddress := CellSequence.position?_eq_some_iff.mp hi
  obtain ⟨x, hx⟩ := CellSequence.address?_eq_some haddress
  have hself := mapping_self hash d (List.getElem?_eq_some_iff.mp hx).1
  rw [locate?, show (ofRevisions hash d d).source.position? a = some i from hi]
  simp only [Option.bind_eq_bind, Option.bind_some, hself]
  exact haddress

theorem inStep_unchanged (h : new.texts = old.texts) :
    (ofRevisions hash old new).InStep old new [] [] := by
  refine ⟨fun a b hab => ?_, fun _ _ => rfl⟩
  rw [ofRevisions_eq h] at hab
  obtain ⟨x, -, hx, -⟩ := mem_cells_of_locate? hab
  obtain rfl := Option.some.inj ((locate?_self hx).symm.trans hab)
  exact Document.textAfter?_of_texts h [] a

end Matching

theorem Document.mem_cells_of_textAfter? {d : Document} {entries : List (Nat × Patch)} {a : Address}
    {text : String} (h : d.textAfter? entries a = some text) : ∃ b, (a, b) ∈ d.cells := by
  obtain ⟨p, hp, htext⟩ := Option.bind_eq_some_iff.mp h
  obtain ⟨col, c, -, hc, hhome, -⟩ := TracedPage.exists_cell_of_text? htext
  obtain ⟨cells, hrow, hcol⟩ := TracedPage.cell?_eq_some hc
  have hleft := ((TracedPage.Follows.ofPage p).replay (patchesOn a.page entries)).left
  obtain ⟨r, hr⟩ : ∃ r, p.rows[a.row]? = some r :=
    ⟨_, List.getElem?_eq_getElem (hleft.length ▸ (List.getElem?_eq_some_iff.mp hrow).1)⟩
  have hhomes : ((TracedPage.ofPage p).replay (patchesOn a.page entries)).homes[a.row]? =
      some (cells.map (·.home)) := by
    rw [TracedPage.homes, List.getElem?_map, hrow]
    rfl
  have hmem :=
    (hleft.inOrder a.row _ r hhomes hr).mem (List.mem_map_of_mem (List.mem_of_getElem? hcol))
  rw [hhome, List.mem_range] at hmem
  exact ⟨_, mem_cells.mpr ⟨p, r, hp, hr, List.getElem?_eq_getElem hmem⟩⟩

theorem Replay.Reenacts.redo_eq_none_iff {s : Replay} {old : Document} {done : List (Nat × Patch)}
    (h : s.Reenacts old done) (page : Nat) (patch : Patch) :
    (s.redo page patch).1 = none ↔ ¬ (old.replay done).Applies page patch := by
  have hworking := h page
  have hpage := old.page_replay done page
  cases hp : old.page? page with
  | none =>
    rw [hp] at hworking hpage
    refine iff_of_true ?_ ?_
    · rw [Replay.redo, hworking]
      rfl
    · rintro ⟨p, -, hnow, -⟩
      rw [hpage] at hnow
      cases hnow
  | some p =>
    rw [hp] at hworking hpage
    have hfollows := (TracedPage.Follows.ofPage p).replay (patchesOn page done)
    rcases TracedPage.apply_trace hfollows.texts patch with
      ⟨row, col, c, hat, hc, -, hok, -, -⟩ | ⟨⟨e, herror⟩, -⟩
    · refine iff_of_false ?_ (not_not.mpr ⟨_, _, hpage, hok⟩)
      rw [Replay.redo, hworking]
      simp [hat, hok, initial?_homes, hc]
    · refine iff_of_true ?_ ?_
      · rw [redo_of_error hworking herror]
      · rintro ⟨q, q', hnow, hok⟩
        obtain rfl := Option.some.inj (hpage.symm.trans hnow)
        rw [herror] at hok
        cases hok

namespace CarryOver

variable {hash : List UInt8 → UInt64} {old new : Document} {done : List (Nat × Patch)} {s : Replay}
  {r : CarryOver}

theorem Invariant.carry_eq_none_iff (h : Invariant hash old new done s r)
    (hall : ∀ a b, (a, b) ∈ old.cells →
      ∃ a', (Matching.ofRevisions hash old new).locate? a = some a')
    (page : Nat) (patch : Patch) :
    (s.carry (Matching.ofRevisions hash old new) page patch).1 = none ↔
      ¬ (old.replay done).Applies page patch := by
  rw [← h.tracks.working.redo_eq_none_iff]
  have htracks := h.tracks.redo page patch
  rcases (h.tracks.working.redo page patch).2 with ⟨row, home, hcell, hexp, -⟩ | ⟨hnone, -⟩
  · obtain ⟨b, hb⟩ := Document.mem_cells_of_textAfter? hexp
    obtain ⟨target, htarget⟩ := hall _ b hb
    have hpresent := h.inStep.counterpart _ target htarget
    rw [hexp] at hpresent
    obtain ⟨col, hfollow, -⟩ := htracks.follow h.fits hpresent
    simp [Replay.carry, hcell, htarget, hfollow]
  · simp [Replay.carry, hnone]

theorem Invariant.returned_run (hone : (Matching.ofRevisions hash old new).mapping.OneToOne)
    (hall : ∀ a b, (a, b) ∈ old.cells →
      ∃ a', (Matching.ofRevisions hash old new).locate? a = some a')
    (entries : List (Nat × Patch)) (h : Invariant hash old new done s r) :
    (entries.foldl (fun ((s, r) : Replay × CarryOver) ((page, patch) : Nat × Patch) =>
      let (target, s) := s.carry (Matching.ofRevisions hash old new) page patch
      (s, r.add page patch target)) (s, r)).2.returned =
      ((old.replay done).skipped entries).foldl (fun c (page, patch) => c.push page patch)
        r.returned := by
  induction entries generalizing done s r with
  | nil => rfl
  | cons entry rest ih =>
    obtain ⟨page, patch⟩ := entry
    have hiff := h.carry_eq_none_iff hall page patch
    rw [List.foldl_cons, Document.skipped]
    refine (ih (h.step hone page patch)).trans ?_
    rw [Document.replay_append]
    by_cases happlies : (old.replay done).Applies page patch
    · obtain ⟨target, htarget⟩ := Option.ne_none_iff_exists'.mp (mt hiff.mp (not_not.mpr happlies))
      rw [if_pos happlies, htarget]
      rfl
    · rw [if_neg happlies, hiff.mpr happlies, Document.replay_of_not_applies happlies]
      rfl

/-- Between revisions with the same texts every cell is mapped to itself, and a catalog is
carried over but for the patches that do not apply at their turn. The new revision then
reads as the old one does after the replay. -/
theorem unchanged_verbatim (hash : List UInt8 → UInt64) {old new : Document}
    (h : new.texts = old.texts) :
    (∀ i < old.cells.length, (Matching.ofRevisions hash old new).mapping.get? i = some i) ∧
    (∀ a b, (a, b) ∈ old.cells → (Matching.ofRevisions hash old new).locate? a = some a) ∧
    ∀ c : Catalog, c.document = old.id → ∃ r d, ofCatalog hash old new c = .ok r ∧
      r.returned.entries = old.skipped c.entries ∧
      new.apply r.carried = .ok d ∧ d.contents = (old.replay c.entries).contents := by
  have hself {a : Address} {b : Block} (hab : (a, b) ∈ old.cells) :
      (Matching.ofRevisions hash old new).locate? a = some a := by
    rw [Matching.ofRevisions_eq h]
    exact Matching.locate?_self hab
  have hone : (Matching.ofRevisions hash old new).mapping.OneToOne := by
    rw [Matching.ofRevisions_eq h]
    exact Matching.oneToOne_self old
  refine ⟨fun i hi => ?_, fun a b => hself, fun c hid => ?_⟩
  · rw [Matching.ofRevisions_eq h]
    exact Matching.mapping_self hash old hi
  have hstart : Invariant hash old new [] (Replay.start old new) ⟨.empty new.id, .empty old.id⟩ :=
    ⟨Replay.tracks_start old new, .empty new, Matching.inStep_unchanged h⟩
  have hrun := hstart.run hone c.entries
  have hreturned := hstart.returned_run hone (fun a b hab => ⟨a, hself hab⟩) c.entries
  rw [List.nil_append] at hrun
  refine ⟨_, _, by rw [ofCatalog, if_neg (not_not.mpr hid)], ?_, Document.apply_eq_ok hrun.fits, ?_⟩
  · rw [hreturned]
    exact Catalog.entries_ofEntries (c.pairwise_entries.sublist (old.skipped_sublist c.entries))
  · refine Document.contents_congr (Document.texts_replay_congr h fun a text htext => ?_)
    obtain ⟨⟨a, b⟩, hab, heq⟩ := List.mem_map.mp htext
    cases heq
    exact hrun.inStep.counterpart a a (hself hab)

/-- Texts repeat and move under the patches, of which the second does not apply. -/
theorem unchanged_repeated_texts :
    let old := Document.ofTexts ⟨"t", "c", "1"⟩ [["a", "a", "b"], ["a"]]
    let new := Document.ofTexts ⟨"t", "c", "2"⟩ [["a", "a", "b"], ["a"]]
    let c := Catalog.ofEntries old.id
      [(0, ⟨0, 0, "a", .remove⟩), (0, ⟨0, 2, "b", .remove⟩), (0, ⟨0, -1, "b", .replace "B"⟩)]
    ∃ r d, ofCatalog Word64.hash old new c = .ok r ∧
      r.returned.entries = [(0, ⟨0, 2, "b", .remove⟩)] ∧ new.apply r.carried = .ok d ∧
      d.contents = [(⟨0, 0, 0⟩, "a"), (⟨0, 0, 1⟩, "B"), (⟨0, 1, 0⟩, "a")] := by
  intro old new c
  have hsame : new.texts = old.texts := rfl
  obtain ⟨r, d, hr, hreturned, hd, hcontents⟩ := (unchanged_verbatim Word64.hash hsame).2.2 c rfl
  refine ⟨r, d, hr, ?_, hd, ?_⟩
  · rw [hreturned]
    decide +kernel
  · rw [hcontents]
    decide +kernel

end CarryOver

end GlyphTable
