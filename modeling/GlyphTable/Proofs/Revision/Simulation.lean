import GlyphTable.Hash.Word64
import GlyphTable.Proofs.Document.Replay
import GlyphTable.Proofs.Revision.Located
import GlyphTable.Revision.CarryOver

/-!
# Carried patches do on the new revision what they did on the old

`CarryOver.simulates`: the patches that `CarryOver.ofCatalog` carries over apply to the new
revision, and leave in every counterpart what the replay of the whole catalog leaves in
its cell of the old revision.

The replay keeps two sets of column tables. That they are the first columns of the traced
pages on either side is one half of the invariant (`Replay.Tracks`), that counterparts
hold the same texts is the other (`Matching.InStep`).
-/

namespace GlyphTable

/-- The pages of a replay are the old ones after `done`, with the first columns of the cells
that are left. -/
def Replay.Reenacts (s : Replay) (old : Document) (done : List (Nat × Patch)) : Prop :=
  ∀ q : Nat, s.working[q]? = (old.page? q).map fun p =>
    (p.replay (patchesOn q done), ((TracedPage.ofPage p).replay (patchesOn q done)).homes)

/-- The column tables of a replay belong to the old pages after `done` and to the new
pages after `carried`. -/
structure Replay.Tracks (s : Replay) (old new : Document) (done carried : List (Nat × Patch)) :
    Prop where
  working : s.Reenacts old done
  ahead : ∀ q : Nat, s.ahead[q]? = (new.page? q).map fun p =>
    ((TracedPage.ofPage p).replay (patchesOn q carried)).homes

/-- After `done` on the old revision and `carried` on the new, counterparts hold the same
texts or are gone together, and all other cells of the new one are as they were. -/
structure Matching.InStep (m : Matching) (old new : Document) (done carried : List (Nat × Patch)) :
    Prop where
  counterpart : ∀ a b, m.locate? a = some b → new.textAfter? carried b = old.textAfter? done a
  untouched : ∀ b, (∀ a, m.locate? a ≠ some b) → new.textAfter? carried b = new.textAfter? [] b

namespace Replay

variable {s : Replay} {old new : Document} {done carried : List (Nat × Patch)}

theorem reenacts_start (old new : Document) : (start old new).Reenacts old [] := by
  intro q
  simp only [start, List.getElem?_map, Document.page?]
  cases old.pages[q]? with
  | none => rfl
  | some p =>
    refine congrArg some (Prod.ext rfl ?_)
    exact (TracedPage.homes_ofPage p).symm

theorem tracks_start (old new : Document) : (start old new).Tracks old new [] [] := by
  refine ⟨reenacts_start old new, fun q => ?_⟩
  simp only [start, List.getElem?_map, Document.page?]
  cases new.pages[q]? with
  | none => rfl
  | some p => exact congrArg some (TracedPage.homes_ofPage p).symm

theorem initial?_homes (t : TracedPage) (row col : Nat) :
    ColumnTable.initial? t.homes row col = (t.cell? row col).map (·.home) := by
  simp only [ColumnTable.initial?, TracedPage.homes, TracedPage.cell?, List.getElem?_map]
  cases t[row]? with
  | none => rfl
  | some cells => simp

theorem edit_homes (t : TracedPage) (row col : Nat) (e : Edit) :
    ColumnTable.edit t.homes row col e = (t.edit row col e).homes := by
  rw [TracedPage.homes_edit]
  cases e with
  | replace text => exact (editGrid_replace_id _ _ _ text).symm
  | remove => rfl

theorem Reenacts.of_same (h : s.Reenacts old done) {done' : List (Nat × Patch)}
    (hsame : ∀ q p, old.page? q = some p →
      p.replay (patchesOn q done') = p.replay (patchesOn q done) ∧
      (TracedPage.ofPage p).replay (patchesOn q done') =
        (TracedPage.ofPage p).replay (patchesOn q done)) :
    s.Reenacts old done' := by
  intro q
  rw [h]
  cases hp : old.page? q with
  | none => rfl
  | some p =>
    obtain ⟨hpage, htrace⟩ := hsame q p hp
    rw [Option.map_some, Option.map_some, hpage, htrace]

theorem Reenacts.edit (h : s.Reenacts old done) {done' : List (Nat × Patch)}
    {page row col : Nat} {p : Page} {e : Edit} (hp : old.page? page = some p)
    (hpage : p.replay (patchesOn page done') = (p.replay (patchesOn page done)).edit row col e)
    (htrace : (TracedPage.ofPage p).replay (patchesOn page done') =
      ((TracedPage.ofPage p).replay (patchesOn page done)).edit row col e)
    (hother : ∀ q, q ≠ page → patchesOn q done' = patchesOn q done) :
    Reenacts { s with
      working := s.working.set page ((p.replay (patchesOn page done)).edit row col e,
        ColumnTable.edit ((TracedPage.ofPage p).replay (patchesOn page done)).homes row col e) }
      old done' := by
  intro q
  by_cases hq : q = page
  · subst hq
    have hworking := h q
    rw [hp] at hworking
    have hlt := (List.getElem?_eq_some_iff.mp hworking).1
    rw [List.getElem?_set_self hlt, hp, Option.map_some, hpage, htrace, edit_homes]
  · rw [List.getElem?_set_ne (Ne.symm hq), h, hother q hq]

theorem Tracks.edit_ahead (h : s.Tracks old new done carried) {carried' : List (Nat × Patch)}
    {page row col : Nat} {p : Page} {e : Edit} (hp : new.page? page = some p)
    (htrace : (TracedPage.ofPage p).replay (patchesOn page carried') =
      ((TracedPage.ofPage p).replay (patchesOn page carried)).edit row col e)
    (hother : ∀ q, q ≠ page → patchesOn q carried' = patchesOn q carried) :
    Tracks { s with
      ahead := s.ahead.set page
        (ColumnTable.edit ((TracedPage.ofPage p).replay (patchesOn page carried)).homes row col e) }
      old new done carried' := by
  refine ⟨h.working, fun q => ?_⟩
  by_cases hq : q = page
  · subst hq
    have hahead := h.ahead q
    rw [hp] at hahead
    have hlt := (List.getElem?_eq_some_iff.mp hahead).1
    rw [List.getElem?_set_self hlt, hp, Option.map_some, htrace, edit_homes]
  · rw [List.getElem?_set_ne (Ne.symm hq), h.ahead, hother q hq]

theorem redo_of_error {page : Nat} {patch : Patch} {p : Page} {columns : ColumnTable}
    {e : TableError}
    (hworking : s.working[page]? = some (p, columns)) (h : p.apply patch = .error e) :
    s.redo page patch = (none, s) := by
  rw [Replay.redo, hworking]
  simp only [h]
  cases p.cellAt? patch.row patch.col <;> rfl

theorem Reenacts.redo_skips (h : s.Reenacts old done) {page : Nat} {patch : Patch}
    (hnone : s.redo page patch = (none, s))
    (hsame : ∀ p, old.page? page = some p →
      p.replay (patchesOn page done ++ [patch]) = p.replay (patchesOn page done) ∧
        (TracedPage.ofPage p).replay (patchesOn page done ++ [patch]) =
          (TracedPage.ofPage p).replay (patchesOn page done)) :
    (s.redo page patch).2.Reenacts old (done ++ [(page, patch)]) ∧
      (s.redo page patch).1 = none ∧
        ∀ a, old.textAfter? (done ++ [(page, patch)]) a = old.textAfter? done a := by
  have hall : ∀ q p, old.page? q = some p →
      p.replay (patchesOn q (done ++ [(page, patch)])) = p.replay (patchesOn q done) ∧
        (TracedPage.ofPage p).replay (patchesOn q (done ++ [(page, patch)])) =
          (TracedPage.ofPage p).replay (patchesOn q done) := by
    intro q p hp
    by_cases hq : page = q
    · subst hq
      rw [patchesOn_concat_self]
      exact hsame p hp
    · rw [patchesOn_concat_of_ne hq]
      exact ⟨rfl, rfl⟩
  rw [hnone]
  exact ⟨h.of_same hall, rfl, old.textAfter?_congr fun q p hp => (hall q p hp).2⟩

/-- What one patch of the catalog does on the old revision. Either it edits a cell, which is
reported by its first column, or it does not apply and nothing changes. -/
theorem Reenacts.redo (h : s.Reenacts old done) (page : Nat) (patch : Patch) :
    (s.redo page patch).2.Reenacts old (done ++ [(page, patch)]) ∧
    ((∃ row home, (s.redo page patch).1 = some (row, home) ∧
        old.textAfter? done ⟨page, row, home⟩ = some patch.expected ∧
        ∀ a, old.textAfter? (done ++ [(page, patch)]) a =
          if a = ⟨page, row, home⟩ then patch.edit.left? else old.textAfter? done a) ∨
      ((s.redo page patch).1 = none ∧
        ∀ a, old.textAfter? (done ++ [(page, patch)]) a = old.textAfter? done a)) := by
  have hworking := h page
  cases hp : old.page? page with
  | none =>
    rw [hp] at hworking
    have hnone : s.redo page patch = (none, s) := by
      rw [Replay.redo, hworking]
      rfl
    refine (h.redo_skips hnone fun p hp' => ?_).imp_right .inr
    rw [hp] at hp'
    cases hp'
  | some p =>
    rw [hp] at hworking
    have hfollows := (TracedPage.Follows.ofPage p).replay (patchesOn page done)
    rcases TracedPage.apply_trace hfollows.texts patch with
      ⟨row, col, c, hat, hc, hexp, hok, ht, -⟩ | ⟨⟨e, herror⟩, ht⟩
    · have htrace : (TracedPage.ofPage p).replay (patchesOn page (done ++ [(page, patch)])) =
          ((TracedPage.ofPage p).replay (patchesOn page done)).edit row col patch.edit := by
        rw [patchesOn_concat_self, TracedPage.replay_append, ht]
        rfl
      have hpage : p.replay (patchesOn page (done ++ [(page, patch)])) =
          (p.replay (patchesOn page done)).edit row col patch.edit := by
        rw [patchesOn_concat_self, Page.replay_append, hok]
        rfl
      have hother (q : Nat) (hq : q ≠ page) :
          patchesOn q (done ++ [(page, patch)]) = patchesOn q done :=
        patchesOn_concat_of_ne (Ne.symm hq) done patch
      rw [Replay.redo, hworking]
      simp only [Option.map_some, hat, hok, initial?_homes, hc]
      refine ⟨h.edit hp hpage htrace hother,
        .inl ⟨row, c.home, rfl, ?_, old.textAfter?_edit hp hc htrace hother⟩⟩
      rw [Document.textAfter?, hp, ← hexp]
      exact hfollows.left.text?_home hc
    · refine (h.redo_skips (redo_of_error hworking herror) fun p' hp' => ?_).imp_right .inr
      obtain rfl := Option.some.inj (hp.symm.trans hp')
      rw [Page.replay_append, TracedPage.replay_append, herror, ht]
      exact ⟨rfl, rfl⟩

theorem ahead_redo (s : Replay) (page : Nat) (patch : Patch) :
    (s.redo page patch).2.ahead = s.ahead := by
  rw [Replay.redo]
  split
  · rfl
  · split <;> rfl

theorem Tracks.redo (h : s.Tracks old new done carried) (page : Nat) (patch : Patch) :
    (s.redo page patch).2.Tracks old new (done ++ [(page, patch)]) carried := by
  refine ⟨(h.working.redo page patch).1, fun q => ?_⟩
  rw [ahead_redo]
  exact h.ahead q

/-- What carrying a patch over does on the new revision, when its cell there is still
present with the expected text: the cell is found, and the patch applies to it. -/
theorem Tracks.follow {c : Catalog} (h : s.Tracks old new done c.entries) (hfits : c.Fits new)
    {b : Address} {patch : Patch} (hb : new.textAfter? c.entries b = some patch.expected) :
    ∃ col, (s.follow b patch.edit).1 = some ⟨b.page, b.row, col⟩ ∧
      (s.follow b patch.edit).2.Tracks old new done
      (c.push b.page (patch.movedTo b.row col)).entries ∧
      (c.push b.page (patch.movedTo b.row col)).Fits new ∧
      ∀ a, new.textAfter? (c.push b.page (patch.movedTo b.row col)).entries a =
        if a = b then patch.edit.left? else new.textAfter? c.entries a := by
  obtain ⟨p, hp, htext⟩ := Option.bind_eq_some_iff.mp hb
  obtain ⟨col, cell, hcol, hcell, hhome, hexp⟩ := TracedPage.exists_cell_of_text? htext
  have happlies := TracedPage.patched?_movedTo hcell hexp
  have hahead := h.ahead b.page
  rw [hp] at hahead
  have hpresent : ColumnTable.present? ((TracedPage.ofPage p).replay
      (patchesOn b.page c.entries)).homes b.row b.col = some col := hcol
  have hother (q : Nat) (hq : q ≠ b.page) :
      patchesOn q (c.push b.page (patch.movedTo b.row col)).entries = patchesOn q c.entries := by
    rw [Catalog.patchesOn_push, patchesOn_of_ne (Ne.symm hq), List.append_nil]
  have htrace : (TracedPage.ofPage p).replay
      (patchesOn b.page (c.push b.page (patch.movedTo b.row col)).entries) =
      ((TracedPage.ofPage p).replay (patchesOn b.page c.entries)).edit b.row col patch.edit := by
    rw [Catalog.patchesOn_push, patchesOn_self, TracedPage.replay_append, happlies]
    rfl
  refine ⟨col, ?_, ?_, hfits.push hp happlies, ?_⟩
  · rw [Replay.follow, hahead]
    simp only [Option.map_some, hpresent]
  · rw [Replay.follow, hahead]
    simp only [Option.map_some, hpresent]
    exact h.edit_ahead hp htrace hother
  · have hedit := new.textAfter?_edit hp hcell htrace hother
    rw [hhome] at hedit
    exact hedit

end Replay

namespace Matching

variable {hash : List UInt8 → UInt64} {m : Matching} {old new : Document}
  {done done' carried carried' : List (Nat × Patch)}

theorem inStep_start
    (hhash : ∀ a x b y, (a, x) ∈ old.cells → (b, y) ∈ new.cells →
      cellHash hash x.text = cellHash hash y.text →
      x.text = y.text) :
    (ofRevisions hash old new).InStep old new [] [] := by
  refine ⟨fun a b hab => ?_, fun _ _ => rfl⟩
  obtain ⟨x, y, hx, hy, heq⟩ := mem_cells_of_locate? hab
  obtain ⟨p, r, hp, hr, hxb⟩ := Document.mem_cells.mp hx
  obtain ⟨q, t, hq, ht, hyb⟩ := Document.mem_cells.mp hy
  rw [Document.textAfter?_nil hp hr hxb, Document.textAfter?_nil hq ht hyb, hhash a x b y hx hy heq]

theorem InStep.edit (h : m.InStep old new done carried) {a b : Address} {left : Option String}
    (hinj : ∀ a', m.locate? a' = some b → a' = a) (hab : m.locate? a = some b)
    (hold : ∀ x, old.textAfter? done' x = if x = a then left else old.textAfter? done x)
    (hnew : ∀ y, new.textAfter? carried' y = if y = b then left else new.textAfter? carried y) :
    m.InStep old new done' carried' := by
  constructor
  · intro a' b' hab'
    rw [hold, hnew]
    by_cases ha : a' = a
    · subst ha
      obtain rfl := Option.some.inj (hab.symm.trans hab')
      rw [if_pos rfl, if_pos rfl]
    · have hb : b' ≠ b := by
        rintro rfl
        exact ha (hinj a' hab')
      rw [if_neg ha, if_neg hb]
      exact h.counterpart a' b' hab'
  · intro b' hb'
    have hb : b' ≠ b := by
      rintro rfl
      exact hb' a hab
    rw [hnew, if_neg hb]
    exact h.untouched b' hb'

theorem InStep.skip (h : m.InStep old new done carried)
    (hold : ∀ a b, m.locate? a = some b → old.textAfter? done' a = old.textAfter? done a) :
    m.InStep old new done' carried := by
  refine ⟨fun a b hab => ?_, h.untouched⟩
  rw [hold a b hab]
  exact h.counterpart a b hab

end Matching

def Document.ofTexts (id : RevisionId) (rows : List (List String)) : Document where
  id := id
  pages := [{
    width := 0
    height := 0
    glyphs := #[]
    segments := #[]
    rows := Row.numbered (rows.map fun texts => {
      blocks := texts.map fun text => ⟨[], text, ⟨0, 0, 0, 0⟩, 0, .east, 0, 0⟩
      box := ⟨0, 0, 0, 0⟩ }) }]

namespace CarryOver

structure Invariant (hash : List UInt8 → UInt64) (old new : Document) (done : List (Nat × Patch))
    (s : Replay) (r : CarryOver) :
    Prop where
  tracks : s.Tracks old new done r.carried.entries
  fits : r.carried.Fits new
  inStep : (Matching.ofRevisions hash old new).InStep old new done r.carried.entries

variable {hash : List UInt8 → UInt64} {old new : Document}

theorem Invariant.step (hone : (Matching.ofRevisions hash old new).mapping.OneToOne)
    {done : List (Nat × Patch)} {s : Replay} {r : CarryOver} (h : Invariant hash old new done s r)
    (page : Nat) (patch : Patch) :
    Invariant hash old new (done ++ [(page, patch)])
      (s.carry (Matching.ofRevisions hash old new) page patch).2
      (r.add page patch (s.carry (Matching.ofRevisions hash old new) page patch).1) := by
  have htracks := h.tracks.redo page patch
  rcases (h.tracks.working.redo page patch).2 with ⟨row, home, hcell, hexp, hold⟩ | ⟨hnone, hold⟩
  · cases hlocate : (Matching.ofRevisions hash old new).locate? ⟨page, row, home⟩ with
    | none =>
      -- The old cell is edited, but no counterpart has to follow.
      have hcarry : s.carry (Matching.ofRevisions hash old new) page patch =
          (none, (s.redo page patch).2) := by
        simp only [Replay.carry, hcell, Option.bind_some, hlocate]
      rw [hcarry]
      refine ⟨htracks, h.fits, h.inStep.skip fun a b hab => ?_⟩
      rw [hold, if_neg]
      rintro rfl
      rw [hlocate] at hab
      cases hab
    | some b =>
      have hb := h.inStep.counterpart _ b hlocate
      rw [hexp] at hb
      obtain ⟨col, htarget, hahead, hfits, hnew⟩ := htracks.follow h.fits hb
      have hcarry : s.carry (Matching.ofRevisions hash old new) page patch =
          (s.redo page patch).2.follow b patch.edit := by
        simp only [Replay.carry, hcell, Option.bind_some, hlocate]
      rw [hcarry, htarget]
      refine ⟨hahead, hfits, h.inStep.edit (fun a' ha' => ?_) hlocate hold hnew⟩
      exact Matching.locate?_inj hone ha' hlocate
  · have hcarry : s.carry (Matching.ofRevisions hash old new) page patch =
        (none, (s.redo page patch).2) := by
      simp only [Replay.carry, hnone, Option.bind_none]
    rw [hcarry]
    exact ⟨htracks, h.fits, h.inStep.skip fun a _ _ => hold a⟩

theorem Invariant.run (hone : (Matching.ofRevisions hash old new).mapping.OneToOne)
    (entries : List (Nat × Patch)) {done : List (Nat × Patch)} {s : Replay} {r : CarryOver}
    (h : Invariant hash old new done s r) :
    let last := entries.foldl (fun ((s, r) : Replay × CarryOver) ((page, patch) : Nat × Patch) =>
      let (target, s) := s.carry (Matching.ofRevisions hash old new) page patch
      (s, r.add page patch target)) (s, r)
    Invariant hash old new (done ++ entries) last.1 last.2 := by
  induction entries generalizing done s r with
  | nil => simpa using h
  | cons entry rest ih =>
    obtain ⟨page, patch⟩ := entry
    have hrest := ih (h.step hone page patch)
    rw [List.append_assoc] at hrest
    exact hrest

/-- Carrying a catalog over simulates its replay on the old revision, patches that do not
apply there left out. What is carried over applies to the new revision as a whole.
Afterwards a counterpart is gone exactly if its cell is, and else holds what its cell
does; the other cells keep their texts; and the rows of both keep their order. -/
theorem simulates (hash : List UInt8 → UInt64) (old new : Document) (c : Catalog)
    (hid : c.document = old.id)
    (hhash : ∀ a x b y, (a, x) ∈ old.cells → (b, y) ∈ new.cells →
      cellHash hash x.text = cellHash hash y.text →
      x.text = y.text)
    (hone : (Matching.ofRevisions hash old new).mapping.OneToOne) :
    ∃ r, ofCatalog hash old new c = .ok r ∧
      new.apply r.carried = .ok (new.replay r.carried.entries) ∧
      (∀ a b, (Matching.ofRevisions hash old new).locate? a = some b →
        new.textAfter? r.carried.entries b = old.textAfter? c.entries a) ∧
      (∀ b y, (b, y) ∈ new.cells → (∀ a, (Matching.ofRevisions hash old new).locate? a ≠ some b) →
        new.textAfter? r.carried.entries b = some y.text) ∧
      old.RowsKeepOrder c.entries ∧ new.RowsKeepOrder r.carried.entries := by
  have hstart : Invariant hash old new [] (Replay.start old new) ⟨.empty new.id, .empty old.id⟩ :=
    ⟨Replay.tracks_start old new, .empty new, Matching.inStep_start hhash⟩
  have hrun := hstart.run hone c.entries
  rw [List.nil_append] at hrun
  refine ⟨_, by rw [ofCatalog, if_neg (not_not.mpr hid)], Document.apply_eq_ok hrun.fits,
    hrun.inStep.counterpart, fun b y hy hb => ?_, old.rowsKeepOrder _, new.rowsKeepOrder _⟩
  obtain ⟨p, r, hp, hr, hyb⟩ := Document.mem_cells.mp hy
  rw [hrun.inStep.untouched b hb]
  exact Document.textAfter?_nil hp hr hyb

/-- Two cells of a row, of which the first is taken out, stand in two rows afterwards. -/
theorem simulates_split_row :
    let old := Document.ofTexts ⟨"t", "c", "1"⟩ [["a", "b"]]
    let new := Document.ofTexts ⟨"t", "c", "2"⟩ [["b", "n"], ["a"]]
    let c := Catalog.ofEntries old.id
      [(0, ⟨0, 0, "a", .remove⟩), (0, ⟨0, 0, "x", .remove⟩), (0, ⟨0, -1, "b", .replace "B"⟩)]
    ∃ r, ofCatalog Word64.hash old new c = .ok r ∧
      new.textAfter? r.carried.entries ⟨0, 1, 0⟩ = none ∧
      new.textAfter? r.carried.entries ⟨0, 0, 0⟩ = some "B" ∧
      new.textAfter? r.carried.entries ⟨0, 0, 1⟩ = some "n" := by
  intro old new c
  have hhash : ∀ p ∈ old.cells, ∀ q ∈ new.cells,
    cellHash Word64.hash p.2.text = cellHash Word64.hash q.2.text →
      p.2.text = q.2.text := by
    decide +kernel
  have hone : (Matching.ofRevisions Word64.hash old new).mapping.OneToOne := by
    decide +kernel
  have hnew : ∀ p ∈ old.cells,
      (Matching.ofRevisions Word64.hash old new).locate? p.1 ≠ some ⟨0, 0, 1⟩ := by
    decide +kernel
  obtain ⟨r, hr, -, hcounterpart, huntouched, -⟩ := simulates Word64.hash old new c rfl
    (fun a x b y hx hy => hhash (a, x) hx (b, y) hy) hone
  refine ⟨r, hr, ?_, ?_, ?_⟩
  · rw [hcounterpart ⟨0, 0, 0⟩ _ (by decide +kernel)]
    decide +kernel
  · rw [hcounterpart ⟨0, 0, 1⟩ _ (by decide +kernel)]
    decide +kernel
  · refine huntouched ⟨0, 0, 1⟩ ⟨[], "n", ⟨0, 0, 0, 0⟩, 0, .east, 0, 1⟩ ?_ fun a ha => ?_
    · exact Document.mem_cells.mpr ⟨_, _, rfl, rfl, rfl⟩
    · obtain ⟨x, -, hx, -⟩ := Matching.mem_cells_of_locate? ha
      exact hnew (a, x) hx ha

end CarryOver

end GlyphTable
