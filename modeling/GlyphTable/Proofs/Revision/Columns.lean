import GlyphTable.Proofs.Revision.Simulation

/-!
# Column tables belong to their pages

While patches are replayed on the pages of the old revision, the table of columns beside a page is
changed by other code than the page is. Still it tells of every cell that is left where that stood
first, so that a patch that applies is always reported with the cell it edits
(`Replay.columns_mirror`).
-/

namespace GlyphTable

-- ---------------------------------------------------------------------------
-- Cells that stand where the table says
-- ---------------------------------------------------------------------------

section

variable {α β : Type}

def gridGet? (rows : List (List α)) (row col : Nat) : Option α :=
  (rows[row]?).bind (·[col]?)

theorem gridGet?_map (f : α → β) (rows : List (List α)) (row col : Nat) :
    gridGet? (rows.map (·.map f)) row col = (gridGet? rows row col).map f := by
  simp only [gridGet?, List.getElem?_map]
  cases rows[row]? with
  | none => rfl
  | some cells => exact List.getElem?_map

theorem gridGet?_remove (write : String → α → α) (rows : List (List α)) (row col i j : Nat) :
    gridGet? (editGrid write rows row col .remove) i j =
      if row = i ∧ col ≤ j then gridGet? rows i (j + 1) else gridGet? rows i j := by
  simp only [gridGet?, editGrid, List.getElem?_modify]
  by_cases hrow : row = i
  · subst hrow
    cases rows[row]? with
    | none => simp
    | some cells =>
      by_cases hcol : col ≤ j
      · simp [List.getElem?_eraseIdx, hcol, Nat.not_lt.mpr hcol]
      · simp [List.getElem?_eraseIdx, hcol, Nat.lt_of_not_le hcol]
  · cases rows[i]? <;> simp [hrow]

end

def Block.fixed (b : Block) : Block :=
  { b with text := "", col := 0 }

theorem Block.eq_of_fixed_eq {b c : Block} (h : b.fixed = c.fixed) :
    b = { c with text := b.text, col := b.col } := by
  cases b
  cases c
  simp only [fixed, Block.mk.injEq] at h
  simp [h]

namespace Page

def cell? (p : Page) (row col : Nat) : Option Block :=
  gridGet? (p.rows.map (·.blocks)) row col

theorem cell?_eq_some {p : Page} {row col : Nat} {b : Block} (h : p.cell? row col = some b) :
    ∃ r, p.rows[row]? = some r ∧ r.blocks[col]? = some b := by
  rw [cell?, gridGet?, List.getElem?_map] at h
  obtain ⟨cells, hcells, hb⟩ := Option.bind_eq_some_iff.mp h
  obtain ⟨r, hr, rfl⟩ := Option.map_eq_some_iff.mp hcells
  exact ⟨r, hr, hb⟩

def fixed (p : Page) : List (List Block) :=
  p.rows.map (·.blocks.map Block.fixed)

theorem gridGet?_fixed (p : Page) (row col : Nat) :
    gridGet? p.fixed row col = (p.cell? row col).map Block.fixed := by
  rw [cell?, ← gridGet?_map, List.map_map]
  rfl

theorem fixed_edit (p : Page) (row col : Nat) (e : Edit) :
    (p.edit row col e).fixed = editGrid (fun _ b => b) p.fixed row col e := by
  cases e with
  | replace text =>
    have hsame (b : Block) : Block.fixed { b with text } = id b.fixed := rfl
    exact map_modify (fun r => map_modify hsame r.blocks col) p.rows row
  | remove => exact map_modify (fun r => r.map_removeAt (fun _ _ => rfl) col) p.rows row

end Page

/-- Whether each cell of the page is that of `first` whose column the table holds for it. -/
def ColumnTable.Leads (columns : ColumnTable) (first now : Page) : Prop :=
  ∀ row col, gridGet? now.fixed row col =
    (columns.initial? row col).bind (gridGet? first.fixed row ·)

namespace ColumnTable

variable {columns : ColumnTable} {first now : Page}

theorem leads_ofPage (p : Page) : (ofPage p).Leads p p := by
  intro row col
  simp only [initial?, ofPage, gridGet?, Page.fixed, List.getElem?_map]
  cases p.rows[row]? with
  | none => rfl
  | some r =>
    by_cases hcol : col < r.length
    · simp [List.getElem?_range hcol]
    · have hnone : r.blocks[col]? = none := List.getElem?_eq_none (Nat.le_of_not_lt hcol)
      simp [hcol, hnone]

theorem Leads.edit (h : columns.Leads first now) (row col : Nat) (e : Edit) :
    (columns.edit row col e).Leads first (now.edit row col e) := by
  intro i j
  rw [now.fixed_edit]
  cases e with
  | replace text =>
    rw [editGrid_replace_id]
    exact h i j
  | remove =>
    have hcolumns : (columns.edit row col .remove).initial? i j = _ :=
      gridGet?_remove (fun _ home => home) columns row col i j
    rw [gridGet?_remove, hcolumns]
    split
    · exact h i (j + 1)
    · exact h i j

theorem initial?_eq_some {row col home : Nat} (h : columns.initial? row col = some home) :
    ∃ cols, columns[row]? = some cols ∧ cols[col]? = some home :=
  Option.bind_eq_some_iff.mp h

theorem present?_of_initial? (hascending : ∀ cols ∈ columns, cols.Pairwise (· < ·))
    {row col home : Nat}
    (h : columns.initial? row col = some home) : columns.present? row home = some col := by
  obtain ⟨cols, hrow, hcol⟩ := initial?_eq_some h
  obtain ⟨hlt, rfl⟩ := List.getElem?_eq_some_iff.mp hcol
  rw [present?, hrow]
  refine List.findIdx?_eq_some_iff_getElem.mpr ⟨hlt, decide_eq_true rfl, fun j hj => ?_⟩
  have hless := List.pairwise_iff_getElem.mp (hascending cols (List.mem_of_getElem? hrow)) j col
    (hj.trans hlt) hlt hj
  simpa using hless.ne

theorem initial?_of_present? {row col home : Nat} (h : columns.present? row home = some col) :
    columns.initial? row col = some home := by
  obtain ⟨cols, hrow, hcol⟩ := Option.bind_eq_some_iff.mp h
  obtain ⟨hlt, hhome, -⟩ := List.findIdx?_eq_some_iff_getElem.mp hcol
  rw [initial?, hrow, Option.bind_some, List.getElem?_eq_getElem hlt, of_decide_eq_true hhome]

end ColumnTable

-- ---------------------------------------------------------------------------
-- Traces
-- ---------------------------------------------------------------------------

namespace TracedPage

variable {t : TracedPage} {first now : Page}

theorem Follows.row_lengths (h : t.Follows now first) :
    t.homes.map List.length = now.rows.map Row.length := by
  have hlengths := congrArg (List.map List.length) h.texts
  simp only [TracedPage.texts, Page.texts, List.map_map] at hlengths
  simp only [homes, List.map_map]
  refine Eq.trans (List.map_congr_left fun cells _ => ?_)
    (hlengths.trans (List.map_congr_left fun r _ => ?_))
  · simp only [Function.comp_apply, List.length_map]
  · exact List.length_map _

theorem Follows.ascending (h : t.Follows now first) : ∀ cols ∈ t.homes, cols.Pairwise (· < ·) := by
  intro cols hcols
  obtain ⟨row, hrow⟩ := List.mem_iff_getElem?.mp hcols
  have hlt : row < first.rows.length := by
    rw [← h.left.length, ← length_homes]
    exact (List.getElem?_eq_some_iff.mp hrow).1
  exact List.pairwise_lt_range.sublist
    (h.left.inOrder row cols _ hrow (List.getElem?_eq_getElem hlt))

theorem LeftOf.present?_eq_none_iff (h : t.LeftOf first) {row home : Nat} :
    ColumnTable.present? t.homes row home = none ↔ t.text? row home = none := by
  constructor
  · intro hnone
    by_contra hsome
    obtain ⟨text, htext⟩ := Option.ne_none_iff_exists'.mp hsome
    obtain ⟨col, -, hcol, -⟩ := exists_cell_of_text? htext
    have hpresent : ColumnTable.present? t.homes row home = some col := hcol
    rw [hnone] at hpresent
    cases hpresent
  · intro hnone
    by_contra hsome
    obtain ⟨col, hcol⟩ := Option.ne_none_iff_exists'.mp hsome
    have hinitial := ColumnTable.initial?_of_present? hcol
    rw [Replay.initial?_homes] at hinitial
    obtain ⟨c, hc, rfl⟩ := Option.map_eq_some_iff.mp hinitial
    rw [h.text?_home hc] at hnone
    cases hnone

theorem Follows.cell? (h : t.Follows now first) {row col : Nat} {b : Block}
    (hb : now.cell? row col = some b) :
    ∃ c, t.cell? row col = some c ∧ c.text = b.text := by
  have htext : (t.cell? row col).map TracedCell.text = (now.cell? row col).map Block.text := by
    have hsame := congrArg (gridGet? · row col) h.texts
    have hnow : now.texts = (now.rows.map (·.blocks)).map (·.map Block.text) := by
      rw [List.map_map]
      rfl
    simp only [TracedPage.texts, hnow, gridGet?_map] at hsame
    exact hsame
  rw [hb] at htext
  exact Option.map_eq_some_iff.mp htext

theorem leads_replay (p : Page) (patches : List Patch) :
    ColumnTable.Leads ((ofPage p).replay patches).homes p (p.replay patches) := by
  induction patches using List.reverseRecOn with
  | nil =>
    have hleads := ColumnTable.leads_ofPage p
    rwa [ColumnTable.ofPage, ← homes_ofPage] at hleads
  | append_singleton patches patch ih =>
    have hfollows := (Follows.ofPage p).replay patches
    rw [Page.replay_append, replay_append]
    rcases apply_trace hfollows.texts patch with
      ⟨row, col, c, -, -, -, hok, ht, -⟩ | ⟨⟨e, herror⟩, ht⟩
    · rw [hok, ht]
      have hleads := ih.edit row col patch.edit
      rwa [Replay.edit_homes] at hleads
    · rw [herror, ht]
      exact ih

end TracedPage

-- ---------------------------------------------------------------------------
-- Reported edits
-- ---------------------------------------------------------------------------

/-- What edits leave in the cell that stood at an address first and held a text, if it was there. -/
def textLeft? (a : Address) (text : Option String) (edits : List (Address × Edit)) :
    Option String :=
  edits.foldl (fun text (b, e) => if b = a then e.left? else text) text

namespace Replay

variable {s : Replay} {old : Document} {done : List (Nat × Patch)}

def redoAll (s : Replay) (entries : List (Nat × Patch)) : Replay :=
  entries.foldl (fun s (page, patch) => (s.redo page patch).2) s

/-- The edits of patches that are replayed in turn, each with the cell that is reported for it. -/
def edits (s : Replay) : List (Nat × Patch) → List (Address × Edit)
  | [] => []
  | (page, patch) :: rest =>
    let later := (s.redo page patch).2.edits rest
    match (s.redo page patch).1 with
    | some (row, home) => (⟨page, row, home⟩, patch.edit) :: later
    | none => later

theorem Reenacts.redoAll (h : s.Reenacts old done) (entries : List (Nat × Patch)) :
    (s.redoAll entries).Reenacts old (done ++ entries) ∧
      ∀ a, old.textAfter? (done ++ entries) a =
      textLeft? a (old.textAfter? done a) (s.edits entries) := by
  induction entries generalizing s done with
  | nil =>
    rw [List.append_nil]
    exact ⟨h, fun _ => rfl⟩
  | cons entry rest ih =>
    obtain ⟨page, patch⟩ := entry
    obtain ⟨hnext, hreport⟩ := h.redo page patch
    obtain ⟨hlast, htexts⟩ := ih hnext
    rw [List.append_assoc, List.singleton_append] at hlast htexts
    refine ⟨hlast, fun a => ?_⟩
    rw [htexts, Replay.edits]
    rcases hreport with ⟨row, home, hcell, -, hedit⟩ | ⟨hnone, hsame⟩
    · simp only [hcell, hedit, textLeft?, List.foldl_cons, eq_comm (a := a)]
    · simp only [hnone, hsame]

end Replay

-- ---------------------------------------------------------------------------
-- Pages and their tables
-- ---------------------------------------------------------------------------

structure ColumnTable.Mirrors (columns : ColumnTable) (page : Nat) (first now : Page)
    (edits : List (Address × Edit)) : Prop where
  row_lengths : columns.map List.length = now.rows.map Row.length
  ascending : ∀ cols ∈ columns, cols.Pairwise (· < ·)
  /-- The cell that stands somewhere is the one that the table leads back to, with the text that the
  edits reported for it have left. -/
  cell : ∀ row col b, now.cell? row col = some b → ∃ home c, columns.initial? row col = some home ∧
    columns.present? row home = some col ∧ first.cell? row home = some c ∧
    b = { c with text := b.text, col := b.col } ∧
    textLeft? ⟨page, row, home⟩ (some c.text) edits = some b.text
  /-- A cell is gone exactly if an edit reported for it has taken it out. -/
  gone : ∀ row home c, first.cell? row home = some c →
    (columns.present? row home = none ↔ textLeft? ⟨page, row, home⟩ (some c.text) edits = none)

structure Replay.Reports (s : Replay) (page : Nat) (now : Page) (columns : ColumnTable)
    (patch : Patch) :
    Prop where
  none_iff : (s.redo page patch).1 = none ↔ ∃ e, now.apply patch = .error e
  of_ok : ∀ edited, now.apply patch = .ok edited → ∃ row col home,
    now.cellAt? patch.row patch.col = some (row, col) ∧ columns.initial? row col = some home ∧
    (s.redo page patch).1 = some (row, home)

theorem Replay.reports_of_follows {s : Replay} {page : Nat} {first now : Page} {t : TracedPage}
    (h : t.Follows now first) (hworking : s.working[page]? = some (now, t.homes)) (patch : Patch) :
    s.Reports page now t.homes patch := by
  rcases TracedPage.apply_trace h.texts patch with
    ⟨row, col, c, hat, hc, -, hok, -, -⟩ | ⟨⟨e, herror⟩, -⟩
  · have hinitial : ColumnTable.initial? t.homes row col = some c.home := by
      rw [Replay.initial?_homes, hc]
      rfl
    have hreport : (s.redo page patch).1 = some (row, c.home) := by
      rw [Replay.redo, hworking]
      simp only [hat, hok, hinitial, Option.map_some]
    refine ⟨iff_of_false (by simp [hreport]) ?_,
      fun _ _ => ⟨row, col, c.home, hat, hinitial, hreport⟩⟩
    rintro ⟨e, herror⟩
    rw [hok] at herror
    cases herror
  · refine ⟨iff_of_true ?_ ⟨e, herror⟩, fun edited hok => ?_⟩
    · rw [redo_of_error hworking herror]
    · rw [herror] at hok
      cases hok

theorem TracedPage.Follows.mirrors {t : TracedPage} {page : Nat} {first now : Page}
    {edits : List (Address × Edit)} (h : t.Follows now first)
    (hleads : ColumnTable.Leads t.homes first now)
    (htexts : ∀ row home c, first.cell? row home = some c →
      t.text? row home = textLeft? ⟨page, row, home⟩ (some c.text) edits) :
    ColumnTable.Mirrors t.homes page first now edits := by
  refine ⟨h.row_lengths, h.ascending, fun row col b hb => ?_, fun row home c hc => ?_⟩
  · obtain ⟨cell, hcell, htext⟩ := h.cell? hb
    have hinitial : ColumnTable.initial? t.homes row col = some cell.home := by
      rw [Replay.initial?_homes, hcell]
      rfl
    have hfixed := hleads row col
    rw [now.gridGet?_fixed, hb, hinitial, Option.bind_some, first.gridGet?_fixed] at hfixed
    obtain ⟨c, hc, heq⟩ := Option.map_eq_some_iff.mp hfixed.symm
    refine ⟨cell.home, c, hinitial, ColumnTable.present?_of_initial? h.ascending hinitial, hc,
      Block.eq_of_fixed_eq heq.symm, ?_⟩
    rw [← htexts row cell.home c hc, h.left.text?_home hcell, htext]
  · rw [← htexts row home c hc]
    exact h.left.present?_eq_none_iff

namespace Replay

/-- After any patches on the old revision, the table beside a page tells which cells are left in it,
where they stood first, and where they stand; and each patch that applies is reported. -/
theorem columns_mirror (old new : Document) (page : Nat) {first : Page}
    (h : old.page? page = some first)
    (entries : List (Nat × Patch)) :
    ∃ columns, ((start old new).redoAll entries).working[page]? =
        some (first.replay (patchesOn page entries), columns) ∧
      columns.Mirrors page first (first.replay (patchesOn page entries))
      ((start old new).edits entries) ∧
      ∀ patch, ((start old new).redoAll entries).Reports page
      (first.replay (patchesOn page entries))
        columns patch := by
  obtain ⟨hreenacts, htexts⟩ := (reenacts_start old new).redoAll entries
  have hworking := hreenacts page
  rw [h, Option.map_some, List.nil_append] at hworking
  have hfollows := (TracedPage.Follows.ofPage first).replay (patchesOn page entries)
  refine ⟨_, hworking, hfollows.mirrors (TracedPage.leads_replay first _) fun row home c hc => ?_,
    reports_of_follows hfollows hworking⟩
  obtain ⟨r, hr, hb⟩ := Page.cell?_eq_some hc
  have htext := htexts ⟨page, row, home⟩
  rwa [List.nil_append, Document.textAfter?_nil h hr hb, Document.textAfter?, h] at htext

/-- A row that loses its first cell and keeps the others, and one that is left without cells, while
two patches do not apply. -/
theorem columns_mirror_emptied_row :
    let old := Document.ofTexts ⟨"t", "c", "1"⟩ [["a", "b", "c"], ["x"]]
    let new := Document.ofTexts ⟨"t", "c", "2"⟩ []
    let entries : List (Nat × Patch) := [(0, ⟨0, 0, "a", .remove⟩), (0, ⟨0, 2, "c", .remove⟩),
      (0, ⟨0, -1, "c", .replace "C"⟩), (0, ⟨-1, 0, "x", .remove⟩), (0, ⟨-1, 0, "x", .remove⟩)]
    ∃ first columns, old.page? 0 = some first ∧ columns = [[1, 2], []] ∧
      (first.replay (patchesOn 0 entries)).texts = [["b", "C"], []] ∧
      ColumnTable.Mirrors columns 0 first (first.replay (patchesOn 0 entries))
        ((start old new).edits entries) := by
  intro old new entries
  have hcolumns : (((start old new).redoAll entries).working[0]?).map
      (fun (now, columns) => (now.texts, columns)) = some ([["b", "C"], []], [[1, 2], []]) := by
    decide +kernel
  obtain ⟨columns, hworking, hmirrors, -⟩ := columns_mirror old new 0 rfl entries
  rw [hworking] at hcolumns
  obtain ⟨htexts, hcolumns⟩ := Prod.mk.inj (Option.some.inj hcolumns)
  exact ⟨_, columns, rfl, hcolumns, htexts, hmirrors⟩

end Replay

end GlyphTable
