import Mathlib
import GlyphTable.Page.Patching

/-!
# Following cells through patches

Removals move the cells behind them, so an address does not tell which cell it was at
first. A traced page keeps that: each cell goes with the column it had to begin with.
Patching a page and patching its trace agree (`apply_trace`), and an edit changes the
text of one traced cell only (`TracedPage.text?_edit`).
-/

namespace GlyphTable

theorem bind_eq_ok {ε α β : Type} {x : Except ε α} {f : α → Except ε β} {b : β} :
    x >>= f = .ok b ↔ ∃ a, x = .ok a ∧ f a = .ok b := by
  cases x <;> simp [bind, Except.bind]

theorem foldlM_cons_eq_ok {ε σ α : Type} {step : σ → α → Except ε σ} {a : α} {l : List α}
    {s t : σ} : (a :: l).foldlM step s = .ok t ↔
      ∃ u, step s a = .ok u ∧ l.foldlM step u = .ok t := by
  rw [List.foldlM_cons, bind_eq_ok]

-- ---------------------------------------------------------------------------
-- Patching a table of anything
-- ---------------------------------------------------------------------------

section

variable {α β : Type}

def gridAt? (rows : List (List α)) (row col : Int) : Option (Nat × Nat) := do
  let i ← position? row rows.length
  let r ← rows[i]?
  let j ← position? col r.length
  return (i, j)

def editGrid (write : String → α → α) (rows : List (List α)) (row col : Nat) :
    Edit → List (List α)
  | .replace text => rows.modify row (·.modify col (write text))
  | .remove => rows.modify row (·.eraseIdx col)

theorem gridAt?_map (f : α → β) (rows : List (List α)) (row col : Int) :
    gridAt? (rows.map (·.map f)) row col = gridAt? rows row col := by
  simp only [gridAt?, List.length_map, List.getElem?_map]
  cases position? row rows.length with
  | none => rfl
  | some i => cases hi : rows[i]? <;> simp [hi]

theorem map_modify {f : α → α} {g : α → β} {f' : β → β} (h : ∀ a, g (f a) = f' (g a))
    (l : List α) (i : Nat) : (l.modify i f).map g = (l.map g).modify i f' := by
  induction l generalizing i with
  | nil => simp
  | cons a l ih => cases i <;> simp [h, ih]

theorem editGrid_map {f : α → β} {write : String → α → α} {write' : String → β → β}
    (h : ∀ text a, f (write text a) = write' text (f a)) (rows : List (List α)) (row col : Nat)
    (e : Edit) :
    (editGrid write rows row col e).map (·.map f) =
      editGrid write' (rows.map (·.map f)) row col e := by
  cases e with
  | replace text => exact map_modify (fun cells => map_modify (h text) cells col) rows row
  | remove => exact map_modify (fun cells => (List.eraseIdx_map f cells col).symm) rows row

theorem editGrid_replace_id (rows : List (List α)) (row col : Nat) (text : String) :
    editGrid (fun _ a => a) rows row col (.replace text) = rows := by
  have hcells : (fun cells : List α => cells.modify col fun a => a) = id :=
    funext fun cells => List.modify_id col cells
  rw [editGrid, hcells, List.modify_id]

theorem gridAt?_eq_some {rows : List (List α)} {row col : Int} {i j : Nat}
    (h : gridAt? rows row col = some (i, j)) :
    ∃ cells a, rows[i]? = some cells ∧ cells[j]? = some a := by
  simp only [gridAt?, Option.bind_eq_bind, Option.bind_eq_some_iff, Option.pure_def,
    Option.some.injEq, Prod.mk.injEq] at h
  obtain ⟨i, -, cells, hcells, j, hj, rfl, rfl⟩ := h
  have hlt := position?_lt hj
  exact ⟨cells, cells[j], hcells, List.getElem?_eq_getElem hlt⟩

theorem gridAt?_natCast {rows : List (List α)} {i j : Nat} {cells : List α} {a : α}
    (hi : rows[i]? = some cells) (hj : cells[j]? = some a) : gridAt? rows i j = some (i, j) := by
  have hilt := (List.getElem?_eq_some_iff.mp hi).1
  have hjlt := (List.getElem?_eq_some_iff.mp hj).1
  simp [gridAt?, position?_natCast hilt, hi, position?_natCast hjlt]

theorem Row.map_removeAt {g : Block → β} (hg : ∀ b col, g { b with col } = g b)
    (r : Row) (col : Nat) :
    (r.removeAt col).blocks.map g = (r.blocks.map g).eraseIdx col := by
  have hmap (l : List Block) :
      (l.map fun b => { b with col := wordBefore b.col }).map g = l.map g := by
    simp [Function.comp_def, hg]
  rw [Row.removeAt, List.map_append, hmap, List.map_take, List.map_drop,
    List.eraseIdx_eq_take_drop_succ]

theorem Row.texts_removeAt (r : Row) (col : Nat) : (r.removeAt col).texts = r.texts.eraseIdx col :=
  r.map_removeAt (fun _ _ => rfl) col

end

namespace Page

def texts (p : Page) : List (List String) :=
  p.rows.map Row.texts

theorem cellAt?_eq (p : Page) (row col : Int) : p.cellAt? row col = gridAt? p.texts row col := by
  simp only [gridAt?, cellAt?, texts, List.length_map, List.getElem?_map]
  cases position? row p.rows.length with
  | none => rfl
  | some i => cases hi : p.rows[i]? <;> simp [hi, Row.length, Row.texts]

theorem text?_eq {p : Page} {row col : Int} {i j : Nat} (h : p.cellAt? row col = some (i, j)) :
    p.text? row col = p.texts[i]?.bind (·[j]?) := by
  simp only [text?, block?, h, texts, Option.bind_eq_bind, Option.bind_some, List.getElem?_map]
  cases hi : p.rows[i]? <;> simp [Row.texts]

theorem texts_edit (p : Page) (row col : Nat) (e : Edit) :
    (p.edit row col e).texts = editGrid (fun text _ => text) p.texts row col e := by
  cases e with
  | replace text =>
    exact map_modify (fun r => map_modify (g := Block.text) (fun _ => rfl) r.blocks col) p.rows row
  | remove => exact map_modify (fun r => r.texts_removeAt col) p.rows row

end Page

-- ---------------------------------------------------------------------------
-- Traced pages
-- ---------------------------------------------------------------------------

/-- A cell by the column it had first and the text it has now. -/
structure TracedCell where
  home : Nat
  text : String

abbrev TracedPage := List (List TracedCell)

def Edit.left? : Edit → Option String
  | .replace text => some text
  | .remove => none

namespace TracedPage

def ofPage (p : Page) : TracedPage :=
  p.rows.map fun r => r.blocks.zipIdx.map fun (b, col) => ⟨col, b.text⟩

def texts (t : TracedPage) : List (List String) :=
  t.map (·.map (·.text))

def edit (t : TracedPage) (row col : Nat) (e : Edit) : TracedPage :=
  editGrid (fun text c => { c with text }) t row col e

def cell? (t : TracedPage) (row col : Nat) : Option TracedCell :=
  (t[row]?).bind (·[col]?)

def patched? (t : TracedPage) (patch : Patch) : Option TracedPage :=
  (gridAt? t patch.row patch.col).bind fun (row, col) =>
    (t.cell? row col).bind fun c =>
      if c.text = patch.expected then some (t.edit row col patch.edit) else none

def textIn? (cells : List TracedCell) (home : Nat) : Option String :=
  (cells.find? (·.home = home)).map (·.text)

def text? (t : TracedPage) (row home : Nat) : Option String :=
  (t[row]?).bind (textIn? · home)

theorem texts_ofPage (p : Page) : (ofPage p).texts = p.texts := by
  simp only [texts, ofPage, Page.texts, List.map_map]
  refine List.map_congr_left fun r _ => ?_
  simp only [Function.comp_apply, List.map_map, Row.texts]
  conv_rhs => rw [← List.zipIdx_map_fst 0 r.blocks, List.map_map]
  rfl

theorem texts_edit (t : TracedPage) (row col : Nat) (e : Edit) :
    (t.edit row col e).texts = editGrid (fun text _ => text) t.texts row col e :=
  editGrid_map (f := TracedCell.text) (fun _ _ => rfl) t row col e

def homes (t : TracedPage) : List (List Nat) :=
  t.map (·.map (·.home))

@[simp] theorem length_homes (t : TracedPage) : t.homes.length = t.length :=
  List.length_map _

theorem homes_ofPage (p : Page) : (ofPage p).homes = p.rows.map fun r => List.range r.length := by
  simp only [homes, ofPage, List.map_map]
  refine List.map_congr_left fun r _ => ?_
  simp only [Function.comp_apply, List.map_map, Row.length]
  rw [List.range_eq_range', ← List.zipIdx_map_snd 0 r.blocks]
  rfl

theorem homes_edit (t : TracedPage) (row col : Nat) (e : Edit) :
    (t.edit row col e).homes = editGrid (fun _ home => home) t.homes row col e :=
  editGrid_map (f := TracedCell.home) (fun _ _ => rfl) t row col e

theorem cell?_eq_some {t : TracedPage} {row col : Nat} {c : TracedCell}
    (h : t.cell? row col = some c) : ∃ cells, t[row]? = some cells ∧ cells[col]? = some c :=
  Option.bind_eq_some_iff.mp h

theorem apply_trace {t : TracedPage} {p : Page} (h : t.texts = p.texts) (patch : Patch) :
    (∃ row col c, p.cellAt? patch.row patch.col = some (row, col) ∧ t.cell? row col = some c ∧
      c.text = patch.expected ∧ p.apply patch = .ok (p.edit row col patch.edit) ∧
      t.patched? patch = some (t.edit row col patch.edit) ∧
      (t.edit row col patch.edit).texts = (p.edit row col patch.edit).texts) ∨
    ((∃ e, p.apply patch = .error e) ∧ t.patched? patch = none) := by
  have hat : p.cellAt? patch.row patch.col = gridAt? t patch.row patch.col := by
    rw [p.cellAt?_eq, ← h]
    exact gridAt?_map TracedCell.text t _ _
  cases hcell : gridAt? t patch.row patch.col with
  | none =>
    rw [hcell] at hat
    exact .inr ⟨⟨_, by rw [Page.apply, hat]⟩, by rw [patched?, hcell]; rfl⟩
  | some place =>
    obtain ⟨row, col⟩ := place
    rw [hcell] at hat
    obtain ⟨cells, c, hrow, hcol⟩ := gridAt?_eq_some hcell
    have hc : t.cell? row col = some c := by rw [cell?, hrow]; exact hcol
    have htext : p.text? patch.row patch.col = some c.text := by
      rw [Page.text?_eq hat, ← h]
      simp [texts, hrow, hcol]
    by_cases hexp : c.text = patch.expected
    · refine .inl ⟨row, col, c, hat, hc, hexp, ?_, ?_, ?_⟩
      · simp [Page.apply, hat, htext, hexp]
      · simp [patched?, hcell, hc, hexp]
      · rw [texts_edit, Page.texts_edit, h]
    · refine .inr ⟨⟨.textMismatch patch.row patch.col patch.expected c.text, ?_⟩, ?_⟩
      · simp [Page.apply, hat, htext, hexp]
      · simp [patched?, hcell, hc, hexp]

theorem patched?_movedTo {t : TracedPage} {row col : Nat} {c : TracedCell} {patch : Patch}
    (hc : t.cell? row col = some c) (hexp : c.text = patch.expected) :
    t.patched? (patch.movedTo row col) = some (t.edit row col patch.edit) := by
  obtain ⟨cells, hrow, hcol⟩ := cell?_eq_some hc
  simp [patched?, Patch.movedTo, gridAt?_natCast hrow hcol, hc, hexp]

-- ---------------------------------------------------------------------------
-- Cells keep their order
-- ---------------------------------------------------------------------------

/-- What is left of `p`: all of its rows, and in each some of its cells in the order they
had. -/
structure LeftOf (t : TracedPage) (p : Page) : Prop where
  length : t.length = p.rows.length
  inOrder : ∀ (row : Nat) (homes : List Nat) (r : Row), t.homes[row]? = some homes →
    p.rows[row]? = some r → homes.Sublist (List.range r.length)

theorem LeftOf.ofPage (p : Page) : (ofPage p).LeftOf p := by
  refine ⟨List.length_map _, fun row homes r hhomes hr => ?_⟩
  rw [homes_ofPage, List.getElem?_map, hr] at hhomes
  obtain rfl := Option.some.inj hhomes
  exact .refl _

theorem LeftOf.edit {t : TracedPage} {p : Page} (h : t.LeftOf p) (row col : Nat) (e : Edit) :
    (t.edit row col e).LeftOf p := by
  constructor
  · rw [← length_homes, homes_edit, ← h.length, ← length_homes]
    cases e <;> exact List.length_modify ..
  · intro i homes r hhomes hr
    rw [homes_edit] at hhomes
    cases e with
    | replace text =>
      rw [editGrid_replace_id] at hhomes
      exact h.inOrder i homes r hhomes hr
    | remove =>
      rw [editGrid, List.getElem?_modify] at hhomes
      obtain ⟨before, hbefore, rfl⟩ := Option.map_eq_some_iff.mp hhomes
      have hsub := h.inOrder i before r hbefore hr
      split
      · exact (List.eraseIdx_sublist before col).trans hsub
      · exact hsub

theorem LeftOf.nodup {t : TracedPage} {p : Page} (h : t.LeftOf p) {row : Nat}
    {cells : List TracedCell} (hcells : t[row]? = some cells) : (cells.map (·.home)).Nodup := by
  have hrow : row < p.rows.length := h.length ▸ (List.getElem?_eq_some_iff.mp hcells).1
  refine (h.inOrder row _ _ ?_ (List.getElem?_eq_getElem hrow)).nodup List.nodup_range
  rw [homes, List.getElem?_map, hcells]
  rfl

-- ---------------------------------------------------------------------------
-- What an edit changes
-- ---------------------------------------------------------------------------

theorem textIn?_cons (c : TracedCell) (cells : List TracedCell) (home : Nat) :
    textIn? (c :: cells) home = if c.home = home then some c.text else textIn? cells home := by
  rw [textIn?, List.find?_cons]
  by_cases h : c.home = home <;> simp [h, textIn?]

theorem textIn?_eq_none {cells : List TracedCell} {home : Nat}
    (h : home ∉ cells.map (·.home)) : textIn? cells home = none := by
  rw [textIn?, Option.map_eq_none_iff, List.find?_eq_none]
  intro c hc heq
  exact h (List.mem_map.mpr ⟨c, hc, by simpa using heq⟩)

theorem textIn?_modify {cells : List TracedCell} {col : Nat} {c : TracedCell}
    (hnodup : (cells.map (·.home)).Nodup) (hc : cells[col]? = some c) (text : String) (home : Nat) :
    textIn? (cells.modify col ({ · with text })) home =
      if home = c.home then some text else textIn? cells home := by
  induction cells generalizing col with
  | nil => cases hc
  | cons d cells ih =>
    obtain ⟨hd, hnodup⟩ := List.nodup_cons.mp hnodup
    cases col with
    | zero =>
      obtain rfl := Option.some.inj hc
      rw [List.modify_zero_cons, textIn?_cons, textIn?_cons]
      by_cases h : home = d.home
      · simp [h]
      · simp [h, Ne.symm h]
    | succ col =>
      rw [List.modify_succ_cons, textIn?_cons, textIn?_cons, ih hnodup hc]
      have hne : d.home ≠ c.home := fun heq =>
        hd (List.mem_map.mpr ⟨c, List.mem_of_getElem? hc, heq.symm⟩)
      by_cases h : d.home = home
      · simp [← h, hne]
      · simp [h]

theorem textIn?_eraseIdx {cells : List TracedCell} {col : Nat} {c : TracedCell}
    (hnodup : (cells.map (·.home)).Nodup) (hc : cells[col]? = some c) (home : Nat) :
    textIn? (cells.eraseIdx col) home = if home = c.home then none else textIn? cells home := by
  induction cells generalizing col with
  | nil => cases hc
  | cons d cells ih =>
    obtain ⟨hd, hnodup⟩ := List.nodup_cons.mp hnodup
    cases col with
    | zero =>
      obtain rfl := Option.some.inj hc
      rw [List.eraseIdx_cons_zero, textIn?_cons]
      by_cases h : home = d.home
      · rw [if_pos h, h]
        exact textIn?_eq_none hd
      · simp [h, Ne.symm h]
    | succ col =>
      rw [List.eraseIdx_cons_succ, textIn?_cons, textIn?_cons, ih hnodup hc]
      have hne : d.home ≠ c.home := fun heq =>
        hd (List.mem_map.mpr ⟨c, List.mem_of_getElem? hc, heq.symm⟩)
      by_cases h : d.home = home
      · simp [← h, hne]
      · simp [h]

theorem LeftOf.text?_edit {t : TracedPage} {p : Page} (h : t.LeftOf p) {row col : Nat}
    {c : TracedCell} (hc : t.cell? row col = some c) (e : Edit) (row' home : Nat) :
    (t.edit row col e).text? row' home =
      if row' = row ∧ home = c.home then e.left? else t.text? row' home := by
  obtain ⟨cells, hrow, hcol⟩ := cell?_eq_some hc
  have hnodup := h.nodup hrow
  by_cases hr : row' = row
  · subst hr
    have htext : t.text? row' home = textIn? cells home := by rw [text?, hrow]; rfl
    rw [htext]
    cases e with
    | replace text =>
      have hedit : (t.edit row' col (.replace text)).text? row' home =
          textIn? (cells.modify col ({ · with text })) home := by
        simp [text?, TracedPage.edit, editGrid, hrow, textIn?]
      rw [hedit, textIn?_modify hnodup hcol]
      simp [Edit.left?]
    | remove =>
      have hedit : (t.edit row' col .remove).text? row' home =
          textIn? (cells.eraseIdx col) home := by
        simp [text?, TracedPage.edit, editGrid, hrow, textIn?]
      rw [hedit, textIn?_eraseIdx hnodup hcol]
      simp [Edit.left?]
  · rw [if_neg fun h => hr h.1]
    cases e <;> simp [text?, TracedPage.edit, editGrid, Ne.symm hr]

theorem LeftOf.text?_home {t : TracedPage} {p : Page} (h : t.LeftOf p) {row col : Nat}
    {c : TracedCell} (hc : t.cell? row col = some c) : t.text? row c.home = some c.text := by
  obtain ⟨cells, hrow, hcol⟩ := cell?_eq_some hc
  -- Replacing a text by itself changes nothing.
  have hsame : cells.modify col ({ · with text := c.text }) = cells := by
    refine List.ext_getElem? fun i => ?_
    rw [List.getElem?_modify]
    by_cases hi : col = i
    · subst hi
      rw [hcol]
      simp
    · cases cells[i]? <;> simp [hi]
  have hmodify := textIn?_modify (h.nodup hrow) hcol c.text c.home
  rw [hsame, if_pos rfl] at hmodify
  rw [text?, hrow]
  exact hmodify

theorem exists_cell_of_text? {t : TracedPage} {row home : Nat} {text : String}
    (h : t.text? row home = some text) :
    ∃ col c, (t.homes[row]?.bind fun homes => homes.findIdx? (· = home)) = some col ∧
      t.cell? row col = some c ∧ c.home = home ∧ c.text = text := by
  obtain ⟨cells, hrow, htext⟩ := Option.bind_eq_some_iff.mp h
  obtain ⟨c, hfind, rfl⟩ := Option.map_eq_some_iff.mp htext
  obtain ⟨hhome, col, hcol, rfl, hfirst⟩ := List.find?_eq_some_iff_getElem.mp hfind
  refine ⟨col, cells[col], ?_, ?_, by simpa using hhome, rfl⟩
  · rw [homes, List.getElem?_map, hrow]
    refine List.findIdx?_eq_some_iff_getElem.mpr ⟨by simpa using hcol, by simpa using hhome, ?_⟩
    intro j hj
    simpa using hfirst j hj
  · rw [cell?, hrow]
    exact List.getElem?_eq_getElem hcol

theorem map_text_eq_filterMap {cells : List TracedCell} {columns : List Nat}
    (hsub : (cells.map (·.home)).Sublist columns) (hnodup : columns.Nodup) :
    cells.map (·.text) = columns.filterMap (textIn? cells) := by
  induction columns generalizing cells with
  | nil =>
    cases cells with
    | nil => rfl
    | cons c cells => cases hsub
  | cons n columns ih =>
    obtain ⟨hn, hcolumns⟩ := List.nodup_cons.mp hnodup
    rcases List.sublist_cons_iff.mp hsub with hsub | ⟨rest, heq, hsub⟩
    · -- The cell of this column is gone.
      rw [List.filterMap_cons_none (textIn?_eq_none fun hmem => hn (hsub.mem hmem))]
      exact ih hsub hcolumns
    · obtain ⟨c, cells, rfl, rfl, rfl⟩ := List.map_eq_cons_iff.mp heq
      have hhead : textIn? (c :: cells) c.home = some c.text := by rw [textIn?_cons, if_pos rfl]
      have htail :
          columns.filterMap (textIn? (c :: cells)) = columns.filterMap (textIn? cells) := by
        refine List.filterMap_congr fun m hm => ?_
        rw [textIn?_cons, if_neg]
        rintro rfl
        exact hn hm
      rw [List.filterMap_cons_some hhead, htail, List.map_cons, ih hsub hcolumns]

theorem LeftOf.texts_row {t : TracedPage} {p : Page} (h : t.LeftOf p) {row : Nat} {r : Row}
    (hr : p.rows[row]? = some r) :
    t.texts[row]? = some ((List.range r.length).filterMap (t.text? row)) := by
  have hrow : row < t.length := h.length ▸ (List.getElem?_eq_some_iff.mp hr).1
  have hcells := List.getElem?_eq_getElem hrow
  have hsub : (t[row].map (·.home)).Sublist (List.range r.length) :=
    h.inOrder row _ r (by rw [homes, List.getElem?_map, hcells]; rfl) hr
  have htext : t.text? row = textIn? t[row] := funext fun home => by rw [text?, hcells]; rfl
  rw [htext, ← map_text_eq_filterMap hsub List.nodup_range, texts, List.getElem?_map, hcells]
  rfl

end TracedPage

end GlyphTable
