import GlyphTable.Document
import GlyphTable.Proofs.Page.Table

/-!
# Tables stay tables

A document changes by calls, of which some fail. `Document.run_tabular`: whatever the calls,
a page that was clustered from bounded glyphs is still a table of as many rows.
-/

namespace GlyphTable

inductive Call where
  | patch (page : Nat) (patch : Patch)
  | patches (page : Nat) (patches : List Patch)
  | catalog (catalog : Catalog)
  | text (page : Nat) (row col : Int) (text : String)

/-- What is left of a document after the call, successful or not. -/
def Document.call (d : Document) : Call → Document
  | .patch page patch =>
    { d with pages := d.pages.modify page fun p => (attempt p (p.apply patch)).1 }
  | .patches page patches =>
    { d with pages := d.pages.modify page fun p => (attempt p (p.applyAll patches)).1 }
  | .catalog catalog => (attempt d (d.apply catalog)).1
  | .text page row col text =>
    { d with pages := d.pages.modify page fun p => (p.setText? row col text).getD p }

def Document.run (d : Document) (calls : List Call) : Document :=
  calls.foldl call d

structure Page.Tabular (p : Page) : Prop where
  /-- Every cell knows its place. -/
  placed : ∀ (row col : Nat) (r : Row) (b : Block), p.rows[row]? = some r →
    r.blocks[col]? = some b → b.row = row ∧ b.col = col
  /-- Every cell behind another has a column to give up. -/
  behind : ∀ r ∈ p.rows, ∀ col, ∀ b ∈ r.blocks.drop (col + 1), 0 < b.col
  /-- A row that has cells is as large as they are together. -/
  hull : ∀ r ∈ p.rows, r.blocks ≠ [] → Box.hull? (r.blocks.map (·.box)) = some r.box
  /-- Rows stand from top to bottom, those without cells among them. -/
  tops : p.rows.Pairwise fun r s => r.box.top < s.box.top
  /-- Cells stand from left to right, clear of each other. -/
  apart : ∀ r ∈ p.rows, r.blocks.Pairwise fun a b => a.box.right < b.box.left

theorem Page.tabular_of_table {p : Page} (h : Row.Table p.rows) : p.Tabular := by
  refine ⟨fun row col r b hr hb => h.placed row r hr col b hb, fun r hr col b hb => ?_,
    fun r hr hne => ?_, h.descending.imp Row.Over.top_lt, fun r hr => ?_⟩
  · obtain ⟨row, hrow⟩ := List.mem_iff_getElem?.mp hr
    obtain ⟨j, hj⟩ := List.mem_iff_getElem?.mp hb
    rw [List.getElem?_drop] at hj
    rw [(h.placed row r hrow _ b hj).2]
    omega
  · exact (h.framed r hr).hull fun hnil => hne (List.map_eq_nil_iff.mp hnil)
  · exact List.pairwise_map.mp (h.framed r hr).apart

namespace Document

def Keeps (pages pages' : List Page) : Prop :=
  ∀ (n : Nat) (p : Page), pages[n]? = some p → ∃ q, pages'[n]? = some q ∧ p.Keeps q

theorem Keeps.refl (pages : List Page) : Keeps pages pages :=
  fun _ p hp => ⟨p, hp, .refl p⟩

theorem Keeps.trans {pages pages' pages'' : List Page} (h : Keeps pages pages')
    (h' : Keeps pages' pages'') : Keeps pages pages'' := by
  intro n p hp
  obtain ⟨q, hq, hpq⟩ := h n p hp
  obtain ⟨r, hr, hqr⟩ := h' n q hq
  exact ⟨r, hr, hpq.trans hqr⟩

theorem keeps_modify (pages : List Page) (n : Nat) {f : Page → Page}
    (hf : ∀ p : Page, p.Keeps (f p)) :
    Keeps pages (pages.modify n f) := by
  intro m p hp
  refine ⟨if n = m then f p else p, ?_, ?_⟩
  · rw [List.getElem?_modify, hp]
    rfl
  · split
    · exact hf p
    · exact .refl p

theorem keeps_applyToPage {pages pages' : List Page} {n : Nat} {patches : List Patch}
    (h : applyToPage pages n patches = .ok pages') : Keeps pages pages' := by
  rw [applyToPage] at h
  split at h
  · cases h
  · next p hp =>
    obtain ⟨q, hq, h⟩ := bind_eq_ok.mp h
    cases h
    intro m r hr
    by_cases hnm : n = m
    · subst hnm
      obtain rfl := Option.some.inj (hp.symm.trans hr)
      exact ⟨q, List.getElem?_set_self (List.getElem?_eq_some_iff.mp hp).1, Page.keeps_applyAll hq⟩
    · exact ⟨r, by rw [List.getElem?_set_ne hnm, hr], .refl r⟩

theorem keeps_apply {d d' : Document} {c : Catalog} (h : d.apply c = .ok d') :
    Keeps d.pages d'.pages := by
  rw [apply] at h
  split at h
  · cases h
  · split at h
    · cases h
    · obtain ⟨pages, hfold, h⟩ := bind_eq_ok.mp h
      cases h
      exact foldlM_preserves Keeps.refl (fun _ _ _ => Keeps.trans) (fun _ _ _ =>
        keeps_applyToPage) hfold

theorem keeps_call (d : Document) (c : Call) : Keeps d.pages (d.call c).pages := by
  cases c with
  | patch n patch =>
    exact keeps_modify d.pages n fun p => attempt_preserves (.refl p) fun q => Page.keeps_apply
  | patches n patches =>
    exact keeps_modify d.pages n fun p => attempt_preserves (.refl p) fun q => Page.keeps_applyAll
  | catalog c =>
    exact attempt_preserves (K := fun d d' : Document => Keeps d.pages d'.pages) (.refl _)
      fun d' => keeps_apply
  | text n row col text =>
    refine keeps_modify d.pages n fun p => ?_
    cases h : p.setText? row col text with
    | none => exact .refl p
    | some q => exact Page.keeps_setText h

theorem keeps_run (d : Document) (calls : List Call) : Keeps d.pages (d.run calls).pages := by
  induction calls generalizing d with
  | nil => exact .refl _
  | cons c rest ih => exact (d.keeps_call c).trans (ih (d.call c))

/-- However a document is changed after clustering, a page of bounded glyphs stays a table
of as many rows. -/
theorem run_tabular {p q : Page} (hp : ∀ g ∈ p.glyphs, g.box.Bounded) {s : Spacing}
    {vetoes : List Veto} {o : Outcome} (hq : p.cluster? s vetoes = some (q, o)) {d : Document}
    {n : Nat} (hd : d.pages[n]? = some q) (calls : List Call) :
    ∃ q', (d.run calls).pages[n]? = some q' ∧ q'.Tabular ∧ q'.rows.length = q.rows.length := by
  obtain ⟨q', hq', hlength, htable⟩ := d.keeps_run calls n q hd
  exact ⟨q', hq', Page.tabular_of_table (htable (Page.cluster_table hp hq)), hlength⟩

/-- The first removal moves the second cell, so the second removal fails. -/
theorem tallNeighbour_run_tabular :
    ∃ q o q', Page.tallNeighbour.cluster? .standard [] = some (q, o) ∧
      (run ⟨⟨"t", "a", "b"⟩, [q]⟩
        [.patch 0 ⟨0, 0, "A\nB", .remove⟩, .patch 0 ⟨0, 1, "C", .remove⟩,
      .text 0 0 0 "D"]).pages[0]? =
      some q' ∧ q'.Tabular ∧ q'.rows.length = q.rows.length := by
  have hends : (Page.tallNeighbour.cluster? .standard []).isSome := by decide +kernel
  obtain ⟨⟨q, o⟩, hq⟩ := Option.isSome_iff_exists.mp hends
  obtain ⟨q', hrun, htabular⟩ := run_tabular (by decide +kernel) hq
    (d := ⟨⟨"t", "a", "b"⟩, [q]⟩) (n := 0) rfl
    [.patch 0 ⟨0, 0, "A\nB", .remove⟩, .patch 0 ⟨0, 1, "C", .remove⟩, .text 0 0 0 "D"]
  exact ⟨q, o, q', hq, hrun, htabular⟩

end Document

end GlyphTable
