import GlyphTable.Proofs.Stored.Number
import GlyphTable.Stored.Form
import Mathlib.Data.List.Forall2
import Mathlib.Data.List.Nodup

/-!
# Values that come back

The stored form of a value is read as the same value. Words must be those of the machine
and boxes in order, as they are in every value that a program can build. Each type has its
own instance of the law, which uses that of the types of its fields.
-/

namespace GlyphTable

open Stored

-- ---------------------------------------------------------------------------
-- The law
-- ---------------------------------------------------------------------------

/-- A type whose values come back from their stored form, as far as they are `Held`. -/
class Restored (α : Type) [Stored α] where
  /-- The words in the value have the size of machine words and its boxes are in order. -/
  Held : α → Prop
  /-- How deep lists and objects lie one in another in the form of a value. -/
  nesting : Nat
  tidy : ∀ (depth : Nat) (a : α), Held a → (encode a).Tidy (depth + nesting)
  restores : ∀ a, Held a → decode? (encode a) = some a

open Restored

namespace Json

theorem fields?_object {names : List String} {entries : Fields} (hnames : names.Nodup)
    (h : (entries.map (·.1)).Sublist names) : (object entries).fields? names = some entries := by
  have hknown : entries.filter (fun e => e.1 ∈ names) = entries := by
    rw [List.filter_eq_self]
    exact fun e he => decide_eq_true (h.subset (List.mem_map_of_mem he))
  simp only [fields?, hknown, hnames.sublist h, if_true]

variable {β : Type} {b : β}

theorem bind_fields? {names : List String} {entries : Fields} (hnames : names.Nodup)
    (h : (entries.map (·.1)).Sublist names) {f : Fields → Option β} (hf : f entries = some b) :
    ((object entries).fields? names >>= f) = some b := by
  rw [fields?_object hnames h, Option.bind_eq_bind, Option.bind_some, hf]

theorem bind_read? {α : Type} [Stored α] [Restored α] {fields : Fields} {key : String} {a : α}
    (hfield : fields.lookup key = some (encode a)) (ha : Held a) {f : α → Option β}
    (hf : f a = some b) : (fields.read? key >>= f) = some b := by
  rw [Fields.read?, hfield, Option.bind_some, restores a ha, Option.bind_eq_bind,
    Option.bind_some, hf]

end Json

open Json

-- ---------------------------------------------------------------------------
-- Numbers, texts and sequences
-- ---------------------------------------------------------------------------

instance : Restored Float where
  Held _ := True
  nesting := 0
  tidy _ x _ := .real x
  restores _ _ := rfl

instance : Restored Nat where
  Held n := n < UInt64.size
  nesting := 0
  tidy _ n h :=
    have hnonneg : Int64.minValue.toInt ≤ 0 := by decide
    .int ⟨by omega, Int.ofNat_lt.mpr h⟩
  restores n h := if_pos ⟨Int.natCast_nonneg n, Int.ofNat_lt.mpr h⟩

instance : Restored Int where
  Held n := Int64.minValue.toInt ≤ n ∧ n ≤ Int64.maxValue.toInt
  nesting := 0
  tidy _ n h :=
    have hmax : Int64.maxValue.toInt < UInt64.size := by decide
    .int ⟨h.1, by omega⟩
  restores _ h := if_pos h

instance : Restored UInt64 where
  Held _ := True
  nesting := 0
  tidy _ n _ := tidy _ n.toNat n.toNat_lt
  restores n _ := by simpa [encode, decode?] using Int.ofNat_lt.mpr n.toNat_lt

instance : Restored UInt32 where
  Held _ := True
  nesting := 0
  tidy _ n _ := tidy _ n.toNat (n.toNat_lt.trans (by decide))
  restores n _ := by simpa [encode, decode?] using Int.ofNat_lt.mpr n.toNat_lt

instance : Restored String where
  Held _ := True
  nesting := 0
  tidy _ s _ := .text s
  restores _ _ := rfl

theorem mapM_eq_some_iff {α β : Type} {f : α → Option β} {l : List α} {l' : List β} :
    l.mapM f = some l' ↔ List.Forall₂ (fun a b => f a = some b) l l' := by
  induction l generalizing l' with
  | nil => cases l' <;> simp
  | cons a l ih =>
    rw [List.mapM_cons]
    cases ha : f a with
    | none => cases l' <;> simp [ha]
    | some b =>
      cases hl : l.mapM f with
      | none => cases l' <;> simp [ha, ← ih, hl]
      | some bs => cases l' <;> simp [ha, ← ih, hl]

instance {α : Type} [Stored α] [Restored α] : Restored (List α) where
  Held l := ∀ a ∈ l, Held a
  nesting := nesting α + 1
  tidy _ l h := .list (List.forall_mem_map.mpr fun a ha => tidy _ a (h a ha))
  restores l h := by
    simp only [encode, decode?]
    rw [mapM_eq_some_iff, List.forall₂_map_left_iff, List.forall₂_same]
    exact fun a ha => restores a (h a ha)

instance {α : Type} [Stored α] [Restored α] : Restored (Array α) where
  Held a := ∀ x ∈ a.toList, Held x
  nesting := nesting (List α)
  tidy _ a h := tidy _ a.toList h
  restores a h := by
    change (decode? (encode a.toList)).map List.toArray = _
    rw [restores a.toList h]
    rfl

/-- An absent number is `null`, which is the form of no number. -/
instance : Restored (Option Nat) where
  Held o := ∀ n ∈ o, Held n
  nesting := 0
  tidy
    | _, none, _ => .null
    | _, some n, h => tidy _ n (h n rfl)
  restores
    | none, _ => rfl
    | some n, h => congrArg (Option.map some) (restores n (h n rfl))

-- ---------------------------------------------------------------------------
-- Layout
-- ---------------------------------------------------------------------------

instance : Restored Orientation where
  Held _ := True
  nesting := 0
  tidy _ o _ := by cases o <;> exact .text _
  restores o _ := by cases o <;> rfl

instance : Restored Box where
  Held b := b.Valid
  nesting := 1
  tidy _ b _ := .object (by simp) (by
    simpa using ⟨tidy _ b.left trivial, tidy _ b.top trivial, tidy _ b.right trivial,
      tidy _ b.bottom trivial⟩)
  restores b h := by
    simp only [decode?]
    refine bind_fields? (by simp) (by simp) ?_
    refine bind_read? (a := b.left) rfl trivial ?_
    refine bind_read? (a := b.top) rfl trivial ?_
    refine bind_read? (a := b.right) rfl trivial ?_
    refine bind_read? (a := b.bottom) rfl trivial ?_
    have hedges : Box.ofEdges b.left b.top b.right b.bottom = .ok b := if_pos h
    rw [hedges]
    rfl

instance : Restored Glyph where
  Held c := Held c.box
  nesting := 2
  tidy _ c h := .object (by simp) (by
    simpa using ⟨tidy _ c.codePoint trivial, tidy _ c.text trivial, tidy _ c.size trivial,
      tidy _ c.color trivial, tidy _ c.orientation trivial, tidy _ c.box h⟩)
  restores c h := by
    simp only [decode?]
    refine bind_fields? (by simp) (by simp) ?_
    refine bind_read? (a := c.codePoint) rfl trivial ?_
    refine bind_read? (a := c.text) rfl trivial ?_
    refine bind_read? (a := c.size) rfl trivial ?_
    refine bind_read? (a := c.color) rfl trivial ?_
    refine bind_read? (a := c.orientation) rfl trivial ?_
    exact bind_read? (a := c.box) rfl h rfl

instance : Restored Segment where
  Held s := Held s.glyphs ∧ Held s.box
  nesting := 2
  tidy _ s h := .object (by simp) (by
    simpa using ⟨tidy _ s.glyphs h.1, tidy _ s.text trivial, tidy _ s.box h.2,
      tidy _ s.size trivial, tidy _ s.color trivial, tidy _ s.orientation trivial⟩)
  restores s h := by
    simp only [decode?]
    refine bind_fields? (by simp) (by simp) ?_
    refine bind_read? (a := s.glyphs) rfl h.1 ?_
    refine bind_read? (a := s.text) rfl trivial ?_
    refine bind_read? (a := s.box) rfl h.2 ?_
    refine bind_read? (a := s.size) rfl trivial ?_
    refine bind_read? (a := s.color) rfl trivial ?_
    exact bind_read? (a := s.orientation) rfl trivial rfl

instance : Restored Block where
  Held b := Held b.segments ∧ Held b.box ∧ Held b.row ∧ Held b.col
  nesting := 2
  tidy _ b h := .object (by simp) (by
    simpa using ⟨tidy _ b.segments h.1, tidy _ b.text trivial, tidy _ b.box h.2.1,
      tidy _ b.size trivial, tidy _ b.orientation trivial, tidy _ b.row h.2.2.1,
      tidy _ b.col h.2.2.2⟩)
  restores b h := by
    simp only [decode?]
    refine bind_fields? (by simp) (by simp) ?_
    refine bind_read? (a := b.segments) rfl h.1 ?_
    refine bind_read? (a := b.text) rfl trivial ?_
    refine bind_read? (a := b.box) rfl h.2.1 ?_
    refine bind_read? (a := b.size) rfl trivial ?_
    refine bind_read? (a := b.orientation) rfl trivial ?_
    refine bind_read? (a := b.row) rfl h.2.2.1 ?_
    exact bind_read? (a := b.col) rfl h.2.2.2 rfl

instance : Restored Row where
  Held r := Held r.blocks ∧ Held r.box
  nesting := 4
  tidy _ r h := .object (by simp) (by simpa using ⟨tidy _ r.blocks h.1, tidy _ r.box h.2⟩)
  restores r h := by
    simp only [decode?]
    refine bind_fields? (by simp) (by simp) ?_
    refine bind_read? (a := r.blocks) rfl h.1 ?_
    exact bind_read? (a := r.box) rfl h.2 rfl

instance : Restored Page where
  Held p := Held p.glyphs ∧ Held p.segments ∧ Held p.rows
  nesting := 6
  tidy _ p h := .object (by simp) (by
    simpa using ⟨tidy _ p.width trivial, tidy _ p.height trivial, tidy _ p.glyphs h.1,
      tidy _ p.segments h.2.1, tidy _ p.rows h.2.2⟩)
  restores p h := by
    simp only [decode?]
    refine bind_fields? (by simp) (by simp) ?_
    refine bind_read? (a := p.width) rfl trivial ?_
    refine bind_read? (a := p.height) rfl trivial ?_
    refine bind_read? (a := p.glyphs) rfl h.1 ?_
    refine bind_read? (a := p.segments) rfl h.2.1 ?_
    exact bind_read? (a := p.rows) rfl h.2.2 rfl

instance : Restored RevisionId where
  Held _ := True
  nesting := 1
  tidy _ a _ := .object (by simp) (by
    simpa using ⟨tidy _ a.title trivial, tidy _ a.creationDate trivial,
      tidy _ a.modificationDate trivial⟩)
  restores a _ := by
    simp only [decode?]
    refine bind_fields? (by simp) (by simp) ?_
    refine bind_read? (a := a.title) rfl trivial ?_
    refine bind_read? (a := a.creationDate) rfl trivial ?_
    exact bind_read? (a := a.modificationDate) rfl trivial rfl

instance : Restored Document where
  Held d := Held d.pages
  nesting := 8
  tidy _ d h := .object (by simp) (by simpa using ⟨tidy _ d.id trivial, tidy _ d.pages h⟩)
  restores d h := by
    simp only [decode?]
    refine bind_fields? (by simp) (by simp) ?_
    refine bind_read? (a := d.id) rfl trivial ?_
    exact bind_read? (a := d.pages) rfl h rfl

-- ---------------------------------------------------------------------------
-- Outcomes
-- ---------------------------------------------------------------------------

instance : Restored Veto where
  Held _ := True
  nesting := 1
  tidy _ v _ := .object (by simp) (by simpa using ⟨tidy _ v.upper trivial, tidy _ v.lower trivial⟩)
  restores v _ := by
    simp only [decode?]
    refine bind_fields? (by simp) (by simp) ?_
    refine bind_read? (a := v.upper) rfl trivial ?_
    exact bind_read? (a := v.lower) rfl trivial rfl

instance : Restored VetoUse where
  Held u := Held u.count
  nesting := 2
  tidy _ u h := .object (by simp) (by simpa using ⟨tidy _ u.veto trivial, tidy _ u.count h⟩)
  restores u h := by
    simp only [decode?]
    refine bind_fields? (by simp) (by simp) ?_
    refine bind_read? (a := u.veto) rfl trivial ?_
    exact bind_read? (a := u.count) rfl h rfl

instance : Restored Outcome where
  Held o := Held o.segments ∧ Held o.blocks ∧ Held o.rows ∧ Held o.vetoes
  nesting := 4
  tidy _ o h := .object (by simp) (by
    simpa using ⟨tidy _ o.segments h.1, tidy _ o.blocks h.2.1, tidy _ o.rows h.2.2.1,
      tidy _ o.vetoes h.2.2.2⟩)
  restores o h := by
    simp only [decode?]
    refine bind_fields? (by simp) (by simp) ?_
    refine bind_read? (a := o.segments) rfl h.1 ?_
    refine bind_read? (a := o.blocks) rfl h.2.1 ?_
    refine bind_read? (a := o.rows) rfl h.2.2.1 ?_
    exact bind_read? (a := o.vetoes) rfl h.2.2.2 rfl

-- ---------------------------------------------------------------------------
-- Patches and catalogs
-- ---------------------------------------------------------------------------

instance : Restored Edit where
  Held _ := True
  nesting := 1
  tidy _ e _ := by
    cases e with
    | replace text => exact .object (by simp) (by simpa using ⟨.text _, tidy _ text trivial⟩)
    | remove => exact .object (by simp) (by simpa using .text _)
  restores e _ := by
    simp only [decode?]
    cases e <;> exact bind_fields? (by simp) (by simp) rfl

instance : Restored Patch where
  Held p := Held p.row ∧ Held p.col
  nesting := 2
  tidy _ p h := .object (by simp) (by
    simpa using ⟨tidy _ p.row h.1, tidy _ p.col h.2, tidy _ p.expected trivial,
      tidy _ p.edit trivial⟩)
  restores p h := by
    simp only [decode?]
    refine bind_fields? (by simp) (by simp) ?_
    refine bind_read? (a := p.row) rfl h.1 ?_
    refine bind_read? (a := p.col) rfl h.2 ?_
    refine bind_read? (a := p.expected) rfl trivial ?_
    exact bind_read? (a := p.edit) rfl trivial rfl

namespace Catalog

theorem pageOfKey?_toString {n : Nat} (h : n < UInt64.size) :
    pageOfKey? (toString n) = some n := by
  have hvalue : (Nat.toDigits 10 n).foldl (fun n d => 10 * n + (d.toNat - '0'.toNat)) 0 = n :=
    Json.digitsValue_toDigits n
  have hdigits : (Nat.toDigits 10 n).all Char.isDigit :=
    List.all_eq_true.mpr (Json.all_isDigit_toDigits n)
  simp only [pageOfKey?, Json.toList_toString, hvalue]
  exact if_pos ⟨Nat.toDigits_ne_nil, hdigits, Json.toDigits_plain n, h⟩

theorem alterPage_of_last {page : Nat} {f : List Patch → List Patch}
    {pages : List (Nat × List Patch)} (h : ∀ e ∈ pages, e.1 < page) :
    alterPage page f pages = pages ++ [(page, f [])] := by
  induction pages with
  | nil => rfl
  | cons e rest ih =>
    obtain ⟨n, patches⟩ := e
    have hn : n < page := h (n, patches) List.mem_cons_self
    rw [alterPage, if_neg (by omega), if_neg (by omega),
      ih fun e he => h e (List.mem_cons_of_mem _ he), List.cons_append]

/-- Entries for the pages behind those that a catalog has make up the rest of it. -/
theorem foldlM_withEntry? {pages : List (Nat × List Patch)}
    (h : ∀ e ∈ pages, Held e.1 ∧ Held e.2) {before c : Catalog}
    (hdocument : before.document = c.document) (hpages : before.pages ++ pages = c.pages) :
    (pages.map fun e => (toString e.1, encode e.2)).foldlM withEntry? before = some c := by
  induction pages generalizing before with
  | nil =>
    obtain ⟨document, pages, _⟩ := before
    obtain ⟨document', pages', _⟩ := c
    simp_all
  | cons e rest ih =>
    obtain ⟨page, patches⟩ := e
    obtain ⟨hpage, hpatches⟩ := h (page, patches) List.mem_cons_self
    have hascending := c.ascending
    rw [← hpages, List.map_append, List.pairwise_append] at hascending
    -- The pages of a catalog ascend, so the next one goes behind those that are there.
    have hlast : ∀ e ∈ before.pages, e.1 < page := fun e he =>
      hascending.2.2 e.1 (List.mem_map_of_mem he) page List.mem_cons_self
    have hstep : (before.alter page fun _ => patches).pages ++ rest = c.pages := by
      rw [← hpages]
      change alterPage page _ before.pages ++ rest = _
      rw [alterPage_of_last hlast, List.append_assoc]
      rfl
    simp only [List.map_cons, List.foldlM_cons, withEntry?, pageOfKey?_toString hpage,
      restores patches hpatches]
    exact ih (fun e he => h e (List.mem_cons_of_mem _ he)) hdocument hstep

end Catalog

instance : Restored Catalog where
  Held c := ∀ e ∈ c.pages, Held e.1 ∧ Held e.2
  nesting := 5
  tidy depth c h := by
    have hnumbers : (c.pages.map (·.1)).Nodup := c.ascending.imp Nat.ne_of_lt
    have hkeys := hnumbers.map Json.toString_injective
    have hpages : (Json.object (c.pages.map fun e => (toString e.1, encode e.2))).Tidy
        (depth + 4) :=
      .object (by rwa [List.map_map] at hkeys ⊢)
        (List.forall_mem_map.mpr fun e he => tidy _ e.2 (h e he).2)
    exact .object (by simp) (by simpa using ⟨tidy _ c.document trivial, hpages⟩)
  restores c h := by
    simp only [decode?]
    refine bind_fields? (by simp) (by simp) ?_
    refine bind_read? (a := c.document) rfl trivial ?_
    exact Catalog.foldlM_withEntry? h rfl (List.nil_append c.pages)

-- ---------------------------------------------------------------------------
-- Revisions
-- ---------------------------------------------------------------------------

instance : Restored Counterparts where
  Held m := Held m.targets
  nesting := 2
  tidy _ m h := .object (by simp) (List.forall_mem_singleton.mpr (tidy _ m.targets h))
  restores m h := by
    simp only [decode?]
    refine bind_fields? (by simp) (by simp) ?_
    exact bind_read? (a := m.targets) rfl h rfl

instance : Restored CarryOver where
  Held r := Held r.carried ∧ Held r.returned
  nesting := 6
  tidy _ r h := .object (by simp) (by simpa using ⟨tidy _ r.carried h.1, tidy _ r.returned h.2⟩)
  restores r h := by
    simp only [decode?]
    refine bind_fields? (by simp) (by simp) ?_
    refine bind_read? (a := r.carried) rfl h.1 ?_
    exact bind_read? (a := r.returned) rfl h.2 rfl

end GlyphTable
