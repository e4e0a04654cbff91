import GlyphTable.Proofs.Stored.Boxes
import GlyphTable.Proofs.Stored.Value

/-!
# Stored forms come back

A document, a catalog, an outcome, a mapping and a carried catalog are read back from
their stored forms, as values and as texts of any format, and no stored form brings a box
into a document whose edges are not in order (`Stored.comesBack_and_boxes_valid`). The text
of a number is taken to be exact; only documents have numbers that are no integers.
-/

namespace GlyphTable

open Stored Restored

-- ---------------------------------------------------------------------------
-- Numbers of a document
-- ---------------------------------------------------------------------------

def Box.numbers (b : Box) : List Float :=
  [b.left, b.top, b.right, b.bottom]

def Glyph.numbers (c : Glyph) : List Float :=
  c.size :: c.box.numbers

def Segment.numbers (s : Segment) : List Float :=
  s.box.numbers ++ [s.size]

def Block.numbers (b : Block) : List Float :=
  b.box.numbers ++ [b.size]

def Row.numbers (r : Row) : List Float :=
  r.blocks.flatMap Block.numbers ++ r.box.numbers

def Page.numbers (p : Page) : List Float :=
  [p.width, p.height] ++ p.glyphs.toList.flatMap Glyph.numbers ++
    p.segments.toList.flatMap Segment.numbers ++ p.rows.flatMap Row.numbers

def Document.numbers (d : Document) : List Float :=
  d.pages.flatMap Page.numbers

namespace Stored

variable (t : Json.Format)

def save {α : Type} [Stored α] (a : α) : String :=
  t.write (encode a)

def load? (α : Type) [Stored α] (s : String) : Option α :=
  (t.read? s).bind decode?

def ComesBack {α : Type} [Stored α] (a : α) : Prop :=
  decode? (encode a) = some a ∧ load? t α (save t a) = some a

variable {t} in
theorem comesBack {α : Type} [Stored α] [Restored α] (hnesting : nesting α ≤ Json.depthLimit)
    {a : α} (h : Held a) (hreals : ∀ x ∈ (encode a).reals, x.isFinite ∧ t.Exact x) :
    ComesBack t a := by
  obtain ⟨depth, hdepth⟩ := Nat.exists_eq_add_of_le' hnesting
  have htext := t.read?_write (encode a) (hdepth ▸ tidy depth a h) hreals
  refine ⟨restores a h, ?_⟩
  rw [load?, save, htext, Option.bind_some, restores a h]

-- ---------------------------------------------------------------------------
-- Numbers in a stored form
-- ---------------------------------------------------------------------------

theorem reals_encode_list {α : Type} [Stored α] {numbers : α → List Float}
    (h : ∀ a, (encode a).reals = numbers a) (l : List α) :
    (encode l).reals = l.flatMap numbers := by
  change (Json.list (l.map encode)).reals = _
  rw [Json.reals, Json.realsOfItems_eq, List.flatMap_map]
  exact List.flatMap_congr fun a _ => h a

theorem reals_encode_list_eq_nil {α : Type} [Stored α] (h : ∀ a : α, (encode a).reals = [])
    (l : List α) : (encode l).reals = [] := by
  rw [reals_encode_list h, List.flatMap_eq_nil_iff]
  exact fun _ _ => rfl

theorem reals_encode_nats (l : List Nat) : (encode l).reals = [] :=
  reals_encode_list_eq_nil (fun _ => rfl) l

theorem reals_encode_orientation (o : Orientation) : (encode o).reals = [] := by
  cases o <;> rfl

theorem reals_encode_glyph (c : Glyph) : (encode c).reals = c.numbers := by
  change [c.size] ++ ((encode c.orientation).reals ++ (c.box.numbers ++ [])) = _
  rw [reals_encode_orientation, List.append_nil]
  rfl

theorem reals_encode_segment (s : Segment) : (encode s).reals = s.numbers := by
  change (encode s.glyphs).reals ++ (s.box.numbers ++ ([s.size] ++
    ((encode s.orientation).reals ++ []))) = _
  rw [reals_encode_nats, reals_encode_orientation]
  rfl

theorem reals_encode_block (b : Block) : (encode b).reals = b.numbers := by
  change (encode b.segments).reals ++ (b.box.numbers ++ ([b.size] ++
    ((encode b.orientation).reals ++ []))) = _
  rw [reals_encode_nats, reals_encode_orientation]
  rfl

theorem reals_encode_row (r : Row) : (encode r).reals = r.numbers := by
  change (encode r.blocks).reals ++ (r.box.numbers ++ []) = _
  rw [reals_encode_list reals_encode_block, List.append_nil]
  rfl

theorem reals_encode_page (p : Page) : (encode p).reals = p.numbers := by
  change [p.width] ++ ([p.height] ++ ((encode p.glyphs.toList).reals ++
    ((encode p.segments.toList).reals ++ ((encode p.rows).reals ++ [])))) = _
  rw [reals_encode_list reals_encode_glyph, reals_encode_list reals_encode_segment,
    reals_encode_list reals_encode_row, List.append_nil]
  simp only [Page.numbers, List.append_assoc, List.cons_append, List.nil_append]

/-- The stored form of a document holds the numbers of the document and no others. -/
theorem reals_encode_document (d : Document) : (encode d).reals = d.numbers := by
  change (encode d.pages).reals ++ [] = _
  rw [reals_encode_list reals_encode_page, List.append_nil]
  rfl

theorem reals_encode_patch (p : Patch) : (encode p).reals = [] := by
  obtain ⟨_, _, _, edit⟩ := p
  cases edit <;> rfl

theorem reals_encode_catalog (c : Catalog) : (encode c).reals = [] := by
  have hpages : (Json.object (c.pages.map fun e => (toString e.1, encode e.2))).reals = [] := by
    rw [Json.reals, Json.realsOfEntries_eq, List.flatMap_map, List.flatMap_eq_nil_iff]
    exact fun e _ => reals_encode_list_eq_nil reals_encode_patch e.2
  change (encode c.document).reals ++ ((Json.object _).reals ++ []) = []
  rw [hpages]
  rfl

theorem reals_encode_outcome (o : Outcome) : (encode o).reals = [] := by
  change (encode o.vetoes).reals ++ [] = []
  rw [reals_encode_list_eq_nil fun _ => rfl]
  rfl

theorem reals_encode_counterparts (m : Counterparts) : (encode m).reals = [] := by
  have htarget (target : Option Nat) : (encode target).reals = [] := by cases target <;> rfl
  change (encode m.targets.toList).reals ++ [] = []
  rw [reals_encode_list_eq_nil htarget]
  rfl

theorem reals_encode_carryOver (r : CarryOver) : (encode r).reals = [] := by
  change (encode r.carried).reals ++ ((encode r.returned).reals ++ []) = []
  rw [reals_encode_catalog, reals_encode_catalog]
  rfl

-- ---------------------------------------------------------------------------
-- All stored forms
-- ---------------------------------------------------------------------------

theorem comesBack_and_boxes_valid :
    (∀ d : Document, Held d → (∀ x ∈ d.numbers, x.isFinite ∧ t.Exact x) → ComesBack t d) ∧
    (∀ c : Catalog, Held c → ComesBack t c) ∧
    (∀ o : Outcome, Held o → ComesBack t o) ∧
    (∀ m : Counterparts, Held m → ComesBack t m) ∧
    (∀ r : CarryOver, Held r → ComesBack t r) ∧
    (∀ (j : Json) (d : Document), decode? j = some d →
      ∀ b ∈ d.allBoxes, b.left ≤ b.right ∧ b.top ≤ b.bottom) ∧
    (∀ j : Json, (∃ v ∈ j.boxesOfDocument, v.Inverted) → (decode? j : Option Document) = none) := by
  have hfree {α : Type} [Stored α] [Restored α] (hnesting : nesting α ≤ Json.depthLimit) {a : α}
      (h : Held a) (hreals : (encode a).reals = []) : ComesBack t a :=
    comesBack hnesting h (by simp [hreals])
  refine ⟨fun d hd hnumbers => comesBack (by decide) hd (by rwa [reals_encode_document]),
    fun c hc => hfree (by decide) hc (reals_encode_catalog c),
    fun o ho => hfree (by decide) ho (reals_encode_outcome o),
    fun m hm => hfree (by decide) hm (reals_encode_counterparts m),
    fun r hr => hfree (by decide) hr (reals_encode_carryOver r),
    fun j d hd => Document.valid_of_mem_allBoxes hd, ?_⟩
  rintro j ⟨v, hv, hinverted⟩
  exact Document.decode?_of_inverted hv hinverted

/-- A document and a catalog whose texts need escapes, and a document whose records are lists
and whose only glyph has a box that is upside down in front of one that is not. -/
theorem comesBack_and_boxes_valid_escaped :
    let box : Box := ⟨-0.5, 0, 612, 0.1⟩
    let page : Page := ⟨612, 0.1, #[.ofText "\"" box 0.1 .north 7],
      #[⟨[0], "\"", box, 0.1, 7, .north⟩], [⟨[⟨[0], "\\", box, 0.1, .north, 0, 0⟩], box⟩]⟩
    let d : Document := ⟨⟨"\n", "", "\t"⟩, [page]⟩
    let c := Catalog.ofEntries d.id [(20, ⟨-1, 0, "\\", .remove⟩), (3, ⟨0, 1, "\"", .replace "x"⟩)]
    let glyph (boxes : List Box) : Json := .object ([("code_point", .int 65), ("text", .text "A"),
      ("font_size", .int 7), ("color", .int 0), ("orientation", .text "North")] ++
        boxes.map fun b => ("bbox", encode b))
    let sheet (boxes : List Box) : Json := .list [.list [.text "", .text "", .text ""],
      .list [.list [.real 612, .real 0.1, .list [glyph boxes], .list [], .list []]]]
    Held d ∧ (∀ x ∈ d.numbers, x.isFinite ∧ Json.Format.compact.Exact x) ∧ Held c ∧
      ComesBack .compact d ∧ ComesBack .compact c ∧
      ComesBack .compact (⟨1, 1, 1, [⟨⟨"x", "y"⟩, 2⟩]⟩ : Outcome) ∧
      ComesBack .compact (⟨#[some 1, none]⟩ : Counterparts) ∧
      ComesBack .compact (⟨c, .empty d.id⟩ : CarryOver) ∧
      (∃ d' : Document, decode? (sheet [box]) = some d' ∧ d'.allBoxes = [box] ∧
        ∀ b ∈ d'.allBoxes, b.left ≤ b.right ∧ b.top ≤ b.bottom) ∧
      (decode? (sheet [⟨0, 612, 0.1, 0.1⟩, box]) : Option Document) = none := by
  intro box page d c glyph sheet
  have hheld : Held d := by
    simp only [Held]
    decide +kernel
  have hnumbers : ∀ x ∈ d.numbers, x.isFinite ∧ Json.Format.compact.Exact x := by decide +kernel
  have hcatalog : Held c := by
    simp only [Held]
    decide +kernel
  have houtcome : Held (⟨1, 1, 1, [⟨⟨"x", "y"⟩, 2⟩]⟩ : Outcome) := by
    simp only [Held]
    decide +kernel
  have hmapping : Held (⟨#[some 1, none]⟩ : Counterparts) := by
    simp only [Held]
    decide +kernel
  have hempty : Held (Catalog.empty d.id) := by simp [Held, Catalog.empty]
  obtain ⟨hdocuments, hcatalogs, houtcomes, hmappings, hcarried, hboxes, hrejected⟩ :=
    comesBack_and_boxes_valid .compact
  have hsheet : ((decode? (sheet [box]) : Option Document).map Document.allBoxes) = some [box] := by
    decide +kernel
  obtain ⟨d', hd', hall⟩ := Option.map_eq_some_iff.mp hsheet
  refine ⟨hheld, hnumbers, hcatalog, hdocuments d hheld hnumbers, hcatalogs c hcatalog,
    houtcomes _ houtcome, hmappings _ hmapping, hcarried _ ⟨hcatalog, hempty⟩,
    ⟨d', hd', hall, hboxes _ d' hd'⟩, ?_⟩
  let inverted : Box := ⟨0, 612, 0.1, 0.1⟩
  have hinverted : (encode inverted).Inverted :=
    .inr ⟨.real 612, List.mem_cons_self, .real 0.1, List.mem_cons_self, 612, 0.1, rfl, rfl,
      by decide +kernel⟩
  exact hrejected _ ⟨encode inverted, List.mem_cons_self, hinverted⟩

end Stored

end GlyphTable
