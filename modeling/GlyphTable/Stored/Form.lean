import GlyphTable.Revision.CarryOver
import GlyphTable.Stored.Json

/-!
# Stored forms

How each type of the library is stored as a JSON value and read back. A record is
written as an object and read from an object or a list; reading needs every field once
and passes over entries it does not know. Boxes and spans are read only with their ends
in order, so no stored value brings an inverted box into a page.
-/

namespace GlyphTable

class Stored (α : Type) where
  encode : α → Json
  decode? : Json → Option α

def Json.Fields.read? {α : Type} [Stored α] (fields : Json.Fields) (key : String) : Option α :=
  (fields.lookup key).bind Stored.decode?

open Stored

-- ---------------------------------------------------------------------------
-- Numbers, texts and sequences
-- ---------------------------------------------------------------------------

/-- A number may also be written as an integer. -/
instance : Stored Float where
  encode := .real
  decode?
    | .real x => some x
    | .int n => some (Float.ofInt n)
    | _ => none

instance : Stored Nat where
  encode n := .int n
  decode?
    | .int n => if 0 ≤ n ∧ n < UInt64.size then some n.toNat else none
    | _ => none

instance : Stored Int where
  encode := .int
  decode?
    | .int n => if Int64.minValue.toInt ≤ n ∧ n ≤ Int64.maxValue.toInt then some n else none
    | _ => none

instance : Stored UInt64 where
  encode n := .int n.toNat
  decode?
    | .int n => if 0 ≤ n ∧ n < UInt64.size then some n.toNat.toUInt64 else none
    | _ => none

instance : Stored UInt32 where
  encode n := .int n.toNat
  decode?
    | .int n => if 0 ≤ n ∧ n < UInt32.size then some n.toNat.toUInt32 else none
    | _ => none

instance : Stored String where
  encode := .text
  decode?
    | .text s => some s
    | _ => none

instance {α : Type} [Stored α] : Stored (List α) where
  encode l := .list (l.map encode)
  decode?
    | .list items => items.mapM decode?
    | _ => none

instance {α : Type} [Stored α] : Stored (Array α) where
  encode a := encode a.toList
  decode? j := (decode? j : Option (List α)).map List.toArray

instance {α : Type} [Stored α] : Stored (Option α) where
  encode
    | none => .null
    | some a => encode a
  decode?
    | .null => some none
    | j => (decode? j).map some

-- ---------------------------------------------------------------------------
-- Geometry
-- ---------------------------------------------------------------------------

instance : Stored Point where
  encode p := .object [("x", encode p.x), ("y", encode p.y)]
  decode? j := do
    let fields ← j.fields? ["x", "y"]
    return ⟨← fields.read? "x", ← fields.read? "y"⟩

instance : Stored Axis where
  encode
    | .horizontal => .text "Horizontal"
    | .vertical => .text "Vertical"
  decode? j := do
    match ← j.caseName? with
    | "Horizontal" => some .horizontal
    | "Vertical" => some .vertical
    | _ => none

instance : Stored Orientation where
  encode
    | .east => .text "East"
    | .north => .text "North"
    | .west => .text "West"
    | .south => .text "South"
  decode? j := do
    match ← j.caseName? with
    | "East" => some .east
    | "North" => some .north
    | "West" => some .west
    | "South" => some .south
    | _ => none

instance : Stored Span where
  encode s := .object [("min", encode s.min), ("max", encode s.max)]
  decode? j := do
    let fields ← j.fields? ["min", "max"]
    (Span.ofEnds (← fields.read? "min") (← fields.read? "max")).toOption

instance : Stored Box where
  encode a := .object [
    ("left", encode a.left), ("top", encode a.top),
    ("right", encode a.right), ("bottom", encode a.bottom)]
  decode? j := do
    let fields ← j.fields? ["left", "top", "right", "bottom"]
    (Box.ofEdges (← fields.read? "left") (← fields.read? "top")
      (← fields.read? "right") (← fields.read? "bottom")).toOption

-- ---------------------------------------------------------------------------
-- Layout
-- ---------------------------------------------------------------------------

/-- A margin that is left out is the standard one. Whether it is sensible is not
looked at. -/
instance : Stored Spacing where
  encode s := .object [("char_margin", encode s.glyphMargin)]
  decode?
    | .list [] => some .standard
    | j => do
      match (← j.fields? ["char_margin"]).lookup "char_margin" with
      | none => some .standard
      | some margin => return ⟨← decode? margin⟩

instance : Stored Glyph where
  encode c := .object [
    ("code_point", encode c.codePoint), ("text", encode c.text),
    ("font_size", encode c.size), ("color", encode c.color),
    ("orientation", encode c.orientation), ("bbox", encode c.box)]
  decode? j := do
    let fields ← j.fields?
      ["code_point", "text", "font_size", "color", "orientation", "bbox"]
    return {
      codePoint := ← fields.read? "code_point"
      text := ← fields.read? "text"
      size := ← fields.read? "font_size"
      color := ← fields.read? "color"
      orientation := ← fields.read? "orientation"
      box := ← fields.read? "bbox" }

instance : Stored Segment where
  encode s := .object [
    ("chars", encode s.glyphs), ("text", encode s.text), ("bbox", encode s.box),
    ("font_size", encode s.size), ("color", encode s.color),
    ("orientation", encode s.orientation)]
  decode? j := do
    let fields ← j.fields? ["chars", "text", "bbox", "font_size", "color", "orientation"]
    return {
      glyphs := ← fields.read? "chars"
      text := ← fields.read? "text"
      box := ← fields.read? "bbox"
      size := ← fields.read? "font_size"
      color := ← fields.read? "color"
      orientation := ← fields.read? "orientation" }

instance : Stored Block where
  encode b := .object [
    ("segments", encode b.segments), ("text", encode b.text), ("bbox", encode b.box),
    ("font_size", encode b.size), ("orientation", encode b.orientation),
    ("row", encode b.row), ("col", encode b.col)]
  decode? j := do
    let fields ← j.fields?
      ["segments", "text", "bbox", "font_size", "orientation", "row", "col"]
    return {
      segments := ← fields.read? "segments"
      text := ← fields.read? "text"
      box := ← fields.read? "bbox"
      size := ← fields.read? "font_size"
      orientation := ← fields.read? "orientation"
      row := ← fields.read? "row"
      col := ← fields.read? "col" }

instance : Stored Row where
  encode r := .object [("blocks", encode r.blocks), ("bbox", encode r.box)]
  decode? j := do
    let fields ← j.fields? ["blocks", "bbox"]
    return ⟨← fields.read? "blocks", ← fields.read? "bbox"⟩

instance : Stored Veto where
  encode v := .object [("upper", encode v.upper), ("lower", encode v.lower)]
  decode? j := do
    let fields ← j.fields? ["upper", "lower"]
    return ⟨← fields.read? "upper", ← fields.read? "lower"⟩

instance : Stored VetoUse where
  encode u := .object [("binding", encode u.veto), ("matches", encode u.count)]
  decode? j := do
    let fields ← j.fields? ["binding", "matches"]
    return ⟨← fields.read? "binding", ← fields.read? "matches"⟩

instance : Stored Outcome where
  encode o := .object [
    ("segments", encode o.segments), ("blocks", encode o.blocks), ("rows", encode o.rows),
    ("bindings", encode o.vetoes)]
  decode? j := do
    let fields ← j.fields? ["segments", "blocks", "rows", "bindings"]
    return {
      segments := ← fields.read? "segments"
      blocks := ← fields.read? "blocks"
      rows := ← fields.read? "rows"
      vetoes := ← fields.read? "bindings" }

instance : Stored Page where
  encode p := .object [
    ("width", encode p.width), ("height", encode p.height), ("characters", encode p.glyphs),
    ("segments", encode p.segments), ("rows", encode p.rows)]
  decode? j := do
    let fields ← j.fields? ["width", "height", "characters", "segments", "rows"]
    return {
      width := ← fields.read? "width"
      height := ← fields.read? "height"
      glyphs := ← fields.read? "characters"
      segments := ← fields.read? "segments"
      rows := ← fields.read? "rows" }

-- ---------------------------------------------------------------------------
-- Documents and patches
-- ---------------------------------------------------------------------------

instance : Stored Edit where
  encode
    | .replace text => .object [("kind", .text "replace"), ("text", encode text)]
    | .remove => .object [("kind", .text "remove")]
  decode? j := do
    let fields ← j.fields? ["kind", "text"]
    match ← (← fields.lookup "kind").caseName? with
    | "replace" => return .replace (← fields.read? "text")
    | "remove" =>
      match fields.lookup "text" with
      | none | some .null => some .remove
      | _ => none
    | _ => none

instance : Stored Patch where
  encode p := .object [
    ("row", encode p.row), ("col", encode p.col), ("expected", encode p.expected),
    ("action", encode p.edit)]
  decode? j := do
    let fields ← j.fields? ["row", "col", "expected", "action"]
    return {
      row := ← fields.read? "row"
      col := ← fields.read? "col"
      expected := ← fields.read? "expected"
      edit := ← fields.read? "action" }

instance : Stored RevisionId where
  encode a := .object [
    ("title", encode a.title), ("creation_date", encode a.creationDate),
    ("modification_date", encode a.modificationDate)]
  decode? j := do
    let fields ← j.fields? ["title", "creation_date", "modification_date"]
    return {
      title := ← fields.read? "title"
      creationDate := ← fields.read? "creation_date"
      modificationDate := ← fields.read? "modification_date" }

/-- A page number as a key: decimal digits without a superfluous zero in front, of
64 bits at most. -/
def Catalog.pageOfKey? (key : String) : Option Nat :=
  let digits := key.toList
  let n := digits.foldl (fun n d => 10 * n + (d.toNat - '0'.toNat)) 0
  if digits ≠ [] ∧ digits.all Char.isDigit ∧ (digits.head? ≠ some '0' ∨ digits.length = 1)
      ∧ n < UInt64.size then
    some n
  else
    none

def Catalog.withEntry? (c : Catalog) (entry : String × Json) : Option Catalog := do
  let page ← pageOfKey? entry.1
  let patches ← decode? entry.2
  return c.alter page fun _ => patches

instance : Stored Catalog where
  encode c := .object [
    ("document", encode c.document),
    ("pages", .object (c.pages.map fun (n, patches) => (toString n, encode patches)))]
  decode? j := do
    let fields ← j.fields? ["document", "pages"]
    let document ← fields.read? "document"
    match ← fields.lookup "pages" with
    | .object entries => entries.foldlM Catalog.withEntry? (.empty document)
    | _ => none

instance : Stored Document where
  encode d := .object [("id", encode d.id), ("pages", encode d.pages)]
  decode? j := do
    let fields ← j.fields? ["id", "pages"]
    return ⟨← fields.read? "id", ← fields.read? "pages"⟩

instance : Stored Address where
  encode a := .object [("page", encode a.page), ("row", encode a.row), ("col", encode a.col)]
  decode? j := do
    let fields ← j.fields? ["page", "row", "col"]
    return ⟨← fields.read? "page", ← fields.read? "row", ← fields.read? "col"⟩

-- ---------------------------------------------------------------------------
-- Revisions
-- ---------------------------------------------------------------------------

instance : Stored CommonRun where
  encode r := .object [
    ("a_start", encode r.source), ("b_start", encode r.target), ("len", encode r.length)]
  decode? j := do
    let fields ← j.fields? ["a_start", "b_start", "len"]
    return ⟨← fields.read? "a_start", ← fields.read? "b_start", ← fields.read? "len"⟩

instance : Stored Counterparts where
  encode m := .object [("targets", encode m.targets)]
  decode? j := do
    let fields ← j.fields? ["targets"]
    return ⟨← fields.read? "targets"⟩

instance : Stored CarryOver where
  encode r := .object [("transferred", encode r.carried), ("failed", encode r.returned)]
  decode? j := do
    let fields ← j.fields? ["transferred", "failed"]
    return ⟨← fields.read? "transferred", ← fields.read? "failed"⟩

end GlyphTable
