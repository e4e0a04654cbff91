import GlyphTable.Proofs.Stored.Restored

/-!
# Boxes in stored documents

The boxes of a document are those of its glyphs, its segments, its rows and their blocks.
A document is read with exactly the boxes that stand in its stored form, each of them
with its edges in order, so a single inverted box makes the whole form unreadable.
-/

namespace GlyphTable

open Stored

def Row.allBoxes (r : Row) : List Box :=
  r.blocks.map (·.box) ++ [r.box]

def Page.allBoxes (p : Page) : List Box :=
  p.glyphs.toList.map (·.box) ++ p.segments.toList.map (·.box) ++ p.rows.flatMap Row.allBoxes

def Document.allBoxes (d : Document) : List Box :=
  d.pages.flatMap Page.allBoxes

-- ---------------------------------------------------------------------------
-- Where boxes stand in a stored form
-- ---------------------------------------------------------------------------

namespace Json

/-- What stands under a key of an object, as often as it does, or in a place of a list. -/
def under (key : String) (place : Nat) : Json → List Json
  | object entries => (entries.filter fun e => e.1 = key).map (·.2)
  | list items => items[place]?.toList
  | _ => []

def items : Json → List Json
  | list items => items
  | _ => []

def listed (key : String) (place : Nat) (j : Json) : List Json :=
  (j.under key place).flatMap items

def boxesOfRow (j : Json) : List Json :=
  (j.listed "blocks" 0).flatMap (under "bbox" 2) ++ j.under "bbox" 1

def boxesOfPage (j : Json) : List Json :=
  (j.listed "characters" 2).flatMap (under "bbox" 5) ++
    (j.listed "segments" 3).flatMap (under "bbox" 2) ++ (j.listed "rows" 4).flatMap boxesOfRow

def boxesOfDocument (j : Json) : List Json :=
  (j.listed "pages" 1).flatMap boxesOfPage

theorem map_filter_eq_lookup {entries : Fields} (h : (entries.map (·.1)).Nodup) (key : String) :
    (entries.filter fun e => e.1 = key).map (·.2) = (entries.lookup key).toList := by
  induction entries with
  | nil => rfl
  | cons e rest ih =>
    obtain ⟨k, v⟩ := e
    obtain ⟨hnew, hrest⟩ := List.nodup_cons.mp h
    by_cases hk : k = key
    · subst hk
      have hnone : rest.filter (fun e => e.1 = k) = [] := by
        rw [List.filter_eq_nil_iff]
        intro e he heq
        exact hnew (List.mem_map.mpr ⟨e, he, of_decide_eq_true heq⟩)
      simp [hnone]
    · have hkey : (key == k) = false := by simpa using Ne.symm hk
      simp [hk, hkey, List.lookup_cons, ih hrest]

theorem lookup_zip {names : List String} (h : names.Nodup) {items : List Json} {place : Nat}
    {key : String} (hplace : names[place]? = some key) :
    (names.zip items).lookup key = items[place]? := by
  induction names generalizing items place with
  | nil => cases hplace
  | cons name names ih =>
    obtain ⟨hnew, hnames⟩ := List.nodup_cons.mp h
    cases items with
    | nil => simp
    | cons v items =>
      cases place with
      | zero => cases hplace; simp
      | succ place =>
        have hkey : key ∈ names := List.mem_of_getElem? hplace
        have hother : (key == name) = false := by
          rw [beq_eq_false_iff_ne]
          rintro rfl
          exact hnew hkey
        simpa [List.lookup_cons, hother] using ih hnames hplace

/-- A field of a record stands under its key once, or in its place. -/
theorem under_of_fields? {names : List String} {j : Json} {fields : Fields}
    (h : j.fields? names = some fields) (hnames : names.Nodup) {place : Nat} {key : String}
    (hplace : names[place]? = some key) : j.under key place = (fields.lookup key).toList := by
  unfold fields? at h
  split at h
  · next entries =>
    dsimp only at h
    split at h
    · next hkeys =>
      cases h
      have hkey : key ∈ names := List.mem_of_getElem? hplace
      rw [under, ← map_filter_eq_lookup hkeys, List.filter_filter]
      congr 2
      grind
    · cases h
  · next items =>
    split at h
    · cases h
      rw [under, lookup_zip hnames hplace]
    · cases h
  · cases h

def Lists {α : Type} [Stored α] (values : List Json) (l : List α) : Prop :=
  List.Forall₂ (fun v a => decode? v = some a) values l

variable {α : Type} [Stored α] {names : List String} {j : Json} {fields : Fields} {place : Nat}
  {key : String}

theorem lists_under (place : Nat) (h : j.fields? names = some fields) {a : α}
    (ha : fields.read? key = some a)
    (hplace : names[place]? = some key) (hnames : names.Nodup) : Lists (j.under key place) [a] := by
  obtain ⟨v, hv, ha⟩ := Option.bind_eq_some_iff.mp ha
  rw [under_of_fields? h hnames hplace, hv]
  exact .cons ha .nil

theorem Lists.exists_eq {values : List Json} {a : α} (h : Lists values [a]) :
    ∃ v, values = [v] ∧ decode? v = some a := by
  obtain ⟨v, rest, hv, hrest, rfl⟩ := List.forall₂_cons_right_iff.mp h
  cases hrest
  exact ⟨v, rfl, hv⟩

theorem Lists.items {l : List α} {values : List Json} (h : Lists values [l]) :
    Lists (values.flatMap items) l := by
  obtain ⟨v, rfl, hv⟩ := h.exists_eq
  rw [List.flatMap_singleton]
  cases v with
  | list items => exact mapM_eq_some_iff.mp hv
  | _ => cases hv

theorem Lists.toList {a : Array α} {values : List Json} (h : Lists values [a]) :
    Lists values [a.toList] := by
  obtain ⟨v, rfl, hv⟩ := h.exists_eq
  obtain ⟨l, hl, rfl⟩ := Option.map_eq_some_iff.mp hv
  exact .cons hl .nil

theorem Lists.flatMap {β : Type} [Stored β] {values : List Json} {l : List α} (h : Lists values l)
    {parts : Json → List Json} {f : α → List β}
    (hparts : ∀ v a, decode? v = some a → Lists (parts v) (f a)) :
    Lists (values.flatMap parts) (l.flatMap f) :=
  List.rel_flatMap h fun v a hv => hparts v a hv

theorem Lists.map {β : Type} [Stored β] {values : List Json} {l : List α} (h : Lists values l)
    {f : α → β} (hfield : ∀ v a, decode? v = some a → Lists (v.under key place) [f a]) :
    Lists (values.flatMap (under key place)) (l.map f) := by
  rw [List.map_eq_flatMap]
  exact h.flatMap hfield

theorem Lists.append {values values' : List Json} {l l' : List α} (h : Lists values l)
    (h' : Lists values' l') : Lists (values ++ values') (l ++ l') :=
  List.rel_append h h'

theorem Lists.exists_of_mem_left {values : List Json} {l : List α} (h : Lists values l) {v : Json}
    (hv : v ∈ values) : ∃ a : α, decode? v = some a := by
  obtain ⟨i, hi, rfl⟩ := List.mem_iff_getElem.mp hv
  exact ⟨_, h.get hi (h.length_eq ▸ hi)⟩

theorem Lists.exists_of_mem_right {values : List Json} {l : List α} (h : Lists values l) {a : α}
    (ha : a ∈ l) : ∃ v, decode? v = some a := by
  obtain ⟨i, hi, rfl⟩ := List.mem_iff_getElem.mp ha
  exact ⟨_, h.get (h.length_eq ▸ hi) hi⟩

end Json

-- ---------------------------------------------------------------------------
-- Reading
-- ---------------------------------------------------------------------------

open Json

variable {j : Json}

theorem Glyph.lists_box {c : Glyph} (h : decode? j = some c) :
    Lists (j.under "bbox" 5) [c.box] := by
  simp only [decode?, Option.bind_eq_bind, Option.bind_eq_some_iff] at h
  obtain ⟨fields, hfields, _, -, _, -, _, -, _, -, _, -, box, hbox, hc⟩ := h
  cases hc
  exact lists_under 5 hfields hbox rfl (by simp)

theorem Segment.lists_box {s : Segment} (h : decode? j = some s) :
    Lists (j.under "bbox" 2) [s.box] := by
  simp only [decode?, Option.bind_eq_bind, Option.bind_eq_some_iff] at h
  obtain ⟨fields, hfields, _, -, _, -, box, hbox, _, -, _, -, _, -, hs⟩ := h
  cases hs
  exact lists_under 2 hfields hbox rfl (by simp)

theorem Block.lists_box {b : Block} (h : decode? j = some b) :
    Lists (j.under "bbox" 2) [b.box] := by
  simp only [decode?, Option.bind_eq_bind, Option.bind_eq_some_iff] at h
  obtain ⟨fields, hfields, _, -, _, -, box, hbox, _, -, _, -, _, -, _, -, hb⟩ := h
  cases hb
  exact lists_under 2 hfields hbox rfl (by simp)

theorem Row.lists_allBoxes {r : Row} (h : decode? j = some r) : Lists j.boxesOfRow r.allBoxes := by
  simp only [decode?, Option.bind_eq_bind, Option.bind_eq_some_iff] at h
  obtain ⟨fields, hfields, blocks, hblocks, box, hbox, hr⟩ := h
  cases hr
  have hlist := (lists_under 0 hfields hblocks rfl (by simp)).items
  exact (hlist.map fun _ _ => Block.lists_box).append (lists_under 1 hfields hbox rfl (by simp))

theorem Page.lists_allBoxes {p : Page} (h : decode? j = some p) :
    Lists j.boxesOfPage p.allBoxes := by
  simp only [decode?, Option.bind_eq_bind, Option.bind_eq_some_iff] at h
  obtain ⟨fields, hfields, _, -, _, -, glyphs, hglyphs, segments, hsegments, rows, hrows, hp⟩ := h
  cases hp
  have hglyphList := (lists_under 2 hfields hglyphs rfl (by simp)).toList.items
  have hsegmentList := (lists_under 3 hfields hsegments rfl (by simp)).toList.items
  have hrowList := (lists_under 4 hfields hrows rfl (by simp)).items
  exact ((hglyphList.map fun _ _ => Glyph.lists_box).append
    (hsegmentList.map fun _ _ => Segment.lists_box)).append
      (hrowList.flatMap fun _ _ => Row.lists_allBoxes)

/-- The boxes of a document are read from where they stand in its stored form. -/
theorem Document.lists_allBoxes {d : Document} (h : decode? j = some d) :
    Lists j.boxesOfDocument d.allBoxes := by
  simp only [decode?, Option.bind_eq_bind, Option.bind_eq_some_iff] at h
  obtain ⟨fields, hfields, _, -, pages, hpages, hd⟩ := h
  cases hd
  have hlist := (lists_under 1 hfields hpages rfl (by simp)).items
  exact hlist.flatMap fun _ _ => Page.lists_allBoxes

theorem Box.ofEdges_eq_ok_iff {left top right bottom : Float} {b : Box} :
    (Box.ofEdges left top right bottom).toOption = some b ↔
      b = ⟨left, top, right, bottom⟩ ∧ b.Valid := by
  unfold Box.ofEdges
  split
  · next h => simpa [Except.toOption, eq_comm] using fun hb => hb ▸ h
  · next h => simpa [Except.toOption] using fun hb => hb ▸ h

theorem Box.lists_edges {b : Box} (h : decode? j = some b) :
    Lists (j.under "left" 0) [b.left] ∧ Lists (j.under "top" 1) [b.top] ∧
      Lists (j.under "right" 2) [b.right] ∧ Lists (j.under "bottom" 3) [b.bottom] ∧ b.Valid := by
  simp only [decode?, Option.bind_eq_bind, Option.bind_eq_some_iff, Box.ofEdges_eq_ok_iff] at h
  obtain ⟨fields, hfields, left, hleft, top, htop, right, hright, bottom, hbottom, rfl, hvalid⟩ := h
  exact ⟨lists_under 0 hfields hleft rfl (by simp), lists_under 1 hfields htop rfl (by simp),
    lists_under 2 hfields hright rfl (by simp), lists_under 3 hfields hbottom rfl (by simp), hvalid⟩

/-- Two edges that are not in order: `low` does not stand below `high`. -/
def Json.Crossed (low high : List Json) : Prop :=
  ∃ v ∈ low, ∃ w ∈ high, ∃ a b : Float, decode? v = some a ∧ decode? w = some b ∧ ¬ a ≤ b

/-- A stored box with two edges that are not in order, even if it has others that are. -/
def Json.Inverted (v : Json) : Prop :=
  Crossed (v.under "left" 0) (v.under "right" 2) ∨ Crossed (v.under "top" 1) (v.under "bottom" 3)

theorem Json.not_crossed {low high : List Json} {a b : Float} (hlow : Lists low [a])
    (hhigh : Lists high [b]) (h : a ≤ b) : ¬ Crossed low high := by
  rintro ⟨v, hv, w, hw, a', b', ha, hb, hab⟩
  obtain ⟨v', rfl, hv'⟩ := hlow.exists_eq
  obtain ⟨w', rfl, hw'⟩ := hhigh.exists_eq
  simp_all

theorem Document.valid_of_mem_allBoxes {d : Document} (h : decode? j = some d) :
    ∀ b ∈ d.allBoxes, b.Valid := by
  intro b hb
  obtain ⟨v, hv⟩ := (Document.lists_allBoxes h).exists_of_mem_right hb
  exact (Box.lists_edges hv).2.2.2.2

theorem Document.decode?_of_inverted {v : Json} (hv : v ∈ j.boxesOfDocument) (h : v.Inverted) :
    (decode? j : Option Document) = none := by
  rw [Option.eq_none_iff_forall_ne_some]
  intro d hd
  obtain ⟨b, hb⟩ := (Document.lists_allBoxes hd).exists_of_mem_left hv
  obtain ⟨hleft, htop, hright, hbottom, hvalid⟩ := Box.lists_edges hb
  rcases h with h | h
  · exact not_crossed hleft hright hvalid.1 h
  · exact not_crossed htop hbottom hvalid.2 h

end GlyphTable
