import GlyphTable.Proofs.Page.Trace

/-!
# Patches row by row

Rows are never taken out of a page, so the number of a row means the same before and after any
patch, also where it counts from the end. A patch reads and writes one row only. Patches in turn
therefore come to what each row's own patches, in their order, make of that row
(`Page.applyAll_eq_ok_iff`).
-/

namespace GlyphTable

-- ---------------------------------------------------------------------------
-- One row
-- ---------------------------------------------------------------------------

namespace Row

def edit (r : Row) (col : Nat) : Edit → Row
  | .replace text => { r with blocks := r.blocks.modify col ({ · with text }) }
  | .remove => r.removeAt col

def patched? (r : Row) (patch : Patch) : Option Row := do
  let col ← position? patch.col r.length
  let b ← r.blocks[col]?
  if b.text = patch.expected then some (r.edit col patch.edit) else none

def patchedBy? (r : Row) (patches : List Patch) : Option Row :=
  patches.foldlM patched? r

theorem patchedBy?_cons_eq_some {r r' : Row} {patch : Patch} {rest : List Patch} :
    r.patchedBy? (patch :: rest) = some r' ↔
      ∃ s, r.patched? patch = some s ∧ s.patchedBy? rest = some r' := by
  rw [patchedBy?, List.foldlM_cons]
  exact Option.bind_eq_some_iff

end Row

def patchesIn (count row : Nat) (patches : List Patch) : List Patch :=
  patches.filter fun patch => position? patch.row count = some row

theorem patchesIn_cons_self {count row : Nat} {patch : Patch}
    (h : position? patch.row count = some row) (rest : List Patch) :
    patchesIn count row (patch :: rest) = patch :: patchesIn count row rest :=
  List.filter_cons_of_pos (by simpa using h)

theorem patchesIn_cons_of_ne {count row : Nat} {patch : Patch}
    (h : position? patch.row count ≠ some row) (rest : List Patch) :
    patchesIn count row (patch :: rest) = patchesIn count row rest :=
  List.filter_cons_of_neg (by simpa using h)

namespace Page

theorem edit_eq (p : Page) (row col : Nat) (e : Edit) :
    p.edit row col e = { p with rows := p.rows.modify row (·.edit col e) } := by
  cases e <;> rfl

/-- What a patch does to a page is what it does to the row it addresses. -/
theorem apply_eq_ok_iff {p q : Page} {patch : Patch} :
    p.apply patch = .ok q ↔ ∃ row r r', position? patch.row p.rows.length = some row ∧
      p.rows[row]? = some r ∧ r.patched? patch = some r' ∧
        q = { p with rows := p.rows.set row r' } := by
  rw [apply, text?, block?, cellAt?]
  cases hrow : position? patch.row p.rows.length with
  | none => simp
  | some row =>
    obtain ⟨r, hr⟩ : ∃ r, p.rows[row]? = some r :=
      ⟨_, List.getElem?_eq_getElem (position?_lt hrow)⟩
    cases hcol : position? patch.col r.length with
    | none => simp [hr, hcol, Row.patched?]
    | some col =>
      obtain ⟨b, hb⟩ : ∃ b, r.blocks[col]? = some b :=
        ⟨_, List.getElem?_eq_getElem (position?_lt hcol)⟩
      have hset : p.rows.modify row (·.edit col patch.edit) =
          p.rows.set row (r.edit col patch.edit) := by
        simp [List.modify_eq_set_getElem?, hr]
      by_cases htext : b.text = patch.expected
      · simp [hr, hcol, hb, htext, Row.patched?, edit_eq, hset, eq_comm]
      · simp [hr, hcol, hb, htext, Row.patched?]

-- ---------------------------------------------------------------------------
-- All rows
-- ---------------------------------------------------------------------------

structure ByRow (p : Page) (patches : List Patch) (q : Page) : Prop where
  rest : q = { p with rows := q.rows }
  length : q.rows.length = p.rows.length
  addressed : ∀ patch ∈ patches, ∃ row, position? patch.row p.rows.length = some row
  rows : ∀ (row : Nat) (r : Row), p.rows[row]? = some r → ∃ r', q.rows[row]? = some r' ∧
    r.patchedBy? (patchesIn p.rows.length row patches) = some r'

variable {p q : Page} {patch : Patch} {patches patches' : List Patch}

theorem byRow_nil : p.ByRow [] q ↔ q = p := by
  constructor
  · intro h
    have hrows : q.rows = p.rows := by
      refine List.ext_getElem? fun row => ?_
      cases hr : p.rows[row]? with
      | none => rwa [List.getElem?_eq_none_iff, h.length, ← List.getElem?_eq_none_iff]
      | some r =>
        obtain ⟨r', hr', heq⟩ := h.rows row r hr
        exact hr'.trans heq.symm
    rw [h.rest, hrows]
  · rintro rfl
    exact ⟨rfl, rfl, by simp, fun row r hr => ⟨r, hr, rfl⟩⟩

theorem byRow_cons : p.ByRow (patch :: patches) q ↔ ∃ row r s,
    position? patch.row p.rows.length = some row ∧ p.rows[row]? = some r ∧
      r.patched? patch = some s ∧ ByRow { p with rows := p.rows.set row s } patches q := by
  constructor
  · intro h
    obtain ⟨row, hrow⟩ := h.addressed patch List.mem_cons_self
    have hlt := position?_lt hrow
    obtain ⟨r', hr', hpatched⟩ := h.rows row _ (List.getElem?_eq_getElem hlt)
    rw [patchesIn_cons_self hrow, Row.patchedBy?_cons_eq_some] at hpatched
    obtain ⟨s, hs, hrest⟩ := hpatched
    refine ⟨row, _, s, hrow, List.getElem?_eq_getElem hlt, hs, h.rest, ?_, ?_, fun i t ht => ?_⟩
    · simpa using h.length
    · simpa using fun patch hpatch => h.addressed patch (List.mem_cons_of_mem _ hpatch)
    · simp only [List.length_set]
      by_cases hi : row = i
      · subst hi
        obtain rfl : s = t := by simpa [List.getElem?_set_self hlt] using ht
        exact ⟨r', hr', hrest⟩
      · rw [List.getElem?_set_ne hi] at ht
        obtain ⟨t', ht', hpatched⟩ := h.rows i t ht
        rw [patchesIn_cons_of_ne (by rw [hrow]; simpa using hi)] at hpatched
        exact ⟨t', ht', hpatched⟩
  · rintro ⟨row, r, s, hrow, hr, hs, h⟩
    have hlength : q.rows.length = p.rows.length := by simpa using h.length
    refine ⟨h.rest, hlength, fun other hother => ?_, fun i t ht => ?_⟩
    · rcases List.mem_cons.mp hother with rfl | hother
      · exact ⟨row, hrow⟩
      · simpa using h.addressed other hother
    · have hrows := h.rows i
      simp only [List.length_set] at hrows
      by_cases hi : row = i
      · subst hi
        obtain rfl := Option.some.inj (hr.symm.trans ht)
        obtain ⟨r', hr', hrest⟩ := hrows s (List.getElem?_set_self (position?_lt hrow))
        rw [patchesIn_cons_self hrow]
        exact ⟨r', hr', Row.patchedBy?_cons_eq_some.mpr ⟨s, hs, hrest⟩⟩
      · rw [List.getElem?_set_ne hi] at hrows
        rw [patchesIn_cons_of_ne (by rw [hrow]; simpa using hi)]
        exact hrows t ht

theorem applyAll_eq_ok_iff : p.applyAll patches = .ok q ↔ p.ByRow patches q := by
  induction patches generalizing p with
  | nil =>
    rw [byRow_nil]
    exact ⟨fun h => (Except.ok.inj h).symm, fun h => congrArg Except.ok h.symm⟩
  | cons patch rest ih =>
    rw [byRow_cons]
    constructor
    · intro h
      obtain ⟨_, happly, hrest⟩ := foldlM_cons_eq_ok.mp h
      obtain ⟨row, r, s, hrow, hr, hs, rfl⟩ := apply_eq_ok_iff.mp happly
      exact ⟨row, r, s, hrow, hr, hs, ih.mp hrest⟩
    · rintro ⟨row, r, s, hrow, hr, hs, hrest⟩
      exact foldlM_cons_eq_ok.mpr
        ⟨_, apply_eq_ok_iff.mpr ⟨row, r, s, hrow, hr, hs, rfl⟩, ih.mpr hrest⟩

theorem ByRow.congr (h : p.ByRow patches q) (hmem : ∀ patch, patch ∈ patches' ↔ patch ∈ patches)
    (hrows : ∀ row, patchesIn p.rows.length row patches' = patchesIn p.rows.length row patches) :
    p.ByRow patches' q where
  rest := h.rest
  length := h.length
  addressed patch hpatch := h.addressed patch ((hmem patch).mp hpatch)
  rows row r hr := by
    rw [hrows]
    exact h.rows row r hr

end Page

end GlyphTable
