import GlyphTable.Proofs.Revision.Unchanged

/-!
# What becomes of the patches of a catalog

Carrying a catalog over loses no patch, makes none twice and alters none: every entry is either
handed back as it is or carried to one address, with its expected text and its edit
(`CarryOver.ofCatalog_accounts`). It is handed back exactly if it does not apply at its turn,
or the cell it edits has no counterpart, or a removal carried over before has taken that out.

Here nothing is asked of the mapping, so two cells may have the same counterpart. What is left
of the new revision is therefore told from the removals carried over (`Replay.Lacks`), and not
from a replay on it.
-/

namespace GlyphTable

-- ---------------------------------------------------------------------------
-- Edited cells
-- ---------------------------------------------------------------------------

/-- Whether a patch applies after the replay of `done`, and edits the cell that stood at `a`
first. -/
structure Document.Edits (d : Document) (done : List (Nat × Patch)) (page : Nat) (patch : Patch)
    (a : Address) : Prop where
  applies : (d.replay done).Applies page patch
  page_eq : a.page = page
  cell : ∃ p col c, d.page? page = some p ∧
    (p.replay (patchesOn page done)).cellAt? patch.row patch.col = some (a.row, col) ∧
    ((TracedPage.ofPage p).replay (patchesOn page done)).cell? a.row col = some c ∧ c.home = a.col

theorem Replay.Reenacts.redo_eq_some_iff {s : Replay} {old : Document} {done : List (Nat × Patch)}
    (h : s.Reenacts old done) {page : Nat} {patch : Patch} {row home : Nat} :
    (s.redo page patch).1 = some (row, home) ↔ old.Edits done page patch ⟨page, row, home⟩ := by
  by_cases happlies : (old.replay done).Applies page patch
  · obtain ⟨now, edited, hnow, hok⟩ := id happlies
    rw [old.page_replay] at hnow
    obtain ⟨p, hp, rfl⟩ := Option.map_eq_some_iff.mp hnow
    have hworking := h page
    rw [hp] at hworking
    have hfollows := (TracedPage.Follows.ofPage p).replay (patchesOn page done)
    rcases TracedPage.apply_trace hfollows.texts patch with
      ⟨i, col, c, hat, hc, -, hok', -, -⟩ | ⟨⟨e, herror⟩, -⟩
    · have hredo : (s.redo page patch).1 = some (i, c.home) := by
        rw [Replay.redo, hworking]
        simp [hat, hok', initial?_homes, hc]
      rw [hredo, Option.some.injEq, Prod.mk.injEq]
      constructor
      · rintro ⟨rfl, rfl⟩
        exact ⟨happlies, rfl, p, col, c, hp, hat, hc, rfl⟩
      · rintro ⟨-, -, p', col', c', hp', hat', hc', hhome⟩
        obtain rfl := Option.some.inj (hp.symm.trans hp')
        obtain ⟨rfl, rfl⟩ := Prod.mk.inj (Option.some.inj (hat.symm.trans hat'))
        obtain rfl := Option.some.inj (hc.symm.trans hc')
        exact ⟨rfl, hhome⟩
    · rw [herror] at hok
      cases hok
  · rw [(h.redo_eq_none_iff page patch).mpr happlies]
    exact iff_of_false (Option.some_ne_none _).symm fun hedits => happlies hedits.applies

theorem Replay.Reenacts.mem_cells {s : Replay} {old : Document} {done : List (Nat × Patch)}
    (h : s.Reenacts old done) {page : Nat} {patch : Patch} {row home : Nat}
    (hredo : (s.redo page patch).1 = some (row, home)) :
    ∃ x, (⟨page, row, home⟩, x) ∈ old.cells := by
  rcases (h.redo page patch).2 with ⟨row', home', hcell, hexp, -⟩ | ⟨hnone, -⟩
  · obtain ⟨rfl, rfl⟩ := Prod.mk.inj (Option.some.inj (hredo.symm.trans hcell))
    exact Document.mem_cells_of_textAfter? hexp
  · rw [hnone] at hredo
    cases hredo

namespace Matching

def Unmapped (m : Matching) (a : Address) : Prop :=
  ∃ i, m.source.position? a = some i ∧ m.mapping.get? i = none

variable {hash : List UInt8 → UInt64}

theorem lt_size_of_mapping {old new : Document} {i j : Nat}
    (h : (ofRevisions hash old new).mapping.get? i = some j) : j < new.cells.length := by
  rw [mapping_ofRevisions] at h
  have hlt := (Counterparts.get?_commonRuns_equal (CellSequence.separator_not_mem_hashes new) h).2.1
  exact hlt.trans_eq (CellSequence.size_ofDocument hash new)

theorem locate?_eq_none_iff {old new : Document} {a : Address} {x : Block}
    (h : (a, x) ∈ old.cells) :
    (ofRevisions hash old new).locate? a = none ↔ (ofRevisions hash old new).Unmapped a := by
  obtain ⟨i, hi⟩ := CellSequence.exists_position h
  have hi : (ofRevisions hash old new).source.position? a = some i := hi
  simp only [locate?, Unmapped, hi, Option.bind_eq_bind, Option.bind_some, Option.some.injEq,
    exists_eq_left']
  cases hj : (ofRevisions hash old new).mapping.get? i with
  | none => simp
  | some j =>
    obtain ⟨cell, hcell⟩ : ∃ cell, new.cells[j]? = some cell :=
      ⟨_, List.getElem?_eq_getElem (lt_size_of_mapping hj)⟩
    have haddress : (ofRevisions hash old new).target.address? j = some cell.1 := by
      simp only [ofRevisions, CellSequence.address?_ofDocument, List.getElem?_map, hcell]
      rfl
    simp [haddress]

end Matching

-- ---------------------------------------------------------------------------
-- Columns that are left
-- ---------------------------------------------------------------------------

section

variable {n length : Nat} {left : Nat → Bool}

theorem range_eq_append (h : n < length) : ∃ rest : List Nat,
    List.range length = List.range n ++ n :: rest ∧ ∀ k ∈ rest, k ≠ n := by
  obtain ⟨k, rfl⟩ := Nat.exists_eq_add_of_lt h
  refine ⟨(List.range k).map (n + 1 + ·), ?_, fun m hm => ?_⟩
  · rw [Nat.add_assoc, List.range_add, List.range_succ_eq_map, List.map_cons, List.map_map]
    refine congrArg (List.range n ++ n :: ·) (List.map_congr_left fun m _ => ?_)
    simp only [Function.comp_apply]
    omega
  · obtain ⟨j, -, rfl⟩ := List.mem_map.mp hm
    omega

theorem findIdx?_filter_range (h : n < length) :
    ((List.range length).filter left).findIdx? (· = n) =
      if left n then some ((List.range n).filter left).length else none := by
  obtain ⟨rest, hrange, hrest⟩ := range_eq_append h
  have hbefore : ((List.range n).filter left).findIdx? (· = n) = none :=
    List.findIdx?_eq_none_iff.mpr fun k hk => by
      have hlt := List.mem_range.mp (List.mem_filter.mp hk).1
      exact decide_eq_false hlt.ne
  rw [hrange, List.filter_append, List.findIdx?_append, hbefore, Option.none_or]
  by_cases hleft : left n = true
  · rw [List.filter_cons_of_pos hleft, if_pos hleft, List.findIdx?_cons]
    simp
  · rw [List.filter_cons_of_neg hleft, if_neg hleft, Option.map_eq_none_iff]
    exact List.findIdx?_eq_none_iff.mpr fun k hk =>
      decide_eq_false (hrest k (List.mem_filter.mp hk).1)

theorem eraseIdx_filter_range (h : n < length) (hleft : left n = true) :
    ((List.range length).filter left).eraseIdx ((List.range n).filter left).length =
      (List.range length).filter fun k => left k && decide (k ≠ n) := by
  obtain ⟨rest, hrange, hrest⟩ := range_eq_append h
  rw [hrange, List.filter_append, List.filter_cons_of_pos hleft,
    List.eraseIdx_append_of_length_le le_rfl, Nat.sub_self, List.eraseIdx_zero, List.tail_cons,
    List.filter_append, List.filter_cons_of_neg (by simp)]
  congr 1 <;> refine List.filter_congr fun k hk => ?_
  · simp [(List.mem_range.mp hk).ne]
  · simp [hrest k hk]

end

namespace Replay

def Lacks (s : Replay) (new : Document) (gone : List Address) : Prop :=
  ∀ q row : Nat, (s.ahead[q]?).bind (·[row]?) =
    ((new.page? q).bind (·.rows[row]?)).map fun r =>
      (List.range r.length).filter fun col => ⟨q, row, col⟩ ∉ gone

variable {s : Replay} {old new : Document} {gone : List Address}

theorem lacks_start (old new : Document) : (start old new).Lacks new [] := by
  intro q row
  have hall (n : Nat) : (List.range n).filter (fun col => ⟨q, row, col⟩ ∉ ([] : List Address)) =
      List.range n := List.filter_eq_self.mpr fun _ _ => by simp
  simp only [start, List.getElem?_map, Document.page?, hall]
  cases new.pages[q]? with
  | none => rfl
  | some p => exact List.getElem?_map

/-- Where a cell of the new revision stands when those that are gone have been taken out. -/
def standing (b : Address) (gone : List Address) : Address where
  page := b.page
  row := b.row
  col := ((List.range b.col).filter fun col => ⟨b.page, b.row, col⟩ ∉ gone).length

theorem Lacks.remove (h : s.Lacks new gone) {b : Address} {p : Page} {r : Row}
    {columns : ColumnTable}
    (hp : new.page? b.page = some p) (hr : p.rows[b.row]? = some r) (hb : b.col < r.length)
    (hcolumns : s.ahead[b.page]? = some columns) (hgone : b ∉ gone) :
    Lacks { s with ahead := s.ahead.set b.page (columns.remove b.row (standing b gone).col) } new
      (gone ++ [b]) := by
  obtain ⟨q, row, n⟩ := b
  simp only at hp hr hb hcolumns
  have hlast := (List.getElem?_eq_some_iff.mp hcolumns).1
  have hrow := h q row
  rw [hcolumns, Option.bind_some, hp, Option.bind_some, hr, Option.map_some] at hrow
  intro q' row'
  by_cases hplace : q' = q ∧ row' = row
  · obtain ⟨rfl, rfl⟩ := hplace
    rw [List.getElem?_set_self hlast, Option.bind_some, ColumnTable.remove, List.getElem?_modify_eq,
      hrow, hp, Option.bind_some, hr, Option.map_some]
    refine congrArg some ((eraseIdx_filter_range hb (by simpa using hgone)).trans ?_)
    exact List.filter_congr fun k _ => by simp [not_or]
  · -- The cell is none of this row.
    have hother (col : Nat) : (⟨q', row', col⟩ : Address) ∉ gone ++ [⟨q, row, n⟩] ↔
        (⟨q', row', col⟩ : Address) ∉ gone := by
      have hne : (⟨q', row', col⟩ : Address) ≠ ⟨q, row, n⟩ := by
        rintro ⟨⟩
        exact hplace ⟨rfl, rfl⟩
      simp [hne]
    simp only [hother]
    rw [← h q' row']
    by_cases hq : q' = q
    · have hne : row ≠ row' := fun heq => hplace ⟨hq, heq.symm⟩
      rw [hq, List.getElem?_set_self hlast, hcolumns, Option.bind_some, Option.bind_some,
        ColumnTable.remove, List.getElem?_modify]
      simp [hne]
    · rw [List.getElem?_set_ne (Ne.symm hq)]

theorem Lacks.follow (h : s.Lacks new gone) {b : Address} {y : Block} (hb : (b, y) ∈ new.cells)
    (e : Edit) :
    (s.follow b e).2.working = s.working ∧
      ((b ∈ gone ∧ (s.follow b e).1 = none ∧ (s.follow b e).2.Lacks new gone) ∨
        (b ∉ gone ∧ (s.follow b e).1 = some (standing b gone) ∧
          (s.follow b e).2.Lacks new (if e = .remove then gone ++ [b] else gone))) := by
  obtain ⟨p, r, hp, hr, hn⟩ := Document.mem_cells.mp hb
  have hlt : b.col < r.length := (List.getElem?_eq_some_iff.mp hn).1
  have hrow := h b.page b.row
  rw [hp, Option.bind_some, hr, Option.map_some] at hrow
  obtain ⟨columns, hcolumns, hleft⟩ := Option.bind_eq_some_iff.mp hrow
  have hpresent : columns.present? b.row b.col =
      if b ∉ gone then some (standing b gone).col else none := by
    rw [ColumnTable.present?, hleft, Option.bind_some, findIdx?_filter_range hlt]
    simp [standing]
  rw [Replay.follow, hcolumns]
  by_cases hgone : b ∈ gone
  · rw [if_neg (not_not.mpr hgone)] at hpresent
    simp only [hpresent]
    exact ⟨trivial, .inl ⟨hgone, trivial, h⟩⟩
  · rw [if_pos hgone] at hpresent
    simp only [hpresent]
    refine ⟨trivial, .inr ⟨hgone, rfl, ?_⟩⟩
    cases e with
    | replace text =>
      have hsame : s.ahead.set b.page columns = s.ahead := by
        obtain ⟨hlast, rfl⟩ := List.getElem?_eq_some_iff.mp hcolumns
        exact List.set_getElem_self hlast
      rw [if_neg Edit.noConfusion, ColumnTable.edit, hsame]
      exact h
    | remove => exact h.remove hp hr hlt hcolumns hgone

end Replay

-- ---------------------------------------------------------------------------
-- Fates
-- ---------------------------------------------------------------------------

/-- What became of an entry of a catalog: the cell of the old revision that it edited, by the
address that had first, and the address it was carried to. -/
structure Fate where
  page : Nat
  patch : Patch
  cell? : Option Address
  target? : Option Address
deriving DecidableEq, Repr

theorem filterMap_concat {α β : Type} (f : α → Option β) (l : List α) (a : α) :
    (l ++ [a]).filterMap f = l.filterMap f ++ (f a).toList := by
  rw [List.filterMap_append, List.filterMap_cons, List.filterMap_nil]
  cases f a <;> rfl

namespace Fate

def entry (f : Fate) : Nat × Patch :=
  (f.page, f.patch)

def carried? (f : Fate) : Option (Nat × Patch) :=
  f.target?.map fun b => (b.page, f.patch.movedTo b.row b.col)

def returned? (f : Fate) : Option (Nat × Patch) :=
  if f.target? = none then some f.entry else none

def counterpart? (m : Matching) (f : Fate) : Option Address :=
  f.cell?.bind m.locate?

def removed? (m : Matching) (f : Fate) : Option Address :=
  if f.target? ≠ none ∧ f.patch.edit = .remove then f.counterpart? m else none

theorem carried?_of_none {f : Fate} (h : f.target? = none) : f.carried? = none := by
  rw [carried?, h, Option.map_none]

theorem carried?_of_some {f : Fate} {b : Address} (h : f.target? = some b) :
    f.carried? = some (b.page, f.patch.movedTo b.row b.col) := by
  rw [carried?, h, Option.map_some]

theorem returned?_of_none {f : Fate} (h : f.target? = none) : f.returned? = some f.entry :=
  if_pos h

theorem returned?_of_some {f : Fate} {b : Address} (h : f.target? = some b) : f.returned? = none :=
  if_neg fun hnone => by cases h.symm.trans hnone

theorem removed?_of_none {m : Matching} {f : Fate} (h : f.target? = none) : f.removed? m = none :=
  if_neg fun hboth => hboth.1 h

theorem removed?_of_some {m : Matching} {f : Fate} {b : Address} (h : f.target? = some b) :
    f.removed? m = if f.patch.edit = .remove then f.counterpart? m else none := by
  rw [removed?, h]
  simp only [ne_eq, reduceCtorEq, not_false_eq_true, true_and]

/-- What decides the fate of an entry after those of `done`: where it is in the old revision, what
keeps it from being carried over, and where it stands in the new revision otherwise. -/
structure Decided (hash : List UInt8 → UInt64) (old new : Document) (done : List Fate)
    (f : Fate) : Prop where
  cell_eq_some_iff : ∀ a, f.cell? = some a ↔ old.Edits (done.map entry) f.page f.patch a
  target_eq_none_iff : f.target? = none ↔
    ¬ (old.replay (done.map entry)).Applies f.page f.patch ∨
      (∃ a, f.cell? = some a ∧ (Matching.ofRevisions hash old new).Unmapped a) ∨
        ∃ g ∈ done, ∃ b, f.counterpart? (.ofRevisions hash old new) = some b ∧
          g.removed? (.ofRevisions hash old new) = some b
  target_eq_some : ∀ b, f.target? = some b →
    ∃ b', f.counterpart? (.ofRevisions hash old new) = some b' ∧
      b = Replay.standing b' (done.filterMap (removed? (.ofRevisions hash old new)))

end Fate

namespace CarryOver

/-- What a catalog carried over comes to: every entry has one fate, and the results are the
entries carried and those returned, page by page and in turn. -/
structure Accounts (hash : List UInt8 → UInt64) (old new : Document) (c : Catalog) (r : CarryOver)
    (fates : List Fate) : Prop where
  entries_eq : fates.map Fate.entry = c.entries
  decided : ∀ done f rest, fates = done ++ f :: rest → f.Decided hash old new done
  size_eq : r.carried.size + r.returned.size = c.size
  document_carried : r.carried.document = new.id
  document_returned : r.returned.document = old.id
  mem_carried_iff : ∀ q patches, (q, patches) ∈ r.carried.pages ↔
    patches ≠ [] ∧ patches = patchesOn q (fates.filterMap Fate.carried?)
  mem_returned_iff : ∀ q patches, (q, patches) ∈ r.returned.pages ↔
    patches ≠ [] ∧ patches = patchesOn q (fates.filterMap Fate.returned?)
  address_nonneg : ∀ q patch, (q, patch) ∈ r.carried.entries → 0 ≤ patch.row ∧ 0 ≤ patch.col

structure Fated (hash : List UInt8 → UInt64) (old new : Document) (fates : List Fate) (s : Replay)
    (r : CarryOver) : Prop where
  reenacts : s.Reenacts old (fates.map Fate.entry)
  lacks : s.Lacks new (fates.filterMap (Fate.removed? (.ofRevisions hash old new)))
  carried_eq : r.carried = .ofEntries new.id (fates.filterMap Fate.carried?)
  returned_eq : r.returned = .ofEntries old.id (fates.filterMap Fate.returned?)
  decided : ∀ done f rest, fates = done ++ f :: rest → f.Decided hash old new done

def nextFate (m : Matching) (s : Replay) (page : Nat) (patch : Patch) : Fate where
  page := page
  patch := patch
  cell? := (s.redo page patch).1.map fun (row, col) => ⟨page, row, col⟩
  target? := (s.carry m page patch).1

variable {hash : List UInt8 → UInt64} {old new : Document} {fates : List Fate} {s : Replay}
    {r : CarryOver}

theorem fated_start (hash : List UInt8 → UInt64) (old new : Document) :
    Fated hash old new [] (Replay.start old new) ⟨.empty new.id, .empty old.id⟩ :=
  ⟨Replay.reenacts_start old new, Replay.lacks_start old new, rfl, rfl,
    fun done f rest h => by simp at h⟩

theorem carry_eq (m : Matching) (s : Replay) (page : Nat) (patch : Patch) :
    s.carry m page patch = match (nextFate m s page patch).counterpart? m with
      | none => (none, (s.redo page patch).2)
      | some b => (s.redo page patch).2.follow b patch.edit := by
  rw [Replay.carry, Fate.counterpart?, nextFate, Option.bind_map]
  rfl

theorem Fated.carry (h : Fated hash old new fates s r) (page : Nat) (patch : Patch) :
    let m := Matching.ofRevisions hash old new
    let gone := fates.filterMap (Fate.removed? m)
    let f := nextFate m s page patch
    (s.carry m page patch).2.working = (s.redo page patch).2.working ∧
      (s.carry m page patch).2.Lacks new (gone ++ (f.removed? m).toList) ∧
      ((f.target? = none ∧ ∀ b, f.counterpart? m = some b → b ∈ gone) ∨
        ∃ b, f.counterpart? m = some b ∧ b ∉ gone ∧ f.target? = some (Replay.standing b gone)) := by
  intro m gone f
  have hlacks : (s.redo page patch).2.Lacks new gone := by
    intro q row
    rw [Replay.ahead_redo]
    exact h.lacks q row
  have htarget : f.target? = (s.carry m page patch).1 := rfl
  rw [carry_eq m s page patch] at htarget ⊢
  cases hcounterpart : f.counterpart? m with
  | none =>
    simp only [show (nextFate m s page patch).counterpart? m = none from hcounterpart] at htarget ⊢
    refine ⟨trivial, ?_, .inl ⟨htarget, nofun⟩⟩
    rw [Fate.removed?_of_none htarget, Option.toList_none, List.append_nil]
    exact hlacks
  | some b =>
    obtain ⟨a, -, hab⟩ := Option.bind_eq_some_iff.mp hcounterpart
    obtain ⟨x, y, -, hb, -⟩ := Matching.mem_cells_of_locate? hab
    simp only [show (nextFate m s page patch).counterpart? m =
      some b from hcounterpart] at htarget ⊢
    obtain ⟨hworking, ⟨hgone, hnone, hleft⟩ | ⟨hgone, hsome, hleft⟩⟩ := hlacks.follow hb patch.edit
    · rw [hnone] at htarget
      refine ⟨hworking, ?_, .inl ⟨htarget, fun b' hb' => ?_⟩⟩
      · rw [Fate.removed?_of_none htarget, Option.toList_none, List.append_nil]
        exact hleft
      · rwa [← Option.some.inj hb']
    · rw [hsome] at htarget
      refine ⟨hworking, ?_, .inr ⟨b, rfl, hgone, htarget⟩⟩
      have hpatch : f.patch = patch := rfl
      rw [Fate.removed?_of_some htarget, hcounterpart, hpatch]
      by_cases hedit : patch.edit = .remove
      · rw [if_pos hedit] at hleft
        rwa [if_pos hedit]
      · rw [if_neg hedit] at hleft
        rwa [if_neg hedit, Option.toList_none, List.append_nil]

theorem Fated.cell_eq_some_iff (h : Fated hash old new fates s r) (m : Matching) (page : Nat)
    (patch : Patch)
    (a : Address) : (nextFate m s page patch).cell? = some a ↔
      old.Edits (fates.map Fate.entry) page patch a := by
  rw [nextFate, Option.map_eq_some_iff]
  constructor
  · rintro ⟨⟨row, home⟩, hredo, rfl⟩
    exact h.reenacts.redo_eq_some_iff.mp hredo
  · intro hedits
    obtain ⟨q, row, home⟩ := a
    obtain rfl := hedits.page_eq
    exact ⟨(row, home), h.reenacts.redo_eq_some_iff.mpr hedits, rfl⟩

theorem Fated.decided_next (h : Fated hash old new fates s r) (page : Nat) (patch : Patch) :
    (nextFate (.ofRevisions hash old new) s page patch).Decided hash old new fates := by
  have hcell := h.cell_eq_some_iff (.ofRevisions hash old new) page patch
  obtain ⟨-, -, ⟨hnone, hgone⟩ | ⟨b, hb, hleft, hsome⟩⟩ := h.carry page patch
  · refine ⟨hcell, iff_of_true hnone ?_, fun b hsome => ?_⟩
    · by_cases happlies : (old.replay (fates.map Fate.entry)).Applies page patch
      · obtain ⟨⟨row, home⟩, hredo⟩ := Option.ne_none_iff_exists'.mp fun hredo =>
          (h.reenacts.redo_eq_none_iff page patch).mp hredo happlies
        obtain ⟨x, hx⟩ := h.reenacts.mem_cells hredo
        have ha := (hcell _).mpr (h.reenacts.redo_eq_some_iff.mp hredo)
        cases hlocate : (Matching.ofRevisions hash old new).locate? ⟨page, row, home⟩ with
        | none => exact .inr (.inl ⟨_, ha, (Matching.locate?_eq_none_iff hx).mp hlocate⟩)
        | some b =>
          have hb := (congrArg (Option.bind · (Matching.ofRevisions hash old new).locate?)
            ha).trans hlocate
          obtain ⟨g, hg, hremoved⟩ := List.mem_filterMap.mp (hgone b hb)
          exact .inr (.inr ⟨g, hg, b, hb, hremoved⟩)
      · exact .inl happlies
    · rw [hnone] at hsome
      cases hsome
  · obtain ⟨a, ha, hlocate⟩ := Option.bind_eq_some_iff.mp hb
    refine ⟨hcell, iff_of_false ?_ ?_,
      fun b' hb' => ⟨b, hb, Option.some.inj (hb'.symm.trans hsome)⟩⟩
    · rw [hsome]
      nofun
    · rintro (hnot | ⟨a', ha', hunmapped⟩ | ⟨g, hg, b', hb', hremoved⟩)
      · exact hnot ((hcell a).mp ha).applies
      · obtain rfl := Option.some.inj (ha.symm.trans ha')
        obtain ⟨x, -, hx, -⟩ := Matching.mem_cells_of_locate? hlocate
        rw [(Matching.locate?_eq_none_iff hx).mpr hunmapped] at hlocate
        cases hlocate
      · obtain rfl := Option.some.inj (hb.symm.trans hb')
        exact hleft (List.mem_filterMap.mpr ⟨g, hg, hremoved⟩)

theorem carried_add {id : RevisionId}
    (h : r.carried = .ofEntries id (fates.filterMap Fate.carried?))
    (f : Fate) : (r.add f.page f.patch f.target?).carried =
      .ofEntries id ((fates ++ [f]).filterMap Fate.carried?) := by
  rw [filterMap_concat]
  cases htarget : f.target? with
  | none =>
    rw [Fate.carried?_of_none htarget, Option.toList_none, List.append_nil]
    exact h
  | some b =>
    rw [Fate.carried?_of_some htarget, Option.toList_some, Catalog.ofEntries_concat, ← h]
    rfl

theorem returned_add {id : RevisionId}
    (h : r.returned = .ofEntries id (fates.filterMap Fate.returned?))
    (f : Fate) : (r.add f.page f.patch f.target?).returned =
      .ofEntries id ((fates ++ [f]).filterMap Fate.returned?) := by
  rw [filterMap_concat]
  cases htarget : f.target? with
  | none =>
    rw [Fate.returned?_of_none htarget, Option.toList_some, Catalog.ofEntries_concat, ← h]
    rfl
  | some b =>
    rw [Fate.returned?_of_some htarget, Option.toList_none, List.append_nil]
    exact h

theorem Fated.step (h : Fated hash old new fates s r) (page : Nat) (patch : Patch) :
    let m := Matching.ofRevisions hash old new
    Fated hash old new (fates ++ [nextFate m s page patch]) (s.carry m page patch).2
      (r.add page patch (s.carry m page patch).1) := by
  intro m
  obtain ⟨hworking, hlacks, -⟩ := h.carry page patch
  refine ⟨fun q => ?_, ?_, carried_add h.carried_eq (nextFate m s page patch),
    returned_add h.returned_eq (nextFate m s page patch), fun done f rest heq => ?_⟩
  · rw [hworking, List.map_append]
    exact (h.reenacts.redo page patch).1 q
  · rw [filterMap_concat]
    exact hlacks
  · rcases List.eq_nil_or_concat' rest with rfl | ⟨rest, last, rfl⟩
    · obtain ⟨rfl, hlast⟩ := List.append_inj' heq rfl
      obtain rfl := List.singleton_inj.mp hlast
      exact h.decided_next page patch
    · rw [← List.cons_append, ← List.append_assoc] at heq
      exact h.decided done f rest (List.append_inj' heq rfl).1

theorem Fated.run (entries : List (Nat × Patch)) (h : Fated hash old new fates s r) :
    let last := entries.foldl (fun ((s, r) : Replay × CarryOver) ((page, patch) : Nat × Patch) =>
      let (target, s) := s.carry (Matching.ofRevisions hash old new) page patch
      (s, r.add page patch target)) (s, r)
    ∃ more, more.map Fate.entry = entries ∧ Fated hash old new (fates ++ more) last.1 last.2 := by
  induction entries generalizing fates s r with
  | nil => exact ⟨[], rfl, by rwa [List.append_nil]⟩
  | cons entry rest ih =>
    obtain ⟨page, patch⟩ := entry
    obtain ⟨more, hmore, hrest⟩ := ih (h.step page patch)
    refine ⟨nextFate (.ofRevisions hash old new) s page patch :: more,
      congrArg ((page, patch) :: ·) hmore, ?_⟩
    rw [List.append_assoc] at hrest
    exact hrest

theorem length_carried_add_returned (fates : List Fate) :
    (fates.filterMap Fate.carried?).length + (fates.filterMap Fate.returned?).length =
      fates.length := by
  induction fates with
  | nil => rfl
  | cons f rest ih =>
    cases htarget : f.target? with
    | none =>
      rw [List.filterMap_cons_none (Fate.carried?_of_none htarget),
        List.filterMap_cons_some (Fate.returned?_of_none htarget), List.length_cons,
          List.length_cons]
      omega
    | some b =>
      rw [List.filterMap_cons_some (Fate.carried?_of_some htarget),
        List.filterMap_cons_none (Fate.returned?_of_some htarget), List.length_cons,
          List.length_cons]
      omega

theorem Fated.accounts {c : Catalog} (h : Fated hash old new fates s r)
    (hentries : fates.map Fate.entry = c.entries) :
    Accounts hash old new c r fates := by
  refine ⟨hentries, h.decided, ?_, ?_, ?_, fun q patches => ?_, fun q patches => ?_,
    fun q patch hpatch => ?_⟩
  · rw [h.carried_eq, h.returned_eq, Catalog.size_ofEntries, Catalog.size_ofEntries,
      length_carried_add_returned, ← c.length_entries, ← hentries, List.length_map]
  · rw [h.carried_eq, Catalog.document_ofEntries]
  · rw [h.returned_eq, Catalog.document_ofEntries]
  · rw [h.carried_eq, Catalog.mem_pages_ofEntries]
  · rw [h.returned_eq, Catalog.mem_pages_ofEntries]
  · rw [h.carried_eq, Catalog.mem_entries_ofEntries] at hpatch
    obtain ⟨f, -, hcarried⟩ := List.mem_filterMap.mp hpatch
    obtain ⟨b, -, heq⟩ := Option.map_eq_some_iff.mp hcarried
    cases heq
    exact ⟨Int.natCast_nonneg _, Int.natCast_nonneg _⟩

/-- Carrying a catalog over loses no patch, makes none twice and alters none. -/
theorem ofCatalog_accounts (hash : List UInt8 → UInt64) (old new : Document) (c : Catalog)
    (hid : c.document = old.id) :
    ∃ r fates, ofCatalog hash old new c = .ok r ∧ Accounts hash old new c r fates := by
  obtain ⟨fates, hentries, hfated⟩ := (fated_start hash old new).run c.entries
  exact ⟨_, fates, by rw [ofCatalog, if_neg (not_not.mpr hid)], hfated.accounts hentries⟩

/-- Two cells have one counterpart, which the first patch takes out; and one has none. -/
theorem ofCatalog_accounts_shared :
    let old := Document.ofTexts ⟨"t", "c", "1"⟩ [["q", "y", "x", "y"]]
    let new := Document.ofTexts ⟨"t", "c", "2"⟩ [["x", "y", "y"]]
    let c := Catalog.ofEntries old.id
      [(0, ⟨0, 1, "y", .remove⟩), (0, ⟨0, -1, "y", .replace "Y"⟩), (0, ⟨0, 0, "q", .remove⟩),
        (0, ⟨0, 1, "x", .remove⟩), (0, ⟨0, 0, "x", .replace "X"⟩)]
    ∃ r fates, ofCatalog Word64.hash old new c = .ok r ∧ Accounts Word64.hash old new c r fates ∧
      r.carried.entries = [(0, ⟨0, 1, "y", .remove⟩), (0, ⟨0, 0, "x", .replace "X"⟩)] ∧
      r.returned.entries = [(0, ⟨0, -1, "y", .replace "Y"⟩), (0, ⟨0, 0, "q", .remove⟩),
        (0, ⟨0, 1, "x", .remove⟩)] := by
  intro old new c
  obtain ⟨r, fates, hr, haccounts⟩ := ofCatalog_accounts Word64.hash old new c rfl
  have hentries : (ofCatalog Word64.hash old new c).toOption.map (fun r =>
    (r.carried.entries, r.returned.entries)) =
      some ([(0, ⟨0, 1, "y", .remove⟩), (0, ⟨0, 0, "x", .replace "X"⟩)],
        [(0, ⟨0, -1, "y", .replace "Y"⟩), (0, ⟨0, 0, "q", .remove⟩),
            (0, ⟨0, 1, "x", .remove⟩)]) := by
    decide +kernel
  rw [hr] at hentries
  obtain ⟨hcarried, hreturned⟩ := Prod.mk.inj (Option.some.inj hentries)
  exact ⟨r, fates, hr, haccounts, hcarried, hreturned⟩

end CarryOver

end GlyphTable
