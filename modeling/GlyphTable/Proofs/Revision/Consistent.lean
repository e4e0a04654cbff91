import GlyphTable.Proofs.Revision.Located

/-!
# Matchings tell of cells only

A document laid out in sequence lists each of its cells once, by page, row and column, so that
places and addresses are inverse to each other. Every place that a matching maps lies in a run
inside both sequences that is mapped as a whole, and a located cell is one of the new revision
with the same content (`Matching.ofRevisions_consistent`).
-/

namespace GlyphTable

namespace Document

def block? (d : Document) (a : Address) : Option Block := do
  let p ← d.page? a.page
  let r ← p.rows[a.row]?
  r.blocks[a.col]?

theorem block?_eq_some_iff {d : Document} {a : Address} {b : Block} :
    d.block? a = some b ↔ (a, b) ∈ d.cells := by
  simp only [mem_cells, block?, Option.bind_eq_bind, Option.bind_eq_some_iff]
  constructor
  · rintro ⟨p, hp, r, hr, hb⟩
    exact ⟨p, r, hp, hr, hb⟩
  · rintro ⟨p, r, hp, hr, hb⟩
    exact ⟨p, hp, r, hr, hb⟩

end Document

namespace CellSequence

structure Lists (hash : List UInt8 → UInt64) (s : CellSequence) (d : Document) : Prop where
  ascending : s.addresses.toList.Pairwise Address.Before
  complete : ∀ a h, (∃ i, s.address? i = some a ∧ s.hashes[i]? = some h) ↔
    ∃ b, d.block? a = some b ∧ cellHash hash b.text = h
  inverse : ∀ a i, s.position? a = some i ↔ s.address? i = some a

theorem ofDocument_lists (hash : List UInt8 → UInt64) (d : Document) :
    Lists hash (ofDocument hash d) d := by
  refine ⟨?_, fun a h => ?_, fun a i => position?_eq_some_iff⟩
  · rw [ofDocument_eq]
    exact d.cells_ascending
  · simp only [address?_ofDocument, getElem?_hashes, List.getElem?_map, Option.map_eq_some_iff,
      Document.block?_eq_some_iff]
    constructor
    · rintro ⟨i, ⟨⟨a, b⟩, hi, rfl⟩, cell, hi', rfl⟩
      obtain rfl := Option.some.inj (hi.symm.trans hi')
      exact ⟨b, List.mem_of_getElem? hi, rfl⟩
    · rintro ⟨b, hb, rfl⟩
      obtain ⟨i, hi⟩ := List.mem_iff_getElem?.mp hb
      exact ⟨i, ⟨_, hi, rfl⟩, _, hi, rfl⟩

end CellSequence

namespace Matching

structure Consistent (hash : List UInt8 → UInt64) (m : Matching) (old new : Document) : Prop where
  source : m.source.Lists hash old
  target : m.target.Lists hash new
  mapped : ∀ i j, m.mapping.get? i = some j → j < m.target.size ∧
    ∃ h, m.source.hashes[i]? = some h ∧ m.target.hashes[j]? = some h
  /-- A mapped place lies in a stretch that ends where both sequences do at the latest. -/
  stretch : ∀ i j, m.mapping.get? i = some j → ∃ r : CommonRun, r.Covers i j ∧
    r.Matches m.source.hashes m.target.hashes ∧
    ∀ k < r.length, m.mapping.get? (r.source + k) = some (r.target + k)
  route : ∀ x y, m.locate? x = some y ↔ ∃ i j, m.source.address? i = some x ∧
    m.mapping.get? i = some j ∧ m.target.address? j = some y
  located : ∀ x y, m.locate? x = some y → ∃ b c, old.block? x = some b ∧ new.block? y = some c ∧
    cellHash hash b.text = cellHash hash c.text
  unknown : ∀ x, old.block? x = none → m.locate? x = none

variable {hash : List UInt8 → UInt64} {old new : Document}

theorem hash_of_mapping {i j : Nat} (h : (ofRevisions hash old new).mapping.get? i = some j) :
    j < (ofRevisions hash old new).target.size ∧
      ∃ v, (ofRevisions hash old new).source.hashes[i]? = some v ∧
      (ofRevisions hash old new).target.hashes[j]? = some v := by
  rw [mapping_ofRevisions] at h
  obtain ⟨hi, hj, hequal⟩ :=
    Counterparts.get?_commonRuns_equal (CellSequence.separator_not_mem_hashes new) h
  have hword := Array.getElem?_eq_getElem hi
  exact ⟨hj, _, hword, hequal ▸ hword⟩

theorem stretch_of_mapping {i j : Nat} (h : (ofRevisions hash old new).mapping.get? i = some j) :
    ∃ r : CommonRun, r.Covers i j ∧
      r.Matches (ofRevisions hash old new).source.hashes (ofRevisions hash old new).target.hashes ∧
      ∀ k < r.length, (ofRevisions hash old new).mapping.get? (r.source + k) =
      some (r.target + k) := by
  simp only [mapping_ofRevisions] at h ⊢
  obtain ⟨r, hr, hcovers⟩ := Counterparts.get?_ofRuns_iff.mp h
  exact ⟨r, hcovers,
    commonRuns_matches (CellSequence.separator_not_mem_hashes new)
      (Counterparts.mem_of_mem_taken hr),
    fun k hk => Counterparts.get?_ofRuns_iff.mpr ⟨r, hr, k, hk, rfl, rfl⟩⟩

theorem locate?_eq_some_iff {x y : Address} : (ofRevisions hash old new).locate? x = some y ↔
    ∃ i j, (ofRevisions hash old new).source.address? i = some x ∧
      (ofRevisions hash old new).mapping.get? i = some j ∧
      (ofRevisions hash old new).target.address? j = some y := by
  have hinverse (i : Nat) : (ofRevisions hash old new).source.position? x = some i ↔
      (ofRevisions hash old new).source.address? i = some x := CellSequence.position?_eq_some_iff
  simp only [locate?, Option.bind_eq_bind, Option.bind_eq_some_iff, hinverse, exists_and_left]

/-- Whatever the two revisions are, cells correspond to cells with the same content, in
stretches that lie inside both revisions. -/
theorem ofRevisions_consistent (hash : List UInt8 → UInt64) (old new : Document) :
    (ofRevisions hash old new).Consistent hash old new where
  source := CellSequence.ofDocument_lists hash old
  target := CellSequence.ofDocument_lists hash new
  mapped _ _ := hash_of_mapping
  stretch _ _ := stretch_of_mapping
  route _ _ := locate?_eq_some_iff
  located x y h := by
    obtain ⟨b, c, hb, hc, hhash⟩ := mem_cells_of_locate? h
    exact ⟨b, c, Document.block?_eq_some_iff.mpr hb, Document.block?_eq_some_iff.mpr hc, hhash⟩
  unknown x h := by
    refine Option.eq_none_iff_forall_ne_some.mpr fun y hy => ?_
    obtain ⟨b, c, hb, -⟩ := mem_cells_of_locate? hy
    rw [Document.block?_eq_some_iff.mpr hb] at h
    cases h

end Matching

end GlyphTable
