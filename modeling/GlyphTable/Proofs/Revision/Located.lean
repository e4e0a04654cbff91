import GlyphTable.Proofs.Regrouping
import GlyphTable.Proofs.Revision.Coverage
import GlyphTable.Revision.Matching

/-!
# Located cells

Every cell of a document has one address. The counterpart that `Matching.locate?` gives
for a cell of the old revision is a cell of the new one with the same hash, and where
the mapping is one-to-one no two cells have the same.
-/

namespace GlyphTable

def Address.Before (a b : Address) : Prop :=
  a.page < b.page ∨ a.page = b.page ∧ (a.row < b.row ∨ a.row = b.row ∧ a.col < b.col)

theorem Address.Before.ne {a b : Address} (h : a.Before b) : a ≠ b := by
  rintro rfl
  rw [Before] at h
  omega

namespace Document

theorem mem_cells {d : Document} {a : Address} {b : Block} :
    (a, b) ∈ d.cells ↔ ∃ p r, d.page? a.page = some p ∧ p.rows[a.row]? = some r ∧
      r.blocks[a.col]? = some b := by
  simp only [cells, List.mem_flatMap, List.mem_map, Prod.exists, List.mem_zipIdx_iff_getElem?,
    Prod.mk.injEq, page?]
  constructor
  · rintro ⟨p, page, hp, r, row, hr, x, col, hx, rfl, rfl⟩
    exact ⟨p, r, hp, hr, hx⟩
  · rintro ⟨p, r, hp, hr, hb⟩
    exact ⟨p, a.page, hp, r, a.row, hr, b, a.col, hb, rfl, rfl⟩

theorem cells_ascending (d : Document) : (d.cells.map (·.1)).Pairwise Address.Before := by
  simp only [cells, List.map_flatMap, List.map_map]
  refine pairwise_flatMap_zipIdx (fun page => pairwise_flatMap_zipIdx (fun row => ?_) ?_) ?_
  · refine List.pairwise_map.mpr ((pairwise_zipIdx row.1.blocks).imp fun hlt => ?_)
    exact .inr ⟨rfl, .inr ⟨rfl, hlt⟩⟩
  · intro row below hlt a ha b hb
    obtain ⟨cell, -, rfl⟩ := List.mem_map.mp ha
    obtain ⟨cell', -, rfl⟩ := List.mem_map.mp hb
    exact .inr ⟨rfl, .inl hlt⟩
  · intro page next hlt a ha b hb
    obtain ⟨row, -, ha⟩ := List.mem_flatMap.mp ha
    obtain ⟨cell, -, rfl⟩ := List.mem_map.mp ha
    obtain ⟨row', -, hb⟩ := List.mem_flatMap.mp hb
    obtain ⟨cell', -, rfl⟩ := List.mem_map.mp hb
    exact .inl hlt

theorem nodup_addresses (d : Document) : (d.cells.map (·.1)).Nodup :=
  d.cells_ascending.imp Address.Before.ne

end Document

section

variable {hash : List UInt8 → UInt64}

theorem cellHash_ne_separator (text : String) : cellHash hash text ≠ separator := by
  rw [cellHash]
  by_cases h : hash text.toUTF8.data.toList = separator
  · simp only [h, if_true]
    decide
  · simp only [h, if_false]
    exact h

namespace CellSequence

theorem ofDocument_eq (d : Document) : ofDocument hash d =
    ⟨(d.cells.map (·.1)).toArray, (d.cells.map fun c => cellHash hash c.2.text).toArray,
      (d.cells.map (·.1)).zipIdx.reverse⟩ := by
  rw [ofDocument]
  induction d.cells using List.reverseRecOn with
  | nil => rfl
  | append_singleton cells c ih =>
    rw [List.foldl_concat, ih]
    simp [add, List.zipIdx_append]

theorem size_ofDocument (hash : List UInt8 → UInt64) (d : Document) :
    (ofDocument hash d).size = d.cells.length := by
  simp [size, ofDocument_eq]

theorem address?_ofDocument (d : Document) (i : Nat) :
    (ofDocument hash d).address? i = (d.cells.map (·.1))[i]? := by
  rw [address?, ofDocument_eq, List.getElem?_toArray]

theorem places_ofDocument (d : Document) :
    (ofDocument hash d).places = (d.cells.map (·.1)).zipIdx.reverse := by
  rw [ofDocument_eq]

theorem getElem?_hashes (d : Document) (i : Nat) :
    (ofDocument hash d).hashes[i]? = (d.cells[i]?).map fun (_, b) => cellHash hash b.text := by
  rw [ofDocument_eq, List.getElem?_toArray, List.getElem?_map]

theorem separator_not_mem_hashes (d : Document) : separator ∉ (ofDocument hash d).hashes := by
  intro hmem
  obtain ⟨i, hi⟩ := Array.mem_iff_getElem?.mp hmem
  rw [getElem?_hashes] at hi
  obtain ⟨cell, -, heq⟩ := Option.map_eq_some_iff.mp hi
  exact cellHash_ne_separator cell.2.text heq

theorem position?_eq_some_iff {d : Document} {a : Address} {i : Nat} :
    (ofDocument hash d).position? a = some i ↔ (ofDocument hash d).address? i = some a := by
  have hplace {k : Nat} (h : (ofDocument hash d).position? a = some k) :
      (d.cells.map (·.1))[k]? = some a := by
    rw [position?, places_ofDocument] at h
    obtain ⟨before, behind, heq, -⟩ := List.lookup_eq_some_iff.mp h
    have hmem : (a, k) ∈ (d.cells.map (·.1)).zipIdx.reverse := by
      rw [heq]
      exact List.mem_append_right before List.mem_cons_self
    exact List.mem_zipIdx_iff_getElem?.mp (List.mem_reverse.mp hmem)
  rw [address?_ofDocument]
  refine ⟨hplace, fun hi => ?_⟩
  have hfound : ((ofDocument hash d).position? a).isSome := by
    rw [position?, places_ofDocument, List.lookup_isSome_iff]
    exact ⟨(a, i), List.mem_reverse.mpr (List.mem_zipIdx_iff_getElem?.mpr hi), beq_self_eq_true a⟩
  obtain ⟨k, hk⟩ := Option.isSome_iff_exists.mp hfound
  -- One address stands in one place only.
  have hlt := (List.getElem?_eq_some_iff.mp hi).1
  rw [(List.getElem?_inj hlt d.nodup_addresses).mp (hi.trans (hplace hk).symm)]
  exact hk

theorem address?_eq_some {d : Document} {a : Address} {i : Nat}
    (h : (ofDocument hash d).address? i = some a) : ∃ b, d.cells[i]? = some (a, b) := by
  rw [address?_ofDocument, List.getElem?_map] at h
  obtain ⟨⟨a, b⟩, hcell, rfl⟩ := Option.map_eq_some_iff.mp h
  exact ⟨b, hcell⟩

theorem exists_position {d : Document} {a : Address} {b : Block} (h : (a, b) ∈ d.cells) :
    ∃ i, (ofDocument hash d).position? a = some i := by
  obtain ⟨i, hi⟩ := List.mem_iff_getElem?.mp h
  refine ⟨i, position?_eq_some_iff.mpr ?_⟩
  rw [address?_ofDocument, List.getElem?_map, hi]
  rfl

end CellSequence

namespace Matching

variable {old new : Document}

theorem mapping_ofRevisions (old new : Document) : (ofRevisions hash old new).mapping =
    .ofRuns (CellSequence.ofDocument hash old).hashes.size
      (commonRuns (CellSequence.ofDocument hash old).hashes
        (CellSequence.ofDocument hash new).hashes) :=
  rfl

theorem locate?_eq_some {a b : Address} (h : (ofRevisions hash old new).locate? a = some b) :
    ∃ i j x y, old.cells[i]? = some (a, x) ∧ new.cells[j]? = some (b, y) ∧
      (ofRevisions hash old new).mapping.get? i = some j ∧
      cellHash hash x.text = cellHash hash y.text := by
  obtain ⟨i, hi, hrest⟩ := Option.bind_eq_some_iff.mp h
  obtain ⟨j, hj, hb⟩ := Option.bind_eq_some_iff.mp hrest
  obtain ⟨x, hx⟩ := CellSequence.address?_eq_some (CellSequence.position?_eq_some_iff.mp hi)
  obtain ⟨y, hy⟩ := CellSequence.address?_eq_some hb
  refine ⟨i, j, x, y, hx, hy, hj, ?_⟩
  rw [mapping_ofRevisions] at hj
  have hequal :=
    (Counterparts.get?_commonRuns_equal (CellSequence.separator_not_mem_hashes new) hj).2.2
  rw [CellSequence.getElem?_hashes, CellSequence.getElem?_hashes, hx, hy] at hequal
  exact Option.some.inj hequal

theorem mem_cells_of_locate? {a b : Address} (h : (ofRevisions hash old new).locate? a = some b) :
    ∃ x y, (a, x) ∈ old.cells ∧ (b, y) ∈ new.cells ∧
      cellHash hash x.text = cellHash hash y.text := by
  obtain ⟨i, j, x, y, hx, hy, -, hhash⟩ := locate?_eq_some h
  exact ⟨x, y, List.mem_of_getElem? hx, List.mem_of_getElem? hy, hhash⟩

theorem locate?_inj (hone : (ofRevisions hash old new).mapping.OneToOne) {a a' b : Address}
    (h : (ofRevisions hash old new).locate? a = some b)
    (h' : (ofRevisions hash old new).locate? a' = some b) : a = a' := by
  obtain ⟨i, j, x, y, hx, hy, hget, -⟩ := locate?_eq_some h
  obtain ⟨i', j', x', y', hx', hy', hget', -⟩ := locate?_eq_some h'
  -- One address, one place.
  have hplace : j = j' := by
    have haddress (k : Nat) : (new.cells.map (·.1))[k]? = (new.cells[k]?).map (·.1) :=
      List.getElem?_map ..
    refine (List.getElem?_inj ?_ new.nodup_addresses).mp ?_
    · rw [List.length_map]
      exact (List.getElem?_eq_some_iff.mp hy).1
    · rw [haddress, haddress, hy, hy']
      rfl
  subst hplace
  obtain rfl := hone i i' j hget hget'
  rw [hx] at hx'
  exact congrArg Prod.fst (Option.some.inj hx')

end Matching

end

end GlyphTable
