import GlyphTable.Proofs.Regrouping
import GlyphTable.Proofs.Segment.Distinct

/-!
# Which glyphs are in a segment

`Segment.ofLinks_covers_iff`: a glyph is in no segment exactly if nothing that links connect
it to has text. `Segment.ofLinks_sound`: what a segment lists are glyphs of the page, none
of them twice.
-/

namespace GlyphTable.Segment

theorem join_eq_empty_iff {l : List String} : String.join l = "" ↔ ∀ s ∈ l, s = "" := by
  rw [← String.toList_eq_nil_iff, String.toList_join, List.flatMap_eq_nil_iff]
  simp only [String.toList_eq_nil_iff]

section

variable {glyphs : Array Glyph} {members : List Nat}

theorem ofMembers?_eq_none_iff (hne : members ≠ []) (hlt : ∀ i ∈ members, i < glyphs.size) :
    ofMembers? glyphs members = none ↔ ∀ i ∈ members, ∀ c, glyphs[i]? = some c → c.text = "" := by
  obtain ⟨i, rest, rfl⟩ := List.exists_cons_of_ne_nil hne
  obtain ⟨lowest, hi⟩ : ∃ c, glyphs[i]? = some c :=
    ⟨_, Array.getElem?_eq_getElem (hlt i List.mem_cons_self)⟩
  have hperm := readingOrder_perm lowest.orientation hlt
  obtain ⟨parts, hparts⟩ : ∃ parts, parts =
      (readingOrder glyphs lowest.orientation (i :: rest)).filterMap (glyphs[·]?) := ⟨_, rfl⟩
  have hmem (c : Glyph) : c ∈ parts ↔ ∃ j ∈ i :: rest, glyphs[j]? = some c := by
    simp only [hparts, List.mem_filterMap, hperm.mem_iff]
  have htext : String.join (parts.map (·.text)) = "" ↔
      ∀ j ∈ i :: rest, ∀ c, glyphs[j]? = some c → c.text = "" := by
    simp only [join_eq_empty_iff, List.forall_mem_map, hmem]
    exact ⟨fun h j hj c hc => h c ⟨j, hj, hc⟩, fun h c ⟨j, hj, hc⟩ => h j hj c hc⟩
  obtain ⟨head, tail, hcons⟩ :=
    List.exists_cons_of_ne_nil (List.ne_nil_of_mem ((hmem lowest).mpr ⟨i, List.mem_cons_self, hi⟩))
  rw [← htext]
  simp only [ofMembers?, List.head?_cons, Option.bind_eq_bind, Option.bind_some, hi, ← hparts]
  simp only [hcons, List.head?_cons, List.map_cons, Box.hull?, Option.bind_some]
  split <;> simp_all

end

section

variable {glyphs : Array Glyph} {links : List (Nat × Nat)}

theorem ofLinks_sound (h : ∀ e ∈ links, e.1 < glyphs.size ∧ e.2 < glyphs.size) {s : Segment}
    (hs : s ∈ ofLinks glyphs links) : s.glyphs.Nodup ∧ ∀ i ∈ s.glyphs, i < glyphs.size := by
  have hcomponents := Partition.ofEdges_components h
  obtain ⟨c, hc, -, hperm⟩ := exists_class_of_mem_ofLinks h hs
  exact ⟨hperm.nodup_iff.mpr ((hcomponents.ascending c hc).imp Nat.ne_of_lt),
    fun i hi => hcomponents.lt_of_mem hc i (hperm.mem_iff.mp hi)⟩

theorem ofLinks_covers_iff (h : ∀ e ∈ links, e.1 < glyphs.size ∧ e.2 < glyphs.size) {i : Nat}
    (hi : i < glyphs.size) :
    (∀ s ∈ ofLinks glyphs links, i ∉ s.glyphs) ↔
      ∀ j c, glyphs[j]? = some c → Partition.Connected links i j → c.text = "" := by
  have hcomponents := Partition.ofEdges_components h
  obtain ⟨d, hd, hid⟩ := hcomponents.cover i hi
  have hlt := hcomponents.lt_of_mem hd
  have hempty := ofMembers?_eq_none_iff (hcomponents.nonempty d hd) hlt
  constructor
  · intro hnone j c hc hij
    have hjd : j ∈ d :=
      (hcomponents.mem_iff d hd i hid j).mpr ⟨(Array.getElem?_eq_some_iff.mp hc).1, hij⟩
    refine hempty.mp (Option.eq_none_iff_forall_ne_some.mpr fun s hs => ?_) j hjd c hc
    -- A segment of this component would list the glyph.
    refine hnone s (mem_sortStably.mpr (List.mem_filterMap.mpr ⟨d, hd, hs⟩)) ?_
    exact (glyphs_perm hlt hs).mem_iff.mpr hid
  · intro htexts s hs his
    obtain ⟨e, he, hes, hperm⟩ := exists_class_of_mem_ofLinks h hs
    have hie := hperm.mem_iff.mp his
    have hnone : ofMembers? glyphs e = none :=
      (ofMembers?_eq_none_iff (hcomponents.nonempty e he) (hcomponents.lt_of_mem he)).mpr
        fun j hj c hc =>
        htexts j c hc ((hcomponents.mem_iff e he i hie j).mp hj).2
    simp [hnone] at hes

end

end GlyphTable.Segment
