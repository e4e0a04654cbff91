import GlyphTable.Proofs.Block.Stacking
import GlyphTable.Proofs.Partition.Runs
import GlyphTable.Proofs.Regrouping

/-!
# Blocks of one line

Where no segment continues another, every segment is a block by itself
(`Block.ofSegments_single`).
-/

namespace GlyphTable

theorem Partition.classes_ofEdges_nil {α : Type} (l : List α) :
    (ofEdges l.length []).classes = runs 0 (l.map ([·])) := by
  have hflatten : (l.map ([·])).flatten = l := List.flatMap_singleton' l
  have hconfined : Confined (fun _ _ : α => False) (l.map ([·])) [] := by
    refine ⟨List.forall_mem_map.mpr fun a _ => List.cons_ne_nil a [],
      List.forall_mem_map.mpr fun a _ => List.isChain_singleton a, ?_, fun _ he =>
        absurd he List.not_mem_nil,
      fun _ _ _ _ _ => False.elim⟩
    exact List.pairwise_of_forall fun _ _ _ _ _ _ => ⟨id, id⟩
  have hclasses := classes_eq_runs hconfined
  rwa [hflatten] at hclasses

namespace Block

structure Single (s : Segment) (b : Block) : Prop where
  text : b.text = s.text
  box : b.box = s.box
  size : b.size = s.size
  orientation : b.orientation = s.orientation

variable {segments : Array Segment} {vetoes : List Veto}

theorem ofMembers?_singleton {i : Nat} {s : Segment} (h : segments[i]? = some s) :
    ∃ b, ofMembers? segments [i] = some b ∧ Single s b := by
  have horder : lineOrder segments s.orientation.lineAdvance [i] = [i] := by
    rw [lineOrder, List.filterMap_cons_some (by rw [h]; rfl)]
    rfl
  have hsome :
      ofMembers? segments [i] = some ⟨[i], s.text, s.box, s.size, s.orientation, 0, 0⟩ := by
    simp only [ofMembers?, List.head?_cons, Option.bind_eq_bind, Option.bind_some, h, horder,
      List.filterMap_cons_some h, List.filterMap_nil, List.map_cons, List.map_nil,
      String.intercalate_singleton]
    rfl
  exact ⟨_, hsome, rfl, rfl, rfl, rfl⟩

theorem joins_eq_nil (h : ∀ s ∈ segments, ∀ t ∈ segments, ¬ s.Continues t) :
    (stack segments vetoes).joins = [] := by
  refine List.eq_nil_iff_forall_not_mem.mpr fun (i, j) hij => ?_
  obtain ⟨upper, lower, hupper, hlower, hcontinues⟩ :=
    Segment.continuation?_eq_some (joinable_of_mem_joins hij).1
  exact h upper (Array.mem_of_getElem? hupper) lower (Array.mem_of_getElem? hlower) hcontinues

theorem ofSegments_single (h : ∀ s ∈ segments, ∀ t ∈ segments, ¬ s.Continues t) :
    List.Forall₂ Single segments.toList (ofSegments segments vetoes).1 := by
  have hruns := Partition.forall₂_runs (segments.toList.map ([·]))
  rw [List.forall₂_map_left_iff] at hruns
  have hflatten : (segments.toList.map ([·])).flatten = segments.toList := List.flatMap_singleton' _
  rw [hflatten] at hruns
  change List.Forall₂ Single segments.toList
    ((Partition.ofEdges segments.toList.length (stack segments vetoes).joins).classes.filterMap
      (ofMembers? segments))
  rw [joins_eq_nil h, Partition.classes_ofEdges_nil]
  refine forall₂_filterMap (hruns.imp ?_)
  rintro s run ⟨hrun, hmembers⟩
  obtain ⟨before, part, after, heq, rfl⟩ := Partition.exists_part_of_mem_runs hrun
  obtain ⟨t, -, rfl⟩ : ∃ t ∈ segments.toList, [t] = part :=
    List.mem_map.mp (heq ▸ List.mem_append_right _ List.mem_cons_self)
  -- The run of a part with one member is one position.
  change [0 + before.flatten.length].filterMap (segments.toList[·]?) = [s] at hmembers
  rw [List.filterMap_cons, Array.getElem?_toList] at hmembers
  refine ofMembers?_singleton ?_
  split at hmembers
  · cases hmembers
  · next hget => rwa [← (List.cons.inj hmembers).1]

end Block

end GlyphTable
