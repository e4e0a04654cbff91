import GlyphTable.Proofs.Partition.Components

/-!
# Classes that are runs

Edges may keep to the parts of a list: they connect neighbours inside a part, and nothing across
parts. Then the classes they generate are the runs of positions that the parts take up, in
sequence (`Partition.classes_eq_runs`).
-/

namespace GlyphTable.Partition

variable {α : Type}

-- ---------------------------------------------------------------------------
-- Components in sequence
-- ---------------------------------------------------------------------------

section

variable {n : Nat} {edges : List (Nat × Nat)} {classes classes' : List (List Nat)}

theorem Components.subset (h : Components n edges classes) (h' : Components n edges classes') :
    ∀ c ∈ classes, c ∈ classes' := by
  intro c hc
  obtain ⟨x, hx⟩ := List.exists_mem_of_ne_nil c (h.nonempty c hc)
  obtain ⟨d, hd, hxd⟩ := h'.cover x (h.lt_of_mem hc x hx)
  have heq : c = d := (h.ascending c hc).eq_of_mem_iff (h'.ascending d hd) fun y =>
    (h.mem_iff c hc x hx y).trans (h'.mem_iff d hd x hxd y).symm
  exact heq ▸ hd

theorem Components.nodup (h : Components n edges classes) : classes.Nodup := by
  refine h.disjoint.imp_of_mem fun {c d} hc _ hdisjoint heq => ?_
  obtain ⟨x, hx⟩ := List.exists_mem_of_ne_nil c (h.nonempty c hc)
  exact hdisjoint hx (heq ▸ hx)

theorem Components.eq_of_ascending (h : Components n edges classes)
    (h' : Components n edges classes')
    (hascending : classes.Pairwise fun c d => c.headD 0 < d.headD 0)
    (hascending' : classes'.Pairwise fun c d => c.headD 0 < d.headD 0) : classes = classes' := by
  have hperm : classes.Perm classes' :=
    (List.perm_ext_iff_of_nodup h.nodup h'.nodup).mpr fun c => ⟨h.subset h' c, h'.subset h c⟩
  exact hperm.eq_of_pairwise (fun c d _ _ hcd hdc => absurd hcd (Nat.lt_asymm hdc)) hascending
    hascending'

theorem Components.classes_eq (h : Components n edges classes)
    (hascending : classes.Pairwise fun c d => c.headD 0 < d.headD 0)
    (hedges : ∀ e ∈ edges, e.1 < n ∧ e.2 < n) : (ofEdges n edges).classes = classes :=
  (ofEdges_components hedges).eq_of_ascending h (represents_ofEdges hedges).classes_ascending
    hascending

end

-- ---------------------------------------------------------------------------
-- Runs
-- ---------------------------------------------------------------------------

/-- The positions that the parts of a list take up in it, counted from `start` on. -/
def runs (start : Nat) : List (List α) → List (List Nat)
  | [] => []
  | part :: rest => List.range' start part.length :: runs (start + part.length) rest

theorem flatten_runs (start : Nat) (parts : List (List α)) :
    (runs start parts).flatten = List.range' start parts.flatten.length := by
  induction parts generalizing start with
  | nil => rfl
  | cons part rest ih =>
    rw [runs, List.flatten_cons, ih, List.flatten_cons, List.length_append, List.range'_append_1]

theorem runs_pairwise (start : Nat) (parts : List (List α)) :
    (runs start parts).Pairwise fun c d => ∀ x ∈ c, ∀ y ∈ d, x < y := by
  refine (List.pairwise_flatten.mp ?_).2
  rw [flatten_runs]
  exact List.pairwise_lt_range' 1

theorem runs_map {β : Type} (f : α → β) (start : Nat) (parts : List (List α)) :
    runs start (parts.map (·.map f)) = runs start parts := by
  induction parts generalizing start with
  | nil => rfl
  | cons part rest ih => rw [List.map_cons, runs, runs, List.length_map, ih]

theorem filterMap_range' (l : List α) (start n : Nat) :
    (List.range' start n).filterMap (l[·]?) = (l.drop start).take n := by
  induction n generalizing start with
  | zero => simp
  | succ n ih =>
    rw [List.range'_succ, List.filterMap_cons]
    by_cases hstart : start < l.length
    · rw [List.getElem?_eq_getElem hstart, ih, List.drop_eq_getElem_cons hstart,
        List.take_succ_cons]
    · rw [List.getElem?_eq_none (Nat.le_of_not_lt hstart), ih, List.drop_eq_nil_of_le (by omega),
        List.drop_eq_nil_of_le (by omega), List.take_nil, List.take_nil]

theorem map_runs_append (before : List α) (parts : List (List α)) :
    (runs before.length parts).map (·.filterMap ((before ++ parts.flatten)[·]?)) = parts := by
  induction parts generalizing before with
  | nil => rfl
  | cons part rest ih =>
    have hrest := ih (before ++ part)
    rw [List.length_append, List.append_assoc] at hrest
    rw [runs, List.map_cons, List.flatten_cons, hrest, filterMap_range']
    simp

theorem map_runs (parts : List (List α)) :
    (runs 0 parts).map (·.filterMap (parts.flatten[·]?)) = parts :=
  map_runs_append [] parts

theorem forall₂_runs (parts : List (List α)) :
    List.Forall₂ (fun part run => run ∈ runs 0 parts ∧ run.filterMap (parts.flatten[·]?) = part)
      parts (runs 0 parts) := by
  have heq : List.Forall₂ (fun run part =>
      run.filterMap (parts.flatten[·]?) = part) (runs 0 parts) parts := by
    refine (List.forall₂_map_left_iff (R := Eq)).mp ?_
    rw [List.forall₂_eq_eq_eq, map_runs]
  exact ((List.forall₂_and_left _ _).mpr ⟨fun _ => id, heq⟩).flip

theorem lt_of_mem_runs {parts : List (List α)} {run : List Nat} (h : run ∈ runs 0 parts) :
    ∀ i ∈ run, i < parts.flatten.length := by
  intro i hi
  have hmem := List.mem_flatten.mpr ⟨run, h, hi⟩
  rw [flatten_runs, List.mem_range'_1] at hmem
  omega

theorem exists_part_of_mem_runs {start : Nat} {parts : List (List α)} {c : List Nat}
    (h : c ∈ runs start parts) : ∃ before part after, parts = before ++ part :: after ∧
      c = List.range' (start + before.flatten.length) part.length := by
  induction parts generalizing start with
  | nil => cases h
  | cons part rest ih =>
    rcases List.mem_cons.mp h with rfl | h
    · exact ⟨[], part, rest, rfl, rfl⟩
    · obtain ⟨before, part', after, rfl, rfl⟩ := ih h
      refine ⟨part :: before, part', after, rfl, ?_⟩
      rw [List.flatten_cons, List.length_append, Nat.add_assoc]

-- ---------------------------------------------------------------------------
-- Edges inside parts
-- ---------------------------------------------------------------------------

/-- Edges that stay inside the parts of a list: they join things related by `R`, among them all
neighbours in a part. -/
structure Confined (R : α → α → Prop) (parts : List (List α))
    (edges : List (Nat × Nat)) : Prop where
  nonempty : ∀ part ∈ parts, part ≠ []
  inside : ∀ part ∈ parts, part.IsChain R
  across : parts.Pairwise fun part other => ∀ a ∈ part, ∀ b ∈ other, ¬ R a b ∧ ¬ R b a
  sound : ∀ e ∈ edges, ∃ a b, parts.flatten[e.1]? = some a ∧ parts.flatten[e.2]? = some b ∧ R a b
  complete : ∀ i a b, parts.flatten[i]? = some a → parts.flatten[i + 1]? = some b → R a b →
    (i, i + 1) ∈ edges

section

variable {R : α → α → Prop} {parts before after : List (List α)} {part : List α}
  {edges : List (Nat × Nat)}

theorem Confined.lt (h : Confined R parts edges) :
    ∀ e ∈ edges, e.1 < parts.flatten.length ∧ e.2 < parts.flatten.length := by
  intro e he
  obtain ⟨a, b, ha, hb, -⟩ := h.sound e he
  exact ⟨(List.getElem?_eq_some_iff.mp ha).1, (List.getElem?_eq_some_iff.mp hb).1⟩

theorem Confined.connected (h : Confined R (before ++ part :: after) edges) {i : Nat}
    (hi : i < part.length) : Connected edges before.flatten.length (before.flatten.length + i) := by
  have hmem : part ∈ before ++ part :: after := List.mem_append_right _ List.mem_cons_self
  have hget (j : Nat) (hj : j < part.length) :
      (before ++ part :: after).flatten[before.flatten.length + j]? = some part[j] := by
    rw [List.flatten_append, List.flatten_cons, List.getElem?_append_right (by omega),
      List.getElem?_append_left (by omega), Nat.add_sub_cancel_left, List.getElem?_eq_getElem hj]
  induction i with
  | zero => exact .refl _
  | succ i ih =>
    refine (ih (by omega)).trans _ _ _ (.rel _ _ ?_)
    exact h.complete _ _ _ (hget i (by omega)) (hget (i + 1) hi)
      (List.isChain_iff_getElem.mp (h.inside part hmem) i hi)

theorem mem_other {i : Nat} {a : α} (hi : (before ++ part :: after).flatten[i]? = some a) :
    (i ∈ List.range' before.flatten.length part.length ∧ a ∈ part) ∨
      (i ∉ List.range' before.flatten.length part.length ∧
      ∃ other ∈ before ++ after, a ∈ other) := by
  rw [List.flatten_append, List.flatten_cons, List.getElem?_append, List.getElem?_append] at hi
  rw [List.mem_range'_1]
  split at hi
  · refine .inr ⟨by omega, ?_⟩
    obtain ⟨other, hother, ha⟩ := List.mem_flatten.mp (List.mem_of_getElem? hi)
    exact ⟨other, List.mem_append_left _ hother, ha⟩
  · split at hi
    · exact .inl ⟨by omega, List.mem_of_getElem? hi⟩
    · refine .inr ⟨by omega, ?_⟩
      obtain ⟨other, hother, ha⟩ := List.mem_flatten.mp (List.mem_of_getElem? hi)
      exact ⟨other, List.mem_append_right _ hother, ha⟩

theorem Confined.not_related (h : Confined R (before ++ part :: after) edges) {other : List α}
    (hother : other ∈ before ++ after) {a b : α} (ha : a ∈ part) (hb : b ∈ other) :
    ¬ R a b ∧ ¬ R b a := by
  obtain ⟨-, hafter, hbefore⟩ := List.pairwise_append.mp h.across
  rcases List.mem_append.mp hother with hother | hother
  · exact (hbefore other hother part List.mem_cons_self b hb a ha).symm
  · exact (List.pairwise_cons.mp hafter).1 other hother a ha b hb

theorem Confined.mem_iff_of_edge (h : Confined R (before ++ part :: after) edges) {i j : Nat}
    (he : (i, j) ∈ edges) : i ∈ List.range' before.flatten.length part.length ↔
      j ∈ List.range' before.flatten.length part.length := by
  obtain ⟨a, b, ha, hb, hab⟩ := h.sound _ he
  rcases mem_other ha with ⟨hi, ha⟩ | ⟨hi, other, hother, ha⟩ <;>
    rcases mem_other hb with ⟨hj, hb⟩ | ⟨hj, other', hother', hb⟩
  · exact iff_of_true hi hj
  · exact absurd hab (h.not_related hother' ha hb).1
  · exact absurd hab (h.not_related hother hb ha).2
  · exact iff_of_false hi hj

theorem Confined.mem_iff (h : Confined R (before ++ part :: after) edges) {x y : Nat}
    (hx : x ∈ List.range' before.flatten.length part.length) :
    y ∈ List.range' before.flatten.length part.length ↔
      y < (before ++ part :: after).flatten.length ∧ Connected edges x y := by
  constructor
  · intro hy
    have hfrom {z : Nat} (hz : z ∈ List.range' before.flatten.length part.length) :
        Connected edges before.flatten.length z := by
      obtain ⟨hlow, hhigh⟩ := List.mem_range'_1.mp hz
      have hconnected := h.connected (i := z - before.flatten.length) (by omega)
      rwa [Nat.add_sub_cancel' hlow] at hconnected
    refine ⟨?_, ((hfrom hx).symm _ _).trans _ _ _ (hfrom hy)⟩
    rw [List.flatten_append, List.flatten_cons, List.length_append, List.length_append]
    have hy := List.mem_range'_1.mp hy
    omega
  · rintro ⟨-, hxy⟩
    have hiff : x ∈ List.range' before.flatten.length part.length ↔
        y ∈ List.range' before.flatten.length part.length := by
      clear hx
      induction hxy with
      | rel i j he => exact h.mem_iff_of_edge he
      | refl => exact Iff.rfl
      | symm _ _ _ ih => exact ih.symm
      | trans _ _ _ _ _ ih ih' => exact ih.trans ih'
    exact hiff.mp hx

theorem Confined.components (h : Confined R parts edges) :
    Components parts.flatten.length edges (runs 0 parts) := by
  have hflatten : (runs 0 parts).flatten = List.range parts.flatten.length := by
    rw [flatten_runs, List.range_eq_range']
  refine ⟨fun c hc => ?_, fun c hc => ?_, fun c hc x hx y => ?_, fun x hx => ?_, ?_⟩
  · obtain ⟨before, part, after, -, rfl⟩ := exists_part_of_mem_runs hc
    exact List.pairwise_lt_range' 1
  · obtain ⟨before, part, after, rfl, rfl⟩ := exists_part_of_mem_runs hc
    have hpart := h.nonempty part (List.mem_append_right _ List.mem_cons_self)
    simpa using hpart
  · obtain ⟨before, part, after, rfl, rfl⟩ := exists_part_of_mem_runs hc
    rw [Nat.zero_add] at hx ⊢
    exact h.mem_iff hx
  · exact List.mem_flatten.mp (hflatten ▸ List.mem_range.mpr hx)
  · have hnodup : (runs 0 parts).flatten.Nodup := hflatten ▸ List.nodup_range
    exact (List.nodup_flatten.mp hnodup).2

/-- The classes that confined edges generate are the runs of the parts. -/
theorem classes_eq_runs (h : Confined R parts edges) :
    (ofEdges parts.flatten.length edges).classes = runs 0 parts := by
  have hcomponents := h.components
  refine hcomponents.classes_eq ((runs_pairwise 0 parts).imp_of_mem fun {c d} hc hd hlt => ?_) h.lt
  obtain ⟨x, c, rfl⟩ := List.exists_cons_of_ne_nil (hcomponents.nonempty _ hc)
  obtain ⟨y, d, rfl⟩ := List.exists_cons_of_ne_nil (hcomponents.nonempty _ hd)
  exact hlt x List.mem_cons_self y List.mem_cons_self

end

end GlyphTable.Partition
