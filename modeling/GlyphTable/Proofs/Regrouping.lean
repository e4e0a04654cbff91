import Mathlib

/-!
# Regrouping loses nothing

Each stage of clustering turns groups of things into one thing that lists what its group
listed. `flatMap_filterMap_perm`: if every group gives a thing, and that lists what the
group did, then all things together list what all groups did. Where things correspond one to
one, so do their groups (`exists_groups_of_forall₂`).
-/

namespace GlyphTable

variable {α β γ : Type}

theorem pairwise_zipIdx (l : List α) : l.zipIdx.Pairwise fun x y => x.2 < y.2 := by
  refine List.pairwise_map.mp (?_ : (l.zipIdx.map (·.2)).Pairwise (· < ·))
  rw [List.zipIdx_map_snd]
  exact List.pairwise_lt_range' 1

theorem pairwise_flatMap_zipIdx {R : β → β → Prop} {l : List α} {f : α × Nat → List β}
    (hinside : ∀ x, (f x).Pairwise R)
    (hbetween : ∀ x y : α × Nat, x.2 < y.2 → ∀ a ∈ f x, ∀ b ∈ f y, R a b) :
    (l.zipIdx.flatMap f).Pairwise R :=
  List.pairwise_flatMap.mpr ⟨fun x _ => hinside x,
    (pairwise_zipIdx l).imp fun {x y} => hbetween x y⟩

theorem flatMap_filterMap_perm {f : α → Option β} {listed : β → List γ} {group : α → List γ}
    {l : List α} (h : ∀ a ∈ l, ∃ b, f a = some b ∧ (listed b).Perm (group a)) :
    ((l.filterMap f).flatMap listed).Perm (l.flatMap group) := by
  induction l with
  | nil => simp
  | cons a rest ih =>
    obtain ⟨b, hb, hperm⟩ := h a List.mem_cons_self
    simp only [List.filterMap_cons_some hb, List.flatMap_cons]
    exact hperm.append (ih fun c hc => h c (List.mem_cons_of_mem _ hc))

theorem map_filterMap_of_some {f : α → Option β} {listed : β → γ} {group : α → γ} {l : List α}
    (h : ∀ a ∈ l, ∃ b, f a = some b ∧ listed b = group a) :
    (l.filterMap f).map listed = l.map group := by
  induction l with
  | nil => rfl
  | cons a rest ih =>
    obtain ⟨b, hb, heq⟩ := h a List.mem_cons_self
    simp [hb, heq, ih fun c hc => h c (List.mem_cons_of_mem _ hc)]

section

variable {R : α → β → Prop} {l : List α} {m : List β}

theorem exists_of_mem_forall₂ (h : List.Forall₂ R l m) {b : β} (hb : b ∈ m) : ∃ a ∈ l, R a b := by
  obtain ⟨i, hi, rfl⟩ := List.getElem_of_mem hb
  have hi' : i < l.length := h.length_eq ▸ hi
  exact ⟨l[i], List.getElem_mem hi', h.get hi' hi⟩

theorem pairwise_of_forall₂ {P : α → α → Prop} {Q : β → β → Prop} (h : List.Forall₂ R l m)
    (hl : l.Pairwise P) (hstep : ∀ a b x y, R a x → R b y → P a b → Q x y) : m.Pairwise Q := by
  refine List.pairwise_iff_getElem.mpr fun i j hi hj hij => ?_
  have hi' : i < l.length := h.length_eq ▸ hi
  have hj' : j < l.length := h.length_eq ▸ hj
  exact hstep _ _ _ _ (h.get hi' hi) (h.get hj' hj)
    (List.pairwise_iff_getElem.mp hl i j hi' hj' hij)

theorem forall₂_comp {S : β → γ → Prop} {T : α → γ → Prop} {n : List γ} (h : List.Forall₂ R l m)
    (h' : List.Forall₂ S m n) (hstep : ∀ a b c, R a b → S b c → T a c) : List.Forall₂ T l n := by
  induction h generalizing n with
  | nil =>
    cases h'
    exact .nil
  | cons hab _ ih =>
    cases h' with
    | cons hbc hrest => exact .cons (hstep _ _ _ hab hbc) (ih hrest)

theorem map_eq_of_forall₂ {f : α → γ} {g : β → γ} (h : List.Forall₂ (fun a b => g b = f a) l m) :
    m.map g = l.map f := by
  induction h with
  | nil => rfl
  | cons hab _ ih => rw [List.map_cons, List.map_cons, hab, ih]

theorem exists_between_of_forall₂ {S : β → γ → Prop} {n : List γ}
    (h : List.Forall₂ (fun a c => ∃ b, R a b ∧ S b c) l n) :
    ∃ m, List.Forall₂ R l m ∧ List.Forall₂ S m n := by
  induction h with
  | nil => exact ⟨[], .nil, .nil⟩
  | cons hac _ ih =>
    obtain ⟨b, hab, hbc⟩ := hac
    obtain ⟨m, hl, hn⟩ := ih
    exact ⟨b :: m, .cons hab hl, .cons hbc hn⟩

theorem exists_perm_of_forall₂ {m' : List β} (h : List.Forall₂ R l m) (hperm : m'.Perm m) :
    ∃ l', l'.Perm l ∧ List.Forall₂ R l' m' := by
  obtain ⟨l', hl', hl⟩ := List.perm_comp_forall₂ hperm h.flip
  exact ⟨l', hl, hl'.flip⟩

theorem forall₂_zipIdx_map {f : α × Nat → β} (h : ∀ a i, R a (f (a, i))) (l : List α)
    (start : Nat) :
    List.Forall₂ R l ((l.zipIdx start).map f) := by
  induction l generalizing start with
  | nil => exact .nil
  | cons a rest ih =>
    rw [List.zipIdx_cons, List.map_cons]
    exact .cons (h a start) (ih (start + 1))

theorem forall₂_filterMap {S : α → γ → Prop} {f : β → Option γ}
    (h : List.Forall₂ (fun a b => ∃ c, f b = some c ∧ S a c) l m) :
    List.Forall₂ S l (m.filterMap f) := by
  induction h with
  | nil => exact .nil
  | cons hab _ ih =>
    obtain ⟨c, hc, hs⟩ := hab
    rw [List.filterMap_cons_some hc]
    exact .cons hs ih

theorem exists_groups_of_forall₂ {groups : List (List α)} (h : List.Forall₂ R groups.flatten m) :
    ∃ groups', groups'.flatten = m ∧ List.Forall₂ (List.Forall₂ R) groups groups' := by
  induction groups generalizing m with
  | nil => exact ⟨[], (List.forall₂_nil_left_iff.mp h).symm, .nil⟩
  | cons group rest ih =>
    have hgroup := List.forall₂_take group.length h
    have hrest := List.forall₂_drop group.length h
    rw [List.flatten_cons, List.take_left] at hgroup
    rw [List.flatten_cons, List.drop_left] at hrest
    obtain ⟨groups', hflatten, hgroups⟩ := ih hrest
    refine ⟨m.take group.length :: groups', ?_, .cons hgroup hgroups⟩
    rw [List.flatten_cons, hflatten, List.take_append_drop]

end

theorem length_le_length_flatMap {listed : α → List β} {l : List α} (h : ∀ a ∈ l, listed a ≠ []) :
    l.length ≤ (l.flatMap listed).length := by
  induction l with
  | nil => simp
  | cons a rest ih =>
    have hpos := List.length_pos_of_ne_nil (h a List.mem_cons_self)
    have hrest := ih fun b hb => h b (List.mem_cons_of_mem _ hb)
    simp only [List.flatMap_cons, List.length_append, List.length_cons]
    omega

end GlyphTable
