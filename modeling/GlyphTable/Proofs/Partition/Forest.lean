import Mathlib
import GlyphTable.Partition

/-!
# Roots of a forest

`Partition.climb` shortens paths while it looks for a root, with as many steps as there
are positions. `climb_spec`: the steps suffice, what it returns is the root, and no root
changes. `RootOf` relates a position to its root without regard to the length of the path.
-/

namespace GlyphTable.Partition

def up (parent : Array Nat) (x : Nat) : Nat :=
  parent.getD x x

inductive RootOf (parent : Array Nat) : Nat → Nat → Prop
  | root {x : Nat} (h : up parent x = x) : RootOf parent x x
  | step {x r : Nat} (h : up parent x ≠ x) (hr : RootOf parent (up parent x) r) : RootOf parent x r

theorem up_of_le {parent : Array Nat} {x : Nat} (h : parent.size ≤ x) : up parent x = x := by
  simp [up, Array.getD_eq_getD_getElem?, h]

theorem up_set {parent : Array Nat} {x y : Nat} (hx : x < parent.size) (z : Nat) :
    up (parent.setIfInBounds x y) z = if z = x then y else up parent z := by
  simp only [up, Array.getD_eq_getD_getElem?, Array.getElem?_setIfInBounds]
  by_cases hz : z = x
  · simp [hz, hx]
  · simp [hz, Ne.symm hz]

theorem RootOf.isRoot {parent : Array Nat} {x r : Nat} (h : RootOf parent x r) :
    up parent r = r := by
  induction h with
  | root h => exact h
  | step _ _ ih => exact ih

theorem RootOf.unique {parent : Array Nat} {x r s : Nat} (hr : RootOf parent x r)
    (hs : RootOf parent x s) : r = s := by
  induction hr with
  | root h =>
    cases hs with
    | root => rfl
    | step hne => exact absurd h hne
  | step hne _ ih =>
    cases hs with
    | root h => exact absurd h hne
    | step _ hs => exact ih hs

/-- Levels rise on the way up, and stay below the number of positions. -/
structure Leveled (parent : Array Nat) (level : Nat → Nat) : Prop where
  up_lt : ∀ x < parent.size, up parent x < parent.size
  level_lt : ∀ x < parent.size, level x < parent.size
  rises : ∀ x, up parent x ≠ x → level x < level (up parent x)

/-- A forest in which levels rise on the way up, however far, is one in which they stay below
the number of positions: count the positions of lower level. -/
theorem exists_leveled {parent : Array Nat} (d : Nat → Nat)
    (hup : ∀ x < parent.size, up parent x < parent.size)
    (hrises : ∀ x, up parent x ≠ x → d x < d (up parent x)) :
    ∃ level, Leveled parent level := by
  let below (x : Nat) := (Finset.range parent.size).filter fun y => d y < d x
  refine ⟨fun x => (below x).card, hup, fun x hx => ?_, fun x hne => ?_⟩
  · have hsub : below x ⊂ Finset.range parent.size := by
      refine (Finset.ssubset_iff_of_subset (Finset.filter_subset _ _)).mpr ⟨x, ?_, ?_⟩
      · exact Finset.mem_range.mpr hx
      · exact fun hmem => Nat.lt_irrefl _ (Finset.mem_filter.mp hmem).2
    have hcard := Finset.card_lt_card hsub
    rwa [Finset.card_range] at hcard
  · have hx : x < parent.size := by
      by_contra hx
      exact hne (up_of_le (Nat.le_of_not_lt hx))
    refine Finset.card_lt_card ((Finset.ssubset_iff_of_subset ?_).mpr ⟨x, ?_, ?_⟩)
    · intro y hy
      obtain ⟨hy, hlt⟩ := Finset.mem_filter.mp hy
      exact Finset.mem_filter.mpr ⟨hy, hlt.trans (hrises x hne)⟩
    · exact Finset.mem_filter.mpr ⟨Finset.mem_range.mpr hx, hrises x hne⟩
    · exact fun hmem => Nat.lt_irrefl _ (Finset.mem_filter.mp hmem).2

section

variable {parent : Array Nat} {level : Nat → Nat}

theorem Leveled.exists_root (h : Leveled parent level) (x : Nat) : ∃ r, RootOf parent x r := by
  by_cases hroot : up parent x = x
  · exact ⟨x, .root hroot⟩
  · have hx : x < parent.size := by
      by_contra hx
      exact hroot (up_of_le (Nat.le_of_not_lt hx))
    have hlt := h.rises x hroot
    have hbound := h.level_lt (up parent x) (h.up_lt x hx)
    obtain ⟨r, hr⟩ := h.exists_root (up parent x)
    exact ⟨r, .step hroot hr⟩
termination_by parent.size - level x

theorem Leveled.root_lt (h : Leveled parent level) {x r : Nat} (hr : RootOf parent x r)
    (hx : x < parent.size) : r < parent.size := by
  induction hr with
  | root => exact hx
  | step _ _ ih => exact ih (h.up_lt _ hx)

theorem Leveled.rises_twice (h : Leveled parent level) {x : Nat} (hne : up parent x ≠ x) :
    level x < level (up parent (up parent x)) := by
  have hrise := h.rises x hne
  by_cases htop : up parent (up parent x) = up parent x
  · rw [htop]
    exact hrise
  · exact hrise.trans (h.rises _ htop)

def SameRoot (parent : Array Nat) (x y : Nat) : Prop :=
  ∃ r, RootOf parent x r ∧ RootOf parent y r

theorem Leveled.sameRoot_equivalence (h : Leveled parent level) :
    Equivalence (SameRoot parent) := by
  refine ⟨fun x => ?_, fun hxy => ?_, fun hxy hyz => ?_⟩
  · obtain ⟨r, hr⟩ := h.exists_root x
    exact ⟨r, hr, hr⟩
  · obtain ⟨r, hx, hy⟩ := hxy
    exact ⟨r, hy, hx⟩
  · obtain ⟨r, hx, hy⟩ := hxy
    obtain ⟨s, hy', hz⟩ := hyz
    obtain rfl := hy.unique hy'
    exact ⟨r, hx, hz⟩

theorem Leveled.halve (h : Leveled parent level) {x : Nat} (hx : x < parent.size)
    (hne : up parent x ≠ x) :
    Leveled (parent.setIfInBounds x (up parent (up parent x))) level := by
  have hsize : (parent.setIfInBounds x (up parent (up parent x))).size = parent.size := by simp
  refine ⟨fun y hy => ?_, fun y hy => ?_, fun y hy => ?_⟩
  · rw [hsize] at hy ⊢
    rw [up_set hx]
    split
    · exact h.up_lt _ (h.up_lt x hx)
    · exact h.up_lt y hy
  · rw [hsize] at hy ⊢
    exact h.level_lt y hy
  · rw [up_set hx] at hy ⊢
    by_cases hyx : y = x
    · subst hyx
      rw [if_pos rfl]
      exact h.rises_twice hne
    · rw [if_neg hyx] at hy ⊢
      exact h.rises y hy

theorem Leveled.rootOf_halve (h : Leveled parent level) {x : Nat} (hx : x < parent.size)
    (hne : up parent x ≠ x) {y r : Nat} (hr : RootOf parent y r) :
    RootOf (parent.setIfInBounds x (up parent (up parent x))) y r := by
  induction hr with
  | @root y hy =>
    refine .root ?_
    rw [up_set hx, if_neg]
    · exact hy
    · rintro rfl
      exact hne hy
  | @step y r hy _ ih =>
    by_cases hyx : y = x
    · subst hyx
      -- The parent may be a root itself, else the path goes on from the grandparent.
      have hstep : up (parent.setIfInBounds y (up parent (up parent y))) y =
          up parent (up parent y) := by
        rw [up_set hx, if_pos rfl]
      by_cases htop : up parent (up parent y) = up parent y
      · refine .step (by rw [hstep, htop]; exact hy) ?_
        rw [hstep, htop]
        rw [htop] at ih
        exact ih
      · cases ih with
        | root heq =>
          rw [up_set hx, if_neg hne] at heq
          exact absurd heq htop
        | step _ hrest =>
          rw [up_set hx, if_neg hne] at hrest
          refine .step ?_ (by rw [hstep]; exact hrest)
          rw [hstep]
          intro heq
          have hrise := h.rises_twice hne
          rw [heq] at hrise
          exact Nat.lt_irrefl _ hrise
    · refine .step ?_ ?_
      · rw [up_set hx, if_neg hyx]
        exact hy
      · rw [up_set hx, if_neg hyx]
        exact ih

theorem Leveled.rootOf_iff {parent' : Array Nat} (h : Leveled parent level)
    (himp : ∀ y r, RootOf parent y r → RootOf parent' y r) {y r : Nat} :
    RootOf parent' y r ↔ RootOf parent y r := by
  refine ⟨fun hr => ?_, himp y r⟩
  obtain ⟨s, hs⟩ := h.exists_root y
  rw [hr.unique (himp y s hs)]
  exact hs

theorem climb_succ (steps : Nat) (parent : Array Nat) (x : Nat) :
    climb (steps + 1) parent x =
      if up parent x = x then (x, parent)
      else climb steps (parent.setIfInBounds x (up parent (up parent x)))
      (up parent (up parent x)) :=
  rfl

/-- Climbing finds the root and keeps all roots. The steps left make up for the level still
to go. -/
theorem climb_spec (steps : Nat) (h : Leveled parent level) {x : Nat} (hx : x < parent.size)
    (hsteps : parent.size ≤ level x + steps) :
    RootOf parent x (climb steps parent x).1 ∧
      (climb steps parent x).2.size = parent.size ∧ Leveled (climb steps parent x).2 level ∧
      ∀ y r, RootOf (climb steps parent x).2 y r ↔ RootOf parent y r := by
  induction steps generalizing parent x with
  | zero =>
    have hlt := h.level_lt x hx
    omega
  | succ steps ih =>
    rw [climb_succ]
    by_cases hroot : up parent x = x
    · rw [if_pos hroot]
      exact ⟨.root hroot, rfl, h, fun _ _ => Iff.rfl⟩
    · rw [if_neg hroot]
      have hhalved := h.halve hx hroot
      have hiff := fun y r => h.rootOf_iff (y := y) (r := r) fun y r => h.rootOf_halve hx hroot
      have hupper := h.rises_twice hroot
      have hlt : up parent (up parent x) < parent.size := h.up_lt _ (h.up_lt x hx)
      have hsize : (parent.setIfInBounds x (up parent (up parent x))).size = parent.size := by simp
      obtain ⟨hr, hs, hl, hi⟩ := ih hhalved (hsize.symm ▸ hlt) (by omega)
      refine ⟨?_, hs.trans hsize, hl, fun y r => (hi y r).trans (hiff y r)⟩
      have hr' := (hiff _ _).mp hr
      by_cases htop : up parent (up parent x) = up parent x
      · rw [htop] at hr' ⊢
        exact .step hroot hr'
      · exact .step hroot (.step htop hr')

-- ---------------------------------------------------------------------------
-- Linking roots
-- ---------------------------------------------------------------------------

variable {a b : Nat}

theorem rootOf_link (ha : up parent a = a) (hb : up parent b = b) (hne : a ≠ b)
    (halt : a < parent.size) {x r : Nat} (hr : RootOf parent x r) :
    RootOf (parent.setIfInBounds a b) x (if r = a then b else r) := by
  have hb' : up (parent.setIfInBounds a b) b = b := by
    rw [up_set halt, if_neg (Ne.symm hne)]
    exact hb
  induction hr with
  | @root x hx =>
    by_cases hxa : x = a
    · subst hxa
      have hstep : up (parent.setIfInBounds x b) x = b := by rw [up_set halt, if_pos rfl]
      rw [if_pos rfl]
      exact .step (by rw [hstep]; exact Ne.symm hne) (by rw [hstep]; exact .root hb')
    · rw [if_neg hxa]
      exact .root (by rw [up_set halt, if_neg hxa]; exact hx)
  | @step x r hx _ ih =>
    have hxa : x ≠ a := by
      rintro rfl
      exact hx ha
    exact .step (by rw [up_set halt, if_neg hxa]; exact hx)
      (by rw [up_set halt, if_neg hxa]; exact ih)

theorem Leveled.link (h : Leveled parent level) (ha : up parent a = a) (hb : up parent b = b)
    (hne : a ≠ b) (halt : a < parent.size) (hblt : b < parent.size) :
    ∃ level', Leveled (parent.setIfInBounds a b) level' := by
  classical
  have hsize : (parent.setIfInBounds a b).size = parent.size := by simp
  -- The tree of `b` is lifted above `a`.
  refine exists_leveled (fun x => if RootOf parent x b then level x + level a + 1 else level x)
    (fun x hx => ?_) fun x hx => ?_
  · rw [hsize] at hx ⊢
    rw [up_set halt]
    split
    · exact hblt
    · exact h.up_lt x hx
  · rw [up_set halt] at hx ⊢
    by_cases hxa : x = a
    · subst hxa
      have hother : ¬ RootOf parent x b := fun hr => hne ((RootOf.root ha).unique hr)
      rw [if_pos rfl, if_neg hother, if_pos (RootOf.root hb)]
      omega
    · rw [if_neg hxa] at hx ⊢
      have hrise := h.rises x hx
      have hsame : RootOf parent x b ↔ RootOf parent (up parent x) b := by
        constructor
        · intro hr
          cases hr with
          | root hroot => exact absurd hroot hx
          | step _ hr => exact hr
        · exact .step hx
      simp only [hsame]
      split <;> omega

end

end GlyphTable.Partition
