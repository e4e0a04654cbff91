import GlyphTable.Proofs.Binary64.Halving
import GlyphTable.Proofs.PointTree.Query

/-!
# The limit of depth decides nothing

A leaf is divided either to an end, which a depth of `depthLimit` is enough for, or without
end (`PointTree.grow?_depthLimit`). For as long as the middle of a region moves on one of the
axes, that side shrinks to five sixths at least; and when it moves on neither, the part that
may be divided is the region itself, with all points it had.
-/

namespace GlyphTable

open Binary64 (Stuck Narrow value)

/-- Whether each side of the box is divided no further, or is no longer than given. -/
structure Box.Narrow (w : ℚ) (b : Box) : Prop where
  horizontal : Binary64.Narrow w b.left b.right
  vertical : Binary64.Narrow w b.top b.bottom

namespace PointTree

variable {α : Type} {region : Box} {points : List (Point × α)} {depth : Nat} {t : PointTree α}

-- ---------------------------------------------------------------------------
-- Growing to different depths
-- ---------------------------------------------------------------------------

theorem overfull_of_grow?_eq_none (h : grow? depth region points = none) :
    Overfull region points := by
  by_contra hnot
  rw [grow?_of_not_overfull hnot] at h
  cases h

theorem grow?_succ_eq_none_iff (h : Overfull region points) :
    grow? (depth + 1) region points = none ↔
      ∃ q : Quadrant, grow? depth (q.within region) (part region points q) = none := by
  have hsome (t : PointTree α) : grow? (depth + 1) region points = some t ↔ _ :=
    grow?_succ_eq_some_iff h
  constructor
  · intro hnone
    by_contra hall
    choose grown hgrown using fun q : Quadrant => Option.ne_none_iff_exists'.mp fun h => hall ⟨q, h⟩
    have hgrow := (hsome _).mpr ⟨grown, hgrown, rfl⟩
    rw [hnone] at hgrow
    cases hgrow
  · rintro ⟨q, hq⟩
    by_contra hne
    obtain ⟨t, ht⟩ := Option.ne_none_iff_exists'.mp hne
    obtain ⟨grown, hgrown, -⟩ := (hsome t).mp ht
    rw [hgrown q] at hq
    cases hq

theorem grow?_succ (h : grow? depth region points = some t) :
    grow? (depth + 1) region points = some t := by
  induction depth generalizing region points t with
  | zero =>
    by_cases hfull : Overfull region points
    · rw [grow?_zero_of_overfull hfull] at h
      cases h
    · rwa [grow?_of_not_overfull hfull] at h ⊢
  | succ depth ih =>
    by_cases hfull : Overfull region points
    · obtain ⟨grown, hgrown, rfl⟩ := (grow?_succ_eq_some_iff hfull).mp h
      exact (grow?_succ_eq_some_iff hfull).mpr ⟨grown, fun q => ih (hgrown q), rfl⟩
    · rwa [grow?_of_not_overfull hfull] at h ⊢

theorem grow?_add (h : grow? depth region points = some t) (k : Nat) :
    grow? (depth + k) region points = some t := by
  induction k with
  | zero => exact h
  | succ k ih => exact grow?_succ ih

-- ---------------------------------------------------------------------------
-- Division without end
-- ---------------------------------------------------------------------------

theorem grow?_eq_none_of_within_eq {q : Quadrant} (hq : q.within region = region)
    (hfull : Overfull region points) (hpoints : part region points q = points) :
    grow? depth region points = none := by
  induction depth with
  | zero => exact grow?_zero_of_overfull hfull
  | succ depth ih =>
    rw [grow?_succ_eq_none_iff hfull]
    exact ⟨q, by rwa [hq, hpoints]⟩

theorem part_part (q : Quadrant) : part region (part region points q) q = part region points q := by
  rw [part, part, List.filter_filter]
  simp only [Bool.and_self]

theorem leastExtent_pos : 0 < leastExtent := by
  decide +kernel

theorem Divisible.pos (h : Divisible region) : 0 < region.width ∧ 0 < region.height :=
  ⟨Binary64.lt_trans leastExtent_pos h.1, Binary64.lt_trans leastExtent_pos h.2⟩

theorem Quadrant.within_eq (hx : Stuck region.left region.right)
    (hy : Stuck region.top region.bottom)
    {q : Quadrant} (h : Divisible (q.within region)) : q.within region = region := by
  obtain ⟨hwidth, hheight⟩ := h.pos
  obtain ⟨hwest, heast⟩ := hx.part_eq
  obtain ⟨hnorth, hsouth⟩ := hy.part_eq
  cases q with
  | northWest => rw [within, Box.center, hwest hwidth, hnorth hheight]
  | northEast => rw [within, Box.center, heast hwidth, hnorth hheight]
  | southWest => rw [within, Box.center, hwest hwidth, hsouth hheight]
  | southEast => rw [within, Box.center, heast hwidth, hsouth hheight]

theorem grow?_eq_none_of_part {q : Quadrant} (hfull : Overfull region points)
    (h : ∀ depth, grow? depth (q.within region) (part region points q) = none) :
    grow? depth region points = none := by
  cases depth with
  | zero => exact grow?_zero_of_overfull hfull
  | succ depth => exact (grow?_succ_eq_none_iff hfull).mpr ⟨q, h depth⟩

-- ---------------------------------------------------------------------------
-- How often a region is divided
-- ---------------------------------------------------------------------------

/-- Less than any side of a region that may be divided. -/
def leastSide : ℚ := 2 ^ (-20 : Int)

theorem leastSide_lt : leastSide < value leastExtent := by
  decide +kernel

def sideLimit (n : Nat) : ℚ := leastSide * (6 / 5) ^ n

theorem sideLimit_succ (n : Nat) : 5 / 6 * sideLimit (n + 1) = sideLimit n := by
  rw [sideLimit, sideLimit, pow_succ]
  ring

section

variable {a b : Float} {n : Nat}

theorem leastSide_lt_sub (ha : a.isFinite = true) (hb : b.isFinite = true)
    (hwide : leastExtent < b - a) : leastSide < value b - value a := by
  refine leastSide_lt.trans_le ?_
  by_contra hless
  have hle := (Binary64.roundedTo_sub hb ha).ge_of_ge leastExtent (by decide +kernel)
    (not_le.mp hless).le
  exact Binary64.lt_irrefl _ (Binary64.lt_of_lt_of_le hwide hle)

theorem stuck_of_narrow (h : Narrow (sideLimit 0) a b) (hwide : leastExtent < b - a) :
    Stuck a b := by
  refine h.resolve_right fun ⟨ha, hb, hw⟩ => ?_
  rw [sideLimit, pow_zero, mul_one] at hw
  exact absurd (leastSide_lt_sub ha hb hwide) (not_lt.mpr hw)

theorem narrow_parts (h : Narrow (sideLimit (n + 1)) a b) (hwide : leastExtent < b - a) :
    (leastExtent < (a + b) / 2 - a → Narrow (sideLimit n) a ((a + b) / 2)) ∧
      (leastExtent < b - (a + b) / 2 → Narrow (sideLimit n) ((a + b) / 2) b) := by
  by_cases hstuck : Stuck a b
  · obtain ⟨hlow, hhigh⟩ := hstuck.part_eq
    refine ⟨fun hwidth => .inl ?_, fun hwidth => .inl ?_⟩
    · rwa [hlow (Binary64.lt_trans leastExtent_pos hwidth)]
    · rwa [hhigh (Binary64.lt_trans leastExtent_pos hwidth)]
  · obtain ⟨ha, hb, -⟩ := h.resolve_left hstuck
    have hleast : 2 * 2 ^ (-1074 : Int) ≤ leastSide := by decide +kernel
    have hparts := h.parts hstuck (hleast.trans (leastSide_lt_sub ha hb hwide).le)
    rw [sideLimit_succ] at hparts
    exact ⟨fun _ => hparts.1, fun _ => hparts.2⟩

end

theorem Quadrant.narrow_within {n : Nat} (h : region.Narrow (sideLimit (n + 1)))
    (hdiv : Divisible region)
    {q : Quadrant} (hpart : Divisible (q.within region)) :
    (q.within region).Narrow (sideLimit n) := by
  obtain ⟨hwest, heast⟩ := narrow_parts h.horizontal hdiv.1
  obtain ⟨hnorth, hsouth⟩ := narrow_parts h.vertical hdiv.2
  obtain ⟨hwidth, hheight⟩ := hpart
  cases q with
  | northWest => exact ⟨hwest hwidth, hnorth hheight⟩
  | northEast => exact ⟨heast hwidth, hnorth hheight⟩
  | southWest => exact ⟨hwest hwidth, hsouth hheight⟩
  | southEast => exact ⟨heast hwidth, hsouth hheight⟩

/-- What does not end within the divisions that shorten the sides does not end. -/
theorem grow?_eq_none_of_narrow {n : Nat} (h : region.Narrow (sideLimit n))
    (hnone : grow? (n + 1) region points = none) : grow? depth region points = none := by
  induction n generalizing region points depth with
  | zero =>
    have hfull := overfull_of_grow?_eq_none hnone
    obtain ⟨q, hq⟩ := (grow?_succ_eq_none_iff hfull).mp hnone
    have hpart := overfull_of_grow?_eq_none hq
    have hsame := Quadrant.within_eq (stuck_of_narrow h.horizontal hfull.2.1)
      (stuck_of_narrow h.vertical hfull.2.2) hpart.2
    refine grow?_eq_none_of_part (q := q) hfull fun depth => ?_
    rw [hsame] at hpart ⊢
    exact grow?_eq_none_of_within_eq hsame hpart (part_part q)
  | succ n ih =>
    have hfull := overfull_of_grow?_eq_none hnone
    obtain ⟨q, hq⟩ := (grow?_succ_eq_none_iff hfull).mp hnone
    exact grow?_eq_none_of_part hfull fun _ =>
      ih (Quadrant.narrow_within h hfull.2 (overfull_of_grow?_eq_none hq).2) hq

theorem narrow_of_centered (h : region.Centered) : region.Narrow (sideLimit 4095) := by
  have hlimit : 2 ^ 54 * 2 ^ (971 : Int) ≤ sideLimit 4095 := by decide +kernel
  exact ⟨(Binary64.narrow_of_isNumber h.horizontal).mono hlimit,
    (Binary64.narrow_of_isNumber h.vertical).mono hlimit⟩

/-- What grows to an end grows to it within the limit. -/
theorem grow?_depthLimit (h : region.Centered) :
    grow? depthLimit region points = some t ↔ ∃ depth, grow? depth region points = some t := by
  refine ⟨fun hsome => ⟨_, hsome⟩, fun ⟨depth, hsome⟩ => ?_⟩
  cases hlimit : grow? depthLimit region points with
  | none =>
    rw [grow?_eq_none_of_narrow (narrow_of_centered h) hlimit] at hsome
    cases hsome
  | some u =>
    have hmore := grow?_add hsome depthLimit
    rwa [Nat.add_comm, grow?_add hlimit depth] at hmore

end PointTree

end GlyphTable
