import GlyphTable.Geometry.Span
import GlyphTable.Proofs.Binary64.Monotone

/-!
# Laws of spans

The join of two spans is the least span that contains both, and where they meet, their common part
is the greatest that both contain. A span that contains another is no shorter, whatever rounding
does to the sizes (`Span.size_le_size`), so the overlap is a number from zero to one that does not
depend on which span comes first (`Span.laws_of_isFinite_join`).
-/

namespace GlyphTable.Span

open Binary64

structure Finite (s : Span) : Prop where
  valid : s.Valid
  min : s.min.isFinite = true
  max : s.max.isFinite = true

instance (s : Span) : Decidable s.Finite :=
  decidable_of_iff (s.Valid ∧ s.min.isFinite = true ∧ s.max.isFinite = true)
    ⟨fun ⟨h, hmin, hmax⟩ => ⟨h, hmin, hmax⟩, fun ⟨h, hmin, hmax⟩ => ⟨h, hmin, hmax⟩⟩

section

variable {s t u : Span}

theorem Finite.numbers (h : s.Finite) : IsNumber s.min ∧ IsNumber s.max :=
  ⟨isNumber_of_isFinite h.min, isNumber_of_isFinite h.max⟩

-- ---------------------------------------------------------------------------
-- Sizes
-- ---------------------------------------------------------------------------

theorem size_le_size (hs : s.Finite) (hu : u.Finite) (h : u.Contains s) : s.size ≤ u.size :=
  sub_le_sub hs.max hs.min hu.max hu.min h.2 h.1

theorem zero_le_size (hs : s.Finite) : 0 ≤ s.size :=
  (roundedTo_sub hs.max hs.min).le_of_le 0 rfl
    (sub_nonneg.mpr ((le_iff_value_le hs.min hs.max).mp hs.valid))

-- ---------------------------------------------------------------------------
-- Joins
-- ---------------------------------------------------------------------------

theorem join_contains (hs : s.Finite) (ht : t.Finite) :
    (s.join t).Contains s ∧ (s.join t).Contains t := by
  obtain ⟨hmins, hmint⟩ := lesser_le hs.numbers.1 ht.numbers.1
  obtain ⟨hmaxs, hmaxt⟩ := le_greater hs.numbers.2 ht.numbers.2
  exact ⟨⟨hmins, hmaxs⟩, hmint, hmaxt⟩

theorem contains_join (hs : u.Contains s) (ht : u.Contains t) : u.Contains (s.join t) :=
  ⟨lesser_of (P := (u.min ≤ ·)) hs.1 ht.1, greater_of (P := (· ≤ u.max)) hs.2 ht.2⟩

theorem Finite.join (hs : s.Finite) (ht : t.Finite) : (s.join t).Finite := by
  obtain ⟨hmin, hmax⟩ := (join_contains hs ht).1
  exact ⟨le_trans hmin (le_trans hs.valid hmax), lesser_of (P := (·.isFinite = true)) hs.min ht.min,
    greater_of (P := (·.isFinite = true)) hs.max ht.max⟩

theorem size_le_size_join (hs : s.Finite) (ht : t.Finite) :
    s.size ≤ (s.join t).size ∧ t.size ≤ (s.join t).size :=
  have hcontains := join_contains hs ht
  ⟨size_le_size hs (hs.join ht) hcontains.1, size_le_size ht (hs.join ht) hcontains.2⟩

theorem join_self (s : Span) : s.join s = s := by
  have hmin := (lesser_eq s.min s.min).elim id id
  have hmax := (greater_eq s.max s.max).elim id id
  rw [join, hmin, hmax]

theorem size_join_comm (hs : s.Finite) (ht : t.Finite) : (s.join t).size == (t.join s).size :=
  have hcontains := join_contains hs ht
  have hcontains' := join_contains ht hs
  beq_iff.mpr ⟨size_le_size (hs.join ht) (ht.join hs) (contains_join hcontains'.2 hcontains'.1),
    size_le_size (ht.join hs) (hs.join ht) (contains_join hcontains.2 hcontains.1)⟩

-- ---------------------------------------------------------------------------
-- Common parts
-- ---------------------------------------------------------------------------

theorem Meets.symm (h : s.Meets t) : t.Meets s :=
  ⟨h.2, h.1⟩

theorem meets_iff_le (hs : s.Finite) (ht : t.Finite) :
    s.Meets t ↔ greater s.min t.min ≤ lesser s.max t.max := by
  constructor
  · intro h
    exact greater_of (P := (· ≤ _)) (lesser_of (P := (_ ≤ ·)) hs.valid h.1)
      (lesser_of (P := (_ ≤ ·)) h.2 ht.valid)
  · intro h
    obtain ⟨hmins, hmint⟩ := le_greater hs.numbers.1 ht.numbers.1
    obtain ⟨hmaxs, hmaxt⟩ := lesser_le hs.numbers.2 ht.numbers.2
    exact ⟨le_trans hmins (le_trans h hmaxt), le_trans hmint (le_trans h hmaxs)⟩

theorem meet_of_meets (hs : s.Finite) (ht : t.Finite) (h : s.Meets t) :
    s.meet t = ⟨greater s.min t.min, lesser s.max t.max⟩ :=
  if_pos ((meets_iff_le hs ht).mp h)

theorem meet_of_not_meets (hs : s.Finite) (ht : t.Finite) (h : ¬ s.Meets t) :
    s.meet t = ⟨greater s.min t.min, greater s.min t.min⟩ :=
  if_neg (mt (meets_iff_le hs ht).mpr h)

theorem contains_meet (hs : s.Finite) (ht : t.Finite) (h : s.Meets t) :
    s.Contains (s.meet t) ∧ t.Contains (s.meet t) := by
  rw [meet_of_meets hs ht h]
  obtain ⟨hmins, hmint⟩ := le_greater hs.numbers.1 ht.numbers.1
  obtain ⟨hmaxs, hmaxt⟩ := lesser_le hs.numbers.2 ht.numbers.2
  exact ⟨⟨hmins, hmaxs⟩, hmint, hmaxt⟩

theorem meet_contains (hs : s.Finite) (ht : t.Finite) (h : s.Meets t) (hus : s.Contains u)
    (hut : t.Contains u) : (s.meet t).Contains u := by
  rw [meet_of_meets hs ht h]
  exact ⟨greater_of (P := (· ≤ u.min)) hus.1 hut.1, lesser_of (P := (u.max ≤ ·)) hus.2 hut.2⟩

theorem Finite.meet (hs : s.Finite) (ht : t.Finite) : (s.meet t).Finite := by
  have hmin : (greater s.min t.min).isFinite = true :=
    greater_of (P := (·.isFinite = true)) hs.min ht.min
  by_cases h : s.Meets t
  · rw [meet_of_meets hs ht h]
    exact ⟨(meets_iff_le hs ht).mp h, hmin, lesser_of (P := (·.isFinite = true)) hs.max ht.max⟩
  · rw [meet_of_not_meets hs ht h]
    exact ⟨le_refl (isNumber_of_isFinite hmin), hmin, hmin⟩

theorem size_meet_of_not_meets (hs : s.Finite) (ht : t.Finite) (h : ¬ s.Meets t) :
    (s.meet t).size = 0 := by
  rw [meet_of_not_meets hs ht h]
  exact sub_self_eq_zero (greater_of (P := (·.isFinite = true)) hs.min ht.min)

theorem size_meet_le (hs : s.Finite) (ht : t.Finite) (hu : u.Finite)
    (h : s.Meets t → u.Contains (s.meet t)) : (s.meet t).size ≤ u.size := by
  by_cases hmeets : s.Meets t
  · exact size_le_size (hs.meet ht) hu (h hmeets)
  · rw [size_meet_of_not_meets hs ht hmeets]
    exact zero_le_size hu

theorem size_meet_le_size (hs : s.Finite) (ht : t.Finite) :
    (s.meet t).size ≤ s.size ∧ (s.meet t).size ≤ t.size :=
  ⟨size_meet_le hs ht hs fun h => (contains_meet hs ht h).1,
    size_meet_le hs ht ht fun h => (contains_meet hs ht h).2⟩

theorem size_meet_comm (hs : s.Finite) (ht : t.Finite) : (s.meet t).size == (t.meet s).size := by
  refine beq_iff.mpr ⟨size_meet_le hs ht (ht.meet hs) fun h => ?_,
    size_meet_le ht hs (hs.meet ht) fun h => ?_⟩
  · exact meet_contains ht hs h.symm (contains_meet hs ht h).2 (contains_meet hs ht h).1
  · exact meet_contains hs ht h.symm (contains_meet ht hs h).2 (contains_meet ht hs h).1

theorem meet_self (hs : s.Finite) : s.meet s = s := by
  have hmin := (greater_eq s.min s.min).elim id id
  have hmax := (lesser_eq s.max s.max).elim id id
  rw [meet_of_meets hs hs ⟨hs.valid, hs.valid⟩, hmin, hmax]

theorem meets_iff_exists (hs : s.Finite) (ht : t.Finite) :
    s.Meets t ↔ ∃ v, s.Holds v ∧ t.Holds v := by
  constructor
  · intro h
    obtain ⟨hins, hint⟩ := contains_meet hs ht h
    have hvalid := (hs.meet ht).valid
    exact ⟨(s.meet t).min, ⟨hins.1, le_trans hvalid hins.2⟩, hint.1, le_trans hvalid hint.2⟩
  · rintro ⟨v, ⟨hmins, hmaxs⟩, hmint, hmaxt⟩
    exact ⟨le_trans hmins hmaxt, le_trans hmint hmaxs⟩

-- ---------------------------------------------------------------------------
-- Overlaps
-- ---------------------------------------------------------------------------

theorem overlap_of_le_zero (h : (s.join t).size ≤ 0) : s.overlap t = 0 :=
  if_pos h

theorem overlap_of_not_le_zero (h : ¬ (s.join t).size ≤ 0) :
    s.overlap t = (s.meet t).size / (s.join t).size :=
  if_neg h

section

variable (hs : s.Finite) (ht : t.Finite) (hsize : (s.join t).size.isFinite = true)

include hs ht hsize

theorem isFinite_size_join_comm : (t.join s).size.isFinite = true :=
  have hle := beq_iff.mp (size_join_comm hs ht)
  isFinite_of_between hsize hsize hle.1 hle.2

theorem isFinite_size_meet : (s.meet t).size.isFinite = true :=
  isFinite_of_between (a := 0) rfl hsize (zero_le_size (hs.meet ht))
    (le_trans (size_meet_le_size hs ht).1 (size_le_size_join hs ht).1)

theorem overlap_between : 0 ≤ s.overlap t ∧ s.overlap t ≤ 1 := by
  by_cases hwhole : (s.join t).size ≤ 0
  · rw [overlap_of_le_zero hwhole]
    decide +kernel
  · have hmeet := isFinite_size_meet hs ht hsize
    have hpos : 0 < value (s.join t).size := value_pos_of_not_le_zero hsize hwhole
    have hlow : 0 ≤ value (s.meet t).size :=
      (le_iff_value_le (a := 0) rfl hmeet).mp (zero_le_size (hs.meet ht))
    have hhigh : value (s.meet t).size ≤ value (s.join t).size :=
      (le_iff_value_le hmeet hsize).mp
        (le_trans (size_meet_le_size hs ht).1 (size_le_size_join hs ht).1)
    have hround := roundedTo_div hmeet hsize hpos.ne'
    rw [overlap_of_not_le_zero hwhole]
    refine ⟨hround.le_of_le 0 rfl (div_nonneg hlow hpos.le), hround.ge_of_ge 1 rfl ?_⟩
    rw [value_one]
    exact (div_le_one hpos).mpr hhigh

theorem overlap_symm : s.overlap t == t.overlap s := by
  have hwholes := size_join_comm hs ht
  have hle := beq_iff.mp hwholes
  by_cases hwhole : (s.join t).size ≤ 0
  · rw [overlap_of_le_zero hwhole, overlap_of_le_zero (le_trans hle.2 hwhole)]
    decide +kernel
  · have hsize' := isFinite_size_join_comm hs ht hsize
    have hpos : 0 < value (s.join t).size := value_pos_of_not_le_zero hsize hwhole
    have hsame := eq_of_value_eq hsize hsize' ((beq_iff_value_eq hsize hsize').mp hwholes) hpos.ne'
    rw [overlap_of_not_le_zero hwhole, overlap_of_not_le_zero (hsame ▸ hwhole), ← hsame]
    exact div_beq_div (isFinite_size_meet hs ht hsize) (isFinite_size_meet ht hs hsize')
      hsize hpos.ne'
      (size_meet_comm hs ht)

end

theorem overlap_self (hs : s.Finite) (hsize : s.size.isFinite = true) (hpos : 0 < s.size) :
    s.overlap s = 1 := by
  have hwhole : ¬ (s.join s).size ≤ 0 := by
    rw [join_self]
    exact fun hle => lt_irrefl _ (lt_of_lt_of_le hpos hle)
  rw [overlap_of_not_le_zero hwhole, join_self, meet_self hs]
  exact div_self_eq_one hsize ((lt_iff_value_lt (a := 0) rfl hsize).mp hpos).ne'

structure Laws (s t : Span) : Prop where
  overlap_between : 0 ≤ s.overlap t ∧ s.overlap t ≤ 1
  /-- But for the sign of zero, which depends on the sequence of the spans. -/
  overlap_symm : s.overlap t == t.overlap s
  overlap_self : 0 < s.size → s.overlap s = 1
  size_le_size_join : s.size ≤ (s.join t).size ∧ t.size ≤ (s.join t).size
  size_meet_le_size : (s.meet t).size ≤ s.size ∧ (s.meet t).size ≤ t.size
  meet_valid : (s.meet t).Valid
  contains_meet : s.Meets t → s.Contains (s.meet t) ∧ t.Contains (s.meet t)
  size_meet_of_not_meets : ¬ s.Meets t → (s.meet t).size = 0
  meets_iff_exists : s.Meets t ↔ ∃ v, s.Holds v ∧ t.Holds v

theorem laws_of_isFinite_join (hs : s.Finite) (ht : t.Finite)
    (hsize : (s.join t).size.isFinite = true) :
    s.Laws t where
  overlap_between := overlap_between hs ht hsize
  overlap_symm := overlap_symm hs ht hsize
  overlap_self := overlap_self hs
    (isFinite_of_between (a := 0) rfl hsize (zero_le_size hs) (size_le_size_join hs ht).1)
  size_le_size_join := size_le_size_join hs ht
  size_meet_le_size := size_meet_le_size hs ht
  meet_valid := (hs.meet ht).valid
  contains_meet := contains_meet hs ht
  size_meet_of_not_meets := size_meet_of_not_meets hs ht
  meets_iff_exists := meets_iff_exists hs ht

/-- Spans of the least positive sizes, with zeros of both signs at their ends. -/
theorem laws_least : Laws ⟨-0.0, 5e-324⟩ ⟨0.0, 1e-323⟩ :=
  laws_of_isFinite_join (by decide +kernel) (by decide +kernel) (by decide +kernel)

end

end GlyphTable.Span
