import GlyphTable.Proofs.Binary64.Whole

/-!
# Halving where numbers are dense

Not too far out the format has all multiples of a small unit, and half a sum is off from the middle
by a unit at most. An interval of a few units is therefore divided strictly inside, and its parts
are so much shorter that their rounded lengths are less, too (`Binary64.halved`).
-/

namespace GlyphTable.Binary64

/-- Numbers that are not further out than multiples of `gridUnit` reach. -/
def Close (a : Float) : Prop :=
  a.isFinite = true ∧ |value a| ≤ 2 ^ 30

instance (a : Float) : Decidable (Close a) :=
  inferInstanceAs (Decidable (_ ∧ _))

/-- What the middle of numbers that are not far out may be rounded by. -/
def gridUnit : ℚ := 2 ^ (-22 : Int)

variable {a b : Float}

section

variable (ha : Close a) (hb : Close b)

include ha

theorem Close.moderate : Moderate a :=
  ⟨ha.1, ha.2.trans (by norm_num)⟩

include hb

theorem Close.half_sum : Close ((a + b) / 2) := by
  obtain ⟨halow, hahigh⟩ := abs_le.mp ha.2
  obtain ⟨hblow, hbhigh⟩ := abs_le.mp hb.2
  obtain ⟨hhalf, hfaithful⟩ := faithful_half_sum ha.moderate hb.moderate
  exact ⟨hhalf, abs_le.mpr ⟨(hfaithful _ (representable_pow 30).neg).1 (by linarith),
    (hfaithful _ (representable_pow 30)).2 (by linarith)⟩⟩

/-- Between the middle and where rounding puts it stands no multiple of the unit. -/
theorem abs_half_sum_sub_le :
    |value ((a + b) / 2) - (value a + value b) / 2| ≤ gridUnit := by
  obtain ⟨halow, hahigh⟩ := abs_le.mp ha.2
  obtain ⟨hblow, hbhigh⟩ := abs_le.mp hb.2
  obtain ⟨-, hfaithful⟩ := faithful_half_sum ha.moderate hb.moderate
  have hunit : gridUnit * 2 ^ 22 = 1 := by decide +kernel
  have hpos : 0 < gridUnit := by decide +kernel
  obtain ⟨middle, hmiddle⟩ : ∃ q, q = (value a + value b) / 2 := ⟨_, rfl⟩
  obtain ⟨k, hk⟩ : ∃ k, k = ⌊middle * 2 ^ 22⌋ := ⟨_, rfl⟩
  have hfloor : (k : ℚ) ≤ middle * 2 ^ 22 := hk ▸ Int.floor_le _
  have hfloor' : middle * 2 ^ 22 < k + 1 := hk ▸ Int.lt_floor_add_one _
  have hklow : -(2 ^ 52) - 1 ≤ k := by
    have hcast : -(2 ^ 52) - 1 ≤ (k : ℚ) := by linarith
    exact_mod_cast hcast
  have hkhigh : k ≤ 2 ^ 52 := by
    have hcast : (k : ℚ) ≤ 2 ^ 52 := by linarith
    exact_mod_cast hcast
  have hgrid (j : Int) (hj : |j| < 2 ^ 53) : Representable (j * gridUnit) :=
    ⟨j, -22, hj, by decide, rfl⟩
  have hbelow := (hfaithful _ (hgrid k (abs_lt.mpr ⟨by omega, by omega⟩))).1
    (by rw [← hmiddle]; nlinarith)
  have habove := (hfaithful _ (hgrid (k + 1) (abs_lt.mpr ⟨by omega, by omega⟩))).2
    (by rw [← hmiddle]; push_cast; nlinarith)
  push_cast at habove
  rw [← hmiddle]
  refine abs_le.mpr ⟨?_, ?_⟩ <;> nlinarith

end

theorem exists_representable_between {p w : ℚ} (hw : 2 ^ (-1070 : Int) ≤ w) (hp : p ≤ 3 / 4 * w) :
    ∃ r s, Representable r ∧ Representable s ∧ p ≤ r ∧ r < s ∧ s ≤ w := by
  have hleast : (0 : ℚ) < 2 ^ (-1070 : Int) := by positivity
  have hwpos : 0 < w := hleast.trans_le hw
  obtain ⟨e, hlow, hhigh⟩ := exists_mem_Ico_zpow hwpos (one_lt_two (α := ℚ))
  have he : -1070 < e + 1 := (zpow_lt_zpow_iff_right₀ (one_lt_two (α := ℚ))).mp (hw.trans_lt hhigh)
  -- The unit goes into the length at least eight times, so three quarters are two units less.
  obtain ⟨f, rfl⟩ : ∃ f, e = f + 3 := ⟨e - 3, by omega⟩
  have hunit : (0 : ℚ) < 2 ^ f := by positivity
  have hpow : (2 : ℚ) ^ (f + 3) = 8 * 2 ^ f := by
    rw [zpow_add₀ (by norm_num)]
    norm_num
    ring
  rw [zpow_add_one₀ (by norm_num), hpow] at hhigh
  rw [hpow] at hlow
  have hgrid (j : Int) (hj : |j| < 2 ^ 53) : Representable (j * 2 ^ f) := ⟨j, f, hj, by omega, rfl⟩
  obtain ⟨k, hk⟩ : ∃ k, k = ⌊w / 2 ^ f⌋ := ⟨_, rfl⟩
  have hfloor : (k : ℚ) * 2 ^ f ≤ w := (le_div_iff₀ hunit).mp (hk ▸ Int.floor_le _)
  have hfloor' : w < (k + 1) * 2 ^ f := (div_lt_iff₀ hunit).mp (hk ▸ Int.lt_floor_add_one _)
  have hklow : 8 ≤ k := by
    have hlt : (7 : ℚ) < k := by nlinarith
    exact_mod_cast hlt
  have hkhigh : k < 16 := by
    have hlt : (k : ℚ) < 16 := by nlinarith
    exact_mod_cast hlt
  have hcast : (8 : ℚ) ≤ k := by exact_mod_cast hklow
  refine ⟨_, _, hgrid (k - 1) (abs_lt.mpr ⟨by omega, by omega⟩),
    hgrid k (abs_lt.mpr ⟨by omega, by omega⟩), ?_, ?_, hfloor⟩
  · push_cast
    nlinarith
  · push_cast
    linarith

theorem Faithful.lt_of_le {p w p' w' : ℚ} (hp : Faithful p p') (hw : Faithful w w')
    (hpos : 2 ^ (-1070 : Int) ≤ w) (hle : p ≤ 3 / 4 * w) : p' < w' := by
  obtain ⟨r, s, hr, hs, hpr, hrs, hsw⟩ := exists_representable_between hpos hle
  exact ((hp r hr).2 hpr).trans_lt (hrs.trans_le ((hw s hs).1 hsw))

-- ---------------------------------------------------------------------------
-- Parts of an interval
-- ---------------------------------------------------------------------------

structure Halved (a b c : Float) : Prop where
  lt_middle : a < c
  middle_lt : c < b
  lower_lt : c - a < b - a
  upper_lt : b - c < b - a
  lower_le : value c - value a ≤ (value b - value a) / 2 + gridUnit
  upper_le : value b - value c ≤ (value b - value a) / 2 + gridUnit

/-- An interval of more than four units is divided strictly inside. -/
theorem halved (ha : Close a) (hb : Close b) (hwide : 4 * gridUnit ≤ value b - value a) :
    Halved a b ((a + b) / 2) := by
  have hunit : 2 ^ (-1070 : Int) ≤ 4 * gridUnit := by decide +kernel
  have hpos : 0 < gridUnit := by decide +kernel
  have hc := ha.half_sum hb
  obtain ⟨hlow, hhigh⟩ := abs_le.mp (abs_half_sum_sub_le ha hb)
  generalize (a + b) / 2 = c at *
  have hwhole := faithful_sub ha.moderate hb.moderate
  have hlower := faithful_sub ha.moderate hc.moderate
  have hupper := faithful_sub hc.moderate hb.moderate
  have hlowerle : value c - value a ≤ (value b - value a) / 2 + gridUnit := by linarith
  have hupperle : value b - value c ≤ (value b - value a) / 2 + gridUnit := by linarith
  refine ⟨(lt_iff_value_lt ha.1 hc.1).mpr (by linarith),
    (lt_iff_value_lt hc.1 hb.1).mpr (by linarith),
    (lt_iff_value_lt hlower.1 hwhole.1).mpr ?_, (lt_iff_value_lt hupper.1 hwhole.1).mpr ?_,
    hlowerle, hupperle⟩
  · exact hlower.2.lt_of_le hwhole.2 (hunit.trans hwide) (by linarith)
  · exact hupper.2.lt_of_le hwhole.2 (hunit.trans hwide) (by linarith)

end GlyphTable.Binary64
