import GlyphTable.Proofs.Stored.Format
import GlyphTable.Stored.Reader
import GlyphTable.Stored.Writer
import Mathlib.Data.List.TakeWhile

/-!
# Number texts

A number text is read up to the first character that cannot continue it, so it reads
the same with anything behind it that stops it. The decimal digits of an integer of a
machine word read back as that integer.
-/

namespace GlyphTable.Json

-- ---------------------------------------------------------------------------
-- What may stand behind a number
-- ---------------------------------------------------------------------------

def Numeric (c : Char) : Prop :=
  c.isDigit ∨ c ∈ ['.', 'e', 'E', '+', '-']

/-- Characters that may stand behind a number without being read as part of it. -/
def Stops (rest : List Char) : Prop :=
  ∀ c ∈ rest.head?, ¬ Numeric c

theorem stops_nil : Stops [] := by
  simp [Stops]

theorem stops_cons {c : Char} {cs : List Char} :
    Stops (c :: cs) ↔ c.isDigit = false ∧ c ∉ ['.', 'e', 'E', '+', '-'] := by
  simp [Stops, Numeric]

def behind {α : Type} (rest : List Char) (r : α × List Char) : α × List Char :=
  (r.1, r.2 ++ rest)

section Append

variable {cs rest : List Char}

theorem takeWhile_isDigit_append (h : Stops rest) :
    (cs ++ rest).takeWhile Char.isDigit = cs.takeWhile Char.isDigit := by
  induction cs with
  | nil =>
    cases rest with
    | nil => rfl
    | cons c _ => simp [(stops_cons.mp h).1]
  | cons c cs ih => by_cases hc : c.isDigit <;> simp [hc, ih]

theorem dropWhile_isDigit_append (h : Stops rest) :
    (cs ++ rest).dropWhile Char.isDigit = cs.dropWhile Char.isDigit ++ rest := by
  induction cs with
  | nil =>
    cases rest with
    | nil => rfl
    | cons c _ => simp [(stops_cons.mp h).1]
  | cons c cs ih => by_cases hc : c.isDigit <;> simp [hc, ih]

theorem readDigits_append (h : Stops rest) :
    readDigits (cs ++ rest) = (readDigits cs).map (behind rest) := by
  simp only [readDigits, takeWhile_isDigit_append h, dropWhile_isDigit_append h]
  split <;> simp_all [behind]

theorem readWhole_append (h : Stops rest) :
    readWhole (cs ++ rest) = (readWhole cs).map (behind rest) := by
  simp only [readWhole, readDigits_append h]
  cases readDigits cs with
  | none => rfl
  | some r => by_cases hz : r.1.head? = some '0' ∧ r.1.length ≠ 1 <;> simp [behind, hz]

theorem readFraction_append (h : Stops rest) :
    readFraction (cs ++ rest) = (readFraction cs).map (behind rest) := by
  cases cs with
  | nil =>
    cases rest with
    | nil => rfl
    | cons c rest => simp_all [readFraction, stops_cons, behind]
  | cons c cs =>
    by_cases hc : c = '.'
    · subst hc
      simp only [List.cons_append, readFraction, readDigits_append h, Option.map_map]
      rfl
    · simp [readFraction, hc, behind]

theorem readExponent_append (h : Stops rest) :
    readExponent (cs ++ rest) = (readExponent cs).map (behind rest) := by
  cases cs with
  | nil =>
    cases rest with
    | nil => rfl
    | cons c rest => simp_all [readExponent, stops_cons, behind]
  | cons c cs =>
    by_cases hc : c = 'e' ∨ c = 'E'
    · simp only [List.cons_append, readExponent, if_pos hc]
      cases cs with
      | nil =>
        -- `rest` has no sign in front that could be read as that of the exponent
        cases rest with
        | nil => rfl
        | cons d rest => simp_all [stops_cons, readDigits]
      | cons d cs =>
        have hdigits : readDigits (cs ++ rest) = _ := readDigits_append h
        have hdigits' : readDigits (d :: cs ++ rest) = _ := readDigits_append h
        by_cases hd : d = '-' ∨ d = '+'
        · rcases hd with rfl | rfl <;>
            simp [hdigits, Option.map_map, Function.comp_def, behind]
        · simp only [not_or] at hd
          simp_all [Option.map_map, Function.comp_def, behind]
    · simp [readExponent, hc, behind]

def readUnsigned (negative : Bool) (cs : List Char) : Option (Json × List Char) := do
  let (whole, cs) ← readWhole cs
  let (fraction, cs) ← readFraction cs
  let (exponent, cs) ← readExponent cs
  let value := match fraction, exponent with
    | none, none => integer negative (digitsValue whole)
    | _, _ =>
      let places := fraction.getD []
      .real (decimal negative (digitsValue (whole ++ places)) (exponent.getD 0 - places.length))
  match value with
  | .real x => if x.isFinite then some (value, cs) else none
  | _ => some (value, cs)

theorem readNumber_minus (cs : List Char) : readNumber ('-' :: cs) = readUnsigned true cs :=
  rfl

theorem readNumber_of_head (h : cs.head? ≠ some '-') : readNumber cs = readUnsigned false cs := by
  unfold readNumber
  split
  · next sign =>
    split at sign
    · exact absurd rfl h
    · cases sign
      rfl

theorem readUnsigned_append (negative : Bool) (h : Stops rest) :
    readUnsigned negative (cs ++ rest) = (readUnsigned negative cs).map (behind rest) := by
  simp only [readUnsigned, readWhole_append h]
  cases readWhole cs with
  | none => rfl
  | some whole =>
    simp only [Option.map_some, behind, Option.bind_eq_bind, Option.bind_some,
      readFraction_append h]
    cases readFraction whole.2 with
    | none => rfl
    | some fraction =>
      simp only [Option.map_some, behind, Option.bind_some, readExponent_append h]
      cases readExponent fraction.2 with
      | none => rfl
      | some exponent =>
        simp only [Option.map_some, behind, Option.bind_some]
        split
        · split <;> rfl
        · rfl

theorem readNumber_append (h : Stops rest) :
    readNumber (cs ++ rest) = (readNumber cs).map (behind rest) := by
  by_cases hc : cs.head? = some '-'
  · obtain ⟨cs, rfl⟩ := List.head?_eq_some_iff.mp hc
    exact readUnsigned_append true h
  · have hrest : (cs ++ rest).head? ≠ some '-' := by
      cases cs with
      | nil => intro hr; simpa [Numeric] using h '-' hr
      | cons c cs => simpa using hc
    rw [readNumber_of_head hc, readNumber_of_head hrest, readUnsigned_append false h]

end Append

-- ---------------------------------------------------------------------------
-- Decimal digits
-- ---------------------------------------------------------------------------

theorem digitsValue_toDigits (n : Nat) : digitsValue (Nat.toDigits 10 n) = n := by
  rw [digitsValue, ← Nat.ofDigitChars_eq_foldl, Nat.ofDigitChars_ten_toDigits]

theorem all_isDigit_toDigits (n : Nat) : ∀ c ∈ Nat.toDigits 10 n, c.isDigit :=
  fun _ => Nat.isDigit_of_mem_toDigits (by decide) (by decide)

theorem head?_toDigits {n : Nat} (h : 0 < n) : (Nat.toDigits 10 n).head? ≠ some '0' := by
  induction n using Nat.strongRecOn with
  | ind n ih =>
    by_cases hn : n < 10
    · rw [Nat.toDigits_of_lt_base hn]
      have hdigit : ∀ d < 10, 0 < d → d.digitChar ≠ '0' := by decide
      simpa using hdigit n hn h
    · rw [Nat.toDigits_of_base_le (by decide) (by omega)]
      have hfront := ih (n / 10) (by omega) (by omega)
      obtain ⟨d, ds, hds⟩ : ∃ d ds, Nat.toDigits 10 (n / 10) = d :: ds :=
        List.exists_cons_of_ne_nil Nat.toDigits_ne_nil
      simpa [hds] using hfront

theorem toDigits_plain (n : Nat) :
    (Nat.toDigits 10 n).head? ≠ some '0' ∨ (Nat.toDigits 10 n).length = 1 := by
  rcases Nat.eq_zero_or_pos n with rfl | h
  · exact .inr rfl
  · exact .inl (head?_toDigits h)

theorem readWhole_toDigits (n : Nat) :
    readWhole (Nat.toDigits 10 n) = some (Nat.toDigits 10 n, []) := by
  have htake := List.takeWhile_eq_self_iff.mpr (all_isDigit_toDigits n)
  have hdrop := List.dropWhile_eq_nil_iff.mpr (all_isDigit_toDigits n)
  have hdigits : readDigits (Nat.toDigits 10 n) = some (Nat.toDigits 10 n, []) := by
    simp only [readDigits, htake, hdrop]
    split
    · next h => exact absurd h Nat.toDigits_ne_nil
    · rfl
  have := toDigits_plain n
  simp only [readWhole, hdigits]
  grind

theorem toList_toString (n : Nat) : (toString n).toList = Nat.toDigits 10 n :=
  Nat.toList_repr

theorem toString_injective : Function.Injective (toString : Nat → String) := by
  intro n k h
  have hdigits := congrArg String.toList h
  rw [toList_toString, toList_toString] at hdigits
  rw [← digitsValue_toDigits n, hdigits, digitsValue_toDigits]

-- ---------------------------------------------------------------------------
-- Integers
-- ---------------------------------------------------------------------------

theorem toList_toString_neg {n : Nat} (h : 0 < n) :
    (toString (-n : Int)).toList = '-' :: Nat.toDigits 10 n := by
  obtain ⟨m, rfl⟩ := Nat.exists_eq_succ_of_ne_zero h.ne'
  change ("-" ++ (m + 1).repr).toList = _
  rw [String.toList_append, Nat.toList_repr]
  rfl

theorem readUnsigned_toDigits (negative : Bool) {n : Nat} {k : Int}
    (h : integer negative n = .int k) :
    readUnsigned negative (Nat.toDigits 10 n) = some (.int k, []) := by
  simp [readUnsigned, readWhole_toDigits, readFraction, readExponent, digitsValue_toDigits, h]

theorem readNumber_toString {n : Int} (h : IsWord n) :
    readNumber (toString n).toList = some (.int n, []) := by
  by_cases hn : n < 0
  · obtain ⟨m, rfl⟩ := Int.exists_eq_neg_ofNat (Int.le_of_lt hn)
    rw [toList_toString_neg (by omega), readNumber_minus]
    exact readUnsigned_toDigits true (by simp only [integer, h.1]; grind)
  · obtain ⟨m, rfl⟩ := Int.eq_ofNat_of_zero_le (Int.not_lt.mp hn)
    have hhead : (Nat.toDigits 10 m).head? ≠ some '-' := fun hc =>
      absurd (all_isDigit_toDigits m '-' (List.mem_of_head? hc)) (by decide)
    change readNumber (toString m).toList = _
    rw [toList_toString, readNumber_of_head hhead]
    exact readUnsigned_toDigits false (by simp [integer, Int.ofNat_lt.mp h.2])

-- ---------------------------------------------------------------------------
-- Characters of number texts
-- ---------------------------------------------------------------------------

theorem numeric_toString {n : Int} : ∀ c ∈ (toString n).toList, Numeric c := by
  have hdigits (m : Nat) : ∀ c ∈ Nat.toDigits 10 m, Numeric c :=
    fun c hc => .inl (all_isDigit_toDigits m c hc)
  by_cases hn : n < 0
  · obtain ⟨m, rfl⟩ := Int.exists_eq_neg_ofNat (Int.le_of_lt hn)
    rw [toList_toString_neg (by omega), List.forall_mem_cons]
    exact ⟨by simp [Numeric], hdigits m⟩
  · obtain ⟨m, rfl⟩ := Int.eq_ofNat_of_zero_le (Int.not_lt.mp hn)
    change ∀ c ∈ (toString m).toList, Numeric c
    rw [toList_toString]
    exact hdigits m

theorem numeric_decimalDigits (d : Binary64.Decimal) : ∀ c ∈ decimalDigits d, Numeric c := by
  have hdigits : ∀ c ∈ Nat.toDigits 10 d.digits, Numeric c :=
    fun c hc => .inl (all_isDigit_toDigits d.digits c hc)
  have hzeros (n : Nat) : ∀ c ∈ List.replicate n '0', Numeric c := by simp [Numeric]
  have hmark : Numeric '.' ∧ Numeric 'e' ∧ Numeric '0' := by simp [Numeric]
  have hexponent := @numeric_toString
  unfold decimalDigits
  grind [List.mem_of_mem_take, List.mem_of_mem_drop]

theorem numeric_realText {x : Float} (h : x.isFinite) : ∀ c ∈ (realText x).toList, Numeric c := by
  have hfinite : x.toModel.unpack.isFinite := h
  have hminus : Numeric '-' := by simp [Numeric]
  unfold realText
  split
  · next hx => rw [hx] at hfinite; cases hfinite
  · next hx => rw [hx] at hfinite; cases hfinite
  · simp [Numeric]
  · simp [Numeric]
  · rw [String.toList_ofList]
    exact numeric_decimalDigits _
  · rw [String.toList_ofList, List.forall_mem_cons]
    exact ⟨hminus, numeric_decimalDigits _⟩

section Suffix

variable {cs rest : List Char}

theorem suffix_of_readDigits {ds : List Char} (h : readDigits cs = some (ds, rest)) :
    rest <:+ cs := by
  unfold readDigits at h
  split at h
  · cases h
  · cases h
    exact List.dropWhile_suffix _

theorem suffix_of_map_readDigits {α : Type} {f : List Char × List Char → α × List Char}
    {a : α} (h : (readDigits cs).map f = some (a, rest)) (hf : ∀ r, (f r).2 = r.2) :
    rest <:+ cs := by
  obtain ⟨read, hread, hr⟩ := Option.map_eq_some_iff.mp h
  have hrest : read.2 = rest := by rw [← hf read, hr]
  exact hrest ▸ suffix_of_readDigits hread

theorem suffix_of_readWhole {ds : List Char} (h : readWhole cs = some (ds, rest)) :
    rest <:+ cs := by
  obtain ⟨read, hread, h⟩ := Option.bind_eq_some_iff.mp h
  have hrest : read = (ds, rest) := by grind
  exact suffix_of_readDigits (hrest ▸ hread)

theorem suffix_of_readFraction {ds : Option (List Char)} (h : readFraction cs = some (ds, rest)) :
    rest <:+ cs := by
  unfold readFraction at h
  split at h
  · exact (suffix_of_map_readDigits h fun _ => rfl).trans (List.suffix_cons _ _)
  · cases h
    exact List.suffix_rfl

theorem suffix_of_readExponent {n : Option Int} (h : readExponent cs = some (n, rest)) :
    rest <:+ cs := by
  cases cs with
  | nil => cases h; exact List.suffix_rfl
  | cons c cs =>
    simp only [readExponent] at h
    split at h
    · -- with a mark, and behind it a sign or none
      refine List.IsSuffix.trans ?_ (List.suffix_cons c cs)
      split at h
      · exact (suffix_of_map_readDigits h fun _ => rfl).trans (List.suffix_cons _ _)
      · exact (suffix_of_map_readDigits h fun _ => rfl).trans (List.suffix_cons _ _)
      · exact suffix_of_map_readDigits h fun _ => rfl
    · cases h
      exact List.suffix_rfl

theorem suffix_of_readNumber {j : Json} (h : readNumber cs = some (j, rest)) : rest <:+ cs := by
  have hunsigned {negative : Bool} {cs : List Char}
      (h : readUnsigned negative cs = some (j, rest)) : rest <:+ cs := by
    obtain ⟨whole, hwhole, h⟩ := Option.bind_eq_some_iff.mp h
    obtain ⟨fraction, hfraction, h⟩ := Option.bind_eq_some_iff.mp h
    obtain ⟨exponent, hexponent, h⟩ := Option.bind_eq_some_iff.mp h
    have hrest : exponent.2 = rest := by grind
    exact (hrest ▸ suffix_of_readExponent hexponent).trans
      ((suffix_of_readFraction hfraction).trans (suffix_of_readWhole hwhole))
  by_cases hc : cs.head? = some '-'
  · obtain ⟨cs, rfl⟩ := List.head?_eq_some_iff.mp hc
    exact (hunsigned h).trans (List.suffix_cons _ _)
  · rw [readNumber_of_head hc] at h
    exact hunsigned h

end Suffix

end GlyphTable.Json
