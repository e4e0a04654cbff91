import GlyphTable.Stored.Reader
import GlyphTable.Stored.Writer
import Mathlib.Tactic.IntervalCases

/-!
# Quoted texts

What is written for a character reads back as that character, so a text in quotes
reads back as itself, whatever stands behind the closing quote.
-/

namespace GlyphTable.Json

theorem readUnit_hexUnit {n : Nat} (h : n < 0x20) (cs : List Char) :
    readUnit (hexUnit n ++ cs) = some (n, cs) := by
  interval_cases n <;> rfl

theorem readEscapedCode_hexUnit {n : Nat} (h : n < 0x20) (cs : List Char) :
    readEscapedCode (hexUnit n ++ cs) = some (Char.ofNat n, cs) := by
  have hunit : n < 0xd800 ∨ 0xe000 ≤ n := by omega
  simp [readEscapedCode, readUnit_hexUnit h, hunit]

theorem readText_escapeChar (limit : Nat) (read : List Char) (c : Char) (cs : List Char) :
    readText (limit + 1) read (escapeChar c ++ cs) = readText limit (c :: read) cs := by
  unfold escapeChar
  split
  case h_8 =>
    split
    · next h => simp [readText, readEscapedCode_hexUnit h]
    · simp_all [readText]
  all_goals simp [readText, escaped?]

theorem readText_flatMap_escapeChar {limit : Nat} {read s : List Char} {rest : List Char}
    (h : s.length ≤ limit) :
    readText limit read (s.flatMap escapeChar ++ '"' :: rest) =
      some (String.ofList (read.reverse ++ s), rest) := by
  induction s generalizing limit read with
  | nil => simp [readText]
  | cons c s ih =>
    obtain ⟨limit, rfl⟩ := Nat.exists_eq_add_one_of_ne_zero (by grind : limit ≠ 0)
    rw [List.flatMap_cons, List.append_assoc, readText_escapeChar, ih (by simpa using h)]
    simp

theorem length_le_flatMap_escapeChar (s : List Char) :
    s.length ≤ (s.flatMap escapeChar).length := by
  induction s with
  | nil => simp
  | cons c s ih =>
    have hc : 0 < (escapeChar c).length := by
      unfold escapeChar
      grind
    rw [List.flatMap_cons, List.length_append, List.length_cons]
    omega

theorem toList_renderText (s : String) :
    (renderText s).toList = '"' :: (s.toList.flatMap escapeChar ++ ['"']) := by
  rw [renderText, String.toList_ofList, List.cons_append]

theorem readText_render {s : String} {limit : Nat} {rest : List Char}
    (h : (s.toList.flatMap escapeChar).length ≤ limit) :
    readText limit [] (s.toList.flatMap escapeChar ++ '"' :: rest) = some (s, rest) := by
  rw [readText_flatMap_escapeChar ((length_le_flatMap_escapeChar s.toList).trans h),
    List.reverse_nil, List.nil_append, String.ofList_toList]

end GlyphTable.Json
