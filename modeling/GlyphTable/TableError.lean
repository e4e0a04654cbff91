import GlyphTable.Binary64.Shortest
import GlyphTable.RevisionId

/-!
# Errors

Each constructor is a cause with the facts a reader of the message needs. A
look-up that finds nothing is no error, and neither is a patch that a newer
revision has no cell for.
-/

namespace GlyphTable

inductive TableError where
  /-- Edges out of order, or not comparable. -/
  | invalidBox (left top right bottom : Float)
  /-- Ends out of order, or not comparable. -/
  | invalidSpan (min max : Float)
  /-- A glyph margin that is not a positive finite number. -/
  | invalidMargin (margin : Float)
  /-- A veto that kept apart no pair of lines, or more than one. -/
  | vetoCount (upper lower : String) (count : Nat)
  | noCell (row col : Int)
  /-- A cell whose text is not what a patch was written for. -/
  | textMismatch (row col : Int) (expected found : String)
  /-- A row whose length differs from that of the first. -/
  | raggedRow (row expected found : Nat)
  | noPage (number : Nat)
  /-- A catalog written for another document. -/
  | foreignCatalog (expected found : RevisionId)
deriving DecidableEq

def TableError.message : TableError → String
  | .invalidBox l t r b =>
    "invalid bounding box (" ++ ", ".intercalate ([l, t, r, b].map Binary64.text) ++ ")"
  | .invalidSpan min max =>
    "invalid span [" ++ Binary64.text min ++ ", " ++ Binary64.text max ++ "]"
  | .invalidMargin margin =>
    "invalid layout parameter: char_margin must be a positive finite number, got "
      ++ Binary64.text margin
  | .vetoCount upper lower count =>
    "prevent-binding " ++ Text.quoted upper ++ " / " ++ Text.quoted lower ++ " matched "
      ++ toString count ++ " times, expected exactly once"
  | .noCell row col =>
    "no cell at row " ++ toString row ++ ", col " ++ toString col
  | .textMismatch row col expected found =>
    "patch at row " ++ toString row ++ ", col " ++ toString col ++ " expected "
      ++ Text.quoted expected ++ ", found " ++ Text.quoted found
  | .raggedRow row expected found =>
    "row " ++ toString row ++ " has " ++ toString found ++ " columns, expected "
      ++ toString expected
  | .noPage number =>
    "page " ++ toString number ++ " not found"
  | .foreignCatalog expected found =>
    "patch catalog belongs to " ++ found.display ++ ", expected " ++ expected.display

/-- What is left of a state after an attempt to change it: the new state, or after a
failure the old one with the error. -/
def attempt {σ : Type} (s : σ) : Except TableError σ → σ × Except TableError Unit
  | .ok t => (t, .ok ())
  | .error e => (s, .error e)

end GlyphTable
