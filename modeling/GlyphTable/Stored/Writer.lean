import GlyphTable.Binary64.Shortest
import GlyphTable.Stored.Json

/-!
# Writing JSON text

Values are written without blanks, on one line. In texts, quotes, backslashes and
controls are escaped. A number is written by its shortest digits, so that it cannot be
taken for an integer, and as `null` if it is not finite.
-/

namespace GlyphTable.Json

-- ---------------------------------------------------------------------------
-- Numbers
-- ---------------------------------------------------------------------------

/-- Positional notation with a point as long as that takes few zeros, else one digit in
front of the point and an exponent. -/
def decimalDigits (d : Binary64.Decimal) : List Char :=
  let digits := Nat.toDigits 10 d.digits
  let point := digits.length + d.exponent
  if 0 ≤ d.exponent ∧ point ≤ 16 then
    digits ++ List.replicate d.exponent.toNat '0' ++ ['.', '0']
  else if 0 < point ∧ point ≤ 16 then
    digits.take point.toNat ++ '.' :: digits.drop point.toNat
  else if -5 < point ∧ point ≤ 0 then
    ['0', '.'] ++ List.replicate (-point).toNat '0' ++ digits
  else
    let places := if digits.length = 1 then [] else '.' :: digits.drop 1
    digits.take 1 ++ places ++ 'e' :: (toString (point - 1)).toList

def realText (x : Float) : String :=
  match x.toModel.unpack with
  | .notANumber | .infinity _ => "null"
  | .zero .positive => "0.0"
  | .zero .negative => "-0.0"
  | .finite .positive m e _ => String.ofList (decimalDigits (Binary64.shortest m e))
  | .finite .negative m e _ => String.ofList ('-' :: decimalDigits (Binary64.shortest m e))

-- ---------------------------------------------------------------------------
-- Texts
-- ---------------------------------------------------------------------------

def hexUnit (n : Nat) : List Char :=
  let digits := Nat.toDigits 16 n
  List.replicate (4 - digits.length) '0' ++ digits

def escapeChar : Char → List Char
  | '"' => ['\\', '"']
  | '\\' => ['\\', '\\']
  | '\x08' => ['\\', 'b']
  | '\x0c' => ['\\', 'f']
  | '\n' => ['\\', 'n']
  | '\r' => ['\\', 'r']
  | '\t' => ['\\', 't']
  | c => if c.toNat < 0x20 then '\\' :: 'u' :: hexUnit c.toNat else [c]

def renderText (s : String) : String :=
  String.ofList ('"' :: s.toList.flatMap escapeChar ++ ['"'])

-- ---------------------------------------------------------------------------
-- Values
-- ---------------------------------------------------------------------------

mutual

def render : Json → String
  | null => "null"
  | bool true => "true"
  | bool false => "false"
  | int n => toString n
  | real x => realText x
  | text s => renderText s
  | list items => "[" ++ ",".intercalate (renderItems items) ++ "]"
  | object entries => "\x7b" ++ ",".intercalate (renderEntries entries) ++ "\x7d"

def renderItems : List Json → List String
  | [] => []
  | v :: rest => v.render :: renderItems rest

def renderEntries : List (String × Json) → List String
  | [] => []
  | (key, v) :: rest => (renderText key ++ ":" ++ v.render) :: renderEntries rest

end

end GlyphTable.Json
