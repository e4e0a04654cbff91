import GlyphTable.Stored.Json

/-!
# Reading JSON text

The grammar of JSON is read strictly. A number without fraction and
exponent is an integer if it fits into 64 bits, with or without sign; all others,
and minus zero, are rounded to the nearest binary64 number, which must be finite.
Every reader returns what it has read and the characters behind it.
-/

namespace GlyphTable.Json

def skipBlank (cs : List Char) : List Char :=
  cs.dropWhile fun c => c = ' ' || c = '\t' || c = '\n' || c = '\r'

-- ---------------------------------------------------------------------------
-- Numbers
-- ---------------------------------------------------------------------------

def digitsValue (ds : List Char) : Nat :=
  ds.foldl (fun n d => 10 * n + (d.toNat - '0'.toNat)) 0

def readDigits (cs : List Char) : Option (List Char × List Char) :=
  match cs.takeWhile Char.isDigit with
  | [] => none
  | ds => some (ds, cs.dropWhile Char.isDigit)

def readWhole (cs : List Char) : Option (List Char × List Char) := do
  let (ds, rest) ← readDigits cs
  if ds.head? = some '0' ∧ ds.length ≠ 1 then none else some (ds, rest)

def readFraction : List Char → Option (Option (List Char) × List Char)
  | '.' :: cs => (readDigits cs).map fun (ds, rest) => (some ds, rest)
  | cs => some (none, cs)

def readExponent : List Char → Option (Option Int × List Char)
  | c :: cs =>
    if c = 'e' ∨ c = 'E' then
      match cs with
      | '-' :: cs => (readDigits cs).map fun (ds, rest) => (some (-(digitsValue ds : Int)), rest)
      | '+' :: cs => (readDigits cs).map fun (ds, rest) => (some (digitsValue ds : Int), rest)
      | cs => (readDigits cs).map fun (ds, rest) => (some (digitsValue ds : Int), rest)
    else
      some (none, c :: cs)
  | [] => some (none, [])

/-- The binary64 number nearest to `mantissa * 10 ^ exponent`. -/
def decimal (negative : Bool) (mantissa : Nat) (exponent : Int) : Float :=
  let size := Float.ofScientific mantissa (decide (exponent < 0)) exponent.natAbs
  if negative then -size else size

def integer (negative : Bool) (n : Nat) : Json :=
  if negative then
    if n ≠ 0 ∧ Int64.minValue.toInt ≤ -n then .int (-n) else .real (decimal true n 0)
  else
    if n < UInt64.size then .int n else .real (decimal false n 0)

def readNumber (cs : List Char) : Option (Json × List Char) := do
  let (negative, cs) := match cs with
    | '-' :: rest => (true, rest)
    | _ => (false, cs)
  let (whole, cs) ← readWhole cs
  let (fraction, cs) ← readFraction cs
  let (exponent, cs) ← readExponent cs
  let value := match fraction, exponent with
    | none, none => integer negative (digitsValue whole)
    | _, _ =>
      let places := fraction.getD []
      .real (decimal negative (digitsValue (whole ++ places)) (exponent.getD 0 - places.length))
  match value with
  | .real x => if x.isFinite then some (value, cs) else none
  | _ => some (value, cs)

-- ---------------------------------------------------------------------------
-- Texts
-- ---------------------------------------------------------------------------

def hexDigit? (c : Char) : Option Nat :=
  if '0' ≤ c ∧ c ≤ '9' then some (c.toNat - '0'.toNat)
  else if 'a' ≤ c ∧ c ≤ 'f' then some (c.toNat - 'a'.toNat + 10)
  else if 'A' ≤ c ∧ c ≤ 'F' then some (c.toNat - 'A'.toNat + 10)
  else none

def readUnit : List Char → Option (Nat × List Char)
  | a :: b :: c :: d :: rest => do
    let unit := ((← hexDigit? a) * 16 + (← hexDigit? b)) * 256
      + (← hexDigit? c) * 16 + (← hexDigit? d)
    return (unit, rest)
  | _ => none

/-- The character that `\u` stands for: one unit, or a high and a low surrogate. -/
def readEscapedCode (cs : List Char) : Option (Char × List Char) := do
  let (unit, cs) ← readUnit cs
  if unit < 0xd800 ∨ 0xe000 ≤ unit then
    return (Char.ofNat unit, cs)
  match cs with
  | '\\' :: 'u' :: cs =>
    let (low, cs) ← readUnit cs
    if unit < 0xdc00 ∧ 0xdc00 ≤ low ∧ low < 0xe000 then
      return (Char.ofNat (0x10000 + (unit - 0xd800) * 0x400 + (low - 0xdc00)), cs)
    else
      none
  | _ => none

def escaped? : Char → Option Char
  | '"' => some '"'
  | '\\' => some '\\'
  | '/' => some '/'
  | 'b' => some '\x08'
  | 'f' => some '\x0c'
  | 'n' => some '\n'
  | 'r' => some '\r'
  | 't' => some '\t'
  | _ => none

/-- The rest of a text whose opening quote has been read, after the characters in
`read`, which stand in reverse. Each step takes at least one of `limit` characters. -/
def readText : Nat → List Char → List Char → Option (String × List Char)
  | _, read, '"' :: cs => some (String.ofList read.reverse, cs)
  | limit + 1, read, '\\' :: 'u' :: cs => do
    let (c, cs) ← readEscapedCode cs
    readText limit (c :: read) cs
  | limit + 1, read, '\\' :: c :: cs => do
    readText limit ((← escaped? c) :: read) cs
  | limit + 1, read, c :: cs =>
    if c.toNat < 0x20 ∨ c = '\\' then none else readText limit (c :: read) cs
  | _, _, _ => none

-- ---------------------------------------------------------------------------
-- Values
-- ---------------------------------------------------------------------------

def readKey (limit : Nat) (cs : List Char) : Option (String × List Char) :=
  match skipBlank cs with
  | '"' :: cs => do
    let (key, cs) ← readText limit [] cs
    match skipBlank cs with
    | ':' :: cs => some (key, cs)
    | _ => none
  | _ => none

mutual

/-- A value. Each step down takes one of `limit` levels, and between two steps a
character at least is read. -/
def readValue : Nat → List Char → Option (Json × List Char)
  | 0, _ => none
  | limit + 1, cs =>
    match skipBlank cs with
    | 'n' :: 'u' :: 'l' :: 'l' :: cs => some (.null, cs)
    | 't' :: 'r' :: 'u' :: 'e' :: cs => some (.bool true, cs)
    | 'f' :: 'a' :: 'l' :: 's' :: 'e' :: cs => some (.bool false, cs)
    | '"' :: cs => (readText limit [] cs).map fun (s, cs) => (.text s, cs)
    | '[' :: cs =>
      match skipBlank cs with
      | ']' :: cs => some (.list [], cs)
      | cs => readItems limit [] cs
    | '\x7b' :: cs =>
      match skipBlank cs with
      | '\x7d' :: cs => some (.object [], cs)
      | cs => readEntries limit [] cs
    | cs => readNumber cs

def readItems : Nat → List Json → List Char → Option (Json × List Char)
  | 0, _, _ => none
  | limit + 1, read, cs => do
    let (value, cs) ← readValue limit cs
    match skipBlank cs with
    | ',' :: cs => readItems limit (value :: read) cs
    | ']' :: cs => some (.list (value :: read).reverse, cs)
    | _ => none

def readEntries : Nat → Fields → List Char → Option (Json × List Char)
  | 0, _, _ => none
  | limit + 1, read, cs => do
    let (key, cs) ← readKey limit cs
    let (value, cs) ← readValue limit cs
    match skipBlank cs with
    | ',' :: cs => readEntries limit ((key, value) :: read) cs
    | '\x7d' :: cs => some (.object ((key, value) :: read).reverse, cs)
    | _ => none

end

def parse? (s : String) : Option Json := do
  let cs := s.toList
  let (value, rest) ← readValue (2 * cs.length + 2) cs
  if (skipBlank rest).isEmpty then some value else none

end GlyphTable.Json
