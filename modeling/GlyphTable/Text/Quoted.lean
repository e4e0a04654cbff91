import GlyphTable.Text.Extender
import GlyphTable.Text.Graphic

/-!
# Quoted text

Messages show a text between double quotes, so that its ends and its invisible
characters can be seen. Quotes, backslashes and four common controls are escaped
by a backslash and a letter; any other character that prints nothing of its own,
or joins the one before it, by its code point in hexadecimal digits.
-/

namespace GlyphTable.Text

/-- A backslash and `u`, then the code point in lower-case hexadecimal digits between braces. -/
def escapeCode (c : Char) : List Char :=
  '\\' :: 'u' :: '\x7b' :: Nat.toDigits 16 c.toNat ++ ['\x7d']

def escape (c : Char) : List Char :=
  match c with
  | '\x00' => ['\\', '0']
  | '\t' => ['\\', 't']
  | '\r' => ['\\', 'r']
  | '\n' => ['\\', 'n']
  | '"' => ['\\', '"']
  | '\\' => ['\\', '\\']
  | c => if isExtender c || !isGraphic c then escapeCode c else [c]

def quoted (s : String) : String :=
  String.ofList ('"' :: s.toList.flatMap escape ++ ['"'])

end GlyphTable.Text
