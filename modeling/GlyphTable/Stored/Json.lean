/-!
# JSON values

The values in which pages, catalogs and reports are stored. Integers and other
numbers are kept apart, since a position must be written as an integer; which of
the two a number text stands for is settled by the reader. An object has its entries
in the order of its text, and a key may stand in it more than once: what to make of
that is up to the type that is read.
-/

namespace GlyphTable

inductive Json where
  | null
  | bool (b : Bool)
  | int (n : Int)
  | real (x : Float)
  | text (s : String)
  | list (items : List Json)
  | object (entries : List (String × Json))

namespace Json

abbrev Fields := List (String × Json)

/-- The fields of a record. Its form is an object with any other entries, but none of
the fields twice, or a list of all fields in the order of their names. -/
def fields? (names : List String) : Json → Option Fields
  | object entries =>
    let known := entries.filter fun e => e.1 ∈ names
    if (known.map (·.1)).Nodup then some known else none
  | list items => if items.length = names.length then some (names.zip items) else none
  | _ => none

/-- The name of a case without data: a text, or an object with that name as its
only key and nothing under it. -/
def caseName? : Json → Option String
  | text s => some s
  | object [(s, null)] => some s
  | _ => none

end Json

end GlyphTable
