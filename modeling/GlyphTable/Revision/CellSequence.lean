import GlyphTable.Document

/-!
# A document as a sequence of cell contents

Cells are laid out in the order of pages, rows and columns, and stand for their
texts by a hash of the bytes of these. One hash value is kept free for the separator
between two documents.
-/

namespace GlyphTable

/-- What stands between two documents. No cell hashes to it. -/
def separator : UInt64 := 0xffffffffffffffff

def cellHash (hash : List UInt8 → UInt64) (text : String) : UInt64 :=
  let h := hash text.toUTF8.data.toList
  if h = separator then separator - 1 else h

/-- The cells of a document in sequence: their addresses, the hashes of their texts, and the
place of each address. -/
structure CellSequence where
  addresses : Array Address
  hashes : Array UInt64
  /-- An address that was added twice stands where it was added last. -/
  places : List (Address × Nat)
deriving DecidableEq, Repr

namespace CellSequence

def empty : CellSequence :=
  ⟨#[], #[], []⟩

def add (hash : List UInt8 → UInt64) (s : CellSequence) (a : Address) (text : String) :
    CellSequence where
  addresses := s.addresses.push a
  hashes := s.hashes.push (cellHash hash text)
  places := (a, s.addresses.size) :: s.places

def ofDocument (hash : List UInt8 → UInt64) (d : Document) : CellSequence :=
  d.cells.foldl (fun s (a, b) => s.add hash a b.text) empty

def size (s : CellSequence) : Nat :=
  s.hashes.size

def address? (s : CellSequence) (i : Nat) : Option Address :=
  s.addresses[i]?

def position? (s : CellSequence) (a : Address) : Option Nat :=
  s.places.lookup a

end CellSequence

end GlyphTable
