/-!
# Stable sorting

Insertion sort by an order given as a test. Elements that are equal under the
order keep the sequence they came in. The lists sorted here are short or nearly in
order already, where insertion costs one comparison.
-/

namespace GlyphTable

variable {α : Type}

def insertSorted (le : α → α → Bool) (a : α) : List α → List α
  | [] => [a]
  | b :: rest => if le a b then a :: b :: rest else b :: insertSorted le a rest

def sortStably (le : α → α → Bool) (l : List α) : List α :=
  l.foldr (insertSorted le) []

def least? (le : α → α → Bool) : List α → Option α
  | [] => none
  | a :: rest => some (rest.foldl (fun best b => if le best b then best else b) a)

end GlyphTable
