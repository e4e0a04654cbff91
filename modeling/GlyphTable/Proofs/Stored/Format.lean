import GlyphTable.Stored.Json
import Mathlib.Data.List.Basic

/-!
# Text formats

What is asked of the texts in which stored values are kept: a value whose integers are
machine words, whose objects have no key twice, which is not nested too deep and whose other
numbers are finite comes back from its text if each of these numbers does. Nothing is said of
texts that were not written by the format.
-/

namespace GlyphTable.Json

mutual

/-- The numbers in a value that are not kept as integers. -/
def reals : Json → List Float
  | real x => [x]
  | list items => realsOfItems items
  | object entries => realsOfEntries entries
  | _ => []

def realsOfItems : List Json → List Float
  | [] => []
  | v :: rest => v.reals ++ realsOfItems rest

def realsOfEntries : List (String × Json) → List Float
  | [] => []
  | (_, v) :: rest => v.reals ++ realsOfEntries rest

end

theorem realsOfItems_eq (items : List Json) : realsOfItems items = items.flatMap reals := by
  induction items with
  | nil => rfl
  | cons v rest ih => rw [realsOfItems, ih, List.flatMap_cons]

theorem realsOfEntries_eq (entries : List (String × Json)) :
    realsOfEntries entries = entries.flatMap fun e => e.2.reals := by
  induction entries with
  | nil => rfl
  | cons e rest ih => rw [realsOfEntries, ih, List.flatMap_cons]

theorem mem_reals_list {items : List Json} {x : Float} :
    x ∈ (list items).reals ↔ ∃ v ∈ items, x ∈ v.reals := by
  rw [reals, realsOfItems_eq, List.mem_flatMap]

theorem mem_reals_object {entries : List (String × Json)} {x : Float} :
    x ∈ (object entries).reals ↔ ∃ e ∈ entries, x ∈ e.2.reals := by
  rw [reals, realsOfEntries_eq, List.mem_flatMap]

/-- The integers that a signed or an unsigned machine word holds. -/
def IsWord (n : Int) : Prop :=
  Int64.minValue.toInt ≤ n ∧ n < UInt64.size

/-- Integers are machine words, no object has a key twice, and lists and objects lie one in
another at most to the depth given. -/
inductive Tidy : Nat → Json → Prop
  | null {depth : Nat} : Tidy depth null
  | bool {depth : Nat} (b : Bool) : Tidy depth (bool b)
  | int {depth : Nat} {n : Int} (h : IsWord n) : Tidy depth (int n)
  | real {depth : Nat} (x : Float) : Tidy depth (real x)
  | text {depth : Nat} (s : String) : Tidy depth (text s)
  | list {depth : Nat} {items : List Json} (h : ∀ v ∈ items, Tidy depth v) :
      Tidy (depth + 1) (list items)
  | object {depth : Nat} {entries : List (String × Json)} (hkeys : (entries.map (·.1)).Nodup)
      (h : ∀ e ∈ entries, Tidy depth e.2) : Tidy (depth + 1) (object entries)

/-- The depth to which values are read. -/
def depthLimit : Nat := 127

structure Format where
  write : Json → String
  read? : String → Option Json
  read?_write : ∀ j : Json, j.Tidy depthLimit →
    (∀ x ∈ j.reals, x.isFinite ∧ read? (write (real x)) = some (real x)) →
    read? (write j) = some j

def Format.Exact (t : Format) (x : Float) : Prop :=
  t.read? (t.write (real x)) = some (real x)

end GlyphTable.Json
