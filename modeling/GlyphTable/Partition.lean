/-!
# Partitions of positions

A partition divides the positions `0, …, n - 1` into classes. It is kept as a
forest: every position has a parent, roots are their own, and two positions are in
one class when they have the same root. Merging hangs the root of lesser rank
below the other; finding a root shortens the path to it by half.

Classes are listed with their members in ascending order, and ordered by their
smallest member.
-/

namespace GlyphTable

structure Partition where
  parent : Array Nat
  rank : Array Nat
deriving Repr

namespace Partition

def greatestRank : Nat := 255

def discrete (n : Nat) : Partition where
  parent := (List.range n).toArray
  rank := (List.replicate n 0).toArray

def size (p : Partition) : Nat :=
  p.parent.size

/-- Follows parents from `x`, setting every second one on the way to its
grandparent, until it comes to a root or runs out of steps. -/
def climb : Nat → Array Nat → Nat → Nat × Array Nat
  | 0, parent, x => (x, parent)
  | steps + 1, parent, x =>
    let up := parent.getD x x
    if up = x then
      (x, parent)
    else
      let upper := parent.getD up up
      climb steps (parent.setIfInBounds x upper) upper

def find (p : Partition) (x : Nat) : Nat × Partition :=
  let (root, parent) := climb p.size p.parent x
  (root, { p with parent })

/-- Merges the classes of `x` and `y`. The flag says whether they were two. -/
def merge (p : Partition) (x y : Nat) : Bool × Partition :=
  let (rx, p) := p.find x
  let (ry, p) := p.find y
  if rx = ry then
    (false, p)
  else
    let rankX := p.rank.getD rx 0
    let rankY := p.rank.getD ry 0
    if rankX < rankY then
      (true, { p with parent := p.parent.setIfInBounds rx ry })
    else if rankY < rankX then
      (true, { p with parent := p.parent.setIfInBounds ry rx })
    else
      (true, {
        parent := p.parent.setIfInBounds ry rx
        rank := p.rank.setIfInBounds rx (min (rankX + 1) greatestRank) })

def root (p : Partition) (x : Nat) : Nat :=
  (p.find x).1

/-- The classes listed so far, and for each root that has come up the place of its class. -/
structure Listing where
  slots : List (Nat × Nat)
  classes : List (List Nat)

def Listing.add (l : Listing) (root x : Nat) : Listing :=
  match l.slots.lookup root with
  | some slot => { l with classes := l.classes.modify slot (· ++ [x]) }
  | none => ⟨(root, l.classes.length) :: l.slots, l.classes ++ [[x]]⟩

def list (p : Partition) (n : Nat) : Partition × Listing :=
  (List.range n).foldl (fun (p, l) x =>
    let (root, p) := p.find x
    (p, l.add root x)) (p, ⟨[], []⟩)

def classes (p : Partition) : List (List Nat) :=
  (p.list p.size).2.classes

def ofEdges (n : Nat) (edges : List (Nat × Nat)) : Partition :=
  edges.foldl (fun p (x, y) => (p.merge x y).2) (discrete n)

def pairs (n : Nat) : List (Nat × Nat) :=
  (List.range n).flatMap fun i => (List.range n).filterMap fun j =>
    if i < j then some (i, j) else none

/-- The partition that a symmetric relation generates. It is looked at once for
each pair of positions. -/
def ofRelation (n : Nat) (related : Nat → Nat → Bool) : Partition :=
  ofEdges n ((pairs n).filter fun (i, j) => related i j)

end Partition

end GlyphTable
