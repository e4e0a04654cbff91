import GlyphTable.Geometry.Orientation
import GlyphTable.Geometry.Span

/-!
# Boxes

A box is a rectangle with sides along the page axes, given by its four edges.
`Box.ofEdges` admits only ordered edges.
-/

namespace GlyphTable

structure Box where
  left : Float
  top : Float
  right : Float
  bottom : Float
deriving DecidableEq

namespace Box

/-- Edges in order. This also rules out NaN. -/
def Valid (a : Box) : Prop :=
  a.left ≤ a.right ∧ a.top ≤ a.bottom

instance (a : Box) : Decidable a.Valid :=
  inferInstanceAs (Decidable (_ ∧ _))

def ofEdges (left top right bottom : Float) : Except TableError Box :=
  if (Box.mk left top right bottom).Valid then .ok ⟨left, top, right, bottom⟩
  else .error (.invalidBox left top right bottom)

def centered (center : Point) (halfWidth halfHeight : Float) : Except TableError Box :=
  ofEdges (center.x - halfWidth) (center.y - halfHeight)
    (center.x + halfWidth) (center.y + halfHeight)

def width (a : Box) : Float :=
  a.right - a.left

def height (a : Box) : Float :=
  a.bottom - a.top

def center (a : Box) : Point :=
  ⟨(a.left + a.right) / 2, (a.top + a.bottom) / 2⟩

def join (a b : Box) : Box where
  left := Binary64.lesser a.left b.left
  top := Binary64.lesser a.top b.top
  right := Binary64.greater a.right b.right
  bottom := Binary64.greater a.bottom b.bottom

def hull? : List Box → Option Box
  | [] => none
  | a :: rest => some (rest.foldl join a)

def Meets (a b : Box) : Prop :=
  a.left ≤ b.right ∧ b.left ≤ a.right ∧ a.top ≤ b.bottom ∧ b.top ≤ a.bottom

instance (a b : Box) : Decidable (a.Meets b) :=
  inferInstanceAs (Decidable (_ ∧ _))

def Holds (a : Box) (p : Point) : Prop :=
  a.left ≤ p.x ∧ p.x ≤ a.right ∧ a.top ≤ p.y ∧ p.y ≤ a.bottom

instance (a : Box) (p : Point) : Decidable (a.Holds p) :=
  inferInstanceAs (Decidable (_ ∧ _))

def Contains (a b : Box) : Prop :=
  a.left ≤ b.left ∧ b.right ≤ a.right ∧ a.top ≤ b.top ∧ b.bottom ≤ a.bottom

instance (a b : Box) : Decidable (a.Contains b) :=
  inferInstanceAs (Decidable (_ ∧ _))

def horizontal (a : Box) : Span :=
  ⟨a.left, a.right⟩

def vertical (a : Box) : Span :=
  ⟨a.top, a.bottom⟩

def along (a : Box) : Axis → Span
  | .horizontal => a.horizontal
  | .vertical => a.vertical

end Box

end GlyphTable
