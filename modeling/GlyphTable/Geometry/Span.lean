import GlyphTable.Binary64.Order
import GlyphTable.TableError

/-!
# Spans

A span is a closed interval of coordinates. `Span.ofEnds` admits only ordered
ends; all operations here keep them so, and none but `center` and `size` does
arithmetic on them.
-/

namespace GlyphTable

structure Span where
  min : Float
  max : Float
deriving DecidableEq

namespace Span

def Valid (s : Span) : Prop :=
  s.min ≤ s.max

instance (s : Span) : Decidable s.Valid :=
  inferInstanceAs (Decidable (_ ≤ _))

def ofEnds (min max : Float) : Except TableError Span :=
  if (Span.mk min max).Valid then .ok ⟨min, max⟩ else .error (.invalidSpan min max)

def size (s : Span) : Float :=
  s.max - s.min

def center (s : Span) : Float :=
  (s.min + s.max) / 2

def join (s t : Span) : Span :=
  ⟨Binary64.lesser s.min t.min, Binary64.greater s.max t.max⟩

/-- The part that both have in common. Of disjoint spans it is the single point
where the later one begins. -/
def meet (s t : Span) : Span :=
  let min := Binary64.greater s.min t.min
  let max := Binary64.lesser s.max t.max
  if min ≤ max then ⟨min, max⟩ else ⟨min, min⟩

/-- Size of the common part relative to that of the join; zero where the join has
no positive size. -/
def overlap (s t : Span) : Float :=
  let whole := (s.join t).size
  if whole ≤ 0 then 0 else (s.meet t).size / whole

def Meets (s t : Span) : Prop :=
  s.min ≤ t.max ∧ t.min ≤ s.max

instance (s t : Span) : Decidable (s.Meets t) :=
  inferInstanceAs (Decidable (_ ∧ _))

def Holds (s : Span) (v : Float) : Prop :=
  s.min ≤ v ∧ v ≤ s.max

instance (s : Span) (v : Float) : Decidable (s.Holds v) :=
  inferInstanceAs (Decidable (_ ∧ _))

def Contains (s t : Span) : Prop :=
  s.min ≤ t.min ∧ t.max ≤ s.max

instance (s t : Span) : Decidable (s.Contains t) :=
  inferInstanceAs (Decidable (_ ∧ _))

def HoldsCenterOf (s t : Span) : Prop :=
  s.Holds t.center

instance (s t : Span) : Decidable (s.HoldsCenterOf t) :=
  inferInstanceAs (Decidable (s.Holds _))

end Span

end GlyphTable
