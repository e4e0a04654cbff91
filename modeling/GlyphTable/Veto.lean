import GlyphTable.Segment

/-!
# Vetoes and the outcome of clustering

A veto names the texts of two segments that must not become lines of one block,
even where the second continues the first. Each veto should keep apart exactly one
pair; how often it did is part of the outcome of clustering a page, and a veto
that was used otherwise is reported, not raised.
-/

namespace GlyphTable

/-- Texts of an earlier segment and of one that would continue it. -/
structure Veto where
  upper : String
  lower : String
deriving DecidableEq, Repr

def Veto.Names (v : Veto) (upper lower : Segment) : Prop :=
  v.upper = upper.text ∧ v.lower = lower.text

instance (v : Veto) (upper lower : Segment) : Decidable (v.Names upper lower) :=
  inferInstanceAs (Decidable (_ ∧ _))

structure VetoUse where
  veto : Veto
  count : Nat
deriving DecidableEq, Repr

structure Outcome where
  segments : Nat
  blocks : Nat
  rows : Nat
  vetoes : List VetoUse
deriving DecidableEq, Repr

namespace Outcome

def misused (o : Outcome) : List VetoUse :=
  o.vetoes.filter (·.count ≠ 1)

def Consistent (o : Outcome) : Prop :=
  o.misused = []

instance (o : Outcome) : Decidable o.Consistent :=
  inferInstanceAs (Decidable (_ = _))

def strict (o : Outcome) : Except TableError Outcome :=
  match o.misused with
  | [] => .ok o
  | u :: _ => .error (.vetoCount u.veto.upper u.veto.lower u.count)

end Outcome

end GlyphTable
