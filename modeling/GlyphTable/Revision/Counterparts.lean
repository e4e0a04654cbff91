import GlyphTable.Revision.CommonRun

/-!
# Mapping cells to a newer revision

Runs are taken longest first, and a run only if neither of its end cells is mapped
already. What no accepted run covers has no counterpart.
-/

namespace GlyphTable

/-- For each cell of the old sequence its place in the new one, if it has any. -/
structure Counterparts where
  targets : Array (Option Nat)
deriving DecidableEq, Repr

namespace CommonRun

def le (r s : CommonRun) : Bool :=
  if r.length = s.length then
    if r.source = s.source then decide (r.target ≤ s.target) else decide (r.source ≤ s.source)
  else
    decide (s.length ≤ r.length)

theorem le_total (r s : CommonRun) : r.le s || s.le r := by
  simp only [le, Bool.or_eq_true]
  grind

theorem le_trans (r s t : CommonRun) (hrs : r.le s) (hst : s.le t) : r.le t := by
  simp only [le] at *
  grind

end CommonRun

namespace Counterparts

def blank (n : Nat) : Counterparts :=
  ⟨(List.replicate n none).toArray⟩

def size (m : Counterparts) : Nat :=
  m.targets.size

def get? (m : Counterparts) (i : Nat) : Option Nat :=
  (m.targets[i]?).join

def Accepts (m : Counterparts) (r : CommonRun) : Prop :=
  0 < r.length ∧ r.source + r.length ≤ m.size
    ∧ m.get? r.source = none ∧ m.get? (r.source + r.length - 1) = none

instance (m : Counterparts) (r : CommonRun) : Decidable (m.Accepts r) :=
  inferInstanceAs (Decidable (_ ∧ _))

def assign (m : Counterparts) (r : CommonRun) : Counterparts :=
  ⟨(List.range r.length).foldl (fun targets k =>
    targets.setIfInBounds (r.source + k) (some (r.target + k))) m.targets⟩

@[simp] theorem size_assign (m : Counterparts) (r : CommonRun) : (m.assign r).size = m.size := by
  have h (ks : List Nat) (targets : Array (Option Nat)) :
      (ks.foldl (fun targets k =>
        targets.setIfInBounds (r.source + k) (some (r.target + k))) targets).size =
            targets.size := by
    induction ks generalizing targets with
    | nil => rfl
    | cons k rest ih => simp [ih]
  exact h _ _

def take (m : Counterparts) (r : CommonRun) : Counterparts :=
  if m.Accepts r then m.assign r else m

def ofRuns (n : Nat) (runs : List CommonRun) : Counterparts :=
  (sortStably CommonRun.le runs).foldl take (blank n)

@[simp] theorem size_take (m : Counterparts) (r : CommonRun) : (m.take r).size = m.size := by
  unfold take
  split <;> simp

@[simp] theorem size_foldl_take (m : Counterparts) (runs : List CommonRun) :
    (runs.foldl take m).size = m.size := by
  induction runs generalizing m with
  | nil => rfl
  | cons r rest ih => simp [ih]

@[simp] theorem size_ofRuns (n : Nat) (runs : List CommonRun) : (ofRuns n runs).size = n := by
  rw [ofRuns, size_foldl_take]
  simp [blank, size]

def count (m : Counterparts) : Nat :=
  m.targets.toList.countP Option.isSome

def missing (m : Counterparts) : List Nat :=
  m.targets.toList.zipIdx.filterMap fun (t, i) => if t.isNone then some i else none

end Counterparts

end GlyphTable
