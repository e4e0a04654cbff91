import Mathlib
import GlyphTable.Partition

/-!
# Listing by roots

Positions that are listed one after the other come into the classes of their roots, and each class
is opened by its least member: `Listing.Complete` says so of the positions below a number, and
`Listing.Complete.add` takes it to the next. The roots may be any function of the position.
-/

namespace GlyphTable.Partition

/-- Whether no position before `x` has the same root. -/
def Leads (root : Nat → Nat) (x : Nat) : Prop :=
  ∀ y < x, root y ≠ root x

instance (root : Nat → Nat) (x : Nat) : Decidable (Leads root x) :=
  inferInstanceAs (Decidable (∀ y < x, _))

def leaders (root : Nat → Nat) (n : Nat) : List Nat :=
  (List.range n).filter (Leads root ·)

def sharing (root : Nat → Nat) (n x : Nat) : List Nat :=
  (List.range n).filter fun y => root y = root x

section

variable {root : Nat → Nat} {n x y : Nat}

theorem mem_leaders : x ∈ leaders root n ↔ x < n ∧ Leads root x := by
  simp only [leaders, List.mem_filter, List.mem_range, decide_eq_true_eq]

theorem mem_sharing : y ∈ sharing root n x ↔ y < n ∧ root y = root x := by
  simp only [sharing, List.mem_filter, List.mem_range, decide_eq_true_eq]

theorem leaders_succ (root : Nat → Nat) (n : Nat) :
    leaders root (n + 1) = leaders root n ++ if Leads root n then [n] else [] := by
  simp only [leaders, List.range_succ, List.filter_append, List.filter_singleton, Bool.cond_decide]

theorem sharing_succ (root : Nat → Nat) (n x : Nat) :
    sharing root (n + 1) x = sharing root n x ++ if root n = root x then [n] else [] := by
  simp only [sharing, List.range_succ, List.filter_append, List.filter_singleton, Bool.cond_decide]

theorem headD_sharing (h : x < n ∧ Leads root x) : (sharing root n x).headD 0 = x := by
  rw [List.headD_eq_head?_getD, sharing, List.head?_filter, List.find?_range_eq_some.mpr ?_]
  · rfl
  · refine ⟨by simp, List.mem_range.mpr h.1, fun y hy => ?_⟩
    simpa using h.2 y hy

theorem exists_leader (root : Nat → Nat) (x : Nat) : ∃ z ≤ x, Leads root z ∧ root z = root x := by
  induction x using Nat.strongRecOn with
  | ind x ih =>
    by_cases hx : Leads root x
    · exact ⟨x, Nat.le_refl x, hx, rfl⟩
    · simp only [Leads, not_forall, not_not] at hx
      obtain ⟨y, hy, hroot⟩ := hx
      obtain ⟨z, hz, hleads, hzy⟩ := ih y hy
      exact ⟨z, hz.trans (Nat.le_of_lt hy), hleads, hzy.trans hroot⟩

theorem leads_iff : Leads root n ↔ ∀ x ∈ leaders root n, root x ≠ root n := by
  constructor
  · exact fun h x hx => h x (mem_leaders.mp hx).1
  · intro h y hy hroot
    obtain ⟨z, hz, hleads, hzy⟩ := exists_leader root y
    exact h z (mem_leaders.mpr ⟨Nat.lt_of_le_of_lt hz hy, hleads⟩) (hzy.trans hroot)

theorem leaders_pairwise (root : Nat → Nat) (n : Nat) :
    (leaders root n).Pairwise fun x y => x < y ∧ root x ≠ root y := by
  refine (List.pairwise_lt_range.filter _).imp_of_mem fun {x y} _ hy hlt => ⟨hlt, ?_⟩
  exact of_decide_eq_true (List.mem_filter.mp hy).2 x hlt

theorem eq_of_getElem?_leaders {i j : Nat} (hi : (leaders root n)[i]? = some x)
    (hj : (leaders root n)[j]? = some y) (hroot : root x = root y) : i = j := by
  obtain ⟨hilt, rfl⟩ := List.getElem?_eq_some_iff.mp hi
  obtain ⟨hjlt, rfl⟩ := List.getElem?_eq_some_iff.mp hj
  have hpairwise := List.pairwise_iff_getElem.mp (leaders_pairwise root n)
  rcases Nat.lt_trichotomy i j with hlt | heq | hlt
  · exact absurd hroot (hpairwise i j hilt hjlt hlt).2
  · exact heq
  · exact absurd hroot.symm (hpairwise j i hjlt hilt hlt).2

theorem leaders_succ_of_leads (h : Leads root n) :
    leaders root (n + 1) = leaders root n ++ [n] := by
  rw [leaders_succ, if_pos h]

theorem map_sharing_of_leads (h : Leads root n) :
    (leaders root (n + 1)).map (sharing root (n + 1)) =
      (leaders root n).map (sharing root n) ++ [[n]] := by
  have hself : sharing root (n + 1) n = [n] := by
    have hnew : sharing root n n = [] :=
      List.filter_eq_nil_iff.mpr fun y hy => by simpa using h y (List.mem_range.mp hy)
    rw [sharing_succ, if_pos rfl, hnew, List.nil_append]
  rw [leaders_succ_of_leads h, List.map_append, List.map_singleton, hself]
  refine congrArg (· ++ [[n]]) (List.map_congr_left fun x hx => ?_)
  rw [sharing_succ, if_neg (Ne.symm (leads_iff.mp h x hx)), List.append_nil]

theorem leaders_succ_of_getElem? {slot : Nat} (hx : (leaders root n)[slot]? = some x)
    (hroot : root x = root n) : leaders root (n + 1) = leaders root n := by
  rw [leaders_succ, if_neg, List.append_nil]
  exact fun hleads => leads_iff.mp hleads x (List.mem_of_getElem? hx) hroot

/-- Only the class of the leader with its root takes up the next position. -/
theorem map_sharing_of_getElem? {slot : Nat} (hx : (leaders root n)[slot]? = some x)
    (hroot : root x = root n) : (leaders root (n + 1)).map (sharing root (n + 1)) =
      ((leaders root n).map (sharing root n)).modify slot (· ++ [n]) := by
  rw [leaders_succ_of_getElem? hx hroot]
  refine List.ext_getElem? fun i => ?_
  rw [List.getElem?_modify, List.getElem?_map, List.getElem?_map]
  cases hi : (leaders root n)[i]? with
  | none => rfl
  | some y =>
    have hiff : slot = i ↔ root n = root y := by
      constructor
      · rintro rfl
        rw [← Option.some.inj (hx.symm.trans hi), hroot]
      · exact fun hy => eq_of_getElem?_leaders hx hi (hroot.trans hy)
    simp only [Option.map_some, Option.map_eq_map, sharing_succ, hiff]
    split
    · rfl
    · rw [List.append_nil]

end

/-- The positions below `n` are listed: a class for each that leads, and each class in its place. -/
structure Listing.Complete (root : Nat → Nat) (n : Nat) (l : Listing) : Prop where
  classes_eq : l.classes = (leaders root n).map (sharing root n)
  lookup_eq : ∀ r, l.slots.lookup r = (leaders root n).findIdx? (root · = r)

theorem Listing.complete_zero (root : Nat → Nat) : Complete root 0 ⟨[], []⟩ :=
  ⟨rfl, fun _ => rfl⟩

theorem Listing.Complete.add {root : Nat → Nat} {n : Nat} {l : Listing} (h : l.Complete root n) :
    (l.add (root n) n).Complete root (n + 1) := by
  rw [Listing.add, h.lookup_eq]
  split
  · next slot hslot =>
    obtain ⟨hlt, hroot, -⟩ := List.findIdx?_eq_some_iff_getElem.mp hslot
    have hleader := List.getElem?_eq_getElem hlt
    have hroot := of_decide_eq_true hroot
    refine ⟨?_, fun r => ?_⟩
    · rw [h.classes_eq, map_sharing_of_getElem? hleader hroot]
    · rw [leaders_succ_of_getElem? hleader hroot]
      exact h.lookup_eq r
  · next hnone =>
    have hleads : Leads root n := leads_iff.mpr (by simpa [List.findIdx?_eq_none_iff] using hnone)
    refine ⟨?_, fun r => ?_⟩
    · rw [h.classes_eq, map_sharing_of_leads hleads]
    · rw [leaders_succ_of_leads hleads, List.findIdx?_append, ← h.lookup_eq, List.lookup_cons,
        h.classes_eq, List.length_map]
      by_cases hr : r = root n
      · subst hr
        simp [h.lookup_eq, hnone]
      · rw [beq_false_of_ne hr]
        simp [Ne.symm hr]

end GlyphTable.Partition
