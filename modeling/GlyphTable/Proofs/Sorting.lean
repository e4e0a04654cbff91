import Mathlib
import GlyphTable.Sorting

/-!
# What sorting keeps

`sortStably` is `List.insertionSort` by a test (`sortStably_eq_insertionSort`), so that what is
known of the one holds of the other.
-/

namespace GlyphTable

variable {α : Type}

theorem insertSorted_eq_orderedInsert (le : α → α → Bool) (a : α) (l : List α) :
    insertSorted le a l = l.orderedInsert (le · ·) a := by
  induction l with
  | nil => rfl
  | cons b rest ih => rw [insertSorted, ih, List.orderedInsert_cons]

theorem sortStably_eq_insertionSort (le : α → α → Bool) (l : List α) :
    sortStably le l = l.insertionSort (le · ·) := by
  induction l with
  | nil => rfl
  | cons a rest ih =>
    rw [List.insertionSort_cons, ← ih, ← insertSorted_eq_orderedInsert]
    rfl

theorem sortStably_perm (le : α → α → Bool) (l : List α) : (sortStably le l).Perm l :=
  sortStably_eq_insertionSort le l ▸ List.perm_insertionSort _ l

@[simp] theorem mem_sortStably {le : α → α → Bool} {a : α} {l : List α} :
    a ∈ sortStably le l ↔ a ∈ l :=
  (sortStably_perm le l).mem_iff

theorem sortStably_eq_self {le : α → α → Bool} {l : List α} (h : l.Pairwise (le · ·)) :
    sortStably le l = l :=
  (sortStably_eq_insertionSort le l).trans h.insertionSort_eq

section

variable {le : α → α → Bool} (total : ∀ a b, le a b || le b a)
  (trans : ∀ a b c, le a b → le b c → le a c)

include total trans

theorem pairwise_sortStably (l : List α) : (sortStably le l).Pairwise (le · ·) := by
  have : Std.Total fun a b => le a b = true := ⟨fun a b => by simpa using total a b⟩
  have : IsTrans α fun a b => le a b = true := ⟨trans⟩
  rw [sortStably_eq_insertionSort]
  exact List.pairwise_insertionSort _ l

theorem sortStably_eq_of_perm {l m : List α}
    (antisymm : ∀ a ∈ l, ∀ b ∈ l, le a b → le b a → a = b) (h : l.Perm m) :
    sortStably le l = sortStably le m := by
  refine List.Perm.eq_of_pairwise (fun a b ha hb => antisymm a (mem_sortStably.mp ha) b ?_)
    (pairwise_sortStably total trans l) (pairwise_sortStably total trans m)
    ((sortStably_perm le l).trans (h.trans (sortStably_perm le m).symm))
  exact h.mem_iff.mpr (mem_sortStably.mp hb)

end

section

variable {le : α → α → Bool} {R : α → α → Prop}

theorem pairwise_orderedInsert_of_tie {a : α} {l : List α} (ha : ∀ b ∈ l, R a b)
    (h : l.Pairwise fun b c => le c b → R b c) :
    (l.orderedInsert (le · ·) a).Pairwise fun b c => le c b → R b c := by
  induction l with
  | nil => exact List.pairwise_singleton _ a
  | cons b rest ih =>
    obtain ⟨hb, hrest⟩ := List.pairwise_cons.mp h
    rw [List.orderedInsert_cons]
    split
    · exact .cons (fun c hc _ => ha c hc) h
    · next hab =>
      refine .cons (fun c hc hcb => ?_) (ih (fun c hc => ha c (List.mem_cons_of_mem b hc)) hrest)
      rcases (List.mem_orderedInsert _).mp hc with rfl | hc
      · exact absurd hcb hab
      · exact hb c hc hcb

theorem pairwise_sortStably_of_tie {l : List α} (h : l.Pairwise R) :
    (sortStably le l).Pairwise fun a b => le b a → R a b := by
  rw [sortStably_eq_insertionSort]
  induction l with
  | nil => exact .nil
  | cons a rest ih =>
    obtain ⟨ha, hrest⟩ := List.pairwise_cons.mp h
    exact pairwise_orderedInsert_of_tie (fun b hb =>
      ha b ((List.mem_insertionSort _).mp hb)) (ih hrest)

end

end GlyphTable
