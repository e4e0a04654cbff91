import Mathlib.Data.List.Chain
import Mathlib.Logic.Relation

/-!
# Components that are paths

Where every item leads on to one other at most and is led to from one at most, and nothing leads
back to itself, the components of the graph are paths. Of two connected items one leads to the
other (`Paths.leads_or_leads`), so a component sorted by anything that grows along the edges is
listed edge by edge (`Paths.isChain_of_sorted`), and every edge is between neighbours in the list
(`Paths.infix_of_isChain`).
-/

namespace GlyphTable

open Relation (EqvGen ReflTransGen TransGen)

variable {α : Type} {R : α → α → Prop} {l : List α} {x y : α}

/-- Edges that neither fork nor meet nor run in a circle. -/
structure Paths (R : α → α → Prop) : Prop where
  rightUnique : Relator.RightUnique R
  leftUnique : Relator.LeftUnique R
  acyclic : ∀ x, ¬ TransGen R x x

namespace Paths

variable (h : Paths R)

include h

theorem leads_or_leads (hxy : EqvGen R x y) : ReflTransGen R x y ∨ ReflTransGen R y x := by
  induction hxy with
  | rel x y hstep => exact .inl (.single hstep)
  | refl => exact .inl .refl
  | symm _ _ _ ih => exact ih.symm
  | trans x y z _ _ ihxy ihyz =>
    rcases ihxy with hxy | hyx <;> rcases ihyz with hyz | hzy
    · exact .inl (hxy.trans hyz)
    · -- Both lead to `y`, from which one can only go back the same way.
      have hback : Relator.RightUnique (Function.swap R) := fun _ _ _ hb hc => h.leftUnique hb hc
      have hcompare := ReflTransGen.total_of_right_unique hback hxy.swap hzy.swap
      exact hcompare.symm.imp Relation.reflTransGen_swap.mp Relation.reflTransGen_swap.mp
    · exact ReflTransGen.total_of_right_unique h.rightUnique hyx hyz
    · exact .inr (hzy.trans hyx)

/-- A list in the sequence of the edges that leaves out no item they lead to goes edge by edge. -/
theorem isChain_of_pairwise (hl : l.Pairwise (TransGen R)) (hclosed : ∀ x ∈ l, ∀ y, R x y → y ∈ l) :
    l.IsChain R := by
  induction l with
  | nil => exact .nil
  | cons x rest ih =>
    obtain ⟨hx, hrest⟩ := List.pairwise_cons.mp hl
    have hclosed' : ∀ y ∈ rest, ∀ z, R y z → z ∈ rest := by
      intro y hy z hyz
      refine (List.mem_cons.mp (hclosed y (List.mem_cons_of_mem _ hy) z hyz)).resolve_left ?_
      rintro rfl
      exact h.acyclic z ((hx y hy).tail hyz)
    have hchain := ih hrest hclosed'
    cases rest with
    | nil => exact .singleton x
    | cons y rest =>
      obtain ⟨z, hxz, hzy⟩ := TransGen.head'_iff.mp (hx y List.mem_cons_self)
      rcases List.mem_cons.mp (hclosed x List.mem_cons_self z hxz) with rfl | hz
      · exact absurd (.single hxz) (h.acyclic z)
      rcases List.mem_cons.mp hz with rfl | hz
      · exact .cons_cons hxz hchain
      · -- What `x` leads on to cannot come after what it leads to by way of it.
        have hyz := (List.pairwise_cons.mp hrest).1 z hz
        exact absurd (hyz.trans_left hzy) (h.acyclic y)

theorem isChain_of_sorted (hnodup : l.Nodup) (hclosed : ∀ x ∈ l, ∀ y, R x y → y ∈ l)
    (hconnected : ∀ x ∈ l, ∀ y ∈ l, EqvGen R x y)
    (hsorted : l.Pairwise fun x y => ¬ TransGen R y x) :
    l.IsChain R := by
  refine h.isChain_of_pairwise ((hnodup.and hsorted).imp_of_mem fun {x y} hx hy hxy => ?_) hclosed
  obtain ⟨hne, hback⟩ := hxy
  rcases h.leads_or_leads (hconnected x hx y hy) with hlead | hlead
  · exact (Relation.reflTransGen_iff_eq_or_transGen.mp hlead).resolve_left (Ne.symm hne)
  · exact absurd ((Relation.reflTransGen_iff_eq_or_transGen.mp hlead).resolve_left hne) hback

theorem infix_of_isChain (hl : l.IsChain R) (hx : x ∈ l) (hy : y ∈ l) (hxy : R x y) :
    [x, y] <:+: l := by
  obtain ⟨before, after, rfl⟩ := List.append_of_mem hx
  have hpairwise : (before ++ x :: after).Pairwise (TransGen R) :=
    (hl.imp fun _ _ => .single).pairwise
  obtain ⟨-, hafter, hacross⟩ := List.pairwise_append.mp hpairwise
  rcases List.mem_append.mp hy with hy | hy
  · exact absurd ((hacross y hy x List.mem_cons_self).tail hxy) (h.acyclic y)
  rcases List.mem_cons.mp hy with rfl | hy
  · exact absurd (.single hxy) (h.acyclic y)
  · obtain ⟨z, rest, rfl⟩ := List.exists_cons_of_ne_nil (List.ne_nil_of_mem hy)
    have hxz : R x z := (List.isChain_cons_cons.mp hl.right_of_append).1
    obtain rfl : z = y := h.rightUnique hxz hxy
    exact ⟨before, rest, by simp⟩

end Paths

end GlyphTable
