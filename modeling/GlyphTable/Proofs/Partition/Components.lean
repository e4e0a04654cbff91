import Mathlib
import GlyphTable.Proofs.Partition.Forest
import GlyphTable.Proofs.Partition.Listing

/-!
# Classes are connected components

`ofEdges_components`: the classes that edges generate are the connected components, each
position in exactly one. Merging keeps `Represents`, by which two positions have one root
exactly if the edges so far connect them.
-/

namespace GlyphTable.Partition

def Connected (edges : List (Nat × Nat)) : Nat → Nat → Prop :=
  Relation.EqvGen fun x y => (x, y) ∈ edges

theorem sameRoot_of_connected {parent : Array Nat} {level : Nat → Nat} {edges : List (Nat × Nat)}
    (h : Leveled parent level) (hedges : ∀ x y, (x, y) ∈ edges → SameRoot parent x y) {x y : Nat}
    (hxy : Connected edges x y) : SameRoot parent x y :=
  h.sameRoot_equivalence.eqvGen_iff.mp (hxy.mono hedges)

/-- Positions have one root exactly if the edges connect them. -/
structure Represents (p : Partition) (n : Nat) (edges : List (Nat × Nat)) : Prop where
  size : p.parent.size = n
  leveled : ∃ level, Leveled p.parent level
  same : ∀ x y, SameRoot p.parent x y ↔ Connected edges x y

-- ---------------------------------------------------------------------------
-- Merging
-- ---------------------------------------------------------------------------

theorem find_spec {p : Partition} (h : ∃ level, Leveled p.parent level) {x : Nat}
    (hx : x < p.parent.size) :
    RootOf p.parent x (p.find x).1 ∧ (p.find x).2.parent.size = p.parent.size ∧
      (∃ level, Leveled (p.find x).2.parent level) ∧
      ∀ y r, RootOf (p.find x).2.parent y r ↔ RootOf p.parent y r := by
  obtain ⟨level, h⟩ := h
  obtain ⟨hroot, hsize, hleveled, hiff⟩ := climb_spec p.parent.size h hx (Nat.le_add_left _ _)
  exact ⟨hroot, hsize, ⟨level, hleveled⟩, hiff⟩

theorem root_find {p : Partition} (h : ∃ level, Leveled p.parent level) {x y : Nat}
    (hx : x < p.parent.size) (hy : y < p.parent.size) : (p.find x).2.root y = p.root y := by
  obtain ⟨-, hsize, hleveled, hiff⟩ := find_spec h hx
  have hroot := (find_spec hleveled (Nat.lt_of_lt_of_eq hy hsize.symm)).1
  exact ((hiff _ _).mp hroot).unique (find_spec h hy).1

theorem same_link {parent : Array Nat} {level : Nat → Nat} {edges edges' : List (Nat × Nat)}
    {x y a b : Nat} (h : Leveled parent level)
    (hsame : ∀ u v, SameRoot parent u v ↔ Connected edges u v)
    (hx : RootOf parent x a) (hy : RootOf parent y b) (hne : a ≠ b)
    (hxlt : x < parent.size) (hylt : y < parent.size)
    (hmono : ∀ u v, Connected edges u v → Connected edges' u v) (hxy : Connected edges' x y)
    (hnew : ∀ u v, (u, v) ∈ edges' → (u, v) ∈ edges ∨ u = x ∧ v = y ∨ u = y ∧ v = x) :
    (∃ level, Leveled (parent.setIfInBounds a b) level) ∧
      ∀ u v, SameRoot (parent.setIfInBounds a b) u v ↔ Connected edges' u v := by
  have halt := h.root_lt hx hxlt
  obtain ⟨level', h'⟩ := h.link hx.isRoot hy.isRoot hne halt (h.root_lt hy hylt)
  have hlink (z r : Nat) (hr : RootOf parent z r) := rootOf_link hx.isRoot hy.isRoot hne halt hr
  refine ⟨⟨level', h'⟩, fun u v => ⟨?_, fun huv => ?_⟩⟩
  · rintro ⟨r, hu, hv⟩
    obtain ⟨s, hs⟩ := h.exists_root u
    obtain ⟨t, ht⟩ := h.exists_root v
    have heq := (hlink u s hs).unique hu
    rw [← (hlink v t ht).unique hv] at heq
    by_cases hsa : s = a
    · subst hsa
      have hux := hmono u x ((hsame u x).mp ⟨s, hs, hx⟩)
      by_cases hta : t = s
      · subst hta
        exact hmono u v ((hsame u v).mp ⟨t, hs, ht⟩)
      · rw [if_pos rfl, if_neg hta] at heq
        subst heq
        exact (hux.trans _ _ _ hxy).trans _ _ _ (hmono y v ((hsame y v).mp ⟨b, hy, ht⟩))
    · by_cases hta : t = a
      · subst hta
        rw [if_neg hsa, if_pos rfl] at heq
        subst heq
        have huy := hmono u y ((hsame u y).mp ⟨s, hs, hy⟩)
        exact (huy.trans _ _ _ (hxy.symm _ _)).trans _ _ _
          (hmono x v ((hsame x v).mp ⟨t, hx, ht⟩))
      · rw [if_neg hsa, if_neg hta] at heq
        subst heq
        exact hmono u v ((hsame u v).mp ⟨s, hs, ht⟩)
  · have hxb := hlink x a hx
    have hyb := hlink y b hy
    rw [if_pos rfl] at hxb
    rw [if_neg (Ne.symm hne)] at hyb
    refine sameRoot_of_connected h' (fun u v hmem => ?_) huv
    rcases hnew u v hmem with hold | ⟨rfl, rfl⟩ | ⟨rfl, rfl⟩
    · obtain ⟨r, hu, hv⟩ := (hsame u v).mpr (.rel _ _ hold)
      exact ⟨_, hlink u r hu, hlink v r hv⟩
    · exact ⟨b, hxb, hyb⟩
    · exact ⟨b, hyb, hxb⟩

theorem Represents.merge {p : Partition} {n : Nat} {edges : List (Nat × Nat)}
    (h : p.Represents n edges) {x y : Nat} (hx : x < n) (hy : y < n) :
    (p.merge x y).2.Represents n (edges ++ [(x, y)]) := by
  obtain ⟨hsize, hleveled, hsame⟩ := h
  obtain ⟨hrx, hsize₁, hleveled₁, hiff₁⟩ := find_spec hleveled (hsize.symm ▸ hx)
  obtain ⟨hry, hsize₂, ⟨level, hleveled₂⟩, hiff₂⟩ :=
    find_spec (x := y) hleveled₁ (by rw [hsize₁, hsize]; exact hy)
  generalize hp₁ : p.find x = found at *
  obtain ⟨rx, p₁⟩ := found
  generalize hp₂ : p₁.find y = found at *
  obtain ⟨ry, p₂⟩ := found
  simp only at *
  -- Neither search has changed a root.
  have hiff (z r : Nat) : RootOf p₂.parent z r ↔ RootOf p.parent z r :=
    (hiff₂ z r).trans (hiff₁ z r)
  have hsame₂ (u v : Nat) : SameRoot p₂.parent u v ↔ Connected edges u v := by
    rw [← hsame, SameRoot, SameRoot]
    simp only [hiff]
  have hn : p₂.parent.size = n := hsize₂.trans (hsize₁.trans hsize)
  have hx₂ := (hiff x rx).mpr hrx
  have hy₂ := (hiff₂ y ry).mpr hry
  have hxlt := hn.symm ▸ hx
  have hylt := hn.symm ▸ hy
  have hmono (u v : Nat) (hc : Connected edges u v) : Connected (edges ++ [(x, y)]) u v :=
    hc.mono fun _ _ hmem => List.mem_append_left _ hmem
  have hxy : Connected (edges ++ [(x, y)]) x y := .rel _ _ (by simp)
  have hnew (u v : Nat) (hmem : (u, v) ∈ edges ++ [(x, y)]) :
      (u, v) ∈ edges ∨ u = x ∧ v = y := by
    simpa using hmem
  rw [Partition.merge, hp₁]
  simp only [hp₂]
  by_cases hroots : rx = ry
  · subst hroots
    rw [if_pos rfl]
    refine ⟨hn, ⟨level, hleveled₂⟩,
      fun u v => ⟨fun hr => hmono u v ((hsame₂ u v).mp hr), fun hc => ?_⟩⟩
    -- The new edge joins positions of one class.
    refine sameRoot_of_connected hleveled₂ (fun u v hmem => ?_) hc
    rcases hnew u v hmem with hold | ⟨rfl, rfl⟩
    · exact (hsame₂ u v).mpr (.rel _ _ hold)
    · exact ⟨rx, hx₂, hy₂⟩
  · rw [if_neg hroots]
    have hbelow := same_link hleveled₂ hsame₂ hx₂ hy₂ hroots hxlt hylt hmono hxy fun u v hmem =>
      (hnew u v hmem).imp_right .inl
    have habove := same_link hleveled₂ hsame₂ hy₂ hx₂ (Ne.symm hroots) hylt hxlt hmono
      (hxy.symm _ _) fun u v hmem => (hnew u v hmem).imp_right .inr
    split
    · exact ⟨by simpa using hn, hbelow.1, hbelow.2⟩
    · split <;> exact ⟨by simpa using hn, habove.1, habove.2⟩

section

variable {p : Partition} {n : Nat} {edges : List (Nat × Nat)} (h : p.Represents n edges) {x y : Nat}

include h

theorem Represents.find (hx : x < n) : (p.find x).2.Represents n edges := by
  obtain ⟨-, hsize, hleveled, hiff⟩ := find_spec h.leveled (h.size.symm ▸ hx)
  refine ⟨hsize.trans h.size, hleveled, fun u v => ?_⟩
  rw [← h.same, SameRoot, SameRoot]
  simp only [hiff]

theorem Represents.rootOf_root (hx : x < n) : RootOf p.parent x (p.root x) :=
  (find_spec h.leveled (h.size.symm ▸ hx)).1

theorem Represents.root_eq_iff (hx : x < n) (hy : y < n) :
    p.root y = p.root x ↔ Connected edges x y := by
  rw [← h.same]
  constructor
  · intro heq
    exact ⟨p.root x, h.rootOf_root hx, heq ▸ h.rootOf_root hy⟩
  · rintro ⟨r, hrx, hry⟩
    rw [(h.rootOf_root hx).unique hrx, (h.rootOf_root hy).unique hry]

end

theorem represents_discrete (n : Nat) : (discrete n).Represents n [] := by
  have hup (x : Nat) : up (discrete n).parent x = x := by
    by_cases hx : x < n <;> simp [up, discrete, Array.getD_eq_getD_getElem?, hx]
  obtain ⟨level, h⟩ : ∃ level, Leveled (discrete n).parent level :=
    exists_leveled (fun _ => 0) (fun x hx => by rw [hup]; exact hx) fun x hx => absurd (hup x) hx
  refine ⟨by simp [discrete], ⟨level, h⟩,
    fun x y => ⟨?_, sameRoot_of_connected h fun _ _ hmem => absurd hmem List.not_mem_nil⟩⟩
  rintro ⟨r, hx, hy⟩
  obtain rfl := (RootOf.root (hup x)).unique hx
  obtain rfl := (RootOf.root (hup y)).unique hy
  exact .refl _

theorem represents_ofEdges {n : Nat} {edges : List (Nat × Nat)}
    (h : ∀ e ∈ edges, e.1 < n ∧ e.2 < n) : (ofEdges n edges).Represents n edges := by
  have hfold (done rest : List (Nat × Nat)) (p : Partition) (hp : p.Represents n done)
      (hrest : ∀ e ∈ rest, e.1 < n ∧ e.2 < n) :
      (rest.foldl (fun p e => (p.merge e.1 e.2).2) p).Represents n (done ++ rest) := by
    induction rest generalizing done p with
    | nil => simpa using hp
    | cons e rest ih =>
      obtain ⟨x, y⟩ := e
      obtain ⟨hx, hy⟩ := hrest (x, y) List.mem_cons_self
      have hnext := ih (done ++ [(x, y)]) _ (hp.merge hx hy) fun e he =>
        hrest e (List.mem_cons_of_mem _ he)
      rw [List.append_assoc] at hnext
      exact hnext
  exact hfold [] edges _ (represents_discrete n) h

-- ---------------------------------------------------------------------------
-- Classes
-- ---------------------------------------------------------------------------

/-- The connected components of the positions below `n`: lists in ascending order, of which
no two have a common member. -/
structure Components (n : Nat) (edges : List (Nat × Nat)) (classes : List (List Nat)) : Prop where
  ascending : ∀ c ∈ classes, c.Pairwise (· < ·)
  nonempty : ∀ c ∈ classes, c ≠ []
  mem_iff : ∀ c ∈ classes, ∀ x ∈ c, ∀ y, y ∈ c ↔ y < n ∧ Connected edges x y
  cover : ∀ x < n, ∃ c ∈ classes, x ∈ c
  disjoint : classes.Pairwise List.Disjoint

def classOf (p : Partition) (x : Nat) : List Nat :=
  sharing p.root p.size x

theorem list_succ (p : Partition) (n : Nat) :
    p.list (n + 1) = (((p.list n).1.find n).2, (p.list n).2.add ((p.list n).1.root n) n) := by
  rw [list, List.range_succ, List.foldl_append]
  rfl

theorem complete_list {p : Partition} (h : ∃ level, Leveled p.parent level) {n : Nat}
    (hn : n ≤ p.size) :
    (∃ level, Leveled (p.list n).1.parent level) ∧ (p.list n).1.size = p.size ∧
      (∀ y < p.size, (p.list n).1.root y = p.root y) ∧ (p.list n).2.Complete p.root n := by
  induction n with
  | zero => exact ⟨h, rfl, fun _ _ => rfl, Listing.complete_zero _⟩
  | succ n ih =>
    obtain ⟨hleveled, hsize, hroot, hcomplete⟩ := ih (Nat.le_of_succ_le hn)
    have hlt := Nat.lt_of_lt_of_eq hn hsize.symm
    obtain ⟨-, hsize', hleveled', -⟩ := find_spec hleveled hlt
    rw [list_succ]
    refine ⟨hleveled', Eq.trans hsize' hsize, fun y hy => ?_, ?_⟩
    · exact (root_find hleveled hlt (Nat.lt_of_lt_of_eq hy hsize.symm)).trans (hroot y hy)
    · rw [hroot n hn]
      exact hcomplete.add

theorem classes_eq {p : Partition} (h : ∃ level, Leveled p.parent level) :
    p.classes = (leaders p.root p.size).map p.classOf :=
  (complete_list h (Nat.le_refl _)).2.2.2.classes_eq

section

variable {p : Partition} {n : Nat} {edges : List (Nat × Nat)} (h : p.Represents n edges)

include h

theorem Represents.components : Components n edges p.classes := by
  have hsize : p.size = n := h.size
  have hclass {c : List Nat} (hc : c ∈ p.classes) : ∃ x < n, c = p.classOf x := by
    rw [classes_eq h.leveled] at hc
    obtain ⟨x, hx, rfl⟩ := List.mem_map.mp hc
    exact ⟨x, hsize ▸ (mem_leaders.mp hx).1, rfl⟩
  refine ⟨fun c hc => ?_, fun c hc => ?_, fun c hc x hx y => ?_, fun x hx => ?_, ?_⟩
  · obtain ⟨x, -, rfl⟩ := hclass hc
    exact List.Pairwise.filter _ List.pairwise_lt_range
  · obtain ⟨x, hx, rfl⟩ := hclass hc
    exact List.ne_nil_of_mem (mem_sharing.mpr ⟨hsize.symm ▸ hx, rfl⟩)
  · obtain ⟨z, -, rfl⟩ := hclass hc
    obtain ⟨hxlt, hxz⟩ := mem_sharing.mp hx
    rw [classOf, mem_sharing, hsize, ← hxz]
    exact and_congr_right fun hy => h.root_eq_iff (hsize ▸ hxlt) hy
  · obtain ⟨z, hz, hleads, hroot⟩ := exists_leader p.root x
    rw [classes_eq h.leveled]
    refine ⟨p.classOf z, List.mem_map_of_mem (mem_leaders.mpr ⟨?_, hleads⟩),
      mem_sharing.mpr ⟨?_, hroot.symm⟩⟩
    · exact Nat.lt_of_le_of_lt hz (hsize.symm ▸ hx)
    · exact hsize.symm ▸ hx
  · rw [classes_eq h.leveled, List.pairwise_map]
    refine (leaders_pairwise p.root p.size).imp fun {x y} hne z hx hy => hne.2 ?_
    exact (mem_sharing.mp hx).2.symm.trans (mem_sharing.mp hy).2

theorem Represents.classes_ascending : p.classes.Pairwise fun c d => c.headD 0 < d.headD 0 := by
  rw [classes_eq h.leveled, List.pairwise_map]
  refine (leaders_pairwise p.root p.size).imp_of_mem fun {x y} hx hy hlt => ?_
  rw [classOf, classOf, headD_sharing (mem_leaders.mp hx), headD_sharing (mem_leaders.mp hy)]
  exact hlt.1

end

theorem ofEdges_components {n : Nat} {edges : List (Nat × Nat)}
    (h : ∀ e ∈ edges, e.1 < n ∧ e.2 < n) : Components n edges (ofEdges n edges).classes :=
  (represents_ofEdges h).components

section

variable {n : Nat} {edges : List (Nat × Nat)} {classes : List (List Nat)}

theorem Components.lt_of_mem (h : Components n edges classes) {c : List Nat} (hc : c ∈ classes) :
    ∀ x ∈ c, x < n :=
  fun x hx => ((h.mem_iff c hc x hx x).mp hx).1

theorem Components.flatten_perm (h : Components n edges classes) :
    classes.flatten.Perm (List.range n) := by
  have hnodup : classes.flatten.Nodup :=
    List.nodup_flatten.mpr ⟨fun c hc => (h.ascending c hc).imp Nat.ne_of_lt, h.disjoint⟩
  refine (List.perm_ext_iff_of_nodup hnodup List.nodup_range).mpr fun x => ?_
  simp only [List.mem_flatten, List.mem_range]
  constructor
  · rintro ⟨c, hc, hx⟩
    exact h.lt_of_mem hc x hx
  · exact h.cover x

end

end GlyphTable.Partition
