import GlyphTable.Proofs.Row.Division

/-!
# Groups of blocks

`Block.grouped_grouping`: the groups that a symmetric relation makes of some blocks hold
every block, the members of a group are linked by a chain inside it, and blocks of two
groups are not related. This is what is left of a division when the numbers of the blocks are
dropped (`Block.Division.grouping`).
-/

namespace GlyphTable

namespace Block

def Linked (R : Block → Block → Prop) (blocks : List Block) : Block → Block → Prop :=
  Relation.EqvGen fun a b => a ∈ blocks ∧ b ∈ blocks ∧ R a b

structure Grouping (R : Block → Block → Prop) (blocks : List Block) (groups : List (List Block)) :
    Prop where
  mem : ∀ a, a ∈ blocks ↔ ∃ g ∈ groups, a ∈ g
  nonempty : ∀ g ∈ groups, g ≠ []
  chained : ∀ g ∈ groups, ∀ a ∈ g, ∀ b ∈ g, Linked R g a b
  apart : groups.Pairwise fun g h => ∀ a ∈ g, ∀ b ∈ h, ¬ R a b

section

variable {R : Block → Block → Prop} {blocks : List Block} {groups : List (List Block)}

theorem Linked.mono {g : List Block} (h : ∀ a ∈ g, a ∈ blocks) {a b : Block}
    (hab : Linked R g a b) :
    Linked R blocks a b := by
  have hmono : ∀ a b, (a ∈ g ∧ b ∈ g ∧ R a b) → a ∈ blocks ∧ b ∈ blocks ∧ R a b :=
    fun a b ⟨ha, hb, hr⟩ => ⟨h a ha, h b hb, hr⟩
  exact Relation.EqvGen.mono hmono _ _ hab

theorem Linked.invariant {P : Block → Prop} {a b : Block} (h : Linked R blocks a b)
    (hP : ∀ x ∈ blocks, ∀ y ∈ blocks, R x y → (P x ↔ P y)) : P a ↔ P b := by
  induction h with
  | rel x y hxy => exact hP x hxy.1 y hxy.2.1 hxy.2.2
  | refl => rfl
  | symm x y _ ih => exact ih.symm
  | trans x y z _ _ ihxy ihyz => exact ihxy.trans ihyz

theorem Grouping.subset (h : Grouping R blocks groups) {g : List Block} (hg : g ∈ groups) :
    ∀ a ∈ g, a ∈ blocks :=
  fun a ha => (h.mem a).mpr ⟨g, hg, ha⟩

theorem Grouping.closed (h : Grouping R blocks groups) (hsymm : ∀ a b, R a b → R b a)
    {g : List Block} (hg : g ∈ groups) {a b : Block} (ha : a ∈ g) (hb : b ∈ blocks) (hab : R a b) :
    b ∈ g := by
  obtain ⟨k, hk, hbk⟩ := (h.mem b).mp hb
  by_cases heq : g = k
  · rw [heq]
    exact hbk
  · have hapart : groups.Pairwise fun g h =>
        (∀ a ∈ g, ∀ b ∈ h, ¬ R a b) ∧ ∀ a ∈ h, ∀ b ∈ g, ¬ R a b :=
      h.apart.imp fun hgh => ⟨hgh, fun b hb a ha hr => hgh a ha b hb (hsymm b a hr)⟩
    have hsym : Std.Symm fun g h : List Block =>
        (∀ a ∈ g, ∀ b ∈ h, ¬ R a b) ∧ ∀ a ∈ h, ∀ b ∈ g, ¬ R a b := ⟨fun _ _ hgh => ⟨hgh.2, hgh.1⟩⟩
    exact absurd hab ((hapart.forall hg hk heq).1 a ha b hbk)

theorem Grouping.mem_of_linked (h : Grouping R blocks groups) (hsymm : ∀ a b, R a b → R b a)
    {g : List Block} (hg : g ∈ groups) {a b : Block} (ha : a ∈ g) (hab : Linked R blocks a b) :
    b ∈ g := by
  refine (hab.invariant fun x hx y hy hxy => ?_).mp ha
  exact ⟨fun hxg => h.closed hsymm hg hxg hy hxy,
    fun hyg => h.closed hsymm hg hyg hx (hsymm x y hxy)⟩

/-- Where no two unrelated blocks keep a relation `B` open, and none stands between two
related ones, one pair settles it for all of two groups. -/
theorem Grouping.spread (h : Grouping R blocks groups) (hsymm : ∀ a b, R a b → R b a)
    {B : Block → Block → Prop} (htotal : ∀ a ∈ blocks, ∀ b ∈ blocks, ¬ R a b → B a b ∨ B b a)
    (hbetween : ∀ a ∈ blocks, ∀ b ∈ blocks, ∀ c ∈ blocks, B a b → B c a → ¬ R b c)
    {g k : List Block} (hg : g ∈ groups) (hk : k ∈ groups) (hapart : ∀ a ∈ g, ∀ b ∈ k, ¬ R a b)
    {a b : Block} (ha : a ∈ g) (hb : b ∈ k) (hab : B a b) : ∀ x ∈ g, ∀ y ∈ k, B x y := by
  have hgmem := h.subset hg
  have hkmem := h.subset hk
  have hpass (x : Block) (hx : x ∈ g) : ∀ y ∈ k, ∀ z ∈ k, R y z → B x y → B x z := by
    intro y hy z hz hyz hxy
    refine (htotal x (hgmem x hx) z (hkmem z hz) (hapart x hx z hz)).resolve_right fun hzx => ?_
    exact hbetween x (hgmem x hx) y (hkmem y hy) z (hkmem z hz) hxy hzx hyz
  have hpass' (y : Block) (hy : y ∈ k) : ∀ x ∈ g, ∀ z ∈ g, R x z → B x y → B z y := by
    intro x hx z hz hxz hxy
    refine (htotal z (hgmem z hz) y (hkmem y hy) (hapart z hz y hy)).resolve_right fun hyz => ?_
    exact hbetween y (hkmem y hy) z (hgmem z hz) x (hgmem x hx) hyz hxy (hsymm x z hxz)
  intro x hx y hy
  -- First along the chain from `b` to `y`, then along that from `a` to `x`.
  have hay : B a y := ((h.chained k hk b hb y hy).invariant (P := B a) fun u hu v hv huv =>
    ⟨hpass a ha u hu v hv huv, hpass a ha v hv u hu (hsymm u v huv)⟩).mp hab
  exact ((h.chained g hg a ha x hx).invariant (P := (B · y)) fun u hu v hv huv =>
    ⟨hpass' y hy u hu v hv huv, hpass' y hy v hv u hu (hsymm u v huv)⟩).mp hay

theorem Grouping.ordered (h : Grouping R blocks groups) (hsymm : ∀ a b, R a b → R b a)
    {B : Block → Block → Prop} (htotal : ∀ a ∈ blocks, ∀ b ∈ blocks, ¬ R a b → B a b ∨ B b a)
    (hbetween : ∀ a ∈ blocks, ∀ b ∈ blocks, ∀ c ∈ blocks, B a b → B c a → ¬ R b c) :
    groups.Pairwise fun g k => (∀ a ∈ g, ∀ b ∈ k, B a b) ∨ ∀ a ∈ g, ∀ b ∈ k, B b a := by
  refine h.apart.imp_of_mem fun {g k} hg hk hapart => ?_
  obtain ⟨a, ha⟩ := List.exists_mem_of_ne_nil g (h.nonempty g hg)
  obtain ⟨b, hb⟩ := List.exists_mem_of_ne_nil k (h.nonempty k hk)
  have hapart' : ∀ b ∈ k, ∀ a ∈ g, ¬ R b a := fun b hb a ha hba => hapart a ha b hb (hsymm b a hba)
  rcases htotal a (h.subset hg a ha) b (h.subset hk b hb) (hapart a ha b hb) with hab | hba
  · exact .inl (h.spread hsymm htotal hbetween hg hk hapart ha hb hab)
  · right
    intro x hx y hy
    exact h.spread hsymm htotal hbetween hk hg hapart' hb ha hba y hy x hx

end

-- ---------------------------------------------------------------------------
-- Divisions without the numbers
-- ---------------------------------------------------------------------------

theorem Chained.linked {R : Block → Block → Prop} {blocks : List (Block × Nat)} {x y : Block × Nat}
    (h : Chained R blocks x y) : Linked R (blocks.map (·.1)) x.1 y.1 := by
  have hequivalence : Equivalence (Linked R (blocks.map (·.1))) := Relation.EqvGen.is_equivalence _
  refine (hequivalence.comap (·.1)).eqvGen_iff.mp (h.mono fun u v huv => ?_)
  exact .rel _ _ ⟨List.mem_map_of_mem huv.1, List.mem_map_of_mem huv.2.1, huv.2.2⟩

theorem Division.grouping {R : Block → Block → Prop} {blocks : List (Block × Nat)}
    {parts : List (List (Block × Nat))} (h : Division R blocks parts) (hnodup : blocks.Nodup) :
    Grouping R (blocks.map (·.1)) (parts.map (·.map (·.1))) where
  mem a := by
    rw [← (h.perm.map (·.1)).mem_iff, List.map_flatten, List.mem_flatten]
  nonempty := List.forall_mem_map.mpr fun g hg => by simpa using h.nonempty g hg
  chained := by
    simp only [List.forall_mem_map]
    exact fun g hg x hx y hy => (h.chained hnodup hg hx hy).linked
  apart := by
    have hmem {g : List (Block × Nat)} (hg : g ∈ parts) {x : Block × Nat}
        (hx : x ∈ g) : x ∈ blocks :=
      h.perm.mem_iff.mp (List.mem_flatten.mpr ⟨g, hg, hx⟩)
    refine List.pairwise_map.mpr ((h.disjoint hnodup).imp_of_mem fun {g k} hg hk hdisjoint => ?_)
    simp only [List.forall_mem_map]
    intro x hx y hy hxy
    have hyb := hmem hk hy
    exact hdisjoint (h.mem_of_chained hnodup hg hx hyb (.rel _ _ ⟨hmem hg hx, hyb, hxy⟩)) hy

theorem grouped_eq_zipIdx (related : Block → Block → Bool) (blocks : List Block) :
    grouped related blocks = (divided related blocks.zipIdx).map (·.map (·.1)) := by
  rw [← grouped_eq_divided, List.zipIdx_map_fst]

theorem grouped_grouping (related : Block → Block → Bool) (hsymm : ∀ a b, related a b → related b a)
    (blocks : List Block) : Grouping (fun a b => related a b) blocks (grouped related blocks) := by
  have hnodup : blocks.zipIdx.Nodup := (pairwise_zipIdx blocks).imp fun {x y} hxy heq => by
    rw [heq] at hxy
    exact Nat.lt_irrefl _ hxy
  have hgrouping := (divided_division hsymm blocks.zipIdx).grouping hnodup
  rwa [← grouped_eq_zipIdx, List.zipIdx_map_fst] at hgrouping

theorem grouping_of_symm {R : Block → Block → Prop} [DecidableRel R]
    (hsymm : ∀ {a b}, R a b → R b a)
    (blocks : List Block) : Grouping R blocks (grouped (fun a b => decide (R a b)) blocks) := by
  have hgrouping := grouped_grouping (fun a b => decide (R a b))
    (fun _ _ hab => decide_eq_true (hsymm (of_decide_eq_true hab))) blocks
  simpa only [decide_eq_true_eq] using hgrouping

theorem grouped_flatten_perm (related : Block → Block → Bool) (blocks : List Block) :
    (grouped related blocks).flatten.Perm blocks := by
  have hperm := (divided_flatten_perm related blocks.zipIdx).map (·.1)
  rwa [List.map_flatten, ← grouped_eq_zipIdx, List.zipIdx_map_fst] at hperm

end Block

end GlyphTable
