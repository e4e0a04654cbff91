import GlyphTable.Proofs.Geometry.Projection
import GlyphTable.Proofs.Segment.Scan

/-!
# Segments are trees

Several glyphs may share a follower, so what links connect is a tree, rooted in the one glyph that
has no follower. Every link leads ahead by a finite distance, and sorting by projection puts it
that way round (`Glyph.dot_lt_dot_of_ahead?`): a segment is read forward along all its links, into
its root (`Glyph.Forward`). `Segment.ofGlyphs_trees` says so of all segments of a page, wherever
the glyphs stand.
-/

namespace GlyphTable

open Relation (EqvGen ReflTransGen)

theorem eq_of_eqvGen_of_ends {α : Type} {R : α → α → Prop}
    (hunique : Relator.RightUnique R) {x y : α}
    (hxy : EqvGen R x y) (hx : ∀ z, ¬ R x z) (hy : ∀ z, ¬ R y z) : x = y := by
  have hequivalence : Equivalence (Relation.Join (ReflTransGen R)) :=
    Relation.equivalence_join_reflTransGen fun u v w hv hw => ⟨v, .refl, hunique hv hw ▸ .refl⟩
  obtain ⟨z, hxz, hyz⟩ := hequivalence.eqvGen_iff.mp
    (hxy.mono fun u v huv => ⟨v, .single huv, .refl⟩)
  have hstay {u : α} (hu : ∀ z, ¬ R u z) (huz : ReflTransGen R u z) : u = z := by
    rcases huz.cases_head with heq | ⟨v, huv, -⟩
    · exact heq
    · exact absurd huv (hu v)
  rw [hstay hx hxz, hstay hy hyz]

namespace Glyph

-- ---------------------------------------------------------------------------
-- Reading forward
-- ---------------------------------------------------------------------------

/-- A list in which the successor of every item stands further on, but the last has none. -/
inductive Forward (successor? : Nat → Option Nat) : List Nat → Prop
  | last {i : Nat} (h : successor? i = none) : Forward successor? [i]
  | link {i j : Nat} {rest : List Nat} (h : successor? i = some j) (hj : j ∈ rest)
      (hrest : Forward successor? rest) : Forward successor? (i :: rest)

section

variable {successor? : Nat → Option Nat} {l : List Nat}

theorem Forward.countP_eq_one (h : Forward successor? l) :
    l.countP (fun i => (successor? i).isNone) = 1 := by
  induction h with
  | last h => simp [h]
  | link h _ _ ih => rw [List.countP_cons_of_neg (by simp [h]), ih]

theorem Forward.of_sorted (hne : l ≠ []) (hnodup : l.Nodup)
    (hclosed : ∀ i ∈ l, ∀ j, successor? i = some j → j ∈ l)
    (hends : ∀ i ∈ l, ∀ j ∈ l, successor? i = none → successor? j = none → i = j)
    (hself : ∀ i ∈ l, successor? i ≠ some i)
    (hsorted : l.Pairwise fun i j => successor? j ≠ some i) :
    Forward successor? l := by
  induction l with
  | nil => exact absurd rfl hne
  | cons i rest ih =>
    obtain ⟨hi, hnodup⟩ := List.nodup_cons.mp hnodup
    obtain ⟨hback, hsorted⟩ := List.pairwise_cons.mp hsorted
    have hmem := fun x (hx : x ∈ rest) => List.mem_cons_of_mem i hx
    have hnext (j : Nat) (hj : successor? i = some j) : j ∈ rest := by
      refine (List.mem_cons.mp (hclosed i List.mem_cons_self j hj)).resolve_left ?_
      rintro rfl
      exact hself j List.mem_cons_self hj
    by_cases hrest : rest = []
    · subst hrest
      refine .last (Option.eq_none_iff_forall_ne_some.mpr fun j hj => ?_)
      exact absurd (hnext j hj) List.not_mem_nil
    · have hclosed' : ∀ x ∈ rest, ∀ j, successor? x = some j → j ∈ rest := by
        intro x hx j hj
        refine (List.mem_cons.mp (hclosed x (hmem x hx) j hj)).resolve_left ?_
        rintro rfl
        exact hback x hx hj
      have hforward := ih hrest hnodup hclosed'
        (fun x hx y hy => hends x (hmem x hx) y (hmem y hy)) (fun x hx =>
          hself x (hmem x hx)) hsorted
      cases hsome : successor? i with
      | some j => exact .link hsome (hnext j hsome) hforward
      | none =>
        -- The rest has an end of its own, which cannot be this one.
        obtain ⟨x, hx, hnone⟩ := List.countP_pos_iff.mp
          (Nat.lt_of_lt_of_eq Nat.one_pos hforward.countP_eq_one.symm)
        have heq := hends i List.mem_cons_self x (hmem x hx) hsome
          (Option.isNone_iff_eq_none.mp hnone)
        exact absurd (heq ▸ hx) hi

end

-- ---------------------------------------------------------------------------
-- Successors
-- ---------------------------------------------------------------------------

theorem mem_linked {n i j : Nat} {follower? : Nat → Option Nat} :
    (i, j) ∈ linked n follower? ↔ i < n ∧ follower? i = some j := by
  simp only [linked, List.mem_filterMap, List.mem_range, Option.map_eq_some_iff, Prod.mk.injEq]
  constructor
  · rintro ⟨i', hi, j', hj, rfl, rfl⟩
    exact ⟨hi, hj⟩
  · rintro ⟨hi, hj⟩
    exact ⟨i, hi, j, hj, rfl, rfl⟩

section

variable {s : Spacing} {glyphs : Array Glyph} {index : PointTree.Index Nat} {i j : Nat}

theorem ahead?_of_followerAmong? {candidates : List Nat}
    (h : followerAmong? s glyphs i candidates = some j) :
    ∃ c d ahead, glyphs[i]? = some c ∧ glyphs[j]? = some d ∧ c.ahead? s d = some ahead := by
  simp only [followerAmong?, Option.bind_eq_bind, Option.bind_eq_some_iff, Option.pure_def,
    Option.some.injEq] at h
  obtain ⟨c, hc, ⟨ahead, j'⟩, hleast, rfl⟩ := h
  obtain ⟨-, -, d, hd, hahead⟩ := mem_aheads.mp (mem_of_least? hleast)
  exact ⟨c, d, ahead, hc, hd, hahead⟩

theorem ahead?_of_followerIn? (h : followerIn? s glyphs index i = some j) :
    ∃ c d ahead, glyphs[i]? = some c ∧ glyphs[j]? = some d ∧ c.ahead? s d = some ahead := by
  simp only [followerIn?, Option.bind_eq_bind, Option.bind_eq_some_iff] at h
  obtain ⟨_, _, _, _, h⟩ := h
  exact ahead?_of_followerAmong? h

theorem mem_links : (i, j) ∈ links s glyphs index ↔ followerIn? s glyphs index i = some j := by
  rw [links, mem_linked]
  refine and_iff_right_of_imp fun h => ?_
  obtain ⟨c, -, -, hc, -⟩ := ahead?_of_followerIn? h
  exact (Array.getElem?_eq_some_iff.mp hc).1

/-- A distance ahead is positive and less than the margin, hence finite, and so are the centers
it is measured between. -/
theorem dot_lt_dot_of_ahead? {c d : Glyph} {ahead : Float} (h : c.ahead? s d = some ahead) :
    d.orientation = c.orientation ∧
      c.center.dot c.orientation.direction < d.center.dot c.orientation.direction := by
  simp only [ahead?, Option.ite_none_right_eq_some] at h
  obtain ⟨⟨horientation, hpos, hlt, -⟩, -⟩ := h
  exact ⟨horientation, Orientation.dot_lt_dot hpos (Binary64.isFinite_of_pos_of_lt hpos hlt)⟩

end

end Glyph

namespace Segment

open Glyph (Forward followerIn?)

-- ---------------------------------------------------------------------------
-- Trees
-- ---------------------------------------------------------------------------

theorem ofMembers?_eq_some {glyphs : Array Glyph} {members : List Nat} {g : Segment}
    (h : ofMembers? glyphs members = some g) :
    ∃ i ∈ members, ∃ lowest, glyphs[i]? = some lowest ∧
      g.glyphs = readingOrder glyphs lowest.orientation members ∧
      ∃ j ∈ g.glyphs, ∃ head, glyphs[j]? = some head ∧ g.orientation = head.orientation := by
  simp only [ofMembers?, Option.bind_eq_bind, Option.bind_eq_some_iff, Option.ite_none_left_eq_some,
    Option.pure_def, Option.some.injEq] at h
  obtain ⟨i, hi, lowest, hlowest, head, hhead, box, -, -, rfl⟩ := h
  obtain ⟨j, hj, hget⟩ := List.mem_filterMap.mp (List.mem_of_head? hhead)
  exact ⟨i, List.mem_of_head? hi, lowest, hlowest, rfl, j, hj, head, hget, rfl⟩

theorem readingOrder_pairwise (glyphs : Array Glyph) (o : Orientation) (members : List Nat) :
    (readingOrder glyphs o members).Pairwise fun i j => ∀ c d, glyphs[i]? = some c →
      glyphs[j]? = some d →
      Binary64.leKeyed (c.center.dot o.direction, i) (d.center.dot o.direction, j) := by
  have hposition (i : Nat) (e : Float × Nat)
      (he : (glyphs[i]?.map fun c => (c.center.dot o.direction, i)) = some e) : e.2 = i := by
    obtain ⟨c, -, rfl⟩ := Option.map_eq_some_iff.mp he
    rfl
  refine (sortKeyed_pairwise Binary64.leKeyed_total Binary64.leKeyed_trans hposition members).imp ?_
  intro i j hle c d hc hd
  exact hle _ _ (by rw [hc]; rfl) (by rw [hd]; rfl)

theorem links_components (s : Spacing) (glyphs : Array Glyph) (index : PointTree.Index Nat) :
    Partition.Components glyphs.size (Glyph.links s glyphs index)
      (Partition.ofEdges glyphs.size (Glyph.links s glyphs index)).classes :=
  Partition.ofEdges_components fun _ he => Glyph.lt_of_mem_links he

section

variable {s : Spacing} {glyphs : Array Glyph} {index : PointTree.Index Nat} {c : List Nat}
  (hc : c ∈ (Partition.ofEdges glyphs.size (Glyph.links s glyphs index)).classes)

include hc

theorem eqvGen_of_mem_class {i j : Nat} (hi : i ∈ c) :
    j ∈ c ↔ j < glyphs.size ∧ EqvGen (fun i j => followerIn? s glyphs index i = some j) i j := by
  rw [(links_components s glyphs index).mem_iff c hc i hi j, Partition.Connected]
  simp only [Glyph.mem_links]

theorem orientation_eq_of_mem_class {i j : Nat} (hi : i ∈ c) (hj : j ∈ c) {a b : Glyph}
    (ha : glyphs[i]? = some a) (hb : glyphs[j]? = some b) : a.orientation = b.orientation := by
  have hij := ((eqvGen_of_mem_class hc hi).mp hj).2
  have hsame : glyphs[i]?.map (·.orientation) = glyphs[j]?.map (·.orientation) := by
    refine (eq_equivalence.comap fun i => glyphs[i]?.map (·.orientation)).eqvGen_iff.mp
      (hij.mono fun u v huv => ?_)
    obtain ⟨d, e, ahead, hd, he, hahead⟩ := Glyph.ahead?_of_followerIn? huv
    show glyphs[u]?.map (·.orientation) = glyphs[v]?.map (·.orientation)
    rw [hd, he, Option.map_some, Option.map_some, (Glyph.dot_lt_dot_of_ahead? hahead).1]
  rw [ha, hb] at hsame
  exact Option.some.inj hsame

theorem forward_readingOrder {i : Nat} (hi : i ∈ c) {lowest : Glyph}
    (hlowest : glyphs[i]? = some lowest) :
    Forward (followerIn? s glyphs index) (readingOrder glyphs lowest.orientation c) := by
  have hcomponents := links_components s glyphs index
  have hlt := hcomponents.lt_of_mem hc
  have hperm := readingOrder_perm lowest.orientation hlt
  have hahead {j k : Nat} (hj : j ∈ c) {a b : Glyph} (ha : glyphs[j]? = some a)
      (hb : glyphs[k]? = some b)
      (hjk : followerIn? s glyphs index j = some k) :
      a.center.dot lowest.orientation.direction < b.center.dot lowest.orientation.direction := by
    obtain ⟨a', b', ahead, ha', hb', hahead⟩ := Glyph.ahead?_of_followerIn? hjk
    obtain rfl := Option.some.inj (ha.symm.trans ha')
    obtain rfl := Option.some.inj (hb.symm.trans hb')
    rw [orientation_eq_of_mem_class hc hi hj hlowest ha]
    exact (Glyph.dot_lt_dot_of_ahead? hahead).2
  have hne : readingOrder glyphs lowest.orientation c ≠ [] :=
    List.ne_nil_of_mem (hperm.mem_iff.mpr hi)
  have hnodup := hperm.nodup_iff.mpr ((hcomponents.ascending c hc).imp Nat.ne_of_lt)
  refine .of_sorted hne hnodup (fun j hj k hjk => ?_) (fun j hj k hk hjend hkend => ?_)
    (fun j hj hjj => ?_) ?_
  · rw [hperm.mem_iff] at hj ⊢
    obtain ⟨_, _, _, _, hk, _⟩ := Glyph.ahead?_of_followerIn? hjk
    exact (eqvGen_of_mem_class hc hj).mpr ⟨(Array.getElem?_eq_some_iff.mp hk).1, .rel _ _ hjk⟩
  · rw [hperm.mem_iff] at hj hk
    refine eq_of_eqvGen_of_ends (fun u v w hv hw => ?_) ((eqvGen_of_mem_class hc hj).mp hk).2 ?_ ?_
    · exact Option.some.inj (hv.symm.trans hw)
    · simp [hjend]
    · simp [hkend]
  · have hj := hperm.mem_iff.mp hj
    have hget := Array.getElem?_eq_getElem (hlt j hj)
    exact Binary64.lt_irrefl _ (hahead hj hget hget hjj)
  · refine (readingOrder_pairwise glyphs lowest.orientation c).imp_of_mem
      fun {j k} hj hk hle hkj => ?_
    have hj := hperm.mem_iff.mp hj
    have hk := hperm.mem_iff.mp hk
    have hgetj := Array.getElem?_eq_getElem (hlt j hj)
    have hgetk := Array.getElem?_eq_getElem (hlt k hk)
    have hlt := hahead hk hgetk hgetj hkj
    have hle := Binary64.le_of_leKeyed (Binary64.lt_iff.mp hlt).1 (hle _ _ hgetj hgetk)
    exact Binary64.lt_irrefl _ (Binary64.lt_of_lt_of_le hlt hle.1)

end

structure ReadForward (glyphs : Array Glyph) (successor? : Nat → Option Nat)
    (g : Segment) : Prop where
  orientation : ∀ i ∈ g.glyphs, ∃ c, glyphs[i]? = some c ∧ c.orientation = g.orientation
  forward : Forward successor? g.glyphs

theorem ofLinks_readForward {s : Spacing} {glyphs : Array Glyph} {index : PointTree.Index Nat}
    {g : Segment} (hg : g ∈ ofLinks glyphs (Glyph.links s glyphs index)) :
    ReadForward glyphs (followerIn? s glyphs index) g := by
  obtain ⟨c, hc, hmembers, hperm⟩ :=
    exists_class_of_mem_ofLinks (fun _ he => Glyph.lt_of_mem_links he) hg
  obtain ⟨i, hi, lowest, hlowest, horder, j, hj, head, hhead, horientation⟩ :=
    ofMembers?_eq_some hmembers
  refine ⟨fun k hk => ?_, horder ▸ forward_readingOrder hc hi hlowest⟩
  have hkc := hperm.mem_iff.mp hk
  have hget := Array.getElem?_eq_getElem ((links_components s glyphs index).lt_of_mem hc k hkc)
  refine ⟨_, hget, ?_⟩
  rw [horientation]
  exact orientation_eq_of_mem_class hc hkc (hperm.mem_iff.mp hj) hget hhead

/-- There is one component for every glyph without a successor. -/
theorem length_classes_links (s : Spacing) (glyphs : Array Glyph) (index : PointTree.Index Nat) :
    (Partition.ofEdges glyphs.size (Glyph.links s glyphs index)).classes.length =
      (List.range glyphs.size).countP fun i => (followerIn? s glyphs index i).isNone := by
  have hcomponents := links_components s glyphs index
  have hone : ∀ c ∈ (Partition.ofEdges glyphs.size (Glyph.links s glyphs index)).classes,
      c.countP (fun i => (followerIn? s glyphs index i).isNone) = 1 := by
    intro c hc
    obtain ⟨i, hi⟩ := List.exists_mem_of_ne_nil c (hcomponents.nonempty c hc)
    have hlt := hcomponents.lt_of_mem hc
    have hget := Array.getElem?_eq_getElem (hlt i hi)
    rw [← (forward_readingOrder hc hi hget).countP_eq_one]
    exact ((readingOrder_perm _ hlt).countP_eq _).symm
  rw [← hcomponents.flatten_perm.countP_eq, List.countP_flatten, List.map_congr_left hone]
  simp

theorem ofLinks_first_lt {glyphs : Array Glyph} {links : List (Nat × Nat)}
    (h : ∀ e ∈ links, e.1 < glyphs.size ∧ e.2 < glyphs.size) :
    (ofLinks glyphs links).Pairwise fun g k => g.first < k.first := by
  have hdistinct := ofLinks_distinct h
  have hsorted : (ofLinks glyphs links).Pairwise fun g k => decide (g.first ≤ k.first) :=
    pairwise_sortStably (fun g k => by simpa using Nat.le_total g.first k.first)
      (fun a b c hab hbc =>
        by simpa using Nat.le_trans (of_decide_eq_true hab) (of_decide_eq_true hbc)) _
  refine (hsorted.and hdistinct.disjoint).imp_of_mem fun {g k} hg hk ⟨hle, hdisjoint⟩ => ?_
  refine Nat.lt_of_le_of_ne (of_decide_eq_true hle) fun heq => ?_
  exact hdisjoint (first_mem (hdistinct.nonempty g hg)) (heq ▸ first_mem (hdistinct.nonempty k hk))

/-- Whatever the glyphs, the page and the spacing are, as long as the glyphs can be indexed: each
segment is a tree of links that is read forward into the one glyph without a follower. So there are
as many trees as such glyphs, with text or without, and segments come out by their first glyphs, no
two with the same. -/
theorem ofGlyphs_trees (s : Spacing) {page : Box} {glyphs : Array Glyph}
    {index : PointTree.Index Nat}
    (hindex : Glyph.index? page glyphs = some index) :
    Glyph.links s glyphs index = Glyph.linked glyphs.size (followerIn? s glyphs index) ∧
    ∃ segments, ofGlyphs? s page glyphs = some segments ∧
      (∀ g ∈ segments, ReadForward glyphs (followerIn? s glyphs index) g) ∧
      (Partition.ofEdges glyphs.size (Glyph.links s glyphs index)).classes.length =
        ((List.range glyphs.size).countP fun i => (followerIn? s glyphs index i).isNone) ∧
      segments.Pairwise fun g k => g.first < k.first :=
  ⟨rfl, _, ofGlyphs?_eq_some_iff.mpr ⟨index, hindex, rfl⟩, fun _ => ofLinks_readForward,
    length_classes_links s glyphs index, ofLinks_first_lt fun _ he => Glyph.lt_of_mem_links he⟩

def sharedFollower : Array Glyph :=
  #[.ofText "C" ⟨10, 0, 20, 10⟩ 10 .east 0, .ofText "A" ⟨2, 0, 12, 10⟩ 10 .east 0,
    .ofText "B" ⟨2, 0, 12, 10⟩ 10 .east 0, .ofText "" ⟨80, 80, 90, 90⟩ 10 .east 0]

theorem sharedFollower_trees :
    ∃ index segments, Glyph.index? ⟨0, 0, 100, 100⟩ sharedFollower = some index ∧
      ofGlyphs? .standard ⟨0, 0, 100, 100⟩ sharedFollower = some segments ∧
      segments.map (·.glyphs) = [[1, 2, 0]] ∧
      (∀ g ∈ segments, ReadForward sharedFollower (followerIn? .standard sharedFollower index) g) ∧
      ((List.range 4).countP fun i => (followerIn? .standard sharedFollower index i).isNone) =
        (Partition.ofEdges 4 (Glyph.links .standard sharedFollower index)).classes.length := by
  obtain ⟨index, hindex⟩ : ∃ index, Glyph.index? ⟨0, 0, 100, 100⟩ sharedFollower = some index :=
    Option.isSome_iff_exists.mp (by decide +kernel)
  obtain ⟨-, segments, hsegments, hforward, hcount, -⟩ := ofGlyphs_trees .standard hindex
  have horder : (ofGlyphs? .standard ⟨0, 0, 100, 100⟩ sharedFollower).map (·.map (·.glyphs)) =
      some [[1, 2, 0]] := by
    decide +kernel
  rw [hsegments] at horder
  exact ⟨index, segments, hindex, hsegments, Option.some.inj horder, hforward, hcount.symm⟩

end Segment

end GlyphTable
