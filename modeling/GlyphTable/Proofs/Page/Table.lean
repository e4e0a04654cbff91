import GlyphTable.Proofs.Page.Trace
import GlyphTable.Proofs.Page.Vetoed
import GlyphTable.Proofs.Row.Table

/-!
# A page keeps its table

Clustering bounded glyphs makes a table (`Page.cluster_table`). A patch takes a cell out of
a row or writes a text, and either way leaves a table with as many rows (`Page.Keeps`): the
tops that remain in the row were there before.
-/

namespace GlyphTable

-- ---------------------------------------------------------------------------
-- From glyphs to rows
-- ---------------------------------------------------------------------------

theorem Segment.ofMembers?_bounded {glyphs : Array Glyph} (h : ∀ g ∈ glyphs, g.box.Bounded)
    {members : List Nat} {s : Segment} (hs : ofMembers? glyphs members = some s) :
    s.box.Bounded := by
  simp only [ofMembers?, Option.bind_eq_bind, Option.bind_eq_some_iff, Option.ite_none_left_eq_some,
    Option.pure_def, Option.some.injEq] at hs
  obtain ⟨i, -, lowest, -, head, -, box, hhull, -, rfl⟩ := hs
  refine Box.hull?_bounded (fun a ha => ?_) hhull
  obtain ⟨g, hg, rfl⟩ := List.mem_map.mp ha
  obtain ⟨j, -, hj⟩ := List.mem_filterMap.mp hg
  exact h g (Array.mem_of_getElem? hj)

theorem Segment.ofLinks_bounded {glyphs : Array Glyph} (h : ∀ g ∈ glyphs, g.box.Bounded)
    (links : List (Nat × Nat)) : ∀ t ∈ ofLinks glyphs links, t.box.Bounded := by
  intro t ht
  obtain ⟨c, -, hc⟩ := List.mem_filterMap.mp (mem_sortStably.mp ht)
  exact ofMembers?_bounded h hc

theorem Block.ofSegments_bounded {segments : Array Segment} (h : ∀ s ∈ segments, s.box.Bounded)
    (vetoes : List Veto) : ∀ b ∈ (ofSegments segments vetoes).1, b.box.Bounded := by
  intro b hb
  obtain ⟨c, -, hc⟩ := List.mem_filterMap.mp hb
  simp only [ofMembers?, Option.bind_eq_bind, Option.bind_eq_some_iff, Option.pure_def,
    Option.some.injEq] at hc
  obtain ⟨i, -, lowest, -, head, -, box, hhull, rfl⟩ := hc
  refine Box.hull?_bounded (fun a ha => ?_) hhull
  obtain ⟨s, hs, rfl⟩ := List.mem_map.mp ha
  obtain ⟨j, -, hj⟩ := List.mem_filterMap.mp hs
  exact h s (Array.mem_of_getElem? hj)

theorem Page.cluster_table {p q : Page} (h : ∀ g ∈ p.glyphs, g.box.Bounded) {s : Spacing}
    {vetoes : List Veto} {o : Outcome} (hq : p.cluster? s vetoes = some (q, o)) :
    Row.Table q.rows := by
  obtain ⟨index, -, hclusters⟩ := exists_clusters hq
  rw [hclusters.rows_eq]
  refine Row.arrange_table (Block.ofSegments_bounded (fun t ht => ?_) vetoes)
  rw [hclusters.segments_eq] at ht
  exact Segment.ofLinks_bounded h _ t (List.mem_toArray.mp ht)

-- ---------------------------------------------------------------------------
-- Changing a row
-- ---------------------------------------------------------------------------

namespace Row

theorem Framed.eraseIdx {boxes : List Box} {box : Box} (h : Framed boxes box) (i : Nat) :
    Framed (boxes.eraseIdx i) ((Box.hull? (boxes.eraseIdx i)).getD box) := by
  refine ⟨fun hne => ?_, fun b hb => h.valid b (List.mem_of_mem_eraseIdx hb), h.apart.eraseIdx i⟩
  obtain ⟨a, ha⟩ := Box.hull?_isSome hne
  rw [ha]
  rfl

theorem Framed.top_eraseIdx {boxes : List Box} {box : Box} (h : Framed boxes box) (i : Nat) :
    ((Box.hull? (boxes.eraseIdx i)).getD box).top ∈ box.top :: boxes.map (·.top) := by
  cases hhull : Box.hull? (boxes.eraseIdx i) with
  | none => exact List.mem_cons_self
  | some a =>
    obtain ⟨b, hb, htop⟩ := (Box.hull?_isHull (h.eraseIdx i).valid hhull).top_mem
    rw [Option.getD_some, ← htop]
    exact List.mem_cons_of_mem _ (List.mem_map_of_mem (List.mem_of_mem_eraseIdx hb))

def Placed (i : Nat) (r : Row) : Prop :=
  ∀ (j : Nat) (b : Block), r.blocks[j]? = some b → b.row = i ∧ b.col = j

theorem Placed.removeAt {i : Nat} {r : Row} (h : r.Placed i) (col : Nat) :
    (r.removeAt col).Placed i := by
  intro j b hb
  rw [Row.removeAt, List.getElem?_append] at hb
  split at hb
  · next hlt =>
    rw [List.length_take] at hlt
    rw [List.getElem?_take_of_lt (by omega)] at hb
    exact h j b hb
  · next hge =>
    rw [List.getElem?_map] at hb
    obtain ⟨c, hc, rfl⟩ := Option.map_eq_some_iff.mp hb
    rw [List.getElem?_drop] at hc
    obtain ⟨hrow, hcol⟩ := h _ c hc
    have hlt := (List.getElem?_eq_some_iff.mp hc).1
    rw [List.length_take] at hge hcol hlt
    refine ⟨hrow, ?_⟩
    -- A cell behind the removed one has a column to give up.
    show wordBefore c.col = j
    rw [wordBefore_of_pos (by omega)]
    omega

theorem Table.modify {rows : List Row} (h : Table rows) (i : Nat) (f : Row → Row)
    (hplaced : ∀ r, Placed i r → Placed i (f r))
    (hframed : ∀ r, Framed r.boxes r.box →
      Framed (f r).boxes (f r).box ∧ ∀ x ∈ (f r).tops, x ∈ r.tops) :
    Table (rows.modify i f) := by
  obtain ⟨hplace, hframe, hover⟩ := h
  refine ⟨fun k r hr => ?_, fun r hr => ?_, ?_⟩
  · rw [List.getElem?_modify] at hr
    obtain ⟨s, hs, rfl⟩ := Option.map_eq_some_iff.mp hr
    by_cases hik : i = k
    · subst hik
      simp only [if_true]
      exact hplaced s (hplace i s hs)
    · simp only [if_neg hik]
      exact hplace k s hs
  · obtain ⟨k, hk⟩ := List.mem_iff_getElem?.mp hr
    rw [List.getElem?_modify] at hk
    obtain ⟨s, hs, rfl⟩ := Option.map_eq_some_iff.mp hk
    have hs := hframe s (List.mem_of_getElem? hs)
    split
    · exact (hframed s hs).1
    · exact hs
  · have htops (k : Nat) (hk : k < rows.length) :
        ∀ x ∈ (if i = k then f rows[k] else rows[k]).tops, x ∈ rows[k].tops := by
      intro x hx
      split at hx
      · exact (hframed _ (hframe _ (List.getElem_mem hk))).2 x hx
      · exact hx
    rw [List.pairwise_iff_getElem] at hover ⊢
    intro k m hk hm hkm x hx y hy
    rw [List.length_modify] at hk hm
    rw [List.getElem_modify] at hx hy
    exact hover k m hk hm hkm x (htops k hk x hx) y (htops m hm y hy)

theorem Table.removeAt {rows : List Row} (h : Table rows) (i col : Nat) :
    Table (rows.modify i (·.removeAt col)) := by
  refine h.modify i _ (fun r hr => hr.removeAt col) fun r hr => ?_
  have hboxes : (r.removeAt col).boxes = r.boxes.eraseIdx col := r.map_removeAt (fun _ _ => rfl) col
  have hbox : (r.removeAt col).box = (Box.hull? (r.boxes.eraseIdx col)).getD r.box := by
    rw [← hboxes]
    rfl
  rw [tops, hboxes, hbox]
  refine ⟨hr.eraseIdx col, fun x hx => ?_⟩
  rcases List.mem_cons.mp hx with rfl | hx
  · exact hr.top_eraseIdx col
  · obtain ⟨b, hb, rfl⟩ := List.mem_map.mp hx
    exact List.mem_cons_of_mem _ (List.mem_map_of_mem (List.mem_of_mem_eraseIdx hb))

end Row

-- ---------------------------------------------------------------------------
-- Changing a page
-- ---------------------------------------------------------------------------

theorem foldlM_preserves {σ α : Type} {K : σ → σ → Prop} (hrefl : ∀ s, K s s)
    (htrans : ∀ s t u, K s t → K t u → K s u) {step : σ → α → Except TableError σ}
    (hstep : ∀ s a t, step s a = .ok t → K s t) {l : List α} {s t : σ}
    (h : l.foldlM step s = .ok t) : K s t := by
  induction l generalizing s with
  | nil =>
    cases h
    exact hrefl _
  | cons a rest ih =>
    obtain ⟨u, hfirst, hrest⟩ := foldlM_cons_eq_ok.mp h
    exact htrans s u t (hstep s a u hfirst) (ih hrest)

theorem attempt_preserves {σ : Type} {K : σ → σ → Prop} {s : σ} (hrefl : K s s)
    {result : Except TableError σ} (h : ∀ t, result = .ok t → K s t) :
    K s (attempt s result).1 := by
  cases result with
  | ok t => exact h t rfl
  | error e => exact hrefl

namespace Page

theorem modifyText_table {p : Page} (h : Row.Table p.rows) (i j : Nat) (text : String) :
    Row.Table (p.modifyBlock i j ({ · with text })).rows := by
  refine h.modify i _ (fun r hr k b hb => ?_) fun r hr => ?_
  · rw [List.getElem?_modify] at hb
    obtain ⟨c, hc, rfl⟩ := Option.map_eq_some_iff.mp hb
    split <;> exact hr k c hc
  · have hboxes : Row.boxes { r with blocks := r.blocks.modify j ({ · with text }) } = r.boxes :=
      (map_modify (g := Block.box) (fun _ => rfl) r.blocks j).trans (List.modify_id j _)
    rw [Row.tops, hboxes]
    exact ⟨hr, fun x hx => hx⟩

/-- Whether a table stays one, with as many rows. -/
def Keeps (p q : Page) : Prop :=
  q.rows.length = p.rows.length ∧ (Row.Table p.rows → Row.Table q.rows)

theorem Keeps.refl (p : Page) : p.Keeps p :=
  ⟨rfl, id⟩

theorem Keeps.trans {p q r : Page} (hpq : p.Keeps q) (hqr : q.Keeps r) : p.Keeps r :=
  ⟨hqr.1.trans hpq.1, fun h => hqr.2 (hpq.2 h)⟩

theorem keeps_edit (p : Page) (i j : Nat) (e : Edit) : p.Keeps (p.edit i j e) := by
  cases e with
  | replace text => exact ⟨List.length_modify .., fun h => modifyText_table h i j text⟩
  | remove => exact ⟨List.length_modify .., fun h => h.removeAt i j⟩

theorem keeps_apply {p q : Page} {patch : Patch} (h : p.apply patch = .ok q) : p.Keeps q := by
  rw [apply] at h
  split at h
  · split at h
    · cases h
      exact p.keeps_edit _ _ _
    · cases h
  · cases h

theorem keeps_applyAll {p q : Page} {patches : List Patch} (h : p.applyAll patches = .ok q) :
    p.Keeps q :=
  foldlM_preserves Keeps.refl (fun _ _ _ => Keeps.trans) (fun _ _ _ => keeps_apply) h

theorem keeps_setText {p q : Page} {row col : Int} {text : String}
    (h : p.setText? row col text = some q) :
    p.Keeps q := by
  obtain ⟨⟨i, j⟩, -, rfl⟩ := Option.map_eq_some_iff.mp h
  exact ⟨List.length_modify .., fun h => modifyText_table h i j text⟩

end Page

end GlyphTable
