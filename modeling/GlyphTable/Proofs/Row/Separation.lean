import GlyphTable.Proofs.Row.Cells

/-!
# Rows and cells do not interleave

Two blocks that share no row stand one above the other, and no third block can be above one
and below the other of two that do share one. So all of one row is above all of another,
whatever the heights of their cells (`Block.rows_ordered`), and in the same way the cells of
a row stand clear of each other.
-/

namespace GlyphTable

namespace Block

def Above (a b : Block) : Prop :=
  a.box.vertical.center < b.box.top ∧ a.box.bottom < b.box.vertical.center

def Before (a b : Block) : Prop :=
  a.box.right < b.box.left

theorem above_or_above {a b : Block} (ha : a.box.Bounded) (hb : b.box.Bounded)
    (h : ¬ a.SharesRow b) : a.Above b ∨ b.Above a := by
  obtain ⟨hatop, habottom⟩ := ha.center_between
  obtain ⟨hbtop, hbbottom⟩ := hb.center_between
  obtain ⟨-, hca, -⟩ := Binary64.le_iff.mp hatop
  obtain ⟨-, hcb, -⟩ := Binary64.le_iff.mp hbtop
  obtain ⟨hta, hba, -⟩ := Binary64.le_iff.mp ha.valid.2
  obtain ⟨htb, hbb, -⟩ := Binary64.le_iff.mp hb.valid.2
  obtain ⟨hab, hba'⟩ := not_or.mp h
  -- Whichever center comes first, it must come before the other block's top.
  rcases Binary64.lt_or_le hcb hca with hlt | hle
  · right
    have hle := Binary64.le_of_lt hlt
    constructor
    · refine (Binary64.lt_or_le hcb hta).resolve_right fun htop => ?_
      exact hab ⟨htop, Binary64.le_trans hle habottom⟩
    · refine (Binary64.lt_or_le hbb hca).resolve_right fun hbottom => ?_
      exact hba' ⟨Binary64.le_trans hbtop hle, hbottom⟩
  · left
    constructor
    · refine (Binary64.lt_or_le hca htb).resolve_right fun htop => ?_
      exact hba' ⟨htop, Binary64.le_trans hle hbbottom⟩
    · refine (Binary64.lt_or_le hba hcb).resolve_right fun hbottom => ?_
      exact hab ⟨Binary64.le_trans hatop hle, hbottom⟩

/-- No block stands between two that share a row. -/
theorem not_sharesRow_of_above {a b c : Block} (ha : a.box.Bounded) (hb : b.box.Bounded)
    (hab : a.Above b) (hca : c.Above a) : ¬ b.SharesRow c := by
  have hat := ha.center_between.1
  have hbt := hb.center_between.1
  rintro (⟨hle, -⟩ | ⟨-, hle⟩)
  · -- The top of `b` would lie above the middle of `c`.
    have hlt := Binary64.lt_of_lt_of_le hca.1 hat
    exact Binary64.lt_irrefl _ (Binary64.lt_of_le_of_lt hle (Binary64.lt_trans hlt hab.1))
  · -- The middle of `b` would lie above the end of `c`.
    have hlt := Binary64.lt_of_lt_of_le (Binary64.lt_trans hca.2 hab.1) hbt
    exact Binary64.lt_irrefl _ (Binary64.lt_of_le_of_lt hle hlt)

theorem Above.top_lt {a b : Block} (ha : a.box.Bounded) (h : a.Above b) : a.box.top < b.box.top :=
  Binary64.lt_of_le_of_lt ha.center_between.1 h.1

theorem before_or_before {a b : Block} (ha : a.box.Valid) (hb : b.box.Valid)
    (h : ¬ a.SharesColumn b) : a.Before b ∨ b.Before a := by
  obtain ⟨hla, hra, -⟩ := Binary64.le_iff.mp ha.1
  obtain ⟨hlb, hrb, -⟩ := Binary64.le_iff.mp hb.1
  rcases Binary64.lt_or_le hrb hla with hlt | hle
  · exact .inr hlt
  · left
    exact (Binary64.lt_or_le hra hlb).resolve_right fun hle' => h ⟨hle, hle'⟩

/-- No block stands between two that share a column. -/
theorem not_sharesColumn_of_before {a b c : Block} (ha : a.box.Valid) (hab : a.Before b)
    (hca : c.Before a) : ¬ b.SharesColumn c := by
  rintro ⟨hle, -⟩
  have hlt := Binary64.lt_trans (Binary64.lt_of_lt_of_le hca ha.1) hab
  exact Binary64.lt_irrefl _ (Binary64.lt_of_le_of_lt hle hlt)

theorem rows_ordered {blocks : List Block} (h : ∀ b ∈ blocks, b.box.Bounded) :
    (grouped (fun a b => a.SharesRow b) blocks).Pairwise fun g k =>
      (∀ a ∈ g, ∀ b ∈ k, a.box.top < b.box.top) ∨ ∀ a ∈ g, ∀ b ∈ k, b.box.top < a.box.top := by
  have hgrouping := rows_grouping blocks
  have hordered := hgrouping.ordered (fun _ _ => SharesRow.symm) (B := Above)
    (fun a ha b hb hab => above_or_above (h a ha) (h b hb) hab)
    fun a ha b hb c hc hab hca => not_sharesRow_of_above (h a ha) (h b hb) hab hca
  refine hordered.imp_of_mem fun {g k} hg hk hgk => ?_
  refine hgk.imp (fun habove a ha b hb => ?_) fun habove a ha b hb => ?_
  · exact (habove a ha b hb).top_lt (h a (hgrouping.subset hg a ha))
  · exact (habove a ha b hb).top_lt (h b (hgrouping.subset hk b hb))

theorem columns_ordered {blocks : List Block} (h : ∀ b ∈ blocks, b.box.Valid) :
    (grouped (fun a b => a.SharesColumn b) blocks).Pairwise fun g k =>
      (∀ a ∈ g, ∀ b ∈ k, a.Before b) ∨ ∀ a ∈ g, ∀ b ∈ k, b.Before a :=
  (columns_grouping blocks).ordered (fun _ _ => SharesColumn.symm)
    (fun a ha b hb hab => before_or_before (h a ha) (h b hb) hab)
    fun a ha _ _ _ _ hab hca => not_sharesColumn_of_before (h a ha) hab hca

end Block

end GlyphTable
