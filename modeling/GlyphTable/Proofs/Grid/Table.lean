import GlyphTable.Proofs.Grid.Segments
import GlyphTable.Proofs.Row.Arranged

/-!
# The table of a grid

Clustering the page of a grid gives the grid back: a row for each of its rows that has a text,
and in it the texts from left to right (`Grid.cluster_restores`).
-/

namespace GlyphTable

open Binary64 (Whole Near)

namespace Word

variable {w v : Word} {a b : Block}

section

variable (ha : w.Printed a) (hb : v.Printed b)

include ha hb

theorem Printed.sharesRow (hrow : w.row = v.row) : a.SharesRow b := by
  have htop := ha.bounds.top
  have hbottom := ha.bounds.bottom
  have hcenter := center_y_near hb.wellSpaced hb.bounds
  rw [← hrow] at hcenter
  exact .inl ⟨Binary64.le_of_lt (htop.lt_near hcenter (by simp only [frame]; omega)),
    Binary64.le_of_lt (hcenter.lt_whole hbottom (by simp only [frame]; omega))⟩

theorem Printed.not_sharesRow (hrow : w.row < v.row) : ¬ a.SharesRow b ∧ a.box.top < b.box.top := by
  have hacenter := center_y_near ha.wellSpaced ha.bounds
  have hbcenter := center_y_near hb.wellSpaced hb.bounds
  constructor
  · rintro (⟨-, hle⟩ | ⟨hle, -⟩)
    · have hlt := ha.bounds.bottom.lt_near hbcenter (by simp only [frame]; omega)
      exact Binary64.lt_irrefl _ (Binary64.lt_of_lt_of_le hlt hle)
    · have hlt := hacenter.lt_whole hb.bounds.top (by simp only [frame]; omega)
      exact Binary64.lt_irrefl _ (Binary64.lt_of_lt_of_le hlt hle)
  · refine (ha.bounds.top.lt_iff hb.bounds.top).mpr ?_
    simp only [frame]
    omega

/-- Columns leave room for 20 characters. -/
theorem Printed.not_sharesColumn (hcol : w.col < v.col) :
    ¬ a.SharesColumn b ∧ a.box.left < b.box.left := by
  have hlength := ha.wellSpaced.length_le
  constructor
  · rintro ⟨-, hle⟩
    have hle := (hb.bounds.left.le_iff ha.bounds.right).mp hle
    simp only [frame] at hle
    omega
  · refine (ha.bounds.left.lt_iff hb.bounds.left).mpr ?_
    simp only [frame]
    omega

end

theorem Printed.valid (h : w.Printed b) : b.box.Valid :=
  (h.bounds.finite (by simp only [frame]; omega) (by simp only [frame]; omega)).valid

end Word

namespace Grid

variable {g : Grid}

def textRows (g : Grid) : List (List Word) :=
  g.wordRows.filter (· ≠ [])

theorem flatten_textRows (g : Grid) : g.textRows.flatten = g.words :=
  List.flatten_filter_ne_nil

theorem arranged_of_printed {groups : List (List Block)}
    (h : List.Forall₂ (List.Forall₂ Word.Printed) g.textRows groups) : Row.Arranged groups := by
  have hmem {group : List Block} (hgroup : group ∈ groups) :
      ∃ row ∈ g.wordRows, row ≠ [] ∧ List.Forall₂ Word.Printed row group := by
    obtain ⟨row, hrow, hprinted⟩ := exists_of_mem_forall₂ h hgroup
    obtain ⟨hrow, hne⟩ := List.mem_filter.mp hrow
    exact ⟨row, hrow, of_decide_eq_true hne, hprinted⟩
  refine ⟨fun group hgroup hnil => ?_, fun group hgroup b hb => ?_,
    fun group hgroup a ha b hb => ?_,
    fun group hgroup => ?_, ?_⟩
  · obtain ⟨row, -, hne, hprinted⟩ := hmem hgroup
    rw [hnil, List.forall₂_nil_right_iff] at hprinted
    exact hne hprinted
  · obtain ⟨row, -, -, hprinted⟩ := hmem hgroup
    obtain ⟨w, -, hw⟩ := exists_of_mem_forall₂ hprinted hb
    exact hw.valid
  · obtain ⟨row, hrow, -, hprinted⟩ := hmem hgroup
    obtain ⟨w, hw, hwa⟩ := exists_of_mem_forall₂ hprinted ha
    obtain ⟨v, hv, hvb⟩ := exists_of_mem_forall₂ hprinted hb
    exact hwa.sharesRow hvb (g.row_eq_of_mem hrow hw hv)
  · obtain ⟨row, hrow, -, hprinted⟩ := hmem hgroup
    exact pairwise_of_forall₂ hprinted (g.wordRows_inside row hrow) fun w v a b ha hb hwv =>
      ha.not_sharesColumn hb hwv.2
  · refine pairwise_of_forall₂ h (g.wordRows_pairwise.filter _)
      fun row below group group' hrow hbelow hlt => ?_
    intro a ha b hb
    obtain ⟨w, hw, hwa⟩ := exists_of_mem_forall₂ hrow ha
    obtain ⟨v, hv, hvb⟩ := exists_of_mem_forall₂ hbelow hb
    exact hwa.not_sharesRow hvb (hlt w hw v hv)

theorem map_texts_textRows (g : Grid) :
    g.textRows.map (·.map (·.text)) = (g.map (·.filterMap id)).filter (· ≠ []) := by
  rw [← map_texts_wordRows, List.filter_map]
  refine congrArg (List.map _) (List.filter_congr fun row _ => ?_)
  simp

/-- A grid of texts that leave room between them comes back from the page that it is laid out
on: the tree of the glyphs is divided to an end, and the rows are those of the grid that have a
text, with their texts in sequence. -/
theorem cluster_restores (h : ∀ w ∈ g.words, w.WellSpaced) :
    ∃ q o, g.page.cluster? .standard [] = some (q, o) ∧
      q.rows.map Row.texts = (g.map (·.filterMap id)).filter (· ≠ []) := by
  obtain ⟨index, hindex⟩ := exists_index? h
  obtain ⟨q, o, hq⟩ := Page.exists_cluster?_of_index .standard [] hindex
  obtain ⟨_, -, hclusters⟩ := Page.exists_clusters hq
  have hblocks := stacked_printed h hq
  rw [← flatten_textRows] at hblocks
  obtain ⟨groups, hflatten, hgroups⟩ := exists_groups_of_forall₂ hblocks
  have htexts : groups.map (·.map (·.text)) = g.textRows.map (·.map (·.text)) :=
    map_eq_of_forall₂ (hgroups.imp fun row group hrow =>
      map_eq_of_forall₂ (hrow.imp fun w b hb => hb.text))
  refine ⟨q, o, hq, ?_⟩
  rw [hclusters.rows_eq, ← hflatten, Row.texts_arrange (arranged_of_printed hgroups), htexts,
    map_texts_textRows]

def inventory : Grid :=
  [[some "Item", none, some "Größe"], [none, none], [], [none, some "a 2", some "b"]]

theorem inventory_restored : (∀ w ∈ inventory.words, w.WellSpaced) ∧
    ∃ q o, inventory.page.cluster? .standard [] = some (q, o) ∧
      q.rows.map Row.texts = [["Item", "Größe"], ["a 2", "b"]] := by
  have h : ∀ w ∈ inventory.words, w.WellSpaced := by decide +kernel
  obtain ⟨q, o, hq, htexts⟩ := cluster_restores h
  exact ⟨h, q, o, hq, htexts.trans (by decide)⟩

end Grid

end GlyphTable
