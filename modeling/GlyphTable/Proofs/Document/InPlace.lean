import GlyphTable.InPlace
import GlyphTable.Proofs.Page.Trace

/-!
# All or nothing

`Document.patching_allOrNothing`: a catalog is applied as a whole, and then every patch
found what the ones before it had left; or nothing of it is, and the error is that of the
first obstacle. The same holds of the patches of one page, and of one patch. What a page puts
back after a failure are its rows, which is enough because patches write to nothing else
(`Page.patchInPlace_settles`).
-/

namespace GlyphTable

-- ---------------------------------------------------------------------------
-- Changes in turn
-- ---------------------------------------------------------------------------

section

variable {σ α : Type}

/-- The changes lead from one state to the other, each from what the ones before it left. -/
inductive InTurn (Changes : σ → α → σ → Prop) : σ → List α → σ → Prop
  | nil {s : σ} : InTurn Changes s [] s
  | cons {s t u : σ} {a : α} {rest : List α} : Changes s a t → InTurn Changes t rest u →
      InTurn Changes s (a :: rest) u

/-- The error is that of the first change that fails, at what the ones before it left. -/
inductive FirstFailure (Changes : σ → α → σ → Prop) (Fails : σ → α → TableError → Prop) :
    σ → List α → TableError → Prop
  | here {s : σ} {a : α} {rest : List α} {e : TableError} : Fails s a e →
      FirstFailure Changes Fails s (a :: rest) e
  | later {s t : σ} {a : α} {rest : List α} {e : TableError} : Changes s a t →
      FirstFailure Changes Fails t rest e → FirstFailure Changes Fails s (a :: rest) e

/-- An attempt either comes to what `Done` allows, or leaves the state as it was, with an error
that `Fails` allows. -/
structure AllOrNothing (s : σ) (outcome : σ × Except TableError Unit) (Done : σ → Prop)
    (Fails : TableError → Prop) : Prop where
  ok_iff : ∀ t, outcome = (t, .ok ()) ↔ Done t
  error_iff : ∀ t e, outcome = (t, .error e) ↔ t = s ∧ Fails e

variable {s : σ} {outcome : σ × Except TableError Unit} {Done : σ → Prop}
    {Fails : TableError → Prop}

theorem AllOrNothing.cases (h : AllOrNothing s outcome Done Fails) :
    (∃ t, Done t ∧ outcome = (t, .ok ())) ∨ ∃ e, Fails e ∧ outcome = (s, .error e) := by
  obtain ⟨t, result⟩ := outcome
  cases result with
  | ok => exact .inl ⟨t, (h.ok_iff t).mp rfl, rfl⟩
  | error e =>
    obtain ⟨rfl, he⟩ := (h.error_iff t e).mp rfl
    exact .inr ⟨e, he, rfl⟩

theorem AllOrNothing.of_cases
    (h : (∃ t, Done t ∧ outcome = (t, .ok ())) ∨ ∃ e, Fails e ∧ outcome = (s, .error e))
    (hdone : ∀ t u, Done t → Done u → t = u) (hfails : ∀ e f, Fails e → Fails f → e = f)
    (hboth : ∀ t e, Done t → ¬ Fails e) : AllOrNothing s outcome Done Fails := by
  constructor
  · intro t
    rcases h with ⟨u, hu, rfl⟩ | ⟨e, he, rfl⟩
    · rw [Prod.mk.injEq, and_iff_left rfl]
      exact ⟨fun heq => heq ▸ hu, hdone u t hu⟩
    · exact ⟨fun heq => (by cases heq), fun ht => absurd he (hboth t e ht)⟩
  · intro t f
    rcases h with ⟨u, hu, rfl⟩ | ⟨e, he, rfl⟩
    · exact ⟨fun heq => (by cases heq), fun hf => absurd hf.2 (hboth u f hu)⟩
    · rw [Prod.mk.injEq, Except.error.injEq, eq_comm]
      exact and_congr_right fun _ => ⟨fun heq => heq ▸ he, hfails e f he⟩

theorem AllOrNothing.done_unique (h : AllOrNothing s outcome Done Fails) {t u : σ} (ht : Done t)
    (hu : Done u) : t = u :=
  congrArg Prod.fst (((h.ok_iff t).mpr ht).symm.trans ((h.ok_iff u).mpr hu))

theorem AllOrNothing.fails_unique (h : AllOrNothing s outcome Done Fails) {e f : TableError}
    (he : Fails e) (hf : Fails f) : e = f := by
  have heq := ((h.error_iff s e).mpr ⟨rfl, he⟩).symm.trans ((h.error_iff s f).mpr ⟨rfl, hf⟩)
  exact Except.error.inj (congrArg Prod.snd heq)

theorem AllOrNothing.not_fails (h : AllOrNothing s outcome Done Fails) {t : σ} {e : TableError}
    (ht : Done t) : ¬ Fails e := by
  intro he
  have heq := ((h.ok_iff t).mpr ht).symm.trans ((h.error_iff s e).mpr ⟨rfl, he⟩)
  cases congrArg Prod.snd heq

end

section

variable {σ α : Type} {Changes : σ → α → σ → Prop} {Fails : σ → α → TableError → Prop}
  {change : σ → α → σ × Except TableError Unit} {restore : σ → σ → σ}

/-- Every single change is made or not, and if it is, `restore` puts back what it touched. -/
structure Settles (Changes : σ → α → σ → Prop) (Fails : σ → α → TableError → Prop)
    (change : σ → α → σ × Except TableError Unit) (restore : σ → σ → σ) : Prop where
  single : ∀ s a, AllOrNothing s (change s a) (Changes s a) (Fails s a)
  restored : ∀ first s a t, Changes s a t → restore first t = restore first s

theorem Settles.changeInTurn_cases (h : Settles Changes Fails change restore) (first s : σ)
    (l : List α) :
    (∃ t, InTurn Changes s l t ∧ changeInTurn change s l = (t, .ok ())) ∨
      ∃ t e, FirstFailure Changes Fails s l e ∧ changeInTurn change s l = (t, .error e) ∧
        restore first t = restore first s := by
  induction l generalizing s with
  | nil => exact .inl ⟨s, .nil, rfl⟩
  | cons a rest ih =>
    rw [changeInTurn]
    rcases (h.single s a).cases with ⟨t, ht, heq⟩ | ⟨e, he, heq⟩ <;> rw [heq]
    · rcases ih t with ⟨u, hu, hrest⟩ | ⟨u, e, he, hrest, hrestored⟩
      · exact .inl ⟨u, .cons ht hu, hrest⟩
      · exact .inr ⟨u, e, .later ht he, hrest, hrestored.trans (h.restored first s a t ht)⟩
    · exact .inr ⟨s, e, .here he, rfl, rfl⟩

theorem Settles.inTurn_unique (h : Settles Changes Fails change restore) {s t u : σ} {l : List α}
    (ht : InTurn Changes s l t) (hu : InTurn Changes s l u) : t = u := by
  induction ht with
  | nil => cases hu; rfl
  | @cons s v t a rest hchange hrest ih =>
    cases hu with
    | cons hchange' hrest' =>
      obtain rfl := (h.single s a).done_unique hchange hchange'
      exact ih hrest'

theorem Settles.firstFailure_unique (h : Settles Changes Fails change restore) {s : σ} {l : List α}
    {e f : TableError} (he : FirstFailure Changes Fails s l e)
    (hf : FirstFailure Changes Fails s l f) : e = f := by
  induction he with
  | @here s a rest e hfails =>
    cases hf with
    | here hfails' => exact (h.single s a).fails_unique hfails hfails'
    | later hchange _ => exact absurd hfails ((h.single s a).not_fails hchange)
  | @later s t a rest e hchange hrest ih =>
    cases hf with
    | here hfails => exact absurd hfails ((h.single s a).not_fails hchange)
    | later hchange' hrest' =>
      obtain rfl := (h.single s a).done_unique hchange hchange'
      exact ih hrest'

theorem Settles.not_firstFailure (h : Settles Changes Fails change restore) {s t : σ} {l : List α}
    {e : TableError} (ht : InTurn Changes s l t) : ¬ FirstFailure Changes Fails s l e := by
  intro he
  induction ht with
  | nil => cases he
  | @cons s v t a rest hchange hrest ih =>
    cases he with
    | here hfails => exact (h.single s a).not_fails hchange hfails
    | later hchange' hrest' =>
      obtain rfl := (h.single s a).done_unique hchange hchange'
      exact ih hrest'

/-- Changes in turn with a way back are made all together or not at all. -/
theorem Settles.allOrNothing (h : Settles Changes Fails change restore) {s : σ}
    (hs : restore s s = s) (l : List α) :
    AllOrNothing s (puttingBack (restore s) (changeInTurn change s l)) (InTurn Changes s l)
      (FirstFailure Changes Fails s l) := by
  refine .of_cases ?_ (fun _ _ => h.inTurn_unique) (fun _ _ => h.firstFailure_unique)
    fun _ _ => h.not_firstFailure
  rcases h.changeInTurn_cases s s l with ⟨t, ht, heq⟩ | ⟨t, e, he, heq, hrestored⟩ <;> rw [heq]
  · exact .inl ⟨t, ht, rfl⟩
  · exact .inr ⟨e, he, by rw [puttingBack, hrestored, hs]⟩

def finished : σ × Except TableError Unit → Except TableError σ
  | (s, .ok ()) => .ok s
  | (_, .error e) => .error e

theorem AllOrNothing.eq_attempt {s : σ} {outcome : σ × Except TableError Unit} {Done : σ → Prop}
    {Fails : TableError → Prop} (h : AllOrNothing s outcome Done Fails) :
    outcome = attempt s (finished outcome) := by
  rcases h.cases with ⟨t, -, rfl⟩ | ⟨e, -, rfl⟩ <;> rfl

theorem finished_puttingBack (restore : σ → σ) (outcome : σ × Except TableError Unit) :
    finished (puttingBack restore outcome) = finished outcome := by
  obtain ⟨s, _ | _⟩ := outcome <;> rfl

theorem finished_changeInTurn (change : σ → α → σ × Except TableError Unit) (s : σ) (l : List α) :
    finished (changeInTurn change s l) = l.foldlM (fun s a => finished (change s a)) s := by
  induction l generalizing s with
  | nil => rfl
  | cons a rest ih =>
    rw [changeInTurn, List.foldlM_cons]
    cases change s a with | mk t result
    cases result with
    | ok => exact ih t
    | error e => rfl

end

-- ---------------------------------------------------------------------------
-- One page
-- ---------------------------------------------------------------------------

namespace Page

inductive Patched (p : Page) (patch : Patch) : Page → Prop
  | edit {row col : Nat} : p.cellAt? patch.row patch.col = some (row, col) →
      p.text? patch.row patch.col = some patch.expected →
      Patched p patch (p.edit row col patch.edit)

inductive Refuses (p : Page) (patch : Patch) : TableError → Prop
  | noCell : p.cellAt? patch.row patch.col = none →
      Refuses p patch (.noCell patch.row patch.col)
  | textMismatch {found : String} : p.text? patch.row patch.col = some found →
      found ≠ patch.expected →
      Refuses p patch (.textMismatch patch.row patch.col patch.expected found)

variable {p q : Page} {patch : Patch}

theorem text?_of_cellAt? {row col : Int} {i j : Nat} (h : p.cellAt? row col = some (i, j)) :
    ∃ text, p.text? row col = some text := by
  have hat := h
  rw [cellAt?_eq] at hat
  obtain ⟨cells, text, hi, hj⟩ := gridAt?_eq_some hat
  exact ⟨text, by rw [text?_eq h, hi]; exact hj⟩

theorem text?_of_cellAt?_eq_none {row col : Int} (h : p.cellAt? row col = none) :
    p.text? row col = none := by
  simp [text?, block?, h]

theorem Refuses.unique {e f : TableError} (he : p.Refuses patch e) (hf : p.Refuses patch f) :
    e = f := by
  cases he with
  | noCell hnone =>
    cases hf with
    | noCell => rfl
    | textMismatch hfound => simp [text?_of_cellAt?_eq_none hnone] at hfound
  | textMismatch hfound hne =>
    cases hf with
    | noCell hnone => simp [text?_of_cellAt?_eq_none hnone] at hfound
    | textMismatch hfound' =>
      rw [hfound] at hfound'
      rw [Option.some.inj hfound']

theorem Patched.unique {q' : Page} (h : p.Patched patch q) (h' : p.Patched patch q') : q = q' := by
  obtain ⟨hat, -⟩ := h
  obtain ⟨hat', -⟩ := h'
  rw [hat] at hat'
  cases hat'
  rfl

theorem Patched.not_refuses {e : TableError} (h : p.Patched patch q) : ¬ p.Refuses patch e := by
  obtain ⟨hat, htext⟩ := h
  rintro (hnone | ⟨hfound, hne⟩)
  · simp [hnone] at hat
  · rw [htext] at hfound
    exact hne (Option.some.inj hfound).symm

theorem patchInPlace_allOrNothing (p : Page) (patch : Patch) :
    AllOrNothing p (p.patchInPlace patch) (p.Patched patch) (p.Refuses patch) := by
  refine .of_cases ?_ (fun _ _ => Patched.unique) (fun _ _ => Refuses.unique)
    fun _ _ => Patched.not_refuses
  cases hat : p.cellAt? patch.row patch.col with
  | none => exact .inr ⟨_, .noCell hat, by simp only [patchInPlace, hat]⟩
  | some place =>
    obtain ⟨row, col⟩ := place
    obtain ⟨found, hfound⟩ := text?_of_cellAt? hat
    by_cases hexp : found = patch.expected
    · rw [hexp] at hfound
      exact .inl ⟨_, .edit hat hfound, by simp only [patchInPlace, hat, hfound, if_true]⟩
    · exact .inr ⟨_, .textMismatch hfound hexp, by
        simp only [patchInPlace, hat, hfound, hexp, if_false]⟩

def withRowsOf (first p : Page) : Page :=
  { p with rows := first.rows }

theorem patchInPlace_settles : Settles Patched Refuses patchInPlace withRowsOf := by
  refine ⟨patchInPlace_allOrNothing, fun first p patch q h => ?_⟩
  obtain ⟨-, -⟩ := h
  cases patch.edit <;> rfl

theorem finished_patchInPlace (p : Page) (patch : Patch) :
    finished (p.patchInPlace patch) = p.apply patch := by
  rw [patchInPlace, apply]
  cases p.cellAt? patch.row patch.col with
  | none => rfl
  | some place =>
    cases p.text? patch.row patch.col with
    | none => rfl
    | some found =>
      by_cases hexp : found = patch.expected <;> simp only [hexp, if_true, if_false, finished]

theorem patchAllInPlace_allOrNothing (p : Page) (patches : List Patch) :
    AllOrNothing p (p.patchAllInPlace patches) (InTurn Patched p patches)
      (FirstFailure Patched Refuses p patches) := by
  have hself : withRowsOf p p = p := rfl
  exact patchInPlace_settles.allOrNothing hself patches

theorem finished_patchAllInPlace (p : Page) (patches : List Patch) :
    finished (p.patchAllInPlace patches) = p.applyAll patches := by
  rw [patchAllInPlace, finished_puttingBack, finished_changeInTurn, applyAll]
  simp only [finished_patchInPlace]

end Page

-- ---------------------------------------------------------------------------
-- Whole documents
-- ---------------------------------------------------------------------------

namespace Document

inductive PagePatched (d : Document) (entry : Nat × List Patch) : Document → Prop
  | page {p q : Page} : d.page? entry.1 = some p → InTurn Page.Patched p entry.2 q →
      PagePatched d entry { d with pages := d.pages.set entry.1 q }

inductive PageRefuses (d : Document) (entry : Nat × List Patch) : TableError → Prop
  | noPage : d.page? entry.1 = none → PageRefuses d entry (.noPage entry.1)
  | patch {p : Page} {e : TableError} : d.page? entry.1 = some p →
      FirstFailure Page.Patched Page.Refuses p entry.2 e → PageRefuses d entry e

structure Patched (d : Document) (c : Catalog) (d' : Document) : Prop where
  document : c.document = d.id
  pages : ∀ n ∈ c.pages.map (·.1), n < d.pages.length
  inTurn : InTurn PagePatched d c.pages d'

/-- What is in the way of a catalog first. -/
inductive Refuses (d : Document) (c : Catalog) : TableError → Prop
  | foreign : c.document ≠ d.id → Refuses d c (.foreignCatalog d.id c.document)
  | noPage {n : Nat} : c.document = d.id →
      IsLeast {n | n ∈ c.pages.map (·.1) ∧ d.pages.length ≤ n} n → Refuses d c (.noPage n)
  | patch {e : TableError} : c.document = d.id → (∀ n ∈ c.pages.map (·.1), n < d.pages.length) →
      FirstFailure PagePatched PageRefuses d c.pages e → Refuses d c e

variable {d : Document} {entry : Nat × List Patch}

theorem patchPageInPlace_allOrNothing (d : Document) (entry : Nat × List Patch) :
    AllOrNothing d (d.patchPageInPlace entry) (d.PagePatched entry) (d.PageRefuses entry) := by
  have hpage (p : Page) := p.patchAllInPlace_allOrNothing entry.2
  refine .of_cases ?_ (fun d' d'' h h' => ?_) (fun e f he hf => ?_) (fun d' e h he => ?_)
  · cases hp : d.pages[entry.1]? with
    | none => exact .inr ⟨_, .noPage hp, by rw [patchPageInPlace, hp]⟩
    | some p =>
      rcases (hpage p).cases with ⟨q, hq, heq⟩ | ⟨e, he, heq⟩
      · exact .inl ⟨_, .page hp hq, by simp only [patchPageInPlace, hp, heq]⟩
      · refine .inr ⟨e, .patch hp he, ?_⟩
        obtain ⟨hlt, rfl⟩ := List.getElem?_eq_some_iff.mp hp
        simp only [patchPageInPlace, hp, heq, List.set_getElem_self]
  · obtain @⟨p, q, hp, hq⟩ := h
    obtain @⟨p', q', hp', hq'⟩ := h'
    obtain rfl := Option.some.inj (hp.symm.trans hp')
    rw [(hpage p).done_unique hq hq']
  · cases he with
    | noPage hnone =>
      cases hf with
      | noPage => rfl
      | patch hp => simp [hnone] at hp
    | patch hp he =>
      cases hf with
      | noPage hnone => simp [hnone] at hp
      | patch hp' hf =>
        obtain rfl := Option.some.inj (hp.symm.trans hp')
        exact (hpage _).fails_unique he hf
  · obtain @⟨p, q, hp, hq⟩ := h
    cases he with
    | noPage hnone => simp [hnone] at hp
    | patch hp' he =>
      obtain rfl := Option.some.inj (hp.symm.trans hp')
      exact (hpage p).not_fails hq he

def withPagesOf (first d : Document) : Document :=
  { d with pages := first.pages }

theorem patchPageInPlace_settles :
    Settles PagePatched PageRefuses patchPageInPlace withPagesOf := by
  refine ⟨patchPageInPlace_allOrNothing, fun first d entry d' h => ?_⟩
  obtain ⟨-, -⟩ := h
  rfl

theorem isLeast_of_find? {c : Catalog} {limit n : Nat} {patches : List Patch}
    (h : c.pages.find? (fun (n, _) => limit ≤ n) = some (n, patches)) :
    IsLeast {n | n ∈ c.pages.map (·.1) ∧ limit ≤ n} n := by
  obtain ⟨hn, before, after, hsplit, hbefore⟩ := List.find?_eq_some_iff_append.mp h
  have hasc := c.ascending
  rw [hsplit, List.map_append, List.map_cons, List.pairwise_append] at hasc
  refine ⟨⟨by simp [hsplit], by simpa using hn⟩, fun m ⟨hm, hlimit⟩ => ?_⟩
  rw [hsplit, List.map_append, List.map_cons, List.mem_append, List.mem_cons] at hm
  rcases hm with hm | rfl | hm
  · obtain ⟨x, hx, rfl⟩ := List.mem_map.mp hm
    exact absurd hlimit (by simpa using hbefore x hx)
  · exact Nat.le_refl _
  · exact Nat.le_of_lt ((List.pairwise_cons.mp hasc.2.1).1 m hm)

theorem forall_lt_of_find? {c : Catalog} {limit : Nat}
    (h : c.pages.find? (fun (n, _) => limit ≤ n) = none) : ∀ n ∈ c.pages.map (·.1), n < limit := by
  intro n hn
  obtain ⟨x, hx, rfl⟩ := List.mem_map.mp hn
  simpa using List.find?_eq_none.mp h x hx

theorem Refuses.unique {c : Catalog} {e f : TableError} (he : d.Refuses c e) (hf : d.Refuses c f) :
    e = f := by
  have hmissing {n : Nat} (hn : IsLeast {n | n ∈ c.pages.map (·.1) ∧ d.pages.length ≤ n} n) :
      ¬ ∀ n ∈ c.pages.map (·.1), n < d.pages.length :=
    fun hall => Nat.not_lt.mpr hn.1.2 (hall n hn.1.1)
  cases he with
  | foreign hne =>
    cases hf with
    | foreign => rfl
    | noPage hid => exact absurd hid hne
    | patch hid => exact absurd hid hne
  | noPage hid hn =>
    cases hf with
    | foreign hne => exact absurd hid hne
    | noPage _ hm => rw [hn.unique hm]
    | patch _ hall => exact absurd hall (hmissing hn)
  | patch hid hall hfirst =>
    cases hf with
    | foreign hne => exact absurd hid hne
    | noPage _ hn => exact absurd hall (hmissing hn)
    | patch _ _ hfirst' => exact patchPageInPlace_settles.firstFailure_unique hfirst hfirst'

theorem Patched.not_refuses {c : Catalog} {d' : Document} {e : TableError} (h : d.Patched c d') :
    ¬ d.Refuses c e := by
  rintro (hne | ⟨-, hn⟩ | ⟨-, -, hfirst⟩)
  · exact hne h.document
  · exact Nat.not_lt.mpr hn.1.2 (h.pages _ hn.1.1)
  · exact patchPageInPlace_settles.not_firstFailure h.inTurn hfirst

theorem patchInPlace_settled (d : Document) (c : Catalog) :
    AllOrNothing d (d.patchInPlace c) (d.Patched c) (d.Refuses c) := by
  refine .of_cases ?_ (fun _ _ h h' => patchPageInPlace_settles.inTurn_unique h.inTurn h'.inTurn)
    (fun _ _ => Refuses.unique) fun _ _ => Patched.not_refuses
  by_cases hid : c.document = d.id
  · cases hfind : c.pages.find? fun (n, _) => d.pages.length ≤ n with
    | some entry =>
      refine .inr ⟨_, .noPage hid (isLeast_of_find? hfind), ?_⟩
      simp only [patchInPlace, hid, ne_eq, not_true, if_false, hfind]
    | none =>
      have hall := forall_lt_of_find? hfind
      have hsplit : d.patchInPlace c =
          puttingBack d.withPagesOf (changeInTurn patchPageInPlace d c.pages) := by
        simp only [patchInPlace, hid, ne_eq, not_true, if_false, hfind]
        rfl
      rw [hsplit]
      exact (patchPageInPlace_settles.allOrNothing rfl c.pages).cases.imp
        (fun ⟨d', h, heq⟩ => ⟨d', ⟨hid, hall, h⟩, heq⟩)
        fun ⟨e, he, heq⟩ => ⟨e, .patch hid hall he, heq⟩
  · exact .inr ⟨_, .foreign hid, by rw [patchInPlace, if_pos hid]⟩

theorem finished_patchPageInPlace (d : Document) (entry : Nat × List Patch) :
    finished (d.patchPageInPlace entry) =
      (applyToPage d.pages entry.1 entry.2).map fun pages => { d with pages } := by
  rw [patchPageInPlace, applyToPage]
  cases d.pages[entry.1]? with
  | none => rfl
  | some p =>
    have hp := p.finished_patchAllInPlace entry.2
    simp only [← hp]
    cases p.patchAllInPlace entry.2 with | mk q result
    cases result <;> rfl

theorem finished_patchInPlace (d : Document) (c : Catalog) :
    finished (d.patchInPlace c) = d.apply c := by
  have hfold (d : Document) (l : List (Nat × List Patch)) :
      l.foldlM (fun d entry => finished (patchPageInPlace d entry)) d =
        (l.foldlM (fun pages (n, patches) => applyToPage pages n patches) d.pages).map
          fun pages => { d with pages } := by
    induction l generalizing d with
    | nil => rfl
    | cons entry rest ih =>
      obtain ⟨n, patches⟩ := entry
      rw [List.foldlM_cons, List.foldlM_cons, finished_patchPageInPlace]
      simp only
      cases applyToPage d.pages n patches with
      | error e => rfl
      | ok pages => exact ih { d with pages }
  rw [patchInPlace, apply]
  split
  · rfl
  · cases c.pages.find? fun (n, _) => d.pages.length ≤ n with
    | some entry => rfl
    | none =>
      simp only [finished_puttingBack, finished_changeInTurn, hfold]
      cases c.pages.foldlM (fun pages (n, patches) => applyToPage pages n patches) d.pages <;> rfl

/-- At every level an attempt is made as a whole or leaves all as it was: a catalog on a document,
the patches of one page, and one patch. What the changes in place come to, with what is put
back after a failure, is what `apply` and `applyAll` say. -/
theorem patching_allOrNothing (d : Document) (c : Catalog) :
    d.patchInPlace c = attempt d (d.apply c) ∧
      AllOrNothing d (d.patchInPlace c) (d.Patched c) (d.Refuses c) ∧
      (∀ (p : Page) (patches : List Patch),
        p.patchAllInPlace patches = attempt p (p.applyAll patches) ∧
          AllOrNothing p (p.patchAllInPlace patches) (InTurn Page.Patched p patches)
            (FirstFailure Page.Patched Page.Refuses p patches)) ∧
      ∀ (p : Page) (patch : Patch),
        p.patchInPlace patch = attempt p (p.apply patch) ∧
          AllOrNothing p (p.patchInPlace patch) (p.Patched patch) (p.Refuses patch) := by
  refine ⟨?_, d.patchInPlace_settled c,
    fun p patches => ⟨?_, p.patchAllInPlace_allOrNothing patches⟩,
    fun p patch => ⟨?_, p.patchInPlace_allOrNothing patch⟩⟩
  · rw [← finished_patchInPlace]
    exact (d.patchInPlace_settled c).eq_attempt
  · rw [← Page.finished_patchAllInPlace]
    exact (p.patchAllInPlace_allOrNothing patches).eq_attempt
  · rw [← Page.finished_patchInPlace]
    exact (p.patchInPlace_allOrNothing patch).eq_attempt

end Document

end GlyphTable
