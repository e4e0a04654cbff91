import GlyphTable.Proofs.Stored.Number
import GlyphTable.Proofs.Stored.Text

/-!
# Written values

What is written for a value is read back as the value, provided that its numbers are
(`Tidy.parse?_render`), so the writer and the reader make up a text format. The induction
is over values, with any limit that is no less than the length of the text and anything
behind the text that stops a number.
-/

namespace GlyphTable.Json

/-- What is written for the value is read as the value, up to the first character that is
not its own. -/
def ReadsBack (j : Json) : Prop :=
  ∀ limit rest, j.render.toList.length ≤ limit → Stops rest →
    readValue limit (j.render.toList ++ rest) = some (j, rest)

-- ---------------------------------------------------------------------------
-- Characters of what is written
-- ---------------------------------------------------------------------------

theorem toList_render_list (items : List Json) : (list items).render.toList =
    '[' :: ((",".intercalate (renderItems items)).toList ++ [']']) := by
  rw [render, String.toList_append, String.toList_append]
  rfl

theorem toList_render_object (entries : List (String × Json)) : (object entries).render.toList =
    '\x7b' :: ((",".intercalate (renderEntries entries)).toList ++ ['\x7d']) := by
  rw [render, String.toList_append, String.toList_append]
  rfl

theorem toList_intercalate_cons {a : String} {l : List String} (h : l ≠ []) :
    (",".intercalate (a :: l)).toList = a.toList ++ ',' :: (",".intercalate l).toList := by
  obtain ⟨b, l, rfl⟩ := List.exists_cons_of_ne_nil h
  rw [String.intercalate_cons_cons, String.toList_append, String.toList_append, List.append_assoc]
  rfl

-- ---------------------------------------------------------------------------
-- Beginnings
-- ---------------------------------------------------------------------------

def Opens (c : Char) : Prop :=
  c ∉ [' ', '\t', '\n', '\r', ']', '\x7d']

theorem skipBlank_cons {c : Char} {cs : List Char} (h : c ∉ [' ', '\t', '\n', '\r']) :
    skipBlank (c :: cs) = c :: cs := by
  simp_all [skipBlank]

theorem Opens.skipBlank {c : Char} {cs : List Char} (h : Opens c) :
    skipBlank (c :: cs) = c :: cs :=
  skipBlank_cons (by simp_all [Opens])

theorem not_mem_of_numeric {c : Char} (h : Numeric c) :
    c ∉ [' ', '\t', '\n', '\r', ']', '\x7d', 'n', 't', 'f', '"', '[', '\x7b'] := by
  intro hmem
  simp only [List.mem_cons, List.not_mem_nil, or_false] at hmem
  rcases hmem with rfl | rfl | rfl | rfl | rfl | rfl | rfl | rfl | rfl | rfl | rfl | rfl <;>
    simp [Numeric] at h

theorem skipBlank_of_numeric {cs : List Char} (h : ∀ c ∈ cs, Numeric c) : skipBlank cs = cs := by
  cases cs with
  | nil => rfl
  | cons c cs =>
    have hother := not_mem_of_numeric (h c List.mem_cons_self)
    exact skipBlank_cons (by simp_all)

theorem readValue_eq_readNumber {cs : List Char} (h : ∀ c ∈ cs.head?, Numeric c) (limit : Nat) :
    readValue (limit + 1) cs = readNumber cs := by
  cases cs with
  | nil => rfl
  | cons c t =>
    have hother := not_mem_of_numeric (h c rfl)
    rw [readValue, skipBlank_cons (by simp_all)]
    split <;> simp_all

/-- A number that comes back is read to the end of its text. -/
theorem readNumber_realText {x : Float} (hfinite : x.isFinite)
    (h : parse? (realText x) = some (real x)) :
    readNumber (realText x).toList = some (real x, []) := by
  have hnumeric := numeric_realText hfinite
  obtain ⟨⟨j, rest⟩, hread, hrest⟩ := Option.bind_eq_some_iff.mp h
  rw [readValue_eq_readNumber fun c hc => hnumeric c (List.mem_of_head? hc)] at hread
  have hblank : skipBlank rest = rest :=
    skipBlank_of_numeric fun c hc => hnumeric c ((suffix_of_readNumber hread).subset hc)
  simp only [hblank, List.isEmpty_iff] at hrest
  split at hrest
  · next hend =>
    cases hrest
    rw [hread, hend]
  · cases hrest

def Opening (cs : List Char) : Prop :=
  ∃ c t, cs = c :: t ∧ Opens c

theorem opening_of_readNumber {cs : List Char} {r : Json × List Char}
    (hnumeric : ∀ c ∈ cs, Numeric c) (h : readNumber cs = some r) : Opening cs := by
  cases cs with
  | nil => cases h
  | cons c t =>
    have hother := not_mem_of_numeric (hnumeric c List.mem_cons_self)
    exact ⟨c, t, rfl, by simp_all [Opens]⟩

theorem opening_renderText (s : String) : Opening (renderText s).toList :=
  ⟨'"', _, toList_renderText s, by simp [Opens]⟩

theorem readValue_list {cs : List Char} (h : Opening cs) (limit : Nat) :
    readValue (limit + 1) ('[' :: cs) = readItems limit [] cs := by
  obtain ⟨c, t, rfl, hc⟩ := h
  rw [readValue, skipBlank_cons (by decide)]
  simp only [hc.skipBlank]
  split
  · simp_all [Opens]
  · rfl

theorem readValue_object {cs : List Char} (h : Opening cs) (limit : Nat) :
    readValue (limit + 1) ('\x7b' :: cs) = readEntries limit [] cs := by
  obtain ⟨c, t, rfl, hc⟩ := h
  rw [readValue, skipBlank_cons (by decide)]
  simp only [hc.skipBlank]
  split
  · simp_all [Opens]
  · rfl

theorem Opening.append {cs : List Char} (h : Opening cs) (rest : List Char) :
    Opening (cs ++ rest) := by
  obtain ⟨c, t, rfl, hc⟩ := h
  exact ⟨c, t ++ rest, List.cons_append, hc⟩

theorem Opening.intercalate {a : String} (h : Opening a.toList) (l : List String) :
    Opening (",".intercalate (a :: l)).toList := by
  rcases eq_or_ne l [] with rfl | hl
  · rwa [String.intercalate_singleton]
  · rw [toList_intercalate_cons hl]
    exact h.append _

def Faithful (j : Json) : Prop :=
  ∀ x ∈ j.reals, x.isFinite ∧ parse? (render (real x)) = some (real x)

theorem Faithful.of_mem_list {items : List Json} (h : (list items).Faithful) {v : Json}
    (hv : v ∈ items) : v.Faithful :=
  fun x hx => h x (mem_reals_list.mpr ⟨v, hv, hx⟩)

theorem Faithful.of_mem_object {entries : List (String × Json)} (h : (object entries).Faithful)
    {e : String × Json} (he : e ∈ entries) : e.2.Faithful :=
  fun x hx => h x (mem_reals_object.mpr ⟨e, he, hx⟩)

theorem Faithful.readNumber {x : Float} (h : (real x).Faithful) :
    readNumber (real x).render.toList = some (real x, []) := by
  obtain ⟨hfinite, hback⟩ := h x (List.mem_singleton_self x)
  rw [render] at hback ⊢
  exact readNumber_realText hfinite hback

theorem Faithful.numeric {x : Float} (h : (real x).Faithful) :
    ∀ c ∈ (real x).render.toList, Numeric c := by
  rw [render]
  exact numeric_realText (h x (List.mem_singleton_self x)).1

theorem Tidy.opening {j : Json} {depth : Nat} (hj : j.Tidy depth) (h : j.Faithful) :
    Opening j.render.toList := by
  cases hj with
  | null => exact ⟨'n', _, rfl, by simp [Opens]⟩
  | bool b =>
    cases b with
    | false => exact ⟨'f', _, rfl, by simp [Opens]⟩
    | true => exact ⟨'t', _, rfl, by simp [Opens]⟩
  | int hn => exact opening_of_readNumber numeric_toString (readNumber_toString hn)
  | real x => exact opening_of_readNumber h.numeric h.readNumber
  | text s => exact opening_renderText s
  | list => exact ⟨'[', _, toList_render_list _, by simp [Opens]⟩
  | object => exact ⟨'\x7b', _, toList_render_object _, by simp [Opens]⟩

-- ---------------------------------------------------------------------------
-- Lists and objects
-- ---------------------------------------------------------------------------

theorem readItems_render {items : List Json} (h : ∀ v ∈ items, v.ReadsBack) (hne : items ≠ [])
    {limit : Nat} {read : List Json} {rest : List Char}
    (hlimit : (",".intercalate (renderItems items)).toList.length + 1 ≤ limit) :
    readItems limit read ((",".intercalate (renderItems items)).toList ++ ']' :: rest) =
      some (.list (read.reverse ++ items), rest) := by
  induction items generalizing limit read with
  | nil => exact absurd rfl hne
  | cons v items ih =>
    obtain ⟨hv, hitems⟩ := List.forall_mem_cons.mp h
    obtain ⟨limit, rfl⟩ := Nat.exists_eq_add_one_of_ne_zero (by omega : limit ≠ 0)
    by_cases hlast : items = []
    · subst hlast
      simp only [renderItems, String.intercalate_singleton] at hlimit ⊢
      rw [readItems, hv limit (']' :: rest) (by omega) (by simp [stops_cons])]
      simp [skipBlank_cons]
    · have hjoin : renderItems items ≠ [] := by cases items <;> simp_all [renderItems]
      simp only [renderItems, toList_intercalate_cons hjoin, List.length_append,
        List.length_cons] at hlimit ⊢
      rw [List.append_assoc, readItems, hv limit _ (by omega) (by simp [stops_cons])]
      simp only [Option.bind_eq_bind, Option.bind_some, List.cons_append]
      rw [skipBlank_cons (by decide)]
      -- The item and the comma are longer than the one level that is used up.
      exact (ih hitems hlast (by omega)).trans (by simp)

theorem readKey_renderText {key : String} {limit : Nat} {rest : List Char}
    (h : (renderText key).toList.length ≤ limit) :
    readKey limit ((renderText key).toList ++ ':' :: rest) = some (key, rest) := by
  rw [toList_renderText, List.length_cons, List.length_append] at h
  simp only [toList_renderText, List.cons_append, List.append_assoc, List.nil_append, readKey]
  rw [skipBlank_cons (by decide)]
  have hkey : (key.toList.flatMap escapeChar).length ≤ limit := by omega
  simp only [readText_render hkey, Option.bind_eq_bind, Option.bind_some]
  rw [skipBlank_cons (by decide)]
  rfl

theorem readEntry_render (key : String) {v : Json} (hv : v.ReadsBack) {limit : Nat}
    (hlimit : (renderText key ++ ":" ++ v.render).toList.length ≤ limit) {rest : List Char}
    (hrest : Stops rest) :
    ∃ cs, readKey limit ((renderText key ++ ":" ++ v.render).toList ++ rest) = some (key, cs) ∧
      readValue limit cs = some (v, rest) := by
  simp only [String.toList_append, List.length_append] at hlimit
  refine ⟨v.render.toList ++ rest, ?_, hv limit rest (by omega) hrest⟩
  rw [String.toList_append, String.toList_append, List.append_assoc, List.append_assoc]
  exact readKey_renderText (by omega)

theorem readEntries_render {entries : List (String × Json)} (h : ∀ e ∈ entries, e.2.ReadsBack)
    (hne : entries ≠ []) {limit : Nat} {read : List (String × Json)} {rest : List Char}
    (hlimit : (",".intercalate (renderEntries entries)).toList.length + 1 ≤ limit) :
    readEntries limit read ((",".intercalate (renderEntries entries)).toList ++ '\x7d' :: rest) =
      some (.object (read.reverse ++ entries), rest) := by
  induction entries generalizing limit read with
  | nil => exact absurd rfl hne
  | cons e entries ih =>
    obtain ⟨key, v⟩ := e
    obtain ⟨hv, hentries⟩ := List.forall_mem_cons.mp h
    obtain ⟨limit, rfl⟩ := Nat.exists_eq_add_one_of_ne_zero (by omega : limit ≠ 0)
    by_cases hlast : entries = []
    · subst hlast
      simp only [renderEntries, String.intercalate_singleton] at hlimit ⊢
      have hstops : Stops ('\x7d' :: rest) := by simp [stops_cons]
      obtain ⟨cs, hkey, hvalue⟩ := readEntry_render key hv (Nat.le_of_succ_le_succ hlimit) hstops
      simp only [readEntries, hkey, hvalue, Option.bind_eq_bind, Option.bind_some]
      rw [skipBlank_cons (by decide)]
      simp
    · have hjoin : renderEntries entries ≠ [] := by cases entries <;> simp_all [renderEntries]
      simp only [renderEntries, toList_intercalate_cons hjoin, List.append_assoc,
        List.cons_append] at hlimit ⊢
      rw [List.length_append, List.length_cons] at hlimit
      have hkeyed : (renderText key ++ ":" ++ v.render).toList.length ≤ limit := by omega
      have hstops : Stops (',' :: ((",".intercalate (renderEntries entries)).toList ++
        '\x7d' :: rest)) := by simp [stops_cons]
      obtain ⟨cs, hkey, hvalue⟩ := readEntry_render key hv hkeyed hstops
      simp only [readEntries, hkey, hvalue, Option.bind_eq_bind, Option.bind_some]
      rw [skipBlank_cons (by decide)]
      exact (ih hentries hlast (by omega)).trans (by simp)

theorem readsBack_of_readNumber {j : Json} (hnumeric : ∀ c ∈ j.render.toList, Numeric c)
    (h : readNumber j.render.toList = some (j, [])) : j.ReadsBack := by
  intro limit rest hlimit hrest
  obtain ⟨c, t, hc, -⟩ := opening_of_readNumber hnumeric h
  have hhead : ∀ d ∈ (j.render.toList ++ rest).head?, Numeric d := by
    rw [hc] at hnumeric ⊢
    simpa using hnumeric c List.mem_cons_self
  rw [hc, List.length_cons] at hlimit
  obtain ⟨limit, rfl⟩ := Nat.exists_eq_add_one_of_ne_zero (by omega : limit ≠ 0)
  rw [readValue_eq_readNumber hhead, readNumber_append hrest, h]
  rfl

theorem readsBack_text (s : String) : (text s).ReadsBack := by
  rintro limit rest hlimit -
  change (renderText s).toList.length ≤ limit at hlimit
  rw [toList_renderText, List.length_cons, List.length_append] at hlimit
  obtain ⟨limit, rfl⟩ := Nat.exists_eq_add_one_of_ne_zero (by omega : limit ≠ 0)
  rw [render, toList_renderText, List.cons_append, readValue, skipBlank_cons (by decide),
    List.append_assoc]
  exact congrArg (Option.map _) (readText_render (by omega))

theorem readsBack_list {items : List Json} (h : ∀ v ∈ items, v.ReadsBack)
    (hopening : ∀ v ∈ items, Opening v.render.toList) : (list items).ReadsBack := by
  rintro limit rest hlimit -
  rw [toList_render_list, List.length_cons, List.length_append] at hlimit
  obtain ⟨limit, rfl⟩ := Nat.exists_eq_add_one_of_ne_zero (by omega : limit ≠ 0)
  rw [toList_render_list, List.cons_append, List.append_assoc]
  cases items with
  | nil => rfl
  | cons v items =>
    have hopen : Opening (",".intercalate (renderItems (v :: items))).toList :=
      (hopening v List.mem_cons_self).intercalate _
    rw [readValue_list (hopen.append _)]
    exact readItems_render h (List.cons_ne_nil v items) (Nat.le_of_succ_le_succ hlimit)

theorem readsBack_object {entries : List (String × Json)} (h : ∀ e ∈ entries, e.2.ReadsBack) :
    (object entries).ReadsBack := by
  rintro limit rest hlimit -
  rw [toList_render_object, List.length_cons, List.length_append] at hlimit
  obtain ⟨limit, rfl⟩ := Nat.exists_eq_add_one_of_ne_zero (by omega : limit ≠ 0)
  rw [toList_render_object, List.cons_append, List.append_assoc]
  cases entries with
  | nil => rfl
  | cons e entries =>
    have hopen : Opening (",".intercalate (renderEntries (e :: entries))).toList := by
      refine Opening.intercalate ?_ _
      rw [String.toList_append, String.toList_append, List.append_assoc]
      exact (opening_renderText e.1).append _
    rw [readValue_object (hopen.append _)]
    exact readEntries_render h (List.cons_ne_nil e entries) (Nat.le_of_succ_le_succ hlimit)

theorem Tidy.readsBack {j : Json} {depth : Nat} (hj : j.Tidy depth) (h : j.Faithful) :
    j.ReadsBack := by
  induction hj with
  | null =>
    rintro limit rest hlimit -
    obtain ⟨limit, rfl⟩ := Nat.exists_eq_add_of_le' hlimit
    rfl
  | bool b =>
    rintro limit rest hlimit -
    cases b with
    | false =>
      obtain ⟨limit, rfl⟩ := Nat.exists_eq_add_of_le' hlimit
      rfl
    | true =>
      obtain ⟨limit, rfl⟩ := Nat.exists_eq_add_of_le' hlimit
      rfl
  | int hn => exact readsBack_of_readNumber numeric_toString (readNumber_toString hn)
  | real x => exact readsBack_of_readNumber h.numeric h.readNumber
  | text s => exact readsBack_text s
  | list hitems ih =>
    exact readsBack_list (fun v hv => ih v hv (h.of_mem_list hv))
      fun v hv => (hitems v hv).opening (h.of_mem_list hv)
  | object hkeys hentries ih =>
    exact readsBack_object fun e he => ih e he (h.of_mem_object he)

/-- Reading what is written for a value gives the value. -/
theorem Tidy.parse?_render {j : Json} {depth : Nat} (hj : j.Tidy depth) (h : j.Faithful) :
    parse? j.render = some j := by
  have hlimit : j.render.toList.length ≤ 2 * j.render.toList.length + 2 := by omega
  have hread := hj.readsBack h _ [] hlimit stops_nil
  rw [List.append_nil] at hread
  simp only [parse?, hread, Option.bind_eq_bind, Option.bind_some]
  rfl

def Format.compact : Format where
  write := render
  read? := parse?
  read?_write _ hj h := hj.parse?_render h

def real? : Json → Option Float
  | real x => some x
  | _ => none

theorem eq_some_real_iff {o : Option Json} {x : Float} :
    o = some (real x) ↔ o.bind real? = some x := by
  rcases o with _ | j
  · simp
  · cases j <;> simp [real?]

instance (x : Float) : Decidable (Format.compact.Exact x) :=
  decidable_of_iff _ eq_some_real_iff.symm

end GlyphTable.Json
