import Mathlib
import GlyphTable.RevisionId

/-!
# What a lineage digest identifies

A lineage is hashed as its title and its creation date with a zero byte between them. Titles and
dates may hold zero characters of their own, and then the zero byte does not tell where the title
ends: two lineages are hashed alike if the title of one reaches into the creation date of the
other (`RevisionId.ReachesInto`), and only then (`RevisionId.lineageBytes_eq_iff`). Beyond that the
digests agree only where the hash collides, whatever hash it is (`RevisionId.lineageDigest_eq_iff`).
-/

namespace GlyphTable.RevisionId

-- ---------------------------------------------------------------------------
-- Hexadecimal text
-- ---------------------------------------------------------------------------

theorem digitChar_inj : ∀ m < 16, ∀ n < 16, Nat.digitChar m = Nat.digitChar n → m = n := by
  decide

theorem hexText_inj {v w : List UInt8} : hexText v = hexText w ↔ v = w := by
  refine ⟨fun h => ?_, congrArg hexText⟩
  replace h := String.ofList_injective h
  induction v generalizing w with
  | nil => cases w with
    | nil => rfl
    | cons y w => cases h
  | cons x v ih =>
    cases w with
    | nil => cases h
    | cons y w =>
      obtain ⟨hhigh, hlow, hrest⟩ : Nat.digitChar (x.toNat / 16) = Nat.digitChar (y.toNat / 16) ∧
          Nat.digitChar (x.toNat % 16) = Nat.digitChar (y.toNat % 16) ∧ _ = _ := by
        simpa using h
      have hx := x.toNat_lt
      have hy := y.toNat_lt
      replace hhigh := digitChar_inj _ (by omega) _ (by omega) hhigh
      replace hlow := digitChar_inj _ (by omega) _ (by omega) hlow
      obtain rfl : x = y := UInt8.toNat_inj.mp (by omega)
      rw [ih hrest]

def Collide (digest : List UInt8 → List UInt8) (m n : List UInt8) : Prop :=
  m ≠ n ∧ digest m = digest n

-- ---------------------------------------------------------------------------
-- Titles and creation dates
-- ---------------------------------------------------------------------------

variable {a b : RevisionId}

def lineageText (a : RevisionId) : String :=
  a.title ++ "\x00" ++ a.creationDate

theorem lineageBytes_eq (a : RevisionId) :
    a.lineageBytes = a.lineageText.toByteArray.data.toList := by
  simp only [lineageText, String.toByteArray_append, ByteArray.data_append, Array.toList_append,
    List.append_assoc]
  rfl

theorem toList_lineageText (a : RevisionId) :
    a.lineageText.toList = a.title.toList ++ '\x00' :: a.creationDate.toList := by
  rw [lineageText, String.toList_append, String.toList_append, List.append_assoc]
  rfl

theorem lineageBytes_inj : a.lineageBytes = b.lineageBytes ↔ a.lineageText = b.lineageText := by
  rw [lineageBytes_eq, lineageBytes_eq, Array.toList_inj, ← String.toByteArray_inj]
  exact ⟨ByteArray.ext, congrArg ByteArray.data⟩

/-- Whether the title of `a` is that of `b`, a zero character and what precedes another in the
creation date of `b`; the creation date of `a` is what follows there. -/
def ReachesInto (a b : RevisionId) : Prop :=
  ∃ s : String, a.title = b.title ++ "\x00" ++ s ∧ b.creationDate = s ++ "\x00" ++ a.creationDate

theorem reachesInto_iff : a.ReachesInto b ↔
    ∃ s, a.title.toList = b.title.toList ++ '\x00' :: s ∧
      b.creationDate.toList = s ++ '\x00' :: a.creationDate.toList := by
  have hzero : ("\x00" : String).toList = ['\x00'] := rfl
  simp only [ReachesInto, ← String.toList_inj, String.toList_append, hzero, List.append_assoc,
    List.singleton_append]
  exact ⟨fun ⟨s, hs⟩ => ⟨s.toList, hs⟩, fun ⟨s, hs⟩ => ⟨.ofList s, by simpa using hs⟩⟩

theorem ReachesInto.zero_mem (h : a.ReachesInto b) :
    '\x00' ∈ a.title.toList ∧ '\x00' ∈ b.creationDate.toList := by
  obtain ⟨s, htitle, hdate⟩ := reachesInto_iff.mp h
  simp [htitle, hdate]

theorem append_mark_eq_iff {α : Type} {x : α} {l m l' m' : List α} :
    l ++ x :: m = l' ++ x :: m' ↔
      (l = l' ∧ m = m') ∨ (∃ s, l = l' ++ x :: s ∧ m' = s ++ x :: m) ∨
        ∃ s, l' = l ++ x :: s ∧ m = s ++ x :: m' := by
  constructor
  · intro h
    rcases List.append_eq_append_iff.mp h with ⟨_ | ⟨y, s⟩, hl, hm⟩ | ⟨_ | ⟨y, s⟩, hl, hm⟩
    · exact .inl ⟨by simpa using hl.symm, by simpa using hm⟩
    · obtain ⟨rfl, hrest⟩ := List.cons.inj hm
      exact .inr (.inr ⟨s, hl, hrest⟩)
    · exact .inl ⟨by simpa using hl, by simpa using hm.symm⟩
    · obtain ⟨rfl, hrest⟩ := List.cons.inj hm
      exact .inr (.inl ⟨s, hl, hrest⟩)
  · rintro (⟨rfl, rfl⟩ | ⟨s, rfl, rfl⟩ | ⟨s, rfl, rfl⟩)
    · rfl
    · rw [List.append_assoc, List.cons_append]
    · rw [List.append_assoc, List.cons_append]

/-- Lineages have the same bytes exactly if they are one, or the title of one of them reaches into
the creation date of the other. -/
theorem lineageBytes_eq_iff : a.lineageBytes = b.lineageBytes ↔
    a.SharesLineage b ∨ a.ReachesInto b ∨ b.ReachesInto a := by
  rw [lineageBytes_inj, ← String.toList_inj, toList_lineageText, toList_lineageText,
    append_mark_eq_iff, reachesInto_iff, reachesInto_iff, SharesLineage, String.toList_inj,
    String.toList_inj]

theorem lineageBytes_eq_iff_of_zero_notMem (ha : '\x00' ∉ a.title.toList)
    (hb : '\x00' ∉ b.title.toList) :
    a.lineageBytes = b.lineageBytes ↔ a.SharesLineage b := by
  rw [lineageBytes_eq_iff]
  exact or_iff_left (not_or.mpr ⟨fun h => ha h.zero_mem.1, fun h => hb h.zero_mem.1⟩)

/-- Digests are the same exactly if the lineages are one, the title of one of them reaches into the
creation date of the other, or the hash collides on their bytes. -/
theorem lineageDigest_eq_iff (digest : List UInt8 → List UInt8) (a b : RevisionId) :
    a.lineageDigest digest = b.lineageDigest digest ↔
      a.SharesLineage b ∨ a.ReachesInto b ∨ b.ReachesInto a ∨
        Collide digest a.lineageBytes b.lineageBytes := by
  have hbytes := lineageBytes_eq_iff (a := a) (b := b)
  rw [lineageDigest, lineageDigest, hexText_inj, ← or_assoc (b := b.ReachesInto a),
    ← or_assoc (b := _ ∨ _), ← hbytes, Collide]
  constructor
  · intro hdigest
    exact (Decidable.em (a.lineageBytes = b.lineageBytes)).imp_right fun hne => ⟨hne, hdigest⟩
  · rintro (hsame | ⟨-, hdigest⟩)
    · rw [hsame]
    · exact hdigest

/-- What belongs to the title of one document belongs to the creation date of another, and the
digests do not tell them apart. -/
theorem lineageDigest_reaching :
    let a : RevisionId := ⟨"ISA\x00manual", "2019", "2020"⟩
    let b : RevisionId := ⟨"ISA", "manual\x002019", "2020"⟩
    a.lineageBytes = b.lineageBytes ∧
      (∀ digest, a.lineageDigest digest = b.lineageDigest digest) ∧ ¬ a.SharesLineage b := by
  intro a b
  have hbytes : a.lineageBytes = b.lineageBytes := by decide +kernel
  exact ⟨hbytes, fun digest => congrArg (hexText <| digest ·) hbytes, by decide +kernel⟩

end GlyphTable.RevisionId
