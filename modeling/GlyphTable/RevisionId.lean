import GlyphTable.Text.Quoted

/-!
# Identity of a document revision

Revisions of one document share its title and creation date, its *lineage*, and
differ in the modification date. File names play no part, so a renamed or newly
exported file still belongs to its lineage.
-/

namespace GlyphTable

structure RevisionId where
  title : String
  creationDate : String
  modificationDate : String
deriving DecidableEq, Repr

namespace RevisionId

def SharesLineage (a b : RevisionId) : Prop :=
  a.title = b.title ∧ a.creationDate = b.creationDate

instance (a b : RevisionId) : Decidable (a.SharesLineage b) :=
  inferInstanceAs (Decidable (_ ∧ _))

/-- What stands for a lineage before hashing: title and creation date in UTF-8
with a zero byte between them. -/
def lineageBytes (a : RevisionId) : List UInt8 :=
  a.title.toUTF8.data.toList ++ 0 :: a.creationDate.toUTF8.data.toList

def hexText (bytes : List UInt8) : String :=
  String.ofList (bytes.flatMap fun b =>
    [Nat.digitChar (b.toNat / 16), Nat.digitChar (b.toNat % 16)])

def lineageDigest (digest : List UInt8 → List UInt8) (a : RevisionId) : String :=
  hexText (digest a.lineageBytes)

def display (a : RevisionId) : String :=
  Text.quoted a.title ++ " (created " ++ a.creationDate ++ ", modified " ++
    a.modificationDate ++ ")"

def order (a b : RevisionId) : Ordering :=
  (compare a.title b.title).then
    ((compare a.creationDate b.creationDate).then (compare a.modificationDate b.modificationDate))

/-- Position of the newest revision among `candidates` that shares the lineage,
by modification date; of equally new ones the last. -/
def latest? (a : RevisionId) (candidates : List RevisionId) : Option Nat :=
  let revisions := candidates.zipIdx.filter fun (c, _) => c.SharesLineage a
  (revisions.foldl (fun best (c, i) =>
    match best with
    | none => some (c, i)
    | some (b, j) => if c.modificationDate < b.modificationDate then some (b, j) else some (c, i))
    none).map (·.2)

def pairings (old new : List RevisionId) : List (Nat × Nat) :=
  old.zipIdx.filterMap fun (a, i) => (a.latest? new).map fun j => (i, j)

end RevisionId

end GlyphTable
