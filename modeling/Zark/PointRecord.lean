import Zark.Library.Pieces
import Zark.PointMark

/-!
# The record of a point as user properties

A value holds 8191 characters, so a longer record is kept in parts: the mark's own property holds a
pointer with their number and the digest of the whole record, and each part has a property of its
own. Reading joins the parts a pointer names and compares the digest.

The digest is a parameter, `sha`.
-/

namespace Zark

/-- A value holds at most so many characters. -/
def markLimit : ℕ := 8191

/-- Parts a record is read in at most. -/
def maxParts : ℕ := 64

def markProp : String := "org.zark:excluded"

/-- The property that holds part `i`, from 1. -/
def partProp (i : ℕ) : String := markProp ++ "." ++ String.ofList (Nat.toDigits 10 i)

/-- The pieces of `markLimit` characters a text is cut into. -/
def parts (mark : String) : List String := (mark.toList.cutInto markLimit).map String.ofList

/-- How many values a record takes. -/
def partsNeeded (mark : String) : ℕ := max 1 ((mark.toList.length + markLimit - 1) / markLimit)

section Digest

variable (sha : String → String)

/-- The value that names a record's parts. -/
def pointerTo (mark : String) : Json :=
  .obj [("parts", .num (parts mark).length), ("sha256", .str (sha mark))]

/-- The properties that hold a record: itself, or a pointer and the parts. -/
def recordProps (mark : String) : List (String × String) :=
  if mark.toList.length ≤ markLimit then [(markProp, mark)]
  else (markProp, String.ofList (Json.dumps (pointerTo sha mark))) :: (parts mark).mapIdx fun i p =>
    (partProp (i + 1), p)

/-- The parts and the digest a value names, no parts where they cannot be followed; `none` for a
record of its own. -/
def pointer (value : String) : Option (ℕ × String) :=
  match Json.loads value.toList with
  | some (.obj fields) =>
      (Json.field? fields "parts").map fun n =>
        match n, Json.field? fields "sha256" with
        | .num n, some (.str digest) => if 1 ≤ n ∧ n ≤ maxParts then (n.toNat, digest) else (0, "")
        | _, _ => (0, "")
  | _ => none

/-- The user properties set on a snapshot itself. -/
abbrev Props := String → Option String

/-- A snapshot of the drive with its user properties. -/
structure MarkedSnap where
  snap : SnapName
  props : Props

/-- The marks of the drive's snapshots. -/
def recordMarks (drive : Keyed MarkedSnap.snap) : List (MarkedSnap × String) :=
  drive.items.filterMap fun s => (s.props markProp).map fun value => (s, value)

/-- Parts 1 to `n` of a snapshot, of those that were read. -/
def pieces (props : Props) (most n : ℕ) : List (Option String) :=
  (List.range n).map fun i => if i < most then props (partProp (i + 1)) else none

/-- The pieces that are there, joined. -/
def joined (found : List (Option String)) : String := String.join found.reduceOption

/-- The record a snapshot's mark stands for, of `most` parts at most. -/
def recordOf (most : ℕ) (props : Props) (value : String) : Option String :=
  match pointer value with
  | none => some value
  | some (n, digest) =>
      let found := pieces props most n
      if 0 < n ∧ none ∉ found ∧ sha (joined found) = digest then some (joined found) else none

/-- Every record on the drive's snapshots; `none` where a part is missing or the digest does not
match. -/
def pointRecords (drive : Keyed MarkedSnap.snap) : List (SnapName × Option String) :=
  let marks := recordMarks drive
  let most := ((marks.filterMap fun m => pointer m.2).map Prod.fst).foldl max 0
  marks.map fun m => (m.1.snap, recordOf sha most m.1.props m.2)

end Digest

/-- The properties after some writes. -/
def write (props : Props) (ws : List (String × String)) : Props :=
  ws.foldl (fun p w => Function.update p w.1 (some w.2)) props

end Zark
