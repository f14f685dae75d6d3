import Zark.World

/-!
# Anchors

`lib/anchors.py`: what marks a drive's base in origin, a bookmark on rpool and a renamed snapshot on
bpool, and how a point that names a drive is taken out of the way.
-/

namespace Zark

/-- `zfs get guid` of a snapshot and a bookmark gives one value twice. -/
def sameGuid (origin : Origins) (rel : Rel) (snap bookmark : String) : Bool :=
  match origin.get? rel with
  | some o =>
      match o.snaps.get? snap, o.bookmarks.get? bookmark with
      | some s, some b => s.guid = b.guid
      | _, _ => false
  | none => false

/-- Make `rel@point` the drive's anchor; a bookmark a stopped run left is one when the guids
match. -/
def anchorPoint (w : World) (rel : Rel) (point disk : String) : Bool × World :=
  let keep := anchorName disk point
  if isBpool rel then w.command (.rename rel point keep)
  else
    let made := w.command (.bookmark rel point keep)
    if made.1 then made
    else
      let read := made.2.read
      (read.1 && sameGuid read.2.origin rel point keep, read.2)

/-- A property value that is a pool GUID. -/
def isGuid (value : String) : Bool := value ≠ "" && value.toList.all Char.isDigit

/-- The drive a point of origin names, "" for none. -/
def pointOwners (w : World) (name : SnapName) : String :=
  match snapshot? w.origin name with
  | some s => if isGuid (w.owner name.1 s.guid) && isPoint s.name then w.owner name.1 s.guid else ""
  | none => ""

/-- Take a point a run left out of the way for the drive it names: anchored first, and kept when
that fails. -/
def releasePoint (w : World) (rel : Rel) (point owner : String) : Bool × World :=
  let anchored := anchorPoint w rel point owner
  if !anchored.1 then (false, anchored.2)
  else if isBpool rel then (true, anchored.2)
  else anchored.2.command (.destroySnap rel point)

end Zark
