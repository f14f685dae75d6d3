import Zark.PointLosses
import Zark.PointRecord

/-!
# The destroy of an excluded subtree

`destroy_held` of `lib/exclusions.py`: the archived lineages cloned from the subtree go first, then
the subtree, up to the first destroy that fails. The points that lost something are then rewritten,
what went recorded on them as left out, and `read_point_mark` reads that back when recover is asked
for one of them.

A record is a whole text here; how it is cut into properties and joined again is that of a point's
record.
-/

namespace Zark

open Hierarchy

/-- The records on the drive's snapshots, each none where it cannot be joined. -/
abbrev Records := SnapName → Option (Option String)

/-- The records on a point's snapshots, each once. -/
def pointValues (records : Records) (snaps : List Snap) (point : String) : List (Option String) :=
  ((pointMembers snaps point).filterMap fun s => records (s.stored, s.name)).dedup

/-- What a point left out, none inside for a point without a record; no reading where its snapshots
disagree or the record is none. -/
def readPointMark (records : Records) (snaps : List Snap) (point : String) :
    Option (Option PointMark) :=
  match pointValues records snaps point with
  | [] => some none
  | [some value] => (parsePointMark value).map some
  | _ => none

/-- The record is written: it takes no more properties than a reader follows. -/
def Rewrite.fits (rw : Rewrite) : Bool := decide (partsNeeded rw.mark.dump ≤ maxParts)

/-- `zfs set` of a point's new record. -/
def setRecord (rw : Rewrite) (records : Records) : Records :=
  fun x => if x ∈ rw.targets then some (some rw.mark.dump) else records x

/-- The records once every rewrite is written. -/
def setRecords (written : List (String × Rewrite)) (records : Records) : Records :=
  written.foldl (fun records point => setRecord point.2 records) records

/-- The destroys of `destroy_held`: the dependents in their order, then the top, up to the first
that fails. -/
def destroyTop (destroy : Drive → Rel → Option Drive) (top : Rel) (deps : DestroyPlan)
    (dest : Drive) : List Rel × Bool × Drive :=
  match destroyDependents destroy deps dest with
  | (gone, false, dest) => (gone, false, dest)
  | (gone, true, dest) =>
      match destroy dest top with
      | some dest => (gone ++ [top], true, dest)
      | none => (gone, false, dest)

/-- What the destroy of an excluded top leaves. -/
structure HeldDestroy where
  /-- The trees that went, in order. -/
  gone : List Rel
  drive : Drive
  /-- The points whose marks were written. -/
  written : List (String × Rewrite)
  /-- Everything went and every point was rewritten. -/
  ok : Bool

/-- `destroy_held`, every `zfs set` succeeding and this drive's anchors left aside. A drive that
cannot be read, or a record of it, keeps anything from going; a record that cannot be read later
keeps anything from being written. -/
def destroyHeld (destroy : Drive → Rel → Option Drive) (readable : Bool) (marks : Marks)
    (records : Records) (values : Rel → Option (String × String)) (top : Rel) (flags : Flags)
    (deps : Option DestroyPlan) (dest : Drive) : HeldDestroy :=
  let deps := deps.getD { top, order := [], blockers := [] }
  let snaps := driveSnapshots dest marks
  if !readable || (rewrites top flags snaps records (top :: deps.order.map Dependent.rel)
      values).isNone then
    { gone := [], drive := dest, written := [], ok := false }
  else
    let (gone, ok, after) := destroyTop destroy top deps dest
    if gone = [] then { gone := [], drive := after, written := [], ok := false }
    else
      match rewrites top flags snaps records gone values with
      | none => { gone, drive := after, written := [], ok := false }
      | some points =>
          { gone, drive := after, written := points.filter (·.2.fits),
            ok := ok && points.all (·.2.fits) }

end Zark
