import Zark.Dependents
import Zark.DriveMarks
import Zark.PointMark

/-!
# What a destroy takes from the points

`point_losses` of `lib/restore_points.py`: the points that a destroy of trees takes snapshots from,
the datasets each one loses and the completion count it is rewritten with. `destroy_orphan` of
`lib/engine.py` and `_rewrites` of `lib/exclusions.py` write it.
-/

namespace Zark

open Hierarchy

/-- The destroy of the trees takes the snapshot. -/
def Snap.gone (tops : List Rel) (s : Snap) : Bool := covered s.stored tops

/-- One backup point once a destroy took part of its snapshots. -/
structure PointLoss where
  /-- The snapshots left. -/
  targets : List SnapName
  /-- Datasets, archived lineages as theirs, that no longer hold it. -/
  lost : List Rel
  /-- Its completion count, lowered by them. -/
  count : ℕ
  deriving DecidableEq, Repr

/-- The datasets of some snapshots. -/
def held (members : List Snap) : List Rel := (members.map Snap.dataset).dedup

/-- What the destroy of the trees `tops` leaves of a point. -/
def left (snaps : List Snap) (tops : List Rel) (name : String) : List Snap :=
  (pointMembers snaps name).filter (!·.gone tops)

/-- The datasets a point loses. -/
def lost (snaps : List Snap) (tops : List Rel) (name : String) : List Rel :=
  (held (pointMembers snaps name)).filter (· ∉ held (left snaps tops name))

/-- The first count on a snapshot of a point. -/
def firstCount (snaps : List Snap) (name : String) : ℕ :=
  ((pointMembers snaps name).findSome? fun s => markCount s.mark).getD 0

/-- The loss of one point; none where no dataset goes, no snapshot stays or the count falls to
zero. -/
def pointLoss (snaps : List Snap) (tops : List Rel) (name : String) : Option PointLoss :=
  let left := left snaps tops name
  let lost := lost snaps tops name
  let count := firstCount snaps name - lost.length
  if lost = [] ∨ left = [] ∨ count = 0 then none
  else some { targets := left.map fun s => (s.stored, name), lost, count }

/-- The names with a count that lose a snapshot, in order. -/
def losing (snaps : List Snap) (tops : List Rel) : List String :=
  ((snaps.filter fun s => s.gone tops && (markCount s.mark).isSome).map
    Snap.name).dedup.insertionSort (· ≤ ·)

def pointLosses (snaps : List Snap) (tops : List Rel) : List (String × PointLoss) :=
  (losing snaps tops).filterMap fun name => (pointLoss snaps tops name).map (name, ·)

/-! ### Who writes it -/

/-- `zfs set` of a count on snapshots. -/
def setCount (count : String) (targets : List SnapName) (s : Snap) : Snap :=
  if (s.stored, s.name) ∈ targets then { s with mark := count } else s

/-- The snapshots left once the trees are gone and every loss is written. -/
def rewritten (snaps : List Snap) (tops : List Rel) : List Snap :=
  (snaps.filter (!·.gone tops)).map fun s =>
    (pointLosses snaps tops).foldl (fun s loss =>
      setCount (countMark loss.2.count) loss.2.targets s) s

/-- The destroy of an orphan's tree after the archived lineages cloned from it, every `zfs set`
succeeding: what is left of the drive, its snapshots as marked then, and whether everything went.
Nothing is destroyed when the snapshots cannot be read. -/
def destroyOrphan (destroy : Drive → Rel → Option Drive) (readable : Bool) (marks : Marks)
    (plan : DestroyPlan) (dest : Drive) :
    Drive × List Snap × Bool :=
  let snaps := driveSnapshots dest marks
  if !readable then (dest, snaps, false)
  else
    match destroyDependents destroy plan dest with
    | (gone, false, dest) => (dest, rewritten snaps gone, false)
    | (gone, true, dest) =>
        match destroy dest plan.top with
        | some dest => (dest, rewritten snaps (gone ++ [plan.top]), true)
        | none => (dest, rewritten snaps gone, false)

/-- A point's marks once a destroy took part of it. -/
structure Rewrite where
  targets : List SnapName
  complete : String
  mark : PointMark
  deriving DecidableEq

/-- What a point left out, as the first of its snapshots with a record says; no reading where that
cannot be read. -/
def recordLeft (records : SnapName → Option (Option String)) (targets : List SnapName) :
    Option PointMark :=
  match targets.filterMap records with
  | [] => some {}
  | record :: _ => record.bind parsePointMark

/-- What the destroy takes, with the mount properties it had; those of a drive that lacks them are
the defaults. -/
def lostDatasets (values : Rel → Option (String × String)) (lost : List Rel) : List MarkDataset :=
  lost.map fun rel =>
    let value := (values rel).getD ("on", "")
    ⟨rel, value.1, value.2⟩

/-- One point's marks after the destroy of an excluded top, none when its record cannot be read. -/
def rewriteOf (top : Rel) (flags : Flags) (records : SnapName → Option (Option String))
    (values : Rel → Option (String × String)) (loss : PointLoss) : Option Rewrite :=
  (recordLeft records loss.targets).map fun pm =>
    { targets := loss.targets
      complete := countMark loss.count
      mark :=
        { tops := pm.tops.put ⟨top, flags⟩,
          datasets := (lostDatasets values loss.lost).foldl Keyed.put pm.datasets } }

/-- The marks of each point after the destroy of an excluded top, with what went recorded as
excluded; none when a record cannot be read. -/
def rewrites (top : Rel) (flags : Flags) (snaps : List Snap)
    (records : SnapName → Option (Option String)) (gone : List Rel)
    (values : Rel → Option (String × String)) : Option (List (String × Rewrite)) :=
  (pointLosses snaps (if gone = [] then [top] else gone)).mapM fun (name, loss) =>
    (rewriteOf top flags records values loss).map (name, ·)

end Zark
