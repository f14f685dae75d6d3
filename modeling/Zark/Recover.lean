import Zark.Restore

/-!
# What recover makes of the exclusions

On the recovered pool, after every restored dataset was received: each excluded top is created
empty with its exclusions set on it, and a top excluded from snapshots only gets its exclusion
again where it was restored (`create_excluded`, `restore_snapshot_exclusions`). A raw send carries
no user property, so nothing is set before.
-/

namespace Zark

open Hierarchy

/-- The containers recover creates. -/
def created : List Rel :=
  ["rpool"] :: createdContainers.map Prod.fst ++ bpoolContainers.map Prod.fst

/-- The recovered pools: their datasets and the exclusions set on them. -/
structure Recovered where
  datasets : List Rel
  settings : Keyed Setting.rel := ∅

namespace Recovered

def setNo (s : Recovered) (rel : Rel) (flag : Flag) : Recovered :=
  { s with settings := s.settings.put (((s.settings.get? rel).getD { rel }).set flag "no") }

/-- `zfs set <flag>=no`: the dataset must exist. -/
def zfsSet (s : Recovered) (rel : Rel) (flag : Flag) : Option Recovered :=
  if rel ∈ s.datasets then some (s.setNo rel flag) else none

/-- `zfs create -u -o <flag>=no ...`: the dataset must be new and its parent exist. -/
def zfsCreate (s : Recovered) (rel : Rel) (flags : List Flag) : Option Recovered :=
  if rel ∉ s.datasets ∧ parent rel ∈ s.datasets then
    some (flags.foldl (fun s flag => s.setNo rel flag) { s with datasets := s.datasets ++ [rel] })
  else none

end Recovered

/-- The exclusions `create_excluded` sets on a dataset it creates. -/
def createFlags (row : RestoreRow) : List Flag :=
  (if row.flags.isSome then [.replicate] else []) ++
    if row.flags = some .both then [.snapshot] else []

/-- Each dataset the point left out, parents first, created empty; every command succeeds. -/
def createExcluded (s : Recovered) (rows : List RestoreRow) : Option Recovered :=
  rows.foldlM (fun s row => s.zfsCreate row.rel (createFlags row)) s

/-- The snapshot exclusion again on each restored dataset the point recorded as excluded from
snapshots only; every command succeeds. -/
def restoreSnapshotExclusions (rows : List RestoreRow) (excluded : PointMark) (s : Recovered) :
    Option Recovered :=
  excluded.noSnapshot.foldlM
    (fun s top =>
      match rows.find? (·.rel = top) with
      | some row => if row.restored then s.zfsSet top .snapshot else some s
      | none => some s)
    s

/-- The containers and the received datasets. -/
def restoredPools (rows : List RestoreRow) : Recovered :=
  { datasets := created ++ (rows.filter (·.restored)).map RestoreRow.rel }

/-- The recovered pools once the exclusions are set, every command succeeding. -/
def recoverExclusions (r : RestoreRequest) : Option Recovered :=
  let rows := buildPlan r
  (createExcluded (restoredPools rows) (rows.filter (·.empty))).bind
    (restoreSnapshotExclusions rows r.excluded)

end Zark
