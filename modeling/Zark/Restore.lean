import Zark.MountProps
import Zark.PointMark
import Zark.RestorePoints

/-!
# The restore plan

What recover restores each dataset from at the chosen point, as `lib/restore_plan.py` builds the
table the operator confirms. The rows come from the drive's datasets and from the point's record;
an excluded subtree comes back as its top alone, empty, which counts what lies below it.

Sizes and monthly bases, which change no row's fate, are read afterwards and left out.
-/

namespace Zark

open Hierarchy

/-! ### Resolving a point -/

/-- A restore point: one snapshot run of one family. -/
structure Point where
  family : String
  members : List Snap
  deriving DecidableEq, Repr

/-- Latest creation in the run. -/
def Point.latest (p : Point) : ℕ := p.members.foldl (fun t s => max t s.creation) 0

/-- The newest of the snapshots, the first of equals. -/
def newestSnap (snaps : List Snap) : Option Snap :=
  snaps.foldl
    (fun best s =>
      match best with
      | none => some s
      | some b =>
          if b.creation < s.creation ∨ b.creation = s.creation ∧ b.createtxg < s.createtxg then
            some s
          else some b)
    none

/-- A backup point lacks the dataset and nothing of it follows. -/
def lineageEnded (mine : List Snap) (backups : List (ℕ × List Rel)) : Bool :=
  match mine with
  | [] => false
  | s :: _ =>
      let last := mine.foldl (fun t s => max t s.creation) 0
      backups.any fun backup => decide (last ≤ backup.1) && !backup.2.contains s.dataset

/-- The complete backup points at or before a time, with the datasets they hold; `none` counts every
one as complete. -/
def backupsUntil (snaps : List Snap) (latest : ℕ) (complete : Option (List String)) :
    List (ℕ × List Rel) :=
  ((pointNames snaps).filter fun name =>
    decide (pointEnd snaps name ≤ latest) && complete.all (·.contains name)).map fun name =>
      (pointEnd snaps name, (pointMembers snaps name).map Snap.dataset)

/-- The snapshot of a dataset for a point, when it has one at or before it. -/
def resolve (point : Point) (snaps : List Snap) (complete : Option (List String)) (ds : Rel) :
    Option Snap :=
  match point.members.filter (·.dataset = ds) with
  | s :: own => newestSnap (s :: own)
  | [] =>
      let mine := snaps.filter (·.dataset = ds)
      if lineageEnded mine (backupsUntil snaps point.latest complete) then none
      else newestSnap (mine.filter (·.creation ≤ point.latest))

/-! ### The rows -/

/-- A dataset as the drive stores it. -/
structure Stored where
  rel : Rel
  kind : Kind := .filesystem
  deriving DecidableEq, Repr

/-- One dataset of the restore table. -/
structure RestoreRow where
  rel : Rel
  snap : Option Snap := none
  props : Option MountProps := none
  options : List String := []
  effective : String := ""
  /-- Why the dataset is not restored. -/
  note : String := ""
  /-- Excluded from backups at this point: created empty. -/
  empty : Bool := false
  flags : Option Flags := none
  /-- Datasets below this excluded top that the point left out too. -/
  below : ℕ := 0
  deriving DecidableEq, Repr

/-- This dataset will be received. -/
def RestoreRow.restored (r : RestoreRow) : Bool := r.snap.isSome && r.note == ""

/-- What `build_plan` is asked: the drive's listing, the boot environment, the point with the
snapshots and the completed points, and the point's record. -/
structure RestoreRequest where
  stored : Keyed Stored.rel
  be : String
  point : Point
  snaps : List Snap
  complete : Option (List String) := none
  excluded : PointMark := {}
  /-- `org.zark` mount values recorded on the drive. -/
  zark : MountTable := fun _ => none
  /-- Origin's list caches, as the boot environment's snapshot holds them. -/
  cache : MountTable := fun _ => none
  /-- The snapshot's root directory was read and has no entries. -/
  emptyRoot : Snap → Bool := fun _ => false

namespace RestoreRequest

/-- The kind of a dataset: its own, else that of an archived lineage of it. -/
def typeOf (r : RestoreRequest) (ds : Rel) : Option Kind :=
  ((r.stored.items.filter (fun d => logical d.rel = d.rel) ++ r.stored.items.filter
    (fun d => logical d.rel ≠ d.rel)).find?
    (logical ·.rel = ds)).map Stored.kind

/-- Every dataset of the drive, archived lineages as their dataset. -/
def types (r : RestoreRequest) : List Rel := (r.stored.items.map fun d => logical d.rel).dedup

/-- A dataset recover wants: below rpool and not created, or the boot environment's boot
filesystem. -/
def isWanted (r : RestoreRequest) (ds : Rel) : Bool :=
  decide (Under ds ["rpool"] ∧ ds ≠ ["rpool"] ∧ ds ∉ createdContainers.map Prod.fst) || decide
    (ds = ["bpool", "BOOT", r.be])

/-- The datasets recover wants, on the drive or in the point's record, parents first. -/
def wanted (r : RestoreRequest) : List Rel :=
  sortRels ((r.types ∪ r.excluded.datasets.keys).filter r.isWanted)

/-- The snapshot each wanted dataset is restored from. -/
def resolved (r : RestoreRequest) (ds : Rel) : Option Snap :=
  resolve r.point (r.snaps.filter (·.dataset ∈ r.wanted)) r.complete ds

/-- Some dataset of the drive lies below. -/
def hasChildren (r : RestoreRequest) (ds : Rel) : Bool :=
  r.types.any fun other => decide (Under other ds) && other != ds

end RestoreRequest

/-- `build_plan`'s loop so far: effective mountpoints of what will exist, mountpoints given by
guesswork, the rows. -/
structure Planning where
  effective : List (Rel × String)
  claimed : List (String × Rel) := []
  rows : List RestoreRow := []
  tops : List Rel := []

namespace Planning

/-- The mountpoint of `rel`, when it will exist. -/
def effective? (st : Planning) (rel : Rel) : Option String := st.effective.lookup rel

end Planning

def leaf (rel : Rel) : String := rel.getLast?.getD ""

/-- Why `resolve` gave a dataset nothing. -/
def absentNote (ds : Rel) (point : Point) (snaps : List Snap) : String :=
  match newestSnap (snaps.filter fun s => s.dataset = ds && decide (s.creation ≤ point.latest)) with
  | none => "no snapshot at or before this point"
  | some last => "destroyed in origin before this point (last snapshot " ++ last.name ++ ")"

section Plan

variable (r : RestoreRequest)

/-- A dataset the point left out, created empty with the `canmount` and `mountpoint` origin had. -/
def emptyRow (ds : Rel) (st : Planning) : RestoreRow :=
  let (canmount, mountpoint) := match r.excluded.datasets.get? ds with
    | some m => (m.canmount, m.mountpoint)
    | none => (r.zark ds).getD ("on", "")
  let props : MountProps := ⟨canmount, mountpoint, .excluded⟩
  let above := (st.effective? (parent ds)).getD ""
  { rel := ds
    props := some props
    options := receiveOptions props above (leaf ds)
    effective := effectiveMountpoint props above (leaf ds)
    empty := true
    flags :=
      if covering ds r.excluded.leftOut = some ds then
        (r.excluded.tops.get? ds).map MarkTop.flags
      else none }

/-- An excluded dataset: a row for a top, else one more below its top's row. -/
def addExcluded (ds : Rel) (st : Planning) : Planning :=
  match covering ds r.excluded.leftOut with
  | some top =>
      if top = ds then
        let row := emptyRow r ds st
        { st with
          effective := (ds, row.effective) :: st.effective
          rows := st.rows ++ [row]
          tops := ds :: st.tops }
      else if top ∈ st.tops then
        { st with
          rows :=
            st.rows.map fun row =>
              if row.rel = top then { row with below := row.below + 1 } else row }
      else st
  | none => st

/-- Why a dataset that is not excluded is not restored, or the snapshot it is restored from and its
parent's mountpoint. -/
def judgeRow (ds : Rel) (st : Planning) : String ⊕ (Snap × String) :=
  if r.typeOf ds = some .volume then .inl "zvol (only the keystore zvol is restored)"
  else
    match r.resolved ds with
    | none => .inl (absentNote ds r.point r.snaps)
    | some snap =>
        match st.effective? (parent ds) with
        | none => .inl ("parent " ++ Rel.text (parent ds) ++ " is not restored")
        | some above => .inr (snap, above)

/-- The properties of a restored dataset; two are never stacked on one mountpoint by guesswork. -/
def rowProps (ds : Rel) (snap : Snap) (above : String) (st : Planning) :
    MountProps × List (String × Rel) :=
  let needsProbe := (r.zark ds).isNone && (r.cache ds).isNone && r.hasChildren ds
  let props := choose ds r.be r.zark r.cache (needsProbe && r.emptyRoot snap)
  let target := effectiveMountpoint props above (leaf ds)
  if (props.source = .ubuntu ∨ props.source = .inferred) ∧ props.canmount = "on" then
    if (st.claimed.lookup target).isSome then ({ props with canmount := "noauto" }, st.claimed)
    else (props, (target, ds) :: st.claimed)
  else (props, st.claimed)

/-- A dataset that is not excluded: its row, restored or not. -/
def addRow (ds : Rel) (st : Planning) : Planning :=
  match judgeRow r ds st with
  | .inl note => { st with rows := st.rows ++ [{ rel := ds, snap := r.resolved ds, note }] }
  | .inr (snap, above) =>
      let (props, claimed) := rowProps r ds snap above st
      let row : RestoreRow :=
        { rel := ds
          snap := some snap
          props := some props
          options := receiveOptions props above (leaf ds)
          effective := effectiveMountpoint props above (leaf ds) }
      { st with
        effective := (ds, row.effective) :: st.effective, claimed, rows := st.rows ++ [row] }

def planRow (st : Planning) (ds : Rel) : Planning :=
  if r.excluded.covers ds then addExcluded r ds st else addRow r ds st

/-- What exists before anything is restored. -/
def planStart : Planning :=
  { effective := (["rpool"], (rpoolRootMountpoint r.cache).1) :: createdContainers ++ bpoolContainers }

/-- The restore table of a point. -/
def buildPlan : List RestoreRow := (r.wanted.foldl (planRow r) (planStart r)).rows

end Plan

end Zark
