import Zark.Anchors
import Zark.Transfer

/-!
# A replication run

`lib/engine.py`: the run of one drive, from the point it takes in origin to either of its endings. A
normal one anchors what reached the point, anchors what the drive holds newest, and drops from
origin what a fresh read of both sides allows; any other undoes the point wherever nothing needs it.
-/

namespace Zark

open Hierarchy

/-- One run of origin into a backup pool: its drive, its point, and what it last read of both
sides. -/
structure Run where
  pool : String
  disk : DiskGuid
  point : String
  pools : List Rel := [["rpool"], ["bpool"]]
  exclusions : List Rel := []
  ext4 : Bool := false
  origin : Origins := ∅
  dest : Drive := ∅
  started : List Rel := []

/-- The name of this run's anchors. -/
def Run.keep (run : Run) : String := anchorName run.disk.text run.point

/-! ### The point -/

/-- One dataset's new snapshot. -/
def addSnap (made : Rel → Ref) (origin : Origins) (rel : Rel) : Option Origins :=
  (origin.get? rel).bind fun o => (o.snaps.push? (made rel)).map fun snaps =>
    origin.set { o with snaps }

/-- `zfs snapshot -o org.zark:point-for=<disk>` of all the names in one sync task; `made` is what
each new snapshot is. -/
def World.snapshot (w : World) (names : List Rel) (made : Rel → Ref) (disk : String) :
    Bool × World :=
  if w.faults.head?.getD false then (false, { w with faults := w.faults.tail })
  else
    match names.foldlM (addSnap made) w.origin with
    | some origin =>
        let owner :=
          fun rel guid => if rel ∈ names ∧ guid = (made rel).guid then disk else w.owner rel guid
        (true, { w with origin, owner, faults := w.faults.tail })
    | none => (false, { w with faults := w.faults.tail })

/-- One call per pool; the first that fails ends the loop. -/
def snapshotPools (made : Rel → Ref) (disk : String) (wanted : List Rel) :
    List Rel → World → Bool × World
  | [], w => (true, w)
  | pool :: rest, w =>
      let names := wanted.filter fun rel => decide (Under rel pool)
      if names.isEmpty then snapshotPools made disk wanted rest w
      else
        let taken := w.snapshot names made disk
        if taken.1 then snapshotPools made disk wanted rest taken.2 else taken

/-- `Run.take_point`. -/
def takePoint (run : Run) (made : Rel → Ref) (w : World) : Bool × Run × World :=
  let read := w.read
  if !read.1 then (false, run, read.2)
  else
    let run := { run with origin := read.2.origin }
    let taken :=
      snapshotPools made run.disk.text (expected run.origin run.exclusions) run.pools read.2
    (taken.1, run, taken.2)

/-- `Run.survey`: no plans when a listing fails, or when the drive holds a pool that is not
imported. -/
def survey (run : Run) (w : World) : Option (List DatasetPlan) × Run × World :=
  let read := w.read
  if !read.1 then (none, run, read.2)
  else
    let run := { run with origin := read.2.origin }
    let read := read.2.read
    if !read.1 then (none, run, read.2)
    else
      let run := { run with dest := read.2.drive }
      let missing := [["rpool"], ["bpool"]].any fun pool =>
        covered pool run.pools = false && (run.dest.keys.any fun rel => decide (Under rel pool)) &&
          !(pool = ["bpool"] && run.ext4)
      (if missing then none else some (plan run.origin run.dest run.point run.exclusions), run,
        read.2)

/-! ### After the transfers -/

/-- A failed anchor is tried once more. -/
def anchorTwice (w : World) (rel : Rel) (point disk : String) : Bool × World :=
  let first := anchorPoint w rel point disk
  if first.1 then first else anchorPoint first.2 rel point disk

/-- `Run.anchor`: the datasets it could not anchor. -/
def anchor (run : Run) : List Rel → World → List Rel × World
  | [], w => ([], w)
  | rel :: rest, w =>
      if rel ∈ run.origin.keys then
        let once := anchorTwice w rel run.point run.disk.text
        let after := anchor run rest once.2
        (if once.1 then after.1 else rel :: after.1, after.2)
      else anchor run rest w

/-- Named after the moment it marks, not the run's point. -/
def Run.heldName (run : Run) (snap : Ref) : String :=
  anchorName run.disk.text (pointName snap.creation)

/-- What `anchor_held` bookmarks of one dataset: origin's snapshot of the drive's newest, unless a
bookmark of this drive has its guid or the name it would get. -/
def heldAnchor (run : Run) (o : Origin) (d : Option Dest) : Option Ref :=
  if isBpool o.rel then none
  else (d.bind Dest.newest).bind fun newest => (o.snapByGuid newest.guid).bind fun snap =>
    let mine := o.bookmarks.items.filter fun b => anchorDisk b.name = run.disk.text
    if (mine.any fun b => b.guid = newest.guid) || mine.any fun b => b.name = run.heldName snap then
      none
    else some snap

/-- The loop of `anchor_held`, over what was read. -/
def anchorEach (run : Run) (origin : Origins) (drive : Drive) : List Rel → World → List Rel × World
  | [], w => ([], w)
  | rel :: rest, w =>
      match (origin.get? rel).bind fun o => heldAnchor run o (drive.get? rel) with
      | none => anchorEach run origin drive rest w
      | some snap =>
          let made := w.command (.bookmark rel snap.name (run.heldName snap))
          let after := anchorEach run origin drive rest made.2
          (if made.1 then rel :: after.1 else after.1, after.2)

/-- `Run.anchor_held`: the datasets it anchored; nothing is done when either side cannot be read. -/
def anchorHeld (run : Run) (w : World) : List Rel × World :=
  let origin := w.read
  if !origin.1 then ([], origin.2)
  else
    let dest := origin.2.read
    if !dest.1 then ([], dest.2)
    else anchorEach run dest.2.origin dest.2.drive (expected dest.2.origin run.exclusions) dest.2

inductive Target where
  | snap (rel : Rel) (name : String)
  | bookmark (rel : Rel) (name : String)
  deriving DecidableEq, Repr

/-- Whether one snapshot or bookmark of origin may be destroyed, and why; a point another drive's
run left is anchored for its owner first. -/
structure Verdict where
  target : Target
  drop : Bool
  reason : String
  owner : String := ""
  deriving DecidableEq, Repr

/-- What `drop_check` reads. -/
structure Check where
  origin : Origins
  dest : Drive
  owners : SnapName → String

namespace Check

variable (run : Run) (c : Check)

def wanted (rel : Rel) : Bool := decide (rel ∈ expected c.origin run.exclusions)

def onBackup (rel : Rel) : List String :=
  ((c.dest.get? rel).map fun d => d.snaps.items.map Ref.guid).getD []

/-- A dataset's anchors: snapshots on bpool, bookmarks elsewhere. -/
def anchors (o : Origin) : Keyed Ref.name := if isBpool o.rel then o.snaps else o.bookmarks

/-- This run's anchor marks a snapshot the drive holds. -/
def verified (o : Origin) : Bool :=
  ((anchors o).get? run.keep).any fun anchor => (c.onBackup o.rel).contains anchor.guid

def pointVerdict (o : Origin) (s : Ref) : Verdict :=
  let target := Target.snap o.rel s.name
  let owner := c.owners (o.rel, s.name)
  if !c.wanted run o.rel then
    ⟨target, true, "dataset not replicated", if s.name = run.point then "" else owner⟩
  else if (c.dest.get? o.rel).any fun d => d.token ≠ "" then
    ⟨target, false, "partial receive to resume", ""⟩
  else if s.name = run.point ∧ ¬(c.onBackup o.rel).contains s.guid then
    ⟨target, true, "not on the backup, nothing to resume", ""⟩
  else if c.verified run o then
    let other := if owner = run.disk.text ∨ s.name = run.point then "" else owner
    let why :=
      if s.name ≠ run.point ∧ ¬(c.onBackup o.rel).contains s.guid then
        "not on " ++ run.pool ++ if other = "" then "; it names no drive" else ""
      else "on the backup, anchored as " ++ run.keep
    ⟨target, true, why, other⟩
  else ⟨target, false, "may be the base of the next run", ""⟩

def anchorVerdict (o : Origin) (name : String) : Verdict :=
  let target := if isBpool o.rel then Target.snap o.rel name else Target.bookmark o.rel name
  if !c.wanted run o.rel && isExcluded o.rel run.exclusions then
    ⟨target, false, "the base if " ++ o.rel.text ++ " is included again", ""⟩
  else if c.verified run o then ⟨target, true, "superseded by " ++ run.keep, ""⟩
  else ⟨target, false, "new anchor not verified", ""⟩

def datasetVerdicts (o : Origin) : List Verdict :=
  (o.snaps.items.filter fun s => isPoint s.name).map (c.pointVerdict run o) ++
    (oldAnchors (anchors o).keys run.disk.text run.keep).map (c.anchorVerdict run o)

end Check

/-- Origin's datasets by name. -/
def sortedOrigins (origin : Origins) : List Origin :=
  origin.items.insertionSort fun a b => a.rel.key ≤ b.rel.key

/-- What one strict reading of both sides shows. -/
def World.check (w : World) : Check := ⟨w.origin, w.drive, pointOwners w⟩

/-- `Run.drop_check`: nothing goes when a side cannot be read, or when the drive lost a dataset of
the last survey. -/
def dropCheck (run : Run) (w : World) : List Verdict × World :=
  let origin := w.read
  if !origin.1 then ([], origin.2)
  else
    let dest := origin.2.read
    if !dest.1 then ([], dest.2)
    else
      let owners := dest.2.read
      if !owners.1 then ([], owners.2)
      else if run.dest.keys.any fun rel => decide (rel ∉ owners.2.drive.keys) then ([], owners.2)
      else ((sortedOrigins owners.2.origin).flatMap (owners.2.check.datasetVerdicts run), owners.2)

def dropOne (w : World) (v : Verdict) : World :=
  if !v.drop then w
  else
    match v.target with
    | .snap rel name =>
        if v.owner ≠ "" then
          (releasePoint w rel name v.owner).2
        else (w.command (.destroySnap rel name)).2
    | .bookmark rel name => (w.command (.destroyBookmark rel name)).2

/-- `Run.drop`: what the check allowed, one by one. -/
def drop (verdicts : List Verdict) (w : World) : World := verdicts.foldl dropOne w

/-! ### A run that does not end normally -/

/-- Origin's snapshot of this run's point, as last read. -/
def Run.ownPoint (run : Run) (rel : Rel) : Option Ref := snapshot? run.origin (rel, run.point)

def Run.expected (run : Run) : List Rel := Zark.expected run.origin run.exclusions

/-- The datasets the drive holds at the point, with nothing left to resume. -/
def Run.atPoint (run : Run) (dest : Drive) : List Rel :=
  run.expected.filter fun rel => (dest.get? rel).any fun d =>
    d.token = "" && (run.ownPoint rel).any fun own => d.snaps.items.any fun s => s.guid = own.guid

/-- The datasets with a partial receive. -/
def Run.partials (run : Run) (dest : Drive) : List Rel :=
  run.expected.filter fun rel => (dest.get? rel).any fun d => d.token ≠ ""

/-- The point of one dataset goes, where it is and nothing keeps it. -/
def undoOne (run : Run) (gone kept : List Rel) (present : Option (List Rel)) (w : World)
    (rel : Rel) : World :=
  if rel ∈ gone ∨ (present.any fun names => decide (rel ∉ names)) ∨ rel ∈ kept then w
  else (w.command (.destroySnap rel run.point)).2

/-- The last loop of `undo_point`, with a fresh listing of where the point is. -/
def undoEach (run : Run) (gone kept : List Rel) (w : World) : World :=
  let read := w.read
  let present := if read.1 then
      some ((read.2.origin.items.filter fun o => decide (run.point ∈ o.snaps.keys)).map Origin.rel)
    else none
  run.expected.foldl (undoOne run gone kept present) read.2

/-- `Run.undo_point`. -/
def undoPoint (run : Run) (w : World) : World :=
  let dest := w.read
  if dest.1 then
    let atPoint := run.atPoint dest.2.drive
    let anchored := anchor run atPoint dest.2
    let held := anchorHeld run anchored.2
    let gone := atPoint.filter fun rel => isBpool rel && decide (rel ∉ anchored.1)
    undoEach run gone (run.partials dest.2.drive ++ anchored.1) held.2
  else undoEach run [] run.started dest.2

/-! ### Endings -/

/-- What a run does once its transfers are over and surveyed. -/
def finish (run : Run) (plans : List DatasetPlan) (w : World) : World :=
  let atPoint := (plans.filter fun p => p.state = .atPoint).map DatasetPlan.rel
  let anchored := anchor run atPoint w
  let held := anchorHeld run anchored.2
  let checked := dropCheck run held.2
  drop checked.1 checked.2

end Zark
