import Zark.RestorePoints

/-!
# Marking a point complete

`record_complete` of `lib/drive_marks.py`: every snapshot of the new point gets the number of its
datasets, and points marked before the count existed are brought to it once. What is on the drive is
read without strictness, so a listing that fails reads as empty, and each `zfs set` may fail after
it has reached some of its targets.
-/

namespace Zark

open Hierarchy

/-- Which of the reads succeed: the listing and the marks of a root, the metadata of the pool. -/
structure Reads where
  listed : Rel → Bool := fun _ => true
  marked : Rel → Bool := fun _ => true
  metadata : Bool := true

def roots : List Rel := [["rpool"], ["bpool"]]

/-- `drive_snapshots`, not strict: a root that does not list has no snapshots, and one whose marks
cannot be read has no marks. -/
def readSnapshots (dest : Drive) (marks : Marks) (reads : Reads) : List Snap :=
  (roots.filter reads.listed).flatMap fun root =>
    driveSnapshots (dest.filter fun d => decide (Under d.rel root))
      (if reads.marked root then marks else fun _ => "")

def readLastPoint (lastPoint : String) (reads : Reads) : String :=
  if reads.metadata then lastPoint else ""

/-- How many datasets hold a point, as the mark records it. -/
def countMark (n : ℕ) : String := toString n

def datasetCount (members : List Snap) : ℕ := (members.map Snap.dataset).dedup.length

/-- The points marked before the count existed, or before marks did. -/
def oldPoints (snaps : List Snap) (lastPoint : String) : List String :=
  if markedPoints snaps = [] then legacyComplete snaps lastPoint
  else (markedPoints snaps).filter fun name => (pointMembers snaps name).all (·.mark = legacyMark)

/-- Mark value and snapshots of each of them but the new point. -/
def countsForOldMarks (snaps : List Snap) (lastPoint point : String) :
    List (String × List SnapName) :=
  (((oldPoints snaps lastPoint).filter (· ≠ point)).insertionSort (· ≤ ·)).map fun name =>
    (countMark (datasetCount (pointMembers snaps name)), (pointMembers snaps name).map fun s =>
      (s.stored, s.name))

/-- `setdefault(value, []).extend(targets)`. -/
def extendGroup (groups : List (String × List SnapName)) (entry : String × List SnapName) :
    List (String × List SnapName) :=
  if entry.1 ∈ groups.map Prod.fst then groups.map fun g =>
    if g.1 = entry.1 then (g.1, g.2 ++ entry.2) else g
  else groups ++ [entry]

/-- How a `zfs set` of one value went: it reached every target, or it failed and reached some. -/
abbrev SetOutcome := Option (SnapName → Bool)

def SetOutcome.reached (out : SetOutcome) (x : SnapName) : Bool :=
  match out with
  | none => true
  | some targets => targets x

def zfsSet (value : String) (targets : List SnapName) (out : SetOutcome) (marks : Marks) : Marks :=
  fun x =>
    if x ∈ targets ∧ out.reached x = true then value else marks x

/-- The targets of each value. -/
def markGroups (snaps : List Snap) (lastPoint point : String) (rels : List Rel) :
    List (String × List SnapName) :=
  (countsForOldMarks snaps lastPoint point).foldl extendGroup
    [(countMark rels.length, rels.map fun rel => (rel, point))]

/-- The marks after, and whether every set succeeded. -/
def recordComplete (dest : Drive) (marks : Marks) (lastPoint point : String) (rels : List Rel)
    (reads : Reads) (sets : String → SetOutcome) :
    Marks × Bool :=
  let groups :=
    markGroups (readSnapshots dest marks reads) (readLastPoint lastPoint reads) point rels
  (groups.insertionSort fun a b => a.1 ≤ b.1).foldl
    (fun out group =>
      if group.2.isEmpty then
        out
      else (zfsSet group.1 group.2 (sets group.1) out.1, out.2 && (sets group.1).isNone))
    (marks, true)

/-! ### What a set reaches -/

/-- The value a snapshot is to be marked with. -/
def markValue (snaps : List Snap) (point : String) (rels : List Rel) (x : SnapName) : String :=
  if x.2 = point then countMark rels.length else countMark (datasetCount (pointMembers snaps x.2))

/-- A snapshot named by some set. -/
def isTarget (snaps : List Snap) (lastPoint point : String) (rels : List Rel) (x : SnapName) :
    Bool :=
  if x.2 = point then decide (x.1 ∈ rels)
  else decide (x.2 ∈ oldPoints snaps lastPoint) && snaps.any fun s => s.stored = x.1 && s.name = x.2

/-- A snapshot some set reaches. -/
def isReached (dest : Drive) (marks : Marks) (lastPoint point : String) (rels : List Rel)
    (reads : Reads) (sets : String → SetOutcome) (x : SnapName) : Bool :=
  let snaps := readSnapshots dest marks reads
  isTarget snaps (readLastPoint lastPoint reads) point rels x &&
    (sets (markValue snaps point rels x)).reached x

/-! ### The standing of the other points -/

/-- Some snapshot of a point carries a count. -/
def isNumbered (snaps : List Snap) (name : String) : Bool :=
  (pointMembers snaps name).any fun s => (markCount s.mark).isSome

/-- No other point leaves the run-complete ones, and none with a count becomes complete. -/
structure KeepsStanding (before after : List Snap) (lastPoint point : String) : Prop where
  run : ∀ name ≠ point, name ∈ runCompletePoints before lastPoint →
    name ∈ runCompletePoints after lastPoint
  complete : ∀ name ≠ point, isNumbered before name = true →
    isComplete (pointMembers before name) = false →
    isComplete (pointMembers after name) = false

/-- Every snapshot of a point ends with the number of datasets that were read, and it is the number
there are. -/
def isRecounted (snaps found : List Snap) (reached : SnapName → Bool) (name : String) : Bool :=
  (pointMembers snaps name).all (fun s => reached (s.stored, s.name) || s.mark
    = countMark (datasetCount (pointMembers found name))) &&
    datasetCount (pointMembers found name) = datasetCount (pointMembers snaps name)

/-- When the sets of a run change the standing of no other point, by what was on the drive, what was
read and what was reached. -/
structure Careful (snaps found : List Snap) (lastPoint point : String) (reached : SnapName → Bool) :
    Prop where
  run : markedPoints snaps ≠ [] ∨ (∀ s ∈ snaps, isPoint s.name = true →
    reached (s.stored, s.name) = false) ∨
    ∀ name ∈ legacyComplete snaps lastPoint, name ≠ point → ∃ s ∈ snaps, s.name = name ∧
    reached (s.stored, s.name) = true
  counts : ∀ name ≠ point, isNumbered snaps name = true →
    isComplete (pointMembers snaps name) = false →
    isRecounted snaps found reached name = false

end Zark
