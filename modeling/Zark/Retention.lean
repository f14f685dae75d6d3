import Zark.Library.Best
import Zark.Replication

/-!
# Destination retention

`lib/retention.py`: which snapshots on a backup drive may go. A backup point is dated once for the
whole drive, by its newest snapshot; inside the window everything stays, outside it the newest
complete point of each calendar month, and the newest complete point and the newest snapshot of
every live dataset always. An archived lineage or kept orphan left with nothing is destroyed whole.

A prune is decided in two steps: `terms` fixes what holds for the whole drive, and `Terms.judge`
judges one snapshot by it.
-/

namespace Zark

open Hierarchy

/-- A drive's retention settings; `maxAgeDays` 0 is off, `marginPct` is the free space a backup
tries to leave. -/
structure Policy where
  windowDays : ℤ := 30
  maxAgeDays : ℤ := 0
  marginPct : ℕ := 10
  deriving DecidableEq, Repr

/-- One snapshot that may go, and why. -/
structure Removal where
  rel : Rel
  name : String
  reason : String
  deriving DecidableEq, Repr

def Removal.target (r : Removal) : SnapName := (r.rel, r.name)

/-- What the policy removes from a drive: snapshots, trees destroyed whole, and what is kept and
worth reporting. -/
structure Prune where
  snapshots : List Removal := []
  datasets : List (Rel × String) := []
  kept : List (SnapName × String) := []
  deriving DecidableEq, Repr

/-- A dataset I-E protects: neither an archived lineage nor a kept orphan. -/
def isLive (d : Dest) : Bool := !isArchived d.rel && !keptMark d.orphan

inductive SnapKind where
  | point
  | intermediate
  | other
  deriving DecidableEq, Repr

/-- A backup point, an intermediate (sanoid's, or another drive's bpool anchor), or another name. -/
def snapshotKind (name : String) : SnapKind :=
  if isPoint name then .point
  else if startsWith name "autosnap_" || anchorDisk name != "" then .intermediate
  else .other

theorem snapshotKind_of_isPoint {name : String} (h : isPoint name = true) :
    snapshotKind name = .point := if_pos h

/-! ### Points -/

/-- The calendar month of a unix time, in UTC. -/
def month (ts : ℕ) : ℕ × ℕ :=
  let date := Calendar.ofSeconds ts
  (date.year, date.month)

/-- Backup points by name, each with its time. -/
abbrev Times := Keyed (Prod.fst : String × ℕ → String)

/-- The snapshots of backup points on the drive. -/
def pointRefs (dest : Drive) : List Ref :=
  dest.items.flatMap fun d => d.snaps.items.filter fun s => isPoint s.name

def newestCreation (refs : List Ref) (name : String) : ℕ :=
  (refs.filter (·.name = name)).foldl (fun t s => max t s.creation) 0

/-- Backup point name and its newest snapshot's `creation` on the drive. -/
def pointTimes (dest : Drive) : Times where
  items :=
    ((pointRefs dest).map Ref.name).dedup.map fun name =>
      (name, newestCreation (pointRefs dest) name)
  nodup := by
    rw [List.map_map]
    exact (List.map_id _).symm ▸ List.nodup_dedup _

/-- What a month's points are compared by: whole before partial, then by time, then by name. -/
def rank (whole : List String) (point : String × ℕ) : Bool ×ₗ ℕ ×ₗ String :=
  toLex (whole.contains point.1, toLex (point.2, point.1))

def completePoints (times : Times) (complete : List String) : List (String × ℕ) :=
  times.items.filter fun point => complete.contains point.1

/-- The newest whole point of each calendar month, or its newest run-complete one when it has no
whole one. -/
def monthlyPoints (times : Times) (complete whole : List String) : List String :=
  (Best.perGroup (fun point => month point.2) (rank whole)
    (completePoints times complete)).map Prod.fst

/-- The newest whole point, else the newest run-complete one. -/
def newestComplete (times : Times) (complete whole : List String) : Option String :=
  ((completePoints times complete).argmax (rank whole)).map Prod.fst

private def number (l : List Char) : ℕ := l.foldl (fun n c => 10 * n + (c.toNat - '0'.toNat)) 0

/-- The unix time of a point name, unless its digits are no date: `strptime` raises there. -/
def parsePoint (name : String) : Option ℤ :=
  match name.toList.drop pointPrefix.length with
  | [y₁, y₂, y₃, y₄, _, m₁, m₂, _, d₁, d₂, _, h₁, h₂, _, n₁, n₂, _, s₁, s₂, _] =>
      let date : Calendar.Date := ⟨number [y₁, y₂, y₃, y₄], number [m₁, m₂], number [d₁, d₂]⟩
      let hour := number [h₁, h₂]
      let minute := number [n₁, n₂]
      let second := number [s₁, s₂]
      if date.valid && decide (hour < 24 ∧ minute < 60 ∧ second < 60) then
        some (date.toDays * 86400 + hour * 3600 + minute * 60 + second)
      else none
  | _ => none

/-- Where 1.x history ends: the recorded first point or the oldest point still there; `none` inside
for a drive with neither, outside when the recorded name is no date. -/
def firstPointTime (times : Times) (recorded : String) : Option (Option ℤ) :=
  let found := times.items.map fun point => (point.2 : ℤ)
  if isPoint recorded then (parsePoint recorded).map fun t => (found ++ [t]).min?
  else some found.min?

/-! ### Removals -/

/-- What a prune is asked with; `whole` is every complete point unless given, and `protect` names
what must stay for this run. -/
structure Request where
  complete : List String
  policy : Policy
  now : ℤ
  whole : Option (List String) := none
  pinned : List (SnapName × String) := []
  protect : List SnapName := []
  first : String := ""

namespace Request

def wholePoints (r : Request) : List String := r.whole.getD r.complete

/-- The start of the window. -/
def window (r : Request) : ℤ := r.now - r.policy.windowDays * 86400

/-- The age limit, when there is one. -/
def tooOld (r : Request) : Option ℤ :=
  if r.policy.maxAgeDays = 0 then none else some (r.now - r.policy.maxAgeDays * 86400)

end Request

/-- What a prune decides once for the whole drive. -/
structure Terms where
  request : Request
  times : Times
  start : ℤ
  monthly : List String
  keepPoint : Option String

def terms (dest : Drive) (r : Request) (start : ℤ) : Terms :=
  let times := pointTimes dest
  { request := r
    times
    start
    monthly := monthlyPoints times r.complete r.wholePoints
    keepPoint := newestComplete times r.complete r.wholePoints }

/-- The date a snapshot is judged by: its point's, or its own. -/
def dated (times : Times) (s : Ref) : ℕ :=
  match snapshotKind s.name with
  | .point => ((times.get? s.name).map Prod.snd).getD s.creation
  | _ => s.creation

namespace Terms

/-- Why a snapshot is never removed by the policy. -/
def keepReason (t : Terms) (d : Dest) (s : Ref) : Option String :=
  let newest := if isLive d then d.newest else none
  if snapshotKind s.name = .other then some "not written by zark or sanoid"
  else if dated t.times s < t.start then some "from before the drive's first backup point"
  else if newest.any fun n => s.guid = n.guid then some "newest snapshot of a live dataset (I-E)"
  else if some s.name = t.keepPoint then some "newest complete backup point"
  else if (d.rel, s.name) ∈ t.request.protect then some "base of this run"
  else none

/-- Why a snapshot older than the window goes. -/
def outsideWindow (t : Terms) (name : String) : Option String :=
  if snapshotKind name = .intermediate then some "intermediate older than the window"
  else if name ∈ t.monthly then none
  else if name ∉ t.request.complete then some "incomplete backup point older than the window"
  else some "older than the window, not its month's newest complete point"

end Terms

/-- What the policy says of one snapshot. -/
inductive Judgement where
  | stay
  | report (why : String)
  | remove (reason : String)
  deriving DecidableEq, Repr

def Terms.judge (t : Terms) (d : Dest) (s : Ref) : Judgement :=
  if (t.keepReason d s).isSome then .stay
  else
    match t.request.pinned.lookup (d.rel, s.name) with
    | some why => if dated t.times s < t.request.window then .report why else .stay
    | none =>
        if t.request.tooOld.any fun limit => (dated t.times s : ℤ) < limit then
          .remove ("older than " ++ toString t.request.policy.maxAgeDays ++ " days")
        else if t.request.window ≤ dated t.times s then .stay
        else
          match t.outsideWindow s.name with
          | some reason => .remove reason
          | none => .stay

def Judgement.removal (d : Dest) (s : Ref) : Judgement → Option Removal
  | .remove reason => some ⟨d.rel, s.name, reason⟩
  | _ => none

def Judgement.reported (d : Dest) (s : Ref) : Judgement → Option (SnapName × String)
  | .report why => some ((d.rel, s.name), why)
  | _ => none

/-- The snapshots that go, dataset by dataset. -/
def Terms.removals (t : Terms) (dest : Drive) : List Removal :=
  (sortedItems dest).flatMap fun d => d.snaps.items.filterMap fun s => (t.judge d s).removal d s

/-- A dataset I-E does not protect that the removals leave with no snapshot. -/
def emptied (removals : List Removal) (d : Dest) : Bool :=
  !isLive d && d.snaps.items.length == (removals.filter (·.rel = d.rel)).length &&
    !d.snaps.items.isEmpty

/-- One step of the walk over the emptied datasets: a tree below one already taken goes with it, and
a tree goes whole only when nothing below its top stays. -/
def addWhole (dest : Drive) (removals : List Removal) (out : List (Rel × String)) (d : Dest) :
    List (Rel × String) :=
  if out.any fun t => decide (Under d.rel t.1 ∧ d.rel ≠ t.1) then out
  else if dest.items.all fun e => !decide (Under e.rel d.rel) || emptied removals e ||
      e.snaps.items.isEmpty then
    out ++ [(d.rel, (if isArchived d.rel then "archived lineage" else "kept orphan") ++
      " with nothing left that the policy keeps")]
  else out

/-- Archived lineages and kept orphans that the removals leave with no snapshot, by subtree top. -/
def wholeDatasets (dest : Drive) (removals : List Removal) : List (Rel × String) :=
  ((sortedItems dest).filter (emptied removals)).foldl (addWhole dest removals) []

/-- What the policy removes; nothing on a drive with no backup point, and no answer when the
recorded first point is no date. -/
def planPrune (dest : Drive) (r : Request) : Option Prune :=
  (firstPointTime (pointTimes dest) r.first).map fun first =>
    match first with
    | none => {}
    | some start =>
        let t := terms dest r start
        let kept :=
          (sortedItems dest).flatMap fun d => d.snaps.items.filterMap fun s =>
            (t.judge d s).reported d s
        { snapshots := t.removals dest, datasets := wholeDatasets dest (t.removals dest), kept }

/-- The monthly points outside the window a space plan may remove beyond the policy, oldest
first. -/
def spaceCandidates (dest : Drive) (r : Request) (prune : Prune) : List String :=
  let times := pointTimes dest
  let names := (monthlyPoints times r.complete r.wholePoints).filter fun name =>
    ((times.get? name).any fun point => (point.2 : ℤ) < r.window) &&
      some name != newestComplete times r.complete r.wholePoints &&
        !(prune.snapshots.map Removal.name).contains name
  names.insertionSort fun a b => ((times.get? a).map Prod.snd).getD 0
    ≤ ((times.get? b).map Prod.snd).getD 0

/-- Every snapshot of one backup point that may go. -/
def pointRemovals (dest : Drive) (r : Request) (name : String) : List Removal :=
  (sortedItems dest).flatMap fun d =>
    let newest := if isLive d then d.newest else none
    d.snaps.items.filterMap fun s =>
      if s.name ≠ name ∨ (r.pinned.lookup (d.rel, s.name)).isSome ∨ (d.rel, s.name) ∈ r.protect then
        none
      else if newest.any fun n => s.guid = n.guid then none
      else some ⟨d.rel, s.name, "oldest monthly point, to free space"⟩

/-! ### What the policy takes -/

/-- What the policy may not take of a dataset, whatever the time: I-E, a base of the run, a pin. -/
def heldBack (r : Request) (d : Dest) (s : Ref) : Bool :=
  (if isLive d then d.newest else none).any (fun n => decide (s.guid = n.guid)) || decide
    ((d.rel, s.name) ∈ r.protect) ||
    (r.pinned.lookup (d.rel, s.name)).isSome

namespace Terms

def TooOld (t : Terms) (when' : ℕ) : Prop :=
  (t.request.tooOld.any fun limit => decide ((when' : ℤ) < limit)) = true

/-- Past the age limit, or outside the window without standing for a month. -/
def Due (t : Terms) (when' : ℕ) (name : String) : Prop :=
  t.TooOld when' ∨ (when' : ℤ) < t.request.window ∧
    (snapshotKind name = .intermediate ∨ name ∉ t.monthly)

/-- The policy takes the snapshot. -/
structure Takes (t : Terms) (d : Dest) (s : Ref) : Prop where
  kind : snapshotKind s.name ≠ .other
  after : t.start ≤ dated t.times s
  free : heldBack t.request d s = false
  other : some s.name ≠ t.keepPoint
  due : t.Due (dated t.times s) s.name

instance (t : Terms) (when' : ℕ) (name : String) : Decidable (t.Due when' name) :=
  inferInstanceAs (Decidable ((t.request.tooOld.any _) = true ∨ _))

instance (t : Terms) (d : Dest) (s : Ref) : Decidable (t.Takes d s) :=
  decidable_of_iff (snapshotKind s.name ≠ .other ∧ t.start ≤ dated t.times s ∧
      heldBack t.request d s = false ∧
      some s.name ≠ t.keepPoint ∧ t.Due (dated t.times s) s.name)
    ⟨fun ⟨kind, after, free, other, due⟩ => ⟨kind, after, free, other, due⟩, fun h =>
      ⟨h.kind, h.after, h.free, h.other, h.due⟩⟩

end Terms

/-! ### What is left -/

/-- A dataset without the snapshots named. -/
def Dest.withoutSnaps (d : Dest) (gone : List SnapName) : Dest :=
  { d with snaps := d.snaps.filter fun s => decide ((d.rel, s.name) ∉ gone) }

@[simp] theorem Dest.withoutSnaps_rel (d : Dest) (gone : List SnapName) :
    (d.withoutSnaps gone).rel = d.rel := rfl

/-- The drive once these snapshots and trees are destroyed. -/
def Drive.destroyed (dest : Drive) (removals : List Removal) (tops : List Rel) : Drive :=
  (dest.map (·.withoutSnaps (removals.map Removal.target)) fun d => d.withoutSnaps_rel _).filter
    fun d => !covered d.rel tops

/-- The drive once a prune is applied. -/
def Drive.pruned (dest : Drive) (prune : Prune) : Drive :=
  Drive.destroyed dest prune.snapshots (prune.datasets.map Prod.fst)

end Zark
