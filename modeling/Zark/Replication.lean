import Zark.Library.Keyed
import Zark.Names

/-!
# The replication planner

What each dataset needs to reach a backup point, as `lib/replication.py` decides it from the
metadata of both sides. The incremental base is always the drive's newest snapshot, found in origin
by guid as a snapshot or, on rpool only, as a bookmark; an older common snapshot, nothing in common,
a drive copy written since its newest snapshot or a dataset origin no longer has are decisions for
the user.

Both sides are tables of datasets keyed by name, and the snapshots and bookmarks of a dataset are
tables keyed by their own names, in `createtxg` order.
-/

namespace Zark

open Hierarchy

/-- A snapshot or bookmark of one dataset. -/
structure Ref where
  name : String
  guid : String
  createtxg : Nat
  creation : Nat
  deriving DecidableEq, Repr

inductive Kind where
  | filesystem
  | volume
  deriving DecidableEq, Repr

/-- A snapshot of a dataset, named in full: `rel@name`. -/
abbrev SnapName := Rel × String

/-- An origin dataset: its kind, mount properties, snapshots and bookmarks. -/
structure Origin where
  rel : Rel
  kind : Kind := .filesystem
  canmount : String := ""
  mountpoint : String := ""
  referenced : Nat := 0
  snaps : Keyed Ref.name := ∅
  bookmarks : Keyed Ref.name := ∅
  cloneOf : Option SnapName := none
  deriving DecidableEq

namespace Origin

def snapByGuid (o : Origin) (guid : String) : Option Ref := o.snaps.items.find? (·.guid == guid)

def bookmarkByGuid (o : Origin) (guid : String) : Option Ref :=
  o.bookmarks.items.find? (·.guid == guid)

end Origin

/-- A destination dataset: snapshots, partial receive state and markers; "" is no token and no
mark. -/
structure Dest where
  rel : Rel
  kind : Kind := .filesystem
  token : String := ""
  orphan : String := ""
  excludedKept : String := ""
  used : Nat := 0
  written : Nat := 0
  snaps : Keyed Ref.name := ∅
  cloneOf : Option SnapName := none
  deriving DecidableEq

/-- A dataset marked by the user as kept, as `zfs set` writes it: `kept@<stamp>`. -/
def keptMark (value : String) : Bool := startsWith value "kept@"

/-- The destination's newest snapshot. -/
def Dest.newest (d : Dest) : Option Ref := d.snaps.items.getLast?

/-- Origin's datasets by name. -/
abbrev Origins := Keyed Origin.rel

/-- Origin's snapshot of that name. -/
def snapshot? (origin : Origins) (name : SnapName) : Option Ref :=
  (origin.get? name.1).bind fun o => o.snaps.get? name.2

/-- The drive's datasets by origin name. -/
abbrev Drive := Keyed Dest.rel

/-! ### Order -/

/-- `sorted(rels)`. -/
def sortRels (l : List Rel) : List Rel := l.insertionSort fun a b => a.key ≤ b.key

@[simp] theorem mem_sortRels {l : List Rel} {r : Rel} : r ∈ sortRels l ↔ r ∈ l :=
  List.mem_insertionSort _

theorem nodup_sortRels {l : List Rel} : (sortRels l).Nodup ↔ l.Nodup :=
  (List.perm_insertionSort _ l).nodup_iff

/-- `sorted(dest.items())`. -/
def sortedItems (dest : Drive) : List Dest :=
  dest.items.insertionSort fun a b => a.rel.key ≤ b.rel.key

theorem mem_sortedItems {dest : Drive} {d : Dest} : d ∈ sortedItems dest ↔ d ∈ dest :=
  List.mem_insertionSort _

theorem pairwise_sortedItems (dest : Drive) :
    (sortedItems dest).Pairwise fun a b => a.rel.key ≤ b.rel.key :=
  letI : Std.Total fun a b : Dest => a.rel.key ≤ b.rel.key := ⟨fun _ _ => le_total _ _⟩
  letI : IsTrans Dest fun a b => a.rel.key ≤ b.rel.key := ⟨fun _ _ _ => le_trans⟩
  List.pairwise_insertionSort _ _

theorem sortedItems_perm (dest : Drive) : (sortedItems dest).Perm dest.items :=
  List.perm_insertionSort _ _

/-! ### Plans -/

/-- What a dataset needs. -/
inductive State where
  | atPoint
  | resume
  | new
  | incremental
  | viaBookmark
  | rollback
  | diverged
  | modified
  | orphan
  | excluded
  deriving DecidableEq, Repr

/-- States the engine can transfer without asking anything. -/
def State.transferable : State → Bool
  | .atPoint | .resume | .new | .incremental | .viaBookmark => true
  | _ => false

/-- What a transfer starts from: nothing, `@name` or `#name` of the dataset itself, or another
dataset's snapshot in full. -/
inductive Base where
  | none
  | snapshot (name : String)
  | bookmark (name : String)
  | full (source : SnapName)
  deriving DecidableEq, Repr

/-- The plan for one dataset. -/
structure DatasetPlan where
  rel : Rel
  state : State
  base : Base := .none
  first : Option String := none
  common : Option String := none
  newer : List String := []
  renameTo : Option Rel := none
  cloneFrom : Option SnapName := none
  kept : Bool := false
  partialReceive : Bool := false
  after : Option State := none
  used : Nat := 0
  note : String := ""
  declared : Bool := false
  held : Bool := false
  deriving DecidableEq, Repr

/-- An excluded subtree top in `skip` is `rel` or above it. -/
def isExcluded (rel : Rel) (skip : List Rel) : Bool := covered rel skip

/-- A dataset a backup must bring to the point: neither the keystore, a volume, a structural
container, an archived name nor excluded. -/
def isExpected (o : Origin) (skip : List Rel) : Bool :=
  !decide (Under o.rel keystore) && o.kind != .volume && !structural.contains o.rel &&
    !isArchived o.rel &&
    !isExcluded o.rel skip

/-- The datasets a backup must bring to the point, parents first. -/
def expected (origin : Origins) (skip : List Rel) : List Rel :=
  sortRels ((origin.items.filter (isExpected · skip)).map Origin.rel)

theorem mem_expected {origin : Origins} {skip : List Rel} {rel : Rel} :
    rel ∈ expected origin skip ↔ ∃ o, origin.get? rel = some o ∧ isExpected o skip = true := by
  simp only [expected, mem_sortRels, List.mem_map, List.mem_filter, Keyed.get?_eq_some_iff]
  constructor
  · rintro ⟨o, ⟨ho, hexpected⟩, hrel⟩
    exact ⟨o, ⟨ho, hrel⟩, hexpected⟩
  · rintro ⟨o, ⟨ho, hrel⟩, hexpected⟩
    exact ⟨o, ⟨ho, hexpected⟩, hrel⟩

theorem nodup_expected (origin : Origins) (skip : List Rel) : (expected origin skip).Nodup :=
  nodup_sortRels.mpr (origin.nodup.sublist (List.filter_sublist.map Origin.rel))

def structuralDataLimit : Nat := 8 * 1024 * 1024

/-- Why a structural container is reported, when it is. -/
def structuralReason (o : Origin) : Option String :=
  if o.referenced > structuralDataLimit then some "structural container holding data, not backed up"
  else if (o.canmount == "on" || o.canmount == "noauto") && startsWith o.mountpoint "/" then
    some ("structural container mountable at " ++ o.mountpoint ++ ", not backed up")
  else none

/-- What is left out on purpose and worth reporting, with why. -/
def excluded (origin : Origins) : List (Rel × String) :=
  let volumes := origin.items.filterMap fun o =>
    if o.kind == .volume && o.rel != keystore then some (o.rel, "zvol, not backed up") else none
  let archived := origin.items.filterMap fun o =>
    if isArchived o.rel && o.kind != .volume then
      some (o.rel,
        "its name contains .archived-, which zark reserves for archived lineages: rename it")
    else none
  let containers := structural.filterMap fun rel =>
    (origin.get? rel).bind fun o => (structuralReason o).map fun why => (rel, why)
  (volumes ++ archived ++ containers).insertionSort fun a b => a.1.text < b.1.text ∨
    a.1 = b.1 ∧ a.2 ≤ b.2

/-- Origin's reference with that guid that a transfer of `o` may start from: a snapshot or, on rpool
only, a bookmark. -/
def originBase (o : Origin) (guid : String) : Option Base :=
  match o.snapByGuid guid with
  | some own => some (.snapshot own.name)
  | none => if isBpool o.rel then none else (o.bookmarkByGuid guid).map fun bm => .bookmark bm.name

/-- The newest of the older snapshots origin still has, from the newest down, with those after it in
order. -/
def findCommon (o : Origin) : List Ref → List Ref → Option (Ref × Base × List Ref)
  | [], _ => none
  | s :: older, newer =>
      match originBase o s.guid with
      | some base => some (s, base, newer)
      | none => findCommon o older (s :: newer)

/-- The plan when the drive's newest snapshot is gone from origin. -/
def planOlder (o : Origin) (d : Dest) (newest : Ref) : DatasetPlan :=
  match findCommon o d.snaps.items.reverse.tail [newest] with
  | some (s, base, newer) =>
      { rel := o.rel, state := .rollback, base, common := some s.name, newer := newer.map Ref.name,
        used := d.used }
  | none =>
      { rel := o.rel, state := .diverged, used := d.used, note := "no common snapshot or bookmark" }

/-- The first origin snapshot after a bookmark of the drive's newest, with the bookmark; rpool
only. -/
def viaBookmark (o : Origin) (guid : String) : Option (Ref × Ref) :=
  if isBpool o.rel then none
  else (o.bookmarkByGuid guid).bind fun bm =>
    (o.snaps.items.find? (·.createtxg > bm.createtxg)).map fun first => (bm, first)

/-- `_plan_dataset`: the plan before what was written on the drive is looked at. -/
def planUnwritten (o : Origin) (d : Option Dest) (point : String) : DatasetPlan :=
  match d with
  | none => { rel := o.rel, state := .new }
  | some d =>
      if d.token != "" then { rel := o.rel, state := .resume }
      else
        match d.newest with
        | none =>
            { rel := o.rel, state := .diverged, used := d.used, note := "no snapshot on backup" }
        | some newest =>
            match o.snapByGuid newest.guid with
            | some own =>
                if own.name == point then { rel := o.rel, state := .atPoint }
                else { rel := o.rel, state := .incremental, base := .snapshot own.name }
            | none =>
                match viaBookmark o newest.guid with
                | some (bm, first) =>
                    { rel := o.rel, state := .viaBookmark, base := .bookmark bm.name,
                      first := some first.name }
                | none => planOlder o d newest

def State.isIncremental (s : State) : Bool := s == .incremental || s == .viaBookmark

/-- A written dataset whose partial receive would be refused at its end, planned without that
state. -/
def planPartial (o : Origin) (d : Dest) (point : String) : DatasetPlan :=
  let p := planUnwritten o (some { d with token := "" }) point
  { p with
    partialReceive := true, after := some p.state,
    base := if p.state.isIncremental then p.base else .none }

/-- A plan the user is asked about because the drive's copy was written. -/
def asModified (p : DatasetPlan) (d : Dest) : DatasetPlan :=
  { p with state := .modified, used := d.written, common := d.newest.map Ref.name }

/-- State of one expected dataset. -/
def planDataset (o : Origin) (d : Option Dest) (point : String) : DatasetPlan :=
  let p := planUnwritten o d point
  match d with
  | none => p
  | some d =>
      if d.written = 0 then p
      else
        let p := if p.state == .resume && d.newest.isSome then planPartial o d point else p
        if p.state.isIncremental || p.partialReceive then asModified p d else p

/-- A new clone whose origin snapshot the drive holds, matched by guid, is sent from it. -/
def cloneBase (p : DatasetPlan) (o : Origin) (origin : Origins) (live : Drive) : DatasetPlan :=
  let copy := o.cloneOf.bind fun source =>
    (origin.get? source.1).bind fun parentO => (live.get? source.1).bind fun held =>
      (parentO.snaps.get? source.2).bind fun snap =>
        (held.snaps.items.find? (·.guid == snap.guid)).map fun copy => (source, copy)
  match copy with
  | some (source, copy) =>
      { p with
        base := .full source
        cloneFrom := some (source.1, copy.name)
        note := "clone of " ++ source.1.text ++ "@" ++ source.2 }
  | none => p

/-- The plan of one expected dataset among all of them. -/
def planExpected (o : Origin) (origin : Origins) (live : Drive) (point : String) : DatasetPlan :=
  let p := planDataset o (live.get? o.rel) point
  if p.state == .new then cloneBase p o origin live else p

/-- The drive's datasets that are no archived lineage. -/
def liveDatasets (dest : Drive) : Drive := dest.filter fun d => !isArchived d.rel

/-- One row per subtree excluded from backups. -/
def declaredRows (origin : Origins) (live : Drive) (skip : List Rel) : List DatasetPlan :=
  (sortRels (skip.filter (· ∈ origin.keys))).map fun top =>
    let held := live.get? top
    { rel := top
      state := .excluded
      note := "excluded from backups (zark exclude)"
      used := ((origin.items.filter fun o => isExcluded o.rel [top]).map Origin.referenced).sum
      declared := true
      held := held.isSome
      kept := held.any fun d => keptMark d.excludedKept }

/-- Whether origin's `o` continues the lineage of a drive copy whose newest snapshot is `newest`. -/
def continuesLineage (o : Origin) (newest : Ref) : Bool :=
  (o.snapByGuid newest.guid).isSome || (!isBpool o.rel && (o.bookmarkByGuid newest.guid).isSome)

/-- The name an orphan's lineage has in origin now, when a plain rename on the drive can follow
it. -/
def renameOf (rel : Rel) (taken newNames : List Rel) (origin : Origins) (live : Drive) :
    Option Rel :=
  ((live.get? rel).bind Dest.newest).bind fun newest =>
    (sortRels newNames).find? fun name =>
      isBpool name == isBpool rel && ((origin.get? name).any fun o => continuesLineage o newest) &&
        decide (parent name ∈ live.keys) && !taken.contains name

/-- Orphan and new origin name, for the orphans whose lineage continues under another name; no name
is given twice. -/
def renames (tops newNames : List Rel) (origin : Origins) (live : Drive) : List (Rel × Rel) :=
  tops.foldl
    (fun out rel =>
      match renameOf rel (out.map Prod.snd) newNames origin live with
      | some name => out ++ [(rel, name)]
      | none => out)
    []

/-- The datasets only the drive has, apart from structural containers. -/
def orphans (origin : Origins) (live : Drive) : List Rel :=
  sortRels (live.keys.filter fun rel => !(decide (rel ∈ origin.keys)) && !structural.contains rel)

/-- The orphans whose parent is none. -/
def orphanTops (origin : Origins) (live : Drive) : List Rel :=
  let all := orphans origin live
  all.filter fun rel => !all.contains (parent rel)

/-- Plan every expected dataset, plus one row per tree origin no longer has and per tree or dataset
left out. -/
def plan (origin : Origins) (dest : Drive) (point : String) (skip : List Rel) : List DatasetPlan :=
  let live := liveDatasets dest
  let wanted :=
    (expected origin skip).filterMap fun rel => (origin.get? rel).map fun o =>
      planExpected o origin live point
  let left := ((excluded origin).filter fun row => !isExcluded row.1 skip).map fun row =>
    ({ rel := row.1, state := .excluded, note := row.2 } : DatasetPlan)
  let declared := declaredRows origin live skip
  let newNames := ((wanted ++ left ++ declared).filter (·.state == .new)).map DatasetPlan.rel
  let tops := orphanTops origin live
  let renamed := renames tops newNames origin live
  let orphanRows := tops.filterMap fun rel => (live.get? rel).map fun d =>
    ({ rel
       state := .orphan
       renameTo := renamed.lookup rel
       kept := keptMark d.orphan
       used := d.used } : DatasetPlan)
  wanted ++ left ++ declared ++ orphanRows

/-- The expected datasets have their rows in the plan. -/
theorem mem_plan_of_expected {origin : Origins} {dest : Drive} {point : String} {skip : List Rel}
    {o : Origin} (ho : o ∈ origin) (h : isExpected o skip = true) :
    planExpected o origin (liveDatasets dest) point ∈ plan origin dest point skip := by
  refine List.mem_append_left _ (List.mem_append_left _
    (List.mem_append_left _ (List.mem_filterMap.mpr ⟨o.rel, ?_, ?_⟩)))
  · exact mem_expected.mpr ⟨o, Keyed.get?_of_mem ho, h⟩
  · rw [Keyed.get?_of_mem ho, Option.map_some]

/-- A disk's anchors other than `keep`; another disk's are never touched. -/
def oldAnchors (names : List String) (diskGuid keep : String) : List String :=
  names.filter fun name => anchorDisk name = diskGuid && name ≠ keep

/-- Every expected dataset is at the point. -/
def reached (plans : List DatasetPlan) : Bool :=
  (plans.filter fun p => p.state != .orphan && p.state != .excluded).all (·.state == .atPoint)

end Zark
