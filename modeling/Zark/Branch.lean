import Zark.DriveCommands

/-!
# Branching a lineage

`Run.archive` and `Run.branch` of `lib/engine.py`: a dataset whose drive copy has newer snapshots is
renamed aside, a clone of the common snapshot takes its place and is promoted, and the children the
rename took along go back. The engine works from the listing it read, of which it renames one entry;
each command may fail for a reason of its own, and the first that does ends the branch. Several are
run one after another, whatever became of the others.
-/

namespace Zark

open Hierarchy

inductive Command where
  | rename (old new : Rel)
  | clone (source : SnapName) (rel : Rel)
  | promote (rel : Rel)
  deriving DecidableEq, Repr

/-- What a command makes of the drive, when zfs accepts it. -/
def Command.run (drive : Drive) : Command → Option Drive
  | .rename old new => zfsRename drive old new
  | .clone source rel => zfsClone drive source rel
  | .promote rel => zfsPromote drive rel

/-! ### Archive names -/

/-- The name with `.archived-` and a day, then numbered from 2. -/
def archivedAs (rel : Rel) (day : String) (n : ℕ) : Rel :=
  rel.dropLast ++ [rel.getLast?.getD "" ++ ".archived-" ++ day ++
    if n = 0 then "" else "-" ++ (n + 1).repr]

/-- The first of these names that is not taken; there are more of them than names taken. -/
def archiveName (rel : Rel) (taken : List Rel) (day : String) : Rel :=
  (((List.range (taken.length + 1)).map (archivedAs rel day)).find? (· ∉ taken)).getD
    (archivedAs rel day 0)

/-! ### The engine -/

/-- The drive, the names of the listing in memory, and how many commands were given. -/
structure Branching where
  drive : Drive
  known : List Rel
  given : ℕ := 0

namespace Branching

variable (fails : ℕ → Bool)

/-- `sh.run`: the command fails when zfs refuses it, or for a reason of its own; nothing changes
then. -/
def sh (st : Branching) (c : Command) : Bool × Branching :=
  match if fails st.given then none else c.run st.drive with
  | some drive => (true, { st with drive, given := st.given + 1 })
  | none => (false, { st with given := st.given + 1 })

/-- One command after another, up to the first that fails. -/
def runAll : List Command → Branching → Bool × Branching
  | [], st => (true, st)
  | c :: rest, st =>
      match st.sh fails c with
      | (true, st) => runAll rest st
      | (false, st) => (false, st)

variable (day : ℕ → String)

/-- Rename the destination lineage aside; its new name, unless that failed. -/
def archive (p : DatasetPlan) (st : Branching) : Option Rel × Branching :=
  let new := archiveName p.rel st.known (day st.given)
  match st.sh fails (.rename p.rel new) with
  | (true, st) => (some new, { st with known := st.known.erase p.rel ++ [new] })
  | (false, st) => (none, st)

/-- What follows the archive: the clone of the common snapshot, its promotion, and the children's
way back. -/
def restCommands (p : DatasetPlan) (new : Rel) (children : List Rel) : List Command :=
  .clone (new, p.common.getD "") p.rel :: .promote p.rel ::
    children.map fun child => .rename (new ++ child.drop p.rel.length) child

/-- ROLLBACK option a. -/
def branch (p : DatasetPlan) (st : Branching) : Bool × Branching :=
  let children := sortRels (st.known.filter fun rel => parent rel = p.rel)
  match st.archive fails day p with
  | (none, st) => (false, st)
  | (some new, st) => runAll fails (restCommands p new children) st

/-- Each one in turn, whether or not the ones before succeeded; true when all did. -/
def branchAll : List DatasetPlan → Branching → Bool × Branching
  | [], st => (true, st)
  | p :: rest, st =>
      let (ok, st) := st.branch fails day p
      let (oks, st) := branchAll rest st
      (ok && oks, st)

end Branching

/-- The order the caller branches in: parents first. -/
def inOrder (plans : List DatasetPlan) : List DatasetPlan :=
  plans.insertionSort fun p q => p.rel.key ≤ q.rel.key

/-! ### What is kept -/

/-- A snapshot of the drive, by its dataset and name. -/
def SnapAt (drive : Drive) (name : SnapName) (s : Ref) : Prop :=
  ∃ d ∈ drive, d.rel = name.1 ∧ s ∈ d.snaps ∧ s.name = name.2

/-- Every snapshot is on the drive after, in its dataset or, from the tree of `rel`, in that tree or
in the one of `new`, where it counts for the same dataset. -/
def KeepsAll (rel new : Rel) (before after : Drive) : Prop :=
  ∀ d ∈ before, ∀ s ∈ d.snaps, ∃ e ∈ after, s ∈ e.snaps ∧
    (e.rel = d.rel ∨ Under d.rel rel ∧ (Under e.rel rel ∨ Under e.rel new) ∧
      logical e.rel = logical d.rel)

/-- The same dataset; a clone is still one of the same snapshot. -/
structure SameDataset (before after : Drive) (d e : Dest) : Prop where
  same : { e with cloneOf := d.cloneOf } = d
  clone : d.cloneOf.isSome = e.cloneOf.isSome
  origin : ∀ source, d.cloneOf = some source → ∀ s, SnapAt before source s →
    ∃ now, e.cloneOf = some now ∧ SnapAt after now s

/-- What branching a lineage leaves. -/
structure Branched (before after : Drive) (p : DatasetPlan) (new : Rel) : Prop where
  archiveName : new ∉ before.keys ∧ parent new = parent p.rel ∧ logical new = p.rel
  /-- The dataset has its snapshots up to the common one. -/
  live : ∃ d ∈ before, d.rel = p.rel ∧ ∃ s ∈ d.snaps, p.common = some s.name ∧
    ∃ e ∈ after, e.rel = p.rel ∧
    e.snaps = d.snaps.upTo s.name ∧ e.token = "" ∧ e.written = 0 ∧
      ∃ kept ∈ after, kept.rel = new ∧ kept.snaps = d.snaps.after s.name ∧
      kept.snaps.keys = p.newer ∧ kept.cloneOf = some (p.rel, s.name)

/-- The same of several lineages, each with its archive: nothing else is on the drive, and every
other dataset is as it was. -/
structure AllBranched (before after : Drive) (ps : List DatasetPlan) (archive : Rel → Rel) :
    Prop where
  branched : ∀ p ∈ ps, Branched before after p (archive p.rel)
  others : ∀ d ∈ before, (∀ p ∈ ps, p.rel ≠ d.rel) → ∃ e ∈ after, SameDataset before after d e
  only : ∀ e ∈ after, e.rel ∈ before.keys ∨ ∃ p ∈ ps, e.rel = archive p.rel

/-- No snapshot is lost in a run of branches, nor leaves its dataset outside their trees. -/
def KeepsAllOf (ps : List DatasetPlan) (before after : Drive) : Prop :=
  ∀ d ∈ before, ∀ s ∈ d.snaps, ∃ e ∈ after, s ∈ e.snaps ∧ logical e.rel = logical d.rel ∧
    (e.rel = d.rel ∨ ∃ p ∈ ps, Under d.rel p.rel)

end Zark
