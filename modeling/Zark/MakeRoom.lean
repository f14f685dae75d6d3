import Zark.Retention

/-!
# Room for a backup

`_make_room` of `commands/backup.py`: when a backup would leave the drive below its margin, what the
policy removes goes first, and then, on a yes, the oldest monthly points up to where the margin
holds. What a plan of this run rests on beyond the newest snapshots is protected by name. How much a
removal frees is ZFS's to say: `frees` is what `reclaim` measures.
-/

namespace Zark

open Hierarchy

/-- Bases of this run: a ROLLBACK's common snapshot, a new clone's origin. -/
def bases (plans : List DatasetPlan) : List SnapName :=
  plans.filterMap fun p =>
    match p.state with
    | .rollback => p.common.map fun name => (p.rel, name)
    | .new => p.cloneFrom
    | _ => none

def Prune.isEmpty (prune : Prune) : Bool := prune.snapshots.isEmpty && prune.datasets.isEmpty

/-- What goes beyond the policy with these points: their snapshots, and the trees that these and the
policy's removals leave with nothing. -/
def beyond (dest : Drive) (r : Request) (prune : Prune) (names : List String) : Prune :=
  let snapshots := names.flatMap (pointRemovals dest r)
  { snapshots
    datasets := (wholeDatasets dest (prune.snapshots ++ snapshots)).filter (· ∉ prune.datasets) }

/-- What a backup needs and what the drive has, in bytes. -/
structure Space where
  needed : ℕ
  size : ℕ
  avail : ℕ

def Space.margin (space : Space) (policy : Policy) : ℕ := space.size * policy.marginPct / 100

/-- The points of a space plan so far, each with what it frees, and what everything frees
together. -/
structure SpacePlan where
  chosen : List (String × ℤ) := []
  total : ℕ

section Loop

variable (dest : Drive) (r : Request) (frees : List Removal → List Rel → ℕ) (prune : Prune)

/-- What the policy's removals and these beyond it free together. -/
def freed (more : Prune) : ℕ :=
  frees (prune.snapshots ++ more.snapshots) ((prune.datasets ++ more.datasets).map Prod.fst)

/-- One more point of a space plan; one of which nothing may go is passed over. -/
def SpacePlan.add (plan : SpacePlan) (name : String) : SpacePlan :=
  if (pointRemovals dest r name).isEmpty then plan
  else
    let total := freed frees prune (beyond dest r prune (plan.chosen.map Prod.fst ++ [name]))
    { chosen := plan.chosen ++ [(name, (total : ℤ) - plan.total)], total }

/-- Points are added until there is room for `goal`. -/
def spaceLoop (space : Space) (goal : ℕ) : List String → SpacePlan → SpacePlan
  | [], plan => plan
  | name :: rest, plan =>
      if goal ≤ space.avail + plan.total then
        plan
      else spaceLoop space goal rest (plan.add dest r frees prune name)

end Loop

/-- The space plan of a drive: what the policy frees counts first. -/
def spacePlan (dest : Drive) (r : Request) (frees : List Removal → List Rel → ℕ) (prune : Prune)
    (space : Space) : SpacePlan :=
  spaceLoop dest r frees prune space (space.needed + space.margin r.policy)
    (spaceCandidates dest r prune)
    { total := if prune.isEmpty then 0 else freed frees prune {} }

/-- The removals of the policy, and those of a space plan the user agreed to. -/
def roomActions (dest : Drive) (r : Request) (prune : Prune) (plan : SpacePlan) (agreed : Bool) :
    List Prune :=
  (if prune.isEmpty then [] else [prune]) ++
    if agreed then [beyond dest r prune (plan.chosen.map Prod.fst)] else []

/-- The removals to apply before the transfer, in order; none at all where the run stops, for lack
of room or for a first point that is no date. `asked` is what the drive's marks and pins read as,
unless they cannot be read, and `yes` the answer to the space plan. -/
def makeRoom (dest : Drive) (plans : List DatasetPlan) (space : Space) (policy : Policy)
    (asked : Option Request) (frees : List Removal → List Rel → ℕ) (yes : Bool) :
    Option (List Prune) :=
  if space.needed + space.margin policy ≤ space.avail then some []
  else
    match asked with
    | none => if space.needed ≤ space.avail then some [] else none
    | some marks =>
        let r := { marks with policy, protect := bases plans }
        (planPrune dest r).bind fun prune =>
          let plan := spacePlan dest r frees prune space
          let agreed := !plan.chosen.isEmpty && yes
          let policyFreed := if prune.isEmpty then 0 else freed frees prune {}
          let room := space.avail + if agreed then plan.total else policyFreed
          if space.needed ≤ room then some (roomActions dest r prune plan agreed) else none

/-! ### What is let go -/

/-- Room made with this request and the first few points of its space plan: the policy's removals,
then those of the points. -/
structure MadeRoom (dest : Drive) (protect : List SnapName) (r : Request) (names : List String)
    (after : Drive) : Prop where
  protect : r.protect = protect
  removed : ∃ prune, planPrune dest r = some prune ∧ names <+: spaceCandidates dest r prune ∧
    after = (dest.pruned prune).pruned (beyond dest r prune names)

/-- The request lets go of the snapshot: the policy takes it, or it is one of these points' and is
not held back. -/
def letGo (dest : Drive) (r : Request) (names : List String) (d : Dest) (s : Ref) : Bool :=
  ((firstPointTime (pointTimes dest) r.first).join.any fun start =>
    decide ((terms dest r start).Takes d s)) ||
    names.contains s.name && !heldBack r d s

/-- A dataset that is not live and loses all its snapshots, though it has one. -/
def cleared (dest : Drive) (r : Request) (names : List String) (d : Dest) : Bool :=
  !isLive d && d.snaps.items.all (letGo dest r names d) && !d.snaps.items.isEmpty

/-- A name in a tree whose top is empty and below it nothing but empty datasets and datasets without
a snapshot. -/
def treeGoes (dest : Drive) (empty : Dest → Bool) (rel : Rel) : Bool :=
  dest.items.any fun top => decide (Under rel top.rel) && empty top &&
    dest.items.all fun e => !decide (Under e.rel top.rel) || empty e || e.snaps.items.isEmpty

/-- What a transfer rests on. -/
structure Decision where
  state : State
  base : Base
  first : Option String
  common : Option String
  cloneFrom : Option SnapName
  deriving DecidableEq

def DatasetPlan.decision (p : DatasetPlan) : Decision :=
  { state := p.state, base := p.base, first := p.first, common := p.common,
    cloneFrom := p.cloneFrom }

/-- The plan of a dataset the drive holds rests on nothing that goes: its newest snapshot stays or,
for a rollback, one after the common one. -/
def restsSafe (goes : Ref → Bool) (d : Dest) (p : DatasetPlan) : Bool :=
  match p.state with
  | .atPoint | .incremental | .viaBookmark | .modified => !d.newest.any goes
  | .rollback => d.snaps.items.any fun s => p.newer.contains s.name && !goes s
  | _ => true

/-- The request lets go of nothing any expected dataset's plan rests on. -/
def RoomSafe (origin : Origins) (dest : Drive) (point : String) (skip : List Rel) (r : Request)
    (names : List String) : Prop :=
  ∀ o ∈ origin, isExpected o skip = true → ∀ d ∈ dest.get? o.rel,
    treeGoes dest (cleared dest r names) o.rel = false ∧
    restsSafe (letGo dest r names d) d (planDataset o (some d) point) = true

instance (origin : Origins) (dest : Drive) (point : String) (skip : List Rel) (r : Request)
    (names : List String) :
    Decidable (RoomSafe origin dest point skip r names) :=
  inferInstanceAs (Decidable (∀ o ∈ origin, _ → ∀ d ∈ dest.get? o.rel, _ ∧ _))

end Zark
