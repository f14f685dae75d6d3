import Zark.Branch
import Zark.DestroyHeld
import Zark.MakeRoom

/-!
# The decisions of one backup

`_decide` and `_apply_changes` of `commands/backup.py`: what the user answers for the plans of one
survey becomes a list of changes, each one planned on the listing that survey read, and the changes
then run one after another, whatever became of those before, with no survey in between. The removals
that make room come before them. An answer that space keeps from being offered is one more answer
here.
-/

namespace Zark

open Hierarchy

/-! ### Commands on one dataset -/

/-- A command on one dataset, refused where it is missing. -/
def zfsOn (dest : Drive) (rel : Rel) (f : Dest → Option Dest) : Option Drive :=
  (dest.get? rel).bind fun d => (f d).map dest.set

/-- `zfs set org.zark:orphan`. -/
def setOrphan (stamp : String) (rel : Rel) (dest : Drive) : Option Drive :=
  zfsOn dest rel fun d => some { d with orphan := "kept@" ++ stamp }

/-- `zfs set` of the mark of an excluded copy that is kept. -/
def setExcludedKept (stamp : String) (rel : Rel) (dest : Drive) : Option Drive :=
  zfsOn dest rel fun d => some { d with excludedKept := "kept@" ++ stamp }

/-- `zfs receive -A`: there is a partial receive. -/
def abortPartial (rel : Rel) (dest : Drive) : Option Drive :=
  zfsOn dest rel fun d => if d.token = "" then none else some { d with token := "" }

/-- `zfs rollback`, refused while the snapshot is not the newest. -/
def zfsRollback (rel : Rel) (snap : String) (dest : Drive) : Option Drive :=
  zfsOn dest rel fun d =>
    if snap ∈ d.snaps.keys ∧ (d.snaps.after snap).items = [] then some (d.rolledBack snap) else none

/-- `zfs rollback -r`, which destroys what is newer, refused while a clone of that is left. -/
def zfsRollbackNewer (rel : Rel) (snap : String) (dest : Drive) : Option Drive :=
  zfsOn dest rel fun d =>
    if snap ∈ d.snaps.keys ∧ rollbackBlockers dest rel (d.snaps.after snap).keys = [] then
      some (d.rolledBack snap)
    else none

namespace Branching

/-- `sh.run` of a command that fails for its own preconditions only. -/
def give (st : Branching) (command : Drive → Option Drive) : Bool × Branching :=
  match command st.drive with
  | some drive => (true, { st with drive, given := st.given + 1 })
  | none => (false, { st with given := st.given + 1 })

/-- The destroys of a tree and of the archived lineages cloned from it, up to the first that fails;
what `destroy_orphan` and `destroy_held` then write on the points of the drive changes no
dataset. -/
def destroy (st : Branching) (top : Rel) (deps : DestroyPlan) : Bool × Branching :=
  let (gone, ok, drive) := destroyTop zfsDestroy top deps st.drive
  (ok, { st with drive, given := st.given + gone.length + if ok then 0 else 1 })

/-- MODIFIED, when chosen: a partial receive goes first. -/
def discardChanges (p : DatasetPlan) (st : Branching) : Bool × Branching :=
  if p.partialReceive then
    match st.give (abortPartial p.rel) with
    | (true, st) => st.give (zfsRollback p.rel (p.common.getD ""))
    | (false, st) => (false, st)
  else st.give (zfsRollback p.rel (p.common.getD ""))

end Branching

/-! ### The changes -/

/-- A change, with the plan it was chosen for. An excluded copy is destroyed once the records of the
points that hold it are read; where one cannot be, no command is given and the copy is as one
left. -/
inductive Change where
  | keepOrphan (p : DatasetPlan)
  | destroyOrphan (p : DatasetPlan) (deps : DestroyPlan)
  | followRename (p : DatasetPlan)
  | keepHeld (p : DatasetPlan)
  | destroyHeld (p : DatasetPlan) (deps : DestroyPlan)
  | discardChanges (p : DatasetPlan)
  | rollback (p : DatasetPlan)
  | branch (p : DatasetPlan)
  | archive (p : DatasetPlan)
  | destroy (p : DatasetPlan) (deps : DestroyPlan)
  deriving DecidableEq

namespace Change

/-- The plan's row. -/
def row : Change → DatasetPlan
  | keepOrphan p | destroyOrphan p _ | followRename p | keepHeld p | destroyHeld p
    _ | discardChanges p | rollback p | branch p | archive p
  | destroy p _ => p

/-- What a change does, and whether each of its commands succeeded: `stamp` is when the answers were
given, `day` when each command is. -/
def run (stamp : String) (day : ℕ → String) : Change → Branching → Bool × Branching
  | keepOrphan p, st => st.give (setOrphan stamp p.rel)
  | keepHeld p, st => st.give (setExcludedKept stamp p.rel)
  | destroyOrphan p deps, st | destroyHeld p deps, st | destroy p deps, st => st.destroy p.rel deps
  | followRename p, st => st.give fun dest => Zark.followRename dest p
  | discardChanges p, st => st.discardChanges p
  | rollback p, st => st.give (zfsRollbackNewer p.rel (p.common.getD ""))
  | branch p, st => st.branch (fun _ => false) day p
  | archive p, st =>
      let (new, st) := st.archive (fun _ => false) day p
      (new.isSome, st)

end Change

/-- `_apply_changes`: one change after another, whether or not those before succeeded; true when all
did. -/
def applyChanges (stamp : String) (day : ℕ → String) : List Change → Branching → Bool × Branching
  | [], st => (true, st)
  | a :: rest, st =>
      let (ok, st) := a.run stamp day st
      let (oks, st) := applyChanges stamp day rest st
      (ok && oks, st)

/-! ### The answers -/

inductive OrphanAnswer where
  | later
  | keep
  | destroy
  | follow
  deriving DecidableEq

inductive HeldAnswer where
  | later
  | keep
  | destroy
  deriving DecidableEq

inductive DivergedAnswer where
  | skip
  | archive
  | destroy
  deriving DecidableEq

/-- What the user answers, for each dataset or for all of them at once; one answer for all the
excluded copies, or for all the diverged ones, is the same answer for each. -/
structure Answers where
  orphan : Rel → OrphanAnswer
  held : Rel → HeldAnswer
  discard : Bool
  /-- Roll back where that is offered; branch otherwise. -/
  rollBack : Bool
  diverged : Rel → DivergedAnswer

/-- What comes of an orphan; an answer that is not offered comes to nothing. -/
def orphanChange (ext4 : Bool) (dest : Drive) (answer : OrphanAnswer) (p : DatasetPlan) :
    Option Change :=
  if p.kept then none
  else if ext4 && isBpool p.rel && p.rel != ["bpool"] then some (.keepOrphan p)
  else
    match answer with
    | .later => none
    | .keep => some (.keepOrphan p)
    | .destroy =>
        if (destroyPlan dest p.rel).ok then
          some (.destroyOrphan p (destroyPlan dest p.rel))
        else none
    | .follow => if p.renameTo.isSome then some (.followRename p) else none

/-- `_held_excluded`, for one excluded copy. -/
def heldChange (dest : Drive) (answer : HeldAnswer) (p : DatasetPlan) : Option Change :=
  match answer with
  | .later => none
  | .keep => some (.keepHeld p)
  | .destroy =>
      if (destroyPlan dest p.rel).ok then some (.destroyHeld p (destroyPlan dest p.rel)) else none

def divergedChange (dest : Drive) (answer : DivergedAnswer) (p : DatasetPlan) : Option Change :=
  match answer with
  | .skip => none
  | .archive => some (.archive p)
  | .destroy =>
      if (destroyPlan dest p.rel).ok then some (.destroy p (destroyPlan dest p.rel)) else none

/-- The diverged datasets in turn; one below a dataset that is archived or destroyed goes with
it. -/
def divergedChanges (dest : Drive) (answer : Rel → DivergedAnswer) :
    List Rel → List DatasetPlan → List Change
  | _, [] => []
  | moved, p :: rest =>
      if covered p.rel moved then divergedChanges dest answer moved rest
      else
        match divergedChange dest (answer p.rel) p with
        | none => divergedChanges dest answer moved rest
        | some change => change :: divergedChanges dest answer (p.rel :: moved) rest

/-- The rows in one state. -/
def rowsIn (plans : List DatasetPlan) (state : State) : List DatasetPlan :=
  plans.filter (·.state = state)

/-- All rolled back, or all branched, parents first. -/
def rollbackChanges (dest : Drive) (rollBack : Bool) (rows : List DatasetPlan) : List Change :=
  if rollBack && (rows.flatMap fun p => rollbackBlockers dest p.rel p.newer).isEmpty then
    rows.map .rollback
  else (inOrder rows).map .branch

/-- The changes chosen, in the order they run. -/
def chosenChanges (ext4 : Bool) (plans : List DatasetPlan) (dest : Drive) (answers : Answers) :
    List Change :=
  ((rowsIn plans .orphan).filterMap fun p => orphanChange ext4 dest (answers.orphan p.rel) p) ++
    (((rowsIn plans .excluded).filter fun p => p.declared && p.held && !p.kept).filterMap fun p =>
      heldChange dest (answers.held p.rel) p) ++
      (if answers.discard then (rowsIn plans .modified).map .discardChanges else []) ++
        rollbackChanges dest answers.rollBack (rowsIn plans .rollback) ++
          divergedChanges dest answers.diverged [] (rowsIn plans .diverged)

/-- What room is made with, once the drive's space is read. -/
structure Room where
  space : Space
  policy : Policy
  asked : Option Request
  frees : List Removal → List Rel → ℕ
  yes : Bool

/-- `_decide`: the removals that make room, then the changes chosen, as they run; none where the run
stops for lack of room. No room is made on a drive whose space is not known. -/
def decided (ext4 : Bool) (plans : List DatasetPlan) (dest : Drive) (answers : Answers)
    (room : Option Room) : Option (List Prune × List Change) :=
  let changes := chosenChanges ext4 plans dest answers
  match room with
  | none => some ([], changes)
  | some room =>
      (makeRoom dest plans room.space room.policy room.asked room.frees room.yes).map fun prunes =>
        (prunes, changes)

theorem changes_of_decided {ext4 : Bool} {plans : List DatasetPlan} {dest : Drive}
    {answers : Answers} {room : Option Room} {prunes : List Prune} {changes : List Change}
    (h : decided ext4 plans dest answers room = some (prunes, changes)) :
    changes = chosenChanges ext4 plans dest answers := by
  cases room with
  | none => exact (Prod.mk.inj (Option.some.inj h)).2.symm
  | some room =>
      obtain ⟨_, -, heq⟩ := Option.map_eq_some_iff.mp h
      exact (Prod.mk.inj heq).2.symm

/-! ### What the changes come to -/

namespace Change

/-- The tree a change destroys, with its plan. -/
def destroyed : Change → Option (Rel × DestroyPlan)
  | destroyOrphan p deps | destroyHeld p deps | destroy p deps => some (p.rel, deps)
  | _ => none

/-- The trees that are out of their place once the orphans and the excluded copies are seen to. -/
def goneFirst : Change → List Rel
  | destroyOrphan p deps | destroyHeld p deps => deps.order.map Dependent.rel ++ [p.rel]
  | followRename p => [p.rel]
  | _ => []

/-- The name a change gives an orphan. -/
def target : Change → Option Rel
  | followRename p => p.renameTo
  | _ => none

end Change

/-- The datasets chosen to be archived or destroyed. -/
def chosenTops (changes : List Change) : List Rel :=
  changes.filterMap fun a =>
    match a with
    | .archive p => some p.rel
    | a => a.destroyed.map Prod.fst

/-- What a plan continues from: the snapshots up to its common one, or all. -/
def DatasetPlan.continued (p : DatasetPlan) (d : Dest) : Keyed Ref.name :=
  match p.common with
  | some name => d.snaps.upTo name
  | none => d.snaps

/-- What a run of the changes is to come to. -/
structure Composed (plans : List DatasetPlan) (wanted : List Rel) (dest : Drive)
    (changes : List Change) (run : Bool × Branching) : Prop where
  succeeds : run.1 = true
  /-- An expected dataset the drive held is still there, as far as its plan goes, unless it or one
  above it was chosen to go. -/
  expected : ∀ p ∈ plans, p.rel ∈ wanted → ∀ d, dest.get? p.rel = some d →
    covered p.rel (chosenTops changes) = false →
    ∃ e, run.2.drive.get? p.rel = some e ∧ ∀ s ∈ p.continued d, s ∈ e.snaps
  /-- What a rename moved is under its new name. -/
  renamed : ∀ p name, Change.followRename p ∈ changes → p.renameTo = some name →
    ∀ d ∈ dest, Under d.rel p.rel →
    ∃ e, run.2.drive.get? (movedRel p.rel name d.rel) = some e ∧ e.snaps = d.snaps

/-! ### Changes that meet -/

/-- The orphans that are renamed. -/
def renamedTops (changes : List Change) : List Rel :=
  changes.filterMap fun a => a.target.map fun _ => a.row.rel

/-- No change meets what another one left as the survey had it. -/
structure Compatible (dest : Drive) (changes : List Change) : Prop where
  /-- No tree directly below a dataset that is branched is destroyed, or renamed away, before. -/
  children : ∀ a ∈ changes, ∀ g ∈ a.goneFirst, ∀ q, .branch q ∈ changes → parent g ≠ q.rel
  /-- No orphan is renamed to a name directly below one. -/
  places : ∀ a ∈ changes, ∀ name ∈ a.target, ∀ q, .branch q ∈ changes → parent name ≠ q.rel
  /-- No orphan is renamed to a name at or below a diverged dataset that is archived or
  destroyed. -/
  targets : ∀ a ∈ changes, ∀ name ∈ a.target, ∀ q,
    (.archive q ∈ changes ∨ ∃ deps, .destroy q deps ∈ changes) → ¬Under name q.rel
  /-- A tree destroyed inside another one takes none of the archived lineages that go with that
  one. -/
  dependents : ∀ a ∈ changes, ∀ b ∈ changes, ∀ x ∈ a.destroyed, ∀ y ∈ b.destroyed, x.1 ≠ y.1 →
    Under x.1 y.1 →
    ∀ g ∈ x.2.order, ∀ t ∈ y.2.order, ¬Under t.rel g.rel
  /-- No dataset of a renamed orphan is a clone of a snapshot left behind in a tree that is
  destroyed. -/
  clones : ∀ b ∈ changes, ∀ y ∈ b.destroyed, ∀ d ∈ dest, ∀ source, d.cloneOf = some source →
    Under source.1 y.1 →
    covered d.rel (renamedTops changes) = true → covered source.1 (renamedTops changes) = true

end Zark
