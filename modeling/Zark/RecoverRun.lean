import Zark.Recover
import Zark.RecoverCommands
import Zark.Shared
import Zark.Transfer
import Zark.World

/-!
# A recover, from the empty pools to the last export

Steps 7 to 12 of `commands/recover.py`: the pools are created, every dataset of the table is
received and anchored for the drive it came from, what the point left out is created empty, and
bpool and the keystore come last. A command that fails is told in the summary or ends the run, and a
command whose failure the source ignores is ignored here. What the boot loader and the files of the
restored root then need is left out.
-/

namespace Zark.RecoverRun

open Hierarchy

/-! ### Monthly bases -/

/-- A row of the table, with the monthly snapshot it is sent from. -/
structure BasedRow extends RestoreRow where
  base : Option Snap := none
  deriving DecidableEq

/-- `max(snaps, key=createtxg)`. -/
def newestByTxg (snaps : List Snap) : Option Snap :=
  snaps.foldl (fun best s => match best with
    | none => some s
    | some b => if b.createtxg < s.createtxg then some s else some b) none

/-- `_monthly_base`: the newest monthly before the row's point in the same lineage. -/
def monthlyBase (row : RestoreRow) (snaps : List Snap) : Option Snap :=
  row.snap.bind fun snap =>
    if sharedKind snap.name = some (.sanoid .monthly) then none
    else newestByTxg (snaps.filter fun s =>
      decide (s.dataset = row.rel ∧ s.stored = snap.stored ∧
        sharedKind s.name = some (.sanoid .monthly) ∧ s.createtxg < snap.createtxg))

/-- `_plan_bases`: a row whose sizes cannot be read gets the point only. -/
def planBases (measured : Rel → Bool) (rows : List RestoreRow) (snaps : List Snap) :
    List BasedRow :=
  rows.map fun row =>
    { row with base := if row.restored && measured row.rel then monthlyBase row snaps else none }

/-- `drop_bases`, where the disk has no room for them. -/
def dropBases (rows : List BasedRow) : List BasedRow :=
  rows.map fun row => { row with base := none }

/-! ### What is reported -/

inductive RecoverError where
  | receiveFailed (rel : Rel)
  | leftAtBase (rel : Rel) (base : String)
  | notAnchored (rel : Rel)
  | keyNotChanged (rel : Rel)
  | notCreated (rel : Rel)
  | notExcluded (rel : Rel)
  | noBpool
  | bpoolFailed
  deriving DecidableEq

namespace RecoverError

/-- The dataset an error names. -/
def rel : RecoverError → Rel
  | receiveFailed rel | leftAtBase rel _ | notAnchored rel | keyNotChanged rel | notCreated rel | notExcluded rel => rel
  | noBpool | bpoolFailed => ["bpool"]

/-- The line of the summary; `stderr` is what the command wrote. -/
def text (pool stderr : String) : RecoverError → String
  | receiveFailed rel => rel.text ++ ": receive failed"
  | leftAtBase rel base =>
      rel.text ++ ": left at @" ++ base ++ ", older than the point (the point's receive failed)"
  | notAnchored rel =>
      rel.text ++ ": not anchored for " ++ pool ++ ": its next backup of it resends it in full"
  | keyNotChanged rel => rel.text ++ ": change-key -i failed (still its own encryptionroot)"
  | notCreated rel => rel.text ++ ": excluded at this point, not created: " ++ stderr
  | notExcluded rel => rel.text ++ ": " ++ Flag.snapshot.prop ++ "=no not set again: " ++ stderr
  | noBpool => "bpool: not in backup at this point - kernels need reinstallation"
  | bpoolFailed => "bpool: receive failed - kernels need reinstallation"

end RecoverError

/-- What ends the run. -/
inductive Fatal where
  | pool
  | rootDataset
  | noSpace (rel : Rel)
  | exported
  | reimported
  | keystore
  deriving DecidableEq

/-! ### Commands -/

/-- What becomes of a command for reasons of its own. -/
inductive Answer where
  | done
  | refused
  | full
  deriving DecidableEq

/-- The drive, the new pools and what was said of them; `ownRoots` are the datasets that are their
own encryption root. -/
structure Recovering where
  drive : Drive
  pools : Origins := ∅
  ownRoots : List Rel := []
  settings : Keyed Setting.rel := ∅
  errors : List RecoverError := []
  answers : List Answer := []

namespace Recovering

variable (w : Recovering)

def answer : Answer := w.answers.head?.getD .done

def answered : Recovering := { w with answers := w.answers.tail }

def report (e : RecoverError) : Recovering := { w with errors := w.errors ++ [e] }

/-- A command on the pools: whether it succeeds, and what it leaves. -/
def run (effect : Origins → Option Origins) : Bool × Recovering :=
  match if w.answer = .done then effect w.pools else none with
  | some pools => (true, { w.answered with pools })
  | none => (false, w.answered)

/-- A dataset without snapshots, below a parent that is there. -/
def addDataset (rel : Rel) (pools : Origins) : Option Origins :=
  if parent rel ∈ pools.keys then pools.push? { rel } else none

/-- `zpool create`. -/
def createPool (pool : String) : Except Fatal Recovering :=
  match w.run fun pools => pools.push? { rel := [pool] } with
  | (true, w) => .ok w
  | (false, _) => .error .pool

/-- `zfs create` of a container; a failure is not looked at. -/
def createContainer (rel : Rel) : Recovering := (w.run (addDataset rel)).2

def setNo (rel : Rel) (flags : List Flag) : Recovering :=
  { w with
    settings :=
      flags.foldl (fun settings flag =>
        settings.put (((settings.get? rel).getD { rel }).set flag "no")) w.settings }

end Recovering

/-! ### Receiving -/

/-- A snapshot as the drive holds it. -/
def heldRef (drive : Drive) (s : Snap) : Option Ref :=
  (drive.get? s.stored).bind fun d => d.snaps.get? s.name

/-- `zfs send [-i base] snap`. -/
def sendSnap (drive : Drive) (snap : Snap) (base : Option Snap) : Option Stream :=
  (heldRef drive snap).bind fun t =>
    match base with
    | none => some ⟨none, [t]⟩
    | some base => (heldRef drive base).bind fun b =>
        if base.stored = snap.stored ∧ b.createtxg < t.createtxg then
          some ⟨some b.guid, [t]⟩
        else none

/-- The newest snapshot of a restored dataset. -/
def newestOf (o : Origin) : Option Ref := o.snaps.items.getLast?

/-- `zfs receive -u`: a full stream below a parent that is there, an incremental one onto the
snapshot it starts from. -/
def receiveStream (rel : Rel) (stream : Stream) (pools : Origins) : Option Origins :=
  match pools.get? rel, stream.source with
  | none, none =>
      if parent rel ∈ pools.keys then
        (Keyed.ofList? Ref.name (received 0 stream.refs)).bind fun snaps =>
          pools.push? { rel, snaps }
      else none
  | some o, some source =>
      (newestOf o).bind fun newest =>
        if newest.guid = source then
          (Keyed.ofList? Ref.name (o.snaps.items ++ received
            (newest.createtxg + 1) stream.refs)).map fun snaps => pools.set { o with snaps }
        else none
  | _, _ => none

namespace Recovering

/-- `_receive`; where there is no space left the run ends. -/
def receive (w : Recovering) (rel : Rel) (snap : Snap) (base : Option Snap) :
    Except Fatal (Bool × Recovering) :=
  if w.answer = .full then .error (.noSpace rel)
  else .ok (w.run fun pools => (sendSnap w.drive snap base).bind (receiveStream rel · pools))

end Recovering

/-- `Received`: the snapshot a row was left at, and the error when that is not its point. -/
structure Received where
  left : Option Snap
  error : Option RecoverError
  world : Recovering

/-- `_receive_row`. -/
def receiveRow (row : BasedRow) (snap : Snap) (w : Recovering) : Except Fatal Received :=
  match row.base with
  | none => do
      let (ok, w) ← w.receive row.rel snap none
      pure (if ok then ⟨some snap, none, w⟩ else ⟨none, some (.receiveFailed row.rel), w⟩)
  | some base => do
      let (ok, w) ← w.receive row.rel base none
      if ok then
        let (ok, w) ← w.receive row.rel snap (some base)
        pure (if ok then ⟨some snap, none, w⟩
          else ⟨some base, some (.leftAtBase row.rel base.name), w⟩)
      else pure ⟨none, some (.receiveFailed row.rel), w⟩

/-- A restored dataset, with the snapshot it was left at. -/
structure Arrived where
  rel : Rel
  snap : Snap
  deriving DecidableEq

structure Restoring where
  world : Recovering
  reached : List Arrived := []
  atBase : List Arrived := []

/-- One row of step 8: a raw receive makes the dataset its own encryption root, and the boot
environment must reach its point. -/
def restoreRow (be : Rel) (st : Restoring) (row : BasedRow) : Except Fatal Restoring :=
  match row.snap with
  | none => .ok st
  | some snap => do
      let got ← receiveRow row snap st.world
      let world :=
        if got.left.isSome then
          { got.world with ownRoots := got.world.ownRoots ++ [row.rel] }
        else got.world
      match got.error with
      | none => pure { st with world, reached := st.reached ++ [⟨row.rel, snap⟩] }
      | some error =>
          if row.rel = be then .error .rootDataset
          else pure { st with world := world.report error, atBase := st.atBase ++ (got.left.map (⟨row.rel, ·⟩)).toList }

/-- One dataset of `anchor_restored`. -/
def anchorOne (disk : DiskGuid) (w : Recovering) (a : Arrived) : Recovering :=
  match w.run
      (Cmd.apply · (.bookmark a.rel a.snap.name (RecoverCommands.anchorFor disk a.snap))) with
  | (true, w) => w
  | (false, w) => w.report (.notAnchored a.rel)

/-- `restore_rpool_rows`. -/
def restoreRpoolRows (be : Rel) (disk : DiskGuid) (rows : List BasedRow) (w : Recovering) :
    Except Fatal Recovering := do
  let st ← rows.foldlM (restoreRow be) { world := w }
  pure ((st.reached ++ st.atBase).foldl (anchorOne disk) st.world)

/-! ### After the receives -/

/-- `_export_verified`, and the imports that must succeed. -/
def mustSucceed (fatal : Fatal) (w : Recovering) : Except Fatal Recovering :=
  if w.answer = .done then .ok w.answered else .error fatal

/-- `zfs change-key -i` of one dataset that is its own encryption root. -/
def changeKey (w : Recovering) (rel : Rel) : Recovering :=
  if w.answer = .done then
    { w.answered with ownRoots := w.ownRoots.filter (· ≠ rel) }
  else w.answered.report (.keyNotChanged rel)

/-- `_restore_encryption_root`; a listing that fails lists nothing, and nothing is said of it. -/
def restoreEncryptionRoot (listed : Bool) (w : Recovering) : Recovering :=
  if listed then (w.pools.keys.filter (· ∈ w.ownRoots)).foldl changeKey w else w

/-- One row of `create_excluded`. -/
def createOne (w : Recovering) (row : BasedRow) : Recovering :=
  match w.run (Recovering.addDataset row.rel) with
  | (true, w) => w.setNo row.rel (createFlags row.toRestoreRow)
  | (false, w) => w.report (.notCreated row.rel)

/-- One top of `restore_snapshot_exclusions`. -/
def excludeOne (rows : List BasedRow) (w : Recovering) (top : Rel) : Recovering :=
  match rows.find? (·.rel = top) with
  | none => w
  | some row =>
      if row.restored then
        match w.run fun pools => if top ∈ pools.keys then some pools else none with
        | (true, w) => w.setNo top [.snapshot]
        | (false, w) => w.report (.notExcluded top)
      else w

/-- `restore_bpool`, `anchor_bpool` in it. -/
def restoreBpool (disk : DiskGuid) (row : Option BasedRow) (w : Recovering) :
    Except Fatal Recovering :=
  match row.filter (·.restored) with
  | none => .ok (w.report .noBpool)
  | some row =>
      match row.snap with
      | none => .ok (w.report .noBpool)
      | some snap => do
          let got ← receiveRow row snap (w.createContainer ["bpool", "BOOT"])
          match got.left with
          | none => pure (got.world.report .bpoolFailed)
          | some left =>
              let world := got.error.elim got.world got.world.report
              match world.run (Cmd.apply · (.rename row.rel left.name
                  (RecoverCommands.anchorFor disk left))) with
              | (true, world) => pure world
              | (false, world) => pure (world.report (.notAnchored row.rel))

/-- The keystore zvol, without which the recovered system cannot be unlocked. -/
def restoreKeystore (snap : Snap) (w : Recovering) : Except Fatal Recovering :=
  match w.run fun pools => (sendSnap w.drive snap none).bind fun stream =>
      (receiveStream keystore stream pools).map fun pools =>
          (pools.get? keystore).elim pools fun o => pools.set { o with kind := .volume } with
  | (true, w) => .ok w
  | (false, _) => .error .keystore

/-- `drop_prepare_snapshot`; a failure is a warning. -/
def dropPrepareSnapshot (snap : Snap) (w : Recovering) : Recovering :=
  if startsWith snap.name "prepare_" then
    (w.run (Cmd.apply · (.destroySnap keystore snap.name))).2
  else w

/-! ### The run -/

/-- What the run is given: the plan, whether sizes could be read, the disk has room for the monthly
bases and the encryption roots can be listed, and the drive. -/
structure RecoverRequest where
  restore : RestoreRequest
  measured : Rel → Bool := fun _ => true
  roomy : Bool := true
  rootsListed : Bool := true
  disk : DiskGuid
  keystoreSnap : Snap
  ext4 : Bool := false

namespace RecoverRequest

variable (q : RecoverRequest)

/-- The rows of the plan with their bases. -/
def rows : List BasedRow :=
  let rows := planBases q.measured (buildPlan q.restore) q.restore.snaps
  if q.roomy then rows else dropBases rows

/-- `rpool_rows`. -/
def rpoolRows : List BasedRow :=
  q.rows.filter fun row => decide (Under row.rel ["rpool"] ∧ row.rel ≠ ["rpool"]) && row.restored

/-- `empty_rows`. -/
def emptyRows : List BasedRow := q.rows.filter (·.empty)

/-- `needs_userdata`. -/
def needsUserdata : Bool :=
  (q.rpoolRows ++ q.emptyRows).any fun row =>
    decide (Under row.rel ["rpool", "USERDATA"] ∧ row.rel ≠ ["rpool", "USERDATA"])

def rootDataset : Rel := ["rpool", "ROOT", q.restore.be]

def bpoolRow : Option BasedRow := q.rows.find? (·.rel = ["bpool", "BOOT", q.restore.be])

/-- Step 7's bpool, where the point has one. -/
def createBpool (w : Recovering) : Except Fatal Recovering :=
  if q.ext4 then .ok w else w.createPool "bpool"

/-- Step 12a, where the point has a bpool. -/
def restoreBoot (w : Recovering) : Except Fatal Recovering :=
  if q.ext4 then .ok w else restoreBpool q.disk q.bpoolRow w

/-- Steps 7 to 12 of `run`. -/
def recover (w : Recovering) : Except Fatal Recovering := do
  let w ← q.createBpool w
  let w ← w.createPool "rpool"
  let w := w.createContainer ["rpool", "ROOT"]
  let w := if q.needsUserdata then w.createContainer ["rpool", "USERDATA"] else w
  let w ← restoreRpoolRows q.rootDataset q.disk q.rpoolRows w
  let w ← mustSucceed .exported w
  let w := restoreEncryptionRoot q.rootsListed w
  let w := q.emptyRows.foldl createOne w
  let w := q.restore.excluded.noSnapshot.foldl (excludeOne q.rows) w
  let w ← mustSucceed .reimported w
  let w ← q.restoreBoot w
  let w ← restoreKeystore q.keystoreSnap w
  let w ← mustSucceed .exported w
  pure (dropPrepareSnapshot q.keystoreSnap w)

end RecoverRequest

end Zark.RecoverRun
