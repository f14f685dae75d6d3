import Zark.StatusFile

/-!
# progress.json

`lib/progress.py`: what the running command is doing, for other programs, and what becomes of a run
that dies. The one run that holds the lock writes the file at its start, from a heartbeat and after
its events, and removes it at its end, once status.json has what it recorded. A file that is still
there at the next start is an orphan: a backup's becomes its drive's `interrupted` ending, unless
that run had recorded its own.

`_RunRecord` of `commands/backup.py` is here too: a backup's ending, which a banner sets or which
the end makes up.

The rate of the bytes sent is a number of the write (the code computes it in floating point), and so
is what `/proc` shows of the process group.
-/

namespace Zark.Progress

open Json StatusFile

def kind : String := "zark-progress"

def schemaVersion : Int := 1

/-! ### What a run shows -/

/-- The backup drive the command works on. -/
structure ShownDrive where
  name : String
  guid : String
  driveId : String
  space : Option StatusFile.Space := none

def ShownDrive.toJson (d : ShownDrive) : Json :=
  obj [("name", str d.name), ("guid", str d.guid),
    ("drive_id", str (if d.driveId = "" then "<unknown>" else d.driveId)),
    ("space", d.space.elim null StatusFile.Space.toJson)]

/-- `TransferProgress`'s fields. -/
structure Transfer where
  datasetsTotal : ℕ := 0
  datasetsDone : ℕ := 0
  datasetsFailed : ℕ := 0
  dataset : Option String := none
  datasetState : Option String := none
  bytesTotal : Option ℕ := none
  bytesTotalPartial : Bool := false

/-- One more transfer, of an estimate that is unknown when it is 0. -/
def Transfer.planned (t : Transfer) (estimate : ℕ) : Transfer :=
  let t := { t with datasetsTotal := t.datasetsTotal + 1 }
  if 0 < estimate then
    { t with bytesTotal := some (t.bytesTotal.getD 0 + estimate) }
  else { t with bytesTotalPartial := true }

def Transfer.ended (t : Transfer) (ok : Bool) : Transfer :=
  { t with
    datasetsDone := t.datasetsDone + 1, datasetsFailed := t.datasetsFailed + if ok then 0 else 1,
    dataset := none, datasetState := none }

/-- `ByteMeter`: the bytes of the sends that ended and of the one that runs; one read that fails
breaks it for good. -/
structure ByteMeter where
  done : ℕ := 0
  live : ℕ := 0
  running : Bool := false
  broken : Bool := false

namespace ByteMeter

def begin (m : ByteMeter) : ByteMeter := { m with running := true, live := 0 }

/-- A send that ended, with the count that was read of it. -/
def finish (m : ByteMeter) (written : Option ℕ) : ByteMeter :=
  match written with
  | none => { m with broken := true, running := false, live := 0 }
  | some n => { m with done := m.done + n, running := false, live := 0 }

/-- A heartbeat's sample: `count` is what the process group's counters say. -/
def sample (m : ByteMeter) (count : Option ℕ) : ByteMeter :=
  if m.running && !m.broken then
    match count with
    | some n => { m with live := max m.live n }
    | none => { m with broken := true }
  else m

def bytesDone (m : ByteMeter) : Option ℕ := if m.broken then none else some (m.done + m.live)

end ByteMeter

def number? (n : Option ℕ) : Json := n.elim null fun n => num n

def Transfer.toJson (t : Transfer) (meter : ByteMeter) (rate : Option ℕ) : Json :=
  obj [("datasets_total", num t.datasetsTotal), ("datasets_done", num t.datasetsDone),
    ("datasets_failed", num t.datasetsFailed), ("dataset", text? t.dataset),
    ("dataset_state", text? t.datasetState), ("bytes_total", number? t.bytesTotal),
    ("bytes_total_partial", .bool t.bytesTotalPartial), ("bytes_done", number? meter.bytesDone),
    ("rate_bytes_per_s", number? rate)]

/-! ### A backup's ending -/

/-- `_RunRecord`: `point` is the engine's, and `started` whether it began a receive. -/
structure RunRecord where
  guid : String
  point : Option String := none
  started : Bool := false
  pointTaken : Bool := false
  space : Option StatusFile.Space := none
  contents : Option DriveContents := none
  done : Bool := false
  /-- The `written_by` and `min_recover` of the run's point. -/
  pointRecord : Option (String × String) := none

/-- The update of a result. -/
def RunRecord.update (r : RunRecord) (startedAt endedAt result : String) (missing : ℕ)
    (message : String) : DriveUpdate :=
  let point := if r.pointTaken then r.point else none
  let last := if result = "completed" then point else none
  { lastRun := some ⟨result, startedAt, endedAt, point, missing, message⟩
    space := r.space
    lastBackupPoint := last
    contents := r.contents
    lastPointRecord := if last.getD "" = "" then none else r.pointRecord }

/-! ### A run -/

/-- Where a run is: before its first write, at work, in its end, with status.json refreshed. -/
inductive Phase where
  | starting
  | running
  | ending
  | refreshed
  deriving DecidableEq

/-- `_State`, with the record of a backup. -/
structure Run where
  command : String
  pid : ℕ
  pidStartTicks : ℕ
  bootId : String
  startedAt : String
  phase : Phase := .starting
  waitingFor : Option String := none
  step : Option (Int × Int × String) := none
  drive : Option ShownDrive := none
  point : Option String := none
  transfer : Option Transfer := none
  /-- The fields `TransferProgress` shows next. -/
  fields : Option Transfer := none
  meter : ByteMeter := {}
  updates : String → Option DriveUpdate := fun _ => none
  error : String := ""
  record : Option RunRecord := none
  /-- Whether `record.finish` is among the actions of the end. -/
  onEnd : Bool := false

/-- The file's content at `now`. -/
def Run.document (r : Run) (now : String) (rate : Option ℕ) : Json :=
  obj [("kind", str kind), ("schema_version", num schemaVersion), ("zark_version", str zarkVersion),
    ("command", str r.command), ("pid", num r.pid), ("pid_start_ticks", num r.pidStartTicks),
    ("boot_id", str r.bootId), ("started_at", str r.startedAt), ("updated_at", str now),
    ("waiting_for_input", .bool r.waitingFor.isSome), ("waiting_for", text? r.waitingFor),
    ("step", r.step.elim null fun s =>
      obj [("index", num s.1), ("total", num s.2.1), ("label", str s.2.2)]),
        ("drive", r.drive.elim null ShownDrive.toJson), ("point", text? r.point),
    ("transfer", r.transfer.elim null fun t => t.toJson r.meter rate)]

/-- What the command does that the run's state shows. -/
inductive Event where
  | step (index total : Int) (label : String)
  | wait (prompt : Option String)
  | noteError (message : String)
  /-- A backup's drive is chosen: its record, and `set_drive`. -/
  | select (name guid driveId : String) (pointRecord : Option (String × String))
  /-- `progress.on_end(record.finish)`. -/
  | register
  | measure (space : Option StatusFile.Space)
  | measureContents (space : Option StatusFile.Space) (contents : DriveContents)
  /-- The engine's run is there, with the name of its point. -/
  | engine (point : String)
  | pointTaken
  | receive
  | beginTransfers
  | planned (estimate : ℕ)
  | sending (dataset state : String)
  | ended (ok : Bool)
  | endTransfers
  | beginSend
  | endSend (written : Option ℕ)
  /-- A banner's result. -/
  | result (result endedAt : String) (missing : ℕ) (message : String)
  /-- `prune`'s `_record_contents`. -/
  | contents (guid : String) (space : StatusFile.Space) (contents : DriveContents)

/-- `progress.record`: a later update of a drive replaces the earlier one. -/
def Run.recorded (r : Run) (guid : String) (up : DriveUpdate) : Run :=
  { r with updates := fun g => if g = guid then some up else r.updates g }

/-- `set_space`. -/
def Run.setSpace (r : Run) (space : Option StatusFile.Space) : Run :=
  match space with
  | none => r
  | some space => { r with drive := r.drive.map fun d => { d with space := some space } }

def Run.showTransfer (r : Run) (t : Transfer) : Run :=
  { r with transfer := some t, fields := some t }

/-- `_RunRecord.result`. -/
def Run.result (r : Run) (record : RunRecord) (endedAt result : String) (missing : ℕ)
    (message : String) : Run :=
  { r.recorded record.guid (record.update r.startedAt endedAt result missing message) with
    record := some { record with done := true } }

/-- The run after an event; none where the command does not do that. -/
def Run.event (r : Run) : Event → Option Run
  | .step index total label =>
      some (if 1 ≤ index ∧ 1 ≤ total then { r with step := some (index, total, label) } else r)
  | .wait prompt => some { r with waitingFor := prompt }
  | .noteError message => some { r with error := message }
  | .select name guid driveId pointRecord =>
      if r.command = "backup" ∧ r.record.isNone then
        some { r with record := some { guid, pointRecord }, drive := some ⟨name, guid, driveId, none⟩ }
      else none
  | .register => r.record.map fun _ => { r with onEnd := true }
  | .measure space =>
      r.record.map fun record =>
        let space := space.or record.space
        { r with record := some { record with space, contents := none } }.setSpace space
  | .measureContents space contents =>
      r.record.map fun record =>
        if space.isNone then r
        else { r with record := some { record with space, contents := some contents } }.setSpace
          space
  | .engine point =>
      r.record.map fun record => { r with record := some { record with point := some point } }
  | .pointTaken =>
      r.record.bind fun record => record.point.map fun point =>
        { r with record := some { record with pointTaken := true }, point := some point }
  | .receive =>
      r.record.bind fun record => record.point.map fun _ =>
        { r with record := some { record with started := true } }
  | .beginTransfers => some (r.showTransfer {})
  | .planned estimate => r.fields.map fun t => r.showTransfer (t.planned estimate)
  | .sending dataset state =>
      r.fields.map fun t => r.showTransfer
        { t with dataset := some dataset, datasetState := some state }
  | .ended ok => r.fields.map fun t => r.showTransfer (t.ended ok)
  | .endTransfers => some { r with transfer := none }
  | .beginSend => some { r with meter := r.meter.begin }
  | .endSend written => some { r with meter := r.meter.finish written }
  | .result result endedAt missing message =>
      r.record.bind fun record => if record.done then none
        else some (r.result record endedAt result missing message)
  | .contents guid space contents =>
      if r.command = "prune" then
        some (r.recorded guid { space := some space, contents := some contents })
      else none

/-- Why a run without a result ended; `signal` is the signal that stopped it. -/
def Run.why (r : Run) (signal : Option String) : String :=
  match signal with
  | some name =>
      if name = "SIGPIPE" then "Output closed (its reader went away)" else "Interrupted by " ++ name
  | none => if r.error = "" then "the run ended without recording a result" else r.error

/-- `_RunRecord.finish`: a run with no result of its own gets one. -/
def Run.finish (r : Run) (endedAt : String) (signal : Option String) : Run :=
  match r.record with
  | none => r
  | some record =>
      if record.done then r
      else
        let record := if record.started then record else { record with pointTaken := false }
        r.result record endedAt (if record.started then "interrupted" else "aborted") 0
          (r.why signal)

/-! ### The file a dead run left -/

/-- `isinstance(version, int)`: a bool is one. -/
def int? : Json → Option Int
  | .num n => some n
  | .bool b => some (if b then 1 else 0)
  | _ => none

/-- `_orphan`: the fields of a progress file of this schema. -/
def orphan : File → Option (List (String × Json))
  | .doc (obj fields) =>
      match get fields "kind", int? (get fields "schema_version") with
      | str k, some version => if k = kind ∧ version ≤ schemaVersion then some fields else none
      | _, _ => none
  | _ => none

/-- A dead backup's drive, and the update it gets. -/
def interrupted (doc : List (String × Json)) : Option (String × DriveUpdate) :=
  match get doc "command", get doc "drive" with
  | str command, obj drive =>
      match get drive "guid", get doc "started_at", get doc "updated_at" with
      | str guid, str began, str ended =>
          if command = "backup" then
            let point := match get doc "point" with
              | str point => some point
              | _ => none
            some (guid,
              { lastRun := some ⟨"interrupted", began, ended, point, 0, "the run ended without recording a result"⟩
                unlessStartedAt := began })
          else none
      | _, _, _ => none
  | _, _ => none

/-- The drive of a dead backup that the file shows. -/
def dead (progress : File) : Option (String × DriveUpdate) := (orphan progress).bind interrupted

/-- `_record_orphan`: the writer of status.json it makes, none when nothing is written. -/
def recordOrphan (progress : File) (w : Writer) : Option Writer :=
  (dead progress).bind fun died =>
    if w.liveUsb || w.cfg.loadError.isSome || died.1 ∉ w.cfg.knownDrives.items.map
      DriveInfo.guid then none
    else some { w with updates := fun guid => if guid = died.1 then some died.2 else none }

/-! ### Runs, one after another -/

/-- Both files, and the run that holds the lock. -/
structure World where
  progress : File := .absent
  status : File := .absent
  run : Option Run := none

/-- What happens after a start. -/
inductive Action where
  /-- `zark status`, by hand or from its timer: no lock, and no updates. -/
  | timer (w : Writer)
  /-- `_write`, by the start and then by the heartbeat; one that fails leaves the file as it is. -/
  | write (now : String) (count rate : Option ℕ) (ok : Bool)
  | event (e : Event)
  /-- A backup's own refresh, once its result is known. -/
  | flush (w : Writer)
  /-- The end begins: signals are ignored, and `on_end`'s actions run. -/
  | finish (endedAt : String) (signal : Option String)
  /-- The end's refresh. -/
  | refresh (w : Writer)
  /-- The file goes, and the process with it. -/
  | remove (ok : Bool)
  /-- The process dies as it is. -/
  | kill
  /-- The machine does, and what is under `/run` with it. -/
  | reboot

/-- The run's sample when it writes: only a transfer has a meter. -/
def Run.sampled (r : Run) (count : Option ℕ) : Run :=
  if r.transfer.isSome then { r with meter := r.meter.sample count } else r

/-- The run after an action, and none where the action cannot be. -/
def runAfter : Option Run → Action → Option (Option Run)
  | run, .timer _ => some run
  | some r, .write _ count _ _ =>
      match r.phase with
      | .refreshed => none
      | .starting => some (some { r.sampled count with phase := .running })
      | _ => some (some (r.sampled count))
  | some r, .event e => if r.phase = .running then (r.event e).map some else none
  | some r, .flush _ => if r.phase = .running then some (some r) else none
  | some r, .finish endedAt signal =>
      if r.phase = .running then
        some (some { (if r.onEnd then r.finish endedAt signal else r) with phase := .ending })
      else none
  | some r, .refresh _ =>
      if r.phase = .ending then some (some { r with phase := .refreshed }) else none
  | some r, .remove _ => if r.phase = .refreshed then some none else none
  | some _, .kill => some none
  | _, .reboot => some none
  | none, _ => none

def progressAfter (run : Option Run) (file : File) : Action → File
  | .write now count rate ok =>
      match run with
      | some r => if ok then .doc ((r.sampled count).document now rate) else file
      | none => file
  | .remove ok => if ok then .absent else file
  | .reboot => .absent
  | _ => file

section Status

variable (parseUtcIso : String → Option Int)

/-- What writes status.json, and the updates it has. -/
def writerOf (run : Option Run) : Action → Option Writer
  | .timer w => some { w with updates := fun _ => none }
  | .flush w | .refresh w => run.map fun r => { w with updates := r.updates }
  | _ => none

def World.step (world : World) (a : Action) : Option World :=
  (runAfter world.run a).map fun run =>
    { progress := progressAfter world.run world.progress a
      status :=
        (writerOf world.run a).elim world.status fun w =>
          StatusFile.written parseUtcIso w world.status
      run }

/-- A command that takes the lock: what is of its process, and the writer for an orphan it finds. -/
structure Start where
  command : String
  pid : ℕ
  pidStartTicks : ℕ
  bootId : String
  startedAt : String
  w : Writer

def Start.run (s : Start) : Run :=
  { command := s.command, pid := s.pid, pidStartTicks := s.pidStartTicks, bootId := s.bootId,
    startedAt := s.startedAt }

/-- `start`, up to the first write. -/
def World.start (world : World) (s : Start) : Option World :=
  match world.run with
  | some _ => none
  | none =>
      some
        { progress := world.progress
          status :=
            (recordOrphan world.progress s.w).elim world.status fun w =>
              StatusFile.written parseUtcIso w world.status
          run := some s.run }

/-- A start, and what happens until the next one. -/
structure Session where
  start : Start
  actions : List Action

end Status

end Zark.Progress
