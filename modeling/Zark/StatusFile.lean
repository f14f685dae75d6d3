import Zark.Library.Json
import Zark.Library.Keyed
import Zark.Retention

/-!
# status.json

`lib/status_file.py`: the state between runs that other programs read. Every write is a read, merge
and write under one lock: what only a backup measures is carried forward from the previous file by
the drive's guid, a drive's contents together with the space they were measured with, and a file of
a newer schema is left as it is.

A file is what `json.loads` makes of it. `parse_utc_iso` is a parameter, in microseconds.
-/

namespace Zark.StatusFile

open Json

def kind : String := "zark-status"

def schemaVersion : Int := 1

def capWarning : ℕ := 80

def capCritical : ℕ := 90

def text? (s : Option String) : Json := s.elim null str

/-- Whether a value counts as true. -/
def truthy : Json → Bool
  | .null => false
  | .bool b => b
  | .num n => n != 0
  | .real x =>
      (x.text.takeWhile fun c => c != 'e' && c != 'E').any fun c => c != '-' && c != '.' && c != '0'
  | .str s => s != ""
  | .arr items => !items.isEmpty
  | .obj fields => !fields.isEmpty

/-! ### What is measured -/

/-- A backup run's ending, for one drive. -/
structure LastRun where
  result : String
  startedAt : String
  endedAt : String
  point : Option String := none
  datasetsMissing : ℕ := 0
  message : String := ""
  deriving DecidableEq

def LastRun.toJson (r : LastRun) : Json :=
  obj [("command", str "backup"), ("result", str r.result), ("started_at", str r.startedAt),
    ("ended_at", str r.endedAt), ("point", text? r.point),
    ("datasets_missing", num r.datasetsMissing), ("message", str r.message)]

/-- A whole pool's space. -/
structure Space where
  usedBytes : ℕ
  availableBytes : ℕ
  poolSizeBytes : ℕ
  poolAllocBytes : ℕ
  poolFreeBytes : ℕ
  capacityPct : ℕ
  measuredAt : String
  deriving DecidableEq

def Space.toJson (s : Space) : Json :=
  obj [("used_bytes", num s.usedBytes), ("available_bytes", num s.availableBytes),
    ("pool_size_bytes", num s.poolSizeBytes), ("pool_alloc_bytes", num s.poolAllocBytes),
    ("pool_free_bytes", num s.poolFreeBytes), ("capacity_pct", num s.capacityPct),
    ("measured_at", str s.measuredAt)]

def contentFields : List String :=
  ["datasets", "points", "non_point_snapshots", "retention_next", "reclaim_by_age"]

/-- The fields of the contents that there are. -/
def contentGroup (value : String → Option Json) : List (String × Json) :=
  contentFields.filterMap fun k => (value k).map fun v => (k, v)

/-- The drive contents of one measurement; a field that could not be read is none. -/
structure DriveContents where
  datasets : Option Json := none
  points : Option Json := none
  nonPointSnapshots : Option Json := none
  retentionNext : Option Json := none
  reclaimByAge : Option Json := none

def DriveContents.value (c : DriveContents) (name : String) : Option Json :=
  if name = "datasets" then c.datasets
  else if name = "points" then c.points
  else if name = "non_point_snapshots" then c.nonPointSnapshots
  else if name = "retention_next" then c.retentionNext
  else if name = "reclaim_by_age" then c.reclaimByAge
  else none

def DriveContents.toJson (c : DriveContents) : List (String × Json) := contentGroup c.value

/-- What a writer measured for one drive; what is none is carried forward, and so is a previous run
that started at `unlessStartedAt`. -/
structure DriveUpdate where
  lastRun : Option LastRun := none
  space : Option Space := none
  lastBackupPoint : Option String := none
  unlessStartedAt : String := ""
  contents : Option DriveContents := none
  /-- The last point's `written_by` and `min_recover`, "" when not set. -/
  lastPointRecord : Option (String × String) := none

/-! ### A drive's entry -/

section Entry

variable (before : List (String × Json)) (up : DriveUpdate)

/-- The contents that go with the previous space. -/
def oldContents : List (String × Json) :=
  if truthy (get before "space") then contentGroup (field? before) else []

/-- The space and the contents, one group: a new pair, or the previous one whole. -/
def spaceAndContents : Json × List (String × Json) :=
  match up.space, up.contents with
  | some space, some contents => (space.toJson, contents.toJson)
  | some space, none =>
      if (oldContents before).isEmpty then
        (space.toJson, [])
      else (get before "space", oldContents before)
  | none, _ => (get before "space", oldContents before)

/-- The previous run's ending, unless the update has another. -/
def lastRunOf : Json :=
  let previous := get before "last_run"
  match up.lastRun with
  | none => previous
  | some run =>
      match previous with
      | obj fields =>
          match field? fields "started_at" with
          | some (str started) =>
              if up.unlessStartedAt ≠ "" ∧ started = up.unlessStartedAt then
                previous
              else run.toJson
          | _ => run.toJson
      | _ => run.toJson

def lastPointOf : Json :=
  match up.lastBackupPoint with
  | some point => if point = "" then get before "last_backup_point" else str point
  | none => get before "last_backup_point"

def recordOf : Json :=
  match up.lastPointRecord with
  | some (writtenBy, minRecover) =>
      obj [("written_by", str writtenBy),
        ("min_recover", if minRecover = "" then null else str minRecover)]
  | none => get before "last_point_record"

end Entry

/-- A known backup drive, with its retention settings. -/
structure DriveInfo where
  name : String
  guid : String
  driveId : String
  lastBackupAt : Option String := none
  autoeject : Bool := false
  enclosureId : String := ""
  retention : Policy := {}

structure Config where
  knownDrives : Keyed DriveInfo.name := ∅
  loadError : Option String := none
  drivesFilePath : String

/-- `sorted(cfg.known_drives.items())`. -/
def Config.sorted (cfg : Config) : List DriveInfo :=
  cfg.knownDrives.items.insertionSort fun a b => a.name ≤ b.name

/-- An ext4 `/boot`'s space. -/
structure BootSpace where
  mountpoint : String
  fstype : String
  source : String
  usedBytes : ℕ
  availableBytes : ℕ
  sizeBytes : ℕ
  capacityPct : ℕ
  measuredAt : String

/-- What `status.gather` read that the file tells, with the notices made of it. -/
structure Status where
  spaces : List (String × Option Space) := []
  datasets : String → Option (List Json) := fun _ => none
  boot : Option BootSpace := none
  notices : List Json := []

/-- The level of a capacity, "ok" below the warning. -/
def capLevel (pct : ℕ) : String :=
  if capCritical ≤ pct then "critical" else if capWarning ≤ pct then "warning" else "ok"

section Build

variable (parseUtcIso : String → Option Int)

def ageDays (lastBackupAt : Option String) (generatedAt : String) : Json :=
  match parseUtcIso (lastBackupAt.getD ""), parseUtcIso generatedAt with
  | some last, some now => num (max 0 ((now - last) / 86400000000))
  | _, _ => null

def driveEntry (info : DriveInfo) (now : String) (before : List (String × Json))
    (up : DriveUpdate) : List (String × Json) :=
  [("name", str info.name), ("guid", str info.guid),
    ("drive_id", str (if info.driveId = "" then "<unknown>" else info.driveId))] ++
    (if info.enclosureId = "" then [] else [("enclosure_id", str info.enclosureId)]) ++
    [("autoeject", .bool info.autoeject),
      ("retention", obj [("window_days", num info.retention.windowDays),
        ("max_age_days", num info.retention.maxAgeDays),
        ("margin_pct", num info.retention.marginPct)]),
      ("last_backup_at", text? (info.lastBackupAt.filter fun at_ => (parseUtcIso at_).isSome)),
      ("age_days", ageDays parseUtcIso info.lastBackupAt now),
      ("last_backup_point", lastPointOf before up), ("last_run", lastRunOf before up),
      ("space", (spaceAndContents before up).1)] ++
    (spaceAndContents before up).2 ++
    match recordOf before up with
    | obj record => [("last_point_record", obj record)]
    | _ => []

def poolEntry (st : Status) (pool : String × Option Space) : Json :=
  obj ([("name", str pool.1), ("space", pool.2.elim null Space.toJson),
    ("level", pool.2.elim null fun s => str (capLevel s.capacityPct))] ++
    match pool.2, st.datasets pool.1 with
    | some _, some listed => [("datasets", arr listed)]
    | _, _ => [])

def BootSpace.toJson (b : BootSpace) : Json :=
  obj [("mountpoint", str b.mountpoint), ("fstype", str b.fstype), ("source", str b.source),
    ("space", obj [("used_bytes", num b.usedBytes), ("available_bytes", num b.availableBytes),
      ("size_bytes", num b.sizeBytes), ("capacity_pct", num b.capacityPct),
      ("measured_at", str b.measuredAt)]),
    ("level", str (capLevel b.capacityPct))]

/-- The guid and the fields of a drive's entry. -/
def entryOf : Json → Option (String × List (String × Json))
  | obj fields =>
      match field? fields "guid" with
      | some (str guid) => some (guid, fields)
      | _ => none
  | _ => none

/-- The previous file's drive entries by guid. -/
def previousDrives (prev : Option (List (String × Json))) :
    Keyed (Prod.fst : String × List (String × Json) → String) :=
  match prev.bind fun fields => field? fields "drives" with
  | some (arr drives) => Keyed.putAll (drives.filterMap entryOf)
  | _ => ∅

/-- The document, merged with the previous one. -/
def build (st : Status) (cfg : Config) (generatedBy now : String)
    (prev : Option (List (String × Json))) (updates : String → Option DriveUpdate) : Json :=
  let old := previousDrives prev
  let drives := cfg.sorted.map fun info =>
    obj (driveEntry parseUtcIso info now (((old.get? info.guid).map Prod.snd).getD [])
      ((updates info.guid).getD {}))
  obj ([("kind", str kind), ("schema_version", num schemaVersion),
      ("zark_version", str zarkVersion), ("generated_at", str now),
      ("generated_by", str generatedBy), ("registry", str cfg.drivesFilePath),
        ("thresholds", obj [("capacity_warning_pct", num capWarning), ("capacity_critical_pct",
          num capCritical), ("rpo_warning_days", num 7), ("stale_after_s", num 10800)]),
      ("source_pools", arr (st.spaces.map (poolEntry st)))] ++
    (st.boot.elim [] fun boot => [("boot", boot.toJson)]) ++
    [("drives", arr drives), ("notices", arr st.notices)])

/-! ### The file -/

inductive File where
  | absent
  | unreadable
  | doc (v : Json)

/-- The previous file's fields; none when absent, unreadable or of another kind. -/
def read : File → Option (List (String × Json))
  | .doc (obj fields) =>
      match field? fields "kind" with
      | some (str k) => if k = kind then some fields else none
      | _ => none
  | _ => none

/-- A schema version this zark does not write. -/
def newer (prev : Option (List (String × Json))) : Option Int :=
  match prev.bind fun fields => field? fields "schema_version" with
  | some (num version) => if version > schemaVersion then some version else none
  | _ => none

/-- What becomes of the lock. -/
inductive Lock where
  | taken
  | held
  | failed (error : String)

/-- An error of building or replacing the file; `replaced` is whether it came after `os.replace`,
with the new file in place. -/
structure Failure where
  error : String
  replaced : Bool := false

/-- One writer at its turn: what it read and measured, and what goes wrong. -/
structure Writer where
  st : Status := {}
  cfg : Config
  generatedBy : String := ""
  generatedAt : String := ""
  updates : String → Option DriveUpdate := fun _ => none
  liveUsb : Bool := false
  lock : Lock := .taken
  failure : Option Failure := none

def statusPath : String := "/var/lib/zark/status.json"

def lockPath : String := "/run/zark/status.lock"

/-- Whether the file was written, the document put in its place, and the warnings. -/
def write (w : Writer) (file : File) : Bool × Option Json × List String :=
  if w.liveUsb then (false, none, [])
  else
    match w.cfg.loadError with
    | some error =>
        (false, none, ["known_drives.json cannot be used (" ++ error ++
          "): status.json not written"])
    | none =>
        match w.lock with
        | .failed error =>
            (false, none, ["status.json: cannot take " ++ lockPath ++ ": " ++ error ++
              "; not written"])
        | .held =>
            (false, none, ["status.json: " ++ lockPath ++ " still held after 10 s; not written"])
        | .taken =>
            let prev := read file
            let unread :=
              match prev, file with
              | some _, _ | none, .absent => []
              | none, _ => ["status.json: the previous file is unreadable; nothing carried forward"]
            match newer prev with
            | some version =>
                (false, none, unread ++ ["status.json: written by a newer zark (schema " ++
                  toString version ++ "); left as it is"])
            | none =>
                let doc := build parseUtcIso w.st w.cfg w.generatedBy w.generatedAt prev w.updates
                match w.failure with
                | some failure =>
                    -- The directory is opened and synced after the replacement; that error is
                    -- logged as any other.
                    (false, if failure.replaced then some doc else none,
                      unread ++ ["status.json: could not write " ++ statusPath ++ ": " ++
                        failure.error])
                | none => (true, some doc, unread)

/-- The file after a write. -/
def written (w : Writer) (file : File) : File := (write parseUtcIso w file).2.1.elim file .doc

end Build

end Zark.StatusFile
