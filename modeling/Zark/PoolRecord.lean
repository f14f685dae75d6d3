import Zark.PointMark
import Zark.RestorePoints
import Zark.SanoidConf

/-!
# Origin's pools at a point

`lib/pool_record.py`: the features of origin's pools, what ran them and, where `/boot` is a
partition of its own, how the disk was laid out, as one JSON value on the point's snapshots; and
what recover refuses because of it, before anything is erased.

The values of a dictionary are a table ordered by name. What Python makes of a number that is no
integer, and which characters are decimal digits, are parameters.
-/

namespace Zark

inductive FeatureState where
  | enabled
  | active
  deriving DecidableEq, Repr

def FeatureState.text : FeatureState → String
  | .enabled => "enabled"
  | .active => "active"

/-- One pool as recorded. -/
structure PoolState where
  compatibility : String
  features : Std.ExtTreeMap String FeatureState

structure Partition where
  sizeBytes : ℕ+
  typeGuid : String

structure Esp where
  sizeBytes : ℕ+
  uuid : String

structure Swap where
  sizeBytes : ℕ+
  crypttab : String

/-- An ext4 `/boot` as origin had it. -/
structure BootRecord where
  dataset : String
  fstype : String
  uuid : String
  label : String
  sizeBytes : ℕ+
  features : List String
  mountOptions : String
  partition : Partition
  esp : Option Esp
  swap : Option Swap

/-- Origin's pools at a point, and what ran them; `bootProblem` is why a boot entry that is there
could not be read. -/
structure PoolRecord where
  ubuntu : String
  zfs : String
  kmod : String
  pools : Std.ExtTreeMap String PoolState
  boot : Option BootRecord := none
  writtenBy : String := ""
  minRecover : String := ""
  bootProblem : String := ""

inductive Layout where
  | bpool
  | ext4
  deriving DecidableEq, Repr

/-- The boot layout of the point a record describes. -/
def layoutOf : Option PoolRecord → Layout
  | some rec => if rec.boot.isSome ∨ rec.bootProblem ≠ "" then .ext4 else .bpool
  | none => .bpool

/-- What Python makes of values and characters. -/
structure Host where
  /-- A number with a fraction or an exponent equals 1. -/
  isOne : Literal → Bool
  /-- Its text. -/
  floatText : Literal → String
  /-- The value of a decimal digit. -/
  decimal : Char → Option ℕ

namespace PoolRecord

open Json

/-! ### Writing -/

def poolJson (p : PoolState) : Json :=
  obj [("compatibility", str p.compatibility),
    ("features", obj (p.features.toList.map fun f => (f.1, str f.2.text)))]

def espJson (e : Esp) : Json := obj [("size_bytes", num (e.sizeBytes : ℕ)), ("uuid", str e.uuid)]

def swapJson (s : Swap) : Json :=
  obj [("crypttab", str s.crypttab), ("size_bytes", num (s.sizeBytes : ℕ))]

def bootJson (b : BootRecord) : Json :=
  obj (sortFields ([("layout", str "ext4"), ("dataset", str b.dataset), ("fstype", str b.fstype),
      ("uuid", str b.uuid), ("label", str b.label), ("size_bytes", num (b.sizeBytes : ℕ)),
      ("features", arr (b.features.map str)), ("mount_options", str b.mountOptions),
      ("partition", obj [("size_bytes", num (b.partition.sizeBytes : ℕ)),
        ("type_guid", str b.partition.typeGuid)])] ++
    ((b.esp.elim [] fun e => [("esp", espJson e)]) ++ b.swap.elim [] fun s =>
      [("swap", swapJson s)])))

def toJson (rec : PoolRecord) : Json :=
  obj (sortFields ([("format", num 1), ("ubuntu", str rec.ubuntu), ("zfs", str rec.zfs),
      ("kmod", str rec.kmod), ("pools", obj (rec.pools.toList.map fun p => (p.1, poolJson p.2)))] ++
    ((rec.boot.elim [] fun b => [("boot", bootJson b)]) ++
      ((if rec.writtenBy = "" then [] else [("written_by", str rec.writtenBy)]) ++
        if rec.minRecover = "" then [] else [("min_recover", str rec.minRecover)]))))

/-- The record's JSON: ASCII, sorted, compact. -/
def dump (rec : PoolRecord) : String := String.ofList (dumps rec.toJson)

/-! ### Reading -/

def isText (v : Json) (text : String) : Bool :=
  match v with
  | str s => s = text
  | _ => false

/-- `_int`. -/
def size : Json → Except String ℕ+
  | num n =>
      if h : 0 < n then
        .ok (n.toNat.toPNat (by omega))
      else .error "a size is not a positive integer"
  | _ => .error "a size is not a positive integer"

/-- `_str`. -/
def text : Json → Except String String
  | str s => .ok s
  | _ => .error "a field is not text"

/-- `_obj`. -/
def entry : Json → Except String (List (String × Json))
  | obj fields => .ok fields
  | _ => .error "an entry is not an object"

def names : Json → Except String (List String)
  | arr items =>
      match items.mapM fun v => (text v).toOption with
      | some names => .ok names
      | none => .error "features is not a list of names"
  | _ => .error "features is not a list of names"

def espOf (e : List (String × Json)) : Except String Esp := do
  let sizeBytes ← size (get e "size_bytes")
  let uuid ← text (get e "uuid")
  return { sizeBytes, uuid }

def swapOf (s : List (String × Json)) : Except String Swap := do
  let sizeBytes ← size (get s "size_bytes")
  let crypttab ← text (get s "crypttab")
  return { sizeBytes, crypttab }

/-- An entry of the ext4 layout read back. -/
def ext4Of (b : List (String × Json)) : Except String BootRecord := do
  let features ← names (get b "features")
  let part ← entry (get b "partition")
  let esp ← (field? b "esp").mapM entry
  let swap ← (field? b "swap").mapM entry
  let dataset ← text (get b "dataset")
  let uuid ← text (get b "uuid")
  let label ← text ((field? b "label").getD (str ""))
  let sizeBytes ← size (get b "size_bytes")
  let mountOptions ← text ((field? b "mount_options").getD (str "defaults"))
  let partSize ← size (get part "size_bytes")
  let typeGuid ← text (get part "type_guid")
  let esp ← esp.mapM espOf
  let swap ← swap.mapM swapOf
  return { dataset, fstype := "ext4", uuid, label, sizeBytes, features, mountOptions,
           partition := ⟨partSize, typeGuid⟩, esp, swap }

/-- The boot entry read back: none for a bpool layout. -/
def bootOf (raw : Json) : Except String (Option BootRecord) := do
  let b ← entry raw
  if isText (get b "layout") "bpool" then .ok none
  else if isText (get b "layout") "ext4" && isText (get b "fstype") "ext4" then some <$> ext4Of b
  else .error ("layout " ++ pyRepr (get b "layout") ++ " is not one this zark recovers")

def featureOf (f : String × Json) : Option (String × FeatureState) :=
  if isText f.2 "enabled" then some (f.1, .enabled)
  else if isText f.2 "active" then some (f.1, .active)
  else none

def poolState : Json → Option PoolState
  | obj p =>
      match get p "compatibility", get p "features" with
      | str compatibility, obj features =>
          (features.mapM featureOf).map fun features =>
            { compatibility, features := .ofList features }
      | _, _ => none
  | _ => none

section Host

variable (host : Host)

mutual

/-- The text of a value as `json.dumps` writes it without being told how. -/
def spaced : Json → List Char
  | arr (v :: items) => '[' :: (spaced v ++ spacedItems items)
  | obj ((k, v) :: fields) =>
      '{' :: '"' :: (escapes k.toList ++ ':' :: ' ' :: (spaced v ++ spacedFields fields))
  | real x => (host.floatText x).toList
  | v => dumps v

def spacedItems : List Json → List Char
  | [] => [']']
  | v :: items => ',' :: ' ' :: (spaced v ++ spacedItems items)

def spacedFields : List (String × Json) → List Char
  | [] => ['}']
  | (k, v) :: fields =>
      ',' :: ' ' :: '"' :: (escapes k.toList ++ ':' :: ' ' :: (spaced v ++ spacedFields fields))

end

/-- A recorded version as text; anything else as its JSON. -/
def versionText : Json → String
  | str s => s
  | v => String.ofList (spaced host v)

/-- `written_by` and `min_recover` of an object of any format. -/
def versionsOf (data : List (String × Json)) : String × String :=
  (versionText host ((field? data "written_by").getD (str "")),
    versionText host ((field? data "min_recover").getD (str "")))

def versions (value : String) : String × String :=
  match loads value.toList with
  | some (obj data) => versionsOf host data
  | _ => ("", "")

/-- `v == 1`. -/
def isFormat : Json → Bool
  | .num n => n = 1
  | .bool b => b
  | .real x => host.isOne x
  | _ => false

/-- The layout a record's boot entry tells, or why it cannot be read. -/
def bootFields (data : List (String × Json)) : Option BootRecord × String :=
  match field? data "boot" with
  | none => (none, "")
  | some raw =>
      match bootOf raw with
      | .ok boot => (boot, "")
      | .error why => (none, if why = "" then "malformed" else why)

/-- A record read back, when it is one this zark reads. -/
def parse (value : String) : Option PoolRecord :=
  match loads value.toList with
  | some (obj data) =>
      if isFormat host (get data "format") then
        match get data "pools" with
        | obj raw => do
            let pools ← raw.mapM fun p => (poolState p.2).map fun state => (p.1, state)
            let ubuntu ← (text ((field? data "ubuntu").getD (str ""))).toOption
            let zfs ← (text ((field? data "zfs").getD (str ""))).toOption
            let kmod ← (text ((field? data "kmod").getD (str ""))).toOption
            return {
              ubuntu, zfs, kmod
              pools := .ofList pools
              boot := (bootFields data).1
              writtenBy := (versionsOf host data).1
              minRecover := (versionsOf host data).2
              bootProblem := (bootFields data).2 }
        | _ => none
      else none
  | _ => none

/-! ### Versions -/

/-- A number at the head of a text, and the rest. -/
def number (l : List Char) : Option (ℕ × List Char) :=
  let ds := l.takeWhile fun c => (host.decimal c).isSome
  if ds = [] then
    none
  else some (ds.foldl (fun n c => 10 * n + (host.decimal c).getD 0) 0, l.drop ds.length)

def dot : List Char → Option (List Char)
  | '.' :: rest => some rest
  | _ => none

/-- Nothing more, or the number of a release candidate. -/
def isRc : List Char → Bool
  | [] => true
  | '-' :: 'r' :: 'c' :: rest => (number host rest).any fun r => r.2.isEmpty
  | _ => false

/-- `X.Y.Z` of a zark version, an `-rcN` suffix ignored. -/
def zarkVersionTuple (version : String) : Option (ℕ × ℕ × ℕ) := do
  let (x, rest) ← number host (Text.strip isSpace version.toList)
  let (y, rest) ← number host (← dot rest)
  let (z, rest) ← number host (← dot rest)
  if isRc host rest then some (x, y, z) else none

/-- Whether this zark may recover a point recorded with `minRecover`. -/
def recovers (minRecover : String) : Bool :=
  if minRecover = "" then true
  else
    match zarkVersionTuple host minRecover, zarkVersionTuple host zarkVersion with
    | some (x, y, z), some (x', y', z') => x < x' || x = x' && (y < y' || y = y' && z ≤ z')
    | _, _ => false

/-! ### The record of a point on the drive -/

/-- A record that is there but cannot be read, with the versions it names. -/
structure RecordError where
  message : String
  writtenBy : String
  minRecover : String

/-- The values on a point's snapshots. -/
def valuesAt (marks : SnapName → Option String) (snaps : List Snap) (point : String) :
    List String :=
  ((snaps.filter (·.name = point)).filterMap fun s => marks (s.stored, s.name)).dedup

/-- Snapshots that disagree, or a value that is no record. -/
def recordError (point : String) (values : List String) : RecordError :=
  let named := (values.insertionSort (· ≤ ·)).map (versions host)
  let (writtenBy, minRecover) :=
    ((named.filter fun v => !recovers host v.2) ++ named).headD ("", "")
  { message := "the snapshots of " ++ point ++ " disagree on origin's pools, or their record is unreadable", writtenBy, minRecover }

def readRecord (marks : SnapName → Option String) (snaps : List Snap) (point : String) :
    Except RecordError (Option PoolRecord) :=
  match valuesAt marks snaps point with
  | [] => .ok none
  | [value] =>
      match parse host value with
      | some rec => .ok (some rec)
      | none => .error (recordError host point [value])
  | values => .error (recordError host point values)

/-- The copy of `/boot` of a boot environment. -/
def bootCopy (be : String) : Rel := ["rpool", "ROOT", be, "zark-boot"]

/-- The layout of a point, by its record or, without one, by the drive's other marks. -/
def pointLayout (rec : Option PoolRecord) (snaps : List Snap) (be : String)
    (originLayout : Option String) : Layout :=
  match rec with
  | some _ => layoutOf rec
  | none =>
      if originLayout = some "ext4" ∨ snaps.any (fun s => s.dataset = bootCopy be) then
        .ext4
      else .bpool

/-! ### What recover refuses -/

/-- A fatal error's text. -/
structure Refusal where
  title : String
  causes : List String
  solutions : List String
  deriving DecidableEq

def writer (writtenBy : String) : String := if writtenBy = "" then "(not recorded)" else writtenBy

/-- A point that needs a newer zark, or names one that is no version. -/
def refuseMinRecover (minRecover writtenBy : String) : Option Refusal :=
  if recovers host minRecover then none
  else some {
    title :=
      if (zarkVersionTuple host minRecover).isSome then
        "This point needs zark " ++ minRecover ++ " or later to recover"
      else "This point's record names an oldest zark this one cannot read: " ++ minRecover
    causes := ["It was written by zark " ++ writer writtenBy ++ "; this is zark " ++ zarkVersion]
    solutions := ["Run recover from a live session with a newer zark", "Nothing was erased"] }

def noRecord : Refusal where
  title := "This point's /boot is on ext4, and it has no record of origin's disk"
  causes :=
    ["The drive holds a copy of /boot or says its system has /boot on ext4, but this point does not record origin's pools and partitions",
      "An interrupted run and a carried sanoid snapshot have no record; without one recover cannot lay the disk out"]
  solutions := ["Choose a point of a complete backup run", "Nothing was erased"]

def noBoot (rec : PoolRecord) : Refusal where
  title := "This point's record of its /boot on ext4 cannot be read"
  causes := ["Written by zark " ++ writer rec.writtenBy ++ "; this is zark " ++ zarkVersion,
    "Its /boot record is unreadable: " ++ (if rec.bootProblem = "" then "absent"
      else rec.bootProblem), "recover lays the disk out from that record"]
  solutions :=
    ["Choose another point", "Run recover from a live session with a newer zark",
      "Nothing was erased"]

def refuseUnrecoverable (rec : Option PoolRecord) (layout : Layout) : Option Refusal :=
  match rec with
  | none => if layout = .ext4 then some noRecord else none
  | some rec =>
      match refuseMinRecover host rec.minRecover rec.writtenBy with
      | some refusal => some refusal
      | none => if layout = .ext4 ∧ rec.boot = none then some (noBoot rec) else none

def refuseUnreadable (point : String) (e : RecordError) : Refusal :=
  (refuseMinRecover host e.minRecover e.writtenBy).getD {
    title := "The record of origin's pools at " ++ point ++ " cannot be read: " ++ e.message
    causes := ["It was written by zark " ++ writer e.writtenBy ++ "; this is zark " ++ zarkVersion,
      "recover lays the disk out from this record; without it the point's layout is not known"]
    solutions :=
      ["Choose another point", "Run recover from a live session with a newer zark",
        "Nothing was erased"] }

def unread (pool error : String) : Refusal where
  title := "Cannot read how origin's pools were at this point on " ++ pool ++ ": " ++ error
  causes := ["The drive did not answer a zfs get; nothing was written"]
  solutions := ["Check the drive: zpool status " ++ pool, "Run recover again"]

/-- The start of `_pools_from_record`: the point's layout and its record, unless recover refuses
it. -/
def poolsFromRecord (listing : Except String (SnapName → Option String)) (pool point : String)
    (snaps : List Snap) (be : String) (originLayout : Option String) :
    Except Refusal (Layout × Option PoolRecord) :=
  match listing with
  | .error error => .error (unread pool error)
  | .ok marks =>
      match readRecord host marks snaps point with
      | .error e => .error (refuseUnreadable host point e)
      | .ok rec =>
          let layout := pointLayout rec snaps be originLayout
          match refuseUnrecoverable host rec layout with
          | some refusal => .error refusal
          | none => .ok (layout, rec)

end Host

end PoolRecord

end Zark
