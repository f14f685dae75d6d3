import Zark.Library.JsonLines
import Zark.PointMark
import Zark.Retention
import Zark.SanoidConf

/-!
# The registry of drives

`lib/registry.py` and the loading and saving of `Config`: `known_drives.json` read strictly, each
entry held as a `DriveInfo` with the keys this version does not know beside the fields it does, and
written back whole. What is written is parsed before it is used.

How floats are written and which characters are digits are Python's, and parameters here. Where a
text that is no JSON goes wrong is left out of its error.
-/

namespace Zark.Registry

open Json

/-- What Python makes of numbers and characters. -/
structure Python where
  floats : Floats
  isDigit : Char → Bool

/-- A dictionary a program holds. -/
structure Dict (floats : Floats) where
  fields : List (String × Json)
  held : Held floats (obj fields)

def knownKeys : List String := ["guid", "drive_id", "last_backup_at", "autoeject"]

def enclosureKey : String := "enclosure_id"

def retentionKey : String := "retention"

def sharedKey : String := "shared"

def textKeys : List String := ["prepared_at", "prepared_version", "last_backup_version"]

/-- A key that no field of `DriveInfo` stands for. -/
def isExtra (key : String) : Bool := decide (key ∉ knownKeys ∧ key ≠ enclosureKey)

/-! ### Checks -/

def require (ok : Bool) (message : String) : Except String Unit :=
  if ok then .ok () else .error message

def typeName : Json → String
  | null => "NoneType"
  | .bool _ => "bool"
  | num _ => "int"
  | real _ => "float"
  | str _ => "str"
  | arr _ => "list"
  | obj _ => "dict"

/-- A string with a character that is no space. -/
def isNonBlank : Json → Bool
  | str s => Text.strip isSpace s.toList ≠ []
  | _ => false

def isStr : Json → Bool
  | str _ => true
  | _ => false

def isBool : Json → Bool
  | .bool _ => true
  | _ => false

/-- `RETENTION_LIMITS`. -/
def limits (key : String) : Option (Int × Int) :=
  if key = "window_days" then some (1, 3650)
  else if key = "max_age_days" then some (0, 36500)
  else if key = "margin_pct" then some (0, 50)
  else none

def isWithin (lo hi : Int) : Json → Bool
  | num n => decide (lo ≤ n ∧ n ≤ hi)
  | _ => false

/-- `value.get(key, default)` of a value that is a whole number. -/
def number (fields : List (String × Json)) (key : String) (default : Int) : Int :=
  match field? fields key with
  | some (num n) => n
  | _ => default

def checkRetention (place : String) : Json → Except String Unit
  | obj fields => do
      forM fields fun f =>
        match limits f.1 with
        | none => .error (place ++ ": unknown retention setting " ++ pyQuoted f.1)
        | some (lo, hi) =>
            require (isWithin lo hi f.2) (place ++ ": retention " ++ pyQuoted f.1 ++
              " must be a whole number " ++
              String.ofList (integer lo) ++ "-" ++ String.ofList (integer hi))
      let window := number fields "window_days" ({} : Policy).windowDays
      let maxAge := number fields "max_age_days" 0
      require (!decide (0 < maxAge ∧ maxAge ≤ window))
        (place ++ ": retention 'max_age_days' must exceed 'window_days'")
  | _ => .error (place ++ ": 'retention' must be an object")

section Python

variable (py : Python)

/-- `s.isdigit()`. -/
def isNumber (s : String) : Bool := !s.toList.isEmpty && s.toList.all py.isDigit

/-- A guid as text: a whole number's is its digits. -/
def guidValue : Json → Json
  | num n => str (String.ofList (integer n))
  | v => v

def isGuid : Json → Bool
  | str s => isNumber py s
  | _ => false

def isShared : Json → Bool
  | arr [str _, str guid, num _] => isNumber py guid
  | _ => false

def checkShared (place : String) : Json → Except String Unit
  | obj fields =>
      forM fields fun f =>
        match f.2 with
        | arr snaps => forM snaps fun snap =>
            require (isShared py snap) (place ++ ": 'shared' of " ++ pyQuoted f.1 ++
              ": each entry must be [name, guid, creation]")
        | _ => .error (place ++ ": 'shared' of " ++ pyQuoted f.1 ++ " must be a list")
  | _ => .error (place ++ ": 'shared' must be an object of datasets")

/-- The checks of an entry's fields, in their order. -/
def checkFields (place : String) (fields : List (String × Json)) : Except String Unit := do
  let guid := guidValue (get fields "guid")
  require (isGuid py guid) (place ++ ": 'guid' must be a decimal pool GUID, got " ++ pyRepr guid)
  require (isNonBlank (get fields "drive_id")) (place ++ ": 'drive_id' must be a non-empty string")
  require ((field? fields enclosureKey).all isNonBlank)
    (place ++ ": " ++ pyQuoted enclosureKey ++ " must be a non-empty string")
  require ((field? fields "autoeject").all isBool) (place ++ ": 'autoeject' must be true or false")
  require ((field? fields "last_backup_at").all fun v => isStr v || v matches null)
    (place ++ ": 'last_backup_at' must be a string or null")
  forM (field? fields retentionKey) (checkRetention place)
  forM textKeys fun key => require ((field? fields key).all isStr)
    (place ++ ": " ++ pyQuoted key ++ " must be a string")
  forM (field? fields sharedKey) (checkShared py place)

/-- `_check_entry`: the entry as a dictionary. -/
def checkEntry (path name : String) : (v : Json) → Held py.floats v → Except String (Dict py.floats)
  | obj fields, h => do
      checkFields py (path ++ ": entry '" ++ name ++ "'") fields
      return ⟨fields, h⟩
  | v, _ => .error (path ++ ": entry '" ++ name ++ "': must be an object, got " ++ typeName v)

def checkAll (path : String) : (data : List (String × Json)) → HeldFields py.floats data →
    Except String (List (String × Dict py.floats))
  | [], _ => .ok []
  | (name, v) :: data, h => do
      require (name ≠ "") (path ++ ": empty pool name")
      let entry ← checkEntry py path name v h.1
      let entries ← checkAll path data h.2
      return (name, entry) :: entries

/-- Registry text parsed and validated. -/
def parse (path text : String) : Except String (List (String × Dict py.floats)) :=
  match h : Json.held py.floats text.toList with
  | some (obj data) => checkAll py path data (held_of_read h).1
  | some _ => .error (path ++ ": top level must be an object of pool names")
  | none => .error (path ++ ": invalid JSON")

/-- An absent file is an empty registry. -/
def load (path : String) : Option String → Except String (List (String × Dict py.floats))
  | some text => parse py path text
  | none => .ok []

/-! ### Writing -/

/-- The truth of a value. -/
def truthy : Json → Bool
  | null => false
  | .bool b => b
  | num n => n ≠ 0
  | real x => x.text ≠ "0.0".toList && x.text ≠ "-0.0".toList
  | str s => s ≠ ""
  | arr items => !items.isEmpty
  | obj fields => !fields.isEmpty

/-- An entry with every known key, then the others. -/
def full (entry : List (String × Json)) : List (String × Json) :=
  [("guid", str (pyStr (get entry "guid"))), ("drive_id", get entry "drive_id"),
      ("last_backup_at", get entry "last_backup_at"),
      ("autoeject", .bool (truthy ((field? entry "autoeject").getD (.bool false))))] ++
    ((if truthy (get entry enclosureKey) then [(enclosureKey, get entry enclosureKey)] else []) ++
      entry.filter fun f => isExtra f.1)

/-- The text of the entries by name, once it parses. -/
def serialize (path : String) (entries : List (String × List (String × Json))) :
    Except String String :=
  let out := obj (sortFields (entries.map fun e => (e.1, obj (full e.2))))
  let text := String.ofList (pretty 0 out ++ ['\n'])
  (parse py path text).map fun _ => text

/-! ### The drives a program works with -/

/-- A known drive; its name is its key. -/
structure DriveInfo where
  guid : String
  driveId : String
  lastBackupAt : Option String := none
  autoeject : Bool := false
  extra : Dict py.floats
  enclosureId : String := ""

variable {py}

theorem heldFields_filter {floats : Floats} {fields : List (String × Json)}
    (keep : String × Json → Bool) (h : Held floats (obj fields)) :
    Held floats (obj (fields.filter keep)) := by
  refine ⟨heldFields_iff.mpr fun f hf => heldFields_iff.mp h.1 f (List.mem_filter.mp hf).1, ?_⟩
  exact h.2.sublist (List.filter_sublist.map Prod.fst)

def infoOf (entry : Dict py.floats) : DriveInfo py where
  guid := pyStr (get entry.fields "guid")
  driveId := pyStr (get entry.fields "drive_id")
  lastBackupAt :=
    match get entry.fields "last_backup_at" with
    | str s => some s
    | _ => none
  autoeject := truthy ((field? entry.fields "autoeject").getD (.bool false))
  extra := ⟨entry.fields.filter fun f => isExtra f.1, heldFields_filter _ entry.held⟩
  enclosureId := pyStr ((field? entry.fields enclosureKey).getD (str ""))

/-- The entry a drive is saved as. -/
def entryOf (info : DriveInfo py) : List (String × Json) :=
  ([("guid", str info.guid), ("drive_id", str info.driveId),
    ("last_backup_at", info.lastBackupAt.elim null str), ("autoeject", .bool info.autoeject)] ++
    if info.enclosureId = "" then
      []
    else [(enclosureKey, str info.enclosureId)]).foldl putField info.extra.fields

variable (py)

structure Config where
  knownDrives : List (String × DriveInfo py)
  loadError : Option String

/-- A registry that cannot be read leaves no drive and its reason. -/
def Config.load (path : String) (file : Option String) : Config py :=
  match Registry.load py path file with
  | .ok data => ⟨data.map fun e => (e.1, infoOf e.2), none⟩
  | .error e => ⟨[], some e⟩

variable {py}

def Config.drive? (c : Config py) (name : String) : Option (DriveInfo py) :=
  (c.knownDrives.find? (·.1 = name)).map Prod.snd

/-- The config with one drive's fields changed. -/
def Config.change (c : Config py) (name : String) (info : DriveInfo py) : Config py :=
  { c with knownDrives := c.knownDrives.map fun d => if d.1 = name then (name, info) else d }

/-- `save_drives`: the text of the file, which is written only when it parses and the old one was
read. -/
def Config.saveDrives (c : Config py) (path : String) : Except String String :=
  match c.loadError with
  | some e => .error ("refusing to overwrite unreadable registry: " ++ e)
  | none => serialize py path (c.knownDrives.map fun d => (d.1, entryOf d.2))

end Python

end Zark.Registry
