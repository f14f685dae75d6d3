import Zark.Exclusions
import Zark.Library.Json

/-!
# What a backup point left out

The record on a point's snapshots: every excluded top with its flags, and every dataset of a
subtree left out of the backup with the mount properties origin had.
-/

namespace Zark

open Hierarchy

/-- What an excluded top is left out of. -/
inductive Flags where
  | backups
  | snapshots
  | both
  deriving DecidableEq, Repr

def Flags.text : Flags → String
  | .backups => "backups"
  | .snapshots => "snapshots"
  | .both => "both"

/-- An excluded top as a point recorded it. -/
structure MarkTop where
  top : Rel
  flags : Flags
  deriving DecidableEq, Repr

/-- A dataset a point left out, with the mount properties origin had. -/
structure MarkDataset where
  rel : Rel
  canmount : String
  mountpoint : String
  deriving DecidableEq, Repr

/-- What a backup point left out, read back from the drive. -/
structure PointMark where
  tops : Keyed MarkTop.top := ∅
  datasets : Keyed MarkDataset.rel := ∅
  deriving DecidableEq

namespace PointMark

/-- The tops of the subtrees the point left out of the backup. -/
def leftOut (m : PointMark) : List Rel :=
  (m.tops.items.filter (·.flags != .snapshots)).map MarkTop.top

/-- The tops excluded from snapshots only, as at the point. -/
def noSnapshot (m : PointMark) : List Rel :=
  sortRels ((m.tops.items.filter (·.flags == .snapshots)).map MarkTop.top)

/-- The point left `rel` out. -/
def covers (m : PointMark) (rel : Rel) : Bool :=
  decide (rel ∈ m.datasets.keys) || (covering rel m.leftOut).isSome

end PointMark

/-! ### Writing it -/

namespace Declared

/-- `both` for a top of `noBackup` only when the snapshot exclusion is set on that top itself. -/
def flagsOf (d : Declared) (top : Rel) : Flags :=
  if (d.tops.get? top).any Exclusion.snapshot then .both else .backups

end Declared

/-- `top` and every origin dataset below it, parents first. -/
def subtree (top : Rel) (origin : Origins) : List Rel :=
  sortRels (origin.keys.filter fun rel => Under rel top)

/-- What a run's point records: every top with its flags, and every dataset left out of the
backup. -/
def pointMark (declared : Declared) (origin : Origins) : PointMark where
  tops :=
    let backups := (sortRels declared.noBackup).map fun t => MarkTop.mk t (declared.flagsOf t)
    let snapshots :=
      ((sortRels declared.noSnapshot).filter (· ∉ declared.noBackup)).map fun t =>
        MarkTop.mk t .snapshots
    Keyed.putAll (backups ++ snapshots)
  datasets :=
    Keyed.putAll
      (((sortRels declared.noBackup).flatMap fun top => (subtree top origin).filterMap origin.get?).map
        fun o => MarkDataset.mk o.rel o.canmount o.mountpoint)

/-- Fields of a JSON object under dataset names. -/
def namedFields {α : Type*} (name : α → Rel) (value : α → Json) (items : List α) :
    List (String × Json) :=
  Json.sortFields (items.map fun a => ((name a).text, value a))

def PointMark.toJson (m : PointMark) : Json :=
  .obj [("datasets", .obj (namedFields MarkDataset.rel
    (fun d => .arr [.str d.canmount, .str d.mountpoint]) m.datasets.items)),
    ("tops", .obj (namedFields MarkTop.top (fun t => .str t.flags.text) m.tops.items))]

/-- The record as `json.dumps` writes it: compact, sorted, ASCII. -/
def PointMark.dump (m : PointMark) : String := String.ofList (Json.dumps m.toJson)

/-! ### Reading it back -/

/-- A string of printed characters between quotes, as Python shows it. -/
def pyQuoted (s : String) : String :=
  let quote := if s.toList.contains '\'' && !s.toList.contains '"' then '"' else '\''
  let shown := s.toList.flatMap fun c =>
    if c = quote ∨ c = '\\' then ['\\', c]
    else if c = '\n' then ['\\', 'n']
    else if c = '\r' then ['\\', 'r']
    else if c = '\t' then ['\\', 't']
    else if c.toNat < 32 ∨ c.toNat = 127 then
      ['\\', 'x', Nat.digitChar (c.toNat / 16), Nat.digitChar (c.toNat % 16)]
    else [c]
  String.ofList (quote :: shown ++ [quote])

mutual

/-- A JSON value as Python shows it. -/
def pyRepr : Json → String
  | .null => "None"
  | .bool true => "True"
  | .bool false => "False"
  | .num n => String.ofList (Json.integer n)
  | .real x => String.ofList x.text
  | .str s => pyQuoted s
  | .arr items => "[" ++ ", ".intercalate (pyItems items) ++ "]"
  | .obj fields => "\x7b" ++ ", ".intercalate (pyFields fields) ++ "\x7d"

def pyItems : List Json → List String
  | [] => []
  | v :: items => pyRepr v :: pyItems items

def pyFields : List (String × Json) → List String
  | [] => []
  | (k, v) :: fields => (pyQuoted k ++ ": " ++ pyRepr v) :: pyFields fields

end

/-- `str(v)`. -/
def pyStr : Json → String
  | .str s => s
  | v => pyRepr v

/-- The flags a text names. -/
def flagsNamed (text : String) : Option Flags :=
  if text = Flags.backups.text then some .backups
  else if text = Flags.both.text then some .both
  else if text = Flags.snapshots.text then some .snapshots
  else none

def readTop (field : String × Json) : Option MarkTop :=
  match field.2 with
  | .str text => (flagsNamed text).map fun flags => ⟨Rel.ofText field.1, flags⟩
  | _ => none

def readDataset (field : String × Json) : Option MarkDataset :=
  match field.2 with
  | .arr [canmount, mountpoint] => some ⟨Rel.ofText field.1, pyStr canmount, pyStr mountpoint⟩
  | _ => none

/-- A point's mark, when the text is one. -/
def parsePointMark (value : String) : Option PointMark :=
  match Json.loads value.toList with
  | some (.obj fields) =>
      match (Json.field? fields "tops").getD (.obj []),
          (Json.field? fields "datasets").getD (.obj []) with
      | .obj tops, .obj datasets => 
          some { tops := Keyed.putAll (tops.filterMap readTop),
                 datasets := Keyed.putAll (datasets.filterMap readDataset) }
      | _, _ => none
  | _ => none

end Zark
