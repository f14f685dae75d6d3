import Zark.Replication

/-!
# Snapshots a drive carried

The snapshots sanoid takes and the residues of zark 1.x, as `lib/replication.py` tells them by their
names.
-/

namespace Zark

/-- `SANOID_TYPES`. -/
inductive SanoidType where
  | frequently
  | hourly
  | daily
  | weekly
  | monthly
  | yearly
  deriving DecidableEq, Repr

namespace SanoidType

def text : SanoidType → String
  | frequently => "frequently"
  | hourly => "hourly"
  | daily => "daily"
  | weekly => "weekly"
  | monthly => "monthly"
  | yearly => "yearly"

def all : List SanoidType := [frequently, hourly, daily, weekly, monthly, yearly]

end SanoidType

inductive SharedKind where
  | sanoid (type : SanoidType)
  | syncoid
  deriving DecidableEq, Repr

/-- A name `SANOID_RE` matches, of one type: `autosnap_`, one character or more, and `_` with the
type. -/
def isAutosnap (name : String) (type : SanoidType) : Bool :=
  startsWith name "autosnap_" && ("_" ++ type.text).toList.isSuffixOf name.toList &&
    decide ("autosnap_".length + ("_" ++ type.text).length < name.length)

/-- `shared_kind`; `none` for points, anchors and hand-made snapshots. -/
def sharedKind (name : String) : Option SharedKind :=
  match SanoidType.all.find? (isAutosnap name) with
  | some type => some (.sanoid type)
  | none => if startsWith name "syncoid_" then some .syncoid else none

end Zark
