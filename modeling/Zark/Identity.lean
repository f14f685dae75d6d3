import Zark.Registry

/-!
# The names of a disk

`lib/identity.py` and `reconcile` of `lib/drives.py`: what kind of name a `/dev/disk/by-id` entry
is, which of a disk's names is preferred and which are registered, and how the registry's names
follow the disk an entry was verified on.

A disk is held with the names `by_id_names` found for it. Its node, model, serial number, size,
transport and label decide nothing here.
-/

namespace Zark.Identity

open Registry

/-- What a by-id name identifies. -/
inductive Kind
  | disk
  | bus
  | weak
  | other
  deriving DecidableEq, Repr

def byIdRank : List String := ["usb-", "ata-", "nvme-", "mmc-", "virtio-", "dm-", "md-", ""]

def byIdWeak : List String := ["wwn-", "scsi-", "nvme-eui.", "nvme-nvme."]

def diskPrefixes : List String := ["ata-", "nvme-", "mmc-", "virtio-"]

def busPrefixes : List String := ["usb-", "ieee1394-"]

/-- `s.startswith(prefixes)` of a tuple. -/
def startsWithAny (s : String) (prefixes : List String) : Bool := prefixes.any (startsWith s)

/-- Weak first: `nvme-eui.` begins with `nvme-` and is no disk's own name. -/
def classify (name : String) : Kind :=
  if startsWithAny name byIdWeak then .weak
  else if startsWithAny name diskPrefixes then .disk
  else if startsWithAny name busPrefixes then .bus
  else .other

/-- Where a name ranks: the first prefix of `order` it starts with, then the name. -/
def rank (order : List String) (n : String) : ℕ ×ₗ String := toLex (order.findIdx (startsWith n), n)

/-- The name of a kind that ranks first. -/
def best (names : List String) (kind : Kind) (order : List String) : String :=
  ((names.filter fun n => classify n = kind).argmin (rank order)).getD ""

structure DiskIdentity where
  byId : String
  aliases : List String := []
  deriving DecidableEq, Repr

namespace DiskIdentity

variable (ident : DiskIdentity)

def names : List String := ident.byId :: ident.aliases

/-- The disk's own name, or `""`. -/
def diskId : String := best ident.names .disk diskPrefixes

/-- The enclosure's name, or `""`. -/
def busId : String := best ident.names .bus busPrefixes

end DiskIdentity

def registryNames (ident : DiskIdentity) : String × String :=
  if ident.diskId ≠ "" then (ident.diskId, ident.busId) else (ident.byId, "")

/-- The most stable name; a weak one only when there is no other. -/
def preferredById (names : List String) : String :=
  let strong := names.filter fun n => !startsWithAny n byIdWeak
  let pool := if strong = [] then names else strong
  (pool.argmin (rank byIdRank)).getD ""

/-- The identity of a disk whose by-id entries are `names`. -/
def namesOf (names : List String) : DiskIdentity :=
  { byId := preferredById names, aliases := names }

/-! ### Following the disk -/

def strength : Kind → ℕ
  | .disk => 3
  | .bus => 2
  | .weak => 1
  | .other => 0

def isStrong (kind : Kind) : Bool := decide (kind = .disk ∨ kind = .bus)

variable {py : Python}

/-- The name `reconcile` gives an entry: the registered one where the disk's is weaker. -/
def nameFor (info : DriveInfo py) (driveId : String) : String :=
  if isStrong (classify info.driveId) && strength (classify driveId)
    < strength (classify info.driveId) then info.driveId else driveId

/-- `ident.bus_id or info.enclosure_id` beside a disk's own name, nothing beside another. -/
def enclosureFor (info : DriveInfo py) (ident : DiskIdentity) (driveId : String) : String :=
  if classify driveId = .disk then
    (if ident.busId ≠ "" then ident.busId else info.enclosureId)
  else ""

/-- The entry with its names corrected and the line logged; `none` where `reconcile` leaves the
entry and returns False. -/
def reconcile (name : String) (info : DriveInfo py) (ident : DiskIdentity) :
    Option (DriveInfo py × String) :=
  if (registryNames ident).1 = "" then none
  else
    let driveId := nameFor info (registryNames ident).1
    let enclosureId := enclosureFor info ident driveId
    if driveId = info.driveId ∧ enclosureId = info.enclosureId then none
    else some ({ info with driveId := driveId, enclosureId := enclosureId },
      "Registry: " ++ name ++ " drive_id " ++ info.driveId ++ " -> " ++ driveId ++
        (if enclosureId ≠ "" then ", enclosure_id " ++ enclosureId else ""))

/-- The entry after `reconcile`. -/
def reconciled (name : String) (info : DriveInfo py) (ident : DiskIdentity) : DriveInfo py :=
  (reconcile name info ident).elim info Prod.fst

end Zark.Identity
