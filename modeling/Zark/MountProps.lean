import Zark.Names

/-!
# Mount properties of a restored dataset

Where a restored dataset's `canmount` and `mountpoint` come from, as `lib/mount_props.py` decides
it: what the backup recorded, origin's own list cache, the Ubuntu installer's layout, or the
structure of the snapshot itself.
-/

namespace Zark

open Hierarchy

def ubuntuRootChildrenOff : List String := ["usr", "var"]

def ubuntuRootChildrenOn : List String :=
  ["usr/local", "var/lib", "var/log", "var/mail", "var/snap", "var/spool", "var/www", "var/games",
    "var/lib/apt", "var/lib/dpkg", "var/lib/AccountsService", "var/lib/NetworkManager", "srv"]

/-- Datasets recover creates itself under rpool, with their effective mountpoints. -/
def createdContainers : List (Rel × String) :=
  [(["rpool", "ROOT"], "none"), (["rpool", "USERDATA"], "none")]

/-- Those of the boot pool. -/
def bpoolContainers : List (Rel × String) := [(["bpool"], "none"), (["bpool", "BOOT"], "none")]

def ubuntuRpoolMountpoint : String := "/"

inductive PropSource where
  | zark
  | cache
  | ubuntu
  | inferred
  | excluded
  deriving DecidableEq, Repr

/-- Target properties of one restored dataset; "" for a mountpoint is unknown. -/
structure MountProps where
  canmount : String
  mountpoint : String
  source : PropSource
  deriving DecidableEq, Repr

/-- What is known of datasets' `canmount` and `mountpoint`. -/
abbrev MountTable := Rel → Option (String × String)

/-- The pool root's mountpoint; `none` in origin's cache is not trusted. -/
def rpoolRootMountpoint (cache : MountTable) : String × PropSource :=
  let mountpoint := ((cache ["rpool"]).getD ("", "")).2
  if mountpoint ≠ "" ∧ mountpoint ∉ ["none", "legacy", "-"] then
    (mountpoint, .cache)
  else (ubuntuRpoolMountpoint, .ubuntu)

/-- The copy of an ext4 `/boot`, in the boot environment. -/
def bootCopy : String := "zark-boot"

/-- `canmount` and `mountpoint` from the Ubuntu layout, when it has the dataset. -/
def ubuntuLayout (rel : Rel) (be : String) : Option (String × String) :=
  let root := ["rpool", "ROOT", be]
  if rel = root then some ("on", "/")
  else if Under rel root then
    let child := Rel.text (rel.drop root.length)
    if child = bootCopy then some ("noauto", "legacy")
    else if child ∈ ubuntuRootChildrenOff then some ("off", "/" ++ child)
    else if child ∈ ubuntuRootChildrenOn then some ("on", "/" ++ child)
    else none
  else if startsWith rel.text "rpool/USERDATA/home_" then some ("on", "/home")
  else if startsWith rel.text "rpool/USERDATA/root_" then some ("on", "/root")
  else if rel = ["bpool", "BOOT", be] then some ("on", "/boot")
  else none

/-- Effective mountpoint a child inherits from its parent. -/
def inherited (parentEffective leaf : String) : String :=
  if parentEffective = "" then "none"
  else if parentEffective ∈ ["none", "legacy", "-"] then parentEffective
  else String.ofList ((parentEffective.toList.reverse.dropWhile (· == '/')).reverse) ++ "/" ++ leaf

/-- The properties of `rel` from the highest-priority source. -/
def choose (rel : Rel) (be : String) (zark cache : MountTable) (emptyWithChildren : Bool) :
    MountProps :=
  match zark rel with
  | some (canmount, mountpoint) => ⟨canmount, mountpoint, .zark⟩
  | none =>
      match cache rel with
      | some (canmount, mountpoint) => ⟨canmount, mountpoint, .cache⟩
      | none =>
          match ubuntuLayout rel be with
          | some (canmount, mountpoint) => ⟨canmount, mountpoint, .ubuntu⟩
          | none =>
              let mountpoint := if rel.length = 2 then "/" ++ Rel.text rel.tail else ""
              ⟨if emptyWithChildren then "off" else "on", mountpoint, .inferred⟩

/-- `zfs receive` options that give `props` under that parent; a mountpoint it would inherit is not
set. -/
def receiveOptions (props : MountProps) (parentEffective leaf : String) : List String :=
  ("-o canmount=" ++ props.canmount) ::
    if props.mountpoint ≠ "" ∧ props.mountpoint ≠ inherited parentEffective leaf then
      ["-o mountpoint=" ++ props.mountpoint]
    else []

/-- Effective mountpoint after a receive with `receiveOptions`. -/
def effectiveMountpoint (props : MountProps) (parentEffective leaf : String) : String :=
  if props.mountpoint = "" then inherited parentEffective leaf else props.mountpoint

end Zark
