import Zark.Restore

/-!
# Where mount shows a drive's datasets

`_plan_origin_layout` of `commands/mount.py`: every filesystem of the drive under one directory, as
on origin. The boot environment's root, mounted there already, is not listed. Names are as
`list_datasets` gives them, at or below `rpool` and `bpool`.
-/

namespace Zark.OriginLayout

open Hierarchy

/-- One dataset of the tree: where it goes, or why it does not. -/
structure LayoutMount where
  rel : Rel
  target : String
  reason : String := ""
  deriving DecidableEq, Repr

structure LayoutRequest where
  stored : Keyed Stored.rel
  be : String
  mnt : String
  cache : MountTable := fun _ => none
  zark : MountTable := fun _ => none
  /-- The filesystem's root directory was read and has no entries. -/
  emptyRoot : Rel → Bool := fun _ => false

/-- `MountProps.source`. -/
def sourceText : PropSource → String
  | .zark => "zark"
  | .cache => "cache"
  | .ubuntu => "ubuntu"
  | .inferred => "inferred"
  | .excluded => "excluded"

/-- The boot environment's root. -/
def beRoot (be : String) : Rel := ["rpool", "ROOT", be]

/-- A dataset below `rpool/ROOT` or `bpool/BOOT` that is not the boot environment's. -/
def isOtherBe (be : String) (rel : Rel) : Bool :=
  decide ((Under rel ["rpool", "ROOT"] ∧ rel ≠ ["rpool", "ROOT"]) ∨
    (Under rel ["bpool", "BOOT"] ∧ rel ≠ ["bpool", "BOOT"])) &&
    !decide (rel = ["bpool", "BOOT", be] ∨ (Under rel (beRoot be) ∧ rel ≠ beRoot be))

/-- `mnt.rstrip("/")`. -/
def directory (mnt : String) : String :=
  String.ofList (mnt.toList.reverse.dropWhile (· == '/')).reverse

/-- The loop so far: effective mountpoints, and the datasets listed. -/
structure Layout where
  effective : List (Rel × String)
  plan : List LayoutMount := []

namespace Layout

def effective? (st : Layout) (rel : Rel) : Option String := st.effective.lookup rel

def add (st : Layout) (m : LayoutMount) : Layout := { st with plan := st.plan ++ [m] }

end Layout

section Plan

variable (q : LayoutRequest)

def hasChildren (rel : Rel) : Bool :=
  q.stored.items.any fun other => decide (Under other.rel rel) && other.rel != rel

/-- The properties of a dataset. -/
def propsOf (rel : Rel) : MountProps :=
  let needsProbe := (q.zark rel).isNone && (q.cache rel).isNone && hasChildren q rel
  choose rel q.be q.zark q.cache (needsProbe && q.emptyRoot rel)

/-- A filesystem of the tree, below what is mounted at `above`. -/
def layoutMount (rel : Rel) (above : String) : LayoutMount :=
  let props := propsOf q rel
  let mountpoint := effectiveMountpoint props above (leaf rel)
  if props.canmount ≠ "on" then
    ⟨rel, "", "canmount=" ++ props.canmount ++ " [" ++ sourceText props.source ++ "]"⟩
  else if startsWith mountpoint "/" then ⟨rel, directory q.mnt ++ mountpoint, ""⟩
  else ⟨rel, "", "mountpoint=" ++ (if mountpoint = "" then "unknown" else mountpoint) ++ " [" ++
    sourceText props.source ++ "]"⟩

def layoutRow (st : Layout) (rel : Rel) : Layout :=
  if isArchived rel then st.add ⟨rel, "", "archived lineage (listed apart)"⟩
  else if (q.stored.get? rel).map Stored.kind ≠ some .filesystem ∨ (st.effective? rel).isSome then
    st
  else if isOtherBe q.be rel then st.add ⟨rel, "", "another boot environment"⟩
  else
    match st.effective? (parent rel) with
    | none => st.add ⟨rel, "", "parent " ++ Rel.text (parent rel) ++ " is not part of the tree"⟩
    | some above =>
        let st := st.add (layoutMount q rel above)
        { st with
          effective := (rel, effectiveMountpoint (propsOf q rel) above (leaf rel)) :: st.effective }

/-- What is known before: recover's containers and the boot environment's root. -/
def layoutStart : Layout :=
  { effective := (beRoot q.be, "/") :: (["rpool"], (rpoolRootMountpoint q.cache).1) :: createdContainers ++ bpoolContainers }

def planOriginLayout : List LayoutMount :=
  ((sortRels q.stored.keys).foldl (layoutRow q) (layoutStart q)).plan

end Plan

/-- Where a plan puts a dataset. -/
def HasTarget (plan : List LayoutMount) (rel : Rel) (target : String) : Prop :=
  ∃ m ∈ plan, m.rel = rel ∧ m.target = target ∧ target ≠ ""

/-- What mount lays out for the boot environment of a restore: the same drive and properties, the
filesystems' roots read. -/
def ofRestore (r : RestoreRequest) (mnt : String) (emptyRoot : Rel → Bool) : LayoutRequest :=
  { stored := r.stored, be := r.be, mnt, cache := r.cache, zark := r.zark, emptyRoot }

end Zark.OriginLayout
