import Zark.Library.PosixPath
import Zark.Names

/-!
# Where a dataset is mounted in a tree

`resolve_in_tree` and `layout_target` of `lib/mount.py`: a path of a backup's tree resolved as a
chroot at its root would resolve it, so that no symlink of the backup leads a mount out of the tree.

A tree is held below its root, each entry under the names that lead to it. `realpath` and the
working directory are the system's, and parameters.
-/

namespace Zark.Mount

open Posix

inductive Entry
  | dir
  | link (target : String)
  | file
  deriving DecidableEq, Repr

/-- What lies below a root: an entry lies in a directory. -/
structure Tree where
  entry : List String → Option Entry
  root : entry [] = some .dir
  parent : ∀ dir name e, entry (dir ++ [name]) = some e → entry dir = some .dir

/-- `os.readlink` of a path below the root, where `os.path.islink` holds. -/
def Tree.link? (tree : Tree) (names : List String) : Option String :=
  match tree.entry names with
  | some (.link target) => some target
  | _ => none

def maxSymlinks : ℕ := 40

/-- The loop of `resolve_in_tree`: `current` is resolved, the components are to be walked. -/
def resolveLoop (tree : Tree) (links : ℕ) (current : List String) :
    List String → Option (List String)
  | [] => some current
  | c :: parts =>
      if c = "" ∨ c = "." then resolveLoop tree links current parts
      else if c = ".." then resolveLoop tree links current.dropLast parts
      else
        match tree.link? (current ++ [c]) with
        | some link =>
            if maxSymlinks < links + 1 then none
            else resolveLoop tree (links + 1) (if isAbs link then [] else current)
              (split link ++ parts)
        | none => resolveLoop tree links (current ++ [c]) parts
  termination_by parts => (maxSymlinks - links, parts.length)

/-- The path with no symlink left, or none after too many. -/
def resolveInTree (tree : Tree) (cwd root path : String) : Except String (Option String) := do
  let rel ← relpath cwd path root
  let parts := if rel = "." then [] else split rel
  return (resolveLoop tree 0 [] parts).map fun current =>
    if current ≠ [] then joinAll root current else root

/-- Where a target under `mnt` is mounted, or why it is skipped. -/
def layoutTarget (realpath : String → String) (tree : Tree) (cwd path mnt root : String)
    (readonly : Bool) : Except String (String × String) :=
  if !readonly then
    let target := realpath path
    if !startsWith target (root ++ "/") then
      .ok ("", path ++ " resolves to " ++ target)
    else .ok (target, "")
  else do
    let rel ← relpath cwd path mnt
    match ← resolveInTree tree cwd root (join root rel) with
    | none => return ("", path ++ ": too many symlinks")
    | some resolved =>
        if resolved = root then
          return ("", path ++ " resolves to the root")
        else return (resolved, "")

/-! ### A walk in a chroot -/

/-- The kernel's walk of some components in a chroot at the root, some links followed already: an
absolute link restarts at the root, `..` does not leave it, and no more than 40 links are followed.
It ends at an entry of the tree. -/
inductive Walk (tree : Tree) : ℕ → List String → List String → List String → Prop
  | done {links : ℕ} {place : List String} : Walk tree links place [] place
  | stay {links : ℕ} {place rest result : List String} {c : String} (hstep : isStep c = false)
      (hdir : tree.entry place = some .dir)
      (hrest : Walk tree links place rest result) : Walk tree links place (c :: rest) result
  | up {links : ℕ} {place rest result : List String} (hdir : tree.entry place = some .dir)
      (hrest : Walk tree links place.dropLast rest result) :
      Walk tree links place (".." :: rest) result
  | enter {links : ℕ} {place rest result : List String} {c : String} {e : Entry}
      (hstep : isStep c = true) (hup : c ≠ "..")
      (hentry : tree.entry (place ++ [c]) = some e) (hlink : tree.link? (place ++ [c]) = none)
      (hrest : Walk tree links (place ++ [c]) rest result) :
      Walk tree links place (c :: rest) result
  | follow {links : ℕ} {place rest result : List String} {c target : String}
      (hstep : isStep c = true) (hup : c ≠ "..")
      (hlink : tree.link? (place ++ [c]) = some target) (hlinks : links < 40)
      (htarget : target ≠ "")
      (hrest : Walk tree (links + 1) (if isAbs target then [] else place)
        (split target ++ rest) result) : Walk tree links place (c :: rest) result

end Zark.Mount
