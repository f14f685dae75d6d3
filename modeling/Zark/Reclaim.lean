import Zark.Library.Pieces

/-!
# Snapshots removed by name

`destroy_snapshots` of `lib/reclaim.py`: the snapshots of one dataset go in commands of many names
each, which ZFS takes whole or not at all; a bookmark, a name left alone in its command and every
name of a command that failed go one by one. What is destroyed is counted, and what is not is
listed.

Names are text here, since the code makes its groups by cutting them. What the commands are run on
is a parameter, and `zfsDestroy` is ZFS on a drive's names.
-/

namespace Zark.Reclaim

/-! ### Names -/

/-- A character ZFS takes in a component of a name. -/
def isNameChar (c : Char) : Bool :=
  c.isAlphanum || c = '-' || c = '_' || c = '.' || c = ':' || c = ' '

/-- The full name of a snapshot or a bookmark, as ZFS allows them. -/
def IsTarget (t : String) : Prop :=
  ∃ ds name : String, (∀ c ∈ ds.toList, isNameChar c = true ∨ c = '/') ∧
    (∀ c ∈ name.toList, isNameChar c = true) ∧
    (t = ds ++ "@" ++ name ∨ t = ds ++ "#" ++ name)

/-- `text.partition(sep)`, when the separator is there. -/
def partition (sep : Char) (text : String) : Option (String × String) :=
  if sep ∈ text.toList then
    some (String.ofList (text.toList.takeWhile (· ≠ sep)),
      String.ofList (text.toList.dropWhile (· ≠ sep)).tail)
  else none

/-- The names a `zfs destroy` of one argument is about. -/
def namesOf (arg : String) : List String :=
  match partition '@' arg with
  | some (ds, names) => (names.toList.splitOn ',').map fun name => ds ++ "@" ++ String.ofList name
  | none => [arg]

/-- `zfs destroy` where some names are refused: what it names and is there goes, all of it or
nothing. -/
def zfsDestroy (refused : String → Bool) (arg : String) (there : List String) :
    Bool × List String :=
  let named := (namesOf arg).filter (· ∈ there)
  if named.isEmpty || named.any refused then (false, there) else (true, there.filter (· ∉ named))

/-! ### The commands -/

/-- Names one `zfs destroy` has at most. -/
def groupSize : ℕ := 100

/-- What is destroyed so far, what is not, and what the commands left. -/
structure Outcome (σ : Type) where
  count : ℕ
  left : List String
  drive : σ

/-- A target among the groups of its dataset or, a bookmark, among those that go alone. -/
def sortTarget (sorted : List (String × List String) × List String) (target : String) :
    List (String × List String) × List String :=
  match partition '@' target with
  | some (ds, name) =>
      if '#' ∈ target.toList then
        (sorted.1, sorted.2 ++ [target])
      else (sorted.1.putInGroup ds name, sorted.2)
  | none => (sorted.1, sorted.2 ++ [target])

section Commands

variable {σ : Type} (destroy : String → σ → Bool × σ)

/-- Names of one dataset together; one alone waits for its own command, and so do all when theirs
fails. -/
def destroyChunk (ds : String) (o : Outcome σ) (chunk : List String) : Outcome σ :=
  let alone := chunk.map fun name => ds ++ "@" ++ name
  if chunk.length = 1 then { o with left := o.left ++ alone }
  else
    let done := destroy (ds ++ "@" ++ ",".intercalate chunk) o.drive
    if done.1 then { o with count := o.count + chunk.length, drive := done.2 }
    else { o with left := o.left ++ alone, drive := done.2 }

def destroyGroup (o : Outcome σ) (group : String × List String) : Outcome σ :=
  (group.2.cutInto groupSize).foldl (destroyChunk destroy group.1) o

def destroySingle (o : Outcome σ) (target : String) : Outcome σ :=
  let done := destroy target o.drive
  if done.1 then
    { o with count := o.count + 1, drive := done.2 }
  else { o with left := o.left ++ [target], drive := done.2 }

/-- `destroy_snapshots`: how many went, what could not, and what the commands left. -/
def destroySnapshots (targets : List String) (drive : σ) : Outcome σ :=
  let sorted := targets.foldl sortTarget ([], [])
  let grouped := sorted.1.foldl (destroyGroup destroy) ⟨0, sorted.2, drive⟩
  grouped.left.foldl (destroySingle destroy) ⟨grouped.count, [], grouped.drive⟩

end Commands

end Zark.Reclaim
