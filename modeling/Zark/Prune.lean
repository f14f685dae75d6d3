import Zark.Engine
import Zark.Library.Pieces

/-!
# Removing the points left in origin

`zark prune`'s removal of backup points that runs left in origin (`commands/prune.py`): the drive
each point names is read pool by pool, a point that names one is released, the others are destroyed,
those of one dataset together. A pool that does not list is not read, and no point names a drive
when a reading raises. -/

namespace Zark

/-- The points of a reading of origin, as the inventory lists them. -/
def leftPoints (listed : Origins) : List SnapName :=
  (sortedOrigins listed).flatMap fun o =>
    (o.snaps.items.filter fun s => isPoint s.name).map fun s => (o.rel, s.name)

/-! ### Who the points are for -/

/-- `source_pools`: the pools that list. -/
def sourcePools (w : World) : List String × World :=
  ["rpool", "bpool"].foldl
    (fun found pool =>
      let read := found.2.read
      (if read.1 && (read.2.origin.get? [pool]).isSome then found.1 ++ [pool] else found.1, read.2))
    ([], w)

/-- One strict listing a pool; the first that fails ends the reading. -/
def readPools : List String → World → Bool × World
  | [], w => (true, w)
  | _ :: pools, w => if w.read.1 then readPools pools w.read.2 else (false, w.read.2)

/-- The pools whose points' drives are read: none where a listing fails. -/
def knownPools (w : World) : List String × World :=
  let pools := sourcePools w
  let read := readPools pools.1 pools.2
  (if read.1 then pools.1 else [], read.2)

/-- The drive a point names as it was read, "" for none. -/
def readOwner (pools : List String) (w : World) (p : SnapName) : String :=
  if p.1.head?.any (· ∈ pools) then pointOwners w p else ""

/-! ### Destroying snapshots -/

/-- Snapshots one `zfs destroy` names at most. -/
def destroyGroup : ℕ := 100

/-- `zfs destroy ds@a,b,c`: all of them or none. -/
def World.destroyTogether (w : World) (rel : Rel) (names : List String) : Bool × World :=
  if w.faults.head?.getD false then (false, { w with faults := w.faults.tail })
  else
    match w.origin.get? rel with
    | some o =>
        if names.any fun name => decide (name ∈ o.snaps.keys) then
          (true, { w with
            origin :=
              w.origin.set { o with snaps := o.snaps.filter fun s => decide (s.name ∉ names) }
            faults := w.faults.tail })
        else (false, { w with faults := w.faults.tail })
    | none => (false, { w with faults := w.faults.tail })

/-- The names of one dataset, cut into groups one command destroys. -/
def groupsOf (rel : Rel) (names : List String) : List (Rel × List String) :=
  (names.cutInto destroyGroup).map fun group => (rel, group)

/-- A group of several is destroyed together; a single one, and each of a group that failed, is left
for its own command. -/
def destroyGroupOf (state : List SnapName × World) (group : Rel × List String) :
    List SnapName × World :=
  let singles := group.2.map fun name => (group.1, name)
  if group.2.length = 1 then (state.1 ++ singles, state.2)
  else
    let done := state.2.destroyTogether group.1 group.2
    if done.1 then (state.1, done.2) else (state.1 ++ singles, done.2)

/-- `reclaim.destroy_snapshots`. -/
def destroySnapshots (targets : List SnapName) (w : World) : World :=
  let groups := (targets.map Prod.fst).reverse.dedup.reverse.flatMap fun rel =>
    groupsOf rel ((targets.filter (·.1 = rel)).map Prod.snd)
  let grouped := groups.foldl destroyGroupOf ([], w)
  grouped.1.foldl (fun w p => (w.command (.destroySnap p.1 p.2)).2) grouped.2

/-! ### The removal -/

/-- The points that name a drive are released, the rest destroyed. -/
def removePoints (points : List SnapName) (owner : SnapName → String) (w : World) : World :=
  let released :=
    (points.filter (owner · ≠ "")).foldl (fun w p => (releasePoint w p.1 p.2 (owner p)).2) w
  destroySnapshots (points.filter (owner · = "")) released

/-- `_points`: the inventory's points go when the word is typed. -/
def prunePoints (listed : Origins) (typed : Bool) (w : World) : World :=
  let pools := knownPools w
  if typed then removePoints (leftPoints listed) (readOwner pools.1 w) pools.2 else pools.2

end Zark
