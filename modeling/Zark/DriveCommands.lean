import Zark.Replication

/-!
# Commands on the drive

The zfs commands a run gives on the backup drive to follow the user's decisions: a dataset renamed
with everything below it, a clone made of a snapshot, a clone promoted and a dataset rolled back to
a snapshot. A clone keeps its origin through all of them: it follows the snapshot to its new name.
-/

namespace Zark

open Hierarchy

/-- A name a dataset can be given: not taken, and the dataset it lies in is there, as the pool
itself always is. -/
structure IsFree (dest : Drive) (rel : Rel) : Prop where
  ne_nil : rel ≠ []
  absent : rel ∉ dest.keys
  place : parent rel = [] ∨ parent rel ∈ dest.keys

instance (dest : Drive) (rel : Rel) : Decidable (IsFree dest rel) :=
  decidable_of_iff (rel ≠ [] ∧ rel ∉ dest.keys ∧ (parent rel = [] ∨ parent rel ∈ dest.keys))
    ⟨fun ⟨hne, habsent, hplace⟩ => ⟨hne, habsent, hplace⟩, fun ⟨hne, habsent, hplace⟩ =>
      ⟨hne, habsent, hplace⟩⟩

/-! ### Rename -/

/-- The name of `x` after the tree `old` is renamed `new`. -/
def movedRel (old new x : Rel) : Rel := if Under x old then new ++ x.drop old.length else x

def Dest.moved (old new : Rel) (d : Dest) : Dest :=
  { d with
    rel := movedRel old new d.rel,
    cloneOf := d.cloneOf.map fun source => (movedRel old new source.1, source.2) }

/-- What `zfs rename old new` asks for: the source is there, the target free and not below the
source. -/
structure CanRename (dest : Drive) (old new : Rel) : Prop where
  source : old ∈ dest.keys
  target : IsFree dest new
  outside : ¬Under new old

instance (dest : Drive) (old new : Rel) : Decidable (CanRename dest old new) :=
  decidable_of_iff (old ∈ dest.keys ∧ IsFree dest new ∧ ¬Under new old)
    ⟨fun ⟨hsource, htarget, houtside⟩ => ⟨hsource, htarget, houtside⟩,
      fun ⟨hsource, htarget, houtside⟩ => ⟨hsource, htarget, houtside⟩⟩

/-- `zfs rename old new`. -/
def zfsRename (dest : Drive) (old new : Rel) : Option Drive :=
  if CanRename dest old new then
    Keyed.ofList? Dest.rel (dest.items.map (Dest.moved old new))
  else none

/-- Rename an orphan to the name its lineage now has in origin. -/
def followRename (dest : Drive) (p : DatasetPlan) : Option Drive :=
  p.renameTo.bind (zfsRename dest p.rel)

/-- One rename after another, each accepted. -/
def followRenames (dest : Drive) (chosen : List DatasetPlan) : Option Drive :=
  chosen.foldlM followRename dest

/-! ### Clone and promote -/

/-- `zfs clone source rel`, with the properties the engine sets: an empty child of the snapshot. -/
def zfsClone (dest : Drive) (source : SnapName) (rel : Rel) : Option Drive :=
  (dest.get? source.1).bind fun d =>
    if source.2 ∈ d.snaps.keys ∧ IsFree dest rel then
      dest.push? { rel, kind := d.kind, cloneOf := some source }
    else none

/-- A clone's origin when the snapshots `taken` of `of` have moved to `rel`. -/
def repointed (of rel : Rel) (taken : List String) (source : SnapName) : SnapName :=
  if source.1 = of ∧ source.2 ∈ taken then (rel, source.2) else source

/-- What a promote of `rel`, a clone of `source`, makes of a dataset: the clone takes the origin's
snapshots up to `source`, and the origin becomes its clone. -/
def Dest.promoted (rel : Rel) (source : SnapName) (o : Dest) (snaps : Keyed Ref.name) (x : Dest) :
    Dest :=
  if x.rel = rel then { x with snaps, cloneOf := o.cloneOf }
  else if x.rel = source.1 then
    { x with snaps := x.snaps.after source.2, cloneOf := some (rel, source.2) }
  else { x with cloneOf := x.cloneOf.map (repointed source.1 rel (o.snaps.upTo source.2).keys) }

theorem Dest.promoted_rel (rel : Rel) (source : SnapName) (o : Dest)
    (snaps : Keyed Ref.name) (x : Dest) :
    (Dest.promoted rel source o snaps x).rel = x.rel := by
  unfold Dest.promoted
  split
  · rfl
  · split <;> rfl

/-- `zfs promote rel`: refused when a snapshot's name is taken on the clone. -/
def zfsPromote (dest : Drive) (rel : Rel) : Option Drive :=
  (dest.get? rel).bind fun d => d.cloneOf.bind fun source => (dest.get? source.1).bind fun o =>
    if source.2 ∈ o.snaps.keys then
      (Keyed.ofList? Ref.name ((o.snaps.upTo source.2).items ++ d.snaps.items)).map fun snaps =>
        dest.map (Dest.promoted rel source o snaps) (Dest.promoted_rel rel source o snaps)
    else none

/-! ### Rollback -/

/-- A dataset after `zfs rollback -r`: nothing after the snapshot, and nothing written since. -/
def Dest.rolledBack (d : Dest) (name : String) : Dest :=
  { d with snaps := d.snaps.upTo name, written := 0 }

end Zark
