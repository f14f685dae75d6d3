import Zark.Restore

/-!
# Restore points

The snapshots of a drive grouped into restore points, as `lib/restore_points.py` groups them: one
point per backup point name, and of every other family the runs its snapshots were taken in, by
creation. A point's members are a list; a snapshot stands there under its own dataset.
-/

namespace Zark

/-- Snapshots of one dataset further apart than this belong to different runs. -/
def repeatGap : ℕ := 300

/-- The name up to its first digit. -/
def familyOf (name : String) : String :=
  let head := name.toList.takeWhile fun c => !c.isDigit
  if head = [] then name else String.ofList head

def Snap.family (s : Snap) : String := familyOf s.name

/-- A syncoid run snapshots one dataset at a time. -/
def sequential (family : String) : Bool := startsWith family "syncoid_"

/-- By creation, dataset and transaction group. -/
def Snap.runKey (s : Snap) : ℕ ×ₗ (String ×ₗ ℕ) ×ₗ ℕ :=
  toLex (s.creation, toLex (s.dataset.key, s.createtxg))

def sortSnaps (snaps : List Snap) : List Snap := snaps.insertionSort fun a b => a.runKey ≤ b.runKey

/-- `cluster`'s loop over one family: the points before the current one, the current one, when it
first saw each dataset, and the last creation. -/
structure Clustering where
  points : List Point := []
  current : Option Point := none
  firstSeen : List (Rel × ℕ) := []
  last : ℕ := 0

def Clustering.add (family : String) (st : Clustering) (s : Snap) : Clustering :=
  let repeated :=
    (st.firstSeen.lookup s.dataset).any fun first => decide (repeatGap < s.creation - first)
  let gap := !sequential family && decide (repeatGap < s.creation - st.last)
  match st.current with
  | none =>
      { st with
        current := some ⟨family, [s]⟩, firstSeen := [(s.dataset, s.creation)], last := s.creation }
  | some p =>
      if repeated || gap then
        { points := st.points ++ [p], current := some ⟨family, [s]⟩,
          firstSeen := [(s.dataset, s.creation)], last := s.creation }
      else
        { st with
          current := some { p with members := p.members ++ [s] }
          firstSeen :=
            if (st.firstSeen.lookup s.dataset).isSome then
              st.firstSeen
            else st.firstSeen ++ [(s.dataset, s.creation)]
          last := s.creation }

/-- The runs of one family's snapshots that are no backup points. -/
def familyRuns (family : String) (members : List Snap) : List Point :=
  let st := (sortSnaps members).foldl (Clustering.add family) {}
  st.points ++ st.current.toList

/-- One point per backup point name. -/
def byName (snaps : List Snap) : List Point :=
  (snaps.map Snap.name).eraseDups.map fun name => ⟨familyOf name, snaps.filter (·.name = name)⟩

/-- The families of a listing, in their order. -/
def families (snaps : List Snap) : List String :=
  ((snaps.map Snap.family).eraseDups).insertionSort (· ≤ ·)

def clusterFamily (snaps : List Snap) (family : String) : List Point :=
  let members := snaps.filter (·.family = family)
  byName (members.filter fun s => isPoint s.name) ++ familyRuns family
    (members.filter fun s => !isPoint s.name)

/-- Snapshots grouped into runs, per family. -/
def cluster (snaps : List Snap) : List Point := (families snaps).flatMap (clusterFamily snaps)

/-- Creation of the boot environment root's snapshot. -/
def Point.label (p : Point) (root : Rel) : ℕ :=
  (p.members.filter (·.dataset = root)).foldl (fun t s => max t s.creation) 0

/-- The runs that include the boot environment root, oldest first. -/
def restorePoints (snaps : List Snap) (root : Rel) : List Point :=
  ((cluster snaps).filter fun p => p.members.any (·.dataset = root)).insertionSort fun a b =>
    toLex (a.label root, a.family) ≤ toLex (b.label root, b.family)

end Zark
