import Zark.Retention

/-!
# Backup points on a drive

`lib/restore_points.py`: which backup points of a drive come from a complete run, by the marks on
their snapshots or, on a drive with no mark at all, by the last point a complete run recorded and by
what the datasets hold around them. Archived lineages count as their dataset.
-/

namespace Zark

open Hierarchy

/-- One snapshot of the drive, with its own completion mark, "" when none is set on it. -/
structure Snap where
  stored : Rel
  name : String
  guid : String := ""
  createtxg : ℕ := 0
  creation : ℕ
  mark : String := ""
  deriving DecidableEq, Repr

/-- The dataset a snapshot counts for: an archived lineage's is that of its dataset. -/
def Snap.dataset (s : Snap) : Rel := logical s.stored

/-- What drives written by 2.0.0-rc2 carry: no count. -/
def legacyMark : String := "yes"

/-- Completion marks by snapshot, "" for none. -/
abbrev Marks := SnapName → String

def snapOf (marks : Marks) (d : Dest) (s : Ref) : Snap where
  stored := d.rel
  name := s.name
  guid := s.guid
  createtxg := s.createtxg
  creation := s.creation
  mark := marks (d.rel, s.name)

/-- Every snapshot of the drive, each with its own mark. -/
def driveSnapshots (dest : Drive) (marks : Marks) : List Snap :=
  dest.items.flatMap fun d => d.snaps.items.map (snapOf marks d)

theorem mem_driveSnapshots {dest : Drive} {marks : Marks} {x : Snap} :
    x ∈ driveSnapshots dest marks ↔ ∃ d ∈ dest, ∃ s ∈ d.snaps, snapOf marks d s = x := by
  simp [driveSnapshots, Keyed.mem_def]

def pointMembers (snaps : List Snap) (name : String) : List Snap := snaps.filter (·.name = name)

/-- The names of the backup points of a listing. -/
def pointNames (snaps : List Snap) : List String :=
  ((snaps.filter fun s => isPoint s.name).map Snap.name).dedup

/-- The time of a point: its newest snapshot's. -/
def pointEnd (snaps : List Snap) (name : String) : ℕ :=
  (pointMembers snaps name).foldl (fun t s => max t s.creation) 0

/-- A dataset with a snapshot before a point and one after, and none of it. -/
def skips (snaps : List Snap) (name : String) (dataset : Rel) : Bool :=
  !(pointMembers snaps name).any (·.dataset = dataset) &&
    (snaps.any fun s => s.dataset = dataset && s.creation < pointEnd snaps name) &&
    snaps.any fun s => s.dataset = dataset && pointEnd snaps name < s.creation

/-- Backup points some dataset skipped. -/
def skippedPoints (snaps : List Snap) : List String :=
  (pointNames snaps).filter fun name => (snaps.map Snap.dataset).any (skips snaps name)

/-- Backup points of a drive written before completion was recorded on it: those up to the last
complete run's that no dataset skipped. -/
def legacyComplete (snaps : List Snap) (lastPoint : String) : List String :=
  if lastPoint = "" then []
  else ((pointNames snaps).filter (· ≤ lastPoint)).filter (· ∉ skippedPoints snaps)

/-- The points with any mark; `point_marks` gives them with their snapshots. -/
def markedPoints (snaps : List Snap) : List String :=
  (pointNames snaps).filter fun name => (pointMembers snaps name).any (·.mark ≠ "")

/-- The count a mark carries, when it is digits. -/
def markCount (mark : String) : Option ℕ :=
  if mark ≠ "" ∧ mark.toList.all Char.isDigit then
    some (Nat.ofDigitChars 10 mark.toList 0)
  else none

/-- Every snapshot of a point carries its mark and as many datasets as the mark records hold it; an
rc2 mark carries no count. -/
def isComplete (members : List Snap) : Bool :=
  match (members.map Snap.mark).dedup with
  | [mark] => mark = legacyMark || markCount mark = some (members.map Snap.dataset).dedup.length
  | _ => false

/-- Backup points whose run reached every dataset; a point stays in this set after part of its
snapshots went. -/
def runCompletePoints (snaps : List Snap) (lastPoint : String) : List String :=
  if markedPoints snaps = [] then legacyComplete snaps lastPoint else markedPoints snaps

/-- What retention knows about a drive's points: those whose run was complete, of these the ones no
dataset skipped since, and the recorded first point. -/
structure Complete where
  run : List String
  whole : List String
  first : String := ""
  deriving DecidableEq, Repr

def retentionPoints (snaps : List Snap) (lastPoint : String) : Complete :=
  let run := runCompletePoints snaps lastPoint
  { run, whole := run.filter (· ∉ skippedPoints snaps) }

/-! ### What the listing says -/

section Listing

variable {snaps : List Snap} {name : String}

theorem mem_pointMembers {s : Snap} : s ∈ pointMembers snaps name ↔ s ∈ snaps ∧ s.name = name := by
  simp [pointMembers]

theorem mem_pointNames : name ∈ pointNames snaps ↔
    isPoint name = true ∧ ∃ s ∈ snaps, s.name = name := by
  simp only [pointNames, List.mem_dedup, List.mem_map, List.mem_filter]
  exact ⟨fun ⟨s, ⟨hs, hpoint⟩, hname⟩ => ⟨hname ▸ hpoint, s, hs, hname⟩,
    fun ⟨hpoint, s, hs, hname⟩ => ⟨s, ⟨hs, hname ▸ hpoint⟩, hname⟩⟩

theorem mem_markedPoints : name ∈ markedPoints snaps ↔
    isPoint name = true ∧ ∃ s ∈ snaps, s.name = name ∧ s.mark ≠ "" := by
  simp only [markedPoints, List.mem_filter, mem_pointNames, List.any_eq_true, mem_pointMembers,
    decide_eq_true_eq]
  exact ⟨fun ⟨⟨hpoint, _⟩, s, ⟨hs, hname⟩, hmark⟩ => ⟨hpoint, s, hs, hname, hmark⟩,
    fun ⟨hpoint, s, hs, hname, hmark⟩ => ⟨⟨hpoint, s, hs, hname⟩, s, ⟨hs, hname⟩, hmark⟩⟩

theorem skips_iff {dataset : Rel} : skips snaps name dataset = true ↔
    (∀ s ∈ snaps, s.name = name → s.dataset ≠ dataset) ∧
      (∃ s ∈ snaps, s.dataset = dataset ∧ s.creation < pointEnd snaps name) ∧
        ∃ s ∈ snaps, s.dataset = dataset ∧ pointEnd snaps name < s.creation := by
  simp only [skips, Bool.and_eq_true, Bool.not_eq_true', ← Bool.not_eq_true, List.any_eq_true,
    decide_eq_true_eq, mem_pointMembers, not_exists, not_and, and_assoc, ne_eq]

theorem mem_skippedPoints : name ∈ skippedPoints snaps ↔
    name ∈ pointNames snaps ∧ ∃ dataset, skips snaps name dataset = true := by
  rw [skippedPoints, List.mem_filter, List.any_eq_true]
  refine and_congr_right fun _ => ⟨fun ⟨dataset, _, h⟩ => ⟨dataset, h⟩, fun ⟨dataset, h⟩ => ?_⟩
  obtain ⟨-, ⟨s, hs, hdataset, -⟩, -⟩ := skips_iff.mp h
  exact ⟨dataset, List.mem_map.mpr ⟨s, hs, hdataset⟩, h⟩

theorem mem_legacyComplete {lastPoint : String} : name ∈ legacyComplete snaps lastPoint ↔
    lastPoint ≠ "" ∧ name ∈ pointNames snaps ∧ name ≤ lastPoint ∧ name ∉ skippedPoints snaps := by
  unfold legacyComplete
  split
  · rename_i h
    simp [h]
  · rename_i h
    simp only [List.mem_filter, decide_eq_true_eq, and_assoc]
    exact ⟨fun hmem => ⟨h, hmem⟩, And.right⟩

theorem mem_runCompletePoints {lastPoint : String} : name ∈ runCompletePoints snaps lastPoint ↔
    name ∈ markedPoints snaps ∨ markedPoints snaps = [] ∧
    name ∈ legacyComplete snaps lastPoint := by
  unfold runCompletePoints
  split
  · rename_i h
    simp [h]
  · rename_i h
    simp [h]

/-- Two lists with the same members have the same newest time. -/
theorem foldl_max_congr {α β : Type*} {f : α → ℕ} {g : β → ℕ} {l : List α} {l' : List β}
    (h : ∀ a ∈ l, ∃ b ∈ l', f a ≤ g b) (h' : ∀ b ∈ l', ∃ a ∈ l, g b ≤ f a) :
    l.foldl (fun t s => max t (f s)) 0 = l'.foldl (fun t s => max t (g s)) 0 := by
  apply le_antisymm
  · refine Best.foldl_max_le_iff.mpr ⟨Nat.zero_le _, fun a ha => ?_⟩
    obtain ⟨b, hb, hle⟩ := h a ha
    exact hle.trans ((Best.foldl_max_le_iff.mp le_rfl).2 b hb)
  · refine Best.foldl_max_le_iff.mpr ⟨Nat.zero_le _, fun b hb => ?_⟩
    obtain ⟨a, ha, hle⟩ := h' b hb
    exact hle.trans ((Best.foldl_max_le_iff.mp le_rfl).2 a ha)

end Listing

/-! ### A listing that loses snapshots of other points -/

section Fewer

variable {snaps fewer : List Snap} {name lastPoint : String}

/-- A listing with some snapshots gone, none of them of one point. -/
structure Without (snaps fewer : List Snap) (name : String) : Prop where
  sub : fewer ⊆ snaps
  keeps : ∀ s ∈ snaps, s.name = name → s ∈ fewer

theorem Without.pointEnd_eq (h : Without snaps fewer name) :
    pointEnd fewer name = pointEnd snaps name := by
  apply foldl_max_congr
  · intro s hs
    obtain ⟨hs, hname⟩ := mem_pointMembers.mp hs
    exact ⟨s, mem_pointMembers.mpr ⟨h.sub hs, hname⟩, le_rfl⟩
  · intro s hs
    obtain ⟨hs, hname⟩ := mem_pointMembers.mp hs
    exact ⟨s, mem_pointMembers.mpr ⟨h.keeps s hs hname, hname⟩, le_rfl⟩

/-- What no dataset skipped is not skipped once other snapshots are gone. -/
theorem Without.skipped (h : Without snaps fewer name) (hskipped : name ∈ skippedPoints fewer) :
    name ∈ skippedPoints snaps := by
  obtain ⟨hname, dataset, hskips⟩ := mem_skippedPoints.mp hskipped
  obtain ⟨hnone, ⟨s, hs, hbefore⟩, ⟨t, ht, hafter⟩⟩ := skips_iff.mp hskips
  obtain ⟨hpoint, u, hu, huname⟩ := mem_pointNames.mp hname
  rw [h.pointEnd_eq] at hbefore hafter
  refine mem_skippedPoints.mpr ⟨mem_pointNames.mpr ⟨hpoint, u, h.sub hu, huname⟩, dataset,
    skips_iff.mpr ⟨?_, ?_, ?_⟩⟩
  · exact fun x hx hxname => hnone x (h.keeps x hx hxname) hxname
  · exact ⟨s, h.sub hs, hbefore⟩
  · exact ⟨t, h.sub ht, hafter⟩

/-- A run-complete point stays one once other snapshots are gone. -/
theorem Without.runComplete (h : Without snaps fewer name)
    (hrun : name ∈ runCompletePoints snaps lastPoint) :
    name ∈ runCompletePoints fewer lastPoint := by
  rcases mem_runCompletePoints.mp hrun with hmarked | ⟨hnone, hlegacy⟩
  · obtain ⟨hpoint, s, hs, hname, hmark⟩ := mem_markedPoints.mp hmarked
    exact mem_runCompletePoints.mpr (.inl
      (mem_markedPoints.mpr ⟨hpoint, s, h.keeps s hs hname, hname, hmark⟩))
  · obtain ⟨hlast, hnames, hle, hwhole⟩ := mem_legacyComplete.mp hlegacy
    obtain ⟨hpoint, s, hs, hname⟩ := mem_pointNames.mp hnames
    refine mem_runCompletePoints.mpr (.inr
      ⟨?_, mem_legacyComplete.mpr ⟨hlast, ?_, hle, mt h.skipped hwhole⟩⟩)
    · rw [List.eq_nil_iff_forall_not_mem] at hnone ⊢
      intro other hother
      obtain ⟨hother, x, hx, hxname, hmark⟩ := mem_markedPoints.mp hother
      exact hnone other (mem_markedPoints.mpr ⟨hother, x, h.sub hx, hxname, hmark⟩)
    · exact mem_pointNames.mpr ⟨hpoint, s, h.keeps s hs hname, hname⟩

end Fewer

end Zark
