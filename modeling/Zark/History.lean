import Zark.Proof.Retention
import Zark.RestorePoints

/-!
# The history of a drive

A drive between retention runs: complete backups bring new points, rollbacks and destroys by hand
take snapshots and datasets away outside the policy, and each retention run decides by the
completion sets of what the drive then holds. The history remembers the points some retention run
has taken a snapshot of, which the drive itself does not.
-/

namespace Zark

open Hierarchy

/-- A drive with its marks and metadata, the time of its last retention run and the points such a
run took a snapshot of. -/
structure Standing where
  dest : Drive
  marks : Marks
  lastPoint : String
  first : String := ""
  now : ℤ := 0
  touched : List String := []

namespace Standing

variable (s : Standing)

def snaps : List Snap := driveSnapshots s.dest s.marks

def runComplete : List String := runCompletePoints s.snaps s.lastPoint

/-- What a retention run is asked with. -/
def request (now : ℤ) (policy : Policy) (pinned : List (SnapName × String)) : Request :=
  let complete := retentionPoints s.snaps s.lastPoint
  { complete := complete.run, policy, now, whole := some complete.whole, pinned, first := s.first }

/-- The drive after a retention run. -/
def retained (now : ℤ) (prune : Prune) : Standing :=
  { s with
    dest := s.dest.pruned prune, now, touched := s.touched ++ prune.snapshots.map Removal.name }

/-- The calendar month of a point. -/
def monthOf (name : String) : Option (ℕ × ℕ) :=
  ((pointTimes s.dest).get? name).map fun point => month point.2

/-- A run-complete point of a month from which no retention run took a snapshot. -/
def untouched (m : ℕ × ℕ) (name : String) : Prop :=
  name ∈ s.runComplete ∧ name ∉ s.touched ∧ s.monthOf name = some m

instance (m : ℕ × ℕ) (name : String) : Decidable (s.untouched m name) :=
  inferInstanceAs (Decidable (_ ∧ _ ∧ _))

end Standing

/-- What happens to a drive. -/
inductive Event where
  | retention (now : ℤ) (policy : Policy) (pinned : List (SnapName × String))
  | backup (point : String)
  | removal

/-- One step of a drive's history. -/
inductive Next (s : Standing) : Event → Standing → Prop
  | retention {now : ℤ} {policy : Policy} {pinned : List (SnapName × String)} {prune : Prune}
    (hnow : s.now ≤ now)
      (hage : policy.maxAgeDays = 0) (hprune : planPrune s.dest (s.request now policy pinned)
        = some prune) :
      Next s (.retention now policy pinned) (s.retained now prune)
  /-- A complete run: nothing goes, no mark is taken off, and its point is marked. -/
  | backup {point first : String} {dest : Drive} {marks : Marks}
      (hgrown : ∀ d ∈ s.dest, ∃ e ∈ dest, e.rel = d.rel ∧ ∀ x ∈ d.snaps, x ∈ e.snaps)
      (hmarks : ∀ x, s.marks x ≠ "" → marks x ≠ "")
      (hpoint : point ∈ markedPoints (driveSnapshots dest marks)) :
      Next s (.backup point) { s with dest, marks, first, lastPoint := point }
  /-- A rollback or a destroy by hand. -/
  | removal {dest : Drive} (hfewer : ∀ e ∈ dest, ∃ d ∈ s.dest, e.rel = d.rel ∧
      ∀ x ∈ e.snaps, x ∈ d.snaps) :
      Next s .removal { s with dest }

/-- A history: what happened, each time with what it left. -/
abbrev Events := List (Event × Standing)

def IsRun : Standing → Events → Prop
  | _, [] => True
  | s, (event, s') :: rest => Next s event s' ∧ IsRun s' rest

/-- What holds of every retention run of a history. -/
def EachRetention (P : Standing → Request → Standing → Prop) : Standing → Events → Prop
  | _, [] => True
  | s, (.retention now policy pinned, s') :: rest =>
      P s (s.request now policy pinned) s' ∧ EachRetention P s' rest
  | _, (.backup _, s') :: rest => EachRetention P s' rest
  | _, (.removal, s') :: rest => EachRetention P s' rest

/-- A month that has an untouched run-complete point still has one. -/
def MonthsKept (s s' : Standing) : Prop :=
  ∀ m name, s.untouched m name → ∃ kept, s'.untouched m kept

/-- In each month with an untouched run-complete point, one of them ranks no lower than any
run-complete point of the month, or holds nothing but snapshots the policy never removes. -/
def MonthsSafe (s : Standing) (r : Request) : Prop :=
  ∀ m name, s.untouched m name → ∃ best, s.untouched m best ∧
    ((∀ t t', (pointTimes s.dest).get? best = some t →
        t' ∈ completePoints (pointTimes s.dest) r.complete → month t'.2 = m →
        rank r.wholePoints t' ≤ rank r.wholePoints t) ∨
      ∀ d ∈ s.dest, ∀ x ∈ d.snaps, x.name = best → Spared s.dest r d x)

end Zark
