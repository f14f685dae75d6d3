import Zark.MakeRoom

/-!
# Retention in steps

A prune now and another one later, with the same marks, against the later one alone. What the first
pass changes for the second is how a point is dated that it takes in part, by the newest of what it
may not take, and which datasets of a tree it left with nothing.
-/

namespace Zark

open Hierarchy

/-- The same question at another time. -/
def Request.atTime (r : Request) (now : ℤ) : Request := { r with now }

/-- The drive after a prune at that time. -/
def pruneAt (dest : Drive) (r : Request) (now : ℤ) : Option Drive :=
  (planPrune dest (r.atTime now)).map dest.pruned

/-- The same datasets with the same snapshots. -/
def SameListing (a b : Drive) : Prop := ∀ rel, a.get? rel = b.get? rel

/-- A prune now and one later leave what the later one alone leaves. -/
def InSteps (dest : Drive) (r : Request) (now later : ℤ) : Prop :=
  ∃ steps once, (pruneAt dest r now).bind (fun left => pruneAt left r later) = some steps ∧
    pruneAt dest r later = some once ∧
    SameListing steps once

/-- The recorded first point is a date no later than any point on the drive. -/
structure RecordedFirst (dest : Drive) (r : Request) (first : ℤ) : Prop where
  point : isPoint r.first = true
  date : parsePoint r.first = some first
  before : ∀ p ∈ pointTimes dest, first ≤ p.2

/-! ### What a prune takes -/

/-- The drive with no snapshot but those held back. -/
def Drive.held (dest : Drive) (r : Request) : Drive :=
  dest.map (fun d => { d with snaps := d.snaps.filter (heldBack r d) }) fun _ => rfl

namespace Terms

/-- A backup point of that date goes, but for what is held back of it. -/
structure Leaves (t : Terms) (point : String × ℕ) : Prop where
  other : some point.1 ≠ t.keepPoint
  due : t.Due point.2 point.1

/-- The drive without what the policy takes. -/
def left (t : Terms) (dest : Drive) : Drive :=
  Drive.destroyed dest (t.removals dest) ((wholeDatasets dest (t.removals dest)).map Prod.fst)

/-- A dataset without what the policy takes of it. -/
def cut (t : Terms) (dest : Drive) (d : Dest) : Dest :=
  d.withoutSnaps ((t.removals dest).map Removal.target)

/-- Every snapshot of the dataset goes. -/
def Clears (t : Terms) (d : Dest) : Prop := ∀ s ∈ d.snaps, t.Takes d s

/-- Every snapshot of what lies at or below the dataset goes. -/
def ClearsTree (t : Terms) (dest : Drive) (top : Dest) : Prop :=
  ∀ e ∈ dest, Under e.rel top.rel → t.Clears e

/-- The top of a tree destroyed whole: no live dataset, with snapshots, and nothing of the tree
stays. -/
structure Fells (t : Terms) (dest : Drive) (top : Dest) : Prop where
  dead : isLive top = false
  filled : top.snaps.items ≠ []
  tree : t.ClearsTree dest top

end Terms

/-! ### What a pass changes for the next -/

/-- A point that leaves in part, dated by what is held back of it. -/
structure CutDown (dest : Drive) (t : Terms) (q : String × ℕ) : Prop where
  held : q ∈ pointTimes (dest.held t.request)
  leaves : ∃ w, (q.1, w) ∈ pointTimes dest ∧ t.Leaves (q.1, w)

/-- A point of the drive as it is dated once the prune is made. -/
def DatedThen (dest : Drive) (t : Terms) (q : String × ℕ) : Prop :=
  q ∈ pointTimes dest ∧ ¬t.Leaves q ∨ CutDown dest t q

/-- A complete point that a prune judges by its month: outside the window, not past the age limit,
not the newest complete one, and not all held back. -/
structure JudgedByMonth (dest : Drive) (t : Terms) (p : String × ℕ) : Prop where
  mem : p ∈ pointTimes dest
  complete : p.1 ∈ t.request.complete
  other : some p.1 ≠ t.keepPoint
  young : ¬t.TooOld p.2
  past : (p.2 : ℤ) < t.request.window
  free : ∃ d ∈ dest, ∃ s ∈ d.snaps, s.name = p.1 ∧ heldBack t.request d s = false

/-- The dates two passes judge by come to what one pass judges by. -/
structure DatesAgree (dest : Drive) (t t' : Terms) : Prop where
  /-- No point cut down now outranks the point of that month. -/
  months : ∀ p, JudgedByMonth dest t' p → p.1 ∈ t.monthly → ∀ q, CutDown dest t q →
    q.1 ∈ t.request.complete →
    month q.2 = month p.2 → rank t.request.wholePoints q ≤ rank t.request.wholePoints p
  /-- No point that stays now is its month's best once those that leave are gone. -/
  heirs : ∀ p, JudgedByMonth dest t' p → p.1 ∉ t.monthly → ¬t.Leaves p →
    ∃ q, DatedThen dest t q ∧ q.1 ∈ t.request.complete ∧
    month q.2 = month p.2 ∧ rank t.request.wholePoints p < rank t.request.wholePoints q
  /-- No history from before the first point is as young as a point cut down now. -/
  history : ∀ d ∈ dest, ∀ s ∈ d.snaps, snapshotKind s.name = .intermediate →
    heldBack t.request d s = false →
    (s.creation : ℤ) < t.start → t'.Due s.creation s.name → ∀ q, CutDown dest t q → s.creation < q.2

/-- What two passes have to agree on with one. -/
structure StepsAgree (dest : Drive) (t t' : Terms) : Prop extends DatesAgree dest t t' where
  /-- No top of a tree that later goes whole has lost all its snapshots now, with one left below
  it. -/
  lineages : ∀ top ∈ dest, t'.Fells dest top →
    (∀ d ∈ dest, Under top.rel d.rel → d.rel ≠ top.rel → ¬t'.Fells dest d) →
    t.Clears top → t.ClearsTree dest top

end Zark
