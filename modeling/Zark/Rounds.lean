import Zark.Replication

/-!
# Transfer rounds

`replicate` of `lib/engine.py` and its loop `_rounds`: the surveys of a run, the transfers each
round makes of what its survey planned, and what the run achieved. What a survey reads, how a
transfer ends and whether a partial receive can be discarded are the surroundings', one answer for
each time they are asked.
-/

namespace Zark

open Hierarchy

/-- How one dataset's transfer ends; for a resumed one that fails, whether it can never be resumed
and whether `zfs receive -A` then succeeds. -/
structure Attempt where
  ok : Bool
  enospc : Bool := false
  impossible : Bool := false
  discarded : Bool := false
  deriving DecidableEq, Repr

/-- Parents before children. -/
def depthOrder (plans : List DatasetPlan) : List DatasetPlan :=
  plans.insertionSort fun p q => p.rel.length < q.rel.length ∨ p.rel.length = q.rel.length ∧
    p.rel.text ≤ q.rel.text

/-- An ancestor of `rel`, the pool itself apart, failed in this round. -/
def blockedByParent (rel : Rel) (failed : List Rel) : Bool :=
  (parent rel).inits.any fun up => up ≠ [] && failed.contains up

/-! ### One round -/

/-- What a round does with one plan. -/
inductive Turn where
  | sent (p : DatasetPlan) (a : Attempt)
  | blocked (p : DatasetPlan)
  deriving DecidableEq

namespace Turn

def plan : Turn → DatasetPlan
  | .sent p _ | .blocked p => p

def rel (e : Turn) : Rel := e.plan.rel

/-- The dataset failed or was blocked. -/
def hasFailed : Turn → Bool
  | .sent _ a => !a.ok
  | .blocked _ => true

/-- The transfer ran out of space. -/
def isEnospc : Turn → Bool
  | .sent _ a => !a.ok && a.enospc
  | .blocked _ => false

/-- A resumed transfer that arrived, or a partial receive discarded since it can never be
resumed. -/
def needsRound : Turn → Bool
  | .sent p a => p.state = .resume && (a.ok || !a.enospc && a.impossible && a.discarded)
  | .blocked _ => false

end Turn

/-- What a plan of the round comes to, `failed` holding what failed or was blocked before it. -/
def attemptOne (attempts : Rel → Attempt) (failed : List Rel) (p : DatasetPlan) : Turn :=
  if p.state = .new ∧ blockedByParent p.rel failed = true then
    .blocked p
  else .sent p (attempts p.rel)

/-- The transfers of a round, up to the first that runs out of space. -/
def sendEach (attempts : Rel → Attempt) : List Rel → List DatasetPlan → List Turn
  | _, [] => []
  | failed, p :: rest =>
      let event := attemptOne attempts failed p
      event :: if event.isEnospc then []
        else sendEach attempts (if event.hasFailed then p.rel :: failed else failed) rest

/-- What a round has to send. -/
def todo (plans : List DatasetPlan) : List DatasetPlan :=
  (depthOrder plans).filter fun p => p.state.transferable && p.state != .atPoint

def sendRound (attempts : Rel → Attempt) (plans : List DatasetPlan) : List Turn :=
  sendEach attempts [] (todo plans)

/-! ### The rounds of a run -/

/-- Both sides as a survey reads them. -/
structure Listing where
  origin : Origins
  dest : Drive

/-- What a run meets: the surveys in order, none for one that fails, the partial receives found
stale and discarded before any question, the user's decisions, and how the transfers of each round
end. -/
structure Meets where
  surveys : ℕ → Option Listing
  stale : Rel → Bool
  decide : List DatasetPlan → Bool
  attempts : ℕ → Rel → Attempt

/-- What a run is for: its point and what is left out of backups. -/
structure Aim where
  point : String
  exclusions : List Rel

def Aim.plan (aim : Aim) (l : Listing) : List DatasetPlan :=
  Zark.plan l.origin l.dest aim.point aim.exclusions

def maxRounds : ℕ := 3

/-- Where the rounds leave a run: what each round did, the plans of the latest survey, how many
surveys were asked for and whether the last one failed. -/
structure Rounds where
  rounds : List (List Turn) := []
  plans : List DatasetPlan
  asked : ℕ
  failed : Bool := false

/-- The rounds from the survey numbered `n` on. -/
def roundsFrom (aim : Aim) (m : Meets) : ℕ → ℕ → List DatasetPlan → Rounds
  | 0, n, plans => { plans, asked := n }
  | fuel + 1, n, plans =>
      match m.surveys n with
      | none => { plans, asked := n + 1, failed := true }
      | some l =>
          if todo (aim.plan l) = [] then { plans := aim.plan l, asked := n + 1 }
          else
            let events := sendRound (m.attempts n) (aim.plan l)
            if events.any Turn.isEnospc || !events.any Turn.needsRound then
              { rounds := [events], plans := aim.plan l, asked := n + 1 }
            else
              let rest := roundsFrom aim m fuel (n + 1) (aim.plan l)
              { rest with rounds := events :: rest.rounds }

/-- What a replication run achieved, with the number of surveys it asked for. -/
structure Result where
  plans : List DatasetPlan := []
  rounds : List (List Turn) := []
  aborted : Bool := false
  unverified : Bool := false
  /-- The point does not hold what it should: an ext4 /boot that changed. -/
  stale : Bool := false
  asked : ℕ

namespace Result

def enospc (r : Result) : Bool := r.rounds.flatten.any Turn.isEnospc

/-- Every expected dataset reached the point. -/
def ok (r : Result) : Bool :=
  !r.aborted && !r.unverified && !r.stale && !r.plans.isEmpty && reached r.plans

end Result

/-- The transfers from the survey numbered `n` on, and the survey after them. -/
def transferAll (aim : Aim) (m : Meets) (n : ℕ) : Result :=
  match m.surveys n with
  | none => { unverified := true, asked := n + 1 }
  | some first =>
      let r := roundsFrom aim m maxRounds (n + 1) (aim.plan first)
      if r.failed then
        { plans := r.plans, rounds := r.rounds, unverified := true, asked := r.asked }
      else
        match m.surveys r.asked with
        | none => { plans := r.plans, rounds := r.rounds, unverified := true, asked := r.asked + 1 }
        | some last => { plans := aim.plan last, rounds := r.rounds, asked := r.asked + 1 }

/-- A partial receive that can never be resumed is discarded before any question. -/
def discardsStale (m : Meets) (plans : List DatasetPlan) : Bool :=
  plans.any fun p => p.state = .resume && m.stale p.rel

/-- The run once its decision is asked for, on the survey numbered `n`. -/
def decideAndSend (aim : Aim) (m : Meets) (n : ℕ) : Result :=
  match m.surveys n with
  | none => { aborted := true, asked := n + 1 }
  | some l =>
      if m.decide (aim.plan l) then
        transferAll aim m (n + 1)
      else { aborted := true, asked := n + 1 }

/-- Survey, apply the user's decisions, transfer and survey again. -/
def replicate (aim : Aim) (m : Meets) : Result :=
  match m.surveys 0 with
  | none => { aborted := true, asked := 1 }
  | some l => decideAndSend aim m (if discardsStale m (aim.plan l) then 1 else 0)

end Zark
