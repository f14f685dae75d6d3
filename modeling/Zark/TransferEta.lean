import Zark.Library.Json

/-!
# A backup's time left

`lib/transfer_eta.py` and `eta_seconds` of `lib/status_reader.py`: the model of a run's pace that
the monitor feeds every reading of `transfer`, with the clock it was read at.

Seconds are rationals. A division by zero and the largest of no values raise, as they do in Python,
and so does a list that grows past what an index counts or the machine's memory takes.
-/

namespace Zark.TimeLeft

open Json

inductive Raised
  | zeroDivision
  | emptyMax
  | overflow
  | memory
  deriving DecidableEq, Repr

def minEnded : ℕ := 2

def blend : ℚ := 1 / 3

def minMoved : Int := 64 * 2 ^ 20

def slowShare : ℚ := 1 / 10

/-! ### Arithmetic that may raise -/

def divide (a b : ℚ) : Except Raised ℚ := if b = 0 then .error .zeroDivision else .ok (a / b)

/-- `a // b`. -/
def floorDivide (a b : Int) : Except Raised Int :=
  if b = 0 then .error .zeroDivision else .ok (a.fdiv b)

/-- `max` of a sequence. -/
def largest : List ℚ → Except Raised ℚ
  | [] => .error .emptyMax
  | a :: rest => .ok (rest.foldl max a)

/-! ### Lists that may not fit -/

/-- `sys.maxsize`. -/
def maxSize : ℕ := 2 ^ 63 - 1

/-- A machine, by the most entries that a list of its own may have. -/
structure Machine where
  longest : ℕ
  indexed : longest ≤ maxSize

/-- `[x] * n`. -/
def repeated {α : Type} (machine : Machine) (x : α) (n : Int) : Except Raised (List α) :=
  if (maxSize : Int) < n then .error .overflow
  else if machine.longest < n.toNat then .error .memory
  else .ok (List.replicate n.toNat x)

/-- `l += more`. -/
def extended {α : Type} (machine : Machine) (l more : List α) : Except Raised (List α) :=
  if machine.longest < l.length + more.length then .error .memory else .ok (l ++ more)

/-! ### A reading -/

/-- A transfer object, as `json.loads` gives it. -/
abbrev Transfer := List (String × Json)

/-- `_int(transfer.get(key))`. -/
def int? (transfer : Transfer) (key : String) : Option Int :=
  match field? transfer key with
  | some (num n) => some n
  | _ => none

def isFalse : Option Json → Bool
  | some (.bool false) => true
  | _ => false

/-- `eta_seconds`: only with a total, a rate above 0 and an estimate that is not partial. -/
def etaSeconds (transfer : Transfer) : Except Raised (Option Int) :=
  match int? transfer "bytes_total", int? transfer "rate_bytes_per_s",
      int? transfer "bytes_done" with
  | some total, some rate, some done =>
      if rate ≤ 0 then .ok none
      else if !isFalse (field? transfer "bytes_total_partial") then .ok none
      else do
        let left ← divide (max 0 (total - done) : Int) rate
        return some ⌈left⌉
  | _, _, _ => .ok none

/-! ### The model -/

/-- What is held of the current run: `moved` bytes, and seconds and bytes of each reading that moved
some (`steps`) and of each transfer that ended. -/
structure TransferEta where
  moved : Int := 0
  steps : List (ℚ × Int) := []
  ended : List (ℚ × Int) := []
  readings : ℕ := 0
  lastT : Option ℚ := none
  lastBytes : Option Int := none
  lastDone : Option Int := none
  startT : Option ℚ := none
  startBytes : Int := 0
  shown : Option ℚ := none
  shownT : Option ℚ := none
  eta : Option ℚ := none
  deriving DecidableEq, Repr

namespace TransferEta

variable (model : TransferEta)

/-- The bytes that moved since the last reading, and the time it took. -/
def step (now : ℚ) (doneBytes : Option Int) : Option (ℚ × Int) :=
  match model.lastT, doneBytes, model.lastBytes with
  | some lastT, some done, some last =>
      if last < done then some (now - lastT, done - last) else none
  | _, _, _ => none

def countStep (machine : Machine) (now : ℚ) (doneBytes : Option Int) : Except Raised TransferEta :=
  match model.step now doneBytes with
  | some s => do
      let steps ← extended machine model.steps [s]
      return { model with moved := model.moved + s.2, steps }
  | none => .ok model

/-- Every transfer that ended since the last reading shares the time. -/
def countEnded (machine : Machine) (now : ℚ) (doneBytes : Option Int) (done : Int) :
    Except Raised TransferEta :=
  match model.lastDone, model.startT with
  | none, _ => .ok { model with startT := some now, startBytes := doneBytes.getD 0 }
  | some lastDone, some startT =>
      if lastDone < done then do
        let n := done - lastDone
        let span ← divide (now - startT) n
        let moved ← floorDivide (max 0 (doneBytes.getD 0 - model.startBytes)) n
        let ended ← extended machine model.ended (← repeated machine (span, moved) n)
        return { model with ended, startT := some now, startBytes := doneBytes.getD 0 }
      else .ok model
  | some _, none => .ok model

/-- The throughput while bytes are moving, of the seconds that moved a tenth of the best one or
more. -/
def rate : Except Raised (Option ℚ) :=
  if model.steps = [] then .ok none
  else do
    let best ← largest (← (model.steps.filter fun s => decide (0 < s.1)).mapM fun s =>
      divide s.2 s.1)
    let full := model.steps.filter fun s => decide (slowShare * best * s.1 ≤ s.2)
    let secs := (full.map Prod.fst).sum
    if 0 < secs then return some (← divide (full.map Prod.snd).sum secs) else return none

/-- What one transfer costs whatever it moves, on average. -/
def fixedCost (rate : ℚ) : Except Raised ℚ := do
  let costs ← model.ended.mapM fun s => do return max 0 (s.1 - (← divide s.2 rate))
  if costs = [] then return 0 else divide costs.sum costs.length

/-- The new estimate, with the time that passed since the one shown and a third of the way towards
it. -/
def smoothed (now raw : ℚ) : ℚ :=
  match model.shown, model.shownT with
  | some shown, some shownT =>
      let counted := max 0 (shown - (now - shownT))
      counted + blend * (raw - counted)
  | _, _ => raw

/-- The estimate before it is smoothed. -/
def estimate (now : ℚ) (transfer : Transfer) (rate : ℚ) : Except Raised ℚ := do
  let left : Int := max 0 ((int? transfer "datasets_total").getD 0 - model.lastDone.getD 0)
  let cost ← model.fixedCost rate
  let running := match model.startT with
    | some startT => if left ≠ 0 then min cost (now - startT) else 0
    | none => 0
  let bytes ← divide
    (max 0 ((int? transfer "bytes_total").getD 0 - (int? transfer "bytes_done").getD 0) : Int) rate
  return max 0 (bytes + left * cost - running)

/-- Whether a figure is shown: where the contract allows one, once enough transfers have ended and
enough bytes have moved. -/
def isDue (transfer : Transfer) (contract : Option Int) : Bool :=
  contract.isSome && decide (minEnded ≤ model.ended.length) && decide
    (min minMoved (((int? transfer "bytes_total").getD 0).fdiv 2) ≤ model.moved)

def update (now : ℚ) (transfer : Transfer) : Except Raised TransferEta := do
  let rate ← model.rate
  let contract ← etaSeconds transfer
  match rate with
  | none => return { model with eta := none }
  | some rate =>
      if model.isDue transfer contract then
        let shown := model.smoothed now (← model.estimate now transfer rate)
        return { model with shown := some shown, shownT := some now, eta := some shown }
      else return { model with eta := none }

/-- One reading; a null one ends the model's run. -/
def feed (machine : Machine) (now : ℚ) : Option Transfer → Except Raised TransferEta
  | none => .ok {}
  | some transfer => do
      let doneBytes := int? transfer "bytes_done"
      let done := (int? transfer "datasets_done").getD 0
      let stepped ← { model with readings := model.readings + 1 }.countStep machine now doneBytes
      let counted ← stepped.countEnded machine now doneBytes done
      { counted with lastT := some now, lastBytes := doneBytes, lastDone := some done }.update now
        transfer

/-- The time left; none until the model can say. -/
def seconds : Option ℚ := model.eta

end TransferEta

/-- The model after some readings, each with its clock. -/
def run (machine : Machine) (readings : List (ℚ × Option Transfer)) : Except Raised TransferEta :=
  readings.foldlM (fun model reading => model.feed machine reading.1 reading.2) {}

end Zark.TimeLeft
