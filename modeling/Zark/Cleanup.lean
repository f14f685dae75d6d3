import Zark.Library.Interrupts
import Mathlib.Data.List.Nodup
import Mathlib.Data.Nat.Notation

/-!
# How a command stops

`lib/signals.py` and `lib/cleanup.py`, with what `main` puts around a command. The steps are those
between which the interpreter may call a signal's handler; a signal may come at any of them, and the
reader of standard output may go away at any write. What the lines written say, and the children a
stop ends first, are left aside, and so is the time before the handlers are installed, when a signal
kills the process and there is nothing to clean up.
-/

namespace Zark.Cleanup

open Interrupts

/-! ### Signals -/

/-- `EXIT_SIGNALS`. -/
inductive ExitSignal where
  | sigint
  | sigterm
  | sighup
  deriving DecidableEq

def exitSignals : List ExitSignal := [.sigint, .sigterm, .sighup]

/-- What `_received` holds: a signal, or the pipe whose reader went away. -/
inductive Stop where
  | signal (sig : ExitSignal)
  | pipe
  deriving DecidableEq

inductive Exit where
  | keyboardInterrupt
  | systemExit (code : ℕ)
  | error
  deriving DecidableEq

/-- What a stop raises: `KeyboardInterrupt`, or `SystemExit` of 128 and the signal's number. -/
def Stop.exit : Stop → Exit
  | signal .sigint => .keyboardInterrupt
  | signal .sigterm => .systemExit (128 + 15)
  | signal .sighup => .systemExit (128 + 1)
  | pipe => .systemExit (128 + 13)

/-! ### What is tracked -/

/-- The kinds of what a `Cleanup` tracks, in the order `_run` goes through them. -/
inductive Kind where
  | action
  | mount
  | keystore
  | pool
  | dir
  deriving DecidableEq

def kinds : List Kind := [.action, .mount, .keystore, .pool, .dir]

inductive Event where
  | tracked (k : Kind) (name : String)
  | untracked (k : Kind) (name : String)
  | dropped (k : Kind) (name : String)
  | released (k : Kind) (name : String)
  | command (text : String)
  deriving DecidableEq

/-- What is registered with `atexit`: `Cleanup.run`, and `progress.end`. -/
inductive ExitCall where
  | cleanup
  | progress
  deriving DecidableEq

structure State where
  ignored : ExitSignal → Bool := fun _ => false
  received : List Stop := []
  teardown : Bool := false
  interactive : Bool := false
  tracked : Kind → List String := fun _ => []
  exportedPools : List String := []
  registered : Bool := false
  disabled : Bool := false
  exitCalls : List ExitCall := []
  log : List Event := []

/-- What the environment answers to a step; a step reads what concerns it. -/
structure Answer where
  readerGone : Bool := false
  raises : Bool := false
  isMount : Bool := true
  unmounted : Bool := true
  listed : Bool := true
  exported : Bool := true
  forced : Bool := true
  present : Bool := true
  deriving DecidableEq

/-! ### Steps -/

inductive Op where
  | track (k : Kind) (name : String)
  | untrack (k : Kind) (name : String)
  | disable
  | register
  | run
  | write
  | interactive (on : Bool)
  | atexit
  | onSignal (sig : ExitSignal)
  | setTeardown
  | ignore (sig : ExitSignal)
  | stop (s : Stop)
  | enter
  | reset
  | start (k : Kind)
  | release (k : Kind) (todo : List String)
  | resumeUnlessReceived
  | clearTeardown
  | handle (sig : ExitSignal)
  deriving DecidableEq

/-- What a guard stands for: `except KeyboardInterrupt`, `except Exception`, and the interpreter's
own around a program and each exit call. -/
inductive Clause where
  | keyboardInterrupt
  | exception
  | all
  deriving DecidableEq

abbrev Code := List (Instr Op Clause Exit)

def Clause.catches : Clause → Exit → Bool
  | keyboardInterrupt, e => e = .keyboardInterrupt
  | exception, e => e = .error
  | all, _ => true

def trackAction (name : String) : Op := .track .action name

def trackMount (path : String) : Op := .track .mount path

def trackKeystore (name : String) : Op := .track .keystore name

def trackPool (name : String) : Op := .track .pool name

def trackDir (path : String) : Op := .track .dir path

def untrackAction (name : String) : Op := .untrack .action name

def untrackPool (name : String) : Op := .untrack .pool name

/-- `signals.teardown`. -/
def teardown : Code := .op .setTeardown :: exitSignals.map fun sig => .op (.ignore sig)

/-- `signals.resume`. -/
def resume : Code := .op .clearTeardown :: exitSignals.map fun sig => .op (.handle sig)

/-- What the handler of a signal and a dead standard output both do: the signals are ignored, then
the stop is recorded. -/
def stopWith (s : Stop) : Code := (exitSignals.map fun sig => .op (.ignore sig)) ++ [.op (.stop s)]

/-- `Cleanup._run`, one kind after the other. -/
def runCode : Code := [.op .write, .op .reset] ++ kinds.map fun k => .op (.start k)

/-- `run_interactive`: while the child has the terminal a Ctrl-C is its own. -/
def runInteractive (wait : Code) : Code :=
  .op (.interactive true) :: wait ++ [.final [.op (.interactive false)]]

namespace State

variable (st : State)

/-- `Cleanup.pending`. -/
def pending : Bool := !st.disabled && kinds.any fun k => !(st.tracked k).isEmpty

def push (events : List Event) : State := { st with log := st.log ++ events }

def setTracked (k : Kind) (names : List String) : State :=
  { st with tracked := Function.update st.tracked k names }

/-- `track_*`. -/
def track (k : Kind) (name : String) : State :=
  if name ∈ st.tracked k then
    st
  else (st.setTracked k (st.tracked k ++ [name])).push [.tracked k name]

/-- `untrack_*`. -/
def untrack (k : Kind) (name : String) : State :=
  if name ∈ st.tracked k then
    (st.setTracked k ((st.tracked k).erase name)).push [.untracked k name]
  else st

def disable : State :=
  { st with disabled := true, tracked := fun _ => [] }.push (kinds.flatMap fun k =>
    (st.tracked k).map (.dropped k))

/-- The order in which one kind is gone through. -/
def order (k : Kind) : List String :=
  match k with
  | .action | .mount | .dir => (st.tracked k).reverse
  | .keystore | .pool => st.tracked k

end State

/-- The commands one release gives. -/
def releaseCommands (k : Kind) (name : String) (answer : Answer) : List String :=
  match k with
  | .action | .keystore => []
  | .mount =>
      if answer.isMount then ["umount " ++ name] ++
        if answer.unmounted then [] else ["umount -l " ++ name] else []
  | .pool =>
      ["zpool list " ++ name] ++
        if answer.listed then
          ["zfs unload-key -r " ++ name, "zpool export " ++ name] ++
            (if answer.exported then [] else ["zpool export -f " ++ name]) ++
            if answer.exported || answer.forced then ["sync"] else []
        else []
  | .dir => if answer.present then ["rm -rf " ++ name] else []

/-- Whether the pool of a release counts as exported. -/
def isExported (k : Kind) (answer : Answer) : Bool :=
  k = .pool && answer.listed && (answer.exported || answer.forced)

namespace State

def release (st : State) (k : Kind) (name : String) (answer : Answer) : State :=
  { st with exportedPools := st.exportedPools ++ if isExported k answer then [name] else [] }.push
    ((releaseCommands k name answer).map Event.command ++ [Event.released k name])

end State

/-- What one step does, and the code it comes to. -/
def perform (o : Op) (answer : Answer) (st : State) : State × Code :=
  match o with
  | .track k name => (st.track k name, [])
  | .untrack k name => (st.untrack k name, [])
  | .disable => (st.disable, [])
  | .register =>
      if st.registered then
        (st, [])
      else ({ st with exitCalls := .cleanup :: st.exitCalls, registered := true, disabled := false }, [])
  | .run => (st, if st.pending then teardown ++ [.op .enter] else [])
  | .write =>
      (st, if answer.readerGone && st.received.isEmpty && !st.teardown then stopWith .pipe else [])
  | .interactive on => ({ st with interactive := on }, [])
  | .atexit =>
      match st.exitCalls with
      | [] => (st, [])
      | call :: rest =>
          ({ st with exitCalls := rest },
            (match call with
              | .cleanup => [.op .run]
              | .progress => teardown ++ [.op .write]) ++ [.guard .all [], .op .atexit])
  | .onSignal sig => (st, if sig = .sigint && st.interactive then [] else stopWith (.signal sig))
  | .setTeardown => ({ st with teardown := true }, [])
  | .ignore sig => ({ st with ignored := Function.update st.ignored sig true }, [])
  | .stop s => ({ st with received := st.received ++ [s] }, [.op .write, .raise s.exit])
  | .enter => (st, runCode ++ [.final [.op .resumeUnlessReceived]])
  | .reset => ({ st with exportedPools := [] }, [])
  | .start k => (if k = .action then st.setTracked k [] else st, [.op (.release k (st.order k))])
  | .release k [] => (if k = .action then st else st.setTracked k [], [])
  -- an action that raises is reported and the rest still run
  | .release k (name :: todo) => (st.release k name answer, [.op .write, .op (.release k todo)])
  | .resumeUnlessReceived => (st, if st.received.isEmpty then resume else [])
  | .clearTeardown => ({ st with teardown := false }, [])
  | .handle sig => ({ st with ignored := Function.update st.ignored sig false }, [])

def process : Machine State Op Answer Clause Exit ExitSignal where
  perform := perform
  catches := Clause.catches
  enabled sig st := !st.ignored sig
  handler sig := [.op (.onSignal sig)]

/-- The steps a command's own code is made of. -/
def isCommandOp : Op → Bool
  | .track .. | .untrack .. | .disable | .register | .run | .write | .interactive _ => true
  | _ => false

/-- `main` around a command, from the handlers' installation on, and what the interpreter does once
it is over. -/
def main (command : Code) : Code :=
  command ++
    [.guard .keyboardInterrupt [.op .write, .raise (.systemExit 130)],
      .guard .exception [.op .write, .raise (.systemExit 1)], .guard .all [], .op .atexit]

/-- A command about to run. One that takes the lock writes what it does, whose end is registered
first. -/
def begin (locked : Bool) (command : Code) : Config State Op Clause Exit :=
  ⟨main command, { exitCalls := if locked then [.progress] else [] }⟩

end Zark.Cleanup
