import Mathlib.Data.List.Basic

/-!
# A thread that can be interrupted

The code of one thread is a list of instructions, with exceptions, guards and `finally` blocks.
Between any two instructions an interrupt may come: where the state has it enabled, the code of its
handler runs first, and what that raises unwinds the code like any other exception; where it does
not, the interrupt is lost.
-/

namespace Interrupts

universe u

/-- An instruction. A guard and a `finally` stand where their blocks end: a guard that is reached is
passed, and a `finally` runs its code. -/
inductive Instr (ω κ ε : Type u) where
  | op (o : ω)
  | raise (e : ε)
  | guard (k : κ) (handler : List (Instr ω κ ε))
  | final (fin : List (Instr ω κ ε))

/-- How operations change the state, with what each comes to in code: `χ` is what the environment
answers. -/
structure Machine (σ ω χ κ ε ι : Type u) where
  perform : ω → χ → σ → σ × List (Instr ω κ ε)
  catches : κ → ε → Bool
  enabled : ι → σ → Bool
  handler : ι → List (Instr ω κ ε)

structure Config (σ ω κ ε : Type u) where
  code : List (Instr ω κ ε)
  state : σ

inductive Event (χ ι : Type u) where
  | run (answer : χ)
  | interrupt (i : ι)

variable {σ ω χ κ ε ι : Type u}

namespace Machine

variable (M : Machine σ ω χ κ ε ι)

/-- The code an exception leaves: the first guard that catches it runs its own code, and the first
`finally` before one runs its code and raises it again. -/
def unwind (e : ε) : List (Instr ω κ ε) → List (Instr ω κ ε)
  | [] => []
  | .guard k handler :: rest => if M.catches k e then handler ++ rest else unwind e rest
  | .final fin :: rest => fin ++ .raise e :: rest
  | _ :: rest => unwind e rest

/-- One step of a thread that is not over. -/
def step : Event χ ι → Config σ ω κ ε → Option (Config σ ω κ ε)
  | _, ⟨[], _⟩ => none
  | .interrupt i, ⟨next :: rest, s⟩ =>
      some (if M.enabled i s then ⟨M.handler i ++ next :: rest, s⟩ else ⟨next :: rest, s⟩)
  | .run answer, ⟨.op o :: rest, s⟩ =>
      some ⟨(M.perform o answer s).2 ++ rest, (M.perform o answer s).1⟩
  | .run _, ⟨.raise e :: rest, s⟩ => some ⟨M.unwind e rest, s⟩
  | .run _, ⟨.guard _ _ :: rest, s⟩ => some ⟨rest, s⟩
  | .run _, ⟨.final fin :: rest, s⟩ => some ⟨fin ++ rest, s⟩

def runs : List (Event χ ι) → Config σ ω κ ε → Option (Config σ ω κ ε)
  | [], c => some c
  | event :: rest, c => (M.step event c).bind (runs rest)

variable {M}

/-- What one step keeps, a run keeps. -/
theorem runs_induction {P : Config σ ω κ ε → Prop}
    (hstep : ∀ event c c', M.step event c = some c' → P c → P c') {events : List (Event χ ι)}
    {c c' : Config σ ω κ ε} (h : M.runs events c = some c') (hc : P c) : P c' := by
  induction events generalizing c with
  | nil =>
      cases h
      exact hc
  | cons event rest ih =>
      obtain ⟨d, hd, hrest⟩ := Option.bind_eq_some_iff.mp h
      exact ih hrest (hstep event c d hd hc)

end Machine

/-! ### The operations a code comes to -/

/-- Every operation of an instruction, in its blocks too, is one of `p`. -/
inductive Clean (p : ω → Prop) : Instr ω κ ε → Prop where
  | op {o : ω} (h : p o) : Clean p (.op o)
  | raise {e : ε} : Clean p (.raise e)
  | guard {k : κ} {handler : List (Instr ω κ ε)} (h : ∀ i ∈ handler, Clean p i) :
      Clean p (.guard k handler)
  | final {fin : List (Instr ω κ ε)} (h : ∀ i ∈ fin, Clean p i) : Clean p (.final fin)

/-- An operation of `p` or a raise: nothing that stops an exception. -/
def Bare (p : ω → Prop) : Instr ω κ ε → Prop
  | .op o => p o
  | .raise _ => True
  | .guard _ _ | .final _ => False

variable {M : Machine σ ω χ κ ε ι} {p : ω → Prop} {e : ε} {code rest : List (Instr ω κ ε)}

theorem Clean.mono {q : ω → Prop} (hpq : ∀ o, p o → q o) {i : Instr ω κ ε} (h : Clean p i) :
    Clean q i := by
  induction h with
  | op h => exact .op (hpq _ h)
  | raise => exact .raise
  | guard _ ih => exact .guard ih
  | final _ ih => exact .final ih

theorem clean_append (hcode : ∀ i ∈ code, Clean p i) (hrest : ∀ i ∈ rest, Clean p i) :
    ∀ i ∈ code ++ rest, Clean p i := by
  intro i hi
  obtain hi | hi := List.mem_append.mp hi
  · exact hcode i hi
  · exact hrest i hi

/-- An exception leaves no operation that was not there. -/
theorem clean_unwind (h : ∀ i ∈ code, Clean p i) : ∀ i ∈ M.unwind e code, Clean p i := by
  induction code with
  | nil => simp [Machine.unwind]
  | cons i code ih =>
      have hcode : ∀ j ∈ code, Clean p j := fun j hj => h j (List.mem_cons_of_mem _ hj)
      cases i with
      | op o => exact ih hcode
      | raise e' => exact ih hcode
      | guard k handler =>
          rw [Machine.unwind]
          split
          · cases h _ List.mem_cons_self with
            | guard hhandler => exact clean_append hhandler hcode
          · exact ih hcode
      | final fin =>
          cases h _ List.mem_cons_self with
          | final hfin =>
              refine clean_append hfin fun j hj => ?_
              obtain rfl | hj := List.mem_cons.mp hj
              · exact .raise
              · exact hcode j hj

/-- An exception passes what has neither guards nor `finally` blocks. -/
theorem unwind_bare (h : ∀ i ∈ code, Bare p i) : M.unwind e (code ++ rest) = M.unwind e rest := by
  induction code with
  | nil => rfl
  | cons i code ih =>
      have hcode := ih fun j hj => h j (List.mem_cons_of_mem _ hj)
      have hi := h i List.mem_cons_self
      cases i with
      | op o => exact hcode
      | raise e' => exact hcode
      | guard k handler => exact hi.elim
      | final fin => exact hi.elim

end Interrupts
