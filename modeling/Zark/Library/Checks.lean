import Mathlib

/-!
# Checks one after the other

When a sequence of steps that may fail succeeds: each step does, on what those before it gave.
-/

namespace Except

universe u v

variable {ε : Type u} {α β : Type v}

theorem bind_eq_ok {x : Except ε α} {f : α → Except ε β} {b : β} :
    x >>= f = .ok b ↔ ∃ a, x = .ok a ∧ f a = .ok b := by
  cases x with
  | error e => exact iff_of_false nofun fun ⟨_, h, _⟩ => nomatch h
  | ok a => exact ⟨fun h => ⟨a, rfl, h⟩, fun ⟨_, ha, h⟩ => Except.ok.inj ha ▸ h⟩

theorem toOption_eq_some {x : Except ε α} {a : α} : x.toOption = some a ↔ x = .ok a := by
  cases x <;> simp [Except.toOption]

/-- A check, and what comes after it. -/
theorem bind_unit_eq_ok {γ : Type} {x : Except ε Unit} {f : Unit → Except ε γ} {c : γ} :
    x >>= f = .ok c ↔ x = .ok () ∧ f () = .ok c := by
  rw [bind_eq_ok]
  exact ⟨fun ⟨_, hx, hy⟩ => ⟨hx, hy⟩, fun ⟨hx, hy⟩ => ⟨(), hx, hy⟩⟩

theorem forM_eq_ok {l : List α} {f : α → Except ε PUnit} :
    forM l f = .ok () ↔ ∀ a ∈ l, f a = .ok () := by
  induction l with
  | nil => exact iff_of_true rfl (by simp)
  | cons a l ih =>
      rw [List.forM_cons, bind_eq_ok, List.forall_mem_cons, ← ih]
      exact ⟨fun ⟨_, ha, hl⟩ => ⟨ha, hl⟩, fun ⟨ha, hl⟩ => ⟨_, ha, hl⟩⟩

theorem option_forM_eq_ok {o : Option α} {f : α → Except ε PUnit} :
    forM o f = .ok () ↔ ∀ a ∈ o, f a = .ok () := by
  cases o with
  | none => exact iff_of_true rfl (by simp)
  | some a => simp

/-- A step on every element of a list, none of which fails. -/
theorem mapM_eq_ok_map {l : List α} {f : α → Except ε β} {g : α → β}
    (h : ∀ a ∈ l, f a = .ok (g a)) : l.mapM f = .ok (l.map g) := by
  induction l with
  | nil => rfl
  | cons a l ih =>
      rw [List.mapM_cons, h a List.mem_cons_self, ih fun b hb => h b (List.mem_cons_of_mem _ hb)]
      rfl

end Except

namespace Option

universe u

variable {α β : Type u} {f : α → Option β}

/-- What a step on every element of a list gives, none of which fails. -/
theorem mem_of_mapM {l : List α} {out : List β} (h : l.mapM f = some out) {b : β} :
    b ∈ out ↔ ∃ a ∈ l, f a = some b := by
  induction l generalizing out with
  | nil =>
      obtain rfl : [] = out := Option.some.inj h
      simp
  | cons a l ih =>
      simp only [List.mapM_cons, Option.bind_eq_bind, Option.bind_eq_some_iff, Option.pure_def,
        Option.some.injEq] at h
      obtain ⟨c, hc, rest, hrest, rfl⟩ := h
      rw [List.mem_cons, ih hrest, List.exists_mem_cons_iff, hc, Option.some.injEq, eq_comm]

theorem mapM_eq_none_iff {l : List α} : l.mapM f = none ↔ ∃ a ∈ l, f a = none := by
  induction l with
  | nil => simp
  | cons a l ih =>
      rw [List.mapM_cons, List.exists_mem_cons_iff, ← ih]
      cases f a <;> cases l.mapM f <;> simp

section Run

variable {σ γ : Type*} {step : σ → γ → Option σ} {P : σ → Prop} {l : List γ} {s s' : σ}

/-- What every step keeps, a run that does not fail keeps. -/
theorem foldlM_invariant (hstep : ∀ c ∈ l, ∀ s s', step s c = some s' → P s → P s')
    (h : l.foldlM step s = some s') (hs : P s) : P s' := by
  induction l generalizing s with
  | nil =>
      obtain rfl : s = s' := Option.some.inj h
      exact hs
  | cons c l ih =>
      rw [List.foldlM_cons] at h
      obtain ⟨t, ht, hrest⟩ := Option.bind_eq_some_iff.mp h
      exact ih (fun d hd => hstep d (List.mem_cons_of_mem _ hd)) hrest
        (hstep c List.mem_cons_self s t ht hs)

end Run

end Option
