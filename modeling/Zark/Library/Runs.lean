import Mathlib

/-!
# A list cut into runs

One pass over a list: an element joins the run that is open or starts the next one, as a test on
that run says. The runs put together are the list, and each starts where the run before it could
not go on.
-/

namespace List

variable {α : Type*} (joins : List α → α → Bool)

/-- The runs of a list after a run that is open. -/
def runsAfter : List α → List α → List (List α)
  | run, [] => [run]
  | run, a :: rest => if joins run a then runsAfter (run ++ [a]) rest else run :: runsAfter [a] rest

def runs : List α → List (List α)
  | [] => []
  | a :: rest => runsAfter joins [a] rest

variable {joins}

theorem flatten_runsAfter (run rest : List α) :
    (runsAfter joins run rest).flatten = run ++ rest := by
  induction rest generalizing run with
  | nil => simp [runsAfter]
  | cons a rest ih =>
      rw [runsAfter]
      split
      · rw [ih, append_assoc, singleton_append]
      · rw [flatten_cons, ih, singleton_append]

theorem flatten_runs (l : List α) : (l.runs joins).flatten = l := by
  cases l with
  | nil => rfl
  | cons a rest => exact flatten_runsAfter [a] rest

/-- What one element has and joining preserves, every run has. -/
theorem forall_runsAfter {P : List α → Prop} (hone : ∀ a, P [a])
    (hjoin : ∀ run a, P run → joins run a = true → P (run ++ [a])) {run rest : List α}
    (hrun : P run) : ∀ r ∈ runsAfter joins run rest, P r := by
  induction rest generalizing run with
  | nil => simpa [runsAfter] using hrun
  | cons a rest ih =>
      rw [runsAfter]
      split
      · rename_i hjoins
        exact ih (hjoin run a hrun hjoins)
      · intro r hr
        obtain rfl | hr := mem_cons.mp hr
        · exact hrun
        · exact ih (hone a) r hr

theorem forall_runs {P : List α → Prop} (hone : ∀ a, P [a])
    (hjoin : ∀ run a, P run → joins run a = true → P (run ++ [a])) (l : List α) :
    ∀ r ∈ l.runs joins, P r := by
  cases l with
  | nil => simp [runs]
  | cons a rest => exact forall_runsAfter hone hjoin (hone a)

theorem ne_nil_of_mem_runs {l r : List α} (h : r ∈ l.runs joins) : r ≠ [] :=
  forall_runs (P := (· ≠ [])) (by simp) (by simp) l r h

/-- The first run after an open one starts with it. -/
theorem head?_runsAfter (run rest : List α) :
    ∃ more, (runsAfter joins run rest).head? = some (run ++ more) := by
  induction rest generalizing run with
  | nil => exact ⟨[], by simp [runsAfter]⟩
  | cons a rest ih =>
      rw [runsAfter]
      split
      · obtain ⟨more, hmore⟩ := ih (run ++ [a])
        exact ⟨a :: more, by rw [hmore, append_assoc, singleton_append]⟩
      · exact ⟨[], by simp⟩

/-- Each run starts with an element that could not join the one before. -/
def Refused (joins : List α → α → Bool) (run next : List α) : Prop :=
  ∃ a ∈ next.head?, joins run a = false

theorem isChain_runsAfter (run rest : List α) :
    (runsAfter joins run rest).IsChain (Refused joins) := by
  induction rest generalizing run with
  | nil => exact IsChain.singleton run
  | cons a rest ih =>
      rw [runsAfter]
      split
      · exact ih _
      · rename_i hjoins
        refine isChain_cons.mpr ⟨fun next hnext => ?_, ih _⟩
        obtain ⟨more, hmore⟩ : ∃ more, (runsAfter joins [a] rest).head? = some ([a] ++ more) :=
          head?_runsAfter [a] rest
        rw [hmore] at hnext
        cases hnext
        exact ⟨a, rfl, Bool.not_eq_true _ ▸ hjoins⟩

theorem isChain_runs (l : List α) : (l.runs joins).IsChain (Refused joins) := by
  cases l with
  | nil => exact IsChain.nil
  | cons a rest => exact isChain_runsAfter [a] rest

/-! ### Grouping by a key -/

section Keys

variable {κ : Type*} [DecidableEq κ]

theorem nodup_eraseDups (l : List κ) : l.eraseDups.Nodup := by
  induction h : l.length using Nat.strong_induction_on generalizing l with
  | _ n ih =>
      cases l with
      | nil => exact nodup_nil
      | cons a l =>
          rw [eraseDups_cons, nodup_cons, mem_eraseDups]
          refine ⟨by simp, ih _ ?_ _ rfl⟩
          rw [← h, length_cons]
          exact Nat.lt_succ_of_le (length_filter_le _ _)

/-- A list taken apart by a key and put together again. -/
theorem perm_flatMap_filter {key : α → κ} {ks : List κ} (hnodup : ks.Nodup) {l : List α}
    (hall : ∀ a ∈ l, key a ∈ ks) :
    (ks.flatMap fun k => l.filter (key · = k)).Perm l := by
  induction ks generalizing l with
  | nil =>
      cases l with
      | nil => exact .nil
      | cons a l => exact absurd (hall a mem_cons_self) not_mem_nil
  | cons k ks ih =>
      obtain ⟨hk, hnodup⟩ := nodup_cons.mp hnodup
      rw [flatMap_cons]
      have hrest : (ks.flatMap fun k' => l.filter (key · = k')) =
          ks.flatMap fun k' => (l.filter fun a => !decide (key a = k)).filter (key · = k') := by
        refine flatMap_congr fun k' hk' => ?_
        rw [filter_filter]
        refine filter_congr fun a _ => ?_
        have hne : key a = k' → key a ≠ k := fun h h' => hk (h'.symm.trans h ▸ hk')
        by_cases h : key a = k'
        · simp [h, h ▸ hne h]
        · simp [h]
      rw [hrest]
      refine (Perm.append_left _ (ih hnodup fun a ha => ?_)).trans
        (filter_append_perm (key · = k) l)
      obtain ⟨ha, hne⟩ := mem_filter.mp ha
      exact (mem_cons.mp (hall a ha)).resolve_left (by simpa using hne)

end Keys

end List
