import Zark.Library.Checks
import Zark.TransferEta

/-!
# When the time left can be told

The model of a run keeps steps that moved bytes and took no negative time, one of which took some,
and shows nothing negative. A reading keeps that, and raises nothing, unless it is the first of its
run to find bytes moved and finds them at the clock of the reading before, when the best throughput
is the largest of no values, or makes a list longer than the machine takes.
-/

namespace Zark.TimeLeft

open Json

theorem divide_eq (a : ℚ) {b : ℚ} (h : b ≠ 0) : divide a b = .ok (a / b) := if_neg h

theorem floorDivide_eq (a : Int) {b : Int} (h : b ≠ 0) : floorDivide a b = .ok (a.fdiv b) :=
  if_neg h

theorem largest_cons_mem : ∀ (rest : List ℚ) (a : ℚ), rest.foldl max a ∈ a :: rest
  | [], _ => List.mem_cons_self
  | b :: rest, a => by
      rcases List.mem_cons.mp (largest_cons_mem rest (max a b)) with h | h
      · rw [List.foldl_cons, h]
        rcases max_choice a b with hmax | hmax <;> simp [hmax]
      · exact List.mem_cons_of_mem _ (List.mem_cons_of_mem _ h)

theorem largest_eq_ok {l : List ℚ} (h : l ≠ []) : ∃ best ∈ l, largest l = .ok best := by
  cases l with
  | nil => exact absurd rfl h
  | cons a rest => exact ⟨_, largest_cons_mem rest a, rfl⟩

theorem etaSeconds_eq_ok (transfer : Transfer) :
    ∃ contract, etaSeconds transfer = .ok contract := by
  unfold etaSeconds
  split
  · rename_i total rate done _ _ _
    split
    · exact ⟨_, rfl⟩
    · split
      · exact ⟨_, rfl⟩
      · have hrate : (rate : ℚ) ≠ 0 := Int.cast_ne_zero.mpr (by omega)
        exact ⟨_, by rw [divide_eq _ hrate]; rfl⟩
  · exact ⟨_, rfl⟩

/-! ### The rate -/

/-- Steps that moved bytes and took no negative time. -/
def Forward (steps : List (ℚ × Int)) : Prop := ∀ s ∈ steps, 0 ≤ s.1 ∧ 0 < s.2

/-- One of the steps took time. -/
def Timed (steps : List (ℚ × Int)) : Prop := ∃ s ∈ steps, 0 < s.1

theorem mapM_divide (steps : List (ℚ × Int)) :
    ((steps.filter fun s => decide (0 < s.1)).mapM fun s => divide s.2 s.1) =
    .ok ((steps.filter fun s => decide (0 < s.1)).map fun s => s.2 / s.1) := by
  refine Except.mapM_eq_ok_map fun s hs => divide_eq _ ?_
  exact ne_of_gt (by simpa using (List.mem_filter.mp hs).2)

theorem sum_pos_of_forward {steps : List (ℚ × Int)} (h : Forward steps) (htimed : Timed steps) :
    0 < (steps.map Prod.fst).sum ∧ 0 < (steps.map Prod.snd).sum := by
  obtain ⟨s, hs, hpos⟩ := htimed
  constructor
  · refine lt_of_lt_of_le hpos (List.single_le_sum ?_ _ (List.mem_map_of_mem hs))
    intro x hx
    obtain ⟨t, ht, rfl⟩ := List.mem_map.mp hx
    exact (h t ht).1
  · refine lt_of_lt_of_le (h s hs).2 (List.single_le_sum ?_ _ (List.mem_map_of_mem hs))
    intro x hx
    obtain ⟨t, ht, rfl⟩ := List.mem_map.mp hx
    exact (h t ht).2.le

/-- The best of the timed steps is among those of a tenth of it or more. -/
theorem timed_full {steps : List (ℚ × Int)} (h : Forward steps) {s : ℚ × Int} (hs : s ∈ steps)
    (hpos : 0 < s.1) :
    Timed (steps.filter fun t => decide (slowShare * (s.2 / s.1) * t.1 ≤ t.2)) := by
  refine ⟨s, List.mem_filter.mpr ⟨hs, ?_⟩, hpos⟩
  have hbytes : (0 : ℚ) < s.2 := by exact_mod_cast (h s hs).2
  have hshare : slowShare * (s.2 / s.1) * s.1 = s.2 / 10 := by
    rw [slowShare]
    field_simp
  rw [decide_eq_true_iff, hshare]
  linarith

namespace TransferEta

variable {model : TransferEta}

theorem rate_of_none (h : model.steps = []) : model.rate = .ok none := if_pos h

/-- A rate above 0, of steps one of which took time. -/
theorem rate_of_timed (h : Forward model.steps) (htimed : Timed model.steps) :
    ∃ r : ℚ, 0 < r ∧ model.rate = .ok (some r) := by
  obtain ⟨t, ht, hpos⟩ := htimed
  have hne : model.steps ≠ [] := List.ne_nil_of_mem ht
  obtain ⟨best, hbest, hlargest⟩ :=
    largest_eq_ok (l := (model.steps.filter fun s => decide (0 < s.1)).map fun s => s.2 / s.1)
      (List.ne_nil_of_mem (List.mem_map_of_mem (List.mem_filter.mpr ⟨ht, by simpa using hpos⟩)))
  obtain ⟨s, hs, rfl⟩ := List.mem_map.mp hbest
  obtain ⟨hs, hspos⟩ := List.mem_filter.mp hs
  have hfull :=
    sum_pos_of_forward (fun u hu => h u (List.mem_filter.mp hu).1)
      (timed_full h hs (by simpa using hspos))
  have hbytes : (0 : ℚ) < ((model.steps.filter fun u =>
      decide (slowShare * (s.2 / s.1) * u.1 ≤ u.2)).map Prod.snd).sum := by
    exact_mod_cast hfull.2
  refine ⟨_, div_pos hbytes hfull.1, ?_⟩
  rw [rate, if_neg hne, mapM_divide]
  show (largest _ >>= _) = _
  rw [hlargest]
  show (if _ then _ else _) = _
  rw [if_pos hfull.1, divide_eq _ hfull.1.ne']
  rfl

theorem rate_of_untimed (hne : model.steps ≠ []) (htimed : ¬ Timed model.steps) :
    model.rate = .error .emptyMax := by
  have hnone : (model.steps.filter fun s => decide (0 < s.1)) = [] := by
    rw [List.filter_eq_nil_iff]
    intro s hs hpos
    exact htimed ⟨s, hs, by simpa using hpos⟩
  rw [rate, if_neg hne, mapM_divide, hnone]
  rfl

/-! ### One reading -/

/-- What a run's model holds: steps that moved bytes, one of which took time where there are some,
and nothing negative shown. -/
structure Sound (model : TransferEta) : Prop where
  forward : Forward model.steps
  timed : model.steps = [] ∨ Timed model.steps
  shown : ∀ e ∈ model.shown, 0 ≤ e
  eta : ∀ e ∈ model.eta, 0 ≤ e

theorem sound_initial : Sound {} := ⟨nofun, .inl rfl, nofun, nofun⟩

theorem fixedCost_eq_ok (model : TransferEta) {r : ℚ} (h : r ≠ 0) :
    ∃ cost, model.fixedCost r = .ok cost := by
  have hcosts : (model.ended.mapM fun s => do return max 0 (s.1 - (← divide s.2 r))) =
      (.ok (model.ended.map fun s => max 0 (s.1 - s.2 / r)) : Except Raised (List ℚ)) := by
    refine Except.mapM_eq_ok_map fun s _ => ?_
    rw [divide_eq _ h]
    rfl
  rw [fixedCost, hcosts]
  by_cases hne : (model.ended.map fun s => max 0 (s.1 - s.2 / r)) = []
  · exact ⟨0, if_pos hne⟩
  · have hlength : ((model.ended.map fun s => max 0 (s.1 - s.2 / r)).length : ℚ) ≠ 0 := by
      rw [Nat.cast_ne_zero, ne_eq, List.length_eq_zero_iff]
      exact hne
    exact ⟨_, (if_neg hne).trans (divide_eq _ hlength)⟩

theorem estimate_eq_ok (model : TransferEta) (now : ℚ) (transfer : Transfer) {r : ℚ} (h : r ≠ 0) :
    ∃ raw, 0 ≤ raw ∧ model.estimate now transfer r = .ok raw := by
  obtain ⟨cost, hcost⟩ := model.fixedCost_eq_ok h
  have hraw : ∃ raw, model.estimate now transfer r = .ok (max 0 raw) := by
    rw [estimate, hcost]
    simp only [divide_eq _ h]
    exact ⟨_, rfl⟩
  obtain ⟨raw, hraw⟩ := hraw
  exact ⟨max 0 raw, le_max_left _ _, hraw⟩

theorem smoothed_nonneg (model : TransferEta) (now : ℚ) {raw : ℚ} (h : 0 ≤ raw) :
    0 ≤ model.smoothed now raw := by
  unfold smoothed
  split
  · rename_i shown shownT _ _
    have hcounted : 0 ≤ max 0 (shown - (now - shownT)) := le_max_left _ _
    show 0 ≤ max 0 (shown - (now - shownT)) + blend * (raw - max 0 (shown - (now - shownT)))
    rw [blend]
    linarith
  · exact h

theorem update_eq_ok (now : ℚ) (transfer : Transfer) (h : Sound model) :
    ∃ next, model.update now transfer = .ok next ∧ Sound next ∧
    next.lastT = model.lastT := by
  obtain ⟨contract, hcontract⟩ := etaSeconds_eq_ok transfer
  rcases h.timed with hnone | htimed
  · refine ⟨{ model with eta := none }, ?_, ⟨h.forward, h.timed, h.shown, nofun⟩, rfl⟩
    rw [update, rate_of_none hnone, hcontract]
    rfl
  · obtain ⟨r, hpos, hrate⟩ := rate_of_timed h.forward htimed
    obtain ⟨raw, hraw, hestimate⟩ := model.estimate_eq_ok now transfer hpos.ne'
    have hshown := model.smoothed_nonneg now hraw
    by_cases hdue : model.isDue transfer contract = true
    · refine ⟨{ model with shown := some (model.smoothed now raw), shownT := some now, eta := some (model.smoothed now raw) }, ?_,
        ⟨h.forward, h.timed, ?_, ?_⟩, rfl⟩
      · rw [update, hrate, hcontract]
        show (if _ then _ else _) = _
        rw [if_pos hdue, hestimate]
        rfl
      · rintro e ⟨⟩
        exact hshown
      · rintro e ⟨⟩
        exact hshown
    · refine ⟨{ model with eta := none }, ?_, ⟨h.forward, h.timed, h.shown, nofun⟩, rfl⟩
      rw [update, hrate, hcontract]
      show (if _ then _ else _) = _
      rw [if_neg hdue]
      rfl

theorem step_eq_some {now : ℚ} {doneBytes : Option Int} {s : ℚ × Int} :
    model.step now doneBytes = some s ↔
    ∃ lastT done last, model.lastT = some lastT ∧ doneBytes = some done ∧
    model.lastBytes = some last ∧ last < done ∧ s = (now - lastT, done - last) := by
  unfold step
  split
  · rename_i lastT done last hlastT hlast
    rw [hlastT, hlast]
    simp [eq_comm]
  · rename_i hnone
    simp only [reduceCtorEq, false_iff, not_exists]
    rintro lastT done last ⟨hlastT, hdone, hlast, -⟩
    exact hnone lastT done last hlastT hdone hlast

/-- The reading finds bytes moved since the one before. -/
def Grows (model : TransferEta) (transfer : Transfer) : Prop :=
  model.lastT.isSome = true ∧ ∃ last done, model.lastBytes = some last ∧
    int? transfer "bytes_done" = some done ∧ last < done

/-- The first bytes of a run's steps are found at the clock of the reading before. -/
def Stalls (model : TransferEta) (now : ℚ) (transfer : Transfer) : Prop :=
  model.steps = [] ∧ model.lastT = some now ∧ model.Grows transfer

/-- Transfers ended since the reading before: so many that the machine's lists do not take them. -/
def Jumps (machine : Machine) (model : TransferEta) (done : Int) : Prop :=
  model.startT.isSome = true ∧ ∃ last, model.lastDone = some last ∧ last < done ∧
    machine.longest < model.ended.length + (done - last).toNat

/-- A list of the run grows past what the machine takes. -/
def Outgrows (machine : Machine) (model : TransferEta) (transfer : Transfer) : Prop :=
  model.Grows transfer ∧ machine.longest ≤ model.steps.length ∨
    model.Jumps machine ((int? transfer "datasets_done").getD 0)

theorem step_isSome {now : ℚ} {transfer : Transfer} :
    (model.step now (int? transfer "bytes_done")).isSome = true ↔ model.Grows transfer := by
  rw [Option.isSome_iff_exists, Grows, Option.isSome_iff_exists]
  constructor
  · rintro ⟨s, hs⟩
    obtain ⟨lastT, done, last, hlastT, hdone, hlast, hlt, -⟩ := step_eq_some.mp hs
    exact ⟨⟨lastT, hlastT⟩, last, done, hlast, hdone, hlt⟩
  · rintro ⟨⟨lastT, hlastT⟩, last, done, hlast, hdone, hlt⟩
    exact ⟨_, step_eq_some.mpr ⟨lastT, done, last, hlastT, hdone, hlast, hlt, rfl⟩⟩

/-- Two models that differ only in the bytes that moved, the steps and the number of readings. -/
structure SameRun (model next : TransferEta) : Prop where
  ended : next.ended = model.ended
  lastDone : next.lastDone = model.lastDone
  startT : next.startT = model.startT
  shown : next.shown = model.shown
  eta : next.eta = model.eta

/-- A step is one more entry, if there is room for it. -/
theorem countStep_cases (machine : Machine) (model : TransferEta) (now : ℚ)
    (doneBytes : Option Int) :
    ((model.step now doneBytes).isSome = true ∧ machine.longest ≤ model.steps.length) ∧
    model.countStep machine now doneBytes = .error .memory ∨
    ¬((model.step now doneBytes).isSome = true ∧ machine.longest ≤ model.steps.length) ∧
    ∃ next, model.countStep machine now doneBytes = .ok next ∧
      SameRun model next ∧ next.steps = model.steps ++ (model.step now doneBytes).toList := by
  unfold countStep
  cases hstep : model.step now doneBytes with
  | none => exact .inr ⟨by simp, model, rfl, ⟨rfl, rfl, rfl, rfl, rfl⟩, by simp⟩
  | some s =>
      by_cases hroom : machine.longest ≤ model.steps.length
      · refine .inl ⟨⟨rfl, hroom⟩, ?_⟩
        have hfull : extended machine model.steps [s] = .error .memory :=
          if_pos (Nat.lt_succ_of_le hroom)
        simp only [hfull]
        rfl
      · refine .inr ⟨fun h => hroom h.2,
          { model with moved := model.moved + s.2, steps := model.steps ++ [s] }, ?_,
          ⟨rfl, rfl, rfl, rfl, rfl⟩, rfl⟩
        have hfits : extended machine model.steps [s] = .ok (model.steps ++ [s]) :=
          if_neg fun h => hroom (Nat.le_of_lt_succ h)
        simp only [hfits]
        rfl

theorem extended_repeated {α : Type} (machine : Machine) (l : List α) (x : α) {n : Int}
    (hn : 0 < n) :
    machine.longest < l.length + n.toNat ∧
    (∃ e, (repeated machine x n >>= extended machine l) = .error e) ∨
    ¬machine.longest < l.length + n.toNat ∧
    (repeated machine x n >>= extended machine l) = .ok (l ++ List.replicate n.toNat x) := by
  have hindexed := machine.indexed
  by_cases hroom : machine.longest < l.length + n.toNat
  · refine .inl ⟨hroom, ?_⟩
    rw [repeated]
    split_ifs
    · exact ⟨_, rfl⟩
    · exact ⟨_, rfl⟩
    · exact ⟨_, if_pos (by rwa [List.length_replicate])⟩
  · refine .inr ⟨hroom, ?_⟩
    rw [repeated, if_neg (by omega), if_neg (by omega)]
    exact if_neg (by rwa [List.length_replicate])

/-- Transfers that ended change what is held of transfers, and nothing else, if there is room for
them. -/
theorem countEnded_cases (machine : Machine) (model : TransferEta) (now : ℚ)
    (doneBytes : Option Int) (done : Int) :
    model.Jumps machine done ∧ (∃ e, model.countEnded machine now doneBytes done = .error e) ∨
    ¬model.Jumps machine done ∧ ∃ next, model.countEnded machine now doneBytes done = .ok next ∧
    next.steps = model.steps ∧
      next.shown = model.shown ∧ next.eta = model.eta := by
  unfold countEnded
  split
  · rename_i hlast
    exact .inr ⟨fun ⟨_, last, h, _⟩ => by simp [hlast] at h, _, rfl, rfl, rfl, rfl⟩
  · rename_i lastDone startT hlast hstart
    have hjumps : model.Jumps machine done ↔
        lastDone < done ∧ machine.longest < model.ended.length + (done - lastDone).toNat := by
      simp [Jumps, hlast, hstart]
    rw [hjumps]
    split
    · rename_i hdone
      have hn : 0 < done - lastDone := by omega
      simp only [divide_eq _ (Int.cast_ne_zero.mpr hn.ne'), floorDivide_eq _ hn.ne']
      obtain ⟨hroom, e, he⟩ | ⟨hroom, hok⟩ := extended_repeated machine model.ended
        ((now - startT) / (done - lastDone : Int),
          (max 0 (doneBytes.getD 0 - model.startBytes)).fdiv (done - lastDone)) hn
      · refine .inl ⟨⟨hdone, hroom⟩, e,
          (bind_assoc (repeated machine _ _) (extended machine model.ended) _).symm.trans ?_⟩
        rw [he]
        rfl
      · refine .inr ⟨fun h => hroom h.2, { model with
          ended := model.ended ++ List.replicate (done - lastDone).toNat
            ((now - startT) / (done - lastDone : Int),
              (max 0 (doneBytes.getD 0 - model.startBytes)).fdiv (done - lastDone))
          startT := some now, startBytes := doneBytes.getD 0 },
          (bind_assoc (repeated machine _ _) (extended machine model.ended) _).symm.trans ?_,
          rfl, rfl, rfl⟩
        rw [hok]
        rfl
    · rename_i hdone
      exact .inr ⟨fun h => hdone h.1, _, rfl, rfl, rfl, rfl⟩
  · rename_i hstart
    exact .inr ⟨fun ⟨h, _⟩ => by simp [hstart] at h, _, rfl, rfl, rfl, rfl⟩

theorem counted_cases (machine : Machine) (model : TransferEta) (now : ℚ) (transfer : Transfer) :
    model.Outgrows machine transfer ∧ (∃ e, model.feed machine now (some transfer) = .error e) ∨
    ¬model.Outgrows machine transfer ∧ ∃ counted : TransferEta,
    model.feed machine now (some transfer) = counted.update now transfer ∧
      counted.lastT = some now ∧ counted.shown = model.shown ∧ counted.eta = model.eta ∧
      counted.steps = model.steps ++ (model.step now (int? transfer "bytes_done")).toList := by
  have hsteps :=
    countStep_cases machine { model with readings := model.readings + 1 } now
      (int? transfer "bytes_done")
  change ((model.step now (int? transfer "bytes_done")).isSome = true ∧
    machine.longest ≤ model.steps.length) ∧ _ ∨
    ¬((model.step now (int? transfer "bytes_done")).isSome = true ∧
      machine.longest ≤ model.steps.length) ∧ _ at hsteps
  rw [step_isSome] at hsteps
  rw [feed, Outgrows]
  obtain ⟨hfull, hraised⟩ | ⟨hfits, stepped, hstepped, hsame, hsteps⟩ := hsteps
  · refine .inl ⟨.inl hfull, .memory, ?_⟩
    rw [hraised]
    rfl
  · rw [hstepped, or_iff_right hfits]
    have hjumps : stepped.Jumps machine ((int? transfer "datasets_done").getD 0) ↔
        model.Jumps machine ((int? transfer "datasets_done").getD 0) := by
      rw [Jumps, Jumps, hsame.startT, hsame.lastDone, hsame.ended]
    obtain ⟨hjump, e, he⟩ | ⟨hjump, next, hnext, hkept, hshown, heta⟩ :=
      countEnded_cases machine stepped now (int? transfer "bytes_done")
        ((int? transfer "datasets_done").getD 0)
    · refine .inl ⟨hjumps.mp hjump, e, ?_⟩
      show (stepped.countEnded machine now _ _ >>= _) = _
      rw [he]
      rfl
    · refine .inr ⟨mt hjumps.mpr hjump,
        { next with
          lastT := some now, lastBytes := int? transfer "bytes_done",
          lastDone := some ((int? transfer "datasets_done").getD 0) },
        ?_, rfl, hshown.trans hsame.shown, heta.trans hsame.eta, hkept.trans hsteps⟩
      show (stepped.countEnded machine now _ _ >>= _) = _
      rw [hnext]
      rfl

/-- A reading leaves a sound model, unless the run stalls at it or outgrows the machine: there it
raises. -/
theorem feed_sound (machine : Machine) (h : Sound model) {now : ℚ}
    (hclock : ∀ t ∈ model.lastT, t ≤ now) (transfer : Transfer) :
    (¬(model.Stalls now transfer ∨ model.Outgrows machine transfer) →
      ∃ next, model.feed machine now (some transfer) = .ok next ∧ Sound next ∧
      next.lastT = some now) ∧
    (model.Stalls now transfer ∨ model.Outgrows machine transfer →
      ∃ e, model.feed machine now (some transfer) = .error e) := by
  obtain ⟨houtgrows, hraised⟩ | ⟨hfits, counted, hfeed, hlastT, hshown, heta, hsteps⟩ :=
    counted_cases machine model now transfer
  · exact ⟨fun hnot => absurd (.inr houtgrows) hnot, fun _ => hraised⟩
  rw [hfeed, or_iff_left hfits]
  have hforward : Forward counted.steps := by
    intro s hs
    rw [hsteps, List.mem_append, Option.mem_toList] at hs
    rcases hs with hs | hs
    · exact h.forward s hs
    · obtain ⟨lastT, done, last, hlast, -, -, hlt, rfl⟩ := step_eq_some.mp hs
      exact ⟨sub_nonneg.mpr (hclock lastT hlast), sub_pos.mpr hlt⟩
  constructor
  · intro hruns
    have htimed : counted.steps = [] ∨ Timed counted.steps := by
      rcases h.timed with hnone | ⟨s, hs, hpos⟩
      · rw [hsteps, hnone, List.nil_append]
        cases hstep : model.step now (int? transfer "bytes_done") with
        | none => exact .inl rfl
        | some s =>
            refine .inr ⟨s, List.mem_singleton_self s, ?_⟩
            obtain ⟨lastT, done, last, hlast, hdone, hbytes, hlt, rfl⟩ := step_eq_some.mp hstep
            have hne : lastT ≠ now :=
              fun heq =>
                hruns ⟨hnone, heq ▸ hlast, by rw [hlast]; rfl, last, done, hbytes, hdone, hlt⟩
            exact sub_pos.mpr (lt_of_le_of_ne (hclock lastT hlast) hne)
      · exact .inr ⟨s, hsteps ▸ List.mem_append_left _ hs, hpos⟩
    obtain ⟨next, hnext, hsound, hlast⟩ :=
      update_eq_ok now transfer ⟨hforward, htimed, hshown ▸ h.shown, heta ▸ h.eta⟩
    exact ⟨next, hnext, hsound, hlast.trans hlastT⟩
  · rintro ⟨hnone, hlast, -, last, done, hbytes, hdone, hlt⟩
    have hstep : model.step now (int? transfer "bytes_done") = some (0, done - last) :=
      step_eq_some.mpr ⟨now, done, last, hlast, hdone, hbytes, hlt, by rw [sub_self]⟩
    rw [hnone, hstep, List.nil_append, Option.toList_some] at hsteps
    refine ⟨.emptyMax, ?_⟩
    rw [update, rate_of_untimed (by simp [hsteps]) (by simp [Timed, hsteps])]
    rfl

end TransferEta

/-! ### A run of readings -/

open TransferEta

variable {machine : Machine}

theorem run_concat (readings : List (ℚ × Option Transfer)) (reading : ℚ × Option Transfer) :
    run machine (readings ++ [reading]) = run machine readings >>= fun model =>
      model.feed machine reading.1 reading.2 := by
  rw [run, List.foldlM_append]
  exact bind_congr fun _ => bind_pure _

/-- The run stalls at the reading. -/
def StallsAt (model : TransferEta) (reading : ℚ × Option Transfer) : Prop :=
  ∃ transfer, reading.2 = some transfer ∧ model.Stalls reading.1 transfer

/-- The run outgrows the machine at the reading. -/
def OutgrowsAt (machine : Machine) (model : TransferEta) (reading : ℚ × Option Transfer) : Prop :=
  ∃ transfer, reading.2 = some transfer ∧ model.Outgrows machine transfer

theorem clocks_of_concat {before : List (ℚ × Option Transfer)} {reading : ℚ × Option Transfer}
    (hclock : (before ++ [reading]).Pairwise fun a b => a.1 ≤ b.1) :
    (before.Pairwise fun a b => a.1 ≤ b.1) ∧ ∀ t ∈ before.map Prod.fst, t ≤ reading.1 := by
  obtain ⟨hbefore, -, hlast⟩ := List.pairwise_append.mp hclock
  refine ⟨hbefore, fun t ht => ?_⟩
  obtain ⟨r, hr, rfl⟩ := List.mem_map.mp ht
  exact hlast r hr reading (List.mem_singleton_self _)

/-- What a run has reached: a sound model, last fed at the clock of one of its readings. -/
theorem run_sound (readings : List (ℚ × Option Transfer)) :
    ∀ {model : TransferEta}, (readings.Pairwise fun a b => a.1 ≤ b.1) →
    run machine readings = .ok model → TransferEta.Sound model ∧
    ∀ t ∈ model.lastT, t ∈ readings.map Prod.fst := by
  induction readings using List.reverseRecOn with
  | nil =>
      rintro model - h
      cases h
      exact ⟨sound_initial, nofun⟩
  | append_singleton before reading ih =>
      intro model hclock h
      rw [run_concat, Except.bind_eq_ok] at h
      obtain ⟨earlier, hearlier, hfeed⟩ := h
      obtain ⟨hbefore, hlast⟩ := clocks_of_concat hclock
      obtain ⟨hsound, hmem⟩ := ih hbefore hearlier
      obtain ⟨now, transfer⟩ := reading
      cases transfer with
      | none =>
          cases hfeed
          exact ⟨sound_initial, nofun⟩
      | some transfer =>
          have hspec := feed_sound machine hsound (fun t ht => hlast t (hmem t ht)) transfer
          by_cases hraises : earlier.Stalls now transfer ∨ earlier.Outgrows machine transfer
          · obtain ⟨e, he⟩ := hspec.2 hraises
            cases he.symm.trans hfeed
          · obtain ⟨next, hnext, hnextSound, hnextLast⟩ := hspec.1 hraises
            obtain rfl : next = model := Except.ok.inj (hnext.symm.trans hfeed)
            refine ⟨hnextSound, fun t ht => ?_⟩
            rw [hnextLast] at ht
            obtain rfl : now = t := Option.some.inj ht
            simp

/-- A run raises at the reading it stalls at or outgrows the machine at, and at no other. -/
theorem run_concat_eq_ok_iff {before : List (ℚ × Option Transfer)} {reading : ℚ × Option Transfer}
    {model : TransferEta} (hclock : (before ++ [reading]).Pairwise fun a b => a.1 ≤ b.1)
    (h : run machine before = .ok model) :
    (∃ next, run machine (before ++ [reading]) = .ok next) ↔
    ¬ StallsAt model reading ∧ ¬ OutgrowsAt machine model reading := by
  obtain ⟨hbefore, hlast⟩ := clocks_of_concat hclock
  obtain ⟨hsound, hmem⟩ := run_sound before hbefore h
  obtain ⟨now, transfer⟩ := reading
  rw [run_concat, h]
  show (∃ next, model.feed machine now transfer = .ok next) ↔ _
  cases transfer with
  | none => exact iff_of_true ⟨_, rfl⟩ ⟨by rintro ⟨_, ⟨⟩, -⟩, by rintro ⟨_, ⟨⟩, -⟩⟩
  | some transfer =>
      have hspec := feed_sound machine hsound (fun t ht => hlast t (hmem t ht)) transfer
      have hat : ¬ StallsAt model (now, some transfer) ∧
          ¬ OutgrowsAt machine model (now, some transfer) ↔
          ¬(model.Stalls now transfer ∨ model.Outgrows machine transfer) := by
        simp [StallsAt, OutgrowsAt]
      rw [hat]
      constructor
      · rintro ⟨next, hnext⟩ hraises
        obtain ⟨e, he⟩ := hspec.2 hraises
        cases he.symm.trans hnext
      · intro hruns
        obtain ⟨next, hnext, -⟩ := hspec.1 hruns
        exact ⟨next, hnext⟩

/-- With a clock that does not go back: the model takes every reading of a run, shows nothing
negative after any, and starts anew at a null one, exactly when the run stalls at none and outgrows
the machine at none. -/
theorem takes_all_iff (machine : Machine) (readings : List (ℚ × Option Transfer))
    (hclock : readings.Pairwise fun a b => a.1 ≤ b.1) :
    (∀ before, before <+: readings → ∃ model, run machine before = .ok model ∧
      (∀ e ∈ model.seconds, 0 ≤ e) ∧
      ∀ now, before.getLast? = some (now, none) → model = {}) ↔
    ∀ before reading model, before ++ [reading] <+: readings → run machine before = .ok model →
      ¬ StallsAt model reading ∧ ¬ OutgrowsAt machine model reading := by
  have hsorted : ∀ {before}, before <+: readings → before.Pairwise fun a b => a.1 ≤ b.1 :=
    fun hprefix => hclock.sublist hprefix.sublist
  constructor
  · intro htakes before reading model hprefix hrun
    obtain ⟨next, hnext, -⟩ := htakes _ hprefix
    exact (run_concat_eq_ok_iff (hsorted hprefix) hrun).mp ⟨next, hnext⟩
  · intro hruns before
    induction before using List.reverseRecOn with
    | nil => exact fun _ => ⟨{}, rfl, nofun, nofun⟩
    | append_singleton before reading ih =>
        intro hprefix
        obtain ⟨earlier, hearlier, -⟩ := ih ((List.prefix_append _ _).trans hprefix)
        obtain ⟨next, hnext⟩ :=
          (run_concat_eq_ok_iff (hsorted hprefix) hearlier).mpr
            (hruns before reading earlier hprefix hearlier)
        refine ⟨next, hnext, (run_sound _ (hsorted hprefix) hnext).1.eta, fun now hnull => ?_⟩
        obtain rfl : reading = (now, none) := by simpa using hnull
        rw [run_concat, hearlier] at hnext
        cases hnext
        rfl

/-- A machine with room for 2^40 entries in a list. -/
def terabyte : Machine := ⟨2 ^ 40, by decide⟩

/-- Bytes found moved, and three transfers ended, at the second of two readings. -/
def twoReadings (second : ℚ) : List (ℚ × Option Transfer) :=
  [(0, some [("bytes_done", num 0)]),
    (second, some [("bytes_done", num 10), ("datasets_done", num 3)])]

theorem takes_all_two : ∃ model, run terabyte (twoReadings 1) = .ok model ∧
    (∀ e ∈ model.seconds, 0 ≤ e) ∧
    ∀ now, (twoReadings 1).getLast? = some (now, none) → model = {} := by
  refine (takes_all_iff terabyte (twoReadings 1) (by simp [twoReadings])).mpr ?_
    (twoReadings 1) List.prefix_rfl
  intro before ⟨now, reading⟩ model hprefix hrun
  match before with
  | [] =>
      cases hrun
      constructor
      · rintro ⟨transfer, -, -, hlast, -⟩
        cases hlast
      · rintro ⟨transfer, -, ⟨⟨hlast, -⟩, -⟩ | ⟨hstart, -⟩⟩
        · cases hlast
        · cases hstart
  | [first] =>
      obtain ⟨rfl, rfl, rfl⟩ : first = (0, some [("bytes_done", num 0)]) ∧ now = 1 ∧
          some [("bytes_done", num 10), ("datasets_done", num 3)] = reading := by
        simpa [twoReadings, and_assoc, eq_comm] using hprefix
      obtain rfl := Except.ok.inj (hrun.symm.trans (show run terabyte _ = .ok _ from rfl))
      constructor
      · rintro ⟨transfer, -, -, hlast, -⟩
        cases hlast
      · rintro ⟨transfer, heq, ⟨-, hfull⟩ | ⟨-, last, hlast, -, hfull⟩⟩
        · exact absurd hfull (by decide)
        · cases heq
          cases hlast
          exact absurd hfull (by decide)
  | _ :: _ :: _ => simp [twoReadings] at hprefix

/-- So many transfers ended at the second of two readings that no list is as long. -/
def jumpReadings : List (ℚ × Option Transfer) :=
  [(0, some [("datasets_done", num 0)]), (1, some [("datasets_done", num (2 ^ 63))])]

/-- At one clock the second reading raises, and on any machine so does the jump. -/
theorem same_clock_raises : ((twoReadings 0).Pairwise (fun a b => a.1 ≤ b.1) ∧
      run terabyte (twoReadings 0) = .error .emptyMax) ∧
    jumpReadings.Pairwise (fun a b => a.1 ≤ b.1) ∧
    ∀ machine, run machine jumpReadings = .error .overflow := by
  refine ⟨⟨by simp [twoReadings], by decide +kernel⟩, by simp [jumpReadings], fun machine => ?_⟩
  rfl

end Zark.TimeLeft
