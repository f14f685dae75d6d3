import Mathlib.Data.List.Nodup
import Zark.Library.Checks

/-!
# Steps that keep to their own entries

A state is read by keys, and each step changes what is read under one key, its own. Over a list of
steps with different keys, what is read under a key in the end is what its own step left there,
wherever in the list it stood. -/

namespace Own

universe u v

variable {σ : Type u} {ε : Type*} {α κ β : Type*} {view : σ → κ → β} {key : α → κ} {keep : σ → Prop}

/-- A step that may fail changes what is read under its own key only, and keeps what every step
relies on. -/
structure Steps (view : σ → κ → β) (key : α → κ) (keep : σ → Prop) (step : σ → α → Except ε σ) :
    Prop where
  other : ∀ s a s', keep s → step s a = .ok s' → ∀ k, k ≠ key a → view s' k = view s k
  kept : ∀ s a s', keep s → step s a = .ok s' → keep s'

variable {step : σ → α → Except ε σ} {l : List α} {s s' : σ}

theorem Steps.keep_foldlM (hstep : Steps view key keep step) (h : l.foldlM step s = .ok s')
    (hs : keep s) : keep s' := by
  induction l generalizing s with
  | nil =>
      obtain rfl : s = s' := Except.ok.inj h
      exact hs
  | cons a l ih =>
      rw [List.foldlM_cons] at h
      obtain ⟨t, ht, hrest⟩ := Except.bind_eq_ok.mp h
      exact ih hrest (hstep.kept s a t hs ht)

/-- A key of no step reads as before. -/
theorem Steps.foldlM_other (hstep : Steps view key keep step) (h : l.foldlM step s = .ok s')
    (hs : keep s) {k : κ} (hk : k ∉ l.map key) :
    view s' k = view s k := by
  induction l generalizing s with
  | nil =>
      obtain rfl : s = s' := Except.ok.inj h
      rfl
  | cons a l ih =>
      rw [List.foldlM_cons] at h
      obtain ⟨t, ht, hrest⟩ := Except.bind_eq_ok.mp h
      obtain ⟨hne, hk⟩ := not_or.mp fun hmem => hk (List.mem_cons.mpr hmem)
      rw [ih hrest (hstep.kept s a t hs ht) hk, hstep.other s a t hs ht k hne]

/-- A key of one step reads as that step left it. -/
theorem Steps.foldlM_own (hstep : Steps view key keep step) (h : l.foldlM step s = .ok s')
    (hs : keep s) (hnodup : (l.map key).Nodup) {a : α} (ha : a ∈ l) :
    ∃ t t', keep t ∧ view t (key a) = view s (key a) ∧ step t a = .ok t' ∧
    view s' (key a) = view t' (key a) := by
  induction l generalizing s with
  | nil => cases ha
  | cons b l ih =>
      rw [List.foldlM_cons] at h
      obtain ⟨t, ht, hrest⟩ := Except.bind_eq_ok.mp h
      have hkeep := hstep.kept s b t hs ht
      obtain ⟨hb, hl⟩ := List.nodup_cons.mp hnodup
      obtain rfl | ha := List.mem_cons.mp ha
      · exact ⟨s, t, hs, rfl, ht, hstep.foldlM_other hrest hkeep hb⟩
      · obtain ⟨u, u', hu, hview, hown, hlast⟩ := ih hrest hkeep hl ha
        have hne : key a ≠ key b := fun heq => hb (heq ▸ List.mem_map_of_mem ha)
        exact ⟨u, u', hu, hview.trans (hstep.other s b t hs ht _ hne), hown, hlast⟩

/-! ### Steps that do not fail -/

/-- The same of a step that does not fail. -/
structure Moves (view : σ → κ → β) (key : α → κ) (keep : σ → Prop) (step : σ → α → σ) : Prop where
  other : ∀ s a, keep s → ∀ k, k ≠ key a → view (step s a) k = view s k
  kept : ∀ s a, keep s → keep (step s a)

variable {move : σ → α → σ}

theorem Moves.steps (h : Moves view key keep move) :
    Steps view key keep (ε := Unit) fun s a => .ok (move s a) where
  other s a _ hs hs' k hk := Except.ok.inj hs' ▸ h.other s a hs k hk
  kept s a _ hs hs' := Except.ok.inj hs' ▸ h.kept s a hs

theorem foldlM_move (move : σ → α → σ) (l : List α) (s : σ) :
    (l.foldlM (fun s a => .ok (move s a)) s : Except Unit σ) = .ok (l.foldl move s) :=
  List.foldlM_pure

theorem Moves.keep_foldl (h : Moves view key keep move) (hs : keep s) : keep (l.foldl move s) :=
  h.steps.keep_foldlM (foldlM_move move l s) hs

theorem Moves.foldl_other (h : Moves view key keep move) (hs : keep s) {k : κ}
    (hk : k ∉ l.map key) : view (l.foldl move s) k = view s k :=
  h.steps.foldlM_other (foldlM_move move l s) hs hk

theorem Moves.foldl_own (h : Moves view key keep move) (hs : keep s) (hnodup : (l.map key).Nodup)
    {a : α} (ha : a ∈ l) :
    ∃ t, keep t ∧ view t (key a) = view s (key a) ∧
    view (l.foldl move s) (key a) = view (move t a) (key a) := by
  obtain ⟨t, t', ht, hview, hown, hlast⟩ := h.steps.foldlM_own (foldlM_move move l s) hs hnodup ha
  obtain rfl : move t a = t' := Except.ok.inj hown
  exact ⟨t, ht, hview, hlast⟩

end Own
