import Mathlib

/-!
# The best of each group

One pass over a list that keeps, for each group, the element of the highest rank met so far. What it
keeps is what no element of the same group outranks.
-/

namespace Best

variable {α γ ρ : Type*} [DecidableEq γ] [LinearOrder ρ] (group : α → γ) (rank : α → ρ)

/-- The best of each group so far, with one more element. -/
def add (best : List α) (a : α) : List α :=
  if best.any fun b => group b = group a ∧ rank a ≤ rank b then
    best
  else a :: best.filter (group · ≠ group a)

/-- The best element of each group. -/
def perGroup (l : List α) : List α := l.foldl (add group rank) []

/-- What the pass keeps: elements it met, one a group, and for each element met one of its group and
no lower rank. -/
private structure Kept (met best : List α) : Prop where
  sub : best ⊆ met
  nodup : best.Nodup
  unique : ∀ a ∈ best, ∀ b ∈ best, group a = group b → a = b
  bound : ∀ a ∈ met, ∃ b ∈ best, group b = group a ∧ rank a ≤ rank b

variable {group rank}

omit [DecidableEq γ] in
private theorem kept_nil : Kept group rank [] [] := ⟨by simp, List.nodup_nil, by simp, by simp⟩

private theorem kept_add {met best : List α} (h : Kept group rank met best) (a : α) :
    Kept group rank (met ++ [a]) (add group rank best a) := by
  unfold add
  split
  · rename_i hany
    obtain ⟨c, hc, hbetter⟩ := List.any_eq_true.mp hany
    refine ⟨fun b hb => List.mem_append_left _ (h.sub hb), h.nodup, h.unique, fun b hb => ?_⟩
    rcases List.mem_append.mp hb with hb | hb
    · exact h.bound b hb
    · rw [List.mem_singleton.mp hb]
      exact ⟨c, hc, by simpa using hbetter⟩
  · rename_i hany
    have hlower : ∀ c ∈ best, group c = group a → rank c ≤ rank a := by
      intro c hc hgroup
      by_contra hlt
      exact hany (List.any_eq_true.mpr ⟨c, hc, by simpa [hgroup] using le_of_not_ge hlt⟩)
    have hmem : ∀ {b}, b ∈ a :: best.filter (group · ≠ group a) ↔
        b = a ∨ b ∈ best ∧ group b ≠ group a := by
      simp
    refine ⟨fun b hb => ?_, List.nodup_cons.mpr ⟨by simp, h.nodup.filter _⟩,
      fun b hb c hc heq => ?_, fun b hb => ?_⟩
    · rcases hmem.mp hb with rfl | hb
      · exact List.mem_append_right _ (List.mem_singleton_self _)
      · exact List.mem_append_left _ (h.sub hb.1)
    · rcases hmem.mp hb with rfl | hb
      · rcases hmem.mp hc with rfl | hc
        · rfl
        · exact absurd heq.symm hc.2
      · rcases hmem.mp hc with rfl | hc
        · exact absurd heq hb.2
        · exact h.unique b hb.1 c hc.1 heq
    · rcases List.mem_append.mp hb with hb | hb
      · obtain ⟨c, hc, hgroup, hle⟩ := h.bound b hb
        by_cases hsame : group c = group a
        · exact ⟨a, hmem.mpr (.inl rfl), hsame.symm.trans hgroup, hle.trans (hlower c hc hsame)⟩
        · exact ⟨c, hmem.mpr (.inr ⟨hc, hsame⟩), hgroup, hle⟩
      · rw [List.mem_singleton.mp hb]
        exact ⟨a, hmem.mpr (.inl rfl), rfl, le_rfl⟩

private theorem kept_foldl {rest : List α} :
    ∀ {met best : List α}, Kept group rank met best →
      Kept group rank (met ++ rest) (rest.foldl (add group rank) best) := by
  induction rest with
  | nil =>
      intro met best h
      rwa [List.append_nil]
  | cons a rest ih =>
      intro met best h
      have hrest := ih (kept_add h a)
      rwa [List.append_assoc, List.singleton_append] at hrest

private theorem kept_perGroup (l : List α) : Kept group rank l (perGroup group rank l) :=
  kept_foldl kept_nil

/-- The pass keeps what no element of the same group outranks, when no two elements rank alike. -/
theorem mem_perGroup_iff {l : List α} (hrank : ∀ a ∈ l, ∀ b ∈ l, rank a = rank b → a = b) {a : α} :
    a ∈ perGroup group rank l ↔ a ∈ l ∧ ∀ b ∈ l, group b = group a → rank b ≤ rank a := by
  have hkept : Kept group rank l (perGroup group rank l) := kept_perGroup l
  constructor
  · intro ha
    refine ⟨hkept.sub ha, fun b hb hgroup => ?_⟩
    obtain ⟨c, hc, hsame, hle⟩ := hkept.bound b hb
    rwa [hkept.unique c hc a ha (hsame.trans hgroup)] at hle
  · rintro ⟨ha, hmax⟩
    obtain ⟨b, hb, hgroup, hle⟩ := hkept.bound a ha
    have hback := hmax b (hkept.sub hb) hgroup
    rwa [hrank a ha b (hkept.sub hb) (le_antisymm hle hback)]

theorem nodup_perGroup (l : List α) : (perGroup group rank l).Nodup := (kept_perGroup l).nodup

theorem perGroup_subset (l : List α) : perGroup group rank l ⊆ l := (kept_perGroup l).sub

/-! ### The largest of a list -/

/-- A bound on the largest is a bound on each. -/
theorem foldl_max_le_iff {f : α → ℕ} {l : List α} {init bound : ℕ} :
    l.foldl (fun t s => max t (f s)) init ≤ bound ↔ init ≤ bound ∧ ∀ s ∈ l, f s ≤ bound := by
  induction l generalizing init with
  | nil => simp
  | cons a rest ih => simp [ih, and_assoc]

/-- The largest of some elements is one of them. -/
theorem exists_eq_foldl_max {f : α → ℕ} {l : List α} (h : l ≠ []) :
    ∃ s ∈ l, f s = l.foldl (fun t s => max t (f s)) 0 := by
  have hmax : ∀ init, l.foldl (fun t s => max t (f s)) init = init ∨
      ∃ s ∈ l, f s = l.foldl (fun t s => max t (f s)) init := by
    clear h
    induction l with
    | nil => exact fun init => .inl rfl
    | cons a rest ih =>
        intro init
        rw [List.foldl_cons]
        obtain heq | ⟨s, hs, heq⟩ := ih (max init (f a))
        · rw [heq]
          obtain hle | hle := le_total (f a) init
          · exact .inl (max_eq_left hle)
          · exact .inr ⟨a, List.mem_cons_self, (max_eq_right hle).symm⟩
        · exact .inr ⟨s, List.mem_cons_of_mem _ hs, heq⟩
  obtain hzero | hmem := hmax 0
  · obtain ⟨s, hs⟩ := List.exists_mem_of_ne_nil l h
    have hle := (foldl_max_le_iff.mp hzero.le).2 s hs
    exact ⟨s, hs, (Nat.le_zero.mp hle).trans hzero.symm⟩
  · exact hmem

end Best
