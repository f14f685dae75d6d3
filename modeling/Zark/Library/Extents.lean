import Mathlib

/-!
# Extents laid out at a boundary

Extents of given sizes are laid one after the other, each at the first multiple of a boundary that
is free. How far they reach is what their sizes come to, each rounded up by itself.
-/

namespace Extents

variable {b : ℕ}

/-- The first multiple of `b` that is not below `n`. -/
def alignUp (b n : ℕ) : ℕ := b * (n ⌈/⌉ b)

/-- Where a further extent would start after those of the sizes, of which the first starts at
`start`. -/
def next (b start : ℕ) : List ℕ → ℕ
  | [] => start
  | size :: sizes => next b (alignUp b (start + size)) sizes

theorem dvd_alignUp (b n : ℕ) : b ∣ alignUp b n := Nat.dvd_mul_right b _

theorem alignUp_zero (b : ℕ) : alignUp b 0 = 0 := by rw [alignUp, zero_ceilDiv, Nat.mul_zero]

/-- Only what lies past a boundary is rounded up. -/
theorem alignUp_add (hb : 0 < b) {m : ℕ} (hm : b ∣ m) (n : ℕ) :
    alignUp b (m + n) = m + alignUp b n := by
  obtain ⟨k, rfl⟩ := hm
  have hsum : b * k + n + b - 1 = b * k + (n + b - 1) := by omega
  rw [alignUp, alignUp, Nat.ceilDiv_eq_add_pred_div, Nat.ceilDiv_eq_add_pred_div, hsum,
    Nat.mul_add_div hb, Nat.mul_add]

/-- Short of a boundary, the next one. -/
theorem alignUp_of_lt {n : ℕ} (hpos : 0 < n) (h : n ≤ b) : alignUp b n = b := by
  have hb : 0 < b := hpos.trans_le h
  have hsum : n + b - 1 = b * 1 + (n - 1) := by omega
  have hless : (n - 1) / b = 0 := Nat.div_eq_of_lt (by omega)
  rw [alignUp, Nat.ceilDiv_eq_add_pred_div, hsum, Nat.mul_add_div hb, hless, Nat.mul_one]

/-- A size taken in whole units, of which a boundary is a multiple, and rounded up: it grows to the
next boundary if the rest is a unit or more, and loses the rest if not. -/
theorem alignUp_units {u : ℕ} (hu : 0 < u) (hb : 0 < b) (hub : u ∣ b) (n : ℕ) :
    alignUp b (n / u * u) + n % b = n + if u ≤ n % b then b else 0 := by
  have hn : b * (n / b) + n % b = n := Nat.div_add_mod n b
  obtain ⟨k, rfl⟩ := hub
  have hunits : n / u * u = u * k * (n / (u * k)) + n % (u * k) / u * u := by
    conv_lhs => rw [← hn]
    rw [Nat.mul_assoc u, Nat.mul_add_div hu]
    ring
  have hrest : n % (u * k) / u * u ≤ u * k := (Nat.div_mul_le_self _ _).trans (Nat.mod_lt n hb).le
  rw [hunits, alignUp_add hb (Nat.dvd_mul_right _ _)]
  split
  · rename_i hle
    have hpos : 0 < n % (u * k) / u * u := Nat.mul_pos (Nat.div_pos hle hu) hu
    rw [alignUp_of_lt hpos hrest]
    omega
  · rename_i hlt
    rw [Nat.div_eq_of_lt (not_le.mp hlt), Nat.zero_mul, alignUp_zero]
    omega

theorem next_eq (hb : 0 < b) {start : ℕ} (hstart : b ∣ start) (sizes : List ℕ) :
    next b start sizes = start + (sizes.map (alignUp b)).sum := by
  induction sizes generalizing start with
  | nil => rfl
  | cons size sizes ih =>
      rw [next, ih (dvd_alignUp b _), alignUp_add hb hstart, List.map_cons, List.sum_cons,
        Nat.add_assoc]

/-- How far sizes taken in whole units reach: as far as their sum, but for what each one's rest past
a boundary adds or loses. -/
theorem next_units {u start : ℕ} (hu : 0 < u) (hb : 0 < b) (hub : u ∣ b) (hstart : b ∣ start)
    (sizes : List ℕ) :
    next b start (sizes.map fun n => n / u * u) + (sizes.map (· % b)).sum =
      start + sizes.sum + (sizes.countP fun n => decide (u ≤ n % b)) * b := by
  rw [next_eq hb hstart]
  induction sizes with
  | nil => simp
  | cons n sizes ih =>
      have hone := alignUp_units hu hb hub n
      simp only [List.map_cons, List.sum_cons, List.countP_cons, decide_eq_true_eq] at ih ⊢
      split at hone
      · rename_i hle
        rw [if_pos hle, Nat.add_mul, Nat.one_mul]
        omega
      · rename_i hlt
        rw [if_neg hlt, Nat.add_zero]
        omega

end Extents
