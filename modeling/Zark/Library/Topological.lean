import Mathlib

/-!
# Taking nodes in dependency order

A node may go once nothing left needs it to stay. The loop takes the first such node in a given
order, and stops when none is left or none may go. What was taken respects the dependencies, and
what is stuck cannot be taken in any order.
-/

namespace Topological

variable {α : Type*}

section Loop

variable (needs : α → α → Bool) (le : α → α → Prop) [DecidableRel le]

/-- The nodes of `left` that no node of `left` keeps; `needs x y` says that `y` has to go before
`x`. -/
def ready (left : List α) : List α := left.filter fun x => !left.any (needs x)

variable {needs le}

theorem mem_ready {left : List α} {x : α} :
    x ∈ ready needs left ↔ x ∈ left ∧ ∀ y ∈ left, needs x y = false := by
  simp [ready]

private theorem first_mem_ready {left rest : List α} {x : α}
    (h : (ready needs left).insertionSort le = x :: rest) : x ∈ ready needs left := by
  rw [← List.mem_insertionSort le, h]
  exact List.mem_cons_self

variable [DecidableEq α] (needs le)

/-- The nodes in the order they go, with those that are stuck. -/
def take : ℕ → List α → List α × List α
  | 0, left => ([], left)
  | fuel + 1, left =>
      match (ready needs left).insertionSort le with
      | [] => ([], left)
      | x :: _ =>
          let rest := take fuel (left.erase x)
          (x :: rest.1, rest.2)

variable {needs le}

/-- Every node either goes or is stuck. -/
theorem take_perm (fuel : ℕ) (left : List α) :
    ((take needs le fuel left).1 ++ (take needs le fuel left).2).Perm left := by
  induction fuel generalizing left with
  | zero => exact List.Perm.refl _
  | succ fuel ih =>
      unfold take
      split
      · exact List.Perm.refl _
      · rename_i x rest h
        have hx : x ∈ left := (mem_ready.mp (first_mem_ready h)).1
        exact ((ih (left.erase x)).cons x).trans (List.perm_cons_erase hx).symm

/-- A node goes only after everything that has to go before it. -/
theorem mem_before_of_needs (fuel : ℕ) {left before after : List α} {x y : α} (hnodup : left.Nodup)
    (h : (take needs le fuel left).1 = before ++ x :: after) (hy : y ∈ left)
    (hneeds : needs x y = true) : y ∈ before := by
  induction fuel generalizing left before with
  | zero => simp [take] at h
  | succ fuel ih =>
      unfold take at h
      split at h
      · simp at h
      · rename_i z rest hz
        have hready := mem_ready.mp (first_mem_ready hz)
        cases before with
        | nil =>
            obtain rfl : z = x := (List.cons.inj h).1
            rw [hready.2 y hy] at hneeds
            cases hneeds
        | cons w before =>
            obtain ⟨rfl, htail⟩ := List.cons.inj h
            by_cases hyz : y = z
            · exact hyz ▸ List.mem_cons_self
            · exact List.mem_cons_of_mem _ (ih (hnodup.erase z) htail
                ((List.mem_erase_of_ne hyz).mpr hy))

/-- Every stuck node is kept by a stuck node, when the loop had a turn for every node. -/
theorem stuck_needs (fuel : ℕ) {left : List α} (hfuel : left.length ≤ fuel) {x : α}
    (hx : x ∈ (take needs le fuel left).2) :
    ∃ y ∈ (take needs le fuel left).2, needs x y = true := by
  induction fuel generalizing left with
  | zero =>
      obtain rfl : left = [] := List.length_eq_zero_iff.mp (Nat.le_zero.mp hfuel)
      cases hx
  | succ fuel ih =>
      unfold take at hx ⊢
      split at hx
      · rename_i h
        have hnone : x ∉ ready needs left := by
          rw [← List.mem_insertionSort le, h]
          exact List.not_mem_nil
        rw [mem_ready, not_and] at hnone
        obtain ⟨y, hy, hneeds⟩ : ∃ y ∈ left, needs x y = true := by
          simpa using hnone hx
        exact ⟨y, hy, hneeds⟩
      · rename_i z rest hz
        have hmem : z ∈ left := (mem_ready.mp (first_mem_ready hz)).1
        refine ih ?_ hx
        rw [List.length_erase_of_mem hmem]
        omega

end Loop

/-- In any sequence that takes every node of a set whose nodes keep each other, one goes before a
node it needed gone. -/
theorem exists_early [DecidableEq α] {needs : α → α → Bool} {s : List α}
    (hs : ∀ x ∈ s, ∃ y ∈ s, needs x y = true) (hne : s ≠ []) {l : List α} (hl : s ⊆ l) :
    ∃ before x after, l = before ++ x :: after ∧ x ∈ s ∧ ∃ y ∈ s, needs x y = true ∧
    y ∉ before := by
  obtain ⟨x₀, hx₀⟩ := List.exists_mem_of_ne_nil s hne
  have hfirst : ∃ x, l.find? (· ∈ s) = some x :=
    Option.isSome_iff_exists.mp (List.find?_isSome.mpr ⟨x₀, hl hx₀, by simpa using hx₀⟩)
  obtain ⟨x, hx⟩ := hfirst
  obtain ⟨hxs, before, after, hsplit, hbefore⟩ := List.find?_eq_some_iff_append.mp hx
  have hxs : x ∈ s := by simpa using hxs
  obtain ⟨y, hy, hneeds⟩ := hs x hxs
  refine ⟨before, x, after, hsplit, hxs, y, hy, hneeds, fun hmem => ?_⟩
  have := hbefore y hmem
  simp [hy] at this

end Topological
