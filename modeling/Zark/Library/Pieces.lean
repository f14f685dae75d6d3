import Mathlib

/-!
# A list cut into pieces

Pieces of one size, of which the last holds what is left, and groups of one key, in the order of
their first members: put together, either is the list again.
-/

namespace List

variable {α : Type*}

/-- The pieces of `size` members a list is cut into. -/
def cutInto (size : ℕ) (l : List α) : List (List α) :=
  (List.range ((l.length + size - 1) / size)).map fun i => (l.drop (i * size)).take size

theorem length_cutInto (size : ℕ) (l : List α) :
    (l.cutInto size).length = (l.length + size - 1) / size := by
  rw [cutInto, length_map, length_range]

private theorem flatMap_pieces (l : List α) (size n : ℕ) :
    (List.range n).flatMap (fun i => (l.drop (i * size)).take size) = l.take (n * size) := by
  induction n with
  | zero => simp
  | succ n ih => rw [range_succ, flatMap_append, ih, flatMap_singleton, Nat.succ_mul, take_add]

theorem flatten_cutInto {size : ℕ} (hsize : 0 < size) (l : List α) :
    (l.cutInto size).flatten = l := by
  rw [cutInto, ← flatMap_def, flatMap_pieces, take_of_length_le]
  have hdiv := Nat.lt_div_mul_add hsize (a := l.length + size - 1)
  omega

theorem mem_cutInto {size : ℕ} (hsize : 0 < size) {l : List α} {a : α} :
    (∃ piece ∈ l.cutInto size, a ∈ piece) ↔ a ∈ l := by
  rw [← mem_flatten, flatten_cutInto hsize]

/-- No piece is empty. -/
theorem ne_nil_of_mem_cutInto {size : ℕ} (hsize : 0 < size) {l piece : List α}
    (h : piece ∈ l.cutInto size) : piece ≠ [] := by
  obtain ⟨i, hi, rfl⟩ := mem_map.mp h
  rw [mem_range, Nat.lt_div_iff_mul_lt hsize] at hi
  rw [ne_eq, ← length_eq_zero_iff, length_take, length_drop]
  have hcomm : size * i = i * size := Nat.mul_comm _ _
  omega

/-! ### Groups of one key -/

section Groups

variable {κ : Type*} [DecidableEq κ]

/-- A member at the end of its key's group, which is made when there is none. -/
def putInGroup (key : κ) (a : α) : List (κ × List α) → List (κ × List α)
  | [] => [(key, [a])]
  | group :: groups =>
      if group.1 = key then (key, group.2 ++ [a]) :: groups else group :: putInGroup key a groups

/-- The members of groups with their keys. -/
def ungroup (groups : List (κ × List α)) : List (κ × α) :=
  groups.flatMap fun group => group.2.map (group.1, ·)

theorem ungroup_putInGroup (key : κ) (a : α) (groups : List (κ × List α)) :
    (ungroup (putInGroup key a groups)).Perm ((key, a) :: ungroup groups) := by
  induction groups with
  | nil => exact Perm.refl _
  | cons group groups ih =>
      rw [putInGroup]
      split
      · rename_i hkey
        simp only [ungroup, flatMap_cons, map_append, map_cons, map_nil, append_assoc, hkey]
        exact perm_middle
      · simp only [ungroup, flatMap_cons]
        exact (ih.append_left _).trans perm_middle

end Groups

end List
