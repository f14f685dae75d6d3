import Mathlib

/-!
# Names in a hierarchy

A name is the list of its components, outermost first, so that one name lies at or below another
exactly when the second is a prefix of the first. Two names above one name are comparable, which is
what makes the trees below an antichain of names disjoint. The topmost names of a list are its
antichain of names no other one covers.
-/

namespace Hierarchy

variable {α : Type*}

/-- `r` is `t` or lies below it. -/
abbrev Under (r t : List α) : Prop := t <+: r

/-- The name one level up; the name of no component is its own. -/
abbrev parent (r : List α) : List α := r.dropLast

theorem Under.trans {r s t : List α} (h : Under r s) (h' : Under s t) : Under r t :=
  List.IsPrefix.trans h' h

theorem Under.antisymm {r t : List α} (h : Under r t) (h' : Under t r) : r = t :=
  (h.eq_of_length (Nat.le_antisymm h.length_le h'.length_le)).symm

/-- Two names above one name are comparable. -/
theorem under_or_under {r s t : List α} (hs : Under r s) (ht : Under r t) : Under s t ∨ Under t s :=
  List.prefix_or_prefix_of_prefix ht hs

theorem under_parent (r : List α) : Under r (parent r) := List.dropLast_prefix r

/-- What lies strictly below a name has its parent at or below it. -/
theorem Under.parent_of_ne {r t : List α} (h : Under r t) (hne : r ≠ t) : Under (parent r) t := by
  obtain ⟨tail, rfl⟩ := h
  have htail : tail ≠ [] := by
    rintro rfl
    exact hne (List.append_nil t)
  rw [parent, List.dropLast_append_of_ne_nil htail]
  exact List.prefix_append _ _

theorem length_lt_of_under_of_ne {r t : List α} (h : Under r t) (hne : r ≠ t) :
    t.length < r.length := by
  refine lt_of_le_of_ne h.length_le fun hlen => hne ?_
  exact (h.eq_of_length hlen).symm

/-- Every name of the list has the name above it in the list, unless it is outermost. -/
def ParentClosed (l : List (List α)) : Prop := ∀ r ∈ l, r ≠ [] ∧ (parent r = [] ∨ parent r ∈ l)

instance [DecidableEq α] (l : List (List α)) : Decidable (ParentClosed l) :=
  inferInstanceAs (Decidable (∀ r ∈ l, _))

theorem ParentClosed.mem_of_under {l : List (List α)} (hl : ParentClosed l) {r t : List α}
    (hr : r ∈ l) (h : Under r t) (ht : t ≠ []) : t ∈ l := by
  induction hn : r.length using Nat.strong_induction_on generalizing r with
  | _ n ih =>
      by_cases heq : r = t
      · exact heq ▸ hr
      · have hparent := h.parent_of_ne heq
        obtain ⟨hne, hroot | hmem⟩ := hl r hr
        · rw [hroot] at hparent
          exact absurd (List.prefix_nil.mp hparent) ht
        · refine ih (parent r).length ?_ hmem hparent rfl
          rw [List.length_dropLast, ← hn]
          exact Nat.sub_lt (List.length_pos_of_ne_nil hne) Nat.one_pos

/-! ### Antichains -/

/-- No name of the list is another one's or lies below another. -/
abbrev Antichain (l : List (List α)) : Prop := l.Pairwise fun s t => ¬Under s t ∧ ¬Under t s

instance : Std.Symm fun s t : List α => ¬Under s t ∧ ¬Under t s := ⟨fun _ _ h => ⟨h.2, h.1⟩⟩

/-- Two names of an antichain with a common name below them are one. -/
theorem Antichain.unique {r s t : List α} {l : List (List α)} (hl : Antichain l)
    (hs : s ∈ l) (ht : t ∈ l) (hrs : Under r s) (hrt : Under r t) : s = t := by
  by_contra hne
  have hpair := List.Pairwise.forall hl hs ht hne
  obtain h | h := under_or_under hrs hrt
  · exact hpair.1 h
  · exact hpair.2 h

theorem Antichain.nodup {l : List (List α)} (hl : Antichain l) : l.Nodup :=
  List.Pairwise.imp (fun {s t} (h : ¬Under s t ∧ ¬Under t s) (heq : s = t) =>
    h.1 (heq ▸ List.prefix_rfl)) hl

/-! ### Topmost names -/

section Topmost

variable [DecidableEq α]

/-- Some name of `l` is `r` or above it. -/
def covered (r : List α) (l : List (List α)) : Bool := l.any fun t => decide (Under r t)

theorem covered_iff {r : List α} {l : List (List α)} : covered r l = true ↔ ∃ t ∈ l, Under r t := by
  simp [covered]

/-- The names of `l` with no other name of `l` above them. -/
def topmost (l : List (List α)) : List (List α) := l.filter fun t => !covered t (l.filter (· ≠ t))

theorem mem_topmost {t : List α} {l : List (List α)} :
    t ∈ topmost l ↔ t ∈ l ∧ ∀ u ∈ l, Under t u → u = t := by
  simp only [topmost, List.mem_filter, Bool.not_eq_true', ← Bool.not_eq_true, covered_iff,
    decide_eq_true_eq, not_exists, not_and]
  refine and_congr_right fun _ => ⟨fun h u hu hunder => ?_, fun h u hu hunder =>
    hu.2 (h u hu.1 hunder)⟩
  by_contra hne
  exact h u ⟨hu, hne⟩ hunder

/-- Every name of a list lies at or below a topmost one. -/
theorem exists_topmost {r : List α} {l : List (List α)} (hr : r ∈ l) :
    ∃ t ∈ topmost l, Under r t := by
  induction hn : r.length using Nat.strong_induction_on generalizing r with
  | _ n ih =>
      by_cases htop : r ∈ topmost l
      · exact ⟨r, htop, List.prefix_rfl⟩
      · rw [mem_topmost, not_and] at htop
        obtain ⟨u, hu, hunder, hne⟩ : ∃ u ∈ l, Under r u ∧ u ≠ r := by
          simpa using htop hr
        have hlen : u.length < n := hn ▸ length_lt_of_under_of_ne hunder (Ne.symm hne)
        obtain ⟨t, ht, hut⟩ := ih u.length hlen hu rfl
        exact ⟨t, ht, hunder.trans hut⟩

/-- Two topmost names with a common name below them are one. -/
theorem topmost_unique {r s t : List α} {l : List (List α)} (hs : s ∈ topmost l)
    (ht : t ∈ topmost l) (hrs : Under r s) (hrt : Under r t) : s = t := by
  obtain h | h := under_or_under hrs hrt
  · exact ((mem_topmost.mp hs).2 t (mem_topmost.mp ht).1 h).symm
  · exact (mem_topmost.mp ht).2 s (mem_topmost.mp hs).1 h

/-- The topmost names cover what the list covers. -/
theorem covered_topmost {r : List α} {l : List (List α)} : covered r (topmost l) = covered r l := by
  rw [Bool.eq_iff_iff, covered_iff, covered_iff]
  constructor
  · rintro ⟨t, ht, h⟩
    exact ⟨t, (mem_topmost.mp ht).1, h⟩
  · rintro ⟨t, ht, h⟩
    obtain ⟨u, hu, htu⟩ := exists_topmost ht
    exact ⟨u, hu, h.trans htu⟩

theorem antichain_topmost {l : List (List α)} (hl : l.Nodup) : Antichain (topmost l) := by
  have hnodup : (topmost l).Nodup := hl.filter _
  refine hnodup.imp_of_mem fun {s t} hs ht hne => ⟨fun h => hne ?_, fun h => hne ?_⟩
  · exact topmost_unique hs ht List.prefix_rfl h
  · exact topmost_unique hs ht h List.prefix_rfl

end Topmost

end Hierarchy
