import Mathlib

/-!
# Substituting what a pattern finds

A pattern is tried at each place of a list from the left, knowing what stands just before; what it
finds is taken as a whole and the search goes on after it. This is what a regular expression's
substitution does, for patterns that find nothing empty.
-/

namespace Scan

variable {α : Type*}

/-- How much is found at a place, from what stands before it and what follows. -/
abbrev Pattern (α : Type*) := Option α → List α → Option ℕ

/-- What a search leaves and what it finds. -/
inductive Piece (α : Type*)
  | kept (a : α)
  | found (l : List α)

def pieces (m : Pattern α) : Option α → List α → List (Piece α)
  | _, [] => []
  | prev, a :: rest =>
      match m prev (a :: rest) with
      | some (n + 1) =>
          .found (a :: rest.take n) :: pieces m (a :: rest.take n).getLast? (rest.drop n)
      | _ => .kept a :: pieces m (some a) rest
  termination_by _ l => l.length
  decreasing_by
    · simp only [List.length_drop, List.length_cons]
      omega
    · simp

def Piece.out (put : List α → List α) : Piece α → List α
  | kept a => [a]
  | found l => put l

/-- The list with what the pattern finds put otherwise. -/
def sub (m : Pattern α) (put : List α → List α) (prev : Option α) (l : List α) : List α :=
  (pieces m prev l).flatMap (Piece.out put)

/-- What the pattern finds, in order. -/
def findAll (m : Pattern α) (prev : Option α) (l : List α) : List (List α) :=
  (pieces m prev l).filterMap fun
    | .kept _ => none
    | .found l => some l

/-- A pattern finds something, and no more than there is. -/
structure Proper (m : Pattern α) : Prop where
  pos : ∀ prev l n, m prev l = some n → 0 < n
  le : ∀ prev l n, m prev l = some n → n ≤ l.length

variable {m : Pattern α} {put : List α → List α}

/-- What is found, and what follows. -/
theorem Proper.exists_append (hm : Proper m) {prev : Option α} {l : List α} {n : ℕ}
    (h : m prev l = some n) :
    ∃ w rest, l = w ++ rest ∧ w ≠ [] ∧ m prev (w ++ rest) = some w.length := by
  have hw : (l.take n).length = n := List.length_take_of_le (hm.le _ _ _ h)
  refine ⟨l.take n, l.drop n, (List.take_append_drop n l).symm,
    ?_, by rw [List.take_append_drop, h, hw]⟩
  rw [← List.length_pos_iff, hw]
  exact hm.pos _ _ _ h

theorem pieces_nil (m : Pattern α) (prev : Option α) : pieces m prev [] = [] := by rw [pieces]

theorem pieces_of_none {prev : Option α} {a : α} {rest : List α} (h : m prev (a :: rest) = none) :
    pieces m prev (a :: rest) = .kept a :: pieces m (some a) rest := by rw [pieces, h]

theorem pieces_of_some (hm : Proper m) {prev : Option α} {w rest : List α}
    (h : m prev (w ++ rest) = some w.length) :
    pieces m prev (w ++ rest) = .found w :: pieces m w.getLast? rest := by
  cases w with
  | nil => exact absurd (hm.pos _ _ _ h) (by simp)
  | cons a w =>
      rw [List.cons_append, List.length_cons] at h
      rw [List.cons_append, pieces, h]
      simp

theorem sub_nil (m : Pattern α) (put : List α → List α) (prev : Option α) :
    sub m put prev [] = [] := by rw [sub, pieces_nil]; rfl

theorem sub_of_none {prev : Option α} {a : α} {rest : List α} (h : m prev (a :: rest) = none) :
    sub m put prev (a :: rest) = a :: sub m put (some a) rest := by
  rw [sub, pieces_of_none h]
  rfl

theorem sub_of_some (hm : Proper m) {prev : Option α} {w rest : List α}
    (h : m prev (w ++ rest) = some w.length) :
    sub m put prev (w ++ rest) = put w ++ sub m put w.getLast? rest := by
  rw [sub, pieces_of_some hm h]
  rfl

/-- A search by its steps: nothing left, something found, nothing found here. -/
theorem scan_induction (hm : Proper m) {P : Option α → List α → Prop} (nil : ∀ prev, P prev [])
    (found : ∀ prev w rest, w ≠ [] → m prev (w ++ rest) = some w.length → P w.getLast? rest →
      P prev (w ++ rest))
    (kept : ∀ prev a rest, m prev (a :: rest) = none → P (some a) rest → P prev (a :: rest))
    (prev : Option α) (l : List α) : P prev l := by
  induction hlength : l.length using Nat.strong_induction_on generalizing prev l with
  | _ n ih =>
      cases l with
      | nil => exact nil prev
      | cons a rest =>
          cases hfound : m prev (a :: rest) with
          | none =>
              exact kept prev a rest hfound (ih rest.length (by rw [← hlength]; simp)
                (some a) rest rfl)
          | some k =>
              obtain ⟨w, rest', hcut, hne, hmatch⟩ := hm.exists_append hfound
              rw [hcut]
              refine found prev _ _ hne hmatch (ih _ ?_ _ _ rfl)
              rw [← hlength, hcut, List.length_append]
              exact Nat.lt_add_of_pos_left (List.length_pos_iff.mpr hne)

theorem findAll_of_none {prev : Option α} {a : α} {rest : List α} (h : m prev (a :: rest) = none) :
    findAll m prev (a :: rest) = findAll m (some a) rest := by
  rw [findAll, pieces_of_none h]
  rfl

theorem findAll_of_some (hm : Proper m) {prev : Option α} {w rest : List α}
    (h : m prev (w ++ rest) = some w.length) :
    findAll m prev (w ++ rest) = w :: findAll m w.getLast? rest := by
  rw [findAll, pieces_of_some hm h]
  rfl

/-- Putting back what was found leaves the list. -/
theorem sub_eq_self_of_findAll (hm : Proper m) (prev : Option α) (l : List α) :
    (∀ w ∈ findAll m prev l, put w = w) → sub m put prev l = l := by
  induction prev, l using scan_induction hm with
  | nil prev => exact fun _ => sub_nil m put prev
  | found prev w rest hne hfound ih =>
      intro h
      rw [findAll_of_some hm hfound] at h
      rw [sub_of_some hm hfound, h w List.mem_cons_self, ih fun v hv =>
        h v (List.mem_cons_of_mem _ hv)]
  | kept prev a rest hnone ih =>
      intro h
      rw [findAll_of_none hnone] at h
      rw [sub_of_none hnone, ih h]

/-- Nothing found anywhere leaves the list. -/
theorem sub_eq_self {l : List α} (h : ∀ s, s <:+ l → ∀ prev, m prev s = none) :
    ∀ prev, sub m put prev l = l := by
  induction l with
  | nil => exact fun prev => sub_nil m put prev
  | cons a l ih =>
      intro prev
      rw [sub_of_none (h _ (List.suffix_refl _) prev), ih fun s hs =>
        h s (hs.trans (List.suffix_cons a l))]

/-- Two parts are searched apart, where what is found in the first does not depend on the second. -/
theorem sub_append (hm : Proper m) {a b : List α}
    (h : ∀ s, s <:+ a → s ≠ [] → ∀ prev, m prev (s ++ b) = m prev s) (prev : Option α) :
    ∃ prev', sub m put prev (a ++ b) = sub m put prev a ++ sub m put prev' b := by
  revert h
  induction prev, a using scan_induction hm with
  | nil prev =>
      intro _
      exact ⟨prev, by rw [sub_nil]; rfl⟩
  | found prev w rest hne hfound ih =>
      intro h
      have hwhole : m prev (w ++ (rest ++ b)) = some w.length := by
        rw [← List.append_assoc, h _ (List.suffix_refl _) (by simp [hne]), hfound]
      obtain ⟨prev', hrest⟩ := ih fun s hs => h s (hs.trans (List.suffix_append w rest))
      exact ⟨prev', by rw [List.append_assoc, sub_of_some hm hwhole, hrest, sub_of_some hm hfound, List.append_assoc]⟩
  | kept prev a rest hnone ih =>
      intro h
      have hwhole : m prev (a :: (rest ++ b)) = none :=
        (h _ (List.suffix_refl _) (by simp) prev).trans hnone
      obtain ⟨prev', hrest⟩ := ih fun s hs => h s (hs.trans (List.suffix_cons a rest))
      exact ⟨prev', by rw [List.cons_append, sub_of_none hwhole, hrest, sub_of_none hnone, List.cons_append]⟩

/-- What stands before does not matter to a pattern that does not look at it. -/
theorem sub_prev (hm : Proper m) (h : ∀ p q l, m p l = m q l) (prev prev' : Option α) (l : List α) :
    sub m put prev l = sub m put prev' l := by
  cases l with
  | nil => rw [sub_nil, sub_nil]
  | cons a rest =>
      cases hfound : m prev (a :: rest) with
      | none => rw [sub_of_none hfound, sub_of_none ((h prev' prev _).trans hfound)]
      | some n =>
          obtain ⟨w, rest', hcut, -, hmatch⟩ := hm.exists_append hfound
          rw [hcut, sub_of_some hm hmatch, sub_of_some hm ((h prev' prev _).trans hmatch)]

section Heads

variable (hm : Proper m)
  (hput : ∀ prev w rest, m prev (w ++ rest) = some w.length → (put w).head? = w.head?)

include hm hput

/-- What is put in keeps its first element: so does the list. -/
theorem head?_sub (prev : Option α) (l : List α) : (sub m put prev l).head? = l.head? := by
  induction prev, l using scan_induction hm with
  | nil prev => rw [sub_nil]
  | found prev w rest hne hfound ih =>
      have hhead := hput prev w rest hfound
      rw [sub_of_some hm hfound, List.head?_append, hhead, List.head?_append]
      cases w with
      | nil => exact absurd rfl hne
      | cons a w => rfl
  | kept prev a rest hnone ih => rw [sub_of_none hnone]; rfl

/-- A run of elements at which nothing is found stays, and what follows it is searched as before. -/
theorem takeWhile_dropWhile_sub {P : α → Bool}
    (hP : ∀ prev w rest, m prev (w ++ rest) = some w.length → ∀ a ∈ w.head?, P a = false)
    (prev : Option α) (l : List α) : (sub m put prev l).takeWhile P = l.takeWhile P ∧
      ∃ prev', (sub m put prev l).dropWhile P = sub m put prev' (l.dropWhile P) := by
  induction prev, l using scan_induction hm with
  | nil prev => exact ⟨by rw [sub_nil], prev, by rw [sub_nil, List.dropWhile_nil, sub_nil]⟩
  | found prev w rest hne hfound ih =>
      obtain ⟨a, w, rfl⟩ := List.exists_cons_of_ne_nil hne
      have ha : P a = false := hP prev _ rest hfound a rfl
      have hhead := hput prev _ rest hfound
      obtain ⟨tail, htail⟩ : ∃ tail, put (a :: w) = a :: tail := by
        cases hlist : put (a :: w) with
        | nil => simp [hlist] at hhead
        | cons b tail =>
            rw [hlist, List.head?_cons, List.head?_cons, Option.some.injEq] at hhead
            exact ⟨tail, by rw [hhead]⟩
      have hsub := @sub_of_some _ _ put hm _ _ _ hfound
      rw [htail] at hsub
      refine ⟨?_, prev, ?_⟩
      · rw [hsub]
        simp [ha]
      · rw [List.cons_append, List.dropWhile_cons_of_neg (by simp [ha]), ← List.cons_append, hsub,
          List.cons_append, List.dropWhile_cons_of_neg (by simp [ha])]
  | kept prev a rest hnone ih =>
      obtain ⟨htake, prev', hdrop⟩ := ih
      rw [sub_of_none hnone]
      by_cases ha : P a = true
      · exact ⟨by rw [List.takeWhile_cons_of_pos ha, List.takeWhile_cons_of_pos ha, htake], prev',
          by rw [List.dropWhile_cons_of_pos ha, List.dropWhile_cons_of_pos ha, hdrop]⟩
      · exact ⟨by rw [List.takeWhile_cons_of_neg ha, List.takeWhile_cons_of_neg ha], prev,
          by rw [List.dropWhile_cons_of_neg ha, List.dropWhile_cons_of_neg ha, sub_of_none hnone]⟩

end Heads

end Scan
