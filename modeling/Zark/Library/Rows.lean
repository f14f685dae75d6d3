import Zark.Library.Text

/-!
# Rows of fields

A table as text: a row is a line, its fields joined by tabs. Rows that can be told apart as lines,
whose fields hold no tab, are read back as they were written, and a number in decimal digits as it
was.
-/

namespace Text

/-! ### Lines -/

/-- The lines of a text that are not blank, once its blank ends are off. -/
def lines (blank : Char → Bool) (text : List Char) : List (List Char) :=
  (splitLines (strip blank text)).filter fun line => strip blank line ≠ []

/-- Lines, each with its end. -/
def unlines (rows : List (List Char)) : List Char := rows.flatMap (· ++ ['\n'])

/-- A line that stands in a text as it is: it is cut nowhere, and neither end of it is blank. -/
structure IsLine (blank : Char → Bool) (line : List Char) : Prop where
  unbroken : ∀ c ∈ line, isBreak c = false
  ne_nil : line ≠ []
  stripped : Stripped blank line

variable {blank : Char → Bool} {line : List Char} {rows : List (List Char)}

theorem splitLines_last (h : ∀ c ∈ line, isBreak c = false) (hne : line ≠ []) :
    splitLines line = [line] := by
  induction line with
  | nil => exact absurd rfl hne
  | cons c line ih =>
      rw [splitLines_cons (h c List.mem_cons_self)]
      cases line with
      | nil => rfl
      | cons d line => rw [ih (fun x hx => h x (List.mem_cons_of_mem _ hx)) (by simp)]

/-- Rows without the last line end. -/
theorem exists_unlines (hne : rows ≠ []) : ∃ text, unlines rows = text ++ ['\n'] ∧
    ((∀ row ∈ rows, ∀ c ∈ row, isBreak c = false) → (∀ row ∈ rows, row ≠ []) →
      splitLines text = rows) ∧
      ((∀ row ∈ rows, IsLine blank row) → Stripped blank text) := by
  induction rows with
  | nil => exact absurd rfl hne
  | cons row rows ih =>
      cases rows with
      | nil =>
          refine ⟨row, by simp [unlines], fun hbreak hrow => ?_, fun h =>
            (h row List.mem_cons_self).stripped⟩
          exact splitLines_last (hbreak row List.mem_cons_self) (hrow row List.mem_cons_self)
      | cons next rows =>
          obtain ⟨text, htext, hsplit, hstripped⟩ := ih (by simp)
          refine ⟨row ++ '\n' :: text, ?_, fun hbreak hrow => ?_, fun h => ?_⟩
          · rw [unlines, List.flatMap_cons]
            change row ++ ['\n'] ++ unlines (next :: rows) = _
            rw [htext]
            simp
          · rw [splitLines_line (hbreak row List.mem_cons_self),
              hsplit (fun r hr => hbreak r (List.mem_cons_of_mem _ hr))
              fun r hr => hrow r (List.mem_cons_of_mem _ hr)]
          · have hrow := h row List.mem_cons_self
            have hrest := hstripped fun r hr => h r (List.mem_cons_of_mem _ hr)
            have htextne : text ≠ [] := by
              rintro rfl
              have hnext := (h next (List.mem_cons_of_mem _ List.mem_cons_self)).ne_nil
              have hlength := congrArg List.length htext
              rw [unlines, List.flatMap_cons] at hlength
              simp only [List.length_append, List.length_singleton, List.length_nil] at hlength
              exact hnext (List.length_eq_zero_iff.mp (by omega))
            refine ⟨fun c hc => hrow.stripped.head c ?_, fun c hc => hrest.last c ?_⟩
            · rwa [List.head?_append_of_ne_nil _ hrow.ne_nil] at hc
            · rwa [List.append_cons, List.getLast?_append_of_ne_nil _ htextne] at hc

/-- Rows written one after the other are read back. -/
theorem lines_unlines (hnewline : blank '\n' = true) (h : ∀ row ∈ rows, IsLine blank row) :
    lines blank (unlines rows) = rows := by
  by_cases hne : rows = []
  · rw [hne]
    rfl
  · obtain ⟨text, htext, hsplit, hstripped⟩ := @exists_unlines blank rows hne
    have hstrip : strip blank (unlines rows) = text := by
      have hmiddle :=
        strip_append (a := []) (b := ['\n']) (by simp) (by simpa using hnewline) (hstripped h)
      rwa [List.nil_append, ← htext] at hmiddle
    rw [lines, hstrip, hsplit (fun row hrow => (h row hrow).unbroken) fun row hrow =>
      (h row hrow).ne_nil, List.filter_eq_self]
    intro row hrow
    rw [strip_of_stripped (h row hrow).stripped]
    exact decide_eq_true (h row hrow).ne_nil

/-! ### Fields -/

/-- Fields joined by tabs. -/
def row (fields : List (List Char)) : List Char := ['\t'].intercalate fields

theorem splitOn_row {fields : List (List Char)} (hne : fields ≠ []) (h : ∀ f ∈ fields, '\t' ∉ f) :
    (row fields).splitOn '\t' = fields :=
  List.splitOn_intercalate '\t' h hne

/-- What stands in a row: a text with no tab and no line end. -/
def IsField (f : List Char) : Prop := '\t' ∉ f ∧ ∀ c ∈ f, isBreak c = false

theorem row_cons (f : List Char) {fields : List (List Char)} (hne : fields ≠ []) :
    row (f :: fields) = f ++ '\t' :: row fields := by
  cases fields with
  | nil => exact absurd rfl hne
  | cons g fields => simp [row, List.intercalate, List.intersperse]

theorem row_singleton (f : List Char) : row [f] = f := by simp [row, List.intercalate]

theorem unbroken_row {fields : List (List Char)} (h : ∀ f ∈ fields, IsField f) :
    ∀ c ∈ row fields, isBreak c = false := by
  induction fields with
  | nil => simp [row, List.intercalate]
  | cons f fields ih =>
      by_cases hne : fields = []
      · rw [hne, row_singleton]
        exact (h f List.mem_cons_self).2
      · rw [row_cons f hne]
        intro c hc
        obtain hc | hc := List.mem_append.mp hc
        · exact (h f List.mem_cons_self).2 c hc
        · obtain rfl | hc := List.mem_cons.mp hc
          · decide
          · exact ih (fun g hg => h g (List.mem_cons_of_mem _ hg)) c hc

theorem getLast?_row {fields : List (List Char)} {f : List Char} (hlast : fields.getLast? = some f)
    (hf : f ≠ []) :
    (row fields).getLast? = f.getLast? := by
  induction fields with
  | nil => cases hlast
  | cons g fields ih =>
      by_cases hne : fields = []
      · rw [hne] at hlast ⊢
        rw [row_singleton, show g = f from Option.some.inj hlast]
      · rw [row_cons g hne, List.append_cons]
        rw [List.getLast?_cons_of_ne_nil hne] at hlast
        have hrow := ih hlast
        have hrowne : row fields ≠ [] := by
          intro hnil
          rw [hnil] at hrow
          exact hf (List.getLast?_eq_none_iff.mp hrow.symm)
        rw [List.getLast?_append_of_ne_nil _ hrowne, hrow]

/-- A row whose first field starts, and whose last one ends, with what is not blank is a line. -/
theorem isLine_row {fields : List (List Char)} {first last : List Char}
    (h : ∀ f ∈ fields, IsField f) (hfirst : fields.head? = some first)
    (hhead : ∃ c ∈ first.head?, blank c = false) (hlast : fields.getLast? = some last)
    (hend : ∃ c ∈ last.getLast?, blank c = false) :
    IsLine blank (row fields) := by
  obtain ⟨c, hc, hblank⟩ := hhead
  obtain ⟨d, hd, hdblank⟩ := hend
  have hlastne : last ≠ [] := by
    rintro rfl
    cases hd
  have hrowlast := getLast?_row hlast hlastne
  have hrowhead : (row fields).head? = some c := by
    obtain ⟨fields, rfl⟩ := List.head?_eq_some_iff.mp hfirst
    obtain ⟨rest, rfl⟩ := List.head?_eq_some_iff.mp hc
    by_cases hne : fields = []
    · rw [hne, row_singleton]
      rfl
    · rw [row_cons _ hne]
      rfl
  refine ⟨unbroken_row h, fun hnil => by simp [hnil] at hrowhead, fun x hx => ?_, fun x hx => ?_⟩
  · rw [hrowhead] at hx
    cases hx
    exact hblank
  · rw [hrowlast, hd] at hx
    cases hx
    exact hdblank

/-! ### Numbers -/

/-- A number in decimal digits. -/
def number? (l : List Char) : Option ℕ :=
  if l ≠ [] ∧ ∀ c ∈ l, c.isDigit = true then some (Nat.ofDigitChars 10 l 0) else none

theorem digits_ne_nil (n : ℕ) : Nat.toDigits 10 n ≠ [] := Nat.toDigits_ne_nil

theorem isDigit_of_mem_digits {n : ℕ} {c : Char} (h : c ∈ Nat.toDigits 10 n) : c.isDigit = true :=
  Nat.isDigit_of_mem_toDigits (by decide) (by decide) h

theorem number?_digits (n : ℕ) : number? (Nat.toDigits 10 n) = some n := by
  rw [number?, if_pos ⟨digits_ne_nil n, fun c hc => isDigit_of_mem_digits hc⟩,
    Nat.ofDigitChars_toDigits (by decide) (by decide)]

/-! ### Order -/

section Order

variable {α : Type*} (key : α → ℕ)

/-- Two lists in order that have the same elements, in the same order, under each key are one
list. -/
theorem eq_of_filter_eq {l m : List α} (hl : l.Pairwise fun a b => key a ≤ key b)
    (hm : m.Pairwise fun a b => key a ≤ key b)
    (h : ∀ k, l.filter (key · = k) = m.filter (key · = k)) : l = m := by
  induction l generalizing m with
  | nil =>
      cases m with
      | nil => rfl
      | cons b m => simpa using h (key b)
  | cons a l ih =>
      obtain ⟨ha, hl⟩ := List.pairwise_cons.mp hl
      cases m with
      | nil => simpa using h (key a)
      | cons b m =>
          obtain ⟨hb, hrest⟩ := List.pairwise_cons.mp hm
          have hle : key a ≤ key b := by
            have hmem : b ∈ (a :: l).filter (key · = key b) := by
              rw [h (key b)]
              simp
            obtain hba | hbl := List.mem_cons.mp (List.mem_filter.mp hmem).1
            · rw [hba]
            · exact ha b hbl
          have hge : key b ≤ key a := by
            have hmem : a ∈ (b :: m).filter (key · = key a) := by
              rw [← h (key a)]
              simp
            obtain hab | ham := List.mem_cons.mp (List.mem_filter.mp hmem).1
            · rw [hab]
            · exact hb a ham
          have hkey : key b = key a := le_antisymm hge hle
          have hhead := h (key a)
          rw [List.filter_cons_of_pos (by simp), List.filter_cons_of_pos (by simp [hkey]),
            List.cons.injEq] at hhead
          obtain ⟨rfl, -⟩ := hhead
          refine congrArg (a :: ·) (ih hl hrest fun k => ?_)
          by_cases hk : key a = k
          · have hboth := h k
            rwa [List.filter_cons_of_pos (by simp [hk]), List.filter_cons_of_pos (by simp [hk]),
              List.cons.injEq, and_iff_right rfl] at hboth
          · have hboth := h k
            rwa [List.filter_cons_of_neg (by simp [hk]),
              List.filter_cons_of_neg (by simp [hk])] at hboth

/-- Sorting leaves the elements under one key as they come. -/
theorem filter_insertionSort (l : List α) (k : ℕ) :
    (l.insertionSort fun a b => key a ≤ key b).filter (key · = k) = l.filter (key · = k) := by
  let _ : Std.Total fun a b : α => key a ≤ key b := ⟨fun _ _ => le_total _ _⟩
  let _ : IsTrans α fun a b => key a ≤ key b := ⟨fun _ _ _ => le_trans⟩
  have hsame : (l.filter (key · = k)).Pairwise fun a b => key a ≤ key b := by
    refine List.pairwise_of_forall_mem_list fun a ha b hb => ?_
    have hka : key a = k := by simpa using (List.mem_filter.mp ha).2
    have hkb : key b = k := by simpa using (List.mem_filter.mp hb).2
    rw [hka, hkb]
  have hsub :=
    (List.sublist_insertionSort (r := fun a b : α => key a ≤ key b) hsame
      List.filter_sublist).filter (key · = k)
  rw [List.filter_filter] at hsub
  simp only [Bool.and_self] at hsub
  exact (hsub.eq_of_length ((List.perm_insertionSort _ l).filter _).length_eq.symm).symm

/-- Sorting puts a list in its order, whatever order it comes in, as long as what is under one key
comes in the list's. -/
theorem insertionSort_eq {l m : List α} (hm : m.Pairwise fun a b => key a ≤ key b)
    (h : ∀ k, l.filter (key · = k) = m.filter (key · = k)) :
    (l.insertionSort fun a b => key a ≤ key b) = m := by
  let _ : Std.Total fun a b : α => key a ≤ key b := ⟨fun _ _ => le_total _ _⟩
  let _ : IsTrans α fun a b => key a ≤ key b := ⟨fun _ _ _ => le_trans⟩
  exact eq_of_filter_eq key (List.pairwise_insertionSort _ l) hm fun k =>
    (filter_insertionSort key l k).trans (h k)

end Order

end Text
