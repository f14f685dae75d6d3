import Mathlib

/-!
# Text cut into lines and stripped

Stripping takes what is blank off both ends: it finds the one middle with no blank end. A text is
cut at Unicode's line ends, and lines that hold none come back whole. -/

namespace Text

/-- The characters of a text are decided one after the other: without these the search may run
through every `Char`. -/
instance (priority := 2000) decidableBAll {p : Char → Prop} [DecidablePred p] (l : List Char) :
    Decidable (∀ c ∈ l, p c) := List.decidableBAll p l

instance (priority := 2000) decidableForallMem {p : Char → Prop} [DecidablePred p]
    (o : Option Char) : Decidable (∀ c ∈ o, p c) := Option.decidableForallMem o

/-! ### Stripping -/

section Strip

variable {α : Type*} {blank : α → Bool} {l m : List α}

/-- What is left without the blank ends. -/
def strip (blank : α → Bool) (l : List α) : List α := (l.dropWhile blank).rdropWhile blank

/-- Neither end is blank. -/
structure Stripped (blank : α → Bool) (l : List α) : Prop where
  head : ∀ c ∈ l.head?, blank c = false
  last : ∀ c ∈ l.getLast?, blank c = false

theorem stripped_iff {l : List α} :
    Stripped blank l ↔ l.head?.all (!blank ·) = true ∧ l.getLast?.all (!blank ·) = true := by
  simp only [Option.all_eq_true, Bool.not_eq_true']
  exact ⟨fun h => ⟨h.head, h.last⟩, fun h => ⟨h.1, h.2⟩⟩

instance (l : List α) : Decidable (Stripped blank l) := decidable_of_iff _ stripped_iff.symm

theorem stripped_strip (blank : α → Bool) (l : List α) : Stripped blank (strip blank l) where
  head c hc := by
    obtain ⟨tail, htail⟩ := List.rdropWhile_prefix blank (l.dropWhile blank)
    obtain ⟨rest, hrest⟩ := List.head?_eq_some_iff.mp hc
    rw [strip] at hrest
    rw [hrest, List.cons_append] at htail
    have hdrop := List.head_dropWhile_not blank (l := l) (by rw [← htail]; simp)
    simpa [← htail] using hdrop
  last c hc := by
    have hne : strip blank l ≠ [] := by
      intro hnil
      rw [hnil] at hc
      cases hc
    have hlast := List.rdropWhile_last_not blank (l.dropWhile blank) hne
    rw [List.getLast?_eq_some_getLast hne] at hc
    rw [← Option.some.inj hc, ← Bool.not_eq_true]
    exact hlast

/-- The blank ends and the middle. -/
theorem exists_strip (blank : α → Bool) (l : List α) :
    ∃ a b, (∀ c ∈ a, blank c = true) ∧ (∀ c ∈ b, blank c = true) ∧ l = a ++ strip blank l ++ b := by
  refine ⟨l.takeWhile blank, (l.dropWhile blank).rtakeWhile blank, fun c hc =>
    List.mem_takeWhile_imp hc, fun c hc => List.mem_rtakeWhile_imp hc, ?_⟩
  rw [strip, List.append_assoc, List.rdropWhile_append_rtakeWhile, List.takeWhile_append_dropWhile]

theorem dropWhile_of_head {l : List α} (h : ∀ c ∈ l.head?, blank c = false) (rest : List α)
    (hl : l ≠ []) :
    (l ++ rest).dropWhile blank = l ++ rest := by
  cases l with
  | nil => exact absurd rfl hl
  | cons c l =>
      have hc : blank c = false := h c rfl
      rw [List.cons_append, List.dropWhile_cons_of_neg (by simp [hc])]

/-- Stripping finds the middle. -/
theorem strip_append {a b : List α} (ha : ∀ c ∈ a, blank c = true) (hb : ∀ c ∈ b, blank c = true)
    (hm : Stripped blank m) :
    strip blank (a ++ m ++ b) = m := by
  rw [strip, List.append_assoc, List.dropWhile_append_of_pos ha]
  by_cases hne : m = []
  · subst hne
    rw [List.nil_append, List.dropWhile_eq_nil_iff.mpr hb, List.rdropWhile_nil]
  · rw [dropWhile_of_head hm.head b hne, List.rdropWhile, List.reverse_append,
      List.dropWhile_append_of_pos (fun c hc => hb c (List.mem_reverse.mp hc))]
    have hreverse :=
      @dropWhile_of_head _ blank m.reverse (by rw [List.head?_reverse]; exact hm.last) []
        (by simpa using hne)
    rw [List.append_nil] at hreverse
    rw [hreverse, List.reverse_reverse]

theorem strip_of_stripped (hm : Stripped blank m) : strip blank m = m := by
  have h := @strip_append _ blank m [] [] (by simp) (by simp) hm
  rwa [List.nil_append, List.append_nil] at h

/-- Text that starts where a stripped one starts keeps its first character. -/
theorem head?_strip {r : List α} (h : Stripped blank (l ++ r)) (hne : strip blank l ≠ []) :
    (strip blank l).head? = (l ++ r).head? := by
  obtain ⟨a, b, ha, -, hl⟩ := exists_strip blank l
  cases a with
  | nil =>
      rw [List.nil_append] at hl
      rw [hl.trans rfl, List.append_assoc, List.head?_append_of_ne_nil _ hne, ← hl]
  | cons c a =>
      have hblank := h.head c (by rw [hl]; rfl)
      rw [ha c List.mem_cons_self] at hblank
      cases hblank

/-- Text that ends where a stripped one ends keeps its last character. -/
theorem getLast?_strip {r : List α} (h : Stripped blank (l ++ r)) (hne : strip blank r ≠ []) :
    (strip blank r).getLast? = (l ++ r).getLast? := by
  obtain ⟨a, b, -, hb, hr⟩ := exists_strip blank r
  induction b using List.reverseRecOn with
  | nil =>
      rw [List.append_nil] at hr
      rw [hr.trans rfl, ← List.append_assoc, List.getLast?_append_of_ne_nil _ hne, ← hr]
  | append_singleton b c _ =>
      have hblank := h.last c (by rw [hr]; simp)
      rw [hb c (List.mem_append_right _ List.mem_cons_self)] at hblank
      cases hblank

theorem mem_of_mem_strip {c : α} (h : c ∈ strip blank l) : c ∈ l := by
  obtain ⟨a, b, -, -, hl⟩ := exists_strip blank l
  rw [hl]
  simp [h]

end Strip

/-! ### Lines -/

/-- A character lines end with. -/
def isBreak (c : Char) : Bool :=
  c.toNat ∈ [10, 11, 12, 13, 28, 29, 30, 133, 8232, 8233]

theorem unbroken_iff {l : List Char} :
    (∀ c ∈ l, isBreak c = false) ↔ l.all (!isBreak ·) = true := by
  simp only [List.all_eq_true, Bool.not_eq_true']

/-- The lines of a text; a carriage return and a line feed end one together. -/
def splitLines : List Char → List (List Char)
  | [] => []
  | '\r' :: '\n' :: rest => [] :: splitLines rest
  | c :: rest =>
      if isBreak c then [] :: splitLines rest
      else
        match splitLines rest with
        | [] => [[c]]
        | line :: lines => (c :: line) :: lines

theorem splitLines_cons {c : Char} (h : isBreak c = false) (rest : List Char) :
    splitLines (c :: rest) = match splitLines
      rest with | [] => [[c]] | line :: lines => (c :: line) :: lines := by
  rw [splitLines]
  · rw [h]
    rfl
  · rintro rest' rfl -
    cases h

theorem splitLines_line {line : List Char} (h : ∀ c ∈ line, isBreak c = false) (rest : List Char) :
    splitLines (line ++ '\n' :: rest) = line :: splitLines rest := by
  induction line with
  | nil => rfl
  | cons c line ih =>
      rw [List.cons_append, splitLines_cons (h c List.mem_cons_self), ih fun x hx =>
        h x (List.mem_cons_of_mem _ hx)]

/-- Lines written one after the other are read back. -/
theorem splitLines_unlines {lines : List (List Char)}
    (h : ∀ line ∈ lines, ∀ c ∈ line, isBreak c = false) :
    splitLines (lines.flatMap (· ++ ['\n'])) = lines := by
  induction lines with
  | nil => rfl
  | cons line lines ih =>
      rw [List.flatMap_cons, List.append_assoc]
      exact (splitLines_line (h line List.mem_cons_self) _).trans
        (congrArg _ (ih fun l hl => h l (List.mem_cons_of_mem _ hl)))

/-- A line holds no line end. -/
theorem not_break_of_mem_splitLines {text line : List Char} (h : line ∈ splitLines text) :
    ∀ c ∈ line, isBreak c = false := by
  induction text using splitLines.induct generalizing line with
  | case1 => cases h
  | case2 rest ih =>
      rw [splitLines] at h
      obtain rfl | h := List.mem_cons.mp h
      · simp
      · exact ih h
  | case3 c rest hnot hbreak ih =>
      rw [splitLines, if_pos hbreak] at h
      · obtain rfl | h := List.mem_cons.mp h
        · simp
        · exact ih h
      · exact hnot
  | case4 c rest _ hbreak hrest ih =>
      rw [splitLines_cons (Bool.not_eq_true _ ▸ hbreak), hrest, List.mem_singleton] at h
      subst h
      simpa using hbreak
  | case5 c rest _ hbreak first lines hrest ih =>
      rw [splitLines_cons (Bool.not_eq_true _ ▸ hbreak), hrest] at h
      obtain rfl | h := List.mem_cons.mp h
      · intro x hx
        obtain rfl | hx := List.mem_cons.mp hx
        · simpa using hbreak
        · exact ih (hrest ▸ List.mem_cons_self) x hx
      · exact ih (hrest ▸ List.mem_cons_of_mem _ h)

/-- An end of a line. -/
def IsEnd (e : List Char) : Prop := e = ['\r', '\n'] ∨ ∃ c, e = [c] ∧ isBreak c = true

/-- The lines of a text with their ends. -/
def linesKept : List Char → List (List Char)
  | [] => []
  | '\r' :: '\n' :: rest => ['\r', '\n'] :: linesKept rest
  | c :: rest =>
      if isBreak c then [c] :: linesKept rest
      else
        match linesKept rest with
        | [] => [[c]]
        | line :: lines => (c :: line) :: lines

theorem linesKept_cons {c : Char} (h : isBreak c = false) (rest : List Char) :
    linesKept (c :: rest) = match linesKept
      rest with | [] => [[c]] | line :: lines => (c :: line) :: lines := by
  rw [linesKept]
  · rw [h]
    rfl
  · rintro rest' rfl -
    cases h

theorem linesKept_end {e rest : List Char} (he : IsEnd e)
    (hrest : e = ['\r'] → rest.head? ≠ some '\n') :
    linesKept (e ++ rest) = e :: linesKept rest := by
  rcases he with rfl | ⟨c, rfl, hc⟩
  · rfl
  · rw [List.singleton_append, linesKept, if_pos hc]
    rintro rest' rfl rfl
    exact hrest rfl rfl

/-- A line with its end, and the lines after it. -/
theorem linesKept_line {body e rest : List Char} (hbody : ∀ c ∈ body, isBreak c = false)
    (he : IsEnd e) (hrest : e = ['\r'] → rest.head? ≠ some '\n') :
    linesKept (body ++ e ++ rest) = (body ++ e) :: linesKept rest := by
  induction body with
  | nil => exact linesKept_end he hrest
  | cons c body ih =>
      rw [List.cons_append, List.cons_append, linesKept_cons (hbody c List.mem_cons_self),
        ih fun d hd => hbody d (List.mem_cons_of_mem _ hd)]

theorem linesKept_last {body : List Char} (hne : body ≠ [])
    (hbody : ∀ c ∈ body, isBreak c = false) : linesKept body = [body] := by
  induction body with
  | nil => exact absurd rfl hne
  | cons c body ih =>
      rw [linesKept_cons (hbody c List.mem_cons_self)]
      by_cases hnil : body = []
      · rw [hnil]
        rfl
      · rw [ih hnil fun d hd => hbody d (List.mem_cons_of_mem _ hd)]

/-- A text by its lines: none, a last one without an end, or one with its end and those after it. -/
theorem line_induction {P : List Char → Prop} (nil : P [])
    (last : ∀ body, body ≠ [] → (∀ c ∈ body, isBreak c = false) → P body)
    (line : ∀ body e rest, (∀ c ∈ body, isBreak c = false) → IsEnd e →
      (e = ['\r'] → rest.head? ≠ some '\n') → P rest → P (body ++ e ++ rest))
    (text : List Char) : P text := by
  induction hlength : text.length using Nat.strong_induction_on generalizing text with
  | _ n ih =>
      have hsplit : text.takeWhile (!isBreak ·) ++ text.dropWhile (!isBreak ·) = text :=
        List.takeWhile_append_dropWhile
      have hbody : ∀ c ∈ text.takeWhile (!isBreak ·), isBreak c = false :=
        fun c hc => by simpa using List.mem_takeWhile_imp hc
      cases hrest : text.dropWhile (!isBreak ·) with
      | nil =>
          rw [hrest, List.append_nil] at hsplit
          rw [← hsplit]
          by_cases hnil : text.takeWhile (!isBreak ·) = []
          · rw [hnil]
            exact nil
          · exact last _ hnil hbody
      | cons c rest =>
          have hc : isBreak c = true := by
            have hhead :=
              List.head_dropWhile_not (!isBreak ·)
                (by rw [hrest]; exact List.cons_ne_nil _ _ : text.dropWhile (!isBreak ·) ≠ [])
            simpa [hrest] using hhead
          have hlt : rest.length < n := by
            rw [← hlength, ← hsplit, hrest, List.length_append, List.length_cons]
            omega
          rw [hrest] at hsplit
          by_cases hpair : c = '\r' ∧ rest.head? = some '\n'
          · obtain ⟨rfl, hnewline⟩ := hpair
            obtain ⟨more, rfl⟩ : ∃ more, rest = '\n' :: more := by
              cases rest with
              | nil => simp at hnewline
              | cons d more =>
                  exact ⟨more, by rw [List.head?_cons, Option.some.injEq] at hnewline; rw [hnewline]⟩
            have htext : text = text.takeWhile (!isBreak ·) ++ ['\r', '\n'] ++ more := by
              simpa using hsplit.symm
            rw [htext]
            refine line _ _ more hbody (.inl rfl) (by simp) (ih more.length ?_ more rfl)
            rw [List.length_cons] at hlt
            omega
          · have htext : text = text.takeWhile (!isBreak ·) ++ [c] ++ rest := by
              simpa using hsplit.symm
            rw [htext]
            refine line _ _ rest hbody (.inr ⟨c, rfl, hc⟩) (fun heq hnewline =>
              hpair ⟨by simpa using heq, hnewline⟩) (ih rest.length hlt rest rfl)

theorem flatten_linesKept (text : List Char) : (linesKept text).flatten = text := by
  induction text using line_induction with
  | nil => rfl
  | last body hne hbody => rw [linesKept_last hne hbody]; simp
  | line body e rest hbody he hrest ih => rw [linesKept_line hbody he hrest, List.flatten_cons, ih]

/-- A change within lines: their ends stay, and what is in them holds none. -/
def Within (g : List Char → List Char) : Prop :=
  ∀ body e, (∀ c ∈ body, isBreak c = false) → e = [] ∨ IsEnd e →
    ∃ body', g (body ++ e) = body' ++ e ∧ (∀ c ∈ body', isBreak c = false) ∧
    (body' = [] ↔ body = [])

theorem not_newline_head {body rest : List Char} (hbody : ∀ c ∈ body, isBreak c = false)
    (hne : body ≠ []) : (body ++ rest).head? ≠ some '\n' := by
  intro hhead
  rw [List.head?_append_of_ne_nil _ hne] at hhead
  exact absurd (hbody '\n' (List.mem_of_mem_head? hhead)) (by decide)

/-- Lines changed within are the lines of the text they make. -/
theorem linesKept_map {g : List Char → List Char} (hg : Within g) (text : List Char) :
    linesKept ((linesKept text).map g).flatten = (linesKept text).map g ∧
      (((linesKept text).map g).flatten.head? = some '\n' → text.head? = some '\n') := by
  induction text using line_induction with
  | nil => exact ⟨rfl, by simp [linesKept]⟩
  | last body hne hbody =>
      obtain ⟨body', heq, hbody', hnil⟩ := hg body [] hbody (.inl rfl)
      rw [List.append_nil, List.append_nil] at heq
      have hne' : body' ≠ [] := mt hnil.mp hne
      rw [linesKept_last hne hbody]
      simp only [List.map_cons, List.map_nil, List.flatten_cons, List.flatten_nil,
        List.append_nil, heq]
      refine ⟨linesKept_last hne' hbody', fun h => ?_⟩
      exact absurd (by simpa using h) (@not_newline_head body' [] hbody' hne')
  | line body e rest hbody he hrest ih =>
      obtain ⟨body', heq, hbody', hnil⟩ := hg body e hbody (.inr he)
      have hnext : e = ['\r'] → ((linesKept rest).map g).flatten.head? ≠ some '\n' :=
        fun hreturn hnewline => hrest hreturn (ih.2 hnewline)
      rw [linesKept_line hbody he hrest, List.map_cons, List.flatten_cons, heq]
      refine ⟨by rw [linesKept_line hbody' he hnext, ih.1], fun h => ?_⟩
      by_cases hne : body' = []
      · rw [hne, List.nil_append] at h
        rw [hnil.mp hne, List.nil_append]
        have hne' : e ≠ [] := by
          rcases he with rfl | ⟨c, rfl, -⟩ <;> simp
        rwa [List.head?_append_of_ne_nil _ hne'] at h ⊢
      · rw [List.append_assoc] at h
        exact absurd h (not_newline_head hbody' hne)

/-! ### Words -/

section Words

variable {α : Type*} {blank : α → Bool}

/-- The words between blanks. -/
def words (blank : α → Bool) (l : List α) : List (List α) :=
  (l.splitOnP blank).filter fun w => !w.isEmpty

theorem words_append_blank {c : α} (hc : blank c = true) (l rest : List α) :
    words blank (l ++ c :: rest) = words blank l ++ words blank rest := by
  rw [words, List.splitOnP_append_cons l rest hc, List.filter_append, words, words]

theorem words_nil : words blank ([] : List α) = [] := rfl

theorem words_lead {lead : List α} (h : ∀ c ∈ lead, blank c = true) (l : List α) :
    words blank (lead ++ l) = words blank l := by
  induction lead with
  | nil => rfl
  | cons c lead ih =>
      have hcons := words_append_blank (h c List.mem_cons_self) [] (lead ++ l)
      rw [List.nil_append, words_nil, List.nil_append] at hcons
      rw [List.cons_append, hcons, ih fun d hd => h d (List.mem_cons_of_mem _ hd)]

theorem words_blank {l : List α} (h : ∀ c ∈ l, blank c = true) : words blank l = [] := by
  have hlead := words_lead h []
  rwa [List.append_nil, words_nil] at hlead

theorem words_trail (l : List α) {trail : List α} (h : ∀ c ∈ trail, blank c = true) :
    words blank (l ++ trail) = words blank l := by
  cases trail with
  | nil => rw [List.append_nil]
  | cons c trail =>
      rw [words_append_blank (h c List.mem_cons_self), words_blank fun d hd =>
        h d (List.mem_cons_of_mem _ hd), List.append_nil]

theorem words_strip (l : List α) : words blank (strip blank l) = words blank l := by
  obtain ⟨a, b, ha, hb, heq⟩ := exists_strip blank l
  rw [heq, words_trail _ hb, words_lead ha, ← heq]

/-- A word is one, and what follows it is blank or nothing. -/
theorem words_word {w rest : List α} (hne : w ≠ []) (hw : ∀ c ∈ w, blank c = false)
    (hrest : ∀ c ∈ rest.head?, blank c = true) :
    words blank (w ++ rest) = w :: words blank rest := by
  have hone : words blank w = [w] := by
    rw [words, List.splitOnP_eq_singleton hw]
    simp [hne]
  cases rest with
  | nil => rw [List.append_nil, hone, words_nil]
  | cons c rest =>
      have hc : blank c = true := hrest c rfl
      have hlead := @words_lead _ blank [c] (fun d hd => List.mem_singleton.mp hd ▸ hc) rest
      rw [List.singleton_append] at hlead
      rw [words_append_blank hc, hone, hlead]
      rfl

/-- The first word of a list, where it has one: what is blank before it, and what follows. -/
theorem words_eq_cons {l w : List α} {ws : List (List α)} (h : words blank l = w :: ws) :
    ∃ lead rest, l = lead ++ w ++ rest ∧ (∀ c ∈ lead, blank c = true) ∧ w ≠ [] ∧
    (∀ c ∈ w, blank c = false) ∧
      (∀ c ∈ rest.head?, blank c = true) ∧ words blank rest = ws := by
  have hlead : ∀ c ∈ l.takeWhile blank, blank c = true := fun c hc => List.mem_takeWhile_imp hc
  have hsplit : l.takeWhile blank ++ l.dropWhile blank = l := List.takeWhile_append_dropWhile
  rw [← hsplit, words_lead hlead] at h
  have hword : ∀ c ∈ (l.dropWhile blank).takeWhile (!blank ·), blank c = false :=
    fun c hc => by simpa using List.mem_takeWhile_imp hc
  have hsplit' : (l.dropWhile blank).takeWhile (!blank ·) ++ (l.dropWhile blank).dropWhile
      (!blank ·) = l.dropWhile blank :=
    List.takeWhile_append_dropWhile
  have hne : (l.dropWhile blank).takeWhile (!blank ·) ≠ [] := by
    intro hnil
    rw [List.takeWhile_eq_nil_iff] at hnil
    cases hrest : l.dropWhile blank with
    | nil =>
        rw [hrest, words_nil] at h
        cases h
    | cons c rest =>
        have hc :=
          List.head_dropWhile_not blank
            (by rw [hrest]; exact List.cons_ne_nil _ _ : l.dropWhile blank ≠ [])
        simp only [hrest, List.head_cons] at hc
        have hpos := hnil (by rw [hrest]; simp)
        simp [hrest, hc] at hpos
  have hrest : ∀ c ∈ ((l.dropWhile blank).dropWhile (!blank ·)).head?, blank c = true := by
    intro c hc
    cases hlist : (l.dropWhile blank).dropWhile (!blank ·) with
    | nil => simp [hlist] at hc
    | cons d rest =>
        have hd :=
          List.head_dropWhile_not (!blank ·)
            (by rw [hlist]; exact List.cons_ne_nil _ _ : (l.dropWhile blank).dropWhile (!blank ·) ≠ [])
        rw [hlist, List.head?_cons, Option.mem_some_iff] at hc
        simpa [hlist, hc] using hd
  rw [← hsplit', words_word hne hword hrest] at h
  obtain ⟨rfl, rfl⟩ := List.cons.inj h
  exact ⟨l.takeWhile blank, (l.dropWhile blank).dropWhile
    (!blank ·), by rw [List.append_assoc, hsplit', hsplit], hlead, hne, hword, hrest, rfl⟩

end Words

/-- What a list is cut at is in none of the parts. -/
theorem not_mem_of_mem_splitOn {α : Type*} [DecidableEq α] {a : α} :
    ∀ {xs l : List α}, l ∈ xs.splitOn a → a ∉ l
  | [], l, h => by
      rw [List.splitOn_nil, List.mem_singleton] at h
      rw [h]
      exact List.not_mem_nil
  | x :: xs, l, h => by
      rw [List.splitOn_cons_eq_if_modifyHead] at h
      cases hrest : xs.splitOn a with
      | nil => exact absurd hrest (List.splitOn_ne_nil a xs)
      | cons first rest =>
          have ih : ∀ l ∈ first :: rest, a ∉ l := fun l hl => not_mem_of_mem_splitOn (hrest ▸ hl)
          split at h
          · rw [hrest] at h
            rcases List.mem_cons.mp h with rfl | h
            · exact List.not_mem_nil
            · exact ih l h
          · rename_i hx
            rw [hrest, List.modifyHead_cons] at h
            rcases List.mem_cons.mp h with rfl | h
            · simp only [beq_iff_eq] at hx
              simp [Ne.symm hx, ih first List.mem_cons_self]
            · exact ih l (List.mem_cons_of_mem _ h)

/-! ### Reading a file -/

/-- Line ends as a file opened as text gives them. -/
def universalNewlines : List Char → List Char
  | [] => []
  | '\r' :: '\n' :: rest => '\n' :: universalNewlines rest
  | '\r' :: rest => '\n' :: universalNewlines rest
  | c :: rest => c :: universalNewlines rest

theorem universalNewlines_eq_self :
    ∀ {text : List Char}, '\r' ∉ text → universalNewlines text = text
  | [], _ => rfl
  | c :: rest, h => by
      have hc : c ≠ '\r' := fun heq => h (heq ▸ List.mem_cons_self)
      rw [universalNewlines, universalNewlines_eq_self fun hmem => h (List.mem_cons_of_mem _ hmem)]
      · exact fun rest' heq _ => hc heq
      · exact hc

theorem return_not_mem_universalNewlines (text : List Char) : '\r' ∉ universalNewlines text := by
  induction text using universalNewlines.induct with
  | case1 => simp [universalNewlines]
  | case2 rest ih => simpa [universalNewlines] using ih
  | case3 rest hnext ih =>
      rw [universalNewlines]
      · simpa using ih
      · exact hnext
  | case4 c rest hpair hreturn ih =>
      rw [universalNewlines]
      · simp only [List.mem_cons, not_or]
        exact ⟨Ne.symm hreturn, ih⟩
      · exact hpair
      · exact hreturn

/-- The characters of words: `\w` of a regular expression, which is known of ASCII. -/
structure WordChars where
  isWord : Char → Bool
  ascii : ∀ c : Char, c.toNat < 128 → isWord c = (c.isAlphanum || c == '_')

end Text
