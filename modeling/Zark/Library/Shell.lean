import Mathlib

/-!
# The words of a shell command

What POSIX's shell makes of a string that is one simple command of literal words: it cuts it at
blanks, takes quotes off, and replaces a pattern by the paths it matches. What a pattern matches and
which paths there are is given. An expansion, an operator or a second command makes the words more
than the string's, and reading it gives none.

Every character but a quote weighs one. Reading puts no weight in, so a string as heavy as the words
it is read as holds nothing but them and the blanks between them.
-/

namespace Shell

/-- A word's characters, each with whether it was quoted. -/
abbrev Word := List (Char × Bool)

def Word.text (w : Word) : List Char := w.map Prod.fst

def isBlank (c : Char) : Bool := decide (c ∈ [' ', '\t'])

/-- What begins an operator or an expansion. -/
def isActive (c : Char) : Bool :=
  decide (c ∈ ['|', '&', ';', '<', '>', '(', ')', '$', Char.ofNat 96])

/-- A character that stands for itself within a word. -/
def isPlain (c : Char) : Bool :=
  !isBlank c && !isActive c && decide (c ∉ ['\n', '\'', '"', '\\', '\x00'])

/-- Nothing is run by what follows: blanks, ends of lines and comments. -/
def idle : Bool → List Char → Bool
  | _, [] => true
  | comment, c :: rest =>
      if c = '\n' then idle false rest
      else if comment || isBlank c then idle comment rest
      else c == '#' && idle true rest

/-- Where the reading stands: outside quotes, after a backslash, in single or in double quotes,
after a backslash in these. -/
inductive Mode where
  | bare
  | escape
  | single
  | double
  | escapeIn
  deriving DecidableEq

/-- The word read so far with more characters. -/
def push (w : Option Word) (more : Word) : Option Word := some (w.getD [] ++ more)

/-- What a character does: it takes the word on, ends it, ends the command (with a comment or a
line), or makes it no simple command of literal words. -/
inductive Next where
  | go (m : Mode) (w : Option Word)
  | cut
  | stop (comment : Bool)
  | fail

def next (w : Option Word) (c : Char) : Mode → Next
  | .bare =>
      if isBlank c then .cut
      else if c = '\n' then .stop false
      else if c = '#' ∧ w = none then .stop true
      else if isActive c ∨ c = '~' ∧ w = none then .fail
      else if c = '\'' then .go .single (push w [])
      else if c = '"' then .go .double (push w [])
      else if c = '\\' then .go .escape w
      else .go .bare (push w [(c, false)])
  | .escape => if c = '\n' then .go .bare w else .go .bare (push w [(c, true)])
  | .single => if c = '\'' then .go .bare w else .go .single (push w [(c, true)])
  | .double =>
      if c = '"' then .go .bare w
      else if c = '$' ∨ c = Char.ofNat 96 then .fail
      else if c = '\\' then .go .escapeIn w
      else .go .double (push w [(c, true)])
  | .escapeIn =>
      if c = '\n' then .go .double w
      else if c ∈ ['$', Char.ofNat 96, '"', '\\'] then .go .double (push w [(c, true)])
      else .go .double (push w [('\\', true), (c, true)])

/-- The words of what is left, the one begun first. -/
def scan : Mode → Option Word → List Char → Option (List Word)
  | m, w, [] => if m = .bare then some w.toList else none
  | m, w, c :: rest =>
      match next w c m with
      | .go m w => scan m w rest
      | .cut => (scan .bare none rest).map (w.toList ++ ·)
      | .stop comment => if idle comment rest then some w.toList else none
      | .fail => none

/-- The words of a command, before any pattern is replaced; a command holds no NUL. -/
def read (command : List Char) : Option (List Word) :=
  if '\x00' ∈ command then none else scan .bare none command

/-- An unquoted character that may make its word a pattern. -/
def isPatternChar (p : Char × Bool) : Bool := !p.2 && decide (p.1 ∈ ['*', '?', '['])

/-- A word, or the paths it matches where it is a pattern and matches any. -/
def expand (matching : Word → List Char → Bool) (files : List (List Char)) (w : Word) :
    List (List Char) :=
  if w.any isPatternChar then
    match files.filter (matching w) with
    | [] => [w.text]
    | found => found
  else [w.text]

/-- The fields a command is run with. -/
def fields (matching : Word → List Char → Bool) (files : List (List Char)) (command : List Char) :
    Option (List (List Char)) :=
  (read command).map (·.flatMap (expand matching files))

/-! ### Weight -/

/-- The characters that are no single quote. -/
def size (l : List Char) : ℕ := l.countP (· ≠ '\'')

/-- What the words weigh, each with one blank after it. -/
def weight (ws : List Word) : ℕ := (ws.map fun w => size w.text + 1).sum

/-- What the word begun weighs. -/
def begun (w : Option Word) : ℕ := size (w.getD []).text

/-- A backslash in double quotes may still stand for itself. -/
def credit : Mode → ℕ
  | .escapeIn => 1
  | .bare | .escape | .single | .double => 0

theorem size_cons (c : Char) (l : List Char) :
    size (c :: l) = size l + if c = '\'' then 0 else 1 := by
  rw [size, List.countP_cons, size]
  by_cases hc : c = '\'' <;> simp [hc]

theorem size_append (a b : List Char) : size (a ++ b) = size a + size b := List.countP_append

theorem size_cons_quote (l : List Char) : size ('\'' :: l) = size l := by
  rw [size_cons, if_pos rfl, Nat.add_zero]

theorem begun_none : begun none = 0 := rfl

theorem begun_push (w : Option Word) (more : Word) :
    begun (push w more) = begun w + size more.text := by
  rw [push, begun, Option.getD_some, Word.text, List.map_append, ← Word.text, ← Word.text,
    size_append, begun]

theorem begun_push_nil (w : Option Word) : begun (push w []) = begun w := by rw [begun_push]; rfl

theorem weight_toList (w : Option Word) : weight w.toList ≤ begun w + 1 := by
  cases w with
  | none => exact Nat.zero_le _
  | some w => exact Nat.le_refl _

theorem weight_append (w : Option Word) (ws : List Word) :
    weight (w.toList ++ ws) = weight w.toList + weight ws := by
  rw [weight, List.map_append, List.sum_append, weight, weight]

theorem size_singleton (c : Char) : size [c] = if c = '\'' then 0 else 1 := by
  rw [size_cons, size, List.countP_nil, Nat.zero_add]

theorem isBlank_of_cut {w : Option Word} {c : Char} {m : Mode} (h : next w c m = .cut) :
    m = .bare ∧ isBlank c = true := by
  cases m <;> simp only [next] at h <;> split_ifs at h
  exact ⟨rfl, ‹_›⟩

theorem ne_quote_of_isBlank {c : Char} (h : isBlank c = true) : c ≠ '\'' := by
  rintro rfl
  revert h
  decide

/-- A character adds what it weighs, or less. -/
theorem next_le {w w' : Option Word} {c : Char} {m m' : Mode} (h : next w c m = .go m' w') :
    begun w' + credit m' ≤ begun w + credit m + size [c] := by
  have hnone : size (Word.text []) = 0 := rfl
  have hone : ∀ q, size (Word.text [(c, q)]) = size [c] := fun _ => rfl
  have htwo : size (Word.text [('\\', true), (c, true)]) = size [c] + 1 := size_cons _ _
  have hslash : size ['\\'] = 1 := rfl
  cases m <;> simp only [next] at h <;> split_ifs at h <;> cases h <;>
    simp only [begun_push, hnone, hone, htwo, credit] <;> try omega
  subst_vars
  omega

/-- Reading puts no weight in. -/
theorem weight_le {m : Mode} {w : Option Word} {l : List Char} {ws : List Word}
    (h : scan m w l = some ws) : weight ws ≤ begun w + size l + 1 + credit m := by
  induction l generalizing m w ws with
  | nil =>
      rw [scan] at h
      split at h
      · cases h
        exact Nat.le_trans (weight_toList w) (by omega)
      · cases h
  | cons c rest ih =>
      have hsize : size (c :: rest) = size [c] + size rest := size_append [c] rest
      rw [scan] at h
      split at h
      · rename_i m' w' hnext
        have hstep := next_le hnext
        have hrest := ih h
        omega
      · rename_i hnext
        obtain ⟨rfl, hblank⟩ := isBlank_of_cut hnext
        obtain ⟨vs, hvs, rfl⟩ := Option.map_eq_some_iff.mp h
        have hone : size [c] = 1 := by rw [size_singleton, if_neg (ne_quote_of_isBlank hblank)]
        have hrest := ih hvs
        have hword := weight_toList w
        simp only [begun_none, credit] at hrest
        simp only [weight_append, hsize, hone, credit]
        omega
      · split at h
        · cases h
          exact Nat.le_trans (weight_toList w) (by omega)
        · cases h
      · cases h

/-- Outside double quotes and after no backslash. -/
def IsOpen (m : Mode) : Prop := m = .bare ∨ m = .single

def NoQuote (w : Option Word) : Prop := '\'' ∉ (w.getD []).text

theorem noQuote_push {w : Option Word} {c : Char} (hw : NoQuote w) (hc : c ≠ '\'') (q : Bool) :
    NoQuote (push w [(c, q)]) := by
  simp only [NoQuote, push, Option.getD_some, Word.text, List.map_append, List.mem_append,
    List.map_singleton, List.mem_singleton, not_or]
  exact ⟨hw, fun heq => hc heq.symm⟩

/-- A character that adds all it weighs leads into no double quotes and takes in no quote. -/
theorem next_tight {w w' : Option Word} {c : Char} {m m' : Mode} (hm : IsOpen m)
    (h : next w c m = .go m' w') (htight : begun w + size [c] ≤ begun w' + credit m') :
    IsOpen m' ∧ (NoQuote w → NoQuote w') ∧
    (m = .bare → c ≠ '\'' → c ≠ '\x00' → m' = .bare ∧ isPlain c = true) := by
  have hdouble : size ['"'] = 1 := rfl
  have hslash : size ['\\'] = 1 := rfl
  rcases hm with rfl | rfl <;> simp only [next] at h <;> split_ifs at h <;> cases h
  -- outside quotes: a quote, a double quote, a backslash or a character of the word
  · subst_vars
    exact ⟨.inr rfl, fun hw => by rwa [NoQuote, push, Option.getD_some, List.append_nil],
      fun _ hc => absurd rfl hc⟩
  · subst_vars
    rw [begun_push_nil, hdouble, credit] at htight
    omega
  · subst_vars
    rw [hslash, credit] at htight
    omega
  · rename_i hblank hline hcomment hactive hquote hdquote hbackslash
    have hinactive : isActive c = false := Bool.eq_false_iff.mpr fun h => hactive (.inl h)
    refine ⟨.inl rfl, fun hw => noQuote_push hw hquote false, fun _ _ hnul => ⟨rfl, ?_⟩⟩
    simp [isPlain, hblank, hinactive, hline, hquote, hdquote, hbackslash, hnul]
  -- in quotes: the end of them or a character of the word
  · exact ⟨.inl rfl, id, fun h => nomatch h⟩
  · exact ⟨.inr rfl, fun hw => noQuote_push hw ‹_› true, fun h => nomatch h⟩

theorem toList_of_noQuote {w : Option Word} (hw : NoQuote w) : ∀ v ∈ w.toList, '\'' ∉ v.text := by
  cases w with
  | none => simp
  | some w => simpa [NoQuote] using hw

/-- Words as heavy as their string hold no quote. -/
theorem no_quote_of_tight {m : Mode} {w : Option Word} {l : List Char} {ws : List Word}
    (hm : IsOpen m) (hw : NoQuote w) (h : scan m w l = some ws)
    (htight : begun w + size l + 1 ≤ weight ws) : ∀ v ∈ ws, '\'' ∉ v.text := by
  induction l generalizing m w ws with
  | nil =>
      rw [scan] at h
      split at h
      · cases h
        exact toList_of_noQuote hw
      · cases h
  | cons c rest ih =>
      have hsize : size (c :: rest) = size [c] + size rest := size_append [c] rest
      rw [scan] at h
      split at h
      · rename_i m' w' hnext
        have hrest := weight_le h
        obtain ⟨hm', hw', -⟩ := next_tight hm hnext (by omega)
        have hcredit : credit m' = 0 := by rcases hm' with rfl | rfl <;> rfl
        have hstep := next_le hnext
        have hzero : credit m = 0 := by rcases hm with rfl | rfl <;> rfl
        exact ih hm' (hw' hw) h (by omega)
      · rename_i hnext
        obtain ⟨rfl, hblank⟩ := isBlank_of_cut hnext
        obtain ⟨vs, hvs, rfl⟩ := Option.map_eq_some_iff.mp h
        have hword := weight_toList w
        rw [weight_append, hsize, size_singleton, if_neg (ne_quote_of_isBlank hblank)] at htight
        rw [List.forall_mem_append]
        exact ⟨toList_of_noQuote hw, ih (.inl rfl) (by simp [NoQuote, Word.text]) hvs
          (by rw [begun_none]; omega)⟩
      · split at h
        · cases h
          exact toList_of_noQuote hw
        · cases h
      · cases h

/-- Of a string as heavy as its words, what comes before the first quote is plain words and a blank
between each and the next. -/
theorem plain_of_tight {a t : List Char} {w : Option Word} {ws : List Word} (ha : '\'' ∉ a)
    (hnul : '\x00' ∉ a) (h : scan .bare w (a ++ t) = some ws)
    (htight : begun w + size (a ++ t) + 1 ≤ weight ws) :
    (∀ c ∈ a, isPlain c = true ∨ isBlank c = true) ∧ a.countP isBlank + 1 ≤ ws.length := by
  induction a generalizing w ws with
  | nil =>
      refine ⟨by simp, ?_⟩
      cases ws with
      | nil => simp [weight] at htight
      | cons v vs => simp
  | cons c a ih =>
      rw [List.mem_cons, not_or] at ha hnul
      have hsize : size (c :: (a ++ t)) = size [c] + size (a ++ t) := size_append [c] (a ++ t)
      have hone : size [c] = 1 := by rw [size_singleton, if_neg (Ne.symm ha.1)]
      rw [List.cons_append] at h htight
      rw [scan] at h
      split at h
      · rename_i m' w' hnext
        have hrest := weight_le h
        obtain ⟨-, -, hplain⟩ := next_tight (.inl rfl) hnext (by omega)
        obtain ⟨rfl, hc⟩ := hplain rfl (Ne.symm ha.1) (Ne.symm hnul.1)
        have hstep := next_le hnext
        simp only [credit] at hstep
        obtain ⟨hall, hcount⟩ := ih ha.2 hnul.2 h (by omega)
        refine ⟨List.forall_mem_cons.mpr ⟨.inl hc, hall⟩, ?_⟩
        have hblank : isBlank c = false := by
          simp only [isPlain, Bool.and_eq_true, Bool.not_eq_true'] at hc
          exact hc.1.1
        rwa [List.countP_cons_of_neg (by simp [hblank])]
      · rename_i hnext
        obtain ⟨-, hblank⟩ := isBlank_of_cut hnext
        obtain ⟨vs, hvs, rfl⟩ := Option.map_eq_some_iff.mp h
        have hrest := weight_le hvs
        rw [begun_none, credit] at hrest
        rw [weight_append] at htight
        cases w with
        | none =>
            simp only [Option.toList_none, weight, List.map_nil, List.sum_nil, begun_none]
              at htight hrest
            omega
        | some w =>
            have hword : weight [w] = begun (some w) + 1 := rfl
            rw [Option.toList_some, hword] at htight
            obtain ⟨hall, hcount⟩ := ih ha.2 hnul.2 hvs (by rw [begun_none]; omega)
            refine ⟨List.forall_mem_cons.mpr ⟨.inr hblank, hall⟩, ?_⟩
            rw [List.countP_cons_of_pos hblank, Option.toList_some, List.length_append,
              List.length_singleton]
            omega
      · split at h
        · cases h
          have hword := weight_toList w
          omega
        · cases h
      · cases h

/-! ### Words put together -/

def unquoted (l : List Char) : Word := l.map fun c => (c, false)

def quoted (l : List Char) : Word := l.map fun c => (c, true)

@[simp] theorem text_unquoted (l : List Char) : (unquoted l).text = l := by
  simp [unquoted, Word.text, Function.comp_def]

@[simp] theorem text_quoted (l : List Char) : (quoted l).text = l := by
  simp [quoted, Word.text, Function.comp_def]

/-- Words, each with a blank after it. -/
def spaced (front : List (List Char)) : List Char := front.flatMap (· ++ [' '])

/-- A text that begins neither a comment nor a home directory. -/
structure Begins (l : List Char) : Prop where
  ne_nil : l ≠ []
  head : ∀ c ∈ l.head?, c ≠ '#' ∧ c ≠ '~'

theorem next_plain {w : Option Word} {c : Char} (hc : isPlain c = true)
    (hw : w ≠ none ∨ c ≠ '#' ∧ c ≠ '~') : next w c .bare = .go .bare (push w [(c, false)]) := by
  simp only [isPlain, Bool.and_eq_true, Bool.not_eq_true', decide_eq_true_eq, List.mem_cons,
    List.not_mem_nil, or_false, not_or] at hc
  obtain ⟨⟨hblank, hactive⟩, hline, hquote, hdquote, hbackslash, -⟩ := hc
  have hhash : ¬ (c = '#' ∧ w = none) := fun h => hw.elim (· h.2) (·.1 h.1)
  have htilde : ¬ (c = '~' ∧ w = none) := fun h => hw.elim (· h.2) (·.2 h.1)
  simp [next, hblank, hactive, hline, hquote, hdquote, hbackslash, hhash, htilde]

theorem scan_plain {l : List Char} (h : ∀ c ∈ l, isPlain c = true) (w : Word) (rest : List Char) :
    scan .bare (some w) (l ++ rest) = scan .bare (some (w ++ unquoted l)) rest := by
  induction l generalizing w with
  | nil => rw [unquoted, List.map_nil, List.append_nil, List.nil_append]
  | cons c l ih =>
      rw [List.forall_mem_cons] at h
      rw [List.cons_append, scan, next_plain h.1 (.inl (by simp))]
      show scan .bare (some (w ++ [(c, false)])) (l ++ rest) = _
      rw [ih h.2, List.append_assoc]
      rfl

theorem scan_word {l : List Char} (hbegins : Begins l) (h : ∀ c ∈ l, isPlain c = true)
    (rest : List Char) :
    scan .bare none (l ++ rest) = scan .bare (some (unquoted l)) rest := by
  obtain ⟨c, l, rfl⟩ := List.exists_cons_of_ne_nil hbegins.ne_nil
  rw [List.forall_mem_cons] at h
  rw [List.cons_append, scan, next_plain h.1 (.inr (hbegins.head c rfl))]
  exact scan_plain h.2 [(c, false)] rest

theorem scan_blank (w : Word) (rest : List Char) :
    scan .bare (some w) (' ' :: rest) = (scan .bare none rest).map (w :: ·) := rfl

theorem scan_spaced {front : List (List Char)} (hbegins : ∀ l ∈ front, Begins l)
    (h : ∀ l ∈ front, ∀ c ∈ l, isPlain c = true) (t : List Char) :
    scan .bare none (spaced front ++ t) = (scan .bare none t).map (front.map unquoted ++ ·) := by
  induction front with
  | nil => simp [spaced]
  | cons l front ih =>
      rw [List.forall_mem_cons] at hbegins h
      have hcut : spaced (l :: front) ++ t = l ++ ' ' :: (spaced front ++ t) := by simp [spaced]
      rw [hcut, scan_word hbegins.1 h.1, scan_blank, ih hbegins.2 h.2, Option.map_map]
      rfl

theorem scan_single {l : List Char} (h : '\'' ∉ l) (w : Word) :
    scan .single (some w) (l ++ ['\'']) = some [w ++ quoted l] := by
  induction l generalizing w with
  | nil => simp [quoted, scan, next]
  | cons c l ih =>
      rw [List.mem_cons, not_or] at h
      have hnext : next (some w) c .single = .go .single (some (w ++ [(c, true)])) := by
        simp [next, push, Ne.symm h.1]
      rw [List.cons_append, scan, hnext]
      show scan .single (some (w ++ [(c, true)])) (l ++ ['\'']) = _
      rw [ih h.2, List.append_assoc]
      rfl

theorem scan_quoted {l : List Char} (h : '\'' ∉ l) :
    scan .bare none ('\'' :: (l ++ ['\''])) = some [quoted l] := scan_single h []

/-! ### When a command's words are those it was put together from -/

def texts (ws : List Word) : List (List Char) := ws.map Word.text

theorem weight_texts (ws : List Word) : weight ws = ((texts ws).map fun l => size l + 1).sum := by
  rw [texts, List.map_map]
  rfl

theorem size_spaced (front : List (List Char)) :
    size (spaced front) = (front.map fun l => size l + 1).sum := by
  induction front with
  | nil => rfl
  | cons l front ih =>
      have hcut : spaced (l :: front) = l ++ [' '] ++ spaced front := rfl
      rw [hcut, size_append, size_append, ih]
      rfl

theorem countP_spaced (front : List (List Char)) :
    (spaced front).countP isBlank = (front.map fun l => l.countP isBlank).sum + front.length := by
  induction front with
  | nil => rfl
  | cons l front ih =>
      have hcut : spaced (l :: front) = l ++ [' '] ++ spaced front := rfl
      have hblank : [' '].countP isBlank = 1 := rfl
      rw [hcut, List.countP_append, List.countP_append, ih, hblank, List.map_cons, List.sum_cons,
        List.length_cons]
      omega

theorem mem_spaced {front : List (List Char)} {l : List Char} {c : Char} (hl : l ∈ front)
    (hc : c ∈ l) : c ∈ spaced front :=
  List.mem_flatMap.mpr ⟨l, hl, List.mem_append_left _ hc⟩

theorem forall_mem_spaced {P : Char → Prop} {front : List (List Char)} (hblank : P ' ')
    (h : ∀ l ∈ front, ∀ c ∈ l, P c) : ∀ c ∈ spaced front, P c := by
  intro c hc
  obtain ⟨l, hl, hc⟩ := List.mem_flatMap.mp hc
  rcases List.mem_append.mp hc with hc | hc
  · exact h l hl c hc
  · rwa [List.mem_singleton.mp hc]

/-- A character that is plain or blank, in a text that holds no blank, is plain. -/
theorem plain_of_countP {l : List Char} (hcount : l.countP isBlank = 0)
    (h : ∀ c ∈ l, isPlain c = true ∨ isBlank c = true) : ∀ c ∈ l, isPlain c = true :=
  fun c hc => (h c hc).resolve_right fun hblank => (List.countP_eq_zero.mp hcount) c hc hblank

theorem countP_of_sum {front : List (List Char)}
    (h : (front.map fun l => l.countP isBlank).sum = 0) : ∀ l ∈ front, l.countP isBlank = 0 :=
  fun _ hl => List.sum_eq_zero_iff_forall_eq_nat.mp h _ (List.mem_map_of_mem hl)


/-- A command read as the words it was put together from, of which the last may be quoted: the
others are plain. -/
theorem plain_of_read {front : List (List Char)} {t last : List Char} {ws : List Word}
    (h : read (spaced front ++ t) = some ws) (hws : texts ws = front ++ [last])
    (hsize : size t = size last) :
    (∀ l ∈ front, ∀ c ∈ l, isPlain c = true) ∧ '\'' ∉ last ∧
    ('\'' ∉ t → ∀ c ∈ t, isPlain c = true) := by
  rw [read] at h
  split at h
  · cases h
  · rename_i hnul
    rw [List.mem_append, not_or] at hnul
    have htight : begun none + size (spaced front ++ t) + 1 ≤ weight ws := by
      rw [begun_none, size_append, size_spaced, weight_texts, hws, List.map_append,
        List.sum_append, hsize]
      simp only [List.map_cons, List.map_nil, List.sum_cons, List.sum_nil]
      omega
    have hquotes : ∀ l ∈ texts ws, '\'' ∉ l :=
      List.forall_mem_map.mpr (no_quote_of_tight (.inl rfl) (by simp [NoQuote, Word.text]) h htight)
    rw [hws, List.forall_mem_append, List.forall_mem_singleton] at hquotes
    have hfront : '\'' ∉ spaced front := by
      intro hmem
      obtain ⟨l, hl, hc⟩ := List.mem_flatMap.mp hmem
      rcases List.mem_append.mp hc with hc | hc
      · exact hquotes.1 l hl hc
      · revert hc
        decide
    have hlength : ws.length = front.length + 1 := by
      rw [← List.length_map Word.text, ← texts, hws, List.length_append, List.length_singleton]
    refine ⟨?_, hquotes.2, ?_⟩
    · obtain ⟨hall, hcount⟩ := plain_of_tight hfront hnul.1 h htight
      rw [countP_spaced, hlength] at hcount
      have hsum : (front.map fun l => l.countP isBlank).sum = 0 := by omega
      exact fun l hl => plain_of_countP (countP_of_sum hsum l hl) fun c hc =>
        hall c (mem_spaced hl hc)
    · intro ht
      have hcommand : '\'' ∉ spaced front ++ t := by simp [hfront, ht]
      have hnul' : '\x00' ∉ spaced front ++ t := by simp [hnul.1, hnul.2]
      rw [← List.append_nil (spaced front ++ t)] at h htight
      obtain ⟨hall, hcount⟩ := plain_of_tight hcommand hnul' h htight
      rw [List.countP_append, countP_spaced, hlength] at hcount
      exact plain_of_countP (by omega) fun c hc => hall c (List.mem_append_right _ hc)

theorem size_le_of_read {command : List Char} {ws : List Word} (h : read command = some ws) :
    weight ws ≤ size command + 1 := by
  rw [read] at h
  split at h
  · cases h
  · have hle := weight_le h
    rwa [begun_none, Nat.zero_add] at hle

theorem ne_nul_of_isPlain {c : Char} (h : isPlain c = true) : c ≠ '\x00' := by
  rintro rfl
  revert h
  decide

theorem read_of_no_nul {command : List Char} (h : '\x00' ∉ command) :
    read command = scan .bare none command := if_neg h

theorem no_nul_spaced {front : List (List Char)} (h : ∀ l ∈ front, ∀ c ∈ l, isPlain c = true) :
    '\x00' ∉ spaced front := fun hmem =>
  forall_mem_spaced (by decide) (fun l hl c hc => ne_nul_of_isPlain (h l hl c hc)) _ hmem rfl

theorem read_plain {front : List (List Char)} {last : List Char}
    (hbegins : ∀ l ∈ front ++ [last], Begins l)
    (h : ∀ l ∈ front ++ [last], ∀ c ∈ l, isPlain c = true) :
    read (spaced front ++ last) = some ((front ++ [last]).map unquoted) := by
  rw [List.forall_mem_append, List.forall_mem_singleton] at hbegins h
  have hnul : '\x00' ∉ spaced front ++ last := by
    rw [List.mem_append, not_or]
    exact ⟨no_nul_spaced h.1, fun hmem => ne_nul_of_isPlain (h.2 _ hmem) rfl⟩
  have hlast := scan_word hbegins.2 h.2 []
  rw [List.append_nil] at hlast
  rw [read_of_no_nul hnul, scan_spaced hbegins.1 h.1, hlast, List.map_append]
  rfl

theorem read_quoted {front : List (List Char)} {last : List Char} (hbegins : ∀ l ∈ front, Begins l)
    (h : ∀ l ∈ front, ∀ c ∈ l, isPlain c = true) (hquote : '\'' ∉ last) (hnul : '\x00' ∉ last) :
    read (spaced front ++ '\'' :: (last ++ ['\'']))
      = some (front.map unquoted ++ [quoted last]) := by
  have hnul' : '\x00' ∉ spaced front ++ '\'' :: (last ++ ['\'']) := by simp [no_nul_spaced h, hnul]
  rw [read_of_no_nul hnul', scan_spaced hbegins h, scan_quoted hquote]
  rfl

/-! ### Patterns -/

section Patterns

variable {matching : Word → List Char → Bool}

/-- A word that, where it is a pattern, matches nothing but itself. -/
def Alone (matching : Word → List Char → Bool) (w : Word) : Prop :=
  w.any isPatternChar = true → ∀ path, matching w path = true → path = w.text

theorem expand_nil (w : Word) : expand matching [] w = [w.text] := by
  rw [expand]
  split <;> rfl

theorem expand_of_alone {w : Word} (h : Alone matching w) {files : List (List Char)}
    (hfiles : files.Nodup) : expand matching files w = [w.text] := by
  rw [expand]
  split
  · rename_i hpattern
    have hall : ∀ path ∈ files.filter (matching w), path = w.text :=
      fun path hpath => h hpattern path (List.mem_filter.mp hpath).2
    have hnodup := hfiles.filter (matching w)
    split
    · rfl
    · rename_i found hne
      obtain ⟨path, rest, hfound⟩ := List.exists_cons_of_ne_nil hne
      rw [hfound, List.forall_mem_cons] at hall
      rw [hfound, List.nodup_cons] at hnodup
      have hrest : rest = [] :=
        List.eq_nil_iff_forall_not_mem.mpr fun other hother =>
          hnodup.1 (hall.1 ▸ hall.2 other hother ▸ hother)
      rw [hfound, hall.1, hrest]
  · rfl

/-- Where there is one file, a word is replaced by it or stands. -/
def expandOne (matching : Word → List Char → Bool) (path : List Char) (w : Word) : List Char :=
  if w.any isPatternChar = true ∧ matching w path = true then path else w.text

theorem expand_singleton (path : List Char) (w : Word) :
    expand matching [path] w = [expandOne matching path w] := by
  rw [expand, expandOne]
  by_cases hpattern : w.any isPatternChar = true <;> by_cases hmatch : matching w path = true <;>
    simp [hpattern, hmatch]

theorem flatMap_eq_map {f : Word → List (List Char)} {g : Word → List Char} {ws : List Word}
    (h : ∀ w ∈ ws, f w = [g w]) : ws.flatMap f = ws.map g := by
  rw [List.flatMap_congr h, List.map_eq_flatMap]

/-- A command's fields are the same with any files, exactly where its words are those and match
nothing else. -/
theorem fields_iff {command : List Char} {fs : List (List Char)} :
    (∀ files : List (List Char), files.Nodup → fields matching files command = some fs) ↔
      ∃ ws, read command = some ws ∧ texts ws = fs ∧ ∀ w ∈ ws, Alone matching w := by
  constructor
  · intro h
    obtain ⟨ws, hws, hfs⟩ := Option.map_eq_some_iff.mp (h [] List.nodup_nil)
    rw [flatMap_eq_map fun w _ => expand_nil w] at hfs
    refine ⟨ws, hws, hfs, fun w hw hpattern path hmatch => ?_⟩
    have hone := h [path] (List.nodup_singleton path)
    rw [fields, hws, Option.map_some, flatMap_eq_map fun w _ => expand_singleton path w, ← hfs,
      Option.some.injEq, List.map_inj_left] at hone
    have hword := hone w hw
    rwa [expandOne, if_pos ⟨hpattern, hmatch⟩] at hword
  · rintro ⟨ws, hws, rfl, halone⟩ files hfiles
    rw [fields, hws, Option.map_some, flatMap_eq_map fun w hw =>
      expand_of_alone (halone w hw) hfiles]
    rfl

theorem not_isPattern_quoted (l : List Char) : ¬ (quoted l).any isPatternChar = true := by
  simp [quoted, isPatternChar]

/-- A text that stands for itself, unquoted: its characters are plain, and as a pattern it matches
nothing else. -/
structure Stands (matching : Word → List Char → Bool) (l : List Char) : Prop where
  plain : ∀ c ∈ l, isPlain c = true
  alone : Alone matching (unquoted l)

/-- Words put together are a command's fields exactly where each stands for itself. -/
theorem fields_plain_iff {front : List (List Char)} {last : List Char}
    (hbegins : ∀ l ∈ front ++ [last], Begins l) :
    (∀ files : List (List Char), files.Nodup →
      fields matching files (spaced front ++ last) = some (front ++ [last])) ↔
      ∀ l ∈ front ++ [last], Stands matching l := by
  rw [fields_iff]
  constructor
  · rintro ⟨ws, hread, htexts, halone⟩
    obtain ⟨hfront, hquote, hlast⟩ := plain_of_read hread htexts rfl
    have hplain : ∀ l ∈ front ++ [last], ∀ c ∈ l, isPlain c = true :=
      List.forall_mem_append.mpr ⟨hfront, List.forall_mem_singleton.mpr (hlast hquote)⟩
    rw [read_plain hbegins hplain, Option.some.injEq] at hread
    exact fun l hl => ⟨hplain l hl, halone _ (hread ▸ List.mem_map_of_mem hl)⟩
  · intro h
    refine ⟨_, read_plain hbegins fun l hl => (h l hl).plain, by simp [texts, Function.comp_def],
      fun w hw => ?_⟩
    obtain ⟨l, hl, rfl⟩ := List.mem_map.mp hw
    exact (h l hl).alone

/-- The same of a command whose last word is quoted. -/
theorem fields_quoted_iff {front : List (List Char)} {last : List Char}
    (hbegins : ∀ l ∈ front, Begins l) (hquote : '\'' ∉ last) (hnul : '\x00' ∉ last) :
    (∀ files : List (List Char), files.Nodup →
      fields matching files (spaced front ++ '\'' :: (last ++ ['\''])) = some (front ++ [last])) ↔
      ∀ l ∈ front, Stands matching l := by
  rw [fields_iff]
  constructor
  · rintro ⟨ws, hread, htexts, halone⟩
    have hsize : size ('\'' :: (last ++ ['\''])) = size last := by
      rw [size_cons_quote, size_append]; rfl
    obtain ⟨hfront, -, -⟩ := plain_of_read hread htexts hsize
    rw [read_quoted hbegins hfront hquote hnul, Option.some.injEq] at hread
    exact fun l hl =>
      ⟨hfront l hl, halone _ (hread ▸ List.mem_append_left _ (List.mem_map_of_mem hl))⟩
  · intro h
    refine ⟨_, read_quoted hbegins (fun l hl => (h l hl).plain) hquote
      hnul, by simp [texts, Function.comp_def], fun w hw => ?_⟩
    rcases List.mem_append.mp hw with hw | hw
    · obtain ⟨l, hl, rfl⟩ := List.mem_map.mp hw
      exact (h l hl).alone
    · rw [List.mem_singleton.mp hw]
      exact fun hpattern => absurd hpattern (not_isPattern_quoted last)

end Patterns

end Shell
