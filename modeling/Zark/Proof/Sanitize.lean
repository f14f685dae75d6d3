import Zark.Library.Tokens
import Zark.Sanitize

/-!
# A sanitised report

Every pass puts texts in brackets for what it finds, so a name that holds no bracket and is in none
of them comes out only where it went in, as a token; the pass that looks for it would have found it
there. The same goes for the runs the last two passes look for.
-/

namespace Zark.Sanitize

open Scan Text

/-! ### The characters -/

section Characters

variable (chars : CharClasses) {c : Char}

theorem isAlphanum_iff : c.isAlphanum = true ↔
    65 ≤ c.toNat ∧ c.toNat ≤ 90 ∨ 97 ≤ c.toNat ∧ c.toNat ≤ 122 ∨ 48 ≤ c.toNat ∧ c.toNat ≤ 57 := by
  simp only [Char.isAlphanum, Char.isAlpha, Char.isUpper, Char.isLower, Char.isDigit,
    Bool.or_eq_true, Bool.and_eq_true, decide_eq_true_eq, UInt32.le_iff_toNat_le,
    ge_iff_le, or_assoc]
  exact Iff.rfl

theorem isHex_iff : isHex c = true ↔ 48 ≤ c.toNat ∧ c.toNat ≤ 57 ∨ 97 ≤ c.toNat ∧ c.toNat ≤ 102 ∨
    65 ≤ c.toNat ∧ c.toNat ≤ 70 := by
  simp only [isHex, Char.isDigit, Bool.or_eq_true, Bool.and_eq_true, decide_eq_true_eq, Char.le_def,
    UInt32.le_iff_toNat_le, ge_iff_le]
  exact Iff.rfl

theorem toNat_of_isAlphanum (h : c.isAlphanum = true) : c.toNat < 128 := by
  have hranges := isAlphanum_iff.mp h
  omega

theorem isAlphanum_of_isHex (h : isHex c = true) : c.isAlphanum = true := by
  have hranges := isHex_iff.mp h
  exact isAlphanum_iff.mpr (by omega)

theorem isWord_of_isAlphanum (h : c.isAlphanum = true) : chars.isWord c = true := by
  rw [chars.ascii c (toNat_of_isAlphanum h), h, Bool.true_or]

theorem isWord_of_isHex (h : isHex c = true) : chars.isWord c = true :=
  isWord_of_isAlphanum chars (isAlphanum_of_isHex h)

theorem isDecimal_of_isDigit (h : c.isDigit = true) : chars.isDecimal c = true := by
  have halnum : c.isAlphanum = true := by rw [Char.isAlphanum, h, Bool.or_true]
  rw [chars.decimal_ascii c (toNat_of_isAlphanum halnum), h]

/-- White space and quotes are no letters. -/
theorem isPathChar_of_isAlphanum (h : c.isAlphanum = true) : isPathChar c = true := by
  have hranges := isAlphanum_iff.mp h
  have hspace : isSpace c = false := by
    simp only [isSpace, decide_eq_false_iff_not, List.mem_cons, List.not_mem_nil, or_false]
    omega
  have hquotes : c ≠ '\'' ∧ c ≠ '"' := by
    constructor <;> rintro rfl <;> exact absurd h (by decide)
  simp [isPathChar, hspace, hquotes]

end Characters

/-! ### What each pattern finds -/

section Patterns

variable {prev : Option Char} {l w rest : List Char} {n : ℕ}

theorem mem_names {masks : Masks} {name : List Char} :
    name ∈ names masks ↔ name ∈ masks.keys ∧ name ≠ [] := by
  rw [names, List.mem_insertionSort, List.mem_filter, decide_eq_true_iff]

theorem token_eq_some {ns : List (List Char)} (h : token ns prev l = some n) :
    prev.any Char.isAlphanum = false ∧
    ∃ name ∈ ns, name <+: l ∧ (l.drop name.length).head?.any Char.isAlphanum = false ∧
    n = name.length := by
  rw [token] at h
  split at h
  · cases h
  · rename_i hprev
    obtain ⟨name, hfind, rfl⟩ := Option.map_eq_some_iff.mp h
    have hfits := List.find?_some hfind
    rw [Bool.and_eq_true, decide_eq_true_iff, Bool.not_eq_true'] at hfits
    exact ⟨by simpa using hprev, name, List.mem_of_find?_eq_some hfind, hfits.1, hfits.2, rfl⟩

theorem token_append {ns : List (List Char)} (h : token ns prev (w ++ rest) = some w.length) :
    w ∈ ns ∧ prev.any Char.isAlphanum = false ∧ rest.head?.any Char.isAlphanum = false := by
  obtain ⟨hprev, name, hname, hstart, hnext, hlength⟩ := token_eq_some h
  have hw : name = w := by
    rw [List.prefix_iff_eq_take.mp hstart, ← hlength, List.take_left]
  subst hw
  rw [List.drop_left] at hnext
  exact ⟨hname, hprev, hnext⟩

/-- A name with no letter beside it is found, or a longer one. -/
theorem token_ne_none {ns : List (List Char)} (hw : w ∈ ns)
    (hprev : prev.any Char.isAlphanum = false) (hrest : rest.head?.any Char.isAlphanum = false) :
    token ns prev (w ++ rest) ≠ none := by
  rw [token, if_neg (by simp [hprev]), Option.map_eq_none_iff.ne, ← Option.isSome_iff_ne_none,
    List.find?_isSome]
  exact ⟨w, hw, by simp [hrest]⟩

theorem proper_token {ns : List (List Char)} (h : [] ∉ ns) : Proper (token ns) where
  pos prev l n hn := by
    obtain ⟨-, name, hname, -, -, rfl⟩ := token_eq_some hn
    exact List.length_pos_iff.mpr fun hnil => h (hnil ▸ hname)
  le prev l n hn := by
    obtain ⟨-, name, -, hstart, -, rfl⟩ := token_eq_some hn
    exact List.IsPrefix.length_le hstart

theorem bordered_token (ns : List (List Char)) : Bordered Char.isAlphanum (token ns) where
  after _ _ _ h := (token_append h).2.2
  before _ _ _ h := .inl (token_append h).2.1

theorem dir_path : ∀ c ∈ byIdDir, isPathChar c = true := by decide

theorem byId_eq_some (h : byId prev l = some n) :
    byIdDir <+: l ∧ byIdDir.length < n ∧ n = (l.takeWhile isPathChar).length := by
  rw [byId] at h
  split at h
  · rename_i hfits
    obtain ⟨⟨name, rfl⟩, hne⟩ := hfits
    rw [List.drop_left] at h hne
    obtain rfl := Option.some.inj h
    rw [List.takeWhile_append_of_pos dir_path, List.length_append]
    exact ⟨List.prefix_append _ _, Nat.lt_add_of_pos_right (List.length_pos_iff.mpr hne), rfl⟩
  · cases h

theorem proper_byId : Proper byId where
  pos prev l n h := Nat.zero_lt_of_lt (byId_eq_some h).2.1
  le prev l n h := by
    rw [(byId_eq_some h).2.2]
    exact (List.takeWhile_sublist _).length_le

theorem byId_append (h : byId prev (w ++ rest) = some w.length) :
    byIdDir <+: w ∧ rest.head?.any isPathChar = false := by
  obtain ⟨hdir, hless, hlength⟩ := byId_eq_some h
  have hw : (w ++ rest).takeWhile isPathChar = w := by
    have hstart : (w ++ rest).takeWhile isPathChar <+: w ++ rest := List.takeWhile_prefix _
    rw [List.prefix_iff_eq_take.mp hstart, ← hlength, List.take_left]
  refine ⟨?_, ?_⟩
  · rw [List.prefix_iff_eq_take.mp hdir, List.take_append_of_le_length hless.le]
    exact List.take_prefix _ _
  · cases rest with
    | nil => rfl
    | cons c rest =>
        by_contra hc
        rw [List.head?_cons, Option.any_some, Bool.not_eq_false] at hc
        have hall : ∀ d ∈ w, isPathChar d = true :=
          fun d hd => List.mem_takeWhile_imp (hw.symm ▸ hd)
        rw [List.takeWhile_append_of_pos hall, List.takeWhile_cons_of_pos hc] at hw
        simp at hw

theorem bordered_byId : Bordered Char.isAlphanum byId where
  after prev w rest h := by
    have hnext := (byId_append h).2
    cases rest with
    | nil => rfl
    | cons c rest =>
        by_contra hc
        rw [List.head?_cons, Option.any_some, Bool.not_eq_false] at hc
        rw [List.head?_cons, Option.any_some, isPathChar_of_isAlphanum hc] at hnext
        cases hnext
  before prev w rest h := by
    obtain ⟨tail, rfl⟩ := (byId_append h).1
    exact .inr rfl

theorem run_eq_some {isWord isOf : Char → Bool} {least : ℕ} (h : run isWord isOf least l = some n) :
    n = (l.takeWhile isOf).length ∧ least ≤ n ∧ (l.drop n).head?.any isWord = false := by
  rw [run] at h
  split at h
  · rename_i hfits
    obtain rfl := Option.some.inj h
    exact ⟨rfl, hfits⟩
  · cases h

theorem takeWhile_run {isOf : Char → Bool} {w s : List Char} (hw : ∀ c ∈ w, isOf c = true)
    (hs : s.head?.any isOf = false) : (w ++ s).takeWhile isOf = w := by
  rw [List.takeWhile_append_of_pos hw]
  cases s with
  | nil => rw [List.takeWhile_nil, List.append_nil]
  | cons c s =>
      rw [List.head?_cons, Option.any_some] at hs
      rw [List.takeWhile_cons_of_neg (by simp [hs]), List.append_nil]

/-- A run that no letter follows, when it is long enough. -/
theorem run_append {isWord isOf : Char → Bool} {least : ℕ}
    (hletters : ∀ c, isOf c = true → isWord c = true) (hw : ∀ c ∈ w, isOf c = true)
    (hrest : rest.head?.any isWord = false) :
    run isWord isOf least (w ++ rest) = if least ≤ w.length then some w.length else none := by
  have htake : (w ++ rest).takeWhile isOf = w := by
    refine takeWhile_run hw ?_
    cases rest with
    | nil => rfl
    | cons c rest =>
        rw [List.head?_cons, Option.any_some] at hrest ⊢
        exact Bool.eq_false_iff.mpr fun hc => by simp [hletters c hc] at hrest
  rw [run]
  rw [htake, List.drop_left, hrest]
  simp

variable (chars : CharClasses)

theorem longNumber_eq_some (h : longNumber chars prev l = some n) :
    prev.any chars.isWord = false ∧ n = (l.takeWhile chars.isDecimal).length ∧ 8 ≤ n ∧
    (l.drop n).head?.any chars.isWord = false := by
  rw [longNumber] at h
  split at h
  · cases h
  · rename_i hprev
    exact ⟨by simpa using hprev, run_eq_some h⟩

theorem proper_longNumber : Proper (longNumber chars) where
  pos prev l n h := Nat.lt_of_lt_of_le (by decide) (longNumber_eq_some chars h).2.2.1
  le prev l n h := by
    rw [(longNumber_eq_some chars h).2.1]
    exact (List.takeWhile_sublist _).length_le

theorem bordered_longNumber : Bordered chars.isWord (longNumber chars) where
  after prev w rest h := by
    have hnext := (longNumber_eq_some chars h).2.2.2
    rwa [List.drop_left] at hnext
  before prev w rest h := .inl (longNumber_eq_some chars h).1

theorem longHex_eq_some (h : longHex chars prev l = some n) :
    prev.any chars.isWord = false ∧ (l.drop n).head?.any chars.isWord = false ∧
    (n = (l.takeWhile isHex).length ∧ 12 ≤ n ∨ ∃ tail, l = '0' :: 'x' :: tail ∧
      n = 2 + (tail.takeWhile isHex).length ∧ 12 ≤ (tail.takeWhile isHex).length) := by
  rw [longHex] at h
  split at h
  · cases h
  · rename_i hprev
    refine ⟨by simpa using hprev, ?_⟩
    split at h
    · rename_i hmark
      obtain ⟨tail, rfl⟩ := hmark
      rcases Option.or_eq_some_iff.mp h with hmarked | ⟨-, hplain⟩
      · obtain ⟨m, hrun, rfl⟩ := Option.map_eq_some_iff.mp hmarked
        obtain ⟨hm, hleast, hnext⟩ := run_eq_some hrun
        rw [List.drop_drop] at hnext
        exact ⟨hnext, .inr ⟨tail, rfl, by rw [hm]; rfl, hm ▸ hleast⟩⟩
      · obtain ⟨hn, hleast, hnext⟩ := run_eq_some hplain
        exact ⟨hnext, .inl ⟨hn, hleast⟩⟩
    · obtain ⟨hn, hleast, hnext⟩ := run_eq_some h
      exact ⟨hnext, .inl ⟨hn, hleast⟩⟩

theorem proper_longHex : Proper (longHex chars) where
  pos prev l n h := by
    rcases (longHex_eq_some chars h).2.2 with ⟨-, hleast⟩ | ⟨tail, -, rfl, hleast⟩ <;> omega
  le prev l n h := by
    rcases (longHex_eq_some chars h).2.2 with ⟨rfl, -⟩ | ⟨tail, rfl, rfl, -⟩
    · exact (List.takeWhile_sublist _).length_le
    · have hle := List.Sublist.length_le (@List.takeWhile_sublist _ tail isHex)
      simp only [List.length_cons]
      omega

theorem bordered_longHex : Bordered chars.isWord (longHex chars) where
  after prev w rest h := by
    have hnext := (longHex_eq_some chars h).2.1
    rwa [List.drop_left] at hnext
  before prev w rest h := .inl (longHex_eq_some chars h).1

theorem alphanum_of_longHex (h : longHex chars prev (w ++ rest) = some w.length) :
    ∀ c ∈ w, c.isAlphanum = true := by
  rcases (longHex_eq_some chars h).2.2 with ⟨hlength, -⟩ | ⟨tail, htail, hlength, -⟩
  · have hstart : (w ++ rest).takeWhile isHex <+: w ++ rest := List.takeWhile_prefix _
    rw [List.prefix_iff_eq_take, ← hlength, List.take_left] at hstart
    exact fun c hc => isAlphanum_of_isHex (List.mem_takeWhile_imp (hstart ▸ hc))
  · have hstart : '0' :: 'x' :: tail.takeWhile isHex <+: w ++ rest := by
      rw [htail]
      exact (List.prefix_cons_inj _).mpr ((List.prefix_cons_inj _).mpr ( List.takeWhile_prefix _))
    have hlength' : ('0' :: 'x' :: tail.takeWhile isHex).length = w.length := by
      rw [hlength, List.length_cons, List.length_cons]
      omega
    rw [List.prefix_iff_eq_take, hlength', List.take_left] at hstart
    rw [← hstart]
    intro c hc
    rcases List.mem_cons.mp hc with rfl | hc
    · decide
    · rcases List.mem_cons.mp hc with rfl | hc
      · decide
      · exact isAlphanum_of_isHex (List.mem_takeWhile_imp hc)

/-- A run of hexadecimal digits that stands by itself is found, if it is long. -/
theorem longHex_append (hlength : 2 ≤ w.length) (hw : ∀ c ∈ w, isHex c = true)
    (hprev : prev.any chars.isWord = false) (hrest : rest.head?.any chars.isWord = false) :
    longHex chars prev (w ++ rest) = if 12 ≤ w.length then some w.length else none := by
  have hmark : ¬ ['0', 'x'] <+: w ++ rest := by
    rintro ⟨tail, htail⟩
    obtain ⟨c, d, w, rfl⟩ : ∃ c d w', w = c :: d :: w' := by
      match w, hlength with
      | c :: d :: w, _ => exact ⟨c, d, w, rfl⟩
    obtain ⟨-, htail⟩ := List.cons.inj htail
    obtain ⟨rfl, -⟩ := List.cons.inj htail
    exact absurd (hw 'x' (by simp)) (by decide)
  rw [longHex, if_neg (by simp [hprev]), if_neg hmark,
    run_append (fun _ => isWord_of_isHex chars) hw hrest]

end Patterns

/-! ### The passes -/

section Passes

variable (chars : CharClasses) {masks : Masks} {host text k a b : List Char}

/-- A found string that is not of digits alone. -/
def lettered (found : List Char) : Bool := !found.all Char.isDigit

/-- The passes, one on what the one before left. -/
def masked (masks : Masks) (text : List Char) : List Char :=
  sub (token (names masks)) (shown masks) none text

def pathless (masks : Masks) (text : List Char) : List Char :=
  sub byId (fun _ => byIdShown) none (masked masks text)

def hostless (host : List Char) (masks : Masks) (text : List Char) : List Char :=
  sub (token [host]) (fun _ => hostShown) none (pathless masks text)

def hexless (host : List Char) (masks : Masks) (text : List Char) : List Char :=
  sub (only (longHex chars) lettered) putHex none (hostless host masks text)

theorem sanitize_eq (hhost : 2 ≤ host.length) :
    sanitize chars host text masks = sub (longNumber chars) (fun _ => numberShown) none
      (hexless chars host masks text) := by
  have hmasked : (if names masks ≠ [] then sub (token (names masks)) (shown masks) none text
      else text) = masked masks text := by
    split
    · rfl
    · rename_i hnil
      rw [not_not] at hnil
      refine (sub_eq_self (fun s _ prev => ?_) none).symm
      rw [hnil, token]
      split <;> rfl
  have hhex : ∀ text, sub (longHex chars) putHex none text
      = sub (only (longHex chars) lettered) putHex none text := by
    refine fun text => (sub_only (proper_longHex chars) (fun w hw => ?_)
      (fun prev w rest hfound u c v huv hu => ?_) none text).symm
    · rw [lettered, Bool.not_eq_false'] at hw
      rw [putHex, if_pos hw]
    · obtain ⟨d, hd⟩ := Option.isSome_iff_exists.mp (by simpa using hu : u.getLast?.isSome = true)
      have hword :=
        isWord_of_isAlphanum chars (alphanum_of_longHex chars hfound d
          (huv ▸ List.mem_append_left _ (List.mem_of_getLast? hd)))
      rw [longHex, hd, Option.any_some, if_pos hword]
  rw [sanitize, hmasked, if_pos (by omega), hhex]
  rfl

/-- What the report has for what it replaces. -/
def IsShown (masks : Masks) (t : List Char) : Prop :=
  t ∈ [byIdShown, hostShown, hexShown, numberShown] ∨ ∃ mask ∈ masks, t = mask.shown

/-- A name the report must not hold. -/
def IsSecret (masks : Masks) (host k : List Char) : Prop := k ∈ names masks ∨ k = host

/-- No name is in what is shown instead. -/
structure NamesApart (masks : Masks) (host : List Char) : Prop where
  long : 2 ≤ host.length
  apart : ∀ k, IsSecret masks host k → ∀ t, IsShown masks t → ¬ k <:+: t

/-- Names hold no angle bracket, and what is shown for them stands in brackets. -/
structure WellMasked (masks : Masks) (host : List Char) : Prop extends NamesApart masks host where
  plain : ∀ k, IsSecret masks host k → '<' ∉ k ∧ '>' ∉ k
  bracketed : ∀ mask ∈ masks, mask.name ≠ [] → mask.shown.head? = some '<' ∧
    mask.shown.getLast? = some '>'

/-- A token of a text: no letter or digit is beside it, nor an angle bracket beside an end of it
that is none. -/
def TokenIn (k text : List Char) : Prop :=
  ∃ a b, text = a ++ k ++ b ∧ TokenAt Char.isAlphanum '<' '>' k a.getLast? b.head?

theorem bordered_alphanum {m : Pattern Char} (h : Bordered chars.isWord m) :
    Bordered Char.isAlphanum m := by
  have hmono : ∀ o : Option Char, o.any chars.isWord = false → o.any Char.isAlphanum = false := by
    intro o ho
    cases o with
    | none => rfl
    | some c =>
        by_contra hc
        rw [Option.any_some, Bool.not_eq_false] at hc
        rw [Option.any_some, isWord_of_isAlphanum chars hc] at ho
        cases ho
  exact ⟨fun prev w rest hfound => hmono _ (h.after prev w rest hfound),
    fun prev w rest hfound => (h.before prev w rest hfound).imp (hmono _) (hmono _)⟩

theorem bracketed_shown {t : List Char} (ht : t ∈ [byIdShown, hostShown, hexShown, numberShown])
    (hk : ¬ k <:+: t) : Bracketed '<' '>' k t := by
  have hends : ∀ t ∈ [byIdShown, hostShown, hexShown, numberShown], t.head? = some '<' ∧
      t.getLast? = some '>' := by decide
  exact ⟨(hends t ht).1, (hends t ht).2, hk⟩

theorem bordered_only {isLetter : Char → Bool} {m : Pattern Char} {Q : List Char → Bool}
    (h : Bordered isLetter m) : Bordered isLetter (only m Q) :=
  ⟨fun prev w rest hfound => h.after prev w rest (only_append.mp hfound).1,
    fun prev w rest hfound => h.before prev w rest (only_append.mp hfound).1⟩

theorem putHex_lettered {w : List Char} (h : lettered w = true) : putHex w = hexShown := by
  rw [lettered, Bool.not_eq_true'] at h
  rw [putHex, if_neg (by simp [h])]

theorem secret_ne_nil (h : WellMasked masks host) (hk : IsSecret masks host k) : k ≠ [] := by
  rcases hk with hk | rfl
  · exact (mem_names.mp hk).2
  · intro hnil
    have hlong := h.long
    rw [hnil] at hlong
    exact absurd hlong (by decide)

theorem shown_of_mem {mask : Mask} (hmask : mask ∈ masks) : shown masks mask.name = mask.shown := by
  rw [shown, Keyed.get?_of_mem hmask]
  rfl

theorem bracketed_mask (h : WellMasked masks host) (hk : IsSecret masks host k) {w : List Char}
    (hw : w ∈ names masks) : Bracketed '<' '>' k (shown masks w) := by
  obtain ⟨hkey, hne⟩ := mem_names.mp hw
  obtain ⟨mask, hmask, rfl⟩ := Keyed.mem_keys.mp hkey
  obtain ⟨hopens, hcloses⟩ := h.bracketed mask hmask hne
  rw [shown_of_mem hmask]
  exact ⟨hopens, hcloses, h.apart k hk _ (.inr ⟨mask, hmask, rfl⟩)⟩

/-- A name that is left by the last four passes was there after the first, and the one for the
hostname did not find it. -/
theorem tokenIn_of_sanitize (h : WellMasked masks host) (hk : IsSecret masks host k)
    (hleft : TokenIn k (sanitize chars host text masks)) :
    TokenIn k (masked masks text) ∧ k ≠ host := by
  have hne := secret_ne_nil h hk
  obtain ⟨ho, hc⟩ := h.plain k hk
  have hshown : ∀ t ∈ [byIdShown, hostShown, hexShown, numberShown], Bracketed '<' '>' k t :=
    fun t ht => bracketed_shown ht (h.apart k hk t (.inl ht))
  obtain ⟨a, b, hout, ht⟩ := hleft
  rw [sanitize_eq chars h.long] at hout
  obtain ⟨a₄, b₄, hout₄, ht₄, -⟩ :=
    token_of_sub (proper_longNumber chars)
      (bordered_alphanum chars (bordered_longNumber chars)) hne ho hc
      (fun _ _ _ _ => hshown _ (by simp)) hout ht
  obtain ⟨a₃, b₃, hout₃, ht₃, -⟩ := token_of_sub (proper_only (proper_longHex chars) lettered)
    (bordered_only (bordered_alphanum chars (bordered_longHex chars))) hne ho hc
    (fun _ w _ hfound => by
      rw [putHex_lettered (only_append.mp hfound).2]
      exact hshown _ (by simp)) hout₄ ht₄
  obtain ⟨a₂, b₂, hout₂, ht₂, hnone⟩ :=
    token_of_sub (@proper_token [host] (by simpa using (secret_ne_nil h (.inr rfl)).symm))
      (bordered_token [host]) hne ho hc (fun _ _ _ _ => hshown _ (by simp)) hout₃ ht₃
  obtain ⟨a₁, b₁, hout₁, ht₁, -⟩ :=
    token_of_sub proper_byId bordered_byId hne ho hc (fun _ _ _ _ => hshown _ (by simp)) hout₂ ht₂
  refine ⟨⟨a₁, b₁, hout₁, ht₁⟩, ?_⟩
  rintro rfl
  exact token_ne_none List.mem_cons_self ht₂.before_letter ht₂.after_letter hnone

/-- No name is left as a token. -/
theorem not_tokenIn_sanitize (h : WellMasked masks host) (hk : IsSecret masks host k) :
    ¬ TokenIn k (sanitize chars host text masks) := by
  intro hleft
  obtain ⟨⟨a, b, hout, ht⟩, hhost⟩ := tokenIn_of_sanitize chars h hk hleft
  have hname : k ∈ names masks := hk.resolve_right hhost
  obtain ⟨ho, hc⟩ := h.plain k hk
  obtain ⟨a₀, b₀, -, ht₀, hnone⟩ :=
    token_of_sub (proper_token fun hnil => (mem_names.mp hnil).2 rfl) (bordered_token (names masks))
      (secret_ne_nil h hk) ho hc (fun _ _ _ hfound =>
        bracketed_mask h hk (token_append hfound).1) hout ht
  exact token_ne_none hname ht₀.before_letter ht₀.after_letter hnone

/-! ### Long runs -/

/-- A run of the shape of a serial or of a GUID. -/
def IsLongRun (w : List Char) : Prop :=
  (8 ≤ w.length ∧ ∀ c ∈ w, chars.isDecimal c = true) ∨ (12 ≤ w.length ∧ ∀ c ∈ w, isHex c = true)

/-- It stands between characters that are no words', or ends of the text. -/
def StandsIn (w text : List Char) : Prop :=
  ∃ a b, text = a ++ w ++ b ∧ a.getLast?.any chars.isWord = false ∧ b.head?.any chars.isWord = false

theorem tokenAt_of_words {w : List Char} {before after : Option Char} (hne : w ≠ [])
    (hw : ∀ c ∈ w, chars.isWord c = true) (hbefore : before.any chars.isWord = false)
    (hafter : after.any chars.isWord = false) : TokenAt chars.isWord '<' '>' w before after where
  before_letter := hbefore
  after_letter := hafter
  before_bracket h := by
    rw [List.head?_eq_some_head hne, Option.any_some, hw _ (List.head_mem hne)] at h
    cases h
  after_bracket h := by
    rw [List.getLast?_eq_some_getLast hne, Option.any_some, hw _ (List.getLast_mem hne)] at h
    cases h

theorem not_standsIn_sanitize (hhost : 2 ≤ host.length) {w : List Char} (hw : IsLongRun chars w) :
    ¬ StandsIn chars w (sanitize chars host text masks) := by
  have hlength : 8 ≤ w.length := by rcases hw with hw | hw <;> omega
  have hwords : ∀ c ∈ w, chars.isWord c = true := by
    rcases hw with ⟨-, hw⟩ | ⟨-, hw⟩
    · exact fun c hc => chars.decimal_word c (hw c hc)
    · exact fun c hc => isWord_of_isHex chars (hw c hc)
  have hne : w ≠ [] := fun hnil => by simp [hnil] at hlength
  have hbrackets : ∀ c ∈ ['<', '>'], chars.isWord c = false := by
    intro c hc
    have hascii : ∀ c ∈ ['<', '>'], c.toNat < 128 ∧ (c.isAlphanum || c == '_') = false := by decide
    rw [chars.ascii c (hascii c hc).1, (hascii c hc).2]
  have ho : '<' ∉ w := fun hmem => absurd (hwords _ hmem) (by simp [hbrackets])
  have hc : '>' ∉ w := fun hmem => absurd (hwords _ hmem) (by simp [hbrackets])
  have hshown : ∀ t ∈ [byIdShown, hostShown, hexShown, numberShown], t.length < 8 := by decide
  have hbracketed : ∀ t ∈ [byIdShown, hostShown, hexShown, numberShown], Bracketed '<' '>' w t :=
    fun t ht =>
      bracketed_shown ht fun hinside =>
        absurd (List.IsInfix.length_le hinside) (by have := hshown t ht; omega)
  rintro ⟨a, b, hout, hbefore, hafter⟩
  rw [sanitize_eq chars hhost] at hout
  obtain ⟨a₄, b₄, hout₄, ht₄, hnone⟩ :=
    token_of_sub (proper_longNumber chars) (bordered_longNumber chars) hne ho hc
      (fun _ _ _ _ => hbracketed _ (by simp)) hout
        (tokenAt_of_words chars hne hwords hbefore hafter)
  by_cases hdecimal : ∀ c ∈ w, chars.isDecimal c = true
  · rw [longNumber, if_neg (by simp [ht₄.before_letter]),
      run_append (chars.decimal_word) hdecimal ht₄.after_letter, if_pos hlength] at hnone
    cases hnone
  · obtain ⟨hlong, hhex⟩ := hw.resolve_left fun hall => hdecimal hall.2
    obtain ⟨a₃, b₃, -, ht₃, hnone⟩ :=
      token_of_sub (proper_only (proper_longHex chars) lettered)
        (bordered_only (bordered_longHex chars)) hne ho hc
        (fun _ w' _ hfound => by
          rw [putHex_lettered (only_append.mp hfound).2]
          exact hbracketed _ (by simp)) hout₄ ht₄
    have hfound := longHex_append chars (by omega) hhex ht₃.before_letter ht₃.after_letter
    rw [if_pos hlong] at hfound
    have hlettered : lettered w = true := by
      rw [lettered, Bool.not_eq_true', ← Bool.not_eq_true, List.all_eq_true]
      exact fun hall => hdecimal fun c hc => isDecimal_of_isDigit chars (hall c hc)
    rw [only_append.mpr ⟨hfound, hlettered⟩] at hnone
    cases hnone

end Passes

end Zark.Sanitize
