import Mathlib

/-!
# JSON values and their text

The values a JSON text stands for, the compact ASCII text of a value, and a reader of texts. The
reader follows the grammar with white space and every escape, keeps the last of two fields of one
name, and inverts the writer on every value whose objects have distinct field names.

A number with a fraction or an exponent is kept as it is written. A lone surrogate, which no Lean
character is, is read as the replacement character.
-/

/-- A number with a fraction or an exponent, or one of the names for those that are none, as
written. -/
structure Literal where
  text : List Char
  oneDot : text.count '.' ≤ 1
  deriving DecidableEq

inductive Json where
  | null
  | bool (b : Bool)
  | num (n : Int)
  | real (x : Literal)
  | str (s : String)
  | arr (items : List Json)
  | obj (fields : List (String × Json))

namespace Json

/-! ### Writing -/

/-- The four hexadecimal digits of a code unit. -/
def hex4 (n : ℕ) : List Char :=
  [Nat.digitChar (n / 4096 % 16), Nat.digitChar (n / 256 % 16), Nat.digitChar (n / 16 % 16),
    Nat.digitChar (n % 16)]

def unicode (n : ℕ) : List Char := '\\' :: 'u' :: hex4 n

/-- A character inside a string: plain ASCII as it is, the rest escaped, beyond the basic plane as a
surrogate pair. -/
def escape (c : Char) : List Char :=
  if c = '"' then ['\\', '"']
  else if c = '\\' then ['\\', '\\']
  else if c = '\n' then ['\\', 'n']
  else if c = '\r' then ['\\', 'r']
  else if c = '\t' then ['\\', 't']
  else if c.toNat = 8 then ['\\', 'b']
  else if c.toNat = 12 then ['\\', 'f']
  else if 32 ≤ c.toNat ∧ c.toNat < 127 then [c]
  else if c.toNat < 65536 then unicode c.toNat
  else unicode (0xd800 + (c.toNat - 65536) / 1024) ++ unicode (0xdc00 + (c.toNat - 65536) % 1024)

/-- A string after its opening quote. -/
def escapes (s : List Char) : List Char := s.flatMap escape ++ ['"']

def digits (n : ℕ) : List Char := Nat.toDigits 10 n

def integer (n : Int) : List Char := if n < 0 then '-' :: digits n.natAbs else digits n.natAbs

mutual

/-- The compact text of a value. -/
def dumps : Json → List Char
  | null => ['n', 'u', 'l', 'l']
  | bool true => ['t', 'r', 'u', 'e']
  | bool false => ['f', 'a', 'l', 's', 'e']
  | num n => integer n
  | real x => x.text
  | str s => '"' :: escapes s.toList
  | arr [] => ['[', ']']
  | arr (v :: items) => '[' :: (dumps v ++ dumpItems items)
  | obj [] => ['{', '}']
  | obj ((k, v) :: fields) =>
      '{' :: '"' :: (escapes k.toList ++ ':' :: (dumps v ++ dumpFields fields))

/-- The items after the first, and the end of the array. -/
def dumpItems : List Json → List Char
  | [] => [']']
  | v :: items => ',' :: (dumps v ++ dumpItems items)

/-- The fields after the first, and the end of the object. -/
def dumpFields : List (String × Json) → List Char
  | [] => ['}']
  | (k, v) :: fields => ',' :: '"' :: (escapes k.toList ++ ':' :: (dumps v ++ dumpFields fields))

end

/-! ### Reading -/

def dropWs (l : List Char) : List Char :=
  l.dropWhile fun c => c = ' ' || c = '\t' || c = '\n' || c = '\r'

def hexDigit (c : Char) : Option ℕ :=
  if c.isDigit then some (c.toNat - 48)
  else if 97 ≤ c.toNat ∧ c.toNat ≤ 102 then some (c.toNat - 87)
  else if 65 ≤ c.toNat ∧ c.toNat ≤ 70 then some (c.toNat - 55)
  else none

def unhex4 (a b c d : Char) : Option ℕ :=
  (hexDigit a).bind fun a => (hexDigit b).bind fun b => (hexDigit c).bind fun c =>
    (hexDigit d).map fun d => ((a * 16 + b) * 16 + c) * 16 + d

/-- The character of a code unit that is no pair. -/
def ofUnit (n : ℕ) : Char := if 0xd800 ≤ n ∧ n < 0xe000 then Char.ofNat 0xfffd else Char.ofNat n

/-- The character an escape of one letter stands for. -/
def unescape (c : Char) : Option Char :=
  if c = '"' ∨ c = '\\' ∨ c = '/' then some c
  else if c = 'n' then some '\n'
  else if c = 'r' then some '\r'
  else if c = 't' then some '\t'
  else if c = 'b' then some (Char.ofNat 8)
  else if c = 'f' then some (Char.ofNat 12)
  else none

/-- A string after its opening quote, its Unicode escapes still code units, and what follows its
closing quote. -/
def readUnits : List Char → Option (List (Char ⊕ ℕ) × List Char)
  | [] => none
  | '"' :: rest => some ([], rest)
  | '\\' :: 'u' :: a :: b :: c :: d :: rest =>
      (unhex4 a b c d).bind fun n => (readUnits rest).map fun r => (.inr n :: r.1, r.2)
  | '\\' :: e :: rest =>
      (unescape e).bind fun c => (readUnits rest).map fun r => (.inl c :: r.1, r.2)
  | c :: rest => if c.toNat < 32 then none else (readUnits rest).map fun r => (.inl c :: r.1, r.2)

/-- Code units as characters, two surrogates that make a pair as one. -/
def joinUnits : List (Char ⊕ ℕ) → List Char
  | [] => []
  | .inl c :: units => c :: joinUnits units
  | .inr high :: .inr low :: units =>
      if 0xd800 ≤ high ∧ high < 0xdc00 ∧ 0xdc00 ≤ low ∧ low < 0xe000 then
        Char.ofNat (65536 + (high - 0xd800) * 1024 + (low - 0xdc00)) :: joinUnits units
      else ofUnit high :: joinUnits (.inr low :: units)
  | .inr n :: units => ofUnit n :: joinUnits units

def readString (l : List Char) : Option (String × List Char) :=
  (readUnits l).map fun r => (String.ofList (joinUnits r.1), r.2)

/-- A fraction or an exponent at the head of a text, and what follows. -/
def readFraction (l : List Char) : List Char × List Char :=
  match l with
  | '.' :: c :: rest =>
      if c.isDigit then
        ('.' :: c :: rest.takeWhile Char.isDigit, rest.dropWhile Char.isDigit)
      else ([], l)
  | _ => ([], l)

def readExponent (l : List Char) : List Char × List Char :=
  match l with
  | e :: rest =>
      if e = 'e' ∨ e = 'E' then
        let (sign, rest') := match rest with
          | '+' :: r => (['+'], r)
          | '-' :: r => (['-'], r)
          | r => ([], r)
        if (rest'.head?.any Char.isDigit) then
          (e :: sign ++ rest'.takeWhile Char.isDigit, rest'.dropWhile Char.isDigit)
        else ([], l)
      else ([], l)
  | [] => ([], l)

/-- The literal of a text, when it has no second dot. -/
def literal (text : List Char) : Option Json :=
  if h : text.count '.' ≤ 1 then some (.real ⟨text, h⟩) else none

/-- The number whose integer digits have been read. -/
def readRest (negative : Bool) (ds l : List Char) : Option (Json × List Char) :=
  let (fraction, l₁) := readFraction l
  let (exponent, l₂) := readExponent l₁
  if fraction = [] ∧ exponent = [] then
    let n := Int.ofNat (Nat.ofDigitChars 10 ds 0)
    some (.num (if negative then -n else n), l)
  else (literal ((if negative then ['-'] else []) ++ ds ++ fraction ++ exponent)).map
    fun v => (v, l₂)

def readUnsigned (negative : Bool) (l : List Char) : Option (Json × List Char) :=
  match l with
  | '0' :: rest => readRest negative ['0'] rest
  | c :: _ =>
      if c.isDigit then
        readRest negative (l.takeWhile Char.isDigit) (l.dropWhile Char.isDigit)
      else none
  | [] => none

def readNumber (l : List Char) : Option (Json × List Char) :=
  match l with
  | '-' :: rest => readUnsigned true rest
  | _ => readUnsigned false l

/-- A word at the head of a text. -/
def readWord (word : List Char) (v : Json) (l : List Char) : Option (Json × List Char) :=
  if word.isPrefixOf l then some (v, l.drop word.length) else none

/-- The words of the grammar, and the names of the numbers that are none. -/
def readName (l : List Char) : Option (Json × List Char) :=
  readWord "null".toList .null l <|> readWord "true".toList
    (.bool true) l <|> readWord "false".toList (.bool false) l <|>
    readWord "NaN".toList (.real ⟨"NaN".toList, by decide⟩) l <|>
    readWord "Infinity".toList (.real ⟨"Infinity".toList, by decide⟩) l <|>
    readWord "-Infinity".toList (.real ⟨"-Infinity".toList, by decide⟩) l

/-- One more field of an object: a field of the same name gives way to it. -/
def putField (fields : List (String × Json)) (f : String × Json) : List (String × Json) :=
  if f.1 ∈ fields.map Prod.fst then fields.map fun g =>
    if g.1 = f.1 then f else g else fields ++ [f]

mutual

/-- A value at the head of a text, and what follows. -/
def readValue : ℕ → List Char → Option (Json × List Char)
  | 0, _ => none
  | fuel + 1, l =>
      match l with
      | '"' :: rest => (readString rest).map fun r => (.str r.1, r.2)
      | '[' :: rest =>
          match dropWs rest with
          | ']' :: rest' => some (.arr [], rest')
          | rest' => (readItems fuel rest').map fun r => (.arr r.1, r.2)
      | '{' :: rest =>
          match dropWs rest with
          | '}' :: rest' => some (.obj [], rest')
          | '"' :: rest' => (readFields fuel rest').map fun r => (.obj (r.1.foldl putField []), r.2)
          | _ => none
      | _ => readName l <|> readNumber l

/-- The items of an array that has some, at the first. -/
def readItems : ℕ → List Char → Option (List Json × List Char)
  | 0, _ => none
  | fuel + 1, l =>
      (readValue fuel l).bind fun r =>
        match dropWs r.2 with
        | ']' :: rest => some ([r.1], rest)
        | ',' :: rest => (readItems fuel (dropWs rest)).map fun more => (r.1 :: more.1, more.2)
        | _ => none

/-- The fields of an object that has some, after the opening quote of the first one's name. -/
def readFields : ℕ → List Char → Option (List (String × Json) × List Char)
  | 0, _ => none
  | fuel + 1, l =>
      (readString l).bind fun name =>
        match dropWs name.2 with
        | ':' :: rest =>
            (readValue fuel (dropWs rest)).bind fun r =>
              match dropWs r.2 with
              | '}' :: rest' => some ([(name.1, r.1)], rest')
              | ',' :: rest' =>
                  match dropWs rest' with
                  | '"' :: rest'' =>
                      (readFields fuel rest'').map fun more => ((name.1, r.1) :: more.1, more.2)
                  | _ => none
              | _ => none
        | _ => none

end

/-- The value of a text. -/
def loads (l : List Char) : Option Json :=
  (readValue l.length (dropWs l)).bind fun r => if dropWs r.2 = [] then some r.1 else none

/-! ### Strings read back -/

theorem hexDigit_digitChar {d : ℕ} (h : d < 16) : hexDigit (Nat.digitChar d) = some d := by
  have hall : ∀ d : Fin 16, hexDigit (Nat.digitChar d) = some d.val := by decide
  exact hall ⟨d, h⟩

theorem unhex4_hex4 {n : ℕ} (h : n < 65536) :
    unhex4 (Nat.digitChar (n / 4096 % 16)) (Nat.digitChar (n / 256 % 16))
      (Nat.digitChar (n / 16 % 16)) (Nat.digitChar (n % 16)) = some n := by
  have hlt : ∀ m, m % 16 < 16 := fun m => Nat.mod_lt m (by decide)
  simp only [unhex4, hexDigit_digitChar (hlt _), Option.bind_some, Option.map_some]
  congr 1
  omega

/-- The code units a character is written with. -/
def units (c : Char) : List (Char ⊕ ℕ) :=
  if c = '"' ∨ c = '\\' ∨ c = '\n' ∨ c = '\r' ∨ c = '\t' ∨ c.toNat = 8 ∨ c.toNat = 12 ∨
      (32 ≤ c.toNat ∧ c.toNat < 127) then
    [.inl c]
  else if c.toNat < 65536 then [.inr c.toNat]
  else [.inr (0xd800 + (c.toNat - 65536) / 1024), .inr (0xdc00 + (c.toNat - 65536) % 1024)]

theorem readUnits_unicode {n : ℕ} (h : n < 65536) (rest : List Char) :
    readUnits (unicode n ++ rest) = (readUnits rest).map fun r => (.inr n :: r.1, r.2) := by
  rw [unicode, hex4]
  simp only [List.cons_append, List.nil_append]
  rw [readUnits, unhex4_hex4 h, Option.bind_some]

theorem toNat_lt (c : Char) : c.toNat < 0x110000 := by
  have h : c.toNat < 0xd800 ∨ 0xdfff < c.toNat ∧ c.toNat < 0x110000 := c.valid
  omega

theorem readUnits_plain {c : Char} (hquote : c ≠ '"') (hslash : c ≠ '\\') (rest : List Char) :
    readUnits (c :: rest) = if c.toNat < 32 then none else (readUnits rest).map fun r =>
      (.inl c :: r.1, r.2) := by
  rw [readUnits.eq_def]
  split
  · rename_i h
    cases h
  · rename_i h
    exact absurd (List.cons.inj h).1 hquote
  · rename_i h
    exact absurd (List.cons.inj h).1 hslash
  · rename_i h
    exact absurd (List.cons.inj h).1 hslash
  · rename_i h
    obtain ⟨rfl, rfl⟩ := List.cons.inj h
    rfl

theorem readUnits_escape (c : Char) (rest : List Char) :
    readUnits (escape c ++ rest) = (readUnits rest).map fun r => (units c ++ r.1, r.2) := by
  have hlt := toNat_lt c
  unfold escape
  split_ifs with h₁ h₂ h₃ h₄ h₅ h₆ h₇ h₈ h₉
  · subst h₁
    rfl
  · subst h₂
    rfl
  · subst h₃
    rfl
  · subst h₄
    rfl
  · subst h₅
    rfl
  · obtain rfl : c = Char.ofNat 8 := by rw [← h₆, Char.ofNat_toNat]
    rfl
  · obtain rfl : c = Char.ofNat 12 := by rw [← h₇, Char.ofNat_toNat]
    rfl
  · have hunits : units c = [.inl c] := if_pos (by simp [h₈])
    rw [hunits, List.singleton_append, readUnits_plain h₁ h₂, if_neg (by omega)]
    rfl
  · have hunits : units c = [.inr c.toNat] := by
      rw [units, if_neg (by simp [h₁, h₂, h₃, h₄, h₅, h₆, h₇, h₈]), if_pos h₉]
    rw [hunits, readUnits_unicode h₉]
    rfl
  · have hunits : units c = [.inr (0xd800 + (c.toNat - 65536) / 1024),
        .inr (0xdc00 + (c.toNat - 65536) % 1024)] := by
      rw [units, if_neg (by simp [h₁, h₂, h₃, h₄, h₅, h₆, h₇, h₈]), if_neg h₉]
    have hmod := Nat.mod_lt (c.toNat - 65536) (show 0 < 1024 by decide)
    rw [hunits, List.append_assoc, readUnits_unicode (by omega), readUnits_unicode (by omega),
      Option.map_map]
    rfl

theorem not_surrogate (c : Char) : c.toNat < 0xd800 ∨ 0xdfff < c.toNat := by
  have h : c.toNat < 0xd800 ∨ 0xdfff < c.toNat ∧ c.toNat < 0x110000 := c.valid
  exact h.imp id And.left

theorem joinUnits_unit {n : ℕ} (h : n < 0xd800 ∨ 0xdfff < n) (l : List (Char ⊕ ℕ)) :
    joinUnits (.inr n :: l) = Char.ofNat n :: joinUnits l := by
  have hunit : ofUnit n = Char.ofNat n := if_neg (by omega)
  cases l with
  | nil => simp [joinUnits, hunit]
  | cons u l =>
      cases u with
      | inl c => simp [joinUnits, hunit]
      | inr low => rw [joinUnits, if_neg (by omega), hunit]

theorem joinUnits_units (c : Char) (l : List (Char ⊕ ℕ)) :
    joinUnits (units c ++ l) = c :: joinUnits l := by
  have hlt := toNat_lt c
  have hscalar := not_surrogate c
  unfold units
  split_ifs with h₁ h₂
  · rfl
  · rw [List.singleton_append, joinUnits_unit hscalar, Char.ofNat_toNat]
  · have hmod := Nat.mod_lt (c.toNat - 65536) (show 0 < 1024 by decide)
    have hpair : 65536 + (0xd800 + (c.toNat - 65536) / 1024 - 0xd800) * 1024 +
        (0xdc00 + (c.toNat - 65536) % 1024 - 0xdc00) = c.toNat := by omega
    rw [List.cons_append, List.cons_append, List.nil_append, joinUnits, if_pos (by omega), hpair,
      Char.ofNat_toNat]

/-- A string is read back. -/
theorem readString_escapes (s : String) (rest : List Char) :
    readString (escapes s.toList ++ rest) = some (s, rest) := by
  have hread : ∀ l : List Char, readUnits (escapes l ++ rest) = some (l.flatMap units, rest) := by
    intro l
    induction l with
    | nil => rfl
    | cons c l ih =>
        rw [escapes, List.flatMap_cons, List.append_assoc, List.append_assoc, readUnits_escape]
        rw [escapes, List.append_assoc] at ih
        rw [ih, Option.map_some, List.flatMap_cons]
  have hjoin : ∀ l : List Char, joinUnits (l.flatMap units) = l := by
    intro l
    induction l with
    | nil => rfl
    | cons c l ih => rw [List.flatMap_cons, joinUnits_units, ih]
  rw [readString, hread, Option.map_some, hjoin, String.ofList_toList]

/-! ### Numbers read back -/

/-- What follows a value in a text goes on with none of the characters of a number. -/
def Ends (rest : List Char) : Prop :=
  ∀ c ∈ rest.head?, c ≠ '.' ∧ c ≠ 'e' ∧ c ≠ 'E' ∧ c.isDigit = false

theorem ends_nil : Ends [] := fun _ h => absurd h (by simp)

theorem ends_cons {c : Char} {rest : List Char}
    (h : c ≠ '.' ∧ c ≠ 'e' ∧ c ≠ 'E' ∧ c.isDigit = false) : Ends (c :: rest) := by
  intro d hd
  obtain rfl : c = d := by simpa using hd
  exact h

theorem readFraction_of_ends {rest : List Char} (h : Ends rest) :
    readFraction rest = ([], rest) := by
  cases rest with
  | nil => rfl
  | cons c rest =>
      have hc := (h c rfl).1
      unfold readFraction
      split
      · rename_i heq
        exact absurd (List.cons.inj heq).1 hc
      · rfl

theorem readExponent_of_ends {rest : List Char} (h : Ends rest) :
    readExponent rest = ([], rest) := by
  cases rest with
  | nil => rfl
  | cons c rest =>
      obtain ⟨-, he, hE, -⟩ := h c rfl
      simp [readExponent, he, hE]

theorem readRest_digits {ds rest : List Char} (negative : Bool) (h : Ends rest) :
    readRest negative ds rest =
      some (.num (if negative then -Int.ofNat (Nat.ofDigitChars 10 ds 0)
        else Int.ofNat (Nat.ofDigitChars 10 ds 0)), rest) := by
  rw [readRest, readFraction_of_ends h]
  dsimp only
  rw [readExponent_of_ends h, if_pos ⟨rfl, rfl⟩]

/-- Only the number 0 starts with the digit 0. -/
theorem head?_digits {n : ℕ} (h : 0 < n) : (digits n).head? ≠ some '0' := by
  induction n using Nat.strong_induction_on with
  | _ n ih =>
      rw [digits]
      obtain hlt | hge := Nat.lt_or_ge n 10
      · rw [Nat.toDigits_of_lt_base hlt, List.head?_cons, ne_eq, Option.some.injEq,
          Nat.digitChar_eq_zero]
        omega
      · rw [Nat.toDigits_of_base_le (by decide) hge]
        have hstart := ih (n / 10) (by omega) (by omega)
        rw [digits] at hstart
        rwa [List.head?_append_of_ne_nil _ Nat.toDigits_ne_nil]

theorem readUnsigned_digits (negative : Bool) (n : ℕ) {rest : List Char} (h : Ends rest) :
    readUnsigned negative (digits n ++ rest)
      = some (.num (if negative then -Int.ofNat n else Int.ofNat n), rest) := by
  obtain rfl | hpos := Nat.eq_zero_or_pos n
  · rw [digits, Nat.toDigits_zero, List.singleton_append, readUnsigned, readRest_digits negative h]
    rfl
  · have hdigits : ∀ c ∈ digits n, c.isDigit = true :=
      fun c hc => Nat.isDigit_of_mem_toDigits (by decide) (by decide) hc
    obtain ⟨c, ds, hcons⟩ :=
      List.exists_cons_of_ne_nil (show digits n ≠ [] from Nat.toDigits_ne_nil)
    have hzero : c ≠ '0' := fun h0 => head?_digits hpos (by rw [hcons, h0]; rfl)
    have hc : c.isDigit = true := hdigits c (hcons ▸ List.mem_cons_self)
    have hrest : rest.takeWhile Char.isDigit = [] ∧ rest.dropWhile Char.isDigit = rest := by
      cases rest with
      | nil => exact ⟨rfl, rfl⟩
      | cons d rest =>
          have hd := (h d rfl).2.2.2
          simp [hd]
    have hread : readUnsigned negative (digits n ++ rest) =
        readRest negative ((digits n ++ rest).takeWhile Char.isDigit)
            ((digits n ++ rest).dropWhile Char.isDigit) := by
      rw [hcons, List.cons_append, readUnsigned.eq_def]
      split
      · rename_i heq
        exact absurd (List.cons.inj heq).1 hzero
      · rename_i heq
        exact if_pos ((List.cons.inj heq).1 ▸ hc)
      · rename_i heq
        cases heq
    rw [hread, List.takeWhile_append_of_pos hdigits, List.dropWhile_append_of_pos hdigits, hrest.1,
      hrest.2, List.append_nil, readRest_digits negative h, digits,
      Nat.ofDigitChars_toDigits (by decide) (by decide)]

theorem readNumber_integer (n : Int) {rest : List Char} (h : Ends rest) :
    readNumber (integer n ++ rest) = some (.num n, rest) := by
  unfold integer
  split
  · rename_i hneg
    rw [List.cons_append, readNumber, readUnsigned_digits true n.natAbs h, if_pos rfl]
    have habs : -Int.ofNat n.natAbs = n := by
      show -(n.natAbs : Int) = n
      omega
    rw [habs]
  · rename_i hpos
    obtain ⟨c, ds, hcons⟩ :=
      List.exists_cons_of_ne_nil (show digits n.natAbs ≠ [] from Nat.toDigits_ne_nil)
    have hc : c.isDigit = true :=
      Nat.isDigit_of_mem_toDigits (by decide) (by decide) (hcons ▸ List.mem_cons_self)
    have hminus : c ≠ '-' := by
      rintro rfl
      cases hc
    have hread : readNumber (digits n.natAbs ++ rest) = readUnsigned false
        (digits n.natAbs ++ rest) := by
      rw [hcons, List.cons_append, readNumber.eq_def]
      split
      · rename_i heq
        exact absurd (List.cons.inj heq).1 hminus
      · rfl
    rw [hread, readUnsigned_digits false n.natAbs h, if_neg (by decide)]
    have habs : Int.ofNat n.natAbs = n := by
      show (n.natAbs : Int) = n
      omega
    rw [habs]

/-! ### Values read back -/

mutual

/-- Numbers that are integers, and objects whose fields have names of their own. -/
def Plain : Json → Prop
  | null => True
  | bool _ => True
  | num _ => True
  | real _ => False
  | str _ => True
  | arr items => PlainItems items
  | obj fields => PlainFields fields ∧ (fields.map Prod.fst).Nodup

def PlainItems : List Json → Prop
  | [] => True
  | v :: items => Plain v ∧ PlainItems items

def PlainFields : List (String × Json) → Prop
  | [] => True
  | (_, v) :: fields => Plain v ∧ PlainFields fields

end

mutual

/-- How deep a reader of the value's text goes, each item or field one level further. -/
def cost : Json → ℕ
  | arr items => 1 + itemsCost items
  | obj fields => 1 + fieldsCost fields
  | _ => 1

def itemsCost : List Json → ℕ
  | [] => 0
  | v :: items => 1 + cost v + itemsCost items

def fieldsCost : List (String × Json) → ℕ
  | [] => 0
  | (_, v) :: fields => 1 + cost v + fieldsCost fields

end

theorem dropWs_cons {c : Char} {rest : List Char} (h : c ∉ [' ', '\t', '\n', '\r']) :
    dropWs (c :: rest) = c :: rest := by
  simp only [List.mem_cons, List.not_mem_nil, or_false, not_or] at h
  rw [dropWs, List.dropWhile_cons_of_neg (by simp [h])]

/-- The characters a value's text may start with. -/
def Starts (c : Char) : Prop := c ∈ ['n', 't', 'f', '"', '[', '{', '-'] ∨ c.isDigit = true

theorem Starts.not_ws {c : Char} (h : Starts c) : c ∉ [' ', '\t', '\n', '\r'] ∧ c ≠ ']' := by
  obtain h | h := h
  · revert h
    simp only [List.mem_cons, List.not_mem_nil, or_false]
    rintro (rfl | rfl | rfl | rfl | rfl | rfl | rfl) <;> decide
  · constructor
    · simp only [List.mem_cons, List.not_mem_nil, or_false]
      rintro (rfl | rfl | rfl | rfl) <;> cases h
    · rintro rfl
      cases h

theorem starts_integer (n : Int) : ∃ c l, integer n = c :: l ∧ Starts c := by
  unfold integer
  split
  · exact ⟨'-', _, rfl, .inl (by decide)⟩
  · obtain ⟨c, ds, hcons⟩ :=
      List.exists_cons_of_ne_nil (show digits n.natAbs ≠ [] from Nat.toDigits_ne_nil)
    refine ⟨c, ds, hcons, .inr ?_⟩
    exact Nat.isDigit_of_mem_toDigits (by decide) (by decide) (hcons ▸ List.mem_cons_self)

theorem starts_dumps {v : Json} (h : Plain v) : ∃ c l, dumps v = c :: l ∧ Starts c := by
  cases v with
  | null => exact ⟨_, _, rfl, .inl (by decide)⟩
  | bool b => cases b <;> exact ⟨_, _, rfl, .inl (by decide)⟩
  | num n =>
      rw [dumps]
      exact starts_integer n
  | real x => exact absurd h (by simp [Plain])
  | str s => exact ⟨'"', _, by rw [dumps], .inl (by decide)⟩
  | arr items =>
      cases items with
      | nil => exact ⟨'[', _, by rw [dumps], .inl (by decide)⟩
      | cons v items => exact ⟨'[', _, by rw [dumps], .inl (by decide)⟩
  | obj fields =>
      cases fields with
      | nil => exact ⟨'{', _, by rw [dumps], .inl (by decide)⟩
      | cons f fields => exact ⟨'{', _, by rw [dumps], .inl (by decide)⟩

theorem dropWs_dumps {v : Json} (h : Plain v) (rest : List Char) :
    dropWs (dumps v ++ rest) = dumps v ++ rest := by
  obtain ⟨c, l, hcons, hstarts⟩ := starts_dumps h
  rw [hcons, List.cons_append]
  exact dropWs_cons hstarts.not_ws.1

/-- Distinct names are kept as they stand. -/
theorem foldl_putField {fields : List (String × Json)} (h : (fields.map Prod.fst).Nodup) :
    fields.foldl putField [] = fields := by
  induction fields using List.reverseRecOn with
  | nil => rfl
  | append_singleton fields f ih =>
      rw [List.map_append, List.nodup_append] at h
      rw [List.foldl_append, ih h.1, List.foldl_cons, List.foldl_nil, putField, if_neg]
      intro hmem
      exact h.2.2 f.1 hmem f.1 (by simp) rfl

theorem ne_of_isDigit {c d : Char} (hc : c.isDigit = true) (hd : d.isDigit = false) : c ≠ d := by
  rintro rfl
  rw [hc] at hd
  cases hd

/-- The text of an integer starts with a digit, with or without a minus sign. -/
theorem integer_cases (n : Int) : ∃ c l, c.isDigit = true ∧
    (integer n = c :: l ∨ integer n = '-' :: c :: l) := by
  obtain ⟨c, ds, hcons⟩ :=
    List.exists_cons_of_ne_nil (show digits n.natAbs ≠ [] from Nat.toDigits_ne_nil)
  have hc : c.isDigit = true :=
    Nat.isDigit_of_mem_toDigits (by decide) (by decide) (hcons ▸ List.mem_cons_self)
  refine ⟨c, ds, hc, ?_⟩
  unfold integer
  split
  · exact .inr (by rw [hcons])
  · exact .inl hcons

theorem readName_integer (n : Int) (rest : List Char) : readName (integer n ++ rest) = none := by
  obtain ⟨c, l, hc, h | h⟩ := integer_cases n
  · have hne : ∀ d : Char, d.isDigit = false → ¬d = c := fun d hd => (ne_of_isDigit hc hd).symm
    simp [h, readName, readWord, List.isPrefixOf, hne]
  · have hne : ∀ d : Char, d.isDigit = false → ¬d = c := fun d hd => (ne_of_isDigit hc hd).symm
    simp [h, readName, readWord, List.isPrefixOf, hne]

theorem readValue_integer (n : Int) (fuel : ℕ) {rest : List Char} (hrest : Ends rest) :
    readValue (fuel + 1) (integer n ++ rest) = some (num n, rest) := by
  have hread : readValue (fuel + 1) (integer n ++ rest) =
      (readName (integer n ++ rest) <|> readNumber (integer n ++ rest)) := by
    obtain ⟨c, l, hc, h | h⟩ := integer_cases n
    · rw [h, List.cons_append, readValue]
      · exact fun _ heq => absurd hc (by rw [(List.cons.inj heq).1]; decide)
      · exact fun _ heq => absurd hc (by rw [(List.cons.inj heq).1]; decide)
      · exact fun _ heq => absurd hc (by rw [(List.cons.inj heq).1]; decide)
    · rw [h, List.cons_append, readValue]
      · exact fun _ heq => absurd (List.cons.inj heq).1 (by decide)
      · exact fun _ heq => absurd (List.cons.inj heq).1 (by decide)
      · exact fun _ heq => absurd (List.cons.inj heq).1 (by decide)
  rw [hread, readName_integer, readNumber_integer n hrest]
  rfl

theorem ends_dumpItems (items : List Json) (rest : List Char) : Ends (dumpItems items ++ rest) := by
  cases items with
  | nil => rw [dumpItems]; exact ends_cons (by decide)
  | cons v items => rw [dumpItems]; exact ends_cons (by decide)

theorem ends_dumpFields (fields : List (String × Json)) (rest : List Char) :
    Ends (dumpFields fields ++ rest) := by
  cases fields with
  | nil => rw [dumpFields]; exact ends_cons (by decide)
  | cons f fields => rw [dumpFields]; exact ends_cons (by decide)

mutual

/-- A value is read back at the head of a text. -/
theorem readValue_dumps : ∀ (v : Json) (fuel : ℕ) (rest : List Char), Plain v →
    cost v ≤ fuel → Ends rest →
    readValue fuel (dumps v ++ rest) = some (v, rest)
  | v, 0, rest, _, hcost, _ => by
      cases v <;> simp [cost] at hcost
  | null, fuel + 1, rest, _, _, _ => by simp [dumps, readValue, readName, readWord]
  | bool true, fuel + 1, rest, _, _, _ => by simp [dumps, readValue, readName, readWord]
  | bool false, fuel + 1, rest, _, _, _ => by simp [dumps, readValue, readName, readWord]
  | num n, fuel + 1, rest, _, _, hrest => by
      rw [dumps]
      exact readValue_integer n fuel hrest
  | real x, fuel + 1, rest, hplain, _, _ => absurd hplain (by simp [Plain])
  | str s, fuel + 1, rest, _, _, _ => by
      rw [dumps, List.cons_append, readValue, readString_escapes]
      rfl
  | arr [], fuel + 1, rest, _, _, _ => by
      rw [dumps, List.cons_append, readValue]
      simp [dropWs]
  | arr (v :: items), fuel + 1, rest, hplain, hcost, _ => by
      have hread :=
        readItems_dumps (v :: items) fuel rest hplain
          (by simp only [cost] at hcost; omega) v items rfl
      obtain ⟨c, l, hcons, hstarts⟩ := starts_dumps hplain.1
      rw [hcons, List.cons_append, List.cons_append] at hread
      rw [dumps, hcons, List.cons_append, List.cons_append, List.cons_append, readValue,
        dropWs_cons hstarts.not_ws.1]
      split
      · rename_i heq
        exact absurd (List.cons.inj heq).1 hstarts.not_ws.2
      · rw [hread]
        rfl
  | obj [], fuel + 1, rest, _, _, _ => by
      rw [dumps, List.cons_append, readValue]
      simp [dropWs]
  | obj ((k, v) :: fields), fuel + 1, rest, hplain, hcost, _ => by
      have hread :=
        readFields_dumps ((k, v) :: fields) fuel rest hplain.1
          (by simp only [cost] at hcost; omega) k v fields rfl
      rw [dumps, List.cons_append, List.cons_append, readValue, dropWs_cons (by decide)]
      change Option.map _ (readFields fuel
        (escapes k.toList ++ ':' :: (dumps v ++ dumpFields fields) ++ rest)) = _
      rw [hread, Option.map_some, foldl_putField hplain.2]

theorem readItems_dumps : ∀ (items : List Json) (fuel : ℕ) (rest : List Char), PlainItems items →
    itemsCost items ≤ fuel →
    ∀ v more, items = v :: more →
      readItems fuel (dumps v ++ dumpItems more ++ rest) = some (items, rest)
  | [], _, _, _, _ => fun v more h => by cases h
  | v :: items, 0, rest, hplain, hcost => by
      simp [itemsCost] at hcost
  | v :: items, fuel + 1, rest, hplain, hcost => by
      rintro _ _ ⟨rfl, rfl⟩
      simp only [itemsCost] at hcost
      rw [readItems, List.append_assoc,
        readValue_dumps v fuel _ hplain.1 (by omega) (ends_dumpItems items rest), Option.bind_some]
      cases items with
      | nil => simp [dumpItems, dropWs]
      | cons w more =>
          have hread := readItems_dumps (w :: more) fuel rest hplain.2 (by omega) w more rfl
          rw [dumpItems, List.cons_append, dropWs_cons (by decide)]
          change Option.map _ (readItems fuel (dropWs (dumps w ++ dumpItems more ++ rest))) = _
          rw [List.append_assoc, dropWs_dumps hplain.2.1, ← List.append_assoc, hread,
            Option.map_some]

theorem readFields_dumps : ∀ (fields : List (String × Json)) (fuel : ℕ) (rest : List Char),
    PlainFields fields →
    fieldsCost fields ≤ fuel → ∀ k v more, fields = (k, v) :: more →
      readFields fuel (escapes k.toList ++ ':' :: (dumps v ++ dumpFields more) ++ rest)
        = some (fields, rest)
  | [], _, _, _, _ => fun k v more h => by cases h
  | (k, v) :: fields, 0, rest, hplain, hcost => by
      simp [fieldsCost] at hcost
  | (k, v) :: fields, fuel + 1, rest, hplain, hcost => by
      rintro _ _ _ ⟨⟨rfl, rfl⟩, rfl⟩
      simp only [fieldsCost] at hcost
      rw [readFields, List.append_assoc, readString_escapes, Option.bind_some, List.cons_append,
        dropWs_cons (by decide)]
      change Option.bind (readValue fuel (dropWs (dumps v ++ dumpFields fields ++ rest))) _ = _
      rw [List.append_assoc, dropWs_dumps hplain.1,
        readValue_dumps v fuel _ hplain.1 (by omega) (ends_dumpFields fields rest),
        Option.bind_some]
      cases fields with
      | nil => simp [dumpFields, dropWs]
      | cons f more =>
          obtain ⟨name, w⟩ := f
          have hread :=
            readFields_dumps ((name, w) :: more) fuel rest hplain.2 (by omega) name w more rfl
          rw [dumpFields, List.cons_append, List.cons_append, dropWs_cons (by decide)]
          have hname :
              dropWs ('"' :: (escapes name.toList ++ ':' :: (dumps w ++ dumpFields more) ++ rest)) =
              '"' :: (escapes name.toList ++ ':' :: (dumps w ++ dumpFields more) ++ rest) :=
                dropWs_cons (by decide)
          simp only [hname, hread, Option.map_some]

end

mutual

/-- A text is as long as its reading is deep. -/
theorem cost_le_length : ∀ v : Json, Plain v → cost v ≤ (dumps v).length
  | null, _ => by simp [cost, dumps]
  | bool true, _ => by simp [cost, dumps]
  | bool false, _ => by simp [cost, dumps]
  | num n, _ => by
      obtain ⟨c, l, hcons, -⟩ := starts_integer n
      simp [cost, dumps, hcons]
  | real x, h => absurd h (by simp [Plain])
  | str s, _ => by simp [cost, dumps]
  | arr [], _ => by simp [cost, itemsCost, dumps]
  | arr (v :: items), h => by
      have hv := cost_le_length v h.1
      have hitems := itemsCost_le_length items h.2
      simp only [cost, itemsCost, dumps, List.length_cons, List.length_append]
      omega
  | obj [], _ => by simp [cost, fieldsCost, dumps]
  | obj ((k, v) :: fields), h => by
      have hv := cost_le_length v h.1.1
      have hfields := fieldsCost_le_length fields h.1.2
      simp only [cost, fieldsCost, dumps, List.length_cons, List.length_append]
      omega

theorem itemsCost_le_length : ∀ items : List Json, PlainItems items →
    itemsCost items + 1 ≤ (dumpItems items).length
  | [], _ => by simp [itemsCost, dumpItems]
  | v :: items, h => by
      have hv := cost_le_length v h.1
      have hitems := itemsCost_le_length items h.2
      simp only [itemsCost, dumpItems, List.length_cons, List.length_append]
      omega

theorem fieldsCost_le_length : ∀ fields : List (String × Json), PlainFields fields →
    fieldsCost fields + 1 ≤ (dumpFields fields).length
  | [], _ => by simp [fieldsCost, dumpFields]
  | (k, v) :: fields, h => by
      have hv := cost_le_length v h.1
      have hfields := fieldsCost_le_length fields h.2
      simp only [fieldsCost, dumpFields, List.length_cons, List.length_append]
      omega

end

/-- The text of a value gives the value back. -/
theorem loads_dumps {v : Json} (h : Plain v) : loads (dumps v) = some v := by
  have hread := readValue_dumps v (dumps v).length [] h (cost_le_length v h) ends_nil
  have hws := dropWs_dumps h []
  rw [List.append_nil] at hread hws
  rw [loads, hws, hread, Option.bind_some]
  rfl

/-! ### Fields -/

/-- The value of a field of an object. -/
def field? (fields : List (String × Json)) (name : String) : Option Json :=
  (fields.find? (·.1 = name)).map Prod.snd

/-- The value of a field, null where there is none. -/
def get (fields : List (String × Json)) (name : String) : Json := (field? fields name).getD null

theorem field?_append (a b : List (String × Json)) (name : String) :
    field? (a ++ b) name = (field? a name).or (field? b name) := by
  rw [field?, List.find?_append, field?, field?, Option.map_or]

/-- The fields in the order of their names. -/
def sortFields (fields : List (String × Json)) : List (String × Json) :=
  fields.insertionSort fun a b => a.1 ≤ b.1

theorem plainFields_iff {fields : List (String × Json)} :
    PlainFields fields ↔ ∀ f ∈ fields, Plain f.2 := by
  induction fields with
  | nil => simp [PlainFields]
  | cons f fields ih =>
      obtain ⟨k, v⟩ := f
      simp [PlainFields, ih]

theorem plainItems_iff {items : List Json} : PlainItems items ↔ ∀ v ∈ items, Plain v := by
  induction items with
  | nil => simp [PlainItems]
  | cons v items ih => simp [PlainItems, ih]

theorem sortFields_perm (fields : List (String × Json)) : (sortFields fields).Perm fields :=
  List.perm_insertionSort _ _

theorem plain_sortFields {fields : List (String × Json)} (hvalues : ∀ f ∈ fields, Plain f.2)
    (hnames : (fields.map Prod.fst).Nodup) :
    Plain (obj (sortFields fields)) :=
  ⟨plainFields_iff.mpr fun f hf => hvalues f ((sortFields_perm fields).mem_iff.mp hf),
    ((sortFields_perm fields).map Prod.fst).nodup_iff.mpr hnames⟩

theorem field?_eq_some_iff {fields : List (String × Json)} (hnames : (fields.map Prod.fst).Nodup)
    {name : String} {v : Json} :
    field? fields name = some v ↔ (name, v) ∈ fields := by
  rw [field?, Option.map_eq_some_iff]
  constructor
  · rintro ⟨f, hf, rfl⟩
    have hname := List.find?_some hf
    rw [decide_eq_true_eq] at hname
    rw [← hname]
    exact List.mem_of_find?_eq_some hf
  · intro hmem
    have hsome : (fields.find? (·.1 = name)).isSome := List.find?_isSome.mpr ⟨_, hmem, by simp⟩
    obtain ⟨f, hf⟩ := Option.isSome_iff_exists.mp hsome
    refine ⟨f, hf, ?_⟩
    have hname := List.find?_some hf
    rw [decide_eq_true_eq] at hname
    exact congrArg Prod.snd (List.inj_on_of_nodup_map hnames
      (List.mem_of_find?_eq_some hf) hmem hname)

theorem field?_sortFields {fields : List (String × Json)} (hnames : (fields.map Prod.fst).Nodup)
    (name : String) :
    field? (sortFields fields) name = field? fields name := by
  have hsorted : ((sortFields fields).map Prod.fst).Nodup :=
    ((sortFields_perm fields).map Prod.fst).nodup_iff.mpr hnames
  refine Option.ext fun v => ?_
  rw [field?_eq_some_iff hsorted, field?_eq_some_iff hnames, (sortFields_perm fields).mem_iff]

end Json
