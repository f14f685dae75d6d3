import Zark.Library.Keyed
import Zark.Library.Scan
import Zark.Library.Text
import Zark.SanoidConf

/-!
# What a self-test report says of the machine

`sanitize` of `lib/certificates.py`: the run's own names, by-id paths, the hostname, long
hexadecimal strings and long numbers of a text are replaced, one kind after the other.

Which characters are words' and which are decimal digits is known of ASCII.
-/

namespace Zark.Sanitize

open Text

/-- `\w` and `\d` of a regular expression. -/
structure CharClasses extends WordChars where
  isDecimal : Char → Bool
  decimal_ascii : ∀ c : Char, c.toNat < 128 → isDecimal c = c.isDigit
  decimal_word : ∀ c, isDecimal c = true → isWord c = true

/-- A name of the run, and what the report has for it. -/
structure Mask where
  name : List Char
  shown : List Char
  deriving DecidableEq

abbrev Masks := Keyed Mask.name

/-! ### Names -/

/-- The names, longest first; what is empty names nothing. -/
def names (masks : Masks) : List (List Char) :=
  (masks.keys.filter (· ≠ [])).insertionSort fun a b => b.length ≤ a.length

/-- One of the names, with no letter or digit beside it: the first of them that fits. -/
def token (names : List (List Char)) : Scan.Pattern Char := fun prev l =>
  if prev.any Char.isAlphanum then none
  else (names.find? fun name => decide (name <+: l) && !(l.drop name.length).head?.any
    Char.isAlphanum).map List.length

/-- `masks[m[0]]`. -/
def shown (masks : Masks) (found : List Char) : List Char :=
  ((masks.get? found).map Mask.shown).getD []

/-! ### By-id paths -/

/-- `/dev/disk/by-id/`. -/
def byIdDir : List Char :=
  ['/', 'd', 'e', 'v', '/', 'd', 'i', 's', 'k', '/', 'b', 'y', '-', 'i', 'd', '/']

/-- `[^\s'"]`. -/
def isPathChar (c : Char) : Bool := !isSpace c && decide (c ≠ '\'' ∧ c ≠ '"')

/-- `_BY_ID`. -/
def byId : Scan.Pattern Char := fun _ l =>
  let name := (l.drop byIdDir.length).takeWhile isPathChar
  if byIdDir <+: l ∧ name ≠ [] then some (byIdDir.length + name.length) else none

def byIdShown : List Char := ['<', 'b', 'y', '-', 'i', 'd', '>']

def hostShown : List Char := ['<', 'h', 'o', 's', 't', '>']

def hexShown : List Char := ['<', 'h', 'e', 'x', '>']

def numberShown : List Char := ['<', 'n', '>']

/-! ### Long runs -/

/-- `[0-9a-fA-F]`. -/
def isHex (c : Char) : Bool := c.isDigit || decide ('a' ≤ c ∧ c ≤ 'f' ∨ 'A' ≤ c ∧ c ≤ 'F')

/-- `x{least,}\b`, for characters of words: no part of the run ends a word but the whole. -/
def run (isWord isOf : Char → Bool) (least : ℕ) (l : List Char) : Option ℕ :=
  let found := l.takeWhile isOf
  if least ≤ found.length ∧ (l.drop found.length).head?.any isWord = false then
    some found.length
  else none

variable (chars : CharClasses)

/-- `_LONG_HEX`. -/
def longHex : Scan.Pattern Char := fun prev l =>
  if prev.any chars.isWord then none
  else if ['0', 'x'] <+: l then
    ((run chars.isWord isHex 12 (l.drop 2)).map (2 + ·)).or (run chars.isWord isHex 12 l)
  else run chars.isWord isHex 12 l

/-- A run of digits alone is left to what comes after. -/
def putHex (found : List Char) : List Char := if found.all Char.isDigit then found else hexShown

/-- `_LONG_NUMBER`. -/
def longNumber : Scan.Pattern Char :=
  fun prev l => if prev.any chars.isWord then none else run chars.isWord chars.isDecimal 8 l

def sanitize (host : List Char) (text : List Char) (masks : Masks) : List Char :=
  let text :=
    if names masks ≠ [] then Scan.sub (token (names masks)) (shown masks) none text else text
  let text := Scan.sub byId (fun _ => byIdShown) none text
  let text :=
    if 1 < host.length then Scan.sub (token [host]) (fun _ => hostShown) none text else text
  let text := Scan.sub (longHex chars) putHex none text
  Scan.sub (longNumber chars) (fun _ => numberShown) none text

end Zark.Sanitize
