import Zark.Library.Scan
import Zark.Library.Text
import Zark.SanoidConf

/-!
# What recover rewrites in a restored system

`lib/boot_rewrite.py`: the UUID of `/boot` in `grub.cfg` and `fstab`, and the swap's PARTUUID in
`crypttab`, line by line.

What is looked for is a UUID, and of all characters only ASCII letters are folded to one of a
UUID's, so ASCII's case is all that matters here.
-/

namespace Zark.BootRewrite

open Text

/-- `str.lower`, as far as a UUID goes. -/
def lower (l : List Char) : List Char := l.map Char.toLower

/-- A hexadecimal digit of either case or a dash. -/
def isUuidChar (c : Char) : Bool :=
  c.toLower.isDigit || decide ('a' ≤ c.toLower ∧ c.toLower ≤ 'f') || c.toLower == '-'

/-- `UUID`: 8-4-4-4-12 hexadecimal digits. -/
def isUuid (l : List Char) : Bool :=
  decide ((l.splitOn '-').map List.length = [8, 4, 4, 4, 12]) && l.all isUuidChar

/-- `uuid.lower() in text.lower()`. -/
def names (uuid text : List Char) : Bool := decide (lower uuid <:+: lower text)

/-- `re.escape(old)` with `re.IGNORECASE`. -/
def literal (old : List Char) : Scan.Pattern Char :=
  fun _ l => if lower old <+: lower l then some old.length else none

/-- `re.sub(re.escape(old), new, line, flags=re.IGNORECASE)`. -/
def replaceAll (old new line : List Char) : List Char :=
  Scan.sub (literal old) (fun _ => new) none line

/-- `line.replace(old, new, 1)`. -/
def replaceFirst (old new : List Char) : List Char → List Char
  | [] => if old = [] then new else []
  | c :: rest =>
      if old <+: c :: rest then
        new ++ (c :: rest).drop old.length
      else c :: replaceFirst old new rest

/-- The lines changed one by one, joined again, and how many changed. -/
def rewriteLines (change : List Char → List Char) (text : List Char) : List Char × ℕ :=
  (((linesKept text).map change).flatten, (linesKept text).countP fun line => change line ≠ line)

/-- `_fields`: none for a comment or a blank line. -/
def fields (line : List Char) : List (List Char) :=
  let stripped := strip isSpace line
  if stripped = [] ∨ stripped.head? = some '#' then [] else words isSpace stripped

def boot : List Char := ['/', 'b', 'o', 'o', 't']

/-- `/boot`'s line, whose device names `old`. -/
def isBootLine (old line : List Char) : Bool :=
  match fields line with
  | device :: point :: _ => decide (point = boot) && names old device
  | _ => false

def rewriteFstab (text old new : List Char) : List Char × ℕ :=
  rewriteLines (fun line => if isBootLine old line then replaceAll old new line else line) text

def swap : List Char := ['s', 'w', 'a', 'p']

def partuuid : List Char := ['P', 'A', 'R', 'T', 'U', 'U', 'I', 'D', '=']

/-- The device of a swap's line, where it is a PARTUUID. -/
def swapDevice (line : List Char) : Option (List Char) :=
  match fields line with
  | _ :: device :: _ :: options :: _ =>
      if swap ∈ options.splitOn ',' ∧ partuuid <+: device then some device else none
  | _ => none

def rewriteCrypttab (text new : List Char) : List Char × ℕ :=
  rewriteLines (fun line => match swapDevice line with
    | some device => replaceFirst device (partuuid ++ new) line
    | none => line) text

def search : List Char := ['s', 'e', 'a', 'r', 'c', 'h']

/-- `_is_search`: the first word is `search` or begins with `search.`. -/
def isSearch (line : List Char) : Bool :=
  match words isSpace line with
  | word :: _ => decide (word = search ∨ search ++ ['.'] <+: word)
  | [] => false

def isSearchLine (old line : List Char) : Bool := isSearch line && names old line

def rewriteGrubUuid (text old new : List Char) : List Char × ℕ :=
  rewriteLines (fun line => if isSearchLine old line then replaceAll old new line else line) text

end Zark.BootRewrite
