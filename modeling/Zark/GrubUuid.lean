import Zark.Library.Scan
import Zark.Library.Text
import Zark.SanoidConf

/-!
# The boot pool's GUID in grub.cfg

`fix_grub_bpool_uuid` of `lib/zfs.py`: every reference that `_GRUB_FS_UUID_RE`,
`(--fs-uuid[^\n]*?\s+)([a-f0-9]{16})\b`, finds in a `grub.cfg` is given the new pool's GUID.

The file is held as the text it decodes to.
-/

namespace Zark.GrubUuid

open Text

variable (words : WordChars)

/-- `--fs-uuid`. -/
def marker : List Char := ['-', '-', 'f', 's', '-', 'u', 'u', 'i', 'd']

/-- `[a-f0-9]`. -/
def isHex (c : Char) : Bool := decide ('a' ≤ c ∧ c ≤ 'f') || c.isDigit

/-- `[a-f0-9]{16}\b`: a hexadecimal digit is a word's, so the character that follows is none. -/
def startsGuid (l : List Char) : Bool :=
  decide (16 ≤ l.length) && (l.take 16).all isHex && !(l.drop 16).head?.any words.isWord

/-- `[^\n]*?\s+` up to a GUID: how far from here it starts. All the blanks are taken, since none is
a hexadecimal digit. -/
def toGuid : List Char → Option ℕ
  | [] => none
  | c :: rest =>
      if isSpace c && startsGuid words (rest.dropWhile isSpace) then
        some (1 + (rest.takeWhile isSpace).length)
      else if c = '\n' then none
      else (toGuid rest).map (· + 1)

/-- `_GRUB_FS_UUID_RE`. -/
def reference : Scan.Pattern Char := fun _ l =>
  if marker <+: l then
    (toGuid words (l.drop marker.length)).map fun n => marker.length + n + 16
  else none

/-- The groups of what `_GRUB_FS_UUID_RE` finds: what leads to the GUID, and the GUID. -/
def groups (found : List Char) : List Char × List Char :=
  (found.take (found.length - 16), found.drop (found.length - 16))

/-- `_sub`. -/
def put (new found : List Char) : List Char :=
  let (lead, old) := groups found
  if old = new then found else lead ++ new

/-- `sorted` of a set of texts. -/
def sortedSet (l : List String) : List String := l.dedup.mergeSort fun a b => decide (a ≤ b)

/-- The file after `fix_grub_bpool_uuid`, whether it was there, and the line logged. -/
def fixGrubBpoolUuid (path name : String) (file : Option (List Char)) (new : List Char) :
    Option (List Char) × Bool × String :=
  match file with
  | none => (none, false, path ++ " not found - bpool content was not restored")
  | some file =>
      let content := universalNewlines file
      let found := (Scan.findAll (reference words) none content).map fun l => (groups l).2
      let old := found.filter (· ≠ new)
      if found = [] then
        (some file, true, "No fs-uuid --set= references in " ++ name ++ " - bpool UUID not updated")
      else if old = [] then
        (some file, true, "grub.cfg bpool UUID already correct: " ++ String.ofList new)
      else (some (Scan.sub (reference words) (put new) none content), true,
        "Fixed bpool UUID in grub.cfg: " ++ ", ".intercalate (sortedSet (old.map String.ofList)) ++
          " → " ++ String.ofList new)

/-- The text of a file after `fix_grub_bpool_uuid`. -/
def fixed (file new : List Char) : List Char :=
  (fixGrubBpoolUuid words "" "" (some file) new).1.getD []

end Zark.GrubUuid
