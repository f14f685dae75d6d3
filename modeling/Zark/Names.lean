import Zark.Library.Calendar
import Zark.Library.Hierarchy

/-!
# The names zark writes and reads

Dataset names are lists of components under the pool root. Snapshot and bookmark names are text, and
the regular expressions of the source are read here as functions on their characters: a backup point
`zark_<stamp>`, a drive's anchor `zark_<pool GUID>_<stamp>`, sanoid's `autosnap_`. ZFS names hold
ASCII only and no line end, so a digit is an ASCII digit and the end of a pattern is the end of the
name.

What the rest of the development knows about these names is here: a point is no anchor, an anchor
names its drive, and cutting the archive suffixes keeps the tree order.
-/

namespace Zark

open Hierarchy

/-- A dataset name relative to the pool root. -/
abbrev Rel := List String

instance Rel.lawfulBEq : LawfulBEq Rel := inferInstance

/-- A dataset and one of its snapshots, the pair that settings are kept by. -/
instance Rel.lawfulBEqProd : LawfulBEq (Rel × String) := inferInstance

/-- The name as text. -/
def Rel.text (r : Rel) : String := "/".intercalate r

/-- A text cut at its slashes. -/
def Rel.ofText (text : String) : Rel := (text.toList.splitOn '/').map String.ofList

theorem text_ofText (text : String) : (Rel.ofText text).text = text := by
  apply String.toList_injective
  rw [Rel.text, Rel.ofText, String.toList_intercalate, List.map_map]
  have hid : String.toList ∘ String.ofList = id := funext fun l => String.toList_ofList
  rw [hid, List.map_id]
  exact List.intercalate_splitOn '/'

/-- A list of components that is a text cut at its slashes. -/
def Rel.IsName (r : Rel) : Prop := Rel.ofText r.text = r

instance (r : Rel) : Decidable r.IsName := inferInstanceAs (Decidable (_ = _))

theorem isName_ofText (text : String) : (Rel.ofText text).IsName :=
  congrArg Rel.ofText (text_ofText text)

theorem text_injective {a b : Rel} (ha : a.IsName) (hb : b.IsName) (h : a.text = b.text) :
    a = b := by
  rw [← ha, ← hb, h]

/-- Python's order of names, that of their texts; the length settles it for lists of components no
pool holds together. -/
def Rel.key (r : Rel) : String ×ₗ ℕ := toLex (r.text, r.length)

private theorem text_le_of_under {r t : Rel} (h : Under r t) : t.text ≤ r.text := by
  obtain ⟨tail, rfl⟩ := h
  have hstart : t.text.toList <+: (Rel.text (t ++ tail)).toList := by
    by_cases ht : t = []
    · simp [ht, Rel.text]
    · by_cases htail : tail = []
      · rw [htail, List.append_nil]
      · rw [Rel.text, Rel.text, String.intercalate_append_of_ne_nil ht htail, String.append_assoc,
          String.toList_append]
        exact List.prefix_append _ _
  rw [← not_lt, String.lt_iff_toList_lt]
  intro hlt
  exact List.IsPrefix.le hstart hlt

/-- A name is longer than every other name above it. -/
theorem text_length_lt {r t : Rel} (h : Under r t) (hne : r ≠ t) (ht : t.text ≠ "") :
    t.text.length < r.text.length := by
  obtain ⟨tail, rfl⟩ := h
  have htail : tail ≠ [] := by
    rintro rfl
    exact hne (List.append_nil t)
  have ht : t ≠ [] := by
    rintro rfl
    exact ht rfl
  rw [Rel.text, Rel.text, String.intercalate_append_of_ne_nil ht htail]
  simp only [String.length_append]
  have hslash : "/".length = 1 := rfl
  omega

/-- A name sorts before every name below it. -/
theorem key_lt_of_under_of_ne {r t : Rel} (h : Under r t) (hne : r ≠ t) : t.key < r.key := by
  rw [Rel.key, Rel.key, Prod.Lex.toLex_lt_toLex]
  rcases (text_le_of_under h).lt_or_eq with hlt | heq
  · exact .inl hlt
  · exact .inr ⟨heq, length_lt_of_under_of_ne h hne⟩

/-- `s.startswith(pre)`. -/
def startsWith (s pre : String) : Bool := pre.toList.isPrefixOf s.toList

/-! ### Stamps -/

/-- `\d{4}-\d\d-\d\d_\d\d:\d\d:\d\dZ`. -/
def isStamp : List Char → Bool
  | [y₁, y₂, y₃, y₄, '-', m₁, m₂, '-', d₁, d₂, '_', h₁, h₂, ':', n₁, n₂, ':', s₁, s₂, 'Z'] =>
      [y₁, y₂, y₃, y₄, m₁, m₂, d₁, d₂, h₁, h₂, n₁, n₂, s₁, s₂].all Char.isDigit
  | _ => false

private def digit (n : Nat) : Char := Nat.digitChar (n % 10)

private theorem isDigit_digit (n : Nat) : (digit n).isDigit = true := by
  rw [digit, Nat.isDigit_digitChar]
  simpa using Nat.mod_lt n (by decide)

/-- `%Y-%m-%d_%H:%M:%SZ` of a unix time; the source's calendar ends with year 9999. -/
def stamp (t : Nat) : List Char :=
  let date := Calendar.ofSeconds t
  let year := date.year
  [digit (year / 1000), digit (year / 100), digit (year / 10), digit year, '-',
    digit (date.month / 10), digit date.month, '-', digit (date.day / 10), digit date.day, '_',
    digit (t / 3600 % 24 / 10), digit (t / 3600 % 24), ':',
    digit (t / 60 % 60 / 10), digit (t / 60 % 60), ':', digit (t % 60 / 10), digit (t % 60), 'Z']

theorem isStamp_stamp (t : Nat) : isStamp (stamp t) = true := by
  simp [isStamp, stamp, isDigit_digit]

/-- A stamp starts with a digit and holds no underscore among its leading digits, so what follows
`zark_` tells a point from an anchor. -/
theorem isStamp_cases {l : List Char} (h : isStamp l = true) :
    ∃ year rest, l = year ++ '-' :: rest ∧ year.all Char.isDigit = true := by
  unfold isStamp at h
  split at h
  · rename_i y₁ y₂ y₃ y₄ m₁ m₂ d₁ d₂ h₁ h₂ n₁ n₂ s₁ s₂
    simp only [List.all_cons, Bool.and_eq_true] at h
    exact ⟨[y₁, y₂, y₃, y₄], [m₁, m₂, '-', d₁, d₂, '_', h₁, h₂, ':', n₁, n₂, ':', s₁, s₂, 'Z'], rfl,
      by simp only [List.all_cons, List.all_nil, h.1, h.2.1, h.2.2.1, h.2.2.2.1, Bool.and_self]⟩
  · cases h

/-! ### Backup points and anchors -/

def pointPrefix : List Char := "zark_".toList

/-- `POINT_RE`: the name of a backup point. -/
def isPoint (name : String) : Bool :=
  match name.toList.dropPrefix? pointPrefix with
  | some rest => isStamp rest
  | none => false

/-- The name of the backup point of a moment. -/
def pointName (now : Nat) : String := String.ofList (pointPrefix ++ stamp now)

/-- Per-disk anchor name (bookmark on rpool, snapshot on bpool) for a point. -/
def anchorName (diskGuid point : String) : String :=
  String.ofList (pointPrefix ++ diskGuid.toList ++ '_' :: point.toList.drop pointPrefix.length)

/-- Pool GUID an anchor belongs to, or "" if `name` is not an anchor (`ANCHOR_RE`). -/
def anchorDisk (name : String) : String :=
  match name.toList.dropPrefix? pointPrefix with
  | some rest =>
      match rest.dropWhile Char.isDigit with
      | '_' :: tail => if isStamp tail then String.ofList (rest.takeWhile Char.isDigit) else ""
      | _ => ""
  | none => ""

/-- A pool GUID: decimal digits, at least one. -/
structure DiskGuid where
  text : String
  digits : text.toList.all Char.isDigit = true
  nonempty : text ≠ ""
  deriving DecidableEq

theorem dropPrefix?_append (p l : List Char) : (p ++ l).dropPrefix? p = some l :=
  List.dropPrefix?_eq_some_iff.mpr ⟨p, rfl, by simp⟩

theorem isPoint_iff {name : String} :
    isPoint name = true ↔ ∃ rest, name.toList = pointPrefix ++ rest ∧ isStamp rest = true := by
  unfold isPoint
  split
  · rename_i rest h
    obtain ⟨p, hp, heq⟩ := List.dropPrefix?_eq_some_iff.mp h
    rw [beq_iff_eq] at heq
    subst heq
    exact ⟨fun hs => ⟨rest, hp, hs⟩, fun ⟨rest', h', hs⟩ =>
      List.append_cancel_left (hp.symm.trans h') ▸ hs⟩
  · rename_i h
    refine ⟨fun h' => absurd h' (by simp), fun ⟨rest, h', _⟩ => ?_⟩
    rw [h', dropPrefix?_append] at h
    cases h

theorem isPoint_pointName (now : Nat) : isPoint (pointName now) = true :=
  isPoint_iff.mpr ⟨stamp now, String.toList_ofList, isStamp_stamp now⟩

/-- A backup point is no drive's anchor. -/
theorem anchorDisk_of_isPoint {name : String} (h : isPoint name = true) : anchorDisk name = "" := by
  obtain ⟨rest, hname, hstamp⟩ := isPoint_iff.mp h
  obtain ⟨year, tail, rfl, hyear⟩ := isStamp_cases hstamp
  have hdrop : (year ++ '-' :: tail).dropWhile Char.isDigit = '-' :: tail := by
    rw [List.dropWhile_append_of_pos (fun c hc => List.all_eq_true.mp hyear c hc)]
    rfl
  simp only [anchorDisk, hname, dropPrefix?_append, hdrop]
  rfl

/-- The anchor of a drive for a point names the drive. -/
theorem anchorDisk_anchorName (disk : DiskGuid) {point : String} (h : isPoint point = true) :
    anchorDisk (anchorName disk.text point) = disk.text := by
  obtain ⟨rest, hpoint, hstamp⟩ := isPoint_iff.mp h
  have hdigits : ∀ c ∈ disk.text.toList, c.isDigit = true := List.all_eq_true.mp disk.digits
  have hbody : point.toList.drop pointPrefix.length = rest := by
    rw [hpoint, List.drop_left]
  have hdrop : (disk.text.toList ++ '_' :: rest).dropWhile Char.isDigit = '_' :: rest := by
    rw [List.dropWhile_append_of_pos hdigits]
    rfl
  have htake : (disk.text.toList ++ '_' :: rest).takeWhile Char.isDigit = disk.text.toList := by
    rw [List.takeWhile_append_of_pos hdigits]
    simp
  simp only [anchorDisk, anchorName, hbody, String.toList_ofList, List.append_assoc,
    dropPrefix?_append, hdrop, hstamp, if_true, htake, String.ofList_toList]

theorem isPoint_anchorName (disk : DiskGuid) {point : String} (h : isPoint point = true) :
    isPoint (anchorName disk.text point) = false := by
  rw [← Bool.not_eq_true]
  intro hpoint
  have := anchorDisk_of_isPoint hpoint
  rw [anchorDisk_anchorName disk h] at this
  exact disk.nonempty this

example : anchorDisk "zark_1234_2026-01-02_03:04:05Z" = "1234" := by decide

/-! ### Archived lineages -/

def archiveMark : List Char := ".archived-".toList

/-- The characters up to the first archive mark. -/
def cutMark : List Char → List Char
  | [] => []
  | c :: cs => if archiveMark.isPrefixOf (c :: cs) then [] else c :: cutMark cs

def hasMark : List Char → Bool
  | [] => false
  | c :: cs => archiveMark.isPrefixOf (c :: cs) || hasMark cs

theorem cutMark_prefix (l : List Char) : cutMark l <+: l := by
  induction l with
  | nil => exact List.prefix_rfl
  | cons c cs ih =>
      unfold cutMark
      split
      · exact List.nil_prefix
      · exact List.cons_prefix_cons.mpr ⟨rfl, ih⟩

theorem hasMark_cutMark (l : List Char) : hasMark (cutMark l) = false := by
  induction l with
  | nil => rfl
  | cons c cs ih =>
      unfold cutMark
      split
      · rfl
      · rename_i h
        rw [hasMark, ih, Bool.or_false, ← Bool.not_eq_true]
        intro hcut
        refine h (List.isPrefixOf_iff_prefix.mpr ?_)
        exact (List.isPrefixOf_iff_prefix.mp hcut).trans
          (List.cons_prefix_cons.mpr ⟨rfl, cutMark_prefix cs⟩)

theorem cutMark_of_not_hasMark {l : List Char} (h : hasMark l = false) : cutMark l = l := by
  induction l with
  | nil => rfl
  | cons c cs ih =>
      rw [hasMark, Bool.or_eq_false_iff] at h
      rw [cutMark, if_neg (by simp [h.1]), ih h.2]

/-- An archived lineage or anything below one. -/
def isArchived (rel : Rel) : Bool := rel.any fun part => hasMark part.toList

/-- The name with every archive suffix cut from its components. -/
def logical (rel : Rel) : Rel := rel.map fun part => String.ofList (cutMark part.toList)

theorem isArchived_of_under {r t : Rel} (h : Under r t) (ht : isArchived t = true) :
    isArchived r = true := by
  obtain ⟨tail, rfl⟩ := h
  rw [isArchived, List.any_append, Bool.or_eq_true]
  exact Or.inl ht

theorem isArchived_logical (rel : Rel) : isArchived (logical rel) = false := by
  simp [isArchived, logical, hasMark_cutMark]

theorem logical_of_not_isArchived {rel : Rel} (h : isArchived rel = false) : logical rel = rel := by
  rw [isArchived, List.any_eq_false] at h
  unfold logical
  conv_rhs => rw [← List.map_id rel]
  refine List.map_congr_left fun part hpart => ?_
  rw [cutMark_of_not_hasMark (by simpa using h part hpart), String.ofList_toList, id]

theorem logical_under {r t : Rel} (h : Under r t) : Under (logical r) (logical t) :=
  List.IsPrefix.map _ h

/-- The zark that runs. -/
def zarkVersion : String := "2.2.0"

/-! ### Pools -/

/-- The bpool tree. -/
def isBpool (rel : Rel) : Bool := decide (Under rel ["bpool"])

def keystore : Rel := ["rpool", "keystore"]

/-- Created, never received, by recover. -/
def structural : List Rel :=
  [["rpool"], ["rpool", "ROOT"], ["rpool", "USERDATA"], ["bpool"], ["bpool", "BOOT"]]

end Zark
