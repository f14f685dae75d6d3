import Zark.Proof.Mountpoints
import Zark.RecoverCommands

/-!
# The words of recover's commands

Each command is words put together with blanks, the dataset of a creation quoted, so the shell reads
what was meant exactly where each word stands for itself. Names ZFS allows fail that by a space
alone; a property's value may fail it in every way.
-/

namespace Zark.RecoverCommands

open Hierarchy Reclaim Shell

variable {matching : Shell.Word → List Char → Bool}

/-! ### Commands as words -/

/-- A command's fields are these words, whatever files there are. -/
def Exactly (matching : Shell.Word → List Char → Bool) (command : String) (words : List String) :
    Prop :=
  ∀ files : List (List Char), files.Nodup →
    Shell.fields matching files command.toList = some (words.map String.toList)

/-- What `sh.run` runs of a command is these words. -/
def RunsExactly (matching : Shell.Word → List Char → Bool) (command : String)
    (words : List String) : Prop :=
  ∀ files : List (List Char), files.Nodup →
    run matching files command.toList = some (words.map String.toList)

/-- An option as `receive_options` writes it. -/
def IsOption (o : String) : Prop :=
  ∃ value : List Char, Begins value ∧ o.toList = ['-', 'o', ' '] ++ value

/-- The value of an option. -/
def optionValue (o : String) : List Char := o.toList.drop 3

theorem IsOption.toList {o : String} (h : IsOption o) :
    o.toList = ['-', 'o', ' '] ++ optionValue o := by
  obtain ⟨value, -, hvalue⟩ := h
  rw [optionValue, hvalue]
  rfl

theorem IsOption.begins {o : String} (h : IsOption o) : Begins (optionValue o) := by
  obtain ⟨value, hbegins, hvalue⟩ := h
  rw [optionValue, hvalue]
  exact hbegins

theorem spaced_append (a b : List (List Char)) : spaced (a ++ b) = spaced a ++ spaced b :=
  List.flatMap_append

theorem intercalate_blank {l : List (List Char)} (h : l ≠ []) :
    [' '].intercalate l ++ [' '] = spaced l := by
  induction l with
  | nil => exact absurd rfl h
  | cons a l ih =>
      cases l with
      | nil => simp [spaced]
      | cons b l =>
          rw [List.intercalate_cons_cons, List.append_assoc, ih (List.cons_ne_nil _ _)]
          simp [spaced]

theorem toList_optionWords (options : List String) :
    (optionWords options).map String.toList = options.flatMap fun o =>
      [['-', 'o'], optionValue o] := by
  induction options with
  | nil => rfl
  | cons o options ih =>
      rw [optionWords, List.flatMap_cons, List.map_append, ← optionWords, ih, List.flatMap_cons]
      simp [optionValue]

theorem toList_options {options : List String} (hne : options ≠ [])
    (hoptions : ∀ o ∈ options, IsOption o) :
    (" ".intercalate options ++ " ").toList = spaced ((optionWords options).map String.toList) := by
  rw [String.toList_append, String.toList_intercalate]
  show [' '].intercalate (options.map String.toList) ++ [' '] = _
  rw [intercalate_blank (by simpa using hne), toList_optionWords]
  clear hne
  induction options with
  | nil => rfl
  | cons o options ih =>
      rw [List.forall_mem_cons] at hoptions
      have hrest := ih hoptions.2
      rw [List.map_cons, List.flatMap_cons, spaced_append, ← hrest]
      simp [spaced, hoptions.1.toList]

theorem toList_sendCommand (src : String) (raw : Bool) (base : Option String)
    (hbase : ∀ b ∈ base, b ≠ "") :
    (sendCommand src raw (base.getD "")).toList =
      spaced ((["zfs", "send"] ++ (if raw then ["-w"] else []) ++ base.elim [] fun b =>
        ["-i", b]).map String.toList) ++ src.toList := by
  cases base with
  | none => cases raw <;> simp [sendCommand, spaced]
  | some b =>
      have hb : b ≠ "" := hbase b rfl
      cases raw <;> simp [sendCommand, spaced, hb]

theorem toList_bookmarkCommand (rel : Rel) (snap : Snap) (disk : DiskGuid) :
    (bookmarkCommand rel snap disk).toList =
      spaced (["zfs", "bookmark", rel.text ++ "@" ++ snap.name].map String.toList) ++
        (rel.text ++ "#" ++ anchorFor disk snap).toList := by
  unfold bookmarkCommand
  generalize anchorFor disk snap = name, rel.text = a, snap.name = b
  simp [spaced]

theorem toList_createCommand {row : RestoreRow} (hne : row.options ≠ [])
    (hoptions : ∀ o ∈ createOptions row, IsOption o) :
    (createCommand row).toList =
      spaced ((["zfs", "create", "-u"] ++ optionWords (createOptions row)).map String.toList) ++
        quote row.rel.text.toList := by
  have hcut : createCommand row = "zfs create -u " ++ (" ".intercalate (createOptions row) ++
      " ") ++ String.ofList (quote row.rel.text.toList) := by
    simp [createCommand, String.append_assoc]
  have hne' : createOptions row ≠ [] := by simp [createOptions, hne]
  have hhead : "zfs create -u ".toList = spaced (["zfs", "create", "-u"].map String.toList) := by
    simp [spaced]
  simp only [hcut, @String.toList_append ("zfs create -u " ++ _),
    @String.toList_append "zfs create -u ", toList_options hne' hoptions, String.toList_ofList,
    List.map_append, spaced_append, hhead]

theorem toList_receiveCommand {options : List String} (hne : options ≠ [])
    (hoptions : ∀ o ∈ options, IsOption o) (dst : String) :
    (receiveCommand options dst).toList = collapse
    (spaced ((["zfs", "receive", "-u"] ++ optionWords options).map String.toList) ++
      dst.toList) := by
  have hcut : "zfs receive -u " ++ " ".intercalate options ++ " " ++ dst
      = "zfs receive -u " ++ (" ".intercalate options ++ " ") ++ dst := by
    simp [String.append_assoc]
  have hhead : "zfs receive -u ".toList = spaced (["zfs", "receive", "-u"].map String.toList) := by
    simp [spaced]
  simp only [receiveCommand, String.toList_ofList, hcut,
    @String.toList_append ("zfs receive -u " ++ _), @String.toList_append "zfs receive -u ",
    toList_options hne hoptions, List.map_append, spaced_append, hhead]

/-! ### Double spaces -/

theorem size_collapse_le (l : List Char) : size (collapse l) ≤ size l := by
  fun_induction collapse l with
  | case1 rest ih => simp only [size_cons]; omega
  | case2 c rest hne ih => simp only [size_cons]; omega
  | case3 => exact Nat.le_refl _

theorem collapse_of_size {l : List Char} (h : size l ≤ size (collapse l)) : collapse l = l := by
  fun_induction collapse l with
  | case1 rest ih =>
      have hle := size_collapse_le rest
      have hblank : ∀ l, size (' ' :: l) = size l + 1 := size_cons ' '
      rw [hblank, hblank, hblank] at h
      omega
  | case2 c rest hne ih =>
      simp only [size_cons] at h
      rw [ih (by omega)]
  | case3 => rfl

theorem collapse_cons {c : Char} {l : List Char} (h : c ≠ ' ' ∨ l.head? ≠ some ' ') :
    collapse (c :: l) = c :: collapse l := by
  rw [collapse]
  rintro rest rfl rfl
  exact h.elim (· rfl) (· rfl)

theorem collapse_word {w rest : List Char} (hw : ∀ c ∈ w, c ≠ ' ') :
    collapse (w ++ rest) = w ++ collapse rest := by
  induction w with
  | nil => rfl
  | cons c w ih =>
      rw [List.forall_mem_cons] at hw
      rw [List.cons_append, collapse_cons (.inl hw.1), ih hw.2]
      rfl

theorem collapse_spaced {front : List (List Char)} {last : List Char}
    (hne : ∀ l ∈ front ++ [last], l ≠ []) (h : ∀ l ∈ front ++ [last], ∀ c ∈ l, c ≠ ' ') :
    collapse (spaced front ++ last) = spaced front ++ last := by
  induction front with
  | nil =>
      have hlast := @collapse_word last [] (h last (by simp))
      rwa [List.append_nil, collapse, List.append_nil] at hlast
  | cons l front ih =>
      rw [List.cons_append, List.forall_mem_cons] at hne h
      have hcut : spaced (l :: front) ++ last = l ++ ' ' :: (spaced front ++ last) := by
        simp [spaced]
      have hhead : (spaced front ++ last).head? ≠ some ' ' := by
        cases front with
        | nil => exact fun hblank => h.2 last (by simp) ' ' (List.mem_of_mem_head? hblank) rfl
        | cons a front =>
            have ha : a ≠ [] := hne.2 a (by simp)
            have hcut : spaced (a :: front) ++ last = a ++ (' ' :: (spaced front ++ last)) := by
              simp [spaced]
            rw [hcut, List.head?_append_of_ne_nil _ ha]
            exact fun hblank => h.2 a (by simp) ' ' (List.mem_of_mem_head? hblank) rfl
      rw [hcut, collapse_word h.1, collapse_cons (.inr hhead), ih hne.2 h.2]

/-- The same fields where double spaces are taken out. -/
theorem fields_collapse_iff {front : List (List Char)} {last : List Char}
    (hbegins : ∀ l ∈ front ++ [last], Begins l) :
    (∀ files : List (List Char), files.Nodup →
      Shell.fields matching files (collapse (spaced front ++ last)) = some (front ++ [last])) ↔
      ∀ l ∈ front ++ [last], Stands matching l := by
  rw [← fields_plain_iff hbegins]
  constructor
  · intro h
    obtain ⟨ws, hread, htexts, -⟩ := fields_iff.mp h
    have hsame : collapse (spaced front ++ last) = spaced front ++ last := by
      refine collapse_of_size ?_
      have hle := size_le_of_read hread
      rw [weight_texts, htexts, List.map_append, List.sum_append, ← size_spaced] at hle
      rw [size_append]
      simp only [List.map_cons, List.map_nil, List.sum_cons, List.sum_nil] at hle
      omega
    rwa [hsame] at h
  · intro h
    have hstands := (fields_plain_iff hbegins).mp h
    rwa [collapse_spaced (fun l hl => (hbegins l hl).ne_nil) fun l hl c hc => ?_]
    rintro rfl
    have hplain := (hstands l hl).plain _ hc
    revert hplain
    decide

/-! ### Names -/

/-- A name of a pool, a dataset or a snapshot, as ZFS allows them. -/
structure IsZfsName (s : String) : Prop where
  ne_empty : s ≠ ""
  chars : ∀ c ∈ s.toList, isNameChar c = true ∨ c = '/'

/-- A character of a full name. -/
def isFullNameChar (c : Char) : Bool := isNameChar c || decide (c ∈ ['/', '@', '#'])

theorem IsZfsName.full {s : String} (h : IsZfsName s) :
    ∀ c ∈ s.toList, isFullNameChar c = true := by
  intro c hc
  rcases h.chars c hc with hname | rfl
  · simp [isFullNameChar, hname]
  · rfl

theorem isPlain_of_isFullNameChar {c : Char} (h : isFullNameChar c = true) (hspace : c ≠ ' ') :
    isPlain c = true := by
  by_contra hplain
  simp only [isPlain, isBlank, isActive, Bool.and_eq_true, Bool.not_eq_true',
    decide_eq_false_iff_not, decide_eq_true_eq, not_and_or, not_not, List.mem_cons,
    List.not_mem_nil, or_false, hspace, false_or] at hplain
  revert h
  rcases hplain with (rfl | rfl | rfl | rfl | rfl | rfl | rfl | rfl | rfl | rfl) | rfl | rfl | rfl | rfl | rfl <;> decide

theorem not_pattern_of_isFullNameChar {c : Char} (h : isFullNameChar c = true) :
    isPatternChar (c, false) = false := by
  simp only [isPatternChar, Bool.not_false, Bool.true_and, decide_eq_false_iff_not, List.mem_cons,
    List.not_mem_nil, or_false]
  rintro (rfl | rfl | rfl) <;> revert h <;> decide

/-- A text that holds no pattern stands for itself where its characters do. -/
theorem stands_of_plain {l : List Char} (hplain : ∀ c ∈ l, isPlain c = true)
    (hpattern : ∀ c ∈ l, isPatternChar (c, false) = false) : Stands matching l where
  plain := hplain
  alone := by
    intro h
    obtain ⟨p, hp, htrue⟩ := List.any_eq_true.mp h
    obtain ⟨c, hc, rfl⟩ := List.mem_map.mp hp
    rw [hpattern c hc] at htrue
    cases htrue

theorem stands_name_iff {l : List Char} (h : ∀ c ∈ l, isFullNameChar c = true) :
    Stands matching l ↔ ' ' ∉ l := by
  constructor
  · intro hstands hspace
    have hplain := hstands.plain _ hspace
    revert hplain
    decide
  · intro hspace
    refine stands_of_plain (fun c hc => isPlain_of_isFullNameChar (h c hc) ?_) fun c hc =>
      not_pattern_of_isFullNameChar (h c hc)
    rintro rfl
    exact hspace hc

theorem IsZfsName.begins {s : String} (h : IsZfsName s) : Begins s.toList where
  ne_nil := by simpa using h.ne_empty
  head := by
    intro c hc
    rcases h.chars c (List.mem_of_mem_head? hc) with hname | rfl
    · refine ⟨?_, ?_⟩ <;> rintro rfl <;> revert hname <;> decide
    · decide

theorem begins_append {a : List Char} (h : Begins a) (b : List Char) : Begins (a ++ b) where
  ne_nil := by simp [h.ne_nil]
  head := by
    rw [List.head?_append_of_ne_nil _ h.ne_nil]
    exact h.head

/-- The words that are in every command. -/
def fixedWords : List String :=
  ["zfs", "send", "-w", "-i", "receive", "-u", "-o", "bookmark", "create"]

theorem begins_fixed : ∀ w ∈ fixedWords, Begins w.toList := by
  have hall : ∀ w ∈ fixedWords, w.toList ≠ [] ∧
      w.toList.head?.all (fun c => c ≠ '#' && c ≠ '~') = true := by decide
  intro w hw
  obtain ⟨hne, hhead⟩ := hall w hw
  exact ⟨hne, fun c hc => by simpa [Option.mem_def.mp hc] using hhead⟩

theorem stands_fixed : ∀ w ∈ fixedWords, Stands matching w.toList := by
  have hall : ∀ w ∈ fixedWords, (∀ c ∈ w.toList, isPlain c = true) ∧
      ∀ c ∈ w.toList, isPatternChar (c, false) = false := by decide
  exact fun w hw => stands_of_plain (hall w hw).1 (hall w hw).2

/-! ### Each command -/

/-- The words a command begins with: fixed ones, and its own. -/
structure Front (front own : List String) : Prop where
  cases : ∀ w ∈ front, w ∈ fixedWords ∨ w ∈ own
  own : ∀ w ∈ own, w ∈ front

variable {front own : List String} {last command : String}

theorem Front.begins (h : Front front own) (hown : ∀ w ∈ own, Begins w.toList) :
    ∀ l ∈ front.map String.toList, Begins l :=
  List.forall_mem_map.mpr fun w hw => (h.cases w hw).elim (begins_fixed w) (hown w)

theorem Front.stands_iff (h : Front front own) :
    (∀ l ∈ front.map String.toList, Stands matching l) ↔ ∀ w ∈ own, Stands matching w.toList := by
  rw [List.forall_mem_map]
  exact ⟨fun hfront w hw => hfront w (h.own w hw), fun hown w hw =>
    (h.cases w hw).elim (stands_fixed w) (hown w)⟩

/-- A text whose fields are its words exactly where each stands for itself. -/
theorem exactly_iff_of_fields (h : Front front own) (hown : ∀ w ∈ own, Begins w.toList)
    (hlast : Begins last.toList)
    (hfields : (∀ l ∈ front.map String.toList ++ [last.toList], Begins l) →
      ((∀ files : List (List Char), files.Nodup →
        Shell.fields matching files command.toList
          = some (front.map String.toList ++ [last.toList])) ↔
        ∀ l ∈ front.map String.toList ++ [last.toList], Stands matching l)) :
    Exactly matching command (front ++ [last]) ↔
    (∀ w ∈ own, Stands matching w.toList) ∧ Stands matching last.toList := by
  rw [Exactly, List.map_append]
  refine (hfields (List.forall_mem_append.mpr
    ⟨h.begins hown, List.forall_mem_singleton.mpr hlast⟩)).trans ?_
  rw [List.forall_mem_append, List.forall_mem_singleton, h.stands_iff]

theorem exactly_iff (h : Front front own)
    (hcommand : command.toList = spaced (front.map String.toList) ++ last.toList)
    (hown : ∀ w ∈ own, Begins w.toList) (hlast : Begins last.toList) :
    Exactly matching command (front ++ [last]) ↔
    (∀ w ∈ own, Stands matching w.toList) ∧ Stands matching last.toList :=
  exactly_iff_of_fields h hown hlast (hcommand ▸ fields_plain_iff)

theorem exactly_collapse_iff (h : Front front own)
    (hcommand : command.toList = collapse (spaced (front.map String.toList) ++ last.toList))
    (hown : ∀ w ∈ own, Begins w.toList) (hlast : Begins last.toList) :
    Exactly matching command (front ++ [last]) ↔
    (∀ w ∈ own, Stands matching w.toList) ∧ Stands matching last.toList :=
  exactly_iff_of_fields h hown hlast (hcommand ▸ fields_collapse_iff)

/-- A full name of the drive: names, and what is between them. -/
structure IsFullName (s : String) : Prop where
  begins : Begins s.toList
  chars : ∀ c ∈ s.toList, isFullNameChar c = true

theorem IsZfsName.isFullName {s : String} (h : IsZfsName s) : IsFullName s := ⟨h.begins, h.full⟩

theorem IsFullName.append {a b : String} (ha : IsFullName a)
    (hb : ∀ c ∈ b.toList, isFullNameChar c = true) : IsFullName (a ++ b) where
  begins := by
    rw [String.toList_append]
    exact begins_append ha.begins _
  chars := by
    rw [String.toList_append]
    exact List.forall_mem_append.mpr ⟨ha.chars, hb⟩

theorem IsFullName.stands_iff {s : String} (h : IsFullName s) :
    Stands matching s.toList ↔ ' ' ∉ s.toList := stands_name_iff h.chars

theorem front_send (raw : Bool) (base : Option String) :
    Front (["zfs", "send"] ++ (if raw then ["-w"] else []) ++ base.elim [] fun b =>
      ["-i", b]) base.toList := by
  cases base <;> cases raw <;> constructor <;> simp [fixedWords]

theorem exactly_send_iff {src : String} (hsrc : IsFullName src) (raw : Bool) {base : Option String}
    (hbase : ∀ b ∈ base, IsFullName b) :
    Exactly matching (sendCommand src raw (base.getD "")) (sendWords src raw base) ↔
    (∀ b ∈ base, ' ' ∉ b.toList) ∧ ' ' ∉ src.toList := by
  have hne : ∀ b ∈ base, b ≠ "" := by
    rintro b hb rfl
    exact (hbase "" hb).begins.ne_nil rfl
  rw [sendWords, exactly_iff (front_send raw base) (toList_sendCommand src raw base hne)
    (fun b hb => (hbase b (Option.mem_toList.mp hb)).begins) hsrc.begins, hsrc.stands_iff]
  refine and_congr_left fun _ => ⟨fun h b hb => ?_, fun h b hb => ?_⟩
  · exact (hbase b hb).stands_iff.mp (h b (Option.mem_toList.mpr hb))
  · exact (hbase b (Option.mem_toList.mp hb)).stands_iff.mpr (h b (Option.mem_toList.mp hb))

/-- The values of options, as words. -/
def valueWords (options : List String) : List String :=
  options.map fun o => String.ofList (optionValue o)

theorem front_options {fixed : List String} (hfixed : ∀ w ∈ fixed, w ∈ fixedWords)
    (options : List String) :
    Front (fixed ++ optionWords options) (valueWords options) where
  cases := by
    intro w hw
    rcases List.mem_append.mp hw with hw | hw
    · exact .inl (hfixed w hw)
    · obtain ⟨o, ho, hw⟩ := List.mem_flatMap.mp hw
      rw [List.mem_cons, List.mem_singleton] at hw
      rcases hw with rfl | rfl
      · exact .inl (by decide)
      · exact .inr (List.mem_map_of_mem ho)
  own := by
    intro w hw
    obtain ⟨o, ho, rfl⟩ := List.mem_map.mp hw
    exact List.mem_append_right _ (List.mem_flatMap.mpr ⟨o, ho, by simp [optionValue]⟩)

theorem begins_valueWords {options : List String} (h : ∀ o ∈ options, IsOption o) :
    ∀ w ∈ valueWords options, Begins w.toList := by
  refine List.forall_mem_map.mpr fun o ho => ?_
  rw [String.toList_ofList]
  exact (h o ho).begins

theorem stands_valueWords {options : List String} :
    (∀ w ∈ valueWords options, Stands matching w.toList) ↔
    ∀ o ∈ options, Stands matching (optionValue o) := by
  rw [valueWords, List.forall_mem_map]
  simp only [String.toList_ofList]

theorem exactly_receive_iff {options : List String} (hne : options ≠ [])
    (hoptions : ∀ o ∈ options, IsOption o) {dst : String} (hdst : IsFullName dst) :
    Exactly matching (receiveCommand options dst) (receiveWords options dst) ↔
    (∀ o ∈ options, Stands matching (optionValue o)) ∧ ' ' ∉ dst.toList := by
  rw [receiveWords, exactly_collapse_iff (front_options (by decide) options)
    (toList_receiveCommand hne hoptions dst) (begins_valueWords hoptions) hdst.begins,
    stands_valueWords, hdst.stands_iff]

/-! ### Anchors -/

theorem chars_of_isStamp {l : List Char} (h : isStamp l = true) :
    ∀ c ∈ l, c.isDigit = true ∨ c ∈ ['-', '_', ':', 'Z'] := by
  unfold isStamp at h
  split at h
  · simp only [List.all_cons, List.all_nil, Bool.and_true, Bool.and_eq_true] at h
    obtain ⟨h₁, h₂, h₃, h₄, h₅, h₆, h₇, h₈, h₉, h₁₀, h₁₁, h₁₂, h₁₃, h₁₄⟩ := h
    simp [*]
  · cases h

theorem fullName_of_isDigit {c : Char} (h : c.isDigit = true) :
    isFullNameChar c = true ∧ c ≠ ' ' := by
  refine ⟨by simp [isFullNameChar, isNameChar, Char.isAlphanum, h], ?_⟩
  rintro rfl
  revert h
  decide

theorem chars_anchorFor (disk : DiskGuid) (snap : Snap) :
    ∀ c ∈ (anchorFor disk snap).toList, isFullNameChar c = true ∧ c ≠ ' ' := by
  have hname : (anchorFor disk snap).toList = pointPrefix ++ disk.text.toList ++
      '_' :: stamp snap.creation := by
    rw [anchorFor, anchorName, String.toList_ofList, pointName, String.toList_ofList,
      List.drop_left]
  have hpoint : ∀ c ∈ pointPrefix, isFullNameChar c = true ∧ c ≠ ' ' := by decide
  have hdisk : ∀ c ∈ disk.text.toList, isFullNameChar c = true ∧ c ≠ ' ' :=
    fun c hc => fullName_of_isDigit (List.all_eq_true.mp disk.digits c hc)
  have hmarks : ∀ c ∈ ['-', '_', ':', 'Z'], isFullNameChar c = true ∧ c ≠ ' ' := by decide
  have hstamp : ∀ c ∈ stamp snap.creation, isFullNameChar c = true ∧ c ≠ ' ' := fun c hc =>
    (chars_of_isStamp (isStamp_stamp snap.creation) c hc).elim fullName_of_isDigit (hmarks c)
  rw [hname]
  simp only [List.forall_mem_append, List.forall_mem_cons]
  exact ⟨⟨hpoint, hdisk⟩, by decide, hstamp⟩

/-- The names of a snapshot. -/
structure SnapNames (s : Snap) : Prop where
  stored : IsZfsName s.stored.text
  name : IsZfsName s.name

theorem isFullName_at {a b : String} (ha : IsZfsName a) (hb : IsZfsName b) :
    IsFullName (a ++ "@" ++ b) :=
  (ha.isFullName.append (by decide)).append hb.full

theorem isFullName_source {pool : String} {snap : Snap} (hpool : IsZfsName pool)
    (hsnap : SnapNames snap) : IsFullName (source pool snap) :=
  (((hpool.isFullName.append (by decide)).append hsnap.stored.full).append (by decide)).append
    hsnap.name.full

theorem isFullName_anchor {rel : String} (hrel : IsZfsName rel) (disk : DiskGuid) (snap : Snap) :
    IsFullName (rel ++ "#" ++ anchorFor disk snap) :=
  (hrel.isFullName.append (by decide)).append fun c hc => (chars_anchorFor disk snap c hc).1

theorem space_source {pool : String} {snap : Snap} :
    ' ' ∉ (source pool snap).toList ↔ ' ' ∉ pool.toList ∧ ' ' ∉ snap.stored.text.toList ∧
    ' ' ∉ snap.name.toList := by
  have hmarks : ' ' ∉ "/".toList ∧ ' ' ∉ "@".toList := by decide
  simp only [source, String.toList_append, List.mem_append, not_or, hmarks.1, hmarks.2,
    not_false_eq_true, and_true, and_assoc]

theorem front_bookmark (name : String) : Front ["zfs", "bookmark", name] [name] := by
  constructor <;> simp [fixedWords]

theorem exactly_bookmark_iff {rel : Rel} {snap : Snap} (disk : DiskGuid) (hrel : IsZfsName rel.text)
    (hsnap : IsZfsName snap.name) :
    Exactly matching (bookmarkCommand rel snap disk) (bookmarkWords rel snap disk) ↔
    ' ' ∉ rel.text.toList ∧ ' ' ∉ snap.name.toList := by
  have hat := isFullName_at hrel hsnap
  have hanchor := isFullName_anchor hrel disk snap
  have hwords : bookmarkWords rel snap disk = ["zfs", "bookmark", rel.text ++ "@" ++ snap.name] ++
      [rel.text ++ "#" ++ anchorFor disk snap] := rfl
  rw [hwords, exactly_iff (front_bookmark _) (toList_bookmarkCommand rel snap disk)
    (List.forall_mem_singleton.mpr hat.begins) hanchor.begins, List.forall_mem_singleton,
    hat.stands_iff, hanchor.stands_iff]
  have hmarks : ' ' ∉ "@".toList ∧ ' ' ∉ "#".toList := by decide
  have hname : ' ' ∉ (anchorFor disk snap).toList := fun h => (chars_anchorFor disk snap _ h).2 rfl
  simp only [String.toList_append, List.mem_append, not_or, hmarks.1, hmarks.2, hname,
    not_false_eq_true, and_true]
  tauto

/-! ### Without the shell -/

theorem words_spaced {front : List (List Char)} {last : List Char}
    (hne : ∀ l ∈ front ++ [last], l ≠ [])
    (h : ∀ l ∈ front ++ [last], ∀ c ∈ l, isShlexBlank c = false) :
    Text.words isShlexBlank (spaced front ++ last) = front ++ [last] := by
  induction front with
  | nil =>
      have hword :=
        @Text.words_word _ isShlexBlank last [] (hne last (by simp)) (h last (by simp)) (by simp)
      rwa [List.append_nil] at hword
  | cons l front ih =>
      rw [List.cons_append, List.forall_mem_cons] at hne h
      have hcut : spaced (l :: front) ++ last = l ++ ([' '] ++ (spaced front ++ last)) := by
        simp [spaced]
      have hblank : ∀ c ∈ [' '], isShlexBlank c = true := by decide
      rw [hcut, Text.words_word hne.1 h.1 (by simp [isShlexBlank]),
        Text.words_lead hblank, ih hne.2 h.2]
      rfl

theorem blank_not_mem_words {l : List Char} :
    ∀ w ∈ Text.words isShlexBlank l, ∀ c ∈ w, isShlexBlank c = false := by
  intro w hw
  induction hlist : Text.words isShlexBlank l generalizing l with
  | nil => simp [hlist] at hw
  | cons v vs ih =>
      obtain ⟨-, rest, -, -, -, hword, -, hrest⟩ := Text.words_eq_cons hlist
      rw [hlist] at hw
      rcases List.mem_cons.mp hw with rfl | hw
      · exact hword
      · exact ih (hrest ▸ hw) hrest

/-- What `sh.run` makes of words put together, where none sends them to the shell. -/
theorem run_spaced_iff {front : List (List Char)} {last : List Char}
    (hne : ∀ l ∈ front ++ [last], l ≠ []) (hshell : ∀ c ∈ spaced front ++ last, c ∉ shellChars) :
    (∀ files : List (List Char), files.Nodup →
      run matching files (spaced front ++ last) = some (front ++ [last])) ↔
      ∀ l ∈ front ++ [last], ∀ c ∈ l, isShlexBlank c = false := by
  have hany : ¬ (spaced front ++ last).any (· ∈ shellChars) = true := by
    simpa [or_imp, forall_and] using hshell
  simp only [run, if_neg hany, Option.some.injEq]
  constructor
  · intro h l hl
    exact blank_not_mem_words l (h [] List.nodup_nil ▸ hl)
  · exact fun h files _ => words_spaced hne h

theorem run_of_shell {command : List Char} (h : ∃ c ∈ command, c ∈ shellChars)
    (files : List (List Char)) :
    run matching files command = Shell.fields matching files command := by
  have hany : command.any (· ∈ shellChars) = true := by simpa using h
  rw [run, if_pos hany]

theorem not_shell_of_isFullNameChar {c : Char} (h : isFullNameChar c = true) : c ∉ shellChars := by
  have hall : ∀ c ∈ shellChars, isFullNameChar c = false := by decide
  intro hc
  rw [hall c hc] at h
  cases h

theorem isShlexBlank_of_isFullNameChar {c : Char} (h : isFullNameChar c = true) (hspace : c ≠ ' ') :
    isShlexBlank c = false := by
  have hall : ∀ c ∈ ['\t', '\r', '\n'], isFullNameChar c = false := by decide
  by_contra hblank
  simp only [isShlexBlank, List.mem_cons, hspace, false_or, Bool.not_eq_false,
    decide_eq_true_eq] at hblank
  rw [hall c (by simpa using hblank)] at h
  cases h

theorem full_fixed : ∀ w ∈ fixedWords, ∀ c ∈ w.toList, isFullNameChar c = true ∧ c ≠ ' ' := by
  decide

theorem runs_of_names (h : Front front own)
    (hcommand : command.toList = spaced (front.map String.toList) ++ last.toList)
    (hown : ∀ w ∈ own ++ [last], IsFullName w ∧ ' ' ∉ w.toList) :
    RunsExactly matching command (front ++ [last]) := by
  have hall : ∀ w ∈ front ++ [last], w.toList ≠ [] ∧
      ∀ c ∈ w.toList, isFullNameChar c = true ∧ c ≠ ' ' := by
    have hnamed : ∀ w ∈ own ++ [last], w.toList ≠ [] ∧ ∀ c ∈ w.toList, isFullNameChar c = true ∧
        c ≠ ' ' := fun w hw =>
      ⟨(hown w hw).1.begins.ne_nil, fun c hc =>
        ⟨(hown w hw).1.chars c hc, fun heq => (hown w hw).2 (heq ▸ hc)⟩⟩
    intro w hw
    rcases List.mem_append.mp hw with hw | hw
    · exact (h.cases w hw).elim (fun hfixed => ⟨(begins_fixed w hfixed).ne_nil,
        full_fixed w hfixed⟩) fun hw => hnamed w (List.mem_append_left _ hw)
    · exact hnamed w (List.mem_append_right _ hw)
  have hwords : (front ++ [last]).map String.toList = front.map String.toList ++ [last.toList] :=
    List.map_append
  have hall' : ∀ l ∈ front.map String.toList ++ [last.toList], l ≠ [] ∧
      ∀ c ∈ l, isFullNameChar c = true ∧ c ≠ ' ' :=
    hwords ▸ List.forall_mem_map.mpr hall
  rw [RunsExactly, hcommand, hwords, run_spaced_iff fun l hl => (hall' l hl).1]
  · exact fun l hl c hc => isShlexBlank_of_isFullNameChar ((hall' l hl).2 c hc).1
      ((hall' l hl).2 c hc).2
  · rw [List.forall_mem_append, List.forall_mem_singleton] at hall'
    refine List.forall_mem_append.mpr ⟨forall_mem_spaced (by decide) fun l hl c hc => ?_,
      fun c hc => ?_⟩
    · exact not_shell_of_isFullNameChar ((hall'.1 l hl).2 c hc).1
    · exact not_shell_of_isFullNameChar (hall'.2.2 c hc).1

/-- The bookmark of a restored dataset: the shell and `sh.run` make of it what is meant where no
name holds a space. -/
theorem anchored_iff {rel : Rel} {snap : Snap} (disk : DiskGuid) (hrel : IsZfsName rel.text)
    (hsnap : IsZfsName snap.name) :
    (Exactly matching (bookmarkCommand rel snap disk) (bookmarkWords rel snap disk) ∧
        RunsExactly matching (bookmarkCommand rel snap disk) (bookmarkWords rel snap disk)) ↔
        ' ' ∉ rel.text.toList ∧ ' ' ∉ snap.name.toList := by
  rw [exactly_bookmark_iff disk hrel hsnap, and_iff_left_iff_imp]
  rintro ⟨hrelSpace, hnameSpace⟩
  have hmarks : ' ' ∉ "@".toList ∧ ' ' ∉ "#".toList := by decide
  have hname : ' ' ∉ (anchorFor disk snap).toList := fun h => (chars_anchorFor disk snap _ h).2 rfl
  have hwords : bookmarkWords rel snap disk = ["zfs", "bookmark", rel.text ++ "@" ++ snap.name] ++
      [rel.text ++ "#" ++ anchorFor disk snap] := rfl
  rw [hwords]
  refine runs_of_names (front_bookmark _) (toList_bookmarkCommand rel snap disk) ?_
  rw [List.forall_mem_append, List.forall_mem_singleton, List.forall_mem_singleton]
  refine ⟨⟨isFullName_at hrel hsnap, ?_⟩, isFullName_anchor hrel disk snap, ?_⟩
  · simp only [String.toList_append, List.mem_append, not_or]
    exact ⟨⟨hrelSpace, hmarks.1⟩, hnameSpace⟩
  · simp only [String.toList_append, List.mem_append, not_or]
    exact ⟨⟨hrelSpace, hmarks.2⟩, hname⟩

/-! ### Restored rows -/

/-- Recover's commands for a restored row are those meant: each receive, and the bookmark where it
was left. -/
structure Restores (matching : Shell.Word → List Char → Bool) (pool : String) (disk : DiskGuid)
    (row : RestoreRow) (snap : Snap) (base : Option Snap) (raw : Bool) : Prop where
  receives : List.Forall₂ (fun command words => Exactly matching command.1 words.1 ∧
    Exactly matching command.2 words.2)
    (receiveRow pool row snap base raw) (rowWords pool row snap base raw)
  anchors : Under row.rel ["rpool"] → ∀ s ∈ snap :: base.toList,
    Exactly matching (bookmarkCommand row.rel s disk) (bookmarkWords row.rel s disk) ∧
    RunsExactly matching (bookmarkCommand row.rel s disk) (bookmarkWords row.rel s disk)

/-- No name of a restored row holds a space, and each option's value stands for itself. -/
structure RestoresPlainly (matching : Shell.Word → List Char → Bool) (pool : String)
    (row : RestoreRow) (snap : Snap) (base : Option Snap) : Prop where
  pool : ' ' ∉ pool.toList
  rel : ' ' ∉ row.rel.text.toList
  snaps : ∀ s ∈ snap :: base.toList, ' ' ∉ s.stored.text.toList ∧ ' ' ∉ s.name.toList
  values : ∀ o ∈ row.options, Stands matching (optionValue o)

/-- A row's options as the plan writes them. -/
structure HasOptions (row : RestoreRow) : Prop where
  ne_nil : row.options ≠ []
  options : ∀ o ∈ row.options, IsOption o

theorem sent_iff {pool : String} {snap : Snap} (hpool : IsZfsName pool) (hsnap : SnapNames snap)
    (raw : Bool) :
    Exactly matching (sendCommand (source pool snap) raw "")
      (sendWords (source pool snap) raw none) ↔ ' ' ∉ (source pool snap).toList := by
  have hiff :=
    @exactly_send_iff matching (source pool snap) (isFullName_source hpool hsnap) raw none (by simp)
  rw [Option.getD_none] at hiff
  rw [hiff, and_iff_right (by simp)]

theorem sentFrom_iff {pool : String} {snap base : Snap} (hpool : IsZfsName pool)
    (hsnap : SnapNames snap) (hbase : SnapNames base) (raw : Bool) :
    Exactly matching (sendCommand (source pool snap) raw (source pool base))
      (sendWords (source pool snap) raw (some (source pool base))) ↔
      ' ' ∉ (source pool base).toList ∧ ' ' ∉ (source pool snap).toList := by
  have hiff :=
    @exactly_send_iff matching (source pool snap) (isFullName_source hpool hsnap) raw
      (some (source pool base))
      (fun n hn => Option.some.inj hn ▸ isFullName_source hpool hbase)
  rw [Option.getD_some] at hiff
  rw [hiff]
  exact and_congr_left fun _ => ⟨fun h => h _ rfl, fun h n hn => Option.some.inj hn ▸ h⟩

theorem receives_iff {pool : String} {row : RestoreRow} {snap : Snap} {base : Option Snap}
    (raw : Bool) (hoptions : HasOptions row) (hpool : IsZfsName pool)
    (hrel : IsZfsName row.rel.text) (hsnaps : ∀ s ∈ snap :: base.toList, SnapNames s) :
    List.Forall₂ (fun command words => Exactly matching command.1 words.1 ∧
      Exactly matching command.2 words.2)
        (receiveRow pool row snap base raw) (rowWords pool row snap base raw) ↔
      (∀ s ∈ snap :: base.toList, ' ' ∉ (source pool s).toList) ∧
      (∀ o ∈ row.options, Stands matching (optionValue o)) ∧ ' ' ∉ row.rel.text.toList := by
  have hreceive :=
    @exactly_receive_iff matching row.options hoptions.ne_nil hoptions.options _ hrel.isFullName
  cases base with
  | none =>
      rw [Option.toList_none, List.forall_mem_singleton] at hsnaps ⊢
      rw [receiveRow, rowWords, List.forall₂_cons, sent_iff hpool hsnaps raw, hreceive]
      exact ⟨fun h => h.1, fun h => ⟨h, .nil⟩⟩
  | some monthly =>
      rw [Option.toList_some, List.forall_mem_cons, List.forall_mem_singleton] at hsnaps ⊢
      rw [receiveRow, rowWords, List.forall₂_cons, List.forall₂_cons, sent_iff hpool hsnaps.2 raw,
        sentFrom_iff hpool hsnaps.1 hsnaps.2 raw, hreceive]
      exact ⟨fun h => ⟨⟨h.2.1.1.2, h.1.1⟩, h.1.2⟩, fun h =>
        ⟨⟨h.1.2, h.2⟩, ⟨⟨h.1.2, h.1.1⟩, h.2⟩, .nil⟩⟩

theorem restores_iff {pool : String} {row : RestoreRow} {snap : Snap} {base : Option Snap}
    (disk : DiskGuid) (raw : Bool) (hoptions : HasOptions row) (hpool : IsZfsName pool)
    (hrel : IsZfsName row.rel.text) (hsnaps : ∀ s ∈ snap :: base.toList, SnapNames s) :
    Restores matching pool disk row snap base raw ↔
    RestoresPlainly matching pool row snap base := by
  have hreceives := @receives_iff matching pool row snap base raw hoptions hpool hrel hsnaps
  constructor
  · rintro ⟨hrow, -⟩
    obtain ⟨hsources, hvalues, hrelSpace⟩ := hreceives.mp hrow
    exact ⟨(space_source.mp (hsources snap List.mem_cons_self)).1, hrelSpace, fun s hs =>
      (space_source.mp (hsources s hs)).2, hvalues⟩
  · intro h
    refine ⟨hreceives.mpr ⟨fun s hs => space_source.mpr ⟨h.pool, h.snaps s hs⟩, h.values, h.rel⟩,
      fun _ s hs => ?_⟩
    exact (anchored_iff disk hrel (hsnaps s hs).name).mpr ⟨h.rel, (h.snaps s hs).2⟩

/-! ### Rows created empty -/

theorem quote_of_no_space {s : String} (h : IsZfsName s) (hspace : ' ' ∉ s.toList) :
    quote s.toList = s.toList := by
  have hsafe : s.toList.all (fun c =>
      c.isAlphanum || decide (c ∈ ['_', '@', '%', '+', '=', ':', ',', '.', '/', '-'])) = true := by
    refine List.all_eq_true.mpr fun c hc => ?_
    have hne : c ≠ ' ' := fun heq => hspace (heq ▸ hc)
    rcases h.chars c hc with hname | rfl
    · simp only [isNameChar, Bool.or_eq_true, decide_eq_true_eq] at hname
      rcases hname with ((((hname | rfl) | rfl) | rfl) | rfl) | rfl
      · simp [hname]
      · decide
      · decide
      · decide
      · decide
      · exact absurd rfl hne
    · decide
  rw [quote, if_neg h.begins.ne_nil, if_pos hsafe]

theorem no_quote_of_full {l : List Char} (h : ∀ c ∈ l, isFullNameChar c = true) :
    '\'' ∉ l ∧ '\x00' ∉ l := by
  constructor <;> intro hmem <;> have hfull := h _ hmem <;> revert hfull <;> decide

theorem quote_of_space {s : String} (h : IsZfsName s) (hspace : ' ' ∈ s.toList) :
    quote s.toList = '\'' :: (s.toList ++ ['\'']) := by
  have hunsafe : ¬ s.toList.all (fun c =>
      c.isAlphanum || decide (c ∈ ['_', '@', '%', '+', '=', ':', ',', '.', '/', '-'])) = true := by
    intro hall
    have hblank := List.all_eq_true.mp hall ' ' hspace
    revert hblank
    decide
  have hflat : (s.toList.flatMap fun c => if c = '\'' then ['\'', '"', '\'', '"', '\''] else [c])
      = s.toList := by
    have hone : ∀ c ∈ s.toList, (if c = '\'' then ['\'', '"', '\'', '"', '\''] else [c]) = [c] := by
      intro c hc
      refine if_neg ?_
      rintro rfl
      exact (no_quote_of_full h.full).1 hc
    rw [List.flatMap_congr hone, ← List.map_eq_flatMap, List.map_id']
  rw [quote, if_neg h.begins.ne_nil, if_neg hunsafe, hflat]
  rfl

/-- The exclusions of a top, as options. -/
def flagOptions (row : RestoreRow) : List String :=
  (if row.flags.isSome then ["-o " ++ Flag.replicate.prop ++ "=no"] else []) ++
    if row.flags = some .both then ["-o " ++ Flag.snapshot.prop ++ "=no"] else []

theorem createOptions_eq (row : RestoreRow) : createOptions row = row.options ++ flagOptions row :=
  List.append_assoc _ _ _

theorem flagOptions_spec (row : RestoreRow) : ∀ o ∈ flagOptions row, IsOption o ∧
    ∀ c ∈ optionValue o, isFullNameChar c = true ∧ c ≠ ' ' ∨ c = '=' := by
  have hall : ∀ flag : Flag, IsOption ("-o " ++ flag.prop ++ "=no") ∧
      ∀ c ∈ optionValue ("-o " ++ flag.prop ++ "=no"), isFullNameChar c = true ∧
      c ≠ ' ' ∨ c = '=' := by
    intro flag
    cases flag
    · refine ⟨⟨"org.zark:replicate=no".toList, ⟨by decide, by decide⟩, by decide⟩, by decide⟩
    · refine ⟨⟨"org.zark:snapshot=no".toList, ⟨by decide, by decide⟩, by decide⟩, by decide⟩
  intro o ho
  rw [flagOptions, List.mem_append] at ho
  rcases ho with ho | ho <;> split at ho
  · exact List.mem_singleton.mp ho ▸ hall .replicate
  · cases ho
  · exact List.mem_singleton.mp ho ▸ hall .snapshot
  · cases ho

/-- Recover's command for a row created empty is the one meant, to the shell and to `sh.run`. -/
structure Creates (matching : Shell.Word → List Char → Bool) (row : RestoreRow) : Prop where
  shell : Exactly matching (createCommand row) (createWords row)
  runs : RunsExactly matching (createCommand row) (createWords row)

/-- The command goes to the shell: its dataset is quoted, or a value holds one of the shell's
characters. -/
def GoesToShell (row : RestoreRow) : Prop :=
  ' ' ∈ row.rel.text.toList ∨ ∃ o ∈ row.options, ∃ c ∈ optionValue o, c ∈ shellChars

/-- Each option's value stands for itself, and where it holds a carriage return the command goes to
the shell. -/
structure CreatesPlainly (matching : Shell.Word → List Char → Bool) (row : RestoreRow) : Prop where
  values : ∀ o ∈ row.options, Stands matching (optionValue o)
  returns : (∃ o ∈ row.options, '\r' ∈ optionValue o) → GoesToShell row

theorem HasOptions.create {row : RestoreRow} (h : HasOptions row) :
    ∀ o ∈ createOptions row, IsOption o := by
  rw [createOptions_eq]
  exact List.forall_mem_append.mpr ⟨h.options, fun o ho => (flagOptions_spec row o ho).1⟩

theorem stands_flagOptions (row : RestoreRow) :
    ∀ o ∈ flagOptions row, Stands matching (optionValue o) := by
  intro o ho
  have hchars := (flagOptions_spec row o ho).2
  have hequals : isPlain '=' = true ∧ isPatternChar ('=', false) = false := by decide
  refine stands_of_plain (fun c hc => ?_) fun c hc => ?_
  · rcases hchars c hc with ⟨hfull, hspace⟩ | rfl
    · exact isPlain_of_isFullNameChar hfull hspace
    · exact hequals.1
  · rcases hchars c hc with ⟨hfull, -⟩ | rfl
    · exact not_pattern_of_isFullNameChar hfull
    · exact hequals.2

theorem stands_createOptions {row : RestoreRow} :
    (∀ o ∈ createOptions row, Stands matching (optionValue o)) ↔
    ∀ o ∈ row.options, Stands matching (optionValue o) := by
  rw [createOptions_eq, List.forall_mem_append]
  exact and_iff_left (stands_flagOptions row)

/-- The words before the dataset. -/
def createFront (row : RestoreRow) : List String :=
  ["zfs", "create", "-u"] ++ optionWords (createOptions row)

theorem front_create (row : RestoreRow) :
    Front (createFront row) (valueWords (createOptions row)) := front_options (by decide) _

theorem createWords_eq (row : RestoreRow) : createWords row = createFront row ++ [row.rel.text] :=
  rfl

theorem toList_create {row : RestoreRow} (h : HasOptions row) :
    (createCommand row).toList = spaced ((createFront row).map String.toList) ++
      quote row.rel.text.toList := toList_createCommand h.ne_nil h.create

theorem exactly_create_iff {row : RestoreRow} (hoptions : HasOptions row)
    (hrel : IsZfsName row.rel.text) :
    Exactly matching (createCommand row) (createWords row) ↔
    ∀ o ∈ row.options, Stands matching (optionValue o) := by
  have hcommand := toList_create hoptions
  rw [← stands_createOptions, ← stands_valueWords, createWords_eq]
  by_cases hspace : ' ' ∈ row.rel.text.toList
  · have hbegins := (front_create row).begins (begins_valueWords hoptions.create)
    have hquoted :=
      @fields_quoted_iff matching _ _ hbegins (no_quote_of_full hrel.full).1
        (no_quote_of_full hrel.full).2
    rw [quote_of_space hrel hspace] at hcommand
    rw [← (front_create row).stands_iff, Exactly, hcommand, List.map_append]
    exact hquoted
  · rw [quote_of_no_space hrel hspace] at hcommand
    rw [exactly_iff (front_create row) hcommand (begins_valueWords hoptions.create) hrel.begins]
    exact and_iff_left ((stands_name_iff hrel.full).mpr hspace)

theorem quote_mem_shellChars : '\'' ∈ shellChars := by decide

theorem forall_createFront {P : Char → Prop} {row : RestoreRow}
    (hfixed : ∀ c, isFullNameChar c = true → c ≠ ' ' → P c) (hequals : P '=')
    (hvalues : ∀ o ∈ row.options, ∀ c ∈ optionValue o, P c) :
    ∀ l ∈ (createFront row).map String.toList, ∀ c ∈ l, P c := by
  refine List.forall_mem_map.mpr fun w hw c hc => ?_
  rcases (front_create row).cases w hw with hw | hw
  · exact hfixed c (full_fixed w hw c hc).1 (full_fixed w hw c hc).2
  · obtain ⟨o, ho, rfl⟩ := List.mem_map.mp hw
    rw [String.toList_ofList] at hc
    rw [createOptions_eq, List.mem_append] at ho
    rcases ho with ho | ho
    · exact hvalues o ho c hc
    · rcases (flagOptions_spec row o ho).2 c hc with ⟨hfull, hspace⟩ | rfl
      · exact hfixed c hfull hspace
      · exact hequals

theorem goesToShell_iff {row : RestoreRow} (hoptions : HasOptions row)
    (hrel : IsZfsName row.rel.text) :
    (∃ c ∈ (createCommand row).toList, c ∈ shellChars) ↔ GoesToShell row := by
  rw [toList_create hoptions]
  constructor
  · intro h
    by_contra hno
    rw [GoesToShell, not_or] at hno
    obtain ⟨hspace, hvalues⟩ := hno
    rw [quote_of_no_space hrel hspace] at h
    obtain ⟨c, hc, hshell⟩ := h
    have hvalues' : ∀ o ∈ row.options, ∀ c ∈ optionValue o, c ∉ shellChars :=
      fun o ho c hc hshell => hvalues ⟨o, ho, c, hc, hshell⟩
    rcases List.mem_append.mp hc with hc | hc
    · exact forall_mem_spaced (by decide) (forall_createFront (fun c hfull _ =>
        not_shell_of_isFullNameChar hfull) (by decide) hvalues') c hc hshell
    · exact not_shell_of_isFullNameChar (hrel.full c hc) hshell
  · rintro (hspace | ⟨o, ho, c, hc, hshell⟩)
    · rw [quote_of_space hrel hspace]
      exact ⟨'\'', by simp, quote_mem_shellChars⟩
    · have hw : String.ofList (optionValue o) ∈ createFront row :=
        (front_create row).own _ (List.mem_map_of_mem
          (createOptions_eq row ▸ List.mem_append_left _ ho))
      exact ⟨c, List.mem_append_left _ (mem_spaced
        (List.mem_map.mpr ⟨_, hw, String.toList_ofList⟩) hc), hshell⟩

/-- Where the shell is not needed, `sh.run` cuts at a carriage return too. -/
theorem runs_create_iff {row : RestoreRow} (hoptions : HasOptions row)
    (hrel : IsZfsName row.rel.text) (hshell : ¬ GoesToShell row)
    (hstands : ∀ o ∈ row.options, Stands matching (optionValue o)) :
    RunsExactly matching (createCommand row) (createWords row) ↔
    ¬ ∃ o ∈ row.options, '\r' ∈ optionValue o := by
  have hspace : ' ' ∉ row.rel.text.toList := fun h => hshell (.inl h)
  have hcommand := toList_create hoptions
  rw [quote_of_no_space hrel hspace] at hcommand
  have hnone : ∀ c ∈ spaced ((createFront row).map String.toList) ++ row.rel.text.toList,
      c ∉ shellChars := fun c hc hmem =>
    hshell ((goesToShell_iff hoptions hrel).mp ⟨c, hcommand ▸ hc, hmem⟩)
  have hne : ∀ l ∈ (createFront row).map String.toList ++ [row.rel.text.toList], l ≠ [] :=
    List.forall_mem_append.mpr
      ⟨fun l hl => ((front_create row).begins (begins_valueWords hoptions.create) l hl).ne_nil,
        List.forall_mem_singleton.mpr hrel.begins.ne_nil⟩
  rw [RunsExactly, hcommand, createWords_eq, List.map_append]
  refine (@run_spaced_iff matching _ _ hne hnone).trans ⟨fun h => ?_, fun h => ?_⟩
  · rintro ⟨o, ho, hreturn⟩
    have hw : String.ofList (optionValue o) ∈ createFront row :=
      (front_create row).own _ (List.mem_map_of_mem
        (createOptions_eq row ▸ List.mem_append_left _ ho))
    have hblank :=
      h _ (List.mem_append_left _ (List.mem_map.mpr ⟨_, hw, String.toList_ofList⟩)) '\r' hreturn
    revert hblank
    decide
  · have hplain : ∀ c, isPlain c = true → c ≠ '\r' → isShlexBlank c = false := by
      intro c hc hreturn
      by_contra hblank
      simp only [isShlexBlank, List.mem_cons, hreturn, List.not_mem_nil, or_false, false_or,
        Bool.not_eq_false, decide_eq_true_eq] at hblank
      rcases hblank with rfl | rfl | rfl <;> revert hc <;> decide
    refine List.forall_mem_append.mpr ⟨forall_createFront (fun c hfull hne =>
      isShlexBlank_of_isFullNameChar hfull hne) (by decide) fun o ho c hc => ?_,
        List.forall_mem_singleton.mpr fun c hc =>
          isShlexBlank_of_isFullNameChar (hrel.full c hc) fun heq => hspace (heq ▸ hc)⟩
    exact hplain c ((hstands o ho).plain c hc) fun heq => h ⟨o, ho, heq ▸ hc⟩

/-- A row created empty is created as meant where its options' values stand for themselves and no
carriage return is taken for a blank. -/
theorem creates_iff {row : RestoreRow} (hoptions : HasOptions row) (hrel : IsZfsName row.rel.text) :
    Creates matching row ↔ CreatesPlainly matching row := by
  have hexactly := @exactly_create_iff matching row hoptions hrel
  by_cases hshell : GoesToShell row
  · have hruns : RunsExactly matching (createCommand row) (createWords row) ↔
        Exactly matching (createCommand row) (createWords row) := by
      have hrun :=
        fun files => @run_of_shell matching _ ((goesToShell_iff hoptions hrel).mpr hshell) files
      simp only [RunsExactly, Exactly, hrun]
    exact ⟨fun h => ⟨hexactly.mp h.shell, fun _ => hshell⟩, fun h =>
      ⟨hexactly.mpr h.values, hruns.mpr (hexactly.mpr h.values)⟩⟩
  · constructor
    · intro h
      have hvalues := hexactly.mp h.shell
      exact ⟨hvalues, fun hreturn => absurd hreturn
        ((runs_create_iff hoptions hrel hshell hvalues).mp h.runs)⟩
    · intro h
      exact ⟨hexactly.mpr h.values, (runs_create_iff hoptions hrel hshell h.values).mpr
        fun hreturn => hshell (h.returns hreturn)⟩

/-! ### The rows of a plan -/

/-- A row that recover makes has the options of its properties under some parent. -/
def Optioned (row : RestoreRow) : Prop :=
  row.restored = true ∨ row.empty = true → ∃ props above, row.props = some props ∧
    row.options = receiveOptions props above (leaf row.rel)

theorem isOption_of_setting {o name value : String} (hname : Begins name.toList)
    (h : o = "-o " ++ name ++ value) : IsOption o := by
  refine ⟨name.toList ++ value.toList, begins_append hname _, ?_⟩
  rw [h, String.toList_append, String.toList_append, List.append_assoc]
  rfl

theorem hasOptions_of_optioned {row : RestoreRow} (h : Optioned row)
    (hmade : row.restored = true ∨ row.empty = true) : HasOptions row := by
  obtain ⟨props, above, -, hoptions⟩ := h hmade
  have hcanmount : Begins "canmount=".toList := ⟨by decide, by decide⟩
  have hmountpoint : Begins "mountpoint=".toList := ⟨by decide, by decide⟩
  refine ⟨by simp [hoptions, receiveOptions], fun o ho => ?_⟩
  rw [hoptions, receiveOptions, List.mem_cons] at ho
  rcases ho with rfl | ho
  · exact isOption_of_setting hcanmount rfl
  · split at ho
    · exact isOption_of_setting hmountpoint (List.mem_singleton.mp ho)
    · cases ho

theorem optioned_planRow {r : RestoreRequest} {st : Planning} {ds : Rel}
    (h : ∀ row ∈ st.rows, Optioned row) : ∀ row ∈ (planRow r st ds).rows, Optioned row := by
  rw [planRow]
  split
  · rw [addExcluded]
    split
    · split
      · refine List.forall_mem_append.mpr ⟨h, List.forall_mem_singleton.mpr fun _ =>
          ⟨_, _, rfl, rfl⟩⟩
      · split
        · -- one more below its top: the row's options are as they were
          refine List.forall_mem_map.mpr fun row hrow => ?_
          split
          · exact h row hrow
          · exact h row hrow
        · exact h
    · exact h
  · rw [addRow]
    split
    · rename_i note hnote
      refine List.forall_mem_append.mpr ⟨h, List.forall_mem_singleton.mpr fun hmade => ?_⟩
      have hne := (judgeRow_inl hnote).1
      simp [RestoreRow.restored, hne] at hmade
    · exact List.forall_mem_append.mpr ⟨h, List.forall_mem_singleton.mpr fun _ => ⟨_, _, rfl, rfl⟩⟩

theorem optioned_buildPlan (r : RestoreRequest) : ∀ row ∈ buildPlan r, Optioned row := by
  have hrun : ∀ (l : List Rel) (st : Planning), (∀ row ∈ st.rows, Optioned row) →
      ∀ row ∈ (l.foldl (planRow r) st).rows, Optioned row := by
    intro l
    induction l with
    | nil => exact fun st h => h
    | cons ds l ih => exact fun st h => ih _ (optioned_planRow h)
  exact hrun r.wanted (planStart r) (by simp [planStart])

/-- Recover's commands for a row of the plan are exactly those meant where no name the receive takes
holds a space and each value stands for itself. -/
theorem commands_name_the_plan {r : RestoreRequest} {row : RestoreRow} (hrow : row ∈ buildPlan r)
    (hrel : IsZfsName row.rel.text) :
    (row.restored = true →
      ∀ (pool : String) (disk : DiskGuid) (snap : Snap) (base : Option Snap) (raw : Bool),
      row.snap = some snap → IsZfsName pool →
        (∀ s ∈ snap :: base.toList, SnapNames s) →
        (Restores matching pool disk row snap base raw ↔
          RestoresPlainly matching pool row snap base)) ∧
      (row.empty = true → (Creates matching row ↔ CreatesPlainly matching row)) := by
  have hoptioned := optioned_buildPlan r row hrow
  constructor
  · intro hrestored pool disk snap base raw _ hpool hsnaps
    exact restores_iff disk raw (hasOptions_of_optioned hoptioned (.inl hrestored))
      hpool hrel hsnaps
  · exact fun hempty => creates_iff (hasOptions_of_optioned hoptioned (.inr hempty)) hrel

/-- A snapshot of one dataset, and a plan of it whose mountpoint the drive recorded. -/
def dataSnap : Snap :=
  { stored := ["rpool", "data"], name := "zark_2026-03-01_00:00:00Z", creation := 100 }

def dataTree : List Stored := [⟨["rpool"], .filesystem⟩, ⟨["rpool", "data"], .filesystem⟩]

def recorded (mountpoint : String) : RestoreRequest where
  stored := ⟨dataTree, by decide⟩
  be := "ubuntu"
  point := ⟨"zark_", [dataSnap]⟩
  snaps := [dataSnap]
  zark := fun ds => if ds = ["rpool", "data"] then some ("on", mountpoint) else none

def backupDisk : DiskGuid := ⟨"42", by decide, by decide⟩

/-- A word with no pattern in it matches itself. -/
def sameText (w : Shell.Word) (path : List Char) : Bool := w.text == path

instance (s : String) : Decidable (IsZfsName s) :=
  decidable_of_iff (s ≠ "" ∧ ∀ c ∈ s.toList, isNameChar c = true ∨ c = '/')
    ⟨fun h => ⟨h.1, h.2⟩, fun h => ⟨h.1, h.2⟩⟩

theorem named_dataSnap : IsZfsName "backup" ∧ ∀ s ∈ [dataSnap], SnapNames s :=
  ⟨by decide, List.forall_mem_singleton.mpr ⟨by decide, by decide⟩⟩

/-- A monthly before the point, which left another dataset out. -/
def monthlySnap : Snap :=
  { stored := ["rpool", "data"], name := "autosnap_2026-02-01_00:00:01_monthly", creation := 50 }

def leavingCache : RestoreRequest :=
  { recorded "/srv/data" with
    snaps := [monthlySnap, dataSnap]
    excluded :=
      { tops := ⟨[⟨["rpool", "cache"], .both⟩], by simp⟩
        datasets := ⟨[⟨["rpool", "cache"], "on", "/var/cache"⟩], by simp⟩ } }

theorem commands_name_the_plan_data :
    ∃ row ∈ buildPlan leavingCache, ∃ left ∈ buildPlan leavingCache,
    row.restored = true ∧ Restores sameText "backup" backupDisk row dataSnap
      (some monthlySnap) true ∧
      left.rel = ["rpool", "cache"] ∧ left.empty = true ∧ Creates sameText left := by
  obtain ⟨left, row, hplan, hrel, hrestored, hsnap, hspace, hleft, hname, hempty⟩ :
      ∃ left row, buildPlan leavingCache = [left, row] ∧
      IsZfsName row.rel.text ∧ row.restored = true ∧ row.snap = some dataSnap ∧
        ' ' ∉ row.rel.text.toList ∧
        left.rel = ["rpool", "cache"] ∧ IsZfsName left.rel.text ∧ left.empty = true :=
    ⟨_, _, rfl, by decide +kernel⟩
  have hvalues : ∀ r ∈ buildPlan leavingCache, ∀ o ∈ r.options,
      (∀ c ∈ optionValue o, isPlain c = true) ∧
      (∀ c ∈ optionValue o, isPatternChar (c, false) = false) ∧ '\r' ∉ optionValue o := by
    decide +kernel
  have hrow : row ∈ buildPlan leavingCache := by simp [hplan]
  have hcache : left ∈ buildPlan leavingCache := by simp [hplan]
  have hsnaps : ∀ s ∈ dataSnap :: (some monthlySnap).toList, SnapNames s :=
    List.forall_mem_cons.mpr ⟨named_dataSnap.2 _ List.mem_cons_self,
      List.forall_mem_singleton.mpr ⟨by decide, by decide⟩⟩
  refine ⟨row, hrow, left, hcache, hrestored, ?_, hleft, hempty, ?_⟩
  · refine ((commands_name_the_plan hrow hrel).1 hrestored "backup" backupDisk dataSnap
      (some monthlySnap) true hsnap named_dataSnap.1 hsnaps).mpr ?_
    exact ⟨by decide, hspace, by decide, fun o ho =>
      stands_of_plain (hvalues row hrow o ho).1 (hvalues row hrow o ho).2.1⟩
  · refine ((commands_name_the_plan hcache hname).2 hempty).mpr
      ⟨fun o ho => ?_, fun ⟨o, ho, hreturn⟩ => ?_⟩
    · exact stands_of_plain (hvalues left hcache o ho).1 (hvalues left hcache o ho).2.1
    · exact absurd hreturn (hvalues left hcache o ho).2.2

/-- A mountpoint with a space in it is cut in two. -/
theorem mountpoint_cut_in_two :
    ∃ row ∈ buildPlan (recorded "/srv/my data"), row.restored = true ∧ row.snap = some dataSnap ∧
    ¬ Restores sameText "backup" backupDisk row dataSnap none true := by
  obtain ⟨row, hplan, hrel, hrestored, hsnap, o, ho, hspace⟩ :
      ∃ row, buildPlan (recorded "/srv/my data") = [row] ∧ IsZfsName row.rel.text ∧
      row.restored = true ∧ row.snap = some dataSnap ∧ ∃ o ∈ row.options, ' ' ∈ optionValue o :=
    ⟨_, rfl, by decide +kernel⟩
  have hrow : row ∈ buildPlan (recorded "/srv/my data") := by simp [hplan]
  have hoptions := hasOptions_of_optioned (optioned_buildPlan _ row hrow) (.inl hrestored)
  refine ⟨row, hrow, hrestored, hsnap, fun h => ?_⟩
  have hplain :=
    ((restores_iff backupDisk true hoptions named_dataSnap.1 hrel named_dataSnap.2).mp
      h).values o ho
  have hblank := hplain.plain ' ' hspace
  revert hblank
  decide

end Zark.RecoverCommands
