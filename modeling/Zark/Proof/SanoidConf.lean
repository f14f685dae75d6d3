import Zark.SanoidConf

/-!
# What a regenerated sanoid.conf holds

Sections written by the generator are read back one by one, so a generated text holds the planned
sections, the user's sections it was given and zark's two templates, and nothing else. The list it
is given leaves out every template, and a planned name with a blank end is read back without it:
these are the two ways a regeneration goes wrong. -/

namespace Zark

/-! ### Lines -/

/-- A setting that is read back from its own line. -/
structure EntryOk (key value : List Char) : Prop where
  key_stripped : Text.Stripped isSpace key
  value_stripped : Text.Stripped isSpace value
  no_equals : '=' ∉ key
  no_comment : key.head? ≠ some '#'
  no_header : ¬(key.head? = some '[' ∧ value.getLast? = some ']')

theorem stripped_cons_snoc {a b : Char} {m : List Char} (ha : isSpace a = false)
    (hb : isSpace b = false) :
    Text.Stripped isSpace (a :: m ++ [b]) where
  head c hc := by
    rw [List.cons_append, List.head?_cons, Option.mem_some_iff] at hc
    exact hc ▸ ha
  last c hc := by
    rw [List.getLast?_append, List.getLast?_singleton, Option.mem_def] at hc
    cases hc
    exact hb

theorem readLine_header (name : String) :
    readLine (headerLine name) = .header (Text.strip isSpace name.toList) := by
  have hstrip : Text.strip isSpace (headerLine name) = headerLine name :=
    Text.strip_of_stripped (stripped_cons_snoc (by decide) (by decide))
  rw [readLine, hstrip, if_neg (by simp [headerLine]), if_pos ⟨rfl, List.getLast?_concat⟩]
  simp [headerLine]

/-- What stands before the equals sign once the line is stripped. -/
def keyPart (key : List Char) : List Char := if key = [] then [] else key ++ [' ']

def valuePart (value : List Char) : List Char := if value = [] then [] else ' ' :: value

theorem strip_keyPart {key : List Char} (h : Text.Stripped isSpace key) :
    Text.strip isSpace (keyPart key) = key := by
  unfold keyPart
  split
  · rename_i hnil
    rw [hnil]
    rfl
  · exact Text.strip_append (a := []) (by simp) (List.all_eq_true.mp (by decide)) h

theorem strip_valuePart {value : List Char} (h : Text.Stripped isSpace value) :
    Text.strip isSpace (valuePart value) = value := by
  unfold valuePart
  split
  · rename_i hnil
    rw [hnil]
    rfl
  · have hstrip :=
      Text.strip_append (a := [' ']) (b := []) (List.all_eq_true.mp (by decide)) (by simp) h
    rwa [List.append_nil] at hstrip

theorem stripped_parts {key value : List Char} (hkey : Text.Stripped isSpace key)
    (hvalue : Text.Stripped isSpace value) :
    Text.Stripped isSpace (keyPart key ++ '=' :: valuePart value) where
  head c hc := by
    cases key with
    | nil =>
        cases hc
        decide
    | cons x key =>
        cases hc
        exact hkey.head _ rfl
  last c hc := by
    rw [List.getLast?_append_of_ne_nil _ (List.cons_ne_nil _ _)] at hc
    unfold valuePart at hc
    split at hc
    · cases hc
      decide
    · rename_i hne
      rw [List.getLast?_cons_cons, List.getLast?_cons_of_ne_nil hne] at hc
      exact hvalue.last c hc

theorem strip_entryLine (e : Entry) (hkey : Text.Stripped isSpace e.key.toList)
    (hvalue : Text.Stripped isSpace e.value.toList) :
    Text.strip isSpace (entryLine e) = keyPart e.key.toList ++ '=' :: valuePart e.value.toList := by
  have hline : entryLine e = (if e.key.toList = [] then [' '] else []) ++
      (keyPart e.key.toList ++ '=' :: valuePart e.value.toList) ++
      if e.value.toList = [] then [' '] else [] := by
    unfold entryLine keyPart valuePart
    by_cases hk : e.key.toList = [] <;> by_cases hv : e.value.toList = [] <;> simp [hk, hv]
  rw [hline]
  refine Text.strip_append ?_ ?_ (stripped_parts hkey hvalue)
  all_goals
    split
    · exact List.all_eq_true.mp (by decide)
    · exact List.all_eq_true.mp (by decide)

theorem not_mem_keyPart {key : List Char} (h : '=' ∉ key) : '=' ∉ keyPart key := by
  unfold keyPart
  split
  · exact List.not_mem_nil
  · rw [List.mem_append, not_or]
    exact ⟨h, by decide⟩

theorem head?_parts (key value : List Char) :
    (keyPart key ++ '=' :: valuePart value).head? = some (key.head?.getD '=') := by
  cases key <;> rfl

theorem getLast?_parts (key value : List Char) :
    (keyPart key ++ '=' :: valuePart value).getLast? = some (value.getLast?.getD '=') := by
  rw [List.getLast?_append_of_ne_nil _ (List.cons_ne_nil _ _), valuePart]
  split
  · rename_i hnil
    rw [hnil]
    rfl
  · rename_i hne
    rw [List.getLast?_cons_cons, List.getLast?_cons_of_ne_nil hne,
      List.getLast?_eq_some_getLast hne]
    rfl

theorem readLine_entry {e : Entry} (h : EntryOk e.key.toList e.value.toList) :
    readLine (entryLine e) = .entry e.key.toList e.value.toList := by
  have hhead := head?_parts e.key.toList e.value.toList
  have hlast := getLast?_parts e.key.toList e.value.toList
  have hequals := not_mem_keyPart h.no_equals
  rw [readLine, strip_entryLine e h.key_stripped h.value_stripped, if_neg, if_neg, if_neg (by simp)]
  · rw [List.takeWhile_append_of_pos, List.dropWhile_append_of_pos]
    · simp only [ne_eq, not_true_eq_false, decide_false, Bool.false_eq_true, not_false_eq_true,
        List.takeWhile_cons_of_neg, List.append_nil, List.dropWhile_cons_of_neg, List.tail_cons,
        strip_keyPart h.key_stripped, strip_valuePart h.value_stripped]
    all_goals exact fun c hc => decide_eq_true fun heq => hequals (heq ▸ hc)
  · rintro ⟨hopen, hclose⟩
    rw [hhead, Option.some.injEq] at hopen
    rw [hlast, Option.some.injEq] at hclose
    exact h.no_header ⟨(Option.getD_eq_iff.mp hopen).resolve_right fun hno =>
      absurd hno.2 (by decide), (Option.getD_eq_iff.mp hclose).resolve_right fun hno =>
        absurd hno.2 (by decide)⟩
  · rintro (hnil | hcomment)
    · simp at hnil
    · rw [hhead, Option.some.injEq] at hcomment
      exact h.no_comment ((Option.getD_eq_iff.mp hcomment).resolve_right fun hno =>
        absurd hno.2 (by decide))

theorem readLine_header_eq {raw name : List Char} (h : readLine raw = .header name) :
    Text.Stripped isSpace name ∧ ∀ c ∈ name, c ∈ raw := by
  unfold readLine at h
  dsimp only at h
  split at h
  · cases h
  · split at h
    · injection h with hname
      subst hname
      refine ⟨Text.stripped_strip _ _, fun c hc => ?_⟩
      have hline := List.dropLast_subset _ (Text.mem_of_mem_strip hc)
      exact Text.mem_of_mem_strip (List.mem_of_mem_tail hline)
    · split at h <;> cases h

theorem readLine_entry_eq {raw key value : List Char} (h : readLine raw = .entry key value) :
    EntryOk key value ∧ (∀ c ∈ key, c ∈ raw) ∧ ∀ c ∈ value, c ∈ raw := by
  unfold readLine at h
  dsimp only at h
  split at h
  · cases h
  rename_i hplain
  split at h
  · cases h
  rename_i hheader
  split at h
  · cases h
  rename_i hequals
  injection h with hkey hvalue
  subst hkey hvalue
  set line := Text.strip isSpace raw
  have hstripped : Text.Stripped isSpace line := Text.stripped_strip _ _
  have hdrop : line.dropWhile (· ≠ '=') = '=' :: (line.dropWhile (· ≠ '=')).tail := by
    have hne : line.dropWhile (· ≠ '=') ≠ [] := by
      rw [Ne, List.dropWhile_eq_nil_iff]
      exact fun hall => hequals fun hmem => by simpa using hall _ hmem
    have hfirst : (line.dropWhile (· ≠ '=')).head hne = '=' := by
      simpa using List.head_dropWhile_not (· ≠ '=') hne
    exact (List.cons_head_tail hne).symm.trans (congrArg (· :: _) hfirst)
  have hcut := List.takeWhile_append_dropWhile (p := (· ≠ '=')) (l := line)
  rw [hdrop] at hcut
  have hmem : ∀ c, c ∈ line.takeWhile (· ≠ '=') ∨
      c ∈ (line.dropWhile (· ≠ '=')).tail → c ∈ raw := by
    intro c hc
    have hline : c ∈ line := by
      rw [← hcut, List.mem_append, List.mem_cons]
      exact hc.imp id .inr
    exact Text.mem_of_mem_strip hline
  refine ⟨⟨Text.stripped_strip _ _, Text.stripped_strip _ _, fun hkey => ?_, fun hcomment => ?_,
    fun ⟨hopen, hclose⟩ => ?_⟩, fun c hc => hmem c (.inl (Text.mem_of_mem_strip hc)), fun c hc =>
      hmem c (.inr (Text.mem_of_mem_strip hc))⟩
  · simpa using List.mem_takeWhile_imp (Text.mem_of_mem_strip hkey)
  · rw [Text.head?_strip (hcut.symm ▸ hstripped)
      (fun hnil => by rw [hnil] at hcomment; cases hcomment), hcut] at hcomment
    exact hplain (.inr hcomment)
  · rw [Text.head?_strip (hcut.symm ▸ hstripped) (fun hnil => by rw [hnil] at hopen; cases hopen),
      hcut] at hopen
    rw [List.append_cons] at hcut
    rw [Text.getLast?_strip (hcut.symm ▸ hstripped)
      (fun hnil => by rw [hnil] at hclose; cases hclose), hcut] at hclose
    exact hheader ⟨hopen, hclose⟩

/-! ### Sections read one after the other -/

/-- A name that is read back from its header. -/
structure NameOk (name : String) : Prop where
  stripped : Text.Stripped isSpace name.toList
  unbroken : ∀ c ∈ name.toList, Text.isBreak c = false

structure SettingOk (e : Entry) : Prop where
  entry : EntryOk e.key.toList e.value.toList
  key_unbroken : ∀ c ∈ e.key.toList, Text.isBreak c = false
  value_unbroken : ∀ c ∈ e.value.toList, Text.isBreak c = false

/-- A section that is read back as it was written. -/
structure SectionOk (s : ConfSection) : Prop where
  name : NameOk s.name
  settings : ∀ e ∈ s.settings, SettingOk e

abbrev Sections := Keyed ConfSection.name

theorem settingsOf_eq {sections : Sections} {s : ConfSection} (h : s ∈ sections) :
    settingsOf sections s.name = s.settings := by
  rw [settingsOf, Keyed.get?_of_mem h]
  rfl

theorem settingsOf_of_not_mem {sections : Sections} {name : String} (h : name ∉ sections.keys) :
    settingsOf sections name = ∅ := by
  rw [settingsOf, Keyed.get?_eq_none_iff.mpr h]
  rfl

theorem addConfLine_other {raw : List Char} (h : readLine raw = .other)
    (state : Sections × Option String) :
    addConfLine state raw = state := by
  rw [addConfLine, h]

theorem addConfLine_header (state : Sections × Option String) (name : String)
    (hname : Text.Stripped isSpace name.toList) :
    addConfLine state (headerLine name)
      = (state.1.put ⟨name, settingsOf state.1 name⟩, some name) := by
  rw [addConfLine, readLine_header, Text.strip_of_stripped hname]
  simp only [String.ofList_toList]

theorem addConfLine_entry {e : Entry} (h : EntryOk e.key.toList e.value.toList)
    (sections : Sections) (name : String) :
    addConfLine (sections, some name) (entryLine e)
      = (sections.put ⟨name, (settingsOf sections name).put e⟩, some name) := by
  rw [addConfLine, readLine_entry h]
  simp only [String.ofList_toList]

theorem foldl_addConfLine_entries {sections : Sections} {old : List ConfSection} {name : String}
    {settings all : Settings} {entries : List Entry}
    (hsections : sections.items = old ++ [⟨name, settings⟩])
    (hall : all.items = settings.items ++ entries)
    (hok : ∀ e ∈ entries, EntryOk e.key.toList e.value.toList) :
    ((entries.map entryLine).foldl addConfLine (sections, some name)).1.items
      = old ++ [⟨name, all⟩] := by
  induction entries generalizing sections settings with
  | nil => rwa [List.map_nil, List.foldl_nil, Keyed.ext (hall.trans (List.append_nil _))]
  | cons e entries ih =>
      have hlast : settingsOf sections name = settings :=
        settingsOf_eq (s := ⟨name, settings⟩)
          (Keyed.mem_def.mpr (hsections ▸ List.mem_append_right _ List.mem_cons_self))
      have hkey : e.key ∉ settings.keys := by
        have hnodup := all.nodup
        rw [hall, List.map_append] at hnodup
        exact fun hmem => (List.nodup_append.mp hnodup).2.2 e.key hmem e.key List.mem_cons_self rfl
      rw [List.map_cons, List.foldl_cons, addConfLine_entry (hok e List.mem_cons_self), hlast]
      refine ih (Keyed.put_items_last hsections rfl) ?_ fun x hx =>
        hok x (List.mem_cons_of_mem _ hx)
      rw [hall, Keyed.put_items hkey, List.append_assoc, List.singleton_append]

theorem foldl_addConfLine_section {state : Sections × Option String} {s : ConfSection}
    (hok : SectionOk s) (hnew : s.name ∉ state.1.keys) :
    ((sectionLines s).foldl addConfLine state).1.items = state.1.items ++ [s] := by
  rw [sectionLines, List.foldl_cons, addConfLine_header _ _ hok.name.stripped,
    settingsOf_of_not_mem hnew]
  have hput : (state.1.put (⟨s.name, ∅⟩ : ConfSection)).items = state.1.items ++ [⟨s.name, ∅⟩] :=
    Keyed.put_items hnew
  exact foldl_addConfLine_entries hput rfl fun e he => (hok.settings e he).entry

theorem foldl_addConfLine_sections {state : Sections × Option String} {sections : List ConfSection}
    (hok : ∀ s ∈ sections, SectionOk s)
    (hnew : ((state.1.items ++ sections).map ConfSection.name).Nodup) :
    ((sections.flatMap fun s => sectionLines s ++ [[]]).foldl addConfLine state).1.items
      = state.1.items ++ sections := by
  induction sections generalizing state with
  | nil => simp
  | cons s sections ih =>
      have hname : s.name ∉ state.1.keys := by
        rw [List.map_append] at hnew
        exact fun hmem => (List.nodup_append.mp hnew).2.2 s.name hmem s.name List.mem_cons_self rfl
      have hone := foldl_addConfLine_section (hok s List.mem_cons_self) hname
      rw [List.flatMap_cons, List.foldl_append, List.foldl_append, List.foldl_cons, List.foldl_nil,
        addConfLine_other (by decide), ih (fun t ht => hok t (List.mem_cons_of_mem _ ht)), hone,
        List.append_assoc, List.singleton_append]
      rwa [hone, List.append_assoc, List.singleton_append]

/-! ### What is read -/

/-- Everything read so far is read back as it is written. -/
structure ReadOk (state : Sections × Option String) : Prop where
  sections : ∀ s ∈ state.1, SectionOk s
  current : ∀ name ∈ state.2, NameOk name

theorem ReadOk.settingsOf {state : Sections × Option String} (h : ReadOk state) (name : String) :
    ∀ e ∈ settingsOf state.1 name, SettingOk e := by
  intro e he
  cases hget : state.1.get? name with
  | none =>
      rw [Zark.settingsOf, hget] at he
      cases he
  | some s =>
      rw [Zark.settingsOf, hget] at he
      exact (h.sections s (Keyed.mem_of_get? hget)).settings e he

theorem ReadOk.addConfLine {state : Sections × Option String} (h : ReadOk state) {raw : List Char}
    (hraw : ∀ c ∈ raw, Text.isBreak c = false) : ReadOk (addConfLine state raw) := by
  have hput : ∀ {name : String} {settings : Settings}, NameOk name → (∀ e ∈ settings, SettingOk e) →
      ReadOk (state.1.put ⟨name, settings⟩, some name) := by
    intro name settings hname hsettings
    refine ⟨fun s hs => ?_, fun _ hcurrent => Option.some.inj hcurrent ▸ hname⟩
    obtain ⟨hs, -⟩ | rfl := Keyed.mem_put.mp hs
    · exact h.sections s hs
    · exact ⟨hname, hsettings⟩
  cases hread : readLine raw with
  | other => rwa [addConfLine_other hread]
  | header name =>
      obtain ⟨hstripped, hmem⟩ := readLine_header_eq hread
      rw [Zark.addConfLine, hread]
      refine hput ⟨?_, fun c hc => hraw c (hmem c ?_)⟩ (h.settingsOf _)
      · rwa [String.toList_ofList]
      · rwa [String.toList_ofList] at hc
  | entry key value =>
      obtain ⟨hentry, hkey, hvalue⟩ := readLine_entry_eq hread
      cases hcurrent : state.2 with
      | none => rwa [Zark.addConfLine, hread, hcurrent]
      | some current =>
          rw [Zark.addConfLine, hread, hcurrent]
          refine hput (h.current current hcurrent) fun e he => ?_
          obtain ⟨he, -⟩ | rfl := Keyed.mem_put.mp he
          · exact h.settingsOf _ e he
          · refine ⟨?_, fun c hc => hraw c (hkey c ?_), fun c hc => hraw c (hvalue c ?_)⟩
            · simpa only [String.toList_ofList] using hentry
            · rwa [String.toList_ofList] at hc
            · rwa [String.toList_ofList] at hc

theorem ReadOk.foldl {lines : List (List Char)}
    (hlines : ∀ raw ∈ lines, ∀ c ∈ raw, Text.isBreak c = false) {state : Sections × Option String}
    (h : ReadOk state) : ReadOk (lines.foldl Zark.addConfLine state) := by
  induction lines generalizing state with
  | nil => exact h
  | cons raw lines ih =>
      exact ih (fun r hr => hlines r (List.mem_cons_of_mem _ hr))
        (h.addConfLine (hlines raw List.mem_cons_self))

theorem sectionOk_of_parse {text : String} {s : ConfSection} (h : s ∈ parseSanoidConf text) :
    SectionOk s := by
  have hstart : ReadOk (∅, none) :=
    ⟨fun _ hs => absurd hs List.not_mem_nil, fun _ hname => by cases hname⟩
  exact (hstart.foldl fun raw hraw => Text.not_break_of_mem_splitLines hraw).sections s h

/-! ### What is written -/

def plannedSections (rules : PlannedRules) : List ConfSection :=
  rules.map fun e => ⟨e.1, ruleToSettings e.2⟩

def productionSettings : Settings where
  items :=
    [⟨"frequently", "0"⟩, ⟨"hourly", "24"⟩, ⟨"daily", "7"⟩, ⟨"weekly", "4"⟩, ⟨"monthly", "3"⟩,
      ⟨"yearly", "0"⟩, ⟨"autoprune", "yes"⟩, ⟨"autosnap", "yes"⟩]
  nodup := by decide

def productionSection : ConfSection := ⟨"template_production", productionSettings⟩

def minimalSection : ConfSection := ⟨"template_minimal", templateMinimalExpected⟩

theorem sectionLines_production : sectionLines productionSection = productionLines := by
  decide +kernel

theorem sectionLines_minimal : sectionLines minimalSection = minimalLines := by decide +kernel

theorem map_entryLine_template (template : Template) (recursive : Bool) :
    [⟨"use_template", template.text⟩, ⟨"recursive", if recursive then "yes" else "no"⟩].map
      entryLine =
      [("use_template = " ++ template.text).toList,
        ("recursive = " ++ if recursive then "yes" else "no").toList] := by
  cases template <;> cases recursive <;> decide +kernel

theorem sectionLines_planned (name : String) (rule : SanoidRule) :
    sectionLines ⟨name, ruleToSettings rule⟩ = formatRule name rule := by
  obtain ⟨template, recursive, explain⟩ := rule
  refine congrArg (headerLine name :: ·) ?_
  cases template with
  | none => exact (by decide +kernel : [⟨"autosnap", "no"⟩, ⟨"autoprune", "no"⟩].map entryLine =
      ["autosnap = no".toList, "autoprune = no".toList])
  | some template =>
      cases template with
      | drained => rfl
      | production => exact map_entryLine_template .production recursive
      | minimal => exact map_entryLine_template .minimal recursive

instance (key value : List Char) : Decidable (EntryOk key value) :=
  decidable_of_iff
    (Text.Stripped isSpace key ∧ Text.Stripped isSpace value ∧ '=' ∉ key ∧ key.head? ≠ some '#' ∧
      ¬(key.head? = some '[' ∧ value.getLast? = some ']'))
    ⟨fun ⟨hk, hv, h₁, h₂, h₃⟩ => ⟨hk, hv, h₁, h₂, h₃⟩, fun ⟨hk, hv, h₁, h₂, h₃⟩ =>
      ⟨hk, hv, h₁, h₂, h₃⟩⟩

instance (e : Entry) : Decidable (SettingOk e) :=
  decidable_of_iff (EntryOk e.key.toList e.value.toList ∧
      e.key.toList.all (!Text.isBreak ·) = true ∧
      e.value.toList.all (!Text.isBreak ·) = true)
    ⟨fun ⟨h₁, h₂, h₃⟩ => ⟨h₁, Text.unbroken_iff.mpr h₂, Text.unbroken_iff.mpr h₃⟩,
      fun ⟨h₁, h₂, h₃⟩ => ⟨h₁, Text.unbroken_iff.mp h₂, Text.unbroken_iff.mp h₃⟩⟩

theorem settingOk_template (template : Template) (recursive : Bool) :
    ∀ e ∈ [⟨"use_template", template.text⟩, ⟨"recursive", if recursive then "yes" else "no"⟩],
    SettingOk e := by
  cases template <;> cases recursive <;> decide +kernel

theorem settingOk_ruleToSettings (rule : SanoidRule) : ∀ e ∈ ruleToSettings rule, SettingOk e := by
  obtain ⟨template, recursive, explain⟩ := rule
  cases template with
  | none => exact (by decide +kernel : ∀ e ∈ [⟨"autosnap", "no"⟩, ⟨"autoprune", "no"⟩], SettingOk e)
  | some template =>
      cases template with
      | drained => exact (by decide +kernel : ∀ e ∈ drainedSettings.items, SettingOk e)
      | production => exact settingOk_template .production recursive
      | minimal => exact settingOk_template .minimal recursive

theorem sectionOk_production : SectionOk productionSection :=
  ⟨⟨by decide, Text.unbroken_iff.mpr (by decide)⟩, by decide +kernel⟩

theorem sectionOk_minimal : SectionOk minimalSection :=
  ⟨⟨by decide, Text.unbroken_iff.mpr (by decide)⟩, by decide +kernel⟩

/-- The planned sections as the source builds them: datasets of rpool and bpool, each once, by names
of one line. -/
structure Plannable (rules : PlannedRules) : Prop where
  nodup : (rules.map Prod.fst).Nodup
  managed : ∀ e ∈ rules, isManagedSection e.1 = true
  unbroken : ∀ e ∈ rules, ∀ c ∈ e.1.toList, Text.isBreak c = false

/-- No planned name has a blank end. -/
def NoBlankEnd (rules : PlannedRules) : Prop :=
  ∀ e ∈ rules, Text.strip isSpace e.1.toList = e.1.toList

theorem sectionOk_planned {rules : PlannedRules} (h : Plannable rules) (hblank : NoBlankEnd rules) :
    ∀ s ∈ plannedSections rules, SectionOk s := by
  intro s hs
  obtain ⟨e, he, rfl⟩ := List.mem_map.mp hs
  exact ⟨⟨hblank e he ▸ Text.stripped_strip _ _, h.unbroken e he⟩, settingOk_ruleToSettings e.2⟩

theorem unbroken_sectionLines {s : ConfSection} (h : SectionOk s) :
    ∀ line ∈ sectionLines s, ∀ c ∈ line, Text.isBreak c = false := by
  intro line hline c hc
  obtain rfl | hline := List.mem_cons.mp hline
  · obtain rfl | hc := List.mem_cons.mp hc
    · decide
    · obtain hc | hc := List.mem_append.mp hc
      · exact h.name.unbroken c hc
      · rw [List.mem_singleton.mp hc]
        decide
  · obtain ⟨e, he, rfl⟩ := List.mem_map.mp hline
    have hok := h.settings e he
    obtain hc | hc := List.mem_append.mp hc
    · obtain hc | hc := List.mem_append.mp hc
      · exact hok.key_unbroken c hc
      · exact Text.unbroken_iff.mpr (by decide : [' ', '=', ' '].all (!Text.isBreak ·) = true) c hc
    · exact hok.value_unbroken c hc

theorem unbroken_sections {sections : List ConfSection} (h : ∀ s ∈ sections, SectionOk s) :
    ∀ line ∈ sections.flatMap fun s => sectionLines s ++ [[]], ∀ c ∈ line,
    Text.isBreak c = false := by
  intro line hline
  obtain ⟨s, hs, hline⟩ := List.mem_flatMap.mp hline
  obtain hline | hline := List.mem_append.mp hline
  · exact unbroken_sectionLines (h s hs) line hline
  · rw [List.mem_singleton.mp hline]
    simp

def manualLines : List (List Char) :=
  ["# ── Preserved user sections (not managed by zark) ──".toList, []]

theorem confLines_eq (rules : PlannedRules) (manual : List ConfSection) :
    confLines rules manual = prefaceLines ++ ((plannedSections rules).flatMap fun s =>
      sectionLines s ++ [[]]) ++
      ((if manual = [] then [] else manualLines) ++ manual.flatMap fun s =>
        sectionLines s ++ [[]]) ++
      ([productionSection].flatMap fun s => sectionLines s ++ [[]]) ++
        sectionLines minimalSection := by
  have hplanned : (plannedSections rules).flatMap (fun s => sectionLines s ++ [[]]) =
      rules.flatMap fun e => formatRule e.1 e.2 ++ [[]] := by
    rw [plannedSections, List.flatMap_map]
    exact List.flatMap_congr fun e _ => by rw [sectionLines_planned]
  rw [confLines, hplanned, List.flatMap_singleton, sectionLines_production, sectionLines_minimal]
  by_cases hnil : manual = []
  · simp [hnil]
  · simp [hnil, manualLines]

theorem foldl_addConfLine_others {lines : List (List Char)}
    (h : ∀ line ∈ lines, readLine line = .other) (state : Sections × Option String) :
    lines.foldl addConfLine state = state := by
  induction lines with
  | nil => rfl
  | cons line lines ih =>
      rw [List.foldl_cons, addConfLine_other (h line List.mem_cons_self), ih fun l hl =>
        h l (List.mem_cons_of_mem _ hl)]

theorem readLine_prefaceLines : ∀ line ∈ prefaceLines, readLine line = .other := by decide +kernel

theorem readLine_manualLines : ∀ line ∈ manualLines, readLine line = .other := by decide +kernel

theorem unbroken_prefaceLines : ∀ line ∈ prefaceLines, ∀ c ∈ line, Text.isBreak c = false := by
  simp only [Text.unbroken_iff]
  decide +kernel

theorem unbroken_manualLines : ∀ line ∈ manualLines, ∀ c ∈ line, Text.isBreak c = false := by
  simp only [Text.unbroken_iff]
  decide +kernel

/-- The sections of a written text: the planned ones, the user's and the two templates. -/
theorem parse_generate {rules : PlannedRules} {manual : List ConfSection}
    (hplanned : ∀ s ∈ plannedSections rules, SectionOk s) (hmanual : ∀ s ∈ manual, SectionOk s)
    (hnodup : ((plannedSections rules ++ manual ++ [productionSection, minimalSection]).map
      ConfSection.name).Nodup) :
    (parseSanoidConf (generateSanoidConf rules manual)).items =
      plannedSections rules ++ manual ++ [productionSection, minimalSection] := by
  have hlines : ∀ line ∈ confLines rules manual, ∀ c ∈ line, Text.isBreak c = false := by
    intro line hline
    rw [confLines_eq] at hline
    simp only [List.mem_append, or_assoc] at hline
    obtain h | h | h | h | h | h := hline
    · exact unbroken_prefaceLines line h
    · exact unbroken_sections hplanned line h
    · split at h
      · cases h
      · exact unbroken_manualLines line h
    · exact unbroken_sections hmanual line h
    · exact unbroken_sections (by simpa using sectionOk_production) line h
    · exact unbroken_sectionLines sectionOk_minimal line h
  have hmarker : ∀ line ∈ if manual = [] then [] else manualLines, readLine line = .other := by
    split
    · simp
    · exact readLine_manualLines
  have hall :=
    List.append_assoc (plannedSections rules ++ manual) [productionSection] [minimalSection]
  rw [List.singleton_append] at hall
  rw [← hall] at hnodup
  have hfront : ∀ {l r : List ConfSection}, l ++ r = plannedSections rules ++ manual ++
      [productionSection] ++ [minimalSection] →
      (l.map ConfSection.name).Nodup := fun hl =>
    ((hl ▸ List.sublist_append_left _ _).map _).nodup hnodup
  rw [parseSanoidConf, generateSanoidConf, String.toList_ofList,
    Text.splitLines_unlines hlines, confLines_eq, List.foldl_append, List.foldl_append,
    List.foldl_append, List.foldl_append, List.foldl_append,
    foldl_addConfLine_others readLine_prefaceLines, foldl_addConfLine_others hmarker, ← hall]
  have hfirst := @foldl_addConfLine_sections (∅, none) _ hplanned
    (hfront (l := plannedSections rules)
      (r := manual ++ [productionSection] ++ [minimalSection]) (by simp))
  generalize List.foldl addConfLine (∅, none) ((plannedSections rules).flatMap fun s =>
    sectionLines s ++ [[]]) = state at *
  replace hfirst : state.1.items = plannedSections rules := hfirst
  have hsecond := @foldl_addConfLine_sections state _ hmanual
    (by rw [hfirst]; exact hfront (r := [productionSection] ++ [minimalSection]) (by simp))
  generalize List.foldl addConfLine state (manual.flatMap fun s =>
    sectionLines s ++ [[]]) = state₂ at *
  rw [hfirst] at hsecond
  have hthird :=
    @foldl_addConfLine_sections state₂ [productionSection] (by simpa using sectionOk_production)
      (by rw [hsecond]; exact hfront (r := [minimalSection]) rfl)
  generalize List.foldl addConfLine state₂ ([productionSection].flatMap fun s =>
    sectionLines s ++ [[]]) = state₃ at *
  rw [hsecond] at hthird
  rw [foldl_addConfLine_section sectionOk_minimal, hthird]
  rw [Keyed.keys, hthird]
  rw [List.map_append] at hnodup
  exact fun hmem => (List.nodup_append.mp hnodup).2.2 _ hmem _ List.mem_cons_self rfl

/-! ### Regenerated -/

theorem sameSettings_refl (settings : Settings) : sameSettings settings settings = true := by
  rw [sameSettings, Bool.and_eq_true, List.all_eq_true]
  exact ⟨fun e he => decide_eq_true (Keyed.mem_def.mpr he), fun e he =>
    decide_eq_true (Keyed.mem_def.mpr he)⟩

theorem isManagedSection_template {name : String} (h : startsWith name "template_" = true) :
    isManagedSection name = false := by
  rw [isManagedSection, if_pos h]

theorem not_template_of_managed {name : String} (h : isManagedSection name = true) :
    startsWith name "template_" = false := by
  rw [← Bool.not_eq_true]
  exact fun htemplate => by simp [isManagedSection_template htemplate] at h

theorem mem_manual {current : Sections} {rules : PlannedRules} {s : ConfSection} :
    s ∈ (diffRules current rules).manual ↔ s ∈ current ∧ isManagedSection s.name = false ∧
    startsWith s.name "template_" = false := by
  simp [diffRules, Keyed.mem_def]

theorem map_name_plannedSections (rules : PlannedRules) :
    (plannedSections rules).map ConfSection.name = rules.map Prod.fst := by
  rw [plannedSections, List.map_map]
  rfl

theorem mem_plannedMap {rules : PlannedRules} (h : Plannable rules) {s : ConfSection} :
    s ∈ plannedMap rules ↔ s ∈ plannedSections rules :=
  Keyed.mem_putAll_of_nodup (map_name_plannedSections rules ▸ h.nodup)

theorem managed_of_planned {rules : PlannedRules} (h : Plannable rules) {s : ConfSection}
    (hs : s ∈ plannedSections rules) :
    isManagedSection s.name = true := by
  obtain ⟨e, he, rfl⟩ := List.mem_map.mp hs
  exact h.managed e he

theorem template_of_zark {s : ConfSection} (hs : s ∈ [productionSection, minimalSection]) :
    startsWith s.name "template_" = true := by
  obtain rfl | hs := List.mem_cons.mp hs
  · decide
  · rw [List.mem_singleton.mp hs]
    decide

/-- The sections of a regenerated text, when no planned name has a blank end. -/
theorem parse_regenerate {text : String} {rules : PlannedRules} (h : Plannable rules)
    (hblank : NoBlankEnd rules) :
    (parseSanoidConf (regenerate text rules)).items =
      plannedSections rules ++ (diffRules (parseSanoidConf text) rules).manual ++
        [productionSection, minimalSection] := by
  refine parse_generate (sectionOk_planned h hblank)
    (fun s hs => sectionOk_of_parse (mem_manual.mp hs).1) ?_
  rw [List.map_append, List.map_append]
  refine List.Nodup.append (List.Nodup.append ?_ ?_ ?_) (by decide) ?_
  · exact map_name_plannedSections rules ▸ h.nodup
  · exact (List.filter_sublist.map _).nodup (parseSanoidConf text).nodup
  · rintro name hplanned hmanual
    obtain ⟨s, hs, rfl⟩ := List.mem_map.mp hplanned
    obtain ⟨t, ht, hname⟩ := List.mem_map.mp hmanual
    have hnot := (mem_manual.mp ht).2.1
    rw [hname, managed_of_planned h hs] at hnot
    cases hnot
  · rintro name hleft hright
    obtain ⟨t, ht, rfl⟩ := List.mem_map.mp hright
    have htemplate := template_of_zark ht
    obtain hleft | hleft := List.mem_append.mp hleft
    · obtain ⟨s, hs, hname⟩ := List.mem_map.mp hleft
      have hnot := not_template_of_managed (managed_of_planned h hs)
      rw [hname, htemplate] at hnot
      cases hnot
    · obtain ⟨s, hs, hname⟩ := List.mem_map.mp hleft
      have hnot := (mem_manual.mp hs).2.2
      rw [hname, htemplate] at hnot
      cases hnot

/-- Sections that are the planned ones, some of no concern to zark and its two templates leave
nothing to change. -/
theorem diffRules_written {rules : PlannedRules} (h : Plannable rules) {manual : List ConfSection}
    (hmanual : ∀ s ∈ manual, isManagedSection s.name = false ∧
      startsWith s.name "template_" = false)
    {new : Sections}
    (hitems : new.items = plannedSections rules ++ manual ++ [productionSection, minimalSection]) :
    diffRules new rules
      = { added := [], removed := [], changed := [], manual := manual, templates := [] } := by
  have hmem : ∀ s, s ∈ new ↔ s ∈ plannedSections rules ∨ s ∈ manual ∨
      s ∈ [productionSection, minimalSection] := by
    intro s
    rw [Keyed.mem_def, hitems, List.mem_append, List.mem_append, or_assoc]
  have hplanned : ∀ s ∈ new.items, isManagedSection s.name = true → s ∈ plannedMap rules := by
    intro s hs hmanaged
    obtain hs | hs | hs := (hmem s).mp hs
    · exact (mem_plannedMap h).mpr hs
    · rw [(hmanual s hs).1] at hmanaged
      cases hmanaged
    · rw [isManagedSection_template (template_of_zark hs)] at hmanaged
      cases hmanaged
  have hadded : (diffRules new rules).added = [] := by
    refine List.filter_eq_nil_iff.mpr fun s hs => ?_
    rw [decide_eq_true_iff, not_not]
    exact Keyed.key_mem_keys ((hmem s).mpr (.inl ((mem_plannedMap h).mp hs)))
  have hremoved : (diffRules new rules).removed = [] := by
    refine List.filter_eq_nil_iff.mpr fun s hs => ?_
    rw [Bool.and_eq_true, decide_eq_true_iff]
    exact fun ⟨hmanaged, hnot⟩ => hnot (Keyed.key_mem_keys (hplanned s hs hmanaged))
  have hchanged : (diffRules new rules).changed = [] := by
    refine List.filterMap_eq_nil_iff.mpr fun s hs => ?_
    split
    · rename_i hmanaged
      rw [Keyed.get?_of_mem (hplanned s hs hmanaged), Option.bind_some,
        if_pos (sameSettings_refl _)]
    · rfl
  have hkept : (diffRules new rules).manual = manual := by
    have hrules : (plannedSections rules).filter
        (fun s => !isManagedSection s.name && !startsWith s.name "template_") = [] := by
      refine List.filter_eq_nil_iff.mpr fun s hs => ?_
      simp [managed_of_planned h hs]
    have hown : [productionSection, minimalSection].filter
        (fun s => !isManagedSection s.name && !startsWith s.name "template_") = [] := by
      refine List.filter_eq_nil_iff.mpr fun s hs => ?_
      simp [template_of_zark hs]
    have hself : manual.filter (fun s => !isManagedSection s.name && !startsWith s.name "template_")
        = manual := by
      refine List.filter_eq_self.mpr fun s hs => ?_
      simp [hmanual s hs]
    rw [diffRules]
    dsimp only
    rw [hitems, List.filter_append, List.filter_append, hrules, hself, hown, List.nil_append,
      List.append_nil]
  have htemplates : (diffRules new rules).templates = [] := by
    have hsettings : settingsOf new "template_minimal" = templateMinimalExpected :=
      settingsOf_eq (s := minimalSection) ((hmem _).mpr (.inr (.inr (by simp))))
    rw [diffRules]
    dsimp only
    rw [hsettings, if_pos (sameSettings_refl _)]
  calc diffRules new rules
    _ = ⟨(diffRules new rules).added, (diffRules new rules).removed, (diffRules new rules).changed,
        (diffRules new rules).manual, (diffRules new rules).templates⟩ := rfl
    _ = ⟨[], [], [], manual, []⟩ := by rw [hadded, hremoved, hchanged, hkept, htemplates]

/-- Regenerating keeps what zark does not manage, and there is nothing to change afterwards. -/
structure Regenerates (text : String) (rules : PlannedRules) : Prop where
  kept : ∀ s ∈ parseSanoidConf text, isManagedSection s.name = false →
    s.name ∉ ["template_production", "template_minimal"] →
    ∃ s' ∈ parseSanoidConf (regenerate text rules), s'.name = s.name ∧
    sameSettings s'.settings s.settings = true
  settled : diffRules (parseSanoidConf (regenerate text rules)) rules =
    { added := [], removed := [], changed := [],
      manual := (diffRules (parseSanoidConf text) rules).manual, templates := [] }

/-- A template that is not zark's own is in none of the lists, and is not written again. -/
theorem Regenerates.templates {text : String} {rules : PlannedRules}
    (hregenerates : Regenerates text rules) (h : Plannable rules) (hblank : NoBlankEnd rules) :
    ∀ s ∈ parseSanoidConf text, startsWith s.name "template_" = true →
    s.name ∈ ["template_production", "template_minimal"] := by
  intro s hs htemplate
  by_contra htwo
  obtain ⟨s', hs', hname, -⟩ := hregenerates.kept s hs (isManagedSection_template htemplate) htwo
  rw [Keyed.mem_def, parse_regenerate h hblank, List.mem_append, List.mem_append] at hs'
  obtain (hs' | hs') | hs' := hs'
  · have hnot := not_template_of_managed (managed_of_planned h hs')
    rw [hname, htemplate] at hnot
    cases hnot
  · have hnot := (mem_manual.mp hs').2.2
    rw [hname, htemplate] at hnot
    cases hnot
  · refine htwo (hname ▸ ?_)
    exact List.mem_map_of_mem (f := ConfSection.name) hs'

/-- A planned name with a blank end is never read back, and stays to be added. -/
theorem Regenerates.noBlankEnd {text : String} {rules : PlannedRules}
    (hregenerates : Regenerates text rules) (h : Plannable rules) : NoBlankEnd rules := by
  intro e he
  have hmap : (⟨e.1, ruleToSettings e.2⟩ : ConfSection) ∈ plannedMap rules :=
    (mem_plannedMap h).mpr (List.mem_map_of_mem he)
  have hadded := congrArg SanoidDiff.added hregenerates.settled
  have hnot := List.filter_eq_nil_iff.mp hadded _ (Keyed.mem_def.mp hmap)
  rw [decide_eq_true_iff, not_not] at hnot
  obtain ⟨s, hs, hname⟩ := Keyed.mem_keys.mp hnot
  replace hname : s.name = e.1 := hname
  exact Text.strip_of_stripped (hname ▸ (sectionOk_of_parse hs).name.stripped)

/-- Exactly when: no template but zark's two stands in the old text, and no planned name has a blank
end. -/
theorem regenerates_iff {text : String} {rules : PlannedRules} (h : Plannable rules) :
    Regenerates text rules ↔
      (∀ s ∈ parseSanoidConf text, startsWith s.name "template_" = true →
        s.name ∈ ["template_production", "template_minimal"]) ∧
        ∀ e ∈ rules, Text.strip isSpace e.1.toList = e.1.toList := by
  constructor
  · intro hregenerates
    have hblank := hregenerates.noBlankEnd h
    exact ⟨hregenerates.templates h hblank, hblank⟩
  · rintro ⟨htemplates, hblank⟩
    refine ⟨fun s hs hmanaged htwo => ⟨s, ?_, rfl, sameSettings_refl _⟩,
      diffRules_written h (fun s hs => (mem_manual.mp hs).2) (parse_regenerate h hblank)⟩
    have hplain : startsWith s.name "template_" = false := by
      rw [← Bool.not_eq_true]
      exact fun htemplate => htwo (htemplates s hs htemplate)
    rw [Keyed.mem_def, parse_regenerate h hblank]
    exact List.mem_append_left _ (List.mem_append_right _ (mem_manual.mpr ⟨hs, hmanaged, hplain⟩))

theorem regenerates_iff_games :
    Regenerates "[tank/games]\nautosnap = no\n" [("rpool", ⟨some .minimal, false, "pool root"⟩)] :=
  (regenerates_iff ⟨by decide, by decide +kernel, by simp only [Text.unbroken_iff]; decide⟩).mpr
    ⟨by decide +kernel, by decide +kernel⟩

/-- The user's own template is gone after it, and the section that uses it stays. -/
theorem regenerate_drops_template :
    ¬Regenerates "[template_games]\ndaily = 30\n\n[tank/games]\nuse_template = games\n"
      [("rpool", ⟨some .minimal, false, "pool root"⟩)] := by
  intro h
  have htemplates :=
    h.templates ⟨by decide, by decide +kernel, by simp only [Text.unbroken_iff]; decide⟩ (by
      unfold NoBlankEnd
      decide +kernel)
  exact absurd (htemplates ⟨"template_games", ⟨[⟨"daily", "30"⟩], by decide⟩⟩ (by decide +kernel)
    (by decide)) (by decide)

end Zark
