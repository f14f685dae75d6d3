import Zark.Library.Text
import Zark.Sanoid

/-!
# sanoid.conf

The text `zark setup` reads, compares with the planned rules and writes again (`commands/setup.py`).
A section is a name and its settings; the generator writes the planned sections, the user's own
and zark's two templates.
-/

namespace Zark

/-! ### Sections -/

structure Entry where
  key : String
  value : String
  deriving DecidableEq, Repr

abbrev Settings := Keyed Entry.key

structure ConfSection where
  name : String
  settings : Settings
  deriving DecidableEq

/-- Equal as dictionaries. -/
def sameSettings (a b : Settings) : Bool :=
  (a.items.all fun e => decide (e ∈ b)) && b.items.all fun e => decide (e ∈ a)

/-! ### Reading -/

/-- White space, as `str.strip` takes it. -/
def isSpace (c : Char) : Bool :=
  decide (9 ≤ c.toNat ∧ c.toNat ≤ 13 ∨ 28 ≤ c.toNat ∧ c.toNat ≤ 32 ∨ 8192 ≤ c.toNat ∧
    c.toNat ≤ 8202 ∨
    c.toNat ∈ [133, 160, 5760, 8232, 8233, 8239, 8287, 12288])

inductive ConfLine where
  | header (name : List Char)
  | entry (key value : List Char)
  | other
  deriving DecidableEq, Repr

def readLine (raw : List Char) : ConfLine :=
  let line := Text.strip isSpace raw
  if line = [] ∨ line.head? = some '#' then .other
  else if line.head? = some '[' ∧ line.getLast? = some ']' then
    .header (Text.strip isSpace line.tail.dropLast)
  else if '=' ∉ line then .other
  else .entry (Text.strip isSpace (line.takeWhile (· ≠ '=')))
    (Text.strip isSpace (line.dropWhile (· ≠ '=')).tail)

/-- The settings a section has. -/
def settingsOf (sections : Keyed ConfSection.name) (name : String) : Settings :=
  ((sections.get? name).map ConfSection.settings).getD ∅

/-- One more line: a header opens its section again or a new one, a setting goes to the section that
is open. -/
def addConfLine (state : Keyed ConfSection.name × Option String) (raw : List Char) :
    Keyed ConfSection.name × Option String :=
  match readLine raw, state.2 with
  | .header name, _ =>
      let name := String.ofList name
      (state.1.put ⟨name, settingsOf state.1 name⟩, some name)
  | .entry key value, some current =>
      (state.1.put ⟨current, (settingsOf state.1 current).put
        ⟨String.ofList key, String.ofList value⟩⟩, some current)
  | _, _ => state

def parseSanoidConf (text : String) : Keyed ConfSection.name :=
  ((Text.splitLines text.toList).foldl addConfLine (∅, none)).1

/-! ### Writing -/

def headerLine (name : String) : List Char := '[' :: name.toList ++ [']']

def entryLine (e : Entry) : List Char := e.key.toList ++ [' ', '=', ' '] ++ e.value.toList

def Template.text : Template → String
  | .production => "production"
  | .minimal => "minimal"
  | .drained => "drained"

def drainedSettings : Settings where
  items :=
    [⟨"autosnap", "no"⟩, ⟨"autoprune", "yes"⟩, ⟨"frequently", "0"⟩, ⟨"hourly", "0"⟩, ⟨"daily", "0"⟩,
      ⟨"weekly", "0"⟩, ⟨"monthly", "0"⟩, ⟨"yearly", "0"⟩, ⟨"recursive", "yes"⟩]
  nodup := by decide

/-- The lines of one planned section. -/
def formatRule (name : String) (rule : SanoidRule) : List (List Char) :=
  headerLine name ::
    match rule.template with
    | some .drained => drainedSettings.items.map entryLine
    | none => ["autosnap = no".toList, "autoprune = no".toList]
    | some template =>
        [("use_template = " ++ template.text).toList, ("recursive = " ++
          if rule.recursive then "yes" else "no").toList]

def productionLines : List (List Char) :=
  ["[template_production]".toList, "frequently = 0".toList, "hourly = 24".toList,
    "daily = 7".toList, "weekly = 4".toList, "monthly = 3".toList, "yearly = 0".toList,
    "autoprune = yes".toList, "autosnap = yes".toList]

def minimalLines : List (List Char) :=
  ["[template_minimal]".toList, "frequently = 0".toList, "hourly = 0".toList, "daily = 14".toList,
    "weekly = 8".toList, "monthly = 3".toList, "yearly = 0".toList, "autoprune = yes".toList,
    "autosnap = yes".toList]

def prefaceLines : List (List Char) :=
  ["# Generated by zark setup. Edit freely; zark will ask before overwriting.".toList,
    "# Sections under rpool/* and bpool/* are managed by zark; others are".toList,
    "# preserved untouched across regenerations.".toList, []]

def sectionLines (s : ConfSection) : List (List Char) :=
  headerLine s.name :: s.settings.items.map entryLine

/-- Planned sections by name. -/
abbrev PlannedRules := List (String × SanoidRule)

def confLines (rules : PlannedRules) (manual : List ConfSection) : List (List Char) :=
  prefaceLines ++ rules.flatMap (fun e => formatRule e.1 e.2 ++ [[]]) ++
    (if manual = [] then [] else
      ["# ── Preserved user sections (not managed by zark) ──".toList, []] ++
        manual.flatMap fun s => sectionLines s ++ [[]]) ++
    productionLines ++ [[]] ++ minimalLines

def generateSanoidConf (rules : PlannedRules) (manual : List ConfSection) : String :=
  String.ofList ((confLines rules manual).flatMap (· ++ ['\n']))

/-! ### Comparing -/

/-- The settings the planned rule of a section has once written. -/
def ruleToSettings (rule : SanoidRule) : Settings :=
  match rule.template with
  | some .drained => drainedSettings
  | none => ⟨[⟨"autosnap", "no"⟩, ⟨"autoprune", "no"⟩], by decide⟩
  | some template =>
      ⟨[⟨"use_template", template.text⟩,
        ⟨"recursive", if rule.recursive then "yes" else "no"⟩], by simp⟩

/-- Zark's own: below rpool or bpool, and no template. -/
def isManagedSection (name : String) : Bool :=
  if startsWith name "template_" then
    false
  else String.ofList (name.toList.takeWhile (· ≠ '/')) ∈ ["rpool", "bpool"]

def templateMinimalExpected : Settings where
  items :=
    [⟨"frequently", "0"⟩, ⟨"hourly", "0"⟩, ⟨"daily", "14"⟩, ⟨"weekly", "8"⟩, ⟨"monthly", "3"⟩,
      ⟨"yearly", "0"⟩, ⟨"autoprune", "yes"⟩, ⟨"autosnap", "yes"⟩]
  nodup := by decide

structure SanoidDiff where
  added : List ConfSection
  removed : List ConfSection
  changed : List (String × Settings × Settings)
  manual : List ConfSection
  templates : List (String × Settings × Settings)
  deriving DecidableEq

def plannedMap (planned : PlannedRules) : Keyed ConfSection.name :=
  Keyed.putAll (planned.map fun e => ⟨e.1, ruleToSettings e.2⟩)

def diffRules (current : Keyed ConfSection.name) (planned : PlannedRules) : SanoidDiff where
  added := (plannedMap planned).items.filter fun s => s.name ∉ current.keys
  removed :=
    current.items.filter fun s => isManagedSection s.name && decide
      (s.name ∉ (plannedMap planned).keys)
  changed := current.items.filterMap fun s =>
    if isManagedSection s.name then
      ((plannedMap planned).get? s.name).bind fun p =>
        if sameSettings p.settings s.settings then none else some (s.name, s.settings, p.settings)
    else none
  manual := current.items.filter fun s => !isManagedSection s.name && !startsWith s.name "template_"
  templates :=
    if sameSettings (settingsOf current "template_minimal") templateMinimalExpected then []
    else [("template_minimal", settingsOf current "template_minimal", templateMinimalExpected)]

/-- The text after it is written again. -/
def regenerate (text : String) (rules : PlannedRules) : String :=
  generateSanoidConf rules (diffRules (parseSanoidConf text) rules).manual

end Zark
