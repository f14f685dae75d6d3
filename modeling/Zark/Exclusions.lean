import Zark.Replication

/-!
# Datasets left out of backups or of local snapshots

An exclusion is declared on an origin dataset as a ZFS user property set there, and covers the
dataset and everything below it: ZFS inheritance does not decide. Never excluded are the boot
environments, the boot pool, the keystore, the structural containers, volumes, archived names and
a dataset whose subtree holds any of the first ones; a value found on such a dataset is ignored
and reported.

The lines of `zfs get` are text here, and a dataset name in them is cut at its slashes.
-/

namespace Zark

open Hierarchy

/-- The exclusion that covers `rel`: its nearest top. -/
def covering (rel : Rel) (tops : List Rel) : Option Rel :=
  tops.foldl
    (fun best top =>
      if Under rel top ∧ (best.elim 0 fun b => (Rel.text b).length) < (Rel.text top).length then
        some top
      else best)
    none

/-- Why the name or the kind of `rel` alone keeps it from being excluded. -/
def ruledOut (rel : Rel) (o : Option Origin) : Option String :=
  if Under rel ["rpool", "ROOT"] then some "a boot environment is never excluded"
  else if isBpool rel then some "the boot pool is never excluded"
  else if Under rel keystore then some "the keystore is never excluded"
  else if structural.contains rel then
    some "a structural container is not replicated itself: exclude its children instead"
  else if o.any (·.kind == .volume) then
    some "zark exclude does not apply to a zvol (zvols are never backed up)"
  else if isArchived rel then some "zark leaves .archived- names out already"
  else none

/-- Why `rel` can never be excluded: its own name and kind, or a dataset of its subtree. -/
def neverExcluded (rel : Rel) (origin : Origins) : Option String :=
  match ruledOut rel (origin.get? rel) with
  | some why => some why
  | none =>
      -- What lies below is judged by its name alone: a volume there holds nothing back.
      let held := (sortRels origin.keys).find? fun x =>
        x != rel && decide (Under x rel) && (ruledOut x none).isSome
      held.map fun x => "its subtree holds " ++ Rel.text x

/-! ### What is declared -/

/-- The two properties an exclusion is declared with. -/
inductive Flag where
  | replicate
  | snapshot
  deriving DecidableEq, Repr

def Flag.prop : Flag → String
  | .replicate => "org.zark:replicate"
  | .snapshot => "org.zark:snapshot"

/-- One declared exclusion: a dataset and its subtree. -/
structure Exclusion where
  top : Rel
  /-- Left out of backups. -/
  replicate : Bool
  /-- Left out of sanoid's snapshots. -/
  snapshot : Bool
  deriving DecidableEq, Repr

/-- The exclusion is declared for that flag. -/
def Exclusion.has (e : Exclusion) : Flag → Bool
  | .replicate => e.replicate
  | .snapshot => e.snapshot

/-- The datasets of `rels` that no other one of them covers. -/
def minimal (rels : List Rel) : List Rel :=
  rels.filter fun r => (covering r (rels.filter (· ≠ r))).isNone

/-- The exclusions read from origin, and the values zark ignores. -/
structure Declared where
  tops : Keyed Exclusion.top
  ignored : List (Rel × String)
  deriving DecidableEq

namespace Declared

/-- The tops declared for a flag. -/
def flagged (d : Declared) (flag : Flag) : List Rel :=
  (d.tops.items.filter (·.has flag)).map Exclusion.top

/-- The subtree tops a flag leaves out. -/
def minimalTops (d : Declared) (flag : Flag) : List Rel := minimal (d.flagged flag)

/-- The subtree tops left out of backups. -/
def noBackup (d : Declared) : List Rel := d.minimalTops .replicate

/-- The subtree tops left out of sanoid's snapshots. -/
def noSnapshot (d : Declared) : List Rel := d.minimalTops .snapshot

end Declared

/-! ### Reading the properties -/

/-- What is set on one dataset. -/
structure Setting where
  rel : Rel
  replicate : Option String := none
  snapshot : Option String := none
  deriving DecidableEq, Repr

namespace Setting

def value (s : Setting) : Flag → Option String
  | .replicate => s.replicate
  | .snapshot => s.snapshot

def set (s : Setting) (flag : Flag) (value : String) : Setting :=
  match flag with
  | .replicate => { s with replicate := some value }
  | .snapshot => { s with snapshot := some value }

/-- The values other than `no` and `yes`, in the order of the properties' names. -/
def bad (s : Setting) : List String :=
  [Flag.replicate, Flag.snapshot].filterMap fun flag =>
    (s.value flag).bind fun v => if v = "no" ∨ v = "yes" then none else some (flag.prop ++ "=" ++ v)

def badText (s : Setting) : String := ", ".intercalate s.bad ++ ": only 'no' excludes"

/-- The exclusion a dataset's values ask for. -/
def exclusion (s : Setting) : Exclusion :=
  ⟨s.rel, s.replicate == some "no", s.snapshot == some "no"⟩

def excludes (s : Setting) : Bool := s.exclusion.replicate || s.exclusion.snapshot

end Setting

/-- The property of that name. -/
def flagOf (prop : String) : Option Flag :=
  if prop = Flag.replicate.prop then some .replicate
  else if prop = Flag.snapshot.prop then some .snapshot
  else none

/-- A `name property value` line; one of a snapshot or bookmark says nothing. -/
def valueLine (line : String) : Option (Rel × Flag × String) :=
  match (line.toList.splitOn '\t').map String.ofList with
  | [name, prop, value] =>
      if name.toList.contains '@' || name.toList.contains '#' then none
      else (flagOf prop).map fun flag => (Rel.ofText name, flag, value)
  | _ => none

/-- One more line read: a later value of a property takes the place of an earlier one. -/
def addLine (found : Keyed Setting.rel) (line : String) : Keyed Setting.rel :=
  match valueLine line with
  | some (rel, flag, value) => found.put (((found.get? rel).getD { rel }).set flag value)
  | none => found

/-- `name property value` lines: what is set on each dataset. -/
def values (lines : List String) : Keyed Setting.rel := lines.foldl addLine ∅

/-- `sorted(values.items())`. -/
def sortedSettings (found : Keyed Setting.rel) : Keyed Setting.rel where
  items := found.items.insertionSort fun a b => a.rel.key ≤ b.rel.key
  nodup := ((List.perm_insertionSort _ _).map Setting.rel).nodup_iff.mpr found.nodup

/-- What is reported of a dataset whose values are wrong or cannot be followed. -/
def refusals (s : Setting) (origin : Origins) : List (Rel × String) :=
  (if s.bad = [] then [] else [(s.rel, s.badText)]) ++
    if s.excludes then ((neverExcluded s.rel origin).map fun why => (s.rel, why)).toList else []

/-- The text reported of a `yes` that an exclusion above it overrides. -/
def contraryText (flag : Flag) (top : Rel) : String :=
  flag.prop ++ "=yes inside " ++ Rel.text top ++ ", which excludes its whole subtree"

/-- The `yes` values of a dataset that lie inside an excluded subtree. -/
def contraries (s : Setting) (tops : Flag → List Rel) : List (Rel × String) :=
  [Flag.replicate, Flag.snapshot].filterMap fun flag =>
    if s.value flag = some "yes" then
      (covering s.rel ((tops flag).filter (· ≠ s.rel))).map fun top =>
        (s.rel, contraryText flag top)
    else none

/-- The exclusion a dataset's values are accepted as. -/
def accepted (s : Setting) (origin : Origins) : Option Exclusion :=
  if s.excludes && (neverExcluded s.rel origin).isNone then some s.exclusion else none

theorem accepted_eq_some_iff {s : Setting} {origin : Origins} {e : Exclusion} :
    accepted s origin = some e ↔
      s.excludes = true ∧ neverExcluded s.rel origin = none ∧ s.exclusion = e := by
  simp [accepted, and_assoc]

/-- `name property value` lines of `zfs get -H -s local` as the declared exclusions, origin's
datasets naming what is checked. -/
def parse (lines : List String) (origin : Origins) : Declared :=
  let found := sortedSettings (values lines)
  let tops : Keyed Exclusion.top :=
    ⟨found.items.filterMap (accepted · origin), found.nodup_filterMap fun _ _ h =>
      (accepted_eq_some_iff.mp h).2.2 ▸ rfl⟩
  { tops
    ignored := found.items.flatMap (refusals · origin) ++
      found.items.flatMap (contraries · (Declared.mk tops []).minimalTops) }

end Zark
