import Zark.Exclusions

/-!
# The sanoid sections of origin

The policy `zark setup` gives each dataset (`commands/setup.py`): classified one by one, a dataset
whose nearest recursive ancestor has the same policy is left to it, and every subtree excluded from
snapshots and every dataset with a policy of its own under a recursive one is written outside every
recursive section, since sanoid reads its sections in no order it keeps.

Dataset names are cut at their slashes.
-/

namespace Zark

open Hierarchy

/-! ### Policies -/

inductive Template where
  | production
  | minimal
  | drained
  deriving DecidableEq, Repr

/-- A sanoid policy for one dataset; no template is `autosnap=no`. -/
structure SanoidRule where
  template : Option Template
  recursive : Bool
  explain : String
  deriving DecidableEq, Repr

/-- Covered by the recursive rule of the boot environment, the user data or the boot chain. -/
def coveredPrefixes (ubuntu : String) : List Rel :=
  [["rpool", "ROOT", ubuntu], ["rpool", "USERDATA"], ["bpool", "BOOT"]]

/-- The rule of a dataset alone; `none` to leave it out. -/
def classify (ds : Origin) (ubuntu : String) : Option SanoidRule :=
  if ds.kind = .volume then some ⟨none, false, "zvol - backed up via prepare/recover"⟩
  else if ds.rel.length ≤ 1 then some ⟨some .minimal, false, "pool root"⟩
  else if ds.rel = ["rpool", "ROOT", ubuntu] then some ⟨some .production, true, "live system"⟩
  else if ds.rel = ["rpool", "USERDATA"] then some ⟨some .production, true, "user data"⟩
  else if ds.rel = ["rpool", "ROOT"] then some ⟨some .minimal, false, "boot environments container"⟩
  else if Under ds.rel ["rpool", "ROOT"] ∧ ds.rel ≠ ["rpool", "ROOT", ubuntu] then none
  else if (coveredPrefixes ubuntu).any fun top => decide (Under ds.rel top) && ds.rel != top then
    none
  else if ds.rel = ["bpool", "BOOT"] then some ⟨some .production, true, "boot chain"⟩
  else if ds.rel.length = 2 then some ⟨some .minimal, true, "discovered (defensive)"⟩
  else some ⟨some .minimal, true, "discovered nested"⟩

/-- A subtree excluded from snapshots: sanoid takes none and prunes the old ones. -/
def drainedRule : SanoidRule := ⟨some .drained, true, "excluded"⟩

/-- Sections in the order they are written. -/
abbrev Rules := List (Rel × SanoidRule)

/-- The names strictly above a name, the nearest first. -/
def ancestors (name : Rel) : List Rel :=
  (List.range (name.length - 1)).map fun i => name.take (name.length - 1 - i)

def nearestRecursive (rules : Rules) (name : Rel) : Option SanoidRule :=
  (ancestors name).findSome? fun a => (rules.lookup a).filter (·.recursive)

/-- The template in force on a dataset: that of its own section, else of its nearest recursive
ancestor's. -/
def policyOf (rules : Rules) (name : Rel) : Option (Option Template) :=
  match rules.lookup name with
  | some rule => some rule.template
  | none => (nearestRecursive rules name).map SanoidRule.template

/-! ### Splitting -/

section Split

variable (rules : Rules) (datasets drained overrides : List Rel)

def children (name : Rel) : List Rel := datasets.filter fun d => parent d = name ∧ 2 ≤ d.length

/-- A drained subtree or an override lies strictly below. -/
def splits (name : Rel) : Bool :=
  decide (name ∉ drained) && decide (name ∉ overrides) && (drained ++ overrides).any fun t =>
    t != name && decide (Under t name)

/-- The sections of one rule, as deep as `fuel`. -/
def expand : ℕ → Rel → SanoidRule → Rules
  | 0, _, _ => []
  | fuel + 1, name, rule =>
      if name ∈ drained then [(name, drainedRule)]
      else if splits drained overrides name then
        (name, { rule with recursive := false }) :: (children datasets name).flatMap fun child =>
          -- One with a rule of its own is expanded in its turn.
          if (rules.lookup child).isSome ∧ child ∉ drained then [] else expand fuel child rule
      else [(name, rule)]

/-- No name is longer. -/
def deepest : ℕ := (datasets.map List.length).foldl max 0

def splitRule (entry : Rel × SanoidRule) : Rules :=
  if (covering entry.1 drained).isSome ∧ entry.1 ∉ drained then []
  else if entry.2.recursive ∨ entry.1 ∈ drained then
    expand rules datasets drained overrides (deepest datasets + 1) entry.1 entry.2
  else [entry]

/-- Every drained subtree as a section of its own, and no recursive section above it or above an
override. -/
def splitAround : Rules :=
  let out := rules.flatMap (splitRule rules datasets drained overrides)
  out ++ ((sortRels drained).filter (· ∉ out.map Prod.fst)).map fun top => (top, drainedRule)

end Split

/-! ### Discovering -/

section Discover

variable (zfs : Origins) (ubuntu : String)

/-- The datasets of the pools that exist. -/
def listDatasets : List Origin :=
  ["rpool", "bpool"].flatMap fun pool =>
    if [pool] ∈ zfs.keys then zfs.items.filter fun ds => decide (Under ds.rel [pool]) else []

/-- Every dataset's own rule. -/
def initialRules : Rules :=
  (listDatasets zfs).filterMap fun ds => (classify ds ubuntu).map fun rule => (ds.rel, rule)

/-- The nearest recursive ancestor's rule says the same. -/
def isRedundant (initial : Rules) (entry : Rel × SanoidRule) : Bool :=
  (nearestRecursive initial entry.1).any fun anc =>
    anc.template == entry.2.template && anc.recursive == entry.2.recursive

def prunedRules : Rules :=
  (initialRules zfs ubuntu).filter (!isRedundant (initialRules zfs ubuntu) ·)

/-- The rules kept under a recursive one. -/
def overrideNames : List Rel :=
  ((prunedRules zfs ubuntu).filter fun entry =>
    (nearestRecursive (initialRules zfs ubuntu) entry.1).isSome).map Prod.fst

/-- Every section of sanoid.conf. -/
def discoverRules (drained : List Rel) : Rules :=
  if drained = [] ∧ overrideNames zfs ubuntu = [] then prunedRules zfs ubuntu
  else splitAround (prunedRules zfs ubuntu) (sortRels ((listDatasets zfs).map Origin.rel)) drained
    (overrideNames zfs ubuntu)

end Discover

end Zark
