import Zark.Library.Topological
import Zark.Replication

/-!
# What a destroy on a backup drive takes first

`lib/dependents.py`: the datasets that keep `zfs destroy -r <top>` from running, the archived
lineages among them that may go with it, in an order ZFS accepts, or the reasons nothing can be
offered. The destroy itself is libzfs's rule: it is refused while a dataset outside the tree is,
directly or through other clones, a clone of a snapshot in it.
-/

namespace Zark

open Hierarchy

/-! ### The destroy -/

/-- A dataset outside `x`'s tree that is, directly or through other clones and what lies below them,
a clone of a snapshot in it. -/
inductive IsDependent (dest : Drive) (x : Rel) : Rel → Prop
  | direct {d : Dest} {source : SnapName} :
      d ∈ dest → d.cloneOf = some source → ¬Under d.rel x → Under source.1 x →
        IsDependent dest x d.rel
  | through {d : Dest} {source : SnapName} {r : Rel} :
      d ∈ dest → d.cloneOf = some source → ¬Under d.rel x → IsDependent dest x r →
        Under source.1 r →
        IsDependent dest x d.rel

theorem IsDependent.exists_mem {dest : Drive} {x r : Rel} (h : IsDependent dest x r) :
    ∃ d ∈ dest, d.rel = r := by
  cases h with
  | direct hd => exact ⟨_, hd, rfl⟩
  | through hd => exact ⟨_, hd, rfl⟩

/-- `d` is a clone of a snapshot in the trees of `tops`. -/
def Dest.clonedFrom (d : Dest) (tops : List Rel) : Bool :=
  d.cloneOf.any fun source => covered source.1 tops

/-- A clone outside the tree of a snapshot in it. -/
def hasClone (dest : Drive) (x : Rel) : Bool :=
  dest.items.any fun d => d.clonedFrom [x] && !decide (Under d.rel x)

theorem hasClone_iff {dest : Drive} {x : Rel} :
    hasClone dest x = true ↔ ∃ r, IsDependent dest x r := by
  constructor
  · intro h
    obtain ⟨d, hd, h⟩ := List.any_eq_true.mp h
    simp only [Dest.clonedFrom, Bool.and_eq_true, Option.any_eq_true, Bool.not_eq_true',
      decide_eq_false_iff_not, covered_iff, List.mem_singleton, exists_eq_left] at h
    obtain ⟨⟨source, hsource, hunder⟩, hout⟩ := h
    exact ⟨d.rel, .direct hd hsource hout hunder⟩
  · rintro ⟨r, h⟩
    -- Every chain of clones that leaves the tree leaves it by a first dataset.
    induction h with
    | @direct d source hd hsource hout hunder =>
        refine List.any_eq_true.mpr ⟨d, hd, ?_⟩
        simp only [Dest.clonedFrom, hsource, Option.any_some, covered_iff, List.mem_singleton,
          exists_eq_left, Bool.and_eq_true, Bool.not_eq_true', decide_eq_false_iff_not]
        exact ⟨hunder, hout⟩
    | through _ _ _ _ _ ih => exact ih

/-- `zfs destroy -r x`: the dataset is there and nothing outside its tree depends on a snapshot in
it. -/
def zfsDestroy (dest : Drive) (x : Rel) : Option Drive :=
  if x ∈ dest.keys ∧ hasClone dest x = false then
    some (dest.filter fun d => !decide (Under d.rel x))
  else none

/-! ### The plan -/

/-- A dataset the destroy of a tree is refused for, with the snapshot it is a clone of. -/
structure Dependent where
  rel : Rel
  origin : SnapName
  archived : Bool
  depth : Nat
  deriving DecidableEq, Repr

inductive Why where
  | live
  | inside
  | cycle
  | newer
  deriving DecidableEq, Repr

/-- A clone that keeps a destroy from being offered. -/
structure Blocker where
  rel : Rel
  origin : SnapName
  why : Why
  deriving DecidableEq, Repr

/-- What `zfs destroy -r top` needs gone first, each before what it was cloned from. -/
structure DestroyPlan where
  top : Rel
  order : List Dependent
  blockers : List Blocker
  deriving DecidableEq, Repr

def DestroyPlan.ok (p : DestroyPlan) : Bool := p.blockers.isEmpty

/-- `d` as a dependent: a clone outside the trees of `gone` of a snapshot in them. -/
def newDependent (top : Rel) (gone : List Rel) (depth : Nat) (d : Dest) : Option Dependent :=
  d.cloneOf.bind fun source =>
    if !covered d.rel gone && covered source.1 gone then
      some { rel := d.rel, origin := source,
             archived := isArchived d.rel && decide (Under (logical d.rel) top), depth }
    else none

def newDependents (dest : Drive) (top : Rel) (gone : List Rel) (depth : Nat) : List Dependent :=
  dest.items.filterMap (newDependent top gone depth)

/-- The loop of `_trees`: one depth at a time, until a depth adds nothing. -/
def findDependents (dest : Drive) (top : Rel) :
    Nat → Nat → List Rel → List Dependent → List Dependent
  | 0, _, _, found => found
  | fuel + 1, depth, gone, found =>
      match newDependents dest top gone depth with
      | [] => found
      | new =>
          findDependents dest top fuel (depth + 1) (gone ++ new.map Dependent.rel) (found ++ new)

/-- What the destroy of `top` is refused for, one entry per tree; a depth adds a dataset or is the
last. -/
def trees (dest : Drive) (top : Rel) : List Dependent :=
  let found := findDependents dest top (dest.items.length + 1) 1 [top] []
  found.filter fun x => !covered x.rel ((found.map Dependent.rel).filter (· ≠ x.rel))

/-- The tree that holds `rel`. -/
def treeOf (trees : List Dependent) (rel : Rel) : Option Dependent :=
  trees.find? fun t => decide (Under rel t.rel)

/-- The clones in tree `t` of snapshots in other trees. -/
def edges (dest : Drive) (top : Rel) (trees : List Dependent) (t : Dependent) :
    List (Rel × SnapName) :=
  (sortedItems dest).filterMap fun d =>
    d.cloneOf.bind fun source => (treeOf trees source.1).bind fun of =>
      if !decide (Under d.rel top) && treeOf trees d.rel = some t && t != of then
        some (d.rel, source)
      else none

/-- The clones in the tree to destroy of a dependent's snapshot. -/
def insideClones (dest : Drive) (top : Rel) (trees : List Dependent) : List (Rel × SnapName) :=
  (sortedItems dest).filterMap fun d =>
    d.cloneOf.bind fun source => (treeOf trees source.1).bind fun _ =>
      if decide (Under d.rel top) then some (d.rel, source) else none

/-- The trees in an order ZFS accepts, the deepest ready one first, and those that are cloned from
each other. -/
def topological (trees : List Dependent) (edges : Dependent → List (Rel × SnapName)) :
    List Dependent × List Dependent :=
  let (order, stuck) := Topological.take
    (fun x t => (edges t).any fun edge => decide (treeOf trees edge.2.1 = some x))
    (fun x y => x.depth > y.depth ∨ x.depth = y.depth ∧ x.rel.text ≤ y.rel.text) trees.length trees
  (order, stuck.insertionSort fun x y => x.rel.text ≤ y.rel.text)

/-- The dependents of `top`'s tree in the order they can go, or what keeps it from being
destroyed. -/
def destroyPlan (dest : Drive) (top : Rel) : DestroyPlan :=
  let trees := trees dest top
  let edges := edges dest top trees
  let live := (trees.filter fun x => !x.archived).map fun x => Blocker.mk x.rel x.origin .live
  let inside := (insideClones dest top trees).map fun clone => Blocker.mk clone.1 clone.2 .inside
  let (order, stuck) := topological trees edges
  let cycle := stuck.flatMap fun t => (edges t).map fun edge => Blocker.mk edge.1 edge.2 .cycle
  { top, order, blockers := live ++ inside ++ cycle }

/-- Clones of the snapshots a rollback of `rel` would destroy. -/
def rollbackBlockers (dest : Drive) (rel : Rel) (newer : List String) : List Blocker :=
  (sortedItems dest).filterMap fun d => d.cloneOf.bind fun source =>
    if decide (source.1 = rel) && newer.contains source.2 then
      some ⟨d.rel, source, .newer⟩
    else none

/-- One destroy after another, up to the first that fails: what went, whether every one did, and
what is left. -/
def destroyEach {σ : Type} (destroy : σ → Rel → Option σ) : List Rel → σ → List Rel × Bool × σ
  | [], s => ([], true, s)
  | rel :: rest, s =>
      match destroy s rel with
      | none => ([], false, s)
      | some s' =>
          let after := destroyEach destroy rest s'
          (rel :: after.1, after.2)

/-- The destroys of the plan's order; nothing for a plan with a blocker. -/
def destroyDependents {σ : Type} (destroy : σ → Rel → Option σ) (plan : DestroyPlan) (s : σ) :
    List Rel × Bool × σ :=
  if !plan.ok then ([], false, s) else destroyEach destroy (plan.order.map Dependent.rel) s

end Zark
