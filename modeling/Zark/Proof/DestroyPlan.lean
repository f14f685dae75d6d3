import Zark.Dependents

/-!
# A destroy plan is what ZFS accepts

The walk of `trees` finds the datasets ZFS would refuse for and nothing else, merged into disjoint
trees. Each tree of the order goes after every tree that holds a clone of its snapshots, so each
destroy meets no clone, and the tree itself is left without one. A plan that is not offered names an
obstacle no order of destroys gets around.
-/

namespace Zark

open Hierarchy

/-! ### The walk -/

theorem mem_newDependents {dest : Drive} {top : Rel} {gone : List Rel} {depth : Nat}
    {x : Dependent} :
    x ∈ newDependents dest top gone depth ↔
      ∃ d ∈ dest, d.cloneOf = some x.origin ∧ d.rel = x.rel ∧ covered x.rel gone = false ∧
      covered x.origin.1 gone = true ∧
        x.archived = (isArchived x.rel && decide (Under (logical x.rel) top)) ∧
        x.depth = depth := by
  simp only [newDependents, newDependent, List.mem_filterMap, Option.bind_eq_some_iff]
  constructor
  · rintro ⟨d, hd, source, hsource, h⟩
    split at h
    · rename_i hcond
      cases h
      rw [Bool.and_eq_true, Bool.not_eq_true'] at hcond
      exact ⟨d, hd, hsource, rfl, hcond.1, hcond.2, rfl, rfl⟩
    · cases h
  · rintro ⟨d, hd, hsource, hrel, hout, hin, harchived, hdepth⟩
    refine ⟨d, hd, x.origin, hsource, ?_⟩
    rw [hrel, hout, hin, ← harchived, ← hdepth]
    rfl

/-- What the walk keeps: each entry is a dependent, judged by its own name. -/
private def Sound (dest : Drive) (top : Rel) (x : Dependent) : Prop :=
  IsDependent dest top x.rel ∧ x.archived = (isArchived x.rel && decide (Under (logical x.rel) top))

private theorem sound_of_new {dest : Drive} {top : Rel} {found : List Dependent} {depth : Nat}
    {x : Dependent} (hfound : ∀ y ∈ found, Sound dest top y)
    (hx : x ∈ newDependents dest top (top :: found.map Dependent.rel) depth) :
    Sound dest top x := by
  obtain ⟨d, hd, hsource, hrel, hout, hin, harchived, -⟩ := mem_newDependents.mp hx
  rw [← Bool.not_eq_true, covered_iff] at hout
  have houtTop : ¬Under d.rel top := fun h => hout ⟨top, List.mem_cons_self, hrel ▸ h⟩
  refine ⟨hrel ▸ ?_, harchived⟩
  obtain ⟨t, ht, hunder⟩ := covered_iff.mp hin
  rcases List.mem_cons.mp ht with rfl | ht
  · exact .direct hd hsource houtTop hunder
  · obtain ⟨y, hy, rfl⟩ := List.mem_map.mp ht
    exact .through hd hsource houtTop (hfound y hy).1 hunder

private theorem new_nodup {dest : Drive} {top : Rel} {gone : List Rel} {depth : Nat} :
    ((newDependents dest top gone depth).map Dependent.rel).Nodup := by
  refine dest.nodup_filterMap fun d x hx => ?_
  obtain ⟨source, -, h⟩ := Option.bind_eq_some_iff.mp hx
  split at h <;> cases h
  rfl

/-- The datasets no tree of `gone` covers yet. -/
private def uncovered (dest : Drive) (gone : List Rel) : Nat :=
  (dest.items.filter fun d => !covered d.rel gone).length

private theorem uncovered_lt {dest : Drive} {top : Rel} {gone : List Rel} {depth : Nat}
    {x : Dependent} (hx : x ∈ newDependents dest top gone depth) :
    uncovered dest (gone ++ (newDependents dest top gone depth).map Dependent.rel)
      < uncovered dest gone := by
  obtain ⟨d, hd, -, hrel, hout, -⟩ := mem_newDependents.mp hx
  have hsub : (dest.items.filter fun d =>
      !covered d.rel (gone ++ (newDependents dest top gone depth).map Dependent.rel)).Sublist
      (dest.items.filter fun d => !covered d.rel gone) := by
    refine List.monotone_filter_right _ fun d h => ?_
    rw [Bool.not_eq_true', covered, List.any_append, Bool.or_eq_false_iff] at h
    exact Bool.not_eq_true' _ ▸ h.1
  refine lt_of_le_of_ne hsub.length_le fun hlen => ?_
  -- `x` itself is covered now and was not.
  have hmem : d ∈ dest.items.filter fun d => !covered d.rel gone :=
    List.mem_filter.mpr ⟨hd, by simp [hrel, hout]⟩
  rw [← hsub.eq_of_length hlen] at hmem
  have hcov : covered d.rel (gone ++ (newDependents dest top gone depth).map Dependent.rel)
      = true :=
    covered_iff.mpr ⟨x.rel, List.mem_append_right _ (List.mem_map_of_mem hx),
      hrel ▸ List.prefix_rfl⟩
  simp [hcov] at hmem

/-- The walk ends with dependents only, each once, and with no clone left outside. -/
private theorem findDependents_spec {dest : Drive} {top : Rel} (fuel : Nat) :
    ∀ (depth : Nat) (found : List Dependent),
    uncovered dest (top :: found.map Dependent.rel) < fuel →
      (∀ x ∈ found, Sound dest top x) → (found.map Dependent.rel).Nodup →
      ∀ result, findDependents dest top fuel depth (top :: found.map Dependent.rel) found = result →
        (∀ x ∈ result, Sound dest top x) ∧ (result.map Dependent.rel).Nodup ∧
          ∃ last, newDependents dest top (top :: result.map Dependent.rel) last = [] := by
  induction fuel with
  | zero =>
      intro depth found hfuel
      omega
  | succ fuel ih =>
      intro depth found hfuel hsound hnodup result hresult
      unfold findDependents at hresult
      split at hresult
      · rename_i hnew
        subst hresult
        exact ⟨hsound, hnodup, depth, hnew⟩
      · rename_i hnew
        have hmap : top :: found.map Dependent.rel ++
            (newDependents dest top (top :: found.map Dependent.rel) depth).map Dependent.rel =
              top :: (found ++ newDependents dest top (top :: found.map Dependent.rel) depth).map
                  Dependent.rel := by
          rw [List.map_append, List.cons_append]
        obtain ⟨x, hx⟩ : ∃ x, x ∈ newDependents dest top (top :: found.map Dependent.rel) depth :=
          List.exists_mem_of_ne_nil _ hnew
        have hlt := uncovered_lt hx
        rw [hmap] at hlt hresult
        refine ih (depth + 1) _ (by omega) ?_ ?_ result hresult
        · intro y hy
          rcases List.mem_append.mp hy with hy | hy
          · exact hsound y hy
          · exact sound_of_new hsound hy
        · rw [List.map_append, List.nodup_append]
          refine ⟨hnodup, new_nodup, ?_⟩
          rintro r hr s hs rfl
          obtain ⟨y, hy, rfl⟩ := List.mem_map.mp hs
          obtain ⟨-, -, -, -, hout, -⟩ := mem_newDependents.mp hy
          rw [covered_iff.mpr ⟨y.rel, List.mem_cons_of_mem _ hr, List.prefix_rfl⟩] at hout
          cases hout

private theorem uncovered_le (dest : Drive) (gone : List Rel) :
    uncovered dest gone < dest.items.length + 1 :=
  Nat.lt_succ_of_le (List.length_filter_le _ _)

/-! ### The trees -/

section Trees

variable {dest : Drive} {top : Rel}

private theorem mem_trees {x : Dependent} :
    x ∈ trees dest top ↔
      x ∈ findDependents dest top (dest.items.length + 1) 1 [top] [] ∧
        x.rel ∈ topmost ((findDependents dest top (dest.items.length + 1) 1 [top] []).map
          Dependent.rel) := by
  simp only [trees, topmost, List.mem_filter]
  refine and_congr_right fun hx => ⟨fun h => ⟨List.mem_map_of_mem hx, h⟩, fun h => h.2⟩

private theorem found_spec :
    ∀ result, findDependents dest top (dest.items.length + 1) 1 [top] [] = result →
      (∀ x ∈ result, Sound dest top x) ∧ (result.map Dependent.rel).Nodup ∧
        ∃ last, newDependents dest top (top :: result.map Dependent.rel) last = [] :=
  findDependents_spec _ 1 [] (uncovered_le dest [top]) (by simp) List.nodup_nil

theorem isDependent_of_mem_trees {t : Dependent} (ht : t ∈ trees dest top) :
    IsDependent dest top t.rel :=
  ((found_spec _ rfl).1 t (mem_trees.mp ht).1).1

theorem archived_of_mem_trees {t : Dependent} (ht : t ∈ trees dest top) :
    t.archived = (isArchived t.rel && decide (Under (logical t.rel) top)) :=
  ((found_spec _ rfl).1 t (mem_trees.mp ht).1).2

theorem nodup_trees : (trees dest top).Nodup :=
  List.Nodup.of_map Dependent.rel ((found_spec _ rfl).2.1.sublist (List.filter_sublist.map _))

theorem trees_disjoint {r : Rel} {t u : Dependent} (ht : t ∈ trees dest top)
    (hu : u ∈ trees dest top) (hrt : Under r t.rel) (hru : Under r u.rel) : t = u := by
  obtain ⟨ht, htopmost⟩ := mem_trees.mp ht
  obtain ⟨hu, hutopmost⟩ := mem_trees.mp hu
  exact List.inj_on_of_nodup_map (found_spec _ rfl).2.1 ht hu
    (topmost_unique htopmost hutopmost hrt hru)

theorem exists_tree {r : Rel} (h : IsDependent dest top r) :
    ∃ t ∈ trees dest top, Under r t.rel := by
  have hcovered : covered r ((findDependents dest top (dest.items.length + 1) 1 [top] []).map
      Dependent.rel) = true := by
    obtain ⟨-, -, last, hclosed⟩ := @found_spec dest top _ rfl
    -- A clone of something gone is gone too, or the walk would have gone on.
    have hstep : ∀ {d : Dest} {source : SnapName}, d ∈ dest → d.cloneOf = some source →
        ¬Under d.rel top →
        covered source.1 (top :: (findDependents dest top (dest.items.length + 1) 1 [top] []).map
          Dependent.rel) = true →
        covered d.rel ((findDependents dest top (dest.items.length + 1) 1 [top] []).map
            Dependent.rel) = true := by
      intro d source hd hsource hout hin
      by_contra hnot
      have hgone : covered d.rel (top :: (findDependents dest top
          (dest.items.length + 1) 1 [top] []).map Dependent.rel) = false := by
        rw [covered, List.any_cons, Bool.or_eq_false_iff]
        exact ⟨by simpa using hout, Bool.eq_false_iff.mpr hnot⟩
      have hnew : (⟨d.rel, source, isArchived d.rel && decide (Under (logical d.rel) top),
          last⟩ : Dependent) ∈
          newDependents dest top (top :: (findDependents dest top
              (dest.items.length + 1) 1 [top] []).map Dependent.rel) last :=
        mem_newDependents.mpr ⟨d, hd, hsource, rfl, hgone, hin, rfl, rfl⟩
      rw [hclosed] at hnew
      cases hnew
    induction h with
    | direct hd hsource hout hunder =>
        exact hstep hd hsource hout (covered_iff.mpr ⟨top, List.mem_cons_self, hunder⟩)
    | through hd hsource hout _ hunder ih =>
        obtain ⟨t, ht, hrt⟩ := covered_iff.mp ih
        exact hstep hd hsource hout (covered_iff.mpr ⟨t, List.mem_cons_of_mem _ ht,
          hunder.trans hrt⟩)
  obtain ⟨s, hs, hrs⟩ := covered_iff.mp hcovered
  obtain ⟨u, hu, hsu⟩ := exists_topmost hs
  obtain ⟨t, ht, rfl⟩ := List.mem_map.mp (mem_topmost.mp hu).1
  exact ⟨t, mem_trees.mpr ⟨ht, hu⟩, hrs.trans hsu⟩

theorem treeOf_eq_some_iff {r : Rel} {t : Dependent} :
    treeOf (trees dest top) r = some t ↔ t ∈ trees dest top ∧ Under r t.rel := by
  constructor
  · intro h
    exact ⟨List.mem_of_find?_eq_some h, by simpa using List.find?_some h⟩
  · rintro ⟨ht, hunder⟩
    cases hfind : treeOf (trees dest top) r with
    | none =>
        have := List.find?_eq_none.mp hfind t ht
        simp [hunder] at this
    | some u =>
        have hu : Under r u.rel := by simpa using List.find?_some hfind
        rw [trees_disjoint (List.mem_of_find?_eq_some hfind) ht hu hunder]

theorem mem_edges {t : Dependent} {edge : Rel × SnapName} :
    edge ∈ edges dest top (trees dest top) t ↔
      ∃ d ∈ dest, d.rel = edge.1 ∧ d.cloneOf = some edge.2 ∧ ¬Under d.rel top ∧
      (t ∈ trees dest top ∧ Under d.rel t.rel) ∧
        ∃ u ∈ trees dest top, Under edge.2.1 u.rel ∧ t ≠ u := by
  simp only [edges, List.mem_filterMap, Option.bind_eq_some_iff, mem_sortedItems]
  constructor
  · rintro ⟨d, hd, source, hsource, u, hu, h⟩
    split at h
    · rename_i hcond
      cases h
      simp only [Bool.and_eq_true, Bool.not_eq_true', decide_eq_false_iff_not, decide_eq_true_eq,
        bne_iff_ne] at hcond
      have hu := treeOf_eq_some_iff.mp hu
      exact ⟨d, hd, rfl, hsource, hcond.1.1, treeOf_eq_some_iff.mp hcond.1.2, u, hu.1,
        hu.2, hcond.2⟩
    · cases h
  · rintro ⟨d, hd, hrel, hsource, hout, hmine, u, hu, hunder, hne⟩
    refine ⟨d, hd, edge.2, hsource, u, treeOf_eq_some_iff.mpr ⟨hu, hunder⟩, ?_⟩
    rw [if_pos (by simp [hout, treeOf_eq_some_iff.mpr hmine, hne]), hrel]

theorem mem_insideClones {clone : Rel × SnapName} :
    clone ∈ insideClones dest top (trees dest top) ↔
      ∃ d ∈ dest, d.rel = clone.1 ∧ d.cloneOf = some clone.2 ∧ Under d.rel top ∧
      ∃ u ∈ trees dest top, Under clone.2.1 u.rel := by
  simp only [insideClones, List.mem_filterMap, Option.bind_eq_some_iff, mem_sortedItems]
  constructor
  · rintro ⟨d, hd, source, hsource, u, hu, h⟩
    split at h
    · rename_i hcond
      cases h
      have hu := treeOf_eq_some_iff.mp hu
      exact ⟨d, hd, rfl, hsource, by simpa using hcond, u, hu.1, hu.2⟩
    · cases h
  · rintro ⟨d, hd, hrel, hsource, hin, u, hu, hunder⟩
    refine ⟨d, hd, clone.2, hsource, u, treeOf_eq_some_iff.mpr ⟨hu, hunder⟩, ?_⟩
    rw [if_pos (by simpa using hin), hrel]

/-- Tree `t` holds a clone of a snapshot of tree `x`, so it goes first. -/
private def keeps (dest : Drive) (top : Rel) (x t : Dependent) : Bool :=
  (edges dest top (trees dest top) t).any fun edge =>
    decide (treeOf (trees dest top) edge.2.1 = some x)

private theorem keeps_iff {x t : Dependent} (hx : x ∈ trees dest top) (ht : t ∈ trees dest top) :
    keeps dest top x t = true ↔
      t ≠ x ∧ ∃ d ∈ dest, ∃ source, d.cloneOf = some source ∧ ¬Under d.rel top ∧ Under d.rel t.rel ∧
      Under source.1 x.rel := by
  simp only [keeps, List.any_eq_true, decide_eq_true_eq, treeOf_eq_some_iff, mem_edges]
  constructor
  · rintro ⟨edge, ⟨d, hd, hrel, hsource, hout, ⟨-, hmine⟩, u, hu, hunder, hne⟩, -, hx'⟩
    obtain rfl := trees_disjoint hx hu hx' hunder
    exact ⟨hne, d, hd, edge.2, hsource, hout, hmine, hunder⟩
  · rintro ⟨hne, d, hd, source, hsource, hout, hmine, hunder⟩
    exact ⟨(d.rel, source), ⟨d, hd, rfl, hsource, hout, ⟨ht, hmine⟩, x, hx, hunder,
      hne⟩, hx, hunder⟩

end Trees

/-! ### Destroys one after another -/

section Runs

variable {dest : Drive}

/-- The drive without the trees of `gone`. -/
def without (dest : Drive) (gone : List Rel) : Drive := dest.filter fun d => !covered d.rel gone

theorem mem_without {gone : List Rel} {d : Dest} :
    d ∈ without dest gone ↔ d ∈ dest ∧ ∀ t ∈ gone, ¬Under d.rel t := by
  simp [without, covered]

theorem without_nil : without dest [] = dest := by
  apply Keyed.ext
  simp [without, covered]

theorem without_without {gone more : List Rel} :
    without (without dest gone) more = without dest (gone ++ more) := by
  apply Keyed.ext
  simp only [without, Keyed.filter_items, List.filter_filter, covered, List.any_append, Bool.not_or]
  exact List.filter_congr fun d _ => Bool.and_comm _ _

/-- The destroy takes the tree and nothing else, and runs exactly when no clone outside keeps it. -/
theorem zfsDestroy_eq_some_iff {x : Rel} {after : Drive} :
    zfsDestroy dest x = some after ↔
      x ∈ dest.keys ∧ (∀ d ∈ dest, ∀ source, d.cloneOf = some source → Under source.1 x →
        Under d.rel x) ∧
        after = without dest [x] := by
  have hwithout : dest.filter (fun d => !decide (Under d.rel x)) = without dest [x] := by
    apply Keyed.ext
    simp [without, covered]
  have hclone : hasClone dest x = false ↔
      ∀ d ∈ dest, ∀ source, d.cloneOf = some source → Under source.1 x → Under d.rel x := by
    rw [← Bool.not_eq_true, hasClone_iff]
    constructor
    · intro h d hd source hsource hunder
      by_contra hout
      exact h ⟨d.rel, .direct hd hsource hout hunder⟩
    · rintro h ⟨r, hr⟩
      induction hr with
      | direct hd hsource hout hunder => exact hout (h _ hd _ hsource hunder)
      | through _ _ _ _ _ ih => exact ih
  unfold zfsDestroy
  split
  · rename_i hcond
    rw [hwithout, Option.some.injEq, eq_comm]
    exact ⟨fun h => ⟨hcond.1, hclone.mp hcond.2, h⟩, fun h => h.2.2⟩
  · rename_i hcond
    refine ⟨fun h => absurd h (by simp), fun h => absurd ⟨h.1, hclone.mpr h.2.1⟩ hcond⟩

theorem destroyEach_of_steps {l : List Rel} :
    ∀ gone, (∀ before x after, l = before ++ x :: after →
      (zfsDestroy (without dest (gone ++ before)) x).isSome) →
      destroyEach zfsDestroy l (without dest gone) = (l, true, without dest (gone ++ l)) := by
  induction l with
  | nil =>
      intro gone _
      simp [destroyEach]
  | cons x rest ih =>
      intro gone hsteps
      obtain ⟨next, hnext⟩ := Option.isSome_iff_exists.mp (hsteps [] x rest rfl)
      rw [List.append_nil] at hnext
      obtain ⟨-, -, rfl⟩ := zfsDestroy_eq_some_iff.mp hnext
      have hrest := ih (gone ++ [x]) fun before y after h => by
        have := hsteps (x :: before) y after (by rw [h, List.cons_append])
        rwa [List.append_assoc, List.singleton_append]
      rw [destroyEach, hnext, without_without]
      simp only [hrest, List.append_assoc, List.singleton_append]

theorem isSome_of_destroyEach {l : List Rel} :
    ∀ gone, (destroyEach zfsDestroy l (without dest gone)).2.1 = true →
      ∀ before x after, l = before ++ x :: after →
      (zfsDestroy (without dest (gone ++ before)) x).isSome := by
  induction l with
  | nil =>
      intro gone _ before x after h
      simp at h
  | cons y rest ih =>
      intro gone hok before x after hsplit
      cases hnext : zfsDestroy (without dest gone) y with
      | none => simp [destroyEach, hnext] at hok
      | some next =>
          obtain ⟨-, -, rfl⟩ := zfsDestroy_eq_some_iff.mp hnext
          rw [destroyEach, hnext, without_without] at hok
          cases before with
          | nil =>
              obtain ⟨rfl, -⟩ := List.cons.inj hsplit
              rw [List.append_nil, hnext]
              rfl
          | cons z before =>
              obtain ⟨rfl, htail⟩ := List.cons.inj hsplit
              have := ih _ hok before x after htail
              rwa [List.append_assoc, List.singleton_append] at this

end Runs

/-! ### The plan -/

section Plan

variable {dest : Drive} {top : Rel}

/-- Every tree in the order it goes, with those that are stuck. -/
private def takeTrees (dest : Drive) (top : Rel) : List Dependent × List Dependent :=
  Topological.take (keeps dest top) (fun x y => x.depth > y.depth ∨ x.depth = y.depth ∧
    x.rel.text ≤ y.rel.text)
    (trees dest top).length (trees dest top)

private abbrev stuckTrees (dest : Drive) (top : Rel) : List Dependent := (takeTrees dest top).2

private theorem destroyPlan_order_eq : (destroyPlan dest top).order = (takeTrees dest top).1 := rfl

/-- A plan is offered when every dependent is an archived lineage of the tree, none is a clone's
source inside it, and none is stuck. -/
private theorem ok_iff :
    (destroyPlan dest top).ok = true ↔
      (∀ t ∈ trees dest top, t.archived = true) ∧ insideClones dest top (trees dest top) = [] ∧
        ∀ t ∈ (topological (trees dest top) (edges dest top (trees dest top))).2,
        edges dest top (trees dest top) t = [] := by
  simp only [DestroyPlan.ok, destroyPlan, List.isEmpty_iff, List.append_eq_nil_iff,
    List.map_eq_nil_iff, List.flatMap_eq_nil_iff, List.filter_eq_nil_iff, Bool.not_eq_true',
    Bool.not_eq_false, and_assoc]

private theorem mem_stuck {t : Dependent} :
    t ∈ (topological (trees dest top) (edges dest top (trees dest top))).2 ↔
    t ∈ stuckTrees dest top :=
  List.mem_insertionSort _

private theorem edges_ne_nil_of_keeps {x t : Dependent} (h : keeps dest top x t = true) :
    edges dest top (trees dest top) t ≠ [] := by
  intro hnil
  simp [keeps, hnil] at h

/-- Nothing is stuck in a plan that is offered: the order holds every tree. -/
private theorem order_perm (hok : (destroyPlan dest top).ok = true) :
    (destroyPlan dest top).order.Perm (trees dest top) := by
  have hperm : ((takeTrees dest top).1 ++ stuckTrees dest top).Perm (trees dest top) :=
    Topological.take_perm _ _
  have hstuck : stuckTrees dest top = [] := by
    rw [List.eq_nil_iff_forall_not_mem]
    intro x hx
    obtain ⟨y, hy, hkeeps⟩ := Topological.stuck_needs _ le_rfl hx
    exact edges_ne_nil_of_keeps hkeeps ((ok_iff.mp hok).2.2 y (mem_stuck.mpr hy))
  rwa [hstuck, List.append_nil] at hperm

/-- No dataset outside the tree and its dependents is a clone of a snapshot in either. -/
private theorem clone_in_tree {d : Dest} {source : SnapName} (hd : d ∈ dest)
    (hsource : d.cloneOf = some source) (hout : ¬Under d.rel top)
    (hin : Under source.1 top ∨ ∃ t ∈ trees dest top, Under source.1 t.rel) :
    ∃ t ∈ trees dest top, Under d.rel t.rel := by
  obtain hin | ⟨t, ht, hin⟩ := hin
  · exact exists_tree (.direct hd hsource hout hin)
  · exact exists_tree (.through hd hsource hout (isDependent_of_mem_trees ht) hin)

private theorem not_under_archived {t : Dependent} (ht : t ∈ trees dest top)
    (harchived : t.archived = true) : ¬Under top t.rel := by
  intro hunder
  rw [archived_of_mem_trees ht, Bool.and_eq_true, decide_eq_true_eq] at harchived
  have htop := isArchived_of_under hunder harchived.1
  have hlogical := isArchived_of_under harchived.2 htop
  rw [isArchived_logical] at hlogical
  cases hlogical

private theorem order_step (hok : (destroyPlan dest top).ok = true) {before after : List Dependent}
    {x : Dependent} (hsplit : (destroyPlan dest top).order = before ++ x :: after) :
    (zfsDestroy (without dest (before.map Dependent.rel)) x.rel).isSome := by
  have hperm := order_perm hok
  have htree : ∀ t ∈ (destroyPlan dest top).order, t ∈ trees dest top :=
    fun t ht => hperm.mem_iff.mp ht
  have hx : x ∈ trees dest top := htree x (by simp [hsplit])
  have hnodup : (before ++ x :: after).Nodup := hsplit ▸ hperm.nodup_iff.mpr nodup_trees
  rw [Option.isSome_iff_exists]
  refine ⟨_, zfsDestroy_eq_some_iff.mpr ⟨?_, ?_, rfl⟩⟩
  · -- The tree is still there: no tree before it holds it.
    obtain ⟨d, hd, hrel⟩ := (isDependent_of_mem_trees hx).exists_mem
    refine Keyed.mem_keys.mpr ⟨d, mem_without.mpr ⟨hd, ?_⟩, hrel⟩
    intro s hs hunder
    obtain ⟨t, ht, rfl⟩ := List.mem_map.mp hs
    have heq := trees_disjoint (htree t (by simp [hsplit, ht])) hx (hrel ▸ hunder) List.prefix_rfl
    exact (List.nodup_append.mp hnodup).2.2 t ht x List.mem_cons_self heq
  · intro d hd source hsource hunder
    obtain ⟨hd, hleft⟩ := mem_without.mp hd
    have hout : ¬Under d.rel top := by
      intro hin
      have hinside : (d.rel, source) ∈ insideClones dest top (trees dest top) :=
        mem_insideClones.mpr ⟨d, hd, rfl, hsource, hin, x, hx, hunder⟩
      rw [(ok_iff.mp hok).2.1] at hinside
      cases hinside
    obtain ⟨t, ht, hmine⟩ := clone_in_tree hd hsource hout (.inr ⟨x, hx, hunder⟩)
    by_cases hne : t = x
    · exact hne ▸ hmine
    · -- A clone in another tree went with that tree, which had to go first.
      have hkeeps := (keeps_iff hx ht).mpr ⟨hne, d, hd, source, hsource, hout, hmine, hunder⟩
      have hbefore :=
        Topological.mem_before_of_needs _ nodup_trees (destroyPlan_order_eq ▸ hsplit) ht hkeeps
      exact absurd hmine (hleft t.rel (List.mem_map_of_mem hbefore))

private theorem top_step (hok : (destroyPlan dest top).ok = true) (htop : top ∈ dest.keys) :
    (zfsDestroy (without dest ((destroyPlan dest top).order.map Dependent.rel)) top).isSome := by
  have hmem : ∀ {t}, t ∈ trees dest top → t.rel ∈ (destroyPlan dest top).order.map Dependent.rel :=
    fun ht =>
      List.mem_map_of_mem ((order_perm hok).mem_iff.mpr ht)
  rw [Option.isSome_iff_exists]
  refine ⟨_, zfsDestroy_eq_some_iff.mpr ⟨?_, ?_, rfl⟩⟩
  · obtain ⟨d, hd, rfl⟩ := Keyed.mem_keys.mp htop
    refine Keyed.key_mem_keys (mem_without.mpr ⟨hd, ?_⟩)
    intro s hs
    obtain ⟨t, ht, rfl⟩ := List.mem_map.mp hs
    have ht := (order_perm hok).mem_iff.mp ht
    exact not_under_archived ht ((ok_iff.mp hok).1 t ht)
  · intro d hd source hsource hunder
    obtain ⟨hd, hleft⟩ := mem_without.mp hd
    by_contra hout
    obtain ⟨t, ht, hmine⟩ := clone_in_tree hd hsource hout (.inl hunder)
    exact hleft t.rel (hmem ht) hmine

theorem of_mem_order (hok : (destroyPlan dest top).ok = true) {x : Dependent}
    (hx : x ∈ (destroyPlan dest top).order) :
    x.rel ∈ dest.keys ∧ isArchived x.rel = true ∧ Under (logical x.rel) top ∧ ¬Under x.rel top ∧
    ¬Under top x.rel := by
  have hx := (order_perm hok).mem_iff.mp hx
  have harchived := (ok_iff.mp hok).1 x hx
  have hdependent := isDependent_of_mem_trees hx
  have hout := not_under_archived hx harchived
  rw [archived_of_mem_trees hx, Bool.and_eq_true, decide_eq_true_eq] at harchived
  refine ⟨Keyed.mem_keys.mpr hdependent.exists_mem, harchived.1, harchived.2, ?_, hout⟩
  generalize x.rel = r at hdependent
  cases hdependent with
  | direct _ _ hout _ => exact hout
  | through _ _ hout _ _ => exact hout

theorem antichain_order (hok : (destroyPlan dest top).ok = true) :
    Antichain ((destroyPlan dest top).order.map Dependent.rel) := by
  have hperm := order_perm hok
  refine List.pairwise_map.mpr ((hperm.nodup_iff.mpr nodup_trees).imp_of_mem
    fun {s t} hs ht hne => ?_)
  rw [hperm.mem_iff] at hs ht
  exact ⟨fun hunder => hne (trees_disjoint hs ht List.prefix_rfl hunder), fun hunder =>
    hne (trees_disjoint hs ht hunder List.prefix_rfl)⟩

theorem cut_order {before after : List Rel} {x : Rel}
    (h : (destroyPlan dest top).order.map Dependent.rel ++ [top] = before ++ x :: after) :
    x = top ∧ before = (destroyPlan dest top).order.map Dependent.rel ∨
    ∃ rest, (destroyPlan dest top).order.map Dependent.rel = before ++ x :: rest := by
  obtain ⟨rest, hrest, hafter⟩ | ⟨rest, hrest, hafter⟩ := List.append_eq_append_iff.mp h
  · obtain ⟨rfl, hx, -⟩ : rest = [] ∧ x = top ∧ after = [] := by
      cases rest with
      | nil =>
          exact ⟨rfl, (List.cons_eq_cons.mp hafter).1.symm, (List.cons_eq_cons.mp hafter).2.symm⟩
      | cons y rest => simp at hafter
    exact .inl ⟨hx, by rw [hrest, List.append_nil]⟩
  · cases rest with
    | nil => exact .inl ⟨(List.cons_eq_cons.mp hafter).1, by rw [hrest, List.append_nil]⟩
    | cons y rest => exact .inr ⟨rest, by rw [hrest, (List.cons_eq_cons.mp hafter).1]⟩

/-- Each destroy of a plan that is offered, the tree's own the last, runs on what those before it
left. -/
theorem step_of_ok (hok : (destroyPlan dest top).ok = true) (htop : top ∈ dest.keys)
    {before after : List Rel} {x : Rel}
    (hsplit : (destroyPlan dest top).order.map Dependent.rel ++ [top] = before ++ x :: after) :
    (zfsDestroy (without dest before) x).isSome := by
  obtain ⟨rfl, rfl⟩ | ⟨rest, hrest⟩ := cut_order hsplit
  · exact top_step hok htop
  · obtain ⟨before', tail, horder, rfl, htail⟩ := List.map_eq_append_iff.mp hrest
    obtain ⟨y, tail, rfl, rfl, -⟩ := List.map_eq_cons_iff.mp htail
    exact order_step hok horder

/-- The dependents of a tree that no other dependent lies above. -/
def IsDependentTree (dest : Drive) (top r : Rel) : Prop :=
  IsDependent dest top r ∧ ∀ s, IsDependent dest top s → Under r s → s = r

theorem isDependentTree_iff {r : Rel} :
    IsDependentTree dest top r ↔ ∃ t ∈ trees dest top, t.rel = r := by
  constructor
  · rintro ⟨hr, hmax⟩
    obtain ⟨t, ht, hunder⟩ := exists_tree hr
    exact ⟨t, ht, hmax t.rel (isDependent_of_mem_trees ht) hunder⟩
  · rintro ⟨t, ht, rfl⟩
    refine ⟨isDependent_of_mem_trees ht, fun s hs hunder => ?_⟩
    obtain ⟨u, hu, hsu⟩ := exists_tree hs
    obtain rfl := trees_disjoint ht hu List.prefix_rfl (hunder.trans hsu)
    exact hsu.antisymm hunder

private theorem exists_trees_of_rels {l : List Rel} (hl : ∀ r ∈ l, IsDependentTree dest top r) :
    ∃ order : List Dependent, (∀ t ∈ order, t ∈ trees dest top) ∧ order.map Dependent.rel = l := by
  induction l with
  | nil => exact ⟨[], by simp, rfl⟩
  | cons r rest ih =>
      obtain ⟨order, horder, hmap⟩ := ih fun s hs => hl s (List.mem_cons_of_mem _ hs)
      obtain ⟨t, ht, rfl⟩ := isDependentTree_iff.mp (hl r List.mem_cons_self)
      refine ⟨t :: order, ?_, by rw [List.map_cons, hmap]⟩
      intro u hu
      rcases List.mem_cons.mp hu with rfl | hu
      · exact ht
      · exact horder u hu

/-- Trees that are stuck fail in every order. -/
private theorem no_order {t : Dependent}
    (ht : t ∈ (topological (trees dest top) (edges dest top (trees dest top))).2) {l : List Rel}
    (hl : ∀ r, r ∈ l ↔ IsDependentTree dest top r) :
    (destroyEach zfsDestroy l dest).2.1 = false := by
  rw [← Bool.not_eq_true]
  intro hok
  have hstuck : ∀ x ∈ (stuckTrees dest top), ∃ y ∈ stuckTrees dest top, keeps dest top x y = true :=
    fun x hx =>
      Topological.stuck_needs _ le_rfl hx
  have htrees : ∀ x ∈ stuckTrees dest top, x ∈ trees dest top := fun x hx =>
    (Topological.take_perm _ _).mem_iff.mp (List.mem_append_right _ hx)
  obtain ⟨order, hsub, rfl⟩ := exists_trees_of_rels fun r hr => (hl r).mp hr
  have hcover : ∀ x ∈ trees dest top, x ∈ order := by
    intro x hx
    obtain ⟨y, hy, hrel⟩ := List.mem_map.mp ((hl x.rel).mpr (isDependentTree_iff.mpr ⟨x, hx, rfl⟩))
    rwa [trees_disjoint hx (hsub y hy) List.prefix_rfl (hrel ▸ List.prefix_rfl)]
  obtain ⟨before, x, after, rfl, hx, y, hy, hkeeps, hnot⟩ :=
    Topological.exists_early hstuck (List.ne_nil_of_mem (mem_stuck.mp ht)) fun x hx =>
      hcover x (htrees x hx)
  have hx := htrees x hx
  have hy := htrees y hy
  obtain ⟨hne, d, hd, source, hsource, hout, hmine, hunder⟩ := (keeps_iff hx hy).mp hkeeps
  have hrun :=
    isSome_of_destroyEach [] (by rwa [without_nil]) (before.map Dependent.rel) x.rel
      (after.map Dependent.rel)
      (by rw [List.map_append, List.map_cons])
  obtain ⟨next, hnext⟩ := Option.isSome_iff_exists.mp hrun
  -- The clone in `y` is still there, as only trees other than `y` went.
  have hstill : d ∈ without dest ([] ++ before.map Dependent.rel) := by
    refine mem_without.mpr ⟨hd, fun s hs hds => ?_⟩
    obtain ⟨z, hz, rfl⟩ := List.mem_map.mp (List.nil_append _ ▸ hs)
    have := trees_disjoint (hsub z (by simp [hz])) hy hds hmine
    exact hnot (this ▸ hz)
  have hdx := (zfsDestroy_eq_some_iff.mp hnext).2.1 d hstill source hsource hunder
  exact hne (trees_disjoint hy hx hmine hdx)

/-- The plan of a destroy is offered when ZFS accepts its sequence, which takes the tree and
archived lineages of it and nothing else; a plan that is not offered has a dependent that is none, a
clone of a dependent inside the tree, or dependents no order of destroys takes. -/
theorem destroyPlan_exact (htop : top ∈ dest.keys) :
    ((destroyPlan dest top).ok = true →
      (∃ left after,
        destroyDependents zfsDestroy (destroyPlan dest top) dest
          = ((destroyPlan dest top).order.map Dependent.rel, true, left) ∧
          zfsDestroy left top = some after ∧
          ∀ d, d ∈ after ↔ d ∈ dest ∧ ¬Under d.rel top ∧ ∀ x ∈ (destroyPlan dest top).order,
          ¬Under d.rel x.rel) ∧
      ∀ x ∈ (destroyPlan dest top).order, isArchived x.rel = true ∧ Under (logical x.rel) top) ∧
    ((destroyPlan dest top).ok = false →
      (∃ r, IsDependent dest top r ∧ ¬(isArchived r = true ∧ Under (logical r) top)) ∨
      (∃ d ∈ dest, Under d.rel top ∧ ∃ source, d.cloneOf = some source ∧
        ∃ r, IsDependent dest top r ∧ Under source.1 r) ∨
      ∀ l, (∀ r, r ∈ l ↔ IsDependentTree dest top r) →
      (destroyEach zfsDestroy l dest).2.1 = false) := by
  constructor
  · intro hok
    have hsteps : ∀ before x after, (destroyPlan dest top).order.map Dependent.rel
        = before ++ x :: after →
        (zfsDestroy (without dest ([] ++ before)) x).isSome := by
      intro before x after h
      obtain ⟨before', rest, hsplit, rfl, hrest⟩ := List.map_eq_append_iff.mp h
      obtain ⟨y, after', rfl, rfl, -⟩ := List.map_eq_cons_iff.mp hrest
      exact order_step hok hsplit
    have hrun := destroyEach_of_steps [] hsteps
    rw [without_nil, List.nil_append] at hrun
    obtain ⟨after, hafter⟩ := Option.isSome_iff_exists.mp (top_step hok htop)
    obtain ⟨-, -, hwithout⟩ := zfsDestroy_eq_some_iff.mp hafter
    refine ⟨⟨_, after, ?_, hafter, fun d => ?_⟩, fun x hx => ?_⟩
    · rw [destroyDependents, hok]
      exact hrun
    · rw [hwithout, mem_without, mem_without]
      simp only [List.mem_map, forall_exists_index, and_imp, forall_apply_eq_imp_iff₂,
        List.mem_singleton, forall_eq, and_assoc]
      exact and_congr_right fun _ => And.comm
    · have hx := (order_perm hok).mem_iff.mp hx
      have harchived := (ok_iff.mp hok).1 x hx
      rwa [archived_of_mem_trees hx, Bool.and_eq_true, decide_eq_true_eq] at harchived
  · intro hok
    rw [← Bool.not_eq_true, ok_iff, not_and_or, not_and_or] at hok
    rcases hok with hlive | hinside | hcycle
    · simp only [not_forall] at hlive
      obtain ⟨t, ht, hlive⟩ := hlive
      rw [archived_of_mem_trees ht, Bool.and_eq_true, decide_eq_true_eq] at hlive
      exact .inl ⟨t.rel, isDependent_of_mem_trees ht, hlive⟩
    · obtain ⟨clone, hclone⟩ := List.exists_mem_of_ne_nil _ hinside
      obtain ⟨d, hd, -, hsource, hin, u, hu, hunder⟩ := mem_insideClones.mp hclone
      exact .inr (.inl ⟨d, hd, hin, clone.2, hsource, u.rel, isDependent_of_mem_trees hu, hunder⟩)
    · simp only [not_forall] at hcycle
      obtain ⟨t, ht, -⟩ := hcycle
      exact .inr (.inr fun l hl => no_order ht hl)

end Plan

/-- A branched dataset, a clone now of the lineage it left behind, with an older lineage cloned from
it in turn. -/
def branched : Drive where
  items :=
    [{ rel := ["rpool", "home"],
       cloneOf := some (["rpool", "home.archived-20260102"], "zark_2026-01-01_00:00:00Z") },
     { rel := ["rpool", "home.archived-20260102"] },
     { rel := ["rpool", "home.archived-20250101"],
       cloneOf := some (["rpool", "home", "work"], "daily") },
     { rel := ["rpool", "home", "work"] }]
  nodup := by decide

theorem destroyPlan_exact_branched :
    (∃ left after,
        destroyDependents zfsDestroy (destroyPlan branched ["rpool", "home"]) branched =
          ([["rpool", "home.archived-20250101"]], true, left) ∧
          zfsDestroy left ["rpool", "home"] = some after ∧
          ∀ d, d ∈ after ↔ d ∈ branched ∧ ¬Under d.rel ["rpool", "home"] ∧
            ∀ x ∈ (destroyPlan branched ["rpool", "home"]).order, ¬Under d.rel x.rel) ∧
      ∀ x ∈ (destroyPlan branched ["rpool", "home"]).order, isArchived x.rel = true ∧
      Under (logical x.rel) ["rpool", "home"] :=
  (@destroyPlan_exact branched ["rpool", "home"] (by decide)).1 (by decide)

end Zark
