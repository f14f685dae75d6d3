import Zark.Mount

/-!
# A mount stays in its tree

What `resolve_in_tree` holds of the components walked so far: each is the name of an entry, and none
of the places they lead through is a symlink. So the loop ends at such a place wherever the links of
the tree point. Components the loop passes over are dropped, so the walk of a chroot is followed
step by step through whatever the path was normalised to.
-/

namespace Zark.Mount

open Posix

variable {tree : Tree}

/-- Names of entries, through no symlink. -/
structure Clear (tree : Tree) (names : List String) : Prop where
  isName : ∀ c ∈ names, IsName c
  free : ∀ p, p <+: names → tree.link? p = none

theorem clear_nil (tree : Tree) : Clear tree [] where
  isName := nofun
  free := by
    intro p hp
    rw [List.prefix_nil.mp hp, Tree.link?, tree.root]

theorem Clear.dropLast {names : List String} (h : Clear tree names) :
    Clear tree names.dropLast where
  isName := fun c hc => h.isName c (List.mem_of_mem_dropLast hc)
  free := fun p hp => h.free p (hp.trans (List.dropLast_prefix names))

theorem Clear.snoc {names : List String} (h : Clear tree names) {c : String} (hc : IsName c)
    (hlink : tree.link? (names ++ [c]) = none) :
    Clear tree (names ++ [c]) where
  isName := by
    intro d hd
    rcases List.mem_append.mp hd with hd | hd
    · exact h.isName d hd
    · rw [List.mem_singleton.mp hd]
      exact hc
  free := by
    intro p hp
    rcases List.prefix_concat_iff.mp hp with rfl | hp
    · exact hlink
    · exact h.free p hp

/-- Wherever its links point, the loop ends where no link is left. -/
theorem clear_of_resolveLoop {links : ℕ} {current parts result : List String}
    (h : Clear tree current) (hparts : ∀ c ∈ parts, '/' ∉ c.toList)
    (hresult : resolveLoop tree links current parts = some result) : Clear tree result := by
  fun_induction resolveLoop tree links current parts with
  | case1 links current =>
      cases hresult
      exact h
  | case2 links current c parts hskip ih =>
      exact ih h (fun d hd => hparts d (List.mem_cons_of_mem _ hd)) hresult
  | case3 links current parts hskip ih =>
      exact ih h.dropLast (fun d hd => hparts d (List.mem_cons_of_mem _ hd)) hresult
  | case4 links current c parts hskip hup link hlink hmany => cases hresult
  | case5 links current c parts hskip hup link hlink hmany ih =>
      refine ih ?_ (fun d hd => ?_) hresult
      · split
        · exact clear_nil tree
        · exact h
      · rcases List.mem_append.mp hd with hd | hd
        · exact slash_of_mem_split hd
        · exact hparts d (List.mem_cons_of_mem _ hd)
  | case6 links current c parts hskip hup hlink ih =>
      have hc : IsName c := ⟨decide_eq_true (not_or.mp hskip), hup, hparts c List.mem_cons_self⟩
      exact ih (h.snoc hc hlink) (fun d hd => hparts d (List.mem_cons_of_mem _ hd)) hresult

/-! ### The walk of a chroot -/

/-- Up to the first step the loop passes over components. -/
theorem resolveLoop_skip (tree : Tree) (links : ℕ) (current : List String) {c : String}
    {steps : List String} : ∀ {parts : List String},
    parts.filter isStep = c :: steps →
    ∃ rest, rest.filter isStep = steps ∧
    resolveLoop tree links current parts = resolveLoop tree links current (c :: rest)
  | [], h => by simp at h
  | d :: parts, h => by
      rw [List.filter_cons] at h
      by_cases hstep : isStep d = true
      · rw [if_pos hstep] at h
        obtain ⟨rfl, hrest⟩ := List.cons.inj h
        exact ⟨parts, hrest, rfl⟩
      · rw [if_neg hstep] at h
        obtain ⟨rest, hrest, heq⟩ := resolveLoop_skip tree links current h
        refine ⟨rest, hrest, ?_⟩
        have hskip : d = "" ∨ d = "." := by
          rw [isStep, decide_eq_true_iff] at hstep
          tauto
        rw [← heq, resolveLoop, if_pos hskip]

theorem resolveLoop_skipped (tree : Tree) (links : ℕ) (current : List String) :
    ∀ {parts : List String}, parts.filter isStep = [] →
    resolveLoop tree links current parts = some current
  | [], _ => by rw [resolveLoop]
  | d :: parts, h => by
      rw [List.filter_eq_nil_iff] at h
      have hskip : d = "" ∨ d = "." := by
        have hd : ¬ isStep d = true := h d List.mem_cons_self
        rw [isStep, decide_eq_true_iff] at hd
        tauto
      rw [resolveLoop, if_pos hskip]
      exact resolveLoop_skipped tree links current (List.filter_eq_nil_iff.mpr fun e he =>
        h e (List.mem_cons_of_mem _ he))

theorem not_skipped {c : String} (h : isStep c = true) : ¬ (c = "" ∨ c = ".") := by
  rw [isStep, decide_eq_true_iff] at h
  tauto

/-- The loop follows a walk, whatever components that are no steps stand between those walked. -/
theorem resolveLoop_of_walk {links : ℕ} {place comps result : List String}
    (h : Walk tree links place comps result) :
    ∀ parts, parts.filter isStep = comps.filter isStep →
    resolveLoop tree links place parts = some result := by
  induction h with
  | done => exact fun parts hparts => resolveLoop_skipped tree _ _ hparts
  | stay hstep hdir hrest ih =>
      intro parts hparts
      exact ih parts (by rwa [List.filter_cons_of_neg (by simp [hstep])] at hparts)
  | @up links place rest result hdir hrest ih =>
      intro parts hparts
      rw [List.filter_cons_of_pos (by decide)] at hparts
      obtain ⟨more, hmore, heq⟩ := resolveLoop_skip tree links place hparts
      rw [heq, resolveLoop, if_neg (by decide), if_pos rfl]
      exact ih more hmore
  | @enter links place rest result c e hstep hup hentry hlink hrest ih =>
      intro parts hparts
      rw [List.filter_cons_of_pos hstep] at hparts
      obtain ⟨more, hmore, heq⟩ := resolveLoop_skip tree links place hparts
      rw [heq, resolveLoop, if_neg (not_skipped hstep), if_neg hup, hlink]
      exact ih more hmore
  | @follow links place rest result c target hstep hup hlink hlinks htarget hrest ih =>
      intro parts hparts
      rw [List.filter_cons_of_pos hstep] at hparts
      obtain ⟨more, hmore, heq⟩ := resolveLoop_skip tree links place hparts
      have hfew : ¬ maxSymlinks < links + 1 := by
        rw [maxSymlinks]
        omega
      rw [heq, resolveLoop, if_neg (not_skipped hstep), if_neg hup, hlink]
      simp only [if_neg hfew]
      exact ih _ (by rw [List.filter_append, List.filter_append, hmore])

/-! ### Paths -/

/-- The path of a place below a root that no symlink leads through. -/
def Inside (tree : Tree) (root : List String) (path : String) (names : List String) : Prop :=
  path = absolute (root ++ names) ∧ (∀ c ∈ names, IsName c) ∧ ∀ p, p <+: names → tree.link? p = none

variable {root : List String}

theorem clear_of_rel {rel : String} {names : List String}
    (h : resolveLoop tree 0 [] (if rel = "." then [] else split rel) = some names) :
    Clear tree names := by
  refine clear_of_resolveLoop (clear_nil tree) (fun c hc => ?_) h
  split at hc
  · simp at hc
  · exact slash_of_mem_split hc

theorem resolveInTree_eq (hroot : ∀ c ∈ root, IsName c) {cwd path rel : String}
    (hrel : relpath cwd path (absolute root) = .ok rel) :
    resolveInTree tree cwd (absolute root) path =
      .ok ((resolveLoop tree 0 [] (if rel = "." then [] else split rel)).map fun names =>
        absolute (root ++ names)) := by
  rw [resolveInTree, hrel]
  show Except.ok ((resolveLoop tree 0 [] (if rel = "." then [] else split rel)).map _) = _
  congr 1
  refine Option.map_congr fun names hnames => ?_
  have hclear : Clear tree names := clear_of_rel hnames
  by_cases hne : names = []
  · simp [hne]
  · rw [if_pos hne, joinAll_absolute]
    intro c hc
    exact (List.mem_append.mp hc).elim (hroot c) (hclear.isName c)

theorem inside_of_resolveInTree (hroot : ∀ c ∈ root, IsName c) {cwd path result : String}
    (h : resolveInTree tree cwd (absolute root) path = .ok (some result)) :
    ∃ names, Inside tree root result names := by
  cases hrel : relpath cwd path (absolute root) with
  | error e =>
      rw [resolveInTree, hrel] at h
      cases h
  | ok rel =>
      rw [resolveInTree_eq hroot hrel] at h
      obtain ⟨names, hnames, rfl⟩ := Option.map_eq_some_iff.mp (Except.ok.inj h)
      have hclear : Clear tree names := clear_of_rel hnames
      exact ⟨names, rfl, hclear.isName, hclear.free⟩

theorem resolveInTree_eq_ok (hroot : ∀ c ∈ root, IsName c) (tree : Tree) (cwd : String)
    {path : String} (h : path ≠ "") :
    ∃ result, resolveInTree tree cwd (absolute root) path = .ok result := by
  obtain ⟨rel, hrel⟩ := @relpath_eq_ok cwd path (absolute root) h
  exact ⟨_, resolveInTree_eq hroot hrel⟩

/-- A path without `..` is resolved to where the walk of a chroot ends. -/
theorem resolveInTree_of_walk (hroot : ∀ c ∈ root, IsName c) (cwd : String) {rest path : String}
    (hpath : Below root rest path) (hup : ".." ∉ split rest) {place : List String}
    (hwalk : Walk tree 0 [] (split rest) place) :
    resolveInTree tree cwd (absolute root) path = .ok (some (absolute (root ++ place))) := by
  obtain ⟨habs, hupPath, hsteps⟩ := hpath.steps hroot hup
  obtain ⟨rel, hrel, hrelSteps⟩ := relpath_of_steps cwd hroot habs hupPath hsteps
  rw [resolveInTree_eq hroot hrel, hrelSteps,
    resolveLoop_of_walk hwalk _ (by rw [List.filter_filter]; simp)]
  rfl

/-- Read-only, a target is skipped or is the path of a place strictly inside. -/
theorem layoutTarget_readonly (hroot : ∀ c ∈ root, IsName c) (realpath : String → String)
    (tree : Tree) (cwd mnt : String) {path : String} (h : path ≠ "") :
    ∃ target why, layoutTarget realpath tree cwd path mnt (absolute root) true = .ok (target, why) ∧
      (target = "" ∨ ∃ names, names ≠ [] ∧ Inside tree root target names) := by
  obtain ⟨rel, hrel⟩ := @relpath_eq_ok cwd path mnt h
  have hne : join (absolute root) rel ≠ "" := join_ne_empty rel (by simp [absolute])
  obtain ⟨result, hresult⟩ := resolveInTree_eq_ok hroot tree cwd hne
  simp only [layoutTarget, Bool.not_true, Bool.false_eq_true, if_false, hrel, hresult,
    bind, Except.bind]
  cases result with
  | none => exact ⟨_, _, rfl, .inl rfl⟩
  | some resolved =>
      obtain ⟨names, hinside⟩ := inside_of_resolveInTree hroot hresult
      by_cases hsame : resolved = absolute root
      · exact ⟨"", path ++ " resolves to the root", if_pos hsame, .inl rfl⟩
      · refine ⟨resolved, "", if_neg hsame, .inr ⟨names, ?_, hinside⟩⟩
        rintro rfl
        exact hsame (by rw [hinside.1, List.append_nil])

/-- Whatever the links of a tree: `resolve_in_tree` gives an answer for every path, and none that is
not inside; for a path below the root without `..` it is where the walk of a chroot ends, where it
ends; and read-only a mount is skipped or goes strictly inside. -/
theorem links_stay_inside (hroot : ∀ c ∈ root, IsName c) (tree : Tree) (cwd : String) :
    (∀ path, path ≠ "" → ∃ result, resolveInTree tree cwd (absolute root) path = .ok result) ∧
    (∀ path result, resolveInTree tree cwd (absolute root) path = .ok (some result) →
      ∃ names, Inside tree root result names) ∧
    (∀ path rest place, Below root rest path → ".." ∉ split rest →
      Walk tree 0 [] (split rest) place →
      resolveInTree tree cwd (absolute root) path = .ok (some (absolute (root ++ place)))) ∧
    ∀ realpath path mnt, path ≠ "" → ∃ target why,
    layoutTarget realpath tree cwd path mnt (absolute root) true = .ok (target, why) ∧
      (target = "" ∨ ∃ names, names ≠ [] ∧ Inside tree root target names) :=
  ⟨fun _ => resolveInTree_eq_ok hroot tree cwd, fun _ _ => inside_of_resolveInTree hroot,
    fun _ _ _ hpath hup hwalk => resolveInTree_of_walk hroot cwd hpath hup hwalk,
    fun realpath _ mnt => layoutTarget_readonly hroot realpath tree cwd mnt⟩

/-- A tree of a directory and a link to it. -/
def linkedTree : Tree where
  entry :=
    fun names => if names = [] ∨ names = ["run"] then some .dir
      else if names = ["lock"] then some (.link "/run") else none
  root := rfl
  parent := by
    intro dir name e h
    cases dir with
    | nil => rfl
    | cons d dir => simp at h

/-- The link is followed inside the tree, not from the system's root, and so it is where the tree is
the whole system. -/
theorem links_stay_inside_linked :
    resolveInTree linkedTree "/" (absolute ["mnt"]) "/mnt/lock"
      = .ok (some (absolute (["mnt"] ++ ["run"]))) ∧
      resolveInTree linkedTree "/" (absolute []) "/lock"
        = .ok (some (absolute ([] ++ ["run"]))) := by
  have hwalk : Walk linkedTree 0 [] (split "lock") ["run"] := by
    refine .follow (by decide) (by decide) (rfl : linkedTree.link? ["lock"] = some "/run")
      (by decide) (by decide) ?_
    exact .stay (by decide) rfl (.enter (by decide) (by decide) rfl rfl .done)
  exact ⟨(links_stay_inside (by decide) linkedTree "/").2.2.1 "/mnt/lock" "lock" ["run"] (.inl rfl)
    (by decide) hwalk, (links_stay_inside (by decide) linkedTree "/").2.2.1 "/lock" "lock" ["run"]
      (.inr ⟨rfl, rfl⟩) (by decide) hwalk⟩

end Zark.Mount
