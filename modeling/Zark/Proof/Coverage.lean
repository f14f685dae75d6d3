import Zark.Proof.Planner

/-!
# The plan covers origin and the drive

What each of the plan's four groups of rows holds for one name, and from it how every dataset of
origin and of the drive is accounted for. A volume in the place of a structural container that
holds data is reported twice, once for each reason.
-/

namespace Zark

open Hierarchy

/-- How the rows account for a dataset of origin. -/
def AccountedFor (origin : Origins) (skip : List Rel) (rows : List DatasetPlan) (o : Origin) :
    Prop :=
  (o.rel ∈ expected origin skip ∧ rows.countP (fun p => p.rel == o.rel) = 1) ∨
  rows.countP (fun p => p.rel == o.rel && p.state == .excluded) = 1 ∨
  (∃ top ∈ skip, Under o.rel top ∧ (∀ u ∈ skip, Under o.rel u → u = top) ∧
    rows.countP (fun p => p.rel == top && p.declared) = 1) ∨
  Under o.rel keystore ∨ (o.rel ∈ structural ∧ structuralReason o = none)

instance (origin : Origins) (skip : List Rel) (rows : List DatasetPlan) (o : Origin) :
    Decidable (AccountedFor origin skip rows o) := inferInstanceAs (Decidable (_ ∨ _))

/-- The rows account for every dataset of origin, and every dataset only the drive has lies at or
below one orphan. -/
structure Covers (origin : Origins) (dest : Drive) (skip : List Rel) (rows : List DatasetPlan) :
    Prop where
  accounted : ∀ o ∈ origin, AccountedFor origin skip rows o
  orphaned : ∀ d ∈ dest, isArchived d.rel = false → d.rel ∉ origin.keys → d.rel ∉ structural →
    rows.countP (fun p => p.state == .orphan && decide (Under d.rel p.rel)) = 1
  spared : ∀ o ∈ origin, ∀ p ∈ rows, p.state = .orphan → ¬Under o.rel p.rel

theorem countP_eq_one {α : Type*} [DecidableEq α] {l : List α} (hl : l.Nodup) {p : α → Bool}
    {a : α} (ha : a ∈ l) (h : ∀ b ∈ l, p b = true ↔ b = a) : l.countP p = 1 := by
  rw [List.countP_congr fun b hb => (h b hb).trans (beq_iff_eq (a := b) (b := a)).symm]
  exact List.count_eq_one_of_mem hl ha

/-! ### The groups of rows -/

section Groups

variable {origin : Origins} {dest : Drive} {point : String} {skip : List Rel}

/-- The rows of the expected datasets. -/
def wantedRows (origin : Origins) (dest : Drive) (point : String) (skip : List Rel) :
    List DatasetPlan :=
  (expected origin skip).filterMap fun rel => (origin.get? rel).map fun o =>
    planExpected o origin (liveDatasets dest) point

/-- The rows of what is left out on purpose. -/
def leftRows (origin : Origins) (skip : List Rel) : List DatasetPlan :=
  ((excluded origin).filter fun row => !isExcluded row.1 skip).map fun row =>
    { rel := row.1, state := .excluded, note := row.2 }

theorem wantedRows_rel (origin : Origins) (dest : Drive) (point : String) (skip : List Rel) :
    (wantedRows origin dest point skip).map DatasetPlan.rel = expected origin skip := by
  have hall : ∀ l : List Rel, (∀ rel ∈ l, rel ∈ origin.keys) →
      (l.filterMap fun rel => (origin.get? rel).map fun o =>
        planExpected o origin (liveDatasets dest) point).map
        DatasetPlan.rel = l := by
    intro l hl
    induction l with
    | nil => rfl
    | cons rel l ih =>
        have hrel := hl rel List.mem_cons_self
        obtain ⟨o, ho⟩ := Option.isSome_iff_exists.mp (Keyed.get?_isSome_iff.mpr hrel)
        rw [List.filterMap_cons_some (by rw [ho]; rfl), List.map_cons, planExpected_rel,
          Keyed.key_of_get? ho, ih fun r hr => hl r (List.mem_cons_of_mem _ hr)]
  refine hall _ fun rel hrel => ?_
  obtain ⟨o, ho, -⟩ := mem_expected.mp hrel
  exact Keyed.get?_isSome_iff.mp (ho ▸ rfl)

theorem count_wantedRows (rel : Rel) :
    (wantedRows origin dest point skip).countP (fun p => p.rel == rel) =
      if rel ∈ expected origin skip then 1 else 0 := by
  have hmap : (wantedRows origin dest point skip).countP (fun p => p.rel == rel) =
      ((wantedRows origin dest point skip).map DatasetPlan.rel).count rel := by
    rw [List.count, List.countP_map]
    rfl
  rw [hmap, wantedRows_rel]
  exact (nodup_expected origin skip).count

/-- How often a dataset of origin is reported as left out, one count for each reason. -/
theorem count_excluded {o : Origin} (ho : o ∈ origin) :
    (excluded origin).countP (fun row => row.1 == o.rel) =
      (if o.kind = .volume ∧ o.rel ≠ keystore then 1 else 0) +
        (if isArchived o.rel = true ∧ o.kind ≠ .volume then 1 else 0) +
        if o.rel ∈ structural ∧ structuralReason o ≠ none then 1 else 0 := by
  rw [excluded, (List.perm_insertionSort _ _).countP_eq, List.countP_append, List.countP_append]
  have hvolumes := origin.count_filterMap
    (fun o => if o.kind == .volume && o.rel != keystore then some (o.rel, "zvol, not backed up")
      else none) Prod.fst
    (fun a b h => by
      split at h
      · cases h
        rfl
      · cases h) ho
  have harchived := origin.count_filterMap
    (fun o => if isArchived o.rel && o.kind != .volume then
      some (o.rel,
        "its name contains .archived-, which zark reserves for archived lineages: rename it")
          else none) Prod.fst
    (fun a b h => by
      split at h
      · cases h
        rfl
      · cases h) ho
  have hcontainers : (structural.filterMap fun rel =>
      (origin.get? rel).bind fun o => (structuralReason o).map fun why =>
        (rel, why)).countP (fun row => row.1 == o.rel) =
        if o.rel ∈ structural ∧ structuralReason o ≠ none then 1 else 0 := by
    let containers : Keyed (id : Rel → Rel) := ⟨structural, by decide⟩
    have hkeyed := containers.count_filterMap
      (fun rel => (origin.get? rel).bind fun o => (structuralReason o).map fun why =>
        (rel, why)) Prod.fst
      (fun a b h => by
        obtain ⟨found, -, hrow⟩ := Option.bind_eq_some_iff.mp h
        obtain ⟨why, -, rfl⟩ := Option.map_eq_some_iff.mp hrow
        rfl) (a := o.rel)
    by_cases hstruct : o.rel ∈ structural
    · refine (hkeyed hstruct).trans (if_congr ?_ rfl rfl)
      rw [Keyed.get?_of_mem ho, Option.bind_some, Option.isSome_map, Option.isSome_iff_ne_none,
        and_iff_right hstruct]
    · rw [if_neg fun h => hstruct h.1, List.countP_eq_zero]
      intro row hrow
      obtain ⟨rel, hrel, hrow⟩ := List.mem_filterMap.mp hrow
      obtain ⟨found, -, h⟩ := Option.bind_eq_some_iff.mp hrow
      obtain ⟨why, -, rfl⟩ := Option.map_eq_some_iff.mp h
      rw [beq_iff_eq]
      rintro rfl
      exact hstruct hrel
  rw [hvolumes, harchived, hcontainers]
  congr 2
  · split_ifs <;> simp_all
  · split_ifs <;> simp_all

theorem count_leftRows {o : Origin} (p : DatasetPlan → Bool) (hp : ∀ row : Rel × String,
    p { rel := row.1, state := .excluded, note := row.2 } = (row.1 == o.rel)) :
    (leftRows origin skip).countP p =
      if isExcluded o.rel skip then
        0
      else (excluded origin).countP (fun row => row.1 == o.rel) := by
  rw [leftRows, List.countP_map, List.countP_filter]
  have hcongr : ∀ row : Rel × String, ((p ∘ fun row : Rel × String =>
      ({ rel := row.1, state := .excluded, note := row.2 } : DatasetPlan)) row &&
        !isExcluded row.1 skip) =
        (row.1 == o.rel && !isExcluded o.rel skip) := by
    intro row
    rw [Function.comp_apply, hp]
    by_cases h : row.1 = o.rel
    · rw [h]
    · rw [beq_eq_false_iff_ne.mpr h, Bool.false_and, Bool.false_and]
  rw [List.countP_congr (q := fun row => row.1 == o.rel && !isExcluded o.rel skip)
    fun row _ => by rw [hcongr]]
  cases isExcluded o.rel skip <;> simp

theorem declaredRows_rel (origin : Origins) (live : Drive) (skip : List Rel) :
    (declaredRows origin live skip).map DatasetPlan.rel = sortRels
    (skip.filter (· ∈ origin.keys)) := by
  rw [declaredRows, List.map_map]
  exact List.map_id _

theorem count_declaredRows (hskip : skip.Nodup) {live : Drive} {rel : Rel} (p : DatasetPlan → Bool)
    (hp : ∀ row ∈ declaredRows origin live skip, p row = (row.rel == rel)) :
    (declaredRows origin live skip).countP p = if rel ∈ skip ∧ rel ∈ origin.keys then 1 else 0 := by
  have hmap : (declaredRows origin live skip).countP p
      = ((declaredRows origin live skip).map DatasetPlan.rel).count rel := by
    rw [List.count, List.countP_map]
    exact List.countP_congr fun row hrow => by rw [hp row hrow]; rfl
  have hmem : rel ∈ sortRels (skip.filter (· ∈ origin.keys)) ↔ rel ∈ skip ∧ rel ∈ origin.keys := by
    rw [mem_sortRels, List.mem_filter, decide_eq_true_eq]
  rw [hmap, declaredRows_rel]
  split
  · rename_i h
    exact List.count_eq_one_of_mem (nodup_sortRels.mpr (hskip.filter _)) (hmem.mpr h)
  · rename_i h
    exact List.count_eq_zero_of_not_mem fun h' => h (hmem.mp h')

theorem mem_orphans {live : Drive} {rel : Rel} :
    rel ∈ orphans origin live ↔ rel ∈ live.keys ∧ rel ∉ origin.keys ∧ rel ∉ structural := by
  rw [orphans, mem_sortRels, List.mem_filter]
  simp

theorem mem_orphanTops {live : Drive} {rel : Rel} :
    rel ∈ orphanTops origin live ↔ rel ∈ orphans origin live ∧
    parent rel ∉ orphans origin live := by
  rw [orphanTops, List.mem_filter, Bool.not_eq_true', ← Bool.not_eq_true, List.contains_iff_mem]

/-- The plan is its four groups of rows, and the orphans' are those of the orphan tops. -/
theorem plan_eq (origin : Origins) (dest : Drive) (point : String) (skip : List Rel) :
    ∃ rows : List DatasetPlan,
      plan origin dest point skip = wantedRows origin dest point skip ++ leftRows origin skip ++
        declaredRows origin (liveDatasets dest) skip ++ rows ∧
      rows.map DatasetPlan.rel = orphanTops origin (liveDatasets dest) ∧
      ∀ p ∈ rows, p.state = .orphan ∧ p.declared = false := by
  refine ⟨_, rfl, ?_, fun p hp => ?_⟩
  · generalize renames _ _ _ _ = renamed
    have hall : ∀ l : List Rel, (∀ rel ∈ l, rel ∈ (liveDatasets dest).keys) →
        (l.filterMap fun rel => ((liveDatasets dest).get? rel).map fun d =>
          ({ rel, state := .orphan, renameTo := renamed.lookup rel, kept := keptMark d.orphan,
             used := d.used } :
            DatasetPlan)).map DatasetPlan.rel = l := by
      intro l hl
      induction l with
      | nil => rfl
      | cons rel l ih =>
          obtain ⟨d, hd⟩ :=
            Option.isSome_iff_exists.mp (Keyed.get?_isSome_iff.mpr (hl rel List.mem_cons_self))
          rw [List.filterMap_cons_some (by rw [hd]; rfl), List.map_cons, ih fun r hr =>
            hl r (List.mem_cons_of_mem _ hr)]
    exact hall _ fun rel hrel => (mem_orphans.mp (mem_orphanTops.mp hrel).1).1
  · obtain ⟨rel, -, hp⟩ := List.mem_filterMap.mp hp
    obtain ⟨d, -, rfl⟩ := Option.map_eq_some_iff.mp hp
    exact ⟨rfl, rfl⟩

end Groups

/-! ### The rows of one dataset of origin -/

section Origin

variable {origin : Origins} {dest : Drive} {point : String} {skip : List Rel} {o : Origin}

theorem mem_expected_iff (ho : o ∈ origin) :
    o.rel ∈ expected origin skip ↔ isExpected o skip = true := by
  rw [mem_expected, Keyed.get?_of_mem ho]
  simp

theorem count_excluded_of_expected (ho : o ∈ origin) (h : isExpected o skip = true) :
    (excluded origin).countP (fun row => row.1 == o.rel) = 0 := by
  simp only [isExpected, Bool.and_eq_true, Bool.not_eq_true', bne_iff_ne, ne_eq] at h
  obtain ⟨⟨⟨⟨-, hkind⟩, hstruct⟩, harchived⟩, -⟩ := h
  rw [← Bool.not_eq_true, List.contains_iff_mem] at hstruct
  rw [count_excluded ho, if_neg fun h => hkind h.1, if_neg fun h => by simp [harchived] at h,
    if_neg fun h => hstruct h.1]

theorem not_mem_skip_of_not_isExcluded {rel : Rel} (h : isExcluded rel skip = false) :
    rel ∉ skip := by
  intro hmem
  rw [isExcluded, ← Bool.not_eq_true, covered_iff] at h
  exact h ⟨rel, hmem, List.prefix_rfl⟩

theorem not_mem_orphanTops (ho : o ∈ origin) (live : Drive) : o.rel ∉ orphanTops origin live :=
  fun h =>
    (mem_orphans.mp (mem_orphanTops.mp h).1).2.1 (Keyed.key_mem_keys ho)

theorem count_rows_of_expected (hskip : skip.Nodup) (ho : o ∈ origin)
    (h : isExpected o skip = true) :
    (plan origin dest point skip).countP (fun p => p.rel == o.rel) = 1 := by
  obtain ⟨rows, hplan, hrels, -⟩ := plan_eq origin dest point skip
  have hfree : isExcluded o.rel skip = false := by
    simp only [isExpected, Bool.and_eq_true, Bool.not_eq_true'] at h
    exact h.2
  have horphans : rows.countP (fun p => p.rel == o.rel) = 0 := by
    rw [List.countP_eq_zero]
    intro p hp hrel
    rw [beq_iff_eq] at hrel
    exact not_mem_orphanTops ho (liveDatasets dest) (hrels ▸ hrel ▸ List.mem_map_of_mem hp)
  rw [hplan, List.countP_append, List.countP_append, List.countP_append, count_wantedRows,
    if_pos ((mem_expected_iff ho).mpr h), count_leftRows _ fun _ => rfl, if_neg (by simp [hfree]),
    count_excluded_of_expected ho h, count_declaredRows hskip _ fun _ _ => rfl,
    if_neg fun h => not_mem_skip_of_not_isExcluded hfree h.1, horphans]

/-- A dataset that is neither expected nor covered has a row for each reason it is left out. -/
theorem count_rows_of_left (hskip : skip.Nodup) (ho : o ∈ origin)
    (hfree : isExcluded o.rel skip = false) (h : isExpected o skip = false) :
    (plan origin dest point skip).countP (fun p => p.rel == o.rel && p.state == .excluded) =
      (excluded origin).countP (fun row => row.1 == o.rel) := by
  obtain ⟨rows, hplan, -, hstate⟩ := plan_eq origin dest point skip
  have hwanted : (wantedRows origin dest point skip).countP
      (fun p => p.rel == o.rel && p.state == .excluded) = 0 := by
    rw [List.countP_eq_zero]
    intro p hp hrow
    rw [Bool.and_eq_true, beq_iff_eq] at hrow
    have hmem := List.mem_map_of_mem (f := DatasetPlan.rel) hp
    rw [wantedRows_rel, hrow.1, mem_expected_iff ho, h] at hmem
    cases hmem
  have horphans : rows.countP (fun p => p.rel == o.rel && p.state == .excluded) = 0 := by
    rw [List.countP_eq_zero]
    intro p hp hrow
    rw [(hstate p hp).1] at hrow
    simp at hrow
  have hdeclared : ∀ row ∈ declaredRows origin (liveDatasets dest) skip,
      (row.rel == o.rel && row.state == .excluded) = (row.rel == o.rel) := by
    intro row hrow
    obtain ⟨top, -, rfl⟩ := List.mem_map.mp hrow
    exact Bool.and_true _
  rw [hplan, List.countP_append, List.countP_append, List.countP_append, hwanted,
    count_leftRows _ fun _ => Bool.and_true _, if_neg (by simp [hfree]),
    count_declaredRows hskip _ hdeclared, if_neg fun h => not_mem_skip_of_not_isExcluded hfree h.1,
    horphans, Nat.zero_add, Nat.add_zero]

theorem count_rows_of_top (hskip : skip.Nodup) {top : Rel} (htop : top ∈ skip)
    (horigin : top ∈ origin.keys) :
    (plan origin dest point skip).countP (fun p => p.rel == top && p.declared) = 1 := by
  obtain ⟨rows, hplan, -, hstate⟩ := plan_eq origin dest point skip
  have hwanted : (wantedRows origin dest point skip).countP
      (fun p => p.rel == top && p.declared) = 0 := by
    rw [List.countP_eq_zero]
    intro p hp hrow
    rw [Bool.and_eq_true, beq_iff_eq] at hrow
    have hmem := List.mem_map_of_mem (f := DatasetPlan.rel) hp
    rw [wantedRows_rel, hrow.1] at hmem
    obtain ⟨o, ho, hexpected⟩ := mem_expected.mp hmem
    simp only [isExpected, Bool.and_eq_true, Bool.not_eq_true'] at hexpected
    exact not_mem_skip_of_not_isExcluded hexpected.2 (Keyed.key_of_get? ho ▸ htop)
  have hleft : (leftRows origin skip).countP (fun p => p.rel == top && p.declared) = 0 := by
    rw [List.countP_eq_zero]
    intro p hp hrow
    obtain ⟨row, -, rfl⟩ := List.mem_map.mp hp
    simp at hrow
  have horphans : rows.countP (fun p => p.rel == top && p.declared) = 0 := by
    rw [List.countP_eq_zero]
    intro p hp hrow
    rw [(hstate p hp).2] at hrow
    simp at hrow
  have hdeclared : ∀ row ∈ declaredRows origin (liveDatasets dest) skip,
      (row.rel == top && row.declared) = (row.rel == top) := by
    intro row hrow
    obtain ⟨top, -, rfl⟩ := List.mem_map.mp hrow
    exact Bool.and_true _
  rw [hplan, List.countP_append, List.countP_append, List.countP_append, hwanted, hleft,
    count_declaredRows hskip _ hdeclared, if_pos ⟨htop, horigin⟩, horphans]

end Origin

/-! ### The orphans -/

section Orphans

variable {origin : Origins} {dest : Drive} {point : String} {skip : List Rel}

theorem planExpected_ne (o : Origin) (origin : Origins) (live : Drive) (point : String) :
    (planExpected o origin live point).state ≠ .orphan ∧
    (planExpected o origin live point).state ≠ .excluded := by
  have hunwritten : ∀ d : Option Dest, (planUnwritten o d point).state ≠ .orphan ∧
      (planUnwritten o d point).state ≠ .excluded := by
    intro d
    cases d with
    | none => exact ⟨nofun, nofun⟩
    | some d =>
        have hspec := planUnwritten_spec o d point
        generalize planUnwritten o (some d) point = p at hspec
        cases hspec <;> exact ⟨nofun, nofun⟩
  have hdataset : ∀ d : Option Dest, (planDataset o d point).state ≠ .orphan ∧
      (planDataset o d point).state ≠ .excluded := by
    intro d
    unfold planDataset
    cases d with
    | none => exact hunwritten none
    | some d =>
        dsimp only
        split_ifs
        all_goals first
          | exact hunwritten _
          | simp [asModified]
  unfold planExpected
  dsimp only
  split
  · rw [cloneBase_state]
    exact hdataset _
  · exact hdataset _

theorem orphan_rows_eq :
    ((plan origin dest point skip).filter (·.state == .orphan)).map DatasetPlan.rel =
    orphanTops origin (liveDatasets dest) := by
  obtain ⟨rows, hplan, hrels, hstate⟩ := plan_eq origin dest point skip
  have hwanted : (wantedRows origin dest point skip).filter (·.state == .orphan) = [] := by
    rw [List.filter_eq_nil_iff]
    intro p hp
    obtain ⟨rel, -, hrow⟩ := List.mem_filterMap.mp hp
    obtain ⟨o, -, rfl⟩ := Option.map_eq_some_iff.mp hrow
    simpa using (planExpected_ne o origin _ point).1
  have hleft : (leftRows origin skip).filter (·.state == .orphan) = [] := by
    rw [List.filter_eq_nil_iff]
    intro p hp
    obtain ⟨row, -, rfl⟩ := List.mem_map.mp hp
    simp
  have hdeclared : (declaredRows origin (liveDatasets dest) skip).filter
      (·.state == .orphan) = [] := by
    rw [List.filter_eq_nil_iff]
    intro p hp
    obtain ⟨top, -, rfl⟩ := List.mem_map.mp hp
    simp
  have hrows : rows.filter (·.state == .orphan) = rows :=
    List.filter_eq_self.mpr fun p hp => by simp [(hstate p hp).1]
  rw [hplan, List.filter_append, List.filter_append, List.filter_append, hwanted, hleft,
    hdeclared, hrows]
  exact hrels

theorem mem_live_keys {rel : Rel} :
    rel ∈ (liveDatasets dest).keys ↔ rel ∈ dest.keys ∧ isArchived rel = false := by
  simp only [liveDatasets, Keyed.mem_keys, Keyed.mem_filter, Bool.not_eq_true']
  constructor
  · rintro ⟨d, ⟨hd, harchived⟩, hrel⟩
    exact ⟨⟨d, hd, hrel⟩, hrel ▸ harchived⟩
  · rintro ⟨⟨d, hd, hrel⟩, harchived⟩
    exact ⟨d, ⟨hd, hrel ▸ harchived⟩, hrel⟩

theorem exists_orphanTop (hdrive : ParentClosed dest.keys) {rel : Rel}
    (h : rel ∈ orphans origin (liveDatasets dest)) :
    ∃ top ∈ orphanTops origin (liveDatasets dest), Under rel top := by
  induction hn : rel.length using Nat.strong_induction_on generalizing rel with
  | _ n ih =>
      by_cases hparent : parent rel ∈ orphans origin (liveDatasets dest)
      · have hne := (hdrive rel (mem_live_keys.mp (mem_orphans.mp h).1).1).1
        have hlt : (parent rel).length < n := by
          rw [List.length_dropLast, ← hn]
          exact Nat.sub_lt (List.length_pos_of_ne_nil hne) Nat.one_pos
        obtain ⟨top, htop, hunder⟩ := ih _ hlt hparent rfl
        exact ⟨top, htop, (under_parent rel).trans hunder⟩
      · exact ⟨rel, mem_orphanTops.mpr ⟨h, hparent⟩, List.prefix_rfl⟩

/-- Between two orphans, one below the other, lies no orphan top but the upper one. -/
theorem eq_of_orphanTop_under (horigin : ParentClosed origin.keys)
    (hdrive : ParentClosed dest.keys) {s t : Rel} (hs : s ∈ orphanTops origin (liveDatasets dest))
    (ht : t ∈ orphanTops origin (liveDatasets dest)) (h : Under t s) :
    t = s := by
  by_contra hne
  obtain ⟨hsLive, hsOrigin, hsStruct⟩ := mem_orphans.mp (mem_orphanTops.mp hs).1
  obtain ⟨htLive, -, -⟩ := mem_orphans.mp (mem_orphanTops.mp ht).1
  have hs0 : s ≠ [] := (hdrive s (mem_live_keys.mp hsLive).1).1
  have hunder : Under (parent t) s := h.parent_of_ne hne
  have hparent0 : parent t ≠ [] := fun h0 => hs0 (List.prefix_nil.mp (h0 ▸ hunder))
  have hparent : parent t ∈ (liveDatasets dest).keys := by
    obtain ⟨htDest, htPlain⟩ := mem_live_keys.mp htLive
    refine mem_live_keys.mpr ⟨(hdrive t htDest).2.resolve_left hparent0, ?_⟩
    rw [← Bool.not_eq_true]
    intro harchived
    rw [isArchived_of_under (under_parent t) harchived] at htPlain
    cases htPlain
  -- What lies above a dataset of origin or a structural container is one too.
  apply (mem_orphanTops.mp ht).2
  refine mem_orphans.mpr ⟨hparent, fun hmem => hsOrigin (horigin.mem_of_under hmem hunder hs0),
    fun hmem => hsStruct ?_⟩
  have hstructural : ParentClosed structural := by decide
  exact hstructural.mem_of_under hmem hunder hs0

theorem count_orphanRows (horigin : ParentClosed origin.keys)
    (hdrive : ParentClosed dest.keys) {rel : Rel} (h : rel ∈ orphans origin (liveDatasets dest)) :
    (plan origin dest point skip).countP
    (fun p => p.state == .orphan && decide (Under rel p.rel)) = 1 := by
  have hcount : (plan origin dest point skip).countP
      (fun p => p.state == .orphan && decide (Under rel p.rel)) =
      (orphanTops origin (liveDatasets dest)).countP fun top => decide (Under rel top) := by
    rw [← @orphan_rows_eq origin dest point skip, List.countP_map, List.countP_filter]
    exact List.countP_congr fun p _ => by rw [Bool.and_comm]; rfl
  obtain ⟨top, htop, hunder⟩ := exists_orphanTop hdrive h
  have hnodup : (orphanTops origin (liveDatasets dest)).Nodup :=
    (nodup_sortRels.mpr ((liveDatasets dest).nodup.filter _)).filter _
  rw [hcount]
  refine countP_eq_one hnodup htop fun s hs => ?_
  rw [decide_eq_true_eq]
  constructor
  · intro hs'
    obtain hst | hts := under_or_under hs' hunder
    · exact eq_of_orphanTop_under horigin hdrive htop hs hst
    · exact (eq_of_orphanTop_under horigin hdrive hs htop hts).symm
  · rintro rfl
    exact hunder

end Orphans

/-! ### The whole plan -/

/-- A volume in the place of a structural container that holds, or could hold, data of its own. -/
def ReportedTwice (o : Origin) : Prop :=
  o.kind = .volume ∧ o.rel ∈ structural ∧ structuralReason o ≠ none

/-- A dataset of origin is accounted for unless it is left out for two reasons at once. -/
theorem accountedFor_iff {origin : Origins} {dest : Drive} {point : String} {skip : List Rel}
    (horigin : ParentClosed origin.keys) (hskip : Antichain skip) (hnames : [] ∉ skip) {o : Origin}
    (ho : o ∈ origin) :
    AccountedFor origin skip (plan origin dest point skip) o ↔
    (ReportedTwice o → isExcluded o.rel skip = true) := by
  have hplain : o.rel ∈ structural → isArchived o.rel = false ∧ ¬Under o.rel keystore ∧
      o.rel ≠ keystore := by
    generalize o.rel = r
    revert r
    decide
  cases hfree : isExcluded o.rel skip with
  | true =>
      refine iff_of_true ?_ fun _ => rfl
      obtain ⟨top, htop, hunder⟩ := covered_iff.mp hfree
      have hmem : top ∈ origin.keys :=
        horigin.mem_of_under (Keyed.key_mem_keys ho) hunder fun h0 => hnames (h0 ▸ htop)
      exact .inr (.inr (.inl ⟨top, htop, hunder, fun u hu hu' => hskip.unique hu htop hu' hunder,
        count_rows_of_top hskip.nodup htop hmem⟩))
  | false =>
      cases hexpected : isExpected o skip with
      | true =>
          refine iff_of_true (.inl ⟨(mem_expected_iff ho).mpr hexpected,
            count_rows_of_expected hskip.nodup ho hexpected⟩) ?_
          rintro ⟨hkind, -⟩
          simp [isExpected, hkind] at hexpected
      | false =>
          rw [AccountedFor, mem_expected_iff ho, hexpected,
            count_rows_of_left hskip.nodup ho hfree hexpected, count_excluded ho]
          have hnone : ¬∃ top ∈ skip, Under o.rel top ∧ (∀ u ∈ skip, Under o.rel u → u = top) ∧
              (plan origin dest point skip).countP (fun p => p.rel == top && p.declared) = 1 := by
            rintro ⟨top, htop, hunder, -⟩
            rw [isExcluded, ← Bool.not_eq_true, covered_iff] at hfree
            exact hfree ⟨top, htop, hunder⟩
          have hleft : Under o.rel keystore ∨ o.kind = .volume ∨ o.rel ∈ structural ∨
              isArchived o.rel = true := by
            by_contra hnot
            simp only [not_or] at hnot
            simp [isExpected, hnot, hfree] at hexpected
          by_cases hkeys : Under o.rel keystore
          · have hstruct : o.rel ∉ structural := fun h => (hplain h).2.1 hkeys
            exact iff_of_true (.inr (.inr (.inr (.inl hkeys)))) fun h => absurd h.2.1 hstruct
          · have hne : o.rel ≠ keystore := fun h => hkeys (h ▸ List.prefix_rfl)
            by_cases hvolume : o.kind = .volume <;> by_cases hstruct : o.rel ∈ structural <;>
              by_cases hreason : structuralReason o = none <;>
                cases harchived : isArchived o.rel <;>
              simp_all [ReportedTwice]

instance (o : Origin) : Decidable (ReportedTwice o) := inferInstanceAs (Decidable (_ ∧ _))

/-- The plan covers origin and the drive with no gap and no double exactly when no volume origin has
in the place of a structural container is left out for two reasons. -/
theorem plan_covers_iff {origin : Origins} {dest : Drive} {point : String} {skip : List Rel}
    (horigin : ParentClosed origin.keys) (hdrive : ParentClosed dest.keys) (hskip : Antichain skip)
    (hnames : [] ∉ skip) :
    Covers origin dest skip (plan origin dest point skip) ↔
      ∀ o ∈ origin, ReportedTwice o → isExcluded o.rel skip = true := by
  constructor
  · exact fun h o ho => (accountedFor_iff horigin hskip hnames ho).mp (h.accounted o ho)
  · intro h
    refine ⟨fun o ho => (accountedFor_iff horigin hskip hnames ho).mpr (h o ho),
      fun d hd harchived hnew hstruct => ?_, fun o ho p hp hstate hunder => ?_⟩
    · have hlive : d.rel ∈ (liveDatasets dest).keys :=
        mem_live_keys.mpr ⟨Keyed.key_mem_keys hd, harchived⟩
      exact count_orphanRows horigin hdrive (mem_orphans.mpr ⟨hlive, hnew, hstruct⟩)
    · have htop : p.rel ∈ orphanTops origin (liveDatasets dest) := by
        rw [← @orphan_rows_eq origin dest point skip]
        exact List.mem_map_of_mem (List.mem_filter.mpr ⟨hp, by simp [hstate]⟩)
      obtain ⟨hlive, hnew, -⟩ := mem_orphans.mp (mem_orphanTops.mp htop).1
      have hne : p.rel ≠ [] := (hdrive _ (mem_live_keys.mp hlive).1).1
      exact hnew (horigin.mem_of_under (Keyed.key_mem_keys ho) hunder hne)

/-- A volume that took the place of `rpool/USERDATA` and holds 16 MiB. -/
def userdataVolume : Origins :=
  ⟨[{ rel := ["rpool"] },
    { rel := ["rpool", "USERDATA"], kind := .volume, referenced := 16 * 1024 * 1024 },
    { rel := ["rpool", "data"] }], by decide⟩

/-- With its place taken by a volume, `rpool/USERDATA` is left out twice. -/
theorem plan_reports_volume_twice :
    ParentClosed userdataVolume.keys ∧
      ¬Covers userdataVolume ∅ [] (plan userdataVolume ∅ "zark_2026-03-01_00:00:00Z" []) := by
  refine ⟨by decide, fun h => absurd h.accounted ?_⟩
  decide

/-- An excluded subtree, an orphan and an archived lineage, each in its place. -/
theorem plan_covers_docker :
    let origin : Origins :=
      ⟨[{ rel := ["rpool"] }, { rel := ["rpool", "data"] }, { rel := ["rpool", "docker"] },
        { rel := ["rpool", "docker", "layer"] }], by decide⟩
    let dest : Drive :=
      ⟨[{ rel := ["rpool"] }, { rel := ["rpool", "gone"] }, { rel := ["rpool", "gone", "below"] },
        { rel := ["rpool", "data.archived-1"] }], by decide⟩
    Covers origin dest [["rpool", "docker"]]
        (plan origin dest "zark_2026-03-01_00:00:00Z" [["rpool", "docker"]]) :=
  (plan_covers_iff (by decide) (by decide) (by decide) (by decide)).mpr (by decide)

end Zark
