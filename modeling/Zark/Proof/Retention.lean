import Zark.Retention

/-!
# What retention never takes

A prune removes a snapshot only where the judgement on it says so, and it destroys a tree only when
every dataset of it is an emptied one or holds nothing. The counting of `emptied` is exact because
the removals name each snapshot once, so what a tree takes is what the judgements took.
-/

namespace Zark

open Hierarchy

/-! ### Removals that name each snapshot once -/

/-- Removals of snapshots the drive holds, each named once. -/
structure Exact (dest : Drive) (removals : List Removal) : Prop where
  nodup : (removals.map Removal.target).Nodup
  held : ∀ rm ∈ removals, ∃ d ∈ dest, d.rel = rm.rel ∧ ∃ s ∈ d.snaps, s.name = rm.name

theorem exact_flatMap {dest : Drive} {f : Dest → Ref → Option Removal}
    (hf : ∀ d s rm, f d s = some rm → rm.target = (d.rel, s.name)) :
    Exact dest ((sortedItems dest).flatMap fun d => d.snaps.items.filterMap (f d)) := by
  constructor
  · rw [List.map_flatMap, List.nodup_flatMap]
    constructor
    · intro d _
      apply List.Nodup.of_map Prod.snd
      rw [List.map_map]
      apply d.snaps.nodup_filterMap
      intro s rm h
      rw [Function.comp_apply, hf d s rm h]
    · have hnodup : ((sortedItems dest).map Dest.rel).Nodup :=
        ((sortedItems_perm dest).map _).nodup_iff.mpr dest.nodup
      refine (List.pairwise_map.mp hnodup).imp fun {d e} hne => ?_
      rw [Function.onFun, List.disjoint_iff_ne]
      rintro t ht u hu rfl
      obtain ⟨x, hx, rfl⟩ := List.mem_map.mp ht
      obtain ⟨y, hy, heq⟩ := List.mem_map.mp hu
      obtain ⟨s, -, hs⟩ := List.mem_filterMap.mp hx
      obtain ⟨s', -, hs'⟩ := List.mem_filterMap.mp hy
      rw [hf d s x hs, hf e s' y hs', Prod.mk.injEq] at heq
      exact hne heq.1.symm
  · intro rm hrm
    obtain ⟨d, hd, hrm⟩ := List.mem_flatMap.mp hrm
    obtain ⟨s, hs, h⟩ := List.mem_filterMap.mp hrm
    have htarget := Prod.mk.inj (hf d s rm h)
    exact ⟨d, mem_sortedItems.mp hd, htarget.1.symm, s, hs, htarget.2.symm⟩

/-- An emptied dataset is one retention may drop, with snapshots, all of which go. -/
theorem emptied_iff {dest : Drive} {removals : List Removal} (h : Exact dest removals) {d : Dest}
    (hd : d ∈ dest) :
    emptied removals d = true ↔
      isLive d = false ∧ d.snaps.items ≠ [] ∧
      ∀ s ∈ d.snaps, (d.rel, s.name) ∈ removals.map Removal.target := by
  have hgoing : ((removals.filter (·.rel = d.rel)).map Removal.name).Nodup := by
    apply List.Nodup.of_map (Prod.mk d.rel)
    have hmap : ((removals.filter (·.rel = d.rel)).map Removal.name).map (Prod.mk d.rel) =
        (removals.filter (·.rel = d.rel)).map Removal.target := by
      rw [List.map_map]
      refine List.map_congr_left fun rm hrm => ?_
      have hrel : rm.rel = d.rel := by simpa using (List.mem_filter.mp hrm).2
      rw [Function.comp_apply, Removal.target, hrel]
    rw [hmap]
    exact h.nodup.sublist (List.filter_sublist.map _)
  have hsub : (removals.filter (·.rel = d.rel)).map Removal.name ⊆ d.snaps.keys := by
    intro name hname
    obtain ⟨rm, hrm, rfl⟩ := List.mem_map.mp hname
    obtain ⟨hrm, hrel⟩ := List.mem_filter.mp hrm
    obtain ⟨e, he, hrel', s, hs, hname⟩ := h.held rm hrm
    rw [Keyed.eq_of_key he hd (hrel'.trans (by simpa using hrel))] at hs
    exact Keyed.mem_keys.mpr ⟨s, hs, hname⟩
  have hmem : ∀ {name}, (d.rel, name) ∈ removals.map Removal.target ↔
      name ∈ (removals.filter (·.rel = d.rel)).map Removal.name := by
    intro name
    simp only [List.mem_map, List.mem_filter, decide_eq_true_eq, Removal.target, Prod.mk.injEq]
    exact ⟨fun ⟨rm, hrm, hrel, hname⟩ => ⟨rm, ⟨hrm, hrel⟩, hname⟩, fun ⟨rm, ⟨hrm, hrel⟩, hname⟩ =>
      ⟨rm, hrm, hrel, hname⟩⟩
  have hcount : d.snaps.items.length = (removals.filter (·.rel = d.rel)).length ↔
      ∀ s ∈ d.snaps, (d.rel, s.name) ∈ removals.map Removal.target := by
    have hsnaps : (d.snaps.items.map Ref.name).length = d.snaps.items.length := List.length_map _
    have hremovals : ((removals.filter (·.rel = d.rel)).map Removal.name).length =
        (removals.filter (·.rel = d.rel)).length := List.length_map _
    rw [← hsnaps, ← hremovals]
    constructor
    · intro hlen s hs
      have hperm := (List.subperm_of_subset hgoing hsub).perm_of_length_le hlen.le
      exact hmem.mpr (hperm.mem_iff.mpr (Keyed.key_mem_keys hs))
    · intro hall
      refine Nat.le_antisymm ?_ (List.subperm_of_subset hgoing hsub).length_le
      refine (List.subperm_of_subset d.snaps.nodup fun name hname => ?_).length_le
      obtain ⟨s, hs, rfl⟩ := List.mem_map.mp hname
      exact hmem.mp (hall s hs)
  rw [emptied, Bool.and_eq_true, Bool.and_eq_true, beq_iff_eq, hcount, Bool.not_eq_true',
    Bool.not_eq_true', and_assoc, and_comm (a := ∀ s ∈ d.snaps, _), List.isEmpty_eq_false_iff]

/-! ### Trees destroyed whole -/

section Whole

variable {dest : Drive} {removals : List Removal}

/-- No dataset lies in the trees of both. -/
def Apart (t u : Rel) : Prop := ∀ r, Under r t → ¬Under r u

/-- What a walk over emptied datasets in order has taken: trees with nothing that stays, none below
or above another. -/
private structure Taken (dest : Drive) (removals : List Removal) (out : List (Rel × String)) :
    Prop where
  empty : ∀ t ∈ out, ∃ d ∈ dest, d.rel = t.1 ∧ emptied removals d = true ∧
    ∀ e ∈ dest, Under e.rel t.1 → emptied removals e = true ∨ e.snaps.items = []
  disjoint : (out.map Prod.fst).Pairwise Apart

private theorem taken_add {out : List (Rel × String)} (h : Taken dest removals out) {d : Dest}
    (hd : d ∈ dest) (hempty : emptied removals d = true)
    (hafter : ∀ t ∈ out, t.1.key ≤ d.rel.key ∧ t.1 ≠ d.rel) :
    Taken dest removals (addWhole dest removals out d) := by
  unfold addWhole
  split
  · exact h
  rename_i habove
  split
  · rename_i hbelow
    refine ⟨fun t ht => ?_, ?_⟩
    · rcases List.mem_append.mp ht with ht | ht
      · exact h.empty t ht
      · obtain rfl := List.mem_singleton.mp ht
        refine ⟨d, hd, rfl, hempty, fun e he hunder => ?_⟩
        have := List.all_eq_true.mp hbelow e he
        simpa [hunder, or_assoc] using this
    · rw [List.map_append, List.pairwise_append]
      refine ⟨h.disjoint, List.pairwise_singleton _ _, ?_⟩
      intro t' ht' u hu r hrt hru
      obtain ⟨t, ht, rfl⟩ := List.mem_map.mp ht'
      obtain rfl : u = d.rel := by simpa using hu
      obtain ⟨hle, hne⟩ := hafter t ht
      -- The names above a common one are comparable: one tree would lie in the other.
      rcases under_or_under hrt hru with hunder | hunder
      · exact absurd (key_lt_of_under_of_ne hunder hne) (not_lt_of_ge hle)
      · exact habove (List.any_eq_true.mpr ⟨t, ht, by simpa using ⟨hunder, Ne.symm hne⟩⟩)
  · exact h

private theorem mem_addWhole {out : List (Rel × String)} {d : Dest} {t : Rel × String}
    (h : t ∈ addWhole dest removals out d) : t ∈ out ∨ t.1 = d.rel := by
  unfold addWhole at h
  split at h
  · exact .inl h
  split at h
  · rcases List.mem_append.mp h with h | h
    · exact .inl h
    · exact .inr (by rw [List.mem_singleton.mp h])
  · exact .inl h

private theorem taken_foldl {l : List Dest} :
    ∀ {out : List (Rel × String)}, Taken dest removals out →
    (∀ d ∈ l, d ∈ dest ∧ emptied removals d = true) →
      (l.Pairwise fun a b => a.rel.key ≤ b.rel.key ∧ a.rel ≠ b.rel) →
      (∀ t ∈ out, ∀ d ∈ l, t.1.key ≤ d.rel.key ∧ t.1 ≠ d.rel) →
      Taken dest removals (l.foldl (addWhole dest removals) out) := by
  induction l with
  | nil =>
      intro out h _ _ _
      exact h
  | cons d rest ih =>
      intro out h hl hpair hafter
      obtain ⟨hd, hpair⟩ := List.pairwise_cons.mp hpair
      obtain ⟨hmem, hempty⟩ := hl d List.mem_cons_self
      apply ih (taken_add h hmem hempty fun t ht => hafter t ht d List.mem_cons_self)
      · exact fun e he => hl e (List.mem_cons_of_mem _ he)
      · exact hpair
      · intro t ht e he
        rcases mem_addWhole ht with ht | ht
        · exact hafter t ht e (List.mem_cons_of_mem _ he)
        · exact ht ▸ hd e he

private theorem taken_wholeDatasets : Taken dest removals (wholeDatasets dest removals) := by
  apply taken_foldl ⟨by simp, by simp⟩
  · intro d hd
    exact ⟨mem_sortedItems.mp (List.mem_filter.mp hd).1, (List.mem_filter.mp hd).2⟩
  · have hne : (sortedItems dest).Pairwise fun a b => a.rel ≠ b.rel :=
      List.pairwise_map.mp (((sortedItems_perm dest).map _).nodup_iff.mpr dest.nodup)
    exact ((pairwise_sortedItems dest).and hne).sublist List.filter_sublist
  · simp

theorem wholeDatasets_disjoint : ((wholeDatasets dest removals).map Prod.fst).Pairwise Apart :=
  taken_wholeDatasets.disjoint

/-- A tree is destroyed whole when all its datasets are emptied or hold nothing. -/
theorem emptied_of_mem_wholeDatasets {top : Rel}
    (h : top ∈ (wholeDatasets dest removals).map Prod.fst) :
    ∃ d ∈ dest, d.rel = top ∧ emptied removals d = true ∧
      ∀ e ∈ dest, Under e.rel top → emptied removals e = true ∨ e.snaps.items = [] := by
  obtain ⟨t, ht, rfl⟩ := List.mem_map.mp h
  exact taken_wholeDatasets.empty t ht

/-- The kept mark of a dataset is inherited by what lies below it, as the effective value of the
property is. -/
def InheritsKept (dest : Drive) : Prop :=
  ∀ d ∈ dest, ∀ e ∈ dest, Under e.rel d.rel → keptMark d.orphan = true → keptMark e.orphan = true

instance (dest : Drive) : Decidable (InheritsKept dest) :=
  inferInstanceAs (Decidable (∀ d ∈ dest, ∀ e ∈ dest, _ → _ → _))

theorem isLive_of_under (hkept : InheritsKept dest) {d e : Dest} (hd : d ∈ dest) (he : e ∈ dest)
    (hunder : Under e.rel d.rel) (hlive : isLive e = true) : isLive d = true := by
  simp only [isLive, Bool.and_eq_true, Bool.not_eq_true'] at hlive ⊢
  constructor
  · by_contra h
    rw [isArchived_of_under hunder (by simpa using h)] at hlive
    exact absurd hlive.1 (by simp)
  · by_contra h
    rw [hkept d hd e he hunder (by simpa using h)] at hlive
    exact absurd hlive.2 (by simp)

/-- A tree destroyed whole holds no live dataset and no snapshot that stays. -/
theorem mem_tree_of_whole (hkept : InheritsKept dest) (hexact : Exact dest removals) {top : Rel}
    (htop : top ∈ (wholeDatasets dest removals).map Prod.fst) {e : Dest} (he : e ∈ dest)
    (hunder : Under e.rel top) :
    isLive e = false ∧ ∀ s ∈ e.snaps, (e.rel, s.name) ∈ removals.map Removal.target := by
  obtain ⟨d, hd, rfl, hempty, hbelow⟩ := emptied_of_mem_wholeDatasets htop
  constructor
  · have hdead := ((emptied_iff hexact hd).mp hempty).1
    by_contra hlive
    rw [isLive_of_under hkept hd he hunder (by simpa using hlive)] at hdead
    cases hdead
  · rcases hbelow e he hunder with hempty | hnone
    · exact ((emptied_iff hexact he).mp hempty).2.2
    · intro s hs
      rw [Keyed.mem_def, hnone] at hs
      cases hs

end Whole

/-! ### Judgements -/

section Judgements

variable {dest : Drive} {r : Request} {prune : Prune}

theorem mem_removals {t : Terms} {rm : Removal} :
    rm ∈ t.removals dest ↔
      ∃ d ∈ dest, ∃ s ∈ d.snaps, ∃ reason, t.judge d s = .remove reason ∧
      rm = ⟨d.rel, s.name, reason⟩ := by
  simp only [Terms.removals, List.mem_flatMap, List.mem_filterMap, mem_sortedItems]
  refine exists_congr fun d => and_congr_right fun _ => exists_congr fun s =>
    and_congr_right fun _ => ?_
  cases t.judge d s <;> simp [Judgement.removal, eq_comm]

theorem exact_removals (t : Terms) (dest : Drive) : Exact dest (t.removals dest) := by
  apply exact_flatMap
  intro d s rm h
  cases hv : t.judge d s <;> rw [hv] at h <;> cases h
  rfl

theorem planPrune_cases (h : planPrune dest r = some prune) :
    prune = {} ∨
      ∃ start, firstPointTime (pointTimes dest) r.first = some (some start) ∧
        prune.snapshots = (terms dest r start).removals dest ∧
        prune.datasets = wholeDatasets dest prune.snapshots := by
  obtain ⟨first, hfirst, hprune⟩ := Option.map_eq_some_iff.mp h
  cases first with
  | none => exact .inl hprune.symm
  | some start =>
      subst hprune
      exact .inr ⟨start, hfirst, rfl, rfl⟩

theorem wholeDatasets_nil (dest : Drive) : wholeDatasets dest [] = [] := by
  have hnone : (sortedItems dest).filter (emptied []) = [] := by
    refine List.filter_eq_nil_iff.mpr fun d _ => ?_
    simp [emptied]
  rw [wholeDatasets, hnone]
  rfl

theorem datasets_of_planPrune (h : planPrune dest r = some prune) :
    prune.datasets = wholeDatasets dest prune.snapshots := by
  rcases planPrune_cases h with rfl | ⟨_, _, _, hdatasets⟩
  · exact (wholeDatasets_nil dest).symm
  · exact hdatasets

theorem exact_snapshots (h : planPrune dest r = some prune) : Exact dest prune.snapshots := by
  rcases planPrune_cases h with rfl | ⟨start, -, hsnapshots, -⟩
  · exact ⟨List.nodup_nil, by simp⟩
  · rw [hsnapshots]
    exact exact_removals _ _

theorem whole_of_mem_datasets (h : planPrune dest r = some prune) {top : Rel}
    (htop : top ∈ prune.datasets.map Prod.fst) :
    top ∈ (wholeDatasets dest prune.snapshots).map Prod.fst :=
  datasets_of_planPrune h ▸ htop

/-- Why the policy may never remove a snapshot. -/
inductive Spared (dest : Drive) (r : Request) (d : Dest) (s : Ref) : Prop
  | newest (hlive : isLive d = true) (hnewest : d.newest = some s)
  | complete (h : newestComplete (pointTimes dest) r.complete r.wholePoints = some s.name)
  | pinned (h : (r.pinned.lookup (d.rel, s.name)).isSome = true)
  | protect (h : (d.rel, s.name) ∈ r.protect)
  | foreign (hpoint : isPoint s.name = false) (hsanoid : startsWith s.name "autosnap_" = false)
      (hanchor : anchorDisk s.name = "")
  | history {start : ℤ} (hstart : firstPointTime (pointTimes dest) r.first = some (some start))
      (h : dated (pointTimes dest) s < start)
  | window (hage : r.policy.maxAgeDays = 0 ∨ r.policy.windowDays ≤ r.policy.maxAgeDays)
      (h : r.window ≤ dated (pointTimes dest) s)

theorem keepReason_eq_none_iff {t : Terms} {d : Dest} {s : Ref} :
    t.keepReason d s = none ↔
      snapshotKind s.name ≠ .other ∧ t.start ≤ dated t.times s ∧
        (∀ n, isLive d = true → d.newest = some n → s.guid ≠ n.guid) ∧ some s.name ≠ t.keepPoint ∧
          (d.rel, s.name) ∉ t.request.protect := by
  have hnewest : ((if isLive d then d.newest else none).any fun n =>
      decide (s.guid = n.guid)) = true ↔
      ¬∀ n, isLive d = true → d.newest = some n → s.guid ≠ n.guid := by
    cases isLive d <;> cases d.newest <;> simp
  unfold Terms.keepReason
  simp only [hnewest]
  split_ifs <;> simp_all

theorem judge_of_keepReason {t : Terms} {d : Dest} {s : Ref} (h : t.keepReason d s ≠ none) :
    t.judge d s = .stay := by
  rw [Terms.judge, if_pos (Option.isSome_iff_ne_none.mpr h)]

section Takes

variable {t : Terms} {d : Dest} {s : Ref}

theorem heldBack_eq_false_iff {r : Request} : heldBack r d s = false ↔
    (∀ n, isLive d = true → d.newest = some n → s.guid ≠ n.guid) ∧ (d.rel, s.name) ∉ r.protect ∧
      r.pinned.lookup (d.rel, s.name) = none := by
  simp only [heldBack, Bool.or_eq_false_iff, decide_eq_false_iff_not, Option.isSome_eq_false_iff,
    Option.isNone_iff_eq_none, and_assoc]
  refine and_congr_left fun _ => ?_
  cases isLive d <;> cases d.newest <;> simp

theorem outsideWindow_isSome {name : String} :
    (t.outsideWindow name).isSome = true ↔ snapshotKind name = .intermediate ∨
    name ∉ t.monthly := by
  unfold Terms.outsideWindow
  split_ifs <;> simp_all

/-- A snapshot the policy takes is one judged removable. -/
theorem judge_eq_remove_iff : (∃ reason, t.judge d s = .remove reason) ↔ t.Takes d s := by
  by_cases hkeep : t.keepReason d s = none
  · obtain ⟨hkind, hafter, hnewest, hother, hprotect⟩ := keepReason_eq_none_iff.mp hkeep
    rw [Terms.judge, if_neg (by simp [hkeep])]
    cases hpin : t.request.pinned.lookup (d.rel, s.name) with
    | some why =>
        have hstays : ∀ reason, (if (dated t.times s : ℤ) < t.request.window then Judgement.report
            why else .stay) ≠ .remove reason := by
          intro reason
          split <;> simp
        constructor
        · rintro ⟨reason, h⟩
          exact absurd h (hstays reason)
        · intro h
          exact absurd (heldBack_eq_false_iff.mp h.free).2.2 (by simp [hpin])
    | none =>
        have hfree : heldBack t.request d s = false :=
          heldBack_eq_false_iff.mpr ⟨hnewest, hprotect, hpin⟩
        have hdue : t.Takes d s ↔ t.Due (dated t.times s) s.name :=
          ⟨Terms.Takes.due, fun h => ⟨hkind, hafter, hfree, hother, h⟩⟩
        rw [hdue, Terms.Due, Terms.TooOld, ← outsideWindow_isSome]
        dsimp only
        split
        · simp [*]
        · rename_i hyoung
          rw [or_iff_right hyoung]
          split
          · rename_i hin
            simp [not_lt.mpr hin]
          · rename_i hpast
            rw [and_iff_right (not_le.mp hpast)]
            cases t.outsideWindow s.name <;> simp
  · rw [judge_of_keepReason hkeep]
    constructor
    · rintro ⟨reason, h⟩
      cases h
    · intro h
      obtain ⟨hnewest, hprotect, -⟩ := heldBack_eq_false_iff.mp h.free
      exact absurd (keepReason_eq_none_iff.mpr ⟨h.kind, h.after, hnewest, h.other, hprotect⟩) hkeep

theorem mem_removals_iff (hd : d ∈ dest) (hs : s ∈ d.snaps) :
    (d.rel, s.name) ∈ (t.removals dest).map Removal.target ↔ t.Takes d s := by
  rw [← judge_eq_remove_iff, List.mem_map]
  constructor
  · rintro ⟨rm, hrm, htarget⟩
    obtain ⟨e, he, s', hs', reason, hjudge, rfl⟩ := mem_removals.mp hrm
    obtain ⟨hrel, hname⟩ := Prod.mk.inj htarget
    obtain rfl : e = d := Keyed.eq_of_key he hd hrel
    obtain rfl : s' = s := Keyed.eq_of_key hs' hs hname
    exact ⟨reason, hjudge⟩
  · rintro ⟨reason, hjudge⟩
    exact ⟨_, mem_removals.mpr ⟨d, hd, s, hs, reason, hjudge, rfl⟩, rfl⟩

theorem heldBack_newest {r : Request} {n : Ref} (hlive : isLive d = true) (hn : d.newest = some n) :
    heldBack r d n = true := by
  simp [heldBack, hlive, hn]

/-- What a prune removes is what the policy takes from the drive's first point on. -/
theorem mem_snapshots_iff (h : planPrune dest r = some prune) (hd : d ∈ dest) (hs : s ∈ d.snaps) :
    (d.rel, s.name) ∈ prune.snapshots.map Removal.target ↔
      ((firstPointTime (pointTimes dest) r.first).join.any fun start =>
        decide ((terms dest r start).Takes d s)) = true := by
  obtain ⟨first, hfirst, rfl⟩ := Option.map_eq_some_iff.mp h
  rw [hfirst]
  cases first with
  | none => simp
  | some start => simp [mem_removals_iff hd hs]

end Takes

private theorem not_tooOld
    (hage : r.policy.maxAgeDays = 0 ∨ r.policy.windowDays ≤ r.policy.maxAgeDays) {when' : ℤ}
    (h : r.window ≤ when') : (r.tooOld.any fun limit => when' < limit) = false := by
  unfold Request.tooOld
  split
  · rfl
  · rename_i hon
    unfold Request.window at h
    have hle := hage.resolve_left hon
    simp only [Option.any_some, decide_eq_false_iff_not, not_lt]
    omega

theorem judge_of_spared {d : Dest} {s : Ref} {start : ℤ}
    (hstart : firstPointTime (pointTimes dest) r.first = some (some start)) (h : Spared dest r d s)
    (reason : String) :
    (terms dest r start).judge d s ≠ .remove reason := by
  by_cases hkeep : (terms dest r start).keepReason d s = none
  · obtain ⟨hkind, hafter, hnotNewest, hnotComplete, hnotProtect⟩ := keepReason_eq_none_iff.mp hkeep
    cases h with
    | pinned hpinned =>
        obtain ⟨why, hwhy⟩ := Option.isSome_iff_exists.mp hpinned
        have hlookup : (terms dest r start).request.pinned.lookup (d.rel, s.name) = some why := hwhy
        rw [Terms.judge, hkeep, hlookup]
        simp only [Option.isSome_none, Bool.false_eq_true, if_false]
        split <;> simp
    | window hage hwindow =>
        have hyoung : ((terms dest r start).request.tooOld.any fun limit =>
            decide ((dated (terms dest r start).times s : ℤ) < limit)) = false :=
              not_tooOld hage hwindow
        have hin : (terms dest r start).request.window ≤ dated (terms dest r start).times s :=
          hwindow
        rw [Terms.judge, hkeep, hyoung, if_pos hin]
        simp only [Option.isSome_none, Bool.false_eq_true, if_false]
        split
        · split <;> simp
        · simp
    | newest hlive hnewest => exact absurd rfl (hnotNewest s hlive hnewest)
    | complete hcomplete => exact absurd hcomplete.symm hnotComplete
    | protect hprotect => exact absurd hprotect hnotProtect
    | foreign hpoint hsanoid hanchor =>
        exact absurd (by simp [snapshotKind, hpoint, hsanoid, hanchor]) hkind
    | @history start' hstart' hbefore =>
        obtain rfl : start = start' := by simpa [hstart] using hstart'
        exact absurd hbefore (not_lt_of_ge hafter)
  · rw [judge_of_keepReason hkeep]
    simp

theorem not_mem_snapshots_of_spared (h : planPrune dest r = some prune) {d : Dest} {s : Ref}
    (hd : d ∈ dest) (hs : s ∈ d.snaps) (hspared : Spared dest r d s) :
    (d.rel, s.name) ∉ prune.snapshots.map Removal.target := by
  intro hmem
  obtain ⟨rm, hrm, htarget⟩ := List.mem_map.mp hmem
  rcases planPrune_cases h with rfl | ⟨start, hstart, hsnapshots, -⟩
  · cases hrm
  · rw [hsnapshots] at hrm
    obtain ⟨e, he, s', hs', reason, hjudge, rfl⟩ := mem_removals.mp hrm
    obtain ⟨hrel, hname⟩ := Prod.mk.inj htarget
    obtain rfl : e = d := Keyed.eq_of_key he hd hrel
    obtain rfl : s' = s := Keyed.eq_of_key hs' hs hname
    exact judge_of_spared hstart hspared reason hjudge

end Judgements

/-! ### What is left -/

theorem Dest.mem_withoutSnaps {d : Dest} {gone : List SnapName} {s : Ref} :
    s ∈ (d.withoutSnaps gone).snaps ↔ s ∈ d.snaps ∧ (d.rel, s.name) ∉ gone := by
  simp [Dest.withoutSnaps]

theorem mem_destroyed {dest : Drive} {removals : List Removal} {tops : List Rel} {d : Dest} :
    d ∈ Drive.destroyed dest removals tops ↔
      ∃ e ∈ dest, e.withoutSnaps (removals.map Removal.target) = d ∧
      ∀ top ∈ tops, ¬Under e.rel top := by
  rw [Drive.destroyed, Keyed.mem_filter, Keyed.mem_map, Bool.not_eq_true',
    ← Bool.not_eq_true, covered_iff]
  constructor
  · rintro ⟨⟨e, he, rfl⟩, hout⟩
    exact ⟨e, he, rfl, fun top htop hunder => hout ⟨top, htop, hunder⟩⟩
  · rintro ⟨e, he, rfl, hout⟩
    exact ⟨⟨e, he, rfl⟩, fun ⟨top, htop, hunder⟩ => hout top htop hunder⟩

/-- After a prune everything it may not take is still there; a tree it destroys whole holds no live
dataset and only snapshots the policy removes by name; and no two such trees meet. -/
theorem planPrune_spares {dest : Drive} {r : Request} {prune : Prune} (hkept : InheritsKept dest)
    (h : planPrune dest r = some prune) :
    (∀ d ∈ dest, ∀ s ∈ d.snaps, Spared dest r d s →
      ∃ e ∈ Drive.pruned dest prune, e.rel = d.rel ∧ s ∈ e.snaps) ∧
      (∀ top ∈ prune.datasets.map Prod.fst, ∀ e ∈ dest, Under e.rel top →
        isLive e = false ∧ ∀ s ∈ e.snaps, (e.rel, s.name) ∈ prune.snapshots.map Removal.target) ∧
      (prune.datasets.map Prod.fst).Pairwise Apart := by
  have htree : ∀ top ∈ prune.datasets.map Prod.fst, ∀ e ∈ dest, Under e.rel top →
      isLive e = false ∧ ∀ s ∈ e.snaps, (e.rel, s.name) ∈ prune.snapshots.map Removal.target :=
    fun top htop e he hunder =>
      mem_tree_of_whole hkept (exact_snapshots h) (whole_of_mem_datasets h htop) he hunder
  refine ⟨?_, htree, ?_⟩
  · intro d hd s hs hspared
    have hstays := not_mem_snapshots_of_spared h hd hs hspared
    refine ⟨d.withoutSnaps (prune.snapshots.map Removal.target),
      mem_destroyed.mpr ⟨d, hd, rfl, ?_⟩, rfl, Dest.mem_withoutSnaps.mpr ⟨hs, hstays⟩⟩
    intro top htop hunder
    exact hstays ((htree top htop d hd hunder).2 s hs)
  · rw [datasets_of_planPrune h]
    exact wholeDatasets_disjoint

/-- A live dataset with two points and a sanoid snapshot between them, and an archived lineage with
an old one. -/
def lineages : Drive where
  items :=
    [{ rel := ["rpool", "home"]
       snaps := ⟨[⟨"zark_1970-01-01_00:16:40Z", "1", 10, 1000⟩, ⟨"autosnap_daily", "2", 20, 2000⟩,
         ⟨"zark_1970-04-25_14:00:00Z", "3", 30, 9900000⟩], by decide⟩ },
     { rel := ["rpool", "home.archived-19700102"],
       snaps := ⟨[⟨"autosnap_daily", "4", 15, 1500⟩], by decide⟩ }]
  nodup := by decide

def lineagesRequest : Request where
  complete := ["zark_1970-01-01_00:16:40Z", "zark_1970-04-25_14:00:00Z"]
  policy := {}
  now := 10000000

def lineagesPrune : Prune where
  snapshots :=
    [⟨["rpool", "home"], "autosnap_daily", "intermediate older than the window"⟩,
     ⟨["rpool", "home.archived-19700102"], "autosnap_daily", "intermediate older than the window"⟩]
  datasets :=
    [(["rpool", "home.archived-19700102"],
      "archived lineage with nothing left that the policy keeps")]

theorem planPrune_spares_lineages :
    (∀ d ∈ lineages, ∀ s ∈ d.snaps, Spared lineages lineagesRequest d s →
        ∃ e ∈ Drive.pruned lineages lineagesPrune, e.rel = d.rel ∧ s ∈ e.snaps) ∧
      (∀ top ∈ lineagesPrune.datasets.map Prod.fst, ∀ e ∈ lineages, Under e.rel top →
        isLive e = false ∧ ∀ s ∈ e.snaps,
        (e.rel, s.name) ∈ lineagesPrune.snapshots.map Removal.target) ∧
      (lineagesPrune.datasets.map Prod.fst).Pairwise Apart :=
  planPrune_spares (by decide) (by decide)

end Zark
