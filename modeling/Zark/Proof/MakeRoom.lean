import Zark.MakeRoom
import Zark.Proof.Planner
import Zark.Proof.Retention

/-!
# Making room and the plans of the run

What a space plan takes beyond the policy names no snapshot twice either, so room made is one
removal: the snapshots of both, and every tree they leave with nothing. A plan is decided by the
dataset's newest snapshot, or for a rollback by the newest common one and there being another after
it, and a clone by the copy it starts from. All of these stay, except where I-E does not reach: a
dataset that is back in origin while its drive copy still carries the mark of a kept orphan.
-/

namespace Zark

open Hierarchy

/-! ### Room made as one removal -/

section Room

variable {dest : Drive} {r : Request} {prune : Prune} {names : List String}

theorem nodup_monthlyPoints (dest : Drive) (complete whole : List String) :
    (monthlyPoints (pointTimes dest) complete whole).Nodup := by
  refine (Best.nodup_perGroup _).map_on fun a ha b hb h => ?_
  have hmem : ∀ {p}, p ∈ Best.perGroup (fun point => month point.2) (rank whole)
      (completePoints (pointTimes dest) complete) →
      p ∈ pointTimes dest := fun hp => (List.mem_filter.mp (Best.perGroup_subset _ hp)).1
  exact Keyed.eq_of_key (hmem ha) (hmem hb) h

theorem mem_pointTimes {p : String × ℕ} (hp : p ∈ pointTimes dest) : isPoint p.1 = true := by
  obtain ⟨name, hname, rfl⟩ := List.mem_map.mp hp
  obtain ⟨s, hs, rfl⟩ := List.mem_map.mp (List.mem_dedup.mp hname)
  obtain ⟨d, -, hs⟩ := List.mem_flatMap.mp hs
  exact (List.mem_filter.mp hs).2

theorem nodup_spaceCandidates : (spaceCandidates dest r prune).Nodup :=
  (List.perm_insertionSort _ _).nodup_iff.mpr ((nodup_monthlyPoints dest _ _).filter _)

/-- A space plan's points are backup points the policy takes nothing of. -/
theorem of_mem_spaceCandidates {name : String} (h : name ∈ spaceCandidates dest r prune) :
    isPoint name = true ∧ ∀ rm ∈ prune.snapshots, rm.name ≠ name := by
  obtain ⟨hmonthly, h⟩ := List.mem_filter.mp ((List.mem_insertionSort _).mp h)
  obtain ⟨p, hp, rfl⟩ := List.mem_map.mp hmonthly
  refine ⟨mem_pointTimes (List.mem_filter.mp (Best.perGroup_subset _ hp)).1, fun rm hrm hname => ?_⟩
  simp only [Bool.and_eq_true, Bool.not_eq_true', ← Bool.not_eq_true, List.contains_iff_mem] at h
  exact h.2 (List.mem_map.mpr ⟨rm, hrm, hname⟩)

theorem mem_pointRemovals {name : String} {rm : Removal} :
    rm ∈ pointRemovals dest r name ↔
      ∃ d ∈ dest, ∃ s ∈ d.snaps, (s.name = name ∧ r.pinned.lookup (d.rel, s.name) = none ∧
        (d.rel, s.name) ∉ r.protect ∧
        (if isLive d then d.newest else none).any (fun n => s.guid = n.guid) = false) ∧
          rm = ⟨d.rel, s.name, "oldest monthly point, to free space"⟩ := by
  simp only [pointRemovals, List.mem_flatMap, List.mem_filterMap, mem_sortedItems]
  refine exists_congr fun d => and_congr_right fun _ => exists_congr fun s =>
    and_congr_right fun _ => ?_
  generalize (if isLive d = true then d.newest else none) = newest
  split_ifs with hstays hnewest
  · refine ⟨nofun, fun ⟨⟨hname, hpinned, hprotect, _⟩, _⟩ => ?_⟩
    rcases hstays with h | h | h
    · exact absurd hname h
    · rw [hpinned] at h
      cases h
    · exact absurd h hprotect
  · exact ⟨nofun, fun ⟨⟨_, _, _, hnot⟩, _⟩ => absurd hnewest (by simp [hnot])⟩
  · rw [not_or, not_or, not_not, Option.not_isSome_iff_eq_none] at hstays
    refine ⟨fun h => ?_, fun ⟨_, h⟩ => h ▸ rfl⟩
    cases h
    exact ⟨⟨hstays.1, hstays.2.1, hstays.2.2, by simpa using hnewest⟩, rfl⟩

theorem exact_pointRemovals (dest : Drive) (r : Request) (name : String) :
    Exact dest (pointRemovals dest r name) := by
  apply exact_flatMap
  intro d s rm h
  split_ifs at h <;> cases h <;> rfl

theorem Exact.append {a b : List Removal} (ha : Exact dest a) (hb : Exact dest b)
    (hne : ∀ rm ∈ a, ∀ rm' ∈ b, rm.name ≠ rm'.name) : Exact dest (a ++ b) := by
  refine ⟨?_, fun rm hrm => (List.mem_append.mp hrm).elim (ha.held rm) (hb.held rm)⟩
  rw [List.map_append, List.nodup_append]
  refine ⟨ha.nodup, hb.nodup, ?_⟩
  intro t ht u hu heq
  obtain ⟨rm, hrm, rfl⟩ := List.mem_map.mp ht
  obtain ⟨rm', hrm', rfl⟩ := List.mem_map.mp hu
  exact hne rm hrm rm' hrm' (congrArg Prod.snd heq)

theorem exact_points (hnames : names.Nodup) :
    Exact dest (names.flatMap (pointRemovals dest r)) := by
  induction names with
  | nil => exact ⟨List.nodup_nil, by simp⟩
  | cons name rest ih =>
      obtain ⟨hname, hrest⟩ := List.nodup_cons.mp hnames
      apply (exact_pointRemovals dest r name).append (ih hrest)
      intro rm hrm rm' hrm' heq
      obtain ⟨d, -, s, -, ⟨rfl, -⟩, rfl⟩ := mem_pointRemovals.mp hrm
      obtain ⟨other, hother, hrm'⟩ := List.mem_flatMap.mp hrm'
      obtain ⟨e, -, t, -, ⟨rfl, -⟩, rfl⟩ := mem_pointRemovals.mp hrm'
      exact hname ((show s.name = t.name from heq) ▸ hother)

/-- All that goes when room is made with these points of a space plan. -/
def roomRemovals (dest : Drive) (r : Request) (prune : Prune) (names : List String) :
    List Removal :=
  prune.snapshots ++ names.flatMap (pointRemovals dest r)

theorem exact_roomRemovals (hprune : planPrune dest r = some prune)
    (hnames : names <+: spaceCandidates dest r prune) :
    Exact dest (roomRemovals dest r prune names) := by
  apply (exact_snapshots hprune).append (exact_points (hnames.sublist.nodup nodup_spaceCandidates))
  intro rm hrm rm' hrm'
  obtain ⟨name, hname, hrm'⟩ := List.mem_flatMap.mp hrm'
  obtain ⟨d, -, s, -, ⟨rfl, -⟩, rfl⟩ := mem_pointRemovals.mp hrm'
  exact (of_mem_spaceCandidates (hnames.subset hname)).2 rm hrm

/-! ### The trees that go -/

theorem treeGoes_iff {empty : Dest → Bool} {rel : Rel} :
    treeGoes dest empty rel = true ↔ ∃ top ∈ dest, Under rel top.rel ∧ empty top = true ∧
      ∀ e ∈ dest, Under e.rel top.rel → empty e = true ∨ e.snaps.items = [] := by
  simp only [treeGoes, List.any_eq_true, Bool.and_eq_true, decide_eq_true_eq, List.all_eq_true,
    Bool.or_eq_true, Bool.not_eq_true', decide_eq_false_iff_not, List.isEmpty_iff, and_assoc]
  refine exists_congr fun top => and_congr_right fun _ => and_congr_right fun _ =>
    and_congr_right fun _ => ?_
  refine forall_congr' fun e => forall_congr' fun _ => ?_
  tauto

theorem treeGoes_mono {empty empty' : Dest → Bool}
    (h : ∀ d ∈ dest, empty d = true → empty' d = true) {rel : Rel}
    (hgoes : treeGoes dest empty rel = true) : treeGoes dest empty' rel = true := by
  obtain ⟨top, htop, hunder, hempty, hbelow⟩ := treeGoes_iff.mp hgoes
  exact treeGoes_iff.mpr ⟨top, htop, hunder, h top htop hempty, fun e he hunder =>
    (hbelow e he hunder).imp_left (h e he)⟩

theorem subset_addWhole {removals : List Removal} {out : List (Rel × String)} (d : Dest) :
    out ⊆ addWhole dest removals out d := by
  unfold addWhole
  split
  · exact List.Subset.refl _
  · split
    · exact List.subset_append_left _ _
    · exact List.Subset.refl _

theorem subset_foldl_addWhole {removals : List Removal} {l : List Dest}
    {out : List (Rel × String)} :
    out ⊆ l.foldl (addWhole dest removals) out := by
  induction l generalizing out with
  | nil => exact List.Subset.refl _
  | cons d rest ih => exact List.Subset.trans (subset_addWhole d) ih

/-- The walk over the emptied datasets misses no tree with nothing that stays. -/
theorem covered_foldl {removals : List Removal} {l : List Dest} {out : List (Rel × String)}
    {d : Dest} (hd : d ∈ l)
    (hbelow : ∀ e ∈ dest, Under e.rel d.rel → emptied removals e = true ∨ e.snaps.items = []) :
    covered d.rel ((l.foldl (addWhole dest removals) out).map Prod.fst) = true := by
  induction l generalizing out with
  | nil => cases hd
  | cons a rest ih =>
      rcases List.mem_cons.mp hd with rfl | hd
      · obtain ⟨t, ht, hunder⟩ : ∃ t ∈ addWhole dest removals out d, Under d.rel t.1 := by
          unfold addWhole
          split
          · rename_i habove
            obtain ⟨t, ht, hunder⟩ := List.any_eq_true.mp habove
            exact ⟨t, ht, (of_decide_eq_true hunder).1⟩
          · rw [if_pos]
            · exact ⟨_, List.mem_append_right _ (List.mem_singleton_self _), List.prefix_rfl⟩
            · refine List.all_eq_true.mpr fun e he => ?_
              by_cases hunder : Under e.rel d.rel
              · simpa [hunder] using hbelow e he hunder
              · simp [hunder]
        exact covered_iff.mpr ⟨t.1, List.mem_map_of_mem
          (@subset_foldl_addWhole dest removals rest _ t ht), hunder⟩
      · exact ih hd

theorem covered_wholeDatasets {removals : List Removal} (rel : Rel) :
    covered rel ((wholeDatasets dest removals).map Prod.fst)
      = treeGoes dest (emptied removals) rel := by
  rw [Bool.eq_iff_iff, treeGoes_iff, covered_iff]
  constructor
  · rintro ⟨t, ht, hunder⟩
    obtain ⟨d, hd, rfl, hempty, hbelow⟩ := emptied_of_mem_wholeDatasets ht
    exact ⟨d, hd, hunder, hempty, hbelow⟩
  · rintro ⟨d, hd, hunder, hempty, hbelow⟩
    have hmem : d ∈ (sortedItems dest).filter (emptied removals) :=
      List.mem_filter.mpr ⟨mem_sortedItems.mpr hd, hempty⟩
    obtain ⟨t, ht, habove⟩ := covered_iff.mp (covered_foldl hmem hbelow)
    exact ⟨t, ht, hunder.trans habove⟩

/-! ### What is left -/

theorem Dest.withoutSnaps_withoutSnaps (d : Dest) (gone more : List SnapName) :
    (d.withoutSnaps gone).withoutSnaps more = d.withoutSnaps (gone ++ more) := by
  have hsnaps : ((d.withoutSnaps gone).withoutSnaps more).snaps
      = (d.withoutSnaps (gone ++ more)).snaps := by
    apply Keyed.ext
    show List.filter _ (List.filter _ _) = List.filter _ _
    rw [List.filter_filter]
    refine List.filter_congr fun s _ => ?_
    rw [← Bool.decide_and]
    refine decide_eq_decide.mpr ?_
    show (d.rel, s.name) ∉ more ∧ (d.rel, s.name) ∉ gone ↔ _
    rw [List.mem_append, not_or, and_comm]
  exact congrArg (fun snaps => ({ d with snaps } : Dest)) hsnaps

theorem get?_destroyed {removals : List Removal} {tops : List Rel} (rel : Rel) :
    (Drive.destroyed dest removals tops).get? rel =
      if covered rel tops = true then
        none
      else (dest.get? rel).map (·.withoutSnaps (removals.map Removal.target)) := by
  rw [Drive.destroyed, Keyed.get?_filter, Keyed.get?_map]
  cases h : dest.get? rel with
  | none => simp
  | some d =>
      obtain rfl := Keyed.key_of_get? h
      cases hcovered : covered d.rel tops <;> simp [hcovered, Option.filter]

theorem emptied_mono {removals more : List Removal} (h : Exact dest removals)
    (h' : Exact dest (removals ++ more)) {d : Dest} (hd : d ∈ dest)
    (hempty : emptied removals d = true) : emptied (removals ++ more) d = true := by
  obtain ⟨hlive, hsome, hall⟩ := (emptied_iff h hd).mp hempty
  refine (emptied_iff h' hd).mpr ⟨hlive, hsome, fun s hs => ?_⟩
  rw [List.map_append]
  exact List.mem_append_left _ (hall s hs)

/-- Removals in two steps, each with the trees it leaves empty, are one removal. -/
theorem get?_beyond (hexact : Exact dest prune.snapshots)
    (hwhole : prune.datasets = wholeDatasets dest prune.snapshots)
    (hroom : Exact dest (roomRemovals dest r prune names)) (rel : Rel) :
    ((dest.pruned prune).pruned (beyond dest r prune names)).get? rel =
      if treeGoes dest (emptied (roomRemovals dest r prune names)) rel = true then none
      else (dest.get? rel).map (·.withoutSnaps
        ((roomRemovals dest r prune names).map Removal.target)) := by
  have hgoes : covered rel (prune.datasets.map Prod.fst) = true ∨
        covered rel ((beyond dest r prune names).datasets.map Prod.fst) = true ↔
      treeGoes dest (emptied (roomRemovals dest r prune names)) rel = true := by
    rw [← covered_wholeDatasets]
    simp only [covered_iff]
    constructor
    · rintro (⟨t, ht, hunder⟩ | ⟨t, ht, hunder⟩)
      · have hgone : treeGoes dest (emptied prune.snapshots) rel = true := by
          rw [← covered_wholeDatasets]
          exact covered_iff.mpr ⟨t, hwhole ▸ ht, hunder⟩
        have := treeGoes_mono (fun d hd => emptied_mono hexact hroom hd) hgone
        rwa [← covered_wholeDatasets, covered_iff] at this
      · obtain ⟨u, hu, rfl⟩ := List.mem_map.mp ht
        exact ⟨u.1, List.mem_map_of_mem (List.mem_filter.mp hu).1, hunder⟩
    · rintro ⟨t, ht, hunder⟩
      obtain ⟨u, hu, rfl⟩ := List.mem_map.mp ht
      by_cases hmem : u ∈ prune.datasets
      · exact .inl ⟨u.1, List.mem_map_of_mem hmem, hunder⟩
      · exact .inr ⟨u.1, List.mem_map_of_mem
          (List.mem_filter.mpr ⟨hu, by simpa using hmem⟩), hunder⟩
  rw [Drive.pruned, Drive.pruned, get?_destroyed, get?_destroyed]
  by_cases htree : treeGoes dest (emptied (roomRemovals dest r prune names)) rel = true
  · rw [if_pos htree]
    rcases hgoes.mpr htree with h | h
    · simp [h]
    · simp [h]
  · have hnot := mt hgoes.mp htree
    rw [not_or] at hnot
    rw [if_neg htree, if_neg hnot.2, if_neg hnot.1, Option.map_map]
    congr 1
    funext d
    rw [Function.comp_apply, Dest.withoutSnaps_withoutSnaps, roomRemovals, List.map_append]
    rfl

theorem get?_room (hprune : planPrune dest r = some prune)
    (hnames : names <+: spaceCandidates dest r prune) (rel : Rel) :
    ((dest.pruned prune).pruned (beyond dest r prune names)).get? rel =
      if treeGoes dest (emptied (roomRemovals dest r prune names)) rel = true then none
      else (dest.get? rel).map (·.withoutSnaps
        ((roomRemovals dest r prune names).map Removal.target)) :=
  get?_beyond (exact_snapshots hprune) (datasets_of_planPrune hprune)
    (exact_roomRemovals hprune hnames) rel

end Room

/-! ### What a plan is decided by -/

section Decisions

variable {o : Origin} {d d' : Dest} {point : String} {gone : List SnapName}

theorem of_originBase_eq_none {guid : String} (h : originBase o guid = none) :
    o.snapByGuid guid = none ∧ viaBookmark o guid = none := by
  unfold originBase at h
  unfold viaBookmark
  cases hown : o.snapByGuid guid with
  | some own =>
      rw [hown] at h
      cases h
  | none =>
      rw [hown] at h
      dsimp only at h
      split at h
      · rename_i hbpool
        exact ⟨rfl, if_pos hbpool⟩
      · rename_i hbpool
        rw [Option.map_eq_none_iff] at h
        exact ⟨rfl, by rw [if_neg hbpool, h]; rfl⟩

theorem newest_eq_some_iff {newest : Ref} :
    d.newest = some newest ↔ ∃ older, d.snaps.items.reverse = newest :: older := by
  rw [Dest.newest, List.getLast?_eq_head?_reverse, List.head?_eq_some_iff]

theorem withoutSnaps_reverse : (d.withoutSnaps gone).snaps.items.reverse =
    d.snaps.items.reverse.filter fun s => decide ((d.rel, s.name) ∉ gone) := by
  rw [Dest.withoutSnaps, Keyed.filter_items, List.filter_reverse]

theorem newest_withoutSnaps {newest : Ref} (h : d.newest = some newest)
    (hstays : (d.rel, newest.name) ∉ gone) :
    (d.withoutSnaps gone).newest = some newest := by
  obtain ⟨older, holder⟩ := newest_eq_some_iff.mp h
  refine newest_eq_some_iff.mpr ⟨older.filter fun s => decide ((d.rel, s.name) ∉ gone), ?_⟩
  rw [withoutSnaps_reverse, holder, List.filter_cons_of_pos (by simpa using hstays)]

theorem newest_withoutSnaps_of_none (h : d.newest = none) :
    (d.withoutSnaps gone).newest = none := by
  rw [Dest.newest, List.getLast?_eq_none_iff] at h ⊢
  rw [Dest.withoutSnaps, Keyed.filter_items, h, List.filter_nil]

theorem mem_of_newest {newest : Ref} (h : d.newest = some newest) : newest ∈ d.snaps :=
  List.mem_of_getLast? h

theorem guid_of_decision (hstate : (planUnwritten o (some d) point).state = .atPoint ∨
      (planUnwritten o (some d) point).state.isIncremental = true)
    (h : (planUnwritten o (some d') point).decision = (planUnwritten o (some d) point).decision) :
    ∃ newest newest', d.newest = some newest ∧ d'.newest = some newest' ∧
    newest'.guid = newest.guid := by
  have hspec := planUnwritten_spec o d point
  have hspec' := planUnwritten_spec o d' point
  generalize planUnwritten o (some d) point = p at hspec hstate h
  generalize planUnwritten o (some d') point = p' at hspec' h
  cases hspec with
  | @atPoint newest own _ hnewest hown hname =>
      cases hspec' with
      | @atPoint newest' own' _ hnewest' hown' hname' =>
          obtain ⟨hmem, hguid⟩ := snapByGuid_eq_some hown
          obtain ⟨hmem', hguid'⟩ := snapByGuid_eq_some hown'
          have hsame := Keyed.eq_of_key hmem' hmem (hname'.trans hname.symm)
          exact ⟨newest, newest', hnewest, hnewest', by rw [← hguid', hsame, hguid]⟩
      | _ => simp [DatasetPlan.decision] at h
  | @incremental newest own _ hnewest hown hname =>
      cases hspec' with
      | @incremental newest' own' _ hnewest' hown' hname' =>
          obtain ⟨hmem, hguid⟩ := snapByGuid_eq_some hown
          obtain ⟨hmem', hguid'⟩ := snapByGuid_eq_some hown'
          have hsame := Keyed.eq_of_key hmem' hmem (by simpa [DatasetPlan.decision] using h)
          exact ⟨newest, newest', hnewest, hnewest', by rw [← hguid', hsame, hguid]⟩
      | _ => simp [DatasetPlan.decision] at h
  | @viaBookmark newest bm first _ hnewest hgone hvia =>
      cases hspec' with
      | @viaBookmark newest' bm' first' _ hnewest' hgone' hvia' =>
          obtain ⟨hmem, hguid, -, -⟩ := viaBookmark_eq_some hvia
          obtain ⟨hmem', hguid', -, -⟩ := viaBookmark_eq_some hvia'
          have hbase : bm'.name = bm.name := by
            simp only [DatasetPlan.decision, Decision.mk.injEq, Base.bookmark.injEq] at h
            exact h.2.1
          have hsame := Keyed.eq_of_key hmem' hmem hbase
          exact ⟨newest, newest', hnewest, hnewest', by rw [← hguid', hsame, hguid]⟩
      | _ => simp [DatasetPlan.decision] at h
  | _ => simp [State.isIncremental] at hstate

theorem planUnwritten_congr (htoken : d'.token = d.token) (hnewest : d'.newest = d.newest)
    (hrollback : (planUnwritten o (some d) point).state ≠ .rollback)
    (hdiverged : (planUnwritten o (some d) point).state ≠ .diverged) :
    planUnwritten o (some d') point = planUnwritten o (some d) point := by
  have hspec := planUnwritten_spec o d point
  generalize hp : planUnwritten o (some d) point = p at hspec hrollback hdiverged
  unfold planUnwritten
  dsimp only
  rw [htoken, hnewest]
  cases hspec with
  | resume h => rw [if_pos (by simpa using h)]
  | atPoint h hnewest hown hname => simp [h, hnewest, hown, hname]
  | incremental h hnewest hown hname => simp [h, hnewest, hown, hname]
  | viaBookmark h hnewest hgone hvia => simp [h, hnewest, hgone, hvia]
  | empty => exact absurd rfl hdiverged
  | rollback => exact absurd rfl hrollback
  | diverged => exact absurd rfl hdiverged

theorem planUnwritten_eq_older {newest : Ref} (htoken : d.token = "")
    (hnewest : d.newest = some newest) (hgone : o.snapByGuid newest.guid = none)
    (hvia : viaBookmark o newest.guid = none) :
    planUnwritten o (some d) point = planOlder o d newest := by
  simp [planUnwritten, htoken, hnewest, hgone, hvia]

theorem filter_cons_tail {α : Type*} {p : α → Bool} {x y : α} {l rest : List α}
    (h : (x :: l).filter p = y :: rest) :
    y ∈ x :: l ∧ rest ⊆ l := by
  have hy : y ∈ (x :: l).filter p := h ▸ List.mem_cons_self
  refine ⟨(List.mem_filter.mp hy).1, fun z hz => ?_⟩
  by_cases hx : p x = true
  · rw [List.filter_cons_of_pos hx] at h
    obtain ⟨-, rfl⟩ := List.cons.inj h
    exact (List.mem_filter.mp hz).1
  · rw [List.filter_cons_of_neg hx] at h
    exact (List.mem_filter.mp (h ▸ List.mem_cons_of_mem _ hz)).1

/-- A rollback stays one with its common snapshot exactly when a snapshot after that one stays. -/
theorem rollback_withoutSnaps (h : (planUnwritten o (some d) point).state = .rollback)
    (hcommon : ∀ name, (planUnwritten o (some d) point).common = some name → (d.rel, name) ∉ gone) :
    (planUnwritten o (some (d.withoutSnaps gone)) point).decision =
    (planUnwritten o (some d) point).decision ↔
      ∃ s ∈ d.snaps, s.name ∈ (planUnwritten o (some d) point).newer ∧ (d.rel, s.name) ∉ gone := by
  have hspec := planUnwritten_spec o d point
  generalize planUnwritten o (some d) point = p at hspec h hcommon
  cases hspec with
  | @rollback newest s base newer htoken hnewest hown hvia hfound =>
      obtain ⟨older, holder⟩ := newest_eq_some_iff.mp hnewest
      rw [holder, List.tail_cons] at hfound
      obtain ⟨passed, rest, rfl, hbase, hpassed, rfl⟩ := findCommon_eq_some hfound
      have hreverse : (d.withoutSnaps gone).snaps.items.reverse =
          (newest :: passed).filter (fun x => decide ((d.rel, x.name) ∉ gone)) ++
            s :: rest.filter fun x => decide ((d.rel, x.name) ∉ gone) := by
        rw [withoutSnaps_reverse, holder, ← List.cons_append, List.filter_append,
          List.filter_cons_of_pos (a := s) (by simpa using hcommon s.name rfl)]
      have hafter : ∀ x ∈ newest :: passed, o.snapByGuid x.guid = none ∧
          viaBookmark o x.guid = none := by
        intro x hx
        rcases List.mem_cons.mp hx with rfl | hx
        · exact ⟨hown, hvia⟩
        · exact of_originBase_eq_none (hpassed x hx)
      have hheld : ∀ x ∈ newest :: passed, x ∈ d.snaps := fun x hx =>
        List.mem_reverse.mp (holder ▸ List.mem_append_left (s :: rest) hx)
      have hnames : (newest :: (passed ++ s :: rest)).map Ref.name |>.Nodup := by
        rw [← holder, List.map_reverse]
        exact List.nodup_reverse.mpr d.snaps.nodup
      constructor
      · intro hsame
        by_contra hnone
        have hempty : (newest :: passed).filter
            (fun x => decide ((d.rel, x.name) ∉ gone)) = [] := by
          refine List.filter_eq_nil_iff.mpr fun x hx hstays =>
            hnone ⟨x, hheld x hx, ?_, of_decide_eq_true hstays⟩
          apply List.mem_map_of_mem
          rw [List.mem_append, List.mem_reverse, List.mem_singleton]
          exact (List.mem_cons.mp hx).symm
        rw [hempty, List.nil_append] at hreverse
        have hspec' := planUnwritten_spec o (d.withoutSnaps gone) point
        generalize planUnwritten o (some (d.withoutSnaps gone)) point = p' at hspec' hsame
        cases hspec' with
        | @rollback _ s' _ _ _ _ _ _ hfound' =>
            -- The common snapshot is now the newest, and a rollback goes to an older one.
            rw [hreverse, List.tail_cons] at hfound'
            obtain ⟨passed', rest', hsplit, -, -, -⟩ := findCommon_eq_some hfound'
            have hname : s'.name = s.name := by
              simp only [DatasetPlan.decision, Decision.mk.injEq, Option.some.injEq] at hsame
              exact hsame.2.2.2.1
            have hmem : s' ∈ rest :=
              (List.mem_filter.mp (hsplit ▸ List.mem_append_right _ List.mem_cons_self)).1
            rw [← List.cons_append, List.map_append, List.map_cons, List.nodup_append] at hnames
            exact (List.nodup_cons.mp hnames.2.1).1 (hname ▸ List.mem_map_of_mem hmem)
        | _ => simp [DatasetPlan.decision] at hsame
      · rintro ⟨x, hx, hnewer, hstays⟩
        obtain ⟨y, hy, hname⟩ : ∃ y ∈ newest :: passed, y.name = x.name := by
          obtain ⟨y, hy, hname⟩ := List.mem_map.mp hnewer
          rw [List.mem_append, List.mem_reverse, List.mem_singleton] at hy
          exact ⟨y, List.mem_cons.mpr hy.symm, hname⟩
        obtain rfl := Keyed.eq_of_key (hheld y hy) hx hname
        cases hkept : (newest :: passed).filter (fun x => decide ((d.rel, x.name) ∉ gone)) with
        | nil =>
            exact absurd (hkept ▸ List.mem_filter.mpr ⟨hy, by simpa using hstays⟩) List.not_mem_nil
        | cons newest' passed' =>
            obtain ⟨hmem, hsub⟩ := filter_cons_tail hkept
            rw [hkept, List.cons_append] at hreverse
            have hnewest' := newest_eq_some_iff.mpr ⟨_, hreverse⟩
            rw [planUnwritten_eq_older (show (d.withoutSnaps gone).token = "" from htoken) hnewest'
              (hafter _ hmem).1 (hafter _ hmem).2, planOlder, hreverse, List.tail_cons,
              findCommon_passed hbase fun y hy => hpassed y (hsub hy)]
            rfl
  | _ => simp at h

theorem diverged_withoutSnaps (h : (planUnwritten o (some d) point).state = .diverged) :
    (planUnwritten o (some (d.withoutSnaps gone)) point).decision =
    (planUnwritten o (some d) point).decision := by
  have hspec := planUnwritten_spec o d point
  generalize planUnwritten o (some d) point = p at hspec h
  cases hspec with
  | empty htoken hnewest =>
      have htoken' : (d.withoutSnaps gone).token = "" := htoken
      simp [planUnwritten, htoken', newest_withoutSnaps_of_none hnewest, DatasetPlan.decision]
  | @diverged newest htoken hnewest hown hvia hfound =>
      have htoken' : (d.withoutSnaps gone).token = "" := htoken
      obtain ⟨older, holder⟩ := newest_eq_some_iff.mp hnewest
      rw [holder, List.tail_cons, findCommon_eq_none_iff] at hfound
      have hreverse := @withoutSnaps_reverse d gone
      rw [holder] at hreverse
      cases hkept : (newest :: older).filter (fun s => decide ((d.rel, s.name) ∉ gone)) with
      | nil =>
          have hnone : (d.withoutSnaps gone).newest = none := by
            rw [Dest.newest, List.getLast?_eq_head?_reverse, hreverse, hkept]
            rfl
          simp [planUnwritten, htoken', hnone, DatasetPlan.decision]
      | cons newest' older' =>
          rw [hkept] at hreverse
          obtain ⟨hmem, hsub⟩ := filter_cons_tail hkept
          have hnone : o.snapByGuid newest'.guid = none ∧ viaBookmark o newest'.guid = none := by
            rcases List.mem_cons.mp hmem with rfl | hmem
            · exact ⟨hown, hvia⟩
            · exact of_originBase_eq_none (hfound newest' hmem)
          rw [planUnwritten_eq_older htoken' (newest_eq_some_iff.mpr ⟨_, hreverse⟩) hnone.1 hnone.2,
            planOlder, hreverse, List.tail_cons, findCommon_eq_none_iff.mpr fun x hx =>
              hfound x (hsub hx)]
          rfl
  | _ => simp at h

/-- A written dataset that would be sent an incremental, or whose partial receive would be
refused. -/
def Asked (o : Origin) (d : Dest) (point : String) : Prop :=
  d.written ≠ 0 ∧ ((planUnwritten o (some d) point).state.isIncremental = true ∨
    (planUnwritten o (some d) point).state = .resume ∧ d.newest ≠ none)

/-- The plan of a dataset the drive holds is that of its snapshots, unless the user is asked about
what was written. -/
theorem planDataset_cases (o : Origin) (d : Dest) (point : String) :
    ¬Asked o d point ∧ planDataset o (some d) point = planUnwritten o (some d) point ∨
      Asked o d point ∧ planDataset o (some d) point =
        asModified (if (planUnwritten o (some d) point).state = .resume then planPartial o d point
          else planUnwritten o (some d) point) d := by
  have hpartial : (planUnwritten o (some d) point).partialReceive = false := by
    have hspec := planUnwritten_spec o d point
    generalize planUnwritten o (some d) point = p at hspec
    cases hspec <;> rfl
  unfold planDataset Asked
  dsimp only
  by_cases hwritten : d.written = 0
  · simp [hwritten]
  · rw [if_neg hwritten]
    by_cases hresume : (planUnwritten o (some d) point).state = .resume
    · cases hnewest : d.newest with
      | none => simp [hresume, hpartial, State.isIncremental]
      | some newest => simp [hresume, hwritten, planPartial]
    · cases hincremental : (planUnwritten o (some d) point).state.isIncremental <;>
        simp [hresume, hincremental, hpartial, hwritten]

theorem planUnwritten_ne_modified : (planUnwritten o (some d) point).state ≠ .modified := by
  intro h
  have hspec := planUnwritten_spec o d point
  generalize planUnwritten o (some d) point = p at hspec h
  cases hspec <;> cases h

/-- What the plan of a dataset rests on stays when these snapshots go. -/
def Stays (gone : List SnapName) (d : Dest) (p : DatasetPlan) : Prop :=
  match p.state with
  | .atPoint | .incremental | .viaBookmark | .modified =>
      ∀ newest, d.newest = some newest → (d.rel, newest.name) ∉ gone
  | .rollback => ∃ s ∈ d.snaps, s.name ∈ p.newer ∧ (d.rel, s.name) ∉ gone
  | _ => True

theorem newest_stays_of_mem {newest newest' : Ref} (hnewest : d.newest = some newest)
    (hnewest' : (d.withoutSnaps gone).newest = some newest')
    (h : newest' ∈ d.snaps → newest' = newest) :
    ∀ n, d.newest = some n → (d.rel, n.name) ∉ gone := by
  intro n hn
  obtain ⟨hmem, hstays⟩ := Dest.mem_withoutSnaps.mp (mem_of_newest hnewest')
  rw [hnewest] at hn
  rwa [← Option.some.inj hn, ← h hmem]

theorem planUnwritten_withoutSnaps_iff (hguids : (d.snaps.items.map Ref.guid).Nodup)
    (hcommon : ∀ name, (planUnwritten o (some d) point).state = .rollback →
      (planUnwritten o (some d) point).common = some name → (d.rel, name) ∉ gone) :
    (planUnwritten o (some (d.withoutSnaps gone)) point).decision =
    (planUnwritten o (some d) point).decision ↔
      Stays gone d (planUnwritten o (some d) point) := by
  have hforward : (planUnwritten o (some d) point).state = .atPoint ∨
      (planUnwritten o (some d) point).state.isIncremental = true →
      (planUnwritten o (some (d.withoutSnaps gone)) point).decision
        = (planUnwritten o (some d) point).decision →
        ∀ newest, d.newest = some newest → (d.rel, newest.name) ∉ gone := by
    intro hstate hsame
    obtain ⟨newest, newest', hnewest, hnewest', hguid⟩ := guid_of_decision hstate hsame
    exact newest_stays_of_mem hnewest hnewest' fun hmem =>
      List.inj_on_of_nodup_map hguids hmem (mem_of_newest hnewest) hguid
  have hback : (planUnwritten o (some d) point).state ≠ .rollback →
      (planUnwritten o (some d) point).state ≠ .diverged →
      ∀ newest, d.newest = some newest → (d.rel, newest.name) ∉ gone →
      (planUnwritten o (some (d.withoutSnaps gone)) point).decision
          = (planUnwritten o (some d) point).decision := by
    intro hrollback hdiverged newest hnewest hstays
    have hsame : (d.withoutSnaps gone).newest = d.newest :=
      (newest_withoutSnaps hnewest hstays).trans hnewest.symm
    rw [@planUnwritten_congr o d (d.withoutSnaps gone) point rfl hsame hrollback hdiverged]
  have hspec := planUnwritten_spec o d point
  unfold Stays
  cases hstate : (planUnwritten o (some d) point).state with
  | rollback => exact rollback_withoutSnaps hstate fun name => hcommon name hstate
  | diverged => exact iff_true_intro (diverged_withoutSnaps hstate)
  | resume =>
      refine iff_true_intro ?_
      have htoken : (d.withoutSnaps gone).token ≠ "" := by
        show d.token ≠ ""
        generalize planUnwritten o (some d) point = p at hspec hstate
        cases hspec with
        | resume h => exact h
        | _ => cases hstate
      have htoken' : d.token ≠ "" := htoken
      simp [planUnwritten, htoken, htoken']
  | atPoint | incremental | viaBookmark =>
      refine ⟨hforward (by simp [hstate, State.isIncremental]), fun hstays => ?_⟩
      obtain ⟨newest, hnewest⟩ : ∃ newest, d.newest = some newest := by
        generalize planUnwritten o (some d) point = p at hspec hstate
        cases hspec <;> first | exact ⟨_, ‹d.newest = some _›⟩ | cases hstate
      exact hback (by simp [hstate]) (by simp [hstate]) newest hnewest (hstays newest hnewest)
  | new | modified | orphan | excluded =>
      generalize planUnwritten o (some d) point = p at hspec hstate
      cases hspec <;> cases hstate

theorem planPartial_congr (hnewest : d'.newest = d.newest) :
    (planPartial o d' point).base = (planPartial o d point).base ∧
    (planPartial o d' point).first = (planPartial o d point).first ∧
      (planPartial o d' point).cloneFrom = (planPartial o d point).cloneFrom := by
  have hdecided : ∀ e e' : Dest, e'.token = e.token → e'.newest = e.newest →
      ((planUnwritten o (some e) point).state ≠ .rollback ∧
        (planUnwritten o (some e) point).state ≠ .diverged) →
        planUnwritten o (some e') point = planUnwritten o (some e) point :=
    fun e e' htoken hnewest h => planUnwritten_congr htoken hnewest h.1 h.2
  have holder : ∀ e : Dest, ¬((planUnwritten o (some e) point).state ≠ .rollback ∧
      (planUnwritten o (some e) point).state ≠ .diverged) →
      (planUnwritten o (some e) point).state.isIncremental = false ∧
        (planUnwritten o (some e) point).first = none ∧
        (planUnwritten o (some e) point).cloneFrom = none := by
    intro e h
    have hspec := planUnwritten_spec o e point
    generalize planUnwritten o (some e) point = p at hspec h
    cases hspec <;> first | exact ⟨rfl, rfl, rfl⟩ | simp at h
  obtain ⟨e, he⟩ : ∃ e : Dest, e = { d with token := "" } := ⟨_, rfl⟩
  obtain ⟨e', he'⟩ : ∃ e' : Dest, e' = { d' with token := "" } := ⟨_, rfl⟩
  have htoken : e'.token = e.token := by rw [he, he']
  have hnewest' : e'.newest = e.newest := by
    rw [he, he']
    exact hnewest
  unfold planPartial
  rw [← he, ← he']
  by_cases h : (planUnwritten o (some e) point).state ≠ .rollback ∧
    (planUnwritten o (some e) point).state ≠ .diverged
  · rw [hdecided e e' htoken hnewest' h]
    exact ⟨rfl, rfl, rfl⟩
  · by_cases h' : (planUnwritten o (some e') point).state ≠ .rollback ∧
      (planUnwritten o (some e') point).state ≠ .diverged
    · rw [hdecided e' e htoken.symm hnewest'.symm h']
      exact ⟨rfl, rfl, rfl⟩
    · simp [holder e h, holder e' h']

theorem Asked.newest (h : Asked o d point) : ∃ newest, d.newest = some newest := by
  rcases h.2 with hincremental | ⟨-, hnewest⟩
  · have hspec := planUnwritten_spec o d point
    generalize planUnwritten o (some d) point = p at hspec hincremental
    cases hspec <;> first | exact ⟨_, ‹d.newest = some _›⟩ | cases hincremental
  · exact Option.ne_none_iff_exists'.mp hnewest

theorem Asked.decision_congr (h : Asked o d point) (htoken : d'.token = d.token)
    (hwritten : d'.written = d.written) (hnewest : d'.newest = d.newest) :
    (planDataset o (some d') point).decision = (planDataset o (some d) point).decision := by
  have hsame : planUnwritten o (some d') point = planUnwritten o (some d) point := by
    apply planUnwritten_congr htoken hnewest
    all_goals
      intro hstate
      simp [Asked, hstate, State.isIncremental] at h
  have hasked : Asked o d' point := by rwa [Asked, hsame, hnewest, hwritten]
  rcases planDataset_cases o d point with ⟨hnot, -⟩ | ⟨-, hplan⟩
  · exact absurd h hnot
  rcases planDataset_cases o d' point with ⟨hnot, -⟩ | ⟨-, hplan'⟩
  · exact absurd hasked hnot
  obtain ⟨hbase, hfirst, hclone⟩ := @planPartial_congr o d d' point hnewest
  rw [hplan, hplan', hsame]
  split_ifs
  · simp [DatasetPlan.decision, asModified, hbase, hfirst, hclone, hnewest]
  · simp [DatasetPlan.decision, asModified, hnewest]

/-- The plan of a dataset is decided as before exactly when what it rests on stays. -/
theorem planDataset_withoutSnaps_iff (hguids : (d.snaps.items.map Ref.guid).Nodup)
    (hcommon : ∀ name, (planDataset o (some d) point).state = .rollback →
      (planDataset o (some d) point).common = some name → (d.rel, name) ∉ gone) :
    (planDataset o (some (d.withoutSnaps gone)) point).decision =
    (planDataset o (some d) point).decision ↔
      Stays gone d (planDataset o (some d) point) := by
  rcases planDataset_cases o d point with ⟨hnot, hplan⟩ | ⟨hasked, hplan⟩
  · rw [hplan] at hcommon ⊢
    rw [← planUnwritten_withoutSnaps_iff hguids hcommon]
    rcases planDataset_cases o (d.withoutSnaps gone) point with ⟨-, hplan'⟩ | ⟨hasked', hplan'⟩
    · rw [hplan']
    · -- What was not asked about before is not with fewer snapshots and the same plan.
      have hstate : (planDataset o (some (d.withoutSnaps gone)) point).state = .modified := by
        rw [hplan', asModified]
      constructor
      · intro hsame
        have := congrArg Decision.state hsame
        exact absurd (this.symm.trans hstate) planUnwritten_ne_modified
      · intro hsame
        have hstate' : (planUnwritten o (some (d.withoutSnaps gone)) point).state
            = (planUnwritten o (some d) point).state :=
          congrArg Decision.state hsame
        refine absurd ⟨hasked'.1, ?_⟩ hnot
        rw [← hstate']
        exact hasked'.2.imp_right (And.imp_right (mt newest_withoutSnaps_of_none))
  · have hstate : (planDataset o (some d) point).state = .modified := by rw [hplan, asModified]
    have hstays : Stays gone d (planDataset o (some d) point) ↔
        ∀ newest, d.newest = some newest → (d.rel, newest.name) ∉ gone := by
      rw [Stays, hstate]
    have hcommonIs : (planDataset o (some d) point).common = d.newest.map Ref.name := by
      rw [hplan, asModified]
    obtain ⟨newest, hnewest⟩ := hasked.newest
    rw [hstays]
    constructor
    · intro hsame
      rcases planDataset_cases o (d.withoutSnaps gone) point with ⟨-, hplan'⟩ | ⟨-, hplan'⟩
      · rw [hplan'] at hsame
        exact absurd ((congrArg Decision.state hsame).trans hstate) planUnwritten_ne_modified
      · have hname : (d.withoutSnaps gone).newest.map Ref.name = d.newest.map Ref.name := by
          have hcommon' : (planDataset o (some (d.withoutSnaps gone)) point).common
              = (planDataset o (some d) point).common :=
            congrArg Decision.common hsame
          rw [← hcommonIs, ← hcommon', hplan', asModified]
        rw [hnewest, Option.map_some] at hname
        obtain ⟨newest', hnewest', hname⟩ := Option.map_eq_some_iff.mp hname
        exact newest_stays_of_mem hnewest hnewest' fun hmem =>
          Keyed.eq_of_key hmem (mem_of_newest hnewest) hname
    · intro hkept
      exact hasked.decision_congr rfl rfl
        ((newest_withoutSnaps hnewest (hkept newest hnewest)).trans hnewest.symm)

end Decisions

/-! ### What is let go -/

section LetGo

variable {dest : Drive} {r : Request} {prune : Prune} {names : List String}

theorem letGo_iff_mem_room (hprune : planPrune dest r = some prune) {d : Dest} {s : Ref}
    (hd : d ∈ dest) (hs : s ∈ d.snaps) :
    letGo dest r names d s = true ↔ (d.rel, s.name) ∈ (roomRemovals dest r prune names).map
      Removal.target := by
  rw [letGo, Bool.or_eq_true, ← mem_snapshots_iff hprune hd hs, roomRemovals, List.map_append,
    List.mem_append]
  refine or_congr_right ?_
  rw [Bool.and_eq_true, List.contains_iff_mem, Bool.not_eq_true', List.mem_map]
  constructor
  · intro ⟨hname, hfree⟩
    obtain ⟨hnewest, hprotect, hpinned⟩ := heldBack_eq_false_iff.mp hfree
    refine ⟨_, List.mem_flatMap.mpr ⟨s.name, hname,
      mem_pointRemovals.mpr ⟨d, hd, s, hs, ⟨rfl, hpinned, hprotect, ?_⟩, rfl⟩⟩, rfl⟩
    exact (Bool.or_eq_false_iff.mp (Bool.or_eq_false_iff.mp hfree).1).1
  · intro ⟨rm, hrm, htarget⟩
    obtain ⟨name, hname, hrm⟩ := List.mem_flatMap.mp hrm
    obtain ⟨e, he, t, ht, ⟨rfl, hpinned, hprotect, hnewest⟩, rfl⟩ := mem_pointRemovals.mp hrm
    obtain ⟨hrel, hname'⟩ := Prod.mk.inj htarget
    obtain rfl : e = d := Keyed.eq_of_key he hd hrel
    obtain rfl : t = s := Keyed.eq_of_key ht hs hname'
    exact ⟨hname, by simp [heldBack, hnewest, hprotect, hpinned]⟩

theorem cleared_iff {d : Dest} :
    cleared dest r names d = true ↔ isLive d = false ∧ d.snaps.items ≠ [] ∧
    ∀ s ∈ d.snaps, letGo dest r names d s = true := by
  simp only [cleared, Bool.and_eq_true, Bool.not_eq_true', List.isEmpty_eq_false_iff,
    List.all_eq_true, and_assoc]
  exact and_congr_right fun _ => and_comm

theorem cleared_iff_emptied (hprune : planPrune dest r = some prune)
    (hnames : names <+: spaceCandidates dest r prune) {d : Dest} (hd : d ∈ dest) :
    cleared dest r names d = true ↔ emptied (roomRemovals dest r prune names) d = true := by
  rw [cleared_iff, emptied_iff (exact_roomRemovals hprune hnames) hd]
  refine and_congr_right fun _ => and_congr_right fun _ => forall_congr' fun s =>
    forall_congr' fun hs => ?_
  exact letGo_iff_mem_room hprune hd hs

theorem treeGoes_cleared (hprune : planPrune dest r = some prune)
    (hnames : names <+: spaceCandidates dest r prune) (rel : Rel) :
    treeGoes dest (cleared dest r names) rel
      = treeGoes dest (emptied (roomRemovals dest r prune names)) rel := by
  rw [Bool.eq_iff_iff]
  exact ⟨treeGoes_mono fun d hd => (cleared_iff_emptied hprune hnames hd).mp,
    treeGoes_mono fun d hd => (cleared_iff_emptied hprune hnames hd).mpr⟩

theorem heldBack_of_protect {d : Dest} {s : Ref} (h : (d.rel, s.name) ∈ r.protect) :
    heldBack r d s = true := by
  simp [heldBack, h]

theorem letGo_of_heldBack {d : Dest} {s : Ref} (h : heldBack r d s = true) :
    letGo dest r names d s = false := by
  rw [letGo, h, Bool.not_true, Bool.and_false, Bool.or_false]
  cases (firstPointTime (pointTimes dest) r.first).join with
  | none => rfl
  | some start =>
      rw [Option.any_some, decide_eq_false_iff_not]
      intro htakes
      rw [show heldBack r d s = false from htakes.free] at h
      cases h

theorem not_mem_protect_of_room (hprune : planPrune dest r = some prune)
    (hnames : names <+: spaceCandidates dest r prune) {name : SnapName} (h : name ∈ r.protect) :
    name ∉ (roomRemovals dest r prune names).map Removal.target := by
  intro hmem
  obtain ⟨rm, hrm, rfl⟩ := List.mem_map.mp hmem
  obtain ⟨d, hd, hrel, s, hs, hname⟩ := (exact_roomRemovals hprune hnames).held rm hrm
  have htarget : rm.target = (d.rel, s.name) := by rw [Removal.target, hrel, hname]
  rw [htarget] at hmem h
  have hgoes := (letGo_iff_mem_room hprune hd hs).mpr hmem
  rw [letGo_of_heldBack (heldBack_of_protect h)] at hgoes
  cases hgoes

end LetGo

/-! ### What `makeRoom` applies -/

section Applied

variable {dest : Drive} {r : Request} {frees : List Removal → List Rel → ℕ} {prune : Prune}

theorem pruned_of_isEmpty {prune : Prune} (h : prune.isEmpty = true) (dest : Drive) :
    dest.pruned prune = dest := by
  obtain ⟨hsnapshots, hdatasets⟩ := Bool.and_eq_true_iff.mp h
  rw [List.isEmpty_iff] at hsnapshots hdatasets
  have hall : ∀ d : Dest, d.withoutSnaps [] = d := by
    intro d
    have hsnaps : (d.withoutSnaps []).snaps = d.snaps :=
      Keyed.ext (List.filter_eq_self.mpr fun s _ => by simp)
    exact congrArg (fun snaps => ({ d with snaps } : Dest)) hsnaps
  apply Keyed.ext
  rw [Drive.pruned, Drive.destroyed, hsnapshots, hdatasets, Keyed.filter_items, Keyed.map_items]
  simp [hall, covered]

theorem isEmpty_beyond (hprune : planPrune dest r = some prune) :
    (beyond dest r prune []).isEmpty = true := by
  simp [Prune.isEmpty, beyond, datasets_of_planPrune hprune]

/-- The loop stops after some of its points; those it passes over have nothing to remove. -/
theorem spaceLoop_spec (space : Space) (goal : ℕ) (names : List String) (plan : SpacePlan) :
    ∃ taken, taken <+: names ∧
      ((spaceLoop dest r frees prune space goal names plan).chosen.map Prod.fst).flatMap
      (pointRemovals dest r) =
        (plan.chosen.map Prod.fst).flatMap (pointRemovals dest r) ++ taken.flatMap
        (pointRemovals dest r) := by
  induction names generalizing plan with
  | nil => exact ⟨[], List.nil_prefix, by simp [spaceLoop]⟩
  | cons name rest ih =>
      unfold spaceLoop
      split
      · exact ⟨[], List.nil_prefix, by simp⟩
      · obtain ⟨taken, htaken, heq⟩ := ih (plan.add dest r frees prune name)
        refine ⟨name :: taken, List.cons_prefix_cons.mpr ⟨rfl, htaken⟩, heq.trans ?_⟩
        unfold SpacePlan.add
        split
        · rename_i hempty
          simp [List.isEmpty_iff.mp hempty]
        · simp

/-- What is applied to make room is nothing, or what the policy removes and what the first few
points of a space plan add. -/
theorem makeRoom_madeRoom {plans : List DatasetPlan} {space : Space} {policy : Policy}
    {asked : Option Request} {yes : Bool} {prunes : List Prune}
    (h : makeRoom dest plans space policy asked frees yes = some prunes) :
    prunes = [] ∨ ∃ marks ∈ asked, ∃ names,
    MadeRoom dest (bases plans) { marks with policy, protect := bases plans } names
      (prunes.foldl Drive.pruned dest) := by
  unfold makeRoom at h
  split at h
  · cases h
    exact .inl rfl
  cases asked with
  | none =>
      obtain ⟨-, h⟩ := Option.ite_none_right_eq_some.mp h
      cases h
      exact .inl rfl
  | some marks =>
      obtain ⟨r, hr⟩ : ∃ r : Request, r = { marks with policy, protect := bases plans } := ⟨_, rfl⟩
      have hprotect : r.protect = bases plans := by rw [hr]
      dsimp only at h
      rw [← hr] at h
      obtain ⟨prune, hprune, h⟩ := Option.bind_eq_some_iff.mp h
      obtain ⟨-, h⟩ := Option.ite_none_right_eq_some.mp h
      cases h
      have hpolicy : (if prune.isEmpty = true then [] else [prune]).foldl Drive.pruned dest
          = dest.pruned prune := by
        split
        · rename_i hempty
          rw [pruned_of_isEmpty hempty, List.foldl_nil]
        · rfl
      obtain ⟨taken, htaken, heq⟩ :=
        @spaceLoop_spec dest r frees prune space (space.needed + space.margin r.policy)
          (spaceCandidates dest r prune)
          { total := if prune.isEmpty then 0 else freed frees prune {} }
      rw [List.map_nil, List.flatMap_nil, List.nil_append] at heq
      refine .inr ⟨marks, rfl, ?_⟩
      rw [← hr, roomActions, List.foldl_append, hpolicy]
      split
      · rw [List.foldl_cons, List.foldl_nil, beyond, spacePlan, heq]
        exact ⟨taken, hprotect, prune, hprune, htaken, rfl⟩
      · rw [List.foldl_nil, ← pruned_of_isEmpty (isEmpty_beyond hprune) (dest.pruned prune)]
        exact ⟨[], hprotect, prune, hprune, List.nil_prefix, rfl⟩

end Applied

/-! ### The plans after making room -/

section Plans

variable {origin : Origins} {dest : Drive} {point : String} {skip : List Rel}

/-- A drive some snapshots and datasets have gone from, but nothing protected and no dataset with
something protected. -/
structure Trimmed (live after : Drive) (protect gone : List SnapName) : Prop where
  get? : ∀ rel, after.get? rel = none ∨ after.get? rel = (live.get? rel).map (·.withoutSnaps gone)
  spared : ∀ name ∈ protect, name ∉ gone
  held : ∀ rel d, live.get? rel = some d → (∃ s ∈ d.snaps, (rel, s.name) ∈ protect) →
    after.get? rel = some (d.withoutSnaps gone)

theorem find?_filter_of_found {α : Type*} {p q : α → Bool} {l : List α} {a : α}
    (h : l.find? p = some a) (hq : q a = true) :
    (l.filter q).find? p = some a := by
  obtain ⟨hp, before, rest, rfl, hbefore⟩ := List.find?_eq_some_iff_append.mp h
  rw [List.filter_append, List.filter_cons_of_pos hq]
  refine List.find?_eq_some_iff_append.mpr ⟨hp, _, _, rfl, fun x hx =>
    hbefore x (List.mem_filter.mp hx).1⟩

theorem cloneBase_trimmed {o : Origin} {p : DatasetPlan} {live after : Drive}
    {protect gone : List SnapName} (h : Trimmed live after protect gone)
    (hprotect : ∀ name, (cloneBase p o origin live).cloneFrom = some name → name ∈ protect) :
    cloneBase p o origin after = cloneBase p o origin live := by
  unfold cloneBase at hprotect ⊢
  cases hclone : o.cloneOf with
  | none => rfl
  | some source =>
      cases horigin : origin.get? source.1 with
      | none => simp [horigin]
      | some parentO =>
          cases hheld : live.get? source.1 with
          | none =>
              have hnone : after.get? source.1 = none := by
                rcases h.get? source.1 with h | h
                · exact h
                · rw [h, hheld, Option.map_none]
              simp [horigin, hheld, hnone]
          | some held =>
              cases hsnap : parentO.snaps.get? source.2 with
              | none => rcases h.get? source.1 with h | h <;> simp [horigin, hheld, hsnap, h]
              | some snap =>
                  cases hcopy : held.snaps.items.find? (·.guid == snap.guid) with
                  | none =>
                      have hnone : (held.withoutSnaps gone).snaps.items.find?
                          (·.guid == snap.guid) = none := by
                        rw [List.find?_eq_none] at hcopy ⊢
                        exact fun x hx => hcopy x (List.mem_filter.mp hx).1
                      rcases h.get? source.1 with h | h <;>
                        simp [horigin, hheld, hsnap, h, hcopy, hnone]
                  | some copy =>
                      simp only [hclone, horigin, hheld, hsnap, hcopy, Option.bind_some,
                        Option.map_some] at hprotect
                      have hname := hprotect (source.1, copy.name) rfl
                      have hafter :=
                        h.held source.1 held hheld ⟨copy, List.mem_of_find?_eq_some hcopy, hname⟩
                      have hfound : (held.withoutSnaps gone).snaps.items.find? (·.guid == snap.guid)
                          = some copy := by
                        apply find?_filter_of_found hcopy
                        rw [Keyed.key_of_get? hheld]
                        simpa using h.spared _ hname
                      simp [horigin, hheld, hsnap, hcopy, hafter, hfound]

theorem trimmed_of_room {r : Request} {prune : Prune} {names : List String}
    (hprune : planPrune dest r = some prune) (hnames : names <+: spaceCandidates dest r prune) :
    Trimmed (liveDatasets dest) (liveDatasets
      ((dest.pruned prune).pruned (beyond dest r prune names))) r.protect
      ((roomRemovals dest r prune names).map Removal.target) := by
  have hget :
      ∀ rel, (liveDatasets ((dest.pruned prune).pruned (beyond dest r prune names))).get? rel =
      if treeGoes dest (emptied (roomRemovals dest r prune names)) rel = true then none
      else ((liveDatasets dest).get? rel).map
          (·.withoutSnaps ((roomRemovals dest r prune names).map Removal.target)) := by
    intro rel
    rw [liveDatasets, liveDatasets, Keyed.get?_filter, Keyed.get?_filter, get?_room hprune hnames]
    split_ifs
    · rfl
    · cases dest.get? rel with
      | none => rfl
      | some d => cases harchived : isArchived d.rel <;> simp [Option.filter, harchived]
  refine ⟨fun rel => ?_, fun name h => not_mem_protect_of_room hprune hnames h,
    fun rel d hd hprotect => ?_⟩
  · rw [hget]
    split_ifs
    · exact .inl rfl
    · exact .inr rfl
  · obtain ⟨s, hs, hprotect⟩ := hprotect
    rw [hget, if_neg, hd, Option.map_some]
    intro hgoes
    obtain ⟨top, -, hunder, -, hbelow⟩ := treeGoes_iff.mp hgoes
    obtain ⟨hmem, hrel⟩ := Keyed.get?_eq_some_iff.mp (get?_of_liveDatasets hd)
    rw [← hrel] at hunder hprotect
    rcases hbelow d hmem hunder with hempty | hempty
    · have hgone := ((emptied_iff (exact_roomRemovals hprune hnames) hmem).mp hempty).2.2 s hs
      exact not_mem_protect_of_room hprune hnames hprotect hgone
    · rw [Keyed.mem_def, hempty] at hs
      cases hs

theorem restsSafe_iff_stays {d : Dest} {p : DatasetPlan} {goes : Ref → Bool} {gone : List SnapName}
    (h : ∀ s ∈ d.snaps, goes s = true ↔ (d.rel, s.name) ∈ gone) :
    restsSafe goes d p = true ↔ Stays gone d p := by
  have hnewest : (!d.newest.any goes) = true ↔ ∀ newest, d.newest = some newest →
      (d.rel, newest.name) ∉ gone := by
    cases hnewest : d.newest with
    | none => simp
    | some newest => simp [← h newest (mem_of_newest hnewest)]
  unfold restsSafe Stays
  cases hstate : p.state with
  | atPoint | incremental | viaBookmark | modified => exact hnewest
  | rollback =>
      simp only [List.any_eq_true, Bool.and_eq_true, List.contains_iff_mem, Bool.not_eq_true']
      refine exists_congr fun s => and_congr_right fun hs => and_congr_right fun _ => ?_
      rw [← h s hs, Bool.not_eq_true]
  | _ => simp

theorem common_mem_bases {o : Origin} {d : Dest} (ho : o ∈ origin)
    (hexpected : isExpected o skip = true) (hd : dest.get? o.rel = some d) (name : String)
    (hstate : (planDataset o (some d) point).state = .rollback)
    (hcommon : (planDataset o (some d) point).common = some name) :
    (d.rel, name) ∈ bases (plan origin dest point skip) := by
  have hmem : planDataset o (some d) point ∈ plan origin dest point skip := by
    rw [← planExpected_of_held ((get?_liveDatasets (isArchived_of_isExpected hexpected)).trans hd)]
    exact mem_plan_of_expected ho hexpected
  refine List.mem_filterMap.mpr ⟨_, hmem, ?_⟩
  rw [hstate, hcommon, planDataset_rel, Keyed.key_of_get? hd]
  rfl

theorem cloneFrom_mem_bases {o : Origin} (ho : o ∈ origin) (hexpected : isExpected o skip = true)
    (hnone : (liveDatasets dest).get? o.rel = none) {name : SnapName}
    (hclone : (cloneBase { rel := o.rel, state := .new } o origin (liveDatasets dest)).cloneFrom
      = some name) :
    name ∈ bases (plan origin dest point skip) := by
  have hmem := @mem_plan_of_expected origin dest point skip o ho hexpected
  rw [planExpected_of_absent hnone] at hmem
  refine List.mem_filterMap.mpr ⟨_, hmem, ?_⟩
  rw [cloneBase_state, hclone]

/-- The plan of an expected dataset is decided as before exactly when the request lets go of nothing
it rests on. -/
theorem planExpected_room_iff {r : Request} {prune : Prune} {names : List String} {o : Origin}
    (hguids : ∀ d ∈ dest, (d.snaps.items.map Ref.guid).Nodup)
    (hprotect : r.protect = bases (plan origin dest point skip))
    (hprune : planPrune dest r = some prune) (hnames : names <+: spaceCandidates dest r prune)
    (ho : o ∈ origin) (hexpected : isExpected o skip = true) :
    (planExpected o origin (liveDatasets ((dest.pruned prune).pruned (beyond dest r prune names)))
      point).decision =
        (planExpected o origin (liveDatasets dest) point).decision ↔
      ∀ d ∈ dest.get? o.rel, treeGoes dest (cleared dest r names) o.rel = false ∧
        restsSafe (letGo dest r names d) d (planDataset o (some d) point) = true := by
  have hlive := isArchived_of_isExpected hexpected
  cases hd : dest.get? o.rel with
  | none =>
      have hnone := (get?_liveDatasets hlive).trans hd
      have htrimmed := trimmed_of_room hprune hnames
      have hafter : (liveDatasets ((dest.pruned prune).pruned (beyond dest r prune names))).get?
          o.rel = none := by
        rcases htrimmed.get? o.rel with h | h
        · exact h
        · rw [h, hnone, Option.map_none]
      rw [planExpected_of_absent hafter, planExpected_of_absent hnone, cloneBase_trimmed htrimmed]
      · simp
      · intro name hclone
        rw [hprotect]
        exact cloneFrom_mem_bases ho hexpected hnone hclone
  | some d =>
      have hmem := Keyed.mem_of_get? hd
      have hafter := get?_room hprune hnames o.rel
      simp only [Option.mem_some_iff, forall_eq', treeGoes_cleared hprune hnames]
      rw [planExpected_of_held ((get?_liveDatasets hlive).trans hd)]
      cases hgoes : treeGoes dest (emptied (roomRemovals dest r prune names)) o.rel with
      | true =>
          rw [if_pos hgoes] at hafter
          rw [planExpected_of_absent ((get?_liveDatasets hlive).trans hafter)]
          refine iff_of_false (fun hsame => ?_) (by simp)
          have hstate := congrArg Decision.state hsame
          exact planDataset_ne_new d (hstate.symm.trans (cloneBase_state _ _ _ _))
      | false =>
          rw [hgoes, if_neg Bool.false_ne_true, hd, Option.map_some] at hafter
          rw [planExpected_of_held ((get?_liveDatasets hlive).trans hafter),
            planDataset_withoutSnaps_iff (hguids d hmem), restsSafe_iff_stays fun s hs =>
              letGo_iff_mem_room hprune hmem hs]
          · simp
          · intro name hstate hcommon
            apply not_mem_protect_of_room hprune hnames
            rw [hprotect]
            exact common_mem_bases ho hexpected hd name hstate hcommon

/-- Once room is made with a request and some points of its space plan, the plan of every expected
dataset is decided as before exactly when these let go of nothing a plan rests on; and what is
applied to make room, when it is anything, is made so. -/
theorem makeRoom_keeps_plans_iff (hguids : ∀ d ∈ dest, (d.snaps.items.map Ref.guid).Nodup) :
    (∀ r names after, MadeRoom dest (bases (plan origin dest point skip)) r names after →
      ((∀ o ∈ origin, isExpected o skip = true →
        (planExpected o origin (liveDatasets after) point).decision =
        (planExpected o origin (liveDatasets dest) point).decision) ↔
        RoomSafe origin dest point skip r names)) ∧
      ∀ space policy asked frees yes prunes,
        makeRoom dest (plan origin dest point skip) space policy asked frees yes = some prunes →
          prunes = [] ∨ ∃ marks ∈ asked, ∃ names,
            MadeRoom dest (bases (plan origin dest point skip))
              { marks with policy, protect := bases (plan origin dest point skip) } names
              (prunes.foldl Drive.pruned dest) := by
  refine ⟨fun r names after hroom => ?_, fun _ _ _ _ _ _ h => makeRoom_madeRoom h⟩
  obtain ⟨hprotect, prune, hprune, hnames, rfl⟩ := hroom
  refine forall_congr' fun o => forall_congr' fun ho => forall_congr' fun hexpected => ?_
  exact planExpected_room_iff hguids hprotect hprune hnames ho hexpected

theorem newest_of_rollback {o : Origin} {d : Dest}
    (h : (planDataset o (some d) point).state = .rollback) :
    ∃ newest, d.newest = some newest ∧ newest.name ∈ (planDataset o (some d) point).newer := by
  rcases planDataset_cases o d point with ⟨-, hplan⟩ | ⟨-, hplan⟩
  · rw [hplan] at h ⊢
    have hspec := planUnwritten_spec o d point
    generalize planUnwritten o (some d) point = p at hspec h
    cases hspec with
    | rollback _ hnewest _ _ hfound =>
        obtain ⟨passed, older, -, -, -, rfl⟩ := findCommon_eq_some hfound
        exact ⟨_, hnewest, List.mem_map_of_mem
          (List.mem_append_right _ (List.mem_singleton_self _))⟩
    | _ => cases h
  · rw [hplan] at h
    cases h

/-- Where no expected dataset's copy is a kept orphan, no request lets go of what a plan rests on.
-/
theorem roomSafe_of_live (hkept : InheritsKept dest)
    (hlive : ∀ o ∈ origin, isExpected o skip = true → ∀ d ∈ dest.get? o.rel, isLive d = true)
    (r : Request) (names : List String) :
    RoomSafe origin dest point skip r names := by
  intro o ho hexpected d hd
  have hmem := Keyed.mem_of_get? hd
  have hlive' := hlive o ho hexpected d hd
  have hnewest : ∀ newest, d.newest = some newest → letGo dest r names d newest = false :=
    fun newest hn =>
      letGo_of_heldBack (heldBack_newest hlive' hn)
  constructor
  · rw [← Bool.not_eq_true]
    intro hgoes
    obtain ⟨top, htop, hunder, hempty, -⟩ := treeGoes_iff.mp hgoes
    have hdead := (cleared_iff.mp hempty).1
    rw [isLive_of_under hkept htop hmem (Keyed.key_of_get? hd ▸ hunder) hlive'] at hdead
    cases hdead
  · have hsafe : (!d.newest.any (letGo dest r names d)) = true := by
      cases h : d.newest with
      | none => rfl
      | some newest => rw [Option.any_some, hnewest newest h, Bool.not_false]
    unfold restsSafe
    cases hstate : (planDataset o (some d) point).state with
    | atPoint | incremental | viaBookmark | modified => exact hsafe
    | rollback =>
        obtain ⟨newest, hn, hnewer⟩ := newest_of_rollback hstate
        refine List.any_eq_true.mpr ⟨newest, mem_of_newest hn, ?_⟩
        rw [Bool.and_eq_true, List.contains_iff_mem, hnewest newest hn]
        exact ⟨hnewer, rfl⟩
    | _ => rfl

/-- A dataset that is back in origin, on a drive where it is a kept orphan with one old snapshot. -/
def returnedData : Origin where
  rel := ["rpool", "data"]
  snaps :=
    ⟨[⟨"autosnap_2026-01-01_00:00:00_daily", "1", 10, 1767225600⟩,
      ⟨"zark_2026-03-01_00:00:00Z", "2", 20, 1772323200⟩], by decide⟩

def returnedOrigin : Origins where
  items := [returnedData]
  nodup := by decide

def returnedDrive : Drive where
  items :=
    [{ rel := ["rpool"] },
     { rel := ["rpool", "data"]
       orphan := "kept@2026-01-15_00:00:00Z"
       snaps := ⟨[⟨"autosnap_2026-01-01_00:00:00_daily", "1", 5, 1767225600⟩], by decide⟩ }]
  nodup := by decide

def returnedMarks : Request where
  complete := []
  policy := {}
  now := 1772323200
  first := "zark_2025-12-01_00:00:00Z"

def returnedPrune : Prune where
  snapshots :=
    [⟨["rpool", "data"], "autosnap_2026-01-01_00:00:00_daily",
      "intermediate older than the window"⟩]
  datasets := [(["rpool", "data"], "kept orphan with nothing left that the policy keeps")]

/-- The drive's copy of a dataset about to be sent an incremental goes whole to make room for it. -/
theorem makeRoom_takes_returned :
    ∃ prunes,
      makeRoom returnedDrive (plan returnedOrigin returnedDrive "zark_2026-03-01_00:00:00Z" [])
        ⟨1000, 1000, 50⟩ {} (some returnedMarks) (fun _ _ => 2000) false = some prunes ∧
      ∃ o ∈ returnedOrigin, isExpected o [] = true ∧
        (planExpected o returnedOrigin (liveDatasets (prunes.foldl Drive.pruned returnedDrive))
          "zark_2026-03-01_00:00:00Z").decision ≠
        (planExpected o returnedOrigin (liveDatasets returnedDrive)
          "zark_2026-03-01_00:00:00Z").decision := by
  refine ⟨[returnedPrune], by decide, returnedData, by decide, by decide, ?_⟩
  decide

/-- With a window of a year the request takes nothing of that dataset. -/
example : RoomSafe returnedOrigin returnedDrive "zark_2026-03-01_00:00:00Z" []
      { returnedMarks with policy := { windowDays := 365 } } [] := by
  decide

/-- The same dataset where its copy is live: the older of its two snapshots goes and the plan
stays. -/
def liveDrive : Drive where
  items :=
    [{ rel := ["rpool"] },
     { rel := ["rpool", "data"]
       snaps := ⟨[⟨"autosnap_2025-12-15_00:00:00_daily", "0", 4, 1765756800⟩,
         ⟨"autosnap_2026-01-01_00:00:00_daily", "1", 5, 1767225600⟩], by decide⟩ }]
  nodup := by decide

def livePrune : Prune where
  snapshots :=
    [⟨["rpool", "data"], "autosnap_2025-12-15_00:00:00_daily",
      "intermediate older than the window"⟩]

theorem makeRoom_keeps_plans_live :
    (∀ o ∈ returnedOrigin, isExpected o [] = true →
      (planExpected o returnedOrigin
        (liveDatasets
          ((liveDrive.pruned livePrune).pruned (beyond liveDrive returnedMarks livePrune [])))
        "zark_2026-03-01_00:00:00Z").decision =
      (planExpected o returnedOrigin (liveDatasets liveDrive)
        "zark_2026-03-01_00:00:00Z").decision) ∧
      ∃ names,
        MadeRoom liveDrive (bases (plan returnedOrigin liveDrive "zark_2026-03-01_00:00:00Z" []))
          { returnedMarks with
            protect := bases (plan returnedOrigin liveDrive "zark_2026-03-01_00:00:00Z" []) } names
          ([livePrune].foldl Drive.pruned liveDrive) := by
  have hguids : ∀ d ∈ liveDrive, (d.snaps.items.map Ref.guid).Nodup := by decide
  have hkeeps :=
    @makeRoom_keeps_plans_iff returnedOrigin liveDrive "zark_2026-03-01_00:00:00Z" [] hguids
  constructor
  · apply (hkeeps.1 returnedMarks [] _ ⟨by decide, livePrune, by decide, List.nil_prefix, rfl⟩).mpr
    decide
  · have hmade :=
      hkeeps.2 ⟨1000, 1000, 50⟩ {} (some returnedMarks)
        (fun _ _ => 2000) false [livePrune] (by decide)
    rcases hmade with hnone | ⟨marks, hmarks, hmade⟩
    · cases hnone
    · cases hmarks
      exact hmade

end Plans

end Zark
