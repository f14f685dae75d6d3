import Zark.History

/-!
# Months under retention

A retention run takes nothing of the best run-complete point of a month, nor of a point all of whose
snapshots it spares. Where one of these is untouched it stays whole on the drive, run-complete and
dated as before: the sets a later run decides by see no difference in it.
-/

namespace Zark

open Hierarchy

section Step

variable {s : Standing} {r : Request} {prune : Prune} {name : String}

theorem mem_pointRefs {dest : Drive} {x : Ref} :
    x ∈ pointRefs dest ↔ isPoint x.name = true ∧ ∃ d ∈ dest, x ∈ d.snaps := by
  simp only [pointRefs, List.mem_flatMap, List.mem_filter]
  exact ⟨fun ⟨d, hd, hx, hpoint⟩ => ⟨hpoint, d, hd, hx⟩, fun ⟨hpoint, d, hd, hx⟩ =>
    ⟨d, hd, hx, hpoint⟩⟩

theorem get?_pointTimes {dest : Drive} {t : String × ℕ} :
    (pointTimes dest).get? name = some t ↔ (∃ x ∈ pointRefs dest, x.name = name) ∧
    t = (name, newestCreation (pointRefs dest) name) := by
  rw [Keyed.get?_eq_some_iff, Keyed.mem_def, pointTimes]
  simp only [List.mem_map, List.mem_dedup]
  constructor
  · rintro ⟨⟨_, ⟨x, hx, rfl⟩, rfl⟩, rfl⟩
    exact ⟨⟨x, hx, rfl⟩, rfl⟩
  · rintro ⟨⟨x, hx, rfl⟩, rfl⟩
    exact ⟨⟨_, ⟨x, hx, rfl⟩, rfl⟩, rfl⟩

theorem month_point_of_mem {dest : Drive} {complete whole : List String}
    (h : name ∈ monthlyPoints (pointTimes dest) complete whole) :
    isPoint name = true := by
  obtain ⟨p, hp, rfl⟩ := List.mem_map.mp h
  have hmem : p ∈ pointTimes dest := (List.mem_filter.mp (Best.perGroup_subset _ hp)).1
  obtain ⟨⟨x, hx, hname⟩, -⟩ := get?_pointTimes.mp (Keyed.get?_of_mem hmem)
  exact hname ▸ (mem_pointRefs.mp hx).1

/-- Without an age limit nothing of a month's point goes. -/
theorem judge_of_monthly {t : Terms} {d : Dest} {x : Ref} (hage : t.request.policy.maxAgeDays = 0)
    (hpoint : isPoint x.name = true) (hmonthly : x.name ∈ t.monthly) (reason : String) :
    t.judge d x ≠ .remove reason := by
  have htooOld : t.request.tooOld = none := if_pos hage
  have hstays : t.outsideWindow x.name = none := by
    rw [Terms.outsideWindow, snapshotKind_of_isPoint hpoint, if_neg (by decide), if_pos hmonthly]
  unfold Terms.judge
  split
  · simp
  · split
    · split <;> simp
    · rw [htooOld, hstays]
      simp only [Option.any_none, Bool.false_eq_true, if_false]
      split <;> simp

theorem not_mem_snapshots_of_monthly {dest : Drive} (h : planPrune dest r = some prune)
    (hage : r.policy.maxAgeDays = 0)
    (hmonthly : name ∈ monthlyPoints (pointTimes dest) r.complete r.wholePoints) :
    name ∉ prune.snapshots.map Removal.name := by
  intro hmem
  obtain ⟨rm, hrm, rfl⟩ := List.mem_map.mp hmem
  rcases planPrune_cases h with rfl | ⟨start, -, hsnapshots, -⟩
  · cases hrm
  rw [hsnapshots] at hrm
  obtain ⟨d, -, x, -, reason, hjudge, rfl⟩ := mem_removals.mp hrm
  exact judge_of_monthly hage (month_point_of_mem hmonthly) hmonthly reason hjudge

theorem not_mem_snapshots_of_all_spared {dest : Drive} (h : planPrune dest r = some prune)
    (hspared : ∀ d ∈ dest, ∀ x ∈ d.snaps, x.name = name → Spared dest r d x) :
    name ∉ prune.snapshots.map Removal.name := by
  intro hmem
  obtain ⟨rm, hrm, rfl⟩ := List.mem_map.mp hmem
  obtain ⟨d, hd, hrel, x, hx, hname⟩ := (exact_snapshots h).held rm hrm
  apply not_mem_snapshots_of_spared h hd hx (hspared d hd x hx hname)
  exact List.mem_map.mpr ⟨rm, hrm, by rw [Removal.target, hrel, hname]⟩

theorem rank_injective {whole : List String} {a b : String × ℕ} (h : rank whole a = rank whole b) :
    a.1 = b.1 := by
  rw [rank, rank, toLex_inj, Prod.mk.injEq, toLex_inj, Prod.mk.injEq] at h
  exact h.2.2

theorem mem_completePoints {times : Times} {complete : List String} {p : String × ℕ} :
    p ∈ completePoints times complete ↔ p ∈ times ∧ p.1 ∈ complete := by
  rw [completePoints, List.mem_filter, List.contains_iff_mem]
  rfl

/-- The point of a month is the complete one that none outranks there. -/
theorem mem_monthlyPoints_iff {times : Times} {complete whole : List String} {p : String × ℕ}
    (hp : p ∈ times) : p.1 ∈ monthlyPoints times complete whole ↔
    p.1 ∈ complete ∧ ∀ q ∈ times, q.1 ∈ complete → month q.2 = month p.2 →
    rank whole q ≤ rank whole p := by
  have hbest : ∀ q, q ∈ Best.perGroup (fun point => month point.2) (rank whole)
      (completePoints times complete) ↔
      q ∈ completePoints times complete ∧ ∀ b ∈ completePoints times complete,
      month b.2 = month q.2 → rank whole b ≤ rank whole q :=
    fun q => Best.mem_perGroup_iff fun a ha b hb heq =>
      Keyed.eq_of_key (mem_completePoints.mp ha).1 (mem_completePoints.mp hb).1 (rank_injective heq)
  rw [monthlyPoints, List.mem_map]
  simp only [hbest, mem_completePoints, and_imp]
  constructor
  · rintro ⟨q, ⟨⟨hq, hcomplete⟩, hmax⟩, hname⟩
    obtain rfl : q = p := Keyed.eq_of_key hq hp hname
    exact ⟨hcomplete, hmax⟩
  · rintro ⟨hcomplete, hmax⟩
    exact ⟨p, ⟨⟨hp, hcomplete⟩, hmax⟩, rfl⟩

theorem mem_monthlyPoints {dest : Drive} {complete whole : List String} {t : String × ℕ}
    (ht : (pointTimes dest).get? name = some t) (hcomplete : name ∈ complete)
    (hbest : ∀ t' ∈ completePoints (pointTimes dest) complete, month t'.2 = month t.2 →
      rank whole t' ≤ rank whole t) :
    name ∈ monthlyPoints (pointTimes dest) complete whole := by
  obtain ⟨hmem, rfl⟩ := Keyed.get?_eq_some_iff.mp ht
  exact (mem_monthlyPoints_iff hmem).mpr ⟨hcomplete, fun q hq hq' hmonth =>
    hbest q (mem_completePoints.mpr ⟨hq, hq'⟩) hmonth⟩

theorem mem_pruned_iff {dest : Drive} (h : planPrune dest r = some prune)
    (hname : name ∉ prune.snapshots.map Removal.name) {rel : Rel} {x : Ref} (hx : x.name = name) :
    (∃ e ∈ dest.pruned prune, e.rel = rel ∧ x ∈ e.snaps) ↔
    ∃ d ∈ dest, d.rel = rel ∧ x ∈ d.snaps := by
  constructor
  · rintro ⟨e, he, hrel, hmem⟩
    obtain ⟨d, hd, rfl, -⟩ := mem_destroyed.mp he
    exact ⟨d, hd, hrel, (Dest.mem_withoutSnaps.mp hmem).1⟩
  · rintro ⟨d, hd, rfl, hmem⟩
    have hstays : (d.rel, x.name) ∉ prune.snapshots.map Removal.target := by
      intro hgone
      obtain ⟨rm, hrm, htarget⟩ := List.mem_map.mp hgone
      exact hname (List.mem_map.mpr ⟨rm, hrm, (congrArg Prod.snd htarget).trans hx⟩)
    refine ⟨_, mem_destroyed.mpr ⟨d, hd, rfl, fun top htop hunder => ?_⟩, rfl,
      Dest.mem_withoutSnaps.mpr ⟨hmem, hstays⟩⟩
    obtain ⟨e, -, rfl, -, hbelow⟩ := emptied_of_mem_wholeDatasets (whole_of_mem_datasets h htop)
    rcases hbelow d hd hunder with hempty | hempty
    · exact hstays (((emptied_iff (exact_snapshots h) hd).mp hempty).2.2 x hmem)
    · rw [Keyed.mem_def, hempty] at hmem
      cases hmem

theorem get?_pointTimes_pruned {dest : Drive} (h : planPrune dest r = some prune)
    (hname : name ∉ prune.snapshots.map Removal.name) {t : String × ℕ}
    (ht : (pointTimes dest).get? name = some t) :
    (pointTimes (dest.pruned prune)).get? name = some t := by
  obtain ⟨⟨x, hx, hxname⟩, rfl⟩ := get?_pointTimes.mp ht
  have hsame : ∀ y : Ref, y.name = name →
      (y ∈ pointRefs (dest.pruned prune) ↔ y ∈ pointRefs dest) := by
    intro y hy
    rw [mem_pointRefs, mem_pointRefs]
    refine and_congr_right fun _ => ⟨fun ⟨e, he, hmem⟩ => ?_, fun ⟨d, hd, hmem⟩ => ?_⟩
    · obtain ⟨d, hd, -, hmem⟩ := (mem_pruned_iff h hname hy).mp ⟨e, he, rfl, hmem⟩
      exact ⟨d, hd, hmem⟩
    · obtain ⟨e, he, -, hmem⟩ := (mem_pruned_iff h hname hy).mpr ⟨d, hd, rfl, hmem⟩
      exact ⟨e, he, hmem⟩
  refine get?_pointTimes.mpr ⟨⟨x, (hsame x hxname).mpr hx, hxname⟩, Prod.ext rfl ?_⟩
  apply foldl_max_congr
  · intro y hy
    obtain ⟨hy, hyname⟩ := List.mem_filter.mp hy
    rw [decide_eq_true_eq] at hyname
    exact ⟨y, List.mem_filter.mpr ⟨(hsame y hyname).mpr hy, by simpa using hyname⟩, le_rfl⟩
  · intro y hy
    obtain ⟨hy, hyname⟩ := List.mem_filter.mp hy
    rw [decide_eq_true_eq] at hyname
    exact ⟨y, List.mem_filter.mpr ⟨(hsame y hyname).mp hy, by simpa using hyname⟩, le_rfl⟩

theorem without_pruned {dest : Drive} (marks : Marks) (h : planPrune dest r = some prune)
    (hname : name ∉ prune.snapshots.map Removal.name) :
    Without (driveSnapshots dest marks) (driveSnapshots (dest.pruned prune) marks) name := by
  constructor
  · intro x hx
    obtain ⟨e, he, y, hy, rfl⟩ := mem_driveSnapshots.mp hx
    obtain ⟨d, hd, rfl, -⟩ := mem_destroyed.mp he
    exact mem_driveSnapshots.mpr ⟨d, hd, y, (Dest.mem_withoutSnaps.mp hy).1, rfl⟩
  · intro x hx hxname
    obtain ⟨d, hd, y, hy, rfl⟩ := mem_driveSnapshots.mp hx
    obtain ⟨e, he, hrel, hmem⟩ := (mem_pruned_iff h hname hxname).mpr ⟨d, hd, rfl, hy⟩
    refine mem_driveSnapshots.mpr ⟨e, he, y, hmem, ?_⟩
    simp [snapOf, hrel]

theorem untouched_retained {s : Standing} {m : ℕ × ℕ} {now : ℤ}
    (h : planPrune s.dest r = some prune) (hname : name ∉ prune.snapshots.map Removal.name)
    (huntouched : s.untouched m name) : (s.retained now prune).untouched m name := by
  obtain ⟨hrun, htouched, hmonth⟩ := huntouched
  obtain ⟨t, ht, hm⟩ := Option.map_eq_some_iff.mp hmonth
  refine ⟨(without_pruned s.marks h hname).runComplete hrun, ?_, ?_⟩
  · exact fun hmem => (List.mem_append.mp hmem).elim htouched hname
  · show ((pointTimes (s.dest.pruned prune)).get? name).map _ = some m
    rw [get?_pointTimes_pruned h hname ht, Option.map_some, hm]

/-- A retention run keeps the months it is safe for. -/
theorem monthsKept_of_safe {s : Standing} {now : ℤ} (h : planPrune s.dest r = some prune)
    (hage : r.policy.maxAgeDays = 0) (hcomplete : r.complete = s.runComplete)
    (hsafe : MonthsSafe s r) : MonthsKept s (s.retained now prune) := by
  intro m name hname
  obtain ⟨best, hbest, hstays⟩ := hsafe m name hname
  refine ⟨best, untouched_retained h ?_ hbest⟩
  rcases hstays with hranks | hspared
  · obtain ⟨hrun, -, hmonth⟩ := hbest
    obtain ⟨t, ht, rfl⟩ := Option.map_eq_some_iff.mp hmonth
    apply not_mem_snapshots_of_monthly h hage
    exact mem_monthlyPoints ht (hcomplete ▸ hrun) fun t' ht' hmonth => hranks t t' ht ht' hmonth
  · exact not_mem_snapshots_of_all_spared h hspared

end Step

/-! ### Whole histories -/

/-- In every history each of whose retention runs is safe for the months, each of them keeps the
months. -/
theorem months_kept {start : Standing} {events : Events} (hrun : IsRun start events)
    (hsafe : EachRetention (fun s r _ => MonthsSafe s r) start events) :
    EachRetention (fun s _ s' => MonthsKept s s') start events := by
  induction events generalizing start with
  | nil => trivial
  | cons event rest ih =>
      obtain ⟨event, after⟩ := event
      obtain ⟨hnext, hrest⟩ := hrun
      cases hnext with
      | retention hnow hage hprune =>
          exact ⟨monthsKept_of_safe hprune hage rfl hsafe.1, ih hrest hsafe.2⟩
      | backup => exact ih hrest hsafe
      | removal => exact ih hrest hsafe

/-- Each point of a month the only run-complete one: a safe retention run. -/
theorem monthsSafe_of_alone {s : Standing} {r : Request}
    (h : ∀ t ∈ (pointTimes s.dest).items, ∀ t' ∈ (pointTimes s.dest).items, month t'.2 = month t.2 →
      t' = t) : MonthsSafe s r := by
  intro m name hname
  refine ⟨name, hname, .inl fun t t' ht ht' hmonth => ?_⟩
  obtain ⟨u, hu, hm⟩ := Option.map_eq_some_iff.mp hname.2.2
  obtain rfl : t = u := Option.some.inj (ht.symm.trans hu)
  rw [h t (Keyed.mem_of_get? ht) t' (List.mem_filter.mp ht').1 (hmonth.trans hm.symm)]

/-- Two points of different months, outside the window and in it. -/
def quarter : Standing where
  dest :=
    { items := [{ rel := ["rpool", "home"], snaps := ⟨[⟨"zark_2026-01-20_00:00:00Z", "1", 10, 1768867200⟩,
        ⟨"autosnap_2026-01-21_00:00:00_daily", "2", 15, 1768953600⟩,
        ⟨"zark_2026-03-14_00:00:00Z", "3", 20, 1773446400⟩], by decide⟩ }]
      nodup := by decide }
  marks x := if isPoint x.2 then "1" else ""
  lastPoint := "zark_2026-03-14_00:00:00Z"

def quarterPrune : Prune where
  snapshots :=
    [⟨["rpool", "home"], "autosnap_2026-01-21_00:00:00_daily",
      "intermediate older than the window"⟩]

def quarterEvents : Events :=
  [(.retention 1773532800 {} [], quarter.retained 1773532800 quarterPrune)]

theorem months_kept_quarter : EachRetention (fun s _ s' => MonthsKept s s') quarter quarterEvents :=
  months_kept ⟨.retention (by decide) rfl (by decide), trivial⟩
    ⟨monthsSafe_of_alone (by decide), trivial⟩

/-! ### A month that loses its untouched points -/

/-- A dataset left on the drive with the first point only, one with a snapshot of its own between
the points, and one with both. -/
def january : Standing where
  dest :=
    { items :=
        [{ rel := ["rpool", "old"],
           snaps := ⟨[⟨"zark_2026-01-05_00:00:00Z", "1", 10, 1767571200⟩], by decide⟩ },
         { rel := ["rpool", "home"]
           snaps :=
             ⟨[⟨"zark_2026-01-05_00:00:00Z", "2", 10, 1767571200⟩,
               ⟨"before-upgrade", "3", 15, 1768000000⟩, ⟨"zark_2026-01-20_00:00:00Z", "4", 20,
                 1768867200⟩, ⟨"zark_2026-03-14_00:00:00Z", "5", 30, 1773446400⟩], by decide⟩ },
         { rel := ["rpool", "data"]
           snaps :=
             ⟨[⟨"zark_2026-01-05_00:00:00Z", "6", 10, 1767571200⟩,
               ⟨"zark_2026-01-20_00:00:00Z", "7", 20, 1768867200⟩,
               ⟨"zark_2026-03-14_00:00:00Z", "8", 30, 1773446400⟩], by decide⟩ }]
      nodup := by decide }
  marks x := if x.2 = "zark_2026-01-05_00:00:00Z" then "3" else if isPoint x.2 then "2" else ""
  lastPoint := "zark_2026-03-14_00:00:00Z"

/-- The first point goes but for the dataset it is the newest snapshot of. -/
def januaryPrune : Prune where
  snapshots :=
    [⟨["rpool", "data"], "zark_2026-01-05_00:00:00Z",
     "older than the window, not its month's newest complete point"⟩, ⟨["rpool", "home"],
       "zark_2026-01-05_00:00:00Z", "older than the window, not its month's newest complete point"⟩]

/-- The second point of one dataset is destroyed by hand. -/
def januaryRemoved : Standing :=
  { january.retained 1773532800 januaryPrune with
    dest :=
      { items :=
          [{ rel := ["rpool", "old"],
             snaps := ⟨[⟨"zark_2026-01-05_00:00:00Z", "1", 10, 1767571200⟩], by decide⟩ },
           { rel := ["rpool", "home"]
             snaps :=
               ⟨[⟨"before-upgrade", "3", 15, 1768000000⟩,
                 ⟨"zark_2026-03-14_00:00:00Z", "5", 30, 1773446400⟩], by decide⟩ },
           { rel := ["rpool", "data"]
             snaps :=
               ⟨[⟨"zark_2026-01-20_00:00:00Z", "7", 20, 1768867200⟩,
                 ⟨"zark_2026-03-14_00:00:00Z", "8", 30, 1773446400⟩], by decide⟩ }]
        nodup := by decide } }

/-- The first point, that no dataset skipped, takes the month. -/
def januaryPruneAgain : Prune where
  snapshots :=
    [⟨["rpool", "data"], "zark_2026-01-20_00:00:00Z",
      "older than the window, not its month's newest complete point"⟩]

def januaryEvents : Events :=
  [(.retention 1773532800 {} [], january.retained 1773532800 januaryPrune),
   (.removal, januaryRemoved),
   (.retention 1773619200 {} [], januaryRemoved.retained 1773619200 januaryPruneAgain)]

theorem months_kept_misses_january : january.touched = [] ∧ IsRun january januaryEvents ∧
    ¬EachRetention (fun s _ s' => MonthsKept s s') january januaryEvents := by
  refine ⟨rfl, ⟨.retention (by decide) rfl (by decide), .removal (by decide),
    .retention (by decide) rfl (by decide), trivial⟩, ?_⟩
  intro h
  obtain ⟨kept, hkept⟩ := h.2.1 (2026, 1) "zark_2026-01-20_00:00:00Z" (by decide)
  have hnone : ∀ kept ∈ (januaryRemoved.retained 1773619200 januaryPruneAgain).runComplete,
      ¬(januaryRemoved.retained 1773619200 januaryPruneAgain).untouched (2026, 1) kept := by decide
  exact hnone kept hkept.1 hkept

end Zark
