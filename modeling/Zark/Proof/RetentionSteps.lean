import Zark.RetentionSteps
import Zark.Proof.Months
import Zark.Proof.SpacePlan

/-!
# Retention in steps and at once

What is held back stays in every pass, so a point that leaves is gone for all later judgements but
for its date. The first pass takes no more than the later one alone would, and it takes no newest
snapshot of a live dataset, so that everything a judgement rests on is the same after it except the
dates of points cut down, and with them the months they stand for and the start of the drive's
history.
-/

namespace Zark

open Hierarchy

/-! ### Judgements -/

theorem terms_keepPoint (dest : Drive) (r : Request) (start : ℤ) :
    (terms dest r start).keepPoint = newestComplete
    (pointTimes dest) r.complete r.wholePoints := rfl

theorem terms_tooOld (dest : Drive) (r : Request) (start : ℤ) (w : ℕ) :
    (terms dest r start).TooOld w ↔ (r.tooOld.any fun limit => decide ((w : ℤ) < limit))
      = true := Iff.rfl

section Judgements

variable {dest : Drive} {t : Terms} {d : Dest} {s : Ref}

theorem isLive_of_clears (h : t.Clears d) (hsome : d.snaps.items ≠ []) : isLive d = false := by
  rw [← Bool.not_eq_true]
  intro hlive
  obtain ⟨n, hn⟩ : ∃ n, d.newest = some n := ⟨_, List.getLast?_eq_some_getLast hsome⟩
  exact absurd ((h n (mem_of_newest hn)).free) (by simp [heldBack_newest hlive hn])

/-- What may lie in a tree that goes whole is cleared. -/
theorem emptied_or_nil_iff (hd : d ∈ dest) :
    emptied (t.removals dest) d = true ∨ d.snaps.items = [] ↔ t.Clears d := by
  rw [emptied_iff (exact_removals t dest) hd]
  constructor
  · rintro (⟨-, -, hall⟩ | hnone) s hs
    · exact (mem_removals_iff hd hs).mp (hall s hs)
    · rw [Keyed.mem_def, hnone] at hs
      cases hs
  · intro h
    by_cases hnone : d.snaps.items = []
    · exact .inr hnone
    · exact .inl ⟨isLive_of_clears h hnone, hnone, fun s hs =>
        (mem_removals_iff hd hs).mpr (h s hs)⟩

theorem treeGoes_removals_iff {rel : Rel} :
    treeGoes dest (emptied (t.removals dest)) rel = true ↔
    ∃ top ∈ dest, Under rel top.rel ∧ t.Fells dest top := by
  rw [treeGoes_iff]
  refine exists_congr fun top => and_congr_right fun htop => and_congr_right fun _ => ?_
  constructor
  · rintro ⟨hempty, hbelow⟩
    obtain ⟨hdead, hsome, -⟩ := (emptied_iff (exact_removals t dest) htop).mp hempty
    exact ⟨hdead, hsome, fun e he hunder => (emptied_or_nil_iff he).mp (hbelow e he hunder)⟩
  · intro h
    have hclears := h.tree top htop List.prefix_rfl
    exact ⟨((emptied_or_nil_iff htop).mpr hclears).resolve_right h.filled, fun e he hunder =>
      (emptied_or_nil_iff he).mpr (h.tree e he hunder)⟩

theorem clears_of_treeGoes (hd : d ∈ dest)
    (h : treeGoes dest (emptied (t.removals dest)) d.rel = true) : t.Clears d := by
  obtain ⟨top, -, hunder, hfells⟩ := treeGoes_removals_iff.mp h
  exact hfells.tree d hd hunder

end Judgements

/-! ### Points and their dates -/

section Points

variable {dest : Drive}

/-- A point is dated by the newest of its snapshots. -/
theorem mem_pointTimes_iff {p : String × ℕ} : p ∈ pointTimes dest ↔
    isPoint p.1 = true ∧ (∃ d ∈ dest, ∃ s ∈ d.snaps, s.name = p.1 ∧ s.creation = p.2) ∧
      ∀ d ∈ dest, ∀ s ∈ d.snaps, s.name = p.1 → s.creation ≤ p.2 := by
  have hle : isPoint p.1 = true → ∀ bound, newestCreation (pointRefs dest) p.1 ≤ bound ↔
      ∀ d ∈ dest, ∀ s ∈ d.snaps, s.name = p.1 → s.creation ≤ bound := by
    intro hpoint bound
    rw [newestCreation, Best.foldl_max_le_iff, and_iff_right (Nat.zero_le _)]
    simp only [List.mem_filter, mem_pointRefs, decide_eq_true_eq]
    exact ⟨fun h d hd s hs hname => h s ⟨⟨hname ▸ hpoint, d, hd, hs⟩, hname⟩,
      fun h s ⟨⟨_, d, hd, hs⟩, hname⟩ => h d hd s hs hname⟩
  constructor
  · intro hp
    obtain ⟨⟨x, hx, hname⟩, htime⟩ := get?_pointTimes.mp (Keyed.get?_of_mem hp)
    have hpoint : isPoint p.1 = true := hname ▸ (mem_pointRefs.mp hx).1
    have hdate : p.2 = newestCreation (pointRefs dest) p.1 := congrArg Prod.snd htime
    refine ⟨hpoint, ?_, (hle hpoint _).mp hdate.symm.le⟩
    obtain ⟨s, hs, hnewest⟩ := Best.exists_eq_foldl_max (f := Ref.creation)
      (List.ne_nil_of_mem (List.mem_filter.mpr ⟨hx, decide_eq_true hname⟩ :
        x ∈ (pointRefs dest).filter (·.name = p.1)))
    obtain ⟨hs, hsname⟩ := List.mem_filter.mp hs
    obtain ⟨-, d, hd, hs⟩ := mem_pointRefs.mp hs
    exact ⟨d, hd, s, hs, by simpa using hsname, hnewest.trans hdate.symm⟩
  · rintro ⟨hpoint, ⟨d, hd, s, hs, hname, hdate⟩, hmax⟩
    refine Keyed.mem_of_get? (get?_pointTimes.mpr
      ⟨⟨s, mem_pointRefs.mpr ⟨hname ▸ hpoint, d, hd, hs⟩, hname⟩, Prod.ext rfl ?_⟩)
    refine le_antisymm ?_ ((hle hpoint _).mpr hmax)
    rw [← hdate]
    exact (hle hpoint _).mp le_rfl d hd s hs hname

theorem exists_mem_pointTimes {d : Dest} {s : Ref} (hd : d ∈ dest) (hs : s ∈ d.snaps)
    (hpoint : isPoint s.name = true) :
    ∃ w, (s.name, w) ∈ pointTimes dest ∧ dated (pointTimes dest) s = w := by
  have hget := get?_pointTimes.mpr ⟨⟨s, mem_pointRefs.mpr ⟨hpoint, d, hd, hs⟩, rfl⟩, rfl⟩
  refine ⟨_, Keyed.mem_of_get? hget, ?_⟩
  rw [dated, snapshotKind_of_isPoint hpoint, hget]
  rfl

theorem date_unique {times : Times} {name : String} {w w' : ℕ} (h : (name, w) ∈ times)
    (h' : (name, w') ∈ times) : w = w' :=
  congrArg Prod.snd (Keyed.eq_of_key h h' rfl)

theorem dated_of_mem {times : Times} {s : Ref} {w : ℕ} (hpoint : isPoint s.name = true)
    (h : (s.name, w) ∈ times) : dated times s = w := by
  rw [dated, snapshotKind_of_isPoint hpoint, Keyed.get?_of_mem h]
  rfl

theorem dated_of_not_point {times : Times} {s : Ref} (h : snapshotKind s.name ≠ .point) :
    dated times s = s.creation := by
  unfold dated
  split
  · exact absurd ‹_› h
  · rfl

/-! ### The points of the months -/

variable {times : Times} {complete whole : List String}

theorem rank_mono {name : String} {w w' : ℕ} (h : w ≤ w') :
    rank whole (name, w) ≤ rank whole (name, w') := by
  rw [rank, rank, Prod.Lex.toLex_le_toLex]
  refine .inr ⟨rfl, Prod.Lex.toLex_le_toLex.mpr ?_⟩
  exact h.lt_or_eq.imp_right fun heq => ⟨heq, le_rfl⟩

theorem newestComplete_eq_some_iff {p : String × ℕ} (hp : p ∈ times) :
    newestComplete times complete whole = some p.1 ↔
    p.1 ∈ complete ∧ ∀ q ∈ times, q.1 ∈ complete → rank whole q ≤ rank whole p := by
  rw [newestComplete, Option.map_eq_some_iff]
  constructor
  · rintro ⟨q, hq, hname⟩
    obtain ⟨hmem, hcomplete⟩ := mem_completePoints.mp (List.argmax_mem hq)
    obtain rfl : q = p := Keyed.eq_of_key hmem hp hname
    exact ⟨hcomplete, fun q' hq' hcomplete' =>
      List.le_of_mem_argmax (mem_completePoints.mpr ⟨hq', hcomplete'⟩) hq⟩
  · rintro ⟨hcomplete, hmax⟩
    cases hbest : (completePoints times complete).argmax (rank whole) with
    | none =>
        have hnone := List.argmax_eq_none.mp hbest
        have := mem_completePoints.mpr ⟨hp, hcomplete⟩
        rw [hnone] at this
        cases this
    | some q =>
        obtain ⟨hmem, hq⟩ := mem_completePoints.mp (List.argmax_mem hbest)
        have hle := List.le_of_mem_argmax (mem_completePoints.mpr ⟨hp, hcomplete⟩) hbest
        exact ⟨q, rfl, rank_injective (le_antisymm (hmax q hmem hq) hle)⟩

theorem exists_of_newestComplete {name : String}
    (h : newestComplete times complete whole = some name) : ∃ p ∈ times, p.1 = name := by
  obtain ⟨p, hp, rfl⟩ := Option.map_eq_some_iff.mp h
  exact ⟨p, (mem_completePoints.mp (List.argmax_mem hp)).1, rfl⟩

end Points

/-! ### One pass -/

section Pass

variable {dest : Drive} {r : Request} {start : ℤ}

theorem firstPointTime_recorded {recorded : String} {first : ℤ} (hpoint : isPoint recorded = true)
    (hdate : parsePoint recorded = some first) (times : Times) :
    ∃ start, firstPointTime times recorded = some (some start) ∧ ∀ c : ℤ, start ≤ c ↔
    first ≤ c ∨ ∃ q ∈ times, (q.2 : ℤ) ≤ c := by
  have hne : times.items.map (fun point => (point.2 : ℤ)) ++ [first] ≠ [] := by simp
  obtain ⟨start, hstart⟩ := Option.isSome_iff_exists.mp (List.isSome_min?_of_ne_nil hne)
  obtain ⟨hmem, hmin⟩ := List.min?_eq_some_iff.mp hstart
  refine ⟨start, by simp [firstPointTime, hpoint, hdate, hstart], fun c => ⟨fun hle => ?_, ?_⟩⟩
  · rcases List.mem_append.mp hmem with hmem | hmem
    · obtain ⟨q, hq, rfl⟩ := List.mem_map.mp hmem
      exact .inr ⟨q, hq, hle⟩
    · exact .inl (List.mem_singleton.mp hmem ▸ hle)
  · rintro (hle | ⟨q, hq, hle⟩)
    · exact (hmin first (by simp)).trans hle
    · exact (hmin q.2 (List.mem_append_left _ (List.mem_map_of_mem hq))).trans hle

theorem RecordedFirst.firstPointTime {first : ℤ} (h : RecordedFirst dest r first) :
    firstPointTime (pointTimes dest) r.first = some (some first) := by
  obtain ⟨start, hstart, hiff⟩ := firstPointTime_recorded h.point h.date (pointTimes dest)
  have hle : start ≤ first := (hiff first).mpr (.inl le_rfl)
  obtain hge | ⟨q, hq, hge⟩ := (hiff start).mp le_rfl
  · rw [hstart, le_antisymm hle hge]
  · rw [hstart, le_antisymm hle ((h.before q hq).trans hge)]

/-- What a prune leaves, once it has a first point. -/
theorem planPrune_left (h : firstPointTime (pointTimes dest) r.first = some (some start)) :
    (planPrune dest r).map dest.pruned = some ((terms dest r start).left dest) := by
  rw [planPrune, h]
  rfl

theorem Terms.get?_left {t : Terms} (rel : Rel) : (t.left dest).get? rel =
    if treeGoes dest (emptied (t.removals dest)) rel = true then
      none
    else (dest.get? rel).map (t.cut dest) := by
  rw [Terms.left, get?_destroyed, covered_wholeDatasets]
  rfl

theorem Terms.mem_left {t : Terms} {e : Dest} : e ∈ t.left dest ↔
    ∃ d ∈ dest, t.cut dest d = e ∧ treeGoes dest (emptied (t.removals dest)) d.rel = false := by
  rw [Terms.left, mem_destroyed]
  refine exists_congr fun d => and_congr_right fun _ => and_congr_right fun _ => ?_
  rw [← covered_wholeDatasets, ← Bool.not_eq_true, covered_iff]
  exact ⟨fun h ⟨top, htop, hunder⟩ => h top htop hunder, fun h top htop hunder =>
    h ⟨top, htop, hunder⟩⟩

theorem Terms.mem_cut {t : Terms} {d : Dest} {s : Ref} (hd : d ∈ dest) :
    s ∈ (t.cut dest d).snaps ↔ s ∈ d.snaps ∧ ¬t.Takes d s := by
  rw [Terms.cut, Dest.mem_withoutSnaps]
  exact and_congr_right fun hs => not_congr (mem_removals_iff hd hs)

theorem cut_mem_left {t : Terms} {d : Dest} {s : Ref} (hd : d ∈ dest) (hs : s ∈ d.snaps)
    (hstays : ¬t.Takes d s) :
    t.cut dest d ∈ t.left dest :=
  Terms.mem_left.mpr ⟨d, hd, rfl, by
    rw [← Bool.not_eq_true]
    exact fun hgoes => hstays (clears_of_treeGoes hd hgoes s hs)⟩

theorem exists_mem_left_iff {t : Terms} {p : Ref → Prop} :
    (∃ e ∈ t.left dest, ∃ s ∈ e.snaps, p s) ↔ ∃ d ∈ dest, ∃ s ∈ d.snaps, ¬t.Takes d s ∧ p s := by
  constructor
  · rintro ⟨e, he, s, hs, hp⟩
    obtain ⟨d, hd, rfl, -⟩ := Terms.mem_left.mp he
    obtain ⟨hs, hstays⟩ := (Terms.mem_cut hd).mp hs
    exact ⟨d, hd, s, hs, hstays, hp⟩
  · rintro ⟨d, hd, s, hs, hstays, hp⟩
    exact ⟨_, cut_mem_left hd hs hstays, s, (Terms.mem_cut hd).mpr ⟨hs, hstays⟩, hp⟩

theorem survives_left_iff {t : Terms} {d : Dest} {s : Ref} (hd : d ∈ dest) (hs : s ∈ d.snaps) :
    Survives (t.left dest) d s ↔ ¬t.Takes d s := by
  constructor
  · rintro ⟨e, he, hrel, hmem⟩
    obtain ⟨d', hd', rfl, -⟩ := Terms.mem_left.mp he
    obtain rfl : d' = d := Keyed.eq_of_key hd' hd hrel
    exact ((Terms.mem_cut hd).mp hmem).2
  · exact fun hstays => ⟨_, cut_mem_left hd hs hstays, rfl, (Terms.mem_cut hd).mpr ⟨hs, hstays⟩⟩

theorem heldBack_cut {t : Terms} {d : Dest} {s : Ref} (hd : d ∈ dest) :
    heldBack t.request (t.cut dest d) s = heldBack t.request d s := by
  have hnewest : (if isLive (t.cut dest d) then (t.cut dest d).newest else none) =
      if isLive d then d.newest else none := by
    change (if isLive d then _ else none) = _
    split
    · rename_i hlive
      cases hn : d.newest with
      | none => exact newest_withoutSnaps_of_none hn
      | some n =>
          refine newest_withoutSnaps hn fun hgone => ?_
          have htakes := (mem_removals_iff hd (mem_of_newest hn)).mp hgone
          exact absurd htakes.free (by simp [heldBack_newest hlive hn])
    · rfl
  rw [heldBack, hnewest]
  rfl

/-! ### Dates after a pass -/

section Dates

variable (hbefore : ∀ p ∈ pointTimes dest, start ≤ p.2)

include hbefore

theorem takes_point_iff {d : Dest} {s : Ref} {w : ℕ} (hp : (s.name, w) ∈ pointTimes dest) :
    (terms dest r start).Takes d s ↔ heldBack r d s = false ∧ (terms dest r start).Leaves
    (s.name, w) := by
  have hpoint := (mem_pointTimes_iff.mp hp).1
  have hdated : dated (terms dest r start).times s = w := dated_of_mem hpoint hp
  constructor
  · intro h
    exact ⟨h.free, h.other, hdated ▸ h.due⟩
  · rintro ⟨hfree, hother, hdue⟩
    refine ⟨?_, hdated.symm ▸ hbefore _ hp, hfree, hother, hdated.symm ▸ hdue⟩
    rw [snapshotKind_of_isPoint hpoint]
    decide

/-- A point that stays keeps its date; one that leaves is dated by what is held back of it. -/
theorem mem_pointTimes_left_iff {q : String × ℕ} :
    q ∈ pointTimes ((terms dest r start).left dest) ↔ DatedThen dest (terms dest r start) q := by
  obtain ⟨name, w⟩ := q
  have hheld : (name, w) ∈ pointTimes (dest.held r) ↔ isPoint name = true ∧
      (∃ d ∈ dest, ∃ s ∈ d.snaps, heldBack r d s = true ∧ s.name = name ∧ s.creation = w) ∧
        ∀ d ∈ dest, ∀ s ∈ d.snaps, heldBack r d s = true → s.name = name → s.creation ≤ w := by
    rw [mem_pointTimes_iff]
    simp only [Drive.held, Keyed.mem_map, exists_exists_and_eq_and, forall_exists_index, and_imp,
      forall_apply_eq_imp_iff₂, Keyed.mem_filter, and_assoc]
  have hleft : ∀ stays : Dest → Ref → Prop,
      (∀ d ∈ dest, ∀ s ∈ d.snaps, s.name = name → (¬(terms dest r start).Takes d s ↔ stays d s)) →
        ((name, w) ∈ pointTimes ((terms dest r start).left dest) ↔ isPoint name = true ∧
          (∃ d ∈ dest, ∃ s ∈ d.snaps, stays d s ∧ s.name = name ∧ s.creation = w) ∧
            ∀ d ∈ dest, ∀ s ∈ d.snaps, stays d s → s.name = name → s.creation ≤ w) := by
    intro stays hstays
    have hnewer :=
      not_congr (@exists_mem_left_iff dest (terms dest r start) fun s => s.name = name ∧
        w < s.creation)
    push Not at hnewer
    rw [mem_pointTimes_iff, exists_mem_left_iff]
    refine and_congr_right fun _ => and_congr ?_ (hnewer.trans ?_)
    · refine exists_congr fun d => and_congr_right fun hd => exists_congr fun s =>
        and_congr_right fun hs => ?_
      exact and_congr_left fun h => hstays d hd s hs h.1
    · refine forall₂_congr fun d hd => forall₂_congr fun s hs => ?_
      exact ⟨fun h hstay hname => h ((hstays d hd s hs hname).mpr hstay) hname,
        fun h hstay hname => h ((hstays d hd s hs hname).mp hstay) hname⟩
  by_cases hdate : ∃ w₀, (name, w₀) ∈ pointTimes dest
  · obtain ⟨w₀, hw₀⟩ := hdate
    have htakes : ∀ d ∈ dest, ∀ s ∈ d.snaps, s.name = name →
        (¬(terms dest r start).Takes d s ↔
            ((terms dest r start).Leaves (name, w₀) → heldBack r d s = true)) := by
      rintro d hd s hs rfl
      rw [takes_point_iff hbefore hw₀]
      cases heldBack r d s <;> simp
    by_cases hleaves : (terms dest r start).Leaves (name, w₀)
    · rw [hleft (fun d s => heldBack r d s = true)
        fun d hd s hs hname => by rw [htakes d hd s hs hname, forall_prop_of_true hleaves], ← hheld]
      constructor
      · exact fun hmem => .inr ⟨hmem, w₀, hw₀, hleaves⟩
      · rintro (⟨hmem, hnot⟩ | hcut)
        · obtain rfl := date_unique hmem hw₀
          exact absurd hleaves hnot
        · exact hcut.held
    · rw [hleft (fun _ _ =>
        True) fun d hd s hs hname => by rw [htakes d hd s hs hname, forall_prop_of_false hleaves]]
      simp only [true_and, forall_const]
      rw [← mem_pointTimes_iff (p := (name, w))]
      constructor
      · exact fun hmem => .inl ⟨hmem, fun h => hleaves (date_unique hmem hw₀ ▸ h)⟩
      · rintro (⟨hmem, -⟩ | ⟨-, w₁, hmem, h⟩)
        · exact hmem
        · exact absurd (date_unique hmem hw₀ ▸ h) hleaves
  · constructor
    · intro hmem
      obtain ⟨hpoint, hsome, -⟩ := mem_pointTimes_iff.mp hmem
      obtain ⟨d, hd, s, hs, -, rfl, -⟩ := exists_mem_left_iff.mp hsome
      obtain ⟨w₀, hw₀, -⟩ := exists_mem_pointTimes hd hs hpoint
      exact absurd ⟨w₀, hw₀⟩ hdate
    · rintro (⟨hmem, -⟩ | ⟨-, w₀, hw₀, -⟩)
      · exact absurd ⟨w, hmem⟩ hdate
      · exact absurd ⟨w₀, hw₀⟩ hdate

omit hbefore in
/-- No point is dated later than before. -/
theorem DatedThen.le {t : Terms} {q : String × ℕ} (h : DatedThen dest t q) :
    ∃ w, (q.1, w) ∈ pointTimes dest ∧ q.2 ≤ w := by
  obtain ⟨hmem, -⟩ | ⟨hheld, w, hw, -⟩ := h
  · exact ⟨q.2, hmem, le_rfl⟩
  · refine ⟨w, hw, ?_⟩
    obtain ⟨-, ⟨e, he, s, hs, hname, hdate⟩, -⟩ := mem_pointTimes_iff.mp hheld
    obtain ⟨d, hd, rfl⟩ := Keyed.mem_map.mp he
    rw [← hdate]
    exact (mem_pointTimes_iff.mp hw).2.2 d hd s (Keyed.mem_filter.mp hs).1 hname

theorem newestComplete_left :
    newestComplete (pointTimes ((terms dest r start).left dest)) r.complete r.wholePoints =
    newestComplete (pointTimes dest) r.complete r.wholePoints := by
  cases hbest : newestComplete (pointTimes dest) r.complete r.wholePoints with
  | none =>
      rw [newestComplete, Option.map_eq_none_iff, List.argmax_eq_none] at hbest ⊢
      refine List.eq_nil_iff_forall_not_mem.mpr fun q hq => ?_
      obtain ⟨hmem, hcomplete⟩ := mem_completePoints.mp hq
      obtain ⟨w, hw, -⟩ := ((mem_pointTimes_left_iff hbefore).mp hmem).le
      have := (mem_completePoints (p := (q.1, w))).mpr ⟨hw, hcomplete⟩
      rw [hbest] at this
      cases this
  | some name =>
      obtain ⟨p, hp, rfl⟩ := exists_of_newestComplete hbest
      obtain ⟨hcomplete, hmax⟩ := (newestComplete_eq_some_iff hp).mp hbest
      have hstays : p ∈ pointTimes ((terms dest r start).left dest) :=
        (mem_pointTimes_left_iff hbefore).mpr (.inl ⟨hp, fun hleaves => hleaves.other hbest.symm⟩)
      refine (newestComplete_eq_some_iff hstays).mpr ⟨hcomplete, fun q hq hqcomplete => ?_⟩
      obtain ⟨w, hw, hle⟩ := ((mem_pointTimes_left_iff hbefore).mp hq).le
      exact (rank_mono hle).trans (hmax (q.1, w) hw hqcomplete)

end Dates

theorem takes_intermediate_iff {d : Dest} {s : Ref} (hkind : snapshotKind s.name = .intermediate) :
    (terms dest r start).Takes d s ↔
      start ≤ s.creation ∧ heldBack r d s = false ∧
      ((terms dest r start).TooOld s.creation ∨ (s.creation : ℤ) < r.window) := by
  have hdated : dated (terms dest r start).times s = s.creation :=
    dated_of_not_point (by rw [hkind]; nofun)
  constructor
  · intro h
    exact ⟨hdated ▸ h.after, h.free, (hdated ▸ h.due).imp_right And.left⟩
  · rintro ⟨hafter, hfree, hdue⟩
    refine ⟨by rw [hkind]; nofun, hdated.symm ▸ hafter, hfree, ?_, hdated.symm ▸ hdue.imp_right fun hpast => ⟨hpast, .inl hkind⟩⟩
    intro hkeep
    rw [terms_keepPoint] at hkeep
    obtain ⟨p, hp, hname⟩ := exists_of_newestComplete hkeep.symm
    rw [snapshotKind_of_isPoint (hname ▸ (mem_pointTimes_iff.mp hp).1)] at hkind
    cases hkind

/-! ### The pass after it -/

section Later

variable {later : ℤ}

theorem tooOld_mono (hle : r.now ≤ later) {w : ℕ} (h : (terms dest r start).TooOld w) :
    (terms dest (r.atTime later) start).TooOld w := by
  change (r.tooOld.any fun limit => decide ((w : ℤ) < limit)) = true at h
  change ((r.atTime later).tooOld.any fun limit => decide ((w : ℤ) < limit)) = true
  unfold Request.tooOld at h ⊢
  change (if r.policy.maxAgeDays = 0 then none
    else some (later - r.policy.maxAgeDays * 86400)).any _ = true
  split at h
  · cases h
  · rename_i hon
    rw [if_neg hon]
    simp only [Option.any_some, decide_eq_true_eq] at h ⊢
    omega

theorem due_mono (hle : r.now ≤ later) {w : ℕ} {name : String}
    (h : (terms dest r start).Due w name) :
    (terms dest (r.atTime later) start).Due w name := by
  refine h.imp (tooOld_mono hle) fun ⟨hpast, hstands⟩ => ⟨?_, hstands⟩
  change (w : ℤ) < r.now - r.policy.windowDays * 86400 at hpast
  change (w : ℤ) < later - r.policy.windowDays * 86400
  omega

/-- What goes now goes later. -/
theorem takes_mono (hle : r.now ≤ later) {d : Dest} {s : Ref} (h : (terms dest r start).Takes d s) :
    (terms dest (r.atTime later) start).Takes d s :=
  ⟨h.kind, h.after, h.free, h.other, due_mono hle h.due⟩

variable {start₁ : ℤ} (hbefore : ∀ p ∈ pointTimes dest, start ≤ p.2)
  (hstart₁ : ∀ c : ℤ, start₁ ≤ c ↔ start ≤ c ∨ ∃ q ∈ pointTimes ((terms dest r start).left dest),
  (q.2 : ℤ) ≤ c)

include hbefore hstart₁

/-- The second pass takes of a point that stayed what the later one alone takes, exactly when both
see it stand for its month or both do not. -/
theorem agree_point_iff {d : Dest} {s : Ref} {w : ℕ} (hd : d ∈ dest)
    (hp : (s.name, w) ∈ pointTimes dest) (hstays : ¬(terms dest r start).Leaves (s.name, w))
    (hfree : heldBack r d s = false) :
    ((terms ((terms dest r start).left dest) (r.atTime later) start₁).Takes
      ((terms dest r start).cut dest d) s ↔
        (terms dest (r.atTime later) start).Takes d s) ↔
      (some s.name ≠ (terms dest r start).keepPoint →
        ¬(terms dest (r.atTime later) start).TooOld w →
        (w : ℤ) < (r.atTime later).window →
          (s.name ∈ monthlyPoints (pointTimes ((terms dest r start).left dest)) r.complete
            r.wholePoints ↔
            s.name ∈ (terms dest r start).monthly)) := by
  have hp₁ : (s.name, w) ∈ pointTimes ((terms dest r start).left dest) :=
    (mem_pointTimes_left_iff hbefore).mpr (.inl ⟨hp, hstays⟩)
  have hbefore₁ : ∀ p ∈ pointTimes ((terms dest r start).left dest), start₁ ≤ p.2 :=
    fun p hmem => (hstart₁ p.2).mpr (.inr ⟨p, hmem, le_rfl⟩)
  have hfree₁ : heldBack r ((terms dest r start).cut dest d) s = false :=
    (heldBack_cut hd).trans hfree
  have hkind : snapshotKind s.name ≠ .intermediate := by
    rw [snapshotKind_of_isPoint (mem_pointTimes_iff.mp hp).1]
    decide
  have hleaves : ∀ t : Terms, t.Leaves (s.name, w) ↔
      some s.name ≠ t.keepPoint ∧ (t.TooOld w ∨ (w : ℤ) < t.request.window ∧
          s.name ∉ t.monthly) := by
    intro t
    refine ⟨fun h => ⟨h.other, h.due.imp_right fun hpast => ⟨hpast.1, hpast.2.resolve_left hkind⟩⟩,
      fun h => ⟨h.1, ?_⟩⟩
    exact h.2.imp_right fun hpast => ⟨hpast.1, .inr hpast.2⟩
  have hkeep : (terms ((terms dest r start).left dest) (r.atTime later) start₁).keepPoint
      = (terms dest r start).keepPoint := by
    rw [terms_keepPoint, terms_keepPoint]
    exact newestComplete_left hbefore
  have hboth : ∀ {other old past stands stands₁ : Prop}, (other ∧ (old ∨ past ∧ ¬stands₁) ↔
      other ∧ (old ∨ past ∧ ¬stands)) ↔
      (other → ¬old → past → (stands₁ ↔ stands)) := by tauto
  rw [takes_point_iff hbefore₁ hp₁, takes_point_iff hbefore hp, hleaves, hleaves, hkeep]
  refine (iff_congr (and_iff_right hfree₁) (and_iff_right hfree)).trans ?_
  exact hboth

omit hstart₁ in
theorem exists_dated_le_iff {c : ℕ} :
    (start ≤ (c : ℤ) ∨ ∃ q ∈ pointTimes ((terms dest r start).left dest), (q.2 : ℤ) ≤ c) ↔
      start ≤ (c : ℤ) ∨ ∃ q, CutDown dest (terms dest r start) q ∧ q.2 ≤ c := by
  constructor
  · rintro (h | ⟨q, hq, hle⟩)
    · exact .inl h
    · obtain ⟨hmem, -⟩ | hcut := (mem_pointTimes_left_iff hbefore).mp hq
      · exact .inl ((hbefore q hmem).trans hle)
      · exact .inr ⟨q, hcut, by exact_mod_cast hle⟩
  · rintro (h | ⟨q, hcut, hle⟩)
    · exact .inl h
    · exact .inr ⟨q, (mem_pointTimes_left_iff hbefore).mpr (.inr hcut), by exact_mod_cast hle⟩

/-- The second pass takes of the rest what the later one alone takes, unless a point cut down has
moved the start of the history. -/
theorem agree_intermediate_iff {d : Dest} {s : Ref} (hd : d ∈ dest)
    (hkind : snapshotKind s.name = .intermediate) (hfree : heldBack r d s = false) :
    ((terms ((terms dest r start).left dest) (r.atTime later) start₁).Takes
      ((terms dest r start).cut dest d) s ↔
        (terms dest (r.atTime later) start).Takes d s) ↔
      ((s.creation : ℤ) < start → (terms dest (r.atTime later) start).Due s.creation s.name →
        ∀ q, CutDown dest (terms dest r start) q → s.creation < q.2) := by
  have hfree₁ : heldBack (r.atTime later) ((terms dest r start).cut dest d) s = false :=
    (heldBack_cut hd).trans hfree
  have hfree' : heldBack (r.atTime later) d s = false := hfree
  have hdue : (terms dest (r.atTime later) start).Due s.creation s.name ↔
      (terms dest (r.atTime later) start).TooOld s.creation ∨
      (s.creation : ℤ) < (r.atTime later).window := by
    rw [Terms.Due, hkind]
    simp only [true_or, and_true]
    rfl
  rw [takes_intermediate_iff hkind, takes_intermediate_iff hkind, hstart₁,
    exists_dated_le_iff hbefore, hfree₁, hfree', hdue]
  have hnone : (∀ q, CutDown dest (terms dest r start) q → s.creation < q.2) ↔
      ¬∃ q, CutDown dest (terms dest r start) q ∧ q.2 ≤ s.creation := by
    push Not
    rfl
  have hboth : ∀ {after cut due : Prop}, ((after ∨ cut) ∧ due ↔ after ∧ due) ↔
      (¬after → due → ¬cut) := by tauto
  simp only [true_and]
  rw [terms_tooOld, terms_tooOld, hnone, ← not_le (a := start) (b := (s.creation : ℤ))]
  exact hboth

/-- What stays is judged alike in two passes and in one exactly when the dates come to the same. -/
theorem datesAgree_iff (hle : r.now ≤ later) :
    (∀ d ∈ dest, ∀ s ∈ d.snaps, ¬(terms dest r start).Takes d s →
      ((terms ((terms dest r start).left dest) (r.atTime later) start₁).Takes
        ((terms dest r start).cut dest d) s ↔
        (terms dest (r.atTime later) start).Takes d s)) ↔
      DatesAgree dest (terms dest r start) (terms dest (r.atTime later) start) := by
  have hleft : ∀ p ∈ pointTimes dest, ¬(terms dest r start).Leaves p →
      (p.1 ∈ monthlyPoints (pointTimes ((terms dest r start).left dest)) r.complete r.wholePoints ↔
        p.1 ∈ r.complete ∧
        ∀ q, DatedThen dest (terms dest r start) q → q.1 ∈ r.complete → month q.2 = month p.2 →
          rank r.wholePoints q ≤ rank r.wholePoints p) := by
    intro p hp hstays
    rw [mem_monthlyPoints_iff ((mem_pointTimes_left_iff hbefore).mpr (.inl ⟨hp, hstays⟩))]
    simp only [mem_pointTimes_left_iff hbefore]
  constructor
  · intro hagree
    have hpoint : ∀ p, JudgedByMonth dest (terms dest (r.atTime later) start) p →
        ¬(terms dest r start).Leaves p →
        (p.1 ∈ monthlyPoints (pointTimes ((terms dest r start).left dest)) r.complete
          r.wholePoints ↔
          p.1 ∈ (terms dest r start).monthly) := by
      rintro ⟨name, w⟩ hp hstays
      obtain ⟨d, hd, s, hs, rfl, hfree⟩ := hp.free
      have htakes : ¬(terms dest r start).Takes d s :=
        fun h => hstays ((takes_point_iff hbefore hp.mem).mp h).2
      exact (agree_point_iff hbefore hstart₁ hd hp.mem hstays hfree).mp
        (hagree d hd s hs htakes) hp.other hp.young hp.past
    refine ⟨fun p hp hmonthly q hcut hcomplete hmonth => ?_, fun p hp hmonthly hstays => ?_,
      fun d hd s hs hkind hfree hold hdue => ?_⟩
    · have hstays : ¬(terms dest r start).Leaves p := by
        rintro ⟨-, hdue⟩
        obtain hold | ⟨-, hkind | hnot⟩ := hdue
        · exact hp.young (tooOld_mono hle hold)
        · rw [snapshotKind_of_isPoint (mem_pointTimes_iff.mp hp.mem).1] at hkind
          cases hkind
        · exact hnot hmonthly
      exact ((hleft p hp.mem hstays).mp ((hpoint p hp hstays).mpr hmonthly)).2 q
        (.inr hcut) hcomplete hmonth
    · have hnot := mt (hpoint p hp hstays).mp hmonthly
      rw [hleft p hp.mem hstays, not_and] at hnot
      have hhigher := hnot hp.complete
      push Not at hhigher
      exact hhigher
    · have htakes : ¬(terms dest r start).Takes d s := fun h =>
        not_le.mpr hold ((takes_intermediate_iff hkind).mp h).1
      exact (agree_intermediate_iff hbefore hstart₁ hd hkind hfree).mp
        (hagree d hd s hs htakes) hold hdue
  · intro hagree d hd s hs hstays
    by_cases hfree : heldBack r d s = false
    · cases hkind : snapshotKind s.name with
      | other => exact ⟨fun h => absurd hkind h.kind, fun h => absurd hkind h.kind⟩
      | intermediate =>
          exact (agree_intermediate_iff hbefore hstart₁ hd hkind hfree).mpr
            (hagree.history d hd s hs hkind hfree)
      | point =>
          have hpoint : isPoint s.name = true := by
            by_contra hnot
            rw [snapshotKind, if_neg hnot] at hkind
            split at hkind <;> cases hkind
          obtain ⟨w, hw, -⟩ := exists_mem_pointTimes hd hs hpoint
          have hstands : ¬(terms dest r start).Leaves (s.name, w) :=
            fun h => hstays ((takes_point_iff hbefore hw).mpr ⟨hfree, h⟩)
          refine (agree_point_iff hbefore hstart₁ hd hw hstands hfree).mpr
            fun hother hyoung hpast => ?_
          rw [hleft _ hw hstands]
          constructor
          · rintro ⟨hcomplete, hmax⟩
            by_contra hmonthly
            obtain ⟨q, hq, hqcomplete, hmonth, hlt⟩ :=
              hagree.heirs _ ⟨hw, hcomplete, hother, hyoung, hpast, d, hd, s, hs, rfl, hfree⟩
                hmonthly hstands
            exact not_lt.mpr (hmax q hq hqcomplete hmonth) hlt
          · intro hmonthly
            obtain ⟨hcomplete, hmax⟩ := (mem_monthlyPoints_iff hw).mp hmonthly
            refine ⟨hcomplete, fun q hq hqcomplete hmonth => ?_⟩
            obtain ⟨hmem, -⟩ | hcut := hq
            · exact hmax q hmem hqcomplete hmonth
            · exact hagree.months _ ⟨hw, hcomplete, hother, hyoung, hpast, d, hd, s, hs, rfl, hfree⟩
                hmonthly q hcut hqcomplete hmonth
    · have hsame : heldBack r ((terms dest r start).cut dest d) s = heldBack r d s :=
        heldBack_cut hd
      exact ⟨fun h => absurd (hsame.symm.trans h.free) hfree, fun h => absurd h.free hfree⟩

end Later

end Pass

/-! ### Trees -/

section Trees

variable {dest : Drive} {t t' t₁ : Terms} (hmono : ∀ d s, t.Takes d s → t'.Takes d s)
  (hagree : ∀ d ∈ dest, ∀ s ∈ d.snaps, ¬t.Takes d s → (t₁.Takes (t.cut dest d) s ↔ t'.Takes d s))

include hmono hagree

theorem clears_cut_iff {d : Dest} (hd : d ∈ dest) : t₁.Clears (t.cut dest d) ↔ t'.Clears d := by
  constructor
  · intro h s hs
    by_cases htakes : t.Takes d s
    · exact hmono d s htakes
    · exact (hagree d hd s hs htakes).mp (h s ((Terms.mem_cut hd).mpr ⟨hs, htakes⟩))
  · intro h s hs
    obtain ⟨hs, hstays⟩ := (Terms.mem_cut hd).mp hs
    exact (hagree d hd s hs hstays).mpr (h s hs)

/-- The trees the second pass fells: those the later one alone would, whose top has a snapshot
left. -/
theorem treeGoes_left_iff {rel : Rel} :
    treeGoes (t.left dest) (emptied (t₁.removals (t.left dest))) rel = true ↔
    ∃ top ∈ dest, Under rel top.rel ∧ t'.Fells dest top ∧ ¬t.Clears top := by
  rw [treeGoes_removals_iff]
  constructor
  · rintro ⟨_, hmem, hunder, hfells⟩
    obtain ⟨top, htop, rfl, -⟩ := Terms.mem_left.mp hmem
    obtain ⟨s, hs⟩ := List.exists_mem_of_ne_nil _ hfells.filled
    obtain ⟨hs, hstays⟩ := (Terms.mem_cut htop).mp (Keyed.mem_def.mpr hs)
    refine ⟨top, htop, hunder, ⟨hfells.dead, List.ne_nil_of_mem hs, fun e he hbelow => ?_⟩,
      fun hclears => hstays (hclears s hs)⟩
    by_cases hgoes : treeGoes dest (emptied (t.removals dest)) e.rel = true
    · exact fun s hs => hmono e s (clears_of_treeGoes he hgoes s hs)
    · exact (clears_cut_iff hmono hagree he).mp
        (hfells.tree _ (Terms.mem_left.mpr ⟨e, he, rfl, Bool.eq_false_iff.mpr hgoes⟩) hbelow)
  · rintro ⟨top, htop, hunder, hfells, hkept⟩
    obtain ⟨s, hs, hstays⟩ : ∃ s ∈ top.snaps, ¬t.Takes top s := by
      unfold Terms.Clears at hkept
      push Not at hkept
      exact hkept
    have hcut := (Terms.mem_cut htop).mpr ⟨hs, hstays⟩
    refine ⟨_, cut_mem_left htop hs hstays, hunder, hfells.dead, List.ne_nil_of_mem hcut,
      fun e he hbelow => ?_⟩
    obtain ⟨d, hd, rfl, -⟩ := Terms.mem_left.mp he
    exact (clears_cut_iff hmono hagree hd).mpr (hfells.tree d hd hbelow)

theorem cut_cut {d : Dest} (hd : d ∈ dest) (hleft : t.cut dest d ∈ t.left dest) :
    t₁.cut (t.left dest) (t.cut dest d) = t'.cut dest d := by
  have htargets : ∀ s ∈ d.snaps, (d.rel, s.name) ∈ (t.removals dest).map Removal.target ++
      (t₁.removals (t.left dest)).map Removal.target ↔
      (d.rel, s.name) ∈ (t'.removals dest).map Removal.target := by
    intro s hs
    rw [List.mem_append, mem_removals_iff hd hs, mem_removals_iff hd hs]
    by_cases htakes : t.Takes d s
    · exact iff_of_true (.inl htakes) (hmono d s htakes)
    · rw [or_iff_right htakes, ← hagree d hd s hs htakes]
      exact mem_removals_iff hleft ((Terms.mem_cut hd).mpr ⟨hs, htakes⟩)
  rw [Terms.cut, Terms.cut, Terms.cut, Dest.withoutSnaps_withoutSnaps]
  have hsnaps : (d.withoutSnaps ((t.removals dest).map Removal.target ++
      (t₁.removals (t.left dest)).map Removal.target)).snaps =
      (d.withoutSnaps ((t'.removals dest).map Removal.target)).snaps :=
    Keyed.ext (List.filter_congr fun s hs => decide_eq_decide.mpr (not_congr (htargets s hs)))
  exact congrArg (fun snaps => ({ d with snaps } : Dest)) hsnaps

/-- With the same snapshots gone, two passes leave another dataset than one only where a tree's top
was emptied too early. -/
theorem sameListing_of_agree (hlineages : ∀ top ∈ dest, t'.Fells dest top →
      (∀ d ∈ dest, Under top.rel d.rel → d.rel ≠ top.rel → ¬t'.Fells dest d) → t.Clears top →
      t.ClearsTree dest top) :
    SameListing (t₁.left (t.left dest)) (t'.left dest) := by
  intro rel
  have hgoes : treeGoes dest (emptied (t.removals dest)) rel = true ∨
        treeGoes (t.left dest) (emptied (t₁.removals (t.left dest))) rel = true ↔
      treeGoes dest (emptied (t'.removals dest)) rel = true := by
    rw [treeGoes_left_iff hmono hagree, treeGoes_removals_iff, treeGoes_removals_iff]
    constructor
    · rintro (⟨top, htop, hunder, hfells⟩ | ⟨top, htop, hunder, hfells, -⟩)
      · exact ⟨top, htop, hunder, hfells.dead, hfells.filled, fun e he hbelow s hs =>
          hmono e s (hfells.tree e he hbelow s hs)⟩
      · exact ⟨top, htop, hunder, hfells⟩
    · rintro ⟨below, hbelow, hunder, hfells⟩
      -- The topmost tree above it that goes at once.
      classical
      have hmem : below.rel ∈ (dest.items.filter fun d => t'.Fells dest d).map Dest.rel :=
        List.mem_map_of_mem (List.mem_filter.mpr ⟨hbelow, decide_eq_true hfells⟩)
      obtain ⟨_, htopmost, habove⟩ := exists_topmost hmem
      obtain ⟨htopmem, htop⟩ := mem_topmost.mp htopmost
      obtain ⟨top, hfelled, rfl⟩ := List.mem_map.mp htopmem
      obtain ⟨hin, hfelled⟩ := List.mem_filter.mp hfelled
      have hfells : t'.Fells dest top := of_decide_eq_true hfelled
      by_cases hclears : t.Clears top
      · refine .inl ⟨top, hin, hunder.trans habove, hfells.dead, hfells.filled,
          hlineages top hin hfells ?_ hclears⟩
        intro d hd hover hne hfelled
        exact hne (htop d.rel (List.mem_map_of_mem
          (List.mem_filter.mpr ⟨hd, decide_eq_true hfelled⟩)) hover)
      · exact .inr ⟨top, hin, hunder.trans habove, hfells, hclears⟩
  rw [Terms.get?_left, Terms.get?_left, Terms.get?_left]
  by_cases hgone : treeGoes dest (emptied (t'.removals dest)) rel = true
  · rw [if_pos hgone]
    rcases hgoes.mpr hgone with h | h
    · simp [h]
    · simp [h]
  · obtain ⟨hfirst, hsecond⟩ := not_or.mp (mt hgoes.mp hgone)
    rw [if_neg hgone, if_neg hsecond, if_neg hfirst]
    cases hd : dest.get? rel with
    | none => rfl
    | some d =>
        obtain ⟨hmem, rfl⟩ := Keyed.get?_eq_some_iff.mp hd
        have hleft : t.cut dest d ∈ t.left dest :=
          Terms.mem_left.mpr ⟨d, hmem, rfl, Bool.eq_false_iff.mpr hfirst⟩
        exact congrArg some (cut_cut hmono hagree hmem hleft)

theorem lineages_of_sameListing (hsame : SameListing (t₁.left (t.left dest)) (t'.left dest))
    {top : Dest} (htop : top ∈ dest) (hfells : t'.Fells dest top)
    (habove : ∀ d ∈ dest, Under top.rel d.rel → d.rel ≠ top.rel → ¬t'.Fells dest d)
    (hclears : t.Clears top) : t.ClearsTree dest top := by
  have hgone : treeGoes dest (emptied (t'.removals dest)) top.rel = true :=
    treeGoes_removals_iff.mpr ⟨top, htop, List.prefix_rfl, hfells⟩
  have hnone := hsame top.rel
  rw [Terms.get?_left, Terms.get?_left (t := t'), if_pos hgone, Terms.get?_left,
    Keyed.get?_of_mem htop] at hnone
  by_cases hsecond : treeGoes (t.left dest) (emptied (t₁.removals (t.left dest))) top.rel = true
  · obtain ⟨upper, hover, hunder, hfelled, hkept⟩ := (treeGoes_left_iff hmono hagree).mp hsecond
    have hne : upper.rel ≠ top.rel := by
      intro hrel
      obtain rfl : upper = top := Keyed.eq_of_key hover htop hrel
      exact hkept hclears
    exact absurd hfelled (habove upper hover hunder hne)
  · rw [if_neg hsecond] at hnone
    by_cases hfirst : treeGoes dest (emptied (t.removals dest)) top.rel = true
    · obtain ⟨upper, -, hunder, hfelled⟩ := treeGoes_removals_iff.mp hfirst
      exact fun e he hbelow => hfelled.tree e he (hbelow.trans hunder)
    · rw [if_neg hfirst] at hnone
      cases hnone

end Trees

theorem SameListing.survives {a b : Drive} (h : SameListing a b) {d : Dest} {s : Ref} :
    Survives a d s ↔ Survives b d s := by
  have hsub : ∀ {a b : Drive}, SameListing a b → Survives a d s → Survives b d s := by
    rintro a b h ⟨e, he, hrel, hs⟩
    exact ⟨e, Keyed.mem_of_get? ((h e.rel).symm.trans (Keyed.get?_of_mem he)), hrel, hs⟩
  exact ⟨hsub h, hsub fun rel => (h rel).symm⟩

/-- A prune in two steps leaves what one leaves exactly when the dates it judges by come to the same
and no emptied top is left standing. -/
theorem inSteps_iff {dest : Drive} {r : Request} {first now later : ℤ}
    (hfirst : RecordedFirst dest r first) (hle : now ≤ later) :
    InSteps dest r now later ↔ StepsAgree dest (terms dest (r.atTime now) first)
      (terms dest (r.atTime later) first) := by
  have hstart : ∀ time, firstPointTime (pointTimes dest) (r.atTime time).first
      = some (some first) := fun _ => hfirst.firstPointTime
  obtain ⟨start₁, hstart₁, hstarts⟩ :=
    firstPointTime_recorded hfirst.point hfirst.date
      (pointTimes ((terms dest (r.atTime now) first).left dest))
  have hpasses : InSteps dest r now later ↔
      SameListing ((terms ((terms dest (r.atTime now) first).left dest)
          (r.atTime later) start₁).left
          ((terms dest (r.atTime now) first).left dest))
        ((terms dest (r.atTime later) first).left dest) := by
    rw [InSteps, pruneAt, pruneAt, planPrune_left (hstart now), planPrune_left (hstart later),
      Option.bind_some, pruneAt, planPrune_left (r := r.atTime later) hstart₁]
    simp
  have hmono : ∀ d s, (terms dest (r.atTime now) first).Takes d s →
      (terms dest (r.atTime later) first).Takes d s :=
    fun d s => takes_mono (r := r.atTime now) hle
  have hdates := datesAgree_iff hfirst.before hstarts (show (r.atTime now).now ≤ later from hle)
  rw [hpasses]
  constructor
  · intro hsame
    have hagree : ∀ d ∈ dest, ∀ s ∈ d.snaps, ¬(terms dest (r.atTime now) first).Takes d s →
        ((terms ((terms dest (r.atTime now) first).left dest) (r.atTime later) start₁).Takes
            ((terms dest (r.atTime now) first).cut dest d) s ↔
            (terms dest (r.atTime later) first).Takes d s) := by
      intro d hd s hs hstays
      have hsurvives := hsame.survives (d := d) (s := s)
      rw [survives_left_iff hd hs] at hsurvives
      rw [← not_iff_not, ← hsurvives]
      exact (survives_left_iff (cut_mem_left hd hs hstays)
        ((Terms.mem_cut hd).mpr ⟨hs, hstays⟩)).symm
    exact ⟨hdates.mp hagree, fun top htop hfells habove hclears =>
      lineages_of_sameListing hmono hagree hsame htop hfells habove hclears⟩
  · intro hagree
    exact sameListing_of_agree hmono (hdates.mpr hagree.toDatesAgree) hagree.lineages

/-- An archived lineage whose own snapshot is older than that of the dataset below it. -/
def archivedMail : Drive where
  items :=
    [{ rel := ["rpool", "home"],
       snaps := ⟨[⟨"zark_1970-01-20_00:00:00Z", "1", 10, 1641600⟩], by decide⟩ },
     { rel := ["rpool", "home.archived-19700102"],
       snaps := ⟨[⟨"autosnap_daily", "2", 5, 1000⟩], by decide⟩ },
     { rel := ["rpool", "home.archived-19700102", "mail"],
       snaps := ⟨[⟨"autosnap_daily", "3", 6, 2000000⟩], by decide⟩ }]
  nodup := by decide

def archivedMailRequest : Request where
  complete := ["zark_1970-01-20_00:00:00Z"]
  policy := {}
  now := 2593500
  first := "zark_1970-01-01_00:00:00Z"

theorem recordedFirst_archivedMail : RecordedFirst archivedMail archivedMailRequest 0 :=
  ⟨by decide, by decide, by decide⟩

/-- Each pass takes the snapshot that is out of the window; the second destroys `mail` whole and the
lineage stays, with nothing. -/
theorem archivedMail_stays : ¬∀ (dest : Drive) (r : Request) (first now later : ℤ),
    RecordedFirst dest r first → now ≤ later →
    InSteps dest r now later := by
  intro hall
  obtain ⟨steps, once, hsteps, honce, hsame⟩ :=
    hall archivedMail archivedMailRequest 0 2593500 5184000 recordedFirst_archivedMail (by decide)
  have hstays : ((pruneAt archivedMail archivedMailRequest 2593500).bind
      (pruneAt · archivedMailRequest 5184000)).map
      (fun dest => (dest.get? ["rpool", "home.archived-19700102"]).isSome) = some true := by decide
  have hgone : (pruneAt archivedMail archivedMailRequest 5184000).map
      (fun dest => (dest.get? ["rpool", "home.archived-19700102"]).isSome) = some false := by decide
  rw [hsteps, Option.map_some, hsame] at hstays
  rw [honce, Option.map_some] at hgone
  exact absurd (Option.some.inj (hstays.symm.trans hgone)) (by decide)

theorem inSteps_archivedMail : InSteps archivedMail archivedMailRequest 2592500 2593500 ↔
    StepsAgree archivedMail (terms archivedMail (archivedMailRequest.atTime 2592500) 0)
      (terms archivedMail (archivedMailRequest.atTime 2593500) 0) :=
  inSteps_iff recordedFirst_archivedMail (by decide)

end Zark
