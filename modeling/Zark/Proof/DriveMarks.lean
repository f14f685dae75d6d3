import Zark.DriveMarks

/-!
# What marking a point does to the others

Every snapshot some set reaches gets the value of its point, and no other changes. A drive that had
a mark keeps all the points it had; one without goes from the legacy rule to the marks as soon as
one set takes effect, and keeps the points some set has reached.
-/

namespace Zark

open Hierarchy

section Groups

variable {groups entries : List (String × List SnapName)} {x : SnapName} {value : String}

theorem mem_extendGroup {entry : String × List SnapName} :
    (∃ g ∈ extendGroup groups entry, g.1 = value ∧ x ∈ g.2) ↔
      (∃ g ∈ groups, g.1 = value ∧ x ∈ g.2) ∨ entry.1 = value ∧ x ∈ entry.2 := by
  unfold extendGroup
  split
  · rename_i hmem
    obtain ⟨found, hfound, hname⟩ := List.mem_map.mp hmem
    constructor
    · rintro ⟨g, hg, hvalue, hx⟩
      obtain ⟨old, hold, rfl⟩ := List.mem_map.mp hg
      by_cases hsame : old.1 = entry.1
      · rw [if_pos hsame] at hvalue hx
        rcases List.mem_append.mp hx with hx | hx
        · exact .inl ⟨old, hold, hvalue, hx⟩
        · exact .inr ⟨hsame.symm.trans hvalue, hx⟩
      · rw [if_neg hsame] at hvalue hx
        exact .inl ⟨old, hold, hvalue, hx⟩
    · rintro (⟨g, hg, hvalue, hx⟩ | ⟨hvalue, hx⟩)
      · refine ⟨_, List.mem_map_of_mem hg, ?_⟩
        split
        · exact ⟨hvalue, List.mem_append_left _ hx⟩
        · exact ⟨hvalue, hx⟩
      · refine ⟨_, List.mem_map_of_mem hfound, ?_⟩
        rw [if_pos hname]
        exact ⟨hname.trans hvalue, List.mem_append_right _ hx⟩
  · simp only [List.mem_append, List.mem_singleton]
    constructor
    · rintro ⟨g, hg | rfl, hvalue, hx⟩
      · exact .inl ⟨g, hg, hvalue, hx⟩
      · exact .inr ⟨hvalue, hx⟩
    · rintro (⟨g, hg, hvalue, hx⟩ | ⟨hvalue, hx⟩)
      · exact ⟨g, .inl hg, hvalue, hx⟩
      · exact ⟨entry, .inr rfl, hvalue, hx⟩

theorem mem_foldl_extendGroup : (∃ g ∈ entries.foldl extendGroup groups, g.1 = value ∧ x ∈ g.2) ↔
    (∃ g ∈ groups, g.1 = value ∧ x ∈ g.2) ∨ ∃ entry ∈ entries, entry.1 = value ∧ x ∈ entry.2 := by
  induction entries generalizing groups with
  | nil => simp
  | cons entry rest ih =>
      rw [List.foldl_cons, ih, mem_extendGroup, or_assoc, List.exists_mem_cons_iff]

theorem foldl_zfsSet {sets : String → SetOutcome} {valueOf : SnapName → String}
    (hvalue : ∀ g ∈ groups, ∀ x ∈ g.2, g.1 = valueOf x) (marks : Marks) (ok : Bool) (x : SnapName) :
    (groups.foldl (fun out group =>
      if group.2.isEmpty then
        out
      else (zfsSet group.1 group.2 (sets group.1) out.1, out.2 && (sets group.1).isNone))
        (marks, ok)).1 x =
      if (∃ g ∈ groups, x ∈ g.2) ∧ (sets (valueOf x)).reached x = true then
        valueOf x
      else marks x := by
  induction groups generalizing marks ok with
  | nil => simp
  | cons g rest ih =>
      have hrest := ih fun g' hg' => hvalue g' (List.mem_cons_of_mem _ hg')
      rw [List.foldl_cons]
      simp only [List.exists_mem_cons_iff]
      split
      · rename_i hempty
        have hx : x ∉ g.2 := by simp [List.isEmpty_iff.mp hempty]
        simp only [hrest, hx, false_or]
      · rw [hrest]
        by_cases hx : x ∈ g.2
        · have hg := hvalue g List.mem_cons_self x hx
          by_cases hr : (sets (valueOf x)).reached x = true
          · simp only [zfsSet, hg, hx, hr, and_self, true_or, if_true, ite_self]
          · simp only [zfsSet, hg, hr, and_false, Bool.false_eq_true, if_false]
        · simp only [zfsSet, hx, false_and, if_false, false_or]

end Groups

section Record

variable {dest : Drive} {marks : Marks} {lastPoint point : String} {rels : List Rel} {reads : Reads}
  {sets : String → SetOutcome}

theorem mem_markGroups {snaps : List Snap} {x : SnapName} {value : String} :
    (∃ g ∈ markGroups snaps lastPoint point rels, g.1 = value ∧ x ∈ g.2) ↔
      isTarget snaps lastPoint point rels x = true ∧ markValue snaps point rels x = value := by
  rw [markGroups, mem_foldl_extendGroup]
  simp only [List.mem_singleton, exists_eq_left, List.mem_map, countsForOldMarks,
    exists_exists_and_eq_and, List.mem_insertionSort, List.mem_filter, decide_eq_true_eq]
  unfold isTarget markValue
  split
  · rename_i hpoint
    constructor
    · rintro (⟨rfl, rel, hrel, rfl⟩ | ⟨name, ⟨-, hne⟩, -, s, hs, rfl⟩)
      · exact ⟨by simpa using hrel, rfl⟩
      · exact absurd ((mem_pointMembers.mp hs).2.symm.trans hpoint) hne
    · rintro ⟨hrel, rfl⟩
      exact .inl ⟨rfl, x.1, by simpa using hrel, Prod.ext rfl hpoint.symm⟩
  · rename_i hpoint
    simp only [Bool.and_eq_true, decide_eq_true_eq, List.any_eq_true]
    constructor
    · rintro (⟨rfl, rel, hrel, rfl⟩ | ⟨name, ⟨hold, hne⟩, rfl, s, hs, rfl⟩)
      · exact absurd rfl hpoint
      · obtain ⟨hmem, rfl⟩ := mem_pointMembers.mp hs
        exact ⟨⟨hold, s, hmem, rfl, rfl⟩, rfl⟩
    · rintro ⟨⟨hold, s, hs, hstored, hname⟩, rfl⟩
      exact .inr ⟨x.2, ⟨hold, hpoint⟩, rfl, s, mem_pointMembers.mpr ⟨hs, hname⟩,
        Prod.ext hstored hname⟩

/-- The marks after: the value of its point on every snapshot reached. -/
theorem recordComplete_marks (x : SnapName) :
    (recordComplete dest marks lastPoint point rels reads sets).1 x =
      if isReached dest marks lastPoint point rels reads sets x = true then
        markValue (readSnapshots dest marks reads) point rels x
      else marks x := by
  rw [recordComplete, @foldl_zfsSet _ sets (markValue (readSnapshots dest marks reads) point rels)]
  · have hmem :
        (∃ g ∈ (markGroups (readSnapshots dest marks reads) (readLastPoint lastPoint reads) point rels).insertionSort
        (fun a b => a.1 ≤ b.1), x ∈ g.2) ↔
        isTarget (readSnapshots dest marks reads) (readLastPoint lastPoint reads) point rels
            x = true := by
      have h :=
        @mem_markGroups (readLastPoint lastPoint reads) point rels
          (readSnapshots dest marks reads) x
      simp only [List.mem_insertionSort]
      exact ⟨fun ⟨g, hg, hx⟩ => (h.mp ⟨g, hg, rfl, hx⟩).1, fun ht =>
        (h.mpr ⟨ht, rfl⟩).imp fun g hg => ⟨hg.1, hg.2.2⟩⟩
    simp only [isReached, Bool.and_eq_true, hmem]
  · intro g hg y hy
    exact (mem_markGroups.mp ⟨g, (List.mem_insertionSort _).mp hg, rfl, hy⟩).2.symm

end Record

/-! ### A listing with other marks -/

section Remarked

variable {dest : Drive} {marks marks' : Marks} {name lastPoint : String}

def Snap.remark (marks : Marks) (s : Snap) : Snap := { s with mark := marks (s.stored, s.name) }

theorem driveSnapshots_remark :
    driveSnapshots dest marks' = (driveSnapshots dest marks).map (Snap.remark marks') := by
  rw [driveSnapshots, driveSnapshots, List.map_flatMap]
  simp only [List.map_map]
  rfl

variable {snaps : List Snap}

theorem pointMembers_remark : pointMembers (snaps.map (Snap.remark marks)) name
      = (pointMembers snaps name).map (Snap.remark marks) := by
  rw [pointMembers, List.filter_map]
  rfl

theorem datasetCount_remark : datasetCount (snaps.map (Snap.remark marks))
      = datasetCount snaps := by
  rw [datasetCount, datasetCount, List.map_map]
  rfl

theorem pointEnd_remark : pointEnd (snaps.map (Snap.remark marks)) name = pointEnd snaps name := by
  rw [pointEnd, pointEnd, pointMembers_remark, List.foldl_map]
  rfl

theorem pointNames_remark : pointNames (snaps.map (Snap.remark marks)) = pointNames snaps := by
  rw [pointNames, pointNames, List.filter_map, List.map_map]
  rfl

theorem skips_remark (dataset : Rel) :
    skips (snaps.map (Snap.remark marks)) name dataset = skips snaps name dataset := by
  rw [skips, skips, pointMembers_remark, pointEnd_remark, List.any_map, List.any_map, List.any_map]
  rfl

/-- The legacy rule reads no mark. -/
theorem legacyComplete_remark : legacyComplete (snaps.map (Snap.remark marks)) lastPoint
      = legacyComplete snaps lastPoint := by
  have hskipped : skippedPoints (snaps.map (Snap.remark marks)) = skippedPoints snaps := by
    rw [skippedPoints, skippedPoints, pointNames_remark, List.map_map]
    refine List.filter_congr fun other _ => ?_
    exact congrArg (fun f => (snaps.map Snap.dataset).any f) (funext fun dataset =>
      skips_remark dataset)
  rw [legacyComplete, legacyComplete, pointNames_remark, hskipped]

theorem isComplete_iff {members : List Snap} : isComplete members = true ↔
    ∃ mark, members ≠ [] ∧ (∀ s ∈ members, s.mark = mark) ∧
    (mark = legacyMark ∨ markCount mark = some (datasetCount members)) := by
  have hone : ∀ mark, (members.map Snap.mark).dedup = [mark] ↔
      members ≠ [] ∧ ∀ s ∈ members, s.mark = mark := by
    intro mark
    constructor
    · intro h
      refine ⟨fun hnil => by simp [hnil] at h, fun s hs => ?_⟩
      have : s.mark ∈ (members.map Snap.mark).dedup := List.mem_dedup.mpr (List.mem_map_of_mem hs)
      rwa [h, List.mem_singleton] at this
    · rintro ⟨hne, hall⟩
      obtain ⟨s, rest, rfl⟩ := List.exists_cons_of_ne_nil hne
      have hperm : ((s :: rest).map Snap.mark).dedup.Perm [mark] := by
        refine (List.perm_ext_iff_of_nodup (List.nodup_dedup _)
          (List.nodup_singleton _)).mpr fun m => ?_
        rw [List.mem_dedup, List.mem_singleton, List.mem_map]
        exact ⟨fun ⟨x, hx, hm⟩ => hm ▸ hall x hx, fun hm =>
          ⟨s, List.mem_cons_self, hm ▸ hall s List.mem_cons_self⟩⟩
      exact List.perm_singleton.mp hperm
  unfold isComplete
  constructor
  · intro h
    split at h
    · rename_i mark hmark
      obtain ⟨hne, hall⟩ := (hone mark).mp hmark
      exact ⟨mark, hne, hall, by simpa [datasetCount] using h⟩
    · cases h
  · rintro ⟨mark, hne, hall, hmark⟩
    rw [(hone mark).mpr ⟨hne, hall⟩]
    simpa [datasetCount] using hmark

theorem markCount_countMark (n : ℕ) : markCount (countMark n) = some n := by
  have hdigits : (countMark n).toList = Nat.toDigits 10 n := Nat.toList_repr
  have hne : countMark n ≠ "" := by
    intro h
    rw [h] at hdigits
    exact Nat.toDigits_ne_nil hdigits.symm
  have hall : (countMark n).toList.all Char.isDigit = true := by
    rw [hdigits, List.all_eq_true]
    exact fun c hc => Nat.isDigit_of_mem_toDigits (by decide) (by decide) hc
  rw [markCount, if_pos ⟨hne, hall⟩, hdigits, Nat.ofDigitChars_ten_toDigits]

theorem countMark_ne_empty (n : ℕ) : countMark n ≠ "" := by
  intro h
  have := markCount_countMark n
  rw [h] at this
  cases this

theorem countMark_ne_legacy (n : ℕ) : countMark n ≠ legacyMark := by
  intro h
  have hnone : markCount legacyMark = none := by decide
  rw [← h, markCount_countMark] at hnone
  cases hnone

end Remarked

/-! ### The standing of the other points -/

section Standing

variable {snaps found : List Snap} {marks : Marks} {lastPoint point name : String} {rels : List Rel}
  {reached : SnapName → Bool}

/-- Marks after sets that reached these snapshots, of other points with the number of datasets
found. -/
structure Marks.Set (marks : Marks) (snaps found : List Snap) (point : String) (rels : List Rel)
    (reached : SnapName → Bool) : Prop where
  eq : ∀ s ∈ snaps, marks (s.stored, s.name) =
    if reached (s.stored, s.name) = true then
      markValue found point rels (s.stored, s.name)
    else s.mark

theorem markValue_ne_empty (x : SnapName) : markValue found point rels x ≠ "" := by
  unfold markValue
  split <;> exact countMark_ne_empty _

theorem mem_markedPoints_remark (h : marks.Set snaps found point rels reached) :
    name ∈ markedPoints (snaps.map (Snap.remark marks)) ↔
      isPoint name = true ∧ ∃ s ∈ snaps, s.name = name ∧
      (reached (s.stored, s.name) = true ∨ s.mark ≠ "") := by
  rw [mem_markedPoints]
  refine and_congr_right fun _ => ?_
  simp only [List.mem_map, exists_exists_and_eq_and]
  refine exists_congr fun s => and_congr_right fun hs => and_congr_right fun _ => ?_
  show marks (s.stored, s.name) ≠ "" ↔ _
  rw [h.eq s hs]
  split
  · rename_i hr
    exact iff_of_true (markValue_ne_empty _) (.inl hr)
  · rename_i hr
    simp [hr]

/-- On a drive that had a mark every run-complete point stays one; without one, once a point is
reached, those some set reached. -/
theorem run_kept_iff (h : marks.Set snaps found point rels reached) :
    (∀ name ≠ point, name ∈ runCompletePoints snaps lastPoint →
        name ∈ runCompletePoints (snaps.map (Snap.remark marks)) lastPoint) ↔
      markedPoints snaps ≠ [] ∨ (∀ s ∈ snaps, isPoint s.name = true →
        reached (s.stored, s.name) = false) ∨
        ∀ name ∈ legacyComplete snaps lastPoint, name ≠ point → ∃ s ∈ snaps, s.name = name ∧
        reached (s.stored, s.name) = true := by
  by_cases hmarked : markedPoints snaps = []
  · have hnone : ∀ s ∈ snaps, isPoint s.name = true → s.mark = "" := by
      intro s hs hpoint
      by_contra hmark
      exact List.eq_nil_iff_forall_not_mem.mp hmarked s.name
        (mem_markedPoints.mpr ⟨hpoint, s, hs, rfl, hmark⟩)
    have hbefore : runCompletePoints snaps lastPoint = legacyComplete snaps lastPoint :=
      if_pos hmarked
    rw [hbefore]
    by_cases htouched : ∃ s ∈ snaps, isPoint s.name = true ∧ reached (s.stored, s.name) = true
    · have hsome : markedPoints (snaps.map (Snap.remark marks)) ≠ [] := by
        obtain ⟨s, hs, hpoint, hr⟩ := htouched
        exact List.ne_nil_of_mem ((mem_markedPoints_remark h).mpr ⟨hpoint, s, hs, rfl, .inl hr⟩)
      have hafter : runCompletePoints (snaps.map (Snap.remark marks)) lastPoint
          = markedPoints (snaps.map (Snap.remark marks)) := if_neg hsome
      have hnot : ¬∀ s ∈ snaps, isPoint s.name = true → reached (s.stored, s.name) = false := by
        intro hall
        obtain ⟨s, hs, hpoint, hr⟩ := htouched
        rw [hall s hs hpoint] at hr
        cases hr
      rw [hafter]
      simp only [hmarked, hnot, ne_eq, not_true_eq_false, false_or]
      constructor
      · intro hkept name hname hne
        obtain ⟨hpoint, s, hs, hsname, hr⟩ := (mem_markedPoints_remark h).mp (hkept name hne hname)
        exact ⟨s, hs, hsname, hr.resolve_right fun hmark => hmark (hnone s hs (hsname ▸ hpoint))⟩
      · intro hkept name hne hname
        obtain ⟨s, hs, hsname, hr⟩ := hkept name hname hne
        have hpoint := (mem_pointNames.mp (mem_legacyComplete.mp hname).2.1).1
        exact (mem_markedPoints_remark h).mpr ⟨hpoint, s, hs, hsname, .inl hr⟩
    · have hnone' : ∀ s ∈ snaps, isPoint s.name = true → reached (s.stored, s.name) = false :=
        fun s hs hpoint =>
          Bool.eq_false_iff.mpr fun hr => htouched ⟨s, hs, hpoint, hr⟩
      have hafter : runCompletePoints (snaps.map (Snap.remark marks)) lastPoint
          = legacyComplete snaps lastPoint := by
        rw [runCompletePoints, if_pos, legacyComplete_remark]
        rw [List.eq_nil_iff_forall_not_mem]
        intro other hother
        obtain ⟨hpoint, s, hs, hname, hr | hmark⟩ := (mem_markedPoints_remark h).mp hother
        · rw [hnone' s hs (hname ▸ hpoint)] at hr
          cases hr
        · exact hmark (hnone s hs (hname ▸ hpoint))
      rw [hafter]
      exact iff_of_true (fun _ _ hname => hname) (.inr (.inl hnone'))
  · refine iff_of_true (fun name _ hname => ?_) (.inl hmarked)
    rw [runCompletePoints, if_neg hmarked] at hname
    obtain ⟨hpoint, s, hs, hsname, hmark⟩ := mem_markedPoints.mp hname
    exact mem_runCompletePoints.mpr (.inl
      ((mem_markedPoints_remark h).mpr ⟨hpoint, s, hs, hsname, .inr hmark⟩))

/-- A numbered point that is not complete becomes complete exactly by a recount of all of it. -/
theorem complete_remark_iff (h : marks.Set snaps found point rels reached) (hne : name ≠ point)
    (hnumbered : isNumbered snaps name = true)
    (hincomplete : isComplete (pointMembers snaps name) = false) :
    isComplete (pointMembers (snaps.map (Snap.remark marks)) name) = true ↔
    isRecounted snaps found reached name = true := by
  have hvalue : ∀ s ∈ pointMembers snaps name, markValue found point rels (s.stored, s.name)
      = countMark (datasetCount (pointMembers found name)) := by
    intro s hs
    rw [markValue, (mem_pointMembers.mp hs).2, if_neg hne]
  have hmark : ∀ s ∈ pointMembers snaps name, (s.remark marks).mark =
      if reached (s.stored, s.name) = true then
        countMark (datasetCount (pointMembers found name))
      else s.mark := by
    intro s hs
    rw [← hvalue s hs]
    exact h.eq s (mem_pointMembers.mp hs).1
  have hsome : pointMembers snaps name ≠ [] := by
    intro hnil
    rw [isNumbered, hnil] at hnumbered
    cases hnumbered
  rw [pointMembers_remark, isComplete_iff, datasetCount_remark]
  simp only [ne_eq, List.map_eq_nil_iff, hsome, not_false_eq_true, true_and, List.mem_map,
    forall_exists_index, and_imp, forall_apply_eq_imp_iff₂]
  rw [isRecounted, Bool.and_eq_true, List.all_eq_true, decide_eq_true_eq]
  simp only [Bool.or_eq_true, decide_eq_true_eq]
  constructor
  · rintro ⟨mark, hall, hcount⟩
    obtain ⟨t, ht, hr⟩ : ∃ t ∈ pointMembers snaps name, reached (t.stored, t.name) = true := by
      by_contra hno
      push Not at hno
      rw [Bool.eq_false_iff] at hincomplete
      refine hincomplete (isComplete_iff.mpr ⟨mark, hsome, fun s hs => ?_, hcount⟩)
      rw [← hall s hs, hmark s hs, if_neg (hno s hs)]
    obtain rfl : countMark (datasetCount (pointMembers found name)) = mark := by
      rw [← hall t ht, hmark t ht, if_pos hr]
    refine ⟨fun s hs => ?_, ?_⟩
    · by_cases hrs : reached (s.stored, s.name) = true
      · exact .inl hrs
      · refine .inr ?_
        rw [← hall s hs, hmark s hs, if_neg hrs]
    · rcases hcount with hlegacy | hcount
      · exact absurd hlegacy (countMark_ne_legacy _)
      · rw [markCount_countMark] at hcount
        exact Option.some.inj hcount
  · rintro ⟨hall, hcount⟩
    refine ⟨countMark (datasetCount (pointMembers found name)), fun s hs => ?_,
      .inr (by rw [markCount_countMark, hcount])⟩
    rw [hmark s hs]
    split
    · rfl
    · rename_i hr
      exact (hall s hs).resolve_left hr

end Standing

/-- Marking a new point complete changes the standing of no other exactly when the reads and the
sets were careful with them. -/
theorem recordComplete_keeps_iff (dest : Drive) (marks : Marks) (lastPoint point : String)
    (rels : List Rel) (reads : Reads) (sets : String → SetOutcome) :
    KeepsStanding (driveSnapshots dest marks)
        (driveSnapshots dest (recordComplete dest marks lastPoint point rels reads sets).1)
          lastPoint point ↔
      Careful (driveSnapshots dest marks) (readSnapshots dest marks reads) lastPoint point
        (isReached dest marks lastPoint point rels reads sets) := by
  have hset : (recordComplete dest marks lastPoint point rels reads sets).1.Set
      (driveSnapshots dest marks) (readSnapshots dest marks reads)
      point rels (isReached dest marks lastPoint point rels reads sets) := by
    refine ⟨fun s hs => ?_⟩
    obtain ⟨d, -, x, -, rfl⟩ := mem_driveSnapshots.mp hs
    exact recordComplete_marks _
  rw [@driveSnapshots_remark dest marks
    (recordComplete dest marks lastPoint point rels reads sets).1]
  constructor
  · intro hkeeps
    refine ⟨(run_kept_iff hset).mp hkeeps.run, fun name hne hnumbered hincomplete => ?_⟩
    rw [← Bool.not_eq_true, ← complete_remark_iff hset hne hnumbered hincomplete, Bool.not_eq_true]
    exact hkeeps.complete name hne hnumbered hincomplete
  · intro hcareful
    refine ⟨(run_kept_iff hset).mpr hcareful.run, fun name hne hnumbered hincomplete => ?_⟩
    rw [← Bool.not_eq_true, complete_remark_iff hset hne hnumbered hincomplete, Bool.not_eq_true]
    exact hcareful.counts name hne hnumbered hincomplete

/-- A drive written before marks, with a complete point and the one just taken. -/
def unmarkedDrive : Drive where
  items :=
    [{ rel := ["rpool", "home"], snaps := ⟨[⟨"zark_2026-01-20_00:00:00Z", "1", 10, 1768867200⟩,
      ⟨"zark_2026-03-14_00:00:00Z", "2", 20, 1773446400⟩], by decide⟩ }]
  nodup := by decide

/-- The last point of the drive could not be read: only the new one is marked, and the other is no
complete point any more. -/
theorem recordComplete_drops_unmarked :
    ¬KeepsStanding (driveSnapshots unmarkedDrive fun _ => "")
      (driveSnapshots unmarkedDrive
        (recordComplete unmarkedDrive (fun _ => "") "zark_2026-01-20_00:00:00Z"
          "zark_2026-03-14_00:00:00Z" [["rpool", "home"]] { metadata := false } fun _ => none).1)
      "zark_2026-01-20_00:00:00Z" "zark_2026-03-14_00:00:00Z" := by
  intro h
  exact absurd (h.run "zark_2026-01-20_00:00:00Z" (by decide) (by decide)) (by decide)

end Zark
