import Zark.Proof.PointMark
import Zark.Proof.Restore

/-!
# Exclusions survive backup and recover

What the commands of a recover leave set, read off the restore table, and from it that a dataset
of the recovered system is covered by an exclusion exactly when it was covered in origin.
-/

namespace Zark

open Hierarchy RestoreRequest

/-! ### What the commands leave set -/

namespace Recovered

/-- The exclusion is set on a dataset. -/
def HasNo (s : Recovered) (rel : Rel) (flag : Flag) : Prop :=
  (s.settings.get? rel).bind (·.value flag) = some "no"

/-- A dataset at or above `rel` carries the exclusion. -/
def Excludes (s : Recovered) (flag : Flag) (rel : Rel) : Prop :=
  ∃ top, s.HasNo top flag ∧ Under rel top

theorem hasNo_setNo {s : Recovered} {rel rel' : Rel} {flag flag' : Flag} :
    (s.setNo rel flag).HasNo rel' flag' ↔ rel' = rel ∧ flag' = flag ∨ s.HasNo rel' flag' := by
  have hkey : Setting.rel (((s.settings.get? rel).getD { rel }).set flag "no") = rel := by
    rw [Setting.rel_set]
    cases hget : s.settings.get? rel with
    | none => rfl
    | some x => exact Keyed.key_of_get? hget
  rw [HasNo, setNo]
  by_cases hrel : rel' = rel
  · subst hrel
    have hput :=
      Keyed.get?_put_self (s := s.settings)
        (a := ((s.settings.get? rel').getD { rel := rel' }).set flag "no")
    rw [hkey] at hput
    rw [hput, Option.bind_some, Setting.value_set]
    by_cases hflag : flag' = flag
    · simp [hflag]
    · rw [if_neg hflag, HasNo]
      cases s.settings.get? rel' with
      | none => cases flag' <;> simp [Setting.value, hflag]
      | some x => simp [hflag]
  · rw [Keyed.get?_put_of_ne (by rwa [hkey]), HasNo]
    simp [hrel]

theorem foldl_setNo {s : Recovered} {rel : Rel} {flags : List Flag} :
    (flags.foldl (fun s flag => s.setNo rel flag) s).datasets = s.datasets ∧
      ∀ rel' flag', (flags.foldl (fun s flag => s.setNo rel flag) s).HasNo rel' flag' ↔
        rel' = rel ∧ flag' ∈ flags ∨ s.HasNo rel' flag' := by
  induction flags generalizing s with
  | nil => simp
  | cons flag flags ih =>
      refine ⟨ih.1, fun rel' flag' => ?_⟩
      rw [List.foldl_cons, ih.2, hasNo_setNo, List.mem_cons]
      tauto

end Recovered

open Recovered

/-- The datasets are there in the end with what was above them, and what is set is what was set on
each as it was made. -/
theorem createExcluded_spec {rows : List RestoreRow} {s s' : Recovered}
    (h : createExcluded s rows = some s') :
    s'.datasets = s.datasets ++ rows.map RestoreRow.rel ∧
    (∀ row ∈ rows, parent row.rel ∈ s'.datasets) ∧
      ∀ rel flag, s'.HasNo rel flag ↔ (∃ row ∈ rows, row.rel = rel ∧ flag ∈ createFlags row) ∨
      s.HasNo rel flag := by
  induction rows generalizing s with
  | nil =>
      cases h
      simp
  | cons row rows ih =>
      rw [createExcluded, List.foldlM_cons] at h
      obtain ⟨mid, hcreate, hrest⟩ := Option.bind_eq_some_iff.mp h
      rw [zfsCreate] at hcreate
      obtain ⟨⟨-, hparent⟩, hmid⟩ := Option.ite_none_right_eq_some.mp hcreate
      cases hmid
      obtain ⟨hdatasets, hparents, hset⟩ := ih hrest
      obtain ⟨hsame, hflags⟩ :=
        @foldl_setNo { s with datasets := s.datasets ++ [row.rel] } row.rel (createFlags row)
      have hall : s'.datasets = s.datasets ++ (row :: rows).map RestoreRow.rel := by
        rw [hdatasets, hsame]
        simp
      refine ⟨hall, ?_, fun rel flag => ?_⟩
      · intro x hx
        obtain rfl | hx := List.mem_cons.mp hx
        · rw [hall]
          exact List.mem_append_left _ hparent
        · exact hparents x hx
      · rw [hset, hflags]
        have hold : Recovered.HasNo { s with datasets := s.datasets ++ [row.rel] } rel flag ↔
            s.HasNo rel flag := Iff.rfl
        rw [hold]
        simp only [List.mem_cons, exists_eq_or_imp]
        constructor
        · rintro (h | ⟨rfl, h⟩ | h)
          · exact .inl (.inr h)
          · exact .inl (.inl ⟨rfl, h⟩)
          · exact .inr h
        · rintro ((⟨rfl, h⟩ | h) | h)
          · exact .inr (.inl ⟨rfl, h⟩)
          · exact .inl h
          · exact .inr (.inr h)

theorem restoreSnapshotExclusions_spec {rows : List RestoreRow} {excluded : PointMark}
    {s s' : Recovered} (h : restoreSnapshotExclusions rows excluded s = some s') :
    s'.datasets = s.datasets ∧ ∀ rel flag, s'.HasNo rel flag ↔
      (rel ∈ excluded.noSnapshot ∧ flag = .snapshot ∧ ∃ row, rows.find? (·.rel = rel) = some row ∧
        row.restored = true) ∨
        s.HasNo rel flag := by
  rw [restoreSnapshotExclusions] at h
  generalize excluded.noSnapshot = tops at h ⊢
  induction tops generalizing s with
  | nil =>
      cases h
      simp
  | cons top tops ih =>
      rw [List.foldlM_cons] at h
      obtain ⟨mid, hstep, hrest⟩ := Option.bind_eq_some_iff.mp h
      obtain ⟨hdatasets, hset⟩ := ih hrest
      have hmid : mid.datasets = s.datasets ∧ ∀ rel flag, mid.HasNo rel flag ↔
          (rel = top ∧ flag = .snapshot ∧ ∃ row, rows.find? (·.rel = rel) = some row ∧
              row.restored = true) ∨ s.HasNo rel flag := by
        cases hfind : rows.find? (·.rel = top) with
        | none =>
            rw [hfind] at hstep
            cases hstep
            refine ⟨rfl, fun rel flag => (or_iff_right ?_).symm⟩
            rintro ⟨rfl, -, row, hrow, -⟩
            rw [hfind] at hrow
            cases hrow
        | some row =>
            rw [hfind] at hstep
            dsimp only at hstep
            split at hstep
            · rename_i hrestored
              rw [Recovered.zfsSet] at hstep
              obtain ⟨-, hmid⟩ := Option.ite_none_right_eq_some.mp hstep
              cases hmid
              refine ⟨rfl, fun rel flag => hasNo_setNo.trans (or_congr_left ?_)⟩
              constructor
              · rintro ⟨rfl, rfl⟩
                exact ⟨rfl, rfl, row, hfind, hrestored⟩
              · exact fun ⟨hrel, hflag, _⟩ => ⟨hrel, hflag⟩
            · rename_i hrestored
              cases hstep
              refine ⟨rfl, fun rel flag => (or_iff_right ?_).symm⟩
              rintro ⟨rfl, -, row', hrow', hrestored'⟩
              rw [hfind] at hrow'
              cases hrow'
              exact hrestored hrestored'
      refine ⟨hdatasets.trans hmid.1, fun rel flag => ?_⟩
      rw [hset, hmid.2, List.mem_cons]
      constructor
      · rintro (⟨hmem, hrow⟩ | ⟨rfl, hrow⟩ | hold)
        · exact .inl ⟨.inr hmem, hrow⟩
        · exact .inl ⟨.inl rfl, hrow⟩
        · exact .inr hold
      · rintro (⟨rfl | hmem, hrow⟩ | hold)
        · exact .inr (.inl ⟨rfl, hrow⟩)
        · exact .inl ⟨hmem, hrow⟩
        · exact .inr (.inr hold)

/-! ### What exists after a recover -/

section Existing

variable {r : RestoreRequest} {s : Recovered}

theorem recoverExclusions_spec (h : recoverExclusions r = some s) :
    (∀ x, x ∈ s.datasets ↔ x ∈ created ∨ ∃ row ∈ buildPlan r, row.rel = x ∧
      (row.restored || row.empty) = true) ∧
      (∀ row ∈ buildPlan r, row.empty = true → parent row.rel ∈ s.datasets) ∧
      ∀ rel flag, s.HasNo rel flag ↔
        (rel ∈ r.excluded.noSnapshot ∧ flag = .snapshot ∧
          ∃ row, (buildPlan r).find? (·.rel = rel) = some row ∧ row.restored = true) ∨
        ∃ row ∈ buildPlan r, row.empty = true ∧ row.rel = rel ∧ flag ∈ createFlags row := by
  rw [recoverExclusions] at h
  obtain ⟨mid, hcreate, hset⟩ := Option.bind_eq_some_iff.mp h
  obtain ⟨hdatasets, hparents, hflags⟩ := createExcluded_spec hcreate
  obtain ⟨hsame, hagain⟩ := restoreSnapshotExclusions_spec hset
  refine ⟨fun x => ?_, fun row hrow hempty => ?_, fun rel flag => ?_⟩
  · rw [hsame, hdatasets, restoredPools]
    simp only [List.mem_append, List.mem_map, List.mem_filter, Bool.or_eq_true, or_assoc]
    refine or_congr_right ?_
    constructor
    · rintro (⟨row, ⟨hrow, hfate⟩, hrel⟩ | ⟨row, ⟨hrow, hfate⟩, hrel⟩)
      · exact ⟨row, hrow, hrel, .inl hfate⟩
      · exact ⟨row, hrow, hrel, .inr hfate⟩
    · rintro ⟨row, hrow, hrel, hfate | hfate⟩
      · exact .inl ⟨row, ⟨hrow, hfate⟩, hrel⟩
      · exact .inr ⟨row, ⟨hrow, hfate⟩, hrel⟩
  · rw [hsame]
    exact hparents row (List.mem_filter.mpr ⟨hrow, hempty⟩)
  · have hnone : ¬(restoredPools (buildPlan r)).HasNo rel flag := by
      rintro ⟨⟩
    rw [hagain, hflags, or_iff_left hnone]
    simp only [List.mem_filter, and_assoc]

/-- After a recover exist the datasets the restore table says will. -/
theorem mem_recovered (h : recoverExclusions r = some s) {x : Rel} :
    x ∈ s.datasets ↔ r.Present x := by
  rw [(recoverExclusions_spec h).1]
  constructor
  · rintro (hc | ⟨row, hrow, rfl, hfate⟩)
    · exact .created hc
    · exact ((planned_buildPlan r).fates row hrow).mp hfate
  · intro hp
    refine (wanted_of_present hp).imp id fun hmem => ?_
    obtain ⟨row, hrow, rfl⟩ := List.mem_map.mp (rels_buildPlan r ▸ List.mem_filter.mpr hmem)
    exact ⟨row, hrow, rfl, ((planned_buildPlan r).fates row hrow).mpr hp⟩

theorem parentClosed_created : ParentClosed created := by decide

theorem parentClosed_recovered (h : recoverExclusions r = some s) : ParentClosed s.datasets := by
  intro x hx
  obtain ⟨-, hparents, -⟩ := recoverExclusions_spec h
  have hp := (mem_recovered h).mp hx
  cases hp with
  | created hc =>
      refine ⟨(parentClosed_created x hc).1, (parentClosed_created x hc).2.imp id fun hparent => ?_⟩
      exact (mem_recovered h).mpr (.created hparent)
  | excluded hx' htop =>
      have hhas : r.hasRow x = true := by simp [hasRow, htop]
      obtain ⟨row, hrow, rfl⟩ :=
        List.mem_map.mp (rels_buildPlan r ▸ List.mem_filter.mpr ⟨hx', hhas⟩)
      have hempty : row.empty = true :=
        ((planned_buildPlan r).empties row hrow).trans (covers_of_topOf htop)
      exact ⟨ne_nil_of_wanted hx', .inr (hparents row hrow hempty)⟩
  | restored hx' _ _ _ hparent => exact ⟨ne_nil_of_wanted hx', .inr ((mem_recovered h).mpr hparent)⟩

end Existing

/-! ### The exclusions of origin -/

section Origin

variable {lines : List String} {origin : Origins} {r : RestoreRequest} {s : Recovered}

theorem isName_of_mem_tops {e : Exclusion} (he : e ∈ (parse lines origin).tops) : e.top.IsName := by
  obtain ⟨x, hx, hacc⟩ := mem_parse_tops.mp he
  obtain ⟨-, -, rfl⟩ := accepted_eq_some_iff.mp hacc
  obtain ⟨line, -, flag, v, hvalue⟩ := exists_line_of_mem_values hx
  unfold valueLine at hvalue
  split at hvalue
  · rename_i name prop value _
    split at hvalue
    · cases hvalue
    · obtain ⟨f, -, hf⟩ := Option.map_eq_some_iff.mp hvalue
      have hrel : Rel.ofText name = x.rel := congrArg Prod.fst hf
      show x.rel.IsName
      exact hrel ▸ isName_ofText name
  · cases hvalue

theorem mem_minimalTops (hnames : NamesDatasets lines) {flag : Flag} {top : Rel}
    (h : top ∈ (parse lines origin).minimalTops flag) :
    ∃ e ∈ (parse lines origin).tops, e.has flag = true ∧ e.top = top := by
  rw [minimalTops_parse hnames, mem_topmost] at h
  exact mem_flagged.mp h.1

theorem named_pointMark (hnames : NamesDatasets lines) (horigin : ∀ o ∈ origin, o.rel.IsName) :
    (pointMark (parse lines origin) origin).Named := by
  have htop : ∀ flag top, top ∈ (parse lines origin).minimalTops flag → top.IsName := by
    intro flag top h
    obtain ⟨e, he, -, rfl⟩ := mem_minimalTops hnames h
    exact isName_of_mem_tops he
  refine ⟨fun t ht => ?_, fun x hx => ?_⟩
  · obtain ⟨h, -⟩ | ⟨⟨h, -⟩, -⟩ := mem_pointMark_tops.mp ht
    · exact htop .replicate _ h
    · exact htop .snapshot _ h
  · obtain ⟨o, ho, -, rfl⟩ := mem_pointMark_datasets.mp hx
    exact horigin o ho

theorem not_under_of_created (hnames : NamesDatasets lines) {flag : Flag} {x top : Rel}
    (hx : x ∈ created ∨ x = keystore) (htop : top ∈ (parse lines origin).minimalTops flag) :
    ¬Under x top := by
  intro hunder
  obtain ⟨e, he, -, rfl⟩ := mem_minimalTops hnames htop
  have hne : e.top ≠ [] := by
    intro hempty
    exact text_ne_empty_of_mem_tops hnames he (by rw [hempty]; rfl)
  obtain ⟨y, -, hacc⟩ := mem_parse_tops.mp he
  obtain ⟨-, hnever, rfl⟩ := accepted_eq_some_iff.mp hacc
  have hruled : (ruledOut y.rel (origin.get? y.rel)).isSome = true := by
    refine isSome_ruledOut ?_ _
    obtain hx | rfl := hx
    · have hmem := parentClosed_created.mem_of_under hx hunder hne
      have hprotected : ∀ z ∈ created, Protected z := by
        unfold Protected
        decide
      exact hprotected _ hmem
    · have hmem : y.rel ∈ [["rpool"], keystore] := by
        have hclosed : ParentClosed [["rpool"], keystore] := by decide
        exact hclosed.mem_of_under (by simp) hunder hne
      have hprotected : ∀ z ∈ [["rpool"], keystore], Protected z := by
        unfold Protected
        decide
      exact hprotected _ hmem
  unfold neverExcluded at hnever
  split at hnever
  · cases hnever
  · rename_i hnone
    rw [hnone] at hruled
    cases hruled

variable (hnames : NamesDatasets lines)
  (hmark : r.excluded.Same (pointMark (parse lines origin) origin))

include hmark

theorem mem_leftOut {top : Rel} : top ∈ r.excluded.leftOut ↔
    top ∈ (parse lines origin).noBackup := by
  rw [PointMark.leftOut]
  simp only [List.mem_map, List.mem_filter, bne_iff_ne, and_assoc, ← Keyed.mem_def, hmark.tops,
    mem_pointMark_tops]
  constructor
  · rintro ⟨t, ⟨h, -⟩ | ⟨-, h⟩, hne, rfl⟩
    · exact h
    · exact absurd h.2 hne
  · intro h
    refine ⟨⟨top, (parse lines origin).flagsOf top⟩, .inl ⟨h, rfl⟩, ?_, rfl⟩
    show Declared.flagsOf _ top ≠ _
    rw [Declared.flagsOf]
    split <;> simp

theorem mem_mark_noSnapshot {top : Rel} :
    top ∈ r.excluded.noSnapshot ↔ top ∈ (parse lines origin).noSnapshot ∧
    top ∉ (parse lines origin).noBackup := by
  rw [PointMark.noSnapshot, mem_sortRels]
  simp only [List.mem_map, List.mem_filter, beq_iff_eq, and_assoc, ← Keyed.mem_def, hmark.tops,
    mem_pointMark_tops]
  constructor
  · rintro ⟨t, ⟨-, h⟩ | ⟨h, h', -⟩, hflags, rfl⟩
    · rw [h, Declared.flagsOf] at hflags
      split at hflags <;> cases hflags
    · exact ⟨h, h'⟩
  · rintro ⟨h, h'⟩
    exact ⟨⟨top, .snapshots⟩, .inr ⟨h, h', rfl⟩, rfl, rfl⟩

theorem flags_of_top {top : Rel} (h : top ∈ (parse lines origin).noBackup) :
    (r.excluded.tops.get? top).map MarkTop.flags = some ((parse lines origin).flagsOf top) := by
  have hmem : (⟨top, (parse lines origin).flagsOf top⟩ : MarkTop) ∈ r.excluded.tops :=
    (hmark.tops _).mpr (mem_pointMark_tops.mpr (.inl ⟨h, rfl⟩))
  rw [show r.excluded.tops.get? top = _ from Keyed.get?_of_mem hmem]
  rfl

include hnames

theorem topOf_eq_some_self {top : Rel} :
    r.topOf top = some top ↔ top ∈ (parse lines origin).noBackup := by
  constructor
  · intro h
    exact (mem_leftOut hmark).mp (covering_eq_some h).1
  · intro h
    cases htop : r.topOf top with
    | none =>
        have hempty := covering_eq_none_iff.mp htop top ((mem_leftOut hmark).mpr h) List.prefix_rfl
        obtain ⟨e, he, -, rfl⟩ := mem_minimalTops hnames h
        exact absurd hempty (text_ne_empty_of_mem_tops hnames he)
    | some u =>
        obtain ⟨hu, hunder, -⟩ := covering_eq_some htop
        have hu' := (mem_leftOut hmark).mp hu
        exact congrArg some ((antichain_minimalTops hnames origin .replicate).unique hu' h hunder
          List.prefix_rfl)

theorem covers_iff {x : Rel} : r.excluded.covers x = true ↔
    covered x (parse lines origin).noBackup = true := by
  rw [PointMark.covers, Bool.or_eq_true, decide_eq_true_eq, covered_iff]
  constructor
  · rintro (h | h)
    · obtain ⟨d, hd, rfl⟩ := Keyed.mem_keys.mp h
      obtain ⟨o, -, hcov, rfl⟩ := mem_pointMark_datasets.mp ((hmark.datasets d).mp hd)
      exact covered_iff.mp hcov
    · obtain ⟨top, htop⟩ := Option.isSome_iff_exists.mp h
      obtain ⟨hmem, hunder, -⟩ := covering_eq_some htop
      exact ⟨top, (mem_leftOut hmark).mp hmem, hunder⟩
  · rintro ⟨top, htop, hunder⟩
    refine .inr (Option.isSome_iff_ne_none.mpr fun hnone => ?_)
    have hempty := covering_eq_none_iff.mp hnone top ((mem_leftOut hmark).mpr htop) hunder
    obtain ⟨e, he, -, rfl⟩ := mem_minimalTops hnames htop
    exact text_ne_empty_of_mem_tops hnames he hempty

/-- What recover sets excludes only what was excluded in origin. -/
theorem covered_of_hasNo (hs : recoverExclusions r = some s) {flag : Flag} {top : Rel}
    (h : s.HasNo top flag) :
    covered top ((parse lines origin).minimalTops flag) = true := by
  obtain ⟨hmem, rfl, -⟩ | ⟨row, hrow, -, rfl, hflag⟩ :=
    ((recoverExclusions_spec hs).2.2 top flag).mp h
  · exact covered_iff.mpr ⟨top, ((mem_mark_noSnapshot hmark).mp hmem).1, List.prefix_rfl⟩
  · rw [createFlags, (planned_buildPlan r).flags row hrow, flagsFor] at hflag
    by_cases htop : r.topOf row.rel = some row.rel
    · have hmem := (topOf_eq_some_self hnames hmark).mp htop
      rw [if_pos htop, flags_of_top hmark hmem] at hflag
      cases flag with
      | replicate => exact covered_iff.mpr ⟨row.rel, hmem, List.prefix_rfl⟩
      | snapshot =>
          have hboth : (parse lines origin).flagsOf row.rel = .both := by
            by_contra hne
            simp [hne] at hflag
          obtain ⟨e, he, hsnapshot⟩ : ∃ e, (parse lines origin).tops.get? row.rel = some e ∧
              e.snapshot = true := by
            rw [Declared.flagsOf] at hboth
            split at hboth
            · rename_i hany
              exact (Option.any_eq_true _ _).mp hany
            · cases hboth
          have hkey : e.top = row.rel := Keyed.key_of_get? he
          exact (covered_minimalTops hnames).mpr ⟨e, Keyed.mem_of_get? he, hsnapshot,
            hkey ▸ List.prefix_rfl⟩
    · simp [if_neg htop] at hflag

theorem hasNo_of_mem (hs : recoverExclusions r = some s) {flag : Flag} {top : Rel}
    (hmem : top ∈ s.datasets) (htop : top ∈ (parse lines origin).minimalTops flag) :
    s.HasNo top flag := by
  obtain ⟨hdatasets, -, hflags⟩ := recoverExclusions_spec hs
  obtain hc | ⟨row, hrow, rfl, hfate⟩ := (hdatasets top).mp hmem
  · exact absurd List.prefix_rfl (not_under_of_created hnames (.inl hc) htop)
  rw [hflags]
  by_cases hbackup : row.rel ∈ (parse lines origin).noBackup
  · -- Created empty, with the snapshot exclusion too where it was set on that top itself.
    have hof := (topOf_eq_some_self hnames hmark).mpr hbackup
    have hempty : row.empty = true :=
      ((planned_buildPlan r).empties row hrow).trans (covers_of_topOf hof)
    refine .inr ⟨row, hrow, hempty, rfl, ?_⟩
    rw [createFlags, (planned_buildPlan r).flags row hrow, flagsFor, if_pos hof,
      flags_of_top hmark hbackup]
    cases flag with
    | replicate => simp
    | snapshot =>
        obtain ⟨e, he, hsnapshot, hkey⟩ := mem_minimalTops hnames htop
        have hboth : (parse lines origin).flagsOf row.rel = .both := by
          rw [Declared.flagsOf, ← hkey, show (parse lines origin).tops.get? e.top
            = some e from Keyed.get?_of_mem he]
          exact if_pos hsnapshot
        simp [hboth]
  · obtain rfl : flag = .snapshot := by
      cases flag with
      | replicate => exact absurd htop hbackup
      | snapshot => rfl
    have hempty : row.empty = false := by
      rw [(planned_buildPlan r).empties row hrow, ← Bool.not_eq_true]
      intro hcovers
      have hhas := List.mem_filter.mp (rels_buildPlan r ▸ List.mem_map_of_mem hrow)
      have hof : r.topOf row.rel = some row.rel := by simpa [hasRow, hcovers] using hhas.2
      exact hbackup ((topOf_eq_some_self hnames hmark).mp hof)
    rw [hempty, Bool.or_false] at hfate
    refine .inl ⟨(mem_mark_noSnapshot hmark).mpr ⟨htop, hbackup⟩, rfl, row, ?_, hfate⟩
    have hnodup : ((buildPlan r).map RestoreRow.rel).Nodup := by
      rw [rels_buildPlan]
      exact (nodup_wanted r).filter _
    exact Keyed.get?_of_mem (s := ⟨buildPlan r, hnodup⟩) hrow

/-- A dataset that exists after a recover is excluded exactly when it was in origin. -/
theorem excludes_iff_covered (hs : recoverExclusions r = some s) {x : Rel}
    (hx : x ∈ s.datasets ∨ x = keystore) (flag : Flag) :
    s.Excludes flag x ↔ covered x ((parse lines origin).minimalTops flag) = true := by
  constructor
  · rintro ⟨top, hno, hunder⟩
    obtain ⟨above, hmem, habove⟩ := covered_iff.mp (covered_of_hasNo hnames hmark hs hno)
    exact covered_iff.mpr ⟨above, hmem, hunder.trans habove⟩
  · intro hcov
    obtain ⟨top, htop, hunder⟩ := covered_iff.mp hcov
    obtain hx | rfl := hx
    · have hne : top ≠ [] := by
        rintro rfl
        obtain ⟨e, he, -, hkey⟩ := mem_minimalTops hnames htop
        exact text_ne_empty_of_mem_tops hnames he (by rw [hkey]; rfl)
      exact ⟨top, hasNo_of_mem hnames hmark hs
        ((parentClosed_recovered hs).mem_of_under hx hunder hne) htop, hunder⟩
    · exact absurd hunder (not_under_of_created hnames (.inr rfl) htop)

end Origin

/-- Written at a point, read back and set again by recover, the exclusions cover of the recovered
system what they covered in origin. -/
theorem exclusions_survive_recover (lines : List String) (hnames : NamesDatasets lines)
    (origin : Origins) (horigin : ∀ o ∈ origin, o.rel.IsName) :
    ∃ mark, parsePointMark (pointMark (parse lines origin) origin).dump = some mark ∧
      ∀ r s, r.excluded = mark → recoverExclusions r = some s →
      ∀ flag, ∀ x ∈ keystore :: s.datasets,
        (s.Excludes flag x ↔ covered x ((parse lines origin).minimalTops flag) = true) := by
  obtain ⟨mark, hparse, hsame⟩ := parsePointMark_dump (named_pointMark hnames horigin)
  refine ⟨mark, hparse, fun r s hr hs flag x hx => ?_⟩
  subst hr
  exact excludes_iff_covered hnames hsame hs ((List.mem_cons.mp hx).symm) flag

/-- A subtree left out of snapshots that holds one left out of backups. -/
def cacheOrigin : Origins :=
  ⟨[{ rel := ["rpool"] }, { rel := ["rpool", "data"] },
    { rel := ["rpool", "data", "cache"] }], by decide⟩

def cacheLines : List String :=
  ["rpool/data\torg.zark:snapshot\tno", "rpool/data/cache\torg.zark:replicate\tno"]

def cacheRequest : RestoreRequest :=
  let data : Snap :=
    { stored := ["rpool", "data"], name := "zark_2026-03-01_00:00:00Z", creation := 100 }
  { stored := ⟨[⟨["rpool"], .filesystem⟩, ⟨["rpool", "data"], .filesystem⟩], by decide⟩
    be := "ubuntu"
    point := ⟨"zark_", [data]⟩
    snaps := [data]
    excluded :=
      (parsePointMark (pointMark (parse cacheLines cacheOrigin) cacheOrigin).dump).getD {} }

theorem exclusions_survive_recover_cache :
    ∃ s, recoverExclusions cacheRequest = some s ∧ s.Excludes .snapshot ["rpool", "data", "cache"] ∧
      ¬s.Excludes .replicate ["rpool", "data"] := by
  obtain ⟨mark, hparse, hcovers⟩ :=
    exclusions_survive_recover cacheLines (by unfold NamesDatasets; decide +kernel) cacheOrigin
      (by decide +kernel)
  obtain ⟨s, hs⟩ :=
    Option.isSome_iff_exists.mp (show (recoverExclusions cacheRequest).isSome
      = true by decide +kernel)
  have hmark : cacheRequest.excluded = mark := by
    rw [cacheRequest, hparse, Option.getD_some]
  have hmem : ∀ x ∈ [["rpool", "data"], ["rpool", "data", "cache"]], x ∈ s.datasets := by
    have hall : ∀ x ∈ [["rpool", "data"], ["rpool", "data", "cache"]],
        x ∈ (recoverExclusions cacheRequest).elim [] Recovered.datasets := by
      decide +kernel
    rwa [hs] at hall
  refine ⟨s, hs, ?_, ?_⟩
  · rw [hcovers _ _ hmark hs .snapshot _ (List.mem_cons_of_mem _ (hmem _ (by simp)))]
    decide +kernel
  · rw [hcovers _ _ hmark hs .replicate _ (List.mem_cons_of_mem _ (hmem _ (by simp)))]
    decide +kernel

end Zark
