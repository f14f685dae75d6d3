import Zark.DestroyHeld
import Zark.Library.Checks
import Zark.Library.Text
import Zark.Proof.PointLosses
import Zark.Proof.PointMark

/-!
# What the destroy of an excluded subtree records

A point that lost something is recorded as leaving out the whole top, not only what went. Where the
destroys stop before the top, or an archived lineage of it stays, datasets at or below it may still
hold the point: recover then leaves out what the drive has.
-/

namespace Zark

open Hierarchy

/-! ### Names -/

/-- The names that read back: some components, no slash in any. -/
theorem isName_iff {r : Rel} : r.IsName ↔ r ≠ [] ∧ ∀ part ∈ r, '/' ∉ part.toList := by
  constructor
  · intro h
    refine ⟨?_, fun part hpart => ?_⟩
    · rintro rfl
      exact absurd h (by decide)
    · rw [← show Rel.ofText r.text = r from h] at hpart
      obtain ⟨l, hl, rfl⟩ := List.mem_map.mp hpart
      rw [String.toList_ofList]
      exact Text.not_mem_of_mem_splitOn hl
  · rintro ⟨hne, hparts⟩
    show (r.text.toList.splitOn '/').map String.ofList = r
    have hslash : ∀ l ∈ r.map String.toList, '/' ∉ l := by
      intro l hl
      obtain ⟨part, hpart, rfl⟩ := List.mem_map.mp hl
      exact hparts part hpart
    rw [Rel.text, String.toList_intercalate, show "/".toList = ['/'] from rfl,
      List.splitOn_intercalate '/' hslash (by simpa using hne), List.map_map]
    exact (List.map_congr_left fun part _ => String.ofList_toList).trans (List.map_id r)

theorem isName_logical {r : Rel} (h : r.IsName) : (logical r).IsName := by
  rw [isName_iff] at h ⊢
  refine ⟨by simpa [logical] using h.1, fun part hpart hslash => ?_⟩
  obtain ⟨own, hown, rfl⟩ := List.mem_map.mp hpart
  rw [String.toList_ofList] at hslash
  have hcut := cutMark_prefix own.toList
  exact h.2 own hown (hcut.subset hslash)

/-! ### The destroys -/

section Destroys

variable {destroy : Drive → Rel → Option Drive} {marks : Marks}

theorem driveSnapshots_destroyTop (hdestroy : TakesTree destroy) (top : Rel) (deps : DestroyPlan)
    (dest : Drive) :
    driveSnapshots (destroyTop destroy top deps dest).2.2 marks =
      (driveSnapshots dest marks).filter (!·.gone (destroyTop destroy top deps dest).1) := by
  have hlist := @driveSnapshots_destroyDependents destroy marks hdestroy deps dest
  rw [destroyTop]
  generalize destroyDependents destroy deps dest = run at hlist ⊢
  obtain ⟨gone, ok, dest'⟩ := run
  cases ok with
  | false => exact hlist
  | true =>
      cases htop : destroy dest' top with
      | none =>
          simp only [htop]
          exact hlist
      | some dest'' =>
          simp only [htop, hdestroy dest' top dest'' htop, driveSnapshots_filter, hlist,
            List.filter_filter, gone_append, Bool.not_or, Bool.and_comm]

variable {readable : Bool} {records : Records} {values : Rel → Option (String × String)} {top : Rel}
  {flags : Flags} {deps : Option DestroyPlan}
  {dest : Drive}

/-- What a destroy of an excluded top leaves: nothing went, or the points that lost something are
rewritten where their new records fit, none of them where a record cannot be read. -/
theorem destroyHeld_spec (hdestroy : TakesTree destroy) {out : HeldDestroy}
    (hout : destroyHeld destroy readable marks records values top flags deps dest = out) :
    driveSnapshots out.drive marks = (driveSnapshots dest marks).filter (!·.gone out.gone) ∧
      (out.gone = [] ∧ out.written = [] ∨
        out.gone ≠ [] ∧
        out.written = ((rewrites top flags (driveSnapshots dest marks) records out.gone values).getD
          []).filter (·.2.fits)) := by
  have hnothing : (driveSnapshots dest marks).filter (!·.gone []) = driveSnapshots dest marks := by
    simp [Snap.gone, covered]
  subst hout
  simp only [destroyHeld]
  split
  · exact ⟨hnothing.symm, .inl ⟨rfl, rfl⟩⟩
  · have hlist :=
      @driveSnapshots_destroyTop destroy marks hdestroy top (deps.getD ⟨top, [], []⟩) dest
    generalize destroyTop destroy top (deps.getD ⟨top, [], []⟩) dest = run at hlist ⊢
    obtain ⟨gone, ok, after⟩ := run
    by_cases hgone : gone = []
    · subst hgone
      simp only [if_true]
      exact ⟨hlist, .inl ⟨trivial, trivial⟩⟩
    · simp only [if_neg hgone]
      cases hpoints : rewrites top flags (driveSnapshots dest marks) records gone values with
      | none => exact ⟨hlist, .inr ⟨hgone, by simp [hpoints]⟩⟩
      | some points => exact ⟨hlist, .inr ⟨hgone, by simp [hpoints]⟩⟩

end Destroys

/-! ### The rewrites -/

section Rewrites

variable {top : Rel} {flags : Flags} {snaps after : List Snap} {records : Records} {gone : List Rel}
  {values : Rel → Option (String × String)}
  {point : String} {pm : Option PointMark} {left : PointMark} {loss : PointLoss}
  {rw : Rewrite} {rel : Rel}

theorem mem_rewrites (hne : gone ≠ []) {points : List (String × Rewrite)}
    (h : rewrites top flags snaps records gone values = some points) :
    (point, rw) ∈ points ↔ ∃ loss, (point, loss) ∈ pointLosses snaps gone ∧
    rewriteOf top flags records values loss = some rw := by
  rw [rewrites, if_neg hne] at h
  rw [Option.mem_of_mapM h]
  simp [Option.map_eq_some_iff]

theorem rewrites_eq_none_iff (hne : gone ≠ []) :
    rewrites top flags snaps records gone values = none ↔
    ∃ loss ∈ pointLosses snaps gone, recordLeft records loss.2.targets = none := by
  rw [rewrites, if_neg hne, Option.mapM_eq_none_iff]
  simp [rewriteOf]

/-- What is written leaves out everything at and below the top. -/
theorem covers_rewriteOf_top (hflags : flags ≠ .snapshots) (htop : top.text ≠ "")
    (h : rewriteOf top flags records values loss = some rw) (hunder : Under rel top) :
    rw.mark.covers rel = true := by
  obtain ⟨left, -, rfl⟩ := Option.map_eq_some_iff.mp h
  exact PointMark.covers_iff.mpr (.inr ⟨⟨top, flags⟩, Keyed.mem_put.mpr (.inr rfl), hflags,
    hunder, htop⟩)

theorem covers_of_rewriteOf (hleft : recordLeft records loss.targets = some left)
    (h : rewriteOf top flags records values loss = some rw) (hlost : rel ∉ loss.lost)
    (hout : flags ≠ .snapshots → ¬Under rel top) (hcovers : rw.mark.covers rel = true) :
    left.covers rel = true := by
  rw [rewriteOf, hleft, Option.map_some, Option.some.injEq] at h
  subst h
  rw [PointMark.covers_iff] at hcovers ⊢
  rcases hcovers with hkey | ⟨t, ht, hflags, hunder, htext⟩
  · refine .inl ((Keyed.mem_keys_foldl_put.mp hkey).resolve_right fun hmem => hlost ?_)
    simpa [lostDatasets] using hmem
  · rcases Keyed.mem_put.mp ht with ⟨ht, -⟩ | rfl
    · exact .inr ⟨t, ht, hflags, hunder, htext⟩
    · exact absurd hunder (hout hflags)

theorem named_recordLeft {targets : List SnapName} (h : recordLeft records targets = some left) :
    left.Named := by
  unfold recordLeft at h
  split at h
  · obtain rfl := (Option.some.inj h).symm
    exact ⟨fun _ h => absurd h List.not_mem_nil, fun _ h => absurd h List.not_mem_nil⟩
  · obtain ⟨value, -, hparse⟩ := Option.bind_eq_some_iff.mp h
    exact named_of_parsePointMark hparse

theorem named_rewriteOf (htop : top.IsName) (hlost : ∀ r ∈ loss.lost, r.IsName)
    (h : rewriteOf top flags records values loss = some rw) :
    rw.mark.Named := by
  obtain ⟨left, hleft, rfl⟩ := Option.map_eq_some_iff.mp h
  have hnamed := named_recordLeft hleft
  refine ⟨fun t ht => ?_, fun d hd => ?_⟩
  · rcases Keyed.mem_put.mp ht with ⟨ht, -⟩ | rfl
    · exact hnamed.1 t ht
    · exact htop
  · rcases Keyed.of_mem_foldl_put hd with hd | hd
    · exact hnamed.2 d hd
    · obtain ⟨r, hr, rfl⟩ := List.mem_map.mp hd
      exact hlost r hr

/-! ### Reading a record -/

theorem mem_pointValues {value : Option String} :
    value ∈ pointValues records snaps point ↔
    ∃ s ∈ pointMembers snaps point, records (s.stored, s.name) = some value := by
  rw [pointValues, List.mem_dedup, List.mem_filterMap]

theorem readPointMark_of_all {text : String} (hne : pointMembers snaps point ≠ [])
    (hall : ∀ s ∈ pointMembers snaps point, records (s.stored, s.name) = some (some text)) :
    readPointMark records snaps point = (parsePointMark text).map some := by
  have hvalues : pointValues records snaps point = [some text] := by
    rw [pointValues, List.filterMap_congr hall, List.filterMap_eq_map', List.map_const',
      List.replicate_dedup]
    simpa using hne
  rw [readPointMark, hvalues]

theorem readPointMark_eq_some (h : readPointMark records snaps point = some pm) :
    pointValues records snaps point = [] ∧ pm = none ∨
      ∃ value m, pointValues records snaps point = [some value] ∧ parsePointMark value = some m ∧
      pm = some m := by
  unfold readPointMark at h
  split at h
  · rename_i hvalues
    exact .inl ⟨hvalues, (Option.some.inj h).symm⟩
  · rename_i value hvalues
    obtain ⟨m, hparse, rfl⟩ := Option.map_eq_some_iff.mp h
    exact .inr ⟨value, m, hvalues, hparse, rfl⟩
  · cases h

/-- What the first record left of a point leaves out, the point's record does. -/
theorem covers_of_recordLeft {targets : List SnapName}
    (hread : readPointMark records snaps point = some pm)
    (htargets : ∀ x ∈ targets, ∃ s ∈ pointMembers snaps point, (s.stored, s.name) = x)
    (hleft : recordLeft records targets = some left) (hcovers : left.covers rel = true) :
    pm.any (·.covers rel) = true := by
  unfold recordLeft at hleft
  split at hleft
  · obtain rfl := (Option.some.inj hleft).symm
    cases hcovers
  · rename_i record rest hfirst
    obtain ⟨value, rfl, hparse⟩ := Option.bind_eq_some_iff.mp hleft
    obtain ⟨x, hx, hrecord⟩ :=
      List.mem_filterMap.mp (hfirst ▸ List.mem_cons_self : some value ∈ targets.filterMap records)
    obtain ⟨s, hs, rfl⟩ := htargets x hx
    have hmem := mem_pointValues.mpr ⟨s, hs, hrecord⟩
    rcases readPointMark_eq_some hread with ⟨hnil, -⟩ | ⟨value', m, hvalues, hparse', rfl⟩
    · exact absurd hmem (hnil ▸ List.not_mem_nil)
    · rw [hvalues, List.mem_singleton, Option.some.injEq] at hmem
      subst hmem
      rw [hparse, Option.some.injEq] at hparse'
      subst hparse'
      exact hcovers

/-- A point whose records are as they were is read as it was, where it is read with a record. -/
theorem readPointMark_of_subset {records' : Records} {m : PointMark}
    (hread : readPointMark records snaps point = some pm)
    (hsub : ∀ s ∈ pointMembers after point, s ∈ pointMembers snaps point)
    (hsame : ∀ s ∈ pointMembers after point,
      records' (s.stored, s.name) = records (s.stored, s.name))
    (hread' : readPointMark records' after point = some (some m)) : pm = some m := by
  obtain ⟨-, hnone⟩ | ⟨value, m', hvalues, hparse, hm⟩ := readPointMark_eq_some hread'
  · cases hnone
  · obtain rfl := Option.some.inj hm
    obtain ⟨s, hs, hrecord⟩ :=
      mem_pointValues.mp (hvalues ▸ List.mem_cons_self : some value ∈ pointValues
        records' after point)
    have hmem := mem_pointValues.mpr ⟨s, hsub s hs, (hsame s hs).symm.trans hrecord⟩
    rcases readPointMark_eq_some hread with ⟨hnil, -⟩ | ⟨value', m', hvalues', hparse', rfl⟩
    · exact absurd hmem (hnil ▸ List.not_mem_nil)
    · rw [hvalues', List.mem_singleton, Option.some.injEq] at hmem
      subst hmem
      exact congrArg some (Option.some.inj (hparse'.symm.trans hparse))

/-! ### Writing the records -/

theorem setRecords_of_not_mem {written : List (String × Rewrite)} {x : SnapName}
    (h : ∀ w ∈ written, x ∉ w.2.targets) :
    setRecords written records x = records x := by
  induction written generalizing records with
  | nil => rfl
  | cons w written ih =>
      rw [setRecords, List.foldl_cons]
      refine (ih fun v hv => h v (List.mem_cons_of_mem _ hv)).trans ?_
      rw [setRecord, if_neg (h w List.mem_cons_self)]

theorem setRecords_of_mem {written : List (String × Rewrite)} {x : SnapName}
    (hone : ∀ w ∈ written, x ∈ w.2.targets → w.2 = rw) (hmem : ∃ w ∈ written, x ∈ w.2.targets) :
    setRecords written records x = some (some rw.mark.dump) := by
  induction written generalizing records with
  | nil =>
      obtain ⟨w, hw, -⟩ := hmem
      cases hw
  | cons w written ih =>
      rw [setRecords, List.foldl_cons]
      by_cases hlater : ∃ v ∈ written, x ∈ v.2.targets
      · exact ih (fun v hv => hone v (List.mem_cons_of_mem _ hv)) hlater
      · have hw : x ∈ w.2.targets := by
          obtain ⟨v, hv, hx⟩ := hmem
          rcases List.mem_cons.mp hv with rfl | hv
          · exact hx
          · exact absurd ⟨v, hv, hx⟩ hlater
        refine (setRecords_of_not_mem fun v hv hx => hlater ⟨v, hv, hx⟩).trans ?_
        rw [setRecord, if_pos hw, hone w List.mem_cons_self hw]

/-! ### What is recorded as left out -/

/-- Of the points whose records could be read, each leaves out afterwards only what it did before,
as far as the drive still holds it. -/
def KeepsHeld (records records' : Records) (snaps after : List Snap) : Prop :=
  ∀ point pm, readPointMark records snaps point = some pm → ∀ rel, HoldsPoint after point rel →
    ∀ pm', readPointMark records' after point = some (some pm') → pm'.covers rel = true →
    pm.any (·.covers rel) = true

/-- What went divides a point at the top: the point lost a dataset and is rewritten, and a dataset
at or below the top that its record does not leave out still holds it. -/
structure Divides (top : Rel) (flags : Flags) (records : Records)
    (values : Rel → Option (String × String)) (snaps : List Snap) (gone : List Rel) (point : String)
    (rel : Rel) : Prop where
  /-- The top is excluded from backups. -/
  backups : flags ≠ .snapshots
  /-- No record stops the rewrites. -/
  readable : ∀ loss ∈ pointLosses snaps gone, recordLeft records loss.2.targets ≠ none
  loss : ∃ loss rw, (point, loss) ∈ pointLosses snaps gone ∧
    rewriteOf top flags records values loss = some rw ∧ rw.fits = true
  kept : ∃ s ∈ Zark.left snaps gone point, s.dataset = rel
  under : Under rel top
  shown : ∃ pm, readPointMark records snaps point = some pm ∧ pm.any (·.covers rel) = false

variable {destroy : Drive → Rel → Option Drive} {marks : Marks} {dest : Drive}

theorem stored_mem_keys {s : Snap} (h : s ∈ driveSnapshots dest marks) : s.stored ∈ dest.keys := by
  obtain ⟨d, hd, ref, -, rfl⟩ := mem_driveSnapshots.mp h
  exact Keyed.key_mem_keys hd

theorem pointMembers_filter_gone : pointMembers (snaps.filter (!·.gone gone)) point
      = Zark.left snaps gone point := List.filter_comm _ _ _

theorem targets_of_mem_rewrites (hne : gone ≠ []) {points : List (String × Rewrite)}
    (hpoints : rewrites top flags snaps records gone values = some points)
    (hmem : (point, rw) ∈ points) :
    rw.targets = (Zark.left snaps gone point).map fun s => (s.stored, point) := by
  obtain ⟨loss, hloss, hrw⟩ := (mem_rewrites hne hpoints).mp hmem
  obtain ⟨left, -, rfl⟩ := Option.map_eq_some_iff.mp hrw
  obtain ⟨-, -, -, rfl⟩ := pointLoss_eq_some_iff.mp (mem_pointLosses.mp hloss).2
  rfl

theorem eq_of_mem_targets (hne : gone ≠ []) {points : List (String × Rewrite)}
    (hpoints : rewrites top flags snaps records gone values = some points)
    (hmem : (point, rw) ∈ points) {s : Snap} (h : (s.stored, s.name) ∈ rw.targets) :
    point = s.name := by
  rw [targets_of_mem_rewrites hne hpoints hmem] at h
  obtain ⟨t, -, ht⟩ := List.mem_map.mp h
  exact congrArg Prod.snd ht

theorem unique_of_mem_rewrites (hne : gone ≠ []) {points : List (String × Rewrite)}
    (hpoints : rewrites top flags snaps records gone values = some points) {rw' : Rewrite}
    (hmem : (point, rw) ∈ points) (hmem' : (point, rw') ∈ points) : rw' = rw := by
  obtain ⟨loss, hloss, hrw⟩ := (mem_rewrites hne hpoints).mp hmem
  obtain ⟨loss', hloss', hrw'⟩ := (mem_rewrites hne hpoints).mp hmem'
  obtain rfl : loss' = loss :=
    Option.some.inj ((mem_pointLosses.mp hloss').2.symm.trans (mem_pointLosses.mp hloss).2)
  exact Option.some.inj (hrw'.symm.trans hrw)

theorem setRecords_left (hne : gone ≠ []) {points : List (String × Rewrite)}
    (hpoints : rewrites top flags snaps records gone values = some points)
    (hmem : (point, rw) ∈ points) (hfits : rw.fits = true) {s : Snap}
    (hs : s ∈ Zark.left snaps gone point) :
    setRecords (points.filter (·.2.fits)) records (s.stored, s.name)
      = some (some rw.mark.dump) := by
  have hname := (mem_left.mp hs).2.1
  refine setRecords_of_mem (fun w hw hx => ?_) ⟨(point, rw), List.mem_filter.mpr ⟨hmem, hfits⟩, ?_⟩
  · have hw := List.mem_of_mem_filter hw
    have hpoint : w.1 = point := (eq_of_mem_targets hne hpoints hw hx).trans hname
    exact unique_of_mem_rewrites hne hpoints hmem (hpoint ▸ hw)
  · rw [targets_of_mem_rewrites hne hpoints hmem]
    exact List.mem_map.mpr ⟨s, hs, by rw [hname]⟩

theorem setRecords_of_other (hne : gone ≠ []) {points : List (String × Rewrite)}
    (hpoints : rewrites top flags snaps records gone values = some points) {s : Snap}
    (hother : ∀ rw, (s.name, rw) ∈ points → rw.fits = false) :
    setRecords (points.filter (·.2.fits)) records (s.stored, s.name)
      = records (s.stored, s.name) := by
  refine setRecords_of_not_mem fun w hw hx => ?_
  obtain ⟨hw, hfits⟩ := List.mem_filter.mp hw
  have hpoint := eq_of_mem_targets hne hpoints hw hx
  exact absurd (hother w.2 (hpoint ▸ hw)) (by simp [hfits])

theorem readPointMark_of_same {records' : Records} (hafter : after = snaps.filter (!·.gone gone))
    (hsame : ∀ s ∈ Zark.left snaps gone point,
      records' (s.stored, s.name) = records (s.stored, s.name))
    (hread : readPointMark records snaps point = some pm) {m : PointMark}
    (hread' : readPointMark records' after point = some (some m)) :
    pm = some m := by
  subst hafter
  refine readPointMark_of_subset hread (fun s hs => ?_)
    (fun s hs => hsame s (pointMembers_filter_gone ▸ hs)) hread'
  exact mem_pointMembers.mpr ((mem_pointMembers.mp hs).imp_left List.mem_of_mem_filter)

theorem readPointMark_rewritten (hne : gone ≠ []) {points : List (String × Rewrite)}
    (hpoints : rewrites top flags snaps records gone values = some points)
    (hmem : (point, rw) ∈ points) (hfits : rw.fits = true) (hnamed : rw.mark.Named) :
    ∃ m, readPointMark (setRecords (points.filter (·.2.fits)) records)
      (snaps.filter (!·.gone gone)) point = some (some m) ∧ m.Same rw.mark := by
  obtain ⟨m, hparse, hsame⟩ := parsePointMark_dump hnamed
  obtain ⟨loss, hloss, -⟩ := (mem_rewrites hne hpoints).mp hmem
  obtain ⟨-, hleft, -⟩ := pointLoss_eq_some_iff.mp (mem_pointLosses.mp hloss).2
  refine ⟨m, (@readPointMark_of_all _ _ _ rw.mark.dump ?_ fun s hs => ?_).trans
    (by rw [hparse]; rfl), hsame⟩
  · rwa [pointMembers_filter_gone]
  · exact setRecords_left hne hpoints hmem hfits (pointMembers_filter_gone ▸ hs)

theorem named_of_mem_rewrites (hne : gone ≠ []) (hnames : ∀ s ∈ snaps, s.stored.IsName)
    (htop : top.IsName) {points : List (String × Rewrite)}
    (hpoints : rewrites top flags snaps records gone values = some points)
    (hmem : (point, rw) ∈ points) : rw.mark.Named := by
  obtain ⟨loss, hloss, hrw⟩ := (mem_rewrites hne hpoints).mp hmem
  obtain ⟨-, -, -, rfl⟩ := pointLoss_eq_some_iff.mp (mem_pointLosses.mp hloss).2
  refine named_rewriteOf htop (fun r hr => ?_) hrw
  obtain ⟨⟨s, hs, -, rfl⟩, -⟩ := mem_lost.mp hr
  exact isName_logical (hnames s hs)

/-- What a rewritten point still holds and its new record leaves out, it left out before, or the
point is divided. -/
theorem covers_of_rewritten (hne : gone ≠ []) {points : List (String × Rewrite)}
    (hpoints : rewrites top flags snaps records gone values = some points)
    (hmem : (point, rw) ∈ points) (hread : readPointMark records snaps point = some pm)
    (hholds : ∃ s ∈ Zark.left snaps gone point, s.dataset = rel)
    (hout : flags ≠ .snapshots → ¬Under rel top) (hcovers : rw.mark.covers rel = true) :
    pm.any (·.covers rel) = true := by
  obtain ⟨loss, hloss, hrw⟩ := (mem_rewrites hne hpoints).mp hmem
  obtain ⟨left, hleft, -⟩ := Option.map_eq_some_iff.mp hrw
  obtain ⟨-, -, -, rfl⟩ := pointLoss_eq_some_iff.mp (mem_pointLosses.mp hloss).2
  refine covers_of_recordLeft hread (fun x hx => ?_) hleft
    (covers_of_rewriteOf hleft hrw (fun hlost => (mem_lost.mp hlost).2 hholds) hout hcovers)
  obtain ⟨s, hs, rfl⟩ := List.mem_map.mp hx
  obtain ⟨hs, hname, -⟩ := mem_left.mp hs
  exact ⟨s, mem_pointMembers.mpr ⟨hs, hname⟩, by rw [hname]⟩

/-- Once points are rewritten, the records are kept to exactly where none of them is divided. -/
theorem keepsHeld_rewritten_iff (hne : gone ≠ []) (hnames : ∀ s ∈ snaps, s.stored.IsName)
    (htop : top.IsName) (htext : top.text ≠ "") {points : List (String × Rewrite)}
    (hpoints : rewrites top flags snaps records gone values = some points) :
    KeepsHeld records (setRecords (points.filter (·.2.fits)) records) snaps
      (snaps.filter (!·.gone gone)) ↔
      ∀ point rel, ¬Divides top flags records values snaps gone point rel := by
  have hreadable : ∀ loss ∈ pointLosses snaps gone, recordLeft records loss.2.targets ≠ none := by
    intro loss hloss hnone
    rw [(rewrites_eq_none_iff hne).mpr ⟨loss, hloss, hnone⟩] at hpoints
    cases hpoints
  constructor
  · intro hkeeps point rel h
    obtain ⟨loss, rw, hloss, hrw, hfits⟩ := h.loss
    obtain ⟨pm, hread, hshown⟩ := h.shown
    have hmem : (point, rw) ∈ points := (mem_rewrites hne hpoints).mpr ⟨loss, hloss, hrw⟩
    obtain ⟨m, hread', hsame⟩ :=
      readPointMark_rewritten hne hpoints hmem hfits
        (named_of_mem_rewrites hne hnames htop hpoints hmem)
    have hholds : HoldsPoint (snaps.filter (!·.gone gone)) point rel := by
      obtain ⟨s, hs, hdataset⟩ := h.kept
      obtain ⟨hs, hname, hleft⟩ := mem_left.mp hs
      exact ⟨s, List.mem_filter.mpr ⟨hs, by simp [hleft]⟩, hname, hdataset⟩
    have hcovers : m.covers rel = true :=
      (hsame.covers rel).trans (covers_rewriteOf_top h.backups htext hrw h.under)
    exact absurd (hkeeps point pm hread rel hholds m hread' hcovers) (by simp [hshown])
  · intro hnone point pm hread rel hholds m hread' hcovers
    have hkept : ∃ s ∈ Zark.left snaps gone point, s.dataset = rel := by
      obtain ⟨s, hs, hname, hdataset⟩ := hholds
      obtain ⟨hs, hleft⟩ := List.mem_filter.mp hs
      exact ⟨s, mem_left.mpr ⟨hs, hname, by simpa using hleft⟩, hdataset⟩
    by_cases hwritten : ∃ rw, (point, rw) ∈ points ∧ rw.fits = true
    · obtain ⟨rw, hmem, hfits⟩ := hwritten
      obtain ⟨m', hread'', hsame⟩ :=
        readPointMark_rewritten hne hpoints hmem hfits
          (named_of_mem_rewrites hne hnames htop hpoints hmem)
      obtain rfl : m' = m := Option.some.inj (Option.some.inj (hread''.symm.trans hread'))
      by_contra hshown
      refine hshown (covers_of_rewritten hne hpoints hmem hread hkept
        (fun hflags hunder => hnone point rel ?_) ((hsame.covers rel).symm.trans hcovers))
      obtain ⟨loss, hloss, hrw⟩ := (mem_rewrites hne hpoints).mp hmem
      exact ⟨hflags, hreadable, ⟨loss, rw, hloss, hrw, hfits⟩, hkept, hunder, pm,
        hread, by simpa using hshown⟩
    · have hother : ∀ s ∈ Zark.left snaps gone point, setRecords (points.filter (·.2.fits)) records
          (s.stored, s.name) = records (s.stored, s.name) := by
        intro s hs
        refine setRecords_of_other hne hpoints fun rw hrw => ?_
        rw [(mem_left.mp hs).2.1] at hrw
        by_contra hfits
        exact hwritten ⟨rw, hrw, by simpa using hfits⟩
      obtain rfl := readPointMark_of_same rfl hother hread hread'
      exact hcovers

/-- Destroys that stop anywhere, then the rewrites: what the drive still holds of a point is left
out only where it was before, exactly when no point is divided at the top. -/
theorem destroyHeld_keeps_iff (hdestroy : TakesTree destroy) (readable : Bool) (marks : Marks)
    (records : Records) (values : Rel → Option (String × String)) (flags : Flags)
    (deps : Option DestroyPlan) (hnames : ∀ rel ∈ dest.keys, rel.IsName) (htop : top.IsName)
    (htext : top.text ≠ "") :
    let out := destroyHeld destroy readable marks records values top flags deps dest
    KeepsHeld records (setRecords out.written records) (driveSnapshots dest marks)
      (driveSnapshots out.drive marks) ↔
      ∀ point rel,
        ¬Divides top flags records values (driveSnapshots dest marks) out.gone point rel := by
  intro out
  obtain ⟨hafter, ⟨hgone, hwritten⟩ | ⟨hne, hwritten⟩⟩ :=
    @destroyHeld_spec destroy marks readable records values top flags deps dest hdestroy out rfl
  · rw [hgone, hwritten]
    refine iff_of_true ?_ ?_
    · intro point pm hread rel _ m hread' hcovers
      obtain rfl := readPointMark_of_same (hgone ▸ hafter) (fun _ _ => rfl) hread hread'
      exact hcovers
    · intro point rel h
      obtain ⟨loss, rw, hloss, -⟩ := h.loss
      obtain ⟨s, -, -, hs, -⟩ := mem_losing.mp (mem_pointLosses.mp hloss).1
      simp [Snap.gone, covered] at hs
  · rw [hafter, hwritten]
    cases hpoints : rewrites top flags (driveSnapshots dest marks) records out.gone values with
    | none =>
        refine iff_of_true ?_ ?_
        · intro point pm hread rel _ m hread' hcovers
          obtain rfl := readPointMark_of_same rfl (fun _ _ => rfl) hread hread'
          exact hcovers
        · intro point rel h
          obtain ⟨loss, hloss, hnone⟩ := (rewrites_eq_none_iff hne).mp hpoints
          exact h.readable loss hloss hnone
    | some points =>
        exact keepsHeld_rewritten_iff hne (fun s hs => hnames _ (stored_mem_keys hs))
          htop htext hpoints

end Rewrites

/-! ### A destroy that stops at the top -/

def heldPoint : String := "zark_2026-01-01_00:00:00Z"

/-- A dataset branched after the point: the lineage that holds it is a clone now, while the child
was not branched. -/
def branchedAfter : Drive where
  items :=
    [{ rel := ["rpool", "home"], snaps := ⟨[⟨heldPoint, "1", 1, 10⟩], by decide⟩ },
     { rel := ["rpool", "data"], snaps := ⟨[⟨"daily", "2", 2, 5⟩], by decide⟩ },
     { rel := ["rpool", "data", "photos"], snaps := ⟨[⟨heldPoint, "3", 3, 10⟩], by decide⟩ },
     { rel := ["rpool", "data.archived-20260102"], snaps := ⟨[⟨heldPoint, "4", 4, 10⟩], by decide⟩,
       cloneOf := some (["rpool", "data"], "daily") }]
  nodup := by decide

/-- The subtree is in use: all but its own destroy runs. -/
def busy (dest : Drive) (x : Rel) : Option Drive :=
  if x = ["rpool", "data"] then none else zfsDestroy dest x

theorem takesTree_busy : TakesTree busy := by
  intro dest x dest' h
  unfold busy at h
  split at h
  · cases h
  · exact takesTree_zfsDestroy dest x dest' h

def heldMarks : Marks := fun x => if x.2 = heldPoint then "3" else ""

/-- The point was taken with nothing excluded. -/
def heldRecords : Records :=
  fun x => if x.2 = heldPoint then some (some ({} : PointMark).dump) else none

def busyRun (dest : Drive) : HeldDestroy :=
  destroyHeld busy true heldMarks heldRecords (fun _ => none) ["rpool", "data"] .backups
    (some (destroyPlan dest ["rpool", "data"])) dest

/-- With no child of the subtree left the point loses all it had of it. -/
theorem destroyHeld_keeps_iff_childless :
    let dest := branchedAfter.filter fun d => d.rel ≠ ["rpool", "data", "photos"]
    KeepsHeld heldRecords (setRecords (busyRun dest).written heldRecords)
        (driveSnapshots dest heldMarks) (driveSnapshots (busyRun dest).drive heldMarks) := by
  intro dest
  refine (@destroyHeld_keeps_iff ["rpool", "data"] busy dest takesTree_busy true heldMarks
    heldRecords (fun _ => none) .backups
    (some (destroyPlan dest ["rpool", "data"])) (by decide) (by decide)
      (by decide)).mpr fun point rel h => ?_
  have hout : ∀ loss ∈ pointLosses (driveSnapshots dest heldMarks) (busyRun dest).gone,
      ∀ s ∈ left (driveSnapshots dest heldMarks) (busyRun dest).gone loss.1,
      ¬Under s.dataset ["rpool", "data"] := by decide +kernel
  obtain ⟨loss, rw, hloss, -⟩ := h.loss
  obtain ⟨s, hs, rfl⟩ := h.kept
  exact hout _ hloss s hs h.under

/-- The lineage that held the point goes and the destroy of the subtree fails: the child still holds
the point, and its record leaves the child out. -/
theorem destroyHeld_leaves_out_held :
    (destroyPlan branchedAfter ["rpool", "data"]).ok = true ∧ (busyRun branchedAfter).gone =
    [["rpool", "data.archived-20260102"]] ∧
      (busyRun branchedAfter).ok = false ∧
      ¬KeepsHeld heldRecords (setRecords (busyRun branchedAfter).written heldRecords)
        (driveSnapshots branchedAfter heldMarks)
        (driveSnapshots (busyRun branchedAfter).drive heldMarks) := by
  refine ⟨by decide +kernel, by decide +kernel, by decide +kernel, fun hkeeps => ?_⟩
  have hbefore : (readPointMark heldRecords (driveSnapshots branchedAfter heldMarks) heldPoint).any
      (fun pm => pm.any (·.covers ["rpool", "data", "photos"])) = false ∧
      (readPointMark heldRecords (driveSnapshots branchedAfter heldMarks) heldPoint).isSome
        = true := by decide +kernel
  have hafter : (readPointMark (setRecords (busyRun branchedAfter).written heldRecords)
      (driveSnapshots (busyRun branchedAfter).drive heldMarks)
      heldPoint).any (fun pm => pm.any (·.covers ["rpool", "data", "photos"]))
        = true := by decide +kernel
  have hholds : HoldsPoint (driveSnapshots (busyRun branchedAfter).drive heldMarks) heldPoint
      ["rpool", "data", "photos"] := by
    unfold HoldsPoint
    decide +kernel
  obtain ⟨pm, hread⟩ := Option.isSome_iff_exists.mp hbefore.2
  obtain ⟨pm', hread', hcovers⟩ := (Option.any_eq_true _ _).mp hafter
  obtain ⟨m, rfl, hcovers⟩ := (Option.any_eq_true _ _).mp hcovers
  have hshown := hkeeps heldPoint pm hread ["rpool", "data", "photos"] hholds m hread' hcovers
  rw [hread, Option.any_some, hshown] at hbefore
  cases hbefore.1

end Zark
