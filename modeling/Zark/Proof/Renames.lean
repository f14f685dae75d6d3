import Zark.Proof.Coverage
import Zark.Proof.DriveCommands
import Zark.Proof.Rollback

/-!
# Offered renames are safe together

An orphan's tree lies wholly outside origin's names, and a rename's target and all above it are
origin's: no rename moves the place of another, takes its name or its source, in whatever order they
are followed. The renamed dataset has the newest snapshot its lineage was found by.
-/

namespace Zark

open Hierarchy

/-! ### What is offered -/

/-- A name origin has the lineage of an orphan under. -/
structure Offered (origin : Origins) (live : Drive) (newNames : List Rel) (rel name : Rel) :
    Prop where
  mem : name ∈ newNames
  pool : isBpool name = isBpool rel
  place : parent name ∈ live.keys
  lineage : ∃ d newest o, live.get? rel = some d ∧ d.newest = some newest ∧
    origin.get? name = some o ∧ continuesLineage o newest = true

section Offers

variable {origin : Origins} {dest live : Drive} {point : String} {skip newNames tops : List Rel}

theorem offered_of_renameOf {rel name : Rel} {taken : List Rel}
    (h : renameOf rel taken newNames origin live = some name) :
    Offered origin live newNames rel name ∧ name ∉ taken := by
  unfold renameOf at h
  obtain ⟨newest, hnewest, hfind⟩ := Option.bind_eq_some_iff.mp h
  obtain ⟨d, hd, hdnewest⟩ := Option.bind_eq_some_iff.mp hnewest
  have hmem := List.mem_of_find?_eq_some hfind
  have hcond := List.find?_some hfind
  simp only [Bool.and_eq_true, beq_iff_eq, Option.any_eq_true, decide_eq_true_eq, Bool.not_eq_true',
    List.contains_eq_mem, decide_eq_false_iff_not] at hcond
  obtain ⟨⟨⟨hpool, o, ho, hlineage⟩, hplace⟩, htaken⟩ := hcond
  exact ⟨⟨mem_sortRels.mp hmem, hpool, hplace, d, newest, o, hd, hdnewest, ho, hlineage⟩, htaken⟩

/-- No name is given twice, and each one is offered for its lineage. -/
structure Granted (origin : Origins) (live : Drive) (newNames tops : List Rel)
    (out : List (Rel × Rel)) : Prop where
  nodup : (out.map Prod.snd).Nodup
  offered : ∀ r ∈ out, r.1 ∈ tops ∧ Offered origin live newNames r.1 r.2

theorem granted_renames :
    Granted origin live newNames tops (renames tops newNames origin live) := by
  refine List.foldlRecOn (motive := Granted origin live newNames tops) tops _
    ⟨List.nodup_nil, by simp⟩ fun out hout rel hrel => ?_
  cases hrename : renameOf rel (out.map Prod.snd) newNames origin live with
  | none => exact hout
  | some name =>
      obtain ⟨hoffered, htaken⟩ := offered_of_renameOf hrename
      constructor
      · rw [List.map_append, List.map_singleton]
        exact List.Nodup.append hout.nodup (List.nodup_singleton _)
          (List.disjoint_singleton.mpr htaken)
      · intro r hr
        rcases List.mem_append.mp hr with hr | hr
        · exact hout.offered r hr
        · obtain rfl := List.mem_singleton.mp hr
          exact ⟨hrel, hoffered⟩

/-- The names of the planner's new datasets. -/
def newDatasets (origin : Origins) (dest : Drive) (point : String) (skip : List Rel) : List Rel :=
  ((wantedRows origin dest point skip ++ leftRows origin skip ++ declaredRows origin
    (liveDatasets dest) skip).filter (·.state == .new)).map
    DatasetPlan.rel

/-- The orphan tops with the names granted to them. -/
def granted (origin : Origins) (dest : Drive) (point : String) (skip : List Rel) :
    List (Rel × Rel) :=
  renames (orphanTops origin (liveDatasets dest)) (newDatasets origin dest point skip) origin
    (liveDatasets dest)

def orphanRow (origin : Origins) (dest : Drive) (point : String) (skip : List Rel) (rel : Rel)
    (d : Dest) : DatasetPlan where
  rel
  state := .orphan
  renameTo := (granted origin dest point skip).lookup rel
  kept := keptMark d.orphan
  used := d.used

def orphanRows (origin : Origins) (dest : Drive) (point : String) (skip : List Rel) :
    List DatasetPlan :=
  (orphanTops origin (liveDatasets dest)).filterMap fun rel =>
    ((liveDatasets dest).get? rel).map (orphanRow origin dest point skip rel)

theorem plan_eq_rows : plan origin dest point skip =
    wantedRows origin dest point skip ++ leftRows origin skip ++ declaredRows origin
      (liveDatasets dest) skip ++ orphanRows origin dest point skip :=
  rfl

theorem planExpected_renameTo (o : Origin) (origin : Origins) (live : Drive) (point : String) :
    (planExpected o origin live point).renameTo = none := by
  have hunwritten : ∀ d : Option Dest, (planUnwritten o d point).renameTo = none := by
    intro d
    cases d with
    | none => rfl
    | some d =>
        have hspec := planUnwritten_spec o d point
        generalize planUnwritten o (some d) point = p at hspec
        cases hspec <;> rfl
  have hdataset : ∀ d : Option Dest, (planDataset o d point).renameTo = none := by
    intro d
    unfold planDataset
    cases d with
    | none => exact hunwritten none
    | some d =>
        dsimp only
        split_ifs
        all_goals exact hunwritten _
  unfold planExpected
  dsimp only
  split
  · unfold cloneBase
    dsimp only
    split
    · exact hdataset _
    · exact hdataset _
  · exact hdataset _

/-- No row but an orphan's has a name to follow. -/
theorem renameTo_eq_none {p : DatasetPlan}
    (hp : p ∈ wantedRows origin dest point skip ++ leftRows origin skip ++
      declaredRows origin (liveDatasets dest) skip) : p.renameTo = none := by
  rcases List.mem_append.mp hp with hp | hp
  · rcases List.mem_append.mp hp with hp | hp
    · obtain ⟨rel, -, hrow⟩ := List.mem_filterMap.mp hp
      obtain ⟨o, -, rfl⟩ := Option.map_eq_some_iff.mp hrow
      exact planExpected_renameTo o origin _ point
    · obtain ⟨row, -, rfl⟩ := List.mem_map.mp hp
      rfl
  · obtain ⟨top, -, rfl⟩ := List.mem_map.mp hp
    rfl

theorem filterMap_renameTo : (plan origin dest point skip).filterMap DatasetPlan.renameTo =
    (orphanRows origin dest point skip).filterMap DatasetPlan.renameTo := by
  rw [plan_eq_rows, List.filterMap_append, List.filterMap_eq_nil_iff.mpr fun p hp =>
    renameTo_eq_none hp, List.nil_append]

theorem of_mem_newDatasets {name : Rel} (h : name ∈ newDatasets origin dest point skip) :
    ∃ o, origin.get? name = some o ∧ isExpected o skip = true ∧ name ∉ dest.keys := by
  obtain ⟨p, hp, rfl⟩ := List.mem_map.mp h
  obtain ⟨hp, hnew⟩ := List.mem_filter.mp hp
  rw [beq_iff_eq] at hnew
  have hmem : p ∈ plan origin dest point skip := by
    rw [plan_eq_rows]
    exact List.mem_append_left _ hp
  obtain ⟨o, ho, hexpected, rfl⟩ := mem_plan_expected hmem (by simp [hnew]) (by simp [hnew])
  rw [planExpected_rel] at *
  refine ⟨o, ho, hexpected, ?_⟩
  have hget := @get?_liveDatasets dest o.rel (isArchived_of_isExpected hexpected)
  rw [← Keyed.get?_eq_none_iff, ← hget]
  cases hd : (liveDatasets dest).get? o.rel with
  | none => rfl
  | some d =>
      have hstate : (planExpected o origin (liveDatasets dest) point).state
          = (planDataset o (some d) point).state := by
        unfold planExpected
        dsimp only
        rw [hd]
        split
        · exact cloneBase_state _ o origin _
        · rfl
      exact absurd (hstate ▸ hnew) (planDataset_ne_new d)

theorem mem_of_lookup {l : List (Rel × Rel)} {rel name : Rel} (h : l.lookup rel = some name) :
    (rel, name) ∈ l := by
  obtain ⟨before, after, rfl, -⟩ := List.lookup_eq_some_iff.mp h
  exact List.mem_append_right _ List.mem_cons_self

theorem orphanRow_of_renameTo {p : DatasetPlan} (hp : p ∈ plan origin dest point skip)
    (hname : p.renameTo.isSome = true) :
    ∃ d, (liveDatasets dest).get? p.rel = some d ∧
    p = orphanRow origin dest point skip p.rel d := by
  rw [plan_eq_rows] at hp
  rcases List.mem_append.mp hp with hp | hp
  · rw [renameTo_eq_none hp] at hname
    cases hname
  · obtain ⟨rel, -, hrow⟩ := List.mem_filterMap.mp hp
    obtain ⟨d, hd, rfl⟩ := Option.map_eq_some_iff.mp hrow
    exact ⟨d, hd, rfl⟩

theorem lookup_granted {p : DatasetPlan} {name : Rel} (hp : p ∈ plan origin dest point skip)
    (hname : p.renameTo = some name) :
    (granted origin dest point skip).lookup p.rel = some name := by
  obtain ⟨d, -, hrow⟩ := orphanRow_of_renameTo hp (hname ▸ rfl)
  rw [hrow] at hname
  exact hname

theorem nodup_targets : ((plan origin dest point skip).filterMap DatasetPlan.renameTo).Nodup := by
  have hgranted : Granted origin (liveDatasets dest) (newDatasets origin dest point skip)
      (orphanTops origin (liveDatasets dest))
      (granted origin dest point skip) := granted_renames
  rw [filterMap_renameTo, orphanRows, List.filterMap_filterMap]
  refine List.Nodup.filterMap (fun a b name ha hb => ?_)
    ((nodup_sortRels.mpr ((liveDatasets dest).nodup.filter _)).filter _)
  have hmem : ∀ rel, name ∈ (((liveDatasets dest).get? rel).map
      (orphanRow origin dest point skip rel)).bind DatasetPlan.renameTo →
      (rel, name) ∈ granted origin dest point skip := by
    intro rel hname
    obtain ⟨p, hp, hname⟩ := Option.bind_eq_some_iff.mp (Option.mem_def.mp hname)
    obtain ⟨d, -, rfl⟩ := Option.map_eq_some_iff.mp hp
    exact mem_of_lookup hname
  exact congrArg Prod.fst (List.inj_on_of_nodup_map hgranted.nodup (hmem a ha) (hmem b hb) rfl)

end Offers

/-! ### Following them -/

/-- Renames none of which touches the source, the target or the place of another. -/
structure KeptApart (dest : Drive) (moves : List (Rel × Rel)) : Prop where
  closed : ParentClosed dest.keys
  source : ∀ r ∈ moves, r.1 ∈ dest.keys
  target : ∀ r ∈ moves, IsFree dest r.2
  pairs : moves.Pairwise fun r s => (¬Under r.1 s.1 ∧ ¬Under s.1 r.1) ∧ ¬Under r.2 s.2 ∧
    ¬Under s.2 r.2
  outside : ∀ r ∈ moves, ∀ s ∈ moves, ¬Under r.2 s.1

/-- The same snapshots, partial receive and writes. -/
def SameCopy (d e : Dest) : Prop := e.snaps = d.snaps ∧ e.token = d.token ∧ e.written = d.written

theorem SameCopy.trans {d e f : Dest} (h : SameCopy d e) (h' : SameCopy e f) : SameCopy d f :=
  ⟨h'.1.trans h.1, h'.2.1.trans h.2.1, h'.2.2.trans h.2.2⟩

section Follow

variable {dest dest' : Drive} {moves : List (Rel × Rel)} {r : Rel × Rel}

theorem KeptApart.canRename (h : KeptApart dest (r :: moves)) : CanRename dest r.1 r.2 :=
  ⟨h.source r List.mem_cons_self, h.target r List.mem_cons_self,
    h.outside r List.mem_cons_self r List.mem_cons_self⟩

/-- One rename leaves the others as apart as they were. -/
theorem KeptApart.step (h : KeptApart dest (r :: moves))
    (hrename : zfsRename dest r.1 r.2 = some dest') : KeptApart dest' moves := by
  obtain ⟨hpairs, hrest⟩ := List.pairwise_cons.mp h.pairs
  have hkeeps : ∀ x ∈ dest.keys, ¬Under x r.1 → x ∈ dest'.keys := fun x hx hout =>
    (mem_keys_zfsRename hrename).mpr ⟨x, hx, movedRel_of_not_under hout⟩
  refine ⟨parentClosed_zfsRename hrename h.closed, fun s hs => ?_, fun s hs =>
    ⟨?_, ?_, ?_⟩, hrest, fun s hs t ht => ?_⟩
  · exact hkeeps s.1 (h.source s (List.mem_cons_of_mem _ hs)) (hpairs s hs).1.2
  · exact (h.target s (List.mem_cons_of_mem _ hs)).ne_nil
  · intro hmem
    obtain ⟨x, hx, hmoved⟩ := (mem_keys_zfsRename hrename).mp hmem
    by_cases hunder : Under x r.1
    · obtain ⟨t, rfl⟩ := hunder
      rw [movedRel_append] at hmoved
      exact (hpairs s hs).2.2 (hmoved ▸ List.prefix_append _ _)
    · rw [movedRel_of_not_under hunder] at hmoved
      exact (h.target s (List.mem_cons_of_mem _ hs)).absent (hmoved ▸ hx)
  · refine (h.target s (List.mem_cons_of_mem _ hs)).place.imp_right fun hplace =>
      hkeeps _ hplace fun hunder => ?_
    exact h.outside s (List.mem_cons_of_mem _ hs) r List.mem_cons_self
      ((under_parent s.2).trans hunder)
  · exact h.outside s (List.mem_cons_of_mem _ hs) t (List.mem_cons_of_mem _ ht)

theorem sameCopy_of_outside (h : KeptApart dest moves) {x : Rel} {d : Dest}
    (hx : ∀ s ∈ moves, ¬Under x s.1 ∧ ¬Under x s.2) (hd : dest.get? x = some d)
    (hrun : moves.foldlM (fun dest r => zfsRename dest r.1 r.2) dest = some dest') :
    ∃ e, dest'.get? x = some e ∧ SameCopy d e := by
  induction moves generalizing dest d with
  | nil =>
      obtain rfl : dest = dest' := Option.some.inj hrun
      exact ⟨d, hd, rfl, rfl, rfl⟩
  | cons r rest ih =>
      obtain ⟨dest₁, hrename, hrest⟩ := Option.bind_eq_some_iff.mp hrun
      obtain ⟨hsource, htarget⟩ := hx r List.mem_cons_self
      have hget := get?_zfsRename_of_outside hrename h.closed hsource htarget
      rw [hd, Option.map_some] at hget
      obtain ⟨e, he, hsame⟩ :=
        ih (h.step hrename) (fun s hs => hx s (List.mem_cons_of_mem _ hs)) hget hrest
      exact ⟨e, he, SameCopy.trans ⟨rfl, rfl, rfl⟩ hsame⟩

/-- Every rename is accepted, and what it was given for is there under the new name at the end. -/
theorem KeptApart.run (h : KeptApart dest moves) :
    ∃ dest', moves.foldlM (fun dest r => zfsRename dest r.1 r.2) dest = some dest' ∧
      ∀ r ∈ moves, ∀ d, dest.get? r.1 = some d → ∃ e, dest'.get? r.2 = some e ∧ SameCopy d e := by
  induction moves generalizing dest with
  | nil => exact ⟨dest, rfl, by simp⟩
  | cons r rest ih =>
      obtain ⟨dest₁, hrename⟩ := h.canRename.exists h.closed
      obtain ⟨dest', hrun, hcopies⟩ := ih (h.step hrename)
      obtain ⟨hpairs, -⟩ := List.pairwise_cons.mp h.pairs
      refine ⟨dest', Option.bind_eq_some_iff.mpr ⟨dest₁, hrename, hrun⟩, fun s hs d hd => ?_⟩
      rcases List.mem_cons.mp hs with rfl | hs
      · have hget : dest₁.get? (movedRel s.1 s.2 s.1) = (dest.get? s.1).map (Dest.moved s.1 s.2) :=
          get?_zfsRename hrename h.closed (h.canRename.not_under h.closed h.canRename.source)
        rw [movedRel_self, hd, Option.map_some] at hget
        obtain ⟨e, he, hsame⟩ := sameCopy_of_outside (h.step hrename)
          (fun t ht => ⟨h.outside s List.mem_cons_self t (List.mem_cons_of_mem _ ht),
            (hpairs t ht).2.1⟩) hget hrun
        exact ⟨e, he, SameCopy.trans ⟨rfl, rfl, rfl⟩ hsame⟩
      · have hmem := h.source s (List.mem_cons_of_mem _ hs)
        have hget :=
          get?_zfsRename_of_outside hrename h.closed (hpairs s hs).1.2
            (h.canRename.not_under h.closed hmem)
        rw [hd, Option.map_some] at hget
        obtain ⟨e, he, hsame⟩ := hcopies s hs _ hget
        exact ⟨e, he, SameCopy.trans ⟨rfl, rfl, rfl⟩ hsame⟩

end Follow

/-! ### The renamed datasets -/

section Replan

variable {origin : Origins} {dest : Drive} {point : String} {skip : List Rel}
  {o : Origin} {pt : Ref}

/-- A partial receive nothing was written since. -/
def Dest.Resumable (d : Dest) : Prop := d.token ≠ "" ∧ d.written = 0

instance (d : Dest) : Decidable d.Resumable := inferInstanceAs (Decidable (_ ∧ _))

/-- The newest snapshot of a lineage is a base, or the point itself. -/
theorem planUnwritten_of_lineage (hpt : NewestPoint o point pt) {e : Dest} {newest : Ref}
    (htoken : e.token = "") (hnewest : e.newest = some newest)
    (hlineage : continuesLineage o newest = true) :
    (planUnwritten o (some e) point).state ∈ [State.atPoint, .incremental, .viaBookmark] := by
  have hspec := planUnwritten_spec o e point
  generalize planUnwritten o (some e) point = p at hspec ⊢
  -- A newest snapshot origin has no snapshot of has a bookmark there, older than the point.
  have hvia : ∀ n, e.newest = some n → o.snapByGuid n.guid = none →
      viaBookmark o n.guid ≠ none := by
    intro n hn hgone
    obtain rfl : newest = n := Option.some.inj (hnewest.symm.trans hn)
    simp only [continuesLineage, hgone, Option.isSome_none, Bool.false_or, Bool.and_eq_true,
      Bool.not_eq_true', Option.isSome_iff_exists] at hlineage
    obtain ⟨hbpool, bm, hbm⟩ := hlineage
    obtain ⟨first, hfirst, -⟩ :=
      viaBookmark_of_newestPoint hpt hbpool hbm fun heq =>
        snapByGuid_eq_none.mp hgone pt hpt.mem heq.symm
    rw [hfirst]
    exact Option.some_ne_none _
  cases hspec with
  | resume h => exact absurd htoken h
  | empty _ h =>
      rw [hnewest] at h
      cases h
  | atPoint => exact List.mem_cons_self
  | incremental => exact List.mem_cons_of_mem _ List.mem_cons_self
  | viaBookmark => exact List.mem_cons_of_mem _ (List.mem_cons_of_mem _ List.mem_cons_self)
  | rollback _ hn hgone hnone => exact absurd hnone (hvia _ hn hgone)
  | diverged _ hn hgone hnone => exact absurd hnone (hvia _ hn hgone)

/-- A copy whose newest snapshot origin's dataset continues needs no new decision but what to do
with what was written on it. -/
theorem planDataset_of_lineage (hpt : NewestPoint o point pt) {e : Dest} {newest : Ref}
    (hnewest : e.newest = some newest) (hlineage : continuesLineage o newest = true) :
    if e.Resumable then (planDataset o (some e) point).state = .resume
    else (planDataset o (some e) point).state ∈ [State.atPoint, .incremental, .viaBookmark,
      .modified] := by
  by_cases htoken : e.token = ""
  · rw [if_neg fun h => h.1 htoken]
    have hstate := planUnwritten_of_lineage hpt htoken hnewest hlineage
    have hpartial : (planUnwritten o (some e) point).partialReceive = false := by
      have hspec := planUnwritten_spec o e point
      generalize planUnwritten o (some e) point = p at hspec
      cases hspec <;> rfl
    unfold planDataset
    generalize planUnwritten o (some e) point = p at hstate hpartial
    dsimp only
    split
    · revert hstate
      cases p.state <;> decide
    · cases hp : p.state <;> rw [hp] at hstate <;>
        simp [hp, hpartial, State.isIncremental, asModified] at hstate ⊢
  · have hresume : planUnwritten o (some e) point = { rel := o.rel, state := .resume } := by
      simp [planUnwritten, htoken]
    by_cases hwritten : e.written = 0
    · rw [if_pos ⟨htoken, hwritten⟩, planDataset_of_unwritten hwritten, hresume]
    · rw [if_neg fun h => hwritten h.2]
      simp [planDataset, hwritten, hresume, hnewest, planPartial, asModified]

theorem apart_of_offers (horigin : ParentClosed origin.keys) (hdrive : ParentClosed dest.keys)
    {moves : List (Rel × Rel)} (hnodup : moves.Nodup)
    (hmoves : ∀ r ∈ moves, (granted origin dest point skip).lookup r.1 = some r.2) :
    KeptApart dest moves := by
  have hgranted : Granted origin (liveDatasets dest) (newDatasets origin dest point skip)
      (orphanTops origin (liveDatasets dest))
      (granted origin dest point skip) := granted_renames
  have hmem : ∀ r ∈ moves, r ∈ granted origin dest point skip :=
    fun r hr => mem_of_lookup (hmoves r hr)
  have hsource : ∀ r ∈ moves, r.1 ∈ dest.keys ∧ r.1 ∉ origin.keys := fun r hr => by
    obtain ⟨hlive, horphan, -⟩ :=
      mem_orphans.mp (mem_orphanTops.mp (hgranted.offered r (hmem r hr)).1).1
    exact ⟨(mem_live_keys.mp hlive).1, horphan⟩
  have htarget : ∀ r ∈ moves, r.2 ∈ origin.keys ∧ IsFree dest r.2 := fun r hr => by
    obtain ⟨-, hoffered⟩ := hgranted.offered r (hmem r hr)
    obtain ⟨o, ho, -, habsent⟩ := of_mem_newDatasets hoffered.mem
    have hkey : r.2 ∈ origin.keys := Keyed.get?_isSome_iff.mp (ho ▸ rfl)
    exact ⟨hkey, (horigin r.2 hkey).1, habsent, .inr (mem_live_keys.mp hoffered.place).1⟩
  have hplace : ∀ r ∈ moves, parent r.2 ∈ dest.keys :=
    fun r hr => (mem_live_keys.mp (hgranted.offered r (hmem r hr)).2.place).1
  refine ⟨hdrive, fun r hr => (hsource r hr).1, fun r hr => (htarget r hr).2, ?_,
    fun r hr s hs hunder => ?_⟩
  · refine hnodup.imp_of_mem fun {r s} hr hs hne => ?_
    have hfirst : r.1 = s.1 → r = s := fun h =>
      Prod.ext h (Option.some.inj ((hmoves r hr).symm.trans (h ▸ hmoves s hs)))
    have hsecond : r.2 = s.2 → r = s :=
      List.inj_on_of_nodup_map hgranted.nodup (hmem r hr) (hmem s hs)
    have htops : ∀ r ∈ moves, r.1 ∈ orphanTops origin (liveDatasets dest) :=
      fun r hr => (hgranted.offered r (hmem r hr)).1
    -- Nothing of the drive lies below a free name.
    have hbelow : ∀ r ∈ moves, ∀ s ∈ moves, r.2 ≠ s.2 → ¬Under r.2 s.2 :=
      fun r hr s hs hne hunder =>
        not_under_of_not_mem hdrive (hplace r hr) (htarget s hs).2.absent (htarget s hs).2.ne_nil
          (hunder.parent_of_ne hne)
    exact ⟨⟨fun h =>
        hne (hfirst (eq_of_orphanTop_under horigin hdrive (htops s hs) (htops r hr) h)), fun h =>
          hne (hfirst (eq_of_orphanTop_under horigin hdrive (htops r hr) (htops s hs) h).symm)⟩,
      hbelow r hr s hs fun h => hne (hsecond h), hbelow s hs r hr fun h => hne (hsecond h.symm)⟩
  · exact (hsource s hs).2 (horigin.mem_of_under (htarget r hr).1 hunder
      (hdrive s.1 (hsource s hs).1).1)

/-- The move a row offers. -/
def offer (p : DatasetPlan) : Rel × Rel := (p.rel, p.renameTo.getD [])

theorem followRenames_eq {chosen : List DatasetPlan} (h : ∀ p ∈ chosen, p.renameTo.isSome = true)
    (dest : Drive) :
    followRenames dest chosen = (chosen.map offer).foldlM
      (fun dest r => zfsRename dest r.1 r.2) dest := by
  rw [followRenames, List.foldlM_map]
  induction chosen generalizing dest with
  | nil => rfl
  | cons p rest ih =>
      obtain ⟨name, hname⟩ := Option.isSome_iff_exists.mp (h p List.mem_cons_self)
      have hone : followRename dest p = zfsRename dest (offer p).1 (offer p).2 := by
        simp [followRename, offer, hname]
      rw [List.foldlM_cons, List.foldlM_cons, hone]
      exact congrArg _ (funext fun dest => ih (fun q hq => h q (List.mem_cons_of_mem _ hq)) dest)

/-- The renames a plan offers go to distinct names, expected of origin and free on the drive, in the
same pool; any of them are accepted in any order, and what is renamed then needs no decision but
what to do with what was written on it: it is at the point, sent to it, or resumed where a partial
receive was left. -/
theorem renames_safe (horigin : ParentClosed origin.keys) (hdrive : ParentClosed dest.keys)
    (hpoint : ∀ o ∈ origin, isExpected o skip = true → ∃ pt, NewestPoint o point pt) :
    ((plan origin dest point skip).filterMap DatasetPlan.renameTo).Nodup ∧
      (∀ p ∈ plan origin dest point skip, ∀ name, p.renameTo = some name →
        name ∈ expected origin skip ∧ name ∉ dest.keys ∧ parent name ∈ dest.keys ∧
        isBpool name = isBpool p.rel) ∧
      ∀ chosen : List DatasetPlan, chosen.Nodup →
      (∀ p ∈ chosen, p ∈ plan origin dest point skip ∧ p.renameTo.isSome = true) →
        ∃ dest', followRenames dest chosen = some dest' ∧
        ∀ p ∈ chosen, ∃ q ∈ plan origin dest' point skip, p.renameTo = some q.rel ∧
          if (dest.get? p.rel).any (fun d => decide d.Resumable) = true then q.state = .resume
          else q.state ∈ [State.atPoint, .incremental, .viaBookmark, .modified] := by
  have hgranted : Granted origin (liveDatasets dest) (newDatasets origin dest point skip)
      (orphanTops origin (liveDatasets dest))
      (granted origin dest point skip) := granted_renames
  refine ⟨nodup_targets, fun p hp name hname => ?_, fun chosen hnodup hchosen => ?_⟩
  · obtain ⟨-, hoffered⟩ := hgranted.offered _ (mem_of_lookup (lookup_granted hp hname))
    obtain ⟨o, ho, hexpected, habsent⟩ := of_mem_newDatasets hoffered.mem
    exact ⟨mem_expected.mpr ⟨o, ho, hexpected⟩, habsent, (mem_live_keys.mp hoffered.place).1,
      hoffered.pool⟩
  · have hoffer : ∀ p ∈ chosen, ∃ name, p.renameTo = some name ∧ offer p = (p.rel, name) ∧
        (granted origin dest point skip).lookup p.rel = some name := fun p hp => by
      obtain ⟨name, hname⟩ := Option.isSome_iff_exists.mp (hchosen p hp).2
      exact ⟨name, hname, by rw [offer, hname, Option.getD_some],
        lookup_granted (hchosen p hp).1 hname⟩
    have hmoves : (chosen.map offer).Nodup := by
      refine List.Nodup.map_on (fun p hp q hq heq => ?_) hnodup
      obtain ⟨d, hd, hrow⟩ := orphanRow_of_renameTo (hchosen p hp).1 (hchosen p hp).2
      obtain ⟨e, he, hrow'⟩ := orphanRow_of_renameTo (hchosen q hq).1 (hchosen q hq).2
      have hrel : p.rel = q.rel := congrArg Prod.fst heq
      obtain rfl : d = e := Option.some.inj (hd.symm.trans (hrel ▸ he))
      rw [hrow, hrow', hrel]
    have hapart : KeptApart dest (chosen.map offer) :=
      apart_of_offers horigin hdrive hmoves fun r hr => by
        obtain ⟨p, hp, rfl⟩ := List.mem_map.mp hr
        obtain ⟨name, -, heq, hlookup⟩ := hoffer p hp
        rw [heq]
        exact hlookup
    obtain ⟨dest', hrun, hcopies⟩ := hapart.run
    refine ⟨dest', (followRenames_eq (fun p hp => (hchosen p hp).2) dest).trans hrun,
      fun p hp => ?_⟩
    obtain ⟨name, hname, heq, hlookup⟩ := hoffer p hp
    obtain ⟨-, hoffered⟩ := hgranted.offered _ (mem_of_lookup hlookup)
    obtain ⟨d, newest, o, hd, hnewest, ho, hlineage⟩ := hoffered.lineage
    obtain ⟨o', ho', hexpected, -⟩ := of_mem_newDatasets hoffered.mem
    obtain rfl : o = o' := Option.some.inj (ho.symm.trans ho')
    obtain ⟨homem, hrel⟩ := Keyed.get?_eq_some_iff.mp ho
    obtain ⟨pt, hpt⟩ := hpoint o homem hexpected
    have hd' : dest.get? p.rel = some d := get?_of_liveDatasets hd
    obtain ⟨e, he, hsnaps, htoken, hwritten⟩ :=
      hcopies _ (List.mem_map_of_mem hp) d (by rw [heq]; exact hd')
    -- The renamed dataset is planned from the copy it was.
    have hlive : (liveDatasets dest').get? o.rel = some e := by
      rw [get?_liveDatasets (isArchived_of_isExpected hexpected), hrel]
      rw [heq] at he
      exact he
    have hplan : planExpected o origin (liveDatasets dest') point
        = planDataset o (some e) point := by
      unfold planExpected
      dsimp only
      rw [hlive, if_neg (by simpa using planDataset_ne_new e)]
    have hstate :=
      planDataset_of_lineage hpt (show e.newest
        = some newest by rw [Dest.newest, hsnaps]; exact hnewest) hlineage
    have hresumable : e.Resumable ↔ d.Resumable := by
      rw [Dest.Resumable, Dest.Resumable, htoken, hwritten]
    refine ⟨_, mem_plan_of_expected homem hexpected, by rw [planExpected_rel, hrel, hname], ?_⟩
    rw [hplan, hd', Option.any_some]
    simpa only [hresumable, decide_eq_true_eq] using hstate

end Replan

/-- The drive's copy of a renamed dataset, with what an interrupted receive left. -/
def interrupted (token : String) : Drive where
  items :=
    [{ rel := ["rpool"] },
      { rel := ["rpool", "a"], token, snaps := ⟨[⟨"s", "1", 3, 5⟩], by decide⟩ }]
  nodup := by simp

def renamedOrigin : Origins where
  items :=
    [{ rel := ["rpool"] },
      { rel := ["rpool", "b"], snaps := ⟨[⟨"s", "1", 5, 5⟩, ⟨"p", "2", 9, 9⟩], by decide⟩ }]
  nodup := by decide

theorem newestPoint_renamedOrigin :
    ∀ o ∈ renamedOrigin, isExpected o [] = true → ∃ pt, NewestPoint o "p" pt := by
  intro o ho hexpected
  rcases List.mem_cons.mp ho with rfl | ho
  · exact absurd hexpected (by decide)
  · obtain rfl := List.mem_singleton.mp ho
    exact ⟨⟨"p", "2", 9, 9⟩, rfl, by decide, by decide, by decide⟩

theorem renames_safe_interrupted :
    ∃ dest', followRenames (interrupted "")
      ((plan renamedOrigin (interrupted "") "p" []).filter (·.renameTo.isSome)) = some dest' := by
  obtain ⟨-, -, hfollow⟩ :=
    renames_safe (by decide : ParentClosed renamedOrigin.keys)
      (by decide : ParentClosed (interrupted "").keys)
      newestPoint_renamedOrigin
  obtain ⟨dest', hdest, -⟩ :=
    hfollow ((plan renamedOrigin (interrupted "") "p" []).filter (·.renameTo.isSome))
      (by decide +kernel)
      fun p hp => List.mem_filter.mp hp
  exact ⟨dest', hdest⟩

/-- An orphan that holds a partial receive is resumed under its new name. -/
theorem renamed_resumes :
    ParentClosed renamedOrigin.keys ∧ ParentClosed (interrupted "1-a").keys ∧
      (∀ o ∈ renamedOrigin, isExpected o [] = true → ∃ pt, NewestPoint o "p" pt) ∧
        ∃ p ∈ plan renamedOrigin (interrupted "1-a") "p" [], p.renameTo = some ["rpool", "b"] ∧
          (followRename (interrupted "1-a") p).map
          (fun dest' => (plan renamedOrigin dest' "p" []).map fun q => (q.rel, q.state)) =
            some [(["rpool", "b"], .resume)] := by
  refine ⟨by decide, by decide, newestPoint_renamedOrigin,
    { rel := ["rpool", "a"], state := .orphan, renameTo := some ["rpool", "b"] }, by decide +kernel,
    rfl, by decide +kernel⟩

end Zark
