import Zark.Proof.Branch

/-!
# Branching every lineage to roll back

The plans are branched parents first, whatever became of the ones before. A branch takes nothing out
of a tree it does not lie below and puts nothing into one, so each of the later lineages finds its
dataset and children as the listing has them, or not at all. Branches that all succeed leave each
lineage divided and every other dataset as it was, and the transfer planned then starts where the
plan said.
-/

namespace Zark

open Hierarchy

/-! ### One plan -/

/-- The row of a plan to roll back: the newest drive snapshot that origin still has, and those after
it. -/
structure RollbackRow (origin : Origins) (dest : Drive) (p : DatasetPlan) (o : Origin) (d : Dest)
    (s : Ref) : Prop where
  origin : origin.get? p.rel = some o
  dest : dest.get? p.rel = some d
  plain : isArchived p.rel = false
  mem : s ∈ d.snaps
  common : p.common = some s.name
  newer : (d.snaps.after s.name).keys = p.newer
  newest : (d.snaps.upTo s.name).items.getLast? = some s
  base : originBase o s.guid = some p.base

section Row

variable {origin : Origins} {dest : Drive} {point : String} {skip : List Rel} {p q : DatasetPlan}
  {o : Origin} {d : Dest} {s : Ref}

theorem rollback_of_mem (hp : p ∈ plan origin dest point skip) (hstate : p.state = .rollback) :
    ∃ o d, origin.get? o.rel = some o ∧ isArchived o.rel = false ∧ dest.get? o.rel = some d ∧
    p = planDataset o (some d) point := by
  obtain ⟨o, ho, hexpected, hplan⟩ :=
    mem_plan_expected hp (by rw [hstate]; decide) (by rw [hstate]; decide)
  have hplain := isArchived_of_isExpected hexpected
  cases hd : (liveDatasets dest).get? o.rel with
  | none =>
      rw [planExpected_of_absent hd] at hplan
      rw [hplan, cloneBase_state] at hstate
      cases hstate
  | some d =>
      exact ⟨o, d, ho, hplain, get?_of_liveDatasets hd, hplan.trans (planExpected_of_held hd)⟩

theorem rollbackRow (hp : p ∈ plan origin dest point skip) (hstate : p.state = .rollback) :
    ∃ o d s, RollbackRow origin dest p o d s := by
  obtain ⟨o, d, ho, hplain, hd, rfl⟩ := rollback_of_mem hp hstate
  obtain ⟨newest, s, base, newer, -, hnewest, -, hcommon, hplan⟩ := planned_rollback hstate
  obtain ⟨older, between, hitems, rfl, hbase, -⟩ := split_of_findCommon hnewest hcommon
  obtain ⟨hupTo, hafter⟩ := Keyed.cut hitems
  rw [hplan]
  refine ⟨o, d, s, ho, hd, hplain, Keyed.mem_def.mpr
    (hitems ▸ List.mem_append_right _ List.mem_cons_self), rfl, ?_, ?_, hbase⟩
  · exact congrArg (List.map Ref.name) hafter
  · rw [hupTo, List.getLast?_concat]

theorem rollback_unique (hp : p ∈ plan origin dest point skip ∧ p.state = .rollback)
    (hq : q ∈ plan origin dest point skip ∧ q.state = .rollback) (h : p.rel = q.rel) : p = q := by
  obtain ⟨o, d, ho, -, hd, rfl⟩ := rollback_of_mem hp.1 hp.2
  obtain ⟨o', d', ho', -, hd', rfl⟩ := rollback_of_mem hq.1 hq.2
  rw [planDataset_rel, planDataset_rel] at h
  rw [h] at ho hd
  obtain rfl := Option.some.inj (ho.symm.trans ho')
  obtain rfl := Option.some.inj (hd.symm.trans hd')
  rfl

/-- What the next survey plans for the dataset: nothing when the common snapshot is the point
itself, else a transfer from the plan's base. -/
structure ContinuesFrom (o : Origin) (point : String) (p : DatasetPlan) (now : Option Dest) :
    Prop where
  atPoint : p.base = .snapshot point → (planDataset o now point).state = .atPoint
  incremental : p.base ≠ .snapshot point →
    ((planDataset o now point).state = .incremental ∨
      (planDataset o now point).state = .viaBookmark) ∧ (planDataset o now point).base = p.base

theorem continuesFrom_of_newest {pt : Ref} (hpt : NewestPoint o point pt)
    (hbase : originBase o s.guid = some p.base) {e : Dest} (hnewest : e.newest = some s)
    (htoken : e.token = "") (hwritten : e.written = 0) : ContinuesFrom o point p (some e) := by
  have hplan : planDataset o (some e) point = planUnwritten o (some e) point :=
    planDataset_of_unwritten hwritten
  unfold originBase at hbase
  cases hown : o.snapByGuid s.guid with
  | some own =>
      rw [hown] at hbase
      obtain hbase : .snapshot own.name = p.base := Option.some.inj hbase
      constructor
      · intro hpoint
        obtain rfl : own.name = point := Base.snapshot.inj (hbase.trans hpoint)
        rw [hplan, planUnwritten]
        simp [htoken, hnewest, hown]
      · intro hpoint
        have hname : own.name ≠ point := fun hname => hpoint (hname ▸ hbase.symm)
        rw [hplan, planUnwritten]
        simp [htoken, hnewest, hown, hname, hbase]
  | none =>
      rw [hown] at hbase
      cases hbpool : isBpool o.rel with
      | true => simp [hbpool] at hbase
      | false =>
          simp only [hbpool, Bool.false_eq_true, if_false, Option.map_eq_some_iff] at hbase
          obtain ⟨bm, hbm, hbase⟩ := hbase
          have hguid : s.guid ≠ pt.guid := (snapByGuid_eq_none.mp hown pt hpt.mem).symm
          obtain ⟨first, hvia, -⟩ := viaBookmark_of_newestPoint hpt hbpool hbm hguid
          refine ⟨fun hpoint => absurd (hbase.trans hpoint) (by simp), fun _ => ?_⟩
          rw [hplan, planUnwritten]
          simp [htoken, hnewest, hown, hvia, hbase]

end Row

/-! ### One branch -/

section Divided

variable {before mid after : Drive} {d e f : Dest} {new : Rel} {common : String}
  {origins : SnapName → SnapName} {s : Ref}

theorem SameDataset.rel (h : SameDataset before after d e) : e.rel = d.rel :=
  (congrArg Dest.rel h.same :)

theorem SameDataset.snaps (h : SameDataset before after d e) : e.snaps = d.snaps :=
  (congrArg Dest.snaps h.same :)

theorem SameDataset.refl (drive : Drive) (d : Dest) : SameDataset drive drive d d :=
  ⟨rfl, rfl, fun source hsource _ hs => ⟨source, hsource, hs⟩⟩

theorem SameDataset.trans (h : SameDataset before mid d e) (h' : SameDataset mid after e f) :
    SameDataset before after d f := by
  refine ⟨?_, h.clone.trans h'.clone, fun source hsource s hs => ?_⟩
  · have hsame := h.same
    rw [← h'.same] at hsame
    exact hsame
  · obtain ⟨between, hbetween, hsbetween⟩ := h.origin source hsource s hs
    exact h'.origin between hbetween s hsbetween

theorem Divided.held (h : Divided before d new common origins after) (hd : d ∈ before) :
    d.rel ∈ after.keys :=
  (h.keys _).mpr (.inl (Keyed.key_mem_keys hd))

/-- A snapshot a clone is made of is found where the clone's origin is then. -/
theorem snapAt_origins (h : Divided before d new common origins after) (hd : d ∈ before)
    {source : SnapName} (hs : SnapAt before source s) :
    SnapAt after (origins source) s := by
  obtain ⟨e, he, hrel, hse, hname⟩ := hs
  rw [h.origins_eq source (hrel ▸ Keyed.key_mem_keys he)]
  by_cases hown : source.1 = d.rel
  · obtain rfl : e = d := Keyed.eq_of_key he hd (hrel.trans hown)
    have hcut : s ∈ (e.snaps.upTo common).items ∨ s ∈ (e.snaps.after common).items := by
      rw [← List.mem_append, Keyed.upTo_append_after]
      exact hse
    obtain ⟨clone, hlive⟩ := h.live
    by_cases hname' : source.2 ∈ (e.snaps.upTo common).keys
    · rw [if_neg fun hboth => hboth.2 hname']
      obtain ⟨t, ht, htname⟩ := Keyed.mem_keys.mp hname'
      have htmem : t ∈ e.snaps :=
        Keyed.mem_def.mpr (Keyed.upTo_append_after e.snaps common ▸ List.mem_append_left _ ht)
      obtain rfl : s = t := Keyed.eq_of_key hse htmem (hname.trans htname.symm)
      exact ⟨_, Keyed.mem_of_get? hlive, hown.symm, ht, hname⟩
    · rw [if_pos ⟨hown, hname'⟩]
      refine ⟨_, Keyed.mem_of_get? h.kept, rfl, hcut.resolve_left fun hupTo => ?_, hname⟩
      exact hname' (hname ▸ Keyed.key_mem_keys hupTo)
  · rw [if_neg fun hboth => hown hboth.1]
    have hne : e.rel ≠ d.rel := fun heq => hown (hrel.symm.trans heq)
    exact ⟨_, Keyed.mem_of_get? (h.others e he hne), hrel, hse, hname⟩

theorem sameDataset_of_divided (h : Divided before d new common origins after) (hd : d ∈ before)
    (he : e ∈ before) (hne : e.rel ≠ d.rel) :
    ∃ f ∈ after, SameDataset before after e f :=
  ⟨_, Keyed.mem_of_get? (h.others e he hne), rfl, by rw [Option.isSome_map],
    fun source hsource s hs =>
      ⟨origins source, by rw [hsource, Option.map_some], snapAt_origins h hd hs⟩⟩

/-- Another lineage's branch leaves what an earlier one left. -/
theorem Branched.step {p : DatasetPlan} {dest : Drive} {archive : Rel}
    (hp : Branched dest before p archive) (h : Divided before d new common origins after)
    (hrel : p.rel ≠ d.rel) (harchive : archive ≠ d.rel) : Branched dest after p archive := by
  refine ⟨hp.archiveName, ?_⟩
  obtain ⟨o, ho, horel, s, hs, hcommon, e, he, herel, hsnaps, htoken, hwritten, kept, hkept, hkrel,
      hksnaps, hnewer, hclone⟩ := hp.live
  have hlive := h.others e he (herel.symm ▸ hrel)
  have hmoved := h.others kept hkept (hkrel.symm ▸ harchive)
  refine ⟨o, ho, horel, s, hs, hcommon, _, Keyed.mem_of_get? hlive, herel, hsnaps, htoken, hwritten,
    _, Keyed.mem_of_get? hmoved, hkrel, hksnaps, hnewer, ?_⟩
  rw [hclone, Option.map_some, h.origins_eq _ (herel ▸ Keyed.key_mem_keys he),
    if_neg fun hboth => hrel hboth.1]

end Divided

/-! ### Several branches -/

/-- Plans to roll back, none above an earlier one. -/
structure InTurn (origin : Origins) (dest : Drive) (l : List DatasetPlan) : Prop where
  rows : ∀ p ∈ l, ∃ o d s, RollbackRow origin dest p o d s
  order : l.Pairwise fun p q => ¬Under p.rel q.rel

/-- What the branches to come find: the dataset and the children of each as the listing has them,
where the drive has it. -/
structure Ahead (dest : Drive) (rest : List DatasetPlan) (st : Branching) : Prop where
  closed : ParentClosed st.drive.keys
  known : ∀ q ∈ rest, ∀ x ∈ st.drive.keys, parent x = q.rel → x ∈ st.known
  same : ∀ q ∈ rest, ∀ e ∈ st.drive, e.rel = q.rel → ∃ d ∈ dest, d.rel = q.rel ∧ d.snaps = e.snaps

/-- What they find when none before failed: the listing knows the drive, apart from lineages already
branched. -/
structure Unfailed (rest : List DatasetPlan) (st : Branching) : Prop where
  nodup : st.known.Nodup
  known : ∀ x ∈ st.known, x ∈ st.drive.keys
  archives : ∀ x ∈ st.drive.keys, isArchived x = true → x ∈ st.known
  held : ∀ q ∈ rest, q.rel ∈ st.drive.keys

section Several

variable {origin : Origins} {dest : Drive} {fails : ℕ → Bool} {day : ℕ → String}
  {st st' : Branching} {p : DatasetPlan} {o : Origin} {d : Dest}
  {s : Ref} {rest : List DatasetPlan}

theorem InTurn.tail (h : InTurn origin dest (p :: rest)) : InTurn origin dest rest :=
  ⟨fun q hq => h.rows q (List.mem_cons_of_mem _ hq), (List.pairwise_cons.mp h.order).2⟩

theorem InTurn.plain (h : InTurn origin dest rest) (hp : p ∈ rest) : isArchived p.rel = false :=
  let ⟨_, _, _, hrow⟩ := h.rows p hp
  hrow.plain

theorem InTurn.ne_nil (h : InTurn origin dest rest) (hclosed : ParentClosed dest.keys)
    (hp : p ∈ rest) : p.rel ≠ [] :=
  let ⟨_, _, _, hrow⟩ := h.rows p hp
  (hclosed p.rel (Keyed.get?_isSome_iff.mp (Option.isSome_iff_exists.mpr ⟨_, hrow.dest⟩))).1

/-- No branch touches the name of a dataset above it, or of a child of one. -/
theorem ahead_step (hclosed : ParentClosed dest.keys) (hturn : InTurn origin dest (p :: rest))
    (h : Ahead dest (p :: rest) st) :
    Ahead dest rest (st.branch fails day p).2 := by
  have hrel := hturn.ne_nil hclosed List.mem_cons_self
  obtain ⟨-, -, harchived, hparent, -⟩ := archiveName_facts hrel st.known (day st.given)
  have habove := (List.pairwise_cons.mp hturn.order).1
  have hout : ∀ q ∈ rest, ¬Under q.rel (archiveName p.rel st.known (day st.given)) := by
    intro q hq hunder
    have := isArchived_of_under hunder harchived
    rw [hturn.tail.plain hq] at this
    cases this
  refine ⟨closed_branch hrel h.closed, fun q hq x hx hxq => ?_, fun q hq e he heq => ?_⟩
  · have hne : x ≠ p.rel := fun heq => habove q hq (hxq ▸ heq ▸ under_parent x)
    have hnew : ¬Under x (archiveName p.rel st.known (day st.given)) := by
      intro hunder
      by_cases hself : x = archiveName p.rel st.known (day st.given)
      · exact habove q hq (hxq ▸ hself ▸ hparent ▸ under_parent p.rel)
      · exact hout q hq (hxq ▸ hunder.parent_of_ne hself)
    obtain ⟨e, he, rfl⟩ := Keyed.mem_keys.mp hx
    obtain ⟨b, hb, hbrel, -⟩ := held_before h.closed hrel he hne hnew
    exact mem_known_branch (h.known q (List.mem_cons_of_mem _ hq) e.rel
      (hbrel ▸ Keyed.key_mem_keys hb) hxq) hne
  · have hne : e.rel ≠ p.rel := fun hep => habove q hq (heq ▸ hep ▸ List.prefix_rfl)
    obtain ⟨b, hb, hbrel, hsnaps⟩ := held_before h.closed hrel he hne (heq ▸ hout q hq)
    exact hsnaps ▸ h.same q (List.mem_cons_of_mem _ hq) b hb (hbrel.trans heq)

/-- A branch that succeeds divides the lineage at the snapshot the plan names. -/
theorem divided_of_branch (h : Ahead dest (p :: rest) st) (hrow : RollbackRow origin dest p o d s)
    (hbranch : st.branch fails day p = (true, st')) :
    Beside st.drive p.rel (archiveName p.rel st.known (day st.given)) ∧
      st'.known = st.known.erase p.rel ++ [archiveName p.rel st.known (day st.given)] ∧
        ∃ e ∈ st.drive, e.rel = p.rel ∧ e.snaps = d.snaps ∧
          ∃ origins, Divided st.drive e (archiveName p.rel st.known (day st.given)) s.name origins
            st'.drive := by
  obtain ⟨renamed, hrename, hrest, hknown⟩ := branch_true hbranch
  have hbeside := beside_of_canRename h.closed (zfsRename_spec hrename).1
  refine ⟨hbeside, hknown, ?_⟩
  generalize archiveName p.rel st.known (day st.given) = new at *
  obtain ⟨e, he, hrel⟩ := Keyed.mem_keys.mp hbeside.held
  obtain ⟨b, hb, hbrel, hsnaps⟩ := h.same p List.mem_cons_self e he hrel
  obtain rfl : b = d :=
    Option.some.inj ((Keyed.get?_eq_some_iff.mpr ⟨hb, hbrel⟩).symm.trans hrow.dest)
  rw [← hrel] at hbeside hrename
  refine ⟨e, he, hrel, hsnaps.symm, divided_of_run hbeside he (fun x hx => ?_)
    (fun x hx hparent => ?_) hrename hrel.symm hrow.common hrest⟩
  · rw [mem_sortRels, List.mem_filter, decide_eq_true_eq, ← hrel] at hx
    exact hx.2
  · rw [mem_sortRels, List.mem_filter, decide_eq_true_eq, ← hrel]
    exact ⟨h.known p List.mem_cons_self x hx (hparent.trans hrel), hparent⟩

theorem unfailed_step (hturn : InTurn origin dest (p :: rest)) (h : Unfailed (p :: rest) st)
    {e : Dest} {common : String} {origins : SnapName → SnapName} (hrel : p.rel ≠ [])
    (hknown : st'.known = st.known.erase p.rel ++ [archiveName p.rel st.known (day st.given)])
    (hdivided : Divided st.drive e (archiveName p.rel st.known (day st.given)) common origins
      st'.drive) : Unfailed rest st' := by
  obtain ⟨hfree, -⟩ := archiveName_facts hrel st.known (day st.given)
  generalize archiveName p.rel st.known (day st.given) = new at *
  refine ⟨?_, fun x hx => ?_, fun x hx harchived => ?_, fun q hq => ?_⟩
  · rw [hknown]
    exact (h.nodup.erase _).append (List.nodup_singleton _) (List.disjoint_singleton.mpr fun hmem =>
      hfree (List.mem_of_mem_erase hmem))
  · rw [hdivided.keys]
    rw [hknown, List.mem_append, List.mem_singleton] at hx
    exact hx.imp_left fun hx => h.known x (List.mem_of_mem_erase hx)
  · rw [hknown, List.mem_append, List.mem_singleton]
    refine ((hdivided.keys x).mp hx).imp_left fun hx =>
      (List.mem_erase_of_ne ?_).mpr (h.archives x hx harchived)
    rintro rfl
    rw [hturn.plain List.mem_cons_self] at harchived
    cases harchived
  · exact (hdivided.keys _).mpr (.inl (h.held q (List.mem_cons_of_mem _ hq)))

theorem branch_accepted (hfails : ∀ n, fails n = false) (h : Ahead dest (p :: rest) st)
    (hunfailed : Unfailed (p :: rest) st) (hrow : RollbackRow origin dest p o d s) :
    (st.branch fails day p).1 = true := by
  have hheld := hunfailed.held p List.mem_cons_self
  have hrel := (h.closed p.rel hheld).1
  obtain ⟨hfree, hne, harchived, hparent, -⟩ := archiveName_facts hrel st.known (day st.given)
  have hplain : archiveName p.rel st.known (day st.given) ≠ p.rel := by
    intro heq
    rw [heq, hrow.plain] at harchived
    cases harchived
  have hbeside : Beside st.drive p.rel (archiveName p.rel st.known (day st.given)) :=
    ⟨h.closed, hheld, fun hmem => hfree (hunfailed.archives _ hmem harchived), hne, hparent⟩
  have hcan : CanRename st.drive p.rel (archiveName p.rel st.known (day st.given)) :=
    ⟨hheld, ⟨hne, hbeside.absent, hparent ▸ (h.closed p.rel hheld).2⟩, fun hunder =>
      hplain (hunder.eq_of_length hbeside.length.symm).symm⟩
  obtain ⟨renamed, hrename⟩ := hcan.exists h.closed
  obtain ⟨e, he, herel⟩ := Keyed.mem_keys.mp hheld
  obtain ⟨b, hb, hbrel, hsnaps⟩ := h.same p List.mem_cons_self e he herel
  obtain rfl : b = d :=
    Option.some.inj ((Keyed.get?_eq_some_iff.mpr ⟨hb, hbrel⟩).symm.trans hrow.dest)
  have hmem : s.name ∈ e.snaps.keys := hsnaps ▸ Keyed.key_mem_keys hrow.mem
  have hrest :=
    @rest_accepted st.drive e (archiveName p.rel st.known (day st.given)) s.name
      (herel.symm ▸ hbeside) he renamed
      (herel.symm ▸ hrename) p herel.symm hrow.common hmem
        (sortRels (st.known.filter fun rel => parent rel = p.rel)) (fun child hchild => ?_)
      (nodup_sortRels.mpr (hunfailed.nodup.filter _))
  · obtain ⟨after, hafter⟩ := hrest
    exact branch_succeeds hfails hrename hafter
  · rw [mem_sortRels, List.mem_filter, decide_eq_true_eq] at hchild
    exact ⟨herel ▸ hchild.2, hunfailed.known child hchild.1⟩

/-- Every lineage of the listing is on the drive while its branches succeed. -/
theorem AllBranched.held {base before : Drive} {done : List DatasetPlan} {archive : Rel → Rel}
    (h : AllBranched base before done archive) {x : Rel} (hx : x ∈ base.keys) :
    x ∈ before.keys := by
  obtain ⟨b, hb, rfl⟩ := Keyed.mem_keys.mp hx
  by_cases hdone : ∀ q ∈ done, q.rel ≠ b.rel
  · obtain ⟨e, he, hsame⟩ := h.others b hb hdone
    exact hsame.rel ▸ Keyed.key_mem_keys he
  · push Not at hdone
    obtain ⟨q, hq, hqrel⟩ := hdone
    obtain ⟨-, -, -, -, -, -, e, he, herel, -⟩ := (h.branched q hq).live
    exact hqrel ▸ herel ▸ Keyed.key_mem_keys he

theorem allBranched_step {base before after : Drive} {done : List DatasetPlan} {archive : Rel → Rel}
    {e : Dest} {new : Rel} {origins : SnapName → SnapName}
    (h : AllBranched base before done archive)
    (hdivided : Divided before e new s.name origins after) (he : e ∈ before) (herel : e.rel = p.rel)
    (hs : s ∈ e.snaps) (hcommon : p.common = some s.name)
    (hnewer : (e.snaps.after s.name).keys = p.newer) (hbase : p.rel ∈ base.keys)
    (hbeside : Beside before p.rel new) (hlogical : logical new = p.rel)
    (hdone : ∀ q ∈ done, q.rel ≠ p.rel) :
    AllBranched base after (done ++ [p]) (Function.update archive p.rel new) := by
  have hnew : new ∉ base.keys := fun hmem => hbeside.absent (h.held hmem)
  refine ⟨fun q hq => ?_, fun d hd hdne => ?_, fun f hf => ?_⟩
  · obtain hq | hq := List.mem_append.mp hq
    · rw [Function.update_of_ne (hdone q hq)]
      refine (h.branched q hq).step hdivided (herel ▸ hdone q hq) fun heq => ?_
      exact (h.branched q hq).archiveName.1 (heq ▸ herel ▸ hbase)
    · obtain rfl := List.mem_singleton.mp hq
      rw [Function.update_self]
      obtain ⟨b, hb, hbrel⟩ := Keyed.mem_keys.mp hbase
      obtain ⟨e', he', hsame⟩ := h.others b hb (hbrel ▸ hdone)
      obtain rfl : e' = e := Keyed.eq_of_key he' he (hsame.rel.trans (hbrel.trans herel.symm))
      obtain ⟨clone, hlive⟩ := hdivided.live
      refine ⟨⟨hnew, hbeside.parent, hlogical⟩, b, hb, hbrel, s, hsame.snaps ▸ hs, hcommon, _,
        Keyed.mem_of_get? hlive, herel, hsame.snaps ▸ rfl, rfl, rfl, _,
        Keyed.mem_of_get? hdivided.kept, rfl, hsame.snaps ▸ rfl, hnewer, herel ▸ rfl⟩
  · obtain ⟨f, hf, hsame⟩ := h.others d hd fun q hq => hdne q (List.mem_append_left _ hq)
    have hfne : f.rel ≠ e.rel := by
      rw [hsame.rel, herel]
      exact (hdne p (List.mem_append_right _ List.mem_cons_self)).symm
    obtain ⟨g, hg, hsame'⟩ := sameDataset_of_divided hdivided he hf hfne
    exact ⟨g, hg, hsame.trans hsame'⟩
  · obtain hmem | heq := (hdivided.keys f.rel).mp (Keyed.key_mem_keys hf)
    · obtain ⟨g, hg, hgrel⟩ := Keyed.mem_keys.mp hmem
      obtain hold | ⟨q, hq, hqarchive⟩ := h.only g hg
      · exact .inl (hgrel ▸ hold)
      · refine .inr ⟨q, List.mem_append_left _ hq, ?_⟩
        rw [Function.update_of_ne (hdone q hq), ← hgrel]
        exact hqarchive
    · exact .inr ⟨p, List.mem_append_right _ List.mem_cons_self, by rw [heq, Function.update_self]⟩

theorem allBranched_branch (hahead : Ahead dest (p :: rest) st)
    (hrow : RollbackRow origin dest p o d s) (hbranch : st.branch fails day p = (true, st'))
    {base : Drive} {done : List DatasetPlan} {archive : Rel → Rel}
    (h : AllBranched base st.drive done archive) (hbase : p.rel ∈ base.keys)
    (hdone : ∀ q ∈ done, q.rel ≠ p.rel) :
    AllBranched base st'.drive (done ++ [p])
      (Function.update archive p.rel (archiveName p.rel st.known (day st.given))) := by
  obtain ⟨hbeside, -, e, he, herel, hsnaps, origins, hdivided⟩ :=
    divided_of_branch hahead hrow hbranch
  have hfacts := archiveName_facts hbeside.rel_ne_nil st.known (day st.given)
  have hlogical := hfacts.2.2.2.2.trans (logical_of_not_isArchived hrow.plain)
  exact allBranched_step h hdivided he herel (hsnaps ▸ hrow.mem) hrow.common
    (hsnaps ▸ hrow.newer) hbase hbeside hlogical hdone

theorem branchAll_cons (st : Branching) (p : DatasetPlan) (rest : List DatasetPlan) :
    st.branchAll fails day (p :: rest) =
    ((st.branch fails day p).1 && ((st.branch fails day p).2.branchAll fails day rest).1,
      ((st.branch fails day p).2.branchAll fails day rest).2) := rfl

/-- Whatever becomes of the branches before, the rest find what they need. -/
theorem ahead_branchAll (hclosed : ParentClosed dest.keys) {done : List DatasetPlan}
    (hturn : InTurn origin dest (done ++ rest)) (h : Ahead dest (done ++ rest) st) :
    Ahead dest rest (st.branchAll fails day done).2 := by
  induction done generalizing st with
  | nil => exact h
  | cons p done ih => exact ih hturn.tail (ahead_step hclosed hturn h)

theorem keepsAllOf_branchAll (hclosed : ParentClosed dest.keys) {l : List DatasetPlan}
    (hturn : InTurn origin dest l) (hst : ParentClosed st.drive.keys) :
    KeepsAllOf l st.drive (st.branchAll fails day l).2.drive := by
  induction l generalizing st with
  | nil => exact fun d hd s hs => ⟨d, hd, hs, rfl, .inl rfl⟩
  | cons p rest ih =>
      have hrel := hturn.ne_nil hclosed List.mem_cons_self
      have hkept : KeepsAll p.rel _ st.drive (st.branch fails day p).2.drive :=
        keepsAll_branch hst hrel
      intro d hd s hs
      obtain ⟨e, he, hse, hplace⟩ := hkept d hd s hs
      obtain ⟨f, hf, hsf, hlogical, hplace'⟩ := ih hturn.tail (closed_branch hrel hst) e he s hse
      refine ⟨f, hf, hsf, ?_⟩
      obtain hsame | ⟨hunder, -, hlogical'⟩ := hplace
      · rw [hsame] at hlogical hplace'
        exact ⟨hlogical, hplace'.imp_right fun ⟨q, hq, hqunder⟩ =>
          ⟨q, List.mem_cons_of_mem _ hq, hqunder⟩⟩
      · exact ⟨hlogical.trans hlogical', .inr ⟨p, List.mem_cons_self, hunder⟩⟩

theorem allBranched_branchAll (hclosed : ParentClosed dest.keys) (hturn : InTurn origin dest rest)
    (h : Ahead dest rest st) {done : List DatasetPlan} {archive : Rel → Rel}
    (hdone : AllBranched dest st.drive done archive)
    (hapart : ∀ q ∈ done, ∀ p ∈ rest, q.rel ≠ p.rel)
    (hrun : (st.branchAll fails day rest).1 = true) :
    ∃ archive', AllBranched dest (st.branchAll fails day rest).2.drive (done ++ rest) archive' := by
  induction rest generalizing st done archive with
  | nil => exact ⟨archive, (List.append_nil done).symm ▸ hdone⟩
  | cons p rest ih =>
      rw [branchAll_cons, Bool.and_eq_true] at hrun
      obtain ⟨o, d, s, hrow⟩ := hturn.rows p List.mem_cons_self
      have hbase : p.rel ∈ dest.keys :=
        Keyed.get?_isSome_iff.mp (Option.isSome_iff_exists.mpr ⟨d, hrow.dest⟩)
      have hnext :=
        allBranched_branch h hrow (Prod.ext hrun.1 rfl) hdone hbase fun q hq =>
          hapart q hq p List.mem_cons_self
      rw [← List.singleton_append, ← List.append_assoc]
      refine ih hturn.tail (ahead_step hclosed hturn h) hnext (fun q hq r hr => ?_) hrun.2
      obtain hq | hq := List.mem_append.mp hq
      · exact hapart q hq r (List.mem_cons_of_mem _ hr)
      · obtain rfl := List.mem_singleton.mp hq
        exact fun heq => (List.pairwise_cons.mp hturn.order).1 r hr (heq ▸ List.prefix_rfl)

theorem branchAll_accepted (hfails : ∀ n, fails n = false) (hclosed : ParentClosed dest.keys)
    (hturn : InTurn origin dest rest) (h : Ahead dest rest st) (hunfailed : Unfailed rest st) :
    (st.branchAll fails day rest).1 = true := by
  induction rest generalizing st with
  | nil => rfl
  | cons p rest ih =>
      obtain ⟨o, d, s, hrow⟩ := hturn.rows p List.mem_cons_self
      have hbranch : st.branch fails day p = (true, (st.branch fails day p).2) :=
        Prod.ext (branch_accepted hfails h hunfailed hrow) rfl
      obtain ⟨hbeside, hknown, e, -, -, -, origins, hdivided⟩ := divided_of_branch h hrow hbranch
      rw [branchAll_cons, Bool.and_eq_true]
      exact ⟨branch_accepted hfails h hunfailed hrow,
        ih hturn.tail (ahead_step hclosed hturn h)
        (unfailed_step hturn hunfailed hbeside.rel_ne_nil hknown hdivided)⟩

theorem Branched.continuesFrom {before after : Drive} {new : Rel} {point : String} {pt : Ref}
    (h : Branched before after p new) (hrow : RollbackRow origin dest p o d s)
    (hsame : ∀ b ∈ before, b.rel = p.rel → b.snaps = d.snaps) (hpt : NewestPoint o point pt) :
    ContinuesFrom o point p (after.get? p.rel) := by
  obtain ⟨b, hb, hbrel, t, -, hcommon, e, he, herel, hsnaps, htoken, hwritten, -⟩ := h.live
  have hname : t.name = s.name := Option.some.inj (hcommon.symm.trans hrow.common)
  rw [Keyed.get?_eq_some_iff.mpr ⟨he, herel⟩]
  refine continuesFrom_of_newest hpt hrow.base ?_ htoken hwritten
  rw [Dest.newest, hsnaps, hname, hsame b hb hbrel]
  exact hrow.newest

end Several

/-! ### The caller's order -/

section Caller

variable {origin : Origins} {dest : Drive} {point : String} {skip : List Rel}
  {ps : List DatasetPlan}

theorem mem_inOrder {p : DatasetPlan} : p ∈ inOrder ps ↔ p ∈ ps := List.mem_insertionSort _

theorem pairwise_inOrder (ps : List DatasetPlan) :
    (inOrder ps).Pairwise fun p q => p.rel.key ≤ q.rel.key :=
  have : Std.Total fun p q : DatasetPlan => p.rel.key ≤ q.rel.key := ⟨fun _ _ => le_total _ _⟩
  have : IsTrans DatasetPlan fun p q => p.rel.key ≤ q.rel.key := ⟨fun _ _ _ => le_trans⟩
  List.pairwise_insertionSort _ _

theorem inTurn_inOrder (hps : ∀ p ∈ ps, p ∈ plan origin dest point skip ∧ p.state = .rollback)
    (hnodup : ps.Nodup) :
    InTurn origin dest (inOrder ps) := by
  refine ⟨fun p hp => rollbackRow (hps p (mem_inOrder.mp hp)).1 (hps p (mem_inOrder.mp hp)).2, ?_⟩
  have hdistinct : (inOrder ps).Nodup := (List.perm_insertionSort _ ps).nodup_iff.mpr hnodup
  refine ((pairwise_inOrder ps).and hdistinct).imp_of_mem fun {p q} hp hq hpq hunder => ?_
  by_cases heq : p.rel = q.rel
  · exact hpq.2 (rollback_unique (hps p (mem_inOrder.mp hp)) (hps q (mem_inOrder.mp hq)) heq)
  · exact absurd hpq.1 (not_le.mpr (key_lt_of_under_of_ne hunder heq))

theorem ahead_start (hclosed : ParentClosed dest.keys) (l : List DatasetPlan) :
    Ahead dest l { drive := dest, known := dest.keys } :=
  ⟨hclosed, fun _ _ _ hx _ => hx, fun _ _ e he hrel => ⟨e, he, hrel, rfl⟩⟩

theorem unfailed_start {l : List DatasetPlan} (hturn : InTurn origin dest l) :
    Unfailed l { drive := dest, known := dest.keys } := by
  refine ⟨dest.nodup, fun _ hx => hx, fun _ hx _ => hx, fun q hq => ?_⟩
  obtain ⟨o, d, s, hrow⟩ := hturn.rows q hq
  exact Keyed.get?_isSome_iff.mp (Option.isSome_iff_exists.mpr ⟨d, hrow.dest⟩)

theorem allBranched_start (drive : Drive) : AllBranched drive drive [] id :=
  ⟨by simp, fun d hd _ => ⟨d, hd, .refl drive d⟩, fun _ he => .inl (Keyed.key_mem_keys he)⟩

theorem AllBranched.of_mem {before after : Drive} {l l' : List DatasetPlan} {archive : Rel → Rel}
    (h : AllBranched before after l archive) (hmem : ∀ {p}, p ∈ l ↔ p ∈ l') :
    AllBranched before after l' archive :=
  ⟨fun p hp => h.branched p (hmem.mpr hp),
    fun d hd hne => h.others d hd fun p hp => hne p (hmem.mp hp),
    fun e he => (h.only e he).imp_right fun ⟨p, hp, hrel⟩ => ⟨p, hmem.mp hp, hrel⟩⟩

/-- Every branch of the run keeps what it found, whatever failed before or fails in it, and one that
succeeds divides its lineage and nothing else; when all succeed all are divided, and they do when no
command fails. -/
theorem branchAll_keeps (hclosed : ParentClosed dest.keys)
    (hps : ∀ p ∈ ps, p ∈ plan origin dest point skip ∧ p.state = .rollback) (hnodup : ps.Nodup)
    (fails : ℕ → Bool) (day : ℕ → String) :
    let start : Branching := { drive := dest, known := dest.keys }
    (∀ done p rest, inOrder ps = done ++ p :: rest →
      let st := (start.branchAll fails day done).2
      let new := archiveName p.rel st.known (day st.given)
      let turn := st.branch fails day p
      KeepsAll p.rel new st.drive turn.2.drive ∧
        (turn.1 = true → AllBranched st.drive turn.2.drive [p] (fun _ => new) ∧
          ∀ o pt, origin.get? p.rel = some o → NewestPoint o point pt →
          ContinuesFrom o point p (turn.2.drive.get? p.rel))) ∧
    let run := start.branchAll fails day (inOrder ps)
    KeepsAllOf ps dest run.2.drive ∧
      (run.1 = true → ∃ archive, AllBranched dest run.2.drive ps archive ∧
        ∀ p ∈ ps, ∀ o pt, origin.get? p.rel = some o → NewestPoint o point pt →
        ContinuesFrom o point p (run.2.drive.get? p.rel)) ∧
      ((∀ n, fails n = false) → run.1 = true) := by
  intro start
  have hturn : InTurn origin dest (inOrder ps) := inTurn_inOrder hps hnodup
  have hahead : Ahead dest (inOrder ps) start := ahead_start hclosed _
  refine ⟨fun done p rest hsplit => ?_, ?_, fun hrun => ?_, fun hfails => ?_⟩
  · intro st new turn
    have hrest : Ahead dest (p :: rest) st :=
      ahead_branchAll hclosed (hsplit ▸ hturn) (hsplit ▸ hahead)
    have hp : p ∈ inOrder ps := hsplit ▸ List.mem_append_right done List.mem_cons_self
    obtain ⟨o, d, s, hrow⟩ := hturn.rows p hp
    refine ⟨keepsAll_branch hrest.closed (hturn.ne_nil hclosed hp), fun hsuccess => ?_⟩
    have hbranch : st.branch fails day p = (true, turn.2) := Prod.ext hsuccess rfl
    obtain ⟨hbeside, -⟩ := divided_of_branch hrest hrow hbranch
    have hdivided :=
      allBranched_branch hrest hrow hbranch (allBranched_start st.drive) hbeside.held (by simp)
    have hbranched := hdivided.branched p List.mem_cons_self
    rw [Function.update_self] at hbranched
    refine ⟨⟨?_, hdivided.others, fun e he => ?_⟩, fun o' pt ho' hpt => ?_⟩
    · simpa using hbranched
    · simpa using hdivided.only e he
    · obtain rfl := Option.some.inj (hrow.origin.symm.trans ho')
      refine hbranched.continuesFrom hrow (fun b hb hbrel => ?_) hpt
      obtain ⟨d', hd', hdrel, hsnaps⟩ := hrest.same p List.mem_cons_self b hb hbrel
      obtain rfl : d' = d :=
        Option.some.inj ((Keyed.get?_eq_some_iff.mpr ⟨hd', hdrel⟩).symm.trans hrow.dest)
      exact hsnaps.symm
  · have hkept : KeepsAllOf (inOrder ps) start.drive
        (start.branchAll fails day (inOrder ps)).2.drive :=
      keepsAllOf_branchAll hclosed hturn hclosed
    intro d hd s hs
    obtain ⟨e, he, hse, hlogical, hplace⟩ := hkept d hd s hs
    exact ⟨e, he, hse, hlogical, hplace.imp_right fun ⟨p, hp, hunder⟩ =>
      ⟨p, mem_inOrder.mp hp, hunder⟩⟩
  · obtain ⟨archive, hall⟩ :=
      allBranched_branchAll hclosed hturn hahead (allBranched_start dest) (by simp) hrun
    rw [List.nil_append] at hall
    refine ⟨archive, hall.of_mem mem_inOrder, fun p hp o pt ho hpt => ?_⟩
    obtain ⟨o', d, s, hrow⟩ := hturn.rows p (mem_inOrder.mpr hp)
    obtain rfl := Option.some.inj (hrow.origin.symm.trans ho)
    refine (hall.branched p (mem_inOrder.mpr hp)).continuesFrom hrow (fun b hb hbrel => ?_) hpt
    exact congrArg Dest.snaps (Option.some.inj
      ((Keyed.get?_eq_some_iff.mpr ⟨hb, hbrel⟩).symm.trans hrow.dest))
  · exact branchAll_accepted hfails hclosed hturn hahead (unfailed_start hturn)

end Caller

/-- A dataset and its child, each with a snapshot origin no longer has. -/
def nestedOrigin : Origins :=
  ⟨[{ rel := ["rpool", "home"], snaps := ⟨[⟨"s", "10", 3, 3⟩, ⟨"p", "12", 9, 9⟩], by decide⟩ },
    { rel := ["rpool", "home", "x"],
      snaps := ⟨[⟨"s", "11", 3, 3⟩, ⟨"p", "13", 9, 9⟩], by decide⟩ }], by decide⟩

def nestedDest : Drive :=
  ⟨[{ rel := ["rpool"] },
    { rel := ["rpool", "home"], snaps := rewoundDest.snaps },
    { rel := ["rpool", "home", "x"],
      snaps := ⟨[⟨"s", "11", 1, 3⟩, ⟨"t", "21", 2, 4⟩], by decide⟩ }], by decide⟩

def nestedPlans : List DatasetPlan :=
  (plan nestedOrigin nestedDest "p" []).filter (·.state = .rollback)

theorem branchAll_keeps_nested : nestedPlans.map DatasetPlan.rel
      = [["rpool", "home"], ["rpool", "home", "x"]] ∧
    ∃ archive, AllBranched nestedDest (Branching.branchAll (fun _ => false) (fun _ => "2024-05-01")
      (inOrder nestedPlans)
      { drive := nestedDest, known := nestedDest.keys }).2.drive nestedPlans archive := by
  have hps : ∀ p ∈ nestedPlans, p ∈ plan nestedOrigin nestedDest "p" [] ∧ p.state = .rollback :=
    fun p hp => by
      simpa [nestedPlans] using hp
  obtain ⟨-, -, hall, hsuccess⟩ :=
    branchAll_keeps (show ParentClosed nestedDest.keys by decide +kernel) hps (by decide +kernel)
      (fun _ => false)
      fun _ => "2024-05-01"
  obtain ⟨archive, harchive, -⟩ := hall (hsuccess fun _ => rfl)
  exact ⟨by decide +kernel, archive, harchive⟩

/-! ### A lineage that has the point already -/

def pointedOrigin : Origin :=
  { rel := ["rpool", "home"], snaps := ⟨[⟨"p", "12", 9, 9⟩], by decide⟩ }

def pointedDest : Drive :=
  ⟨[{ rel := ["rpool"] },
    { rel := ["rpool", "home"],
      snaps := ⟨[⟨"p", "12", 1, 9⟩, ⟨"t", "20", 2, 10⟩], by decide⟩ }], by decide⟩

def pointedPlan : DatasetPlan :=
  { rel := ["rpool", "home"], state := .rollback, base := .snapshot "p", common := some "p",
    newer := ["t"] }

/-- The common snapshot of a lineage branched may be the point, and then nothing is left to
transfer. -/
theorem branch_at_point : ∃ (pt : Ref) (now : Dest),
    pointedPlan ∈ plan ⟨[pointedOrigin], by decide⟩ pointedDest "p" [] ∧
    NewestPoint pointedOrigin "p" pt ∧
      (let run := Branching.branch (fun _ => false) (fun _ => "2024-05-01") pointedPlan
        { drive := pointedDest, known := pointedDest.keys }
      run.1 = true ∧ run.2.drive.get? pointedPlan.rel = some now ∧
        (planDataset pointedOrigin (some now) "p").state ≠ .incremental ∧
        (planDataset pointedOrigin (some now) "p").state ≠ .viaBookmark) := by
  refine ⟨⟨"p", "12", 9, 9⟩,
    { rel := ["rpool", "home"], snaps := ⟨[⟨"p", "12", 1, 9⟩], by decide⟩ }, by decide +kernel,
    ⟨rfl, by decide, by decide, by decide⟩, ?_⟩
  decide +kernel

end Zark
