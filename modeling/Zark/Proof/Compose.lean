import Zark.Proof.Chosen

/-!
# The decisions of one backup, from the survey's listing

Every change chosen is `Fit` for the listing it was planned on, and each leaves what the later ones
need when the choices are `Compatible`: then all of them run, and what the drive held is where the
decisions put it.
-/

namespace Zark

open Hierarchy

namespace Change

section Chosen

variable {origin : Origins} {dest : Drive} {point : String} {skip : List Rel}
  {plans : List DatasetPlan} {a b : Change} {t x name : Rel}

theorem Chosen.stands (h : a.Chosen (plan origin dest point skip) dest) :
    a.state = .orphan ∧ a.row.rel ∈ orphanTops origin (liveDatasets dest) ∨
      a.state = .excluded ∧ a.row.rel ∈ skip ∧ a.row.rel ∈ origin.keys ∨
        (a.state ≠ .orphan ∧ a.state ≠ .excluded) ∧ a.row.rel ∈ expected origin skip := by
  obtain ⟨hexpected, hstate⟩ | ⟨hskip, hkeys, hstate, -⟩ | ⟨htop, hstate⟩ := row_cases h.mem h.asked
  · exact .inr (.inr ⟨h.state ▸ hstate, hexpected⟩)
  · exact .inr (.inl ⟨h.state ▸ hstate, hskip, hkeys⟩)
  · exact .inl ⟨h.state ▸ hstate, htop⟩

theorem not_mem_of_orphanTop (h : x ∈ orphanTops origin (liveDatasets dest)) : x ∉ origin.keys :=
  (mem_orphans.mp (mem_orphanTops.mp h).1).2.1

theorem Chosen.live (h : a.Chosen (plan origin dest point skip) dest) :
    a.row.rel ∈ dest.keys ∧ isArchived a.row.rel = false := by
  rw [← mem_live_keys]
  obtain ⟨-, horphan, hexcluded⟩ | ⟨-, -, hstate, hheld⟩ | ⟨htop, -⟩ := row_cases h.mem h.asked
  · have hnew : a.row.state ≠ .new := by
      rw [h.state]
      cases a <;> simp [Change.state]
    obtain ⟨o, d, -, hexpected, hd, hrow⟩ := held_of_mem h.mem ⟨horphan, hexcluded, hnew⟩
    rw [hrow, planDataset_rel]
    exact mem_live_keys.mpr ⟨Keyed.get?_isSome_iff.mp (hd ▸ rfl),
      isArchived_of_isExpected hexpected⟩
  · exact Keyed.get?_isSome_iff.mp (hheld ▸ (h.held (h.state ▸ hstate)).2)
  · exact (mem_orphans.mp (mem_orphanTops.mp htop).1).1

/-- A change leaves every tree in its place or moves its dataset's, unless it destroys that one
after its dependents. -/
theorem Chosen.trees_cases (h : a.Chosen plans dest) :
    a.destroyed = none ∧ (a.trees = [] ∨ a.trees = [a.row.rel]) ∨
      a.destroyed = some (a.row.rel, destroyPlan dest a.row.rel) ∧
      (destroyPlan dest a.row.rel).ok = true ∧
        a.trees = (destroyPlan dest a.row.rel).order.map Dependent.rel ++ [a.row.rel] := by
  cases a with
  | keepOrphan | keepHeld | discardChanges | rollback | branch => exact .inl ⟨rfl, .inl rfl⟩
  | followRename | archive => exact .inl ⟨rfl, .inr rfl⟩
  | destroyOrphan p deps | destroyHeld p deps | destroy p deps =>
      obtain ⟨hdeps, hok⟩ := h.deps (p.rel, deps) rfl
      obtain rfl : deps = destroyPlan dest p.rel := (Prod.ext_iff.mp hdeps).2
      exact .inr ⟨rfl, hok, rfl⟩

theorem Chosen.tree (h : a.Chosen plans dest) (ht : t ∈ a.trees) :
    t = a.row.rel ∨ ∃ y ∈ (destroyPlan dest a.row.rel).order, y.rel = t ∧
    (destroyPlan dest a.row.rel).ok = true ∧
      a.destroyed = some (a.row.rel, destroyPlan dest a.row.rel) := by
  obtain ⟨-, htrees | htrees⟩ | ⟨hdestroyed, hok, htrees⟩ := h.trees_cases
  · rw [htrees] at ht
    cases ht
  · rw [htrees] at ht
    exact .inl (List.mem_singleton.mp ht)
  · rw [htrees, List.mem_append, List.mem_map, List.mem_singleton] at ht
    obtain ⟨y, hy, hrel⟩ | hself := ht
    · exact .inr ⟨y, hy, hrel, hok, hdestroyed⟩
    · exact .inl hself

theorem state_of_mem_trees (ht : t ∈ a.trees) :
    a.state = .orphan ∨ a.state = .excluded ∨ a.state = .diverged := by
  cases a with
  | keepOrphan | keepHeld | discardChanges | rollback | branch => cases ht
  | destroyOrphan | followRename => exact .inl rfl
  | destroyHeld => exact .inr (.inl rfl)
  | archive | destroy => exact .inr (.inr rfl)

theorem state_of_mem_rolled (hx : x ∈ a.rolled) : 2 ≤ a.state.turn := by
  cases a with
  | discardChanges => exact (show 2 ≤ State.modified.turn by decide)
  | rollback | branch => exact (show 2 ≤ State.rollback.turn by decide)
  | _ => cases hx

theorem state_of_target (h : name ∈ a.target) : a.state = .orphan ∧ a.row.renameTo = some name := by
  cases a with
  | followRename => exact ⟨rfl, h⟩
  | _ => cases h

/-- The name an orphan gets is one origin expects and the drive lacks, below a dataset the drive
has. -/
theorem Chosen.named (h : a.Chosen (plan origin dest point skip) dest) (hname : name ∈ a.target) :
    (a.row.rel, name) ∈ granted origin dest point skip ∧ name ∈ expected origin skip ∧
    isArchived name = false ∧ name ∉ dest.keys ∧
      parent name ∈ dest.keys := by
  have hgranted : Granted origin (liveDatasets dest) (newDatasets origin dest point skip)
      (orphanTops origin (liveDatasets dest))
      (granted origin dest point skip) := granted_renames
  have hmem := mem_of_lookup (lookup_granted h.mem (state_of_target hname).2)
  obtain ⟨-, hoffered⟩ := hgranted.offered _ hmem
  obtain ⟨o, ho, hexpected, habsent⟩ := of_mem_newDatasets hoffered.mem
  have hplain : isArchived name = false :=
    (Keyed.key_of_get? ho : o.rel = name) ▸ isArchived_of_isExpected hexpected
  exact ⟨hmem, mem_expected.mpr ⟨o, ho, hexpected⟩, hplain, habsent,
    (mem_live_keys.mp hoffered.place).1⟩

section Pair

variable (horigin : ParentClosed origin.keys) (hdrive : ParentClosed dest.keys)
  (hskip : Antichain skip)

include horigin hdrive in
theorem Chosen.not_under_orphan (ha : a.Chosen (plan origin dest point skip) dest)
    (hstate : a.state = .orphan) :
    (∀ x ∈ origin.keys, ¬Under x a.row.rel) ∧ ∀ x ∈ orphanTops origin (liveDatasets dest),
    Under x a.row.rel → x = a.row.rel := by
  obtain ⟨-, htop⟩ | ⟨hother, -⟩ | ⟨⟨hother, -⟩, -⟩ := ha.stands
  · exact ⟨fun x hx hunder => not_mem_of_orphanTop htop
      (horigin.mem_of_under hx hunder (hdrive _ ha.live.1).1), fun x hx hunder =>
        eq_of_orphanTop_under horigin hdrive htop hx hunder⟩
  · rw [hstate] at hother
    cases hother
  · exact absurd hstate hother

include horigin hdrive hskip in
/-- No dataset of a later change lies in a tree that is gone before. -/
theorem Precedes.not_under (h : a.Precedes b) (ha : a.Chosen (plan origin dest point skip) dest)
    (hb : b.Chosen (plan origin dest point skip) dest)
    (hstate : a.state = .orphan ∨ a.state = .excluded ∨ a.state = .diverged) :
    ¬Under b.row.rel a.row.rel := by
  intro hunder
  obtain hstate | hstate | hstate := hstate
  · obtain ⟨horphan, htops⟩ := ha.not_under_orphan horigin hdrive hstate
    obtain ⟨-, htop⟩ | ⟨-, -, hkeys⟩ | ⟨-, hexpected⟩ := hb.stands
    · exact h.ne (htops _ htop hunder).symm
    · exact horphan _ hkeys hunder
    · exact horphan _ (not_mem_skip_of_expected hexpected).2 hunder
  · obtain ⟨hother, -⟩ | ⟨-, haskip, -⟩ | ⟨⟨-, hother⟩, -⟩ := ha.stands
    · rw [hstate] at hother
      cases hother
    · obtain ⟨hbstate, -⟩ | ⟨-, hbskip, -⟩ | ⟨-, hexpected⟩ := hb.stands
      · have := h.turn
        rw [hstate, hbstate] at this
        exact absurd this (by decide)
      · exact h.ne (hskip.unique hbskip haskip List.prefix_rfl hunder).symm
      · have := (not_mem_skip_of_expected hexpected).1
        rw [covered_iff.mpr ⟨_, haskip, hunder⟩] at this
        cases this
    · exact hother hstate
  · have hbstate : b.state = .diverged := by
      have := h.turn
      rw [hstate] at this
      revert this
      cases b <;> simp [Change.state, State.turn]
    exact (h.diverged hstate hbstate).2 hunder

include horigin hdrive hskip in
theorem Precedes.reads (h : a.Precedes b) (ha : a.Chosen (plan origin dest point skip) dest)
    (hb : b.Chosen (plan origin dest point skip) dest)
    (hdependents : ∀ x ∈ a.destroyed, ∀ y ∈ b.destroyed, x.1 ≠ y.1 → Under x.1 y.1 →
      ∀ g ∈ x.2.order, ∀ t ∈ y.2.order, ¬Under t.rel g.rel)
    (hreads : b.Reads x) : covered x a.trees = false := by
  rw [← Bool.not_eq_true, covered_iff]
  rintro ⟨g, hg, hxg⟩
  have hnot := h.not_under horigin hdrive hskip ha hb (state_of_mem_trees hg)
  -- Whichever tree it is, the lineage of `x` lies below the change's dataset.
  have hlogical : Under (logical x) a.row.rel := by
    obtain rfl | ⟨y, hy, rfl, hok, -⟩ := ha.tree hg
    · exact logical_of_not_isArchived ha.live.2 ▸ logical_under hxg
    · have hplain := logical_of_not_isArchived (isArchived_logical y.rel)
      exact (logical_under hxg).trans (of_mem_order hok hy).2.2.1
  have hmeet : Under (logical x) b.row.rel → Under a.row.rel b.row.rel :=
    fun hb => (under_or_under hlogical hb).resolve_right hnot
  have hself : x ≠ b.row.rel := by
    rintro rfl
    rw [logical_of_not_isArchived hb.live.2] at hlogical
    exact hnot hlogical
  obtain hx | hx | ⟨hsome, hx⟩ | ⟨name, hname, rfl⟩ := hreads
  · obtain hx | ⟨z, hz, rfl, hzok, hbdestroyed⟩ := hb.tree hx
    · exact hself hx
    · obtain ⟨-, -, hzlogical, hzout, -⟩ := of_mem_order hzok hz
      have habove := hmeet hzlogical
      obtain rfl | ⟨y, hy, rfl, -, hadestroyed⟩ := ha.tree hg
      · exact hzout (hxg.trans habove)
      · exact hdependents _ hadestroyed _ hbdestroyed h.ne habove y hy z hz hxg
  · exact hself hx
  · obtain ⟨name, hname⟩ := Option.isSome_iff_exists.mp hsome
    have hbstate := (state_of_target hname).1
    have habove := hmeet (logical_of_not_isArchived hb.live.2 ▸ logical_under hx)
    obtain ⟨-, htop⟩ | ⟨hother, -, -⟩ | ⟨-, hexpected⟩ := ha.stands
    · exact h.ne ((hb.not_under_orphan horigin hdrive hbstate).2 _ htop habove)
    · have := h.turn
      rw [hother, hbstate] at this
      exact absurd this (by decide)
    · exact (hb.not_under_orphan horigin hdrive hbstate).1 _
        (not_mem_skip_of_expected hexpected).2 habove
  · obtain ⟨-, hexpected, hplain, -⟩ := hb.named hname
    have hbstate := (state_of_target hname).1
    have hparent : isArchived (parent name) = false := by
      rw [← Bool.not_eq_true]
      intro harchived
      rw [isArchived_of_under (under_parent name) harchived] at hplain
      cases hplain
    rw [logical_of_not_isArchived hparent] at hlogical
    obtain ⟨hastate, -⟩ | ⟨hother, -⟩ | ⟨⟨hother, -⟩, -⟩ := ha.stands
    · exact (ha.not_under_orphan horigin hdrive hastate).1 _ (not_mem_skip_of_expected hexpected).2
        ((under_parent name).trans hlogical)
    · have := h.turn
      rw [hother, hbstate] at this
      exact absurd this (by decide)
    · have := h.turn
      rw [hbstate] at this
      revert this hother
      cases a <;> simp [Change.state, State.turn]

theorem Precedes.orphan_of_target (h : a.Precedes b) (hname : name ∈ b.target) :
    a.state = .orphan := by
  have := h.turn
  rw [(state_of_target hname).1] at this
  revert this
  cases a <;> simp [Change.state, State.turn]

/-- What was written, a rollback and a branch take no tree away, and a branch comes before what is
archived or destroyed. -/
theorem Precedes.goneFirst_of_branch (h : a.Precedes b) {q : DatasetPlan} (hb : b = .branch q) :
    a.trees = a.goneFirst := by
  have := h.turn
  rw [hb] at this
  cases a with
  | archive | destroy =>
      exact absurd this (show ¬State.diverged.turn ≤ State.rollback.turn by decide)
  | _ => rfl

include horigin hdrive hskip in
theorem Precedes.apart (h : a.Precedes b) (ha : a.Chosen (plan origin dest point skip) dest)
    (hb : b.Chosen (plan origin dest point skip) dest) {changes : List Change}
    (hcompatible : Compatible dest changes) (hamem : a ∈ changes) (hbmem : b ∈ changes) :
    a.Apart dest b := by
  have hplain : ∀ t ∈ b.trees, t ≠ b.row.rel → isArchived t = true := by
    intro t ht hne
    obtain rfl | ⟨y, hy, rfl, hok, -⟩ := hb.tree ht
    · exact absurd rfl hne
    · exact (of_mem_order hok hy).2.1
  constructor
  case reads =>
    refine fun x _ hreads => ⟨h.reads horigin hdrive hskip ha hb
      (hcompatible.dependents a hamem b hbmem) hreads, fun hrolled => ?_⟩
    obtain rfl := eq_of_mem_rolled hrolled
    have hlate : b.target.isSome ≠ true := by
      intro hsome
      obtain ⟨name, hname⟩ := Option.isSome_iff_exists.mp hsome
      have := state_of_mem_rolled hrolled
      rw [h.orphan_of_target hname] at this
      exact absurd this (by decide)
    obtain hx | hx | ⟨hsome, -⟩ | ⟨name, hname, -⟩ := hreads
    · have := hplain _ hx h.ne
      rw [ha.live.2] at this
      cases this
    · exact h.ne hx
    · exact hlate hsome
    · exact hlate (Option.isSome_iff_exists.mpr ⟨name, hname⟩)
  case target =>
    intro name hname other hother hunder
    obtain ⟨hgranted, -, -, -, hplace⟩ := hb.named hname
    obtain ⟨hgranted', -, -, habsent, hplace'⟩ := ha.named hother
    have hone : Granted origin (liveDatasets dest) (newDatasets origin dest point skip)
        (orphanTops origin (liveDatasets dest))
        (granted origin dest point skip) := granted_renames
    by_cases hname' : name = other
    · subst hname'
      exact h.ne (congrArg Prod.fst (List.inj_on_of_nodup_map hone.nodup hgranted' hgranted rfl))
    · have hne : other ≠ [] := by
        rintro rfl
        exact (hdrive _ hplace').1 rfl
      exact habsent (hdrive.mem_of_under hplace (hunder.parent_of_ne hname') hne)
  case children =>
    rintro q rfl
    refine ⟨fun g hg => hcompatible.children a hamem g (h.goneFirst_of_branch rfl ▸ hg) q hbmem,
      fun name hname => hcompatible.places a hamem name hname q hbmem, fun rel hrel hparent => ?_⟩
    obtain rfl := eq_of_mem_aside hrel
    cases a with
    | branch p => exact h.branches p q rfl rfl (hparent ▸ under_parent p.rel)
    | archive p => exact absurd h.turn (show ¬State.diverged.turn ≤ State.rollback.turn by decide)
    | _ => cases hrel
  case place =>
    intro name hname t ht hunder
    obtain ⟨-, hexpected, hnamePlain, -⟩ := ha.named hname
    by_cases hself : t = b.row.rel
    · subst hself
      obtain ⟨hbstate, -⟩ | ⟨-, hbskip, -⟩ | ⟨hbstate, -⟩ := hb.stands
      · exact (hb.not_under_orphan horigin hdrive hbstate).1 _
          (not_mem_skip_of_expected hexpected).2 hunder
      · have := (not_mem_skip_of_expected hexpected).1
        rw [covered_iff.mpr ⟨_, hbskip, hunder⟩] at this
        cases this
      · cases b with
        | archive q => exact hcompatible.targets a hamem name hname q (.inl hbmem) hunder
        | destroy q deps =>
            exact hcompatible.targets a hamem name hname q (.inr ⟨deps, hbmem⟩) hunder
        | keepOrphan | destroyOrphan | followRename => exact hbstate.1 rfl
        | keepHeld | destroyHeld => exact hbstate.2 rfl
        | discardChanges | rollback | branch => cases ht
    · rw [isArchived_of_under hunder (hplain t ht hself)] at hnamePlain
      cases hnamePlain
  case aside =>
    intro rel hrel hin t ht hunder
    obtain rfl := eq_of_mem_aside hrel
    have hastate : a.state = .diverged := by
      cases a with
      | archive => rfl
      | branch => cases hin
      | _ => cases hrel
    have hbstate : b.state = .diverged := by
      have := h.turn
      rw [hastate] at this
      revert this
      cases b <;> simp [Change.state, State.turn]
    by_cases hself : t = b.row.rel
    · exact (h.diverged hastate hbstate).1 (hself ▸ hunder)
    · have := ha.live.2
      rw [isArchived_of_under hunder (hplain t ht hself)] at this
      cases this

include horigin hdrive in
theorem Chosen.fit (h : a.Chosen (plan origin dest point skip) dest) : a.Fit dest := by
  constructor
  case held => exact h.live.1
  case plain => exact h.live.2
  case trees =>
    intro t ht
    obtain rfl | ⟨y, hy, rfl, hok, -⟩ := h.tree ht
    · exact h.live.1
    · exact (of_mem_order hok hy).1
  case order =>
    obtain ⟨-, htrees | htrees⟩ | ⟨-, hok, htrees⟩ := h.trees_cases
    · exact htrees ▸ .nil
    · exact htrees ▸ List.pairwise_singleton _ _
    · rw [htrees]
      refine List.pairwise_append.mpr ⟨(antichain_order hok).imp fun h =>
        h.2, List.pairwise_singleton _ _, fun s hs t ht => ?_⟩
      obtain rfl := List.mem_singleton.mp ht
      obtain ⟨y, hy, rfl⟩ := List.mem_map.mp hs
      exact (of_mem_order hok hy).2.2.2.2
  case target =>
    intro name hname
    obtain ⟨-, hexpected, hplain, habsent, hplace⟩ := h.named hname
    exact ⟨habsent, hplace, hplain, (h.not_under_orphan horigin hdrive (state_of_target hname).1).1
      _ (not_mem_skip_of_expected hexpected).2⟩
  case offered => exact fun x hx => (h.deps x hx).2
  case follows => exact h.follows
  case discards =>
    rintro p rfl
    have hstate : p.state = .modified := h.state
    obtain ⟨o, d, -, -, hd, hplan⟩ :=
      held_of_mem (p := p) h.mem ⟨by simp [hstate], by simp [hstate], by simp [hstate]⟩
    obtain ⟨newest, hnewest, hcommon, hreceiving⟩ := planned_modified (hplan ▸ hstate)
    rw [← hplan] at hcommon hreceiving
    have hrel : p.rel = o.rel := hplan ▸ planDataset_rel o (some d) point
    exact ⟨d, newest, hrel ▸ hd, hnewest, hcommon, hreceiving⟩
  case rolls =>
    intro hkind
    have hstate : a.row.state = .rollback := by
      rw [h.state]
      obtain hkind | hkind := hkind
      · rw [hkind]
        rfl
      · rw [hkind]
        rfl
    obtain ⟨o, d, s, hrow⟩ := rollbackRow h.mem hstate
    exact ⟨d, s, hrow.dest, hrow.mem, hrow.common, hrow.newer⟩

end Pair

end Chosen

end Change

/-! ### From the survey on -/

section Survey

variable {origin : Origins} {dest : Drive} {point : String} {skip : List Rel} {ext4 : Bool}
  {answers : Answers} {a : Change}

theorem eq_of_row {changes : List Change} {a b : Change}
    (hpairwise : changes.Pairwise Change.Precedes) (ha : a ∈ changes) (hb : b ∈ changes)
    (h : a.row.rel = b.row.rel) : a = b := by
  have hsymm : Std.Symm fun a b : Change => a.row.rel ≠ b.row.rel := ⟨fun _ _ h => h.symm⟩
  by_contra hne
  exact (hpairwise.imp fun hab => hab.ne).forall ha hb hne h

/-- The clones of a tree to be destroyed, on the survey's listing, lie in it or in what goes before
it. -/
theorem clonesWithin_start (horigin : ParentClosed origin.keys) (hdrive : ParentClosed dest.keys)
    {changes : List Change} (hchosen : ∀ a ∈ changes, a.Chosen (plan origin dest point skip) dest)
    (hpairwise : changes.Pairwise Change.Precedes) (hcompatible : Compatible dest changes)
    (ha : a ∈ changes) (hdestroyed : a.destroyed.isSome = true) :
    ClonesWithin (renamedTops changes) a.trees dest := by
  intro before t after hsplit e he source hsource hunder
  have hself := hchosen a ha
  obtain ⟨hnone, -⟩ | ⟨hplan, hok, htrees⟩ := hself.trees_cases
  · rw [hnone] at hdestroyed
    cases hdestroyed
  rw [htrees] at hsplit
  obtain ⟨left, hleft⟩ := Option.isSome_iff_exists.mp (step_of_ok hok hself.live.1 hsplit)
  obtain ⟨-, hclones, -⟩ := zfsDestroy_eq_some_iff.mp hleft
  have hcovered : ∃ s ∈ before ++ [t], Under e.rel s := by
    by_cases hgone : ∃ s ∈ before, Under e.rel s
    · obtain ⟨s, hs, hes⟩ := hgone
      exact ⟨s, List.mem_append_left _ hs, hes⟩
    · have hleft : e ∈ without dest before :=
        mem_without.mpr ⟨he, fun s hs hes => hgone ⟨s, hs, hes⟩⟩
      exact ⟨t, List.mem_append_right _ (List.mem_singleton_self t),
        hclones e hleft source hsource hunder⟩
  by_cases hleaving : covered e.rel (renamedTops changes) = true
  · left
    obtain ⟨rfl, -⟩ | ⟨rest, hrest⟩ := cut_order hsplit
    · exact hcompatible.clones a ha _ hplan e he source hsource hunder hleaving
    · -- A clone of an archived lineage lies in another one, so in no orphan.
      exfalso
      obtain ⟨s, hs, hes⟩ := hcovered
      obtain ⟨_, htop, heTop⟩ := covered_iff.mp hleaving
      obtain ⟨c, hc, hsome, rfl⟩ := mem_renamedTops.mp htop
      have hsorder : s ∈ (destroyPlan dest a.row.rel).order.map Dependent.rel := by
        rw [hrest, ← List.singleton_append, ← List.append_assoc]
        exact List.mem_append_left _ hs
      obtain ⟨y, hy, rfl⟩ := List.mem_map.mp hsorder
      obtain ⟨-, -, hylogical, hyout, hynot⟩ := of_mem_order hok hy
      obtain ⟨name, hname⟩ := Option.isSome_iff_exists.mp hsome
      have hlogical : Under (logical e.rel) c.row.rel :=
        logical_of_not_isArchived (hchosen c hc).live.2 ▸ logical_under heTop
      obtain habove | habove := under_or_under hlogical ((logical_under hes).trans hylogical)
      · obtain hcase | hcase := under_or_under hes (heTop.trans habove)
        · exact hyout hcase
        · exact hynot hcase
      · obtain ⟨horphan, htops⟩ :=
          (hchosen c hc).not_under_orphan horigin hdrive (Change.state_of_target hname).1
        obtain ⟨-, hatop⟩ | ⟨-, -, hkeys⟩ | ⟨-, hexpected⟩ := hself.stands
        · obtain rfl := eq_of_row hpairwise ha hc (htops _ hatop habove)
          cases a with
          | followRename => cases hplan
          | _ => cases hsome
        · exact horphan _ hkeys habove
        · exact horphan _ (not_mem_skip_of_expected hexpected).2 habove
  · exact .inr ⟨covered_iff.mpr hcovered, Bool.not_eq_true _ ▸ hleaving⟩

theorem good_start (horigin : ParentClosed origin.keys) (hdrive : ParentClosed dest.keys)
    (hgrounded : Grounded dest) (hskip : Antichain skip)
    (hcompatible : Compatible dest
      (chosenChanges ext4 (plan origin dest point skip) dest answers)) :
    Good dest [] (chosenChanges ext4 (plan origin dest point skip) dest answers)
      { drive := dest, known := dest.keys } := by
  have hall : ChosenUpTo (plan origin dest point skip) dest 5
      (chosenChanges ext4 (plan origin dest point skip) dest answers) :=
    chosenUpTo_chosenChanges ext4 answers hskip.nodup
  constructor
  case closed => exact hdrive
  case grounded => exact hgrounded
  case nodup => exact dest.nodup
  case copies => exact fun d hd _ => ⟨d, Keyed.get?_of_mem hd, rfl, rfl, rfl⟩
  case kept => exact fun d hd _ => ⟨d, Keyed.get?_of_mem hd, .inl rfl⟩
  case moved => simp
  case free =>
    exact fun a ha name hname => (((hall.chosen a ha).fit horigin hdrive).target name hname).1
  case children => exact fun _ _ _ _ => Iff.rfl
  case siblings => exact fun _ _ _ _ x hx _ _ => hx
  case rollbacks =>
    intro q hq e he source hsource hrel hnewer
    have hnone := List.filterMap_eq_nil_iff.mp (blockers_of_rollback hq) e (mem_sortedItems.mpr he)
    rw [hsource, Option.bind_some, if_pos (by simpa using ⟨hrel, hnewer⟩)] at hnone
    cases hnone
  case clones =>
    exact fun a ha hdestroyed => clonesWithin_start horigin hdrive hall.chosen hall.pairwise
      hcompatible ha hdestroyed

theorem mem_chosenTops {changes : List Change} (ha : a ∈ changes) (hstate : a.state = .diverged) :
    a.row.rel ∈ chosenTops changes := by
  refine List.mem_filterMap.mpr ⟨a, ha, ?_⟩
  cases a with
  | archive | destroy => rfl
  | _ => cases hstate

theorem not_covered_of_expected (horigin : ParentClosed origin.keys)
    (hdrive : ParentClosed dest.keys) {changes : List Change} (ha : a ∈ changes)
    (hchosen : a.Chosen (plan origin dest point skip) dest) {rel : Rel}
    (hrel : rel ∈ expected origin skip) (hout : covered rel (chosenTops changes) = false) :
    covered rel a.trees = false := by
  rw [← Bool.not_eq_true, covered_iff]
  rintro ⟨g, hg, hunder⟩
  obtain ⟨o, ho, hexpected⟩ := mem_expected.mp hrel
  have hplain : isArchived rel = false := Keyed.key_of_get? ho ▸ isArchived_of_isExpected hexpected
  obtain rfl | ⟨y, hy, rfl, hok, -⟩ := hchosen.tree hg
  · obtain ⟨hstate, -⟩ | ⟨-, hskip, -⟩ | ⟨hstate, -⟩ := hchosen.stands
    · exact (hchosen.not_under_orphan horigin hdrive hstate).1 rel
        (not_mem_skip_of_expected hrel).2 hunder
    · have := (not_mem_skip_of_expected hrel).1
      rw [covered_iff.mpr ⟨_, hskip, hunder⟩] at this
      cases this
    · obtain hother | hother | hdiverged := Change.state_of_mem_trees hg
      · exact hstate.1 hother
      · exact hstate.2 hother
      · rw [covered_iff.mpr ⟨_, mem_chosenTops ha hdiverged, hunder⟩] at hout
        cases hout
  · rw [isArchived_of_under hunder (of_mem_order hok hy).2.1] at hplain
    cases hplain

theorem row_of_expected (hskip : skip.Nodup) {p q : DatasetPlan}
    (hp : p ∈ plan origin dest point skip) (hq : q ∈ plan origin dest point skip)
    (hrel : p.rel ∈ expected origin skip) (h : q.rel = p.rel) : q = p := by
  obtain ⟨o, ho, hexpected⟩ := mem_expected.mp hrel
  have hkey : o.rel = p.rel := Keyed.key_of_get? ho
  have hone : ((plan origin dest point skip).filter fun r => r.rel == o.rel).length = 1 :=
    List.countP_eq_length_filter ▸ count_rows_of_expected hskip (Keyed.mem_of_get? ho) hexpected
  obtain ⟨r, hr⟩ := List.length_eq_one_iff.mp hone
  have hmem : ∀ s ∈ plan origin dest point skip, s.rel = p.rel → s = r := fun s hs hsrel =>
    List.mem_singleton.mp (hr ▸ List.mem_filter.mpr ⟨hs, beq_iff_eq.mpr (hsrel.trans hkey.symm)⟩)
  exact (hmem q hq h).trans (hmem p hp rfl).symm

/-- The decisions of one backup compose, whatever was answered, when nothing is removed to make room
and no two of them meet: every command succeeds, what is expected and was not chosen to go is in its
place as far as its plan goes, and what was renamed is under its new name. -/
theorem changes_compose (horigin : ParentClosed origin.keys) (hdrive : ParentClosed dest.keys)
    (hgrounded : Grounded dest) (hskip : Antichain skip) {room : Option Room}
    {changes : List Change}
    (hdecided : decided ext4 (plan origin dest point skip) dest answers room = some ([], changes))
    (hcompatible : Compatible dest changes) (stamp : String) (day : ℕ → String) :
    Composed (plan origin dest point skip) (expected origin skip) dest changes
      (applyChanges stamp day changes { drive := dest, known := dest.keys }) := by
  obtain rfl := changes_of_decided hdecided
  have hall : ChosenUpTo (plan origin dest point skip) dest 5
      (chosenChanges ext4 (plan origin dest point skip) dest answers) :=
    chosenUpTo_chosenChanges ext4 answers hskip.nodup
  have hstart := good_start horigin hdrive hgrounded hskip hcompatible
  have hfits : ∀ a ∈ chosenChanges ext4 (plan origin dest point skip) dest answers, a.Fit dest :=
    fun a ha => (hall.chosen a ha).fit horigin hdrive
  have hapart : (chosenChanges ext4 (plan origin dest point skip) dest answers).Pairwise
      (Change.Apart dest) :=
    hall.pairwise.imp_of_mem fun {a b} ha hb h =>
      h.apart horigin hdrive hskip (hall.chosen a ha) (hall.chosen b hb) hcompatible ha hb
  generalize chosenChanges ext4 (plan origin dest point skip) dest answers = changes at *
  have hrun : (applyChanges stamp day changes { drive := dest, known := dest.keys }).1 = true ∧
      Good dest ([] ++ changes) [] (applyChanges stamp day changes
          { drive := dest, known := dest.keys }).2 :=
    applyChanges_good stamp day hdrive hfits hapart hstart
  obtain ⟨hok, hgood⟩ := hrun
  constructor
  case succeeds => exact hok
  case expected =>
    intro p hp hwanted d hd htops
    obtain ⟨hdmem, hdrel⟩ := Keyed.get?_eq_some_iff.mp hd
    obtain ⟨e, he, hsnaps⟩ :=
      hgood.kept d hdmem fun a ha => hdrel ▸ not_covered_of_expected horigin hdrive ha
        (hall.chosen a ha) hwanted htops
    refine ⟨e, hdrel ▸ he, fun s hs => ?_⟩
    obtain hsame | ⟨a, ha, hkind, hrow, hcut⟩ := hsnaps
    · rw [hsame]
      unfold DatasetPlan.continued at hs
      split at hs
      · exact Keyed.mem_of_mem_upTo hs
      · exact hs
    · -- The row that was rolled back or branched is the dataset's.
      obtain rfl := row_of_expected hskip.nodup hp (hall.chosen a ha).mem hwanted (hrow.trans hdrel)
      obtain ⟨-, r, -, -, hcommon, -⟩ := (hfits a ha).rolls hkind
      rw [DatasetPlan.continued, hcommon] at hs
      rw [hcommon] at hcut
      exact hcut ▸ hs
  case renamed =>
    intro p name hmem hname d hd hunder
    obtain ⟨e, he, hsame⟩ := hgood.moved _ hmem name hname d hd hunder
    exact ⟨e, he, hsame.1⟩

end Survey

/-! ### Choices that meet, and choices that do not -/

/-- A dataset and its child, and one that had another name. -/
def decidedOrigin : Origins :=
  ⟨[{ rel := ["rpool"] },
    { rel := ["rpool", "home"], snaps := ⟨[⟨"s", "7010", 3, 3⟩, ⟨"p", "7012", 9, 9⟩], by decide⟩ },
    { rel := ["rpool", "home", "y"],
      snaps := ⟨[⟨"s", "7011", 3, 3⟩, ⟨"p", "7013", 9, 9⟩], by decide⟩ },
    { rel := ["rpool", "new"],
      snaps := ⟨[⟨"s", "7014", 3, 3⟩, ⟨"p", "7015", 9, 9⟩], by decide⟩ }], by decide⟩

/-- What the drive has of them, with an orphan at `rel`: the dataset is to be rolled back. -/
def decidedDest (rel : Rel)
    (h : rel ∉ [["rpool"], ["rpool", "home"], ["rpool", "home", "y"], ["rpool", "old"]]) :
    Drive where
  items :=
    [{ rel, snaps := ⟨[⟨"s", "7050", 1, 3⟩], by decide⟩ },
      { rel := ["rpool"] },
      { rel := ["rpool", "home"],
        snaps := ⟨[⟨"s", "7010", 1, 3⟩, ⟨"t", "7020", 2, 4⟩], by decide⟩ },
      { rel := ["rpool", "home", "y"], snaps := ⟨[⟨"s", "7011", 1, 3⟩], by decide⟩ },
      { rel := ["rpool", "old"], snaps := ⟨[⟨"s", "7014", 1, 3⟩], by decide⟩ }]
  nodup := List.nodup_cons.mpr ⟨h, by decide⟩

/-- The orphan is destroyed, what has another name is renamed, and the rest is branched. -/
def decidedAnswers : Answers where
  orphan rel := if rel = ["rpool", "old"] then .follow else .destroy
  held _ := .later
  discard := false
  rollBack := false
  diverged _ := .skip

/-- The changes these answers come to. -/
def decidedChanges (rel : Rel)
    (h : rel ∉ [["rpool"], ["rpool", "home"], ["rpool", "home", "y"], ["rpool", "old"]]) :
    List Change :=
  chosenChanges false (plan decidedOrigin (decidedDest rel h) "p" [])
    (decidedDest rel h) decidedAnswers

/-- A drive with room for more than is sent. -/
def roomyDrive : Room where
  space := { needed := 1000, size := 100000, avail := 50000 }
  policy := {}
  asked := none
  frees := fun _ _ => 0
  yes := false

theorem changes_compose_decided : (decidedChanges ["rpool", "gone"] (by decide)).length = 3 ∧
    Composed (plan decidedOrigin (decidedDest ["rpool", "gone"] (by decide)) "p" [])
      (expected decidedOrigin []) (decidedDest ["rpool", "gone"] (by decide))
      (decidedChanges ["rpool", "gone"] (by decide))
      (applyChanges "2024-05-01_10:00:00Z" (fun _ => "2024-05-01")
        (decidedChanges ["rpool", "gone"] (by decide))
        { drive := decidedDest ["rpool", "gone"] (by decide),
          known := (decidedDest ["rpool", "gone"] (by decide)).keys }) := by
  have hchanges : decidedChanges ["rpool", "gone"] (by decide) =
      [.destroyOrphan { rel := ["rpool", "gone"], state := .orphan }
        { top := ["rpool", "gone"], order := [], blockers := [] }, .followRename
          { rel := ["rpool", "old"], state := .orphan, renameTo := some ["rpool", "new"] },
        .branch
            { rel := ["rpool", "home"], state := .rollback, base := .snapshot "s",
              common := some "s", newer := ["t"] }] := by
    decide +kernel
  have hplain : ∀ d ∈ decidedDest ["rpool", "gone"] (by decide), d.cloneOf = none := by
    decide +kernel
  have hgrounded : Grounded (decidedDest ["rpool", "gone"] (by decide)) :=
    fun d hd source hsource => by
      rw [hplain d hd] at hsource
      cases hsource
  have hcompatible : Compatible (decidedDest ["rpool", "gone"] (by decide))
      (decidedChanges ["rpool", "gone"] (by decide)) := by
    rw [hchanges]
    refine ⟨?_, ?_, ?_, ?_, fun b hb y hy d hd source hsource => ?_⟩
    · simp [Change.goneFirst]
    · simp [Change.target]
    · simp [Change.target]
    · simp [Change.destroyed]
    · rw [hplain d hd] at hsource
      cases hsource
  have hdecided : decided false (plan decidedOrigin (decidedDest ["rpool", "gone"] (by decide)) "p"
      []) (decidedDest ["rpool", "gone"] (by decide))
      decidedAnswers (some roomyDrive) = some ([], decidedChanges ["rpool", "gone"] (by decide)) :=
        rfl
  exact ⟨by rw [hchanges]; rfl, changes_compose (by decide) (by decide +kernel) hgrounded .nil hdecided hcompatible _ _⟩

/-- A child of a dataset that is branched may not be destroyed before: the branch puts back what the
listing had, fails there, and leaves the children that come after it in the archive. -/
theorem destroyed_child_fails :
    let run :=
      applyChanges "2024-05-01_10:00:00Z" (fun _ => "2024-05-01")
        (decidedChanges ["rpool", "home", "x"] (by decide))
        { drive := decidedDest ["rpool", "home", "x"] (by decide),
          known := (decidedDest ["rpool", "home", "x"] (by decide)).keys }
    run.1 = false ∧ ["rpool", "home", "y"] ∈ expected decidedOrigin [] ∧
      ["rpool", "home", "y"] ∉ run.2.drive.keys ∧
      ["rpool", "home.archived-2024-05-01", "y"] ∈ run.2.drive.keys := by
  decide +kernel

end Zark
