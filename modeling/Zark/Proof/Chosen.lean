import Zark.Proof.Decisions

/-!
# What is chosen in one backup

The changes are chosen for rows of one plan, no two for the same dataset, group after group: the
orphans, the excluded copies, what was written, the rollbacks and the diverged datasets, parents
first where one may lie below another. An orphan's tree lies outside origin's names and an excluded
one holds nothing expected, so what one change takes away the later ones do not need, apart from
what `Compatible` names.
-/

namespace Zark

open Hierarchy

/-! ### The rows -/

/-- A row that is more than a report of what is left out. -/
def DatasetPlan.Asked (p : DatasetPlan) : Prop := p.state = .excluded → p.declared = true

section Rows

variable {origin : Origins} {dest : Drive} {point : String} {skip : List Rel} {p q : DatasetPlan}

theorem pairwise_sortRels (l : List Rel) : (sortRels l).Pairwise fun a b => a.key ≤ b.key :=
  have : Std.Total fun a b : Rel => a.key ≤ b.key := ⟨fun _ _ => le_total _ _⟩
  have : IsTrans Rel fun a b => a.key ≤ b.key := ⟨fun _ _ _ => le_trans⟩
  List.pairwise_insertionSort _ _

theorem not_mem_skip_of_expected {rel : Rel} (h : rel ∈ expected origin skip) :
    covered rel skip = false ∧ rel ∈ origin.keys := by
  obtain ⟨o, ho, hexpected⟩ := mem_expected.mp h
  obtain rfl := Keyed.key_of_get? ho
  simp only [isExpected, Bool.and_eq_true, Bool.not_eq_true'] at hexpected
  exact ⟨hexpected.2, Keyed.get?_isSome_iff.mp (ho ▸ rfl)⟩

/-- A row that is asked about is an expected dataset's, an excluded top's or an orphan top's. -/
theorem row_cases (hp : p ∈ plan origin dest point skip) (hasked : p.Asked) :
    (p.rel ∈ expected origin skip ∧ p.state ≠ .orphan ∧ p.state ≠ .excluded) ∨
      (p.rel ∈ skip ∧ p.rel ∈ origin.keys ∧ p.state = .excluded ∧
        p.held = ((liveDatasets dest).get? p.rel).isSome) ∨
        p.rel ∈ orphanTops origin (liveDatasets dest) ∧ p.state = .orphan := by
  obtain ⟨rows, hplan, hrels, hstate⟩ := plan_eq origin dest point skip
  rw [hplan] at hp
  obtain hp | hp := List.mem_append.mp hp
  · obtain hp | hp := List.mem_append.mp hp
    · obtain hp | hp := List.mem_append.mp hp
      · left
        refine ⟨wantedRows_rel origin dest point skip ▸ List.mem_map_of_mem hp, ?_⟩
        obtain ⟨rel, -, hrow⟩ := List.mem_filterMap.mp hp
        obtain ⟨o, -, rfl⟩ := Option.map_eq_some_iff.mp hrow
        exact planExpected_ne o origin _ point
      · obtain ⟨row, -, rfl⟩ := List.mem_map.mp hp
        cases hasked rfl
    · obtain ⟨top, htop, rfl⟩ := List.mem_map.mp hp
      obtain ⟨hskip, hkeys⟩ := List.mem_filter.mp (mem_sortRels.mp htop)
      exact .inr (.inl ⟨hskip, of_decide_eq_true hkeys, rfl, rfl⟩)
  · exact .inr (.inr ⟨hrels ▸ List.mem_map_of_mem hp, (hstate p hp).1⟩)

/-- No dataset has two rows that are asked about, and those of the expected datasets come parents
first. -/
theorem plan_pairwise (hskip : skip.Nodup) : (plan origin dest point skip).Pairwise fun p q =>
    p.Asked → q.Asked → p.rel ≠ q.rel ∧
    (p.state = .diverged → q.state = .diverged → p.rel.key ≤ q.rel.key) := by
  obtain ⟨rows, hplan, hrels, hstate⟩ := plan_eq origin dest point skip
  have hwanted : ∀ p ∈ wantedRows origin dest point skip, p.rel ∈ expected origin skip :=
    fun p hp =>
      wantedRows_rel origin dest point skip ▸ List.mem_map_of_mem hp
  have hdeclared : ∀ p ∈ declaredRows origin (liveDatasets dest) skip, p.rel ∈ skip ∧
      p.rel ∈ origin.keys ∧ p.state = .excluded := fun p hp => by
    obtain ⟨top, htop, rfl⟩ := List.mem_map.mp hp
    obtain ⟨hskip, hkeys⟩ := List.mem_filter.mp (mem_sortRels.mp htop)
    exact ⟨hskip, of_decide_eq_true hkeys, rfl⟩
  have hleft : ∀ p ∈ leftRows origin skip, ¬p.Asked := fun p hp hasked => by
    obtain ⟨row, -, rfl⟩ := List.mem_map.mp hp
    cases hasked rfl
  have horphan : ∀ p ∈ rows, p.rel ∉ origin.keys := fun p hp => by
    have hmem : p.rel ∈ orphanTops origin (liveDatasets dest) := hrels ▸ List.mem_map_of_mem hp
    exact (mem_orphans.mp (mem_orphanTops.mp hmem).1).2.1
  rw [hplan]
  refine List.pairwise_append.mpr ⟨List.pairwise_append.mpr
    ⟨List.pairwise_append.mpr ⟨?_, ?_, ?_⟩, ?_, ?_⟩, ?_, ?_⟩
  · have hpairs : ((wantedRows origin dest point skip).map DatasetPlan.rel).Pairwise fun r s =>
        r.key ≤ s.key ∧ r ≠ s := by
      rw [wantedRows_rel]
      exact (pairwise_sortRels _).and (nodup_expected origin skip)
    exact (List.pairwise_map.mp hpairs).imp fun h _ _ => ⟨h.2, fun _ _ => h.1⟩
  · exact List.pairwise_of_forall_mem_list fun p hp q _ hasked => absurd hasked (hleft p hp)
  · exact fun p _ q hq _ hasked => absurd hasked (hleft q hq)
  · have hdistinct : (declaredRows origin (liveDatasets dest) skip).Pairwise fun p q =>
        p.rel ≠ q.rel :=
      List.pairwise_map.mp (declaredRows_rel origin (liveDatasets dest) skip ▸ nodup_sortRels.mpr
        (hskip.filter _))
    refine hdistinct.imp_of_mem fun {p q} hp _ hne _ _ => ⟨hne, fun h => ?_⟩
    rw [(hdeclared p hp).2.2] at h
    cases h
  · intro p hp q hq hasked _
    obtain hp | hp := List.mem_append.mp hp
    · refine ⟨fun heq => ?_, fun _ h => ?_⟩
      · have := (not_mem_skip_of_expected (hwanted p hp)).1
        rw [heq, covered_iff.mpr ⟨q.rel, (hdeclared q hq).1, List.prefix_rfl⟩] at this
        cases this
      · rw [(hdeclared q hq).2.2] at h
        cases h
    · exact absurd hasked (hleft p hp)
  · have hdistinct : rows.Pairwise fun p q => p.rel ≠ q.rel :=
      List.pairwise_map.mp
        (hrels ▸ (nodup_sortRels.mpr ((liveDatasets dest).nodup.filter _)).filter _)
    refine hdistinct.imp_of_mem fun {p q} hp _ hne _ _ => ⟨hne, fun h => ?_⟩
    rw [(hstate p hp).1] at h
    cases h
  · intro p hp q hq hasked _
    refine ⟨fun heq => horphan q hq (heq ▸ ?_), fun _ h => ?_⟩
    · obtain hp | hp := List.mem_append.mp hp
      · obtain hp | hp := List.mem_append.mp hp
        · exact (not_mem_skip_of_expected (hwanted p hp)).2
        · exact absurd hasked (hleft p hp)
      · exact (hdeclared p hp).2.1
    · rw [(hstate q hq).1] at h
      cases h

theorem row_unique (hskip : skip.Nodup) (hp : p ∈ plan origin dest point skip)
    (hq : q ∈ plan origin dest point skip) (hpAsked : p.Asked) (hqAsked : q.Asked)
    (h : p.rel = q.rel) : p = q := by
  have hsymm : Std.Symm fun p q : DatasetPlan => p.Asked → q.Asked → p.rel ≠ q.rel :=
    ⟨fun _ _ h hq hp => (h hp hq).symm⟩
  have hpairs : (plan origin dest point skip).Pairwise fun p q => p.Asked → q.Asked →
      p.rel ≠ q.rel :=
    (plan_pairwise hskip).imp fun hpq hp hq => (hpq hp hq).1
  by_contra hne
  exact hpairs.forall hp hq hne hpAsked hqAsked h

theorem held_of_mem (hp : p ∈ plan origin dest point skip)
    (hstate : p.state ≠ .orphan ∧ p.state ≠ .excluded ∧ p.state ≠ .new) :
    ∃ o d, origin.get? o.rel = some o ∧ isExpected o skip = true ∧ dest.get? o.rel = some d ∧
    p = planDataset o (some d) point := by
  obtain ⟨o, ho, hexpected, hplan⟩ := mem_plan_expected hp hstate.2.1 hstate.1
  have hplain := isArchived_of_isExpected hexpected
  cases hd : (liveDatasets dest).get? o.rel with
  | none =>
      rw [planExpected_of_absent hd] at hplan
      rw [hplan, cloneBase_state] at hstate
      exact absurd rfl hstate.2.2
  | some d =>
      exact ⟨o, d, ho, hexpected, get?_of_liveDatasets hd, hplan.trans (planExpected_of_held hd)⟩

/-- Changes are to be discarded where the newest snapshot on the drive is the common one, a partial
receive only where there is one. -/
theorem planned_modified {o : Origin} {d : Dest}
    (h : (planDataset o (some d) point).state = .modified) :
    ∃ newest, d.newest = some newest ∧ (planDataset o (some d) point).common = some newest.name ∧
      ((planDataset o (some d) point).partialReceive = true → d.token ≠ "") := by
  have hspec := planUnwritten_spec o d point
  have hunwritten : (planUnwritten o (some d) point).state ≠ .modified ∧
      (planUnwritten o (some d) point).partialReceive = false ∧
      ((planUnwritten o (some d) point).state.isIncremental = true → d.newest.isSome = true) ∧
        ((planUnwritten o (some d) point).state = .resume → d.token ≠ "") := by
    generalize planUnwritten o (some d) point = p at hspec
    cases hspec with
    | resume htoken => exact ⟨by simp, rfl, by simp [State.isIncremental], fun _ => htoken⟩
    | empty => exact ⟨by simp, rfl, by simp [State.isIncremental], by simp⟩
    | _ htoken hnewest => exact ⟨by simp, rfl, fun _ => hnewest ▸ rfl, by simp⟩
  obtain ⟨hstate, hplain, hincremental, hresume⟩ := hunwritten
  unfold planDataset at h ⊢
  dsimp only at h ⊢
  by_cases hwritten : d.written = 0
  · rw [if_pos hwritten] at h
    exact absurd h hstate
  rw [if_neg hwritten] at h ⊢
  -- In both cases left, what was written is asked about with the newest snapshot as the common one.
  have hasked : ∀ q : DatasetPlan, d.newest.isSome = true →
      (q.partialReceive = true → d.token ≠ "") →
      ∃ newest, d.newest = some newest ∧ (asModified q d).common = some newest.name ∧
      ((asModified q d).partialReceive = true → d.token ≠ "") := by
    intro q hsome hreceiving
    obtain ⟨newest, hnewest⟩ := Option.isSome_iff_exists.mp hsome
    exact ⟨newest, hnewest, by rw [asModified, hnewest, Option.map_some], hreceiving⟩
  split at h
  · rename_i hpart
    rw [if_pos hpart, if_pos (by simp [planPartial])]
    rw [Bool.and_eq_true, beq_iff_eq] at hpart
    exact hasked _ hpart.2 fun _ => hresume hpart.1
  · rename_i hpart
    rw [if_neg hpart]
    split at h
    · rename_i hcond
      rw [if_pos hcond]
      rw [hplain, Bool.or_false] at hcond
      exact hasked _ (hincremental hcond) (by simp [hplain])
    · exact absurd h hstate

end Rows

/-! ### The changes -/

/-- The turn of the rows in a state. -/
def State.turn : State → ℕ
  | .orphan => 0
  | .excluded => 1
  | .modified => 2
  | .rollback => 3
  | _ => 4

namespace Change

/-- The state of the rows a change is offered for. -/
def state : Change → State
  | keepOrphan _ | destroyOrphan _ _ | followRename _ => .orphan
  | keepHeld _ | destroyHeld _ _ => .excluded
  | discardChanges _ => .modified
  | rollback _ | branch _ => .rollback
  | archive _ | destroy _ _ => .diverged

/-- A change offered for its row, with the row's plan. -/
structure Chosen (plans : List DatasetPlan) (dest : Drive) (a : Change) : Prop where
  mem : a.row ∈ plans
  state : a.row.state = a.state
  held : a.state = .excluded → a.row.declared = true ∧ a.row.held = true
  deps : ∀ x ∈ a.destroyed, x = (a.row.rel, destroyPlan dest a.row.rel) ∧ x.2.ok = true
  follows : ∀ p, a = .followRename p → p.renameTo.isSome = true

/-- The order the changes run in. -/
structure Precedes (a b : Change) : Prop where
  turn : a.state.turn ≤ b.state.turn
  ne : a.row.rel ≠ b.row.rel
  branches : ∀ p q, a = .branch p → b = .branch q → ¬Under p.rel q.rel
  diverged : a.state = .diverged → b.state = .diverged → ¬Under a.row.rel b.row.rel ∧
    ¬Under b.row.rel a.row.rel

end Change

section Choices

variable {origin : Origins} {dest : Drive} {point : String} {skip : List Rel}
  {plans : List DatasetPlan} {a b : Change} {p : DatasetPlan}

theorem Change.Chosen.asked (h : a.Chosen plans dest) : a.row.Asked :=
  fun hstate => (h.held (h.state.symm.trans hstate)).1

theorem precedes_of_turn (hskip : skip.Nodup) (ha : a.Chosen (plan origin dest point skip) dest)
    (hb : b.Chosen (plan origin dest point skip) dest) (hturn : a.state.turn < b.state.turn) :
    a.Precedes b := by
  refine ⟨hturn.le, fun hrel => ?_, ?_, fun hadiv hbdiv => ?_⟩
  · have hrow := row_unique hskip ha.mem hb.mem ha.asked hb.asked hrel
    rw [← ha.state, ← hb.state, hrow] at hturn
    exact absurd hturn (lt_irrefl _)
  · rintro p q rfl rfl
    exact absurd hturn (lt_irrefl _)
  · rw [hadiv, hbdiv] at hturn
    exact absurd hturn (lt_irrefl _)

theorem precedes_of_state (hstate : a.state = b.state) (hne : a.row.rel ≠ b.row.rel)
    (hrollback : a.state ≠ .rollback) (hdiverged : a.state ≠ .diverged) :
    a.Precedes b := by
  refine ⟨hstate ▸ le_rfl, hne, ?_, fun h => absurd h hdiverged⟩
  rintro p q rfl -
  exact absurd rfl hrollback

theorem pairwise_rowsIn (hskip : skip.Nodup) {state : State} (hstate : state ≠ .excluded) :
    (rowsIn (plan origin dest point skip) state).Pairwise fun p q => p.rel ≠ q.rel := by
  refine List.pairwise_filter.mpr ((plan_pairwise hskip).imp fun {p q} h hp hq => (h ?_ ?_).1)
  · exact fun hexcluded => absurd ((of_decide_eq_true hp).symm.trans hexcluded) hstate
  · exact fun hexcluded => absurd ((of_decide_eq_true hq).symm.trans hexcluded) hstate

theorem pairwise_group {rows : List DatasetPlan} {f : DatasetPlan → Option Change} {state : State}
    (hrows : rows.Pairwise fun p q => p.rel ≠ q.rel)
    (hf : ∀ p ∈ rows, ∀ a, f p = some a → a.row = p ∧ a.state = state)
    (hrollback : state ≠ .rollback) (hdiverged : state ≠ .diverged) :
    (rows.filterMap f).Pairwise Change.Precedes := by
  refine List.pairwise_filterMap.mpr (hrows.imp_of_mem fun {p q} hp hq hne a ha b hb => ?_)
  obtain ⟨rfl, hastate⟩ := hf p hp a ha
  obtain ⟨rfl, hbstate⟩ := hf q hq b hb
  exact precedes_of_state (hastate.trans hbstate.symm) hne (hastate ▸ hrollback)
    (hastate ▸ hdiverged)

/-! ### Each group -/

theorem orphanChange_spec {ext4 : Bool} {answer : OrphanAnswer}
    (h : orphanChange ext4 dest answer p = some a) :
    a = .keepOrphan p ∨ a = .destroyOrphan p (destroyPlan dest p.rel) ∧
    (destroyPlan dest p.rel).ok = true ∨
      a = .followRename p ∧ p.renameTo.isSome = true := by
  unfold orphanChange at h
  split at h
  · cases h
  split at h
  · exact .inl (Option.some.inj h).symm
  cases answer with
  | later => cases h
  | keep => exact .inl (Option.some.inj h).symm
  | destroy =>
      obtain ⟨hok, hchange⟩ := Option.ite_none_right_eq_some.mp h
      exact .inr (.inl ⟨(Option.some.inj hchange).symm, hok⟩)
  | follow =>
      obtain ⟨hname, hchange⟩ := Option.ite_none_right_eq_some.mp h
      exact .inr (.inr ⟨(Option.some.inj hchange).symm, hname⟩)

theorem heldChange_spec {answer : HeldAnswer} (h : heldChange dest answer p = some a) :
    a = .keepHeld p ∨ a = .destroyHeld p (destroyPlan dest p.rel) ∧
    (destroyPlan dest p.rel).ok = true := by
  cases answer with
  | later => cases h
  | keep => exact .inl (Option.some.inj h).symm
  | destroy =>
      obtain ⟨hok, hchange⟩ := Option.ite_none_right_eq_some.mp h
      exact .inr ⟨(Option.some.inj hchange).symm, hok⟩

theorem divergedChange_spec {answer : DivergedAnswer} (h : divergedChange dest answer p = some a) :
    a = .archive p ∨ a = .destroy p (destroyPlan dest p.rel) ∧
    (destroyPlan dest p.rel).ok = true := by
  cases answer with
  | skip => cases h
  | archive => exact .inl (Option.some.inj h).symm
  | destroy =>
      obtain ⟨hok, hchange⟩ := Option.ite_none_right_eq_some.mp h
      exact .inr ⟨(Option.some.inj hchange).symm, hok⟩

theorem chosen_orphan {ext4 : Bool} {answer : OrphanAnswer} (hp : p ∈ rowsIn plans .orphan)
    (h : orphanChange ext4 dest answer p = some a) :
    (a.row = p ∧ a.state = .orphan) ∧ a.Chosen plans dest := by
  obtain ⟨hmem, hstate⟩ := List.mem_filter.mp hp
  rw [decide_eq_true_eq] at hstate
  obtain rfl | ⟨rfl, hok⟩ | ⟨rfl, hname⟩ := orphanChange_spec h
  · exact ⟨⟨rfl, rfl⟩, hmem, hstate, by simp [Change.state], by simp [Change.destroyed], by simp⟩
  · refine ⟨⟨rfl, rfl⟩, hmem, hstate, by simp [Change.state], fun x hx => ?_, by simp⟩
    obtain rfl := Option.some.inj hx
    exact ⟨rfl, hok⟩
  · refine ⟨⟨rfl, rfl⟩, hmem, hstate, by simp [Change.state], by simp [Change.destroyed],
      fun q hq => ?_⟩
    cases hq
    exact hname

theorem chosen_held {answer : HeldAnswer}
    (hp : p ∈ (rowsIn plans .excluded).filter fun p => p.declared && p.held && !p.kept)
    (h : heldChange dest answer p = some a) :
    (a.row = p ∧ a.state = .excluded) ∧ a.Chosen plans dest := by
  obtain ⟨hp, hasked⟩ := List.mem_filter.mp hp
  obtain ⟨hmem, hstate⟩ := List.mem_filter.mp hp
  rw [decide_eq_true_eq] at hstate
  rw [Bool.and_eq_true, Bool.and_eq_true] at hasked
  obtain rfl | ⟨rfl, hok⟩ := heldChange_spec h
  · exact ⟨⟨rfl, rfl⟩, hmem, hstate, fun _ => hasked.1, by simp [Change.destroyed], by simp⟩
  · refine ⟨⟨rfl, rfl⟩, hmem, hstate, fun _ => hasked.1, fun x hx => ?_, by simp⟩
    obtain rfl := Option.some.inj hx
    exact ⟨rfl, hok⟩

theorem chosen_diverged {answer : DivergedAnswer} (hp : p ∈ rowsIn plans .diverged)
    (h : divergedChange dest answer p = some a) :
    (a.row = p ∧ a.state = .diverged) ∧ a.Chosen plans dest := by
  obtain ⟨hmem, hstate⟩ := List.mem_filter.mp hp
  rw [decide_eq_true_eq] at hstate
  obtain rfl | ⟨rfl, hok⟩ := divergedChange_spec h
  · exact ⟨⟨rfl, rfl⟩, hmem, hstate, by simp [Change.state], by simp [Change.destroyed], by simp⟩
  · refine ⟨⟨rfl, rfl⟩, hmem, hstate, by simp [Change.state], fun x hx => ?_, by simp⟩
    obtain rfl := Option.some.inj hx
    exact ⟨rfl, hok⟩

/-- What is rolled back or branched, and that nothing is rolled back while a clone is in its way. -/
theorem mem_rollbackChanges {rollBack : Bool} {rows : List DatasetPlan}
    (h : a ∈ rollbackChanges dest rollBack rows) :
    ∃ p ∈ rows, a = .branch p ∨ a = .rollback p ∧ rollbackBlockers dest p.rel p.newer = [] := by
  unfold rollbackChanges at h
  split_ifs at h with hcond
  · obtain ⟨p, hp, rfl⟩ := List.mem_map.mp h
    rw [Bool.and_eq_true, List.isEmpty_iff, List.flatMap_eq_nil_iff] at hcond
    exact ⟨p, hp, .inr ⟨rfl, hcond.2 p hp⟩⟩
  · obtain ⟨p, hp, rfl⟩ := List.mem_map.mp h
    exact ⟨p, mem_inOrder.mp hp, .inl rfl⟩

theorem chosen_rollback {rollBack : Bool}
    (h : a ∈ rollbackChanges dest rollBack (rowsIn plans .rollback)) :
    a.state = .rollback ∧ a.Chosen plans dest := by
  obtain ⟨p, hp, hkind⟩ := mem_rollbackChanges h
  obtain ⟨hmem, hstate⟩ := List.mem_filter.mp hp
  rw [decide_eq_true_eq] at hstate
  obtain rfl | ⟨rfl, -⟩ := hkind
  · exact ⟨rfl, hmem, hstate, by simp [Change.state], by simp [Change.destroyed], by simp⟩
  · exact ⟨rfl, hmem, hstate, by simp [Change.state], by simp [Change.destroyed], by simp⟩

theorem pairwise_rollbackChanges (hskip : skip.Nodup) (rollBack : Bool) :
    (rollbackChanges dest rollBack (rowsIn (plan origin dest point skip) .rollback)).Pairwise
      Change.Precedes := by
  have hrows : (rowsIn (plan origin dest point skip) .rollback).Pairwise fun p q => p.rel ≠ q.rel :=
    pairwise_rowsIn hskip (by decide)
  unfold rollbackChanges
  split_ifs
  · refine List.pairwise_map.mpr (hrows.imp fun hne => ⟨le_rfl, hne, ?_, ?_⟩)
    · rintro p q hp -
      cases hp
    · rintro hdiverged -
      cases hdiverged
  · refine List.pairwise_map.mpr ?_
    have hdistinct : (inOrder (rowsIn (plan origin dest point skip) .rollback)).Pairwise fun p q =>
        p.rel ≠ q.rel :=
      (List.Perm.pairwise_iff (fun h => Ne.symm h) (List.perm_insertionSort _ _)).mpr hrows
    refine ((pairwise_inOrder _).and hdistinct).imp fun {p q} h => ⟨le_rfl, h.2, ?_, ?_⟩
    · intro p' q' hp hq hunder
      cases hp
      cases hq
      exact absurd h.1 (not_le.mpr (key_lt_of_under_of_ne hunder h.2))
    · rintro hdiverged -
      cases hdiverged

theorem mem_divergedChanges {answer : Rel → DivergedAnswer} {rows : List DatasetPlan}
    {moved : List Rel} (h : a ∈ divergedChanges dest answer moved rows) :
    ∃ p ∈ rows, divergedChange dest (answer p.rel) p = some a ∧ covered p.rel moved = false := by
  induction rows generalizing moved with
  | nil => cases h
  | cons p rest ih =>
      have hrest : ∀ {moved'}, (∀ r, covered r moved' = false → covered r moved = false) →
          a ∈ divergedChanges dest answer moved' rest →
          ∃ q ∈ p :: rest, divergedChange dest (answer q.rel) q = some a ∧
          covered q.rel moved = false := by
        intro moved' hmoved h
        obtain ⟨q, hq, hchange, hout⟩ := ih h
        exact ⟨q, List.mem_cons_of_mem _ hq, hchange, hmoved _ hout⟩
      unfold divergedChanges at h
      split_ifs at h with hcovered
      · exact hrest (fun _ h => h) h
      · split at h
        · exact hrest (fun _ h => h) h
        · rename_i change hchange
          obtain rfl | h := List.mem_cons.mp h
          · exact ⟨p, List.mem_cons_self, hchange, Bool.not_eq_true _ ▸ hcovered⟩
          · refine hrest (fun r hout => ?_) h
            rw [covered, List.any_cons, Bool.or_eq_false_iff] at hout
            exact hout.2

theorem pairwise_divergedChanges {answer : Rel → DivergedAnswer} {rows : List DatasetPlan}
    (hstate : ∀ p ∈ rows, p.state = .diverged)
    (hrows : rows.Pairwise fun p q => p.rel.key ≤ q.rel.key ∧ p.rel ≠ q.rel) (moved : List Rel) :
    (divergedChanges dest answer moved rows).Pairwise Change.Precedes := by
  induction rows generalizing moved with
  | nil => exact .nil
  | cons p rest ih =>
      obtain ⟨hhead, htail⟩ := List.pairwise_cons.mp hrows
      have hrest := fun moved => ih (fun q hq => hstate q (List.mem_cons_of_mem _ hq)) htail moved
      unfold divergedChanges
      split_ifs
      · exact hrest moved
      · split
        · exact hrest moved
        · rename_i change hchange
          refine List.pairwise_cons.mpr ⟨fun b hb => ?_, hrest _⟩
          obtain ⟨q, hq, hqchange, hout⟩ := mem_divergedChanges hb
          obtain ⟨hkey, hne⟩ := hhead q hq
          have hkinds : ∀ {r : DatasetPlan} {c : Change}, divergedChange dest (answer r.rel) r
              = some c → c.row = r ∧ c.state = .diverged ∧ ∀ s, c ≠ .branch s := by
            intro r c hc
            obtain rfl | ⟨rfl, -⟩ := divergedChange_spec hc
            · exact ⟨rfl, rfl, by simp⟩
            · exact ⟨rfl, rfl, by simp⟩
          obtain ⟨rfl, hpstate, hpbranch⟩ := hkinds hchange
          obtain ⟨rfl, hqstate, -⟩ := hkinds hqchange
          refine ⟨by rw [hpstate, hqstate], hne, fun r _ hr => absurd hr (hpbranch r), fun _ _ =>
            ⟨fun hunder => ?_, fun hunder => ?_⟩⟩
          · exact absurd hkey (not_le.mpr (key_lt_of_under_of_ne hunder hne))
          · rw [covered_iff.mpr ⟨_, List.mem_cons_self, hunder⟩] at hout
            cases hout

/-! ### All of them -/

section All

variable (ext4 : Bool) (answers : Answers)

theorem chosen_orphans :
    ∀ a ∈ (rowsIn plans .orphan).filterMap fun p => orphanChange ext4 dest (answers.orphan p.rel) p,
    a.state = .orphan ∧ a.Chosen plans dest := by
  intro a ha
  obtain ⟨p, hp, h⟩ := List.mem_filterMap.mp ha
  exact ⟨(chosen_orphan hp h).1.2, (chosen_orphan hp h).2⟩

theorem chosen_helds :
    ∀ a ∈ ((rowsIn plans .excluded).filter fun p => p.declared && p.held && !p.kept).filterMap fun p =>
    heldChange dest (answers.held p.rel) p, a.state = .excluded ∧ a.Chosen plans dest := by
  intro a ha
  obtain ⟨p, hp, h⟩ := List.mem_filterMap.mp ha
  exact ⟨(chosen_held hp h).1.2, (chosen_held hp h).2⟩

theorem chosen_modified :
    ∀ a ∈ if answers.discard then (rowsIn plans .modified).map Change.discardChanges else [],
    a.state = .modified ∧ a.Chosen plans dest := by
  intro a ha
  split_ifs at ha
  · obtain ⟨p, hp, rfl⟩ := List.mem_map.mp ha
    obtain ⟨hmem, hstate⟩ := List.mem_filter.mp hp
    exact ⟨rfl, hmem, of_decide_eq_true
      hstate, by simp [Change.state], by simp [Change.destroyed], by simp⟩
  · cases ha

theorem chosen_divergeds : ∀ a ∈ divergedChanges dest answers.diverged [] (rowsIn plans .diverged),
    a.state = .diverged ∧ a.Chosen plans dest := by
  intro a ha
  obtain ⟨p, hp, h, -⟩ := mem_divergedChanges ha
  exact ⟨(chosen_diverged hp h).1.2, (chosen_diverged hp h).2⟩

/-- Changes chosen for rows of the plan, in the order they run and before turn `n`. -/
structure ChosenUpTo (plans : List DatasetPlan) (dest : Drive) (n : ℕ) (changes : List Change) :
    Prop where
  chosen : ∀ a ∈ changes, a.Chosen plans dest
  turn : ∀ a ∈ changes, a.state.turn < n
  pairwise : changes.Pairwise Change.Precedes

theorem ChosenUpTo.append (hskip : skip.Nodup) {n : ℕ} {changes group : List Change}
    (h : ChosenUpTo (plan origin dest point skip) dest n changes) {state : State}
    (hgroup : ∀ a ∈ group, a.state = state ∧ a.Chosen (plan origin dest point skip) dest)
    (hturn : state.turn = n) (hpairwise : group.Pairwise Change.Precedes) :
    ChosenUpTo (plan origin dest point skip) dest (n + 1) (changes ++ group) := by
  have hturns : ∀ b ∈ group, b.state.turn = n := fun b hb => (hgroup b hb).1 ▸ hturn
  constructor
  case chosen =>
    exact fun a ha => (List.mem_append.mp ha).elim (h.chosen a) fun ha => (hgroup a ha).2
  case turn =>
    exact fun a ha => (List.mem_append.mp ha).elim (fun ha => Nat.lt_succ_of_lt (h.turn a ha))
      fun ha => Nat.lt_succ_of_le (hturns a ha).le
  case pairwise =>
    exact List.pairwise_append.mpr ⟨h.pairwise, hpairwise, fun a ha b hb =>
      precedes_of_turn hskip (h.chosen a ha) (hgroup b hb).2 (hturns b hb ▸ h.turn a ha)⟩

theorem chosenUpTo_chosenChanges (hskip : skip.Nodup) :
    ChosenUpTo (plan origin dest point skip) dest 5
      (chosenChanges ext4 (plan origin dest point skip) dest answers) := by
  have hrows : ∀ {state : State}, state ≠ .excluded →
      (rowsIn (plan origin dest point skip) state).Pairwise fun p q => p.rel ≠ q.rel :=
    fun hstate => pairwise_rowsIn hskip hstate
  have hexcluded : ((rowsIn (plan origin dest point skip) .excluded).filter fun p =>
      p.declared && p.held && !p.kept).Pairwise
      fun p q => p.rel ≠ q.rel := by
    refine List.pairwise_filter.mpr (List.pairwise_filter.mpr
      ((plan_pairwise hskip).imp fun {p q} h _ _ hp hq => (h ?_ ?_).1))
    · rw [Bool.and_eq_true, Bool.and_eq_true] at hp
      exact fun _ => hp.1.1
    · rw [Bool.and_eq_true, Bool.and_eq_true] at hq
      exact fun _ => hq.1.1
  have hdiverged : (rowsIn (plan origin dest point skip) .diverged).Pairwise fun p q =>
      p.rel.key ≤ q.rel.key ∧ p.rel ≠ q.rel := by
    refine List.pairwise_filter.mpr ((plan_pairwise hskip).imp fun {p q} h hp hq => ?_)
    rw [decide_eq_true_eq] at hp hq
    obtain ⟨hne, hkey⟩ :=
      h (fun hexcluded => by simp [hp] at hexcluded) fun hexcluded => by simp [hq] at hexcluded
    exact ⟨hkey hp hq, hne⟩
  have hstart : ChosenUpTo (plan origin dest point skip) dest 0 [] := ⟨by simp, by simp, .nil⟩
  have horphans := hstart.append hskip (chosen_orphans ext4 answers) rfl
    (pairwise_group (hrows (by decide)) (fun p hp a h => (chosen_orphan hp h).1)
      (by decide) (by decide))
  have hhelds := horphans.append hskip (chosen_helds answers) rfl
    (pairwise_group hexcluded (fun p hp a h => (chosen_held hp h).1) (by decide) (by decide))
  have hwritten : (rowsIn (plan origin dest point skip) .modified).Pairwise fun p q =>
      p.rel ≠ q.rel := hrows (by decide)
  have hdiscards : ((rowsIn (plan origin dest point skip) .modified).map
      Change.discardChanges).Pairwise Change.Precedes := by
    refine List.pairwise_map.mpr (hwritten.imp fun {p q} hne => ?_)
    exact precedes_of_state rfl hne (by simp [Change.state]) (by simp [Change.state])
  have hmodified := hhelds.append hskip (chosen_modified answers) rfl (by
    split_ifs
    · exact hdiscards
    · exact .nil)
  have hrollbacks :=
    hmodified.append hskip (fun a => chosen_rollback) rfl
      (pairwise_rollbackChanges hskip answers.rollBack)
  exact hrollbacks.append hskip (chosen_divergeds answers) rfl
    (pairwise_divergedChanges (fun p hp =>
      of_decide_eq_true (List.mem_filter.mp hp).2) hdiverged [])

variable {ext4 : Bool} {answers : Answers}

/-- Nothing is rolled back while a clone is in its way. -/
theorem blockers_of_rollback (ha : .rollback p ∈ chosenChanges ext4 plans dest answers) :
    rollbackBlockers dest p.rel p.newer = [] := by
  have hother : ∀ {state : State}, (Change.rollback p).state = state ∧
      (Change.rollback p).Chosen plans dest → state = .rollback := fun h => h.1.symm
  obtain ha | ha := List.mem_append.mp ha
  · obtain ha | ha := List.mem_append.mp ha
    · obtain ha | ha := List.mem_append.mp ha
      · obtain ha | ha := List.mem_append.mp ha
        · cases hother (chosen_orphans ext4 answers _ ha)
        · cases hother (chosen_helds answers _ ha)
      · cases hother (chosen_modified answers _ ha)
    · obtain ⟨q, -, hkind | ⟨hkind, hblockers⟩⟩ := mem_rollbackChanges ha
      · cases hkind
      · cases hkind
        exact hblockers
  · cases hother (chosen_divergeds answers _ ha)

end All

end Choices

end Zark
