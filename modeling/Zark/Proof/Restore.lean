import Zark.Proof.Exclusions
import Zark.Recover

/-!
# The restore table accounts for every dataset

One pass over the wanted datasets, parents first. What it keeps is read off the request: which
datasets will exist, which have a row, and how many each excluded top counts below it. From that,
the table is whole and parent-closed exactly when every covered dataset lies under a top that is
wanted, and the parent of every such top will exist.
-/

namespace Zark

open Hierarchy

namespace RestoreRequest

/-- The nearest excluded top of the record above a dataset. -/
def topOf (r : RestoreRequest) (ds : Rel) : Option Rel := covering ds r.excluded.leftOut

/-- A dataset with a row of its own: one that is not excluded, or an excluded top. -/
def hasRow (r : RestoreRequest) (ds : Rel) : Bool := !r.excluded.covers ds || r.topOf ds == some ds

/-- The flags on the row of an excluded top. -/
def flagsFor (r : RestoreRequest) (ds : Rel) : Option Flags :=
  if r.topOf ds = some ds then (r.excluded.tops.get? ds).map MarkTop.flags else none

/-- A dataset counted in the row of an excluded top above it. -/
def countedBelow (r : RestoreRequest) (top ds : Rel) : Bool := r.topOf ds == some top && ds != top

/-- What exists after the restore: a container recover creates, an excluded top, or a filesystem
that is resolved and whose parent exists. -/
inductive Present (r : RestoreRequest) : Rel → Prop
  | created {ds : Rel} : ds ∈ Zark.created → Present r ds
  | excluded {ds : Rel} : ds ∈ r.wanted → r.topOf ds = some ds → Present r ds
  | restored {ds : Rel} : ds ∈ r.wanted → r.excluded.covers ds = false →
      r.typeOf ds ≠ some .volume →
      (r.resolved ds).isSome = true → Present r (parent ds) → Present r ds

end RestoreRequest

open RestoreRequest

section Request

variable {r : RestoreRequest}

theorem mem_wanted {ds : Rel} : ds ∈ r.wanted ↔
    (ds ∈ r.types ∨ ds ∈ r.excluded.datasets.keys) ∧ r.isWanted ds = true := by
  rw [wanted, mem_sortRels, List.mem_filter, List.mem_union_iff]

theorem nodup_wanted (r : RestoreRequest) : r.wanted.Nodup :=
  nodup_sortRels.mpr ((List.Nodup.union _ r.excluded.datasets.nodup).filter _)

theorem pairwise_wanted (r : RestoreRequest) : r.wanted.Pairwise fun a b => a.key ≤ b.key :=
  letI : Std.Total fun a b : Rel => a.key ≤ b.key := ⟨fun _ _ => le_total _ _⟩
  letI : IsTrans Rel fun a b => a.key ≤ b.key := ⟨fun _ _ _ => le_trans⟩
  List.pairwise_insertionSort _ _

theorem ne_nil_of_wanted {ds : Rel} (h : ds ∈ r.wanted) : ds ≠ [] := by
  rintro rfl
  have := (mem_wanted.mp h).2
  simp [isWanted] at this

theorem not_created_of_wanted {ds : Rel} (h : ds ∈ r.wanted) : ds ∉ created := by
  have hwanted := (mem_wanted.mp h).2
  intro hmem
  simp only [created, createdContainers, bpoolContainers, List.map_cons, List.map_nil,
    List.cons_append, List.nil_append, List.mem_cons, List.not_mem_nil, or_false] at hmem
  obtain rfl | rfl | rfl | rfl | rfl := hmem <;> simp [isWanted, createdContainers] at hwanted

theorem mem_done_of_under {done rest : List Rel} {ds x : Rel}
    (hsplit : r.wanted = done ++ ds :: rest) (hx : x ∈ r.wanted) (hunder : Under ds x)
    (hne : ds ≠ x) : x ∈ done := by
  rw [hsplit, List.mem_append, List.mem_cons] at hx
  obtain hx | rfl | hx := hx
  · exact hx
  · exact absurd rfl hne
  · have hpair := pairwise_wanted r
    rw [hsplit, List.pairwise_append, List.pairwise_cons] at hpair
    exact absurd (hpair.2.1.1 x hx) (not_le.mpr (key_lt_of_under_of_ne hunder hne))

theorem not_under_of_mem_done {done rest : List Rel} {ds x : Rel}
    (hsplit : r.wanted = done ++ ds :: rest) (hx : x ∈ done) :
    ¬Under x ds := by
  intro hunder
  have hne : x ≠ ds := by
    rintro rfl
    have hnodup := nodup_wanted r
    rw [hsplit, List.nodup_append] at hnodup
    exact hnodup.2.2 x hx x List.mem_cons_self rfl
  have hpair := pairwise_wanted r
  rw [hsplit, List.pairwise_append] at hpair
  exact absurd (hpair.2.2 x hx ds List.mem_cons_self)
    (not_le.mpr (key_lt_of_under_of_ne hunder hne))

theorem topOf_top {ds top : Rel} (h : r.topOf ds = some top) : r.topOf top = some top := by
  obtain ⟨hmem, hunder, hnearest⟩ := covering_eq_some h
  have hnear := isNearest_covering ds r.excluded.leftOut
  rw [show covering ds r.excluded.leftOut = some top from h] at hnear
  cases htop : r.topOf top with
  | none => exact absurd (covering_eq_none_iff.mp htop top hmem List.prefix_rfl) hnear.2.2.1
  | some u =>
      obtain ⟨-, hu, hlow⟩ := covering_eq_some htop
      exact congrArg some (hu.antisymm (hlow top hmem List.prefix_rfl)).symm

theorem covers_of_topOf {ds top : Rel} (h : r.topOf ds = some top) :
    r.excluded.covers ds = true := by
  rw [PointMark.covers, show covering ds r.excluded.leftOut = some top from h]
  exact Bool.or_true _

theorem present_iff_of_not_covers {ds : Rel} (hds : ds ∈ r.wanted)
    (h : r.excluded.covers ds = false) :
    r.Present ds ↔ r.typeOf ds ≠ some .volume ∧ (r.resolved ds).isSome = true ∧
    r.Present (parent ds) := by
  constructor
  · intro hp
    cases hp with
    | created hc => exact absurd hc (not_created_of_wanted hds)
    | excluded _ htop => rw [covers_of_topOf htop] at h; cases h
    | restored _ _ hkind hsome hparent => exact ⟨hkind, hsome, hparent⟩
  · rintro ⟨hkind, hsome, hparent⟩
    exact .restored hds h hkind hsome hparent

theorem wanted_of_present {ds : Rel} (h : r.Present ds) :
    ds ∈ created ∨ ds ∈ r.wanted ∧ r.hasRow ds = true := by
  cases h with
  | created hc => exact .inl hc
  | excluded hds htop => exact .inr ⟨hds, by simp [hasRow, htop]⟩
  | restored hds hcovers _ _ _ => exact .inr ⟨hds, by simp [hasRow, hcovers]⟩

end Request

/-! ### The pass -/

/-- What the pass has built from the datasets met so far. -/
structure Planned (r : RestoreRequest) (done : List Rel) (st : Planning) : Prop where
  effective : ∀ ds, (st.effective? ds).isSome = true ↔ ds ∈ created ∨ ds ∈ done ∧ r.Present ds
  rels : st.rows.map RestoreRow.rel = done.filter r.hasRow
  fates : ∀ row ∈ st.rows, (row.restored || row.empty) = true ↔ r.Present row.rel
  empties : ∀ row ∈ st.rows, row.empty = r.excluded.covers row.rel
  flags : ∀ row ∈ st.rows, row.flags = r.flagsFor row.rel
  below : ∀ row ∈ st.rows, row.below = done.countP (r.countedBelow row.rel)
  tops : ∀ t, t ∈ st.tops ↔ t ∈ done ∧ r.topOf t = some t

section Pass

variable {r : RestoreRequest} {done rest : List Rel} {ds : Rel} {st : Planning}

theorem planned_start (r : RestoreRequest) : Planned r [] (planStart r) where
  effective ds := by
    rw [Planning.effective?, List.lookup_isSome_iff]
    simp [planStart, created, createdContainers, bpoolContainers]
  rels := rfl
  fates _ h := absurd h List.not_mem_nil
  empties _ h := absurd h List.not_mem_nil
  flags _ h := absurd h List.not_mem_nil
  below _ h := absurd h List.not_mem_nil
  tops _ := by simp [planStart]

theorem effective?_cons (st : Planning) (ds x : Rel) (mountpoint : String) :
    (List.lookup x ((ds, mountpoint) :: st.effective)).isSome = true ↔
    x = ds ∨ (st.effective? x).isSome = true := by
  rw [List.lookup_cons, Planning.effective?]
  by_cases h : x = ds
  · simp [h]
  · rw [beq_eq_false_iff_ne.mpr h, or_iff_right h]

/-- Whether the parent of the next dataset will exist is known when it is met. -/
theorem Planned.parent_effective (h : Planned r done st) (hsplit : r.wanted = done ++ ds :: rest) :
    (st.effective? (parent ds)).isSome = true ↔ r.Present (parent ds) := by
  have hds : ds ∈ r.wanted := by simp [hsplit]
  rw [h.effective]
  constructor
  · rintro (hc | ⟨-, hp⟩)
    · exact .created hc
    · exact hp
  · intro hp
    refine (wanted_of_present hp).imp id fun hw =>
      ⟨mem_done_of_under hsplit hw.1 (under_parent ds) ?_, hp⟩
    intro heq
    have hlen := congrArg List.length heq
    rw [List.length_dropLast] at hlen
    have := List.length_pos_of_ne_nil (ne_nil_of_wanted hds)
    omega

theorem Planned.push (h : Planned r done st) (hsplit : r.wanted = done ++ ds :: rest)
    (hrow : r.hasRow ds = true) {st' : Planning} {row : RestoreRow}
    (hrows : st'.rows = st.rows ++ [row]) (hrel : row.rel = ds) (hbelow : row.below = 0)
    (hempty : row.empty = r.excluded.covers ds) (hflags : row.flags = r.flagsFor ds)
    (hfate : (row.restored || row.empty) = true ↔ r.Present ds)
    (heffective : ∀ x, (st'.effective? x).isSome = true ↔
      x = ds ∧ r.Present ds ∨ (st.effective? x).isSome = true)
    (htops : ∀ t, t ∈ st'.tops ↔ t = ds ∧ r.topOf ds = some ds ∨ t ∈ st.tops) :
    Planned r (done ++ [ds]) st' where
  effective x := by
    rw [heffective, h.effective, List.mem_append, List.mem_singleton]
    constructor
    · rintro (⟨rfl, hp⟩ | hc | ⟨hx, hp⟩)
      · exact .inr ⟨.inr rfl, hp⟩
      · exact .inl hc
      · exact .inr ⟨.inl hx, hp⟩
    · rintro (hc | ⟨hx | rfl, hp⟩)
      · exact .inr (.inl hc)
      · exact .inr (.inr ⟨hx, hp⟩)
      · exact .inl ⟨rfl, hp⟩
  rels := by
    rw [hrows, List.map_append, h.rels, List.filter_append, List.filter_singleton, hrow,
      List.map_singleton, hrel, cond_true]
  fates x hx := by
    rw [hrows, List.mem_append, List.mem_singleton] at hx
    obtain hx | rfl := hx
    · exact h.fates x hx
    · rw [hrel]
      exact hfate
  empties x hx := by
    rw [hrows, List.mem_append, List.mem_singleton] at hx
    obtain hx | rfl := hx
    · exact h.empties x hx
    · rw [hrel]
      exact hempty
  flags x hx := by
    rw [hrows, List.mem_append, List.mem_singleton] at hx
    obtain hx | rfl := hx
    · exact h.flags x hx
    · rw [hrel]
      exact hflags
  below x hx := by
    rw [hrows, List.mem_append, List.mem_singleton] at hx
    have hown : ∀ t, r.countedBelow t ds = false := by
      intro t
      by_contra hcount
      rw [Bool.not_eq_false, countedBelow, Bool.and_eq_true, beq_iff_eq, bne_iff_ne] at hcount
      rw [hasRow, covers_of_topOf hcount.1, hcount.1] at hrow
      have heq : t = ds := by simpa using hrow
      exact hcount.2 heq.symm
    rw [List.countP_append, List.countP_singleton, hown]
    obtain hx | rfl := hx
    · simpa using h.below x hx
    · rw [hbelow, hrel]
      have hzero : done.countP (r.countedBelow ds) = 0 := by
        rw [List.countP_eq_zero]
        intro y hy hcount
        rw [countedBelow, Bool.and_eq_true, beq_iff_eq] at hcount
        exact not_under_of_mem_done hsplit hy (covering_eq_some hcount.1).2.1
      simp [hzero]
  tops t := by
    rw [htops, h.tops, List.mem_append, List.mem_singleton]
    constructor
    · rintro (⟨rfl, ht⟩ | ⟨ht, htop⟩)
      · exact ⟨.inr rfl, ht⟩
      · exact ⟨.inl ht, htop⟩
    · rintro ⟨ht | rfl, htop⟩
      · exact .inr ⟨ht, htop⟩
      · exact .inl ⟨rfl, htop⟩

/-- A dataset without a row of its own, counted in the rows of the top above it. -/
theorem Planned.count (h : Planned r done st) (hsplit : r.wanted = done ++ ds :: rest)
    (hrow : r.hasRow ds = false) {st' : Planning} {f : RestoreRow → RestoreRow}
    (hrows : st'.rows = st.rows.map f)
    (hf : ∀ row ∈ st.rows,
      f row = { row with below := row.below + if r.countedBelow row.rel ds then 1 else 0 })
    (heffective : st'.effective = st.effective) (htops : st'.tops = st.tops) :
        Planned r (done ++ [ds]) st' where
  effective x := by
    have hds : ¬r.Present ds := by
      intro hp
      have hwanted : ds ∈ r.wanted := by simp [hsplit]
      obtain hc | ⟨-, hp⟩ := wanted_of_present hp
      · exact not_created_of_wanted hwanted hc
      · rw [hrow] at hp
        cases hp
    rw [Planning.effective?, heffective, ← Planning.effective?, h.effective, List.mem_append,
      List.mem_singleton]
    refine or_congr_right ⟨fun hx => ⟨.inl hx.1, hx.2⟩, ?_⟩
    rintro ⟨hx | rfl, hp⟩
    · exact ⟨hx, hp⟩
    · exact absurd hp hds
  rels := by
    have hkeep : (st.rows.map f).map RestoreRow.rel = st.rows.map RestoreRow.rel := by
      rw [List.map_map]
      exact List.map_congr_left fun row hmem => by rw [Function.comp_apply, hf row hmem]
    rw [hrows, hkeep, h.rels, List.filter_append, List.filter_singleton, hrow, cond_false,
      List.append_nil]
  fates x hx := by
    rw [hrows] at hx
    obtain ⟨row, hmem, rfl⟩ := List.mem_map.mp hx
    rw [hf row hmem]
    exact h.fates row hmem
  empties x hx := by
    rw [hrows] at hx
    obtain ⟨row, hmem, rfl⟩ := List.mem_map.mp hx
    rw [hf row hmem]
    exact h.empties row hmem
  flags x hx := by
    rw [hrows] at hx
    obtain ⟨row, hmem, rfl⟩ := List.mem_map.mp hx
    rw [hf row hmem]
    exact h.flags row hmem
  below x hx := by
    rw [hrows] at hx
    obtain ⟨row, hmem, rfl⟩ := List.mem_map.mp hx
    rw [hf row hmem, List.countP_append, List.countP_singleton, ← h.below row hmem]
  tops t := by
    rw [htops, h.tops, List.mem_append, List.mem_singleton]
    constructor
    · exact fun ⟨ht, htop⟩ => ⟨.inl ht, htop⟩
    · rintro ⟨ht | rfl, htop⟩
      · exact ⟨ht, htop⟩
      · simp [hasRow, htop] at hrow

theorem judgeRow_inr {snap : Snap} {above : String} (h : judgeRow r ds st = .inr (snap, above)) :
    r.typeOf ds ≠ some .volume ∧ r.resolved ds = some snap ∧
    st.effective? (parent ds) = some above := by
  unfold judgeRow at h
  split at h
  · cases h
  · rename_i hkind
    split at h
    · cases h
    · rename_i hsnap
      split at h
      · cases h
      · rename_i habove
        cases h
        exact ⟨hkind, hsnap, habove⟩

theorem append_ne_empty {a b : String} (h : a ≠ "") : a ++ b ≠ "" := by
  simp [String.append_eq_empty_iff, h]

theorem judgeRow_inl {note : String} (h : judgeRow r ds st = .inl note) :
    note ≠ "" ∧ (r.typeOf ds = some .volume ∨ r.resolved ds = none ∨
      st.effective? (parent ds) = none) := by
  unfold judgeRow at h
  split at h
  · rename_i hkind
    cases h
    exact ⟨by decide, .inl hkind⟩
  · split at h
    · rename_i hsnap
      cases h
      refine ⟨?_, .inr (.inl hsnap)⟩
      unfold absentNote
      split
      · decide
      · exact append_ne_empty (append_ne_empty (by decide))
    · split at h
      · rename_i habove
        cases h
        exact ⟨append_ne_empty (append_ne_empty (by decide)), .inr (.inr habove)⟩
      · cases h

theorem planned_addRow (h : Planned r done st) (hsplit : r.wanted = done ++ ds :: rest)
    (hcovers : r.excluded.covers ds = false) :
    Planned r (done ++ [ds]) (addRow r ds st) := by
  have hds : ds ∈ r.wanted := by simp [hsplit]
  have hrow : r.hasRow ds = true := by simp [hasRow, hcovers]
  have htop : r.topOf ds ≠ some ds := fun htop => by
    rw [covers_of_topOf htop] at hcovers
    cases hcovers
  have hpresent := present_iff_of_not_covers hds hcovers
  rw [← h.parent_effective hsplit] at hpresent
  unfold addRow
  cases hjudge : judgeRow r ds st with
  | inl note =>
      obtain ⟨hnote, hwhy⟩ := judgeRow_inl hjudge
      have habsent : ¬r.Present ds := by
        rw [hpresent]
        rintro ⟨hkind, hsome, hparent⟩
        obtain hwhy | hwhy | hwhy := hwhy
        · exact hkind hwhy
        · simp [hwhy] at hsome
        · simp [hwhy] at hparent
      refine h.push hsplit hrow rfl rfl rfl hcovers.symm (if_neg htop).symm ?_
        (fun x => ?_) fun t => ?_
      · simp [RestoreRow.restored, hnote, habsent]
      · simp [habsent, Planning.effective?]
      · simp [htop]
  | inr found =>
      obtain ⟨snap, above⟩ := found
      obtain ⟨hkind, hsome, hparent⟩ := judgeRow_inr hjudge
      have hexists : r.Present ds := hpresent.mpr ⟨hkind, by simp [hsome], by simp [hparent]⟩
      refine h.push hsplit hrow rfl rfl rfl hcovers.symm (if_neg htop).symm ?_
        (fun x => ?_) fun t => ?_
      · simp [RestoreRow.restored, hexists]
      · simp only [hexists, and_true]
        exact effective?_cons st ds x _
      · simp [htop]

theorem planned_addExcluded (h : Planned r done st) (hsplit : r.wanted = done ++ ds :: rest)
    (hcovers : r.excluded.covers ds = true) : Planned r (done ++ [ds]) (addExcluded r ds st) := by
  have hds : ds ∈ r.wanted := by simp [hsplit]
  unfold addExcluded
  cases htop : covering ds r.excluded.leftOut with
  | none =>
      have htopOf : r.topOf ds = none := htop
      refine h.count (f := id) hsplit (by simp [hasRow, hcovers, htopOf]) (by simp)
        (fun row _ => ?_) rfl rfl
      simp [countedBelow, htopOf]
  | some top =>
      have htopOf : r.topOf ds = some top := htop
      dsimp only
      split
      · rename_i heq
        subst heq
        have hexists : r.Present top := .excluded hds htopOf
        refine h.push hsplit (by simp [hasRow, htopOf]) rfl rfl rfl hcovers.symm rfl ?_
          (fun x => ?_) fun t => ?_
        · simp [emptyRow, hexists]
        · simp only [hexists, and_true]
          exact effective?_cons st top x _
        · simp [htopOf]
      · rename_i hne
        have hrow : r.hasRow ds = false := by
          rw [hasRow, hcovers, htopOf]
          simpa using hne
        have hcount : ∀ t, r.countedBelow t ds = decide (t = top) := by
          intro t
          rw [countedBelow, htopOf]
          by_cases ht : t = top
          · subst ht
            simp [Ne.symm hne]
          · simp [ht, Ne.symm ht]
        split
        · refine h.count hsplit hrow rfl (fun row _ => ?_) rfl rfl
          rw [hcount]
          by_cases hrel : row.rel = top <;> simp [hrel]
        · rename_i hnot
          refine h.count (f := id) hsplit hrow (by simp) (fun row hmem => ?_) rfl rfl
          -- A row of the top above would be the one the pass made for it.
          have hrel : row.rel ≠ top := by
            intro hrel
            have hdone : top ∈ done.filter r.hasRow := h.rels ▸ hrel ▸ List.mem_map_of_mem hmem
            exact hnot ((h.tops top).mpr ⟨(List.mem_filter.mp hdone).1, topOf_top htopOf⟩)
          simp [hcount, hrel]

theorem planned_buildPlan (r : RestoreRequest) :
    Planned r r.wanted (r.wanted.foldl (planRow r) (planStart r)) := by
  have hrun : ∀ done rest st, r.wanted = done ++ rest → Planned r done st →
      Planned r r.wanted (rest.foldl (planRow r) st) := by
    intro done rest
    induction rest generalizing done with
    | nil =>
        intro st hsplit h
        rw [hsplit, List.append_nil]
        exact h
    | cons ds rest ih =>
        intro st hsplit h
        refine ih (done ++ [ds]) _ (by simp [hsplit]) ?_
        unfold planRow
        split
        · rename_i hcovers
          exact planned_addExcluded h hsplit hcovers
        · rename_i hcovers
          exact planned_addRow h hsplit (by simpa using hcovers)
  exact hrun [] r.wanted _ rfl (planned_start r)

end Pass

/-! ### The table -/

/-- Every wanted dataset has one row or is counted below one excluded top that has a row, and the
parent of every row that is restored or created empty is a container recover creates or an earlier
such row. -/
structure WholeTable (r : RestoreRequest) (rows : List RestoreRow) : Prop where
  accounted : ∀ ds ∈ r.wanted, rows.countP (fun row => row.rel == ds) = 1 ∨
    ∃ top, r.countedBelow top ds = true ∧ rows.countP (fun row => row.rel == top) = 1 ∧
      ∀ row ∈ rows, row.rel = top → row.empty = true ∧
      row.below = r.wanted.countP (r.countedBelow top)
  closed : ∀ before row after, rows = before ++ row :: after → (row.restored || row.empty) = true →
    parent row.rel ∈ created ∨ ∃ p ∈ before, p.rel = parent row.rel ∧ (p.restored || p.empty) = true

section Table

variable {r : RestoreRequest}

theorem rels_buildPlan (r : RestoreRequest) :
    (buildPlan r).map RestoreRow.rel = r.wanted.filter r.hasRow :=
  (planned_buildPlan r).rels

theorem count_buildPlan (ds : Rel) :
    (buildPlan r).countP (fun row => row.rel == ds) =
      if ds ∈ r.wanted ∧ r.hasRow ds = true then 1 else 0 := by
  have hmap : (buildPlan r).countP (fun row => row.rel == ds)
      = ((buildPlan r).map RestoreRow.rel).count ds := by
    rw [List.count, List.countP_map]
    rfl
  rw [hmap, rels_buildPlan]
  split
  · rename_i h
    exact List.count_eq_one_of_mem ((nodup_wanted r).filter _) (List.mem_filter.mpr h)
  · rename_i h
    exact List.count_eq_zero_of_not_mem fun hmem => h (List.mem_filter.mp hmem)

/-- Every covered dataset that recover wants lies under an excluded top it wants too, and what lies
above such a top will exist. -/
def RestoreRequest.Rooted (r : RestoreRequest) : Prop :=
  (∀ ds ∈ r.wanted, r.excluded.covers ds = true → ∃ top ∈ r.wanted, r.topOf ds = some top) ∧
    ∀ top ∈ r.wanted, r.topOf top = some top → r.Present (parent top)

theorem accounted_of_rooted (hrooted : r.Rooted) {ds : Rel} (hds : ds ∈ r.wanted) :
    (buildPlan r).countP (fun row => row.rel == ds) = 1 ∨
      ∃ top, r.countedBelow top ds = true ∧ (buildPlan r).countP (fun row => row.rel == top) = 1 ∧
        ∀ row ∈ buildPlan r, row.rel = top → row.empty = true ∧
        row.below = r.wanted.countP (r.countedBelow top) := by
  by_cases hrow : r.hasRow ds = true
  · exact .inl ((count_buildPlan ds).trans (if_pos ⟨hds, hrow⟩))
  · have hcovers : r.excluded.covers ds = true := by
      by_contra hnot
      simp [hasRow, hnot] at hrow
    obtain ⟨top, htop, hof⟩ := hrooted.1 ds hds hcovers
    have hne : ds ≠ top := by
      rintro rfl
      simp [hasRow, hof] at hrow
    have htopRow : r.hasRow top = true := by simp [hasRow, topOf_top hof]
    refine .inr ⟨top, by simp [countedBelow, hof, hne],
      (count_buildPlan top).trans (if_pos ⟨htop, htopRow⟩), ?_⟩
    rintro row hmem rfl
    exact ⟨((planned_buildPlan r).empties row hmem).trans (covers_of_topOf (topOf_top hof)),
      (planned_buildPlan r).below row hmem⟩

/-- Of two rows of the table, the one above comes first. -/
theorem mem_before_of_parent {before after : List RestoreRow} {row p : RestoreRow}
    (hsplit : buildPlan r = before ++ row :: after) (hp : p ∈ buildPlan r)
    (hparent : p.rel = parent row.rel) (hrow : row.rel ∈ r.wanted) : p ∈ before := by
  have hne : row.rel ≠ parent row.rel := by
    intro heq
    have hlen := congrArg List.length heq
    rw [List.length_dropLast] at hlen
    have := List.length_pos_of_ne_nil (ne_nil_of_wanted hrow)
    omega
  have hsorted : ((buildPlan r).map RestoreRow.rel).Pairwise fun a b => a.key ≤ b.key := by
    rw [rels_buildPlan]
    exact (pairwise_wanted r).filter _
  have hlt : p.rel.key < row.rel.key := hparent ▸ key_lt_of_under_of_ne (under_parent row.rel) hne
  rw [hsplit, List.mem_append, List.mem_cons] at hp
  obtain hp | rfl | hp := hp
  · exact hp
  · exact absurd hlt (lt_irrefl _)
  · rw [hsplit, List.map_append, List.map_cons, List.pairwise_append, List.pairwise_cons] at hsorted
    exact absurd (hsorted.2.1.1 p.rel (List.mem_map_of_mem hp)) (not_le.mpr hlt)

theorem present_parent (hrooted : r.Rooted) {ds : Rel} (hds : ds ∈ r.wanted) (h : r.Present ds) :
    r.Present (parent ds) := by
  cases h with
  | created hc => exact absurd hc (not_created_of_wanted hds)
  | excluded _ htop => exact hrooted.2 ds hds htop
  | restored _ _ _ _ hparent => exact hparent

/-- The restore table accounts for every dataset and is parent-closed exactly when what the record
covers is rooted. -/
theorem buildPlan_whole_iff (r : RestoreRequest) : WholeTable r (buildPlan r) ↔ r.Rooted := by
  have hrels : ∀ {row}, row ∈ buildPlan r → row.rel ∈ r.wanted ∧ r.hasRow row.rel = true :=
    fun {row} hrow =>
      List.mem_filter.mp (rels_buildPlan r ▸ List.mem_map_of_mem hrow)
  constructor
  · intro h
    refine ⟨fun ds hds hcovers => ?_, fun top htop hof => ?_⟩
    · obtain hone | ⟨top, hcounted, hone, -⟩ := h.accounted ds hds
      · rw [count_buildPlan] at hone
        have hrow : r.hasRow ds = true := by
          by_contra hnot
          simp [hnot] at hone
        exact ⟨ds, hds, by simpa [hasRow, hcovers] using hrow⟩
      · rw [count_buildPlan] at hone
        have htop : top ∈ r.wanted := by
          by_contra hnot
          simp [hnot] at hone
        rw [countedBelow, Bool.and_eq_true, beq_iff_eq] at hcounted
        exact ⟨top, htop, hcounted.1⟩
    · have hmem : top ∈ (buildPlan r).map RestoreRow.rel := by
        rw [rels_buildPlan, List.mem_filter]
        exact ⟨htop, by simp [hasRow, hof]⟩
      obtain ⟨row, hrow, rfl⟩ := List.mem_map.mp hmem
      obtain ⟨before, after, hsplit⟩ := List.append_of_mem hrow
      have hfate := ((planned_buildPlan r).fates row hrow).mpr (.excluded htop hof)
      obtain hc | ⟨p, hp, hparent, hexists⟩ := h.closed before row after hsplit hfate
      · exact .created hc
      · have hp' : p ∈ buildPlan r := by simp [hsplit, hp]
        exact hparent ▸ ((planned_buildPlan r).fates p hp').mp hexists
  · intro hrooted
    refine ⟨fun ds hds => accounted_of_rooted hrooted hds, fun before row after hsplit hfate => ?_⟩
    have hrow : row ∈ buildPlan r := by simp [hsplit]
    have hpresent :=
      present_parent hrooted (hrels hrow).1 (((planned_buildPlan r).fates row hrow).mp hfate)
    refine (wanted_of_present hpresent).imp id fun hparent => ?_
    have hmem : parent row.rel ∈ (buildPlan r).map RestoreRow.rel := by
      rw [rels_buildPlan, List.mem_filter]
      exact hparent
    obtain ⟨p, hp, hrel⟩ := List.mem_map.mp hmem
    exact ⟨p, mem_before_of_parent hsplit hp hrel (hrels hrow).1, hrel,
      ((planned_buildPlan r).fates p hp).mpr (hrel ▸ hpresent)⟩

end Table

/-- A run cut short: the point's record names the excluded `rpool/apps/cache`, and `rpool/apps`
never reached the drive. -/
def cutShort : RestoreRequest :=
  let root : Snap :=
    { stored := ["rpool", "ROOT", "ubuntu"], name := "zark_2026-03-01_00:00:00Z", creation := 100 }
  { stored := ⟨[⟨["rpool"], .filesystem⟩, ⟨["rpool", "ROOT"], .filesystem⟩, ⟨["rpool", "ROOT", "ubuntu"], .filesystem⟩], by decide⟩
    be := "ubuntu"
    point := ⟨"zark_", [root]⟩
    snaps := [root]
    excluded :=
      { tops := ⟨[⟨["rpool", "apps", "cache"], .backups⟩], by decide⟩
        datasets := ⟨[⟨["rpool", "apps", "cache"], "on", ""⟩], by decide⟩ } }

/-- The excluded top is to be created below a dataset that is neither restored nor created. -/
theorem buildPlan_orphans_excluded : ¬WholeTable cutShort (buildPlan cutShort) := by
  intro h
  have hlast :=
    h.closed ((buildPlan cutShort).take 1) ((buildPlan cutShort).getLast (by decide)) []
      (by decide) (by decide)
  revert hlast
  decide

end Zark
