import Zark.Proof.Restore

/-!
# Guessed mountpoints of the restore table

Where each restored dataset ends up can be read off the request, parents first, since a `noauto` set
by the pass changes no mountpoint. The pass keeps guesses apart from one another: of those with one
mountpoint the first alone keeps `canmount=on`. It never looks at what was recorded, so a guess is
alone on its mountpoint exactly when no recorded dataset is mounted there too.
-/

namespace Zark

open Hierarchy

namespace RestoreRequest

/-- The properties a restored dataset would have by itself. -/
def choice (r : RestoreRequest) (ds : Rel) (snap : Snap) : MountProps :=
  choose ds r.be r.zark r.cache (((r.zark ds).isNone && (r.cache ds).isNone && r.hasChildren ds) &&
    r.emptyRoot snap)

/-- The properties an excluded top is created with. -/
def emptyProps (r : RestoreRequest) (ds : Rel) : MountProps :=
  match r.excluded.datasets.get? ds with
  | some m => ⟨m.canmount, m.mountpoint, .excluded⟩
  | none => ⟨((r.zark ds).getD ("on", "")).1, ((r.zark ds).getD ("on", "")).2, .excluded⟩

/-- The effective mountpoint of what will exist after the restore. -/
def mountOf (r : RestoreRequest) (ds : Rel) : Option String :=
  if ds ∈ r.wanted then
    if r.excluded.covers ds = true then
      if r.topOf ds = some ds then
        some (effectiveMountpoint (r.emptyProps ds) ((r.mountOf (parent ds)).getD "") (leaf ds))
      else none
    else if r.typeOf ds = some .volume then none
    else (r.resolved ds).bind fun snap => (r.mountOf (parent ds)).map fun above =>
      effectiveMountpoint (r.choice ds snap) above (leaf ds)
  else (planStart r).effective? ds
termination_by ds.length
decreasing_by
  all_goals
    rw [List.length_dropLast]
    exact Nat.sub_lt (List.length_pos_of_ne_nil (ne_nil_of_wanted ‹_›)) Nat.one_pos

/-- A dataset that is restored from a snapshot, below what is mounted at `above`. -/
structure IsRestored (r : RestoreRequest) (ds : Rel) (snap : Snap) (above : String) : Prop where
  wanted : ds ∈ r.wanted
  kept : r.excluded.covers ds = false
  filesystem : r.typeOf ds ≠ some .volume
  resolved : r.resolved ds = some snap
  parent : r.mountOf (parent ds) = some above

end RestoreRequest

/-- The properties come from the Ubuntu layout or the structure of the snapshot. -/
def MountProps.guessed (p : MountProps) : Bool := p.source = .ubuntu || p.source = .inferred

/-- A restored dataset whose `canmount` is on by itself, at that mountpoint, by a guess or not. -/
def RestoreRequest.OnAt (r : RestoreRequest) (guessed : Bool) (ds : Rel) (target : String) : Prop :=
  ∃ snap above, r.IsRestored ds snap above ∧ (r.choice ds snap).guessed = guessed ∧
    (r.choice ds snap).canmount = "on" ∧
    effectiveMountpoint (r.choice ds snap) above (leaf ds) = target

/-- A row of the table for a restored dataset with `canmount=on`, by a guess or not. -/
def RestoreRow.On (row : RestoreRow) (guessed : Bool) : Prop :=
  row.restored = true ∧ ∃ p, row.props = some p ∧ p.guessed = guessed ∧ p.canmount = "on"

open RestoreRequest

section Request

variable {r : RestoreRequest} {ds : Rel}

theorem mountOf_of_not_wanted (h : ds ∉ r.wanted) : r.mountOf ds = (planStart r).effective? ds := by
  rw [mountOf, if_neg h]

theorem mountOf_covered (hds : ds ∈ r.wanted) (h : r.excluded.covers ds = true) :
    r.mountOf ds = if r.topOf ds = some ds then some (effectiveMountpoint (r.emptyProps ds)
      ((r.mountOf (parent ds)).getD "") (leaf ds))
      else none := by
  rw [mountOf, if_pos hds, if_pos h]

theorem RestoreRequest.IsRestored.mountOf_eq {snap : Snap} {above : String}
    (h : r.IsRestored ds snap above) :
    r.mountOf ds = some (effectiveMountpoint (r.choice ds snap) above (leaf ds)) := by
  rw [RestoreRequest.mountOf, if_pos h.wanted, if_neg (by simp [h.kept]), if_neg h.filesystem,
    h.resolved, h.parent]
  rfl

theorem mountOf_eq_none (hcreated : ds ∉ created) (hwanted : ds ∉ r.wanted) :
    r.mountOf ds = none := by
  rw [mountOf_of_not_wanted hwanted, ← Option.not_isSome_iff_eq_none, (planned_start r).effective]
  simp [hcreated]

end Request

/-! ### The pass -/

/-- What the pass has mounted of the datasets met so far. -/
structure Mounted (r : RestoreRequest) (done : List Rel) (st : Planning) : Prop where
  effective : ∀ x, st.effective? x = if x ∈ created ∨ x ∈ done then r.mountOf x else none
  rows : ∀ row ∈ st.rows, ∀ guessed, row.On guessed → r.OnAt guessed row.rel row.effective
  claimed : ∀ t, (st.claimed.lookup t).isSome = true ↔
    ∃ row ∈ st.rows, row.On true ∧ row.effective = t
  alone : st.rows.Pairwise fun a b => a.On true → b.On true → a.effective ≠ b.effective
  met : ∀ guessed, ∀ x ∈ done, ∀ t, r.OnAt guessed x t → ∃ row ∈ st.rows, row.On guessed ∧
    row.effective = t

section Pass

variable {r : RestoreRequest} {done rest : List Rel} {ds : Rel} {st st' : Planning}

theorem mounted_start (r : RestoreRequest) : Mounted r [] (planStart r) where
  effective x := by
    simp only [List.not_mem_nil, or_false]
    split
    · rename_i hcreated
      exact (mountOf_of_not_wanted fun hwanted => not_created_of_wanted hwanted hcreated).symm
    · rename_i hcreated
      rw [← Option.not_isSome_iff_eq_none, (planned_start r).effective]
      simp [hcreated]
  rows _ h := absurd h List.not_mem_nil
  claimed _ := by simp [planStart]
  alone := List.Pairwise.nil
  met _ _ h := absurd h List.not_mem_nil

/-- What lies above the next dataset is known when it is met. -/
theorem Mounted.parent_effective (h : Mounted r done st) (hsplit : r.wanted = done ++ ds :: rest) :
    st.effective? (parent ds) = r.mountOf (parent ds) := by
  rw [h.effective]
  split
  · rfl
  · rename_i hnot
    rw [not_or] at hnot
    refine (mountOf_eq_none hnot.1 fun hwanted => hnot.2 ?_).symm
    refine mem_done_of_under hsplit hwanted (under_parent ds) fun heq => ?_
    have hlen := congrArg List.length heq
    rw [List.length_dropLast] at hlen
    have := List.length_pos_of_ne_nil (ne_nil_of_wanted (show ds ∈ r.wanted by simp [hsplit]))
    omega

theorem effective_append
    (h : ∀ x, st.effective? x = if x ∈ created ∨ x ∈ done then r.mountOf x else none)
    (hst' : ∀ x, st'.effective? x = if x = ds then r.mountOf ds else st.effective? x) (x : Rel) :
    st'.effective? x = if x ∈ created ∨ x ∈ done ++ [ds] then r.mountOf x else none := by
  rw [hst', h]
  by_cases hx : x = ds
  · subst hx
    simp
  · simp [hx]

theorem Mounted.push (h : Mounted r done st) {row : RestoreRow}
    (hrows : st'.rows = st.rows ++ [row]) (hrow : row.restored = false)
    (hclaimed : st'.claimed = st.claimed) (hnot : ∀ snap above, ¬r.IsRestored ds snap above)
    (heffective : ∀ x, st'.effective? x = if x = ds then r.mountOf ds else st.effective? x) :
    Mounted r (done ++ [ds]) st' where
  effective := effective_append h.effective heffective
  rows x hx guessed hon := by
    rw [hrows, List.mem_append, List.mem_singleton] at hx
    obtain hx | rfl := hx
    · exact h.rows x hx guessed hon
    · rw [RestoreRow.On, hrow] at hon
      exact absurd hon.1 (by decide)
  claimed t := by
    rw [hclaimed, h.claimed, hrows]
    constructor
    · rintro ⟨x, hx, hon⟩
      exact ⟨x, List.mem_append_left _ hx, hon⟩
    · rintro ⟨x, hx, hon, heq⟩
      rw [List.mem_append, List.mem_singleton] at hx
      obtain hx | rfl := hx
      · exact ⟨x, hx, hon, heq⟩
      · exact absurd (hrow.symm.trans hon.1) (by decide)
  alone := by
    rw [hrows, List.pairwise_append]
    refine ⟨h.alone, List.pairwise_singleton _ _, fun a _ b hb _ hon => ?_⟩
    rw [List.mem_singleton.mp hb, RestoreRow.On, hrow] at hon
    exact absurd hon.1 (by decide)
  met guessed x hx t hon := by
    rw [List.mem_append, List.mem_singleton] at hx
    obtain hx | rfl := hx
    · obtain ⟨row', hrow', hon'⟩ := h.met guessed x hx t hon
      exact ⟨row', hrows ▸ List.mem_append_left _ hrow', hon'⟩
    · obtain ⟨snap, above, hrestored, -⟩ := hon
      exact absurd hrestored (hnot snap above)

/-- The next dataset has no row of its own; rows above it change in nothing a mountpoint depends
on. -/
theorem Mounted.count (h : Mounted r done st) {f : RestoreRow → RestoreRow}
    (hrows : st'.rows = st.rows.map f)
    (hf : ∀ row, (f row).rel = row.rel ∧ (f row).restored = row.restored ∧
      (f row).props = row.props ∧ (f row).effective = row.effective)
    (hclaimed : st'.claimed = st.claimed) (hnot : ∀ snap above, ¬r.IsRestored ds snap above)
    (heffective : ∀ x, st'.effective? x = if x = ds then r.mountOf ds else st.effective? x) :
    Mounted r (done ++ [ds]) st' := by
  have hon : ∀ row guessed, (f row).On guessed ↔ row.On guessed := fun row guessed => by
    rw [RestoreRow.On, RestoreRow.On, (hf row).2.1, (hf row).2.2.1]
  refine ⟨effective_append h.effective heffective, fun x hx guessed hx' => ?_, fun t => ?_, ?_,
    fun guessed x hx t hat => ?_⟩
  · rw [hrows] at hx
    obtain ⟨row, hrow, rfl⟩ := List.mem_map.mp hx
    rw [(hf row).1, (hf row).2.2.2]
    exact h.rows row hrow guessed ((hon row guessed).mp hx')
  · rw [hclaimed, h.claimed, hrows]
    simp only [List.mem_map, exists_exists_and_eq_and, hon, (hf _).2.2.2]
  · rw [hrows, List.pairwise_map]
    refine h.alone.imp fun {a b} hab ha hb => ?_
    rw [(hf a).2.2.2, (hf b).2.2.2]
    exact hab ((hon a true).mp ha) ((hon b true).mp hb)
  · rw [List.mem_append, List.mem_singleton] at hx
    obtain hx | rfl := hx
    · obtain ⟨row, hrow, hrow', heq⟩ := h.met guessed x hx t hat
      exact ⟨f row, hrows ▸ List.mem_map_of_mem hrow, (hon row guessed).mpr hrow',
        (hf row).2.2.2.trans heq⟩
    · obtain ⟨snap, above, hrestored, -⟩ := hat
      exact absurd hrestored (hnot snap above)

theorem mountOf_eq_none_of_not_restored (hds : ds ∈ r.wanted)
    (hcovers : r.excluded.covers ds = false) (h : ∀ snap above, ¬r.IsRestored ds snap above) :
    r.mountOf ds = none := by
  rw [mountOf, if_pos hds, if_neg (by simp [hcovers])]
  split
  · rfl
  · rename_i hkind
    cases hsome : r.resolved ds with
    | none => rfl
    | some snap =>
        cases habove : r.mountOf (parent ds) with
        | none => rfl
        | some above => exact absurd ⟨hds, hcovers, hkind, hsome, habove⟩ (h snap above)

theorem Mounted.unseen (h : Mounted r done st) (hsplit : r.wanted = done ++ ds :: rest) :
    st.effective? ds = none := by
  rw [h.effective, if_neg]
  rintro (hcreated | hdone)
  · exact not_created_of_wanted (show ds ∈ r.wanted by simp [hsplit]) hcreated
  · exact not_under_of_mem_done hsplit hdone List.prefix_rfl

/-- A guess is made `noauto` where another one has its mountpoint, and takes it else. -/
theorem rowProps_eq (r : RestoreRequest) (ds : Rel) (snap : Snap) (above : String) (st : Planning) :
    rowProps r ds snap above st =
      if (r.choice ds snap).guessed = true ∧ (r.choice ds snap).canmount = "on" then
        if (st.claimed.lookup (effectiveMountpoint (r.choice ds snap) above (leaf ds))).isSome
          = true then
          ({ r.choice ds snap with canmount := "noauto" }, st.claimed)
        else (r.choice ds snap, (effectiveMountpoint (r.choice ds snap) above (leaf ds),
          ds) :: st.claimed)
      else (r.choice ds snap, st.claimed) := by
  simp only [rowProps, MountProps.guessed, Bool.or_eq_true, decide_eq_true_eq]
  rfl

theorem effective?_cons_eq (st : Planning) (ds x : Rel) (mountpoint : String) :
    List.lookup x ((ds, mountpoint) :: st.effective) =
      if x = ds then some mountpoint else st.effective? x := by
  rw [List.lookup_cons, Planning.effective?]
  by_cases h : x = ds
  · simp [h]
  · rw [beq_eq_false_iff_ne.mpr h, if_neg h]

theorem lookup_claimed_cons (t t' : String) (claimed : List (String × Rel)) :
    (List.lookup t' ((t, ds) :: claimed)).isSome = true ↔
    t' = t ∨ (claimed.lookup t').isSome = true := by
  rw [List.lookup_cons]
  by_cases h : t' = t
  · simp [h]
  · rw [beq_eq_false_iff_ne.mpr h, or_iff_right h]

/-- The row of a restored dataset: its own properties, or `noauto` for a guess whose mountpoint
another guess has. -/
theorem Mounted.restore (h : Mounted r done st) {snap : Snap} {above : String}
    (hrestored : r.IsRestored ds snap above) {row : RestoreRow}
    (hrows : st'.rows = st.rows ++ [row]) (hrel : row.rel = ds) (hmade : row.restored = true)
    (hprops : row.props = some (rowProps r ds snap above st).1)
    (htarget : row.effective = effectiveMountpoint (r.choice ds snap) above (leaf ds))
    (hclaimed : st'.claimed = (rowProps r ds snap above st).2)
    (heffective : ∀ x, st'.effective? x = if x = ds then some row.effective else st.effective? x) :
    Mounted r (done ++ [ds]) st' := by
  rw [rowProps_eq, ← htarget] at hprops hclaimed
  have hone : ∀ p, row.props = some p → ∀ guessed, row.On guessed ↔
      p.guessed = guessed ∧ p.canmount = "on" := fun p hp guessed => by
    simp [RestoreRow.On, hmade, hp]
  have hat : ∀ guessed t, r.OnAt guessed ds t ↔
      (r.choice ds snap).guessed = guessed ∧ (r.choice ds snap).canmount = "on" ∧
      row.effective = t := by
    intro guessed t
    constructor
    · rintro ⟨snap', above', hrestored', hon⟩
      obtain rfl : snap = snap' :=
        Option.some.inj (hrestored.resolved.symm.trans hrestored'.resolved)
      obtain rfl : above = above' := Option.some.inj (hrestored.parent.symm.trans hrestored'.parent)
      rwa [htarget]
    · intro hon
      exact ⟨snap, above, hrestored, by rwa [htarget] at hon⟩
  -- What the row and the claims come to: a guess turned off, a guess that takes its mountpoint, or
  -- no guess that is on.
  obtain ⟨hrow, hclaims, hfresh, hmet⟩ :
      (∀ guessed, row.On guessed → r.OnAt guessed ds row.effective) ∧
      (∀ t, (st'.claimed.lookup t).isSome = true ↔
        (st.claimed.lookup t).isSome = true ∨ row.On true ∧ row.effective = t) ∧
      (row.On true → (st.claimed.lookup row.effective).isSome = false) ∧
      ∀ guessed, r.OnAt guessed ds row.effective → row.On guessed ∨ guessed = true ∧
      (st.claimed.lookup row.effective).isSome = true := by
    simp only [hat, and_true]
    by_cases hguess : (r.choice ds snap).guessed = true ∧ (r.choice ds snap).canmount = "on"
    · rw [if_pos hguess] at hprops hclaimed
      by_cases hclaim : (st.claimed.lookup row.effective).isSome = true
      · rw [if_pos hclaim] at hprops hclaimed
        have hoff : ∀ guessed, ¬row.On guessed := fun guessed hon => by
          have hnoauto : "noauto" = "on" := ((hone _ hprops guessed).mp hon).2
          exact absurd hnoauto (by decide)
        refine ⟨fun guessed hon => absurd hon (hoff guessed), fun t => ?_, fun hon =>
          absurd hon (hoff true), fun guessed hon => .inr ?_⟩
        · rw [hclaimed, or_iff_left fun hon => hoff true hon.1]
        · exact ⟨hon.1.symm.trans hguess.1, hclaim⟩
      · rw [if_neg hclaim] at hprops hclaimed
        refine ⟨fun guessed => (hone _ hprops guessed).mp, fun t => ?_, fun _ =>
          Bool.eq_false_iff.mpr hclaim, fun guessed hon => .inl ((hone _ hprops guessed).mpr hon)⟩
        rw [hclaimed, lookup_claimed_cons, hone _ hprops true, and_iff_right hguess, or_comm]
        exact or_congr_right eq_comm
    · rw [if_neg hguess] at hprops hclaimed
      refine ⟨fun guessed => (hone _ hprops guessed).mp, fun t => ?_, fun hon =>
        absurd ((hone _ hprops true).mp hon) hguess, fun guessed hon =>
          .inl ((hone _ hprops guessed).mpr hon)⟩
      rw [hclaimed, hone _ hprops true, or_iff_left fun hon => hguess hon.1]
  have hmem : ∀ x, x ∈ st'.rows ↔ x ∈ st.rows ∨ x = row :=
    fun x => by rw [hrows, List.mem_append, List.mem_singleton]
  refine ⟨effective_append h.effective fun x => ?_, fun x hx guessed hon => ?_, fun t => ?_, ?_,
    fun guessed x hx t hon => ?_⟩
  · rw [heffective, hrestored.mountOf_eq, htarget]
  · obtain hx | rfl := (hmem x).mp hx
    · exact h.rows x hx guessed hon
    · exact hrel ▸ hrow guessed hon
  · rw [hclaims, h.claimed]
    constructor
    · rintro (⟨x, hx, hon⟩ | hon)
      · exact ⟨x, (hmem x).mpr (.inl hx), hon⟩
      · exact ⟨row, (hmem row).mpr (.inr rfl), hon⟩
    · rintro ⟨x, hx, hon⟩
      obtain hx | rfl := (hmem x).mp hx
      · exact .inl ⟨x, hx, hon⟩
      · exact .inr hon
  · rw [hrows, List.pairwise_append]
    refine ⟨h.alone, List.pairwise_singleton _ _, fun a ha b hb hona honb heq => ?_⟩
    obtain rfl := List.mem_singleton.mp hb
    have hclaim := (h.claimed b.effective).mpr ⟨a, ha, hona, heq⟩
    exact absurd (hclaim.symm.trans (hfresh honb)) (by decide)
  · rw [List.mem_append, List.mem_singleton] at hx
    obtain hx | rfl := hx
    · obtain ⟨y, hy, hon'⟩ := h.met guessed x hx t hon
      exact ⟨y, (hmem y).mpr (.inl hy), hon'⟩
    · obtain rfl := ((hat guessed t).mp hon).2.2
      obtain hon | ⟨rfl, hclaim⟩ := hmet guessed hon
      · exact ⟨row, (hmem row).mpr (.inr rfl), hon, rfl⟩
      · obtain ⟨y, hy, hon'⟩ := (h.claimed row.effective).mp hclaim
        exact ⟨y, (hmem y).mpr (.inl hy), hon'⟩

theorem mounted_addRow (h : Mounted r done st) (hsplit : r.wanted = done ++ ds :: rest)
    (hcovers : r.excluded.covers ds = false) :
    Mounted r (done ++ [ds]) (addRow r ds st) := by
  have hds : ds ∈ r.wanted := by simp [hsplit]
  have hparent := h.parent_effective hsplit
  unfold addRow
  cases hjudge : judgeRow r ds st with
  | inl note =>
      obtain ⟨hnote, hwhy⟩ := judgeRow_inl hjudge
      rw [hparent] at hwhy
      have hnot : ∀ snap above, ¬r.IsRestored ds snap above := by
        rintro snap above ⟨-, -, hkind, hsome, habove⟩
        obtain hwhy | hwhy | hwhy := hwhy
        · exact hkind hwhy
        · rw [hwhy] at hsome
          cases hsome
        · rw [hwhy] at habove
          cases habove
      refine h.push rfl (by simp [RestoreRow.restored, hnote]) rfl hnot fun x => ?_
      rw [mountOf_eq_none_of_not_restored hds hcovers hnot]
      change st.effective? x = if x = ds then none else st.effective? x
      split
      · rename_i hx
        exact hx ▸ h.unseen hsplit
      · rfl
  | inr found =>
      obtain ⟨snap, above⟩ := found
      obtain ⟨hkind, hsome, habove⟩ := judgeRow_inr hjudge
      have hmountpoint : (rowProps r ds snap above st).1.mountpoint
          = (r.choice ds snap).mountpoint := by
        rw [rowProps_eq]
        split
        · split <;> rfl
        · rfl
      have htarget : effectiveMountpoint (rowProps r ds snap above st).1 above (leaf ds) =
          effectiveMountpoint (r.choice ds snap) above (leaf ds) := by
        rw [effectiveMountpoint, effectiveMountpoint, hmountpoint]
      refine h.restore ⟨hds, hcovers, hkind, hsome, hparent ▸ habove⟩ rfl rfl
        (by simp [RestoreRow.restored]) rfl htarget rfl fun x => ?_
      exact effective?_cons_eq st ds x _

theorem effective_emptyRow : (emptyRow r ds st).effective =
    effectiveMountpoint (r.emptyProps ds) ((st.effective? (parent ds)).getD "") (leaf ds) := by
  unfold emptyRow emptyProps
  cases r.excluded.datasets.get? ds <;> rfl

theorem mounted_addExcluded (h : Mounted r done st) (hsplit : r.wanted = done ++ ds :: rest)
    (hcovers : r.excluded.covers ds = true) :
    Mounted r (done ++ [ds]) (addExcluded r ds st) := by
  have hds : ds ∈ r.wanted := by simp [hsplit]
  have hnot : ∀ snap above, ¬r.IsRestored ds snap above := fun snap above hrestored =>
    Bool.false_ne_true (hrestored.kept.symm.trans hcovers)
  have hmount := mountOf_covered hds hcovers
  have hsame : r.topOf ds ≠ some ds → ∀ x, st.effective? x =
      if x = ds then r.mountOf ds else st.effective? x := by
    intro htop x
    rw [hmount, if_neg htop]
    split
    · rename_i hx
      exact hx ▸ h.unseen hsplit
    · rfl
  unfold addExcluded
  cases htop : covering ds r.excluded.leftOut with
  | none =>
      have htopOf : r.topOf ds ≠ some ds := by simp [topOf, htop]
      exact h.count (f := id) (by simp) (fun _ => ⟨rfl, rfl, rfl, rfl⟩) rfl hnot (hsame htopOf)
  | some top =>
      dsimp only
      split
      · rename_i heq
        subst heq
        have htopOf : r.topOf top = some top := htop
        refine h.push rfl rfl rfl hnot fun x => ?_
        rw [hmount, if_pos htopOf, ← h.parent_effective hsplit, ← effective_emptyRow]
        exact effective?_cons_eq st top x _
      · rename_i hne
        have htopOf : r.topOf ds ≠ some ds := by
          rw [topOf, htop]
          simpa using hne
        split
        · refine h.count rfl (fun row => ?_) rfl hnot (hsame htopOf)
          split <;> exact ⟨rfl, rfl, rfl, rfl⟩
        · exact h.count (f := id) (by simp) (fun _ => ⟨rfl, rfl, rfl, rfl⟩) rfl hnot (hsame htopOf)

theorem mounted_buildPlan (r : RestoreRequest) :
    Mounted r r.wanted (r.wanted.foldl (planRow r) (planStart r)) := by
  have hrun : ∀ done rest st, r.wanted = done ++ rest → Mounted r done st →
      Mounted r r.wanted (rest.foldl (planRow r) st) := by
    intro done rest
    induction rest generalizing done with
    | nil =>
        intro st hsplit h
        rw [hsplit, List.append_nil]
        exact h
    | cons ds rest ih =>
        intro st hsplit h
        refine ih (done ++ [ds]) _ (by simp [hsplit]) ?_
        unfold planRow
        split
        · rename_i hcovers
          exact mounted_addExcluded h hsplit hcovers
        · rename_i hcovers
          exact mounted_addRow h hsplit (by simpa using hcovers)
  exact hrun [] r.wanted _ rfl (mounted_start r)

end Pass

/-! ### The table -/

/-- No guessed row is mounted where another restored row is. -/
def Unstacked (rows : List RestoreRow) : Prop :=
  ∀ a ∈ rows, a.On true → ∀ b ∈ rows, b.rel ≠ a.rel → (∃ guessed, b.On guessed) →
    a.effective ≠ b.effective

/-- Guesses are stacked on nothing exactly when no recorded mount, with `canmount=on`, is where a
guess of a restored dataset puts it. -/
theorem buildPlan_unstacked_iff (r : RestoreRequest) :
    Unstacked (buildPlan r) ↔ ¬∃ g x target, r.OnAt true g target ∧ r.OnAt false x target := by
  have h := mounted_buildPlan r
  have hwanted : ∀ {guessed ds t}, r.OnAt guessed ds t → ds ∈ r.wanted :=
    fun ⟨_, _, hrestored, _⟩ => hrestored.wanted
  constructor
  · rintro hunstacked ⟨g, x, target, hg, hx⟩
    obtain ⟨a, ha, hona, hat⟩ := h.met true g (hwanted hg) target hg
    obtain ⟨b, hb, honb, hbt⟩ := h.met false x (hwanted hx) target hx
    refine hunstacked a ha hona b hb (fun hrel => ?_) ⟨false, honb⟩ (hat.trans hbt.symm)
    -- One dataset's properties are not both a guess and recorded.
    obtain ⟨snap, above, hrestored, hguess, -⟩ := h.rows a ha true hona
    obtain ⟨snap', above', hrestored', hrecorded, -⟩ := h.rows b hb false honb
    rw [hrel] at hrestored' hrecorded
    obtain rfl : snap = snap' := Option.some.inj (hrestored.resolved.symm.trans hrestored'.resolved)
    exact absurd (hguess.symm.trans hrecorded) (by decide)
  · rintro hnone a ha hona b hb hrel ⟨guessed, honb⟩ heq
    cases guessed with
    | true =>
        have : Std.Symm fun a b : RestoreRow => a.On true → b.On true → a.effective ≠ b.effective :=
          ⟨fun a b hab honb hona => (hab hona honb).symm⟩
        exact h.alone.forall ha hb (fun hab => hrel (hab ▸ rfl)) hona honb heq
    | false =>
        exact hnone ⟨a.rel, b.rel, a.effective, h.rows a ha true hona, heq ▸ h.rows b hb false honb⟩

/-- A home the layout puts on `/home`, and a dataset recorded there. -/
def stackedHomes : RestoreRequest :=
  let home : Snap :=
    { stored := ["rpool", "USERDATA", "home_a"], name := "zark_2026-03-01_00:00:00Z",
      creation := 100 }
  let data : Snap :=
    { stored := ["rpool", "data"], name := "zark_2026-03-01_00:00:00Z", creation := 100 }
  { stored := ⟨[⟨["rpool"], .filesystem⟩, ⟨["rpool", "USERDATA"], .filesystem⟩, ⟨["rpool", "USERDATA", "home_a"], .filesystem⟩,
      ⟨["rpool", "data"], .filesystem⟩], by decide⟩
    be := "ubuntu"
    point := ⟨"zark_", [home, data]⟩
    snaps := [home, data]
    zark := fun ds => if ds = ["rpool", "data"] then some ("on", "/home") else none }

/-- The home, a guess, and the recorded dataset are both mounted on `/home`. -/
theorem buildPlan_stacks : ¬Unstacked (buildPlan stackedHomes) := by
  obtain ⟨home, data, hrows⟩ : ∃ home data, buildPlan stackedHomes = [home, data] ∧
      home.restored = true ∧ data.restored = true ∧
      home.props = some ⟨"on", "/home", .ubuntu⟩ ∧ data.props = some ⟨"on", "/home", .zark⟩ ∧
      home.effective = data.effective ∧ data.rel ≠ home.rel :=
    ⟨_, _, rfl, by decide +kernel⟩
  obtain ⟨hrows, hhome, hdata, hguess, hrecorded, heq, hne⟩ := hrows
  intro h
  refine h home (by simp [hrows]) ⟨hhome, _, hguess, rfl, rfl⟩ data (by simp [hrows]) hne
    ⟨false, hdata, _, hrecorded, rfl, rfl⟩ heq

end Zark
