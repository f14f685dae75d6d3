import Zark.Proof.Changes

/-!
# The decisions of one backup compose

Each change is planned on the listing of the survey, and runs on what the ones before left. `Good`
is what the drive keeps of that listing while some changes are done and others to come: every
dataset no change done has touched is as the survey saw it, the children and archives of a lineage
to be branched are in the listing in memory, and the clones of a tree to be destroyed are in it or
go before it. One change keeps it, from what `Effect` says, when it is `Apart` from those to come.
-/

namespace Zark

open Hierarchy

namespace Change

/-- The datasets a change needs where the survey saw them. -/
def Reads (a : Change) (x : Rel) : Prop :=
  x ∈ a.trees ∨ x = a.row.rel ∨ a.target.isSome = true ∧ Under x a.row.rel ∨
    ∃ name ∈ a.target, x = parent name

/-- What a change is of the survey's listing. -/
structure Fit (dest : Drive) (a : Change) : Prop where
  held : a.row.rel ∈ dest.keys
  plain : isArchived a.row.rel = false
  trees : ∀ t ∈ a.trees, t ∈ dest.keys
  order : a.trees.Pairwise fun s t => ¬Under t s
  target : ∀ name ∈ a.target, name ∉ dest.keys ∧ parent name ∈ dest.keys ∧ isArchived name = false ∧
    ¬Under name a.row.rel
  offered : ∀ x ∈ a.destroyed, x.2.ok = true
  follows : ∀ p, a = .followRename p → p.renameTo.isSome = true
  discards : ∀ p, a = .discardChanges p → ∃ d newest, dest.get? p.rel = some d ∧
    d.newest = some newest ∧ p.common = some newest.name ∧
    (p.partialReceive = true → d.token ≠ "")
  rolls : a = .rollback a.row ∨ a = .branch a.row → ∃ d s, dest.get? a.row.rel = some d ∧
    s ∈ d.snaps ∧ a.row.common = some s.name ∧
    (d.snaps.after s.name).keys = a.row.newer

/-- A change that leaves what a later one needs. -/
structure Apart (dest : Drive) (a b : Change) : Prop where
  reads : ∀ x ∈ dest.keys, b.Reads x → covered x a.trees = false ∧ x ∉ a.rolled
  target : ∀ name ∈ b.target, ∀ other ∈ a.target, ¬Under name other
  children : ∀ q, b = .branch q → (∀ g ∈ a.trees, parent g ≠ q.rel) ∧
    (∀ name ∈ a.target, parent name ≠ q.rel) ∧
    ∀ rel ∈ a.aside, parent rel ≠ q.rel
  place : ∀ name ∈ a.target, ∀ t ∈ b.trees, ¬Under name t
  aside : ∀ rel ∈ a.aside, rel ∈ a.trees → ∀ t ∈ b.trees, ¬Under rel t

end Change

/-- What holds between changes, some done and some to come. -/
structure Good (dest : Drive) (done pending : List Change) (st : Branching) : Prop where
  closed : ParentClosed st.drive.keys
  grounded : Grounded st.drive
  nodup : st.known.Nodup
  copies : ∀ d ∈ dest, (∀ a ∈ done, covered d.rel a.trees = false ∧ d.rel ∉ a.rolled) →
    ∃ e, st.drive.get? d.rel = some e ∧ SameCopy d e
  kept : ∀ d ∈ dest, (∀ a ∈ done, covered d.rel a.trees = false) →
    ∃ e, st.drive.get? d.rel = some e ∧
    (e.snaps = d.snaps ∨ ∃ a ∈ done, (a = .rollback a.row ∨ a = .branch a.row) ∧ a.row.rel = d.rel ∧
      e.snaps = d.snaps.upTo (a.row.common.getD ""))
  moved : ∀ a ∈ done, ∀ name ∈ a.target, ∀ d ∈ dest, Under d.rel a.row.rel →
    ∃ e, st.drive.get? (movedRel a.row.rel name d.rel) = some e ∧ SameCopy d e
  free : ∀ a ∈ pending, ∀ name ∈ a.target, name ∉ st.drive.keys
  children : ∀ q, .branch q ∈ pending → ∀ x, parent x = q.rel → (x ∈ st.known ↔ x ∈ st.drive.keys)
  siblings : ∀ a ∈ pending, ∀ rel ∈ a.aside, ∀ x ∈ st.drive.keys, isArchived x = true →
    parent x = parent rel → x ∈ st.known
  rollbacks : ∀ q, .rollback q ∈ pending → ∀ e ∈ st.drive, ∀ source, e.cloneOf = some source →
    source.1 = q.rel → source.2 ∉ q.newer
  clones : ∀ a ∈ pending, a.destroyed.isSome = true →
    ClonesWithin (renamedTops pending) a.trees st.drive

section Changes

variable {a : Change} {x rel : Rel} {changes : List Change}

theorem eq_of_mem_rolled (h : x ∈ a.rolled) : x = a.row.rel := by
  cases a with
  | discardChanges | rollback | branch => exact List.mem_singleton.mp h
  | _ => simp [Change.rolled] at h

theorem eq_of_mem_aside (h : rel ∈ a.aside) : rel = a.row.rel := by
  cases a with
  | branch | archive => exact (Option.some.inj h).symm
  | _ => simp [Change.aside] at h

/-- A change that puts a tree under a new name moves that tree, or divides the dataset. -/
theorem trees_of_renews (h : a.renews) :
    a.trees = [a.row.rel] ∧ a.rolled = [] ∨ a.trees = [] ∧ a = .branch a.row := by
  cases a with
  | followRename | archive => exact .inl ⟨rfl, rfl⟩
  | branch => exact .inr ⟨rfl, rfl⟩
  | _ => simp [Change.renews, Change.target, Change.aside] at h

theorem mem_renamedTops : rel ∈ renamedTops changes ↔
    ∃ a ∈ changes, a.target.isSome = true ∧ a.row.rel = rel := by
  simp only [renamedTops, List.mem_filterMap, Option.map_eq_some_iff]
  refine exists_congr fun a => and_congr_right fun _ => ?_
  rw [Option.isSome_iff_exists]
  exact ⟨fun ⟨name, hname, hrel⟩ => ⟨⟨name, hname⟩, hrel⟩, fun ⟨⟨name, hname⟩, hrel⟩ =>
    ⟨name, hname, hrel⟩⟩

theorem renamedTops_cons : renamedTops (a :: changes) =
      if a.target.isSome = true then a.row.rel :: renamedTops changes else renamedTops changes := by
  unfold renamedTops
  rw [List.filterMap_cons]
  cases htarget : a.target <;> rfl

end Changes

section Step

variable {dest : Drive} {done rest : List Change} {a b : Change} {new x : Rel} {st st' : Branching}

/-- What a change to come needs is as the survey saw it. -/
theorem Good.reads (h : Good dest done rest st) (hdone : ∀ c ∈ done, c.Apart dest b)
    (hx : x ∈ dest.keys) (hreads : b.Reads x) :
    ∃ d ∈ dest, d.rel = x ∧ ∃ e, st.drive.get? x = some e ∧ SameCopy d e := by
  obtain ⟨d, hd, rfl⟩ := Keyed.mem_keys.mp hx
  obtain ⟨e, he, hsame⟩ := h.copies d hd fun c hc => (hdone c hc).reads d.rel hx hreads
  exact ⟨d, hd, rfl, e, he, hsame⟩

theorem Good.held (h : Good dest done rest st) (hdone : ∀ c ∈ done, c.Apart dest b)
    (hx : x ∈ dest.keys) (hreads : b.Reads x) :
    x ∈ st.drive.keys := by
  obtain ⟨-, -, -, e, he, -⟩ := h.reads hdone hx hreads
  exact Keyed.get?_isSome_iff.mp (Option.isSome_iff_exists.mpr ⟨e, he⟩)

theorem Good.run (h : Good dest done (a :: rest) st) (hfit : a.Fit dest)
    (hdone : ∀ c ∈ done, c.Apart dest a) (hrest : ∀ b ∈ rest, a.Apart dest b)
    (hrenames : ∀ b ∈ rest, b.row.rel ∈ dest.keys) (stamp : String) (day : ℕ → String) :
    ∃ new st', a.run stamp day st = (true, st') ∧ a.Effect new st st' := by
  have hself : a.row.rel ∈ st.drive.keys := h.held hdone hfit.held (.inr (.inl rfl))
  obtain ⟨d, hd, hdrel, e, he, hsnaps, htoken, -⟩ := h.reads hdone hfit.held (.inr (.inl rfl))
  have hget : dest.get? a.row.rel = some d := hdrel ▸ Keyed.get?_of_mem hd
  have hpresent : ∀ t ∈ a.trees, t ∈ st.drive.keys :=
    fun t ht => h.held hdone (hfit.trees t ht) (.inl ht)
  -- No tree to be renamed later meets one that is destroyed now.
  have hleaving : a.target = none → ∀ t ∈ a.trees, ∀ x, Under x t →
      covered x (renamedTops (a :: rest)) = false := by
    intro htarget t ht x hx
    rw [renamedTops_cons, htarget, Option.isSome_none, if_neg Bool.false_ne_true,
      ← Bool.not_eq_true, covered_iff]
    rintro ⟨top, htop, hunder⟩
    obtain ⟨b, hb, hsome, rfl⟩ := mem_renamedTops.mp htop
    obtain hcase | hcase := under_or_under hunder hx
    · have := ((hrest b hb).reads b.row.rel (hrenames b hb) (.inr (.inl rfl))).1
      rw [covered_iff.mpr ⟨t, ht, hcase⟩] at this
      cases this
    · have := ((hrest b hb).reads t (hfit.trees t ht) (.inr (.inr (.inl ⟨hsome, hcase⟩)))).1
      rw [covered_iff.mpr ⟨t, ht, List.prefix_rfl⟩] at this
      cases this
  cases a with
  | keepOrphan p =>
      exact ⟨[], run_mark (fun d => { d with orphan := "kept@" ++ stamp })
        (fun _ => ⟨⟨rfl, rfl, rfl⟩, rfl, rfl⟩) h.closed h.grounded h.nodup
        rfl rfl rfl rfl he []⟩
  | keepHeld p =>
      exact ⟨[], run_mark (fun d => { d with excludedKept := "kept@" ++ stamp })
        (fun _ => ⟨⟨rfl, rfl, rfl⟩, rfl, rfl⟩) h.closed h.grounded h.nodup
        rfl rfl rfl rfl he []⟩
  | destroyOrphan p deps | destroyHeld p deps | destroy p deps =>
      exact ⟨[], run_destroy (fun _ _ => rfl) rfl rfl rfl rfl h.closed h.grounded h.nodup
        (hfit.offered _ rfl) hpresent hfit.order
        (h.clones _ List.mem_cons_self rfl) (hleaving rfl) stamp day []⟩
  | followRename p =>
      obtain ⟨name, hname⟩ := Option.isSome_iff_exists.mp (hfit.follows p rfl)
      obtain ⟨habsent, hplace, -, hout⟩ := hfit.target name hname
      have hparent := h.held hdone hplace (.inr (.inr (.inr ⟨name, hname, rfl⟩)))
      have hne : name ≠ [] := by
        rintro rfl
        exact (h.closed _ hparent).1 rfl
      exact ⟨name, run_followRename stamp day h.closed h.grounded h.nodup hname
        ⟨hself, ⟨hne, h.free _ List.mem_cons_self name hname, .inr hparent⟩, hout⟩⟩
  | discardChanges p =>
      obtain ⟨d', newest, hd', hnewest, hcommon, hreceiving⟩ := hfit.discards p rfl
      obtain rfl := Option.some.inj (hd'.symm.trans hget)
      exact ⟨[], run_discardChanges stamp day h.closed h.grounded h.nodup he
        (by rw [Dest.newest, hsnaps]; exact hnewest) hcommon
        (fun hp => htoken ▸ hreceiving hp) []⟩
  | rollback p =>
      obtain ⟨d', s, hd', hs, hcommon, hnewer⟩ := hfit.rolls (.inl rfl)
      obtain rfl := Option.some.inj (hd'.symm.trans hget)
      refine ⟨[], run_rollback stamp day h.closed h.grounded h.nodup he hcommon
        (hsnaps ▸ Keyed.key_mem_keys hs) ?_ []⟩
      refine List.filterMap_eq_nil_iff.mpr fun f hf =>
        Option.bind_eq_none_iff.mpr fun source hsource => if_neg ?_
      rw [Bool.and_eq_true, decide_eq_true_eq, List.contains_eq_mem, decide_eq_true_eq,
        hsnaps, hnewer]
      exact fun hboth => h.rollbacks p List.mem_cons_self f
        (mem_sortedItems.mp hf) source hsource hboth.1 hboth.2
  | branch p =>
      obtain ⟨d', s, hd', hs, hcommon, -⟩ := hfit.rolls (.inr rfl)
      obtain rfl := Option.some.inj (hd'.symm.trans hget)
      exact run_branch stamp day h.closed h.grounded h.nodup he hfit.plain hcommon
        (hsnaps ▸ Keyed.key_mem_keys hs)
        (h.children p List.mem_cons_self) (h.siblings _ List.mem_cons_self p.rel rfl)
  | archive p =>
      exact run_archive stamp day h.closed h.grounded h.nodup hself hfit.plain
        (h.siblings _ List.mem_cons_self p.rel rfl)

/-! ### One change after another -/

/-- Nothing on the drive lies below the new name. -/
theorem Change.Effect.not_under_new (heffect : a.Effect new st st')
    (hclosed : ParentClosed st.drive.keys) (hrenews : a.renews) (hx : x ∈ st.drive.keys) :
    ¬Under x new :=
  not_under_of_not_mem hclosed hx (heffect.fresh hrenews).1 (heffect.fresh hrenews).2

theorem Change.Effect.held (heffect : a.Effect new st st') (hx : x ∈ st.drive.keys)
    (hout : covered x a.trees = false) : x ∈ st'.drive.keys := by
  obtain ⟨e, he⟩ := Option.isSome_iff_exists.mp (Keyed.get?_isSome_iff.mpr hx)
  refine Keyed.get?_isSome_iff.mp (Option.isSome_iff_exists.mpr ?_)
  by_cases hrolled : x ∈ a.rolled
  · obtain ⟨f, hf, -⟩ := heffect.rolled x e he hrolled
    exact ⟨f, hf⟩
  · obtain ⟨f, hf, -⟩ := heffect.copies x e he hout hrolled
    exact ⟨f, hf⟩

theorem Change.Effect.new_cases (heffect : a.Effect new st st') (hrenews : a.renews) :
    a.target = some new ∨ a.aside = some a.row.rel ∧ isArchived new = true ∧
    parent new = parent a.row.rel ∧ new ∈ st'.known := by
  obtain htarget | haside := hrenews
  · obtain ⟨name, hname⟩ := Option.isSome_iff_exists.mp htarget
    exact .inl (hname.trans (congrArg some (heffect.named name hname)))
  · obtain ⟨rel, hrel⟩ := Option.isSome_iff_exists.mp haside
    exact .inr ⟨hrel.trans (congrArg some (eq_of_mem_aside hrel)), heffect.archived haside⟩

/-- Where a name came from that is at or below another one on the drive: it was there before, unless
the change set its lineage aside. -/
theorem Change.Effect.placed_under (heffect : a.Effect new st st')
    (hclosed : ParentClosed st.drive.keys) {was now t : Rel} (ht : t ∈ st.drive.keys)
    (hplace : ∀ name ∈ a.target, ¬Under name t)
    (haside : ∀ rel ∈ a.aside, rel ∈ a.trees → ¬Under rel t) (hplaced : a.Placed new was now)
    (hunder : Under now t) :
    Under was t ∧ covered was a.trees = false ∧
    (now = was ∨ a = .branch a.row ∧ was = a.row.rel ∧ now = new) := by
  -- The new name is below `t` only when it stands beside a lineage that is.
  have hbeside : a.renews → Under new t → a.aside = some a.row.rel ∧ Under a.row.rel t := by
    intro hrenews hnew
    obtain htarget | ⟨hself, -, hparent, -⟩ := heffect.new_cases hrenews
    · exact absurd hnew (hplace new htarget)
    · have hne : new ≠ t := fun heq => (heffect.fresh hrenews).1 (heq ▸ ht)
      exact ⟨hself, (under_parent a.row.rel).trans (hparent ▸ hnew.parent_of_ne hne)⟩
  unfold Change.Placed at hplaced
  split at hplaced
  · rename_i hcovered
    obtain ⟨hrenews, rfl⟩ := hplaced
    obtain ⟨htrees, -⟩ | ⟨htrees, -⟩ := trees_of_renews hrenews
    · rw [htrees, covered_iff] at hcovered
      obtain ⟨_, hmem, tail, rfl⟩ := hcovered
      obtain rfl := List.mem_singleton.mp hmem
      rw [movedRel_append] at hunder
      obtain hnew | hnew := under_or_under (List.prefix_append new tail) hunder
      · obtain ⟨hself, habove⟩ := hbeside hrenews hnew
        exact absurd habove (haside a.row.rel hself (htrees ▸ List.mem_singleton_self _))
      · exact absurd hnew (heffect.not_under_new hclosed hrenews ht)
    · simp [htrees, covered] at hcovered
  · rename_i hcovered
    have hout : covered was a.trees = false := Bool.not_eq_true _ ▸ hcovered
    obtain rfl | ⟨hmem, hrenews, rfl⟩ := hplaced
    · exact ⟨hunder, hout, .inl rfl⟩
    · obtain ⟨-, hnone⟩ | ⟨-, hbranch⟩ := trees_of_renews hrenews
      · rw [hnone] at hmem
        cases hmem
      · obtain rfl := eq_of_mem_rolled hmem
        exact ⟨(hbeside hrenews hunder).2, hout, .inr ⟨hbranch, rfl, rfl⟩⟩

theorem copies_step (h : Good dest done (a :: rest) st) (heffect : a.Effect new st st') {d : Dest}
    (hd : d ∈ dest) (hout : ∀ c ∈ done ++ [a], covered d.rel c.trees = false ∧ d.rel ∉ c.rolled) :
    ∃ e, st'.drive.get? d.rel = some e ∧ SameCopy d e := by
  obtain ⟨e, he, hsame⟩ := h.copies d hd fun c hc => hout c (List.mem_append_left _ hc)
  obtain ⟨hcovered, hrolled⟩ := hout a (List.mem_append_right _ (List.mem_singleton_self a))
  obtain ⟨f, hf, hsame'⟩ := heffect.copies d.rel e he hcovered hrolled
  exact ⟨f, hf, hsame.trans hsame'⟩

theorem kept_step (h : Good dest done (a :: rest) st) (heffect : a.Effect new st st')
    (hdone : ∀ c ∈ done, c.Apart dest a) (hfit : a.Fit dest) {d : Dest} (hd : d ∈ dest)
    (hout : ∀ c ∈ done ++ [a], covered d.rel c.trees = false) :
    ∃ e, st'.drive.get? d.rel = some e ∧
    (e.snaps = d.snaps ∨ ∃ c ∈ done ++ [a], (c = .rollback c.row ∨ c = .branch c.row) ∧
      c.row.rel = d.rel ∧
      e.snaps = d.snaps.upTo (c.row.common.getD "")) := by
  by_cases hrolled : d.rel ∈ a.rolled
  · -- No change before this one took anything from the dataset.
    have hrel := eq_of_mem_rolled hrolled
    obtain ⟨d', hd', hdrel, e, he, hsnaps, -⟩ := h.reads hdone hfit.held (.inr (.inl rfl))
    obtain rfl : d' = d := Keyed.eq_of_key hd' hd (hdrel.trans hrel.symm)
    obtain ⟨f, hf, hsame | ⟨hkind, hcut⟩⟩ := heffect.rolled d'.rel e (hrel ▸ he) hrolled
    · exact ⟨f, hf, .inl (hsame.trans hsnaps)⟩
    · exact ⟨f, hf, .inr ⟨a, List.mem_append_right _ (List.mem_singleton_self a), hkind, hrel.symm,
        hsnaps ▸ hcut⟩⟩
  · obtain ⟨e, he, hsnaps⟩ := h.kept d hd fun c hc => hout c (List.mem_append_left _ hc)
    obtain ⟨f, hf, hsame⟩ :=
      heffect.copies d.rel e he (hout a
        (List.mem_append_right _ (List.mem_singleton_self a))) hrolled
    refine ⟨f, hf, ?_⟩
    rw [hsame.1]
    exact hsnaps.imp_right fun ⟨c, hc, hrest⟩ => ⟨c, List.mem_append_left _ hc, hrest⟩

/-- A name given to an orphan lies below none of the survey's names, and nothing of the survey lies
below it. -/
theorem not_under_target (hclosed : ParentClosed dest.keys) (hfit : b.Fit dest) {name : Rel}
    (hname : name ∈ b.target) (hx : x ∈ dest.keys) :
    ¬Under x name := by
  obtain ⟨habsent, hplace, -⟩ := hfit.target name hname
  refine not_under_of_not_mem hclosed hx habsent ?_
  rintro rfl
  exact (hclosed _ hplace).1 rfl

theorem moved_step (hclosed : ParentClosed dest.keys) (h : Good dest done (a :: rest) st)
    (heffect : a.Effect new st st') (hdone : ∀ c ∈ done, c.Apart dest a) (hfit : a.Fit dest)
    (hfits : ∀ c ∈ done, c.Fit dest) {c : Change} (hc : c ∈ done ++ [a]) {name : Rel}
    (hname : name ∈ c.target) {d : Dest} (hd : d ∈ dest) (hunder : Under d.rel c.row.rel) :
    ∃ e, st'.drive.get? (movedRel c.row.rel name d.rel) = some e ∧ SameCopy d e := by
  obtain hc | hc := List.mem_append.mp hc
  · obtain ⟨e, he, hsame⟩ := h.moved c hc name hname d hd hunder
    obtain ⟨tail, htail⟩ := hunder
    rw [← htail, movedRel_append] at he ⊢
    have hout : covered (name ++ tail) a.trees = false := by
      rw [← Bool.not_eq_true, covered_iff]
      rintro ⟨g, hg, hbelow⟩
      obtain habove | habove := under_or_under (List.prefix_append name tail) hbelow
      · exact (hdone c hc).place name hname g hg habove
      · exact not_under_target hclosed (hfits c hc) hname (hfit.trees g hg) habove
    have hrolled : name ++ tail ∉ a.rolled := fun hmem =>
      not_under_target hclosed (hfits c hc) hname hfit.held
        (eq_of_mem_rolled hmem ▸ List.prefix_append name tail)
    obtain ⟨f, hf, hsame'⟩ := heffect.copies _ e he hout hrolled
    exact ⟨f, hf, hsame.trans hsame'⟩
  · obtain rfl := List.mem_singleton.mp hc
    obtain ⟨d', hd', hdrel, e, he, hsame⟩ :=
      h.reads hdone (Keyed.key_mem_keys hd)
        (.inr (.inr (.inl ⟨Option.isSome_iff_exists.mpr ⟨name, hname⟩, hunder⟩)))
    obtain rfl := Keyed.eq_of_key hd' hd hdrel
    obtain ⟨f, hf, hsame'⟩ :=
      heffect.moved (Option.isSome_iff_exists.mpr ⟨name, hname⟩) d'.rel e he hunder
    rw [heffect.named name hname]
    exact ⟨f, hf, hsame.trans hsame'⟩

theorem free_step (h : Good dest done (a :: rest) st) (heffect : a.Effect new st st')
    (hrest : ∀ b ∈ rest, a.Apart dest b) (hfits : ∀ b ∈ rest, b.Fit dest) (hb : b ∈ rest)
    {name : Rel} (hname : name ∈ b.target) : name ∉ st'.drive.keys := by
  intro hmem
  obtain ⟨hheld, -⟩ | ⟨hrenews, hunder⟩ := heffect.keys name hmem
  · exact h.free b (List.mem_cons_of_mem _ hb) name hname hheld
  · obtain htarget | ⟨-, harchived, -⟩ := heffect.new_cases hrenews
    · exact (hrest b hb).target name hname new htarget hunder
    · have hplain := ((hfits b hb).target name hname).2.2.1
      rw [isArchived_of_under hunder harchived] at hplain
      cases hplain

theorem children_step (h : Good dest done (a :: rest) st) (heffect : a.Effect new st st')
    (hdone : ∀ c ∈ done, ∀ b ∈ rest, c.Apart dest b) (hrest : ∀ b ∈ rest, a.Apart dest b)
    (hfits : ∀ b ∈ rest, b.Fit dest) {q : DatasetPlan} (hq : .branch q ∈ rest)
    (hx : parent x = q.rel) :
    x ∈ st'.known ↔ x ∈ st'.drive.keys := by
  obtain ⟨hgone, hnames, haside⟩ := (hrest _ hq).children q rfl
  have hheld : q.rel ∈ st.drive.keys :=
    h.held (fun c hc => hdone c hc _ hq) (hfits _ hq).held (.inr (.inl rfl))
  have hreads := ((hrest _ hq).reads q.rel (hfits _ hq).held (.inr (.inl rfl))).1
  have hknown := h.children q (List.mem_cons_of_mem _ hq) x hx
  have hnew : a.renews → ¬Under x new := by
    intro hrenews hunder
    by_cases hself : x = new
    · subst hself
      obtain htarget | ⟨hrel, -, hparent, -⟩ := heffect.new_cases hrenews
      · exact hnames x htarget hx
      · exact haside _ hrel (hparent ▸ hx)
    · exact heffect.not_under_new h.closed hrenews hheld (hx ▸ hunder.parent_of_ne hself)
  have hout : covered x a.trees = false := by
    rw [← Bool.not_eq_true, covered_iff]
    rintro ⟨g, hg, hunder⟩
    by_cases hself : x = g
    · exact hgone g hg (hself ▸ hx)
    · rw [covered_iff.mpr ⟨g, hg, hx ▸ hunder.parent_of_ne hself⟩] at hreads
      cases hreads
  constructor
  · intro hmem
    obtain hmem | ⟨hself, rfl⟩ := heffect.known x hmem
    · exact heffect.held (hknown.mp hmem) hout
    · exact absurd List.prefix_rfl (hnew (.inr hself))
  · intro hmem
    obtain ⟨hmem, -⟩ | ⟨hrenews, hunder⟩ := heffect.keys x hmem
    · exact (heffect.listed x (hknown.mpr hmem)).resolve_right fun hself => haside x hself hx
    · exact absurd hunder (hnew hrenews)

theorem siblings_step (h : Good dest done (a :: rest) st) (heffect : a.Effect new st st')
    (hfit : a.Fit dest) (hdone : ∀ c ∈ done, ∀ b ∈ rest, c.Apart dest b)
    (hfits : ∀ b ∈ rest, b.Fit dest) (hb : b ∈ rest) {rel : Rel} (hrel : rel ∈ b.aside)
    (hx : x ∈ st'.drive.keys) (harchived : isArchived x = true) (hparent : parent x = parent rel) :
    x ∈ st'.known := by
  obtain ⟨hmem, -⟩ | ⟨hrenews, hunder⟩ := heffect.keys x hx
  · refine (heffect.listed x (h.siblings b (List.mem_cons_of_mem _ hb) rel hrel x hmem harchived
      hparent)).resolve_right fun hself => ?_
    have hplain := hfit.plain
    rw [← eq_of_mem_aside hself, harchived] at hplain
    cases hplain
  · by_cases hself : x = new
    · subst hself
      obtain htarget | ⟨-, -, -, hmem⟩ := heffect.new_cases hrenews
      · have hplain := (hfit.target x htarget).2.2.1
        rw [harchived] at hplain
        cases hplain
      · exact hmem
    · have hheld : rel ∈ st.drive.keys := by
        rw [eq_of_mem_aside hrel]
        exact h.held (fun c hc => hdone c hc b hb) (hfits b hb).held (.inr (.inl rfl))
      exact absurd ((under_parent rel).trans (hparent ▸ hunder.parent_of_ne hself))
        (heffect.not_under_new h.closed hrenews hheld)

theorem rollbacks_step (h : Good dest done (a :: rest) st) (heffect : a.Effect new st st')
    (hdone : ∀ c ∈ done, ∀ b ∈ rest, c.Apart dest b) (hrest : ∀ b ∈ rest, a.Apart dest b)
    (hfits : ∀ b ∈ rest, b.Fit dest) {q : DatasetPlan} (hq : .rollback q ∈ rest) {f : Dest}
    (hf : f ∈ st'.drive) {source : SnapName} (hsource : f.cloneOf = some source)
    (hrel : source.1 = q.rel) : source.2 ∉ q.newer := by
  have hheld : q.rel ∈ st.drive.keys :=
    h.held (fun c hc => hdone c hc _ hq) (hfits _ hq).held (.inr (.inl rfl))
  have hrolled := ((hrest _ hq).reads q.rel (hfits _ hq).held (.inr (.inl rfl))).2
  obtain ⟨e, he, was, hwas, hname, -, hplaced⟩ | ⟨hbranch, -, hself⟩ :=
    heffect.clones f hf source hsource
  · unfold Change.Placed at hplaced
    split at hplaced
    · rename_i hcovered
      obtain ⟨hrenews, hmoved⟩ := hplaced
      obtain ⟨htrees, -⟩ | ⟨htrees, -⟩ := trees_of_renews hrenews
      · rw [htrees, covered_iff] at hcovered
        obtain ⟨_, hmem, tail, htail⟩ := hcovered
        obtain rfl := List.mem_singleton.mp hmem
        rw [← htail, movedRel_append, hrel] at hmoved
        exact absurd (hmoved ▸ List.prefix_append _ _)
          (heffect.not_under_new h.closed hrenews hheld)
      · simp [htrees, covered] at hcovered
    · obtain hsame | ⟨-, hrenews, hnew⟩ := hplaced
      · exact hname ▸ h.rollbacks q (List.mem_cons_of_mem _ hq) e he was hwas
          (hsame.symm.trans hrel)
      · exact absurd (hnew.symm.trans hrel ▸ hheld) (heffect.fresh hrenews).1
  · refine absurd ?_ hrolled
    rw [← hrel, hself, hbranch]
    exact List.mem_singleton_self _

theorem covered_new (heffect : a.Effect new st st') (hbranch : a = .branch a.row)
    (hfit : a.Fit dest) (hrest : ∀ b ∈ rest, a.Apart dest b) (hfits : ∀ b ∈ rest, b.Fit dest) :
    covered new (renamedTops rest) = false := by
  rw [← Bool.not_eq_true, covered_iff]
  rintro ⟨top, htop, hunder⟩
  obtain ⟨c, hc, hsome, rfl⟩ := mem_renamedTops.mp htop
  have haside : a.aside = some a.row.rel := by
    rw [hbranch]
    rfl
  obtain ⟨harchived, hparent, -⟩ := heffect.archived (haside ▸ rfl)
  have hne : new ≠ c.row.rel := by
    rintro rfl
    rw [(hfits c hc).plain] at harchived
    cases harchived
  have hbelow : Under a.row.rel c.row.rel :=
    (under_parent _).trans (hparent ▸ hunder.parent_of_ne hne)
  refine ((hrest c hc).reads a.row.rel hfit.held (.inr (.inr (.inl ⟨hsome, hbelow⟩)))).2 ?_
  rw [hbranch]
  exact List.mem_singleton_self _

theorem clones_step (h : Good dest done (a :: rest) st) (heffect : a.Effect new st st')
    (hfit : a.Fit dest) (hdone : ∀ c ∈ done, ∀ b ∈ rest, c.Apart dest b)
    (hrest : ∀ b ∈ rest, a.Apart dest b) (hfits : ∀ b ∈ rest, b.Fit dest) (hb : b ∈ rest)
    (hdestroyed : b.destroyed.isSome = true) :
    ClonesWithin (renamedTops rest) b.trees st'.drive := by
  intro before t after hsplit f hf source hsource hunder
  have hmem : ∀ s ∈ before ++ [t], s ∈ b.trees := fun s hs => by
    rw [hsplit, ← List.singleton_append, ← List.append_assoc]
    exact List.mem_append_left _ hs
  have hreads : ∀ s ∈ before ++ [t], covered s a.trees = false ∧ s ∉ a.rolled := fun s hs =>
    (hrest b hb).reads s ((hfits b hb).trees s (hmem s hs)) (.inl (hmem s hs))
  have ht : t ∈ before ++ [t] := List.mem_append_right _ (List.mem_singleton_self t)
  have htheld : t ∈ st.drive.keys :=
    h.held (fun c hc => hdone c hc b hb) ((hfits b hb).trees t (hmem t ht)) (.inl (hmem t ht))
  -- The archive of a branch stands beside its dataset, in the trees that hold that one.
  have hbeside : a = .branch a.row → covered a.row.rel (before ++ [t]) = true →
      covered new (before ++ [t]) = true ∧ covered new (renamedTops rest) = false := by
    intro hbranch hcovered
    refine ⟨?_, covered_new heffect hbranch hfit hrest hfits⟩
    obtain ⟨s, hs, hbelow⟩ := covered_iff.mp hcovered
    have haside : a.aside.isSome = true ∧ a.row.rel ∈ a.rolled := by
      rw [hbranch]
      exact ⟨rfl, List.mem_singleton_self _⟩
    have hne : a.row.rel ≠ s := fun heq => (hreads s hs).2 (heq ▸ haside.2)
    exact covered_iff.mpr ⟨s, hs, (under_parent new).trans
      ((heffect.archived haside.1).2.1 ▸ hbelow.parent_of_ne hne)⟩
  have hfewer : ∀ x, covered x (renamedTops (a :: rest)) = false →
      covered x (renamedTops rest) = false := by
    intro x hx
    rw [← Bool.not_eq_true, covered_iff] at hx ⊢
    rintro ⟨top, htop, hbelow⟩
    obtain ⟨c, hc, hrenamed⟩ := mem_renamedTops.mp htop
    exact hx ⟨top, mem_renamedTops.mpr ⟨c, List.mem_cons_of_mem _ hc, hrenamed⟩, hbelow⟩
  obtain ⟨e, he, was, hwas, -, hplaced, hmoved⟩ | ⟨hbranch, hself, hrow⟩ :=
    heffect.clones f hf source hsource
  · obtain ⟨hwasUnder, hout, hnow⟩ :=
      heffect.placed_under h.closed htheld (fun name hname =>
        (hrest b hb).place name hname t (hmem t ht))
        (fun rel hrel hin => (hrest b hb).aside rel hrel hin t (hmem t ht)) hmoved hunder
    obtain hleaving | ⟨hcovered, hstays⟩ :=
      h.clones b (List.mem_cons_of_mem _ hb) hdestroyed before t after hsplit e he was
        hwas hwasUnder
    · -- What the source is in leaves with a rename still to come.
      obtain ⟨top, htop, hbelow⟩ := covered_iff.mp hleaving
      obtain ⟨c, hc, hsome, rfl⟩ := mem_renamedTops.mp htop
      obtain rfl | hc := List.mem_cons.mp hc
      · have htrees : c.trees = [c.row.rel] := by
          obtain ⟨htrees, -⟩ | ⟨-, hbranch⟩ := trees_of_renews (.inl hsome)
          · exact htrees
          · rw [hbranch] at hsome
            cases hsome
        rw [htrees, covered_iff.mpr ⟨_, List.mem_singleton_self _, hbelow⟩] at hout
        cases hout
      · left
        obtain hsame | ⟨hbranch, hwasRow, -⟩ := hnow
        · exact covered_iff.mpr ⟨c.row.rel, mem_renamedTops.mpr ⟨c, hc, hsome, rfl⟩, hsame ▸ hbelow⟩
        · refine absurd ?_ ((hrest c hc).reads a.row.rel hfit.held
            (.inr (.inr (.inl ⟨hsome, hwasRow ▸ hbelow⟩)))).2
          rw [hbranch]
          exact List.mem_singleton_self _
    · right
      unfold Change.Placed at hplaced
      split at hplaced
      · rename_i hin
        obtain ⟨hrenews, -⟩ := hplaced
        obtain ⟨htrees, -⟩ | ⟨htrees, -⟩ := trees_of_renews hrenews
        · -- The clone's tree moves: a rename to come took it out of the account, an archive
          -- does not meet the tree.
          rw [htrees, covered_iff] at hin
          obtain ⟨_, hrow, hbelow⟩ := hin
          obtain rfl := List.mem_singleton.mp hrow
          obtain hsome | haside := hrenews
          · rw [renamedTops_cons, if_pos hsome,
              covered_iff.mpr ⟨a.row.rel, List.mem_cons_self, hbelow⟩] at hstays
            cases hstays
          · obtain ⟨s, hs, hes⟩ := covered_iff.mp hcovered
            obtain ⟨rel, hrel⟩ := Option.isSome_iff_exists.mp haside
            obtain rfl := eq_of_mem_aside hrel
            obtain habove | habove := under_or_under hes hbelow
            · have := (hreads s hs).1
              rw [htrees, covered_iff.mpr ⟨_, List.mem_singleton_self _, habove⟩] at this
              cases this
            · exact absurd habove ((hrest b hb).aside _ hrel
                (htrees ▸ List.mem_singleton_self _) s (hmem s hs))
        · simp [htrees, covered] at hin
      · obtain hsame | ⟨hrolled, hrenews, hnew⟩ := hplaced
        · exact hsame ▸ ⟨hcovered, hfewer _ hstays⟩
        · obtain ⟨-, hnone⟩ | ⟨-, hbranch⟩ := trees_of_renews hrenews
          · rw [hnone] at hrolled
            cases hrolled
          · exact hnew ▸ hbeside hbranch (eq_of_mem_rolled hrolled ▸ hcovered)
  · right
    exact hself ▸ hbeside hbranch (covered_iff.mpr ⟨t, ht, hrow ▸ hunder⟩)

theorem good_step (hclosed : ParentClosed dest.keys) (h : Good dest done (a :: rest) st)
    (heffect : a.Effect new st st') (hfits : ∀ c ∈ done ++ a :: rest, c.Fit dest)
    (hdone : ∀ c ∈ done, ∀ b ∈ a :: rest, c.Apart dest b) (hrest : ∀ b ∈ rest, a.Apart dest b) :
    Good dest (done ++ [a]) rest st' := by
  have hfit : a.Fit dest := hfits a (List.mem_append_right _ List.mem_cons_self)
  have hfitsDone : ∀ c ∈ done, c.Fit dest := fun c hc => hfits c (List.mem_append_left _ hc)
  have hfitsRest : ∀ b ∈ rest, b.Fit dest :=
    fun b hb => hfits b (List.mem_append_right _ (List.mem_cons_of_mem _ hb))
  have hhead : ∀ c ∈ done, c.Apart dest a := fun c hc => hdone c hc a List.mem_cons_self
  have hlater : ∀ c ∈ done, ∀ b ∈ rest, c.Apart dest b :=
    fun c hc b hb => hdone c hc b (List.mem_cons_of_mem _ hb)
  constructor
  case closed => exact heffect.closed
  case grounded => exact heffect.grounded
  case nodup => exact heffect.nodup
  case copies => exact fun d hd hout => copies_step h heffect hd hout
  case kept => exact fun d hd hout => kept_step h heffect hhead hfit hd hout
  case moved =>
    exact fun c hc name hname d hd hunder =>
      moved_step hclosed h heffect hhead hfit hfitsDone hc hname hd hunder
  case free => exact fun b hb name hname => free_step h heffect hrest hfitsRest hb hname
  case children => exact fun q hq x hx => children_step h heffect hlater hrest hfitsRest hq hx
  case siblings =>
    exact fun b hb rel hrel x hx harchived hparent =>
      siblings_step h heffect hfit hlater hfitsRest hb hrel hx harchived hparent
  case rollbacks =>
    exact fun q hq f hf source hsource hrel =>
      rollbacks_step h heffect hlater hrest hfitsRest hq hf hsource hrel
  case clones =>
    exact fun b hb hdestroyed => clones_step h heffect hfit hlater hrest hfitsRest hb hdestroyed

/-- Changes each of which leaves what the later ones need all succeed. -/
theorem applyChanges_good (stamp : String) (day : ℕ → String) (hclosed : ParentClosed dest.keys)
    (hfits : ∀ c ∈ done ++ rest, c.Fit dest) (hapart : (done ++ rest).Pairwise (Change.Apart dest))
    (h : Good dest done rest st) :
    (applyChanges stamp day rest st).1 = true ∧ Good dest (done ++ rest) []
    (applyChanges stamp day rest st).2 := by
  induction rest generalizing done st with
  | nil => exact ⟨rfl, (List.append_nil done).symm ▸ h⟩
  | cons a rest ih =>
      obtain ⟨-, hpending, hdone⟩ := List.pairwise_append.mp hapart
      obtain ⟨hrest, -⟩ := List.pairwise_cons.mp hpending
      obtain ⟨new, st', hrun, heffect⟩ :=
        h.run (hfits a (List.mem_append_right _ List.mem_cons_self))
          (fun c hc => hdone c hc a List.mem_cons_self)
          hrest (fun b hb => (hfits b (List.mem_append_right _ (List.mem_cons_of_mem _ hb))).held)
            stamp day
      have hstep := good_step hclosed h heffect hfits hdone hrest
      have hlist : done ++ a :: rest = done ++ [a] ++ rest := by
        rw [List.append_assoc, List.singleton_append]
      rw [hlist] at hfits hapart ⊢
      obtain ⟨hok, hgood⟩ := ih hfits hapart hstep
      rw [applyChanges, hrun]
      exact ⟨(Bool.true_and _).trans hok, hgood⟩

end Step

end Zark
