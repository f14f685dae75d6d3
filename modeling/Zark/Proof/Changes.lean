import Zark.Decisions
import Zark.Proof.Branches
import Zark.Proof.DestroyPlan
import Zark.Proof.Renames

/-!
# What one change does

Each change, when its commands are accepted, is one of a few things to the rest of the drive: some
trees are gone from their place, or one of them stands under a new name, and one dataset may have
lost its newer snapshots. Every other dataset is as it was, and each clone follows its origin.
`Effect` says that of all of them at once, so that what comes of several changes is argued from it
alone.
-/

namespace Zark

open Hierarchy

/-- Every clone's origin is on the drive. -/
def Grounded (drive : Drive) : Prop :=
  ∀ d ∈ drive, ∀ source, d.cloneOf = some source → source.1 ∈ drive.keys

namespace Change

/-- The trees that are not in their place after a change. -/
def trees : Change → List Rel
  | archive p => [p.rel]
  | destroy p deps => deps.order.map Dependent.rel ++ [p.rel]
  | a => a.goneFirst

/-- The dataset whose newest snapshot, or what was written since, a change may take away. -/
def rolled : Change → List Rel
  | discardChanges p | rollback p | branch p => [p.rel]
  | _ => []

/-- The lineage a change sets aside under an archive's name. -/
def aside : Change → Option Rel
  | branch p | archive p => some p.rel
  | _ => none

/-- A change that puts a tree under a new name. -/
def renews (a : Change) : Prop := a.target.isSome = true ∨ a.aside.isSome = true

/-- Where a name of before is after a change whose new name is `new`. -/
def Placed (a : Change) (new x y : Rel) : Prop :=
  if covered x a.trees = true then
    a.renews ∧ y = movedRel a.row.rel new x
  else y = x ∨ x ∈ a.rolled ∧ a.renews ∧ y = new

/-- What a change that succeeds does. -/
structure Effect (a : Change) (new : Rel) (before after : Branching) : Prop where
  closed : ParentClosed after.drive.keys
  grounded : Grounded after.drive
  copies : ∀ x e, before.drive.get? x = some e → covered x a.trees = false → x ∉ a.rolled →
    ∃ f, after.drive.get? x = some f ∧ SameCopy e f
  rolled : ∀ x e, before.drive.get? x = some e → x ∈ a.rolled → ∃ f, after.drive.get? x = some f ∧
    (f.snaps = e.snaps ∨ (a = .rollback a.row ∨ a = .branch a.row) ∧
      f.snaps = e.snaps.upTo (a.row.common.getD ""))
  named : ∀ name ∈ a.target, name = new
  moved : a.target.isSome = true → ∀ x e, before.drive.get? x = some e → Under x a.row.rel →
    ∃ f, after.drive.get? (movedRel a.row.rel new x) = some f ∧ SameCopy e f
  keys : ∀ x ∈ after.drive.keys, x ∈ before.drive.keys ∧ covered x a.trees = false ∨
    a.renews ∧ Under x new
  clones : ∀ f ∈ after.drive, ∀ source, f.cloneOf = some source →
    (∃ e ∈ before.drive, ∃ was, e.cloneOf = some was ∧ was.2 = source.2 ∧ a.Placed new e.rel f.rel ∧
      a.Placed new was.1 source.1) ∨
      a = .branch a.row ∧ f.rel = new ∧ source.1 = a.row.rel
  nodup : after.known.Nodup
  known : ∀ x ∈ after.known, x ∈ before.known ∨ a.aside.isSome = true ∧ x = new
  listed : ∀ x ∈ before.known, x ∈ after.known ∨ a.aside = some x
  fresh : a.renews → new ∉ before.drive.keys ∧ new ≠ []
  archived : a.aside.isSome = true → isArchived new = true ∧ parent new = parent a.row.rel ∧
    new ∈ after.known

end Change

/-! ### One dataset -/

section OnDataset

variable {st : Branching} {a : Change} {dest after : Drive} {rel : Rel} {d d' : Dest}
  {f : Dest → Option Dest}

theorem zfsOn_eq (hd : dest.get? rel = some d) (hf : f d = some d') :
    zfsOn dest rel f = some (dest.set d') := by
  rw [zfsOn, hd, Option.bind_some, hf]
  rfl

theorem give_eq {command : Drive → Option Drive} (h : command st.drive = some after) :
    st.give command = (true, { st with drive := after, given := st.given + 1 }) := by
  rw [Branching.give, h]

theorem effect_of_set (hclosed : ParentClosed st.drive.keys) (hgrounded : Grounded st.drive)
    (hnodup : st.known.Nodup) (htrees : a.trees = []) (htarget : a.target = none)
    (haside : a.aside = none) (new : Rel) {given : ℕ} (hd : st.drive.get? rel = some d)
    (hrel : d'.rel = rel) (hclone : d'.cloneOf = d.cloneOf) (hcopy : rel ∉ a.rolled → SameCopy d d')
    (hrolled : ∀ x ∈ a.rolled, x = rel ∧
      (d'.snaps = d.snaps ∨ (a = .rollback a.row ∨ a = .branch a.row) ∧
        d'.snaps = d.snaps.upTo (a.row.common.getD ""))) :
    a.Effect new st { st with drive := st.drive.set d', given } := by
  have hself : (st.drive.set d').get? rel = some d' := Keyed.get?_set_of_get? hd hrel
  have hother : ∀ x, x ≠ rel → (st.drive.set d').get? x = st.drive.get? x :=
    fun x hx => Keyed.get?_set_of_ne (hrel.symm ▸ hx)
  have hkeys : (st.drive.set d').keys = st.drive.keys := Keyed.keys_set
  have hquiet : ¬a.renews := by simp [Change.renews, htarget, haside]
  have hplace : ∀ x, a.Placed new x x := fun x => by simp [Change.Placed, htrees, covered]
  refine ⟨hkeys ▸ hclosed, fun e he source hsource => ?_, fun x e he _ hx => ?_,
    fun x e he hx => ?_, by simp [htarget], by simp [htarget], fun x hx => ?_,
    fun e he source hsource => .inl ?_, hnodup, fun x hx => .inl hx, fun x hx => .inl hx, fun h =>
      absurd h hquiet, by simp [haside]⟩
  · rw [hkeys]
    obtain ⟨he, -⟩ | ⟨rfl, -⟩ := Keyed.mem_set.mp he
    · exact hgrounded e he source hsource
    · exact hgrounded d (Keyed.mem_of_get? hd) source (hclone ▸ hsource)
  · by_cases hxrel : x = rel
    · subst hxrel
      obtain rfl := Option.some.inj (hd.symm.trans he)
      exact ⟨d', hself, hcopy hx⟩
    · exact ⟨e, (hother x hxrel).trans he, rfl, rfl, rfl⟩
  · obtain ⟨rfl, hsnaps⟩ := hrolled x hx
    obtain rfl := Option.some.inj (hd.symm.trans he)
    exact ⟨d', hself, hsnaps⟩
  · exact .inl ⟨hkeys ▸ hx, by simp [htrees, covered]⟩
  · obtain ⟨he, -⟩ | ⟨rfl, -⟩ := Keyed.mem_set.mp he
    · exact ⟨e, he, source, hsource, rfl, hplace _, hplace _⟩
    · exact ⟨d, Keyed.mem_of_get? hd, source, hclone ▸ hsource, rfl,
        (hrel.trans (Keyed.key_of_get? hd).symm) ▸ hplace _, hplace _⟩

theorem run_mark {rel : Rel} (mark : Dest → Dest)
    (hmark : ∀ d, SameCopy d (mark d) ∧ (mark d).rel = d.rel ∧ (mark d).cloneOf = d.cloneOf)
    (hclosed : ParentClosed st.drive.keys) (hgrounded : Grounded st.drive) (hnodup : st.known.Nodup)
    (htrees : a.trees = []) (htarget : a.target = none) (haside : a.aside = none)
    (hrolled : a.rolled = []) (hd : st.drive.get? rel = some d) (new : Rel) :
    ∃ st', st.give (fun dest => zfsOn dest rel fun d => some (mark d)) = (true, st') ∧
    a.Effect new st st' := by
  obtain ⟨hcopy, hrel, hclone⟩ := hmark d
  refine ⟨_, give_eq (zfsOn_eq hd rfl), ?_⟩
  exact effect_of_set hclosed hgrounded hnodup htrees htarget haside new hd
    (hrel.trans (Keyed.key_of_get? hd)) hclone (fun _ => hcopy) (by simp [hrolled])

/-- Changes discarded: the newest snapshot is the common one, and a partial receive is there where
the plan says so. -/
theorem run_discardChanges {p : DatasetPlan} (stamp : String) (day : ℕ → String)
    (hclosed : ParentClosed st.drive.keys) (hgrounded : Grounded st.drive) (hnodup : st.known.Nodup)
    (hd : st.drive.get? p.rel = some d) {newest : Ref} (hnewest : d.newest = some newest)
    (hcommon : p.common = some newest.name)
    (hreceiving : p.partialReceive = true → d.token ≠ "") (new : Rel) :
    ∃ st', (Change.discardChanges p).run stamp day st = (true, st') ∧
    (Change.discardChanges p).Effect new st st' := by
  have hrel : d.rel = p.rel := Keyed.key_of_get? hd
  obtain ⟨older, hitems⟩ := List.getLast?_eq_some_iff.mp hnewest
  obtain ⟨hupTo, hafter⟩ := Keyed.cut (show d.snaps.items = older ++ newest :: [] from hitems)
  have hall : d.snaps.upTo newest.name = d.snaps := Keyed.ext (hupTo.trans hitems.symm)
  have hmem : newest.name ∈ d.snaps.keys :=
    Keyed.key_mem_keys (Keyed.mem_def.mpr (hitems ▸ List.mem_append_right _ List.mem_cons_self))
  -- What is left once the rollback ran, whatever became of the partial receive.
  have heffect : ∀ token (given : ℕ), (Change.discardChanges p).Effect new st
      { st with drive := st.drive.set { d.rolledBack newest.name with token }, given } :=
      fun token given =>
    effect_of_set hclosed hgrounded hnodup rfl rfl rfl new hd hrel rfl
      (fun hout => absurd (List.mem_singleton_self _) hout)
      fun x hx => ⟨List.mem_singleton.mp hx, .inl hall⟩
  by_cases hp : p.partialReceive = true
  · have habort : abortPartial p.rel st.drive = some (st.drive.set { d with token := "" }) :=
      zfsOn_eq hd (if_neg (hreceiving hp))
    have hback : zfsRollback p.rel newest.name (st.drive.set { d with token := "" }) =
        some ((st.drive.set { d with token := "" }).set
            { d.rolledBack newest.name with token := "" }) :=
      zfsOn_eq (Keyed.get?_set_of_get? hd hrel) (if_pos ⟨hmem, hafter⟩)
    refine ⟨_, ?_, heffect "" (st.given + 1 + 1)⟩
    rw [Change.run, Branching.discardChanges, if_pos hp, give_eq habort, hcommon, Option.getD_some]
    exact give_eq (hback.trans (congrArg some (Keyed.set_set rfl)))
  · have hback : zfsRollback p.rel newest.name st.drive
        = some (st.drive.set (d.rolledBack newest.name)) := zfsOn_eq hd (if_pos ⟨hmem, hafter⟩)
    refine ⟨_, ?_, heffect d.token (st.given + 1)⟩
    rw [Change.run, Branching.discardChanges, if_neg hp, hcommon, Option.getD_some]
    exact give_eq hback

theorem run_rollback {p : DatasetPlan} (stamp : String) (day : ℕ → String)
    (hclosed : ParentClosed st.drive.keys) (hgrounded : Grounded st.drive) (hnodup : st.known.Nodup)
    (hd : st.drive.get? p.rel = some d) {common : String} (hcommon : p.common = some common)
    (hmem : common ∈ d.snaps.keys)
    (hclones : rollbackBlockers st.drive p.rel (d.snaps.after common).keys = []) (new : Rel) :
    ∃ st', (Change.rollback p).run stamp day st = (true, st') ∧
    (Change.rollback p).Effect new st st' := by
  have hback : zfsRollbackNewer p.rel (p.common.getD "") st.drive
      = some (st.drive.set (d.rolledBack common)) :=
    zfsOn_eq hd (by rw [hcommon, Option.getD_some, if_pos ⟨hmem, hclones⟩])
  have hrel : d.rel = p.rel := Keyed.key_of_get? hd
  refine ⟨_, give_eq hback, effect_of_set hclosed hgrounded hnodup rfl rfl rfl new hd hrel rfl ?_
    fun x hx => ?_⟩
  · exact fun hout => absurd (List.mem_singleton_self _) hout
  · refine ⟨List.mem_singleton.mp hx, .inr ⟨.inl rfl, ?_⟩⟩
    change d.snaps.upTo common = d.snaps.upTo (p.common.getD "")
    rw [hcommon, Option.getD_some]

end OnDataset

/-! ### Destroys in a row -/

/-- The clones of each tree lie in it or in those before it, apart from what is still to leave. -/
def ClonesWithin (leaving trees : List Rel) (drive : Drive) : Prop :=
  ∀ done t rest, trees = done ++ t :: rest → ∀ e ∈ drive, ∀ source, e.cloneOf = some source →
    Under source.1 t →
    covered source.1 leaving = true ∨ covered e.rel (done ++ [t]) = true ∧
    covered e.rel leaving = false

section Destroys

variable {st : Branching} {a : Change} {top : Rel} {deps : DestroyPlan} {leaving : List Rel}

/-- Trees that are there, none in one before it, go in their order when no clone of them is to
stay. -/
theorem destroys_accepted {drive : Drive} {trees : List Rel}
    (hpresent : ∀ t ∈ trees, t ∈ drive.keys) (hapart : trees.Pairwise fun s t => ¬Under t s)
    (hclones : ClonesWithin leaving trees drive)
    (hleaving : ∀ t ∈ trees, ∀ x, Under x t → covered x leaving = false) (before after : List Rel)
    (t : Rel) (hsplit : trees = before ++ t :: after) :
    zfsDestroy (without drive before) t = some (without drive (before ++ [t])) := by
  subst hsplit
  have ht : t ∈ before ++ t :: after := List.mem_append_right _ List.mem_cons_self
  refine zfsDestroy_eq_some_iff.mpr ⟨?_, fun d hd source hsource hunder => ?_, without_without.symm⟩
  · obtain ⟨d, hd, rfl⟩ := Keyed.mem_keys.mp (hpresent t ht)
    refine Keyed.key_mem_keys (mem_without.mpr ⟨hd, fun s hs => ?_⟩)
    exact (List.pairwise_append.mp hapart).2.2 s hs _ List.mem_cons_self
  · obtain ⟨hd, hleft⟩ := mem_without.mp hd
    obtain hleave | ⟨hcovered, -⟩ := hclones before t after rfl d hd source hsource hunder
    · rw [hleaving t ht source.1 hunder] at hleave
      cases hleave
    · obtain ⟨s, hs, hds⟩ := covered_iff.mp hcovered
      obtain hs | hs := List.mem_append.mp hs
      · exact absurd hds (hleft s hs)
      · exact List.mem_singleton.mp hs ▸ hds

theorem destroyTop_accepted {drive : Drive} (hok : deps.ok = true)
    (hpresent : ∀ t ∈ deps.order.map Dependent.rel ++ [top], t ∈ drive.keys)
    (hapart : (deps.order.map Dependent.rel ++ [top]).Pairwise fun s t => ¬Under t s)
    (hclones : ClonesWithin leaving (deps.order.map Dependent.rel ++ [top]) drive)
    (hleaving : ∀ t ∈ deps.order.map Dependent.rel ++ [top], ∀ x, Under x t →
      covered x leaving = false) :
    destroyTop zfsDestroy top deps drive =
      (deps.order.map Dependent.rel ++ [top], true,
        without drive (deps.order.map Dependent.rel ++ [top])) := by
  have hsteps : ∀ before x after, deps.order.map Dependent.rel = before ++ x :: after →
      (zfsDestroy (without drive ([] ++ before)) x).isSome := by
    intro before x after hsplit
    have hx :=
      destroys_accepted hpresent hapart hclones hleaving before (after ++ [top]) x
        (by simp [hsplit])
    rw [List.nil_append, hx]
    rfl
  have hrun := destroyEach_of_steps [] hsteps
  rw [without_nil, List.nil_append] at hrun
  have hlast :=
    destroys_accepted hpresent hapart hclones hleaving (deps.order.map Dependent.rel) [] top rfl
  simp only [destroyTop, destroyDependents, hok, Bool.not_true, Bool.false_eq_true,
    if_false, hrun, hlast]

/-- A drive without some trees, none of which has a clone outside them. -/
theorem effect_of_without (hclosed : ParentClosed st.drive.keys) (hgrounded : Grounded st.drive)
    (hnodup : st.known.Nodup) (htarget : a.target = none) (haside : a.aside = none)
    (hrolled : a.rolled = [])
    (hclones : ∀ e ∈ st.drive, ∀ source, e.cloneOf = some source → covered source.1 a.trees = true →
      covered e.rel a.trees = true)
    (new : Rel) {given : ℕ} :
    a.Effect new st { st with drive := without st.drive a.trees, given } := by
  have hmem : ∀ {e}, e ∈ without st.drive a.trees ↔ e ∈ st.drive ∧ covered e.rel a.trees = false :=
    fun {e} => by
      rw [mem_without, ← Bool.not_eq_true, covered_iff]
      simp only [not_exists, not_and]
  have hkeys : ∀ {x}, x ∈ (without st.drive a.trees).keys ↔
      x ∈ st.drive.keys ∧ covered x a.trees = false := by
    intro x
    simp only [Keyed.mem_keys, hmem]
    constructor
    · rintro ⟨e, ⟨he, hout⟩, rfl⟩
      exact ⟨⟨e, he, rfl⟩, hout⟩
    · rintro ⟨⟨e, he, rfl⟩, hout⟩
      exact ⟨e, ⟨he, hout⟩, rfl⟩
  have hquiet : ¬a.renews := by simp [Change.renews, htarget, haside]
  have hplace : ∀ {x}, covered x a.trees = false → a.Placed new x x :=
    fun hx => by simp [Change.Placed, hx]
  refine ⟨fun x hx => ?_, fun e he source hsource => ?_,
    fun x e he hout _ => ?_, by simp [hrolled], by simp [htarget], by simp [htarget], fun x hx =>
      .inl (hkeys.mp hx), fun e he source hsource => .inl ?_, hnodup, fun x hx =>
        .inl hx, fun x hx => .inl hx, fun h => absurd h hquiet,
    by simp [haside]⟩
  · obtain ⟨hx, hout⟩ := hkeys.mp hx
    refine ⟨(hclosed x hx).1, (hclosed x hx).2.imp_right fun hparent => hkeys.mpr ⟨hparent, ?_⟩⟩
    by_contra hcovered
    obtain ⟨t, ht, hunder⟩ := covered_iff.mp (Bool.not_eq_false _ ▸ hcovered)
    rw [covered_iff.mpr ⟨t, ht, (under_parent x).trans hunder⟩] at hout
    cases hout
  · obtain ⟨he, hout⟩ := hmem.mp he
    refine hkeys.mpr ⟨hgrounded e he source hsource, ?_⟩
    by_contra hcovered
    rw [hclones e he source hsource (Bool.not_eq_false _ ▸ hcovered)] at hout
    cases hout
  · obtain ⟨hin, rfl⟩ := Keyed.get?_eq_some_iff.mp he
    exact ⟨e, Keyed.get?_of_mem (hmem.mpr ⟨hin, hout⟩), rfl, rfl, rfl⟩
  · obtain ⟨he, hout⟩ := hmem.mp he
    refine ⟨e, he, source, hsource, rfl, hplace hout, hplace ?_⟩
    by_contra hcovered
    rw [hclones e he source hsource (Bool.not_eq_false _ ▸ hcovered)] at hout
    cases hout

/-- The destroys of a plan made at the survey, once its trees and clones are as they were. -/
theorem run_destroy (hrun : ∀ stamp day, a.run stamp day st = st.destroy top deps)
    (htrees : a.trees = deps.order.map Dependent.rel ++ [top]) (htarget : a.target = none)
    (haside : a.aside = none) (hrolled : a.rolled = []) (hclosed : ParentClosed st.drive.keys)
    (hgrounded : Grounded st.drive) (hnodup : st.known.Nodup) (hok : deps.ok = true)
    (hpresent : ∀ t ∈ a.trees, t ∈ st.drive.keys) (hapart : a.trees.Pairwise fun s t => ¬Under t s)
    (hclones : ClonesWithin leaving a.trees st.drive)
    (hleaving : ∀ t ∈ a.trees, ∀ x, Under x t → covered x leaving = false) (stamp : String)
    (day : ℕ → String) (new : Rel) :
    ∃ st', a.run stamp day st = (true, st') ∧ a.Effect new st st' := by
  rw [hrun]
  rw [htrees] at hpresent hapart hclones hleaving
  have hdestroy := destroyTop_accepted hok hpresent hapart hclones hleaving
  rw [← htrees] at hdestroy hclones hleaving
  rw [Branching.destroy, hdestroy]
  refine ⟨_, rfl, effect_of_without hclosed hgrounded hnodup htarget haside hrolled
    (fun e he source hsource hcovered => ?_) new⟩
  obtain ⟨t, ht, hunder⟩ := covered_iff.mp hcovered
  obtain ⟨done, rest, hsplit⟩ := List.append_of_mem ht
  obtain hleave | ⟨hin, -⟩ := hclones done t rest hsplit e he source hsource hunder
  · rw [hleaving t ht source.1 hunder] at hleave
    cases hleave
  · obtain ⟨s, hs, hes⟩ := covered_iff.mp hin
    refine covered_iff.mpr ⟨s, ?_, hes⟩
    rw [hsplit, ← List.singleton_append, ← List.append_assoc]
    exact List.mem_append_left _ hs

end Destroys

/-! ### Renames -/

section Renames

variable {st : Branching} {a : Change} {new : Rel} {drive : Drive} {known : List Rel} {given : ℕ}

theorem effect_of_rename (hclosed : ParentClosed st.drive.keys) (hgrounded : Grounded st.drive)
    (htrees : a.trees = [a.row.rel]) (hrolled : a.rolled = [])
    (hnamed : ∀ name ∈ a.target, name = new) (hrenews : a.renews)
    (hrename : zfsRename st.drive a.row.rel new = some drive) (hnodup : known.Nodup)
    (hknown : ∀ x ∈ known, x ∈ st.known ∨ a.aside.isSome = true ∧ x = new)
    (hlisted : ∀ x ∈ st.known, x ∈ known ∨ a.aside = some x)
    (harchived : a.aside.isSome = true → isArchived new = true ∧ parent new = parent a.row.rel ∧
      new ∈ known) :
    a.Effect new st { drive, known, given } := by
  have hcan := (zfsRename_spec hrename).1
  have hcovered : ∀ {x}, covered x a.trees = true ↔ Under x a.row.rel :=
    fun {x} => by simp [htrees, covered]
  have hplace : ∀ x, a.Placed new x (movedRel a.row.rel new x) := fun x => by
    unfold Change.Placed
    split
    · exact ⟨hrenews, rfl⟩
    · rename_i hunder
      exact .inl (movedRel_of_not_under fun h => hunder (hcovered.mpr h))
  have hmoved : ∀ {x e}, st.drive.get? x = some e →
      drive.get? (movedRel a.row.rel new x) = some (e.moved a.row.rel new) := by
    intro x e he
    have hout :=
      hcan.not_under hclosed (Keyed.get?_isSome_iff.mp (Option.isSome_iff_exists.mpr ⟨e, he⟩))
    rw [get?_zfsRename hrename hclosed hout, he, Option.map_some]
  refine ⟨parentClosed_zfsRename hrename hclosed, fun e he source hsource => ?_,
    fun x e he hout _ => ?_, by simp [hrolled], hnamed, fun _ x e he _ => ?_, fun x hx => ?_,
    fun e he source hsource => .inl ?_, hnodup, hknown, hlisted, fun _ =>
      ⟨hcan.target.absent, hcan.target.ne_nil⟩, harchived⟩
  · obtain ⟨f, hf, rfl⟩ := (mem_zfsRename hrename).mp he
    obtain ⟨was, hwas, rfl⟩ := Option.map_eq_some_iff.mp hsource
    exact (mem_keys_zfsRename hrename).mpr ⟨was.1, hgrounded f hf was hwas, rfl⟩
  · have hget := hmoved he
    rw [movedRel_of_not_under fun hunder => by simp [hcovered.mpr hunder] at hout] at hget
    exact ⟨_, hget, rfl, rfl, rfl⟩
  · exact ⟨_, hmoved he, rfl, rfl, rfl⟩
  · obtain ⟨z, hz, rfl⟩ := (mem_keys_zfsRename hrename).mp hx
    by_cases hunder : Under z a.row.rel
    · obtain ⟨tail, rfl⟩ := hunder
      rw [movedRel_append]
      exact .inr ⟨hrenews, List.prefix_append _ _⟩
    · rw [movedRel_of_not_under hunder]
      exact .inl ⟨hz, by rw [← Bool.not_eq_true, hcovered]; exact hunder⟩
  · obtain ⟨f, hf, rfl⟩ := (mem_zfsRename hrename).mp he
    obtain ⟨was, hwas, rfl⟩ := Option.map_eq_some_iff.mp hsource
    exact ⟨f, hf, was, hwas, rfl, hplace f.rel, hplace was.1⟩

theorem run_followRename {p : DatasetPlan} (stamp : String) (day : ℕ → String)
    (hclosed : ParentClosed st.drive.keys) (hgrounded : Grounded st.drive) (hnodup : st.known.Nodup)
    (hname : p.renameTo = some new) (hcan : CanRename st.drive p.rel new) :
    ∃ st', (Change.followRename p).run stamp day st = (true, st') ∧
    (Change.followRename p).Effect new st st' := by
  obtain ⟨drive, hrename⟩ := hcan.exists hclosed
  have hrun : followRename st.drive p = some drive := by
    rw [followRename, hname, Option.bind_some, hrename]
  refine ⟨{ st with drive, given := st.given + 1 }, by rw [Change.run, give_eq hrun], ?_⟩
  exact effect_of_rename hclosed hgrounded rfl rfl (fun name h => Option.some.inj
    (h.symm.trans hname)) (.inl (Option.isSome_iff_exists.mpr ⟨new, hname⟩)) hrename hnodup
    (fun x hx => .inl hx) (fun x hx => .inl hx) (by simp [Change.aside])

theorem canRename_archive (hclosed : ParentClosed st.drive.keys) {rel : Rel}
    (hrel : rel ∈ st.drive.keys) (hplain : isArchived rel = false)
    (hsiblings : ∀ x ∈ st.drive.keys, isArchived x = true → parent x = parent rel → x ∈ st.known)
    (day : String) :
    CanRename st.drive rel (archiveName rel st.known day) ∧
    Beside st.drive rel (archiveName rel st.known day) := by
  obtain ⟨hfree, hne, harchived, hparent, -⟩ := archiveName_facts (hclosed rel hrel).1 st.known day
  generalize archiveName rel st.known day = new at *
  have hbeside : Beside st.drive rel new :=
    ⟨hclosed, hrel, fun hmem => hfree (hsiblings new hmem harchived hparent), hne, hparent⟩
  refine ⟨⟨hrel, ⟨hne, hbeside.absent, hparent ▸ (hclosed rel hrel).2⟩, fun hunder => ?_⟩, hbeside⟩
  rw [hunder.eq_of_length hbeside.length.symm, harchived] at hplain
  cases hplain

theorem known_aside (rel : Rel) (hnodup : st.known.Nodup) (hfree : new ∉ st.known) :
    (st.known.erase rel ++ [new]).Nodup ∧
    (∀ x ∈ st.known.erase rel ++ [new], x ∈ st.known ∨ x = new) ∧
      (∀ x ∈ st.known, x ∈ st.known.erase rel ++ [new] ∨ x = rel) ∧
      new ∈ st.known.erase rel ++ [new] := by
  refine ⟨?_, fun x hx => ?_, fun x hx => ?_, List.mem_append_right _ (List.mem_singleton_self new)⟩
  · exact (hnodup.erase _).append (List.nodup_singleton _) (List.disjoint_singleton.mpr fun hmem =>
      hfree (List.mem_of_mem_erase hmem))
  · rw [List.mem_append, List.mem_singleton] at hx
    exact hx.imp_left List.mem_of_mem_erase
  · by_cases heq : x = rel
    · exact .inr heq
    · exact .inl (List.mem_append_left _ ((List.mem_erase_of_ne heq).mpr hx))

theorem run_archive {p : DatasetPlan} (stamp : String) (day : ℕ → String)
    (hclosed : ParentClosed st.drive.keys) (hgrounded : Grounded st.drive) (hnodup : st.known.Nodup)
    (hrel : p.rel ∈ st.drive.keys) (hplain : isArchived p.rel = false)
    (hsiblings : ∀ x ∈ st.drive.keys, isArchived x = true → parent x = parent p.rel →
      x ∈ st.known) :
    ∃ new st', (Change.archive p).run stamp day st = (true, st') ∧
    (Change.archive p).Effect new st st' := by
  obtain ⟨hcan, -⟩ := canRename_archive hclosed hrel hplain hsiblings (day st.given)
  obtain ⟨hfree, -, harchived, hparent, -⟩ :=
    archiveName_facts (hclosed p.rel hrel).1 st.known (day st.given)
  obtain ⟨drive, hrename⟩ := hcan.exists hclosed
  obtain ⟨hnodup', hknown, hlisted, hmem⟩ := known_aside p.rel hnodup hfree
  have hsh : st.sh (fun _ => false) (.rename p.rel (archiveName p.rel st.known (day st.given))) =
      (true, { st with drive, given := st.given + 1 }) := by
    simp [Branching.sh, Command.run, hrename]
  let after : Branching :=
    { drive, known := st.known.erase p.rel ++ [archiveName p.rel st.known (day st.given)],
      given := st.given + 1 }
  refine ⟨archiveName p.rel st.known (day st.given), after, ?_, ?_⟩
  · simp only [Change.run, Branching.archive, hsh, Option.isSome_some, after]
  · exact effect_of_rename hclosed hgrounded rfl rfl (by simp [Change.target])
      (.inr rfl) hrename hnodup'
      (fun x hx => (hknown x hx).imp_right fun h => ⟨rfl, h⟩)
        (fun x hx => (hlisted x hx).imp_right fun h => congrArg some h.symm)
      fun _ => ⟨harchived, hparent, hmem⟩

end Renames

/-! ### A branch -/

section Lineage

variable {before now after : Drive} {d : Dest} {new : Rel} {common : String} {back : List Rel}
  {origins : SnapName → SnapName}

/-- The dataset is a clone of what its lineage was one of, wherever that is while children are
away. -/
def Lineage (before : Drive) (d : Dest) (new : Rel) (back : List Rel) (now : Drive) : Prop :=
  ∀ e, now.get? d.rel = some e → ∀ source, e.cloneOf = some source →
    ∃ was, d.cloneOf = some was ∧ was.2 = source.2 ∧
    (was.1 ∈ before.keys → source.1 = away d.rel new back was.1)

theorem lineage_start (h : Beside before d.rel new) (hd : d ∈ before) {renamed cloned : Drive}
    (hrename : zfsRename before d.rel new = some renamed)
    (hclone : zfsClone renamed (new, common) d.rel = some cloned)
    (hpromote : zfsPromote cloned d.rel = some now) : Lineage before d new [] now := by
  have harchive : renamed.get? new = some (d.moved d.rel new) := by
    have := get?_zfsRename hrename h.closed (h.not_under_new h.held)
    rwa [movedRel_self, Keyed.get?_of_mem hd, Option.map_some] at this
  obtain ⟨o, -, -, -, hpush⟩ := zfsClone_spec hclone
  have hlive :
      cloned.get? d.rel = some { rel := d.rel, kind := o.kind, cloneOf := some (new, common) } :=
    Keyed.get?_eq_some_iff.mpr ⟨(Keyed.mem_push? hpush).mpr (.inr rfl), rfl⟩
  obtain ⟨clone, source, o', snaps, hclone', hsource, ho', -, -, rfl⟩ := zfsPromote_spec hpromote
  obtain rfl := Option.some.inj (hlive.symm.trans hclone')
  obtain rfl : (new, common) = source := Option.some.inj hsource
  obtain rfl : d.moved d.rel new = o' :=
    Option.some.inj (((Keyed.get?_push?_of_ne hpush h.ne).trans harchive).symm.trans ho')
  intro e he source hsource
  rw [Keyed.get?_map, hlive, Option.map_some, Dest.promoted, if_pos rfl] at he
  obtain rfl := Option.some.inj he
  obtain ⟨was, hwas, rfl⟩ := Option.map_eq_some_iff.mp hsource
  exact ⟨was, hwas, rfl, fun _ => rfl⟩

theorem lineage_step (h : Beside before d.rel new) (hback : ∀ child ∈ back, Under child d.rel)
    (hnow : Halfway before d new common back origins now)
    (hlineage : Lineage before d new back now) {x : String}
    (hrename : zfsRename now (new ++ [x]) (d.rel ++ [x]) = some after) :
    Lineage before d new ((d.rel ++ [x]) :: back) after := by
  have hrel : movedRel (new ++ [x]) (d.rel ++ [x]) d.rel = d.rel :=
    movedRel_of_not_under fun hz => h.apart (x := d.rel) List.prefix_rfl
      (List.IsPrefix.trans (List.prefix_append _ _) hz)
  obtain ⟨clone, hlive⟩ := hnow.live
  intro e he source hsource
  have hget :=
    get?_zfsRename hrename hnow.closed
      ((zfsRename_spec hrename).1.not_under hnow.closed ((hnow.keys _).mpr (.inl rfl)))
  rw [hrel, hlive, Option.map_some, he] at hget
  obtain rfl := Option.some.inj hget
  obtain ⟨held, hheld, rfl⟩ := Option.map_eq_some_iff.mp hsource
  obtain ⟨was, hwas, hname, hplace⟩ := hlineage _ hlive held hheld
  exact ⟨was, hwas, hname, fun hmem => (congrArg _ (hplace hmem)).trans (moved_away h hback x hmem)⟩

theorem lineage_children (h : Beside before d.rel new) {children : List Rel}
    (hchildren : ∀ child ∈ children, parent child = d.rel)
    (hback : ∀ child ∈ back, Under child d.rel)
    (hnow : Halfway before d new common back origins now) (hlineage : Lineage before d new back now)
    (hrun : runEach now (children.map fun child => .rename (new ++ child.drop d.rel.length) child)
      = some after) :
    Lineage before d new (children.reverse ++ back) after := by
  induction children generalizing now back origins with
  | nil =>
      obtain rfl := Option.some.inj hrun
      exact hlineage
  | cons child rest ih =>
      rw [runEach, List.map_cons, List.foldlM_cons, Option.bind_eq_bind,
        Option.bind_eq_some_iff] at hrun
      obtain ⟨next, hrename, hrest⟩ := hrun
      obtain ⟨x, rfl⟩ := child_eq h.rel_ne_nil (hchildren child List.mem_cons_self)
      rw [List.drop_left] at hrename
      obtain ⟨origins', hnext⟩ := halfway_step h hback hnow hrename
      rw [List.reverse_cons, List.append_assoc]
      refine ih (fun child hchild => hchildren child (List.mem_cons_of_mem _ hchild))
        (fun child hchild => ?_) hnext
        (lineage_step h hback hnow hlineage hrename) hrest
      obtain rfl | hchild := List.mem_cons.mp hchild
      · exact List.prefix_append _ _
      · exact hback child hchild

/-- Once every child is back, the dataset's origin is where it was, the lineage's own snapshots in
the archive. -/
theorem lineage_of_run (h : Beside before d.rel new) (hd : d ∈ before) {children : List Rel}
    (hchildren : ∀ x, x ∈ children → parent x = d.rel)
    (hall : ∀ x ∈ before.keys, parent x = d.rel → x ∈ children) {renamed : Drive}
    (hrename : zfsRename before d.rel new = some renamed) {p : DatasetPlan} (hrel : p.rel = d.rel)
    (hcommon : p.common = some common)
    (hrun : runEach renamed (Branching.restCommands p new children) = some after) {e : Dest}
    (he : after.get? d.rel = some e) {source : SnapName} (hsource : e.cloneOf = some source) :
    ∃ was, d.cloneOf = some was ∧ was.2 = source.2 ∧ (was.1 ∈ before.keys → source.1 =
      if was.1 = d.rel then new else was.1) := by
  rw [Branching.restCommands, hrel, hcommon, Option.getD_some, runEach, List.foldlM_cons,
    Option.bind_eq_bind, Option.bind_eq_some_iff] at hrun
  obtain ⟨cloned, hclone, hrun⟩ := hrun
  rw [List.foldlM_cons, Option.bind_eq_bind, Option.bind_eq_some_iff] at hrun
  obtain ⟨promoted, hpromote, hrun⟩ := hrun
  obtain ⟨origins, hstart⟩ := halfway_start h hd hrename hclone hpromote
  have hend :=
    lineage_children h hchildren (by simp) hstart (lineage_start h hd hrename hclone hpromote) hrun
  obtain ⟨was, hwas, hname, hplace⟩ := hend e he source hsource
  refine ⟨was, hwas, hname, fun hmem => (hplace hmem).trans ?_⟩
  rw [List.append_nil]
  exact away_eq h (fun child hchild => hchildren child (List.mem_reverse.mp hchild))
    (fun x hx hparent => List.mem_reverse.mpr (hall x hx hparent)) hmem

end Lineage

section Branch

variable {st : Branching} {p : DatasetPlan} {d : Dest} {new : Rel} {common : String}
  {origins : SnapName → SnapName} {after : Drive}

theorem effect_of_divided (hgrounded : Grounded st.drive) (hbeside : Beside st.drive d.rel new)
    (hd : d ∈ st.drive) (hrel : p.rel = d.rel) (hcommon : p.common = some common)
    (hdivided : Divided st.drive d new common origins after)
    (hlineage : ∀ e, after.get? d.rel = some e → ∀ source, e.cloneOf = some source →
      ∃ was, d.cloneOf = some was ∧ was.2 = source.2 ∧ (was.1 ∈ st.drive.keys → source.1 =
        if was.1 = d.rel then new else was.1))
    (harchived : isArchived new = true) {known : List Rel} (hnodup : known.Nodup)
    (hknown : ∀ x ∈ known, x ∈ st.known ∨ x = new) (hlisted : ∀ x ∈ st.known, x ∈ known ∨ x = d.rel)
    (hmem : new ∈ known) {given : ℕ} :
    (Change.branch p).Effect new st { drive := after, known, given } := by
  have hrenews : (Change.branch p).renews := .inr rfl
  have hplace : ∀ {x y}, (y = x ∨ x = d.rel ∧ y = new) → (Change.branch p).Placed new x y := by
    rintro x y hy
    refine hy.imp_right fun hy => ⟨List.mem_singleton.mpr (hy.1.trans hrel.symm), hrenews, hy.2⟩
  have hheld : ∀ {x}, x ∈ st.drive.keys → x ∈ after.keys :=
    fun hx => (hdivided.keys _).mpr (.inl hx)
  have hnewkey : new ∈ after.keys := (hdivided.keys _).mpr (.inr rfl)
  -- Each dataset is the one divided, its archive, or one of before.
  have hcases : ∀ f ∈ after, after.get? d.rel = some f ∨ after.get? new = some f ∨
      ∃ e ∈ st.drive, e.rel ≠ d.rel ∧ f = { e with cloneOf := e.cloneOf.map origins } := by
    intro f hf
    obtain hin | hnew := (hdivided.keys f.rel).mp (Keyed.key_mem_keys hf)
    · obtain ⟨e, he, herel⟩ := Keyed.mem_keys.mp hin
      by_cases hself : e.rel = d.rel
      · exact .inl (hself ▸ herel ▸ Keyed.get?_of_mem hf)
      · have hget := Keyed.get?_of_mem hf
        rw [← herel] at hget
        exact .inr
          (.inr ⟨e, he, hself, Option.some.inj (hget.symm.trans (hdivided.others e he hself))⟩)
    · exact .inr (.inl (hnew ▸ Keyed.get?_of_mem hf))
  -- Where the origin of a dataset of before is now.
  have horigins : ∀ {was : SnapName}, was.1 ∈ st.drive.keys → (origins was).2 = was.2 ∧
      ((origins was).1 = was.1 ∨ was.1 = d.rel ∧ (origins was).1 = new) := by
    intro was hwas
    rw [hdivided.origins_eq was hwas]
    split
    · rename_i hown
      exact ⟨rfl, .inr ⟨hown.1, rfl⟩⟩
    · exact ⟨rfl, .inl rfl⟩
  refine ⟨hdivided.closed, fun f hf source hsource => ?_, fun x e he _ hx => ?_,
    fun x e he hx => ?_, by simp [Change.target], by simp [Change.target], fun x hx => ?_,
    fun f hf source hsource => ?_, hnodup, fun x hx => (hknown x hx).imp_right fun h => ⟨rfl, h⟩,
    fun x hx => (hlisted x hx).imp_right fun h => congrArg some (hrel.trans h.symm), fun _ =>
      ⟨hbeside.absent, hbeside.ne_nil⟩,
    fun _ => ⟨harchived, hrel ▸ hbeside.parent, hmem⟩⟩
  · obtain hlive | hkept | ⟨e, he, hne, rfl⟩ := hcases f hf
    · obtain ⟨was, hwas, -, hat⟩ := hlineage f hlive source hsource
      rw [hat (hgrounded d hd was hwas)]
      split
      · exact hnewkey
      · exact hheld (hgrounded d hd was hwas)
    · obtain rfl := Option.some.inj (hdivided.kept.symm.trans hkept)
      obtain rfl := Option.some.inj hsource
      exact hheld hbeside.held
    · obtain ⟨was, hwas, rfl⟩ := Option.map_eq_some_iff.mp hsource
      obtain ⟨-, hsame | ⟨-, hnew⟩⟩ := horigins (hgrounded e he was hwas)
      · exact hsame ▸ hheld (hgrounded e he was hwas)
      · exact hnew ▸ hnewkey
  · obtain ⟨hmem, rfl⟩ := Keyed.get?_eq_some_iff.mp he
    exact ⟨_, hdivided.others e hmem fun heq => hx (List.mem_singleton.mpr (heq.trans hrel.symm)),
      rfl, rfl, rfl⟩
  · obtain rfl : x = d.rel := (List.mem_singleton.mp hx).trans hrel
    obtain rfl := Option.some.inj ((Keyed.get?_of_mem hd).symm.trans he)
    obtain ⟨clone, hlive⟩ := hdivided.live
    exact ⟨_, hlive, .inr ⟨.inr rfl, by simp [Change.row, hcommon]⟩⟩
  · obtain hx | rfl := (hdivided.keys x).mp hx
    · exact .inl ⟨hx, rfl⟩
    · exact .inr ⟨hrenews, List.prefix_rfl⟩
  · obtain hlive | hkept | ⟨e, he, hne, rfl⟩ := hcases f hf
    · obtain ⟨was, hwas, hname, hat⟩ := hlineage f hlive source hsource
      have hsource' := hat (hgrounded d hd was hwas)
      refine .inl ⟨d, hd, was, hwas, hname, hplace (.inl (Keyed.key_of_get? hlive)), hplace ?_⟩
      split_ifs at hsource' with hself
      · exact .inr ⟨hself, hsource'⟩
      · exact .inl hsource'
    · obtain rfl := Option.some.inj (hdivided.kept.symm.trans hkept)
      obtain rfl := Option.some.inj hsource
      exact .inr ⟨rfl, rfl, hrel.symm⟩
    · obtain ⟨was, hwas, rfl⟩ := Option.map_eq_some_iff.mp hsource
      obtain ⟨hname, hat⟩ := horigins (hgrounded e he was hwas)
      exact .inl ⟨e, he, was, hwas, hname.symm, hplace (.inl rfl), hplace hat⟩

/-- A branch whose children the listing in memory names as the drive has them. -/
theorem run_branch (stamp : String) (day : ℕ → String) (hclosed : ParentClosed st.drive.keys)
    (hgrounded : Grounded st.drive) (hnodup : st.known.Nodup) (hd : st.drive.get? p.rel = some d)
    (hplain : isArchived p.rel = false) (hcommon : p.common = some common)
    (hmem : common ∈ d.snaps.keys)
    (hchildren : ∀ x, parent x = p.rel → (x ∈ st.known ↔ x ∈ st.drive.keys))
    (hsiblings : ∀ x ∈ st.drive.keys, isArchived x = true → parent x = parent p.rel →
      x ∈ st.known) :
    ∃ new st', (Change.branch p).run stamp day st = (true, st') ∧
    (Change.branch p).Effect new st st' := by
  obtain ⟨hdmem, hrel⟩ := Keyed.get?_eq_some_iff.mp hd
  have hheld : p.rel ∈ st.drive.keys := hrel ▸ Keyed.key_mem_keys hdmem
  obtain ⟨hcan, hbeside⟩ := canRename_archive hclosed hheld hplain hsiblings (day st.given)
  obtain ⟨hfree, -, harchived, -⟩ :=
    archiveName_facts (hclosed p.rel hheld).1 st.known (day st.given)
  generalize hnew : archiveName p.rel st.known (day st.given) = new at hcan hbeside hfree harchived
  obtain ⟨renamed, hrename⟩ := hcan.exists hclosed
  rw [← hrel] at hbeside
  have hlist : ∀ x, x ∈ sortRels (st.known.filter fun rel => parent rel = p.rel) ↔
      parent x = d.rel ∧ x ∈ st.drive.keys := by
    intro x
    rw [mem_sortRels, List.mem_filter, decide_eq_true_eq, hrel]
    exact ⟨fun h => ⟨h.2, (hchildren x h.2).mp h.1⟩, fun h => ⟨(hchildren x h.1).mpr h.2, h.1⟩⟩
  obtain ⟨after, hafter⟩ := rest_accepted hbeside hdmem
    (by rwa [hrel]) hrel.symm hcommon hmem (fun child hchild => (hlist child).mp hchild)
    (nodup_sortRels.mpr (hnodup.filter _))
  have hok : (st.branch (fun _ => false) day p).1 = true :=
    branch_succeeds (fun _ => rfl) (hnew.symm ▸ hrename) (hnew.symm ▸ hafter)
  generalize hst : (st.branch (fun _ => false) day p).2 = st'
  obtain ⟨renamed', hrename', hrun, hknown⟩ := branch_true (Prod.ext hok hst)
  rw [hnew] at hrename' hrun hknown
  obtain rfl := Option.some.inj (hrename.symm.trans hrename')
  have hsub : ∀ x, x ∈ sortRels (st.known.filter fun rel => parent rel = p.rel) →
      parent x = d.rel := fun x hx => ((hlist x).mp hx).1
  have hall : ∀ x ∈ st.drive.keys, parent x = d.rel →
      x ∈ sortRels (st.known.filter fun rel => parent rel = p.rel) := fun x hx hparent =>
    (hlist x).mpr ⟨hparent, hx⟩
  obtain ⟨origins, hdivided⟩ :=
    divided_of_run hbeside hdmem hsub hall (by rwa [hrel]) hrel.symm hcommon hrun
  obtain ⟨hnodup', hkeep, hlisted, hin⟩ := known_aside p.rel hnodup hfree
  rw [← hknown] at hnodup' hkeep hlisted hin
  refine ⟨new, st', Prod.ext hok hst, ?_⟩
  exact effect_of_divided hgrounded hbeside hdmem hrel.symm hcommon hdivided
    (fun e he source hsource => lineage_of_run hbeside hdmem hsub hall
      (by rwa [hrel]) hrel.symm hcommon hrun he hsource) harchived hnodup' hkeep
    (fun x hx => (hlisted x hx).imp_right fun h => h.trans hrel.symm) hin

end Branch

end Zark
