import Zark.DriveCommands
import Zark.Proof.Planner

/-!
# A rollback leaves the estimated transfer

The search for an older common snapshot and the look at the newest one after the rollback ask origin
the same question, a snapshot before a bookmark, of the same drive snapshot. Once the point is newer
than all origin has of the dataset, a bookmark is always followed by a snapshot, and the first of
these is the same however it is found.
-/

namespace Zark

/-- The point is the newest of origin's snapshots of a dataset, and newer than every bookmark that
is not of the point itself. -/
structure NewestPoint (o : Origin) (point : String) (pt : Ref) : Prop where
  name : pt.name = point
  mem : pt ∈ o.snaps
  snaps : ∀ s ∈ o.snaps, s ≠ pt → s.createtxg < pt.createtxg
  bookmarks : ∀ b ∈ o.bookmarks, b.guid ≠ pt.guid → b.createtxg < pt.createtxg

/-- Origin has the snapshot with that guid or, on rpool, a bookmark of it. -/
def Origin.Knows (o : Origin) (guid : String) : Prop :=
  (∃ s ∈ o.snaps, s.guid = guid) ∨ isBpool o.rel = false ∧ ∃ b ∈ o.bookmarks, b.guid = guid

section Rollback

variable {origin : Origins} {o : Origin} {d : Dest} {point : String} {pt : Ref}

theorem snapByGuid_eq_none {guid : String} :
    o.snapByGuid guid = none ↔ ∀ s ∈ o.snaps, s.guid ≠ guid := by
  simp only [Origin.snapByGuid, List.find?_eq_none, beq_iff_eq]
  rfl

theorem bookmarkByGuid_eq_none {guid : String} :
    o.bookmarkByGuid guid = none ↔ ∀ b ∈ o.bookmarks, b.guid ≠ guid := by
  simp only [Origin.bookmarkByGuid, List.find?_eq_none, beq_iff_eq]
  rfl

theorem originBase_eq_none_iff {guid : String} : originBase o guid = none ↔ ¬o.Knows guid := by
  unfold originBase Origin.Knows
  cases hown : o.snapByGuid guid with
  | some own =>
      obtain ⟨hmem, hguid⟩ := snapByGuid_eq_some hown
      exact iff_of_false nofun fun h => h (.inl ⟨own, hmem, hguid⟩)
  | none =>
      have hsnap := snapByGuid_eq_none.mp hown
      have hno : ¬∃ s ∈ o.snaps, s.guid = guid := fun ⟨s, hs, hguid⟩ => hsnap s hs hguid
      cases hbpool : isBpool o.rel with
      | true => simp [hno]
      | false =>
          simp only [Bool.false_eq_true, if_false, Option.map_eq_none_iff, bookmarkByGuid_eq_none,
            hno, false_or, true_and, not_exists, not_and]

theorem planned_rollback (h : (planDataset o (some d) point).state = .rollback) :
    ∃ newest s base newer, d.token = "" ∧ d.newest = some newest ∧
    viaBookmark o newest.guid = none ∧
      findCommon o d.snaps.items.reverse.tail [newest] = some (s, base, newer) ∧
        planDataset o (some d) point =
          { rel := o.rel, state := .rollback, base, common := some s.name,
            newer := newer.map Ref.name, used := d.used } := by
  have hunwritten :=
    planDataset_eq_unwritten (show (planDataset o (some d) point).state
      ≠ .modified by rw [h]; decide)
  rw [hunwritten] at h ⊢
  have hspec := planUnwritten_spec o d point
  generalize planUnwritten o (some d) point = p at hspec h ⊢
  cases hspec with
  | rollback htoken hnewest _ hvia hcommon =>
      exact ⟨_, _, _, _, htoken, hnewest, hvia, hcommon, rfl⟩
  | _ => cases h

theorem split_of_findCommon {newest s : Ref} {base : Base} {newer : List Ref}
    (hnewest : d.newest = some newest)
    (h : findCommon o d.snaps.items.reverse.tail [newest] = some (s, base, newer)) :
    ∃ older between, d.snaps.items = older ++ s :: (between ++ [newest]) ∧
    newer = between ++ [newest] ∧ originBase o s.guid = some base ∧
      ∀ x ∈ between, originBase o x.guid = none := by
  obtain ⟨passed, older, hrest, hbase, hpassed, rfl⟩ := findCommon_eq_some h
  obtain ⟨before, hitems⟩ := List.getLast?_eq_some_iff.mp hnewest
  rw [hitems, List.reverse_append, List.reverse_singleton, List.singleton_append, List.tail_cons,
    List.reverse_eq_iff, List.reverse_append, List.reverse_cons] at hrest
  refine ⟨older.reverse, passed.reverse, ?_, rfl, hbase, fun x hx =>
    hpassed x (List.mem_reverse.mp hx)⟩
  rw [hitems, hrest, List.append_assoc, List.append_assoc, List.singleton_append]

theorem viaBookmark_of_newestPoint (hpt : NewestPoint o point pt) {guid : String} {bm : Ref}
    (hbpool : isBpool o.rel = false) (hbm : o.bookmarkByGuid guid = some bm)
    (hguid : guid ≠ pt.guid) :
    ∃ first, viaBookmark o guid = some (bm, first) ∧
    afterBookmark o bm.name point = first.name := by
  obtain ⟨hmem, hbmguid⟩ := bookmarkByGuid_eq_some hbm
  have hbefore := hpt.bookmarks bm hmem (hbmguid ▸ hguid)
  have hsome : (o.snaps.items.find? (·.createtxg > bm.createtxg)).isSome = true :=
    List.find?_isSome.mpr ⟨pt, hpt.mem, by simpa using hbefore⟩
  obtain ⟨first, hfirst⟩ := Option.isSome_iff_exists.mp hsome
  refine ⟨first, by simp [viaBookmark, hbpool, hbm, hfirst], ?_⟩
  simp only [afterBookmark, o.bookmarks.get?_of_mem hmem, List.head?_filter, hfirst,
    Option.map_some, Option.getD_some]

/-- What an incremental from a known snapshot other than the point is planned as, and sends, is what
a rollback to it does. -/
theorem planned_again (ho : origin.get? o.rel = some o) (hpt : NewestPoint o point pt)
    {s : Ref} {base : Base} (hbase : originBase o s.guid = some base) (hguid : s.guid ≠ pt.guid)
    {e : Dest} (hnewest : e.newest = some s) (hwritten : e.written = 0) (htoken : e.token = "")
    {p : DatasetPlan} (hp : p.rel = o.rel ∧ p.state = .rollback ∧ p.base = base ∧ p.first = none) :
    let again := planDataset o (some e) point
    (again.state = .incremental ∨ again.state = .viaBookmark) ∧ again.base = base ∧
      ∀ dest dest' full, sendArgs origin dest' point again full
          = sendArgs origin dest point p full := by
  obtain ⟨hrel, hstate, hpbase, hfirst⟩ := hp
  intro again
  have hagain : again = planUnwritten o (some e) point := planDataset_of_unwritten hwritten
  unfold originBase at hbase
  cases hown : o.snapByGuid s.guid with
  | some own =>
      rw [hown] at hbase
      obtain rfl : .snapshot own.name = base := Option.some.inj hbase
      obtain ⟨hmem, hownguid⟩ := snapByGuid_eq_some hown
      have hname : own.name ≠ point := by
        intro hname
        have heq : own = pt := o.snaps.eq_of_key hmem hpt.mem (hname.trans hpt.name.symm)
        exact hguid (hownguid ▸ heq ▸ rfl)
      have hplan : again = { rel := o.rel, state := .incremental, base := .snapshot own.name } := by
        rw [hagain, planUnwritten]
        simp [htoken, hnewest, hown, hname]
      rw [hplan]
      refine ⟨.inl rfl, rfl, fun dest dest' full => ?_⟩
      simp [sendArgs, hstate, hpbase, hrel]
  | none =>
      rw [hown] at hbase
      cases hbpool : isBpool o.rel with
      | true => simp [hbpool] at hbase
      | false =>
          simp only [hbpool, Bool.false_eq_true, if_false, Option.map_eq_some_iff] at hbase
          obtain ⟨bm, hbm, rfl⟩ := hbase
          obtain ⟨first, hvia, hafter⟩ := viaBookmark_of_newestPoint hpt hbpool hbm hguid
          have hplan :
              again =
                  { rel := o.rel, state := .viaBookmark, base := .bookmark bm.name,
                    first := some first.name } := by
            rw [hagain, planUnwritten]
            simp [htoken, hnewest, hown, hvia]
          rw [hplan]
          refine ⟨.inr rfl, rfl, fun dest dest' full => ?_⟩
          simp [sendArgs, hstate, hpbase, hrel, hfirst, ho, hafter]

theorem newest_rolledBack {older newer : List Ref} {s : Ref}
    (h : d.snaps.items = older ++ s :: newer) : (d.rolledBack s.name).newest = some s := by
  rw [Dest.newest, Dest.rolledBack, (Keyed.cut h).1, List.getLast?_concat]

/-- Planning the dataset after the rollback finds the same base, and its transfer asks `zfs send`
for the same streams. -/
theorem rollback_sends_as_estimated (ho : origin.get? o.rel = some o) (hpt : NewestPoint o point pt)
    (habsent : ∀ x ∈ d.snaps, x.guid ≠ pt.guid)
    (hstate : (planDataset o (some d) point).state = .rollback) :
    ∃ older s newer newest, d.snaps.items = older ++ s :: (newer ++ [newest]) ∧ o.Knows s.guid ∧
    (∀ x ∈ newer, ¬o.Knows x.guid) ∧
      (planDataset o (some d) point).common = some s.name ∧ (planDataset o (some d) point).newer =
      (newer ++ [newest]).map Ref.name ∧
        let again := planDataset o (some (d.rolledBack s.name)) point
        (again.state = .incremental ∨ again.state = .viaBookmark) ∧
          again.base = (planDataset o (some d) point).base ∧
          ∀ dest dest' full, sendArgs origin dest' point again full
              = sendArgs origin dest point (planDataset o (some d) point) full := by
  obtain ⟨newest, s, base, newer, htoken, hnewest, -, hcommon, hplan⟩ := planned_rollback hstate
  obtain ⟨older, between, hitems, rfl, hbase, hbetween⟩ := split_of_findCommon hnewest hcommon
  have hs : s ∈ d.snaps := Keyed.mem_def.mpr (hitems ▸ List.mem_append_right _ List.mem_cons_self)
  refine ⟨older, s, between, newest, hitems, ?_, fun x hx =>
    originBase_eq_none_iff.mp (hbetween x hx), by rw [hplan], by rw [hplan], ?_⟩
  · by_contra hknows
    rw [originBase_eq_none_iff.mpr hknows] at hbase
    cases hbase
  · rw [hplan]
    exact planned_again ho hpt hbase (habsent s hs) (newest_rolledBack hitems) rfl htoken
      ⟨rfl, rfl, rfl, rfl⟩

end Rollback

/-- A dataset of rpool whose older drive snapshot origin has as a bookmark, and the point. -/
def rewoundOrigin : Origin where
  rel := ["rpool", "a"]
  snaps := ⟨[⟨"q", "11", 5, 5⟩, ⟨"p", "12", 9, 9⟩], by decide⟩
  bookmarks := ⟨[⟨"b", "10", 3, 3⟩], by decide⟩

def rewoundDest : Dest where
  rel := ["rpool", "a"]
  snaps := ⟨[⟨"s", "10", 1, 3⟩, ⟨"t", "20", 2, 4⟩], by decide⟩

theorem rollback_sends_as_estimated_rewound :
    (planDataset rewoundOrigin (some rewoundDest) "p").state = .rollback ∧
      ∃ older s newer newest, rewoundDest.snaps.items = older ++ s :: (newer ++ [newest]) ∧
        (planDataset rewoundOrigin (some (rewoundDest.rolledBack s.name)) "p").base =
        (planDataset rewoundOrigin (some rewoundDest) "p").base := by
  have hpt : NewestPoint rewoundOrigin "p" ⟨"p", "12", 9, 9⟩ :=
    ⟨rfl, by decide, by decide, by decide⟩
  have hstate : (planDataset rewoundOrigin (some rewoundDest) "p").state = .rollback := by decide
  obtain ⟨older, s, newer, newest, hitems, -, -, -, -, -, hbase, -⟩ :=
    @rollback_sends_as_estimated ⟨[rewoundOrigin], by decide⟩ rewoundOrigin rewoundDest "p"
      ⟨"p", "12", 9, 9⟩ (by decide) hpt (by decide) hstate
  exact ⟨hstate, older, s, newer, newest, hitems, hbase⟩

end Zark
