import Zark.Engine

/-!
# What a drive's newest snapshot keeps in origin

`anchor_held` is to leave, for every rpool dataset whose newest snapshot on the drive origin still
has, a bookmark of this drive with that guid. It does so exactly when the bookmark is there already
or its name, made of the snapshot's creation in whole seconds, is free.
-/

namespace Zark

/-- Origin's snapshot with the guid of the drive's newest one. -/
def heldSnap (origin : Origins) (drive : Drive) (rel : Rel) : Option Ref :=
  (origin.get? rel).bind fun o => ((drive.get? rel).bind Dest.newest).bind fun newest =>
    o.snapByGuid newest.guid

/-- The dataset has an anchor of the drive with this guid. -/
def Anchored (disk : DiskGuid) (origin : Origins) (rel : Rel) (guid : String) : Prop :=
  ∃ b ∈ bookmarksOf origin rel, b.guid = guid ∧ anchorDisk b.name = disk.text

/-- No bookmark of the dataset has the name `anchor_held` would give the snapshot's. -/
def NameFree (run : Run) (origin : Origins) (rel : Rel) (snap : Ref) : Prop :=
  ∀ b ∈ bookmarksOf origin rel, b.name ≠ run.heldName snap

instance (disk : DiskGuid) (origin : Origins) (rel : Rel) (guid : String) :
    Decidable (Anchored disk origin rel guid) :=
  inferInstanceAs (Decidable (∃ b ∈ bookmarksOf origin rel, b.guid = guid ∧
    anchorDisk b.name = disk.text))

instance (run : Run) (origin : Origins) (rel : Rel) (snap : Ref) :
    Decidable (NameFree run origin rel snap) :=
  inferInstanceAs (Decidable (∀ b ∈ bookmarksOf origin rel, b.name ≠ run.heldName snap))

variable {run : Run} {origin : Origins} {drive : Drive}

theorem anchorDisk_heldName (run : Run) (snap : Ref) :
    anchorDisk (run.heldName snap) = run.disk.text :=
  anchorDisk_anchorName run.disk (isPoint_pointName snap.creation)

/-- What is bookmarked: the held snapshot, when no anchor of the drive has its guid and its name
is free. -/
theorem heldAnchor_eq_some_iff {o : Origin} {d : Option Dest} {snap : Ref} :
    heldAnchor run o d = some snap ↔
      isBpool o.rel = false ∧
        (∃ newest, d.bind Dest.newest = some newest ∧ o.snapByGuid newest.guid = some snap) ∧
        (∀ b ∈ o.bookmarks, anchorDisk b.name = run.disk.text → b.guid ≠ snap.guid) ∧
        run.heldName snap ∉ o.bookmarks.keys := by
  have hmine : ∀ {p : Ref → Bool},
      (o.bookmarks.items.filter fun b => anchorDisk b.name = run.disk.text).any p = true ↔
        ∃ b ∈ o.bookmarks, anchorDisk b.name = run.disk.text ∧ p b = true := by
    intro p
    simp only [List.any_eq_true, List.mem_filter, decide_eq_true_eq, and_assoc]
    rfl
  have htaken : ∀ own : Ref,
      (∃ b ∈ o.bookmarks, anchorDisk b.name = run.disk.text ∧ b.name = run.heldName own) ↔
        run.heldName own ∈ o.bookmarks.keys := by
    intro own
    rw [Keyed.mem_keys]
    exact ⟨fun ⟨b, hb, _, hname⟩ => ⟨b, hb, hname⟩,
      fun ⟨b, hb, hname⟩ => ⟨b, hb, hname ▸ anchorDisk_heldName run own, hname⟩⟩
  unfold heldAnchor
  by_cases hpool : isBpool o.rel = true
  · simp [hpool]
  rw [if_neg hpool]
  have hpool : isBpool o.rel = false := by simpa using hpool
  simp only [Option.bind_eq_some_iff, Option.ite_none_left_eq_some, Option.some.injEq,
    Bool.or_eq_true, hmine, decide_eq_true_eq, htaken, hpool, true_and]
  constructor
  · rintro ⟨newest, hnewest, own, hown, hfree, rfl⟩
    have hguid : own.guid = newest.guid := by simpa using List.find?_some hown
    refine ⟨⟨newest, hnewest, hown⟩, fun b hb hdisk heq => hfree (.inl ⟨b, hb, hdisk, ?_⟩),
      fun h => hfree (.inr h)⟩
    rw [heq, hguid]
  · rintro ⟨⟨newest, hnewest, hown⟩, hguids, hname⟩
    have hguid : snap.guid = newest.guid := by simpa using List.find?_some hown
    refine ⟨newest, hnewest, snap, hown, ?_, rfl⟩
    rintro (⟨b, hb, hdisk, heq⟩ | h)
    · exact hguids b hb hdisk (heq.trans hguid.symm)
    · exact hname h

theorem anchorEach_get?_of_not_mem {rels : List Rel} {w : World} {rel : Rel} (h : rel ∉ rels) :
    (anchorEach run origin drive rels w).2.origin.get? rel = w.origin.get? rel := by
  induction rels generalizing w with
  | nil => rfl
  | cons head rest ih =>
      have hhead : rel ≠ head := fun heq => h (heq ▸ List.mem_cons_self)
      have hrest : rel ∉ rest := fun hmem => h (List.mem_cons_of_mem _ hmem)
      unfold anchorEach
      split
      · exact ih hrest
      · rename_i snap hheld
        have hcommand :=
          w.command_get?_of_ne (c := .bookmark head snap.name (run.heldName snap)) hhead
        exact (ih hrest).trans hcommand

/-- The bookmarks of a dataset after `anchor_held`, from what it read of it. -/
def heldBookmarks (run : Run) (o : Origin) (d : Option Dest) : List Ref :=
  o.bookmarks.items ++
    ((heldAnchor run o d).map fun snap => { snap with name := run.heldName snap }).toList

theorem bookmarksOf_anchorEach {rels : List Rel} {w : World} {rel : Rel} {o : Origin}
    (hw : w.Sound) (hnodup : rels.Nodup)
    (hread : ∀ r ∈ rels, w.origin.get? r = origin.get? r) (hrel : rel ∈ rels)
    (ho : origin.get? rel = some o) :
    bookmarksOf (anchorEach run origin drive rels w).2.origin rel =
      heldBookmarks run o (drive.get? rel) := by
  induction rels generalizing w with
  | nil => cases hrel
  | cons head rest ih =>
      obtain ⟨hhead, hnodup⟩ := List.nodup_cons.mp hnodup
      have hreadHead := hread head List.mem_cons_self
      have hreadRest := fun r hr => hread r (List.mem_cons_of_mem _ hr)
      unfold anchorEach
      split
      · rename_i hnone
        by_cases heq : rel = head
        · subst heq
          rw [bookmarksOf, anchorEach_get?_of_not_mem hhead, hreadHead, ho]
          rw [ho, Option.bind_some] at hnone
          simp [heldBookmarks, hnone]
        · exact ih hw hnodup hreadRest (List.mem_of_ne_of_mem heq hrel)
      · rename_i snap hsome
        obtain ⟨own, hown, hheld⟩ := Option.bind_eq_some_iff.mp hsome
        obtain ⟨-, ⟨newest, -, hsnap⟩, -, hname⟩ := heldAnchor_eq_some_iff.mp hheld
        have hsnap : snap ∈ own.snaps := List.mem_of_find?_eq_some hsnap
        obtain ⟨-, hsound, hmade⟩ :=
          World.command_bookmark_of_sound hw (hreadHead.trans hown) hsnap hname
        by_cases heq : rel = head
        · subst heq
          cases ho.symm.trans hown
          rw [bookmarksOf, anchorEach_get?_of_not_mem hhead, ← bookmarksOf, hmade]
          simp [heldBookmarks, hheld]
        · refine ih hsound hnodup (fun r hr => ?_) (List.mem_of_ne_of_mem heq hrel)
          have hne : r ≠ head := fun h => hhead (h ▸ hr)
          exact (w.command_get?_of_ne hne).trans (hreadRest r hr)

/-- The newest snapshot a dataset's drive copy shares with origin is anchored after `anchor_held`
when it was before, or when its name was free. -/
theorem anchored_anchorHeld_iff {w : World} {rel : Rel} {snap : Ref} (hw : w.Sound)
    (hrel : rel ∈ expected w.origin run.exclusions) (hpool : isBpool rel = false)
    (hsnap : heldSnap w.origin w.drive rel = some snap) :
    Anchored run.disk (anchorHeld run w).2.origin rel snap.guid ↔
      Anchored run.disk w.origin rel snap.guid ∨ NameFree run w.origin rel snap := by
  obtain ⟨o, ho, hnewest⟩ := Option.bind_eq_some_iff.mp hsnap
  obtain ⟨newest, hnewest, hown⟩ := Option.bind_eq_some_iff.mp hnewest
  obtain ⟨horigin, hw₁⟩ := World.read_of_sound hw
  obtain ⟨hdest, hw₂⟩ := World.read_of_sound hw₁
  have hafter : bookmarksOf (anchorHeld run w).2.origin rel =
      heldBookmarks run o (w.drive.get? rel) := by
    simp only [anchorHeld, horigin, hdest, Bool.not_true, Bool.false_eq_true, if_false]
    exact bookmarksOf_anchorEach hw₂ (nodup_expected w.origin run.exclusions)
      (fun r _ => rfl) hrel ho
  have hbefore : bookmarksOf w.origin rel = o.bookmarks.items := by rw [bookmarksOf, ho]; rfl
  have hrelO : isBpool o.rel = false := (Keyed.key_of_get? ho : o.rel = rel) ▸ hpool
  simp only [Anchored, NameFree, hafter, hbefore, heldBookmarks]
  cases hheld : heldAnchor run o (w.drive.get? rel) with
  | none =>
      simp only [Option.map_none, Option.toList_none, List.append_nil]
      refine ⟨.inl, fun h => ?_⟩
      by_contra hanchored
      have hfree := h.resolve_left hanchored
      have hsome : heldAnchor run o (w.drive.get? rel) = some snap := by
        refine heldAnchor_eq_some_iff.mpr ⟨hrelO, ⟨newest, hnewest, hown⟩,
          fun b hb hdisk hguid => ?_, ?_⟩
        · exact hanchored ⟨b, hb, hguid, hdisk⟩
        · intro hname
          obtain ⟨b, hb, hbname⟩ := Keyed.mem_keys.mp hname
          exact hfree b hb hbname
      rw [hheld] at hsome
      cases hsome
  | some own =>
      obtain ⟨-, ⟨newest', hnewest', hown'⟩, -, hname⟩ := heldAnchor_eq_some_iff.mp hheld
      obtain rfl : newest = newest' := Option.some.inj (hnewest.symm.trans hnewest')
      obtain rfl : snap = own := Option.some.inj (hown.symm.trans hown')
      refine iff_of_true ?_ (.inr fun b hb hbname => hname (Keyed.mem_keys.mpr ⟨b, hb, hbname⟩))
      exact ⟨{ snap with name := run.heldName snap }, by simp, rfl, anchorDisk_heldName run snap⟩

/-- Every expected rpool dataset whose newest snapshot on the drive is in origin by guid has an
anchor of the run's drive with that guid exactly when each of them had one or had the name free. -/
theorem anchorHeld_anchors_iff (run : Run) {w : World} (hw : w.Sound) :
    (∀ rel ∈ expected w.origin run.exclusions, isBpool rel = false →
        ∀ snap ∈ heldSnap w.origin w.drive rel,
          Anchored run.disk (anchorHeld run w).2.origin rel snap.guid) ↔
      ∀ rel ∈ expected w.origin run.exclusions, isBpool rel = false →
        ∀ snap ∈ heldSnap w.origin w.drive rel,
          Anchored run.disk w.origin rel snap.guid ∨ NameFree run w.origin rel snap := by
  refine forall₄_congr fun rel hrel hpool snap => ?_
  apply forall_congr'
  intro hsnap
  exact anchored_anchorHeld_iff hw hrel hpool hsnap

/-- sanoid's daily and hourly snapshot of one second, the hourly the newest on the drive. -/
def sameSecond (bookmarks : Keyed Ref.name) : World where
  origin := ⟨[{
    rel := ["rpool", "data"]
    snaps := ⟨[⟨"autosnap_2026-01-02_03:04:05_daily", "1", 10, 1767323045⟩,
      ⟨"autosnap_2026-01-02_03:04:05_hourly", "2", 11, 1767323045⟩], by decide⟩
    bookmarks }], List.nodup_singleton _⟩
  drive := ⟨[{
    rel := ["rpool", "data"]
    snaps := ⟨[⟨"autosnap_2026-01-02_03:04:05_daily", "1", 20, 1767323045⟩,
      ⟨"autosnap_2026-01-02_03:04:05_hourly", "2", 21, 1767323045⟩], by decide⟩ }], by decide⟩
  owner := fun _ _ => ""
  faults := []

def heldRun : Run where
  pool := "zark_a"
  disk := ⟨"77", by decide, by decide⟩
  point := "zark_2026-01-03_00:00:00Z"

/-- With no bookmark yet the hourly gets its anchor. -/
theorem anchorHeld_anchors_hourly :
    (sameSecond ∅).Sound ∧
      ∀ rel ∈ expected (sameSecond ∅).origin heldRun.exclusions, isBpool rel = false →
        ∀ snap ∈ heldSnap (sameSecond ∅).origin (sameSecond ∅).drive rel,
          Anchored heldRun.disk (anchorHeld heldRun (sameSecond ∅)).2.origin rel snap.guid :=
  ⟨by simp [World.Sound, sameSecond],
    (anchorHeld_anchors_iff heldRun (by simp [World.Sound, sameSecond])).mpr (by decide)⟩

/-- The daily, anchored by an earlier run of the drive. -/
def dailyAnchor : Keyed Ref.name :=
  ⟨[⟨"zark_77_2026-01-02_03:04:05Z", "1", 10, 1767323045⟩], by decide⟩

/-- With the daily anchored its name is taken, and the hourly is left with none. -/
theorem anchorHeld_misses_hourly :
    ¬∀ (run : Run) (w : World), w.Sound →
      ∀ rel ∈ expected w.origin run.exclusions, isBpool rel = false →
        ∀ snap ∈ heldSnap w.origin w.drive rel,
          Anchored run.disk (anchorHeld run w).2.origin rel snap.guid := by
  intro h
  have hsound : (sameSecond dailyAnchor).Sound := by simp [World.Sound, sameSecond]
  exact absurd (h heldRun _ hsound) (by decide)

end Zark
