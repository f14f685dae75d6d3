import Zark.Prune

/-!
# A point that names a drive goes anchored

What removing a point must leave is kept by every command of the removal: no point appears, no
anchor goes, and a named point that goes has its drive's anchor. Releasing a point keeps it because
the anchor is made first. Destroying one keeps it where the point names no drive or is anchored
already, and that is the removal's only way out where the drives the points name were not read. -/

namespace Zark

/-! ### Named points and their anchors -/

/-- The references a dataset's anchors are among. -/
def anchorRefs (origin : Origins) (rel : Rel) : List Ref :=
  if isBpool rel then snapsOf origin rel else bookmarksOf origin rel

/-- A backup point that carries the drive its run was for. -/
def NamesDrive (w : World) (rel : Rel) (s : Ref) : Prop :=
  isPoint s.name = true ∧ isGuid (w.owner rel s.guid) = true

/-- The dataset has an anchor of the drive a snapshot names, with the snapshot's guid. -/
def IsAnchored (w : World) (rel : Rel) (s : Ref) : Prop :=
  ∃ a ∈ anchorRefs w.origin rel, a.guid = s.guid ∧ anchorDisk a.name = w.owner rel s.guid

/-- Every point that is gone and named a drive is anchored for it. -/
def AnchoredIfGone (w w' : World) : Prop :=
  ∀ rel, ∀ s ∈ snapsOf w.origin rel, NamesDrive w rel s → s ∉ snapsOf w'.origin rel →
    IsAnchored w' rel s

theorem ne_empty_of_isGuid {value : String} (h : isGuid value = true) : value ≠ "" := by
  rintro rfl
  exact absurd h (by decide)

/-- What the removal keeps, command by command. -/
structure Spares (w w' : World) : Prop where
  owner : w'.owner = w.owner
  points : ∀ rel, ∀ s ∈ snapsOf w'.origin rel, isPoint s.name = true → s ∈ snapsOf w.origin rel
  anchors : ∀ rel, ∀ a ∈ anchorRefs w.origin rel, anchorDisk a.name ≠ "" →
    a ∈ anchorRefs w'.origin rel
  gone : AnchoredIfGone w w'

namespace Spares

variable {w w' w'' : World}

theorem of_origin_eq (horigin : w'.origin = w.origin) (howner : w'.owner = w.owner) :
    Spares w w' where
  owner := howner
  points _ _ hs _ := horigin ▸ hs
  anchors _ _ ha _ := horigin ▸ ha
  gone _ _ hs _ hgone := absurd (horigin ▸ hs) hgone

theorem refl (w : World) : Spares w w := of_origin_eq rfl rfl

theorem namesDrive (h : Spares w w') {rel : Rel} {s : Ref} :
    NamesDrive w' rel s ↔ NamesDrive w rel s := by
  rw [NamesDrive, NamesDrive, h.owner]

theorem isAnchored (h : Spares w w') {rel : Rel} {s : Ref} (hnamed : NamesDrive w rel s)
    (hs : IsAnchored w rel s) :
    IsAnchored w' rel s := by
  obtain ⟨a, ha, hguid, hdisk⟩ := hs
  refine ⟨a, h.anchors rel a ha ?_, hguid, by rw [hdisk, h.owner]⟩
  rw [hdisk]
  exact ne_empty_of_isGuid hnamed.2

theorem trans (h : Spares w w') (h' : Spares w' w'') : Spares w w'' where
  owner := h'.owner.trans h.owner
  points rel s hs hpoint := h.points rel s (h'.points rel s hs hpoint) hpoint
  anchors rel a ha hdisk := h'.anchors rel a (h.anchors rel a ha hdisk) hdisk
  gone rel s hs hnamed hgone := by
    by_cases hmid : s ∈ snapsOf w'.origin rel
    · exact h'.gone rel s hmid (h.namesDrive.mpr hnamed) hgone
    · exact h'.isAnchored (h.namesDrive.mpr hnamed) (h.gone rel s hs hnamed hmid)

theorem foldl {α : Type*} {step : World → α → World} {l : List α} (w : World)
    (hstep : ∀ a ∈ l, ∀ w', Spares w w' → Spares w' (step w' a)) : Spares w (l.foldl step w) := by
  have hrun : ∀ l' : List α, l' ⊆ l → ∀ w', Spares w w' → Spares w (l'.foldl step w') := by
    intro l'
    induction l' with
    | nil => exact fun _ _ h => h
    | cons a l' ih =>
        intro hsub w' h
        exact ih (fun x hx => hsub (List.mem_cons_of_mem _ hx)) _
          (h.trans (hstep a (hsub List.mem_cons_self) w' h))
  exact hrun l (fun _ h => h) w (refl w)

/-- A command that takes no anchor, gives no point's name and takes a named point only where it
leaves its anchor. -/
theorem command {c : Cmd} (hpoint : ∀ rel old new, c = .rename rel old new → isPoint new = false)
    (hbookmark : c.bookmarkTaken = none)
    (hsnap : ∀ name, c.snapTaken = some name → anchorDisk name = "")
    (hgone : ∀ after, c.apply w.origin = some after →
      ∀ s ∈ snapsOf w.origin c.rel, c.snapTaken = some s.name →
      NamesDrive w c.rel s → ∃ a ∈ anchorRefs after c.rel, a.guid = s.guid ∧
      anchorDisk a.name = w.owner c.rel s.guid) :
    Spares w (w.command c).2 := by
  obtain ⟨-, happly⟩ | ⟨-, horigin⟩ := w.command_cases c
  · refine ⟨w.command_owner c, fun rel s hs hname => ?_, fun rel a ha hdisk => ?_,
      fun rel s hs hnamed hmissing => ?_⟩
    · obtain hs | ⟨x, -, hc, -⟩ := Cmd.of_mem_snapsOf_apply happly hs
      · exact hs
      · rw [hpoint rel x.name s.name hc] at hname
        cases hname
    · rw [anchorRefs] at ha ⊢
      split_ifs at ha ⊢
      · exact Cmd.mem_snapsOf_apply happly ha fun _ htaken => hdisk (hsnap a.name htaken)
      · exact Cmd.mem_bookmarksOf_apply happly ha
          fun _ htaken => by rw [hbookmark] at htaken; cases htaken
    · have htaken : c.rel = rel ∧ c.snapTaken = some s.name := by
        by_contra hnot
        exact hmissing (Cmd.mem_snapsOf_apply happly hs fun hrel htaken => hnot ⟨hrel, htaken⟩)
      obtain ⟨rfl, htaken⟩ := htaken
      obtain ⟨a, ha, hguid, hdisk⟩ := hgone _ happly s hs htaken hnamed
      exact ⟨a, ha, hguid, by rw [hdisk, w.command_owner c]⟩
  · exact of_origin_eq horigin (w.command_owner c)

end Spares

/-! ### Releasing a point -/

/-- A pool GUID read from a property. -/
def guidOf (value : String) (h : isGuid value = true) : DiskGuid where
  text := value
  digits := by
    rw [isGuid, Bool.and_eq_true] at h
    exact h.2
  nonempty := ne_empty_of_isGuid h

section Release

variable {w : World} {rel : Rel} {point disk : String}

/-- Anchoring a point keeps everything, and on rpool leaves its anchor where it says so. -/
theorem anchorPoint_spec (hpoint : isPoint point = true) (hdisk : isGuid disk = true)
    (howner : ∀ s ∈ snapsOf w.origin rel, s.name = point → w.owner rel s.guid = disk) :
    Spares w (anchorPoint w rel point disk).2 ∧
      ((anchorPoint w rel point disk).1 = true → isBpool rel = false →
        ∀ s ∈ snapsOf (anchorPoint w rel point disk).2.origin rel, s.name = point →
        IsAnchored (anchorPoint w rel point disk).2 rel s) := by
  have hkeep : anchorDisk (anchorName disk point) = disk :=
    anchorDisk_anchorName (guidOf disk hdisk) hpoint
  have hname : isPoint (anchorName disk point) = false :=
    isPoint_anchorName (guidOf disk hdisk) hpoint
  rw [anchorPoint]
  by_cases hbpool : isBpool rel = true
  · rw [if_pos hbpool]
    refine ⟨Spares.command ?_ rfl ?_ ?_, fun _ hrpool => absurd hbpool (by simp [hrpool])⟩
    · rintro _ _ _ ⟨⟩
      exact hname
    · rintro _ ⟨⟩
      exact anchorDisk_of_isPoint hpoint
    · intro after happly s hs htaken _
      have hs' : s.name = point := (Option.some.inj htaken).symm
      refine ⟨{ s with name := anchorName disk point }, ?_, rfl, hkeep.trans (howner s hs hs').symm⟩
      rw [anchorRefs, if_pos (show isBpool (Cmd.rename rel point (anchorName disk point)).rel
        = true from hbpool)]
      exact Cmd.mem_snapsOf_rename happly hs hs'
  · rw [if_neg hbpool]
    have hmade : Spares w (w.command (.bookmark rel point (anchorName disk point))).2 := by
      refine Spares.command ?_ rfl ?_ ?_
      · rintro _ _ _ ⟨⟩
      · rintro _ ⟨⟩
      · rintro _ _ _ _ ⟨⟩
    have howner' :
        ∀ s ∈ snapsOf (w.command (.bookmark rel point (anchorName disk point))).2.origin rel,
          s.name = point →
        w.owner rel s.guid = disk := fun s hs hs' =>
          howner s (hmade.points rel s hs (hs' ▸ hpoint)) hs'
    dsimp only
    split_ifs with hok
    · refine ⟨hmade, fun _ _ s hs hs' => ?_⟩
      obtain ⟨-, happly⟩ | ⟨hfail, -⟩ :=
        w.command_cases (.bookmark rel point (anchorName disk point))
      · have hbefore := hmade.points rel s hs (hs' ▸ hpoint)
        subst hs'
        refine ⟨{ s with name := anchorName disk s.name }, ?_, rfl, ?_⟩
        · rw [anchorRefs, if_neg hbpool]
          exact Cmd.mem_bookmarksOf_bookmark happly hbefore
        · rw [w.command_owner]
          exact hkeep.trans (howner s hbefore rfl).symm
      · rw [hfail] at hok
        cases hok
    · refine ⟨hmade.trans (Spares.of_origin_eq rfl rfl), fun hsame _ s hs hs' => ?_⟩
      -- The bookmark was there already, with the snapshot's guid.
      have hsame := (Bool.and_eq_true_iff.mp hsame).2
      rw [sameGuid] at hsame
      obtain ⟨o, ho, hmem⟩ := mem_snapsOf.mp hs
      rw [ho] at hsame
      dsimp only at hsame
      rw [← hs', show o.snaps.get? s.name = some s from Keyed.get?_of_mem hmem] at hsame
      cases hmark : o.bookmarks.get? (anchorName disk s.name) with
      | none =>
          rw [hmark] at hsame
          cases hsame
      | some b =>
          rw [hmark] at hsame
          refine ⟨b, ?_, (of_decide_eq_true hsame).symm, ?_⟩
          · rw [anchorRefs, if_neg hbpool]
            exact mem_bookmarksOf.mpr ⟨o, ho, Keyed.mem_of_get? hmark⟩
          · rw [Keyed.key_of_get? hmark, hs', hkeep]
            exact ((congrFun (congrFun hmade.owner rel) s.guid).trans (howner' s hs hs')).symm

/-- Releasing a point for the drive it names keeps everything. -/
theorem spares_releasePoint (hpoint : isPoint point = true) (hdisk : isGuid disk = true)
    (howner : ∀ s ∈ snapsOf w.origin rel, s.name = point → w.owner rel s.guid = disk) :
    Spares w (releasePoint w rel point disk).2 := by
  obtain ⟨hspares, hanchored⟩ := anchorPoint_spec hpoint hdisk howner
  rw [releasePoint]
  split_ifs with hfail hbpool
  · exact hspares
  · exact hspares
  · rw [Bool.not_eq_true', Bool.not_eq_false] at hfail
    refine hspares.trans (Spares.command ?_ rfl ?_ ?_)
    · rintro _ _ _ ⟨⟩
    · rintro _ ⟨⟩
      exact anchorDisk_of_isPoint hpoint
    · intro after happly s hs htaken hnamed
      have hs' : s.name = point := (Option.some.inj htaken).symm
      obtain ⟨a, ha, hguid, hdisk'⟩ := hanchored hfail (by simpa using hbpool) s hs hs'
      refine ⟨a, ?_, hguid, hdisk'⟩
      rw [anchorRefs, if_neg hbpool] at ha
      rw [anchorRefs, if_neg (show ¬isBpool (Cmd.destroySnap rel point).rel = true from hbpool)]
      exact Cmd.mem_bookmarksOf_apply happly ha fun _ htaken' => by cases htaken'

end Release

/-! ### Destroying points -/

/-- A point may be destroyed: it names no drive, or is anchored for it. -/
def Free (w : World) (p : SnapName) : Prop :=
  isPoint p.2 = true ∧ ∀ s ∈ snapsOf w.origin p.1, s.name = p.2 → NamesDrive w p.1 s →
    IsAnchored w p.1 s

section Destroy

variable {w w' : World}

theorem Spares.free (h : Spares w w') {p : SnapName} (hp : Free w p) : Free w' p := by
  refine ⟨hp.1, fun s hs hname hnamed => ?_⟩
  have hnamed' := h.namesDrive.mp hnamed
  exact h.isAnchored hnamed' (hp.2 s (h.points p.1 s hs hnamed.1) hname hnamed')

theorem spares_destroySnap {p : SnapName} (hp : Free w p) :
    Spares w (w.command (.destroySnap p.1 p.2)).2 := by
  refine Spares.command ?_ rfl ?_ ?_
  · rintro _ _ _ ⟨⟩
  · rintro _ ⟨⟩
    exact anchorDisk_of_isPoint hp.1
  · intro after happly s hs htaken hnamed
    obtain ⟨a, ha, hguid, hdisk⟩ := hp.2 s hs (Option.some.inj htaken).symm hnamed
    refine ⟨a, ?_, hguid, hdisk⟩
    change a ∈ anchorRefs after p.1
    rw [anchorRefs] at ha ⊢
    split_ifs at ha ⊢
    · refine Cmd.mem_snapsOf_apply happly ha fun _ htaken' => ?_
      have hname : p.2 = a.name := Option.some.inj htaken'
      rw [← hname, anchorDisk_of_isPoint hp.1] at hdisk
      exact ne_empty_of_isGuid hnamed.2 hdisk.symm
    · exact Cmd.mem_bookmarksOf_apply happly ha fun _ htaken' => by cases htaken'

/-- What destroying some snapshots of a dataset together does: nothing, or all of them go. -/
theorem destroyTogether_spec (w : World) (rel : Rel) (names : List String) :
    ((w.destroyTogether rel names).2.owner = w.owner ∧
      ∀ r, bookmarksOf (w.destroyTogether rel names).2.origin r = bookmarksOf w.origin r) ∧
    ((w.destroyTogether rel names).1 = true ∧
        (∀ r, r ≠ rel → snapsOf (w.destroyTogether rel names).2.origin r = snapsOf w.origin r) ∧
        snapsOf (w.destroyTogether rel names).2.origin rel = (snapsOf w.origin rel).filter
          (·.name ∉ names) ∨
      (w.destroyTogether rel names).1 = false ∧
      (w.destroyTogether rel names).2.origin = w.origin) := by
  unfold World.destroyTogether
  split
  · exact ⟨⟨rfl, fun _ => rfl⟩, .inr ⟨rfl, rfl⟩⟩
  · split
    · rename_i o ho
      split
      · have hrel : o.rel = rel := Keyed.key_of_get? ho
        have hset :
            (w.origin.set { o with snaps := o.snaps.filter fun s => decide (s.name ∉ names) }).get?
              rel =
            some { o with snaps := o.snaps.filter fun s => decide (s.name ∉ names) } :=
              Keyed.get?_set_of_get? ho hrel
        have hother : ∀ r, r ≠ rel →
            (w.origin.set { o with snaps := o.snaps.filter fun s => decide (s.name ∉ names) }).get?
                r = w.origin.get? r :=
          fun r hr => Keyed.get?_set_of_ne (hrel ▸ hr)
        refine ⟨⟨rfl, fun r => ?_⟩, .inl ⟨rfl, fun r hr => ?_, ?_⟩⟩
        · by_cases hr : r = rel
          · subst hr
            rw [bookmarksOf_of_get? hset, bookmarksOf_of_get? ho]
          · rw [bookmarksOf, hother r hr, bookmarksOf]
        · rw [snapsOf, hother r hr, snapsOf]
        · rw [snapsOf_of_get? hset, snapsOf_of_get? ho]
          rfl
      · exact ⟨⟨rfl, fun _ => rfl⟩, .inr ⟨rfl, rfl⟩⟩
    · exact ⟨⟨rfl, fun _ => rfl⟩, .inr ⟨rfl, rfl⟩⟩

theorem spares_destroyTogether {rel : Rel} {names : List String}
    (hfree : ∀ name ∈ names, Free w (rel, name)) :
    Spares w (w.destroyTogether rel names).2 := by
  obtain ⟨⟨howner, hbookmarks⟩, ⟨-, hother, hsnaps⟩ | ⟨-, horigin⟩⟩ :=
    destroyTogether_spec w rel names
  · have hkeep : ∀ r s, s ∈ snapsOf w.origin r → (r = rel → s.name ∉ names) →
        s ∈ snapsOf (w.destroyTogether rel names).2.origin r := by
      intro r s hs hname
      by_cases hr : r = rel
      · subst hr
        rw [hsnaps, List.mem_filter]
        exact ⟨hs, by simpa using hname rfl⟩
      · rwa [hother r hr]
    have hanchors : ∀ r, ∀ a ∈ anchorRefs w.origin r, anchorDisk a.name ≠ "" →
        a ∈ anchorRefs (w.destroyTogether rel names).2.origin r := by
      intro r a ha hdisk
      rw [anchorRefs] at ha ⊢
      split_ifs at ha ⊢
      · refine hkeep r a ha fun hr hname => hdisk ?_
        exact anchorDisk_of_isPoint (hfree a.name hname).1
      · rwa [hbookmarks]
    refine ⟨howner, fun r s hs _ => ?_, hanchors, fun r s hs hnamed hgone => ?_⟩
    · by_cases hr : r = rel
      · subst hr
        rw [hsnaps] at hs
        exact (List.mem_filter.mp hs).1
      · rwa [hother r hr] at hs
    · obtain ⟨rfl, hname⟩ : r = rel ∧ s.name ∈ names := by
        by_contra hnot
        exact hgone (hkeep r s hs fun hr hname => hnot ⟨hr, hname⟩)
      obtain ⟨a, ha, hguid, hdisk⟩ := (hfree s.name hname).2 s hs rfl hnamed
      refine ⟨a, hanchors r a ha ?_, hguid, by rw [hdisk, howner]⟩
      rw [hdisk]
      exact ne_empty_of_isGuid hnamed.2
  · exact Spares.of_origin_eq horigin howner

theorem mem_groupsOf {rel : Rel} {names : List String} {group : Rel × List String}
    (h : group ∈ groupsOf rel names) :
    group.1 = rel ∧ ∀ name ∈ group.2, name ∈ names := by
  obtain ⟨piece, hpiece, rfl⟩ := List.mem_map.mp h
  exact ⟨rfl, fun name hname => (List.mem_cutInto (by decide)).mp ⟨piece, hpiece, hname⟩⟩

theorem mem_targets_of_group {targets : List SnapName} {group : Rel × List String} {name : String}
    (hgroup : group ∈ (targets.map Prod.fst).reverse.dedup.reverse.flatMap fun rel =>
      groupsOf rel ((targets.filter (·.1 = rel)).map Prod.snd)) (hname : name ∈ group.2) :
      (group.1, name) ∈ targets := by
  obtain ⟨rel, -, hgroup⟩ := List.mem_flatMap.mp hgroup
  obtain ⟨hrel, hsub⟩ := mem_groupsOf hgroup
  obtain ⟨p, hp, rfl⟩ := List.mem_map.mp (hsub name hname)
  obtain ⟨hp, hp'⟩ := List.mem_filter.mp hp
  have hfst : p.1 = rel := of_decide_eq_true hp'
  rw [hrel, ← hfst]
  exact hp

theorem spares_destroySnapshots {targets : List SnapName} (hfree : ∀ p ∈ targets, Free w p) :
    Spares w (destroySnapshots targets w) := by
  have hgroups : ∀ groups : List (Rel × List String),
      (∀ g ∈ groups, ∀ name ∈ g.2, (g.1, name) ∈ targets) →
      ∀ state : List SnapName × World, (∀ p ∈ state.1, p ∈ targets) → Spares w state.2 →
        (∀ p ∈ (groups.foldl destroyGroupOf state).1, p ∈ targets) ∧
        Spares w (groups.foldl destroyGroupOf state).2 := by
    intro groups
    induction groups with
    | nil => exact fun _ _ hsingles h => ⟨hsingles, h⟩
    | cons g groups ih =>
        intro hnames state hsingles h
        have hown := hnames g List.mem_cons_self
        have hadd : ∀ p ∈ state.1 ++ g.2.map (fun name => (g.1, name)), p ∈ targets := by
          intro p hp
          obtain hp | hp := List.mem_append.mp hp
          · exact hsingles p hp
          · obtain ⟨name, hname, rfl⟩ := List.mem_map.mp hp
            exact hown name hname
        have htogether :=
          h.trans (spares_destroyTogether fun name hname =>
            h.free (hfree (g.1, name) (hown name hname)))
        refine ih (fun g' hg' => hnames g' (List.mem_cons_of_mem _ hg')) _ ?_ ?_
        · unfold destroyGroupOf
          dsimp only
          split_ifs
          · exact hadd
          · exact hsingles
          · exact hadd
        · unfold destroyGroupOf
          dsimp only
          split_ifs
          · exact h
          · exact htogether
          · exact htogether
  obtain ⟨hsingles, hgrouped⟩ :=
    hgroups _ (fun g hg name hname => mem_targets_of_group hg hname) ([], w)
      (fun _ h => absurd h List.not_mem_nil) (Spares.refl w)
  exact hgrouped.trans (Spares.foldl _ fun p hp w' hw' =>
    spares_destroySnap ((hgrouped.trans hw').free (hfree p (hsingles p hp))))

end Destroy

/-! ### The removal keeps every anchor it can -/

/-- Every named point of the inventory is in a pool whose points' drives are read, or is anchored
already. -/
def OwnersKnown (listed : Origins) (pools : List String) (w : World) : Prop :=
  ∀ p ∈ leftPoints listed, ∀ s ∈ snapsOf w.origin p.1, s.name = p.2 → NamesDrive w p.1 s →
    p.1.head?.any (· ∈ pools) = true ∨ IsAnchored w p.1 s

theorem isPoint_of_mem_leftPoints {listed : Origins} {p : SnapName} (h : p ∈ leftPoints listed) :
    isPoint p.2 = true := by
  obtain ⟨o, -, hp⟩ := List.mem_flatMap.mp h
  obtain ⟨s, hs, rfl⟩ := List.mem_map.mp hp
  exact (List.mem_filter.mp hs).2

theorem snapshot?_of_mem {origin : Origins} {rel : Rel} {s : Ref} (h : s ∈ snapsOf origin rel) :
    snapshot? origin (rel, s.name) = some s := by
  obtain ⟨o, ho, hs⟩ := mem_snapsOf.mp h
  rw [snapshot?, ho]
  exact Keyed.get?_of_mem hs

theorem pointOwners_of_mem {w : World} {rel : Rel} {s : Ref} (h : s ∈ snapsOf w.origin rel) :
    pointOwners w (rel, s.name) = if isGuid (w.owner rel s.guid) && isPoint s.name then w.owner rel
      s.guid else "" := by
  rw [pointOwners, snapshot?_of_mem h]

section Removal

variable {listed : Origins} {pools : List String} {w : World}

/-- A point whose drive was read carries it as long as it is there. -/
theorem owner_of_readOwner {p : SnapName} (h : readOwner pools w p ≠ "") :
    isGuid (readOwner pools w p) = true ∧ ∀ s ∈ snapsOf w.origin p.1, s.name = p.2 →
    w.owner p.1 s.guid = readOwner pools w p := by
  rw [readOwner] at h ⊢
  split_ifs at h ⊢ with hpool
  · have hguid : isGuid (pointOwners w p) = true := by
      rw [pointOwners] at h ⊢
      cases hsnap : snapshot? w.origin p with
      | none =>
          rw [hsnap] at h
          exact absurd rfl h
      | some s =>
          rw [hsnap] at h
          dsimp only at h ⊢
          split_ifs at h ⊢ with hcond
          · exact (Bool.and_eq_true_iff.mp hcond).1
          · exact absurd rfl h
    refine ⟨hguid, fun s hs hname => ?_⟩
    have howner := pointOwners_of_mem hs
    rw [hname] at howner
    rw [howner] at h ⊢
    split_ifs at h ⊢
    · rfl
    · exact absurd rfl h
  · exact absurd rfl h

/-- A point whose drive was read as none may be destroyed. -/
theorem free_of_ownersKnown (hknown : OwnersKnown listed pools w) {p : SnapName}
    (hp : p ∈ leftPoints listed) (h : readOwner pools w p = "") : Free w p := by
  refine ⟨isPoint_of_mem_leftPoints hp, fun s hs hname hnamed => ?_⟩
  obtain hpool | hanchored := hknown p hp s hs hname hnamed
  · have howner := pointOwners_of_mem hs
    rw [hname, hnamed.2, ← hname, hnamed.1, Bool.and_self, if_pos rfl] at howner
    rw [readOwner, if_pos hpool, show p = (p.1, s.name) by rw [hname], howner] at h
    exact absurd h (ne_empty_of_isGuid hnamed.2)
  · exact hanchored

theorem spares_removePoints (hknown : OwnersKnown listed pools w) {w' : World} (hw : Spares w w') :
    Spares w (removePoints (leftPoints listed) (readOwner pools w) w') := by
  have hreleased : Spares w' (((leftPoints listed).filter (readOwner pools w · ≠ "")).foldl
      (fun w'' p => (releasePoint w'' p.1 p.2 (readOwner pools w p)).2) w') := by
    refine Spares.foldl w' fun p hp w'' hw'' => ?_
    obtain ⟨hp, hne⟩ := List.mem_filter.mp hp
    obtain ⟨hguid, howner⟩ := owner_of_readOwner (of_decide_eq_true hne)
    have hpoint := isPoint_of_mem_leftPoints hp
    refine spares_releasePoint hpoint hguid fun s hs hname => ?_
    rw [(hw.trans hw'').owner]
    exact howner s ((hw.trans hw'').points p.1 s hs (hname ▸ hpoint)) hname
  have hall := hw.trans hreleased
  refine hall.trans (spares_destroySnapshots fun p hp => hall.free ?_)
  obtain ⟨hp, hnone⟩ := List.mem_filter.mp hp
  exact free_of_ownersKnown hknown hp (of_decide_eq_true hnone)

end Removal

/-! ### Without failures the points go -/

namespace World

theorem Sound.command {w : World} (h : w.Sound) (c : Cmd) : (w.command c).2.Sound := by
  have hfaults : (w.command c).2.faults = w.faults.tail := by
    unfold World.command
    split
    · rfl
    · split <;> rfl
  intro fault hfault
  rw [hfaults] at hfault
  exact sound_tail h fault hfault

theorem Sound.destroyTogether {w : World} (h : w.Sound) (rel : Rel) (names : List String) :
    (w.destroyTogether rel names).2.Sound := by
  have hfaults : (w.destroyTogether rel names).2.faults = w.faults.tail := by
    unfold World.destroyTogether
    split
    · rfl
    · split
      · split <;> rfl
      · rfl
  intro fault hfault
  rw [hfaults] at hfault
  exact sound_tail h fault hfault

end World

/-- Releasing a point touches its own dataset only, and fails no later command. -/
theorem releasePoint_frame {w : World} (h : w.Sound) (rel : Rel) (point owner : String) :
    (releasePoint w rel point owner).2.Sound ∧ (releasePoint w rel point owner).2.owner = w.owner ∧
      ∀ r, r ≠ rel → (releasePoint w rel point owner).2.origin.get? r = w.origin.get? r := by
  have hanchor : (anchorPoint w rel point owner).2.Sound ∧
      (anchorPoint w rel point owner).2.owner = w.owner ∧
      ∀ r, r ≠ rel → (anchorPoint w rel point owner).2.origin.get? r = w.origin.get? r := by
    rw [anchorPoint]
    dsimp only
    split_ifs
    · exact ⟨h.command _, w.command_owner _, fun r hr => w.command_get?_of_ne hr⟩
    · exact ⟨h.command _, w.command_owner _, fun r hr => w.command_get?_of_ne hr⟩
    · exact ⟨(World.read_of_sound (h.command _)).2, w.command_owner _, fun r hr =>
        w.command_get?_of_ne hr⟩
  obtain ⟨hsound, howner, hother⟩ := hanchor
  rw [releasePoint]
  split_ifs
  · exact ⟨hsound, howner, hother⟩
  · exact ⟨hsound, howner, hother⟩
  · exact ⟨hsound.command _, (World.command_owner _ _).trans howner,
      fun r hr => (World.command_get?_of_ne _ hr).trans (hother r hr)⟩

/-- Only snapshots go. -/
structure OnlyDestroys (w w' : World) : Prop where
  owner : w'.owner = w.owner
  snaps : ∀ rel, ∀ s ∈ snapsOf w'.origin rel, s ∈ snapsOf w.origin rel
  bookmarks : ∀ rel, ∀ b ∈ bookmarksOf w'.origin rel, b ∈ bookmarksOf w.origin rel
  sound : w'.Sound

namespace OnlyDestroys

variable {w w' w'' : World}

theorem refl (h : w.Sound) : OnlyDestroys w w := ⟨rfl, fun _ _ h => h, fun _ _ h => h, h⟩

theorem trans (h : OnlyDestroys w w') (h' : OnlyDestroys w' w'') : OnlyDestroys w w'' where
  owner := h'.owner.trans h.owner
  snaps rel s hs := h.snaps rel s (h'.snaps rel s hs)
  bookmarks rel b hb := h.bookmarks rel b (h'.bookmarks rel b hb)
  sound := h'.sound

theorem of_isAnchored (h : OnlyDestroys w w') {rel : Rel} {s : Ref} (hs : IsAnchored w' rel s) :
    IsAnchored w rel s := by
  obtain ⟨a, ha, hguid, hdisk⟩ := hs
  refine ⟨a, ?_, hguid, by rw [hdisk, h.owner]⟩
  rw [anchorRefs] at ha ⊢
  split_ifs at ha ⊢
  · exact h.snaps rel a ha
  · exact h.bookmarks rel a ha

theorem destroySnap (h : w.Sound) (p : SnapName) :
    OnlyDestroys w (w.command (.destroySnap p.1 p.2)).2 ∧
      ∀ s ∈ snapsOf (w.command (.destroySnap p.1 p.2)).2.origin p.1, s.name ≠ p.2 := by
  obtain ⟨-, happly⟩ | ⟨hfail, horigin⟩ := w.command_cases (.destroySnap p.1 p.2)
  · refine ⟨⟨w.command_owner _, fun rel s hs => ?_, fun rel b hb => ?_, h.command _⟩,
      fun s hs => ?_⟩
    · exact (Cmd.of_mem_snapsOf_apply happly hs).resolve_right fun ⟨_, _, hc, _⟩ => by cases hc
    · exact (Cmd.of_mem_bookmarksOf_apply happly hb).resolve_right fun ⟨_, _, hc, _⟩ => by cases hc
    · obtain ⟨o, o', -, heffect, hafter, -⟩ := Cmd.apply_spec happly
      rw [snapsOf_of_get? (show Keyed.get? _ p.1 = some o' from hafter)] at hs
      cases heffect with
      | destroySnap hname => simpa using (List.mem_filter.mp hs).2
  · refine ⟨⟨w.command_owner _, fun rel s hs => horigin ▸ hs, fun rel b hb =>
      horigin ▸ hb, h.command _⟩, fun s hs hname => ?_⟩
    -- A snapshot that is there would have been destroyed.
    rw [horigin] at hs
    obtain ⟨o, ho, hmem⟩ := mem_snapsOf.mp hs
    have happly : (Cmd.destroySnap p.1 p.2).apply w.origin =
        some (w.origin.set { o with snaps := o.snaps.filter fun s => decide (s.name ≠ p.2) }) := by
      have hkey : p.2 ∈ o.snaps.keys := hname ▸ Keyed.key_mem_keys hmem
      rw [Cmd.apply, Cmd.rel, ho, Option.bind_some, Cmd.onDataset, if_pos hkey]
      rfl
    rw [World.command_of_sound h happly] at hfail
    cases hfail

theorem destroyTogether (h : w.Sound) (rel : Rel) (names : List String) :
    OnlyDestroys w (w.destroyTogether rel names).2 ∧ ((w.destroyTogether rel names).1 = true →
      ∀ s ∈ snapsOf (w.destroyTogether rel names).2.origin rel, s.name ∉ names) := by
  obtain ⟨⟨howner, hbookmarks⟩, ⟨hok, hother, hsnaps⟩ | ⟨hfail, horigin⟩⟩ :=
    destroyTogether_spec w rel names
  · refine ⟨⟨howner, fun r s hs => ?_, fun r b hb => hbookmarks r ▸ hb,
      h.destroyTogether rel names⟩, fun _ s hs => ?_⟩
    · by_cases hr : r = rel
      · subst hr
        rw [hsnaps] at hs
        exact (List.mem_filter.mp hs).1
      · rwa [hother r hr] at hs
    · rw [hsnaps] at hs
      simpa using (List.mem_filter.mp hs).2
  · exact ⟨⟨howner, fun _ _ hs => horigin ▸ hs, fun _ _ hb => horigin ▸ hb,
      h.destroyTogether rel names⟩, fun hok => by rw [hfail] at hok; cases hok⟩

theorem destroySnapshots (h : w.Sound) (targets : List SnapName) :
    OnlyDestroys w (destroySnapshots targets w) ∧
      ∀ p ∈ targets, ∀ s ∈ snapsOf (Zark.destroySnapshots targets w).origin p.1, s.name ≠ p.2 := by
  have hgroups : ∀ (groups : List (Rel × List String)) (state : List SnapName × World),
      OnlyDestroys w state.2 →
      OnlyDestroys state.2 (groups.foldl destroyGroupOf state).2 ∧
        state.1 ⊆ (groups.foldl destroyGroupOf state).1 ∧
        ∀ g ∈ groups, ∀ name ∈ g.2, (g.1, name) ∈ (groups.foldl destroyGroupOf state).1 ∨
          ∀ s ∈ snapsOf (groups.foldl destroyGroupOf state).2.origin g.1, s.name ≠ name := by
    intro groups
    induction groups with
    | nil =>
        exact fun state hstate => ⟨refl hstate.sound, fun _ h => h, fun _ h =>
          absurd h List.not_mem_nil⟩
    | cons g groups ih =>
        intro state hstate
        have hstep : OnlyDestroys state.2 (destroyGroupOf state g).2 ∧
            state.1 ⊆ (destroyGroupOf state g).1 ∧
            ∀ name ∈ g.2, (g.1, name) ∈ (destroyGroupOf state g).1 ∨
              ∀ s ∈ snapsOf (destroyGroupOf state g).2.origin g.1, s.name ≠ name := by
          obtain ⟨honly, hgone⟩ := destroyTogether hstate.sound g.1 g.2
          unfold destroyGroupOf
          dsimp only
          split_ifs with hone hok
          · exact ⟨refl hstate.sound, List.subset_append_left _ _, fun name hname =>
              .inl (List.mem_append_right _ (List.mem_map_of_mem hname))⟩
          · exact ⟨honly, fun _ h => h, fun name hname => .inr fun s hs heq =>
              hgone hok s hs (heq ▸ hname)⟩
          · exact ⟨honly, List.subset_append_left _ _, fun name hname =>
              .inl (List.mem_append_right _ (List.mem_map_of_mem hname))⟩
        obtain ⟨hone, hsingles, hfirst⟩ := hstep
        obtain ⟨hrest, hmore, hlater⟩ := ih _ (hstate.trans hone)
        refine ⟨hone.trans hrest, fun x hx => hmore (hsingles hx), fun g' hg' name hname => ?_⟩
        obtain rfl | hg' := List.mem_cons.mp hg'
        · exact (hfirst name hname).imp (fun h => hmore h) fun h s hs => h s (hrest.snaps g'.1 s hs)
        · exact hlater g' hg' name hname
  have hsingles : ∀ (singles : List SnapName) (w' : World), w'.Sound →
      OnlyDestroys w' (singles.foldl (fun w p => (w.command (.destroySnap p.1 p.2)).2) w') ∧
        ∀ p ∈ singles,
        ∀ s ∈ snapsOf (singles.foldl (fun w p => (w.command (.destroySnap p.1 p.2)).2) w').origin p.1, s.name ≠ p.2 := by
    intro singles
    induction singles with
    | nil => exact fun w' h' => ⟨refl h', fun _ h => absurd h List.not_mem_nil⟩
    | cons p singles ih =>
        intro w' h'
        obtain ⟨hone, hfirst⟩ := destroySnap h' p
        obtain ⟨hrest, hlater⟩ := ih _ hone.sound
        refine ⟨hone.trans hrest, fun q hq s hs => ?_⟩
        obtain rfl | hq := List.mem_cons.mp hq
        · exact hfirst s (hrest.snaps q.1 s hs)
        · exact hlater q hq s hs
  obtain ⟨hgrouped, -, hgone⟩ :=
    hgroups ((targets.map Prod.fst).reverse.dedup.reverse.flatMap fun rel =>
      groupsOf rel ((targets.filter (·.1 = rel)).map Prod.snd)) ([], w) (refl h)
  obtain ⟨hlast, hgone'⟩ := hsingles _ _ hgrouped.sound
  refine ⟨hgrouped.trans hlast, fun p hp s hs => ?_⟩
  have hname : p.2 ∈ (targets.filter (·.1 = p.1)).map Prod.snd :=
    List.mem_map_of_mem (List.mem_filter.mpr ⟨hp, decide_eq_true rfl⟩)
  obtain ⟨piece, hpiece, hmem⟩ := (List.mem_cutInto (show 0 < destroyGroup by decide)).mpr hname
  have hrel : p.1 ∈ (targets.map Prod.fst).reverse.dedup.reverse := by
    rw [List.mem_reverse, List.mem_dedup, List.mem_reverse]
    exact List.mem_map_of_mem hp
  obtain hsingle | hgone :=
    hgone (p.1, piece) (List.mem_flatMap.mpr ⟨p.1, hrel, List.mem_map_of_mem hpiece⟩) p.2 hmem
  · exact hgone' p hsingle s hs
  · exact hgone s (hlast.snaps p.1 s hs)

end OnlyDestroys

/-! ### The readings -/

theorem exists_faults_sourcePools (w : World) :
    ∃ fs, ∀ later, sourcePools { w with faults := fs ++ later }
      = ((sourcePools w).1, { w with faults := later }) := by
  refine ⟨[!w.read.1, !w.read.2.read.1], fun later => ?_⟩
  have hread : ∀ (w : World) later, World.read { w with faults := (!w.read.1) :: later }
      = (w.read.1, { w with faults := later }) :=
    fun w later => by simp [World.read]
  have hsecond : World.read { w with faults := (!w.read.2.read.1) :: later }
      = (w.read.2.read.1, { w with faults := later }) :=
    hread w.read.2 later
  simp only [sourcePools, List.foldl_cons, List.foldl_nil, List.cons_append, List.nil_append,
    hread, hsecond]
  rfl

theorem exists_faults_readPools (pools : List String) (w : World) :
    ∃ fs, ∀ later, readPools pools { w with faults := fs ++ later }
      = ((readPools pools w).1, { w with faults := later }) := by
  induction pools generalizing w with
  | nil => exact ⟨[], fun _ => rfl⟩
  | cons pool pools ih =>
      obtain ⟨fs, hfs⟩ := ih w.read.2
      cases hread : w.read.1 with
      | true =>
          refine ⟨false :: fs, fun later => ?_⟩
          have hlater := hfs later
          simp only [readPools, hread, if_true]
          exact hlater
      | false =>
          refine ⟨[true], fun later => ?_⟩
          rw [readPools, if_neg (by simp [World.read]), readPools, hread, if_neg (by decide)]
          rfl

theorem sourcePools_frame (w : World) : ∃ later, (sourcePools w).2 = { w with faults := later } :=
  ⟨_, rfl⟩

theorem exists_faults_knownPools (w : World) :
    ∃ fs, ∀ later, knownPools { w with faults := fs ++ later }
      = ((knownPools w).1, { w with faults := later }) := by
  obtain ⟨fs, hfs⟩ := exists_faults_sourcePools w
  obtain ⟨fs', hfs'⟩ := exists_faults_readPools (sourcePools w).1 (sourcePools w).2
  obtain ⟨rest, hrest⟩ := sourcePools_frame w
  refine ⟨fs ++ fs', fun later => ?_⟩
  have hread := hfs' later
  rw [hrest] at hread
  rw [knownPools, List.append_assoc, hfs]
  dsimp only
  rw [hread, knownPools, hrest]

theorem knownPools_frame (w : World) :
    (knownPools w).2.origin = w.origin ∧ (knownPools w).2.owner = w.owner := by
  have hread : ∀ pools w, (readPools pools w).2.origin = w.origin ∧
      (readPools pools w).2.owner = w.owner := by
    intro pools
    induction pools with
    | nil => exact fun _ => ⟨rfl, rfl⟩
    | cons pool pools ih =>
        intro w
        rw [readPools]
        split_ifs
        · exact ih w.read.2
        · exact ⟨rfl, rfl⟩
  exact hread _ _

/-! ### The removal of the points -/

/-- Whatever commands fail, every point that goes and names a drive is anchored for it: exactly when
nothing is confirmed, or the drives of the inventory's points were read where they are not anchored
already. -/
theorem prunePoints_anchors_iff (listed : Origins) (typed : Bool) (w : World) :
    (∀ faults, (knownPools { w with faults }).1 = (knownPools w).1 →
      AnchoredIfGone w (prunePoints listed typed { w with faults })) ↔
      typed = false ∨ OwnersKnown listed (knownPools w).1 w := by
  constructor
  · intro h
    by_contra hnot
    obtain ⟨htyped, hunknown⟩ := not_or.mp hnot
    rw [Bool.not_eq_false] at htyped
    simp only [OwnersKnown, not_forall, not_or] at hunknown
    obtain ⟨p, hp, s, hs, hname, hnamed, hpool, hanchored⟩ := hunknown
    obtain ⟨fs, hfs⟩ := exists_faults_knownPools w
    have hreading := hfs []
    have hgone := h (fs ++ []) (by rw [hreading])
    rw [prunePoints, hreading, htyped] at hgone
    dsimp only at hgone
    rw [if_pos rfl, removePoints] at hgone
    -- The point's pool was not read, so only points of other datasets are released.
    have howner : readOwner (knownPools w).1 w p = "" := by
      rw [readOwner, if_neg hpool]
    have hreleased : ∀ (l : List SnapName), (∀ q ∈ l, readOwner (knownPools w).1 w q ≠ "") →
        ∀ w' : World, w'.Sound →
        w'.owner = w.owner → w'.origin.get? p.1 = w.origin.get? p.1 →
        (l.foldl (fun w' q => (releasePoint w' q.1 q.2 (readOwner (knownPools w).1 w q)).2)
          w').Sound ∧
        (l.foldl (fun w' q => (releasePoint w' q.1 q.2 (readOwner (knownPools w).1 w q)).2)
          w').owner = w.owner ∧
        (l.foldl (fun w' q => (releasePoint w' q.1 q.2 (readOwner (knownPools w).1 w q)).2)
            w').origin.get? p.1 = w.origin.get? p.1 := by
      intro l
      induction l with
      | nil => exact fun _ w' hsound howner' horigin => ⟨hsound, howner', horigin⟩
      | cons q l ih =>
          intro hl w' hsound howner' horigin
          have hne : p.1 ≠ q.1 := by
            intro heq
            refine hl q List.mem_cons_self ?_
            rw [readOwner, ← heq, if_neg hpool]
          obtain ⟨hsound', howner'', hother⟩ :=
            releasePoint_frame hsound q.1 q.2 (readOwner (knownPools w).1 w q)
          exact ih (fun x hx => hl x (List.mem_cons_of_mem _ hx)) _ hsound' (howner''.trans howner')
            ((hother p.1 hne).trans horigin)
    obtain ⟨hsound, howner', horigin⟩ :=
      hreleased ((leftPoints listed).filter (readOwner (knownPools w).1 w · ≠ ""))
        (fun q hq => of_decide_eq_true (List.mem_filter.mp hq).2) { w with faults := [] }
          (fun _ h => absurd h List.not_mem_nil) rfl rfl
    obtain ⟨honly, htargets⟩ :=
      OnlyDestroys.destroySnapshots hsound
        ((leftPoints listed).filter (readOwner (knownPools w).1 w · = ""))
    have hmissing :=
      fun hmem => htargets p (List.mem_filter.mpr ⟨hp, decide_eq_true howner⟩) s hmem hname
    obtain ⟨a, ha, hguid, hdisk⟩ := honly.of_isAnchored (hgone p.1 s hs hnamed hmissing)
    refine hanchored ⟨a, ?_, hguid, by rw [hdisk, howner']⟩
    rw [anchorRefs, snapsOf, bookmarksOf, horigin] at ha
    exact ha
  · intro hknown faults hpools
    obtain ⟨horigin, howner⟩ := knownPools_frame { w with faults }
    have hread : Spares w (knownPools { w with faults }).2 := Spares.of_origin_eq horigin howner
    rw [prunePoints]
    split_ifs with htyped
    · rw [hpools]
      obtain htyped' | hknown := hknown
      · rw [htyped'] at htyped
        cases htyped
      · exact (spares_removePoints hknown hread).gone
    · exact hread.gone

/-- A point of drive 42 left in origin; the listing of rpool's points fails. -/
def unreadWorld : World where
  origin :=
    ⟨[{ rel := ["rpool"] },
      { rel := ["rpool", "data"],
        snaps := ⟨[⟨"zark_2026-03-01_00:00:00Z", "g1", 5, 100⟩], by decide⟩ }], by decide⟩
  drive := ∅
  owner _ guid := if guid = "g1" then "42" else ""
  faults := [false, false, true]

/-- The point goes without an anchor of its drive. -/
theorem prunePoints_drops_named :
    ¬AnchoredIfGone unreadWorld (prunePoints unreadWorld.origin true unreadWorld) := by
  intro h
  have hanchored :=
    h ["rpool", "data"] ⟨"zark_2026-03-01_00:00:00Z", "g1", 5, 100⟩ (by decide)
      ⟨by decide, by decide⟩ (by decide)
  obtain ⟨a, ha, -⟩ := hanchored
  have hnone : anchorRefs (prunePoints unreadWorld.origin true unreadWorld).origin ["rpool", "data"]
      = [] := by decide
  rw [hnone] at ha
  exact absurd ha List.not_mem_nil

end Zark
