import Zark.Proof.Ending

/-!
# A run costs no drive its base

However a run ends, every dataset whose newest snapshot on the drive origin holds by guid is still
held by that guid; no anchor of another drive goes; and a point that names another drive goes only
where that drive is anchored.
-/

namespace Zark

open World

/-- Either ending of a run. -/
inductive Ends (run : Run) (w : World) : World → Prop
  | finished (plans : List DatasetPlan) : Ends run w (finish run plans w)
  | undone : Ends run w (undoPoint run w)

/-! ### The drive's base -/

section Base

variable {run : Run} {w : World} {rel : Rel} {guid : String}

theorem keep_ne_point (h : isPoint run.point = true) : run.keep ≠ run.point := by
  intro heq
  have hkeep : isPoint run.keep = false := isPoint_anchorName run.disk h
  rw [heq, h] at hkeep
  cases hkeep

theorem ownPoint_of_mem {s : Ref} (hs : s ∈ snapsOf run.origin rel) (hname : s.name = run.point) :
    run.ownPoint rel = some s := by
  cases ho : run.origin.get? rel with
  | none =>
      rw [snapsOf, ho] at hs
      cases hs
  | some o =>
      rw [snapsOf_of_get? ho] at hs
      rw [Run.ownPoint, snapshot?, ho, Option.bind_some, ← hname]
      exact Keyed.get?_of_mem hs

/-- Without the run's anchor verified, nothing goes that has a guid the drive holds. -/
theorem not_drop_of_unverified {c : Check} {o : Origin} (hwanted : c.wanted run o.rel = true)
    (hverified : c.verified run o = false) :
    (∀ s : Ref, s.guid ∈ c.onBackup o.rel → (c.pointVerdict run o s).drop = false) ∧
      ∀ name, (c.anchorVerdict run o name).drop = false := by
  refine ⟨fun s hs => ?_, fun name => ?_⟩
  · have hheld : (c.onBackup o.rel).contains s.guid = true := List.contains_iff_mem.mpr hs
    unfold Check.pointVerdict
    dsimp only
    rw [if_neg (by simp [hwanted])]
    split
    · rfl
    · rw [if_neg fun h => h.2 hheld, if_neg (by simp [hverified])]
  · unfold Check.anchorVerdict
    dsimp only
    rw [if_neg (by simp [hwanted]), if_neg (by simp [hverified])]

/-- What the check lets go of a dataset never costs it the drive's newest snapshot: either the run's
anchor has its guid, or nothing that has it goes. -/
theorem hasGuid_drop (hpoint : isPoint run.point = true) (hmarks : MarksNewest run w.drive w.origin)
    (hrel : rel ∈ expected w.origin run.exclusions)
    (hnewest : (guidsOf w.drive rel).getLast? = some guid) (hguid : HasGuid w.origin rel guid) :
    HasGuid (drop (dropCheck run w).1 (dropCheck run w).2).origin rel guid := by
  obtain ⟨o, ho, -⟩ := mem_expected.mp hrel
  obtain rfl : o.rel = rel := Keyed.key_of_get? ho
  have hsteps := steps_drop (dropCheck run w).1 (dropCheck run w).2
  have hon : guid ∈ guidsOf w.drive o.rel := List.mem_of_getLast? hnewest
  have horigin := dropCheck_origin run w
  have hkeep : isPoint run.keep = false := isPoint_anchorName run.disk hpoint
  cases hverified : w.check.verified run o with
  | true =>
      obtain ⟨anchor, hanchor, hheld⟩ := Option.any_eq_true _ _ |>.mp hverified
      obtain ⟨hmem, hname⟩ := Keyed.get?_eq_some_iff.mp hanchor
      have hheld : anchor.guid ∈ guidsOf w.drive o.rel := List.contains_iff_mem.mp hheld
      have htaken : ∀ c, (∃ v ∈ (dropCheck run w).1, Drops v c) →
          c.snapTaken ≠ some anchor.name ∧ c.bookmarkTaken ≠ some anchor.name := by
        intro c ⟨v, hv, hc⟩
        rw [hname]
        refine ⟨fun htaken => ?_, fun htaken => ?_⟩
        · rcases name_of_drops hv hc (.inl htaken) with h | ⟨-, h⟩
          · rw [hkeep] at h
            cases h
          · exact h rfl
        · rcases name_of_drops hv hc (.inr htaken) with h | ⟨-, h⟩
          · rw [hkeep] at h
            cases h
          · exact h rfl
      by_cases hpool : isBpool o.rel = true
      · rw [Check.anchors, if_pos hpool] at hmem
        have hsnap : anchor ∈ snapsOf w.origin o.rel := snapsOf_of_get? ho ▸ hmem
        have hlast := hmarks o.rel anchor hheld (.inl ⟨hsnap, .inr hname⟩)
        obtain rfl : anchor.guid = guid := Option.some.inj (hlast.symm.trans hnewest)
        exact .inl ⟨anchor, hsteps.mem_snapsOf (horigin ▸ hsnap) fun c hc _ => (htaken c hc).1, rfl⟩
      · rw [Check.anchors, if_neg hpool] at hmem
        have hbookmark : anchor ∈ bookmarksOf w.origin o.rel := bookmarksOf_of_get? ho ▸ hmem
        have hlast := hmarks o.rel anchor hheld (.inr ⟨hbookmark, hname⟩)
        obtain rfl : anchor.guid = guid := Option.some.inj (hlast.symm.trans hnewest)
        exact .inr ⟨by simpa using hpool, anchor,
          hsteps.mem_bookmarksOf (horigin ▸ hbookmark) fun c hc _ => (htaken c hc).2, rfl⟩
  | false =>
      obtain ⟨hpoints, hanchors⟩ :=
        not_drop_of_unverified (decide_eq_true hrel : w.check.wanted run o.rel = true) hverified
      rcases hguid with ⟨s, hs, rfl⟩ | ⟨hpool, b, hb, rfl⟩
      · refine .inl ⟨s, hsteps.mem_snapsOf (horigin ▸ hs) ?_, rfl⟩
        intro c ⟨v, hv, hc⟩ hcrel htaken
        obtain ⟨d, hd, hverdict⟩ := verdict_of_snap hv (hc.2.1 s.name htaken)
        rw [hcrel, ho] at hd
        obtain rfl := Option.some.inj hd
        have hdrop := hc.1
        rcases hverdict with ⟨t, ht, hname, -, rfl⟩ | ⟨-, -, rfl⟩
        · obtain rfl : t = s := eq_of_name (snapsOf_of_get? ho ▸ ht) hs hname
          rw [hpoints t hon] at hdrop
          cases hdrop
        · rw [hanchors] at hdrop
          cases hdrop
      · refine .inr ⟨hpool, b, hsteps.mem_bookmarksOf (horigin ▸ hb) ?_, rfl⟩
        intro c ⟨v, hv, hc⟩ hcrel htaken
        obtain ⟨d, hd, -, -, rfl⟩ := verdict_of_bookmark hv (hc.2.2 b.name htaken)
        rw [hcrel, ho] at hd
        obtain rfl := Option.some.inj hd
        have hdrop := hc.1
        rw [hanchors] at hdrop
        cases hdrop

theorem hasGuid_finish (plans : List DatasetPlan) (h : Ready run w)
    (hrel : rel ∈ expected w.origin run.exclusions)
    (hnewest : (guidsOf w.drive rel).getLast? = some guid) (hguid : HasGuid w.origin rel guid) :
    HasGuid (finish run plans w).origin rel guid := by
  unfold finish
  dsimp only
  generalize (plans.filter fun p => p.state = .atPoint).map DatasetPlan.rel = rels
  have hanchor := steps_anchor run rels w
  have hheld := steps_anchorHeld run (anchor run rels w).2
  have hdrive : (anchorHeld run (anchor run rels w).2).2.drive = w.drive :=
    hheld.frame.1.trans hanchor.frame.1
  have hmarks : MarksNewest run (anchor run rels w).2.drive (anchor run rels w).2.origin := by
    rw [hanchor.frame.1]
    exact marksNewest_anchor hanchor (marksNewest_of_ready h)
  apply hasGuid_drop h.point
  · rw [hheld.frame.1]
    exact marksNewest_anchorHeld hheld hmarks
  · exact hheld.mem_expected (hanchor.mem_expected hrel)
  · rwa [hdrive]
  · exact hheld.hasGuid (fun c hc => .inl hc.moves) (hanchor.hasGuid (fun c hc => hc.moves) hguid)

/-- The last loop of `undo_point` takes the drive's newest snapshot of a dataset only where the guid
is on a bookmark. -/
theorem hasGuid_undoEach {gone kept : List Rel} (hguid : HasGuid w.origin rel guid)
    (hpoint : ∀ s ∈ snapsOf w.origin rel, s.name = run.point → s.guid = guid → rel ∈ run.expected →
      rel ∉ gone → rel ∉ kept → isBpool rel = false ∧ ∃ b ∈ bookmarksOf w.origin rel,
      b.guid = guid) :
    HasGuid (undoEach run gone kept w).origin rel guid := by
  have hsteps := steps_undoEach run gone kept w
  have hbookmark : ∀ b ∈ bookmarksOf w.origin rel,
      b ∈ bookmarksOf (undoEach run gone kept w).origin rel := by
    intro b hb
    refine hsteps.mem_bookmarksOf hb fun c ⟨r, _, _, _, hc⟩ _ => ?_
    subst hc
    exact nofun
  rcases hguid with ⟨s, hs, hguid⟩ | ⟨hpool, b, hb, hguid⟩
  · by_cases htaken : s.name = run.point ∧ rel ∈ run.expected ∧ rel ∉ gone ∧ rel ∉ kept
    · obtain ⟨hname, hexpected, hgone, hkept⟩ := htaken
      obtain ⟨hpool, b, hb, hguid⟩ := hpoint s hs hname hguid hexpected hgone hkept
      exact .inr ⟨hpool, b, hbookmark b hb, hguid⟩
    · refine .inl ⟨s, hsteps.mem_snapsOf hs fun c ⟨r, hexpected, hgone, hkept, hc⟩ hrel hname => ?_,
        hguid⟩
      subst hc
      obtain rfl : r = rel := hrel
      exact htaken ⟨(Option.some.inj hname).symm, hexpected, hgone, hkept⟩
  · exact .inr ⟨hpool, b, hbookmark b hb, hguid⟩

theorem hasGuid_undoPoint (h : Ready run w) (hnewest : (guidsOf w.drive rel).getLast? = some guid)
    (hguid : HasGuid w.origin rel guid) : HasGuid (undoPoint run w).origin rel guid := by
  have hon : guid ∈ guidsOf w.drive rel := List.mem_of_getLast? hnewest
  unfold undoPoint
  dsimp only
  split
  · generalize hrels : run.atPoint w.read.2.drive = rels
    have hanchor := steps_anchor run rels w.read.2
    have hheld := steps_anchorHeld run (anchor run rels w.read.2).2
    apply hasGuid_undoEach
    · exact hheld.hasGuid (fun c hc => .inl hc.moves) (hanchor.hasGuid (fun c hc => hc.moves) hguid)
    · intro s hs hname hsguid hexpected hgone hkept
      rw [List.mem_append, not_or] at hkept
      -- The point was there before, read by the run, and its dataset has nothing to resume.
      have hmid : s ∈ snapsOf (anchor run rels w.read.2).2.origin rel :=
        hheld.of_mem_snapsOf (fun c hc old heq => by
          obtain ⟨_, _, _, rfl⟩ := hc.moves
          cases heq) hs
      have hbefore : s ∈ snapsOf w.origin rel := hanchor.of_mem_snapsOf (fun c hc old heq => by
          obtain ⟨r, -, hc⟩ := hc
          rcases hc.cases.2 with rfl | rfl
          · exact keep_ne_point h.point ((Cmd.rename.inj heq).2.2.trans hname)
          · cases heq) hmid
      obtain ⟨hlands, hread⟩ := h.held rel s hbefore hname
      rw [hsguid] at hlands hread
      obtain ⟨-, hown⟩ := hread hon
      obtain ⟨-, htoken⟩ := hlands hon
      obtain ⟨d, hd, x, hx, hxguid⟩ := mem_guidsOf.mp hon
      have hat : rel ∈ rels := by
        rw [← hrels, Run.atPoint, List.mem_filter]
        refine ⟨hexpected, ?_⟩
        have hpoint : run.ownPoint rel = some s := ownPoint_of_mem hown hname
        have hany : (d.snaps.items.any fun t => t.guid = s.guid) = true :=
          List.any_eq_true.mpr ⟨x, hx, by simp [hxguid, hsguid]⟩
        show (Option.any _ (w.drive.get? rel)) = true
        rw [hd, Option.any_some, htoken d hd, hpoint, Option.any_some, hany]
        rfl
      have hpool : isBpool rel = false := by
        by_contra hpool
        exact hgone (List.mem_filter.mpr ⟨hat, by simp [hpool, hkept.2]⟩)
      obtain ⟨o, ho, -⟩ := mem_expected.mp hexpected
      have hkey : rel ∈ run.origin.keys := Keyed.get?_isSome_iff.mp (by rw [ho]; rfl)
      obtain ⟨b, hb, -, hbguid⟩ := marked_anchor hat hkey hkept.2 hpool hbefore hname
      rw [hpool] at hb
      refine ⟨hpool, b, hheld.mem_bookmarksOf hb (fun c hc _ => ?_), hbguid.trans hsguid⟩
      obtain ⟨_, _, _, rfl⟩ := hc.moves
      exact nofun
  · have hguid : HasGuid w.read.2.origin rel guid := hguid
    refine hasGuid_undoEach hguid fun s hs hname hsguid _ _ hkept => ?_
    exact absurd ((h.held rel s hs hname).2 (hsguid ▸ hon)).1 hkept

end Base

/-! ### Other drives -/

section Others

variable {run : Run} {w after : World} {rel : Rel}

/-- A command that takes nothing away but the run's point. -/
def TakesPoint (run : Run) (c : Cmd) : Prop :=
  ∀ name, c.snapTaken = some name ∨ c.bookmarkTaken = some name → name = run.point

theorem takesPoint_anchor (run : Run) (rels : List Rel) (w : World) :
    Steps (TakesPoint run) w (anchor run rels w).2 := by
  refine (steps_anchor run rels w).mono fun c ⟨r, _, hc⟩ name hname => ?_
  rcases hc.cases.2 with rfl | rfl
  · rcases hname with hname | hname
    · exact (Option.some.inj hname).symm
    · cases hname
  · rcases hname with hname | hname <;> cases hname

theorem takesPoint_anchorHeld (run : Run) (w : World) :
    Steps (TakesPoint run) w (anchorHeld run w).2 := by
  refine (steps_anchorHeld run w).mono fun c hc name hname => ?_
  obtain ⟨_, _, _, rfl⟩ := hc.moves
  rcases hname with hname | hname <;> cases hname

theorem takesPoint_undoEach (run : Run) (gone kept : List Rel) (w : World) :
    Steps (TakesPoint run) w (undoEach run gone kept w) := by
  refine (steps_undoEach run gone kept w).mono fun c ⟨r, _, _, _, hc⟩ name hname => ?_
  subst hc
  rcases hname with hname | hname
  · exact (Option.some.inj hname).symm
  · cases hname

/-- An ending takes nothing but the run's point before it drops what a check let go, if it does. -/
theorem Ends.phases (h : Ends run w after) :
    ∃ mid, Steps (TakesPoint run) w mid ∧
      (after = mid ∨ after = drop (dropCheck run mid).1 (dropCheck run mid).2) := by
  cases h with
  | finished plans =>
      let rels := (plans.filter fun p => p.state = .atPoint).map DatasetPlan.rel
      exact ⟨(anchorHeld run (anchor run rels w).2).2,
        (takesPoint_anchor run rels w).trans (takesPoint_anchorHeld run _), .inr rfl⟩
  | undone =>
      refine ⟨_, ?_, .inl rfl⟩
      unfold undoPoint
      dsimp only
      split
      · exact (((Steps.read w).trans (takesPoint_anchor run _ _)).trans
          (takesPoint_anchorHeld run _)).trans
          (takesPoint_undoEach run _ _ _)
      · exact (Steps.read w).trans (takesPoint_undoEach run _ _ _)

theorem steps_of_ends (hpoint : isPoint run.point = true) (h : Ends run w after) {name : String}
    (hnone : anchorDisk name ≠ "") (hother : anchorDisk name ≠ run.disk.text) :
    Steps (fun c => c.snapTaken ≠ some name ∧ c.bookmarkTaken ≠ some name) w after := by
  have hnot : ¬isPoint name = true := fun h => hnone (anchorDisk_of_isPoint h)
  obtain ⟨mid, hmid, hend⟩ := h.phases
  have hmid : Steps (fun c => c.snapTaken ≠ some name ∧ c.bookmarkTaken ≠ some name) w mid :=
    hmid.mono fun c hc => ⟨fun h => hnot (hc name (.inl h) ▸ hpoint), fun h =>
      hnot (hc name (.inr h) ▸ hpoint)⟩
  rcases hend with rfl | rfl
  · exact hmid
  · refine (hmid.trans (steps_dropCheck run mid)).trans
      ((steps_drop _ _).mono fun c ⟨v, hv, hc⟩ => ?_)
    have htaken : ¬(c.snapTaken = some name ∨ c.bookmarkTaken = some name) := by
      intro h
      rcases name_of_drops hv hc h with h | ⟨h, -⟩
      · exact hnot h
      · exact hother h
    exact not_or.mp htaken

variable {s : Ref} {owner : DiskGuid}

theorem mem_of_anchorPoint_failed {disk : String} (h : (anchorPoint w rel s.name disk).1 = false)
    (hs : s ∈ snapsOf w.origin rel) : s ∈ snapsOf (anchorPoint w rel s.name disk).2.origin rel := by
  by_cases hpool : isBpool rel = true
  · unfold anchorPoint at h ⊢
    dsimp only at h ⊢
    rw [if_pos hpool] at h ⊢
    rcases w.command_cases (.rename rel s.name (anchorName disk s.name)) with ⟨hok,
      -⟩ | ⟨-, horigin⟩
    · rw [hok] at h
      cases h
    · rwa [horigin]
  · exact (steps_anchorPoint w rel s.name disk).mem_snapsOf hs fun c hc _ =>
      hc.keeps_snaps (by simpa using hpool) s.name

/-- A point released for a drive stays, or that drive's anchor has its guid. -/
theorem released (hs : s ∈ snapsOf w.origin rel) :
    s ∈ snapsOf (releasePoint w rel s.name owner.text).2.origin rel ∨
      Marked (releasePoint w rel s.name owner.text).2.origin rel
        (anchorName owner.text s.name) s.guid := by
  unfold releasePoint
  dsimp only
  cases hok : (anchorPoint w rel s.name owner.text).1 with
  | false =>
      rw [if_pos (by simp)]
      exact .inl (mem_of_anchorPoint_failed hok hs)
  | true =>
      obtain ⟨b, hb, hname, hguid⟩ := marked_anchorPoint hok hs rfl
      right
      rw [if_neg (by simp)]
      split
      · exact ⟨b, hb, hname, hguid⟩
      · rename_i hpool
        rw [if_neg hpool] at hb
        refine ⟨b, ?_, hname, hguid⟩
        rw [if_neg hpool]
        have hdestroy : Steps (fun c => c = .destroySnap rel s.name)
            (anchorPoint w rel s.name owner.text).2
            ((anchorPoint w rel s.name owner.text).2.command (.destroySnap rel s.name)).2 :=
              Steps.command _ rfl
        exact hdestroy.mem_bookmarksOf hb fun c hc _ => hc ▸ nofun

theorem marked_of_steps {name guid : String} {may : Cmd → Prop} (h : Steps may w after)
    (hmay : ∀ c, may c → c.snapTaken ≠ some name ∧ c.bookmarkTaken ≠ some name)
    (hmarked : Marked w.origin rel name guid) : Marked after.origin rel name guid := by
  obtain ⟨b, hb, rfl, hguid⟩ := hmarked
  refine ⟨b, ?_, rfl, hguid⟩
  split
  · rename_i hpool
    rw [if_pos hpool] at hb
    exact h.mem_snapsOf hb fun c hc _ => (hmay c hc).1
  · rename_i hpool
    rw [if_neg hpool] at hb
    exact h.mem_bookmarksOf hb fun c hc _ => (hmay c hc).2

/-- Where every verdict on a point releases it for its drive, dropping them leaves the point or that
drive's anchor with its guid. -/
theorem released_drop {verdicts : List Verdict}
    (hanchor : ∀ v ∈ verdicts, ∀ c, Drops v c → c.snapTaken ≠ some (anchorName owner.text s.name) ∧
      c.bookmarkTaken ≠ some (anchorName owner.text s.name))
    (howner : ∀ v ∈ verdicts, v.drop = true → v.target = .snap rel s.name → v.owner = owner.text)
    (h : s ∈ snapsOf w.origin rel ∨ Marked w.origin rel (anchorName owner.text s.name) s.guid) :
    s ∈ snapsOf (drop verdicts w).origin rel ∨
      Marked (drop verdicts w).origin rel (anchorName owner.text s.name) s.guid := by
  induction verdicts generalizing w with
  | nil => exact h
  | cons v rest ih =>
      apply ih (fun u hu => hanchor u (List.mem_cons_of_mem _ hu))
        (fun u hu => howner u (List.mem_cons_of_mem _ hu))
      rcases h with hs | hmarked
      · by_cases htarget : v.drop = true ∧ v.target = .snap rel s.name
        · have hv := howner v List.mem_cons_self htarget.1 htarget.2
          have hone : dropOne w v = (releasePoint w rel s.name owner.text).2 := by
            unfold dropOne
            rw [if_neg (by simp [htarget.1]), htarget.2]
            dsimp only
            rw [hv, if_pos owner.nonempty]
          rw [hone]
          exact released hs
        · refine .inl ((steps_dropOne w v).mem_snapsOf hs fun c hc hrel htaken =>
            htarget ⟨hc.1, ?_⟩)
          exact hrel ▸ hc.2.1 s.name htaken
      · exact .inr (marked_of_steps (steps_dropOne w v) (hanchor v List.mem_cons_self) hmarked)

/-- A check that lets a point of another drive go names that drive. -/
theorem owner_of_pointVerdict {o : Origin} {t : Ref} (hname : t.name ≠ run.point)
    (howner : pointOwners w (o.rel, t.name) = owner.text) (hother : owner.text ≠ run.disk.text)
    (hdrop : (w.check.pointVerdict run o t).drop = true) :
    (w.check.pointVerdict run o t).owner = owner.text := by
  have howners : w.check.owners (o.rel, t.name) = owner.text := howner
  unfold Check.pointVerdict at hdrop ⊢
  dsimp only at hdrop ⊢
  split
  · exact howners
  rename_i hwanted
  rw [if_neg hwanted] at hdrop
  split
  · rename_i hpartial
    rw [if_pos hpartial] at hdrop
    cases hdrop
  rename_i hpartial
  rw [if_neg hpartial, if_neg fun h => hname h.1] at hdrop
  rw [if_neg fun h => hname h.1]
  split
  · dsimp only
    rw [howners, if_neg fun h => h.elim hother hname]
  · rename_i hverified
    rw [if_neg hverified] at hdrop
    cases hdrop

theorem pointOwners_eq (hs : s ∈ snapsOf w.origin rel) (hpoint : isPoint s.name = true)
    (howner : w.owner rel s.guid = owner.text) : pointOwners w (rel, s.name) = owner.text := by
  cases ho : w.origin.get? rel with
  | none =>
      rw [snapsOf, ho] at hs
      cases hs
  | some o =>
      rw [snapsOf_of_get? ho] at hs
      have hsnap : snapshot? w.origin (rel, s.name) = some s := by
        rw [snapshot?, ho, Option.bind_some]
        exact Keyed.get?_of_mem hs
      have hguid : isGuid owner.text = true := by
        rw [isGuid, owner.digits, Bool.and_true]
        exact decide_eq_true owner.nonempty
      unfold pointOwners
      rw [hsnap]
      dsimp only
      rw [howner, hguid, hpoint]
      rfl

end Others

/-! ### Both endings -/

/-- However a run ends, every dataset keeps the guid of the drive's newest snapshot if it had it, no
anchor of another drive is taken, and a point of another drive is there or anchored for it. -/
theorem base_continuity {run₀ run : Run} {made : Rel → Ref} {w₀ w after : World}
    (hbegins : Begins run₀ made w₀) (hprogress : Progress run₀ made w₀ run w)
    (hends : Ends run w after) :
    (∀ rel ∈ expected w.origin run.exclusions, ∀ newest,
      (w.drive.get? rel).bind Dest.newest = some newest →
        HasGuid w.origin rel newest.guid → HasGuid after.origin rel newest.guid) ∧
      (∀ rel, ∀ r : Ref, anchorDisk r.name ≠ "" → anchorDisk r.name ≠ run.disk.text →
        (r ∈ snapsOf w.origin rel → r ∈ snapsOf after.origin rel) ∧
          (r ∈ bookmarksOf w.origin rel → r ∈ bookmarksOf after.origin rel)) ∧
      ∀ rel, ∀ s ∈ snapsOf w.origin rel, isPoint s.name = true → ∀ owner : DiskGuid,
        w.owner rel s.guid = owner.text → owner.text ≠ run.disk.text →
          s ∈ snapsOf after.origin rel ∨
            ∃ r, (r ∈ snapsOf after.origin rel ∨ r ∈ bookmarksOf after.origin rel) ∧
            r.guid = s.guid ∧
              anchorDisk r.name = owner.text := by
  have hready := ready_of_progress hbegins hprogress
  refine ⟨fun rel hrel newest hnewest hguid => ?_, fun rel r hnone hother => ?_,
    fun rel s hs hpoint owner howner hother => ?_⟩
  · obtain ⟨d, hd, hlast⟩ := Option.bind_eq_some_iff.mp hnewest
    have hlast : (guidsOf w.drive rel).getLast? = some newest.guid := by
      rw [guidsOf_of_get? hd, List.getLast?_map]
      show Option.map Ref.guid d.newest = _
      rw [hlast, Option.map_some]
    cases hends with
    | finished plans => exact hasGuid_finish plans hready hrel hlast hguid
    | undone => exact hasGuid_undoPoint hready hlast hguid
  · have hsteps := steps_of_ends hready.point hends hnone hother
    exact ⟨fun hr => hsteps.mem_snapsOf hr fun c hc _ => hc.1, fun hr =>
      hsteps.mem_bookmarksOf hr fun c hc _ => hc.2⟩
  · have hname : s.name ≠ run.point :=
      fun hname => hother (howner.symm.trans (hready.owned rel s hs hname))
    obtain ⟨mid, hmid, hend⟩ := hends.phases
    have hstill : s ∈ snapsOf mid.origin rel :=
      hmid.mem_snapsOf hs fun c hc _ htaken => hname (hc s.name (.inl htaken))
    have hdisk : anchorDisk (anchorName owner.text s.name) = owner.text :=
      anchorDisk_anchorName owner hpoint
    rcases hend with rfl | rfl
    · exact .inl hstill
    · have hanchor : ∀ v ∈ (dropCheck run mid).1, ∀ c, Drops v c →
          c.snapTaken ≠ some (anchorName owner.text s.name) ∧
          c.bookmarkTaken ≠ some (anchorName owner.text s.name) := by
        intro v hv c hc
        apply not_or.mp
        intro htaken
        rcases name_of_drops hv hc htaken with h | ⟨h, -⟩
        · rw [isPoint_anchorName owner hpoint] at h
          cases h
        · exact hother (hdisk.symm.trans h)
      have hverdicts : ∀ v ∈ (dropCheck run mid).1, v.drop = true → v.target = .snap rel s.name →
          v.owner = owner.text := by
        intro v hv hdrop htarget
        obtain ⟨o, ho, ⟨t, ht, htname, -, rfl⟩ | ⟨hmine, -⟩⟩ := verdict_of_snap hv htarget
        · obtain rfl : t = s := eq_of_name (snapsOf_of_get? ho ▸ ht) hstill htname
          obtain rfl : o.rel = rel := Keyed.key_of_get? ho
          have howner : mid.owner o.rel t.guid = owner.text := by rw [hmid.frame.2, howner]
          exact owner_of_pointVerdict hname (pointOwners_eq hstill hpoint howner) hother hdrop
        · rw [anchorDisk_of_isPoint hpoint] at hmine
          exact absurd hmine.symm run.disk.nonempty
      have hbefore : s ∈ snapsOf (dropCheck run mid).2.origin rel :=
        dropCheck_origin run mid ▸ hstill
      refine (released_drop hanchor hverdicts (.inl hbefore)).imp id
        fun ⟨r, hr, hrname, hguid⟩ => ?_
      refine ⟨r, ?_, hguid, hrname ▸ hdisk⟩
      split at hr
      · exact .inl hr
      · exact .inr hr

/-- An origin with an anchor and a leftover point of drive 88, and drive 77 with the older
snapshot. -/
def rotation : World where
  origin := ⟨[{
    rel := ["rpool", "data"]
    snaps := ⟨[⟨"autosnap_2026-01-01_00:00:00_daily", "1", 10, 1767225600⟩,
      ⟨"zark_2026-01-02_00:00:00Z", "2", 11, 1767312000⟩], by decide⟩
    bookmarks := ⟨[⟨"zark_88_2026-01-01_00:00:00Z", "1", 10, 1767225600⟩], by decide⟩ }], by decide⟩
  drive := ⟨[{ rel := ["rpool"] }, {
    rel := ["rpool", "data"]
    snaps :=
      ⟨[⟨"autosnap_2026-01-01_00:00:00_daily", "1", 20, 1767225600⟩], by decide⟩ }], by decide⟩
  owner := fun _ guid => if guid = "2" then "88" else ""
  faults := []

def rotationRun : Run where
  pool := "zark_a"
  disk := heldRun.disk
  point := "zark_2026-01-03_00:00:00Z"

def rotationPoint : Ref := ⟨"zark_2026-01-03_00:00:00Z", "3", 12, 1767398400⟩

def rotationPlan : DatasetPlan where
  rel := ["rpool", "data"]
  state := .incremental
  base := .snapshot "autosnap_2026-01-01_00:00:00_daily"

def rotationSurveyed : Run × World :=
  let taken := takePoint rotationRun (fun _ => rotationPoint) rotation
  (survey taken.2.1 taken.2.2).2

def rotationSent : Run × World :=
  ({ rotationSurveyed.1 with started := [["rpool", "data"]] },
    { rotationSurveyed.2 with
      drive :=
        (transfer rotationSurveyed.1.origin rotationSurveyed.2.drive rotationRun.point
          rotationPlan).getD ∅ })

theorem begins_rotation : Begins rotationRun (fun _ => rotationPoint) rotation where
  point := by decide
  started := rfl
  fresh := by decide
  ordered := by decide
  unique := by decide
  named := fun _ => rfl
  later := by decide
  new := by decide
  unheld := fun _ => by decide

def rotationStream : Stream where
  source := some "1"
  refs := [⟨"zark_2026-01-02_00:00:00Z", "2", 11, 1767312000⟩, rotationPoint]

theorem progress_rotation :
    Progress rotationRun (fun _ => rotationPoint) rotation rotationSent.1 rotationSent.2 := by
  have hsend : zfsSend rotationSurveyed.1.origin
      (.fromSnapshot true (["rpool", "data"], "autosnap_2026-01-01_00:00:00_daily")
        ["rpool", "data"]
        rotationRun.point) = some rotationStream := by
    decide
  have hreceive : zfsReceive rotationSurveyed.2.drive ["rpool", "data"] none rotationStream =
      some rotationSent.2.drive := by
    decide
  have hplan : rotationPlan ∈ plan rotationSurveyed.1.origin rotationSurveyed.1.dest
      rotationSurveyed.1.point rotationSurveyed.1.exclusions := by
    decide
  exact .transferred (.surveyed .took) (by decide) (by decide) hplan rfl (by decide)
    (.sent (.next hsend (.whole hreceive) .done))

/-- The run's point, which the drive holds now, and the anchor of the other drive are kept. -/
theorem base_continuity_rotation :
    HasGuid (finish rotationSent.1 [{ rel := ["rpool", "data"], state := .atPoint }]
      rotationSent.2).origin
        ["rpool", "data"] "3" ∧
      ⟨"zark_88_2026-01-01_00:00:00Z", "1", 10, 1767225600⟩ ∈
        bookmarksOf (finish rotationSent.1 [{ rel := ["rpool", "data"], state := .atPoint }]
          rotationSent.2).origin
          ["rpool", "data"] :=
  have hends := base_continuity begins_rotation progress_rotation (.finished _)
  ⟨hends.1 ["rpool", "data"] (by decide) { rotationPoint with createtxg := 22 } (by decide)
    (.inl ⟨rotationPoint, by decide, rfl⟩),
    (hends.2.1 ["rpool", "data"] _ (by decide) (by decide)).2 (by decide)⟩

end Zark
