import Zark.Proof.AnchorHeld
import Zark.Proof.Replicate

/-!
# The steps of an ending

Each operation of an ending is a sequence of reads and commands, and what its commands take away is
named here: `anchor` renames the run's point, `anchor_held` takes nothing, `drop` takes what the
check let go, `undo_point` the run's point.
-/

namespace Zark

open World

/-! ### Anchors -/

/-- The command that makes `rel@point` the anchor `keep`. -/
def AnchorsAt (rel : Rel) (point keep : String) (c : Cmd) : Prop :=
  c = if isBpool rel then .rename rel point keep else .bookmark rel point keep

/-- The dataset's anchor of that name has the guid: a snapshot on bpool, a bookmark elsewhere. -/
def Marked (origin : Origins) (rel : Rel) (name guid : String) : Prop :=
  ∃ r ∈ (if isBpool rel then snapsOf origin rel else bookmarksOf origin rel),
    r.name = name ∧ r.guid = guid

section Anchor

variable {w : World} {rel : Rel} {point disk : String} {s : Ref}

theorem steps_anchorPoint (w : World) (rel : Rel) (point disk : String) :
    Steps (AnchorsAt rel point (anchorName disk point)) w (anchorPoint w rel point disk).2 := by
  unfold anchorPoint
  dsimp only
  split
  · rename_i hpool
    exact Steps.command w (if_pos hpool).symm
  · rename_i hpool
    have hmade : Steps (AnchorsAt rel point (anchorName disk point)) w
        (w.command (.bookmark rel point (anchorName disk point))).2 :=
      Steps.command w (if_neg hpool).symm
    split
    · exact hmade
    · exact hmade.trans (Steps.read _)

theorem sameGuid_spec {origin : Origins} {name : String} (h : sameGuid origin rel point name = true)
    (hs : s ∈ snapsOf origin rel) (hname : s.name = point) :
    ∃ b ∈ bookmarksOf origin rel, b.name = name ∧ b.guid = s.guid := by
  subst hname
  cases ho : origin.get? rel with
  | none => simp [sameGuid, ho] at h
  | some o =>
      rw [snapsOf_of_get? ho] at hs
      cases hb : o.bookmarks.get? name with
      | none => simp [sameGuid, ho, hb] at h
      | some b =>
          obtain ⟨hmem, hbname⟩ := Keyed.get?_eq_some_iff.mp hb
          have hsnap : o.snaps.get? s.name = some s := Keyed.get?_of_mem hs
          simp only [sameGuid, ho, hsnap, hb, decide_eq_true_eq] at h
          exact ⟨b, bookmarksOf_of_get? ho ▸ hmem, hbname, h.symm⟩

theorem marked_anchorPoint (h : (anchorPoint w rel point disk).1 = true)
    (hs : s ∈ snapsOf w.origin rel) (hname : s.name = point) :
    Marked (anchorPoint w rel point disk).2.origin rel (anchorName disk point) s.guid := by
  unfold Marked
  unfold anchorPoint at h ⊢
  dsimp only at h ⊢
  by_cases hpool : isBpool rel = true
  · rw [if_pos hpool] at h ⊢
    rw [if_pos hpool]
    rcases w.command_cases (.rename rel point (anchorName disk point)) with ⟨-, happly⟩ | ⟨hfail, -⟩
    · exact ⟨_, Cmd.mem_snapsOf_rename happly hs hname, rfl, rfl⟩
    · rw [hfail] at h
      cases h
  · rw [if_neg hpool] at h ⊢
    rw [if_neg hpool]
    subst hname
    rcases w.command_cases (.bookmark rel s.name (anchorName disk s.name)) with ⟨hok,
      happly⟩ | ⟨hfail, horigin⟩
    · rw [if_pos hok]
      exact ⟨_, Cmd.mem_bookmarksOf_bookmark happly hs, rfl, rfl⟩
    · rw [hfail] at h ⊢
      rw [if_neg Bool.false_ne_true] at h ⊢
      have hsame := (Bool.and_eq_true_iff.mp h).2
      rw [World.read_origin, horigin] at hsame ⊢
      exact sameGuid_spec hsame hs rfl

theorem AnchorsAt.keeps_snaps {keep : String} {c : Cmd} (h : AnchorsAt rel point keep c)
    (hpool : isBpool rel = false) (name : String) : c.snapTaken ≠ some name := by
  rw [AnchorsAt, hpool] at h
  subst h
  exact nofun

theorem AnchorsAt.cases {keep : String} {c : Cmd} (h : AnchorsAt rel point keep c) :
    c.rel = rel ∧ (c = .rename rel point keep ∨ c = .bookmark rel point keep) := by
  unfold AnchorsAt at h
  split at h
  · exact ⟨h ▸ rfl, .inl h⟩
  · exact ⟨h ▸ rfl, .inr h⟩

theorem steps_anchorTwice (w : World) (rel : Rel) (point disk : String) :
    Steps (AnchorsAt rel point (anchorName disk point)) w (anchorTwice w rel point disk).2 := by
  unfold anchorTwice
  dsimp only
  split
  · exact steps_anchorPoint w rel point disk
  · exact (steps_anchorPoint w rel point disk).trans (steps_anchorPoint _ rel point disk)

theorem marked_anchorTwice (h : (anchorTwice w rel point disk).1 = true)
    (hpool : isBpool rel = false) (hs : s ∈ snapsOf w.origin rel) (hname : s.name = point) :
    Marked (anchorTwice w rel point disk).2.origin rel (anchorName disk point) s.guid := by
  unfold anchorTwice at h ⊢
  dsimp only at h ⊢
  split
  · rename_i hfirst
    exact marked_anchorPoint hfirst hs hname
  · rename_i hfirst
    rw [if_neg hfirst] at h
    have hstill :=
      (steps_anchorPoint w rel point disk).mem_snapsOf hs fun c hc _ => hc.keeps_snaps hpool s.name
    exact marked_anchorPoint h hstill hname

variable {run : Run}

/-- What `anchor` does: it makes the run's point of each dataset the run's anchor. -/
def Anchors (run : Run) (rels : List Rel) (c : Cmd) : Prop :=
  ∃ rel ∈ rels, AnchorsAt rel run.point run.keep c

theorem steps_anchor (run : Run) (rels : List Rel) (w : World) :
    Steps (Anchors run rels) w (anchor run rels w).2 := by
  induction rels generalizing w with
  | nil => exact .refl
  | cons head rest ih =>
      have hmono : ∀ c, Anchors run rest c → Anchors run (head :: rest) c :=
        fun c ⟨rel, hrel, hc⟩ => ⟨rel, List.mem_cons_of_mem _ hrel, hc⟩
      unfold anchor
      split
      · have hone := (steps_anchorTwice w head run.point run.disk.text).mono
          fun c hc => (⟨head, List.mem_cons_self, hc⟩ : Anchors run (head :: rest) c)
        exact hone.trans ((ih _).mono hmono)
      · exact (ih w).mono hmono

theorem Anchors.keeps_bookmarks {rels : List Rel} {c : Cmd} (h : Anchors run rels c)
    (name : String) :
    c.bookmarkTaken ≠ some name := by
  obtain ⟨rel, -, hc⟩ := h
  rcases hc.cases.2 with rfl | rfl <;> exact nofun

theorem Anchors.moves {rels : List Rel} {c : Cmd} (h : Anchors run rels c) :
    (∃ rel snap name, c = .bookmark rel snap name) ∨ ∃ rel old new, c = .rename rel old new := by
  obtain ⟨rel, -, hc⟩ := h
  rcases hc.cases.2 with h | h
  · exact .inr ⟨_, _, _, h⟩
  · exact .inl ⟨_, _, _, h⟩

theorem marked_anchor {rels : List Rel} (hrel : rel ∈ rels) (hread : rel ∈ run.origin.keys)
    (hfailed : rel ∉ (anchor run rels w).1) (hpool : isBpool rel = false)
    (hs : s ∈ snapsOf w.origin rel) (hname : s.name = run.point) :
    Marked (anchor run rels w).2.origin rel run.keep s.guid := by
  induction rels generalizing w with
  | nil => cases hrel
  | cons head rest ih =>
      unfold anchor at hfailed ⊢
      by_cases hhead : head = rel
      · subst hhead
        rw [if_pos hread] at hfailed ⊢
        -- Its turn is now, and a bookmark that is made stays.
        have honce : (anchorTwice w head run.point run.disk.text).1 = true := by
          by_contra hfail
          simp [hfail] at hfailed
        obtain ⟨b, hb, hbname, hguid⟩ := marked_anchorTwice honce hpool hs hname
        rw [hpool] at hb
        refine ⟨b, ?_, hbname, hguid⟩
        rw [hpool]
        exact (steps_anchor run rest _).mem_bookmarksOf hb fun c hc _ => hc.keeps_bookmarks b.name
      · have hrest : rel ∈ rest := List.mem_of_ne_of_mem (Ne.symm hhead) hrel
        split
        · rename_i hkey
          rw [if_pos hkey] at hfailed
          dsimp only at hfailed
          have hout : rel ∉ (anchor run rest (anchorTwice w head run.point run.disk.text).2).1 := by
            intro hmem
            apply hfailed
            split
            · exact hmem
            · exact List.mem_cons_of_mem _ hmem
          have hstill := (steps_anchorTwice w head run.point run.disk.text).mem_snapsOf hs
            fun c hc hrel => absurd (hc.cases.1.symm.trans hrel) hhead
          exact ih hrest hout hstill
        · rename_i hkey
          rw [if_neg hkey] at hfailed
          exact ih hrest hfailed hs

end Anchor

/-! ### The drive's newest -/

section Held

variable {run : Run} {w : World}

/-- What `anchor_held` does: it bookmarks what was read as the drive's newest snapshot. -/
def AnchorsHeld (run : Run) (origin : Origins) (drive : Drive) (c : Cmd) : Prop :=
  ∃ rel o snap, origin.get? rel = some o ∧ heldAnchor run o (drive.get? rel) = some snap ∧
    c = .bookmark rel snap.name (run.heldName snap)

theorem AnchorsHeld.moves {origin : Origins} {drive : Drive} {c : Cmd}
    (h : AnchorsHeld run origin drive c) :
    ∃ rel snap name, c = .bookmark rel snap name := by
  obtain ⟨rel, o, snap, -, -, h⟩ := h
  exact ⟨_, _, _, h⟩

theorem steps_anchorEach {origin : Origins} {drive : Drive} {rels : List Rel} (w : World) :
    Steps (AnchorsHeld run origin drive) w (anchorEach run origin drive rels w).2 := by
  induction rels generalizing w with
  | nil => exact .refl
  | cons head rest ih =>
      unfold anchorEach
      split
      · exact ih w
      · rename_i snap hsome
        obtain ⟨o, ho, hheld⟩ := Option.bind_eq_some_iff.mp hsome
        have hone : AnchorsHeld run origin drive (.bookmark head snap.name (run.heldName snap)) :=
          ⟨head, o, snap, ho, hheld, rfl⟩
        exact (Steps.command w hone).trans (ih _)

theorem steps_anchorHeld (run : Run) (w : World) :
    Steps (AnchorsHeld run w.origin w.drive) w (anchorHeld run w).2 := by
  unfold anchorHeld
  dsimp only
  split
  · exact Steps.read w
  · have hread : Steps (AnchorsHeld run w.origin w.drive) w w.read.2.read.2 :=
      (Steps.read w).trans (Steps.read w.read.2)
    split
    · exact hread
    · exact hread.trans (steps_anchorEach _)

/-- The run's point and its anchor mark nothing older than the drive's newest snapshot. -/
def MarksNewest (run : Run) (drive : Drive) (origin : Origins) : Prop :=
  ∀ rel, ∀ r : Ref, r.guid ∈ guidsOf drive rel →
    (r ∈ snapsOf origin rel ∧ (r.name = run.point ∨ r.name = run.keep) ∨
      r ∈ bookmarksOf origin rel ∧ r.name = run.keep) →
    (guidsOf drive rel).getLast? = some r.guid

theorem marksNewest_of_ready (h : Ready run w) : MarksNewest run w.drive w.origin := by
  intro rel r hmem hr
  rcases hr with ⟨hr, hname | hname⟩ | ⟨hr, hname⟩
  · exact ((h.held rel r hr hname).1 hmem).1
  · exact absurd hname ((h.fresh rel).1 r hr)
  · exact absurd hname ((h.fresh rel).2 r hr)

theorem marksNewest_anchor {rels : List Rel} {w' : World} (h : Steps (Anchors run rels) w w')
    {drive : Drive} (hbefore : MarksNewest run drive w.origin) :
    MarksNewest run drive w'.origin := by
  refine h.keep (P := MarksNewest run drive) ?_ hbefore
  intro origin after c hc happly hbefore rel r hmem hr
  obtain ⟨at_, -, hc⟩ := hc
  rcases hr with ⟨hr, hname⟩ | ⟨hr, hname⟩
  · rcases Cmd.of_mem_snapsOf_apply happly hr with hr | ⟨x, hx, rfl, heq⟩
    · exact hbefore rel r hmem (.inl ⟨hr, hname⟩)
    · rcases hc.cases.2 with hrename | hbookmark
      · obtain ⟨-, hpoint, -⟩ := Cmd.rename.inj hrename
        rw [heq] at hmem ⊢
        exact hbefore rel x hmem (.inl ⟨hx, .inl hpoint⟩)
      · cases hbookmark
  · rcases Cmd.of_mem_bookmarksOf_apply happly hr with hr | ⟨x, hx, rfl, heq⟩
    · exact hbefore rel r hmem (.inr ⟨hr, hname⟩)
    · rcases hc.cases.2 with hrename | hbookmark
      · cases hrename
      · obtain ⟨-, hpoint, -⟩ := Cmd.bookmark.inj hbookmark
        rw [heq] at hmem ⊢
        exact hbefore rel x hmem (.inl ⟨hx, .inl hpoint⟩)

/-- What `anchor_held` bookmarks is the drive's newest snapshot, whatever the name. -/
theorem marksNewest_anchorHeld {w' : World} (h : Steps (AnchorsHeld run w.origin w.drive) w w')
    (hbefore : MarksNewest run w.drive w.origin) : MarksNewest run w.drive w'.origin := by
  refine (h.keep (P := fun origin => (∀ rel, snapsOf origin rel = snapsOf w.origin rel) ∧
    MarksNewest run w.drive origin) ?_ ⟨fun _ => rfl, hbefore⟩).2
  intro origin after c hc happly ⟨hsnaps, hbefore⟩
  obtain ⟨at_, o, snap, ho, hheld, rfl⟩ := hc
  have hafter : ∀ rel, snapsOf after rel = snapsOf origin rel :=
    fun rel => Cmd.snapsOf_bookmark happly rel
  refine ⟨fun rel => (hafter rel).trans (hsnaps rel), fun rel r hmem hr => ?_⟩
  rcases hr with ⟨hr, hname⟩ | ⟨hr, hname⟩
  · exact hbefore rel r hmem (.inl ⟨hafter rel ▸ hr, hname⟩)
  · rcases Cmd.of_mem_bookmarksOf_apply happly hr with hr | ⟨x, hx, heq, hr⟩
    · exact hbefore rel r hmem (.inr ⟨hr, hname⟩)
    · obtain ⟨rfl, hxname, -⟩ := Cmd.bookmark.inj heq
      obtain ⟨-, ⟨newest, hnewest, hsnap⟩, -⟩ := heldAnchor_eq_some_iff.mp hheld
      obtain ⟨hsnap, hguid⟩ := snapByGuid_eq_some hsnap
      have hread : snap ∈ snapsOf w.origin at_ := snapsOf_of_get? ho ▸ hsnap
      obtain rfl : snap = x := eq_of_name hread (hsnaps at_ ▸ hx) hxname
      obtain ⟨d, hd, hlast⟩ := Option.bind_eq_some_iff.mp hnewest
      rw [hr, guidsOf_of_get? hd, List.getLast?_map]
      show Option.map Ref.guid d.newest = some snap.guid
      rw [hlast, Option.map_some, hguid]

end Held

/-! ### What is dropped -/

section Drop

variable {run : Run} {w : World}

/-- What one verdict lets a command take. -/
def Drops (v : Verdict) (c : Cmd) : Prop :=
  v.drop = true ∧ (∀ name, c.snapTaken = some name → v.target = .snap c.rel name) ∧
    ∀ name, c.bookmarkTaken = some name → v.target = .bookmark c.rel name

theorem steps_dropOne (w : World) (v : Verdict) : Steps (Drops v) w (dropOne w v) := by
  unfold dropOne
  split
  · exact .refl
  rename_i hdrop
  have hdrop : v.drop = true := by simpa using hdrop
  split
  · rename_i rel name htarget
    have hdestroy : Drops v (.destroySnap rel name) :=
      ⟨hdrop, fun n hn => by rw [htarget, ← Option.some.inj hn]; rfl, fun n hn => nomatch hn⟩
    split
    · have hanchors : ∀ c, AnchorsAt rel name (anchorName v.owner name) c → Drops v c := by
        intro c hc
        rcases hc.cases.2 with rfl | rfl
        · exact ⟨hdrop,
            fun n hn => by rw [htarget, ← Option.some.inj hn]; rfl, fun n hn => nomatch hn⟩
        · exact ⟨hdrop, fun n hn => (nomatch hn), fun n hn => nomatch hn⟩
      have hanchor := (steps_anchorPoint w rel name v.owner).mono hanchors
      unfold releasePoint
      dsimp only
      split
      · exact hanchor
      · split
        · exact hanchor
        · exact hanchor.trans (Steps.command _ hdestroy)
    · exact Steps.command w hdestroy
  · rename_i rel name htarget
    exact Steps.command w
      ⟨hdrop, fun n hn => (nomatch hn), fun n hn => by rw [htarget, ← Option.some.inj hn]; rfl⟩

theorem steps_drop (verdicts : List Verdict) (w : World) :
    Steps (fun c => ∃ v ∈ verdicts, Drops v c) w (drop verdicts w) := by
  induction verdicts generalizing w with
  | nil => exact .refl
  | cons v rest ih =>
      have hone := (steps_dropOne w v).mono
        fun c hc => (⟨v, List.mem_cons_self, hc⟩ : ∃ u ∈ v :: rest, Drops u c)
      exact hone.trans ((ih _).mono fun c ⟨u, hu, hc⟩ => ⟨u, List.mem_cons_of_mem _ hu, hc⟩)

/-- Each verdict is about a point of a dataset or about an older anchor of the run's drive. -/
theorem mem_datasetVerdicts {c : Check} {o : Origin} {v : Verdict} :
    v ∈ c.datasetVerdicts run o ↔
      (∃ s ∈ o.snaps, isPoint s.name = true ∧ v = c.pointVerdict run o s) ∨
        ∃ name ∈ (Check.anchors o).keys, anchorDisk name = run.disk.text ∧ name ≠ run.keep ∧
          v = c.anchorVerdict run o name := by
  simp only [Check.datasetVerdicts, oldAnchors, List.mem_append, List.mem_map, List.mem_filter,
    Bool.and_eq_true, decide_eq_true_eq]
  constructor
  · rintro (⟨s, ⟨hs, hpoint⟩, rfl⟩ | ⟨name, ⟨hname, hdisk, hkeep⟩, rfl⟩)
    · exact .inl ⟨s, hs, hpoint, rfl⟩
    · exact .inr ⟨name, hname, hdisk, hkeep, rfl⟩
  · rintro (⟨s, hs, hpoint, rfl⟩ | ⟨name, hname, hdisk, hkeep, rfl⟩)
    · exact .inl ⟨s, ⟨hs, hpoint⟩, rfl⟩
    · exact .inr ⟨name, ⟨hname, hdisk, hkeep⟩, rfl⟩

/-- The check is made of one reading of both sides, and changes neither. -/
theorem mem_dropCheck {v : Verdict} (h : v ∈ (dropCheck run w).1) :
    ∃ o ∈ w.origin, v ∈ w.check.datasetVerdicts run o := by
  unfold dropCheck at h
  dsimp only at h
  split at h
  · cases h
  split at h
  · cases h
  split at h
  · cases h
  split at h
  · cases h
  · obtain ⟨o, ho, hv⟩ := List.mem_flatMap.mp h
    exact ⟨o, (List.mem_insertionSort _).mp ho, hv⟩

theorem steps_dropCheck {may : Cmd → Prop} (run : Run) (w : World) :
    Steps may w (dropCheck run w).2 := by
  have hone : Steps may w w.read.2 := Steps.read w
  have htwo : Steps may w w.read.2.read.2 := hone.trans (Steps.read _)
  have hthree : Steps may w w.read.2.read.2.read.2 := htwo.trans (Steps.read _)
  unfold dropCheck
  dsimp only
  split
  · exact hone
  split
  · exact htwo
  split
  · exact hthree
  split <;> exact hthree

theorem dropCheck_origin (run : Run) (w : World) : (dropCheck run w).2.origin = w.origin := by
  have hsteps : Steps (fun _ => False) w (dropCheck run w).2 := steps_dropCheck run w
  exact hsteps.keep (P := fun origin => origin = w.origin) (fun hc => hc.elim) rfl

theorem target_pointVerdict (run : Run) (c : Check) (o : Origin) (s : Ref) :
    (c.pointVerdict run o s).target = .snap o.rel s.name := by
  unfold Check.pointVerdict
  dsimp only
  split_ifs <;> rfl

theorem target_anchorVerdict (run : Run) (c : Check) (o : Origin) (name : String) :
    (c.anchorVerdict run o name).target =
      if isBpool o.rel then Target.snap o.rel name else Target.bookmark o.rel name := by
  unfold Check.anchorVerdict
  dsimp only
  split_ifs <;> rfl

variable {rel : Rel} {name : String} {v : Verdict}

theorem verdict_of_snap (hv : v ∈ (dropCheck run w).1) (htarget : v.target = .snap rel name) :
    ∃ o, w.origin.get? rel = some o ∧
      ((∃ s ∈ o.snaps, s.name = name ∧ isPoint name = true ∧ v = w.check.pointVerdict run o s) ∨
        anchorDisk name = run.disk.text ∧ name ≠ run.keep ∧
        v = w.check.anchorVerdict run o name) := by
  obtain ⟨o, ho, hv⟩ := mem_dropCheck hv
  rcases mem_datasetVerdicts.mp hv with ⟨s, hs, hpoint, rfl⟩ | ⟨old, -, hdisk, hkeep, rfl⟩
  · rw [target_pointVerdict] at htarget
    obtain ⟨rfl, rfl⟩ := Target.snap.inj htarget
    exact ⟨o, Keyed.get?_of_mem ho, .inl ⟨s, hs, rfl, hpoint, rfl⟩⟩
  · rw [target_anchorVerdict] at htarget
    split at htarget
    · obtain ⟨rfl, rfl⟩ := Target.snap.inj htarget
      exact ⟨o, Keyed.get?_of_mem ho, .inr ⟨hdisk, hkeep, rfl⟩⟩
    · cases htarget

theorem verdict_of_bookmark (hv : v ∈ (dropCheck run w).1)
    (htarget : v.target = .bookmark rel name) :
    ∃ o, w.origin.get? rel = some o ∧ anchorDisk name = run.disk.text ∧ name ≠ run.keep ∧
      v = w.check.anchorVerdict run o name := by
  obtain ⟨o, ho, hv⟩ := mem_dropCheck hv
  rcases mem_datasetVerdicts.mp hv with ⟨s, -, -, rfl⟩ | ⟨old, -, hdisk, hkeep, rfl⟩
  · rw [target_pointVerdict] at htarget
    cases htarget
  · rw [target_anchorVerdict] at htarget
    split at htarget
    · cases htarget
    · obtain ⟨rfl, rfl⟩ := Target.bookmark.inj htarget
      exact ⟨o, Keyed.get?_of_mem ho, hdisk, hkeep, rfl⟩

/-- Only points and older anchors of the run's drive are taken. -/
theorem name_of_drops {c : Cmd} (hv : v ∈ (dropCheck run w).1) (hc : Drops v c)
    (hname : c.snapTaken = some name ∨ c.bookmarkTaken = some name) :
    isPoint name = true ∨ anchorDisk name = run.disk.text ∧ name ≠ run.keep := by
  rcases hname with hname | hname
  · obtain ⟨o, -, ⟨s, -, -, hpoint, -⟩ | ⟨hdisk, hkeep, -⟩⟩ :=
      verdict_of_snap hv (hc.2.1 name hname)
    · exact .inl hpoint
    · exact .inr ⟨hdisk, hkeep⟩
  · obtain ⟨o, -, hdisk, hkeep, -⟩ := verdict_of_bookmark hv (hc.2.2 name hname)
    exact .inr ⟨hdisk, hkeep⟩

end Drop

/-! ### What is undone -/

/-- What the last loop of `undo_point` takes: the run's point of a dataset that nothing keeps. -/
def Undoes (run : Run) (gone kept : List Rel) (c : Cmd) : Prop :=
  ∃ rel ∈ run.expected, rel ∉ gone ∧ rel ∉ kept ∧ c = .destroySnap rel run.point

theorem steps_undoEach (run : Run) (gone kept : List Rel) (w : World) :
    Steps (Undoes run gone kept) w (undoEach run gone kept w) := by
  have hloop : ∀ (present : Option (List Rel)) (rels : List Rel) (w : World),
      (∀ rel ∈ rels, rel ∈ run.expected) →
      Steps (Undoes run gone kept) w (rels.foldl (undoOne run gone kept present) w) := by
    intro present rels
    induction rels with
    | nil => exact fun w _ => .refl
    | cons rel rest ih =>
        intro w hrels
        refine .trans ?_ (ih _ fun r hr => hrels r (List.mem_cons_of_mem _ hr))
        unfold undoOne
        split
        · exact .refl
        · rename_i hcond
          rw [not_or, not_or] at hcond
          exact Steps.command w ⟨rel, hrels rel List.mem_cons_self, hcond.1, hcond.2.2, rfl⟩
  exact (Steps.read w).trans (hloop _ _ _ fun _ hrel => hrel)

end Zark
