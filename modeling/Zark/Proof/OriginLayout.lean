import Zark.OriginLayout
import Zark.Proof.Mountpoints

/-!
# Mount against recover

On a drive whose datasets are all live and at a point they all resolve at, mount's loop and
recover's give every dataset of the restored tree the same effective mountpoint, parents first. So a
dataset is shown where its own properties mount it, and the two differ where recover takes a guess
back: mount does not look at what other datasets were given.
-/

namespace Zark.OriginLayout

open Hierarchy RestoreRequest

/-- The drive holds no archived lineage, its boot environment is mounted on `/` as far as anything
says, and the point resolves every dataset and excludes none; both sides read the same roots. -/
structure Comparable (r : RestoreRequest) (emptyRoot : Rel → Bool) : Prop where
  live : ∀ d ∈ r.stored, isArchived d.rel = false
  be : (r.stored.get? (beRoot r.be)).map Stored.kind = some .filesystem
  zark : ∀ v ∈ r.zark (beRoot r.be), v.2 = "/"
  cache : ∀ v ∈ r.cache (beRoot r.be), v.2 = "/"
  resolves : ∀ ds ∈ r.wanted, (r.resolved ds).isSome = true
  excludes : ∀ ds, r.excluded.covers ds = false
  emptyRoot : ∀ ds snap, r.resolved ds = some snap → r.emptyRoot snap = emptyRoot ds

section Compare

variable {r : RestoreRequest} {emptyRoot : Rel → Bool} {mnt : String} {x ds : Rel}

/-! ### The two requests -/

theorem Comparable.logical_eq (h : Comparable r emptyRoot) {d : Stored} (hd : d ∈ r.stored) :
    logical d.rel = d.rel :=
  logical_of_not_isArchived (h.live d hd)

theorem Comparable.mem_types (h : Comparable r emptyRoot) : x ∈ r.types ↔ x ∈ r.stored.keys := by
  rw [RestoreRequest.types, List.mem_dedup, List.mem_map, Keyed.mem_keys]
  refine exists_congr fun d => and_congr_right fun hd => ?_
  rw [h.logical_eq hd]

theorem Comparable.mem_wanted (h : Comparable r emptyRoot) :
    x ∈ r.wanted ↔ x ∈ r.stored.keys ∧ r.isWanted x = true := by
  rw [Zark.mem_wanted, h.mem_types]
  refine and_congr_left fun _ => or_iff_left fun hmem => ?_
  have hcovers := h.excludes x
  simp [PointMark.covers, hmem] at hcovers

theorem Comparable.typeOf_eq (h : Comparable r emptyRoot) :
    r.typeOf x = (r.stored.get? x).map Stored.kind := by
  have hall : r.stored.items.filter (fun d => logical d.rel = d.rel) = r.stored.items := by
    refine List.filter_eq_self.mpr fun d hd => ?_
    simpa using h.logical_eq hd
  have hnone : r.stored.items.filter (fun d => logical d.rel ≠ d.rel) = [] := by
    refine List.filter_eq_nil_iff.mpr fun d hd => ?_
    simpa using h.logical_eq hd
  have hfind : r.stored.items.find? (fun d => logical d.rel = x) = r.stored.get? x := by
    rw [Keyed.get?]
    refine List.find?_congr fun d hd => ?_
    rw [h.logical_eq hd]
  rw [RestoreRequest.typeOf, hall, hnone, List.append_nil, hfind]

theorem Comparable.hasChildren_eq (h : Comparable r emptyRoot) :
    r.hasChildren x = hasChildren (ofRestore r mnt emptyRoot) x := by
  rw [Bool.eq_iff_iff, RestoreRequest.hasChildren, hasChildren, List.any_eq_true, List.any_eq_true]
  constructor
  · rintro ⟨other, hother, hbelow⟩
    obtain ⟨d, hd, rfl⟩ := Keyed.mem_keys.mp (h.mem_types.mp hother)
    exact ⟨d, hd, hbelow⟩
  · rintro ⟨d, hd, hbelow⟩
    exact ⟨d.rel, h.mem_types.mpr (Keyed.mem_keys.mpr ⟨d, hd, rfl⟩), hbelow⟩

/-- Both loops choose the same properties. -/
theorem Comparable.choice_eq (h : Comparable r emptyRoot) {snap : Snap}
    (hsnap : r.resolved x = some snap) :
    r.choice x snap = propsOf (ofRestore r mnt emptyRoot) x := by
  rw [RestoreRequest.choice, propsOf, h.hasChildren_eq, h.emptyRoot x snap hsnap]
  rfl

theorem Comparable.isRestored_iff (h : Comparable r emptyRoot) {snap : Snap} {above : String} :
    r.IsRestored x snap above ↔ x ∈ r.wanted ∧
    (r.stored.get? x).map Stored.kind = some .filesystem ∧ r.resolved x = some snap ∧
      r.mountOf (parent x) = some above := by
  have hkind : x ∈ r.wanted → (r.typeOf x ≠ some .volume ↔
      (r.stored.get? x).map Stored.kind = some .filesystem) := by
    intro hx
    obtain ⟨d, hd, rfl⟩ := Keyed.mem_keys.mp (h.mem_wanted.mp hx).1
    rw [h.typeOf_eq, Keyed.get?_of_mem hd]
    cases hk : d.kind <;> simp [hk]
  constructor
  · intro hrestored
    exact ⟨hrestored.wanted, (hkind hrestored.wanted).mp hrestored.filesystem, hrestored.resolved,
      hrestored.parent⟩
  · rintro ⟨hx, hfs, hsnap, hparent⟩
    exact ⟨hx, h.excludes x, (hkind hx).mpr hfs, hsnap, hparent⟩

/-- What lies above a filesystem that recover wants decides where it is mounted. -/
theorem Comparable.mountOf_eq (h : Comparable r emptyRoot) (hx : x ∈ r.wanted)
    (hfs : (r.stored.get? x).map Stored.kind = some .filesystem) :
    r.mountOf x = (r.mountOf (parent x)).map fun above =>
      effectiveMountpoint (propsOf (ofRestore r mnt emptyRoot) x) above (leaf x) := by
  obtain ⟨snap, hsnap⟩ := Option.isSome_iff_exists.mp (h.resolves x hx)
  cases hparent : r.mountOf (parent x) with
  | none =>
      rw [Option.map_none]
      refine mountOf_eq_none_of_not_restored hx (h.excludes x) fun snap' above hrestored => ?_
      rw [hrestored.parent] at hparent
      cases hparent
  | some above =>
      rw [(h.isRestored_iff.mpr ⟨hx, hfs, hsnap, hparent⟩).mountOf_eq, h.choice_eq hsnap,
        Option.map_some]

theorem Comparable.mountOf_eq_none (h : Comparable r emptyRoot) (hx : r.isWanted x = true)
    (hfs : (r.stored.get? x).map Stored.kind ≠ some .filesystem) :
    r.mountOf x = none := by
  by_cases hwanted : x ∈ r.wanted
  · refine mountOf_eq_none_of_not_restored hwanted (h.excludes x) fun snap above hrestored => hfs ?_
    exact (h.isRestored_iff.mp hrestored).2.1
  · refine Zark.mountOf_eq_none (fun hcreated => ?_) hwanted
    rw [created, List.mem_append, List.mem_cons] at hcreated
    simp [createdContainers, bpoolContainers] at hcreated
    obtain (rfl | rfl | rfl) | rfl | rfl :=
      hcreated <;> simp [RestoreRequest.isWanted, createdContainers] at hx

/-! ### The boot environment's root -/

/-- What is mounted before the loop. -/
def IsBase (be : String) (x : Rel) : Prop := x = beRoot be ∨ x ∈ created

theorem isWanted_beRoot (r : RestoreRequest) : r.isWanted (beRoot r.be) = true := by
  simp [RestoreRequest.isWanted, beRoot, createdContainers]

theorem Comparable.beRoot_wanted (h : Comparable r emptyRoot) : beRoot r.be ∈ r.wanted := by
  refine h.mem_wanted.mpr ⟨?_, isWanted_beRoot r⟩
  obtain ⟨d, hd, -⟩ := Option.map_eq_some_iff.mp h.be
  exact Keyed.mem_keys.mpr ⟨d, Keyed.mem_of_get? hd, Keyed.key_of_get? hd⟩

theorem mountOf_created (r : RestoreRequest) (h : x ∈ created) :
    r.mountOf x = (planStart r).effective? x :=
  mountOf_of_not_wanted fun hwanted => not_created_of_wanted hwanted h

theorem Comparable.mountOf_beRoot (h : Comparable r emptyRoot) :
    r.mountOf (beRoot r.be) = some "/" := by
  have hparent : r.mountOf (parent (beRoot r.be)) = some "none" := by
    have hroot : parent (beRoot r.be) = ["rpool", "ROOT"] := rfl
    rw [hroot, mountOf_created r (by simp [created, createdContainers])]
    rfl
  have hmountpoint : (propsOf (ofRestore r "" emptyRoot) (beRoot r.be)).mountpoint = "/" := by
    rw [propsOf, choose]
    split
    · rename_i hzark
      exact h.zark _ hzark
    · split
      · rename_i hcache
        exact h.cache _ hcache
      · have hlayout : ubuntuLayout (beRoot r.be) r.be = some ("on", "/") := by
          simp [ubuntuLayout, beRoot]
        simp [ofRestore, hlayout]
  rw [@Comparable.mountOf_eq r emptyRoot "" _ h h.beRoot_wanted h.be, hparent, Option.map_some,
    effectiveMountpoint, hmountpoint]
  rfl

/-! ### What recover restores -/

/-- A dataset recover restores, of this boot environment or of none. -/
structure Kept (r : RestoreRequest) (x : Rel) : Prop where
  wanted : r.isWanted x = true
  own : isOtherBe r.be x = false
  base : ¬ IsBase r.be x

theorem isWanted_iff : r.isWanted x = true ↔ Under x ["rpool"] ∧ x ≠ ["rpool"] ∧
    x ∉ createdContainers.map Prod.fst ∨ x = ["bpool", "BOOT", r.be] := by
  rw [RestoreRequest.isWanted, Bool.or_eq_true, decide_eq_true_iff, decide_eq_true_iff]

theorem isOtherBe_eq_false {be : String} : isOtherBe be x = false ↔
    (Under x ["rpool", "ROOT"] → x = ["rpool", "ROOT"] ∨ Under x (beRoot be) ∧ x ≠ beRoot be) ∧
      (Under x ["bpool", "BOOT"] → x = ["bpool", "BOOT"] ∨ x = ["bpool", "BOOT", be]) := by
  have hapart : Under x ["rpool", "ROOT"] → Under x ["bpool", "BOOT"] → False := by
    rintro ⟨a, rfl⟩ ⟨b, hb⟩
    simp at hb
  have hbelow : Under x (beRoot be) → Under x ["rpool", "ROOT"] :=
    fun h => Under.trans h ⟨[be], rfl⟩
  have hbpool : x = ["bpool", "BOOT", be] → Under x ["bpool", "BOOT"] := by
    rintro rfl
    exact ⟨[be], rfl⟩
  rw [isOtherBe, Bool.and_eq_false_iff, decide_eq_false_iff_not, Bool.not_eq_false',
    decide_eq_true_iff]
  by_cases hr : Under x ["rpool", "ROOT"] <;> by_cases hb : Under x ["bpool", "BOOT"]
  · exact (hapart hr hb).elim
  · have hne : x ≠ ["bpool", "BOOT", be] := fun heq => hb (hbpool heq)
    simp only [hr, hb, hne, true_and, false_and, or_false, false_or, forall_const,
      IsEmpty.forall_iff, and_true, ne_eq, not_not]
  · have hne : ¬ Under x (beRoot be) := fun h => hr (hbelow h)
    simp only [hr, hb, hne, true_and, false_and, or_false, false_or, forall_const,
      IsEmpty.forall_iff, ne_eq, not_not]
  · simp [hr, hb]

/-- What lies above a dataset recover restores is another one, or is mounted before. -/
theorem Kept.parent (h : Kept r x) :
    IsBase r.be (Hierarchy.parent x) ∨ Kept r (Hierarchy.parent x) := by
  by_cases hbase : IsBase r.be (Hierarchy.parent x)
  · exact .inl hbase
  rw [IsBase, not_or] at hbase
  obtain ⟨hroot, hcreated⟩ := hbase
  rcases isWanted_iff.mp h.wanted with ⟨hrpool, hne, -⟩ | rfl
  · have hparent : Under (Hierarchy.parent x) ["rpool"] := hrpool.parent_of_ne hne
    obtain ⟨hown, -⟩ := isOtherBe_eq_false.mp h.own
    refine .inr ⟨isWanted_iff.mpr (.inl ⟨hparent, fun heq => hcreated (by simp [created, heq]),
      fun hmem => hcreated ?_⟩), ?_, ?_⟩
    · exact List.mem_append_left _ (List.mem_cons_of_mem _ hmem)
    · refine isOtherBe_eq_false.mpr ⟨fun hunder => ?_, fun hunder => ?_⟩
      · rcases hown (Under.trans (under_parent x) hunder) with rfl | ⟨hbe, hnebe⟩
        · exact absurd (by simp [created]) hcreated
        · exact .inr ⟨hbe.parent_of_ne hnebe, hroot⟩
      · obtain ⟨a, ha⟩ := hparent
        obtain ⟨b, hb⟩ := hunder
        rw [← ha] at hb
        simp at hb
    · exact fun hbase => hbase.elim hroot hcreated
  · exact absurd (by simp [created, bpoolContainers]) hcreated

/-! ### The loop -/

theorem hasTarget_append {plan plan' : List LayoutMount} {t : String} :
    HasTarget (plan ++ plan') x t ↔ HasTarget plan x t ∨ HasTarget plan' x t := by
  simp only [HasTarget, List.mem_append, or_and_right, exists_or]

theorem hasTarget_singleton {m : LayoutMount} {t : String} :
    HasTarget [m] x t ↔ m.rel = x ∧ m.target = t ∧ t ≠ "" := by simp [HasTarget]

theorem not_hasTarget_skipped {rel : Rel} {reason t : String} :
    ¬ HasTarget [⟨rel, "", reason⟩] x t := by
  rw [hasTarget_singleton]
  rintro ⟨-, rfl, hne⟩
  exact hne rfl

/-- Where the dataset's own properties mount it. -/
def ShownAt (r : RestoreRequest) (mnt : String) (x : Rel) (t : String) : Prop :=
  ∃ guessed mountpoint, r.OnAt guessed x mountpoint ∧ startsWith mountpoint "/" = true ∧
    t = directory mnt ++ mountpoint

/-- What the loop has of the datasets met so far. -/
structure LaidOut (r : RestoreRequest) (mnt : String) (done : List Rel) (st : Layout) : Prop where
  base : ∀ x, IsBase r.be x → st.effective? x = r.mountOf x
  kept : ∀ x ∈ done, Kept r x → st.effective? x = r.mountOf x
  unseen : ∀ x ∉ done, ¬ IsBase r.be x → st.effective? x = none
  unlisted : ∀ x, x ∉ done ∨ IsBase r.be x → ∀ t, ¬ HasTarget st.plan x t
  shown : ∀ x ∈ done, Kept r x → ∀ t, HasTarget st.plan x t ↔ ShownAt r mnt x t

theorem isBase_iff_start (q : LayoutRequest) :
    ((layoutStart q).effective? x).isSome = true ↔ IsBase q.be x := by
  rw [Layout.effective?, List.lookup_isSome_iff]
  simp [layoutStart, IsBase, created, createdContainers, bpoolContainers]

theorem laidOut_start (h : Comparable r emptyRoot) (mnt : String) :
    LaidOut r mnt [] (layoutStart (ofRestore r mnt emptyRoot)) where
  base := by
    rintro x (rfl | hx)
    · rw [h.mountOf_beRoot]
      simp [Layout.effective?, layoutStart, ofRestore]
    · have hne : x ≠ beRoot r.be := by
        rintro rfl
        exact not_created_of_wanted h.beRoot_wanted hx
      rw [mountOf_created r hx]
      show List.lookup x ((beRoot r.be, "/") :: (planStart r).effective) = _
      rw [List.lookup_cons, beq_eq_false_iff_ne.mpr hne]
      rfl
  kept _ hx := absurd hx List.not_mem_nil
  unseen := by
    intro x _ hbase
    rw [← Option.not_isSome_iff_eq_none, isBase_iff_start]
    exact hbase
  unlisted := by
    rintro x - t ⟨m, hm, -⟩
    cases hm
  shown _ hx := absurd hx List.not_mem_nil

theorem mem_before {names done rest : List Rel} (hsplit : sortRels names = done ++ ds :: rest)
    (hx : x ∈ names) (hunder : Under ds x) (hne : ds ≠ x) : x ∈ done := by
  have hpair : (sortRels names).Pairwise fun a b => a.key ≤ b.key :=
    letI : Std.Total fun a b : Rel => a.key ≤ b.key := ⟨fun _ _ => le_total _ _⟩
    letI : IsTrans Rel fun a b => a.key ≤ b.key := ⟨fun _ _ _ => le_trans⟩
    List.pairwise_insertionSort _ _
  have hmem : x ∈ sortRels names := mem_sortRels.mpr hx
  rw [hsplit, List.mem_append, List.mem_cons] at hmem
  rcases hmem with hmem | rfl | hmem
  · exact hmem
  · exact absurd rfl hne
  · rw [hsplit, List.pairwise_append, List.pairwise_cons] at hpair
    exact absurd (hpair.2.1.1 x hmem) (not_le.mpr (key_lt_of_under_of_ne hunder hne))

theorem ne_parent_of_kept (h : Kept r x) : x ≠ Hierarchy.parent x := by
  have hne : x ≠ [] := by
    rintro rfl
    rcases isWanted_iff.mp h.wanted with ⟨hunder, -⟩ | heq
    · exact absurd (List.prefix_nil.mp hunder) (by simp)
    · cases heq
  intro heq
  have hlength := congrArg List.length heq
  rw [List.length_dropLast] at hlength
  have hpos := List.length_pos_of_ne_nil hne
  omega

variable {done rest : List Rel} {st : Layout}

theorem LaidOut.parent_effective (hl : LaidOut r mnt done st) (h : Comparable r emptyRoot)
    (hsplit : sortRels r.stored.keys = done ++ ds :: rest) (hds : Kept r ds) :
    st.effective? (parent ds) = r.mountOf (parent ds) := by
  rcases hds.parent with hbase | hkept
  · exact hl.base _ hbase
  · by_cases hdone : parent ds ∈ done
    · exact hl.kept _ hdone hkept
    · have hnot : parent ds ∉ r.wanted := fun hwanted =>
        hdone (mem_before hsplit (h.mem_wanted.mp hwanted).1 (under_parent ds)
          (ne_parent_of_kept hds))
      rw [hl.unseen _ hdone hkept.base,
        Zark.mountOf_eq_none (fun hcreated => hkept.base (.inr hcreated)) hnot]

theorem LaidOut.skip (hl : LaidOut r mnt done st) {st' : Layout}
    (heffective : st'.effective = st.effective)
    (hplan : ∀ x t, HasTarget st'.plan x t ↔ HasTarget st.plan x t)
    (hds : Kept r ds → ds ∉ done → r.mountOf ds = none ∧ ∀ t, ¬ ShownAt r mnt ds t) :
    LaidOut r mnt (done ++ [ds]) st' := by
  have heff : ∀ x, st'.effective? x = st.effective? x :=
    fun x => by rw [Layout.effective?, heffective, Layout.effective?]
  refine ⟨fun x hx => (heff x).trans (hl.base x hx), fun x hx hkept => ?_, fun x hx hbase => ?_,
    fun x hx t => ?_, fun x hx hkept t => ?_⟩
  · rw [heff]
    by_cases hdone : x ∈ done
    · exact hl.kept x hdone hkept
    · obtain rfl : x = ds := by simpa [hdone] using hx
      rw [hl.unseen x hdone hkept.base, (hds hkept hdone).1]
  · rw [heff]
    exact hl.unseen x (fun hdone => hx (List.mem_append_left _ hdone)) hbase
  · rw [hplan]
    exact hl.unlisted x (hx.imp_left fun hx hdone => hx (List.mem_append_left _ hdone)) t
  · rw [hplan]
    by_cases hdone : x ∈ done
    · exact hl.shown x hdone hkept t
    · obtain rfl : x = ds := by simpa [hdone] using hx
      exact iff_of_false (hl.unlisted x (.inl hdone) t) ((hds hkept hdone).2 t)

theorem ShownAt.parent_isSome {t : String} (h : ShownAt r mnt x t) :
    ∃ above, r.mountOf (parent x) = some above := by
  obtain ⟨-, -, ⟨snap, above, hrestored, -⟩, -⟩ := h
  exact ⟨above, hrestored.parent⟩

/-- A filesystem of the restored tree is shown where its own properties mount it. -/
theorem shownAt_iff (h : Comparable r emptyRoot) (hx : x ∈ r.wanted)
    (hfs : (r.stored.get? x).map Stored.kind = some .filesystem) {above : String}
    (hparent : r.mountOf (parent x) = some above) {t : String} :
    ShownAt r mnt x t ↔ HasTarget [layoutMount (ofRestore r mnt emptyRoot) x above] x t := by
  obtain ⟨snap, hsnap⟩ := Option.isSome_iff_exists.mp (h.resolves x hx)
  have hchoice := @Comparable.choice_eq r emptyRoot mnt x h snap hsnap
  have hat : ∀ guessed mountpoint, r.OnAt guessed x mountpoint ↔
      (propsOf (ofRestore r mnt emptyRoot) x).guessed = guessed ∧
      (propsOf (ofRestore r mnt emptyRoot) x).canmount = "on" ∧
      effectiveMountpoint (propsOf (ofRestore r mnt emptyRoot) x) above (leaf x) = mountpoint := by
    intro guessed mountpoint
    constructor
    · rintro ⟨snap', above', hrestored, hon⟩
      obtain rfl : snap = snap' := Option.some.inj (hsnap.symm.trans hrestored.resolved)
      obtain rfl : above = above' := Option.some.inj (hparent.symm.trans hrestored.parent)
      rwa [hchoice] at hon
    · intro hon
      exact ⟨snap, above, h.isRestored_iff.mpr ⟨hx, hfs, hsnap, hparent⟩, by rwa [hchoice]⟩
  rw [hasTarget_singleton, layoutMount]
  constructor
  · rintro ⟨guessed, mountpoint, hon, habs, rfl⟩
    obtain ⟨-, hcanmount, rfl⟩ := (hat _ _).mp hon
    rw [if_neg (not_not.mpr hcanmount), if_pos habs]
    refine ⟨rfl, rfl, fun hempty => ?_⟩
    rw [String.append_eq_empty_iff] at hempty
    rw [hempty.2] at habs
    exact absurd habs (by decide)
  · split
    · rintro ⟨-, rfl, hne⟩
      exact absurd rfl hne
    · rename_i hcanmount
      split
      · rename_i habs
        rintro ⟨-, rfl, -⟩
        exact ⟨_, _, (hat _ _).mpr ⟨rfl, not_not.mp hcanmount, rfl⟩, habs, rfl⟩
      · rintro ⟨-, rfl, hne⟩
        exact absurd rfl hne

theorem effective?_cons_layout (st : Layout) (m : LayoutMount) (ds x : Rel) (mountpoint : String) :
    ({ st.add m with effective := (ds, mountpoint) :: (st.add m).effective } : Layout).effective? x
      = if x = ds then some mountpoint else st.effective? x := by
  rw [Layout.effective?, List.lookup_cons]
  by_cases h : x = ds
  · simp [h]
  · rw [beq_eq_false_iff_ne.mpr h, if_neg h]
    rfl

theorem rel_layoutMount (q : LayoutRequest) (x : Rel) (above : String) :
    (layoutMount q x above).rel = x := by
  unfold layoutMount
  dsimp only
  split
  · rfl
  · split <;> rfl

theorem mountOf_base (h : Comparable r emptyRoot) (hx : IsBase r.be x) :
    (r.mountOf x).isSome = true := by
  rcases hx with rfl | hcreated
  · rw [h.mountOf_beRoot]
    rfl
  · rw [mountOf_created r hcreated]
    exact ((planned_start r).effective x).mpr (.inl hcreated)

theorem LaidOut.place (hl : LaidOut r mnt done st) (h : Comparable r emptyRoot)
    (hds : ds ∈ r.stored.keys) (hnew : ds ∉ done)
    (hfs : (r.stored.get? ds).map Stored.kind = some .filesystem) (hbase : ¬ IsBase r.be ds)
    {above : String} (habove : Kept r ds → r.mountOf (parent ds) = some above) :
    LaidOut r mnt (done ++ [ds]) { st.add (layoutMount (ofRestore r mnt emptyRoot) ds above) with
      effective :=
        (ds, effectiveMountpoint (propsOf (ofRestore r mnt emptyRoot) ds) above (leaf ds)) ::
          (st.add (layoutMount (ofRestore r mnt emptyRoot) ds above)).effective } := by
  have htarget :
      ∀ x t, HasTarget (st.plan ++ [layoutMount (ofRestore r mnt emptyRoot) ds above]) x t ↔
      HasTarget st.plan x t ∨ x = ds ∧ HasTarget
          [layoutMount (ofRestore r mnt emptyRoot) ds above] x t := by
    intro x t
    rw [hasTarget_append]
    refine or_congr_right (iff_and_self.mpr fun hone => ?_)
    rw [hasTarget_singleton, rel_layoutMount] at hone
    exact hone.1.symm
  have hkeep : ∀ x, x ≠ ds → ∀ t, HasTarget
      (st.plan ++ [layoutMount (ofRestore r mnt emptyRoot) ds above]) x t ↔
      HasTarget st.plan x t := fun x hx t =>
    (htarget x t).trans (or_iff_left fun hone => hx hone.1)
  refine ⟨fun x hx => ?_, fun x hx hkept => ?_, fun x hx hxbase => ?_, fun x hx t => ?_,
    fun x hx hkept t => ?_⟩
  · have hne : x ≠ ds := by
      rintro rfl
      exact hbase hx
    rw [effective?_cons_layout, if_neg hne, hl.base x hx]
  · rw [effective?_cons_layout]
    split
    · rename_i heq
      subst heq
      rw [@Comparable.mountOf_eq r emptyRoot mnt _ h (h.mem_wanted.mpr ⟨hds, hkept.wanted⟩)
        hfs, habove hkept]
      rfl
    · rename_i hne
      exact hl.kept x (by simpa [hne] using hx) hkept
  · rw [List.mem_append, List.mem_singleton, not_or] at hx
    rw [effective?_cons_layout, if_neg hx.2, hl.unseen x hx.1 hxbase]
  · have hne : x ≠ ds := by
      rintro rfl
      exact hx.elim (fun hx => hx (by simp)) hbase
    exact fun hone => hl.unlisted x (hx.imp_left fun hx hdone => hx (List.mem_append_left _ hdone))
      t ((hkeep x hne t).mp hone)
  · by_cases hne : x = ds
    · subst hne
      refine (htarget x t).trans ?_
      rw [or_iff_right (hl.unlisted x (.inl hnew) t), and_iff_right rfl,
        shownAt_iff h (h.mem_wanted.mpr ⟨hds, hkept.wanted⟩) hfs (habove hkept)]
    · exact (hkeep x hne t).trans (hl.shown x (by simpa [hne] using hx) hkept t)

theorem LaidOut.step (hl : LaidOut r mnt done st) (h : Comparable r emptyRoot)
    (hsplit : sortRels r.stored.keys = done ++ ds :: rest) :
    LaidOut r mnt (done ++ [ds]) (layoutRow (ofRestore r mnt emptyRoot) st ds) := by
  have hds : ds ∈ r.stored.keys := mem_sortRels.mp (hsplit ▸ by simp)
  have hnew : ds ∉ done := by
    have hnodup : (sortRels r.stored.keys).Nodup := nodup_sortRels.mpr r.stored.nodup
    rw [hsplit, List.nodup_append] at hnodup
    exact fun hdone => hnodup.2.2 ds hdone ds List.mem_cons_self rfl
  have hlive : isArchived ds = false := by
    obtain ⟨d, hd, rfl⟩ := Keyed.mem_keys.mp hds
    exact h.live d hd
  rw [layoutRow, if_neg (by simp [hlive])]
  split
  · -- no filesystem, or one mounted before
    rename_i hskip
    refine hl.skip rfl (fun _ _ => Iff.rfl) fun hkept _ => ?_
    have hkind : (r.stored.get? ds).map Stored.kind ≠ some .filesystem := by
      refine hskip.resolve_right ?_
      rw [hl.unseen ds hnew hkept.base]
      decide
    refine ⟨h.mountOf_eq_none hkept.wanted hkind, ?_⟩
    rintro t ⟨-, -, ⟨snap, above, hrestored, -⟩, -⟩
    exact hkind (h.isRestored_iff.mp hrestored).2.1
  · rename_i hfs
    rw [not_or, not_not] at hfs
    split
    · -- another boot environment
      rename_i hother
      refine hl.skip rfl (fun x t => ?_) fun hkept _ => ?_
      · exact hasTarget_append.trans (or_iff_left not_hasTarget_skipped)
      · exact absurd (hkept.own.symm.trans hother) Bool.false_ne_true
    · rename_i hown
      split
      · -- its parent is not part of the tree
        rename_i hparent
        refine hl.skip rfl (fun x t => ?_) fun hkept _ => ?_
        · exact hasTarget_append.trans (or_iff_left not_hasTarget_skipped)
        · rw [hl.parent_effective h hsplit hkept] at hparent
          refine ⟨?_, fun t hshown => ?_⟩
          · rw [@Comparable.mountOf_eq r emptyRoot mnt _ h
              (h.mem_wanted.mpr ⟨hds, hkept.wanted⟩) hfs.1, hparent]
            rfl
          · obtain ⟨above, habove⟩ := hshown.parent_isSome
            rw [hparent] at habove
            cases habove
      · rename_i above hparent
        have hbase : ¬ IsBase r.be ds := by
          intro hbase
          rw [hl.base ds hbase] at hfs
          exact hfs.2 (mountOf_base h hbase)
        exact hl.place h hds hnew hfs.1 hbase fun hkept =>
          (hl.parent_effective h hsplit hkept).symm.trans hparent

theorem laidOut_plan (h : Comparable r emptyRoot) (mnt : String) :
    LaidOut r mnt (sortRels r.stored.keys)
      ((sortRels r.stored.keys).foldl (layoutRow (ofRestore r mnt emptyRoot))
        (layoutStart (ofRestore r mnt emptyRoot))) := by
  have hrun : ∀ done rest st, sortRels r.stored.keys = done ++ rest → LaidOut r mnt done st →
      LaidOut r mnt (sortRels r.stored.keys)
      (rest.foldl (layoutRow (ofRestore r mnt emptyRoot)) st) := by
    intro done rest
    induction rest generalizing done with
    | nil =>
        intro st hsplit hl
        rw [hsplit, List.append_nil]
        exact hl
    | cons ds rest ih =>
        intro st hsplit hl
        exact ih (done ++ [ds]) _ (by simp [hsplit]) (hl.step h hsplit)
  exact hrun [] _ _ rfl (laidOut_start h mnt)

/-! ### Recover's rows -/

theorem judgeRow_of_restored {st : Planning} {snap : Snap} {above : String}
    (hrestored : r.IsRestored ds snap above) (hparent : st.effective? (parent ds) = some above) :
    judgeRow r ds st = .inr (snap, above) := by
  rw [judgeRow, if_neg hrestored.filesystem, hrestored.resolved, hparent]

theorem row_of_recorded (hcovers : ∀ ds, r.excluded.covers ds = false) {t : String}
    (hat : r.OnAt false ds t) :
    ∃ row ∈ buildPlan r, row.rel = ds ∧ row.On false ∧ row.effective = t := by
  have hrun : ∀ done rest st, r.wanted = done ++ rest → Mounted r done st →
      (∀ x ∈ done, ∀ t, r.OnAt false x t → ∃ row ∈ st.rows, row.rel = x ∧ row.On false ∧
        row.effective = t) →
      ∀ x ∈ r.wanted, ∀ t, r.OnAt false x t → ∃ row ∈ (rest.foldl (planRow r) st).rows,
      row.rel = x ∧ row.On false ∧ row.effective = t := by
    intro done rest
    induction rest generalizing done with
    | nil =>
        intro st hsplit _ hrows
        rw [hsplit, List.append_nil]
        exact hrows
    | cons ds rest ih =>
        intro st hsplit hmounted hrows
        have hadd : planRow r st ds = addRow r ds st := by
          rw [planRow, if_neg (by simp [hcovers ds])]
        rw [List.foldl_cons, hadd]
        refine ih (done ++ [ds]) _ (by simp [hsplit]) (mounted_addRow hmounted hsplit (hcovers ds))
          fun x hx t hat => ?_
        rcases List.mem_append.mp hx with hx | hx
        · obtain ⟨row, hrow, hfacts⟩ := hrows x hx t hat
          refine ⟨row, ?_, hfacts⟩
          rw [addRow]
          split <;> exact List.mem_append_left _ hrow
        · obtain rfl := List.mem_singleton.mp hx
          obtain ⟨snap, above, hrestored, hrecorded, hcanmount, htarget⟩ := hat
          have hparent := (hmounted.parent_effective hsplit).trans hrestored.parent
          have hprops : rowProps r x snap above st = (r.choice x snap, st.claimed) := by
            rw [rowProps_eq, if_neg (by simp [hrecorded])]
          rw [addRow, judgeRow_of_restored hrestored hparent]
          dsimp only
          rw [hprops]
          exact ⟨_, List.mem_append_right _ (List.mem_singleton_self _), rfl,
            ⟨rfl, _, rfl, hrecorded, hcanmount⟩, htarget⟩
  obtain ⟨snap, above, hrestored, -⟩ := id hat
  exact hrun [] r.wanted _ rfl (mounted_start r) (fun x hx => absurd hx List.not_mem_nil) ds
    hrestored.wanted t hat

/-- Another row keeps a guess that mounts it where the dataset's guess mounts that. -/
def Taken (r : RestoreRequest) (ds : Rel) : Prop :=
  ∃ row ∈ buildPlan r, row.rel ≠ ds ∧ row.On true ∧ r.OnAt true ds row.effective

/-- A row that is restored with `canmount=on` and an absolute mountpoint. -/
def Mounts (row : RestoreRow) : Prop :=
  (∃ guessed, row.On guessed) ∧ startsWith row.effective "/" = true

/-- Mount shows the dataset where its row mounts it, and nowhere where no row does. -/
def Shows (r : RestoreRequest) (mnt : String) (emptyRoot : Rel → Bool) (ds : Rel) : Prop :=
  ∀ t, HasTarget (planOriginLayout (ofRestore r mnt emptyRoot)) ds t ↔
    ∃ row ∈ buildPlan r, row.rel = ds ∧ Mounts row ∧ t = directory mnt ++ row.effective

theorem shows_kept (h : Comparable r emptyRoot) (hds : ds ∈ r.stored.keys) (hkept : Kept r ds)
    (htaken : ¬ Taken r ds) : Shows r mnt emptyRoot ds := by
  have hmounted := mounted_buildPlan r
  have hwanted : ds ∈ r.wanted := h.mem_wanted.mpr ⟨hds, hkept.wanted⟩
  refine fun t => ((laidOut_plan h mnt).shown ds (mem_sortRels.mpr hds) hkept t).trans ?_
  constructor
  · rintro ⟨guessed, mountpoint, hat, habs, rfl⟩
    cases guessed with
    | true =>
        obtain ⟨row, hrow, hon, rfl⟩ := hmounted.met true ds hwanted mountpoint hat
        have hrel : row.rel = ds := by
          by_contra hne
          exact htaken ⟨row, hrow, hne, hon, hat⟩
        exact ⟨row, hrow, hrel, ⟨⟨true, hon⟩, habs⟩, rfl⟩
    | false =>
        obtain ⟨row, hrow, hrel, hon, rfl⟩ := row_of_recorded h.excludes hat
        exact ⟨row, hrow, hrel, ⟨⟨false, hon⟩, habs⟩, rfl⟩
  · rintro ⟨row, hrow, rfl, ⟨⟨guessed, hon⟩, habs⟩, rfl⟩
    exact ⟨guessed, _, hmounted.rows row hrow guessed hon, habs, rfl⟩

theorem wanted_of_row {row : RestoreRow} (hrow : row ∈ buildPlan r) : row.rel ∈ r.wanted := by
  have hmem : row.rel ∈ (buildPlan r).map RestoreRow.rel := List.mem_map_of_mem hrow
  rw [rels_buildPlan] at hmem
  exact List.mem_of_mem_filter hmem

theorem unlisted_base (h : Comparable r emptyRoot) (hbase : IsBase r.be ds) (t : String) :
    ¬ HasTarget (planOriginLayout (ofRestore r mnt emptyRoot)) ds t :=
  (laidOut_plan h mnt).unlisted ds (.inr hbase) t

/-- Mount shows a filesystem of the restored tree where recover's row mounts it, and nowhere else,
unless recover took its guess back; the boot environment's root, mounted already, is not listed, and
recover has no row for what else the drive holds. -/
theorem layout_shows_restored (h : Comparable r emptyRoot) (mnt : String) {d : Stored}
    (hd : d ∈ r.stored) (hown : d.rel = beRoot r.be ∨ isOtherBe r.be d.rel = false) :
    (d.rel ≠ beRoot r.be → d.rel ∈ created ∨ r.isWanted d.rel = true → ¬ Taken r d.rel →
      Shows r mnt emptyRoot d.rel) ∧
      (d.rel = beRoot r.be → ∀ t, ¬ HasTarget
        (planOriginLayout (ofRestore r mnt emptyRoot)) d.rel t) ∧
      (r.isWanted d.rel = false → ∀ row ∈ buildPlan r, row.rel ≠ d.rel) := by
  refine ⟨fun hroot hscope htaken => ?_, fun hroot => unlisted_base h (.inl hroot),
    fun hnot row hrow heq => ?_⟩
  · by_cases hcreated : d.rel ∈ created
    · refine fun t => iff_of_false (unlisted_base h (.inr hcreated) t) ?_
      rintro ⟨row, hrow, hrel, -⟩
      exact not_created_of_wanted (wanted_of_row hrow) (hrel ▸ hcreated)
    · exact shows_kept h (Keyed.key_mem_keys hd)
        ⟨hscope.resolve_left hcreated, hown.resolve_left hroot, fun hbase =>
          hbase.elim hroot hcreated⟩ htaken
  · have hwanted := (h.mem_wanted.mp (wanted_of_row hrow)).2
    rw [heq, hnot] at hwanted
    cases hwanted

end Compare

/-- A boot environment and two homes, of which none says where it is mounted, and a dataset of the
boot pool, which does. -/
def twoHomes : RestoreRequest :=
  let snaps :=
    [["rpool", "ROOT", "ubuntu"], ["rpool", "USERDATA", "home_a"],
        ["rpool", "USERDATA", "home_b"]].map fun rel : Rel =>
      ({ stored := rel, name := "zark_2026-03-01_00:00:00Z", creation := 100 } : Snap)
  { stored := ⟨[⟨["rpool"], .filesystem⟩, ⟨["rpool", "ROOT"], .filesystem⟩, ⟨["rpool", "ROOT", "ubuntu"], .filesystem⟩,
      ⟨["rpool", "USERDATA"], .filesystem⟩, ⟨["rpool", "USERDATA", "home_a"], .filesystem⟩,
      ⟨["rpool", "USERDATA", "home_b"], .filesystem⟩, ⟨["bpool"], .filesystem⟩,
      ⟨["bpool", "grub"], .filesystem⟩], by decide⟩
    be := "ubuntu"
    point := ⟨"zark_", snaps⟩
    snaps := snaps
    zark := fun rel => if rel = ["bpool", "grub"] then some ("on", "/boot/grub") else none }

theorem comparable_twoHomes : Comparable twoHomes fun _ => false where
  live := by decide +kernel
  be := by decide +kernel
  zark := by simp [twoHomes, beRoot]
  cache _ h := nomatch h
  resolves := by decide +kernel
  excludes _ := rfl
  emptyRoot _ _ _ := rfl

theorem layout_shows_restored_home :
    Shows twoHomes "/mnt" (fun _ => false) ["rpool", "USERDATA", "home_a"] := by
  have hmem : (⟨["rpool", "USERDATA", "home_a"], .filesystem⟩ : Stored) ∈ twoHomes.stored := by
    decide +kernel
  refine (layout_shows_restored comparable_twoHomes "/mnt" hmem (.inr (by decide +kernel))).1
    (by decide +kernel) (.inr (by decide +kernel)) ?_
  -- every other row is mounted elsewhere, or taken back
  have hrows : ∀ row ∈ buildPlan twoHomes, row.rel ≠ ["rpool", "USERDATA", "home_a"] →
      row.effective ≠ "/home" ∨ row.props.map MountProps.canmount = some "noauto" := by
    decide +kernel
  have hhome : propsOf (ofRestore twoHomes "/mnt" fun _ => false) ["rpool", "USERDATA", "home_a"]
      = ⟨"on", "/home", .ubuntu⟩ := by decide +kernel
  rintro ⟨row, hrow, hne, ⟨-, p, hprops, -, hcanmount⟩, snap, above, hrestored, -, -, htarget⟩
  rw [comparable_twoHomes.choice_eq hrestored.resolved, hhome] at htarget
  rcases hrows row hrow hne with hother | hother
  · exact hother htarget.symm
  · rw [hprops, Option.map_some, hcanmount] at hother
    exact absurd hother (by decide)

/-- Mount puts both homes on one directory, of which recover leaves one unmounted, lists the boot
environment's root nowhere, and has a place for a dataset recover does not restore. -/
theorem layout_apart : ¬ Shows twoHomes "/mnt" (fun _ => false) ["rpool", "USERDATA", "home_b"] ∧
    ¬ Shows twoHomes "/mnt" (fun _ => false) ["rpool", "ROOT", "ubuntu"] ∧
    ¬ Shows twoHomes "/mnt" (fun _ => false) ["bpool", "grub"] := by
  refine ⟨fun h => ?_, fun h => ?_, fun h => ?_⟩
  · have htarget : HasTarget (planOriginLayout (ofRestore twoHomes "/mnt" fun _ => false)) ["rpool",
        "USERDATA", "home_b"] "/mnt/home" :=
      ⟨⟨["rpool", "USERDATA", "home_b"], "/mnt/home", ""⟩, by decide +kernel, rfl, rfl, by decide⟩
    obtain ⟨row, hrow, hrel, ⟨⟨guessed, -, p, hprops, -, hcanmount⟩, -⟩, -⟩ :=
      (h "/mnt/home").mp htarget
    have hnoauto : ∀ row ∈ buildPlan twoHomes, row.rel = ["rpool", "USERDATA", "home_b"] →
        row.props.map MountProps.canmount = some "noauto" := by
      decide +kernel
    have hrow := hnoauto row hrow hrel
    rw [hprops, Option.map_some, hcanmount] at hrow
    exact absurd hrow (by decide)
  · obtain ⟨row, hrow, hfacts⟩ : ∃ row ∈ buildPlan twoHomes,
        row.rel = ["rpool", "ROOT", "ubuntu"] ∧ row.effective = "/" ∧ row.restored = true ∧
        row.props = some ⟨"on", "/", .ubuntu⟩ := by decide +kernel
    obtain ⟨hrel, heffective, hrestored, hprops⟩ := hfacts
    refine unlisted_base comparable_twoHomes (.inl rfl) ("/mnt" ++ "/")
      ((h _).mpr ⟨row, hrow, hrel, ⟨⟨_, hrestored, _, hprops, rfl, rfl⟩, ?_⟩, ?_⟩)
    · rw [heffective]
      decide
    · rw [heffective]
      decide +kernel
  · obtain ⟨target, htarget⟩ : ∃ target, HasTarget
        (planOriginLayout (ofRestore twoHomes "/mnt" fun _ => false)) ["bpool", "grub"] target :=
      ⟨_, ⟨["bpool", "grub"], "/mnt/boot/grub", ""⟩, by decide +kernel, rfl, rfl, by decide⟩
    obtain ⟨row, hrow, hrel, -⟩ := (h target).mp htarget
    have hnone : ∀ row ∈ buildPlan twoHomes, row.rel ≠ ["bpool", "grub"] := by decide +kernel
    exact hnone row hrow hrel

end Zark.OriginLayout
