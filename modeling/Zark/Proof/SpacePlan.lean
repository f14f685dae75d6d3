import Zark.Proof.MakeRoom

/-!
# What a space plan costs

A space plan is offered over the policy's removals, applied with it by a backup, declined or already
applied in a prune. The two name no snapshot twice, since a point the policy takes from is no
candidate; so what both take together is one exact list, a tree goes whole only when the list names
all it holds, and nothing of the list is what a drive must keep.
-/

namespace Zark

open Hierarchy

/-- The removals a space plan goes with, and those its candidates stay clear of. -/
inductive OfferedOver (dest : Drive) (r : Request) : (applied planned : Prune) → Prop
  | backup {prune : Prune} (h : planPrune dest r = some prune) : OfferedOver dest r prune prune
  | declined {prune : Prune} (h : planPrune dest r = some prune) : OfferedOver dest r {} prune
  /-- The policy was applied, and the drive is read again. -/
  | reread : OfferedOver dest r {} {}

/-- What no space plan may take. -/
inductive Precious (dest : Drive) (r : Request) (d : Dest) (s : Ref) : Prop
  | complete (h : newestComplete (pointTimes dest) r.complete r.wholePoints = some s.name)
  | newest (hlive : isLive d = true) (hnewest : d.newest = some s)
  | pinned (h : (r.pinned.lookup (d.rel, s.name)).isSome = true)
  | protect (h : (d.rel, s.name) ∈ r.protect)

theorem Precious.spared {dest : Drive} {r : Request} {d : Dest} {s : Ref}
    (h : Precious dest r d s) : Spared dest r d s := by
  cases h with
  | complete h => exact .complete h
  | newest hlive hnewest => exact .newest hlive hnewest
  | pinned h => exact .pinned h
  | protect h => exact .protect h

/-- The time of a point on the drive. -/
def timeOf (dest : Drive) (name : String) : ℕ := (((pointTimes dest).get? name).map Prod.snd).getD 0

/-- Some dataset still has the snapshot. -/
def Survives (dest : Drive) (d : Dest) (s : Ref) : Prop := ∃ e ∈ dest, e.rel = d.rel ∧ s ∈ e.snaps

/-- What applying the policy's removals and the first points of a space plan comes to. -/
structure SpaceCost (dest : Drive) (r : Request) (applied planned : Prune) (names : List String) :
    Prop where
  /-- Everything listed goes and nothing else does. -/
  exact : ∀ d ∈ dest, ∀ s ∈ d.snaps, Survives
    ((dest.pruned applied).pruned (beyond dest r applied names)) d s ↔
    (d.rel, s.name) ∉ (roomRemovals dest r applied names).map Removal.target
  keeps : ∀ d ∈ dest, ∀ s ∈ d.snaps, Precious dest r d s →
    Survives ((dest.pruned applied).pruned (beyond dest r applied names)) d s
  once : ((roomRemovals dest r applied names).map Removal.target).Nodup
  fresh : ∀ rm ∈ (beyond dest r applied names).snapshots,
    rm.target ∉ planned.snapshots.map Removal.target
  whole : ∀ top ∈ (applied.datasets ++ (beyond dest r applied names).datasets).map Prod.fst,
    ∀ e ∈ dest, Under e.rel top →
    ∀ s ∈ e.snaps, (e.rel, s.name) ∈ (roomRemovals dest r applied names).map Removal.target

/-- What a space plan's candidates are, beside the policy's removals. -/
structure OldestFirst (dest : Drive) (r : Request) (planned : Prune) : Prop where
  sorted : (spaceCandidates dest r planned).Pairwise fun a b => timeOf dest a ≤ timeOf dest b
  outside : ∀ name ∈ spaceCandidates dest r planned, (timeOf dest name : ℤ) < r.window
  clear : ∀ name ∈ spaceCandidates dest r planned, ∀ rm ∈ planned.snapshots, rm.name ≠ name

section SpacePlan

variable {dest : Drive} {r : Request} {applied planned : Prune} {names : List String}

/-- The candidates are monthly points outside the window other than the newest complete one. -/
theorem monthly_of_mem_spaceCandidates {name : String} (h : name ∈ spaceCandidates dest r planned) :
    (timeOf dest name : ℤ) < r.window ∧
    newestComplete (pointTimes dest) r.complete r.wholePoints ≠ some name := by
  obtain ⟨-, hchosen⟩ := List.mem_filter.mp ((List.mem_insertionSort _).mp h)
  rw [Bool.and_eq_true, Bool.and_eq_true, bne_iff_ne] at hchosen
  obtain ⟨⟨hold, hnewest⟩, -⟩ := hchosen
  obtain ⟨p, hp, hbefore⟩ := (Option.any_eq_true _ _).mp hold
  refine ⟨?_, Ne.symm hnewest⟩
  rw [timeOf, hp]
  simpa using hbefore

theorem oldestFirst (dest : Drive) (r : Request) (planned : Prune) :
    OldestFirst dest r planned where
  sorted := List.pairwise_insertionSort _ _
  outside _ h := (monthly_of_mem_spaceCandidates h).1
  clear _ h := (of_mem_spaceCandidates h).2

theorem OfferedOver.exact_applied (h : OfferedOver dest r applied planned) :
    Exact dest applied.snapshots := by
  cases h with
  | backup hprune => exact exact_snapshots hprune
  | declined | reread => exact ⟨List.nodup_nil, by simp⟩

theorem OfferedOver.datasets (h : OfferedOver dest r applied planned) :
    applied.datasets = wholeDatasets dest applied.snapshots := by
  cases h with
  | backup hprune => exact datasets_of_planPrune hprune
  | declined | reread => exact (wholeDatasets_nil dest).symm

theorem OfferedOver.mem_planned (h : OfferedOver dest r applied planned) {rm : Removal}
    (hrm : rm ∈ applied.snapshots) :
    rm ∈ planned.snapshots := by
  cases h with
  | backup => exact hrm
  | declined | reread => cases hrm

theorem OfferedOver.exact_room (h : OfferedOver dest r applied planned)
    (hnames : names.Sublist (spaceCandidates dest r planned)) :
    Exact dest (roomRemovals dest r applied names) := by
  apply h.exact_applied.append (exact_points (hnames.nodup nodup_spaceCandidates))
  intro rm hrm rm' hrm'
  obtain ⟨name, hname, hrm'⟩ := List.mem_flatMap.mp hrm'
  obtain ⟨d, -, s, -, ⟨rfl, -⟩, rfl⟩ := mem_pointRemovals.mp hrm'
  exact (of_mem_spaceCandidates (hnames.subset hname)).2 rm (h.mem_planned hrm)

/-- Neither part of the list names what no space plan may take. -/
theorem OfferedOver.not_listed (h : OfferedOver dest r applied planned)
    (hnames : names.Sublist (spaceCandidates dest r planned)) {d : Dest} {s : Ref} (hd : d ∈ dest)
    (hs : s ∈ d.snaps) (hprecious : Precious dest r d s) :
    (d.rel, s.name) ∉ (roomRemovals dest r applied names).map Removal.target := by
  rw [roomRemovals, List.map_append, List.mem_append, not_or]
  constructor
  · cases h with
    | backup hprune => exact not_mem_snapshots_of_spared hprune hd hs hprecious.spared
    | declined | reread => exact List.not_mem_nil
  · intro hmem
    obtain ⟨rm, hrm, htarget⟩ := List.mem_map.mp hmem
    obtain ⟨name, hname, hrm⟩ := List.mem_flatMap.mp hrm
    obtain ⟨e, he, t, ht, ⟨rfl, hpinned, hprotect, hnewest⟩, rfl⟩ := mem_pointRemovals.mp hrm
    obtain ⟨hrel, htname⟩ := Prod.mk.inj htarget
    obtain rfl : e = d := Keyed.eq_of_key he hd hrel
    obtain rfl : t = s := Keyed.eq_of_key ht hs htname
    cases hprecious with
    | complete hcomplete => exact (monthly_of_mem_spaceCandidates (hnames.subset hname)).2 hcomplete
    | newest hlive hlast => simp [hlive, hlast] at hnewest
    | pinned hpin => simp [hpinned] at hpin
    | protect hprot => exact hprotect hprot

/-- A tree that goes holds nothing but what is listed. -/
theorem listed_of_treeGoes {removals : List Removal} (hexact : Exact dest removals) {e : Dest}
    (he : e ∈ dest) {s : Ref} (hs : s ∈ e.snaps)
    (h : treeGoes dest (emptied removals) e.rel = true) :
    (e.rel, s.name) ∈ removals.map Removal.target := by
  obtain ⟨top, -, hunder, -, hbelow⟩ := treeGoes_iff.mp h
  rcases hbelow e he hunder with hempty | hempty
  · exact ((emptied_iff hexact he).mp hempty).2.2 s hs
  · rw [Keyed.mem_def, hempty] at hs
    cases hs

theorem OfferedOver.survives_iff (h : OfferedOver dest r applied planned)
    (hnames : names.Sublist (spaceCandidates dest r planned)) {d : Dest} {s : Ref} (hd : d ∈ dest)
    (hs : s ∈ d.snaps) :
    Survives ((dest.pruned applied).pruned (beyond dest r applied names)) d s ↔
      (d.rel, s.name) ∉ (roomRemovals dest r applied names).map Removal.target := by
  have hexact := h.exact_room hnames
  have hget := get?_beyond h.exact_applied h.datasets hexact d.rel
  rw [Keyed.get?_of_mem hd, Option.map_some] at hget
  constructor
  · rintro ⟨e, he, hrel, hmem⟩
    rw [← hrel, Keyed.get?_of_mem he] at hget
    split at hget
    · cases hget
    · obtain rfl := Option.some.inj hget
      exact (Dest.mem_withoutSnaps.mp hmem).2
  · intro hstays
    rw [if_neg fun hgoes => hstays (listed_of_treeGoes hexact hd hs hgoes)] at hget
    exact ⟨_, Keyed.mem_of_get? hget, rfl, Dest.mem_withoutSnaps.mpr ⟨hs, hstays⟩⟩

theorem OfferedOver.spaceCost (h : OfferedOver dest r applied planned)
    (hnames : names.Sublist (spaceCandidates dest r planned)) :
    SpaceCost dest r applied planned names := by
  have hexact := h.exact_room hnames
  refine ⟨fun d hd s hs => h.survives_iff hnames hd hs,
    fun d hd s hs hprecious => (h.survives_iff hnames hd hs).mpr
      (h.not_listed hnames hd hs hprecious), hexact.nodup, ?_, ?_⟩
  · intro rm hrm hmem
    obtain ⟨name, hname, hrm⟩ := List.mem_flatMap.mp hrm
    obtain ⟨d, -, s, -, ⟨rfl, -⟩, rfl⟩ := mem_pointRemovals.mp hrm
    obtain ⟨rm', hrm', heq⟩ := List.mem_map.mp hmem
    exact (of_mem_spaceCandidates (hnames.subset hname)).2 rm' hrm' (congrArg Prod.snd heq)
  · intro top htop e he hunder s hs
    apply listed_of_treeGoes hexact he hs
    rw [List.map_append, List.mem_append] at htop
    rcases htop with htop | htop
    · rw [h.datasets] at htop
      refine treeGoes_mono (fun d hd => emptied_mono h.exact_applied hexact hd) ?_
      rw [← covered_wholeDatasets]
      exact covered_iff.mpr ⟨top, htop, hunder⟩
    · rw [← covered_wholeDatasets]
      obtain ⟨t, ht, rfl⟩ := List.mem_map.mp htop
      exact covered_iff.mpr ⟨t.1, List.mem_map_of_mem (List.mem_filter.mp ht).1, hunder⟩

end SpacePlan

/-- The candidates a prune lists: a point none of whose snapshots can go is not offered. -/
def listedCandidates (dest : Drive) (r : Request) (planned : Prune) : List String :=
  (spaceCandidates dest r planned).filter fun name => !(pointRemovals dest r name).isEmpty

/-- However many points are agreed to, a space plan takes what it lists, each snapshot once and
nothing a drive must keep. -/
theorem spacePlan_cost {dest : Drive} {r : Request} {applied planned : Prune}
    (h : OfferedOver dest r applied planned) :
    (∀ k, SpaceCost dest r applied planned ((spaceCandidates dest r planned).take k)) ∧
      (∀ k, SpaceCost dest r applied planned ((listedCandidates dest r planned).take k)) ∧
      OldestFirst dest r planned :=
  ⟨fun k => h.spaceCost (List.take_sublist k _), fun k =>
    h.spaceCost ((List.take_sublist k _).trans List.filter_sublist), oldestFirst dest r planned⟩

/-- The January point of the drive with an archived lineage, offered after the policy. -/
theorem spacePlan_cost_lineages :
    (∀ k, SpaceCost lineages lineagesRequest lineagesPrune lineagesPrune
        ((spaceCandidates lineages lineagesRequest lineagesPrune).take k)) ∧
      (∀ k, SpaceCost lineages lineagesRequest lineagesPrune lineagesPrune
        ((listedCandidates lineages lineagesRequest lineagesPrune).take k)) ∧
      OldestFirst lineages lineagesRequest lineagesPrune :=
  spacePlan_cost (.backup (by decide))

example : spaceCandidates lineages lineagesRequest lineagesPrune
      = ["zark_1970-01-01_00:16:40Z"] := by decide

end Zark
