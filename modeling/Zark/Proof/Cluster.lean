import Zark.Cluster
import Zark.Library.Runs

/-!
# What a restore point is

The loop over one family keeps a current point whose snapshots are a run, so what it finds are the
runs of the family's order. From this: every snapshot is in one point, and a point ends exactly
where the next snapshot would be too far from its dataset's first one or from the last one taken.
-/

namespace Zark

open Hierarchy

/-! ### Runs -/

/-- Each snapshot within the gap of its dataset's first one, and of the one before it unless the
family is syncoid's. -/
structure IsRunOf (family : String) (members : List Snap) : Prop where
  near : ∀ s ∈ members, ∀ first ∈ members.find? (·.dataset = s.dataset),
    s.creation ≤ first.creation + repeatGap
  dense : sequential family = false → members.IsChain fun s t => t.creation ≤ s.creation + repeatGap

/-- The snapshot can go on with the run. -/
def joins (family : String) (members : List Snap) (s : Snap) : Bool :=
  !((members.find? (·.dataset = s.dataset)).any fun first =>
    decide (repeatGap < s.creation - first.creation)) &&
    (sequential family || !(members.getLast?.any fun last =>
      decide (repeatGap < s.creation - last.creation)))

theorem isRunOf_singleton (family : String) (s : Snap) : IsRunOf family [s] where
  near t ht first hfirst := by
    rw [List.mem_singleton.mp ht] at hfirst ⊢
    rw [List.find?_cons_of_pos (by simp)] at hfirst
    cases hfirst
    exact Nat.le_add_right _ _
  dense _ := List.IsChain.singleton s

theorem find?_append_of_mem {members : List Snap} {s t : Snap} (ht : t ∈ members) :
    (members ++ [s]).find? (·.dataset = t.dataset) = members.find? (·.dataset = t.dataset) := by
  have hsome : (members.find? (·.dataset = t.dataset)).isSome :=
    List.find?_isSome.mpr ⟨t, ht, by simp⟩
  rw [List.find?_append, Option.or_of_isSome hsome]

/-- A run goes on with a snapshot exactly when the snapshot joins it. -/
theorem isRunOf_concat_iff {family : String} {members : List Snap}
    (h : IsRunOf family members) {s : Snap} :
    IsRunOf family (members ++ [s]) ↔ joins family members s = true := by
  have hlast : (sequential family = false →
      ∀ last ∈ members.getLast?, s.creation ≤ last.creation + repeatGap) ↔
      (sequential family || !(members.getLast?.any fun last =>
          decide (repeatGap < s.creation - last.creation))) = true := by
    cases sequential family with
    | true => simp
    | false =>
        cases members.getLast? with
        | none => simp
        | some last => simp; omega
  have hfirst : (∀ first ∈ members.find? (·.dataset = s.dataset),
      s.creation ≤ first.creation + repeatGap) ↔
      (!((members.find? (·.dataset = s.dataset)).any fun first =>
          decide (repeatGap < s.creation - first.creation))) = true := by
    cases members.find? (·.dataset = s.dataset) with
    | none => simp
    | some first => simp; omega
  rw [joins, Bool.and_eq_true, ← hlast, ← hfirst]
  constructor
  · intro hrun
    refine ⟨fun first hmem => hrun.near s (List.mem_append_right _ List.mem_cons_self) first ?_,
      fun hdense last hmem => ?_⟩
    · rw [List.find?_append, Option.mem_def.mp hmem]
      rfl
    · exact (List.isChain_append.mp (hrun.dense hdense)).2.2 last hmem s rfl
  · rintro ⟨hnear, hdense⟩
    refine ⟨fun t ht first hmem => ?_, fun hseq => ?_⟩
    · obtain ht | ht := List.mem_append.mp ht
      · rw [find?_append_of_mem ht] at hmem
        exact h.near t ht first hmem
      · rw [List.mem_singleton.mp ht] at hmem ⊢
        cases hfind : members.find? (·.dataset = s.dataset) with
        | some x =>
            rw [List.find?_append, hfind] at hmem
            cases hmem
            exact hnear first hfind
        | none =>
            rw [List.find?_append, hfind, Option.none_or, List.find?_cons_of_pos (by simp)] at hmem
            cases hmem
            exact Nat.le_add_right _ _
    · refine (h.dense hseq).append (List.IsChain.singleton s) fun last hmem t ht => ?_
      cases ht
      exact hdense hseq last hmem

/-! ### The loop -/

/-- The current point's first sightings and last creation are those of its members. -/
structure Clustering.Keeps (family : String) (st : Clustering) (members : List Snap) : Prop where
  current : st.current = some ⟨family, members⟩
  firstSeen : ∀ ds, st.firstSeen.lookup ds = (members.find? (·.dataset = ds)).map Snap.creation
  last : members.getLast?.map Snap.creation = some st.last

theorem Clustering.keeps_new {family : String} {points : List Point} (s : Snap) :
    Keeps family
      { points, current := some ⟨family, [s]⟩, firstSeen := [(s.dataset, s.creation)],
        last := s.creation }
      [s] where
  current := rfl
  firstSeen ds := by
    by_cases h : s.dataset = ds
    · subst h
      simp
    · have hne : (ds == s.dataset) = false := by simpa using Ne.symm h
      simp [List.lookup, hne, h]
  last := rfl

theorem Clustering.Keeps.joins_eq {family : String} {st : Clustering} {members : List Snap}
    (h : Keeps family st members) (s : Snap) :
    joins family members s = !((st.firstSeen.lookup s.dataset).any
      (fun first => decide (repeatGap < s.creation - first)) ||
      (!sequential family && decide (repeatGap < s.creation - st.last))) := by
  obtain ⟨last, hlast, hcreation⟩ := Option.map_eq_some_iff.mp h.last
  rw [joins, h.firstSeen, Option.any_map, hlast, Option.any_some, hcreation, Bool.not_or]
  congr 1
  cases sequential family <;> simp

theorem lookup_seen (seen : List (Rel × ℕ)) (ds other : Rel) (t : ℕ) :
    (if (seen.lookup ds).isSome then seen else seen ++ [(ds, t)]).lookup other =
      (seen.lookup other).or (if other = ds then some t else none) := by
  split
  · rename_i hsome
    split
    · rename_i heq
      rw [heq, Option.or_of_isSome hsome]
    · rw [Option.or_none]
  · rw [List.lookup_append]
    congr 1
    by_cases h : other = ds
    · simp [h]
    · have hne : (other == ds) = false := by simpa using h
      simp [List.lookup, hne, h]

theorem Clustering.Keeps.add {family : String} {st : Clustering} {members : List Snap}
    (h : Keeps family st members) (s : Snap) :
    if joins family members s then
      (st.add family s).points = st.points ∧ Keeps family (st.add family s) (members ++ [s])
    else (st.add family s).points = st.points ++ [⟨family, members⟩] ∧
    Keeps family (st.add family s) [s] := by
  rw [h.joins_eq, Clustering.add, h.current]
  cases hbreaks : (st.firstSeen.lookup s.dataset).any
      (fun first => decide (repeatGap < s.creation - first)) ||
      (!sequential family && decide (repeatGap < s.creation - st.last)) with
  | true => exact ⟨rfl, keeps_new s⟩
  | false =>
      refine ⟨rfl, rfl, fun ds => ?_, by simp⟩
      simp only [Bool.false_eq_true, if_false]
      rw [lookup_seen, h.firstSeen, List.find?_append, Option.map_or]
      congr 1
      by_cases hds : ds = s.dataset
      · simp [hds]
      · simp [hds, Ne.symm hds]

theorem Clustering.Keeps.foldl {family : String} {st : Clustering} {members : List Snap}
    (h : Keeps family st members) (rest : List Snap) :
    (rest.foldl (Clustering.add family) st).points ++
      (rest.foldl (Clustering.add family) st).current.toList =
      st.points ++ (List.runsAfter (joins family) members rest).map (Point.mk family) := by
  induction rest generalizing st members with
  | nil => rw [List.foldl_nil, h.current, List.runsAfter, List.map_singleton, Option.toList_some]
  | cons s rest ih =>
      have hadd := h.add s
      rw [List.foldl_cons, List.runsAfter]
      split at hadd
      · rename_i hjoins
        rw [if_pos hjoins, ih hadd.2, hadd.1]
      · rename_i hjoins
        rw [if_neg hjoins, ih hadd.2, hadd.1, List.map_cons, List.append_assoc,
          List.singleton_append]

theorem familyRuns_eq (family : String) (members : List Snap) :
    familyRuns family members = ((sortSnaps members).runs (joins family)).map
      (Point.mk family) := by
  rw [familyRuns]
  cases sortSnaps members with
  | nil => rfl
  | cons s rest => exact (Clustering.keeps_new s).foldl rest

/-! ### The family's order -/

theorem sortSnaps_perm (snaps : List Snap) : (sortSnaps snaps).Perm snaps :=
  List.perm_insertionSort _ _

theorem pairwise_sortSnaps (snaps : List Snap) :
    (sortSnaps snaps).Pairwise fun a b => a.runKey ≤ b.runKey :=
  letI : Std.Total fun a b : Snap => a.runKey ≤ b.runKey := ⟨fun _ _ => le_total _ _⟩
  letI : IsTrans Snap fun a b => a.runKey ≤ b.runKey := ⟨fun _ _ _ => le_trans⟩
  List.pairwise_insertionSort _ _

theorem runKey_eq_iff {s t : Snap} (hs : s.dataset.IsName) (ht : t.dataset.IsName) :
    s.runKey = t.runKey ↔ s.creation = t.creation ∧ s.dataset = t.dataset ∧
    s.createtxg = t.createtxg := by
  simp only [Snap.runKey, Rel.key, EmbeddingLike.apply_eq_iff_eq, Prod.mk.injEq]
  constructor
  · rintro ⟨hcreation, ⟨htext, -⟩, htxg⟩
    exact ⟨hcreation, text_injective hs ht htext, htxg⟩
  · rintro ⟨hcreation, hdataset, htxg⟩
    exact ⟨hcreation, ⟨congrArg Rel.text hdataset, congrArg List.length hdataset⟩, htxg⟩

theorem creation_le_of_runKey_le {s t : Snap} (h : s.runKey ≤ t.runKey) :
    s.creation ≤ t.creation := by
  obtain hlt | ⟨heq, -⟩ := (Prod.Lex.toLex_le_toLex).mp h
  · exact hlt.le
  · exact heq.le

/-- A snapshot a run cannot go on with comes after every snapshot of the run. -/
theorem lt_of_not_joins {family : String} {members : List Snap} {a : Snap}
    (hrun : IsRunOf family members)
    (hsorted : (members ++ [a]).Pairwise fun x y => x.runKey ≤ y.runKey)
    (hnames : ∀ s ∈ members ++ [a], s.dataset.IsName) (ha : joins family members a = false)
    {s : Snap} (hs : s ∈ members) : s.runKey < a.runKey := by
  have hle : ∀ t ∈ members, t.runKey ≤ a.runKey :=
    fun t ht => (List.pairwise_append.mp hsorted).2.2 t ht a List.mem_cons_self
  refine lt_of_le_of_ne (hle s hs) fun heq => ?_
  obtain ⟨hcreation, hdataset, -⟩ := (runKey_eq_iff (hnames s (List.mem_append_left _ hs))
    (hnames a (List.mem_append_right _ List.mem_cons_self))).mp heq
  have hok : IsRunOf family (members ++ [a]) := by
    refine ⟨fun t ht first hfirst => ?_, fun hseq => ?_⟩
    · obtain ht | ht := List.mem_append.mp ht
      · rw [find?_append_of_mem ht] at hfirst
        exact hrun.near t ht first hfirst
      · rw [List.mem_singleton.mp ht, ← hdataset, find?_append_of_mem hs] at hfirst
        rw [List.mem_singleton.mp ht, ← hcreation]
        exact hrun.near s hs first hfirst
    · refine (hrun.dense hseq).append (List.IsChain.singleton a) fun last hlast t ht => ?_
      cases ht
      have hmem := List.mem_of_getLast? hlast
      have hlater : s.runKey ≤ last.runKey := by
        obtain ⟨front, rfl⟩ := List.getLast?_eq_some_iff.mp hlast
        obtain hs | hs := List.mem_append.mp hs
        · exact (List.pairwise_append.mp (List.pairwise_append.mp hsorted).1).2.2 s hs last
            List.mem_cons_self
        · exact (List.mem_singleton.mp hs) ▸ le_rfl
      have hcreated := creation_le_of_runKey_le hlater
      omega
  rw [isRunOf_concat_iff hrun, ha] at hok
  cases hok

/-- Runs of a sorted list come strictly one after the other. -/
theorem pairwise_runs_lt {family : String} {groups : List (List Snap)}
    (hchain : groups.IsChain (List.Refused (joins family))) (hruns : ∀ r ∈ groups, IsRunOf family r)
    (hsorted : groups.flatten.Pairwise fun x y => x.runKey ≤ y.runKey)
    (hnames : ∀ s ∈ groups.flatten, s.dataset.IsName) :
    groups.Pairwise fun r r' => ∀ s ∈ r, ∀ t ∈ r', s.runKey < t.runKey := by
  induction groups with
  | nil => exact List.Pairwise.nil
  | cons r groups ih =>
      rw [List.flatten_cons] at hsorted hnames
      have hrest := List.pairwise_append.mp hsorted
      have ih :=
        ih (List.isChain_cons.mp hchain).2
          (fun x hx => hruns x (List.mem_cons_of_mem _ hx)) hrest.2.1
          fun s hs => hnames s (List.mem_append_right _ hs)
      refine List.pairwise_cons.mpr ⟨fun r' hr' s hs t ht => ?_, ih⟩
      cases groups with
      | nil => cases hr'
      | cons next more =>
          obtain ⟨a, hhead, hrefused⟩ := (List.isChain_cons_cons.mp hchain).1
          obtain ⟨tail, rfl⟩ := List.head?_eq_some_iff.mp hhead
          have htmem : t ∈ ((a :: tail) :: more).flatten := List.mem_flatten.mpr ⟨r', hr', ht⟩
          rw [List.flatten_cons, List.cons_append] at hsorted hrest htmem hnames
          have hat : a.runKey ≤ t.runKey := by
            obtain rfl | htmem := List.mem_cons.mp htmem
            · exact le_rfl
            · exact (List.pairwise_cons.mp hrest.2.1).1 t htmem
          have hfront : (r ++ [a]).Sublist (r ++ a :: (tail ++ more.flatten)) :=
            List.Sublist.append_left (List.Sublist.cons_cons a (List.nil_sublist _)) r
          exact (lt_of_not_joins (hruns r List.mem_cons_self) (hsorted.sublist hfront)
            (fun x hx => hnames x (hfront.subset hx)) hrefused hs).trans_le hat

/-! ### All families -/

section Cluster

variable {snaps : List Snap}

theorem mem_byName {named : List Snap} {p : Point} :
    p ∈ byName named ↔ ∃ s ∈ named, p = ⟨familyOf s.name, named.filter (·.name = s.name)⟩ := by
  simp only [byName, List.mem_map, List.mem_eraseDups]
  constructor
  · rintro ⟨name, ⟨s, hs, rfl⟩, rfl⟩
    exact ⟨s, hs, rfl⟩
  · rintro ⟨s, hs, rfl⟩
    exact ⟨s.name, ⟨s, hs, rfl⟩, rfl⟩

theorem perm_byName (named : List Snap) : ((byName named).flatMap Point.members).Perm named := by
  rw [byName, List.flatMap_map]
  exact List.perm_flatMap_filter (List.nodup_eraseDups _) fun s hs =>
    List.mem_eraseDups.mpr (List.mem_map_of_mem hs)

theorem members_familyRuns (family : String) (members : List Snap) :
    (familyRuns family members).flatMap Point.members = sortSnaps members := by
  rw [familyRuns_eq, List.flatMap_map]
  change ((sortSnaps members).runs (joins family)).flatMap (fun r => r) = _
  rw [List.flatMap_id', List.flatten_runs]

theorem mem_families {family : String} :
    family ∈ families snaps ↔ ∃ s ∈ snaps, s.family = family := by
  simp only [families, List.mem_insertionSort, List.mem_eraseDups, List.mem_map]

theorem nodup_families (snaps : List Snap) : (families snaps).Nodup :=
  (List.perm_insertionSort _ _).nodup_iff.mpr (List.nodup_eraseDups _)

theorem mem_cluster {p : Point} : p ∈ cluster snaps ↔
    ∃ family ∈ families snaps, p ∈ clusterFamily snaps family := List.mem_flatMap

theorem perm_clusterFamily (snaps : List Snap) (family : String) :
    ((clusterFamily snaps family).flatMap Point.members).Perm
    (snaps.filter (·.family = family)) := by
  rw [clusterFamily, List.flatMap_append, members_familyRuns]
  refine ((perm_byName _).append (sortSnaps_perm _)).trans ?_
  exact List.filter_append_perm (fun s : Snap => isPoint s.name) _

theorem perm_cluster (snaps : List Snap) : ((cluster snaps).flatMap Point.members).Perm snaps := by
  rw [cluster, List.flatMap_assoc]
  refine (List.Perm.flatMap_left _ fun family _ => perm_clusterFamily snaps family).trans ?_
  exact List.perm_flatMap_filter (nodup_families snaps) fun s hs => mem_families.mpr ⟨s, hs, rfl⟩

/-- The point of a backup point name, or a run of a family. -/
inductive IsPointOf (snaps : List Snap) (p : Point) : Prop
  | named (s : Snap) (hs : s ∈ snaps) (hpoint : isPoint s.name = true)
    (hfamily : p.family = s.family)
      (hmembers : p.members = snaps.filter (·.name = s.name))
  | run (hplain : ∀ s ∈ p.members, isPoint s.name = false) (hfamily : ∀ s ∈ p.members, s ∈ snaps ∧
      s.family = p.family)
      (hrun : IsRunOf p.family p.members) (hne : p.members ≠ [])

theorem isPointOf_byName {family : String} {p : Point}
    (h : p ∈ byName ((snaps.filter (·.family = family)).filter fun s => isPoint s.name)) :
    p.family = family ∧ ∃ s ∈ snaps, isPoint s.name = true ∧ s.family = family ∧
    p.members = snaps.filter (·.name = s.name) := by
  obtain ⟨s, hs, rfl⟩ := mem_byName.mp h
  obtain ⟨hs, hpoint⟩ := List.mem_filter.mp hs
  obtain ⟨hs, hfamily⟩ := List.mem_filter.mp hs
  rw [decide_eq_true_eq] at hfamily
  refine ⟨hfamily, s, hs, hpoint, hfamily, ?_⟩
  simp only [List.filter_filter]
  refine List.filter_congr fun t _ => ?_
  by_cases hname : t.name = s.name
  · have htfamily : t.family = family := (congrArg familyOf hname).trans hfamily
    simp [hname, hpoint, htfamily]
  · simp [hname]

theorem isRun_familyRuns {family : String} {members : List Snap} {p : Point}
    (h : p ∈ familyRuns family members) :
    p.family = family ∧ IsRunOf family p.members ∧ p.members ≠ [] ∧
    ∀ s ∈ p.members, s ∈ members := by
  have hall : ∀ s ∈ p.members, s ∈ members := fun s hs =>
    (sortSnaps_perm members).mem_iff.mp
      (members_familyRuns family members ▸ List.mem_flatMap.mpr ⟨p, h, hs⟩)
  rw [familyRuns_eq] at h
  obtain ⟨r, hr, rfl⟩ := List.mem_map.mp h
  exact ⟨rfl, List.forall_runs (isRunOf_singleton family) (fun run a hrun hjoins =>
    (isRunOf_concat_iff hrun).mpr hjoins) _ r hr, List.ne_nil_of_mem_runs hr, hall⟩

theorem isPointOf_cluster {p : Point} (h : p ∈ cluster snaps) : IsPointOf snaps p := by
  obtain ⟨family, -, h⟩ := mem_cluster.mp h
  obtain h | h := List.mem_append.mp h
  · obtain ⟨hfamily, s, hs, hpoint, hsfamily, hmembers⟩ := isPointOf_byName h
    exact .named s hs hpoint (hfamily.trans hsfamily.symm) hmembers
  · obtain ⟨hfamily, hrun, hne, hall⟩ := isRun_familyRuns h
    refine .run (fun s hs => ?_) (fun s hs => ?_) (hfamily ▸ hrun) hne
    · have hplain := (List.mem_filter.mp (hall s hs)).2
      rwa [Bool.not_eq_true'] at hplain
    · obtain ⟨hs, hsfamily⟩ := List.mem_filter.mp (List.mem_filter.mp (hall s hs)).1
      rw [decide_eq_true_eq] at hsfamily
      exact ⟨hs, hsfamily.trans hfamily.symm⟩

theorem IsPointOf.ne_nil {p : Point} (h : IsPointOf snaps p) : p.members ≠ [] := by
  cases h with
  | named s hs hpoint hfamily hmembers =>
      rw [hmembers]
      exact List.ne_nil_of_mem (List.mem_filter.mpr ⟨hs, by simp⟩)
  | run hplain hfamily hrun hne => exact hne

theorem IsPointOf.family_of_mem {p : Point} (h : IsPointOf snaps p) {s : Snap}
    (hs : s ∈ p.members) :
    s ∈ snaps ∧ s.family = p.family := by
  cases h with
  | named t ht hpoint hfamily hmembers =>
      rw [hmembers] at hs
      obtain ⟨hs, hname⟩ := List.mem_filter.mp hs
      exact ⟨hs, (congrArg familyOf (of_decide_eq_true hname)).trans hfamily.symm⟩
  | run hplain hfamily hrun hne => exact hfamily s hs

theorem IsPointOf.members_of_point {p : Point} (h : IsPointOf snaps p) {s : Snap}
    (hs : s ∈ p.members) (hpoint : isPoint s.name = true) :
    p.members = snaps.filter (·.name = s.name) := by
  cases h with
  | named t ht htpoint hfamily hmembers =>
      have hname := (List.mem_filter.mp (hmembers ▸ hs)).2
      rw [of_decide_eq_true hname, hmembers]
  | run hplain hfamily hrun hne =>
      rw [hplain s hs] at hpoint
      cases hpoint

/-- None of its snapshots has a backup point name. -/
def Point.plain (p : Point) : Bool := p.members.all fun s => !isPoint s.name

/-- A family's snapshots that are no backup points, in the family's order. -/
def familyOrder (snaps : List Snap) (family : String) : List Snap :=
  sortSnaps ((snaps.filter (·.family = family)).filter fun s => !isPoint s.name)

/-- A family's runs. -/
def runsOf (points : List Point) (family : String) : List Point :=
  points.filter fun p => decide (p.family = family) && p.plain

theorem flatMap_of_one {α β : Type*} [DecidableEq α] {ks : List α} (hnodup : ks.Nodup) {k : α}
    {f : α → List β} (hother : ∀ x ∈ ks, x ≠ k → f x = []) :
    ks.flatMap f = if k ∈ ks then f k else [] := by
  induction ks with
  | nil => simp
  | cons x ks ih =>
      obtain ⟨hx, hnodup⟩ := List.nodup_cons.mp hnodup
      rw [List.flatMap_cons, ih hnodup fun y hy => hother y (List.mem_cons_of_mem _ hy)]
      by_cases h : x = k
      · subst h
        simp [hx]
      · rw [hother x List.mem_cons_self h]
        simp [Ne.symm h]

theorem runsOf_clusterFamily (snaps : List Snap) (family other : String) :
    runsOf (clusterFamily snaps other) family =
      if other = family then
        familyRuns family ((snaps.filter (·.family = family)).filter fun s => !isPoint s.name)
      else [] := by
  have hnamed : runsOf (byName ((snaps.filter (·.family = other)).filter fun s => isPoint s.name))
      family = [] := by
    refine List.filter_eq_nil_iff.mpr fun p hp => ?_
    obtain ⟨-, s, hs, hpoint, -, hmembers⟩ := isPointOf_byName hp
    have hmem : s ∈ p.members := hmembers ▸ List.mem_filter.mpr ⟨hs, by simp⟩
    rw [Bool.and_eq_true, not_and, Point.plain, List.all_eq_true]
    exact fun _ hplain => absurd (hplain s hmem) (by simp [hpoint])
  rw [clusterFamily, runsOf, List.filter_append]
  change runsOf (byName _) family ++ _ = _
  rw [hnamed, List.nil_append]
  split
  · rename_i heq
    subst heq
    refine List.filter_eq_self.mpr fun p hp => ?_
    obtain ⟨hfamily, -, -, hall⟩ := isRun_familyRuns hp
    rw [Bool.and_eq_true, Point.plain, List.all_eq_true]
    exact ⟨decide_eq_true hfamily, fun s hs => (List.mem_filter.mp (hall s hs)).2⟩
  · rename_i hne
    refine List.filter_eq_nil_iff.mpr fun p hp => ?_
    obtain ⟨hfamily, -⟩ := isRun_familyRuns hp
    simp [hfamily, hne]

theorem runsOf_cluster (snaps : List Snap) (family : String) :
    runsOf (cluster snaps) family = familyRuns family
      ((snaps.filter (·.family = family)).filter fun s => !isPoint s.name) := by
  have hflat : runsOf (cluster snaps) family = (families snaps).flatMap fun other =>
      runsOf (clusterFamily snaps other) family :=
    List.filter_flatMap
  rw [hflat, flatMap_of_one (nodup_families snaps)
    (k := family)
      fun other _ hne => by rw [runsOf_clusterFamily, if_neg hne], runsOf_clusterFamily, if_pos rfl]
  split
  · rfl
  · rename_i hnot
    have hnil : snaps.filter (·.family = family) = [] :=
      List.filter_eq_nil_iff.mpr fun s hs h => hnot (mem_families.mpr ⟨s, hs, of_decide_eq_true h⟩)
    rw [hnil]
    rfl

/-- An exact grouping of a listing into runs. -/
structure Groups (snaps : List Snap) (points : List Point) : Prop where
  /-- Every snapshot is in one point, under its own dataset. -/
  perm : (points.flatMap Point.members).Perm snaps
  apart : points.Pairwise fun p q => ∀ s ∈ p.members, s ∉ q.members
  nonempty : ∀ p ∈ points, p.members ≠ []
  family : ∀ p ∈ points, ∀ s ∈ p.members, s.family = p.family
  /-- A backup point's snapshots are those of its name. -/
  named : ∀ p ∈ points, ∀ s ∈ p.members, isPoint s.name = true → ∀ t ∈ snaps, t ∈ p.members ↔
    t.name = s.name
  /-- The runs of a family are contiguous blocks of its order. -/
  order : ∀ name, (runsOf points name).flatMap Point.members = familyOrder snaps name
  runs : ∀ p ∈ points, p.plain = true → IsRunOf p.family p.members
  /-- A run starts where the one before cannot go on. -/
  starts : ∀ name, (runsOf points name).IsChain fun p q => ∃ s ∈ q.members.head?,
    ¬IsRunOf name (p.members ++ [s])

theorem starts_familyRuns (family : String) (members : List Snap) :
    (familyRuns family members).IsChain fun p q => ∃ s ∈ q.members.head?, ¬IsRunOf family
    (p.members ++ [s]) := by
  rw [familyRuns_eq, List.isChain_map]
  have hruns := List.forall_runs (isRunOf_singleton family)
    (fun run a hrun hjoins => (isRunOf_concat_iff hrun).mpr hjoins) (sortSnaps members)
  refine (List.isChain_runs (sortSnaps members)).imp_of_mem_imp fun r next hr _ ⟨a, ha, hrefused⟩ =>
    ⟨a, ha, fun hok => ?_⟩
  rw [isRunOf_concat_iff (hruns r hr), hrefused] at hok
  cases hok

theorem pairwise_lt_runs (family : String) {members : List Snap}
    (hnames : ∀ s ∈ members, s.dataset.IsName) :
    ((sortSnaps members).runs (joins family)).Pairwise fun r r' => ∀ s ∈ r, ∀ t ∈ r',
    s.runKey < t.runKey := by
  have hflat := @List.flatten_runs _ (joins family) (sortSnaps members)
  refine pairwise_runs_lt (List.isChain_runs _)
    (List.forall_runs (isRunOf_singleton family) (fun run a hrun hjoins =>
      (isRunOf_concat_iff hrun).mpr hjoins) _) ?_ ?_
  · rw [hflat]
    exact pairwise_sortSnaps members
  · rw [hflat]
    exact fun s hs => hnames s ((sortSnaps_perm members).mem_iff.mp hs)

theorem apart_clusterFamily (hnames : ∀ s ∈ snaps, s.dataset.IsName) (family : String) :
    (clusterFamily snaps family).Pairwise fun p q => ∀ s ∈ p.members, s ∉ q.members := by
  refine List.pairwise_append.mpr ⟨?_, ?_, fun p hp q hq s hs hs' => ?_⟩
  · rw [byName, List.pairwise_map]
    refine (List.nodup_eraseDups _).imp fun {a b} hne s hs hs' => hne ?_
    rw [← of_decide_eq_true (List.mem_filter.mp hs).2,
      ← of_decide_eq_true (List.mem_filter.mp hs').2]
  · rw [familyRuns_eq, List.pairwise_map]
    refine (pairwise_lt_runs family fun s hs => hnames s ?_).imp fun h s hs hs' =>
      absurd (h s hs s hs') (lt_irrefl _)
    exact (List.mem_filter.mp (List.mem_filter.mp hs).1).1
  · obtain ⟨-, t, -, hpoint, -, hmembers⟩ := isPointOf_byName hp
    obtain ⟨-, -, -, hall⟩ := isRun_familyRuns hq
    rw [hmembers] at hs
    have hplain := (List.mem_filter.mp (hall s hs')).2
    rw [of_decide_eq_true (List.mem_filter.mp hs).2, hpoint] at hplain
    cases hplain

theorem family_of_mem_clusterFamily {family : String} {p : Point}
    (h : p ∈ clusterFamily snaps family) {s : Snap} (hs : s ∈ p.members) : s.family = family := by
  have hmem := (perm_clusterFamily snaps family).mem_iff.mp (List.mem_flatMap.mpr ⟨p, h, hs⟩)
  exact of_decide_eq_true (List.mem_filter.mp hmem).2

theorem groups_cluster (hnames : ∀ s ∈ snaps, s.dataset.IsName) : Groups snaps (cluster snaps) where
  perm := perm_cluster snaps
  apart := by
    refine List.pairwise_flatMap.mpr ⟨fun family _ => apart_clusterFamily hnames family, ?_⟩
    refine (nodup_families snaps).imp fun {a b} hne p hp q hq s hs hs' => hne ?_
    rw [← family_of_mem_clusterFamily hp hs, family_of_mem_clusterFamily hq hs']
  nonempty p hp := (isPointOf_cluster hp).ne_nil
  family p hp s hs := ((isPointOf_cluster hp).family_of_mem hs).2
  named p hp s hs hpoint t ht := by
    rw [(isPointOf_cluster hp).members_of_point hs hpoint]
    simp [ht]
  order name := by rw [runsOf_cluster, members_familyRuns, familyOrder]
  runs p hp hplain := by
    cases isPointOf_cluster hp with
    | named s hs hpoint hfamily hmembers =>
        have hmem : s ∈ p.members := hmembers ▸ List.mem_filter.mpr ⟨hs, by simp⟩
        exact absurd (List.all_eq_true.mp hplain s hmem) (by simp [hpoint])
    | run _ _ hrun _ => exact hrun
  starts name := runsOf_cluster snaps name ▸ starts_familyRuns name _

theorem sortSnaps_congr {members others : List Snap} (hperm : members.Perm others)
    (hnames : ∀ s ∈ members, s.dataset.IsName)
    (hdistinct : (members.map fun s => (s.creation, s.dataset, s.createtxg)).Nodup) :
    sortSnaps members = sortSnaps others := by
  refine List.Perm.eq_of_pairwise (fun s t hs ht hle hge => ?_) (pairwise_sortSnaps members)
    (pairwise_sortSnaps others)
    (((sortSnaps_perm members).trans hperm).trans (sortSnaps_perm others).symm)
  have hs := (sortSnaps_perm members).mem_iff.mp hs
  have ht := hperm.mem_iff.mpr ((sortSnaps_perm others).mem_iff.mp ht)
  obtain ⟨hcreation, hdataset, htxg⟩ :=
    (runKey_eq_iff (hnames s hs) (hnames t ht)).mp (le_antisymm hle hge)
  exact List.inj_on_of_nodup_map hdistinct hs ht (by simp [hcreation, hdataset, htxg])

/-- The same listing in another order has the same groups. -/
theorem exists_cluster_of_perm {others : List Snap} (hperm : snaps.Perm others)
    (hnames : ∀ s ∈ snaps, s.dataset.IsName)
    (hdistinct : (snaps.map fun s => (s.creation, s.dataset, s.createtxg)).Nodup) {p : Point}
    (hp : p ∈ cluster snaps) :
    ∃ q ∈ cluster others, q.family = p.family ∧ q.members.Perm p.members := by
  obtain ⟨family, hfamily, hp⟩ := mem_cluster.mp hp
  have hfamily' : family ∈ families others := by
    obtain ⟨s, hs, hsfamily⟩ := mem_families.mp hfamily
    exact mem_families.mpr ⟨s, hperm.mem_iff.mp hs, hsfamily⟩
  have hnamed := (hperm.filter (·.family = family)).filter fun s => isPoint s.name
  have hplain := (hperm.filter (·.family = family)).filter fun s => !isPoint s.name
  obtain hp | hp := List.mem_append.mp hp
  · obtain ⟨s, hs, rfl⟩ := mem_byName.mp hp
    exact ⟨_, mem_cluster.mpr ⟨family, hfamily',
      List.mem_append_left _ (mem_byName.mpr ⟨s, hnamed.mem_iff.mp hs, rfl⟩)⟩, rfl,
      (hnamed.filter _).symm⟩
  · refine ⟨p, mem_cluster.mpr ⟨family, hfamily', List.mem_append_right _ ?_⟩, rfl, .refl _⟩
    have hsub :=
      (List.filter_sublist (p := fun s => !isPoint s.name)
        (l := snaps.filter (·.family = family))).trans List.filter_sublist
    rwa [familyRuns, ← sortSnaps_congr hplain (fun s hs => hnames s (hsub.subset hs))
      (hdistinct.sublist (hsub.map _))]

/-- The points of a listing group it exactly, whatever order it comes in. -/
theorem cluster_exact (hnames : ∀ s ∈ snaps, s.dataset.IsName) :
    Groups snaps (cluster snaps) ∧
      ∀ others, others.Perm snaps →
        (snaps.map fun s => (s.creation, s.dataset, s.createtxg)).Nodup →
        ∀ p : Point, (∃ q ∈ cluster others, q.family = p.family ∧ q.members.Perm p.members) ↔
          ∃ q ∈ cluster snaps, q.family = p.family ∧ q.members.Perm p.members := by
  refine ⟨groups_cluster hnames, fun others hperm hdistinct p => ⟨?_, ?_⟩⟩
  · rintro ⟨q, hq, hfamily, hmembers⟩
    obtain ⟨r, hr, hrfamily, hrmembers⟩ :=
      exists_cluster_of_perm hperm (fun s hs => hnames s (hperm.mem_iff.mp hs))
        ((hperm.map _).nodup_iff.mpr hdistinct) hq
    exact ⟨r, hr, hrfamily.trans hfamily, hrmembers.trans hmembers⟩
  · rintro ⟨q, hq, hfamily, hmembers⟩
    obtain ⟨r, hr, hrfamily, hrmembers⟩ := exists_cluster_of_perm hperm.symm hnames hdistinct hq
    exact ⟨r, hr, hrfamily.trans hfamily, hrmembers.trans hmembers⟩

theorem cluster_exact_two :
    Groups [⟨["rpool"], "autosnap_1", "1", 5, 100, ""⟩, ⟨["rpool"], "autosnap_2", "2", 9, 401, ""⟩]
      (cluster [⟨["rpool"], "autosnap_1", "1", 5, 100, ""⟩,
        ⟨["rpool"], "autosnap_2", "2", 9, 401, ""⟩]) :=
  (cluster_exact (by decide +kernel)).1

/-! ### What is offered -/

theorem mem_restorePoints {root : Rel} {p : Point} :
    p ∈ restorePoints snaps root ↔ p ∈ cluster snaps ∧ ∃ s ∈ p.members, s.dataset = root := by
  rw [restorePoints, List.mem_insertionSort, List.mem_filter, List.any_eq_true]
  simp only [decide_eq_true_eq]

theorem pairwise_restorePoints (snaps : List Snap) (root : Rel) :
    (restorePoints snaps root).Pairwise fun p q => p.label root ≤ q.label root := by
  refine (List.pairwise_insertionSort _ _).imp fun {p q} h => ?_
  obtain hlt | ⟨heq, -⟩ := (Prod.Lex.toLex_le_toLex).mp h
  · exact hlt.le
  · exact heq.le

end Cluster

end Zark
