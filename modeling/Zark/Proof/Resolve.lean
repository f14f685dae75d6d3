import Zark.Proof.Cluster

/-!
# What a dataset is restored from

A dataset is restored from its newest snapshot of the point's run, or from its newest one up to the
point's end when the run has none of it. It is left out only when nothing of it is that old, or when
a complete backup point up to then shows that it was gone.
-/

namespace Zark

variable {snaps : List Snap} {p : Point} {complete : Option (List String)} {ds : Rel}

/-- The newest of the snapshots, by creation and then by transaction group. -/
structure IsNewest (s : Snap) (snaps : List Snap) : Prop where
  mem : s ∈ snaps
  newest : ∀ t ∈ snaps, t.creation < s.creation ∨ t.creation = s.creation ∧
    t.createtxg ≤ s.createtxg

theorem newestSnap_foldl (rest : List Snap) (met : List Snap) (best : Snap)
    (hbest : IsNewest best met) :
    ∃ s, IsNewest s (met ++ rest) ∧ rest.foldl
      (fun best s =>
        match best with
        | none => some s
        | some b =>
            if b.creation < s.creation ∨ b.creation = s.creation ∧ b.createtxg < s.createtxg then
              some s
            else some b)
      (some best) = some s := by
  induction rest generalizing met best with
  | nil => exact ⟨best, by rwa [List.append_nil], rfl⟩
  | cons t rest ih =>
      rw [List.foldl_cons, List.append_cons]
      dsimp only
      split
      · rename_i hlater
        refine ih (met ++ [t]) t ⟨List.mem_append_right _ List.mem_cons_self, fun x hx => ?_⟩
        obtain hx | hx := List.mem_append.mp hx
        · have hle := hbest.newest x hx
          omega
        · rw [List.mem_singleton.mp hx]
          omega
      · rename_i hearlier
        refine ih (met ++ [t]) best ⟨List.mem_append_left _ hbest.mem, fun x hx => ?_⟩
        obtain hx | hx := List.mem_append.mp hx
        · exact hbest.newest x hx
        · rw [List.mem_singleton.mp hx]
          omega

theorem newestSnap_of_ne_nil {l : List Snap} (h : l ≠ []) :
    ∃ s, IsNewest s l ∧ newestSnap l = some s := by
  cases l with
  | nil => exact absurd rfl h
  | cons t rest =>
      refine newestSnap_foldl rest [t] t ⟨List.mem_cons_self, fun x hx => ?_⟩
      rw [List.mem_singleton.mp hx]
      omega

theorem isNewest_of_newestSnap {l : List Snap} {s : Snap} (h : newestSnap l = some s) :
    IsNewest s l := by
  obtain ⟨t, ht, heq⟩ := newestSnap_of_ne_nil (l := l) (by rintro rfl; cases h)
  exact Option.some.inj (heq.symm.trans h) ▸ ht

theorem newestSnap_eq_none_iff {l : List Snap} : newestSnap l = none ↔ l = [] := by
  refine ⟨fun h => by_contra fun hne => ?_, fun h => h ▸ rfl⟩
  obtain ⟨s, -, hs⟩ := newestSnap_of_ne_nil hne
  rw [h] at hs
  cases hs

theorem creation_le_latest {s : Snap} (hs : s ∈ p.members) : s.creation ≤ p.latest :=
  (Best.foldl_max_le_iff.mp le_rfl).2 s hs

/-- A complete backup point up to a time lacks the dataset, and nothing of the dataset follows
it. -/
structure ShowsGone (snaps : List Snap) (complete : Option (List String)) (until_ : ℕ) (ds : Rel)
    (name : String) : Prop where
  point : name ∈ pointNames snaps
  complete : ∀ names ∈ complete, name ∈ names
  before : pointEnd snaps name ≤ until_
  lacks : ∀ s ∈ snaps, s.name = name → s.dataset ≠ ds
  last : ∀ s ∈ snaps, s.dataset = ds → s.creation ≤ pointEnd snaps name

/-- With something of the dataset on the drive, its lineage ended exactly when some such point shows
it. -/
theorem lineageEnded_iff {until_ : ℕ} (hsome : ∃ s ∈ snaps, s.dataset = ds) :
    lineageEnded (snaps.filter (·.dataset = ds)) (backupsUntil snaps until_ complete) = true ↔
      ∃ name, ShowsGone snaps complete until_ ds name := by
  obtain ⟨s, rest, hmine⟩ : ∃ s rest, snaps.filter (·.dataset = ds) = s :: rest := by
    obtain ⟨s, hs, hds⟩ := hsome
    exact List.exists_cons_of_ne_nil (List.ne_nil_of_mem
      (List.mem_filter.mpr ⟨hs, by simpa using hds⟩))
  have hmem : s ∈ snaps.filter (·.dataset = ds) := hmine ▸ List.mem_cons_self
  have hds : s.dataset = ds := by simpa using (List.mem_filter.mp hmem).2
  have hlast : ∀ t, ((s :: rest).foldl (fun t s => max t s.creation) 0 ≤ t) ↔
      ∀ x ∈ snaps, x.dataset = ds → x.creation ≤ t := by
    intro t
    rw [Best.foldl_max_le_iff, ← hmine]
    simp
  rw [hmine, lineageEnded, List.any_eq_true]
  simp only [backupsUntil, List.mem_map, List.mem_filter, Bool.and_eq_true, decide_eq_true_eq,
    Option.all_eq_true]
  constructor
  · rintro ⟨-, ⟨name, ⟨hname, hbefore, hcomplete⟩, rfl⟩, hle, hlacks⟩
    refine ⟨name, hname, fun names hnames => by simpa using hcomplete names hnames, hbefore,
      fun x hx hxname hxds => ?_, (hlast _).mp hle⟩
    have hmem : s.dataset ∈ (pointMembers snaps name).map Snap.dataset :=
      List.mem_map.mpr ⟨x, mem_pointMembers.mpr ⟨hx, hxname⟩, hxds.trans hds.symm⟩
    simp [hmem] at hlacks
  · rintro ⟨name, h⟩
    refine ⟨_, ⟨name, ⟨h.point, h.before,
      fun names hnames => by simpa using h.complete names hnames⟩, rfl⟩, (hlast _).mpr h.last, ?_⟩
    rw [Bool.not_eq_true', ← Bool.not_eq_true, List.contains_iff_mem]
    intro hmem
    obtain ⟨x, hx, hxds⟩ := List.mem_map.mp hmem
    obtain ⟨hx, hxname⟩ := mem_pointMembers.mp hx
    exact h.lacks x hx hxname (hxds.trans hds)

theorem resolve_of_own (hown : ∃ m ∈ p.members, m.dataset = ds) :
    resolve p snaps complete ds = newestSnap (p.members.filter (·.dataset = ds)) := by
  obtain ⟨m, hm, hds⟩ := hown
  obtain ⟨s, own, hfilter⟩ := List.exists_cons_of_ne_nil
    (List.ne_nil_of_mem (List.mem_filter.mpr ⟨hm, by simpa using hds⟩) : p.members.filter
      (·.dataset = ds) ≠ [])
  rw [resolve, hfilter]

theorem resolve_of_absent (habsent : ∀ m ∈ p.members, m.dataset ≠ ds) :
    resolve p snaps complete ds =
      if lineageEnded (snaps.filter (·.dataset = ds)) (backupsUntil snaps p.latest complete) then
        none
      else newestSnap ((snaps.filter (·.dataset = ds)).filter (·.creation ≤ p.latest)) := by
  have hnil : p.members.filter (·.dataset = ds) = [] :=
    List.filter_eq_nil_iff.mpr fun m hm => by simpa using habsent m hm
  rw [resolve, hnil]

/-- What a dataset is restored from is its own and no later than the point; it is left out exactly
when it was not there. -/
theorem resolve_spec (hp : p ∈ cluster snaps) :
    (∀ s, resolve p snaps complete ds = some s → s.dataset = ds ∧ s.creation ≤ p.latest ∧
      ((∃ m ∈ p.members, m.dataset = ds) → IsNewest s (p.members.filter (·.dataset = ds))) ∧
      ((∀ m ∈ p.members, m.dataset ≠ ds) →
        IsNewest s ((snaps.filter (·.dataset = ds)).filter (·.creation ≤ p.latest)))) ∧
    (resolve p snaps complete ds = none ↔
      (∀ s ∈ snaps, s.dataset = ds → p.latest < s.creation) ∨
        (∀ m ∈ p.members, m.dataset ≠ ds) ∧ ∃ name, ShowsGone snaps complete p.latest ds name) ∧
    ((∃ s ∈ snaps, s.dataset = ds ∧ s.creation ≤ p.latest) →
      (∃ s ∈ snaps, s.dataset = ds ∧ p.latest < s.creation) →
      (resolve p snaps complete ds).isSome = true) := by
  have hmembers : ∀ m ∈ p.members, m ∈ snaps :=
    fun m hm => ((isPointOf_cluster hp).family_of_mem hm).1
  by_cases hown : ∃ m ∈ p.members, m.dataset = ds
  · obtain ⟨m, hm, hds⟩ := hown
    have hresolve := @resolve_of_own snaps p complete ds ⟨m, hm, hds⟩
    obtain ⟨newest, hnewest, heq⟩ := newestSnap_of_ne_nil
      (List.ne_nil_of_mem (List.mem_filter.mpr ⟨hm, by simpa using hds⟩) : p.members.filter
        (·.dataset = ds) ≠ [])
    rw [hresolve, heq]
    refine ⟨fun s hs => ?_, ?_, fun _ _ => rfl⟩
    · cases hs
      obtain ⟨hs, hsds⟩ := List.mem_filter.mp hnewest.mem
      exact ⟨of_decide_eq_true hsds, creation_le_latest hs, fun _ => hnewest, fun habsent =>
        absurd hds (habsent m hm)⟩
    · refine iff_of_false (by simp) ?_
      rintro (hnone | ⟨habsent, -⟩)
      · exact absurd (hnone m (hmembers m hm) hds) (Nat.not_lt.mpr (creation_le_latest hm))
      · exact habsent m hm hds
  · have habsent : ∀ m ∈ p.members, m.dataset ≠ ds := fun m hm hds => hown ⟨m, hm, hds⟩
    rw [resolve_of_absent habsent]
    have hearlier : ∀ s, s ∈ (snaps.filter (·.dataset = ds)).filter (·.creation ≤ p.latest) ↔
        s ∈ snaps ∧ s.dataset = ds ∧ s.creation ≤ p.latest := by simp [and_comm]
    by_cases hended : lineageEnded (snaps.filter (·.dataset = ds))
      (backupsUntil snaps p.latest complete) = true
    · rw [if_pos hended]
      have hsome : ∃ s ∈ snaps, s.dataset = ds := by
        by_contra hnone
        have hnil : snaps.filter (·.dataset = ds) = [] :=
          List.filter_eq_nil_iff.mpr fun s hs h => hnone ⟨s, hs, of_decide_eq_true h⟩
        rw [hnil] at hended
        cases hended
      obtain ⟨name, hname⟩ := (lineageEnded_iff hsome).mp hended
      refine ⟨fun s hs => (by cases hs), iff_of_true rfl (.inr ⟨habsent, name, hname⟩), ?_⟩
      rintro - ⟨s, hs, hsds, hlater⟩
      exact absurd (hlater.trans_le (hname.last s hs hsds)) (Nat.not_lt.mpr hname.before)
    · rw [if_neg hended]
      refine ⟨fun s hs => ?_, ?_, fun ⟨s, hs, hsds, hle⟩ _ => ?_⟩
      · have hnewest := isNewest_of_newestSnap hs
        obtain ⟨-, hsds, hle⟩ := (hearlier s).mp hnewest.mem
        exact ⟨hsds, hle, fun ⟨m, hm, hds⟩ => absurd hds (habsent m hm), fun _ => hnewest⟩
      · rw [newestSnap_eq_none_iff, List.eq_nil_iff_forall_not_mem]
        simp only [hearlier]
        constructor
        · exact fun hnone => .inl fun s hs hsds => Nat.lt_of_not_le fun hle =>
            hnone s ⟨hs, hsds, hle⟩
        · rintro (hlater | ⟨-, name, hname⟩) s ⟨hs, hsds, hle⟩
          · exact absurd hle (Nat.not_le.mpr (hlater s hs hsds))
          · exact hended ((lineageEnded_iff ⟨s, hs, hsds⟩).mpr ⟨name, hname⟩)
      · obtain ⟨newest, -, heq⟩ :=
          newestSnap_of_ne_nil (List.ne_nil_of_mem ((hearlier s).mpr ⟨hs, hsds, hle⟩))
        rw [heq]
        rfl

/-- A dataset with a snapshot before and one after the chosen point, which lacks it. -/
def livedOn : List Snap :=
  [⟨["rpool", "home"], "manual1", "1", 5, 10, ""⟩,
    ⟨["rpool"], "zark_2026-01-01_00:00:00Z", "2", 6, 100, "1"⟩,
    ⟨["rpool", "home"], "manual2", "3", 7, 200, ""⟩]

theorem resolve_spec_livedOn :
    (resolve ⟨"zark_", [⟨["rpool"], "zark_2026-01-01_00:00:00Z", "2", 6, 100, "1"⟩]⟩ livedOn none
      ["rpool", "home"]).isSome = true :=
  (resolve_spec (by decide +kernel)).2.2 (by decide +kernel) (by decide +kernel)

end Zark
