import Zark.PointLosses
import Zark.Proof.DriveMarks

/-!
# A destroy changes no point's standing

The snapshots left of a point are exactly those its loss names, so one count stands on all of them.
That count is lowered by the datasets that went, as the number of datasets holding the point is.
-/

namespace Zark

open Hierarchy

section Losses

variable {snaps : List Snap} {tops : List Rel} {name : String} {loss : PointLoss}

/-- A dataset with a snapshot of a point. -/
def HoldsPoint (snaps : List Snap) (name : String) (dataset : Rel) : Prop :=
  ∃ s ∈ snaps, s.name = name ∧ s.dataset = dataset

theorem mem_held {members : List Snap} {dataset : Rel} :
    dataset ∈ held members ↔ ∃ s ∈ members, s.dataset = dataset := by
  simp [held]

theorem nodup_held {members : List Snap} : (held members).Nodup := List.nodup_dedup _

theorem mem_left {s : Snap} : s ∈ left snaps tops name ↔
    s ∈ snaps ∧ s.name = name ∧ s.gone tops = false := by
  simp [left, mem_pointMembers, and_assoc]

theorem mem_lost {dataset : Rel} :
    dataset ∈ lost snaps tops name ↔ HoldsPoint snaps name dataset ∧
    ¬∃ s ∈ left snaps tops name, s.dataset = dataset := by
  simp only [lost, List.mem_filter, mem_held, mem_pointMembers, decide_eq_true_eq,
    HoldsPoint, and_assoc]

theorem length_lost : (lost snaps tops name).length + (held (left snaps tops name)).length
      = (held (pointMembers snaps name)).length := by
  have hkept : ((held (pointMembers snaps name)).filter fun d =>
      !decide (d ∉ held (left snaps tops name))).Perm (held (left snaps tops name)) := by
    refine (List.perm_ext_iff_of_nodup (nodup_held.filter _) nodup_held).mpr fun dataset => ?_
    simp only [List.mem_filter, mem_held, decide_not, Bool.not_not, decide_eq_true_eq]
    exact ⟨And.right, fun ⟨s, hs, hdataset⟩ =>
      ⟨⟨s, List.mem_of_mem_filter hs, hdataset⟩, s, hs, hdataset⟩⟩
  rw [lost, ← hkept.length_eq, ← List.length_append]
  exact (List.filter_append_perm _ _).length_eq

theorem pointLoss_eq_some_iff : pointLoss snaps tops name = some loss ↔
    lost snaps tops name ≠ [] ∧ left snaps tops name ≠ [] ∧
    (lost snaps tops name).length < firstCount snaps name ∧
      loss = ⟨(left snaps tops name).map fun s => (s.stored, name), lost snaps tops name,
        firstCount snaps name - (lost snaps tops name).length⟩ := by
  simp only [pointLoss]
  split
  · rename_i h
    refine iff_of_false nofun fun ⟨hlost, hleft, hcount, _⟩ => ?_
    rcases h with h | h | h
    · exact hlost h
    · exact hleft h
    · omega
  · rename_i h
    simp only [not_or] at h
    rw [Option.some.injEq, eq_comm]
    exact ⟨fun heq => ⟨h.1, h.2.1, by omega, heq⟩, fun h => h.2.2.2⟩

theorem mem_losing : name ∈ losing snaps tops ↔
    ∃ s ∈ snaps, s.name = name ∧ s.gone tops = true ∧ (markCount s.mark).isSome = true := by
  simp only [losing, List.mem_insertionSort, List.mem_dedup, List.mem_map, List.mem_filter,
    Bool.and_eq_true]
  exact ⟨fun ⟨s, ⟨hs, h⟩, hname⟩ => ⟨s, hs, hname, h⟩, fun ⟨s, hs, hname, h⟩ => ⟨s, ⟨hs, h⟩, hname⟩⟩

theorem nodup_losing : (losing snaps tops).Nodup :=
  (List.perm_insertionSort _ _).nodup_iff.mpr (List.nodup_dedup _)

theorem mem_pointLosses : (name, loss) ∈ pointLosses snaps tops ↔
    name ∈ losing snaps tops ∧ pointLoss snaps tops name = some loss := by
  simp only [pointLosses, List.mem_filterMap, Option.map_eq_some_iff, Prod.mk.injEq]
  exact ⟨fun ⟨_, hmem, _, hloss, hname, heq⟩ => hname ▸ heq ▸ ⟨hmem, hloss⟩, fun ⟨hmem, hloss⟩ =>
    ⟨name, hmem, loss, hloss, rfl, rfl⟩⟩

/-- A snapshot with the count its point is left with. -/
def recount (snaps : List Snap) (tops : List Rel) (s : Snap) : Snap :=
  match if s.name ∈ losing snaps tops then pointLoss snaps tops s.name else none with
  | some loss => setCount (countMark loss.count) loss.targets s
  | none => s

@[simp] theorem setCount_name (count : String) (targets : List SnapName) (s : Snap) :
    (setCount count targets s).name = s.name := by
  unfold setCount
  split <;> rfl

theorem setCount_stored (count : String) (targets : List SnapName) (s : Snap) :
    (setCount count targets s).stored = s.stored := by
  unfold setCount
  split <;> rfl

theorem setCount_of_ne {s : Snap} (count : String) (h : pointLoss snaps tops name = some loss)
    (hne : s.name ≠ name) :
    setCount count loss.targets s = s := by
  obtain ⟨-, -, -, rfl⟩ := pointLoss_eq_some_iff.mp h
  refine if_neg fun hmem => ?_
  obtain ⟨_, -, heq⟩ := List.mem_map.mp hmem
  exact hne (congrArg Prod.snd heq).symm

theorem foldl_setCount (s : Snap) :
    (pointLosses snaps tops).foldl
    (fun s loss => setCount (countMark loss.2.count) loss.2.targets s) s
      = recount snaps tops s := by
  have hfold : ∀ (names : List String) (s : Snap), names.Nodup →
      (names.filterMap fun name => (pointLoss snaps tops name).map (name, ·)).foldl
        (fun s loss => setCount (countMark loss.2.count) loss.2.targets s) s =
      match if s.name ∈ names then pointLoss snaps tops s.name else none with
      | some loss => setCount (countMark loss.count) loss.targets s
      | none => s := by
    intro names
    induction names with
    | nil => simp
    | cons name names ih =>
        intro s hnodup
        obtain ⟨hnot, hrest⟩ := List.nodup_cons.mp hnodup
        by_cases hname : s.name = name
        · subst hname
          cases hloss : pointLoss snaps tops s.name with
          | none =>
              rw [List.filterMap_cons_none (by simp [hloss]), ih s hrest, if_neg hnot,
                if_pos List.mem_cons_self]
          | some loss =>
              rw [List.filterMap_cons_some (by rw [hloss]; rfl), List.foldl_cons, ih _ hrest,
                setCount_name, if_neg hnot, if_pos List.mem_cons_self]
        · have hmem : (s.name ∈ name :: names) = (s.name ∈ names) := by simp [hname]
          cases hloss : pointLoss snaps tops name with
          | none =>
              rw [List.filterMap_cons_none (by simp [hloss]), ih s hrest]
              simp only [hmem]
          | some loss =>
              rw [List.filterMap_cons_some (by rw [hloss]; rfl), List.foldl_cons,
                setCount_of_ne _ hloss hname, ih s hrest]
              simp only [hmem]
  exact hfold _ s nodup_losing

theorem recount_stored (s : Snap) : (recount snaps tops s).stored = s.stored := by
  unfold recount
  split
  · exact setCount_stored _ _ s
  · rfl

theorem recount_name (s : Snap) : (recount snaps tops s).name = s.name := by
  unfold recount
  split
  · exact setCount_name _ _ s
  · rfl

theorem recount_dataset (s : Snap) : (recount snaps tops s).dataset = s.dataset :=
  congrArg logical (recount_stored s)

theorem rewritten_eq : rewritten snaps tops = (snaps.filter (!·.gone tops)).map
      (recount snaps tops) :=
  List.map_congr_left fun s _ => foldl_setCount s

theorem pointMembers_rewritten : pointMembers (rewritten snaps tops) name
      = (left snaps tops name).map (recount snaps tops) := by
  rw [rewritten_eq, pointMembers, List.filter_map, left, pointMembers, List.filter_filter,
    List.filter_filter]
  refine congrArg _ (List.filter_congr fun s _ => ?_)
  rw [Function.comp_apply, recount_name, Bool.and_comm]

theorem holds_rewritten {dataset : Rel} : HoldsPoint (rewritten snaps tops) name dataset ↔
    ∃ s ∈ left snaps tops name, s.dataset = dataset := by
  have hmem : ∀ s, s ∈ rewritten snaps tops ∧ s.name = name ↔
      s ∈ (left snaps tops name).map (recount snaps tops) := fun s => by
    rw [← pointMembers_rewritten, mem_pointMembers]
  simp only [HoldsPoint, ← and_assoc, hmem, List.mem_map]
  constructor
  · rintro ⟨_, ⟨s, hs, rfl⟩, rfl⟩
    exact ⟨s, hs, (recount_dataset s).symm⟩
  · rintro ⟨s, hs, rfl⟩
    exact ⟨_, ⟨s, hs, rfl⟩, recount_dataset s⟩

/-- A point whose snapshots all carry one count, at least the number of datasets that hold it. -/
def Counted (snaps : List Snap) (name : String) : Prop :=
  ∃ mark count, markCount mark = some count ∧ datasetCount (pointMembers snaps name) ≤ count ∧
    ∀ s ∈ pointMembers snaps name, s.mark = mark

theorem firstCount_eq {mark : String} {count : ℕ} (hcount : markCount mark = some count)
    (hmarks : ∀ s ∈ pointMembers snaps name, s.mark = mark) (hne : pointMembers snaps name ≠ []) :
    firstCount snaps name = count := by
  obtain ⟨s, rest, hmembers⟩ := List.exists_cons_of_ne_nil hne
  have hs : s ∈ pointMembers snaps name := by
    rw [hmembers]
    exact List.mem_cons_self
  rw [firstCount, hmembers, List.findSome?_cons, hmarks s hs, hcount, Option.getD_some]

/-- Snapshots that share a count are complete when it is the number of their datasets. -/
theorem isComplete_of_marks {members : List Snap} {mark : String} {count : ℕ} (hne : members ≠ [])
    (hmarks : ∀ s ∈ members, s.mark = mark) (hcount : markCount mark = some count) :
    isComplete members = true ↔ count = datasetCount members := by
  rw [isComplete_iff]
  constructor
  · rintro ⟨mark', -, hmarks', hmark'⟩
    obtain ⟨s, hs⟩ := List.exists_mem_of_ne_nil members hne
    obtain rfl : mark = mark' := (hmarks s hs).symm.trans (hmarks' s hs)
    rcases hmark' with rfl | hcount'
    · rw [show markCount legacyMark = none by decide] at hcount
      cases hcount
    · exact Option.some.inj (hcount.symm.trans hcount')
  · rintro rfl
    exact ⟨mark, hne, hmarks, .inr hcount⟩

/-- A counted point that keeps a snapshot has a loss when it loses a dataset. -/
theorem pointLoss_of_counted {mark : String} {count : ℕ} (hcount : markCount mark = some count)
    (hle : datasetCount (pointMembers snaps name) ≤ count)
    (hmarks : ∀ s ∈ pointMembers snaps name, s.mark = mark) (hleft : left snaps tops name ≠ [])
    (hlost : lost snaps tops name ≠ []) :
    name ∈ losing snaps tops ∧ pointLoss snaps tops name =
      some ⟨(left snaps tops name).map fun s => (s.stored, name), lost snaps tops name,
        count - (lost snaps tops name).length⟩ := by
  obtain ⟨dataset, hdataset⟩ := List.exists_mem_of_ne_nil _ hlost
  obtain ⟨⟨s, hs, hname, hset⟩, hnone⟩ := mem_lost.mp hdataset
  have hmember : s ∈ pointMembers snaps name := mem_pointMembers.mpr ⟨hs, hname⟩
  have hfirst := firstCount_eq hcount hmarks (List.ne_nil_of_mem hmember)
  refine ⟨mem_losing.mpr ⟨s, hs, hname, ?_, by rw [hmarks s hmember, hcount, Option.isSome_some]⟩,
    ?_⟩
  · by_contra hgone
    exact hnone ⟨s, mem_left.mpr ⟨hs, hname, by simpa using hgone⟩, hset⟩
  · obtain ⟨s, hs⟩ := List.exists_mem_of_ne_nil _ hleft
    have hkept : 0 < (held (left snaps tops name)).length :=
      List.length_pos_of_mem (mem_held.mpr ⟨s, hs, rfl⟩)
    have hsum := @length_lost snaps tops name
    rw [datasetCount, ← held] at hle
    exact pointLoss_eq_some_iff.mpr ⟨hlost, hleft, by omega, by rw [hfirst]⟩

theorem datasetCount_map {members : List Snap} {f : Snap → Snap}
    (hf : ∀ s, (f s).dataset = s.dataset) :
    datasetCount (members.map f) = datasetCount members := by
  rw [datasetCount, datasetCount, List.map_map]
  exact congrArg (fun g => (members.map g).dedup.length) (funext hf)

/-- The count of a counted point is lowered as its datasets are. -/
theorem isComplete_rewritten (h : Counted snaps name) (hleft : left snaps tops name ≠ []) :
    isComplete (pointMembers (rewritten snaps tops) name)
      = isComplete (pointMembers snaps name) := by
  obtain ⟨mark, count, hcount, hle, hmarks⟩ := h
  have hsum : (lost snaps tops name).length + datasetCount (left snaps tops name)
      = datasetCount (pointMembers snaps name) := length_lost
  have hmembers : pointMembers snaps name ≠ [] :=
    fun hnil => hleft (by rw [left, hnil, List.filter_nil])
  have hafter : (left snaps tops name).map (recount snaps tops) ≠ [] := by simpa using hleft
  rw [pointMembers_rewritten, Bool.eq_iff_iff, isComplete_of_marks hmembers hmarks hcount]
  by_cases hlost : lost snaps tops name = []
  · -- Nothing is written, and the snapshots left have all the datasets.
    have hsame : ∀ s ∈ (left snaps tops name).map (recount snaps tops), s.mark = mark := by
      intro t ht
      obtain ⟨s, hs, rfl⟩ := List.mem_map.mp ht
      obtain ⟨hmem, rfl, -⟩ := mem_left.mp hs
      have hnone : pointLoss snaps tops s.name = none := by simp [pointLoss, hlost]
      rw [recount, hnone, ite_self]
      exact hmarks s (mem_pointMembers.mpr ⟨hmem, rfl⟩)
    rw [isComplete_of_marks hafter hsame hcount, datasetCount_map recount_dataset]
    rw [hlost, List.length_nil, zero_add] at hsum
    rw [hsum]
  · obtain ⟨hlosing, hloss⟩ := pointLoss_of_counted hcount hle hmarks hleft hlost
    have hsame : ∀ s ∈ (left snaps tops name).map (recount snaps tops),
        s.mark = countMark (count - (lost snaps tops name).length) := by
      intro t ht
      obtain ⟨s, hs, rfl⟩ := List.mem_map.mp ht
      obtain ⟨-, rfl, -⟩ := mem_left.mp hs
      rw [recount, if_pos hlosing, hloss]
      exact congrArg Snap.mark (if_pos (List.mem_map.mpr ⟨s, hs, rfl⟩))
    rw [isComplete_of_marks hafter hsame (markCount_countMark _), datasetCount_map recount_dataset]
    omega

/-- Destroying trees and writing the counts of what they took changes the standing of no point with
one count that keeps a snapshot; no snapshot that goes is written, and a point's loss is the
datasets that held it before and do not after. -/
theorem destroy_keeps_standing (snaps : List Snap) (tops : List Rel) (name : String)
    (hcounted : Counted snaps name) (hkept : ∃ s ∈ snaps, s.name = name ∧ s.gone tops = false) :
    isComplete (pointMembers (rewritten snaps tops) name) = isComplete (pointMembers snaps name) ∧
      ((∃ loss, (name, loss) ∈ pointLosses snaps tops) ↔ ∃ dataset, HoldsPoint snaps name dataset ∧
        ¬HoldsPoint (rewritten snaps tops) name dataset) ∧
        ∀ loss, (name, loss) ∈ pointLosses snaps tops →
          (∀ x ∈ loss.targets, covered x.1 tops = false) ∧
            ∀ dataset, dataset ∈ loss.lost ↔
            HoldsPoint snaps name dataset ∧ ¬HoldsPoint (rewritten snaps tops) name dataset := by
  obtain ⟨s, hs, hname, hgone⟩ := hkept
  have hleft : left snaps tops name ≠ [] := List.ne_nil_of_mem (mem_left.mpr ⟨hs, hname, hgone⟩)
  refine ⟨isComplete_rewritten hcounted hleft, ⟨?_, ?_⟩, ?_⟩
  · rintro ⟨loss, hloss⟩
    obtain ⟨hlost, -⟩ := pointLoss_eq_some_iff.mp (mem_pointLosses.mp hloss).2
    obtain ⟨dataset, hdataset⟩ := List.exists_mem_of_ne_nil _ hlost
    exact ⟨dataset, by rwa [holds_rewritten, ← mem_lost]⟩
  · rintro ⟨dataset, hdataset⟩
    rw [holds_rewritten, ← mem_lost] at hdataset
    obtain ⟨mark, count, hcount, hle, hmarks⟩ := hcounted
    obtain ⟨hlosing, hloss⟩ :=
      pointLoss_of_counted hcount hle hmarks hleft (List.ne_nil_of_mem hdataset)
    exact ⟨_, mem_pointLosses.mpr ⟨hlosing, hloss⟩⟩
  · intro loss hloss
    obtain ⟨-, -, -, rfl⟩ := pointLoss_eq_some_iff.mp (mem_pointLosses.mp hloss).2
    refine ⟨fun x hx => ?_, fun dataset => by rw [holds_rewritten, ← mem_lost]⟩
    obtain ⟨t, ht, rfl⟩ := List.mem_map.mp hx
    exact (mem_left.mp ht).2.2

/-- Two datasets of a counted point, one of them with an archived lineage that goes with the other
one. -/
theorem destroy_keeps_standing_two :
    let snaps :=
      [Snap.mk ["rpool", "a"] "p" "" 0 1 "2", Snap.mk ["rpool", "b"] "p" "" 0 1 "2",
        Snap.mk ["rpool", "a.archived-1"] "p" "" 0 1 "2"]
    let tops := [["rpool", "b"], ["rpool", "a.archived-1"]]
    Counted snaps "p" ∧ isComplete (pointMembers (rewritten snaps tops) "p")
        = isComplete (pointMembers snaps "p") := by
  have hcounted : Counted [Snap.mk ["rpool", "a"] "p" "" 0 1 "2",
      Snap.mk ["rpool", "b"] "p" "" 0 1 "2", Snap.mk ["rpool", "a.archived-1"] "p" "" 0 1 "2"]
        "p" := ⟨"2", 2, by decide, by decide, by decide⟩
  exact ⟨hcounted, (destroy_keeps_standing _ [["rpool", "b"], ["rpool", "a.archived-1"]] "p"
    hcounted ⟨_, List.mem_cons_self, rfl, by decide⟩).1⟩

end Losses

/-! ### The orphan's destroy -/

section Orphan

variable {destroy : Drive → Rel → Option Drive} {marks : Marks}

/-- A destroy that runs takes the tree and nothing else. -/
def TakesTree (destroy : Drive → Rel → Option Drive) : Prop :=
  ∀ dest x dest', destroy dest x = some dest' → dest' = dest.filter fun d => !decide (Under d.rel x)

theorem takesTree_zfsDestroy : TakesTree zfsDestroy := by
  intro dest x dest' h
  unfold zfsDestroy at h
  split at h
  · exact (Option.some.inj h).symm
  · cases h

theorem gone_singleton {x : Rel} (s : Snap) : s.gone [x] = decide (Under s.stored x) := by
  rw [Snap.gone, covered, List.any_cons, List.any_nil, Bool.or_false]

theorem driveSnapshots_filter (dest : Drive) (x : Rel) :
    driveSnapshots (dest.filter fun d => !decide (Under d.rel x)) marks
      = (driveSnapshots dest marks).filter (!·.gone [x]) := by
  have hgone : ∀ d : Dest, ∀ s ∈ d.snaps.items.map (snapOf marks d),
      s.gone [x] = decide (Under d.rel x) := by
    intro d s hs
    obtain ⟨ref, -, rfl⟩ := List.mem_map.mp hs
    exact gone_singleton _
  simp only [driveSnapshots, Keyed.filter_items]
  induction dest.items with
  | nil => rfl
  | cons d rest ih =>
      rw [List.flatMap_cons, List.filter_append, ← ih]
      by_cases hunder : Under d.rel x
      · have hnone : (d.snaps.items.map (snapOf marks d)).filter (!·.gone [x]) = [] := by
          refine List.filter_eq_nil_iff.mpr fun s hs => ?_
          rw [hgone d s hs, decide_eq_true hunder]
          decide
        rw [hnone, List.filter_cons_of_neg (by simpa using hunder), List.nil_append]
      · have hall : (d.snaps.items.map (snapOf marks d)).filter (!·.gone [x])
            = d.snaps.items.map (snapOf marks d) := by
          refine List.filter_eq_self.mpr fun s hs => ?_
          rw [hgone d s hs, decide_eq_false hunder]
          rfl
        rw [hall, List.filter_cons_of_pos (by simpa using hunder), List.flatMap_cons]

theorem gone_append {tops tops' : List Rel} (s : Snap) :
    s.gone (tops ++ tops') = (s.gone tops || s.gone tops') := by
  simp [Snap.gone, covered]

theorem driveSnapshots_destroyEach (hdestroy : TakesTree destroy) (l : List Rel) (dest : Drive) :
    driveSnapshots (destroyEach destroy l dest).2.2 marks =
      (driveSnapshots dest marks).filter (!·.gone (destroyEach destroy l dest).1) := by
  induction l generalizing dest with
  | nil => simp [destroyEach, Snap.gone, covered]
  | cons x rest ih =>
      cases h : destroy dest x with
      | none => simp [destroyEach, h, Snap.gone, covered]
      | some dest' =>
          simp only [destroyEach, h]
          rw [ih dest', hdestroy dest x dest' h, driveSnapshots_filter, List.filter_filter]
          refine List.filter_congr fun s _ => ?_
          rw [Bool.and_comm, ← Bool.not_or, ← gone_append, List.singleton_append]

theorem driveSnapshots_destroyDependents (hdestroy : TakesTree destroy) (plan : DestroyPlan)
    (dest : Drive) :
    driveSnapshots (destroyDependents destroy plan dest).2.2 marks =
      (driveSnapshots dest marks).filter (!·.gone (destroyDependents destroy plan dest).1) := by
  unfold destroyDependents
  split
  · simp [Snap.gone, covered]
  · exact driveSnapshots_destroyEach hdestroy _ dest

/-- Whatever destroy fails, the orphan's destroy keeps the standing of each counted point the drive
still has a snapshot of, and what it rewrites is what is on the drive. -/
theorem destroyOrphan_keeps (hdestroy : TakesTree destroy) (readable : Bool) (plan : DestroyPlan)
    (dest : Drive) :
    let out := destroyOrphan destroy readable marks plan dest
    (out.2.1.map fun s => (s.stored, s.name)) = (driveSnapshots out.1 marks).map
      (fun s => (s.stored, s.name)) ∧
      ∀ name, Counted (driveSnapshots dest marks) name → pointMembers out.2.1 name ≠ [] →
        isComplete (pointMembers out.2.1 name)
            = isComplete (pointMembers (driveSnapshots dest marks) name) := by
  intro out
  -- What went, whichever destroy was the last to run.
  have hgone : readable = false ∧ out.1 = dest ∧ out.2.1 = driveSnapshots dest marks ∨
      ∃ gone, out.2.1 = rewritten (driveSnapshots dest marks) gone ∧
      driveSnapshots out.1 marks = (driveSnapshots dest marks).filter (!·.gone gone) := by
    cases readable with
    | false => exact .inl ⟨rfl, rfl, rfl⟩
    | true =>
        right
        have hlist := @driveSnapshots_destroyDependents destroy marks hdestroy plan dest
        simp only [out, destroyOrphan, Bool.not_true, Bool.false_eq_true, if_false]
        generalize destroyDependents destroy plan dest = run at hlist ⊢
        obtain ⟨gone, ok, dest'⟩ := run
        cases ok with
        | false => exact ⟨gone, rfl, hlist⟩
        | true =>
            cases htop : destroy dest' plan.top with
            | none =>
                simp only [htop]
                exact ⟨gone, rfl, hlist⟩
            | some dest'' =>
                simp only [htop]
                refine ⟨gone ++ [plan.top], rfl, ?_⟩
                simp only [hdestroy dest' plan.top dest'' htop, driveSnapshots_filter, hlist,
                  List.filter_filter, gone_append, Bool.not_or, Bool.and_comm]
  rcases hgone with ⟨-, hdest, hsnaps⟩ | ⟨gone, hsnaps, hdest⟩
  · rw [hdest, hsnaps]
    exact ⟨rfl, fun _ _ _ => rfl⟩
  · rw [hdest, hsnaps]
    refine ⟨?_, fun name hcounted hkept => isComplete_rewritten hcounted fun hleft => hkept ?_⟩
    · rw [rewritten_eq, List.map_map]
      exact List.map_congr_left fun s _ => Prod.ext (recount_stored s) (recount_name s)
    · rw [pointMembers_rewritten, hleft, List.map_nil]

end Orphan

/-! ### The excluded top's destroy -/

/-- What is written after the destroy of an excluded top sets the counts of the losses on the same
snapshots. -/
theorem rewrites_counts {top : Rel} {flags : Flags} {snaps : List Snap}
    {records : SnapName → Option (Option String)} {gone : List Rel}
    {values : Rel → Option (String × String)} {out : List (String × Rewrite)} (hne : gone ≠ [])
    (h : rewrites top flags snaps records gone values = some out) :
    out.map (fun rw => (rw.1, rw.2.targets, rw.2.complete)) =
      (pointLosses snaps gone).map fun loss =>
        (loss.1, loss.2.targets, countMark loss.2.count) := by
  rw [rewrites, if_neg hne] at h
  generalize pointLosses snaps gone = losses at h ⊢
  induction losses generalizing out with
  | nil =>
      obtain rfl : [] = out := Option.some.inj h
      rfl
  | cons loss rest ih =>
      simp only [List.mapM_cons, Option.bind_eq_bind, Option.bind_eq_some_iff,
        Option.map_eq_some_iff, Option.pure_def, Option.some.injEq] at h
      obtain ⟨_, ⟨rw, hrw, rfl⟩, rest', hrest, rfl⟩ := h
      obtain ⟨pm, -, rfl⟩ := Option.map_eq_some_iff.mp hrw
      rw [List.map_cons, List.map_cons, ih hrest]

end Zark
