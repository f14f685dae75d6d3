import Zark.Transfer

/-!
# The planner's transfers are accepted and reach the point

A plan to transfer a dataset comes from one row of the listing, which says what the drive's newest
snapshot is and where origin still has it. The streams of the plan start there, each carries
origin's snapshots up to its target and lands on what the one before it left, and the last one ends
at the point, so planning again finds the dataset there.
-/

namespace Zark

open Hierarchy

/-! ### What a plan says -/

/-- What the plan of a dataset the drive holds rests on, state by state. -/
inductive PlannedAs (o : Origin) (d : Dest) (point : String) : DatasetPlan → Prop
  | resume (htoken : d.token ≠ "") : PlannedAs o d point { rel := o.rel, state := .resume }
  | empty (htoken : d.token = "") (hnewest : d.newest = none) :
      PlannedAs o d point
        { rel := o.rel, state := .diverged, used := d.used, note := "no snapshot on backup" }
  | atPoint {newest own : Ref} (htoken : d.token = "") (hnewest : d.newest = some newest)
      (hown : o.snapByGuid newest.guid = some own) (hname : own.name = point) :
      PlannedAs o d point { rel := o.rel, state := .atPoint }
  | incremental {newest own : Ref} (htoken : d.token = "") (hnewest : d.newest = some newest)
      (hown : o.snapByGuid newest.guid = some own) (hname : own.name ≠ point) :
      PlannedAs o d point { rel := o.rel, state := .incremental, base := .snapshot own.name }
  | viaBookmark {newest bm first : Ref} (htoken : d.token = "") (hnewest : d.newest = some newest)
      (hgone : o.snapByGuid newest.guid = none)
      (hvia : viaBookmark o newest.guid = some (bm, first)) :
      PlannedAs o d point
        { rel := o.rel, state := .viaBookmark, base := .bookmark bm.name, first := some first.name }
  | rollback {newest s : Ref} {base : Base} {newer : List Ref} (htoken : d.token = "")
      (hnewest : d.newest = some newest)
      (hgone : o.snapByGuid newest.guid = none) (hvia : Zark.viaBookmark o newest.guid = none)
      (hcommon : findCommon o d.snaps.items.reverse.tail [newest] = some (s, base, newer)) :
      PlannedAs o d point
        { rel := o.rel, state := .rollback, base, common := some s.name,
          newer := newer.map Ref.name, used := d.used }
  | diverged {newest : Ref} (htoken : d.token = "") (hnewest : d.newest = some newest)
      (hgone : o.snapByGuid newest.guid = none) (hvia : Zark.viaBookmark o newest.guid = none)
      (hcommon : findCommon o d.snaps.items.reverse.tail [newest] = none) :
      PlannedAs o d point
        { rel := o.rel, state := .diverged, used := d.used,
          note := "no common snapshot or bookmark" }

theorem planUnwritten_spec (o : Origin) (d : Dest) (point : String) :
    PlannedAs o d point (planUnwritten o (some d) point) := by
  unfold planUnwritten
  dsimp only
  by_cases htoken : d.token = ""
  · rw [if_neg (by simpa using htoken)]
    cases hnewest : d.newest with
    | none => exact .empty htoken hnewest
    | some newest =>
        dsimp only
        cases hown : o.snapByGuid newest.guid with
        | some own =>
            dsimp only
            by_cases hname : own.name = point
            · rw [if_pos (by simpa using hname)]
              exact .atPoint htoken hnewest hown hname
            · rw [if_neg (by simpa using hname)]
              exact .incremental htoken hnewest hown hname
        | none =>
            dsimp only
            cases hvia : viaBookmark o newest.guid with
            | some found => exact .viaBookmark htoken hnewest hown hvia
            | none =>
                dsimp only
                unfold planOlder
                cases hcommon : findCommon o d.snaps.items.reverse.tail [newest] with
                | none => exact .diverged htoken hnewest hown hvia hcommon
                | some found => exact .rollback htoken hnewest hown hvia hcommon
  · rw [if_pos (by simpa using htoken)]
    exact .resume htoken

section Plans

variable {o : Origin} {point : String}

theorem findCommon_eq_some {l newer after : List Ref} {s : Ref} {base : Base}
    (h : findCommon o l newer = some (s, base, after)) :
    ∃ passed older, l = passed ++ s :: older ∧ originBase o s.guid = some base ∧
    (∀ x ∈ passed, originBase o x.guid = none) ∧
      after = passed.reverse ++ newer := by
  induction l generalizing newer with
  | nil => cases h
  | cons x older ih =>
      unfold findCommon at h
      cases hbase : originBase o x.guid with
      | some found =>
          rw [hbase] at h
          cases h
          exact ⟨[], older, rfl, hbase, by simp, rfl⟩
      | none =>
          rw [hbase] at h
          obtain ⟨passed, older, rfl, hs, hpassed, rfl⟩ := ih h
          exact ⟨x :: passed, older, rfl, hs, by simpa [hbase] using hpassed, by simp⟩

theorem findCommon_passed {passed older newer : List Ref} {s : Ref} {base : Base}
    (hbase : originBase o s.guid = some base) (hpassed : ∀ x ∈ passed, originBase o x.guid = none) :
    findCommon o (passed ++ s :: older) newer = some (s, base, passed.reverse ++ newer) := by
  induction passed generalizing newer with
  | nil => simp [findCommon, hbase]
  | cons x rest ih =>
      rw [List.cons_append, findCommon, hpassed x List.mem_cons_self]
      simp [ih fun y hy => hpassed y (List.mem_cons_of_mem _ hy)]

theorem findCommon_eq_none_iff {l newer : List Ref} :
    findCommon o l newer = none ↔ ∀ x ∈ l, originBase o x.guid = none := by
  induction l generalizing newer with
  | nil => simp [findCommon]
  | cons x older ih =>
      rw [findCommon]
      cases hbase : originBase o x.guid with
      | some found => simp [hbase]
      | none => simp [hbase, ih]

theorem planDataset_of_unwritten {d : Dest} (h : d.written = 0) :
    planDataset o (some d) point = planUnwritten o (some d) point := by
  simp [planDataset, h]

theorem planDataset_eq_unwritten {d : Dest} (h : (planDataset o (some d) point).state ≠ .modified) :
    planDataset o (some d) point = planUnwritten o (some d) point := by
  unfold planDataset at h ⊢
  dsimp only at h ⊢
  by_cases hwritten : d.written = 0
  · rw [if_pos hwritten]
  · rw [if_neg hwritten] at h ⊢
    split at h
    · simp [planPartial, asModified] at h
    · split at h
      · exact absurd rfl h
      · rename_i hresume hask
        rw [if_neg hresume, if_neg hask]

/-- A dataset whose copy was written is never planned as an incremental. -/
theorem isIncremental_of_written {d : Dest} (h : d.written ≠ 0) :
    (planDataset o (some d) point).state.isIncremental = false := by
  unfold planDataset
  dsimp only
  rw [if_neg h]
  split
  all_goals
    split
    · rfl
    · rename_i hask
      rw [Bool.or_eq_true, not_or] at hask
      exact Bool.eq_false_iff.mpr hask.1

theorem planDataset_ne_new (d : Dest) : (planDataset o (some d) point).state ≠ .new := by
  have hunwritten : ∀ d : Dest, (planUnwritten o (some d) point).state ≠ .new := by
    intro d h
    have hspec := planUnwritten_spec o d point
    generalize planUnwritten o (some d) point = p at hspec h
    cases hspec <;> cases h
  unfold planDataset
  dsimp only
  split
  · exact hunwritten d
  · split
    · simp [planPartial, asModified]
    · split
      · simp [asModified]
      · exact hunwritten d

theorem planDataset_rel (o : Origin) (d : Option Dest) (point : String) :
    (planDataset o d point).rel = o.rel := by
  have hunwritten : ∀ d : Option Dest, (planUnwritten o d point).rel = o.rel := by
    intro d
    cases d with
    | none => rfl
    | some d =>
        have hspec := planUnwritten_spec o d point
        generalize planUnwritten o (some d) point = p at hspec
        cases hspec <;> rfl
  cases d with
  | none => rfl
  | some d =>
      unfold planDataset
      dsimp only
      split
      · exact hunwritten _
      · split
        · split
          · exact hunwritten _
          · exact hunwritten _
        · split
          · exact hunwritten _
          · exact hunwritten _

theorem exists_held_of_isIncremental {d : Option Dest}
    (h : (planDataset o d point).state.isIncremental = true) :
    ∃ held, d = some held ∧ held.written = 0 ∧
    planDataset o d point = planUnwritten o (some held) point := by
  cases d with
  | none => cases h
  | some held =>
      by_cases hwritten : held.written = 0
      · exact ⟨held, rfl, hwritten, planDataset_of_unwritten hwritten⟩
      · rw [isIncremental_of_written hwritten] at h
        cases h

end Plans

/-- The row of a dataset that is transferred or asked about is the plan of an expected dataset. -/
theorem mem_plan_expected {origin : Origins} {dest : Drive} {point : String} {skip : List Rel}
    {p : DatasetPlan} (hp : p ∈ plan origin dest point skip) (hexcluded : p.state ≠ .excluded)
    (horphan : p.state ≠ .orphan) :
    ∃ o, origin.get? o.rel = some o ∧ isExpected o skip = true ∧
    p = planExpected o origin (liveDatasets dest) point := by
  simp only [plan, List.mem_append, or_assoc] at hp
  rcases hp with hwanted | hleft | hdeclared | horphans
  · obtain ⟨rel, hrel, hp⟩ := List.mem_filterMap.mp hwanted
    obtain ⟨o, ho, rfl⟩ := Option.map_eq_some_iff.mp hp
    obtain ⟨o', ho', rfl⟩ := List.mem_map.mp (mem_sortRels.mp hrel)
    obtain ⟨hmem, hexpected⟩ := List.mem_filter.mp ho'
    obtain rfl : o' = o := by simpa [Keyed.get?_of_mem (show o' ∈ origin from hmem)] using ho
    exact ⟨o', ho, hexpected, rfl⟩
  · obtain ⟨row, -, rfl⟩ := List.mem_map.mp hleft
    exact absurd rfl hexcluded
  · obtain ⟨top, -, rfl⟩ := List.mem_map.mp hdeclared
    exact absurd rfl hexcluded
  · obtain ⟨rel, -, hp⟩ := List.mem_filterMap.mp horphans
    obtain ⟨d, -, rfl⟩ := Option.map_eq_some_iff.mp hp
    exact absurd rfl horphan

theorem isArchived_of_isExpected {o : Origin} {skip : List Rel} (h : isExpected o skip = true) :
    isArchived o.rel = false := by
  simp only [isExpected, Bool.and_eq_true, Bool.not_eq_true'] at h
  exact h.1.2

theorem get?_liveDatasets {dest : Drive} {rel : Rel} (h : isArchived rel = false) :
    (liveDatasets dest).get? rel = dest.get? rel := by
  rw [liveDatasets, Keyed.get?_filter]
  cases hget : dest.get? rel with
  | none => rfl
  | some d => rw [Option.filter_some_pos (by rw [Keyed.key_of_get? hget, h]; rfl)]

theorem get?_of_liveDatasets {dest : Drive} {rel : Rel} {d : Dest}
    (h : (liveDatasets dest).get? rel = some d) :
    dest.get? rel = some d := by
  obtain ⟨hd, hrel⟩ := Keyed.get?_eq_some_iff.mp h
  exact Keyed.get?_eq_some_iff.mpr ⟨(Keyed.mem_filter.mp hd).1, hrel⟩

theorem planExpected_of_held {origin : Origins} {live : Drive} {point : String} {o : Origin}
    {d : Dest} (hd : live.get? o.rel = some d) :
    planExpected o origin live point = planDataset o (some d) point := by
  rw [planExpected, hd]
  exact if_neg (by simpa using planDataset_ne_new d)

theorem planExpected_of_absent {origin : Origins} {live : Drive} {point : String} {o : Origin}
    (hnone : live.get? o.rel = none) :
    planExpected o origin live point = cloneBase { rel := o.rel, state := .new } o origin live := by
  rw [planExpected, hnone]
  rfl

/-! ### What a receive leaves -/

theorem map_name_received (txg : ℕ) (refs : List Ref) :
    (received txg refs).map Ref.name = refs.map Ref.name := by
  induction refs generalizing txg with
  | nil => rfl
  | cons s rest ih => rw [received, List.map_cons, List.map_cons, ih]

theorem map_guid_received (txg : ℕ) (refs : List Ref) :
    (received txg refs).map Ref.guid = refs.map Ref.guid := by
  induction refs generalizing txg with
  | nil => rfl
  | cons s rest ih => rw [received, List.map_cons, List.map_cons, ih]

theorem receive_spec {d : Dest} {refs : List Ref} {last : Ref}
    (hfresh : ∀ s ∈ refs, s.name ∉ d.snaps.keys) (hnodup : (refs.map Ref.name).Nodup)
    (hlast : refs.getLast? = some last) :
    ∃ e, d.receive refs = some e ∧ e.rel = d.rel ∧ e.token = d.token ∧ e.written = d.written ∧
      (∀ s ∈ d.snaps, s ∈ e.snaps) ∧ e.newest.map Ref.guid = some last.guid ∧
      e.snaps.keys = d.snaps.keys ++ refs.map Ref.name := by
  obtain ⟨txg, htxg⟩ : ∃ txg, txg = (d.newest.map fun n => n.createtxg + 1).getD 0 := ⟨_, rfl⟩
  have hnames : ((d.snaps.items ++ received txg refs).map Ref.name) = d.snaps.keys ++
      refs.map Ref.name := by
    rw [List.map_append, map_name_received, Keyed.keys]
  have hdistinct : ((d.snaps.items ++ received txg refs).map Ref.name).Nodup := by
    rw [hnames, List.nodup_append]
    refine ⟨d.snaps.nodup, hnodup, ?_⟩
    intro name hname other hother heq
    obtain ⟨s, hs, rfl⟩ := List.mem_map.mp hother
    exact hfresh s hs (heq ▸ hname)
  have hsnaps : Keyed.ofList? Ref.name (d.snaps.items ++ received txg refs) = some ⟨_, hdistinct⟩ :=
    Keyed.ofList?_eq_some_iff.mpr rfl
  refine ⟨{ d with snaps := ⟨d.snaps.items ++ received txg refs, hdistinct⟩ }, ?_, rfl, rfl, rfl,
    ?_, ?_, hnames⟩
  · rw [Dest.receive, ← htxg, hsnaps, Option.map_some]
  · intro s hs
    exact List.mem_append_left _ hs
  · have hguids : ((received txg refs).getLast?).map Ref.guid = some last.guid := by
      rw [← List.getLast?_map, map_guid_received, List.getLast?_map, hlast, Option.map_some]
    obtain ⟨r, hr, hguid⟩ := Option.map_eq_some_iff.mp hguids
    show ((d.snaps.items ++ received txg refs).getLast?).map Ref.guid = some last.guid
    rw [List.getLast?_append, hr, Option.some_or, Option.map_some, hguid]

/-- An incremental lands on the dataset's newest snapshot. -/
theorem zfsReceive_onto {dest : Drive} {rel : Rel} {d e : Dest} (cloneFrom : Option SnapName)
    {stream : Stream} (hd : dest.get? rel = some d) (htoken : d.token = "")
    (hwritten : d.written = 0) (hsome : stream.source.isSome = true)
    (hsource : stream.source = d.newest.map Ref.guid) (he : d.receive stream.refs = some e) :
    zfsReceive dest rel cloneFrom stream = some (dest.set e) := by
  simp only [zfsReceive, hd]
  rw [if_pos ⟨hsome, hsource, htoken, hwritten⟩, he, Option.map_some]

theorem zfsReceive_absent {dest : Drive} {rel : Rel} {cloneFrom : Option SnapName}
    {stream : Stream} {last : Ref} (hnone : dest.get? rel = none) (hparent : parent rel ∈ dest.keys)
    (hfits : match cloneFrom with
      | none => stream.source = none
      | some copy => ∃ guid, stream.source = some guid ∧ heldGuid dest copy = some guid)
    (hnodup : (stream.refs.map Ref.name).Nodup) (hlast : stream.refs.getLast? = some last) :
    ∃ e after, zfsReceive dest rel cloneFrom stream = some after ∧
      (∀ x, x ∈ after ↔ x ∈ dest ∨ x = e) ∧ e.rel = rel ∧
      e.token = "" ∧ e.written = 0 ∧ e.newest.map Ref.guid = some last.guid := by
  obtain ⟨e, he, hrel, htoken, hwritten, -, hnewest, -⟩ :=
    @receive_spec { rel, cloneOf := cloneFrom } _ _ (fun s _ => List.not_mem_nil) hnodup hlast
  have hfree : e.rel ∉ dest.keys := hrel ▸ Keyed.get?_eq_none_iff.mp hnone
  obtain ⟨after, hafter⟩ := Option.isSome_iff_exists.mp (Keyed.push?_isSome_iff.mpr hfree)
  refine ⟨e, after, ?_, fun x => Keyed.mem_push? hafter, hrel, htoken, hwritten, hnewest⟩
  cases cloneFrom with
  | none => simp [zfsReceive, hnone, hparent, show stream.source = none from hfits, he, hafter]
  | some copy =>
      obtain ⟨guid, hsource, hheld⟩ := hfits
      simp [zfsReceive, hnone, hparent, hsource, hheld, he, hafter]

theorem get?_set_receive {dest : Drive} {d e : Dest} (hd : d ∈ dest) (hrel : e.rel = d.rel) :
    (dest.set e).get? d.rel = some e := by
  rw [← hrel]
  exact Keyed.get?_set_self (hrel ▸ Keyed.key_mem_keys hd)

/-! ### What a send carries -/

section Sends

variable {o : Origin}

/-- Origin's snapshots in the order they were taken. -/
def Ordered (o : Origin) : Prop := o.snaps.items.Pairwise fun s t => s.createtxg < t.createtxg

instance (o : Origin) : Decidable (Ordered o) := inferInstanceAs (Decidable (List.Pairwise _ _))

theorem createtxg_lt_last {s last : Ref} (h : Ordered o)
    (hlast : o.snaps.items.getLast? = some last) (hs : s ∈ o.snaps) (hne : s.name ≠ last.name) :
    s.createtxg < last.createtxg := by
  obtain ⟨init, hinit⟩ := List.getLast?_eq_some_iff.mp hlast
  rw [Ordered, hinit, List.pairwise_append] at h
  have hmem : s ∈ init ++ [last] := hinit ▸ hs
  rcases List.mem_append.mp hmem with hs | hs
  · exact h.2.2 s hs last (List.mem_singleton_self _)
  · exact absurd (congrArg Ref.name (List.mem_singleton.mp hs)) hne

theorem createtxg_le_last {s last : Ref} (h : Ordered o)
    (hlast : o.snaps.items.getLast? = some last) (hs : s ∈ o.snaps) :
    s.createtxg ≤ last.createtxg := by
  by_cases hname : s.name = last.name
  · have hmem : last ∈ o.snaps := List.mem_of_getLast? hlast
    rw [Keyed.eq_of_key hs hmem hname]
  · exact (createtxg_lt_last h hlast hs hname).le

theorem getLast?_filter_of_last {α : Type*} {p : α → Bool} {l : List α} {last : α}
    (hlast : l.getLast? = some last) (hp : p last = true) : (l.filter p).getLast? = some last := by
  obtain ⟨init, rfl⟩ := List.getLast?_eq_some_iff.mp hlast
  rw [List.filter_append, List.filter_cons_of_pos hp]
  simp

/-- From one snapshot to the newest: what comes after the first, ending with the newest. -/
theorem zfsSend_fromSnapshot {origin : Origins} (raw : Bool) {s last : Ref}
    (ho : origin.get? o.rel = some o) (h : Ordered o) (hs : s ∈ o.snaps)
    (hlast : o.snaps.items.getLast? = some last) (hne : s.name ≠ last.name) :
    ∃ refs, zfsSend origin (.fromSnapshot raw (o.rel, s.name) o.rel last.name)
      = some ⟨some s.guid, refs⟩ ∧
      refs.getLast? = some last ∧ (refs.map Ref.name).Nodup ∧ ∀ x ∈ refs, x ∈ o.snaps ∧
      s.createtxg < x.createtxg := by
  have hlt := createtxg_lt_last h hlast hs hne
  have hmem : last ∈ o.snaps := List.mem_of_getLast? hlast
  refine ⟨o.snaps.items.filter fun x => s.createtxg < x.createtxg && x.createtxg ≤ last.createtxg,
    ?_, ?_, ?_, ?_⟩
  · simp [zfsSend, snapshot?, ho, Keyed.get?_of_mem hs, Keyed.get?_of_mem hmem, hlt]
  · exact getLast?_filter_of_last hlast (by simpa using hlt)
  · exact o.snaps.nodup.sublist (List.filter_sublist.map _)
  · intro x hx
    obtain ⟨hx, hcond⟩ := List.mem_filter.mp hx
    rw [Bool.and_eq_true, decide_eq_true_eq] at hcond
    exact ⟨hx, hcond.1⟩

/-- Everything up to the newest of a clone, from the snapshot it is a clone of. -/
theorem zfsSend_clone {origin : Origins} (raw : Bool) {source : SnapName} {s last : Ref}
    (ho : origin.get? o.rel = some o) (h : Ordered o) (hsource : snapshot? origin source = some s)
    (hne : source.1 ≠ o.rel) (hclone : o.cloneOf = some source)
    (hlast : o.snaps.items.getLast? = some last) :
    zfsSend origin (.fromSnapshot raw source o.rel last.name)
      = some ⟨some s.guid, o.snaps.items⟩ := by
  have hmem : last ∈ o.snaps := List.mem_of_getLast? hlast
  have hall : o.snaps.items.filter (·.createtxg ≤ last.createtxg) = o.snaps.items :=
    List.filter_eq_self.mpr fun x hx => by simpa using createtxg_le_last h hlast hx
  simp [zfsSend, ho, hsource, Keyed.get?_of_mem hmem, hne, hclone, hall]

end Sends

theorem snapByGuid_eq_some {o : Origin} {guid : String} {s : Ref} (h : o.snapByGuid guid = some s) :
    s ∈ o.snaps ∧ s.guid = guid :=
  ⟨List.mem_of_find?_eq_some h, by simpa using List.find?_some h⟩

theorem bookmarkByGuid_eq_some {o : Origin} {guid : String} {b : Ref}
    (h : o.bookmarkByGuid guid = some b) :
    b ∈ o.bookmarks ∧ b.guid = guid :=
  ⟨List.mem_of_find?_eq_some h, by simpa using List.find?_some h⟩

theorem viaBookmark_eq_some {o : Origin} {guid : String} {bm first : Ref}
    (h : viaBookmark o guid = some (bm, first)) :
    bm ∈ o.bookmarks ∧ bm.guid = guid ∧ first ∈ o.snaps ∧ bm.createtxg < first.createtxg := by
  unfold viaBookmark at h
  split at h
  · cases h
  obtain ⟨found, hbm, hfirst⟩ := Option.bind_eq_some_iff.mp h
  obtain ⟨next, hnext, heq⟩ := Option.map_eq_some_iff.mp hfirst
  cases heq
  exact ⟨(bookmarkByGuid_eq_some hbm).1, (bookmarkByGuid_eq_some hbm).2,
    List.mem_of_find?_eq_some hnext, by simpa using List.find?_some hnext⟩

/-- Snapshots of one dataset with one guid are one. -/
def UniqueGuids (o : Origin) : Prop := ∀ s ∈ o.snaps, ∀ t ∈ o.snaps, s.guid = t.guid → s = t

instance (o : Origin) : Decidable (UniqueGuids o) :=
  inferInstanceAs (Decidable (∀ s ∈ o.snaps, ∀ t ∈ o.snaps, _ → _))

theorem snapByGuid_of_mem {o : Origin} (h : UniqueGuids o) {s : Ref} (hs : s ∈ o.snaps) :
    o.snapByGuid s.guid = some s := by
  cases hfind : o.snapByGuid s.guid with
  | none =>
      have := List.find?_eq_none.mp hfind s hs
      simp at this
  | some t =>
      obtain ⟨ht, hguid⟩ := snapByGuid_eq_some hfind
      rw [h t ht s hs hguid]

/-! ### Each kind of transfer -/

section Transfers

variable {origin : Origins} {dest : Drive} {point : String} {o : Origin} {last : Ref}

/-- What a transfer owes: it is accepted, its sends start before they end, nothing goes from the
drive, and the dataset is at the point. -/
def Reaches (origin : Origins) (dest : Drive) (point : String) (o : Origin) (p : DatasetPlan) :
    Prop :=
  ∃ after, transfer origin dest point p = some after ∧
    (∀ send ∈ sendArgs origin dest point p false, send.SourceBefore origin) ∧
    (∀ d ∈ dest, ∃ e ∈ after, e.rel = d.rel ∧ ∀ s ∈ d.snaps, s ∈ e.snaps) ∧
      (planDataset o ((liveDatasets after).get? o.rel) point).state = .atPoint

theorem atPoint_of_newest (hguids : UniqueGuids o)
    (hlast : o.snaps.items.getLast? = some last) {e : Dest} (htoken : e.token = "")
    (hwritten : e.written = 0) (hnewest : e.newest.map Ref.guid = some last.guid) :
    (planDataset o (some e) last.name).state = .atPoint := by
  obtain ⟨newest, hnewest, hguid⟩ := Option.map_eq_some_iff.mp hnewest
  have hown : o.snapByGuid newest.guid = some last :=
    hguid ▸ snapByGuid_of_mem hguids (List.mem_of_getLast? hlast)
  rw [planDataset_of_unwritten hwritten]
  simp [planUnwritten, htoken, hnewest, hown]

theorem kept_of_set {d e : Dest} (hd : d ∈ dest) (hrel : e.rel = d.rel)
    (hsnaps : ∀ s ∈ d.snaps, s ∈ e.snaps) :
    ∀ x ∈ dest, ∃ y ∈ dest.set e, y.rel = x.rel ∧ ∀ s ∈ x.snaps, s ∈ y.snaps := by
  intro x hx
  by_cases hsame : x.rel = d.rel
  · refine ⟨e, Keyed.mem_set.mpr (.inr ⟨rfl, hrel ▸ Keyed.key_mem_keys hd⟩),
      hrel.trans hsame.symm, ?_⟩
    rw [Keyed.eq_of_key hx hd hsame]
    exact hsnaps
  · exact ⟨x, Keyed.mem_set.mpr (.inl ⟨hx, hrel ▸ hsame⟩), rfl, fun s hs => hs⟩

variable (ho : origin.get? o.rel = some o) (hordered : Ordered o) (hguids : UniqueGuids o)
  (hlast : o.snaps.items.getLast? = some last) (hlive : isArchived o.rel = false)

include ho hordered hguids hlast hlive

/-- An incremental brings the drive's dataset from its newest snapshot to the point. -/
theorem reaches_incremental {p : DatasetPlan} (hp : p.rel = o.rel) (hstate : p.state = .incremental)
    {d : Dest} {newest own : Ref} (hd : dest.get? o.rel = some d) (htoken : d.token = "")
    (hwritten : d.written = 0) (hnewest : d.newest = some newest)
    (hown : o.snapByGuid newest.guid = some own) (hname : own.name ≠ last.name)
    (hbase : p.base = .snapshot own.name)
    (hfresh : ∀ send ∈ sendArgs origin dest last.name p false, ∀ stream,
      zfsSend origin send = some stream →
      ∀ s ∈ stream.refs, ∀ d, dest.get? p.rel = some d → s.name ∉ d.snaps.keys) :
    Reaches origin dest last.name o p := by
  obtain ⟨howned, hguid⟩ := snapByGuid_eq_some hown
  have hsends : sendArgs origin dest last.name p false
      = [.fromSnapshot (!isBpool o.rel) (o.rel, own.name) o.rel last.name] := by
    simp [sendArgs, hstate, hbase, hp]
  obtain ⟨refs, hsend, hend, hnodup, hrefs⟩ :=
    zfsSend_fromSnapshot (!isBpool o.rel) ho hordered howned hlast hname
  obtain ⟨e, he, hrel, hetoken, hewritten, hsnaps, henewest, -⟩ := receive_spec (d := d)
    (fun s hs => hfresh _ (hsends ▸ List.mem_singleton_self _) _ hsend s hs d (hp ▸ hd)) hnodup hend
  obtain ⟨hmem, hdrel⟩ := Keyed.get?_eq_some_iff.mp hd
  have hsource : some own.guid = d.newest.map Ref.guid := by rw [hnewest, Option.map_some, hguid]
  have hreceive : zfsReceive dest o.rel none ⟨some own.guid, refs⟩ = some (dest.set e) :=
    zfsReceive_onto none hd htoken hwritten rfl hsource he
  refine ⟨dest.set e, ?_, ?_, kept_of_set hmem hrel hsnaps, ?_⟩
  · rw [transfer, hsends]
    simp [hsend, hp, hstate, hreceive]
  · intro send hsend
    rw [hsends, List.mem_singleton] at hsend
    subst hsend
    exact ⟨o, own, last, ho, by rw [snapshot?, ho, Option.bind_some, Keyed.get?_of_mem howned],
      Keyed.get?_of_mem (List.mem_of_getLast? hlast),
      .inl ⟨rfl, createtxg_lt_last hordered hlast howned hname⟩⟩
  · rw [get?_liveDatasets hlive, ← hdrel, get?_set_receive hmem hrel]
    exact atPoint_of_newest hguids hlast (hetoken.trans htoken) (hewritten.trans hwritten) henewest

/-- A bookmark of the drive's newest snapshot brings it to the first one after, and that one to the
point. -/
theorem reaches_viaBookmark {p : DatasetPlan} (hp : p.rel = o.rel)
    (hstate : p.state = .viaBookmark) {d : Dest} {newest bm first : Ref}
    (hd : dest.get? o.rel = some d) (htoken : d.token = "") (hwritten : d.written = 0)
    (hnewest : d.newest = some newest) (hbm : bm ∈ o.bookmarks) (hguid : bm.guid = newest.guid)
    (hfirst : first ∈ o.snaps) (hlater : bm.createtxg < first.createtxg)
    (hbase : p.base = .bookmark bm.name) (hpfirst : p.first = some first.name)
    (hfresh : ∀ send ∈ sendArgs origin dest last.name p false, ∀ stream,
      zfsSend origin send = some stream →
      ∀ s ∈ stream.refs, ∀ d, dest.get? p.rel = some d → s.name ∉ d.snaps.keys) :
    Reaches origin dest last.name o p := by
  obtain ⟨hmem, hdrel⟩ := Keyed.get?_eq_some_iff.mp hd
  have hsends : sendArgs origin dest last.name p false
      = sendsFromBookmark o.rel bm.name first.name last.name := by
    simp [sendArgs, hstate, hbase, hpfirst, hp]
  have hsend₁ : zfsSend origin (.fromBookmark o.rel bm.name first.name)
      = some ⟨some bm.guid, [first]⟩ := by
    simp [zfsSend, ho, Keyed.get?_of_mem hbm, Keyed.get?_of_mem hfirst, hlater]
  have hbefore₁ : (Send.fromBookmark o.rel bm.name first.name).SourceBefore origin :=
    ⟨o, bm, first, ho, Keyed.get?_of_mem hbm, Keyed.get?_of_mem hfirst, hlater⟩
  have hfresh₁ : ∀ s ∈ [first], s.name ∉ d.snaps.keys := fun s hs =>
    hfresh (.fromBookmark o.rel bm.name first.name) (by rw [hsends]; exact List.mem_cons_self) _
      hsend₁ s hs d (hp ▸ hd)
  obtain ⟨e, he, hrel, hetoken, hewritten, hsnaps, henewest, hekeys⟩ :=
    receive_spec hfresh₁ (List.nodup_singleton _) rfl
  have hsource : some bm.guid = d.newest.map Ref.guid := by rw [hnewest, Option.map_some, hguid]
  have hreceive₁ : zfsReceive dest o.rel none ⟨some bm.guid, [first]⟩ = some (dest.set e) :=
    zfsReceive_onto none hd htoken hwritten rfl hsource he
  have hmid := get?_set_receive hmem hrel
  rw [hdrel] at hmid
  by_cases hname : first.name = last.name
  · -- The first snapshot after the bookmark is the point itself.
    obtain rfl : first = last := Keyed.eq_of_key hfirst (List.mem_of_getLast? hlast) hname
    refine ⟨dest.set e, ?_, ?_, kept_of_set hmem hrel hsnaps, ?_⟩
    · rw [transfer, hsends, sendsFromBookmark, if_pos rfl]
      simp [hsend₁, hp, hstate, hreceive₁]
    · intro send hsend
      rw [hsends, sendsFromBookmark, if_pos rfl, List.mem_singleton] at hsend
      exact hsend ▸ hbefore₁
    · rw [get?_liveDatasets hlive, hmid]
      exact atPoint_of_newest hguids hlast (hetoken.trans htoken)
        (hewritten.trans hwritten) henewest
  · obtain ⟨refs, hsend₂, hend, hnodup, hrefs⟩ :=
      zfsSend_fromSnapshot true ho hordered hfirst hlast hname
    have hfresh₂ : ∀ s ∈ refs, s.name ∉ e.snaps.keys := by
      intro s hs
      rw [hekeys, List.mem_append, not_or]
      constructor
      · exact hfresh (.fromSnapshot true (o.rel, first.name) o.rel last.name)
          (by rw [hsends, sendsFromBookmark, if_neg hname]; simp) _ hsend₂ s hs d (hp ▸ hd)
      · rw [List.map_singleton, List.mem_singleton]
        intro hsame
        have heq := Keyed.eq_of_key (hrefs s hs).1 hfirst hsame
        exact absurd (hrefs s hs).2 (heq ▸ lt_irrefl _)
    obtain ⟨e₂, he₂, hrel₂, hetoken₂, hewritten₂, hsnaps₂, henewest₂, -⟩ :=
      receive_spec hfresh₂ hnodup hend
    have hemem : e ∈ dest.set e := Keyed.mem_of_get? hmid
    have hreceive₂ : zfsReceive (dest.set e) o.rel none ⟨some first.guid, refs⟩
        = some ((dest.set e).set e₂) :=
      zfsReceive_onto none hmid (hetoken.trans htoken) (hewritten.trans hwritten) rfl
        henewest.symm he₂
    refine ⟨(dest.set e).set e₂, ?_, ?_, ?_, ?_⟩
    · rw [transfer, hsends, sendsFromBookmark, if_neg hname]
      simp [hsend₁, hsend₂, hp, hstate, hreceive₁, hreceive₂]
    · intro send hsend
      rw [hsends, sendsFromBookmark, if_neg hname] at hsend
      rcases List.mem_cons.mp hsend with rfl | hsend
      · exact hbefore₁
      · rw [List.mem_singleton.mp hsend]
        exact ⟨o, first, last,
          ho, by rw [snapshot?, ho, Option.bind_some, Keyed.get?_of_mem hfirst], Keyed.get?_of_mem
            (List.mem_of_getLast? hlast), .inl ⟨rfl, createtxg_lt_last hordered hlast hfirst hname⟩⟩
    · intro x hx
      obtain ⟨y, hy, hyrel, hysnaps⟩ := kept_of_set hmem hrel hsnaps x hx
      obtain ⟨z, hz, hzrel, hzsnaps⟩ := kept_of_set hemem hrel₂ hsnaps₂ y hy
      exact ⟨z, hz, hzrel.trans hyrel, fun s hs => hzsnaps s (hysnaps s hs)⟩
    · have hfinal := get?_set_receive hemem hrel₂
      rw [hrel, hdrel] at hfinal
      rw [get?_liveDatasets hlive, hfinal]
      exact atPoint_of_newest hguids hlast (hetoken₂.trans (hetoken.trans htoken))
        (hewritten₂.trans (hewritten.trans hwritten)) henewest₂

omit ho hordered in
theorem reaches_new {p : DatasetPlan} {send : Send} {stream : Stream} (hp : p.rel = o.rel)
    (hstate : p.state = .new) (hsends : sendArgs origin dest last.name p false = [send])
    (hbefore : send.SourceBefore origin) (hsend : zfsSend origin send = some stream)
    (hnone : dest.get? o.rel = none) (hparent : parent o.rel ∈ dest.keys)
    (hfits : match p.cloneFrom with
      | none => stream.source = none
      | some copy => ∃ guid, stream.source = some guid ∧ heldGuid dest copy = some guid)
    (hnodup : (stream.refs.map Ref.name).Nodup) (hend : stream.refs.getLast? = some last) :
        Reaches origin dest last.name o p := by
  obtain ⟨e, after, hafter, hmem, hrel, htoken, hwritten, hnewest⟩ :=
    zfsReceive_absent hnone hparent hfits hnodup hend
  refine ⟨after, ?_, ?_, ?_, ?_⟩
  · rw [transfer, hsends]
    simp [hsend, hp, hstate, hafter]
  · intro other hother
    rw [hsends, List.mem_singleton] at hother
    exact hother ▸ hbefore
  · intro d hd
    exact ⟨d, (hmem d).mpr (.inl hd), rfl, fun s hs => hs⟩
  · rw [get?_liveDatasets hlive, Keyed.get?_eq_some_iff.mpr ⟨(hmem e).mpr (.inr rfl), hrel⟩]
    exact atPoint_of_newest hguids hlast htoken hwritten hnewest

end Transfers

/-- What a new clone is sent from: the snapshot it is a clone of, held by the drive under its own
name there. -/
theorem cloneBase_cases (p : DatasetPlan) (o : Origin) (origin : Origins) (live : Drive) :
    cloneBase p o origin live = p ∨
      ∃ source snap copy held, o.cloneOf = some source ∧ snapshot? origin source = some snap ∧
      live.get? source.1 = some held ∧
        copy ∈ held.snaps ∧ copy.guid = snap.guid ∧ (cloneBase p o origin live).rel = p.rel ∧
        (cloneBase p o origin live).state = p.state ∧
        (cloneBase p o origin live).base = .full source ∧
        (cloneBase p o origin live).cloneFrom = some (source.1, copy.name) := by
  unfold cloneBase
  dsimp only
  split
  · rename_i source copy h
    simp only [Option.bind_eq_some_iff, Option.map_eq_some_iff, Prod.mk.injEq] at h
    obtain ⟨source', hclone, parentO, hparent, held, hheld, snap, hsnap, copy', hcopy, rfl, rfl⟩ :=
      h
    refine .inr ⟨source', snap, copy', held, hclone, ?_, hheld, List.mem_of_find?_eq_some hcopy, ?_,
      rfl, rfl, rfl, rfl⟩
    · rw [snapshot?, hparent, Option.bind_some, hsnap]
    · simpa using List.find?_some hcopy
  · exact .inl rfl

theorem planExpected_rel (o : Origin) (origin : Origins) (live : Drive) (point : String) :
    (planExpected o origin live point).rel = o.rel := by
  have hplain := planDataset_rel o (live.get? o.rel) point
  unfold planExpected
  dsimp only
  split
  · rcases cloneBase_cases (planDataset o (live.get? o.rel) point) o origin live with
      h | ⟨-, -, -, -, -, -, -, -, -, hrel, -⟩
    · rw [h, hplain]
    · rw [hrel, hplain]
  · exact hplain

theorem cloneBase_state (p : DatasetPlan) (o : Origin) (origin : Origins) (live : Drive) :
    (cloneBase p o origin live).state = p.state := by
  rcases cloneBase_cases p o origin live with h | ⟨-, -, -, -, -, -, -, -, -, -, hstate, -⟩
  · rw [h]
  · exact hstate

/-- No snapshot of the plan's streams has a name the drive's dataset has. -/
def FreshNames (origin : Origins) (dest : Drive) (point : String) (p : DatasetPlan) : Prop :=
  ∀ send ∈ sendArgs origin dest point p false,
    ∀ s ∈ ((zfsSend origin send).map Stream.refs).getD [],
    s.name ∉ ((dest.get? p.rel).map fun d => d.snaps.keys).getD []

instance (origin : Origins) (dest : Drive) (point : String) (p : DatasetPlan) :
    Decidable (FreshNames origin dest point p) :=
  inferInstanceAs (Decidable (∀ send ∈ _, ∀ s ∈ _, _))

/-- Every plan to transfer without a question is accepted and reaches the point, taking nothing from
the drive. -/
theorem plan_reaches {origin : Origins} {dest : Drive} {point : String} {skip : List Rel}
    {p : DatasetPlan} (hordered : ∀ o ∈ origin, Ordered o) (hguids : ∀ o ∈ origin, UniqueGuids o)
    (hpoint : ∀ o ∈ origin, isExpected o skip = true →
      o.snaps.items.getLast?.map Ref.name = some point)
    (hp : p ∈ plan origin dest point skip)
    (hstate : p.state = .new ∨ p.state = .incremental ∨ p.state = .viaBookmark)
    (hnames : FreshNames origin dest point p)
    (hparent : p.state = .new → parent p.rel ∈ dest.keys) :
    ∃ o, origin.get? p.rel = some o ∧ Reaches origin dest point o p := by
  obtain ⟨o, ho, hexpected, hplan⟩ :=
    mem_plan_expected hp (by rcases hstate with h | h | h <;> simp [h])
      (by rcases hstate with h | h | h <;> simp [h])
  have hmem := Keyed.mem_of_get? ho
  have hlive := isArchived_of_isExpected hexpected
  have hordered' := hordered o hmem
  have hguids' := hguids o hmem
  obtain ⟨last, hlast, rfl⟩ := Option.map_eq_some_iff.mp (hpoint o hmem hexpected)
  have hfresh : ∀ send ∈ sendArgs origin dest last.name p false, ∀ stream,
      zfsSend origin send = some stream →
      ∀ s ∈ stream.refs, ∀ d, dest.get? p.rel = some d → s.name ∉ d.snaps.keys := by
    intro send hsend stream hstream s hs d hd
    have := hnames send hsend s (by rwa [hstream])
    rwa [hd] at this
  have hget : (liveDatasets dest).get? o.rel = dest.get? o.rel := get?_liveDatasets hlive
  by_cases hnew : (planDataset o (dest.get? o.rel) last.name).state = .new
  · have hnone : dest.get? o.rel = none := by
      cases hd : dest.get? o.rel with
      | none => rfl
      | some d => exact absurd (hd ▸ hnew) (planDataset_ne_new d)
    have hrow : p = cloneBase { rel := o.rel, state := .new } o origin (liveDatasets dest) := by
      rw [hplan, planExpected, hget, hnone]
      rfl
    have hlastMem : last ∈ o.snaps := List.mem_of_getLast? hlast
    rcases cloneBase_cases { rel := o.rel, state := .new } o origin (liveDatasets dest) with
      hplain | ⟨source, snap, copy, held, hclone, hsnap, hheld, hcopy, hguid, hrel,
        hkind, hbase, hfrom⟩
    · rw [hplain] at hrow
      subst hrow
      have hsend : zfsSend origin (.full (!isBpool o.rel) o.rel last.name)
          = some ⟨none, [last]⟩ := by
        simp [zfsSend, snapshot?, ho, Keyed.get?_of_mem hlastMem]
      have hsends : sendArgs origin dest last.name { rel := o.rel, state := .new } false =
          [.full (!isBpool o.rel) o.rel last.name] := by
        simp [sendArgs]
      exact ⟨o, ho, reaches_new hguids' hlast hlive rfl rfl hsends trivial hsend hnone
        (hparent rfl) rfl
        (List.nodup_singleton _) rfl⟩
    · rw [← hrow] at hrel hkind hbase hfrom
      have hrel : p.rel = o.rel := hrel
      -- A dataset the drive lacks is no clone of a snapshot of its own that the drive holds.
      have hne : source.1 ≠ o.rel := by
        intro heq
        rw [heq, hget, hnone] at hheld
        cases hheld
      have hsend := zfsSend_clone (!isBpool o.rel) ho hordered' hsnap hne hclone hlast
      have hsends : sendArgs origin dest last.name p false
          = [.fromSnapshot (!isBpool o.rel) source o.rel last.name] := by
        simp [sendArgs, hkind, hbase, hfrom, hrel]
      refine ⟨o, hrel ▸ ho, reaches_new hguids' hlast hlive hrel hkind hsends ?_ hsend hnone
        (hrel ▸ hparent hkind) ?_ o.snaps.nodup hlast⟩
      · exact ⟨o, snap, last, ho, hsnap, Keyed.get?_of_mem hlastMem, .inr ⟨hne, hclone⟩⟩
      · rw [hfrom]
        refine ⟨snap.guid, rfl, ?_⟩
        rw [heldGuid, get?_of_liveDatasets hheld, Option.bind_some, Keyed.get?_of_mem hcopy,
          Option.map_some, hguid]
  · have hrow : p = planDataset o (dest.get? o.rel) last.name := by
      rw [hplan, planExpected, hget]
      exact if_neg (by simpa using hnew)
    have hincremental : (planDataset o (dest.get? o.rel) last.name).state.isIncremental = true := by
      rw [hrow] at hstate
      rcases hstate with h | h | h
      · exact absurd h hnew
      · rw [h]
        rfl
      · rw [h]
        rfl
    obtain ⟨d, hd, hwritten, hunwritten⟩ := exists_held_of_isIncremental hincremental
    rw [hunwritten] at hrow hincremental
    have hspec := planUnwritten_spec o d last.name
    rw [← hrow] at hspec hincremental
    cases hspec with
    | incremental htoken hnewest hown hname =>
        exact ⟨o, ho, reaches_incremental ho hordered' hguids' hlast hlive rfl rfl hd htoken
          hwritten hnewest hown hname rfl hfresh⟩
    | viaBookmark htoken hnewest hgone hvia =>
        obtain ⟨hbmem, hbguid, hfirst, hlater⟩ := viaBookmark_eq_some hvia
        exact ⟨o, ho, reaches_viaBookmark ho hordered' hguids' hlast hlive rfl rfl hd htoken
          hwritten hnewest hbmem hbguid
          hfirst hlater rfl rfl hfresh⟩
    | _ => cases hincremental

/-- The drive's newest snapshot is gone from origin, where a bookmark of it and two later snapshots
are left. -/
def bookmarkedOrigin : Origins where
  items :=
    [{ rel := ["rpool", "home"]
       snaps :=
         ⟨[⟨"autosnap_daily", "2", 20, 2000⟩,
           ⟨"zark_2026-01-02_00:00:00Z", "3", 30, 3000⟩], by decide⟩
       bookmarks := ⟨[⟨"zark_77_2026-01-01_00:00:00Z", "1", 10, 1000⟩], by decide⟩ }]
  nodup := by decide

def bookmarkedDrive : Drive where
  items :=
    [{ rel := ["rpool", "home"],
       snaps := ⟨[⟨"zark_2026-01-01_00:00:00Z", "1", 5, 1000⟩], by decide⟩ }]
  nodup := by decide

def bookmarkedPlan : DatasetPlan where
  rel := ["rpool", "home"]
  state := .viaBookmark
  base := .bookmark "zark_77_2026-01-01_00:00:00Z"
  first := some "autosnap_daily"

theorem plan_reaches_bookmarked :
    ∃ o, bookmarkedOrigin.get? bookmarkedPlan.rel = some o ∧
      Reaches bookmarkedOrigin bookmarkedDrive "zark_2026-01-02_00:00:00Z" o bookmarkedPlan :=
  @plan_reaches _ _ _ [] _ (by decide) (by decide) (by decide) (by decide) (.inr (.inr rfl))
    (by decide) (by decide)

end Zark
