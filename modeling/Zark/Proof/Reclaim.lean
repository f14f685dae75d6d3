import Zark.Library.Text
import Zark.Reclaim

/-!
# Every target is accounted for

Between the commands a target is destroyed and counted, or left for a command of its own, or still
waits in a group. Each command moves what it names from one of these to another, and a command of
several that fails moves all its names to the second.
-/

namespace Zark.Reclaim

/-! ### Names and what a command is about -/

theorem isNameChar_ne {c d : Char} (hc : isNameChar c = true) (hd : isNameChar d = false) :
    c ≠ d := by
  rintro rfl
  rw [hc] at hd
  cases hd

theorem partition_append {sep : Char} {ds : String} (h : sep ∉ ds.toList) (rest : String) :
    partition sep (ds ++ String.singleton sep ++ rest) = some (ds, rest) := by
  have htake : ∀ c ∈ ds.toList, decide (c ≠ sep) = true :=
    fun c hc => decide_eq_true fun heq => h (heq ▸ hc)
  have htext : (ds ++ String.singleton sep ++ rest).toList = ds.toList ++ sep :: rest.toList := by
    simp
  rw [partition, htext, if_pos (by simp), List.takeWhile_append_of_pos htake,
    List.dropWhile_append_of_pos htake, List.takeWhile_cons_of_neg (by simp),
    List.dropWhile_cons_of_neg (by simp), List.append_nil, List.tail_cons, String.ofList_toList,
    String.ofList_toList]

theorem partition_eq_none {sep : Char} {text : String} (h : sep ∉ text.toList) :
    partition sep text = none := if_neg h

theorem of_partition {sep : Char} {text ds rest : String}
    (h : partition sep text = some (ds, rest)) :
    sep ∉ ds.toList ∧ text = ds ++ String.singleton sep ++ rest := by
  by_cases hmem : sep ∈ text.toList
  · obtain ⟨before, after, htext, hbefore⟩ := List.eq_append_cons_of_mem hmem
    have hbefore : sep ∉ (String.ofList before).toList := by rwa [String.toList_ofList]
    have hcut : text = String.ofList before ++ String.singleton sep ++ String.ofList after := by
      apply String.toList_injective
      rw [htext]
      simp
    rw [hcut, partition_append hbefore] at h
    obtain ⟨rfl, rfl⟩ := Prod.mk.inj (Option.some.inj h)
    exact ⟨hbefore, hcut⟩
  · rw [partition_eq_none hmem] at h
    cases h

/-- A name between commas. -/
def Whole (name : String) : Prop := ',' ∉ name.toList

theorem namesOf_intercalate {ds : String} (hds : '@' ∉ ds.toList) {names : List String}
    (hnames : ∀ name ∈ names, Whole name) (hne : names ≠ []) :
    namesOf (ds ++ "@" ++ ",".intercalate names) = names.map fun name => ds ++ "@" ++ name := by
  have hsplit : (",".intercalate names).toList.splitOn ',' = names.map String.toList := by
    rw [String.toList_intercalate]
    refine List.splitOn_intercalate ',' (fun l hl => ?_) (by simpa using hne)
    obtain ⟨name, hname, rfl⟩ := List.mem_map.mp hl
    exact hnames name hname
  have hcut : partition '@' (ds ++ "@" ++ ",".intercalate names)
      = some (ds, ",".intercalate names) := partition_append hds _
  simp only [namesOf, hcut, hsplit, List.map_map]
  exact List.map_congr_left fun name _ => by simp

/-- A target's own command is about it alone. -/
theorem namesOf_target {t : String} (h : IsTarget t) : namesOf t = [t] := by
  obtain ⟨ds, name, hds, hname, rfl | rfl⟩ := h
  · have hat : '@' ∉ ds.toList :=
      fun hmem => (hds _ hmem).elim (fun h => isNameChar_ne h (by decide) rfl) (by decide)
    have hcomma : Whole name := fun hmem => isNameChar_ne (hname _ hmem) (by decide) rfl
    have hone := @namesOf_intercalate _ hat [name] (by simpa using hcomma) (by simp)
    simpa using hone
  · have hat : '@' ∉ (ds ++ "#" ++ name).toList := by
      intro hmem
      simp only [String.toList_append, List.mem_append] at hmem
      obtain (hmem | hmem) | hmem := hmem
      · exact (hds _ hmem).elim (fun h => isNameChar_ne h (by decide) rfl) (by decide)
      · revert hmem
        decide
      · exact isNameChar_ne (hname _ hmem) (by decide) rfl
    rw [namesOf, partition_eq_none hat]

theorem whole_of_partition {t ds name : String} (h : IsTarget t)
    (hcut : partition '@' t = some (ds, name)) : Whole name := by
  obtain ⟨-, ht⟩ := of_partition hcut
  obtain ⟨ds', name', hds', hname', heq⟩ := h
  have hcomma : ',' ∉ t.toList := by
    intro hmem
    obtain rfl | rfl := heq
    all_goals
      simp only [String.toList_append, List.mem_append] at hmem
      obtain (hmem | hmem) | hmem := hmem
      · exact (hds' _ hmem).elim (fun h => isNameChar_ne h (by decide) rfl) (by decide)
      · exact absurd hmem (by simp)
      · exact isNameChar_ne (hname' _ hmem) (by decide) rfl
  intro hmem
  refine hcomma ?_
  rw [ht]
  simp [hmem]

/-! ### Sorting the targets -/

/-- The snapshots waiting in the groups, then the names that go alone. -/
def waiting (sorted : List (String × List String) × List String) : List String :=
  (List.ungroup sorted.1).map (fun s => s.1 ++ "@" ++ s.2) ++ sorted.2

theorem waiting_sortTarget (sorted : List (String × List String) × List String) (target : String) :
    (waiting (sortTarget sorted target)).Perm (target :: waiting sorted) := by
  have halone : (waiting (sorted.1, sorted.2 ++ [target])).Perm (target :: waiting sorted) := by
    rw [waiting, waiting, ← List.append_assoc]
    exact List.perm_append_singleton _ _
  rw [sortTarget]
  split
  · rename_i ds name hcut
    split
    · exact halone
    · rw [waiting, waiting, (of_partition hcut).2]
      exact ((List.ungroup_putInGroup ds name sorted.1).map _).append_right sorted.2
  · exact halone

theorem waiting_sorted (targets : List String)
    (sorted : List (String × List String) × List String) :
    (waiting (targets.foldl sortTarget sorted)).Perm (targets ++ waiting sorted) := by
  induction targets generalizing sorted with
  | nil => exact List.Perm.refl _
  | cons target targets ih =>
      exact (ih _).trans (((waiting_sortTarget sorted target).append_left targets).trans
        List.perm_middle)

/-- The groups' datasets and names are cut from targets. -/
def CutFrom (targets : List String) (groups : List (String × List String)) : Prop :=
  ∀ group ∈ groups, ∀ name ∈ group.2, ∃ t ∈ targets, partition '@' t = some (group.1, name)

theorem cutFrom_putInGroup {targets : List String} {groups : List (String × List String)}
    {t ds name : String} (h : CutFrom targets groups) (ht : t ∈ targets)
    (hcut : partition '@' t = some (ds, name)) : CutFrom targets (groups.putInGroup ds name) := by
  induction groups with
  | nil =>
      intro group hgroup n hn
      obtain rfl := List.mem_singleton.mp hgroup
      obtain rfl := List.mem_singleton.mp hn
      exact ⟨t, ht, hcut⟩
  | cons first groups ih =>
      have hfirst := h first List.mem_cons_self
      have hrest : CutFrom targets groups :=
        fun group hgroup => h group (List.mem_cons_of_mem _ hgroup)
      intro group hgroup n hn
      rw [List.putInGroup] at hgroup
      split at hgroup
      · rename_i hkey
        obtain rfl | hgroup := List.mem_cons.mp hgroup
        · obtain hn | hn := List.mem_append.mp hn
          · exact hkey ▸ hfirst n hn
          · obtain rfl := List.mem_singleton.mp hn
            exact ⟨t, ht, hcut⟩
        · exact hrest group hgroup n hn
      · obtain rfl | hgroup := List.mem_cons.mp hgroup
        · exact hfirst n hn
        · exact ih hrest group hgroup n hn

theorem cutFrom_sorted {targets : List String} (rest : List String)
    (hrest : ∀ t ∈ rest, t ∈ targets) {sorted : List (String × List String) × List String}
    (h : CutFrom targets sorted.1) : CutFrom targets (rest.foldl sortTarget sorted).1 := by
  induction rest generalizing sorted with
  | nil => exact h
  | cons t rest ih =>
      refine ih (fun t ht => hrest t (List.mem_cons_of_mem _ ht)) ?_
      rw [sortTarget]
      split
      · rename_i ds name hcut
        split
        · exact h
        · exact cutFrom_putInGroup h (hrest t List.mem_cons_self) hcut
      · exact h

/-! ### The account of a run -/

section Account

variable {refused : String → Bool} {targets there gone pending rest l : List String}
  {o : Outcome (List String)}

/-- Where the targets are: gone from the drive and counted, left, or still pending. -/
structure Account (refused : String → Bool) (targets there gone pending : List String)
    (o : Outcome (List String)) : Prop where
  all : (gone ++ (o.left ++ pending)).Perm targets
  count : o.count = gone.length
  taken : ∀ t ∈ gone, refused t = false
  drive : ∀ n, n ∈ o.drive ↔ n ∈ there ∧ n ∉ gone

theorem Account.leave (h : Account refused targets there gone (l ++ rest) o) :
    Account refused targets there gone rest { o with left := o.left ++ l } where
  all := by
    rw [List.append_assoc]
    exact h.all
  count := h.count
  taken := h.taken
  drive := h.drive

theorem Account.present (h : Account refused targets there gone (l ++ rest) o)
    (hnodup : targets.Nodup) (hthere : ∀ t ∈ targets, t ∈ there) :
    ∀ t ∈ l, t ∈ o.drive := by
  intro t ht
  have hpending : t ∈ o.left ++ (l ++ rest) := List.mem_append_right _ (List.mem_append_left _ ht)
  refine (h.drive t).mpr ⟨hthere t (h.all.subset (List.mem_append_right _ hpending)),
    fun hgone => ?_⟩
  exact (List.nodup_append.mp (h.all.nodup_iff.mpr hnodup)).2.2 t hgone t hpending rfl

/-- A command takes all it is about, or one of them is refused and nothing changes. -/
theorem Account.command (h : Account refused targets there gone (l ++ rest) o)
    (hnodup : targets.Nodup) (hthere : ∀ t ∈ targets, t ∈ there) {arg : String}
    (harg : namesOf arg = l) (hne : l ≠ []) :
    zfsDestroy refused arg o.drive = (false, o.drive) ∧ (∃ t ∈ l, refused t = true) ∨
      ∃ drive, zfsDestroy refused arg o.drive = (true, drive) ∧
        Account refused targets there (gone ++ l) rest
          { o with count := o.count + l.length, drive := drive } := by
  have hnamed : (namesOf arg).filter (· ∈ o.drive) = l := by
    rw [harg, List.filter_eq_self]
    exact fun t ht => decide_eq_true (h.present hnodup hthere t ht)
  have hempty : l.isEmpty = false := by simpa using hne
  cases hany : l.any refused with
  | true =>
      refine .inl ⟨?_, List.any_eq_true.mp hany⟩
      simp only [zfsDestroy, hnamed, hany, Bool.or_true, if_true]
  | false =>
      refine .inr ⟨o.drive.filter (· ∉ l), ?_, ?_, ?_, ?_, ?_⟩
      · simp only [zfsDestroy, hnamed, hany, hempty, Bool.or_self, Bool.false_eq_true, if_false]
      · refine List.Perm.trans ?_ h.all
        rw [List.append_assoc]
        refine List.Perm.append_left _ ?_
        rw [← List.append_assoc, ← List.append_assoc]
        exact List.perm_append_comm.append_right rest
      · rw [List.length_append, ← h.count]
      · intro t ht
        obtain ht | ht := List.mem_append.mp ht
        · exact h.taken t ht
        · exact Bool.eq_false_iff.mpr
            fun hrefused => by simpa [hany] using List.any_eq_true.mpr ⟨t, ht, hrefused⟩
      · intro n
        simp only [List.mem_filter, decide_eq_true_eq, h.drive, List.mem_append, not_or, and_assoc]

variable (hnodup : targets.Nodup) (hthere : ∀ t ∈ targets, t ∈ there)

include hnodup hthere

theorem account_destroyChunk {ds : String} {chunk : List String}
    (hnames : ∀ name ∈ chunk, '@' ∉ ds.toList ∧ Whole name) (hne : chunk ≠ [])
    (h : Account refused targets there gone (chunk.map (fun name => ds ++ "@" ++ name) ++ rest) o) :
    ∃ gone', Account refused targets there gone' rest
      (destroyChunk (zfsDestroy refused) ds o chunk) := by
  simp only [destroyChunk]
  split
  · exact ⟨gone, h.leave⟩
  · obtain ⟨name, hname⟩ := List.exists_mem_of_ne_nil chunk hne
    have hnamed :=
      namesOf_intercalate (hnames name hname).1 (fun name hname => (hnames name hname).2) hne
    obtain ⟨hfail, -⟩ | ⟨drive, hok, haccount⟩ :=
      h.command hnodup hthere hnamed (by simpa using hne)
    · rw [hfail]
      exact ⟨gone, h.leave⟩
    · rw [hok]
      rw [List.length_map] at haccount
      exact ⟨_, haccount⟩

theorem account_destroyChunks {ds : String} (chunks : List (List String))
    (hchunks : ∀ chunk ∈ chunks, chunk ≠ [] ∧ ∀ name ∈ chunk, '@' ∉ ds.toList ∧ Whole name)
    (h : Account refused targets there gone
      (chunks.flatten.map (fun name => ds ++ "@" ++ name) ++ rest) o) :
    ∃ gone', Account refused targets there gone' rest
      (chunks.foldl (destroyChunk (zfsDestroy refused) ds) o) := by
  induction chunks generalizing o gone with
  | nil => exact ⟨gone, h⟩
  | cons chunk chunks ih =>
      obtain ⟨hne, hnames⟩ := hchunks chunk List.mem_cons_self
      rw [List.flatten_cons, List.map_append, List.append_assoc] at h
      obtain ⟨gone', h'⟩ := account_destroyChunk hnodup hthere hnames hne h
      exact ih (fun c hc => hchunks c (List.mem_cons_of_mem _ hc)) h'

theorem account_destroyGroup {group : String × List String}
    (hnames : ∀ name ∈ group.2, '@' ∉ group.1.toList ∧ Whole name)
    (h : Account refused targets there gone
      (group.2.map (fun name => group.1 ++ "@" ++ name) ++ rest) o) :
    ∃ gone', Account refused targets there gone' rest
      (destroyGroup (zfsDestroy refused) o group) := by
  have hsize : 0 < groupSize := by decide
  have hchunks : ∀ chunk ∈ group.2.cutInto groupSize, chunk ≠ [] ∧
      ∀ name ∈ chunk, '@' ∉ group.1.toList ∧ Whole name := fun chunk hchunk =>
    ⟨List.ne_nil_of_mem_cutInto hsize hchunk, fun name hname =>
      hnames name ((List.mem_cutInto hsize).mp ⟨chunk, hchunk, hname⟩)⟩
  rw [← List.flatten_cutInto hsize group.2] at h
  exact account_destroyChunks hnodup hthere _ hchunks h

theorem account_destroyGroups (groups : List (String × List String))
    (hgroups : ∀ group ∈ groups, ∀ name ∈ group.2, '@' ∉ group.1.toList ∧ Whole name)
    (h : Account refused targets there gone
      ((List.ungroup groups).map (fun s => s.1 ++ "@" ++ s.2) ++ rest) o) :
    ∃ gone', Account refused targets there gone' rest
      (groups.foldl (destroyGroup (zfsDestroy refused)) o) := by
  induction groups generalizing o gone with
  | nil => exact ⟨gone, h⟩
  | cons group groups ih =>
      rw [List.ungroup, List.flatMap_cons, List.map_append, List.map_map, List.append_assoc] at h
      obtain ⟨gone', h'⟩ := account_destroyGroup hnodup hthere (hgroups group List.mem_cons_self) h
      exact ih (fun g hg => hgroups g (List.mem_cons_of_mem _ hg)) h'

/-- One by one, what is refused is left and the rest goes. -/
theorem account_destroySingles (singles : List String) (hsingles : ∀ t ∈ singles, namesOf t = [t])
    (hleft : ∀ t ∈ o.left, refused t = true) (h : Account refused targets there gone singles o) :
    ∃ gone', Account refused targets there gone' []
      (singles.foldl (destroySingle (zfsDestroy refused)) o) ∧
      ∀ t ∈ (singles.foldl (destroySingle (zfsDestroy refused)) o).left, refused t = true := by
  induction singles generalizing o gone with
  | nil => exact ⟨gone, h, hleft⟩
  | cons t singles ih =>
      have hcons : Account refused targets there gone ([t] ++ singles) o := h
      have hrest : ∀ t ∈ singles, namesOf t = [t] :=
        fun s hs => hsingles s (List.mem_cons_of_mem _ hs)
      rw [List.foldl_cons, destroySingle]
      obtain ⟨hfail, hrefused⟩ | ⟨drive, hok, haccount⟩ :=
        hcons.command hnodup hthere (hsingles t List.mem_cons_self) (by simp)
      · rw [hfail]
        refine ih hrest (fun s hs => ?_) hcons.leave
        obtain hs | hs := List.mem_append.mp hs
        · exact hleft s hs
        · obtain rfl := List.mem_singleton.mp hs
          simpa using hrefused
      · rw [hok]
        exact ih hrest hleft haccount

end Account

/-- Every target goes or is reported, and nothing else goes. -/
theorem destroySnapshots_exact {targets there : List String} (refused : String → Bool)
    (htargets : ∀ t ∈ targets, IsTarget t) (hnodup : targets.Nodup)
    (hthere : ∀ t ∈ targets, t ∈ there) {o : Outcome (List String)}
    (ho : destroySnapshots (zfsDestroy refused) targets there = o) :
    (∀ n, n ∈ o.drive ↔ n ∈ there ∧ (n ∈ targets → refused n = true)) ∧
      o.left.Nodup ∧ (∀ t, t ∈ o.left ↔ t ∈ targets ∧ t ∈ o.drive) ∧
      o.count + o.left.length = targets.length := by
  set sorted := targets.foldl sortTarget ([], []) with hsorted
  have hperm : (waiting sorted).Perm targets := by
    simpa [waiting, List.ungroup] using waiting_sorted targets ([], [])
  have hcut : CutFrom targets sorted.1 :=
    @cutFrom_sorted targets targets (fun t ht => ht) ([], []) (fun group hgroup =>
      absurd hgroup List.not_mem_nil)
  have hgroups : ∀ group ∈ sorted.1, ∀ name ∈ group.2, '@' ∉ group.1.toList ∧ Whole name := by
    intro group hgroup name hname
    obtain ⟨t, ht, hpart⟩ := hcut group hgroup name hname
    exact ⟨(of_partition hpart).1, whole_of_partition (htargets t ht) hpart⟩
  -- Before the first command all wait: the snapshots in their groups, the rest for commands of
  -- their own.
  have hstart : Account refused targets there []
      ((List.ungroup sorted.1).map (fun s => s.1 ++ "@" ++ s.2) ++ []) ⟨0, sorted.2, there⟩ := by
    refine ⟨?_, rfl, by simp, by simp⟩
    rw [List.append_nil, List.nil_append]
    exact List.perm_append_comm.trans hperm
  obtain ⟨gone, hgrouped⟩ := account_destroyGroups hnodup hthere sorted.1 hgroups hstart
  set grouped := sorted.1.foldl (destroyGroup (zfsDestroy refused)) ⟨0, sorted.2, there⟩
  have hsingles : ∀ t ∈ grouped.left, namesOf t = [t] := fun t ht =>
    namesOf_target
      (htargets t (hgrouped.all.subset (List.mem_append_right _ (List.mem_append_left _ ht))))
  have hleft : Account refused targets there gone grouped.left ⟨grouped.count, [], grouped.drive⟩ :=
    ⟨by simpa using hgrouped.all, hgrouped.count, hgrouped.taken, hgrouped.drive⟩
  obtain ⟨gone', hend, hrefused⟩ :=
    account_destroySingles hnodup hthere grouped.left hsingles (by simp) hleft
  change Account refused targets there gone' []
    (destroySnapshots (zfsDestroy refused) targets there) at hend
  change ∀ t ∈ (destroySnapshots (zfsDestroy refused) targets there).left,
    refused t = true at hrefused
  rw [ho] at hend hrefused
  obtain ⟨hall, hcount, htaken, hdrive⟩ := hend
  rw [List.append_nil] at hall
  have hgone : ∀ n, n ∈ gone' ↔ n ∈ targets ∧ refused n = false := by
    intro n
    refine ⟨fun hn => ⟨hall.subset (List.mem_append_left _ hn), htaken n hn⟩, ?_⟩
    rintro ⟨hn, hfree⟩
    obtain hn | hn := List.mem_append.mp (hall.mem_iff.mpr hn)
    · exact hn
    · rw [hrefused n hn] at hfree
      cases hfree
  have hnodup' := hall.nodup_iff.mpr hnodup
  refine ⟨fun n => ?_, (List.nodup_append.mp hnodup').2.1, fun t => ?_, ?_⟩
  · rw [hdrive, hgone]
    simp
  · rw [hdrive, hgone]
    constructor
    · intro ht
      have htarget := hall.subset (List.mem_append_right _ ht)
      exact ⟨htarget, hthere t htarget, fun h => by simp [hrefused t ht] at h⟩
    · rintro ⟨htarget, -, hnot⟩
      obtain ht | ht := List.mem_append.mp (hall.mem_iff.mpr htarget)
      · exact absurd ((hgone t).mp ht) hnot
      · exact ht
  · rw [hcount, ← hall.length_eq, List.length_append]

/-- Two snapshots of a dataset, one of them refused, and a bookmark. -/
theorem destroySnapshots_exact_held :
    ∃ o, destroySnapshots (zfsDestroy (· = "p/a@1")) ["p/a@1", "p/a#b", "p/a@2"]
      ["p/a@2", "p/a@1", "p/a@3", "p/a#b"] = o ∧
    o.left = ["p/a@1"] ∧ o.count = 2 ∧ o.drive = ["p/a@1", "p/a@3"] ∧ o.left.Nodup := by
  refine ⟨_, rfl, by decide +kernel, by decide +kernel, by decide +kernel, ?_⟩
  refine (destroySnapshots_exact (· = "p/a@1") ?_ (by decide) (by decide) rfl).2.1
  intro t ht
  obtain rfl | rfl | rfl : t = "p/a@1" ∨ t = "p/a#b" ∨ t = "p/a@2" := by simpa using ht
  · exact ⟨"p/a", "1", by decide, by decide, .inl rfl⟩
  · exact ⟨"p/a", "b", by decide, by decide, .inr rfl⟩
  · exact ⟨"p/a", "2", by decide, by decide, .inl rfl⟩

end Zark.Reclaim
