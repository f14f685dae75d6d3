import Zark.Branch
import Zark.Proof.Rollback
import Zark.Proof.DriveCommands

/-!
# What a branch keeps

No command of a branch destroys a snapshot: each one only takes datasets or snapshots from the
lineage's tree to the archive's or back, and the archive counts for the dataset it was. So whatever
step fails, every snapshot is there. When none fails, the renames undo one another on all but the
lineage itself, whose snapshots the promotion divided at the common one.
-/

namespace Zark

open Hierarchy

/-! ### Archive names -/

section Archive

variable {rel : Rel} {taken : List Rel} {day : String}

theorem repr_injective {m n : ℕ} (h : m.repr = n.repr) : m = n := by
  have := congrArg (fun text => Nat.ofDigitChars 10 text.toList 0) h
  simpa [Nat.toList_repr] using this

theorem archivedAs_injective {m n : ℕ} (h : archivedAs rel day m = archivedAs rel day n) :
    m = n := by
  have htail := String.append_right_inj _ |>.mp (List.singleton_inj.mp (List.append_cancel_left h))
  by_cases hm : m = 0
  · by_cases hn : n = 0
    · rw [hm, hn]
    · rw [if_pos hm, if_neg hn] at htail
      exact absurd (congrArg String.toList htail).symm (by simp)
  · by_cases hn : n = 0
    · rw [if_neg hm, if_pos hn] at htail
      exact absurd (congrArg String.toList htail) (by simp)
    · rw [if_neg hm, if_neg hn] at htail
      exact Nat.succ_injective (repr_injective ((String.append_right_inj _).mp htail))

theorem archiveName_spec (rel : Rel) (taken : List Rel) (day : String) :
    ∃ n, archiveName rel taken day = archivedAs rel day n ∧ archivedAs rel day n ∉ taken := by
  unfold archiveName
  cases hfound : ((List.range (taken.length + 1)).map (archivedAs rel day)).find? (· ∉ taken) with
  | some name =>
      obtain ⟨n, -, rfl⟩ := List.mem_map.mp (List.mem_of_find?_eq_some hfound)
      exact ⟨n, rfl, by simpa using List.find?_some hfound⟩
  | none =>
      -- One more name than there are names taken.
      have hsub : (List.range (taken.length + 1)).map (archivedAs rel day) ⊆ taken :=
        fun name hname => by
          simpa using List.find?_eq_none.mp hfound name hname
      have hnodup :=
        List.Nodup.map (fun _ _ => @archivedAs_injective rel day _ _)
          (List.nodup_range (n := taken.length + 1))
      have hlength := (List.subperm_of_subset hnodup hsub).length_le
      rw [List.length_map, List.length_range] at hlength
      exact absurd hlength (by omega)

/-- A mark that starts before another one ends before it, since only its first character is a
dot. -/
theorem archiveMark_prefix_iff {l tail : List Char} (hl : l ≠ []) :
    archiveMark <+: l ++ archiveMark ++ tail ↔ archiveMark <+: l := by
  refine ⟨fun h => ?_, fun h => (h.trans (List.prefix_append l archiveMark)).trans
    (List.prefix_append _ tail)⟩
  rw [List.append_assoc] at h
  obtain h | ⟨rest, hrest⟩ :=
    List.prefix_or_prefix_of_prefix h (List.prefix_append l (archiveMark ++ tail))
  · exact h
  · obtain ⟨more, hmore⟩ := h
    have hover : rest ++ more = archiveMark ++ tail := by
      rw [← List.append_right_inj l, ← List.append_assoc, hrest, hmore]
    by_cases hnil : rest = []
    · rw [hnil, List.append_nil] at hrest
      exact hrest ▸ List.prefix_rfl
    · obtain ⟨c, cs, rfl⟩ := List.exists_cons_of_ne_nil hl
      obtain ⟨x, xs, rfl⟩ := List.exists_cons_of_ne_nil hnil
      have hdot : x = '.' := (List.cons_eq_cons.mp hover).1
      have htail : x ∈ archiveMark.tail := by
        rw [← hrest]
        exact List.mem_append_right cs List.mem_cons_self
      exact absurd (hdot ▸ htail) (by decide)

theorem cutMark_append_mark (l tail : List Char) :
    cutMark (l ++ archiveMark ++ tail) = cutMark l := by
  induction l with
  | nil => rfl
  | cons c cs ih =>
      have hsame : archiveMark.isPrefixOf (c :: (cs ++ archiveMark ++ tail))
          = archiveMark.isPrefixOf (c :: cs) := by
        rw [Bool.eq_iff_iff, List.isPrefixOf_iff_prefix, List.isPrefixOf_iff_prefix]
        exact archiveMark_prefix_iff (List.cons_ne_nil c cs)
      change cutMark (c :: (cs ++ archiveMark ++ tail)) = _
      rw [cutMark, cutMark, hsame, ih]

theorem hasMark_append_mark (l tail : List Char) : hasMark (l ++ archiveMark ++ tail) = true := by
  induction l with
  | nil => rfl
  | cons c cs ih =>
      change hasMark (c :: (cs ++ archiveMark ++ tail)) = true
      rw [hasMark, ih, Bool.or_true]

theorem toList_archivedAs (rel : Rel) (day : String) (n : ℕ) : ∃ tail : List Char,
    archivedAs rel day n = rel.dropLast ++
      [String.ofList ((rel.getLast?.getD "").toList ++ archiveMark ++ tail)] := by
  refine ⟨(day ++ if n = 0 then "" else "-" ++ (n + 1).repr).toList, ?_⟩
  rw [archivedAs]
  congr 2
  apply String.toList_injective
  rw [String.toList_ofList, String.toList_append, String.toList_append, String.toList_append,
    String.toList_append]
  simp only [List.append_assoc]
  rfl

theorem logical_archivedAs (hrel : rel ≠ []) (n : ℕ) :
    logical (archivedAs rel day n) = logical rel := by
  obtain ⟨tail, h⟩ := toList_archivedAs rel day n
  rw [h, logical, List.map_append, List.map_singleton, String.toList_ofList, cutMark_append_mark]
  conv_rhs => rw [← List.dropLast_append_getLast hrel, logical, List.map_append, List.map_singleton]
  rw [List.getLast?_eq_some_getLast hrel, Option.getD_some]

theorem isArchived_archivedAs (rel : Rel) (day : String) (n : ℕ) :
    isArchived (archivedAs rel day n) = true := by
  obtain ⟨tail, h⟩ := toList_archivedAs rel day n
  rw [h, isArchived, List.any_append, List.any_cons, String.toList_ofList, hasMark_append_mark]
  simp

theorem parent_archivedAs (n : ℕ) : parent (archivedAs rel day n) = parent rel := by
  rw [archivedAs, parent, List.dropLast_concat]

theorem archiveName_facts (hrel : rel ≠ []) (taken : List Rel) (day : String) :
    archiveName rel taken day ∉ taken ∧ archiveName rel taken day ≠ [] ∧
    isArchived (archiveName rel taken day) = true ∧
      parent (archiveName rel taken day) = parent rel ∧
      logical (archiveName rel taken day) = logical rel := by
  obtain ⟨n, hname, hfree⟩ := archiveName_spec rel taken day
  rw [hname]
  exact ⟨hfree, by simp [archivedAs], isArchived_archivedAs rel day n, parent_archivedAs n,
    logical_archivedAs hrel n⟩

end Archive

/-! ### Whatever fails -/

/-- Every snapshot is still there: outside a zone where it was, inside it counting for the same
dataset. -/
def Carried (zone : Rel → Prop) (before after : Drive) : Prop :=
  ∀ d ∈ before, ∀ s ∈ d.snaps, ∃ e ∈ after, s ∈ e.snaps ∧ (¬zone d.rel → e.rel = d.rel) ∧
    (zone d.rel → zone e.rel) ∧
    logical e.rel = logical d.rel

section Carried

variable {zone : Rel → Prop} {before mid after : Drive} {old new : Rel}

theorem Carried.refl (zone : Rel → Prop) (drive : Drive) : Carried zone drive drive :=
  fun d hd _ hs => ⟨d, hd, hs, fun _ => rfl, id, rfl⟩

theorem Carried.trans (h : Carried zone before mid) (h' : Carried zone mid after) :
    Carried zone before after := by
  intro d hd s hs
  obtain ⟨e, he, hse, hout, hin, hlogical⟩ := h d hd s hs
  obtain ⟨f, hf, hsf, hout', hin', hlogical'⟩ := h' e he s hse
  refine ⟨f, hf, hsf, fun hzone => ?_, fun hzone => hin' (hin hzone), hlogical'.trans hlogical⟩
  have hrel := hout hzone
  rw [hout' (hrel ▸ hzone), hrel]

theorem logical_append (a b : Rel) : logical (a ++ b) = logical a ++ logical b := List.map_append

theorem carried_rename (h : zfsRename before old new = some after)
    (hold : ∀ x, Under x old → zone x) (hnew : ∀ x, Under x new → zone x)
    (hlogical : logical new = logical old) : Carried zone before after := by
  intro d hd s hs
  refine ⟨d.moved old new, (mem_zfsRename h).mpr ⟨d, hd, rfl⟩, hs, ?_⟩
  change (¬zone d.rel → movedRel old new d.rel = d.rel) ∧
    (zone d.rel → zone (movedRel old new d.rel)) ∧
    logical (movedRel old new d.rel) = logical d.rel
  by_cases hunder : Under d.rel old
  · obtain ⟨tail, htail⟩ := hunder
    rw [← htail, movedRel_append, logical_append, logical_append, hlogical]
    exact ⟨fun hnot => absurd (hold _ (List.prefix_append _ _)) hnot, fun _ =>
      hnew _ (List.prefix_append _ _), rfl⟩
  · rw [movedRel_of_not_under hunder]
    exact ⟨fun _ => rfl, id, rfl⟩

theorem carried_clone {source : SnapName} {rel : Rel}
    (h : zfsClone before source rel = some after) : Carried zone before after := by
  obtain ⟨o, -, -, -, hpush⟩ := zfsClone_spec h
  exact fun d hd s hs => ⟨d, (Keyed.mem_push? hpush).mpr (.inl hd), hs, fun _ => rfl, id, rfl⟩

theorem carried_promote {rel : Rel} {clone : Dest} {source : SnapName}
    (h : zfsPromote before rel = some after) (hclone : before.get? rel = some clone)
    (hsource : clone.cloneOf = some source) (hrel : zone rel) (hzone : zone source.1)
    (hlogical : logical source.1 = logical rel) : Carried zone before after := by
  obtain ⟨d', source', o, snaps, hd', hsource', ho, -, hsnaps, rfl⟩ := zfsPromote_spec h
  obtain rfl : clone = d' := Option.some.inj (hclone.symm.trans hd')
  obtain rfl : source = source' := Option.some.inj (hsource.symm.trans hsource')
  have hlive : { clone with snaps, cloneOf := o.cloneOf } ∈
      before.map (Dest.promoted rel source o snaps) (Dest.promoted_rel rel source o snaps) := by
    refine Keyed.mem_map.mpr ⟨clone, Keyed.mem_of_get? hclone, ?_⟩
    rw [Dest.promoted, if_pos (Keyed.key_of_get? hclone)]
  intro d hd s hs
  have hmem : Dest.promoted rel source o snaps d ∈ before.map (Dest.promoted rel source o snaps)
      (Dest.promoted_rel rel source o snaps) :=
    Keyed.mem_map.mpr ⟨d, hd, rfl⟩
  have hsame : s ∈ (Dest.promoted rel source o snaps d).snaps →
      ∃ e ∈ before.map (Dest.promoted rel source o snaps)
      (Dest.promoted_rel rel source o snaps), s ∈ e.snaps ∧ (¬zone d.rel → e.rel = d.rel) ∧
        (zone d.rel → zone e.rel) ∧
        logical e.rel = logical d.rel := by
    intro hs
    refine ⟨_, hmem, hs, ?_⟩
    rw [Dest.promoted_rel]
    exact ⟨fun _ => rfl, id, rfl⟩
  by_cases hd₁ : d.rel = rel
  · obtain rfl : d = clone :=
      Keyed.eq_of_key hd (Keyed.mem_of_get? hclone) (hd₁.trans (Keyed.key_of_get? hclone).symm)
    refine hsame ?_
    rw [Dest.promoted, if_pos hd₁, Keyed.mem_def, hsnaps]
    exact List.mem_append_right _ hs
  · by_cases hd₂ : d.rel = source.1
    · obtain rfl : d = o :=
        Keyed.eq_of_key hd (Keyed.mem_of_get? ho) (hd₂.trans (Keyed.key_of_get? ho).symm)
      have hcut : s ∈ (d.snaps.upTo source.2).items ∨ s ∈ (d.snaps.after source.2).items := by
        rw [← List.mem_append, Keyed.upTo_append_after]
        exact hs
      obtain hbefore | hafter := hcut
      · refine ⟨_, hlive, ?_, fun hnot => absurd (hd₂ ▸ hzone) hnot, fun _ => ?_, ?_⟩
        · rw [Keyed.mem_def, hsnaps]
          exact List.mem_append_left _ hbefore
        · exact (Keyed.key_of_get? hclone).symm ▸ hrel
        · change logical clone.rel = _
          rw [Keyed.key_of_get? hclone, hd₂, hlogical]
      · refine hsame ?_
        rw [Dest.promoted, if_neg hd₁, if_pos hd₂]
        exact hafter
    · refine hsame ?_
      rw [Dest.promoted, if_neg hd₁, if_neg hd₂]
      exact hs

end Carried

section Fails

variable {fails : ℕ → Bool} {day : ℕ → String} {st st' : Branching} {c : Command}

theorem sh_true (h : st.sh fails c = (true, st')) :
    c.run st.drive = some st'.drive ∧ st'.known = st.known := by
  unfold Branching.sh at h
  split at h
  · rename_i drive hdrive
    cases h
    by_cases hfails : fails st.given = true
    · rw [if_pos hfails] at hdrive
      cases hdrive
    · rw [if_neg hfails] at hdrive
      exact ⟨hdrive, rfl⟩
  · cases h

theorem sh_false (h : st.sh fails c = (false, st')) :
    st'.drive = st.drive ∧ st'.known = st.known := by
  unfold Branching.sh at h
  split at h <;> cases h
  exact ⟨rfl, rfl⟩

/-- What each of the commands keeps, a run of them keeps, wherever it ends. -/
theorem runAll_keeps {P : Drive → Prop} {commands : List Command}
    (hstep : ∀ c ∈ commands, ∀ drive after, P drive → c.run drive = some after → P after)
    (hst : P st.drive) :
    P (st.runAll fails commands).2.drive := by
  induction commands generalizing st with
  | nil => exact hst
  | cons c rest ih =>
      unfold Branching.runAll
      split
      · rename_i next hsh
        exact ih (fun c hc => hstep c (List.mem_cons_of_mem _ hc))
          (hstep c List.mem_cons_self _ _ hst (sh_true hsh).1)
      · rename_i next hsh
        exact (sh_false hsh).1 ▸ hst

theorem child_eq {rel child : Rel} (hrel : rel ≠ []) (h : parent child = rel) :
    ∃ x, child = rel ++ [x] := by
  have hne : child ≠ [] := by
    rintro rfl
    exact hrel h.symm
  exact ⟨child.getLast hne, h ▸ (List.dropLast_append_getLast hne).symm⟩

/-- What the commands after the archive keep. -/
structure KeptByRest (P : Drive → Prop) (rel new : Rel) (common : String) : Prop where
  clone : ∀ {drive after}, P drive → zfsClone drive (new, common) rel = some after → P after
  promote : ∀ {drive cloned after}, P cloned → zfsClone drive (new, common) rel = some cloned →
    zfsPromote cloned rel = some after → P after
  child : ∀ {x drive after}, P drive →
    zfsRename drive (new ++ [x]) (rel ++ [x]) = some after → P after

/-- The rule for a branch, whichever of its commands fails. -/
theorem branch_rule {P : Drive → Prop} {p : DatasetPlan} {new : Rel}
    (hnew : archiveName p.rel st.known (day st.given) = new) (hrel : p.rel ≠ [])
    (hstart : P st.drive)
    (hrest : ∀ {renamed}, zfsRename st.drive p.rel new = some renamed →
      P renamed ∧ KeptByRest P p.rel new (p.common.getD "")) :
    P (st.branch fails day p).2.drive := by
  simp only [Branching.branch, Branching.archive, hnew]
  cases hrename : st.sh fails (.rename p.rel new) with
  | mk ok renamed =>
  cases ok with
  | false => exact (sh_false hrename).1 ▸ hstart
  | true =>
      obtain ⟨hrenamed, hkept⟩ := hrest (sh_true hrename).1
      simp only [Branching.restCommands, Branching.runAll]
      cases hclone : Branching.sh fails { renamed with known := renamed.known.erase p.rel ++ [new] }
          (.clone (new, p.common.getD "") p.rel) with
      | mk ok cloned =>
      cases ok with
      | false => exact (sh_false hclone).1 ▸ hrenamed
      | true =>
          have hcloned := hkept.clone hrenamed (sh_true hclone).1
          dsimp only
          cases hpromote : cloned.sh fails (.promote p.rel) with
          | mk ok promoted =>
          cases ok with
          | false => exact (sh_false hpromote).1 ▸ hcloned
          | true =>
              refine runAll_keeps (fun c hc drive after hdrive hrun => ?_)
                (hkept.promote hcloned (sh_true hclone).1 (sh_true hpromote).1)
              obtain ⟨child, hchild, rfl⟩ := List.mem_map.mp hc
              rw [mem_sortRels, List.mem_filter, decide_eq_true_eq] at hchild
              obtain ⟨x, rfl⟩ := child_eq hrel hchild.2
              rw [List.drop_left] at hrun
              exact hkept.child hdrive hrun

/-- What the commands of a branch may touch: the dataset's tree and the archive's. -/
def branchZone (rel new x : Rel) : Prop := Under x rel ∨ Under x new

theorem carried_branch {p : DatasetPlan} (hrel : p.rel ≠ []) (st : Branching) :
    Carried (branchZone p.rel (archiveName p.rel st.known (day st.given))) st.drive
      (st.branch fails day p).2.drive := by
  obtain ⟨-, -, -, -, hlogical⟩ := archiveName_facts hrel st.known (day st.given)
  generalize hnew : archiveName p.rel st.known (day st.given) = new at hlogical ⊢
  refine branch_rule hnew hrel (Carried.refl _ _) fun hrename =>
    ⟨carried_rename hrename (fun _ => .inl) (fun _ => .inr) hlogical, ?_⟩
  refine ⟨fun h hclone => h.trans (carried_clone hclone), fun h hclone hpromote =>
    h.trans ?_, fun h hchild => h.trans ?_⟩
  · obtain ⟨o, -, -, -, hpush⟩ := zfsClone_spec hclone
    exact carried_promote hpromote (Keyed.get?_eq_some_iff.mpr
      ⟨(Keyed.mem_push? hpush).mpr (.inr rfl), rfl⟩) rfl (.inl List.prefix_rfl)
      (.inr List.prefix_rfl) hlogical
  · refine carried_rename hchild (fun y hy =>
      .inr (List.IsPrefix.trans (List.prefix_append _ _) hy))
      (fun y hy => .inl (List.IsPrefix.trans (List.prefix_append _ _) hy)) ?_
    rw [logical_append, logical_append, hlogical]

theorem closed_branch {p : DatasetPlan} (hrel : p.rel ≠ []) (hst : ParentClosed st.drive.keys) :
    ParentClosed (st.branch fails day p).2.drive.keys :=
  branch_rule (P := fun drive => ParentClosed drive.keys) rfl hrel hst fun hrename =>
    ⟨parentClosed_zfsRename hrename hst,
      { clone := fun h hclone => parentClosed_zfsClone hclone h
        promote := fun h _ hpromote => parentClosed_zfsPromote hpromote h
        child := fun h hchild => parentClosed_zfsRename hchild h }⟩

theorem branch_refused {p : DatasetPlan} (hrel : p.rel ≠ [])
    (hcan : ¬CanRename st.drive p.rel (archiveName p.rel st.known (day st.given))) :
    (st.branch fails day p).2.drive = st.drive :=
  branch_rule (P := (· = st.drive)) rfl hrel rfl fun hrename =>
    absurd (zfsRename_spec hrename).1 hcan

theorem KeepsAll.refl (rel new : Rel) (drive : Drive) : KeepsAll rel new drive drive :=
  fun d hd _ hs => ⟨d, hd, hs, .inl rfl⟩

theorem keepsAll_branch {p : DatasetPlan} (hst : ParentClosed st.drive.keys) (hrel : p.rel ≠ []) :
    KeepsAll p.rel (archiveName p.rel st.known (day st.given)) st.drive
      (st.branch fails day p).2.drive := by
  by_cases hcan : CanRename st.drive p.rel (archiveName p.rel st.known (day st.given))
  · intro d hd s hs
    obtain ⟨e, he, hse, hout, hin, hlogical⟩ := carried_branch hrel st d hd s hs
    refine ⟨e, he, hse, ?_⟩
    by_cases hunder : Under d.rel p.rel
    · exact .inr ⟨hunder, hin (.inl hunder), hlogical⟩
    · exact .inl (hout fun hzone => hzone.elim hunder (hcan.not_under hst (Keyed.key_mem_keys hd)))
  · exact branch_refused hrel hcan ▸ KeepsAll.refl _ _ _

end Fails

/-! ### When nothing fails -/

/-- One command after another, each accepted. -/
def runEach (drive : Drive) (commands : List Command) : Option Drive :=
  commands.foldlM Command.run drive

section Succeeds

variable {fails : ℕ → Bool} {day : ℕ → String} {st st' : Branching}

theorem runAll_true {commands : List Command} (h : st.runAll fails commands = (true, st')) :
    runEach st.drive commands = some st'.drive ∧ st'.known = st.known := by
  induction commands generalizing st with
  | nil =>
      cases h
      exact ⟨rfl, rfl⟩
  | cons c rest ih =>
      unfold Branching.runAll at h
      split at h
      · rename_i next hsh
        obtain ⟨hrun, hknown⟩ := sh_true hsh
        obtain ⟨hrest, hsame⟩ := ih h
        refine ⟨?_, hsame.trans hknown⟩
        rw [runEach, List.foldlM_cons, hrun]
        exact hrest
      · cases h

/-- Commands zfs accepts all succeed when none fails for a reason of its own. -/
theorem runAll_succeeds (hfails : ∀ n, fails n = false) {commands : List Command} {after : Drive}
    (h : runEach st.drive commands = some after) : (st.runAll fails commands).1 = true := by
  induction commands generalizing st with
  | nil => rfl
  | cons c rest ih =>
      rw [runEach, List.foldlM_cons, Option.bind_eq_bind, Option.bind_eq_some_iff] at h
      obtain ⟨next, hrun, hrest⟩ := h
      have hsh : st.sh fails c = (true, { st with drive := next, given := st.given + 1 }) := by
        rw [Branching.sh, if_neg (by simp [hfails]), hrun]
      rw [Branching.runAll, hsh]
      exact ih hrest

theorem branch_true {p : DatasetPlan} (h : st.branch fails day p = (true, st')) :
    ∃ renamed, zfsRename st.drive p.rel (archiveName p.rel st.known (day st.given)) = some renamed ∧
      runEach renamed (Branching.restCommands p (archiveName p.rel st.known (day st.given))
        (sortRels (st.known.filter fun rel => parent rel = p.rel))) = some st'.drive ∧
        st'.known = st.known.erase p.rel ++ [archiveName p.rel st.known (day st.given)] := by
  simp only [Branching.branch, Branching.archive] at h
  cases hrename : st.sh fails (.rename p.rel (archiveName p.rel st.known (day st.given))) with
  | mk ok renamed =>
  rw [hrename] at h
  cases ok with
  | false => cases h
  | true =>
      obtain ⟨hrun, hknown⟩ := sh_true hrename
      obtain ⟨hrest, hsame⟩ := runAll_true h
      exact ⟨renamed.drive, hrun, hrest, by rw [hsame, hknown]⟩

theorem branch_succeeds (hfails : ∀ n, fails n = false) {p : DatasetPlan} {renamed after : Drive}
    (hrename : zfsRename st.drive p.rel (archiveName p.rel st.known (day st.given)) = some renamed)
    (hrest : runEach renamed (Branching.restCommands p (archiveName p.rel st.known (day st.given))
      (sortRels (st.known.filter fun rel => parent rel = p.rel))) = some after) :
      (st.branch fails day p).1 = true := by
  have hsh : st.sh fails (.rename p.rel (archiveName p.rel st.known (day st.given))) =
      (true, { st with drive := renamed, given := st.given + 1 }) := by
    rw [Branching.sh, if_neg (by simp [hfails]), Command.run, hrename]
  simp only [Branching.branch, Branching.archive, hsh]
  exact runAll_succeeds hfails hrest

end Succeeds

/-! ### The drive between the commands -/

/-- The name of a dataset while the children in `back` have gone back. -/
def away (rel new : Rel) (back : List Rel) (x : Rel) : Rel :=
  if covered x back = true then x else movedRel rel new x

/-- The drive of a branch once the children in `back` are back: `origins` is where clones' origins
are by then. -/
structure Halfway (before : Drive) (d : Dest) (new : Rel) (common : String) (back : List Rel)
    (origins : SnapName → SnapName) (now : Drive) : Prop where
  closed : ParentClosed now.keys
  keys : ∀ y, y ∈ now.keys ↔ y = d.rel ∨ ∃ x ∈ before.keys, away d.rel new back x = y
  live : ∃ clone, now.get? d.rel
    = some { rel := d.rel, kind := d.kind, snaps := d.snaps.upTo common, cloneOf := clone }
  kept : now.get? new
    = some { d with rel := new, snaps := d.snaps.after common, cloneOf := some (d.rel, common) }
  others : ∀ e ∈ before, e.rel ≠ d.rel →
    now.get? (away d.rel new back e.rel)
      = some { e with rel := away d.rel new back e.rel, cloneOf := e.cloneOf.map origins }
  origins_eq : ∀ source : SnapName, source.1 ∈ before.keys → origins source =
    if source.1 = d.rel ∧ source.2 ∈ (d.snaps.upTo common).keys then
      source
    else (away d.rel new back source.1, source.2)

/-- The archive's place: a free name beside the dataset's. -/
structure Beside (before : Drive) (rel new : Rel) : Prop where
  closed : ParentClosed before.keys
  held : rel ∈ before.keys
  absent : new ∉ before.keys
  ne_nil : new ≠ []
  parent : parent new = parent rel

section Halfway

variable {before now after : Drive} {d : Dest} {rel new : Rel} {common : String} {back : List Rel}
  {origins : SnapName → SnapName}

theorem Beside.ne (h : Beside before rel new) : new ≠ rel := fun heq => h.absent (heq ▸ h.held)

theorem Beside.rel_ne_nil (h : Beside before rel new) : rel ≠ [] := (h.closed rel h.held).1

theorem Beside.length (h : Beside before rel new) : new.length = rel.length := by
  have hlength := congrArg List.length h.parent
  rw [List.length_dropLast, List.length_dropLast] at hlength
  have hnew := List.length_pos_of_ne_nil h.ne_nil
  have hrel := List.length_pos_of_ne_nil h.rel_ne_nil
  omega

theorem Beside.apart (h : Beside before rel new) {x : Rel} (hrel : Under x rel) : ¬Under x new := by
  intro hnew
  obtain hunder | hunder := under_or_under hrel hnew
  · exact h.ne (hunder.eq_of_length h.length)
  · exact h.ne (hunder.eq_of_length h.length.symm).symm

theorem Beside.not_under_new (h : Beside before rel new) {x : Rel} (hx : x ∈ before.keys) :
    ¬Under x new :=
  not_under_of_not_mem h.closed hx h.absent h.ne_nil

theorem Beside.moved_eq_new (h : Beside before rel new) {x : Rel} (hx : x ∈ before.keys)
    (heq : movedRel rel new x = new) : x = rel :=
  eq_of_movedRel_eq (h.not_under_new hx) (h.apart List.prefix_rfl)
    (heq.trans (movedRel_self rel new).symm)

theorem Beside.moved_ne (h : Beside before rel new) (x : Rel) : movedRel rel new x ≠ rel := by
  intro heq
  by_cases hunder : Under x rel
  · obtain ⟨tail, rfl⟩ := hunder
    rw [movedRel_append] at heq
    exact h.apart (x := rel) List.prefix_rfl (heq ▸ List.prefix_append _ _)
  · rw [movedRel_of_not_under hunder] at heq
    exact hunder (heq ▸ List.prefix_rfl)

@[simp] theorem away_nil (rel new x : Rel) : away rel new [] x = movedRel rel new x := rfl

theorem moved_away (h : Beside before rel new) (hback : ∀ child ∈ back, Under child rel)
    (x : String) {y : Rel} (hy : y ∈ before.keys) :
    movedRel (new ++ [x]) (rel ++ [x]) (away rel new back y)
      = away rel new ((rel ++ [x]) :: back) y := by
  have hnew : ∀ {z}, Under z (new ++ [x]) → Under z new :=
    fun hz => List.IsPrefix.trans (List.prefix_append _ _) hz
  have hcons : covered y ((rel ++ [x]) :: back)
      = (decide (Under y (rel ++ [x])) || covered y back) := rfl
  unfold away
  rw [hcons]
  by_cases hcovered : covered y back = true
  · obtain ⟨child, hchild, hunder⟩ := covered_iff.mp hcovered
    rw [if_pos hcovered, if_pos (by simp [hcovered])]
    exact movedRel_of_not_under fun hz => h.apart (hunder.trans (hback child hchild)) (hnew hz)
  · by_cases hchild : Under y (rel ++ [x])
    · obtain ⟨tail, rfl⟩ := hchild
      rw [if_neg hcovered, if_pos (by simp), List.append_assoc, movedRel_append,
        ← List.append_assoc, movedRel_append, List.append_assoc]
    · rw [if_neg hcovered, if_neg (by simp [hcovered, hchild])]
      refine movedRel_of_not_under fun hz => ?_
      by_cases hunder : Under y rel
      · obtain ⟨tail, rfl⟩ := hunder
        rw [movedRel_append] at hz
        exact hchild ((List.prefix_append_right_inj rel).mpr
          ((List.prefix_append_right_inj new).mp hz))
      · rw [movedRel_of_not_under hunder] at hz
        exact h.not_under_new hy (hnew hz)

/-- The drive once the clone is promoted: all the rest of the tree is still below the archive. -/
theorem halfway_start (h : Beside before d.rel new) (hd : d ∈ before) {renamed cloned : Drive}
    (hrename : zfsRename before d.rel new = some renamed)
    (hclone : zfsClone renamed (new, common) d.rel = some cloned)
    (hpromote : zfsPromote cloned d.rel = some now) :
    ∃ origins, Halfway before d new common [] origins now := by
  have hrenamed : ∀ x ∈ before.keys, renamed.get? (movedRel d.rel new x)
      = (before.get? x).map (Dest.moved d.rel new) :=
    fun x hx => get?_zfsRename hrename h.closed (h.not_under_new hx)
  have harchive : renamed.get? new = some (d.moved d.rel new) := by
    have := hrenamed d.rel h.held
    rwa [movedRel_self, Keyed.get?_of_mem hd, Option.map_some] at this
  obtain ⟨o, ho, -, -, hpush⟩ := zfsClone_spec hclone
  obtain rfl : d.moved d.rel new = o := Option.some.inj (harchive.symm.trans ho)
  have hcloned : ∀ y, y ≠ d.rel → cloned.get? y = renamed.get? y :=
    fun y hy => Keyed.get?_push?_of_ne hpush hy
  have hlive :
      cloned.get? d.rel = some { rel := d.rel, kind := d.kind, cloneOf := some (new, common) } :=
    Keyed.get?_eq_some_iff.mpr ⟨(Keyed.mem_push? hpush).mpr (.inr rfl), rfl⟩
  have hclosed :=
    parentClosed_zfsPromote hpromote (parentClosed_zfsClone hclone
      (parentClosed_zfsRename hrename h.closed))
  obtain ⟨clone, source, o, snaps, hclone', hsource, ho', -, hsnaps, rfl⟩ :=
    zfsPromote_spec hpromote
  obtain rfl := Option.some.inj (hlive.symm.trans hclone')
  obtain rfl : (new, common) = source := Option.some.inj hsource
  obtain rfl : d.moved d.rel new = o :=
    Option.some.inj (((hcloned new h.ne).trans harchive).symm.trans ho')
  obtain rfl : snaps = d.snaps.upTo common := Keyed.ext (hsnaps.trans (List.append_nil _))
  have hnow :
      ∀ y, (cloned.map (Dest.promoted d.rel (new, common) (d.moved d.rel new) (d.snaps.upTo common))
      (Dest.promoted_rel d.rel (new, common) (d.moved d.rel new) (d.snaps.upTo common))).get? y =
        (cloned.get? y).map (Dest.promoted d.rel (new, common) (d.moved d.rel new)
          (d.snaps.upTo common)) := fun y => Keyed.get?_map y
  refine ⟨fun source => repointed new d.rel (d.snaps.upTo common).keys
    (movedRel d.rel new source.1, source.2), hclosed, fun y => ?_, ?_, ?_, fun e he hne => ?_,
    fun source hsource => ?_⟩
  · rw [Keyed.keys_map, mem_keys_zfsClone hclone, mem_keys_zfsRename hrename]
    exact or_comm
  · rw [hnow, hlive, Option.map_some, Dest.promoted, if_pos rfl]
    exact ⟨_, rfl⟩
  · have hmoved : (d.moved d.rel new).rel = new := movedRel_self d.rel new
    rw [hnow, hcloned new h.ne, harchive, Option.map_some, Dest.promoted,
      if_neg (by rw [hmoved]; exact h.ne), if_pos hmoved, Dest.moved, movedRel_self]
  · have hmem := Keyed.key_mem_keys he
    have hmoved : movedRel d.rel new e.rel ≠ new := fun heq => hne (h.moved_eq_new hmem heq)
    rw [away_nil, hnow, hcloned _ (h.moved_ne e.rel), hrenamed _ hmem, Keyed.get?_of_mem he,
      Option.map_some, Option.map_some, Dest.promoted,
      if_neg (show ¬(e.moved d.rel new).rel = d.rel from h.moved_ne e.rel),
      if_neg (show ¬(e.moved d.rel new).rel = new from hmoved), Dest.moved, Option.map_map]
    rfl
  · obtain ⟨owner, name⟩ := source
    rw [away_nil, repointed]
    by_cases hown : owner = d.rel
    · subst hown
      by_cases hname : name ∈ (d.snaps.upTo common).keys <;> simp [hname]
    · rw [if_neg fun hboth => hown (h.moved_eq_new hsource hboth.1),
        if_neg fun hboth => hown hboth.1]

theorem halfway_step (h : Beside before d.rel new) (hback : ∀ child ∈ back, Under child d.rel)
    (hnow : Halfway before d new common back origins now) {x : String}
    (hrename : zfsRename now (new ++ [x]) (d.rel ++ [x]) = some after) :
    ∃ origins', Halfway before d new common ((d.rel ++ [x]) :: back) origins' after := by
  have hcan := (zfsRename_spec hrename).1
  have hrel : movedRel (new ++ [x]) (d.rel ++ [x]) d.rel = d.rel :=
    movedRel_of_not_under fun hz => h.apart (x := d.rel) List.prefix_rfl
      (List.IsPrefix.trans (List.prefix_append _ _) hz)
  have hnew : movedRel (new ++ [x]) (d.rel ++ [x]) new = new := movedRel_of_not_under fun hz => by
    have := hz.length_le
    rw [List.length_append, List.length_singleton] at this
    omega
  -- What a dataset on the drive becomes.
  have hget : ∀ {y e}, now.get? y = some e →
      after.get? (movedRel (new ++ [x]) (d.rel ++ [x]) y)
          = some (e.moved (new ++ [x]) (d.rel ++ [x])) := by
    intro y e he
    have hout :=
      hcan.not_under hnow.closed (Keyed.get?_isSome_iff.mp (Option.isSome_iff_exists.mpr ⟨e, he⟩))
    rw [get?_zfsRename hrename hnow.closed hout, he, Option.map_some]
  refine ⟨fun source => ((movedRel (new ++ [x]) (d.rel ++ [x]) (origins source).1),
    (origins source).2), ?_⟩
  refine ⟨parentClosed_zfsRename hrename hnow.closed, fun y => ?_, ?_, ?_, fun e he hne => ?_,
    fun source hsource => ?_⟩
  · rw [mem_keys_zfsRename hrename]
    constructor
    · rintro ⟨z, hz, rfl⟩
      obtain rfl | ⟨w, hw, rfl⟩ := (hnow.keys z).mp hz
      · exact .inl hrel
      · exact .inr ⟨w, hw, (moved_away h hback x hw).symm⟩
    · rintro (rfl | ⟨w, hw, rfl⟩)
      · exact ⟨d.rel, (hnow.keys _).mpr (.inl rfl), hrel⟩
      · exact ⟨_, (hnow.keys _).mpr (.inr ⟨w, hw, rfl⟩), moved_away h hback x hw⟩
  · obtain ⟨clone, hlive⟩ := hnow.live
    have hlive' := hget hlive
    rw [hrel, Dest.moved, hrel] at hlive'
    exact ⟨_, hlive'⟩
  · have hkept := hget hnow.kept
    rw [hnew] at hkept
    rw [hkept, Dest.moved, hnew, Option.map_some, hrel]
  · have hother := hget (hnow.others e he hne)
    rw [moved_away h hback x (Keyed.key_mem_keys he)] at hother
    rw [hother, Dest.moved, moved_away h hback x (Keyed.key_mem_keys he), Option.map_map]
    rfl
  · rw [hnow.origins_eq source hsource]
    split
    · rename_i hown
      rw [hown.1, hrel]
      exact Prod.ext hown.1.symm rfl
    · rw [moved_away h hback x hsource]

theorem halfway_children (h : Beside before d.rel new) {children : List Rel}
    (hchildren : ∀ child ∈ children, parent child = d.rel)
    (hback : ∀ child ∈ back, Under child d.rel)
    (hnow : Halfway before d new common back origins now)
    (hrun : runEach now (children.map fun child => .rename (new ++ child.drop d.rel.length) child)
      = some after) :
    ∃ origins', Halfway before d new common (children.reverse ++ back) origins' after := by
  induction children generalizing now back origins with
  | nil =>
      obtain rfl := Option.some.inj hrun
      exact ⟨origins, hnow⟩
  | cons child rest ih =>
      rw [runEach, List.map_cons, List.foldlM_cons, Option.bind_eq_bind,
        Option.bind_eq_some_iff] at hrun
      obtain ⟨next, hrename, hrest⟩ := hrun
      obtain ⟨x, rfl⟩ := child_eq h.rel_ne_nil (hchildren child List.mem_cons_self)
      rw [List.drop_left] at hrename
      obtain ⟨origins', hnext⟩ := halfway_step h hback hnow hrename
      rw [List.reverse_cons, List.append_assoc]
      refine ih (fun child hchild => hchildren child (List.mem_cons_of_mem _ hchild))
        (fun child hchild => ?_) hnext hrest
      obtain rfl | hchild := List.mem_cons.mp hchild
      · exact List.prefix_append _ _
      · exact hback child hchild

theorem clone_accepted (h : Beside before d.rel new) (hd : d ∈ before) {renamed : Drive}
    (hrename : zfsRename before d.rel new = some renamed) (hcommon : common ∈ d.snaps.keys) :
    ∃ cloned now, zfsClone renamed (new, common) d.rel = some cloned ∧
    zfsPromote cloned d.rel = some now := by
  have harchive : renamed.get? new = some (d.moved d.rel new) := by
    have := get?_zfsRename hrename h.closed (h.not_under_new h.held)
    rwa [movedRel_self, Keyed.get?_of_mem hd, Option.map_some] at this
  have habsent : d.rel ∉ renamed.keys := by
    intro hmem
    obtain ⟨x, -, hx⟩ := (mem_keys_zfsRename hrename).mp hmem
    exact h.moved_ne x hx
  have hplace : parent d.rel = [] ∨ parent d.rel ∈ renamed.keys := by
    refine (h.closed d.rel h.held).2.imp_right fun hparent =>
      (mem_keys_zfsRename hrename).mpr ⟨_, hparent, movedRel_of_not_under fun hunder => ?_⟩
    have hlength := hunder.length_le
    have hpos := List.length_pos_of_ne_nil h.rel_ne_nil
    rw [parent, List.length_dropLast] at hlength
    omega
  let clone : Dest := { rel := d.rel, kind := d.kind, cloneOf := some (new, common) }
  obtain ⟨cloned, hpush⟩ :=
    Option.isSome_iff_exists.mp (Keyed.push?_isSome_iff.mpr
      (show clone.rel ∉ renamed.keys from habsent))
  have hclone : zfsClone renamed (new, common) d.rel = some cloned := by
    rw [zfsClone, harchive, Option.bind_some, if_pos ⟨hcommon, h.rel_ne_nil, habsent, hplace⟩]
    exact hpush
  have hlive : cloned.get? d.rel = some clone :=
    Keyed.get?_eq_some_iff.mpr ⟨(Keyed.mem_push? hpush).mpr (.inr rfl), rfl⟩
  have hsource : cloned.get? new = some (d.moved d.rel new) :=
    (Keyed.get?_push?_of_ne hpush h.ne).trans harchive
  have hsnaps : Keyed.ofList? Ref.name ((d.snaps.upTo common).items ++ clone.snaps.items)
      = some (d.snaps.upTo common) :=
    Keyed.ofList?_eq_some_iff.mpr (List.append_nil _).symm
  refine ⟨cloned, cloned.map (Dest.promoted d.rel (new, common) (d.moved d.rel new)
    (d.snaps.upTo common))
    (Dest.promoted_rel d.rel (new, common) (d.moved d.rel new) (d.snaps.upTo common)), hclone, ?_⟩
  have hof : clone.cloneOf = some (new, common) := rfl
  have hkept : (d.moved d.rel new).snaps = d.snaps := rfl
  rw [zfsPromote, hlive, Option.bind_some, hof, Option.bind_some, hsource, Option.bind_some, hkept,
    if_pos hcommon, hsnaps, Option.map_some]

theorem child_accepted (h : Beside before d.rel new) (hback : ∀ child ∈ back, parent child = d.rel)
    (hnow : Halfway before d new common back origins now) {x : String}
    (hx : d.rel ++ [x] ∈ before.keys) (hleft : d.rel ++ [x] ∉ back) :
    ∃ after, zfsRename now (new ++ [x]) (d.rel ++ [x]) = some after := by
  have hnot : ∀ {y}, covered y back = true → y ≠ d.rel ++ [x] := by
    rintro _ hcovered rfl
    obtain ⟨child, hchild, hunder⟩ := covered_iff.mp hcovered
    obtain ⟨y, rfl⟩ := child_eq h.rel_ne_nil (hback child hchild)
    exact hleft (hunder.eq_of_length (by simp) ▸ hchild)
  have haway : away d.rel new back (d.rel ++ [x]) = new ++ [x] := by
    rw [away, if_neg fun hcovered => hnot hcovered rfl, movedRel_append]
  refine CanRename.exists ⟨(hnow.keys _).mpr (.inr ⟨_, hx, haway⟩),
    ⟨by simp, fun hmem => ?_, .inr ?_⟩, fun hunder => ?_⟩ hnow.closed
  · obtain hself | ⟨y, -, hy⟩ := (hnow.keys _).mp hmem
    · exact absurd hself (by simp)
    · unfold away at hy
      split at hy
      · rename_i hcovered
        exact hnot hcovered hy
      · by_cases hunder : Under y d.rel
        · obtain ⟨tail, rfl⟩ := hunder
          rw [movedRel_append] at hy
          exact h.apart (List.prefix_append d.rel [x]) (hy ▸ List.prefix_append _ _)
        · rw [movedRel_of_not_under hunder] at hy
          exact hunder (hy ▸ List.prefix_append _ _)
  · rw [parent, List.dropLast_concat]
    exact (hnow.keys _).mpr (.inl rfl)
  · exact h.apart (List.prefix_append d.rel [x])
      (List.IsPrefix.trans (List.prefix_append _ _) hunder)

theorem children_accepted (h : Beside before d.rel new) {children : List Rel}
    (hchildren : ∀ child ∈ children, parent child = d.rel ∧ child ∈ before.keys)
    (hback : ∀ child ∈ back, parent child = d.rel) (hnodup : (children.reverse ++ back).Nodup)
    (hnow : Halfway before d new common back origins now) :
    ∃ after, runEach now (children.map fun child => .rename (new ++ child.drop d.rel.length) child)
      = some after := by
  induction children generalizing now back origins with
  | nil => exact ⟨now, rfl⟩
  | cons child rest ih =>
      obtain ⟨hparent, hmem⟩ := hchildren child List.mem_cons_self
      obtain ⟨x, rfl⟩ := child_eq h.rel_ne_nil hparent
      rw [List.reverse_cons, List.append_assoc, List.singleton_append] at hnodup
      have hleft : d.rel ++ [x] ∉ back := (List.nodup_cons.mp (List.Nodup.of_append_right hnodup)).1
      obtain ⟨next, hrename⟩ := child_accepted h hback hnow hmem hleft
      obtain ⟨origins', hnext⟩ :=
        halfway_step h (fun child hchild => hback child hchild ▸ under_parent child) hnow hrename
      obtain ⟨after, hrest⟩ :=
        ih (fun child hchild => hchildren child (List.mem_cons_of_mem _ hchild))
          (fun child hchild => (List.mem_cons.mp hchild).elim (· ▸ hparent)
            (hback child)) hnodup hnext
      refine ⟨after, ?_⟩
      rw [runEach, List.map_cons, List.foldlM_cons, List.drop_left, Command.run, hrename]
      exact hrest

theorem rest_accepted (h : Beside before d.rel new) (hd : d ∈ before) {renamed : Drive}
    (hrename : zfsRename before d.rel new = some renamed) {p : DatasetPlan} (hrel : p.rel = d.rel)
    (hcommon : p.common = some common) (hmem : common ∈ d.snaps.keys) {children : List Rel}
    (hchildren : ∀ child ∈ children, parent child = d.rel ∧ child ∈ before.keys)
    (hnodup : children.Nodup) :
    ∃ after, runEach renamed (Branching.restCommands p new children) = some after := by
  obtain ⟨cloned, promoted, hclone, hpromote⟩ := clone_accepted h hd hrename hmem
  obtain ⟨origins, hstart⟩ := halfway_start h hd hrename hclone hpromote
  obtain ⟨after, hafter⟩ := children_accepted h hchildren (by simp) (by simpa using hnodup) hstart
  refine ⟨after, ?_⟩
  rw [Branching.restCommands, hrel, hcommon, Option.getD_some, runEach, List.foldlM_cons,
    Command.run, hclone, Option.bind_eq_bind, Option.bind_some, List.foldlM_cons,
    Command.run, hpromote]
  exact hafter

theorem away_eq (h : Beside before rel new) (hback : ∀ child ∈ back, parent child = rel)
    (hall : ∀ x ∈ before.keys, parent x = rel → x ∈ back) {x : Rel} (hx : x ∈ before.keys) :
    away rel new back x = if x = rel then new else x := by
  have hchild : ∀ child ∈ back, ∃ y, child = rel ++ [y] :=
    fun child hchild => child_eq h.rel_ne_nil (hback child hchild)
  unfold away
  by_cases hself : x = rel
  · subst hself
    have hnot : covered x back = false := by
      rw [← Bool.not_eq_true, covered_iff]
      rintro ⟨child, hmem, hunder⟩
      obtain ⟨y, rfl⟩ := hchild child hmem
      have := hunder.length_le
      rw [List.length_append, List.length_singleton] at this
      omega
    rw [if_neg (by simp [hnot]), if_pos rfl, movedRel_self]
  · rw [if_neg hself]
    split
    · rfl
    · rename_i hcovered
      refine movedRel_of_not_under fun hunder => hcovered ?_
      obtain ⟨tail, rfl⟩ := hunder
      cases tail with
      | nil => exact absurd (List.append_nil rel) hself
      | cons y tail =>
          have hsplit : rel ++ y :: tail = rel ++ [y] ++ tail := by
            rw [List.append_assoc, List.singleton_append]
          have hmem : rel ++ [y] ∈ before.keys :=
            h.closed.mem_of_under hx (hsplit ▸ List.prefix_append _ _) (by simp)
          exact covered_iff.mpr ⟨_, hall _ hmem List.dropLast_concat,
            hsplit ▸ List.prefix_append _ _⟩

/-- What the commands of a branch leave, all accepted: the lineage divided at the common snapshot,
and the rest as it was. -/
structure Divided (before : Drive) (d : Dest) (new : Rel) (common : String)
    (origins : SnapName → SnapName) (after : Drive) : Prop where
  closed : ParentClosed after.keys
  keys : ∀ y, y ∈ after.keys ↔ y ∈ before.keys ∨ y = new
  live : ∃ clone, after.get? d.rel
    = some { rel := d.rel, kind := d.kind, snaps := d.snaps.upTo common, cloneOf := clone }
  kept : after.get? new
    = some { d with rel := new, snaps := d.snaps.after common, cloneOf := some (d.rel, common) }
  others : ∀ e ∈ before, e.rel ≠ d.rel →
    after.get? e.rel = some { e with cloneOf := e.cloneOf.map origins }
  origins_eq : ∀ source : SnapName, source.1 ∈ before.keys →
    origins source = if source.1 = d.rel ∧ source.2 ∉ (d.snaps.upTo common).keys then (new,
      source.2) else source

theorem divided_of_run (h : Beside before d.rel new) (hd : d ∈ before) {children : List Rel}
    (hchildren : ∀ x, x ∈ children → parent x = d.rel)
    (hall : ∀ x ∈ before.keys, parent x = d.rel → x ∈ children) {renamed : Drive}
    (hrename : zfsRename before d.rel new = some renamed) {p : DatasetPlan} (hrel : p.rel = d.rel)
    (hcommon : p.common = some common)
    (hrun : runEach renamed (Branching.restCommands p new children) = some after) :
    ∃ origins, Divided before d new common origins after := by
  rw [Branching.restCommands, hrel, hcommon, Option.getD_some, runEach, List.foldlM_cons,
    Option.bind_eq_bind, Option.bind_eq_some_iff] at hrun
  obtain ⟨cloned, hclone, hrun⟩ := hrun
  rw [List.foldlM_cons, Option.bind_eq_bind, Option.bind_eq_some_iff] at hrun
  obtain ⟨promoted, hpromote, hrun⟩ := hrun
  obtain ⟨origins₀, hstart⟩ := halfway_start h hd hrename hclone hpromote
  obtain ⟨origins, hend⟩ := halfway_children h hchildren (by simp) hstart hrun
  rw [List.append_nil] at hend
  have haway : ∀ {x}, x ∈ before.keys → away d.rel new children.reverse x =
      if x = d.rel then new else x := fun hx =>
    away_eq h (fun child hchild => hchildren child (List.mem_reverse.mp hchild))
      (fun x hx hparent => List.mem_reverse.mpr (hall x hx hparent)) hx
  refine ⟨origins, hend.closed, fun y => ?_, hend.live, hend.kept, fun e he hne => ?_,
    fun source hsource => ?_⟩
  · rw [hend.keys]
    constructor
    · rintro (rfl | ⟨x, hx, rfl⟩)
      · exact .inl h.held
      · rw [haway hx]
        split
        · exact .inr rfl
        · exact .inl hx
    · rintro (hy | rfl)
      · by_cases hself : y = d.rel
        · exact .inl hself
        · exact .inr ⟨y, hy, by rw [haway hy, if_neg hself]⟩
      · exact .inr ⟨d.rel, h.held, by rw [haway h.held, if_pos rfl]⟩
  · have hother := hend.others e he hne
    rwa [haway (Keyed.key_mem_keys he), if_neg hne] at hother
  · obtain ⟨owner, name⟩ := source
    rw [hend.origins_eq (owner, name) hsource, haway hsource]
    by_cases hown : owner = d.rel <;> by_cases hname : name ∈ (d.snaps.upTo common).keys <;>
      simp [hown, hname]

end Halfway

/-! ### The other datasets, whatever fails -/

/-- Each dataset but the lineage and its archive is one of before, under its name or below the
archive. -/
def Stems (before : Drive) (rel new : Rel) (now : Drive) : Prop :=
  ∀ e ∈ now, e.rel = rel ∨ e.rel = new ∨ ∃ b ∈ before, b.snaps = e.snaps ∧
    (e.rel = b.rel ∨ e.rel = movedRel rel new b.rel)

section Stems

variable {before drive after : Drive} {rel new : Rel} {common : String}

theorem stems_clone (h : Stems before rel new drive)
    (hclone : zfsClone drive (new, common) rel = some after) : Stems before rel new after := by
  obtain ⟨o, -, -, -, hpush⟩ := zfsClone_spec hclone
  intro e he
  obtain he | rfl := (Keyed.mem_push? hpush).mp he
  · exact h e he
  · exact .inl rfl

theorem stems_promote {cloned : Drive} (h : Stems before rel new cloned)
    (hclone : zfsClone drive (new, common) rel = some cloned)
    (hpromote : zfsPromote cloned rel = some after) : Stems before rel new after := by
  obtain ⟨held, -, -, -, hpush⟩ := zfsClone_spec hclone
  obtain ⟨clone, source, o, snaps, hclone', hsource, -, -, -, rfl⟩ := zfsPromote_spec hpromote
  have hget : cloned.get? rel = some { rel, kind := held.kind, cloneOf := some (new, common) } :=
    Keyed.get?_eq_some_iff.mpr ⟨(Keyed.mem_push? hpush).mpr (.inr rfl), rfl⟩
  obtain rfl := Option.some.inj (hget.symm.trans hclone')
  obtain rfl : (new, common) = source := Option.some.inj hsource
  intro e hmem
  obtain ⟨e, he, rfl⟩ := Keyed.mem_map.mp hmem
  rw [Dest.promoted_rel]
  unfold Dest.promoted
  split
  · rename_i hrel
    exact .inl hrel
  · split
    · rename_i hnew
      exact .inr (.inl hnew)
    · exact h e he

theorem stems_child (hbeside : Beside before rel new) (h : Stems before rel new drive) {x : String}
    (hchild : zfsRename drive (new ++ [x]) (rel ++ [x]) = some after) :
    Stems before rel new after := by
  intro e hmem
  obtain ⟨e, he, rfl⟩ := (mem_zfsRename hchild).mp hmem
  by_cases hunder : Under e.rel (new ++ [x])
  · have hnew : Under e.rel new := List.IsPrefix.trans (List.prefix_append _ _) hunder
    obtain hrel | hself | ⟨b, hb, hsnaps, hplace⟩ := h e he
    · exact absurd hnew (hbeside.apart (hrel ▸ List.prefix_rfl))
    · have := hunder.length_le
      rw [hself, List.length_append, List.length_singleton] at this
      omega
    · refine .inr (.inr ⟨b, hb, hsnaps, .inl ?_⟩)
      have hout := hbeside.not_under_new (Keyed.key_mem_keys hb)
      by_cases hbrel : Under b.rel rel
      · obtain ⟨tail, htail⟩ := hbrel
        obtain hplace | hplace := hplace
        · exact absurd (hplace ▸ hnew) hout
        · rw [← htail, movedRel_append] at hplace
          obtain ⟨rest, rfl⟩ := (List.prefix_append_right_inj new).mp (hplace ▸ hunder)
          change movedRel (new ++ [x]) (rel ++ [x]) e.rel = _
          rw [hplace, ← List.append_assoc, movedRel_append, List.append_assoc, htail]
      · rw [movedRel_of_not_under hbrel, or_self] at hplace
        exact absurd (hplace ▸ hnew) hout
  · have hsame : (e.moved (new ++ [x]) (rel ++ [x])).rel = e.rel := movedRel_of_not_under hunder
    rw [hsame]
    exact h e he

end Stems

section Elsewhere

variable {fails : ℕ → Bool} {day : ℕ → String} {st : Branching} {p : DatasetPlan}

theorem beside_of_canRename (hst : ParentClosed st.drive.keys)
    (hcan : CanRename st.drive p.rel (archiveName p.rel st.known (day st.given))) :
    Beside st.drive p.rel (archiveName p.rel st.known (day st.given)) :=
  have hfacts := archiveName_facts (hst p.rel hcan.source).1 st.known (day st.given)
  ⟨hst, hcan.source, hcan.target.absent, hfacts.2.1, hfacts.2.2.2.1⟩

theorem stems_branch (hst : ParentClosed st.drive.keys) (hrel : p.rel ≠ []) :
    Stems st.drive p.rel (archiveName p.rel st.known (day st.given))
      (st.branch fails day p).2.drive := by
  refine branch_rule rfl hrel (fun b hb => .inr (.inr ⟨b, hb, rfl, .inl rfl⟩)) fun hrename =>
    ⟨fun e he => ?_, ?_⟩
  · obtain ⟨b, hb, rfl⟩ := (mem_zfsRename hrename).mp he
    exact .inr (.inr ⟨b, hb, rfl, .inr rfl⟩)
  · exact ⟨stems_clone, stems_promote, fun h hchild =>
      stems_child (beside_of_canRename hst (zfsRename_spec hrename).1) h hchild⟩

theorem held_before (hst : ParentClosed st.drive.keys) (hrel : p.rel ≠ []) {e : Dest}
    (he : e ∈ (st.branch fails day p).2.drive) (hne : e.rel ≠ p.rel)
    (hout : ¬Under e.rel (archiveName p.rel st.known (day st.given))) :
    ∃ b ∈ st.drive, b.rel = e.rel ∧ b.snaps = e.snaps := by
  obtain hself | hnew | ⟨b, hb, hsnaps, hplace⟩ := stems_branch hst hrel e he
  · exact absurd hself hne
  · exact absurd (hnew ▸ List.prefix_rfl) hout
  · refine ⟨b, hb, ?_, hsnaps⟩
    by_cases hunder : Under b.rel p.rel
    · obtain ⟨tail, htail⟩ := hunder
      obtain hplace | hplace := hplace
      · exact hplace.symm
      · rw [← htail, movedRel_append] at hplace
        exact absurd (hplace ▸ List.prefix_append _ _) hout
    · rw [movedRel_of_not_under hunder, or_self] at hplace
      exact hplace.symm

/-- The listing in memory loses at most the dataset's name. -/
theorem mem_known_branch {x : Rel} (hx : x ∈ st.known) (hne : x ≠ p.rel) :
    x ∈ (st.branch fails day p).2.known := by
  have hrun : ∀ (commands : List Command) (now : Branching),
      (now.runAll fails commands).2.known = now.known := by
    intro commands
    induction commands with
    | nil => exact fun _ => rfl
    | cons c rest ih =>
        intro now
        unfold Branching.runAll
        split
        · rename_i next hsh
          rw [ih, (sh_true hsh).2]
        · rename_i next hsh
          exact (sh_false hsh).2
  simp only [Branching.branch, Branching.archive]
  cases hrename : st.sh fails (.rename p.rel (archiveName p.rel st.known (day st.given))) with
  | mk ok renamed =>
  cases ok with
  | false => exact (sh_false hrename).2 ▸ hx
  | true =>
      dsimp only
      rw [hrun, (sh_true hrename).2]
      exact List.mem_append_left _ ((List.mem_erase_of_ne hne).mpr hx)

end Elsewhere

end Zark
