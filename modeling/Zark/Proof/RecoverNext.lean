import Zark.Proof.RecoverAccount
import Zark.Proof.Rollback

/-!
# The backup after a recover

A recovered dataset carries the anchor of the drive it came from, so that drive's next plan of it
starts from what was restored, and a drive that carried a snapshot it was restored with starts
there: neither gets it again in full.
-/

namespace Zark.RecoverRun

open Hierarchy

/-- A plan that starts from the drive's newest snapshot, or goes back no further than `t`. -/
inductive Continues (d : Dest) (t : Ref) (p : DatasetPlan) : Prop
  | newest (hstate : p.state = .atPoint ∨ p.state.isIncremental = true)
  | back {before after : List Ref} (hstate : p.state = .rollback)
      (hitems : d.snaps.items = before ++ t :: after)
      (hnewer : p.newer <:+ after.map Ref.name)

section Plan

variable {o : Origin} {d : Dest} {point : String} {pt t : Ref}

/-- After the point was taken, a drive whose newest snapshot origin knows is continued from it. -/
theorem viaBookmark_of_knows (hpt : NewestPoint o point pt) {guid : String} (hknows : o.Knows guid)
    (hgone : o.snapByGuid guid = none) :
    viaBookmark o guid ≠ none := by
  have hnone : ∀ s ∈ o.snaps, s.guid ≠ guid :=
    fun s hs => by simpa using List.find?_eq_none.mp hgone s hs
  obtain ⟨s, hs, hguid⟩ | ⟨hbpool, b, hb, hguid⟩ := hknows
  · exact absurd hguid (hnone s hs)
  · cases hfind : o.bookmarkByGuid guid with
    | none => exact absurd hguid (bookmarkByGuid_eq_none.mp hfind b hb)
    | some bm =>
        obtain ⟨first, hvia, -⟩ :=
          viaBookmark_of_newestPoint hpt hbpool hfind (hnone pt hpt.mem).symm
        rw [hvia]
        exact Option.some_ne_none _

/-- The planner never gives up a copy that holds a snapshot origin knows, and never goes back past
it. -/
theorem continues_of_knows (hpt : NewestPoint o point pt) (htoken : d.token = "")
    (hwritten : d.written = 0) (ht : t ∈ d.snaps) (hknows : o.Knows t.guid) :
    Continues d t (planDataset o (some d) point) := by
  -- An older snapshot than the newest is below it, and a known one is not passed.
  have hbelow : ∀ newest, d.newest = some newest → o.snapByGuid newest.guid = none →
      viaBookmark o newest.guid = none →
      ∃ front, d.snaps.items = front ++ [newest] ∧ d.snaps.items.reverse.tail = front.reverse ∧
      t ∈ front.reverse := by
    intro newest hnewest hgone hvia
    obtain ⟨front, hfront⟩ := List.getLast?_eq_some_iff.mp hnewest
    refine ⟨front, hfront, by rw [hfront, List.reverse_append]; rfl, List.mem_reverse.mpr ?_⟩
    have ht : t ∈ front ++ [newest] := hfront ▸ ht
    obtain ht | ht := List.mem_append.mp ht
    · exact ht
    · obtain rfl := List.mem_singleton.mp ht
      exact absurd hvia (viaBookmark_of_knows hpt hknows hgone)
  have hbase : originBase o t.guid ≠ none := fun h => originBase_eq_none_iff.mp h hknows
  rw [planDataset_of_unwritten hwritten]
  have hspec := planUnwritten_spec o d point
  generalize planUnwritten o (some d) point = p at hspec ⊢
  cases hspec with
  | resume hpartial => exact absurd htoken hpartial
  | empty _ hnewest =>
      have hnil : d.snaps.items = [] := List.getLast?_eq_none_iff.mp hnewest
      rw [Keyed.mem_def, hnil] at ht
      cases ht
  | atPoint => exact .newest (.inl rfl)
  | incremental => exact .newest (.inr rfl)
  | viaBookmark => exact .newest (.inr rfl)
  | rollback _ hnewest hgone hvia hcommon =>
      rename_i newest s base newer _
      obtain ⟨front, hfront, htail, hmem⟩ := hbelow _ hnewest hgone hvia
      rw [htail] at hcommon
      obtain ⟨passed, older, hsplit, -, hpassed, rfl⟩ := findCommon_eq_some hcommon
      have hrest : t ∈ s :: older := by
        rw [hsplit] at hmem
        obtain hmem | hmem := List.mem_append.mp hmem
        · exact absurd (hpassed t hmem) hbase
        · exact hmem
      obtain ⟨above, below, hmiddle⟩ := List.append_of_mem hrest
      have hitems : d.snaps.items = below.reverse ++
          t :: (above.reverse ++ (passed.reverse ++ [newest])) := by
        have hfront' : front = (passed ++ (above ++ t :: below)).reverse := by
          rw [← hmiddle, ← hsplit, List.reverse_reverse]
        rw [hfront, hfront']
        simp
      refine .back rfl hitems ?_
      exact (List.suffix_append above.reverse _).map Ref.name
  | diverged _ hnewest hgone hvia hcommon =>
      obtain ⟨front, -, htail, hmem⟩ := hbelow _ hnewest hgone hvia
      rw [htail] at hcommon
      exact absurd (findCommon_eq_none_iff.mp hcommon t hmem) hbase

end Plan

section Recovered

variable {q : RecoverRequest} {w : Recovering} {row : BasedRow}

/-- A row that arrived and whose anchor is not said to be missing has it. -/
theorem anchored_of_account {drive : Drive} {disk : DiskGuid} {be : Rel} {listed : Bool}
    {tops : List Rel} {snap : Snap} {e : Entry}
    (h : RowAccount drive disk be listed tops row snap e) (hlost : .receiveFailed row.rel ∉ e.told)
    (hanchor : .notAnchored row.rel ∉ e.told) :
    ∃ o x snaps left lines, e.dataset = some o ∧ ArrivedAs row snap snaps left lines ∧
    lines ⊆ e.told ∧ Holds drive row.rel snaps o ∧
        Anchored disk left o x := by
  obtain ⟨lines, hend, -, htold⟩ := h.told
  have hsub : lines ⊆ e.told :=
    fun line hline => htold ▸ List.mem_append_left _ (List.mem_append_left _ hline)
  generalize e.dataset = dataset at hend
  cases hend with
  | lost => exact absurd (hsub List.mem_cons_self) hlost
  | anchored harrived hholds hanchored =>
      exact ⟨_, _, _, _, _, rfl, harrived, hsub, hholds, hanchored⟩
  | unanchored => exact absurd (hsub (List.mem_append_right _ List.mem_cons_self)) hanchor

/-- The drive's row of a dataset origin still has is the plan of what the drive holds live under its
name. -/
theorem planDataset_of_row {origin : Origins} {dest : Drive} {point : String} {skip : List Rel}
    {p : DatasetPlan} {o : Origin} {d : Dest} (hp : p ∈ plan origin dest point skip)
    (hexcluded : p.state ≠ .excluded) (horphan : p.state ≠ .orphan)
    (ho : origin.get? p.rel = some o) (hd : dest.get? p.rel = some d) :
    p = planDataset o (some d) point := by
  obtain ⟨o', ho', hexpected, rfl⟩ := mem_plan_expected hp hexcluded horphan
  rw [planExpected_rel] at ho hd
  obtain rfl := Option.some.inj (ho'.symm.trans ho)
  exact planExpected_of_held ((get?_liveDatasets (isArchived_of_isExpected hexpected)).trans hd)

/-- What is recovered goes on being backed up: a dataset whose anchor the summary does not miss is
continued by every drive that holds live, under its name, the snapshot it was left at, as the drive
it came from does where it came from the live copy, however origin goes on while it keeps that
anchor; and by every drive that so holds a snapshot origin still has of those it was restored with.
-/
theorem recovered_continues (q : RecoverRequest) (drive : Drive) (answers : List Answer)
    (w : Recovering) (h : q.recover { drive, answers } = .ok w) (row : BasedRow)
    (hrow : row ∈ q.rpoolRows) (hne : row.rel ≠ keystore)
    (hlost : .receiveFailed row.rel ∉ w.errors) (hanchor : .notAnchored row.rel ∉ w.errors) :
    ∃ o left t, w.pools.get? row.rel = some o ∧
    (row.snap = some left ∨ row.base = some left ∧ .leftAtBase row.rel left.name ∈ w.errors) ∧
      heldRef drive left = some t ∧
      (left.stored = row.rel → ∃ d, drive.get? row.rel = some d ∧ t ∈ d.snaps) ∧
      (∃ b ∈ o.bookmarks, b.name = RecoverCommands.anchorFor q.disk left ∧ b.guid = t.guid) ∧
      ∀ origin dest point skip p o' pt d s, p ∈ plan origin dest point skip → p.rel = row.rel →
      p.state ≠ .excluded → p.state ≠ .orphan →
        origin.get? row.rel = some o' → NewestPoint o' point pt → dest.get? row.rel = some d →
        s ∈ d.snaps → d.token = "" → d.written = 0 →
        (s.guid = t.guid ∧ (∃ b ∈ o'.bookmarks, b.guid = t.guid) ∨
          (∃ x ∈ o.snaps, x.guid = s.guid) ∧ ∃ y ∈ o'.snaps, y.guid = s.guid) →
          Continues d s p := by
  obtain ⟨snap, hsnap, haccount⟩ := (accounts_of_recover h).rows row hrow hne
  have hmem : ∀ e, e ∈ (w.entry row.rel).told → e ∈ w.errors :=
    fun e he => List.mem_of_mem_filter he
  obtain ⟨o, x, snaps, left, lines, ho, harrived, hlines, hholds, hanchored⟩ :=
    anchored_of_account haccount (fun he => hlost (hmem _ he)) (fun he => hanchor (hmem _ he))
  obtain ⟨x', hnewest, ⟨t, ht, -, hguid, -⟩, -⟩ := harrived.newest hholds
  obtain rfl := Option.some.inj (hanchored.newest.symm.trans hnewest)
  have hbookmark : { x with name := RecoverCommands.anchorFor q.disk left } ∈ o.bookmarks := by
    rw [Keyed.mem_def, hanchored.bookmarks]
    exact List.mem_cons_self
  refine ⟨o, left, t, ho, ?_, ht, fun hstored => ?_, ⟨_, hbookmark, rfl, hguid⟩, ?_⟩
  · cases harrived with
    | point => exact .inl hsnap
    | base hbase => exact .inr ⟨hbase, hmem _ (hlines List.mem_cons_self)⟩
  · obtain ⟨d, hd, ht⟩ := Option.bind_eq_some_iff.mp ht
    exact ⟨d, hstored ▸ hd, (Keyed.get?_eq_some_iff.mp ht).1⟩
  · intro origin dest point skip p o' pt d s hp hrel hexcluded horphan ho' hpt hd hs htoken
      hwritten hknown
    rw [planDataset_of_row hp hexcluded horphan (hrel ▸ ho') (hrel ▸ hd)]
    have hknows : o'.Knows s.guid := by
      obtain ⟨hsame, hkept⟩ | ⟨-, hkept⟩ := hknown
      · have hrpool : isBpool o'.rel = false := by
          obtain ⟨rest, hrest⟩ := (mem_rpoolRows hrow).2.1
          rw [Keyed.key_of_get? ho', ← hrest]
          simp [isBpool, Under]
        exact .inr ⟨hrpool, hsame ▸ hkept⟩
      · exact .inl hkept
    exact continues_of_knows hpt htoken hwritten hs hknows

/-- The restored root a month later: the point's snapshot is gone, its anchor is kept. -/
def nextPoint : Ref := ⟨"zark_2026-04-01_00:00:00Z", "9", 50, 200⟩

def laterRoot : Origin where
  rel := ["rpool", "ROOT", "ubuntu"]
  snaps := ⟨[nextPoint], by decide⟩
  bookmarks :=
    ⟨[{ refOf rootSnap with name := RecoverCommands.anchorFor homeRequest.disk rootSnap, createtxg := 0 }], by decide⟩

def laterOrigin : Origins := ⟨[laterRoot], by decide⟩

theorem recovered_continues_root : ∃ p d t, p ∈ plan laterOrigin homeDrive nextPoint.name [] ∧
    p.rel = ["rpool", "ROOT", "ubuntu"] ∧
    homeDrive.get? ["rpool", "ROOT", "ubuntu"] = some d ∧ heldRef homeDrive rootSnap = some t ∧
    Continues d t p := by
  have hran : (homeRequest.recover { drive := homeDrive }).toOption.map Recovering.errors
      = some [.noBpool] := by decide +kernel
  obtain ⟨w, hw, herrors⟩ := Option.map_eq_some_iff.mp hran
  obtain ⟨row, hrow, hrel, hsnap, hbase⟩ : ∃ row, row ∈ homeRequest.rpoolRows ∧
      row.rel = ["rpool", "ROOT", "ubuntu"] ∧ row.snap = some rootSnap ∧
      row.base = none := by
    decide +kernel
  obtain ⟨o, left, t, -, hleft, ht, hlive, -, hnext⟩ :=
    recovered_continues homeRequest homeDrive [] w (Except.toOption_eq_some.mp hw) row hrow
      (by rw [hrel]; decide)
    (by simp [herrors]) (by simp [herrors])
  obtain hleft | ⟨hleft, -⟩ := hleft
  · obtain rfl := Option.some.inj (hsnap.symm.trans hleft)
    rw [hrel] at hlive hnext
    obtain ⟨d, hd, hheld⟩ := hlive rfl
    obtain ⟨p, hp, hprel, hexcluded, horphan⟩ : ∃ p ∈ plan laterOrigin homeDrive nextPoint.name [],
        p.rel = ["rpool", "ROOT", "ubuntu"] ∧
        p.state ≠ .excluded ∧ p.state ≠ .orphan := by
      decide +kernel
    obtain rfl :=
      Option.some.inj ((rfl : homeDrive.get? ["rpool", "ROOT", "ubuntu"] = some _).symm.trans hd)
    obtain rfl :=
      Option.some.inj ((rfl : heldRef homeDrive rootSnap = some (refOf rootSnap)).symm.trans ht)
    have hpoint : NewestPoint laterRoot nextPoint.name nextPoint :=
      ⟨rfl, by decide, by decide, by decide⟩
    exact ⟨p, _, _, hp, hprel, hd, ht, hnext laterOrigin homeDrive nextPoint.name [] p laterRoot
      nextPoint _ _ hp hprel hexcluded horphan
      rfl hpoint hd hheld rfl rfl (.inl ⟨rfl, _, List.mem_cons_self, rfl⟩)⟩
  · rw [hbase] at hleft
    cases hleft

end Recovered

end Zark.RecoverRun
