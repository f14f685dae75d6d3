import Zark.Proof.RecoverRun

/-!
# The account of a recover

The stages of `run` put together: whatever commands fail, each dataset of the table ends in one of
the ways its own commands allow, the summary names exactly what is not as the point had it, and it
names nothing else.
-/

namespace Zark.RecoverRun

open Hierarchy RestoreRequest

/-! ### The keystore -/

/-- The keystore zvol, with no snapshot that is not the one it was sent from. -/
structure KeystoreHeld (drive : Drive) (snap : Snap) (o : Origin) : Prop where
  kind : o.kind = .volume
  snaps : ∀ s ∈ o.snaps.items, Carries drive snap s

section Keystore

variable {w w' : Recovering} {snap : Snap}

theorem keystore_received {pools pools' : Origins} {drive : Drive}
    (h : (sendSnap drive snap none).bind
      (fun stream => (receiveStream keystore stream pools).map fun pools =>
      (pools.get? keystore).elim pools fun o => pools.set
      { o with kind := .volume }) = some pools') :
    (∀ k, k ≠ keystore → pools'.get? k = pools.get? k) ∧ ∃ o, pools'.get? keystore = some o ∧
        KeystoreHeld drive snap o := by
  obtain ⟨stream, hstream, h⟩ := Option.bind_eq_some_iff.mp h
  obtain ⟨mid, hmid, rfl⟩ := Option.map_eq_some_iff.mp h
  have hreceived : (sendSnap drive snap none).bind (receiveStream keystore · pools) = some mid := by
    rw [hstream, Option.bind_some, hmid]
  obtain ⟨-, o, ho, hfresh⟩ := received_full hreceived
  have hother := touches_receiveStream keystore stream pools mid hmid
  rw [ho, Option.elim_some]
  have hset : ∀ k, k ≠ keystore → (mid.set { o with kind := .volume }).get? k = mid.get? k :=
    fun k hk => Keyed.get?_set_of_ne (hfresh.rel.symm ▸ hk)
  refine ⟨fun k hk => (hset k hk).trans (hother k hk), { o with kind := .volume },
    Keyed.get?_set_of_get? ho hfresh.rel, rfl, fun s hs => ?_⟩
  obtain ⟨x, rest, hx, hrest, hitems⟩ := List.forall₂_cons_left_iff.mp hfresh.snaps
  obtain rfl := List.forall₂_nil_left_iff.mp hrest
  have hs : s ∈ o.snaps.items := hs
  rw [hitems, List.mem_singleton] at hs
  exact hs ▸ hx

theorem keystoreHeld_of_restoreKeystore (h : restoreKeystore snap w = .ok w') :
    (∀ k, k ≠ keystore → w'.entry k = w.entry k) ∧ (w'.entry keystore).told =
    (w.entry keystore).told ∧
      ∃ o, (w'.entry keystore).dataset = some o ∧ KeystoreHeld w.drive snap o := by
  rw [restoreKeystore] at h
  split at h
  · rename_i w₁ hrun
    obtain rfl := Except.ok.inj h
    have htold := told_of_run (k := keystore) hrun
    obtain ⟨pools, heffect, rfl⟩ := done_of_run hrun
    obtain ⟨hother, hheld⟩ := keystore_received heffect
    refine ⟨fun k hk => ?_, htold, hheld⟩
    rw [entry_pools, hother k hk]
    rfl
  · cases h

theorem dropPrepareSnapshot_spec (snap : Snap) (w : Recovering) :
    (∀ k, k ≠ keystore → (dropPrepareSnapshot snap w).entry k = w.entry k) ∧
      ((dropPrepareSnapshot snap w).entry keystore).told = (w.entry keystore).told ∧
      ∀ drive o, (w.entry keystore).dataset = some o → KeystoreHeld drive snap o →
        ∃ o', ((dropPrepareSnapshot snap w).entry keystore).dataset = some o' ∧
        KeystoreHeld drive snap o' := by
  rw [dropPrepareSnapshot]
  split
  · refine ⟨fun k hk => entry_run (touches_cmd (.destroySnap keystore snap.name)) hk, told_run w _,
      fun drive o ho hheld => ?_⟩
    obtain ⟨pools, -, heffect, hrun⟩ | ⟨-, hrun⟩ :=
      run_cases w (Cmd.apply · (.destroySnap keystore snap.name))
    · rw [hrun]
      obtain ⟨o₁, o', ho₁, heffect, ho', -⟩ := Cmd.apply_spec heffect
      obtain rfl : o = o₁ := Option.some.inj (ho.symm.trans ho₁)
      cases heffect with
      | destroySnap hname =>
          exact ⟨_, ho', hheld.kind, fun s hs => hheld.snaps s (Keyed.mem_filter.mp hs).1⟩
    · rw [hrun]
      exact ⟨o, ho, hheld⟩
  · exact ⟨fun _ _ => rfl, rfl, fun drive o ho hheld => ⟨o, ho, hheld⟩⟩

end Keystore

/-! ### The rows -/

/-- Where the snapshot of a row comes from. -/
def Sourced (r : RestoreRequest) (row : RestoreRow) : Prop :=
  row.snap = if row.empty then none else r.resolved row.rel

section Rows

variable {r : RestoreRequest} {q : RecoverRequest}

theorem sourced_planRow {st : Planning} {ds : Rel} (h : ∀ row ∈ st.rows, Sourced r row) :
    ∀ row ∈ (planRow r st ds).rows, Sourced r row := by
  rw [planRow]
  split
  · rw [addExcluded]
    split
    · split
      · exact List.forall_mem_append.mpr ⟨h, List.forall_mem_singleton.mpr rfl⟩
      · split
        · refine List.forall_mem_map.mpr fun row hrow => ?_
          split <;> exact h row hrow
        · exact h
    · exact h
  · rw [addRow]
    split
    · exact List.forall_mem_append.mpr ⟨h, List.forall_mem_singleton.mpr rfl⟩
    · rename_i snap above hjudged
      exact List.forall_mem_append.mpr ⟨h,
        List.forall_mem_singleton.mpr (judgeRow_inr hjudged).2.1.symm⟩

theorem sourced_buildPlan (r : RestoreRequest) : ∀ row ∈ buildPlan r, Sourced r row := by
  have hrun : ∀ (l : List Rel) (st : Planning), (∀ row ∈ st.rows, Sourced r row) →
      ∀ row ∈ (l.foldl (planRow r) st).rows, Sourced r row := by
    intro l
    induction l with
    | nil => exact fun st h => h
    | cons ds l ih => exact fun st h => ih _ (sourced_planRow h)
  exact hrun r.wanted (planStart r) (by simp [planStart])

theorem not_empty_of_restored {row : RestoreRow} (hrow : row ∈ buildPlan r)
    (h : row.restored = true) : row.empty = false := by
  have hsourced := sourced_buildPlan r row hrow
  cases hempty : row.empty with
  | false => rfl
  | true =>
      rw [Sourced, hempty, if_pos rfl] at hsourced
      simp [RestoreRow.restored, hsourced] at h

theorem rows_toRestoreRow (q : RecoverRequest) :
    q.rows.map BasedRow.toRestoreRow = buildPlan q.restore := by
  have hplan : (planBases q.measured (buildPlan q.restore) q.restore.snaps).map
      BasedRow.toRestoreRow = buildPlan q.restore := by
    rw [planBases, List.map_map]
    exact List.map_id _
  rw [RecoverRequest.rows]
  split
  · exact hplan
  · rw [dropBases, List.map_map]
    exact hplan

theorem mem_rows {row : BasedRow} (h : row ∈ q.rows) : row.toRestoreRow ∈ buildPlan q.restore :=
  rows_toRestoreRow q ▸ List.mem_map_of_mem h

theorem rels_rows (q : RecoverRequest) :
    q.rows.map (fun row => row.rel) = (buildPlan q.restore).map RestoreRow.rel := by
  rw [← rows_toRestoreRow q, List.map_map]
  rfl

theorem nodup_rows (q : RecoverRequest) : (q.rows.map fun row => row.rel).Nodup := by
  rw [rels_rows, rels_buildPlan]
  exact (nodup_wanted q.restore).filter _

theorem row_eq_of_rel {row row' : BasedRow} (hrow : row ∈ q.rows) (hrow' : row' ∈ q.rows)
    (h : row.rel = row'.rel) : row = row' :=
  List.inj_on_of_nodup_map (nodup_rows q) hrow hrow' h

theorem not_created_of_row {row : BasedRow} (h : row ∈ q.rows) : row.rel ∉ created := by
  have hrel : row.rel ∈ (buildPlan q.restore).map RestoreRow.rel := List.mem_map_of_mem (mem_rows h)
  rw [rels_buildPlan] at hrel
  exact not_created_of_wanted (List.mem_filter.mp hrel).1

theorem mem_rpoolRows {row : BasedRow} (h : row ∈ q.rpoolRows) :
    row ∈ q.rows ∧ Under row.rel ["rpool"] ∧ row.restored = true := by
  obtain ⟨hrow, h⟩ := List.mem_filter.mp h
  obtain ⟨hunder, hrestored⟩ := Bool.and_eq_true_iff.mp h
  exact ⟨hrow, (of_decide_eq_true hunder).1, hrestored⟩

theorem mem_emptyRows {row : BasedRow} (h : row ∈ q.emptyRows) : row ∈ q.rows ∧ row.empty = true :=
  List.mem_filter.mp h

theorem not_mem_emptyRows {row : BasedRow} (hrow : row ∈ q.rows) (h : row.restored = true) :
    row.rel ∉ q.emptyRows.map fun row => row.rel := by
  intro hmem
  obtain ⟨other, hother, hrel⟩ := List.mem_map.mp hmem
  obtain ⟨hother, hempty⟩ := mem_emptyRows hother
  obtain rfl := row_eq_of_rel hother hrow hrel
  have hfalse := not_empty_of_restored (mem_rows hrow) h
  rw [hempty] at hfalse
  cases hfalse

theorem not_mem_rpoolRows {row : BasedRow} (hrow : row ∈ q.rows) (h : row.empty = true) :
    row.rel ∉ q.rpoolRows.map fun row => row.rel := by
  intro hmem
  obtain ⟨other, hother, hrel⟩ := List.mem_map.mp hmem
  obtain ⟨hother, -, hrestored⟩ := mem_rpoolRows hother
  obtain rfl := row_eq_of_rel hother hrow hrel
  have hfalse := not_empty_of_restored (mem_rows hother) hrestored
  rw [h] at hfalse
  cases hfalse

end Rows

/-! ### The stages -/

/-- The pools and their containers are there, and nothing else. -/
structure Opened (drive : Drive) (w : Recovering) : Prop where
  drive : w.drive = drive
  fresh : ∀ k, k ∉ created → w.entry k = {}
  quiet : ∀ k, ∃ dataset, w.entry k = { dataset }

section Stages

variable {w w' : Recovering} {drive : Drive} {rel k : Rel} {q : RecoverRequest}
  {effect : Origins → Option Origins}

theorem entry_run_dataset (w : Recovering) (effect : Origins → Option Origins) (k : Rel) :
    ∃ dataset, (w.run effect).2.entry k = { w.entry k with dataset } := by
  obtain ⟨pools, -, -, hrun⟩ | ⟨-, hrun⟩ := run_cases w effect
  · exact ⟨pools.get? k, hrun ▸ entry_pools w pools k⟩
  · exact ⟨w.pools.get? k, hrun ▸ entry_answered w k⟩

theorem Opened.run (h : Opened drive w) (htouches : Touches rel effect) (hrel : rel ∈ created) :
    Opened drive (w.run effect).2 where
  drive := (drive_run w effect).trans h.drive
  fresh k hk := (entry_run htouches fun heq : k = rel => hk (heq ▸ hrel)).trans (h.fresh k hk)
  quiet k := by
    obtain ⟨dataset, hentry⟩ := entry_run_dataset w effect k
    obtain ⟨dataset', hquiet⟩ := h.quiet k
    exact ⟨dataset, hentry.trans (by rw [hquiet])⟩

theorem Opened.createPool (h : Opened drive w) {pool : String} (hpool : [pool] ∈ created)
    (hw' : w.createPool pool = .ok w') : Opened drive w' := by
  have htouches : Touches [pool] fun pools => pools.push? { rel := [pool] } :=
    fun pools pools' hpush k hk => Keyed.get?_push?_of_ne hpush hk
  have hopened := h.run htouches hpool
  rw [Recovering.createPool] at hw'
  split at hw'
  · rename_i w₁ hrun
    obtain rfl := Except.ok.inj hw'
    rwa [hrun] at hopened
  · cases hw'

theorem Opened.createContainer (h : Opened drive w) (hrel : rel ∈ created) :
    Opened drive (w.createContainer rel) :=
  h.run (touches_addDataset rel) hrel

/-- After the receives: keys, empty datasets and exclusions. -/
def RecoverRequest.furnish (q : RecoverRequest) (w : Recovering) : Recovering :=
  (q.restore.excluded.noSnapshot.foldl (excludeOne q.rows)
    (q.emptyRows.foldl createOne (restoreEncryptionRoot q.rootsListed w.answered))).answered

theorem recover_stages (h : q.recover w = .ok w') (hopened : Opened drive w) :
    ∃ w₀ w₁ w₂ w₃, Opened drive w₀ ∧ restoreRpoolRows q.rootDataset q.disk q.rpoolRows w₀ = .ok w₁ ∧
      q.restoreBoot (q.furnish w₁) = .ok w₂ ∧
      restoreKeystore q.keystoreSnap w₂ = .ok w₃ ∧
      w' = dropPrepareSnapshot q.keystoreSnap w₃.answered := by
  obtain ⟨wb, hbpool, h⟩ := Except.bind_eq_ok.mp h
  obtain ⟨wr, hrpool, h⟩ := Except.bind_eq_ok.mp h
  obtain ⟨w₁, hrows, h⟩ := Except.bind_eq_ok.mp h
  obtain ⟨we, hexported, h⟩ := Except.bind_eq_ok.mp h
  obtain ⟨wi, hreimported, h⟩ := Except.bind_eq_ok.mp h
  obtain ⟨w₂, hboot, h⟩ := Except.bind_eq_ok.mp h
  obtain ⟨w₃, hkeystore, h⟩ := Except.bind_eq_ok.mp h
  obtain ⟨w₄, hlast, h⟩ := Except.bind_eq_ok.mp h
  obtain rfl := mustSucceed_eq_ok hexported
  obtain rfl := mustSucceed_eq_ok hreimported
  obtain rfl := mustSucceed_eq_ok hlast
  have hb : Opened drive wb := by
    rw [RecoverRequest.createBpool] at hbpool
    split at hbpool
    · exact Except.ok.inj hbpool ▸ hopened
    · exact hopened.createPool (by decide) hbpool
  have hr : Opened drive (wr.createContainer ["rpool", "ROOT"]) :=
    (hb.createPool (by decide) hrpool).createContainer (by decide)
  refine ⟨_, w₁, w₂, w₃, ?_, hrows, hboot, hkeystore, (Except.ok.inj h).symm⟩
  split
  · exact hr.createContainer (by decide)
  · exact hr

theorem nodup_noSnapshot (m : PointMark) : m.noSnapshot.Nodup :=
  nodup_sortRels.mpr (m.tops.nodup.sublist (List.filter_sublist.map MarkTop.top))

/-- A dataset of which no row was restored is not touched by the pass over the tops. -/
theorem entry_foldl_excludeOne {rows : List BasedRow}
    (h : ∀ row ∈ rows, row.rel = k → row.restored = false) (tops : List Rel) (w : Recovering) :
    (tops.foldl (excludeOne rows) w).entry k = w.entry k := by
  induction tops generalizing w with
  | nil => rfl
  | cons top tops ih =>
      rw [List.foldl_cons, ih]
      by_cases hk : k = top
      · exact entry_excludeOne_of_not fun row hrow hrel => h row hrow (hrel.trans hk.symm)
      · exact (moves_excludeOne rows).other w top trivial k hk

/-- What the stage between the receives and the boot pool leaves of each kind of row, and of all
else. -/
theorem furnish_spec (q : RecoverRequest) (w : Recovering) : (q.furnish w).drive = w.drive ∧
    (∀ row ∈ q.rows, row.restored = true → (w.entry row.rel).setting = none →
        ((w.entry row.rel).ownRoot = true → (w.entry row.rel).dataset.isSome = true) →
      ∃ e, Rekeyed q.rootsListed row.rel (w.entry row.rel) e ∧
      Excluded q.restore.excluded.noSnapshot row.rel e ((q.furnish w).entry row.rel)) ∧
    (∀ row ∈ q.emptyRows, w.entry row.rel = {} → EmptyEnd row ((q.furnish w).entry row.rel)) ∧
    ∀ k, (∀ row ∈ q.rows, row.rel = k → row.restored = false ∧ row.empty = false) →
    (w.entry k).ownRoot = false →
      (q.furnish w).entry k = w.entry k := by
  obtain ⟨hdrive, hkeys⟩ := restoreEncryptionRoot_spec q.rootsListed w.answered
  have hcreate := moves_createOne
  refine ⟨?_, fun row hrow hrestored hnone hthere => ?_, fun row hrow hempty => ?_,
    fun k hk hown => ?_⟩
  · exact (drive_foldl (drive_excludeOne q.rows) _ _).trans
      ((drive_foldl drive_createOne _ _).trans hdrive)
  · have hkey := hkeys row.rel hthere
    have hcreated :=
      hcreate.foldl_other (s := restoreEncryptionRoot q.rootsListed w.answered) trivial
        (not_mem_emptyRows hrow hrestored)
    have hsetting :
        ((q.emptyRows.foldl createOne (restoreEncryptionRoot q.rootsListed w.answered)).entry
            row.rel).setting = none := by
      obtain ⟨own, -, -, hentry⟩ := hkey
      rw [hcreated, hentry]
      exact hnone
    have hexcluded :=
      excluded_foldl (nodup_noSnapshot q.restore.excluded) (nodup_rows q) hrow hrestored hsetting
    rw [hcreated] at hexcluded
    exact ⟨_, hkey, hexcluded⟩
  · obtain ⟨hrow', hrowEmpty⟩ := mem_emptyRows hrow
    have hnot : ∀ other ∈ q.rows, other.rel = row.rel → other.restored = false := by
      intro other hother hrel
      obtain rfl := row_eq_of_rel hother hrow' hrel
      cases hrestored : other.restored with
      | false => rfl
      | true => exact absurd (List.mem_map_of_mem hrow) (not_mem_emptyRows hother hrestored)
    have hnodup : (q.emptyRows.map fun row => row.rel).Nodup :=
      (nodup_rows q).sublist (List.filter_sublist.map _)
    obtain ⟨t, -, hview, hlast⟩ :=
      hcreate.foldl_own (s := restoreEncryptionRoot q.rootsListed w.answered) trivial hnodup hrow
    have hview : t.entry row.rel = {} := by
      obtain ⟨own, hown, -, hentry⟩ :=
        hkeys row.rel (by rw [entry_answered, hempty]; exact Bool.noConfusion)
      rw [entry_answered, hempty] at hentry hown
      obtain rfl : own = false := Bool.eq_false_iff.mpr fun h => Bool.noConfusion (hown h)
      rw [hview, hentry, keyLines, Bool.and_false]
      rfl
    have hfinal : (q.furnish w).entry row.rel = (createOne t row).entry row.rel :=
      (entry_foldl_excludeOne hnot _ _).trans hlast
    exact hfinal ▸ emptyEnd_createOne hview
  · have hempty : k ∉ q.emptyRows.map fun row => row.rel := by
      intro hmem
      obtain ⟨row, hrow, hrel⟩ := List.mem_map.mp hmem
      obtain ⟨hrow, hrowEmpty⟩ := mem_emptyRows hrow
      rw [(hk row hrow hrel).2] at hrowEmpty
      cases hrowEmpty
    obtain ⟨own, hown', -, hentry⟩ := hkeys k fun h => by rw [entry_answered, hown] at h; cases h
    obtain rfl : own = false := Bool.eq_false_iff.mpr fun h => by
      have hyes := hown' h
      rw [entry_answered, hown] at hyes
      cases hyes
    have hkept : (restoreEncryptionRoot q.rootsListed w.answered).entry k = w.entry k := by
      rw [hentry, keyLines, Bool.and_false, if_neg Bool.false_ne_true, List.append_nil,
        entry_answered, ← hown]
    exact (entry_foldl_excludeOne (fun row hrow hrel => (hk row hrow hrel).1) _ _).trans
      ((hcreate.foldl_other trivial hempty).trans hkept)

end Stages

/-! ### The account -/

/-- What becomes of a restored dataset, with its key and its exclusion, and all that is said of
it. -/
structure RowAccount (drive : Drive) (disk : DiskGuid) (be : Rel) (listed : Bool) (tops : List Rel)
    (row : BasedRow) (snap : Snap) (e : Entry) : Prop where
  key : e.ownRoot = true → e.dataset.isSome = true
  unlisted : listed = false → e.ownRoot = e.dataset.isSome
  setting : e.setting ≠ none → row.rel ∈ tops ∧ e.dataset.isSome = true ∧
    e.setting = flagged row.rel [.snapshot] none
  told : ∃ lines, RowEnd drive disk row snap e.dataset lines ∧
    (row.rel = be → lines ⊆ [.notAnchored row.rel]) ∧
    e.told = lines ++ keyLines listed row.rel e.ownRoot ++ exclusionLines tops row.rel e.setting

/-- What becomes of the boot pool, and all that is said of it. -/
inductive BpoolAccount (q : RecoverRequest) (drive : Drive) (w : Recovering) : Prop
  | ext4 (hext4 : q.ext4 = true) (htold : (w.entry ["bpool"]).told = [])
  | absent (hext4 : q.ext4 = false) (hrow : ∀ row, q.bpoolRow = some row →
      row.restored = false) (htold : (w.entry ["bpool"]).told = [.noBpool])
  | restored {row : BasedRow} {snap : Snap} {dataset : Option Origin} {lines : List RecoverError}
      (hext4 : q.ext4 = false)
      (hrow : q.bpoolRow = some row)
      (hrestored : row.restored = true) (hsnap : row.snap = some snap)
      (hend : BpoolEnd drive q.disk row snap dataset lines (w.entry ["bpool"]).told)
      (hentry : w.entry row.rel
        = { dataset, told := exclusionLines q.restore.excluded.noSnapshot row.rel none ++ lines })

/-- What a run leaves and what its summary says. -/
structure Accounts (q : RecoverRequest) (drive : Drive) (w : Recovering) : Prop where
  rows : ∀ row ∈ q.rpoolRows, row.rel ≠ keystore →
    ∃ snap, row.snap = some snap ∧ RowAccount drive q.disk q.rootDataset q.rootsListed
      q.restore.excluded.noSnapshot row snap (w.entry row.rel)
  empties : ∀ row ∈ q.emptyRows, row.rel ≠ keystore → EmptyEnd row (w.entry row.rel)
  bpool : BpoolAccount q drive w
  keystore : ∃ o, w.pools.get? keystore = some o ∧ KeystoreHeld drive q.keystoreSnap o
  others : ∀ e ∈ w.errors, e.rel = ["bpool"] ∨ ∃ row ∈ q.rows, e.rel = row.rel ∧
    (row.restored || row.empty) = true

section Account

variable {w w' : Recovering} {drive : Drive} {q : RecoverRequest} {listed : Bool} {tops : List Rel}
  {row : BasedRow} {snap : Snap}

theorem rowAccount_of_stages {disk : DiskGuid} {be : Rel} {dataset : Option Origin}
    {told : List RecoverError} {e e' : Entry} (hend : RowEnd drive disk row snap dataset told)
    (hroot : row.rel = be → told ⊆ [.notAnchored row.rel])
    (hkey : Rekeyed listed row.rel { dataset, ownRoot := dataset.isSome, told } e)
    (hexcluded : Excluded tops row.rel e e') :
    RowAccount drive disk be listed tops row snap e' := by
  obtain ⟨own, hown, hlisted, rfl⟩ := hkey
  obtain ⟨setting, hsetting, rfl⟩ := hexcluded
  exact ⟨hown, hlisted, hsetting, told, hend, hroot, rfl⟩

theorem mem_bpoolRow (h : q.bpoolRow = some row) :
    row ∈ q.rows ∧ row.rel = ["bpool", "BOOT", q.restore.be] :=
  ⟨List.mem_of_find?_eq_some h, by simpa using List.find?_some h⟩

theorem bpoolRow_not_rpool (h : q.bpoolRow = some row) :
    row.rel ∉ q.rpoolRows.map fun row => row.rel := by
  intro hmem
  obtain ⟨other, hother, hrel⟩ := List.mem_map.mp hmem
  have hunder := (mem_rpoolRows hother).2.1
  rw [hrel, (mem_bpoolRow h).2] at hunder
  simp [Under] at hunder

theorem snap_of_restored (h : row.restored = true) : ∃ snap, row.snap = some snap :=
  Option.isSome_iff_exists.mp (Bool.and_eq_true_iff.mp h).1

theorem restoreBpool_absent {disk : DiskGuid} {row? : Option BasedRow}
    (hrow : ∀ row, row? = some row → row.restored = false) (h : restoreBpool disk row? w = .ok w') :
    w' = w.report .noBpool := by
  have hnone : row?.filter (·.restored) = none := by
    cases row? with
    | none => rfl
    | some row => rw [Option.filter_some, hrow row rfl, if_neg Bool.false_ne_true]
  rw [restoreBpool, hnone] at h
  exact (Except.ok.inj h).symm

/-- The boot pool's stage: its account, and what it leaves of all else. -/
theorem restoreBoot_spec (h : q.restoreBoot w = .ok w') (hquiet : (w.entry ["bpool"]).told = [])
    (hentry : ∀ row, q.bpoolRow = some row → row.restored = true →
        w.entry row.rel = { told := exclusionLines q.restore.excluded.noSnapshot row.rel none }) :
    w'.drive = w.drive ∧ BpoolAccount q w.drive w' ∧ ∀ k, k ≠ ["bpool"] →
      (∀ row, q.bpoolRow = some row → row.restored = true → k ≠ row.rel) →
      (w'.entry k).told = (w.entry k).told ∧ (k ≠ ["bpool", "BOOT"] → w'.entry k = w.entry k) := by
  rw [RecoverRequest.restoreBoot] at h
  cases hext4 : q.ext4 with
  | true =>
      rw [hext4, if_pos rfl] at h
      obtain rfl := Except.ok.inj h
      exact ⟨rfl, .ext4 hext4 hquiet, fun _ _ _ => ⟨rfl, fun _ => rfl⟩⟩
  | false =>
      rw [hext4, if_neg Bool.false_ne_true] at h
      by_cases hrow : ∀ row, q.bpoolRow = some row → row.restored = false
      · have hw' := restoreBpool_absent hrow h
        have hsaid : (w'.entry ["bpool"]).told = [.noBpool] := by
          rw [hw', entry_report_self (show RecoverError.noBpool.rel = ["bpool"] from rfl), hquiet,
            List.nil_append]
        refine ⟨hw' ▸ rfl, .absent hext4 hrow hsaid, fun k hk _ => ?_⟩
        have hsame : w'.entry k = w.entry k :=
          hw' ▸ entry_report_of_ne (show k ≠ RecoverError.noBpool.rel from hk)
        exact ⟨congrArg Entry.told hsame, fun _ => hsame⟩
      · simp only [not_forall, Bool.not_eq_false] at hrow
        obtain ⟨row, hrow, hrestored⟩ := hrow
        obtain ⟨snap, hsnap⟩ := snap_of_restored hrestored
        obtain ⟨-, hrel⟩ := mem_bpoolRow hrow
        rw [hrow] at h
        have hleft :=
          bpoolLeft_of_restoreBpool hrestored hsnap (by simp [hrel]) (by simp [hrel])
            (hentry row hrow hrestored) h
        obtain ⟨dataset, lines, said, hend, hended, hsaid⟩ := hleft.ended
        rw [hquiet, List.nil_append] at hsaid
        refine ⟨hleft.drive, .restored hext4 hrow hrestored hsnap (hsaid ▸ hend) hended,
          fun k hk hother => ?_⟩
        have hne := hother row hrow hrestored
        refine ⟨?_, fun hboot => hleft.other k hne hk hboot⟩
        by_cases hboot : k = ["bpool", "BOOT"]
        · exact hboot ▸ hleft.boot
        · exact congrArg Entry.told (hleft.other k hne hk hboot)

theorem BpoolAccount.congr (h : BpoolAccount q drive w)
    (hsame : ∀ k, k ≠ keystore → w'.entry k = w.entry k) : BpoolAccount q drive w' := by
  have hbpool : w'.entry ["bpool"] = w.entry ["bpool"] := hsame _ (by decide)
  cases h with
  | ext4 hext4 htold => exact .ext4 hext4 (hbpool ▸ htold)
  | absent hext4 hrow htold => exact .absent hext4 hrow (hbpool ▸ htold)
  | restored hext4 hrow hrestored hsnap hend hentry =>
      refine .restored hext4 hrow hrestored hsnap (hbpool ▸ hend) ((hsame _ ?_).trans hentry)
      rw [(mem_bpoolRow hrow).2]
      simp [keystore]

/-- What the stages before the boot pool leave of each row, and of what no row is about. -/
structure Furnished (q : RecoverRequest) (drive : Drive) (w : Recovering) : Prop where
  kept : w.drive = drive
  rows : ∀ row ∈ q.rpoolRows, ∃ snap, row.snap = some snap ∧
    RowAccount drive q.disk q.rootDataset q.rootsListed q.restore.excluded.noSnapshot row snap
      (w.entry row.rel)
  empties : ∀ row ∈ q.emptyRows, EmptyEnd row (w.entry row.rel)
  boot : ∀ row, q.bpoolRow = some row → row.restored = true →
    w.entry row.rel = { told := exclusionLines q.restore.excluded.noSnapshot row.rel none }
  untold : ∀ k, (∀ row ∈ q.rows, row.rel = k → row.restored = false ∧ row.empty = false) →
    (w.entry k).told = []

theorem furnished (hopened : Opened drive w)
    (h : restoreRpoolRows q.rootDataset q.disk q.rpoolRows w = .ok w') :
    Furnished q drive (q.furnish w') := by
  have hnodup : (q.rpoolRows.map fun row => row.rel).Nodup :=
    (nodup_rows q).sublist (List.filter_sublist.map _)
  obtain ⟨hdrive, hother, hended⟩ := restoreRpoolRows_spec hnodup
    (fun row hrow => Option.isSome_iff_exists.mpr (snap_of_restored (mem_rpoolRows hrow).2.2))
    (fun row hrow => hopened.fresh _ (not_created_of_row (mem_rpoolRows hrow).1)) h
  rw [hopened.drive] at hdrive hended
  obtain ⟨hkept, hrestored, hempty, huntouched⟩ := furnish_spec q w'
  have hfresh : ∀ row ∈ q.rows, row.rel ∉ q.rpoolRows.map (fun row => row.rel) →
      w'.entry row.rel = {} := fun row hrow hnot =>
    (hother _ hnot).trans (hopened.fresh _ (not_created_of_row hrow))
  constructor
  case kept => exact hkept.trans hdrive
  case rows =>
    intro row hrow
    obtain ⟨hrow', -, hyes⟩ := mem_rpoolRows hrow
    obtain ⟨snap, hsnap⟩ := snap_of_restored hyes
    obtain ⟨dataset, told, hentry, hend, hroot⟩ := hended row hrow snap hsnap
    obtain ⟨e, hkey, hexcluded⟩ :=
      hrestored row hrow' hyes (by rw [hentry]) (by rw [hentry]; exact id)
    rw [hentry] at hkey
    exact ⟨snap, hsnap, rowAccount_of_stages hend hroot hkey hexcluded⟩
  case empties =>
    intro row hrow
    obtain ⟨hrow', hyes⟩ := mem_emptyRows hrow
    exact hempty row hrow (hfresh row hrow' (not_mem_rpoolRows hrow' hyes))
  case boot =>
    -- The boot pool's row was not received yet, so it has no key and no setting.
    intro row hrow hyes
    have hentry := hfresh row (mem_bpoolRow hrow).1 (bpoolRow_not_rpool hrow)
    obtain ⟨e, ⟨own, hown, -, rfl⟩, setting, hsetting, hexcluded⟩ :=
      hrestored row (mem_bpoolRow hrow).1 hyes (by rw [hentry])
        (by rw [hentry]; exact Bool.noConfusion)
    rw [hentry] at hown hsetting hexcluded
    obtain rfl : own = false := Bool.eq_false_iff.mpr fun h => Bool.noConfusion (hown h)
    obtain rfl : setting = none := by
      by_contra hne
      cases (hsetting hne).2.1
    rw [hexcluded, keyLines, Bool.and_false]
    rfl
  case untold =>
    intro k hk
    have hnot : k ∉ q.rpoolRows.map fun row => row.rel := by
      intro hmem
      obtain ⟨row, hrow, hrel⟩ := List.mem_map.mp hmem
      obtain ⟨hrow, -, hyes⟩ := mem_rpoolRows hrow
      rw [(hk row hrow hrel).1] at hyes
      cases hyes
    obtain ⟨dataset, hquiet⟩ := hopened.quiet k
    have hentry := (hother k hnot).trans hquiet
    rw [huntouched k hk (by rw [hentry]), hentry]

theorem accounts_of_recover {answers : List Answer} (h : q.recover { drive, answers } = .ok w) :
    Accounts q drive w := by
  have hopened : Opened drive { drive, answers } := ⟨rfl, fun _ _ => rfl, fun _ => ⟨none, rfl⟩⟩
  obtain ⟨w₀, w₁, w₂, w₃, hopened, hrows, hboot, hkeystore, rfl⟩ := recover_stages h hopened
  have hfurnished := furnished hopened hrows
  have hbpool : ((q.furnish w₁).entry ["bpool"]).told = [] :=
    hfurnished.untold _ fun row hrow hrel => absurd (hrel ▸ not_created_of_row hrow) (by decide)
  obtain ⟨hboot₂, haccount, hrest⟩ := restoreBoot_spec hboot hbpool hfurnished.boot
  rw [hfurnished.kept] at haccount hboot₂
  obtain ⟨hkeep, hkeepTold, o, ho, hheld⟩ := keystoreHeld_of_restoreKeystore hkeystore
  obtain ⟨hlast, hlastTold, hlastHeld⟩ := dropPrepareSnapshot_spec q.keystoreSnap w₃.answered
  have htail : ∀ k, k ≠ keystore →
      (dropPrepareSnapshot q.keystoreSnap w₃.answered).entry k = w₂.entry k :=
    fun k hk => (hlast k hk).trans (hkeep k hk)
  -- Past the boot pool nothing touches the other rows.
  have hended : ∀ row ∈ q.rows, row.rel ≠ keystore →
      (∀ other, q.bpoolRow = some other → other.restored = true → row.rel ≠ other.rel) →
      (dropPrepareSnapshot q.keystoreSnap w₃.answered).entry row.rel
        = (q.furnish w₁).entry row.rel := by
    intro row hrow hne hother
    have hapart : ∀ k ∈ created, row.rel ≠ k := fun k hk heq =>
      not_created_of_row hrow (heq ▸ hk)
    rw [htail _ hne]
    exact (hrest row.rel (hapart _ (by decide)) hother).2 (hapart _ (by decide))
  constructor
  case rows =>
    intro row hrow hne
    rw [hended row (mem_rpoolRows hrow).1 hne fun other hother _ heq =>
      bpoolRow_not_rpool hother (heq ▸ List.mem_map_of_mem hrow)]
    exact hfurnished.rows row hrow
  case empties =>
    intro row hrow hne
    rw [hended row (mem_emptyRows hrow).1 hne fun other hother hrestored heq =>
      not_mem_emptyRows (mem_bpoolRow hother).1 hrestored (heq ▸ List.mem_map_of_mem hrow)]
    exact hfurnished.empties row hrow
  case bpool => exact haccount.congr htail
  case keystore =>
    obtain ⟨o', ho', hheld'⟩ := hlastHeld w₂.drive o ho hheld
    rw [hboot₂] at hheld'
    exact ⟨o', ho', hheld'⟩
  case others =>
    intro e he
    by_contra hnot
    obtain ⟨hne, hnone⟩ := not_or.mp hnot
    have hrows : ∀ row ∈ q.rows, row.rel = e.rel → row.restored = false ∧ row.empty = false := by
      intro row hrow hrel
      rw [← Bool.or_eq_false_iff, ← Bool.not_eq_true]
      exact fun h => hnone ⟨row, hrow, hrel.symm, h⟩
    have htold : ((dropPrepareSnapshot q.keystoreSnap w₃.answered).entry e.rel).told
        = (w₂.entry e.rel).told := by
      by_cases hkey : e.rel = keystore
      · rw [hkey]
        exact hlastTold.trans hkeepTold
      · rw [htail _ hkey]
    have hboot := (hrest e.rel hne fun row hrow hyes heq => by
      have hno := (hrows row (mem_bpoolRow hrow).1 heq.symm).1
      rw [hyes] at hno
      cases hno).1
    have hmem : e ∈ ((dropPrepareSnapshot q.keystoreSnap w₃.answered).entry e.rel).told :=
      List.mem_filter.mpr ⟨he, by simp⟩
    rw [htold, hboot, hfurnished.untold _ hrows] at hmem
    cases hmem

/-- The boot environment is at its point, or the run has ended before. -/
theorem Accounts.root (h : Accounts q drive w) (hrow : row ∈ q.rpoolRows)
    (hroot : row.rel = q.rootDataset) :
    ∃ snap o, row.snap = some snap ∧ w.pools.get? row.rel = some o ∧
    Holds drive row.rel (row.base.toList ++ [snap]) o := by
  obtain ⟨snap, hsnap, haccount⟩ :=
    h.rows row hrow (by rw [hroot]; simp [RecoverRequest.rootDataset, Zark.keystore])
  obtain ⟨lines, hend, hsaid, -⟩ := haccount.told
  have hsaid := hsaid hroot
  have harrived : ∀ snaps left lines', ArrivedAs row snap snaps left lines' →
      lines' ⊆ [.notAnchored row.rel] →
      snaps = row.base.toList ++ [snap] := by
    intro snaps left lines' harrived hsub
    cases harrived with
    | point => rfl
    | base => exact absurd (hsub List.mem_cons_self) (by simp)
  generalize hdataset : (w.entry row.rel).dataset = dataset at hend
  cases hend with
  | lost => exact absurd (hsaid List.mem_cons_self) (by simp)
  | anchored harrivedAs hholds =>
      exact ⟨snap, _, hsnap, hdataset, harrived _ _ _ harrivedAs hsaid ▸ hholds⟩
  | unanchored harrivedAs hholds =>
      exact ⟨snap, _, hsnap, hdataset, harrived _ _ _ harrivedAs
        (List.Subset.trans (List.subset_append_left _ _) hsaid) ▸ hholds⟩

/-- What is said of the key of a row. -/
theorem RowAccount.keyNotChanged_iff {disk : DiskGuid} {be : Rel} {e : Entry}
    (h : RowAccount drive disk be listed tops row snap e) :
    .keyNotChanged row.rel ∈ e.told ↔ listed = true ∧ e.ownRoot = true := by
  obtain ⟨lines, hend, -, hsaid⟩ := h.told
  have hlines : .keyNotChanged row.rel ∉ lines := by
    have harrived : ∀ snaps left lines', ArrivedAs row snap snaps left lines' →
        .keyNotChanged row.rel ∉ lines' := by
      intro snaps left lines' harrived
      cases harrived <;> simp
    generalize e.dataset = dataset at hend
    cases hend with
    | lost => simp
    | anchored harrivedAs => exact harrived _ _ _ harrivedAs
    | unanchored harrivedAs =>
        have hnot := harrived _ _ _ harrivedAs
        simp [hnot]
  have hexclusions : .keyNotChanged row.rel ∉ exclusionLines tops row.rel e.setting := by
    rw [exclusionLines]
    split <;> simp
  rw [hsaid, List.append_assoc, List.mem_append, or_iff_right hlines, List.mem_append,
    or_iff_left hexclusions, keyLines, ← Bool.and_eq_true]
  split <;> simp_all

/-- Steps 7 to 12 account for every dataset of the table: whichever commands fail, if the run ends
each is as one of the ends of its row says, the summary names just what is missing of it, and the
boot environment is at its point. A key that was not changed is named only where the encryption
roots could be listed. -/
theorem recover_accounts (q : RecoverRequest) (drive : Drive) (answers : List Answer)
    (w : Recovering) (h : q.recover { drive, answers } = .ok w) :
    Accounts q drive w ∧
      (∀ row ∈ q.rpoolRows, row.rel = q.rootDataset →
        ∃ snap o, row.snap = some snap ∧ w.pools.get? row.rel = some o ∧
        Holds drive row.rel (row.base.toList ++ [snap]) o) ∧
      ∀ row ∈ q.rpoolRows, row.rel ≠ keystore →
        (.keyNotChanged row.rel ∈ w.errors ↔
          q.rootsListed = true ∧ (w.entry row.rel).ownRoot = true) ∧
        (q.rootsListed = false → (w.entry row.rel).ownRoot = (w.pools.get? row.rel).isSome) := by
  have haccounts := accounts_of_recover h
  refine ⟨haccounts, fun _ hrow hroot => haccounts.root hrow hroot, fun row hrow hne => ?_⟩
  obtain ⟨snap, -, haccount⟩ := haccounts.rows row hrow hne
  have hsaid : .keyNotChanged row.rel ∈ w.errors ↔
      .keyNotChanged row.rel ∈ (w.entry row.rel).told :=
    ⟨fun hmem => List.mem_filter.mpr ⟨hmem, by simp [RecoverError.rel]⟩, fun hmem =>
      (List.mem_filter.mp hmem).1⟩
  exact ⟨hsaid.trans haccount.keyNotChanged_iff, haccount.unlisted⟩

/-- A root and a home of one point, the home with a monthly before it. -/
def rootSnap : Snap :=
  { stored := ["rpool", "ROOT", "ubuntu"], name := "zark_2026-03-01_00:00:00Z", guid := "1",
    createtxg := 20, creation := 100 }

def homeSnap : Snap :=
  { stored := ["rpool", "USERDATA", "home"], name := "zark_2026-03-01_00:00:00Z", guid := "2",
    createtxg := 20, creation := 100 }

def homeMonthly : Snap :=
  { stored := ["rpool", "USERDATA", "home"], name := "autosnap_2026-02-01_00:00:01_monthly",
    guid := "3", createtxg := 10, creation := 50 }

def preparedKey : Snap :=
  { stored := keystore, name := "prepare_2026-01-01_00:00:00Z", guid := "4", createtxg := 5,
    creation := 10 }

def refOf (s : Snap) : Ref := ⟨s.name, s.guid, s.createtxg, s.creation⟩

def homeDrive : Drive :=
  ⟨[{ rel := ["rpool", "ROOT", "ubuntu"], snaps := ⟨[refOf rootSnap], by decide⟩ },
    { rel := ["rpool", "USERDATA", "home"],
      snaps := ⟨[refOf homeMonthly, refOf homeSnap], by decide⟩ },
    { rel := keystore, kind := .volume, snaps := ⟨[refOf preparedKey], by decide⟩ }], by decide⟩

def homeRequest : RecoverRequest where
  restore :=
    { stored := ⟨[⟨["rpool", "ROOT", "ubuntu"], .filesystem⟩, ⟨["rpool", "USERDATA", "home"], .filesystem⟩, ⟨keystore, .volume⟩], by decide⟩
      be := "ubuntu"
      point := ⟨"zark_", [rootSnap, homeSnap]⟩
      snaps := [rootSnap, homeMonthly, homeSnap] }
  disk := ⟨"4711", by decide, by decide⟩
  keystoreSnap := preparedKey

/-- The home stays at its monthly and keeps its key, and the root's anchor is refused. -/
def homeAnswers : List Answer :=
  [.done, .done, .done, .done, .done, .done, .refused, .refused, .done, .done, .done, .refused]

def homeErrors : List RecoverError :=
  [.leftAtBase ["rpool", "USERDATA", "home"] homeMonthly.name,
    .notAnchored ["rpool", "ROOT", "ubuntu"],
    .keyNotChanged ["rpool", "USERDATA", "home"], .noBpool]

theorem recover_accounts_home : ∃ w,
    homeRequest.recover { drive := homeDrive, answers := homeAnswers } = .ok w ∧
    w.errors = homeErrors ∧
    Accounts homeRequest homeDrive w ∧
      (∀ row ∈ homeRequest.rpoolRows, row.rel = homeRequest.rootDataset →
        ∃ snap o, row.snap = some snap ∧ w.pools.get? row.rel = some o ∧
        Holds homeDrive row.rel (row.base.toList ++ [snap]) o) ∧
      ∀ row ∈ homeRequest.rpoolRows, row.rel ≠ keystore →
        (.keyNotChanged row.rel ∈ w.errors ↔
          homeRequest.rootsListed = true ∧ (w.entry row.rel).ownRoot = true) ∧
        (homeRequest.rootsListed = false →
            (w.entry row.rel).ownRoot = (w.pools.get? row.rel).isSome) := by
  have hran : (homeRequest.recover { drive := homeDrive, answers := homeAnswers }).toOption.map
      Recovering.errors = some homeErrors := by
    decide +kernel
  obtain ⟨w, hw, herrors⟩ := Option.map_eq_some_iff.mp hran
  have hok := Except.toOption_eq_some.mp hw
  exact ⟨w, hok, herrors, recover_accounts homeRequest homeDrive homeAnswers w hok⟩

end Account

end Zark.RecoverRun
