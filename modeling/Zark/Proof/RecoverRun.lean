import Zark.Library.Own
import Zark.RecoverRun
import Zark.Proof.Planner
import Zark.Proof.Restore

/-!
# What a recover says it left out

Whatever commands fail, what the summary says of a dataset is what the new pools lack of it. Each
row of the table touches its own dataset, so the run is read one dataset at a time: what its
receives left there, then its anchor, its key and its exclusion.
-/

namespace Zark.RecoverRun

open Hierarchy

/-! ### One dataset of the run -/

/-- What the run left of one dataset: what the new pool holds, whether it is its own encryption
root, the exclusions set on it, and what was said of it. -/
structure Entry where
  dataset : Option Origin := none
  ownRoot : Bool := false
  setting : Option Setting := none
  told : List RecoverError := []

def Recovering.entry (w : Recovering) (k : Rel) : Entry :=
  ⟨w.pools.get? k, decide (k ∈ w.ownRoots), w.settings.get? k, w.errors.filter (·.rel = k)⟩

/-- A change of one dataset. -/
def Touches (rel : Rel) (effect : Origins → Option Origins) : Prop :=
  ∀ pools pools', effect pools = some pools' → ∀ k, k ≠ rel → pools'.get? k = pools.get? k

section Entry

variable {w : Recovering} {rel k : Rel} {effect : Origins → Option Origins}

@[simp] theorem entry_answered (w : Recovering) (k : Rel) : w.answered.entry k = w.entry k := rfl

theorem entry_pools (w : Recovering) (pools : Origins) (k : Rel) :
    ({ w.answered with pools } : Recovering).entry k =
    { w.entry k with dataset := pools.get? k } := rfl

theorem entry_report_self {e : RecoverError} (h : e.rel = k) :
    (w.report e).entry k = { w.entry k with told := (w.entry k).told ++ [e] } :=
  have htold : (w.errors ++ [e]).filter (·.rel = k) = w.errors.filter (·.rel = k) ++ [e] := by
    simp [h]
  congrArg (Entry.mk (w.pools.get? k) (decide (k ∈ w.ownRoots)) (w.settings.get? k)) htold

theorem entry_report_of_ne {e : RecoverError} (h : k ≠ e.rel) : (w.report e).entry k = w.entry k :=
  have htold : (w.errors ++ [e]).filter (·.rel = k) = w.errors.filter (·.rel = k) := by
    simp [Ne.symm h]
  congrArg (Entry.mk (w.pools.get? k) (decide (k ∈ w.ownRoots)) (w.settings.get? k)) htold

/-- A command that succeeds did what it is for; one that fails did nothing. -/
theorem run_cases (w : Recovering) (effect : Origins → Option Origins) :
    (∃ pools, w.answer = .done ∧ effect w.pools = some pools ∧
      w.run effect = (true, { w.answered with pools })) ∨
      (w.answer = .done → effect w.pools = none) ∧ w.run effect = (false, w.answered) := by
  by_cases hanswer : w.answer = .done
  · cases heffect : effect w.pools with
    | none => exact .inr ⟨fun _ => rfl, by simp [Recovering.run, hanswer, heffect]⟩
    | some pools => exact .inl ⟨pools, hanswer, rfl, by simp [Recovering.run, hanswer, heffect]⟩
  · exact .inr ⟨fun h => absurd h hanswer, by simp [Recovering.run, hanswer]⟩

@[simp] theorem drive_run (w : Recovering) (effect : Origins → Option Origins) :
    (w.run effect).2.drive = w.drive := by
  obtain ⟨pools, -, -, hrun⟩ | ⟨-, hrun⟩ := run_cases w effect <;> rw [hrun] <;> rfl

theorem entry_run (h : Touches rel effect) (hk : k ≠ rel) :
    (w.run effect).2.entry k = w.entry k := by
  obtain ⟨pools, -, heffect, hrun⟩ | ⟨-, hrun⟩ := run_cases w effect
  · rw [hrun, Recovering.entry, show ({ w.answered with pools } : Recovering).pools.get? k
      = w.pools.get? k from h w.pools pools heffect k hk]
    rfl
  · rw [hrun]
    rfl

theorem told_run (w : Recovering) (effect : Origins → Option Origins) :
    ((w.run effect).2.entry k).told = (w.entry k).told := by
  obtain ⟨pools, -, -, hrun⟩ | ⟨-, hrun⟩ := run_cases w effect <;> rw [hrun] <;> rfl

/-! The same of the answer a caller has matched on. -/

section Answered

variable {ok : Bool} {w' : Recovering}

theorem done_of_run (hrun : w.run effect = (true, w')) :
    ∃ pools, effect w.pools = some pools ∧ w' = { w.answered with pools } := by
  obtain ⟨pools, -, heffect, hdone⟩ | ⟨-, hfailed⟩ := run_cases w effect
  · exact ⟨pools, heffect, (Prod.mk.inj (hrun.symm.trans hdone)).2⟩
  · cases hrun.symm.trans hfailed

theorem failed_of_run (hrun : w.run effect = (false, w')) : w' = w.answered := by
  obtain ⟨pools, -, -, hdone⟩ | ⟨-, hfailed⟩ := run_cases w effect
  · cases hrun.symm.trans hdone
  · exact (Prod.mk.inj (hrun.symm.trans hfailed)).2

theorem entry_of_run (hrun : w.run effect = (ok, w')) (h : Touches rel effect) (hk : k ≠ rel) :
    w'.entry k = w.entry k := by
  have hentry := entry_run (w := w) h hk
  rwa [hrun] at hentry

theorem told_of_run (hrun : w.run effect = (ok, w')) : (w'.entry k).told = (w.entry k).told := by
  have htold := told_run (k := k) w effect
  rwa [hrun] at htold

theorem drive_of_run (hrun : w.run effect = (ok, w')) : w'.drive = w.drive := by
  have hdrive := drive_run w effect
  rwa [hrun] at hdrive

end Answered

theorem touches_addDataset (rel : Rel) : Touches rel (Recovering.addDataset rel) := by
  intro pools pools' h k hk
  rw [Recovering.addDataset] at h
  split at h
  · exact Keyed.get?_push?_of_ne h hk
  · cases h

theorem touches_receiveStream (rel : Rel) (stream : Stream) :
    Touches rel (receiveStream rel stream) := by
  intro pools pools' h k hk
  rw [receiveStream] at h
  split at h
  · split at h
    · obtain ⟨snaps, -, hpush⟩ := Option.bind_eq_some_iff.mp h
      exact Keyed.get?_push?_of_ne hpush hk
    · cases h
  · rename_i o source ho hsource
    obtain ⟨newest, -, h⟩ := Option.bind_eq_some_iff.mp h
    split at h
    · obtain ⟨snaps, -, rfl⟩ := Option.map_eq_some_iff.mp h
      exact Keyed.get?_set_of_ne (show k ≠ o.rel from Keyed.key_of_get? ho ▸ hk)
    · cases h
  · cases h

theorem touches_send (rel : Rel) (stream : Option Stream) :
    Touches rel fun pools => stream.bind (receiveStream rel · pools) := by
  intro pools pools' h
  obtain ⟨stream, -, h⟩ := Option.bind_eq_some_iff.mp h
  exact touches_receiveStream rel stream pools pools' h

theorem touches_cmd (c : Cmd) : Touches c.rel (Cmd.apply · c) := by
  intro pools pools' h
  obtain ⟨-, -, -, -, -, hother⟩ := Cmd.apply_spec h
  exact hother

end Entry

/-! ### Receiving -/

/-- A snapshot of the new pool that the drive holds as `s`. -/
def Carries (drive : Drive) (s : Snap) (x : Ref) : Prop :=
  ∃ t, heldRef drive s = some t ∧ x.name = t.name ∧ x.guid = t.guid ∧ x.creation = t.creation

/-- A dataset that was received and nothing else: its snapshots are those of the drive, oldest
first. -/
structure Fresh (drive : Drive) (rel : Rel) (snaps : List Snap) (o : Origin) : Prop where
  rel : o.rel = rel
  kind : o.kind = .filesystem
  snaps : List.Forall₂ (Carries drive) snaps o.snaps.items
  ordered : Ordered o
  bookmarks : o.bookmarks = ∅

section Receive

variable {w w' : Recovering} {rel : Rel} {snap base : Snap} {drive : Drive}
  {pools pools' : Origins} {ok : Bool}

theorem get?_push?_self {pools pools' : Origins} {o : Origin} (h : pools.push? o = some pools') :
    pools'.get? o.rel = some o :=
  Keyed.get?_eq_some_iff.mpr ⟨(Keyed.mem_push? h).mpr (.inr rfl), rfl⟩

theorem receive_eq_ok {base? : Option Snap} (h : w.receive rel snap base? = .ok (ok, w')) :
    (ok, w') = w.run fun pools => (sendSnap w.drive snap base?).bind
    (receiveStream rel · pools) := by
  rw [Recovering.receive] at h
  split at h
  · cases h
  · exact (Except.ok.inj h).symm

theorem received_full
    (h : (sendSnap drive snap none).bind (receiveStream rel · pools) = some pools') :
    pools.get? rel = none ∧ ∃ o, pools'.get? rel = some o ∧ Fresh drive rel [snap] o := by
  obtain ⟨stream, hstream, h⟩ := Option.bind_eq_some_iff.mp h
  obtain ⟨t, ht, hsend⟩ := Option.bind_eq_some_iff.mp hstream
  obtain rfl : (⟨none, [t]⟩ : Stream) = stream := Option.some.inj hsend
  rw [receiveStream] at h
  split at h
  · rename_i hnone _
    split at h
    · obtain ⟨snaps, hsnaps, hpush⟩ := Option.bind_eq_some_iff.mp h
      have hitems : snaps.items = [{ t with createtxg := 0 }] := Keyed.ofList?_eq_some_iff.mp hsnaps
      refine ⟨hnone, { rel, snaps }, get?_push?_self hpush, rfl, rfl, ?_, ?_, rfl⟩
      · rw [show ({ rel, snaps } : Origin).snaps.items = [{ t with createtxg := 0 }] from hitems]
        exact .cons ⟨t, ht, rfl, rfl, rfl⟩ .nil
      · rw [Ordered, show ({ rel, snaps } : Origin).snaps.items
          = [{ t with createtxg := 0 }] from hitems]
        exact List.pairwise_singleton _ _
    · cases h
  · rename_i hsource
    cases hsource
  · cases h

theorem received_incremental
    (h : (sendSnap drive snap (some base)).bind (receiveStream rel · pools) = some pools')
    {o : Origin} (ho : pools.get? rel = some o) (hfresh : Fresh drive rel [base] o) :
    ∃ o', pools'.get? rel = some o' ∧ Fresh drive rel [base, snap] o' := by
  obtain ⟨stream, hstream, h⟩ := Option.bind_eq_some_iff.mp h
  obtain ⟨t, ht, hsend⟩ := Option.bind_eq_some_iff.mp hstream
  obtain ⟨b, hb, hsend⟩ := Option.bind_eq_some_iff.mp hsend
  split at hsend
  · obtain rfl : (⟨some b.guid, [t]⟩ : Stream) = stream := Option.some.inj hsend
    obtain ⟨x, hx, hitems⟩ : ∃ x, Carries drive base x ∧ o.snaps.items = [x] := by
      have hsnaps := hfresh.snaps
      generalize o.snaps.items = items at hsnaps
      cases hsnaps with
      | cons hx hrest =>
          cases hrest
          exact ⟨_, hx, rfl⟩
    have hnewest : newestOf o = some x := by rw [newestOf, hitems]; rfl
    rw [receiveStream, ho] at h
    simp only [hnewest, Option.bind_some] at h
    split at h
    · obtain ⟨snaps, hsnaps, rfl⟩ := Option.map_eq_some_iff.mp h
      have hall : snaps.items = [x, { t with createtxg := x.createtxg + 1 }] :=
        (Keyed.ofList?_eq_some_iff.mp hsnaps).trans (by rw [hitems]; rfl)
      refine ⟨{ o with snaps }, Keyed.get?_set_of_get? ho hfresh.rel, hfresh.rel, hfresh.kind, ?_,
        ?_, hfresh.bookmarks⟩
      · rw [show ({ o with snaps } : Origin).snaps.items = _ from hall]
        exact .cons hx (.cons ⟨t, ht, rfl, rfl, rfl⟩ .nil)
      · rw [Ordered, show ({ o with snaps } : Origin).snaps.items = _ from hall]
        simp
    · cases h
  · cases hsend

end Receive

/-! ### Rows -/

/-- The pools may hold another `rel`; all else is as it was. -/
structure Within (rel : Rel) (w w' : Recovering) : Prop where
  pools : ∀ k, k ≠ rel → w'.pools.get? k = w.pools.get? k
  ownRoots : w'.ownRoots = w.ownRoots
  settings : w'.settings = w.settings
  errors : w'.errors = w.errors
  drive : w'.drive = w.drive

/-- What the receives of a row leave, and what is said of it. -/
inductive RowSent (drive : Drive) (row : BasedRow) (snap : Snap) (pools : Origins) :
    Option Snap → Option RecoverError → Prop
  | reached {o : Origin} (ho : pools.get? row.rel = some o)
      (hfresh : Fresh drive row.rel (row.base.toList ++ [snap]) o) :
      RowSent drive row snap pools (some snap) none
  | atBase {base : Snap} {o : Origin} (hbase : row.base = some base)
      (ho : pools.get? row.rel = some o) (hfresh : Fresh drive row.rel [base] o) :
      RowSent drive row snap pools (some base) (some (.leftAtBase row.rel base.name))
  | nothing (hnone : pools.get? row.rel = none) :
      RowSent drive row snap pools none (some (.receiveFailed row.rel))

section Rows

variable {w w' w'' : Recovering} {rel k : Rel} {effect : Origins → Option Origins} {row : BasedRow}
  {snap : Snap} {base? : Option Snap}
  {got : Received} {ok : Bool}

theorem Within.trans (h : Within rel w w') (h' : Within rel w' w'') : Within rel w w'' where
  pools k hk := (h'.pools k hk).trans (h.pools k hk)
  ownRoots := h'.ownRoots.trans h.ownRoots
  settings := h'.settings.trans h.settings
  errors := h'.errors.trans h.errors
  drive := h'.drive.trans h.drive

theorem Within.entry (h : Within rel w w') (hk : k ≠ rel) : w'.entry k = w.entry k := by
  rw [Recovering.entry, Recovering.entry, h.pools k hk, h.ownRoots, h.settings, h.errors]

theorem Within.entry_self (h : Within rel w w') :
    w'.entry rel = { w.entry rel with dataset := w'.pools.get? rel } := by
  rw [Recovering.entry, Recovering.entry, h.ownRoots, h.settings, h.errors]

theorem within_run (h : Touches rel effect) : Within rel w (w.run effect).2 := by
  obtain ⟨pools, -, heffect, hrun⟩ | ⟨-, hrun⟩ := run_cases w effect
  · rw [hrun]
    exact ⟨h w.pools pools heffect, rfl, rfl, rfl, rfl⟩
  · rw [hrun]
    exact ⟨fun _ _ => rfl, rfl, rfl, rfl, rfl⟩

theorem within_receive (h : w.receive rel snap base? = .ok (ok, w')) : Within rel w w' := by
  have hrun := congrArg Prod.snd (receive_eq_ok h)
  rw [show w' = _ from hrun]
  exact within_run (touches_send rel _)

/-- What one receive comes to. -/
theorem receive_cases (h : w.receive rel snap base? = .ok (ok, w')) :
    ok = true ∧ (sendSnap w.drive snap base?).bind (receiveStream rel · w.pools) = some w'.pools ∨
    ok = false ∧ w'.pools = w.pools := by
  have hrun := receive_eq_ok h
  cases ok with
  | true =>
      obtain ⟨pools, heffect, rfl⟩ := done_of_run hrun.symm
      exact .inl ⟨rfl, heffect⟩
  | false =>
      obtain rfl := failed_of_run hrun.symm
      exact .inr ⟨rfl, rfl⟩

theorem receiveRow_spec (h : receiveRow row snap w = .ok got) :
    Within row.rel w got.world ∧ (∀ e, got.error = some e → e.rel = row.rel) ∧
      (w.pools.get? row.rel = none → RowSent w.drive row snap got.world.pools got.left
        got.error) := by
  rw [receiveRow] at h
  split at h
  · rename_i hbase
    obtain ⟨⟨ok, w₁⟩, hreceive, h⟩ := Except.bind_eq_ok.mp h
    obtain rfl := Except.ok.inj h
    obtain ⟨rfl, hreceived⟩ | ⟨rfl, hsame⟩ := receive_cases hreceive
    · obtain ⟨-, o, ho, hfresh⟩ := received_full hreceived
      refine ⟨within_receive hreceive, by simp, fun _ => .reached ho ?_⟩
      rw [hbase]
      exact hfresh
    · exact ⟨within_receive hreceive, by simp [RecoverError.rel], fun hnone =>
        .nothing (hsame ▸ hnone)⟩
  · rename_i base hbase
    obtain ⟨⟨ok, w₁⟩, hreceive, h⟩ := Except.bind_eq_ok.mp h
    obtain ⟨rfl, hreceived⟩ | ⟨rfl, hsame⟩ := receive_cases hreceive
    · obtain ⟨-, o, ho, hfresh⟩ := received_full hreceived
      obtain ⟨⟨ok, w₂⟩, hsecond, h⟩ := Except.bind_eq_ok.mp h
      obtain rfl := Except.ok.inj h
      have hwithin := (within_receive hreceive).trans (within_receive hsecond)
      obtain ⟨rfl, hpoint⟩ | ⟨rfl, hsame⟩ := receive_cases hsecond
      · rw [(within_receive hreceive).drive] at hpoint
        obtain ⟨o', ho', hfresh'⟩ := received_incremental hpoint ho hfresh
        refine ⟨hwithin, by simp, fun _ => .reached ho' ?_⟩
        rw [hbase]
        exact hfresh'
      · exact ⟨hwithin, by simp [RecoverError.rel], fun _ => .atBase hbase (hsame ▸ ho) hfresh⟩
    · obtain rfl := Except.ok.inj h
      exact ⟨within_receive hreceive, by simp [RecoverError.rel], fun hnone =>
        .nothing (hsame ▸ hnone)⟩

/-- What the loop over the rows knows of one dataset. -/
def Restoring.view (st : Restoring) (k : Rel) : Entry × List Arrived × List Arrived :=
  (st.world.entry k, st.reached.filter (·.rel = k), st.atBase.filter (·.rel = k))

/-- How a row is left before it is anchored. -/
inductive RowLeft (drive : Drive) (row : BasedRow) (snap : Snap) :
    Entry × List Arrived × List Arrived → Prop
  | reached {o : Origin} (hfresh : Fresh drive row.rel (row.base.toList ++ [snap]) o) :
      RowLeft drive row snap ({ dataset := some o, ownRoot := true }, [⟨row.rel, snap⟩], [])
  | atBase {base : Snap} {o : Origin} (hbase : row.base = some base)
      (hfresh : Fresh drive row.rel [base] o) :
      RowLeft drive row snap
        ({ dataset := some o, ownRoot := true, told := [.leftAtBase row.rel base.name] }, [],
          [⟨row.rel, base⟩])
  | nothing : RowLeft drive row snap ({ told := [.receiveFailed row.rel] }, [], [])

/-- The dataset that was received is its own encryption root. -/
def Recovering.addRoot (w : Recovering) (rel : Rel) : Recovering :=
  { w with ownRoots := w.ownRoots ++ [rel] }

theorem entry_addRoot_self (w : Recovering) (rel : Rel) :
    (w.addRoot rel).entry rel = { w.entry rel with ownRoot := true } := by
  simp [Recovering.entry, Recovering.addRoot]

theorem entry_addRoot_of_ne (h : k ≠ rel) : (w.addRoot rel).entry k = w.entry k := by
  simp [Recovering.entry, Recovering.addRoot, h]

variable {be : Rel} {st st' : Restoring}

/-- The three ways through a row. -/
theorem restoreRow_cases (hsnap : row.snap = some snap) (h : restoreRow be st row = .ok st') :
    ∃ got, receiveRow row snap st.world = .ok got ∧
    let world := if got.left.isSome then got.world.addRoot row.rel else got.world
    (got.error = none ∧ st' = { st with world, reached := st.reached ++ [⟨row.rel, snap⟩] } ∨
      ∃ e, row.rel ≠ be ∧ got.error = some e ∧
        st' = { st with world := world.report e, atBase := st.atBase ++ (got.left.map (⟨row.rel, ·⟩)).toList }) := by
  simp only [restoreRow, hsnap] at h
  obtain ⟨got, hgot, h⟩ := Except.bind_eq_ok.mp h
  refine ⟨got, hgot, ?_⟩
  split at h
  · rename_i herror
    exact .inl ⟨herror, (Except.ok.inj h).symm⟩
  · rename_i e herror
    split at h
    · cases h
    · rename_i hbe
      exact .inr ⟨e, hbe, herror, (Except.ok.inj h).symm⟩

theorem steps_restoreRow (be : Rel) (drive : Drive) :
    Own.Steps Restoring.view (fun row : BasedRow => row.rel) (fun st => st.world.drive = drive)
      (restoreRow be) where
  other st row st' _ h k hk := by
    cases hsnap : row.snap with
    | none =>
        rw [restoreRow, hsnap] at h
        obtain rfl := Except.ok.inj h
        rfl
    | some snap =>
        obtain ⟨got, hgot, hends⟩ := restoreRow_cases hsnap h
        obtain ⟨hwithin, herror, -⟩ := receiveRow_spec hgot
        have hworld : (if got.left.isSome then got.world.addRoot row.rel else got.world).entry k
            = st.world.entry k := by
          split
          · rw [entry_addRoot_of_ne hk, hwithin.entry hk]
          · exact hwithin.entry hk
        obtain ⟨-, rfl⟩ | ⟨e, -, he, rfl⟩ := hends
        · simp only [Restoring.view, hworld]
          simp [Ne.symm hk]
        · have hne : k ≠ e.rel := fun heq => hk (heq.trans (herror e he))
          simp only [Restoring.view, entry_report_of_ne hne, hworld]
          cases got.left <;> simp [Ne.symm hk]
  kept st row st' hdrive h := by
    cases hsnap : row.snap with
    | none =>
        rw [restoreRow, hsnap] at h
        obtain rfl := Except.ok.inj h
        exact hdrive
    | some snap =>
        obtain ⟨got, hgot, hends⟩ := restoreRow_cases hsnap h
        have hworld : (if got.left.isSome then got.world.addRoot row.rel
            else got.world).drive = drive := by
          rw [← hdrive, ← (receiveRow_spec hgot).1.drive]
          split <;> rfl
        obtain ⟨-, rfl⟩ | ⟨e, -, -, rfl⟩ := hends
        · exact hworld
        · exact hworld

theorem rowLeft_of_restoreRow (hsnap : row.snap = some snap) (h : restoreRow be st row = .ok st')
    (hview : st.view row.rel = ({}, [], [])) :
    RowLeft st.world.drive row snap (st'.view row.rel) := by
  obtain ⟨hentry, hview⟩ := Prod.mk.inj hview
  obtain ⟨hreached, hbase⟩ := Prod.mk.inj hview
  obtain ⟨got, hgot, hends⟩ := restoreRow_cases hsnap h
  obtain ⟨hwithin, -, hsent⟩ := receiveRow_spec hgot
  have hsent := hsent (congrArg Entry.dataset hentry)
  have hworld := hwithin.entry_self
  rw [hentry] at hworld
  generalize got.left = left at hsent hends
  generalize got.error = error at hsent hends
  cases hsent with
  | reached ho hfresh =>
      rename_i o
      obtain ⟨-, rfl⟩ | ⟨e, -, he, -⟩ := hends
      · have hown : (got.world.addRoot row.rel).entry row.rel
            = { dataset := some o, ownRoot := true } := by
          rw [entry_addRoot_self, hworld, ho]
        have hall : (st.reached ++ [Arrived.mk row.rel snap]).filter (·.rel = row.rel)
            = [⟨row.rel, snap⟩] := by
          rw [List.filter_append, hreached]
          simp
        have hview :
            Restoring.view
              { st with
                world := got.world.addRoot row.rel,
                reached := st.reached ++ [⟨row.rel, snap⟩] } row.rel =
            ({ dataset := some o, ownRoot := true }, [⟨row.rel, snap⟩], []) :=
          Prod.ext hown (Prod.ext hall hbase)
        exact hview ▸ .reached hfresh
      · cases he
  | atBase hrow ho hfresh =>
      rename_i base o
      obtain ⟨he, -⟩ | ⟨e, -, he, rfl⟩ := hends
      · cases he
      · obtain rfl := Option.some.inj he
        have htold :
            ((got.world.addRoot row.rel).report (.leftAtBase row.rel base.name)).entry row.rel =
            { dataset := some o, ownRoot := true, told := [.leftAtBase row.rel base.name] } := by
          rw [entry_report_self (show (RecoverError.leftAtBase row.rel base.name).rel
            = row.rel from rfl), entry_addRoot_self, hworld, ho]
          rfl
        have hall : (st.atBase ++ [Arrived.mk row.rel base]).filter (·.rel = row.rel)
            = [⟨row.rel, base⟩] := by
          rw [List.filter_append, hbase]
          simp
        have hview : Restoring.view
            { st with
              world := (got.world.addRoot row.rel).report (.leftAtBase row.rel base.name),
              atBase :=
                st.atBase ++ [⟨row.rel, base⟩] } row.rel
                    = ({ dataset := some o, ownRoot := true,
                         told := [.leftAtBase row.rel base.name] }, [], [⟨row.rel, base⟩]) :=
          Prod.ext htold (Prod.ext hreached hall)
        exact hview ▸ .atBase hrow hfresh
  | nothing hnone =>
      obtain ⟨he, -⟩ | ⟨e, -, he, rfl⟩ := hends
      · cases he
      · obtain rfl := Option.some.inj he
        have htold : (got.world.report (.receiveFailed row.rel)).entry row.rel
            = { told := [.receiveFailed row.rel] } := by
          rw [entry_report_self (show (RecoverError.receiveFailed row.rel).rel = row.rel from rfl),
            hworld, hnone]
          rfl
        have hview :
            Restoring.view
              { st with
                world := got.world.report (.receiveFailed row.rel),
                atBase := st.atBase ++ [] } row.rel =
            ({ told := [.receiveFailed row.rel] }, [], []) :=
          Prod.ext htold (Prod.ext hreached (by rw [List.append_nil]; exact hbase))
        exact hview ▸ .nothing

/-- A run goes past the boot environment only at its point. -/
theorem told_of_root (hsnap : row.snap = some snap) (h : restoreRow be st row = .ok st')
    (hview : st.view row.rel = ({}, [], [])) (hbe : row.rel = be) :
    (st'.view row.rel).1.told = [] := by
  obtain ⟨got, hgot, hends⟩ := restoreRow_cases hsnap h
  have hworld : (got.world.entry row.rel).told = [] := by
    rw [(receiveRow_spec hgot).1.entry_self]
    exact congrArg (fun view : Entry × List Arrived × List Arrived => view.1.told) hview
  obtain ⟨-, rfl⟩ | ⟨e, hne, -, -⟩ := hends
  · rw [← hworld]
    cases got.left <;> rfl
  · exact absurd hbe hne

end Rows

/-! ### Anchors -/

/-- How far a row arrived: its snapshots, the one it was left at, and what is said of that. -/
inductive ArrivedAs (row : BasedRow) (snap : Snap) : List Snap → Snap → List RecoverError → Prop
  | point : ArrivedAs row snap (row.base.toList ++ [snap]) snap []
  | base {base : Snap} (h : row.base = some base) :
      ArrivedAs row snap [base] base [.leftAtBase row.rel base.name]

/-- A dataset whose one bookmark is the drive's anchor of its newest snapshot. -/
structure Anchored (disk : DiskGuid) (left : Snap) (o : Origin) (x : Ref) : Prop where
  newest : newestOf o = some x
  bookmarks : o.bookmarks.items = [{ x with name := RecoverCommands.anchorFor disk left }]

/-- A dataset as it was received, its bookmarks aside. -/
structure Holds (drive : Drive) (rel : Rel) (snaps : List Snap) (o : Origin) : Prop where
  rel : o.rel = rel
  kind : o.kind = .filesystem
  snaps : List.Forall₂ (Carries drive) snaps o.snaps.items
  ordered : Ordered o

/-- How a row can end, with what is said of it. -/
inductive RowEnd (drive : Drive) (disk : DiskGuid) (row : BasedRow) (snap : Snap) :
    Option Origin → List RecoverError → Prop
  | lost : RowEnd drive disk row snap none [.receiveFailed row.rel]
  | anchored {o : Origin} {x : Ref} {snaps : List Snap} {left : Snap} {lines : List RecoverError}
      (harrived : ArrivedAs row snap snaps left lines)
      (hholds : Holds drive row.rel snaps o) (hanchored : Anchored disk left o x) :
      RowEnd drive disk row snap (some o) lines
  | unanchored {o : Origin} {snaps : List Snap} {left : Snap} {lines : List RecoverError}
      (harrived : ArrivedAs row snap snaps left lines)
      (hholds : Holds drive row.rel snaps o) (hnone : o.bookmarks = ∅) :
      RowEnd drive disk row snap (some o) (lines ++ [.notAnchored row.rel])

section Anchor

variable {w : Recovering} {rel k : Rel} {disk : DiskGuid} {a : Arrived} {drive : Drive}
  {row : BasedRow} {snap left : Snap} {snaps : List Snap}
  {o : Origin} {lines : List RecoverError}

theorem Carries.name {s : Snap} {x : Ref} (h : Carries drive s x) : x.name = s.name := by
  obtain ⟨t, ht, hname, -, -⟩ := h
  obtain ⟨d, -, ht⟩ := Option.bind_eq_some_iff.mp ht
  exact hname.trans (Keyed.key_of_get? ht)

theorem Fresh.holds (h : Fresh drive rel snaps o) : Holds drive rel snaps o :=
  ⟨h.rel, h.kind, h.snaps, h.ordered⟩

theorem moves_anchorOne (disk : DiskGuid) (drive : Drive) :
    Own.Moves Recovering.entry Arrived.rel (fun w => w.drive = drive) (anchorOne disk) where
  other w a _ k hk := by
    have htouches :=
      touches_cmd (.bookmark a.rel a.snap.name (RecoverCommands.anchorFor disk a.snap))
    rw [anchorOne]
    split
    · rename_i w' hrun
      exact entry_of_run hrun htouches hk
    · rename_i w' hrun
      rw [entry_report_of_ne (show k ≠ (RecoverError.notAnchored a.rel).rel from hk)]
      exact entry_of_run hrun htouches hk
  kept w a hdrive := by
    rw [anchorOne]
    split
    · rename_i w' hrun
      exact (drive_of_run hrun).trans hdrive
    · rename_i w' hrun
      exact (drive_of_run hrun).trans hdrive

theorem ArrivedAs.newest (h : ArrivedAs row snap snaps left lines)
    (hholds : Holds drive rel snaps o) :
    ∃ x, newestOf o = some x ∧ Carries drive left x ∧ o.snaps.get? left.name = some x := by
  obtain ⟨front, hfront⟩ : ∃ front, snaps = front ++ [left] := by
    cases h with
    | point => exact ⟨_, rfl⟩
    | base => exact ⟨[], rfl⟩
  have hsnaps := List.forall₂_reverse_iff.mpr hholds.snaps
  rw [hfront, List.reverse_append, List.reverse_singleton, List.singleton_append,
    List.forall₂_cons_left_iff] at hsnaps
  obtain ⟨x, rest, hx, -, hitems⟩ := hsnaps
  have hitems : o.snaps.items = rest.reverse ++ [x] := by
    rw [← List.reverse_reverse o.snaps.items, hitems, List.reverse_cons]
  refine ⟨x, ?_, hx, Keyed.get?_eq_some_iff.mpr ⟨?_, hx.name⟩⟩
  · rw [newestOf, hitems, List.getLast?_concat]
  · rw [Keyed.mem_def, hitems]
    exact List.mem_append_right _ List.mem_cons_self

/-- The one bookmark a dataset just received is given. -/
theorem anchored_of_apply {pools pools' : Origins} (harrived : ArrivedAs row snap snaps left lines)
    (hfresh : Fresh drive rel snaps o) (ho : pools.get? rel = some o)
    (h : Cmd.apply pools (.bookmark rel left.name (RecoverCommands.anchorFor disk left))
      = some pools') :
    ∃ o' x, pools'.get? rel = some o' ∧ Holds drive rel snaps o' ∧ Anchored disk left o' x := by
  obtain ⟨x, hnewest, -, hget⟩ := harrived.newest hfresh.holds
  obtain ⟨o₁, o', ho₁, heffect, ho', -⟩ := Cmd.apply_spec h
  obtain rfl : o = o₁ := Option.some.inj (ho.symm.trans ho₁)
  cases heffect with
  | bookmark hsnap hpush =>
      obtain rfl := Option.some.inj (hget.symm.trans hsnap)
      refine ⟨_, x, ho', ⟨hfresh.rel, hfresh.kind, hfresh.snaps, hfresh.ordered⟩, hnewest, ?_⟩
      have hitems := Keyed.push?_items hpush
      rw [hfresh.bookmarks] at hitems
      exact hitems

theorem rowEnd_anchorOne (harrived : ArrivedAs row snap snaps left lines)
    (hfresh : Fresh w.drive row.rel snaps o)
    (hentry : w.entry row.rel = { dataset := some o, ownRoot := true, told := lines }) :
    ∃ o' told, (anchorOne disk w ⟨row.rel, left⟩).entry row.rel
      = { dataset := some o', ownRoot := true, told } ∧
      RowEnd w.drive disk row snap (some o') told ∧ told ⊆ lines ++ [.notAnchored row.rel] := by
  have ho : w.pools.get? row.rel = some o := congrArg Entry.dataset hentry
  rw [anchorOne]
  obtain ⟨pools, -, heffect, hrun⟩ | ⟨-, hrun⟩ :=
    run_cases w (Cmd.apply · (.bookmark row.rel left.name (RecoverCommands.anchorFor disk left)))
  · simp only [hrun]
    obtain ⟨o', x, ho', hholds, hanchored⟩ := anchored_of_apply harrived hfresh ho heffect
    refine ⟨o', lines, ?_, .anchored harrived hholds hanchored, List.subset_append_left _ _⟩
    rw [entry_pools, hentry, ho']
  · simp only [hrun]
    refine ⟨o, _, ?_, .unanchored harrived hfresh.holds hfresh.bookmarks, List.Subset.refl _⟩
    rw [entry_report_self (show (RecoverError.notAnchored row.rel).rel = row.rel from rfl),
      entry_answered, hentry]

variable {w' : Recovering} {be : Rel} {rows : List BasedRow}

/-- Each row arrives once at most, at its point or at its monthly. -/
theorem nodup_arrived {st : Restoring}
    (h : ∀ k, (st.view k).2.1.length + (st.view k).2.2.length ≤ 1) :
    ((st.reached ++ st.atBase).map Arrived.rel).Nodup := by
  rw [List.nodup_iff_count_le_one]
  intro k
  have hcount : ((st.reached ++ st.atBase).map Arrived.rel).count k = (st.view k).2.1.length +
      (st.view k).2.2.length := by
    have hsame : ((fun x => x == k) ∘ Arrived.rel) = fun a : Arrived => decide (a.rel = k) :=
      funext fun a => beq_eq_decide ..
    rw [List.count, List.countP_map, List.countP_append, List.countP_eq_length_filter,
      List.countP_eq_length_filter, hsame]
    rfl
  exact hcount ▸ h k

/-- Step 8: every row ends on its own, and nothing but the rows is touched. -/
theorem restoreRpoolRows_spec (hnodup : (rows.map fun row => row.rel).Nodup)
    (hsnaps : ∀ row ∈ rows, row.snap.isSome = true) (hempty : ∀ row ∈ rows, w.entry row.rel = {})
    (h : restoreRpoolRows be disk rows w = .ok w') :
    w'.drive = w.drive ∧ (∀ k, k ∉ rows.map (fun row => row.rel) → w'.entry k = w.entry k) ∧
      ∀ row ∈ rows, ∀ snap, row.snap = some snap →
        ∃ dataset told, w'.entry row.rel = { dataset, ownRoot := dataset.isSome, told } ∧
        RowEnd w.drive disk row snap dataset told ∧
          (row.rel = be → told ⊆ [.notAnchored row.rel]) := by
  obtain ⟨st, hst, h⟩ := Except.bind_eq_ok.mp h
  obtain rfl := Except.ok.inj h
  have hsteps := steps_restoreRow be w.drive
  have hmoves := moves_anchorOne disk w.drive
  have hdrive : st.world.drive = w.drive := hsteps.keep_foldlM hst rfl
  have hstart : ∀ k, Restoring.view { world := w } k = (w.entry k, [], []) := fun k => rfl
  have hother : ∀ k, k ∉ rows.map (fun row => row.rel) → st.view k = (w.entry k, [], []) :=
    fun k hk =>
      (hsteps.foldlM_other hst rfl hk).trans (hstart k)
  have hleft : ∀ row ∈ rows, ∀ snap, row.snap = some snap →
      RowLeft w.drive row snap (st.view row.rel) ∧
      (row.rel = be → (st.view row.rel).1.told = []) := by
    intro row hrow snap hsnap
    obtain ⟨t, t', ht, hview, hstep, hlast⟩ := hsteps.foldlM_own hst rfl hnodup hrow
    have hview := hview.trans ((hstart row.rel).trans (by rw [hempty row hrow]))
    rw [hlast, ← ht]
    exact ⟨rowLeft_of_restoreRow hsnap hstep hview, told_of_root hsnap hstep hview⟩
  have honce : ((st.reached ++ st.atBase).map Arrived.rel).Nodup := by
    refine nodup_arrived fun k => ?_
    by_cases hk : k ∈ rows.map fun row => row.rel
    · obtain ⟨row, hrow, rfl⟩ := List.mem_map.mp hk
      obtain ⟨snap, hsnap⟩ := Option.isSome_iff_exists.mp (hsnaps row hrow)
      have hleft := (hleft row hrow snap hsnap).1
      generalize st.view row.rel = view at hleft ⊢
      cases hleft <;> simp
    · rw [hother k hk]
      exact Nat.zero_le 1
  have habsent : ∀ k, (st.view k).2.1 ++ (st.view k).2.2 = [] →
      k ∉ (st.reached ++ st.atBase).map Arrived.rel := by
    intro k hnil hmem
    obtain ⟨a, ha, rfl⟩ := List.mem_map.mp hmem
    rw [Restoring.view, ← List.filter_append, List.filter_eq_nil_iff] at hnil
    exact hnil a ha (by simp)
  refine ⟨hmoves.keep_foldl hdrive, fun k hk => ?_, fun row hrow snap hsnap => ?_⟩
  · rw [hmoves.foldl_other hdrive (habsent k (by rw [hother k hk]; rfl))]
    exact congrArg Prod.fst (hother k hk)
  · obtain ⟨hleft, hroot⟩ := hleft row hrow snap hsnap
    have hone : ∀ left lines snaps o, ArrivedAs row snap snaps left lines →
        Fresh w.drive row.rel snaps o →
        ⟨row.rel, left⟩ ∈ st.reached ++ st.atBase →
        st.world.entry row.rel = { dataset := some o, ownRoot := true, told := lines } →
        ∃ dataset told, ((st.reached ++ st.atBase).foldl (anchorOne disk) st.world).entry row.rel
          = { dataset, ownRoot := dataset.isSome, told } ∧
          RowEnd w.drive disk row snap dataset told ∧ told ⊆ lines ++ [.notAnchored row.rel] := by
      intro left lines snaps o harrived hfresh hmem hentry
      obtain ⟨t, ht, hview, hlast⟩ := hmoves.foldl_own hdrive honce hmem
      rw [← ht] at hfresh
      obtain ⟨o', told, hended, hend, hsub⟩ := rowEnd_anchorOne harrived hfresh (hview.trans hentry)
      exact ⟨some o', told, hlast.trans hended, ht ▸ hend, hsub⟩
    have hmem : ∀ a, a ∈ (st.view row.rel).2.1 ++ (st.view row.rel).2.2 →
        a ∈ st.reached ++ st.atBase := by
      intro a ha
      obtain ha | ha := List.mem_append.mp ha
      · exact List.mem_append_left _ (List.mem_of_mem_filter ha)
      · exact List.mem_append_right _ (List.mem_of_mem_filter ha)
    have hentry : (st.view row.rel).1 = st.world.entry row.rel := rfl
    have hnone : (st.view row.rel).2.1 ++ (st.view row.rel).2.2 = [] →
        ((st.reached ++ st.atBase).foldl (anchorOne disk) st.world).entry row.rel
            = st.world.entry row.rel := fun hnil =>
      hmoves.foldl_other hdrive (habsent row.rel hnil)
    generalize st.view row.rel = view at hleft hroot hmem hentry hnone
    cases hleft with
    | reached hfresh =>
        obtain ⟨dataset, told, hended, hend, hsub⟩ :=
          hone snap [] _ _ .point hfresh (hmem _ (by simp)) hentry.symm
        exact ⟨dataset, told, hended, hend, fun _ => hsub⟩
    | atBase hbase hfresh =>
        obtain ⟨dataset, told, hended, hend, -⟩ :=
          hone _ _ _ _ (.base hbase) hfresh (hmem _ (by simp)) hentry.symm
        exact ⟨dataset, told, hended, hend, fun hbe => absurd (hroot hbe) (List.cons_ne_nil _ _)⟩
    | nothing =>
        exact ⟨none, _, (hnone rfl).trans hentry.symm, .lost, fun hbe =>
          absurd (hroot hbe) (List.cons_ne_nil _ _)⟩

end Anchor

/-! ### Keys and exclusions -/

def keyLines (listed : Bool) (rel : Rel) (own : Bool) : List RecoverError :=
  if listed && own then [.keyNotChanged rel] else []

section After

variable {w w' : Recovering} {rel k : Rel} {fatal : Fatal} {flags : List Flag} {row : BasedRow}
  {rows : List BasedRow} {drive : Drive}

theorem mustSucceed_eq_ok (h : mustSucceed fatal w = .ok w') : w' = w.answered := by
  rw [mustSucceed] at h
  split at h
  · exact (Except.ok.inj h).symm
  · cases h

/-- The exclusions of a dataset once `flags` are set too. -/
def flagged (rel : Rel) (flags : List Flag) (setting : Option Setting) : Option Setting :=
  flags.foldl (fun setting flag => some ((setting.getD { rel }).set flag "no")) setting

theorem settings_setNo (w : Recovering) (rel : Rel) (flags : List Flag) :
    (∀ k, k ≠ rel → (w.setNo rel flags).settings.get? k = w.settings.get? k) ∧
        (w.setNo rel flags).settings.get? rel = flagged rel flags (w.settings.get? rel) := by
  rw [Recovering.setNo, flagged]
  generalize w.settings = settings
  induction flags generalizing settings with
  | nil => exact ⟨fun _ _ => rfl, rfl⟩
  | cons flag flags ih =>
      have hrel : (((settings.get? rel).getD { rel }).set flag "no").rel = rel := by
        rw [Setting.rel_set]
        cases hget : settings.get? rel with
        | none => rfl
        | some s => exact Keyed.key_of_get? hget
      have hself :=
        Keyed.get?_put_self (s := settings) (a := ((settings.get? rel).getD { rel }).set flag "no")
      rw [hrel] at hself
      obtain ⟨hother, hflags⟩ :=
        ih (settings.put (((settings.get? rel).getD { rel }).set flag "no"))
      refine ⟨fun k hk => (hother k hk).trans (Keyed.get?_put_of_ne (by rwa [hrel])), ?_⟩
      rw [List.foldl_cons, List.foldl_cons, ← hself]
      exact hflags

theorem entry_setNo_of_ne (hk : k ≠ rel) : (w.setNo rel flags).entry k = w.entry k :=
  congrArg (fun setting => Entry.mk (w.pools.get? k) (decide (k ∈ w.ownRoots)) setting
      (w.errors.filter (·.rel = k)))
      ((settings_setNo w rel flags).1 k hk)

theorem entry_setNo_self : (w.setNo rel flags).entry rel
      = { w.entry rel with setting := flagged rel flags (w.entry rel).setting } :=
  congrArg (fun setting => Entry.mk (w.pools.get? rel) (decide (rel ∈ w.ownRoots)) setting
      (w.errors.filter (·.rel = rel)))
      (settings_setNo w rel flags).2

theorem moves_changeKey : Own.Moves Recovering.entry id (fun _ => True) changeKey where
  other w rel _ k hk := by
    rw [changeKey]
    split
    · have hsame : decide (k ∈ w.ownRoots.filter (· ≠ rel)) = decide (k ∈ w.ownRoots) := by
        have hne : k ≠ rel := hk
        simp [hne]
      exact congrArg (fun own => Entry.mk (w.pools.get? k) own (w.settings.get? k)
        (w.errors.filter (·.rel = k))) hsame
    · exact entry_report_of_ne hk
  kept _ _ _ := trivial

theorem entry_changeKey (hown : (w.entry rel).ownRoot = true) :
    ∃ own, (changeKey w rel).entry rel
      = { w.entry rel with ownRoot := own, told := (w.entry rel).told ++ keyLines true rel own } := by
  rw [changeKey]
  split
  · refine ⟨false, ?_⟩
    have hgone : decide (rel ∈ w.ownRoots.filter (· ≠ rel)) = false := by simp
    rw [keyLines, Bool.and_false, if_neg Bool.false_ne_true, List.append_nil]
    exact congrArg (fun own => Entry.mk (w.pools.get? rel) own (w.settings.get? rel)
      (w.errors.filter (·.rel = rel))) hgone
  · refine ⟨true, ?_⟩
    rw [entry_report_self (show (RecoverError.keyNotChanged rel).rel = rel from rfl),
      entry_answered]
    generalize w.entry rel = e at hown
    obtain ⟨dataset, own, setting, told⟩ := e
    obtain rfl : own = true := hown
    rfl

theorem drive_changeKey (w : Recovering) (rel : Rel) : (changeKey w rel).drive = w.drive := by
  rw [changeKey]
  split <;> rfl

theorem drive_foldl {α : Type*} {move : Recovering → α → Recovering}
    (h : ∀ w a, (move w a).drive = w.drive) (l : List α) (w : Recovering) :
    (l.foldl move w).drive = w.drive := by
  induction l generalizing w with
  | nil => rfl
  | cons a l ih => rw [List.foldl_cons, ih, h]

/-- A dataset whose key is as the listing, or its absence, left it. -/
def Rekeyed (listed : Bool) (rel : Rel) (e e' : Entry) : Prop :=
  ∃ own, (own = true → e.ownRoot = true) ∧ (listed = false → own = e.ownRoot) ∧
    e' = { e with ownRoot := own, told := e.told ++ keyLines listed rel own }

theorem rekeyed_refl {listed : Bool} {e : Entry} (h : (listed && e.ownRoot) = false) :
    Rekeyed listed k e e := by
  refine ⟨e.ownRoot, id, fun _ => rfl, ?_⟩
  rw [keyLines, h, if_neg Bool.false_ne_true, List.append_nil]

/-- The keys of all, if the datasets are listed: one that is its own encryption root is said to
be. -/
theorem restoreEncryptionRoot_spec (listed : Bool) (w : Recovering) :
    (restoreEncryptionRoot listed w).drive = w.drive ∧ ∀ k,
    ((w.entry k).ownRoot = true → (w.entry k).dataset.isSome = true) →
      Rekeyed listed k (w.entry k) ((restoreEncryptionRoot listed w).entry k) := by
  rw [restoreEncryptionRoot]
  cases listed with
  | false => exact ⟨rfl, fun k _ => rekeyed_refl rfl⟩
  | true =>
      rw [if_pos rfl]
      have hmem : ∀ k, k ∈ (w.pools.keys.filter (· ∈ w.ownRoots)).map id ↔
          ((w.entry k).dataset.isSome && (w.entry k).ownRoot) = true := by
        intro k
        rw [List.map_id, List.mem_filter, Bool.and_eq_true]
        exact and_congr_left' (Keyed.get?_isSome_iff (s := w.pools)).symm
      have hnodup : ((w.pools.keys.filter (· ∈ w.ownRoots)).map id).Nodup := by
        rw [List.map_id]
        exact w.pools.nodup.filter _
      refine ⟨drive_foldl drive_changeKey _ _, fun k hthere => ?_⟩
      cases hown : (w.entry k).ownRoot with
      | false =>
          have hk : k ∉ (w.pools.keys.filter (· ∈ w.ownRoots)).map id := fun hk => by
            have hboth := (hmem k).mp hk
            rw [hown, Bool.and_false] at hboth
            cases hboth
          rw [moves_changeKey.foldl_other (s := w) trivial hk]
          exact rekeyed_refl hown
      | true =>
          have hk := (hmem k).mpr (by rw [hthere hown, hown]; rfl)
          rw [List.map_id] at hk
          obtain ⟨t, -, hview, hlast⟩ := moves_changeKey.foldl_own (s := w) trivial hnodup hk
          have hview : t.entry k = w.entry k := hview
          obtain ⟨own, hentry⟩ := entry_changeKey (hview ▸ hown)
          exact ⟨own, fun _ => hown, Bool.noConfusion, (hlast.trans hentry).trans (by rw [hview])⟩

/-! ### Exclusions -/

/-- A dataset the point left out: there with its exclusions, or said not to be. -/
def EmptyEnd (row : BasedRow) (e : Entry) : Prop :=
  e = { dataset := some { rel := row.rel },
        setting :=
          flagged row.rel (createFlags row.toRestoreRow) none } ∨
            e = { told := [.notCreated row.rel] }

def exclusionLines (tops : List Rel) (rel : Rel) (setting : Option Setting) : List RecoverError :=
  if rel ∈ tops ∧ setting = none then [.notExcluded rel] else []

/-- A restored dataset once the tops are excluded from snapshots again. -/
def Excluded (tops : List Rel) (rel : Rel) (e e' : Entry) : Prop :=
  ∃ setting, (setting ≠ none → rel ∈ tops ∧ e.dataset.isSome = true ∧
    setting = flagged rel [.snapshot] none) ∧
    e' = { e with setting, told := e.told ++ exclusionLines tops rel setting }

theorem entry_addDataset {pools : Origins} (h : Recovering.addDataset rel w.pools = some pools) :
    ({ w.answered with pools } : Recovering).entry rel =
    { w.entry rel with dataset := some { rel } } := by
  rw [Recovering.addDataset] at h
  split at h
  · exact congrArg (fun dataset => Entry.mk dataset (decide (rel ∈ w.ownRoots))
      (w.settings.get? rel) (w.errors.filter (·.rel = rel)))
      (get?_push?_self h)
  · cases h

theorem moves_createOne : Own.Moves Recovering.entry (fun row : BasedRow => row.rel)
      (fun _ => True) createOne where
  other w row _ k hk := by
    rw [createOne]
    split
    · rename_i w' hrun
      rw [entry_setNo_of_ne hk]
      exact entry_of_run hrun (touches_addDataset row.rel) hk
    · rename_i w' hrun
      rw [entry_report_of_ne (show k ≠ (RecoverError.notCreated row.rel).rel from hk)]
      exact entry_of_run hrun (touches_addDataset row.rel) hk
  kept _ _ _ := trivial

theorem emptyEnd_createOne (hempty : w.entry row.rel = {}) :
    EmptyEnd row ((createOne w row).entry row.rel) := by
  rw [createOne]
  obtain ⟨pools, -, heffect, hrun⟩ | ⟨-, hrun⟩ := run_cases w (Recovering.addDataset row.rel)
  · simp only [hrun]
    rw [entry_setNo_self, entry_addDataset heffect, hempty]
    exact .inl rfl
  · simp only [hrun]
    rw [entry_report_self (show (RecoverError.notCreated row.rel).rel = row.rel from rfl),
      entry_answered, hempty]
    exact .inr rfl

theorem drive_createOne (w : Recovering) (row : BasedRow) : (createOne w row).drive = w.drive := by
  rw [createOne]
  split
  · rename_i w' hrun
    have hdrive : w'.drive = w.drive := drive_of_run hrun
    exact hdrive
  · rename_i w' hrun
    have hdrive : w'.drive = w.drive := drive_of_run hrun
    exact hdrive

theorem touches_keep (top : Rel) : Touches rel fun pools =>
      if top ∈ pools.keys then some pools else none := by
  intro pools pools' h k _
  obtain ⟨-, hsame⟩ := Option.ite_none_right_eq_some.mp h
  rw [Option.some.inj hsame]

theorem moves_excludeOne (rows : List BasedRow) :
    Own.Moves Recovering.entry id (fun _ => True) (excludeOne rows) where
  other w top _ k hk := by
    have hk : k ≠ top := hk
    rw [excludeOne]
    split
    · rfl
    · split
      · split
        · rename_i w' hrun
          rw [entry_setNo_of_ne hk]
          exact entry_of_run hrun (touches_keep top) hk
        · rename_i w' hrun
          rw [entry_report_of_ne (show k ≠ (RecoverError.notExcluded top).rel from hk)]
          exact entry_of_run hrun (touches_keep top) hk
      · rfl
  kept _ _ _ := trivial

theorem drive_excludeOne (rows : List BasedRow) (w : Recovering) (top : Rel) :
    (excludeOne rows w top).drive = w.drive := by
  rw [excludeOne]
  split
  · rfl
  · split
    · split
      · rename_i w' hrun
        have hdrive : w'.drive = w.drive := drive_of_run hrun
        exact hdrive
      · rename_i w' hrun
        have hdrive : w'.drive = w.drive := drive_of_run hrun
        exact hdrive
    · rfl

theorem entry_excludeOne_of_not {top : Rel}
    (h : ∀ row ∈ rows, row.rel = top → row.restored = false) :
    (excludeOne rows w top).entry k = w.entry k := by
  rw [excludeOne]
  split
  · rfl
  · rename_i row hrow
    have hnot := h row (List.mem_of_find?_eq_some hrow) (by simpa using List.find?_some hrow)
    rw [hnot, if_neg Bool.false_ne_true]

theorem excluded_foldl {tops : List Rel} (hnodup : tops.Nodup)
    (hrows : (rows.map fun row => row.rel).Nodup) (hrow : row ∈ rows)
    (hrestored : row.restored = true) (hnone : (w.entry row.rel).setting = none) :
    Excluded tops row.rel (w.entry row.rel) ((tops.foldl (excludeOne rows) w).entry row.rel) := by
  have hmoves := moves_excludeOne rows
  by_cases htop : row.rel ∈ tops
  · obtain ⟨t, -, hview, hlast⟩ := hmoves.foldl_own trivial (by rwa [List.map_id]) htop
    have hview : t.entry row.rel = w.entry row.rel := hview
    have hlast : (tops.foldl (excludeOne rows) w).entry row.rel
        = (excludeOne rows t row.rel).entry row.rel := hlast
    have hfind : rows.find? (fun r => r.rel = row.rel) = some row := by
      obtain ⟨found, hfound⟩ :=
        Option.isSome_iff_exists.mp (List.find?_isSome (p := fun r : BasedRow =>
          r.rel = row.rel).mpr ⟨row, hrow, by simp⟩)
      have hsame : found.rel = row.rel := by simpa using List.find?_some hfound
      rw [hfound, List.inj_on_of_nodup_map hrows (List.mem_of_find?_eq_some hfound) hrow hsame]
    rw [hlast, excludeOne, hfind]
    simp only [hrestored, if_true]
    obtain ⟨pools, -, heffect, hrun⟩ | ⟨-, hrun⟩ :=
      run_cases t fun pools => if row.rel ∈ pools.keys then some pools else none
    · obtain ⟨hthere, hsame⟩ := Option.ite_none_right_eq_some.mp heffect
      obtain rfl := Option.some.inj hsame
      have hdataset : (t.entry row.rel).dataset.isSome = true := Keyed.get?_isSome_iff.mpr hthere
      rw [hview] at hdataset
      refine ⟨flagged row.rel [.snapshot] none, fun _ => ⟨htop, hdataset, rfl⟩, ?_⟩
      simp only [hrun]
      rw [entry_setNo_self, show ({ t.answered with pools := t.pools } : Recovering).entry row.rel
          = t.entry row.rel from entry_pools t t.pools row.rel, hview, hnone, exclusionLines]
      rw [if_neg (by simp [flagged]), List.append_nil]
    · refine ⟨none, fun h => absurd rfl h, ?_⟩
      simp only [hrun]
      rw [entry_report_self (show (RecoverError.notExcluded row.rel).rel = row.rel from rfl),
          entry_answered, hview, exclusionLines, if_pos ⟨htop, rfl⟩, ← hnone]
  · refine ⟨none, fun h => absurd rfl h, ?_⟩
    rw [hmoves.foldl_other trivial (by rwa [List.map_id]), exclusionLines, if_neg fun h =>
      htop h.1, List.append_nil, ← hnone]

end After

/-! ### Boot pool and keystore -/

/-- How bpool can end, with what is said of its dataset and of the pool. -/
inductive BpoolEnd (drive : Drive) (disk : DiskGuid) (row : BasedRow) (snap : Snap) :
    Option Origin → List RecoverError → List RecoverError → Prop
  | lost : BpoolEnd drive disk row snap none [] [.bpoolFailed]
  | anchored {o : Origin} {front : List Ref} {x : Ref} {snaps : List Snap} {left : Snap}
      {lines : List RecoverError}
      (harrived : ArrivedAs row snap snaps left lines)
      (hrel : o.rel = row.rel) (hcarries : List.Forall₂ (Carries drive) snaps (front ++ [x]))
      (hitems : o.snaps.items = front ++ [{ x with name := RecoverCommands.anchorFor disk left }]) :
      BpoolEnd drive disk row snap (some o) lines []
  | unanchored {o : Origin} {snaps : List Snap} {left : Snap} {lines : List RecoverError}
      (harrived : ArrivedAs row snap snaps left lines)
      (hfresh : Fresh drive row.rel snaps o) :
      BpoolEnd drive disk row snap (some o) (lines ++ [.notAnchored row.rel]) []

section Bpool

variable {w w' : Recovering} {k : Rel} {disk : DiskGuid} {row : BasedRow} {snap left : Snap}
  {snaps : List Snap} {lines : List RecoverError}
  {o : Origin}

/-- The newest snapshot keeps its place under the name of the anchor. -/
theorem renamed_of_apply {pools pools' : Origins} {drive : Drive} {rel : Rel}
    (harrived : ArrivedAs row snap snaps left lines) (hfresh : Fresh drive rel snaps o)
    (ho : pools.get? rel = some o) {name : String}
    (h : Cmd.apply pools (.rename rel left.name name) = some pools') :
    ∃ o' front x, pools'.get? rel = some o' ∧ o'.rel = rel ∧
    List.Forall₂ (Carries drive) snaps (front ++ [x]) ∧
        o'.snaps.items = front ++ [{ x with name }] := by
  obtain ⟨x, hnewest, hcarries, -⟩ := harrived.newest hfresh.holds
  obtain ⟨front, hfront⟩ := List.getLast?_eq_some_iff.mp hnewest
  obtain ⟨o₁, o', ho₁, heffect, ho', -⟩ := Cmd.apply_spec h
  obtain rfl : o = o₁ := Option.some.inj (ho.symm.trans ho₁)
  cases heffect with
  | rename hold hitems =>
      refine ⟨_, front, x, ho', hfresh.rel, hfront ▸ hfresh.snaps, ?_⟩
      have hnodup := o.snaps.nodup
      rw [hfront, List.map_append, List.map_singleton, List.nodup_append] at hnodup
      have hothers : ∀ y ∈ front, y.name ≠ left.name := fun y hy heq =>
        hnodup.2.2 y.name (List.mem_map_of_mem hy) x.name List.mem_cons_self
          (heq.trans hcarries.name.symm)
      have hfixed : front.map (fun s : Ref =>
          if s.name = left.name then { s with name } else s) = front :=
        List.map_congr_left (fun y hy => if_neg (hothers y hy)) |>.trans (List.map_id front)
      rw [hitems, hfront, List.map_append, List.map_singleton, hfixed, if_pos hcarries.name]

theorem entry_createContainer {rel : Rel} (hk : k ≠ rel) :
    (w.createContainer rel).entry k = w.entry k := entry_run (touches_addDataset rel) hk

/-- The rename that makes what arrived the drive's anchor. -/
theorem bpoolEnd_rename (harrived : ArrivedAs row snap snaps left lines)
    (hfresh : Fresh w.drive row.rel snaps o) {told : List RecoverError}
    (hentry : w.entry row.rel = { dataset := some o, told := told ++ lines }) {ok : Bool}
    {w₁ : Recovering}
    (hrun : w.run (Cmd.apply · (.rename row.rel left.name (RecoverCommands.anchorFor disk left)))
      = (ok, w₁))
    (hw' : w' = if ok then w₁ else w₁.report (.notAnchored row.rel)) :
    w'.drive = w.drive ∧ (∀ k, k ≠ row.rel → w'.entry k = w.entry k) ∧
      ∃ o' lines', BpoolEnd w.drive disk row snap (some o') lines' [] ∧
      w'.entry row.rel = { dataset := some o', told := told ++ lines' } := by
  have hdrive : w₁.drive = w.drive := drive_of_run hrun
  have hother : ∀ k, k ≠ row.rel → w₁.entry k = w.entry k := fun k hk =>
    entry_of_run hrun
      (touches_cmd (.rename row.rel left.name (RecoverCommands.anchorFor disk left))) hk
  cases ok with
  | true =>
      obtain ⟨pools, heffect, rfl⟩ := done_of_run hrun
      rw [if_pos rfl] at hw'
      obtain ⟨o', front, x, ho', hrel, hcarries, hitems⟩ :=
        renamed_of_apply harrived hfresh (congrArg Entry.dataset hentry) heffect
      refine hw' ▸ ⟨hdrive, hother, o', lines, .anchored harrived hrel hcarries hitems, ?_⟩
      rw [entry_pools, hentry, ho']
  | false =>
      obtain rfl := failed_of_run hrun
      rw [if_neg Bool.false_ne_true] at hw'
      refine hw' ▸ ⟨rfl, fun k hk => ?_, o, _, .unanchored harrived hfresh, ?_⟩
      · rw [entry_report_of_ne (show k ≠ (RecoverError.notAnchored row.rel).rel from hk),
          entry_answered]
      · rw [entry_report_self (show (RecoverError.notAnchored row.rel).rel = row.rel from rfl),
          entry_answered, hentry, ← List.append_assoc]

/-- What `restore_bpool` leaves of the boot environment's dataset, of the pool's line and of all
else. -/
structure BpoolLeft (disk : DiskGuid) (row : BasedRow) (snap : Snap) (told : List RecoverError)
    (w w' : Recovering) : Prop where
  drive : w'.drive = w.drive
  other : ∀ k, k ≠ row.rel → k ≠ ["bpool"] → k ≠ ["bpool", "BOOT"] → w'.entry k = w.entry k
  boot : (w'.entry ["bpool", "BOOT"]).told = (w.entry ["bpool", "BOOT"]).told
  ended : ∃ dataset lines said, BpoolEnd w.drive disk row snap dataset lines said ∧
    w'.entry row.rel = { dataset, told := told ++ lines } ∧
    (w'.entry ["bpool"]).told = (w.entry ["bpool"]).told ++ said

theorem bpoolLeft_of_restoreBpool (hrestored : row.restored = true) (hsnap : row.snap = some snap)
    (hbpool : row.rel ≠ ["bpool"]) (hboot : row.rel ≠ ["bpool", "BOOT"]) {told : List RecoverError}
    (hentry : w.entry row.rel = { told }) (h : restoreBpool disk (some row) w = .ok w') :
    BpoolLeft disk row snap told w w' := by
  simp only [restoreBpool, Option.filter_some, hrestored, if_true, hsnap] at h
  obtain ⟨got, hgot, h⟩ := Except.bind_eq_ok.mp h
  obtain ⟨hwithin, -, hsent⟩ := receiveRow_spec hgot
  have hcreated : (w.createContainer ["bpool", "BOOT"]).drive = w.drive := drive_run w _
  have hthere : (w.createContainer ["bpool", "BOOT"]).entry row.rel = { told } :=
    (entry_createContainer hboot).trans hentry
  have hsent := hsent (congrArg Entry.dataset hthere)
  have hself := hwithin.entry_self
  rw [hthere] at hself
  rw [hcreated] at hsent
  have hbootTold : (got.world.entry ["bpool", "BOOT"]).told = (w.entry ["bpool", "BOOT"]).told :=
    (congrArg Entry.told (hwithin.entry (Ne.symm hboot))).trans (told_run w _)
  have hother : ∀ k, k ≠ row.rel → k ≠ ["bpool", "BOOT"] → got.world.entry k = w.entry k :=
    fun k hk hk' =>
      (hwithin.entry hk).trans (entry_createContainer hk')
  have hpool : got.world.entry ["bpool"] = w.entry ["bpool"] :=
    hother _ (Ne.symm hbpool) (by decide)
  have hdrive : got.world.drive = w.drive := hwithin.drive.trans hcreated
  -- What arrived is anchored in the same way at the point and at the monthly.
  have hends : ∀ (world : Recovering) left lines snaps o (ok : Bool) w₁, world.drive = w.drive →
      (∀ k, k ≠ row.rel → world.entry k = got.world.entry k) →
      ArrivedAs row snap snaps left lines → Fresh w.drive row.rel snaps o →
      world.entry row.rel = { dataset := some o, told := told ++ lines } →
      world.run (Cmd.apply · (.rename row.rel left.name (RecoverCommands.anchorFor disk left)))
        = (ok, w₁) →
      w' = (if ok then w₁ else w₁.report (.notAnchored row.rel)) →
      BpoolLeft disk row snap told w w' := by
    intro world left lines snaps o ok w₁ hsame hworld harrived hfresh hentry hrun hw'
    rw [← hsame] at hfresh
    obtain ⟨hkept, hrest, o', lines', hend, hended⟩ :=
      bpoolEnd_rename harrived hfresh hentry hrun hw'
    have hall : ∀ k, k ≠ row.rel → w'.entry k = got.world.entry k :=
      fun k hk => (hrest k hk).trans (hworld k hk)
    refine ⟨hkept.trans hsame, fun k hk _ hk' => (hall k hk).trans (hother k hk hk'),
      (congrArg Entry.told (hall _ (Ne.symm hboot))).trans hbootTold, some o', lines', [],
      hsame ▸ hend, hended, ?_⟩
    rw [hall _ (Ne.symm hbpool), hpool, List.append_nil]
  generalize got.left = left? at hsent h
  generalize got.error = error? at hsent h
  cases hsent with
  | reached ho hfresh =>
      rw [ho] at hself
      simp only [Option.elim_none] at h
      have hentry := hself.trans (by rw [List.append_nil] : _ = Entry.mk _ false none (told ++ []))
      split at h
      · rename_i w₁ hrun
        exact hends _ _ [] _ _ true w₁ hdrive (fun _ _ => rfl) .point hfresh hentry hrun
          (Except.ok.inj h).symm
      · rename_i w₁ hrun
        exact hends _ _ [] _ _ false w₁ hdrive (fun _ _ => rfl) .point hfresh hentry hrun
          (Except.ok.inj h).symm
  | atBase hbase ho hfresh =>
      rename_i base o
      rw [ho] at hself
      simp only [Option.elim_some] at h
      have hentry : (got.world.report (.leftAtBase row.rel base.name)).entry row.rel =
          { dataset := some o, told := told ++ [.leftAtBase row.rel base.name] } := by
        rw [entry_report_self (show (RecoverError.leftAtBase row.rel base.name).rel
          = row.rel from rfl), hself]
      have hworld : ∀ k, k ≠ row.rel → (got.world.report (.leftAtBase row.rel base.name)).entry k
          = got.world.entry k := fun k hk =>
        entry_report_of_ne (show k ≠ (RecoverError.leftAtBase row.rel base.name).rel from hk)
      split at h
      · rename_i w₁ hrun
        exact hends (got.world.report (.leftAtBase row.rel base.name)) _ _ _ _ true w₁ hdrive hworld
            (.base hbase) hfresh hentry hrun
            (Except.ok.inj h).symm
      · rename_i w₁ hrun
        exact hends (got.world.report (.leftAtBase row.rel base.name)) _ _ _ _ false w₁ hdrive
            hworld (.base hbase) hfresh hentry hrun
            (Except.ok.inj h).symm
  | nothing hnone =>
      obtain rfl := Except.ok.inj h
      have hne : ∀ k, k ≠ ["bpool"] → (got.world.report .bpoolFailed).entry k = got.world.entry k :=
        fun k hk =>
          entry_report_of_ne (show k ≠ RecoverError.bpoolFailed.rel from hk)
      refine ⟨hdrive, fun k hk hk' hk'' => (hne k hk').trans (hother k hk hk''),
        (congrArg Entry.told (hne _ (by decide))).trans hbootTold, none, [], [.bpoolFailed],
        .lost, ?_, ?_⟩
      · rw [hne _ hbpool, hself, hnone, List.append_nil]
      · rw [entry_report_self (show RecoverError.bpoolFailed.rel = ["bpool"] from rfl), hpool]

end Bpool

end Zark.RecoverRun
