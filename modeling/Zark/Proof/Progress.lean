import Zark.Library.Checks
import Zark.Proof.StatusFile
import Zark.Progress

/-!
# No run ends unseen

Over any history of runs, killed anywhere or ended, with any `zark status` in between: once the next
command has started, a drive's ending in status.json is that of the newest run which has one. A
run's own result is what it wrote; a run that died without one is `interrupted`, when progress.json
still shows its drive. The file is read again and again until a run replaces it, and its ending is
recorded once.
-/

namespace Zark.Progress

open Json StatusFile

variable {parseUtcIso : String → Option Int} {guid : String}

/-! ### What is written of a drive -/

/-- A writer that puts its file in place, but for a newer one there. -/
def Works (w : Writer) : Prop :=
  w.liveUsb = false ∧ w.cfg.loadError = none ∧ w.lock = .taken ∧
    ∀ failure ∈ w.failure, failure.replaced = true

instance (w : Writer) : Decidable (Works w) :=
  decidable_of_iff (w.liveUsb = false ∧ w.cfg.loadError.isNone = true ∧
      (w.lock matches .taken) = true ∧
      w.failure.all Failure.replaced = true) <| by
    rw [Works, Option.isNone_iff_eq_none, Option.all_eq_true_iff_get]
    cases w.lock <;> cases w.failure <;> simp

/-- A writer whose registry has the drive. -/
def Registered (guid : String) (w : Writer) : Prop := w.guids.Nodup ∧ guid ∈ w.guids

/-- The ending that a drive's updates leave on record. -/
def ending (us : List DriveUpdate) : Option LastRun := us.foldl recorded none

theorem ending_snoc (us : List DriveUpdate) (up : DriveUpdate) :
    ending (us ++ [up]) = recorded (ending us) up := by
  rw [ending, List.foldl_append]
  rfl

/-- A file this zark writes, with the ending it has of the drive. -/
def OnRecord (guid : String) (file : File) (last : Option LastRun) : Prop :=
  newer (read file) = none ∧ ∃ us, Carried us (previousEntry (read file) guid) ∧ ending us = last

theorem written_of_works {w : Writer} {file : File} (hworks : Works w)
    (hnewer : newer (read file) = none) :
    StatusFile.written parseUtcIso w file
      = .doc (build parseUtcIso w.st w.cfg w.generatedBy w.generatedAt (read file) w.updates) := by
  obtain ⟨hlive, hload, hlock, hfailure⟩ := hworks
  simp only [StatusFile.written, StatusFile.write, hlive, hload, hlock, hnewer]
  cases hwent : w.failure with
  | none => rfl
  | some failure => simp [hfailure failure hwent]

theorem written_of_not_works {w : Writer} {file : File} (hworks : ¬Works w) :
    StatusFile.written parseUtcIso w file = file := by
  have hnone : (StatusFile.write parseUtcIso w file).2.1 = none := by
    rw [← Option.not_isSome_iff_eq_none]
    refine mt (fun hput => ?_) hworks
    unfold StatusFile.write at hput
    split at hput
    · cases hput
    rename_i hlive
    split at hput
    · cases hput
    rename_i hload
    split at hput
    · cases hput
    · cases hput
    rename_i hlock
    dsimp only at hput
    refine ⟨Bool.eq_false_iff.mpr hlive, hload, hlock, fun failure hfailure => ?_⟩
    split at hput
    · cases hput
    rw [show w.failure = some failure from hfailure] at hput
    by_contra hreplaced
    simp [hreplaced] at hput
  rw [StatusFile.written, hnone, Option.elim_none]

theorem OnRecord.write {file : File} {last : Option LastRun} (h : OnRecord guid file last)
    {w : Writer} (hw : Registered guid w) :
    OnRecord guid (StatusFile.written parseUtcIso w file)
      (if Works w then recorded last ((w.updates guid).getD {}) else last) := by
  obtain ⟨hnewer, us, hcarried, rfl⟩ := h
  by_cases hworks : Works w
  · obtain ⟨fields, hbuild, hread, hthis, hdrives⟩ := @build_spec parseUtcIso w (read file)
    obtain ⟨hentry, -⟩ := previousEntry_build hdrives hw.1
    obtain ⟨info, hinfo, rfl⟩ := List.mem_map.mp hw.2
    rw [if_pos hworks, written_of_works hworks hnewer, hbuild, OnRecord, hread]
    refine ⟨hthis, us ++ [(w.updates info.guid).getD {}], ?_, ending_snoc _ _⟩
    rw [hentry _ (mem_entries.mpr ⟨info, hinfo, rfl⟩)]
    exact carried_driveEntry hcarried
  · rw [if_neg hworks, written_of_not_works hworks]
    exact ⟨hnewer, us, hcarried, rfl⟩

/-- An update with an ending of its own puts it there. -/
theorem recorded_own {last : Option LastRun} {up : DriveUpdate} (h : up.unlessStartedAt = "") :
    recorded last up = up.lastRun.or last := by
  rw [recorded]
  cases up.lastRun with
  | none => rfl
  | some e => simp [h]

/-! ### What a dead run left -/

/-- The drive a document shows, with the update it gets if the run dies now. -/
def Run.left (r : Run) (now : String) : Option (String × DriveUpdate) :=
  if r.command = "backup" then
    r.drive.map fun d =>
      (d.guid, { lastRun := some ⟨"interrupted", r.startedAt, now, r.point, 0, "the run ended without recording a result"⟩
                 unlessStartedAt := r.startedAt })
  else none

theorem dead_document (r : Run) (now : String) (rate : Option ℕ) :
    dead (.doc (r.document now rate)) = r.left now := by
  have horphan : ∃ fields, r.document now rate = obj fields ∧
      orphan (.doc (obj fields)) = some fields ∧ get fields "command" = str r.command ∧
      get fields "drive" = r.drive.elim null ShownDrive.toJson ∧
      get fields "started_at" = str r.startedAt ∧ get fields "updated_at" = str now ∧
      get fields "point" = text? r.point := by
    refine ⟨_, rfl, ?_, ?_⟩
    · simp [orphan, Json.get, field?, int?]
    · simp [Json.get, field?]
  obtain ⟨fields, hdocument, horphan, hcommand, hdrive, hstarted, hupdated, hpoint⟩ := horphan
  rw [dead, hdocument, horphan, Option.bind_some, interrupted, hcommand, hdrive, Run.left]
  cases r.drive with
  | none => simp
  | some d =>
      have hguid : d.toJson = obj [("name", str d.name), ("guid", str d.guid),
        ("drive_id", str (if d.driveId = "" then "<unknown>" else d.driveId)),
        ("space", d.space.elim null StatusFile.Space.toJson)] := rfl
      simp only [Option.elim_some, hguid, hstarted, hupdated, hpoint, Option.map_some]
      cases r.point <;> simp [Json.get, field?, text?]

/-! ### Steps of a run -/

variable {began : String} {r r' : Run}

/-- Two runs that differ only in what they show and in the backup's record. -/
structure Alike (r r' : Run) : Prop where
  command : r'.command = r.command
  startedAt : r'.startedAt = r.startedAt
  phase : r'.phase = r.phase
  updates : r'.updates = r.updates

/-- An event that sets no ending, nor what makes one at the end. -/
def Event.IsQuiet (e : Event) : Prop :=
  e ≠ .register ∧ ∀ result endedAt missing message, e ≠ .result result endedAt missing message

/-- The drive a backup chooses. -/
def Action.chosen : Action → Option String
  | .event (.select _ guid _ _) => some guid
  | _ => none

/-- What an event does to a run's endings. -/
inductive Effect (r : Run) : Event → Run → Prop
  | shows {e : Event} {r' : Run} (halike : Alike r r') (hrecord : r'.record = r.record)
    (honEnd : r'.onEnd = r.onEnd) (hquiet : e.IsQuiet)
      (he : e ≠ .receive) (hselect : Action.chosen (.event e) = none) : Effect r e r'
  | registers {r' : Run} (halike : Alike r r') (hrecord : r'.record = r.record)
      (hthere : r.record.isSome = true) (honEnd : r'.onEnd = true) :
      Effect r .register r'
  | selects {name guid driveId : String} {pointRecord : Option (String × String)} {r' : Run}
      (halike : Alike r r') (hcommand : r.command = "backup")
      (hnone : r.record = none) (hrecord : r'.record = some { guid, pointRecord })
      (honEnd : r'.onEnd = r.onEnd) :
      Effect r (.select name guid driveId pointRecord) r'
  | notes {e : Event} {record record' : RunRecord} {r' : Run} (halike : Alike r r')
      (hold : r.record = some record) (hnew : r'.record = some record')
      (hguid : record'.guid = record.guid) (hdone : record'.done = record.done)
      (honEnd : r'.onEnd = r.onEnd) (hquiet : e.IsQuiet)
      (hstarted : record'.started = true ↔ record.started = true ∨ e = .receive)
      (hselect : Action.chosen (.event e) = none) : Effect r e r'
  | result {record : RunRecord} (result endedAt : String) (missing : ℕ) (message : String)
      (hrecord : r.record = some record)
      (hdone : record.done = false) : Effect r (.result result endedAt missing message)
      (r.result record endedAt result missing message)
  | contents (guid : String) (space : StatusFile.Space) (contents : DriveContents)
      (hcommand : r.command = "prune") :
      Effect r (.contents guid space contents)
        (r.recorded guid { space := some space, contents := some contents })

theorem alike_setSpace (r : Run) (space : Option StatusFile.Space) :
    Alike r (r.setSpace space) ∧ (r.setSpace space).record = r.record ∧
    (r.setSpace space).onEnd = r.onEnd := by
  cases space <;> exact ⟨⟨rfl, rfl, rfl, rfl⟩, rfl, rfl⟩

theorem effect_of_event {e : Event} (he : r.event e = some r') : Effect r e r' := by
  cases e with
  | step index total label =>
      cases he
      split <;> exact .shows ⟨rfl, rfl, rfl, rfl⟩ rfl rfl
        (by simp [Event.IsQuiet]) Event.noConfusion rfl
  | wait | noteError | beginTransfers | endTransfers | beginSend | endSend =>
      cases he
      exact .shows ⟨rfl, rfl, rfl, rfl⟩ rfl rfl (by simp [Event.IsQuiet]) Event.noConfusion rfl
  | planned | sending | ended =>
      obtain ⟨t, -, rfl⟩ := Option.map_eq_some_iff.mp he
      exact .shows ⟨rfl, rfl, rfl, rfl⟩ rfl rfl (by simp [Event.IsQuiet]) Event.noConfusion rfl
  | register =>
      obtain ⟨record, hrecord, rfl⟩ := Option.map_eq_some_iff.mp he
      exact .registers ⟨rfl, rfl, rfl, rfl⟩ rfl (Option.isSome_iff_exists.mpr ⟨record, hrecord⟩) rfl
  | select name guid driveId pointRecord =>
      obtain ⟨⟨hcommand, hnone⟩, he⟩ := Option.ite_none_right_eq_some.mp he
      cases he
      exact .selects ⟨rfl, rfl, rfl, rfl⟩ hcommand (Option.isNone_iff_eq_none.mp hnone) rfl rfl
  | measure space =>
      obtain ⟨record, hrecord, rfl⟩ := Option.map_eq_some_iff.mp he
      obtain ⟨halike, hrec, honEnd⟩ :=
        alike_setSpace
          { r with record := some { record with space := space.or record.space, contents := none } }
          (space.or record.space)
      exact .notes ⟨halike.command, halike.startedAt, halike.phase, halike.updates⟩ hrecord hrec rfl
        rfl honEnd (by simp [Event.IsQuiet]) (by simp) rfl
  | measureContents space contents =>
      obtain ⟨record, hrecord, rfl⟩ := Option.map_eq_some_iff.mp he
      split
      · exact .shows ⟨rfl, rfl, rfl, rfl⟩ rfl rfl (by simp [Event.IsQuiet]) Event.noConfusion rfl
      · obtain ⟨halike, hrec, honEnd⟩ :=
          alike_setSpace { r with record := some { record with space, contents := some contents } }
            space
        exact .notes ⟨halike.command, halike.startedAt, halike.phase, halike.updates⟩ hrecord hrec
          rfl rfl honEnd (by simp [Event.IsQuiet]) (by simp) rfl
  | engine point =>
      obtain ⟨record, hrecord, rfl⟩ := Option.map_eq_some_iff.mp he
      exact .notes ⟨rfl, rfl, rfl, rfl⟩ hrecord rfl rfl rfl rfl
        (by simp [Event.IsQuiet]) (by simp) rfl
  | pointTaken =>
      obtain ⟨record, hrecord, he⟩ := Option.bind_eq_some_iff.mp he
      obtain ⟨point, -, rfl⟩ := Option.map_eq_some_iff.mp he
      exact .notes ⟨rfl, rfl, rfl, rfl⟩ hrecord rfl rfl rfl rfl
        (by simp [Event.IsQuiet]) (by simp) rfl
  | receive =>
      obtain ⟨record, hrecord, he⟩ := Option.bind_eq_some_iff.mp he
      obtain ⟨point, -, rfl⟩ := Option.map_eq_some_iff.mp he
      exact .notes ⟨rfl, rfl, rfl, rfl⟩ hrecord rfl rfl rfl rfl
        (by simp [Event.IsQuiet]) (by simp) rfl
  | result result endedAt missing message =>
      obtain ⟨record, hrecord, he⟩ := Option.bind_eq_some_iff.mp he
      obtain ⟨hdone, he⟩ := Option.ite_none_left_eq_some.mp he
      cases he
      exact .result result endedAt missing message hrecord (Bool.eq_false_iff.mpr hdone)
  | contents guid space contents =>
      obtain ⟨hcommand, he⟩ := Option.ite_none_right_eq_some.mp he
      cases he
      exact .contents guid space contents hcommand

/-- What an action makes of a run that goes on. -/
inductive Moves (r : Run) : Action → Run → Prop
  | timer (w : Writer) : Moves r (.timer w) r
  | first (now : String) (count rate : Option ℕ) (ok : Bool) (hphase : r.phase = .starting) :
      Moves r (.write now count rate ok) { r.sampled count with phase := .running }
  | write (now : String) (count rate : Option ℕ) (ok : Bool) (hphase : r.phase ≠ .starting) :
      Moves r (.write now count rate ok) (r.sampled count)
  | event {e : Event} {r' : Run} (hphase : r.phase = .running) (he : r.event e = some r') :
      Moves r (.event e) r'
  | flush (w : Writer) (hphase : r.phase = .running) : Moves r (.flush w) r
  | finish (endedAt : String) (signal : Option String) (hphase : r.phase = .running) :
      Moves r (.finish endedAt signal)
        { (if r.onEnd then r.finish endedAt signal else r) with phase := .ending }
  | refresh (w : Writer) (hphase : r.phase = .ending) :
      Moves r (.refresh w) { r with phase := .refreshed }

theorem moves_of_runAfter {a : Action} (ha : runAfter (some r) a = some (some r')) :
    Moves r a r' := by
  cases a with
  | timer w =>
      cases ha
      exact .timer w
  | write now count rate ok =>
      cases hphase : r.phase with
      | starting =>
          simp only [runAfter, hphase, Option.some.injEq] at ha
          subst ha
          exact .first now count rate ok hphase
      | running =>
          simp only [runAfter, hphase, Option.some.injEq] at ha
          subst ha
          exact .write now count rate ok (by simp [hphase])
      | ending =>
          simp only [runAfter, hphase, Option.some.injEq] at ha
          subst ha
          exact .write now count rate ok (by simp [hphase])
      | refreshed =>
          simp only [runAfter, hphase] at ha
          cases ha
  | event e =>
      obtain ⟨hphase, ha⟩ := Option.ite_none_right_eq_some.mp ha
      obtain ⟨r'', he, heq⟩ := Option.map_eq_some_iff.mp ha
      cases heq
      exact .event hphase he
  | flush w =>
      obtain ⟨hphase, ha⟩ := Option.ite_none_right_eq_some.mp ha
      cases ha
      exact .flush w hphase
  | finish endedAt signal =>
      obtain ⟨hphase, ha⟩ := Option.ite_none_right_eq_some.mp ha
      cases ha
      exact .finish endedAt signal hphase
  | refresh w =>
      obtain ⟨hphase, ha⟩ := Option.ite_none_right_eq_some.mp ha
      cases ha
      exact .refresh w hphase
  | remove ok =>
      obtain ⟨-, ha⟩ := Option.ite_none_right_eq_some.mp ha
      cases ha
  | kill => cases ha
  | reboot => cases ha

theorem sampled_phase (r : Run) (count : Option ℕ) : (r.sampled count).phase = r.phase := by
  rw [Run.sampled]
  split <;> rfl

theorem Effect.phase {e : Event} (h : Effect r e r') : r'.phase = r.phase := by
  cases h with
  | shows halike => exact halike.phase
  | registers halike => exact halike.phase
  | selects halike => exact halike.phase
  | notes halike => exact halike.phase
  | result => rfl
  | contents => rfl

theorem Moves.phase {a : Action} (h : Moves r a r') (hphase : r.phase ≠ .starting) :
    r'.phase ≠ .starting := by
  cases h with
  | timer w => exact hphase
  | first => exact Phase.noConfusion
  | write now count rate ok h => exact sampled_phase r count ▸ hphase
  | event h he => exact (effect_of_event he).phase ▸ hphase
  | flush w h => exact hphase
  | finish => exact Phase.noConfusion
  | refresh => exact Phase.noConfusion

/-! ### A run's updates -/

/-- A run that started at `began`, whose updates hold no ending but its own. -/
structure Own (began : String) (r : Run) : Prop where
  started : r.startedAt = began
  updates : ∀ g up, r.updates g = some up → up.unlessStartedAt = "" ∧
    ∀ e ∈ up.lastRun, e.startedAt = began

theorem Own.alike (h : Own began r) (halike : Alike r r') : Own began r' := by
  refine ⟨halike.startedAt.trans h.started, ?_⟩
  rw [halike.updates]
  exact h.updates

theorem Own.recorded (h : Own began r) (g : String) {up : DriveUpdate}
    (hunless : up.unlessStartedAt = "") (hup : ∀ e ∈ up.lastRun, e.startedAt = began) :
    Own began (r.recorded g up) := by
  refine ⟨h.started, fun g' up' hup' => ?_⟩
  change (if g' = g then some up else r.updates g') = some up' at hup'
  by_cases hg : g' = g
  · rw [if_pos hg] at hup'
    cases hup'
    exact ⟨hunless, hup⟩
  · rw [if_neg hg] at hup'
    exact h.updates g' up' hup'

theorem Own.result (h : Own began r) (record : RunRecord) (endedAt result : String) (missing : ℕ)
    (message : String) :
    Own began (r.result record endedAt result missing message) := by
  have hown : Own began (r.recorded record.guid
      (record.update r.startedAt endedAt result missing message)) := by
    refine h.recorded record.guid rfl fun e he => ?_
    cases he
    exact h.started
  exact ⟨hown.started, hown.updates⟩

theorem Own.event {e : Event} (h : Own began r) (he : Effect r e r') : Own began r' := by
  cases he with
  | shows halike => exact h.alike halike
  | registers halike => exact h.alike halike
  | selects halike => exact h.alike halike
  | notes halike => exact h.alike halike
  | result result endedAt missing message => exact h.result ..
  | contents guid => exact h.recorded guid rfl (by simp)

theorem Own.finish (h : Own began r) (endedAt : String) (signal : Option String) :
    Own began (r.finish endedAt signal) := by
  unfold Run.finish
  split
  · exact h
  · split
    · exact h
    · exact h.result ..

theorem Own.sampled (h : Own began r) (count : Option ℕ) : Own began (r.sampled count) := by
  rw [Run.sampled]
  split
  · exact ⟨h.started, h.updates⟩
  · exact h

theorem Own.moves {a : Action} (h : Own began r) (ha : Moves r a r') : Own began r' := by
  cases ha with
  | timer w => exact h
  | first now count rate ok hphase => exact ⟨(h.sampled count).started, (h.sampled count).updates⟩
  | write now count rate ok hphase => exact h.sampled count
  | event hphase he => exact h.event (effect_of_event he)
  | flush w hphase => exact h
  | finish endedAt signal hphase =>
      have hend : Own began (if r.onEnd then r.finish endedAt signal else r) := by
        split
        · exact h.finish endedAt signal
        · exact h
      exact ⟨hend.started, hend.updates⟩
  | refresh w hphase => exact ⟨h.started, h.updates⟩

/-! ### What a session leaves behind -/

/-- A session followed action by action: its run, progress.json as far as it is its own, and the
drive's ending that it wrote. -/
structure Trail where
  run : Option Run
  file : File := .absent
  written : Option LastRun := none

/-- The drive's ending that an action writes. -/
def endingOf (guid : String) (run : Option Run) (a : Action) : Option LastRun :=
  (writerOf run a).bind fun w => if Works w then (w.updates guid).bind DriveUpdate.lastRun else none

def Trail.step (guid : String) (t : Trail) (a : Action) : Trail where
  run := (runAfter t.run a).getD none
  file := progressAfter t.run t.file a
  written := (endingOf guid t.run a).or t.written

def Session.trail (guid : String) (s : Session) : Trail :=
  s.actions.foldl (Trail.step guid) { run := some s.start.run }

/-- The ending a progress file gives the drive. -/
def leftIn (guid : String) (file : File) : Option LastRun :=
  (dead file).bind fun died => if died.1 = guid then died.2.lastRun else none

/-- A session's ending for a drive: the one it wrote, else that of the file it left. -/
def Session.ending (guid : String) (s : Session) : Option LastRun :=
  (s.trail guid).written.or (leftIn guid (s.trail guid).file)

/-- The first write of a list of actions is done. -/
def FirstWritten : List Action → Prop
  | [] => True
  | .write _ _ _ ok :: _ => ok = true
  | _ :: rest => FirstWritten rest

/-- The writers of the actions, but for what they are given to write. -/
def Action.writer : Action → Option Writer
  | .timer w | .flush w | .refresh w => some w
  | _ => none

/-- A file that says nothing of the drive but what is on record. -/
def Stale (guid : String) (last : Option LastRun) (file : File) : Prop :=
  ∀ up, dead file = some (guid, up) → up.unlessStartedAt ≠ "" ∧
    last.map LastRun.startedAt = some up.unlessStartedAt

/-- A file with an ending of the run that wrote it. -/
def OwnFile (guid began : String) (file : File) : Prop :=
  ∀ up, dead file = some (guid, up) → up.unlessStartedAt = began ∧ ∃ e, up.lastRun = some e ∧
    e.startedAt = began

/-- Whose progress.json is: the run's own, or that of an earlier one before the first write. -/
inductive Whose (guid began : String) (base : Option LastRun) (world : World) (t : Trail) : Prop
  | own (file : world.progress = t.file) (own : OwnFile guid began t.file)
    (phase : ∀ r ∈ t.run, r.phase ≠ .starting)
  | stale (file : t.file = .absent) (written : t.written = none)
      (stale : Stale guid base world.progress) (phase : ∀ r ∈ t.run, r.phase = .starting)

/-- A session under way, `base` being the newest ending before it. -/
structure Under (guid began : String) (base : Option LastRun) (world : World) (t : Trail) :
    Prop where
  run : world.run = t.run
  own : ∀ r ∈ t.run, Own began r
  record : OnRecord guid world.status (t.written.or base)
  written : ∀ e ∈ t.written, e.startedAt = began
  whose : Whose guid began base world t

section Step

variable {base : Option LastRun} {world world' : World} {t : Trail} {a : Action}

theorem writerOf_spec {run : Option Run} {w : Writer} (h : writerOf run a = some w) :
    (∃ given, a.writer = some given ∧ w.guids = given.guids) ∧ ∀ up, w.updates guid = some up →
    ∃ r ∈ run, r.updates guid = some up := by
  cases a with
  | timer given =>
      cases h
      exact ⟨⟨given, rfl, rfl⟩, by simp⟩
  | flush given =>
      obtain ⟨r, rfl, rfl⟩ := Option.map_eq_some_iff.mp h
      exact ⟨⟨given, rfl, rfl⟩, fun up hup => ⟨r, rfl, hup⟩⟩
  | refresh given =>
      obtain ⟨r, rfl, rfl⟩ := Option.map_eq_some_iff.mp h
      exact ⟨⟨given, rfl, rfl⟩, fun up hup => ⟨r, rfl, hup⟩⟩
  | write | event | finish | remove | kill | reboot => cases h

theorem endingOf_started {run : Option Run} (hown : ∀ r ∈ run, Own began r) {e : LastRun}
    (he : e ∈ endingOf guid run a) : e.startedAt = began := by
  obtain ⟨w, hw, he⟩ := Option.bind_eq_some_iff.mp he
  obtain ⟨-, he⟩ := Option.ite_none_right_eq_some.mp he
  obtain ⟨up, hup, he⟩ := Option.bind_eq_some_iff.mp he
  obtain ⟨r, hr, hup⟩ := (writerOf_spec hw).2 up hup
  exact ((hown r hr).updates guid up hup).2 e he

theorem OnRecord.after {run : Option Run} (hown : ∀ r ∈ run, Own began r)
    (hregistered : ∀ w ∈ a.writer, Registered guid w) {file : File} {last : Option LastRun}
    (h : OnRecord guid file last) :
    OnRecord guid ((writerOf run a).elim file fun w => StatusFile.written parseUtcIso w file)
      ((endingOf guid run a).or last) := by
  rw [endingOf]
  cases hw : writerOf run a with
  | none => exact h
  | some w =>
      obtain ⟨⟨given, hgiven, hguids⟩, hupdates⟩ := @writerOf_spec guid _ _ _ hw
      have hreg : Registered guid w := by
        rw [Registered, hguids]
        exact hregistered given hgiven
      have hwritten : OnRecord guid (StatusFile.written parseUtcIso w file) _ := h.write hreg
      rw [Option.elim_some, Option.bind_some]
      by_cases hworks : Works w
      · rw [if_pos hworks] at hwritten ⊢
        cases hup : w.updates guid with
        | none =>
            rw [hup] at hwritten
            exact hwritten
        | some up =>
            obtain ⟨r, hr, hrup⟩ := hupdates up hup
            rw [hup, Option.getD_some, recorded_own ((hown r hr).updates guid up hrup).1]
              at hwritten
            exact hwritten
      · rw [if_neg hworks] at hwritten ⊢
        exact hwritten

theorem dead_left {r : Run} (hown : Own began r) {now : String} {rate : Option ℕ} {up : DriveUpdate}
    (h : dead (.doc (r.document now rate)) = some (guid, up)) :
    up.unlessStartedAt = began ∧ ∃ e, up.lastRun = some e ∧ e.startedAt = began := by
  rw [dead_document] at h
  obtain ⟨-, h⟩ := Option.ite_none_right_eq_some.mp h
  obtain ⟨d, -, heq⟩ := Option.map_eq_some_iff.mp h
  cases heq
  exact ⟨hown.started, _, rfl, hown.started⟩

theorem leftIn_eq_some {file : File} {e : LastRun} :
    leftIn guid file = some e ↔ ∃ up, dead file = some (guid, up) ∧ up.lastRun = some e := by
  rw [leftIn, Option.bind_eq_some_iff]
  constructor
  · rintro ⟨⟨g, up⟩, hdead, hleft⟩
    obtain ⟨hg, he⟩ := Option.ite_none_right_eq_some.mp hleft
    cases hg
    exact ⟨up, hdead, he⟩
  · rintro ⟨up, hdead, he⟩
    exact ⟨(guid, up), hdead, (if_pos rfl).trans he⟩

theorem OwnFile.absent : OwnFile guid began .absent := by
  intro up hup
  cases hup

theorem OwnFile.after {run : Option Run} {file : File} (hown : ∀ r ∈ run, Own began r)
    (h : OwnFile guid began file) :
    OwnFile guid began (progressAfter run file a) := by
  cases a with
  | write now count rate ok =>
      cases hrun : run with
      | none => exact h
      | some r =>
          cases ok with
          | true =>
              intro up hup
              exact dead_left ((hown r hrun).sampled count) hup
          | false => exact h
  | remove ok =>
      cases ok with
      | true => exact .absent
      | false => exact h
  | reboot => exact .absent
  | timer | event | flush | finish | refresh | kill => exact h

theorem runAfter_none {run : Option Run} (h : runAfter none a = some run) : run = none := by
  cases a <;> simp_all [runAfter]

/-- A run before its first write makes that, or nothing that shows. -/
theorem Moves.starting {r r' : Run} (h : Moves r a r') (hphase : r.phase = .starting) :
    (∃ w, a = .timer w ∧ r' = r) ∨ ∃ now count rate ok, a = .write now count rate ok ∧
    r' = { r.sampled count with phase := .running } := by
  cases h with
  | timer w => exact .inl ⟨w, rfl, rfl⟩
  | first now count rate ok => exact .inr ⟨now, count, rate, ok, rfl, rfl⟩
  | write now count rate ok h => exact absurd hphase h
  | event h => rw [hphase] at h; cases h
  | flush w h => rw [hphase] at h; cases h
  | finish endedAt signal h => rw [hphase] at h; cases h
  | refresh w h => rw [hphase] at h; cases h

theorem exists_moves {run next : Option Run} (h : runAfter run a = some next) :
    ∀ r' ∈ next, ∃ r ∈ run, Moves r a r' := by
  intro r' hr'
  cases run with
  | none =>
      rw [runAfter_none h] at hr'
      cases hr'
  | some r =>
      rw [show next = some r' from hr'] at h
      exact ⟨r, rfl, moves_of_runAfter h⟩

theorem run_trailStep {run : Option Run} (h : runAfter t.run a = some run) :
    (t.step guid a).run = run := by
  rw [Trail.step, h]
  rfl

theorem Whose.step_own {run : Option Run} (hown : ∀ r ∈ t.run, Own began r)
    (hrun : runAfter t.run a = some run) (hfile : world.progress = t.file)
    (howned : OwnFile guid began t.file) (hphase : ∀ r ∈ t.run, r.phase ≠ .starting)
    (hprogress : world'.progress = progressAfter t.run world.progress a) :
    Whose guid began base world' (t.step guid a) ∧
      ∀ r ∈ (t.step guid a).run, r.phase ≠ .starting := by
  have hnext : ∀ r ∈ (t.step guid a).run, r.phase ≠ .starting := by
    rw [run_trailStep hrun]
    intro r' hr'
    obtain ⟨r, hr, hmoves⟩ := exists_moves hrun r' hr'
    exact hmoves.phase (hphase r hr)
  exact ⟨.own (by rw [hprogress, hfile]; rfl) (howned.after hown) hnext, hnext⟩

/-- Before its first write a run makes that one, or leaves the file as it found it. -/
theorem Whose.step_stale {run : Option Run} {rest : List Action} (hown : ∀ r ∈ t.run, Own began r)
    (hrun : runAfter t.run a = some run) (hfile : t.file = .absent) (hnone : t.written = none)
    (hstale : Stale guid base world.progress) (hphase : ∀ r ∈ t.run, r.phase = .starting)
    (hprogress : world'.progress = progressAfter t.run world.progress a)
    (hfirst : (∃ r ∈ t.run, r.phase = .starting) → FirstWritten (a :: rest)) :
    Whose guid began base world' (t.step guid a) ∧
      ((∃ r ∈ (t.step guid a).run, r.phase = .starting) → FirstWritten rest) := by
  have ht : (t.step guid a).run = run := run_trailStep hrun
  cases a with
  | timer w =>
      have hsame : (t.step guid (.timer w)).written = t.written := by
        simp [Trail.step, endingOf, writerOf]
      have hrun' : (t.step guid (.timer w)).run = t.run := by
        cases h : t.run <;> simp [Trail.step, runAfter, h]
      exact ⟨.stale hfile (hsame.trans hnone) (hprogress ▸ hstale) (hrun' ▸ hphase),
        fun hstarting => hfirst (hrun' ▸ hstarting)⟩
  | write now count rate ok =>
      cases htrun : t.run with
      | none =>
          rw [htrun] at hrun
          cases hrun
      | some r =>
          have hstarting : r.phase = .starting := hphase r htrun
          obtain rfl : ok = true := hfirst ⟨r, htrun, hstarting⟩
          rw [htrun] at hrun
          simp only [runAfter, hstarting, Option.some.injEq] at hrun
          have hnext : ∀ r' ∈ (t.step guid (.write now count rate true)).run,
              r'.phase ≠ .starting := by
            rw [ht, ← hrun]
            rintro r' ⟨⟩
            exact Phase.noConfusion
          have hempty : OwnFile guid began t.file := hfile ▸ .absent
          refine ⟨.own ?_ (hempty.after (a := .write now count rate true) hown) hnext, ?_⟩
          · rw [hprogress, Trail.step, htrun]
            rfl
          · rintro ⟨r', hr', hphase'⟩
            exact absurd hphase' (hnext r' hr')
  | kill =>
      cases htrun : t.run with
      | none =>
          rw [htrun] at hrun
          cases hrun
      | some r =>
          rw [htrun] at hrun
          cases hrun
          exact ⟨.stale hfile hnone (hprogress ▸ hstale) (by rw [ht]; simp), by rw [ht]; simp⟩
  | reboot =>
      have hgone : run = none := by
        cases htrun : t.run <;> rw [htrun] at hrun <;> cases hrun <;> rfl
      subst hgone
      exact ⟨.own hprogress .absent (by rw [ht]; simp), by rw [ht]; simp⟩
  | event | flush | finish | refresh | remove =>
      cases htrun : t.run with
      | none =>
          rw [htrun] at hrun
          cases hrun
      | some r =>
          rw [htrun] at hrun
          simp [runAfter, hphase r htrun] at hrun

theorem Under.step {rest : List Action} (h : Under guid began base world t)
    (ha : world.step parseUtcIso a = some world') (hregistered : ∀ w ∈ a.writer, Registered guid w)
    (hfirst : (∃ r ∈ t.run, r.phase = .starting) → FirstWritten (a :: rest)) :
    Under guid began base world' (t.step guid a) ∧
    ((∃ r ∈ (t.step guid a).run, r.phase = .starting) → FirstWritten rest) := by
  obtain ⟨run, hrun, hworld⟩ := Option.map_eq_some_iff.mp ha
  rw [h.run] at hrun hworld
  have hprogress : world'.progress = progressAfter t.run world.progress a := hworld ▸ rfl
  have ht : (t.step guid a).run = run := run_trailStep hrun
  have hsame : world'.run = (t.step guid a).run := ht ▸ hworld ▸ rfl
  have hown : ∀ r ∈ (t.step guid a).run, Own began r := by
    rw [ht]
    intro r' hr'
    obtain ⟨r, hr, hmoves⟩ := exists_moves hrun r' hr'
    exact (h.own r hr).moves hmoves
  have hrecord : OnRecord guid world'.status ((t.step guid a).written.or base) := by
    rw [← hworld, Trail.step, Option.or_assoc]
    exact OnRecord.after h.own hregistered h.record
  have hwritten : ∀ e ∈ (t.step guid a).written, e.startedAt = began := by
    intro e he
    obtain he | ⟨-, he⟩ := Option.or_eq_some_iff.mp he
    · exact endingOf_started h.own he
    · exact h.written e he
  cases h.whose with
  | own hfile howned hphase =>
      obtain ⟨hwhose, hnext⟩ := Whose.step_own h.own hrun hfile howned hphase hprogress
      refine ⟨⟨hsame, hown, hrecord, hwritten, hwhose⟩, ?_⟩
      rintro ⟨r, hr, hstarting⟩
      exact absurd hstarting (hnext r hr)
  | stale hfile hnone hstale hphase =>
      obtain ⟨hwhose, hrest⟩ :=
        Whose.step_stale h.own hrun hfile hnone hstale hphase hprogress hfirst
      exact ⟨⟨hsame, hown, hrecord, hwritten, hwhose⟩, hrest⟩

theorem Under.runs {actions : List Action} (h : Under guid began base world t)
    (hplay : actions.foldlM (World.step parseUtcIso) world = some world')
    (hregistered : ∀ a ∈ actions, ∀ w ∈ a.writer, Registered guid w)
    (hfirst : (∃ r ∈ t.run, r.phase = .starting) → FirstWritten actions) :
    Under guid began base world' (actions.foldl (Trail.step guid) t) := by
  induction actions generalizing world t with
  | nil =>
      cases hplay
      exact h
  | cons a actions ih =>
      rw [List.foldlM_cons] at hplay
      obtain ⟨next, ha, hplay⟩ := Option.bind_eq_some_iff.mp hplay
      obtain ⟨hnext, hrest⟩ := h.step ha (hregistered a List.mem_cons_self) hfirst
      exact ih hnext hplay (fun b hb => hregistered b (List.mem_cons_of_mem _ hb)) hrest

end Step

/-! ### From one run to the next -/

section Sessions

variable {base last : Option LastRun} {world world' : World} {s : Start}

/-- What a start makes of the ending on record, from the file it finds. -/
def recordedFrom (guid : String) (file : File) (last : Option LastRun) : Option LastRun :=
  (dead file).elim last fun died => if died.1 = guid then recorded last died.2 else last

theorem OnRecord.start (h : OnRecord guid world.status last) (hworks : Works s.w)
    (hregistered : Registered guid s.w) (hstart : world.start parseUtcIso s = some world') :
    OnRecord guid world'.status (recordedFrom guid world.progress last) ∧
    world'.progress = world.progress ∧ world'.run = some s.run := by
  rw [World.start] at hstart
  split at hstart
  · cases hstart
  cases hstart
  refine ⟨?_, rfl, rfl⟩
  obtain ⟨hlive, hload, hlock, hfailure⟩ := hworks
  rw [recordedFrom]
  dsimp only
  cases hdead : dead world.progress with
  | none =>
      rw [recordOrphan, hdead]
      exact h
  | some died =>
      rw [recordOrphan, hdead, Option.bind_some, Option.elim_some]
      by_cases hthere : died.1 ∈ s.w.cfg.knownDrives.items.map DriveInfo.guid
      · rw [if_neg (by simp [hlive, hload, hthere]), Option.elim_some]
        have hwritten : OnRecord guid
            (StatusFile.written parseUtcIso
                { s.w with updates := fun g => if g = died.1 then some died.2 else none }
                    world.status) _ :=
          h.write hregistered
        rw [if_pos ⟨hlive, hload, hlock, hfailure⟩] at hwritten
        change OnRecord guid _ (recorded last
          ((if guid = died.1 then some died.2 else none).getD {})) at hwritten
        by_cases hguid : died.1 = guid
        · rw [if_pos hguid]
          rwa [if_pos hguid.symm, Option.getD_some] at hwritten
        · rw [if_neg hguid]
          rwa [if_neg fun heq => hguid heq.symm] at hwritten
      · rw [if_pos (by simp [hthere])]
        have hguid : died.1 ≠ guid := by
          rintro rfl
          exact hthere hregistered.2
        rw [if_neg hguid]
        exact h

/-- Between two runs: the next start leaves the drive the ending `last`, and nothing more to
record. -/
structure Settled (parseUtcIso : String → Option Int) (guid : String) (earlier : List String)
    (last : Option LastRun) (world : World) : Prop where
  next : ∀ s world', Works s.w → Registered guid s.w → world.start parseUtcIso s = some world' →
    OnRecord guid world'.status last
  stale : Stale guid last world.progress
  earlier : ∀ e ∈ last, e.startedAt ∈ earlier

theorem Under.settled {began : String} {t : Trail} {earlier : List String}
    (h : Under guid began base world t) (hbegan : began ≠ "") (hnew : began ∉ earlier)
    (hearlier : ∀ e ∈ base, e.startedAt ∈ earlier) :
    Settled parseUtcIso guid (earlier ++ [began])
      ((t.written.or (leftIn guid t.file)).or base) world := by
  have hbase : base.map LastRun.startedAt ≠ some began := by
    intro heq
    obtain ⟨e, he, rfl⟩ := Option.map_eq_some_iff.mp heq
    exact hnew (hearlier e he)
  have hleft : ∀ e ∈ leftIn guid t.file, e.startedAt = began := by
    intro e he
    obtain ⟨up, hdead, he⟩ := leftIn_eq_some.mp he
    cases h.whose with
    | own hfile howned hphase =>
        obtain ⟨-, e', he', hstarted⟩ := howned up hdead
        rw [he] at he'
        cases he'
        exact hstarted
    | stale hfile hnone hstale hphase =>
        rw [hfile] at hdead
        cases hdead
  have hrecorded : recordedFrom guid world.progress (t.written.or base)
      = (t.written.or (leftIn guid t.file)).or base ∧
      Stale guid ((t.written.or (leftIn guid t.file)).or base) world.progress := by
    cases h.whose with
    | own hfile howned hphase =>
        rw [hfile, recordedFrom]
        cases hdead : dead t.file with
        | none =>
            have hnone : leftIn guid t.file = none := by rw [leftIn, hdead]; rfl
            rw [hnone, Option.or_none]
            exact ⟨rfl, fun up hup => by rw [hdead] at hup; cases hup⟩
        | some died =>
            rw [Option.elim_some]
            by_cases hguid : died.1 = guid
            · obtain ⟨g, up⟩ := died
              obtain rfl : g = guid := hguid
              obtain ⟨hunless, e, he, hstarted⟩ := howned up hdead
              have hthis : leftIn g t.file = some e := leftIn_eq_some.mpr ⟨up, hdead, he⟩
              rw [if_pos rfl, recorded, he, hunless, hthis]
              cases hw : t.written with
              | some own =>
                  have hown := h.written own hw
                  refine ⟨if_pos ⟨hbegan, congrArg some hown⟩, fun up' hup' => ?_⟩
                  cases hdead.symm.trans hup'
                  rw [hunless]
                  exact ⟨hbegan, congrArg some hown⟩
              | none =>
                  refine ⟨if_neg fun hkeep => hbase hkeep.2, fun up' hup' => ?_⟩
                  cases hdead.symm.trans hup'
                  rw [hunless]
                  exact ⟨hbegan, congrArg some hstarted⟩
            · have hnone : leftIn guid t.file = none := by
                rw [leftIn, hdead, Option.bind_some, if_neg hguid]
              rw [if_neg hguid, hnone, Option.or_none]
              refine ⟨rfl, fun up hup => absurd ?_ hguid⟩
              cases hdead.symm.trans hup
              rfl
    | stale hfile hnone hstale hphase =>
        rw [hfile, hnone]
        refine ⟨?_, hstale⟩
        rw [recordedFrom]
        cases hdead : dead world.progress with
        | none => rfl
        | some died =>
            rw [Option.elim_some]
            by_cases hguid : died.1 = guid
            · obtain ⟨g, up⟩ := died
              obtain rfl : g = guid := hguid
              have hkeep := hstale up hdead
              rw [if_pos rfl, recorded]
              cases up.lastRun with
              | none => rfl
              | some e => exact if_pos hkeep
            · exact if_neg hguid
  refine ⟨fun s world' hworks hregistered hstart => ?_, hrecorded.2, fun e he => ?_⟩
  · rw [← hrecorded.1]
    exact (h.record.start hworks hregistered hstart).1
  · obtain he | ⟨-, he⟩ := Option.or_eq_some_iff.mp he
    · have hstarted : e.startedAt = began := by
        obtain he | ⟨-, he⟩ := Option.or_eq_some_iff.mp he
        · exact h.written e he
        · exact hleft e he
      exact List.mem_append_right _ (hstarted ▸ List.mem_cons_self)
    · exact List.mem_append_left _ (hearlier e he)

/-- No run on the machine yet, and a file without the drive. -/
structure Fresh (guid : String) (world : World) : Prop where
  progress : world.progress = .absent
  newer : newer (read world.status) = none
  entry : previousEntry (read world.status) guid = []

theorem Fresh.settled (h : Fresh guid world) : Settled parseUtcIso guid [] none world := by
  have hrecord : OnRecord guid world.status none :=
    ⟨h.newer, [], by rw [h.entry]; exact carried_nil, rfl⟩
  refine ⟨fun s world' hworks hregistered hstart => ?_, fun up hup => ?_, by simp⟩
  · have hstarted := (hrecord.start hworks hregistered hstart).1
    rwa [h.progress] at hstarted
  · rw [h.progress] at hup
    cases hup

end Sessions

/-! ### A backup that dies, and one that dies at its last question -/

/-- What a banner says: its result, when it ended, what is missing and why. -/
def Action.banner : Action → Option (String × String × ℕ × String)
  | .event (.result result endedAt missing message) => some (result, endedAt, missing, message)
  | _ => none

/-- A run before its end. -/
def Early (r : Run) : Prop := r.phase = .starting ∨ r.phase = .running

/-- What a run's record says of the run so far: the drive that was chosen, whether its end was
registered, whether a receive began, and the one result a banner set. -/
structure Told (chosen : List String) (registered received : Prop)
    (banners : List (String × String × ℕ × String)) (r : Run) : Prop where
  onEnd : r.onEnd = true ↔ registered
  silent : r.record = none → chosen = [] ∧ ¬registered ∧ ¬received ∧ banners = []
  chosen : ∀ record ∈ r.record, chosen = [record.guid]
  started : ∀ record ∈ r.record, record.started = true ↔ received
  pending : ∀ record ∈ r.record, record.done = false → banners = []
  result : ∀ record ∈ r.record, record.done = true →
    ∃ up e, r.updates record.guid = some up ∧ up.lastRun = some e ∧
    banners = [(e.result, e.endedAt, e.datasetsMissing, e.message)]
  backup : r.record.isSome = true → r.command = "backup"

variable {chosen : List String} {registered received : Prop}
  {banners : List (String × String × ℕ × String)}

theorem Told.congr (h : Told chosen registered received banners r) (hrecord : r'.record = r.record)
    (honEnd : r'.onEnd = r.onEnd) (hupdates : r'.updates = r.updates)
    (hcommand : r'.command = r.command) : Told chosen registered received banners r' where
  onEnd := honEnd ▸ h.onEnd
  silent := hrecord ▸ h.silent
  chosen := hrecord ▸ h.chosen
  started := hrecord ▸ h.started
  pending := hrecord ▸ h.pending
  result := by
    rw [hrecord, hupdates]
    exact h.result
  backup := by
    rw [hrecord, hcommand]
    exact h.backup

/-- What an event says of the record: nothing new, unless it is one of four. -/
theorem Event.told_of_quiet {e : Event} (hquiet : e.IsQuiet) :
    (registered ∨ e = .register ↔ registered) ∧
    banners ++ (Action.banner (.event e)).toList = banners := by
  obtain ⟨hregister, hresult⟩ := hquiet
  refine ⟨or_iff_left hregister, ?_⟩
  cases e with
  | result result endedAt missing message =>
      exact absurd rfl (hresult result endedAt missing message)
  | _ => simp [Action.banner]

theorem Told.event {e : Event} (h : Told chosen registered received banners r)
    (he : Effect r e r') :
    Told (chosen ++ (Action.chosen (.event e)).toList) (registered ∨ e = .register)
      (received ∨ e = .receive) (banners ++ (Action.banner (.event e)).toList) r' := by
  cases he with
  | shows halike hrecord honEnd hquiet he hselect =>
      obtain ⟨hregistered, hbanners⟩ := Event.told_of_quiet hquiet
      rw [hbanners, hregistered, or_iff_left he, hselect, Option.toList_none, List.append_nil]
      exact h.congr hrecord honEnd halike.updates halike.command
  | registers halike hrecord hthere honEnd =>
      have hnone : r'.record ≠ none := by
        rw [hrecord]
        exact Option.isSome_iff_ne_none.mp hthere
      have hsame : Told chosen registered received banners { r' with onEnd := r.onEnd } :=
        h.congr hrecord rfl halike.updates halike.command
      rw [show banners ++ (Action.banner (.event .register)).toList = banners from
        List.append_nil _, show chosen ++ (Action.chosen (.event .register)).toList
          = chosen from List.append_nil _]
      refine ⟨by simp [honEnd], fun h => absurd h hnone, hsame.chosen, fun record h => ?_,
        hsame.pending, hsame.result, hsame.backup⟩
      rw [or_iff_left (by simp)]
      exact hsame.started record h
  | @selects name guid driveId pointRecord _ halike hcommand hnone hrecord honEnd =>
      obtain ⟨rfl, hregistered, hreceived, rfl⟩ := h.silent hnone
      have honEnd' : r'.onEnd = true ↔ registered := honEnd ▸ h.onEnd
      refine ⟨honEnd'.trans (or_iff_left (by simp)).symm, by simp [hrecord], ?_, ?_, fun _ _ _ =>
        rfl, ?_, fun _ => halike.command.trans hcommand⟩ <;>
        rw [hrecord] <;> rintro record ⟨⟩
      · rfl
      · simp [hreceived]
      · simp
  | @notes e record record' _ halike hold hnew hguid hdone honEnd hquiet hstarted hselect =>
      obtain ⟨hregistered, hbanners⟩ := Event.told_of_quiet hquiet
      rw [hbanners, hregistered, hselect, Option.toList_none, List.append_nil]
      refine ⟨honEnd ▸ h.onEnd, by simp [hnew], ?_, ?_, ?_, ?_, fun _ => ?_⟩
      · rw [hnew]
        rintro record' ⟨⟩
        exact hguid ▸ h.chosen record hold
      · rw [hnew]
        rintro record' ⟨⟩
        rw [hstarted, h.started record hold]
      · rw [hnew]
        rintro record' ⟨⟩ hpending
        exact h.pending record hold (hdone ▸ hpending)
      · rw [hnew, halike.updates]
        rintro record' ⟨⟩ hset
        rw [hguid]
        exact h.result record hold (hdone ▸ hset)
      · rw [halike.command]
        exact h.backup (by simp [hold])
  | @result record result endedAt missing message hrecord hdone =>
      have hbanners := h.pending record hrecord hdone
      have hcommand := h.backup (by simp [hrecord])
      rw [show chosen ++ (Action.chosen (.event (.result result endedAt missing message))).toList
        = chosen from List.append_nil _]
      refine ⟨h.onEnd.trans (or_iff_left (by simp)).symm,
        fun hnone => by simp [Run.result] at hnone, ?_, ?_, ?_, ?_, fun _ => hcommand⟩ <;>
        rintro x ⟨⟩
      · exact h.chosen record hrecord
      · exact (h.started record hrecord).trans (or_iff_left (by simp)).symm
      · rintro ⟨⟩
      · rintro -
        refine ⟨_, _, if_pos rfl, rfl, ?_⟩
        rw [hbanners]
        rfl
  | contents guid space contents hcommand =>
      have hnone : r.record = none := by
        cases hrecord : r.record with
        | none => rfl
        | some record =>
            have hbackup := h.backup (by simp [hrecord])
            rw [hcommand] at hbackup
            exact absurd hbackup (by decide)
      obtain ⟨rfl, hregistered, hreceived, rfl⟩ := h.silent hnone
      have hnone' : (r.recorded guid { space := some space, contents := some contents }).record
          = none := hnone
      refine ⟨h.onEnd.trans (or_iff_left (by simp)).symm, fun _ =>
        ⟨rfl, by simp [hregistered], by simp [hreceived], rfl⟩, ?_, ?_, ?_, ?_, ?_⟩ <;>
        simp [hnone']

/-- What the record says of a list of actions. -/
def ToldOf (actions : List Action) (r : Run) : Prop :=
  Told (actions.filterMap Action.chosen) (.event .register ∈ actions) (.event .receive ∈ actions)
    (actions.filterMap Action.banner) r

theorem ToldOf.moves {actions : List Action} {a : Action} (h : ToldOf actions r) (ha : Moves r a r')
    (hearly : Early r') :
    ToldOf (actions ++ [a]) r' := by
  have hsnoc : ∀ {β : Type} (f : Action → Option β), (actions ++ [a]).filterMap f
      = actions.filterMap f ++ (f a).toList := by
    intro β f
    rw [List.filterMap_append]
    cases hf : f a <;> simp [hf]
  have hother : (∀ e, a ≠ .event e) → r'.record = r.record → r'.onEnd = r.onEnd →
      r'.updates = r.updates → r'.command = r.command →
      ToldOf (actions ++ [a]) r' := by
    intro hne hrecord honEnd hupdates hcommand
    have hsilent : a.chosen = none ∧ a.banner = none := by
      cases a with
      | event e => exact absurd rfl (hne e)
      | _ => exact ⟨rfl, rfl⟩
    have hmem : ∀ e, .event e ∈ actions ++ [a] ↔ .event e ∈ actions := by
      intro e
      simp [(hne e).symm]
    rw [ToldOf, hmem, hmem, hsnoc, hsnoc, hsilent.1, hsilent.2, Option.toList_none,
      Option.toList_none, List.append_nil, List.append_nil]
    exact h.congr hrecord honEnd hupdates hcommand
  have hsampled : ∀ count, (r.sampled count).record = r.record ∧ (r.sampled count).onEnd = r.onEnd ∧
      (r.sampled count).updates = r.updates ∧
      (r.sampled count).command = r.command := by
    intro count
    rw [Run.sampled]
    split <;> exact ⟨rfl, rfl, rfl, rfl⟩
  cases ha with
  | timer w => exact hother (by simp) rfl rfl rfl rfl
  | first now count rate ok hphase =>
      obtain ⟨hrecord, honEnd, hupdates, hcommand⟩ := hsampled count
      exact hother (by simp) hrecord honEnd hupdates hcommand
  | write now count rate ok hphase =>
      obtain ⟨hrecord, honEnd, hupdates, hcommand⟩ := hsampled count
      exact hother (by simp) hrecord honEnd hupdates hcommand
  | flush w hphase => exact hother (by simp) rfl rfl rfl rfl
  | finish endedAt signal hphase => obtain hearly | hearly := hearly <;> cases hearly
  | refresh w hphase => obtain hearly | hearly := hearly <;> cases hearly
  | @event e _ hphase he =>
      have hregister : (Action.event .register ∈ actions ++ [.event e])
          = (.event .register ∈ actions ∨ e = .register) := by
        simp [eq_comm]
      have hreceive : (Action.event .receive ∈ actions ++ [.event e])
          = (.event .receive ∈ actions ∨ e = .receive) := by
        simp [eq_comm]
      rw [ToldOf, hsnoc, hsnoc, hregister, hreceive]
      exact Told.event h (effect_of_event he)

/-- Once it has refreshed status.json a run has no update to write. -/
theorem writerOf_refreshed {run next : Option Run} {a : Action}
    (hlate : ∀ r ∈ run, r.phase = .refreshed) (ha : runAfter run a = some next) :
    (∀ w ∈ writerOf run a, w.updates guid = none) ∧ ∀ r ∈ next, r.phase = .refreshed := by
  cases run with
  | none =>
      obtain rfl := runAfter_none ha
      refine ⟨fun w hw => ?_, by simp⟩
      cases a with
      | timer given =>
          cases hw
          rfl
      | _ => cases hw
  | some r =>
      have hphase := hlate r rfl
      cases a with
      | timer given =>
          cases ha
          refine ⟨fun w hw => ?_, hlate⟩
          cases hw
          rfl
      | remove | kill | reboot =>
          obtain rfl : next = none := by simpa [runAfter, hphase, eq_comm] using ha
          exact ⟨nofun, by simp⟩
      | write | event | flush | finish | refresh => simp [runAfter, hphase] at ha

/-- A file this zark writes, with that ending of the drive. -/
def Stands (guid : String) (file : File) (e : LastRun) : Prop :=
  newer (read file) = none ∧ Json.get (previousEntry (read file) guid) "last_run" = e.toJson

theorem newer_written {w : Writer} {file : File} (h : newer (read file) = none) :
    newer (read (StatusFile.written parseUtcIso w file)) = none := by
  by_cases hworks : Works w
  · obtain ⟨fields, hbuild, hread, hthis, -⟩ := @build_spec parseUtcIso w (read file)
    rw [written_of_works hworks h, hbuild, hread, hthis]
  · rw [written_of_not_works hworks, h]

theorem lastRun_written {w : Writer} {file : File} (hnewer : newer (read file) = none)
    (hworks : Works w) (hregistered : Registered guid w) :
    Json.get (previousEntry (read (StatusFile.written parseUtcIso w file)) guid) "last_run" =
      lastRunOf (previousEntry (read file) guid) ((w.updates guid).getD {}) := by
  obtain ⟨fields, hbuild, hread, -, hdrives⟩ := @build_spec parseUtcIso w (read file)
  obtain ⟨hentry, -⟩ := previousEntry_build hdrives hregistered.1
  obtain ⟨info, hinfo, rfl⟩ := List.mem_map.mp hregistered.2
  rw [written_of_works hworks hnewer, hbuild, hread, hentry _ (mem_entries.mpr ⟨info, hinfo, rfl⟩)]
  exact get_driveEntry.2.2.1

theorem Stands.write {file : File} {e : LastRun} (h : Stands guid file e) {w : Writer}
    (hregistered : Registered guid w) (hnone : w.updates guid = none) :
    Stands guid (StatusFile.written parseUtcIso w file) e := by
  refine ⟨newer_written h.1, ?_⟩
  by_cases hworks : Works w
  · rw [lastRun_written h.1 hworks hregistered, hnone]
    exact h.2
  · rw [written_of_not_works hworks]
    exact h.2

theorem run_of_step {world world' : World} {a : Action}
    (h : world.step parseUtcIso a = some world') :
    runAfter world.run a = some world'.run := by
  obtain ⟨run, hrun, rfl⟩ := Option.map_eq_some_iff.mp h
  exact hrun

theorem Stands.step {world world' : World} {a : Action} {e : LastRun}
    (h : Stands guid world.status e) (ha : world.step parseUtcIso a = some world')
    (hlate : ∀ r ∈ world.run, r.phase = .refreshed)
    (hregistered : ∀ w ∈ a.writer, Registered guid w) : Stands guid world'.status e := by
  obtain ⟨hupdates, -⟩ := @writerOf_refreshed guid _ _ _ hlate (run_of_step ha)
  obtain ⟨run, -, rfl⟩ := Option.map_eq_some_iff.mp ha
  dsimp only
  cases hw : writerOf world.run a with
  | none => exact h
  | some w =>
      obtain ⟨given, hgiven, hguids⟩ := (@writerOf_spec guid a _ w hw).1
      refine h.write ?_ (hupdates w hw)
      rw [Registered, hguids]
      exact hregistered given hgiven

/-- What follows the end's refresh leaves the ending. -/
theorem Stands.steps {actions : List Action} {world world' : World} {e : LastRun}
    (h : Stands guid world.status e)
    (hsteps : actions.foldlM (World.step parseUtcIso) world = some world')
    (hlate : ∀ r ∈ world.run, r.phase = .refreshed)
    (hregistered : ∀ a ∈ actions, ∀ w ∈ a.writer, Registered guid w) :
    Stands guid world'.status e := by
  refine (Option.foldlM_invariant
    (P := fun world => Stands guid world.status e ∧ ∀ r ∈ world.run, r.phase = .refreshed)
    (fun a ha world next hstep hworld => ?_) hsteps ⟨h, hlate⟩).1
  exact ⟨hworld.1.step hstep hworld.2 (hregistered a ha),
    (@writerOf_refreshed guid _ _ _ hworld.2 (run_of_step hstep)).2⟩

/-- The ending of a run that reached its end as `r`: what its banner said, or one made up by whether
a receive had begun. -/
inductive Ended (before : List Action) (endedAt : String) (signal : Option String) (r : Run)
    (e : LastRun) : Prop
  | banner (h : before.filterMap Action.banner
    = [(e.result, e.endedAt, e.datasetsMissing, e.message)])
  | interrupted (hnone : before.filterMap Action.banner = []) (hreceive : .event .receive ∈ before)
      (h : (e.result, e.endedAt, e.datasetsMissing, e.message)
        = ("interrupted", endedAt, 0, r.why signal))
  | aborted (hnone : before.filterMap Action.banner = []) (hreceive : .event .receive ∉ before)
      (hpoint : e.point = none)
      (h : (e.result, e.endedAt, e.datasetsMissing, e.message)
        = ("aborted", endedAt, 0, r.why signal))

/-- The end keeps a banner's result, and makes one up when there is none. -/
theorem ToldOf.finish {before : List Action} {record : RunRecord} (h : ToldOf before r)
    (hrecord : r.record = some record) (endedAt : String) (signal : Option String) :
    ∃ up e, (r.finish endedAt signal).updates record.guid = some up ∧ up.lastRun = some e ∧
      Ended before endedAt signal r e := by
  rw [Run.finish, hrecord]
  cases hdone : record.done with
  | true =>
      obtain ⟨up, e, hup, he, hbanners⟩ := h.result record hrecord hdone
      simp only [hdone, if_true]
      exact ⟨up, e, hup, he, .banner hbanners⟩
  | false =>
      have hnone := h.pending record hrecord hdone
      simp only [hdone, Bool.false_eq_true, if_false]
      cases hstarted : record.started with
      | true =>
          refine ⟨_, _, if_pos rfl, rfl, .interrupted hnone
            ((h.started record hrecord).mp hstarted) ?_⟩
          simp [hstarted]
      | false =>
          refine ⟨_, _, if_pos rfl, rfl, .aborted hnone (fun hreceive => ?_) ?_ ?_⟩
          · rw [(h.started record hrecord).mpr hreceive] at hstarted
            cases hstarted
          · simp
          · simp

end Zark.Progress
