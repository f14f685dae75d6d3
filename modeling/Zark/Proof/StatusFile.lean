import Zark.StatusFile

/-!
# What status.json carries forward

A drive's entry is read back as the fields it was written with, so over any run of writes each field
is a function of the updates the drive had since it is in the registry: the point and its record
those of the last update that set them, the run's ending that of the last that may replace it, and
the space with its contents those of one update. A file of a newer schema ends the run for this
zark.
-/

namespace Zark.StatusFile

open Json

/-! ### What the updates of a drive make -/

/-- The point an update sets; "" is none. -/
def DriveUpdate.setPoint (u : DriveUpdate) : Option String := u.lastBackupPoint.filter (· ≠ "")

/-- The ending recorded after an update: its own, unless it yields to a run that started when it
says. -/
def recorded (last : Option LastRun) (u : DriveUpdate) : Option LastRun :=
  match u.lastRun with
  | none => last
  | some run =>
      if u.unlessStartedAt ≠ "" ∧ last.map LastRun.startedAt = some u.unlessStartedAt then
        last
      else some run

/-- The space and the contents are of one update that measured both, or the space is of one without
contents and there are none. -/
def Paired (us : List DriveUpdate) (space : Json) (contents : List (String × Json)) : Prop :=
  (∃ u ∈ us, ∃ s c, u.space = some s ∧ u.contents = some c ∧ space = s.toJson ∧
    contents = c.toJson) ∨
    (∃ u ∈ us, ∃ s, u.space = some s ∧ u.contents = none ∧ space = s.toJson ∧ contents = []) ∨
      (∀ u ∈ us, u.space = none) ∧ space = null ∧ contents = []

def recordJson (record : String × String) : Json :=
  obj [("written_by", str record.1), ("min_recover", if record.2 = "" then null else str record.2)]

/-- A drive's entry has what the updates since it is in the registry make. -/
structure Carried (us : List DriveUpdate) (entry : List (String × Json)) : Prop where
  pair : Paired us (get entry "space") (contentGroup (field? entry))
  point : get entry "last_backup_point" = text? (us.filterMap DriveUpdate.setPoint).getLast?
  record : get entry "last_point_record"
    = (us.filterMap DriveUpdate.lastPointRecord).getLast?.elim null recordJson
  run : get entry "last_run" = (us.foldl recorded none).elim null LastRun.toJson

/-! ### Fields of an entry -/

section Fields

variable {parseUtcIso : String → Option Int} {info : DriveInfo} {now : String}
  {before : List (String × Json)} {up : DriveUpdate} {k : String}
  {us : List DriveUpdate}

theorem field?_group {l : List String} (hl : l.Nodup) (value : String → Option Json) :
    field? (l.filterMap fun k => (value k).map fun v => (k, v)) k =
      if k ∈ l then value k else none := by
  induction l with
  | nil => rfl
  | cons a l ih =>
      obtain ⟨ha, hl⟩ := List.nodup_cons.mp hl
      cases hvalue : value a with
      | none =>
          rw [List.filterMap_cons_none (by rw [hvalue, Option.map_none]), ih hl]
          by_cases hka : k = a
          · rw [hka, if_neg ha, if_pos List.mem_cons_self, hvalue]
          · simp [hka]
      | some v =>
          rw [List.filterMap_cons_some (by rw [hvalue, Option.map_some])]
          by_cases hka : k = a
          · rw [hka, if_pos List.mem_cons_self, hvalue, field?, List.find?_cons_of_pos (by simp),
              Option.map_some]
          · rw [field?, List.find?_cons_of_neg (by simpa using fun h => hka h.symm)]
            change field? _ _ = _
            rw [ih hl]
            simp [hka]

theorem field?_contentGroup (value : String → Option Json) :
    field? (contentGroup value) k = if k ∈ contentFields then value k else none :=
  field?_group (by decide) value

theorem contentGroup_field? {entry : List (String × Json)} {value : String → Option Json}
    (h : ∀ k ∈ contentFields, field? entry k = field? (contentGroup value) k) :
    contentGroup (field? entry) = contentGroup value := by
  refine List.filterMap_congr fun k hk => ?_
  rw [h k hk, field?_contentGroup, if_pos hk]

theorem spaceAndContents_group : ∃ value, (spaceAndContents before up).2 = contentGroup value := by
  have hnil : contentGroup (fun _ => none) = [] := rfl
  have hold : ∃ value, oldContents before = contentGroup value := by
    unfold oldContents
    split
    · exact ⟨_, rfl⟩
    · exact ⟨_, hnil.symm⟩
  unfold spaceAndContents
  split
  · exact ⟨_, rfl⟩
  · split
    · exact ⟨_, hnil.symm⟩
    · exact hold
  · exact hold

theorem driveEntry_eq : ∃ head tail, driveEntry parseUtcIso info now before up
      = head ++ (spaceAndContents before up).2 ++ tail ∧
    (∀ k ∈ contentFields, field? head k = none ∧ field? tail k = none) ∧
    field? head "last_point_record" = none ∧
      field? head "guid" = some (str info.guid) ∧
      field? head "space" = some (spaceAndContents before up).1 ∧
        field? head "last_backup_point" = some (lastPointOf before up) ∧
        field? head "last_run" = some (lastRunOf before up) ∧
          tail = match recordOf before up with
            | obj record => [("last_point_record", obj record)]
            | _ => [] := by
  refine ⟨_, _, rfl, fun k hk => ?_, ?_, ?_, ?_, ?_, ?_, rfl⟩
  · simp only [contentFields, List.mem_cons, List.not_mem_nil, or_false] at hk
    constructor
    · rcases hk with rfl | rfl | rfl | rfl | rfl <;> by_cases henclosure : info.enclosureId = "" <;>
        simp [field?, henclosure]
    · have hne : k ≠ "last_point_record" := by rcases hk with rfl | rfl | rfl | rfl | rfl <;> decide
      cases recordOf before up <;> simp [field?, hne.symm]
  all_goals by_cases henclosure : info.enclosureId = "" <;> simp [field?, henclosure]

theorem field?_driveEntry_guid : field? (driveEntry parseUtcIso info now before up) "guid"
      = some (str info.guid) := by
  obtain ⟨head, tail, heq, -, -, hguid, -⟩ := @driveEntry_eq parseUtcIso info now before up
  rw [heq, field?_append, field?_append, hguid, Option.some_or, Option.some_or]

/-- The fields a later write reads of an entry. -/
theorem get_driveEntry : get (driveEntry parseUtcIso info now before up) "space"
      = (spaceAndContents before up).1 ∧
    get (driveEntry parseUtcIso info now before up) "last_backup_point" = lastPointOf before up ∧
      get (driveEntry parseUtcIso info now before up) "last_run" = lastRunOf before up ∧
        contentGroup (field? (driveEntry parseUtcIso info now before up))
          = (spaceAndContents before up).2 := by
  obtain ⟨head, tail, heq, hcontent, -, -, hspace, hpoint, hrun, -⟩ :=
    @driveEntry_eq parseUtcIso info now before up
  obtain ⟨value, hvalue⟩ := @spaceAndContents_group before up
  rw [heq, hvalue]
  refine ⟨?_, ?_, ?_, contentGroup_field? fun k hk => ?_⟩
  · rw [Json.get, field?_append, field?_append, hspace]
    rfl
  · rw [Json.get, field?_append, field?_append, hpoint]
    rfl
  · rw [Json.get, field?_append, field?_append, hrun]
    rfl
  · rw [field?_append, field?_append, (hcontent k hk).1, (hcontent k hk).2, Option.none_or,
      Option.or_none]

theorem get_driveEntry_record
    (hrecord : recordOf before up = null ∨ ∃ fields, recordOf before up = obj fields) :
    get (driveEntry parseUtcIso info now before up) "last_point_record" = recordOf before up := by
  obtain ⟨head, tail, heq, -, hnone, -, -, -, -, htail⟩ :=
    @driveEntry_eq parseUtcIso info now before up
  obtain ⟨value, hvalue⟩ := @spaceAndContents_group before up
  have hcontents : field? (contentGroup value) "last_point_record" = none := by
    rw [field?_contentGroup, if_neg (by decide)]
  rw [heq, hvalue, Json.get, field?_append, field?_append, hnone, hcontents, Option.none_or,
    Option.none_or, htail]
  obtain hnull | ⟨fields, hfields⟩ := hrecord
  · rw [hnull]
    rfl
  · rw [hfields]
    rfl

end Fields

/-! ### One write -/

section Step

variable {parseUtcIso : String → Option Int} {info : DriveInfo} {now : String}
  {before : List (String × Json)} {up : DriveUpdate}
  {us : List DriveUpdate}

theorem carried_nil : Carried [] [] := ⟨.inr (.inr ⟨by simp, rfl, rfl⟩), rfl, rfl, rfl⟩

theorem truthy_space (s : Space) : truthy s.toJson = true := rfl

theorem oldContents_eq (h : Carried us before) :
    oldContents before = contentGroup (field? before) := by
  unfold oldContents
  obtain ⟨-, -, s, -, -, -, hspace, -⟩ | ⟨-, -, s, -, -, hspace, -⟩ | ⟨-, -, hcontents⟩ := h.pair
  · rw [hspace, if_pos (truthy_space s)]
  · rw [hspace, if_pos (truthy_space s)]
  · rw [hcontents, ite_self]

theorem paired_spaceAndContents (h : Carried us before) :
    Paired (us ++ [up]) (spaceAndContents before up).1 (spaceAndContents before up).2 := by
  have hlast : up ∈ us ++ [up] := List.mem_append_right us List.mem_cons_self
  have hkept : up.space = none ∨ contentGroup (field? before) ≠ [] →
      Paired (us ++ [up]) (get before "space") (contentGroup (field? before)) := by
    intro hwhen
    obtain ⟨u, hu, hpair⟩ | ⟨u, hu, hspace⟩ | ⟨hnone, hspace, hcontents⟩ := h.pair
    · exact .inl ⟨u, List.mem_append_left _ hu, hpair⟩
    · exact .inr (.inl ⟨u, List.mem_append_left _ hu, hspace⟩)
    · refine .inr (.inr ⟨fun u hu => ?_, hspace, hcontents⟩)
      obtain hu | hu := List.mem_append.mp hu
      · exact hnone u hu
      · exact List.mem_singleton.mp hu ▸ hwhen.resolve_right fun hne => hne hcontents
  unfold spaceAndContents
  rw [oldContents_eq h]
  cases hspace : up.space with
  | none => exact hkept (.inl hspace)
  | some space =>
      cases hcontents : up.contents with
      | some contents => exact .inl ⟨up, hlast, space, contents, hspace, hcontents, rfl, rfl⟩
      | none =>
          dsimp only
          by_cases hold : contentGroup (field? before) = []
          · rw [hold]
            exact .inr (.inl ⟨up, hlast, space, hspace, hcontents, rfl, rfl⟩)
          · rw [if_neg (by simpa using hold)]
            exact hkept (.inr hold)

theorem lastPointOf_eq (h : Carried us before) :
    lastPointOf before up = text? ((us ++ [up]).filterMap DriveUpdate.setPoint).getLast? := by
  unfold lastPointOf
  rw [List.filterMap_append, h.point]
  cases hpoint : up.lastBackupPoint with
  | none => simp [DriveUpdate.setPoint, hpoint]
  | some point =>
      by_cases hempty : point = ""
      · simp [DriveUpdate.setPoint, hpoint, hempty]
      · simp [DriveUpdate.setPoint, hpoint, hempty, text?, Option.filter]

theorem recordOf_eq (h : Carried us before) :
    recordOf before up = ((us ++ [up]).filterMap DriveUpdate.lastPointRecord).getLast?.elim null
      recordJson := by
  unfold recordOf
  rw [List.filterMap_append, h.record]
  cases hrecord : up.lastPointRecord with
  | none => simp [hrecord]
  | some record => simp [hrecord, recordJson]

theorem lastRunOf_eq (h : Carried us before) :
    lastRunOf before up = ((us ++ [up]).foldl recorded none).elim null LastRun.toJson := by
  unfold lastRunOf
  rw [List.foldl_append, List.foldl_cons, List.foldl_nil, h.run]
  generalize us.foldl recorded none = last
  unfold recorded
  cases up.lastRun with
  | none => rfl
  | some run =>
      cases last with
      | none => simp
      | some previous =>
          have hstarted : field? [("command", str "backup"), ("result", str previous.result),
              ("started_at", str previous.startedAt), ("ended_at", str previous.endedAt),
              ("point", text? previous.point), ("datasets_missing", num previous.datasetsMissing),
              ("message", str previous.message)] "started_at" = some (str previous.startedAt) := by
            simp [field?]
          simp only [Option.elim_some, LastRun.toJson, hstarted, Option.map_some, Option.some.injEq]
          split <;> rfl

/-- A drive's entry after one more update. -/
theorem carried_driveEntry (h : Carried us before) :
    Carried (us ++ [up]) (driveEntry parseUtcIso info now before up) := by
  obtain ⟨hspace, hpoint, hrun, hcontents⟩ := @get_driveEntry parseUtcIso info now before up
  refine ⟨?_, hpoint.trans (lastPointOf_eq h), ?_, hrun.trans (lastRunOf_eq h)⟩
  · rw [hspace, hcontents]
    exact paired_spaceAndContents h
  · have heq := @recordOf_eq _ up _ h
    refine (get_driveEntry_record ?_).trans heq
    rw [heq]
    cases ((us ++ [up]).filterMap DriveUpdate.lastPointRecord).getLast? with
    | none => exact .inl rfl
    | some record => exact .inr ⟨_, rfl⟩

end Step

/-! ### Any run of writes -/

/-- A file of a newer zark: of this kind, with a newer schema version. -/
structure NewerFile where
  fields : List (String × Json)
  kind : read (.doc (obj fields)) = some fields
  newer : (StatusFile.newer (some fields)).isSome = true

/-- What may happen to the file: a writer's turn, or a newer zark's file in its place. -/
inductive Step where
  | write (w : Writer)
  | newer (file : NewerFile)

def Writer.guids (w : Writer) : List String := w.cfg.knownDrives.items.map DriveInfo.guid

/-- The file, and for each drive the updates it was written with since it is in the registry. -/
structure Trace where
  file : File
  updates : String → List DriveUpdate

section Run

variable (parseUtcIso : String → Option Int)

def Trace.step (t : Trace) : Step → Trace
  | .newer file => { t with file := .doc (obj file.fields) }
  | .write w =>
      match (write parseUtcIso w t.file).2.1 with
      | some doc =>
          { file := .doc doc,
            updates :=
              fun guid => if guid ∈ w.guids then t.updates guid ++
                [(w.updates guid).getD {}] else [] }
      | none => t

/-- The run from no file. -/
def trace (steps : List Step) : Trace :=
  steps.foldl (Trace.step parseUtcIso) { file := .absent, updates := fun _ => [] }

variable {parseUtcIso} {w : Writer} {t : Trace} {file : File}

theorem trace_snoc (steps : List Step) (s : Step) :
    trace parseUtcIso (steps ++ [s]) = (trace parseUtcIso steps).step parseUtcIso s := by
  rw [trace, List.foldl_append, List.foldl_cons, List.foldl_nil, trace]

/-- A write puts no document in place, or found no newer file and puts the merged one there. -/
theorem write_cases (w : Writer) (file : File) :
    (write parseUtcIso w file).2.1 = none ∨
      newer (read file) = none ∧ (write parseUtcIso w file).2.1 =
        some (build parseUtcIso w.st w.cfg w.generatedBy w.generatedAt (read file) w.updates) := by
  unfold write
  split
  · exact .inl rfl
  · split
    · exact .inl rfl
    · split
      · exact .inl rfl
      · exact .inl rfl
      · dsimp only
        split
        · exact .inl rfl
        · rename_i hnewer
          split
          · split_ifs
            · exact .inr ⟨hnewer, rfl⟩
            · exact .inl rfl
          · exact .inr ⟨hnewer, rfl⟩

theorem step_written {doc : Json} (hdoc : (write parseUtcIso w t.file).2.1 = some doc) :
    t.step parseUtcIso (.write w) =
    { file := .doc doc
      updates := fun guid => if guid ∈ w.guids then t.updates guid ++ [(w.updates guid).getD {}] else [] } := by
  simp only [Trace.step, hdoc]

theorem step_refused (hnone : (write parseUtcIso w t.file).2.1 = none) :
    t.step parseUtcIso (.write w) = t := by
  simp only [Trace.step, hnone]

/-- The previous entry of a drive, {} when there is none. -/
def previousEntry (prev : Option (List (String × Json))) (guid : String) : List (String × Json) :=
  (((previousDrives prev).get? guid).map Prod.snd).getD []

/-- The drive entries of a document, with their guids. -/
def entries (parseUtcIso : String → Option Int) (w : Writer)
    (prev : Option (List (String × Json))) : List (String × List (String × Json)) :=
  w.cfg.sorted.map fun info =>
    (info.guid, driveEntry parseUtcIso info w.generatedAt (previousEntry prev info.guid)
      ((w.updates info.guid).getD {}))

theorem mem_entries {prev : Option (List (String × Json))} {e : String × List (String × Json)} :
    e ∈ entries parseUtcIso w prev ↔
    ∃ info ∈ w.cfg.knownDrives, e =
      (info.guid, driveEntry parseUtcIso info w.generatedAt (previousEntry prev info.guid)
        ((w.updates info.guid).getD {})) := by
  simp only [entries, Config.sorted, List.mem_map, List.mem_insertionSort]
  exact ⟨fun ⟨info, hinfo, he⟩ => ⟨info, hinfo, he.symm⟩, fun ⟨info, hinfo, he⟩ =>
    ⟨info, hinfo, he.symm⟩⟩

/-- A document is read back as its drive entries. -/
theorem build_spec (w : Writer) (prev : Option (List (String × Json))) :
    ∃ fields, build parseUtcIso w.st w.cfg w.generatedBy w.generatedAt prev w.updates = obj fields ∧
    read (.doc (obj fields)) = some fields ∧
      newer (some fields) = none ∧ field? fields "drives"
        = some (arr ((entries parseUtcIso w prev).map fun e => obj e.2)) := by
  refine ⟨_, rfl, ?_, ?_, ?_⟩
  · simp [read, field?]
  · simp [newer, field?, schemaVersion]
  · rw [field?_append, field?_append]
    cases w.st.boot <;> simp [field?, entries, previousEntry, List.map_map, Function.comp_def]

theorem previousEntry_build {fields : List (String × Json)} {prev : Option (List (String × Json))}
    (hdrives : field? fields "drives" =
      some (arr ((entries parseUtcIso w prev).map fun e => obj e.2)))
    (hguids : w.guids.Nodup) :
    (∀ e ∈ entries parseUtcIso w prev, previousEntry (some fields) e.1 = e.2) ∧
    ∀ guid ∉ w.guids, previousEntry (some fields) guid = [] := by
  have hread : ((entries parseUtcIso w prev).map fun e => obj e.2).filterMap entryOf
      = entries parseUtcIso w prev := by
    rw [List.filterMap_map]
    refine (List.filterMap_congr fun e he => ?_).trans List.filterMap_some
    obtain ⟨info, -, rfl⟩ := mem_entries.mp he
    simp [entryOf, field?_driveEntry_guid]
  have hnodup : ((entries parseUtcIso w prev).map Prod.fst).Nodup := by
    rw [entries, Config.sorted, List.map_map]
    exact ((List.perm_insertionSort _ _).map DriveInfo.guid).nodup_iff.mpr hguids
  have hput : previousDrives (some fields) = Keyed.putAll (entries parseUtcIso w prev) := by
    rw [previousDrives, Option.bind_some, hdrives]
    dsimp only
    rw [hread]
  unfold previousEntry
  rw [hput]
  refine ⟨fun e he => ?_, fun guid hguid => ?_⟩
  · rw [Keyed.get?_eq_some_iff.mpr ⟨(Keyed.mem_putAll_of_nodup hnodup).mpr he, rfl⟩]
    rfl
  · have hnone : (Keyed.putAll (entries parseUtcIso w prev) : Keyed Prod.fst).get? guid = none := by
      rw [Keyed.get?_eq_none_iff]
      intro hmem
      obtain ⟨e, he, heq⟩ := Keyed.mem_keys.mp hmem
      obtain ⟨info, hinfo, rfl⟩ := mem_entries.mp ((Keyed.mem_putAll_of_nodup hnodup).mp he)
      exact hguid (heq ▸ List.mem_map_of_mem hinfo)
    rw [hnone]
    rfl

/-- Where the run stands: at a newer file, or at one whose entries have what their updates make. -/
def Sound (t : Trace) : Prop :=
  (newer (read t.file)).isSome = true ∨ ∀ guid, Carried (t.updates guid)
  (previousEntry (read t.file) guid)

theorem sound_step (h : Sound t) (s : Step) (hguids : ∀ w, s = .write w → w.guids.Nodup) :
    Sound (t.step parseUtcIso s) := by
  cases s with
  | newer file => exact .inl (file.kind.symm ▸ file.newer)
  | write w =>
      obtain hnone | ⟨hnewer, hdoc⟩ := @write_cases parseUtcIso w t.file
      · rw [step_refused hnone]
        exact h
      · obtain ⟨fields, hbuild, hread, -, hdrives⟩ := @build_spec parseUtcIso w (read t.file)
        obtain ⟨hentry, habsent⟩ := previousEntry_build hdrives (hguids w rfl)
        rw [step_written hdoc, hbuild]
        refine .inr fun guid => ?_
        dsimp only
        rw [hread]
        by_cases hguid : guid ∈ w.guids
        · obtain ⟨info, hinfo, rfl⟩ := List.mem_map.mp hguid
          have hprevious := h.resolve_left (by rw [hnewer]; decide)
          rw [if_pos hguid, hentry _ (mem_entries.mpr ⟨info, hinfo, rfl⟩)]
          exact carried_driveEntry (hprevious info.guid)
        · rw [if_neg hguid, habsent guid hguid]
          exact carried_nil

theorem sound_trace {steps : List Step} (hguids : ∀ w, .write w ∈ steps → w.guids.Nodup) :
    Sound (trace parseUtcIso steps) := by
  induction steps using List.reverseRecOn with
  | nil => exact .inr fun _ => carried_nil
  | append_singleton steps s ih =>
      rw [trace_snoc]
      refine sound_step (ih fun w hw => hguids w (List.mem_append_left _ hw)) s fun w hw => ?_
      exact hguids w (hw ▸ List.mem_append_right _ List.mem_cons_self)

theorem newer_stays (file : NewerFile) (writers : List Writer) {t : Trace}
    (ht : t.file = .doc (obj file.fields)) :
    ((writers.map Step.write).foldl (Trace.step parseUtcIso) t).file = .doc (obj file.fields) := by
  induction writers generalizing t with
  | nil => exact ht
  | cons w writers ih =>
      refine ih ?_
      obtain hnone | ⟨hnewer, -⟩ := @write_cases parseUtcIso w t.file
      · rw [step_refused hnone]
        exact ht
      · have := file.newer
        rw [ht, file.kind] at hnewer
        rw [hnewer] at this
        cases this

/-- Every file put in place has for each drive of the registry an entry with what the drive's
updates make, and a newer file is never replaced. -/
theorem trace_carries {steps : List Step} (hguids : ∀ w, .write w ∈ steps → w.guids.Nodup) :
    (∀ before w after, steps = before ++ .write w :: after →
      (write parseUtcIso w (trace parseUtcIso before).file).2.1.isSome = true →
        ∃ (fields : List (String × Json)) (entry : DriveInfo → List (String × Json)),
          (trace parseUtcIso (before ++ [.write w])).file = .doc (obj fields) ∧
            field? fields "drives" = some (arr (w.cfg.sorted.map fun info => obj (entry info))) ∧
              ∀ info ∈ w.cfg.knownDrives, field? (entry info) "guid" = some (str info.guid) ∧
                Carried ((trace parseUtcIso (before ++ [.write w])).updates info.guid)
                  (entry info)) ∧
      ∀ before file (writers : List Writer),
        (trace parseUtcIso (before ++ .newer file :: writers.map Step.write)).file
          = .doc (obj file.fields) := by
  constructor
  · intro before w after hsplit hput
    obtain hnone | ⟨hnewer, hdoc⟩ := @write_cases parseUtcIso w (trace parseUtcIso before).file
    · rw [hnone] at hput
      cases hput
    obtain ⟨fields, hbuild, -, -, hdrives⟩ :=
      @build_spec parseUtcIso w (read (trace parseUtcIso before).file)
    have hsound : Sound (trace parseUtcIso before) :=
      sound_trace fun w' hw' => hguids w' (hsplit ▸ List.mem_append_left _ hw')
    rw [entries, List.map_map] at hdrives
    refine ⟨fields, _, ?_, hdrives, fun info hinfo => ⟨field?_driveEntry_guid, ?_⟩⟩
    · rw [trace_snoc, step_written hdoc, hbuild]
    · have hguid : info.guid ∈ w.guids := List.mem_map_of_mem hinfo
      rw [trace_snoc, step_written hdoc]
      dsimp only
      rw [if_pos hguid]
      exact carried_driveEntry (hsound.resolve_left (by rw [hnewer]; decide) info.guid)
  · intro before file writers
    rw [trace, List.foldl_append, List.foldl_cons]
    exact newer_stays file writers rfl

end Run

/-- A drive measured whole, and its space alone measured later, by a writer whose last sync fails.
-/
def measuringWriter : Writer where
  cfg :=
    { knownDrives := ⟨[{ name := "black", guid := "111", driveId := "usb-x" }], by decide⟩,
      drivesFilePath := "known_drives.json" }
  updates :=
    fun _ =>
      some { space := some ⟨1, 2, 3, 4, 5, 6, "t"⟩, contents := some { points := some (arr []) } }

def laterWriter : Writer :=
  { measuringWriter with
    updates := fun _ => some { space := some ⟨2, 2, 3, 4, 5, 6, "u"⟩, lastBackupPoint := some "p" }
    failure := some { error := "Input/output error", replaced := true } }

theorem trace_carries_later :
    ∃ (fields : List (String × Json)) (entry : DriveInfo → List (String × Json)),
    (trace (fun _ => none) [.write measuringWriter, .write laterWriter]).file = .doc (obj fields) ∧
      field? fields "drives"
        = some (arr (laterWriter.cfg.sorted.map fun info => obj (entry info))) ∧
        ∀ info ∈ laterWriter.cfg.knownDrives, field? (entry info) "guid" = some (str info.guid) ∧
          Carried
            [{ space := some ⟨1, 2, 3, 4, 5, 6, "t"⟩,
               contents := some { points := some (arr []) } },
             { space := some ⟨2, 2, 3, 4, 5, 6, "u"⟩, lastBackupPoint := some "p" }]
            (entry info) := by
  have hguids : ∀ w, Step.write w ∈ [Step.write measuringWriter, .write laterWriter] →
      w.guids.Nodup := by
    intro w hw
    rw [List.mem_cons, List.mem_singleton, Step.write.injEq, Step.write.injEq] at hw
    rcases hw with rfl | rfl <;> decide
  obtain ⟨fields, entry, hfile, hdrives, hentries⟩ :=
    (@trace_carries (fun _ => none) _ hguids).1 [.write measuringWriter] laterWriter [] rfl
      (by decide +kernel)
  refine ⟨fields, entry, hfile, hdrives, fun info hinfo => ?_⟩
  obtain ⟨hguid, hcarried⟩ := hentries info hinfo
  refine ⟨hguid, ?_⟩
  rw [List.mem_singleton.mp hinfo] at hcarried ⊢
  exact hcarried

end Zark.StatusFile
