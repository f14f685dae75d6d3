import Zark.Library.Checks
import Zark.Registry

/-!
# The registry keeps what it does not change

An entry is written in one form: the known fields, the enclosure when there is one, the other keys
as they stand. Each of its values is found again by its name, and an entry in this form is written
as it is, so a drive that was read is written to the same fields whatever happens to the others.
-/

namespace Zark.Registry

open Json

variable {py : Python}

/-! ### Entries that pass -/

theorem require_eq_ok {ok : Bool} {message : String} : require ok message = .ok () ↔ ok = true := by
  cases ok <;> simp [require]

/-- The fields of an entry that passes its checks. -/
structure Passes (py : Python) (place : String) (fields : List (String × Json)) : Prop where
  guid : isGuid py (guidValue (get fields "guid")) = true
  driveId : isNonBlank (get fields "drive_id") = true
  enclosure : (field? fields enclosureKey).all isNonBlank = true
  autoeject : (field? fields "autoeject").all isBool = true
  last : ((field? fields "last_backup_at").all fun v => isStr v || v matches null) = true
  retention : ∀ v ∈ field? fields retentionKey, checkRetention place v = .ok ()
  texts : ∀ key ∈ textKeys, (field? fields key).all isStr = true
  shared : ∀ v ∈ field? fields sharedKey, checkShared py place v = .ok ()

theorem checkFields_eq_ok {place : String} {fields : List (String × Json)} :
    checkFields py place fields = .ok () ↔ Passes py place fields := by
  simp only [checkFields, Except.bind_unit_eq_ok, require_eq_ok, Except.forM_eq_ok,
    Except.option_forM_eq_ok]
  constructor
  · rintro ⟨hguid, hdrive, henclosure, hautoeject, hlast, hretention, htexts, hshared⟩
    exact ⟨hguid, hdrive, henclosure, hautoeject, hlast, hretention, htexts, hshared⟩
  · rintro ⟨hguid, hdrive, henclosure, hautoeject, hlast, hretention, htexts, hshared⟩
    exact ⟨hguid, hdrive, henclosure, hautoeject, hlast, hretention, htexts, hshared⟩

/-! ### The form an entry is written in -/

/-- The known fields, the enclosure and the rest. -/
def form (guid driveId last autoeject : Json) (enclosure : Option Json)
    (rest : List (String × Json)) : List (String × Json) :=
  [("guid", guid), ("drive_id", driveId), ("last_backup_at", last), ("autoeject", autoeject)] ++
    ((enclosure.elim [] fun v => [(enclosureKey, v)]) ++ rest.filter fun f => isExtra f.1)

section Form

variable {guid driveId last autoeject : Json} {enclosure : Option Json}
  {rest : List (String × Json)} {key : String}

theorem field?_filter (h : isExtra key = true) :
    field? (rest.filter fun f => isExtra f.1) key = field? rest key := by
  have hkeep : (fun f : String × Json => isExtra f.1 && decide (f.1 = key)) = fun f =>
      decide (f.1 = key) := by
    funext f
    by_cases hf : f.1 = key
    · simp [hf, h]
    · simp [hf]
  rw [field?, List.find?_filter, field?]
  simp only [Bool.decide_and, Bool.decide_eq_true, decide_eq_true_eq, hkeep]

theorem field?_filter_none (h : isExtra key = false) :
    field? (rest.filter fun f => isExtra f.1) key = none := by
  rw [field?, Option.map_eq_none_iff, List.find?_eq_none]
  intro f hf heq
  have hextra := (List.mem_filter.mp hf).2
  rw [of_decide_eq_true heq, h] at hextra
  cases hextra

theorem field?_form_guid : field? (form guid driveId last autoeject enclosure rest) "guid"
      = some guid := by simp [form, field?]

theorem field?_form_driveId : field? (form guid driveId last autoeject enclosure rest) "drive_id"
      = some driveId := by simp [form, field?]

theorem field?_form_last : field? (form guid driveId last autoeject enclosure rest) "last_backup_at"
      = some last := by simp [form, field?]

theorem field?_form_autoeject : field? (form guid driveId last autoeject enclosure rest) "autoeject"
      = some autoeject := by simp [form, field?]

theorem field?_form_enclosure :
    field? (form guid driveId last autoeject enclosure rest) enclosureKey = enclosure := by
  rw [form, field?_append, field?_append, field?_filter_none (by decide), Option.or_none]
  cases enclosure with
  | none => simp [field?, enclosureKey]
  | some v => simp [field?, enclosureKey]

theorem field?_form_extra (h : isExtra key = true) :
    field? (form guid driveId last autoeject enclosure rest) key = field? rest key := by
  have hkey : key ∉ knownKeys ∧ key ≠ enclosureKey := of_decide_eq_true h
  simp only [knownKeys, List.mem_cons, List.not_mem_nil, or_false, not_or] at hkey
  obtain ⟨⟨h₁, h₂, h₃, h₄⟩, h₅⟩ := hkey
  rw [form, field?_append, field?_append, field?_filter h]
  have hnone : field? [("guid", guid), ("drive_id", driveId), ("last_backup_at", last),
      ("autoeject", autoeject)] key = none := by
    simp [field?, Ne.symm h₁, Ne.symm h₂, Ne.symm h₃, Ne.symm h₄]
  rw [hnone, Option.none_or]
  cases enclosure with
  | none => rfl
  | some v => simp [field?, Ne.symm h₅]

theorem filter_form : ((form guid driveId last autoeject enclosure rest).filter fun f =>
      isExtra f.1) = rest.filter fun f => isExtra f.1 := by
  rw [form, List.filter_append, List.filter_append, List.filter_filter]
  cases enclosure <;> simp [isExtra, knownKeys]

theorem form_congr {rest' : List (String × Json)}
    (h : (rest.filter fun f => isExtra f.1) = rest'.filter fun f => isExtra f.1) :
    form guid driveId last autoeject enclosure rest
      = form guid driveId last autoeject enclosure rest' := by
  rw [form, h, form]

theorem full_eq_form (entry : List (String × Json)) :
    full entry = form (str (pyStr (get entry "guid"))) (get entry "drive_id")
      (get entry "last_backup_at")
    (.bool (truthy ((field? entry "autoeject").getD (.bool false))))
    (if truthy (get entry enclosureKey) then some (get entry enclosureKey) else none)
    entry := by
  rw [full, form]
  split <;> rfl

theorem full_form : full (form guid driveId last autoeject enclosure rest) =
    form (str (pyStr guid)) driveId last (.bool (truthy autoeject))
      (if truthy (enclosure.getD null) then some (enclosure.getD null) else none) rest := by
  rw [full_eq_form, Json.get, Json.get, Json.get, Json.get, field?_form_guid, field?_form_driveId,
    field?_form_last, field?_form_autoeject, field?_form_enclosure, form_congr filter_form]
  rfl

end Form

/-! ### What a drive is written as -/

section Written

theorem field?_cons (g : String × Json) (fields : List (String × Json)) (key : String) :
    field? (g :: fields) key = if g.1 = key then some g.2 else field? fields key := by
  rw [field?, List.find?_cons]
  by_cases hg : g.1 = key <;> simp [hg, field?]

theorem field?_eq_none {fields : List (String × Json)} {key : String}
    (h : key ∉ fields.map Prod.fst) : field? fields key = none := by
  rw [field?, Option.map_eq_none_iff, List.find?_eq_none]
  intro g hg heq
  exact h (List.mem_map.mpr ⟨g, hg, of_decide_eq_true heq⟩)

theorem field?_replace (fields : List (String × Json)) (f : String × Json) (key : String) :
    field? (fields.map fun g => if g.1 = f.1 then f else g) key =
      if f.1 = key then
        (if f.1 ∈ fields.map Prod.fst then some f.2 else none)
      else field? fields key := by
  induction fields with
  | nil => simp [field?]
  | cons g fields ih =>
      rw [List.map_cons, field?_cons, ih, field?_cons]
      by_cases hg : g.1 = f.1
      · by_cases hkey : f.1 = key <;> simp [hg, hkey]
      · by_cases hkey : f.1 = key
        · have hmem : f.1 ∈ (g :: fields).map Prod.fst ↔ f.1 ∈ fields.map Prod.fst := by
            simp [Ne.symm hg]
          rw [if_pos hkey, if_neg hg, if_neg fun heq => hg (heq.trans hkey.symm), if_pos hkey]
          exact if_congr hmem.symm rfl rfl
        · simp [hg, hkey]

theorem field?_putField (fields : List (String × Json)) (f : String × Json) (key : String) :
    field? (putField fields f) key = if f.1 = key then some f.2 else field? fields key := by
  rw [putField]
  split
  · rename_i hmem
    rw [field?_replace, if_pos hmem]
  · rename_i hnot
    rw [field?_append, field?_cons]
    by_cases hkey : f.1 = key
    · rw [field?_eq_none (hkey ▸ hnot), if_pos hkey, if_pos hkey, Option.none_or]
    · rw [if_neg hkey, if_neg hkey]
      exact Option.or_none

theorem filter_putField {f : String × Json} (h : isExtra f.1 = false)
    (fields : List (String × Json)) :
    ((putField fields f).filter fun g => isExtra g.1) = fields.filter fun g => isExtra g.1 := by
  rw [putField]
  split
  · clear * - h
    induction fields with
    | nil => rfl
    | cons g fields ih =>
        rw [List.map_cons, List.filter_cons, List.filter_cons, ih]
        by_cases hg : g.1 = f.1
        · rw [if_pos hg, hg, h]
          rfl
        · rw [if_neg hg]
  · rw [List.filter_append]
    simp [h]

theorem filter_putFields {updates : List (String × Json)} (h : ∀ f ∈ updates, isExtra f.1 = false)
    (fields : List (String × Json)) :
    ((updates.foldl putField fields).filter fun g => isExtra g.1) = fields.filter fun g =>
      isExtra g.1 := by
  induction updates generalizing fields with
  | nil => rfl
  | cons f updates ih =>
      rw [List.foldl_cons, ih fun g hg => h g (List.mem_cons_of_mem _ hg)]
      exact filter_putField (h f List.mem_cons_self) fields

variable (info : DriveInfo py)

/-- What an entry of a drive holds under the enclosure's key. -/
def enclosureOf : Option Json :=
  if info.enclosureId = "" then
    field? info.extra.fields enclosureKey
  else some (str info.enclosureId)

theorem field?_entryOf : field? (entryOf info) "guid" = some (str info.guid) ∧
    field? (entryOf info) "drive_id" = some (str info.driveId) ∧
    field? (entryOf info) "last_backup_at" = some (info.lastBackupAt.elim null str) ∧
      field? (entryOf info) "autoeject" = some (.bool info.autoeject) ∧
      field? (entryOf info) enclosureKey = enclosureOf info := by
  rw [entryOf, enclosureOf]
  split <;> simp [field?_putField, enclosureKey]

theorem filter_entryOf : ((entryOf info).filter fun f => isExtra f.1)
      = info.extra.fields.filter fun f => isExtra f.1 := by
  refine filter_putFields (fun f hf => ?_) _
  have hkeys : f.1 ∈ knownKeys ∨ f.1 = enclosureKey := by
    simp only [List.mem_append, List.mem_cons, List.not_mem_nil, or_false] at hf
    obtain (rfl | rfl | rfl | rfl) | hf := hf
    · exact .inl (by simp [knownKeys])
    · exact .inl (by simp [knownKeys])
    · exact .inl (by simp [knownKeys])
    · exact .inl (by simp [knownKeys])
    · split at hf
      · cases hf
      · rw [List.mem_singleton.mp hf]
        exact .inr rfl
  exact decide_eq_false fun h => hkeys.elim h.1 h.2

/-- The fields a drive's entry is written with. -/
def written : List (String × Json) := full (entryOf info)

theorem written_eq : written info = form (str info.guid) (str info.driveId)
      (info.lastBackupAt.elim null str) (.bool info.autoeject)
    (if truthy ((enclosureOf info).getD null) then some ((enclosureOf info).getD null) else none)
      info.extra.fields := by
  obtain ⟨hguid, hdrive, hlast, hautoeject, henclosure⟩ := field?_entryOf info
  rw [written, full_eq_form, Json.get, Json.get, Json.get, Json.get, hguid, hdrive, hlast,
    hautoeject, henclosure, form_congr (filter_entryOf info)]
  rfl

end Written

/-! ### Values of entries that pass -/

section Values

variable {v : Json}

theorem guidValue_of_isGuid (h : isGuid py (guidValue v) = true) : guidValue v = str (pyStr v) := by
  cases v with
  | num n => rfl
  | str s => rfl
  | _ => cases h

theorem eq_str_of_isNonBlank (h : isNonBlank v = true) : v = str (pyStr v) ∧ pyStr v ≠ "" := by
  cases v with
  | str s =>
      refine ⟨rfl, fun heq => ?_⟩
      rw [pyStr] at heq
      subst heq
      revert h
      decide
  | _ => cases h

theorem truthy_of_isNonBlank (h : isNonBlank v = true) : truthy v = true := by
  obtain ⟨hv, hne⟩ := eq_str_of_isNonBlank h
  rw [hv, truthy]
  exact decide_eq_true hne

theorem eq_bool_of_isBool (h : isBool v = true) : v = .bool (truthy v) := by
  cases v with
  | bool b => rfl
  | _ => cases h

end Values

section Read

variable {place : String} {d : Dict py.floats} {info : DriveInfo py}

/-- A drive that was read is written with its fields as they were, the guid as text and none left
out. -/
theorem written_infoOf (h : Passes py place d.fields) : written (infoOf d) =
    form (guidValue (get d.fields "guid")) (get d.fields "drive_id") (get d.fields "last_backup_at")
      ((field? d.fields "autoeject").getD (.bool false))
      (field? d.fields enclosureKey) d.fields := by
  have hlast : (infoOf d).lastBackupAt.elim null str = get d.fields "last_backup_at" := by
    have hlast := h.last
    simp only [infoOf, Json.get]
    cases hfield : field? d.fields "last_backup_at" with
    | none => rfl
    | some v =>
        rw [hfield, Option.all_some] at hlast
        cases v with
        | str s => rfl
        | null => rfl
        | _ => cases hlast
  have hautoeject : Json.bool (infoOf d).autoeject = (field? d.fields "autoeject").getD
      (.bool false) := by
    have hbool := h.autoeject
    simp only [infoOf]
    cases hfield : field? d.fields "autoeject" with
    | none => rfl
    | some v =>
        rw [hfield, Option.all_some] at hbool
        exact (eq_bool_of_isBool hbool).symm
  have henclosure :
      (if truthy ((enclosureOf (infoOf d)).getD null) then some ((enclosureOf (infoOf d)).getD null)
        else none) =
      field? d.fields enclosureKey := by
    have hblank := h.enclosure
    cases hfield : field? d.fields enclosureKey with
    | none =>
        have hid : (infoOf d).enclosureId = "" := by simp [infoOf, hfield, pyStr]
        have hnone : enclosureOf (infoOf d) = none := by
          rw [enclosureOf, if_pos hid]
          exact field?_filter_none (by decide)
        rw [hnone]
        rfl
    | some v =>
        rw [hfield, Option.all_some] at hblank
        obtain ⟨hv, hne⟩ := eq_str_of_isNonBlank hblank
        have hid : (infoOf d).enclosureId = pyStr v := by simp [infoOf, hfield]
        have hsome : enclosureOf (infoOf d) = some v := by
          rw [enclosureOf, if_neg (hid ▸ hne), hid, ← hv]
        rw [hsome, Option.getD_some, if_pos (truthy_of_isNonBlank hblank)]
  have hextra : ((infoOf d).extra.fields.filter fun f => isExtra f.1) = d.fields.filter fun f =>
      isExtra f.1 := by
    simp only [infoOf, List.filter_filter, Bool.and_self]
  rw [written_eq, hlast, hautoeject, henclosure, form_congr hextra, guidValue_of_isGuid h.guid]
  congr 1
  exact (eq_str_of_isNonBlank h.driveId).1.symm

theorem passes_written (h : Passes py place d.fields) : Passes py place (written (infoOf d)) := by
  rw [written_infoOf h]
  refine ⟨?_, ?_, ?_, ?_, ?_, ?_, ?_, ?_⟩
  · rw [Json.get, field?_form_guid, Option.getD_some]
    have hguid := h.guid
    rw [guidValue_of_isGuid h.guid] at hguid ⊢
    exact hguid
  · rw [Json.get, field?_form_driveId]
    exact h.driveId
  · rw [field?_form_enclosure]
    exact h.enclosure
  · rw [field?_form_autoeject, Option.all_some]
    have hbool := h.autoeject
    cases hfield : field? d.fields "autoeject" with
    | none => rfl
    | some v =>
        rw [hfield, Option.all_some] at hbool
        exact hbool
  · rw [field?_form_last, Option.all_some]
    have hlast := h.last
    rw [Json.get]
    cases hfield : field? d.fields "last_backup_at" with
    | none => rfl
    | some v =>
        rw [hfield, Option.all_some] at hlast
        exact hlast
  · rw [field?_form_extra (by decide)]
    exact h.retention
  · intro key hkey
    have hextra : ∀ key ∈ textKeys, isExtra key = true := by decide
    rw [field?_form_extra (hextra key hkey)]
    exact h.texts key hkey
  · rw [field?_form_extra (by decide)]
    exact h.shared

theorem held_form {guid driveId last autoeject : Json} {enclosure : Option Json}
    {rest : List (String × Json)} (hguid : Held py.floats guid) (hdrive : Held py.floats driveId)
    (hlast : Held py.floats last) (hautoeject : Held py.floats autoeject)
    (henclosure : ∀ v ∈ enclosure, Held py.floats v) (hrest : Held py.floats (obj rest)) :
    Held py.floats (obj (form guid driveId last autoeject enclosure rest)) := by
  have hextra := heldFields_filter (fun f => isExtra f.1) hrest
  constructor
  · rw [heldFields_iff, form]
    intro f hf
    simp only [List.mem_append, List.mem_cons, List.not_mem_nil, or_false] at hf
    obtain (rfl | rfl | rfl | rfl) | hf | hf := hf
    · exact hguid
    · exact hdrive
    · exact hlast
    · exact hautoeject
    · cases enclosure with
      | none => cases hf
      | some v =>
          rw [List.mem_singleton.mp hf]
          exact henclosure v rfl
    · exact heldFields_iff.mp hextra.1 f hf
  · have hdistinct : ∀ key, isExtra key = false →
        key ∉ (rest.filter fun f => isExtra f.1).map Prod.fst := by
      intro key hkey hmem
      obtain ⟨f, hf, rfl⟩ := List.mem_map.mp hmem
      rw [(List.mem_filter.mp hf).2] at hkey
      cases hkey
    have hknown : ∀ key ∈ knownKeys, key ∉ (rest.filter fun f => isExtra f.1).map Prod.fst :=
      fun key hkey =>
        hdistinct key (decide_eq_false fun h => h.1 hkey)
    rw [form]
    cases enclosure with
    | none =>
        simp only [Option.elim_none, List.nil_append, List.map_append, List.map_cons, List.map_nil]
        exact List.Nodup.append (by decide) hextra.2 hknown
    | some v =>
        simp only [Option.elim_some, List.map_append, List.map_cons, List.map_nil]
        refine List.Nodup.append (by decide) (List.nodup_cons.mpr
          ⟨hdistinct enclosureKey (by decide), hextra.2⟩) fun key hkey hmem => ?_
        obtain rfl | hmem := List.mem_cons.mp hmem
        · revert hkey
          decide
        · exact hknown key hkey hmem

theorem held_written (info : DriveInfo py) : Held py.floats (obj (written info)) := by
  rw [written_eq]
  refine held_form (by simp [Held]) (by simp [Held]) ?_ (by simp [Held]) ?_ info.extra.held
  · cases info.lastBackupAt <;> simp [Held]
  · intro v hv
    split at hv
    · obtain rfl := Option.some.inj hv
      rw [enclosureOf]
      split
      · cases hfield : field? info.extra.fields enclosureKey with
        | none => simp [Held]
        | some v =>
            obtain ⟨f, hf, rfl⟩ := Option.map_eq_some_iff.mp hfield
            exact heldFields_iff.mp info.extra.held.1 f (List.mem_of_find?_eq_some hf)
      · simp [Held]
    · cases hv

/-- An entry keeps its guid as text, its known fields, a missing one at its default, and every other
key and value. -/
structure Same (a b : Dict py.floats) : Prop where
  guid : pyStr (get b.fields "guid") = pyStr (get a.fields "guid")
  driveId : get b.fields "drive_id" = get a.fields "drive_id"
  enclosure : field? b.fields enclosureKey = field? a.fields enclosureKey
  last : get b.fields "last_backup_at" = get a.fields "last_backup_at"
  autoeject : (field? b.fields "autoeject").getD (.bool false)
    = (field? a.fields "autoeject").getD (.bool false)
  rest : (b.fields.filter fun f => isExtra f.1) = a.fields.filter fun f => isExtra f.1

/-- A drive's entry as a dictionary. -/
def writtenDict (info : DriveInfo py) : Dict py.floats := ⟨written info, held_written info⟩

theorem same_written (h : Passes py place d.fields) : Same d (writtenDict (infoOf d)) := by
  have hform : (writtenDict (infoOf d)).fields = _ := written_infoOf h
  refine ⟨?_, ?_, ?_, ?_, ?_, ?_⟩
  · rw [hform, Json.get, field?_form_guid, Option.getD_some, guidValue_of_isGuid h.guid]
    rfl
  · rw [hform, Json.get, field?_form_driveId, Option.getD_some]
  · rw [hform, field?_form_enclosure]
  · rw [hform, Json.get, field?_form_last, Option.getD_some]
  · rw [hform, field?_form_autoeject, Option.getD_some]
  · rw [hform, filter_form]

theorem infoOf_congr {a b : Dict py.floats} (h : Same a b) : infoOf b = infoOf a := by
  simp only [infoOf, h.guid, h.driveId, h.last, h.autoeject, h.enclosure, h.rest]

theorem written_again (h : Passes py place (written info)) :
    written (infoOf (writtenDict info)) = written info ∧ full (written info) = written info := by
  obtain ⟨last, enclosure, hform⟩ : ∃ last enclosure, written info =
      form (str info.guid) (str info.driveId) last (.bool info.autoeject) enclosure
        info.extra.fields := ⟨_, _, written_eq info⟩
  constructor
  · have hagain : written (infoOf (writtenDict info)) = _ :=
      written_infoOf (d := writtenDict info) h
    rw [hagain]
    change form (guidValue (get (written info) "guid")) (get (written info) "drive_id")
      (get (written info) "last_backup_at")
      ((field? (written info) "autoeject").getD (.bool false)) (field? (written info) enclosureKey)
      (written info) = written info
    rw [hform, Json.get, Json.get, Json.get, field?_form_guid, field?_form_driveId,
      field?_form_last, field?_form_autoeject, field?_form_enclosure, form_congr filter_form]
    rfl
  · have henclosure := h.enclosure
    rw [hform, field?_form_enclosure] at henclosure
    rw [hform, full_form]
    cases enclosure with
    | none => rfl
    | some v =>
        rw [Option.all_some] at henclosure
        rw [Option.getD_some, if_pos (truthy_of_isNonBlank henclosure)]
        rfl

end Read

/-! ### The registry parsed -/

section Parsed

variable {path name : String}

/-- Where an entry's errors say it is. -/
def placeOf (path name : String) : String := path ++ ": entry '" ++ name ++ "'"

/-- Entries as the fields of the registry's object. -/
def dataOf (entries : List (String × Dict py.floats)) : List (String × Json) :=
  entries.map fun e => (e.1, obj e.2.fields)

theorem checkEntry_eq_ok {v : Json} {h : Held py.floats v} {d : Dict py.floats} :
    checkEntry py path name v h = .ok d ↔
    v = obj d.fields ∧ Passes py (placeOf path name) d.fields := by
  cases v with
  | obj fields =>
      rw [checkEntry, Except.bind_unit_eq_ok, obj.injEq]
      constructor
      · rintro ⟨hcheck, hd⟩
        obtain rfl := Except.ok.inj hd
        exact ⟨rfl, checkFields_eq_ok.mp hcheck⟩
      · rintro ⟨rfl, hpasses⟩
        exact ⟨checkFields_eq_ok.mpr hpasses, rfl⟩
  | _ => exact iff_of_false nofun nofun

theorem checkAll_eq_ok :
    ∀ {data : List (String × Json)} {h : HeldFields py.floats data} {entries : List (String × Dict py.floats)},
    checkAll py path data h = .ok entries ↔ dataOf entries = data ∧ ∀ e ∈ entries, e.1 ≠ "" ∧
    Passes py (placeOf path e.1) e.2.fields
  | [], h, entries => by
      rw [checkAll, Except.ok.injEq]
      constructor
      · rintro rfl
        exact ⟨rfl, by simp⟩
      · rintro ⟨hdata, -⟩
        exact (List.map_eq_nil_iff.mp hdata).symm
  | (name, v) :: data, h, entries => by
      rw [checkAll, Except.bind_unit_eq_ok, require_eq_ok, decide_eq_true_eq]
      simp only [Except.bind_eq_ok, checkEntry_eq_ok, checkAll_eq_ok]
      constructor
      · rintro ⟨hname, d, ⟨rfl, hpasses⟩, rest, ⟨rfl, hrest⟩, heq⟩
        obtain rfl := Except.ok.inj heq
        exact ⟨rfl, List.forall_mem_cons.mpr ⟨⟨hname, hpasses⟩, hrest⟩⟩
      · rintro ⟨hdata, hall⟩
        cases entries with
        | nil => cases hdata
        | cons e entries =>
            obtain ⟨he, rfl⟩ := List.cons.inj hdata
            obtain ⟨rfl, rfl⟩ := Prod.mk.inj he
            obtain ⟨⟨hname, hpasses⟩, hrest⟩ := List.forall_mem_cons.mp hall
            exact ⟨hname, e.2, ⟨rfl, hpasses⟩, entries, ⟨rfl, hrest⟩, rfl⟩

/-- An error is one entry's. -/
theorem of_checkAll_eq_error {e : String} :
    ∀ {entries : List (String × Dict py.floats)} {h : HeldFields py.floats (dataOf entries)},
    checkAll py path (dataOf entries) h = .error e → ∃ x ∈ entries, x.1 = "" ∨
    checkFields py (placeOf path x.1) x.2.fields = .error e
  | [], h => fun herror => by cases herror
  | x :: entries, h => fun herror => by
      change (do
        require (x.1 ≠ "") (path ++ ": empty pool name")
        let entry ← checkEntry py path x.1 (obj x.2.fields) h.1
        let entries ← checkAll py path (dataOf entries) h.2
        return (x.1, entry) :: entries) = _ at herror
      by_cases hname : x.1 = ""
      · exact ⟨x, List.mem_cons_self, .inl hname⟩
      · rw [require_eq_ok.mpr (decide_eq_true hname)] at herror
        cases hcheck : checkFields py (placeOf path x.1) x.2.fields with
        | error e' =>
            refine ⟨x, List.mem_cons_self, .inr (hcheck.trans ?_)⟩
            have hentry : checkEntry py path x.1 (obj x.2.fields) h.1 = .error e' := by
              rw [checkEntry]
              exact congrArg (· >>= _) hcheck
            rw [hentry] at herror
            exact congrArg _ (Except.error.inj herror)
        | ok u =>
            have hentry : checkEntry py path x.1 (obj x.2.fields) h.1 = .ok x.2 :=
              checkEntry_eq_ok.mpr ⟨rfl, checkFields_eq_ok.mp hcheck⟩
            rw [hentry] at herror
            cases hrest : checkAll py path (dataOf entries) h.2 with
            | error e' =>
                rw [hrest] at herror
                obtain ⟨y, hy, hwhy⟩ := of_checkAll_eq_error hrest
                refine ⟨y, List.mem_cons_of_mem _ hy, hwhy.imp id fun hfails => hfails.trans ?_⟩
                exact congrArg _ (Except.error.inj herror)
            | ok rest =>
                rw [hrest] at herror
                cases herror

theorem parse_pretty {data : List (String × Json)} (h : Held py.floats (obj data)) :
    parse py path (String.ofList (pretty 0 (obj data) ++ ['\n'])) = checkAll py path data h.1 := by
  have hread := held_pretty h
  rw [← String.toList_ofList (l := pretty 0 (obj data) ++ ['\n'])] at hread
  unfold parse
  split
  · rename_i data' heq
    rw [hread, Option.some.injEq, obj.injEq] at heq
    subst heq
    rfl
  · rename_i v hnot heq
    rw [hread, Option.some.injEq] at heq
    exact absurd heq.symm (hnot data)
  · rename_i heq
    rw [hread] at heq
    cases heq

/-- A parsed registry has distinct names and entries that pass. -/
theorem of_parse {text : String} {entries : List (String × Dict py.floats)}
    (h : parse py path text = .ok entries) :
    (entries.map Prod.fst).Nodup ∧ ∀ e ∈ entries, e.1 ≠ "" ∧
    Passes py (placeOf path e.1) e.2.fields := by
  unfold parse at h
  split at h
  · rename_i data heq
    obtain ⟨rfl, hall⟩ := checkAll_eq_ok.mp h
    have hnodup := (held_of_read heq).2
    rw [dataOf, List.map_map] at hnodup
    exact ⟨hnodup, hall⟩
  · cases h
  · cases h

end Parsed

/-! ### Saving -/

section Saved

variable {path name : String} {drives : List (String × DriveInfo py)}

/-- The entries of the drives in the order of their names. -/
def entriesOf (drives : List (String × DriveInfo py)) : List (String × Dict py.floats) :=
  (drives.insertionSort fun a b => a.1 ≤ b.1).map fun d => (d.1, writtenDict d.2)

/-- The text the drives are saved as. -/
def textOf (drives : List (String × DriveInfo py)) : String :=
  String.ofList (pretty 0 (obj (dataOf (entriesOf drives))) ++ ['\n'])

theorem mem_entriesOf {e : String × Dict py.floats} :
    e ∈ entriesOf drives ↔ ∃ d ∈ drives, e = (d.1, writtenDict d.2) := by
  simp only [entriesOf, List.mem_map, List.mem_insertionSort, eq_comm]

theorem entriesOf_names (hnames : (drives.map Prod.fst).Nodup) :
    ((entriesOf drives).map Prod.fst).Nodup := by
  have hperm : ((entriesOf drives).map Prod.fst).Perm (drives.map Prod.fst) := by
    rw [entriesOf, List.map_map]
    exact (List.perm_insertionSort _ drives).map Prod.fst
  exact hperm.nodup_iff.mpr hnames

theorem sortFields_drives (drives : List (String × DriveInfo py)) :
    sortFields ((drives.map fun d => (d.1, entryOf d.2)).map fun e => (e.1, obj (full e.2)))
      = dataOf (entriesOf drives) := by
  rw [dataOf, entriesOf, List.map_map, List.map_map, sortFields]
  exact (List.map_insertionSort _ _ (fun d : String × DriveInfo py => (d.1, obj (written d.2)))
    drives fun _ _ _ _ => Iff.rfl).symm

theorem sortFields_sorted (fields : List (String × Json)) :
    sortFields (sortFields fields) = sortFields fields := by
  have : Std.Total fun a b : String × Json => a.1 ≤ b.1 := ⟨fun a b => le_total a.1 b.1⟩
  have : IsTrans (String × Json) fun a b => a.1 ≤ b.1 := ⟨fun _ _ _ => le_trans⟩
  exact (List.pairwise_insertionSort _ fields).insertionSort_eq

theorem held_entriesOf (hnames : (drives.map Prod.fst).Nodup) :
    Held py.floats (obj (dataOf (entriesOf drives))) := by
  constructor
  · rw [heldFields_iff]
    intro f hf
    obtain ⟨e, -, rfl⟩ := List.mem_map.mp hf
    exact e.2.held
  · rw [dataOf, List.map_map]
    exact entriesOf_names hnames

/-- Saving checks the entries as they are written. -/
theorem serialize_drives (hnames : (drives.map Prod.fst).Nodup) :
    serialize py path (drives.map fun d => (d.1, entryOf d.2)) =
    (checkAll py path (dataOf (entriesOf drives)) (held_entriesOf hnames).1).map fun _ =>
      textOf drives := by
  simp only [serialize]
  rw [sortFields_drives, parse_pretty (held_entriesOf hnames)]
  rfl

theorem saved_of_passes (hnames : (drives.map Prod.fst).Nodup)
    (hpasses : ∀ d ∈ drives, d.1 ≠ "" ∧ Passes py (placeOf path d.1) (written d.2)) :
    serialize py path (drives.map fun d => (d.1, entryOf d.2)) = .ok (textOf drives) ∧
    parse py path (textOf drives) = .ok (entriesOf drives) := by
  have hall : checkAll py path (dataOf (entriesOf drives)) (held_entriesOf hnames).1
      = .ok (entriesOf drives) := by
    refine checkAll_eq_ok.mpr ⟨rfl, fun e he => ?_⟩
    obtain ⟨d, hd, rfl⟩ := mem_entriesOf.mp he
    exact hpasses d hd
  constructor
  · rw [serialize_drives hnames, hall]
    rfl
  · rw [textOf, parse_pretty (held_entriesOf hnames), hall]

/-- Saving fails for an entry that does not pass. -/
theorem of_serialize_eq_error {e : String} (hnames : (drives.map Prod.fst).Nodup)
    (herror : serialize py path (drives.map fun d => (d.1, entryOf d.2)) = .error e) :
    ∃ d ∈ drives, d.1 = "" ∨ checkFields py (placeOf path d.1) (written d.2) = .error e := by
  rw [serialize_drives hnames] at herror
  cases hcheck : checkAll py path (dataOf (entriesOf drives)) (held_entriesOf hnames).1 with
  | ok entries =>
      rw [hcheck] at herror
      cases herror
  | error e' =>
      rw [hcheck] at herror
      obtain rfl : e' = e := Except.error.inj herror
      obtain ⟨x, hx, hwhy⟩ := of_checkAll_eq_error hcheck
      obtain ⟨d, hd, rfl⟩ := mem_entriesOf.mp hx
      exact ⟨d, hd, hwhy⟩

/-- What was saved is saved again as the same text. -/
theorem saved_again (hnames : (drives.map Prod.fst).Nodup)
    (hpasses : ∀ d ∈ drives, d.1 ≠ "" ∧ Passes py (placeOf path d.1) (written d.2)) :
    serialize py path ((entriesOf drives).map fun e => (e.1, e.2.fields)) = .ok (textOf drives) ∧
      serialize py path (((entriesOf drives).map fun e => (e.1, infoOf e.2)).map fun d =>
        (d.1, entryOf d.2)) = .ok (textOf drives) := by
  have hwritten : ∀ e ∈ entriesOf drives, full e.2.fields = e.2.fields ∧
      full (entryOf (infoOf e.2)) = e.2.fields := by
    intro e he
    obtain ⟨d, hd, rfl⟩ := mem_entriesOf.mp he
    obtain ⟨hagain, hfull⟩ := written_again (hpasses d hd).2
    exact ⟨hfull, hagain⟩
  have hsorted : sortFields (dataOf (entriesOf drives)) = dataOf (entriesOf drives) := by
    rw [← sortFields_drives]
    exact sortFields_sorted _
  have hparse := (saved_of_passes hnames hpasses).2
  have hserialize : ∀ entries : List (String × List (String × Json)),
      (entries.map fun e => (e.1, obj (full e.2))) = dataOf (entriesOf drives) →
      serialize py path entries = .ok (textOf drives) := by
    intro entries heq
    simp only [serialize]
    rw [heq, hsorted]
    change (parse py path (textOf drives)).map _ = _
    rw [hparse]
    rfl
  constructor
  · refine hserialize _ ?_
    rw [List.map_map]
    exact List.map_congr_left fun e he =>
      congrArg (fun fields => (e.1, obj fields)) (hwritten e he).1
  · refine hserialize _ ?_
    rw [List.map_map, List.map_map]
    exact List.map_congr_left fun e he =>
      congrArg (fun fields => (e.1, obj fields)) (hwritten e he).2

end Saved

/-! ### A change of one drive -/

section Changed

variable {path name : String} {new : DriveInfo py} {file : Option String}

theorem drive?_eq_some_iff {c : Config py} (hnames : (c.knownDrives.map Prod.fst).Nodup)
    {info : DriveInfo py} :
    c.drive? name = some info ↔ (name, info) ∈ c.knownDrives := by
  rw [Config.drive?, Option.map_eq_some_iff]
  constructor
  · rintro ⟨d, hd, rfl⟩
    have hkey : d.1 = name := by simpa using List.find?_some hd
    rw [← hkey]
    exact List.mem_of_find?_eq_some hd
  · intro hmem
    refine ⟨(name, info), ?_, rfl⟩
    obtain ⟨d, hd⟩ :=
      Option.isSome_iff_exists.mp (List.find?_isSome.mpr ⟨_, hmem, decide_eq_true rfl⟩ :
        (c.knownDrives.find? (·.1 = name)).isSome = true)
    have hkey : d.1 = name := by simpa using List.find?_some hd
    rw [hd, List.inj_on_of_nodup_map hnames (List.mem_of_find?_eq_some hd) hmem hkey]

theorem load_of_ok {old : List (String × Dict py.floats)}
    (h : Registry.load py path file = .ok old) :
    Config.load py path file = ⟨old.map fun e => (e.1, infoOf e.2), none⟩ := by
  rw [Config.load, h]

theorem of_load {old : List (String × Dict py.floats)} (h : Registry.load py path file = .ok old) :
    (old.map Prod.fst).Nodup ∧ ∀ e ∈ old, e.1 ≠ "" ∧ Passes py (placeOf path e.1) e.2.fields := by
  cases file with
  | none =>
      obtain rfl := Except.ok.inj h
      exact ⟨List.nodup_nil, by simp⟩
  | some text => exact of_parse h

/-- The drives with one of them changed. -/
def changed (name : String) (new : DriveInfo py) (old : List (String × Dict py.floats)) :
    List (String × DriveInfo py) :=
  old.map fun e => if e.1 = name then (name, new) else (e.1, infoOf e.2)

theorem changed_names (name : String) (new : DriveInfo py) (old : List (String × Dict py.floats)) :
    (changed name new old).map Prod.fst = old.map Prod.fst := by
  rw [changed, List.map_map]
  refine List.map_congr_left fun e _ => ?_
  rw [Function.comp_apply]
  split
  · rename_i heq
    exact heq.symm
  · rfl

theorem change_load {old : List (String × Dict py.floats)}
    (h : Registry.load py path file = .ok old) :
    (Config.load py path file).change name new = ⟨changed name new old, none⟩ := by
  rw [load_of_ok h, Config.change, List.map_map]
  rfl

theorem mem_changed {old : List (String × Dict py.floats)} {d : String × DriveInfo py}
    (hd : d ∈ changed name new old) :
    d = (name, new) ∨ ∃ e ∈ old, d = (e.1, infoOf e.2) := by
  obtain ⟨e, he, rfl⟩ := List.mem_map.mp hd
  split
  · exact .inl rfl
  · exact .inr ⟨e, he, rfl⟩

/-- A change of one drive keeps the others, and fails only for its own entry. -/
theorem registry_keeps (hload : (Config.load py path file).loadError = none)
    (hname : name ∈ (Config.load py path file).knownDrives.map Prod.fst) :
    (∀ e, ((Config.load py path file).change name new).saveDrives path = .error e →
      checkFields py (placeOf path name) (full (entryOf new)) = .error e) ∧
    (checkFields py (placeOf path name) (full (entryOf new)) = .ok () → ∃ text data,
      ((Config.load py path file).change name new).saveDrives path = .ok text ∧
      parse py path text = .ok data ∧
        (∀ old, Registry.load py path file = .ok old → ∀ e ∈ old, e.1 ≠ name →
          ∃ d, (e.1, d) ∈ data ∧ Same e.2 d) ∧
        (∀ other, other ≠ name → (Config.load py path (some text)).drive? other
          = (Config.load py path file).drive? other) ∧
        serialize py path (data.map fun e => (e.1, e.2.fields)) = .ok text ∧
        (Config.load py path (some text)).saveDrives path = .ok text) := by
  cases hold : Registry.load py path file with
  | error e =>
      rw [Config.load, hold] at hload
      cases hload
  | ok old =>
      obtain ⟨hnames, hpasses⟩ := of_load hold
      have hchanged : ((changed name new old).map Prod.fst).Nodup :=
        (changed_names name new old).symm ▸ hnames
      have hne : name ≠ "" := by
        rw [load_of_ok hold, List.map_map] at hname
        obtain ⟨e, he, rfl⟩ := List.mem_map.mp hname
        exact (hpasses e he).1
      rw [change_load hold]
      constructor
      · intro e herror
        obtain ⟨d, hd, hwhy⟩ := of_serialize_eq_error hchanged herror
        obtain rfl | ⟨e', he', rfl⟩ := mem_changed hd
        · exact hwhy.resolve_left hne
        · obtain hempty | hfails := hwhy
          · exact absurd hempty (hpasses e' he').1
          · rw [checkFields_eq_ok.mpr (passes_written (hpasses e' he').2)] at hfails
            cases hfails
      · intro hvalid
        have hall : ∀ d ∈ changed name new old, d.1 ≠ "" ∧
            Passes py (placeOf path d.1) (written d.2) := by
          intro d hd
          obtain rfl | ⟨e, he, rfl⟩ := mem_changed hd
          · exact ⟨hne, checkFields_eq_ok.mp hvalid⟩
          · exact ⟨(hpasses e he).1, passes_written (hpasses e he).2⟩
        obtain ⟨hsaved, hparsed⟩ := saved_of_passes hchanged hall
        obtain ⟨hagain, hagain'⟩ := saved_again hchanged hall
        have hreload : Config.load py path (some (textOf (changed name new old))) = _ :=
          load_of_ok hparsed
        refine ⟨textOf (changed name new old), entriesOf (changed name new old), hsaved, hparsed,
          ?_, ?_, hagain, ?_⟩
        · rintro old' ⟨⟩ e he hother
          refine ⟨writtenDict (infoOf e.2), mem_entriesOf.mpr ⟨(e.1, infoOf e.2), ?_, rfl⟩,
            same_written (hpasses e he).2⟩
          exact List.mem_map.mpr ⟨e, he, if_neg hother⟩
        · intro other hother
          rw [hreload, load_of_ok hold]
          refine Option.ext fun info => ?_
          rw [drive?_eq_some_iff (by rw [List.map_map]; exact entriesOf_names hchanged),
            drive?_eq_some_iff (by rw [List.map_map]; exact hnames)]
          constructor
          · intro hmem
            obtain ⟨x, hx, heq⟩ := List.mem_map.mp hmem
            obtain ⟨d, hd, rfl⟩ := mem_entriesOf.mp hx
            obtain ⟨rfl, rfl⟩ := Prod.mk.inj heq
            obtain rfl | ⟨e, he, rfl⟩ := mem_changed hd
            · exact absurd rfl hother
            · exact List.mem_map.mpr ⟨e, he,
                congrArg (e.1, ·) (infoOf_congr (same_written (hpasses e he).2)).symm⟩
          · intro hmem
            obtain ⟨e, he, heq⟩ := List.mem_map.mp hmem
            obtain ⟨rfl, rfl⟩ := Prod.mk.inj heq
            refine List.mem_map.mpr ⟨(e.1, writtenDict (infoOf e.2)),
              mem_entriesOf.mpr ⟨(e.1, infoOf e.2), ?_, rfl⟩,
              congrArg (e.1, ·) (infoOf_congr (same_written (hpasses e he).2))⟩
            exact List.mem_map.mpr ⟨e, he, if_neg hother⟩
        · rw [hreload]
          exact hagain'

/-- ASCII digits, and no floats but the one that is no number. -/
theorem oneDot_nan : "NaN".toList.count '.' ≤ 1 := by decide

def asciiPython : Python where
  floats := {
    repr _ := ⟨"NaN".toList, oneDot_nan⟩
    reads _ :=
      ⟨⟨'N', "aN".toList, rfl, .inl (by decide)⟩, fun rest _ => by simp [readName, readWord]⟩
    repr_repr _ := rfl }
  isDigit := Char.isDigit

/-- A drive with a policy of its own, shared snapshots and keys of a later version, one a float. -/
def driveOf (guid driveId : String) (lastBackupAt : Option String) : DriveInfo asciiPython where
  guid := guid
  driveId := driveId
  lastBackupAt := lastBackupAt
  autoeject := true
  enclosureId := "usb-JMicron_0123-0:0"
  extra :=
    ⟨[("retention", obj [("window_days", num 30), ("max_age_days", num 365)]),
        ("prepared_at", str "2026-01-02T03:04:05Z"),
        ("shared",
          obj [("rpool/data", arr [arr [str "autosnap_2026-03-01_monthly", str "77",
            num 1772330400]])]), ("speed", real ⟨"NaN".toList, oneDot_nan⟩), ("note", null)],
      by simp [HeldFields, Held, HeldItems, asciiPython], by decide⟩

def twoDrives : List (String × DriveInfo asciiPython) :=
  [("blue", driveOf "12" "ata-a" (some "2026-03-01T02:00:00Z")),
    ("black", driveOf "34" "usb-b" none)]

theorem registry_keeps_two :
    let file := some (textOf twoDrives)
    ∃ text data, ((Config.load asciiPython "r" file).change "blue"
      (driveOf "12" "ata-c" none)).saveDrives "r" = .ok text ∧
      parse asciiPython "r" text = .ok data ∧
      (∀ old, Registry.load asciiPython "r" file = .ok old → ∀ e ∈ old, e.1 ≠ "blue" →
        ∃ d, (e.1, d) ∈ data ∧ Same e.2 d) ∧
      (Config.load asciiPython "r" (some text)).drive? "black"
          = (Config.load asciiPython "r" file).drive? "black" := by
  have hall : ∀ d ∈ twoDrives, d.1 ≠ "" ∧ Passes asciiPython (placeOf "r" d.1) (written d.2) := by
    simp only [twoDrives, List.forall_mem_cons]
    exact ⟨⟨by decide, checkFields_eq_ok.mp rfl⟩, ⟨by decide, checkFields_eq_ok.mp rfl⟩, by simp⟩
  have hparsed : parse asciiPython "r" (textOf twoDrives) = .ok (entriesOf twoDrives) :=
    (saved_of_passes (by decide) hall).2
  have hload : Config.load asciiPython "r" (some (textOf twoDrives)) = _ := load_of_ok hparsed
  have hname : "blue" ∈ (Config.load asciiPython "r" (some (textOf twoDrives))).knownDrives.map
      Prod.fst := by
    rw [hload, List.map_map]
    exact List.mem_map.mpr
      ⟨("blue", writtenDict (driveOf "12" "ata-a" (some "2026-03-01T02:00:00Z"))),
        mem_entriesOf.mpr ⟨_, List.mem_cons_self, rfl⟩, rfl⟩
  obtain ⟨text, data, hsaved, hread, hsame, hothers, -⟩ :=
    (@registry_keeps asciiPython "r" "blue" (driveOf "12" "ata-c" none) (some (textOf twoDrives))
      (by rw [hload]) hname).2 rfl
  exact ⟨text, data, hsaved, hread, hsame, hothers "black" (by decide)⟩

end Changed

end Zark.Registry
