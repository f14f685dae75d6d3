import Zark.Replication

/-!
# Commands on origin

The two sides of a run and the zfs commands it gives on origin. Each command takes effect or fails
without effect, each strict read succeeds or raises: `faults` says which of them, in the order they
are made, fail for reasons of their own. A snapshot's user property goes with its guid, so that a
rename keeps it.
-/

namespace Zark

/-! ### Commands -/

/-- `zfs bookmark`, `zfs rename` of a snapshot, and `zfs destroy` of a snapshot or a bookmark. -/
inductive Cmd where
  | bookmark (rel : Rel) (snap name : String)
  | rename (rel : Rel) (old new : String)
  | destroySnap (rel : Rel) (name : String)
  | destroyBookmark (rel : Rel) (name : String)
  deriving DecidableEq, Repr

namespace Cmd

def rel : Cmd → Rel
  | .bookmark rel _ _ | .rename rel _ _ | .destroySnap rel _ | .destroyBookmark rel _ => rel

/-- The snapshot the command takes away under its name. -/
def snapTaken : Cmd → Option String
  | .rename _ old _ => some old
  | .destroySnap _ name => some name
  | _ => none

def bookmarkTaken : Cmd → Option String
  | .destroyBookmark _ name => some name
  | _ => none

/-- A dataset's snapshots and bookmarks after the command, when it can be done. -/
def onDataset (o : Origin) : Cmd → Option Origin
  | .bookmark _ snap name => (o.snaps.get? snap).bind fun s =>
      (o.bookmarks.push? { s with name }).map fun bookmarks => { o with bookmarks }
  | .rename _ old new =>
      if old ∈ o.snaps.keys then
        (Keyed.ofList? Ref.name (o.snaps.items.map fun s =>
          if s.name = old then { s with name := new } else s)).map
          fun snaps => { o with snaps }
      else none
  | .destroySnap _ name =>
      if name ∈ o.snaps.keys then
        some { o with snaps := o.snaps.filter fun s => decide (s.name ≠ name) }
      else none
  | .destroyBookmark _ name =>
      if name ∈ o.bookmarks.keys then
        some { o with bookmarks := o.bookmarks.filter fun b => decide (b.name ≠ name) }
      else none

def apply (origin : Origins) (c : Cmd) : Option Origins :=
  (origin.get? c.rel).bind fun o => (c.onDataset o).map origin.set

end Cmd

/-! ### Faults -/

/-- Origin, the drive, the drive each snapshot of origin names (`org.zark:point-for`, by dataset and
guid), and which commands and reads fail. -/
structure World where
  origin : Origins
  drive : Drive
  owner : Rel → String → String
  faults : List Bool

namespace World

/-- A strict read: whether it succeeds. -/
def read (w : World) : Bool × World :=
  (!(w.faults.head?.getD false), { w with faults := w.faults.tail })

/-- A command: whether it succeeds, and what it leaves. -/
def command (w : World) (c : Cmd) : Bool × World :=
  if w.faults.head?.getD false then (false, { w with faults := w.faults.tail })
  else
    match c.apply w.origin with
    | some origin => (true, { w with origin, faults := w.faults.tail })
    | none => (false, { w with faults := w.faults.tail })

@[simp] theorem read_origin (w : World) : w.read.2.origin = w.origin := rfl

@[simp] theorem read_drive (w : World) : w.read.2.drive = w.drive := rfl

@[simp] theorem read_owner (w : World) : w.read.2.owner = w.owner := rfl

/-- A command changes nothing but origin. -/
theorem command_frame (w : World) (c : Cmd) :
    (w.command c).2.drive = w.drive ∧ (w.command c).2.owner = w.owner := by
  unfold command
  split
  · exact ⟨rfl, rfl⟩
  · split <;> exact ⟨rfl, rfl⟩

@[simp] theorem command_drive (w : World) (c : Cmd) : (w.command c).2.drive = w.drive :=
  (w.command_frame c).1

@[simp] theorem command_owner (w : World) (c : Cmd) : (w.command c).2.owner = w.owner :=
  (w.command_frame c).2

/-- A command that succeeds was done; one that fails left origin as it was. -/
theorem command_cases (w : World) (c : Cmd) :
    (w.command c).1 = true ∧ c.apply w.origin = some (w.command c).2.origin ∨
      (w.command c).1 = false ∧ (w.command c).2.origin = w.origin := by
  unfold command
  split
  · exact .inr ⟨rfl, rfl⟩
  · split
    · rename_i h
      exact .inl ⟨rfl, h⟩
    · exact .inr ⟨rfl, rfl⟩

/-- Whether the next reads and commands all succeed. -/
def Sound (w : World) : Prop := ∀ fault ∈ w.faults, fault = false

theorem sound_tail {w : World} (h : w.Sound) : ∀ fault ∈ w.faults.tail, fault = false :=
  fun fault hfault => h fault (List.mem_of_mem_tail hfault)

theorem read_of_sound {w : World} (h : w.Sound) : w.read.1 = true ∧ w.read.2.Sound := by
  refine ⟨?_, sound_tail h⟩
  unfold read
  cases hfaults : w.faults with
  | nil => rfl
  | cons fault rest => simp [h fault (by simp [hfaults])]

theorem command_of_sound {w : World} {c : Cmd} {origin : Origins} (h : w.Sound)
    (hc : c.apply w.origin = some origin) :
    w.command c = (true, { w with origin, faults := w.faults.tail }) := by
  unfold command
  rw [if_neg, hc]
  cases hfaults : w.faults with
  | nil => simp
  | cons fault rest => simp [h fault (by simp [hfaults])]

end World

/-! ### What a command leaves -/

/-- The snapshots and bookmarks of a dataset of origin. -/
def snapsOf (origin : Origins) (rel : Rel) : List Ref :=
  ((origin.get? rel).map fun o => o.snaps.items).getD []

def bookmarksOf (origin : Origins) (rel : Rel) : List Ref :=
  ((origin.get? rel).map fun o => o.bookmarks.items).getD []

theorem snapsOf_of_get? {origin : Origins} {rel : Rel} {o : Origin} (h : origin.get? rel = some o) :
    snapsOf origin rel = o.snaps.items := by
  rw [snapsOf, h]
  rfl

theorem bookmarksOf_of_get? {origin : Origins} {rel : Rel} {o : Origin}
    (h : origin.get? rel = some o) :
    bookmarksOf origin rel = o.bookmarks.items := by
  rw [bookmarksOf, h]
  rfl

theorem mem_snapsOf {origin : Origins} {rel : Rel} {s : Ref} :
    s ∈ snapsOf origin rel ↔ ∃ o, origin.get? rel = some o ∧ s ∈ o.snaps := by
  cases ho : origin.get? rel with
  | none => simp [snapsOf, ho]
  | some o =>
      rw [snapsOf_of_get? ho]
      constructor
      · intro hs
        exact ⟨o, rfl, hs⟩
      · rintro ⟨o', ho', hs⟩
        exact Option.some.inj ho' ▸ hs

theorem mem_bookmarksOf {origin : Origins} {rel : Rel} {b : Ref} :
    b ∈ bookmarksOf origin rel ↔ ∃ o, origin.get? rel = some o ∧ b ∈ o.bookmarks := by
  cases ho : origin.get? rel with
  | none => simp [bookmarksOf, ho]
  | some o =>
      rw [bookmarksOf_of_get? ho]
      constructor
      · intro hb
        exact ⟨o, rfl, hb⟩
      · rintro ⟨o', ho', hb⟩
        exact Option.some.inj ho' ▸ hb

/-- What holds of every dataset's snapshots holds whatever dataset is asked for, if it holds of
none. -/
theorem forall_snapsOf {P : List Ref → Prop} {origin : Origins} (hnil : P []) :
    (∀ o ∈ origin, P o.snaps.items) ↔ ∀ rel, P (snapsOf origin rel) := by
  constructor
  · intro h rel
    cases hget : origin.get? rel with
    | none => rwa [snapsOf, hget]
    | some o => exact snapsOf_of_get? hget ▸ h o (Keyed.mem_of_get? hget)
  · intro h o ho
    have hrel := h o.rel
    rwa [snapsOf_of_get? (Keyed.get?_of_mem ho)] at hrel

theorem nodup_snapsOf (origin : Origins) (rel : Rel) : ((snapsOf origin rel).map Ref.name).Nodup :=
  (forall_snapsOf (P := fun l => (l.map Ref.name).Nodup) List.nodup_nil).mp
    (fun o _ => o.snaps.nodup) rel

namespace Cmd

variable {origin after : Origins} {c : Cmd}

/-- What each command does to its dataset, and when it can. -/
inductive Effect (o : Origin) : Cmd → Origin → Prop
  | bookmark {rel : Rel} {snap name : String} {s : Ref} {bookmarks : Keyed Ref.name}
    (hsnap : o.snaps.get? snap = some s)
      (hpush : o.bookmarks.push? { s with name } = some bookmarks) :
      Effect o (.bookmark rel snap name) { o with bookmarks }
  | rename {rel : Rel} {old new : String} {snaps : Keyed Ref.name} (hold : old ∈ o.snaps.keys)
      (hitems : snaps.items = o.snaps.items.map fun s =>
        if s.name = old then { s with name := new } else s) :
      Effect o (.rename rel old new) { o with snaps }
  | destroySnap {rel : Rel} {name : String} (hname : name ∈ o.snaps.keys) :
      Effect o
        (.destroySnap rel name) { o with snaps := o.snaps.filter fun s => decide (s.name ≠ name) }
  | destroyBookmark {rel : Rel} {name : String} (hname : name ∈ o.bookmarks.keys) :
      Effect o (.destroyBookmark rel name)
        { o with bookmarks := o.bookmarks.filter fun b => decide (b.name ≠ name) }

theorem effect_of_onDataset {o o' : Origin} (h : c.onDataset o = some o') : Effect o c o' := by
  cases c with
  | bookmark rel snap name =>
      obtain ⟨s, hsnap, h⟩ := Option.bind_eq_some_iff.mp h
      obtain ⟨bookmarks, hpush, rfl⟩ := Option.map_eq_some_iff.mp h
      exact .bookmark hsnap hpush
  | rename rel old new =>
      simp only [onDataset] at h
      split at h
      · rename_i hold
        obtain ⟨snaps, hsnaps, rfl⟩ := Option.map_eq_some_iff.mp h
        exact .rename hold (Keyed.ofList?_eq_some_iff.mp hsnaps)
      · cases h
  | destroySnap rel name =>
      simp only [onDataset] at h
      split at h <;> cases h
      rename_i hname
      exact .destroySnap hname
  | destroyBookmark rel name =>
      simp only [onDataset] at h
      split at h <;> cases h
      rename_i hname
      exact .destroyBookmark hname

theorem Effect.rel_eq {o o' : Origin} (h : Effect o c o') : o'.rel = o.rel ∧ o'.kind = o.kind := by
  cases h <;> exact ⟨rfl, rfl⟩

/-- A command changes the one dataset it names. -/
theorem apply_spec (h : c.apply origin = some after) :
    ∃ o o', origin.get? c.rel = some o ∧ Effect o c o' ∧ after.get? c.rel = some o' ∧
      ∀ rel, rel ≠ c.rel → after.get? rel = origin.get? rel := by
  obtain ⟨o, ho, h⟩ := Option.bind_eq_some_iff.mp h
  obtain ⟨o', ho', rfl⟩ := Option.map_eq_some_iff.mp h
  have heffect := effect_of_onDataset ho'
  have hrel : o'.rel = c.rel := heffect.rel_eq.1.trans (Keyed.key_of_get? ho)
  refine ⟨o, o', ho, heffect, ?_, fun rel hne => Keyed.get?_set_of_ne (hrel ▸ hne)⟩
  exact Keyed.get?_set_of_get? ho hrel

/-- A snapshot the command does not take away stays. -/
theorem mem_snapsOf_apply (h : c.apply origin = some after) {rel : Rel} {s : Ref}
    (hs : s ∈ snapsOf origin rel) (hkeep : c.rel = rel → c.snapTaken ≠ some s.name) :
    s ∈ snapsOf after rel := by
  obtain ⟨o, o', ho, ho', hafter, hother⟩ := apply_spec h
  by_cases hrel : c.rel = rel
  · subst hrel
    have hkeep := hkeep rfl
    rw [snapsOf, ho] at hs
    rw [snapsOf, hafter]
    change s ∈ o.snaps at hs
    change s ∈ o'.snaps
    cases ho' with
    | bookmark hsnap hpush => exact hs
    | @rename rel old new snaps hold hitems =>
        show s ∈ snaps
        rw [Keyed.mem_def, hitems]
        exact List.mem_map.mpr ⟨s, hs, if_neg fun heq => hkeep (congrArg some heq.symm)⟩
    | destroySnap hname =>
        exact Keyed.mem_filter.mpr ⟨hs, by simpa using fun heq => hkeep (congrArg some heq.symm)⟩
    | destroyBookmark hname => exact hs
  · rwa [snapsOf, hother rel (Ne.symm hrel)]

/-- So does a bookmark. -/
theorem mem_bookmarksOf_apply (h : c.apply origin = some after) {rel : Rel} {b : Ref}
    (hb : b ∈ bookmarksOf origin rel) (hkeep : c.rel = rel → c.bookmarkTaken ≠ some b.name) :
    b ∈ bookmarksOf after rel := by
  obtain ⟨o, o', ho, ho', hafter, hother⟩ := apply_spec h
  by_cases hrel : c.rel = rel
  · subst hrel
    have hkeep := hkeep rfl
    rw [bookmarksOf, ho] at hb
    rw [bookmarksOf, hafter]
    change b ∈ o.bookmarks at hb
    change b ∈ o'.bookmarks
    cases ho' with
    | bookmark hsnap hpush => exact (Keyed.mem_push? hpush).mpr (.inl hb)
    | rename hold hitems => exact hb
    | destroySnap hname => exact hb
    | destroyBookmark hname =>
        exact Keyed.mem_filter.mpr ⟨hb, by simpa using fun heq => hkeep (congrArg some heq.symm)⟩
  · rwa [bookmarksOf, hother rel (Ne.symm hrel)]

end Cmd

/-- A command that fails or names another dataset leaves a dataset as it is. -/
theorem World.command_get?_of_ne (w : World) {c : Cmd} {rel : Rel} (h : rel ≠ c.rel) :
    (w.command c).2.origin.get? rel = w.origin.get? rel := by
  rcases w.command_cases c with ⟨-, happly⟩ | ⟨-, horigin⟩
  · obtain ⟨o, o', -, -, -, hother⟩ := Cmd.apply_spec happly
    exact hother rel h
  · rw [horigin]

/-- A bookmark under a free name, of a snapshot that is there, is made. -/
theorem World.command_bookmark_of_sound {w : World} {rel : Rel} {o : Origin} {s : Ref}
    {name : String} (hw : w.Sound) (ho : w.origin.get? rel = some o) (hs : s ∈ o.snaps)
    (hname : name ∉ o.bookmarks.keys) :
    (w.command (.bookmark rel s.name name)).1 = true ∧
      (w.command (.bookmark rel s.name name)).2.Sound ∧
      bookmarksOf (w.command (.bookmark rel s.name name)).2.origin rel =
        o.bookmarks.items ++ [{ s with name }] := by
  have hpush : (o.bookmarks.push? { s with name }).isSome := Keyed.push?_isSome_iff.mpr hname
  obtain ⟨bookmarks, hpush⟩ := Option.isSome_iff_exists.mp hpush
  have happly : (Cmd.bookmark rel s.name name).apply w.origin =
      some (w.origin.set { o with bookmarks }) := by
    rw [Cmd.apply, Cmd.rel, ho, Option.bind_some, Cmd.onDataset, Keyed.get?_of_mem hs,
      Option.bind_some, hpush]
    rfl
  have hrel : o.rel = rel := Keyed.key_of_get? ho
  have hset : (w.origin.set { o with bookmarks }).get? rel = some { o with bookmarks } :=
    Keyed.get?_set_of_get? ho hrel
  rw [command_of_sound hw happly]
  refine ⟨rfl, sound_tail hw, ?_⟩
  simp only [bookmarksOf, hset, Option.map_some, Option.getD_some]
  exact Keyed.push?_items hpush

/-! ### Sequences of commands -/

namespace Cmd

variable {origin after : Origins} {c : Cmd}

/-- A snapshot is where it was, or the command gave it the name it has now. -/
theorem of_mem_snapsOf_apply (h : c.apply origin = some after) {rel : Rel} {s : Ref}
    (hs : s ∈ snapsOf after rel) :
    s ∈ snapsOf origin rel ∨
      ∃ x ∈ snapsOf origin rel, c = .rename rel x.name s.name ∧ s = { x with name := s.name } := by
  obtain ⟨o, o', ho, ho', hafter, hother⟩ := apply_spec h
  by_cases hrel : c.rel = rel
  · subst hrel
    rw [snapsOf, hafter] at hs
    rw [snapsOf, ho]
    change s ∈ o'.snaps at hs
    change s ∈ o.snaps ∨ ∃ x ∈ o.snaps, _
    cases ho' with
    | bookmark hsnap hpush => exact .inl hs
    | @rename rel old new snaps hold hitems =>
        change s ∈ snaps at hs
        rw [Keyed.mem_def, hitems] at hs
        obtain ⟨x, hx, rfl⟩ := List.mem_map.mp hs
        by_cases hname : x.name = old
        · subst hname
          rw [if_pos rfl]
          exact .inr ⟨x, hx, rfl, rfl⟩
        · rw [if_neg hname]
          exact .inl hx
    | destroySnap hname => exact .inl (Keyed.mem_filter.mp hs).1
    | destroyBookmark hname => exact .inl hs
  · rw [snapsOf, hother rel (Ne.symm hrel)] at hs
    exact .inl hs

/-- A bookmark is where it was, or the command made it of a snapshot. -/
theorem of_mem_bookmarksOf_apply (h : c.apply origin = some after) {rel : Rel} {b : Ref}
    (hb : b ∈ bookmarksOf after rel) :
    b ∈ bookmarksOf origin rel ∨
      ∃ x ∈ snapsOf origin rel, c = .bookmark rel x.name b.name ∧
      b = { x with name := b.name } := by
  obtain ⟨o, o', ho, ho', hafter, hother⟩ := apply_spec h
  by_cases hrel : c.rel = rel
  · subst hrel
    rw [bookmarksOf, hafter] at hb
    rw [bookmarksOf, snapsOf, ho]
    change b ∈ o'.bookmarks at hb
    change b ∈ o.bookmarks ∨ ∃ x ∈ o.snaps, _
    cases ho' with
    | @bookmark rel snap name s bookmarks hsnap hpush =>
        rcases (Keyed.mem_push? hpush).mp hb with hb | rfl
        · exact .inl hb
        · obtain ⟨hmem, rfl⟩ := Keyed.get?_eq_some_iff.mp hsnap
          exact .inr ⟨s, hmem, rfl, rfl⟩
    | rename hold hitems => exact .inl hb
    | destroySnap hname => exact .inl hb
    | destroyBookmark hname => exact .inl (Keyed.mem_filter.mp hb).1
  · rw [bookmarksOf, hother rel (Ne.symm hrel)] at hb
    exact .inl hb

/-- A bookmark changes no snapshots. -/
theorem snapsOf_bookmark {rel : Rel} {snap name : String}
    (h : (Cmd.bookmark rel snap name).apply origin = some after) (r : Rel) :
    snapsOf after r = snapsOf origin r := by
  obtain ⟨o, o', ho, heffect, hafter, hother⟩ := apply_spec h
  by_cases hr : r = rel
  · subst hr
    change origin.get? r = some o at ho
    change after.get? r = some o' at hafter
    rw [snapsOf_of_get? ho, snapsOf_of_get? hafter]
    cases heffect
    rfl
  · rw [snapsOf, hother r hr, snapsOf]

/-- A renamed snapshot is there under its new name. -/
theorem mem_snapsOf_rename {rel : Rel} {old new : String} {s : Ref}
    (h : (Cmd.rename rel old new).apply origin = some after) (hs : s ∈ snapsOf origin rel)
    (hname : s.name = old) : { s with name := new } ∈ snapsOf after rel := by
  obtain ⟨o, o', ho, heffect, hafter, -⟩ := apply_spec h
  change origin.get? rel = some o at ho
  change after.get? rel = some o' at hafter
  rw [snapsOf_of_get? ho] at hs
  rw [snapsOf_of_get? hafter]
  cases heffect with
  | rename hold hitems =>
      rw [hitems]
      exact List.mem_map.mpr ⟨s, hs, if_pos hname⟩

/-- A bookmarked snapshot has the bookmark. -/
theorem mem_bookmarksOf_bookmark {rel : Rel} {name : String} {s : Ref}
    (h : (Cmd.bookmark rel s.name name).apply origin = some after) (hs : s ∈ snapsOf origin rel) :
    { s with name } ∈ bookmarksOf after rel := by
  obtain ⟨o, o', ho, heffect, hafter, -⟩ := apply_spec h
  change origin.get? rel = some o at ho
  change after.get? rel = some o' at hafter
  rw [snapsOf_of_get? ho] at hs
  rw [bookmarksOf_of_get? hafter]
  cases heffect with
  | bookmark hsnap hpush =>
      obtain rfl := Option.some.inj ((Keyed.get?_of_mem hs).symm.trans hsnap)
      exact (Keyed.mem_push? hpush).mpr (.inr rfl)

end Cmd

/-- Snapshots of one dataset with one name are one. -/
theorem eq_of_name {origin : Origins} {rel : Rel} {s t : Ref} (hs : s ∈ snapsOf origin rel)
    (ht : t ∈ snapsOf origin rel) (h : s.name = t.name) : s = t :=
  List.inj_on_of_nodup_map (nodup_snapsOf origin rel) hs ht h

/-- Origin has the guid in the dataset: on a snapshot or, on rpool, on a bookmark. -/
def HasGuid (origin : Origins) (rel : Rel) (guid : String) : Prop :=
  (∃ s ∈ snapsOf origin rel, s.guid = guid) ∨
    isBpool rel = false ∧ ∃ b ∈ bookmarksOf origin rel, b.guid = guid

namespace World

/-- A read, or a command that `may` allows. -/
inductive Step (may : Cmd → Prop) : World → World → Prop
  | read (w : World) : Step may w w.read.2
  | command (w : World) {c : Cmd} (hc : may c) : Step may w (w.command c).2

/-- Reads and allowed commands, one after the other. -/
abbrev Steps (may : Cmd → Prop) : World → World → Prop := Relation.ReflTransGen (Step may)

namespace Steps

variable {may : Cmd → Prop} {w w' : World}

theorem read (w : World) : Steps may w w.read.2 := .single (.read w)

theorem command (w : World) {c : Cmd} (hc : may c) : Steps may w (w.command c).2 :=
  .single (.command w hc)

theorem mono {may' : Cmd → Prop} (h : Steps may w w') (hmay : ∀ c, may c → may' c) :
    Steps may' w w' := by
  induction h with
  | refl => exact .refl
  | @tail mid _ _ hstep ih =>
      cases hstep with
      | read => exact ih.tail (.read mid)
      | command hc => exact ih.tail (.command mid (hmay _ hc))

/-- What each allowed command keeps true of origin holds after all of them. -/
theorem keep {P : Origins → Prop}
    (hP : ∀ {origin after : Origins} {c : Cmd}, may c → c.apply origin = some after →
      P origin → P after)
    (h : Steps may w w') (hw : P w.origin) : P w'.origin := by
  induction h with
  | refl => exact hw
  | @tail mid _ _ hstep ih =>
      cases hstep with
      | read => exact ih
      | @command c hc =>
          rcases mid.command_cases c with ⟨-, happly⟩ | ⟨-, horigin⟩
          · exact hP hc happly ih
          · rwa [horigin]

theorem frame (h : Steps may w w') : w'.drive = w.drive ∧ w'.owner = w.owner := by
  induction h with
  | refl => exact ⟨rfl, rfl⟩
  | @tail mid _ _ hstep ih =>
      cases hstep with
      | read => exact ih
      | @command c hc => exact ⟨(mid.command_drive c).trans ih.1, (mid.command_owner c).trans ih.2⟩

/-- A snapshot none of the commands takes away stays. -/
theorem mem_snapsOf (h : Steps may w w') {rel : Rel} {s : Ref} (hs : s ∈ snapsOf w.origin rel)
    (hkeep : ∀ c, may c → c.rel = rel → c.snapTaken ≠ some s.name) : s ∈ snapsOf w'.origin rel :=
  h.keep (fun hc happly hs => Cmd.mem_snapsOf_apply happly hs (hkeep _ hc)) hs

theorem mem_bookmarksOf (h : Steps may w w') {rel : Rel} {b : Ref}
    (hb : b ∈ bookmarksOf w.origin rel)
    (hkeep : ∀ c, may c → c.rel = rel → c.bookmarkTaken ≠ some b.name) :
    b ∈ bookmarksOf w'.origin rel :=
  h.keep (fun hc happly hb => Cmd.mem_bookmarksOf_apply happly hb (hkeep _ hc)) hb

/-- A snapshot whose name none of the commands gives was there before. -/
theorem of_mem_snapsOf (h : Steps may w w') {rel : Rel} {s : Ref}
    (hname : ∀ c, may c → ∀ old, c ≠ .rename rel old s.name) (hs : s ∈ snapsOf w'.origin rel) :
    s ∈ snapsOf w.origin rel := by
  refine h.keep (P := fun origin => s ∈ snapsOf origin rel → s ∈ snapsOf w.origin rel) ?_ id hs
  intro origin after c hc happly hbefore hs
  rcases Cmd.of_mem_snapsOf_apply happly hs with hs | ⟨x, -, heq, -⟩
  · exact hbefore hs
  · exact absurd heq (hname c hc x.name)

/-- Bookmarks and renames leave every guid where it is. -/
theorem hasGuid (h : Steps may w w') {rel : Rel} {guid : String}
    (hmay : ∀ c, may c → (∃ rel snap name, c = .bookmark rel snap name) ∨
      ∃ rel old new, c = .rename rel old new)
    (hbefore : HasGuid w.origin rel guid) : HasGuid w'.origin rel guid := by
  refine h.keep (P := fun origin => HasGuid origin rel guid) ?_ hbefore
  intro origin after c hc happly hguid
  have hbookmarks : ∀ b ∈ bookmarksOf origin rel, b ∈ bookmarksOf after rel := by
    intro b hb
    refine Cmd.mem_bookmarksOf_apply happly hb fun _ => ?_
    rcases hmay c hc with ⟨_, _, _, rfl⟩ | ⟨_, _, _, rfl⟩ <;> exact nofun
  rcases hguid with ⟨s, hs, hguid⟩ | ⟨hpool, b, hb, hguid⟩
  · left
    by_cases htaken : c.rel = rel ∧ c.snapTaken = some s.name
    · obtain ⟨rfl, htaken⟩ := htaken
      rcases hmay c hc with ⟨_, _, _, rfl⟩ | ⟨r, old, new, rfl⟩
      · cases htaken
      · exact ⟨_, Cmd.mem_snapsOf_rename happly hs (Option.some.inj htaken).symm, hguid⟩
    · exact ⟨s, Cmd.mem_snapsOf_apply happly hs fun hrel htaken' => htaken ⟨hrel, htaken'⟩, hguid⟩
  · exact .inr ⟨hpool, b, hbookmarks b hb, hguid⟩

/-- What origin must bring to the point stays the same. -/
theorem mem_expected (h : Steps may w w') {skip : List Rel} {rel : Rel}
    (hrel : rel ∈ expected w.origin skip) : rel ∈ expected w'.origin skip := by
  refine h.keep (P := fun origin => rel ∈ expected origin skip) ?_ hrel
  intro origin after c hc happly hrel
  obtain ⟨o, ho, hexpected⟩ := Zark.mem_expected.mp hrel
  obtain ⟨d, d', hd, heffect, hafter, hother⟩ := Cmd.apply_spec happly
  by_cases heq : rel = c.rel
  · subst heq
    obtain rfl : o = d := Option.some.inj (ho.symm.trans hd)
    refine Zark.mem_expected.mpr ⟨d', hafter, ?_⟩
    rw [isExpected, heffect.rel_eq.1, heffect.rel_eq.2]
    exact hexpected
  · exact Zark.mem_expected.mpr ⟨o, (hother rel heq).trans ho, hexpected⟩

end Steps

end World

end Zark
