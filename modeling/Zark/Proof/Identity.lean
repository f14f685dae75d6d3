import Zark.Identity
import Zark.Proof.Registry

/-!
# A registered name never gets weaker

`reconcile` is seen as two equations, one for each name it writes, that hold of every entry it does
not leave to a disk without names. That a disk's own name and an enclosure's name are kept from
weaker ones, that a second pass changes nothing, and that an enclosure stands only beside a disk's
own name are read off them, for one disk and then for every sequence of disks.
-/

namespace Zark.Identity

open Registry

/-! ### The names of a disk -/

theorem classify_best (names : List String) (kind : Kind) (order : List String) :
    best names kind order = "" ∨ best names kind order ∈ names ∧
    classify (best names kind order) = kind := by
  unfold best
  cases harg : (names.filter fun n => classify n = kind).argmin (rank order) with
  | none => exact .inl rfl
  | some n => exact .inr (by simpa using List.argmin_mem (Option.mem_def.mpr harg))

theorem registryNames_mem (ident : DiskIdentity) : (registryNames ident).1 ∈ ident.names := by
  unfold registryNames
  split
  · exact ((classify_best _ _ _).resolve_left ‹_›).1
  · exact List.mem_cons_self

theorem preferredById_mem {names : List String} (h : names ≠ []) : preferredById names ∈ names := by
  unfold preferredById
  extract_lets strong pool
  have hsub : pool ⊆ names := by
    unfold pool
    split
    · exact List.Subset.refl _
    · exact List.filter_subset_self _
  have hne : pool ≠ [] := by
    unfold pool
    split
    · exact h
    · exact ‹_›
  obtain ⟨n, hn⟩ : ∃ n, pool.argmin (rank byIdRank) = some n :=
    Option.ne_none_iff_exists'.mp fun hnone => hne (List.argmin_eq_none.mp hnone)
  rw [hn]
  exact hsub (List.argmin_mem (Option.mem_def.mpr hn))

/-! ### One disk -/

variable {py : Python} {name : String} {info : DriveInfo py} {ident : DiskIdentity}

theorem strength_le_nameFor (info : DriveInfo py) (driveId : String)
    (h : isStrong (classify info.driveId) = true) :
    strength (classify info.driveId) ≤ strength (classify (nameFor info driveId)) := by
  unfold nameFor
  split
  · exact le_rfl
  · rename_i hkept
    simpa [h] using hkept

theorem nameFor_eq (info : DriveInfo py) (driveId : String) :
    nameFor info driveId = info.driveId ∨ nameFor info driveId = driveId := by
  unfold nameFor
  split
  · exact .inl rfl
  · exact .inr rfl

theorem isStrong_iff (kind : Kind) : isStrong kind = true ↔ 2 ≤ strength kind := by
  cases kind <;> decide

theorem isStrong_of_le {a b : Kind} (ha : isStrong a = true) (h : strength a ≤ strength b) :
    isStrong b = true :=
  (isStrong_iff b).mpr (((isStrong_iff a).mp ha).trans h)

theorem reconciled_of_nameless (h : (registryNames ident).1 = "") :
    reconciled name info ident = info := by simp [reconciled, reconcile, h]

theorem reconciled_eq (h : (registryNames ident).1 ≠ "") :
    reconciled name info ident = { info with driveId := nameFor info (registryNames ident).1,
                                             enclosureId := enclosureFor info ident (nameFor info (registryNames ident).1) } := by
  simp only [reconciled, reconcile, if_neg h]
  split
  · rename_i hsame
    rw [hsame.2, hsame.1]
    rfl
  · rfl

/-- `reconcile` returns False on the entries it would write as they are, and on no other. -/
theorem reconcile_eq_none : reconcile name info ident = none ↔
    reconciled name info ident = info := by
  by_cases h : (registryNames ident).1 = ""
  · simp [reconciled_of_nameless h, reconcile, h]
  · rw [reconciled_eq h]
    simp only [reconcile, if_neg h]
    constructor
    · intro hnone
      split at hnone
      · rename_i hsame
        rw [hsame.2, hsame.1]
      · cases hnone
    · intro heq
      have hsame : nameFor info (registryNames ident).1 = info.driveId ∧
          enclosureFor info ident (nameFor info (registryNames ident).1) = info.enclosureId :=
        ⟨congrArg DriveInfo.driveId heq, congrArg DriveInfo.enclosureId heq⟩
      rw [if_pos hsame]

/-- No disk weakens a disk's own name or an enclosure's. -/
theorem strength_le_reconciled (name : String) (info : DriveInfo py) (ident : DiskIdentity)
    (h : isStrong (classify info.driveId) = true) :
    strength (classify info.driveId) ≤ strength
      (classify (reconciled name info ident).driveId) := by
  by_cases hname : (registryNames ident).1 = ""
  · rw [reconciled_of_nameless hname]
  · rw [reconciled_eq hname]
    exact strength_le_nameFor info _ h

theorem nameFor_congr {a b : DriveInfo py} (h : a.driveId = b.driveId) (driveId : String) :
    nameFor a driveId = nameFor b driveId := by
  rw [nameFor, nameFor, h]

theorem nameFor_again {next : DriveInfo py} {driveId : String}
    (h : next.driveId = nameFor info driveId) :
    nameFor next driveId = nameFor info driveId := by
  rcases nameFor_eq info driveId with hold | hnew
  · exact nameFor_congr (h.trans hold) driveId
  · rcases nameFor_eq next driveId with hkept | hwritten
    · rw [hkept, h]
    · rw [hwritten, hnew]

theorem enclosureFor_again {next : DriveInfo py} {driveId : String}
    (h : next.enclosureId = enclosureFor info ident driveId) :
    enclosureFor next ident driveId = enclosureFor info ident driveId := by
  unfold enclosureFor at h ⊢
  split
  · rename_i hdisk
    rw [if_pos hdisk] at h
    split
    · rfl
    · rw [h, if_neg ‹_›]
  · rfl

theorem reconciled_again (name : String) (info : DriveInfo py) (ident : DiskIdentity) :
    reconciled name (reconciled name info ident) ident = reconciled name info ident := by
  by_cases hname : (registryNames ident).1 = ""
  · rw [reconciled_of_nameless hname]
  · have hdrive : nameFor (reconciled name info ident) (registryNames ident).1
        = nameFor info (registryNames ident).1 :=
      nameFor_again (by rw [reconciled_eq hname])
    have henclosure : enclosureFor (reconciled name info ident) ident
        (nameFor info (registryNames ident).1) =
        enclosureFor info ident (nameFor info (registryNames ident).1) :=
          enclosureFor_again (by rw [reconciled_eq hname])
    rw [@reconciled_eq _ _ (reconciled name info ident) _ hname, hdrive, henclosure,
      reconciled_eq hname]

/-- An enclosure stands only beside a disk's own name. -/
def Placed (info : DriveInfo py) : Prop := info.enclosureId ≠ "" → classify info.driveId = .disk

/-- Whatever an entry held, it is so once a disk with a name was seen. -/
theorem placed_of_named (h : (registryNames ident).1 ≠ "") :
    Placed (reconciled name info ident) := by
  intro henclosure
  rw [reconciled_eq h] at henclosure ⊢
  by_contra hdisk
  exact henclosure (if_neg hdisk)

theorem Placed.reconciled (h : Placed info) (name : String) (ident : DiskIdentity) :
    Placed (Identity.reconciled name info ident) := by
  by_cases hname : (registryNames ident).1 = ""
  · rwa [reconciled_of_nameless hname]
  · exact placed_of_named hname

theorem reconciled_mem (name : String) (info : DriveInfo py) (names : List String) :
    (reconciled name info (namesOf names)).driveId = info.driveId ∨
    (reconciled name info (namesOf names)).driveId ∈ names := by
  by_cases hname : (registryNames (namesOf names)).1 = ""
  · rw [reconciled_of_nameless hname]
    exact .inl rfl
  · rw [reconciled_eq hname]
    refine (nameFor_eq info _).imp id fun hnew => ?_
    have hne : names ≠ [] := by
      rintro rfl
      exact hname (by decide +kernel)
    show nameFor info (registryNames (namesOf names)).1 ∈ names
    rw [hnew]
    rcases List.mem_cons.mp (registryNames_mem (namesOf names)) with hpreferred | halias
    · rw [hpreferred]
      exact preferredById_mem hne
    · exact halias

theorem reconciled_keeps (name : String) (info : DriveInfo py) (ident : DiskIdentity) :
    reconciled name info ident =
    { info with
      driveId := (reconciled name info ident).driveId,
      enclosureId := (reconciled name info ident).enclosureId } := by
  by_cases hname : (registryNames ident).1 = ""
  · rw [reconciled_of_nameless hname]
  · rw [reconciled_eq hname]

/-! ### A sequence of disks -/

/-- The entry after `reconcile` with each of some disks in turn. -/
def reconciledAll (name : String) (info : DriveInfo py) (idents : List DiskIdentity) :
    DriveInfo py :=
  idents.foldl (reconciled name) info

/-- A name that is a disk's own or an enclosure's is only ever replaced by one as strong, however
many disks are seen. -/
theorem strength_le_reconciledAll (name : String) :
    ∀ (idents : List DiskIdentity) (info : DriveInfo py), isStrong (classify info.driveId) = true →
    strength (classify info.driveId) ≤ strength (classify (reconciledAll name info idents).driveId)
  | [], _, _ => le_rfl
  | ident :: rest, info, h => by
      have hstep : strength (classify info.driveId)
          ≤ strength (classify (reconciled name info ident).driveId) :=
        strength_le_reconciled name info ident h
      have hstrong : isStrong (classify (reconciled name info ident).driveId) = true :=
        isStrong_of_le h hstep
      exact hstep.trans (strength_le_reconciledAll name rest (reconciled name info ident) hstrong)

theorem Placed.reconciledAll (name : String) :
    ∀ (idents : List DiskIdentity) {info : DriveInfo py}, Placed info →
    Placed (Identity.reconciledAll name info idents)
  | [], _, h => h
  | ident :: rest, _, h => Placed.reconciledAll name rest (h.reconciled name ident)

/-- One disk with a name is enough, wherever it comes in the sequence. -/
theorem placed_of_seen (name : String) : ∀ (idents : List DiskIdentity) (info : DriveInfo py),
    (∃ ident ∈ idents, (registryNames ident).1 ≠ "") →
    Placed (reconciledAll name info idents)
  | [], _, h => by simp at h
  | ident :: rest, info, h => by
      by_cases hname : (registryNames ident).1 = ""
      · have hrest : ∃ seen ∈ rest, (registryNames seen).1 ≠ "" := by simpa [hname] using h
        exact placed_of_seen name rest (reconciled name info ident) hrest
      · exact Placed.reconciledAll name rest (placed_of_named hname)

/-- One disk weakens a name only from one other disks may share to one of no known kind. -/
theorem weakened_iff (name : String) (info : DriveInfo py) (ident : DiskIdentity)
    (h : strength (classify (reconciled name info ident).driveId)
      < strength (classify info.driveId)) :
    classify info.driveId = .weak ∧ classify (reconciled name info ident).driveId = .other := by
  have hold : ¬ isStrong (classify info.driveId) = true := fun hstrong =>
    absurd (strength_le_reconciled name info ident hstrong) (not_le.mpr h)
  rw [isStrong_iff] at hold
  revert h hold
  cases classify info.driveId <;> cases classify (reconciled name info ident).driveId <;>
    simp [strength]

/-- Along every sequence of disks an entry was verified on. A disk's own name and an enclosure's are
never replaced by a weaker one, now or later; a second `reconcile` with the same disk returns False;
and an enclosure is registered only beside a disk's own name, of an entry that was so from the start
or that a disk with a name has been seen for. -/
theorem registered_name_kept (name : String) (info : DriveInfo py) (seen later : List DiskIdentity)
    (ident : DiskIdentity) :
    let entry := reconciledAll name info seen
    (strength (classify (reconciled name entry ident).driveId) < strength (classify entry.driveId) →
      classify entry.driveId = .weak ∧ classify (reconciled name entry ident).driveId = .other) ∧
    (isStrong (classify entry.driveId) = true →
      strength (classify entry.driveId)
        ≤ strength (classify (reconciledAll name entry later).driveId)) ∧
    reconcile name (reconciled name entry ident) ident = none ∧
    reconciled name (reconciled name entry ident) ident = reconciled name entry ident ∧
    ((info.enclosureId ≠ "" → classify info.driveId = .disk) ∨
      (∃ i ∈ seen, (registryNames i).1 ≠ "") →
      entry.enclosureId ≠ "" → classify entry.driveId = .disk) := by
  intro entry
  refine ⟨weakened_iff name entry ident, strength_le_reconciledAll name later entry, ?_,
    reconciled_again name entry ident, ?_⟩
  · exact reconcile_eq_none.mpr (reconciled_again name entry ident)
  · rintro (hplaced | hseen)
    · exact Placed.reconciledAll name seen hplaced
    · exact placed_of_seen name seen info hseen

/-- An entry of the given names. -/
def entryNamed (driveId enclosureId : String) : DriveInfo asciiPython where
  guid := "18"
  driveId := driveId
  enclosureId := enclosureId
  extra := ⟨[], by simp [Json.Held, Json.HeldFields]⟩

/-- A `wwn-` name gives way to a `dm-` name, of the weakest kind; and a disk without any name leaves
an enclosure beside another enclosure's name. -/
theorem weaker_name_written :
    (reconciled "black" (entryNamed "wwn-0x5000000000000001" "")
      (namesOf ["dm-name-backup", "wwn-0x5000000000000001"])).driveId = "dm-name-backup" ∧
    strength (classify "dm-name-backup") < strength (classify "wwn-0x5000000000000001") ∧
    reconciled "f" (entryNamed "usb-Old-0:0" "usb-Stale-0:0") (namesOf [])
      = entryNamed "usb-Old-0:0" "usb-Stale-0:0" ∧
    classify "usb-Old-0:0" ≠ .disk := by
  refine ⟨by decide +kernel, by decide +kernel, ?_, by decide +kernel⟩
  exact reconciled_of_nameless (by decide +kernel)

end Zark.Identity
