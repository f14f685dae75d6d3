import Zark.DriveCommands

/-!
# What the commands on the drive do

A rename moves the datasets of a tree and nothing else, one to one: on a drive whose datasets have
their parents nothing lies below a name that is free.
-/

namespace Zark

open Hierarchy

section Rename

variable {dest dest' : Drive} {old new x y : Rel}

@[simp] theorem movedRel_append (old new tail : Rel) :
    movedRel old new (old ++ tail) = new ++ tail := by
  rw [movedRel, if_pos (List.prefix_append _ _), List.drop_left]

@[simp] theorem movedRel_self (old new : Rel) : movedRel old new old = new := by
  simpa using movedRel_append old new []

theorem movedRel_of_not_under (h : ¬Under x old) : movedRel old new x = x := if_neg h

/-- Names outside the target's tree move one to one. -/
theorem eq_of_movedRel_eq (hx : ¬Under x new) (hy : ¬Under y new)
    (h : movedRel old new x = movedRel old new y) : x = y := by
  by_cases hxold : Under x old
  · obtain ⟨t, rfl⟩ := hxold
    rw [movedRel_append] at h
    by_cases hyold : Under y old
    · obtain ⟨u, rfl⟩ := hyold
      rw [movedRel_append] at h
      rw [List.append_cancel_left h]
    · rw [movedRel_of_not_under hyold] at h
      exact absurd (h ▸ List.prefix_append _ _) hy
  · rw [movedRel_of_not_under hxold] at h
    by_cases hyold : Under y old
    · obtain ⟨u, rfl⟩ := hyold
      rw [movedRel_append] at h
      exact absurd (h ▸ List.prefix_append _ _) hx
    · rwa [movedRel_of_not_under hyold] at h

theorem not_under_of_not_mem (hdrive : ParentClosed dest.keys) (hx : x ∈ dest.keys)
    (hy : y ∉ dest.keys) (hne : y ≠ []) : ¬Under x y :=
  fun h => hy (hdrive.mem_of_under hx h hne)

theorem CanRename.not_under (h : CanRename dest old new) (hdrive : ParentClosed dest.keys)
    (hx : x ∈ dest.keys) : ¬Under x new :=
  not_under_of_not_mem hdrive hx h.target.absent h.target.ne_nil

theorem CanRename.exists (h : CanRename dest old new) (hdrive : ParentClosed dest.keys) :
    ∃ dest', zfsRename dest old new = some dest' := by
  have hnodup : ((dest.items.map (Dest.moved old new)).map Dest.rel).Nodup := by
    rw [List.map_map]
    refine List.Nodup.map_on (fun a ha b hb hab => ?_) (List.Nodup.of_map _ dest.nodup)
    have hkey : ∀ d ∈ dest.items, ¬Under d.rel new :=
      fun d hd => h.not_under hdrive (Keyed.key_mem_keys hd)
    exact dest.eq_of_key ha hb (eq_of_movedRel_eq (hkey a ha) (hkey b hb) hab)
  refine ⟨⟨_, hnodup⟩, ?_⟩
  rw [zfsRename, if_pos h]
  exact Keyed.ofList?_eq_some_iff.mpr rfl

theorem zfsRename_spec (h : zfsRename dest old new = some dest') :
    CanRename dest old new ∧ dest'.items = dest.items.map (Dest.moved old new) := by
  unfold zfsRename at h
  split at h
  · rename_i hcan
    exact ⟨hcan, Keyed.ofList?_eq_some_iff.mp h⟩
  · cases h

theorem mem_zfsRename {e : Dest} (h : zfsRename dest old new = some dest') :
    e ∈ dest' ↔ ∃ d ∈ dest, Dest.moved old new d = e := by
  rw [Keyed.mem_def, (zfsRename_spec h).2, List.mem_map]
  rfl

theorem mem_keys_zfsRename (h : zfsRename dest old new = some dest') :
    y ∈ dest'.keys ↔ ∃ x ∈ dest.keys, movedRel old new x = y := by
  simp only [Keyed.mem_keys, mem_zfsRename h]
  constructor
  · rintro ⟨_, ⟨d, hd, rfl⟩, rfl⟩
    exact ⟨d.rel, ⟨d, hd, rfl⟩, rfl⟩
  · rintro ⟨_, ⟨d, hd, rfl⟩, rfl⟩
    exact ⟨_, ⟨d, hd, rfl⟩, rfl⟩

theorem get?_zfsRename (h : zfsRename dest old new = some dest') (hdrive : ParentClosed dest.keys)
    (hx : ¬Under x new) :
    dest'.get? (movedRel old new x) = (dest.get? x).map (Dest.moved old new) := by
  have hcan := (zfsRename_spec h).1
  cases hget : dest.get? x with
  | some d =>
      obtain ⟨hd, rfl⟩ := Keyed.get?_eq_some_iff.mp hget
      exact Keyed.get?_eq_some_iff.mpr ⟨(mem_zfsRename h).mpr ⟨d, hd, rfl⟩, rfl⟩
  | none =>
      rw [Keyed.get?_eq_none_iff] at hget
      refine Keyed.get?_eq_none_iff.mpr fun hmem => hget ?_
      obtain ⟨z, hz, hmoved⟩ := (mem_keys_zfsRename h).mp hmem
      exact eq_of_movedRel_eq (hcan.not_under hdrive hz) hx hmoved ▸ hz

theorem get?_zfsRename_of_outside (h : zfsRename dest old new = some dest')
    (hdrive : ParentClosed dest.keys) (hold : ¬Under x old) (hnew : ¬Under x new) :
    dest'.get? x = (dest.get? x).map (Dest.moved old new) := by
  have := get?_zfsRename h hdrive hnew
  rwa [movedRel_of_not_under hold] at this

theorem parentClosed_zfsRename (h : zfsRename dest old new = some dest')
    (hdrive : ParentClosed dest.keys) : ParentClosed dest'.keys := by
  have hcan := (zfsRename_spec h).1
  intro y hy
  obtain ⟨x, hx, rfl⟩ := (mem_keys_zfsRename h).mp hy
  obtain ⟨hne, hparent⟩ := hdrive x hx
  have hmem : ∀ z ∈ dest.keys, movedRel old new z ∈ dest'.keys :=
    fun z hz => (mem_keys_zfsRename h).mpr ⟨z, hz, rfl⟩
  by_cases hold : Under x old
  · obtain ⟨t, rfl⟩ := hold
    rw [movedRel_append]
    by_cases ht : t = []
    · subst ht
      rw [List.append_nil]
      refine ⟨hcan.target.ne_nil, hcan.target.place.imp_right fun hp => ?_⟩
      -- The target's place is outside the source's tree.
      have hout : ¬Under (parent new) old :=
        fun hunder => hcan.outside ((under_parent new).trans hunder)
      exact movedRel_of_not_under hout ▸ hmem _ hp
    · refine ⟨fun hnil => ht (List.append_eq_nil_iff.mp hnil).2, .inr ?_⟩
      rw [parent, List.dropLast_append_of_ne_nil ht]
      have hpt : old ++ t.dropLast ∈ dest.keys := by
        refine hdrive.mem_of_under hx ?_ fun hnil =>
          (hdrive old hcan.source).1 (List.append_eq_nil_iff.mp hnil).1
        exact (List.prefix_append_right_inj old).mpr (List.dropLast_prefix t)
      exact movedRel_append old new _ ▸ hmem _ hpt
  · rw [movedRel_of_not_under hold]
    refine ⟨hne, hparent.imp_right fun hp => ?_⟩
    have hout : ¬Under (parent x) old := fun hunder => hold ((under_parent x).trans hunder)
    exact movedRel_of_not_under hout ▸ hmem _ hp

end Rename

section ClonePromote

variable {dest dest' : Drive} {rel : Rel} {source : SnapName}

theorem zfsClone_spec (h : zfsClone dest source rel = some dest') :
    ∃ d, dest.get? source.1 = some d ∧ source.2 ∈ d.snaps.keys ∧ IsFree dest rel ∧
      dest.push? { rel, kind := d.kind, cloneOf := some source } = some dest' := by
  obtain ⟨d, hd, h⟩ := Option.bind_eq_some_iff.mp h
  split at h
  · rename_i hcan
    exact ⟨d, hd, hcan.1, hcan.2, h⟩
  · cases h

/-- A promote puts the origin's snapshots up to the clone's before the clone's own. -/
theorem zfsPromote_spec (h : zfsPromote dest rel = some dest') :
    ∃ d source o snaps, dest.get? rel = some d ∧ d.cloneOf = some source ∧
    dest.get? source.1 = some o ∧ source.2 ∈ o.snaps.keys ∧
      snaps.items = (o.snaps.upTo source.2).items ++ d.snaps.items ∧
        dest' = dest.map (Dest.promoted rel source o snaps)
          (Dest.promoted_rel rel source o snaps) := by
  obtain ⟨d, hd, h⟩ := Option.bind_eq_some_iff.mp h
  obtain ⟨source, hsource, h⟩ := Option.bind_eq_some_iff.mp h
  obtain ⟨o, ho, h⟩ := Option.bind_eq_some_iff.mp h
  split at h
  · rename_i hname
    obtain ⟨snaps, hsnaps, rfl⟩ := Option.map_eq_some_iff.mp h
    exact ⟨d, source, o, snaps, hd, hsource, ho, hname, Keyed.ofList?_eq_some_iff.mp hsnaps, rfl⟩
  · cases h

theorem mem_keys_zfsClone (h : zfsClone dest source rel = some dest') {x : Rel} :
    x ∈ dest'.keys ↔ x ∈ dest.keys ∨ x = rel := by
  obtain ⟨d, -, -, -, hpush⟩ := zfsClone_spec h
  simp only [Keyed.mem_keys, Keyed.mem_push? hpush]
  constructor
  · rintro ⟨e, he | rfl, rfl⟩
    · exact .inl ⟨e, he, rfl⟩
    · exact .inr rfl
  · rintro (⟨e, he, rfl⟩ | rfl)
    · exact ⟨e, .inl he, rfl⟩
    · exact ⟨_, .inr rfl, rfl⟩

theorem parentClosed_zfsClone (h : zfsClone dest source rel = some dest')
    (hdrive : ParentClosed dest.keys) : ParentClosed dest'.keys := by
  obtain ⟨d, -, -, hfree, -⟩ := zfsClone_spec h
  intro x hx
  obtain hx | rfl := (mem_keys_zfsClone h).mp hx
  · obtain ⟨hne, hparent⟩ := hdrive x hx
    exact ⟨hne, hparent.imp_right fun hp => (mem_keys_zfsClone h).mpr (.inl hp)⟩
  · exact ⟨hfree.ne_nil, hfree.place.imp_right fun hp => (mem_keys_zfsClone h).mpr (.inl hp)⟩

theorem parentClosed_zfsPromote (h : zfsPromote dest rel = some dest')
    (hdrive : ParentClosed dest.keys) : ParentClosed dest'.keys := by
  obtain ⟨d, source, o, snaps, -, -, -, -, -, rfl⟩ := zfsPromote_spec h
  rwa [Keyed.keys_map]

end ClonePromote

end Zark
