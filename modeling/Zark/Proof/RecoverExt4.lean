import Zark.RecoverExt4

/-!
# The space before rpool

Each partition is a whole number of KiB and starts at a 1 MiB boundary, so what lies before rpool's
is the partitions' sizes, each rounded up by itself, after the first MiB. What recover counts leaves
one MiB for all the rounding.
-/

namespace Zark.RecoverExt4

open Extents

/-- The sizes before rpool's, in order. -/
def sizesBefore (boot : BootRecord) : List ℕ :=
  [espBytes boot, max boot.partition.sizeBytes (2 * gib)] ++ boot.swap.elim [] fun s =>
    [(s.sizeBytes : ℕ)]

theorem mib_pos : 0 < mib := by decide

theorem espBytes_pos (boot : BootRecord) : espBytes boot ≠ 0 := by
  have hmin : 0 < espMin := by decide
  have hmax : 0 < espMax := by decide
  rw [espBytes]
  omega

theorem bootBytes_pos (boot : BootRecord) : max (boot.partition.sizeBytes : ℕ) (2 * gib) ≠ 0 := by
  have hgib : 0 < gib := by decide
  omega

theorem beforeRpoolBytes_eq (boot : BootRecord) :
    beforeRpoolBytes boot = 2 * mib + (sizesBefore boot).sum := by
  rw [beforeRpoolBytes, ext4Partitions, sizesBefore]
  cases boot.swap <;> simp

/-- Rpool's partition starts where the others, taken in whole KiB, end. -/
theorem rpoolStart_eq (boot : BootRecord) :
    rpoolStart boot = some (next mib mib ((sizesBefore boot).map fun size =>
      size / kib * kib)) := by
  have hesp := espBytes_pos boot
  have hboot := bootBytes_pos boot
  rw [rpoolStart, ext4Partitions, sizesBefore]
  cases boot.swap with
  | none => simp [partitionStarts, newPartition, next, hesp, hboot]
  | some s => simp [partitionStarts, newPartition, next, hesp, hboot]

/-- Where rpool's partition starts, against what is counted: beyond it by a MiB for each size that
is off a boundary by a KiB or more, less all rests and the one MiB of slack. -/
theorem rpoolStart_add (boot : BootRecord) : ∃ start, rpoolStart boot = some start ∧
    start + ((sizesBefore boot).map (· % mib)).sum + mib =
      beforeRpoolBytes boot + ((sizesBefore boot).countP fun size =>
        decide (kib ≤ size % mib)) * mib := by
  have hreach :=
    next_units (u := kib) (by decide) mib_pos ⟨1024, Nat.mul_comm _ _⟩ (Nat.dvd_refl mib)
      (sizesBefore boot)
  refine ⟨_, rpoolStart_eq boot, ?_⟩
  rw [beforeRpoolBytes_eq]
  omega

/-- The rests past a boundary, together with the one MiB of slack, make up for the sizes rounded up:
those a KiB or more past one. -/
def RoundingFits (boot : BootRecord) : Prop :=
  ((sizesBefore boot).countP fun size => decide (kib ≤ size % mib)) * mib
    ≤ mib + ((sizesBefore boot).map (· % mib)).sum

instance (boot : BootRecord) : Decidable (RoundingFits boot) := Nat.decLe _ _

theorem start_le_iff {boot : BootRecord} {start : ℕ} (h : rpoolStart boot = some start) :
    start ≤ beforeRpoolBytes boot ↔ RoundingFits boot := by
  obtain ⟨start', hstart, hsum⟩ := rpoolStart_add boot
  obtain rfl : start = start' := Option.some.inj (h.symm.trans hstart)
  rw [RoundingFits]
  omega

/-- One size off a boundary is what the slack is for. -/
theorem roundingFits_of_one_off {boot : BootRecord}
    (h : ((sizesBefore boot).countP fun size => decide (kib ≤ size % mib)) ≤ 1) :
    RoundingFits boot :=
  (Nat.mul_le_mul_right mib h).trans (by omega)

/-- What is counted before rpool is all there is, and the size the restore is compared with no more
than what rpool's partition gets, exactly when the rounding fits. -/
theorem before_covers_iff (boot : BootRecord) :
    (∃ start, rpoolStart boot = some start ∧ start ≤ beforeRpoolBytes boot ∧
      ∀ diskBytes : ℕ, rpoolPart diskBytes (some boot) ≤ (diskBytes : ℤ) - start) ↔
      RoundingFits boot := by
  constructor
  · rintro ⟨start, hstart, hle, -⟩
    exact (start_le_iff hstart).mp hle
  · intro hfits
    obtain ⟨start, hstart, -⟩ := rpoolStart_add boot
    have hle := (start_le_iff hstart).mpr hfits
    refine ⟨start, hstart, hle, fun diskBytes => ?_⟩
    rw [rpoolPart, beforeRpool]
    omega

/-- An ESP and a `/boot`, each a KiB past a boundary, and no swap. -/
def kibPast : BootRecord where
  dataset := "rpool/ROOT/ubuntu/boot"
  fstype := "ext4"
  uuid := "1b6c7f0e-4f2d-4a57-9c1e-2f1a6f0d9b11"
  label := ""
  sizeBytes := 2000000000
  features := ["has_journal"]
  mountOptions := "defaults"
  partition := ⟨2147484672, "0fc63daf-8483-4772-8e79-3d69d8477de4"⟩
  esp := some ⟨1073742848, "1A2B-3C4D"⟩
  swap := none

example : sgdiskCommands (ext4Partitions kibPast) "/dev/sda" =
    ["sgdisk -n1:1M:+1048577K -t1:EF00 /dev/sda", "sgdisk -n2:0:+2097153K -t2:8300 /dev/sda",
      "sgdisk -n3:0:0 -t3:BF00 /dev/sda"] := by decide +kernel

/-- Rpool starts nearly a MiB past what is counted. -/
theorem starts_past_count : rpoolStart kibPast = some (beforeRpoolBytes kibPast + (mib - 2 * kib)) ∧
    ¬ ∃ start, rpoolStart kibPast = some start ∧ start ≤ beforeRpoolBytes kibPast ∧
    ∀ diskBytes : ℕ, rpoolPart diskBytes (some kibPast) ≤ (diskBytes : ℤ) - start := by
  have hstart : rpoolStart kibPast = some (beforeRpoolBytes kibPast + (mib - 2 * kib)) := by
    decide +kernel
  refine ⟨hstart, ?_⟩
  rintro ⟨start, hsome, hle, -⟩
  exact absurd ((start_le_iff hsome).mp hle) (by decide +kernel)

/-! ### What passes the check -/

/-- A plan that passes has no unknown size, and fits as it stands or without its monthly bases. -/
theorem checkSizes_eq_ok {plan plan' : SizedPlan} {disk : String} {diskBytes : ℕ}
    {boot : Option BootRecord} (h : checkSizes plan disk diskBytes boot = .ok plan') :
    (plan' = plan ∨ plan' = plan.dropBases.1) ∧
      (∀ r ∈ plan.rows, r.restored = true → 0 ≤ r.referenced) ∧ 0 ≤ plan.keystoreBytes ∧
      withOverhead plan'.rpoolBytes ≤ rpoolPart diskBytes boot ∧
      withOverhead plan'.bpoolBytes ≤ bpoolPartBytes := by
  rw [checkSizes] at h
  split at h
  · cases h
  · rename_i hknown
    rw [not_or, not_not, unknownSizes, List.append_eq_nil_iff, List.map_eq_nil_iff,
      List.filter_eq_nil_iff] at hknown
    obtain ⟨⟨hrows, hkeystore⟩, -⟩ := hknown
    have hchosen : ite (exceeds (rpoolPart diskBytes boot) plan = true)
        plan.dropBases.1 plan = plan ∨
        ite (exceeds (rpoolPart diskBytes boot) plan = true) plan.dropBases.1 plan
            = plan.dropBases.1 := by
      split
      · exact .inr rfl
      · exact .inl rfl
    dsimp only at h
    generalize ite (exceeds (rpoolPart diskBytes boot) plan = true) plan.dropBases.1 plan
      = chosen at h hchosen
    split at h
    · cases h
    · rename_i hsmall
      obtain rfl := Except.ok.inj h
      rw [Bool.not_eq_true, exceeds, decide_eq_false_iff_not, not_or, not_lt, not_lt] at hsmall
      refine ⟨hchosen, fun r hr hrestored => ?_, ?_, hsmall⟩
      · simpa [hrestored] using hrows r hr
      · by_contra hneg
        rw [if_pos (not_le.mp hneg)] at hkeystore
        cases hkeystore

/-- What passes has room in rpool's partition, where the rounding fits. -/
theorem checkSizes_fits {plan plan' : SizedPlan} {disk : String} {diskBytes : ℕ} {boot : BootRecord}
    (hfits : RoundingFits boot) (h : checkSizes plan disk diskBytes (some boot) = .ok plan') :
    ∃ start, rpoolStart boot = some start ∧
    withOverhead plan'.rpoolBytes ≤ (diskBytes : ℤ) - start := by
  obtain ⟨start, hstart, -⟩ := rpoolStart_add boot
  have hle := (start_le_iff hstart).mpr hfits
  have hroom := (checkSizes_eq_ok h).2.2.2.1
  rw [rpoolPart, beforeRpool] at hroom
  exact ⟨start, hstart, by omega⟩

end Zark.RecoverExt4
