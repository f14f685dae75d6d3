import Zark.Library.Extents
import Zark.PoolRecord
import Zark.Restore

/-!
# The disk of an ext4 point

`lib/recover_ext4.py`: the partitions recover makes for a point whose `/boot` was an ext4 partition,
the `sgdisk` commands that make them, and the space it counts before rpool's; and the check of
`commands/recover.py` that the restore fits in the rest of the disk.

Sizes are bytes. `sgdisk` is external: its partitions start at 1 MiB boundaries.
-/

namespace Zark.RecoverExt4

open Extents

def kib : ℕ := 1024

def mib : ℕ := 1024 * kib

def gib : ℕ := 1024 * mib

inductive Role
  | esp
  | boot
  | swap
  | rpool
  deriving DecidableEq, Repr

/-- One partition recover makes; its size is 0 for the rest of the disk. -/
structure Part where
  number : ℕ
  size : ℕ
  typeCode : String
  role : Role
  deriving DecidableEq, Repr

def espMin : ℕ := gib

def espMax : ℕ := 4 * gib

/-- The new ESP's size: the recorded one within the bounds. -/
def espBytes (boot : BootRecord) : ℕ :=
  min (max (boot.esp.elim 0 fun e => (e.sizeBytes : ℕ)) espMin) espMax

/-- The disk as origin had it: the ESP, `/boot`, the swap when there was one, rpool the rest. -/
def ext4Partitions (boot : BootRecord) : List Part :=
  let parts : List Part :=
    [⟨1, espBytes boot, "EF00", .esp⟩, ⟨2, max boot.partition.sizeBytes (2 * gib), "8300", .boot⟩]
  let parts := parts ++ boot.swap.elim [] fun s => [⟨3, s.sizeBytes, "8300", .swap⟩]
  parts ++ [⟨parts.length + 1, 0, "BF00", .rpool⟩]

/-- What `sgdisk -n -t` is told of a partition: where it starts (`0` for where the last one allows),
and its size in KiB unless it is the rest. -/
structure NewPartition where
  number : ℕ
  start : String
  sizeKib : Option ℕ
  typeCode : String

def newPartition (p : Part) : NewPartition :=
  ⟨p.number, if p.number = 1 then "1M" else "0", if p.size = 0 then none
    else some (p.size / kib), p.typeCode⟩

def NewPartition.command (n : NewPartition) (disk : String) : String :=
  "sgdisk -n" ++ toString n.number ++ ":" ++ n.start ++ ":" ++ n.sizeKib.elim "0"
    (fun size => "+" ++ toString size ++ "K") ++
    " -t" ++ toString n.number ++ ":" ++ n.typeCode ++ " " ++ disk

/-- One `sgdisk -n -t` per partition. -/
def sgdiskCommands (parts : List Part) (disk : String) : List String :=
  parts.map fun p => (newPartition p).command disk

/-- The disk space before rpool's partition, as recover counts it. -/
def beforeRpoolBytes (boot : BootRecord) : ℕ := 2 * mib + ((ext4Partitions boot).map Part.size).sum

/-! ### Where sgdisk puts them -/

/-- Where each partition starts, when what is taken ends at `free`: at 1 MiB where the command says
so, else at the next boundary. -/
def partitionStarts : ℕ → List NewPartition → List ℕ
  | _, [] => []
  | free, n :: rest =>
      let start := if n.start = "1M" then mib else alignUp mib free
      start :: partitionStarts (start + n.sizeKib.getD 0 * kib) rest

/-- The byte at which rpool's partition starts. -/
def rpoolStart (boot : BootRecord) : Option ℕ :=
  (((ext4Partitions boot).zip (partitionStarts 0 ((ext4Partitions boot).map newPartition))).find?
    fun p => p.1.role = .rpool).map Prod.snd

/-! ### The size check -/

/-- A row of the restore table with its sizes; a dataset's own is unknown (-1) when it could not be
read. -/
structure SizedRow where
  rel : Rel
  restored : Bool
  referenced : ℤ
  hasBase : Bool
  baseBytes : ℕ

structure SizedPlan where
  rows : List SizedRow
  keystoreBytes : ℤ

namespace SizedPlan

/-- Bytes received into rpool: datasets, their monthly bases and the keystore. -/
def rpoolBytes (plan : SizedPlan) : ℤ :=
  ((plan.rows.filter fun r => decide (["rpool"] <+: r.rel ∧ r.rel ≠ ["rpool"]) && r.restored).map
    fun r => r.referenced + (r.baseBytes : ℤ)).sum + plan.keystoreBytes

/-- Bytes received into bpool. -/
def bpoolBytes (plan : SizedPlan) : ℤ :=
  ((plan.rows.filter fun r => decide (["bpool"] <+: r.rel ∧ r.rel ≠ ["bpool"]) && r.restored).map
    fun r => r.referenced + (r.baseBytes : ℤ)).sum

/-- The point only, and how many bases were dropped. -/
def dropBases (plan : SizedPlan) : SizedPlan × ℕ :=
  ({ plan with rows := plan.rows.map fun r => { r with hasBase := false, baseBytes := 0 } },
    plan.rows.countP SizedRow.hasBase)

end SizedPlan

def bpoolPartBytes : ℕ := 2 * gib

/-- `_LAYOUT_BEFORE_RPOOL_MIB`: alignment, ESP, bpool and swap of a point with a boot pool. -/
def layoutBeforeRpoolMib : ℕ := 1 + 1024 + 2048 + 8192

/-- `_before_rpool_bytes`. -/
def beforeRpool : Option BootRecord → ℕ
  | none => layoutBeforeRpoolMib * mib
  | some boot => beforeRpoolBytes boot

/-- The rpool size a restore is compared with. -/
def rpoolPart (diskBytes : ℕ) (boot : Option BootRecord) : ℤ := (diskBytes : ℤ) - beforeRpool boot

/-- With `_RECOVER_TARGET_OVERHEAD_PCT` for metadata and slop. -/
def withOverhead (bytes : ℤ) : ℤ := bytes * (100 + 5) / 100

inductive SizeRefusal
  | unknown (causes : List String)
  | tooSmall
  deriving DecidableEq, Repr

/-- What has no size. -/
def unknownSizes (plan : SizedPlan) : List String :=
  ((plan.rows.filter fun r => r.restored && decide (r.referenced < 0)).map fun r => r.rel.text) ++
    if plan.keystoreBytes < 0 then ["keystore"] else []

/-- More than one of the partitions holds. -/
def exceeds (part : ℤ) (plan : SizedPlan) : Bool :=
  decide (withOverhead plan.rpoolBytes > part ∨ withOverhead plan.bpoolBytes > bpoolPartBytes)

/-- `_check_sizes`: the plan that fits, which lost its monthly bases if it did not with them. -/
def checkSizes (plan : SizedPlan) (disk : String) (diskBytes : ℕ) (boot : Option BootRecord) :
    Except SizeRefusal SizedPlan :=
  if unknownSizes plan ≠ [] ∨ diskBytes = 0 then
    .error (.unknown ((unknownSizes plan).map ("referenced unknown for " ++ ·) ++
      if diskBytes = 0 then ["size of " ++ disk ++ " unknown"] else []))
  else
    let part := rpoolPart diskBytes boot
    let plan := if exceeds part plan then plan.dropBases.1 else plan
    if exceeds part plan then .error .tooSmall else .ok plan

end Zark.RecoverExt4
