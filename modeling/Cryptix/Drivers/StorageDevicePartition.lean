import Mathlib.Data.List.Basic
import Mathlib.Logic.Function.Basic
import Mathlib.Order.Basic

/-!
# Partitions of a storage device

`Kernel/Drivers/Storage/StorageDevicePartition.hpp` and its constructor. `Read` and `Write` add the
first block of the partition to the offset, in 64 bits, and ask the device. The checks against the
last block are commented out. So a call stays inside of the partition only when its caller sees to
that (`staysInside_iff`).

The size that the constructor sets is a number of blocks, one less than there are
(`stSize_ne_byteCount`).

The device does what it is asked for: it has a byte for each 64-bit offset.
-/

namespace Cryptix.Drivers

/-- What the device stores. -/
abbrev Storage := UInt64 → UInt8

namespace Storage

/-- `Read` of the device. -/
def read (device : Storage) (offset bytes : UInt64) : List UInt8 :=
  (List.range bytes.toNat).map fun i => device (offset + .ofNat i)

/-- `Write` of the device. -/
def write (device : Storage) (src : ℕ → UInt8) (offset bytes : UInt64) : Storage := fun i =>
  if i - offset < bytes then src (i - offset).toNat else device i

end Storage

/-- `StorageDevicePartition`. -/
structure StorageDevicePartition where
  firstBlock : UInt64
  lastBlock : UInt64

namespace StorageDevicePartition

variable (blockSize : UInt64) (p : StorageDevicePartition)

/-- `st_size`, as the constructor sets it. -/
def stSize : Int64 := (p.lastBlock - p.firstBlock).toInt64

/-- `st_blocks`. -/
def stBlocks : Int64 := p.stSize / blockSize.toInt64

/-- `Read`. The one into a `UserBuffer` calls it, with -1 for the offset if there is none. -/
def read (device : Storage) (offset : Int64) (bytes : UInt64) : List UInt8 :=
  device.read (blockSize * p.firstBlock + offset.toUInt64) bytes

/-- `Write`. -/
def write (device : Storage) (src : ℕ → UInt8) (offset : Int64) (bytes : UInt64) : Storage :=
  device.write src (blockSize * p.firstBlock + offset.toUInt64) bytes

/-! ## The blocks of a partition -/

/-- A byte of the device is in one of the partition's blocks. -/
def Owns (i : UInt64) : Prop :=
  blockSize.toNat * p.firstBlock.toNat ≤ i.toNat ∧
    i.toNat < blockSize.toNat * (p.lastBlock.toNat + 1)

instance : DecidablePred (p.Owns blockSize) := fun _ => inferInstanceAs (Decidable (_ ∧ _))

/-- The number of bytes in the blocks. -/
def byteCount : ℕ := blockSize.toNat * (p.lastBlock.toNat + 1 - p.firstBlock.toNat)

end StorageDevicePartition

/-- A call of `Read` or of `Write`. -/
inductive PartitionCall
  | read (p : StorageDevicePartition) (offset : Int64) (bytes : UInt64)
  | write (p : StorageDevicePartition) (src : ℕ → UInt8) (offset : Int64) (bytes : UInt64)

namespace PartitionCall

variable (blockSize : UInt64)

def partition : PartitionCall → StorageDevicePartition
  | read p _ _ => p
  | write p _ _ _ => p

/-- What the device stores after a call. -/
def apply (device : Storage) : PartitionCall → Storage
  | read _ _ _ => device
  | write p src offset bytes => p.write blockSize device src offset bytes

/-- What is read depends on the partition's bytes only, and nothing else is written. -/
def StaysInside (device : Storage) : PartitionCall → Prop
  | read p offset bytes => ∀ device' : Storage, (∀ i, p.Owns blockSize i → device' i = device i) →
    p.read blockSize device' offset bytes = p.read blockSize device offset bytes
  | write p src offset bytes => ∀ i, ¬ p.Owns blockSize i →
    p.write blockSize device src offset bytes i = device i

/-- The bytes of a call are in the partition. A byte elsewhere may be written with what it is. -/
def Fits (device : Storage) : PartitionCall → Prop
  | read p offset bytes => ∀ i < bytes.toNat,
    p.Owns blockSize (blockSize * p.firstBlock + offset.toUInt64 + .ofNat i)
  | write p src offset bytes => ∀ i < bytes.toNat,
    ¬ p.Owns blockSize (blockSize * p.firstBlock + offset.toUInt64 + .ofNat i) →
      src i = device (blockSize * p.firstBlock + offset.toUInt64 + .ofNat i)

/-- What the device stores after calls. -/
def run (device : Storage) (calls : List PartitionCall) : Storage :=
  calls.foldl (apply blockSize) device

/-- Every call stays inside, from where the calls before it have led to. -/
def StayInside : Storage → List PartitionCall → Prop
  | _, [] => True
  | device, call :: calls =>
    call.StaysInside blockSize device ∧ StayInside (call.apply blockSize device) calls

end PartitionCall

namespace Storage

variable (device : Storage) (src : ℕ → UInt8) (offset bytes : UInt64)

theorem write_add {i : ℕ} (hi : i < bytes.toNat) :
    device.write src offset bytes (offset + .ofNat i) = src i := by
  have hlt : i < 2 ^ 64 := Nat.lt_trans hi (UInt64.toNat_lt bytes)
  have hplace : offset + .ofNat i - offset = UInt64.ofNat i := by
    rw [UInt64.add_comm, UInt64.add_sub_cancel]
  have hnumber : (UInt64.ofNat i).toNat = i := by
    rw [UInt64.toNat_ofNat', Nat.mod_eq_of_lt hlt]
  have hmem : UInt64.ofNat i < bytes := by
    rw [UInt64.lt_iff_toNat_lt, hnumber]
    exact hi
  rw [write, hplace, if_pos hmem, hnumber]

/-- What is not one of the bytes of a write stays. -/
theorem write_of_not_mem {i : UInt64} (hi : ∀ j < bytes.toNat, i ≠ offset + .ofNat j) :
    device.write src offset bytes i = device i := by
  rw [write, if_neg]
  intro hlt
  refine hi (i - offset).toNat (UInt64.lt_iff_toNat_lt.mp hlt) ?_
  rw [UInt64.ofNat_toNat, UInt64.add_comm, UInt64.sub_add_cancel]

end Storage

namespace PartitionCall

variable {blockSize : UInt64} {device : Storage} {call : PartitionCall}
  {calls : List PartitionCall}

/-- A call stays inside exactly when its bytes do. -/
theorem staysInside_iff : call.StaysInside blockSize device ↔ call.Fits blockSize device := by
  cases call with
  | read p offset bytes =>
    constructor
    · intro h i hi
      by_contra hout
      -- a device that has another byte at the place, and is read in the same way
      let place := blockSize * p.firstBlock + offset.toUInt64 + .ofNat i
      have hother : ∀ j, p.Owns blockSize j →
          Function.update device place (device place + 1) j = device j := by
        intro j hj
        apply Function.update_of_ne
        rintro rfl
        exact hout hj
      have hbytes := List.map_inj_left.mp (h _ hother) i (List.mem_range.mpr hi)
      rw [Function.update_self] at hbytes
      exact absurd (UInt8.add_eq_left.mp hbytes) (by decide)
    · intro h device' hsame
      apply List.map_congr_left
      intro i hi
      exact hsame _ (h i (List.mem_range.mp hi))
  | write p src offset bytes =>
    constructor
    · intro h i hi hout
      rw [← h _ hout]
      exact (device.write_add src _ bytes hi).symm
    · intro h i hout
      by_cases hin : ∃ j < bytes.toNat, i = blockSize * p.firstBlock + offset.toUInt64 + .ofNat j
      · obtain ⟨j, hj, rfl⟩ := hin
        exact (device.write_add src _ bytes hj).trans (h j hj hout)
      · apply device.write_of_not_mem
        intro j hj hplace
        exact hin ⟨j, hj, hplace⟩

/-- Every call of a run stays inside if each fits, in what the calls before it have left. -/
theorem stayInside_iff : StayInside blockSize device calls ↔
    ∀ before call after, calls = before ++ call :: after →
      call.Fits blockSize (run blockSize device before) := by
  induction calls generalizing device with
  | nil =>
    refine iff_of_true trivial ?_
    intro before call after h
    exact absurd h (List.append_ne_nil_of_right_ne_nil _ (List.cons_ne_nil _ _)).symm
  | cons first rest ih =>
    rw [StayInside, staysInside_iff, ih]
    constructor
    · rintro ⟨hfirst, hrest⟩ before call after h
      cases before with
      | nil =>
        cases h
        exact hfirst
      | cons other before =>
        cases h
        exact hrest before call after rfl
    · intro h
      refine ⟨h [] first rest rfl, fun before call after hcalls => ?_⟩
      exact h (first :: before) call after (by rw [hcalls, List.cons_append])

end PartitionCall

namespace StorageDevicePartition

variable {blockSize : UInt64}

/-- The size is never the number of bytes, also where there are none. -/
theorem stSize_ne_byteCount (p : StorageDevicePartition) (hblock : blockSize ≠ 0) :
    p.stSize.toInt ≠ p.byteCount blockSize := by
  have hfirst := p.firstBlock.toNat_lt
  have hlast := p.lastBlock.toNat_lt
  have hpos : 0 < blockSize.toNat := by
    apply Nat.pos_of_ne_zero
    intro h
    exact hblock (UInt64.toNat_inj.mp h)
  have hdiff := UInt64.toNat_sub p.lastBlock p.firstBlock
  have hsigned : p.stSize.toInt ≤ (p.lastBlock - p.firstBlock).toNat ∧
      (p.stSize.toInt = 0 → (p.lastBlock - p.firstBlock).toNat = 0) := by
    have hlt := (p.lastBlock - p.firstBlock).toNat_lt
    rw [stSize, ← Int64.toInt_toBitVec, UInt64.toBitVec_toInt64, BitVec.toInt_eq_toNat_cond,
      UInt64.toNat_toBitVec]
    split <;> omega
  rw [byteCount]
  by_cases hle : p.firstBlock.toNat ≤ p.lastBlock.toNat
  · -- there are more blocks than the size says
    have hbytes := Nat.mul_le_mul_right (p.lastBlock.toNat + 1 - p.firstBlock.toNat) hpos
    omega
  · rw [Nat.sub_eq_zero_of_le (by omega), Nat.mul_zero]
    intro h
    have hzero := hsigned.2 h
    omega

end StorageDevicePartition

open PartitionCall in
/-- **When calls stay inside of their partitions.** Each has to fit, in what the calls before it
have left. And `st_size` is right for no partition at all. -/
theorem stayInside_and_stSize_iff {blockSize : UInt64} (partitions : List StorageDevicePartition)
    (device : Storage) (calls : List PartitionCall) (hblock : blockSize ≠ 0) :
    (StayInside blockSize device calls ↔
      ∀ before call after, calls = before ++ call :: after →
        call.Fits blockSize (run blockSize device before)) ∧
    ((∀ p ∈ partitions, p.stSize.toInt = p.byteCount blockSize) ↔ partitions = []) := by
  refine ⟨stayInside_iff, fun h => ?_, ?_⟩
  · apply List.eq_nil_iff_forall_not_mem.mpr
    intro p hp
    exact p.stSize_ne_byteCount hblock (h p hp)
  · rintro rfl
    exact List.forall_mem_nil _

/-- The size of a partition of one block. -/
theorem stSize_oneBlock :
    ¬ ∀ p ∈ [StorageDevicePartition.mk 1 1], p.stSize.toInt = p.byteCount 512 :=
  fun h => absurd ((stayInside_and_stSize_iff _ (fun _ => 0) [] (by decide)).2.mp h)
    (List.cons_ne_nil _ _)

open PartitionCall in
/-- A write behind a partition of one block. -/
theorem not_stayInside_oneBlock :
    ¬ (StayInside 512 (fun _ => 0) [.write ⟨1, 1⟩ (fun _ => 1) 512 1] ∧
      (StorageDevicePartition.mk 1 1).stSize.toInt =
        (StorageDevicePartition.mk 1 1).byteCount 512) := by
  rintro ⟨⟨hinside, -⟩, -⟩
  have hbyte := hinside 1024 (by decide)
  exact absurd hbyte (by decide)

end Cryptix.Drivers
