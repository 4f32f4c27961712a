import Mathlib.Data.Nat.ModEq
import Mathlib.Data.UInt
import Cryptix.Lib.Bytes
import Cryptix.Lib.CopyLoop
import Cryptix.Prism

/-!
# Reading an ext2 file

`GetINodeBlock` and `ReadINode` of `Kernel/VFS/Ext2Fs/Ext2Fs.cpp`. An inode has the numbers of its
first twelve blocks, and of three blocks from which the numbers of the others are reached. The
device is a byte for each address.

`ReadINode` reads the rest of a block, then the next block, and so on. It keeps the offset within
the block in the variable that held the offset within the file, so that from the second block on it
takes the one for the other (`readINode_exact_iff`).
-/

namespace Cryptix.VFS

open Lib

/-- A block size that a superblock can have: `1024 << m_SuperBlock->BlockSize`, an `int`. -/
def ValidBlockSize (blockSize : ℕ) : Prop := ∃ k ≤ 20, blockSize = 1024 * 2 ^ k

/-- `Ext2FsINodeMeta`, as far as the bytes of a file are found with it. -/
structure Ext2FsINodeMeta where
  sizeLow : UInt32
  sizeHigh : UInt32
  blocks : ℕ → UInt32

/-- A position and one behind it in the same block. -/
theorem add_in_block {blockSize position i : ℕ} (hi : i < blockSize - position % blockSize) :
    (position + i) / blockSize = position / blockSize ∧
      (position + i) % blockSize = position % blockSize + i := by
  have hpos : 0 < blockSize := by omega
  have hsplit := Nat.div_add_mod position blockSize
  constructor
  · rw [Nat.div_eq_iff hpos]
    constructor <;> rw [Nat.mul_comm] <;> omega
  · rw [Nat.add_mod, Nat.mod_eq_of_lt (show i < blockSize by omega)]
    exact Nat.mod_eq_of_lt (by omega)

namespace Ext2FsINodeMeta

variable (node : Ext2FsINodeMeta)

/-- `GetSize`. -/
def getSize : ℕ := node.sizeLow.toNat ||| node.sizeHigh.toNat <<< 32

/-- `SetSize`. -/
def setSize (size : ℕ) : Ext2FsINodeMeta :=
  { node with sizeLow := UInt32.ofNat size, sizeHigh := UInt32.ofNat (size >>> 32) }

/-- `Blocks[i]`. -/
def block (i : ℕ) : ℕ := (node.blocks i).toNat

theorem getSize_setSize {size : ℕ} (h : size < 2 ^ 64) : (node.setSize size).getSize = size := by
  have hlow : size % 2 ^ 32 < 2 ^ 32 := Nat.mod_lt _ (by decide)
  have hhigh : size >>> 32 % 2 ^ 32 = size / 2 ^ 32 := by
    rw [Nat.shiftRight_eq_div_pow]
    exact Nat.mod_eq_of_lt (by omega)
  rw [getSize, setSize, UInt32.toNat_ofNat', UInt32.toNat_ofNat', hhigh, Nat.or_comm,
    ← Nat.shiftLeft_add_eq_or_of_lt hlow, Nat.shiftLeft_eq]
  omega

end Ext2FsINodeMeta

variable (blockSize : ℕ) (device : ℕ → UInt8) (node : Ext2FsINodeMeta)

/-- `m_Device->Read(&x, address, sizeof(u32))`. -/
def readU32 (address : ℕ) : ℕ := readLE device address 4

/-- `GetINodeBlock`. The index is a `u32`, as is a number of a block times 4. -/
def getINodeBlock (blockIndex : ℕ) : ℕ :=
  let blockLevel := blockSize / 4
  if blockIndex < 12 then node.block blockIndex
  else
    let blockIndex := blockIndex - 12
    if blockIndex ≥ blockLevel then
      let blockIndex := blockIndex - blockLevel
      let singleIndex := blockIndex / blockLevel
      let indirectOffset := blockIndex % blockLevel
      if singleIndex ≥ blockLevel then
        let blockIndex := blockIndex - blockLevel * blockLevel
        let doubleIndirect := blockIndex / blockLevel
        let indirectOffset := blockIndex % blockLevel
        let singleIndirectIndex := readU32 device (node.block 14 * blockSize + doubleIndirect * 4)
        let indirectBlock :=
          readU32 device (doubleIndirect * blockSize + singleIndirectIndex * 4 % 2 ^ 32)
        readU32 device (indirectBlock * blockSize + indirectOffset * 4)
      else
        let indirectBlock := readU32 device (node.block 13 * blockSize + singleIndex * 4)
        readU32 device (indirectBlock * blockSize + indirectOffset * 4)
    else readU32 device (node.block 12 * blockSize + blockIndex * 4)

/-- The loop of `ReadINode`. -/
def readBlocks (bytes : ℕ) : ℕ → ℕ → ℕ → (ℕ → UInt8) → Option (ℕ → UInt8)
  | 0, _, head, out => if head < bytes then none else some out
  | fuel + 1, offset, head, out =>
    if head < bytes then
      let blockIndex := (offset + head) % wordCount / blockSize
      let size := bytes - head
      let offset := (offset + head) % wordCount % blockSize
      let size := if size > blockSize - offset then blockSize - offset else size
      let block := getINodeBlock blockSize device node (blockIndex % 2 ^ 32)
      let out := overlay head size (fun i => device (block * blockSize + offset + i)) out
      readBlocks bytes fuel offset (head + size) out
    else some out

/-- `ReadINode`, with the offset as an `usize`. Every turn of the loop reads a byte at least. -/
def readINode (out : ℕ → UInt8) (offset bytes : ℕ) : Option (ℕ × (ℕ → UInt8)) :=
  if offset > node.getSize then some (0, out)
  else
    let bytes :=
      if (offset + bytes) % wordCount > node.getSize then node.getSize - offset else bytes
    (readBlocks blockSize device node bytes bytes offset 0 out).map fun out => (bytes, out)

/-! ## The bytes of a file -/

/-- A byte of the file: its blocks one after the other, in the order of `GetINodeBlock`. -/
def fileByte (position : ℕ) : UInt8 :=
  device (getINodeBlock blockSize device node (position / blockSize % 2 ^ 32) * blockSize +
    position % blockSize)

/-- The number of bytes a file has from an offset on, up to a limit. -/
def available (size offset bytes : ℕ) : ℕ := min (offset + bytes) size - offset

/-- What reading a file should do. -/
def ReadsFile (out : ℕ → UInt8) (offset bytes : ℕ) : Prop :=
  readINode blockSize device node out offset bytes =
    some (available node.getSize offset bytes,
      overlay 0 (available node.getSize offset bytes)
        (fun i => fileByte blockSize device node (offset + i)) out)

/-- What is read ends in the block it begins in, or begins with the first block, or begins in the
first block and ends in the second. Blocks are counted modulo `2 ^ 32`, as `GetINodeBlock` does. -/
def NeedsNoOffset (offset count : ℕ) : Prop :=
  count ≤ blockSize - offset % blockSize ∨ offset % (2 ^ 32 * blockSize) = 0 ∨
    offset % (2 ^ 32 * blockSize) < blockSize ∧ count ≤ 2 * blockSize - offset % blockSize

variable {blockSize device node} {bytes offset head fuel : ℕ} {out out' : ℕ → UInt8}

theorem ValidBlockSize.bounds (h : ValidBlockSize blockSize) :
    1024 ≤ blockSize ∧ blockSize ≤ 2 ^ 30 ∧ blockSize / 4 * 4 = blockSize := by
  obtain ⟨k, hk, rfl⟩ := h
  have hone : 1 ≤ 2 ^ k := Nat.one_le_two_pow
  have hmax : 2 ^ k ≤ 2 ^ 20 := Nat.pow_le_pow_right (by decide) hk
  omega

/-! ## One turn of the loop -/

theorem fileByte_add {position i : ℕ} (hi : i < blockSize - position % blockSize) :
    fileByte blockSize device node (position + i) =
      device (getINodeBlock blockSize device node (position / blockSize % 2 ^ 32) * blockSize +
        position % blockSize + i) := by
  obtain ⟨hdiv, hmod⟩ := add_in_block hi
  rw [fileByte, hdiv, hmod, Nat.add_assoc]

/-- A file repeats itself after `2 ^ 32` blocks. -/
theorem fileByte_congr {p q : ℕ} (h : p % (2 ^ 32 * blockSize) = q % (2 ^ 32 * blockSize)) :
    fileByte blockSize device node p = fileByte blockSize device node q := by
  have hdiv : p / blockSize % 2 ^ 32 = q / blockSize % 2 ^ 32 := by
    rw [← Nat.mod_mul_left_div_self, h, Nat.mod_mul_left_div_self]
  have hmod : p % blockSize = q % blockSize := by
    rw [← Nat.mod_mul_left_mod p (2 ^ 32), h, Nat.mod_mul_left_mod]
  rw [fileByte, fileByte, hdiv, hmod]

/-- A turn copies the bytes that the file has from `offset + head` on, up to the end of a block. -/
theorem readBlocks_succ (hhead : head < bytes) (hposition : offset + head < wordCount) :
    readBlocks blockSize device node bytes (fuel + 1) offset head out =
      readBlocks blockSize device node bytes fuel ((offset + head) % blockSize)
        (head + min (bytes - head) (blockSize - (offset + head) % blockSize))
        (overlay head (min (bytes - head) (blockSize - (offset + head) % blockSize))
          (fun i => fileByte blockSize device node (offset + head + i)) out) := by
  have hsize : ∀ room, (if bytes - head > room then room else bytes - head) =
      min (bytes - head) room := by
    intro room
    split <;> omega
  rw [readBlocks, if_pos hhead, Nat.mod_eq_of_lt hposition]
  simp only [hsize]
  congr 1
  refine overlay_congr (fun i hi => ?_) fun _ _ => rfl
  rw [fileByte_add (by omega)]

theorem readBlocks_of_le (h : bytes ≤ head) :
    readBlocks blockSize device node bytes fuel offset head out = some out := by
  cases fuel with
  | zero => exact if_neg (by omega)
  | succ fuel => exact if_neg (by omega)

/-! ## What is read as it should be -/

/-- A read within one block. -/
theorem readBlocks_within (hwithin : bytes ≤ blockSize - offset % blockSize)
    (hoffset : offset < wordCount) (hfuel : bytes ≤ fuel) :
    readBlocks blockSize device node bytes fuel offset 0 out =
      some (overlay 0 bytes (fun i => fileByte blockSize device node (offset + i)) out) := by
  by_cases hempty : bytes = 0
  · rw [readBlocks_of_le hempty.le, hempty, overlay_zero]
  · obtain ⟨turns, rfl⟩ : ∃ turns, fuel = turns + 1 := Nat.exists_eq_succ_of_ne_zero (by omega)
    rw [readBlocks_succ (by omega) hoffset]
    simp only [Nat.add_zero, Nat.zero_add, Nat.sub_zero, Nat.min_eq_left hwithin]
    rw [readBlocks_of_le le_rfl]

theorem fileByte_add_aligned {i : ℕ} (h : offset % (2 ^ 32 * blockSize) = 0) :
    fileByte blockSize device node (offset + i) = fileByte blockSize device node i := by
  refine fileByte_congr ?_
  rw [Nat.add_mod, h, Nat.zero_add, Nat.mod_mod]

/-- A read from the start of the file, or from a multiple of `2 ^ 32` blocks. -/
theorem readBlocks_aligned (hblock : 0 < blockSize) (hbytes : offset + bytes ≤ wordCount)
    (hoffset : offset % (2 ^ 32 * blockSize) = 0) (hhead : head % blockSize = 0 ∨ head = bytes)
    (hle : head ≤ bytes) (hfuel : bytes - head ≤ fuel) :
    readBlocks blockSize device node bytes fuel offset head
        (overlay 0 head (fileByte blockSize device node) out) =
      some (overlay 0 bytes (fileByte blockSize device node) out) := by
  -- the offset is 0 from the second turn on
  induction fuel generalizing offset head with
  | zero =>
    obtain rfl : head = bytes := by omega
    exact readBlocks_of_le le_rfl
  | succ fuel ih =>
    by_cases hend : head = bytes
    · subst hend
      exact readBlocks_of_le le_rfl
    · have hstart : offset % blockSize = 0 := by
        rw [← Nat.mod_mul_left_mod offset (2 ^ 32), hoffset, Nat.zero_mod]
      have hzero : (offset + head) % blockSize = 0 := by
        rw [Nat.add_mod, hstart, hhead.resolve_right hend]
        exact Nat.zero_mod _
      rw [readBlocks_succ (by omega) (by omega), hzero, Nat.sub_zero]
      set size := min (bytes - head) blockSize with hsize
      have hnext := overlay_append 0 head size (fileByte blockSize device node) out
      rw [Nat.zero_add] at hnext
      simp only [Nat.add_assoc offset, fileByte_add_aligned hoffset, hnext]
      refine ih (by omega) (Nat.zero_mod _) ?_ (by omega) (by omega)
      by_cases hlast : bytes - head ≤ blockSize
      · right
        omega
      · left
        rw [hsize, Nat.min_eq_right (by omega), Nat.add_mod_right]
        exact hhead.resolve_right hend

/-- A read that begins in the first block and ends in the second. -/
theorem readBlocks_two (hbytes : offset + bytes ≤ wordCount) (hblock : 0 < blockSize)
    (hoffset : offset % (2 ^ 32 * blockSize) < blockSize)
    (hlong : blockSize - offset % blockSize < bytes)
    (htwo : bytes ≤ 2 * blockSize - offset % blockSize) (hfuel : bytes ≤ fuel) :
    readBlocks blockSize device node bytes fuel offset 0 out =
      some (overlay 0 bytes (fun i => fileByte blockSize device node (offset + i)) out) := by
  have hstart : offset % (2 ^ 32 * blockSize) = offset % blockSize :=
    (Nat.mod_eq_of_lt hoffset).symm.trans (Nat.mod_mul_left_mod offset (2 ^ 32) blockSize)
  have hlt : offset % blockSize < blockSize := Nat.mod_lt _ hblock
  have hle : offset % blockSize ≤ offset := Nat.mod_le _ _
  have hsame : ∀ i, fileByte blockSize device node (offset + (blockSize - offset % blockSize + i)) =
      fileByte blockSize device node (blockSize + i) := by
    intro i
    have hmod : offset ≡ offset % blockSize [MOD 2 ^ 32 * blockSize] := by
      rw [Nat.ModEq, ← hstart, Nat.mod_mod]
    refine fileByte_congr ((hmod.add_right _).trans (congrArg (· % (2 ^ 32 * blockSize)) ?_))
    omega
  obtain ⟨turns, rfl⟩ : ∃ turns, fuel = turns + 1 + 1 := ⟨fuel - 2, by omega⟩
  have hsecond : offset % blockSize + (blockSize - offset % blockSize) = blockSize := by omega
  rw [readBlocks_succ (by omega) (by omega)]
  simp only [Nat.add_zero, Nat.zero_add, Nat.sub_zero, Nat.min_eq_right hlong.le]
  rw [readBlocks_succ hlong (by omega), hsecond, Nat.mod_self, Nat.sub_zero,
    Nat.min_eq_left (by omega), readBlocks_of_le (by omega)]
  have hjoin := overlay_append 0 (blockSize - offset % blockSize)
    (bytes - (blockSize - offset % blockSize))
    (fun i => fileByte blockSize device node (offset + i)) out
  simp only [Nat.zero_add, hsame, Nat.add_sub_cancel' hlong.le] at hjoin
  rw [hjoin]

/-- Any read that needs no offset in the file from the second turn on. -/
theorem readBlocks_of_needsNoOffset (hblock : 0 < blockSize) (hbytes : offset + bytes < wordCount)
    (hfuel : bytes ≤ fuel) (h : NeedsNoOffset blockSize offset bytes) :
    readBlocks blockSize device node bytes fuel offset 0 out =
      some (overlay 0 bytes (fun i => fileByte blockSize device node (offset + i)) out) := by
  by_cases hwithin : bytes ≤ blockSize - offset % blockSize
  · exact readBlocks_within hwithin (by omega) hfuel
  · rcases h with hshort | haligned | ⟨hfirst, htwo⟩
    · exact absurd hshort hwithin
    · have hread : readBlocks blockSize device node bytes fuel offset 0 (overlay 0 0 _ out) = _ :=
        readBlocks_aligned hblock hbytes.le haligned (Or.inl (Nat.zero_mod _)) (Nat.zero_le bytes)
          hfuel
      rw [overlay_zero] at hread
      simp only [fileByte_add_aligned haligned, hread]
    · exact readBlocks_two hbytes.le hblock hfirst (by omega) htwo hfuel

/-! ## What is read from the wrong place -/

/-- The turns after an entry has been written leave it alone. -/
theorem readBlocks_of_lt {i : ℕ}
    (h : readBlocks blockSize device node bytes fuel offset head out = some out') (hi : i < head) :
    out' i = out i := by
  induction fuel generalizing offset head out with
  | zero =>
    rw [readBlocks] at h
    split at h
    · cases h
    · exact congrFun (Option.some.inj h).symm i
  | succ fuel ih =>
    rw [readBlocks] at h
    split at h
    · exact (ih h (by omega)).trans (overlay_of_not_mem _ _ (Or.inl hi))
    · exact congrFun (Option.some.inj h).symm i

/-- The first entry of a turn. -/
theorem readBlocks_first (hblock : 0 < blockSize) (hposition : offset + head < wordCount)
    (h : readBlocks blockSize device node bytes fuel offset head out = some out')
    (hhead : head < bytes) :
    out' head = fileByte blockSize device node (offset + head) := by
  have hroom : (offset + head) % blockSize < blockSize := Nat.mod_lt _ hblock
  cases fuel with
  | zero =>
    rw [readBlocks, if_pos hhead] at h
    cases h
  | succ fuel =>
    rw [readBlocks_succ hhead hposition] at h
    rw [readBlocks_of_lt h (by omega)]
    exact overlay_of_mem head _ _ (show 0 < _ by omega)

/-- A file of which one block is elsewhere than the others, and a device that is zero but for the
first byte of that block. -/
def markedNode (k : ℕ) : Ext2FsINodeMeta where
  sizeLow := 0
  sizeHigh := 0
  blocks i := if i = k then UInt32.ofNat (2 ^ 32 - 1) else 0

/-- The device of `markedNode`. -/
def markedDevice (blockSize address : ℕ) : UInt8 :=
  if address = (2 ^ 32 - 1) * blockSize then 1 else 0

theorem readU32_markedDevice {address : ℕ} (h : address + 4 ≤ (2 ^ 32 - 1) * blockSize) :
    readU32 (markedDevice blockSize) address = 0 := by
  have hzero : ∀ i < 4, markedDevice blockSize (address + i) = 0 := fun i hi => if_neg (by omega)
  exact (readLE_congr hzero).trans (b := readLE (fun _ => 0) 0 4) rfl

/-- The marked block is the only one that `GetINodeBlock` finds. -/
theorem getINodeBlock_marked (hsize : ValidBlockSize blockSize) (size : ℕ) {k j : ℕ} (hk : k < 12)
    (hj : j < 2 ^ 32) :
    getINodeBlock blockSize (markedDevice blockSize) ((markedNode k).setSize size) j =
      if j = k then 2 ^ 32 - 1 else 0 := by
  obtain ⟨hmin, -, hlevel⟩ := hsize.bounds
  set node := (markedNode k).setSize size
  have hblock : ∀ i, node.block i = if i = k then 2 ^ 32 - 1 else 0 := by
    intro i
    by_cases hi : i = k
    · rw [if_pos hi]
      exact congrArg UInt32.toNat (if_pos hi)
    · rw [if_neg hi]
      exact congrArg UInt32.toNat (if_neg hi)
  by_cases hdirect : j < 12
  · simp only [getINodeBlock, if_pos hdirect, hblock]
  · rw [if_neg (by omega : j ≠ k)]
    have hzero : ∀ i, 12 ≤ i → node.block i = 0 := fun i hi =>
      (hblock i).trans (if_neg (by omega))
    simp only [getINodeBlock, if_neg hdirect, hzero _ (show 12 ≤ 12 by omega),
      hzero _ (show 12 ≤ 13 by omega), hzero _ (show 12 ≤ 14 by omega), Nat.zero_mul, Nat.zero_add]
    set level := blockSize / 4
    -- every word that is read is in a block before the marked one
    have hword : ∀ x < level, readU32 (markedDevice blockSize) (x * 4) = 0 := fun x hx =>
      readU32_markedDevice (by omega)
    have hmod : ∀ x, x % level < level := fun x => Nat.mod_lt x (by omega)
    split
    · split
      · set outer := (j - 12 - level - level * level) / level
        have houter : outer + 1 ≤ 2 ^ 32 - 1 := by
          have := Nat.div_le_self (j - 12 - level - level * level) level
          omega
        have hbelow := Nat.mul_le_mul_right blockSize houter
        rw [Nat.add_mul, Nat.one_mul] at hbelow
        rw [readU32_markedDevice (show outer * 4 + 4 ≤ _ by omega), Nat.zero_mul, Nat.zero_mod,
          Nat.add_zero, readU32_markedDevice (show outer * blockSize + 4 ≤ _ by omega),
          Nat.zero_mul, Nat.zero_add, hword _ (hmod _)]
      · rw [hword _ (by omega), Nat.zero_mul, Nat.zero_add, hword _ (hmod _)]
    · rw [hword _ (by omega)]

/-- The first bytes of the blocks of the marked file. -/
theorem fileByte_marked (hsize : ValidBlockSize blockSize) (size : ℕ) {k p : ℕ} (hk : k < 12) :
    fileByte blockSize (markedDevice blockSize) ((markedNode k).setSize size) p =
      if p / blockSize % 2 ^ 32 = k ∧ p % blockSize = 0 then 1 else 0 := by
  have hmin := hsize.bounds.1
  have hlt : p % blockSize < blockSize := Nat.mod_lt _ (by omega)
  rw [fileByte, getINodeBlock_marked hsize size hk (Nat.mod_lt _ (by decide)), markedDevice]
  refine if_congr ?_ rfl rfl
  split
  · rename_i hj
    exact ⟨fun h => ⟨hj, by omega⟩, fun h => by omega⟩
  · rename_i hj
    exact ⟨fun h => by omega, fun h => absurd h.1 hj⟩

/-! ## Which reads are right -/

/-- A read of some bytes of the file. -/
theorem readsFile_iff (hoffset : offset ≤ node.getSize) (hsum : offset + bytes < wordCount) :
    ReadsFile blockSize device node out offset bytes ↔
      readBlocks blockSize device node (available node.getSize offset bytes)
        (available node.getSize offset bytes) offset 0 out =
      some (overlay 0 (available node.getSize offset bytes)
        (fun i => fileByte blockSize device node (offset + i)) out) := by
  have hcount : (if (offset + bytes) % wordCount > node.getSize then node.getSize - offset
      else bytes) = available node.getSize offset bytes := by
    rw [Nat.mod_eq_of_lt hsum, available]
    split <;> omega
  rw [ReadsFile, readINode, if_neg (by omega), hcount, Option.map_eq_some_iff]
  simp only [Prod.mk.injEq, true_and, exists_eq_right]

/-- Behind the end of the file nothing is read. -/
theorem readsFile_of_size_lt (h : node.getSize < offset) :
    ReadsFile blockSize device node out offset bytes := by
  have hnone : available node.getSize offset bytes = 0 := by
    rw [available]
    omega
  rw [ReadsFile, readINode, if_pos h, hnone, overlay_zero]

/-- When the end of the read does not fit in a word, its length is not cut. -/
theorem not_readsFile_of_wraps (hoffset : offset ≤ node.getSize)
    (hsize : node.getSize < wordCount) (hbytes : bytes < wordCount)
    (hsum : wordCount ≤ offset + bytes) : ¬ ReadsFile blockSize device node out offset bytes := by
  intro h
  have hwrap : (offset + bytes) % wordCount = offset + bytes - wordCount := by
    rw [Nat.mod_eq_sub_mod hsum, Nat.mod_eq_of_lt (by omega)]
  rw [ReadsFile, readINode, if_neg (by omega), hwrap, if_neg (by omega),
    Option.map_eq_some_iff] at h
  obtain ⟨_, -, hpair⟩ := h
  have hcount : bytes = available node.getSize offset bytes := congrArg Prod.fst hpair
  rw [available] at hcount
  omega

/-- The second turn reads the block after the first one of the file. -/
theorem fileByte_of_second {count : ℕ} (hblock : 0 < blockSize) (hsum : offset + count < wordCount)
    (hlong : blockSize - offset % blockSize < count)
    (h : readBlocks blockSize device node count count offset 0 out =
      some (overlay 0 count (fun i => fileByte blockSize device node (offset + i)) out)) :
    fileByte blockSize device node blockSize =
      fileByte blockSize device node (offset + (blockSize - offset % blockSize)) := by
  have hlt : offset % blockSize < blockSize := Nat.mod_lt _ hblock
  have hle : offset % blockSize ≤ offset := Nat.mod_le _ _
  have hsecond : offset % blockSize + (blockSize - offset % blockSize) = blockSize := by omega
  have hread := overlay_of_mem 0 (fun i => fileByte blockSize device node (offset + i)) out hlong
  obtain ⟨turns, hturns⟩ : ∃ turns, count = turns + 1 := Nat.exists_eq_succ_of_ne_zero (by omega)
  nth_rewrite 2 [hturns] at h
  rw [readBlocks_succ (by omega) (by omega)] at h
  simp only [Nat.add_zero, Nat.zero_add, Nat.sub_zero, Nat.min_eq_right hlong.le] at h hread
  rw [← hread, readBlocks_first hblock (by omega) h hlong, hsecond]

/-- The third turn takes the offset for one in the file. -/
theorem fileByte_of_third {count : ℕ} (hblock : 0 < blockSize) (hsum : offset + count < wordCount)
    (hlong : 2 * blockSize - offset % blockSize < count)
    (h : readBlocks blockSize device node count count offset 0 out =
      some (overlay 0 count (fun i => fileByte blockSize device node (offset + i)) out)) :
    fileByte blockSize device node (2 * blockSize - offset % blockSize) =
      fileByte blockSize device node (offset + (2 * blockSize - offset % blockSize)) := by
  have hlt : offset % blockSize < blockSize := Nat.mod_lt _ hblock
  have hle : offset % blockSize ≤ offset := Nat.mod_le _ _
  have hsecond : offset % blockSize + (blockSize - offset % blockSize) = blockSize := by omega
  have hthird : blockSize - offset % blockSize + blockSize =
      2 * blockSize - offset % blockSize := by omega
  have hread := overlay_of_mem 0 (fun i => fileByte blockSize device node (offset + i)) out hlong
  obtain ⟨turns, hturns⟩ : ∃ turns, count = turns + 1 + 1 := ⟨count - 2, by omega⟩
  nth_rewrite 2 [hturns] at h
  rw [readBlocks_succ (by omega) (by omega)] at h
  simp only [Nat.add_zero, Nat.zero_add, Nat.sub_zero,
    Nat.min_eq_right (show blockSize - offset % blockSize ≤ count by omega)] at h hread
  rw [readBlocks_succ (by omega) (by omega), hsecond, Nat.mod_self, Nat.sub_zero,
    Nat.min_eq_right (by omega), hthird] at h
  rw [← hread, readBlocks_first hblock (by omega) h hlong, Nat.zero_add]

/-- The marked files tell whether a read needs the offset. -/
theorem needsNoOffset_of_marked {size count : ℕ} (hblock : ValidBlockSize blockSize)
    (hsum : offset + count < wordCount)
    (h : ∀ k, readBlocks blockSize (markedDevice blockSize) ((markedNode k).setSize size) count
      count offset 0 out = some (overlay 0 count (fun i => fileByte blockSize
        (markedDevice blockSize) ((markedNode k).setSize size) (offset + i)) out)) :
    NeedsNoOffset blockSize offset count := by
  have hmin := hblock.bounds.1
  have hpos : 0 < blockSize := by omega
  have hlt : offset % blockSize < blockSize := Nat.mod_lt _ hpos
  have hdiv := Nat.div_add_mod offset blockSize
  by_contra hneeds
  rw [NeedsNoOffset] at hneeds
  have hindex : offset / blockSize % 2 ^ 32 = offset % (2 ^ 32 * blockSize) / blockSize :=
    (Nat.mod_mul_left_div_self offset blockSize (2 ^ 32)).symm
  -- where the turns should read: at the start of a block
  have hright : ∀ n, offset + (n * blockSize - offset % blockSize) =
      blockSize * (offset / blockSize + n) ∨ n = 0 := by
    intro n
    rcases Nat.eq_zero_or_pos n with hzero | hn
    · exact Or.inr hzero
    · have hle : blockSize ≤ n * blockSize := Nat.le_mul_of_pos_left _ hn
      rw [Nat.mul_add, Nat.mul_comm blockSize n]
      omega
  by_cases hfirst : offset % (2 ^ 32 * blockSize) < blockSize
  · have hthird := fileByte_of_third hpos hsum (by omega) (h 2)
    have hstart : offset % blockSize ≠ 0 := by
      rw [← Nat.mod_mul_left_mod offset (2 ^ 32), Nat.mod_eq_of_lt hfirst]
      tauto
    have hleft : (2 * blockSize - offset % blockSize) / blockSize = 1 := by
      rw [Nat.div_eq_iff hpos]
      omega
    rw [Nat.div_eq_of_lt hfirst] at hindex
    rw [(hright 2).resolve_right (by decide), fileByte_marked hblock _ (by decide),
      fileByte_marked hblock _ (by decide), if_neg (by omega), Nat.mul_div_cancel_left _ hpos,
      if_pos ⟨by omega, Nat.mul_mod_right _ _⟩] at hthird
    exact absurd hthird (by decide)
  · have hsecond := fileByte_of_second hpos hsum (by omega) (h 1)
    have hblocks : 0 < offset % (2 ^ 32 * blockSize) / blockSize :=
      Nat.div_pos (not_lt.mp hfirst) hpos
    have hmax : offset / blockSize % 2 ^ 32 < 2 ^ 32 := Nat.mod_lt _ (by decide)
    have hone := (hright 1).resolve_right (by decide)
    rw [Nat.one_mul] at hone
    rw [hone, fileByte_marked hblock _ (by decide), fileByte_marked hblock _ (by decide),
      Nat.div_self hpos, if_pos ⟨rfl, Nat.mod_self _⟩, Nat.mul_div_cancel_left _ hpos,
      if_neg (by omega)] at hsecond
    exact absurd hsecond (by decide)

/-- **Which reads are right.** Whatever the file and the device hold, `ReadINode` reads what it
should exactly when the offset is behind the end of the file, or the end of the read fits in a word
and no turn but the first needs the offset in the file. -/
theorem readINode_exact_iff {size : ℕ} (hblock : ValidBlockSize blockSize) (hsize : size < 2 ^ 64)
    (hoffset : offset < 2 ^ 64) (hbytes : bytes < 2 ^ 64) :
    (∀ device node out, node.getSize = size →
      ReadsFile blockSize device node out offset bytes) ↔
      size < offset ∨ offset + bytes < 2 ^ 64 ∧
        NeedsNoOffset blockSize offset (available size offset bytes) := by
  have hpos : 0 < blockSize := by
    have := hblock.bounds.1
    omega
  constructor
  · intro h
    by_contra hcond
    have hle : offset ≤ size := by
      by_contra hpast
      exact hcond (Or.inl (by omega))
    have hmarked : ∀ k, ((markedNode k).setSize size).getSize = size :=
      fun k => (markedNode k).getSize_setSize hsize
    by_cases hsum : offset + bytes < 2 ^ 64
    · have hneeds : ¬ NeedsNoOffset blockSize offset (available size offset bytes) :=
        fun hneeds => hcond (Or.inr ⟨hsum, hneeds⟩)
      have hcount : offset + available size offset bytes < wordCount := by
        rw [available, wordCount]
        omega
      have hread : ∀ k, readBlocks blockSize (markedDevice blockSize) ((markedNode k).setSize size)
          (available size offset bytes) (available size offset bytes) offset 0 (fun _ => 0) = _ :=
        fun k => hmarked k ▸ (readsFile_iff ((hmarked k).symm ▸ hle) hsum).mp
          (h (markedDevice blockSize) _ (fun _ => 0) (hmarked k))
      exact hneeds (needsNoOffset_of_marked hblock hcount hread)
    · exact not_readsFile_of_wraps ((hmarked 0).symm ▸ hle) ((hmarked 0).symm ▸ hsize) hbytes
        (not_lt.mp hsum) (h (fun _ => 0) _ (fun _ => 0) (hmarked 0))
  · rintro (hpast | ⟨hsum, hneeds⟩) device node out rfl
    · exact readsFile_of_size_lt hpast
    · by_cases hpast : node.getSize < offset
      · exact readsFile_of_size_lt hpast
      · refine (readsFile_iff (by omega) hsum).mpr
          (readBlocks_of_needsNoOffset hpos ?_ le_rfl hneeds)
        have : available node.getSize offset bytes ≤ bytes := by
          rw [available]
          omega
        exact (Nat.add_le_add_left this offset).trans_lt hsum

/-- A file of three blocks, read from its second block on. -/
theorem readINode_exact_iff_threeBlocks :
    (∀ device node out, node.getSize = 3072 → ReadsFile 1024 device node out 1024 2048) ↔
      3072 < 1024 ∨ 1024 + 2048 < 2 ^ 64 ∧ NeedsNoOffset 1024 1024 (available 3072 1024 2048) :=
  readINode_exact_iff ⟨0, by decide, by decide⟩ (by decide) (by decide) (by decide)

/-- Of such a file the second block is read twice. -/
theorem not_readsFile_threeBlocks : ¬ ReadsFile 1024 (markedDevice 1024)
    ((markedNode 1).setSize 3072) (fun _ => 0) 1024 2048 := by
  have hblock : ValidBlockSize 1024 := ⟨0, by decide, by decide⟩
  have hsize : ((markedNode 1).setSize 3072).getSize = 3072 :=
    (markedNode 1).getSize_setSize (by decide)
  intro h
  rw [readsFile_iff (by rw [hsize]; decide) (by decide), hsize] at h
  have hsecond := fileByte_of_second (by decide) (by decide) (by decide) h
  rw [fileByte_marked hblock _ (by decide), fileByte_marked hblock _ (by decide)] at hsecond
  exact absurd hsecond (by decide)

end Cryptix.VFS
