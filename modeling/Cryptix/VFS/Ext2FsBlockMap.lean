import Cryptix.VFS.Ext2FsBlocks

/-!
# Setting the blocks of an ext2 file

`SetINodeBlock` of `Kernel/VFS/Ext2Fs/Ext2Fs.cpp` beside `GetINodeBlock`. Both find the word with
the number of a block; where an index block on the way is missing, `SetINodeBlock` makes one.

A new index block keeps what it held before, so that the other blocks below it change. In the
triple indirect range neither function follows the index: `GetINodeBlock` reads the second word from
the block whose number is an index, and `SetINodeBlock` writes the entry at a product. What is left
are the entries whose index blocks exist, where no lookup strays to them (`setINodeBlock_sets_iff`).

`AllocateBlock` and `WriteINodeEntry` are parameters: the one takes a block of the volume, the other
stores the inode in the inode table.
-/

namespace Cryptix.VFS

open Lib

/-- An inode and the device it is on. -/
structure Ext2FsState where
  node : Ext2FsINodeMeta
  device : ℕ → UInt8

/-- `AllocateBlock` and `WriteINodeEntry`. -/
structure Ext2FsCalls where
  allocateBlock : Ext2FsState → ℕ × Ext2FsState
  writeINodeEntry : Ext2FsState → Ext2FsState

namespace Ext2FsState

/-- `m_Device->Write(&value, address, sizeof(u32))`. -/
def writeU32 (s : Ext2FsState) (address value : ℕ) : Ext2FsState :=
  { s with device := writeLE s.device address 4 value }

/-- `meta.Blocks[k] = block`. -/
def setBlock (s : Ext2FsState) (k block : ℕ) : Ext2FsState :=
  { s with node := { s.node with
    blocks := Function.update s.node.blocks k (UInt32.ofNat block) } }

/-- `GetINodeBlock`. -/
def getINodeBlock (s : Ext2FsState) (blockSize blockIndex : ℕ) : ℕ :=
  VFS.getINodeBlock blockSize s.device s.node blockIndex

variable (calls : Ext2FsCalls)

/-- Makes `Blocks[k]` if it is missing. -/
def assignRoot (k : ℕ) (s : Ext2FsState) : Ext2FsState :=
  if s.node.block k = 0 then
    let block := calls.allocateBlock s
    calls.writeINodeEntry (block.2.setBlock k block.1)
  else s

/-- Reads a word of an index block, and makes the block it is the number of if that is missing. -/
def assignEntry (address : ℕ) (s : Ext2FsState) : ℕ × Ext2FsState :=
  let entry := readU32 s.device address
  if entry = 0 then
    let block := calls.allocateBlock s
    (block.1 % 2 ^ 32, block.2.writeU32 address block.1)
  else (entry, s)

/-- `SetINodeBlock`. -/
def setINodeBlock (blockSize iblock dblock : ℕ) (s : Ext2FsState) : Ext2FsState :=
  let blockLevel := blockSize / 4
  if iblock < 12 then s.setBlock iblock dblock
  else
    let iblock := iblock - 12
    if iblock ≥ blockLevel then
      let iblock := iblock - blockLevel
      let singleIndex := iblock / blockLevel
      let indirectOffset := iblock % blockLevel
      if singleIndex ≥ blockLevel then
        let iblock := iblock - blockLevel * blockLevel
        let doubleIndirect := iblock / blockLevel
        let indirectOffset := iblock % blockLevel
        let s := assignRoot calls 14 s
        let single := assignEntry calls (s.node.block 14 * blockSize + doubleIndirect * 4) s
        let address := doubleIndirect * blockSize + single.1 * 4 % 2 ^ 32
        let indirectBlock := readU32 single.2.device address
        let indirect :=
          if indirectBlock = 0 then
            let newBlock := calls.allocateBlock single.2
            -- what is written is the zero that was read
            (newBlock.1 % 2 ^ 32, newBlock.2.writeU32 address indirectBlock)
          else (indirectBlock, single.2)
        indirect.2.writeU32 (indirect.1 * blockSize * indirectOffset * 4 % wordCount) dblock
      else
        let s := assignRoot calls 13 s
        let indirect := assignEntry calls (s.node.block 13 * blockSize + singleIndex * 4) s
        indirect.2.writeU32 (indirect.1 * blockSize + indirectOffset * 4) dblock
    else
      let s := assignRoot calls 12 s
      s.writeU32 (s.node.block 12 * blockSize + iblock * 4) dblock

end Ext2FsState

/-! ## Where the entries are -/

/-- The number of indices in the four ranges, as far as a `u32` counts them. -/
def indexCount (blockSize : ℕ) : ℕ :=
  min (12 + blockSize / 4 + (blockSize / 4) ^ 2 + (blockSize / 4) ^ 3) (2 ^ 32)

namespace Ext2FsState

variable (s : Ext2FsState) (blockSize : ℕ)

/-- The words that `GetINodeBlock` reads from the device, in order. -/
def lookups (blockIndex : ℕ) : List ℕ :=
  let blockLevel := blockSize / 4
  if blockIndex < 12 then []
  else
    let blockIndex := blockIndex - 12
    if blockIndex ≥ blockLevel then
      let blockIndex := blockIndex - blockLevel
      let singleIndex := blockIndex / blockLevel
      let indirectOffset := blockIndex % blockLevel
      if singleIndex ≥ blockLevel then
        let blockIndex := blockIndex - blockLevel * blockLevel
        let doubleIndirect := blockIndex / blockLevel
        let indirectOffset := blockIndex % blockLevel
        let first := s.node.block 14 * blockSize + doubleIndirect * 4
        let second := doubleIndirect * blockSize + readU32 s.device first * 4 % 2 ^ 32
        [first, second, readU32 s.device second * blockSize + indirectOffset * 4]
      else
        let first := s.node.block 13 * blockSize + singleIndex * 4
        [first, readU32 s.device first * blockSize + indirectOffset * 4]
    else [s.node.block 12 * blockSize + blockIndex * 4]

/-- The word with the number of a block, in an index block that exists. -/
inductive HasEntry : ℕ → ℕ → Prop
  | single {k : ℕ} : k < blockSize / 4 → s.node.block 12 ≠ 0 →
    HasEntry (12 + k) (s.node.block 12 * blockSize + k * 4)
  | double {k m block : ℕ} : k < blockSize / 4 → m < blockSize / 4 → s.node.block 13 ≠ 0 →
    readU32 s.device (s.node.block 13 * blockSize + k * 4) = block → block ≠ 0 →
    HasEntry (12 + blockSize / 4 + (k * (blockSize / 4) + m)) (block * blockSize + m * 4)

/-- The inode's own indirect blocks. -/
inductive IsIndirect : ℕ → Prop
  | root {k : ℕ} : 12 ≤ k → k < 15 → s.node.block k ≠ 0 → IsIndirect (s.node.block k)
  | entry {k m block : ℕ} : 13 ≤ k → k < 15 → s.node.block k ≠ 0 → m < blockSize / 4 →
    readU32 s.device (s.node.block k * blockSize + m * 4) = block → block ≠ 0 → IsIndirect block
  | triple {m n inner block : ℕ} : s.node.block 14 ≠ 0 → m < blockSize / 4 → n < blockSize / 4 →
    readU32 s.device (s.node.block 14 * blockSize + m * 4) = inner → inner ≠ 0 →
    readU32 s.device (inner * blockSize + n * 4) = block → block ≠ 0 → IsIndirect block

/-- What setting a block should do: it is set, the others are not, and nothing is written but to
indirect blocks of the inode and to what `AllocateBlock` and `WriteINodeEntry` write. -/
structure SetsBlock (metadata : ℕ → Prop) (s' : Ext2FsState) (iblock dblock : ℕ) : Prop where
  get_self : s'.getINodeBlock blockSize iblock = dblock
  get_other : ∀ j < indexCount blockSize, j ≠ iblock →
    s'.getINodeBlock blockSize j = s.getINodeBlock blockSize j
  written : ∀ address, s'.device address ≠ s.device address →
    metadata address ∨ s'.IsIndirect blockSize (address / blockSize)

/-- An entry can be set: it is in the inode, or in an index block that exists, at a word that no
other lookup reads, and this one only in the end. -/
def CanSet (iblock : ℕ) : Prop :=
  iblock < 12 ∨ ∃ address, s.HasEntry blockSize iblock address ∧
    (∀ j < indexCount blockSize, j ≠ iblock → address ∉ s.lookups blockSize j) ∧
    (s.lookups blockSize iblock).count address = 1

/-- No block is an index block twice, and the words from which the lookups of the triple range
start are not among the entries. -/
structure DistinctIndexBlocks : Prop where
  roots : ∀ k k', 12 ≤ k → k < 15 → 12 ≤ k' → k' < 15 → s.node.block k ≠ 0 →
    s.node.block k = s.node.block k' → k = k'
  entries : s.node.block 13 ≠ 0 → ∀ k < blockSize / 4,
    readU32 s.device (s.node.block 13 * blockSize + k * 4) ≠ 0 →
    (∀ root, 12 ≤ root → root < 15 →
      readU32 s.device (s.node.block 13 * blockSize + k * 4) ≠ s.node.block root) ∧
    ∀ k' < blockSize / 4, readU32 s.device (s.node.block 13 * blockSize + k * 4) =
      readU32 s.device (s.node.block 13 * blockSize + k' * 4) → k = k'
  starts : ∀ i address, s.HasEntry blockSize i address →
    ∀ k < (blockSize / 4) ^ 2, s.node.block 14 * blockSize + k * 4 ≠ address

/-- A block that `AllocateBlock` may return. -/
def Unused (block : ℕ) : Prop := 0 < block ∧ block < 2 ^ 32 ∧ ¬ s.IsIndirect blockSize block

/-- The state with other bytes in the unused blocks. -/
def SameBut (unused : List ℕ) (t : Ext2FsState) : Prop :=
  t.node = s.node ∧ ∀ address, address / blockSize ∉ unused → t.device address = s.device address

end Ext2FsState

open Classical in
/-- An `AllocateBlock` that returns the unused blocks one after the other and changes nothing that
is read here, as `WriteINodeEntry` does not. -/
noncomputable def allocating (blockSize : ℕ) (unused : List ℕ) : Ext2FsCalls where
  allocateBlock s := ((unused.find? fun block => ¬ s.IsIndirect blockSize block).getD 0, s)
  writeINodeEntry s := s

/-! ## The four ranges -/

/-- The range of an index, and its place there. -/
inductive BlockRange (level : ℕ) : ℕ → Prop
  | direct {i : ℕ} : i < 12 → BlockRange level i
  | single {k : ℕ} : k < level → BlockRange level (12 + k)
  | double {k m : ℕ} : k < level → m < level → BlockRange level (12 + level + (k * level + m))
  | triple {k m : ℕ} : m < level →
    BlockRange level (12 + level + level * level + (k * level + m))

theorem blockRange {level : ℕ} (hlevel : 0 < level) (i : ℕ) : BlockRange level i := by
  have hsplit : ∀ n, n = n / level * level + n % level := fun n => by
    rw [Nat.mul_comm, Nat.div_add_mod]
  by_cases hdirect : i < 12
  · exact .direct hdirect
  by_cases hsingle : i < 12 + level
  · have h : BlockRange level (12 + (i - 12)) := .single (by omega)
    rwa [Nat.add_sub_cancel' (by omega)] at h
  have hmod : ∀ n, n % level < level := fun n => Nat.mod_lt n hlevel
  by_cases hdouble : i < 12 + level + level * level
  · have hk : (i - (12 + level)) / level < level := Nat.div_lt_of_lt_mul (by omega)
    have h := BlockRange.double hk (hmod (i - (12 + level)))
    rwa [← hsplit, Nat.add_sub_cancel' (by omega)] at h
  · have h := BlockRange.triple (k := (i - (12 + level + level * level)) / level)
      (hmod (i - (12 + level + level * level)))
    rwa [← hsplit, Nat.add_sub_cancel' (by omega)] at h

theorem div_mod_split {level k m : ℕ} (hm : m < level) :
    (k * level + m) / level = k ∧ (k * level + m) % level = m := by
  constructor
  · rw [Nat.mul_comm, Nat.mul_add_div (by omega), Nat.div_eq_of_lt hm, Nat.add_zero]
  · rw [Nat.mul_comm, Nat.mul_add_mod, Nat.mod_eq_of_lt hm]

theorem level_le_div {level : ℕ} (hlevel : 0 < level) (n : ℕ) :
    (level * level + n) / level ≥ level := by
  rw [ge_iff_le, Nat.le_div_iff_mul_le hlevel]
  exact Nat.le_add_right _ _

namespace Ext2FsState

variable {s s' : Ext2FsState} {calls : Ext2FsCalls} {blockSize k m i j d : ℕ}

theorem getINodeBlock_direct (hi : i < 12) : s.getINodeBlock blockSize i = s.node.block i :=
  if_pos hi

theorem lookups_direct (hi : i < 12) : s.lookups blockSize i = [] :=
  if_pos hi

theorem setINodeBlock_direct (hi : i < 12) :
    s.setINodeBlock calls blockSize i d = s.setBlock i d :=
  if_pos hi

theorem getINodeBlock_single (hk : k < blockSize / 4) :
    s.getINodeBlock blockSize (12 + k) =
      readU32 s.device (s.node.block 12 * blockSize + k * 4) := by
  rw [getINodeBlock, VFS.getINodeBlock, if_neg (by omega), Nat.add_sub_cancel_left,
    if_neg (by omega)]

theorem lookups_single (hk : k < blockSize / 4) :
    s.lookups blockSize (12 + k) = [s.node.block 12 * blockSize + k * 4] := by
  rw [lookups, if_neg (by omega), Nat.add_sub_cancel_left, if_neg (by omega)]

theorem setINodeBlock_single (hk : k < blockSize / 4) :
    s.setINodeBlock calls blockSize (12 + k) d =
      (assignRoot calls 12 s).writeU32
        ((assignRoot calls 12 s).node.block 12 * blockSize + k * 4) d := by
  rw [setINodeBlock, if_neg (by omega), Nat.add_sub_cancel_left, if_neg (by omega)]

theorem getINodeBlock_double (hk : k < blockSize / 4) (hm : m < blockSize / 4) :
    s.getINodeBlock blockSize (12 + blockSize / 4 + (k * (blockSize / 4) + m)) =
      readU32 s.device
        (readU32 s.device (s.node.block 13 * blockSize + k * 4) * blockSize + m * 4) := by
  obtain ⟨hdiv, hmod⟩ := div_mod_split (k := k) hm
  rw [getINodeBlock, VFS.getINodeBlock, if_neg (by omega), Nat.add_assoc, Nat.add_sub_cancel_left,
    if_pos (Nat.le_add_right _ _), Nat.add_sub_cancel_left]
  simp only [hdiv, hmod, if_neg (Nat.not_le.mpr hk)]

theorem lookups_double (hk : k < blockSize / 4) (hm : m < blockSize / 4) :
    s.lookups blockSize (12 + blockSize / 4 + (k * (blockSize / 4) + m)) =
      [s.node.block 13 * blockSize + k * 4,
        readU32 s.device (s.node.block 13 * blockSize + k * 4) * blockSize + m * 4] := by
  obtain ⟨hdiv, hmod⟩ := div_mod_split (k := k) hm
  rw [lookups, if_neg (by omega), Nat.add_assoc, Nat.add_sub_cancel_left,
    if_pos (Nat.le_add_right _ _), Nat.add_sub_cancel_left]
  simp only [hdiv, hmod, if_neg (Nat.not_le.mpr hk)]

theorem setINodeBlock_double (hk : k < blockSize / 4) (hm : m < blockSize / 4) :
    s.setINodeBlock calls blockSize (12 + blockSize / 4 + (k * (blockSize / 4) + m)) d =
      let s := assignRoot calls 13 s
      let indirect := assignEntry calls (s.node.block 13 * blockSize + k * 4) s
      indirect.2.writeU32 (indirect.1 * blockSize + m * 4) d := by
  obtain ⟨hdiv, hmod⟩ := div_mod_split (k := k) hm
  rw [setINodeBlock, if_neg (by omega), Nat.add_assoc, Nat.add_sub_cancel_left,
    if_pos (Nat.le_add_right _ _), Nat.add_sub_cancel_left]
  simp only [hdiv, hmod, if_neg (Nat.not_le.mpr hk)]

theorem getINodeBlock_triple (hm : m < blockSize / 4) :
    s.getINodeBlock blockSize
        (12 + blockSize / 4 + blockSize / 4 * (blockSize / 4) + (k * (blockSize / 4) + m)) =
      readU32 s.device (readU32 s.device (k * blockSize +
        readU32 s.device (s.node.block 14 * blockSize + k * 4) * 4 % 2 ^ 32) * blockSize +
          m * 4) := by
  obtain ⟨hdiv, hmod⟩ := div_mod_split (k := k) hm
  rw [getINodeBlock, VFS.getINodeBlock, if_neg (by omega), Nat.add_assoc (12 + _), Nat.add_assoc 12,
    Nat.add_sub_cancel_left, if_pos (Nat.le_add_right _ _), Nat.add_sub_cancel_left,
    if_pos (level_le_div (by omega) _), Nat.add_sub_cancel_left]
  simp only [hdiv, hmod]

theorem lookups_triple (hm : m < blockSize / 4) :
    s.lookups blockSize
        (12 + blockSize / 4 + blockSize / 4 * (blockSize / 4) + (k * (blockSize / 4) + m)) =
      let first := s.node.block 14 * blockSize + k * 4
      let second := k * blockSize + readU32 s.device first * 4 % 2 ^ 32
      [first, second, readU32 s.device second * blockSize + m * 4] := by
  obtain ⟨hdiv, hmod⟩ := div_mod_split (k := k) hm
  rw [lookups, if_neg (by omega), Nat.add_assoc (12 + _), Nat.add_assoc 12,
    Nat.add_sub_cancel_left, if_pos (Nat.le_add_right _ _), Nat.add_sub_cancel_left,
    if_pos (level_le_div (by omega) _), Nat.add_sub_cancel_left]
  simp only [hdiv, hmod]

/-- The last write of the triple range, wherever the index blocks on the way come from. -/
theorem setINodeBlock_triple (hm : m < blockSize / 4) :
    s.setINodeBlock calls blockSize
        (12 + blockSize / 4 + blockSize / 4 * (blockSize / 4) + (k * (blockSize / 4) + m)) d =
      let s := assignRoot calls 14 s
      let single := assignEntry calls (s.node.block 14 * blockSize + k * 4) s
      let address := k * blockSize + single.1 * 4 % 2 ^ 32
      let indirectBlock := readU32 single.2.device address
      let indirect :=
        if indirectBlock = 0 then
          let newBlock := calls.allocateBlock single.2
          (newBlock.1 % 2 ^ 32, newBlock.2.writeU32 address indirectBlock)
        else (indirectBlock, single.2)
      indirect.2.writeU32 (indirect.1 * blockSize * m * 4 % wordCount) d := by
  obtain ⟨hdiv, hmod⟩ := div_mod_split (k := k) hm
  rw [setINodeBlock, if_neg (by omega), Nat.add_assoc (12 + _), Nat.add_assoc 12,
    Nat.add_sub_cancel_left, if_pos (Nat.le_add_right _ _), Nat.add_sub_cancel_left,
    if_pos (level_le_div (by omega) _), Nat.add_sub_cancel_left]
  simp only [hdiv, hmod]

/-! ## Words of the device -/

@[simp]
theorem writeU32_node (s : Ext2FsState) (address value : ℕ) :
    (s.writeU32 address value).node = s.node := rfl

theorem readU32_writeU32_self (s : Ext2FsState) (address value : ℕ) :
    readU32 (s.writeU32 address value).device address = value % 2 ^ 32 :=
  readLE_writeLE s.device address 4 value

theorem readU32_writeU32_of_ne {address other : ℕ} (s : Ext2FsState) (value : ℕ)
    (ha : address % 4 = 0) (ho : other % 4 = 0) (hne : other ≠ address) :
    readU32 (s.writeU32 address value).device other = readU32 s.device other :=
  readLE_congr fun i hi => writeLE_of_not_mem (by omega)

theorem mul_add_mod_four (hsize : blockSize % 4 = 0) (n k : ℕ) :
    (n * blockSize + k * 4) % 4 = 0 := by
  rw [Nat.add_mod, Nat.mul_mod n, hsize, Nat.mul_zero, Nat.zero_mod, Nat.mul_mod_left]

/-- Every word that is looked up is aligned. -/
theorem lookups_mod_four (hsize : ValidBlockSize blockSize) {address : ℕ}
    (h : address ∈ s.lookups blockSize j) : address % 4 = 0 := by
  obtain ⟨hmin, -, hwords⟩ := hsize.bounds
  have hmod := mul_add_mod_four (show blockSize % 4 = 0 by omega)
  cases blockRange (show 0 < blockSize / 4 by omega) j with
  | direct hj =>
    rw [lookups_direct hj] at h
    cases h
  | single hk =>
    rw [lookups_single hk, List.mem_singleton] at h
    exact h ▸ hmod _ _
  | double hk hm =>
    rw [lookups_double hk hm, List.mem_pair] at h
    rcases h with rfl | rfl <;> exact hmod _ _
  | @triple k _ hm =>
    rw [lookups_triple hm] at h
    simp only [List.mem_cons, List.not_mem_nil, or_false] at h
    rcases h with rfl | rfl | rfl
    · exact hmod _ _
    · have hblock := hmod k 0
      omega
    · exact hmod _ _

/-- What `GetINodeBlock` returns depends on the words it looks up and nothing else. -/
theorem getINodeBlock_congr (hsize : ValidBlockSize blockSize)
    (hnode : ∀ k, k = j ∨ 12 ≤ k → s'.node.block k = s.node.block k)
    (hwords : ∀ address ∈ s.lookups blockSize j,
      readU32 s'.device address = readU32 s.device address) :
    s'.getINodeBlock blockSize j = s.getINodeBlock blockSize j := by
  obtain ⟨hmin, -, -⟩ := hsize.bounds
  cases blockRange (show 0 < blockSize / 4 by omega) j with
  | direct hj =>
    rw [getINodeBlock_direct hj, getINodeBlock_direct hj, hnode _ (Or.inl rfl)]
  | single hk =>
    rw [lookups_single hk, List.forall_mem_singleton] at hwords
    rw [getINodeBlock_single hk, getINodeBlock_single hk, hnode 12 (by omega), hwords]
  | double hk hm =>
    rw [lookups_double hk hm, List.forall_mem_cons, List.forall_mem_singleton] at hwords
    rw [getINodeBlock_double hk hm, getINodeBlock_double hk hm, hnode 13 (by omega), hwords.1,
      hwords.2]
  | triple hm =>
    rw [lookups_triple hm, List.forall_mem_cons, List.forall_mem_cons,
      List.forall_mem_singleton] at hwords
    rw [getINodeBlock_triple hm, getINodeBlock_triple hm, hnode 14 (by omega), hwords.1,
      hwords.2.1, hwords.2.2]

/-! ## Setting an entry that is there -/

theorem assignRoot_of_ne_zero (h : s.node.block k ≠ 0) : assignRoot calls k s = s :=
  if_neg h

theorem assignEntry_of_ne_zero {address : ℕ} (h : readU32 s.device address ≠ 0) :
    assignEntry calls address s = (readU32 s.device address, s) :=
  if_neg h

theorem setINodeBlock_of_hasEntry {address : ℕ} (h : s.HasEntry blockSize i address) :
    s.setINodeBlock calls blockSize i d = s.writeU32 address d := by
  cases h with
  | single hk hroot => rw [setINodeBlock_single hk, assignRoot_of_ne_zero hroot]
  | double hk hm hroot hentry hne =>
    subst hentry
    rw [setINodeBlock_double hk hm]
    simp only [assignRoot_of_ne_zero hroot, assignEntry_of_ne_zero hne]

theorem count_pair {a b : ℕ} : [a, b].count b = 1 ↔ a ≠ b := by
  rw [List.count_cons, List.count_singleton_self, Nat.add_eq_left, ite_eq_right_iff]
  simp

/-- What is left of an entry's chain when the entry is written. -/
theorem hasEntry_writeU32 {address : ℕ} (hsize : ValidBlockSize blockSize)
    (h : s.HasEntry blockSize i address) (hcount : (s.lookups blockSize i).count address = 1)
    (d : ℕ) : (s.writeU32 address d).HasEntry blockSize i address := by
  obtain ⟨hmin, -, hlevel⟩ := hsize.bounds
  have hmod := mul_add_mod_four (show blockSize % 4 = 0 by omega)
  cases h with
  | single hk hroot => exact .single hk hroot
  | @double k m block hk hm hroot hentry hne =>
    rw [lookups_double hk hm, hentry, count_pair] at hcount
    refine .double hk hm hroot ?_ hne
    exact (readU32_writeU32_of_ne s d (hmod _ _) (hmod _ _) hcount).trans hentry

/-- The word of an entry is in an indirect block of the inode. -/
theorem HasEntry.isIndirect {address offset : ℕ} (hsize : ValidBlockSize blockSize)
    (h : s.HasEntry blockSize i address) (hoffset : offset < 4) :
    s.IsIndirect blockSize ((address + offset) / blockSize) := by
  obtain ⟨hmin, -, hlevel⟩ := hsize.bounds
  have hblock : ∀ n k, k < blockSize / 4 → (n * blockSize + k * 4 + offset) / blockSize = n := by
    intro n k hk
    rw [Nat.add_assoc, Nat.mul_comm, Nat.mul_add_div (by omega), Nat.div_eq_of_lt (by omega),
      Nat.add_zero]
  cases h with
  | single hk hroot =>
    rw [hblock _ _ hk]
    exact .root (le_refl 12) (by decide) hroot
  | double hk hm hroot hentry hne =>
    rw [hblock _ _ hm]
    exact .entry (k := 13) (by decide) (by decide) hroot hk hentry hne

theorem HasEntry.getINodeBlock {address : ℕ} (h : s.HasEntry blockSize i address) :
    s.getINodeBlock blockSize i = readU32 s.device address := by
  cases h with
  | single hk hroot => exact getINodeBlock_single hk
  | double hk hm hroot hentry hne => rw [getINodeBlock_double hk hm, hentry]

theorem HasEntry.mem_lookups {address : ℕ} (h : s.HasEntry blockSize i address) :
    address ∈ s.lookups blockSize i := by
  cases h with
  | single hk hroot =>
    rw [lookups_single hk]
    exact List.mem_singleton_self _
  | double hk hm hroot hentry hne =>
    rw [lookups_double hk hm, hentry]
    exact List.mem_pair.mpr (Or.inr rfl)

theorem setBlock_block (s : Ext2FsState) (k block j : ℕ) :
    (s.setBlock k block).node.block j = if j = k then block % 2 ^ 32 else s.node.block j := by
  by_cases hj : j = k
  · subst hj
    rw [if_pos rfl, setBlock, ← UInt32.toNat_ofNat']
    exact congrArg UInt32.toNat (Function.update_self _ _ _)
  · rw [if_neg hj]
    exact congrArg UInt32.toNat (Function.update_of_ne hj _ _)

theorem setsBlock_direct (hsize : ValidBlockSize blockSize) (hi : i < 12) (hd : d < 2 ^ 32)
    (metadata : ℕ → Prop) : s.SetsBlock blockSize metadata (s.setBlock i d) i d := by
  refine ⟨?_, fun j _ hj => ?_, fun _ h => absurd rfl h⟩
  · rw [getINodeBlock_direct hi, setBlock_block, if_pos rfl, Nat.mod_eq_of_lt hd]
  · refine getINodeBlock_congr hsize (fun k hk => ?_) fun _ _ => rfl
    rw [setBlock_block, if_neg (by omega)]

/-- An entry that is there is set, when its word is not on another way. -/
theorem setsBlock_entry {address : ℕ} (hsize : ValidBlockSize blockSize)
    (h : s.HasEntry blockSize i address)
    (hother : ∀ j < indexCount blockSize, j ≠ i → address ∉ s.lookups blockSize j)
    (hcount : (s.lookups blockSize i).count address = 1) (hd : d < 2 ^ 32)
    (metadata : ℕ → Prop) : s.SetsBlock blockSize metadata (s.writeU32 address d) i d := by
  have haligned : address % 4 = 0 := lookups_mod_four hsize h.mem_lookups
  have hentry := hasEntry_writeU32 hsize h hcount d
  refine ⟨?_, fun j hj hne => ?_, fun a ha => Or.inr ?_⟩
  · rw [hentry.getINodeBlock, readU32_writeU32_self, Nat.mod_eq_of_lt hd]
  · refine getINodeBlock_congr hsize (fun _ _ => rfl) fun a ha => ?_
    refine readU32_writeU32_of_ne s d haligned (lookups_mod_four hsize ha) ?_
    exact fun heq => hother j hj hne (heq ▸ ha)
  · obtain ⟨offset, hoffset, rfl⟩ : ∃ offset < 4, a = address + offset := by
      by_contra hfar
      push Not at hfar
      refine ha (writeLE_of_not_mem ?_)
      by_contra hnear
      exact hfar (a - address) (by omega) (by omega)
    exact hentry.isIndirect hsize hoffset

theorem setsBlock_of_canSet (hsize : ValidBlockSize blockSize) (h : s.CanSet blockSize i)
    (hd : d < 2 ^ 32) (calls : Ext2FsCalls) (metadata : ℕ → Prop) :
    s.SetsBlock blockSize metadata (s.setINodeBlock calls blockSize i d) i d := by
  rcases h with hi | ⟨address, hentry, hother, hcount⟩
  · rw [setINodeBlock_direct hi]
    exact setsBlock_direct hsize hi hd metadata
  · rw [setINodeBlock_of_hasEntry hentry]
    exact setsBlock_entry hsize hentry hother hcount hd metadata

/-! ## What unused blocks held -/

theorem IsIndirect.ne_zero {block : ℕ} (h : s.IsIndirect blockSize block) : block ≠ 0 := by
  cases h with
  | root _ _ hne => exact hne
  | entry _ _ _ _ _ hne => exact hne
  | triple _ _ _ _ _ _ hne => exact hne

theorem allocateBlock_cons {block : ℕ} {unused : List ℕ}
    (h : ¬ s.IsIndirect blockSize block) :
    (allocating blockSize (block :: unused)).allocateBlock s = (block, s) := by
  simp only [allocating]
  rw [List.find?_cons_of_pos (by simpa using h), Option.getD_some]

/-- The word of an index block is the number of the block and the place in it. -/
theorem word_eq_iff (hsize : ValidBlockSize blockSize) {x y : ℕ} (hk : k < blockSize / 4)
    (hm : m < blockSize / 4) :
    x * blockSize + k * 4 = y * blockSize + m * 4 ↔ x = y ∧ k = m := by
  obtain ⟨hmin, -, hlevel⟩ := hsize.bounds
  refine ⟨fun h => ?_, fun h => by rw [h.1, h.2]⟩
  have hblock : ∀ n k, k < blockSize / 4 → (n * blockSize + k * 4) / blockSize = n := by
    intro n k hk
    rw [Nat.mul_comm, Nat.mul_add_div (by omega), Nat.div_eq_of_lt (by omega), Nat.add_zero]
  have hxy : x = y := by rw [← hblock x k hk, h, hblock y m hm]
  subst hxy
  exact ⟨rfl, by omega⟩

theorem readU32_writeU32_word (hsize : ValidBlockSize blockSize) {x y : ℕ}
    (hk : k < blockSize / 4) (hm : m < blockSize / 4) (s : Ext2FsState) (value : ℕ) :
    readU32 (s.writeU32 (x * blockSize + k * 4) value).device (y * blockSize + m * 4) =
      if y = x ∧ m = k then value % 2 ^ 32 else readU32 s.device (y * blockSize + m * 4) := by
  obtain ⟨hmin, -, hlevel⟩ := hsize.bounds
  have hmod := mul_add_mod_four (show blockSize % 4 = 0 by omega)
  split
  · rename_i heq
    rw [heq.1, heq.2]
    exact readU32_writeU32_self s _ value
  · rename_i hne
    exact readU32_writeU32_of_ne s value (hmod _ _) (hmod _ _) fun heq =>
      hne ((word_eq_iff hsize hm hk).mp heq)

theorem SameBut.refl (s : Ext2FsState) (unused : List ℕ) : s.SameBut blockSize unused s :=
  ⟨rfl, fun _ _ => rfl⟩

/-- Another word in an unused block. -/
theorem SameBut.writeU32 {t : Ext2FsState} {unused : List ℕ} {x : ℕ}
    (h : s.SameBut blockSize unused t) (hx : x ∈ unused) (hk : k < blockSize / 4) (value : ℕ) :
    s.SameBut blockSize unused (t.writeU32 (x * blockSize + k * 4) value) := by
  refine ⟨h.1, fun address haddress => (writeLE_of_not_mem ?_).trans (h.2 address haddress)⟩
  by_contra hnear
  have hblock : address / blockSize = x := by
    rw [Nat.div_eq_iff (by omega)]
    constructor <;> omega
  exact haddress (hblock ▸ hx)

theorem SameBut.readU32 {t : Ext2FsState} {unused : List ℕ} {x : ℕ}
    (h : s.SameBut blockSize unused t) (hx : x ∉ unused) (hk : k < blockSize / 4) :
    readU32 t.device (x * blockSize + k * 4) = readU32 s.device (x * blockSize + k * 4) := by
  refine readLE_congr fun i hi => h.2 _ ?_
  have hblock : (x * blockSize + k * 4 + i) / blockSize = x := by
    rw [Nat.div_eq_iff (by omega)]
    constructor <;> omega
  rwa [hblock]

theorem IsIndirect.of_sameBut {t : Ext2FsState} {unused : List ℕ} {block : ℕ}
    (h : s.SameBut blockSize unused t) (hunused : ∀ n ∈ unused, ¬ s.IsIndirect blockSize n)
    (ht : t.IsIndirect blockSize block) : s.IsIndirect blockSize block := by
  have hnode : ∀ k, t.node.block k = s.node.block k := fun k => by rw [h.1]
  have hword : ∀ x, s.IsIndirect blockSize x → ∀ k < blockSize / 4,
      VFS.readU32 t.device (x * blockSize + k * 4) =
        VFS.readU32 s.device (x * blockSize + k * 4) :=
    fun x hx k hk => h.readU32 (fun hmem => hunused x hmem hx) hk
  cases ht with
  | root hlow hhigh hne =>
    rw [hnode] at hne ⊢
    exact .root hlow hhigh hne
  | entry hlow hhigh hne hm hentry hblock =>
    rw [hnode] at hne hentry
    rw [hword _ (.root (by omega) hhigh hne) _ hm] at hentry
    exact .entry hlow hhigh hne hm hentry hblock
  | triple hne hm hn hinner hzero hentry hblock =>
    rw [hnode] at hne hinner
    rw [hword _ (.root (by decide) (by decide) hne) _ hm] at hinner
    have hfirst := IsIndirect.entry (by decide) (by decide) hne hm hinner hzero
    rw [hword _ hfirst _ hn] at hentry
    exact .triple hne hm hn hinner hzero hentry hblock

/-! ## Entries whose index block is missing -/

/-- `SetINodeBlock` does what it should, whatever the unused blocks held. -/
def SetsWhatever (s : Ext2FsState) (blockSize : ℕ) (unused : List ℕ) (iblock : ℕ) : Prop :=
  ∀ t, s.SameBut blockSize unused t → ∀ dblock < 2 ^ 32,
    t.SetsBlock blockSize (fun _ => False)
      (t.setINodeBlock (allocating blockSize unused) blockSize iblock dblock) iblock dblock

section Missing

variable {n₁ n₂ : ℕ} {rest : List ℕ}
  (hunused : ∀ n ∈ n₁ :: n₂ :: rest, s.Unused blockSize n)
include hunused

/-- The first block that is allocated. -/
theorem allocateBlock_first {t : Ext2FsState}
    (ht : s.SameBut blockSize (n₁ :: n₂ :: rest) t) :
    (allocating blockSize (n₁ :: n₂ :: rest)).allocateBlock t = (n₁, t) :=
  allocateBlock_cons fun hindirect => (hunused n₁ List.mem_cons_self).2.2
    (hindirect.of_sameBut ht fun n hn => (hunused n hn).2.2)

theorem assignRoot_missing {t : Ext2FsState} (ht : s.SameBut blockSize (n₁ :: n₂ :: rest) t)
    (hroot : s.node.block k = 0) :
    assignRoot (allocating blockSize (n₁ :: n₂ :: rest)) k t = t.setBlock k n₁ := by
  have hzero : t.node.block k = 0 := by rw [ht.1, hroot]
  rw [assignRoot, if_pos hzero]
  simp only [allocateBlock_first hunused ht]
  rfl

theorem assignEntry_missing {t : Ext2FsState} (ht : s.SameBut blockSize (n₁ :: n₂ :: rest) t)
    {address : ℕ} (hentry : readU32 t.device address = 0) :
    assignEntry (allocating blockSize (n₁ :: n₂ :: rest)) address t =
      (n₁, t.writeU32 address n₁) := by
  have hlt := (hunused n₁ List.mem_cons_self).2.1
  rw [assignEntry, if_pos hentry]
  simp only [allocateBlock_first hunused ht, Nat.mod_eq_of_lt hlt]

variable (hsize : ValidBlockSize blockSize)
include hsize

/-- A new single indirect block keeps the entries it had. -/
theorem single_not_missing (hk : k < blockSize / 4)
    (h : s.SetsWhatever blockSize (n₁ :: n₂ :: rest) (12 + k)) : s.node.block 12 ≠ 0 := by
  intro hroot
  obtain ⟨hmin, hmax, hlevel⟩ := hsize.bounds
  obtain ⟨hpos, hlt, -⟩ := hunused n₁ List.mem_cons_self
  obtain ⟨k', hk', hne⟩ : ∃ k' < blockSize / 4, k' ≠ k := ⟨if k = 0 then 1 else 0, by
    split <;> omega, by split <;> omega⟩
  -- another entry becomes what the new block had there
  have hread : ∀ value < 2 ^ 32, value = readU32 s.device (0 * blockSize + k' * 4) := by
    intro value hvalue
    have ht := (SameBut.refl s _).writeU32
      (List.mem_cons_self : n₁ ∈ n₁ :: n₂ :: rest) hk' value
    have hother := (h _ ht 0 (by decide)).get_other (12 + k') (by rw [indexCount]; omega) (by omega)
    rw [setINodeBlock_single hk, assignRoot_missing hunused ht hroot, getINodeBlock_single hk',
      getINodeBlock_single hk', writeU32_node, writeU32_node, hroot,
      readU32_writeU32_word hsize hk' hk', if_neg (by omega : ¬ (0 = n₁ ∧ _))] at hother
    rw [← hother, setBlock_block, if_pos rfl, Nat.mod_eq_of_lt hlt,
      readU32_writeU32_word hsize hk hk', if_neg (by omega)]
    exact ((readU32_writeU32_self s _ value).trans (Nat.mod_eq_of_lt hvalue)).symm
  have hzero := hread 0 (by decide)
  have hone := hread 1 (by decide)
  omega

omit hunused in
/-- The first indices below a block that the double indirect one leads to. -/
theorem double_lt_indexCount {m' : ℕ} (hk : k < blockSize / 4) (hm : m' < 4)
    (hlt : 12 + blockSize / 4 + (k * (blockSize / 4) + m) < 2 ^ 32) :
    12 + blockSize / 4 + (k * (blockSize / 4) + m') < indexCount blockSize := by
  obtain ⟨hmin, -, -⟩ := hsize.bounds
  obtain ⟨n, -, hn⟩ := hsize
  have hlevel : blockSize / 4 = 2 ^ n * 256 := by omega
  have hprod : k * (blockSize / 4) = k * 2 ^ n * 256 := by rw [hlevel, Nat.mul_assoc]
  have hsquare : k * (blockSize / 4) + blockSize / 4 ≤ (blockSize / 4) ^ 2 := by
    rw [← Nat.succ_mul, Nat.pow_two]
    exact Nat.mul_le_mul_right _ hk
  rw [indexCount]
  omega

/-- So does a new block that the double indirect one leads to. -/
theorem double_entry_not_missing (hk : k < blockSize / 4) (hm : m < blockSize / 4)
    (hlt : 12 + blockSize / 4 + (k * (blockSize / 4) + m) < 2 ^ 32)
    (hroot : s.node.block 13 ≠ 0)
    (h : s.SetsWhatever blockSize (n₁ :: n₂ :: rest)
      (12 + blockSize / 4 + (k * (blockSize / 4) + m))) :
    readU32 s.device (s.node.block 13 * blockSize + k * 4) ≠ 0 := by
  intro hentry
  obtain ⟨hmin, hmax, hlevel⟩ := hsize.bounds
  obtain ⟨hpos, hn, hindirect⟩ := hunused n₁ List.mem_cons_self
  have hother : s.node.block 13 ≠ n₁ := fun heq =>
    hindirect (heq ▸ .root (by decide) (by decide) hroot)
  obtain ⟨m', hm', hne⟩ : ∃ m' < 4, m' ≠ m := ⟨if m = 0 then 1 else 0, by
    split <;> omega, by split <;> omega⟩
  have hm'' : m' < blockSize / 4 := by omega
  have hread : ∀ value < 2 ^ 32, value = readU32 s.device (0 * blockSize + m' * 4) := by
    intro value hvalue
    obtain ⟨t, ht, hnode, hnew, hentry', hblock⟩ : ∃ t, s.SameBut blockSize (n₁ :: n₂ :: rest) t ∧
        t.node = s.node ∧ readU32 t.device (n₁ * blockSize + m' * 4) = value ∧
        readU32 t.device (s.node.block 13 * blockSize + k * 4) = 0 ∧
        readU32 t.device (0 * blockSize + m' * 4) = readU32 s.device (0 * blockSize + m' * 4) := by
      refine ⟨s.writeU32 (n₁ * blockSize + m' * 4) value,
        (SameBut.refl s _).writeU32 List.mem_cons_self hm'' value, rfl, ?_, ?_, ?_⟩
      · rw [readU32_writeU32_self, Nat.mod_eq_of_lt hvalue]
      · rw [readU32_writeU32_word hsize hm'' hk, if_neg (by omega), hentry]
      · rw [readU32_writeU32_word hsize hm'' hm'', if_neg (by omega)]
    have hset := (h t ht 0 (by decide)).get_other _ (double_lt_indexCount hsize hk hm' hlt)
      (by omega)
    rw [setINodeBlock_double hk hm, assignRoot_of_ne_zero (by rwa [hnode])] at hset
    simp only [hnode, assignEntry_missing hunused ht hentry'] at hset
    rw [getINodeBlock_double hk hm'', getINodeBlock_double hk hm'', hnode, hentry', hblock,
      writeU32_node, writeU32_node, hnode] at hset
    rw [← hset, readU32_writeU32_word hsize hm hk, if_neg (by omega),
      readU32_writeU32_word hsize hk hk, if_pos ⟨rfl, rfl⟩, Nat.mod_eq_of_lt hn,
      readU32_writeU32_word hsize hm hm'', if_neg (by omega),
      readU32_writeU32_word hsize hk hm'', if_neg (by omega), hnew]
  have hzero := hread 0 (by decide)
  have hone := hread 1 (by decide)
  omega

/-- And a new double indirect block leads to the blocks it led to. -/
theorem double_root_not_missing (hk : k < blockSize / 4) (hm : m < blockSize / 4)
    (hlt : 12 + blockSize / 4 + (k * (blockSize / 4) + m) < 2 ^ 32) (hdistinct : n₁ ≠ n₂)
    (h : s.SetsWhatever blockSize (n₁ :: n₂ :: rest)
      (12 + blockSize / 4 + (k * (blockSize / 4) + m))) :
    s.node.block 13 ≠ 0 := by
  intro hroot
  obtain ⟨hmin, hmax, hlevel⟩ := hsize.bounds
  obtain ⟨hpos, hn, -⟩ := hunused n₁ List.mem_cons_self
  obtain ⟨hpos₂, hn₂, -⟩ := hunused n₂ (by simp)
  obtain ⟨m', hm', hne, hnk⟩ : ∃ m' < 4, m' ≠ m ∧ m' ≠ k := by
    by_cases hzero : m ≠ 0 ∧ k ≠ 0
    · exact ⟨0, by omega, by omega, by omega⟩
    by_cases hone : m ≠ 1 ∧ k ≠ 1
    · exact ⟨1, by omega, by omega, by omega⟩
    · exact ⟨2, by omega, by omega, by omega⟩
  have hm'' : m' < blockSize / 4 := by omega
  set base := (s.writeU32 (n₁ * blockSize + m' * 4) 0).writeU32 (n₂ * blockSize + m' * 4) 1
    with hbase
  have hsame : s.SameBut blockSize (n₁ :: n₂ :: rest) base :=
    ((SameBut.refl s _).writeU32 (by simp) hm'' 0).writeU32 (by simp) hm'' 1
  set old := readU32 base.device
    (readU32 s.device (0 * blockSize + k * 4) * blockSize + m' * 4) with hold
  -- another entry becomes what is in the block that the new one leads to
  have hread : ∀ block < 2 ^ 32, block ≠ 0 →
      readU32 base.device (block * blockSize + m' * 4) = old := by
    intro block hblock hnonzero
    obtain ⟨t, ht, hnode, hlead, hzero, hword⟩ : ∃ t, s.SameBut blockSize (n₁ :: n₂ :: rest) t ∧
        t.node = s.node ∧ readU32 t.device (n₁ * blockSize + k * 4) = block ∧
        readU32 t.device (0 * blockSize + k * 4) = readU32 s.device (0 * blockSize + k * 4) ∧
        ∀ x, readU32 t.device (x * blockSize + m' * 4) =
          readU32 base.device (x * blockSize + m' * 4) := by
      refine ⟨base.writeU32 (n₁ * blockSize + k * 4) block,
        hsame.writeU32 List.mem_cons_self hk block, rfl, ?_, ?_, fun x => ?_⟩
      · rw [readU32_writeU32_self, Nat.mod_eq_of_lt hblock]
      · rw [readU32_writeU32_word hsize hk hk, if_neg (by omega), hbase,
          readU32_writeU32_word hsize hm'' hk, if_neg (by omega),
          readU32_writeU32_word hsize hm'' hk, if_neg (by omega)]
      · rw [readU32_writeU32_word hsize hk hm'', if_neg (by omega)]
    have hset := (h t ht block hblock).get_other _ (double_lt_indexCount hsize hk hm' hlt)
      (by omega)
    have hnew : ((t.setBlock 13 n₁).node.block 13) = n₁ := by
      rw [setBlock_block, if_pos rfl, Nat.mod_eq_of_lt hn]
    have hdevice : (t.setBlock 13 n₁).device = t.device := rfl
    rw [setINodeBlock_double hk hm, assignRoot_missing hunused ht hroot] at hset
    simp only [hnew] at hset
    rw [assignEntry_of_ne_zero (by rwa [hdevice, hlead])] at hset
    rw [getINodeBlock_double hk hm'', getINodeBlock_double hk hm'', hnode, hroot, hzero, hword,
      writeU32_node, hnew, hdevice, hlead, readU32_writeU32_word hsize hm hk] at hset
    have hkeep : (if n₁ = block ∧ k = m then block % 2 ^ 32
        else readU32 (t.setBlock 13 n₁).device (n₁ * blockSize + k * 4)) = block := by
      rw [hdevice, hlead, Nat.mod_eq_of_lt hblock, ite_self]
    rw [hkeep, readU32_writeU32_word hsize hm hm'', if_neg (by omega), hdevice, hword] at hset
    exact hset
  have hfirst := hread n₁ hn (by omega)
  have hsecond := hread n₂ hn₂ (by omega)
  rw [hbase, readU32_writeU32_word hsize hm'' hm'', if_neg (by omega),
    readU32_writeU32_word hsize hm'' hm'', if_pos ⟨rfl, rfl⟩] at hfirst
  rw [hbase, readU32_writeU32_word hsize hm'' hm'', if_pos ⟨rfl, rfl⟩] at hsecond
  omega

end Missing

/-! ## The triple range -/

theorem readU32_writeU32_ne_zero {address other : ℕ} (ha : address % 4 = 0) (ho : other % 4 = 0)
    (hzero : readU32 s.device address = 0) (hother : readU32 s.device other ≠ 0) (value : ℕ) :
    readU32 (s.writeU32 address value).device other = readU32 s.device other :=
  readU32_writeU32_of_ne s value ha ho fun heq => hother (heq ▸ hzero)

/-- Making what is missing changes no word that was not zero. -/
theorem assignEntry_keeps {unused : List ℕ} {address other : ℕ} (ha : address % 4 = 0)
    (ho : other % 4 = 0) (hother : readU32 s.device other ≠ 0) :
    readU32 (assignEntry (allocating blockSize unused) address s).2.device other =
      readU32 s.device other := by
  rw [assignEntry]
  split
  · rename_i hzero
    exact readU32_writeU32_ne_zero ha ho hzero hother _
  · rfl

theorem assignRoot_device (unused : List ℕ) :
    (assignRoot (allocating blockSize unused) k s).device = s.device := by
  rw [assignRoot]
  split <;> rfl

/-- What the triple range comes to: one write, at a product. -/
theorem setINodeBlock_triple_eq (hsize : ValidBlockSize blockSize) (unused : List ℕ)
    (hm : m < blockSize / 4) :
    ∃ (u : Ext2FsState) (block : ℕ), (∀ d, s.setINodeBlock (allocating blockSize unused) blockSize
        (12 + blockSize / 4 + blockSize / 4 * (blockSize / 4) + (k * (blockSize / 4) + m)) d =
          u.writeU32 (block * blockSize * m * 4 % wordCount) d) ∧
      ∀ other, other % 4 = 0 → readU32 s.device other ≠ 0 →
        readU32 u.device other = readU32 s.device other := by
  obtain ⟨hmin, -, hlevel⟩ := hsize.bounds
  have hmod := mul_add_mod_four (show blockSize % 4 = 0 by omega)
  simp only [setINodeBlock_triple hm]
  refine ⟨_, _, fun d => rfl, fun other ho hother => ?_⟩
  set t := assignRoot (allocating blockSize unused) 14 s
  have ht : t.device = s.device := assignRoot_device unused
  have hkeep : readU32 (assignEntry (allocating blockSize unused)
      (t.node.block 14 * blockSize + k * 4) t).2.device other = readU32 s.device other := by
    rw [assignEntry_keeps (hmod _ _) ho (by rwa [ht]), ht]
  generalize assignEntry (allocating blockSize unused) (t.node.block 14 * blockSize + k * 4) t =
    single at hkeep ⊢
  split
  · rename_i hzero
    have hsecond : ∀ x, (k * blockSize + x * 4 % 2 ^ 32) % 4 = 0 := fun x => by
      have := hmod k 0
      omega
    exact (readU32_writeU32_ne_zero (hsecond _) ho hzero (by rwa [hkeep]) _).trans hkeep
  · exact hkeep

theorem blockSize_dvd_wordCount (hsize : ValidBlockSize blockSize) : blockSize ∣ wordCount := by
  obtain ⟨n, hn, rfl⟩ := hsize
  rw [show 1024 * 2 ^ n = 2 ^ (10 + n) by rw [Nat.pow_add]]
  exact Nat.pow_dvd_pow 2 (by omega)

/-- A write at the start of a block does not set an entry that is further on in its block. -/
theorem triple_not_set (hsize : ValidBlockSize blockSize) {u : Ext2FsState} {address block : ℕ}
    (hm : m < blockSize / 4) (hpos : m ≠ 0) (haddress : blockSize ∣ address)
    (hblock : block < 2 ^ 32) (hword : readU32 u.device (block * blockSize + m * 4) ≠ block) :
    ∃ d < 2 ^ 32, (u.writeU32 address d).getINodeBlock blockSize
      (12 + blockSize / 4 + blockSize / 4 * (blockSize / 4) + (k * (blockSize / 4) + m)) ≠ d := by
  obtain ⟨hmin, -, hlevel⟩ := hsize.bounds
  have hmod := mul_add_mod_four (show blockSize % 4 = 0 by omega)
  have ha : address % 4 = 0 := by
    obtain ⟨n, rfl⟩ := haddress
    have := hmod n 0
    rw [Nat.mul_comm]
    omega
  by_contra hall
  push Not at hall
  have hlast : ∀ d e, readU32 (u.writeU32 address d).device (e * blockSize + m * 4) =
      readU32 u.device (e * blockSize + m * 4) := by
    intro d e
    refine readU32_writeU32_of_ne u d ha (hmod _ _) fun heq => ?_
    have hdvd : blockSize ∣ m * 4 := (Nat.dvd_add_right (Nat.dvd_mul_left blockSize e)).mp
      (heq ▸ haddress)
    exact absurd (Nat.le_of_dvd (by omega) hdvd) (by omega)
  simp only [getINodeBlock_triple hm, writeU32_node, hlast] at hall
  have hsecond : ∀ x, (k * blockSize + x * 4 % 2 ^ 32) % 4 = 0 := fun x => by
    have := hmod k 0
    omega
  by_cases hfirst : u.node.block 14 * blockSize + k * 4 = address
  · -- what is set is an index, of which the two high bits do not count
    have hself : ∀ d < 2 ^ 32, readU32 (u.writeU32 address d).device
        (u.node.block 14 * blockSize + k * 4) = d := fun d hd => by
      rw [hfirst, readU32_writeU32_self, Nat.mod_eq_of_lt hd]
    obtain ⟨d, hd, hne⟩ : ∃ d < 2, k * blockSize + d * 4 ≠ address := by
      by_cases hzero : k * blockSize = address
      · exact ⟨1, by decide, by omega⟩
      · exact ⟨0, by decide, by omega⟩
    have hlow := hall d (by omega)
    have hhigh := hall (d + 2 ^ 30) (by omega)
    have hindex : (d + 2 ^ 30) * 4 % 2 ^ 32 = d * 4 := by omega
    have hkeep : ∀ value, readU32 (u.writeU32 address value).device (k * blockSize + d * 4) =
        readU32 u.device (k * blockSize + d * 4) := fun value =>
      readU32_writeU32_of_ne u value ha (hmod _ _) hne
    rw [hself _ (by omega), Nat.mod_eq_of_lt (by omega : d * 4 < 2 ^ 32), hkeep] at hlow
    rw [hself _ (by omega), hindex, hkeep] at hhigh
    omega
  · have hkeep : ∀ d, readU32 (u.writeU32 address d).device
        (u.node.block 14 * blockSize + k * 4) =
          readU32 u.device (u.node.block 14 * blockSize + k * 4) := fun d =>
      readU32_writeU32_of_ne u d ha (hmod _ _) hfirst
    simp only [hkeep] at hall
    set second := k * blockSize +
      readU32 u.device (u.node.block 14 * blockSize + k * 4) * 4 % 2 ^ 32
    by_cases hwritten : second = address
    · have hset := hall block hblock
      rw [hwritten, readU32_writeU32_self, Nat.mod_eq_of_lt hblock] at hset
      exact hword hset
    · have hzero := hall 0 (by decide)
      have hone := hall 1 (by decide)
      rw [readU32_writeU32_of_ne u _ ha (hsecond _) hwritten] at hzero hone
      omega

/-- Nothing is set in the triple range. -/
theorem not_setsWhatever_triple (hsize : ValidBlockSize blockSize) {n₁ n₂ : ℕ} {rest : List ℕ}
    (hunused : ∀ n ∈ n₁ :: n₂ :: rest, s.Unused blockSize n) (hdistinct : n₁ ≠ n₂)
    (hm : m < blockSize / 4) :
    ¬ s.SetsWhatever blockSize (n₁ :: n₂ :: rest)
      (12 + blockSize / 4 + blockSize / 4 * (blockSize / 4) + (k * (blockSize / 4) + m)) := by
  intro h
  obtain ⟨hmin, -, hlevel⟩ := hsize.bounds
  obtain ⟨hpos, hn, -⟩ := hunused n₁ List.mem_cons_self
  obtain ⟨-, hn₂, -⟩ := hunused n₂ (by simp)
  by_cases hzero : m = 0
  · -- the first word of a block is written at the first word of the device
    subst hzero
    obtain ⟨d, hd, hne⟩ : ∃ d < 2, d ≠ readU32 s.device 0 := by
      by_cases hword : readU32 s.device 0 = 0
      · exact ⟨1, by decide, by omega⟩
      · exact ⟨0, by decide, by omega⟩
    obtain ⟨u, block, hset, -⟩ :=
      setINodeBlock_triple_eq (s := s) (k := k) hsize (n₁ :: n₂ :: rest) hm
    have hwritten := (h s (.refl s _) d (by omega)).written
    rw [hset, Nat.mul_zero, Nat.zero_mul, Nat.zero_mod] at hwritten
    have hsame : readU32 (u.writeU32 0 d).device 0 = readU32 s.device 0 := by
      refine readLE_congr fun i hi => ?_
      by_contra hchanged
      refine ((hwritten _ hchanged).resolve_left id).ne_zero ?_
      exact Nat.div_eq_of_lt (by omega)
    rw [readU32_writeU32_self] at hsame
    omega
  · obtain ⟨t, ht, hword⟩ : ∃ t, s.SameBut blockSize (n₁ :: n₂ :: rest) t ∧
        readU32 t.device (n₂ * blockSize + m * 4) = n₁ :=
      ⟨s.writeU32 (n₂ * blockSize + m * 4) n₁, (SameBut.refl s _).writeU32 (by simp) hm n₁,
        (readU32_writeU32_self s _ n₁).trans (Nat.mod_eq_of_lt hn)⟩
    obtain ⟨u, block, hset, hkeep⟩ :=
      setINodeBlock_triple_eq (s := t) (k := k) hsize (n₁ :: n₂ :: rest) hm
    have hstart : blockSize ∣ block * blockSize * m * 4 % wordCount :=
      (Nat.dvd_mod_iff (blockSize_dvd_wordCount hsize)).mpr
        (((Nat.dvd_mul_left blockSize block).mul_right m).mul_right 4)
    obtain ⟨d, hd, hne⟩ := triple_not_set (k := k) hsize hm hzero hstart hn₂
      (u := u) (by rwa [hkeep _ (mul_add_mod_four (by omega) _ _) (by omega), hword])
    exact hne (hset d ▸ (h t ht d hd).get_self)

/-! ## Entries that other lookups read -/

theorem HasEntry.of_sameBut {t : Ext2FsState} {unused : List ℕ} {address : ℕ}
    (h : s.SameBut blockSize unused t) (hunused : ∀ n ∈ unused, ¬ s.IsIndirect blockSize n)
    (ht : t.HasEntry blockSize i address) : s.HasEntry blockSize i address := by
  have hnode : ∀ k, t.node.block k = s.node.block k := fun k => by rw [h.1]
  cases ht with
  | single hk hroot =>
    rw [hnode] at hroot ⊢
    exact .single hk hroot
  | double hk hm hroot hentry hne =>
    rw [hnode] at hroot hentry
    have hmem : s.node.block 13 ∉ unused := fun hmem =>
      hunused _ hmem (.root (by decide) (by decide) hroot)
    rw [h.readU32 hmem hk] at hentry
    exact .double hk hm hroot hentry hne

theorem SameBut.symm {t : Ext2FsState} {unused : List ℕ} (h : s.SameBut blockSize unused t) :
    t.SameBut blockSize unused s :=
  ⟨h.1.symm, fun address haddress => (h.2 address haddress).symm⟩

theorem HasEntry.lt {address : ℕ} (h : s.HasEntry blockSize i address) :
    i < 12 + blockSize / 4 + blockSize / 4 * (blockSize / 4) := by
  cases h with
  | single hk hroot => omega
  | @double k m _ hk hm hroot hentry hne =>
    have hrow : k * (blockSize / 4) + blockSize / 4 ≤ blockSize / 4 * (blockSize / 4) := by
      rw [← Nat.succ_mul]
      exact Nat.mul_le_mul_right _ hk
    omega

/-- The double indirect block has no entries of the file. -/
theorem DistinctIndexBlocks.double_ne {address : ℕ} (hsize : ValidBlockSize blockSize)
    (h : s.DistinctIndexBlocks blockSize) (hentry : s.HasEntry blockSize i address)
    (hk : k < blockSize / 4) : s.node.block 13 * blockSize + k * 4 ≠ address := by
  intro heq
  cases hentry with
  | single hk' hroot =>
    have hblock := ((word_eq_iff hsize hk hk').mp heq).1
    exact absurd (h.roots 12 13 (by decide) (by decide) (by decide) (by decide) hroot hblock.symm)
      (by decide)
  | double hk' hm hroot hword hne =>
    have hblock := ((word_eq_iff hsize hk hm).mp heq).1
    subst hword
    exact (h.entries hroot _ hk' hne).1 13 (by decide) (by decide) hblock.symm

theorem triple_lt_indexCount {m' : ℕ} (hsize : ValidBlockSize blockSize) (hm : m' < 4)
    (hlt : 12 + blockSize / 4 + blockSize / 4 * (blockSize / 4) + (k * (blockSize / 4) + m) <
      indexCount blockSize) :
    k < (blockSize / 4) ^ 2 ∧
      12 + blockSize / 4 + blockSize / 4 * (blockSize / 4) + (k * (blockSize / 4) + m') <
        indexCount blockSize := by
  obtain ⟨hmin, -, -⟩ := hsize.bounds
  obtain ⟨n, -, hn⟩ := hsize
  have hlevel : blockSize / 4 = 2 ^ n * 256 := by omega
  have hprod : ∀ x, x * (blockSize / 4) = x * 2 ^ n * 256 := fun x => by
    rw [hlevel, Nat.mul_assoc]
  have hone := hprod k
  have htwo := hprod (blockSize / 4)
  have hcube : (blockSize / 4) ^ 3 = (blockSize / 4) ^ 2 * (blockSize / 4) := Nat.pow_succ ..
  rw [indexCount, Nat.pow_two, Nat.lt_min] at hlt
  have hk : k < (blockSize / 4) ^ 2 := by
    refine Nat.lt_of_mul_lt_mul_right (a := blockSize / 4) ?_
    omega
  have hbelow : k * (blockSize / 4) + blockSize / 4 ≤ (blockSize / 4) ^ 3 := by
    rw [← Nat.succ_mul, hcube]
    exact Nat.mul_le_mul_right _ hk
  refine ⟨hk, ?_⟩
  rw [indexCount, Nat.pow_two, Nat.lt_min]
  constructor <;> omega

section Others

variable {n₁ n₂ : ℕ} {rest : List ℕ} {address : ℕ} (hsize : ValidBlockSize blockSize)
  (hunused : ∀ n ∈ n₁ :: n₂ :: rest, s.Unused blockSize n)
  (h : s.SetsWhatever blockSize (n₁ :: n₂ :: rest) i)
  (hentry : s.HasEntry blockSize i address)
include hsize hunused h hentry

omit hsize in
theorem getINodeBlock_other {t : Ext2FsState} (ht : s.SameBut blockSize (n₁ :: n₂ :: rest) t)
    (hj : j < indexCount blockSize) (hne : j ≠ i) (hd : d < 2 ^ 32) :
    (t.writeU32 address d).getINodeBlock blockSize j = t.getINodeBlock blockSize j := by
  have htentry : t.HasEntry blockSize i address := hentry.of_sameBut ht.symm fun n hn hindirect =>
    (hunused n hn).2.2 (hindirect.of_sameBut ht fun n hn => (hunused n hn).2.2)
  have hset := (h t ht d hd).get_other j hj hne
  rwa [setINodeBlock_of_hasEntry htentry] at hset

omit hsize in
/-- A lookup that ends at the word of another entry changes with it. -/
theorem not_last (hj : j < indexCount blockSize) (hne : j ≠ i)
    (hlast : ∀ d, (s.writeU32 address d).getINodeBlock blockSize j =
      readU32 (s.writeU32 address d).device address) : False := by
  have hsame : ∀ d < 2 ^ 32, d = s.getINodeBlock blockSize j := fun d hd => by
    rw [← getINodeBlock_other hunused h hentry (.refl s _) hj hne hd, hlast,
      readU32_writeU32_self, Nat.mod_eq_of_lt hd]
  have hzero := hsame 0 (by decide)
  have hone := hsame 1 (by decide)
  omega

/-- A lookup that reads the word of another entry second goes on in the block that is set. -/
theorem not_second {k' m' : ℕ} (hdistinct : n₁ ≠ n₂)
    (hj : 12 + blockSize / 4 + blockSize / 4 * (blockSize / 4) + (k' * (blockSize / 4) + m') <
      indexCount blockSize)
    (hi : i < 12 + blockSize / 4 + blockSize / 4 * (blockSize / 4))
    (hstart : s.node.block 14 * blockSize + k' * 4 ≠ address) :
    k' * blockSize + readU32 s.device (s.node.block 14 * blockSize + k' * 4) * 4 % 2 ^ 32 ≠
      address := by
  intro hsecond
  obtain ⟨hmin, hmax, hlevel⟩ := hsize.bounds
  obtain ⟨-, hn, hindirect⟩ := hunused n₁ List.mem_cons_self
  obtain ⟨-, hn₂, hindirect₂⟩ := hunused n₂ (by simp)
  have hmod := mul_add_mod_four (show blockSize % 4 = 0 by omega)
  have haligned : address % 4 = 0 := lookups_mod_four hsize hentry.mem_lookups
  -- a place in the unused blocks that the lookup does not start from
  obtain ⟨m, hm, hplace⟩ : ∃ m < 2,
      m * 4 ≠ (s.node.block 14 * blockSize + k' * 4) % blockSize := by
    by_cases hzero : (s.node.block 14 * blockSize + k' * 4) % blockSize = 0
    · exact ⟨1, by decide, by omega⟩
    · exact ⟨0, by decide, by omega⟩
  have hm' : m < blockSize / 4 := by omega
  have hfirst : ∀ x, s.node.block 14 * blockSize + k' * 4 ≠ x * blockSize + m * 4 := by
    intro x heq
    rw [heq, Nat.mul_add_mod', Nat.mod_eq_of_lt (by omega)] at hplace
    exact hplace rfl
  have hplace' : ∀ x, ¬ s.IsIndirect blockSize x → x * blockSize + m * 4 ≠ address := by
    intro x hx heq
    refine hx ?_
    have hblock := hentry.isIndirect hsize (show 0 < 4 by decide)
    rwa [← heq, Nat.add_zero, Nat.mul_comm, Nat.mul_add_div (by omega),
      Nat.div_eq_of_lt (by omega), Nat.add_zero] at hblock
  set t := (s.writeU32 (n₁ * blockSize + m * 4) 0).writeU32 (n₂ * blockSize + m * 4) 1 with htdef
  have ht : s.SameBut blockSize (n₁ :: n₂ :: rest) t :=
    ((SameBut.refl s _).writeU32 (by simp) hm' 0).writeU32 (by simp) hm' 1
  have hread : ∀ d < 2 ^ 32, ¬ s.IsIndirect blockSize d →
      readU32 t.device (d * blockSize + m * 4) = t.getINodeBlock blockSize
        (12 + blockSize / 4 + blockSize / 4 * (blockSize / 4) + (k' * (blockSize / 4) + m)) := by
    intro d hd hunusedBlock
    have hstay : readU32 (t.writeU32 address d).device (t.node.block 14 * blockSize + k' * 4) =
        readU32 s.device (s.node.block 14 * blockSize + k' * 4) := by
      rw [htdef, writeU32_node, writeU32_node,
        readU32_writeU32_of_ne _ _ haligned (hmod _ _) hstart,
        readU32_writeU32_of_ne _ _ (hmod _ _) (hmod _ _) (hfirst _),
        readU32_writeU32_of_ne _ _ (hmod _ _) (hmod _ _) (hfirst _)]
    rw [← getINodeBlock_other hunused h hentry ht
      (triple_lt_indexCount hsize (by omega) hj).2 (by omega) hd, getINodeBlock_triple hm',
      writeU32_node, hstay, hsecond, readU32_writeU32_self, Nat.mod_eq_of_lt hd,
      readU32_writeU32_of_ne t d haligned (hmod _ _) (hplace' d hunusedBlock)]
  have hzero := hread n₁ hn hindirect
  have hone := hread n₂ hn₂ hindirect₂
  rw [← hone, htdef, readU32_writeU32_word hsize hm' hm', if_neg (by omega),
    readU32_writeU32_word hsize hm' hm', if_pos ⟨rfl, rfl⟩,
    readU32_writeU32_word hsize hm' hm', if_pos ⟨rfl, rfl⟩] at hzero
  exact absurd hzero (by decide)

/-- Of an entry that is set, no other lookup reads the word. -/
theorem not_mem_lookups (hdistinct : n₁ ≠ n₂) (hblocks : s.DistinctIndexBlocks blockSize)
    (hj : j < indexCount blockSize) (hne : j ≠ i) : address ∉ s.lookups blockSize j := by
  intro hmem
  obtain ⟨hmin, -, hlevel⟩ := hsize.bounds
  have hmod := mul_add_mod_four (show blockSize % 4 = 0 by omega)
  have haligned : address % 4 = 0 := lookups_mod_four hsize hentry.mem_lookups
  have hkeep : ∀ d other, other % 4 = 0 → other ≠ address →
      readU32 (s.writeU32 address d).device other = readU32 s.device other := fun d other =>
    readU32_writeU32_of_ne s d haligned
  cases blockRange (show 0 < blockSize / 4 by omega) j with
  | direct hj' =>
    rw [lookups_direct hj'] at hmem
    cases hmem
  | @single k hk =>
    rw [lookups_single hk, List.mem_singleton] at hmem
    refine not_last hunused h hentry hj hne fun d => ?_
    rw [getINodeBlock_single hk, hmem]
    rfl
  | @double k m hk hm =>
    rw [lookups_double hk hm, List.mem_pair] at hmem
    have hfirst := hblocks.double_ne hsize hentry hk
    refine not_last hunused h hentry hj hne fun d => ?_
    rw [getINodeBlock_double hk hm, writeU32_node, hkeep d _ (hmod _ _) hfirst,
      ← hmem.resolve_left hfirst.symm]
  | @triple k m hm =>
    rw [lookups_triple hm] at hmem
    simp only [List.mem_cons, List.not_mem_nil, or_false] at hmem
    have hk := (triple_lt_indexCount hsize (show 0 < 4 by decide) hj).1
    have hfirst := hblocks.starts i address hentry k hk
    have hsecond := not_second hsize hunused h hentry hdistinct hj hentry.lt hfirst
    refine not_last hunused h hentry hj hne fun d => ?_
    have haligned' : (k * blockSize + readU32 s.device (s.node.block 14 * blockSize + k * 4) * 4 %
        2 ^ 32) % 4 = 0 := by
      have := hmod k 0
      omega
    rw [getINodeBlock_triple hm, writeU32_node, hkeep d _ (hmod _ _) hfirst,
      hkeep d _ haligned' hsecond, ← (hmem.resolve_left hfirst.symm).resolve_left hsecond.symm]

end Others

/-! ## Which entries are set -/

theorem HasEntry.count_lookups {address : ℕ} (hsize : ValidBlockSize blockSize)
    (hblocks : s.DistinctIndexBlocks blockSize) (h : s.HasEntry blockSize i address) :
    (s.lookups blockSize i).count address = 1 := by
  cases h with
  | single hk hroot => rw [lookups_single hk, List.count_singleton_self]
  | double hk hm hroot hentry hne =>
    rw [lookups_double hk hm, hentry, count_pair]
    exact hblocks.double_ne hsize (.double hk hm hroot hentry hne) hk

/-- Where the index blocks are distinct, what is set whatever the unused blocks held can be set. -/
theorem canSet_of_setsWhatever {n₁ n₂ : ℕ} {rest : List ℕ} (hsize : ValidBlockSize blockSize)
    (hi : i < indexCount blockSize) (hunused : ∀ n ∈ n₁ :: n₂ :: rest, s.Unused blockSize n)
    (hdistinct : n₁ ≠ n₂) (hblocks : s.DistinctIndexBlocks blockSize)
    (h : s.SetsWhatever blockSize (n₁ :: n₂ :: rest) i) : s.CanSet blockSize i := by
  obtain ⟨hmin, -, -⟩ := hsize.bounds
  have hfound : ∀ {address}, s.HasEntry blockSize i address → s.CanSet blockSize i :=
    fun hentry => Or.inr ⟨_, hentry,
      fun j hj hne => not_mem_lookups hsize hunused h hentry hdistinct hblocks hj hne,
      hentry.count_lookups hsize hblocks⟩
  have hword : i < 2 ^ 32 := (Nat.lt_min.mp hi).2
  cases blockRange (show 0 < blockSize / 4 by omega) i with
  | direct hi' => exact Or.inl hi'
  | single hk => exact hfound (.single hk (single_not_missing hunused hsize hk h))
  | double hk hm =>
    have hroot := double_root_not_missing hunused hsize hk hm hword hdistinct h
    have hentry := double_entry_not_missing hunused hsize hk hm hword hroot h
    exact hfound (.double hk hm hroot rfl hentry)
  | triple hm => exact absurd h (not_setsWhatever_triple hsize hunused hdistinct hm)

theorem DistinctIndexBlocks.of_sameBut {t : Ext2FsState} {unused : List ℕ}
    (ht : s.SameBut blockSize unused t) (hunused : ∀ n ∈ unused, ¬ s.IsIndirect blockSize n)
    (h : s.DistinctIndexBlocks blockSize) : t.DistinctIndexBlocks blockSize := by
  have hnode : ∀ k, t.node.block k = s.node.block k := fun k => by rw [ht.1]
  refine ⟨?_, fun hroot k hk => ?_, fun i address hentry => ?_⟩
  · simp only [hnode]
    exact h.roots
  · rw [hnode] at hroot
    have hword : ∀ k < blockSize / 4, readU32 t.device (s.node.block 13 * blockSize + k * 4) =
        readU32 s.device (s.node.block 13 * blockSize + k * 4) := fun k hk =>
      ht.readU32 (fun hmem => hunused _ hmem (.root (by decide) (by decide) hroot)) hk
    simp only [hnode, hword k hk]
    intro hne
    obtain ⟨hroots, hothers⟩ := h.entries hroot k hk hne
    exact ⟨hroots, fun k' hk' heq => hothers k' hk' (heq.trans (hword k' hk'))⟩
  · rw [hnode]
    exact h.starts i address (hentry.of_sameBut ht hunused)

/-- **What is set.** An entry that can be set is set, and nothing else is changed. In an inode whose
index blocks are distinct no other entry is set, whatever the unused blocks held: neither one whose
index block is missing, nor any in the triple range. -/
theorem setINodeBlock_sets_iff (hsize : ValidBlockSize blockSize) (hi : i < indexCount blockSize) :
    (∀ s : Ext2FsState, s.CanSet blockSize i → ∀ calls metadata, ∀ d < 2 ^ 32,
      s.SetsBlock blockSize metadata (s.setINodeBlock calls blockSize i d) i d) ∧
    ∀ (s : Ext2FsState) (unused : List ℕ), s.DistinctIndexBlocks blockSize → unused.Nodup →
      2 ≤ unused.length → (∀ n ∈ unused, s.Unused blockSize n) →
      (s.SetsWhatever blockSize unused i ↔
        ∀ t, s.SameBut blockSize unused t → t.CanSet blockSize i) := by
  refine ⟨fun s h calls metadata d hd => setsBlock_of_canSet hsize h hd calls metadata,
    fun s unused hblocks hnodup hlength hunused => ⟨fun h t ht => ?_, fun h t ht d hd => ?_⟩⟩
  · obtain ⟨n₁, n₂, rest, rfl⟩ : ∃ n₁ n₂ rest, unused = n₁ :: n₂ :: rest := by
      match unused, hlength with
      | n₁ :: n₂ :: rest, _ => exact ⟨n₁, n₂, rest, rfl⟩
    have hindirect : ∀ n ∈ n₁ :: n₂ :: rest, ¬ s.IsIndirect blockSize n := fun n hn =>
      (hunused n hn).2.2
    have hwhatever : t.SetsWhatever blockSize (n₁ :: n₂ :: rest) i := fun t' ht' =>
      h t' ⟨ht'.1.trans ht.1, fun a ha => (ht'.2 a ha).trans (ht.2 a ha)⟩
    refine canSet_of_setsWhatever hsize hi ?_ ?_ (hblocks.of_sameBut ht hindirect) hwhatever
    · exact fun n hn => ⟨(hunused n hn).1, (hunused n hn).2.1,
        fun h => hindirect n hn (h.of_sameBut ht hindirect)⟩
    · exact fun heq => (List.nodup_cons.mp hnodup).1 (heq ▸ List.mem_cons_self)
  · exact setsBlock_of_canSet hsize (h t ht) hd _ _

/-- A file of 64 blocks of 1024 bytes, with at most one single indirect block, and no entry yet. -/
def oneIndirect (indirect : ℕ) : Ext2FsState where
  node := { sizeLow := 65536, sizeHigh := 0, blocks := fun k =>
    if k = 12 then UInt32.ofNat indirect else if k = 14 then 1048576 else 0 }
  device := fun _ => 0

theorem oneIndirect_readU32 (indirect address : ℕ) :
    readU32 (oneIndirect indirect).device address = 0 := rfl

theorem oneIndirect_triple : (oneIndirect 5).node.block 14 = 1048576 := by
  decide

theorem oneIndirect_distinct : (oneIndirect 5).DistinctIndexBlocks 1024 := by
  refine ⟨fun k k' hk hk' hl hl' => ?_, fun hroot => absurd rfl hroot, fun i address h k _ => ?_⟩
  · have hroots : ∀ k < 15, ∀ k' < 15, 12 ≤ k ∧ 12 ≤ k' ∧ (oneIndirect 5).node.block k ≠ 0 ∧
        (oneIndirect 5).node.block k = (oneIndirect 5).node.block k' → k = k' := by
      decide
    exact fun hne heq => hroots k hk' k' hl' ⟨hk, hl, hne, heq⟩
  · rw [oneIndirect_triple]
    cases h with
    | single hk hroot =>
      rw [show (oneIndirect 5).node.block 12 = 5 from rfl]
      omega
    | double _ _ hroot => exact absurd rfl hroot

theorem oneIndirect_canSet : (oneIndirect 5).CanSet 1024 13 := by
  have hsize : ValidBlockSize 1024 := ⟨0, by decide, rfl⟩
  have hentry : (oneIndirect 5).HasEntry 1024 (12 + 1) (5 * 1024 + 1 * 4) :=
    .single (by decide) (by decide)
  refine Or.inr ⟨_, hentry, fun j _ hne => ?_, hentry.count_lookups hsize oneIndirect_distinct⟩
  cases blockRange (show 0 < 1024 / 4 by decide) j with
  | direct hj =>
    rw [lookups_direct hj]
    exact List.not_mem_nil
  | single hk =>
    rw [lookups_single hk, List.mem_singleton, word_eq_iff hsize (by decide) hk]
    omega
  | double hk hm =>
    rw [lookups_double hk hm, List.mem_pair, oneIndirect_readU32,
      show (oneIndirect 5).node.block 13 = 0 from rfl]
    omega
  | triple hm =>
    rw [lookups_triple hm]
    simp only [oneIndirect_readU32, oneIndirect_triple,
      List.mem_cons, List.not_mem_nil, or_false]
    omega

/-- The roots are the only indirect blocks. -/
theorem oneIndirect_unused {block : ℕ} (hpos : 0 < block) (hlt : block < 1048576)
    (hne : block ≠ 5) : (oneIndirect 5).Unused 1024 block := by
  refine ⟨hpos, by omega, fun h => ?_⟩
  cases h with
  | @root k hlow hhigh hroot =>
    have hthree : k = 12 ∨ k = 13 ∨ k = 14 := by omega
    rcases hthree with rfl | rfl | rfl
    · exact hne rfl
    · exact hroot rfl
    · exact absurd hlt (by decide)
  | entry _ _ _ _ hword hzero => exact hzero (hword.symm.trans (oneIndirect_readU32 _ _))
  | triple _ _ _ _ _ hword hzero => exact hzero (hword.symm.trans (oneIndirect_readU32 _ _))

theorem setINodeBlock_sets_oneIndirect :
    (∀ calls metadata, ∀ d < 2 ^ 32, (oneIndirect 5).SetsBlock 1024 metadata
      ((oneIndirect 5).setINodeBlock calls 1024 13 d) 13 d) ∧
    ¬ (oneIndirect 5).SetsWhatever 1024 [6, 7] 65804 := by
  have hsize : ValidBlockSize 1024 := ⟨0, by decide, rfl⟩
  refine ⟨(setINodeBlock_sets_iff hsize (by decide)).1 _ oneIndirect_canSet, fun h => ?_⟩
  have hunused : ∀ n ∈ [6, 7], (oneIndirect 5).Unused 1024 n := by
    intro n hn
    rcases List.mem_pair.mp hn with rfl | rfl <;>
      exact oneIndirect_unused (by decide) (by decide) (by decide)
  have hset := ((setINodeBlock_sets_iff hsize (by decide)).2 _ [6, 7] oneIndirect_distinct
    (by decide) (by decide) hunused).mp h _ (.refl _ _)
  rcases hset with hi | ⟨_, hentry, -⟩
  · exact absurd hi (by decide)
  · exact absurd hentry.lt (by decide)

/-- A new indirect block of which the second word was not zero. -/
theorem not_setsBlock_stale :
    ¬ ((oneIndirect 0).writeU32 5124 9).SetsBlock 1024 (fun _ => False)
      (((oneIndirect 0).writeU32 5124 9).setINodeBlock ⟨fun s => (5, s), id⟩ 1024 12 7) 12 7 := by
  intro h
  have hother := h.get_other 13 (by decide) (by decide)
  revert hother
  decide

end Ext2FsState

end Cryptix.VFS
