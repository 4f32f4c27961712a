import Cryptix.VFS.Ext2FsBlockMap

/-!
# Writing an ext2 file

`WriteINode` of `Kernel/VFS/Ext2Fs/Ext2Fs.cpp`, with `GrowINode` and `AssignINodeBlocks`. First the
blocks that are missing are allocated, then the data is written block by block.

`GrowINode` counts the blocks of the data as if it began at the start of a block, so that the last
block can be missing still; and neither it nor the loop looks at whether a block could be allocated.
What is missing is block 0, and the data goes there (`writeINode_writes_iff`).

`AllocateBlock` and `WriteINodeEntry` are parameters. They write to the blocks of the volume that
hold its metadata, `WriteINodeEntry` to the inode table only, and `AllocateBlock` returns block
after block of a supply, then 0.
-/

namespace Cryptix.VFS

open Lib

namespace Ext2FsState

variable (calls : Ext2FsCalls) (blockSize : ℕ)

/-- A turn of `AssignINodeBlocks`. -/
def assignINodeBlock (s : Ext2FsState) (iblock : ℕ) : Ext2FsState :=
  if s.getINodeBlock blockSize iblock ≠ 0 then s
  else
    let dblock := calls.allocateBlock s
    dblock.2.setINodeBlock calls blockSize iblock (dblock.1 % 2 ^ 32)

/-- The indices of `AssignINodeBlocks`. -/
def assigned (start blocks : ℕ) : List ℕ :=
  (List.range blocks).map fun i => (start + i) % 2 ^ 32

/-- `AssignINodeBlocks`. -/
def assignINodeBlocks (start blocks : ℕ) (s : Ext2FsState) : Ext2FsState :=
  calls.writeINodeEntry ((assigned start blocks).foldl (assignINodeBlock calls blockSize) s)

/-- The indices that `GrowINode` assigns. -/
def grown (start count : ℕ) : List ℕ :=
  assigned (start / blockSize) ((count + blockSize - 1) % wordCount / blockSize)

/-- `GrowINode`. -/
def growINode (start count : ℕ) (s : Ext2FsState) : Ext2FsState :=
  assignINodeBlocks calls blockSize (start / blockSize)
    ((count + blockSize - 1) % wordCount / blockSize) s

/-- `m_Device->Write(bytes, address, size)`. -/
def writeData (s : Ext2FsState) (address size : ℕ) (bytes : ℕ → UInt8) : Ext2FsState :=
  { s with device := overlay address size bytes s.device }

/-- The loop of `WriteINode`, with the blocks it has written to. -/
def writeBlocks (data : ℕ → UInt8) (offset count : ℕ) :
    ℕ → ℕ → Ext2FsState → List ℕ → Option (Ext2FsState × List ℕ)
  | 0, head, s, written => if head < count then none else some (s, written)
  | fuel + 1, head, s, written =>
    if head < count then
      let iblock := (offset + head) % wordCount / blockSize
      let size := count - head
      let subOffset := (offset + head) % wordCount % blockSize
      let size := if size > blockSize - subOffset then blockSize - subOffset else size
      let dblock := s.getINodeBlock blockSize (iblock % 2 ^ 32)
      let s := s.writeData (dblock * blockSize + subOffset) size fun i => data (head + i)
      writeBlocks data offset count fuel (head + size) s (written ++ [dblock])
    else some (s, written)

/-- The size of a file that is written to behind its end. -/
def growSize (offset count : ℕ) (s : Ext2FsState) : Ext2FsState :=
  if (offset + count) % wordCount > s.node.getSize then
    calls.writeINodeEntry { s with node := s.node.setSize ((offset + count) % wordCount) }
  else s

/-- `WriteINode`, with the offset as an `usize`. Every turn of the loop writes a byte at least. -/
def writeINode (data : ℕ → UInt8) (offset count : ℕ) (s : Ext2FsState) :
    Option (ℕ × Ext2FsState × List ℕ) :=
  let s := s.growINode calls blockSize offset count
  let s := s.growSize calls offset count
  (writeBlocks blockSize data offset count count 0 s []).map fun result => (count, result)

end Ext2FsState

/-! ## What a write should do -/

namespace Ext2FsState

variable (s : Ext2FsState) (blockSize : ℕ)

/-- Where a byte of the file is. -/
def place (position : ℕ) : ℕ :=
  s.getINodeBlock blockSize (position / blockSize % 2 ^ 32) * blockSize + position % blockSize

/-- The indices of the blocks that a write touches. -/
def touched (offset count : ℕ) : Set ℕ :=
  {j | ∃ position, offset ≤ position ∧ position < offset + count ∧ position / blockSize = j}

/-- These and the indices of the blocks that the file has. -/
def fileIndices (offset count : ℕ) : Set ℕ :=
  {j | ∃ position < s.node.getSize, position / blockSize = j} ∪ touched blockSize offset count

/-- What a write should do: the data is written to blocks of the file only, and the file has it
afterwards, and is otherwise what it was. -/
structure WritesFile (others : ℕ → Prop) (data : ℕ → UInt8) (offset count : ℕ) (s' : Ext2FsState)
    (written : List ℕ) : Prop where
  blocks : ∀ block ∈ written, block ≠ 0 ∧ ¬ others block ∧
    ∃ j, s'.getINodeBlock blockSize j = block
  size : s'.node.getSize = max s.node.getSize (offset + count)
  read_back : ∀ position, offset ≤ position → position < offset + count →
    fileByte blockSize s'.device s'.node position = data (position - offset)
  kept : ∀ position < s.node.getSize, position < offset ∨ offset + count ≤ position →
    fileByte blockSize s'.device s'.node position = fileByte blockSize s.device s.node position

end Ext2FsState

/-- `AllocateBlock` returns what the metadata of the volume says it will, one block after the other,
and writes to metadata only; `WriteINodeEntry` writes to the inode table, which is a part of it. -/
structure Ext2FsCalls.Supplies (calls : Ext2FsCalls) (blockSize : ℕ) (metadata table : ℕ → Prop)
    (supply : (ℕ → UInt8) → ℕ → ℕ) : Prop where
  table_le : ∀ block, table block → metadata block
  next : ∀ s, (calls.allocateBlock s).1 = supply s.device 0
  rest : ∀ s n, supply (calls.allocateBlock s).2.device n = supply s.device (n + 1)
  entry : ∀ s, supply (calls.writeINodeEntry s).device = supply s.device
  depends : ∀ device device' : ℕ → UInt8,
    (∀ address, metadata (address / blockSize) → device address = device' address) →
      supply device = supply device'
  allocate_node : ∀ s, (calls.allocateBlock s).2.node = s.node
  entry_node : ∀ s, (calls.writeINodeEntry s).node = s.node
  allocate_device : ∀ s address, ¬ metadata (address / blockSize) →
    (calls.allocateBlock s).2.device address = s.device address
  entry_device : ∀ s address, ¬ table (address / blockSize) →
    (calls.writeINodeEntry s).device address = s.device address

/-- The calls of a write that finds all its blocks. -/
def Ext2FsCalls.idle (calls : Ext2FsCalls) : Ext2FsCalls :=
  { calls with allocateBlock := fun s => (0, s) }

theorem Ext2FsCalls.Supplies.idle {calls : Ext2FsCalls} {blockSize : ℕ} {metadata table : ℕ → Prop}
    {supply : (ℕ → UInt8) → ℕ → ℕ} (h : calls.Supplies blockSize metadata table supply) :
    calls.idle.Supplies blockSize table table fun _ _ => 0 where
  table_le _ := id
  next _ := rfl
  rest _ _ := rfl
  entry _ := rfl
  depends _ _ _ := rfl
  allocate_node _ := rfl
  entry_node := h.entry_node
  allocate_device _ _ _ := rfl
  entry_device := h.entry_device

namespace Ext2FsState

variable (s : Ext2FsState) (blockSize : ℕ)

/-- The blocks of a file are where they should be: no lookup reads metadata, and the blocks that
exist are not metadata, not blocks of another file, not on the way to a block, and distinct. -/
structure Layout (metadata others : ℕ → Prop) (indices : Set ℕ) : Prop where
  lookups : ∀ j ∈ indices, ∀ address ∈ s.lookups blockSize j, ¬ metadata (address / blockSize)
  metadata : ∀ j ∈ indices, s.getINodeBlock blockSize j ≠ 0 →
    ¬ metadata (s.getINodeBlock blockSize j)
  others : ∀ j ∈ indices, s.getINodeBlock blockSize j ≠ 0 → ¬ others (s.getINodeBlock blockSize j)
  apart : ∀ j ∈ indices, s.getINodeBlock blockSize j ≠ 0 → ∀ k ∈ indices,
    ∀ address ∈ s.lookups blockSize k, address / blockSize ≠ s.getINodeBlock blockSize j
  distinct : ∀ j ∈ indices, s.getINodeBlock blockSize j ≠ 0 → ∀ k ∈ indices,
    s.getINodeBlock blockSize k = s.getINodeBlock blockSize j → k = j

/-- The first blocks of the supply, as many as are needed, are unused: not metadata, not blocks of
another file, and not in the inode; and each is supplied once. -/
def Fresh (metadata others : ℕ → Prop) (indices : Set ℕ) (needed : ℕ) (supply : ℕ → ℕ) : Prop :=
  ∀ n < needed, supply n ≠ 0 → supply n < 2 ^ 32 ∧ ¬ metadata (supply n) ∧ ¬ others (supply n) ∧
    (∀ j ∈ indices, s.getINodeBlock blockSize j ≠ supply n ∧
      ∀ address ∈ s.lookups blockSize j, address / blockSize ≠ supply n) ∧
    ∀ n' < needed, supply n' = supply n → n' = n

/-- An entry that `SetINodeBlock` sets, as far as the blocks of the file go. -/
def Settable (indices : Set ℕ) (iblock : ℕ) : Prop :=
  iblock < 12 ∨ ∃ address, s.HasEntry blockSize iblock address ∧
    (∀ j ∈ indices, j ≠ iblock → address ∉ s.lookups blockSize j) ∧
    (s.lookups blockSize iblock).count address = 1

/-- The number of blocks that a write allocates. -/
def missingBlocks (offset count : ℕ) : ℕ :=
  (grown blockSize offset count).countP (s.getINodeBlock blockSize · = 0)

/-- The metadata that a write changes: none but the inode table if nothing is allocated. -/
def changes (metadata table : ℕ → Prop) (offset count : ℕ) : ℕ → Prop :=
  if s.missingBlocks blockSize offset count = 0 then table else metadata

/-- A file in good order, for a write that changes the metadata: its blocks and the blocks that are
allocated are where they should be, the entries that are missing can be set, and what the file has
besides the range is in blocks that exist, or in a hole that is not touched. A hole reads as block
0, which may not be metadata that changes. -/
structure InOrder (metadata others : ℕ → Prop) (supply : ℕ → ℕ) (offset count : ℕ) : Prop where
  size_le : s.node.getSize ≤ 2 ^ 32 * blockSize
  end_le : offset + count ≤ 2 ^ 32 * blockSize
  layout : s.Layout blockSize metadata others (s.fileIndices blockSize offset count)
  fresh : s.Fresh blockSize metadata others (s.fileIndices blockSize offset count)
    (s.missingBlocks blockSize offset count) supply
  settable : ∀ i ∈ grown blockSize offset count, s.getINodeBlock blockSize i = 0 →
    s.Settable blockSize (s.fileIndices blockSize offset count) i
  holes : ∀ position < s.node.getSize, position < offset ∨ offset + count ≤ position →
    s.getINodeBlock blockSize (position / blockSize) ≠ 0 ∨
      position / blockSize ∉ touched blockSize offset count ∧ ¬ metadata 0

/-- Every block that is touched is there, or is one of those that `GrowINode` looks for and gets. -/
def AllFound (supply : ℕ → ℕ) (offset count : ℕ) : Prop :=
  (∀ n < s.missingBlocks blockSize offset count, supply n ≠ 0) ∧
    ∀ j ∈ touched blockSize offset count, j ∉ grown blockSize offset count →
      s.getINodeBlock blockSize j ≠ 0

end Ext2FsState

/-! ## Lookups -/

namespace Ext2FsState

variable {calls : Ext2FsCalls} {metadata table others : ℕ → Prop}
  {supply : (ℕ → UInt8) → ℕ → ℕ}
  {s t : Ext2FsState} {blockSize i j : ℕ} {indices : Set ℕ}

/-- Where a lookup goes does not depend on the word it ends at. -/
theorem lookups_congr (hsize : ValidBlockSize blockSize)
    (hnode : ∀ k, 12 ≤ k → t.node.block k = s.node.block k)
    (hwords : ∀ address ∈ (s.lookups blockSize j).dropLast,
      readU32 t.device address = readU32 s.device address) :
    t.lookups blockSize j = s.lookups blockSize j := by
  obtain ⟨hmin, -, -⟩ := hsize.bounds
  cases blockRange (show 0 < blockSize / 4 by omega) j with
  | direct hj => rw [lookups_direct hj, lookups_direct hj]
  | single hk => rw [lookups_single hk, lookups_single hk, hnode 12 (by omega)]
  | double hk hm =>
    rw [lookups_double hk hm] at hwords
    rw [lookups_double hk hm, lookups_double hk hm, hnode 13 (by omega),
      hwords _ List.mem_cons_self]
  | triple hm =>
    rw [lookups_triple hm] at hwords
    rw [lookups_triple hm, lookups_triple hm, hnode 14 (by omega)]
    dsimp only
    rw [hwords _ List.mem_cons_self, hwords _ (List.mem_cons_of_mem _ List.mem_cons_self)]

/-- An entry stays where it is as long as the way to it is the same. -/
theorem HasEntry.congr {address : ℕ} (hroots : ∀ k, 12 ≤ k → t.node.block k = s.node.block k)
    (hwords : ∀ word ∈ s.lookups blockSize i, readU32 t.device word = readU32 s.device word)
    (h : s.HasEntry blockSize i address) : t.HasEntry blockSize i address := by
  cases h with
  | single hk hroot =>
    rw [← hroots 12 le_rfl] at hroot ⊢
    exact .single hk hroot
  | double hk hm hroot hword hne =>
    rw [lookups_double hk hm] at hwords
    have hfirst := hwords _ List.mem_cons_self
    rw [← hroots 13 (by decide)] at hroot hword hfirst
    exact .double hk hm hroot (hfirst.trans hword) hne

theorem Settable.congr (hroots : ∀ k, 12 ≤ k → t.node.block k = s.node.block k)
    (hwords : ∀ word ∈ s.lookups blockSize i, readU32 t.device word = readU32 s.device word)
    (hlookups : ∀ j ∈ indices, t.lookups blockSize j = s.lookups blockSize j) (hi : i ∈ indices)
    (h : s.Settable blockSize indices i) : t.Settable blockSize indices i := by
  rcases h with hdirect | ⟨address, hentry, hother, hcount⟩
  · exact Or.inl hdirect
  · refine Or.inr ⟨address, hentry.congr hroots hwords, fun j hj hne => ?_, ?_⟩
    · rw [hlookups j hj]
      exact hother j hj hne
    · rwa [hlookups i hi]

/-- The bytes of a word are in one block. -/
theorem div_of_aligned (hsize : ValidBlockSize blockSize) {word address : ℕ}
    (haligned : word % 4 = 0) (hle : word ≤ address) (hlt : address < word + 4) :
    address / blockSize = word / blockSize := by
  obtain ⟨hmin, -, hlevel⟩ := hsize.bounds
  have hdiv : ∀ a, a / blockSize = a / 4 / (blockSize / 4) := fun a => by
    rw [Nat.div_div_eq_div_mul, Nat.mul_comm, hlevel]
  rw [hdiv address, hdiv word, show address / 4 = word / 4 by omega]

/-- A lookup reads the word of its entry only in the end. -/
theorem HasEntry.not_mem_dropLast {address : ℕ} (h : s.HasEntry blockSize i address)
    (hcount : (s.lookups blockSize i).count address = 1) :
    address ∉ (s.lookups blockSize i).dropLast := by
  obtain ⟨l, hl⟩ : ∃ l, s.lookups blockSize i = l ++ [address] := by
    cases h with
    | single hk hroot => exact ⟨[], lookups_single hk⟩
    | double hk hm hroot hword hne => exact ⟨[_], by rw [lookups_double hk hm, hword]; rfl⟩
  rw [hl, List.count_append, List.count_singleton_self, Nat.add_eq_right] at hcount
  rw [hl, List.dropLast_concat]
  exact List.count_eq_zero.mp hcount

/-- A word depends on its block. -/
theorem readU32_congr_block (hsize : ValidBlockSize blockSize) {address : ℕ}
    (haligned : address % 4 = 0)
    (h : ∀ a, a / blockSize = address / blockSize → t.device a = s.device a) :
    readU32 t.device address = readU32 s.device address := by
  obtain ⟨hmin, -, hlevel⟩ := hsize.bounds
  refine readLE_congr fun i hi => h _ ?_
  have hdiv : ∀ a, a / blockSize = a / 4 / (blockSize / 4) := fun a => by
    rw [Nat.div_div_eq_div_mul, Nat.mul_comm, hlevel]
  rw [hdiv (address + i), hdiv address, show (address + i) / 4 = address / 4 by omega]

/-- What changes when an entry of the file is set. -/
structure SetsEntry (s t : Ext2FsState) (blockSize : ℕ) (indices : Set ℕ) (iblock dblock : ℕ) :
    Prop where
  size : t.node.getSize = s.node.getSize
  get_self : t.getINodeBlock blockSize iblock = dblock
  get_other : ∀ j ∈ indices, j ≠ iblock →
    t.getINodeBlock blockSize j = s.getINodeBlock blockSize j
  lookups : ∀ j ∈ indices, t.lookups blockSize j = s.lookups blockSize j
  settable : ∀ j ∈ indices, j ≠ iblock → s.Settable blockSize indices j →
    t.Settable blockSize indices j
  device : ∀ address, (address / blockSize = 0 ∨ ∀ word ∈ s.lookups blockSize iblock,
    address / blockSize ≠ word / blockSize) → t.device address = s.device address

theorem setsEntry_direct (hsize : ValidBlockSize blockSize) (hi : i < 12) {dblock : ℕ}
    (hd : dblock < 2 ^ 32) : s.SetsEntry (s.setBlock i dblock) blockSize indices i dblock := by
  have hroots : ∀ k, k ≠ i → (s.setBlock i dblock).node.block k = s.node.block k := fun k hk => by
    rw [setBlock_block, if_neg hk]
  have hlookups : ∀ j ∈ indices,
      (s.setBlock i dblock).lookups blockSize j = s.lookups blockSize j := fun j _ =>
    lookups_congr hsize (fun k hk => hroots k (by omega)) fun _ _ => rfl
  refine ⟨rfl, ?_, fun j _ hj => ?_, hlookups, fun j hj _ hset => ?_, fun _ _ => rfl⟩
  · rw [getINodeBlock_direct hi, setBlock_block, if_pos rfl, Nat.mod_eq_of_lt hd]
  · exact getINodeBlock_congr hsize (fun k hk => hroots k (by omega)) fun _ _ => rfl
  · exact hset.congr (fun k hk => hroots k (by omega)) (fun _ _ => rfl) hlookups hj

theorem setsEntry_word (hsize : ValidBlockSize blockSize) {address dblock : ℕ}
    (hentry : s.HasEntry blockSize i address)
    (hother : ∀ j ∈ indices, j ≠ i → address ∉ s.lookups blockSize j)
    (hcount : (s.lookups blockSize i).count address = 1) (hd : dblock < 2 ^ 32) :
    s.SetsEntry (s.writeU32 address dblock) blockSize indices i dblock := by
  have haligned : address % 4 = 0 := lookups_mod_four hsize hentry.mem_lookups
  have hnew := hasEntry_writeU32 hsize hentry hcount dblock
  have hkeep : ∀ j ∈ indices, j ≠ i → ∀ word ∈ s.lookups blockSize j,
      readU32 (s.writeU32 address dblock).device word = readU32 s.device word := by
    intro j hj hne word hword
    refine readU32_writeU32_of_ne s dblock haligned (lookups_mod_four hsize hword) ?_
    exact fun heq => hother j hj hne (heq ▸ hword)
  have hlookups : ∀ j ∈ indices,
      (s.writeU32 address dblock).lookups blockSize j = s.lookups blockSize j := by
    intro j hj
    by_cases hne : j = i
    · subst hne
      refine lookups_congr hsize (fun _ _ => rfl) fun word hword => ?_
      refine readU32_writeU32_of_ne s dblock haligned
        (lookups_mod_four hsize (List.dropLast_subset _ hword)) ?_
      exact fun heq => hentry.not_mem_dropLast hcount (heq ▸ hword)
    · exact lookups_congr hsize (fun _ _ => rfl) fun word hword =>
        hkeep j hj hne word (List.dropLast_subset _ hword)
  refine ⟨rfl, ?_, fun j hj hne => ?_, hlookups, fun j hj hne hset => ?_, fun a ha => ?_⟩
  · rw [hnew.getINodeBlock, readU32_writeU32_self, Nat.mod_eq_of_lt hd]
  · exact getINodeBlock_congr hsize (fun _ _ => rfl) (hkeep j hj hne)
  · exact hset.congr (s := s) (fun _ _ => rfl) (hkeep j hj hne) hlookups hj
  · refine writeLE_of_not_mem ?_
    by_contra hnear
    have hblock : a / blockSize = address / blockSize :=
      div_of_aligned hsize haligned (by omega) (by omega)
    rcases ha with hzero | hwords
    · have hindirect := hentry.isIndirect hsize (show 0 < 4 by decide)
      exact hindirect.ne_zero (hblock.symm.trans hzero)
    · exact hwords address hentry.mem_lookups hblock

theorem setsEntry (hsize : ValidBlockSize blockSize)
    (hset : s.Settable blockSize indices i) {dblock : ℕ} (hd : dblock < 2 ^ 32)
    (calls : Ext2FsCalls) :
    s.SetsEntry (s.setINodeBlock calls blockSize i dblock) blockSize indices i dblock := by
  rcases hset with hi | ⟨address, hentry, hother, hcount⟩
  · rw [setINodeBlock_direct hi]
    exact setsEntry_direct hsize hi hd
  · rw [setINodeBlock_of_hasEntry hentry]
    exact setsEntry_word hsize hentry hother hcount hd

/-! ## Assigning the missing blocks -/

/-- What `AssignINodeBlocks` finds, turn after turn. -/
structure Assigns (s t : Ext2FsState) (blockSize : ℕ) (metadata others : ℕ → Prop)
    (indices : Set ℕ) : Prop where
  size : t.node.getSize = s.node.getSize
  lookups : ∀ j ∈ indices, t.lookups blockSize j = s.lookups blockSize j
  found : ∀ j ∈ indices, s.getINodeBlock blockSize j ≠ 0 →
    t.getINodeBlock blockSize j = s.getINodeBlock blockSize j
  device : ∀ address, ¬ metadata (address / blockSize) →
    (address / blockSize = 0 ∨
      ∀ j ∈ indices, ∀ word ∈ s.lookups blockSize j, address / blockSize ≠ word / blockSize) →
    t.device address = s.device address
  layout : t.Layout blockSize metadata others indices

/-- Where nothing but metadata has changed, the lookups of the file are the same. -/
theorem Layout.words (h : s.Layout blockSize metadata others indices)
    (hsize : ValidBlockSize blockSize)
    (hdevice : ∀ address, ¬ metadata (address / blockSize) →
      t.device address = s.device address) :
    ∀ j ∈ indices, ∀ address ∈ s.lookups blockSize j,
      readU32 t.device address = readU32 s.device address := fun j hj address haddress =>
  readU32_congr_block hsize (lookups_mod_four hsize haddress) fun a ha =>
    hdevice a (ha ▸ h.lookups j hj address haddress)

section Missing

variable {needed : ℕ} (hsize : ValidBlockSize blockSize)
  (hcalls : calls.Supplies blockSize metadata table supply)
  (hlayout : s.Layout blockSize metadata others indices)
  (hfresh : s.Fresh blockSize metadata others indices (needed + 1) (supply s.device))
  (hi : i ∈ indices) (hmissing : s.getINodeBlock blockSize i = 0)
  (hset : s.Settable blockSize indices i)
include hsize hcalls hlayout hfresh hi hmissing hset

/-- An entry gets the next block of the supply. -/
theorem assignINodeBlock_missing :
    ∃ s₁ : Ext2FsState, s₁.node = s.node ∧
      (∀ address, ¬ metadata (address / blockSize) → s₁.device address = s.device address) ∧
      (∀ j ∈ indices, s₁.lookups blockSize j = s.lookups blockSize j) ∧
      (∀ j ∈ indices, s₁.getINodeBlock blockSize j = s.getINodeBlock blockSize j) ∧
      (∀ j ∈ indices, s.Settable blockSize indices j → s₁.Settable blockSize indices j) ∧
      (∀ n, supply (s.assignINodeBlock calls blockSize i).device n = supply s.device (n + 1)) ∧
      s₁.SetsEntry (s.assignINodeBlock calls blockSize i) blockSize indices i
        (supply s.device 0) := by
  set s₁ := (calls.allocateBlock s).2 with hs₁
  have hnode : s₁.node = s.node := hcalls.allocate_node s
  have hdevice := hcalls.allocate_device s
  have hroots : ∀ k, 12 ≤ k → s₁.node.block k = s.node.block k := fun k _ => by rw [hnode]
  have hwords := hlayout.words (t := s₁) hsize hdevice
  have hlookups : ∀ j ∈ indices, s₁.lookups blockSize j = s.lookups blockSize j := fun j hj =>
    lookups_congr hsize hroots fun word hword => hwords j hj word (List.dropLast_subset _ hword)
  have hgets : ∀ j ∈ indices, s₁.getINodeBlock blockSize j = s.getINodeBlock blockSize j :=
    fun j hj => getINodeBlock_congr hsize (fun k _ => by rw [hnode]) (hwords j hj)
  have hsettable : ∀ j ∈ indices, s.Settable blockSize indices j →
      s₁.Settable blockSize indices j := fun j hj h => h.congr hroots (hwords j hj) hlookups hj
  have hlt : supply s.device 0 < 2 ^ 32 := by
    by_cases hzero : supply s.device 0 = 0
    · omega
    · exact (hfresh 0 needed.succ_pos hzero).1
  have hassign : s.assignINodeBlock calls blockSize i =
      s₁.setINodeBlock calls blockSize i (supply s.device 0) := by
    rw [assignINodeBlock, if_neg (not_not.mpr hmissing)]
    simp only [hcalls.next, Nat.mod_eq_of_lt hlt, hs₁]
  have hentry := setsEntry hsize (hsettable i hi hset) hlt calls
  refine ⟨s₁, hnode, hdevice, hlookups, hgets, hsettable, fun n => ?_, hassign ▸ hentry⟩
  rw [← hcalls.rest, ← hs₁, hassign]
  refine congrFun (hcalls.depends _ _ fun address hmeta => hentry.device address (Or.inr ?_)) n
  intro word hword heq
  rw [hlookups i hi] at hword
  exact hlayout.lookups i hi word hword (heq ▸ hmeta)

/-- A turn of `AssignINodeBlocks` for an entry that is missing, and what is still needed then. -/
theorem Assigns.missing :
    s.Assigns (s.assignINodeBlock calls blockSize i) blockSize metadata others indices ∧
      (s.assignINodeBlock calls blockSize i).Fresh blockSize metadata others indices needed
        (supply (s.assignINodeBlock calls blockSize i).device) := by
  obtain ⟨s₁, hnode, hdevice, hlookups, hgets, -, hsupply, hentry⟩ :=
    assignINodeBlock_missing hsize hcalls hlayout hfresh hi hmissing hset
  set t := s.assignINodeBlock calls blockSize i
  have hother : ∀ j ∈ indices, j ≠ i → t.getINodeBlock blockSize j = s.getINodeBlock blockSize j :=
    fun j hj hne => (hentry.get_other j hj hne).trans (hgets j hj)
  have hways : ∀ j ∈ indices, t.lookups blockSize j = s.lookups blockSize j := fun j hj =>
    (hentry.lookups j hj).trans (hlookups j hj)
  have hzero := hfresh 0 needed.succ_pos
  rw [← hentry.get_self] at hzero
  refine ⟨⟨hentry.size.trans (by rw [hnode]), hways, fun j hj hfound => ?_,
    fun address hmeta hword => ?_, ⟨?_, ?_, ?_, ?_, ?_⟩⟩, ?_⟩
  · exact hother j hj fun heq => hfound (heq ▸ hmissing)
  · refine (hentry.device address (hword.imp_right fun hall word h => ?_)).trans
      (hdevice address hmeta)
    rw [hlookups i hi] at h
    exact hall i hi word h
  · intro j hj address haddress
    rw [hways j hj] at haddress
    exact hlayout.lookups j hj address haddress
  · intro j hj hne
    by_cases hji : j = i
    · subst hji
      exact (hzero hne).2.1
    · rw [hother j hj hji] at hne ⊢
      exact hlayout.metadata j hj hne
  · intro j hj hne
    by_cases hji : j = i
    · subst hji
      exact (hzero hne).2.2.1
    · rw [hother j hj hji] at hne ⊢
      exact hlayout.others j hj hne
  · intro j hj hne k hk address haddress
    rw [hways k hk] at haddress
    by_cases hji : j = i
    · subst hji
      exact ((hzero hne).2.2.2.1 k hk).2 address haddress
    · rw [hother j hj hji] at hne ⊢
      exact hlayout.apart j hj hne k hk address haddress
  · intro j hj hne k hk heq
    by_contra hkj
    by_cases hji : j = i
    · subst hji
      rw [hother k hk hkj] at heq
      exact ((hzero hne).2.2.2.1 k hk).1 heq
    · by_cases hki : k = i
      · subst hki
        rw [heq] at hzero
        exact ((hzero hne).2.2.2.1 j hj).1 (hother j hj hji).symm
      · rw [hother j hj hji] at hne heq
        rw [hother k hk hki] at heq
        exact hkj (hlayout.distinct j hj hne k hk heq)
  · intro n hn hne
    rw [hsupply] at hne ⊢
    obtain ⟨hlt, hmeta, hothers, hapart, honce⟩ := hfresh (n + 1) (Nat.succ_lt_succ hn) hne
    refine ⟨hlt, hmeta, hothers, fun j hj => ⟨?_, fun address haddress => ?_⟩,
      fun n' hn' heq => ?_⟩
    · by_cases hji : j = i
      · subst hji
        rw [hentry.get_self]
        exact fun heq => absurd (honce 0 needed.succ_pos heq) (by omega)
      · rw [hother j hj hji]
        exact (hapart j hj).1
    · rw [hways j hj] at haddress
      exact (hapart j hj).2 address haddress
    · rw [hsupply] at heq
      exact Nat.succ_injective (honce (n' + 1) (Nat.succ_lt_succ hn') heq)

end Missing

theorem Assigns.trans {u : Ext2FsState}
    (h : s.Assigns t blockSize metadata others indices)
    (h' : t.Assigns u blockSize metadata others indices) :
    s.Assigns u blockSize metadata others indices where
  size := h'.size.trans h.size
  lookups j hj := (h'.lookups j hj).trans (h.lookups j hj)
  found j hj hne := by
    have hsame := h.found j hj hne
    exact (h'.found j hj (hsame ▸ hne)).trans hsame
  device address hmeta hwords := by
    refine (h'.device address hmeta (hwords.imp_right fun hall j hj word hword => ?_)).trans
      (h.device address hmeta hwords)
    rw [h.lookups j hj] at hword
    exact hall j hj word hword
  layout := h'.layout

/-- The loop of `AssignINodeBlocks`. The entries that are found are left alone, and those that are
missing get what is supplied, one after the other. -/
theorem foldl_assignINodeBlock (hsize : ValidBlockSize blockSize)
    (hcalls : calls.Supplies blockSize metadata table supply) (l : List ℕ) (hl : l.Nodup)
    (hmem : ∀ i ∈ l, i ∈ indices)
    (hlayout : s.Layout blockSize metadata others indices)
    (hfresh : s.Fresh blockSize metadata others indices
      (l.countP (s.getINodeBlock blockSize · = 0)) (supply s.device))
    (hset : ∀ i ∈ l, s.getINodeBlock blockSize i = 0 → s.Settable blockSize indices i) :
    let t := l.foldl (assignINodeBlock calls blockSize) s
    s.Assigns t blockSize metadata others indices ∧
      (∀ j ∈ indices, j ∉ l → t.getINodeBlock blockSize j = s.getINodeBlock blockSize j) ∧
      ((∀ j ∈ l, t.getINodeBlock blockSize j ≠ 0) ↔
        ∀ n < l.countP (s.getINodeBlock blockSize · = 0), supply s.device n ≠ 0) := by
  induction l generalizing s with
  | nil =>
    refine ⟨⟨rfl, fun _ _ => rfl, fun _ _ _ => rfl, fun _ _ _ => rfl, hlayout⟩,
      fun _ _ _ => rfl, ?_⟩
    simp
  | cons i rest ih =>
    obtain ⟨hnew, hrest⟩ := List.nodup_cons.mp hl
    have hi := hmem i List.mem_cons_self
    have hmem' : ∀ i ∈ rest, i ∈ indices := fun j hj => hmem j (List.mem_cons_of_mem _ hj)
    by_cases hmissing : s.getINodeBlock blockSize i = 0
    · have hseti := hset i List.mem_cons_self hmissing
      have hone : (i :: rest).countP (s.getINodeBlock blockSize · = 0) =
          rest.countP (s.getINodeBlock blockSize · = 0) + 1 :=
        List.countP_cons_of_pos (by simpa using hmissing)
      rw [hone] at hfresh
      obtain ⟨hassign, hnext⟩ := Assigns.missing hsize hcalls hlayout hfresh hi hmissing hseti
      obtain ⟨s₁, -, -, -, hgets, hsettable, hsupply, hentry⟩ :=
        assignINodeBlock_missing hsize hcalls hlayout hfresh hi hmissing hseti
      set t := s.assignINodeBlock calls blockSize i
      have hother : ∀ j ∈ indices, j ≠ i →
          t.getINodeBlock blockSize j = s.getINodeBlock blockSize j :=
        fun j hj hne => (hentry.get_other j hj hne).trans (hgets j hj)
      have hne : ∀ j ∈ rest, j ≠ i := fun j hj heq => hnew (heq ▸ hj)
      have hcount : rest.countP (t.getINodeBlock blockSize · = 0) =
          rest.countP (s.getINodeBlock blockSize · = 0) :=
        List.countP_congr fun j hj => by rw [hother j (hmem' j hj) (hne j hj)]
      rw [← hcount] at hnext
      obtain ⟨hrun, hkept, hall⟩ := ih hrest hmem' hassign.layout hnext fun j hj hzero => by
        refine hentry.settable j (hmem' j hj) (hne j hj) (hsettable j (hmem' j hj) ?_)
        refine hset j (List.mem_cons_of_mem _ hj) ?_
        rwa [← hother j (hmem' j hj) (hne j hj)]
      refine ⟨hassign.trans hrun, fun j hj hnot => ?_, ?_⟩
      · obtain ⟨hji, hjrest⟩ := not_or.mp (List.mem_cons.not.mp hnot)
        exact (hkept j hj hjrest).trans (hother j hj hji)
      · have hself := (hkept i hi hnew).trans hentry.get_self
        rw [List.forall_mem_cons, hone, Nat.forall_lt_succ_left, List.foldl_cons, hself, hall,
          hcount]
        simp only [hsupply]
    · have hfound : s.assignINodeBlock calls blockSize i = s := if_pos hmissing
      have hnone : (i :: rest).countP (s.getINodeBlock blockSize · = 0) =
          rest.countP (s.getINodeBlock blockSize · = 0) :=
        List.countP_cons_of_neg (by simpa using hmissing)
      rw [hnone] at hfresh
      obtain ⟨hrun, hkept, hall⟩ := ih hrest hmem' hlayout hfresh fun j hj =>
        hset j (List.mem_cons_of_mem _ hj)
      rw [List.foldl_cons, hfound]
      refine ⟨hrun, fun j hj hnot => hkept j hj fun h => hnot (List.mem_cons_of_mem _ h), ?_⟩
      rw [List.forall_mem_cons, hnone, ← hall, hrun.found i hi hmissing]
      exact and_iff_right hmissing

/-! ## Writing block by block -/

variable {data : ℕ → UInt8} {offset count fuel head : ℕ} {written : List ℕ}

theorem writeData_of_mem (s : Ext2FsState) (address : ℕ) {size i : ℕ} (bytes : ℕ → UInt8)
    (hi : i < size) : (s.writeData address size bytes).device (address + i) = bytes i :=
  overlay_of_mem address bytes s.device hi

theorem writeData_of_not_mem {address size a : ℕ} (s : Ext2FsState) (bytes : ℕ → UInt8)
    (h : a < address ∨ address + size ≤ a) :
    (s.writeData address size bytes).device a = s.device a :=
  overlay_of_not_mem bytes s.device h

theorem place_lt {position : ℕ} (hsize : ValidBlockSize blockSize)
    (hlt : position < 2 ^ 32 * blockSize) :
    s.place blockSize position =
      s.getINodeBlock blockSize (position / blockSize) * blockSize + position % blockSize := by
  have hmin := hsize.bounds.1
  rw [place, Nat.mod_eq_of_lt (Nat.div_lt_of_lt_mul (by rwa [Nat.mul_comm]))]

/-- The bytes of a block are one after the other. -/
theorem place_add {position i : ℕ} (hi : i < blockSize - position % blockSize) :
    s.place blockSize (position + i) = s.place blockSize position + i := by
  obtain ⟨hdiv, hmod⟩ := add_in_block hi
  rw [place, place, hdiv, hmod, Nat.add_assoc]

/-- A turn writes the data up to the end of a block. -/
theorem writeBlocks_succ (hsize : ValidBlockSize blockSize) (hhead : head < count)
    (hend : offset + count ≤ 2 ^ 32 * blockSize) :
    writeBlocks blockSize data offset count (fuel + 1) head s written =
      let size := min (count - head) (blockSize - (offset + head) % blockSize)
      writeBlocks blockSize data offset count fuel (head + size)
        (s.writeData (s.place blockSize (offset + head)) size fun i => data (head + i))
        (written ++ [s.getINodeBlock blockSize ((offset + head) / blockSize)]) := by
  obtain ⟨hmin, hmax, -⟩ := hsize.bounds
  have hword : (offset + head) % wordCount = offset + head := by
    refine Nat.mod_eq_of_lt (show _ < 2 ^ 64 from ?_)
    have := Nat.mul_le_mul_left (2 ^ 32) hmax
    omega
  have hindex : (offset + head) / blockSize % 2 ^ 32 = (offset + head) / blockSize :=
    Nat.mod_eq_of_lt (Nat.div_lt_of_lt_mul (by rw [Nat.mul_comm]; omega))
  have hroom : ∀ room, (if count - head > room then room else count - head) =
      min (count - head) room := by
    intro room
    split <;> omega
  rw [writeBlocks, if_pos hhead]
  simp only [hword, hindex, hroom, place]

theorem writeBlocks_of_le (h : count ≤ head) :
    writeBlocks blockSize data offset count fuel head s written = some (s, written) := by
  cases fuel with
  | zero => exact if_neg (by omega)
  | succ fuel => exact if_neg (by omega)

/-- The loop ends. -/
theorem writeBlocks_total (hsize : ValidBlockSize blockSize)
    (hend : offset + count ≤ 2 ^ 32 * blockSize) (hfuel : count - head ≤ fuel) :
    ∃ s' new, writeBlocks blockSize data offset count fuel head s written =
      some (s', written ++ new) := by
  induction fuel generalizing head s written with
  | zero => exact ⟨s, [], by rw [writeBlocks_of_le (by omega), List.append_nil]⟩
  | succ fuel ih =>
    by_cases hhead : head < count
    · have hlt : (offset + head) % blockSize < blockSize :=
        Nat.mod_lt _ (by have := hsize.bounds.1; omega)
      rw [writeBlocks_succ hsize hhead hend]
      dsimp only
      set size := min (count - head) (blockSize - (offset + head) % blockSize) with hsizedef
      set block := s.getINodeBlock blockSize ((offset + head) / blockSize)
      obtain ⟨s', new, h⟩ : ∃ s' new, writeBlocks blockSize data offset count fuel (head + size)
          (s.writeData (s.place blockSize (offset + head)) size fun i => data (head + i))
          (written ++ [block]) = some (s', written ++ [block] ++ new) := ih (by omega)
      exact ⟨s', block :: new, by rw [h, List.append_assoc]; rfl⟩
    · exact ⟨s, [], by rw [writeBlocks_of_le (by omega), List.append_nil]⟩

/-- The states are the same outside of the blocks that are touched. -/
structure SameOutside (u s : Ext2FsState) (blockSize offset count : ℕ) : Prop where
  node : s.node = u.node
  device : ∀ address, (∀ j ∈ touched blockSize offset count, u.getINodeBlock blockSize j ≠ 0 →
    address / blockSize ≠ u.getINodeBlock blockSize j) → s.device address = u.device address

section Loop

variable {u : Ext2FsState} (hsize : ValidBlockSize blockSize)
  (happart : ∀ j ∈ touched blockSize offset count, u.getINodeBlock blockSize j ≠ 0 →
    ∀ k ∈ indices, ∀ address ∈ u.lookups blockSize k,
      address / blockSize ≠ u.getINodeBlock blockSize j)
include hsize happart

theorem SameOutside.getINodeBlock (h : u.SameOutside s blockSize offset count)
    (hj : j ∈ indices) : s.getINodeBlock blockSize j = u.getINodeBlock blockSize j := by
  refine getINodeBlock_congr hsize (fun k _ => by rw [h.node]) fun address haddress => ?_
  refine readU32_congr_block hsize (lookups_mod_four hsize haddress) fun a ha => ?_
  exact h.device a fun k hk hne heq =>
    happart k hk hne j hj address haddress (ha.symm.trans heq)

omit happart in
theorem SameOutside.writeData (h : u.SameOutside s blockSize offset count) {address size : ℕ}
    {bytes : ℕ → UInt8} (hj : j ∈ touched blockSize offset count)
    (hne : u.getINodeBlock blockSize j ≠ 0)
    (hle : u.getINodeBlock blockSize j * blockSize ≤ address)
    (hlt : address + size ≤ u.getINodeBlock blockSize j * blockSize + blockSize) :
    u.SameOutside (s.writeData address size bytes) blockSize offset count := by
  have hmin := hsize.bounds.1
  refine ⟨h.node, fun a ha => (writeData_of_not_mem s bytes ?_).trans (h.device a ha)⟩
  by_contra hnear
  refine ha j hj hne ?_
  rw [Nat.div_eq_iff (by omega)]
  constructor <;> omega

/-- A turn stays within the block it writes to. -/
theorem SameOutside.turn (h : u.SameOutside s blockSize offset count)
    (htouched : touched blockSize offset count ⊆ indices)
    (hend : offset + count ≤ 2 ^ 32 * blockSize) (hhead : head < count)
    (hne : u.getINodeBlock blockSize ((offset + head) / blockSize) ≠ 0) :
    s.place blockSize (offset + head) = u.place blockSize (offset + head) ∧
      u.SameOutside (s.writeData (s.place blockSize (offset + head))
        (min (count - head) (blockSize - (offset + head) % blockSize)) fun i => data (head + i))
        blockSize offset count := by
  have hmod : (offset + head) % blockSize < blockSize :=
    Nat.mod_lt _ (by have := hsize.bounds.1; omega)
  have hmem : (offset + head) / blockSize ∈ touched blockSize offset count :=
    ⟨offset + head, by omega, by omega, rfl⟩
  have hget := h.getINodeBlock hsize happart (htouched hmem)
  have hplace : s.place blockSize (offset + head) = u.place blockSize (offset + head) := by
    rw [place_lt hsize (by omega), place_lt hsize (by omega), hget]
  refine ⟨hplace, ?_⟩
  rw [hplace, place_lt hsize (by omega)]
  exact h.writeData hsize hmem hne (Nat.le_add_right _ _) (by omega)

/-- Where a block is missing, block 0 is written to. -/
theorem writeBlocks_missing (htouched : touched blockSize offset count ⊆ indices)
    (hend : offset + count ≤ 2 ^ 32 * blockSize) (hfuel : count - head ≤ fuel)
    (h : u.SameOutside s blockSize offset count) {position : ℕ} (hle : offset + head ≤ position)
    (hlt : position < offset + count)
    (hmissing : u.getINodeBlock blockSize (position / blockSize) = 0) :
    ∃ s' new, writeBlocks blockSize data offset count fuel head s written =
      some (s', written ++ new) ∧ 0 ∈ new := by
  induction fuel generalizing head s written with
  | zero => omega
  | succ fuel ih =>
    have hmod : (offset + head) % blockSize < blockSize :=
      Nat.mod_lt _ (by have := hsize.bounds.1; omega)
    have hget := h.getINodeBlock hsize happart
      (htouched ⟨offset + head, by omega, by omega, rfl⟩)
    rw [writeBlocks_succ hsize (by omega) hend, hget]
    dsimp only
    set block := u.getINodeBlock blockSize ((offset + head) / blockSize) with hblock
    set size := min (count - head) (blockSize - (offset + head) % blockSize) with hsizedef
    set s₁ := s.writeData (s.place blockSize (offset + head)) size fun i => data (head + i)
    by_cases hzero : block = 0
    · obtain ⟨s', new, hrest⟩ : ∃ s' new, writeBlocks blockSize data offset count fuel (head + size)
          s₁ (written ++ [block]) = some (s', written ++ [block] ++ new) :=
        writeBlocks_total hsize hend (by omega)
      refine ⟨s', block :: new, by rw [hrest, List.append_assoc]; rfl, ?_⟩
      rw [hzero]
      exact List.mem_cons_self
    · -- the position is behind this turn
      have hbehind : offset + (head + size) ≤ position := by
        by_contra hbefore
        refine hzero ?_
        rw [hblock, ← hmissing]
        congr 1
        have hsplit := Nat.div_add_mod (offset + head) blockSize
        rw [eq_comm, Nat.div_eq_iff (by omega)]
        constructor <;> rw [Nat.mul_comm] <;> omega
      obtain ⟨s', new, hrest, hmem⟩ : ∃ s' new, writeBlocks blockSize data offset count fuel
          (head + size) s₁ (written ++ [block]) = some (s', written ++ [block] ++ new) ∧
            0 ∈ new :=
        ih (by omega) (h.turn hsize happart htouched hend (by omega) hzero).2 hbehind
      exact ⟨s', block :: new, by rw [hrest, List.append_assoc]; rfl, List.mem_cons_of_mem _ hmem⟩

/-- Where all blocks are there, the data is written to them and nothing else is. -/
theorem writeBlocks_found (htouched : touched blockSize offset count ⊆ indices)
    (hend : offset + count ≤ 2 ^ 32 * blockSize)
    (hfound : ∀ j ∈ touched blockSize offset count, u.getINodeBlock blockSize j ≠ 0)
    (hplaces : ∀ p q, offset ≤ p → p < offset + count → offset ≤ q → q < offset + count →
      u.place blockSize p = u.place blockSize q → p = q) (hfuel : count - head ≤ fuel)
    (h : u.SameOutside s blockSize offset count) :
    ∃ s' new, writeBlocks blockSize data offset count fuel head s written =
        some (s', written ++ new) ∧ u.SameOutside s' blockSize offset count ∧
      (∀ block ∈ new, ∃ j ∈ touched blockSize offset count,
        u.getINodeBlock blockSize j = block) ∧
      (∀ p, offset + head ≤ p → p < offset + count →
        s'.device (u.place blockSize p) = data (p - offset)) ∧
      ∀ address, (∀ p, offset + head ≤ p → p < offset + count →
        u.place blockSize p ≠ address) → s'.device address = s.device address := by
  induction fuel generalizing head s written with
  | zero =>
    refine ⟨s, [], by rw [writeBlocks_of_le (by omega), List.append_nil], h,
      fun block hblock => absurd hblock List.not_mem_nil, fun p hle hlt => ?_, fun _ _ => rfl⟩
    omega
  | succ fuel ih =>
    by_cases hhead : head < count
    · have hmod : (offset + head) % blockSize < blockSize :=
        Nat.mod_lt _ (by have := hsize.bounds.1; omega)
      have hmem : (offset + head) / blockSize ∈ touched blockSize offset count :=
        ⟨offset + head, by omega, by omega, rfl⟩
      have hget := h.getINodeBlock hsize happart (htouched hmem)
      rw [writeBlocks_succ hsize hhead hend, hget]
      dsimp only
      set block := u.getINodeBlock blockSize ((offset + head) / blockSize) with hblock
      set size := min (count - head) (blockSize - (offset + head) % blockSize) with hsizedef
      set s₁ := s.writeData (s.place blockSize (offset + head)) size fun i => data (head + i)
        with hs₁
      obtain ⟨hplace, hturn⟩ : s.place blockSize (offset + head) =
          u.place blockSize (offset + head) ∧ u.SameOutside s₁ blockSize offset count :=
        h.turn hsize happart htouched hend hhead (hfound _ hmem)
      have hinside : ∀ i < size, u.place blockSize (offset + head + i) =
          s.place blockSize (offset + head) + i := fun i hi => by
        rw [place_add (by omega), hplace]
      obtain ⟨s', new, hrest, hsame, hblocks, hread, hkept⟩ : ∃ s' new, writeBlocks blockSize data
          offset count fuel (head + size) s₁ (written ++ [block]) =
            some (s', written ++ [block] ++ new) ∧ u.SameOutside s' blockSize offset count ∧
          (∀ block ∈ new, ∃ j ∈ touched blockSize offset count,
            u.getINodeBlock blockSize j = block) ∧
          (∀ p, offset + (head + size) ≤ p → p < offset + count →
            s'.device (u.place blockSize p) = data (p - offset)) ∧
          ∀ address, (∀ p, offset + (head + size) ≤ p → p < offset + count →
            u.place blockSize p ≠ address) → s'.device address = s₁.device address :=
        ih (by omega) hturn
      refine ⟨s', block :: new, by rw [hrest, List.append_assoc]; rfl, hsame, ?_,
        fun p hle hlt => ?_, fun address haddress => ?_⟩
      · exact List.forall_mem_cons.mpr ⟨⟨_, hmem, rfl⟩, hblocks⟩
      · by_cases hlater : offset + (head + size) ≤ p
        · exact hread p hlater hlt
        · obtain ⟨i, hi, rfl⟩ : ∃ i < size, p = offset + head + i :=
            ⟨p - (offset + head), by omega, by omega⟩
          rw [hkept, hinside i hi, hs₁, writeData_of_mem _ _ _ hi]
          · congr 1
            omega
          · intro q hq hqlt heq
            have := hplaces q _ (by omega) hqlt (by omega) hlt heq
            omega
      · rw [hkept address fun p hle hlt => haddress p (by omega) hlt]
        refine writeData_of_not_mem s _ ?_
        by_contra hin
        refine haddress (offset + head + (address - s.place blockSize (offset + head))) (by omega)
          (by omega) ?_
        rw [hinside _ (by omega)]
        omega
    · refine ⟨s, [], by rw [writeBlocks_of_le (by omega), List.append_nil], h,
        fun block hblock => absurd hblock List.not_mem_nil, fun p hle hlt => ?_, fun _ _ => rfl⟩
      omega

end Loop

/-! ## The state before the loop -/

/-- The indices that `GrowINode` assigns are among those that are touched. -/
theorem grown_spec (hsize : ValidBlockSize blockSize) (hend : offset + count ≤ 2 ^ 32 * blockSize) :
    (grown blockSize offset count).Nodup ∧
      ∀ j ∈ grown blockSize offset count, j ∈ touched blockSize offset count := by
  obtain ⟨hmin, hmax, -⟩ := hsize.bounds
  have hword : (count + blockSize - 1) % wordCount = count + blockSize - 1 := by
    refine Nat.mod_eq_of_lt (show _ < 2 ^ 64 from ?_)
    have := Nat.mul_le_mul_left (2 ^ 32) hmax
    omega
  have hinside : ∀ i < (count + blockSize - 1) / blockSize, i * blockSize < count := by
    intro i hi
    have hle := (Nat.le_div_iff_mul_le (show 0 < blockSize by omega)).mp (Nat.succ_le_of_lt hi)
    rw [Nat.succ_mul] at hle
    omega
  have hindex : ∀ i, (offset + i * blockSize) / blockSize = offset / blockSize + i := fun i =>
    Nat.add_mul_div_right _ _ (by omega)
  have hmod : ∀ i < (count + blockSize - 1) / blockSize,
      (offset / blockSize + i) % 2 ^ 32 = offset / blockSize + i := by
    intro i hi
    rw [← hindex]
    refine Nat.mod_eq_of_lt (Nat.div_lt_of_lt_mul ?_)
    have := hinside i hi
    omega
  rw [grown, assigned, hword]
  constructor
  · refine List.Nodup.map_on (fun i hi i' hi' heq => ?_) List.nodup_range
    rw [hmod i (List.mem_range.mp hi), hmod i' (List.mem_range.mp hi')] at heq
    omega
  · intro j hj
    obtain ⟨i, hi, rfl⟩ := List.mem_map.mp hj
    have hlt := hinside i (List.mem_range.mp hi)
    rw [hmod i (List.mem_range.mp hi), ← hindex]
    exact ⟨_, Nat.le_add_right _ _, by omega, rfl⟩

/-- What `WriteINodeEntry` and the new size leave as it is. -/
theorem growSize_spec (hsize : ValidBlockSize blockSize)
    (hcalls : calls.Supplies blockSize metadata table supply)
    (hend : offset + count ≤ 2 ^ 32 * blockSize) :
    ((calls.writeINodeEntry t).growSize calls offset count).node.blocks = t.node.blocks ∧
      ((calls.writeINodeEntry t).growSize calls offset count).node.getSize =
        max t.node.getSize (offset + count) ∧
      ∀ address, ¬ metadata (address / blockSize) →
        ((calls.writeINodeEntry t).growSize calls offset count).device address =
          t.device address := by
  have hmax := hsize.bounds.2.1
  have hlt : offset + count < 2 ^ 64 := by
    have := Nat.mul_le_mul_left (2 ^ 32) hmax
    omega
  have hword : (offset + count) % wordCount = offset + count := Nat.mod_eq_of_lt hlt
  rw [growSize, hcalls.entry_node, hword]
  split
  · rename_i hless
    rw [hcalls.entry_node]
    refine ⟨rfl, ?_, fun address hmeta => ?_⟩
    · rw [Ext2FsINodeMeta.getSize_setSize _ hlt, max_eq_right (by omega)]
    · have htable := mt (hcalls.table_le _) hmeta
      rw [hcalls.entry_device _ _ htable]
      exact hcalls.entry_device _ _ htable
  · rename_i hless
    rw [hcalls.entry_node]
    exact ⟨rfl, by rw [max_eq_left (by omega)], fun address hmeta =>
      hcalls.entry_device _ _ (mt (hcalls.table_le _) hmeta)⟩

/-- The state before the loop of `WriteINode`. -/
structure Grows (s u : Ext2FsState) (blockSize : ℕ) (metadata others : ℕ → Prop)
    (supply : ℕ → ℕ) (offset count : ℕ) : Prop where
  size : u.node.getSize = max s.node.getSize (offset + count)
  found : ∀ j ∈ s.fileIndices blockSize offset count, s.getINodeBlock blockSize j ≠ 0 →
    u.getINodeBlock blockSize j = s.getINodeBlock blockSize j
  kept : ∀ j ∈ s.fileIndices blockSize offset count, j ∉ touched blockSize offset count →
    u.getINodeBlock blockSize j = s.getINodeBlock blockSize j
  all_found : (∀ j ∈ touched blockSize offset count, u.getINodeBlock blockSize j ≠ 0) ↔
    s.AllFound blockSize supply offset count
  device : ∀ address, ¬ metadata (address / blockSize) →
    (address / blockSize = 0 ∨ ∀ j ∈ s.fileIndices blockSize offset count,
      ∀ word ∈ s.lookups blockSize j, address / blockSize ≠ word / blockSize) →
    u.device address = s.device address
  layout : u.Layout blockSize metadata others (s.fileIndices blockSize offset count)

theorem Layout.congr (hlookups : ∀ j ∈ indices, t.lookups blockSize j = s.lookups blockSize j)
    (hgets : ∀ j ∈ indices, t.getINodeBlock blockSize j = s.getINodeBlock blockSize j)
    (h : s.Layout blockSize metadata others indices) :
    t.Layout blockSize metadata others indices := by
  refine ⟨fun j hj => ?_, fun j hj => ?_, fun j hj => ?_, fun j hj => ?_, fun j hj => ?_⟩
  · rw [hlookups j hj]
    exact h.lookups j hj
  · rw [hgets j hj]
    exact h.metadata j hj
  · rw [hgets j hj]
    exact h.others j hj
  · rw [hgets j hj]
    intro hne k hk
    rw [hlookups k hk]
    exact h.apart j hj hne k hk
  · rw [hgets j hj]
    intro hne k hk
    rw [hgets k hk]
    exact h.distinct j hj hne k hk

theorem InOrder.grows (hsize : ValidBlockSize blockSize)
    (hcalls : calls.Supplies blockSize metadata table supply)
    (h : s.InOrder blockSize metadata others (supply s.device) offset count) :
    s.Grows ((s.growINode calls blockSize offset count).growSize calls offset count) blockSize
      metadata others (supply s.device) offset count := by
  obtain ⟨hnodup, hsub⟩ := grown_spec hsize h.end_le
  obtain ⟨hassigns, hkept, hall⟩ := foldl_assignINodeBlock hsize hcalls
    (grown blockSize offset count) hnodup (fun j hj => Or.inr (hsub j hj)) h.layout h.fresh
    h.settable
  set t := (grown blockSize offset count).foldl (assignINodeBlock calls blockSize) s with ht
  obtain ⟨hblocks, hgrow, hdevice⟩ := growSize_spec (t := t) hsize hcalls h.end_le
  have hstate : s.growINode calls blockSize offset count = calls.writeINodeEntry t := rfl
  rw [hstate]
  set u := (calls.writeINodeEntry t).growSize calls offset count
  have hroots : ∀ k, u.node.block k = t.node.block k := fun k =>
    congrArg (fun blocks => (blocks k).toNat) hblocks
  have hwords := hassigns.layout.words hsize hdevice
  have hlookups : ∀ j ∈ s.fileIndices blockSize offset count,
      u.lookups blockSize j = t.lookups blockSize j := fun j hj =>
    lookups_congr hsize (fun k _ => hroots k) fun word hword =>
      hwords j hj word (List.dropLast_subset _ hword)
  have hgets : ∀ j ∈ s.fileIndices blockSize offset count,
      u.getINodeBlock blockSize j = t.getINodeBlock blockSize j := fun j hj =>
    getINodeBlock_congr hsize (fun k _ => hroots k) (hwords j hj)
  refine ⟨by rw [hgrow, hassigns.size],
    fun j hj hne => (hgets j hj).trans (hassigns.found j hj hne),
    fun j hj hnot => (hgets j hj).trans (hkept j hj fun hmem => hnot (hsub j hmem)), ?_,
    fun address hmeta hword => (hdevice address hmeta).trans (hassigns.device address hmeta hword),
    hassigns.layout.congr hlookups hgets⟩
  rw [AllFound, missingBlocks, ← hall]
  constructor
  · intro hfound
    refine ⟨fun j hj => ?_, fun j hj hnot => ?_⟩
    · rw [← hgets j (Or.inr (hsub j hj))]
      exact hfound j (hsub j hj)
    · rw [← hkept j (Or.inr hj) hnot, ← hgets j (Or.inr hj)]
      exact hfound j hj
  · rintro ⟨hgrown, hrest⟩ j hj
    rw [hgets j (Or.inr hj)]
    by_cases hmem : j ∈ grown blockSize offset count
    · exact hgrown j hmem
    · rw [hkept j (Or.inr hj) hmem]
      exact hrest j hj hmem

/-! ## Which writes are right -/

/-- The bytes of the file are in different places. -/
theorem Layout.place_inj (hsize : ValidBlockSize blockSize)
    (h : s.Layout blockSize metadata others indices) {p q : ℕ}
    (hp : p < 2 ^ 32 * blockSize) (hq : q < 2 ^ 32 * blockSize) (hpi : p / blockSize ∈ indices)
    (hqi : q / blockSize ∈ indices) (hne : s.getINodeBlock blockSize (p / blockSize) ≠ 0)
    (heq : s.place blockSize q = s.place blockSize p) : q = p := by
  have hmin := hsize.bounds.1
  have hpmod : p % blockSize < blockSize := Nat.mod_lt _ (by omega)
  have hqmod : q % blockSize < blockSize := Nat.mod_lt _ (by omega)
  rw [place_lt hsize hp, place_lt hsize hq, Nat.mul_comm, Nat.mul_comm _ blockSize] at heq
  have hblock := congrArg (· / blockSize) heq
  have hmod := congrArg (· % blockSize) heq
  simp only [Nat.mul_add_div (show 0 < blockSize by omega), Nat.mul_add_mod,
    Nat.div_eq_of_lt hpmod, Nat.div_eq_of_lt hqmod, Nat.mod_eq_of_lt hpmod,
    Nat.mod_eq_of_lt hqmod, Nat.add_zero] at hblock hmod
  have hindex := h.distinct _ hpi hne _ hqi hblock
  rw [← Nat.div_add_mod p blockSize, ← Nat.div_add_mod q blockSize, hindex, hmod]

theorem place_div {p : ℕ} (hsize : ValidBlockSize blockSize) (hp : p < 2 ^ 32 * blockSize) :
    s.place blockSize p / blockSize = s.getINodeBlock blockSize (p / blockSize) := by
  have hmin := hsize.bounds.1
  rw [place_lt hsize hp, Nat.mul_comm, Nat.mul_add_div (by omega),
    Nat.div_eq_of_lt (Nat.mod_lt _ (by omega)), Nat.add_zero]

/-- What the file has besides the range is where it was, and not where the data goes. -/
theorem InOrder.outside {u : Ext2FsState} {supply : ℕ → ℕ} (hsize : ValidBlockSize blockSize)
    (h : s.InOrder blockSize metadata others supply offset count)
    (hgrows : s.Grows u blockSize metadata others supply offset count)
    (hfound : ∀ j ∈ touched blockSize offset count, u.getINodeBlock blockSize j ≠ 0) {p : ℕ}
    (hp : p < s.node.getSize) (hout : p < offset ∨ offset + count ≤ p) :
    u.getINodeBlock blockSize (p / blockSize) = s.getINodeBlock blockSize (p / blockSize) ∧
      (∀ q, offset ≤ q → q < offset + count → u.place blockSize q ≠ u.place blockSize p) ∧
      u.device (s.place blockSize p) = s.device (s.place blockSize p) := by
  have hj : p / blockSize ∈ s.fileIndices blockSize offset count := Or.inl ⟨p, hp, rfl⟩
  have hlt := hp.trans_le h.size_le
  have hdiv := place_div (s := s) hsize hlt
  by_cases hne : s.getINodeBlock blockSize (p / blockSize) = 0
  · obtain ⟨hnot, hmeta⟩ := (h.holes p hp hout).resolve_left (not_not.mpr hne)
    have hu := hgrows.kept _ hj hnot
    refine ⟨hu, fun q hq hqlt heq => ?_, hgrows.device _ ?_ (Or.inl (hdiv.trans hne))⟩
    · refine hfound (q / blockSize) ⟨q, hq, hqlt, rfl⟩ ?_
      rw [← place_div hsize (hqlt.trans_le h.end_le), heq, place_div hsize hlt, hu, hne]
    · rwa [hdiv, hne]
  · have hu := hgrows.found _ hj hne
    refine ⟨hu, fun q hq hqlt heq => ?_, hgrows.device _ ?_ (Or.inr fun k hk word hword heq => ?_)⟩
    · have := hgrows.layout.place_inj hsize hlt (hqlt.trans_le h.end_le) hj
        (Or.inr ⟨q, hq, hqlt, rfl⟩) (hu ▸ hne) heq
      omega
    · rw [hdiv]
      exact h.layout.metadata _ hj hne
    · exact h.layout.apart _ hj hne k hk word hword (heq.symm.trans hdiv)

/-- The loop over a file whose blocks are all there. -/
theorem Layout.writeBlocks (data : ℕ → UInt8) {u : Ext2FsState}
    (h : u.Layout blockSize metadata others indices) (hsize : ValidBlockSize blockSize)
    (htouched : touched blockSize offset count ⊆ indices)
    (hend : offset + count ≤ 2 ^ 32 * blockSize)
    (hfound : ∀ j ∈ touched blockSize offset count, u.getINodeBlock blockSize j ≠ 0) :
    ∃ s' new, writeBlocks blockSize data offset count count 0 u [] = some (s', new) ∧
      s'.node = u.node ∧
      (∀ j ∈ indices, s'.getINodeBlock blockSize j = u.getINodeBlock blockSize j) ∧
      (∀ block ∈ new, ∃ j ∈ touched blockSize offset count,
        u.getINodeBlock blockSize j = block) ∧
      (∀ p, offset ≤ p → p < offset + count →
        s'.device (u.place blockSize p) = data (p - offset)) ∧
      ∀ address, (∀ p, offset ≤ p → p < offset + count → u.place blockSize p ≠ address) →
        s'.device address = u.device address := by
  have happart : ∀ j ∈ touched blockSize offset count, u.getINodeBlock blockSize j ≠ 0 →
      ∀ k ∈ indices, ∀ address ∈ u.lookups blockSize k,
        address / blockSize ≠ u.getINodeBlock blockSize j := fun j hj => h.apart j (htouched hj)
  have hplaces : ∀ p q, offset ≤ p → p < offset + count → offset ≤ q → q < offset + count →
      u.place blockSize p = u.place blockSize q → p = q := by
    intro p q hp hplt hq hqlt heq
    have hpt : p / blockSize ∈ touched blockSize offset count := ⟨p, hp, hplt, rfl⟩
    have hqt : q / blockSize ∈ touched blockSize offset count := ⟨q, hq, hqlt, rfl⟩
    exact h.place_inj hsize (hqlt.trans_le hend) (hplt.trans_le hend) (htouched hqt)
      (htouched hpt) (hfound _ hqt) heq
  obtain ⟨s', new, heq, hsame, hblocks, hread, hkept⟩ : ∃ s' new,
      Ext2FsState.writeBlocks blockSize data offset count count 0 u [] = some (s', [] ++ new) ∧
        u.SameOutside s' blockSize offset count ∧
      (∀ block ∈ new, ∃ j ∈ touched blockSize offset count,
        u.getINodeBlock blockSize j = block) ∧
      (∀ p, offset + 0 ≤ p → p < offset + count →
        s'.device (u.place blockSize p) = data (p - offset)) ∧
      ∀ address, (∀ p, offset + 0 ≤ p → p < offset + count →
        u.place blockSize p ≠ address) → s'.device address = u.device address :=
    writeBlocks_found hsize happart htouched hend hfound hplaces (Nat.le_refl count)
      ⟨rfl, fun _ _ => rfl⟩
  exact ⟨s', new, heq, hsame.node, fun j hj => hsame.getINodeBlock hsize happart hj, hblocks,
    hread, hkept⟩

theorem InOrder.writes_iff (hsize : ValidBlockSize blockSize)
    (hcalls : calls.Supplies blockSize metadata table supply)
    (h : s.InOrder blockSize metadata others (supply s.device) offset count) :
    (∃ s' written, s.writeINode calls blockSize data offset count = some (count, s', written) ∧
      s.WritesFile blockSize others data offset count s' written) ↔
    s.AllFound blockSize (supply s.device) offset count := by
  have hgrows := h.grows hsize hcalls
  set u := (s.growINode calls blockSize offset count).growSize calls offset count with hu
  have htouched : touched blockSize offset count ⊆ s.fileIndices blockSize offset count :=
    fun j hj => Or.inr hj
  have happart : ∀ j ∈ touched blockSize offset count, u.getINodeBlock blockSize j ≠ 0 →
      ∀ k ∈ s.fileIndices blockSize offset count, ∀ address ∈ u.lookups blockSize k,
        address / blockSize ≠ u.getINodeBlock blockSize j := fun j hj =>
    hgrows.layout.apart j (htouched hj)
  have hwrite : s.writeINode calls blockSize data offset count =
      (writeBlocks blockSize data offset count count 0 u []).map fun result => (count, result) :=
    rfl
  rw [hwrite, ← hgrows.all_found]
  constructor
  · rintro ⟨s', written, hsome, hwrites⟩ j ⟨position, hle, hlt, rfl⟩ hmissing
    obtain ⟨s'', new, heq, hzero⟩ : ∃ s' new,
        writeBlocks blockSize data offset count count 0 u [] = some (s', [] ++ new) ∧ 0 ∈ new :=
      writeBlocks_missing hsize happart htouched h.end_le (Nat.le_refl count)
        ⟨rfl, fun _ _ => rfl⟩ hle hlt hmissing
    rw [heq, List.nil_append, Option.map_some, Option.some.injEq, Prod.mk.injEq,
      Prod.mk.injEq] at hsome
    obtain ⟨-, -, rfl⟩ := hsome
    exact (hwrites.blocks 0 hzero).1 rfl
  · intro hfound
    obtain ⟨s', new, heq, hnode, hget, hblocks, hread, hkept⟩ :=
      hgrows.layout.writeBlocks data hsize htouched h.end_le hfound
    have hplace : ∀ p < 2 ^ 32 * blockSize, p / blockSize ∈ s.fileIndices blockSize offset count →
        s'.place blockSize p = u.place blockSize p := fun p hp hj => by
      rw [place_lt hsize hp, place_lt hsize hp, hget _ hj]
    refine ⟨s', new, by rw [heq]; rfl, fun block hblock => ?_, ?_, fun p hle hlt => ?_,
      fun p hp hout => ?_⟩
    · obtain ⟨j, hj, rfl⟩ := hblocks block hblock
      exact ⟨hfound j hj, hgrows.layout.others j (htouched hj) (hfound j hj), j,
        hget j (htouched hj)⟩
    · rw [hnode, hgrows.size]
    · refine Eq.trans ?_ (hread p hle hlt)
      rw [← hplace p (hlt.trans_le h.end_le) (htouched ⟨p, hle, hlt, rfl⟩)]
      rfl
    · have hj : p / blockSize ∈ s.fileIndices blockSize offset count := Or.inl ⟨p, hp, rfl⟩
      have hlt := hp.trans_le h.size_le
      obtain ⟨hu, hother, hkeep⟩ := h.outside hsize hgrows hfound hp hout
      have hold : u.place blockSize p = s.place blockSize p := by
        rw [place_lt hsize hlt, place_lt hsize hlt, hu]
      have hchain : s'.device (s'.place blockSize p) = s.device (s.place blockSize p) := by
        rw [hplace p hlt hj, hkept _ fun q hq hqlt => hother q hq hqlt, hold, hkeep]
      exact hchain

theorem foldl_assignINodeBlock_found (calls : Ext2FsCalls) {l : List ℕ}
    (h : ∀ i ∈ l, s.getINodeBlock blockSize i ≠ 0) :
    l.foldl (assignINodeBlock calls blockSize) s = s := by
  induction l with
  | nil => rfl
  | cons i l ih =>
    obtain ⟨hi, hl⟩ := List.forall_mem_cons.mp h
    rw [List.foldl_cons, show s.assignINodeBlock calls blockSize i = s from if_pos hi]
    exact ih hl

/-- Where no block is missing, none is assigned. -/
theorem growINode_of_found (calls : Ext2FsCalls)
    (h : ∀ j ∈ grown blockSize offset count, s.getINodeBlock blockSize j ≠ 0) :
    s.growINode calls blockSize offset count = calls.writeINodeEntry s :=
  congrArg calls.writeINodeEntry (foldl_assignINodeBlock_found calls h)

/-- A write that finds all its blocks does not call `AllocateBlock`. -/
theorem writeINode_idle (calls : Ext2FsCalls)
    (hnone : s.missingBlocks blockSize offset count = 0) :
    s.writeINode calls blockSize data offset count =
      s.writeINode calls.idle blockSize data offset count := by
  have hfound : ∀ i ∈ grown blockSize offset count, s.getINodeBlock blockSize i ≠ 0 := by
    simpa [missingBlocks, List.countP_eq_zero] using hnone
  rw [writeINode, writeINode, growINode_of_found calls hfound,
    growINode_of_found calls.idle hfound]
  rfl

/-- **Which writes are right.** In a file in good order, `WriteINode` does what it should exactly
when every block that is touched is there or is found by `GrowINode`. -/
theorem writeINode_writes_iff (hsize : ValidBlockSize blockSize)
    (hcalls : calls.Supplies blockSize metadata table supply)
    (h : s.InOrder blockSize (s.changes blockSize metadata table offset count) others
      (supply s.device) offset count) :
    (∃ s' written, s.writeINode calls blockSize data offset count = some (count, s', written) ∧
      s.WritesFile blockSize others data offset count s' written) ↔
    s.AllFound blockSize (supply s.device) offset count := by
  rw [changes] at h
  by_cases hnone : s.missingBlocks blockSize offset count = 0
  · rw [if_pos hnone] at h
    have hidle : s.InOrder blockSize table others (fun _ => 0) offset count :=
      { h with
        layout := h.layout
        fresh := fun n hn => absurd (hnone ▸ hn) n.not_lt_zero
        settable := h.settable
        holes := h.holes }
    rw [writeINode_idle calls hnone, InOrder.writes_iff hsize hcalls.idle hidle, AllFound, AllFound,
      hnone]
    simp
  · rw [if_neg hnone] at h
    exact h.writes_iff hsize hcalls

/-- A file of one block of 1024 bytes, which is block 7. -/
def oneBlock : Ext2FsState where
  node := { sizeLow := 1024, sizeHigh := 0, blocks := fun k => if k = 0 then 7 else 0 }
  device := fun _ => 0

/-- An `AllocateBlock` that returns block 9, and writes a word of block 5 when it does. -/
def onceNine : Ext2FsCalls where
  allocateBlock s := (if readU32 s.device 5120 = 0 then 9 else 0, s.writeU32 5120 1)
  writeINodeEntry s := s

/-- What `onceNine` supplies. -/
def onceNineSupply (device : ℕ → UInt8) (n : ℕ) : ℕ :=
  if n = 0 ∧ readU32 device 5120 = 0 then 9 else 0

theorem onceNine_supplies : onceNine.Supplies 1024 (· = 5) (fun _ => False) onceNineSupply := by
  refine ⟨fun _ => False.elim, fun s => ?_, fun s n => ?_, fun _ => rfl,
    fun device device' h => ?_, fun _ => rfl, fun _ => rfl,
    fun s address h => writeLE_of_not_mem (by omega), fun _ _ _ => rfl⟩
  · rw [onceNineSupply, onceNine]
    simp
  · have hword : readU32 (onceNine.allocateBlock s).2.device 5120 = 1 :=
      readU32_writeU32_self s 5120 1
    rw [onceNineSupply, onceNineSupply, if_neg (by omega), if_neg (by omega)]
  · funext n
    have hword : readU32 device 5120 = readU32 device' 5120 :=
      readLE_congr fun i hi => h _ (by omega)
    rw [onceNineSupply, onceNineSupply, hword]

theorem oneBlock_getINodeBlock {j : ℕ} (hj : j < 12) :
    oneBlock.getINodeBlock 1024 j = if j = 0 then 7 else 0 := by
  rw [getINodeBlock_direct hj]
  exact apply_ite UInt32.toNat _ _ _

theorem oneBlock_inOrder :
    oneBlock.InOrder 1024 (· = 5) (· = 3) (onceNineSupply oneBlock.device) 1024 100 := by
  have hindex : ∀ j ∈ oneBlock.fileIndices 1024 1024 100, j = 0 ∨ j = 1 := by
    rintro j (⟨p, hp, rfl⟩ | ⟨p, hle, hlt, rfl⟩)
    · have hp : p < 1024 := hp
      omega
    · omega
  have hget : ∀ j ∈ oneBlock.fileIndices 1024 1024 100,
      oneBlock.getINodeBlock 1024 j = if j = 0 then 7 else 0 := fun j hj =>
    oneBlock_getINodeBlock (by have := hindex j hj; omega)
  have hlookups : ∀ j ∈ oneBlock.fileIndices 1024 1024 100, oneBlock.lookups 1024 j = [] :=
    fun j hj => lookups_direct (by have := hindex j hj; omega)
  have hzero : ∀ j ∈ oneBlock.fileIndices 1024 1024 100, oneBlock.getINodeBlock 1024 j ≠ 0 →
      j = 0 ∧ oneBlock.getINodeBlock 1024 j = 7 := by
    intro j hj hne
    rw [hget j hj] at hne ⊢
    split_ifs at hne ⊢ with hj0
    · exact ⟨hj0, rfl⟩
    · exact absurd rfl hne
  refine ⟨by decide, by decide, ⟨?_, ?_, ?_, ?_, ?_⟩, ?_, fun i hi _ => Or.inl ?_, ?_⟩
  · intro j hj address haddress
    rw [hlookups j hj] at haddress
    exact absurd haddress List.not_mem_nil
  · intro j hj hne
    rw [(hzero j hj hne).2]
    decide
  · intro j hj hne
    rw [(hzero j hj hne).2]
    decide
  · intro j hj _ k hk address haddress
    rw [hlookups k hk] at haddress
    exact absurd haddress List.not_mem_nil
  · intro j hj hne k hk heq
    rw [(hzero j hj hne).1]
    exact (hzero k hk (heq ▸ hne)).1
  · intro n _ hne
    have hn : n = 0 := by
      by_contra hn
      exact hne (if_neg fun h => hn h.1)
    subst hn
    have hnine : onceNineSupply oneBlock.device 0 = 9 := rfl
    rw [hnine]
    refine ⟨by decide, by decide, by decide, fun j hj => ⟨?_, fun address haddress => ?_⟩,
      fun n' _ heq => ?_⟩
    · rw [hget j hj]
      split <;> decide
    · rw [hlookups j hj] at haddress
      exact absurd haddress List.not_mem_nil
    · by_contra hn
      rw [onceNineSupply, if_neg fun h => hn h.1] at heq
      exact absurd heq (by decide)
  · have := hindex i (Or.inr ((grown_spec ⟨0, by decide, rfl⟩ (by decide)).2 i hi))
    omega
  · intro p hp _
    have hp : p < 1024 := hp
    rw [Nat.div_eq_of_lt hp]
    exact Or.inl (by decide)

/-- A block is allocated at the end of the file. -/
theorem writeINode_writes_oneBlock :
    ∃ s' written, oneBlock.writeINode onceNine 1024 (fun _ => 0x41) 1024 100 =
        some (100, s', written) ∧
      oneBlock.WritesFile 1024 (· = 3) (fun _ => 0x41) 1024 100 s' written := by
  have hsize : ValidBlockSize 1024 := ⟨0, by decide, rfl⟩
  have hallocates : oneBlock.missingBlocks 1024 1024 100 ≠ 0 := by decide
  have horder : oneBlock.InOrder 1024
      (oneBlock.changes 1024 (· = 5) (fun _ => False) 1024 100) (· = 3)
      (onceNineSupply oneBlock.device) 1024 100 := by
    rw [changes, if_neg hallocates]
    exact oneBlock_inOrder
  refine (writeINode_writes_iff hsize onceNine_supplies horder).mpr ⟨by decide, ?_⟩
  rintro j ⟨p, hle, hlt, rfl⟩ hnot
  have hone : p / 1024 = 1 := by omega
  rw [hone] at hnot
  exact absurd (by decide) hnot

/-- A write of 100 bytes at offset 1000 touches two blocks. `GrowINode` looks for one, and the rest
of the data is written to block 0. -/
theorem not_writesFile_oneBlock :
    ¬ ∃ s' written, oneBlock.writeINode onceNine 1024 (fun _ => 0x41) 1000 100 =
        some (100, s', written) ∧
      oneBlock.WritesFile 1024 (· = 3) (fun _ => 0x41) 1000 100 s' written := by
  rintro ⟨s', written, hsome, hwrites⟩
  have hwritten : (oneBlock.writeINode onceNine 1024 (fun _ => 0x41) 1000 100).map
      (fun result => result.2.2) = some [7, 0] := by
    decide
  rw [hsome] at hwritten
  obtain rfl : written = [7, 0] := Option.some.inj hwritten
  exact (hwrites.blocks 0 (by decide)).1 rfl

end Ext2FsState

end Cryptix.VFS
