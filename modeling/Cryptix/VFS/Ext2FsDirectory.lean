import Cryptix.Lib.Tiling
import Cryptix.VFS.Ext2FsWrite

/-!
# Adding an entry to an ext2 directory

`AddDirectoryEntry` of `Kernel/VFS/Ext2Fs/Ext2FsINode.cpp`. A directory is a file of records, which
tile its blocks. A record may be longer than its name needs, and a new entry is made of the rest of
the first record where it fits.

Before the new entry is written, `Memory::Fill` clears it, with the length that its bytes happen to
have where its `Size` will be. And where no record has room, the inode of the new entry is grown,
not that of the directory, and then the directory is read to the physical address of a buffer, which
is a page fault. In a directory in good order the entry is added exactly when there is room and
nothing else is cleared (`addDirectoryEntry_adds_iff`).

`StringView::Copy` is a parameter, as are `ReadINodeEntry`, `WriteINodeEntry` and `AllocateBlock`.
-/

namespace Cryptix.VFS

open Lib

/-- `Ext2FsDirectoryEntry`, with its name. -/
structure Ext2FsDirectoryEntry where
  inodeIndex : UInt32
  size : UInt16
  nameSize : UInt8
  type : UInt8
  name : List UInt8
  deriving DecidableEq

namespace Ext2FsDirectoryEntry

/-- The entry at an offset of a buffer. -/
def read (buffer : ℕ → UInt8) (offset : ℕ) : Ext2FsDirectoryEntry where
  inodeIndex := UInt32.ofNat (readLE buffer offset 4)
  size := UInt16.ofNat (readLE buffer (offset + 4) 2)
  nameSize := buffer (offset + 6)
  type := buffer (offset + 7)
  name := (List.range (buffer (offset + 6)).toNat).map fun i => buffer (offset + 8 + i)

/-- `(sizeof(Ext2FsDirectoryEntry) + nameSize + 3) & ~3`. -/
def sizeFor (nameSize : ℕ) : ℕ := (8 + nameSize + 3) / 4 * 4

/-- `contracted`: what the name of an entry needs. -/
def contracted (entry : Ext2FsDirectoryEntry) : ℕ := sizeFor entry.nameSize.toNat

/-- `available`: what it leaves. -/
def available (entry : Ext2FsDirectoryEntry) : ℕ := wordSub entry.size.toNat entry.contracted

/-- `required`: what a new entry needs. -/
def required (dentry : Ext2FsDirectoryEntry) : ℕ := sizeFor dentry.name.length

end Ext2FsDirectoryEntry

namespace Ext2FsINode

open Ext2FsDirectoryEntry (read)

/-- The loop of `AddDirectoryEntry`: where it ends, and whether there is room. -/
def findRoom (buffer : ℕ → UInt8) (size required : ℕ) : ℕ → ℕ → Option (ℕ × Bool)
  | 0, offset => if offset < size then none else some (offset, false)
  | fuel + 1, offset =>
    if offset < size then
      let previousEntry := read buffer offset
      if previousEntry.available ≥ required then some (offset, true)
      else findRoom buffer size required fuel ((offset + previousEntry.size.toNat) % wordCount)
    else some (offset, false)

variable (copy : List UInt8 → ℕ → List UInt8) (dentry : Ext2FsDirectoryEntry)

/-- The fields of the new entry. `copy` is `StringView::Copy`: what it copies of a string. -/
def putEntry (buffer : ℕ → UInt8) (entry size : ℕ) : ℕ → UInt8 :=
  let nameSize := dentry.name.length
  let buffer := writeLE buffer entry 4 dentry.inodeIndex.toNat
  let buffer := writeLE buffer (entry + 4) 2 size
  let buffer := writeLE buffer (entry + 6) 1 nameSize
  let buffer := writeLE buffer (entry + 7) 1 dentry.type.toNat
  writeBytes buffer (entry + 8) (copy dentry.name (nameSize + 1))

/-- The new entry is made of the rest of the one at the offset. -/
def splitEntry (buffer : ℕ → UInt8) (offset : ℕ) : ℕ → UInt8 :=
  let previousEntry := read buffer offset
  let buffer := writeLE buffer (offset + 4) 2 previousEntry.contracted
  let entry := offset + previousEntry.contracted
  let buffer := overlay entry (read buffer entry).size.toNat (fun _ => 0) buffer
  putEntry copy dentry buffer entry previousEntry.available

end Ext2FsINode

/-- `ReadINodeEntry`, and what an inode is written with. -/
structure Ext2FsVolume where
  readINodeEntry : (ℕ → UInt8) → ℕ → Ext2FsINodeMeta
  calls : ℕ → Ext2FsCalls

namespace Ext2FsVolume

variable (volume : Ext2FsVolume) (blockSize : ℕ) (copy : List UInt8 → ℕ → List UInt8)
  (dentry : Ext2FsDirectoryEntry) (index : ℕ)

/-- `ReadINodeEntry` into an `Ext2FsINodeMeta` of its own. -/
def load (device : ℕ → UInt8) (index : ℕ) : Ext2FsState :=
  ⟨volume.readINodeEntry device index, device⟩

/-- `ReadINode` of a whole file into a buffer of zeros. -/
def readAll (s : Ext2FsState) : Option (ℕ → UInt8) :=
  (readINode blockSize s.device s.node (fun _ => 0) 0 s.node.getSize).map Prod.snd

/-- `WriteINode` of a whole file. -/
def writeAll (buffer : ℕ → UInt8) (s : Ext2FsState) : Option Ext2FsState :=
  (s.writeINode (volume.calls index) blockSize buffer 0 s.node.getSize).map fun result => result.2.1

/-- `AddDirectoryEntry` of the inode `index`. It never returns an error. A record is 8 bytes at
least, so that the loop has fewer turns than the directory has bytes. -/
def addDirectoryEntry (device : ℕ → UInt8) : Option Ext2FsState :=
  let s := volume.load device index
  (readAll blockSize s).bind fun buffer =>
    (Ext2FsINode.findRoom buffer s.node.getSize dentry.required s.node.getSize 0).bind
      fun (offset, found) =>
        if found then
          volume.writeAll blockSize index (Ext2FsINode.splitEntry copy dentry buffer offset) s
        -- the second buffer has no `ToHigherHalf`: nothing is mapped where it is read to
        else none

end Ext2FsVolume

/-! ## What adding an entry should do -/

namespace Ext2FsDirectoryEntry

/-- What a listing shows of an entry. -/
def listed (entry : Ext2FsDirectoryEntry) : UInt32 × UInt8 × List UInt8 :=
  (entry.inodeIndex, entry.type, entry.name)

/-- What a directory lists: inode 0 stands for an entry that was deleted. -/
def live (records : List Ext2FsDirectoryEntry) : List (UInt32 × UInt8 × List UInt8) :=
  (records.filter fun r => r.inodeIndex ≠ 0).map listed

/-- A record is within a block and has room for its name. -/
structure Fits (blockSize offset : ℕ) (entry : Ext2FsDirectoryEntry) : Prop where
  name : entry.contracted ≤ entry.size.toNat
  aligned : entry.size.toNat % 4 = 0
  block : offset % blockSize + entry.size.toNat ≤ blockSize

/-- The records from an offset to another. -/
def Records (blockSize : ℕ) (buffer : ℕ → UInt8) : ℕ → ℕ → List Ext2FsDirectoryEntry → Prop :=
  Tiles (read buffer) (fun r => r.size.toNat) (Fits blockSize)

/-- A well-formed directory: the records tile every block. -/
structure IsDirectory (blockSize : ℕ) (buffer : ℕ → UInt8) (size : ℕ)
    (records : List Ext2FsDirectoryEntry) : Prop where
  blocks : size % blockSize = 0
  records : Records blockSize buffer 0 size records

/-- What adding an entry should do: the directory is well formed, and lists what it did, in order,
and the new entry. -/
def Adds (blockSize : ℕ) (buffer : ℕ → UInt8) (size : ℕ) (records : List Ext2FsDirectoryEntry)
    (dentry : Ext2FsDirectoryEntry) : Prop :=
  ∃ records' pre post, IsDirectory blockSize buffer size records' ∧
    live records = pre ++ post ∧ live records' = pre ++ dentry.listed :: post

/-- The first record with room for a new entry. -/
structure FirstRoom (required : ℕ) (records pre : List Ext2FsDirectoryEntry)
    (entry : Ext2FsDirectoryEntry) (post : List Ext2FsDirectoryEntry) : Prop where
  split : records = pre ++ entry :: post
  before : ∀ r ∈ pre, r.available < required
  room : required ≤ entry.available

/-- The bytes from `last` to `reach` can be cleared: they are 0. If they reach into the `Size` of
the next record and do not clear it, the bytes in that record can be records too. -/
def CanClear (blockSize : ℕ) (buffer : ℕ → UInt8) (size : ℕ) (records : List Ext2FsDirectoryEntry)
    (last reach : ℕ) : Prop :=
  (∀ position, last ≤ position → position < reach → position < size → buffer position = 0) ∨
    reach = last + 5 ∧ ∃ records',
      IsDirectory blockSize (overlay last 5 (fun _ => 0) buffer) size records' ∧
        live records' = live records

/-- An entry that can be added: it is an entry, a record has room for it, and what is cleared behind
the first such record can be cleared. -/
structure CanAdd (blockSize : ℕ) (buffer : ℕ → UInt8) (size : ℕ)
    (records : List Ext2FsDirectoryEntry) (dentry : Ext2FsDirectoryEntry) : Prop where
  index : dentry.inodeIndex ≠ 0
  name : dentry.name.length < 256
  room : ∃ pre entry post, FirstRoom dentry.required records pre entry post ∧
    let offset := (pre.map fun r => r.size.toNat).sum
    let stale := read buffer (offset + entry.contracted)
    CanClear blockSize buffer size records (offset + entry.size.toNat)
      (offset + entry.contracted + stale.size.toNat)

end Ext2FsDirectoryEntry

namespace Ext2FsState

variable (s : Ext2FsState) (blockSize : ℕ)

/-- The bytes of a file, in a buffer of zeros. -/
def contents : ℕ → UInt8 :=
  overlay 0 s.node.getSize (fileByte blockSize s.device s.node) fun _ => 0

/-- The blocks of a file are all there, and where they should be. -/
structure HasBlocks (metadata : ℕ → Prop) : Prop where
  size_le : s.node.getSize ≤ 2 ^ 32 * blockSize
  found : ∀ j ∈ touched blockSize 0 s.node.getSize, s.getINodeBlock blockSize j ≠ 0
  layout : s.Layout blockSize metadata (fun _ => False) (touched blockSize 0 s.node.getSize)

/-- A block of a file, or one that a lookup goes through. -/
def Uses (block : ℕ) : Prop :=
  ∃ j ∈ touched blockSize 0 s.node.getSize, s.getINodeBlock blockSize j = block ∨
    ∃ word ∈ s.lookups blockSize j, word / blockSize = block

end Ext2FsState

/-! ## Records -/

namespace Ext2FsDirectoryEntry

variable {blockSize size offset stop : ℕ} {buffer buffer' : ℕ → UInt8}
  {records pre post : List Ext2FsDirectoryEntry} {entry dentry : Ext2FsDirectoryEntry}

theorem sizeFor_spec (nameSize : ℕ) :
    8 + nameSize ≤ sizeFor nameSize ∧ sizeFor nameSize < 8 + nameSize + 4 ∧
      sizeFor nameSize % 4 = 0 := by
  rw [sizeFor]
  omega

theorem le_contracted (entry : Ext2FsDirectoryEntry) :
    8 + entry.nameSize.toNat ≤ entry.contracted :=
  (sizeFor_spec _).1

theorem le_required (dentry : Ext2FsDirectoryEntry) : 8 + dentry.name.length ≤ dentry.required :=
  (sizeFor_spec _).1

theorem contracted_lt (entry : Ext2FsDirectoryEntry) : entry.contracted < 268 := by
  have hsize := (sizeFor_spec entry.nameSize.toNat).2.1
  have hlt := entry.nameSize.toNat_lt
  rw [contracted]
  omega

theorem Fits.available_eq (h : Fits blockSize offset entry) :
    entry.available = entry.size.toNat - entry.contracted := by
  have hsize := entry.size.toNat_lt
  have hname := h.name
  have hcontracted := entry.contracted_lt
  rw [available, wordSub, wordCount]
  omega

theorem Fits.eight_le (h : Fits blockSize offset entry) : 8 ≤ entry.size.toNat := by
  have hcontracted := entry.le_contracted
  have hname := h.name
  omega

@[simp] theorem length_read_name (buffer : ℕ → UInt8) (offset : ℕ) :
    (read buffer offset).name.length = (read buffer offset).nameSize.toNat := by
  rw [read, List.length_map, List.length_range]

/-- An entry depends on its header and its name. -/
theorem read_congr (h : ∀ i < 8 + (read buffer offset).nameSize.toNat,
    buffer' (offset + i) = buffer (offset + i)) : read buffer' offset = read buffer offset := by
  have hword : ∀ k n, k + n ≤ 8 → readLE buffer' (offset + k) n = readLE buffer (offset + k) n :=
    fun k n hk => readLE_congr fun i hi => by
      rw [Nat.add_assoc]
      exact h _ (by omega)
  have hname : buffer' (offset + 6) = buffer (offset + 6) := h 6 (by omega)
  have hindex : readLE buffer' offset 4 = readLE buffer offset 4 := hword 0 4 (by decide)
  rw [read, read, hindex, hword 4 2 (by decide), hname, h 7 (by omega)]
  congr 1
  refine List.map_congr_left fun i hi => ?_
  rw [Nat.add_assoc]
  exact h _ (Nat.add_lt_add_left (List.mem_range.mp hi) 8)

/-- Records depend on their bytes. -/
theorem Records.congr (h : Records blockSize buffer offset stop records)
    (hbytes : ∀ position, offset ≤ position → position < stop →
      buffer' position = buffer position) : Records blockSize buffer' offset stop records := by
  refine Tiles.congr h fun o ho hfits hstop => read_congr fun i hi => hbytes _ (by omega) ?_
  have hcontracted := (read buffer o).le_contracted
  have hname := hfits.name
  omega

/-- A record of a directory. -/
theorem Records.split (h : Records blockSize buffer offset stop (pre ++ entry :: post)) :
    Records blockSize buffer offset (offset + (pre.map fun r => r.size.toNat).sum) pre ∧
      read buffer (offset + (pre.map fun r => r.size.toNat).sum) = entry ∧
      Fits blockSize (offset + (pre.map fun r => r.size.toNat).sum) entry ∧
      Records blockSize buffer
        (offset + (pre.map fun r => r.size.toNat).sum + entry.size.toNat) stop post := by
  obtain ⟨middle, hpre, hrest⟩ := Tiles.append_iff.mp h
  obtain rfl := hpre.stop_eq
  obtain ⟨hread, -, hfits, hpost⟩ := Tiles.cons_iff.mp hrest
  exact ⟨hpre, hread, hfits, hpost⟩

theorem exists_firstRoom (required : ℕ) (records : List Ext2FsDirectoryEntry) :
    (∀ r ∈ records, r.available < required) ∨
      ∃ pre entry post, FirstRoom required records pre entry post := by
  cases hfind : records.find? fun r => required ≤ r.available with
  | none =>
    left
    simpa using hfind
  | some entry =>
    right
    obtain ⟨hroom, pre, post, hsplit, hbefore⟩ := List.find?_eq_some_iff_append.mp hfind
    exact ⟨pre, entry, post, hsplit, by simpa using hbefore, by simpa using hroom⟩

end Ext2FsDirectoryEntry

namespace Ext2FsINode

open Ext2FsDirectoryEntry

variable {blockSize size required offset fuel : ℕ} {buffer : ℕ → UInt8}
  {records pre post : List Ext2FsDirectoryEntry} {entry : Ext2FsDirectoryEntry}

/-- A turn of the loop goes to the next record. -/
theorem findRoom_cons (hsize : size < wordCount)
    (h : Records blockSize buffer offset size (entry :: post))
    (hfuel : size ≤ offset + (fuel + 1)) :
    size ≤ offset + entry.size.toNat + fuel ∧ findRoom buffer size required (fuel + 1) offset =
      if required ≤ entry.available then some (offset, true)
      else findRoom buffer size required fuel (offset + entry.size.toNat) := by
  obtain ⟨hread, hpos, -, hrest⟩ := Tiles.cons_iff.mp h
  have hle := hrest.le
  have hword : (offset + entry.size.toNat) % wordCount = offset + entry.size.toNat :=
    Nat.mod_eq_of_lt (by omega)
  rw [findRoom, if_pos (by omega), hread]
  dsimp only
  rw [hword]
  exact ⟨by omega, rfl⟩

/-- The loop ends at the first record with room. -/
theorem findRoom_of_room (hsize : size < wordCount)
    (h : Records blockSize buffer offset size (pre ++ entry :: post))
    (hbefore : ∀ r ∈ pre, r.available < required) (hroom : required ≤ entry.available)
    (hfuel : size ≤ offset + fuel) :
    findRoom buffer size required fuel offset =
      some (offset + (pre.map fun r => r.size.toNat).sum, true) := by
  induction pre generalizing offset fuel with
  | nil =>
    obtain ⟨-, hpos, -, hrest⟩ := Tiles.cons_iff.mp h
    have hle := hrest.le
    obtain ⟨fuel, rfl⟩ : ∃ n, fuel = n + 1 := Nat.exists_eq_succ_of_ne_zero (by omega)
    rw [(findRoom_cons hsize h hfuel).2, if_pos hroom]
    rfl
  | cons r pre ih =>
    obtain ⟨-, hpos, -, hrest⟩ := Tiles.cons_iff.mp h
    have hle := hrest.le
    obtain ⟨fuel, rfl⟩ : ∃ n, fuel = n + 1 := Nat.exists_eq_succ_of_ne_zero (by omega)
    obtain ⟨hr, hpre⟩ := List.forall_mem_cons.mp hbefore
    obtain ⟨hnext, hturn⟩ : _ ∧ findRoom buffer size required (fuel + 1) offset = _ :=
      findRoom_cons hsize h hfuel
    rw [hturn, if_neg (by omega), ih hrest hpre hnext, List.map_cons, List.sum_cons,
      Nat.add_assoc]

/-- The loop goes through a directory that is full. -/
theorem findRoom_of_full (hsize : size < wordCount)
    (h : Records blockSize buffer offset size records)
    (hfull : ∀ r ∈ records, r.available < required) (hfuel : size ≤ offset + fuel) :
    findRoom buffer size required fuel offset = some (size, false) := by
  induction records generalizing offset fuel with
  | nil =>
    obtain rfl := h.eq_of_nil
    cases fuel with
    | zero => rw [findRoom, if_neg (Nat.lt_irrefl _)]
    | succ fuel => rw [findRoom, if_neg (Nat.lt_irrefl _)]
  | cons r records ih =>
    obtain ⟨-, hpos, -, hrest⟩ := Tiles.cons_iff.mp h
    have hle := hrest.le
    obtain ⟨fuel, rfl⟩ : ∃ n, fuel = n + 1 := Nat.exists_eq_succ_of_ne_zero (by omega)
    obtain ⟨hr, hrecords⟩ := List.forall_mem_cons.mp hfull
    obtain ⟨hnext, hturn⟩ : _ ∧ findRoom buffer size required (fuel + 1) offset = _ :=
      findRoom_cons hsize h hfuel
    rw [hturn, if_neg (by omega), ih hrest hrecords hnext]

/-! ## The entry that is split -/

variable {copy : List UInt8 → ℕ → List UInt8} {dentry : Ext2FsDirectoryEntry} {position : ℕ}

/-- A new `Size` changes nothing else in an entry. -/
theorem read_writeSize (buffer : ℕ → UInt8) (offset size : ℕ) :
    read (writeLE buffer (offset + 4) 2 size) offset =
      { read buffer offset with size := UInt16.ofNat size } := by
  have hword : readLE (writeLE buffer (offset + 4) 2 size) offset 4 = readLE buffer offset 4 :=
    readLE_congr fun i hi => writeLE_of_not_mem (by omega)
  have hbyte : ∀ i, 6 ≤ i → writeLE buffer (offset + 4) 2 size (offset + i) = buffer (offset + i) :=
    fun i hi => writeLE_of_not_mem (by omega)
  have hsize : UInt16.ofNat (size % 256 ^ 2) = UInt16.ofNat size := UInt16.ofNat_mod_size
  rw [Ext2FsDirectoryEntry.read, Ext2FsDirectoryEntry.read, hword, readLE_writeLE, hsize,
    hbyte 6 le_rfl, hbyte 7 (by decide)]
  congr 1
  refine List.map_congr_left fun i hi => ?_
  rw [Nat.add_assoc]
  exact hbyte _ (by omega)

theorem putEntry_of_not_mem (hcopy : ∀ name count, copy name count = name.take count)
    {entry size : ℕ} (h : position < entry ∨ entry + 8 + dentry.name.length ≤ position) :
    putEntry copy dentry buffer entry size position = buffer position := by
  have hname : copy dentry.name (dentry.name.length + 1) = dentry.name := by
    rw [hcopy, List.take_of_length_le (Nat.le_succ _)]
  rw [putEntry, hname, writeBytes_of_not_mem (by omega), writeLE_of_not_mem (by omega),
    writeLE_of_not_mem (by omega), writeLE_of_not_mem (by omega), writeLE_of_not_mem (by omega)]

/-- The new entry is read back. -/
theorem read_putEntry (hcopy : ∀ name count, copy name count = name.take count)
    (hlength : dentry.name.length < 256) (entry size : ℕ) :
    read (putEntry copy dentry buffer entry size) entry =
      { dentry with
        size := UInt16.ofNat size
        nameSize := UInt8.ofNat dentry.name.length } := by
  have hname : copy dentry.name (dentry.name.length + 1) = dentry.name := by
    rw [hcopy, List.take_of_length_le (Nat.le_succ _)]
  have hputs : ∀ i (hi : i < dentry.name.length),
      putEntry copy dentry buffer entry size (entry + 8 + i) = dentry.name[i] := fun i hi => by
    rw [putEntry, hname, writeBytes_of_mem _ _ hi]
  have htype : putEntry copy dentry buffer entry size (entry + 7) = dentry.type := by
    rw [putEntry, writeBytes_of_not_mem (by omega), writeLE_byte, UInt8.ofNat_toNat]
  have hnameSize : putEntry copy dentry buffer entry size (entry + 6) =
      UInt8.ofNat dentry.name.length := by
    rw [putEntry, writeBytes_of_not_mem (by omega), writeLE_of_not_mem (by omega), writeLE_byte]
  have hsize : readLE (putEntry copy dentry buffer entry size) (entry + 4) 2 = size % 2 ^ 16 := by
    refine Eq.trans (readLE_congr fun i hi => ?_)
      (readLE_writeLE (writeLE buffer entry 4 dentry.inodeIndex.toNat) (entry + 4) 2 size)
    rw [putEntry, writeBytes_of_not_mem (by omega), writeLE_of_not_mem (by omega),
      writeLE_of_not_mem (by omega)]
  have hindex : readLE (putEntry copy dentry buffer entry size) entry 4 =
      dentry.inodeIndex.toNat % 2 ^ 32 := by
    refine Eq.trans (readLE_congr fun i hi => ?_)
      (readLE_writeLE buffer entry 4 dentry.inodeIndex.toNat)
    rw [putEntry, writeBytes_of_not_mem (by omega), writeLE_of_not_mem (by omega),
      writeLE_of_not_mem (by omega), writeLE_of_not_mem (by omega)]
  have hcount : (UInt8.ofNat dentry.name.length).toNat = dentry.name.length := by
    rw [UInt8.toNat_ofNat', Nat.mod_eq_of_lt hlength]
  rw [Ext2FsDirectoryEntry.read, hindex, hsize, hnameSize, htype, hcount, UInt32.ofNat_mod_size,
    UInt32.ofNat_toNat, UInt16.ofNat_mod_size]
  congr 1
  refine List.ext_getElem (by rw [List.length_map, List.length_range]) fun i hi hi' => ?_
  rw [List.getElem_map, List.getElem_range]
  exact hputs i hi'

section Split

variable (hcopy : ∀ name count, copy name count = name.take count)
  (hread : read buffer offset = entry) (hfits : Fits blockSize offset entry)
  (hroom : dentry.required ≤ entry.available)
include hcopy hread

/-- What is before the new entry is as it was, but for the `Size` of the one that is split. -/
theorem splitEntry_of_lt (h : position < offset + entry.contracted) :
    splitEntry copy dentry buffer offset position =
      writeLE buffer (offset + 4) 2 entry.contracted position := by
  rw [splitEntry, hread]
  rw [putEntry_of_not_mem hcopy (Or.inl h), overlay_of_not_mem _ _ (Or.inl h)]

theorem read_splitEntry_offset :
    read (splitEntry copy dentry buffer offset) offset =
      { entry with size := UInt16.ofNat entry.contracted } := by
  have hwrite := read_writeSize buffer offset entry.contracted
  rw [hread] at hwrite
  have hcontracted := entry.le_contracted
  refine Eq.trans (read_congr fun i hi => splitEntry_of_lt hcopy hread ?_) hwrite
  have hi : i < 8 + entry.nameSize.toNat := by
    rw [hwrite] at hi
    exact hi
  omega

theorem read_splitEntry_entry (hlength : dentry.name.length < 256) :
    read (splitEntry copy dentry buffer offset) (offset + entry.contracted) =
      { dentry with
        size := UInt16.ofNat entry.available
        nameSize := UInt8.ofNat dentry.name.length } := by
  rw [splitEntry, hread]
  exact read_putEntry hcopy hlength _ _

include hfits hroom

/-- Behind the entry, bytes are cleared. -/
theorem splitEntry_of_ge (h : offset + entry.size.toNat ≤ position) :
    splitEntry copy dentry buffer offset position =
      overlay (offset + entry.size.toNat)
        ((read buffer (offset + entry.contracted)).size.toNat - entry.available) (fun _ => 0) buffer
        position := by
  have hname := hfits.name
  have havailable := hfits.available_eq
  have hcontracted := entry.le_contracted
  have hrequired := dentry.le_required
  have hstale : read (writeLE buffer (offset + 4) 2 entry.contracted) (offset + entry.contracted) =
      read buffer (offset + entry.contracted) :=
    read_congr fun i hi => writeLE_of_not_mem (by omega)
  rw [splitEntry, hread]
  rw [hstale, putEntry_of_not_mem hcopy (Or.inr (by omega)), overlay,
    overlay, writeLE_of_not_mem (by omega)]
  exact if_congr (by omega) rfl rfl

end Split

end Ext2FsINode

namespace Ext2FsDirectoryEntry

variable {blockSize size offset : ℕ} {buffer : ℕ → UInt8}
  {records pre post tail : List Ext2FsDirectoryEntry} {entry dentry : Ext2FsDirectoryEntry}

theorem exists_of_mem_live {e : UInt32 × UInt8 × List UInt8} (h : e ∈ live records) :
    ∃ r ∈ records, r.inodeIndex ≠ 0 ∧ r.listed = e := by
  obtain ⟨r, hr, heq⟩ := List.mem_map.mp h
  obtain ⟨hmem, hlive⟩ := List.mem_filter.mp hr
  exact ⟨r, hmem, by simpa using hlive, heq⟩

theorem live_append (pre post : List Ext2FsDirectoryEntry) :
    live (pre ++ post) = live pre ++ live post := by
  rw [live, live, live, List.filter_append, List.map_append]

theorem live_singleton (entry : Ext2FsDirectoryEntry) :
    live [entry] = if entry.inodeIndex = 0 then [] else [entry.listed] := by
  rw [live, List.filter_singleton]
  split <;> simp_all

theorem live_cons (entry : Ext2FsDirectoryEntry) (post : List Ext2FsDirectoryEntry) :
    live (entry :: post) = live [entry] ++ live post :=
  live_append [entry] post

/-- A new entry is listed between those before it and those behind it. -/
theorem live_split {size size' : UInt16} {nameSize : UInt8} (h : dentry.inodeIndex ≠ 0) :
    live (pre ++ { entry with size := size } ::
      { dentry with size := size', nameSize := nameSize } :: tail) =
        live (pre ++ [entry]) ++ dentry.listed :: live tail := by
  rw [live_append, live_cons, live_cons _ tail, live_append, live_singleton,
    live_singleton, live_singleton, if_neg h, List.append_assoc]
  rfl

/-! ## Which entries are added -/

open Ext2FsINode

/-- What is listed has an index and a name that fits. -/
theorem Adds.is_entry (h : Adds blockSize buffer size records dentry) :
    dentry.inodeIndex ≠ 0 ∧ dentry.name.length < 256 := by
  obtain ⟨records', before, behind, hdir, -, hlive⟩ := h
  have hmem : dentry.listed ∈ live records' := by
    rw [hlive]
    exact List.mem_append_right _ List.mem_cons_self
  obtain ⟨r, hr, hindex, heq⟩ := exists_of_mem_live hmem
  obtain ⟨o, rfl⟩ := Tiles.exists_read hdir.records hr
  have hname : (read buffer o).name = dentry.name := congrArg (fun e => e.2.2) heq
  have hsame : (read buffer o).inodeIndex = dentry.inodeIndex := congrArg Prod.fst heq
  rw [← hname, length_read_name, ← hsame]
  exact ⟨hindex, UInt8.toNat_lt _⟩

section Split

variable {copy : List UInt8 → ℕ → List UInt8} {records' : List Ext2FsDirectoryEntry}
  (hcopy : ∀ name count, copy name count = name.take count)
  (hlength : dentry.name.length < 256) (hread : read buffer offset = entry)
  (hfits : Fits blockSize offset entry) (hroom : dentry.required ≤ entry.available)
include hcopy hlength hread hfits hroom

/-- The two records that an entry is split into. -/
theorem records_splitEntry_of_entry :
    Records blockSize (splitEntry copy dentry buffer offset) offset (offset + entry.size.toNat)
      [{ entry with size := UInt16.ofNat entry.contracted },
        { dentry with
          size := UInt16.ofNat entry.available
          nameSize := UInt8.ofNat dentry.name.length }] := by
  have hname := hfits.name
  have halign := hfits.aligned
  have hblock := hfits.block
  have havailable := hfits.available_eq
  have hcontracted := entry.le_contracted
  have hmod := (sizeFor_spec entry.nameSize.toNat).2.2
  have hrequired := dentry.le_required
  have hlt := entry.size.toNat_lt
  have hold : (UInt16.ofNat entry.contracted).toNat = entry.contracted := by
    rw [UInt16.toNat_ofNat', Nat.mod_eq_of_lt (by omega)]
  have hnew : (UInt16.ofNat entry.available).toNat = entry.available := by
    rw [UInt16.toNat_ofNat', Nat.mod_eq_of_lt (by omega)]
  have hcount : (UInt8.ofNat dentry.name.length).toNat = dentry.name.length := by
    rw [UInt8.toNat_ofNat', Nat.mod_eq_of_lt hlength]
  have hin : (offset + entry.contracted) % blockSize = offset % blockSize + entry.contracted :=
    (add_in_block (by omega)).2
  rw [Records, Tiles.cons_iff, Tiles.cons_iff]
  simp only [hold, hnew]
  refine ⟨read_splitEntry_offset hcopy hread, by omega, ⟨?_, ?_, ?_⟩,
    read_splitEntry_entry hcopy hread hlength, by omega, ⟨?_, ?_, ?_⟩, ?_⟩
  · rw [hold]
    exact le_rfl
  · rw [hold]
    exact hmod
  · rw [hold]
    omega
  · rw [hnew, Ext2FsDirectoryEntry.contracted, hcount]
    exact hroom
  · rw [hnew]
    change entry.contracted % 4 = 0 at hmod
    omega
  · rw [hnew, hin]
    omega
  · rw [show offset + entry.contracted + entry.available = offset + entry.size.toNat by omega]
    exact .nil _

/-- The directory after an entry is split: the records before it, the two it is split into, and
those behind it, as far as they are not cleared. -/
theorem records_splitEntry_iff (hpre : Records blockSize buffer 0 offset pre)
    (hlast : offset + entry.size.toNat ≤ size) :
    Records blockSize (splitEntry copy dentry buffer offset) 0 size records' ↔
      ∃ tail, records' = pre ++ { entry with size := UInt16.ofNat entry.contracted } ::
          { dentry with
            size := UInt16.ofNat entry.available
            nameSize := UInt8.ofNat dentry.name.length } :: tail ∧
        Records blockSize (overlay (offset + entry.size.toNat)
          ((read buffer (offset + entry.contracted)).size.toNat - entry.available) (fun _ => 0)
            buffer) (offset + entry.size.toNat) size tail := by
  have hcontracted := entry.le_contracted
  have htwo := records_splitEntry_of_entry hcopy hlength hread hfits hroom
  have hfirst : Records blockSize (splitEntry copy dentry buffer offset) 0 offset pre :=
    hpre.congr fun position _ hlt => by
      rw [splitEntry_of_lt hcopy hread (by omega), writeLE_of_not_mem (by omega)]
  have hfront := Tiles.append_iff.mpr ⟨offset, hfirst, htwo⟩
  have hbehind : ∀ position, offset + entry.size.toNat ≤ position → position < size →
      splitEntry copy dentry buffer offset position = _ := fun position hle _ =>
    splitEntry_of_ge hcopy hread hfits hroom hle
  constructor
  · intro h
    obtain ⟨tail, rfl, htail⟩ := hfront.exists_append h hlast
    refine ⟨tail, by rw [List.append_assoc]; rfl, ?_⟩
    exact Records.congr htail fun position hle hlt => (hbehind position hle hlt).symm
  · rintro ⟨tail, rfl, htail⟩
    have hall := Tiles.append_iff.mpr ⟨_, hfront, htail.congr hbehind⟩
    rwa [List.append_assoc] at hall

/-- What is behind the entry decides. -/
theorem adds_splitEntry_iff (hpre : Records blockSize buffer 0 offset pre)
    (hblocks : size % blockSize = 0) (hlast : offset + entry.size.toNat ≤ size)
    (hnew : ∀ e ∈ live (pre ++ entry :: post), e.2.2 ≠ dentry.name) :
    Adds blockSize (splitEntry copy dentry buffer offset) size (pre ++ entry :: post) dentry ↔
      dentry.inodeIndex ≠ 0 ∧ ∃ tail,
        Records blockSize (overlay (offset + entry.size.toNat)
          ((read buffer (offset + entry.contracted)).size.toNat - entry.available) (fun _ => 0)
            buffer) (offset + entry.size.toNat) size tail ∧ live tail = live post := by
  have hold : live (pre ++ entry :: post) = live (pre ++ [entry]) ++ live post := by
    rw [← live_append, List.append_assoc]
    rfl
  constructor
  · intro hadds
    have hindex := (Adds.is_entry hadds).1
    obtain ⟨records', before, behind, hdir, hlive, hlive'⟩ := hadds
    obtain ⟨tail, rfl, htail⟩ :=
      (records_splitEntry_iff hcopy hlength hread hfits hroom hpre hlast).mp hdir.records
    rw [live_split hindex] at hlive'
    have hnot : ∀ l : List (UInt32 × UInt8 × List UInt8),
        (∀ e ∈ l, e ∈ live (pre ++ entry :: post)) → dentry.listed ∉ l :=
      fun l hl hmem => hnew _ (hl _ hmem) rfl
    obtain ⟨hbefore, -, hbehind⟩ := (List.append_cons_inj_of_notMem
      (hnot before fun e he => hlive ▸ List.mem_append_left _ he)
      (hnot behind fun e he => hlive ▸ List.mem_append_right _ he)).mp hlive'.symm
    refine ⟨hindex, tail, htail, ?_⟩
    rw [hold, ← hbefore] at hlive
    rw [← hbehind]
    exact (List.append_cancel_left hlive).symm
  · rintro ⟨hindex, tail, htail, hlive⟩
    have hrecords := (records_splitEntry_iff hcopy hlength hread hfits hroom hpre hlast).mpr
      ⟨tail, rfl, htail⟩
    exact ⟨_, live (pre ++ [entry]), live post, ⟨hblocks, hrecords⟩, hold, by
      rw [live_split hindex, hlive]⟩

end Split

section Clear

variable {last n : ℕ}

theorem inodeIndex_toNat (buffer : ℕ → UInt8) (offset : ℕ) :
    (read buffer offset).inodeIndex.toNat = readLE buffer offset 4 := by
  rw [read, UInt32.toNat_ofNat']
  exact Nat.mod_eq_of_lt (readLE_lt buffer offset 4)

theorem size_toNat (buffer : ℕ → UInt8) (offset : ℕ) :
    (read buffer offset).size.toNat = readLE buffer (offset + 4) 2 := by
  rw [read, UInt16.toNat_ofNat']
  exact Nat.mod_eq_of_lt (readLE_lt buffer (offset + 4) 2)

/-- If bytes of the record behind the entry are cleared, and the directory lists the same, they were
0, but where all of the record's index is cleared and a byte of its `Size`. -/
theorem eq_zero_of_live_eq (hn : n ≠ 5) (hpost : Records blockSize buffer last size post)
    (htail : Records blockSize (overlay last n (fun _ => 0) buffer) last size tail)
    (hlive : live tail = live post) {position : ℕ} (hle : last ≤ position)
    (hlt : position < last + n) (hend : position < size) : buffer position = 0 := by
  set cleared := overlay last n (fun _ => 0) buffer with hcleared
  have hzero : ∀ i < n, cleared (last + i) = 0 := fun i hi => overlay_of_mem last _ _ hi
  have hkeep : ∀ i, n ≤ i → cleared (last + i) = buffer (last + i) := fun i hi =>
    overlay_of_not_mem _ _ (by omega)
  cases post with
  | nil =>
    have := hpost.eq_of_nil
    omega
  | cons r post =>
    cases tail with
    | nil =>
      have := htail.eq_of_nil
      omega
    | cons r' tail =>
      obtain ⟨rfl, hpos, hfits, hrest⟩ := Tiles.cons_iff.mp hpost
      obtain ⟨rfl, hpos', -, hrest'⟩ := Tiles.cons_iff.mp htail
      have hshort : n ≤ 4 := by
        by_contra hlong
        have hsize : readLE cleared (last + 4) 2 = readLE (fun _ => 0) 0 2 :=
          readLE_congr fun i hi => by
            rw [Nat.add_assoc]
            exact hzero _ (by omega)
        rw [size_toNat, hsize] at hpos'
        exact absurd hpos' (Nat.lt_irrefl 0)
      -- only the index may have changed
      have hsame : read cleared last =
          { read buffer last with inodeIndex := (read cleared last).inodeIndex } := by
        have hsize : readLE cleared (last + 4) 2 = readLE buffer (last + 4) 2 :=
          readLE_congr fun i hi => by
            rw [Nat.add_assoc]
            exact hkeep _ (by omega)
        rw [read, read, hsize, hkeep 6 (by omega), hkeep 7 (by omega)]
        congr 1
        refine List.map_congr_left fun i hi => ?_
        rw [Nat.add_assoc]
        exact hkeep _ (by omega)
      have height := hfits.eight_le
      have hsize : (read cleared last).size = (read buffer last).size := by rw [hsame]
      rw [hsize] at hrest'
      have hrest'' : Records blockSize cleared (last + (read buffer last).size.toNat) size post :=
        Records.congr hrest fun p hp _ => overlay_of_not_mem _ _ (by omega)
      obtain rfl : tail = post := Tiles.unique hrest' hrest''
      rw [live_cons, live_cons (read buffer last)] at hlive
      have hindex : (read cleared last).inodeIndex = (read buffer last).inodeIndex := by
        have hone := List.append_cancel_right hlive
        rw [live_singleton, live_singleton] at hone
        split at hone <;> split at hone
        · rename_i h h'
          rw [h, h']
        · cases hone
        · cases hone
        · exact congrArg Prod.fst (List.cons.inj hone).1
      have hword : readLE cleared last 4 = readLE buffer last 4 := by
        rw [← inodeIndex_toNat, ← inodeIndex_toNat, hindex]
      obtain ⟨i, rfl⟩ := Nat.exists_eq_add_of_le hle
      rw [← byte_eq_of_readLE hword (show i < 4 by omega)]
      exact hzero i (by omega)

/-- What is cleared behind an entry can be cleared exactly when the directory goes on as it did. -/
theorem canClear_iff (hpre : Records blockSize buffer 0 offset pre)
    (hread : read buffer offset = entry) (hfits : Fits blockSize offset entry)
    (hpost : Records blockSize buffer (offset + entry.size.toNat) size post)
    (hblocks : size % blockSize = 0) :
    (∃ tail, Records blockSize (overlay (offset + entry.size.toNat) n (fun _ => 0) buffer)
        (offset + entry.size.toNat) size tail ∧ live tail = live post) ↔
      CanClear blockSize buffer size (pre ++ entry :: post) (offset + entry.size.toNat)
        (offset + entry.size.toNat + n) := by
  set last := offset + entry.size.toNat
  have height := hfits.eight_le
  have hfront : Records blockSize buffer 0 last (pre ++ [entry]) :=
    Tiles.append_iff.mpr ⟨offset, hpre,
      Tiles.cons_iff.mpr ⟨hread, by omega, hfits, .nil last⟩⟩
  have hcleared : Records blockSize (overlay last n (fun _ => 0) buffer) 0 last (pre ++ [entry]) :=
    hfront.congr fun p _ hlt => overlay_of_not_mem _ _ (Or.inl hlt)
  have hsplit : pre ++ entry :: post = pre ++ [entry] ++ post := by
    rw [List.append_assoc]
    rfl
  constructor
  · rintro ⟨tail, htail, hlive⟩
    by_cases hn : n = 5
    · subst hn
      refine Or.inr ⟨rfl, pre ++ [entry] ++ tail, ⟨hblocks, ?_⟩, ?_⟩
      · exact Tiles.append_iff.mpr ⟨last, hcleared, htail⟩
      · rw [hsplit, live_append _ tail, live_append _ post, hlive]
    · exact Or.inl fun p hle hlt hend =>
        eq_zero_of_live_eq hn hpost htail hlive hle hlt hend
  · rintro (hzero | ⟨hn, records', hdir, hlive⟩)
    · refine ⟨post, hpost.congr fun p hle hlt => ?_, rfl⟩
      by_cases hp : p < last + n
      · rw [overlay, if_pos ⟨hle, hp⟩, hzero p hle hp hlt]
      · exact overlay_of_not_mem _ _ (by omega)
    · obtain rfl : n = 5 := by omega
      obtain ⟨tail, rfl, htail⟩ := hcleared.exists_append hdir.records hpost.le
      refine ⟨tail, htail, ?_⟩
      rw [hsplit, live_append _ tail, live_append _ post] at hlive
      exact List.append_cancel_left hlive

end Clear

/-- Nothing is cleared. -/
theorem canClear_of_le {last reach : ℕ} (h : reach ≤ last) :
    CanClear blockSize buffer size records last reach :=
  Or.inl fun position _ _ => by omega

/-- Where an entry is split, it is added if it is one and what is cleared can be. -/
theorem adds_iff_of_firstRoom {copy : List UInt8 → ℕ → List UInt8}
    (hcopy : ∀ name count, copy name count = name.take count)
    (hlength : dentry.name.length < 256) (hdir : IsDirectory blockSize buffer size records)
    (hfirst : FirstRoom dentry.required records pre entry post)
    (hnew : ∀ e ∈ live records, e.2.2 ≠ dentry.name) :
    Adds blockSize (splitEntry copy dentry buffer (pre.map fun r => r.size.toNat).sum) size records
        dentry ↔
      dentry.inodeIndex ≠ 0 ∧
        let offset := (pre.map fun r => r.size.toNat).sum
        CanClear blockSize buffer size records (offset + entry.size.toNat)
          (offset + entry.contracted + (read buffer (offset + entry.contracted)).size.toNat) := by
  obtain ⟨rfl, -, hroom⟩ := hfirst
  obtain ⟨hpre, hread, hfits, hpost⟩ := hdir.records.split
  rw [Nat.zero_add] at hpre hread hfits hpost
  dsimp only
  set offset := (pre.map fun r => r.size.toNat).sum
  rw [adds_splitEntry_iff hcopy hlength hread hfits hroom hpre hdir.blocks hpost.le hnew,
    canClear_iff hpre hread hfits hpost hdir.blocks]
  have hname := hfits.name
  have havailable := hfits.available_eq
  refine and_congr_right' ?_
  by_cases hlong : entry.available ≤ (read buffer (offset + entry.contracted)).size.toNat
  · rw [show offset + entry.size.toNat +
      ((read buffer (offset + entry.contracted)).size.toNat - entry.available) =
        offset + entry.contracted + (read buffer (offset + entry.contracted)).size.toNat by omega]
  · exact iff_of_true (canClear_of_le (by omega)) (canClear_of_le (by omega))

theorem Adds.congr {buffer' : ℕ → UInt8} (h : Adds blockSize buffer size records dentry)
    (hbytes : ∀ position < size, buffer' position = buffer position) :
    Adds blockSize buffer' size records dentry := by
  obtain ⟨records', before, behind, hdir, hlive, hlive'⟩ := h
  exact ⟨records', before, behind,
    ⟨hdir.blocks, hdir.records.congr fun position _ hlt => hbytes position hlt⟩, hlive, hlive'⟩

end Ext2FsDirectoryEntry

/-! ## The directory on the device -/

namespace Ext2FsState

variable {calls : Ext2FsCalls} {s t : Ext2FsState} {blockSize start count : ℕ}
  {metadata : ℕ → Prop}

theorem contents_of_lt {position : ℕ} (h : position < s.node.getSize) :
    s.contents blockSize position = fileByte blockSize s.device s.node position := by
  have hmem := overlay_of_mem 0 (fileByte blockSize s.device s.node) (fun _ => 0) h
  rwa [Nat.zero_add] at hmem

/-- What reads only blocks that have not changed is as it was. -/
theorem HasBlocks.congr (h : s.HasBlocks blockSize metadata) (hsize : ValidBlockSize blockSize)
    (hnode : t.node = s.node)
    (hdevice : ∀ address, s.Uses blockSize (address / blockSize) →
      t.device address = s.device address) :
    t.HasBlocks blockSize metadata ∧ (∀ j ∈ touched blockSize 0 s.node.getSize,
      t.getINodeBlock blockSize j = s.getINodeBlock blockSize j) ∧
      t.contents blockSize = s.contents blockSize := by
  have hmin := hsize.bounds.1
  have hwords : ∀ j ∈ touched blockSize 0 s.node.getSize, ∀ word ∈ s.lookups blockSize j,
      readU32 t.device word = readU32 s.device word := fun j hj word hword =>
    readU32_congr_block hsize (lookups_mod_four hsize hword) fun a ha =>
      hdevice a ⟨j, hj, Or.inr ⟨word, hword, ha.symm⟩⟩
  have hlookups : ∀ j ∈ touched blockSize 0 s.node.getSize,
      t.lookups blockSize j = s.lookups blockSize j := fun j hj =>
    lookups_congr hsize (fun k _ => by rw [hnode]) fun word hword =>
      hwords j hj word (List.dropLast_subset _ hword)
  have hgets : ∀ j ∈ touched blockSize 0 s.node.getSize,
      t.getINodeBlock blockSize j = s.getINodeBlock blockSize j := fun j hj =>
    getINodeBlock_congr hsize (fun k _ => by rw [hnode]) (hwords j hj)
  refine ⟨⟨?_, ?_, ?_⟩, hgets, ?_⟩
  · rw [hnode]
    exact h.size_le
  · rw [hnode]
    intro j hj
    rw [hgets j hj]
    exact h.found j hj
  · rw [hnode]
    exact h.layout.congr hlookups hgets
  · rw [contents, contents, hnode]
    refine overlay_congr (fun p hp => ?_) fun _ _ => rfl
    have hmem : p / blockSize ∈ touched blockSize 0 s.node.getSize :=
      ⟨p, Nat.zero_le p, by omega, rfl⟩
    have hlt := hp.trans_le h.size_le
    have hplace : t.place blockSize p = s.place blockSize p := by
      rw [place_lt hsize hlt, place_lt hsize hlt, hgets _ hmem]
    have hbyte : t.device (t.place blockSize p) = s.device (s.place blockSize p) := by
      rw [hplace]
      exact hdevice _ ⟨_, hmem, Or.inl (place_div hsize hlt).symm⟩
    rw [place, getINodeBlock, hnode] at hbyte
    exact hbyte

theorem HasBlocks.not_metadata (h : s.HasBlocks blockSize metadata) {block : ℕ}
    (huses : s.Uses blockSize block) : ¬ metadata block := by
  obtain ⟨j, hj, rfl | ⟨word, hword, rfl⟩⟩ := huses
  · exact h.layout.metadata j hj (h.found j hj)
  · exact h.layout.lookups j hj word hword

end Ext2FsState

/-- `WriteINodeEntry` writes the inode, which is metadata. -/
structure Ext2FsCalls.WritesEntry (calls : Ext2FsCalls) (blockSize : ℕ) (metadata : ℕ → Prop) :
    Prop where
  node : ∀ s, (calls.writeINodeEntry s).node = s.node
  device : ∀ s address, ¬ metadata (address / blockSize) →
    (calls.writeINodeEntry s).device address = s.device address

namespace Ext2FsVolume

open Ext2FsState Ext2FsDirectoryEntry

variable {volume : Ext2FsVolume} {blockSize index : ℕ} {s : Ext2FsState} {metadata : ℕ → Prop}
  {device : ℕ → UInt8} {copy : List UInt8 → ℕ → List UInt8}
  {dentry : Ext2FsDirectoryEntry} {records : List Ext2FsDirectoryEntry}

theorem HasBlocks.size_lt (h : s.HasBlocks blockSize metadata) (hsize : ValidBlockSize blockSize) :
    s.node.getSize < wordCount := by
  have hmul := Nat.mul_le_mul_left (2 ^ 32) hsize.bounds.2.1
  have hle := h.size_le
  rw [wordCount]
  omega

/-- A whole file is read as it is. -/
theorem readAll_eq (hsize : ValidBlockSize blockSize) (h : s.HasBlocks blockSize metadata) :
    readAll blockSize s = some (s.contents blockSize) := by
  have hlt := HasBlocks.size_lt h hsize
  have hpos : 0 < blockSize := by
    have := hsize.bounds.1
    omega
  have hread : ReadsFile blockSize s.device s.node (fun _ => 0) 0 s.node.getSize := by
    rw [readsFile_iff (Nat.zero_le _) (by omega)]
    refine readBlocks_of_needsNoOffset hpos ?_ le_rfl (Or.inr (Or.inl (Nat.zero_mod _)))
    rw [available]
    omega
  have hall : available s.node.getSize 0 s.node.getSize = s.node.getSize := by
    rw [available]
    omega
  rw [ReadsFile, hall] at hread
  rw [readAll, hread, contents]
  simp only [Option.map_some, Nat.zero_add]

/-- A whole file is written back. -/
theorem writeAll_eq (buffer : ℕ → UInt8) (hsize : ValidBlockSize blockSize)
    (hentry : (volume.calls index).WritesEntry blockSize metadata)
    (h : s.HasBlocks blockSize metadata) :
    ∃ s', volume.writeAll blockSize index buffer s = some s' ∧ s'.node = s.node ∧
      ∀ position < s.node.getSize, s'.contents blockSize position = buffer position := by
  set u := (volume.calls index).writeINodeEntry s with hu
  have hnode : u.node = s.node := hentry.node s
  have hlt := HasBlocks.size_lt h hsize
  have hend : 0 + s.node.getSize ≤ 2 ^ 32 * blockSize := by
    rw [Nat.zero_add]
    exact h.size_le
  obtain ⟨hblocks, hgets, -⟩ := h.congr (t := u) hsize hnode fun address huses =>
    hentry.device s address (h.not_metadata huses)
  have hstate : (s.growINode (volume.calls index) blockSize 0 s.node.getSize).growSize
      (volume.calls index) 0 s.node.getSize = u := by
    rw [growINode_of_found _ fun j hj => h.found j ((grown_spec hsize hend).2 j hj), ← hu, growSize,
      hnode, Nat.zero_add, Nat.mod_eq_of_lt hlt, if_neg (Nat.lt_irrefl _)]
  obtain ⟨s', new, heq, hnode', hget', -, hread, -⟩ :=
    hblocks.layout.writeBlocks buffer hsize subset_rfl (by rw [hnode]; exact hend)
      hblocks.found
  rw [hnode] at heq hread hget'
  refine ⟨s', ?_, hnode'.trans hnode, fun p hp => ?_⟩
  · rw [writeAll, writeINode, hstate, heq]
    rfl
  · have hmem : p / blockSize ∈ touched blockSize 0 s.node.getSize :=
      ⟨p, Nat.zero_le p, by omega, rfl⟩
    have hplt := hp.trans_le h.size_le
    have hplace : s'.place blockSize p = u.place blockSize p := by
      rw [place_lt hsize hplt, place_lt hsize hplt, hget' _ hmem]
    have hbyte := hread p (Nat.zero_le p) (by omega)
    rw [← hplace] at hbyte
    rw [contents_of_lt (by rw [hnode', hnode]; exact hp)]
    exact hbyte

/-- A directory with room: the entry is made of the first one with room. -/
theorem addDirectoryEntry_of_firstRoom (copy : List UInt8 → ℕ → List UInt8)
    (hsize : ValidBlockSize blockSize)
    (hentry : (volume.calls index).WritesEntry blockSize metadata)
    (hblocks : (volume.load device index).HasBlocks blockSize metadata)
    (hdir : IsDirectory blockSize ((volume.load device index).contents blockSize)
      (volume.load device index).node.getSize records)
    {pre post : List Ext2FsDirectoryEntry} {entry : Ext2FsDirectoryEntry}
    (hfirst : FirstRoom dentry.required records pre entry post) :
    ∃ s', volume.addDirectoryEntry blockSize copy dentry index device = some s' ∧
      s'.node = (volume.load device index).node ∧
      ∀ position < (volume.load device index).node.getSize, s'.contents blockSize position =
        Ext2FsINode.splitEntry copy dentry ((volume.load device index).contents blockSize)
          (pre.map fun r => r.size.toNat).sum position := by
  obtain ⟨rfl, hbefore, hroom⟩ := hfirst
  set s := volume.load device index with hs
  have hfind := Ext2FsINode.findRoom_of_room (HasBlocks.size_lt hblocks hsize) hdir.records
    hbefore hroom (Nat.le_add_left _ _)
  rw [Nat.zero_add] at hfind
  obtain ⟨s', hwrite, hnode, hcontents⟩ := writeAll_eq (Ext2FsINode.splitEntry copy dentry
    (s.contents blockSize) (pre.map fun r => r.size.toNat).sum) hsize hentry hblocks
  refine ⟨s', ?_, hnode, hcontents⟩
  rw [addDirectoryEntry, ← hs, readAll_eq hsize hblocks]
  simp only [Option.bind_some, hfind, if_true]
  exact hwrite

/-- A full directory is a page fault. -/
theorem addDirectoryEntry_of_full (copy : List UInt8 → ℕ → List UInt8)
    (hsize : ValidBlockSize blockSize)
    (hblocks : (volume.load device index).HasBlocks blockSize metadata)
    (hdir : IsDirectory blockSize ((volume.load device index).contents blockSize)
      (volume.load device index).node.getSize records)
    (hfull : ∀ r ∈ records, r.available < dentry.required) :
    volume.addDirectoryEntry blockSize copy dentry index device = none := by
  have hfind := Ext2FsINode.findRoom_of_full (HasBlocks.size_lt hblocks hsize) hdir.records
    hfull (Nat.le_add_left _ _)
  rw [addDirectoryEntry, readAll_eq hsize hblocks]
  simp only [Option.bind_some, hfind, Bool.false_eq_true, if_false]

/-- An inode table in block 5, and block 9 as the only free block, which a word of block 4 says. -/
def tableVolume : Ext2FsVolume where
  readINodeEntry device index :=
    let entry := 5120 + (index - 1) * 128
    { sizeLow := UInt32.ofNat (readU32 device (entry + 4))
      sizeHigh := UInt32.ofNat (readU32 device (entry + 108))
      blocks := fun k => UInt32.ofNat (readU32 device (entry + 40 + k * 4)) }
  calls index :=
    { allocateBlock := fun s => (if readU32 s.device 4096 = 0 then 9 else 0, s.writeU32 4096 1)
      writeINodeEntry := fun s =>
        let entry := 5120 + (index - 1) * 128
        (List.range 15).foldl (fun t k => t.writeU32 (entry + 40 + k * 4) (s.node.block k))
          ((s.writeU32 (entry + 4) s.node.sizeLow.toNat).writeU32 (entry + 108)
            s.node.sizeHigh.toNat) }

/-- A directory of four entries, with names of a byte each. It is inode 2, and has block 7. An entry
that was deleted has left `stale` in the room behind the first one, as the high byte of its size. -/
def fourEntries (stale address : ℕ) : UInt8 :=
  let k := (address - 7168) / 256
  let i := (address - 7168) % 256
  if address = 5253 then 4
  else if address = 5288 then 7
  else if address < 7168 ∨ 8192 ≤ address then 0
  else if address = 7185 then UInt8.ofNat stale
  else if i = 0 then UInt8.ofNat (11 + k)
  else if i = 5 ∨ i = 6 ∨ i = 7 then 1
  else if i = 8 then UInt8.ofNat (97 + k)
  else 0

/-- The new entry of the examples. -/
def newEntry : Ext2FsDirectoryEntry where
  inodeIndex := 3
  size := 0
  nameSize := 0
  type := 1
  name := [0x78]

theorem foldl_writeU32 (address value : ℕ → ℕ) (l : List ℕ) (s : Ext2FsState) :
    (l.foldl (fun s k => s.writeU32 (address k) (value k)) s).node = s.node ∧
      ∀ a, (∀ k ∈ l, a < address k ∨ address k + 4 ≤ a) →
        (l.foldl (fun s k => s.writeU32 (address k) (value k)) s).device a = s.device a := by
  induction l generalizing s with
  | nil => exact ⟨rfl, fun _ _ => rfl⟩
  | cons k l ih =>
    obtain ⟨hnode, hdevice⟩ := ih (s.writeU32 (address k) (value k))
    refine ⟨hnode, fun a ha => ?_⟩
    obtain ⟨hk, hl⟩ := List.forall_mem_cons.mp ha
    exact (hdevice a hl).trans (writeLE_of_not_mem hk)

theorem tableVolume_writesEntry (h : index ≤ 8) :
    (tableVolume.calls index).WritesEntry 1024 fun block => block = 4 ∨ block = 5 := by
  constructor
  · exact fun s => (foldl_writeU32 _ _ _ _).1
  · intro s address haddress
    have hfar : ∀ n < 32, address < 5120 + (index - 1) * 128 + n * 4 ∨
        5120 + (index - 1) * 128 + n * 4 + 4 ≤ address := by omega
    refine ((foldl_writeU32 _ _ _ _).2 address fun k hk => ?_).trans ?_
    · have hk := hfar (10 + k) (by have := List.mem_range.mp hk; omega)
      omega
    · exact (writeLE_of_not_mem (hfar 27 (by decide))).trans
        (writeLE_of_not_mem (hfar 1 (by decide)))

/-- The entries of `fourEntries`. -/
def fourRecords (stale : ℕ) : List Ext2FsDirectoryEntry :=
  (List.range 4).map fun k =>
    Ext2FsDirectoryEntry.read ((tableVolume.load (fourEntries stale) 2).contents 1024) (k * 256)

section FourEntries

variable {stale : ℕ} (hstale : stale = 0 ∨ stale = 2)
include hstale

theorem fourEntries_getSize : (tableVolume.load (fourEntries stale) 2).node.getSize = 1024 := by
  rcases hstale with rfl | rfl <;> decide

theorem fourEntries_hasBlocks : (tableVolume.load (fourEntries stale) 2).HasBlocks 1024
    fun block => block = 4 ∨ block = 5 := by
  have hgetSize := fourEntries_getSize hstale
  have hindex : ∀ j ∈ touched 1024 0 (tableVolume.load (fourEntries stale) 2).node.getSize,
      j = 0 := by
    rintro j ⟨p, -, hlt, rfl⟩
    omega
  have hblock : (tableVolume.load (fourEntries stale) 2).getINodeBlock 1024 0 = 7 := by
    rcases hstale with rfl | rfl <;> decide
  have hlookups : ∀ j ∈ touched 1024 0 (tableVolume.load (fourEntries stale) 2).node.getSize,
      (tableVolume.load (fourEntries stale) 2).lookups 1024 j = [] := fun j hj =>
    lookups_direct (by have := hindex j hj; omega)
  refine ⟨by omega, fun j hj => ?_, ⟨fun j hj word hword => ?_, fun j hj _ => ?_,
    fun _ _ _ => not_false, fun j _ _ k hk word hword => ?_, fun j hj _ k hk _ => ?_⟩⟩
  · rw [hindex j hj, hblock]
    decide
  · rw [hlookups j hj] at hword
    exact absurd hword List.not_mem_nil
  · rw [hindex j hj, hblock]
    decide
  · rw [hlookups k hk] at hword
    exact absurd hword List.not_mem_nil
  · rw [hindex j hj, hindex k hk]

theorem fourEntries_isDirectory : IsDirectory 1024
    ((tableVolume.load (fourEntries stale) 2).contents 1024)
    (tableVolume.load (fourEntries stale) 2).node.getSize (fourRecords stale) := by
  set buffer := (tableVolume.load (fourEntries stale) 2).contents 1024 with hbuffer
  have hheaders : ∀ k < 4, (Ext2FsDirectoryEntry.read buffer (k * 256)).size = 256 ∧
      (Ext2FsDirectoryEntry.read buffer (k * 256)).contracted ≤ 256 := by
    rcases hstale with rfl | rfl <;> decide
  have hfits : ∀ k < 4, (Ext2FsDirectoryEntry.read buffer (k * 256)).size.toNat = 256 ∧
      Fits 1024 (k * 256) (Ext2FsDirectoryEntry.read buffer (k * 256)) := by
    intro k hk
    obtain ⟨hsize, hname⟩ := hheaders k hk
    have hsize : (Ext2FsDirectoryEntry.read buffer (k * 256)).size.toNat = 256 :=
      congrArg UInt16.toNat hsize
    refine ⟨hsize, ⟨?_, ?_, ?_⟩⟩ <;> omega
  have hrecords : ∀ m ≤ 4, Records 1024 buffer ((4 - m) * 256) 1024
      ((List.range' (4 - m) m).map fun k => Ext2FsDirectoryEntry.read buffer (k * 256)) := by
    intro m hm
    induction m with
    | zero => exact .nil 1024
    | succ m ih =>
      obtain ⟨hsize, hfit⟩ := hfits (4 - (m + 1)) (by omega)
      refine .cons (by omega) hfit ?_
      rw [hsize, show (4 - (m + 1)) * 256 + 256 = (4 - m) * 256 by omega,
        show 4 - (m + 1) + 1 = 4 - m by omega]
      exact ih (by omega)
  rw [fourEntries_getSize hstale]
  exact ⟨rfl, hrecords 4 le_rfl⟩

theorem fourEntries_firstRoom : FirstRoom newEntry.required (fourRecords stale) []
    (Ext2FsDirectoryEntry.read ((tableVolume.load (fourEntries stale) 2).contents 1024) 0)
    ((fourRecords stale).drop 1) := by
  refine ⟨rfl, fun r hr => absurd hr List.not_mem_nil, ?_⟩
  rcases hstale with rfl | rfl <;> decide

end FourEntries

end Ext2FsVolume

end Cryptix.VFS
