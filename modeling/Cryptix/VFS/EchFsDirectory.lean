import Cryptix.Lib.Bytes
import Cryptix.VFS.SynthFs

/-!
# Directories of an EchFS volume

`Mount` and `Populate` of `Kernel/VFS/EchFs/EchFs.cpp`. All entries of an EchFS volume are in one
table, the main directory. The `ParentID` of an entry is the id of the directory that it is in: the
`Payload` of the entry of that directory, or `ECHFS_ROOT_DIRECTORY_ID`.

`Populate` begins at the entry of the directory, so that it finds none of the children in front of
it. In the root, `ECHFS_ROOT_DIRECTORY_ID` is what the entries of directories are compared with. All
others are compared with the `Payload` of the entry of the root, which is that of the first entry of
the table. `populate_finds_iff` says for which directories this makes no difference. It is about the
calls of `InsertChild`: the keys that it is handed are views of the loop's own entry buffer, and
what becomes of them in the map of children is left out.

The device does not fail: it is a byte for each offset. Time stamps are left out.
-/

namespace Cryptix.VFS

open Lib

/-- `EchFsIdentityTable`. -/
structure EchFsIdentityTable where
  signature : List UInt8
  totalBlockCount : ℕ
  mainDirectoryLength : ℕ
  bytesPerBlock : ℕ

/-- The identity table of a device. -/
def EchFsIdentityTable.read (device : ℕ → UInt8) : EchFsIdentityTable where
  signature := (List.range 8).map fun i => device (4 + i)
  totalBlockCount := readLE device 12 8
  mainDirectoryLength := readLE device 20 8
  bytesPerBlock := readLE device 28 8

/-- `EchFsDirectoryEntryType`. -/
inductive EchFsDirectoryEntryType
  | regular | directory | other
  deriving DecidableEq

/-- The type with a number. -/
def EchFsDirectoryEntryType.ofByte (b : UInt8) : EchFsDirectoryEntryType :=
  if b = 0 then .regular else if b = 1 then .directory else .other

/-- `EchFsDirectoryEntry`. The name is the string that `Name` begins. -/
structure EchFsDirectoryEntry where
  parentID : ℕ
  objectType : EchFsDirectoryEntryType
  name : List UInt8
  ownerID : ℕ
  groupID : ℕ
  payload : ℕ
  fileSize : ℕ
  deriving DecidableEq

namespace EchFsDirectoryEntry

/-- `sizeof(EchFsDirectoryEntry)`. -/
def bytes : ℕ := 256

/-- The entry at an offset of a device. -/
def read (device : ℕ → UInt8) (offset : ℕ) : EchFsDirectoryEntry where
  parentID := readLE device offset 8
  objectType := .ofByte (device (offset + 8))
  name := ((List.range 247).map fun i => device (offset + 9 + i)).takeWhile (· ≠ 0)
  ownerID := readLE device (offset + 228) 2
  groupID := readLE device (offset + 230) 2
  payload := readLE device (offset + 240) 8
  fileSize := readLE device (offset + 248) 8

end EchFsDirectoryEntry

/-- `EchFsINode`. -/
structure EchFsINode where
  name : List UInt8
  mode : Mode
  uid : ℕ
  gid : ℕ
  size : ℕ
  blockCount : ℕ
  directoryEntry : EchFsDirectoryEntry
  directoryEntryOffset : ℕ
  isFilesystemRoot : Bool
  deriving DecidableEq

/-- `EchFs`. -/
structure EchFs where
  blockSize : ℕ
  mainDirectoryStart : ℕ
  mainDirectoryEnd : ℕ
  deriving DecidableEq

namespace EchFs

/-- `ECHFS_SIGNATURE`: "_ECH_FS_". -/
def signature : List UInt8 := [0x5f, 0x45, 0x43, 0x48, 0x5f, 0x46, 0x53, 0x5f]

/-- `ECHFS_ROOT_DIRECTORY_ID`. -/
def rootDirectoryID : ℕ := 0xffffffffffffffff

/-- `Mount`: the file system, and the inode of its root. -/
def mount (device : ℕ → UInt8) : Option (EchFs × EchFsINode) :=
  let table := EchFsIdentityTable.read device
  if table.signature ≠ signature then none
  else
    let totalBlockCount := table.totalBlockCount
    let blockSize := table.bytesPerBlock
    let allocationTableSize :=
      wordSub ((totalBlockCount * 8 + blockSize) % wordCount) 1 / blockSize
    let mainDirectoryStart := (16 + allocationTableSize) * blockSize % wordCount
    let mainDirectoryEnd :=
      (mainDirectoryStart + table.mainDirectoryLength * blockSize) % wordCount
    let entry := EchFsDirectoryEntry.read device mainDirectoryStart
    if entry.parentID ≠ rootDirectoryID then none
    else some (⟨blockSize, mainDirectoryStart, mainDirectoryEnd⟩,
      { name := [0x2f]
        mode := 0o644 ||| Mode.ifdir
        uid := 0
        gid := 0
        size := totalBlockCount * blockSize % wordCount
        blockCount := totalBlockCount
        directoryEntry := entry
        directoryEntryOffset := mainDirectoryStart
        isFilesystemRoot := true })

variable (fs : EchFs) (device : ℕ → UInt8)

/-- The inode of an entry, with its offset. -/
def child (mode : Mode) (entry : EchFsDirectoryEntry) (offset : ℕ) : EchFsINode where
  name := entry.name
  mode := mode
  uid := entry.ownerID
  gid := entry.groupID
  size := entry.fileSize
  blockCount := Prism.divRoundUp entry.fileSize fs.blockSize
  directoryEntry := entry
  directoryEntryOffset := offset
  isFilesystemRoot := false

/-- A turn of the loop of `Populate`: the child that it inserts. -/
def visit (native : EchFsINode) (offset : ℕ) : Option EchFsINode :=
  let entry := EchFsDirectoryEntry.read device offset
  if entry.name = [] then none
  else
    let inodeDirectoryID := native.directoryEntry.payload
    let mode : Mode := 0o644
    let (inodeDirectoryID, mode) := match entry.objectType with
      | .regular => (inodeDirectoryID, mode ||| Mode.ifreg)
      | .directory =>
        (if native.isFilesystemRoot then rootDirectoryID else inodeDirectoryID, mode ||| Mode.ifdir)
      | .other => (inodeDirectoryID, mode)
    if entry.parentID ≠ inodeDirectoryID then none
    else some (fs.child mode entry offset)

/-- The offsets from one on, as far as the main directory goes. -/
def offsetsFrom (first : ℕ) : List ℕ :=
  List.range' first (Prism.divRoundUp (fs.mainDirectoryEnd - first) EchFsDirectoryEntry.bytes)
    EchFsDirectoryEntry.bytes

/-- `Populate`: the children that are inserted, in order. -/
def populate (native : EchFsINode) : List EchFsINode :=
  (fs.offsetsFrom native.directoryEntryOffset).filterMap (fs.visit device native)

end EchFs

/-! ## What a directory contains -/

namespace EchFsDirectoryEntry

/-- The `st_mode` of an entry. -/
def mode (entry : EchFsDirectoryEntry) : Mode :=
  match entry.objectType with
  | .regular => 0o644 ||| Mode.ifreg
  | .directory => 0o644 ||| Mode.ifdir
  | .other => 0o644

/-- An entry is in the directory with an id. One without a name is free. -/
def IsIn (id : ℕ) (entry : EchFsDirectoryEntry) : Prop := entry.name ≠ [] ∧ entry.parentID = id

instance (id : ℕ) : DecidablePred (IsIn id) := fun _ => inferInstanceAs (Decidable (_ ∧ _))

end EchFsDirectoryEntry

namespace EchFs

open EchFsDirectoryEntry (read)

variable (fs : EchFs) (device : ℕ → UInt8)

/-- The offsets of the main directory. -/
def offsets : List ℕ := fs.offsetsFrom fs.mainDirectoryStart

/-- The inodes of the entries that are in the directory with an id, in order. -/
def contents (id : ℕ) : List EchFsINode :=
  ((fs.offsets).filter fun offset => (read device offset).IsIn id).map fun offset =>
    fs.child (read device offset).mode (read device offset) offset

/-- The inode of an entry of the main directory that is a directory. -/
def IsSubdirectory (node : EchFsINode) : Prop :=
  ∃ offset ∈ fs.offsets, (read device offset).name ≠ [] ∧
    (read device offset).objectType = .directory ∧
    node = fs.child (read device offset).mode (read device offset) offset

/-- The id of a directory. -/
def directoryID (node : EchFsINode) : ℕ :=
  if node.isFilesystemRoot then rootDirectoryID else node.directoryEntry.payload

/-- The directories whose contents `Populate` finds. In the root, where the `Payload` of its entry
is some other id, there are directories only, and in the directory with that id too. The contents
of any other directory are not in front of its entry. -/
def Finds (node : EchFsINode) : Prop :=
  if node.isFilesystemRoot then
    node.directoryEntry.payload ≠ rootDirectoryID →
      ∀ offset ∈ fs.offsets, (read device offset).objectType ≠ .directory →
        ¬ (read device offset).IsIn rootDirectoryID ∧
          ¬ (read device offset).IsIn node.directoryEntry.payload
  else
    ∀ offset ∈ fs.offsets, offset < node.directoryEntryOffset →
      ¬ (read device offset).IsIn node.directoryEntry.payload

end EchFs

/-! ## Populating a directory -/

namespace EchFs

open EchFsDirectoryEntry (read)

variable {fs : EchFs} {device : ℕ → UInt8} {node root : EchFsINode} {offset first : ℕ}

/-- What an entry is compared with. -/
def comparedID (native : EchFsINode) (entry : EchFsDirectoryEntry) : ℕ :=
  if entry.objectType = .directory then directoryID native else native.directoryEntry.payload

/-- A turn inserts the inode of its entry, or nothing. -/
theorem visit_eq (native : EchFsINode) (offset : ℕ) :
    fs.visit device native offset =
      if (read device offset).IsIn (comparedID native (read device offset)) then
        some (fs.child (read device offset).mode (read device offset) offset)
      else none := by
  rw [visit]
  dsimp only
  by_cases hname : (read device offset).name = []
  · rw [if_pos hname, if_neg fun h => h.1 hname]
  · rw [if_neg hname]
    cases htype : (read device offset).objectType <;>
      simp [EchFsDirectoryEntry.IsIn, EchFsDirectoryEntry.mode, comparedID, directoryID, htype,
        hname]

theorem populate_eq (native : EchFsINode) :
    fs.populate device native = ((fs.offsetsFrom native.directoryEntryOffset).filter fun offset =>
      (read device offset).IsIn (comparedID native (read device offset))).map fun offset =>
        fs.child (read device offset).mode (read device offset) offset := by
  rw [populate, ← List.filterMap_eq_map', List.filterMap_filter]
  refine List.filterMap_congr fun offset _ => ?_
  rw [visit_eq]
  simp only [decide_eq_true_eq]

/-- The offsets of a table are those in front of one of them, and those from it on. -/
theorem offsetsFrom_split (h : offset ∈ fs.offsetsFrom first) :
    ∃ before, fs.offsetsFrom first = before ++ fs.offsetsFrom offset ∧
      ∀ o ∈ before, o < offset := by
  obtain ⟨k, hk, rfl⟩ := List.mem_range'.mp h
  rw [Prism.divRoundUp, EchFsDirectoryEntry.bytes] at hk
  refine ⟨List.range' first k EchFsDirectoryEntry.bytes, ?_, fun o ho => ?_⟩
  · rw [offsetsFrom, offsetsFrom, List.range'_append]
    congr 1
    rw [Prism.divRoundUp, Prism.divRoundUp, EchFsDirectoryEntry.bytes]
    omega
  · obtain ⟨j, hj, rfl⟩ := List.mem_range'.mp ho
    rw [EchFsDirectoryEntry.bytes]
    omega

theorem le_of_mem_offsetsFrom (h : offset ∈ fs.offsetsFrom first) : first ≤ offset := by
  obtain ⟨k, -, rfl⟩ := List.mem_range'.mp h
  exact Nat.le_add_right _ _

/-- No two offsets have the same inode. -/
theorem map_child_injective : Function.Injective (List.map fun offset =>
    fs.child (read device offset).mode (read device offset) offset) :=
  List.map_injective_iff.mpr fun _ _ h => congrArg EchFsINode.directoryEntryOffset h

/-- What is found from an offset on is what there is, if none of it is in front of the offset, and
every entry behind it is compared with the right id. -/
theorem populate_eq_contents_iff {id : ℕ} {before : List ℕ}
    (hsplit : fs.offsets = before ++ fs.offsetsFrom node.directoryEntryOffset)
    (hbefore : ∀ offset ∈ before, offset < node.directoryEntryOffset) :
    fs.populate device node = fs.contents device id ↔
      (∀ offset ∈ before, ¬ (read device offset).IsIn id) ∧
      ∀ offset ∈ fs.offsetsFrom node.directoryEntryOffset,
        ((read device offset).IsIn (comparedID node (read device offset)) ↔
          (read device offset).IsIn id) := by
  rw [populate_eq, contents, map_child_injective.eq_iff, hsplit, List.filter_append]
  constructor
  · intro heq
    have hmem : ∀ offset, (offset ∈ fs.offsetsFrom node.directoryEntryOffset ∧
        (read device offset).IsIn (comparedID node (read device offset))) ↔
          (offset ∈ before ∨ offset ∈ fs.offsetsFrom node.directoryEntryOffset) ∧
            (read device offset).IsIn id := by
      intro offset
      have hoffset := congrArg (offset ∈ ·) heq
      simpa [or_and_right] using hoffset
    refine ⟨fun offset hoffset hin => ?_, fun offset hoffset => ⟨fun hin => ?_, fun hin => ?_⟩⟩
    · have hle := le_of_mem_offsetsFrom ((hmem offset).mpr ⟨Or.inl hoffset, hin⟩).1
      have hlt := hbefore offset hoffset
      omega
    · exact ((hmem offset).mp ⟨hoffset, hin⟩).2
    · exact ((hmem offset).mpr ⟨Or.inr hoffset, hin⟩).2
  · rintro ⟨hnone, hsame⟩
    have hempty : before.filter (fun offset => (read device offset).IsIn id) = [] :=
      List.filter_eq_nil_iff.mpr fun offset hoffset =>
        mt of_decide_eq_true (hnone offset hoffset)
    rw [hempty, List.nil_append]
    exact List.filter_congr fun offset hoffset => decide_eq_decide.mpr (hsame offset hoffset)

/-- The root is at the beginning of the table. -/
theorem mount_eq_some (h : mount device = some (fs, root)) :
    root.isFilesystemRoot = true ∧ root.directoryEntryOffset = fs.mainDirectoryStart := by
  rw [mount] at h
  dsimp only at h
  split at h
  · cases h
  · split at h
    · cases h
    · obtain ⟨hfs, hroot⟩ := Prod.mk.inj (Option.some.inj h)
      rw [← hfs, ← hroot]
      exact ⟨rfl, rfl⟩

/-- In the root, the entries of directories are compared with the right id. -/
theorem finds_root_iff (hroot : node.isFilesystemRoot = true) :
    (∀ offset ∈ fs.offsets, ((read device offset).IsIn (comparedID node (read device offset)) ↔
      (read device offset).IsIn rootDirectoryID)) ↔ fs.Finds device node := by
  rw [Finds, if_pos hroot]
  constructor
  · intro hsame hpayload offset hoffset htype
    have hsame := hsame offset hoffset
    rw [comparedID, if_neg htype] at hsame
    exact ⟨fun hin => hpayload ((hsame.mpr hin).2.symm.trans hin.2),
      fun hin => hpayload (hin.2.symm.trans (hsame.mp hin).2)⟩
  · intro hfinds offset hoffset
    rw [comparedID]
    split
    · rw [directoryID, if_pos hroot]
    · next htype =>
      by_cases hpayload : node.directoryEntry.payload = rootDirectoryID
      · rw [hpayload]
      · obtain ⟨hnotRoot, hnotPayload⟩ := hfinds hpayload offset hoffset htype
        exact iff_of_false hnotPayload hnotRoot

/-- In any other directory, every entry is compared with the right id. -/
theorem comparedID_of_not_root (hroot : ¬ node.isFilesystemRoot = true)
    (entry : EchFsDirectoryEntry) : comparedID node entry = node.directoryEntry.payload := by
  rw [comparedID, directoryID, if_neg hroot, ite_self]

/-- **Which directories are populated with their contents.** `Populate` inserts the entries that
are in a directory, and no others, exactly if it finds the contents of the directory. -/
theorem populate_finds_iff (hmount : mount device = some (fs, root))
    (hnode : node = root ∨ fs.IsSubdirectory device node) :
    fs.populate device node = fs.contents device (directoryID node) ↔ fs.Finds device node := by
  rcases hnode with rfl | ⟨offset, hoffset, -, -, hnode⟩
  · obtain ⟨hroot, hstart⟩ := mount_eq_some hmount
    have hsplit : fs.offsets = [] ++ fs.offsetsFrom node.directoryEntryOffset := by
      rw [hstart]
      rfl
    rw [populate_eq_contents_iff hsplit fun _ h => absurd h List.not_mem_nil,
      ← finds_root_iff hroot, directoryID, if_pos hroot, hsplit, List.nil_append]
    exact and_iff_right fun _ h => absurd h List.not_mem_nil
  · have hroot : ¬ node.isFilesystemRoot = true := by
      rw [hnode]
      exact Bool.false_ne_true
    obtain rfl : node.directoryEntryOffset = offset :=
      congrArg EchFsINode.directoryEntryOffset hnode
    obtain ⟨before, hsplit, hbefore⟩ := offsetsFrom_split hoffset
    rw [populate_eq_contents_iff hsplit hbefore, Finds, if_neg hroot, directoryID, if_neg hroot]
    constructor
    · rintro ⟨hnone, -⟩ o ho hlt
      rw [offsets, hsplit] at ho
      refine (List.mem_append.mp ho).elim (hnone o) fun ho => ?_
      have hle := le_of_mem_offsetsFrom ho
      omega
    · intro hfinds
      refine ⟨fun o ho => hfinds o ?_ (hbefore o ho), fun o _ => ?_⟩
      · rw [offsets, hsplit]
        exact List.mem_append_left _ ho
      · rw [comparedID_of_not_root hroot]

/-- A main directory of three entries: a directory with the id 1 and a file in the root, and a file
in that directory. -/
def smallVolume (address : ℕ) : UInt8 :=
  if address < 4352 then
    if 4 ≤ address ∧ address < 12 then signature.getD (address - 4) 0
    else if address = 12 ∨ address = 29 then 1
    else if address = 20 then 3
    else 0
  else
    let k := (address - 4352) / 256
    let i := (address - 4352) % 256
    if i < 8 then if k < 2 then 0xff else if k = 2 ∧ i = 0 then 1 else 0
    else if i = 8 ∨ i = 240 then if k = 0 then 1 else 0
    else if i = 9 ∧ k < 3 then UInt8.ofNat (97 + k)
    else 0

/-- The file system on it. -/
def smallFs : EchFs := ⟨256, 4352, 5120⟩

/-- The inode of its root. -/
def smallRoot : EchFsINode where
  name := [0x2f]
  mode := 0o40644
  uid := 0
  gid := 0
  size := 256
  blockCount := 1
  directoryEntry := read smallVolume 4352
  directoryEntryOffset := 4352
  isFilesystemRoot := true

theorem mount_smallVolume : mount smallVolume = some (smallFs, smallRoot) := by decide

/-- The directory finds its file. -/
theorem populate_finds_file :
    smallFs.populate smallVolume (smallFs.child 0o40644 (read smallVolume 4352) 4352) =
      smallFs.contents smallVolume 1 := by
  refine (populate_finds_iff mount_smallVolume
    (Or.inr ⟨4352, by decide, by decide, by decide, by decide⟩)).mpr ?_
  rw [Finds, if_neg (by decide)]
  intro offset hoffset hlt
  exact absurd (le_of_mem_offsetsFrom hoffset) hlt.not_ge

/-- The root does not find its file. -/
theorem not_populate_finds_root :
    ∃ fs root, mount smallVolume = some (fs, root) ∧
      fs.populate smallVolume root ≠ fs.contents smallVolume (directoryID root) :=
  ⟨smallFs, smallRoot, mount_smallVolume, by decide⟩

end EchFs

end Cryptix.VFS
