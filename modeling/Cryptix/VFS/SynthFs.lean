import Mathlib.Data.BitVec
import Mathlib.Data.List.AList
import Mathlib.Logic.Function.Basic
import Cryptix.Prism

/-!
# Synthetic file systems

`Kernel/VFS/SynthFsINode.cpp`, the inodes of the in-memory file systems, with the inode allocation
of `Kernel/VFS/TmpFs/TmpFs.cpp`. A directory inode maps names to inodes; an inode counts its links.
Inodes are objects on the kernel heap, so the file system is a heap of inodes; the number an inode
is allocated with is its address here. `FreeINode` deletes the object.

`DirectoryEntry` is the cache above the inodes. An operation gets an entry, of which it uses the
name and the inode that `Lookup` bound to it. Owners and time stamps are left out: nothing here
decides on them.
-/

namespace Cryptix.VFS

/-- `mode_t`. -/
abbrev Mode := BitVec 32

namespace Mode

def ifmt : Mode := 0o170000
def ifdir : Mode := 0o040000
def ifreg : Mode := 0o100000
def isgid : Mode := 0o002000

/-- `S_ISDIR`. -/
def isDirectory (m : Mode) : Bool := m &&& ifmt == ifdir

/-- `S_ISREG`. -/
def isRegular (m : Mode) : Bool := m &&& ifmt == ifreg

/-- `Mode() & S_ISGID`. -/
def hasSetGid (m : Mode) : Bool := m &&& ~~~ifmt &&& isgid != 0

/-- `(mode & ~S_IFMT) | S_IFDIR`. -/
def asDirectory (m : Mode) : Mode := m &&& ~~~ifmt ||| ifdir

end Mode

/-- The state of a `SynthFsINode`: the fields the operations read and write. The parent is only
assigned when the inode is created in a directory. -/
structure SynthFsINode where
  name : String
  parent : Option ℕ
  mode : Mode
  size : UInt64
  linkCount : UInt64
  deviceID : UInt64
  children : AList fun _ : String => ℕ

namespace SynthFsINode

/-- `DIRECTORY_ENTRY_SIZE`. -/
def directoryEntrySize : UInt64 := 20

/-- `GetDefaultSize`. -/
def defaultSize : UInt64 := 0x1000

/-- `IsDirectory`. -/
def isDirectory (inode : SynthFsINode) : Bool := inode.mode.isDirectory

/-- The constructor. The size of a directory is the `1` that `IsDirectory() ?: …` yields. -/
def create (name : String) (mode : Mode) : SynthFsINode where
  name := name
  parent := none
  mode := mode
  size := if mode.isDirectory then 1 else directoryEntrySize * 2
  linkCount := 1 + mode.isDirectory.toUInt64
  deviceID := 0
  children := ∅

end SynthFsINode

/-- The `TmpFs` of a tree of inodes: the inodes that exist and the counters of `AllocateNode`. -/
structure SynthFs where
  inodes : ℕ → Option SynthFsINode
  nextINodeIndex : ℕ
  maxINodeCount : ℕ
  freeINodeCount : UInt64

namespace SynthFs

/-- Change an inode in place. -/
def modify (fs : SynthFs) (x : ℕ) (f : SynthFsINode → SynthFsINode) : SynthFs :=
  { fs with inodes := Function.update fs.inodes x ((fs.inodes x).map f) }

/-- `TmpFs::AllocateNode`; `heap` says whether the kernel heap has room for the object. -/
def allocateNode (fs : SynthFs) (heap : Bool) (name : String) (mode : Mode) :
    Except Errno (ℕ × SynthFs) :=
  if fs.maxINodeCount ≤ fs.nextINodeIndex then .error .ENOSPC
  else if fs.freeINodeCount = 0 then .error .ENOSPC
  else if !heap then .error .ENOMEM
  else .ok (fs.nextINodeIndex,
    { fs with
      inodes := Function.update fs.inodes fs.nextINodeIndex (some (.create name mode))
      nextINodeIndex := fs.nextINodeIndex + 1
      freeINodeCount := fs.freeINodeCount - 1 })

/-- `TmpFs::FreeINode`. -/
def freeINode (fs : SynthFs) (x : ℕ) : SynthFs :=
  { fs with
    inodes := Function.update fs.inodes x none
    freeINodeCount := fs.freeINodeCount + 1 }

/-- `SynthFsINode::Lookup`: the inode that a name of a directory refers to. -/
def lookup (fs : SynthFs) (dir : ℕ) (name : String) : Option ℕ :=
  (fs.inodes dir).bind fun inode => inode.children.lookup name

/-- `SynthFsINode::InsertChild`. -/
def insertChild (fs : SynthFs) (dir x : ℕ) (name : String) : SynthFs :=
  fs.modify dir fun inode => { inode with children := inode.children.insert name x }

/-- `m_Children.Erase`. -/
def eraseChild (fs : SynthFs) (dir : ℕ) (name : String) : SynthFs :=
  fs.modify dir fun inode => { inode with children := inode.children.erase name }

/-- `++m_Metadata.LinkCount`. -/
def incLinkCount (fs : SynthFs) (x : ℕ) : SynthFs :=
  fs.modify x fun inode => { inode with linkCount := inode.linkCount + 1 }

/-- `--m_Metadata.LinkCount`. -/
def decLinkCount (fs : SynthFs) (x : ℕ) : SynthFs :=
  fs.modify x fun inode => { inode with linkCount := inode.linkCount - 1 }

/-- `m_Metadata.Size += DIRECTORY_ENTRY_SIZE`. -/
def growSize (fs : SynthFs) (x : ℕ) : SynthFs :=
  fs.modify x fun inode =>
    { inode with size := inode.size + SynthFsINode.directoryEntrySize }

/-- `m_Metadata.Size -= DIRECTORY_ENTRY_SIZE`. -/
def shrinkSize (fs : SynthFs) (x : ℕ) : SynthFs :=
  fs.modify x fun inode =>
    { inode with size := inode.size - SynthFsINode.directoryEntrySize }

/-- What `CreateNode` sets on the new inode before it is inserted. -/
def setUpNode (fs : SynthFs) (dir x : ℕ) (mode : Mode) (dev : UInt64) : SynthFs :=
  fs.modify x fun inode =>
    { inode with
      parent := some dir
      size := if mode.isRegular then SynthFsINode.defaultSize else inode.size
      deviceID := dev }

/-- A directory with the set-group-ID bit passes it on to a new directory. -/
def inheritSetGid (fs : SynthFs) (dir x : ℕ) : SynthFs :=
  match fs.inodes dir with
  | some parent =>
    if parent.mode.hasSetGid then
      fs.modify x fun inode =>
        { inode with mode := if inode.isDirectory then inode.mode ||| Mode.isgid else inode.mode }
    else fs
  | none => fs

/-- `SynthFsINode::CreateNode`. -/
def createNode (fs : SynthFs) (heap : Bool) (dir : ℕ) (name : String) (mode : Mode) (dev : UInt64) :
    Except Errno ℕ × SynthFs :=
  if (fs.lookup dir name).isSome then (.error .EEXIST, fs)
  else
    match fs.allocateNode heap name mode with
    | .error code => (.error code, fs)
    | .ok (x, fs) =>
      let fs := fs.setUpNode dir x mode dev
      let fs := fs.growSize dir
      let fs := fs.insertChild dir x name
      (.ok x, fs.inheritSetGid dir x)

/-- `SynthFsINode::CreateDirectory`. -/
def createDirectory (fs : SynthFs) (heap : Bool) (dir : ℕ) (name : String) (mode : Mode) :
    Except Errno ℕ × SynthFs :=
  match fs.createNode heap dir name mode.asDirectory 0 with
  | (.error code, fs) => (.error code, fs)
  | (.ok x, fs) => (.ok x, fs.incLinkCount dir)

/-- `SynthFsINode::Link`: the new entry is bound to the inode, but no child is inserted. `none`
stands for the use of an inode that does not exist, here and below. -/
def link (fs : SynthFs) (dir x : ℕ) : Option (Except Errno ℕ × SynthFs) :=
  (fs.inodes x).map fun inode =>
    if inode.isDirectory then (.error .EPERM, fs)
    else (.ok x, (fs.growSize dir).incLinkCount x)

/-- `SynthFsINode::Rename`: the old name stays. -/
def rename (fs : SynthFs) (x newParent : ℕ) (newName : String) : SynthFs :=
  (fs.modify x fun inode => { inode with name := newName }).insertChild newParent x newName

/-- The end of `Unlink`: the name goes only when the link count has come down to that of an inode
without names. -/
def dropName (fs : SynthFs) (dir : ℕ) (name : String) (x : ℕ) : Option SynthFs :=
  (fs.inodes x).map fun inode =>
    if inode.linkCount = 0 + inode.isDirectory.toUInt64 then
      (fs.eraseChild dir name).freeINode x
    else fs

/-- `SynthFsINode::Unlink` of an entry with a name and the inode `x` bound to it; a name that is
not there is not an error. -/
def unlink (fs : SynthFs) (dir : ℕ) (name : String) (x : ℕ) : Option SynthFs :=
  match fs.lookup dir name with
  | none => some fs
  | some _ => ((fs.shrinkSize dir).decLinkCount x).dropName dir name x

/-- `SynthFsINode::RmDir`. -/
def rmDir (fs : SynthFs) (dir : ℕ) (name : String) (x : ℕ) : Option (Except Errno Unit × SynthFs) :=
  (fs.inodes x).bind fun inode =>
    if inode.children.entries.isEmpty then
      ((fs.decLinkCount dir).unlink dir name x).map fun fs => (.ok (), fs)
    else some (.error .ENOTEMPTY, fs)

end SynthFs

end Cryptix.VFS
