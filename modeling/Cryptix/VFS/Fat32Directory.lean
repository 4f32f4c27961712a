import Cryptix.VFS.Fat32ReadBytes
import Cryptix.VFS.SynthFs

/-!
# Directories of a FAT32 volume

`Populate` of `Kernel/VFS/Fat32Fs/Fat32Fs.cpp`. A directory is an array of entries of 32 bytes. An
entry is of a file or a directory, with a name of 8 and 3 characters, or it is a part of the long
name of an entry behind it, with 13 characters, or it is the label of the volume. `Populate` goes
through the array and inserts a child for each entry of a file or a directory. It has one buffer for
the names of all of them.

`operator&` of `Fat32Attribute` is true if there is any bit that both have. So what is taken for a
part of a long name is any entry with one of the four bits of `eLongFileName`: a volume label, and a
file that is read-only, hidden or of the system. The order of a part is a number up to 31. It says
where in the name buffer the part goes, and how far away the entry is for which the checksum is
computed. Neither is checked (`populate_staysInside_iff`).

What is used of Prism's strings is a parameter. An access outside of the directory or of the name
buffer is a fault.
-/

namespace Cryptix.VFS

open Lib

/-- `Fat32DirectoryEntry`, which has 32 bytes. -/
structure Fat32DirectoryEntry where
  name : List UInt8
  attributes : UInt8
  clusterHigh : ℕ
  clusterLow : ℕ
  size : ℕ

/-- `Fat32LfnDirectoryEntry`. -/
structure Fat32LfnDirectoryEntry where
  order : UInt8
  name1 : List UInt16
  checksum : UInt8
  name2 : List UInt16
  name3 : List UInt16

/-- `count` characters of a long name. -/
def readCharacters (m : ℕ → UInt8) (first count : ℕ) : List UInt16 :=
  (List.range count).map fun i => UInt16.ofNat (readLE m (first + 2 * i) 2)

namespace Fat32DirectoryEntry

/-- The entry at an offset. -/
def read (m : ℕ → UInt8) (offset : ℕ) : Fat32DirectoryEntry where
  name := (List.range 11).map fun i => m (offset + i)
  attributes := m (offset + 11)
  clusterHigh := readLE m (offset + 20) 2
  clusterLow := readLE m (offset + 26) 2
  size := readLE m (offset + 28) 4

end Fat32DirectoryEntry

/-- The part of a long name at an offset. -/
def Fat32LfnDirectoryEntry.read (m : ℕ → UInt8) (offset : ℕ) : Fat32LfnDirectoryEntry where
  order := m offset
  name1 := readCharacters m (offset + 1) 5
  checksum := m (offset + 13)
  name2 := readCharacters m (offset + 14) 6
  name3 := readCharacters m (offset + 28) 2

/-- `Fat32Attribute`. -/
inductive Fat32Attribute
  | readOnly | hidden | system | volumeID | directory | archive | device | longFileName

namespace Fat32Attribute

/-- The bits of an attribute. -/
def bits : Fat32Attribute → UInt8
  | readOnly => 0x01
  | hidden => 0x02
  | system => 0x04
  | volumeID => 0x08
  | directory => 0x10
  | archive => 0x20
  | device => 0x40
  | longFileName => 0x0f

/-- `operator&`, which is a `bool`. -/
def meets (lhs : UInt8) (rhs : Fat32Attribute) : Bool := lhs &&& rhs.bits != 0

end Fat32Attribute

/-- What is used of Prism's strings: the bytes of a `String` that `Resize` made, the `StringView`
that a `String` converts to, and how many bytes `StringView::Copy` copies, of a view of a size, for
a count and a position. -/
structure PrismStrings where
  resized : ℕ → UInt8
  view : (ℕ → UInt8) → List UInt8
  copied : ℕ → ℕ → ℕ → ℕ

/-- A child, as `Populate` makes it. -/
structure Fat32Child where
  name : List UInt8
  mode : Mode
  cluster : ℕ
  size : ℕ
  blockCount : ℕ
  directoryOffset : ℕ
  deriving DecidableEq

/-- How `Populate` goes wrong: with an access outside of the directory or of the name buffer, with a
failed assert, or when it follows the chain of a child. -/
inductive Fat32Fault
  | outside
  | assertion
  | chain (fault : ScanFault)
  deriving DecidableEq

/-- The variables of `Populate`, and the children inserted so far. -/
structure Fat32Populate where
  directoryEntries : ℕ → UInt8
  nameBuffer : ℕ → UInt8
  isLfn : Bool
  checksum : UInt8
  children : List Fat32Child
  failed : Bool

namespace Fat32Fs

/-- `CountSpacePadding`. -/
def countSpacePadding (str : List UInt8) (len : ℕ) : ℕ :=
  ((str.take len).reverse.takeWhile (· = 0x20)).length

/-- `GetLfnChecksum`. -/
def getLfnChecksum (shortName : List UInt8) : UInt8 :=
  shortName.foldl (fun checksum c => ((checksum &&& 1) <<< 7) + (checksum >>> 1) + c) 0

/-- What `CopyLfnToString` writes: the low bytes of the characters. -/
def lfnText (entry : Fat32LfnDirectoryEntry) : List UInt8 :=
  (entry.name1 ++ entry.name2 ++ entry.name3).map UInt16.toUInt8

/-- `GetClusterForDirectoryEntry`. -/
def getClusterForDirectoryEntry (entry : Fat32DirectoryEntry) : ℕ :=
  entry.clusterLow ||| entry.clusterHigh <<< 16

end Fat32Fs

namespace Fat32Populate

variable (fs : Fat32Fs) (strings : PrismStrings) (getChainSize : ℕ → Except ScanFault ℕ)
  (size : ℕ) (s : Fat32Populate) (i : ℕ) (entry : Fat32DirectoryEntry)

/-- The entry at a place of the directory, of which the first `count` bytes are read. -/
def entryAt (count place : ℕ) : Except Fat32Fault Fat32DirectoryEntry :=
  let offset := 32 * place
  if offset + count ≤ size then .ok (.read s.directoryEntries offset) else .error .outside

/-- A write to the name buffer. -/
def writeName (position : ℤ) (text : List UInt8) : Except Fat32Fault Fat32Populate :=
  if 0 ≤ position ∧ position + text.length ≤ 256 then
    .ok { s with nameBuffer := writeBytes s.nameBuffer position.toNat text }
  else .error .outside

/-- The part of a long name at turn `i`. -/
def visitLongName : Except Fat32Fault (Bool × Fat32Populate) := do
  let offset := 32 * i
  let order := s.directoryEntries offset &&& 0x1f
  let s := { s with directoryEntries := Function.update s.directoryEntries offset order }
  let lfn := Fat32LfnDirectoryEntry.read s.directoryEntries offset
  let position : ℤ := ((order.toNat : ℤ) - 1) * 13
  if s.isLfn = false then
    let directoryEntry ← s.entryAt size 11 (i + order.toNat)
    let s := { s with checksum := Fat32Fs.getLfnChecksum directoryEntry.name, isLfn := true }
    let s ← s.writeName position (Fat32Fs.lfnText lfn)
    .ok (true, s)
  else if lfn.checksum ≠ s.checksum then .ok (false, { s with failed := true })
  else
    let s ← s.writeName position (Fat32Fs.lfnText lfn)
    .ok (true, s)

/-- A short name goes into the name buffer. -/
def writeShortName : Except Fat32Fault Fat32Populate :=
  let nameSize := 8 - Fat32Fs.countSpacePadding entry.name 8
  let extSize := 3 - Fat32Fs.countSpacePadding (entry.name.drop 8) 3
  (if nameSize ≠ 0 then s.writeName 0 (entry.name.take (strings.copied nameSize nameSize 0))
    else .ok s).bind fun s =>
      if extSize ≠ 0 then
        let ext := (entry.name.drop 8).take (strings.copied nameSize extSize 8)
        (s.writeName nameSize [0x2e]).bind fun s => s.writeName (nameSize + 1 : ℕ) ext
      else .ok s

/-- The name is "." or "..". -/
def IsDots (nameBuffer : ℕ → UInt8) : Prop :=
  Spells nameBuffer 0 [0x2e] ∨ Spells nameBuffer 0 [0x2e, 0x2e]

instance : DecidablePred IsDots := fun _ => inferInstanceAs (Decidable (_ ∨ _))

/-- The `Size` of a child. -/
def childSize : Except Fat32Fault ℕ :=
  if Fat32Attribute.meets entry.attributes .directory then
    match getChainSize (Fat32Fs.getClusterForDirectoryEntry entry) with
    | .ok n => .ok (n * fs.clusterSize)
    | .error fault => .error (.chain fault)
  else .ok entry.size

/-- The child of an entry. The `nullptr` that `CreateNode` returns for a long name does not get past
the assert of `Bind`. -/
def insertChild : Except Fat32Fault Fat32Populate :=
  let name := strings.view s.nameBuffer
  if name.length > 255 then .error .assertion
  else
    (childSize fs getChainSize entry).bind fun childSize =>
      .ok { s with
        children := s.children ++
          [{ name := name
             mode := 0o644 |||
              if Fat32Attribute.meets entry.attributes .directory then Mode.ifdir else Mode.ifreg
             cluster := Fat32Fs.getClusterForDirectoryEntry entry
             size := childSize
             blockCount := Prism.divRoundUp childSize fs.clusterSize
             directoryOffset := 32 * i }] }

/-- A turn of the loop of `Populate`. -/
def visit : Except Fat32Fault (Bool × Fat32Populate) :=
  (s.entryAt size 32 i).bind fun entry =>
    if entry.name.headD 0 = 0 then .ok (false, s)
    else if entry.name.headD 0 = 0xe5 then .ok (true, s)
    else if Fat32Attribute.meets entry.attributes .longFileName then s.visitLongName size i
    else if Fat32Attribute.meets entry.attributes .volumeID then .ok (true, s)
    else
      (if s.isLfn then .ok s else s.writeShortName strings entry).bind fun s =>
        let s := { s with isLfn := false }
        if IsDots s.nameBuffer then .ok (true, s)
        else (s.insertChild fs strings getChainSize i entry).bind fun s => .ok (true, s)

/-- What `Populate` begins with. The checksum is only read when it has been set. -/
def new (strings : PrismStrings) (directoryEntries : ℕ → UInt8) : Fat32Populate where
  directoryEntries := directoryEntries
  nameBuffer := strings.resized
  isLfn := false
  checksum := 0
  children := []
  failed := false

end Fat32Populate

namespace Fat32Fs

variable (fs : Fat32Fs) (strings : PrismStrings)

/-- `Populate` of a directory of `size` bytes, from when they are read on. It returns whether it has
not failed. -/
def populateFrom (getChainSize : ℕ → Except ScanFault ℕ) (directoryEntries : ℕ → UInt8)
    (size : ℕ) : Except Fat32Fault (Bool × Fat32Populate) :=
  (untilRejected (Fat32Populate.visit fs strings getChainSize size)
    (.new strings directoryEntries) (List.range (size / 32))).map
      fun result => (!result.2.failed, result.2)

/-- `Populate`. The clusters of the directory are read first. `fuel` bounds the chains of the
children. -/
def populate (fuel : ℕ) (node : Fat32FsINode) (blockCount : ℕ) (s : Fat32State) :
    Except Fat32Fault (Bool × Fat32Populate) :=
  match fs.readWriteClusters 0 node.cluster blockCount false s with
  | .ok (_, _, s) => fs.populateFrom strings (fs.getChainSize s.device fuel) s.memory node.size
  | .error _ => .error .assertion

end Fat32Fs

/-! ## What a turn does -/

namespace Fat32DirectoryEntry

variable (m : ℕ → UInt8) (i : ℕ)

/-- The end of the directory. -/
def IsEnd : Prop := m (32 * i) = 0

/-- An entry that was deleted. -/
def IsDeleted : Prop := m (32 * i) = 0xe5

/-- An entry that is taken for a part of a long name. -/
def IsTakenForPart : Prop :=
  ¬ IsEnd m i ∧ ¬ IsDeleted m i ∧ Fat32Attribute.meets (m (32 * i + 11)) .longFileName = true

/-- An entry that is taken for a file or a directory. -/
def IsTakenForChild : Prop :=
  ¬ IsEnd m i ∧ ¬ IsDeleted m i ∧ Fat32Attribute.meets (m (32 * i + 11)) .longFileName = false

/-- The order of a part of a long name. -/
def lfnOrder : ℕ := (m (32 * i) &&& 0x1f).toNat

/-- The checksum of a part of a long name. -/
def checksumOf : UInt8 := m (32 * i + 13)

/-- The text of a part of a long name. -/
def textOf : List UInt8 := Fat32Fs.lfnText (.read m (32 * i))

/-- The short name of an entry. -/
def nameOf : List UInt8 := (read m (32 * i)).name

/-- What `Populate` writes of a short name. -/
def written (strings : PrismStrings) (name : List UInt8) : List UInt8 :=
  let nameSize := 8 - Fat32Fs.countSpacePadding name 8
  let extSize := 3 - Fat32Fs.countSpacePadding (name.drop 8) 3
  name.take nameSize ++
    if extSize = 0 then [] else 0x2e :: (name.drop 8).take (strings.copied nameSize extSize 8)

end Fat32DirectoryEntry

/-- What `StringView::Copy` copies is a whole view, and no more than it is to copy. -/
structure PrismStrings.Copies (strings : PrismStrings) : Prop where
  le : ∀ size count position, strings.copied size count position ≤ count
  whole : ∀ size, strings.copied size size 0 = size

/-- `Resize` fills a `String` with NULs, and the `StringView` of one ends at its first NUL. -/
structure PrismStrings.Ends (strings : PrismStrings) : Prop extends strings.Copies where
  resized : ∀ p, strings.resized p = 0
  view : ∀ buffer, strings.view buffer = cString buffer 0 256

namespace Fat32Populate

open Fat32DirectoryEntry

/-- The order of an entry is masked. -/
def masked (s : Fat32Populate) (i : ℕ) : Fat32Populate :=
  { s with directoryEntries :=
      Function.update s.directoryEntries (32 * i) (s.directoryEntries (32 * i) &&& 0x1f) }

/-- A part of a long name has a checksum other than the part before it. -/
def Mismatch (s : Fat32Populate) (i : ℕ) : Prop :=
  s.isLfn = true ∧ checksumOf s.directoryEntries i ≠ s.checksum

instance (s : Fat32Populate) : DecidablePred s.Mismatch := fun _ =>
  inferInstanceAs (Decidable (_ ∧ _))

/-- There is a place in the name buffer for a part of a long name. For the first part, there is an
entry of the directory too. -/
def HasPlace (size : ℕ) (s : Fat32Populate) (i : ℕ) : Prop :=
  1 ≤ lfnOrder s.directoryEntries i ∧ lfnOrder s.directoryEntries i ≤ 19 ∧
    (s.isLfn = false → 32 * (i + lfnOrder s.directoryEntries i) + 11 ≤ size)

instance (size : ℕ) (s : Fat32Populate) : DecidablePred (HasPlace size s) := fun _ =>
  inferInstanceAs (Decidable (_ ∧ _ ∧ _))

/-- The state behind a part of a long name. -/
def withPart (s : Fat32Populate) (i : ℕ) : Fat32Populate :=
  { s.masked i with
    nameBuffer := writeBytes s.nameBuffer ((lfnOrder s.directoryEntries i - 1) * 13)
      (textOf s.directoryEntries i)
    isLfn := true
    checksum := if s.isLfn = true then s.checksum
      else Fat32Fs.getLfnChecksum (nameOf s.directoryEntries (i + lfnOrder s.directoryEntries i)) }

/-- The state with the name of an entry in the name buffer. -/
def withName (strings : PrismStrings) (s : Fat32Populate) (i : ℕ) : Fat32Populate :=
  { s with
    nameBuffer := if s.isLfn = true then s.nameBuffer
      else writeBytes s.nameBuffer 0 (written strings (nameOf s.directoryEntries i))
    isLfn := false }

end Fat32Populate

/-! ### The turns -/

namespace Fat32DirectoryEntry

variable {strings : PrismStrings}

/-- A volume label is taken for a part of a long name. -/
theorem volumeID_not_meets {attributes : UInt8}
    (h : Fat32Attribute.meets attributes .longFileName = false) :
    Fat32Attribute.meets attributes .volumeID = false := by
  rw [Fat32Attribute.meets, bne_eq_false_iff_eq] at *
  have hbits : Fat32Attribute.volumeID.bits =
      Fat32Attribute.longFileName.bits &&& Fat32Attribute.volumeID.bits := rfl
  rw [hbits, ← UInt8.and_assoc, h, UInt8.zero_and]

theorem kinds (m : ℕ → UInt8) (i : ℕ) :
    IsEnd m i ∨ IsDeleted m i ∨ IsTakenForPart m i ∨ IsTakenForChild m i := by
  by_cases hend : IsEnd m i
  · exact Or.inl hend
  · by_cases hdeleted : IsDeleted m i
    · exact Or.inr (Or.inl hdeleted)
    · cases hbits : Fat32Attribute.meets (m (32 * i + 11)) .longFileName with
      | true => exact Or.inr (Or.inr (Or.inl ⟨hend, hdeleted, hbits⟩))
      | false => exact Or.inr (Or.inr (Or.inr ⟨hend, hdeleted, hbits⟩))

theorem length_nameOf (m : ℕ → UInt8) (i : ℕ) : (nameOf m i).length = 11 := by
  rw [nameOf, Fat32DirectoryEntry.read, List.length_map, List.length_range]

theorem readCharacters_congr {m m' : ℕ → UInt8} {first count : ℕ}
    (h : ∀ j < 2 * count, m (first + j) = m' (first + j)) :
    readCharacters m first count = readCharacters m' first count := by
  refine List.map_congr_left fun i hi => congrArg UInt16.ofNat (readLE_congr fun k hk => ?_)
  have hi := List.mem_range.mp hi
  rw [Nat.add_assoc]
  exact h _ (by omega)

/-- The text of a part does not depend on the order. -/
theorem textOf_congr {m m' : ℕ → UInt8} {i : ℕ}
    (h : ∀ j, 0 < j → j < 32 → m (32 * i + j) = m' (32 * i + j)) : textOf m i = textOf m' i := by
  have hcharacters : ∀ first count, 0 < first → first + 2 * count ≤ 32 →
      readCharacters m (32 * i + first) count = readCharacters m' (32 * i + first) count := by
    intro first count hpos hle
    refine readCharacters_congr fun j hj => ?_
    rw [Nat.add_assoc]
    exact h _ (by omega) (by omega)
  rw [textOf, textOf, Fat32Fs.lfnText, Fat32Fs.lfnText, Fat32LfnDirectoryEntry.read,
    Fat32LfnDirectoryEntry.read]
  dsimp only
  rw [hcharacters 1 5 (by decide) (by decide), hcharacters 14 6 (by decide) (by decide),
    hcharacters 28 2 (by decide) (by decide)]

theorem nameOf_congr {m m' : ℕ → UInt8} {i : ℕ}
    (h : ∀ j < 11, m (32 * i + j) = m' (32 * i + j)) : nameOf m i = nameOf m' i :=
  List.map_congr_left fun j hj => h j (List.mem_range.mp hj)

theorem length_textOf (m : ℕ → UInt8) (i : ℕ) : (textOf m i).length = 13 := by
  simp [textOf, Fat32Fs.lfnText, Fat32LfnDirectoryEntry.read, readCharacters]

theorem length_written_le (hstrings : strings.Copies) (name : List UInt8) :
    (written strings name).length ≤ 12 := by
  have hcopied := hstrings.le (8 - Fat32Fs.countSpacePadding name 8)
    (3 - Fat32Fs.countSpacePadding (name.drop 8) 3) 8
  rw [written, List.length_append, List.length_take]
  split
  · rw [List.length_nil]
    omega
  · rw [List.length_cons, List.length_take]
    omega

end Fat32DirectoryEntry

namespace Fat32Populate

open Fat32DirectoryEntry

variable {fs : Fat32Fs} {strings : PrismStrings} {getChainSize : ℕ → Except ScanFault ℕ}
  {m m' : ℕ → UInt8} {size i p : ℕ} {s t : Fat32Populate}

theorem masked_of_ne (s : Fat32Populate) (h : p ≠ 32 * i) :
    (s.masked i).directoryEntries p = s.directoryEntries p :=
  Function.update_of_ne h _ _

theorem writeName_part (s : Fat32Populate) {text : List UInt8} (htext : text.length = 13)
    (order : ℕ) : s.writeName (((order : ℤ) - 1) * 13) text =
      if 1 ≤ order ∧ order ≤ 19 then
        .ok { s with nameBuffer := writeBytes s.nameBuffer ((order - 1) * 13) text }
      else .error .outside := by
  rw [writeName, htext]
  by_cases h : 1 ≤ order ∧ order ≤ 19
  · have hposition : (((order : ℤ) - 1) * 13).toNat = (order - 1) * 13 := by omega
    rw [if_pos h, if_pos (by omega), hposition]
  · rw [if_neg h, if_neg (by omega)]

theorem textOf_masked (s : Fat32Populate) (i : ℕ) :
    textOf (s.masked i).directoryEntries i = textOf s.directoryEntries i :=
  textOf_congr fun _ hpos _ => s.masked_of_ne (by omega)

theorem entryAt_eq (s : Fat32Populate) (size count place : ℕ) : s.entryAt size count place =
    if 32 * place + count ≤ size then .ok (.read s.directoryEntries (32 * place))
    else .error .outside :=
  rfl

/-- A part of a long name is written, if it has a place. -/
theorem visitLongName_eq (s : Fat32Populate) : s.visitLongName size i =
    if s.Mismatch i then .ok (false, { s.masked i with failed := true })
    else if s.HasPlace size i then .ok (true, s.withPart i) else .error .outside := by
  have hchecksum : (s.masked i).directoryEntries (32 * i + 13) =
      checksumOf s.directoryEntries i := s.masked_of_ne (by omega)
  rw [visitLongName]
  change (if s.isLfn = false then
      ((s.masked i).entryAt size 11 (i + lfnOrder s.directoryEntries i)).bind fun directoryEntry =>
        (writeName { s.masked i with
          checksum := Fat32Fs.getLfnChecksum directoryEntry.name, isLfn := true }
            (((lfnOrder s.directoryEntries i : ℕ) - 1) * 13)
              (textOf (s.masked i).directoryEntries i)).bind fun s => .ok (true, s)
    else if (s.masked i).directoryEntries (32 * i + 13) ≠ s.checksum then
      .ok (false, { s.masked i with failed := true })
    else ((s.masked i).writeName (((lfnOrder s.directoryEntries i : ℕ) - 1) * 13)
      (textOf (s.masked i).directoryEntries i)).bind fun s => .ok (true, s)) = _
  rw [hchecksum, entryAt_eq]
  simp only [textOf_masked, writeName_part _ (length_textOf s.directoryEntries i)]
  by_cases hfirst : s.isLfn = false
  · have hnext : ¬ s.isLfn = true := by
      rw [hfirst]
      exact Bool.false_ne_true
    have hmatch : ¬ s.Mismatch i := fun h => hnext h.1
    rw [if_pos hfirst, if_neg hmatch]
    by_cases hplace : s.HasPlace size i
    · obtain ⟨hpos, hle, hinside⟩ := hplace
      have hname : nameOf (s.masked i).directoryEntries (i + lfnOrder s.directoryEntries i) =
          nameOf s.directoryEntries (i + lfnOrder s.directoryEntries i) :=
        nameOf_congr fun j _ => s.masked_of_ne (by omega)
      rw [if_pos (hinside hfirst), if_pos ⟨hpos, hle, hinside⟩, withPart, if_neg hnext, ← hname]
      simp only [Except.bind, if_pos (And.intro hpos hle)]
      rfl
    · rw [if_neg hplace]
      by_cases hinside : 32 * (i + lfnOrder s.directoryEntries i) + 11 ≤ size
      · have horder : ¬ (1 ≤ lfnOrder s.directoryEntries i ∧ lfnOrder s.directoryEntries i ≤ 19) :=
          fun h => hplace ⟨h.1, h.2, fun _ => hinside⟩
        simp only [if_pos hinside, Except.bind, if_neg horder]
      · rw [if_neg hinside]
        rfl
  · have hnext : s.isLfn = true := by simpa using hfirst
    rw [if_neg hfirst]
    by_cases hmatch : checksumOf s.directoryEntries i = s.checksum
    · have hplace : s.HasPlace size i ↔
          1 ≤ lfnOrder s.directoryEntries i ∧ lfnOrder s.directoryEntries i ≤ 19 :=
        ⟨fun h => ⟨h.1, h.2.1⟩, fun h => ⟨h.1, h.2, fun h => absurd h hfirst⟩⟩
      have hsame : ¬ s.Mismatch i := fun h => h.2 hmatch
      rw [if_neg (not_not.mpr hmatch), if_neg hsame]
      simp only [hplace]
      split
      · rw [withPart, if_pos hnext, ← hnext]
        rfl
      · rfl
    · rw [if_pos hmatch, if_pos ⟨hnext, hmatch⟩]

theorem writeName_of_le (s : Fat32Populate) (position : ℕ) {text : List UInt8}
    (h : position + text.length ≤ 256) : s.writeName position text =
      .ok { s with nameBuffer := writeBytes s.nameBuffer position text } := by
  rw [writeName, if_pos (by omega), Int.toNat_natCast]

theorem writeBytes_nil (m : ℕ → UInt8) (a : ℕ) : writeBytes m a [] = m :=
  funext fun _ => writeBytes_of_not_mem (by rw [List.length_nil]; omega)

/-- A short name is written, always. -/
theorem writeShortName_eq (hstrings : strings.Copies) (s : Fat32Populate)
    (entry : Fat32DirectoryEntry) (hname : entry.name.length = 11) :
    s.writeShortName strings entry =
      .ok { s with nameBuffer := writeBytes s.nameBuffer 0 (written strings entry.name) } := by
  have hlength := length_written_le hstrings entry.name
  rw [writeShortName, written] at *
  generalize hn : 8 - Fat32Fs.countSpacePadding entry.name 8 = nameSize at *
  generalize he : 3 - Fat32Fs.countSpacePadding (entry.name.drop 8) 3 = extSize at *
  have htake : (entry.name.take nameSize).length = nameSize := by
    rw [List.length_take]
    omega
  have hbase : (if nameSize ≠ 0 then
      s.writeName 0 (entry.name.take (strings.copied nameSize nameSize 0)) else .ok s) =
        .ok { s with nameBuffer := writeBytes s.nameBuffer 0 (entry.name.take nameSize) } := by
    split
    · rw [hstrings.whole]
      exact s.writeName_of_le 0 (by omega)
    · next hzero =>
      rw [not_not.mp hzero, List.take_zero, writeBytes_nil]
  rw [hbase, Except.bind]
  by_cases hext : extSize = 0
  · rw [if_neg (not_not.mpr hext), if_pos hext, List.append_nil]
  · rw [if_neg hext, List.length_append, htake, List.length_cons] at hlength
    have hdot := writeBytes_append s.nameBuffer 0 (entry.name.take nameSize) [0x2e]
    have hrest := writeBytes_append s.nameBuffer 0 (entry.name.take nameSize ++ [0x2e])
      ((entry.name.drop 8).take (strings.copied nameSize extSize 8))
    rw [htake, Nat.zero_add] at hdot
    rw [List.length_append, htake, List.length_singleton, Nat.zero_add, List.append_assoc] at hrest
    rw [if_pos hext, if_neg hext, writeName_of_le _ _ (by rw [List.length_singleton]; omega),
      Except.bind, writeName_of_le _ _ (by omega)]
    dsimp only
    rw [hdot, hrest]
    rfl

/-- The child, or what goes wrong. -/
theorem insertChild_cases (fs : Fat32Fs) (strings : PrismStrings)
    (getChainSize : ℕ → Except ScanFault ℕ) (s : Fat32Populate) (entry : Fat32DirectoryEntry)
    (i : ℕ) :
    (∃ child : Fat32Child, s.insertChild fs strings getChainSize i entry =
        .ok { s with children := s.children ++ [child] } ∧
      child.name = strings.view s.nameBuffer ∧ child.directoryOffset = 32 * i) ∨
    ∃ fault, s.insertChild fs strings getChainSize i entry = .error fault ∧ fault ≠ .outside := by
  rw [insertChild]
  split
  · exact Or.inr ⟨.assertion, rfl, nofun⟩
  · rw [childSize]
    split
    · match getChainSize (Fat32Fs.getClusterForDirectoryEntry entry) with
      | .ok n => exact Or.inl ⟨_, rfl, rfl, rfl⟩
      | .error fault => exact Or.inr ⟨.chain fault, rfl, nofun⟩
    · exact Or.inl ⟨_, rfl, rfl, rfl⟩

/-- The chain of an entry of a directory can be counted. -/
def HasSize (getChainSize : ℕ → Except ScanFault ℕ) (entry : Fat32DirectoryEntry) : Prop :=
  Fat32Attribute.meets entry.attributes .directory = true →
    ∃ n, getChainSize (Fat32Fs.getClusterForDirectoryEntry entry) = .ok n

/-- There is a child if its name is not too long, and it has a size. -/
theorem insertChild_isOk_iff (fs : Fat32Fs) (strings : PrismStrings)
    (getChainSize : ℕ → Except ScanFault ℕ) (s : Fat32Populate) (entry : Fat32DirectoryEntry)
    (i : ℕ) :
    (∃ t, s.insertChild fs strings getChainSize i entry = .ok t) ↔
      (strings.view s.nameBuffer).length ≤ 255 ∧ HasSize getChainSize entry := by
  rw [insertChild]
  split
  · next hlong => exact iff_of_false nofun fun h => by omega
  · next hshort =>
    rw [and_iff_right (by omega), childSize, HasSize]
    split
    · next hdirectory =>
      match getChainSize (Fat32Fs.getClusterForDirectoryEntry entry) with
      | .ok n => exact iff_of_true ⟨_, rfl⟩ fun _ => ⟨n, rfl⟩
      | .error fault => exact iff_of_false nofun fun h => nomatch h hdirectory
    · next hfile => exact iff_of_true ⟨_, rfl⟩ fun h => absurd h hfile

section Visit

variable (hi : 32 * i + 32 ≤ size)
include hi

theorem visit_eq (s : Fat32Populate) : s.visit fs strings getChainSize size i =
    let entry := Fat32DirectoryEntry.read s.directoryEntries (32 * i)
    if s.directoryEntries (32 * i) = 0 then .ok (false, s)
    else if s.directoryEntries (32 * i) = 0xe5 then .ok (true, s)
    else if Fat32Attribute.meets entry.attributes .longFileName then s.visitLongName size i
    else if Fat32Attribute.meets entry.attributes .volumeID then .ok (true, s)
    else
      (if s.isLfn then .ok s else s.writeShortName strings entry).bind fun s =>
        let s := { s with isLfn := false }
        if IsDots s.nameBuffer then .ok (true, s)
        else (s.insertChild fs strings getChainSize i entry).bind fun s => .ok (true, s) := by
  rw [visit, entryAt_eq, if_pos hi]
  rfl

theorem visit_of_end (h : IsEnd s.directoryEntries i) :
    s.visit fs strings getChainSize size i = .ok (false, s) := by
  rw [visit_eq hi]
  exact if_pos h

theorem visit_of_deleted (h : IsDeleted s.directoryEntries i) :
    s.visit fs strings getChainSize size i = .ok (true, s) := by
  have hend : ¬ s.directoryEntries (32 * i) = 0 := by
    rw [h]
    decide
  rw [visit_eq hi]
  exact (if_neg hend).trans (if_pos h)

theorem visit_of_part (h : IsTakenForPart s.directoryEntries i) :
    s.visit fs strings getChainSize size i = s.visitLongName size i := by
  rw [visit_eq hi]
  exact (if_neg h.1).trans ((if_neg h.2.1).trans (if_pos h.2.2))

theorem visit_of_child (hstrings : strings.Copies) (h : IsTakenForChild s.directoryEntries i) :
    s.visit fs strings getChainSize size i =
      if IsDots (s.withName strings i).nameBuffer then .ok (true, s.withName strings i)
      else ((s.withName strings i).insertChild fs strings getChainSize i
        (.read s.directoryEntries (32 * i))).bind fun s => .ok (true, s) := by
  obtain ⟨hend, hdeleted, hbits⟩ := h
  have hpart : ¬ Fat32Attribute.meets (s.directoryEntries (32 * i + 11)) .longFileName = true := by
    rw [hbits]
    exact Bool.false_ne_true
  have hlabel : ¬ Fat32Attribute.meets (s.directoryEntries (32 * i + 11)) .volumeID = true := by
    rw [volumeID_not_meets hbits]
    exact Bool.false_ne_true
  rw [visit_eq hi]
  refine (if_neg hend).trans ((if_neg hdeleted).trans ((if_neg hpart).trans
    ((if_neg hlabel).trans ?_)))
  rw [withName]
  by_cases hpending : s.isLfn = true
  · rw [if_pos hpending, if_pos hpending]
    rfl
  · have hname : (Fat32DirectoryEntry.read s.directoryEntries (32 * i)).name =
        nameOf s.directoryEntries i := rfl
    rw [if_neg hpending, if_neg hpending, writeShortName_eq hstrings _ _ (length_nameOf _ i), hname]
    simp only [Except.bind]

/-- All that a turn can do before the loop goes on. -/
theorem visit_continues (hstrings : strings.Copies)
    (h : s.visit fs strings getChainSize size i = .ok (true, t)) :
    (IsDeleted s.directoryEntries i ∧ t = s) ∨
    (IsTakenForPart s.directoryEntries i ∧ ¬ s.Mismatch i ∧ s.HasPlace size i ∧ t = s.withPart i) ∨
    (IsTakenForChild s.directoryEntries i ∧ IsDots (s.withName strings i).nameBuffer ∧
      t = s.withName strings i) ∨
    (IsTakenForChild s.directoryEntries i ∧ ¬ IsDots (s.withName strings i).nameBuffer ∧
      ∃ child : Fat32Child, t = { s.withName strings i with children := s.children ++ [child] } ∧
        child.name = strings.view (s.withName strings i).nameBuffer ∧
          child.directoryOffset = 32 * i) := by
  rcases kinds s.directoryEntries i with hend | hdeleted | hpart | hchild
  · rw [visit_of_end hi hend] at h
    cases h
  · rw [visit_of_deleted hi hdeleted] at h
    cases h
    exact Or.inl ⟨hdeleted, rfl⟩
  · rw [visit_of_part hi hpart, visitLongName_eq] at h
    split at h
    · cases h
    · next hmatch =>
      split at h
      · next hplace =>
        cases h
        exact Or.inr (Or.inl ⟨hpart, hmatch, hplace, rfl⟩)
      · cases h
  · rw [visit_of_child hi hstrings hchild] at h
    split at h
    · next hdots =>
      cases h
      exact Or.inr (Or.inr (Or.inl ⟨hchild, hdots, rfl⟩))
    · next hdots =>
      refine Or.inr (Or.inr (Or.inr ⟨hchild, hdots, ?_⟩))
      rcases insertChild_cases fs strings getChainSize (s.withName strings i)
        (.read s.directoryEntries (32 * i)) i with ⟨child, hinsert, hname⟩ | ⟨fault, hinsert, -⟩
      · rw [hinsert] at h
        cases h
        exact ⟨child, rfl, hname⟩
      · rw [hinsert] at h
        cases h

/-- An entry that is no dot entry is inserted if its name is not too long, and it has a size. -/
theorem visit_child_isOk_iff (hstrings : strings.Copies)
    (hchild : IsTakenForChild s.directoryEntries i)
    (hdots : ¬ IsDots (s.withName strings i).nameBuffer) :
    (∃ t, s.visit fs strings getChainSize size i = .ok (true, t)) ↔
      (strings.view (s.withName strings i).nameBuffer).length ≤ 255 ∧
        HasSize getChainSize (.read s.directoryEntries (32 * i)) := by
  rw [visit_of_child hi hstrings hchild, if_neg hdots,
    ← insertChild_isOk_iff fs strings getChainSize (s.withName strings i) _ i]
  match (s.withName strings i).insertChild fs strings getChainSize i
    (.read s.directoryEntries (32 * i)) with
  | .ok t => exact iff_of_true ⟨t, rfl⟩ ⟨t, rfl⟩
  | .error e => exact iff_of_false nofun nofun

/-- The loop ends at the end of the directory, and at a bad checksum. -/
theorem visit_stops (hstrings : strings.Copies)
    (h : s.visit fs strings getChainSize size i = .ok (false, t)) :
    (IsEnd s.directoryEntries i ∧ t = s) ∨
    (IsTakenForPart s.directoryEntries i ∧ s.Mismatch i ∧
      t = { s.masked i with failed := true }) := by
  rcases kinds s.directoryEntries i with hend | hdeleted | hpart | hchild
  · rw [visit_of_end hi hend] at h
    cases h
    exact Or.inl ⟨hend, rfl⟩
  · rw [visit_of_deleted hi hdeleted] at h
    cases h
  · rw [visit_of_part hi hpart, visitLongName_eq] at h
    split at h
    · next hmatch =>
      cases h
      exact Or.inr ⟨hpart, hmatch, rfl⟩
    · split at h <;> cases h
  · rw [visit_of_child hi hstrings hchild] at h
    split at h
    · cases h
    · cases hinsert : (s.withName strings i).insertChild fs strings getChainSize i
        (.read s.directoryEntries (32 * i)) <;> rw [hinsert] at h <;> cases h

/-- A turn leaves the buffers exactly at a part that has no place. -/
theorem visit_eq_outside_iff (hstrings : strings.Copies) (s : Fat32Populate) :
    s.visit fs strings getChainSize size i = .error .outside ↔
      IsTakenForPart s.directoryEntries i ∧ ¬ s.Mismatch i ∧ ¬ s.HasPlace size i := by
  rcases kinds s.directoryEntries i with hend | hdeleted | hpart | hchild
  · rw [visit_of_end hi hend]
    exact iff_of_false nofun fun h => h.1.1 hend
  · rw [visit_of_deleted hi hdeleted]
    exact iff_of_false nofun fun h => h.1.2.1 hdeleted
  · rw [visit_of_part hi hpart, visitLongName_eq, and_iff_right hpart]
    split
    · next hmatch => exact iff_of_false nofun fun h => h.1 hmatch
    · next hmatch =>
      rw [and_iff_right hmatch]
      split
      · next hplace => exact iff_of_false nofun (not_not.mpr hplace)
      · next hplace => exact iff_of_true rfl hplace
  · rw [visit_of_child hi hstrings hchild]
    refine iff_of_false ?_ fun h => Bool.false_ne_true (hchild.2.2.symm.trans h.1.2.2)
    split
    · exact nofun
    · rcases insertChild_cases fs strings getChainSize (s.withName strings i)
        (.read s.directoryEntries (32 * i)) i with ⟨child, hinsert, -⟩ | ⟨fault, hinsert, hne⟩
      · rw [hinsert]
        exact nofun
      · rw [hinsert]
        exact fun h => hne (Except.error.inj h)

end Visit

end Fat32Populate

/-! ### The turns that the loop comes to -/

namespace Fat32Populate

open Fat32DirectoryEntry

variable {fs : Fat32Fs} {strings : PrismStrings} {getChainSize : ℕ → Except ScanFault ℕ}
  {m : ℕ → UInt8} {size i n p : ℕ} {s : Fat32Populate}

/-- What holds when the loop comes to turn `i`. -/
structure Reached (m : ℕ → UInt8) (i : ℕ) (s : Fat32Populate) : Prop where
  intact : ∀ p, 32 * i ≤ p → s.directoryEntries p = m p
  ends : ∀ j < i, ¬ IsEnd m j
  terminated : ∀ p, 247 ≤ p → s.nameBuffer p = 0
  below : ∀ child ∈ s.children, child.directoryOffset < 32 * i

theorem reached_new (hstrings : strings.Ends) : Reached m 0 (new strings m) where
  intact _ _ := rfl
  ends j hj := absurd hj (Nat.not_lt_zero j)
  terminated p _ := hstrings.resized p
  below _ h := absurd h List.not_mem_nil

namespace Reached

variable (h : Reached m i s)
include h

theorem isEnd_iff : IsEnd s.directoryEntries i ↔ IsEnd m i := by
  rw [IsEnd, IsEnd, h.intact _ le_rfl]

theorem isDeleted_iff : IsDeleted s.directoryEntries i ↔ IsDeleted m i := by
  rw [IsDeleted, IsDeleted, h.intact _ le_rfl]

theorem isTakenForPart_iff : IsTakenForPart s.directoryEntries i ↔ IsTakenForPart m i := by
  rw [IsTakenForPart, IsTakenForPart, h.isEnd_iff, h.isDeleted_iff, h.intact _ (by omega)]

theorem isTakenForChild_iff : IsTakenForChild s.directoryEntries i ↔ IsTakenForChild m i := by
  rw [IsTakenForChild, IsTakenForChild, h.isEnd_iff, h.isDeleted_iff, h.intact _ (by omega)]

theorem nameOf_eq {j : ℕ} (hj : i ≤ j) : nameOf s.directoryEntries j = nameOf m j :=
  nameOf_congr fun k _ => h.intact _ (by omega)

theorem read_eq : Fat32DirectoryEntry.read s.directoryEntries (32 * i) = .read m (32 * i) := by
  have hname : (List.range 11).map (fun j => s.directoryEntries (32 * i + j)) =
      (List.range 11).map fun j => m (32 * i + j) := h.nameOf_eq (Nat.le_refl i)
  have hword : ∀ offset count, readLE s.directoryEntries (32 * i + offset) count =
      readLE m (32 * i + offset) count :=
    fun offset count => readLE_congr fun k _ => h.intact _ (by omega)
  rw [Fat32DirectoryEntry.read, Fat32DirectoryEntry.read, hword, hword, hword,
    h.intact (32 * i + 11) (by omega), hname]

end Reached

theorem masked_intact (h : Reached m i s) (hp : 32 * (i + 1) ≤ p) :
    (s.masked i).directoryEntries p = m p :=
  (s.masked_of_ne (by omega)).trans (h.intact p (by omega))

/-- A part of a long name does not come to the end of the name buffer. -/
theorem withPart_of_le (h : s.HasPlace size i) (hp : 247 ≤ p) :
    (s.withPart i).nameBuffer p = s.nameBuffer p := by
  have hplace := h.2.1
  refine writeBytes_of_not_mem (Or.inr ?_)
  rw [length_textOf]
  omega

/-- A short name is shorter than a part of a long one. -/
theorem withName_of_le (hstrings : strings.Copies) (s : Fat32Populate) (hp : 12 ≤ p) :
    (s.withName strings i).nameBuffer p = s.nameBuffer p := by
  rw [withName]
  dsimp only
  split
  · rfl
  · have hlength := length_written_le hstrings (nameOf s.directoryEntries i)
    exact writeBytes_of_not_mem (by omega)

/-- What is not written of the directory, and of the name buffer, stays as it is. -/
theorem Reached.visit (hstrings : strings.Ends) (hi : 32 * i + 32 ≤ size) {t : Fat32Populate}
    (h : Reached m i s) (hturn : s.visit fs strings getChainSize size i = .ok (true, t)) :
    Reached m (i + 1) t := by
  have hends : ¬ IsEnd m i → ∀ j < i + 1, ¬ IsEnd m j := by
    intro hend j hj
    rcases Nat.lt_succ_iff_lt_or_eq.mp hj with hlt | rfl
    · exact h.ends j hlt
    · exact hend
  have hbelow : ∀ child ∈ s.children, child.directoryOffset < 32 * (i + 1) := by
    intro child hchild
    have hlt := h.below child hchild
    omega
  rcases visit_continues hi hstrings.toCopies hturn with ⟨hdeleted, rfl⟩ | ⟨hpart, -, hplace, rfl⟩ |
    ⟨hchild, -, rfl⟩ | ⟨hchild, -, child, rfl, -, hoffset⟩
  · have hend : ¬ IsEnd m i := fun hend => by
      rw [← h.isEnd_iff, IsEnd, hdeleted] at hend
      exact absurd hend (by decide)
    exact ⟨fun p hp => h.intact p (by omega), hends hend, h.terminated, hbelow⟩
  · exact ⟨fun p hp => masked_intact h hp, hends (mt h.isEnd_iff.mpr hpart.1),
      fun p hp => (withPart_of_le hplace hp).trans (h.terminated p hp), hbelow⟩
  · exact ⟨fun p hp => h.intact p (by omega), hends (mt h.isEnd_iff.mpr hchild.1),
      fun p hp => (withName_of_le hstrings.toCopies s (by omega)).trans (h.terminated p hp), hbelow⟩
  · refine ⟨fun p hp => h.intact p (by omega), hends (mt h.isEnd_iff.mpr hchild.1),
      fun p hp => (withName_of_le hstrings.toCopies s (by omega)).trans (h.terminated p hp),
      fun other hother => ?_⟩
    rcases List.mem_append.mp hother with hbefore | hlast
    · exact hbelow other hbefore
    · rw [List.mem_singleton.mp hlast, hoffset]
      omega

theorem reached_of_comesTo (hstrings : strings.Ends) (hn : n ≤ size / 32)
    (h : ComesTo (visit fs strings getChainSize size) (new strings m) n s) : Reached m n s :=
  ComesTo.induct (reached_new hstrings) (fun _ _ _ hi _ hs => hs.visit hstrings (by omega)) h

end Fat32Populate

/-! ## Where the accesses are -/

namespace Fat32Populate

/-- What is taken for a part of a long name ends the loop, or has a place. -/
def StaysInside (size : ℕ) (s : Fat32Populate) (i : ℕ) : Prop :=
  Fat32DirectoryEntry.IsTakenForPart s.directoryEntries i → s.Mismatch i ∨ s.HasPlace size i

end Fat32Populate

namespace Fat32Fs

open Fat32Populate Fat32DirectoryEntry

variable {fs : Fat32Fs} {strings : PrismStrings} {getChainSize : ℕ → Except ScanFault ℕ}
  {directoryEntries : ℕ → UInt8} {size : ℕ}

/-- A directory whose clusters can be read is populated from their bytes. -/
theorem populate_of_readsClusters {fuel blockCount n : ℕ} {node : Fat32FsINode} {s : Fat32State}
    (h : fs.ReadsClusters s 0 node.cluster blockCount n) :
    fs.populate strings fuel node blockCount s =
      fs.populateFrom strings (fs.getChainSize s.device fuel)
        (overlay 0 (fs.clusterSize * n) (fun p => s.device (fs.address s.device node.cluster p))
          s.memory) node.size := by
  obtain ⟨last, t, hrun, hdevice, hmemory⟩ := h
  rw [populate, hrun]
  dsimp only
  rw [hdevice, hmemory]

theorem populateFrom_eq_error_iff {fault : Fat32Fault} :
    fs.populateFrom strings getChainSize directoryEntries size = .error fault ↔
      untilRejected (visit fs strings getChainSize size) (new strings directoryEntries)
        (List.range (size / 32)) = .error fault := by
  rw [populateFrom]
  match untilRejected (visit fs strings getChainSize size) (new strings directoryEntries)
    (List.range (size / 32)) with
  | .error e => exact Iff.rfl.trans (by rw [Except.map])
  | .ok r => exact iff_of_false nofun nofun

theorem populateFrom_eq_ok_iff {result : Bool} {s : Fat32Populate} :
    fs.populateFrom strings getChainSize directoryEntries size = .ok (result, s) ↔
      (∃ b, untilRejected (visit fs strings getChainSize size) (new strings directoryEntries)
        (List.range (size / 32)) = .ok (b, s)) ∧ result = !s.failed := by
  rw [populateFrom]
  match untilRejected (visit fs strings getChainSize size) (new strings directoryEntries)
    (List.range (size / 32)) with
  | .error e => exact iff_of_false nofun fun h => nomatch h.1
  | .ok (b, t) =>
    constructor
    · intro h
      cases h
      exact ⟨⟨b, rfl⟩, rfl⟩
    · rintro ⟨⟨b', h⟩, rfl⟩
      cases h
      rfl

/-- **Which directories are read without leaving the buffers.** Whatever is in a directory, all
writes are inside of the name buffer and all reads inside of the directory exactly if every part of
a long name that the loop comes to stays inside. -/
theorem populate_staysInside_iff (hstrings : strings.Copies) :
    fs.populateFrom strings getChainSize directoryEntries size ≠ .error .outside ↔
      EveryTurn (visit fs strings getChainSize size) (StaysInside size)
        (new strings directoryEntries) (List.range (size / 32)) := by
  rw [Ne, populateFrom_eq_error_iff, untilRejected_range_eq_error_iff, everyTurn_range_iff]
  have hturn : ∀ i < size / 32, ∀ t : Fat32Populate,
      t.visit fs strings getChainSize size i ≠ .error .outside ↔ t.StaysInside size i := by
    intro i hi t
    rw [Ne, visit_eq_outside_iff (by omega) hstrings, StaysInside, not_and, ← not_or, not_not]
  constructor
  · intro h i hi t ht
    exact (hturn i hi t).mp fun hfault => h ⟨i, hi, t, ht, hfault⟩
  · rintro h ⟨i, hi, t, ht, hfault⟩
    exact (hturn i hi t).mpr (h i hi t ht) hfault

/-- Strings that end at their NUL. `StringView::Copy` copies as many bytes as it is to. -/
def cStrings : PrismStrings where
  resized _ := 0
  view buffer := cString buffer 0 256
  copied _ count _ := count

theorem cStrings_ends : cStrings.Ends where
  le _ _ _ := le_rfl
  whole _ := rfl
  resized _ := rfl
  view _ := rfl

/-- The bytes of a directory. -/
def directoryOf (entries : List (List UInt8)) (p : ℕ) : UInt8 :=
  (entries.getD (p / 32) []).getD (p % 32) 0

theorem nameOf_directoryOf {entries : List (List UInt8)} {i : ℕ}
    (h : 11 ≤ (entries.getD i []).length) :
    nameOf (directoryOf entries) i = (entries.getD i []).take 11 := by
  refine List.ext_getElem ?_ fun j hj _ => ?_
  · rw [length_nameOf, List.length_take, Nat.min_eq_left h]
  · rw [length_nameOf] at hj
    rw [List.getElem_take]
    simp only [nameOf, Fat32DirectoryEntry.read, List.getElem_map, List.getElem_range, directoryOf]
    rw [show (32 * i + j) / 32 = i by omega, show (32 * i + j) % 32 = j by omega,
      List.getD_eq_getElem?_getD, List.getElem?_eq_getElem (by omega), Option.getD_some]

/-- A part of a long name, with a text of 13 bytes. -/
def partBytes (order checksum : UInt8) (text : List UInt8) : List UInt8 :=
  let character i := [text.getD i 0, 0]
  [order] ++ ((List.range 5).map character).flatten ++ [0x0f, 0, checksum] ++
    ((List.range' 5 6).map character).flatten ++ [0, 0] ++
      ((List.range' 11 2).map character).flatten

/-- The short name "X". -/
def shortX : List UInt8 := [0x58, 0x20, 0x20, 0x20, 0x20, 0x20, 0x20, 0x20, 0x20, 0x20, 0x20]

/-- A file with the long name "x". -/
def longX : ℕ → UInt8 :=
  directoryOf [partBytes 0x41 (getLfnChecksum shortX) [0x78], shortX ++ [0x20]]

/-- A small file system: nothing here follows a chain. -/
def anyFs : Fat32Fs := ⟨⟨512, 1, 1, 1, 100, 1⟩, 512, 98, 512, 1024⟩

theorem populate_staysInside_longX :
    EveryTurn (visit anyFs cStrings (fun _ => .ok 0) 64) (StaysInside 64) (new cStrings longX)
      (List.range (64 / 32)) := by
  have hok : (anyFs.populateFrom cStrings (fun _ => .ok 0) longX 64).map (fun r => r.1) =
      .ok true := by
    decide
  refine (populate_staysInside_iff cStrings_ends.toCopies).mp fun hfault => ?_
  rw [hfault] at hok
  cases hok

/-- The last part of a name of 248 characters or more goes over the end of the name buffer. -/
theorem not_populate_staysInside_twenty :
    ¬ ∀ directoryEntries size,
      anyFs.populateFrom cStrings (fun _ => .ok 0) directoryEntries size ≠ .error .outside := by
  intro hall
  have hfault : (anyFs.populateFrom cStrings (fun _ => .ok 0)
      (directoryOf [partBytes 0x54 0 (List.replicate 13 0x78)]) 1024).map (fun r => r.1) =
        .error .outside := by
    decide
  refine hall (directoryOf [partBytes 0x54 0 (List.replicate 13 0x78)]) 1024 ?_
  match hrun : anyFs.populateFrom cStrings (fun _ => .ok 0)
      (directoryOf [partBytes 0x54 0 (List.replicate 13 0x78)]) 1024 with
  | .error e =>
    rw [hrun] at hfault
    exact congrArg Except.error (Except.error.inj hfault)
  | .ok r =>
    rw [hrun] at hfault
    cases hfault

end Fat32Fs

end Cryptix.VFS
