import Cryptix.Lib.Bytes
import Cryptix.Lib.Checked
import Cryptix.Memory.BitmapAllocator

/-!
# ELF images

`Kernel/Library/ELF.cpp` and `LoadImage` of `Kernel/Library/ExecutableProgram.cpp`, as far as they
read an executable file. Every access is checked here: one that leaves the buffer it is meant for
is a `Fault`, and so is a division by zero. The source checks none of them, so the faults mark
where its behaviour is undefined.

Positions in the image are counted from its start. They are 64-bit sums of numbers from the file
and may wrap around, which puts them in front of the buffer.
-/

namespace Cryptix.ELF

open Lib Memory Prism

/-- The bytes from `m_Image.Raw()` on, the size of the buffer, and its address. Past the end stands
what the kernel has there. -/
structure Buffer where
  bytes : ℕ → UInt8
  size : ℕ
  raw : ℕ
  raw_pos : 0 < raw
  raw_add_size_lt : raw + size < wordCount

/-- What the accesses of the loader can run into. -/
inductive Fault
  | outside (start count : ℕ)
  | overrun (count room : ℕ)
  | divisionByZero
  deriving DecidableEq, Repr

/-- A computation of the loader. -/
abbrev Checked := Except Fault

namespace Buffer

/-- The buffer that `Image::Load` fills: the file, and 100 bytes that it leaves as they are. -/
def ofFile (file : List UInt8) (rest : ℕ → UInt8) (raw : ℕ) (hraw : 0 < raw)
    (hsize : raw + (file.length + 100) < wordCount) : Buffer where
  bytes i := file.getD i (rest i)
  size := file.length + 100
  raw := raw
  raw_pos := hraw
  raw_add_size_lt := hsize

/-- A number of `count` bytes, lowest byte first. -/
def value (b : Buffer) (start count : ℕ) : ℕ := readLE b.bytes start count

/-- Whether some bytes lie in the image. -/
def Inside (b : Buffer) (start count : ℕ) : Prop := start + count ≤ b.size

instance (b : Buffer) (start count : ℕ) : Decidable (b.Inside start count) :=
  inferInstanceAs (Decidable (_ ≤ _))

/-- A read of a field. -/
def read (b : Buffer) (start count : ℕ) : Checked ℕ :=
  if b.Inside start count then .ok (b.value start count) else .error (.outside start count)

/-- The bytes before the first zero byte, in the `fuel` bytes from `start` on. -/
def stringFrom (bytes : ℕ → UInt8) : (fuel start : ℕ) → Option (List UInt8)
  | 0, _ => none
  | fuel + 1, start =>
    if bytes start = 0 then some []
    else (stringFrom bytes fuel (start + 1)).map (bytes start :: ·)

/-- The string at a position, if it ends inside the image. -/
def string? (b : Buffer) (start : ℕ) : Option (List UInt8) :=
  stringFrom b.bytes (b.size - start) start

/-- A `StringView` of the string at a position: the constructor reads up to the zero byte. -/
def readString (b : Buffer) (start : ℕ) : Checked (List UInt8) :=
  match b.string? start with
  | some str => .ok str
  | none => .error (.outside start (b.size - start + 1))

/-- The bytes at a position. -/
def slice (b : Buffer) (start count : ℕ) : List UInt8 :=
  (List.range count).map fun i => b.bytes (start + i)

/-- `Memory::Copy` from the image to a buffer with the given room. -/
def copy (b : Buffer) (start count room : ℕ) : Checked (List UInt8) :=
  if count = 0 ∨ b.Inside start count then
    if count ≤ room then .ok (b.slice start count) else .error (.overrun count room)
  else .error (.outside start count)

end Buffer

/-! ## Headers -/

/-- The fields of `ELF::Header` that the kernel looks at. -/
structure Header where
  magic : ℕ
  bitness : ℕ
  endianness : ℕ
  headerVersion : ℕ
  abi : ℕ
  instructionSet : ℕ
  elfVersion : ℕ
  entryPoint : ℕ
  programHeaderTableOffset : ℕ
  sectionHeaderTableOffset : ℕ
  programEntrySize : ℕ
  programEntryCount : ℕ
  sectionEntrySize : ℕ
  sectionEntryCount : ℕ

/-- `stream >> m_Header`. -/
def Buffer.header (b : Buffer) : Header where
  magic := b.value 0 4
  bitness := b.value 4 1
  endianness := b.value 5 1
  headerVersion := b.value 6 1
  abi := b.value 7 1
  instructionSet := b.value 18 2
  elfVersion := b.value 20 4
  entryPoint := b.value 24 8
  programHeaderTableOffset := b.value 32 8
  sectionHeaderTableOffset := b.value 40 8
  programEntrySize := b.value 54 2
  programEntryCount := b.value 56 2
  sectionEntrySize := b.value 58 2
  sectionEntryCount := b.value 60 2

namespace Header

/-- The checks of `Image::Parse`: an ELF file for 64-bit little-endian System V on x86-64 or
AArch64. -/
def Valid (h : Header) : Prop :=
  h.magic = 0x464c457f ∧ h.bitness = 2 ∧ h.endianness = 1 ∧ h.headerVersion = 1 ∧ h.abi = 0 ∧
    (h.instructionSet = 0x3e ∨ h.instructionSet = 0xb7) ∧ h.elfVersion = 1

instance (h : Header) : Decidable h.Valid := inferInstanceAs (Decidable (_ ∧ _))

/-- `Image::ProgramHeader`. -/
def programHeader (h : Header) (index : ℕ) : ℕ :=
  offset h.programHeaderTableOffset (index * h.programEntrySize)

/-- `Image::SectionHeader`. -/
def sectionHeader (h : Header) (index : ℕ) : ℕ :=
  offset h.sectionHeaderTableOffset (index * h.sectionEntrySize)

end Header

/-- A field of a packed structure: its place in the structure and its size. -/
structure Field where
  place : ℕ
  size : ℕ

namespace Field

/-- Where the field of a structure at a position lies. -/
def position (f : Field) (start : ℕ) : ℕ := offset start f.place

/-- Its value. -/
def get (f : Field) (b : Buffer) (start : ℕ) : ℕ := b.value (f.position start) f.size

/-- A read of it. -/
def read (f : Field) (b : Buffer) (start : ℕ) : Checked ℕ := b.read (f.position start) f.size

/-- The field lies in the image. -/
def Inside (f : Field) (b : Buffer) (start : ℕ) : Prop := b.Inside (f.position start) f.size

end Field

namespace ProgramHeader

def type : Field := ⟨0, 4⟩
def fileOffset : Field := ⟨8, 8⟩
def virtualAddress : Field := ⟨16, 8⟩
def segmentSizeInFile : Field := ⟨32, 8⟩
def segmentSizeInMemory : Field := ⟨40, 8⟩

end ProgramHeader

namespace SectionHeader

def name : Field := ⟨0, 4⟩
def type : Field := ⟨4, 4⟩
def fileOffset : Field := ⟨24, 8⟩
def size : Field := ⟨32, 8⟩
def link : Field := ⟨40, 4⟩
def info : Field := ⟨44, 4⟩
def entrySize : Field := ⟨56, 8⟩

end SectionHeader

namespace Symbol

def name : Field := ⟨0, 4⟩
def sectionIndex : Field := ⟨6, 2⟩
def value : Field := ⟨8, 8⟩

/-- `sizeof(Symbol)`. -/
def size : ℕ := 24

end Symbol

/-! ## Parsing -/

/-- What `ParseSectionHeaders` leaves: the places of the last symbol table, of the last string
table with its contents, and of a section named `.got`. -/
structure Sections where
  symbolSection : Option ℕ := none
  stringSection : Option (ℕ × ℕ) := none
  gotSection : Option ℕ := none

/-- `Image::LookupString`. The table is null also where its offset leads to the address 0. -/
def lookupString (b : Buffer) (strings : Option (ℕ × ℕ)) (index : ℕ) : Checked (List UInt8) :=
  match strings with
  | none => .ok []
  | some (shdr, table) =>
    if offset b.raw table = 0 then .ok []
    else do
      let size ← SectionHeader.size.read b shdr
      if index ≥ size then .ok [] else b.readString (offset table index)

/-- `.got`. -/
def gotName : List UInt8 := [0x2e, 0x67, 0x6f, 0x74]

/-- `ParseSectionHeaders` at the header of a symbol table or a string table. -/
def noteSection (b : Buffer) (s : Sections) (shdr type : ℕ) : Checked Sections :=
  if type = 2 then .ok { s with symbolSection := some shdr }
  else if type = 3 then do
    let table ← SectionHeader.fileOffset.read b shdr
    .ok { s with stringSection := some (shdr, table) }
  else .ok s

/-- One turn of the loop in `ParseSectionHeaders`. -/
def parseSection (b : Buffer) (h : Header) (s : Sections) (i : ℕ) : Checked Sections := do
  let shdr := h.sectionHeader i
  let type ← SectionHeader.type.read b shdr
  let s ← noteSection b s shdr type
  let name ← SectionHeader.name.read b shdr
  let sectionName ← lookupString b s.stringSection name
  .ok (if sectionName.take 4 = gotName then { s with gotSection := some shdr } else s)

/-- `Image::ParseSectionHeaders`. -/
def parseSectionHeaders (b : Buffer) (h : Header) : Checked Sections :=
  (List.range h.sectionEntryCount).foldlM (parseSection b h) {}

/-- `m_Symbols`. -/
abbrev SymbolTable := List UInt8 → Option ℕ

/-- One turn of the loop in `LoadSymbols`. -/
def loadSymbol (b : Buffer) (strings : Option (ℕ × ℕ)) (symbolTable : ℕ) (symbols : SymbolTable)
    (i : ℕ) : Checked SymbolTable := do
  let symbol := offset symbolTable (i * Symbol.size)
  let index ← Symbol.name.read b symbol
  let name ← lookupString b strings index
  let addr ← Symbol.value.read b symbol
  let sectionIndex ← Symbol.sectionIndex.read b symbol
  .ok (if sectionIndex = 0 ∨ name = [] then symbols else Function.update symbols name (some addr))

/-- `Image::LoadSymbols`. -/
def loadSymbols (b : Buffer) (symbolSection : ℕ) (stringSection : ℕ × ℕ) : Checked SymbolTable := do
  let size ← SectionHeader.size.read b symbolSection
  if size = 0 then .ok fun _ => none
  else do
    let stringsSize ← SectionHeader.size.read b stringSection.1
    if stringsSize = 0 then .ok fun _ => none
    else do
      let symbolTable ← SectionHeader.fileOffset.read b symbolSection
      let entrySize ← SectionHeader.entrySize.read b symbolSection
      if entrySize ≠ 0 then
        (List.range (size / entrySize)).foldlM (loadSymbol b (some stringSection) symbolTable)
          fun _ => none
      else .error .divisionByZero

/-- `if (m_SymbolSection && m_StringSection) LoadSymbols()`. -/
def parseSymbols (b : Buffer) (s : Sections) : Checked SymbolTable :=
  match s.symbolSection, s.stringSection with
  | some symbolSection, some stringSection => loadSymbols b symbolSection stringSection
  | _, _ => .ok fun _ => none

/-- What `Parse` takes from the program headers. -/
structure Programs where
  programHeaderAddress : Option ℕ := none
  interpreterPath : List UInt8 := []

/-- One turn of the loop over the program headers in `Parse`. -/
def parseProgramHeader (b : Buffer) (h : Header) (loadBase : ℕ) (p : Programs) (i : ℕ) :
    Checked Programs := do
  let current := h.programHeader i
  let type ← ProgramHeader.type.read b current
  if type = 6 then do
    let virtualAddress ← ProgramHeader.virtualAddress.read b current
    .ok { p with programHeaderAddress := some (offset virtualAddress loadBase) }
  else if type = 3 then do
    let size ← ProgramHeader.segmentSizeInFile.read b current
    let start ← ProgramHeader.fileOffset.read b current
    -- one byte is kept for the zero at the end; the sum may wrap around
    let path ← b.copy start size (offset size 1 - 1)
    .ok { p with interpreterPath := path }
  else .ok p

/-- An `Image` after `Parse`. -/
structure Image where
  header : Header
  sections : Sections
  symbols : SymbolTable
  programs : Programs

/-- `Image::Parse`. -/
def parse (b : Buffer) (loadBase : ℕ) : Checked (Except Errno Image) :=
  if b.Inside 0 64 then
    let h := b.header
    if h.Valid then do
      let sections ← parseSectionHeaders b h
      let symbols ← parseSymbols b sections
      let programs ← (List.range h.programEntryCount).foldlM (parseProgramHeader b h loadBase) {}
      .ok (.ok ⟨h, sections, symbols, programs⟩)
    else .ok (.error .ENOEXEC)
  else .error (.outside 0 64)

/-- A segment that `LoadImage` has copied. -/
structure Loaded where
  virtualAddress : ℕ
  memorySize : ℕ
  data : List UInt8

/-- The body of the loop in `LoadImage` for a loadable header. `memoryLeft` says whether the pages
for the segment can be had and mapped. The code asserts it; `none` stands for a kernel that has
stopped there. -/
def copySegment (b : Buffer) (header : ℕ) (memoryLeft : Bool) (segments : List Loaded) :
    Checked (Option (List Loaded)) := do
  let virtualAddress ← ProgramHeader.virtualAddress.read b header
  let memorySize ← ProgramHeader.segmentSizeInMemory.read b header
  let misalign := virtualAddress % PMM.pageSize
  let pageCount := divRoundUp (offset memorySize misalign) PMM.pageSize
  if memoryLeft = true then do
    let start ← ProgramHeader.fileOffset.read b header
    let size ← ProgramHeader.segmentSizeInFile.read b header
    let data ← b.copy start size (pageCount * PMM.pageSize - misalign)
    .ok (some (segments ++ [⟨virtualAddress, memorySize, data⟩]))
  else .ok none

/-- One turn of the loop over the program headers in `LoadImage`. -/
def loadSegment (b : Buffer) (h : Header) (memoryLeft : ℕ → Bool) (segments : Option (List Loaded))
    (i : ℕ) : Checked (Option (List Loaded)) :=
  match segments with
  | none => .ok none
  | some segments => do
    let type ← ProgramHeader.type.read b (h.programHeader i)
    if type = 1 then copySegment b (h.programHeader i) (memoryLeft i) segments
    else .ok (some segments)

/-- `ExecutableProgram::LoadImage`, once the file has been read. -/
def loadImage (b : Buffer) (loadBase : ℕ) (memoryLeft : ℕ → Bool) :
    Checked (Except Errno (Image × Option (List Loaded))) := do
  match ← parse b loadBase with
  | .error _ => .ok (.error .ENOEXEC)
  | .ok image => do
    let segments ← (List.range image.header.programEntryCount).foldlM
      (loadSegment b image.header memoryLeft) (some [])
    .ok (.ok (image, segments))

end Cryptix.ELF
