import Cryptix.Executable.Image

/-!
# Which images are loaded safely

Exactly the images whose tables lie inside the file, as far as they are used, are loaded without an
access outside a buffer and without a division by zero (`loadsSafely_iff`). The predicates below go
table by table and follow the loops of the parser; what a loop has found so far is a function of the
number of headers it has seen.
-/

namespace Cryptix.ELF

open Lib Memory Prism

namespace Buffer

/-- A string that ends inside the image. -/
def Terminated (b : Buffer) (start : ℕ) : Prop := ∃ e, start ≤ e ∧ e < b.size ∧ b.bytes e = 0

/-- Bytes that are copied lie in the image. -/
def CopyInside (b : Buffer) (start count : ℕ) : Prop := count = 0 ∨ b.Inside start count

theorem isSome_stringFrom_iff {bytes : ℕ → UInt8} {fuel start : ℕ} :
    (stringFrom bytes fuel start).isSome ↔ ∃ e, start ≤ e ∧ e < start + fuel ∧ bytes e = 0 := by
  induction fuel generalizing start with
  | zero => exact iff_of_false Bool.false_ne_true fun ⟨e, hlo, hhi, _⟩ => by omega
  | succ n ih =>
    rw [stringFrom]
    by_cases hzero : bytes start = 0
    · rw [if_pos hzero]
      exact iff_of_true rfl ⟨start, Nat.le_refl _, by omega, hzero⟩
    · rw [if_neg hzero, Option.isSome_map, ih]
      constructor
      · rintro ⟨e, hlo, hhi, he⟩
        exact ⟨e, by omega, by omega, he⟩
      · rintro ⟨e, hlo, hhi, he⟩
        refine ⟨e, ?_, by omega, he⟩
        rcases Nat.eq_or_lt_of_le hlo with rfl | hlt
        · exact absurd he hzero
        · exact hlt

theorem isSome_string?_iff {b : Buffer} {start : ℕ} :
    (b.string? start).isSome ↔ b.Terminated start := by
  rw [string?, isSome_stringFrom_iff]
  constructor
  · rintro ⟨e, hlo, hhi, he⟩
    exact ⟨e, hlo, by omega, he⟩
  · rintro ⟨e, hlo, hhi, he⟩
    exact ⟨e, hlo, by omega, he⟩

variable {b : Buffer} {start count room : ℕ}

theorem read_computes :
    Computes (b.read start count) (b.Inside start count) (b.value start count) :=
  (Computes.guard fun _ => .pure _).congr (iff_of_eq (and_true _))

theorem readString_computes :
    Computes (b.readString start) (b.Terminated start) ((b.string? start).getD []) := by
  rw [← isSome_string?_iff, readString]
  cases hstr : b.string? start with
  | none => exact ⟨fun h => absurd h Bool.false_ne_true, fun _ => ⟨_, rfl⟩⟩
  | some str => exact ⟨fun _ => rfl, fun h => absurd rfl h⟩

theorem copy_computes :
    Computes (b.copy start count room) (b.CopyInside start count ∧ count ≤ room)
      (b.slice start count) :=
  (Computes.guard fun _ => Computes.guard fun _ => .pure _).congr
    (and_congr_right fun _ => iff_of_eq (and_true _))

end Buffer

theorem Field.read_computes {f : Field} {b : Buffer} {start : ℕ} :
    Computes (f.read b start) (f.Inside b start) (f.get b start) :=
  Buffer.read_computes

/-! ## Names -/

/-- The name that `LookupString` finds. -/
def lookupName (b : Buffer) (strings : Option (ℕ × ℕ)) (index : ℕ) : List UInt8 :=
  match strings with
  | none => []
  | some (shdr, table) =>
    if offset b.raw table = 0 then []
    else if index ≥ SectionHeader.size.get b shdr then []
    else (b.string? (offset table index)).getD []

/-- The name is empty, or it ends inside the image. -/
def NameInside (b : Buffer) (strings : Option (ℕ × ℕ)) (index : ℕ) : Prop :=
  ∀ shdr table, strings = some (shdr, table) → offset b.raw table ≠ 0 →
    SectionHeader.size.Inside b shdr ∧
      (index < SectionHeader.size.get b shdr → b.Terminated (offset table index))

theorem lookupString_computes {b : Buffer} {strings : Option (ℕ × ℕ)} {index : ℕ} :
    Computes (lookupString b strings index) (NameInside b strings index)
      (lookupName b strings index) := by
  cases strings with
  | none => exact (Computes.pure _).congr ⟨fun _ _ _ h => absurd h nofun, fun _ => trivial⟩
  | some table =>
    obtain ⟨shdr, table⟩ := table
    rw [lookupString, lookupName]
    by_cases hnull : offset b.raw table = 0
    · rw [if_pos hnull, if_pos hnull]
      refine (Computes.pure _).congr ⟨fun _ _ _ h hne => ?_, fun _ => trivial⟩
      obtain ⟨rfl, rfl⟩ := Prod.mk.inj (Option.some.inj h)
      exact absurd hnull hne
    · rw [if_neg hnull, if_neg hnull]
      refine (Field.read_computes.bind fun _ => Computes.ite (fun _ => .pure _)
        fun _ => Buffer.readString_computes).congr ?_
      constructor
      · rintro ⟨hsize, -, hname⟩ _ _ h _
        obtain ⟨rfl, rfl⟩ := Prod.mk.inj (Option.some.inj h)
        exact ⟨hsize, fun hlt => hname (Nat.not_le.mpr hlt)⟩
      · intro h
        obtain ⟨hsize, hname⟩ := h shdr table rfl hnull
        exact ⟨hsize, fun _ => trivial, fun hlt => hname (Nat.not_le.mp hlt)⟩

/-! ## Sections -/

section Sections

variable (b : Buffer) (h : Header)

/-- The type of a section. -/
def sectionType (i : ℕ) : ℕ := SectionHeader.type.get b (h.sectionHeader i)

/-- The header of the last section of a type among the first `n`. -/
def lastSection (type : ℕ) : (n : ℕ) → Option ℕ
  | 0 => none
  | n + 1 => if sectionType b h n = type then some (h.sectionHeader n) else lastSection type n

/-- The last string table among the first `n` sections, with the place of its contents. -/
def stringsBefore (n : ℕ) : Option (ℕ × ℕ) :=
  (lastSection b h 3 n).map fun shdr => (shdr, SectionHeader.fileOffset.get b shdr)

/-- The name that `ParseSectionHeaders` reads for a section, from the last string table so far. -/
def sectionName (i : ℕ) : List UInt8 :=
  lookupName b (stringsBefore b h (i + 1)) (SectionHeader.name.get b (h.sectionHeader i))

/-- The last section named `.got` among the first `n`. -/
def gotBefore : (n : ℕ) → Option ℕ
  | 0 => none
  | n + 1 =>
    if (sectionName b h n).take 4 = gotName then some (h.sectionHeader n) else gotBefore n

/-- What `ParseSectionHeaders` has found after `n` sections. -/
def sectionsBefore (n : ℕ) : Sections where
  symbolSection := lastSection b h 2 n
  stringSection := stringsBefore b h n
  gotSection := gotBefore b h n

/-- The section header lies in the image, as far as it is read, and so does the name. -/
structure SectionInside (i : ℕ) : Prop where
  type : SectionHeader.type.Inside b (h.sectionHeader i)
  fileOffset : sectionType b h i = 3 → SectionHeader.fileOffset.Inside b (h.sectionHeader i)
  name : SectionHeader.name.Inside b (h.sectionHeader i)
  lookup : NameInside b (stringsBefore b h (i + 1))
    (SectionHeader.name.get b (h.sectionHeader i))

end Sections

variable {b : Buffer} {h : Header}

theorem noteSection_computes (s : Sections) (shdr type : ℕ) :
    Computes (noteSection b s shdr type)
      (type = 3 → SectionHeader.fileOffset.Inside b shdr)
      (if type = 2 then { s with symbolSection := some shdr }
      else if type = 3 then
        { s with stringSection := some (shdr, SectionHeader.fileOffset.get b shdr) }
      else s) := by
  refine Computes.congr (Computes.ite (fun _ => .pure _) fun _ => Computes.ite
    (fun _ => Field.read_computes.bind fun _ => .pure _) fun _ => .pure _) ?_
  constructor
  · rintro ⟨-, hoffset⟩ h3
    exact ((hoffset (by omega)).1 h3).1
  · intro hoffset
    exact ⟨fun _ => trivial, fun _ => ⟨fun h3 => ⟨hoffset h3, trivial⟩, fun _ => trivial⟩⟩

theorem parseSection_computes (i : ℕ) :
    Computes (parseSection b h (sectionsBefore b h i) i) (SectionInside b h i)
      (sectionsBefore b h (i + 1)) := by
  have hnote : Computes
      (noteSection b (sectionsBefore b h i) (h.sectionHeader i) (sectionType b h i))
      (sectionType b h i = 3 → SectionHeader.fileOffset.Inside b (h.sectionHeader i))
      { sectionsBefore b h (i + 1) with gotSection := gotBefore b h i } := by
    refine (noteSection_computes _ _ _).congr_value fun _ => ?_
    simp only [sectionsBefore, stringsBefore, lastSection]
    by_cases h2 : sectionType b h i = 2
    · rw [if_pos h2, if_pos h2, if_neg (by omega)]
    · by_cases h3 : sectionType b h i = 3
      · rw [if_neg h2, if_neg h2, if_pos h3, if_pos h3, Option.map_some]
      · rw [if_neg h2, if_neg h2, if_neg h3, if_neg h3]
  refine Computes.congr_value (Computes.congr (Field.read_computes.bind fun _ => hnote.bind fun _ =>
    Field.read_computes.bind fun _ => lookupString_computes.bind fun _ => .pure _) ?_) fun _ => ?_
  · constructor
    · rintro ⟨htype, hoffset, hname, hlookup, -⟩
      exact ⟨htype, hoffset, hname, hlookup⟩
    · rintro ⟨htype, hoffset, hname, hlookup⟩
      exact ⟨htype, hoffset, hname, hlookup, trivial⟩
  · by_cases hgot : (sectionName b h i).take 4 = gotName
    · simp only [sectionsBefore, gotBefore, if_pos hgot]
      exact if_pos hgot
    · simp only [sectionsBefore, gotBefore, if_neg hgot]
      exact if_neg hgot

theorem parseSectionHeaders_computes :
    Computes (parseSectionHeaders b h) (∀ i < h.sectionEntryCount, SectionInside b h i)
      (sectionsBefore b h h.sectionEntryCount) :=
  Computes.foldlM_range _ fun i _ _ => parseSection_computes i

/-! ## Symbols -/

section Symbols

variable (b : Buffer)

/-- A symbol lies in the image, as far as it is read, and so does its name. -/
structure SymbolInside (strings : Option (ℕ × ℕ)) (symbol : ℕ) : Prop where
  name : Symbol.name.Inside b symbol
  lookup : NameInside b strings (Symbol.name.get b symbol)
  value : Symbol.value.Inside b symbol
  sectionIndex : Symbol.sectionIndex.Inside b symbol

/-- The place of a symbol in a table. -/
def symbolAt (symbolTable i : ℕ) : ℕ := offset symbolTable (i * Symbol.size)

/-- The first `n` symbols of a table that are defined and have a name. -/
def symbolsBefore (strings : Option (ℕ × ℕ)) (symbolTable : ℕ) : (n : ℕ) → SymbolTable
  | 0 => fun _ => none
  | n + 1 =>
    let symbol := symbolAt symbolTable n
    let name := lookupName b strings (Symbol.name.get b symbol)
    let symbols := symbolsBefore strings symbolTable n
    if Symbol.sectionIndex.get b symbol = 0 ∨ name = [] then symbols
    else Function.update symbols name (some (Symbol.value.get b symbol))

/-- The number of turns of the loop in `LoadSymbols`. -/
def symbolCount (symbolSection : ℕ) : ℕ :=
  SectionHeader.size.get b symbolSection / SectionHeader.entrySize.get b symbolSection

/-- The symbol table with the names of its symbols lies in the image, as far as it is read, and its
entries have a size. -/
structure TableInside (symbolSection : ℕ) (strings : ℕ × ℕ) : Prop where
  fileOffset : SectionHeader.fileOffset.Inside b symbolSection
  entrySize : SectionHeader.entrySize.Inside b symbolSection
  entrySize_ne_zero : SectionHeader.entrySize.get b symbolSection ≠ 0
  symbols : ∀ i < symbolCount b symbolSection, SymbolInside b (some strings)
    (symbolAt (SectionHeader.fileOffset.get b symbolSection) i)

/-- The same, where the symbols are read only if neither table is empty. -/
structure SymbolsInside (symbolSection : ℕ) (strings : ℕ × ℕ) : Prop where
  size : SectionHeader.size.Inside b symbolSection
  stringsSize : SectionHeader.size.get b symbolSection ≠ 0 →
    SectionHeader.size.Inside b strings.1
  table : SectionHeader.size.get b symbolSection ≠ 0 →
    SectionHeader.size.get b strings.1 ≠ 0 → TableInside b symbolSection strings

/-- What `LoadSymbols` puts into `m_Symbols`. -/
def loadedSymbols (symbolSection : ℕ) (strings : ℕ × ℕ) : SymbolTable :=
  if SectionHeader.size.get b symbolSection = 0 then fun _ => none
  else if SectionHeader.size.get b strings.1 = 0 then fun _ => none
  else symbolsBefore b (some strings) (SectionHeader.fileOffset.get b symbolSection)
    (symbolCount b symbolSection)

end Symbols

theorem loadSymbol_computes (strings : Option (ℕ × ℕ)) (symbolTable i : ℕ) :
    Computes (loadSymbol b strings symbolTable (symbolsBefore b strings symbolTable i) i)
      (SymbolInside b strings (symbolAt symbolTable i))
      (symbolsBefore b strings symbolTable (i + 1)) := by
  refine Computes.congr (Field.read_computes.bind fun _ => lookupString_computes.bind fun _ =>
    Field.read_computes.bind fun _ => Field.read_computes.bind fun _ => .pure _) ?_
  constructor
  · rintro ⟨hname, hlookup, hvalue, hindex, -⟩
    exact ⟨hname, hlookup, hvalue, hindex⟩
  · rintro ⟨hname, hlookup, hvalue, hindex⟩
    exact ⟨hname, hlookup, hvalue, hindex, trivial⟩

theorem loadSymbols_computes (symbolSection : ℕ) (strings : ℕ × ℕ) :
    Computes (loadSymbols b symbolSection strings) (SymbolsInside b symbolSection strings)
      (loadedSymbols b symbolSection strings) := by
  have hloop := Computes.foldlM_range (symbolCount b symbolSection) fun i _ _ =>
    loadSymbol_computes (b := b) (some strings)
      (SectionHeader.fileOffset.get b symbolSection) i
  refine Computes.congr (Field.read_computes.bind fun _ => Computes.ite (fun _ => .pure _) fun _ =>
    Field.read_computes.bind fun _ => Computes.ite (fun _ => .pure _) fun _ =>
    Field.read_computes.bind fun _ => Field.read_computes.bind fun _ => .guard fun _ => hloop) ?_
  constructor
  · rintro ⟨hsize, -, hrest⟩
    refine ⟨hsize, fun hne => (hrest hne).1, fun hne hne' => ?_⟩
    obtain ⟨hoffset, hentry, hzero, hsymbols⟩ := (hrest hne).2.2 hne'
    exact ⟨hoffset, hentry, hzero, hsymbols⟩
  · rintro ⟨hsize, hstrings, htable⟩
    refine ⟨hsize, fun _ => trivial, fun hne => ⟨hstrings hne, fun _ => trivial, fun hne' => ?_⟩⟩
    obtain ⟨hoffset, hentry, hzero, hsymbols⟩ := htable hne hne'
    exact ⟨hoffset, hentry, hzero, hsymbols⟩

/-- The symbols after `Parse`. -/
def parsedSymbols (b : Buffer) (s : Sections) : SymbolTable :=
  match s.symbolSection, s.stringSection with
  | some symbolSection, some strings => loadedSymbols b symbolSection strings
  | _, _ => fun _ => none

theorem parseSymbols_computes (s : Sections) :
    Computes (parseSymbols b s)
      (∀ symbolSection strings, s.symbolSection = some symbolSection →
        s.stringSection = some strings → SymbolsInside b symbolSection strings)
      (parsedSymbols b s) := by
  rw [parseSymbols, parsedSymbols]
  cases s.symbolSection with
  | none => exact (Computes.pure _).congr ⟨fun _ _ _ h => absurd h nofun, fun _ => trivial⟩
  | some symbolSection =>
    cases s.stringSection with
    | none => exact (Computes.pure _).congr ⟨fun _ _ _ _ h => absurd h nofun, fun _ => trivial⟩
    | some strings =>
      refine (loadSymbols_computes symbolSection strings).congr ⟨fun hin _ _ h h' => ?_, ?_⟩
      · rwa [← Option.some.inj h, ← Option.some.inj h']
      · exact fun hin => hin symbolSection strings rfl rfl

/-! ## Program headers -/

section Programs

variable (b : Buffer) (h : Header)

/-- The type of a program header. -/
def programType (i : ℕ) : ℕ := ProgramHeader.type.get b (h.programHeader i)

/-- The program header lies in the image, as far as `Parse` reads it, and so does the path of an
interpreter. -/
structure ProgramInside (i : ℕ) : Prop where
  type : ProgramHeader.type.Inside b (h.programHeader i)
  virtualAddress : programType b h i = 6 →
    ProgramHeader.virtualAddress.Inside b (h.programHeader i)
  interpreter : programType b h i = 3 →
    ProgramHeader.segmentSizeInFile.Inside b (h.programHeader i) ∧
      ProgramHeader.fileOffset.Inside b (h.programHeader i) ∧
        b.CopyInside (ProgramHeader.fileOffset.get b (h.programHeader i))
          (ProgramHeader.segmentSizeInFile.get b (h.programHeader i))

/-- What `Parse` has taken from the first `n` program headers. -/
def programsBefore (loadBase : ℕ) : (n : ℕ) → Programs
  | 0 => {}
  | n + 1 =>
    let current := h.programHeader n
    let p := programsBefore loadBase n
    if programType b h n = 6 then
      { p with
        programHeaderAddress :=
          some (offset (ProgramHeader.virtualAddress.get b current) loadBase) }
    else if programType b h n = 3 then
      { p with
        interpreterPath := b.slice (ProgramHeader.fileOffset.get b current)
          (ProgramHeader.segmentSizeInFile.get b current) }
    else p

end Programs

/-- A copy from the image is short enough for the byte behind it to be counted. -/
theorem Buffer.CopyInside.le_room {start count : ℕ} (hcopy : b.CopyInside start count) :
    count ≤ offset count 1 - 1 := by
  rcases hcopy with rfl | hin
  · exact Nat.zero_le _
  · have hraw := b.raw_pos
    have hsize := b.raw_add_size_lt
    have hend : start + count ≤ b.size := hin
    rw [offset_of_lt (by omega)]
    omega

theorem parseProgramHeader_computes (loadBase i : ℕ) :
    Computes (parseProgramHeader b h loadBase (programsBefore b h loadBase i) i)
      (ProgramInside b h i) (programsBefore b h loadBase (i + 1)) := by
  refine Computes.congr (Field.read_computes.bind fun _ => Computes.ite
    (fun _ => Field.read_computes.bind fun _ => .pure _) fun _ => Computes.ite
    (fun _ => Field.read_computes.bind fun _ => Field.read_computes.bind fun _ =>
      Buffer.copy_computes.bind fun _ => .pure _) fun _ => .pure _) ?_
  constructor
  · rintro ⟨htype, haddress, hrest⟩
    refine ⟨htype, fun h6 => (haddress h6).1, fun h3 => ?_⟩
    obtain ⟨hsize, hoffset, ⟨hcopy, -⟩, -⟩ :=
      (hrest (show ¬programType b h i = 6 by omega)).1 h3
    exact ⟨hsize, hoffset, hcopy⟩
  · rintro ⟨htype, haddress, hinterpreter⟩
    refine ⟨htype, fun h6 => ⟨haddress h6, trivial⟩, fun _ => ⟨fun h3 => ?_, fun _ => trivial⟩⟩
    obtain ⟨hsize, hoffset, hcopy⟩ := hinterpreter h3
    exact ⟨hsize, hoffset, ⟨hcopy, hcopy.le_room⟩, trivial⟩

/-! ## The whole image -/

/-- What `Parse` uses of an image with a valid header lies inside it. -/
structure ParseInside (b : Buffer) (h : Header) : Prop where
  sections : ∀ i < h.sectionEntryCount, SectionInside b h i
  symbols : ∀ symbolSection strings, lastSection b h 2 h.sectionEntryCount = some symbolSection →
    stringsBefore b h h.sectionEntryCount = some strings → SymbolsInside b symbolSection strings
  programs : ∀ i < h.programEntryCount, ProgramInside b h i

/-- What `Parse` makes of an image. -/
def parsedImage (b : Buffer) (loadBase : ℕ) : Image where
  header := b.header
  sections := sectionsBefore b b.header b.header.sectionEntryCount
  symbols := parsedSymbols b (sectionsBefore b b.header b.header.sectionEntryCount)
  programs := programsBefore b b.header loadBase b.header.programEntryCount

theorem parse_computes (loadBase : ℕ) (hsize : 64 ≤ b.size) :
    Computes (parse b loadBase) (b.header.Valid → ParseInside b b.header)
      (if b.header.Valid then .ok (parsedImage b loadBase) else .error .ENOEXEC) := by
  have hprograms := Computes.foldlM_range b.header.programEntryCount fun i _ _ =>
    parseProgramHeader_computes (b := b) (h := b.header) loadBase i
  refine Computes.congr (.guard fun _ => .ite (fun _ => parseSectionHeaders_computes.bind fun _ =>
    (parseSymbols_computes _).bind fun _ => hprograms.bind fun _ => .pure _) fun _ => .pure _) ?_
  constructor
  · rintro ⟨-, h', -⟩ hvalid
    obtain ⟨hsections, hsymbols, hprograms, -⟩ := h' hvalid
    exact ⟨hsections, hsymbols, hprograms⟩
  · refine fun hin => ⟨?_, fun hvalid => ?_, fun _ => trivial⟩
    · exact hsize
    · obtain ⟨hsections, hsymbols, hprograms⟩ := hin hvalid
      exact ⟨hsections, hsymbols, hprograms, trivial⟩

/-- The rest of a loadable program header lies in the image, and so does its part of the file,
which fits the pages of the segment. -/
structure SegmentInside (b : Buffer) (header : ℕ) : Prop where
  virtualAddress : ProgramHeader.virtualAddress.Inside b header
  memorySize : ProgramHeader.segmentSizeInMemory.Inside b header
  fileOffset : ProgramHeader.fileOffset.Inside b header
  fileSize : ProgramHeader.segmentSizeInFile.Inside b header
  data : b.CopyInside (ProgramHeader.fileOffset.get b header)
    (ProgramHeader.segmentSizeInFile.get b header)
  fits :
    let misalign := ProgramHeader.virtualAddress.get b header % PMM.pageSize
    ProgramHeader.segmentSizeInFile.get b header ≤
      divRoundUp (offset (ProgramHeader.segmentSizeInMemory.get b header) misalign) PMM.pageSize *
        PMM.pageSize - misalign

/-- A segment as `LoadImage` copies it. -/
def loadedSegment (b : Buffer) (header : ℕ) : Loaded where
  virtualAddress := ProgramHeader.virtualAddress.get b header
  memorySize := ProgramHeader.segmentSizeInMemory.get b header
  data := b.slice (ProgramHeader.fileOffset.get b header)
    (ProgramHeader.segmentSizeInFile.get b header)

theorem copySegment_computes (header : ℕ) (memoryLeft : Bool) (segments : List Loaded) :
    Computes (copySegment b header memoryLeft segments)
      (ProgramHeader.virtualAddress.Inside b header ∧
        ProgramHeader.segmentSizeInMemory.Inside b header ∧
          (memoryLeft = true → SegmentInside b header))
      (if memoryLeft = true then some (segments ++ [loadedSegment b header]) else none) := by
  refine Computes.congr (Field.read_computes.bind fun _ => Field.read_computes.bind fun _ => .ite
    (fun _ => Field.read_computes.bind fun _ => Field.read_computes.bind fun _ =>
      Buffer.copy_computes.bind fun _ => .pure _) fun _ => .pure _) ?_
  constructor
  · rintro ⟨haddress, hmemory, hrest, -⟩
    refine ⟨haddress, hmemory, fun hleft => ?_⟩
    obtain ⟨hoffset, hsize, ⟨hdata, hfits⟩, -⟩ := hrest hleft
    exact ⟨haddress, hmemory, hoffset, hsize, hdata, hfits⟩
  · rintro ⟨haddress, hmemory, hrest⟩
    refine ⟨haddress, hmemory, fun hleft => ?_, fun _ => trivial⟩
    have hin := hrest hleft
    exact ⟨hin.fileOffset, hin.fileSize, ⟨hin.data, hin.fits⟩, trivial⟩

/-- What `LoadImage` has copied after `n` program headers. -/
def segmentsBefore (b : Buffer) (h : Header) (memoryLeft : ℕ → Bool) : (n : ℕ) →
    Option (List Loaded)
  | 0 => some []
  | n + 1 =>
    match segmentsBefore b h memoryLeft n with
    | none => none
    | some segments =>
      if programType b h n = 1 then
        if memoryLeft n = true then some (segments ++ [loadedSegment b (h.programHeader n)])
        else none
      else some segments

/-- What one turn of the loop needs to lie inside the image. -/
def TurnInside (b : Buffer) (h : Header) (memoryLeft : ℕ → Bool) (i : ℕ) : Prop :=
  (segmentsBefore b h memoryLeft i).isSome → ProgramHeader.type.Inside b (h.programHeader i) ∧
    (programType b h i = 1 → ProgramHeader.virtualAddress.Inside b (h.programHeader i) ∧
      ProgramHeader.segmentSizeInMemory.Inside b (h.programHeader i) ∧
        (memoryLeft i = true → SegmentInside b (h.programHeader i)))

theorem loadSegment_computes (memoryLeft : ℕ → Bool) (i : ℕ) :
    Computes (loadSegment b h memoryLeft (segmentsBefore b h memoryLeft i) i)
      (TurnInside b h memoryLeft i) (segmentsBefore b h memoryLeft (i + 1)) := by
  rw [TurnInside, segmentsBefore]
  cases segmentsBefore b h memoryLeft i with
  | none => exact (Computes.pure _).congr ⟨fun _ h' => absurd h' nofun, fun _ => trivial⟩
  | some segments =>
    refine Computes.congr (Field.read_computes.bind fun _ => .ite
      (fun _ => copySegment_computes _ _ _) fun _ => .pure _) ?_
    constructor
    · rintro ⟨htype, hrest, -⟩ _
      exact ⟨htype, hrest⟩
    · intro hin
      obtain ⟨htype, hrest⟩ := hin rfl
      exact ⟨htype, hrest, fun _ => trivial⟩

theorem loadImage_computes (loadBase : ℕ) (memoryLeft : ℕ → Bool) (hsize : 64 ≤ b.size) :
    Computes (loadImage b loadBase memoryLeft)
      (b.header.Valid → ParseInside b b.header ∧
        ∀ i < b.header.programEntryCount, TurnInside b b.header memoryLeft i)
      (if b.header.Valid then
        .ok (parsedImage b loadBase,
          segmentsBefore b b.header memoryLeft b.header.programEntryCount)
      else .error .ENOEXEC) := by
  have hparse := parse_computes (b := b) loadBase hsize
  by_cases hvalid : b.header.Valid
  · rw [if_pos hvalid] at hparse ⊢
    have hloop := Computes.foldlM_range b.header.programEntryCount fun i _ _ =>
      loadSegment_computes (b := b) (h := b.header) memoryLeft i
    refine Computes.congr (hparse.bind fun _ => hloop.bind fun _ => .pure _) ?_
    constructor
    · rintro ⟨hin, hturns, -⟩ _
      exact ⟨hin hvalid, hturns⟩
    · intro hin
      exact ⟨fun _ => (hin hvalid).1, (hin hvalid).2, trivial⟩
  · rw [if_neg hvalid] at hparse ⊢
    refine Computes.congr (hparse.bind fun _ => .pure _) ?_
    exact ⟨fun _ hv => absurd hv hvalid, fun _ => ⟨fun hv => absurd hv hvalid, trivial⟩⟩

/-- All that `LoadImage` uses of an image lies inside it. -/
structure Contained (b : Buffer) : Prop extends ParseInside b b.header where
  segments : ∀ i < b.header.programEntryCount, programType b b.header i = 1 →
    SegmentInside b (b.header.programHeader i)

/-- However the allocations go, the image is loaded without a fault, and a header that fails the
checks gives `ENOEXEC`. -/
def LoadsSafely (b : Buffer) (loadBase : ℕ) : Prop :=
  ∀ memoryLeft : ℕ → Bool, (∃ r, loadImage b loadBase memoryLeft = .ok r) ∧
    (¬b.header.Valid → loadImage b loadBase memoryLeft = .ok (.error .ENOEXEC))

theorem isSome_segmentsBefore (h : Header) (n : ℕ) :
    (segmentsBefore b h (fun _ => true) n).isSome := by
  induction n with
  | zero => rfl
  | succ n ih =>
    obtain ⟨segments, hsegments⟩ := Option.isSome_iff_exists.mp ih
    simp only [segmentsBefore, hsegments, if_true]
    split
    · rfl
    · rfl

/-- A file is loaded without a fault exactly if its header fails the checks or all that is used of
it lies inside. -/
theorem loadsSafely_iff (file : List UInt8) (rest : ℕ → UInt8) (raw loadBase : ℕ) (hraw : 0 < raw)
    (hsize : raw + (file.length + 100) < wordCount) :
    LoadsSafely (.ofFile file rest raw hraw hsize) loadBase ↔
      ((Buffer.ofFile file rest raw hraw hsize).header.Valid →
        Contained (.ofFile file rest raw hraw hsize)) := by
  have hlarge : 64 ≤ (Buffer.ofFile file rest raw hraw hsize).size :=
    Nat.le_trans (by decide) (Nat.le_add_left 100 file.length)
  generalize Buffer.ofFile file rest raw hraw hsize = b at hlarge ⊢
  have hcomputes := fun memoryLeft => loadImage_computes (b := b) loadBase memoryLeft hlarge
  constructor
  · intro hsafe hvalid
    obtain ⟨hin, hturns⟩ := (hcomputes _).isOk_iff.mp (hsafe fun _ => true).1 hvalid
    exact ⟨hin, fun i hi h1 =>
      ((hturns i hi (isSome_segmentsBefore b.header i)).2 h1).2.2 rfl⟩
  · intro hin memoryLeft
    have hok := (hcomputes memoryLeft).ok fun hvalid =>
      ⟨(hin hvalid).toParseInside, fun i hi _ => ⟨((hin hvalid).programs i hi).type, fun h1 =>
        have hsegment := (hin hvalid).segments i hi h1
        ⟨hsegment.virtualAddress, hsegment.memorySize, fun _ => hsegment⟩⟩⟩
    refine ⟨⟨_, hok⟩, fun hvalid => ?_⟩
    rw [hok, if_neg hvalid]

/-- An ELF header for x86-64 with one section, whose header would stand at 0x1000. -/
def headerOnly : List UInt8 :=
  [0x7f, 0x45, 0x4c, 0x46, 2, 1, 1, 0, 0, 0, 0, 0, 0, 0, 0, 0,
    2, 0, 0x3e, 0, 1, 0, 0, 0, 0, 0x10, 0x40, 0, 0, 0, 0, 0,
    0, 0, 0, 0, 0, 0, 0, 0, 0, 0x10, 0, 0, 0, 0, 0, 0,
    0, 0, 0, 0, 64, 0, 56, 0, 0, 0, 64, 0, 1, 0, 0, 0]

/-- The section table of a file of 64 bytes is looked for behind the buffer. -/
theorem not_loadsSafely_headerOnly :
    ¬LoadsSafely (.ofFile headerOnly (fun _ => 0) 0x1000 (by decide) (by decide)) 0 := by
  intro hsafe
  obtain ⟨r, hr⟩ := (hsafe fun _ => true).1
  have hfault : loadImage (.ofFile headerOnly (fun _ => 0) 0x1000 (by decide) (by decide)) 0
      (fun _ => true) = .error (.outside 0x1004 4) := rfl
  cases hfault.symm.trans hr

/-- A file with a segment of four bytes, a string table, and a symbol table with the symbol `f`. -/
def smallProgram : List UInt8 :=
  [0x7f, 0x45, 0x4c, 0x46, 2, 1, 1, 0, 0, 0, 0, 0, 0, 0, 0, 0,
    2, 0, 0x3e, 0, 1, 0, 0, 0, 0, 0, 0x40, 0, 0, 0, 0, 0,
    64, 0, 0, 0, 0, 0, 0, 0, 120, 0, 0, 0, 0, 0, 0, 0,
    0, 0, 0, 0, 64, 0, 56, 0, 1, 0, 64, 0, 2, 0, 0, 0] ++
  -- the program header
  [1, 0, 0, 0, 5, 0, 0, 0, 0x14, 1, 0, 0, 0, 0, 0, 0, 0, 0, 0x40, 0, 0, 0, 0, 0,
    0, 0, 0x40, 0, 0, 0, 0, 0, 4, 0, 0, 0, 0, 0, 0, 0, 16, 0, 0, 0, 0, 0, 0, 0,
    0, 0x10, 0, 0, 0, 0, 0, 0] ++
  -- the headers of the sections
  [0, 0, 0, 0, 3, 0, 0, 0] ++ List.replicate 16 0 ++ [248, 0, 0, 0, 0, 0, 0, 0, 4] ++
  List.replicate 31 0 ++
  [0, 0, 0, 0, 2, 0, 0, 0] ++ List.replicate 16 0 ++ [252, 0, 0, 0, 0, 0, 0, 0, 24] ++
  List.replicate 23 0 ++ [24, 0, 0, 0, 0, 0, 0, 0] ++
  -- the strings, the symbol, and the segment
  [0, 0x66, 0, 0] ++
  [1, 0, 0, 0, 0x12, 0, 1, 0, 0, 0, 0x40, 0, 0, 0, 0, 0, 4, 0, 0, 0, 0, 0, 0, 0] ++
  [0x90, 0x90, 0x90, 0xc3]

theorem smallProgram_fits : 0x1000 + (smallProgram.length + 100) < wordCount := by decide +kernel

/-- It is loaded, with its segment and its symbol. -/
theorem smallProgram_loaded :
    ((loadImage (.ofFile smallProgram (fun _ => 0) 0x1000 (by decide) smallProgram_fits) 0
      fun _ => true).map fun r => r.map fun (image, segments) =>
        (image.symbols [0x66], segments.map (·.map Loaded.data))) =
      .ok (.ok (some 0x400000, some [[0x90, 0x90, 0x90, 0xc3]])) := by
  decide +kernel

theorem loadsSafely_smallProgram :
    LoadsSafely (.ofFile smallProgram (fun _ => 0) 0x1000 (by decide) smallProgram_fits) 0 := by
  refine (loadsSafely_iff _ _ _ _ (by decide) smallProgram_fits).mpr fun hvalid => ?_
  have hloaded := smallProgram_loaded
  have hlarge : 64 ≤ smallProgram.length + 100 := by omega
  have hcomputes := loadImage_computes
    (b := .ofFile smallProgram (fun _ => 0) 0x1000 (by decide) smallProgram_fits) 0
    (fun _ => true) hlarge
  cases hrun : loadImage (.ofFile smallProgram (fun _ => 0) 0x1000 (by decide) smallProgram_fits) 0
      fun _ => true with
  | error e =>
    rw [hrun] at hloaded
    cases hloaded
  | ok r =>
    obtain ⟨hin, hturns⟩ := hcomputes.isOk_iff.mp ⟨r, hrun⟩ hvalid
    exact ⟨hin, fun i hi h1 => ((hturns i hi (isSome_segmentsBefore _ i)).2 h1).2.2 rfl⟩

end Cryptix.ELF
