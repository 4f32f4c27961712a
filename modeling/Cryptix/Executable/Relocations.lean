import Cryptix.Executable.Image

/-!
# Relocations

`Image::ApplyRelocations` of `Kernel/Library/ELF.cpp`. The relocations of a section are written into
the image itself, so the bytes that later entries and sections are read from may have changed: the
loops carry the image along. A section index that is not below the number of sections and a write
outside the image are violations here. What is read outside the image is whatever stands there.

`relocatesInside_iff` says which images are relocated without one.
-/

namespace Cryptix.ELF

open Lib

/-- What a relocation must not do. -/
inductive Violation
  | sectionIndex (index : ℕ)
  | write (start count : ℕ)
  deriving DecidableEq, Repr

/-- A step that returns whether to go on, or `ENOEXEC`, and the image. -/
abbrev Relocating := Except Violation (Bool × Buffer)

namespace Buffer

/-- The string at a position, with all of memory to read. -/
def cString (b : Buffer) (start : ℕ) : List UInt8 :=
  (stringFrom b.bytes (wordCount - start) start).getD []

/-- A write of a number. -/
def write (b : Buffer) (start count v : ℕ) : Buffer :=
  { b with bytes := writeLE b.bytes start count v }

/-- A write of a number that has to lie in the image. -/
def patch (b : Buffer) (start count v : ℕ) : Relocating :=
  if b.Inside start count then .ok (true, b.write start count v) else .error (.write start count)

end Buffer

namespace RelocationEntry

def place : Field := ⟨0, 8⟩
def info : Field := ⟨8, 8⟩
def addend : Field := ⟨16, 8⟩

/-- `sizeof(RelocationEntry)`. -/
def size : ℕ := 24

end RelocationEntry

/-- `SectionHeader(index)`, for an index that has to be below the count. -/
def useSection (h : Header) (index : ℕ) : Except Violation ℕ :=
  if index < h.sectionEntryCount then .ok (h.sectionHeader index) else .error (.sectionIndex index)

/-- What the kernel knows besides the image: the header it has copied, the section of the global
offset table, the load base, and the addresses of the symbols that it exports. -/
structure Linker where
  header : Header
  gotSection : Option ℕ
  loadBase : ℕ
  lookup : List UInt8 → ℕ

/-- The tables of one section of relocations. -/
structure RelocationTables where
  targetBase : ℕ
  symbols : ℕ
  symCount : ℕ
  strtab : ℕ
  relocs : ℕ

/-- What `ApplyRelocations` reads off the headers of a section of relocations, its target, its
symbol table and its string table. -/
def relocationTables (b : Buffer) (relocSection targetSection symtabSection strtabSection : ℕ) :
    RelocationTables where
  targetBase := SectionHeader.fileOffset.get b targetSection
  symbols := SectionHeader.fileOffset.get b symtabSection
  symCount := SectionHeader.size.get b symtabSection / Symbol.size
  strtab := SectionHeader.fileOffset.get b strtabSection
  relocs := SectionHeader.fileOffset.get b relocSection

/-- `_GLOBAL_OFFSET_TABLE_`. -/
def globalOffsetTable : List UInt8 :=
  [0x5f, 0x47, 0x4c, 0x4f, 0x42, 0x41, 0x4c, 0x5f, 0x4f, 0x46, 0x46, 0x53, 0x45, 0x54, 0x5f, 0x54,
    0x41, 0x42, 0x4c, 0x45, 0x5f]

/-- The address of a symbol that the image does not define. -/
def externalAddress (l : Linker) (b : Buffer) (symName : List UInt8) : ℕ :=
  let symAddr := l.lookup symName
  if symAddr = 0 ∧ symName = globalOffsetTable then
    match l.gotSection with
    | some got => offset l.loadBase (SectionHeader.fileOffset.get b got)
    | none => 0
  else symAddr

/-- The address of a symbol, or `none` for a section index that is rejected. -/
def symbolAddress (l : Linker) (t : RelocationTables) (b : Buffer) (sym : ℕ) : Option ℕ :=
  let sectionIndex := Symbol.sectionIndex.get b sym
  if sectionIndex ≠ 0 then
    if sectionIndex ≥ l.header.sectionEntryCount then none
    else
      let defSection := l.header.sectionHeader sectionIndex
      some (offset (offset b.raw (SectionHeader.fileOffset.get b defSection))
        (Symbol.value.get b sym))
  else some (externalAddress l b (b.cString (offset t.strtab (Symbol.name.get b sym))))

/-- The `switch` over the type of a relocation. -/
def patchEntry (b : Buffer) (type patch symAddr addend : ℕ) : Relocating :=
  if type = 1 then b.patch patch 8 (offset symAddr addend)
  else if type = 2 then
    b.patch patch 4 (wordSub (offset symAddr addend) (offset b.raw patch))
  else if type = 8 then b.patch patch 8 (offset b.raw addend)
  else .ok (false, b)

/-- One turn of the loop over the entries of a section. -/
def applyEntry (l : Linker) (t : RelocationTables) (b : Buffer) (r : ℕ) : Relocating :=
  let reloc := offset t.relocs (r * RelocationEntry.size)
  let info := RelocationEntry.info.get b reloc
  let type := info % 2 ^ 32
  let symIndex := info / 2 ^ 32
  let patch := offset t.targetBase (RelocationEntry.place.get b reloc)
  if symIndex ≥ t.symCount then .ok (false, b)
  else
    match symbolAddress l t b (offset t.symbols (symIndex * Symbol.size)) with
    | none => .ok (false, b)
    | some symAddr => patchEntry b type patch symAddr (RelocationEntry.addend.get b reloc)

/-- One turn of the loop over the sections. -/
def applySection (l : Linker) (b : Buffer) (i : ℕ) : Relocating := do
  let relocSection ← useSection l.header i
  if SectionHeader.type.get b relocSection ≠ 4 then .ok (true, b)
  else
    let targetIndex := SectionHeader.info.get b relocSection
    if targetIndex ≥ l.header.sectionEntryCount then .ok (false, b)
    else do
      let targetSection ← useSection l.header targetIndex
      let symtabSection ← useSection l.header (SectionHeader.link.get b relocSection)
      let strtabSection ← useSection l.header (SectionHeader.link.get b symtabSection)
      let tables := relocationTables b relocSection targetSection symtabSection strtabSection
      untilRejected (applyEntry l tables) b
        (List.range (SectionHeader.size.get b relocSection / RelocationEntry.size))

/-- `Image::ApplyRelocations`, with whether it succeeds; else it returns `ENOEXEC`. -/
def applyRelocations (l : Linker) (b : Buffer) : Relocating :=
  untilRejected (applySection l) b (List.range l.header.sectionEntryCount)

/-! ## Relocations that stay inside -/

/-- An entry that is not rejected patches bytes of the image. -/
def EntryFits (l : Linker) (t : RelocationTables) (b : Buffer) (r : ℕ) : Prop :=
  let reloc := offset t.relocs (r * RelocationEntry.size)
  let info := RelocationEntry.info.get b reloc
  let type := info % 2 ^ 32
  let symIndex := info / 2 ^ 32
  let patch := offset t.targetBase (RelocationEntry.place.get b reloc)
  let sectionIndex :=
    Symbol.sectionIndex.get b (offset t.symbols (symIndex * Symbol.size))
  symIndex < t.symCount → sectionIndex = 0 ∨ sectionIndex < l.header.sectionEntryCount →
    (type = 1 ∨ type = 8 → b.Inside patch 8) ∧ (type = 2 → b.Inside patch 4)

/-- The links of a section of relocations name sections, and each of its entries, as it is when its
turn comes, patches bytes of the image. -/
def SectionFits (l : Linker) (b : Buffer) (i : ℕ) : Prop :=
  let count := l.header.sectionEntryCount
  let relocSection := l.header.sectionHeader i
  let target := SectionHeader.info.get b relocSection
  let symtab := SectionHeader.link.get b relocSection
  let strtab := SectionHeader.link.get b (l.header.sectionHeader symtab)
  let tables := relocationTables b relocSection (l.header.sectionHeader target)
    (l.header.sectionHeader symtab) (l.header.sectionHeader strtab)
  SectionHeader.type.get b relocSection = 4 → target < count →
    symtab < count ∧ strtab < count ∧
      EveryTurn (applyEntry l tables) (EntryFits l tables) b
        (List.range (SectionHeader.size.get b relocSection / RelocationEntry.size))

variable {l : Linker} {t : RelocationTables} {b : Buffer}

theorem useSection_computes {h : Header} {index : ℕ} :
    Computes (useSection h index) (index < h.sectionEntryCount) (h.sectionHeader index) :=
  (Computes.guard fun _ => .pure _).congr (iff_of_eq (and_true _))

theorem patch_isOk_iff {start count v : ℕ} :
    (∃ r, b.patch start count v = .ok r) ↔ b.Inside start count :=
  ((Computes.guard fun _ => .pure _).congr (iff_of_eq (and_true _))).isOk_iff

theorem patchEntry_isOk_iff {type patch symAddr addend : ℕ} :
    (∃ r, patchEntry b type patch symAddr addend = .ok r) ↔
      (type = 1 ∨ type = 8 → b.Inside patch 8) ∧ (type = 2 → b.Inside patch 4) := by
  rw [patchEntry]
  by_cases h1 : type = 1
  · rw [if_pos h1, patch_isOk_iff]
    exact ⟨fun hin => ⟨fun _ => hin, fun h2 => by omega⟩, fun h => h.1 (.inl h1)⟩
  · by_cases h2 : type = 2
    · rw [if_neg h1, if_pos h2, patch_isOk_iff]
      exact ⟨fun hin => ⟨fun h8 => by omega, fun _ => hin⟩, fun h => h.2 h2⟩
    · by_cases h8 : type = 8
      · rw [if_neg h1, if_neg h2, if_pos h8, patch_isOk_iff]
        exact ⟨fun hin => ⟨fun _ => hin, fun h2' => absurd h2' h2⟩, fun h => h.1 (.inr h8)⟩
      · rw [if_neg h1, if_neg h2, if_neg h8]
        refine iff_of_true ⟨_, rfl⟩ ⟨fun h => ?_, fun h => absurd h h2⟩
        rcases h with h | h
        · exact absurd h h1
        · exact absurd h h8

/-- A symbol is rejected for a section index that is neither 0 nor below the count. -/
theorem symbolAddress_eq_none_iff {sym : ℕ} :
    symbolAddress l t b sym = none ↔
      ¬(Symbol.sectionIndex.get b sym = 0 ∨
        Symbol.sectionIndex.get b sym < l.header.sectionEntryCount) := by
  simp only [symbolAddress]
  by_cases hzero : Symbol.sectionIndex.get b sym = 0
  · rw [if_neg (not_not.mpr hzero)]
    exact iff_of_false nofun (not_not.mpr (.inl hzero))
  · rw [if_pos hzero]
    by_cases hlarge : Symbol.sectionIndex.get b sym ≥ l.header.sectionEntryCount
    · rw [if_pos hlarge]
      exact iff_of_true rfl (not_or.mpr ⟨hzero, Nat.not_lt.mpr hlarge⟩)
    · rw [if_neg hlarge]
      exact iff_of_false nofun (not_not.mpr (.inr (Nat.not_le.mp hlarge)))

theorem applyEntry_isOk_iff (r : ℕ) :
    (∃ res, applyEntry l t b r = .ok res) ↔ EntryFits l t b r := by
  rw [applyEntry, EntryFits]
  by_cases hindex : RelocationEntry.info.get b (offset t.relocs (r * RelocationEntry.size)) /
      2 ^ 32 ≥ t.symCount
  · rw [if_pos hindex]
    exact iff_of_true ⟨_, rfl⟩ fun hlt => absurd hlt (Nat.not_lt.mpr hindex)
  · rw [if_neg hindex]
    match hsym : symbolAddress l t b (offset t.symbols
        (RelocationEntry.info.get b (offset t.relocs (r * RelocationEntry.size)) / 2 ^ 32 *
          Symbol.size)) with
    | none =>
      exact iff_of_true ⟨_, rfl⟩ fun _ hdefined =>
        absurd hdefined (symbolAddress_eq_none_iff.mp hsym)
    | some symAddr =>
      rw [patchEntry_isOk_iff]
      refine ⟨fun hfits _ _ => hfits, fun hfits => hfits (Nat.not_le.mp hindex) ?_⟩
      by_contra hrejected
      cases hsym.symm.trans (symbolAddress_eq_none_iff.mpr hrejected)

theorem applySection_isOk_iff {i : ℕ} (hi : i < l.header.sectionEntryCount) :
    (∃ r, applySection l b i = .ok r) ↔ SectionFits l b i := by
  rw [applySection, useSection_computes.isOk_bind_iff, and_iff_right hi, SectionFits]
  by_cases htype : SectionHeader.type.get b (l.header.sectionHeader i) = 4
  · rw [if_neg (not_not.mpr htype)]
    by_cases htarget : SectionHeader.info.get b (l.header.sectionHeader i) ≥
        l.header.sectionEntryCount
    · rw [if_pos htarget]
      exact iff_of_true ⟨_, rfl⟩ fun _ hlt => absurd hlt (Nat.not_lt.mpr htarget)
    · have hlt := Nat.not_le.mp htarget
      rw [if_neg htarget, useSection_computes.isOk_bind_iff, and_iff_right hlt,
        useSection_computes.isOk_bind_iff, useSection_computes.isOk_bind_iff,
        untilRejected_isOk_iff b _ fun _ r _ => applyEntry_isOk_iff r]
      exact ⟨fun h _ _ => h, fun h => h htype hlt⟩
  · rw [if_pos htype]
    exact iff_of_true ⟨_, rfl⟩ fun h => absurd h htype

/-- The relocations of an image use no section index from the count on and write inside the image
exactly if that holds of each section when its turn comes. -/
theorem relocatesInside_iff (l : Linker) (b : Buffer) :
    (∃ r, applyRelocations l b = .ok r) ↔
      EveryTurn (applySection l) (SectionFits l) b (List.range l.header.sectionEntryCount) :=
  untilRejected_isOk_iff b _ fun _ _ hi => applySection_isOk_iff (List.mem_range.mp hi)

/-- An image of 128 bytes, of which these are not zero: the header, and one section of relocations
against the symbol table in section 5. -/
def strayLink : Buffer where
  bytes i := (([(0, 0x7f), (1, 0x45), (2, 0x4c), (3, 0x46), (4, 2), (5, 1), (6, 1), (16, 1),
    (18, 0x3e), (20, 1), (40, 64), (58, 64), (60, 1), (68, 4), (104, 5)] :
    List (ℕ × UInt8)).lookup i).getD 0
  size := 228
  raw := 0x1000
  raw_pos := Memory.PMM.pageSize_pos
  raw_add_size_lt := by decide

/-- The header of the missing symbol table is used all the same. -/
theorem not_relocatesInside_strayLink : ¬∀ (l : Linker) (b : Buffer), b.header.Valid →
    l.header = b.header → ∃ r, applyRelocations l b = .ok r := by
  intro hall
  obtain ⟨r, hr⟩ := hall ⟨strayLink.header, none, 0, fun _ => 0⟩ strayLink (by decide) rfl
  have hviolation : applyRelocations ⟨strayLink.header, none, 0, fun _ => 0⟩ strayLink =
      .error (.sectionIndex 5) := rfl
  cases hviolation.symm.trans hr

end Cryptix.ELF
