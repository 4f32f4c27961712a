import Cryptix.Executable.ImageBounds

/-!
# The names of symbols

The symbols of a symbol table have their names in the string table that the `Link` field of its
section names. `ApplyRelocations` and `ResolveSymbols` of `Kernel/Library/ELF.cpp` look there.
`LoadSymbols` takes the last string table of the file instead, which in most files holds the names
of the sections, and it loads the last symbol table only.

`symbolsNamed_iff` says for which images this makes no difference.
-/

namespace Cryptix.ELF

open Lib

/-- `Image::LookupSymbol`. -/
def Image.lookupSymbol (image : Image) (symbol : List UInt8) : Option ℕ := image.symbols symbol

section Names

variable (b : Buffer) (h : Header)

/-- The name of a symbol for `ApplyRelocations` and `ResolveSymbols`, if it ends inside the image:
`strtab + sym.Name` with the string table of the link. -/
def linkedName (symbolSection symbol : ℕ) : Option (List UInt8) :=
  let strtab := SectionHeader.fileOffset.get b
    (h.sectionHeader (SectionHeader.link.get b symbolSection))
  b.string? (offset strtab (Symbol.name.get b symbol))

/-- The symbol number `i` of a symbol table. -/
def symbolOf (symbolSection i : ℕ) : ℕ := symbolAt (SectionHeader.fileOffset.get b symbolSection) i

/-- The symbol is defined and has a name, which is `name`. -/
def Defines (symbolSection i : ℕ) (name : List UInt8) : Prop :=
  Symbol.sectionIndex.get b (symbolOf b symbolSection i) ≠ 0 ∧ name ≠ [] ∧
    linkedName b h symbolSection (symbolOf b symbolSection i) = some name

/-- The tables that `LoadSymbols` goes through: the last symbol table and the last string table,
where both are there and neither is empty. -/
def LoadsFrom (symbolSection : ℕ) (strings : ℕ × ℕ) : Prop :=
  lastSection b h 2 h.sectionEntryCount = some symbolSection ∧
    stringsBefore b h h.sectionEntryCount = some strings ∧
      SectionHeader.size.get b symbolSection ≠ 0 ∧ SectionHeader.size.get b strings.1 ≠ 0

/-- Both string tables have the same name for a symbol: at its index, or the empty one where the
last table ends before the index. -/
def SameName (symbolSection i : ℕ) (strings : ℕ × ℕ) : Prop :=
  let index := Symbol.name.get b (symbolOf b symbolSection i)
  linkedName b h symbolSection (symbolOf b symbolSection i) =
    if offset b.raw strings.2 = 0 ∨ SectionHeader.size.get b strings.1 ≤ index then some []
    else b.string? (offset strings.2 index)

instance (symbolSection i : ℕ) (strings : ℕ × ℕ) :
    Decidable (SameName b h symbolSection i strings) :=
  inferInstanceAs (Decidable (_ = _))

end Names

/-- `LoadSymbols` uses the names that the other functions use, and every symbol of a symbol table
that is defined and has a name is found under it. -/
structure SymbolsNamed (b : Buffer) (image : Image) : Prop where
  names : ∀ symbolSection strings, LoadsFrom b image.header symbolSection strings →
    ∀ i < symbolCount b symbolSection,
      linkedName b image.header symbolSection (symbolOf b symbolSection i) =
        some (lookupName b (some strings) (Symbol.name.get b (symbolOf b symbolSection i)))
  found : ∀ j < image.header.sectionEntryCount, sectionType b image.header j = 2 →
    ∀ i < SectionHeader.size.get b (image.header.sectionHeader j) / Symbol.size, ∀ name,
      Defines b image.header (image.header.sectionHeader j) i name →
        (image.lookupSymbol name).isSome

/-- What makes it so: the last string table has the names of the last symbol table as its link has
them, and the other symbol tables define no names but those that the last one defines. -/
structure LastTablesSuffice (b : Buffer) (h : Header) : Prop where
  names : ∀ symbolSection strings, LoadsFrom b h symbolSection strings →
    ∀ i < symbolCount b symbolSection, SameName b h symbolSection i strings
  defined : ∀ j < h.sectionEntryCount, sectionType b h j = 2 →
    ∀ i < SectionHeader.size.get b (h.sectionHeader j) / Symbol.size, ∀ name,
      Defines b h (h.sectionHeader j) i name →
        ∃ symbolSection strings, LoadsFrom b h symbolSection strings ∧
          ∃ k < symbolCount b symbolSection, Defines b h symbolSection k name

/-! ## What `LoadSymbols` finds -/

variable {b : Buffer}

theorem isSome_symbolsBefore_iff {strings : Option (ℕ × ℕ)} {symbolTable n : ℕ}
    {name : List UInt8} :
    (symbolsBefore b strings symbolTable n name).isSome ↔
      ∃ i < n, Symbol.sectionIndex.get b (symbolAt symbolTable i) ≠ 0 ∧ name ≠ [] ∧
        lookupName b strings (Symbol.name.get b (symbolAt symbolTable i)) = name := by
  induction n with
  | zero => exact iff_of_false Bool.false_ne_true fun ⟨i, hi, _⟩ => Nat.not_lt_zero i hi
  | succ n ih =>
    rw [symbolsBefore]
    constructor
    · intro hsome
      by_cases hskip : Symbol.sectionIndex.get b (symbolAt symbolTable n) = 0 ∨
          lookupName b strings (Symbol.name.get b (symbolAt symbolTable n)) = []
      · rw [if_pos hskip, ih] at hsome
        obtain ⟨i, hi, hdefined⟩ := hsome
        exact ⟨i, Nat.lt_succ_of_lt hi, hdefined⟩
      · rw [if_neg hskip] at hsome
        obtain ⟨hindex, hname⟩ := not_or.mp hskip
        by_cases heq : name = lookupName b strings (Symbol.name.get b (symbolAt symbolTable n))
        · exact ⟨n, Nat.lt_succ_self n, hindex, heq ▸ hname, heq.symm⟩
        · rw [Function.update_of_ne heq, ih] at hsome
          obtain ⟨i, hi, hdefined⟩ := hsome
          exact ⟨i, Nat.lt_succ_of_lt hi, hdefined⟩
    · rintro ⟨i, hi, hindex, hne, hname⟩
      by_cases hskip : Symbol.sectionIndex.get b (symbolAt symbolTable n) = 0 ∨
          lookupName b strings (Symbol.name.get b (symbolAt symbolTable n)) = []
      · rw [if_pos hskip, ih]
        refine ⟨i, Nat.lt_of_le_of_ne (Nat.lt_succ_iff.mp hi) ?_, hindex, hne, hname⟩
        rintro rfl
        rcases hskip with hzero | hempty
        · exact hindex hzero
        · exact hne (hname.symm.trans hempty)
      · rw [if_neg hskip]
        by_cases heq : name = lookupName b strings (Symbol.name.get b (symbolAt symbolTable n))
        · rw [heq, Function.update_self]
          rfl
        · rw [Function.update_of_ne heq, ih]
          refine ⟨i, Nat.lt_of_le_of_ne (Nat.lt_succ_iff.mp hi) ?_, hindex, hne, hname⟩
          rintro rfl
          exact heq hname.symm

variable {h : Header} {symbolSection : ℕ} {strings : ℕ × ℕ} {image : Image} {loadBase : ℕ}

/-- What a successful `Parse` says about the image. -/
theorem parse_eq_ok (hparse : parse b loadBase = .ok (.ok image)) :
    ParseInside b b.header ∧ image = parsedImage b loadBase := by
  by_cases hsize : 64 ≤ b.size
  · have hcomputes := parse_computes (b := b) loadBase hsize
    have hin := hcomputes.isOk_iff.mp ⟨_, hparse⟩
    have heq := Except.ok.inj (hparse.symm.trans (hcomputes.ok hin))
    by_cases hvalid : b.header.Valid
    · rw [if_pos hvalid] at heq
      exact ⟨hin hvalid, Except.ok.inj heq⟩
    · rw [if_neg hvalid] at heq
      cases heq
  · have hfault : parse b loadBase = .error (.outside 0 64) :=
      if_neg fun hin => hsize ((Nat.zero_add 64).symm.le.trans hin)
    cases hfault.symm.trans hparse

/-- The names are found that some symbol of the table gone through has. -/
theorem isSome_parsedSymbols_iff {name : List UInt8} :
    (parsedSymbols b (sectionsBefore b h h.sectionEntryCount) name).isSome ↔
      ∃ symbolSection strings, LoadsFrom b h symbolSection strings ∧
        (symbolsBefore b (some strings) (SectionHeader.fileOffset.get b symbolSection)
          (symbolCount b symbolSection) name).isSome := by
  simp only [parsedSymbols, sectionsBefore, LoadsFrom]
  cases lastSection b h 2 h.sectionEntryCount with
  | none =>
    refine iff_of_false Bool.false_ne_true ?_
    rintro ⟨_, _, hfrom, _⟩
    cases hfrom.1
  | some symbolSection =>
    cases stringsBefore b h h.sectionEntryCount with
    | none =>
      refine iff_of_false Bool.false_ne_true ?_
      rintro ⟨_, _, hfrom, _⟩
      cases hfrom.2.1
    | some strings =>
      simp only [loadedSymbols]
      constructor
      · intro hsome
        by_cases hsize : SectionHeader.size.get b symbolSection = 0
        · rw [if_pos hsize] at hsome
          cases hsome
        · by_cases hstrings : SectionHeader.size.get b strings.1 = 0
          · rw [if_neg hsize, if_pos hstrings] at hsome
            cases hsome
          · rw [if_neg hsize, if_neg hstrings] at hsome
            exact ⟨symbolSection, strings, ⟨rfl, rfl, hsize, hstrings⟩, hsome⟩
      · rintro ⟨_, _, ⟨h₁, h₂, hsize, hstrings⟩, hsome⟩
        obtain rfl := Option.some.inj h₁
        obtain rfl := Option.some.inj h₂
        rwa [if_neg hsize, if_neg hstrings]

/-- Inside an image that was parsed, the name that `LoadSymbols` uses is the linked one exactly if
the two string tables agree on it. -/
theorem sameName_iff (hin : ParseInside b h) (hfrom : LoadsFrom b h symbolSection strings) {i : ℕ}
    (hi : i < symbolCount b symbolSection) :
    SameName b h symbolSection i strings ↔
      linkedName b h symbolSection (symbolOf b symbolSection i) =
        some (lookupName b (some strings) (Symbol.name.get b (symbolOf b symbolSection i))) := by
  obtain ⟨hsymbols, hstrings, hsize, hsize'⟩ := hfrom
  have hlookup := (((hin.symbols _ _ hsymbols hstrings).table hsize hsize').symbols i hi).lookup
  rw [SameName]
  refine Eq.congr_right ?_
  simp only [lookupName]
  by_cases hnull : offset b.raw strings.2 = 0
  · rw [if_pos (.inl hnull), if_pos hnull]
  · rw [if_neg hnull]
    by_cases hlong : SectionHeader.size.get b strings.1 ≤
        Symbol.name.get b (symbolOf b symbolSection i)
    · rw [if_pos (.inr hlong), if_pos hlong]
    · have hends := (hlookup _ _ rfl hnull).2 (Nat.not_le.mp hlong)
      obtain ⟨str, hstr⟩ := Option.isSome_iff_exists.mp (Buffer.isSome_string?_iff.mpr hends)
      rw [if_neg (not_or.mpr ⟨hnull, hlong⟩), if_neg hlong]
      exact hstr.trans (congrArg some (congrArg (Option.getD · []) hstr).symm)

/-- `LoadSymbols` names and finds the symbols of an image as the other functions do exactly if the
last string table has the linked names of the last symbol table and that table defines all names. -/
theorem symbolsNamed_iff (hparse : parse b loadBase = .ok (.ok image)) :
    SymbolsNamed b image ↔ LastTablesSuffice b b.header := by
  obtain ⟨hin, rfl⟩ := parse_eq_ok hparse
  have hfound := @isSome_parsedSymbols_iff b b.header
  -- where the names agree, the symbols found are those that the last table defines
  have hdefines : ∀ {symbolSection strings}, LoadsFrom b b.header symbolSection strings →
      (∀ i < symbolCount b symbolSection, SameName b b.header symbolSection i strings) → ∀ name,
      (symbolsBefore b (some strings) (SectionHeader.fileOffset.get b symbolSection)
        (symbolCount b symbolSection) name).isSome ↔
      ∃ k < symbolCount b symbolSection, Defines b b.header symbolSection k name := by
    intro symbolSection strings hfrom hsame name
    rw [isSome_symbolsBefore_iff]
    refine exists_congr fun k => and_congr_right fun hk => ?_
    have hlinked := (sameName_iff hin hfrom hk).mp (hsame k hk)
    rw [Defines, hlinked, Option.some.injEq]
    exact Iff.rfl
  constructor
  · intro hnamed
    have hsame : ∀ symbolSection strings, LoadsFrom b b.header symbolSection strings →
        ∀ i < symbolCount b symbolSection, SameName b b.header symbolSection i strings :=
      fun _ _ hfrom i hi => (sameName_iff hin hfrom hi).mpr (hnamed.names _ _ hfrom i hi)
    refine ⟨hsame, fun j hj htype i hi name hdef => ?_⟩
    obtain ⟨symbolSection, strings, hfrom, hsome⟩ :=
      hfound.mp (hnamed.found j hj htype i hi name hdef)
    exact ⟨symbolSection, strings, hfrom, (hdefines hfrom (hsame _ _ hfrom) name).mp hsome⟩
  · intro hlast
    refine ⟨fun _ _ hfrom i hi => (sameName_iff hin hfrom hi).mp (hlast.names _ _ hfrom i hi),
      fun j hj htype i hi name hdef => ?_⟩
    obtain ⟨symbolSection, strings, hfrom, hdefined⟩ := hlast.defined j hj htype i hi name hdef
    exact hfound.mpr ⟨symbolSection, strings, hfrom,
      (hdefines hfrom (hlast.names _ _ hfrom) name).mpr hdefined⟩

/-- An image of 286 bytes, of which these are not zero: the header, a symbol table of one symbol,
named at index 1 of the string table `link`, and two string tables, with `f` and `g` there. -/
def oneSymbol (link : UInt8) : Buffer where
  bytes i := (([(0, 0x7f), (1, 0x45), (2, 0x4c), (3, 0x46), (4, 2), (5, 1), (6, 1), (18, 0x3e),
    (20, 1), (40, 64), (58, 64), (60, 3),
    (68, 2), (89, 1), (96, 24), (104, link), (120, 24),
    (132, 3), (152, 24), (153, 1), (160, 3),
    (196, 3), (216, 27), (217, 1), (224, 3),
    (256, 1), (262, 1), (264, 0x10), (281, 0x66), (284, 0x67)] : List (ℕ × UInt8)).lookup i).getD 0
  size := 386
  raw := 0x1000
  raw_pos := Memory.PMM.pageSize_pos
  raw_add_size_lt := by decide

/-- Linked to the first string table, the symbol is called `f`, and it is loaded as `g`. -/
theorem not_symbolsNamed_link_first : ¬∀ (b : Buffer) (loadBase : ℕ) (image : Image),
    parse b loadBase = .ok (.ok image) → SymbolsNamed b image := by
  intro hall
  have hnamed := hall (oneSymbol 1) 0 (parsedImage (oneSymbol 1) 0) rfl
  have hfound := hnamed.found 0 (by decide) (by decide) 0 (by decide) [0x66]
    ⟨by decide, by decide, by decide⟩
  exact absurd hfound (by decide)

/-- Linked to the last string table, it is found as `g`. -/
theorem symbolsNamed_link_last :
    SymbolsNamed (oneSymbol 2) (parsedImage (oneSymbol 2) 0) := by
  have hlast : ∀ symbolSection strings,
      LoadsFrom (oneSymbol 2) (oneSymbol 2).header symbolSection strings →
        symbolSection = 64 ∧ strings = (192, 283) := fun _ _ hfrom =>
    ⟨(Option.some.inj hfrom.1).symm, (Option.some.inj hfrom.2.1).symm⟩
  have hloads : LoadsFrom (oneSymbol 2) (oneSymbol 2).header 64 (192, 283) :=
    ⟨by decide, by decide, by decide, by decide⟩
  have hparse : parse (oneSymbol 2) 0 = .ok (.ok (parsedImage (oneSymbol 2) 0)) := rfl
  refine (symbolsNamed_iff hparse).mpr
    ⟨fun _ _ hfrom i hi => ?_, fun j hj htype i hi name hdef => ?_⟩
  · obtain ⟨rfl, rfl⟩ := hlast _ _ hfrom
    obtain rfl : i = 0 := Nat.lt_one_iff.mp hi
    decide
  · -- the only symbol table is the first section
    have hfirst : ∀ j < 3, sectionType (oneSymbol 2) (oneSymbol 2).header j = 2 → j = 0 := by decide
    obtain rfl := hfirst j hj htype
    exact ⟨64, (192, 283), hloads, i, hi, hdef⟩

end Cryptix.ELF
