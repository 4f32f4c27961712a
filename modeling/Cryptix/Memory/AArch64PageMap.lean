import Cryptix.Memory.PageMap

/-!
# Page maps on aarch64

`Kernel/Arch/aarch64/VMM.cpp` and `NextLevel` of `Kernel/Memory/VMM.cpp`. The two halves of the
addresses are translated from two tables, `ttbr0` and `ttbr1`, and bit 63 of an address says which.
`PageMap::PageMap` makes a new `ttbr0` and takes over the `ttbr1` of the kernel's page map, which is
made first.

Bit 1 of a valid entry tells a table from a block in the interior tables, and is set in the entries
of the last one. `Virt2Pte` does not look at it: the size that its caller names decides where it
stops. `half` is the `topLevel` of the `PageMap` that a walk works on.
-/

namespace Cryptix.Memory.AArch64

open Lib
open PageMap (pmlIndex withTable)

/-! ## Flags -/

namespace Flag

def valid : Word := 1 <<< 0
def table : Word := 1 <<< 1
def page : Word := 1 <<< 1
def user : Word := 1 <<< 6
def ro : Word := 1 <<< 7
def access : Word := 1 <<< 10
def notGlobal : Word := 1 <<< 11
def execNever : Word := 1 <<< 54
def inShare : Word := 3 <<< 8
def wb : Word := 0 <<< 2 ||| inShare

/-- `g_DefaultPteFlags`. -/
def defaultFlags : Word := valid ||| table

end Flag

/-- `Arch::VMM::ToNativeFlags`. -/
def toNativeFlags (flags : PageAttributes) : Word :=
  let ret := Flag.valid ||| Flag.access
  let ret := if flags.has PageAttributes.write then ret else ret ||| Flag.ro
  let ret := if flags.has PageAttributes.executable then ret else ret ||| Flag.execNever
  let ret := if flags.has PageAttributes.user then ret ||| Flag.user else ret
  let ret := if flags.has PageAttributes.globalPage then ret else ret ||| Flag.notGlobal
  let ret :=
    if !flags.has PageAttributes.lPage && !flags.has PageAttributes.llPage then ret ||| Flag.page
    else ret
  ret ||| Flag.wb

/-! ## What the CPU offers -/

/-- `pageSize`, as `Arch::VMM::Initialize` finds it. -/
inductive Granule
  | kib4
  | kib16
  | kib64
  deriving DecidableEq, Repr

/-- `vaWidth`. -/
inductive VaWidth
  | bits48
  | bits52
  deriving DecidableEq, Repr

/-- The translation regime; `has1GibPages` is not asked for. -/
structure Regime extends Paging where
  granule : Granule
  vaWidth : VaWidth

namespace Regime

variable (cfg : Regime)

/-- `pteAddressMask`. -/
def addressMask : Word :=
  match cfg.granule, cfg.vaWidth with
  | .kib4, .bits48 => 0x0000fffffffff000
  | .kib16, .bits48 => 0x0000ffffffffc000
  | .kib64, .bits48 => 0x0000ffffffff0000
  | .kib4, .bits52 => 0x0003fffffffff000
  | .kib16, .bits52 => 0x0003ffffffffc000
  | .kib64, .bits52 => 0x0000ffffffff0000

/-- `pageSize`, `lPageSize` and `llPageSize`. -/
def bytes (size : PageSize) : Word :=
  let pageSize : Word :=
    match cfg.granule with
    | .kib4 => 0x1000
    | .kib16 => 0x4000
    | .kib64 => 0x10000
  match size with
  | .page => pageSize
  | .lPage => pageSize * 512
  | .llPage => pageSize * 512 * 512

/-- `PageTableEntry::Address`. -/
def address (e : PageTableEntry) : Word := e &&& cfg.addressMask

/-- `PageTableEntry::SetAddress`. -/
def setAddress (e : PageTableEntry) (a : Word) : PageTableEntry := e &&& ~~~cfg.addressMask ||| a

end Regime

/-- `PageTableEntry::IsValid`. -/
def isValid (e : PageTableEntry) : Bool := e.getFlag Flag.valid

/-! ## Walks -/

section Walks

variable (cfg : Regime)

/-- `PageMap::NextLevel` on the entry `table->entries[i]`. -/
def nextLevel (pm : PageMap) (table : Word) (i : TableIndex) (allocate : Bool) :
    Option Word × PageMap :=
  let e := pm.entry table i
  if isValid e then (some (cfg.toHigherHalf (cfg.address e)), pm)
  else if !allocate then (none, pm)
  else
    let (newEntry, pm) := pm.allocatePageTable
    let e := (cfg.setAddress e (cfg.fromHigherHalf (newEntry.getD 0))).setFlags
      Flag.defaultFlags true
    (newEntry, pm.setEntry table i e)

/-- The table that `Virt2Pte` calls `pml4`. -/
def pml4Table (pm : PageMap) (virt : Word) (allocate : Bool) : Option Word × PageMap :=
  match cfg.mode with
  | .level5 => nextLevel cfg pm pm.topLevel (pmlIndex virt 48) allocate
  | .level4 => (some pm.topLevel, pm)

/-- `PageMap::Virt2Pte` on one half: the table and the index of the entry. -/
def virt2Pte (pm : PageMap) (virt : Word) (allocate : Bool) (pageSize : PageSize) :
    Option (Word × TableIndex) × PageMap :=
  if pm.topLevel = 0 then (none, pm)
  else
    withTable (pml4Table cfg pm virt allocate) fun pml4 pm =>
    withTable (nextLevel cfg pm pml4 (pmlIndex virt 39) allocate) fun pml3 pm =>
    if pageSize = .llPage then (some (pml3, pmlIndex virt 30), pm)
    else
      withTable (nextLevel cfg pm pml3 (pmlIndex virt 30) allocate) fun pml2 pm =>
      if pageSize = .lPage then (some (pml2, pmlIndex virt 21), pm)
      else
        withTable (nextLevel cfg pm pml2 (pmlIndex virt 21) allocate) fun pml1 pm =>
        (some (pml1, pmlIndex virt 12), pm)

/-- `PageMap::Virt2Phys`. -/
def virt2Phys (pm : PageMap) (virt : Word) (flags : PageAttributes) : Word :=
  match (virt2Pte cfg pm virt false (getPageSize flags)).1 with
  | none => BitVec.allOnes 64
  | some (table, i) =>
    let pmlEntry := pm.entry table i
    if !pmlEntry.getFlag Flag.valid then BitVec.allOnes 64
    else cfg.address pmlEntry + virt % cfg.bytes (getPageSize flags)

/-- An entry with a new address and new flags. -/
def makeEntry (a : Word) (flags : PageAttributes) : PageTableEntry :=
  (cfg.setAddress 0 a).setFlags (toNativeFlags flags) true

/-- `PageMap::InternalMap`. -/
def internalMap (pm : PageMap) (virt phys : Word) (flags : PageAttributes) : Bool × PageMap :=
  match virt2Pte cfg pm virt true (getPageSize flags) with
  | (none, pm) => (false, pm)
  | (some (table, i), pm) => (true, pm.setEntry table i (makeEntry cfg phys flags))

/-- `PageMap::InternalUnmap`. -/
def internalUnmap (pm : PageMap) (virt : Word) (flags : PageAttributes) : Bool × PageMap :=
  match virt2Pte cfg pm virt false (getPageSize flags) with
  | (none, pm) => (false, pm)
  | (some (table, i), pm) => (true, pm.setEntry table i 0)

/-- `PageMap::SetFlags`. -/
def setFlags (pm : PageMap) (virt : Word) (flags : PageAttributes) : Bool × PageMap :=
  match virt2Pte cfg pm virt false (getPageSize flags) with
  | (none, pm) => (false, pm)
  | (some (table, i), pm) =>
    (true, pm.setEntry table i (makeEntry cfg (cfg.address (pm.entry table i)) flags))

end Walks

/-! ## All page maps -/

/-- `PageTable`: the tables of the two halves. -/
structure PageTable where
  ttbr0 : Word
  ttbr1 : Word

/-- `virt & (1ull << 63ull) ? ttbr1 : ttbr0`. -/
def PageTable.half (topLevel : PageTable) (virt : Word) : Word :=
  if virt.msb then topLevel.ttbr1 else topLevel.ttbr0

/-- The page tables, the memory that is left for them, and the page maps, the kernel's first. -/
structure PageMaps where
  tables : Radix.Heap Word TableIndex PageTableEntry
  supply : List Word
  pageMaps : List PageTable

namespace PageMaps

/-- Before the kernel's page map is made. -/
def boot (supply : List Word) : PageMaps := ⟨fun _ => none, supply, []⟩

/-- The page map whose walks begin at `half`. -/
def walkedFrom (s : PageMaps) (half : Word) : PageMap := ⟨s.tables, half, s.supply⟩

/-- The tables and the memory after an operation. -/
def withTables (s : PageMaps) (pm : PageMap) : PageMaps :=
  { s with tables := pm.tables, supply := pm.supply }

/-- `new TTBR`, null when the memory is exhausted. -/
def newTTBR (s : PageMaps) : Word × PageMaps :=
  match s.supply with
  | [] => (0, s)
  | ttbr :: supply => (ttbr, { s with tables := Radix.alloc s.tables ttbr 0, supply := supply })

/-- `PageMap::PageMap`. -/
def newPageMap (s : PageMaps) : PageMaps :=
  let (ttbr0, s) := s.newTTBR
  match s.pageMaps.head? with
  | none =>
    let (ttbr1, s) := s.newTTBR
    { s with pageMaps := [⟨ttbr0, ttbr1⟩] }
  | some kernel => { s with pageMaps := s.pageMaps ++ [⟨ttbr0, kernel.ttbr1⟩] }

/-- An operation at an address in the `n`-th page map. -/
inductive Operation
  | internalMap (phys : Word)
  | internalUnmap
  | setFlags

/-- What the kernel asks of the page maps. -/
inductive Call
  | newPageMap
  | operation (n : ℕ) (virt : Word) (flags : PageAttributes) (op : Operation)

/-- One of the three operations on a page map. -/
def Operation.run (cfg : Regime) (pm : PageMap) (virt : Word) (flags : PageAttributes) :
    Operation → Bool × PageMap
  | .internalMap phys => AArch64.internalMap cfg pm virt phys flags
  | .internalUnmap => AArch64.internalUnmap cfg pm virt flags
  | .setFlags => AArch64.setFlags cfg pm virt flags

/-- One call; `none` when there is no `n`-th page map. -/
def step (cfg : Regime) (s : PageMaps) : Call → Option PageMaps
  | .newPageMap => some s.newPageMap
  | .operation n virt flags op =>
    s.pageMaps[n]?.map fun topLevel =>
      s.withTables (op.run cfg (s.walkedFrom (topLevel.half virt)) virt flags).2

/-- `Virt2Phys` of the `n`-th page map. -/
def virt2Phys (cfg : Regime) (s : PageMaps) (n : ℕ) (virt : Word) (flags : PageAttributes) :
    Option Word :=
  s.pageMaps[n]?.map fun topLevel =>
    AArch64.virt2Phys cfg (s.walkedFrom (topLevel.half virt)) virt flags

end PageMaps

end Cryptix.Memory.AArch64
