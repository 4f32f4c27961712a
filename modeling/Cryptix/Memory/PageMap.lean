import Mathlib.Data.BitVec
import Cryptix.Lib.RadixTree

/-!
# Page maps on x86_64

`Kernel/Arch/x86_64/VMM.cpp`, `NextLevel` of `Kernel/Memory/VMM.cpp` and
`Kernel/Memory/PageTableEntry.hpp`. A page map is a radix tree of page tables, four or five levels
deep, that `Virt2Pte` builds on demand. Address and flags of an entry share one 64-bit word. Bit 7
is the large-page bit in the tables that `Virt2Pte` calls `pml3` and `pml2`, and the PAT bit in
`pml1`.

The tables live in a heap indexed by their higher-half pointers. `AllocatePageTable` takes the next
pointer of `supply`, the memory the kernel heap has left for page tables; a table starts out zeroed.
-/

namespace Cryptix.Memory

open Lib

/-- A 64-bit machine word. -/
abbrev Word := BitVec 64

/-! ## Attributes and native flags -/

namespace PTE

def present : Word := 1 <<< 0
def writeable : Word := 1 <<< 1
def userSuper : Word := 1 <<< 2
def pwt : Word := 1 <<< 3
def pcd : Word := 1 <<< 4
def lpage : Word := 1 <<< 7
def pat4k : Word := 1 <<< 7
def globalPage : Word := 1 <<< 8
def patlg : Word := 1 <<< 12
def noexec : Word := 1 <<< 63

/-- `PTE_ADDRESS_MASK`, what `GetAddressMask` returns. -/
def addressMask : Word := 0x000ffffffffff000

/-- `g_DefaultPteFlags`. -/
def defaultFlags : Word := present ||| writeable ||| userSuper

end PTE

/-- `PageAttributes`, the bits of the enumeration's underlying integer. -/
abbrev PageAttributes := Word

namespace PageAttributes

def read : PageAttributes := 1 <<< 0
def write : PageAttributes := 1 <<< 1
def executable : PageAttributes := 1 <<< 2
def user : PageAttributes := 1 <<< 3
def globalPage : PageAttributes := 1 <<< 4
def lPage : PageAttributes := 1 <<< 5
def llPage : PageAttributes := 1 <<< 6
def uncacheableStrong : PageAttributes := 1 <<< 8
def writeCombining : PageAttributes := 1 <<< 7
def writeThrough : PageAttributes := 1 <<< 9
def writeProtected : PageAttributes := 1 <<< 9 ||| 1 <<< 7
def writeBack : PageAttributes := 1 <<< 9 ||| 1 <<< 8
def uncacheable : PageAttributes := 1 <<< 7 ||| 1 <<< 8 ||| 1 <<< 9

/-- The test `attribs & flag`. -/
def has (attribs flag : PageAttributes) : Bool := attribs &&& flag != 0

/-- `attribs` with some bits cleared (`flags &= ~flag`). -/
def without (attribs flag : PageAttributes) : PageAttributes := attribs &&& ~~~flag

/-- The first half of `ToNativeFlags`: the access and size bits. -/
def accessFlags (attribs : PageAttributes) : Word :=
  let pteFlags := PTE.present
  let pteFlags := if attribs.has write then pteFlags ||| PTE.writeable else pteFlags
  let pteFlags := if !attribs.has executable then pteFlags ||| PTE.noexec else pteFlags
  let pteFlags := if attribs.has user then pteFlags ||| PTE.userSuper else pteFlags
  let pteFlags := if attribs.has globalPage then pteFlags ||| PTE.globalPage else pteFlags
  if attribs.has lPage || attribs.has llPage then pteFlags ||| PTE.lpage else pteFlags

/-- `Arch::VMM::ToNativeFlags`. -/
def toNativeFlags (attribs : PageAttributes) : Word :=
  let pteFlags := attribs.accessFlags
  let patbit := if pteFlags &&& PTE.lpage != 0 then PTE.patlg else PTE.pat4k
  let pteFlags := if attribs.has uncacheableStrong then pteFlags ||| PTE.pcd else pteFlags
  if attribs.has writeCombining then (pteFlags ||| (PTE.pcd ||| PTE.pwt)) &&& ~~~patbit
  else if attribs.has writeThrough then pteFlags ||| patbit
  else if attribs.has writeProtected then pteFlags ||| (patbit ||| PTE.pwt)
  else if attribs.has writeBack then pteFlags ||| (patbit ||| PTE.pcd)
  else if attribs.has uncacheable then pteFlags ||| (patbit ||| PTE.pcd ||| PTE.pwt)
  else pteFlags

end PageAttributes

/-- `PAGE_SIZE`, `LPAGE_SIZE` and `LLPAGE_SIZE` of `Arch::VMM`. -/
inductive PageSize
  | page
  | lPage
  | llPage
  deriving DecidableEq, Repr

/-- The number of bytes of a page. -/
def PageSize.bytes : PageSize → Word
  | .page => 0x1000
  | .lPage => 0x200000
  | .llPage => 0x40000000

/-- `Arch::VMM::GetPageSize`. -/
def getPageSize (flags : PageAttributes) : PageSize :=
  if flags.has PageAttributes.llPage then .llPage
  else if flags.has PageAttributes.lPage then .lPage
  else .page

/-! ## Entries -/

/-- `PageTableEntry`: address and flags in one word. -/
abbrev PageTableEntry := Word

namespace PageTableEntry

/-- `PageTableEntry::Address`. -/
def address (e : PageTableEntry) : Word := e &&& PTE.addressMask

/-- `PageTableEntry::GetFlag`. -/
def getFlag (e : PageTableEntry) (flag : Word) : Bool := e &&& flag != 0

/-- `PageTableEntry::SetAddress`. -/
def setAddress (e : PageTableEntry) (a : Word) : PageTableEntry := e &&& ~~~PTE.addressMask ||| a

/-- `PageTableEntry::SetFlags`. -/
def setFlags (e : PageTableEntry) (flags : Word) (enabled : Bool) : PageTableEntry :=
  if enabled then e ||| flags else e &&& ~~~flags

/-- `PageTableEntry::IsValid`. -/
def isValid (e : PageTableEntry) : Bool := e.getFlag PTE.present

/-- `PageTableEntry::IsLarge`. -/
def isLarge (e : PageTableEntry) : Bool := e.getFlag PTE.lpage

end PageTableEntry

/-! ## Page maps -/

/-- `PagingMode`; without a mode the kernel does not get as far as building page maps. -/
inductive PagingMode
  | level4
  | level5
  deriving DecidableEq, Repr

/-- What the boot loader and the CPU decide: the paging mode, where physical memory is mapped in the
higher half, and whether 1 GiB pages exist. -/
structure Paging where
  mode : PagingMode
  higherHalfOffset : Word
  has1GibPages : Bool

namespace Paging

/-- `ToHigherHalfAddress`. -/
def toHigherHalf (cfg : Paging) (a : Word) : Word :=
  if cfg.higherHalfOffset ≤ a then a else a + cfg.higherHalfOffset

/-- `FromHigherHalfAddress`. -/
def fromHigherHalf (cfg : Paging) (a : Word) : Word :=
  if cfg.higherHalfOffset ≤ a then a - cfg.higherHalfOffset else a

/-- `Pointer::ToHigherHalf` on an address as a number. -/
def toHigherHalfAddress (cfg : Paging) (a : ℕ) : ℕ := (cfg.toHigherHalf (BitVec.ofNat 64 a)).toNat

/-- `Pointer::FromHigherHalf` on an address as a number. -/
def fromHigherHalfAddress (cfg : Paging) (a : ℕ) : ℕ :=
  (cfg.fromHigherHalf (BitVec.ofNat 64 a)).toNat

theorem fromHigherHalfAddress_zero (cfg : Paging) : cfg.fromHigherHalfAddress 0 = 0 := by
  unfold fromHigherHalfAddress fromHigherHalf
  split
  · rename_i h
    rw [BitVec.le_zero_iff.mp h]
    rfl
  · rfl

end Paging

/-- An index into the 512 entries of a page table. -/
abbrev TableIndex := BitVec 9

/-- The heap of page tables, the root and the memory left for tables. -/
structure PageMap where
  tables : Radix.Heap Word TableIndex PageTableEntry
  topLevel : Word
  supply : List Word

namespace PageMap

/-- `table->entries[i]`. -/
def entry (pm : PageMap) (table : Word) (i : TableIndex) : PageTableEntry :=
  ((pm.tables table).map fun entries => entries i).getD 0

/-- Assignment to `table->entries[i]`. -/
def setEntry (pm : PageMap) (table : Word) (i : TableIndex) (e : PageTableEntry) : PageMap :=
  { pm with tables := Radix.write pm.tables table i e }

/-- `Arch::VMM::AllocatePageTable`; `none` when the kernel heap is exhausted. -/
def allocatePageTable (pm : PageMap) : Option Word × PageMap :=
  match pm.supply with
  | [] => (none, pm)
  | table :: rest =>
    (some table, { pm with tables := Radix.alloc pm.tables table 0, supply := rest })

/-- `PageMap::NextLevel` on the entry `table->entries[i]`. The entry is linked even to the null
pointer of a failed allocation. -/
def nextLevel (cfg : Paging) (pm : PageMap) (table : Word) (i : TableIndex) (allocate : Bool) :
    Option Word × PageMap :=
  let e := pm.entry table i
  if e.isValid then (some (cfg.toHigherHalf e.address), pm)
  else if !allocate then (none, pm)
  else
    let (newEntry, pm) := pm.allocatePageTable
    let e := (e.setAddress (cfg.fromHigherHalf (newEntry.getD 0))).setFlags PTE.defaultFlags true
    (newEntry, pm.setEntry table i e)

/-- The table index at a bit position of an address: `(virt >> shift) & 0x1ff`. -/
def pmlIndex (virt : Word) (shift : ℕ) : TableIndex := (virt >>> shift).setWidth 9

/-- Continue with a table unless it is null. -/
def withTable {α : Type} (r : Option Word × PageMap) (k : Word → PageMap → Option α × PageMap) :
    Option α × PageMap :=
  match r with
  | (none, pm) => (none, pm)
  | (some table, pm) => k table pm

/-- `PageMap::Virt2Pte` from the table it calls `pml4` on. -/
def virt2PteFrom (cfg : Paging) (pm : PageMap) (pml4 : Word) (virt : Word) (allocate : Bool)
    (pageSize : PageSize) : Option (Word × TableIndex) × PageMap :=
  withTable (nextLevel cfg pm pml4 (pmlIndex virt 39) allocate) fun pml3 pm =>
  if pageSize = .llPage ∨ (pm.entry pml3 (pmlIndex virt 30)).isLarge then
    (some (pml3, pmlIndex virt 30), pm)
  else
    withTable (nextLevel cfg pm pml3 (pmlIndex virt 30) allocate) fun pml2 pm =>
    if pageSize = .lPage ∨ (pm.entry pml2 (pmlIndex virt 21)).isLarge then
      (some (pml2, pmlIndex virt 21), pm)
    else
      withTable (nextLevel cfg pm pml2 (pmlIndex virt 21) allocate) fun pml1 pm =>
      (some (pml1, pmlIndex virt 12), pm)

/-- The table that `Virt2Pte` calls `pml4`: with five levels it is one below the root. -/
def pml4Table (cfg : Paging) (pm : PageMap) (virt : Word) (allocate : Bool) :
    Option Word × PageMap :=
  match cfg.mode with
  | .level5 => nextLevel cfg pm pm.topLevel (pmlIndex virt 48) allocate
  | .level4 => (some pm.topLevel, pm)

/-- `PageMap::Virt2Pte`: the table and the index of the entry, `none` for the null pointer. -/
def virt2Pte (cfg : Paging) (pm : PageMap) (virt : Word) (allocate : Bool) (pageSize : PageSize) :
    Option (Word × TableIndex) × PageMap :=
  if pm.topLevel = 0 then (none, pm)
  else
    withTable (pml4Table cfg pm virt allocate) fun pml4 pm =>
    virt2PteFrom cfg pm pml4 virt allocate pageSize

/-- `PageMap::Virt2Phys`; all ones is the `-1` of an address that is not mapped. -/
def virt2Phys (cfg : Paging) (pm : PageMap) (virt : Word) (flags : PageAttributes) : Word :=
  match (virt2Pte cfg pm virt false (getPageSize flags)).1 with
  | none => BitVec.allOnes 64
  | some (table, i) =>
    let pmlEntry := pm.entry table i
    if !pmlEntry.getFlag PTE.present then BitVec.allOnes 64
    else pmlEntry.address + virt % (getPageSize flags).bytes

/-- The part of `InternalMap` that installs one entry. -/
def mapOne (cfg : Paging) (pm : PageMap) (virt phys : Word) (flags : PageAttributes) :
    Bool × PageMap :=
  match virt2Pte cfg pm virt true (getPageSize flags) with
  | (none, pm) => (false, pm)
  | (some (table, i), pm) =>
    let pmlEntry : PageTableEntry := 0
    (true, pm.setEntry table i ((pmlEntry.setAddress phys).setFlags flags.toNativeFlags true))

/-- `unmapOne` of `InternalUnmap`. -/
def unmapOne (cfg : Paging) (pm : PageMap) (virt : Word) (pageSize : PageSize) : Bool × PageMap :=
  match virt2Pte cfg pm virt false pageSize with
  | (none, pm) => (false, pm)
  | (some (table, i), pm) => (true, pm.setEntry table i 0)

/-- The loop `for (i = 0; i < 1_gib; i += 2_mib)` that stops at the first failure, over the numbers
of the pages that are left. -/
def forEachLPage (body : PageMap → Word → Bool × PageMap) : PageMap → List ℕ → Bool × PageMap
  | pm, [] => (true, pm)
  | pm, n :: rest =>
    match body pm (PageSize.lPage.bytes * BitVec.ofNat 64 n) with
    | (false, pm) => (false, pm)
    | (true, pm) => forEachLPage body pm rest

/-- `flags` for the 2 MiB pages that stand in for a 1 GiB page. -/
def splitFlags (flags : PageAttributes) : PageAttributes :=
  flags.without PageAttributes.llPage ||| PageAttributes.lPage

/-- `PageMap::InternalMap`. -/
def internalMap (cfg : Paging) (pm : PageMap) (virt phys : Word) (flags : PageAttributes) :
    Bool × PageMap :=
  if getPageSize flags = .llPage ∧ !cfg.has1GibPages then
    forEachLPage (fun pm i => mapOne cfg pm (virt + i) (phys + i) (splitFlags flags)) pm
      (List.range 512)
  else mapOne cfg pm virt phys flags

/-- `PageMap::InternalUnmap`. -/
def internalUnmap (cfg : Paging) (pm : PageMap) (virt : Word) (flags : PageAttributes) :
    Bool × PageMap :=
  if getPageSize flags = .llPage ∧ !cfg.has1GibPages then
    forEachLPage (fun pm i => unmapOne cfg pm (virt + i) .lPage) pm (List.range 512)
  else unmapOne cfg pm virt (getPageSize flags)

/-- A page map whose root table is empty. -/
def withRoot (topLevel : Word) (supply : List Word) : PageMap :=
  ⟨Radix.alloc (fun _ => none) topLevel 0, topLevel, supply⟩

end PageMap

end Cryptix.Memory
