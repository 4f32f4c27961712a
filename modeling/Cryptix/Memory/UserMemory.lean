import Cryptix.Memory.AddressSpace
import Cryptix.Memory.FramePool
import Cryptix.Memory.LeafTable

/-!
# The memory of a user process

`MMap` and `MUnMap` of `Kernel/API/MM.cpp`, `HandlePageFault` of `Kernel/Memory/MM.cpp` and
`MapRange`/`MapRegion` of `Kernel/Memory/PageMap.cpp`. Three structures have to agree: the regions
of the address space, the page tables and the bitmap of the frame allocator. `MMap` only makes a
region. The first fault in it allocates frames for the whole region and maps them. `MUnMap` frees
the frames and erases the region, but leaves the page tables as they are.

The page tables are their leaf entries here, see `LeafTable`.
-/

namespace Cryptix.Memory

open Prism Lib

/-! ## Physical memory -/

/-- Physical memory: the frame allocator and the bytes. -/
structure PhysicalMemory where
  allocator : BitmapAllocator
  bytes : ℕ → UInt8

namespace PhysicalMemory

/-- `Memory::Fill` with zeros. -/
def fillZero (m : PhysicalMemory) (base count : ℕ) : PhysicalMemory :=
  { m with bytes := fun i => if base ≤ i ∧ i < base + count then 0 else m.bytes i }

/-- `PMM::CallocatePages`. -/
def callocatePages (m : PhysicalMemory) (count : ℕ) : ℕ × PhysicalMemory :=
  let (pages, allocator) := m.allocator.allocatePages count
  let m := { m with allocator := allocator }
  if pages = 0 then (0, m) else (pages, m.fillZero pages (PMM.pageSize * count))

/-- `PMM::FreePages` of a `Pointer`, which is first taken out of the higher half. -/
def freePages (cfg : Paging) (m : PhysicalMemory) (page count : ℕ) : PhysicalMemory :=
  { m with allocator := m.allocator.freePages (cfg.fromHigherHalfAddress page) count }

end PhysicalMemory

namespace PhysicalMemory

/-- What `CallocatePages` does: it returns a run of frames that were free, marked and zeroed, or it
returns null and changes neither the bitmap nor the bytes. -/
theorem callocatePages_spec {m : PhysicalMemory} (hwf : m.allocator.Wf) (count : ℕ) :
    (∃ first m', 0 < count ∧ m.callocatePages count = (first * PMM.pageSize, m') ∧
      m.allocator.Allocated m'.allocator first count ∧
      m'.bytes = (m.fillZero (first * PMM.pageSize) (PMM.pageSize * count)).bytes) ∨
    (∃ m', m.callocatePages count = (0, m') ∧ m'.allocator.Wf ∧
      m'.allocator.pageBitmap = m.allocator.pageBitmap ∧ m'.bytes = m.bytes) := by
  unfold callocatePages
  rcases BitmapAllocator.allocatePages_spec hwf count with
    ⟨first, a', hcount, hcall, halloc⟩ | ⟨a', hcall, hwf', hbitmap⟩
  · have hne : first * PMM.pageSize ≠ 0 := Nat.mul_ne_zero halloc.frame_pos.ne' (by decide)
    rw [hcall]
    dsimp only
    rw [if_neg hne]
    exact .inl ⟨first, _, hcount, rfl, halloc, rfl⟩
  · rw [hcall]
    exact .inr ⟨_, rfl, hwf', hbitmap, rfl⟩

end PhysicalMemory

/-! ## Regions in the page tables -/

namespace Region

/-- `Region::PageAttributes`. -/
def pageAttributes (r : Region) : PageAttributes :=
  let flags := PageAttributes.writeBack
  let flags := if r.access.read then flags ||| PageAttributes.read else flags
  let flags := if r.access.write then flags ||| PageAttributes.write else flags
  let flags := if r.access.execute then flags ||| PageAttributes.executable else flags
  let flags := if r.access.user then flags ||| PageAttributes.user else flags
  flags ||| PageAttributes.read ||| PageAttributes.write ||| PageAttributes.executable

/-- A region is mapped with 4 KiB pages, whatever its access mode. -/
theorem getPageSize_pageAttributes (r : Region) : getPageSize r.pageAttributes = .page := by
  unfold pageAttributes
  cases r.access.read <;> cases r.access.write <;> cases r.access.execute <;>
    cases r.access.user <;> decide

end Region

/-- `PageMap::MapRegion` on a page map is `mapRange` on its leaf table. -/
theorem PageMap.LeafRefines.mapRegion {cfg : Paging} {pm : PageMap} {t : LeafTable}
    (h : LeafRefines cfg pm t) (r : Region) (hvirt : r.virtualBase < wordCount)
    (hphys : r.physicalBase < wordCount)
    (hmask : ∀ i < divRoundUp r.size PMM.pageSize,
      PTE.InMask (BitVec.ofNat 64 r.physicalBase + BitVec.ofNat 64 (i * PMM.pageSize)))
    (hsupply : 4 * divRoundUp r.size PMM.pageSize ≤ pm.supply.length) :
    LeafRefines cfg
      (PageMap.mapRange cfg pm (BitVec.ofNat 64 r.virtualBase) (BitVec.ofNat 64 r.physicalBase)
        r.size r.pageAttributes).2
      (t.mapRange cfg r.virtualBase r.physicalBase r.size) := by
  have hmap := (h.mapRange (BitVec.ofNat 64 r.virtualBase) (BitVec.ofNat 64 r.physicalBase) r.size
    r.getPageSize_pageAttributes hmask hsupply).2
  unfold wordCount at hvirt hphys
  rwa [BitVec.toNat_ofNat, BitVec.toNat_ofNat, Nat.mod_eq_of_lt hvirt, Nat.mod_eq_of_lt hphys]
    at hmap

/-! ## The calls -/

/-- What a process has of the memory: its address space and its page tables. -/
structure UserSpace where
  addressSpace : AddressSpace
  pageTable : LeafTable

/-- The arguments of `MMap`; the file descriptor is not looked at for an anonymous mapping. -/
structure MMapRequest where
  addr : Word
  length : Word
  prot : BitVec 32
  flags : BitVec 32
  offset : ℤ := 0

namespace MMapRequest

def mapFixed : BitVec 32 := 0x10
def mapAnonymous : BitVec 32 := 0x20
def mapHuge2MB : BitVec 32 := 21 <<< 26
def mapHuge1GB : BitVec 32 := 30 <<< 26

/-- `MAP_FAILED`. -/
def mapFailed : ℕ := wordCount - 1

/-- The test `flags & flag`. -/
def has (req : MMapRequest) (flag : BitVec 32) : Bool := req.flags &&& flag != 0

/-- The access mode that `MMap` makes of the protection bits. -/
def access (req : MMapRequest) : Access where
  read := req.prot &&& 1 != 0
  write := req.prot &&& 2 != 0
  execute := req.prot &&& 4 != 0
  user := true

/-- The alignment of a region that is not at a fixed address. -/
def pageSize (req : MMapRequest) : ℕ :=
  if req.has mapHuge2MB then 0x200000
  else if req.has mapHuge1GB then 0x40000000
  else PMM.pageSize

end MMapRequest

namespace UserSpace

/-- The region that `MMap` asks the address space for. -/
def allocateFor (u : UserSpace) (req : MMapRequest) : Option Region × AddressSpace :=
  let length := alignUp req.length.toNat PMM.pageSize
  if req.has MMapRequest.mapFixed then u.addressSpace.allocateFixed req.addr.toNat length
  else u.addressSpace.allocateRegion length req.pageSize

/-- `API::MM::MMap`; `none` is the failed assertion that `Find` finds the new region. -/
def mMap (u : UserSpace) (req : MMapRequest) : Option (Except Errno ℕ × UserSpace) :=
  if req.addr &&& ~~~PTE.addressMask != 0 then some (.ok MMapRequest.mapFailed, u)
  else if !req.has MMapRequest.mapAnonymous then some (.ok MMapRequest.mapFailed, u)
  else if req.length = 0 then some (.error .EINVAL, u)
  else if req.offset ≠ 0 then some (.error .EINVAL, u)
  else
    match u.allocateFor req with
    | (none, space) => some (.error .ENOMEM, { u with addressSpace := space })
    | (some region, space) =>
      -- `SetAccessMode` on the region that is already in the tree
      let region := { region with access := req.access }
      let space := space.insert region.virtualBase region
      if space.find region.virtualBase = some region then
        some (.ok region.virtualBase, { u with addressSpace := space })
      else none

/-- `MM::HandlePageFault`: the whole region of the address gets new frames. Without a region or
without memory nothing is mapped (the process is then stopped). -/
def handlePageFault (cfg : Paging) (m : PhysicalMemory) (u : UserSpace) (address : ℕ) :
    PhysicalMemory × UserSpace :=
  match u.addressSpace.find address with
  | none => (m, u)
  | some region =>
    match m.callocatePages (divRoundUp region.size PMM.pageSize) with
    | (0, m) => (m, u)
    | (phys, m) =>
      (m, { addressSpace :=
              u.addressSpace.insert region.virtualBase { region with physicalBase := phys }
            pageTable := u.pageTable.mapRange cfg region.virtualBase phys region.size })

/-- `API::MM::MUnMap`; `none` is the null region of an address inside a region that is not its
base. -/
def mUnMap (cfg : Paging) (m : PhysicalMemory) (u : UserSpace) (virt : ℕ) :
    Option (Except Errno Unit × PhysicalMemory × UserSpace) :=
  if (u.addressSpace.find virt).isNone then some (.error .EINVAL, m, u)
  else
    (u.addressSpace.regionTree.lookup virt).map fun region =>
      (.ok (), m.freePages cfg region.physicalBase (region.size / PMM.pageSize),
        { u with addressSpace := u.addressSpace.erase virt })

end UserSpace

/-- A region as `MMap` makes it: without backing, of whole pages. -/
structure Region.Untouched (r : Region) : Prop where
  physicalBase_eq : r.physicalBase = 0
  dvd : PMM.pageSize ∣ r.size
  lt : r.size < wordCount

theorem pageSize_dvd_alignUp (n : ℕ) : PMM.pageSize ∣ alignUp n PMM.pageSize := by
  unfold alignUp roundUp
  exact (Nat.dvd_mod_iff (by decide)).mpr (Nat.dvd_mul_left _ _)

/-- The address space either stays or gets a region without backing. -/
theorem UserSpace.allocateFor_cases (u : UserSpace) (req : MMapRequest) :
    u.allocateFor req = (none, u.addressSpace) ∨
    ∃ r : Region, r.Untouched ∧
      u.allocateFor req = (some r, u.addressSpace.insert r.virtualBase r) := by
  unfold allocateFor
  dsimp only
  split
  · unfold AddressSpace.allocateFixed
    dsimp only
    split
    · exact .inr ⟨_, ⟨rfl, pageSize_dvd_alignUp _, Nat.mod_lt _ (by decide)⟩, rfl⟩
    · exact .inl rfl
  · unfold AddressSpace.allocateRegion
    split
    · exact .inl rfl
    · exact .inr ⟨_, ⟨rfl, pageSize_dvd_alignUp _, Nat.mod_lt _ (by decide)⟩, rfl⟩

/-- `MMap` changes nothing, or adds a region without backing, sets its access mode and finds it at
its base. -/
theorem UserSpace.mMap_cases {u u' : UserSpace} {req : MMapRequest} {r : Except Errno ℕ}
    (h : u.mMap req = some (r, u')) :
    u' = u ∨ ∃ region : Region, region.Untouched ∧ PTE.InMask req.addr ∧
      u.allocateFor req = (some region, u.addressSpace.insert region.virtualBase region) ∧
      u' = { u with
        addressSpace := (u.addressSpace.insert region.virtualBase region).insert
          region.virtualBase { region with access := req.access } } ∧
      u'.addressSpace.find region.virtualBase = some { region with access := req.access } := by
  unfold mMap at h
  split at h
  · exact .inl (Prod.mk.inj (Option.some.inj h)).2.symm
  rename_i haddr
  split at h
  · exact .inl (Prod.mk.inj (Option.some.inj h)).2.symm
  split at h
  · exact .inl (Prod.mk.inj (Option.some.inj h)).2.symm
  split at h
  · exact .inl (Prod.mk.inj (Option.some.inj h)).2.symm
  rcases u.allocateFor_cases req with hnone | ⟨region, hregion, hsome⟩
  · rw [hnone] at h
    exact .inl (Prod.mk.inj (Option.some.inj h)).2.symm
  · rw [hsome] at h
    dsimp only at h
    split at h
    · rename_i hfind
      obtain rfl := (Prod.mk.inj (Option.some.inj h)).2
      exact .inr ⟨region, hregion, by simpa [PTE.InMask] using haddr, hsome, rfl, hfind⟩
    · cases h

/-! ## Runs -/

namespace Region

/-- The frames that back a region, as a block of the frame allocator. -/
def block (r : Region) : Block := ⟨r.physicalBase, divRoundUp r.size PMM.pageSize⟩

/-- The frames that back a region; none before its first fault. -/
def frames (r : Region) : Set ℕ := if r.physicalBase = 0 then ∅ else r.block.frames

end Region

/-- Physical memory and one process. -/
structure UserMemory where
  physical : PhysicalMemory
  user : UserSpace

namespace UserMemory

/-- What a process does with its memory. -/
inductive Call
  | mMap (req : MMapRequest)
  | pageFault (address : ℕ)
  | mUnMap (virt : ℕ)

/-- One call, with its effect on memory. -/
def step (cfg : Paging) (s : UserMemory) : Call → Option UserMemory
  | .mMap req => (s.user.mMap req).map fun (_, user) => { s with user := user }
  | .pageFault address =>
    let (physical, user) := s.user.handlePageFault cfg s.physical address
    some ⟨physical, user⟩
  | .mUnMap virt =>
    (s.user.mUnMap cfg s.physical virt).map fun (_, physical, user) => ⟨physical, user⟩

/-- The condition on the calls: a region that is unmapped was never touched. -/
def UnmapsUntouched (s : UserMemory) : Call → Prop
  | .mUnMap virt =>
    ∀ region, s.user.addressSpace.regionTree.lookup virt = some region → region.physicalBase = 0
  | _ => True

instance (s : UserMemory) : (call : Call) → Decidable (s.UnmapsUntouched call)
  | .mMap _ => inferInstanceAs (Decidable True)
  | .pageFault _ => inferInstanceAs (Decidable True)
  | .mUnMap virt =>
    decidable_of_iff
      ((s.user.addressSpace.regionTree.lookup virt).all fun region => region.physicalBase = 0) (by
        simp [UnmapsUntouched, Option.all_eq_true])

/-- The invariant, where `live` are the blocks that the frame allocator has handed out: a region's
backing is one of them, distinct regions have distinct backings, and the page tables point into
them. -/
structure Inv (usable : ℕ → Prop) (live : List Block) (s : UserMemory) : Prop where
  accounted : FramePool.Accounted usable ⟨s.physical.allocator, live⟩
  backing : ∀ k r, (k, r) ∈ s.user.addressSpace.regionTree → r.physicalBase ≠ 0 → r.block ∈ live
  apart : ∀ k r k' r', (k, r) ∈ s.user.addressSpace.regionTree →
    (k', r') ∈ s.user.addressSpace.regionTree → k ≠ k' → Disjoint r.frames r'.frames
  mapped : ∀ e p, s.user.pageTable e = some p → ∃ b ∈ live, p / PMM.pageSize ∈ b.frames

variable {usable : ℕ → Prop} {live : List Block} {s s' : UserMemory} {cfg : Paging}

/-- A region without backing may be put in the tree. -/
theorem Inv.insertUnbacked (h : Inv usable live s) {r : Region} (hr : r.physicalBase = 0) :
    Inv usable live ⟨s.physical, { s.user with
      addressSpace := s.user.addressSpace.insert r.virtualBase r }⟩ := by
  have hnone : r.frames = ∅ := if_pos hr
  refine ⟨h.accounted, fun k q hq hne => ?_, fun k q k' q' hq hq' hne => ?_, h.mapped⟩
  · rcases OrderedMap.mem_insert.mp hq with ⟨rfl, rfl⟩ | ⟨-, hq⟩
    · exact absurd hr hne
    · exact h.backing k q hq hne
  · rcases OrderedMap.mem_insert.mp hq with ⟨-, rfl⟩ | ⟨-, hq⟩
    · rw [hnone]
      exact Set.empty_disjoint _
    · rcases OrderedMap.mem_insert.mp hq' with ⟨-, rfl⟩ | ⟨-, hq'⟩
      · rw [hnone]
        exact Set.disjoint_empty _
      · exact h.apart k q k' q' hq hq' hne

/-- A region that gets a new block as its backing. -/
theorem Inv.back (h : Inv usable live s) (cfg : Paging) {region : Region}
    {physical : PhysicalMemory} {first : ℕ}
    (hcount : 0 < divRoundUp region.size PMM.pageSize)
    (halloc : s.physical.allocator.Allocated physical.allocator first
      (divRoundUp region.size PMM.pageSize)) :
    Inv usable (⟨first * PMM.pageSize, divRoundUp region.size PMM.pageSize⟩ :: live)
      ⟨physical,
        { addressSpace := s.user.addressSpace.insert region.virtualBase
            { region with physicalBase := first * PMM.pageSize }
          pageTable := s.user.pageTable.mapRange cfg region.virtualBase (first * PMM.pageSize)
            region.size }⟩ := by
  have haccounted := h.accounted.allocated hcount halloc
  have hfit := haccounted.fits hcount List.mem_cons_self
  -- the frames of other regions are in blocks that were live before
  have hother : ∀ k r, (k, r) ∈ s.user.addressSpace.regionTree →
      Disjoint (Block.frames ⟨first * PMM.pageSize, divRoundUp region.size PMM.pageSize⟩)
        r.frames := by
    intro k r hr
    unfold Region.frames
    split
    · exact Set.disjoint_empty _
    · rename_i hbacked
      exact (List.pairwise_cons.mp haccounted.disjoint).1 _ (h.backing k r hr hbacked)
  have hnew : Region.frames { region with physicalBase := first * PMM.pageSize } =
      Block.frames ⟨first * PMM.pageSize, divRoundUp region.size PMM.pageSize⟩ :=
    if_neg (Nat.mul_ne_zero halloc.frame_pos.ne' (by decide))
  refine ⟨haccounted, fun k r hr hne => ?_, fun k r k' r' hr hr' hne => ?_, fun e p hp => ?_⟩
  · rcases OrderedMap.mem_insert.mp hr with ⟨rfl, rfl⟩ | ⟨-, hr⟩
    · exact List.mem_cons_self
    · exact List.mem_cons_of_mem _ (h.backing k r hr hne)
  · rcases OrderedMap.mem_insert.mp hr with ⟨hk, rfl⟩ | ⟨-, hr⟩ <;>
      rcases OrderedMap.mem_insert.mp hr' with ⟨hk', rfl⟩ | ⟨-, hr'⟩
    · exact absurd (hk.trans hk'.symm) hne
    · rw [hnew]
      exact hother k' r' hr'
    · rw [hnew]
      exact (hother k r hr).symm
    · exact h.apart k r k' r' hr hr' hne
  · rcases LeafTable.mapPages_eq_some hp with hold | ⟨i, hi, -, rfl⟩
    · obtain ⟨b, hb, hmem⟩ := h.mapped e p hold
      exact ⟨b, List.mem_cons_of_mem _ hb, hmem⟩
    · refine ⟨_, List.mem_cons_self, ?_⟩
      have hlt : (first + i) * PMM.pageSize < wordCount := haccounted.wf.frame_mul_lt (by omega)
      rw [offset_of_lt (by rwa [← Nat.add_mul]), ← Nat.add_mul, Nat.mul_div_cancel _ (by decide)]
      exact Block.mem_frames.mpr ⟨by omega, by omega⟩

/-- A page fault keeps the invariant, for one more block if it found memory. -/
theorem Inv.pageFault (h : Inv usable live s) (address : ℕ) :
    ∃ live', Inv usable live' ⟨(s.user.handlePageFault cfg s.physical address).1,
      (s.user.handlePageFault cfg s.physical address).2⟩ := by
  unfold UserSpace.handlePageFault
  split
  · exact ⟨live, h⟩
  · rename_i region _
    rcases PhysicalMemory.callocatePages_spec h.accounted.wf (divRoundUp region.size PMM.pageSize)
      with ⟨first, m', hcount, hcall, halloc, -⟩ | ⟨m', hcall, hwf, hbitmap, -⟩
    · have hpos : 0 < first * PMM.pageSize := Nat.mul_pos halloc.frame_pos (by decide)
      obtain ⟨phys, hphys⟩ := Nat.exists_eq_succ_of_ne_zero hpos.ne'
      have hback := h.back cfg hcount halloc
      refine ⟨⟨first * PMM.pageSize, divRoundUp region.size PMM.pageSize⟩ :: live, ?_⟩
      rw [hcall]
      rw [hphys] at hback ⊢
      exact hback
    · rw [hcall]
      exact ⟨live, h.accounted.of_pageBitmap_eq hwf hbitmap, h.backing, h.apart, h.mapped⟩

/-- Every call but an `MUnMap` of a region with backing keeps the invariant. -/
theorem Inv.step (h : Inv usable live s) {call : Call} (hok : s.UnmapsUntouched call)
    (hs : s.step cfg call = some s') : ∃ live', Inv usable live' s' := by
  cases call with
  | mMap req =>
    obtain ⟨⟨r, user⟩, hmap, rfl⟩ := Option.map_eq_some_iff.mp hs
    rcases UserSpace.mMap_cases hmap with rfl | ⟨region, hregion, -, -, rfl, -⟩
    · exact ⟨live, h⟩
    · exact ⟨live, (h.insertUnbacked hregion.physicalBase_eq).insertUnbacked
        (r := { region with access := req.access }) hregion.physicalBase_eq⟩
  | pageFault address =>
    obtain rfl := Option.some.inj hs
    exact h.pageFault address
  | mUnMap virt =>
    obtain ⟨⟨r, physical, user⟩, hunmap, rfl⟩ := Option.map_eq_some_iff.mp hs
    unfold UserSpace.mUnMap at hunmap
    split at hunmap
    · obtain ⟨-, rfl, rfl⟩ := by simpa using hunmap
      exact ⟨live, h⟩
    · obtain ⟨region, hregion, heq⟩ := Option.map_eq_some_iff.mp hunmap
      obtain ⟨-, rfl, rfl⟩ := by simpa using heq
      have hunbacked : region.physicalBase = 0 := hok region hregion
      -- freeing the null pointer does nothing
      have hfree : s.physical.freePages cfg region.physicalBase (region.size / PMM.pageSize) =
          s.physical := by
        unfold PhysicalMemory.freePages BitmapAllocator.freePages
        rw [hunbacked, cfg.fromHigherHalfAddress_zero, if_pos (.inr rfl)]
      rw [hfree]
      exact ⟨live, h.accounted,
        fun k r hr => h.backing k r (OrderedMap.mem_erase.mp hr).2,
        fun k r k' r' hr hr' => h.apart k r k' r' (OrderedMap.mem_erase.mp hr).2
          (OrderedMap.mem_erase.mp hr').2, h.mapped⟩

/-- A process that has not mapped anything yet. -/
def start (physical : PhysicalMemory) (totalBase : ℕ) : UserMemory :=
  ⟨physical, ⟨.withBase totalBase, fun _ => none⟩⟩

/-- In every run of `MMap`, page faults and `MUnMap` on one process in which only untouched
regions are unmapped, every frame that a present page-table entry points to is marked used, and no
frame backs two regions. The run starts on a machine that has been up for any time. -/
theorem mapped_frames_used {memoryMap : MemoryMap}
    (haligned : MemoryMap.UsableAligned memoryMap) {a : BitmapAllocator}
    (hinit : BitmapAllocator.initializeWith memoryMap PMM.pageSize = .ok a) {pool : FramePool}
    (hboot : Reaches FramePool.step FramePool.FreesLiveBlocks ⟨a, []⟩ pool) (cfg : Paging)
    (bytes : ℕ → UInt8) (totalBase : ℕ) {s : UserMemory}
    (hrun : Reaches (step cfg) UnmapsUntouched (start ⟨pool.allocator, bytes⟩ totalBase) s) :
    (∀ e p, s.user.pageTable e = some p →
      s.physical.allocator.used (p / PMM.pageSize) = true) ∧
    ∀ k r k' r', (k, r) ∈ s.user.addressSpace.regionTree →
      (k', r') ∈ s.user.addressSpace.regionTree → k ≠ k' → Disjoint r.frames r'.frames := by
  have haccounted : FramePool.Accounted (MemoryMap.UsableFrame memoryMap) pool :=
    hboot.invariant (BitmapAllocator.accounted_initializeWith haligned hinit)
      fun _ _ _ hs hok hstep => hs.step hok hstep
  have hstart : Inv (MemoryMap.UsableFrame memoryMap) pool.live
      (start ⟨pool.allocator, bytes⟩ totalBase) :=
    ⟨haccounted, fun k r hr => absurd hr (OrderedMap.not_mem_empty _),
      fun k r k' r' hr => absurd hr (OrderedMap.not_mem_empty _), fun e p hp => by cases hp⟩
  obtain ⟨live, h⟩ : ∃ live, Inv (MemoryMap.UsableFrame memoryMap) live s := by
    refine hrun.invariant (P := fun s => ∃ live, Inv _ live s) ⟨_, hstart⟩ ?_
    rintro s call s' ⟨live, hs⟩ hok hstep
    exact hs.step hok hstep
  refine ⟨fun e p hp => ?_, h.apart⟩
  exact (h.accounted.used_iff _).mpr (.inl (h.mapped e p hp))

/-- A 4-level machine. -/
def level4 : Paging := ⟨.level4, 0xffff800000000000, true⟩

/-- An anonymous mapping of one page, readable and writable. -/
def onePage : MMapRequest := { addr := 0, length := 0x1000, prot := 3, flags := 0x22 }

/-- Two mappings, one touched, the other unmapped again: the frame of the first is used. -/
theorem mapped_frames_used_two_pages : ∃ a s,
    BitmapAllocator.initializeWith fourFrames PMM.pageSize = .ok a ∧
    Reaches.runList (step level4) UnmapsUntouched (start ⟨a, fun _ => 0⟩ 0x140000000)
      [.mMap onePage, .pageFault 0x140000010, .mMap onePage, .mUnMap 0x140001000] = some s ∧
    s.user.pageTable 0x140000 = some 0x1000 ∧ s.physical.allocator.used (0x1000 / 0x1000) := by
  refine ⟨_, _, rfl, rfl, rfl, ?_⟩
  have haligned : MemoryMap.UsableAligned fourFrames := by
    intro z hz _
    obtain rfl := List.mem_singleton.mp hz
    decide
  exact (mapped_frames_used haligned rfl .refl level4 (fun _ => 0) 0x140000000
    (.of_list [.mMap onePage, .pageFault 0x140000010, .mMap onePage, .mUnMap 0x140001000]
      rfl)).1 0x140000 0x1000 rfl

/-- A page that is mapped, touched and unmapped: its page-table entry is still present, and its
frame is free. -/
theorem mapped_frame_freed : ∃ a s,
    BitmapAllocator.initializeWith fourFrames PMM.pageSize = .ok a ∧
    Reaches.runList (step level4) anyCall (start ⟨a, fun _ => 0⟩ 0x140000000)
      [.mMap onePage, .pageFault 0x140000010, .mUnMap 0x140000000] = some s ∧
    s.user.pageTable 0x140000 = some 0x1000 ∧
    s.physical.allocator.used (0x1000 / PMM.pageSize) = false :=
  ⟨_, _, rfl, rfl, rfl, rfl⟩

end UserMemory

end Cryptix.Memory
