import Cryptix.Memory.Protection

/-!
# What a page fault loses

`HandlePageFault` of `Kernel/Memory/MM.cpp` does not look at the reason of a fault. Whatever the
fault was, the region of the address gets new zeroed frames, and all of its pages are mapped to
them. For the first fault in a region that is right. A second fault can follow: two threads that
touch a new region at the same time both fault, and the kernel itself faults with a protection
violation when it touches a page of the user while `SMAP` forbids it. Then what the pages held is
out of reach, and the frames that held it stay marked used.

To say so, user code is given stores and loads, through the page tables. The addresses of users are
those of the lower half, and a present entry reaches memory only if it points to a frame of the
machine: `MProtect` leaves entries behind that do not (`frame_remapped`).
-/

namespace Cryptix.Memory

open Prism Lib

namespace PageTableEntry

instance (e : PageTableEntry) : Decidable e.UserPresent := inferInstanceAs (Decidable (_ ∧ _))

/-- The frame an entry points to. -/
def frame (e : PageTableEntry) : ℕ := e.address.toNat / PMM.pageSize

end PageTableEntry

namespace ProtectedMemory

/-- The physical address that user code reaches at a virtual one. -/
def translate (cfg : Paging) (s : ProtectedMemory) (address : ℕ) : Option ℕ :=
  let e := s.pageTable (LeafTable.index cfg address)
  if address < LeafTable.span cfg ∧ e.UserPresent ∧
      e.frame < s.physical.allocator.pageBitmap.size then
    some (e.frame * PMM.pageSize + address % PMM.pageSize)
  else none

/-- A load by user code; `none` where it faults. -/
def read (cfg : Paging) (s : ProtectedMemory) (address : ℕ) : Option UInt8 :=
  (s.translate cfg address).map s.physical.bytes

/-- A store by user code. Where it faults nothing is stored. -/
def write (cfg : Paging) (s : ProtectedMemory) (address : ℕ) (value : UInt8) : ProtectedMemory :=
  match s.translate cfg address with
  | none => s
  | some p =>
    if (s.pageTable (LeafTable.index cfg address)).getFlag PTE.writeable then
      { s with physical := { s.physical with bytes := Function.update s.physical.bytes p value } }
    else s

/-- A call of the process, or a store of its code. -/
inductive Action
  | call (call : Call)
  | write (address : ℕ) (value : UInt8)

def act (cfg : Paging) (s : ProtectedMemory) : Action → Option ProtectedMemory
  | .call call => s.step cfg call
  | .write address value => some (s.write cfg address value)

/-! ## The property -/

/-- A frame that a region or an entry for user code points to. (The direct map of the kernel points
to every frame.) -/
def Referenced (s : ProtectedMemory) (f : ℕ) : Prop :=
  (∃ k r, (k, r) ∈ s.addressSpace.regionTree ∧ f ∈ r.frames) ∨
    ∃ e, (s.pageTable e).UserPresent ∧ (s.pageTable e).frame = f

/-- What user code could read in a region it still reads, and a frame that backed a region is still
referenced if it is marked used. -/
structure NoLoss (cfg : Paging) (s s' : ProtectedMemory) : Prop where
  bytes : ∀ k r, (k, r) ∈ s.addressSpace.regionTree → ∀ a ∈ r.range, ∀ b,
    s.read cfg a = some b → s'.read cfg a = some b
  frames : ∀ k r, (k, r) ∈ s.addressSpace.regionTree → ∀ f ∈ r.frames,
    s'.physical.allocator.used f = true → s'.Referenced f

/-- A page fault loses nothing. -/
def KeepsData (cfg : Paging) (s : ProtectedMemory) : Action → Prop
  | .call (.pageFault address) => NoLoss cfg s (s.handlePageFault cfg address)
  | _ => True

/-- The region of a page fault has no frames yet. -/
def FaultsFresh (s : ProtectedMemory) : Action → Prop
  | .call (.pageFault address) => ∀ r, s.Handles address r → r.physicalBase = 0
  | _ => True

/-- The region that a call maps lies in the lower half of the address space. -/
def Lower (cfg : Paging) (s : ProtectedMemory) : Action → Prop
  | .call (.mProtect req) => ∀ r, s.Protects req r →
      r.virtualBase + r.size ≤ LeafTable.span cfg / 2
  | .call (.pageFault address) => ∀ r, s.Handles address r →
      r.virtualBase + r.size ≤ LeafTable.span cfg / 2
  | _ => True

theorem Lower.translated {cfg : Paging} {s : ProtectedMemory} {call : Call}
    (h : s.Lower cfg (.call call)) : s.Translated cfg call := by
  cases call with
  | mMap req => trivial
  | mProtect req => exact fun r hr => (h r hr).trans (Nat.div_le_self _ _)
  | pageFault address => exact fun r hr => (h r hr).trans (Nat.div_le_self _ _)

end ProtectedMemory

/-! ## Frames of entries -/

/-- The address of a frame below 2 ^ 40 is an address. -/
theorem PTE.inMask_frame {n : ℕ} (hn : n < 2 ^ 40) :
    InMask (BitVec.ofNat 64 (n * PMM.pageSize)) := by
  have hmask : ∀ k < 64, (~~~addressMask).getLsbD k = !(decide (12 ≤ k) && decide (k < 52)) := by
    decide
  refine BitVec.eq_of_getLsbD_eq fun k hk => ?_
  rw [BitVec.getLsbD_and, hmask k hk, BitVec.getLsbD_ofNat, PMM.pageSize,
    show (4096 : ℕ) = 2 ^ 12 from rfl, Nat.testBit_mul_two_pow]
  rcases Nat.lt_or_ge k 12 with hlow | hlow
  · simp [hlow]
  rcases Nat.lt_or_ge k 52 with hhigh | hhigh
  · simp [hlow, hhigh]
  · have hzero : n.testBit (k - 12) = false :=
      Nat.testBit_lt_two_pow (hn.trans_le (Nat.pow_le_pow_right (by decide) (by omega)))
    simp [hzero]

namespace PageTableEntry

theorem frame_make (a : Word) : (make a 0x97).frame = frame a := by
  have hflags : (0x97 : Word) &&& PTE.addressMask = 0#64 := by decide
  rw [frame, frame, make_eq, address, address, BitVec.and_or_distrib_right, hflags, BitVec.or_zero]

theorem frame_address (e : PageTableEntry) : frame e.address = e.frame := by
  rw [frame, frame, address, address, BitVec.and_assoc, BitVec.and_self]

end PageTableEntry

theorem ProtectedMemory.frame_frameEntry {first i : ℕ} (h : first + i < 2 ^ 40) :
    (frameEntry first i).frame = first + i := by
  have hlt : (first + i) * PMM.pageSize < 2 ^ 64 := by
    unfold PMM.pageSize
    omega
  rw [frameEntry, PageTableEntry.frame_make, ← BitVec.ofNat_add, ← Nat.add_mul,
    PageTableEntry.frame, PageTableEntry.address, (PTE.inMask_frame h).and_mask, BitVec.toNat_ofNat,
    Nat.mod_eq_of_lt hlt, Nat.mul_div_cancel _ (by decide)]

/-- A page that `MProtect` maps again stays where it was. One that had no entry is mapped to the
last frame of the physical address space. -/
theorem EntryTable.frame_remapped (t : EntryTable) (cfg : Paging) {virt : ℕ}
    (hvirt : PMM.pageSize ∣ virt) :
    (PageTableEntry.make (t.virt2Phys cfg virt) 0x97).frame =
      if (t (LeafTable.index cfg virt)).getFlag PTE.present then
        (t (LeafTable.index cfg virt)).frame
      else 2 ^ 40 - 1 := by
  have hzero : virt % PMM.pageSize = 0 := Nat.mod_eq_zero_of_dvd hvirt
  rw [PageTableEntry.frame_make, virt2Phys, hzero]
  split
  · rw [BitVec.add_zero, PageTableEntry.frame_address]
  · decide

/-- An address of a region is in one of its pages. -/
theorem Region.Placed.exists_page {r : Region} (h : r.Placed) (cfg : Paging) {a : ℕ}
    (ha : a ∈ r.range) : ∃ i < r.pages, r.pageAddress i ≤ a ∧
      LeafTable.index cfg a = LeafTable.index cfg (r.pageAddress i) := by
  obtain ⟨hle, hlt⟩ := Set.mem_Ico.mp ha
  obtain ⟨n, hn⟩ := h.aligned
  have hi : (a - r.virtualBase) / PMM.pageSize < r.pages := by
    unfold pages divRoundUp PMM.pageSize
    omega
  refine ⟨_, hi, ?_, ?_⟩
  · rw [(pageAddress_eq h.fits hi).1]
    unfold PMM.pageSize
    omega
  · have hsame : a / PMM.pageSize =
        (r.virtualBase + (a - r.virtualBase) / PMM.pageSize * PMM.pageSize) / PMM.pageSize := by
      unfold PMM.pageSize at *
      omega
    rw [(pageAddress_eq h.fits hi).1, LeafTable.index, LeafTable.index, hsame]

/-- A page of the lower half has its entry in the lower half of the tables. -/
theorem LeafTable.index_lt_half {cfg : Paging} {a : ℕ} (h : a < span cfg / 2) :
    index cfg a < size cfg / 2 := by
  have hsize : size cfg = 2 ^ 36 ∨ size cfg = 2 ^ 45 := by
    unfold size
    cases cfg.mode <;> simp
  refine (Nat.mod_le _ _).trans_lt ?_
  unfold span PMM.pageSize at *
  omega

namespace ProtectedMemory

/-! ## The invariant -/

/-- The entries of a region without frames lead nowhere. Those of a region with frames point to
them; these are marked used, and no two regions share one. -/
structure Backed (cfg : Paging) (s : ProtectedMemory) : Prop extends Laid cfg s where
  memory : s.physical.allocator.pageBitmap.size < 2 ^ 40
  lower : ∀ e < LeafTable.size cfg / 2, (s.pageTable e).getFlag PTE.present = true →
    (s.pageTable e).UserPresent
  fresh : ∀ k r, (k, r) ∈ s.addressSpace.regionTree → r.physicalBase = 0 → ∀ i < r.pages,
    r.pageAddress i < LeafTable.span cfg →
    (s.pageTable (LeafTable.index cfg (r.pageAddress i))).UserPresent →
    s.physical.allocator.pageBitmap.size ≤
      (s.pageTable (LeafTable.index cfg (r.pageAddress i))).frame
  backed : ∀ k r, (k, r) ∈ s.addressSpace.regionTree → r.physicalBase ≠ 0 → ∃ first,
    r.physicalBase = first * PMM.pageSize ∧ r.virtualBase + r.size ≤ LeafTable.span cfg ∧
    ∀ i < r.pages, s.physical.allocator.used (first + i) = true ∧
      first + i < s.physical.allocator.pageBitmap.size ∧
      (s.pageTable (LeafTable.index cfg (r.pageAddress i))).UserPresent ∧
      (s.pageTable (LeafTable.index cfg (r.pageAddress i))).frame = first + i
  apart : ∀ k r k' r', (k, r) ∈ s.addressSpace.regionTree →
    (k', r') ∈ s.addressSpace.regionTree → k ≠ k' → Disjoint r.frames r'.frames

section Steps

variable {cfg : Paging} {s s' : ProtectedMemory}

/-- The frames of a region are those its pages are mapped to. -/
theorem Backed.mem_frames (h : Backed cfg s) {k : ℕ} {r : Region}
    (hr : (k, r) ∈ s.addressSpace.regionTree) {f : ℕ} (hf : f ∈ r.frames) :
    r.physicalBase ≠ 0 ∧ s.physical.allocator.used f = true ∧
      f < s.physical.allocator.pageBitmap.size := by
  unfold Region.frames at hf
  split at hf
  · exact absurd hf (Set.notMem_empty f)
  · rename_i hne
    obtain ⟨first, hfirst, -, hpages⟩ := h.backed k r hr hne
    rw [Region.block, hfirst] at hf
    obtain ⟨hle, hlt⟩ := Block.mem_frames.mp hf
    obtain ⟨hused, hsize, -⟩ := hpages (f - first) (by unfold Region.pages; omega)
    rw [Nat.add_sub_cancel' hle] at hused hsize
    exact ⟨hne, hused, hsize⟩

/-- The frame of a page of a region with frames is one of them. -/
theorem Backed.frame_mem (h : Backed cfg s) {k : ℕ} {r : Region}
    (hr : (k, r) ∈ s.addressSpace.regionTree) (hne : r.physicalBase ≠ 0) {i : ℕ}
    (hi : i < r.pages) :
    (s.pageTable (LeafTable.index cfg (r.pageAddress i))).frame ∈ r.frames := by
  obtain ⟨first, hfirst, -, hpages⟩ := h.backed k r hr hne
  rw [(hpages i hi).2.2.2, Region.frames, if_neg hne, Region.block, hfirst]
  refine Block.mem_frames.mpr ⟨Nat.le_add_right _ _, ?_⟩
  unfold Region.pages at hi
  omega

/-- Memory that user code reaches in a region is in a frame of the region. -/
theorem Backed.frame_mem_of_translate (h : Backed cfg s) {k : ℕ} {r : Region}
    (hr : (k, r) ∈ s.addressSpace.regionTree) {a p : ℕ} (ha : a ∈ r.range)
    (htranslate : s.translate cfg a = some p) : p / PMM.pageSize ∈ r.frames ∧
      ∃ i < r.pages, r.pageAddress i < LeafTable.span cfg ∧
        LeafTable.index cfg a = LeafTable.index cfg (r.pageAddress i) := by
  obtain ⟨i, hi, hle, hindex⟩ := (h.placed k r hr).exists_page cfg ha
  unfold translate at htranslate
  dsimp only at htranslate
  split at htranslate
  · rename_i hcond
    obtain ⟨hspan, hpresent, hsize⟩ := hcond
    obtain rfl := Option.some.inj htranslate
    rw [hindex] at hpresent hsize ⊢
    have hframe : (s.pageTable (LeafTable.index cfg (r.pageAddress i))).frame ∈ r.frames := by
      refine h.frame_mem hr (fun hzero => ?_) hi
      have hout := h.fresh k r hr hzero i hi (by omega) hpresent
      omega
    refine ⟨?_, i, hi, by omega, rfl⟩
    rwa [Nat.mul_comm, Nat.mul_add_div (by decide), Nat.div_eq_of_lt (Nat.mod_lt _ (by decide)),
      Nat.add_zero]
  · cases htranslate

/-- A call that gives one region a new access mode or backing and leaves the frames of the others
alone. -/
theorem Installed.backed {r r' : Region} {entry : ℕ → PageTableEntry}
    (hs : Installed cfg s s' r r' entry) (h : Backed cfg s) (hlaid : Laid cfg s')
    (hsize : s'.physical.allocator.pageBitmap.size = s.physical.allocator.pageBitmap.size)
    (hused : ∀ f, s.physical.allocator.used f = true → s'.physical.allocator.used f = true)
    (hfresh : r'.physicalBase = 0 → ∀ i < r.pages,
      s.physical.allocator.pageBitmap.size ≤ (entry i).frame)
    (hbacked : r'.physicalBase ≠ 0 → ∃ first, r'.physicalBase = first * PMM.pageSize ∧
      ∀ i < r.pages, s'.physical.allocator.used (first + i) = true ∧
        first + i < s.physical.allocator.pageBitmap.size ∧ (entry i).frame = first + i)
    (hapart : ∀ k q, (k, q) ∈ s.addressSpace.regionTree → k ≠ r.virtualBase →
      Disjoint r'.frames q.frames) : Backed cfg s' := by
  have hpages : r'.pages = r.pages := by rw [Region.pages, Region.pages, hs.size]
  have haddress (i : ℕ) : r'.pageAddress i = r.pageAddress i := by
    rw [Region.pageAddress, Region.pageAddress, hs.base]
  have hmem {k : ℕ} {q : Region} (hq : (k, q) ∈ s'.addressSpace.regionTree) :
      (k = r.virtualBase ∧ q = r') ∨
        (k ≠ r.virtualBase ∧ (k, q) ∈ s.addressSpace.regionTree) := by
    rw [hs.space] at hq
    exact OrderedMap.mem_insert.mp hq
  refine ⟨hlaid, hsize ▸ h.memory, fun e he hpresent => ?_, fun k q hq hzero i hi hspan he => ?_,
    fun k q hq hne => ?_, fun k q k' q' hq hq' hk => ?_⟩
  · by_cases hset : ∃ i < r.pages, e = LeafTable.index cfg (r.pageAddress i)
    · obtain ⟨i, hi, rfl⟩ := hset
      rw [hs.set i hi]
      exact hs.present i hi
    · rw [hs.kept e fun i hi heq => hset ⟨i, hi, heq⟩] at hpresent ⊢
      exact h.lower e he hpresent
  · rw [hsize]
    rcases hmem hq with ⟨-, rfl⟩ | ⟨hk, hq⟩
    · rw [hpages] at hi
      rw [haddress, hs.set i hi]
      exact hfresh hzero i hi
    · rw [hs.other h.toLaid hk hq hi hspan] at he ⊢
      exact h.fresh k q hq hzero i hi hspan he
  · rw [hsize]
    rcases hmem hq with ⟨-, rfl⟩ | ⟨hk, hq⟩
    · obtain ⟨first, hfirst, hall⟩ := hbacked hne
      refine ⟨first, hfirst, by rw [hs.base, hs.size]; exact hs.span, fun i hi => ?_⟩
      rw [hpages] at hi
      obtain ⟨hused', hlt, hframe⟩ := hall i hi
      rw [haddress, hs.set i hi]
      exact ⟨hused', hlt, hs.present i hi, hframe⟩
    · obtain ⟨first, hfirst, hspan, hall⟩ := h.backed k q hq hne
      refine ⟨first, hfirst, hspan, fun i hi => ?_⟩
      obtain ⟨hused', hlt, hentry⟩ := hall i hi
      have hpage := (Region.pageAddress_eq (h.placed k q hq).fits hi)
      rw [hs.other h.toLaid hk hq hi (by omega)]
      exact ⟨hused _ hused', hlt, hentry⟩
  · rcases hmem hq with ⟨rfl, rfl⟩ | ⟨hne, hq⟩
    · rcases hmem hq' with ⟨rfl, -⟩ | ⟨hne', hq'⟩
      · exact absurd rfl hk
      · exact hapart k' q' hq' hne'
    · rcases hmem hq' with ⟨rfl, rfl⟩ | ⟨-, hq'⟩
      · exact (hapart k q hq hne).symm
      · exact h.apart k q k' q' hq hq' hk

theorem Backed.added {r : Region} (h : Backed cfg s) (hs : Added s s' r) : Backed cfg s' := by
  have hnone : r.frames = ∅ := if_pos hs.unbacked
  refine ⟨hs.laid h.toLaid, hs.physical ▸ h.memory, hs.pageTable ▸ h.lower,
    fun k q hq hzero i hi hspan he => ?_, fun k q hq hne => ?_, fun k q k' q' hq hq' hk => ?_⟩
  · rw [hs.pageTable] at he ⊢
    rw [hs.physical]
    rcases (hs.mem k q).mp hq with ⟨-, rfl⟩ | ⟨-, hq⟩
    · exact absurd he (hs.not_userPresent h.toLaid hi hspan)
    · exact h.fresh k q hq hzero i hi hspan he
  · rw [hs.pageTable, hs.physical]
    rcases (hs.mem k q).mp hq with ⟨-, rfl⟩ | ⟨-, hq⟩
    · exact absurd hs.unbacked hne
    · exact h.backed k q hq hne
  · rcases (hs.mem k q).mp hq with ⟨-, rfl⟩ | ⟨-, hq⟩
    · rw [hnone]
      exact Set.empty_disjoint _
    · rcases (hs.mem k' q').mp hq' with ⟨-, rfl⟩ | ⟨-, hq'⟩
      · rw [hnone]
        exact Set.disjoint_empty _
      · exact h.apart k q k' q' hq hq' hk

theorem Backed.mProtect (h : Backed cfg s) {req : MProtectRequest}
    (hlower : s.Lower cfg (.call (.mProtect req))) : Backed cfg (s.mProtect cfg req).2 := by
  rcases h.mProtect_cases hlower.translated with ⟨-, heq⟩ | ⟨r, hprotects, hphysical, hinst⟩
  · rwa [heq]
  have hlaid := hinst.laid h.toLaid (hphysical ▸ h.wf) (hphysical ▸ h.frames)
  have hframe : ∀ i < r.pages, (PageTableEntry.make
      (s.pageTable.virt2Phys cfg (r.pageAddress i)) 0x97).frame =
        if (s.pageTable (LeafTable.index cfg (r.pageAddress i))).getFlag PTE.present then
          (s.pageTable (LeafTable.index cfg (r.pageAddress i))).frame
        else 2 ^ 40 - 1 :=
    fun i hi => EntryTable.frame_remapped _ cfg (h.dvd_pageAddress hinst.mem hi)
  refine hinst.backed h hlaid (by rw [hphysical]) (fun f hf => hphysical ▸ hf)
    (fun hzero i hi => ?_) (fun hne => ?_) fun k q hq hk => ?_
  · rw [hframe i hi]
    split
    · rename_i hpresent
      have hhalf := hlower r hprotects
      obtain ⟨hpage, hlt⟩ := Region.pageAddress_eq (h.placed _ r hinst.mem).fits hi
      have hindex : LeafTable.index cfg (r.pageAddress i) < LeafTable.size cfg / 2 :=
        LeafTable.index_lt_half (by omega)
      exact h.fresh _ r hinst.mem hzero i hi (by omega) (h.lower _ hindex hpresent)
    · have hmemory := h.memory
      omega
  · obtain ⟨first, hfirst, -, hall⟩ := h.backed _ r hinst.mem hne
    refine ⟨first, hfirst, fun i hi => ?_⟩
    obtain ⟨hused, hlt, hpresent, hentry⟩ := hall i hi
    rw [hframe i hi, if_pos hpresent.1, hphysical]
    exact ⟨hused, hlt, hentry⟩
  · exact h.apart _ r k q hinst.mem hq hk.symm

/-- The frames that a page fault hands out back no region yet. -/
theorem Backed.disjoint_allocated (h : Backed cfg s) {r : Region} {first : ℕ}
    {allocator : BitmapAllocator}
    (halloc : s.physical.allocator.Allocated allocator first r.pages) {k : ℕ} {q : Region}
    (hq : (k, q) ∈ s.addressSpace.regionTree) :
    Disjoint (Region.frames { r with physicalBase := first * PMM.pageSize }) q.frames := by
  have hpos : first * PMM.pageSize ≠ 0 := Nat.mul_ne_zero halloc.frame_pos.ne' (by decide)
  refine Set.disjoint_left.mpr fun f hf hmem => ?_
  rw [Region.frames, if_neg hpos, Region.block] at hf
  obtain ⟨hle, hlt⟩ := Block.mem_frames.mp hf
  have hfree := halloc.free f hle hlt
  rw [(h.mem_frames hq hmem).2.1] at hfree
  cases hfree

theorem Backed.pageFault (h : Backed cfg s) {address : ℕ}
    (hlower : s.Lower cfg (.call (.pageFault address))) :
    Backed cfg (s.handlePageFault cfg address) := by
  rcases h.pageFault_cases hlower.translated with
    ⟨-, physical, hwf, hbitmap, -, heq⟩ | ⟨r, first, hhandles, halloc, -, hinst⟩
  · have hused : physical.allocator.used = s.physical.allocator.used := by
      funext f
      rw [BitmapAllocator.used, BitmapAllocator.used, hbitmap]
    rw [heq]
    refine ⟨⟨hwf, hbitmap ▸ h.frames, h.space, h.placed, h.covered⟩, hbitmap ▸ h.memory, h.lower,
      ?_, ?_, h.apart⟩
    · simp only [hbitmap]
      exact h.fresh
    · simp only [hbitmap, hused]
      exact h.backed
  · have hlaid := hinst.laid h.toLaid halloc.wf (halloc.size_eq ▸ h.frames)
    have hpos : first * PMM.pageSize ≠ 0 := Nat.mul_ne_zero halloc.frame_pos.ne' (by decide)
    refine hinst.backed h hlaid halloc.size_eq (fun f hf => (halloc.used_iff f).mpr (.inl hf))
      (fun hzero => absurd hzero hpos) (fun _ => ⟨first, rfl, fun i hi => ?_⟩)
      fun k q hq _ => h.disjoint_allocated halloc hq
    have hlt := BitmapAllocator.lt_size_of_free (halloc.free (first + i) (by omega) (by omega))
    have hmemory := h.memory
    exact ⟨(halloc.used_iff _).mpr (.inr (by omega)), hlt, frame_frameEntry (by omega)⟩

theorem Backed.write (h : Backed cfg s) (address : ℕ) (value : UInt8) :
    Backed cfg (s.write cfg address value) := by
  unfold ProtectedMemory.write
  split
  · exact h
  · split
    · exact ⟨⟨h.wf, h.frames, h.space, h.placed, h.covered⟩, h.memory, h.lower, h.fresh, h.backed,
        h.apart⟩
    · exact h

theorem Backed.act (h : Backed cfg s) {action : Action} (hlower : s.Lower cfg action)
    (hact : s.act cfg action = some s') : Backed cfg s' := by
  cases action with
  | write address value =>
    obtain rfl := Option.some.inj hact
    exact h.write address value
  | call call =>
    cases call with
    | mMap req =>
      rcases h.mMap_cases hact with rfl | ⟨r, hadded⟩
      · exact h
      · exact h.added hadded
    | mProtect req =>
      obtain rfl := Option.some.inj hact
      exact h.mProtect hlower
    | pageFault address =>
      obtain rfl := Option.some.inj hact
      exact h.pageFault hlower

/-! ## One page fault -/

/-- A page fault in a region without frames maps memory that nobody could reach. -/
theorem Backed.noLoss_of_fresh (h : Backed cfg s) {address : ℕ}
    (hlower : s.Lower cfg (.call (.pageFault address)))
    (hfresh : s.FaultsFresh (.call (.pageFault address))) :
    NoLoss cfg s (s.handlePageFault cfg address) := by
  rcases h.pageFault_cases hlower.translated with
    ⟨-, physical, -, hbitmap, hbytes, heq⟩ | ⟨r, first, hhandles, halloc, hbytes, hinst⟩
  · rw [heq]
    refine ⟨fun k q hq a ha b hb => ?_, fun k q hq f hf _ => .inl ⟨k, q, hq, hf⟩⟩
    rw [read, translate] at hb ⊢
    simp only [hbitmap, hbytes]
    exact hb
  · have hother : ∀ k q, (k, q) ∈ s.addressSpace.regionTree → ∀ f ∈ q.frames,
        k ≠ r.virtualBase := by
      rintro k q hq f hf rfl
      obtain rfl := OrderedMap.value_unique hq hinst.mem
      exact (h.mem_frames hq hf).1 (hfresh q hhandles)
    refine ⟨fun k q hq a ha b hb => ?_, fun k q hq f hf _ => .inl ⟨k, q, ?_, hf⟩⟩
    · obtain ⟨p, hp, rfl⟩ := Option.map_eq_some_iff.mp hb
      obtain ⟨hmem, i, hi, hspan, hindex⟩ := h.frame_mem_of_translate hq ha hp
      have hentry := hinst.other h.toLaid (hother k q hq _ hmem) hq hi hspan
      have hp' : (s.handlePageFault cfg address).translate cfg a = some p := by
        rw [translate, hindex, hentry, halloc.size_eq, ← hindex]
        exact hp
      rw [read, hp', Option.map_some, hbytes]
      -- the frame of `p` is used, those that are zeroed were free
      refine congrArg some (if_neg fun hin => ?_)
      have hfree := halloc.free (p / PMM.pageSize)
        ((Nat.le_div_iff_mul_le (by decide)).mpr hin.1)
        (Nat.div_lt_of_lt_mul (by rw [Nat.mul_add, Nat.mul_comm PMM.pageSize first]; exact hin.2))
      rw [(h.mem_frames hq hmem).2.1] at hfree
      cases hfree
    · rw [hinst.space]
      exact OrderedMap.mem_insert.mpr (.inr ⟨hother k q hq f hf, hq⟩)

/-- The frames that backed the region of a page fault are left without an owner. -/
theorem Backed.fresh_of_noLoss (h : Backed cfg s) {address : ℕ}
    (hlower : s.Lower cfg (.call (.pageFault address)))
    (hloss : NoLoss cfg s (s.handlePageFault cfg address)) :
    s.FaultsFresh (.call (.pageFault address)) := by
  intro q hq
  rcases h.pageFault_cases hlower.translated with
    ⟨hnone, -⟩ | ⟨r, first, hhandles, halloc, -, hinst⟩
  · exact absurd hq (hnone q)
  obtain rfl := Option.some.inj (hq.1.symm.trans hhandles.1)
  by_contra hne
  have hpos := h.pages_pos hinst.mem
  have hmem := h.frame_mem hinst.mem hne hpos
  obtain ⟨-, hused, hlt⟩ := h.mem_frames hinst.mem hmem
  have hnew := h.disjoint_allocated halloc hinst.mem
  rcases hloss.frames _ q hinst.mem _ hmem ((halloc.used_iff _).mpr (.inl hused)) with
    ⟨k, r', hr', hin⟩ | ⟨e, hpresent, hframe⟩
  · rw [hinst.space] at hr'
    rcases OrderedMap.mem_insert.mp hr' with ⟨-, rfl⟩ | ⟨hk, hr'⟩
    · exact Set.disjoint_left.mp hnew hin hmem
    · exact Set.disjoint_left.mp (h.apart k r' _ q hr' hinst.mem hk) hin hmem
  · by_cases hset : ∃ i < q.pages, e = LeafTable.index cfg (q.pageAddress i)
    · -- the new entries point to the new frames
      obtain ⟨i, hi, rfl⟩ := hset
      have hfree := halloc.free (first + i) (by omega) (by omega)
      have hlt' := BitmapAllocator.lt_size_of_free hfree
      have hmemory := h.memory
      rw [hinst.set i hi, frame_frameEntry (by omega)] at hframe
      rw [hframe, hused] at hfree
      cases hfree
    · -- the old ones are those of other regions
      rw [hinst.kept e fun i hi heq => hset ⟨i, hi, heq⟩] at hpresent hframe
      obtain ⟨k, r', hr', i, hi, hspan, rfl⟩ := h.covered e hpresent
      have hk : k ≠ q.virtualBase := by
        rintro rfl
        obtain rfl := OrderedMap.value_unique hr' hinst.mem
        exact hset ⟨i, hi, rfl⟩
      by_cases hzero : r'.physicalBase = 0
      · have hout := h.fresh k r' hr' hzero i hi hspan hpresent
        omega
      · have hin := h.frame_mem hr' hzero hi
        rw [hframe] at hin
        exact Set.disjoint_left.mp (h.apart k r' _ q hr' hinst.mem hk) hin hmem

theorem Backed.keepsData_iff (h : Backed cfg s) {action : Action} (hlower : s.Lower cfg action) :
    s.KeepsData cfg action ↔ s.FaultsFresh action := by
  match action with
  | .write _ _ => exact Iff.rfl
  | .call (.mMap _) => exact Iff.rfl
  | .call (.mProtect _) => exact Iff.rfl
  | .call (.pageFault _) => exact ⟨h.fresh_of_noLoss hlower, h.noLoss_of_fresh hlower⟩

end Steps

/-! ## Runs -/

/-- In every run of `MMap`, `MProtect`, stores and page faults on one process that maps only regions
of the lower half, no page fault loses a byte or a frame exactly when every page fault that is
handled is the first one in its region. The kernel has its entries in the upper half, and the last
frame of the physical address space is not memory. -/
theorem faults_lose_nothing_iff (cfg : Paging) {physical : PhysicalMemory}
    (hwf : physical.allocator.Wf) (hmemory : physical.allocator.pageBitmap.size < 2 ^ 40)
    (totalBase : ℕ) {pageTable : EntryTable}
    (hkernel : ∀ e, (pageTable e).getFlag PTE.present = true →
      LeafTable.size cfg / 2 ≤ e ∧ (pageTable e).getFlag PTE.userSuper = false)
    {actions : List Action}
    (hlower : Along (act cfg) (Lower cfg) (start physical totalBase pageTable) actions) :
    Along (act cfg) (KeepsData cfg) (start physical totalBase pageTable) actions ↔
      Along (act cfg) FaultsFresh (start physical totalBase pageTable) actions := by
  have hnone (k : ℕ) (r : Region) :
      (k, r) ∉ (start physical totalBase pageTable).addressSpace.regionTree :=
    OrderedMap.not_mem_empty _
  have hentry (e : ℕ) : ¬(pageTable e).UserPresent := fun he => by
    have hsuper := (hkernel e he.1).2
    rw [he.2] at hsuper
    cases hsuper
  have hstart : Backed cfg (start physical totalBase pageTable) := by
    refine ⟨⟨hwf, hmemory.le, ⟨fun k r hr => ?_, fun k r _ _ hr => ?_, fun k r hr => ?_⟩,
      fun k r hr => ?_, fun e he => absurd he (hentry e)⟩, hmemory, fun e he hpresent => ?_,
      fun k r hr => ?_, fun k r hr => ?_, fun k r _ _ hr => ?_⟩
    case refine_5 =>
      have hhalf := (hkernel e hpresent).1
      omega
    all_goals exact absurd hr (hnone k r)
  exact Along.congr hstart hlower (fun _ _ h hlower => h.keepsData_iff hlower)
    fun _ _ _ h hlower _ hact => h.act hlower hact

/-- A page is touched, written and protected, and then a second page is touched. -/
theorem faults_lose_nothing_two_pages : ∃ a,
    BitmapAllocator.initializeWith fourFrames PMM.pageSize = .ok a ∧
    Along (act UserMemory.level4) (KeepsData UserMemory.level4)
      (start ⟨a, fun _ => 0⟩ 0x140000000 fun _ => 0)
      [.call (.mMap (fixedPage 0x1000 3)), .call (.pageFault 0x1010), .write 0x1010 7,
        .call (.mProtect ⟨0x1000, 0x1000, 1⟩), .call (.mMap (fixedPage 0x3000 1)),
        .call (.pageFault 0x3000)] := by
  have haligned : MemoryMap.UsableAligned fourFrames := by
    intro z hz _
    obtain rfl := List.mem_singleton.mp hz
    decide
  refine ⟨_, rfl, (faults_lose_nothing_iff UserMemory.level4
    (BitmapAllocator.accounted_initializeWith haligned rfl).wf (by decide) _ (fun _ he => ?_)
    ?_).mpr ?_⟩
  · exact absurd he (by decide)
  · refine .cons trivial rfl (.cons (fun r hr => ?_) rfl (.cons trivial rfl
      (.cons (fun r hr => ?_) rfl (.cons trivial rfl (.cons (fun r hr => ?_) rfl trivial)))))
    · obtain rfl := Option.some.inj hr.1
      decide
    · obtain rfl := Option.some.inj hr.2
      decide
    · obtain rfl := Option.some.inj hr.1
      decide
  · refine .cons trivial rfl (.cons (fun r hr => ?_) rfl (.cons trivial rfl
      (.cons trivial rfl (.cons trivial rfl (.cons (fun r hr => ?_) rfl trivial)))))
    · obtain rfl := Option.some.inj hr.1
      rfl
    · obtain rfl := Option.some.inj hr.1
      rfl

/-- A page is touched and written, and then there is a second fault in it: the byte is 0, and frame
1, which held it, stays marked used although the page is in frame 2. -/
theorem second_fault_loses_byte : ∃ a s,
    BitmapAllocator.initializeWith fourFrames PMM.pageSize = .ok a ∧
    Reaches.runList (act UserMemory.level4) anyCall (start ⟨a, fun _ => 0⟩ 0x140000000 fun _ => 0)
      [.call (.mMap (fixedPage 0x1000 3)), .call (.pageFault 0x1010), .write 0x1010 7] = some s ∧
    s.read UserMemory.level4 0x1010 = some 7 ∧ (s.pageTable 1).frame = 1 ∧
    (s.handlePageFault UserMemory.level4 0x1010).read UserMemory.level4 0x1010 = some 0 ∧
    ((s.handlePageFault UserMemory.level4 0x1010).pageTable 1).frame = 2 ∧
    (s.handlePageFault UserMemory.level4 0x1010).physical.allocator.used 1 = true ∧
    ¬s.KeepsData UserMemory.level4 (.call (.pageFault 0x1010)) := by
  refine ⟨_, _, rfl, rfl, by decide, by decide, by decide, by decide, by decide, fun h => ?_⟩
  have hread := h.bytes 0x1000 ⟨0x1000, 0x1000, 0x1000, ⟨true, true, false, true⟩⟩
    List.mem_cons_self 0x1010 (Set.mem_Ico.mpr (by decide)) 7 (by decide)
  exact absurd hread (by decide)

end ProtectedMemory

end Cryptix.Memory
