import Cryptix.Memory.EntryTable
import Cryptix.Memory.UserMemory

/-!
# The rights of regions and page-table entries

`MProtect` of `Kernel/API/MM.cpp`, next to `MMap` and `HandlePageFault`. The access mode of a region
is set by `MMap` and `MProtect`; the flags of its entries are set by `MapRegion` at a page fault and
by `RemapRegion` in `MProtect`, from `Region::PageAttributes`. That function adds write and execute
to the attributes of every region, and for a page that is not mapped `RemapRegion` writes an entry
of ones, which grants write and not execute.

`rights_iff` says that the entries grant what the access modes say exactly in the runs where these
are also the rights that the regions should have. The regions that are mapped have to lie below the
addresses where the tables begin to repeat.
-/

namespace Cryptix.Memory

open Prism Lib

/-- `Prot2AccessFlags`. -/
def prot2AccessFlags (prot : BitVec 32) : Access where
  read := prot &&& 1 != 0
  write := prot &&& 2 != 0
  execute := prot &&& 4 != 0
  user := true

/-- The arguments of `MProtect`. -/
structure MProtectRequest where
  virt : Word
  length : Word
  prot : BitVec 32

/-- What `MProtect` returns before it looks for a region. The mask lets only the addresses 0 and
0x1000 through. -/
def MProtectRequest.check (req : MProtectRequest) : Option (Except Errno Unit) :=
  let length := alignUp req.length.toNat PMM.pageSize
  let regionEnd := offset req.virt.toNat length
  if req.virt &&& ~~~(BitVec.ofNat 64 PMM.pageSize) != 0 then some (.error .EINVAL)
  else if length = 0 then some (.error .EINVAL)
  else if regionEnd < req.virt.toNat then some (.error .EINVAL)
  else if req.virt.toNat = regionEnd then some (.ok ())
  else if req.prot &&& ~~~7 != 0 then some (.error .EINVAL)
  else none

/-- Physical memory and one process, with the flags of its page-table entries. -/
structure ProtectedMemory where
  physical : PhysicalMemory
  addressSpace : AddressSpace
  pageTable : EntryTable

/-- Where the present entries point to. -/
def EntryTable.leaves (t : EntryTable) : LeafTable := fun e =>
  if (t e).getFlag PTE.present then some (t e).address.toNat else none

namespace ProtectedMemory

/-- The memory of the process without the flags, for the calls that do not touch entries. -/
def user (s : ProtectedMemory) : UserSpace := ⟨s.addressSpace, s.pageTable.leaves⟩

/-- `API::MM::MProtect`. -/
def mProtect (cfg : Paging) (s : ProtectedMemory) (req : MProtectRequest) :
    Except Errno Unit × ProtectedMemory :=
  match req.check with
  | some result => (result, s)
  | none =>
    match s.addressSpace.find req.virt.toNat with
    | none => (.error .EFAULT, s)
    | some region =>
      let region := { region with access := prot2AccessFlags req.prot }
      (.ok (), { s with
        addressSpace := s.addressSpace.insert region.virtualBase region
        pageTable := s.pageTable.remapRange cfg region.virtualBase region.size
          region.pageAttributes })

/-- `MM::HandlePageFault`; see `UserSpace.handlePageFault`. -/
def handlePageFault (cfg : Paging) (s : ProtectedMemory) (address : ℕ) : ProtectedMemory :=
  match s.addressSpace.find address with
  | none => s
  | some region =>
    match s.physical.callocatePages (divRoundUp region.size PMM.pageSize) with
    | (0, physical) => { s with physical }
    | (phys, physical) =>
      { physical
        addressSpace :=
          s.addressSpace.insert region.virtualBase { region with physicalBase := phys }
        pageTable := s.pageTable.mapRange cfg region.virtualBase (BitVec.ofNat 64 phys)
          region.size region.pageAttributes }

inductive Call
  | mMap (req : MMapRequest)
  | mProtect (req : MProtectRequest)
  | pageFault (address : ℕ)

def step (cfg : Paging) (s : ProtectedMemory) : Call → Option ProtectedMemory
  | .mMap req =>
    (s.user.mMap req).map fun (_, user) => { s with addressSpace := user.addressSpace }
  | .mProtect req => some (s.mProtect cfg req).2
  | .pageFault address => some (s.handlePageFault cfg address)

end ProtectedMemory

/-! ## The property -/

namespace Region

def pages (r : Region) : ℕ := divRoundUp r.size PMM.pageSize

/-- The address of a page of a region. -/
def pageAddress (r : Region) (i : ℕ) : ℕ := offset r.virtualBase (i * PMM.pageSize)

end Region

/-- The addresses that the tables translate; above them the entries repeat. -/
def LeafTable.span (cfg : Paging) : ℕ := LeafTable.size cfg * PMM.pageSize

namespace PageTableEntry

/-- A present entry that user code can use. -/
def UserPresent (e : PageTableEntry) : Prop :=
  e.getFlag PTE.present = true ∧ e.getFlag PTE.userSuper = true

/-- An entry that grants what an access mode says. -/
def Grants (e : PageTableEntry) (access : Access) : Prop :=
  e.getFlag PTE.writeable = access.write ∧ (!e.getFlag PTE.noexec) = access.execute

end PageTableEntry

namespace ProtectedMemory

/-- Every present user entry of a page of a region grants what the access mode of the region
says. -/
def Rights (cfg : Paging) (s : ProtectedMemory) : Prop :=
  ∀ k r, (k, r) ∈ s.addressSpace.regionTree → ∀ i < r.pages,
    r.pageAddress i < LeafTable.span cfg →
    (s.pageTable (LeafTable.index cfg (r.pageAddress i))).UserPresent →
    (s.pageTable (LeafTable.index cfg (r.pageAddress i))).Grants r.access

/-- The property holds after a call. -/
def KeepsRights (cfg : Paging) (s : ProtectedMemory) (call : Call) : Prop :=
  ∀ s', s.step cfg call = some s' → s'.Rights cfg

/-- A page fault that is handled: there is a region, and memory for it. -/
def Handles (s : ProtectedMemory) (address : ℕ) (r : Region) : Prop :=
  s.addressSpace.find address = some r ∧ (s.physical.callocatePages r.pages).1 ≠ 0

/-- An `MProtect` that changes a region. -/
def Protects (s : ProtectedMemory) (req : MProtectRequest) (r : Region) : Prop :=
  req.check = none ∧ s.addressSpace.find req.virt.toNat = some r

/-- The region of a page fault has write and execute; an `MProtect` gives write, and gives execute
exactly when the pages of the region are mapped. -/
def AsInstalled (cfg : Paging) (s : ProtectedMemory) : Call → Prop
  | .mMap _ => True
  | .mProtect req => ∀ r, s.Protects req r → (prot2AccessFlags req.prot).write = true ∧
      ∀ i < r.pages, (s.pageTable (LeafTable.index cfg (r.pageAddress i))).getFlag PTE.present =
        (prot2AccessFlags req.prot).execute
  | .pageFault address => ∀ r, s.Handles address r →
      r.access.write = true ∧ r.access.execute = true

/-- The region that a call maps lies below the addresses that share entries with others. -/
def Translated (cfg : Paging) (s : ProtectedMemory) : Call → Prop
  | .mMap _ => True
  | .mProtect req => ∀ r, s.Protects req r → r.virtualBase + r.size ≤ LeafTable.span cfg
  | .pageFault address => ∀ r, s.Handles address r → r.virtualBase + r.size ≤ LeafTable.span cfg

end ProtectedMemory

/-! ## What the flags grant -/

/-- The native flags of every region of a user are the same. -/
theorem Region.toNativeFlags_pageAttributes {r : Region} (h : r.access.user = true) :
    r.pageAttributes.toNativeFlags = 0x97 := by
  unfold pageAttributes
  rw [h]
  cases r.access.read <;> cases r.access.write <;> cases r.access.execute <;> decide

namespace PageTableEntry

theorem getFlag_make (a flags flag : Word) :
    (make a flags).getFlag flag = (getFlag a flag || getFlag flags flag) := by
  rw [Bool.eq_iff_iff, Bool.or_eq_true, make_eq]
  simp only [getFlag, bne_iff_ne, BitVec.and_or_distrib_right]
  exact BitVec.or_eq_zero_iff.not.trans not_and_or

/-- An entry of a region is present and for the user, whatever its address is. -/
theorem userPresent_make (a : Word) : (make a 0x97).UserPresent := by
  constructor
  · rw [getFlag_make, show getFlag 0x97 PTE.present = true from by decide, Bool.or_true]
  · rw [getFlag_make, show getFlag 0x97 PTE.userSuper = true from by decide, Bool.or_true]

/-- It grants write, and execute unless the address has bit 63. -/
theorem grants_make_iff (a : Word) (access : Access) :
    (make a 0x97).Grants access ↔
      access.write = true ∧ access.execute = !getFlag a PTE.noexec := by
  have hwrite : getFlag 0x97 PTE.writeable = true := by decide
  have hnoexec : getFlag 0x97 PTE.noexec = false := by decide
  rw [Grants, getFlag_make, getFlag_make, hwrite, hnoexec, Bool.or_true, Bool.or_false]
  exact and_congr eq_comm eq_comm

theorem getFlag_noexec (a : Word) : getFlag a PTE.noexec = a.getLsbD 63 := by
  have hbit : PTE.noexec = BitVec.twoPow 64 63 := by decide
  rw [getFlag, hbit, BitVec.and_twoPow]
  cases a.getLsbD 63 <;> decide

end PageTableEntry

/-- The address that `Remap` gives to the entry of an aligned page has bit 63 exactly when the page
is not mapped. -/
theorem EntryTable.getFlag_noexec_virt2Phys (t : EntryTable) (cfg : Paging) {virt : ℕ}
    (hvirt : PMM.pageSize ∣ virt) :
    PageTableEntry.getFlag (t.virt2Phys cfg virt) PTE.noexec =
      !(t (LeafTable.index cfg virt)).getFlag PTE.present := by
  have hzero : virt % PMM.pageSize = 0 := Nat.mod_eq_zero_of_dvd hvirt
  have hmask : PTE.addressMask.getLsbD 63 = false := by decide
  rw [PageTableEntry.getFlag_noexec]
  simp only [virt2Phys, hzero]
  cases (t (LeafTable.index cfg virt)).getFlag PTE.present with
  | false =>
    rw [if_neg (by decide), BitVec.getLsbD_allOnes]
    rfl
  | true =>
    rw [if_pos rfl, BitVec.add_zero, PageTableEntry.address, BitVec.getLsbD_and, hmask,
      Bool.and_false]
    rfl

/-- The pages of a block of frames below 2 ^ 52 have addresses without bit 63. -/
theorem getFlag_noexec_frame {first i : ℕ} (h : first + i < 2 ^ 40) :
    PageTableEntry.getFlag
      (BitVec.ofNat 64 (first * PMM.pageSize) + BitVec.ofNat 64 (i * PMM.pageSize))
      PTE.noexec = false := by
  have hlt : (first + i) * PMM.pageSize < 2 ^ 63 := by
    unfold PMM.pageSize
    omega
  rw [PageTableEntry.getFlag_noexec, ← BitVec.ofNat_add, ← Nat.add_mul, BitVec.getLsbD_ofNat,
    Nat.testBit_lt_two_pow hlt, Bool.and_false]

/-! ## The pages of regions -/

/-- Translated pages that share an entry are the same page. -/
theorem LeafTable.index_inj {cfg : Paging} {a b : ℕ} (ha : PMM.pageSize ∣ a)
    (hb : PMM.pageSize ∣ b) (hspan : a < LeafTable.span cfg) (hspan' : b < LeafTable.span cfg)
    (h : LeafTable.index cfg a = LeafTable.index cfg b) : a = b := by
  unfold LeafTable.span at hspan hspan'
  have hdiv := (Nat.div_lt_iff_lt_mul (by decide)).mpr hspan
  have hdiv' := (Nat.div_lt_iff_lt_mul (by decide)).mpr hspan'
  unfold LeafTable.index at h
  rw [Nat.mod_eq_of_lt hdiv, Nat.mod_eq_of_lt hdiv'] at h
  unfold PMM.pageSize at *
  omega

namespace Region

variable {r r' : Region} {i j : ℕ} {cfg : Paging}

/-- A page of a region is one of its addresses. -/
theorem pageAddress_eq (hfits : r.Fits) (hi : i < r.pages) :
    r.pageAddress i = r.virtualBase + i * PMM.pageSize ∧ i * PMM.pageSize < r.size := by
  have hlt : i * PMM.pageSize < r.size := by
    unfold pages divRoundUp PMM.pageSize at *
    omega
  refine ⟨offset_of_lt ?_, hlt⟩
  unfold Fits at hfits
  omega

theorem base_mem_range (hpos : 0 < r.size) : r.virtualBase ∈ r.range := by
  simp only [range, Set.mem_Ico]
  omega

theorem page_mem_range (hfits : r.Fits) (hi : i < r.pages) :
    r.virtualBase + i * PMM.pageSize ∈ r.range := by
  have hlt := (pageAddress_eq hfits hi).2
  simp only [range, Set.mem_Ico]
  omega

/-- Where an `MMap` may put a region. -/
structure Placed (r : Region) : Prop where
  fits : r.Fits
  aligned : PMM.pageSize ∣ r.virtualBase
  pos : 0 < r.size
  user : r.access.user = true

/-- Two translated pages of regions that share an entry are the same page. -/
theorem pageAddress_eq_of_index_eq (hr : r.Placed) (hr' : r'.Placed) (hi : i < r.pages)
    (hj : j < r'.pages) (hspan : r.pageAddress i < LeafTable.span cfg)
    (hspan' : r'.pageAddress j < LeafTable.span cfg)
    (h : LeafTable.index cfg (r.pageAddress i) = LeafTable.index cfg (r'.pageAddress j)) :
    r.virtualBase + i * PMM.pageSize = r'.virtualBase + j * PMM.pageSize := by
  rw [(pageAddress_eq hr.fits hi).1] at h hspan
  rw [(pageAddress_eq hr'.fits hj).1] at h hspan'
  exact LeafTable.index_inj (Nat.dvd_add hr.aligned (Nat.dvd_mul_left _ _))
    (Nat.dvd_add hr'.aligned (Nat.dvd_mul_left _ _)) hspan hspan' h

/-- Translated pages of disjoint regions do not share an entry. -/
theorem index_ne_of_disjoint (hr : r.Placed) (hr' : r'.Placed)
    (hdisjoint : Disjoint r.range r'.range)
    (hi : i < r.pages) (hj : j < r'.pages) (hspan : r.pageAddress i < LeafTable.span cfg)
    (hspan' : r'.pageAddress j < LeafTable.span cfg) :
    LeafTable.index cfg (r.pageAddress i) ≠ LeafTable.index cfg (r'.pageAddress j) := by
  intro heq
  have hsame := pageAddress_eq_of_index_eq hr hr' hi hj hspan hspan' heq
  have hmem := page_mem_range hr'.fits hj
  rw [← hsame] at hmem
  exact Set.disjoint_left.mp hdisjoint (page_mem_range hr.fits hi) hmem

end Region

/-- The region that `Find` returns is in the tree, under its base. -/
theorem AddressSpace.Inv.mem_of_find {space : AddressSpace} (h : space.Inv) {address : ℕ}
    {r : Region} (hfind : space.find address = some r) :
    (r.virtualBase, r) ∈ space.regionTree := by
  obtain ⟨k, hk⟩ := AddressSpace.mem_regions.mp (List.mem_of_find?_eq_some hfind)
  rwa [h.own_key k r hk]

namespace ProtectedMemory

/-! ## The invariant -/

/-- Frames have addresses of 52 bits, regions are where `MMap` puts them, and the user entries are
those of the pages of regions. -/
structure Inv (cfg : Paging) (s : ProtectedMemory) : Prop where
  wf : s.physical.allocator.Wf
  frames : s.physical.allocator.pageBitmap.size ≤ 2 ^ 40
  space : s.addressSpace.Inv
  placed : ∀ k r, (k, r) ∈ s.addressSpace.regionTree → r.Placed
  covered : ∀ e, (s.pageTable e).UserPresent → ∃ k r, (k, r) ∈ s.addressSpace.regionTree ∧
    ∃ i < r.pages, r.pageAddress i < LeafTable.span cfg ∧
      e = LeafTable.index cfg (r.pageAddress i)
  rights : s.Rights cfg

/-- The invariant without the rights. -/
structure Laid (cfg : Paging) (s : ProtectedMemory) : Prop where
  wf : s.physical.allocator.Wf
  frames : s.physical.allocator.pageBitmap.size ≤ 2 ^ 40
  space : s.addressSpace.Inv
  placed : ∀ k r, (k, r) ∈ s.addressSpace.regionTree → r.Placed
  covered : ∀ e, (s.pageTable e).UserPresent → ∃ k r, (k, r) ∈ s.addressSpace.regionTree ∧
    ∃ i < r.pages, r.pageAddress i < LeafTable.span cfg ∧
      e = LeafTable.index cfg (r.pageAddress i)

theorem Inv.laid {cfg : Paging} {s : ProtectedMemory} (h : Inv cfg s) : Laid cfg s :=
  ⟨h.wf, h.frames, h.space, h.placed, h.covered⟩

theorem Laid.inv {cfg : Paging} {s : ProtectedMemory} (h : Laid cfg s) (hrights : s.Rights cfg) :
    Inv cfg s :=
  ⟨h.wf, h.frames, h.space, h.placed, h.covered, hrights⟩

/-- A call has given the region `r` a new access mode or backing, `r'`, and its pages new
entries. -/
structure Installed (cfg : Paging) (s s' : ProtectedMemory) (r r' : Region)
    (entry : ℕ → PageTableEntry) : Prop where
  mem : (r.virtualBase, r) ∈ s.addressSpace.regionTree
  span : r.virtualBase + r.size ≤ LeafTable.span cfg
  base : r'.virtualBase = r.virtualBase
  size : r'.size = r.size
  user : r'.access.user = true
  space : s'.addressSpace = s.addressSpace.insert r.virtualBase r'
  present : ∀ i < r.pages, (entry i).UserPresent
  set : ∀ i < r.pages, s'.pageTable (LeafTable.index cfg (r.pageAddress i)) = entry i
  kept : ∀ e, (∀ i < r.pages, e ≠ LeafTable.index cfg (r.pageAddress i)) →
    s'.pageTable e = s.pageTable e

section Steps

variable {cfg : Paging} {s s' : ProtectedMemory} {r r' : Region} {entry : ℕ → PageTableEntry}

/-- The pages of a region below the span have entries of their own. -/
theorem Laid.index_inj (h : Laid cfg s) {k : ℕ} (hr : (k, r) ∈ s.addressSpace.regionTree)
    (hspan : r.virtualBase + r.size ≤ LeafTable.span cfg) :
    ∀ i < r.pages, ∀ j < r.pages, LeafTable.index cfg (r.pageAddress i) =
      LeafTable.index cfg (r.pageAddress j) → i = j := by
  intro i hi j hj heq
  have hplaced := h.placed k r hr
  obtain ⟨hi', hlti⟩ := Region.pageAddress_eq hplaced.fits hi
  obtain ⟨hj', hltj⟩ := Region.pageAddress_eq hplaced.fits hj
  have hsame := Region.pageAddress_eq_of_index_eq hplaced hplaced hi hj (by omega) (by omega) heq
  unfold PMM.pageSize at hsame
  omega

namespace Installed

/-- A page of another region keeps its entry. -/
theorem other (hs : Installed cfg s s' r r' entry) (h : Laid cfg s) {k : ℕ} {q : Region}
    (hk : k ≠ r.virtualBase) (hq : (k, q) ∈ s.addressSpace.regionTree) {j : ℕ} (hj : j < q.pages)
    (hspan : q.pageAddress j < LeafTable.span cfg) :
    s'.pageTable (LeafTable.index cfg (q.pageAddress j)) =
      s.pageTable (LeafTable.index cfg (q.pageAddress j)) := by
  have hplaced := h.placed _ r hs.mem
  refine hs.kept _ fun i hi => ?_
  obtain ⟨hi', hlt⟩ := Region.pageAddress_eq hplaced.fits hi
  have hspan' := hs.span
  exact Region.index_ne_of_disjoint (h.placed k q hq) hplaced
    (h.space.disjoint k q _ r hq hs.mem hk) hj hi hspan (by omega)

/-- The property holds after the call exactly when the new entries grant what the region has. -/
theorem rights_iff_grants (hs : Installed cfg s s' r r' entry) (h : Inv cfg s) :
    s'.Rights cfg ↔ ∀ i < r.pages, (entry i).Grants r'.access := by
  have hpages : r'.pages = r.pages := by rw [Region.pages, Region.pages, hs.size]
  have haddress (i : ℕ) : r'.pageAddress i = r.pageAddress i := by
    rw [Region.pageAddress, Region.pageAddress, hs.base]
  constructor
  · intro hrights i hi
    have hmem : (r.virtualBase, r') ∈ s'.addressSpace.regionTree := by
      rw [hs.space]
      exact OrderedMap.mem_insert.mpr (.inl ⟨rfl, rfl⟩)
    obtain ⟨hi', hlt⟩ := Region.pageAddress_eq (h.placed _ r hs.mem).fits hi
    have hspan := hs.span
    have hgrants := hrights _ r' hmem i (hpages ▸ hi)
    rw [haddress, hs.set i hi] at hgrants
    exact hgrants (by omega) (hs.present i hi)
  · intro hentry k q hq i hi hspan hpresent
    rw [hs.space] at hq
    rcases OrderedMap.mem_insert.mp hq with ⟨-, rfl⟩ | ⟨hk, hq⟩
    · rw [hpages] at hi
      rw [haddress, hs.set i hi]
      exact hentry i hi
    · rw [hs.other h.laid hk hq hi hspan] at hpresent ⊢
      exact h.rights k q hq i hi hspan hpresent

theorem laid (hs : Installed cfg s s' r r' entry) (h : Laid cfg s)
    (hwf : s'.physical.allocator.Wf) (hframes : s'.physical.allocator.pageBitmap.size ≤ 2 ^ 40) :
    Laid cfg s' := by
  have hplaced := h.placed _ r hs.mem
  refine ⟨hwf, hframes, ?_, fun k q hq => ?_, fun e he => ?_⟩
  · rw [hs.space]
    exact h.space.replace hs.mem hs.base hs.size
  · rw [hs.space] at hq
    rcases OrderedMap.mem_insert.mp hq with ⟨-, rfl⟩ | ⟨-, hq⟩
    · refine ⟨?_, hs.base ▸ hplaced.aligned, hs.size ▸ hplaced.pos, hs.user⟩
      unfold Region.Fits
      rw [hs.base, hs.size]
      exact hplaced.fits
    · exact h.placed k q hq
  · rw [hs.space]
    have hnew (i : ℕ) : r'.pageAddress i = r.pageAddress i := by
      rw [Region.pageAddress, Region.pageAddress, hs.base]
    have hpages : r'.pages = r.pages := by rw [Region.pages, Region.pages, hs.size]
    by_cases hset : ∃ i < r.pages, e = LeafTable.index cfg (r.pageAddress i)
    · obtain ⟨i, hi, heq⟩ := hset
      obtain ⟨hi', hlt⟩ := Region.pageAddress_eq hplaced.fits hi
      have hspan := hs.span
      refine ⟨_, r', OrderedMap.mem_insert.mpr (.inl ⟨rfl, rfl⟩), i, hpages ▸ hi, ?_, ?_⟩
      · rw [hnew]
        omega
      · rw [hnew]
        exact heq
    · rw [hs.kept e fun i hi heq => hset ⟨i, hi, heq⟩] at he
      obtain ⟨k, q, hq, i, hi, hspan, heq⟩ := h.covered e he
      have hk : k ≠ r.virtualBase := by
        rintro rfl
        obtain rfl := OrderedMap.value_unique hq hs.mem
        exact hset ⟨i, hi, heq⟩
      exact ⟨k, q, OrderedMap.mem_insert.mpr (.inr ⟨hk, hq⟩), i, hi, hspan, heq⟩

theorem inv (hs : Installed cfg s s' r r' entry) (h : Inv cfg s)
    (hwf : s'.physical.allocator.Wf) (hframes : s'.physical.allocator.pageBitmap.size ≤ 2 ^ 40)
    (hgrants : ∀ i < r.pages, (entry i).Grants r'.access) : Inv cfg s' :=
  (hs.laid h.laid hwf hframes).inv ((hs.rights_iff_grants h).mpr hgrants)

end Installed

end Steps

end ProtectedMemory

/-! ## `MMap` -/

theorem PTE.InMask.dvd {a : Word} (h : InMask a) : PMM.pageSize ∣ a.toNat := by
  have hmask : addressMask.setWidth 12 = 0#12 := by decide
  have hlow : a.setWidth 12 = 0#12 := by
    rw [← h.and_mask, BitVec.setWidth_and, hmask, BitVec.and_zero]
  have hmod := congrArg BitVec.toNat hlow
  rw [BitVec.toNat_setWidth] at hmod
  exact Nat.dvd_of_mod_eq_zero hmod

/-- The region that `MMap` gets from the address space. -/
theorem UserSpace.allocateFor_some {u : UserSpace} {req : MMapRequest} {r : Region}
    {space : AddressSpace} (haddr : PTE.InMask req.addr)
    (h : u.allocateFor req = (some r, space)) :
    PMM.pageSize ∣ r.virtualBase ∧
      u.addressSpace.isAvailable r.virtualBase r.size = true := by
  unfold allocateFor at h
  dsimp only at h
  split at h
  · unfold AddressSpace.allocateFixed at h
    dsimp only at h
    split at h
    · rename_i havail
      obtain ⟨rfl, rfl⟩ := by simpa using h
      exact ⟨haddr.dvd, havail⟩
    · simp at h
  · unfold AddressSpace.allocateRegion at h
    split at h
    · simp at h
    · rename_i base hbase
      obtain ⟨rfl, rfl⟩ := by simpa using h
      have hpage : PMM.pageSize ∣ req.pageSize := by
        unfold MMapRequest.pageSize
        split
        · decide
        · split <;> decide
      exact ⟨AddressSpace.dvd_of_firstFit hpage (by decide) _ _ hbase,
        AddressSpace.isAvailable_of_firstFit _ _ hbase⟩

/-- The region that `MMap` adds: the assertion at the end fails for a region that reaches the top of
the address space or is empty. -/
theorem UserSpace.mMap_placed {u u' : UserSpace} {req : MMapRequest} {result : Except Errno ℕ}
    (h : u.mMap req = some (result, u')) :
    u' = u ∨ ∃ region : Region, region.Placed ∧ region.physicalBase = 0 ∧
      u.addressSpace.isAvailable region.virtualBase region.size = true ∧
      ∃ old : Region, old.virtualBase = region.virtualBase ∧ old.size = region.size ∧
      u'.addressSpace =
        (u.addressSpace.insert old.virtualBase old).insert region.virtualBase region := by
  obtain rfl | ⟨region, hregion, hmask, hspace, rfl, hfind⟩ := UserSpace.mMap_cases h
  · exact .inl rfl
  obtain ⟨haligned, havail⟩ := allocateFor_some hmask hspace
  refine .inr ⟨{ region with access := req.access }, ?_, hregion.physicalBase_eq, havail, region,
    rfl, rfl, rfl⟩
  -- the region is found at its base, so it is not empty and does not wrap around
  have htest := List.find?_some hfind
  have hlt : region.virtualBase < (region.virtualBase + region.size) % wordCount :=
    (decide_eq_true_iff.mp htest).2
  have hsize := hregion.lt
  have hword : region.virtualBase < wordCount := hlt.trans (Nat.mod_lt _ (by decide))
  have hfits : region.virtualBase + region.size < wordCount := by
    by_contra hge
    rw [Nat.mod_eq_sub_mod (by omega), Nat.mod_eq_of_lt (by omega)] at hlt
    omega
  rw [Nat.mod_eq_of_lt hfits] at hlt
  exact ⟨hfits, haligned, Nat.pos_of_lt_add_right hlt, rfl⟩

namespace ProtectedMemory

variable {cfg : Paging} {s s' : ProtectedMemory}

/-- `MMap` has put the region `r` into the tree. -/
structure Added (s s' : ProtectedMemory) (r : Region) : Prop where
  placed : r.Placed
  unbacked : r.physicalBase = 0
  physical : s'.physical = s.physical
  pageTable : s'.pageTable = s.pageTable
  space : s'.addressSpace.Inv
  disjoint : ∀ k q, (k, q) ∈ s.addressSpace.regionTree → Disjoint r.range q.range
  mem : ∀ k q, (k, q) ∈ s'.addressSpace.regionTree ↔ (k = r.virtualBase ∧ q = r) ∨
    (k ≠ r.virtualBase ∧ (k, q) ∈ s.addressSpace.regionTree)

theorem Laid.mMap_cases (h : Laid cfg s) {req : MMapRequest}
    (hstep : s.step cfg (.mMap req) = some s') : s' = s ∨ ∃ r, Added s s' r := by
  obtain ⟨⟨result, user⟩, hmap, rfl⟩ := Option.map_eq_some_iff.mp hstep
  rcases UserSpace.mMap_placed hmap with
    rfl | ⟨region, hplaced, hunbacked, havail, old, hbase, hsize, hspace⟩
  · exact .inl rfl
  refine .inr ⟨region, hplaced, hunbacked, rfl, rfl, ?_,
    fun k q hq => h.space.disjoint_of_isAvailable hplaced.fits havail hq, fun k q => ?_⟩
  · simp only [hspace]
    have hold : (s.addressSpace.insert old.virtualBase old).Inv := by
      refine h.space.insert ?_ (hbase ▸ hsize ▸ havail)
      unfold Region.Fits
      rw [hbase, hsize]
      exact hplaced.fits
    refine hold.replace (r := old) (OrderedMap.mem_insert.mpr (.inl ⟨hbase.symm, rfl⟩)) hbase.symm
      hsize.symm
  · simp only [hspace]
    refine OrderedMap.mem_insert.trans (or_congr_right (and_congr_right fun hk => ?_))
    refine OrderedMap.mem_insert.trans ⟨fun hq => ?_, fun hq => .inr ⟨hbase ▸ hk, hq⟩⟩
    rcases hq with ⟨hk', -⟩ | ⟨-, hq⟩
    · exact absurd (hk'.trans hbase) hk
    · exact hq

/-- A new region has no entries yet. -/
theorem Added.not_userPresent {r : Region} (hs : Added s s' r) (h : Laid cfg s) {i : ℕ}
    (hi : i < r.pages) (hspan : r.pageAddress i < LeafTable.span cfg) :
    ¬(s.pageTable (LeafTable.index cfg (r.pageAddress i))).UserPresent := by
  intro he
  obtain ⟨k, q, hq, j, hj, hspan', heq⟩ := h.covered _ he
  exact Region.index_ne_of_disjoint hs.placed (h.placed k q hq) (hs.disjoint k q hq) hi hj hspan
    hspan' heq

theorem Added.laid {r : Region} (hs : Added s s' r) (h : Laid cfg s) : Laid cfg s' := by
  refine ⟨hs.physical ▸ h.wf, hs.physical ▸ h.frames, hs.space, fun k q hq => ?_, fun e he => ?_⟩
  · rcases (hs.mem k q).mp hq with ⟨-, rfl⟩ | ⟨-, hq⟩
    · exact hs.placed
    · exact h.placed k q hq
  · rw [hs.pageTable] at he
    obtain ⟨k, q, hq, i, hi, hspan, heq⟩ := h.covered e he
    have hk : k ≠ r.virtualBase := by
      -- the two regions would share their base
      rintro rfl
      have hmem := Region.base_mem_range (h.placed _ q hq).pos
      rw [h.space.own_key _ q hq] at hmem
      exact Set.disjoint_left.mp (hs.disjoint _ q hq) (Region.base_mem_range hs.placed.pos) hmem
    exact ⟨k, q, (hs.mem k q).mpr (.inr ⟨hk, hq⟩), i, hi, hspan, heq⟩

theorem Inv.mMap (h : Inv cfg s) {req : MMapRequest} (hstep : s.step cfg (.mMap req) = some s') :
    Inv cfg s' := by
  rcases h.laid.mMap_cases hstep with rfl | ⟨r, hadded⟩
  · exact h
  refine (hadded.laid h.laid).inv fun k q hq i hi hspan he => ?_
  rw [hadded.pageTable] at he ⊢
  rcases (hadded.mem k q).mp hq with ⟨-, rfl⟩ | ⟨-, hq⟩
  · exact absurd he (hadded.not_userPresent h.laid hi hspan)
  · exact h.rights k q hq i hi hspan he

/-! ## Page faults and `MProtect` -/

/-- The entries of the pages of a block of frames. -/
def frameEntry (first i : ℕ) : PageTableEntry :=
  .make (BitVec.ofNat 64 (first * PMM.pageSize) + BitVec.ofNat 64 (i * PMM.pageSize)) 0x97

/-- A page fault that is not handled changes no region, no entry and no byte. One that is handled
gives the region a block of free frames, zeroed and mapped. -/
theorem Laid.pageFault_cases (h : Laid cfg s) {address : ℕ}
    (htranslated : s.Translated cfg (.pageFault address)) :
    ((∀ r, ¬s.Handles address r) ∧ ∃ physical : PhysicalMemory, physical.allocator.Wf ∧
      physical.allocator.pageBitmap = s.physical.allocator.pageBitmap ∧
      physical.bytes = s.physical.bytes ∧ s.handlePageFault cfg address = { s with physical }) ∨
    ∃ r first, s.Handles address r ∧
      s.physical.allocator.Allocated (s.handlePageFault cfg address).physical.allocator first
        r.pages ∧
      (s.handlePageFault cfg address).physical.bytes =
        (s.physical.fillZero (first * PMM.pageSize) (PMM.pageSize * r.pages)).bytes ∧
      Installed cfg s (s.handlePageFault cfg address) r
        { r with physicalBase := first * PMM.pageSize } (frameEntry first) := by
  unfold handlePageFault
  split
  · rename_i hnone
    exact .inl ⟨fun r hr => by simp [hr.1] at hnone, _, h.wf, rfl, rfl, rfl⟩
  · rename_i r hfind
    have hpages : divRoundUp r.size PMM.pageSize = r.pages := rfl
    rw [hpages]
    rcases PhysicalMemory.callocatePages_spec h.wf r.pages with
      ⟨first, physical, hcount, hcall, halloc, hbytes⟩ | ⟨physical, hcall, hwf, hbitmap, hbytes⟩
    · have hpos : first * PMM.pageSize ≠ 0 := Nat.mul_ne_zero halloc.frame_pos.ne' (by decide)
      have hhandles : s.Handles address r := ⟨hfind, by rwa [hcall]⟩
      have hmem := h.space.mem_of_find hfind
      have hspan := htranslated r hhandles
      have huser := (h.placed _ r hmem).user
      obtain ⟨hset, hkept⟩ := EntryTable.mapRange_apply s.pageTable r.virtualBase r.size
        r.pageAttributes (BitVec.ofNat 64 (first * PMM.pageSize))
        (h.index_inj hmem hspan)
      rw [Region.toNativeFlags_pageAttributes huser] at hset
      rw [hcall]
      split
      · rename_i heq
        exact absurd (Prod.mk.inj heq).1 hpos
      · rename_i heq
        obtain ⟨rfl, rfl⟩ := Prod.mk.inj heq
        exact .inr ⟨r, first, hhandles, halloc, hbytes, hmem, hspan, rfl, rfl, huser, rfl,
          fun _ _ => PageTableEntry.userPresent_make _, hset, hkept⟩
    · rw [hcall]
      refine .inl ⟨fun r' hr' => ?_, physical, hwf, hbitmap, hbytes, rfl⟩
      obtain rfl := Option.some.inj (hfind.symm.trans hr'.1)
      exact hr'.2 (by rw [hcall])

/-- The entries of a block of free frames grant write and execute. -/
theorem Laid.grants_frameEntry_iff (h : Laid cfg s) {allocator : BitmapAllocator} {first count : ℕ}
    (halloc : s.physical.allocator.Allocated allocator first count) {i : ℕ} (hi : i < count)
    (access : Access) :
    (frameEntry first i).Grants access ↔ access.write = true ∧ access.execute = true := by
  have hfree := halloc.free (first + i) (by omega) (by omega)
  have hframe := (BitmapAllocator.lt_size_of_free hfree).trans_le h.frames
  rw [frameEntry, PageTableEntry.grants_make_iff, getFlag_noexec_frame hframe]
  rfl

/-- An `MProtect` that finds a region maps the pages of the region again, where they were. -/
theorem Laid.mProtect_cases (h : Laid cfg s) {req : MProtectRequest}
    (htranslated : s.Translated cfg (.mProtect req)) :
    ((∀ r, ¬s.Protects req r) ∧ (s.mProtect cfg req).2 = s) ∨
      ∃ r, s.Protects req r ∧ (s.mProtect cfg req).2.physical = s.physical ∧
        Installed cfg s (s.mProtect cfg req).2 r { r with access := prot2AccessFlags req.prot }
          fun i => .make (s.pageTable.virt2Phys cfg (r.pageAddress i)) 0x97 := by
  unfold mProtect
  split
  · rename_i hcheck
    exact .inl ⟨fun r hr => by simp [hr.1] at hcheck, rfl⟩
  · rename_i hcheck
    split
    · rename_i hnone
      exact .inl ⟨fun r hr => by simp [hr.2] at hnone, rfl⟩
    · rename_i r hfind
      have hprotects : s.Protects req r := ⟨hcheck, hfind⟩
      have hmem := h.space.mem_of_find hfind
      have hspan := htranslated r hprotects
      obtain ⟨hset, hkept⟩ := EntryTable.remapRange_apply s.pageTable r.virtualBase r.size
        { r with access := prot2AccessFlags req.prot }.pageAttributes
        (h.index_inj hmem hspan)
      rw [Region.toNativeFlags_pageAttributes
        (r := { r with access := prot2AccessFlags req.prot }) rfl] at hset
      exact .inr ⟨r, hprotects, rfl, hmem, hspan, rfl, rfl, rfl, rfl,
        fun _ _ => PageTableEntry.userPresent_make _, hset, hkept⟩

/-- The pages of a region are aligned. -/
theorem Laid.dvd_pageAddress (h : Laid cfg s) {k : ℕ} {r : Region}
    (hr : (k, r) ∈ s.addressSpace.regionTree) {i : ℕ} (hi : i < r.pages) :
    PMM.pageSize ∣ r.pageAddress i := by
  have hplaced := h.placed k r hr
  rw [(Region.pageAddress_eq hplaced.fits hi).1]
  exact Nat.dvd_add hplaced.aligned (Nat.dvd_mul_left _ _)

/-- A page that `MProtect` has mapped again grants write, and execute if it had an entry before. -/
theorem Laid.grants_remapped_iff (h : Laid cfg s) {k : ℕ} {r : Region}
    (hr : (k, r) ∈ s.addressSpace.regionTree) {i : ℕ} (hi : i < r.pages) (access : Access) :
    (PageTableEntry.make (s.pageTable.virt2Phys cfg (r.pageAddress i)) 0x97).Grants access ↔
      access.write = true ∧ access.execute =
        (s.pageTable (LeafTable.index cfg (r.pageAddress i))).getFlag PTE.present := by
  rw [PageTableEntry.grants_make_iff,
    EntryTable.getFlag_noexec_virt2Phys _ _ (h.dvd_pageAddress hr hi), Bool.not_not]

/-! ## Runs -/

theorem Inv.step (h : Inv cfg s) {call : Call} (htranslated : s.Translated cfg call)
    (hinstalled : s.AsInstalled cfg call) (hstep : s.step cfg call = some s') : Inv cfg s' := by
  cases call with
  | mMap req => exact h.mMap hstep
  | mProtect req =>
    obtain rfl := Option.some.inj hstep
    rcases h.laid.mProtect_cases htranslated with ⟨-, heq⟩ | ⟨r, hprotects, hphysical, hinst⟩
    · rwa [heq]
    · obtain ⟨hwrite, hexecute⟩ := hinstalled r hprotects
      refine hinst.inv h (hphysical ▸ h.wf) (hphysical ▸ h.frames) fun i hi => ?_
      rw [h.laid.grants_remapped_iff hinst.mem hi]
      exact ⟨hwrite, (hexecute i hi).symm⟩
  | pageFault address =>
    obtain rfl := Option.some.inj hstep
    rcases h.laid.pageFault_cases htranslated with
      ⟨-, physical, hwf, hbitmap, -, heq⟩ | ⟨r, first, hhandles, halloc, -, hinst⟩
    · rw [heq]
      exact ⟨hwf, hbitmap ▸ h.frames, h.space, h.placed, h.covered, h.rights⟩
    · refine hinst.inv h halloc.wf (halloc.size_eq ▸ h.frames) fun i hi => ?_
      rw [h.laid.grants_frameEntry_iff halloc hi]
      exact hinstalled r hhandles

/-- A region has a page. -/
theorem Laid.pages_pos (h : Laid cfg s) {k : ℕ} {r : Region}
    (hr : (k, r) ∈ s.addressSpace.regionTree) : 0 < r.pages := by
  have hpos := (h.placed k r hr).pos
  unfold Region.pages divRoundUp PMM.pageSize
  omega

/-- One call keeps the property exactly when the rights are those that are installed. -/
theorem Inv.keepsRights_iff (h : Inv cfg s) {call : Call} (htranslated : s.Translated cfg call) :
    s.KeepsRights cfg call ↔ s.AsInstalled cfg call := by
  refine ⟨fun hkeeps => ?_, fun hinstalled s' hstep => (h.step htranslated hinstalled hstep).rights⟩
  cases call with
  | mMap req => trivial
  | mProtect req =>
    intro r hprotects
    rcases h.laid.mProtect_cases htranslated with ⟨hnone, -⟩ | ⟨q, hprotects', -, hinst⟩
    · exact absurd hprotects (hnone r)
    · obtain rfl := Option.some.inj (hprotects.2.symm.trans hprotects'.2)
      have hall := (hinst.rights_iff_grants h).mp (hkeeps _ rfl)
      have hgrants : ∀ i (hi : i < r.pages), _ := fun i hi =>
        (h.laid.grants_remapped_iff hinst.mem hi _).mp (hall i hi)
      exact ⟨(hgrants 0 (h.laid.pages_pos hinst.mem)).1, fun i hi => (hgrants i hi).2.symm⟩
  | pageFault address =>
    intro r hhandles
    rcases h.laid.pageFault_cases htranslated with
      ⟨hnone, -⟩ | ⟨q, first, hhandles', halloc, -, hinst⟩
    · exact absurd hhandles (hnone r)
    · obtain rfl := Option.some.inj (hhandles.1.symm.trans hhandles'.1)
      have hall := (hinst.rights_iff_grants h).mp (hkeeps _ rfl)
      have hpos := h.laid.pages_pos hinst.mem
      exact (h.laid.grants_frameEntry_iff halloc hpos _).mp (hall 0 hpos)

/-- A process that has not mapped anything yet; the entries that its tables have are the
kernel's. -/
def start (physical : PhysicalMemory) (totalBase : ℕ) (pageTable : EntryTable) : ProtectedMemory :=
  ⟨physical, .withBase totalBase, pageTable⟩

/-- In every run of `MMap`, `MProtect` and page faults on one process that maps only regions with
entries of their own, the property holds in every state exactly when every call finds or sets the
rights that it installs. Physical addresses have 52 bits at most. -/
theorem rights_iff (cfg : Paging) {physical : PhysicalMemory} (hwf : physical.allocator.Wf)
    (hframes : physical.allocator.pageBitmap.size ≤ 2 ^ 40) (totalBase : ℕ) {pageTable : EntryTable}
    (hkernel : ∀ e, ¬(pageTable e).UserPresent) {calls : List Call}
    (htranslated : Along (step cfg) (Translated cfg) (start physical totalBase pageTable) calls) :
    Along (step cfg) (KeepsRights cfg) (start physical totalBase pageTable) calls ↔
      Along (step cfg) (AsInstalled cfg) (start physical totalBase pageTable) calls := by
  have hnone (k : ℕ) (r : Region) :
      (k, r) ∉ (start physical totalBase pageTable).addressSpace.regionTree :=
    OrderedMap.not_mem_empty _
  have hstart : Inv cfg (start physical totalBase pageTable) := by
    refine ⟨hwf, hframes, ⟨fun k r hr => ?_, fun k r _ _ hr => ?_, fun k r hr => ?_⟩,
      fun k r hr => ?_, fun e he => absurd he (hkernel e), fun k r hr => ?_⟩
    all_goals exact absurd hr (hnone k r)
  exact Along.congr hstart htranslated (fun _ _ h htranslated => h.keepsRights_iff htranslated)
    fun _ _ _ h htranslated hinstalled hstep => h.step htranslated hinstalled hstep

/-- An anonymous mapping of one page at a fixed address. -/
def fixedPage (addr : Word) (prot : BitVec 32) : MMapRequest :=
  { addr, length := 0x1000, prot, flags := 0x32 }

/-- A page that may be written and executed is touched and protected with the same rights, and one
that was not touched is made writable. -/
theorem rights_iff_two_pages : ∃ a, BitmapAllocator.initializeWith fourFrames PMM.pageSize = .ok a ∧
    Along (step UserMemory.level4) (KeepsRights UserMemory.level4)
      (start ⟨a, fun _ => 0⟩ 0x140000000 fun _ => 0)
      [.mMap (fixedPage 0x1000 7), .pageFault 0x1010, .mProtect ⟨0x1000, 0x1000, 7⟩,
        .mMap (fixedPage 0 1), .mProtect ⟨0, 0x1000, 2⟩] := by
  have haligned : MemoryMap.UsableAligned fourFrames := by
    intro z hz _
    obtain rfl := List.mem_singleton.mp hz
    decide
  refine ⟨_, rfl, (rights_iff UserMemory.level4
    (BitmapAllocator.accounted_initializeWith haligned rfl).wf (by decide) _ (fun _ he => ?_)
    ?_).mpr
    ?_⟩
  · exact absurd he.1 (by decide)
  · refine .cons trivial rfl (.cons (fun r hr => ?_) rfl (.cons (fun r hr => ?_) rfl
      (.cons trivial rfl (.cons (fun r hr => ?_) rfl trivial))))
    · obtain rfl := Option.some.inj hr.1
      decide
    · obtain rfl := Option.some.inj hr.2
      decide
    · obtain rfl := Option.some.inj hr.2
      decide
  · refine .cons trivial rfl (.cons (fun r hr => ?_) rfl (.cons (fun r hr => ?_) rfl
      (.cons trivial rfl (.cons (fun r hr => ?_) rfl trivial))))
    · obtain rfl := Option.some.inj hr.1
      decide
    · obtain rfl := Option.some.inj hr.2
      decide
    · obtain rfl := Option.some.inj hr.2
      decide

/-- A page that may be read and written, but not executed, is touched: its entry grants execute. -/
theorem not_rights_read_write : ∃ a s,
    BitmapAllocator.initializeWith fourFrames PMM.pageSize = .ok a ∧
    Reaches.runList (step UserMemory.level4) anyCall (start ⟨a, fun _ => 0⟩ 0x140000000 fun _ => 0)
      [.mMap (fixedPage 0x1000 3), .pageFault 0x1010] = some s ∧
    s.pageTable 1 = 0x1097 ∧ ¬s.Rights UserMemory.level4 := by
  refine ⟨_, _, rfl, rfl, by decide, fun h => ?_⟩
  have hgrants := h 0x1000 ⟨0x1000, 0x1000, 0x1000, ⟨true, true, false, true⟩⟩ List.mem_cons_self 0
    (by decide) (by decide) ⟨rfl, rfl⟩
  cases hgrants.2

end ProtectedMemory

end Cryptix.Memory
