import Cryptix.Memory.Protection

/-!
# The pages that `MProtect` protects

`MProtect` of `Kernel/API/MM.cpp` is given a range of pages. It looks for the region of the first
one, sets the access mode of that region and maps all of its pages again. Whether the range is a
part of the region or goes on into another one makes no difference to it, and so the rights of
exactly the pages of the range change only if those of all other pages in question need no change
(`mProtect_exactly_iff`). Before that, the test for an aligned address lets only 0 and `0x1000`
through.
-/

namespace Cryptix.Memory

open Prism Lib

namespace MProtectRequest

/-- The pages of a request, by their addresses. -/
def Covers (req : MProtectRequest) (a : ℕ) : Prop :=
  req.virt.toNat ≤ a ∧ a < req.virt.toNat + req.length.toNat

instance (req : MProtectRequest) (a : ℕ) : Decidable (req.Covers a) :=
  inferInstanceAs (Decidable (_ ∧ _))

/-- The access mode that a request asks for. -/
def access (req : MProtectRequest) : Access := prot2AccessFlags req.prot

end MProtectRequest

instance (e : PageTableEntry) : Decidable e.UserPresent := inferInstanceAs (Decidable (_ ∧ _))

namespace ProtectedMemory

/-! ## The rights of a page -/

/-- The access mode of the region of a page. -/
def accessAt (s : ProtectedMemory) (a : ℕ) : Option Access :=
  (s.addressSpace.find a).map Region.access

/-- What the entry of a page grants to user code, write and execute. -/
def grantedAt (cfg : Paging) (s : ProtectedMemory) (a : ℕ) : Option (Bool × Bool) :=
  let e := s.pageTable (LeafTable.index cfg a)
  if e.UserPresent then some (e.getFlag PTE.writeable, !e.getFlag PTE.noexec) else none

/-- The mode of a page is `access`, and its entry, if there is one yet, grants that. -/
structure HasRights (cfg : Paging) (s : ProtectedMemory) (a : ℕ) (access : Access) : Prop where
  accessAt_eq : s.accessAt a = some access
  granted : ∀ g, s.grantedAt cfg a = some g → g = (access.write, access.execute)

/-- From `s` to `s'` the pages of a request have got their rights, and no others have changed. -/
structure ProtectsExactly (cfg : Paging) (s s' : ProtectedMemory) (req : MProtectRequest) :
    Prop where
  inside : ∀ a, PMM.pageSize ∣ a → a < LeafTable.span cfg → req.Covers a →
    s'.HasRights cfg a req.access
  outside : ∀ a, PMM.pageSize ∣ a → a < LeafTable.span cfg → ¬req.Covers a →
    s'.accessAt a = s.accessAt a ∧ s'.grantedAt cfg a = s.grantedAt cfg a

/-- Protecting the region `r` as a whole does what a request asks for: it asks for write, and for
execute exactly where pages are mapped; its pages in other regions have the rights already, and so
have the pages of `r` that it is not for. -/
structure Suits (cfg : Paging) (s : ProtectedMemory) (req : MProtectRequest) (r : Region) :
    Prop where
  inside : ∀ a, PMM.pageSize ∣ a → a ∈ r.range → req.Covers a → req.access.write = true ∧
    (s.pageTable (LeafTable.index cfg a)).getFlag PTE.present = req.access.execute
  beyond : ∀ a, PMM.pageSize ∣ a → a < LeafTable.span cfg → a ∉ r.range → req.Covers a →
    s.HasRights cfg a req.access
  rest : ∀ a, PMM.pageSize ∣ a → a ∈ r.range → ¬req.Covers a →
    r.access = req.access ∧ s.grantedAt cfg a = some (true, true)

end ProtectedMemory

/-! ## The checks -/

/-- The mask of the test for an aligned address leaves two addresses. -/
theorem and_not_pageSize_eq_zero_iff (virt : Word) :
    virt &&& ~~~(BitVec.ofNat 64 PMM.pageSize) = 0 ↔ virt = 0 ∨ virt = 0x1000 := by
  constructor
  · intro hzero
    have hsplit : virt &&& (0x1000 ||| ~~~0x1000) = virt := by
      rw [show (0x1000 : Word) ||| ~~~0x1000 = BitVec.allOnes 64 from by decide,
        BitVec.and_allOnes]
    rw [BitVec.and_or_distrib_left, show virt &&& ~~~0x1000 = 0 from hzero,
      show (0x1000 : Word) = BitVec.twoPow 64 12 from by decide, BitVec.and_twoPow] at hsplit
    rw [← hsplit]
    cases virt.getLsbD 12
    · exact .inl rfl
    · exact .inr rfl
  · rintro (rfl | rfl)
    · decide
    · decide

variable {cfg : Paging} {req : MProtectRequest}

theorem MProtectRequest.check_of_unaligned (h : ¬(req.virt = 0 ∨ req.virt = 0x1000)) :
    req.check = some (.error .EINVAL) := by
  rw [← and_not_pageSize_eq_zero_iff] at h
  unfold check
  rw [if_pos (bne_iff_ne.mpr h)]

/-- A request for pages below the top gets past the checks. -/
theorem MProtectRequest.check_eq_none (hvirt : req.virt = 0 ∨ req.virt = 0x1000)
    (hlength : 0 < req.length.toNat) (hprot : req.prot &&& ~~~7 = 0)
    (hspan : req.virt.toNat + req.length.toNat ≤ LeafTable.span cfg) : req.check = none := by
  have hsize : LeafTable.span cfg ≤ 2 ^ 57 := by
    unfold LeafTable.span LeafTable.size PMM.pageSize
    cases cfg.mode <;> decide
  have hround : roundUp req.length.toNat PMM.pageSize < req.length.toNat + 4096 ∧
      req.length.toNat ≤ roundUp req.length.toNat PMM.pageSize := by
    unfold roundUp divRoundUp PMM.pageSize
    omega
  have halign : alignUp req.length.toNat PMM.pageSize = roundUp req.length.toNat PMM.pageSize := by
    unfold alignUp wordCount
    exact Nat.mod_eq_of_lt (by omega)
  have hend : offset req.virt.toNat (roundUp req.length.toNat PMM.pageSize) =
      req.virt.toNat + roundUp req.length.toNat PMM.pageSize := by
    apply offset_of_lt
    unfold wordCount
    omega
  unfold check
  simp only [halign, hend, (and_not_pageSize_eq_zero_iff _).mpr hvirt, hprot, bne_self_eq_false,
    Bool.false_eq_true, if_false]
  rw [if_neg (by omega), if_neg (by omega), if_neg (by omega)]

/-! ## Regions and entries after a call -/

/-- The pages inside a region. -/
theorem Region.Placed.exists_pageAddress {r : Region} (h : r.Placed) {a : ℕ} (ha : PMM.pageSize ∣ a)
    (hmem : a ∈ r.range) : ∃ i < r.pages, r.pageAddress i = a := by
  have haligned := h.aligned
  have hfits := h.fits
  simp only [Region.range, Set.mem_Ico] at hmem
  have hi : (a - r.virtualBase) / PMM.pageSize < r.pages := by
    unfold Region.pages divRoundUp PMM.pageSize
    omega
  refine ⟨_, hi, ?_⟩
  rw [(Region.pageAddress_eq h.fits hi).1]
  unfold PMM.pageSize at *
  omega

namespace ProtectedMemory

variable {s s' : ProtectedMemory} {r r' : Region} {entry : ℕ → PageTableEntry} {a : ℕ}

namespace Installed

theorem range_eq (hs : Installed cfg s s' r r' entry) : r'.range = r.range := by
  unfold Region.range
  rw [hs.base, hs.size]

theorem find_inside (hs : Installed cfg s s' r r' entry) (h : Laid cfg s) (ha : a ∈ r.range) :
    s.addressSpace.find a = some r ∧ s'.addressSpace.find a = some r' := by
  have hinv : s'.addressSpace.Inv := by
    rw [hs.space]
    exact h.space.replace hs.mem hs.base hs.size
  refine ⟨(h.space.sound.find_some a r).mpr ⟨AddressSpace.mem_regions.mpr ⟨_, hs.mem⟩, ha⟩, ?_⟩
  refine (hinv.sound.find_some a r').mpr ⟨AddressSpace.mem_regions.mpr ⟨r.virtualBase, ?_⟩, ?_⟩
  · rw [hs.space]
    exact OrderedMap.mem_insert.mpr (.inl ⟨rfl, rfl⟩)
  · rwa [hs.range_eq]

theorem find_outside (hs : Installed cfg s s' r r' entry) (h : Laid cfg s) (ha : a ∉ r.range) :
    s'.addressSpace.find a = s.addressSpace.find a := by
  have hinv : s'.addressSpace.Inv := by
    rw [hs.space]
    exact h.space.replace hs.mem hs.base hs.size
  cases hfind : s.addressSpace.find a with
  | none =>
    rw [h.space.sound.find_none] at hfind
    rw [hinv.sound.find_none]
    intro q hq hqa
    obtain ⟨k, hk⟩ := AddressSpace.mem_regions.mp hq
    rw [hs.space] at hk
    rcases OrderedMap.mem_insert.mp hk with ⟨-, rfl⟩ | ⟨-, hk⟩
    · exact ha (hs.range_eq ▸ hqa)
    · exact hfind q (AddressSpace.mem_regions.mpr ⟨k, hk⟩) hqa
  | some q =>
    obtain ⟨hq, hqa⟩ := (h.space.sound.find_some a q).mp hfind
    obtain ⟨k, hk⟩ := AddressSpace.mem_regions.mp hq
    have hne : k ≠ r.virtualBase := by
      rintro rfl
      obtain rfl := OrderedMap.value_unique hk hs.mem
      exact ha hqa
    refine (hinv.sound.find_some a q).mpr ⟨AddressSpace.mem_regions.mpr ⟨k, ?_⟩, hqa⟩
    rw [hs.space]
    exact OrderedMap.mem_insert.mpr (.inr ⟨hne, hk⟩)

/-- A page outside the region keeps its entry. -/
theorem grantedAt_outside (hs : Installed cfg s s' r r' entry) (h : Laid cfg s)
    (hpage : PMM.pageSize ∣ a) (hspan : a < LeafTable.span cfg) (ha : a ∉ r.range) :
    s'.grantedAt cfg a = s.grantedAt cfg a := by
  have hplaced := h.placed _ r hs.mem
  have hkept : s'.pageTable (LeafTable.index cfg a) = s.pageTable (LeafTable.index cfg a) := by
    refine hs.kept _ fun i hi heq => ha ?_
    obtain ⟨hi', hlt⟩ := Region.pageAddress_eq hplaced.fits hi
    have hspan' := hs.span
    rw [LeafTable.index_inj hpage (h.dvd_pageAddress hs.mem hi) hspan (by omega) heq, hi']
    exact Region.page_mem_range hplaced.fits hi
  unfold grantedAt
  rw [hkept]

end Installed

/-- A page that `MProtect` has mapped again grants write, and execute if it had an entry before. -/
theorem Laid.grantedAt_remapped (h : Laid cfg s)
    (hs : Installed cfg s s' r r' fun i =>
      .make (s.pageTable.virt2Phys cfg (r.pageAddress i)) 0x97)
    (hpage : PMM.pageSize ∣ a) (ha : a ∈ r.range) :
    s'.grantedAt cfg a =
      some (true, (s.pageTable (LeafTable.index cfg a)).getFlag PTE.present) := by
  obtain ⟨i, hi, rfl⟩ := (h.placed _ r hs.mem).exists_pageAddress hpage ha
  obtain ⟨hwrite, hexecute⟩ := (h.grants_remapped_iff hs.mem hi
    ⟨true, true, (s.pageTable (LeafTable.index cfg (r.pageAddress i))).getFlag PTE.present,
      true⟩).mpr ⟨rfl, rfl⟩
  unfold grantedAt
  rw [hs.set i hi, if_pos (hs.present i hi), hwrite, hexecute]

/-- A page without an entry is granted nothing. -/
theorem present_of_grantedAt {g : Bool × Bool} (h : s.grantedAt cfg a = some g) :
    (s.pageTable (LeafTable.index cfg a)).getFlag PTE.present = true := by
  unfold grantedAt at h
  by_contra hnot
  rw [if_neg fun he => hnot he.1] at h
  cases h

/-! ## When the rights of exactly the pages change -/

/-- A region that is protected as a whole: the rights of exactly the pages of the request change
if the request suits the region. -/
theorem Laid.protectsExactly_iff (h : Laid cfg s) (hr : r'.access = req.access)
    (hs : Installed cfg s s' r r' fun i =>
      .make (s.pageTable.virt2Phys cfg (r.pageAddress i)) 0x97) :
    ProtectsExactly cfg s s' req ↔ Suits cfg s req r := by
  have hspan : ∀ a ∈ r.range, a < LeafTable.span cfg := by
    intro a ha
    have hle := hs.span
    simp only [Region.range, Set.mem_Ico] at ha
    omega
  have hmode : ∀ a ∈ r.range, s.accessAt a = some r.access ∧ s'.accessAt a = some req.access := by
    intro a ha
    obtain ⟨hold, hnew⟩ := hs.find_inside h ha
    unfold accessAt
    rw [hold, hnew, Option.map_some, Option.map_some, hr]
    exact ⟨rfl, rfl⟩
  have hother : ∀ a ∉ r.range, s'.accessAt a = s.accessAt a := by
    intro a ha
    unfold accessAt
    rw [hs.find_outside h ha]
  constructor
  · intro hexactly
    refine ⟨fun a hpage ha hcovers => ?_, fun a hpage hlt ha hcovers => ?_,
      fun a hpage ha hcovers => ?_⟩
    · have hgranted := (hexactly.inside a hpage (hspan a ha) hcovers).granted _
        (h.grantedAt_remapped hs hpage ha)
      obtain ⟨hwrite, hexecute⟩ := Prod.mk.inj hgranted
      exact ⟨hwrite.symm, hexecute⟩
    · have hrights := hexactly.inside a hpage hlt hcovers
      refine ⟨(hother a ha).symm.trans hrights.accessAt_eq, fun g hg => hrights.granted g ?_⟩
      rw [hs.grantedAt_outside h hpage hlt ha, hg]
    · obtain ⟨haccess, hgranted⟩ := hexactly.outside a hpage (hspan a ha) hcovers
      rw [(hmode a ha).1, (hmode a ha).2] at haccess
      rw [h.grantedAt_remapped hs hpage ha] at hgranted
      refine ⟨(Option.some.inj haccess).symm, ?_⟩
      rw [← hgranted, present_of_grantedAt hgranted.symm]
  · intro hsuits
    refine ⟨fun a hpage hlt hcovers => ?_, fun a hpage hlt hcovers => ?_⟩
    · by_cases ha : a ∈ r.range
      · obtain ⟨hwrite, hexecute⟩ := hsuits.inside a hpage ha hcovers
        refine ⟨(hmode a ha).2, fun g hg => ?_⟩
        rw [h.grantedAt_remapped hs hpage ha] at hg
        rw [← Option.some.inj hg, hwrite, hexecute]
      · have hrights := hsuits.beyond a hpage hlt ha hcovers
        refine ⟨(hother a ha).trans hrights.accessAt_eq, fun g hg => hrights.granted g ?_⟩
        rw [← hs.grantedAt_outside h hpage hlt ha, hg]
    · by_cases ha : a ∈ r.range
      · obtain ⟨haccess, hgranted⟩ := hsuits.rest a hpage ha hcovers
        rw [(hmode a ha).1, (hmode a ha).2, h.grantedAt_remapped hs hpage ha, hgranted, haccess,
          present_of_grantedAt hgranted]
        exact ⟨rfl, rfl⟩
      · exact ⟨hother a ha, hs.grantedAt_outside h hpage hlt ha⟩

/-- `MProtect` of pages that are inside regions, in a state as `MMap`, page faults and `MProtect`
leave it, with regions below the addresses where the tables begin to repeat: it succeeds and changes
the rights of exactly the pages it is given if and only if the address is 0 or `0x1000` and the
request suits the region of the first page. -/
theorem mProtect_exactly_iff (h : Laid cfg s)
    (hspan : ∀ k r, (k, r) ∈ s.addressSpace.regionTree →
      r.virtualBase + r.size ≤ LeafTable.span cfg)
    (hlength : 0 < req.length.toNat) (hprot : req.prot &&& ~~~7 = 0)
    (hinside : ∀ a, req.Covers a → s.addressSpace.find a ≠ none) :
    ((s.mProtect cfg req).1 = .ok () ∧ ProtectsExactly cfg s (s.mProtect cfg req).2 req) ↔
      (req.virt = 0 ∨ req.virt = 0x1000) ∧
        ∀ r, s.addressSpace.find req.virt.toNat = some r → Suits cfg s req r := by
  by_cases hvirt : req.virt = 0 ∨ req.virt = 0x1000
  · have hregion : ∀ {a : ℕ} {r : Region}, s.addressSpace.find a = some r →
        a < r.virtualBase + r.size ∧ r.virtualBase + r.size ≤ LeafTable.span cfg := by
      intro a r hfind
      have hmem := (h.space.sound.find_some a r).mp hfind
      have hrange := hmem.2
      simp only [Region.range, Set.mem_Ico] at hrange
      exact ⟨hrange.2, hspan _ r (h.space.mem_of_find hfind)⟩
    have hend : req.virt.toNat + req.length.toNat ≤ LeafTable.span cfg := by
      obtain ⟨r, hfind⟩ := Option.ne_none_iff_exists'.mp
        (hinside (req.virt.toNat + req.length.toNat - 1) ⟨by omega, by omega⟩)
      have hlt := hregion hfind
      omega
    obtain ⟨r, hfind⟩ := Option.ne_none_iff_exists'.mp
      (hinside req.virt.toNat ⟨le_rfl, by omega⟩)
    have hcheck : req.check = none := MProtectRequest.check_eq_none hvirt hlength hprot hend
    have htranslated : s.Translated cfg (.mProtect req) :=
      fun q hq => (hregion hq.2).2
    have hok : (s.mProtect cfg req).1 = .ok () := by
      unfold mProtect
      rw [hcheck]
      dsimp only
      rw [hfind]
    rcases h.mProtect_cases htranslated with ⟨hnone, -⟩ | ⟨q, hprotects, -, hinst⟩
    · exact absurd ⟨hcheck, hfind⟩ (hnone r)
    obtain rfl := Option.some.inj (hfind.symm.trans hprotects.2)
    rw [and_iff_right hok, and_iff_right hvirt, h.protectsExactly_iff rfl hinst]
    refine ⟨fun hsuits q hq => ?_, fun hsuits => hsuits r hfind⟩
    rwa [← Option.some.inj (hfind.symm.trans hq)]
  · have hcheck := MProtectRequest.check_of_unaligned hvirt
    refine iff_of_false (fun hok => ?_) fun hand => hvirt hand.1
    have herror := hok.1
    unfold mProtect at herror
    rw [hcheck] at herror
    cases herror

/-- A process with one region. -/
def oneRegion (allocator : BitmapAllocator) (r : Region) (pageTable : EntryTable) :
    ProtectedMemory :=
  ⟨⟨allocator, fun _ => 0⟩, (AddressSpace.withBase 0).insert r.virtualBase r, pageTable⟩

theorem mem_oneRegion {allocator : BitmapAllocator} {pageTable : EntryTable} {k : ℕ} {q : Region} :
    (k, q) ∈ (oneRegion allocator r pageTable).addressSpace.regionTree ↔
      k = r.virtualBase ∧ q = r := by
  refine OrderedMap.mem_insert.trans ⟨fun h => ?_, .inl⟩
  rcases h with h | ⟨-, h⟩
  · exact h
  · exact absurd h (OrderedMap.not_mem_empty _)

/-- A region whose pages have no entries or all have. -/
theorem laid_oneRegion {allocator : BitmapAllocator} {pageTable : EntryTable}
    (hwf : allocator.Wf) (hframes : allocator.pageBitmap.size ≤ 2 ^ 40) (hplaced : r.Placed)
    (hcovered : ∀ e, (pageTable e).UserPresent → ∃ i < r.pages,
      r.pageAddress i < LeafTable.span cfg ∧ e = LeafTable.index cfg (r.pageAddress i)) :
    Laid cfg (oneRegion allocator r pageTable) := by
  refine ⟨hwf, hframes, (AddressSpace.inv_withBase 0).insert hplaced.fits rfl, fun k q hq => ?_,
    fun e he => ?_⟩
  · rw [(mem_oneRegion.mp hq).2]
    exact hplaced
  · exact ⟨r.virtualBase, r, mem_oneRegion.mpr ⟨rfl, rfl⟩, hcovered e he⟩

/-- The allocator of four frames. -/
theorem exists_fourFrames : ∃ allocator,
    BitmapAllocator.initializeWith fourFrames PMM.pageSize = .ok allocator ∧ allocator.Wf ∧
      allocator.pageBitmap.size ≤ 2 ^ 40 := by
  have haligned : MemoryMap.UsableAligned fourFrames := by
    intro z hz _
    obtain rfl := List.mem_singleton.mp hz
    decide
  exact ⟨_, rfl, (BitmapAllocator.accounted_initializeWith haligned rfl).wf, by decide⟩

theorem find_oneRegion {allocator : BitmapAllocator} {pageTable : EntryTable} {q : Region} :
    (oneRegion allocator r pageTable).addressSpace.find a = some q ↔
      (r.virtualBase ≤ a ∧ a < r.endAddress) ∧ r = q := by
  show [r].find? _ = some q ↔ _
  rw [List.find?_singleton]
  simp

/-- One page that may be written and executed, with its entry, for frame `0x2000`. -/
def mappedPage : Region := ⟨0x1000, 0x1000, 0x2000, ⟨true, true, true, true⟩⟩

def mappedEntries : EntryTable := fun e => if e = 1 then 0x2097 else 0

/-- The page is protected with the rights it has. -/
theorem mProtect_exactly_one_page : ∃ allocator,
    BitmapAllocator.initializeWith fourFrames PMM.pageSize = .ok allocator ∧
    ((oneRegion allocator mappedPage mappedEntries).mProtect UserMemory.level4
      ⟨0x1000, 0x1000, 7⟩).1 = .ok () ∧
    ProtectsExactly UserMemory.level4 (oneRegion allocator mappedPage mappedEntries)
      ((oneRegion allocator mappedPage mappedEntries).mProtect UserMemory.level4
        ⟨0x1000, 0x1000, 7⟩).2 ⟨0x1000, 0x1000, 7⟩ := by
  obtain ⟨allocator, heq, hwf, hframes⟩ := exists_fourFrames
  have hcovered : ∀ e, (mappedEntries e).UserPresent → ∃ i < mappedPage.pages,
      mappedPage.pageAddress i < LeafTable.span UserMemory.level4 ∧
        e = LeafTable.index UserMemory.level4 (mappedPage.pageAddress i) := by
    intro e he
    unfold mappedEntries at he
    split at he
    · exact ⟨0, by decide, by decide, by assumption⟩
    · exact absurd he (by decide)
  have hsuits : Suits UserMemory.level4 (oneRegion allocator mappedPage mappedEntries)
      ⟨0x1000, 0x1000, 7⟩ mappedPage := by
    refine ⟨fun a hpage ha _ => ⟨rfl, ?_⟩, fun a _ _ ha hcovers => absurd hcovers ha,
      fun a _ ha hcovers => absurd ha hcovers⟩
    obtain rfl : a = 0x1000 := by
      have hrange : 0x1000 ≤ a ∧ a < 0x1000 + 0x1000 := ha
      unfold PMM.pageSize at hpage
      omega
    show (mappedEntries (LeafTable.index UserMemory.level4 0x1000)).getFlag PTE.present = true
    decide
  have hfits : mappedPage.Fits := by
    unfold Region.Fits
    decide
  refine ⟨allocator, heq, (mProtect_exactly_iff
    (laid_oneRegion hwf hframes ⟨hfits, by decide, by decide, rfl⟩ hcovered) ?_ (by decide)
    (by decide) ?_).mpr ⟨.inr rfl, ?_⟩⟩
  · intro k q hq
    rw [(mem_oneRegion.mp hq).2]
    decide
  · intro a hcovers
    rw [Option.ne_none_iff_exists']
    exact ⟨mappedPage, find_oneRegion.mpr ⟨hcovers, rfl⟩⟩
  · intro q hq
    rw [← (find_oneRegion.mp hq).2]
    exact hsuits

/-- One page at `0x400000` that has not been touched. -/
def untouchedPage : Region := ⟨0x400000, 0x1000, 0, ⟨true, true, false, true⟩⟩

/-- The page at `0x400000` cannot be protected: its address does not get past the test for
alignment. -/
theorem not_mProtect_aligned : ∃ allocator,
    BitmapAllocator.initializeWith fourFrames PMM.pageSize = .ok allocator ∧
    Laid UserMemory.level4 (oneRegion allocator untouchedPage fun _ => 0) ∧
    (∀ a, MProtectRequest.Covers ⟨0x400000, 0x1000, 1⟩ a →
      (oneRegion allocator untouchedPage fun _ => 0).addressSpace.find a ≠ none) ∧
    ((oneRegion allocator untouchedPage fun _ => 0).mProtect UserMemory.level4
      ⟨0x400000, 0x1000, 1⟩).1 = .error .EINVAL := by
  obtain ⟨allocator, heq, hwf, hframes⟩ := exists_fourFrames
  have hfits : untouchedPage.Fits := by
    unfold Region.Fits
    decide
  refine ⟨allocator, heq, laid_oneRegion hwf hframes ⟨hfits, by decide, by decide, rfl⟩ ?_, ?_, rfl⟩
  · intro e he
    exact absurd he (by decide)
  · intro a hcovers
    rw [Option.ne_none_iff_exists']
    exact ⟨untouchedPage, find_oneRegion.mpr ⟨hcovers, rfl⟩⟩

end ProtectedMemory

end Cryptix.Memory
