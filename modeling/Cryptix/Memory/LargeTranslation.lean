import Cryptix.Memory.LargePages

/-!
# `Virt2Phys` of large pages

`Virt2Phys` adds to the address bits of an entry the offset of the address inside a page of the size
it was asked for, whatever the size of the page that is mapped. So with the default flags the offset
inside a large page is cut off at 4 KiB. With the flags of the mapping it is right, but for the PAT
bit: that of a large entry is bit 12, which `GetAddressMask` takes for an address bit.
-/

namespace Cryptix.Memory

open Lib

namespace PageAttributes

/-- The caching attributes for which `ToNativeFlags` sets the PAT bit. -/
def usesPat (attribs : PageAttributes) : Bool :=
  !attribs.has writeCombining && (attribs.has writeThrough || attribs.has uncacheableStrong)

theorem has_or (attribs f g : PageAttributes) :
    attribs.has (f ||| g) = (attribs.has f || attribs.has g) := by
  unfold has
  rw [BitVec.and_or_distrib_left, Bool.eq_iff_iff, Bool.or_eq_true]
  simp only [bne_iff_ne, ne_eq, BitVec.ofNat_eq_ofNat, BitVec.or_eq_zero_iff]
  tauto

/-- The PAT bit is the only native flag of a large page inside the address mask. -/
theorem toNativeFlags_and_mask {attribs : PageAttributes} (hlarge : getPageSize attribs ≠ .page) :
    attribs.toNativeFlags &&& PTE.addressMask = if attribs.usesPat then PTE.patlg else 0 := by
  have hflags : ∀ x f : Word, x &&& PTE.addressMask = 0 →
      (x ||| f) &&& PTE.addressMask = f &&& PTE.addressMask := by
    intro x f hx
    rw [BitVec.and_or_distrib_right, hx]
    exact BitVec.zero_or
  have haccess := (accessFlags_flagWord attribs).no_address
  have hlpage : (attribs.accessFlags &&& PTE.lpage != 0) = true := by
    rw [show attribs.accessFlags &&& PTE.lpage = PTE.lpage from accessFlags_large hlarge]
    decide
  have hcached : (if attribs.has uncacheableStrong then attribs.accessFlags ||| PTE.pcd
      else attribs.accessFlags) &&& PTE.addressMask = 0 := by
    split
    · rw [hflags _ _ haccess]
      decide
    · exact haccess
  have hprotected : attribs.has writeProtected =
      (attribs.has writeThrough || attribs.has writeCombining) := has_or _ _ _
  have hback : attribs.has writeBack =
      (attribs.has writeThrough || attribs.has uncacheableStrong) := has_or _ _ _
  have huncached : attribs.has uncacheable =
      (attribs.has writeCombining || attribs.has uncacheableStrong ||
        attribs.has writeThrough) := by
    rw [← has_or, ← has_or]
    rfl
  unfold toNativeFlags usesPat
  dsimp only
  rw [if_pos hlpage, hprotected, hback, huncached]
  generalize (if attribs.has uncacheableStrong then attribs.accessFlags ||| PTE.pcd
    else attribs.accessFlags) = x at hcached ⊢
  cases attribs.has writeCombining
  · cases attribs.has writeThrough
    · cases attribs.has uncacheableStrong
      · simpa using hcached
      · simp only [Bool.or_true, Bool.not_false, Bool.true_and, if_true, if_false,
          Bool.or_false, Bool.false_eq_true]
        rw [hflags _ _ hcached]
        decide
    · simp only [if_true, Bool.false_eq_true, if_false, Bool.not_false, Bool.true_and, Bool.true_or]
      rw [hflags _ _ hcached]
      decide
  · simp only [if_true, Bool.not_true, Bool.false_and, Bool.false_eq_true, if_false]
    rw [BitVec.and_assoc, BitVec.and_comm (~~~PTE.patlg), ← BitVec.and_assoc, hflags _ _ hcached]
    decide

end PageAttributes

namespace PageMap

open PageTableEntry

variable {cfg : Paging} {pm pm' : PageMap} {v w virt phys a : Word} {s t : PageSize}
  {e : PageTableEntry} {flags query : PageAttributes}

/-! ## The address bits of a large entry -/

/-- What the PAT bit adds to the address of a large entry. -/
def patOffset (flags : PageAttributes) : Word := if flags.usesPat then 0x1000 else 0

theorem address_make_large (hlarge : getPageSize flags ≠ .page) (a : Word) :
    (make a flags.toNativeFlags).address = a &&& PTE.addressMask ||| patOffset flags := by
  rw [make_eq, address, BitVec.and_or_distrib_right, PageAttributes.toNativeFlags_and_mask hlarge]
  rfl

/-- An aligned address of a large page has no bits below 2 MiB. -/
theorem setWidth_of_aligned (ha : a % s.bytes = 0) (hs : s ≠ .page) : a.setWidth 21 = 0 := by
  have hmod : a.toNat % s.bytes.toNat = 0 := by
    rw [← BitVec.toNat_umod, ha]
    rfl
  apply BitVec.eq_of_toNat_eq
  rw [BitVec.toNat_setWidth]
  show a.toNat % 2 ^ 21 = 0
  cases s with
  | page => exact absurd rfl hs
  | lPage =>
    rw [show PageSize.lPage.bytes.toNat = 2097152 from rfl] at hmod
    omega
  | llPage =>
    rw [show PageSize.llPage.bytes.toNat = 1073741824 from rfl] at hmod
    omega

/-- Below 2 MiB, an entry of a large page has at most the PAT bit in its address. -/
theorem address_make_mod (hlarge : getPageSize flags ≠ .page) (ha : a.setWidth 21 = 0) :
    (make a flags.toNativeFlags).address.toNat % 2 ^ 21 ≤ 0x1000 := by
  rw [address_make_large hlarge, ← BitVec.toNat_setWidth, BitVec.setWidth_or, BitVec.setWidth_and,
    ha, show (0 : BitVec 21) &&& PTE.addressMask.setWidth 21 = 0 by decide]
  unfold patOffset
  split <;> decide

/-- The address of an entry that maps a large page, its frame and the PAT bit. -/
theorem address_make_aligned (hlarge : getPageSize flags ≠ .page) (hmask : PTE.InMask phys)
    (ha : phys % (getPageSize flags).bytes = 0) :
    (make phys flags.toNativeFlags).address = phys + patOffset flags := by
  have hzero : phys &&& patOffset flags = 0 := by
    have hbit : phys.getLsbD 12 = false := by
      have hlow := congrArg (fun x => x.getLsbD 12) (setWidth_of_aligned ha hlarge)
      simpa using hlow
    unfold patOffset
    split
    · apply BitVec.eq_of_getLsbD_eq
      intro k hk
      rw [show (0x1000 : Word) = BitVec.twoPow 64 12 by decide, BitVec.getLsbD_and,
        BitVec.getLsbD_twoPow]
      by_cases hk12 : 12 = k
      · rw [← hk12, hbit]
        rfl
      · simp [hk12]
    · exact BitVec.and_zero
  rw [address_make_large hlarge, hmask.and_mask, BitVec.add_eq_or_of_and_eq_zero _ _ hzero]

/-! ## Asking for the translation -/

/-- `Virt2Phys` of an address that a page of the size asked for or a larger one maps. -/
theorem Mixed.virt2Phys_of_leaf (h : Mixed cfg pm) (hleaf : leafOf cfg pm v = some (t, e))
    (hle : t.depth ≤ (getPageSize query).depth) :
    virt2Phys cfg pm v query = e.address + v % (getPageSize query).bytes := by
  obtain ⟨p, hp, hentry⟩ := exists_table_of_leafOf hleaf
  obtain ⟨hisLeaf, rfl⟩ := leafOf_eq_some_iff.mp hleaf
  have hpresent : (word cfg pm t v).getFlag PTE.present = true := isValid_of_isLeaf hisLeaf
  unfold virt2Phys
  rw [h.virt2Pte_of_leaf hleaf hle hp]
  dsimp only
  rw [hentry, hpresent]
  rfl

theorem virt_mem_callPages (cfg : Paging) (flags : PageAttributes) (virt : Word) :
    virt ∈ callPages cfg flags virt := by
  by_cases hsplit : Split cfg flags
  · rw [mem_callPages_of_split hsplit]
    exact ⟨0, by simp, by simp⟩
  · rw [callPages_of_not_split hsplit]
    exact List.mem_singleton_self virt

/-- After `InternalMap` of a large page the addresses on the page of its first entry are mapped by
an entry that it has written, also if that is the entry of a still larger page. -/
theorem Mixed.leafOf_internalMap (h : Mixed cfg pm) (hlarge : getPageSize flags ≠ .page)
    (htrue : internalMap cfg pm virt phys flags = (true, pm')) :
    Mixed cfg pm' ∧ ∀ v, SamePage cfg (callSize cfg flags) v virt →
      ∃ t, ∃ e ∈ callEntries cfg flags phys, leafOf cfg pm' v = some (t, e) ∧
        t.depth ≤ (callSize cfg flags).depth := by
  by_cases hnot : NotInLarger cfg pm (callSize cfg flags) virt
  · rcases h.internalMap_cases hnot phys with ⟨pm₁, heq, hmapped⟩ | ⟨pm₁, heq, -⟩
    · rw [htrue] at heq
      obtain rfl := (Prod.mk.inj heq).2
      obtain ⟨e, he, hleaf⟩ := hmapped.leafOf_pages virt (virt_mem_callPages cfg flags virt)
      exact ⟨hmapped.mixed, fun v hsame => ⟨_, e, he, hsame.leafOf_eq hleaf, le_rfl⟩⟩
    · rw [htrue] at heq
      cases heq
  · have hsplit := h.not_split_of_larger hnot
    obtain ⟨t, e, hleaf, hlt, -⟩ := reachedSize_of_not hnot
    have hvalid : (make phys flags.toNativeFlags).isValid = true :=
      getFlag_make (PageAttributes.toNativeFlags_present flags) (by decide)
    have hlarge' : (make phys flags.toNativeFlags).isLarge = true :=
      getFlag_make (PageAttributes.toNativeFlags_large hlarge) (by decide)
    have hisLeaf : isLeaf t (make phys flags.toNativeFlags) = true :=
      PageMap.isLeaf_of_isLarge hvalid hlarge'
    have he : EntryFor cfg t (make phys flags.toNativeFlags) := by
      refine .inr ⟨hisLeaf, ?_⟩
      rintro rfl
      rw [← Bool.not_eq_false]
      intro hno
      obtain ⟨hisLeaf₀, -⟩ := leafOf_eq_some_iff.mp hleaf
      rw [isLeaf, h.noLLPage hno] at hisLeaf₀
      simp at hisLeaf₀
    have hphys : Radix.LeadsNowhere (tablePtr cfg) pm.tables (make phys flags.toNativeFlags) := by
      intro q hq
      rw [tablePtr_of_isLarge hlarge'] at hq
      cases hq
    have hview := h.leafOf_internalMap_of_larger hleaf hlt hphys
    rw [htrue] at hview
    refine ⟨?_, fun v hsame => ⟨t, make phys flags.toNativeFlags, ?_, ?_, hlt.le⟩⟩
    · obtain ⟨p, hp, -⟩ := exists_table_of_leafOf hleaf
      rw [callSize_of_not_split hsplit] at hlt
      rw [internalMap_of_not_split hsplit] at htrue
      unfold PageMap.mapOne at htrue
      rw [h.virt2Pte_of_leaf hleaf hlt.le hp] at htrue
      rw [← (Prod.mk.inj htrue).2]
      exact h.setEntry hp he
    · rw [callEntries_of_not_split hsplit]
      exact List.mem_singleton_self _
    · rw [hview, if_pos (hsame.mono hlt.le), leafIn, if_pos hisLeaf]

/-- `Virt2Phys` of every address on the page, asked for pages of its size or with the default flags,
is `phys` and the offset of the address inside the page. -/
def LargeTranslates (cfg : Paging) (pm : PageMap) (virt phys : Word) (flags : PageAttributes) :
    Prop :=
  ∀ v : Word, v >>> (getPageSize flags).shift = virt >>> (getPageSize flags).shift →
    ∀ query, getPageSize query = getPageSize flags ∨ query = PageAttributes.read →
      virt2Phys cfg pm v query = phys + v % (getPageSize flags).bytes

/-- The address `0x2000` bytes into the 2 MiB page of an address. -/
def thirdPage (virt : Word) : Word := BitVec.ofNat 64 (virt.toNat / 2 ^ 21 * 2 ^ 21 + 0x2000)

theorem toNat_thirdPage (virt : Word) :
    (thirdPage virt).toNat = virt.toNat / 2 ^ 21 * 2 ^ 21 + 0x2000 := by
  have hlt := virt.isLt
  rw [thirdPage, BitVec.toNat_ofNat, Nat.mod_eq_of_lt (by omega)]

theorem thirdPage_shift (virt : Word) (hs : s ≠ .page) :
    thirdPage virt >>> s.shift = virt >>> s.shift := by
  apply BitVec.eq_of_toNat_eq
  rw [BitVec.toNat_ushiftRight, BitVec.toNat_ushiftRight, toNat_thirdPage,
    Nat.shiftRight_eq_div_pow, Nat.shiftRight_eq_div_pow]
  cases s with
  | page => exact absurd rfl hs
  | lPage =>
    rw [show PageSize.lPage.shift = 21 from rfl]
    omega
  | llPage =>
    rw [show PageSize.llPage.shift = 30 from rfl]
    omega

/-- The offset of that address inside a page. -/
theorem thirdPage_mod (virt : Word) :
    (thirdPage virt % s.bytes).toNat % 2 ^ 21 = if s = .page then 0 else 0x2000 := by
  rw [BitVec.toNat_umod, toNat_thirdPage]
  cases s with
  | page =>
    rw [show PageSize.page.bytes.toNat = 4096 from rfl, if_pos rfl]
    omega
  | lPage =>
    rw [show PageSize.lPage.bytes.toNat = 2097152 from rfl, if_neg (by decide)]
    omega
  | llPage =>
    rw [show PageSize.llPage.bytes.toNat = 1073741824 from rfl, if_neg (by decide)]
    omega

/-- The entries that `InternalMap` of a large page writes have at most the PAT bit below 2 MiB. -/
theorem address_of_mem_callEntries (hlarge : getPageSize flags ≠ .page)
    (ha : phys % (getPageSize flags).bytes = 0) (he : e ∈ callEntries cfg flags phys) :
    e.address.toNat % 2 ^ 21 ≤ 0x1000 := by
  have hzero := setWidth_of_aligned ha hlarge
  by_cases hsplit : Split cfg flags
  · unfold callEntries at he
    rw [if_pos hsplit, List.mem_map] at he
    obtain ⟨n, -, rfl⟩ := he
    apply address_make_mod
    · rw [getPageSize_splitFlags]
      decide
    · rw [BitVec.setWidth_add _ _ (by decide), hzero, BitVec.setWidth_mul _ _ (by decide),
        show PageSize.lPage.bytes.setWidth 21 = 0 by decide]
      simp
  · rw [callEntries_of_not_split hsplit] at he
    rw [List.mem_singleton.mp he]
    exact address_make_mod hlarge hzero

/-- With the default flags the third 4 KiB of the page are never found where they are. -/
theorem Mixed.virt2Phys_thirdPage_ne (h : Mixed cfg pm) (hlarge : getPageSize flags ≠ .page)
    (ha : phys % (getPageSize flags).bytes = 0)
    (htrue : internalMap cfg pm virt phys flags = (true, pm')) :
    virt2Phys cfg pm' (thirdPage virt) PageAttributes.read ≠
      phys + thirdPage virt % (getPageSize flags).bytes := by
  obtain ⟨hmixed, hleaf⟩ := h.leafOf_internalMap hlarge htrue
  have hsize : callSize cfg flags ≠ .page := by
    unfold callSize
    split
    · decide
    · exact hlarge
  obtain ⟨t, e, he, hleaf, -⟩ := hleaf (thirdPage virt)
    (samePage_of_shift (thirdPage_shift virt hsize))
  have hread : getPageSize PageAttributes.read = .page := by decide
  rw [hmixed.virt2Phys_of_leaf hleaf (by rw [hread]; cases t <;> decide), hread]
  intro heq
  -- modulo 2 MiB the left side is at most the PAT bit, the right side is `0x2000`
  have hleft := address_of_mem_callEntries hlarge ha he
  have hoffset := thirdPage_mod (s := .page) virt
  have hoffset' := thirdPage_mod (s := getPageSize flags) virt
  have hphys : phys.toNat % 2 ^ 21 = 0 := by
    rw [← BitVec.toNat_setWidth, setWidth_of_aligned ha hlarge]
    rfl
  have hnat := congrArg BitVec.toNat heq
  rw [if_pos rfl] at hoffset
  rw [if_neg hlarge] at hoffset'
  rw [BitVec.toNat_add, BitVec.toNat_add] at hnat
  omega

/-- What `Virt2Phys` returns for a page that is mapped in one piece, and when that is right: asked
for pages of its size, if the PAT bit is not set; asked for 4 KiB pages, on the first 4 KiB of the
page, or on the second if the PAT bit is set. -/
theorem Mixed.virt2Phys_internalMap_iff (h : Mixed cfg pm) (hlarge : getPageSize flags ≠ .page)
    (hmask : PTE.InMask phys) (ha : phys % (getPageSize flags).bytes = 0)
    (htrue : internalMap cfg pm virt phys flags = (true, pm')) (hsplit : ¬Split cfg flags)
    (hv : v >>> (getPageSize flags).shift = virt >>> (getPageSize flags).shift) :
    (getPageSize query = getPageSize flags →
      (virt2Phys cfg pm' v query = phys + v % (getPageSize flags).bytes ↔
        flags.usesPat = false)) ∧
    (getPageSize query = .page →
      (virt2Phys cfg pm' v query = phys + v % (getPageSize flags).bytes ↔
        (v % (getPageSize flags).bytes).toNat / 0x1000 = if flags.usesPat then 1 else 0)) := by
  obtain ⟨hmixed, hleaf⟩ := h.leafOf_internalMap hlarge htrue
  rw [callSize_of_not_split hsplit] at hleaf
  obtain ⟨t, e, he, hleaf, hle⟩ := hleaf v (samePage_of_shift hv)
  rw [callEntries_of_not_split hsplit] at he
  obtain rfl := List.mem_singleton.mp he
  have haddress := address_make_aligned hlarge hmask ha
  constructor
  · intro hquery
    rw [hmixed.virt2Phys_of_leaf hleaf (hquery ▸ hle), haddress, hquery, BitVec.add_left_inj]
    unfold patOffset
    cases flags.usesPat <;> simp
  · intro hquery
    rw [hmixed.virt2Phys_of_leaf hleaf (by rw [hquery]; cases t <;> decide), haddress, hquery,
      BitVec.add_assoc, BitVec.add_right_inj]
    -- the offset modulo 4 KiB is the same, since the sizes divide each other
    have hmod : (v % (getPageSize flags).bytes).toNat % 0x1000 = v.toNat % 0x1000 := by
      rw [BitVec.toNat_umod]
      cases hs : getPageSize flags with
      | page => exact absurd hs hlarge
      | lPage =>
        rw [show PageSize.lPage.bytes.toNat = 2097152 from rfl]
        omega
      | llPage =>
        rw [show PageSize.llPage.bytes.toNat = 1073741824 from rfl]
        omega
    have hpage : (v % PageSize.page.bytes).toNat = v.toNat % 0x1000 := by
      rw [BitVec.toNat_umod]
      rfl
    rw [← BitVec.toNat_inj, BitVec.toNat_add, hpage]
    unfold patOffset
    cases flags.usesPat
    · simp only [Bool.false_eq_true, if_false, BitVec.ofNat_eq_ofNat, BitVec.toNat_ofNat]
      omega
    · simp only [if_true, BitVec.ofNat_eq_ofNat, BitVec.toNat_ofNat]
      omega

/-- After `InternalMap` of a large page `Virt2Phys` is wrong for some address of the page. Where the
page is mapped in one piece the answer is right exactly for the flags of the mapping if the PAT bit
is not set, and for the default flags on the first 4 KiB of the page, or on the second if the PAT
bit is set. -/
theorem Mixed.not_largeTranslates (h : Mixed cfg pm) (hlarge : getPageSize flags ≠ .page)
    (ha : phys % (getPageSize flags).bytes = 0)
    (htrue : internalMap cfg pm virt phys flags = (true, pm')) :
    ¬LargeTranslates cfg pm' virt phys flags ∧
    (¬Split cfg flags → PTE.InMask phys → ∀ (v : Word) query,
      v >>> (getPageSize flags).shift = virt >>> (getPageSize flags).shift →
      (getPageSize query = getPageSize flags →
        (virt2Phys cfg pm' v query = phys + v % (getPageSize flags).bytes ↔
          flags.usesPat = false)) ∧
      (getPageSize query = .page →
        (virt2Phys cfg pm' v query = phys + v % (getPageSize flags).bytes ↔
          (v % (getPageSize flags).bytes).toNat / 0x1000 = if flags.usesPat then 1 else 0))) := by
  refine ⟨fun hall => ?_, fun hsplit hmask v query hv =>
    h.virt2Phys_internalMap_iff hlarge hmask ha htrue hsplit hv⟩
  exact h.virt2Phys_thirdPage_ne hlarge ha htrue
    (hall (thirdPage virt) (thirdPage_shift virt hlarge) _ (.inr rfl))

/-- A 2 MiB page at `0x40000000`, mapped without caching attributes. -/
theorem not_largeTranslates_default :
    ¬LargeTranslates level4At
      (internalMap level4At (withRoot 0xffff800000200000 someTables) 0x40000000 0x800000
        (PageAttributes.write ||| PageAttributes.lPage)).2 0x40000000 0x800000
        (PageAttributes.write ||| PageAttributes.lPage) := by
  have htrue : (internalMap level4At (withRoot 0xffff800000200000 someTables) 0x40000000 0x800000
      (PageAttributes.write ||| PageAttributes.lPage)).1 = true := by decide
  refine ((mixed_withRoot freshTables_someTables).not_largeTranslates (by decide) (by decide)
    (Prod.ext htrue rfl)).1

/-- A 2 MiB page mapped with `eWriteBack`: the PAT bit moves every answer by 4 KiB, and with the
default flags only the offset inside 4 KiB is left. -/
theorem virt2Phys_large_writeBack :
    (internalMap level4At (withRoot 0xffff800000200000 someTables) 0x40000000 0x800000
      (PageAttributes.write ||| PageAttributes.writeBack ||| PageAttributes.lPage)).1 = true ∧
    ¬LargeTranslates level4At
      (internalMap level4At (withRoot 0xffff800000200000 someTables) 0x40000000 0x800000
        (PageAttributes.write ||| PageAttributes.writeBack ||| PageAttributes.lPage)).2 0x40000000
        0x800000 (PageAttributes.write ||| PageAttributes.writeBack ||| PageAttributes.lPage) := by
  refine ⟨by decide, fun hall => ?_⟩
  have hsame := hall 0x40000000 (by decide) PageAttributes.lPage (.inl (by decide))
  exact absurd hsame (by decide)

end PageMap

end Cryptix.Memory
