import Cryptix.Memory.MapRollback
import Cryptix.Memory.Protection

/-!
# `RemapRegion`

`Remap`, `RemapRange` and `RemapRegion` of `Kernel/Memory/PageMap.cpp`, on page maps with pages of
all sizes. Page by page, the old address is looked up and unmapped and the new one is mapped to what
was found. For a page that is not mapped `Virt2Phys` returns all ones, and `Remap` takes that for an
address: the new page becomes present.

`Moving` is the state of the loop between two pages: those before it are at their new place, those
after it are still where they were. For that the new range may overlap the old one from below only.
-/

namespace Cryptix.Memory

open Prism Lib

namespace PageMap

open PageTableEntry

/-- The new base in `RemapRegion`: the null pointer stands for the base that the region has. -/
def remapBase (region : Region) (newVirt : Word) : Word :=
  if newVirt = 0 then BitVec.ofNat 64 region.virtualBase else newVirt

/-- `PageMap::RemapRegion`. -/
def remapRegion (cfg : Paging) (pm : PageMap) (region : Region) (newVirt : Word) : Bool × PageMap :=
  let oldVirt := BitVec.ofNat 64 region.virtualBase
  remapRange cfg pm oldVirt (remapBase region newVirt) region.size region.pageAttributes

variable {cfg : Paging} {pm pm' : PageMap} {u v w old new : Word} {e : PageTableEntry}
  {flags : PageAttributes} {pages : List Word} {n : ℕ}

theorem remapPages_eq (cfg : Paging) (old new : Word) (flags : PageAttributes) (pm : PageMap)
    (l : List ℕ) :
    remapPages cfg old new flags pm l = untilFailure
      (fun pm i => remap cfg pm (pageAt .page old i) (pageAt .page new i) flags) pm l := by
  have hpage (virt : Word) (i : ℕ) :
      virt + BitVec.ofNat 64 (i * PMM.pageSize) = pageAt .page virt i := by
    rw [Nat.mul_comm, BitVec.ofNat_mul]
    rfl
  induction l generalizing pm with
  | nil => rfl
  | cons i rest ih =>
    rw [remapPages, untilFailure, hpage, hpage]
    rcases remap cfg pm (pageAt .page old i) (pageAt .page new i) flags with ⟨_ | _, pm₁⟩
    · rfl
    · exact ih pm₁

/-! ## One page -/

/-- What `Virt2Phys` finds for a page that is inside no larger one. -/
def found (leaf : Option (PageSize × PageTableEntry)) (v : Word) : Word :=
  match leaf with
  | none => BitVec.allOnes 64
  | some (_, e) => e.address + v % PageSize.page.bytes

theorem Mixed.virt2Phys_page (h : Mixed cfg pm) (hflags : getPageSize flags = .page)
    (hnot : NotInLarger cfg pm .page v) :
    virt2Phys cfg pm v flags = found (leafOf cfg pm v) v := by
  cases hleaf : leafOf cfg pm v with
  | none =>
    unfold virt2Phys
    rw [hflags, h.virt2Pte_false hnot]
    cases hp : tableAt cfg pm (tablePath cfg .page v) with
    | none => rfl
    | some p =>
      have hentry : pm.entry p (entryIndex .page v) = 0 := by
        rw [← wordAt_of_tableAt hp]
        exact h.word_page_of_none hleaf
      dsimp only [Option.map_some]
      rw [hentry]
      rfl
  | some leaf =>
    obtain ⟨t, e⟩ := leaf
    have ht : t.depth ≤ (getPageSize flags).depth := by
      rw [hflags]
      cases t <;> decide
    rw [h.virt2Phys_of_leaf hleaf ht, hflags]
    rfl

/-- Clearing the entry of a 4 KiB page takes no table away. -/
theorem Mixed.enough_unmapOne (h : Mixed cfg pm) (hnot : NotInLarger cfg pm .page v)
    (henough : Enough cfg pm .page pages) :
    Enough cfg (PageMap.unmapOne cfg pm v .page).2 .page pages := by
  unfold PageMap.unmapOne
  rw [h.virt2Pte_false hnot]
  cases hp : tableAt cfg pm (tablePath cfg .page v) with
  | none => exact henough
  | some p =>
    have habsent : absent cfg (pm.setEntry p (entryIndex .page v) 0) .page pages =
        absent cfg pm .page pages := by
      ext k
      rw [mem_absent, mem_absent]
      refine and_congr_right fun hk => ?_
      obtain ⟨u, -, hpre⟩ := hk
      have hlen := hpre.length_le
      have hu := length_tablePath cfg .page u
      have hv := length_tablePath cfg .page v
      rw [h.tableAt_setEntry hp entryFor_zero (by omega)]
    show Enough cfg (pm.setEntry p (entryIndex .page v) 0) .page pages
    unfold Enough
    rw [habsent]
    exact henough

/-- `Remap` of a page to a new address: the new page is mapped to what was found, the old one is
unmapped unless it is the new one, and no other page is touched. -/
theorem Mixed.remap (h : Mixed cfg pm) (hflags : getPageSize flags = .page)
    (hsource : NotInLarger cfg pm .page v) (htarget : NotInLarger cfg pm .page w)
    (henough : Enough cfg pm .page pages) (hmem : w ∈ pages) :
    ∃ pm', remap cfg pm v w flags = (true, pm') ∧ Mixed cfg pm' ∧ Enough cfg pm' .page pages ∧
      ∀ u, leafOf cfg pm' u =
        if SamePage cfg .page u w then
          some (.page, make (found (leafOf cfg pm v) v) flags.toNativeFlags)
        else if SamePage cfg .page u v then none
        else leafOf cfg pm u := by
  have hsplit : ¬Split cfg flags := fun hs => absurd (hflags.symm.trans hs.1) (by decide)
  obtain ⟨hmixed, -, hview⟩ := h.unmapOne hsource
  have hsmall : NotInLarger cfg (PageMap.unmapOne cfg pm v .page).2 .page w := by
    intro t e hleaf
    rw [hview] at hleaf
    split at hleaf
    · cases hleaf
    · exact htarget t e hleaf
  have henough' := h.enough_unmapOne hsource henough
  obtain ⟨pm', heq, hwrote⟩ := hmixed.mapOne hflags (by simp) hsmall
    (henough'.missingTables_le hmem) (virt2Phys cfg pm v flags)
  refine ⟨pm', ?_, hwrote.mixed, (hwrote.enough_iff hmem).mpr henough', fun u => ?_⟩
  · unfold PageMap.remap
    rw [internalUnmap_of_not_split hsplit, internalMap_of_not_split hsplit, hflags]
    exact heq
  · rw [hwrote.leafOf_eq, hview, h.virt2Phys_page hflags hsource]

/-! ## The loop -/

/-- A range that can be moved page by page: of aligned, canonical addresses inside no larger pages,
with the tables of its new place at hand, and no new page is an old one that comes later. -/
structure Movable (cfg : Paging) (pm : PageMap) (old new : Word) (n : ℕ) : Prop where
  aligned : old % PageSize.page.bytes = 0 ∧ new % PageSize.page.bytes = 0
  canonical : ∀ i < n, Canonical cfg (pageAt .page old i) ∧ Canonical cfg (pageAt .page new i)
  inRange : ∀ i < n, PageSize.page.bytes.toNat * i < 2 ^ 64
  source : ∀ i < n, NotInLarger cfg pm .page (pageAt .page old i)
  target : ∀ i < n, NotInLarger cfg pm .page (pageAt .page new i)
  enough : Enough cfg pm .page ((List.range n).map (pageAt .page new))
  behind : ∀ j < n, ∀ i < j, ¬SamePage cfg .page (pageAt .page new i) (pageAt .page old j)

/-- The loop after `i` pages. -/
structure Moving (cfg : Paging) (pm : PageMap) (flags : PageAttributes) (old new : Word) (n i : ℕ)
    (pm' : PageMap) : Prop where
  mixed : Mixed cfg pm'
  enough : Enough cfg pm' .page ((List.range n).map (pageAt .page new))
  target : ∀ j < n, NotInLarger cfg pm' .page (pageAt .page new j)
  waiting : ∀ j < n, i ≤ j →
    leafOf cfg pm' (pageAt .page old j) = leafOf cfg pm (pageAt .page old j)
  moved : ∀ j < i, leafOf cfg pm' (pageAt .page new j) = some (.page,
    make (found (leafOf cfg pm (pageAt .page old j)) (pageAt .page old j)) flags.toNativeFlags)
  gone : ∀ j < i, (∀ m < n, ¬SamePage cfg .page (pageAt .page old j) (pageAt .page new m)) →
    leafOf cfg pm' (pageAt .page old j) = none

/-- A range whose pages are mapped can be moved to itself. -/
theorem movable_self (halign : old % PageSize.page.bytes = 0)
    (hcanonical : ∀ i < n, Canonical cfg (pageAt .page old i))
    (hrange : ∀ i < n, PageSize.page.bytes.toNat * i < 2 ^ 64)
    (hmapped : ∀ i < n, ∃ e, leafOf cfg pm (pageAt .page old i) = some (.page, e)) :
    Movable cfg pm old old n := by
  have hnot : ∀ i < n, NotInLarger cfg pm .page (pageAt .page old i) := by
    intro i hi t e hleaf
    obtain ⟨e', hleaf'⟩ := hmapped i hi
    rw [hleaf'] at hleaf
    rw [← (Prod.mk.inj (Option.some.inj hleaf)).1]
  refine ⟨⟨halign, halign⟩, fun i hi => ⟨hcanonical i hi, hcanonical i hi⟩, hrange, hnot, hnot, ?_,
    fun j hj i hij => not_samePage_pageAt (hrange i (hij.trans hj)) (hrange j hj) hij.ne
      ⟨hcanonical i (hij.trans hj), hcanonical j hj⟩⟩
  -- no table is missing
  have hnone : absent cfg pm .page ((List.range n).map (pageAt .page old)) = ∅ := by
    refine Finset.eq_empty_of_forall_notMem fun k hk => ?_
    obtain ⟨⟨v, hv, hpre⟩, hmissing⟩ := mem_absent.mp hk
    obtain ⟨i, hi, rfl⟩ := List.mem_map.mp hv
    obtain ⟨e, hleaf⟩ := hmapped i (List.mem_range.mp hi)
    obtain ⟨p, hp, -⟩ := exists_table_of_leafOf hleaf
    obtain ⟨q, hq⟩ := exists_tableAt_of_le hpre hp
    rw [hmissing] at hq
    cases hq
  unfold Enough
  rw [hnone]
  exact Nat.zero_le _

/-- One page more. -/
theorem Moving.turn {i : ℕ} {pm₁ : PageMap} (h : Movable cfg pm old new n)
    (hflags : getPageSize flags = .page) (hmoving : Moving cfg pm flags old new n i pm₁)
    (hi : i < n) :
    ∃ pm₂, remap cfg pm₁ (pageAt .page old i) (pageAt .page new i) flags = (true, pm₂) ∧
      Moving cfg pm flags old new n (i + 1) pm₂ := by
  have hleaf := hmoving.waiting i hi le_rfl
  have hsource : NotInLarger cfg pm₁ .page (pageAt .page old i) := by
    intro t e hleaf'
    exact h.source i hi t e (hleaf ▸ hleaf')
  have hmem : pageAt .page new i ∈ (List.range n).map (pageAt .page new) :=
    List.mem_map_of_mem (List.mem_range.mpr hi)
  obtain ⟨pm₂, heq, hmixed, henough, hview⟩ :=
    hmoving.mixed.remap hflags hsource (hmoving.target i hi) hmoving.enough hmem
  rw [hleaf] at hview
  refine ⟨pm₂, heq, hmixed, henough, fun j hj t e ht => ?_, fun j hj hij => ?_, fun j hj => ?_,
    fun j hj hnew => ?_⟩
  · rw [hview] at ht
    split at ht
    · rw [← (Prod.mk.inj (Option.some.inj ht)).1]
    · split at ht
      · cases ht
      · exact hmoving.target j hj t e ht
  · have hother : ¬SamePage cfg .page (pageAt .page old j) (pageAt .page new i) :=
      fun hsame => h.behind j hj i hij hsame.symm
    have hpage : ¬SamePage cfg .page (pageAt .page old j) (pageAt .page old i) :=
      not_samePage_pageAt (h.inRange j hj) (h.inRange i hi) (by omega)
        ⟨(h.canonical j hj).1, (h.canonical i hi).1⟩
    rw [hview, if_neg hother, if_neg hpage, hmoving.waiting j hj (by omega)]
  · rcases Nat.lt_succ_iff_lt_or_eq.mp hj with hlt | rfl
    · have hpage : ¬SamePage cfg .page (pageAt .page new j) (pageAt .page new i) :=
        not_samePage_pageAt (h.inRange j (hlt.trans hi)) (h.inRange i hi) hlt.ne
          ⟨(h.canonical j (hlt.trans hi)).2, (h.canonical i hi).2⟩
      rw [hview, if_neg hpage, if_neg (h.behind i hi j hlt), hmoving.moved j hlt]
    · rw [hview, if_pos (show SamePage cfg .page _ _ from rfl)]
  · rw [hview, if_neg (hnew i hi)]
    split
    · rfl
    · rename_i hother
      rcases Nat.lt_succ_iff_lt_or_eq.mp hj with hlt | rfl
      · exact hmoving.gone j hlt hnew
      · exact absurd rfl hother

/-- The whole range. -/
theorem Mixed.remapRange (h : Mixed cfg pm) (hmovable : Movable cfg pm old new n)
    (hflags : getPageSize flags = .page) (size : ℕ) (hsize : divRoundUp size PMM.pageSize = n) :
    ∃ pm', remapRange cfg pm old new size flags = (true, pm') ∧
      Moving cfg pm flags old new n n pm' := by
  have hstart : Moving cfg pm flags old new n 0 pm :=
    ⟨h, hmovable.enough, hmovable.target, fun _ _ _ => rfl,
      fun j hj => absurd hj (Nat.not_lt_zero j), fun j hj => absurd hj (Nat.not_lt_zero j)⟩
  have hturn : ∀ i pm₁ pm₂, i < n → Moving cfg pm flags old new n i pm₁ →
      PageMap.remap cfg pm₁ (pageAt .page old i) (pageAt .page new i) flags = (true, pm₂) →
      Moving cfg pm flags old new n (i + 1) pm₂ := by
    intro i pm₁ pm₂ hi hmoving hbody
    obtain ⟨pm₃, heq, hnext⟩ := hmoving.turn hmovable hflags hi
    rw [hbody] at heq
    rw [(Prod.mk.inj heq).2]
    exact hnext
  unfold PageMap.remapRange
  rw [remapPages_eq, hsize]
  rcases untilFailure_range_cases _ hstart hturn with
    hall | ⟨i, pm₁, pm₂, hi, hmoving, hbody, -⟩
  · exact hall
  · obtain ⟨pm₃, heq, -⟩ := hmoving.turn hmovable hflags hi
    rw [hbody] at heq
    cases heq

/-! ## What is moved -/

/-- The flags of the entry that maps an address. -/
def attributesAt (cfg : Paging) (pm : PageMap) (v : Word) : Option Word :=
  (leafOf cfg pm v).map fun leaf => leaf.2 &&& ~~~PTE.addressMask

/-- The translations of a range of `n` pages are at the same offsets of a new range, with the flags
given; what was not present is not present there, and what is not in the new range is gone. -/
structure Moved (cfg : Paging) (pm pm' : PageMap) (flags : PageAttributes) (old new : Word)
    (n : ℕ) : Prop where
  present : ∀ i < n, ∀ a, translate cfg pm (pageAt .page old i) = some a →
    translate cfg pm' (pageAt .page new i) = some a ∧
      attributesAt cfg pm' (pageAt .page new i) = some flags.toNativeFlags
  absent : ∀ i < n, translate cfg pm (pageAt .page old i) = none →
    translate cfg pm' (pageAt .page new i) = none
  gone : ∀ i < n, (∀ j < n, ¬SamePage cfg .page (pageAt .page old i) (pageAt .page new j)) →
    translate cfg pm' (pageAt .page old i) = none

theorem inMask_address (e : PageTableEntry) : PTE.InMask e.address := by
  unfold PTE.InMask address
  rw [BitVec.and_assoc, show PTE.addressMask &&& ~~~PTE.addressMask = 0#64 from by decide]
  exact BitVec.and_zero

/-- The flags of an entry that is made of an address and flags of a 4 KiB page. -/
theorem make_and_not_mask (hflags : getPageSize flags = .page) (e : PageTableEntry) :
    make e.address flags.toNativeFlags &&& ~~~PTE.addressMask = flags.toNativeFlags := by
  have haddress := inMask_address e
  have hword := (PageAttributes.toNativeFlags_flagWord hflags).no_address
  have hsplit : flags.toNativeFlags &&& (PTE.addressMask ||| ~~~PTE.addressMask) =
      flags.toNativeFlags := by
    rw [show PTE.addressMask ||| ~~~PTE.addressMask = BitVec.allOnes 64 from by decide,
      BitVec.and_allOnes]
  rw [BitVec.and_or_distrib_left, hword] at hsplit
  unfold PTE.InMask at haddress
  rw [make_eq, BitVec.and_or_distrib_right, haddress]
  simpa using hsplit

/-- Where the loop has been through, a page that was mapped is moved. -/
theorem Moving.present {i : ℕ} {a : Word} (h : Movable cfg pm old new n)
    (hflags : getPageSize flags = .page) (hmoving : Moving cfg pm flags old new n n pm')
    (hi : i < n) (htranslate : translate cfg pm (pageAt .page old i) = some a) :
    translate cfg pm' (pageAt .page new i) = some a ∧
      attributesAt cfg pm' (pageAt .page new i) = some flags.toNativeFlags := by
  unfold translate at htranslate
  obtain ⟨⟨t, e⟩, hleaf, rfl⟩ := Option.map_eq_some_iff.mp htranslate
  obtain rfl : t = .page := by
    have hle := h.source i hi t e hleaf
    cases t with
    | page => rfl
    | lPage => exact absurd hle (by decide)
    | llPage => exact absurd hle (by decide)
  have hold := pageAt_mod h.aligned.1 i
  have hnew := pageAt_mod h.aligned.2 i
  have hmoved := hmoving.moved i hi
  have hfound : found (some (.page, e)) (pageAt .page old i) = e.address := by
    unfold found
    dsimp only
    rw [hold]
    exact BitVec.add_zero _
  rw [hleaf, hfound] at hmoved
  unfold translate attributesAt
  rw [hmoved, Option.map_some, Option.map_some, hold, hnew, make_and_not_mask hflags,
    frameOf_make_address (by rw [hflags])]
  exact ⟨rfl, rfl⟩

/-- `RemapRegion` on a range that can be moved does so exactly if every page of the region is
mapped. -/
theorem Mixed.remapRegion_moves_iff (h : Mixed cfg pm) {r : Region} {newVirt : Word}
    (hmovable : Movable cfg pm (BitVec.ofNat 64 r.virtualBase) (remapBase r newVirt) r.pages) :
    Moved cfg pm (remapRegion cfg pm r newVirt).2 r.pageAttributes
      (BitVec.ofNat 64 r.virtualBase) (remapBase r newVirt) r.pages ↔
    ∀ i < r.pages, translate cfg pm (pageAt .page (BitVec.ofNat 64 r.virtualBase) i) ≠ none := by
  have hflags := r.getPageSize_pageAttributes
  obtain ⟨pm', heq, hmoving⟩ := h.remapRange hmovable hflags r.size rfl
  unfold remapRegion
  dsimp only
  rw [heq]
  constructor
  · intro hmoved i hi hnone
    have habsent := hmoved.absent i hi hnone
    unfold translate at habsent
    rw [hmoving.moved i hi] at habsent
    cases habsent
  · intro hall
    refine ⟨fun i hi a ha => hmoving.present hmovable hflags hi ha,
      fun i hi hnone => absurd hnone (hall i hi), fun i hi hnew => ?_⟩
    unfold translate
    rw [hmoving.gone i hi hnew]
    rfl

/-- A region of one page, at address `0x400000`. -/
def onePageRegion : Region :=
  ⟨0x400000, 0x1000, 0, ⟨true, true, false, true⟩⟩

/-- A page map where the page of the region is mapped, to frame `0x7000`. -/
def onePageMap : PageMap :=
  (internalMap level4At (emptyWith 12) 0x400000 0x7000 PageAttributes.write).2

/-- A page that is mapped is moved to its own place with new attributes. -/
theorem remapRegion_moves_one_page :
    Moved level4At onePageMap (remapRegion level4At onePageMap onePageRegion 0).2
      onePageRegion.pageAttributes 0x400000 0x400000 1 := by
  have hmixed : Mixed level4At onePageMap :=
    (mixed_emptyWith 12).internalMap_of_true (leafOf_withRoot _ _ _) (by decide)
  have hleaf : ∀ i < 1, ∃ e, leafOf level4At onePageMap (pageAt .page 0x400000 i) =
      some (.page, e) := by
    intro i hi
    obtain rfl : i = 0 := by omega
    exact ⟨0x8000000000007003, by decide⟩
  have hmovable : Movable level4At onePageMap 0x400000 0x400000 1 := by
    refine movable_self (by decide) (fun i hi => ?_) (fun i hi => ?_) hleaf
    · obtain rfl : i = 0 := by omega
      decide
    · obtain rfl : i = 0 := by omega
      decide
  have hmapped : ∀ i < 1, translate level4At onePageMap (pageAt .page 0x400000 i) ≠ none := by
    intro i hi
    obtain ⟨e, he⟩ := hleaf i hi
    unfold translate
    rw [he]
    exact Option.some_ne_none _
  have hbase : remapBase onePageRegion 0 = 0x400000 := by decide
  have hiff := Mixed.remapRegion_moves_iff hmixed (hbase.symm ▸ hmovable :
    Movable level4At onePageMap (BitVec.ofNat 64 onePageRegion.virtualBase)
      (remapBase onePageRegion 0) onePageRegion.pages)
  rw [hbase] at hiff
  exact hiff.mpr hmapped

/-- A page that is not mapped becomes present, at the address of all ones. -/
theorem not_moved_unmapped_page :
    Mixed level4At (emptyWith 12) ∧ leafOf level4At (emptyWith 12) 0x400000 = none ∧
    translate level4At (remapRegion level4At (emptyWith 12) onePageRegion 0).2 0x400000 =
      some 0x000ffffffffff000 ∧
    ¬Moved level4At (emptyWith 12) (remapRegion level4At (emptyWith 12) onePageRegion 0).2
      onePageRegion.pageAttributes 0x400000 0x400000 1 := by
  refine ⟨mixed_emptyWith 12, leafOf_withRoot _ _ _, by decide, fun hmoved => ?_⟩
  have habsent := hmoved.absent 0 Nat.one_pos (by decide)
  exact absurd habsent (by decide)

end PageMap

end Cryptix.Memory
