import Cryptix.Prism
import Cryptix.Memory.LargeTranslation

/-!
# `SetFlagsRange`

`SetFlags` of `Kernel/Arch/x86_64/VMM.cpp` and `SetFlagsRange` of `Kernel/Memory/PageMap.cpp`. The
entry is built anew of its own address bits and the new flags, which always have the present bit. On
a page that is mapped that changes its rights only (`Mixed.setFlags_of_leaf`). The walk allocates,
and so a page that is not mapped gets an entry as well: it becomes present, at physical address 0.
-/

namespace Cryptix.Memory

open Prism Lib

namespace PageMap

open PageTableEntry

/-- `PageMap::SetFlags`. -/
def setFlags (cfg : Paging) (pm : PageMap) (virt : Word) (flags : PageAttributes) :
    Bool × PageMap :=
  match virt2Pte cfg pm virt true (getPageSize flags) with
  | (none, pm) => (false, pm)
  | (some (table, i), pm) =>
    let nativeFlags := flags.toNativeFlags
    let addr := (pm.entry table i).address
    let pmlEntry : PageTableEntry := 0
    (true, pm.setEntry table i ((pmlEntry.setAddress addr).setFlags nativeFlags true))

/-- The number of turns of `for (i = 0; i < size; i += pageSize)`. -/
def pageCount (s : PageSize) (size : Word) : ℕ := divRoundUp size.toNat s.bytes.toNat

/-- The address of turn `i` of such a loop. -/
def pageAt (s : PageSize) (virt : Word) (i : ℕ) : Word := virt + s.bytes * BitVec.ofNat 64 i

/-- `PageMap::SetFlagsRange`. With a size less than a page below `2 ^ 64` the counter wraps around,
and the loop starts again. -/
def setFlagsRange (cfg : Paging) (pm : PageMap) (virt size : Word) (flags : PageAttributes) :
    Bool × PageMap :=
  untilFailure (fun pm i => setFlags cfg pm (pageAt (getPageSize flags) virt i) flags) pm
    (List.range (pageCount (getPageSize flags) size))

variable {cfg : Paging} {pm pm' : PageMap} {p v w virt size : Word} {s t : PageSize}
  {e e' : PageTableEntry} {flags : PageAttributes}

/-! ## Frames -/

/-- A frame is the address without the bits below the page. -/
theorem frameOf_eq (s : PageSize) (e : PageTableEntry) :
    frameOf s e = e.address >>> s.shift <<< s.shift := by
  have hbytes : s.bytes.toNat = 2 ^ s.shift := by cases s <;> rfl
  have hdiv := Nat.div_add_mod' e.address.toNat (2 ^ s.shift)
  have hlt : e.address.toNat / 2 ^ s.shift * 2 ^ s.shift < 2 ^ 64 :=
    (Nat.div_mul_le_self _ _).trans_lt e.address.isLt
  unfold frameOf
  apply BitVec.eq_of_toNat_eq
  rw [BitVec.toNat_sub_of_le (by
      rw [BitVec.le_def, BitVec.toNat_umod]
      exact Nat.mod_le _ _),
    BitVec.toNat_umod, BitVec.toNat_shiftLeft, BitVec.toNat_ushiftRight, hbytes,
    Nat.shiftLeft_eq, Nat.shiftRight_eq_div_pow, Nat.mod_eq_of_lt hlt]
  omega

/-- The flags of a page have no bit inside the frames of pages of its size or larger ones. -/
theorem toNativeFlags_shift (hle : t.depth ≤ (getPageSize flags).depth) :
    (flags.toNativeFlags &&& PTE.addressMask) >>> t.shift = 0 := by
  by_cases hlarge : getPageSize flags = .page
  · rw [(PageAttributes.toNativeFlags_flagWord hlarge).no_address]
    exact BitVec.zero_ushiftRight
  · have ht : t ≠ .page := by
      rintro rfl
      cases hs : getPageSize flags with
      | page => exact hlarge hs
      | lPage => exact absurd (hs ▸ hle) (by decide)
      | llPage => exact absurd (hs ▸ hle) (by decide)
    rw [PageAttributes.toNativeFlags_and_mask hlarge]
    cases t with
    | page => exact absurd rfl ht
    | lPage => split <;> decide
    | llPage => split <;> decide

/-- Setting the flags of a page keeps its frame, also if the page is larger than the flags say. -/
theorem frameOf_make_address (hle : t.depth ≤ (getPageSize flags).depth) (e : PageTableEntry) :
    frameOf t (make e.address flags.toNativeFlags) = frameOf t e := by
  have haddress : (make e.address flags.toNativeFlags).address =
      e.address ||| flags.toNativeFlags &&& PTE.addressMask := by
    rw [make_eq, address, BitVec.and_or_distrib_right, address, BitVec.and_assoc,
      BitVec.and_self]
  have hshift : (make e.address flags.toNativeFlags).address >>> t.shift =
      e.address >>> t.shift := by
    rw [haddress, BitVec.ushiftRight_or_distrib, toNativeFlags_shift hle]
    exact BitVec.or_zero
  rw [frameOf_eq, frameOf_eq, hshift]

/-- The size and the frame of the page that maps an address. -/
def frameAt (cfg : Paging) (pm : PageMap) (w : Word) : Option (PageSize × Word) :=
  (leafOf cfg pm w).map fun leaf => (leaf.1, frameOf leaf.1 leaf.2)

theorem translate_eq_frameAt (w : Word) :
    translate cfg pm w = (frameAt cfg pm w).map fun frame => frame.2 + w % frame.1.bytes := by
  unfold translate frameAt
  rw [Option.map_map]
  rfl

/-! ## One page -/

/-- A page whose rights `SetFlags` changes and nothing else: it is mapped, by a page of the size of
the flags, or by a larger one if the flags have bit 7, the large-page bit. -/
def Kept (cfg : Paging) (pm : PageMap) (flags : PageAttributes) (v : Word) : Prop :=
  ∃ t e, leafOf cfg pm v = some (t, e) ∧ (t = getPageSize flags ∨
    t.depth < (getPageSize flags).depth ∧ PTE.Has flags.toNativeFlags PTE.lpage)

/-- The entry that `SetFlags` writes maps the page that was mapped. -/
theorem isLeaf_make_of_kept (hkept : t = getPageSize flags ∨
      t.depth < (getPageSize flags).depth ∧ PTE.Has flags.toNativeFlags PTE.lpage) (a : Word) :
    isLeaf t (make a flags.toNativeFlags) = true := by
  rcases hkept with rfl | ⟨-, hlarge⟩
  · exact isLeaf_make a flags
  · exact isLeaf_of_isLarge
      (getFlag_make (PageAttributes.toNativeFlags_present flags) (by decide))
      (getFlag_make hlarge (by decide))

/-- A mapped page of 1 GiB is on a machine that has them. -/
theorem Mixed.has1GibPages_of_leaf (h : Mixed cfg pm) (hleaf : leafOf cfg pm v = some (t, e))
    (ht : t = .llPage) : cfg.has1GibPages = true := by
  subst ht
  rw [← Bool.not_eq_false]
  intro hno
  obtain ⟨hisLeaf, -⟩ := leafOf_eq_some_iff.mp hleaf
  rw [isLeaf, h.noLLPage hno] at hisLeaf
  simp at hisLeaf

/-- `SetFlags` on a page that is mapped by one of the size of the flags or a larger one. -/
theorem Mixed.setFlags_of_leaf (h : Mixed cfg pm) (hleaf : leafOf cfg pm v = some (t, e))
    (hle : t.depth ≤ (getPageSize flags).depth) :
    ∃ p, tableAt cfg pm (tablePath cfg t v) = some p ∧ setFlags cfg pm v flags =
      (true, pm.setEntry p (entryIndex t v) (make e.address flags.toNativeFlags)) := by
  obtain ⟨p, hp, hentry⟩ := exists_table_of_leafOf hleaf
  refine ⟨p, hp, ?_⟩
  unfold setFlags
  rw [h.virt2Pte_of_leaf hleaf hle hp]
  dsimp only
  rw [hentry]
  rfl

/-- Overwriting the entry of a mapped page by one that maps it leaves all tables. -/
theorem Mixed.tableAt_setEntry_leaf (h : Mixed cfg pm) (hleaf : leafOf cfg pm v = some (t, e))
    (hp : tableAt cfg pm (tablePath cfg t v) = some p) (he : EntryFor cfg t e')
    {k : List TableIndex} (hk : k.length < levels cfg) :
    tableAt cfg (pm.setEntry p (entryIndex t v) e') k = tableAt cfg pm k := by
  obtain ⟨hisLeaf, -⟩ := leafOf_eq_some_iff.mp hleaf
  have hpage : (entryPath cfg t v).length < levels cfg → t ≠ .page := by
    rintro hlen rfl
    have hpath := length_entryPath cfg .page v
    have hdepth : PageSize.page.depth = 2 := rfl
    omega
  -- below the entry of a mapped page there is no table
  have hnone : ∀ {k : List TableIndex}, k.length < levels cfg → entryPath cfg t v <+: k →
      tableAt cfg pm k = none := by
    intro k hk hpre
    have hlen := hpre.length_le
    cases hq : tableAt cfg pm k with
    | none => rfl
    | some q =>
      obtain ⟨r, hr⟩ := exists_tableAt_of_le hpre hq
      have hword : tableAt cfg pm (entryPath cfg t v) = tablePtr cfg (word cfg pm t v) :=
        tableAt_concat _ _
      rw [hword, tablePtr_of_isLeaf hisLeaf (hpage (by omega))] at hr
      cases hr
  induction k using List.reverseRecOn with
  | nil => rfl
  | append_singleton k i _ =>
    rw [tableAt_concat, tableAt_concat]
    have hk' : k.length < levels cfg := by
      rw [List.length_append] at hk
      omega
    rw [h.wordAt_setEntry hp he.inert hk']
    split
    · rename_i heq
      have ht := hpage (heq ▸ hk)
      rw [he.tablePtr_eq_none ht, ← tableAt_concat, hnone hk (heq ▸ List.prefix_rfl)]
    · split
      · rename_i hpre
        rw [wordAt_of_none (hnone hk' hpre)]
      · rfl

/-- `SetFlags` on a page it keeps: the frames and the tables are those of before. -/
theorem Mixed.setFlags_of_kept (h : Mixed cfg pm) (hkept : Kept cfg pm flags v) :
    ∃ pm', setFlags cfg pm v flags = (true, pm') ∧ Mixed cfg pm' ∧
      (∀ w, frameAt cfg pm' w = frameAt cfg pm w) ∧
      (∀ w, leafOf cfg pm w = none → word cfg pm' s w = word cfg pm s w) ∧
      (∀ k : List TableIndex, k.length < levels cfg → tableAt cfg pm' k = tableAt cfg pm k) ∧
      pm'.supply = pm.supply := by
  obtain ⟨t, e, hleaf, hcase⟩ := hkept
  have hle : t.depth ≤ (getPageSize flags).depth := by
    rcases hcase with rfl | ⟨hlt, -⟩
    · exact le_rfl
    · exact hlt.le
  obtain ⟨p, hp, heq⟩ := h.setFlags_of_leaf hleaf hle
  have hisLeaf := isLeaf_make_of_kept hcase e.address
  have he : EntryFor cfg t (make e.address flags.toNativeFlags) :=
    .inr ⟨hisLeaf, fun ht => h.has1GibPages_of_leaf hleaf ht⟩
  -- an address that nothing maps is not on the page
  have hother : ∀ {w : Word}, leafOf cfg pm w = none → ¬SamePage cfg t w v := by
    intro w hw hsame
    rw [hsame.leafOf_eq hleaf] at hw
    cases hw
  refine ⟨_, heq, h.setEntry hp he, fun w => ?_, fun w hw => ?_, fun k hk => ?_, rfl⟩
  · unfold frameAt
    rw [h.leafOf_setEntry hp he.inert]
    split
    · rename_i hsame
      rw [hsame.leafOf_eq hleaf, leafIn, if_pos hisLeaf, Option.map_some, Option.map_some,
        frameOf_make_address hle]
    · rfl
  · rw [h.word_setEntry hp he.inert, if_neg, if_neg]
    · exact fun hpre => hother hw (samePage_of_le hpre).2
    · intro hpath
      obtain rfl := samePage_of_eq hpath
      exact hother hw hpath
  · exact h.tableAt_setEntry_leaf hleaf hp he hk

/-- A page that is not mapped, with nothing in the place of its entry. -/
structure Hole (cfg : Paging) (pm : PageMap) (flags : PageAttributes) (v : Word) : Prop where
  leafOf_eq : leafOf cfg pm v = none
  word_eq : word cfg pm (getPageSize flags) v = 0

theorem Hole.notInLarger (h : Hole cfg pm flags v) : NotInLarger cfg pm s v :=
  notInLarger_of_none h.leafOf_eq

/-- `SetFlags` on a hole maps it, to physical address 0. -/
theorem Mixed.setFlags_of_hole (h : Mixed cfg pm) (hhole : Hole cfg pm flags v) :
    setFlags cfg pm v flags = PageMap.mapOne cfg pm v 0 flags := by
  unfold setFlags PageMap.mapOne
  rcases h.virt2Pte_allocate (hhole.notInLarger (s := getPageSize flags)) with
    ⟨p, pm₁, heq, hext, hp, -⟩ | ⟨_, _, _, _, _, heq, -⟩
  · rw [heq]
    have hentry : pm₁.entry p (entryIndex (getPageSize flags) v) = 0 := by
      rw [← wordAt_of_tableAt hp]
      exact (hext.word_eq v).trans hhole.word_eq
    dsimp only
    rw [hentry]
    rfl
  · rw [heq]

/-! ## Ranges -/

/-- The addresses of the turns of a loop over a range. -/
def rangePages (s : PageSize) (virt size : Word) : List Word :=
  (List.range (pageCount s size)).map (pageAt s virt)

theorem mem_rangePages :
    v ∈ rangePages s virt size ↔ ∃ i < pageCount s size, pageAt s virt i = v := by
  simp [rangePages]

theorem pageAt_mem_rangePages {i : ℕ} (hi : i < pageCount s size) :
    pageAt s virt i ∈ rangePages s virt size :=
  mem_rangePages.mpr ⟨i, hi, rfl⟩

theorem Kept.of_frameAt (hkept : Kept cfg pm flags v)
    (hframe : frameAt cfg pm' v = frameAt cfg pm v) : Kept cfg pm' flags v := by
  obtain ⟨t, e, hleaf, hcase⟩ := hkept
  unfold frameAt at hframe
  rw [hleaf, Option.map_some] at hframe
  obtain ⟨⟨t', e'⟩, hleaf', heq⟩ := Option.map_eq_some_iff.mp hframe
  obtain ⟨rfl, -⟩ := Prod.mk.inj heq
  exact ⟨t', e', hleaf', hcase⟩

/-- Where every page of the range is kept, `SetFlagsRange` changes rights only. -/
theorem Mixed.sameTranslations_of_kept (h : Mixed cfg pm)
    (hkept : ∀ v ∈ rangePages (getPageSize flags) virt size, Kept cfg pm flags v) :
    SameTranslations cfg pm (setFlagsRange cfg pm virt size flags).2 := by
  have hrun : Mixed cfg (setFlagsRange cfg pm virt size flags).2 ∧
      ∀ w, frameAt cfg (setFlagsRange cfg pm virt size flags).2 w = frameAt cfg pm w := by
    refine untilFailure_invariant (P := fun pm' => Mixed cfg pm' ∧
      ∀ w, frameAt cfg pm' w = frameAt cfg pm w) _ ⟨h, fun _ => rfl⟩ ?_
    rintro i hi pm₁ ⟨hmixed, hframes⟩
    have hpage := hkept _ (pageAt_mem_rangePages (List.mem_range.mp hi))
    obtain ⟨pm₂, heq, hmixed₂, hframes₂, -⟩ :=
      hmixed.setFlags_of_kept (s := .page) (hpage.of_frameAt (hframes _))
    rw [heq]
    exact ⟨hmixed₂, fun w => (hframes₂ w).trans (hframes w)⟩
  intro w
  rw [translate_eq_frameAt, translate_eq_frameAt, hrun.2]

/-- Pages that are kept or holes, some turns into the loop: the pages of the turns are mapped. -/
structure Filling (cfg : Paging) (flags : PageAttributes) (virt size : Word) (done : List ℕ)
    (pm' : PageMap) : Prop where
  mixed : Mixed cfg pm'
  enough : Enough cfg pm' (getPageSize flags) (rangePages (getPageSize flags) virt size)
  pages : ∀ v ∈ rangePages (getPageSize flags) virt size,
    Kept cfg pm' flags v ∨ Hole cfg pm' flags v
  mapped : ∀ i ∈ done, leafOf cfg pm' (pageAt (getPageSize flags) virt i) ≠ none

theorem leafOf_ne_none_of_frameAt (hframe : frameAt cfg pm' w = frameAt cfg pm w)
    (hleaf : leafOf cfg pm w ≠ none) : leafOf cfg pm' w ≠ none := by
  intro hnone
  unfold frameAt at hframe
  rw [hnone] at hframe
  exact hleaf (Option.map_eq_none_iff.mp hframe.symm)

/-- One turn goes through and maps its page. -/
theorem Filling.turn {done : List ℕ} {pm₁ : PageMap} (h : Filling cfg flags virt size done pm₁)
    (hll : getPageSize flags = .llPage → cfg.has1GibPages = true) {i : ℕ}
    (hi : i < pageCount (getPageSize flags) size) :
    ∃ pm₂, setFlags cfg pm₁ (pageAt (getPageSize flags) virt i) flags = (true, pm₂) ∧
      Filling cfg flags virt size (done ++ [i]) pm₂ := by
  have hmem : pageAt (getPageSize flags) virt i ∈ rangePages (getPageSize flags) virt size :=
    pageAt_mem_rangePages hi
  rcases h.pages _ hmem with hkept | hhole
  · obtain ⟨pm₂, heq, hmixed, hframes, hwords, htables, hsupply⟩ :=
      h.mixed.setFlags_of_kept (s := getPageSize flags) hkept
    refine ⟨pm₂, heq, hmixed, ?_, fun v hv => ?_, fun j hj => ?_⟩
    · have habsent : absent cfg pm₂ (getPageSize flags)
          (rangePages (getPageSize flags) virt size) = absent cfg pm₁ (getPageSize flags)
          (rangePages (getPageSize flags) virt size) := by
        ext k
        rw [mem_absent, mem_absent]
        refine and_congr_right fun hk => ?_
        obtain ⟨u, -, hpre⟩ := hk
        rw [htables k (hpre.length_le.trans_lt (length_tablePath_lt cfg _ u))]
      unfold Enough
      rw [habsent, hsupply]
      exact h.enough
    · rcases h.pages v hv with hkept' | hhole'
      · exact .inl (hkept'.of_frameAt (hframes v))
      · refine .inr ⟨?_, (hwords v hhole'.leafOf_eq).trans hhole'.word_eq⟩
        have hframe := hframes v
        unfold frameAt at hframe
        rw [hhole'.leafOf_eq] at hframe
        exact Option.map_eq_none_iff.mp hframe
    · rcases List.mem_append.mp hj with hj | hj
      · exact leafOf_ne_none_of_frameAt (hframes _) (h.mapped j hj)
      · rw [List.mem_singleton.mp hj]
        obtain ⟨t, e, hleaf, -⟩ := hkept
        refine leafOf_ne_none_of_frameAt (hframes _) ?_
        rw [hleaf]
        exact Option.some_ne_none _
  · obtain ⟨pm₂, heq, hwrote⟩ := h.mixed.mapOne rfl hll hhole.notInLarger
      (h.enough.missingTables_le hmem) 0
    refine ⟨pm₂, (h.mixed.setFlags_of_hole hhole).trans heq, hwrote.mixed,
      (hwrote.enough_iff hmem).mpr h.enough, fun v hv => ?_, fun j hj => ?_⟩
    · by_cases hsame : SamePage cfg (getPageSize flags) v (pageAt (getPageSize flags) virt i)
      · exact .inl ⟨_, _, by rw [hwrote.leafOf_eq, if_pos hsame], .inl rfl⟩
      · have hleaf : leafOf cfg pm₂ v = leafOf cfg pm₁ v := by
          rw [hwrote.leafOf_eq, if_neg hsame]
        rcases h.pages v hv with hkept' | hhole'
        · refine .inl (hkept'.of_frameAt ?_)
          unfold frameAt
          rw [hleaf]
        · exact .inr ⟨hleaf.trans hhole'.leafOf_eq, (hwrote.word_eq v hsame).trans hhole'.word_eq⟩
    · rw [hwrote.leafOf_eq]
      split
      · exact Option.some_ne_none _
      · rename_i hother
        rcases List.mem_append.mp hj with hj | hj
        · exact h.mapped j hj
        · rw [List.mem_singleton.mp hj] at hother
          exact absurd rfl hother

/-- Where the pages of the range are kept or holes and there are tables enough, all of them are
mapped after `SetFlagsRange`. -/
theorem Mixed.setFlagsRange_maps (h : Mixed cfg pm)
    (hll : getPageSize flags = .llPage → cfg.has1GibPages = true)
    (henough : Enough cfg pm (getPageSize flags) (rangePages (getPageSize flags) virt size))
    (hpages : ∀ v ∈ rangePages (getPageSize flags) virt size,
      Kept cfg pm flags v ∨ Hole cfg pm flags v)
    (hv : v ∈ rangePages (getPageSize flags) virt size) :
    leafOf cfg (setFlagsRange cfg pm virt size flags).2 v ≠ none := by
  have hrange : ∀ {done rest : List ℕ} {i : ℕ},
      List.range (pageCount (getPageSize flags) size) = done ++ i :: rest →
      i < pageCount (getPageSize flags) size := by
    intro done rest i hl
    rw [← List.mem_range, hl]
    simp
  have hturn : ∀ done i rest pm₁ pm₂,
      List.range (pageCount (getPageSize flags) size) = done ++ i :: rest →
      Filling cfg flags virt size done pm₁ →
      setFlags cfg pm₁ (pageAt (getPageSize flags) virt i) flags = (true, pm₂) →
      Filling cfg flags virt size (done ++ [i]) pm₂ := by
    intro done i rest pm₁ pm₂ hl hfilling hbody
    obtain ⟨pm₃, heq, hnext⟩ := hfilling.turn hll (hrange hl)
    rw [hbody] at heq
    rw [(Prod.mk.inj heq).2]
    exact hnext
  obtain ⟨i, hi, rfl⟩ := mem_rangePages.mp hv
  rcases untilFailure_cases _ ⟨h, henough, hpages, by simp⟩ hturn with
    ⟨pm', heq, hfilling⟩ | ⟨done, j, rest, pm₁, pm₂, hl, hfilling, hbody, -⟩
  · unfold setFlagsRange
    rw [heq]
    exact hfilling.mapped i (List.mem_range.mpr hi)
  · obtain ⟨pm₃, heq, -⟩ := hfilling.turn hll (hrange hl)
    rw [hbody] at heq
    cases heq

/-- `SetFlagsRange` changes rights only if every page of the range is mapped, by a page of the size
of the flags or by a larger one while the flags have bit 7. On a range of such pages and holes, with
the tables for the holes at hand, that is the exact condition. -/
theorem Mixed.sameTranslations_setFlagsRange_iff (h : Mixed cfg pm) :
    ((∀ v ∈ rangePages (getPageSize flags) virt size, Kept cfg pm flags v) →
      SameTranslations cfg pm (setFlagsRange cfg pm virt size flags).2) ∧
    ((getPageSize flags = .llPage → cfg.has1GibPages = true) →
      Enough cfg pm (getPageSize flags) (rangePages (getPageSize flags) virt size) →
      (∀ v ∈ rangePages (getPageSize flags) virt size,
        Kept cfg pm flags v ∨ Hole cfg pm flags v) →
      (SameTranslations cfg pm (setFlagsRange cfg pm virt size flags).2 ↔
        ∀ v ∈ rangePages (getPageSize flags) virt size, Kept cfg pm flags v)) := by
  refine ⟨h.sameTranslations_of_kept, fun hll henough hpages => ⟨fun hkeep v hv => ?_,
    h.sameTranslations_of_kept⟩⟩
  refine (hpages v hv).resolve_right fun hhole => ?_
  have hmapped := h.setFlagsRange_maps hll henough hpages hv
  have hsame := hkeep v
  unfold translate at hsame
  rw [hhole.leafOf_eq] at hsame
  exact hmapped (Option.map_eq_none_iff.mp hsame)

/-- The rights of a 2 MiB page are taken away. -/
theorem sameTranslations_large_page :
    SameTranslations level4At oneLargePage
      (setFlagsRange level4At oneLargePage 0x40000000 0x200000 PageAttributes.lPage).2 := by
  refine mixed_oneLargePage.sameTranslations_setFlagsRange_iff.1 fun v hv => ?_
  obtain ⟨i, hi, rfl⟩ := mem_rangePages.mp hv
  have hcount : pageCount (getPageSize PageAttributes.lPage) 0x200000 = 1 := by decide
  obtain rfl : i = 0 := by omega
  have hleaf : leafOf level4At oneLargePage
      (pageAt (getPageSize PageAttributes.lPage) 0x40000000 0) =
      some (.lPage, 0x8000000000800083) := by decide
  exact ⟨_, _, hleaf, .inl (by decide)⟩

/-- On an empty page map the page becomes present, at physical address 0. -/
theorem not_sameTranslations_empty :
    Mixed level4At (withRoot 0xffff800000200000 someTables) ∧
    ¬SameTranslations level4At (withRoot 0xffff800000200000 someTables)
      (setFlagsRange level4At (withRoot 0xffff800000200000 someTables) 0x40000000 0x1000
        PageAttributes.read).2 := by
  refine ⟨mixed_withRoot freshTables_someTables, fun hkeep => ?_⟩
  have hsame := hkeep 0x40000000
  exact absurd hsame (by decide)

end PageMap

end Cryptix.Memory
