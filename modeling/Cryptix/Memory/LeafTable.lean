import Cryptix.Memory.BitmapAllocator
import Cryptix.Memory.PageMapRefinement

/-!
# Page tables as their leaf entries

For the memory of a process only the leaf entries of its page map matter. `LeafTable` is a flat
table of them: the index of an entry is what is left of a page number once it is cut down to the
address bits that the tables translate, so that two addresses share an index exactly when they
share an entry (`sameEntry_iff_index_eq`). `LeafRefines.mapRange` shows that `MapRange` on the
tables of a `PageMap` is `LeafTable.mapRange`.
-/

namespace Cryptix.Memory

open Prism Lib

/-- The leaf entries of a page map: the physical address a present entry points to. -/
abbrev LeafTable := ℕ → Option ℕ

namespace LeafTable

/-- The number of leaf entries that the tables have room for. -/
def size (cfg : Paging) : ℕ :=
  match cfg.mode with
  | .level4 => 2 ^ 36
  | .level5 => 2 ^ 45

/-- The leaf entry of an address. -/
def index (cfg : Paging) (virt : ℕ) : ℕ := virt / PMM.pageSize % size cfg

/-- The turns of the loop in `PageMap::MapRange`, with 4 KiB pages. -/
def mapPages (cfg : Paging) (t : LeafTable) (virt phys count : ℕ) : LeafTable :=
  (List.range count).foldl
    (fun t i => Function.update t (index cfg (offset virt (i * PMM.pageSize)))
      (some (offset phys (i * PMM.pageSize)))) t

/-- `PageMap::MapRange` with 4 KiB pages. -/
def mapRange (cfg : Paging) (t : LeafTable) (virt phys size : ℕ) : LeafTable :=
  t.mapPages cfg virt phys (divRoundUp size PMM.pageSize)

variable {cfg : Paging} {t : LeafTable} {virt phys count e p : ℕ}

theorem mapPages_succ :
    mapPages cfg t virt phys (count + 1) =
      Function.update (mapPages cfg t virt phys count)
        (index cfg (offset virt (count * PMM.pageSize)))
        (some (offset phys (count * PMM.pageSize))) := by
  unfold mapPages
  rw [List.range_succ, List.foldl_append, List.foldl_cons, List.foldl_nil]

/-- An entry after `MapRange` is an old one or maps a page of the range. -/
theorem mapPages_eq_some (h : mapPages cfg t virt phys count e = some p) :
    t e = some p ∨ ∃ i < count, e = index cfg (offset virt (i * PMM.pageSize)) ∧
      p = offset phys (i * PMM.pageSize) := by
  induction count with
  | zero => exact .inl h
  | succ n ih =>
    rw [mapPages_succ, Function.update_apply] at h
    split at h
    · rename_i he
      exact .inr ⟨n, Nat.lt_succ_self n, he, (Option.some.inj h).symm⟩
    · rcases ih h with hold | ⟨i, hi, hp⟩
      · exact .inl hold
      · exact .inr ⟨i, Nat.lt_succ_of_lt hi, hp⟩

/-- What was mapped before stays mapped, maybe to something else. -/
theorem isSome_mapPages (h : (t e).isSome) : (mapPages cfg t virt phys count e).isSome := by
  induction count with
  | zero => exact h
  | succ n ih =>
    rw [mapPages_succ, Function.update_apply]
    split
    · rfl
    · exact ih

/-- `MapRange` maps every page of the range. -/
theorem isSome_mapPages_index {i : ℕ} (hi : i < count) :
    (mapPages cfg t virt phys count (index cfg (offset virt (i * PMM.pageSize)))).isSome := by
  induction count with
  | zero => exact absurd hi (Nat.not_lt_zero i)
  | succ n ih =>
    rw [mapPages_succ, Function.update_apply]
    split
    · rfl
    · rename_i hne
      refine ih (Nat.lt_of_le_of_ne (Nat.lt_succ_iff.mp hi) ?_)
      rintro rfl
      exact hne rfl

/-- `MapRange` maps the pages of the range and no others. -/
theorem isSome_mapPages_iff : (mapPages cfg t virt phys count e).isSome ↔
    (t e).isSome ∨ ∃ i < count, e = index cfg (offset virt (i * PMM.pageSize)) := by
  constructor
  · intro h
    obtain ⟨p, hp⟩ := Option.isSome_iff_exists.mp h
    rcases mapPages_eq_some hp with hold | ⟨i, hi, he, -⟩
    · exact .inl (Option.isSome_of_eq_some hold)
    · exact .inr ⟨i, hi, he⟩
  · rintro (hold | ⟨i, hi, rfl⟩)
    · exact isSome_mapPages hold
    · exact isSome_mapPages_index hi

end LeafTable

namespace PageMap

open PageTableEntry

/-! ## `MapRange` on page maps -/

/-- The loop of `PageMap::UnmapRange` over the numbers of the pages that are left. -/
def unmapPages (cfg : Paging) (virt : Word) (flags : PageAttributes) :
    PageMap → List ℕ → Bool × PageMap
  | pm, [] => (true, pm)
  | pm, i :: rest =>
    match internalUnmap cfg pm (virt + BitVec.ofNat 64 (i * PMM.pageSize)) flags with
    | (false, pm) => (false, pm)
    | (true, pm) => unmapPages cfg virt flags pm rest

/-- The loop of `PageMap::MapRange` over the numbers of the pages that are left. After a failure at
page `i` the pages before page `i - 1` are unmapped; for `i = 0` that count wraps around. -/
def mapPages (cfg : Paging) (virt phys : Word) (flags : PageAttributes) :
    PageMap → List ℕ → Bool × PageMap
  | pm, [] => (true, pm)
  | pm, i :: rest =>
    match internalMap cfg pm (virt + BitVec.ofNat 64 (i * PMM.pageSize))
        (phys + BitVec.ofNat 64 (i * PMM.pageSize)) flags with
    | (true, pm) => mapPages cfg virt phys flags pm rest
    | (false, pm) =>
      let size := wordSub (i * PMM.pageSize) PMM.pageSize
      (false, (unmapPages cfg virt 0 pm (List.range (divRoundUp size PMM.pageSize))).2)

/-- `PageMap::MapRange` with 4 KiB pages. -/
def mapRange (cfg : Paging) (pm : PageMap) (virt phys : Word) (size : ℕ) (flags : PageAttributes) :
    Bool × PageMap :=
  mapPages cfg virt phys flags pm (List.range (divRoundUp size PMM.pageSize))

variable {cfg : Paging} {pm : PageMap} {v w : Word}

/-- Two addresses share an entry when they agree in the bits that the tables translate. -/
theorem sameEntry_of_getLsbD_eq
    (h : ∀ k, 12 ≤ k → k < addressBits cfg → v.getLsbD k = w.getLsbD k) : SameEntry cfg v w := by
  have hindex : ∀ s, 12 ≤ s → s + 9 ≤ addressBits cfg → pmlIndex v s = pmlIndex w s := by
    intro s hs hs'
    apply BitVec.eq_of_getLsbD_eq
    intro j hj
    rw [getLsbD_pmlIndex _ _ _ hj, getLsbD_pmlIndex _ _ _ hj]
    exact h (s + j) (by omega) (by omega)
  unfold addressBits at hindex
  unfold SameEntry path topPath
  cases hmode : cfg.mode with
  | level4 =>
    rw [hmode] at hindex
    dsimp only at hindex ⊢
    rw [hindex 39 (by omega) (by omega), hindex 30 (by omega) (by omega),
      hindex 21 (by omega) (by omega), hindex 12 (by omega) (by omega)]
    exact ⟨rfl, rfl⟩
  | level5 =>
    rw [hmode] at hindex
    dsimp only at hindex ⊢
    rw [hindex 48 (by omega) (by omega), hindex 39 (by omega) (by omega),
      hindex 30 (by omega) (by omega), hindex 21 (by omega) (by omega),
      hindex 12 (by omega) (by omega)]
    exact ⟨rfl, rfl⟩

/-- The index of an address is the number its translated bits spell. -/
theorem index_toNat (v : Word) :
    LeafTable.index cfg v.toNat = (v.extractLsb' 12 (addressBits cfg - 12)).toNat := by
  rw [BitVec.extractLsb'_toNat, Nat.shiftRight_eq_div_pow]
  unfold LeafTable.index LeafTable.size addressBits
  cases cfg.mode <;> rfl

/-- Two addresses share a leaf entry exactly when they have the same index. -/
theorem sameEntry_iff_index_eq :
    SameEntry cfg v w ↔ LeafTable.index cfg v.toNat = LeafTable.index cfg w.toNat := by
  rw [index_toNat, index_toNat, BitVec.toNat_inj]
  constructor
  · intro h
    apply BitVec.eq_of_getLsbD_eq
    intro k hk
    rw [BitVec.getLsbD_extractLsb', BitVec.getLsbD_extractLsb',
      h.getLsbD_eq (k := 12 + k) (by omega) (by omega)]
  · intro h
    apply sameEntry_of_getLsbD_eq
    intro k hk hk'
    have hbit := congrArg (fun x => x.getLsbD (k - 12)) h
    simp only [BitVec.getLsbD_extractLsb', show k - 12 < addressBits cfg - 12 by omega,
      decide_true, Bool.true_and, show 12 + (k - 12) = k by omega] at hbit
    exact hbit

/-- A page map whose leaf entries are those of a leaf table. -/
structure LeafRefines (cfg : Paging) (pm : PageMap) (t : LeafTable) : Prop where
  wf : Wf cfg pm
  leaf : ∀ v : Word, Represents (leaf cfg pm v)
    ((t (LeafTable.index cfg v.toNat)).map (BitVec.ofNat 64))

/-- `InternalMap` of a 4 KiB page is an update of the leaf table. -/
theorem LeafRefines.internalMap {t : LeafTable} (h : LeafRefines cfg pm t) (v phys : Word)
    {flags : PageAttributes} (hflags : getPageSize flags = .page) (hphys : PTE.InMask phys)
    (hsupply : 4 ≤ pm.supply.length) :
    (internalMap cfg pm v phys flags).1 = true ∧
      LeafRefines cfg (PageMap.internalMap cfg pm v phys flags).2
        (Function.update t (LeafTable.index cfg v.toNat) (some phys.toNat)) ∧
      pm.supply.length ≤ (PageMap.internalMap cfg pm v phys flags).2.supply.length + 4 := by
  obtain ⟨hok, hw⟩ := h.wf.internalMap v phys hflags hsupply
  have hflagWord := PageAttributes.toNativeFlags_flagWord hflags
  refine ⟨hok, ⟨hw.wf, fun w => ?_⟩, hw.supply_le⟩
  rw [hw.leaf w, Function.update_apply]
  simp only [sameEntry_iff_index_eq]
  split
  · rw [Option.map_some, BitVec.ofNat_toNat, BitVec.setWidth_eq]
    exact ⟨getFlag_present_make hphys hflagWord, address_make hphys hflagWord⟩
  · exact h.leaf w

theorem toNat_add_ofNat (v : Word) (n : ℕ) : (v + BitVec.ofNat 64 n).toNat = offset v.toNat n := by
  rw [BitVec.toNat_add, BitVec.toNat_ofNat, Nat.add_mod_mod]
  rfl

/-- A loop whose turns refine those of a loop over flat entries refines it. -/
theorem refines_loop {T : Type} {Refines : PageMap → T → Prop}
    (body : PageMap → ℕ → Bool × PageMap) (run : PageMap → List ℕ → Bool × PageMap)
    {next : T → ℕ → T} (hnil : ∀ pm, run pm [] = (true, pm))
    (hcons : ∀ pm i l, (body pm i).1 = true → run pm (i :: l) = run (body pm i).2 l)
    (l : List ℕ) (hbody : ∀ i ∈ l, ∀ pm t, Refines pm t → 4 ≤ pm.supply.length →
      (body pm i).1 = true ∧ Refines (body pm i).2 (next t i) ∧
        pm.supply.length ≤ (body pm i).2.supply.length + 4)
    {t : T} (h : Refines pm t) (hsupply : 4 * l.length ≤ pm.supply.length) :
    (run pm l).1 = true ∧ Refines (run pm l).2 (l.foldl next t) := by
  induction l generalizing pm t with
  | nil =>
    rw [hnil]
    exact ⟨rfl, h⟩
  | cons i l ih =>
    rw [List.length_cons] at hsupply
    obtain ⟨hfirst, hrest⟩ := List.forall_mem_cons.mp hbody
    obtain ⟨hok, hnext, hle⟩ := hfirst pm t h (by omega)
    rw [hcons pm i l hok]
    exact ih hrest hnext (by omega)

theorem mapPages_cons {virt phys : Word} {flags : PageAttributes} (pm : PageMap) (i : ℕ)
    (l : List ℕ)
    (hok : (internalMap cfg pm (virt + BitVec.ofNat 64 (i * PMM.pageSize))
      (phys + BitVec.ofNat 64 (i * PMM.pageSize)) flags).1 = true) :
    mapPages cfg virt phys flags pm (i :: l) =
      mapPages cfg virt phys flags (internalMap cfg pm (virt + BitVec.ofNat 64 (i * PMM.pageSize))
        (phys + BitVec.ofNat 64 (i * PMM.pageSize)) flags).2 l := by
  rw [mapPages]
  generalize internalMap cfg pm _ _ flags = r at hok ⊢
  obtain ⟨ok, pm'⟩ := r
  obtain rfl : ok = true := hok
  rfl

/-- `MapRange` over a page map with tables enough succeeds and is `MapRange` over its leaf table. -/
theorem LeafRefines.mapRange {t : LeafTable} (h : LeafRefines cfg pm t) (virt phys : Word)
    (size : ℕ) {flags : PageAttributes} (hflags : getPageSize flags = .page)
    (hphys : ∀ i < divRoundUp size PMM.pageSize,
      PTE.InMask (phys + BitVec.ofNat 64 (i * PMM.pageSize)))
    (hsupply : 4 * divRoundUp size PMM.pageSize ≤ pm.supply.length) :
    (mapRange cfg pm virt phys size flags).1 = true ∧
      LeafRefines cfg (PageMap.mapRange cfg pm virt phys size flags).2
        (t.mapRange cfg virt.toNat phys.toNat size) := by
  refine refines_loop _ (mapPages cfg virt phys flags) (fun _ => rfl) mapPages_cons _
    (fun i hi pm t h hsupply => ?_) h (by rwa [List.length_range])
  rw [← toNat_add_ofNat, ← toNat_add_ofNat]
  exact h.internalMap _ _ hflags (hphys i (List.mem_range.mp hi)) hsupply

end PageMap

end Cryptix.Memory
