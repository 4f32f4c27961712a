import Cryptix.Memory.LeafTable

/-!
# Page tables as their leaf entries, flags included

`LeafTable` keeps where an entry points to. What an entry grants is in its flags, so `EntryTable`
keeps the whole word. `MapRange` and `RemapRange` of `Kernel/Memory/PageMap.cpp` set one entry for
each page of a range (`mapRange_apply`, `remapRange_apply`), and on the tables of a `PageMap` they
do the same (`EntryRefines.mapRange`, `EntryRefines.remapRange`).

`Remap` asks `Virt2Phys` where a page is mapped to. For a page that is not mapped the answer is all
ones, which `Map` then writes into the entry, as an address.
-/

namespace Cryptix.Memory

open Prism Lib

/-- The leaf entries of a page map. -/
abbrev EntryTable := ℕ → PageTableEntry

namespace EntryTable

/-- `PageMap::Virt2Phys` of a 4 KiB page. -/
def virt2Phys (cfg : Paging) (t : EntryTable) (virt : ℕ) : Word :=
  let e := t (LeafTable.index cfg virt)
  if e.getFlag PTE.present then e.address + BitVec.ofNat 64 (virt % PMM.pageSize)
  else BitVec.allOnes 64

/-- `PageMap::Map` of a 4 KiB page. -/
def map (cfg : Paging) (t : EntryTable) (virt : ℕ) (phys : Word) (flags : PageAttributes) :
    EntryTable :=
  Function.update t (LeafTable.index cfg virt) (.make phys flags.toNativeFlags)

/-- `PageMap::Unmap` of a 4 KiB page. -/
def unmap (cfg : Paging) (t : EntryTable) (virt : ℕ) : EntryTable :=
  Function.update t (LeafTable.index cfg virt) 0

/-- `PageMap::Remap` of a 4 KiB page to itself. -/
def remap (cfg : Paging) (t : EntryTable) (virt : ℕ) (flags : PageAttributes) : EntryTable :=
  (t.unmap cfg virt).map cfg virt (t.virt2Phys cfg virt) flags

/-- `PageMap::MapRange` with 4 KiB pages. -/
def mapRange (cfg : Paging) (t : EntryTable) (virt : ℕ) (phys : Word) (size : ℕ)
    (flags : PageAttributes) : EntryTable :=
  (List.range (divRoundUp size PMM.pageSize)).foldl
    (fun t i => t.map cfg (offset virt (i * PMM.pageSize))
      (phys + BitVec.ofNat 64 (i * PMM.pageSize)) flags) t

/-- `PageMap::RemapRange` of a range to itself, with 4 KiB pages. -/
def remapRange (cfg : Paging) (t : EntryTable) (virt size : ℕ) (flags : PageAttributes) :
    EntryTable :=
  (List.range (divRoundUp size PMM.pageSize)).foldl
    (fun t i => t.remap cfg (offset virt (i * PMM.pageSize)) flags) t

/-! ## The loops in closed form -/

/-- A loop that sets one entry a turn, to a value made of the entry's old one. -/
theorem foldl_apply {step : EntryTable → ℕ → EntryTable} {entry : ℕ → ℕ}
    (value : ℕ → PageTableEntry → PageTableEntry)
    (hstep : ∀ t i, step t i = Function.update t (entry i) (value i (t (entry i)))) (t : EntryTable)
    {count : ℕ} (hinj : ∀ i < count, ∀ j < count, entry i = entry j → i = j) :
    (∀ i < count, (List.range count).foldl step t (entry i) = value i (t (entry i))) ∧
      ∀ e, (∀ i < count, e ≠ entry i) → (List.range count).foldl step t e = t e := by
  induction count with
  | zero => exact ⟨fun i hi => absurd hi (Nat.not_lt_zero i), fun _ _ => rfl⟩
  | succ n ih =>
    obtain ⟨hset, hkept⟩ := ih fun i hi j hj => hinj i (by omega) j (by omega)
    rw [List.range_succ, List.foldl_append, List.foldl_cons, List.foldl_nil, hstep]
    -- the last turn sets an entry that no turn before has set
    have hlast : ∀ i < n, entry n ≠ entry i := by
      intro i hi heq
      have hni := hinj n (by omega) i (by omega) heq
      omega
    refine ⟨fun i hi => ?_, fun e he => ?_⟩
    · by_cases hin : i = n
      · subst hin
        rw [Function.update_self, hkept _ hlast]
      · have hlt : i < n := by omega
        rw [Function.update_of_ne (Ne.symm (hlast i hlt)), hset i hlt]
    · rw [Function.update_of_ne (he n (by omega)), hkept e fun i hi => he i (by omega)]

variable {cfg : Paging} (t : EntryTable) (virt size : ℕ) (flags : PageAttributes)

/-- The entries that `MapRange` leaves behind. -/
theorem mapRange_apply (phys : Word)
    (hinj : ∀ i < divRoundUp size PMM.pageSize, ∀ j < divRoundUp size PMM.pageSize,
      LeafTable.index cfg (offset virt (i * PMM.pageSize)) =
        LeafTable.index cfg (offset virt (j * PMM.pageSize)) → i = j) :
    (∀ i < divRoundUp size PMM.pageSize,
      t.mapRange cfg virt phys size flags (LeafTable.index cfg (offset virt (i * PMM.pageSize))) =
        .make (phys + BitVec.ofNat 64 (i * PMM.pageSize)) flags.toNativeFlags) ∧
    ∀ e, (∀ i < divRoundUp size PMM.pageSize,
      e ≠ LeafTable.index cfg (offset virt (i * PMM.pageSize))) →
      t.mapRange cfg virt phys size flags e = t e :=
  foldl_apply (fun i _ => .make (phys + BitVec.ofNat 64 (i * PMM.pageSize)) flags.toNativeFlags)
    (fun _ _ => rfl) t hinj

/-- The entries that `RemapRange` leaves behind. -/
theorem remapRange_apply
    (hinj : ∀ i < divRoundUp size PMM.pageSize, ∀ j < divRoundUp size PMM.pageSize,
      LeafTable.index cfg (offset virt (i * PMM.pageSize)) =
        LeafTable.index cfg (offset virt (j * PMM.pageSize)) → i = j) :
    (∀ i < divRoundUp size PMM.pageSize,
      t.remapRange cfg virt size flags (LeafTable.index cfg (offset virt (i * PMM.pageSize))) =
        .make (t.virt2Phys cfg (offset virt (i * PMM.pageSize))) flags.toNativeFlags) ∧
    ∀ e, (∀ i < divRoundUp size PMM.pageSize,
      e ≠ LeafTable.index cfg (offset virt (i * PMM.pageSize))) →
      t.remapRange cfg virt size flags e = t e := by
  refine foldl_apply (fun i e =>
    .make (if e.getFlag PTE.present then
      e.address + BitVec.ofNat 64 (offset virt (i * PMM.pageSize) % PMM.pageSize)
      else BitVec.allOnes 64) flags.toNativeFlags) (fun t i => ?_) t hinj
  exact Function.update_idem _ _ _

end EntryTable

namespace PageMap

open PageTableEntry

/-! ## `RemapRange` on page maps -/

/-- `PageMap::Remap`. -/
def remap (cfg : Paging) (pm : PageMap) (virtOld virtNew : Word) (flags : PageAttributes) :
    Bool × PageMap :=
  let phys := virt2Phys cfg pm virtOld flags
  let pm := (internalUnmap cfg pm virtOld flags).2
  internalMap cfg pm virtNew phys flags

/-- The loop of `PageMap::RemapRange` over the numbers of the pages that are left. -/
def remapPages (cfg : Paging) (virtOld virtNew : Word) (flags : PageAttributes) :
    PageMap → List ℕ → Bool × PageMap
  | pm, [] => (true, pm)
  | pm, i :: rest =>
    match remap cfg pm (virtOld + BitVec.ofNat 64 (i * PMM.pageSize))
        (virtNew + BitVec.ofNat 64 (i * PMM.pageSize)) flags with
    | (false, pm) => (false, pm)
    | (true, pm) => remapPages cfg virtOld virtNew flags pm rest

/-- `PageMap::RemapRange` with 4 KiB pages. -/
def remapRange (cfg : Paging) (pm : PageMap) (virtOld virtNew : Word) (size : ℕ)
    (flags : PageAttributes) : Bool × PageMap :=
  remapPages cfg virtOld virtNew flags pm (List.range (divRoundUp size PMM.pageSize))

/-- A page map whose leaf entries are those of an entry table. -/
structure EntryRefines (cfg : Paging) (pm : PageMap) (t : EntryTable) : Prop where
  wf : Wf cfg pm
  leaf : ∀ v : Word, leaf cfg pm v = t (LeafTable.index cfg v.toNat)

namespace EntryRefines

variable {cfg : Paging} {pm pm' : PageMap} {t : EntryTable} {flags : PageAttributes}

theorem written (h : EntryRefines cfg pm t) {v : Word} {e : PageTableEntry} {n : ℕ}
    (hw : Written cfg pm pm' v e n) :
    EntryRefines cfg pm' (Function.update t (LeafTable.index cfg v.toNat) e) := by
  refine ⟨hw.wf, fun w => ?_⟩
  rw [hw.leaf, Function.update_apply]
  simp only [sameEntry_iff_index_eq, h.leaf]

theorem virt2Phys (h : EntryRefines cfg pm t) (hflags : getPageSize flags = .page) (v : Word) :
    virt2Phys cfg pm v flags = t.virt2Phys cfg v.toNat := by
  have hmod : v % 0x1000 = BitVec.ofNat 64 (v.toNat % PMM.pageSize) := by
    have hlt : v.toNat % PMM.pageSize < 2 ^ 64 :=
      (Nat.mod_lt _ (by decide)).trans (by decide : PMM.pageSize < 2 ^ 64)
    rw [← BitVec.toNat_inj, BitVec.toNat_umod, BitVec.toNat_ofNat, Nat.mod_eq_of_lt hlt]
    rfl
  rw [h.wf.virt2Phys_eq v hflags, h.leaf, hmod]
  rfl

theorem internalMap (h : EntryRefines cfg pm t) (hflags : getPageSize flags = .page)
    (hsupply : 4 ≤ pm.supply.length) (v phys : Word) :
    (internalMap cfg pm v phys flags).1 = true ∧
      EntryRefines cfg (PageMap.internalMap cfg pm v phys flags).2
        (t.map cfg v.toNat phys flags) ∧
      pm.supply.length ≤ (PageMap.internalMap cfg pm v phys flags).2.supply.length + 4 := by
  obtain ⟨hok, hw⟩ := h.wf.internalMap v phys hflags hsupply
  exact ⟨hok, h.written hw, hw.supply_le⟩

theorem remap (h : EntryRefines cfg pm t) (hflags : getPageSize flags = .page)
    (hsupply : 4 ≤ pm.supply.length) (v : Word) :
    (remap cfg pm v v flags).1 = true ∧
      EntryRefines cfg (PageMap.remap cfg pm v v flags).2 (t.remap cfg v.toNat flags) ∧
      pm.supply.length ≤ (PageMap.remap cfg pm v v flags).2.supply.length + 4 := by
  have hunmap := h.wf.internalUnmap v hflags
  have hle : pm.supply.length ≤ (internalUnmap cfg pm v flags).2.supply.length := hunmap.supply_le
  obtain ⟨hok, hmap, hsupply'⟩ := (h.written hunmap).internalMap hflags (by omega) v
    (PageMap.virt2Phys cfg pm v flags)
  refine ⟨hok, ?_, hle.trans hsupply'⟩
  rw [EntryTable.remap, ← h.virt2Phys hflags]
  exact hmap

/-- `MapRange` over a page map with tables enough is `MapRange` over its entries. -/
theorem mapRange (h : EntryRefines cfg pm t) (hflags : getPageSize flags = .page)
    (virt phys : Word) (size : ℕ)
    (hsupply : 4 * divRoundUp size PMM.pageSize ≤ pm.supply.length) :
    (mapRange cfg pm virt phys size flags).1 = true ∧
      EntryRefines cfg (PageMap.mapRange cfg pm virt phys size flags).2
        (t.mapRange cfg virt.toNat phys size flags) := by
  refine refines_loop _ (mapPages cfg virt phys flags) (fun _ => rfl) mapPages_cons _
    (fun i _ pm t h hsupply => ?_) h (by rwa [List.length_range])
  rw [← toNat_add_ofNat]
  exact h.internalMap hflags hsupply _ _

/-- `RemapRange` of a range to itself over a page map with tables enough is `RemapRange` over its
entries. -/
theorem remapRange (h : EntryRefines cfg pm t) (hflags : getPageSize flags = .page) (virt : Word)
    (size : ℕ) (hsupply : 4 * divRoundUp size PMM.pageSize ≤ pm.supply.length) :
    (remapRange cfg pm virt virt size flags).1 = true ∧
      EntryRefines cfg (PageMap.remapRange cfg pm virt virt size flags).2
        (t.remapRange cfg virt.toNat size flags) := by
  refine refines_loop (fun pm i => PageMap.remap cfg pm
    (virt + BitVec.ofNat 64 (i * PMM.pageSize)) (virt + BitVec.ofNat 64 (i * PMM.pageSize)) flags)
    (remapPages cfg virt virt flags) (fun _ => rfl) (fun pm i l hok => ?_) _
    (fun i _ pm t h hsupply => ?_) h (by rwa [List.length_range])
  · rw [remapPages]
    generalize PageMap.remap cfg pm _ _ flags = r at hok ⊢
    obtain ⟨ok, pm'⟩ := r
    obtain rfl : ok = true := hok
    rfl
  · rw [← toNat_add_ofNat]
    exact h.remap hflags hsupply _

end EntryRefines

end PageMap

end Cryptix.Memory
