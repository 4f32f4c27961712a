import Mathlib.Order.Interval.Set.Disjoint
import Cryptix.Lib.OrderedMap
import Cryptix.Lib.Transition
import Cryptix.Memory.BitmapAllocator

/-!
# The regions of an address space

`Kernel/Memory/AddressSpace.cpp`: the regions of a process, in a tree ordered by virtual base.
`AllocateRegion` is a first-fit search between the regions, `AllocateFixed` takes the caller's
address; both ask `IsAvailable` before they insert.

All the interval arithmetic is on 64-bit words. A region that ends exactly at the top of the address
space has the end 0, and then neither `IsAvailable` nor `Find` sees it. `Fits` excludes that case,
and `sound_along_iff` shows that nothing else goes wrong.
-/

namespace Cryptix.Memory

open Prism Lib

/-- `VMM::Access`, one flag a field. -/
structure Access where
  read : Bool := false
  write : Bool := false
  execute : Bool := false
  user : Bool := false
  deriving DecidableEq, Repr

/-- `VMM::Region`. A physical base of 0 means that no frames back the region yet. -/
structure Region where
  virtualBase : ℕ
  size : ℕ
  physicalBase : ℕ := 0
  access : Access := {}
  deriving DecidableEq, Repr

namespace Region

/-- `Region::End`. -/
def endAddress (r : Region) : ℕ := offset r.virtualBase r.size

/-- The addresses of a region. -/
def range (r : Region) : Set ℕ := Set.Ico r.virtualBase (r.virtualBase + r.size)

/-- A region that ends below the top of the address space. -/
def Fits (r : Region) : Prop := r.virtualBase + r.size < wordCount

theorem Fits.endAddress_eq {r : Region} (h : r.Fits) : r.endAddress = r.virtualBase + r.size :=
  offset_of_lt h

end Region

/-- `AddressSpace`: the region tree and the base of `m_TotalRange`, where the search begins. -/
structure AddressSpace where
  regionTree : OrderedMap ℕ Region
  totalBase : ℕ

namespace AddressSpace

/-- The regions in tree order. -/
def regions (s : AddressSpace) : List Region := s.regionTree.entries.map Prod.snd

/-- `AddressSpace::IsAvailable`. -/
def isAvailable (s : AddressSpace) (base length : ℕ) : Bool :=
  s.regions.all fun current =>
    offset base length ≤ current.virtualBase || base ≥ current.endAddress

/-- `AddressSpace::Insert`. -/
def insert (s : AddressSpace) (base : ℕ) (region : Region) : AddressSpace :=
  { s with regionTree := s.regionTree.insert base region }

/-- `AddressSpace::Erase`; erasing a key that is not there does nothing. -/
def erase (s : AddressSpace) (base : ℕ) : AddressSpace :=
  { s with regionTree := s.regionTree.erase base }

/-- The search of `AllocateRegion` over the regions that are left, from the cursor `current`. -/
def firstFit (s : AddressSpace) (length alignment : ℕ) : List Region → (current : ℕ) → Option ℕ
  | [], current =>
    let current := alignUp current alignment
    if s.isAvailable current length then some current else none
  | region :: rest, current =>
    let current := alignUp current alignment
    if offset current length ≤ region.virtualBase ∧ s.isAvailable current length then some current
    else s.firstFit length alignment rest region.endAddress

/-- The base at which `AllocateRegion` places a region, if it finds one. -/
def chooseBase (s : AddressSpace) (length alignment : ℕ) : Option ℕ :=
  s.firstFit length alignment s.regions (alignUp s.totalBase alignment)

/-- `AddressSpace::AllocateRegion`. -/
def allocateRegion (s : AddressSpace) (length alignment : ℕ) : Option Region × AddressSpace :=
  match s.chooseBase length alignment with
  | none => (none, s)
  | some base =>
    let region : Region := { virtualBase := base, size := length }
    (some region, s.insert base region)

/-- `AddressSpace::AllocateFixed`. -/
def allocateFixed (s : AddressSpace) (virt size : ℕ) : Option Region × AddressSpace :=
  let size := alignUp size PMM.pageSize
  if s.isAvailable virt size then
    let region : Region := { virtualBase := virt, size := size }
    (some region, s.insert virt region)
  else (none, s)

/-- `AddressSpace::Find`. -/
def find (s : AddressSpace) (address : ℕ) : Option Region :=
  s.regions.find? fun region => region.virtualBase ≤ address ∧ address < region.endAddress

/-! ## Soundness of the tree -/

/-- The tree holds pairwise disjoint regions, each under its own base, and `Find` returns the
region that contains an address. -/
structure Sound (s : AddressSpace) : Prop where
  own_key : ∀ k r, (k, r) ∈ s.regionTree → r.virtualBase = k
  disjoint : ∀ k r k' r', (k, r) ∈ s.regionTree → (k', r') ∈ s.regionTree → k ≠ k' →
    Disjoint r.range r'.range
  find_some : ∀ address r, s.find address = some r ↔ r ∈ s.regions ∧ address ∈ r.range
  find_none : ∀ address, s.find address = none ↔ ∀ r ∈ s.regions, address ∉ r.range

theorem mem_regions {s : AddressSpace} {r : Region} :
    r ∈ s.regions ↔ ∃ k, (k, r) ∈ s.regionTree := by
  rw [regions, List.mem_map]
  exact ⟨fun ⟨⟨k, _⟩, hmem, hr⟩ => ⟨k, hr ▸ hmem⟩, fun ⟨k, hmem⟩ => ⟨(k, r), hmem, rfl⟩⟩

/-- What the calls keep: disjoint regions under their own bases, all ending below the top. -/
structure Inv (s : AddressSpace) : Prop where
  own_key : ∀ k r, (k, r) ∈ s.regionTree → r.virtualBase = k
  disjoint : ∀ k r k' r', (k, r) ∈ s.regionTree → (k', r') ∈ s.regionTree → k ≠ k' →
    Disjoint r.range r'.range
  fits : ∀ k r, (k, r) ∈ s.regionTree → r.Fits

/-- Where every region ends below the top, `Find` computes membership. -/
theorem Inv.sound {s : AddressSpace} (h : s.Inv) : s.Sound := by
  have hfits : ∀ r ∈ s.regions, ∀ address,
      (r.virtualBase ≤ address ∧ address < r.endAddress) ↔ address ∈ r.range := by
    intro r hr address
    obtain ⟨k, hmem⟩ := mem_regions.mp hr
    rw [(h.fits k r hmem).endAddress_eq]
    exact Iff.rfl
  have hnone : ∀ address, s.find address = none ↔ ∀ r ∈ s.regions, address ∉ r.range := by
    intro address
    rw [find, List.find?_eq_none]
    refine forall_congr' fun r => forall_congr' fun hr => ?_
    rw [decide_eq_true_iff, hfits r hr]
  refine ⟨h.own_key, h.disjoint, fun address r => ⟨fun hfind => ?_, fun ⟨hr, hin⟩ => ?_⟩, hnone⟩
  · have hr := List.mem_of_find?_eq_some hfind
    exact ⟨hr, (hfits r hr address).mp (by simpa using List.find?_some hfind)⟩
  · -- some region is found, and two regions that contain an address are the same
    obtain ⟨r', hfind⟩ : ∃ r', s.find address = some r' := by
      rw [← Option.ne_none_iff_exists', Ne, hnone]
      exact fun hall => hall r hr hin
    have hr' := List.mem_of_find?_eq_some hfind
    have hin' := (hfits r' hr' address).mp (by simpa using List.find?_some hfind)
    obtain ⟨k, hk⟩ := mem_regions.mp hr
    obtain ⟨k', hk'⟩ := mem_regions.mp hr'
    by_cases heq : k = k'
    · subst heq
      rw [hfind, OrderedMap.value_unique hk hk']
    · exact absurd hin' (Set.disjoint_left.mp (h.disjoint k r k' r' hk hk' heq) hin)

/-- `IsAvailable` decides disjointness for a range that ends below the top. -/
theorem Inv.disjoint_of_isAvailable {s : AddressSpace} (h : s.Inv) {base length : ℕ}
    (hfit : base + length < wordCount) (havail : s.isAvailable base length = true)
    {k : ℕ} {r : Region} (hr : (k, r) ∈ s.regionTree) :
    Disjoint (Set.Ico base (base + length)) r.range := by
  have hcheck := List.all_eq_true.mp havail r (mem_regions.mpr ⟨k, hr⟩)
  rw [offset_of_lt hfit, (h.fits k r hr).endAddress_eq, Bool.or_eq_true, decide_eq_true_iff,
    decide_eq_true_iff] at hcheck
  refine Set.disjoint_left.mpr fun a ha ha' => ?_
  simp only [Region.range, Set.mem_Ico] at ha ha'
  omega

/-- Inserting a region that `IsAvailable` admitted keeps the invariant. -/
theorem Inv.insert {s : AddressSpace} (h : s.Inv) {r : Region} (hfit : r.Fits)
    (havail : s.isAvailable r.virtualBase r.size = true) : (s.insert r.virtualBase r).Inv := by
  have hnew : ∀ k' r', (k', r') ∈ s.regionTree → Disjoint r.range r'.range :=
    fun k' r' hr' => h.disjoint_of_isAvailable hfit havail hr'
  refine ⟨fun k q hq => ?_, fun k q k' q' hq hq' hne => ?_, fun k q hq => ?_⟩
  · rcases OrderedMap.mem_insert.mp hq with ⟨rfl, rfl⟩ | ⟨-, hq⟩
    · rfl
    · exact h.own_key k q hq
  · rcases OrderedMap.mem_insert.mp hq with ⟨rfl, rfl⟩ | ⟨-, hold⟩ <;>
      rcases OrderedMap.mem_insert.mp hq' with ⟨rfl, rfl⟩ | ⟨-, hold'⟩
    · exact absurd rfl hne
    · exact hnew k' q' hold'
    · exact (hnew k q hold).symm
    · exact h.disjoint k q k' q' hold hold' hne
  · rcases OrderedMap.mem_insert.mp hq with ⟨rfl, rfl⟩ | ⟨-, hq⟩
    · exact hfit
    · exact h.fits k q hq

/-- A region may be replaced by one with the same addresses. -/
theorem Inv.replace {s : AddressSpace} (h : s.Inv) {k : ℕ} {r r' : Region}
    (hr : (k, r) ∈ s.regionTree) (hbase : r'.virtualBase = r.virtualBase)
    (hsize : r'.size = r.size) :
    (s.insert k r').Inv := by
  have hrange : r'.range = r.range := by
    unfold Region.range
    rw [hbase, hsize]
  refine ⟨fun k' q hq => ?_, fun k' q k'' q' hq hq' hne => ?_, fun k' q hq => ?_⟩
  · rcases OrderedMap.mem_insert.mp hq with ⟨rfl, rfl⟩ | ⟨-, hq⟩
    · exact hbase.trans (h.own_key _ r hr)
    · exact h.own_key k' q hq
  · rcases OrderedMap.mem_insert.mp hq with ⟨rfl, rfl⟩ | ⟨-, hold⟩ <;>
      rcases OrderedMap.mem_insert.mp hq' with ⟨rfl, rfl⟩ | ⟨-, hold'⟩
    · exact absurd rfl hne
    · exact hrange ▸ h.disjoint _ r k'' q' hr hold' hne
    · exact hrange ▸ h.disjoint k' q _ r hold hr hne
    · exact h.disjoint k' q k'' q' hold hold' hne
  · rcases OrderedMap.mem_insert.mp hq with ⟨rfl, rfl⟩ | ⟨-, hq⟩
    · unfold Region.Fits
      rw [hbase, hsize]
      exact h.fits _ r hr
    · exact h.fits k' q hq

theorem Inv.erase {s : AddressSpace} (h : s.Inv) (base : ℕ) : (s.erase base).Inv :=
  ⟨fun k r hr => h.own_key k r (OrderedMap.mem_erase.mp hr).2,
   fun k r k' r' hr hr' => h.disjoint k r k' r' (OrderedMap.mem_erase.mp hr).2
     (OrderedMap.mem_erase.mp hr').2,
   fun k r hr => h.fits k r (OrderedMap.mem_erase.mp hr).2⟩

/-- A region that ends exactly at the top is in the tree, but `Find` does not see it. -/
theorem not_sound_insert_top {s : AddressSpace} {r : Region} (hsize : 0 < r.size)
    (htop : r.virtualBase + r.size = wordCount) : ¬(s.insert r.virtualBase r).Sound := by
  intro hsound
  have hmem : r ∈ (s.insert r.virtualBase r).regions :=
    mem_regions.mpr ⟨_, OrderedMap.mem_insert.mpr (.inl ⟨rfl, rfl⟩)⟩
  have hin : r.virtualBase ∈ r.range := by
    simp only [Region.range, Set.mem_Ico]
    omega
  have hfind := (hsound.find_some r.virtualBase r).mpr ⟨hmem, hin⟩
  have htest := List.find?_some hfind
  rw [decide_eq_true_iff, Region.endAddress, offset, htop, Nat.mod_self] at htest
  omega

/-! ## The search -/

/-- A base that the search returned is available. -/
theorem isAvailable_of_firstFit {s : AddressSpace} {length alignment base : ℕ}
    (rest : List Region) (current : ℕ)
    (h : s.firstFit length alignment rest current = some base) :
    s.isAvailable base length = true := by
  induction rest generalizing current with
  | nil =>
    rw [firstFit] at h
    split at h
    · rename_i havail
      injection h with h
      exact h ▸ havail
    · cases h
  | cons region rest ih =>
    rw [firstFit] at h
    split at h
    · rename_i havail
      injection h with h
      exact h ▸ havail.2
    · exact ih _ h

/-- A base that the search returned is aligned. -/
theorem dvd_of_firstFit {s : AddressSpace} {length alignment base d : ℕ} (hd : d ∣ alignment)
    (hword : d ∣ wordCount) (rest : List Region) (current : ℕ)
    (h : s.firstFit length alignment rest current = some base) : d ∣ base := by
  have hdvd (n : ℕ) : d ∣ alignUp n alignment := by
    unfold alignUp roundUp
    exact (Nat.dvd_mod_iff hword).mpr (Nat.dvd_trans hd (Nat.dvd_mul_left _ _))
  induction rest generalizing current with
  | nil =>
    rw [firstFit] at h
    split at h
    · exact Option.some.inj h ▸ hdvd current
    · cases h
  | cons region rest ih =>
    rw [firstFit] at h
    split at h
    · exact Option.some.inj h ▸ hdvd current
    · exact ih _ h

/-- A range that ends at the top is available whatever the tree holds: its end is 0. -/
theorem isAvailable_top (s : AddressSpace) {base length : ℕ} (h : base + length = wordCount) :
    s.isAvailable base length = true := by
  refine List.all_eq_true.mpr fun r _ => ?_
  rw [offset, h, Nat.mod_self]
  simp

/-! ## Runs -/

/-- The calls that change an address space. -/
inductive Call
  | allocateRegion (length alignment : ℕ)
  | allocateFixed (virt size : ℕ)
  | erase (base : ℕ)
  deriving DecidableEq, Repr

/-- One call. -/
def step (s : AddressSpace) : Call → Option AddressSpace
  | .allocateRegion length alignment => some (s.allocateRegion length alignment).2
  | .allocateFixed virt size => some (s.allocateFixed virt size).2
  | .erase base => some (s.erase base)

/-- The calls considered: lengths are positive, and the base plus the page-rounded length does not
exceed `2 ^ 64`. The base of `AllocateRegion` is the one its search comes to. -/
def InRange (s : AddressSpace) : Call → Prop
  | .allocateRegion length alignment =>
    0 < length ∧ ∀ base, s.chooseBase length alignment = some base →
      base + roundUp length PMM.pageSize ≤ wordCount
  | .allocateFixed virt size => 0 < size ∧ virt + roundUp size PMM.pageSize ≤ wordCount
  | .erase _ => True

/-- The region of the call ends below the top of the address space, not at it. -/
def EndsBelowTop (s : AddressSpace) : Call → Prop
  | .allocateRegion length alignment =>
    ∀ base, s.chooseBase length alignment = some base → base + length ≠ wordCount
  | .allocateFixed virt size => virt + alignUp size PMM.pageSize ≠ wordCount
  | .erase _ => True

/-- The state after a call is sound. -/
def SoundAfter (s : AddressSpace) (call : Call) : Prop := ∀ s', s.step call = some s' → s'.Sound

/-- A call whose region ends below the top keeps the invariant. -/
theorem Inv.step {s s' : AddressSpace} (h : s.Inv) {call : Call} (hrange : s.InRange call)
    (hbelow : s.EndsBelowTop call) (hs : s.step call = some s') : s'.Inv := by
  cases call with
  | allocateRegion length alignment =>
    obtain rfl : _ = s' := by simpa [AddressSpace.step] using hs
    rw [allocateRegion]
    split
    · exact h
    · rename_i base hbase
      have hle := hrange.2 base hbase
      have hne := hbelow base hbase
      have hround := le_roundUp PMM.pageSize_pos length
      have havail : s.isAvailable base length = true := isAvailable_of_firstFit _ _ hbase
      exact h.insert (r := { virtualBase := base, size := length })
        (show base + length < wordCount by omega) havail
  | allocateFixed virt size =>
    obtain rfl : _ = s' := by simpa [AddressSpace.step] using hs
    have hle := hrange.2
    have hne : virt + alignUp size PMM.pageSize ≠ wordCount := hbelow
    have hmod : alignUp size PMM.pageSize ≤ roundUp size PMM.pageSize := Nat.mod_le _ _
    rw [allocateFixed]
    dsimp only
    split
    · rename_i havail
      exact h.insert (r := { virtualBase := virt, size := alignUp size PMM.pageSize })
        (show virt + alignUp size PMM.pageSize < wordCount by omega) havail
    · exact h
  | erase base =>
    obtain rfl : _ = s' := by simpa [AddressSpace.step] using hs
    exact h.erase base

/-- A call whose region ends at the top leaves a tree that `Find` is wrong about. -/
theorem endsBelowTop_of_soundAfter {s : AddressSpace} {call : Call} (hrange : s.InRange call)
    (hsound : s.SoundAfter call) : s.EndsBelowTop call := by
  cases call with
  | allocateRegion length alignment =>
    intro base hbase htop
    have hafter := hsound _ rfl
    rw [allocateRegion, hbase] at hafter
    exact not_sound_insert_top (r := { virtualBase := base, size := length }) hrange.1 htop hafter
  | allocateFixed virt size =>
    intro htop
    have hafter := hsound _ rfl
    have hpos : 0 < alignUp size PMM.pageSize := by
      by_contra h0
      have hle := hrange.2
      have := le_roundUp PMM.pageSize_pos size
      have := hrange.1
      omega
    rw [allocateFixed, if_pos (isAvailable_top s htop)] at hafter
    exact not_sound_insert_top (r := { virtualBase := virt, size := alignUp size PMM.pageSize })
      hpos htop hafter
  | erase base => exact trivial

/-- An address space without regions. -/
def withBase (totalBase : ℕ) : AddressSpace := ⟨.empty, totalBase⟩

theorem inv_withBase (totalBase : ℕ) : (withBase totalBase).Inv :=
  ⟨fun _ _ h => absurd h (OrderedMap.not_mem_empty _),
   fun _ _ _ _ h => absurd h (OrderedMap.not_mem_empty _),
   fun _ _ h => absurd h (OrderedMap.not_mem_empty _)⟩

/-- Over every sequence of calls with positive lengths and `base + length ≤ 2 ^ 64` on an empty
address space, the tree stays sound (disjoint regions under their own bases, `Find` exact) if and
only if no call allocates a region that ends exactly at `2 ^ 64`. -/
theorem sound_along_iff (totalBase : ℕ) (calls : List Call)
    (hrange : Along step InRange (withBase totalBase) calls) :
    Along step SoundAfter (withBase totalBase) calls ↔
      Along step EndsBelowTop (withBase totalBase) calls :=
  Along.congr (inv_withBase totalBase) hrange
    (fun _ _ hinv hcall => ⟨endsBelowTop_of_soundAfter hcall,
      fun hbelow _ hs => (hinv.step hcall hbelow hs).sound⟩)
    fun _ _ _ hinv hcall hbelow hs => hinv.step hcall hbelow hs

/-- A region placed at `0x10000`, then another by search, with the end of the tree left free. -/
theorem sound_along_two_regions :
    Along step SoundAfter (withBase 0x100000)
      [.allocateFixed 0x10000 5000, .allocateRegion 0x2000 0x1000] := by
  refine (sound_along_iff 0x100000 _ ?_).mpr ?_
  · refine ⟨⟨by decide, by decide⟩, fun s hs => ?_⟩
    obtain rfl := Option.some.inj hs
    exact ⟨⟨by decide, by decide⟩, fun _ _ => trivial⟩
  · refine ⟨by rw [EndsBelowTop]; decide, fun s hs => ?_⟩
    obtain rfl := Option.some.inj hs
    exact ⟨by rw [EndsBelowTop]; decide, fun _ _ => trivial⟩

/-- The last page of the address space: `AllocateFixed` accepts it and `Find` then denies it. -/
theorem not_sound_last_page :
    Along step InRange (withBase 0) [.allocateFixed 0xfffffffffffff000 0x1000] ∧
    ¬Along step SoundAfter (withBase 0) [.allocateFixed 0xfffffffffffff000 0x1000] := by
  refine ⟨⟨⟨by decide, by decide⟩, fun _ _ => trivial⟩, fun h => ?_⟩
  have hsound := h.1 _ rfl
  have hregion := (hsound.find_none 0xfffffffffffff000).mp (by decide)
  refine hregion { virtualBase := 0xfffffffffffff000, size := 0x1000 } (by decide) ?_
  simp [Region.range]

end AddressSpace

end Cryptix.Memory
