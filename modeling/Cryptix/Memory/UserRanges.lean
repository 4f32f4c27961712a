import Cryptix.Memory.FirstFit
import Cryptix.Memory.UserMemory

/-!
# The ranges that `MMap` and `MUnMap` are asked for

`MMap` rounds the length up to whole pages and asks the address space for a region. Both steps are
modulo `2 ^ 64`: a length in the last page of the address space is rounded to 0, and a stretch that
reaches `2 ^ 64` passes `IsAvailable` when its wrapped end is low enough. The region is then in the
tree, but `Find` does not find it, and the assertion of `MMap` stops the kernel.

`MUnMap` looks an address up by containment, then takes the region under that key, and never looks
at the length.
-/

namespace Cryptix.Memory

open Prism Lib

/-! ## `MMap` -/

namespace MMapRequest

/-- The length that `MMap` goes on with: whole pages, modulo `2 ^ 64`. -/
def roundedLength (req : MMapRequest) : ℕ := alignUp req.length.toNat PMM.pageSize

/-- The requests that `MMap` turns down before it looks at the address space. -/
def TurnedDown (req : MMapRequest) : Prop :=
  req.addr &&& ~~~PTE.addressMask ≠ 0 ∨ req.has mapAnonymous = false ∨ req.length = 0 ∨
    req.offset ≠ 0

/-- The results of `MMap` that are failures. -/
def Failed (result : Except Errno ℕ) : Prop :=
  result = .ok mapFailed ∨ ∃ e, result = .error e

end MMapRequest

theorem alignUp_alignUp (n : ℕ) :
    alignUp (alignUp n PMM.pageSize) PMM.pageSize = alignUp n PMM.pageSize := by
  simp only [alignUp, roundUp, divRoundUp, PMM.pageSize, wordCount]
  omega

namespace UserSpace

/-- The places at which `MMap` tries to put the region: the address asked for, or the places of the
search. -/
def placesFor (u : UserSpace) (req : MMapRequest) : List (ℕ × Option Region) :=
  if req.has MMapRequest.mapFixed then [(req.addr.toNat, none)]
  else u.addressSpace.tried req.pageSize

/-- A place passes the tests of the address space. -/
def admits (u : UserSpace) (req : MMapRequest) (place : ℕ × Option Region) : Bool :=
  u.addressSpace.admits req.roundedLength place

/-- The region of a request at a place. -/
def regionAt (req : MMapRequest) (base : ℕ) : Region :=
  { virtualBase := base, size := req.roundedLength }

/-- The first place that passes the tests decides. -/
theorem allocateFor_eq (u : UserSpace) (req : MMapRequest) :
    u.allocateFor req =
      match (u.placesFor req).find? (u.admits req) with
      | none => (none, u.addressSpace)
      | some place =>
        (some (regionAt req place.1), u.addressSpace.insert place.1 (regionAt req place.1)) := by
  unfold allocateFor placesFor
  dsimp only
  by_cases hfixed : req.has MMapRequest.mapFixed
  · have hadmits : u.admits req (req.addr.toNat, none) =
        u.addressSpace.isAvailable req.addr.toNat (alignUp req.length.toNat PMM.pageSize) := by
      rw [admits, AddressSpace.admits, Option.all_none, Bool.true_and, MMapRequest.roundedLength]
    rw [if_pos hfixed, if_pos hfixed, AddressSpace.allocateFixed, List.find?_singleton,
      alignUp_alignUp, hadmits]
    dsimp only
    split <;> rfl
  · rw [if_neg hfixed, if_neg hfixed, AddressSpace.allocateRegion, AddressSpace.chooseBase_eq]
    have hadmits : u.addressSpace.admits (alignUp req.length.toNat PMM.pageSize) = u.admits req :=
      rfl
    rw [hadmits]
    cases (u.addressSpace.tried req.pageSize).find? (u.admits req) with
    | none => rfl
    | some place => rfl

/-- What `MMap` should do: fail and leave the tree as it is, or add one region of at least the
length asked for that shares no address with the others and does not wrap around. -/
def MapsSafely (u : UserSpace) (req : MMapRequest) : Prop :=
  ∃ result u', u.mMap req = some (result, u') ∧
    ((MMapRequest.Failed result ∧ u'.addressSpace.regionTree = u.addressSpace.regionTree) ∨
    ∃ region : Region, result = .ok region.virtualBase ∧
      req.length.toNat ≤ region.size ∧ region.virtualBase + region.size ≤ wordCount ∧
      (∀ r ∈ u.addressSpace.regions, Disjoint region.range r.range) ∧
      ∀ k r, (k, r) ∈ u'.addressSpace.regionTree ↔
        (k = region.virtualBase ∧ r = region) ∨ (k, r) ∈ u.addressSpace.regionTree)

/-- The first place that passes the tests leaves room for the region below the top, and the region
is not empty. -/
def StaysBelowTop (u : UserSpace) (req : MMapRequest) : Prop :=
  ∀ before place after, u.placesFor req = before ++ place :: after →
    (∀ p ∈ before, u.admits req p = false) → u.admits req place = true →
      0 < req.roundedLength ∧ place.1 + req.roundedLength < wordCount

theorem mMap_of_turnedDown (u : UserSpace) {req : MMapRequest} (h : req.TurnedDown) :
    u.MapsSafely req := by
  unfold MapsSafely mMap
  have hfailed : MMapRequest.Failed (.ok MMapRequest.mapFailed) := .inl rfl
  have herror : MMapRequest.Failed (.error .EINVAL) := .inr ⟨_, rfl⟩
  by_cases haddr : req.addr &&& ~~~PTE.addressMask != 0
  · rw [if_pos haddr]
    exact ⟨_, _, rfl, .inl ⟨hfailed, rfl⟩⟩
  rw [if_neg haddr]
  by_cases hanon : !req.has MMapRequest.mapAnonymous
  · rw [if_pos hanon]
    exact ⟨_, _, rfl, .inl ⟨hfailed, rfl⟩⟩
  rw [if_neg hanon]
  by_cases hlength : req.length = 0
  · rw [if_pos hlength]
    exact ⟨_, _, rfl, .inl ⟨herror, rfl⟩⟩
  rw [if_neg hlength]
  by_cases hoffset : req.offset ≠ 0
  · rw [if_pos hoffset]
    exact ⟨_, _, rfl, .inl ⟨herror, rfl⟩⟩
  · rcases h with h | h | h | h
    · exact absurd (by simpa using h) haddr
    · exact absurd (by simp [h]) hanon
    · exact absurd h hlength
    · exact absurd h hoffset

/-- A region that reaches the top, or an empty one, is never found. -/
theorem find_ne_of_not_below (s : AddressSpace) {r : Region} (hbase : r.virtualBase < wordCount)
    (hsize : r.size < wordCount)
    (h : ¬(0 < r.size ∧ r.virtualBase + r.size < wordCount)) :
    s.find r.virtualBase ≠ some r := by
  intro hfind
  have htest := List.find?_some hfind
  rw [decide_eq_true_iff, Region.endAddress, offset] at htest
  simp only [wordCount] at *
  omega

theorem lt_of_mem_places {alignment : ℕ} {rest : List Region} {current : ℕ}
    {place : ℕ × Option Region} (h : place ∈ AddressSpace.places alignment rest current) :
    place.1 < wordCount := by
  have hlt (n : ℕ) : alignUp n alignment < wordCount := Nat.mod_lt _ (by decide)
  induction rest generalizing current with
  | nil =>
    rw [AddressSpace.places, List.mem_singleton] at h
    exact h ▸ hlt current
  | cons region rest ih =>
    rcases List.mem_cons.mp h with rfl | h
    · exact hlt current
    · exact ih h

theorem lt_of_mem_placesFor {u : UserSpace} {req : MMapRequest} {place : ℕ × Option Region}
    (h : place ∈ u.placesFor req) : place.1 < wordCount := by
  unfold placesFor at h
  split at h
  · rw [List.mem_singleton.mp h]
    exact req.addr.isLt
  · exact lt_of_mem_places h

/-- The first place that passes the tests is the one the search returns. -/
theorem staysBelowTop_iff_of_find {u : UserSpace} {req : MMapRequest} {place : ℕ × Option Region}
    (hfind : (u.placesFor req).find? (u.admits req) = some place) :
    u.StaysBelowTop req ↔
      0 < req.roundedLength ∧ place.1 + req.roundedLength < wordCount := by
  constructor
  · intro h
    obtain ⟨hadmits, before, after, heq, hbefore⟩ := List.find?_eq_some_iff_append.mp hfind
    exact h before place after heq (fun p hp => by simpa using hbefore p hp) hadmits
  · intro h before p after heq hbefore hadmits
    have hfirst : (u.placesFor req).find? (u.admits req) = some p :=
      List.find?_eq_some_iff_append.mpr
        ⟨hadmits, before, after, heq, fun q hq => by simp [hbefore q hq]⟩
    rw [hfind] at hfirst
    obtain rfl := Option.some.inj hfirst
    exact h

/-- A region that fits and that `IsAvailable` accepts: what the tree holds after the two insertions
of `MMap`, and that `Find` finds the region. -/
theorem insert_region_spec {s : AddressSpace} (hinv : s.Inv) (hpos : ∀ r ∈ s.regions, 0 < r.size)
    {r : Region} (hsize : 0 < r.size) (hfits : r.Fits)
    (havail : s.isAvailable r.virtualBase r.size = true) (access : Access) :
    ((s.insert r.virtualBase r).insert r.virtualBase { r with access := access }).find
        r.virtualBase = some { r with access := access } ∧
    (∀ q ∈ s.regions, Disjoint r.range q.range) ∧
    ∀ k q, (k, q) ∈ ((s.insert r.virtualBase r).insert r.virtualBase
        { r with access := access }).regionTree ↔
      (k = r.virtualBase ∧ q = { r with access := access }) ∨ (k, q) ∈ s.regionTree := by
  have hdisj : ∀ k q, (k, q) ∈ s.regionTree → Disjoint r.range q.range :=
    fun k q hq => hinv.disjoint_of_isAvailable hfits havail hq
  have hkey : ∀ k q, (k, q) ∈ s.regionTree → k ≠ r.virtualBase := by
    rintro k q hq rfl
    have hbase := hinv.own_key _ q hq
    have hq' := hpos q (AddressSpace.mem_regions.mpr ⟨_, hq⟩)
    have hin : r.virtualBase ∈ r.range := ⟨le_rfl, by omega⟩
    exact Set.disjoint_left.mp (hdisj _ q hq) hin ⟨by omega, by omega⟩
  have hmem : (r.virtualBase, r) ∈ (s.insert r.virtualBase r).regionTree :=
    OrderedMap.mem_insert.mpr (.inl ⟨rfl, rfl⟩)
  have hinv' : ((s.insert r.virtualBase r).insert r.virtualBase { r with access := access }).Inv :=
    (hinv.insert hfits havail).replace hmem rfl rfl
  refine ⟨(hinv'.sound.find_some _ _).mpr ⟨?_, ⟨le_rfl, ?_⟩⟩, fun q hq => ?_, fun k q => ?_⟩
  · exact AddressSpace.mem_regions.mpr ⟨_, OrderedMap.mem_insert.mpr (.inl ⟨rfl, rfl⟩)⟩
  · exact Nat.lt_add_of_pos_right hsize
  · obtain ⟨k, hk⟩ := AddressSpace.mem_regions.mp hq
    exact hdisj k q hk
  · constructor
    · intro h
      rcases OrderedMap.mem_insert.mp h with hnew | ⟨hne, h⟩
      · exact .inl hnew
      · rcases OrderedMap.mem_insert.mp h with ⟨rfl, -⟩ | ⟨-, hold⟩
        · exact absurd rfl hne
        · exact .inr hold
    · rintro (hnew | hold)
      · exact OrderedMap.mem_insert.mpr (.inl hnew)
      · have hne := hkey k q hold
        exact OrderedMap.mem_insert.mpr (.inr ⟨hne, OrderedMap.mem_insert.mpr (.inr ⟨hne, hold⟩)⟩)

/-- Rounding a positive length to whole pages either covers it or gives 0. -/
theorem le_roundedLength {req : MMapRequest} (h : 0 < req.roundedLength) :
    req.length.toNat ≤ req.roundedLength := by
  have hlt := req.length.isLt
  simp only [MMapRequest.roundedLength, alignUp, roundUp, divRoundUp, PMM.pageSize,
    wordCount] at h ⊢
  omega

theorem mMap_eq_of_not_turnedDown (u : UserSpace) {req : MMapRequest} (h : ¬req.TurnedDown) :
    u.mMap req =
      match (u.placesFor req).find? (u.admits req) with
      | none => some (.error .ENOMEM, u)
      | some place =>
        let region := { regionAt req place.1 with access := req.access }
        let space := (u.addressSpace.insert place.1 (regionAt req place.1)).insert place.1 region
        if space.find place.1 = some region then
          some (.ok place.1, { u with addressSpace := space })
        else none := by
  simp only [MMapRequest.TurnedDown, not_or, not_not, Bool.not_eq_false] at h
  obtain ⟨haddr, hanon, hlength, hoffset⟩ := h
  rw [mMap, if_neg (by simp [haddr]), if_neg (by simp [hanon]), if_neg hlength,
    if_neg (by simp [hoffset]), allocateFor_eq]
  cases (u.placesFor req).find? (u.admits req) <;> rfl

/-- `MMap` either fails and leaves the region tree unchanged, or adds one region of at least the
length asked for, disjoint from all others and without wrap-around, and its assertion holds, if and
only if the request is turned down at once or the first place that passes the tests leaves room
below the top for a region that is not empty. -/
theorem mapsSafely_iff {u : UserSpace} (hinv : u.addressSpace.Inv)
    (hpos : ∀ r ∈ u.addressSpace.regions, 0 < r.size) (req : MMapRequest) :
    u.MapsSafely req ↔ req.TurnedDown ∨ u.StaysBelowTop req := by
  by_cases hdown : req.TurnedDown
  · exact iff_of_true (u.mMap_of_turnedDown hdown) (.inl hdown)
  have hmap := u.mMap_eq_of_not_turnedDown hdown
  cases hfind : (u.placesFor req).find? (u.admits req) with
  | none =>
    rw [hfind] at hmap
    refine iff_of_true ⟨_, _, hmap, .inl ⟨.inr ⟨_, rfl⟩, rfl⟩⟩ (.inr fun before place after heq _
      hadmits => ?_)
    have hnone := List.find?_eq_none.mp hfind place (by rw [heq]; simp)
    exact absurd hadmits hnone
  | some place =>
    rw [hfind] at hmap
    dsimp only at hmap
    simp only [hdown, false_or]
    rw [staysBelowTop_iff_of_find hfind]
    have hlt := lt_of_mem_placesFor (List.mem_of_find?_eq_some hfind)
    have hlength : req.roundedLength < wordCount := Nat.mod_lt _ (by decide)
    have hadmits := List.find?_some hfind
    rw [admits, AddressSpace.admits, Bool.and_eq_true] at hadmits
    have havail : u.addressSpace.isAvailable place.1 req.roundedLength = true := hadmits.2
    constructor
    · rintro ⟨result, u', hcall, -⟩
      by_contra hnot
      rw [hmap] at hcall
      split at hcall
      · rename_i hfound
        exact find_ne_of_not_below _ (r := { regionAt req place.1 with access := req.access })
          hlt hlength hnot hfound
      · cases hcall
    · rintro ⟨hsize, hbelow⟩
      obtain ⟨hfound, hdisj, hmem⟩ := insert_region_spec hinv hpos (r := regionAt req place.1)
        hsize hbelow havail req.access
      exact ⟨_, _, hmap.trans (if_pos hfound),
        .inr ⟨{ regionAt req place.1 with access := req.access }, rfl, le_roundedLength hsize,
          hbelow.le, hdisj, hmem⟩⟩

/-- A process without regions. -/
def fresh (totalBase : ℕ) : UserSpace := ⟨.withBase totalBase, fun _ => none⟩

/-- One page in a fresh process. -/
theorem mapsSafely_onePage : (fresh 0x140000000).MapsSafely UserMemory.onePage := by
  refine (mapsSafely_iff (AddressSpace.inv_withBase _) ?_ _).mpr (.inr ?_)
  · exact fun r hr => absurd hr List.not_mem_nil
  · have hfind : ((fresh 0x140000000).placesFor UserMemory.onePage).find?
        ((fresh 0x140000000).admits UserMemory.onePage) = some (0x140000000, none) := by decide
    rw [staysBelowTop_iff_of_find hfind]
    decide

/-- The largest length: it is rounded up to 0, and the empty region is not found. -/
theorem not_mapsSafely_largest_length :
    ((fresh 0x140000000).mMap { UserMemory.onePage with length := 0xffffffffffffffff }).isNone ∧
    ¬(fresh 0x140000000).MapsSafely
      { UserMemory.onePage with length := 0xffffffffffffffff } := by
  have hnone : ((fresh 0x140000000).mMap
      { UserMemory.onePage with length := 0xffffffffffffffff }).isNone := by decide
  refine ⟨hnone, ?_⟩
  rintro ⟨result, u', hcall, -⟩
  rw [hcall] at hnone
  cases hnone

end UserSpace

/-! ## `MUnMap` -/

instance (r : Region) (a : ℕ) : Decidable (a ∈ r.range) :=
  inferInstanceAs (Decidable (r.virtualBase ≤ a ∧ a < r.virtualBase + r.size))

/-- The frame behind an address of a region, if the region is backed. -/
def Region.frameAt (r : Region) (address : ℕ) : Option ℕ :=
  if r.physicalBase = 0 then none
  else some ((r.physicalBase + (address - r.virtualBase)) / PMM.pageSize)

/-- What the regions say about an address: its frame, if it has one yet, and the access mode. -/
def AddressSpace.pageAt (s : AddressSpace) (address : ℕ) : Option (Option ℕ × Access) :=
  (s.find address).map fun r => (r.frameAt address, r.access)

/-- The regions consist of whole pages, and each backing is a block that the frame allocator has
handed out and not taken back. -/
structure AddressSpace.Backed (usable : ℕ → Prop) (live : List Block) (m : PhysicalMemory)
    (s : AddressSpace) : Prop where
  inv : s.Inv
  pos : ∀ r ∈ s.regions, 0 < r.size
  dvd : ∀ r ∈ s.regions, PMM.pageSize ∣ r.size
  accounted : FramePool.Accounted usable ⟨m.allocator, live⟩
  backing : ∀ r ∈ s.regions, r.physicalBase ≠ 0 → r.block ∈ live

namespace AddressSpace

variable {s : AddressSpace} {k : ℕ} {r : Region}

/-- `Find` after the region under `k` is erased. -/
theorem Inv.find_erase (h : s.Inv) (hr : (k, r) ∈ s.regionTree) (a : ℕ) :
    (s.erase k).find a = if a ∈ r.range then none else s.find a := by
  have hmem : ∀ q, q ∈ (s.erase k).regions ↔ q ∈ s.regions ∧ q.virtualBase ≠ k := by
    intro q
    rw [mem_regions, mem_regions]
    constructor
    · rintro ⟨k', hk'⟩
      obtain ⟨hne, hold⟩ := OrderedMap.mem_erase.mp hk'
      exact ⟨⟨k', hold⟩, h.own_key k' q hold ▸ hne⟩
    · rintro ⟨⟨k', hold⟩, hne⟩
      exact ⟨k', OrderedMap.mem_erase.mpr ⟨h.own_key k' q hold ▸ hne, hold⟩⟩
  have hsound := h.sound
  have hsound' := (h.erase k).sound
  split
  · rename_i hin
    rw [hsound'.find_none]
    intro q hq hqa
    obtain ⟨hq, hne⟩ := (hmem q).mp hq
    obtain ⟨k', hk'⟩ := mem_regions.mp hq
    have hkey := h.own_key k' q hk'
    exact Set.disjoint_left.mp (h.disjoint k r k' q hr hk' (by omega)) hin hqa
  · rename_i hout
    cases hfind : s.find a with
    | none =>
      rw [hsound'.find_none]
      exact fun q hq => (hsound.find_none a).mp hfind q ((hmem q).mp hq).1
    | some q =>
      obtain ⟨hq, hqa⟩ := (hsound.find_some a q).mp hfind
      refine (hsound'.find_some a q).mpr ⟨(hmem q).mpr ⟨hq, ?_⟩, hqa⟩
      rintro rfl
      obtain ⟨k', hk'⟩ := mem_regions.mp hq
      obtain rfl := h.own_key k' q hk'
      exact hout (OrderedMap.value_unique hr hk' ▸ hqa)

theorem Inv.pageAt_erase (h : s.Inv) (hr : (k, r) ∈ s.regionTree) (a : ℕ) :
    (s.erase k).pageAt a = if a ∈ r.range then none else s.pageAt a := by
  rw [pageAt, h.find_erase hr]
  split <;> rfl

/-- The region under a key is the one `Find` returns for the key. -/
theorem Inv.find_key (h : s.Inv) (hpos : ∀ r ∈ s.regions, 0 < r.size)
    (hr : (k, r) ∈ s.regionTree) : s.find k = some r := by
  have hmem := mem_regions.mpr ⟨k, hr⟩
  have hkey := h.own_key k r hr
  have hsize := hpos r hmem
  exact (h.sound.find_some k r).mpr ⟨hmem, ⟨hkey.le, by omega⟩⟩

end AddressSpace

/-- The addresses of a region and the frames that back it. -/
theorem Region.exists_frameAt_iff {r : Region} {first : ℕ} (hfirst : 0 < first)
    (hphys : r.physicalBase = first * PMM.pageSize) (hdvd : PMM.pageSize ∣ r.size) (i : ℕ) :
    (∃ a ∈ r.range, r.frameAt a = some i) ↔
      first ≤ i ∧ i < first + r.size / PMM.pageSize := by
  have hne : r.physicalBase ≠ 0 := by
    rw [hphys]
    exact Nat.mul_ne_zero hfirst.ne' (by decide)
  obtain ⟨n, hn⟩ := hdvd
  have hframe (a : ℕ) : r.frameAt a =
      some ((first * PMM.pageSize + (a - r.virtualBase)) / PMM.pageSize) := by
    rw [Region.frameAt, if_neg hne, hphys]
  simp only [hframe, Option.some.injEq, Region.range, Set.mem_Ico, hn, PMM.pageSize]
  constructor
  · rintro ⟨a, ha, rfl⟩
    omega
  · intro hi
    exact ⟨r.virtualBase + (i - first) * 4096, by omega, by omega⟩

/-- An address below the direct map is not changed. -/
theorem fromHigherHalfAddress_of_lt {cfg : Paging} {a : ℕ} (h : a < cfg.higherHalfOffset.toNat) :
    cfg.fromHigherHalfAddress a = a := by
  have hlt := cfg.higherHalfOffset.isLt
  have ha : (BitVec.ofNat 64 a).toNat = a := by
    rw [BitVec.toNat_ofNat, Nat.mod_eq_of_lt (by omega)]
  unfold Paging.fromHigherHalfAddress Paging.fromHigherHalf
  rw [if_neg (by rw [BitVec.le_def, ha]; omega), ha]

namespace UserSpace

variable {usable : ℕ → Prop} {live : List Block} {m : PhysicalMemory} {u : UserSpace}
  {cfg : Paging} {virt : ℕ} {r : Region}

/-- What `MUnMap` should do with the pages of `[virt, virt + length)`: take exactly them from the
regions and free exactly their frames, or fail without an effect when no region holds `virt`. -/
structure UnmapsExactly (cfg : Paging) (m : PhysicalMemory) (u : UserSpace) (virt length : ℕ) :
    Prop where
  error : u.addressSpace.find virt = none → ∃ e, u.mUnMap cfg m virt = some (.error e, m, u)
  unmaps : u.addressSpace.find virt ≠ none → ∃ m' u', u.mUnMap cfg m virt = some (.ok (), m', u') ∧
    (∀ a, u'.addressSpace.pageAt a =
      if virt ≤ a ∧ a < virt + length then none else u.addressSpace.pageAt a) ∧
    ∀ i, m'.allocator.used i = true ↔ m.allocator.used i = true ∧
      ¬∃ a access, (virt ≤ a ∧ a < virt + length) ∧
        u.addressSpace.pageAt a = some (some i, access)

/-- The region under `virt` is the only one in `[virt, virt + length)`, and lies in it as a
whole. -/
def OneWholeRegion (u : UserSpace) (virt length : ℕ) : Prop :=
  ∃ r, (virt, r) ∈ u.addressSpace.regionTree ∧ r.size ≤ length ∧
    ∀ k q, (k, q) ∈ u.addressSpace.regionTree → k ≠ virt →
      Disjoint q.range (Set.Ico virt (virt + length))

/-- The frames that `MUnMap` frees are those behind the addresses of the region. -/
theorem used_freePages_region (h : u.addressSpace.Backed usable live m)
    (htop : m.allocator.usableMemoryTop ≤ cfg.higherHalfOffset.toNat)
    (hr : r ∈ u.addressSpace.regions) (i : ℕ) :
    (m.freePages cfg r.physicalBase (r.size / PMM.pageSize)).allocator.used i = true ↔
      m.allocator.used i = true ∧ ¬∃ a ∈ r.range, r.frameAt a = some i := by
  unfold PhysicalMemory.freePages
  dsimp only
  by_cases hphys : r.physicalBase = 0
  · have hframe : ∀ a, r.frameAt a = none := fun a => if_pos hphys
    rw [hphys, cfg.fromHigherHalfAddress_zero, BitmapAllocator.freePages, if_pos (.inr rfl)]
    simp [hframe]
  · obtain ⟨first, hfirst, hbase, hcount⟩ := h.accounted.aligned _ (h.backing r hr hphys)
    have hblock := h.backing r hr hphys
    obtain ⟨n, hn⟩ := h.dvd r hr
    have hround : divRoundUp r.size PMM.pageSize = r.size / PMM.pageSize := by
      rw [hn, divRoundUp]
      simp only [PMM.pageSize]
      omega
    have hbase' : r.physicalBase = first * PMM.pageSize := hbase
    rw [Region.block, hbase', hround] at hblock
    have hfit := h.accounted.fits (by rw [← hround]; exact hcount) hblock
    -- the frames lie below the top of memory, so the physical base is no higher-half address
    have hlow : cfg.fromHigherHalfAddress (first * PMM.pageSize) = first * PMM.pageSize := by
      have hsize := h.accounted.wf.size_eq
      rw [h.accounted.wf.pageSize_eq] at hsize
      have hle : first + r.size / PMM.pageSize ≤ m.allocator.usableMemoryTop / PMM.pageSize :=
        hsize ▸ hfit
      have hpos : 0 < r.size / PMM.pageSize := by
        rw [← hround]
        exact hcount
      refine fromHigherHalfAddress_of_lt (lt_of_lt_of_le ?_ htop)
      simp only [PMM.pageSize] at hle hpos ⊢
      omega
    rw [hbase', hlow, BitmapAllocator.used_freePages h.accounted.wf hfirst hfit,
      Region.exists_frameAt_iff hfirst hbase' (h.dvd r hr)]

/-- The call of `MUnMap` on the base of a region. -/
theorem mUnMap_base (hinv : u.addressSpace.Inv) (hpos : ∀ r ∈ u.addressSpace.regions, 0 < r.size)
    (hr : (virt, r) ∈ u.addressSpace.regionTree) :
    u.mUnMap cfg m virt =
      some (.ok (), m.freePages cfg r.physicalBase (r.size / PMM.pageSize),
        { u with addressSpace := u.addressSpace.erase virt }) := by
  rw [mUnMap, hinv.find_key hpos hr, OrderedMap.lookup_eq_some.mpr hr]
  rfl

/-- `MUnMap` takes exactly the pages of `[virt, virt + length)` from the regions, frees exactly
their frames, keeps all other pages, and fails without an effect when no region holds `virt`, if
and only if no region holds `virt`, or a region begins there, lies in `[virt, virt + length)` as a
whole and is the only one that has pages in it. -/
theorem unmapsExactly_iff (h : u.addressSpace.Backed usable live m)
    (htop : m.allocator.usableMemoryTop ≤ cfg.higherHalfOffset.toNat) (virt length : ℕ) :
    UnmapsExactly cfg m u virt length ↔
      u.addressSpace.find virt = none ∨ u.OneWholeRegion virt length := by
  have hinv := h.inv
  have hsound := hinv.sound
  constructor
  · intro hexact
    by_cases hfind : u.addressSpace.find virt = none
    · exact .inl hfind
    obtain ⟨m', u', hcall, hpages, -⟩ := hexact.unmaps hfind
    -- the call returns, so a region begins at the address
    obtain ⟨r, hr⟩ : ∃ r, (virt, r) ∈ u.addressSpace.regionTree := by
      rw [mUnMap, if_neg (by simpa using hfind), Option.map_eq_some_iff] at hcall
      obtain ⟨r, hlookup, -⟩ := hcall
      exact ⟨r, OrderedMap.lookup_eq_some.mp hlookup⟩
    have hbase := hinv.own_key _ r hr
    rw [mUnMap_base hinv h.pos hr] at hcall
    obtain rfl : _ = u' := (Prod.mk.inj (Prod.mk.inj (Option.some.inj hcall)).2).2
    have hafter := hinv.pageAt_erase hr
    refine .inr ⟨r, hr, ?_, fun k q hq hne => ?_⟩
    · by_contra hlt
      have hin : virt + length ∈ r.range := ⟨by omega, by omega⟩
      have hfound := (hsound.find_some _ r).mpr ⟨AddressSpace.mem_regions.mpr ⟨_, hr⟩, hin⟩
      have hpage := hpages (virt + length)
      rw [hafter, if_pos hin, if_neg (by omega), AddressSpace.pageAt, hfound] at hpage
      cases hpage
    · refine Set.disjoint_left.mpr fun a hqa ha => ?_
      have hmem : virt ≤ a ∧ a < virt + length := ha
      have hfound := (hsound.find_some a q).mpr ⟨AddressSpace.mem_regions.mpr ⟨_, hq⟩, hqa⟩
      have hout : a ∉ r.range :=
        Set.disjoint_left.mp (hinv.disjoint k q virt r hq hr hne) hqa
      have hpage := hpages a
      rw [hafter, if_neg hout, if_pos hmem, AddressSpace.pageAt, hfound] at hpage
      cases hpage
  · rintro (hnone | ⟨r, hr, hsize, hother⟩)
    · refine ⟨fun _ => ⟨.EINVAL, ?_⟩, fun hne => absurd hnone hne⟩
      rw [mUnMap, hnone]
      rfl
    · have hbase := hinv.own_key _ r hr
      have hmem := AddressSpace.mem_regions.mpr ⟨_, hr⟩
      have hfound := hinv.find_key h.pos hr
      -- what lies in the range belongs to the region
      have hinside : ∀ a q, virt ≤ a ∧ a < virt + length → u.addressSpace.find a = some q →
          q = r ∧ a ∈ r.range := by
        intro a q ha hfind
        obtain ⟨hq, hqa⟩ := (hsound.find_some a q).mp hfind
        obtain ⟨k, hk⟩ := AddressSpace.mem_regions.mp hq
        by_cases hkey : k = virt
        · subst hkey
          obtain rfl := OrderedMap.value_unique hk hr
          exact ⟨rfl, hqa⟩
        · exact absurd ha (Set.disjoint_left.mp (hother k q hk hkey) hqa)
      have hrange : ∀ a, a ∈ r.range → virt ≤ a ∧ a < virt + length := by
        intro a ha
        simp only [Region.range, Set.mem_Ico] at ha
        omega
      have hsome : u.addressSpace.find virt ≠ none := by
        rw [hfound]
        exact Option.some_ne_none r
      refine ⟨fun hnone => absurd hnone hsome, fun _ =>
        ⟨_, _, mUnMap_base hinv h.pos hr, fun a => ?_, fun i => ?_⟩⟩
      · refine (hinv.pageAt_erase hr a).trans ?_
        by_cases hin : a ∈ r.range
        · rw [if_pos hin, if_pos (hrange a hin)]
        · rw [if_neg hin]
          split
          · rename_i ha
            rw [AddressSpace.pageAt]
            cases hfind : u.addressSpace.find a with
            | none => rfl
            | some q => exact absurd (hinside a q ha hfind).2 hin
          · rfl
      · rw [used_freePages_region h htop hmem]
        refine and_congr_right fun _ => not_congr ⟨?_, ?_⟩
        · rintro ⟨a, ha, hframe⟩
          refine ⟨a, r.access, hrange a ha, ?_⟩
          rw [AddressSpace.pageAt, (hsound.find_some a r).mpr ⟨hmem, ha⟩, Option.map_some, hframe]
        · rintro ⟨a, access, ha, hpage⟩
          rw [AddressSpace.pageAt, Option.map_eq_some_iff] at hpage
          obtain ⟨q, hfind, heq⟩ := hpage
          obtain ⟨rfl, hin⟩ := hinside a q ha hfind
          exact ⟨a, hin, (Prod.mk.inj heq).1⟩

/-- A process with one region of two pages, in frames 1 and 2. -/
def twoPages : UserSpace :=
  ⟨.withRegion 0x140000000 { virtualBase := 0x140000000, size := 0x2000, physicalBase := 0x1000 },
    fun _ => none⟩

/-- The frames of `twoPages` are the block of an allocation. -/
theorem backed_twoPages {a : BitmapAllocator} {pool : FramePool}
    (hinit : BitmapAllocator.initializeWith fourFrames PMM.pageSize = .ok a)
    (hrun : Reaches.runList FramePool.step FramePool.FreesLiveBlocks ⟨a, []⟩
      [.allocatePages 2] = some pool) (hlive : pool.live = [⟨0x1000, 2⟩]) :
    twoPages.addressSpace.Backed (MemoryMap.UsableFrame fourFrames) pool.live
      ⟨pool.allocator, fun _ => 0⟩ := by
  have haligned : MemoryMap.UsableAligned fourFrames := by
    unfold MemoryMap.UsableAligned
    decide
  have hacc : FramePool.Accounted (MemoryMap.UsableFrame fourFrames) pool :=
    (Reaches.of_list _ hrun).invariant (BitmapAllocator.accounted_initializeWith haligned hinit)
      fun _ _ _ hs hok hstep => hs.step hok hstep
  have hinv : twoPages.addressSpace.Inv :=
    (AddressSpace.inv_withBase 0x140000000).insert (by unfold Region.Fits; decide) (by decide)
  refine ⟨hinv, by decide, by decide, hacc, fun r hr _ => ?_⟩
  obtain rfl := List.mem_singleton.mp hr
  rw [hlive]
  decide

/-- The whole region is unmapped. -/
theorem unmapsExactly_twoPages : ∃ a pool,
    BitmapAllocator.initializeWith fourFrames PMM.pageSize = .ok a ∧
    Reaches.runList FramePool.step FramePool.FreesLiveBlocks ⟨a, []⟩ [.allocatePages 2] =
      some pool ∧
    UnmapsExactly UserMemory.level4 ⟨pool.allocator, fun _ => 0⟩ twoPages 0x140000000 0x2000 := by
  refine ⟨_, _, rfl, rfl, (unmapsExactly_iff (backed_twoPages rfl rfl rfl) (by decide) _ _).mpr
    (.inr ⟨_, List.mem_singleton_self _, by decide, fun k q hq hne => ?_⟩)⟩
  exact absurd (Prod.mk.inj (List.mem_singleton.mp hq)).1 hne

/-- One of the two pages is unmapped: the other one goes, too. An address in the second page
dereferences null. -/
theorem not_unmapsExactly_first_page : ∃ a pool,
    BitmapAllocator.initializeWith fourFrames PMM.pageSize = .ok a ∧
    Reaches.runList FramePool.step FramePool.FreesLiveBlocks ⟨a, []⟩ [.allocatePages 2] =
      some pool ∧
    ¬UnmapsExactly UserMemory.level4 ⟨pool.allocator, fun _ => 0⟩ twoPages 0x140000000 0x1000 ∧
    (twoPages.mUnMap UserMemory.level4 ⟨pool.allocator, fun _ => 0⟩ 0x140001000).isNone := by
  refine ⟨_, _, rfl, rfl, fun h => ?_, by decide⟩
  obtain ⟨m', u', hcall, hpages, -⟩ := h.unmaps (by decide)
  obtain rfl := (Prod.mk.inj (Prod.mk.inj (Option.some.inj hcall)).2).2
  exact absurd (hpages 0x140001000) (by decide)

end UserSpace

end Cryptix.Memory
