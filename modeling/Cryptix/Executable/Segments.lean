import Cryptix.Executable.ImageBounds
import Cryptix.Memory.Protection
import Cryptix.Scheduler.Fork
import Mathlib.Data.List.GetD

/-!
# The segments of a program in memory

`LoadImage` of `Kernel/Library/ExecutableProgram.cpp` gives every segment pages of its own and maps
them over the pages that the segment touches. Two segments that share a page cannot both be seen
there: the mapping of the later one replaces that of the earlier, whose bytes on that page are lost.

`loadImage_shows_file_iff` says which programs are in memory as their files say: those in which a
segment has only zeros on the pages of the segments after it.
-/

namespace Cryptix.ELF

open Lib

theorem Buffer.getD_slice (b : Buffer) (start count k : ℕ) :
    (b.slice start count).getD k 0 = if k < count then b.bytes (start + k) else 0 := by
  rw [Buffer.slice]
  by_cases hk : k < count
  · rw [if_pos hk, List.getD_eq_getElem _ _ (by simpa using hk), List.getElem_map,
      List.getElem_range]
  · rw [if_neg hk, List.getD_eq_default _ _ (by simpa using hk)]

/-- The loadable program headers of an image. -/
def loadableHeaders (b : Buffer) : List ℕ :=
  ((List.range b.header.programEntryCount).filter (programType b b.header · = 1)).map
    b.header.programHeader

variable {b : Buffer}

theorem segmentsBefore_eq (h : Header) (n : ℕ) : segmentsBefore b h (fun _ => true) n =
    some (((List.range n).filter (programType b h · = 1)).map fun i =>
      loadedSegment b (h.programHeader i)) := by
  induction n with
  | zero => rfl
  | succ n ih =>
    rw [segmentsBefore, ih, List.range_succ, List.filter_append, List.map_append]
    dsimp only
    by_cases htype : programType b h n = 1
    · rw [if_pos htype, if_pos rfl]
      simp [htype]
    · rw [if_neg htype]
      simp [htype]

/-- What `LoadImage` reads of the segments, if it finishes. -/
theorem loaded_of_loadImage {loadBase : ℕ} {image : Image} {segments : List Loaded}
    (h : loadImage b loadBase (fun _ => true) = .ok (.ok (image, some segments))) :
    segments = (loadableHeaders b).map (loadedSegment b) := by
  have hsize : 64 ≤ b.size := by
    by_contra hsmall
    have hparse : parse b loadBase = .error (.outside 0 64) := if_neg hsmall
    rw [loadImage, hparse] at h
    cases h
  have hcomputes := loadImage_computes (b := b) loadBase (fun _ => true) hsize
  have hvalue := (hcomputes.ok (hcomputes.isOk_iff.mp ⟨_, h⟩)).symm.trans h
  by_cases hvalid : b.header.Valid
  · rw [if_pos hvalid, segmentsBefore_eq] at hvalue
    simp only [Except.ok.injEq, Prod.mk.injEq, Option.some.injEq] at hvalue
    rw [← hvalue.2, loadableHeaders, List.map_map]
    rfl
  · rw [if_neg hvalid] at hvalue
    cases hvalue

end Cryptix.ELF

namespace Cryptix.Scheduler

open Memory Prism Lib FrameLedger

/-- What a process reads at an address. -/
def readThrough (m : Machine) (s : FrameLedger × UserSpace) (address : ℕ) : Option UInt8 :=
  (Kernel.translate m s.2 address).map s.1.byte

namespace Segment

variable (loadBase : ℕ) (s : Segment)

/-- The address of the first byte of a loaded segment. -/
def start : ℕ := s.virtualAddress + loadBase

/-- The addresses of its bytes. -/
def range : Set ℕ := Set.Ico (s.start loadBase) (s.start loadBase + s.memorySize)

/-- The pages that are mapped for it. -/
def MapsPage (page : ℕ) : Prop :=
  s.start loadBase / PMM.pageSize ≤ page ∧ page < s.start loadBase / PMM.pageSize + s.pageCount

instance (page : ℕ) : Decidable (s.MapsPage loadBase page) :=
  inferInstanceAs (Decidable (_ ∧ _))

/-- What its pages hold at an address: the bytes of the file, and zeros around them. -/
def content (address : ℕ) : UInt8 :=
  if s.start loadBase ≤ address then s.data.getD (address - s.start loadBase) 0 else 0

/-- The segment ends below the addresses that the page tables translate. -/
def Placed (m : Machine) : Prop := s.start loadBase + s.memorySize ≤ LeafTable.span m.paging

/-- What `LoadImage` has read of a segment from the image. -/
def loaded : ELF.Loaded := ⟨s.virtualAddress, s.memorySize, s.data⟩

/-- A segment whose bytes on the pages of a later one are zeros. -/
def YieldsZeros (later : Segment) : Prop :=
  ∀ (k : ℕ) (h : k < s.data.length),
    later.MapsPage loadBase ((s.start loadBase + k) / PMM.pageSize) → s.data[k] = 0

end Segment

/-! ## Mapping without wrapping around -/

section Mapping

variable {cfg : Paging} {t : LeafTable} {virt phys count e : ℕ}

theorem span_le (cfg : Paging) : LeafTable.size cfg * PMM.pageSize < wordCount := by
  unfold LeafTable.size
  cases cfg.mode
  · decide
  · decide

/-- `MapRange` below the top of the tables, from an address anywhere in its page. -/
theorem mapPages_apply (hvirt : virt / PMM.pageSize + count ≤ LeafTable.size cfg)
    (hphys : phys + count * PMM.pageSize ≤ wordCount) :
    t.mapPages cfg virt phys count e =
      if virt / PMM.pageSize ≤ e ∧ e < virt / PMM.pageSize + count then
        some (phys + (e - virt / PMM.pageSize) * PMM.pageSize)
      else t e := by
  have hspan := span_le cfg
  have hpage : PMM.pageSize = 4096 := rfl
  obtain ⟨base, hbase⟩ : ∃ base, virt / PMM.pageSize = base := ⟨_, rfl⟩
  rw [hbase] at hvirt ⊢
  induction count with
  | zero =>
    rw [if_neg (by omega)]
    rfl
  | succ n ih =>
    have hoffset : virt + n * PMM.pageSize < wordCount := by
      rw [hpage] at hbase hspan ⊢
      omega
    have hphysical : phys + n * PMM.pageSize < wordCount := by
      rw [hpage] at hphys ⊢
      omega
    have hindex : LeafTable.index cfg (offset virt (n * PMM.pageSize)) = base + n := by
      rw [offset_of_lt hoffset, LeafTable.index, Nat.add_mul_div_right _ _ (by decide), hbase,
        Nat.mod_eq_of_lt (by omega)]
    rw [LeafTable.mapPages_succ, hindex, Function.update_apply, offset_of_lt hphysical,
      ih hphysical.le (by omega)]
    by_cases hlast : e = base + n
    · rw [if_pos hlast, if_pos (by omega), hlast, Nat.add_sub_cancel_left]
    · rw [if_neg hlast]
      by_cases hin : base ≤ e ∧ e < base + n
      · rw [if_pos hin, if_pos (by omega)]
      · rw [if_neg hin, if_neg (by omega)]

end Mapping

/-! ## One segment -/

section Load

variable {m : Machine} {usable : ℕ → Prop} {f : FrameLedger} {user : UserSpace}
  {s s' : FrameLedger × UserSpace} {loadBase : ℕ} {segment : Segment}

/-- The pages of a placed segment lie below the top of the tables. -/
theorem Segment.Placed.pages_le (h : segment.Placed loadBase m) (hbase : PMM.pageSize ∣ loadBase)
    (hcount : 0 < segment.pageCount) :
    segment.start loadBase / PMM.pageSize + segment.pageCount ≤ LeafTable.size m.paging := by
  obtain ⟨base, rfl⟩ := hbase
  simp only [Segment.Placed, Segment.start, LeafTable.span, Segment.pageCount, divRoundUp,
    PMM.pageSize] at h hcount ⊢
  omega

/-- A block from `CallocatePages` holds zeros. -/
theorem callocatePages_zero (haccounted : FramePool.Accounted usable f.pool) {count a : ℕ}
    (hpage : (f.callocatePages count).1 ≠ 0) (hlo : (f.callocatePages count).1 ≤ a)
    (hhi : a < (f.callocatePages count).1 + count * PMM.pageSize) :
    (f.callocatePages count).2.byte a = 0 := by
  unfold FrameLedger.callocatePages at hpage hlo hhi ⊢
  rcases PhysicalMemory.callocatePages_spec haccounted.wf count with
    ⟨first, m', -, hcall, -, hbytes⟩ | ⟨m', hcall, -⟩
  · rw [show f.physical.callocatePages count = _ from hcall] at hlo hhi ⊢
    simp only at hlo hhi
    refine (congrFun hbytes a).trans (if_pos ⟨hlo, ?_⟩)
    rwa [Nat.mul_comm PMM.pageSize count]
  · rw [show f.physical.callocatePages count = _ from hcall] at hpage
    exact absurd rfl hpage

theorem byte_store (dst : ℕ) (data : List UInt8) (a : ℕ) :
    (f.store dst data).byte a =
      if dst ≤ a ∧ a < dst + data.length then data.getD (a - dst) 0 else f.byte a := rfl

theorem readThrough_of_page {s : FrameLedger × UserSpace} {a p : ℕ}
    (hlt : a / PMM.pageSize < LeafTable.size m.paging)
    (hpage : s.2.pageTable (a / PMM.pageSize) = some p) :
    readThrough m s a = some (s.1.byte (p + a % PMM.pageSize)) := by
  unfold readThrough Kernel.translate LeafTable.index
  rw [Nat.mod_eq_of_lt hlt, hpage, Option.map_some, Option.map_some]

/-- What loading a segment does: a new block with its content, mapped over its pages. -/
structure Loads (usable : ℕ → Prop) (m : Machine) (loadBase : ℕ) (segment : Segment)
    (s s' : FrameLedger × UserSpace) : Prop where
  extended : Extends usable s.1 s'.1
  shown : ∀ a, segment.MapsPage loadBase (a / PMM.pageSize) →
    readThrough m s' a = some (segment.content loadBase a)
  held : ∀ page, segment.MapsPage loadBase page → ∃ p, s'.2.pageTable page = some p ∧ Held s'.1 p
  others : ∀ page, ¬segment.MapsPage loadBase page →
    s'.2.pageTable page = s.2.pageTable page

/-- The pages of a segment hold its bytes. -/
theorem Segment.memorySize_le (segment : Segment) :
    segment.virtualAddress % PMM.pageSize + segment.memorySize ≤
      segment.pageCount * PMM.pageSize := by
  simp only [Segment.pageCount, divRoundUp, PMM.pageSize]
  omega

theorem Segment.load_of_null (h : (s.1.callocatePages segment.pageCount).1 = 0) :
    segment.load m loadBase s = none :=
  if_pos h

theorem Segment.load_of_ne_null (h : (s.1.callocatePages segment.pageCount).1 ≠ 0) :
    segment.load m loadBase s =
      some ((s.1.callocatePages segment.pageCount).2.store
          ((s.1.callocatePages segment.pageCount).1 + segment.virtualAddress % PMM.pageSize)
          segment.data,
        { addressSpace := s.2.addressSpace.insert (offset segment.virtualAddress loadBase)
            ⟨offset segment.virtualAddress loadBase, segment.pageCount * PMM.pageSize,
              (s.1.callocatePages segment.pageCount).1, readWriteExecuteUser⟩
          pageTable := s.2.pageTable.mapRange m.paging (offset segment.virtualAddress loadBase)
            (s.1.callocatePages segment.pageCount).1 (segment.pageCount * PMM.pageSize) }) :=
  if_neg h

/-- A segment that is loaded gets a new block. -/
theorem Segment.load_eq_some (haccounted : FramePool.Accounted usable f.pool)
    (hload : segment.load m loadBase (f, user) = some s') :
    ∃ phys f', Hands usable f f' phys segment.pageCount ∧
      (∀ a, phys ≤ a → a < phys + segment.pageCount * PMM.pageSize → f'.byte a = 0) ∧
      s' = (f'.store (phys + segment.virtualAddress % PMM.pageSize) segment.data,
        { addressSpace := user.addressSpace.insert (offset segment.virtualAddress loadBase)
            ⟨offset segment.virtualAddress loadBase, segment.pageCount * PMM.pageSize, phys,
              readWriteExecuteUser⟩
          pageTable := user.pageTable.mapRange m.paging (offset segment.virtualAddress loadBase)
            phys (segment.pageCount * PMM.pageSize) }) := by
  by_cases hzero : (f.callocatePages segment.pageCount).1 = 0
  · rw [Segment.load_of_null hzero] at hload
    cases hload
  · rw [Segment.load_of_ne_null hzero] at hload
    rcases callocatePages_spec haccounted segment.pageCount with hhands | ⟨h0, -⟩
    · exact ⟨_, _, hhands, fun a => callocatePages_zero haccounted hzero,
        (Option.some.inj hload).symm⟩
    · exact absurd h0 hzero

theorem Segment.load_spec (haccounted : FramePool.Accounted usable f.pool)
    (hbase : PMM.pageSize ∣ loadBase) (hplaced : segment.Placed loadBase m)
    (hload : segment.load m loadBase (f, user) = some s') :
    Loads usable m loadBase segment (f, user) s' := by
  obtain ⟨phys, f', hhands, hbytes, rfl⟩ := Segment.load_eq_some haccounted hload
  obtain ⟨first, -, hphys, hcount, hfit⟩ := hhands.bounds
  have hsize := segment.memorySize_le
  have hdata := segment.data_le
  have hpages := hplaced.pages_le hbase hcount
  have hvirt : offset segment.virtualAddress loadBase = segment.start loadBase := by
    refine offset_of_lt (Nat.lt_of_le_of_lt ?_ (span_le m.paging))
    exact (Nat.le_add_right _ segment.memorySize).trans hplaced
  have hturns : divRoundUp (segment.pageCount * PMM.pageSize) PMM.pageSize =
      segment.pageCount := by
    simp only [divRoundUp, PMM.pageSize]
    omega
  have hblock : phys + segment.pageCount * PMM.pageSize ≤ wordCount := by
    rw [hphys, ← Nat.add_mul]
    exact hfit.le
  have htable : ∀ page,
      user.pageTable.mapRange m.paging (offset segment.virtualAddress loadBase) phys
        (segment.pageCount * PMM.pageSize) page =
      if segment.MapsPage loadBase page then
        some (phys + (page - segment.start loadBase / PMM.pageSize) * PMM.pageSize)
      else user.pageTable page := fun page => by
    rw [LeafTable.mapRange, hturns, hvirt]
    exact mapPages_apply hpages hblock
  have hmisalign : segment.start loadBase % PMM.pageSize =
      segment.virtualAddress % PMM.pageSize := by
    obtain ⟨base, rfl⟩ := hbase
    rw [Segment.start, Nat.add_mul_mod_self_left]
  have hstored := hhands.store (phys + segment.virtualAddress % PMM.pageSize) segment.data
    (by omega) (by omega)
  refine ⟨hstored.toExtends, fun a ha => ?_, fun page hpage => ?_, fun page hout => ?_⟩
  · have hlt : a / PMM.pageSize < LeafTable.size m.paging := by
      have := ha.2
      omega
    refine (readThrough_of_page hlt ((htable _).trans (if_pos ha))).trans (congrArg some ?_)
    -- the byte at `a` lies as far behind the start of the block as `a` behind the first page
    obtain ⟨d, hd⟩ : ∃ d, a = segment.start loadBase / PMM.pageSize * PMM.pageSize + d :=
      Nat.exists_eq_add_of_le ((Nat.mul_le_mul_right _ ha.1).trans (Nat.div_mul_le_self _ _))
    have hplace : phys + (a / PMM.pageSize - segment.start loadBase / PMM.pageSize) * PMM.pageSize +
        a % PMM.pageSize = phys + d := by
      have hlo := ha.1
      simp only [PMM.pageSize] at hd hlo ⊢
      omega
    have hin : d < segment.pageCount * PMM.pageSize := by
      have hhi := ha.2
      simp only [PMM.pageSize] at hd hhi ⊢
      omega
    have hstart : segment.start loadBase = segment.start loadBase / PMM.pageSize * PMM.pageSize +
        segment.virtualAddress % PMM.pageSize := by
      rw [← hmisalign, Nat.div_add_mod']
    rw [hplace, byte_store, Segment.content]
    by_cases hdata : phys + segment.virtualAddress % PMM.pageSize ≤ phys + d ∧
        phys + d < phys + segment.virtualAddress % PMM.pageSize + segment.data.length
    · rw [if_pos hdata, if_pos (by omega)]
      congr 1
      omega
    · rw [if_neg hdata, hbytes _ (by omega) (by omega)]
      by_cases hbehind : segment.start loadBase ≤ a
      · rw [if_pos hbehind, List.getD_eq_default _ _ (by omega)]
      · rw [if_neg hbehind]
  · refine ⟨_, (htable page).trans (if_pos hpage), ?_⟩
    have hi : page - segment.start loadBase / PMM.pageSize < segment.pageCount := by
      have := hpage.1
      have := hpage.2
      omega
    have hheld := held_of_new (hstored.new hi)
    rwa [offset_of_lt] at hheld
    rw [hphys, ← Nat.add_mul]
    exact (Nat.mul_le_mul_right _ (by omega)).trans_lt hfit
  · exact (htable page).trans (if_neg hout)

/-- The pages of a placed segment are pages of the tables. -/
theorem Segment.Placed.page_lt (h : segment.Placed loadBase m) (hbase : PMM.pageSize ∣ loadBase)
    {page : ℕ} (hpage : segment.MapsPage loadBase page) : page < LeafTable.size m.paging := by
  obtain ⟨hlo, hhi⟩ := hpage
  have := h.pages_le hbase (by omega)
  omega

/-- The bytes of a segment are on its pages. -/
theorem Segment.mapsPage_of_lt (hbase : PMM.pageSize ∣ loadBase) {k : ℕ}
    (hk : k < segment.memorySize) :
    segment.MapsPage loadBase ((segment.start loadBase + k) / PMM.pageSize) := by
  obtain ⟨base, rfl⟩ := hbase
  simp only [Segment.MapsPage, Segment.start, Segment.pageCount, divRoundUp, PMM.pageSize]
  omega

theorem Segment.content_start_add (segment : Segment) (loadBase k : ℕ) :
    segment.content loadBase (segment.start loadBase + k) = segment.data.getD k 0 := by
  rw [Segment.content, if_pos (Nat.le_add_right _ _), Nat.add_sub_cancel_left]

theorem Segment.content_of_not_mem {a : ℕ} (h : a ∉ segment.range loadBase) :
    segment.content loadBase a = 0 := by
  have hdata := segment.data_le
  rw [Segment.content]
  by_cases hlo : segment.start loadBase ≤ a
  · have hhi : ¬a < segment.start loadBase + segment.memorySize := fun hhi => h ⟨hlo, hhi⟩
    rw [if_pos hlo, List.getD_eq_default _ _ (by omega)]
  · rw [if_neg hlo]

end Load

/-! ## All segments -/

/-- What is at an address when segments have been loaded one after the other: the last of them that
has its page has put it there. -/
def lastContent (loadBase : ℕ) : List Segment → ℕ → Option UInt8
  | [], _ => none
  | segment :: segments, a =>
    (lastContent loadBase segments a).or
      (if segment.MapsPage loadBase (a / PMM.pageSize) then some (segment.content loadBase a)
      else none)

section LoadAll

variable {m : Machine} {usable : ℕ → Prop} {loadBase a : ℕ} {segments : List Segment}
  {s s' : FrameLedger × UserSpace}

theorem lastContent_eq_none_iff : lastContent loadBase segments a = none ↔
    ∀ segment ∈ segments, ¬segment.MapsPage loadBase (a / PMM.pageSize) := by
  induction segments with
  | nil => exact iff_of_true rfl fun _ hmem => absurd hmem List.not_mem_nil
  | cons segment segments ih =>
    rw [lastContent, Option.or_eq_none_iff, List.forall_mem_cons, ih, and_comm]
    refine and_congr_left fun _ => ?_
    by_cases hpage : segment.MapsPage loadBase (a / PMM.pageSize)
    · rw [if_pos hpage]
      exact iff_of_false nofun (not_not.mpr hpage)
    · rw [if_neg hpage]
      exact iff_of_true rfl hpage

theorem isSome_lastContent {segment : Segment} (hmem : segment ∈ segments)
    (hpage : segment.MapsPage loadBase (a / PMM.pageSize)) :
    (lastContent loadBase segments a).isSome := by
  rw [Option.isSome_iff_ne_none]
  exact fun hnone => lastContent_eq_none_iff.mp hnone segment hmem hpage

/-- Outside the segments the pages hold zeros. -/
theorem lastContent_of_not_mem (h : ∀ segment ∈ segments, a ∉ segment.range loadBase) {b : UInt8}
    (hb : lastContent loadBase segments a = some b) : b = 0 := by
  induction segments with
  | nil => cases hb
  | cons segment segments ih =>
    rw [lastContent, Option.or_eq_some_iff] at hb
    rcases hb with hb | ⟨-, hb⟩
    · exact ih (fun later hmem => h later (List.mem_cons_of_mem _ hmem)) hb
    · rw [← Segment.content_of_not_mem (h segment List.mem_cons_self)]
      split at hb
      · exact (Option.some.inj hb).symm
      · cases hb

/-- The loop over the segments in `LoadImage`. -/
theorem loadSegments_spec (haccounted : FramePool.Accounted usable s.1.pool)
    (hbase : PMM.pageSize ∣ loadBase) (hplaced : ∀ segment ∈ segments, segment.Placed loadBase m)
    (hrun : segments.foldlM (Segment.load m loadBase) s = some s') :
    Extends usable s.1 s'.1 ∧
    (∀ a b, lastContent loadBase segments a = some b → readThrough m s' a = some b) ∧
    ∀ page, (∀ segment ∈ segments, ¬segment.MapsPage loadBase page) →
      s'.2.pageTable page = s.2.pageTable page := by
  induction segments generalizing s with
  | nil =>
    obtain rfl : s = s' := by simpa using hrun
    exact ⟨.refl haccounted, fun _ _ hb => absurd hb nofun, fun _ _ => rfl⟩
  | cons segment segments ih =>
    rw [List.foldlM_cons, Option.bind_eq_bind, Option.bind_eq_some_iff] at hrun
    obtain ⟨s₁, hload, hrest⟩ := hrun
    have hsegment := hplaced segment List.mem_cons_self
    have hloads := Segment.load_spec haccounted hbase hsegment hload
    obtain ⟨hext, hshown, hothers⟩ := ih hloads.extended.accounted
      (fun segment hmem => hplaced segment (List.mem_cons_of_mem _ hmem)) hrest
    refine ⟨hloads.extended.trans hext, fun a b hb => ?_, fun page hpage => ?_⟩
    · rw [lastContent] at hb
      cases hlast : lastContent loadBase segments a with
      | some last =>
        rw [hlast] at hb
        exact hshown a b (hlast.trans hb)
      | none =>
        -- no later segment has the page: its frame is still mapped, and nobody writes to it
        rw [hlast] at hb
        obtain ⟨hpage, rfl⟩ : segment.MapsPage loadBase (a / PMM.pageSize) ∧
            segment.content loadBase a = b := by simpa using hb
        obtain ⟨p, hp, hheld⟩ := hloads.held _ hpage
        have hlt := hsegment.page_lt hbase hpage
        have hp' := (hothers _ (lastContent_eq_none_iff.mp hlast)).trans hp
        rw [readThrough_of_page hlt hp', hheld.byte_eq hext (Nat.mod_lt _ (by decide)),
          ← readThrough_of_page hlt hp, hloads.shown a hpage]
    · rw [hothers page fun segment hmem => hpage segment (List.mem_cons_of_mem _ hmem)]
      exact hloads.others page (hpage segment List.mem_cons_self)

/-- The segments are loaded if and only if there is memory for all of them. -/
theorem loadSegments_completes_iff :
    (∃ s', segments.foldlM (Segment.load m loadBase) s = some s') ↔
      serves s.1.physical.allocator (segments.map Segment.pageCount) = true := by
  induction segments generalizing s with
  | nil => exact iff_of_true ⟨s, rfl⟩ rfl
  | cons segment segments ih =>
    obtain ⟨hpage, hallocator⟩ := s.1.callocatePages_eq_allocatePages segment.pageCount
    rw [List.map_cons, serves, Bool.and_eq_true, bne_iff_ne, ← hpage, ← hallocator,
      List.foldlM_cons]
    by_cases hzero : (s.1.callocatePages segment.pageCount).1 = 0
    · refine iff_of_false ?_ fun h => h.1 hzero
      rw [Segment.load_of_null hzero]
      rintro ⟨s', h⟩
      cases h
    · rw [Segment.load_of_ne_null hzero]
      exact ih.trans (and_iff_right hzero).symm

/-- The last content of the bytes of every segment is that of the file if and only if no segment
loses bytes to a later one. -/
theorem lastContent_eq_data_iff (hbase : PMM.pageSize ∣ loadBase)
    (hdisjoint : segments.Pairwise fun s t => Disjoint (s.range loadBase) (t.range loadBase)) :
    (∀ segment ∈ segments, ∀ k < segment.memorySize,
      lastContent loadBase segments (segment.start loadBase + k) =
        some (segment.data.getD k 0)) ↔
      segments.Pairwise (Segment.YieldsZeros loadBase) := by
  induction segments with
  | nil => exact iff_of_true (fun _ hmem => absurd hmem List.not_mem_nil) .nil
  | cons segment segments ih =>
    obtain ⟨hapart, hdisjoint⟩ := List.pairwise_cons.mp hdisjoint
    rw [List.forall_mem_cons, List.pairwise_cons, ← ih hdisjoint]
    have houtside : ∀ k < segment.memorySize, ∀ later ∈ segments,
        segment.start loadBase + k ∉ later.range loadBase := fun k hk later hmem =>
      Set.disjoint_left.mp (hapart later hmem)
        ⟨Nat.le_add_right _ _, Nat.add_lt_add_left hk _⟩
    refine and_congr ?_ (forall₂_congr fun later hmem => forall₂_congr fun k hk => ?_)
    · constructor
      · intro hall later hmem k hk hpage
        have hsome := isSome_lastContent hmem hpage
        obtain ⟨b, hb⟩ := Option.isSome_iff_exists.mp hsome
        have hlast := hall k (hk.trans_le segment.data_le)
        rw [lastContent, hb, Option.some_or, List.getD_eq_getElem _ _ hk] at hlast
        rw [← Option.some.inj hlast]
        exact lastContent_of_not_mem (houtside k (hk.trans_le segment.data_le)) hb
      · intro hyields k hk
        rw [lastContent, if_pos (segment.mapsPage_of_lt hbase hk), segment.content_start_add]
        cases hlast : lastContent loadBase segments (segment.start loadBase + k) with
        | none => rw [Option.none_or]
        | some b =>
          -- some later segment has the page, and holds a zero there
          rw [Option.some_or, lastContent_of_not_mem (houtside k hk) hlast]
          refine congrArg some ?_
          by_cases hdata : k < segment.data.length
          · obtain ⟨later, hmem, hpage⟩ : ∃ later ∈ segments, later.MapsPage loadBase
                ((segment.start loadBase + k) / PMM.pageSize) := by
              by_contra! hnone
              rw [lastContent_eq_none_iff.mpr hnone] at hlast
              cases hlast
            rw [List.getD_eq_getElem _ _ hdata, hyields later hmem k hdata hpage]
          · rw [List.getD_eq_default _ _ (by omega)]
    · -- a byte of a later segment is on a page that some later segment has
      have hsome := isSome_lastContent hmem (later.mapsPage_of_lt hbase hk)
      obtain ⟨b, hb⟩ := Option.isSome_iff_exists.mp hsome
      rw [lastContent, hb, Option.some_or]

end LoadAll

/-! ## The file -/

/-- Every byte of every loadable segment, read through the page map, is that of the file, or zero
behind the part of the segment that the file has. -/
def ShowsFile (m : Machine) (b : ELF.Buffer) (loadBase : ℕ) (s : FrameLedger × UserSpace) : Prop :=
  ∀ header ∈ ELF.loadableHeaders b, ∀ k < ELF.ProgramHeader.segmentSizeInMemory.get b header,
    readThrough m s (ELF.ProgramHeader.virtualAddress.get b header + loadBase + k) =
      some (if k < ELF.ProgramHeader.segmentSizeInFile.get b header then
        b.bytes (ELF.ProgramHeader.fileOffset.get b header + k) else 0)

/-- `LoadImage` reads these segments from a well-formed executable: no part of the file is larger
than its segment, the segments end below the addresses that the page tables translate, and no two
of them have a byte in common. -/
structure WellFormed (m : Machine) (b : ELF.Buffer) (loadBase : ℕ) (segments : List Segment) :
    Prop where
  read : ∃ image, ELF.loadImage b loadBase (fun _ => true) =
    .ok (.ok (image, some (segments.map Segment.loaded)))
  placed : ∀ segment ∈ segments, segment.Placed loadBase m
  disjoint : segments.Pairwise fun s t => Disjoint (s.range loadBase) (t.range loadBase)

section File

variable {m : Machine} {usable : ℕ → Prop} {b : ELF.Buffer} {loadBase : ℕ}
  {segments : List Segment} {s s' : FrameLedger × UserSpace}

/-- What the file says about the segments. -/
theorem WellFormed.showsFile_iff (h : WellFormed m b loadBase segments) :
    ShowsFile m b loadBase s ↔ ∀ segment ∈ segments, ∀ k < segment.memorySize,
      readThrough m s (segment.start loadBase + k) = some (segment.data.getD k 0) := by
  obtain ⟨image, hread⟩ := h.read
  have hloaded : segments.map Segment.loaded = (ELF.loadableHeaders b).map (ELF.loadedSegment b) :=
    ELF.loaded_of_loadImage hread
  have hsegments : (∀ segment ∈ segments, ∀ k < segment.memorySize,
      readThrough m s (segment.start loadBase + k) = some (segment.data.getD k 0)) ↔
      ∀ l ∈ segments.map Segment.loaded, ∀ k < l.memorySize,
        readThrough m s (l.virtualAddress + loadBase + k) = some (l.data.getD k 0) := by
    rw [List.forall_mem_map]
    rfl
  rw [hsegments, hloaded, List.forall_mem_map]
  refine forall₂_congr fun header _ => forall₂_congr fun k _ => ?_
  rw [ELF.loadedSegment, ELF.Buffer.getD_slice]

/-- The segments that have been loaded are there unless one loses bytes to a later one. -/
theorem WellFormed.showsFile_iff_yieldsZeros (h : WellFormed m b loadBase segments)
    (haccounted : FramePool.Accounted usable s.1.pool) (hbase : PMM.pageSize ∣ loadBase)
    (hrun : segments.foldlM (Segment.load m loadBase) s = some s') :
    ShowsFile m b loadBase s' ↔ segments.Pairwise (Segment.YieldsZeros loadBase) := by
  obtain ⟨-, hshown, -⟩ := loadSegments_spec haccounted hbase h.placed hrun
  rw [h.showsFile_iff, ← lastContent_eq_data_iff hbase h.disjoint]
  refine forall₂_congr fun segment hmem => forall₂_congr fun k hk => ?_
  obtain ⟨b, hb⟩ := Option.isSome_iff_exists.mp
    (isSome_lastContent hmem (segment.mapsPage_of_lt hbase hk))
  rw [hb, hshown _ b hb]

/-- `LoadImage` finishes and leaves the segments in memory as the file has them exactly if there is
memory for each of them and no nonzero byte of one lies on a page that a later one gets. -/
theorem loadImage_shows_file_iff (h : WellFormed m b loadBase segments)
    (haccounted : FramePool.Accounted usable s.1.pool) (hbase : PMM.pageSize ∣ loadBase) :
    (∃ s', segments.foldlM (Segment.load m loadBase) s = some s' ∧ ShowsFile m b loadBase s') ↔
      serves s.1.physical.allocator (segments.map Segment.pageCount) = true ∧
        segments.Pairwise (Segment.YieldsZeros loadBase) := by
  rw [← @loadSegments_completes_iff m loadBase]
  constructor
  · rintro ⟨s', hrun, hshows⟩
    exact ⟨⟨s', hrun⟩, (h.showsFile_iff_yieldsZeros haccounted hbase hrun).mp hshows⟩
  · rintro ⟨⟨s', hrun⟩, hyields⟩
    exact ⟨s', hrun, (h.showsFile_iff_yieldsZeros haccounted hbase hrun).mpr hyields⟩

end File

/-- An executable of two segments with one byte each, the first at 0x1000 and the second at 0x1800
or 0x2000. -/
def twoBytes (page : UInt8) : ELF.Buffer where
  bytes i := (([(0, 0x7f), (1, 0x45), (2, 0x4c), (3, 0x46), (4, 2), (5, 1), (6, 1), (18, 0x3e),
    (20, 1), (32, 64), (54, 56), (56, 2),
    (64, 1), (72, 176), (81, 0x10), (96, 1), (104, 1),
    (120, 1), (128, 177), (137, page), (152, 1), (160, 1),
    (176, 0x2a), (177, 0x2b)] : List (ℕ × UInt8)).lookup i).getD 0
  size := 278
  raw := 0x1000
  raw_pos := PMM.pageSize_pos
  raw_add_size_lt := by decide

/-- The segments of that executable. -/
def twoByteSegments (address : ℕ) : List Segment :=
  [⟨0x1000, 1, [0x2a], by decide, by decide⟩, ⟨address, 1, [0x2b], by decide, by decide⟩]

theorem wellFormed_twoBytes {page : UInt8} {address : ℕ} (h : address < 0x10000)
    (hbehind : 0x1000 < address) (hread : ∃ image, ELF.loadImage (twoBytes page) 0 (fun _ => true) =
      .ok (.ok (image, some ((twoByteSegments address).map Segment.loaded)))) :
    WellFormed Kernel.smallMachine (twoBytes page) 0 (twoByteSegments address) := by
  have hspan : LeafTable.span Kernel.smallMachine.paging = 2 ^ 48 := by decide
  refine ⟨hread, fun segment hmem => ?_, List.pairwise_pair.mpr ?_⟩
  · rw [Segment.Placed, hspan]
    rcases List.mem_pair.mp hmem with rfl | rfl
    · decide
    · change address + 0 + 1 ≤ 2 ^ 48
      omega
  · refine Set.disjoint_left.mpr fun a hfirst hsecond => ?_
    have hhi : a < 0x1000 + 0 + 1 := hfirst.2
    have hlo : address + 0 ≤ a := hsecond.1
    omega

/-- A process without memory of its own. -/
def bareProcess : FrameLedger × UserSpace :=
  (⟨⟨Kernel.smallMemoryAllocator, fun _ => 0⟩, []⟩, ⟨.withBase 0x140000000, fun _ => none⟩)

theorem accounted_bareProcess :
    FramePool.Accounted (MemoryMap.UsableFrame Kernel.smallMemory) bareProcess.1.pool :=
  BitmapAllocator.accounted_initializeWith Kernel.usableAligned_smallMemory
    Kernel.initializeWith_smallMemory

/-- There is memory for two pages. -/
theorem serves_twoByteSegments {address : ℕ}
    (h : (twoByteSegments address).map Segment.pageCount = [1, 1]) :
    serves bareProcess.1.physical.allocator
      ((twoByteSegments address).map Segment.pageCount) = true := by
  rw [h]
  decide +kernel

/-- On pages of their own both bytes are there. -/
theorem loadImage_shows_file_apart : ∃ s',
    (twoByteSegments 0x2000).foldlM (Segment.load Kernel.smallMachine 0) bareProcess =
      some s' ∧ ShowsFile Kernel.smallMachine (twoBytes 0x20) 0 s' := by
  have hwell : WellFormed Kernel.smallMachine (twoBytes 0x20) 0 (twoByteSegments 0x2000) :=
    wellFormed_twoBytes (by decide) (by decide) ⟨_, rfl⟩
  refine (loadImage_shows_file_iff hwell accounted_bareProcess (by decide)).mpr
    ⟨serves_twoByteSegments (by decide), List.pairwise_pair.mpr ?_⟩
  intro k hk hpage
  obtain rfl : k = 0 := Nat.lt_one_iff.mp hk
  exact absurd hpage (by decide)

/-- On a page that they share, the first is lost. -/
theorem not_loadImage_shows_file : ¬∀ (usable : ℕ → Prop) (m : Machine) (b : ELF.Buffer)
    (loadBase : ℕ) (segments : List Segment) (s s' : FrameLedger × UserSpace),
    WellFormed m b loadBase segments → FramePool.Accounted usable s.1.pool →
      PMM.pageSize ∣ loadBase → segments.foldlM (Segment.load m loadBase) s = some s' →
        ShowsFile m b loadBase s' := by
  intro hall
  have hwell : WellFormed Kernel.smallMachine (twoBytes 0x18) 0 (twoByteSegments 0x1800) :=
    wellFormed_twoBytes (by decide) (by decide) ⟨_, rfl⟩
  obtain ⟨s', hrun⟩ : ∃ s', (twoByteSegments 0x1800).foldlM
      (Segment.load Kernel.smallMachine 0) bareProcess = some s' :=
    loadSegments_completes_iff.mpr (serves_twoByteSegments (by decide))
  have hshows := hall _ _ _ _ _ bareProcess s' hwell accounted_bareProcess (by decide) hrun
  have hyields := (hwell.showsFile_iff_yieldsZeros accounted_bareProcess (by decide) hrun).mp hshows
  have hzero : (0x2a : UInt8) = 0 := List.pairwise_pair.mp hyields 0 (by decide) (by decide)
  exact absurd hzero (by decide)

end Cryptix.Scheduler
