import Mathlib.Data.Set.Lattice
import Mathlib.Order.CompletePartialOrder
import Mathlib.Order.Interval.Set.Disjoint
import Cryptix.Lib.Transition
import Cryptix.Prism

/-!
# The page frame allocator

`Kernel/Memory/Allocator/BitmapAllocator.cpp`: one bit a page frame, set when the frame is not
free. `AllocatePages` is next fit. It searches from a cursor that survives between calls, and when
that fails it wraps around and searches again from frame 0 up to where the first search began.

Address 0 is both frame 0 and the null pointer, so the allocator is only right as long as the bit
of frame 0 stays set. That is part of `Wf`, which `initializeWith` establishes and every call keeps.
-/

namespace Cryptix.Memory

open Prism Lib

/-- `PMM::PAGE_SIZE`. -/
def PMM.pageSize : ℕ := 0x1000

theorem PMM.pageSize_pos : 0 < PMM.pageSize := by decide

/-- `MemoryZoneType`. -/
inductive MemoryZoneType
  | usable
  | reserved
  | acpiReclaimable
  | acpiNvs
  | badMemory
  | bootloaderReclaimable
  | kernelAndModules
  | framebuffer
  deriving DecidableEq, Repr

/-- `MemoryZone`: a range of the 64-bit physical address space, which does not wrap around. -/
structure MemoryZone where
  base : ℕ
  length : ℕ
  type : MemoryZoneType
  top_lt : base + length < wordCount
  deriving DecidableEq

/-- `MemoryMap`: the entries the boot loader reports. -/
abbrev MemoryMap := List MemoryZone

/-- `BitmapAllocator`, together with the static `lastIndex` of `AllocatePages`. -/
structure BitmapAllocator where
  pageBitmap : Bitmap
  memoryTop : ℕ
  usableMemoryTop : ℕ
  pageSize : ℕ
  usableMemorySize : ℕ
  totalMemory : ℕ
  usedMemory : ℕ
  lastIndex : ℕ
  deriving DecidableEq

namespace BitmapAllocator

/-! ## Initialize -/

/-- One turn of the first loop of `Initialize`: the counters after one memory map entry. -/
def accountZone (a : BitmapAllocator) (entry : MemoryZone) : BitmapAllocator :=
  let top := offset entry.base entry.length
  let a := { a with memoryTop := max a.memoryTop top }
  match entry.type with
  | .usable =>
    { a with
      usableMemorySize := offset a.usableMemorySize entry.length
      usableMemoryTop := max a.usableMemoryTop top
      totalMemory := offset a.totalMemory entry.length }
  | .acpiReclaimable | .bootloaderReclaimable | .kernelAndModules =>
    { a with
      usedMemory := offset a.usedMemory entry.length
      totalMemory := offset a.totalMemory entry.length }
  | _ => a

/-- Where the second loop of `Initialize` starts in an entry: a zone at address 0 loses its first
4096 bytes, so that frame 0 is never handed out. -/
def firstPage (entry : MemoryZone) : ℕ := if entry.base = 0 then 4096 else 0

/-- One turn of the second loop of `Initialize`: the frames of a usable entry become free. -/
def clearZone (pageSize : ℕ) (bitmap : Bitmap) (entry : MemoryZone) : Bitmap :=
  if entry.type ≠ .usable then bitmap
  else
    (List.range' (firstPage entry)
        (divRoundUp (entry.length - firstPage entry) pageSize) pageSize).foldl
      (fun bitmap page => bitmap.setIndex ((entry.base + page) / pageSize) false) bitmap

/-- The allocator before `Initialize`. -/
def uninitialized (pageSize : ℕ) : BitmapAllocator :=
  { pageBitmap := ⟨#[]⟩, memoryTop := 0, usableMemoryTop := 0, pageSize := pageSize,
    usableMemorySize := 0, totalMemory := 0, usedMemory := 0, lastIndex := 0 }

/-- `BitmapAllocator::Initialize`. -/
def initializeWith (memoryMap : MemoryMap) (pageSize : ℕ) : Except Failure BitmapAllocator :=
  if !isPowerOfTwo pageSize then .error (.errno .EINVAL)
  else
    let a := memoryMap.foldl accountZone (uninitialized pageSize)
    if a.memoryTop = 0 then .error (.errno .ENOMEM)
    else
      let bitmap := Bitmap.allocateSet (a.usableMemoryTop / pageSize)
      if bitmap.size = 0 then .error .assertion
      else .ok { a with pageBitmap := memoryMap.foldl (clearZone pageSize) bitmap }

/-! ## AllocatePages and FreePages -/

/-- What `FindFreeRegions` leaves behind: the pointer it returns (0 is null), the bitmap, and the
cursor it took by reference. -/
structure Search where
  pages : ℕ
  pageBitmap : Bitmap
  start : ℕ
  deriving DecidableEq

/-- The loop of `FindFreeRegions`; `fuel` bounds its turns by the frames left below `limit`. -/
def findLoop (bitmap : Bitmap) (pageSize count limit : ℕ) :
    (fuel start contiguousPages : ℕ) → Search
  | 0, start, _ => ⟨0, bitmap, start⟩
  | fuel + 1, start, contiguousPages =>
    if start < limit then
      if !bitmap.getIndex start then
        if contiguousPages + 1 = count then
          let page := start + 1 - count
          ⟨page * pageSize % wordCount, bitmap.setRange page count true, start + 1⟩
        else findLoop bitmap pageSize count limit fuel (start + 1) (contiguousPages + 1)
      else findLoop bitmap pageSize count limit fuel (start + 1) 0
    else ⟨0, bitmap, start⟩

/-- `BitmapAllocator::FindFreeRegions`. -/
def findFreeRegions (a : BitmapAllocator) (start count limit : ℕ) : Search :=
  findLoop a.pageBitmap a.pageSize count limit (limit - start) start 0

/-- The tail of `AllocatePages` once a search has returned: take over its bitmap and cursor, and
account for the pages if it found some. -/
def commit (a : BitmapAllocator) (pageCount : ℕ) (found : Search) : ℕ × BitmapAllocator :=
  let a := { a with pageBitmap := found.pageBitmap, lastIndex := found.start }
  if found.pages = 0 then (0, a)
  else (found.pages, { a with usedMemory := offset a.usedMemory (pageCount * a.pageSize) })

/-- `BitmapAllocator::AllocatePages`; the pointer 0 is `nullptr`. -/
def allocatePages (a : BitmapAllocator) (pageCount : ℕ) : ℕ × BitmapAllocator :=
  if pageCount = 0 then (0, a)
  else
    let first := a.findFreeRegions a.lastIndex pageCount (a.usableMemoryTop / a.pageSize)
    if first.pages = 0 then
      let wrapped := { a with pageBitmap := first.pageBitmap }
      wrapped.commit pageCount (wrapped.findFreeRegions 0 pageCount a.lastIndex)
    else a.commit pageCount first

/-- `BitmapAllocator::FreePages`. -/
def freePages (a : BitmapAllocator) (page pageCount : ℕ) : BitmapAllocator :=
  if pageCount = 0 ∨ page = 0 then a
  else
    { a with
      pageBitmap := a.pageBitmap.setRange (page / a.pageSize) pageCount false
      usedMemory := wordSub a.usedMemory (pageCount * a.pageSize) }

/-- Whether the bitmap marks a frame as used. -/
def used (a : BitmapAllocator) (frame : ℕ) : Bool := a.pageBitmap.getIndex frame

/-! ## What a search does -/

/-- The run of free frames a search returned. -/
structure FreeRun (bitmap : Bitmap) (count limit page : ℕ) : Prop where
  le_limit : page + count ≤ limit
  free : ∀ i, page ≤ i → i < page + count → bitmap.getIndex i = false

/-- Some run of `count` free frames begins at or after `first` and ends below `limit`. -/
def FreeBetween (bitmap : Bitmap) (count first limit : ℕ) : Prop :=
  ∃ page, first ≤ page ∧ FreeRun bitmap count limit page

/-- `page` begins the first run of `count` free frames between `first` and `limit`. -/
structure FirstRun (bitmap : Bitmap) (count first limit page : ℕ) : Prop where
  run : FreeRun bitmap count limit page
  first_le : first ≤ page
  least : ∀ p, first ≤ p → p < page → ¬FreeRun bitmap count limit p

/-- `FindFreeRegions` returns the first run after its start, and null only if there is none. The
induction carries that no run begins between `first` and the frames counted so far. -/
theorem findLoop_first {bitmap : Bitmap} {pageSize count limit : ℕ}
    (first fuel start contiguous : ℕ)
    (hfuel : fuel = limit - start) (hcount : contiguous < count)
    (hle : first + contiguous ≤ start)
    (hfree : ∀ i, start - contiguous ≤ i → i < start → bitmap.getIndex i = false)
    (hnone : ∀ p, first ≤ p → p < start - contiguous → ¬FreeRun bitmap count limit p) :
    (∃ page, FirstRun bitmap count first limit page ∧
      findLoop bitmap pageSize count limit fuel start contiguous =
        ⟨page * pageSize % wordCount, bitmap.setRange page count true, page + count⟩) ∨
    (¬FreeBetween bitmap count first limit ∧
      findLoop bitmap pageSize count limit fuel start contiguous =
        ⟨0, bitmap, max start limit⟩) := by
  induction fuel generalizing start contiguous with
  | zero =>
    right
    refine ⟨?_, by rw [findLoop, max_eq_left (by omega)]⟩
    rintro ⟨p, hp, hrun⟩
    have hend := hrun.le_limit
    exact hnone p hp (by omega) hrun
  | succ fuel ih =>
    have hlt : start < limit := by omega
    rw [findLoop, if_pos hlt]
    have hmax : max (start + 1) limit = max start limit := by omega
    cases hbit : bitmap.getIndex start with
    | true =>
      -- a run that began among the frames counted so far would contain this one
      have hnone' : ∀ p, first ≤ p → p < start + 1 - 0 → ¬FreeRun bitmap count limit p := by
        intro p hp hp' hrun
        by_cases hbefore : p < start - contiguous
        · exact hnone p hp hbefore hrun
        · have hclear := hrun.free start (by omega) (by omega)
          exact absurd (hbit.symm.trans hclear) (by decide)
      have h := ih (start + 1) 0 (by omega) (by omega) (by omega) (fun i _ _ => by omega) hnone'
      simpa [hmax] using h
    | false =>
      have hfree' : ∀ i, start + 1 - (contiguous + 1) ≤ i → i < start + 1 →
          bitmap.getIndex i = false := by
        intro i hi hi'
        rcases Nat.lt_succ_iff_lt_or_eq.mp hi' with hi' | rfl
        · exact hfree i (by omega) hi'
        · exact hbit
      by_cases hlast : contiguous + 1 = count
      · left
        refine ⟨start + 1 - count,
          ⟨⟨by omega, fun i hi hi' => ?_⟩, by omega, fun p hp hp' => ?_⟩, ?_⟩
        · exact hfree' i (by omega) (by omega)
        · exact hnone p hp (by omega)
        · simp [hlast, show start + 1 - count + count = start + 1 from by omega]
      · have h := ih (start + 1) (contiguous + 1) (by omega) (by omega) (by omega) hfree'
          (fun p hp hp' => hnone p hp (by omega))
        simpa [hlast, hmax] using h

/-- `findLoop_first` for the whole of `FindFreeRegions`. -/
theorem findFreeRegions_first (a : BitmapAllocator) (start limit : ℕ) {count : ℕ}
    (hcount : 0 < count) :
    (∃ page, FirstRun a.pageBitmap count start limit page ∧
      a.findFreeRegions start count limit =
        ⟨page * a.pageSize % wordCount, a.pageBitmap.setRange page count true, page + count⟩) ∨
    (¬FreeBetween a.pageBitmap count start limit ∧
      a.findFreeRegions start count limit = ⟨0, a.pageBitmap, max start limit⟩) :=
  findLoop_first start _ start 0 rfl hcount le_rfl (fun i _ _ => by omega)
    (fun p hp hp' => by omega)

/-- A search finds a free run, or leaves the bitmap as it is. -/
theorem findFreeRegions_spec (a : BitmapAllocator) (start limit : ℕ) {count : ℕ}
    (hcount : 0 < count) :
    (∃ page, FreeRun a.pageBitmap count limit page ∧
      a.findFreeRegions start count limit =
        ⟨page * a.pageSize % wordCount, a.pageBitmap.setRange page count true, page + count⟩) ∨
    a.findFreeRegions start count limit = ⟨0, a.pageBitmap, max start limit⟩ :=
  (a.findFreeRegions_first start limit hcount).imp
    (fun ⟨page, hfirst, hfind⟩ => ⟨page, hfirst.run, hfind⟩) And.right

/-! ## The invariant of the allocator -/

/-- What holds of the allocator after `PMM::Initialize` and between any two calls. -/
structure Wf (a : BitmapAllocator) : Prop where
  pageSize_eq : a.pageSize = PMM.pageSize
  size_eq : a.pageBitmap.size = a.usableMemoryTop / a.pageSize
  top_lt : a.usableMemoryTop < wordCount
  lastIndex_le : a.lastIndex ≤ a.pageBitmap.size
  zero_used : a.used 0 = true

/-- A frame with a clear bit lies inside the bitmap. -/
theorem lt_size_of_free {a : BitmapAllocator} {i : ℕ} (h : a.used i = false) :
    i < a.pageBitmap.size := by
  by_contra hge
  rw [used, Bitmap.getIndex_of_size_le (by omega)] at h
  exact absurd h (by decide)

theorem Wf.frame_mul_lt {a : BitmapAllocator} (hwf : a.Wf) {page : ℕ}
    (h : page ≤ a.pageBitmap.size) : page * PMM.pageSize < wordCount := by
  have htop := hwf.top_lt
  have hle : page * PMM.pageSize ≤ a.usableMemoryTop := by
    rw [hwf.size_eq, hwf.pageSize_eq] at h
    exact (Nat.le_div_iff_mul_le (by decide)).mp h
  omega

/-- The effect of an `AllocatePages` that found a run: the frames were free, and now exactly they
are used as well. -/
structure Allocated (a a' : BitmapAllocator) (page count : ℕ) : Prop where
  wf : a'.Wf
  size_eq : a'.pageBitmap.size = a.pageBitmap.size
  frame_pos : 0 < page
  free : ∀ i, page ≤ i → i < page + count → a.used i = false
  used_iff : ∀ i, a'.used i = true ↔ a.used i = true ∨ (page ≤ i ∧ i < page + count)

private theorem commit_found {a : BitmapAllocator} (hwf : a.Wf) {count limit page : ℕ}
    (hcount : 0 < count) (hlimit : limit ≤ a.pageBitmap.size)
    (hrun : FreeRun a.pageBitmap count limit page) :
    ∃ a', a.commit count ⟨page * a.pageSize % wordCount,
        a.pageBitmap.setRange page count true, page + count⟩ = (page * PMM.pageSize, a') ∧
      Allocated a a' page count := by
  have hle := hrun.le_limit
  have hpos : 0 < page := by
    rcases Nat.eq_zero_or_pos page with rfl | h
    · have hfree := hrun.free 0 le_rfl (by omega)
      have hused := hwf.zero_used
      rw [used, hfree] at hused
      exact absurd hused (by decide)
    · exact h
  have haddr : page * a.pageSize % wordCount = page * PMM.pageSize := by
    rw [hwf.pageSize_eq]
    exact Nat.mod_eq_of_lt (hwf.frame_mul_lt (by omega))
  have hne : page * PMM.pageSize ≠ 0 := Nat.mul_ne_zero hpos.ne' (by decide)
  rw [haddr, commit]
  simp only [if_neg hne]
  refine ⟨_, rfl, ⟨⟨hwf.pageSize_eq, ?_, hwf.top_lt, ?_, ?_⟩, by simp, hpos, hrun.free,
    fun i => ?_⟩⟩
  · simpa using hwf.size_eq
  · simpa using (by omega : page + count ≤ a.pageBitmap.size)
  · rw [used, Bitmap.getIndex_setRange, if_neg (by omega)]
    exact hwf.zero_used
  · rw [used, used, Bitmap.getIndex_setRange]
    split <;> rename_i h
    · simp [h.1]
    · refine ⟨Or.inl, fun hor => hor.resolve_right fun hin => h ⟨hin, ?_⟩⟩
      omega

private theorem commit_none {a : BitmapAllocator} (hwf : a.Wf) (count : ℕ) {start : ℕ}
    (hstart : start ≤ a.pageBitmap.size) :
    ∃ a', a.commit count ⟨0, a.pageBitmap, start⟩ = (0, a') ∧ a'.Wf ∧
      a'.pageBitmap = a.pageBitmap :=
  ⟨_, rfl, ⟨hwf.pageSize_eq, hwf.size_eq, hwf.top_lt, hstart, hwf.zero_used⟩, rfl⟩

/-- What `AllocatePages` does: it returns the address of a run of frames that were free and marks
them, or it returns null and marks nothing. -/
theorem allocatePages_spec {a : BitmapAllocator} (hwf : a.Wf) (count : ℕ) :
    (∃ page a', 0 < count ∧ a.allocatePages count = (page * PMM.pageSize, a') ∧
      Allocated a a' page count) ∨
    (∃ a', a.allocatePages count = (0, a') ∧ a'.Wf ∧ a'.pageBitmap = a.pageBitmap) := by
  rw [allocatePages]
  rcases Nat.eq_zero_or_pos count with rfl | hcount
  · exact .inr ⟨a, by simp, hwf, rfl⟩
  rw [if_neg hcount.ne']
  dsimp only
  rcases findFreeRegions_spec a a.lastIndex (a.usableMemoryTop / a.pageSize) hcount with
    ⟨page, hrun, hfind⟩ | hfind
  · obtain ⟨a', hcommit, halloc⟩ := commit_found hwf hcount hwf.size_eq.ge hrun
    have hne : page * a.pageSize % wordCount ≠ 0 := by
      rw [hwf.pageSize_eq, Nat.mod_eq_of_lt (hwf.frame_mul_lt _)]
      · exact Nat.mul_ne_zero halloc.frame_pos.ne' (by decide)
      · have := hrun.le_limit
        have := hwf.size_eq
        omega
    rw [hfind, if_neg hne]
    exact .inl ⟨page, a', hcount, hcommit, halloc⟩
  · rw [hfind, if_pos rfl]
    -- the wrapped search runs on the same bitmap, up to where the first one started
    rcases findFreeRegions_spec a 0 a.lastIndex hcount with ⟨page, hrun, hwrap⟩ | hwrap
    · obtain ⟨a', hcommit, halloc⟩ := commit_found hwf hcount hwf.lastIndex_le hrun
      rw [hwrap]
      exact .inl ⟨page, a', hcount, hcommit, halloc⟩
    · rw [hwrap]
      exact .inr (commit_none hwf count (by simpa using hwf.lastIndex_le))

/-- `FreePages` clears the bits of the frames it is given and no others. -/
theorem used_freePages {a : BitmapAllocator} (hwf : a.Wf) {page count : ℕ} (hpage : 0 < page)
    (hfit : page + count ≤ a.pageBitmap.size) (i : ℕ) :
    (a.freePages (page * PMM.pageSize) count).used i = true ↔
      a.used i = true ∧ ¬(page ≤ i ∧ i < page + count) := by
  rw [freePages]
  rcases Nat.eq_zero_or_pos count with rfl | hcount
  · simp
  have hne : page * PMM.pageSize ≠ 0 := Nat.mul_ne_zero hpage.ne' (by decide)
  rw [if_neg (by omega), used, used]
  dsimp only
  rw [hwf.pageSize_eq, Nat.mul_div_cancel _ (by decide), Bitmap.getIndex_setRange]
  split <;> rename_i h
  · simp [h.1]
  · refine ⟨fun hused => ⟨hused, fun hin => h ⟨hin, by omega⟩⟩, And.left⟩

/-- `FreePages` of frames other than frame 0 keeps the allocator well formed. -/
theorem Wf.freePages {a : BitmapAllocator} (hwf : a.Wf) {page count : ℕ} (hpage : 0 < page)
    (hfit : page + count ≤ a.pageBitmap.size) :
    (a.freePages (page * PMM.pageSize) count).Wf := by
  have hzero : (a.freePages (page * PMM.pageSize) count).used 0 = true := by
    rw [used_freePages hwf hpage hfit]
    exact ⟨hwf.zero_used, by omega⟩
  rw [BitmapAllocator.freePages] at hzero ⊢
  split at hzero
  · rename_i h
    rw [if_pos h]
    exact hwf
  · rename_i h
    rw [if_neg h]
    exact ⟨hwf.pageSize_eq, by simpa using hwf.size_eq, hwf.top_lt,
      by simpa using hwf.lastIndex_le, hzero⟩

end BitmapAllocator

end Cryptix.Memory
