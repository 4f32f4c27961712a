import Cryptix.Memory.FramePool

/-!
# Memory while the kernel boots

Before the frame allocator is up, memory is cut from the front of the usable entries of the memory
map: `MM::PrepareInitialHeap` takes the early heap, `PMM::AllocatePages` single runs of pages. The
entries are shared, so `PMM::Initialize` builds the bitmap from what is left of them, and from then
on `AllocatePages` and `FreePages` are those of the bitmap allocator.

No memory is handed out twice over the whole of this (`bootMemory_blocks_disjoint`), whatever was
taken before the hand-over and whatever of it is freed after.
-/

namespace Cryptix.Memory

open Prism Lib

/-! ## Cutting memory from the memory map -/

namespace MemoryZone

/-- The entry without its first bytes. -/
def cut (z : MemoryZone) (bytes : ℕ) (h : bytes ≤ z.length) : MemoryZone where
  base := z.base + bytes
  length := z.length - bytes
  type := z.type
  top_lt := by have := z.top_lt; omega

/-- `MemoryZone::Allocate`; the pointer 0 is `nullptr`. -/
def allocate (z : MemoryZone) (bytes : ℕ) : ℕ × MemoryZone :=
  if h : z.length < bytes ∨ z.type ≠ .usable then (0, z)
  else (z.base, z.cut bytes (by omega))

end MemoryZone

namespace MemoryMap

/-- A loop over the entries that allocates from the first entry a condition accepts, and returns
what `allocate` makes of it. -/
def allocateFirst (accepts : MemoryZone → Bool) (allocate : MemoryZone → ℕ × MemoryZone) :
    MemoryMap → ℕ × MemoryMap
  | [] => (0, [])
  | z :: zs =>
    if accepts z then ((allocate z).1, (allocate z).2 :: zs)
    else ((allocateFirst accepts allocate zs).1, z :: (allocateFirst accepts allocate zs).2)

/-- `EarlyAllocatePages`. -/
def earlyAllocatePages (count : ℕ) : MemoryMap → ℕ × MemoryMap :=
  allocateFirst
    (fun z => !(z.type != .usable || z.length < count * PMM.pageSize % wordCount))
    fun z => z.allocate (count * PMM.pageSize % wordCount)

/-- How far the base of an entry is from a page boundary. -/
def misalign (z : MemoryZone) : ℕ := wordSub (alignUp z.base PMM.pageSize) z.base

/-- `allocate` in `MM::PrepareInitialHeap`. -/
def allocateHeap (bytes : ℕ) : MemoryMap → ℕ × MemoryMap :=
  allocateFirst (fun z => z.type == .usable && offset bytes (misalign z) < z.length)
    fun z =>
      let memory := z.allocate (offset bytes (misalign z))
      (alignUp memory.1 PMM.pageSize, memory.2)

end MemoryMap

/-! ## The boot -/

/-- The entries of the memory map, the frame allocator once it is initialized, and the blocks that
were handed out and not freed since. -/
structure BootMemory where
  zones : MemoryMap
  allocator : Option BitmapAllocator
  live : List Block

namespace BootMemory

/-- The pages of the early heap, 64 MiB. -/
def earlyHeapPages : ℕ := 0x4000

/-- A block is handed out, unless the pointer is null or there is nothing behind it. -/
def handOut (page count : ℕ) (live : List Block) : List Block :=
  if page = 0 ∨ count = 0 then live else ⟨page, count⟩ :: live

/-- `MM::PrepareInitialHeap`. -/
def prepareInitialHeap (memoryMap : MemoryMap) : BootMemory :=
  let (base, zones) := memoryMap.allocateHeap (earlyHeapPages * PMM.pageSize)
  ⟨zones, none, handOut base earlyHeapPages []⟩

inductive Call
  | allocatePages (pageCount : ℕ)
  | freePages (page pageCount : ℕ)
  | handOver
  deriving DecidableEq, Repr

/-- `PMM::AllocatePages`, `PMM::FreePages`, and `PMM::Initialize`, which is called once. -/
def step (s : BootMemory) : Call → Option BootMemory
  | .allocatePages count =>
    match s.allocator with
    | none =>
      let (page, zones) := s.zones.earlyAllocatePages count
      some { s with zones := zones, live := handOut page count s.live }
    | some a =>
      let (page, a) := a.allocatePages count
      some { s with allocator := some a, live := handOut page count s.live }
  | .freePages page count =>
    s.allocator.map fun a =>
      { s with allocator := some (a.freePages page count), live := s.live.erase ⟨page, count⟩ }
  | .handOver =>
    match s.allocator, BitmapAllocator.initializeWith s.zones PMM.pageSize with
    | none, .ok a => some { s with allocator := some a }
    | _, _ => none

/-- The discipline of the callers: fewer than `2 ^ 64` bytes are asked for, and only a live block
is freed, and with its own page count. -/
def Disciplined (s : BootMemory) : Call → Prop
  | .allocatePages count => count * PMM.pageSize < wordCount
  | .freePages page count => ⟨page, count⟩ ∈ s.live
  | .handOver => True

instance (s : BootMemory) : (call : Call) → Decidable (Disciplined s call)
  | .allocatePages count => inferInstanceAs (Decidable (count * PMM.pageSize < wordCount))
  | .freePages page count => inferInstanceAs (Decidable (⟨page, count⟩ ∈ s.live))
  | .handOver => inferInstanceAs (Decidable True)

end BootMemory

/-! ## The frames of an entry -/

namespace MemoryZone

/-- The frames of a usable entry. -/
def frames (z : MemoryZone) : Set ℕ :=
  {i | z.type = .usable ∧ z.base ≤ i * PMM.pageSize ∧
    (i + 1) * PMM.pageSize ≤ z.base + z.length}

variable {z : MemoryZone} {bytes count : ℕ}

theorem cut_top (h : bytes ≤ z.length) :
    (z.cut bytes h).base + (z.cut bytes h).length = z.base + z.length := by
  simp only [cut]
  omega

theorem frames_cut_subset (h : bytes ≤ z.length) : (z.cut bytes h).frames ⊆ z.frames := by
  rintro i ⟨htype, hbase, htop⟩
  simp only [cut] at htype hbase htop
  exact ⟨htype, by omega, by omega⟩

/-- The pages cut from an entry. -/
theorem frames_cut (hz : PMM.pageSize ∣ z.base) (husable : z.type = .usable)
    (h : count * PMM.pageSize ≤ z.length) :
    Block.frames ⟨z.base, count⟩ ⊆ z.frames ∧
      Disjoint (Block.frames ⟨z.base, count⟩) (z.cut (count * PMM.pageSize) h).frames := by
  obtain ⟨first, hfirst⟩ := hz
  rw [Nat.mul_comm] at hfirst
  rw [hfirst]
  have hpos := PMM.pageSize_pos
  constructor
  · intro i hi
    obtain ⟨hle, hlt⟩ := Block.mem_frames.mp hi
    have hbase := Nat.mul_le_mul_right PMM.pageSize hle
    have htop := Nat.mul_le_mul_right PMM.pageSize (show i + 1 ≤ first + count by omega)
    rw [Nat.add_mul first] at htop
    exact ⟨husable, by omega, by omega⟩
  · rw [Set.disjoint_left]
    rintro i hi ⟨-, hbase, -⟩
    obtain ⟨-, hlt⟩ := Block.mem_frames.mp hi
    simp only [cut, hfirst, ← Nat.add_mul] at hbase
    have := Nat.le_of_mul_le_mul_right hbase hpos
    omega

end MemoryZone

/-! ## What a cut does -/

namespace MemoryMap

/-- What an allocation from the memory map does: nothing, or pages are cut from an entry. -/
def Cuts (count : ℕ) (memoryMap : MemoryMap) (result : ℕ × MemoryMap) : Prop :=
  result = (0, memoryMap) ∨
    ∃ before z after, ∃ h : count * PMM.pageSize ≤ z.length,
      memoryMap = before ++ z :: after ∧ z.type = .usable ∧
        result = (z.base, before ++ z.cut (count * PMM.pageSize) h :: after)

variable {count : ℕ} {accepts : MemoryZone → Bool} {allocate : MemoryZone → ℕ × MemoryZone}

theorem cuts_allocateFirst {memoryMap : MemoryMap}
    (h : ∀ z ∈ memoryMap, accepts z = true → ∃ h : count * PMM.pageSize ≤ z.length,
      z.type = .usable ∧ allocate z = (z.base, z.cut (count * PMM.pageSize) h)) :
    Cuts count memoryMap (allocateFirst accepts allocate memoryMap) := by
  induction memoryMap with
  | nil => exact .inl rfl
  | cons z zs ih =>
    rw [allocateFirst]
    by_cases haccept : accepts z = true
    · obtain ⟨hle, husable, hallocate⟩ := h z List.mem_cons_self haccept
      rw [if_pos haccept, hallocate]
      exact .inr ⟨[], z, zs, hle, rfl, husable, rfl⟩
    · rw [if_neg haccept]
      obtain hnone | ⟨before, w, after, hle, rfl, husable, hresult⟩ :=
        ih fun w hw => h w (List.mem_cons_of_mem z hw)
      · rw [hnone]
        exact .inl rfl
      · rw [hresult]
        exact .inr ⟨z :: before, w, after, hle, rfl, husable, rfl⟩

theorem cuts_earlyAllocatePages (memoryMap : MemoryMap)
    (hcount : count * PMM.pageSize < wordCount) :
    Cuts count memoryMap (memoryMap.earlyAllocatePages count) := by
  refine cuts_allocateFirst fun z _ haccept => ?_
  rw [Nat.mod_eq_of_lt hcount] at haccept ⊢
  simp only [Bool.not_eq_true', Bool.or_eq_false_iff, bne_eq_false_iff_eq, decide_eq_false_iff_not,
    Nat.not_lt] at haccept
  refine ⟨haccept.2, haccept.1, ?_⟩
  rw [MemoryZone.allocate, dif_neg (by simp [haccept])]

theorem cuts_allocateHeap {memoryMap : MemoryMap} (haligned : memoryMap.UsableAligned)
    (hcount : count * PMM.pageSize < wordCount) :
    Cuts count memoryMap (memoryMap.allocateHeap (count * PMM.pageSize)) := by
  refine cuts_allocateFirst fun z hz haccept => ?_
  simp only [Bool.and_eq_true, beq_iff_eq, decide_eq_true_eq] at haccept
  obtain ⟨husable, hlength⟩ := haccept
  have hbase : alignUp z.base PMM.pageSize = z.base := by
    obtain ⟨first, hfirst⟩ := (haligned z hz husable).1
    have htop := z.top_lt
    rw [hfirst] at htop ⊢
    rw [alignUp, roundUp, divRoundUp, PMM.pageSize, Nat.mod_eq_of_lt]
    · omega
    · rw [PMM.pageSize] at htop
      omega
  have hmisalign : misalign z = 0 := by
    rw [misalign, hbase, wordSub_of_le (by have := z.top_lt; omega) le_rfl, Nat.sub_self]
  have hoffset : offset (count * PMM.pageSize) 0 = count * PMM.pageSize := by
    rw [offset, Nat.add_zero, Nat.mod_eq_of_lt hcount]
  rw [hmisalign, hoffset] at hlength ⊢
  refine ⟨hlength.le, husable, ?_⟩
  rw [MemoryZone.allocate, dif_neg (by simp [husable, hlength.le])]
  exact Prod.ext hbase rfl

end MemoryMap

/-! ## The invariant of the boot -/

namespace BootMemory

/-- Before the hand-over: what is left of the memory map and the blocks cut from it share no frame,
and the blocks lie below the top of an entry that is left. -/
structure Carved (memoryMap zones : MemoryMap) (live : List Block) : Prop where
  aligned : zones.UsableAligned
  zones_disjoint : zones.Pairwise fun z w => Disjoint z.frames w.frames
  zones_inside : ∀ z ∈ zones, ∀ i ∈ z.frames, ∃ w ∈ memoryMap, i ∈ w.frames
  disjoint : live.Pairwise fun b c => Disjoint b.frames c.frames
  block_aligned : ∀ b ∈ live, ∃ first, 0 < first ∧ b.page = first * PMM.pageSize ∧ 0 < b.count
  inside : ∀ b ∈ live, ∀ i ∈ b.frames, ∃ w ∈ memoryMap, i ∈ w.frames
  fresh : ∀ b ∈ live, ∀ z ∈ zones, Disjoint b.frames z.frames
  top : ∀ b ∈ live, ∀ i ∈ b.frames, ∃ z ∈ zones,
    z.type = .usable ∧ (i + 1) * PMM.pageSize ≤ z.base + z.length

variable {memoryMap zones zones' before after : MemoryMap} {z : MemoryZone} {live : List Block}
  {page count bytes : ℕ}

/-- The entries that are left are the cut one and the others. -/
theorem mem_middle {w : MemoryZone} : w ∈ before ++ z :: after ↔ w = z ∨ w ∈ before ++ after := by
  rw [List.perm_middle.mem_iff, List.mem_cons]

/-- Cutting pages off an entry takes frames away and leaves its top where it was. -/
theorem Carved.cut (h : Carved memoryMap (before ++ z :: after) live)
    (hle : count * PMM.pageSize ≤ z.length) :
    Carved memoryMap (before ++ z.cut (count * PMM.pageSize) hle :: after) live := by
  have hsubset := MemoryZone.frames_cut_subset hle
  have hpair := (List.perm_middle.pairwise_iff fun {_ _} hzw => hzw.symm).mp h.zones_disjoint
  obtain ⟨hz, hothers⟩ := List.pairwise_cons.mp hpair
  have hzmem : z ∈ before ++ z :: after := mem_middle.mpr (.inl rfl)
  have hmem : ∀ w ∈ before ++ after, w ∈ before ++ z :: after :=
    fun w hw => mem_middle.mpr (.inr hw)
  refine ⟨?_, ?_, ?_, h.disjoint, h.block_aligned, h.inside, ?_, ?_⟩
  · intro w hw husable
    obtain rfl | hw := mem_middle.mp hw
    · obtain ⟨hbase, hlength⟩ := h.aligned z hzmem husable
      exact ⟨Nat.dvd_add hbase (Nat.dvd_mul_left _ count),
        Nat.dvd_sub hlength (Nat.dvd_mul_left _ count)⟩
    · exact h.aligned w (hmem w hw) husable
  · refine (List.perm_middle.pairwise_iff fun {_ _} hzw => hzw.symm).mpr
      (List.pairwise_cons.mpr ⟨fun w hw => ?_, hothers⟩)
    exact (hz w hw).mono_left hsubset
  · intro w hw i hi
    obtain rfl | hw := mem_middle.mp hw
    · exact h.zones_inside z hzmem i (hsubset hi)
    · exact h.zones_inside w (hmem w hw) i hi
  · intro b hb w hw
    obtain rfl | hw := mem_middle.mp hw
    · exact (h.fresh b hb z hzmem).mono_right hsubset
    · exact h.fresh b hb w (hmem w hw)
  · intro b hb i hi
    obtain ⟨w, hw, husable, htop⟩ := h.top b hb i hi
    obtain rfl | hw := mem_middle.mp hw
    · exact ⟨_, mem_middle.mpr (.inl rfl), husable, htop.trans_eq (MemoryZone.cut_top hle).symm⟩
    · exact ⟨w, mem_middle.mpr (.inr hw), husable, htop⟩

/-- An allocation from the memory map. -/
theorem Carved.handOut (h : Carved memoryMap zones live)
    (hcut : zones.Cuts count (page, zones')) :
    Carved memoryMap zones' (handOut page count live) := by
  obtain hnone | ⟨before, z, after, hle, rfl, husable, hresult⟩ := hcut
  · obtain ⟨rfl, rfl⟩ := Prod.mk.inj hnone
    rw [BootMemory.handOut, if_pos (.inl rfl)]
    exact h
  obtain ⟨rfl, rfl⟩ := Prod.mk.inj hresult
  have hleft := h.cut hle
  rw [BootMemory.handOut]
  split
  · exact hleft
  rename_i hblock
  have hzmem : z ∈ before ++ z :: after := mem_middle.mpr (.inl rfl)
  obtain ⟨hsubset, hdisjoint⟩ :=
    MemoryZone.frames_cut (h.aligned z hzmem husable).1 husable hle
  have hpair := (List.perm_middle.pairwise_iff fun {_ _} hzw => hzw.symm).mp h.zones_disjoint
  have hothers := (List.pairwise_cons.mp hpair).1
  refine ⟨hleft.aligned, hleft.zones_disjoint, hleft.zones_inside, ?_, ?_, ?_, ?_, ?_⟩
  · refine List.pairwise_cons.mpr ⟨fun b hb => ?_, hleft.disjoint⟩
    exact ((h.fresh b hb z hzmem).mono_right hsubset).symm
  · intro b hb
    obtain rfl | hb := List.mem_cons.mp hb
    · obtain ⟨first, hfirst⟩ := (h.aligned z hzmem husable).1
      refine ⟨first, Nat.pos_of_ne_zero ?_, by rw [hfirst, Nat.mul_comm],
        Nat.pos_of_ne_zero fun hzero => hblock (.inr hzero)⟩
      rintro rfl
      exact hblock (.inl hfirst)
    · exact hleft.block_aligned b hb
  · intro b hb i hi
    obtain rfl | hb := List.mem_cons.mp hb
    · exact h.zones_inside z hzmem i (hsubset hi)
    · exact hleft.inside b hb i hi
  · intro b hb w hw
    obtain rfl | hb := List.mem_cons.mp hb
    · obtain rfl | hw := mem_middle.mp hw
      · exact hdisjoint
      · exact (hothers w hw).mono_left hsubset
    · exact hleft.fresh b hb w hw
  · intro b hb i hi
    obtain rfl | hb := List.mem_cons.mp hb
    · exact ⟨_, mem_middle.mpr (.inl rfl), husable,
        (hsubset hi).2.2.trans_eq (MemoryZone.cut_top hle).symm⟩
    · exact hleft.top b hb i hi

/-! ## The hand-over -/

/-- The frames that may be handed out after the hand-over: those left, and those handed out before,
which may be freed. -/
def Usable (zones : MemoryMap) (live : List Block) (i : ℕ) : Prop :=
  zones.UsableFrame i ∨ ∃ b ∈ live, i ∈ b.frames

/-- The bitmap reaches to the top of every usable entry. -/
theorem le_usableMemoryTop {a : BitmapAllocator}
    (hinit : BitmapAllocator.initializeWith zones PMM.pageSize = .ok a) :
    ∀ z ∈ zones, z.type = .usable → z.base + z.length ≤ a.usableMemoryTop := by
  obtain ⟨-, -, -, -, htop⟩ := BitmapAllocator.foldl_accountZone zones
    (BitmapAllocator.uninitialized PMM.pageSize) (by decide)
  rw [BitmapAllocator.initializeWith, if_neg (by decide)] at hinit
  dsimp only at hinit
  split at hinit
  · cases hinit
  split at hinit
  · cases hinit
  injection hinit with hinit
  subst hinit
  exact htop

/-- `PMM::Initialize` succeeds if there is a usable page. -/
theorem initializeWith_eq_ok
    (hmemory : (zones.foldl BitmapAllocator.accountZone
      (BitmapAllocator.uninitialized PMM.pageSize)).memoryTop ≠ 0)
    (husable : (zones.foldl BitmapAllocator.accountZone
      (BitmapAllocator.uninitialized PMM.pageSize)).usableMemoryTop / PMM.pageSize ≠ 0) :
    ∃ a, BitmapAllocator.initializeWith zones PMM.pageSize = .ok a := by
  rw [BitmapAllocator.initializeWith, if_neg (by decide)]
  dsimp only
  rw [if_neg hmemory, if_neg (by rwa [Bitmap.size_allocateSet])]
  exact ⟨_, rfl⟩

/-- The frame allocator takes over: the blocks that were cut before are live blocks like others. -/
theorem Carved.accounted (h : Carved memoryMap zones live) {a : BitmapAllocator}
    (hinit : BitmapAllocator.initializeWith zones PMM.pageSize = .ok a) :
    FramePool.Accounted (Usable zones live) ⟨a, live⟩ := by
  have hfresh := BitmapAllocator.accounted_initializeWith h.aligned hinit
  have hwf : a.Wf := hfresh.wf
  have hused : ∀ i, a.used i = true ↔ ¬zones.UsableFrame i := by
    intro i
    simpa using hfresh.used_iff i
  refine ⟨hwf, fun i hi => ?_, h.disjoint, h.block_aligned, fun b hb i hi => .inr ⟨b, hb, hi⟩,
    fun i => ?_⟩
  · obtain hi | ⟨b, hb, hi⟩ := hi
    · exact hfresh.usable_lt i hi
    · obtain ⟨z, hz, husable, hend⟩ := h.top b hb i hi
      have hall := hend.trans (le_usableMemoryTop hinit z hz husable)
      have hlt := (Nat.le_div_iff_mul_le PMM.pageSize_pos).mpr hall
      rw [← hwf.pageSize_eq, ← hwf.size_eq] at hlt
      exact hlt
  · -- a frame of a block is in no entry that is left
    have hnot : (∃ b ∈ live, i ∈ b.frames) → ¬zones.UsableFrame i := by
      rintro ⟨b, hb, hib⟩ ⟨-, z, hz, hiz⟩
      exact Set.disjoint_left.mp (h.fresh b hb z hz) hib hiz
    rw [hused, Usable, not_or]
    exact ⟨fun hi => (Classical.em _).imp_right fun hlive => ⟨hi, hlive⟩,
      fun hi => hi.elim hnot And.left⟩

/-! ## Every run -/

/-- What holds at every moment of the boot and after it. -/
def Inv (memoryMap : MemoryMap) (s : BootMemory) : Prop :=
  match s.allocator with
  | none => Carved memoryMap s.zones s.live
  | some a => ∃ usable, FramePool.Accounted usable ⟨a, s.live⟩ ∧
      ∀ i, usable i → ∃ z ∈ memoryMap, i ∈ z.frames

/-- The entries of the memory map that may be used begin and end on page boundaries and share no
frame. -/
structure Separated (memoryMap : MemoryMap) : Prop where
  aligned : memoryMap.UsableAligned
  disjoint : memoryMap.Pairwise fun z w => Disjoint z.frames w.frames

theorem inv_prepareInitialHeap (h : Separated memoryMap) :
    Inv memoryMap (prepareInitialHeap memoryMap) := by
  have hstart : Carved memoryMap memoryMap [] :=
    ⟨h.aligned, h.disjoint, fun z hz i hi => ⟨z, hz, hi⟩, .nil, by simp, by simp, by simp, by simp⟩
  exact hstart.handOut (MemoryMap.cuts_allocateHeap h.aligned (by decide))

/-- `AllocatePages` of the bitmap allocator, over the blocks as they are noted here. -/
theorem step_allocatePages_eq (a : BitmapAllocator) (live : List Block) (count : ℕ) :
    FramePool.step ⟨a, live⟩ (.allocatePages count) =
      some ⟨(a.allocatePages count).2, handOut (a.allocatePages count).1 count live⟩ := by
  have hzero : count = 0 → (a.allocatePages count).1 = 0 := by
    rintro rfl
    rw [BitmapAllocator.allocatePages, if_pos rfl]
  change some (FramePool.mk (a.allocatePages count).2 (if (a.allocatePages count).1 = 0 then live
    else ⟨(a.allocatePages count).1, count⟩ :: live)) = _
  rw [BootMemory.handOut]
  by_cases hpage : (a.allocatePages count).1 = 0
  · rw [if_pos hpage, if_pos (Or.inl hpage)]
  · rw [if_neg hpage, if_neg (not_or.mpr ⟨hpage, mt hzero hpage⟩)]

theorem Inv.step {s s' : BootMemory} {call : Call} (h : Inv memoryMap s)
    (hok : Disciplined s call) (hstep : s.step call = some s') : Inv memoryMap s' := by
  obtain ⟨zones, allocator, live⟩ := s
  cases allocator with
  | none =>
    have hcarved : Carved memoryMap zones live := h
    cases call with
    | allocatePages count =>
      obtain rfl := Option.some.inj hstep
      exact hcarved.handOut (MemoryMap.cuts_earlyAllocatePages zones hok)
    | freePages page count => cases hstep
    | handOver =>
      rw [BootMemory.step] at hstep
      split at hstep
      · rename_i a _ hinit
        obtain rfl := Option.some.inj hstep
        refine ⟨_, hcarved.accounted hinit, fun i hi => ?_⟩
        obtain ⟨-, z, hz, hiz⟩ | ⟨b, hb, hib⟩ := hi
        · exact hcarved.zones_inside z hz i hiz
        · exact hcarved.inside b hb i hib
      · cases hstep
  | some a =>
    obtain ⟨usable, haccounted, hinside⟩ := h
    cases call with
    | allocatePages count =>
      obtain rfl := Option.some.inj hstep
      have hallocate : FramePool.FreesLiveBlocks ⟨a, live⟩ (.allocatePages count) := trivial
      exact ⟨usable, haccounted.step hallocate (step_allocatePages_eq a live count), hinside⟩
    | freePages page count =>
      obtain rfl := Option.some.inj hstep
      have hfree : FramePool.FreesLiveBlocks ⟨a, live⟩ (.freePages page count) := hok
      exact ⟨usable, haccounted.step hfree rfl, hinside⟩
    | handOver => cases hstep

end BootMemory

/-- Over the whole boot, and after it, the blocks that are handed out share no frame and lie in the
usable entries of the memory map, whichever allocator they came from. -/
theorem bootMemory_blocks_disjoint {memoryMap : MemoryMap} (h : BootMemory.Separated memoryMap)
    {s : BootMemory}
    (hrun : Reaches BootMemory.step BootMemory.Disciplined (.prepareInitialHeap memoryMap) s) :
    s.live.Pairwise (fun b c => Disjoint b.frames c.frames) ∧
    ∀ b ∈ s.live, PMM.pageSize ∣ b.page ∧ 0 ∉ b.frames ∧
      ∀ i ∈ b.frames, ∃ z ∈ memoryMap, i ∈ z.frames := by
  have hinv : BootMemory.Inv memoryMap s := hrun.invariant (BootMemory.inv_prepareInitialHeap h)
    fun _ _ _ hs hok hstep => hs.step hok hstep
  have haligned : ∀ b : Block, (∃ first, 0 < first ∧ b.page = first * PMM.pageSize ∧ 0 < b.count) →
      PMM.pageSize ∣ b.page ∧ 0 ∉ b.frames := by
    rintro ⟨page, count⟩ ⟨first, hpos, rfl : page = _, -⟩
    refine ⟨Nat.dvd_mul_left _ first, fun hzero => ?_⟩
    exact absurd (Block.mem_frames.mp hzero).1 (by omega)
  obtain ⟨zones, allocator, live⟩ := s
  cases allocator with
  | none =>
    have hcarved : BootMemory.Carved memoryMap zones live := hinv
    refine ⟨hcarved.disjoint, fun b hb => ?_⟩
    obtain ⟨hdvd, hzero⟩ := haligned b (hcarved.block_aligned b hb)
    exact ⟨hdvd, hzero, hcarved.inside b hb⟩
  | some a =>
    obtain ⟨usable, haccounted, hinside⟩ := hinv
    refine ⟨haccounted.disjoint, fun b hb => ?_⟩
    obtain ⟨hdvd, hzero⟩ := haligned b (haccounted.aligned b hb)
    exact ⟨hdvd, hzero, fun i hi => hinside i (haccounted.inside b hb i hi)⟩

/-- Four frames of low memory, and room for the early heap. -/
def twoZones : MemoryMap :=
  [⟨0x1000, 0x4000, .usable, by decide⟩, ⟨0x100000, 0x4001000, .usable, by decide⟩]

theorem separated_twoZones : BootMemory.Separated twoZones := by
  constructor
  · intro z hz _
    simp only [twoZones, List.mem_cons, List.not_mem_nil, or_false] at hz
    obtain rfl | rfl := hz <;> decide
  · refine List.pairwise_pair.mpr (Set.disjoint_left.mpr ?_)
    rintro i ⟨-, -, htop⟩ ⟨-, hbase, -⟩
    simp only [PMM.pageSize] at htop hbase
    omega

/-- Two pages are taken before the hand-over, in addition to the early heap. -/
theorem bootMemory_blocks_disjoint_twoZones : ∃ s,
    Reaches BootMemory.step BootMemory.Disciplined (.prepareInitialHeap twoZones) s ∧
    s.allocator.isSome = true ∧
    s.live = [⟨0x3000, 1⟩, ⟨0x1000, 2⟩, ⟨0x100000, 0x4000⟩] ∧
    s.live.Pairwise fun b c => Disjoint b.frames c.frames := by
  obtain ⟨s, hs, hlive, hnone, hzones⟩ : ∃ s,
      Reaches.runList BootMemory.step BootMemory.Disciplined (.prepareInitialHeap twoZones)
        [.allocatePages 2, .allocatePages 1] = some s ∧
      s.live = [⟨0x3000, 1⟩, ⟨0x1000, 2⟩, ⟨0x100000, 0x4000⟩] ∧ s.allocator = none ∧
      s.zones = [⟨0x4000, 0x1000, .usable, by decide⟩, ⟨0x4100000, 0x1000, .usable, by decide⟩] :=
    ⟨_, rfl, rfl, rfl, rfl⟩
  obtain ⟨a, ha⟩ : ∃ a, BitmapAllocator.initializeWith s.zones PMM.pageSize = .ok a := by
    rw [hzones]
    exact BootMemory.initializeWith_eq_ok (by decide) (by decide)
  have hstep : s.step .handOver = some { s with allocator := some a } := by
    rw [BootMemory.step, hnone, ha]
  have hok : BootMemory.Disciplined s .handOver := trivial
  have hrun := Reaches.tail .handOver (.of_list _ hs) hok hstep
  exact ⟨_, hrun, rfl, hlive, (bootMemory_blocks_disjoint separated_twoZones hrun).1⟩

end Cryptix.Memory
