import Cryptix.Memory.BitmapAllocator

/-!
# The blocks the frame allocator has handed out

The bitmap records which frames are in use, not who holds them. This module pairs the allocator
with the list of live blocks (allocated and not freed since) and proves that over every disciplined
run the two agree: a bit is set exactly when its frame belongs to a live block or was never usable.
Everything about two owners of one frame follows, since live blocks never share a frame.
-/

namespace Cryptix.Memory

open Prism Lib

/-- A run of frames as `AllocatePages` returned it: its address and its page count. -/
structure Block where
  page : ℕ
  count : ℕ
  deriving DecidableEq, Repr

/-- The frame numbers of a block. -/
def Block.frames (b : Block) : Set ℕ :=
  Set.Ico (b.page / PMM.pageSize) (b.page / PMM.pageSize + b.count)

theorem Block.mem_frames {page count i : ℕ} :
    i ∈ Block.frames ⟨page * PMM.pageSize, count⟩ ↔ page ≤ i ∧ i < page + count := by
  rw [Block.frames, Nat.mul_div_cancel _ (by decide), Set.mem_Ico]

/-- The allocator and the blocks it has handed out and not taken back. -/
structure FramePool where
  allocator : BitmapAllocator
  live : List Block
  deriving DecidableEq

namespace FramePool

/-- The calls of the allocator's interface. -/
inductive Call
  | allocatePages (pageCount : ℕ)
  | freePages (page pageCount : ℕ)
  deriving DecidableEq, Repr

/-- One call. -/
def step (s : FramePool) : Call → Option FramePool
  | .allocatePages pageCount =>
    let (page, allocator) := s.allocator.allocatePages pageCount
    some ⟨allocator, if page = 0 then s.live else ⟨page, pageCount⟩ :: s.live⟩
  | .freePages page pageCount =>
    some ⟨s.allocator.freePages page pageCount, s.live.erase ⟨page, pageCount⟩⟩

/-- The discipline of the callers: only a live block is freed, and with its own page count. -/
def FreesLiveBlocks (s : FramePool) : Call → Prop
  | .allocatePages _ => True
  | .freePages page pageCount => ⟨page, pageCount⟩ ∈ s.live

instance (s : FramePool) : (call : Call) → Decidable (FreesLiveBlocks s call)
  | .allocatePages _ => inferInstanceAs (Decidable True)
  | .freePages page pageCount => inferInstanceAs (Decidable (⟨page, pageCount⟩ ∈ s.live))

/-- The agreement of bitmap and blocks, where `usable` says which frames may be handed out. -/
structure Accounted (usable : ℕ → Prop) (s : FramePool) : Prop where
  wf : s.allocator.Wf
  usable_lt : ∀ i, usable i → i < s.allocator.pageBitmap.size
  disjoint : s.live.Pairwise fun b c => Disjoint b.frames c.frames
  aligned : ∀ b ∈ s.live, ∃ first, 0 < first ∧ b.page = first * PMM.pageSize ∧ 0 < b.count
  inside : ∀ b ∈ s.live, ∀ i ∈ b.frames, usable i
  used_iff : ∀ i, s.allocator.used i = true ↔ (∃ b ∈ s.live, i ∈ b.frames) ∨ ¬usable i

variable {usable : ℕ → Prop} {s : FramePool}

/-- A free frame is usable and in no live block. -/
theorem Accounted.of_free (h : Accounted usable s) {i : ℕ} (hi : s.allocator.used i = false) :
    usable i ∧ ∀ b ∈ s.live, i ∉ b.frames := by
  have hnot : ¬((∃ b ∈ s.live, i ∈ b.frames) ∨ ¬usable i) := by
    rw [← h.used_iff, hi]
    decide
  push Not at hnot
  exact ⟨hnot.2, hnot.1⟩

/-- A live block fits below the top of the bitmap. -/
theorem Accounted.fits (h : Accounted usable s) {first count : ℕ} (hcount : 0 < count)
    (hb : (⟨first * PMM.pageSize, count⟩ : Block) ∈ s.live) :
    first + count ≤ s.allocator.pageBitmap.size := by
  have hlast := h.usable_lt _ (h.inside _ hb (first + count - 1) (Block.mem_frames.mpr (by omega)))
  omega

/-- A successful `AllocatePages` adds a block of frames nobody held. -/
theorem Accounted.allocated (h : Accounted usable s) {allocator : BitmapAllocator}
    {first count : ℕ} (hcount : 0 < count)
    (halloc : s.allocator.Allocated allocator first count) :
    Accounted usable ⟨allocator, ⟨first * PMM.pageSize, count⟩ :: s.live⟩ := by
  have hfresh : ∀ i, first ≤ i ∧ i < first + count → usable i ∧ ∀ b ∈ s.live, i ∉ b.frames :=
    fun i hi => h.of_free (halloc.free i hi.1 hi.2)
  refine ⟨halloc.wf, fun i hi => halloc.size_eq ▸ h.usable_lt i hi, ?_, ?_, ?_, fun i => ?_⟩
  · refine List.pairwise_cons.mpr ⟨fun b hb => ?_, h.disjoint⟩
    exact Set.disjoint_left.mpr fun i hi => (hfresh i (Block.mem_frames.mp hi)).2 b hb
  · intro b hb
    rcases List.mem_cons.mp hb with rfl | hb
    · exact ⟨first, halloc.frame_pos, rfl, hcount⟩
    · exact h.aligned b hb
  · intro b hb i hi
    rcases List.mem_cons.mp hb with rfl | hb
    · exact (hfresh i (Block.mem_frames.mp hi)).1
    · exact h.inside b hb i hi
  · rw [halloc.used_iff, h.used_iff]
    simp only [List.mem_cons, exists_eq_or_imp, Block.mem_frames]
    rw [or_right_comm, or_comm (a := ∃ b ∈ s.live, i ∈ b.frames)]

/-- Freeing a live block gives exactly its frames back. -/
theorem Accounted.freed (h : Accounted usable s) {page count : ℕ}
    (hb : (⟨page, count⟩ : Block) ∈ s.live) :
    Accounted usable ⟨s.allocator.freePages page count, s.live.erase ⟨page, count⟩⟩ := by
  obtain ⟨first, hfirst, hpage, hcount⟩ := h.aligned _ hb
  obtain rfl : page = first * PMM.pageSize := hpage
  have hfit := h.fits hcount hb
  -- distinct live blocks share no frame, so a frame of the freed block is in no other one
  have hother : ∀ i, first ≤ i ∧ i < first + count →
      ∀ b ∈ s.live.erase ⟨first * PMM.pageSize, count⟩, i ∉ b.frames := by
    intro i hi b hmem hib
    have hperm := List.perm_cons_erase hb
    have hpair : ((⟨first * PMM.pageSize, count⟩ : Block) ::
        s.live.erase ⟨first * PMM.pageSize, count⟩).Pairwise
          fun b c => Disjoint b.frames c.frames :=
      (hperm.pairwise_iff fun {b c} hbc => hbc.symm).mp h.disjoint
    have hdisj := (List.pairwise_cons.mp hpair).1 b hmem
    exact Set.disjoint_left.mp hdisj (Block.mem_frames.mpr hi) hib
  have hsize : (s.allocator.freePages (first * PMM.pageSize) count).pageBitmap.size =
      s.allocator.pageBitmap.size := by
    rw [BitmapAllocator.freePages]
    split <;> simp
  refine ⟨h.wf.freePages hfirst hfit, fun i hi => hsize ▸ h.usable_lt i hi, ?_, ?_, ?_,
    fun i => ?_⟩
  · exact h.disjoint.sublist List.erase_sublist
  · exact fun b hmem => h.aligned b (List.mem_of_mem_erase hmem)
  · exact fun b hmem => h.inside b (List.mem_of_mem_erase hmem)
  · rw [BitmapAllocator.used_freePages h.wf hfirst hfit, h.used_iff]
    constructor
    · rintro ⟨⟨b, hmem, hib⟩ | hnot, hout⟩
      · refine .inl ⟨b, ?_, hib⟩
        refine (List.mem_erase_of_ne ?_).mpr hmem
        rintro rfl
        exact hout (Block.mem_frames.mp hib)
      · exact .inr hnot
    · rintro (⟨b, hmem, hib⟩ | hnot)
      · exact ⟨.inl ⟨b, List.mem_of_mem_erase hmem, hib⟩, fun hin => hother i hin b hmem hib⟩
      · refine ⟨.inr hnot, fun hin => hnot ?_⟩
        exact h.inside _ hb i (Block.mem_frames.mpr hin)

/-- An `AllocatePages` that finds nothing changes nothing that the agreement is about. -/
theorem Accounted.of_pageBitmap_eq (h : Accounted usable s) {allocator : BitmapAllocator}
    (hwf : allocator.Wf) (hbitmap : allocator.pageBitmap = s.allocator.pageBitmap) :
    Accounted usable ⟨allocator, s.live⟩ :=
  ⟨hwf, fun i hi => by simpa [hbitmap] using h.usable_lt i hi, h.disjoint, h.aligned, h.inside,
    fun i => by simpa [BitmapAllocator.used, hbitmap] using h.used_iff i⟩

/-- Every disciplined call keeps bitmap and blocks in agreement. -/
theorem Accounted.step (h : Accounted usable s) {call : Call} {s' : FramePool}
    (hok : FreesLiveBlocks s call) (hs : s.step call = some s') : Accounted usable s' := by
  cases call with
  | allocatePages count =>
    rw [FramePool.step] at hs
    rcases BitmapAllocator.allocatePages_spec h.wf count with
      ⟨first, a', hcount, hcall, halloc⟩ | ⟨a', hcall, hwf, hbitmap⟩
    · rw [hcall] at hs
      have hne : first * PMM.pageSize ≠ 0 := Nat.mul_ne_zero halloc.frame_pos.ne' (by decide)
      simp only [if_neg hne, Option.some.injEq] at hs
      subst hs
      exact h.allocated hcount halloc
    · rw [hcall] at hs
      simp only [if_true, Option.some.injEq] at hs
      subst hs
      exact h.of_pageBitmap_eq hwf hbitmap
  | freePages page count =>
    obtain rfl : _ = s' := by simpa [FramePool.step] using hs
    exact h.freed hok

end FramePool

/-! ## The allocator after `Initialize` -/

namespace MemoryMap

/-- The usable entries begin and end on page boundaries. -/
def UsableAligned (memoryMap : MemoryMap) : Prop :=
  ∀ z ∈ memoryMap, z.type = .usable → PMM.pageSize ∣ z.base ∧ PMM.pageSize ∣ z.length

/-- A frame that may be handed out: it lies inside a usable entry and is not frame 0, which is
indistinguishable from the null pointer. -/
def UsableFrame (memoryMap : MemoryMap) (i : ℕ) : Prop :=
  i ≠ 0 ∧ ∃ z ∈ memoryMap, z.type = .usable ∧
    z.base ≤ i * PMM.pageSize ∧ (i + 1) * PMM.pageSize ≤ z.base + z.length

end MemoryMap

namespace BitmapAllocator

@[simp] theorem accountZone_pageSize (a : BitmapAllocator) (z : MemoryZone) :
    (a.accountZone z).pageSize = a.pageSize := by
  rw [accountZone]
  split <;> rfl

@[simp] theorem accountZone_lastIndex (a : BitmapAllocator) (z : MemoryZone) :
    (a.accountZone z).lastIndex = a.lastIndex := by
  rw [accountZone]
  split <;> rfl

theorem accountZone_usableMemoryTop (a : BitmapAllocator) (z : MemoryZone) :
    (a.accountZone z).usableMemoryTop =
      if z.type = .usable then max a.usableMemoryTop (z.base + z.length)
      else a.usableMemoryTop := by
  rw [accountZone]
  cases z.type <;> simp [offset_of_lt z.top_lt]

/-- What the first loop of `Initialize` computes: the cursor and the page size stay, and the usable
top covers every usable entry. -/
theorem foldl_accountZone (memoryMap : MemoryMap) (a : BitmapAllocator)
    (ha : a.usableMemoryTop < wordCount) :
    (memoryMap.foldl accountZone a).pageSize = a.pageSize ∧
    (memoryMap.foldl accountZone a).lastIndex = a.lastIndex ∧
    (memoryMap.foldl accountZone a).usableMemoryTop < wordCount ∧
    a.usableMemoryTop ≤ (memoryMap.foldl accountZone a).usableMemoryTop ∧
    ∀ z ∈ memoryMap, z.type = .usable →
      z.base + z.length ≤ (memoryMap.foldl accountZone a).usableMemoryTop := by
  induction memoryMap generalizing a with
  | nil => exact ⟨rfl, rfl, ha, le_rfl, by simp⟩
  | cons z zs ih =>
    have htop := accountZone_usableMemoryTop a z
    have hz := z.top_lt
    obtain ⟨hsize, hlast, hlt, hle, hall⟩ := ih (a.accountZone z) (by
      rw [htop]
      split <;> omega)
    rw [List.foldl_cons]
    refine ⟨by rw [hsize, accountZone_pageSize], by rw [hlast, accountZone_lastIndex], hlt, ?_, ?_⟩
    · refine le_trans ?_ hle
      rw [htop]
      split <;> omega
    · intro w hw husable
      rcases List.mem_cons.mp hw with rfl | hw
      · rw [if_pos husable] at htop
        omega
      · exact hall w hw husable

/-- Stepping through a zone page by page clears a range of bits. -/
theorem foldl_clearPages (bitmap : Bitmap) (b page n : ℕ) :
    (List.range' (page * PMM.pageSize) n PMM.pageSize).foldl
        (fun bitmap page => bitmap.setIndex ((b * PMM.pageSize + page) / PMM.pageSize) false)
        bitmap =
      bitmap.setRange (b + page) n false := by
  induction n generalizing bitmap page with
  | zero => rfl
  | succ n ih =>
    have hindex : (b * PMM.pageSize + page * PMM.pageSize) / PMM.pageSize = b + page := by
      rw [← Nat.add_mul, Nat.mul_div_cancel _ (by decide)]
    have hnext : page * PMM.pageSize + PMM.pageSize = (page + 1) * PMM.pageSize :=
      (Nat.succ_mul _ _).symm
    rw [List.range'_succ, List.foldl_cons, hnext, ih, Bitmap.setRange, Bitmap.setRange,
      List.range'_succ, List.foldl_cons, hindex]
    rfl

/-- The second loop of `Initialize` on one aligned usable entry: all its frames but frame 0. -/
theorem getIndex_clearZone {z : MemoryZone} (husable : z.type = .usable)
    (haligned : PMM.pageSize ∣ z.base ∧ PMM.pageSize ∣ z.length) (bitmap : Bitmap)
    (hfit : z.base + z.length ≤ bitmap.size * PMM.pageSize) (i : ℕ) :
    (clearZone PMM.pageSize bitmap z).getIndex i = false ↔
      bitmap.getIndex i = false ∨
        (i ≠ 0 ∧ z.base ≤ i * PMM.pageSize ∧ (i + 1) * PMM.pageSize ≤ z.base + z.length) := by
  obtain ⟨⟨b, hb⟩, ⟨l, hl⟩⟩ := haligned
  rw [Nat.mul_comm] at hb hl
  have hfirst : firstPage z = (if b = 0 then 1 else 0) * PMM.pageSize := by
    rw [firstPage, hb]
    by_cases h0 : b = 0
    · simp [h0, PMM.pageSize]
    · rw [if_neg (Nat.mul_ne_zero h0 (by decide)), if_neg h0, Nat.zero_mul]
  have hcount : divRoundUp (z.length - firstPage z) PMM.pageSize = l - if b = 0 then 1 else 0 := by
    rw [hfirst, hl, ← Nat.sub_mul, divRoundUp, PMM.pageSize]
    omega
  rw [clearZone, if_neg (by simp [husable]), hcount, hfirst]
  simp only [hb]
  rw [foldl_clearPages, Bitmap.getIndex_setRange]
  rw [hb, hl] at hfit
  rw [hl]
  simp only [PMM.pageSize] at hfit ⊢
  have hrange : ((b + (if b = 0 then 1 else 0) ≤ i ∧
      i < b + (if b = 0 then 1 else 0) + (l - if b = 0 then 1 else 0)) ∧ i < bitmap.size) ↔
      (i ≠ 0 ∧ b * 4096 ≤ i * 4096 ∧ (i + 1) * 4096 ≤ b * 4096 + l * 4096) := by
    by_cases h0 : b = 0
    · simp only [h0, if_true]
      omega
    · simp only [h0, if_false]
      omega
  by_cases hin : (b + (if b = 0 then 1 else 0) ≤ i ∧
      i < b + (if b = 0 then 1 else 0) + (l - if b = 0 then 1 else 0)) ∧ i < bitmap.size
  · rw [if_pos hin]
    exact iff_of_true rfl (.inr (hrange.mp hin))
  · rw [if_neg hin, ← hrange]
    exact ⟨.inl, fun h => h.resolve_right hin⟩

theorem size_clearZone (bitmap : Bitmap) (z : MemoryZone) (n : ℕ) :
    (clearZone n bitmap z).size = bitmap.size := by
  rw [clearZone]
  split
  · rfl
  · exact List.foldlRecOn (motive := fun b : Bitmap => b.size = bitmap.size) _ _ rfl
      fun b hb page _ => (Bitmap.size_setIndex _ _ _).trans hb

/-- What the second loop of `Initialize` leaves free: the usable frames. -/
theorem getIndex_foldl_clearZone {memoryMap : MemoryMap}
    (haligned : MemoryMap.UsableAligned memoryMap) (bitmap : Bitmap)
    (hfit : ∀ z ∈ memoryMap, z.type = .usable → z.base + z.length ≤ bitmap.size * PMM.pageSize)
    (i : ℕ) :
    (memoryMap.foldl (clearZone PMM.pageSize) bitmap).getIndex i = false ↔
      bitmap.getIndex i = false ∨ MemoryMap.UsableFrame memoryMap i := by
  induction memoryMap generalizing bitmap with
  | nil => simp [MemoryMap.UsableFrame]
  | cons z zs ih =>
    have hsize := size_clearZone bitmap z PMM.pageSize
    rw [List.foldl_cons, ih (fun w hw => haligned w (List.mem_cons_of_mem _ hw)) _ (by
      intro w hw husable
      rw [hsize]
      exact hfit w (List.mem_cons_of_mem _ hw) husable)]
    by_cases husable : z.type = .usable
    · rw [getIndex_clearZone husable (haligned z List.mem_cons_self husable) bitmap
        (hfit z List.mem_cons_self husable)]
      simp only [MemoryMap.UsableFrame, List.mem_cons, exists_eq_or_imp, husable, true_and]
      rw [and_or_left, or_assoc]
    · rw [clearZone, if_pos husable]
      simp only [MemoryMap.UsableFrame, List.mem_cons, exists_eq_or_imp, husable, false_and,
        false_or]

/-- The bitmap of a freshly initialised allocator: exactly the usable frames are free. -/
theorem freshBitmap_spec {memoryMap : MemoryMap} (haligned : MemoryMap.UsableAligned memoryMap)
    {top : ℕ} (htop : ∀ z ∈ memoryMap, z.type = .usable → z.base + z.length ≤ top) :
    (memoryMap.foldl (clearZone PMM.pageSize)
      (Bitmap.allocateSet (top / PMM.pageSize))).size = top / PMM.pageSize ∧
    ∀ i, (memoryMap.foldl (clearZone PMM.pageSize)
      (Bitmap.allocateSet (top / PMM.pageSize))).getIndex i = false ↔
        MemoryMap.UsableFrame memoryMap i := by
  constructor
  · exact List.foldlRecOn (motive := fun b : Bitmap => b.size = top / PMM.pageSize) _ _
      (Bitmap.size_allocateSet _) fun b hb z _ => (size_clearZone b z PMM.pageSize).trans hb
  · intro i
    rw [getIndex_foldl_clearZone haligned]
    · simp
    · intro z hz husable
      have hle := htop z hz husable
      obtain ⟨⟨b, hb⟩, ⟨l, hl⟩⟩ := haligned z hz husable
      rw [hb, hl] at hle ⊢
      simp only [Bitmap.size_allocateSet, PMM.pageSize] at hle ⊢
      omega

/-- After `Initialize` no block is live and exactly the usable frames are free. -/
theorem accounted_initializeWith {memoryMap : MemoryMap}
    (haligned : MemoryMap.UsableAligned memoryMap) {a : BitmapAllocator}
    (hinit : initializeWith memoryMap PMM.pageSize = .ok a) :
    FramePool.Accounted (MemoryMap.UsableFrame memoryMap) ⟨a, []⟩ := by
  obtain ⟨hsize, hlast, hlt, -, htop⟩ :=
    foldl_accountZone memoryMap (uninitialized PMM.pageSize) (by decide)
  rw [initializeWith, if_neg (by decide)] at hinit
  dsimp only at hinit
  generalize memoryMap.foldl accountZone (uninitialized PMM.pageSize) = counted at *
  obtain ⟨hbitmap, hfree⟩ := freshBitmap_spec haligned htop
  generalize memoryMap.foldl (clearZone PMM.pageSize)
    (Bitmap.allocateSet (counted.usableMemoryTop / PMM.pageSize)) = bitmap at *
  split at hinit
  · cases hinit
  split at hinit
  · cases hinit
  injection hinit with hinit
  subst hinit
  have hps : counted.pageSize = PMM.pageSize := hsize
  have hused : ∀ i, bitmap.getIndex i = true ↔ ¬MemoryMap.UsableFrame memoryMap i := by
    intro i
    rw [← hfree, Bool.not_eq_false]
  refine ⟨⟨hps, ?_, hlt, ?_, ?_⟩, fun i hi => ?_, List.Pairwise.nil, ?_, ?_, fun i => ?_⟩
  · rw [hps]
    exact hbitmap
  · rw [hlast]
    exact Nat.zero_le _
  · exact (hused 0).mpr fun h => h.1 rfl
  · exact lt_size_of_free ((hfree i).mpr hi)
  · exact fun _ hb => absurd hb List.not_mem_nil
  · exact fun _ hb => absurd hb List.not_mem_nil
  · rw [used, hused]
    simp only [List.not_mem_nil, false_and, exists_false, false_or]

end BitmapAllocator

/-- In every run of the frame allocator that frees only live blocks, the live blocks are pairwise
disjoint runs of usable frames without frame 0, and a bit of the bitmap is set exactly when its
frame is in a live block or was never usable. Entries of the memory map may even overlap. -/
theorem framePool_blocks_exact {memoryMap : MemoryMap}
    (haligned : MemoryMap.UsableAligned memoryMap) {a : BitmapAllocator}
    (hinit : BitmapAllocator.initializeWith memoryMap PMM.pageSize = .ok a) {s : FramePool}
    (hrun : Reaches FramePool.step FramePool.FreesLiveBlocks ⟨a, []⟩ s) :
    s.live.Pairwise (fun b c => Disjoint b.frames c.frames) ∧
    (∀ b ∈ s.live, PMM.pageSize ∣ b.page ∧ 0 < b.count ∧ 0 ∉ b.frames ∧
      ∀ i ∈ b.frames, MemoryMap.UsableFrame memoryMap i) ∧
    ∀ i, s.allocator.used i = true ↔
      (∃ b ∈ s.live, i ∈ b.frames) ∨ ¬MemoryMap.UsableFrame memoryMap i := by
  have h : FramePool.Accounted (MemoryMap.UsableFrame memoryMap) s :=
    hrun.invariant (BitmapAllocator.accounted_initializeWith haligned hinit)
      fun _ _ _ hs hok hstep => hs.step hok hstep
  refine ⟨h.disjoint, fun b hb => ?_, h.used_iff⟩
  obtain ⟨first, -, hpage, hcount⟩ := h.aligned b hb
  exact ⟨⟨first, by rw [hpage, Nat.mul_comm]⟩, hcount, fun h0 => (h.inside b hb 0 h0).1 rfl,
    h.inside b hb⟩

/-- A machine with four page frames, all of them usable. -/
def fourFrames : MemoryMap := [⟨0, 0x4000, .usable, by decide⟩]

theorem framePool_blocks_exact_fourFrames : ∃ a s,
    BitmapAllocator.initializeWith fourFrames PMM.pageSize = .ok a ∧
    Reaches.runList FramePool.step FramePool.FreesLiveBlocks ⟨a, []⟩
      [.allocatePages 2, .freePages 0x1000 2, .allocatePages 1] = some s ∧
    s.live = [⟨0x3000, 1⟩] ∧
    ∀ i, s.allocator.used i = true ↔
      (∃ b ∈ s.live, i ∈ b.frames) ∨ ¬MemoryMap.UsableFrame fourFrames i := by
  have haligned : MemoryMap.UsableAligned fourFrames := by
    intro z hz _
    obtain rfl := List.mem_singleton.mp hz
    decide
  refine ⟨_, _, rfl, rfl, rfl, ?_⟩
  exact (framePool_blocks_exact haligned rfl
    (.of_list [.allocatePages 2, .freePages 0x1000 2, .allocatePages 1] rfl)).2.2

end Cryptix.Memory
