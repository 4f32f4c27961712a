import Cryptix.Memory.UserMemory

/-!
# Physical memory with its live blocks

The kernel keeps no list of the frames it has handed out. A `FrameLedger` adds one to the physical
memory, so that "this address was allocated and not freed since" can be said. Code that only
allocates, and writes only into what it allocated, relates the ledgers before and after by
`Extends`: the live blocks stay live and their bytes stay as they were.
-/

namespace Cryptix.Memory

open Prism Lib

/-- Physical memory and the blocks that are handed out. -/
structure FrameLedger where
  physical : PhysicalMemory
  live : List Block

namespace FrameLedger

/-- The ledger without the bytes. -/
def pool (f : FrameLedger) : FramePool := ⟨f.physical.allocator, f.live⟩

/-- The byte at a physical address. -/
def byte (f : FrameLedger) (a : ℕ) : UInt8 := f.physical.bytes a

/-- `PMM::AllocatePages`. -/
def allocatePages (f : FrameLedger) (count : ℕ) : ℕ × FrameLedger :=
  let (pages, allocator) := f.physical.allocator.allocatePages count
  (pages, ⟨{ f.physical with allocator := allocator },
    if pages = 0 then f.live else ⟨pages, count⟩ :: f.live⟩)

/-- `PMM::CallocatePages`. -/
def callocatePages (f : FrameLedger) (count : ℕ) : ℕ × FrameLedger :=
  let (pages, physical) := f.physical.callocatePages count
  (pages, ⟨physical, if pages = 0 then f.live else ⟨pages, count⟩ :: f.live⟩)

/-- `PMM::FreePages` of a `Pointer`. -/
def freePages (cfg : Paging) (f : FrameLedger) (page count : ℕ) : FrameLedger :=
  ⟨f.physical.freePages cfg page count,
    f.live.erase ⟨cfg.fromHigherHalfAddress page, count⟩⟩

/-- `Memory::Copy` from one place of the direct map to another. -/
def copy (f : FrameLedger) (dst src count : ℕ) : FrameLedger :=
  { f with physical := { f.physical with
      bytes := fun i => if dst ≤ i ∧ i < dst + count then f.physical.bytes (src + (i - dst))
        else f.physical.bytes i } }

/-- `Memory::Copy` of data from elsewhere into the direct map. -/
def store (f : FrameLedger) (dst : ℕ) (data : List UInt8) : FrameLedger :=
  { f with physical := { f.physical with
      bytes := fun i => if dst ≤ i ∧ i < dst + data.length then data.getD (i - dst) 0
        else f.physical.bytes i } }

/-! ## Growth -/

/-- The allocator still agrees with the live blocks, and none was taken back. -/
structure Grows (usable : ℕ → Prop) (f f' : FrameLedger) : Prop where
  accounted : FramePool.Accounted usable f'.pool
  live : ∀ b ∈ f.live, b ∈ f'.live

/-- Growth that leaves the bytes of all live blocks alone. -/
structure Extends (usable : ℕ → Prop) (f f' : FrameLedger) : Prop extends Grows usable f f' where
  keeps : ∀ b ∈ f.live, ∀ a, a / PMM.pageSize ∈ b.frames → f'.byte a = f.byte a

/-- A physical address of a page that is in a live block of `f'` but was in none of `f`. -/
def New (f f' : FrameLedger) (p : ℕ) : Prop :=
  ∃ frame, p = frame * PMM.pageSize ∧ (∃ b ∈ f'.live, frame ∈ b.frames) ∧
    ∀ b ∈ f.live, frame ∉ b.frames

variable {usable : ℕ → Prop} {f f' f'' : FrameLedger} {p page count : ℕ}

theorem Grows.refl (h : FramePool.Accounted usable f.pool) : Grows usable f f := ⟨h, fun _ => id⟩

theorem Grows.trans (h : Grows usable f f') (h' : Grows usable f' f'') : Grows usable f f'' :=
  ⟨h'.accounted, fun b hb => h'.live b (h.live b hb)⟩

/-- Bytes do not matter for growth. -/
theorem Grows.copy (h : Grows usable f f') (dst src count : ℕ) :
    Grows usable f (f'.copy dst src count) :=
  ⟨h.accounted, h.live⟩

theorem Grows.store (h : Grows usable f f') (dst : ℕ) (data : List UInt8) :
    Grows usable f (f'.store dst data) :=
  ⟨h.accounted, h.live⟩

theorem Extends.refl (h : FramePool.Accounted usable f.pool) : Extends usable f f :=
  ⟨.refl h, fun _ _ _ _ => rfl⟩

theorem Extends.trans (h : Extends usable f f') (h' : Extends usable f' f'') :
    Extends usable f f'' :=
  ⟨h.toGrows.trans h'.toGrows,
    fun b hb a ha => (h'.keeps b (h.live b hb) a ha).trans (h.keeps b hb a ha)⟩

theorem New.mono (h : New f f' p) (hlive : ∀ b ∈ f'.live, b ∈ f''.live) : New f f'' p := by
  obtain ⟨frame, hp, ⟨b, hb, hmem⟩, hnot⟩ := h
  exact ⟨frame, hp, ⟨b, hlive b hb, hmem⟩, hnot⟩

theorem New.of_grown (hlive : ∀ b ∈ f.live, b ∈ f'.live) (h : New f' f'' p) : New f f'' p := by
  obtain ⟨frame, hp, hmem, hnot⟩ := h
  exact ⟨frame, hp, hmem, fun b hb => hnot b (hlive b hb)⟩

/-! ## Allocation -/

/-- `f'` is `f` after one more block was handed out and possibly written to. -/
structure Hands (usable : ℕ → Prop) (f f' : FrameLedger) (page count : ℕ) : Prop
    extends Extends usable f f' where
  mem : ⟨page, count⟩ ∈ f'.live
  fresh : ∀ b ∈ f.live, Disjoint (Block.frames ⟨page, count⟩) b.frames

/-- Where a block that was handed out lies. -/
theorem Hands.bounds (h : Hands usable f f' page count) :
    ∃ first, 0 < first ∧ page = first * PMM.pageSize ∧ 0 < count ∧
      (first + count) * PMM.pageSize < wordCount := by
  obtain ⟨first, hfirst, hpage, hcount⟩ := h.accounted.aligned _ h.mem
  obtain rfl : page = first * PMM.pageSize := hpage
  exact ⟨first, hfirst, rfl, hcount,
    h.accounted.wf.frame_mul_lt (h.accounted.fits hcount h.mem)⟩

/-- The pages of a new block are new. -/
theorem Hands.new (h : Hands usable f f' page count) {i : ℕ} (hi : i < count) :
    New f f' (offset page (i * PMM.pageSize)) := by
  obtain ⟨first, -, rfl, -, hfit⟩ := h.bounds
  have hlt : first * PMM.pageSize + i * PMM.pageSize < wordCount := by
    rw [← Nat.add_mul]
    exact (Nat.mul_le_mul_right _ (by omega)).trans_lt hfit
  have hin : first + i ∈ Block.frames ⟨first * PMM.pageSize, count⟩ :=
    Block.mem_frames.mpr (by omega)
  refine ⟨first + i, ?_, ⟨_, h.mem, hin⟩, fun b hb hmem => ?_⟩
  · rw [offset_of_lt hlt, Nat.add_mul]
  · exact Set.disjoint_left.mp (h.fresh b hb) hin hmem

/-- Writing inside a new block: allocator and ledger stay, bytes change only in the block. -/
theorem Hands.write (h : Hands usable f f' page count) (hpool : f''.pool = f'.pool)
    (hbyte : ∀ a, ¬(page ≤ a ∧ a < page + count * PMM.pageSize) → f''.byte a = f'.byte a) :
    Hands usable f f'' page count := by
  have hlive : f''.live = f'.live := congrArg FramePool.live hpool
  obtain ⟨first, -, rfl, -, -⟩ := h.bounds
  refine ⟨⟨⟨hpool ▸ h.accounted, fun b hb => hlive ▸ h.live b hb⟩, fun b hb a ha => ?_⟩,
    hlive ▸ h.mem, h.fresh⟩
  rw [hbyte a, h.keeps b hb a ha]
  intro hin
  refine Set.disjoint_left.mp (h.fresh b hb) (Block.mem_frames.mpr ?_) ha
  rw [← Nat.add_mul] at hin
  exact ⟨(Nat.le_div_iff_mul_le (by decide)).mpr hin.1, Nat.div_lt_of_lt_mul (by
    rw [Nat.mul_comm]; exact hin.2)⟩

theorem Hands.copy (h : Hands usable f f' page count) (src : ℕ) {n : ℕ}
    (hn : n ≤ count * PMM.pageSize) : Hands usable f (f'.copy page src n) page count :=
  h.write rfl fun _ ha => if_neg fun hin => ha ⟨hin.1, by omega⟩

theorem Hands.store (h : Hands usable f f' page count) (dst : ℕ) (data : List UInt8)
    (hdst : page ≤ dst) (hdata : dst + data.length ≤ page + count * PMM.pageSize) :
    Hands usable f (f'.store dst data) page count :=
  h.write rfl fun _ ha => if_neg fun hin => ha ⟨by omega, by omega⟩

/-- A block that the allocator found. -/
theorem hands_of_allocated (h : FramePool.Accounted usable f.pool) {first : ℕ}
    (physical : PhysicalMemory) (hcount : 0 < count)
    (halloc : f.physical.allocator.Allocated physical.allocator first count)
    (hbyte : ∀ a, ¬(first * PMM.pageSize ≤ a ∧ a < first * PMM.pageSize + count * PMM.pageSize) →
      physical.bytes a = f.physical.bytes a) :
    Hands usable f ⟨physical, ⟨first * PMM.pageSize, count⟩ :: f.live⟩
      (first * PMM.pageSize) count := by
  have haccounted := h.allocated hcount halloc
  have hfresh := (List.pairwise_cons.mp haccounted.disjoint).1
  have hplain : Hands usable f
      ⟨{ physical with bytes := f.physical.bytes }, ⟨first * PMM.pageSize, count⟩ :: f.live⟩
      (first * PMM.pageSize) count :=
    ⟨⟨⟨haccounted, fun b hb => List.mem_cons_of_mem _ hb⟩, fun _ _ _ _ => rfl⟩,
      List.mem_cons_self, hfresh⟩
  exact hplain.write rfl hbyte

/-- `AllocatePages` hands out a new block, or returns null and changes nothing of note. -/
theorem allocatePages_spec (h : FramePool.Accounted usable f.pool) (count : ℕ) :
    Hands usable f (f.allocatePages count).2 (f.allocatePages count).1 count ∨
    ((f.allocatePages count).1 = 0 ∧ Extends usable f (f.allocatePages count).2) := by
  unfold allocatePages
  rcases BitmapAllocator.allocatePages_spec h.wf count with
    ⟨first, a', hcount, hcall, halloc⟩ | ⟨a', hcall, hwf, hbitmap⟩
  · have hne : first * PMM.pageSize ≠ 0 := Nat.mul_ne_zero halloc.frame_pos.ne' (by decide)
    rw [show f.physical.allocator.allocatePages count = _ from hcall]
    dsimp only
    rw [if_neg hne]
    exact .inl (hands_of_allocated h ⟨a', f.physical.bytes⟩ hcount halloc fun _ _ => rfl)
  · rw [show f.physical.allocator.allocatePages count = _ from hcall]
    exact .inr ⟨rfl, ⟨h.of_pageBitmap_eq hwf hbitmap, fun _ => id⟩, fun _ _ _ _ => rfl⟩

/-- `CallocatePages` hands out a new block, or returns null and changes nothing of note. -/
theorem callocatePages_spec (h : FramePool.Accounted usable f.pool) (count : ℕ) :
    Hands usable f (f.callocatePages count).2 (f.callocatePages count).1 count ∨
    ((f.callocatePages count).1 = 0 ∧ Extends usable f (f.callocatePages count).2) := by
  unfold callocatePages
  rcases PhysicalMemory.callocatePages_spec h.wf count with
    ⟨first, m', hcount, hcall, halloc, hbytes⟩ | ⟨m', hcall, hwf, hbitmap, hbytes⟩
  · have hne : first * PMM.pageSize ≠ 0 := Nat.mul_ne_zero halloc.frame_pos.ne' (by decide)
    rw [show f.physical.callocatePages count = _ from hcall]
    dsimp only
    rw [if_neg hne]
    refine .inl (hands_of_allocated h m' hcount halloc fun a ha => ?_)
    rw [hbytes]
    exact if_neg (by rwa [Nat.mul_comm PMM.pageSize count])
  · rw [show f.physical.callocatePages count = _ from hcall]
    refine .inr ⟨rfl, ⟨h.of_pageBitmap_eq hwf hbitmap, fun _ => id⟩, fun _ _ _ _ => ?_⟩
    exact congrFun hbytes _

theorem Extends.allocatePages (h : FramePool.Accounted usable f.pool) (count : ℕ) :
    Extends usable f (f.allocatePages count).2 := by
  rcases allocatePages_spec h count with hhands | ⟨-, hext⟩
  · exact hhands.toExtends
  · exact hext

theorem Extends.callocatePages (h : FramePool.Accounted usable f.pool) (count : ℕ) :
    Extends usable f (f.callocatePages count).2 := by
  rcases callocatePages_spec h count with hhands | ⟨-, hext⟩
  · exact hhands.toExtends
  · exact hext

/-! ## Requests that are known to be served -/

/-- Whether the frame allocator can serve these requests one after the other. -/
def serves : BitmapAllocator → List ℕ → Bool
  | _, [] => true
  | a, count :: rest =>
    (a.allocatePages count).1 != 0 && serves (a.allocatePages count).2 rest

theorem callocatePages_eq_allocatePages (f : FrameLedger) (count : ℕ) :
    (f.callocatePages count).1 = (f.physical.allocator.allocatePages count).1 ∧
    (f.callocatePages count).2.physical.allocator =
      (f.physical.allocator.allocatePages count).2 := by
  unfold callocatePages PhysicalMemory.callocatePages
  dsimp only
  split
  · rename_i hzero
    exact ⟨hzero.symm, rfl⟩
  · exact ⟨rfl, rfl⟩

/-- A `CallocatePages` that was known to be served. -/
theorem hands_callocatePages (h : FramePool.Accounted usable f.pool) {rest : List ℕ}
    (hserves : serves f.physical.allocator (count :: rest) = true) :
    Hands usable f (f.callocatePages count).2 (f.callocatePages count).1 count ∧
      serves (f.callocatePages count).2.physical.allocator rest = true := by
  obtain ⟨hpage, hallocator⟩ := f.callocatePages_eq_allocatePages count
  rw [serves, Bool.and_eq_true, bne_iff_ne, ← hpage, ← hallocator] at hserves
  rcases callocatePages_spec h count with hhands | ⟨hzero, -⟩
  · exact ⟨hhands, hserves.2⟩
  · exact absurd hzero hserves.1

/-- An `AllocatePages` that was known to be served leaves the rest to be served. -/
theorem serves_allocatePages {rest : List ℕ}
    (hserves : serves f.physical.allocator (count :: rest) = true) :
    serves (f.allocatePages count).2.physical.allocator rest = true :=
  (Bool.and_eq_true_iff.mp hserves).2

end FrameLedger

end Cryptix.Memory
