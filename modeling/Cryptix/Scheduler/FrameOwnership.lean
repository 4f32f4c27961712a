import Cryptix.Scheduler.SpaceGrowth

/-!
# Who frees which frames

Two calls give frames back: `Exec`, for the regions of the old image, and `~Thread`, for the stacks
and the FPU storage. Neither does it right. `Exec` leaves the regions in the address space, with
their physical bases. `~Thread` passes the addresses that the thread runs on: the FPU storage by
its address in the higher half, the kernel stacks by their tops. `freesProperly_along_iff` shows
that a run is free of bad frees exactly when it frees no frame at all.
-/

namespace Cryptix.Scheduler

open Memory Prism Lib FrameLedger

namespace Kernel

/-- Some region of a process that has not exited is backed by a frame of the block. -/
def Backs (k : Kernel) (b : Block) : Prop :=
  ∃ pid process, (pid, process) ∈ k.processes ∧
    ∃ r ∈ process.user.addressSpace.regions, ¬Disjoint r.frames b.frames

/-- The arguments of a sequence of `FreePages` calls, made while `live` are the live blocks: each
is a live block by its physical base and page count, and backs no region. A call with the null
pointer or without pages passes no frame. -/
def Proper (k : Kernel) : (live : List Block) → List Block → Prop
  | _, [] => True
  | live, b :: rest =>
    if b.page = 0 ∨ b.count = 0 then k.Proper live rest
    else b ∈ live ∧ ¬k.Backs b ∧ k.Proper (live.erase b) rest

/-- The arguments of the `FreePages` calls that a call makes, in order. -/
def frees (k : Kernel) : Call → List Block
  | .exec pid _ => ((k.processes.lookup pid).map execFrees).getD []
  | .destroyThread tid => ((k.threads tid).map Thread.frees).getD []
  | _ => []

/-- A call that frees only what is allocated, as it was allocated, and backs no region. -/
def FreesProperly (k : Kernel) (call : Call) : Prop := k.Proper k.memory.live (k.frees call)

/-- A call that frees no frame: no `~Thread`, and an `Exec` only of a process whose regions have no
backing. -/
def FreesNothing (k : Kernel) : Call → Prop
  | .exec pid _ => ∀ process, k.processes.lookup pid = some process →
      ∀ r ∈ process.user.addressSpace.regions, r.frames = ∅
  | .destroyThread tid => k.threads tid = none
  | _ => True

/-- Each block of a proper sequence that has a frame was live from the start. -/
theorem Proper.mem {k : Kernel} {live blocks : List Block} (h : k.Proper live blocks) {b : Block}
    (hb : b ∈ blocks) (hpage : b.page ≠ 0) (hcount : b.count ≠ 0) : b ∈ live ∧ ¬k.Backs b := by
  induction blocks generalizing live with
  | nil => exact absurd hb List.not_mem_nil
  | cons c rest ih =>
    unfold Proper at h
    rcases List.mem_cons.mp hb with rfl | hrest
    · rw [if_neg (by omega)] at h
      exact ⟨h.1, h.2.1⟩
    · split at h
      · exact ih h hrest
      · obtain ⟨hmem, hbacks⟩ := ih h.2.2 hrest
        exact ⟨List.mem_of_mem_erase hmem, hbacks⟩

/-- A sequence that passes no frame is proper. -/
theorem proper_of_no_frame (k : Kernel) {live blocks : List Block}
    (h : ∀ b ∈ blocks, b.page = 0 ∨ b.count = 0) : k.Proper live blocks := by
  induction blocks with
  | nil => trivial
  | cons b rest ih =>
    unfold Proper
    rw [if_pos (h b List.mem_cons_self)]
    exact ih fun c hc => h c (List.mem_cons_of_mem _ hc)

end Kernel

/-- A region has no frames when it has no backing or no pages. -/
theorem frames_eq_empty_iff (r : Region) :
    r.frames = ∅ ↔ r.block.page = 0 ∨ r.block.count = 0 := by
  unfold Region.frames
  split
  · rename_i h
    exact ⟨fun _ => .inl h, fun _ => rfl⟩
  · rename_i h
    rw [Block.frames, Set.Ico_eq_empty_iff]
    constructor
    · intro hle
      exact .inr (by omega)
    · rintro (hpage | hcount)
      · exact absurd hpage h
      · omega

instance (k : Kernel) : (call : Kernel.Call) → Decidable (k.FreesNothing call)
  | .exec pid _ =>
    decidable_of_iff ((k.processes.lookup pid).all fun process =>
        process.user.addressSpace.regions.all fun r => r.block.page = 0 ∨ r.block.count = 0) (by
      simp [Kernel.FreesNothing, Option.all_eq_true, frames_eq_empty_iff])
  | .destroyThread tid =>
    decidable_of_iff ((k.threads tid).isNone = true) (by simp [Kernel.FreesNothing])
  | .createProcess | .createThread _ | .createUserThread _ | .startProgram _ _ | .mMap _ _
  | .pageFault _ _ | .write _ _ _ | .fork _ _ | .exit _ => inferInstanceAs (Decidable True)

/-! ## Growth of the ledger -/

section Growth

variable {usable : ℕ → Prop} {f f' : FrameLedger} {m : Machine}

theorem Thread.grows_ofUser (h : FramePool.Accounted usable f.pool) (parent : ℕ)
    (process : Process) : Grows usable f (ofUser m f parent process).2.2 := by
  have hstack := Extends.callocatePages h CPU.userStackPages
  unfold ofUser
  dsimp only
  exact (hstack.trans (extends_prepare hstack.accounted parent _)).toGrows

theorem Thread.grows_ofProgram (h : FramePool.Accounted usable f.pool) (parent : ℕ)
    (process : Process) (stackData : List UInt8) :
    Grows usable f (ofProgram m f parent process stackData).2.2 := by
  have hstack := (Extends.callocatePages h CPU.userStackPages).toGrows
  unfold ofProgram
  dsimp only
  refine Grows.trans (hstack.store _ stackData) (Extends.toGrows (extends_prepare ?_ parent _))
  exact hstack.accounted

theorem Kernel.grows_forkRegion {range : Region} {s s' : FrameLedger × UserSpace}
    (h : FramePool.Accounted usable s.1.pool) (hs : forkRegion m s range = some s') :
    Grows usable s.1 s'.1 := by
  have hcall := Extends.callocatePages h (alignUp range.size PMM.pageSize / PMM.pageSize)
  unfold forkRegion at hs
  dsimp only at hs
  split at hs
  · cases hs
  · obtain rfl := Option.some.inj hs
    exact hcall.toGrows.copy _ _ _

theorem Thread.grows_foldl_forkStack (h : FramePool.Accounted usable f.pool)
    (userStacks : List Region) (table : LeafTable) (forked : List Region) :
    Grows usable f (userStacks.foldl (forkStack m) (f, table, forked)).1 := by
  induction userStacks generalizing f table forked with
  | nil => exact .refl h
  | cons stack rest ih =>
    rw [List.foldl_cons]
    have hcall := Extends.callocatePages h (alignUp stack.size PMM.pageSize / PMM.pageSize)
    have hstack := hcall.toGrows.copy
      (f.callocatePages (alignUp stack.size PMM.pageSize / PMM.pageSize)).1 stack.physicalBase
      stack.size
    exact hstack.trans (ih hstack.accounted _ _)

theorem Thread.grows_fork (h : FramePool.Accounted usable f.pool) (current : Thread)
    (table : LeafTable) (child : ℕ) : Grows usable f (current.fork m f table child).2.1 := by
  unfold fork
  dsimp only
  have hprepare := (extends_prepare (m := m) h child []).toGrows
  have hkernel := hprepare.trans
    (Extends.callocatePages hprepare.accounted CPU.kernelStackPages).toGrows
  have hfault := hkernel.trans
    (Extends.callocatePages hkernel.accounted CPU.kernelStackPages).toGrows
  have hstacks := hfault.trans
    (grows_foldl_forkStack (m := m) hfault.accounted current.userStacks table [])
  have hfpu := hstacks.trans
    (Extends.callocatePages hstacks.accounted current.fpuStoragePageCount).toGrows
  exact hfpu.copy _ _ _

/-- A `FreePages` call that passes no frame does nothing. -/
theorem freePages_of_no_frame (h : FramePool.Accounted usable f.pool) {b : Block}
    (hb : b.page = 0 ∨ b.count = 0) : f.freePages m.paging b.page b.count = f := by
  have hfree : f.physical.freePages m.paging b.page b.count = f.physical := by
    unfold PhysicalMemory.freePages BitmapAllocator.freePages
    rw [if_pos]
    rcases hb with hpage | hcount
    · rw [hpage, m.paging.fromHigherHalfAddress_zero]
      exact .inr rfl
    · exact .inl hcount
  have hnot : (⟨m.paging.fromHigherHalfAddress b.page, b.count⟩ : Block) ∉ f.live := by
    intro hmem
    obtain ⟨first, hfirst, hpage, hcount⟩ := h.aligned _ hmem
    rcases hb with hzero | hzero
    · have hpos : 0 < first * PMM.pageSize := Nat.mul_pos hfirst (by decide)
      rw [← hpage] at hpos
      rw [hzero, m.paging.fromHigherHalfAddress_zero] at hpos
      exact absurd hpos (lt_irrefl 0)
    · exact absurd hzero hcount.ne'
  unfold FrameLedger.freePages
  rw [hfree, List.erase_of_not_mem hnot]

theorem Kernel.freeAll_of_no_frame (h : FramePool.Accounted usable f.pool) {blocks : List Block}
    (hblocks : ∀ b ∈ blocks, b.page = 0 ∨ b.count = 0) : freeAll m f blocks = f := by
  induction blocks with
  | nil => rfl
  | cons b rest ih =>
    unfold freeAll at ih ⊢
    rw [List.foldl_cons, freePages_of_no_frame h (hblocks b List.mem_cons_self)]
    exact ih fun c hc => hblocks c (List.mem_cons_of_mem _ hc)

end Growth

/-! ## Stack tops are no block addresses -/

/-- The usable frames end at `top`, and the direct map has room for them and one kernel stack more
on either side. -/
structure DirectMap (m : Machine) (usable : ℕ → Prop) (top : ℕ) : Prop where
  below : ∀ i, usable i → (i + 1) * PMM.pageSize ≤ top
  under : top + CPU.kernelStackSize < m.paging.higherHalfOffset.toNat
  fits : m.paging.higherHalfOffset.toNat + top + CPU.kernelStackSize < wordCount

/-- An address below the direct map, in the direct map. -/
theorem toHigherHalfAddress_of_lt {cfg : Paging} {a : ℕ} (h : a < cfg.higherHalfOffset.toNat)
    (hfits : cfg.higherHalfOffset.toNat + a < wordCount) :
    cfg.toHigherHalfAddress a = cfg.higherHalfOffset.toNat + a := by
  unfold wordCount at hfits
  have ha : (BitVec.ofNat 64 a).toNat = a := by
    rw [BitVec.toNat_ofNat, Nat.mod_eq_of_lt (by omega)]
  unfold Paging.toHigherHalfAddress Paging.toHigherHalf
  rw [if_neg (by rw [BitVec.le_def, ha]; omega), BitVec.toNat_add, ha,
    Nat.mod_eq_of_lt (by omega), Nat.add_comm]

section StackTops

variable {usable : ℕ → Prop} {f : FrameLedger} {m : Machine} {top : ℕ}

/-- A live block ends at `top` or before. -/
theorem DirectMap.block_le (hmap : DirectMap m usable top)
    (h : FramePool.Accounted usable f.pool) {b : Block} (hb : b ∈ f.live) :
    b.page + b.count * PMM.pageSize ≤ top := by
  obtain ⟨page, count⟩ := b
  obtain ⟨first, -, hpage, hcount⟩ := h.aligned _ hb
  obtain rfl : page = first * PMM.pageSize := hpage
  replace hcount : 0 < count := hcount
  have hlast := hmap.below _ (h.inside _ hb (first + count - 1)
    (Block.mem_frames.mpr ⟨by omega, by omega⟩))
  rwa [show first + count - 1 + 1 = first + count by omega, Nat.add_mul] at hlast

/-- An allocation returns an address below the direct map; null is one, too. -/
theorem DirectMap.page_le (hmap : DirectMap m usable top) {f' : FrameLedger} {page count : ℕ}
    (h : Hands usable f f' page count ∨ page = 0 ∧ Extends usable f f') : page ≤ top := by
  rcases h with hhands | ⟨rfl, -⟩
  · exact (Nat.le_add_right _ _).trans (hmap.block_le hhands.accounted hhands.mem)
  · exact Nat.zero_le _

/-- The kernel stack pointer of a new thread is in the higher half. -/
theorem DirectMap.le_kernelStack_prepare (hmap : DirectMap m usable top)
    (h : FramePool.Accounted usable f.pool) (parent : ℕ) (userStacks : List Region) :
    m.paging.higherHalfOffset.toNat ≤ (Thread.prepare m f parent userStacks).1.kernelStack := by
  have hle := hmap.page_le (allocatePages_spec h CPU.kernelStackPages)
  have hunder := hmap.under
  have hfits := hmap.fits
  unfold Thread.prepare
  dsimp only
  rw [offset_of_lt (by omega), toHigherHalfAddress_of_lt (by omega) (by omega)]
  exact Nat.le_add_right _ _

/-- The kernel stack pointer of a forked thread is in the higher half. -/
theorem DirectMap.le_kernelStack_fork (hmap : DirectMap m usable top)
    (h : FramePool.Accounted usable f.pool) (current : Thread) (table : LeafTable) (child : ℕ) :
    m.paging.higherHalfOffset.toNat ≤ (current.fork m f table child).1.kernelStack := by
  have hprepare := Thread.extends_prepare (m := m) h child []
  have hle := hmap.page_le (callocatePages_spec hprepare.accounted CPU.kernelStackPages)
  have hunder := hmap.under
  have hfits := hmap.fits
  have hpos : 0 < CPU.kernelStackSize := by decide
  unfold Thread.fork
  dsimp only
  rw [toHigherHalfAddress_of_lt (by omega) (by omega), offset_of_lt (by omega)]
  omega

/-- The same for a user thread. -/
theorem DirectMap.le_kernelStack_ofUser (hmap : DirectMap m usable top)
    (h : FramePool.Accounted usable f.pool) (parent : ℕ) (process : Process) :
    m.paging.higherHalfOffset.toNat ≤ (Thread.ofUser m f parent process).1.kernelStack := by
  have hstack := Extends.callocatePages h CPU.userStackPages
  unfold Thread.ofUser
  dsimp only
  exact hmap.le_kernelStack_prepare hstack.accounted parent _

/-- The same for the thread of a program. -/
theorem DirectMap.le_kernelStack_ofProgram (hmap : DirectMap m usable top)
    (h : FramePool.Accounted usable f.pool) (parent : ℕ) (process : Process)
    (stackData : List UInt8) : m.paging.higherHalfOffset.toNat ≤
      (Thread.ofProgram m f parent process stackData).1.kernelStack := by
  have hstack := Extends.callocatePages h CPU.userStackPages
  unfold Thread.ofProgram
  dsimp only
  exact hmap.le_kernelStack_prepare (Grows.store hstack.toGrows _ _).accounted parent _

end StackTops

/-! ## Runs -/

namespace Kernel

/-- The ledger is right, and no thread has a kernel stack pointer that could be the address of a
block. -/
structure Owned (m : Machine) (usable : ℕ → Prop) (k : Kernel) : Prop where
  accounted : FramePool.Accounted usable k.memory.pool
  tops : ∀ tid t, k.threads tid = some t → m.paging.higherHalfOffset.toNat ≤ t.kernelStack

variable {m : Machine} {usable : ℕ → Prop} {top : ℕ} {k k' : Kernel}

/-- A ledger that grew, with threads that keep their kernel stacks or get one in the higher half. -/
theorem Owned.of_grows (h : Owned m usable k) (hgrows : Grows usable k.memory k'.memory)
    (hthreads : ∀ tid t, k'.threads tid = some t →
      (∃ t', k.threads tid = some t' ∧ t.kernelStack = t'.kernelStack) ∨
      m.paging.higherHalfOffset.toNat ≤ t.kernelStack) : Owned m usable k' := by
  refine ⟨hgrows.accounted, fun tid t ht => ?_⟩
  rcases hthreads tid t ht with ⟨t', ht', heq⟩ | hle
  · rw [heq]
    exact h.tops tid t' ht'
  · exact hle

/-- A new thread next to the old ones. -/
theorem Owned.addThread (h : Owned m usable k) {memory : FrameLedger} {thread : Thread}
    (hgrows : Grows usable k.memory memory)
    (hle : m.paging.higherHalfOffset.toNat ≤ thread.kernelStack)
    (processes : OrderedMap ℕ Process) (nextProcess : ℕ) :
    Owned m usable (Kernel.addThread
      { k with memory := memory, processes := processes, nextProcess := nextProcess } thread) := by
  refine h.of_grows hgrows fun tid t ht => ?_
  unfold Kernel.addThread at ht
  dsimp only at ht
  rw [Function.update_apply] at ht
  split at ht
  · obtain rfl := Option.some.inj ht
    exact .inr hle
  · exact .inl ⟨t, ht, rfl⟩

theorem Owned.startProgram (h : Owned m usable k) (hmap : DirectMap m usable top) {pid : ℕ}
    {process : Process} {program : Program}
    (hs : k.startProgram m pid process program = some k') : Owned m usable k' := by
  obtain ⟨⟨loaded, f, user⟩, hload, hrest⟩ := Option.bind_eq_some_iff.mp hs
  have hgrows := (Program.spaceExtends_load h.accounted hload).toGrows
  dsimp only at hrest
  split at hrest
  · obtain rfl := Option.some.inj hrest
    exact h.of_grows hgrows fun tid t ht => .inl ⟨t, ht, rfl⟩
  · have hthread := Thread.grows_ofProgram (m := m) hgrows.accounted pid
      { process with user := user } program.stackData
    have htop := hmap.le_kernelStack_ofProgram hgrows.accounted pid { process with user := user }
      program.stackData
    generalize Thread.ofProgram m f pid { process with user := user } program.stackData = created
      at hthread htop hrest
    obtain rfl := Option.some.inj hrest
    exact h.addThread (hgrows.trans hthread) htop _ _

theorem Owned.fork (h : Owned m usable k) (hmap : DirectMap m usable top) {process : Process}
    {current : Thread} (hs : k.fork m process current = some k') : Owned m usable k' := by
  obtain ⟨⟨f, user⟩, hregions, hrest⟩ := Option.bind_eq_some_iff.mp hs
  have hgrows : Grows usable k.memory f :=
    foldlM_invariant (P := fun s => Grows usable k.memory s.1) hregions (.refl h.accounted)
      fun _ _ _ _ hgrows hstep => hgrows.trans (grows_forkRegion hgrows.accounted hstep)
  have hthread := Thread.grows_fork (m := m) hgrows.accounted current user.pageTable k.nextProcess
  have htop := hmap.le_kernelStack_fork hgrows.accounted current user.pageTable k.nextProcess
  dsimp only at hrest
  generalize current.fork m f user.pageTable k.nextProcess = forked at hthread htop hrest
  obtain rfl := Option.some.inj hrest
  exact h.addThread (hgrows.trans hthread) htop _ _

theorem Owned.pageFault (h : Owned m usable k) (pid : ℕ) (process : Process) (address : ℕ) :
    Owned m usable (k.pageFault m pid process address) := by
  unfold Kernel.pageFault
  split
  · exact h
  · rename_i region _
    have hgrows := (Extends.callocatePages h.accounted
      (divRoundUp region.size PMM.pageSize)).toGrows
    dsimp only
    split
    · exact h.of_grows hgrows fun tid t ht => .inl ⟨t, ht, rfl⟩
    · refine h.of_grows hgrows fun tid t ht => ?_
      obtain ⟨t', ht', rfl⟩ := Option.map_eq_some_iff.mp ht
      exact .inl ⟨t', ht', rfl⟩

/-- `Exec` of a process without backed regions frees nothing. -/
theorem no_frame_of_frames_eq_empty {process : Process}
    (h : ∀ r ∈ process.user.addressSpace.regions, r.frames = ∅) :
    ∀ b ∈ execFrees process, b.page = 0 ∨ b.count = 0 := by
  intro b hb
  obtain ⟨r, hr, rfl⟩ := List.mem_map.mp hb
  exact (frames_eq_empty_iff r).mp (h r hr)

/-- Every call that frees nothing keeps the ledger right. -/
theorem Owned.step (h : Owned m usable k) (hmap : DirectMap m usable top) {call : Call}
    (hcall : k.FreesNothing call) (hs : k.step m call = some k') : Owned m usable k' := by
  have hsame : ∀ tid t, k.threads tid = some t →
      (∃ t', k.threads tid = some t' ∧ t.kernelStack = t'.kernelStack) ∨
      m.paging.higherHalfOffset.toNat ≤ t.kernelStack := fun tid t ht => .inl ⟨t, ht, rfl⟩
  cases call with
  | createProcess =>
    obtain rfl := Option.some.inj hs
    exact h.of_grows (.refl h.accounted) hsame
  | createThread pid =>
    obtain ⟨process, -, rfl⟩ := Option.map_eq_some_iff.mp hs
    have hthread := (Thread.extends_prepare (m := m) h.accounted pid []).toGrows
    have htop := hmap.le_kernelStack_prepare h.accounted pid []
    unfold Kernel.createThread
    generalize Thread.prepare m k.memory pid [] = created at hthread htop ⊢
    exact h.addThread hthread htop _ _
  | createUserThread pid =>
    obtain ⟨process, -, rfl⟩ := Option.map_eq_some_iff.mp hs
    have hthread := Thread.grows_ofUser (m := m) h.accounted pid process
    have htop := hmap.le_kernelStack_ofUser h.accounted pid process
    unfold Kernel.createUserThread
    generalize Thread.ofUser m k.memory pid process = created at hthread htop ⊢
    exact h.addThread hthread htop _ _
  | startProgram pid program =>
    obtain ⟨process, -, hstart⟩ := Option.bind_eq_some_iff.mp hs
    exact h.startProgram hmap hstart
  | mMap pid req =>
    obtain ⟨process, -, hrest⟩ := Option.bind_eq_some_iff.mp hs
    obtain ⟨⟨r, user⟩, -, heq⟩ := Option.bind_eq_some_iff.mp hrest
    obtain rfl := Option.some.inj heq
    exact h.of_grows (.refl h.accounted) hsame
  | pageFault pid address =>
    obtain ⟨process, -, rfl⟩ := Option.map_eq_some_iff.mp hs
    exact h.pageFault pid process address
  | write pid address value =>
    obtain ⟨process, -, hrest⟩ := Option.bind_eq_some_iff.mp hs
    obtain ⟨phys, -, heq⟩ := Option.bind_eq_some_iff.mp hrest
    obtain rfl := Option.some.inj heq
    exact h.of_grows (Grows.store (.refl h.accounted) phys [value]) hsame
  | fork pid tid =>
    obtain ⟨process, -, hrest⟩ := Option.bind_eq_some_iff.mp hs
    obtain ⟨current, -, hfork⟩ := Option.bind_eq_some_iff.mp hrest
    split at hfork
    · exact h.fork hmap hfork
    · cases hfork
  | exec pid program =>
    obtain ⟨process, hprocess, hexec⟩ := Option.bind_eq_some_iff.mp hs
    unfold Kernel.exec at hexec
    rw [freeAll_of_no_frame h.accounted (no_frame_of_frames_eq_empty (hcall process hprocess))]
      at hexec
    exact h.startProgram hmap hexec
  | exit pid =>
    obtain ⟨process, -, rfl⟩ := Option.map_eq_some_iff.mp hs
    exact h.of_grows (.refl h.accounted) hsame
  | destroyThread tid =>
    obtain ⟨thread, hthread, -⟩ := Option.map_eq_some_iff.mp hs
    have hnone : k.threads tid = none := hcall
    rw [hnone] at hthread
    cases hthread

/-- Where the ledger is right, a call frees properly exactly when it frees nothing. -/
theorem Owned.freesProperly_iff (h : Owned m usable k) (hmap : DirectMap m usable top)
    (call : Call) : k.FreesProperly call ↔ k.FreesNothing call := by
  unfold FreesProperly
  cases call with
  | exec pid program =>
    cases hprocess : k.processes.lookup pid with
    | none =>
      have hfrees : k.frees (.exec pid program) = [] := by
        rw [frees, hprocess]
        rfl
      rw [hfrees]
      refine ⟨fun _ process hsome => ?_, fun _ => trivial⟩
      rw [hprocess] at hsome
      cases hsome
    | some process =>
      have hfrees : k.frees (.exec pid program) = execFrees process := by
        rw [frees, hprocess]
        rfl
      rw [hfrees]
      constructor
      · intro hproper process' hsome r hr
        rw [hprocess] at hsome
        obtain rfl := Option.some.inj hsome
        by_contra hne
        have hframe := mt (frames_eq_empty_iff r).mpr hne
        push Not at hframe
        -- the region itself is still there
        refine (Proper.mem hproper (List.mem_map_of_mem hr) hframe.1 hframe.2).2
          ⟨pid, process, OrderedMap.lookup_eq_some.mp hprocess, r, hr, ?_⟩
        have hphys : ¬r.physicalBase = 0 := hframe.1
        rw [show r.block.frames = r.frames from (if_neg hphys).symm, disjoint_self]
        exact hne
      · intro hall
        exact proper_of_no_frame k (no_frame_of_frames_eq_empty (hall process hprocess))
  | destroyThread tid =>
    cases hthread : k.threads tid with
    | none =>
      have hfrees : k.frees (.destroyThread tid) = [] := by
        rw [frees, hthread]
        rfl
      rw [hfrees]
      exact ⟨fun _ => hthread, fun _ => trivial⟩
    | some thread =>
      have hfrees : k.frees (.destroyThread tid) = thread.frees := by
        rw [frees, hthread]
        rfl
      rw [hfrees]
      constructor
      · intro hproper
        have hle := h.tops tid thread hthread
        have hunder := hmap.under
        -- the top of the kernel stack is no address of a block
        have hmem := (Proper.mem hproper
          (b := ⟨thread.kernelStack, divRoundUp CPU.kernelStackSize PMM.pageSize⟩)
          (List.mem_append_right _ (by simp)) (by dsimp only; omega)
          (show divRoundUp CPU.kernelStackSize PMM.pageSize ≠ 0 by decide)).1
        have hblock := hmap.block_le h.accounted hmem
        dsimp only at hblock
        omega
      · intro hnone
        have hnone : k.threads tid = none := hnone
        rw [hthread] at hnone
        cases hnone
  | _ => exact ⟨fun _ => trivial, fun _ => trivial⟩

/-- From a right ledger, a run frees properly exactly when it frees nothing. -/
theorem Owned.along_iff (h : Owned m usable k) (hmap : DirectMap m usable top)
    (calls : List Call) :
    Along (Kernel.step m) FreesProperly k calls ↔ Along (Kernel.step m) FreesNothing k calls :=
  Along.congr h Along.anyCall (fun _ call h _ => h.freesProperly_iff hmap call)
    fun _ _ _ h _ hcall hs => h.step hmap hcall hs

/-- The ledger is right on a machine that has just started its processes. -/
theorem owned_boot {pool : FramePool} (h : FramePool.Accounted usable pool) (bytes : ℕ → UInt8) :
    Owned m usable (boot pool bytes) :=
  ⟨h, fun tid t ht => by cases ht⟩

/-- A 4-level machine whose FPU state takes one page. -/
def smallMachine : Machine := ⟨⟨.level4, 0xffff800000000000, true⟩, 512⟩

/-- 112 usable frames. -/
def smallMemory : MemoryMap := [⟨0, 0x70000, .usable, by decide⟩]

/-- A program whose file does not exist. -/
def missing : Program := ⟨none, none, [], Nat.zero_le CPU.userStackSize⟩

theorem usableAligned_smallMemory : MemoryMap.UsableAligned smallMemory := by
  intro z hz _
  obtain rfl := List.mem_singleton.mp hz
  decide

theorem directMap_smallMemory :
    DirectMap smallMachine (MemoryMap.UsableFrame smallMemory) 0x70000 := by
  refine ⟨?_, by decide, by decide⟩
  rintro i ⟨-, z, hz, -, -, hle⟩
  obtain rfl := List.mem_singleton.mp hz
  simpa using hle

/-- The frame allocator of that memory. -/
def smallMemoryAllocator : BitmapAllocator :=
  (BitmapAllocator.initializeWith smallMemory PMM.pageSize).toOption.getD (.uninitialized 0)

/-- The calls of a process that forks and then calls `Exec` without having touched its memory. -/
def forkExecCalls : List Call :=
  [.createProcess, .createThread 1, .mMap 1 UserMemory.onePage, .fork 1 1, .exec 1 missing, .exit 1]

theorem runs_smallMemory :
    BitmapAllocator.initializeWith smallMemory PMM.pageSize = .ok smallMemoryAllocator ∧
      Along (step smallMachine) FreesNothing (boot ⟨smallMemoryAllocator, []⟩ fun _ => 0)
        forkExecCalls ∧
      ¬Along (step smallMachine) FreesNothing (boot ⟨smallMemoryAllocator, []⟩ fun _ => 0)
        [.createProcess, .createThread 1, .destroyThread 1] := by
  decide +kernel

theorem initializeWith_smallMemory :
    BitmapAllocator.initializeWith smallMemory PMM.pageSize = .ok smallMemoryAllocator :=
  runs_smallMemory.1

end Kernel

end Cryptix.Scheduler
