import Cryptix.Scheduler.Process

/-!
# How the memory of a process grows

Loading a program, creating a thread and handling a page fault all do the same to a process: frames
that nobody had are handed out, written, mapped and put among the regions. `SpaceExtends` says it
once, for the ledger and the user space together, and every such step is an instance.
-/

namespace Cryptix.Scheduler

open Memory Prism Lib FrameLedger

/-- A region of whole pages whose backing, if it has one, is a live block. -/
structure Settled (f : FrameLedger) (r : Region) : Prop where
  dvd : PMM.pageSize ∣ r.size
  lt : r.size < wordCount
  backing : r.physicalBase ≠ 0 → r.block ∈ f.live

/-- The ledger grew, new entries of the page table point to new frames, and the regions stay
settled. -/
structure SpaceExtends (usable : ℕ → Prop) (s s' : FrameLedger × UserSpace) : Prop
    extends Extends usable s.1 s'.1 where
  entries : ∀ e p, s'.2.pageTable e = some p → s.2.pageTable e = some p ∨ New s.1 s'.1 p
  settled : (∀ r ∈ s.2.addressSpace.regions, Settled s.1 r) →
    ∀ r ∈ s'.2.addressSpace.regions, Settled s'.1 r

theorem divRoundUp_mul_pageSize (n : ℕ) : divRoundUp (n * PMM.pageSize) PMM.pageSize = n := by
  unfold divRoundUp PMM.pageSize
  omega

theorem Settled.mono {f f' : FrameLedger} {r : Region} (h : Settled f r)
    (hlive : ∀ b ∈ f.live, b ∈ f'.live) : Settled f' r :=
  ⟨h.dvd, h.lt, fun hne => hlive _ (h.backing hne)⟩

/-- `Fork` and `HandlePageFault` count the pages of a region alike. -/
theorem Settled.alignUp_div {f : FrameLedger} {r : Region} (h : Settled f r) :
    alignUp r.size PMM.pageSize / PMM.pageSize = divRoundUp r.size PMM.pageSize ∧
    divRoundUp r.size PMM.pageSize * PMM.pageSize = r.size := by
  obtain ⟨n, hn⟩ := h.dvd
  rw [Nat.mul_comm] at hn
  have hlt := h.lt
  rw [hn] at hlt
  unfold alignUp roundUp
  rw [hn, divRoundUp_mul_pageSize, Nat.mod_eq_of_lt hlt, Nat.mul_div_cancel _ (by decide)]
  exact ⟨rfl, rfl⟩

/-- The regions after an insertion. -/
theorem mem_regions_insert {s : AddressSpace} {key : ℕ} {r q : Region}
    (h : q ∈ (s.insert key r).regions) : q = r ∨ q ∈ s.regions := by
  obtain ⟨k, hk⟩ := AddressSpace.mem_regions.mp h
  rcases OrderedMap.mem_insert.mp hk with ⟨-, rfl⟩ | ⟨-, hk⟩
  · exact .inl rfl
  · exact .inr (AddressSpace.mem_regions.mpr ⟨k, hk⟩)

namespace SpaceExtends

variable {usable : ℕ → Prop} {s s' s'' : FrameLedger × UserSpace}

theorem refl (h : FramePool.Accounted usable s.1.pool) : SpaceExtends usable s s :=
  ⟨.refl h, fun _ _ => .inl, id⟩

theorem trans (h : SpaceExtends usable s s') (h' : SpaceExtends usable s' s'') :
    SpaceExtends usable s s'' := by
  refine ⟨h.toExtends.trans h'.toExtends, fun e p hp => ?_, fun hs => h'.settled (h.settled hs)⟩
  rcases h'.entries e p hp with hold | hnew
  · rcases h.entries e p hold with hold | hnew
    · exact .inl hold
    · exact .inr (hnew.mono h'.live)
  · exact .inr (.of_grown h.live hnew)

/-- Growth of the ledger alone. -/
theorem of_extends {f f' : FrameLedger} (h : Extends usable f f') (u : UserSpace) :
    SpaceExtends usable (f, u) (f', u) :=
  ⟨h, fun _ _ => .inl, fun hs r hr => (hs r hr).mono h.live⟩

/-- A new block is mapped. -/
theorem map {f f' : FrameLedger} {phys count : ℕ} (h : Hands usable f f' phys count)
    (cfg : Paging) (u : UserSpace) (virt : ℕ) :
    SpaceExtends usable (f, u)
      (f', { u with pageTable := u.pageTable.mapPages cfg virt phys count }) := by
  refine ⟨h.toExtends, fun e p hp => ?_, fun hs r hr => (hs r hr).mono h.live⟩
  rcases LeafTable.mapPages_eq_some hp with hold | ⟨i, hi, -, rfl⟩
  · exact .inl hold
  · exact .inr (h.new hi)

/-- A settled region is put among the others. -/
theorem insert (h : SpaceExtends usable s s') (key : ℕ) {r : Region} (hr : Settled s'.1 r) :
    SpaceExtends usable s
      (s'.1, { s'.2 with addressSpace := s'.2.addressSpace.insert key r }) := by
  refine ⟨h.toExtends, h.entries, fun hs q hq => ?_⟩
  rcases mem_regions_insert hq with rfl | hold
  · exact hr
  · exact h.settled hs q hold

/-- A region with a new block as its backing. -/
theorem back {f f' : FrameLedger} {r : Region} {count : ℕ}
    (h : Hands usable f f' r.physicalBase count) (hsize : r.size = count * PMM.pageSize)
    (cfg : Paging) (u : UserSpace) (key virt : ℕ) :
    Settled f' r ∧ SpaceExtends usable (f, u)
      (f', { addressSpace := u.addressSpace.insert key r
             pageTable := u.pageTable.mapRange cfg virt r.physicalBase r.size }) := by
  obtain ⟨first, -, -, -, hfit⟩ := h.bounds
  have hpages : divRoundUp r.size PMM.pageSize = count := by
    rw [hsize, divRoundUp_mul_pageSize]
  have hsettled : Settled f' r := by
    refine ⟨⟨count, by rw [hsize, Nat.mul_comm]⟩, ?_, fun _ => ?_⟩
    · rw [Nat.add_mul] at hfit
      omega
    · unfold Region.block
      rw [hpages]
      exact h.mem
  refine ⟨hsettled, ?_⟩
  unfold LeafTable.mapRange
  rw [hpages]
  exact (map h cfg u virt).insert key hsettled

end SpaceExtends

/-! ## Programs and threads -/

section Instances

variable {usable : ℕ → Prop} {m : Machine} {f f' : FrameLedger}

theorem Segment.spaceExtends_load {loadBase : ℕ} {segment : Segment}
    {s s' : FrameLedger × UserSpace} (h : FramePool.Accounted usable s.1.pool)
    (hs : load m loadBase s segment = some s') : SpaceExtends usable s s' := by
  unfold load at hs
  dsimp only at hs
  split at hs
  · cases hs
  · rename_i hne
    obtain rfl := Option.some.inj hs
    rcases callocatePages_spec h segment.pageCount with hhands | ⟨hzero, -⟩
    · have hdata := segment.data_le
      have hpages : segment.memorySize + segment.virtualAddress % PMM.pageSize ≤
          segment.pageCount * PMM.pageSize := by
        unfold Segment.pageCount divRoundUp PMM.pageSize
        omega
      have hstored := hhands.store ((s.1.callocatePages segment.pageCount).1 +
        segment.virtualAddress % PMM.pageSize) segment.data (Nat.le_add_right _ _) (by omega)
      exact (SpaceExtends.back (r := ⟨offset segment.virtualAddress loadBase,
        segment.pageCount * PMM.pageSize, (s.1.callocatePages segment.pageCount).1,
        readWriteExecuteUser⟩) hstored rfl m.paging s.2 _ _).2
    · exact absurd hzero hne

theorem Segment.spaceExtends_foldlM {loadBase : ℕ} {segments : List Segment}
    {s s' : FrameLedger × UserSpace} (h : FramePool.Accounted usable s.1.pool)
    (hs : segments.foldlM (load m loadBase) s = some s') : SpaceExtends usable s s' :=
  foldlM_invariant (P := SpaceExtends usable s) hs (.refl h)
    fun _ _ _ _ hext hload => hext.trans (spaceExtends_load hext.accounted hload)

theorem Program.spaceExtends_load {program : Program} {user user' : UserSpace} {loaded : Bool}
    (h : FramePool.Accounted usable f.pool)
    (hload : program.load m f user = some (loaded, f', user')) :
    SpaceExtends usable (f, user) (f', user') := by
  unfold load at hload
  split at hload
  · obtain ⟨-, rfl, rfl⟩ := by simpa using hload
    exact .refl h
  · obtain ⟨s, himage, hrest⟩ := Option.bind_eq_some_iff.mp hload
    have hext := Segment.spaceExtends_foldlM (s := (f, user)) h himage
    split at hrest
    · obtain ⟨-, rfl⟩ := by simpa using hrest
      exact hext
    · obtain ⟨-, rfl⟩ := by simpa using hrest
      exact hext
    · obtain ⟨s', hinterpreter, heq⟩ := Option.bind_eq_some_iff.mp hrest
      obtain ⟨-, rfl⟩ := by simpa using heq
      exact hext.trans (Segment.spaceExtends_foldlM hext.accounted hinterpreter)

theorem Thread.extends_prepare (h : FramePool.Accounted usable f.pool) (parent : ℕ)
    (userStacks : List Region) : Extends usable f (prepare m f parent userStacks).2 := by
  have hkernel := Extends.allocatePages h CPU.kernelStackPages
  have hfault := Extends.allocatePages hkernel.accounted CPU.kernelStackPages
  exact (hkernel.trans hfault).trans (Extends.callocatePages hfault.accounted _)

/-- The allocator has room for the stack of a user thread. -/
def StackFits (f : FrameLedger) : Prop :=
  serves f.physical.allocator [CPU.userStackPages] = true

instance : Decidable (StackFits f) := inferInstanceAs (Decidable (_ = true))

/-- A user thread that got its stack. -/
theorem Thread.spaceExtends_ofUser (h : FramePool.Accounted usable f.pool) (hfits : StackFits f)
    (parent : ℕ) (process : Process) :
    SpaceExtends usable (f, process.user)
      ((ofUser m f parent process).2.2, (ofUser m f parent process).2.1.user) ∧
    ∀ r ∈ (ofUser m f parent process).1.userStacks,
      Settled (ofUser m f parent process).2.2 r := by
  have hhands := (hands_callocatePages h hfits).1
  unfold ofUser
  dsimp only
  generalize f.callocatePages CPU.userStackPages = stack at hhands ⊢
  have hback := SpaceExtends.back
    (r := ⟨wordSub process.userStackTop CPU.userStackSize, CPU.userStackSize, stack.1, {}⟩)
    hhands rfl m.paging process.user 0 0
  have hprepare := extends_prepare (m := m) hhands.accounted parent
    [⟨wordSub process.userStackTop CPU.userStackSize, CPU.userStackSize, stack.1, {}⟩]
  refine ⟨(SpaceExtends.map hhands m.paging process.user _).trans (.of_extends hprepare _),
    fun r hr => ?_⟩
  obtain rfl := List.mem_singleton.mp hr
  exact hback.1.mono hprepare.live

/-- The first thread of a program, if it got its stack. -/
theorem Thread.spaceExtends_ofProgram (h : FramePool.Accounted usable f.pool)
    (hfits : StackFits f) (parent : ℕ) (process : Process) {stackData : List UInt8}
    (hdata : stackData.length ≤ CPU.userStackSize) :
    SpaceExtends usable (f, process.user)
      ((ofProgram m f parent process stackData).2.2,
        (ofProgram m f parent process stackData).2.1.user) ∧
    ∀ r ∈ (ofProgram m f parent process stackData).1.userStacks,
      Settled (ofProgram m f parent process stackData).2.2 r := by
  have hhands := (hands_callocatePages h hfits).1
  unfold ofProgram
  dsimp only
  generalize f.callocatePages CPU.userStackPages = stack at hhands ⊢
  have hsize : CPU.userStackSize = CPU.userStackPages * PMM.pageSize := rfl
  have hstored := hhands.store (stack.1 + (CPU.userStackSize - stackData.length)) stackData
    (Nat.le_add_right _ _) (by omega)
  have hback := SpaceExtends.back (r := ⟨wordSub process.userStackTop CPU.userStackSize,
    CPU.userStackSize, stack.1, readWriteExecuteUser⟩) hstored rfl m.paging process.user
    (wordSub process.userStackTop CPU.userStackSize)
    (wordSub process.userStackTop CPU.userStackSize)
  have hprepare := extends_prepare (m := m) hstored.accounted parent
    [⟨wordSub process.userStackTop CPU.userStackSize, CPU.userStackSize, stack.1,
      readWriteExecuteUser⟩]
  refine ⟨hback.2.trans (.of_extends hprepare _), fun r hr => ?_⟩
  obtain rfl := List.mem_singleton.mp hr
  exact hback.1.mono hprepare.live

end Instances

end Cryptix.Scheduler
