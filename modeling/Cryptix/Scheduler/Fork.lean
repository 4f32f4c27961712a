import Cryptix.Scheduler.FrameOwnership

/-!
# `Fork` copies the memory of a process

What a process sees of memory goes through its page table; what `Fork` copies goes by the physical
bases of the regions. The two agree for a region that was touched once, and for the stack of a
program. They do not for a region that was never touched (its physical base is null, and `Fork`
copies from there), nor for the stack of a process that was itself made by `Fork`: `Thread::Fork`
maps a second copy there and leaves the region with the first.

`ForkReady` says when they agree. `Mirror` is the invariant of the two copying loops, and
`Isolated` that of the whole system: no frame is mapped by two processes.
-/

namespace Cryptix.Scheduler

open Memory Prism Lib FrameLedger

/-- A physical address of a page in a live block. -/
def Held (f : FrameLedger) (p : ℕ) : Prop :=
  ∃ frame, p = frame * PMM.pageSize ∧ ∃ b ∈ f.live, frame ∈ b.frames

section Held

variable {usable : ℕ → Prop} {f f' : FrameLedger} {p off : ℕ}

theorem Held.mono (h : Held f p) (hlive : ∀ b ∈ f.live, b ∈ f'.live) : Held f' p := by
  obtain ⟨frame, hp, b, hb, hmem⟩ := h
  exact ⟨frame, hp, b, hlive b hb, hmem⟩

/-- Growth leaves the bytes of held pages alone. -/
theorem Held.byte_eq (h : Held f p) (hext : Extends usable f f') (hoff : off < PMM.pageSize) :
    f'.byte (p + off) = f.byte (p + off) := by
  obtain ⟨frame, rfl, b, hb, hmem⟩ := h
  refine hext.keeps b hb _ ?_
  rwa [Nat.add_comm, Nat.add_mul_div_right _ _ (by decide), Nat.div_eq_of_lt hoff, Nat.zero_add]

theorem held_of_new (h : New f f' p) : Held f' p := by
  obtain ⟨frame, hp, hmem, -⟩ := h
  exact ⟨frame, hp, hmem⟩

theorem not_held_of_new (h : New f f' p) : ¬Held f p := by
  obtain ⟨frame, hp, -, hnot⟩ := h
  rintro ⟨frame', hp', b, hb, hmem⟩
  obtain rfl : frame = frame' := Nat.eq_of_mul_eq_mul_right (by decide) (hp.symm.trans hp')
  exact hnot b hb hmem

/-- The pages of a settled region with backing. -/
theorem Settled.held {r : Region} (h : Settled f r) (haccounted : FramePool.Accounted usable f.pool)
    (hbacked : r.physicalBase ≠ 0) {i : ℕ} (hi : i < divRoundUp r.size PMM.pageSize) :
    offset r.physicalBase (i * PMM.pageSize) = r.physicalBase + i * PMM.pageSize ∧
      Held f (r.physicalBase + i * PMM.pageSize) := by
  have hmem := h.backing hbacked
  obtain ⟨first, -, hpage, hcount⟩ := haccounted.aligned _ hmem
  replace hpage : r.physicalBase = first * PMM.pageSize := hpage
  replace hcount : 0 < divRoundUp r.size PMM.pageSize := hcount
  unfold Region.block at hmem
  rw [hpage] at hmem ⊢
  have hfit := haccounted.wf.frame_mul_lt (haccounted.fits hcount hmem)
  rw [← Nat.add_mul]
  refine ⟨?_, first + i, rfl, _, hmem, Block.mem_frames.mpr ⟨by omega, by omega⟩⟩
  rw [offset_of_lt, Nat.add_mul]
  rw [← Nat.add_mul]
  exact (Nat.mul_le_mul_right _ (by omega)).trans_lt hfit

end Held

/-! ## Copying -/

/-- A region with backing whose pages are mapped to it. -/
structure Mapped (m : Machine) (user : UserSpace) (r : Region) : Prop where
  backed : r.physicalBase ≠ 0
  pages : ∀ i < divRoundUp r.size PMM.pageSize,
    user.pageTable (LeafTable.index m.paging (offset r.virtualBase (i * PMM.pageSize))) =
      some (offset r.physicalBase (i * PMM.pageSize))

/-- The entry is that of a page of the region. -/
def Covers (m : Machine) (r : Region) (e : ℕ) : Prop :=
  ∃ i < divRoundUp r.size PMM.pageSize,
    e = LeafTable.index m.paging (offset r.virtualBase (i * PMM.pageSize))

/-- The child's page table so far: every page is one nobody had before, and has the bytes that the
parent's page at the same entry had when `Fork` was called, on the ledger `f₀`. -/
structure Mirror (parent : LeafTable) (f₀ f : FrameLedger) (child : LeafTable) : Prop where
  new : ∀ e q, child e = some q → New f₀ f q
  same : ∀ e q, child e = some q → ∃ p, parent e = some p ∧
    ∀ off < PMM.pageSize, f.byte (q + off) = f₀.byte (p + off)

section Copying

variable {usable : ℕ → Prop} {m : Machine} {user : UserSpace} {f₀ f f' : FrameLedger}
  {child : LeafTable}

theorem Mirror.extend (h : Mirror user.pageTable f₀ f child) (hext : Extends usable f f') :
    Mirror user.pageTable f₀ f' child := by
  refine ⟨fun e q hq => (h.new e q hq).mono hext.live, fun e q hq => ?_⟩
  obtain ⟨p, hp, hbytes⟩ := h.same e q hq
  refine ⟨p, hp, fun off hoff => ?_⟩
  rw [(held_of_new (h.new e q hq)).byte_eq hext hoff, hbytes off hoff]

/-- One region is copied to a new block and mapped. -/
theorem Mirror.copy (h : Mirror user.pageTable f₀ f child) (hext : Extends usable f₀ f)
    (haccounted : FramePool.Accounted usable f₀.pool) {r : Region} (hr : Settled f₀ r)
    (hmapped : Mapped m user r) {phys : ℕ}
    (hhands : Hands usable f f' phys (divRoundUp r.size PMM.pageSize)) :
    Extends usable f (f'.copy phys r.physicalBase r.size) ∧
    Mirror user.pageTable f₀ (f'.copy phys r.physicalBase r.size)
      (child.mapRange m.paging r.virtualBase phys r.size) ∧
    (∀ e, (child e).isSome → (child.mapRange m.paging r.virtualBase phys r.size e).isSome) ∧
    ∀ e, Covers m r e → (child.mapRange m.paging r.virtualBase phys r.size e).isSome := by
  have hsize := hr.alignUp_div.2
  have hcopied := hhands.copy r.physicalBase hsize.ge
  refine ⟨hcopied.toExtends, ⟨fun e q hq => ?_, fun e q hq => ?_⟩,
    fun e he => LeafTable.isSome_mapPages he, ?_⟩
  · rcases LeafTable.mapPages_eq_some hq with hold | ⟨i, hi, -, rfl⟩
    · exact (h.new e q hold).mono hcopied.live
    · exact .of_grown hext.live (hcopied.new hi)
  · rcases LeafTable.mapPages_eq_some hq with hold | ⟨i, hi, rfl, rfl⟩
    · exact (h.extend hcopied.toExtends).same e q hold
    · -- a page of the copy: the source is a held page of the parent
      obtain ⟨hoffset, hheld⟩ := hr.held haccounted hmapped.backed hi
      refine ⟨_, hmapped.pages i hi, fun off hoff => ?_⟩
      obtain ⟨first, -, hphys, -, hfit⟩ := hhands.bounds
      have hlt : phys + i * PMM.pageSize < wordCount := by
        rw [hphys, ← Nat.add_mul]
        exact (Nat.mul_le_mul_right _ (by omega)).trans_lt hfit
      have hin : i * PMM.pageSize + off < r.size := by
        rw [← hsize]
        calc i * PMM.pageSize + off < i * PMM.pageSize + PMM.pageSize := by omega
          _ = (i + 1) * PMM.pageSize := by rw [Nat.add_mul, Nat.one_mul]
          _ ≤ divRoundUp r.size PMM.pageSize * PMM.pageSize := Nat.mul_le_mul_right _ hi
      rw [offset_of_lt hlt, hoffset]
      have hcopy : (f'.copy phys r.physicalBase r.size).byte (phys + i * PMM.pageSize + off) =
          f'.byte (r.physicalBase + i * PMM.pageSize + off) := by
        unfold FrameLedger.copy FrameLedger.byte
        dsimp only
        rw [if_pos ⟨by omega, by omega⟩]
        congr 1
        omega
      rw [hcopy, (hheld.mono hext.live).byte_eq hhands.toExtends hoff, hheld.byte_eq hext hoff]
  · rintro e ⟨i, hi, rfl⟩
    exact LeafTable.isSome_mapPages_index hi

/-- What a piece of `Fork` does that starts on the ledger `f` with the child's table `child`. -/
structure Copied (usable : ℕ → Prop) (m : Machine) (user : UserSpace) (f₀ f f' : FrameLedger)
    (child child' : LeafTable) (copied : List Region) : Prop extends Extends usable f f' where
  mirror : Mirror user.pageTable f₀ f' child'
  kept : ∀ e, (child e).isSome → (child' e).isSome
  covered : ∀ r ∈ copied, ∀ e, Covers m r e → (child' e).isSome

theorem Copied.trans {f'' : FrameLedger} {child' child'' : LeafTable} {l l' : List Region}
    (h : Copied usable m user f₀ f f' child child' l)
    (h' : Copied usable m user f₀ f' f'' child' child'' l') :
    Copied usable m user f₀ f f'' child child'' (l ++ l') := by
  refine ⟨h.toExtends.trans h'.toExtends, h'.mirror, fun e he => h'.kept e (h.kept e he), ?_⟩
  intro r hr e he
  rcases List.mem_append.mp hr with hr | hr
  · exact h'.kept e (h.covered r hr e he)
  · exact h'.covered r hr e he

/-- The pages that `Fork` asks for to copy a region or a stack. -/
def copyPages (r : Region) : ℕ := alignUp r.size PMM.pageSize / PMM.pageSize

/-- A copy of one region, when its allocation is served. -/
theorem copied_one (hmirror : Mirror user.pageTable f₀ f child) (hext : Extends usable f₀ f)
    (haccounted : FramePool.Accounted usable f₀.pool) {r : Region} (hr : Settled f₀ r)
    (hmapped : Mapped m user r) {rest : List ℕ}
    (hserves : serves f.physical.allocator (copyPages r :: rest) = true) :
    Hands usable f ((f.callocatePages (copyPages r)).2.copy (f.callocatePages (copyPages r)).1
      r.physicalBase r.size) (f.callocatePages (copyPages r)).1 (copyPages r) ∧
    r.size = copyPages r * PMM.pageSize ∧
    Copied usable m user f₀ f ((f.callocatePages (copyPages r)).2.copy
      (f.callocatePages (copyPages r)).1 r.physicalBase r.size) child
      (child.mapRange m.paging r.virtualBase (f.callocatePages (copyPages r)).1 r.size) [r] ∧
    serves ((f.callocatePages (copyPages r)).2.copy (f.callocatePages (copyPages r)).1
      r.physicalBase r.size).physical.allocator rest = true := by
  obtain ⟨hhands, hrest⟩ := hands_callocatePages hext.accounted hserves
  obtain ⟨hpages, hsize⟩ := hr.alignUp_div
  generalize f.callocatePages (copyPages r) = new at hhands hrest ⊢
  unfold copyPages at hhands ⊢
  rw [hpages] at hhands ⊢
  obtain ⟨hgrown, hmirror', hkept, hcovered⟩ := hmirror.copy hext haccounted hr hmapped hhands
  refine ⟨hhands.copy _ hsize.ge, hsize.symm, ⟨hgrown, hmirror', hkept, ?_⟩, hrest⟩
  intro q hq e he
  obtain rfl := List.mem_singleton.mp hq
  exact hcovered e he

/-- The loop over the regions in `Process::Fork`. -/
theorem forkRegions_spec (haccounted : FramePool.Accounted usable f₀.pool) {l : List Region}
    (hl : ∀ r ∈ l, Settled f₀ r ∧ Mapped m user r) {rest : List ℕ}
    {s s' : FrameLedger × UserSpace} (hext : Extends usable f₀ s.1)
    (hmirror : Mirror user.pageTable f₀ s.1 s.2.pageTable)
    (hserves : serves s.1.physical.allocator (l.map copyPages ++ rest) = true)
    (hs : l.foldlM (Kernel.forkRegion m) s = some s') :
    Copied usable m user f₀ s.1 s'.1 s.2.pageTable s'.2.pageTable l ∧
    serves s'.1.physical.allocator rest = true ∧
    ((∀ r ∈ s.2.addressSpace.regions, Settled s.1 r) →
      ∀ r ∈ s'.2.addressSpace.regions, Settled s'.1 r) := by
  induction l generalizing s with
  | nil =>
    obtain rfl : s = s' := by simpa using hs
    exact ⟨⟨.refl hext.accounted, hmirror, fun _ => id, fun r hr => absurd hr List.not_mem_nil⟩,
      hserves, id⟩
  | cons r l ih =>
    rw [List.foldlM_cons, Option.bind_eq_bind, Option.bind_eq_some_iff] at hs
    obtain ⟨s₁, hs₁, hrest⟩ := hs
    obtain ⟨hr, hmapped⟩ := hl r List.mem_cons_self
    rw [List.map_cons, List.cons_append] at hserves
    obtain ⟨hhands, hsize, hcopied, hserved⟩ :=
      copied_one hmirror hext haccounted hr hmapped hserves
    unfold Kernel.forkRegion at hs₁
    dsimp only at hs₁
    split at hs₁
    · cases hs₁
    change some (_, _) = some s₁ at hs₁
    obtain rfl := Option.some.inj hs₁
    have hback := SpaceExtends.back (r := ⟨r.virtualBase, r.size,
      (s.1.callocatePages (copyPages r)).1, r.access⟩) hhands hsize m.paging s.2 r.virtualBase
      r.virtualBase
    obtain ⟨htail, hserved', hsettled⟩ := ih (fun q hq => hl q (List.mem_cons_of_mem _ hq))
      (hext.trans hcopied.toExtends) hcopied.mirror hserved hrest
    exact ⟨hcopied.trans htail, hserved', fun h => hsettled (hback.2.settled h)⟩

/-- The loop over the stacks in `Thread::Fork`. -/
theorem forkStacks_spec (haccounted : FramePool.Accounted usable f₀.pool) {l : List Region}
    (hl : ∀ r ∈ l, Settled f₀ r ∧ Mapped m user r) {rest : List ℕ} (forked : List Region)
    (hext : Extends usable f₀ f) (hmirror : Mirror user.pageTable f₀ f child)
    (hforked : ∀ r ∈ forked, Settled f r)
    (hserves : serves f.physical.allocator (l.map copyPages ++ rest) = true) :
    Copied usable m user f₀ f (l.foldl (Thread.forkStack m) (f, child, forked)).1 child
      (l.foldl (Thread.forkStack m) (f, child, forked)).2.1 l ∧
    serves (l.foldl (Thread.forkStack m) (f, child, forked)).1.physical.allocator rest = true ∧
    ∀ r ∈ (l.foldl (Thread.forkStack m) (f, child, forked)).2.2,
      Settled (l.foldl (Thread.forkStack m) (f, child, forked)).1 r := by
  induction l generalizing f child forked with
  | nil =>
    exact ⟨⟨.refl hext.accounted, hmirror, fun _ => id, fun r hr => absurd hr List.not_mem_nil⟩,
      hserves, hforked⟩
  | cons r l ih =>
    obtain ⟨hr, hmapped⟩ := hl r List.mem_cons_self
    rw [List.map_cons, List.cons_append] at hserves
    obtain ⟨hhands, hsize, hcopied, hserved⟩ :=
      copied_one hmirror hext haccounted hr hmapped hserves
    have hstep : Thread.forkStack m (f, child, forked) r =
        ((f.callocatePages (copyPages r)).2.copy (f.callocatePages (copyPages r)).1
            r.physicalBase r.size,
          child.mapRange m.paging r.virtualBase (f.callocatePages (copyPages r)).1 r.size,
          forked ++ [⟨(f.callocatePages (copyPages r)).1, r.size,
            (f.callocatePages (copyPages r)).1, {}⟩]) := rfl
    rw [List.foldl_cons, hstep]
    generalize f.callocatePages (copyPages r) = new at hhands hcopied hserved ⊢
    have hback := SpaceExtends.back (r := ⟨new.1, r.size, new.1, {}⟩) hhands hsize m.paging user 0 0
    have hforked' : ∀ q ∈ forked ++ [⟨new.1, r.size, new.1, {}⟩],
        Settled (new.2.copy new.1 r.physicalBase r.size) q := by
      intro q hq
      rcases List.mem_append.mp hq with hq | hq
      · exact (hforked q hq).mono hcopied.live
      · obtain rfl := List.mem_singleton.mp hq
        exact hback.1
    obtain ⟨htail, hserved', hsettled⟩ := ih (fun q hq => hl q (List.mem_cons_of_mem _ hq)) _
      (hext.trans hcopied.toExtends) hcopied.mirror hforked' hserved
    exact ⟨hcopied.trans htail, hserved', hsettled⟩

/-- The requests of `Thread::Fork`, in order. -/
def Thread.forkRequests (m : Machine) (current : Thread) : List ℕ :=
  [CPU.kernelStackPages, CPU.kernelStackPages, divRoundUp m.fpuStorageSize PMM.pageSize,
    CPU.kernelStackPages, CPU.kernelStackPages] ++
  (current.userStacks.map copyPages ++ [current.fpuStoragePageCount])

/-- `PrepareThread` serves its three requests. -/
theorem Thread.serves_prepare (parent : ℕ) (userStacks : List Region) {rest : List ℕ}
    (hserves : serves f.physical.allocator (CPU.kernelStackPages :: CPU.kernelStackPages ::
      divRoundUp m.fpuStorageSize PMM.pageSize :: rest) = true) :
    serves (prepare m f parent userStacks).2.physical.allocator rest = true := by
  have hkernel := serves_allocatePages hserves
  have hfault := serves_allocatePages hkernel
  unfold prepare
  dsimp only
  rw [((f.allocatePages CPU.kernelStackPages).2.allocatePages
    CPU.kernelStackPages).2.callocatePages_eq_allocatePages _ |>.2]
  exact serves_allocatePages (f := ((f.allocatePages CPU.kernelStackPages).2.allocatePages
    CPU.kernelStackPages).2) hfault

/-- `Thread::Fork`, when its requests are served. -/
theorem Thread.fork_spec (haccounted : FramePool.Accounted usable f₀.pool) {current : Thread}
    (hstacks : ∀ r ∈ current.userStacks, Settled f₀ r ∧ Mapped m user r)
    (hext : Extends usable f₀ f) (hmirror : Mirror user.pageTable f₀ f child)
    (hserves : serves f.physical.allocator (forkRequests m current) = true) (pid : ℕ) :
    Copied usable m user f₀ f (current.fork m f child pid).2.1 child
      (current.fork m f child pid).2.2 current.userStacks ∧
    ∀ r ∈ (current.fork m f child pid).1.userStacks,
      Settled (current.fork m f child pid).2.1 r := by
  -- the kernel stacks and the FPU storage of `CreateThread`
  have hprepare := extends_prepare (m := m) hext.accounted pid []
  have hserved := serves_prepare pid [] hserves
  unfold fork
  dsimp only
  generalize prepare m f pid [] = prepared at hprepare hserved ⊢
  -- the kernel stacks that replace them
  obtain ⟨hkernel, hserved⟩ := hands_callocatePages hprepare.accounted hserved
  generalize prepared.2.callocatePages CPU.kernelStackPages = kernel at hkernel hserved ⊢
  obtain ⟨hfault, hserved⟩ := hands_callocatePages hkernel.accounted hserved
  generalize kernel.2.callocatePages CPU.kernelStackPages = fault at hfault hserved ⊢
  have hbefore : Extends usable f fault.2 :=
    (hprepare.trans hkernel.toExtends).trans hfault.toExtends
  -- the user stacks
  obtain ⟨hcopied, hserved, hsettled⟩ := forkStacks_spec haccounted hstacks []
    (hext.trans hbefore) (hmirror.extend hbefore) (fun r hr => absurd hr List.not_mem_nil) hserved
  generalize current.userStacks.foldl (forkStack m) (fault.2, child, []) = copied
    at hcopied hserved hsettled ⊢
  -- the FPU storage
  have hfpu := (hands_callocatePages hcopied.accounted hserved).1.copy
    (m.paging.fromHigherHalfAddress current.fpuStorage) le_rfl
  refine ⟨⟨(hbefore.trans hcopied.toExtends).trans hfpu.toExtends,
    hcopied.mirror.extend hfpu.toExtends, hcopied.kept, hcopied.covered⟩, fun r hr => ?_⟩
  exact (hsettled r hr).mono hfpu.live

end Copying

/-! ## Isolation -/

namespace Kernel

/-- The byte that a process has at an address, if a page is mapped there. -/
def peek (m : Machine) (k : Kernel) (pid address : ℕ) : Option UInt8 :=
  (k.processes.lookup pid).bind fun process =>
    (translate m process.user address).map k.memory.byte

/-- The byte that a process reads at an address of one of its regions. Where no page is mapped yet,
the fault maps one of zeros. -/
def read (m : Machine) (k : Kernel) (pid address : ℕ) : UInt8 := (k.peek m pid address).getD 0

/-- No frame is mapped by two processes, every mapped frame is in a live block, and the regions and
stacks are settled. -/
structure Isolated (usable : ℕ → Prop) (k : Kernel) : Prop where
  accounted : FramePool.Accounted usable k.memory.pool
  pid_lt : ∀ pid process, (pid, process) ∈ k.processes → pid < k.nextProcess
  mapped : ∀ pid process, (pid, process) ∈ k.processes →
    ∀ e p, process.user.pageTable e = some p → Held k.memory p
  apart : ∀ pid process pid' process', (pid, process) ∈ k.processes →
    (pid', process') ∈ k.processes → pid ≠ pid' →
    ∀ e e' p, process.user.pageTable e = some p → process'.user.pageTable e' ≠ some p
  settled : ∀ pid process, (pid, process) ∈ k.processes →
    ∀ r ∈ process.user.addressSpace.regions, Settled k.memory r
  userStacks : ∀ tid t, k.threads tid = some t → ∀ r ∈ t.userStacks, Settled k.memory r

variable {usable : ℕ → Prop} {m : Machine} {k k' : Kernel}

theorem isolated_boot {pool : FramePool} (h : FramePool.Accounted usable pool)
    (bytes : ℕ → UInt8) : Isolated usable (boot pool bytes) := by
  have hnone : ∀ e, e ∉ (boot pool bytes).processes := fun e => OrderedMap.not_mem_empty e
  exact ⟨h, fun pid process hmem => absurd hmem (hnone _),
    fun pid process hmem => absurd hmem (hnone _),
    fun pid process _ _ hmem => absurd hmem (hnone _),
    fun pid process hmem => absurd hmem (hnone _), fun tid t ht => by cases ht⟩

/-- One process gets a new user space, whose entries are its old ones or point to new frames. -/
theorem Isolated.update (h : Isolated usable k) {pid : ℕ} {process' : Process}
    (hext : Extends usable k.memory k'.memory)
    (hprocesses : k'.processes = k.processes.insert pid process')
    (hpid : pid < k'.nextProcess) (hnext : k.nextProcess ≤ k'.nextProcess)
    (hentries : ∀ e p, process'.user.pageTable e = some p →
      (∃ process, (pid, process) ∈ k.processes ∧ process.user.pageTable e = some p) ∨
      New k.memory k'.memory p)
    (hsettled : ∀ r ∈ process'.user.addressSpace.regions, Settled k'.memory r)
    (hthreads : ∀ tid t, k'.threads tid = some t → ∀ r ∈ t.userStacks, Settled k'.memory r) :
    Isolated usable k' := by
  -- an entry of the changed process is in no other one
  have hother : ∀ q process, (q, process) ∈ k.processes → q ≠ pid →
      ∀ e e' p, process.user.pageTable e = some p → process'.user.pageTable e' ≠ some p := by
    intro q process hmem hne e e' p hp hp'
    rcases hentries e' p hp' with ⟨old, hold, hpold⟩ | hnew
    · exact h.apart q process pid old hmem hold hne e e' p hp hpold
    · exact not_held_of_new hnew (h.mapped q process hmem e p hp)
  have hmem : ∀ q process, (q, process) ∈ k'.processes →
      (q = pid ∧ process = process') ∨ (q ≠ pid ∧ (q, process) ∈ k.processes) := by
    intro q process hq
    rw [hprocesses] at hq
    exact OrderedMap.mem_insert.mp hq
  refine ⟨hext.accounted, fun q process hq => ?_, fun q process hq e p hp => ?_,
    fun q process q' process₂ hq hq' hne e e' p hp hp' => ?_, fun q process hq => ?_, hthreads⟩
  · rcases hmem q process hq with ⟨rfl, -⟩ | ⟨-, hq⟩
    · exact hpid
    · exact (h.pid_lt q process hq).trans_le hnext
  · rcases hmem q process hq with ⟨rfl, rfl⟩ | ⟨-, hq⟩
    · rcases hentries e p hp with ⟨old, hold, hpold⟩ | hnew
      · exact (h.mapped q old hold e p hpold).mono hext.live
      · exact held_of_new hnew
    · exact (h.mapped q process hq e p hp).mono hext.live
  · rcases hmem q process hq with ⟨rfl, rfl⟩ | ⟨hqne, hq⟩ <;>
      rcases hmem q' process₂ hq' with ⟨rfl, rfl⟩ | ⟨hqne', hq'⟩
    · exact hne rfl
    · exact hother q' process₂ hq' hqne' e' e p hp' hp
    · exact hother q process hq hqne e e' p hp hp'
    · exact h.apart q process q' process₂ hq hq' hne e e' p hp hp'
  · rcases hmem q process hq with ⟨rfl, rfl⟩ | ⟨-, hq⟩
    · exact hsettled
    · exact fun r hr => (h.settled q process hq r hr).mono hext.live

/-- A process that is left alone keeps its bytes while the ledger grows. -/
theorem Isolated.peek_eq (h : Isolated usable k) (hext : Extends usable k.memory k'.memory)
    {pid : ℕ} (hlookup : k'.processes.lookup pid = k.processes.lookup pid) (address : ℕ) :
    k'.peek m pid address = k.peek m pid address := by
  unfold peek
  rw [hlookup]
  cases hprocess : k.processes.lookup pid with
  | none => rfl
  | some process =>
    have hmem := OrderedMap.lookup_eq_some.mp hprocess
    unfold translate
    simp only [Option.bind_some, Option.map_map]
    cases hp : process.user.pageTable (LeafTable.index m.paging address) with
    | none => rfl
    | some p =>
      have hheld := h.mapped pid process hmem _ p hp
      exact congrArg some (hheld.byte_eq hext (Nat.mod_lt _ (by decide)))

/-- The threads of a kernel whose ledger grew, with one thread more. -/
theorem Isolated.settled_addThread (h : Isolated usable k)
    {f : FrameLedger} (hlive : ∀ b ∈ k.memory.live, b ∈ f.live) {thread : Thread}
    (hthread : ∀ r ∈ thread.userStacks, Settled f r) {tid : ℕ} {t : Thread}
    (ht : Function.update k.threads k.nextThread (some thread) tid = some t) :
    ∀ r ∈ t.userStacks, Settled f r := by
  rw [Function.update_apply] at ht
  split at ht
  · obtain rfl := Option.some.inj ht
    exact hthread
  · exact fun r hr => (h.userStacks tid t ht r hr).mono hlive

/-- The ledger grew and a thread may have come, but the processes are as they were. -/
theorem Isolated.extend (h : Isolated usable k) (hext : Extends usable k.memory k'.memory)
    (hprocesses : k'.processes = k.processes) (hnext : k'.nextProcess = k.nextProcess)
    (hthreads : ∀ tid t, k'.threads tid = some t → ∀ r ∈ t.userStacks, Settled k'.memory r) :
    Isolated usable k' := by
  refine ⟨hext.accounted, ?_, ?_, ?_, ?_, hthreads⟩ <;> rw [hprocesses]
  · rw [hnext]
    exact h.pid_lt
  · exact fun pid process hmem e p hp => (h.mapped pid process hmem e p hp).mono hext.live
  · exact h.apart
  · exact fun pid process hmem r hr => (h.settled pid process hmem r hr).mono hext.live

/-! ## The calls -/

end Kernel

/-- The page table of the process and the physical bases that `Fork` copies from agree: every
region, and every stack of the forking thread, is mapped to its backing, and nothing else is mapped
in a region. -/
structure ForkReady (m : Machine) (process : Process) (current : Thread) : Prop where
  regions : ∀ r ∈ process.user.addressSpace.regions, Mapped m process.user r
  userStacks : ∀ r ∈ current.userStacks, Mapped m process.user r
  covered : ∀ r ∈ process.user.addressSpace.regions, ∀ address ∈ r.range,
    (process.user.pageTable (LeafTable.index m.paging address)).isSome →
    ∃ q ∈ process.user.addressSpace.regions, Covers m q (LeafTable.index m.paging address)

/-- In a page-aligned region below the top of the address space, every address is on one of its
pages. -/
theorem covers_of_aligned {m : Machine} {r : Region} (haligned : PMM.pageSize ∣ r.virtualBase)
    (hfits : r.Fits) {address : ℕ} (h : address ∈ r.range) :
    Covers m r (LeafTable.index m.paging address) := by
  obtain ⟨first, hfirst⟩ := haligned
  obtain ⟨hle, hlt⟩ := Set.mem_Ico.mp h
  have hfits' : r.virtualBase + r.size < wordCount := hfits
  unfold PMM.pageSize at hfirst
  refine ⟨(address - r.virtualBase) / 0x1000, by unfold divRoundUp PMM.pageSize; omega, ?_⟩
  unfold LeafTable.index PMM.pageSize
  rw [offset_of_lt (by omega)]
  congr 1
  omega

namespace Kernel

variable {usable : ℕ → Prop} {m : Machine} {k k' : Kernel}

/-- The process that makes a call. -/
def Call.caller : Call → Option ℕ
  | .createThread pid | .createUserThread pid | .startProgram pid _ | .mMap pid _
  | .pageFault pid _ | .write pid _ _ | .fork pid _ | .exec pid _ | .exit pid => some pid
  | .createProcess | .destroyThread _ => none

/-- The frame allocator can serve the requests whose result the call does not check. -/
def HasRoom (m : Machine) (k : Kernel) : Call → Prop
  | .createUserThread _ => StackFits k.memory
  | .startProgram pid program => ∀ process f user, k.processes.lookup pid = some process →
      program.load m k.memory process.user = some (true, f, user) → StackFits f
  | .exec pid program => ∀ process f user, k.processes.lookup pid = some process →
      program.load m k.memory { process.user with pageTable := fun _ => none } =
        some (true, f, user) → StackFits f
  | .fork pid tid => ∀ process current, k.processes.lookup pid = some process →
      k.threads tid = some current →
      serves k.memory.physical.allocator
        (process.user.addressSpace.regions.map copyPages ++ current.forkRequests m) = true
  | _ => True

/-- The condition on the calls of a run. -/
structure Careful (m : Machine) (k : Kernel) (call : Call) : Prop where
  freesNothing : k.FreesNothing call
  hasRoom : k.HasRoom m call
  ready : ∀ pid tid process current, call = .fork pid tid → k.processes.lookup pid = some process →
    k.threads tid = some current → ForkReady m process current

/-- What a call leaves: isolated processes, and the bytes of all that did not make it. -/
def Leaves (m : Machine) (usable : ℕ → Prop) (k k' : Kernel) (caller : Option ℕ) : Prop :=
  Isolated usable k' ∧ ∀ pid process, (pid, process) ∈ k.processes → caller ≠ some pid →
    ∀ address, k'.peek m pid address = k.peek m pid address

/-- The caller's user space grew, and maybe it got a thread. -/
theorem Isolated.leaves_update (h : Isolated usable k) {pid : ℕ} {process process' : Process}
    (hlookup : k.processes.lookup pid = some process)
    (hspace : SpaceExtends usable (k.memory, process.user) (k'.memory, process'.user))
    (hprocesses : k'.processes = k.processes.insert pid process')
    (hnext : k'.nextProcess = k.nextProcess)
    (hthreads : ∀ tid t, k'.threads tid = some t → ∀ r ∈ t.userStacks, Settled k'.memory r) :
    Leaves m usable k k' (some pid) := by
  have hmem := OrderedMap.lookup_eq_some.mp hlookup
  constructor
  · refine h.update hspace.toExtends hprocesses (hnext ▸ h.pid_lt pid process hmem) hnext.ge
      (fun e p hp => ?_) (hspace.settled (h.settled pid process hmem)) hthreads
    rcases hspace.entries e p hp with hold | hnew
    · exact .inl ⟨process, hmem, hold⟩
    · exact .inr hnew
  · intro q _ _ hne address
    refine h.peek_eq hspace.toExtends ?_ address
    rw [hprocesses, OrderedMap.lookup_insert, if_neg]
    rintro rfl
    exact hne rfl

theorem Isolated.leaves_startProgram (h : Isolated usable k) {pid : ℕ} {process old : Process}
    {program : Program} (hlookup : k.processes.lookup pid = some old)
    (htable : ∀ e p, process.user.pageTable e = some p → old.user.pageTable e = some p)
    (hregions : process.user.addressSpace = old.user.addressSpace)
    (hroom : ∀ f user, program.load m k.memory process.user = some (true, f, user) → StackFits f)
    (hs : k.startProgram m pid process program = some k') :
    Leaves m usable k k' (some pid) := by
  -- dropping mappings is growth, too
  have hdrop : SpaceExtends usable (k.memory, old.user) (k.memory, process.user) :=
    ⟨.refl h.accounted, fun e p hp => .inl (htable e p hp), fun hs r hr => hs r (hregions ▸ hr)⟩
  obtain ⟨⟨loaded, f, user⟩, hload, hrest⟩ := Option.bind_eq_some_iff.mp hs
  have hloaded := hdrop.trans (Program.spaceExtends_load h.accounted hload)
  dsimp only at hrest
  cases loaded with
  | false =>
    obtain rfl := Option.some.inj hrest
    refine h.leaves_update hlookup ?_ rfl rfl
      fun tid t ht r hr => (h.userStacks tid t ht r hr).mono hloaded.live
    exact hloaded
  | true =>
    obtain ⟨hthread, hstacks⟩ := Thread.spaceExtends_ofProgram (m := m) hloaded.accounted
      (hroom f user hload) pid { process with user := user } program.stackData_le
    rw [Bool.not_true, if_neg Bool.false_ne_true] at hrest
    generalize Thread.ofProgram m f pid { process with user := user } program.stackData = created
      at hthread hstacks hrest
    obtain rfl := Option.some.inj hrest
    have hspace := hloaded.trans hthread
    refine h.leaves_update hlookup ?_ rfl rfl
      fun tid t ht => h.settled_addThread hspace.live hstacks ht
    exact hspace

theorem Isolated.leaves_mMap (h : Isolated usable k) {pid : ℕ} {process : Process}
    {user : UserSpace} {req : MMapRequest} {result : Except Errno ℕ}
    (hlookup : k.processes.lookup pid = some process)
    (hmap : process.user.mMap req = some (result, user)) :
    Leaves m usable k (k.setProcess pid { process with user := user }) (some pid) := by
  have hspace : SpaceExtends usable (k.memory, process.user) (k.memory, user) := by
    rcases UserSpace.mMap_cases hmap with rfl | ⟨region, hregion, -, -, rfl, -⟩
    · exact .refl h.accounted
    · have hsettled : ∀ access, Settled k.memory { region with access := access } :=
        fun access => ⟨hregion.dvd, hregion.lt, fun hne => absurd hregion.physicalBase_eq hne⟩
      exact ((SpaceExtends.refl h.accounted).insert region.virtualBase
        (hsettled region.access)).insert region.virtualBase (hsettled req.access)
  refine h.leaves_update hlookup ?_ rfl rfl h.userStacks
  exact hspace

/-- `SetPhysicalBase` changes the stacks of a thread only to the new backing. -/
theorem mem_userStacks_setPhysicalBase {pid phys : ℕ} {region r : Region} {t : Thread}
    (h : r ∈ (t.setPhysicalBase pid region phys).userStacks) :
    r ∈ t.userStacks ∨ r = { region with physicalBase := phys } := by
  obtain ⟨stack, hstack, heq⟩ := List.mem_map.mp h
  split at heq
  · rename_i hsame
    rw [hsame.2] at heq
    exact .inr heq.symm
  · subst heq
    exact .inl hstack

theorem Isolated.leaves_pageFault (h : Isolated usable k) {pid : ℕ} {process : Process}
    (hlookup : k.processes.lookup pid = some process) (address : ℕ) :
    Leaves m usable k (k.pageFault m pid process address) (some pid) := by
  have hmem := OrderedMap.lookup_eq_some.mp hlookup
  unfold Kernel.pageFault
  split
  · exact ⟨h, fun _ _ _ _ _ => rfl⟩
  · rename_i region hfind
    have hsettled := h.settled pid process hmem region (List.mem_of_find?_eq_some hfind)
    have hfault : (process.user.handlePageFault m.paging k.memory.physical address).2 =
        if (k.memory.callocatePages (divRoundUp region.size PMM.pageSize)).1 = 0 then process.user
        else
          { addressSpace := process.user.addressSpace.insert region.virtualBase { region with
              physicalBase := (k.memory.callocatePages (divRoundUp region.size PMM.pageSize)).1 }
            pageTable := process.user.pageTable.mapRange m.paging region.virtualBase
              (k.memory.callocatePages (divRoundUp region.size PMM.pageSize)).1 region.size } := by
      unfold UserSpace.handlePageFault callocatePages
      rw [hfind]
      dsimp only
      generalize k.memory.physical.callocatePages _ = new
      obtain ⟨_ | phys, physical⟩ := new <;> rfl
    have hspec := callocatePages_spec h.accounted (divRoundUp region.size PMM.pageSize)
    dsimp only
    rw [hfault]
    generalize k.memory.callocatePages (divRoundUp region.size PMM.pageSize) = new at hspec ⊢
    split
    · rcases hspec with hhands | ⟨-, hext⟩
      · exact ⟨h.extend hhands.toExtends rfl rfl fun tid t ht r hr =>
          (h.userStacks tid t ht r hr).mono hhands.live,
          fun _ _ _ _ => h.peek_eq hhands.toExtends rfl⟩
      · exact ⟨h.extend hext rfl rfl fun tid t ht r hr =>
          (h.userStacks tid t ht r hr).mono hext.live,
          fun _ _ _ _ => h.peek_eq hext rfl⟩
    · rename_i hne
      rcases hspec with hhands | ⟨hzero, -⟩
      · obtain ⟨hnew, hspace⟩ := SpaceExtends.back (r := { region with physicalBase := new.1 })
          hhands hsettled.alignUp_div.2.symm m.paging process.user region.virtualBase
          region.virtualBase
        refine h.leaves_update hlookup ?_ rfl rfl fun tid t ht r hr => ?_
        · exact hspace
        · obtain ⟨t', ht', rfl⟩ := Option.map_eq_some_iff.mp ht
          rcases mem_userStacks_setPhysicalBase hr with hr | rfl
          · exact (h.userStacks tid t' ht' r hr).mono hhands.live
          · exact hnew
      · exact absurd hzero hne

/-- A write goes to the frame of the writer. -/
theorem Isolated.leaves_write (h : Isolated usable k) {pid address phys : ℕ} {process : Process}
    (hlookup : k.processes.lookup pid = some process)
    (hphys : translate m process.user address = some phys) (value : UInt8) :
    Leaves m usable k { k with memory := k.memory.store phys [value] } (some pid) := by
  have hmem := OrderedMap.lookup_eq_some.mp hlookup
  refine ⟨⟨h.accounted, h.pid_lt, h.mapped, h.apart,
    fun q other hother r hr => (h.settled q other hother r hr).mono fun _ => id,
    fun tid t ht r hr => (h.userStacks tid t ht r hr).mono fun _ => id⟩, ?_⟩
  intro q other hother hne b
  unfold peek
  dsimp only
  rw [OrderedMap.lookup_eq_some.mpr hother, Option.bind_some, Option.bind_some]
  unfold translate at hphys ⊢
  obtain ⟨p, hp, rfl⟩ := Option.map_eq_some_iff.mp hphys
  cases hq : other.user.pageTable (LeafTable.index m.paging b) with
  | none => rfl
  | some p' =>
    have hdiff : p ≠ p' := by
      rintro rfl
      exact h.apart pid process q other hmem hother (fun heq => hne (congrArg some heq)) _ _ p hp hq
    obtain ⟨frame, rfl, -⟩ := h.mapped pid process hmem _ p hp
    obtain ⟨frame', rfl, -⟩ := h.mapped q other hother _ p' hq
    have hoff := Nat.mod_lt address (show 0 < PMM.pageSize by decide)
    have hoff' := Nat.mod_lt b (show 0 < PMM.pageSize by decide)
    refine congrArg some (if_neg ?_)
    unfold PMM.pageSize at *
    simp only [List.length_singleton]
    omega

/-- `Fork` with its regions mapped and its requests served: the child's pages mirror the
parent's. -/
theorem Isolated.fork_spec (h : Isolated usable k) {pid tid : ℕ} {process : Process}
    {current : Thread} (hlookup : k.processes.lookup pid = some process)
    (hthread : k.threads tid = some current) (hready : ForkReady m process current)
    (hserves : serves k.memory.physical.allocator
      (process.user.addressSpace.regions.map copyPages ++ current.forkRequests m) = true)
    (hs : k.fork m process current = some k') :
    Isolated usable k' ∧ Extends usable k.memory k'.memory ∧
    ∃ child : Process, k'.processes = k.processes.insert k.nextProcess child ∧
      Mirror process.user.pageTable k.memory k'.memory child.user.pageTable ∧
      ∀ r ∈ process.user.addressSpace.regions, ∀ e, Covers m r e →
        (child.user.pageTable e).isSome := by
  have hmem := OrderedMap.lookup_eq_some.mp hlookup
  have hempty : Mirror process.user.pageTable k.memory k.memory k.newUserSpace.pageTable :=
    ⟨fun _ _ hq => (nomatch hq), fun _ _ hq => (nomatch hq)⟩
  obtain ⟨⟨f, user⟩, hregions, hrest⟩ := Option.bind_eq_some_iff.mp hs
  obtain ⟨hcopied, hserved, hsettled⟩ := forkRegions_spec h.accounted
    (fun r hr => ⟨h.settled pid process hmem r hr, hready.regions r hr⟩) (.refl h.accounted)
    hempty hserves hregions
  obtain ⟨hforked, hstacks⟩ := Thread.fork_spec h.accounted
    (fun r hr => ⟨h.userStacks tid current hthread r hr, hready.userStacks r hr⟩)
    hcopied.toExtends hcopied.mirror hserved k.nextProcess
  dsimp only at hrest hforked hstacks
  generalize current.fork m f user.pageTable k.nextProcess = forked at hforked hstacks hrest
  obtain rfl := Option.some.inj hrest
  have hext := hcopied.toExtends.trans hforked.toExtends
  refine ⟨?_, hext, _, rfl, hforked.mirror, fun r hr e he => ?_⟩
  · refine h.update hext rfl (Nat.lt_succ_self _) (Nat.le_succ _)
      (fun e p hp => .inr (hforked.mirror.new e p hp)) (fun r hr => ?_)
      fun tid t ht => h.settled_addThread hext.live hstacks ht
    exact (hsettled (fun q hq => by cases hq) r hr).mono hforked.live
  · exact hforked.kept e (hcopied.covered r hr e he)

/-- Every careful call leaves the processes isolated and the bytes of the others alone. -/
theorem Isolated.step (h : Isolated usable k) {call : Call} (hcall : k.Careful m call)
    (hs : k.step m call = some k') : Leaves m usable k k' call.caller := by
  cases call with
  | createProcess =>
    obtain rfl := Option.some.inj hs
    refine ⟨h.update (.refl h.accounted) rfl (Nat.lt_succ_self _) (Nat.le_succ _)
      (fun e p hp => nomatch hp) (fun r hr => nomatch hr) h.userStacks, ?_⟩
    have hext : Extends usable k.memory k.createProcess.memory := .refl h.accounted
    intro pid process hmem _ address
    refine h.peek_eq hext ?_ address
    unfold Kernel.createProcess
    rw [OrderedMap.lookup_insert, if_neg (h.pid_lt pid process hmem).ne]
  | createThread pid =>
    obtain ⟨process, -, rfl⟩ := Option.map_eq_some_iff.mp hs
    have hext := Thread.extends_prepare (m := m) h.accounted pid []
    have hstacks : ∀ r ∈ (Thread.prepare m k.memory pid []).1.userStacks,
        Settled (Thread.prepare m k.memory pid []).2 r := by
      unfold Thread.prepare
      exact fun r hr => absurd hr List.not_mem_nil
    unfold Kernel.createThread
    generalize Thread.prepare m k.memory pid [] = created at hext hstacks ⊢
    exact ⟨h.extend hext rfl rfl fun tid t ht => h.settled_addThread hext.live hstacks ht,
      fun _ _ _ _ => h.peek_eq hext rfl⟩
  | createUserThread pid =>
    obtain ⟨process, hlookup, rfl⟩ := Option.map_eq_some_iff.mp hs
    obtain ⟨hspace, hstacks⟩ := Thread.spaceExtends_ofUser (m := m) h.accounted hcall.hasRoom pid
      process
    unfold Kernel.createUserThread
    generalize Thread.ofUser m k.memory pid process = created at hspace hstacks ⊢
    refine h.leaves_update hlookup ?_ rfl rfl
      fun tid t ht => h.settled_addThread hspace.live hstacks ht
    exact hspace
  | startProgram pid program =>
    obtain ⟨process, hlookup, hstart⟩ := Option.bind_eq_some_iff.mp hs
    exact h.leaves_startProgram hlookup (fun _ _ => id) rfl
      (fun f user => hcall.hasRoom process f user hlookup) hstart
  | mMap pid req =>
    obtain ⟨process, hlookup, hrest⟩ := Option.bind_eq_some_iff.mp hs
    obtain ⟨⟨result, user⟩, hmap, heq⟩ := Option.bind_eq_some_iff.mp hrest
    obtain rfl := Option.some.inj heq
    exact h.leaves_mMap hlookup hmap
  | pageFault pid address =>
    obtain ⟨process, hlookup, rfl⟩ := Option.map_eq_some_iff.mp hs
    exact h.leaves_pageFault hlookup address
  | write pid address value =>
    obtain ⟨process, hlookup, hrest⟩ := Option.bind_eq_some_iff.mp hs
    obtain ⟨phys, hphys, heq⟩ := Option.bind_eq_some_iff.mp hrest
    obtain rfl := Option.some.inj heq
    exact h.leaves_write hlookup hphys value
  | fork pid tid =>
    obtain ⟨process, hlookup, hrest⟩ := Option.bind_eq_some_iff.mp hs
    obtain ⟨current, hthread, hfork⟩ := Option.bind_eq_some_iff.mp hrest
    split at hfork
    · obtain ⟨hisolated, hext, child, hprocesses, -, -⟩ := h.fork_spec hlookup hthread
        (hcall.ready pid tid process current rfl hlookup hthread)
        (hcall.hasRoom process current hlookup hthread) hfork
      refine ⟨hisolated, fun q other hmem _ => h.peek_eq hext ?_⟩
      rw [hprocesses, OrderedMap.lookup_insert, if_neg (h.pid_lt q other hmem).ne]
    · cases hfork
  | exec pid program =>
    obtain ⟨process, hlookup, hexec⟩ := Option.bind_eq_some_iff.mp hs
    unfold Kernel.exec at hexec
    rw [freeAll_of_no_frame h.accounted
      (no_frame_of_frames_eq_empty (hcall.freesNothing process hlookup))] at hexec
    refine h.leaves_startProgram hlookup ?_ ?_ ?_ hexec
    · exact fun _ _ hp => (nomatch hp)
    · rfl
    · exact fun f user => hcall.hasRoom process f user hlookup
  | exit pid =>
    obtain ⟨process, -, rfl⟩ := Option.map_eq_some_iff.mp hs
    have hsub : ∀ q other, (q, other) ∈ k.processes.erase pid → (q, other) ∈ k.processes :=
      fun q other hmem => (OrderedMap.mem_erase.mp hmem).2
    refine ⟨⟨h.accounted, fun q other hmem => h.pid_lt q other (hsub q other hmem),
      fun q other hmem => h.mapped q other (hsub q other hmem),
      fun q other q' other' hmem hmem' => h.apart q other q' other' (hsub q other hmem)
        (hsub q' other' hmem'),
      fun q other hmem => h.settled q other (hsub q other hmem), h.userStacks⟩, ?_⟩
    have hext : Extends usable k.memory
        { k with processes := k.processes.erase pid }.memory := .refl h.accounted
    intro q other hmem hne
    refine h.peek_eq hext (OrderedMap.lookup_erase_of_ne ?_)
    rintro rfl
    exact hne rfl
  | destroyThread tid =>
    obtain ⟨thread, hthread, -⟩ := Option.map_eq_some_iff.mp hs
    have hnone : k.threads tid = none := hcall.freesNothing
    rw [hnone] at hthread
    cases hthread

/-- What the two processes see right after a `Fork`. -/
theorem Isolated.peek_fork (h : Isolated usable k) {pid tid : ℕ} {process : Process}
    (hcall : k.Careful m (.fork pid tid)) (hlookup : k.processes.lookup pid = some process)
    (hs : k.step m (.fork pid tid) = some k') :
    (∀ address, k'.peek m pid address = k.peek m pid address) ∧
    ∀ r ∈ process.user.addressSpace.regions, ∀ address ∈ r.range,
      k'.peek m k.nextProcess address = k'.peek m pid address := by
  have hmem := OrderedMap.lookup_eq_some.mp hlookup
  obtain ⟨process', hlookup', hrest⟩ := Option.bind_eq_some_iff.mp hs
  obtain rfl : process' = process := by
    rw [hlookup] at hlookup'
    exact (Option.some.inj hlookup').symm
  obtain ⟨current, hthread, hfork⟩ := Option.bind_eq_some_iff.mp hrest
  split at hfork
  · have hready := hcall.ready pid tid process' current rfl hlookup hthread
    obtain ⟨-, hext, child, hprocesses, hmirror, hcovered⟩ := h.fork_spec hlookup hthread hready
      (hcall.hasRoom process' current hlookup hthread) hfork
    have hsame : k'.processes.lookup pid = k.processes.lookup pid := by
      rw [hprocesses, OrderedMap.lookup_insert, if_neg (h.pid_lt pid process' hmem).ne]
    have hchild : k'.processes.lookup k.nextProcess = some child := by
      rw [hprocesses, OrderedMap.lookup_insert, if_pos rfl]
    refine ⟨h.peek_eq hext hsame, fun r hr address haddress => ?_⟩
    rw [h.peek_eq hext hsame]
    unfold peek
    rw [hchild, hlookup, Option.bind_some, Option.bind_some]
    unfold translate
    cases hq : child.user.pageTable (LeafTable.index m.paging address) with
    | none =>
      -- not mapped in the child, so no region has the page, and the parent has nothing there
      cases hp : process'.user.pageTable (LeafTable.index m.paging address) with
      | none => rfl
      | some p =>
        obtain ⟨q, hq', hcovers⟩ := hready.covered r hr address haddress (by rw [hp]; rfl)
        have hsome := hcovered q hq' _ hcovers
        rw [hq] at hsome
        cases hsome
    | some q =>
      obtain ⟨p, hp, hbytes⟩ := hmirror.same _ q hq
      rw [hp]
      exact congrArg some (hbytes _ (Nat.mod_lt _ (by decide)))
  · cases hfork

/-- The calls that neither free nor allocate without a check. -/
def Call.isPlain : Call → Bool
  | .createProcess | .createThread _ | .mMap _ _ | .pageFault _ _ | .write _ _ _ | .exit _ => true
  | _ => false

theorem careful_of_isPlain {call : Call} (h : call.isPlain = true) : k.Careful m call := by
  cases call <;> first
    | exact ⟨trivial, trivial, fun _ _ _ _ heq => nomatch heq⟩
    | cases h

/-- A process with one page, which it has written to. -/
def onePageRun : Option Kernel :=
  Reaches.runList (step smallMachine) (fun _ call => call.isPlain = true)
    (boot ⟨smallMemoryAllocator, []⟩ fun _ => 7)
    [.createProcess, .createThread 1, .mMap 1 UserMemory.onePage, .pageFault 1 0x140000000,
      .write 1 0x140000005 42]

/-- What the process and its child are then, and what they are before anything is written. -/
theorem forks_onePage : (do
      let k ← onePageRun
      let k' ← k.step smallMachine (.fork 1 1)
      let process ← k.processes.lookup 1
      let current ← k.threads 1
      let region ← process.user.addressSpace.regions.head?
      some (decide (k'.peek smallMachine 1 0x140000005 = some 42 ∧ k.nextProcess = 2 ∧
        process.user.addressSpace.regions = [region] ∧ current.userStacks = [] ∧
        region.virtualBase = 0x140000000 ∧ region.size = 0x1000 ∧ region.physicalBase ≠ 0 ∧
        process.user.pageTable (LeafTable.index smallMachine.paging region.virtualBase) =
          some (offset region.physicalBase 0) ∧
        serves k.memory.physical.allocator
          (process.user.addressSpace.regions.map copyPages ++
            current.forkRequests smallMachine) = true))) = some true ∧
    (do
      let k ← Reaches.runList (step smallMachine) anyCall
        (boot ⟨smallMemoryAllocator, []⟩ fun _ => 7)
        [.createProcess, .createThread 1, .mMap 1 UserMemory.onePage]
      let k' ← k.step smallMachine (.fork 1 1)
      let process ← k.processes.lookup 1
      let r ← process.user.addressSpace.regions.head?
      some (decide (r.virtualBase = 0x140000000 ∧ r.size = 0x1000 ∧
        k'.read smallMachine k.nextProcess 0x140000000 = 7 ∧
        k'.read smallMachine 1 0x140000000 = 0))) = some true := by
  decide +kernel

end Kernel

end Cryptix.Scheduler
