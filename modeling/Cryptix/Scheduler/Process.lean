import Cryptix.Memory.FrameLedger

/-!
# Processes and threads

`Kernel/Scheduler/Process.cpp`, `Kernel/Scheduler/Thread.cpp`, `PrepareThread` of
`Kernel/Arch/x86_64/CPU.cpp` and `LoadImage` of `Kernel/Library/ExecutableProgram.cpp`, as far as
they allocate, free, copy and map memory. Registers, file descriptors and the run queue are left
out.

A process is named by the number of its `Process` object, a thread by that of its `Thread` object;
a pid would be used again after an `Exit`. When the last reference to a thread goes is not modelled:
`~Thread` is a call of its own, which a run can make at any time.
-/

namespace Cryptix.Scheduler

open Memory Prism Lib

namespace CPU

/-- `CPU::KERNEL_STACK_SIZE`. -/
def kernelStackSize : ℕ := 0x10000

/-- `CPU::USER_STACK_SIZE`. -/
def userStackSize : ℕ := 0x200000

/-- The pages of a kernel stack. -/
def kernelStackPages : ℕ := kernelStackSize / PMM.pageSize

/-- The pages of a user stack. -/
def userStackPages : ℕ := userStackSize / PMM.pageSize

end CPU

/-- What the machine gives: its paging and the size of the FPU state. -/
structure Machine where
  paging : Paging
  fpuStorageSize : ℕ

/-- The memory of a `Thread`. The stack pointers are the tops of the stacks, in the higher half. -/
structure Thread where
  parent : ℕ
  userStacks : List Region
  kernelStack : ℕ
  pageFaultStack : ℕ
  fpuStorage : ℕ
  fpuStoragePageCount : ℕ

/-- The memory of a `Process`. -/
structure Process where
  user : UserSpace
  userStackTop : ℕ := 0x70000000000

/-- The access mode of program segments and program stacks. -/
def readWriteExecuteUser : Access := ⟨true, true, true, true⟩

/-! ## Threads -/

namespace Thread

/-- `CPU::PrepareThread`. None of its allocations is checked. -/
def prepare (m : Machine) (f : FrameLedger) (parent : ℕ) (userStacks : List Region) :
    Thread × FrameLedger :=
  let (kernelStack, f) := f.allocatePages CPU.kernelStackPages
  let (pfStack, f) := f.allocatePages CPU.kernelStackPages
  let fpuPageCount := divRoundUp m.fpuStorageSize PMM.pageSize
  let (fpuStoragePhys, f) := f.callocatePages fpuPageCount
  ({ parent := parent
     userStacks := userStacks
     kernelStack := m.paging.toHigherHalfAddress (offset kernelStack CPU.kernelStackSize)
     pageFaultStack := m.paging.toHigherHalfAddress (offset pfStack CPU.kernelStackSize)
     fpuStorage := m.paging.toHigherHalfAddress fpuStoragePhys
     fpuStoragePageCount := fpuPageCount }, f)

/-- The constructor for a user thread at an address. Its stack is mapped, but it is not a region of
the address space. -/
def ofUser (m : Machine) (f : FrameLedger) (parent : ℕ) (process : Process) :
    Thread × Process × FrameLedger :=
  let (stackPhys, f) := f.callocatePages CPU.userStackPages
  let stackVirt := wordSub process.userStackTop CPU.userStackSize
  let region : Region := ⟨stackVirt, CPU.userStackSize, stackPhys, {}⟩
  let table := process.user.pageTable.mapRange m.paging stackVirt stackPhys CPU.userStackSize
  let (thread, f) := prepare m f parent [region]
  (thread, { user := { process.user with pageTable := table }
             userStackTop := wordSub stackVirt PMM.pageSize }, f)

/-- The constructor for the first thread of a program: the stack is mapped, put among the regions
and filled from its top with `stackData`, what `PrepareStack` makes of the arguments. -/
def ofProgram (m : Machine) (f : FrameLedger) (parent : ℕ) (process : Process)
    (stackData : List UInt8) : Thread × Process × FrameLedger :=
  let (stackPhys, f) := f.callocatePages CPU.userStackPages
  let stackVirt := wordSub process.userStackTop CPU.userStackSize
  let region : Region := ⟨stackVirt, CPU.userStackSize, stackPhys, readWriteExecuteUser⟩
  let user : UserSpace :=
    { addressSpace := process.user.addressSpace.insert stackVirt region
      pageTable := process.user.pageTable.mapRange m.paging stackVirt stackPhys CPU.userStackSize }
  let f := f.store (stackPhys + (CPU.userStackSize - stackData.length)) stackData
  let (thread, f) := prepare m f parent [region]
  (thread, { user := user, userStackTop := wordSub stackVirt PMM.pageSize }, f)

/-- One turn of the loop in `Thread::Fork`. The new stack is mapped where the old one was, but its
region has the physical address as its virtual base. -/
def forkStack (m : Machine) (s : FrameLedger × LeafTable × List Region) (stack : Region) :
    FrameLedger × LeafTable × List Region :=
  let (f, table, userStacks) := s
  let (newStackPhys, f) := f.callocatePages (alignUp stack.size PMM.pageSize / PMM.pageSize)
  (f.copy newStackPhys stack.physicalBase stack.size,
    table.mapRange m.paging stack.virtualBase newStackPhys stack.size,
    userStacks ++ [⟨newStackPhys, stack.size, newStackPhys, {}⟩])

/-- `Thread::Fork`: a kernel thread whose stacks are then replaced. The stacks that `CreateThread`
made are not freed. -/
def fork (m : Machine) (current : Thread) (f : FrameLedger) (table : LeafTable) (child : ℕ) :
    Thread × FrameLedger × LeafTable :=
  let (_, f) := prepare m f child []
  let (kstack, f) := f.callocatePages CPU.kernelStackPages
  let (pfstack, f) := f.callocatePages CPU.kernelStackPages
  let (f, table, userStacks) := current.userStacks.foldl (forkStack m) (f, table, [])
  let (fpuStorage, f) := f.callocatePages current.fpuStoragePageCount
  let f := f.copy fpuStorage (m.paging.fromHigherHalfAddress current.fpuStorage)
    (current.fpuStoragePageCount * PMM.pageSize)
  ({ parent := child
     userStacks := userStacks
     kernelStack := offset (m.paging.toHigherHalfAddress kstack) CPU.kernelStackSize
     pageFaultStack := offset (m.paging.toHigherHalfAddress pfstack) CPU.kernelStackSize
     fpuStorage := m.paging.toHigherHalfAddress fpuStorage
     fpuStoragePageCount := current.fpuStoragePageCount }, f, table)

/-- The arguments of the `FreePages` calls of `~Thread`, in order. -/
def frees (t : Thread) : List Block :=
  t.userStacks.map Region.block ++
    [⟨t.fpuStorage, t.fpuStoragePageCount⟩,
      ⟨t.kernelStack, divRoundUp CPU.kernelStackSize PMM.pageSize⟩,
      ⟨t.pageFaultStack, divRoundUp CPU.kernelStackSize PMM.pageSize⟩]

/-- `SetPhysicalBase` on a region that a thread of the process has among its stacks. -/
def setPhysicalBase (pid : ℕ) (region : Region) (phys : ℕ) (t : Thread) : Thread :=
  { t with userStacks := t.userStacks.map fun stack =>
      if t.parent = pid ∧ stack = region then { stack with physicalBase := phys } else stack }

end Thread

/-! ## Programs -/

/-- A loadable program header with its part of the file. The file part fits the memory part, and
the sum that `LoadImage` rounds up to pages is below `2 ^ 64`. -/
structure Segment where
  virtualAddress : ℕ
  memorySize : ℕ
  data : List UInt8
  data_le : data.length ≤ memorySize
  memorySize_lt : memorySize + 2 * PMM.pageSize < wordCount

/-- A program to load. `image` is `none` when the file is missing or no executable; `interpreter`
is `none` when the image asks for none, and `some none` when the one it asks for does not load. -/
structure Program where
  image : Option (List Segment)
  interpreter : Option (Option (List Segment))
  stackData : List UInt8
  stackData_le : stackData.length ≤ CPU.userStackSize

/-- The pages of a segment. -/
def Segment.pageCount (s : Segment) : ℕ :=
  divRoundUp (s.memorySize + s.virtualAddress % PMM.pageSize) PMM.pageSize

/-- The body of the loop in `LoadImage`; `none` is the failed assertion that memory is left. -/
def Segment.load (m : Machine) (loadBase : ℕ) (s : FrameLedger × UserSpace) (segment : Segment) :
    Option (FrameLedger × UserSpace) :=
  let misalign := segment.virtualAddress % PMM.pageSize
  let (phys, f) := s.1.callocatePages segment.pageCount
  if phys = 0 then none
  else
    let virt := offset segment.virtualAddress loadBase
    let size := segment.pageCount * PMM.pageSize
    let region : Region := ⟨virt, size, phys, readWriteExecuteUser⟩
    some (f.store (phys + misalign) segment.data,
      { addressSpace := s.2.addressSpace.insert virt region
        pageTable := s.2.pageTable.mapRange m.paging virt phys size })

/-- `ExecutableProgram::Load`, with its success. -/
def Program.load (m : Machine) (program : Program) (f : FrameLedger) (user : UserSpace) :
    Option (Bool × FrameLedger × UserSpace) :=
  match program.image with
  | none => some (false, f, user)
  | some segments => do
    let s ← segments.foldlM (Segment.load m 0) (f, user)
    match program.interpreter with
    | none => some (true, s)
    | some none => some (false, s)
    | some (some segments) =>
      let s ← segments.foldlM (Segment.load m 0x41000000) s
      some (true, s)

/-! ## The kernel -/

/-- Physical memory, the processes that have not exited, and the threads not yet destroyed. -/
structure Kernel where
  memory : FrameLedger
  processes : OrderedMap ℕ Process
  threads : ℕ → Option Thread
  nextProcess : ℕ
  nextThread : ℕ

namespace Kernel

/-- The address space of a new process, and its empty page map. -/
def newUserSpace (k : Kernel) : UserSpace :=
  ⟨.withBase (offset (alignUp k.memory.physical.allocator.memoryTop 0x40000000) 0x100000000),
    fun _ => none⟩

/-- Put a process back. -/
def setProcess (k : Kernel) (pid : ℕ) (process : Process) : Kernel :=
  { k with processes := k.processes.insert pid process }

/-- Add a thread. -/
def addThread (k : Kernel) (thread : Thread) : Kernel :=
  { k with
    threads := Function.update k.threads k.nextThread (some thread)
    nextThread := k.nextThread + 1 }

/-- `Scheduler::CreateProcess`, with an empty page map. -/
def createProcess (k : Kernel) : Kernel :=
  { k with
    processes := k.processes.insert k.nextProcess { user := k.newUserSpace }
    nextProcess := k.nextProcess + 1 }

/-- `Process::CreateThread` at an address. -/
def createThread (m : Machine) (k : Kernel) (pid : ℕ) : Kernel :=
  let (thread, f) := Thread.prepare m k.memory pid []
  { k with memory := f }.addThread thread

/-- A thread by the constructor that makes its own user stack. -/
def createUserThread (m : Machine) (k : Kernel) (pid : ℕ) (process : Process) : Kernel :=
  let (thread, process, f) := Thread.ofUser m k.memory pid process
  ({ k with memory := f }.setProcess pid process).addThread thread

/-- Load a program into a process and create its first thread, as `loadInitProcess` does and
`Exec` once it has freed the old image. -/
def startProgram (m : Machine) (k : Kernel) (pid : ℕ) (process : Process) (program : Program) :
    Option Kernel := do
  let (loaded, f, user) ← program.load m k.memory process.user
  let process := { process with user := user }
  if !loaded then some ({ k with memory := f }.setProcess pid process)
  else
    let (thread, process, f) := Thread.ofProgram m f pid process program.stackData
    some (({ k with memory := f }.setProcess pid process).addThread thread)

/-- The arguments of the `FreePages` calls of `Exec`, in order. -/
def execFrees (process : Process) : List Block :=
  process.user.addressSpace.regions.map Region.block

/-- A sequence of `FreePages` calls. -/
def freeAll (m : Machine) (f : FrameLedger) (blocks : List Block) : FrameLedger :=
  blocks.foldl (fun f b => f.freePages m.paging b.page b.count) f

/-- `Process::Exec`. The regions are freed and stay in the address space. -/
def exec (m : Machine) (k : Kernel) (pid : ℕ) (process : Process) (program : Program) :
    Option Kernel :=
  startProgram m { k with memory := freeAll m k.memory (execFrees process) } pid
    { process with user := { process.user with pageTable := fun _ => none } } program

/-- One turn of the loop over the regions in `Process::Fork`; `none` is the failed assertion that
memory is left. -/
def forkRegion (m : Machine) (s : FrameLedger × UserSpace) (range : Region) :
    Option (FrameLedger × UserSpace) :=
  let (physicalSpace, f) := s.1.callocatePages (alignUp range.size PMM.pageSize / PMM.pageSize)
  if physicalSpace = 0 then none
  else
    some (f.copy physicalSpace range.physicalBase range.size,
      { addressSpace := s.2.addressSpace.insert range.virtualBase
          ⟨range.virtualBase, range.size, physicalSpace, range.access⟩
        pageTable := s.2.pageTable.mapRange m.paging range.virtualBase physicalSpace range.size })

/-- `Process::Fork` by the thread `current`. -/
def fork (m : Machine) (k : Kernel) (process : Process) (current : Thread) : Option Kernel := do
  let (f, user) ← process.user.addressSpace.regions.foldlM (forkRegion m)
    (k.memory, k.newUserSpace)
  let (thread, f, table) := current.fork m f user.pageTable k.nextProcess
  some ({ k with
    memory := f
    processes := k.processes.insert k.nextProcess
      { user := { user with pageTable := table }, userStackTop := process.userStackTop }
    nextProcess := k.nextProcess + 1 }.addThread thread)

/-- `MM::HandlePageFault`. The first stack of a program is one object for the thread and the
address space, so a new backing shows in both. -/
def pageFault (m : Machine) (k : Kernel) (pid : ℕ) (process : Process) (address : ℕ) : Kernel :=
  match process.user.addressSpace.find address with
  | none => k
  | some region =>
    let (phys, f) := k.memory.callocatePages (divRoundUp region.size PMM.pageSize)
    if phys = 0 then { k with memory := f }
    else
      let (_, user) := process.user.handlePageFault m.paging k.memory.physical address
      { k with
        memory := f
        processes := k.processes.insert pid { process with user := user }
        threads := fun t => (k.threads t).map (Thread.setPhysicalBase pid region phys) }

/-- The physical address that a virtual one is mapped to. -/
def translate (m : Machine) (user : UserSpace) (address : ℕ) : Option ℕ :=
  (user.pageTable (LeafTable.index m.paging address)).map (· + address % PMM.pageSize)

/-- What the processes and the scheduler do. -/
inductive Call
  | createProcess
  | createThread (pid : ℕ)
  | createUserThread (pid : ℕ)
  | startProgram (pid : ℕ) (program : Program)
  | mMap (pid : ℕ) (req : MMapRequest)
  | pageFault (pid address : ℕ)
  | write (pid address : ℕ) (value : UInt8)
  | fork (pid tid : ℕ)
  | exec (pid : ℕ) (program : Program)
  | exit (pid : ℕ)
  | destroyThread (tid : ℕ)

/-- One call; `none` when it cannot be made in this state or ends in a failed assertion. A write to
a page that is not mapped does not complete: the page fault is a call of its own. -/
def step (m : Machine) (k : Kernel) : Call → Option Kernel
  | .createProcess => some k.createProcess
  | .createThread pid => (k.processes.lookup pid).map fun _ => k.createThread m pid
  | .createUserThread pid => (k.processes.lookup pid).map fun process =>
      k.createUserThread m pid process
  | .startProgram pid program => do
    let process ← k.processes.lookup pid
    k.startProgram m pid process program
  | .mMap pid req => do
    let process ← k.processes.lookup pid
    let (_, user) ← process.user.mMap req
    some (k.setProcess pid { process with user := user })
  | .pageFault pid address => (k.processes.lookup pid).map fun process =>
      k.pageFault m pid process address
  | .write pid address value => do
    let process ← k.processes.lookup pid
    let phys ← translate m process.user address
    some { k with memory := k.memory.store phys [value] }
  | .fork pid tid => do
    let process ← k.processes.lookup pid
    let current ← k.threads tid
    if current.parent = pid then k.fork m process current else none
  | .exec pid program => do
    let process ← k.processes.lookup pid
    k.exec m pid process program
  | .exit pid => (k.processes.lookup pid).map fun _ =>
      { k with processes := k.processes.erase pid }
  | .destroyThread tid => (k.threads tid).map fun thread =>
      { k with
        memory := freeAll m k.memory thread.frees
        threads := Function.update k.threads tid none }

/-- A kernel without processes, on a machine whose frame allocator has been up for any time. -/
def boot (pool : FramePool) (bytes : ℕ → UInt8) : Kernel :=
  { memory := ⟨⟨pool.allocator, bytes⟩, pool.live⟩
    processes := .empty
    threads := fun _ => none
    nextProcess := 1
    nextThread := 1 }

end Kernel

end Cryptix.Scheduler
