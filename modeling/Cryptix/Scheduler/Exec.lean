import Cryptix.Scheduler.Fork
import Cryptix.VFS.FileDescriptorTable

/-!
# What a failed `Exec` leaves behind

`Process::Exec` of `Kernel/Scheduler/Process.cpp` with its error path, and its caller
`API::Process::Execve`. `Exec` replaces the descriptors, the name and the page map of the process
before it looks at the path, and nothing is put back when the program does not load: `exec_error`
says what the process is then. It does not go on in that state, since `Execve` ends with `Exit`
whatever `Exec` has returned.

`argv` and `envp` are read once the program is loaded; what `PrepareStack` makes of them is the
`stackData` of the program.
-/

namespace Cryptix.Scheduler

open Memory Prism Lib VFS FileDescriptorTable

/-- The kernel, with the names and the descriptor tables of its processes. `nextObject` is the
number of the next `FileDescriptor`. -/
structure System where
  kernel : Kernel
  name : ℕ → List UInt8
  fdTable : ℕ → FileDescriptorTable FileDescriptorTable.FileDescriptor
  nextObject : ℕ

namespace System

/-- `Process::Exec` with the path and the program it leads to; `none` when there is no such process
or an assertion fails. `/dev/tty` leads to `ttyNode`. -/
def exec (m : Machine) (ttyNode : ℕ) (s : System) (pid : ℕ) (path : List UInt8)
    (program : Program) : Option (Except Errno ℕ × System) := do
  let process ← s.kernel.processes.lookup pid
  let (fdTable, nextObject) := FileDescriptorTable.empty.openStdioStreams ttyNode s.nextObject
  let s := { s with fdTable := Function.update s.fdTable pid fdTable, nextObject := nextObject }
  let f := Kernel.freeAll m s.kernel.memory (Kernel.execFrees process)
  let s := { s with name := Function.update s.name pid path }
  let (loaded, f, user) ← program.load m f { process.user with pageTable := fun _ => none }
  let process := { process with user := user }
  if !loaded then
    some (.error .ENOEXEC,
      { s with kernel := { s.kernel with memory := f }.setProcess pid process })
  else
    let (thread, process, f) := Thread.ofProgram m f pid process program.stackData
    some (.ok 0, { s with
      kernel := ({ s.kernel with memory := f }.setProcess pid process).addThread thread })

/-- `Process::Exit`: of the process, what is modelled here is gone. -/
def exit (s : System) (pid : ℕ) : System :=
  { s with
    kernel := { s.kernel with processes := s.kernel.processes.erase pid }
    fdTable := Function.update s.fdTable pid .empty }

/-- `API::Process::Execve`. After a success the calling thread has exited and does not get to the
`Exit`. -/
def execve (m : Machine) (ttyNode : ℕ) (s : System) (pid : ℕ) (path : List UInt8)
    (program : Program) : Option System := do
  match ← s.exec m ttyNode pid path program with
  | (.ok _, s) => some s
  | (.error _, s) => some (s.exit pid)

/-- Without the names and the descriptors, `Exec` is that of the kernel. -/
theorem exec_kernel (m : Machine) (ttyNode : ℕ) (s : System) (pid : ℕ) (path : List UInt8)
    (program : Program) : (s.exec m ttyNode pid path program).map (·.2.kernel) =
      s.kernel.step m (.exec pid program) := by
  rw [exec, Kernel.step]
  cases hprocess : s.kernel.processes.lookup pid with
  | none => rfl
  | some process =>
    simp only [Option.bind_eq_bind, Option.bind_some, Kernel.exec, Kernel.startProgram]
    cases hload : program.load m (Kernel.freeAll m s.kernel.memory (Kernel.execFrees process))
        { process.user with pageTable := fun _ => none } with
    | none => rfl
    | some loaded =>
      obtain ⟨loaded, f, user⟩ := loaded
      cases loaded
      · rfl
      · rfl

end System

/-! ## The segments of the image -/

section Segments

variable {m : Machine} {loadBase : ℕ} {s s' : FrameLedger × UserSpace}

/-- Where `LoadImage` puts a segment. -/
def Segment.base (loadBase : ℕ) (segment : Segment) : ℕ := offset segment.virtualAddress loadBase

/-- The entry is that of a page of the segment. -/
def Segment.Covers (m : Machine) (loadBase : ℕ) (segment : Segment) (e : ℕ) : Prop :=
  ∃ i < segment.pageCount,
    e = LeafTable.index m.paging (offset (segment.base loadBase) (i * PMM.pageSize))

/-- A segment that is loaded is mapped, and a region is put at its base. -/
theorem Segment.load_frame {segment : Segment} (h : segment.load m loadBase s = some s') :
    (∀ e, (s'.2.pageTable e).isSome ↔ (s.2.pageTable e).isSome ∨ segment.Covers m loadBase e) ∧
      ∀ base, base ≠ segment.base loadBase →
        s'.2.addressSpace.regionTree.lookup base = s.2.addressSpace.regionTree.lookup base := by
  unfold Segment.load at h
  dsimp only at h
  split at h
  · cases h
  · obtain rfl := Option.some.inj h
    refine ⟨fun e => ?_, fun base hbase => ?_⟩
    · unfold LeafTable.mapRange
      rw [LeafTable.isSome_mapPages_iff, divRoundUp_mul_pageSize]
      rfl
    · exact (OrderedMap.lookup_insert _ _ _ _).trans (if_neg hbase)

/-- The loop over the segments maps their pages and no others, and touches no region that is not at
the base of one of them. -/
theorem loadSegments_frame {segments : List Segment}
    (h : segments.foldlM (Segment.load m loadBase) s = some s') :
    (∀ e, (s'.2.pageTable e).isSome ↔
      (s.2.pageTable e).isSome ∨ ∃ segment ∈ segments, segment.Covers m loadBase e) ∧
      ∀ base, (∀ segment ∈ segments, base ≠ segment.base loadBase) →
        s'.2.addressSpace.regionTree.lookup base = s.2.addressSpace.regionTree.lookup base := by
  induction segments generalizing s with
  | nil =>
    obtain rfl : s = s' := by simpa using h
    exact ⟨fun e => by simp, fun _ _ => rfl⟩
  | cons segment segments ih =>
    rw [List.foldlM_cons, Option.bind_eq_bind, Option.bind_eq_some_iff] at h
    obtain ⟨s₁, hload, hrest⟩ := h
    obtain ⟨hmaps, hregions⟩ := Segment.load_frame hload
    obtain ⟨hmapsRest, hregionsRest⟩ := ih hrest
    refine ⟨fun e => ?_, fun base hbase => ?_⟩
    · rw [hmapsRest e, hmaps e, or_assoc, List.exists_mem_cons_iff]
    · obtain ⟨hfirst, hothers⟩ := List.forall_mem_cons.mp hbase
      exact (hregionsRest base hothers).trans (hregions base hfirst)

/-- A program that does not load has loaded the segments of its image, if it has an image: what
fails after them is the interpreter, before any segment of its own. -/
theorem Program.load_eq_false {program : Program} {f f' : FrameLedger} {user user' : UserSpace}
    (h : program.load m f user = some (false, f', user')) :
    (program.image.getD []).foldlM (Segment.load m 0) (f, user) = some (f', user') := by
  unfold Program.load at h
  cases himage : program.image with
  | none =>
    rw [himage] at h
    cases h
    rfl
  | some segments =>
    rw [himage] at h
    simp only [Option.bind_eq_bind, Option.bind_eq_some_iff] at h
    obtain ⟨s₁, hsegments, hinterpreter⟩ := h
    cases hask : program.interpreter with
    | none =>
      rw [hask] at hinterpreter
      cases hinterpreter
    | some interpreter =>
      rw [hask] at hinterpreter
      cases interpreter with
      | none =>
        cases hinterpreter
        exact hsegments
      | some own =>
        obtain ⟨s₂, -, htrue⟩ := Option.bind_eq_some_iff.mp hinterpreter
        cases htrue

end Segments

/-! ## The error path -/

/-- What a failed `Exec` makes of a process, where `segments` are those of the image. -/
structure Stripped (m : Machine) (ttyNode : ℕ) (path : List UInt8) (segments : List Segment)
    (pid : ℕ) (s s' : System) (process process' : Process) : Prop where
  name : s'.name pid = path
  fdTable : ∀ fd, (s'.fdTable pid).getFd fd = stdioStream ttyNode s.nextObject fd
  pageTable : ∀ e, (process'.user.pageTable e).isSome ↔ ∃ segment ∈ segments, segment.Covers m 0 e
  regions : ∀ base, (∀ segment ∈ segments, base ≠ segment.base 0) →
    process'.user.addressSpace.regionTree.lookup base =
      process.user.addressSpace.regionTree.lookup base
  userStackTop : process'.userStackTop = process.userStackTop

/-- Nothing changes but the process, the physical memory and the count of objects. -/
structure OnlyChanges (pid : ℕ) (s s' : System) : Prop where
  name : ∀ other, other ≠ pid → s'.name other = s.name other
  fdTable : ∀ other, other ≠ pid → s'.fdTable other = s.fdTable other
  processes : ∀ other, other ≠ pid →
    s'.kernel.processes.lookup other = s.kernel.processes.lookup other
  threads : s'.kernel.threads = s.kernel.threads

namespace System

variable {m : Machine} {ttyNode pid : ℕ} {s s' : System} {path : List UInt8} {program : Program}
  {e : Errno}

/-- What the error path of `Exec` makes of the system: the new name, the standard streams, the
memory `f` and the process as `Load` has left them. -/
def notLoaded (ttyNode : ℕ) (s : System) (pid : ℕ) (path : List UInt8) (f : FrameLedger)
    (process : Process) : System where
  kernel := { s.kernel with memory := f }.setProcess pid process
  name := Function.update s.name pid path
  fdTable := Function.update s.fdTable pid
    (FileDescriptorTable.empty.openStdioStreams ttyNode s.nextObject).1
  nextObject := s.nextObject + 3

section NotLoaded

variable {f : FrameLedger} {process : Process}

theorem name_notLoaded : (notLoaded ttyNode s pid path f process).name pid = path :=
  Function.update_self ..

theorem getFd_notLoaded (fd : ℤ) : ((notLoaded ttyNode s pid path f process).fdTable pid).getFd fd =
    stdioStream ttyNode s.nextObject fd := by
  simp only [notLoaded, Function.update_self, getFd_openStdioStreams]

theorem lookup_notLoaded :
    (notLoaded ttyNode s pid path f process).kernel.processes.lookup pid = some process :=
  (OrderedMap.lookup_insert _ _ _ _).trans (if_pos rfl)

theorem onlyChanges_notLoaded : OnlyChanges pid s (notLoaded ttyNode s pid path f process) where
  name _ hother := Function.update_of_ne hother ..
  fdTable _ hother := Function.update_of_ne hother ..
  processes _ hother := (OrderedMap.lookup_insert _ _ _ _).trans (if_neg hother)
  threads := rfl

end NotLoaded

/-- `Exec` fails exactly when the program does not load. -/
theorem exec_eq_error_iff : s.exec m ttyNode pid path program = some (.error e, s') ↔
    e = .ENOEXEC ∧ ∃ process f user, s.kernel.processes.lookup pid = some process ∧
      program.load m (Kernel.freeAll m s.kernel.memory (Kernel.execFrees process))
        { process.user with pageTable := fun _ => none } = some (false, f, user) ∧
      s' = notLoaded ttyNode s pid path f { process with user := user } := by
  constructor
  · intro h
    rw [exec] at h
    simp only [Option.bind_eq_bind, Option.bind_eq_some_iff] at h
    obtain ⟨process, hprocess, ⟨loaded, f, user⟩, hload, hresult⟩ := h
    cases loaded with
    | false =>
      obtain ⟨herror, hstate⟩ := Prod.mk.inj (Option.some.inj hresult)
      exact ⟨(Except.error.inj herror).symm, process, f, user, hprocess, hload, hstate.symm⟩
    | true => cases (Prod.mk.inj (Option.some.inj hresult)).1
  · rintro ⟨rfl, process, f, user, hprocess, hload, rfl⟩
    simp only [exec, hprocess, hload, Option.bind_eq_bind, Option.bind_some]
    rfl

/-- When `Exec` fails, it is with `ENOEXEC`. The process has the name of the program and the three
standard streams, its page map has the pages of the segments of the image and no others, and its
regions are what they were but at the bases of these segments. Nobody else sees a difference, and
`Execve` ends the process. -/
theorem exec_error (h : s.exec m ttyNode pid path program = some (.error e, s')) :
    e = .ENOEXEC ∧
      (∃ process process', s.kernel.processes.lookup pid = some process ∧
        s'.kernel.processes.lookup pid = some process' ∧
        Stripped m ttyNode path (program.image.getD []) pid s s' process process') ∧
      OnlyChanges pid s s' ∧
      ∃ s'', s.execve m ttyNode pid path program = some s'' ∧
        s''.kernel.processes.lookup pid = none := by
  have hexecve : s.execve m ttyNode pid path program = some (s'.exit pid) := by
    rw [execve, h]
    rfl
  obtain ⟨herror, process, f, user, hprocess, hload, rfl⟩ := exec_eq_error_iff.mp h
  obtain ⟨hmaps, hregions⟩ := loadSegments_frame (Program.load_eq_false hload)
  refine ⟨herror, ⟨process, { process with user := user }, hprocess, lookup_notLoaded, ?_⟩,
    onlyChanges_notLoaded, _, hexecve, OrderedMap.lookup_erase_self _ _⟩
  refine ⟨name_notLoaded, getFd_notLoaded, fun entry => ?_, hregions, rfl⟩
  -- `Load` starts from the empty page map
  rw [hmaps entry]
  exact or_iff_right Bool.false_ne_true

/-- The shell, with its standard streams and one more open file, which has the number 6. -/
def shell (k : Kernel) : System where
  kernel := k
  name := fun _ => [0x73, 0x68]
  fdTable := fun _ =>
    ((FileDescriptorTable.empty.openStdioStreams 0 0).1.insert (.create 3 1 0 .read) (-1)).2
  nextObject := 4

/-- A file that is no executable. -/
def script : Program := ⟨none, none, [], Nat.zero_le CPU.userStackSize⟩

/-- The state of the shell once it has tried to execute that file. -/
theorem exec_script {k : Kernel} {process : Process}
    (hprocess : k.processes.lookup 1 = some process) (path : List UInt8) : ∃ s',
      (shell k).exec Kernel.smallMachine 0 1 path script = some (.error .ENOEXEC, s') ∧
      s'.name 1 = path ∧ (s'.fdTable 1).getFd 6 = none ∧
      s'.kernel.processes.lookup 1 =
        some { process with user := { process.user with pageTable := fun _ => none } } := by
  refine ⟨_, exec_eq_error_iff.mpr ⟨rfl, process, _, _, hprocess, rfl, rfl⟩, name_notLoaded, ?_,
    lookup_notLoaded⟩
  rw [getFd_notLoaded]
  rfl

theorem onePageRun_mapped : ∃ k process frame, Kernel.onePageRun = some k ∧
    k.processes.lookup 1 = some process ∧ process.user.pageTable 0x140000 = some frame := by
  have hcheck : (do
      let k ← Kernel.onePageRun
      let process ← k.processes.lookup 1
      process.user.pageTable 0x140000).isSome = true := by
    decide +kernel
  obtain ⟨frame, hframe⟩ := Option.isSome_iff_exists.mp hcheck
  obtain ⟨k, hk, hrest⟩ := Option.bind_eq_some_iff.mp hframe
  obtain ⟨process, hprocess, hmapped⟩ := Option.bind_eq_some_iff.mp hrest
  exact ⟨k, process, frame, hk, hprocess, hmapped⟩

/-- A shell that has used a page of its memory, after such an attempt. -/
theorem exec_error_script : ∃ k s' process', Kernel.onePageRun = some k ∧
    (shell k).exec Kernel.smallMachine 0 1 [0x61] script = some (.error .ENOEXEC, s') ∧
    s'.name 1 = [0x61] ∧ s'.kernel.processes.lookup 1 = some process' ∧
    (∀ fd, (s'.fdTable 1).getFd fd = stdioStream 0 4 fd) ∧
    ∀ entry, process'.user.pageTable entry = none := by
  obtain ⟨k, process, -, hk, hlookup, -⟩ := onePageRun_mapped
  obtain ⟨s', hexec, -⟩ := exec_script hlookup [0x61]
  obtain ⟨-, ⟨_, process', -, hprocess', hstripped⟩, -⟩ := exec_error hexec
  refine ⟨k, s', process', hk, hexec, hstripped.name, hprocess', hstripped.fdTable, fun entry => ?_⟩
  rw [← Option.not_isSome_iff_eq_none, hstripped.pageTable entry]
  rintro ⟨segment, hmem, -⟩
  exact absurd hmem List.not_mem_nil

/-- The descriptor table, the name and the page map are not what they were. -/
theorem not_exec_error_keeps : ∃ k process s' process', Kernel.onePageRun = some k ∧
    k.processes.lookup 1 = some process ∧
    (shell k).exec Kernel.smallMachine 0 1 [0x61] script = some (.error .ENOEXEC, s') ∧
    s'.kernel.processes.lookup 1 = some process' ∧ s'.fdTable 1 ≠ (shell k).fdTable 1 ∧
    s'.name 1 ≠ (shell k).name 1 ∧ process'.user.pageTable ≠ process.user.pageTable := by
  obtain ⟨k, process, frame, hk, hprocess, hmapped⟩ := onePageRun_mapped
  obtain ⟨s', hexec, hname, hfd, hprocess'⟩ := exec_script hprocess [0x61]
  refine ⟨k, process, s', _, hk, hprocess, hexec, hprocess', fun hsame => ?_, ?_, fun hsame => ?_⟩
  · rw [hsame] at hfd
    cases hfd
  · rw [hname]
    exact fun hsame => absurd (congrArg List.length hsame) (show 1 ≠ 2 by decide)
  · exact absurd ((congrFun hsame 0x140000).trans hmapped) nofun

end System

end Cryptix.Scheduler
