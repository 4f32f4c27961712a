import Cryptix.Scheduler.Event
import Cryptix.Scheduler.ProcessTable

/-!
# Waiting for children

`Process::WaitPid`, `Fork` and `Exit` in `Kernel/Scheduler/Process.cpp`. A process keeps the list of
its children and an event that its `Exit` triggers; `WaitPid` awaits the events of the children it
selects and reports the child whose event it gets. `Exit` hands the children to the process with pid
1.

A turn of the loop of `WaitPid` is a step, up to the point where the process sleeps, and so is what
it does when it has been woken. `Exit` and `Fork` are one step each. Every process has one thread,
which its `Exit` ends.

The children of a process are never taken out of its list, so `WaitPid` sleeps where it should
report that there is no child left; for a process group it awaits the first child of the group only;
and two children that exit before the woken parent runs leave one exit without a report.
`reports_once` says that in a run without these situations every step of `WaitPid` and `Exit` does
what it should.
-/

namespace Cryptix.Scheduler

open Lib

/-- What `Fork`, `Exit` and `WaitPid` read of a process. Processes are numbers. -/
structure ProcessNode where
  pid : ℤ
  pgid : ℤ
  parent : Option ℕ
  children : List ℕ
  zombies : List ℕ
  status : Option ℤ
  dead : Bool
  deriving DecidableEq, Repr

/-- `W_EXITCODE(ret, 0)`, as an `i32`. -/
def wExitCode (ret : ℤ) : ℤ := (ret * 256).bmod (2 ^ 32)

def wIfStopped (status : ℤ) : Prop := status % 256 = 0x7f

def wIfContinued (status : ℤ) : Prop := status = 0xffff

instance (status : ℤ) : Decidable (wIfStopped status) := inferInstanceAs (Decidable (_ = _))

instance (status : ℤ) : Decidable (wIfContinued status) := inferInstanceAs (Decidable (_ = _))

/-- The arguments of `WaitPid`. -/
structure WaitRequest where
  pid : ℤ
  noHang : Bool
  untraced : Bool
  continued : Bool
  deriving DecidableEq, Repr

/-- What `WaitPid` returns: an error, or a child with its pid and the status that is stored. -/
inductive WaitResult
  | echild
  | eintr
  | reported (child : ℕ) (pid wstatus : ℤ)
  deriving DecidableEq, Repr

/-- Where a process is in `WaitPid`: at the head of the loop, or asleep in `Await` with the children
it has selected. -/
inductive WaitPidPhase
  | turn (req : WaitRequest)
  | asleep (req : WaitRequest) (procs : List ℕ)
  deriving DecidableEq, Repr

/-- The processes. The event of a process has its number, and so has its thread. `reports` counts
how often a process was reported. -/
structure ProcessTree where
  node : ℕ → ProcessNode
  count : ℕ
  processes : ℤ → Option ℕ
  events : Watched ℕ ℕ
  waiting : ℕ → Option WaitPidPhase
  result : ℕ → Option WaitResult
  reports : ℕ → ℕ

inductive TreeAction
  | fork (p : ℕ)
  | exit (p : ℕ) (code : ℤ)
  | waitPid (p : ℕ) (req : WaitRequest)
  | turn (p : ℕ)
  | resume (p : ℕ)
  deriving DecidableEq

namespace ProcessTree

/-- A process that can make calls. -/
def Running (s : ProcessTree) (p : ℕ) : Prop :=
  p < s.count ∧ (s.node p).dead = false ∧ s.waiting p = none

instance (s : ProcessTree) (p : ℕ) : Decidable (s.Running p) := inferInstanceAs (Decidable (_ ∧ _))

/-- `Process::Fork`, as far as the tree goes. -/
def fork (s : ProcessTree) (p : ℕ) : ProcessTree :=
  let pid := allocatePid fun pid => (s.processes pid).isSome
  { s with
    node := Function.update
      (Function.update s.node s.count ⟨pid, (s.node p).pgid, some p, [], [], none, false⟩) p
      { s.node p with children := (s.node p).children ++ [s.count] }
    count := s.count + 1
    processes := Function.update s.processes pid (some s.count) }

/-- A child gets a new parent. -/
def adopt (node : ℕ → ProcessNode) (parent child : ℕ) : ℕ → ProcessNode :=
  let node := Function.update node child { node child with parent := some parent }
  Function.update node parent
    { node parent with children := (node parent).children ++ [child] }

/-- The children of a process that exits go to the process with pid 1. Without one the first child
is handed to nobody, which ends the kernel. -/
def handOver (s : ProcessTree) (p : ℕ) : Option (ℕ → ProcessNode) :=
  if (s.node p).pid > 1 ∧ (s.node p).children ≠ [] then
    (s.processes 1).map fun subreaper =>
      (s.node p).children.foldl (fun node child => adopt node subreaper child) s.node
  else some s.node

/-- The zombies of a process that exits go to its parent. -/
def passZombies (p : ℕ) (node : ℕ → ProcessNode) : Option (ℕ → ProcessNode) :=
  if (node p).zombies = [] then some node
  else
    (node p).parent.map fun parent =>
      (node p).zombies.foldl (fun node zombie =>
        let node := Function.update node zombie { node zombie with parent := some parent }
        Function.update node parent
          { node parent with zombies := (node parent).zombies ++ [zombie] }) node

/-- `Process::Exit`, up to the trigger. -/
def leave (s : ProcessTree) (p : ℕ) (code : ℤ) : Option (ℕ → ProcessNode) :=
  ((s.handOver p).bind (passZombies p)).map fun node =>
    Function.update node p
      { node p with zombies := [], status := some (wExitCode code), dead := true }

def exit (s : ProcessTree) (p : ℕ) (code : ℤ) : Option ProcessTree := do
  let node ← s.leave p code
  let events ← s.events.step (.trigger p)
  return { s with
    node
    processes := Function.update s.processes (s.node p).pid none
    events }

/-- The children whose events `WaitPid` awaits; `none` stands for `ECHILD`. -/
def select (s : ProcessTree) (p : ℕ) (pid : ℤ) : Option (List ℕ) :=
  let children := (s.node p).children
  if children = [] then none
  else if pid < -1 then (children.find? fun c => (s.node c).pgid = -pid).map ([·])
  else if pid = -1 then some children
  else if pid = 0 then (children.find? fun c => (s.node c).pgid = (s.node p).pgid).map ([·])
  else (children.find? fun c => (s.node c).pid = pid).map ([·])

/-- `WaitPid` returns. -/
def answer (s : ProcessTree) (p : ℕ) (result : WaitResult) : ProcessTree :=
  { s with
    waiting := Function.update s.waiting p none
    result := Function.update s.result p (some result)
    reports :=
      match result with
      | .reported c _ _ => Function.update s.reports c (s.reports c + 1)
      | _ => s.reports }

/-- The end of a turn, after `Await` has returned the index `i`. -/
def finish (s : ProcessTree) (p : ℕ) (req : WaitRequest) (procs : List ℕ) (i : ℕ) :
    Option ProcessTree :=
  procs[i]?.map fun which =>
    let status := (s.node which).status.getD 0
    if (¬req.untraced ∧ wIfStopped status) ∨ (¬req.continued ∧ wIfContinued status) then
      { s with waiting := Function.update s.waiting p (some (.turn req)) }
    else s.answer p (.reported which (s.node which).pid (wExitCode status))

/-- A turn of the loop of `WaitPid`, up to the point where the process sleeps. -/
def turn (s : ProcessTree) (p : ℕ) (req : WaitRequest) : Option ProcessTree :=
  match s.select p req.pid with
  | none => some (s.answer p .echild)
  | some procs =>
    match s.events.sys.checkPending procs with
    | some i => do
      let events ← s.events.step (.await p procs)
      { s with events }.finish p req procs i
    | none =>
      if req.noHang then some (s.answer p .eintr)
      else do
        let events ← s.events.step (.await p procs)
        let events ← events.step (.block p)
        return { s with
          events
          waiting := Function.update s.waiting p (some (.asleep req procs)) }

def step (s : ProcessTree) : TreeAction → Option ProcessTree
  | .fork p => if s.Running p then some (s.fork p) else none
  | .exit p code => if s.Running p then s.exit p code else none
  | .waitPid p req =>
    if s.Running p then
      some { s with
        waiting := Function.update s.waiting p (some (.turn req))
        result := Function.update s.result p none }
    else none
  | .turn p =>
    match s.waiting p with
    | some (.turn req) => s.turn p req
    | _ => none
  | .resume p =>
    match s.waiting p with
    | some (.asleep req procs) => do
      let i ← (s.events.sys.thread p).result
      let events ← s.events.step (.detach p)
      { s with events }.finish p req procs i
    | _ => none

/-! ## What the calls should do -/

/-- Whether `pid` stands for a child of a process. -/
def Matches (s : ProcessTree) (p : ℕ) (pid : ℤ) (c : ℕ) : Prop :=
  if 0 < pid then (s.node c).pid = pid
  else if pid = 0 then (s.node c).pgid = (s.node p).pgid
  else if pid = -1 then True
  else (s.node c).pgid = -pid

instance (s : ProcessTree) (p : ℕ) (pid : ℤ) (c : ℕ) : Decidable (s.Matches p pid c) := by
  unfold Matches
  infer_instance

/-- The children that a call of `WaitPid` is for. -/
def Selected (s : ProcessTree) (p : ℕ) (pid : ℤ) (c : ℕ) : Prop :=
  c ∈ (s.node p).children ∧ s.Matches p pid c

/-- A child that has exited, was not reported, and is one that the call is for. -/
def Ripe (s : ProcessTree) (p : ℕ) (req : WaitRequest) (c : ℕ) : Prop :=
  s.Selected p req.pid c ∧ (s.node c).dead = true ∧ s.reports c = 0

/-- A turn of `WaitPid` reports a ripe child if there is one, returns `ECHILD` when all the children
it is for were reported, and sleeps only as a listener of all of them. -/
def TurnCorrect (s s' : ProcessTree) (p : ℕ) (req : WaitRequest) : Prop :=
  (∀ c pid wstatus, s'.result p = some (.reported c pid wstatus) → s.Ripe p req c) ∧
  (s'.result p = some .echild ↔ ∀ c, s.Selected p req.pid c → s.reports c ≠ 0) ∧
  ((∃ c, s.Ripe p req c) → ∃ c pid wstatus, s'.result p = some (.reported c pid wstatus)) ∧
  (s'.waiting p ≠ none → ∀ c, s.Selected p req.pid c → s'.events.listening c p)

/-- A process that is woken reports a ripe child. -/
def ResumeCorrect (s s' : ProcessTree) (p : ℕ) (req : WaitRequest) : Prop :=
  ∃ c pid wstatus, s'.result p = some (.reported c pid wstatus) ∧ s.Ripe p req c

/-- A process that exits wakes the one that sleeps in a `WaitPid` for it, and each of its children
gets one new parent. -/
def ExitCorrect (s s' : ProcessTree) (p : ℕ) : Prop :=
  (∀ q req procs, s.waiting q = some (.asleep req procs) → s.Selected q req.pid p →
    ∃ i, (s'.events.sys.thread q).result = some i ∧ procs[i]? = some p) ∧
  ∀ c ∈ (s.node p).children, ∃ r, (s'.node c).parent = some r ∧
    (s'.node r).children.count c = 1 ∧
    ∀ q, (s'.node q).dead = false ∧ c ∈ (s'.node q).children ↔ q = r

/-- What a step has to do. No process is ever reported twice. -/
def Correct (s : ProcessTree) (a : TreeAction) : Prop :=
  ∀ s', s.step a = some s' → (∀ c, s'.reports c ≤ 1) ∧
    match a with
    | .turn p => ∀ req, s.waiting p = some (.turn req) → TurnCorrect s s' p req
    | .resume p => ∀ req procs, s.waiting p = some (.asleep req procs) → ResumeCorrect s s' p req
    | .exit p _ => ExitCorrect s s' p
    | _ => True

/-- A turn of `WaitPid` is for one child at most, or for any, and for none if all were reported. A
process exits when those that listen to it sleep, and, if it has children, with a pid above 1 and
while the process with pid 1 does not sleep in a `WaitPid` that would be for one of them. -/
def Orderly (s : ProcessTree) : TreeAction → Prop
  | .turn p => ∀ req, s.waiting p = some (.turn req) →
      (req.pid ≠ -1 → ∀ c c', s.Selected p req.pid c → s.Selected p req.pid c' → c = c') ∧
      ((∃ c, s.Selected p req.pid c) → ∃ c, s.Selected p req.pid c ∧ s.reports c = 0)
  | .exit p _ => s.events.ListenersBlocked (.trigger p) ∧
      ((s.node p).children ≠ [] → 1 < (s.node p).pid ∧
        ∀ r, s.processes 1 = some r → ∀ req procs, s.waiting r = some (.asleep req procs) →
          ∀ c ∈ (s.node p).children, ¬s.Matches r req.pid c)
  | _ => True

/-! ## The invariant -/

structure Inv (s : ProcessTree) : Prop where
  events : s.events.Inv
  asleep : ∀ p req procs, s.waiting p = some (.asleep req procs) →
    (s.events.sys.thread p).phase = .asleep procs ∧ (∀ c, c ∈ procs ↔ s.Selected p req.pid c) ∧
      ∀ c ∈ procs, s.events.listening c p ∨ c ∈ s.events.owed p
  outside : ∀ p, (∀ req procs, s.waiting p ≠ some (.asleep req procs)) →
    (s.events.sys.thread p).phase = .outside
  alive : ∀ p, s.waiting p ≠ none → p < s.count ∧ (s.node p).dead = false
  unborn : ∀ p, s.count ≤ p → (s.node p).dead = false ∧ (s.node p).children = []
  unreported : ∀ c, (s.node c).dead = false →
    (s.events.sys.event c).pending = 0 ∧ s.reports c = 0 ∧ ∀ p, c ∉ s.events.owed p
  account : ∀ c, (s.node c).dead = true → (s.events.sys.event c).pending + s.reports c ≤ 1 ∧
    ((s.events.sys.event c).pending + s.reports c = 0 ↔ ∃ p, c ∈ s.events.owed p)
  nodup : ∀ p, (s.node p).dead = false → (s.node p).children.Nodup
  born : ∀ p, ∀ c ∈ (s.node p).children, c < s.count
  one : ∀ p q c, (s.node p).dead = false → (s.node q).dead = false →
    c ∈ (s.node p).children → c ∈ (s.node q).children → p = q
  table : ∀ k r, s.processes k = some r →
    (s.node r).pid = k ∧ (s.node r).dead = false ∧ r < s.count
  zombies : ∀ p, (s.node p).zombies = []
  status : ∀ c, (s.node c).dead = true → ∃ code, (s.node c).status = some (wExitCode code)
  result : ∀ p req, s.waiting p = some (.turn req) → s.result p = none

/-- A process tree in which nobody has exited or waits. -/
structure Fresh (s : ProcessTree) : Prop where
  events : s.events = .boot fun _ => 0
  waiting : s.waiting = fun _ => none
  reports : s.reports = fun _ => 0
  dead : ∀ p, (s.node p).dead = false
  zombies : ∀ p, (s.node p).zombies = []
  unborn : ∀ p, s.count ≤ p → (s.node p).children = []
  nodup : ∀ p, (s.node p).children.Nodup
  born : ∀ p, ∀ c ∈ (s.node p).children, c < s.count
  one : ∀ p q c, c ∈ (s.node p).children → c ∈ (s.node q).children → p = q
  table : ∀ k r, s.processes k = some r → (s.node r).pid = k ∧ r < s.count

theorem Fresh.inv {s : ProcessTree} (h : s.Fresh) : Inv s where
  events := by
    rw [h.events]
    exact Watched.inv_boot _
  asleep p req procs hp := by
    rw [h.waiting] at hp
    cases hp
  outside p _ := by
    rw [h.events]
    rfl
  alive p hp := by
    rw [h.waiting] at hp
    exact absurd rfl hp
  unborn p hp := ⟨h.dead p, h.unborn p hp⟩
  unreported c _ := by
    rw [h.events, h.reports]
    exact ⟨rfl, rfl, fun _ hc => by cases hc⟩
  account c hc := by
    rw [h.dead c] at hc
    cases hc
  nodup p _ := h.nodup p
  born := h.born
  one p q c _ _ := h.one p q c
  table k r hr := ⟨(h.table k r hr).1, h.dead r, (h.table k r hr).2⟩
  zombies := h.zombies
  status c hc := by
    rw [h.dead c] at hc
    cases hc
  result p req hp := by
    rw [h.waiting] at hp
    cases hp

/-! ## Selecting the children -/

/-- Awaiting the first child that has a property is enough when no other child has it. -/
theorem select_find {s : ProcessTree} {p : ℕ} {pid : ℤ} {f : ℕ → Bool}
    (hf : ∀ c, s.Matches p pid c ↔ f c = true)
    (huniq : ∀ c c', s.Selected p pid c → s.Selected p pid c' → c = c') :
    (((s.node p).children.find? f).map ([·]) = none → ∀ c, ¬s.Selected p pid c) ∧
      ∀ procs, ((s.node p).children.find? f).map ([·]) = some procs →
        procs ≠ [] ∧ ∀ c, c ∈ procs ↔ s.Selected p pid c := by
  constructor
  · intro h c hc
    rw [Option.map_eq_none_iff] at h
    exact List.find?_eq_none.mp h c hc.1 ((hf c).mp hc.2)
  · intro procs h
    obtain ⟨b, hb, rfl⟩ := Option.map_eq_some_iff.mp h
    have hmem : s.Selected p pid b :=
      ⟨List.mem_of_find?_eq_some hb, (hf b).mpr (List.find?_some hb)⟩
    refine ⟨List.cons_ne_nil b [], fun c => ?_⟩
    rw [List.mem_singleton]
    exact ⟨fun h => h ▸ hmem, fun hc => huniq c b hc hmem⟩

/-- `WaitPid` awaits the children it is for when there is one at most or it is for any. -/
theorem select_spec {s : ProcessTree} {p : ℕ} {pid : ℤ}
    (huniq : pid ≠ -1 → ∀ c c', s.Selected p pid c → s.Selected p pid c' → c = c') :
    (s.select p pid = none → ∀ c, ¬s.Selected p pid c) ∧
      ∀ procs, s.select p pid = some procs →
        procs ≠ [] ∧ ∀ c, c ∈ procs ↔ s.Selected p pid c := by
  simp only [select]
  split
  · rename_i hnil
    exact ⟨fun _ c hc => by simp [Selected, hnil] at hc, fun procs h => by cases h⟩
  · rename_i hnil
    split
    · refine select_find (fun c => ?_) (huniq (by omega))
      rw [Matches, if_neg (by omega), if_neg (by omega), if_neg (by omega), decide_eq_true_iff]
    · split
      · rename_i hany
        have hmatches (c : ℕ) : s.Matches p pid c := by
          rw [Matches, if_neg (by omega), if_neg (by omega), if_pos hany]
          trivial
        refine ⟨fun h => (by cases h), fun procs h => ?_⟩
        obtain rfl := Option.some.inj h
        exact ⟨hnil, fun c => by simp [Selected, hmatches]⟩
      · split
        · rename_i hzero
          refine select_find (fun c => ?_) (huniq (by omega))
          rw [Matches, if_neg (by omega), if_pos hzero, decide_eq_true_iff]
        · refine select_find (fun c => ?_) (huniq (by omega))
          rw [Matches, if_pos (by omega), decide_eq_true_iff]

/-! ## The tree after an exit -/

/-- What `Exit` makes of the processes: the one with pid 1 gets the children. -/
structure Left (s : ProcessTree) (p : ℕ) (code : ℤ) (node : ℕ → ProcessNode) : Prop where
  pid : ∀ x, (node x).pid = (s.node x).pid
  pgid : ∀ x, (node x).pgid = (s.node x).pgid
  zombies : ∀ x, (node x).zombies = []
  children : ∀ x, (node x).children =
    (s.node x).children ++ if s.processes 1 = some x then (s.node p).children else []
  parent : ∀ x ∈ (s.node p).children, ∃ r, s.processes 1 = some r ∧ (node x).parent = some r
  dead : ∀ x, (node x).dead = true ↔ x = p ∨ (s.node x).dead = true
  status : ∀ x, (node x).status = if x = p then some (wExitCode code) else (s.node x).status

namespace Left

variable {s : ProcessTree} {p : ℕ} {code : ℤ} {node : ℕ → ProcessNode}

theorem alive (h : Left s p code node) (q : ℕ) :
    (node q).dead = false ↔ q ≠ p ∧ (s.node q).dead = false := by
  rw [← Bool.not_eq_true, h.dead, not_or, Bool.not_eq_true]

theorem mem_children (h : Left s p code node) (q c : ℕ) : c ∈ (node q).children ↔
    c ∈ (s.node q).children ∨ s.processes 1 = some q ∧ c ∈ (s.node p).children := by
  rw [h.children, List.mem_append]
  by_cases hq : s.processes 1 = some q <;> simp [hq]

end Left

theorem adopt_apply (node : ℕ → ProcessNode) (r c x : ℕ) :
    adopt node r c x =
      { node x with
        parent := if x = c then some r else (node x).parent
        children := (node x).children ++ if x = r then [c] else [] } := by
  by_cases hc : x = c <;> by_cases hr : x = r
  · subst hc hr
    simp [adopt]
  · subst hc
    simp [adopt, hr]
  · subst hr
    simp [adopt, hc]
  · simp [adopt, hc, hr]

theorem foldl_adopt_apply (r : ℕ) (l : List ℕ) : ∀ (node : ℕ → ProcessNode) (x : ℕ),
    l.foldl (fun node child => adopt node r child) node x =
      { node x with
        parent := if x ∈ l then some r else (node x).parent
        children := (node x).children ++ if x = r then l else [] } := by
  induction l with
  | nil => simp
  | cons c l ih =>
    intro node x
    have hparent : (if x ∈ l then some r else if x = c then some r else (node x).parent) =
        if x ∈ c :: l then some r else (node x).parent := by
      by_cases hl : x ∈ l <;> by_cases hc : x = c <;> simp [hl, hc]
    have hchildren : ((if x = r then [c] else []) ++ if x = r then l else []) =
        if x = r then c :: l else [] := by
      by_cases hr : x = r <;> simp [hr]
    rw [List.foldl_cons, ih, adopt_apply]
    simp only [hparent, List.append_assoc, hchildren]

theorem handOver_apply {s : ProcessTree} {p : ℕ} {node : ℕ → ProcessNode}
    (hpid : (s.node p).children ≠ [] → 1 < (s.node p).pid) (h : s.handOver p = some node) (x : ℕ) :
    node x =
      { s.node x with
        parent := (node x).parent
        children := (s.node x).children ++
          if s.processes 1 = some x then (s.node p).children else [] } ∧
      (x ∈ (s.node p).children → ∃ r, s.processes 1 = some r ∧ (node x).parent = some r) := by
  rw [handOver] at h
  split at h
  · obtain ⟨r, hr, rfl⟩ := Option.map_eq_some_iff.mp h
    rw [foldl_adopt_apply, hr]
    refine ⟨?_, fun hx => ⟨r, rfl, if_pos hx⟩⟩
    by_cases hxr : x = r
    · simp [hxr]
    · simp [hxr, Ne.symm hxr]
  · rename_i hnone
    obtain rfl := Option.some.inj h
    have hnil : (s.node p).children = [] := by
      by_contra hne
      exact hnone ⟨hpid hne, hne⟩
    simp [hnil]

theorem left_of_leave {s : ProcessTree} {p : ℕ} {code : ℤ} {node : ℕ → ProcessNode}
    (hzombies : ∀ x, (s.node x).zombies = [])
    (hpid : (s.node p).children ≠ [] → 1 < (s.node p).pid)
    (h : s.leave p code = some node) : Left s p code node := by
  obtain ⟨node₂, h₂, rfl⟩ := Option.map_eq_some_iff.mp h
  obtain ⟨node₁, h₁, h₂⟩ := Option.bind_eq_some_iff.mp h₂
  have happly := handOver_apply hpid h₁
  have hzombies₁ (x : ℕ) : (node₁ x).zombies = [] := by
    rw [(happly x).1]
    exact hzombies x
  rw [passZombies, if_pos (hzombies₁ p)] at h₂
  obtain rfl := Option.some.inj h₂
  -- the process itself has a status and is dead, the others are as they were handed over
  have hnode (x : ℕ) : Function.update node₁ p
      { node₁ p with zombies := [], status := some (wExitCode code), dead := true } x =
      { node₁ x with
        status := if x = p then some (wExitCode code) else (node₁ x).status
        dead := x = p ∨ (node₁ x).dead = true } := by
    by_cases hx : x = p
    · subst hx
      simp [hzombies₁]
    · simp [hx]
  refine ⟨fun x => ?_, fun x => ?_, fun x => ?_, fun x => ?_, fun x hx => ?_, fun x => ?_,
    fun x => ?_⟩
  · rw [hnode, (happly x).1]
  · rw [hnode, (happly x).1]
  · rw [hnode]
    exact hzombies₁ x
  · rw [hnode, (happly x).1]
  · rw [hnode]
    exact (happly x).2 hx
  · rw [hnode, (happly x).1]
    simp
  · rw [hnode, (happly x).1]

/-! ## The tree after a fork -/

/-- What `Fork` makes of the processes: there is a new one, and its parent has it as a child. -/
structure Forked (s : ProcessTree) (p : ℕ) (newPid : ℤ) (node : ℕ → ProcessNode) : Prop where
  pid : ∀ x ≠ s.count, (node x).pid = (s.node x).pid
  pgid : ∀ x ≠ s.count, (node x).pgid = (s.node x).pgid
  status : ∀ x ≠ s.count, (node x).status = (s.node x).status
  zombies : ∀ x, (node x).zombies = []
  children : ∀ x, (node x).children = (s.node x).children ++ if x = p then [s.count] else []
  dead : ∀ x, (node x).dead = (s.node x).dead
  new : (node s.count).pid = newPid

theorem forked_fork {s : ProcessTree} {p : ℕ} (hp : p ≠ s.count)
    (hdead : (s.node s.count).dead = false) (hchildren : (s.node s.count).children = [])
    (hzombies : ∀ x, (s.node x).zombies = []) :
    Forked s p (allocatePid fun pid => (s.processes pid).isSome) (s.fork p).node := by
  refine ⟨fun x hx => ?_, fun x hx => ?_, fun x hx => ?_, fun x => ?_, fun x => ?_, fun x => ?_, ?_⟩
  · by_cases hxp : x = p <;> simp [fork, hx, hxp]
  · by_cases hxp : x = p <;> simp [fork, hx, hxp]
  · by_cases hxp : x = p <;> simp [fork, hx, hxp]
  · by_cases hxp : x = p
    · simp [fork, hxp, hzombies]
    · by_cases hx : x = s.count <;> simp [fork, hx, hxp, hzombies, Ne.symm hp]
  · by_cases hxp : x = p
    · simp [fork, hxp]
    · by_cases hx : x = s.count <;> simp [fork, hx, hxp, hchildren, Ne.symm hp]
  · by_cases hxp : x = p
    · simp [fork, hxp]
    · by_cases hx : x = s.count <;> simp [fork, hx, hxp, hdead, Ne.symm hp]
  · simp [fork, Ne.symm hp]

/-! ## What `WaitPid` does -/

/-- A status that `Exit` stores does not look like that of a stopped process or of one that goes
on. -/
theorem wExitCode_emod (code : ℤ) : wExitCode code % 256 = 0 := by
  rw [wExitCode, Int.bmod]
  omega

@[simp]
theorem answer_waiting (s : ProcessTree) (p : ℕ) (result : WaitResult) :
    (s.answer p result).waiting p = none := Function.update_self _ _ _

@[simp]
theorem answer_result (s : ProcessTree) (p : ℕ) (result : WaitResult) :
    (s.answer p result).result p = some result := Function.update_self _ _ _

/-- A child that has exited is reported. -/
theorem finish_of_status {s s' : ProcessTree} {p c i : ℕ} {req : WaitRequest} {procs : List ℕ}
    (h : s.finish p req procs i = some s') (hi : procs[i]? = some c)
    (hstatus : ∃ code, (s.node c).status = some (wExitCode code)) :
    ∃ wstatus, s' = s.answer p (.reported c (s.node c).pid wstatus) := by
  obtain ⟨code, hcode⟩ := hstatus
  have hemod := wExitCode_emod code
  have hstopped : ¬wIfStopped (wExitCode code) := by
    rw [wIfStopped]
    omega
  have hcontinued : ¬wIfContinued (wExitCode code) := by
    rw [wIfContinued]
    omega
  simp only [finish, hi, hcode, Option.map_some, Option.getD_some, hstopped, hcontinued, and_false,
    or_false, if_false] at h
  exact ⟨_, (Option.some.inj h).symm⟩

/-- A turn of the loop: no child is selected, one has exited, or none has and the process returns or
sleeps. -/
theorem turn_cases {s s' : ProcessTree} {p : ℕ} {req : WaitRequest}
    (huniq : req.pid ≠ -1 → ∀ c c', s.Selected p req.pid c → s.Selected p req.pid c' → c = c')
    (hstatus : ∀ c, 0 < (s.events.sys.event c).pending →
      ∃ code, (s.node c).status = some (wExitCode code))
    (h : s.turn p req = some s') :
    ((∀ c, ¬s.Selected p req.pid c) ∧ s' = s.answer p .echild) ∨
    (∃ c wstatus events, s.Selected p req.pid c ∧ 0 < (s.events.sys.event c).pending ∧
      (∃ procs, s.events.step (.await p procs) = some events) ∧
      events = { s.events with sys := s.events.sys.takePending c } ∧
      s' = { s with events }.answer p (.reported c (s.node c).pid wstatus)) ∨
    ∃ procs, procs ≠ [] ∧ (∀ c, c ∈ procs ↔ s.Selected p req.pid c) ∧
      s.events.sys.checkPending procs = none ∧
      (s' = s.answer p .eintr ∨
        ∃ events₁ events, s.events.step (.await p procs) = some events₁ ∧
          events₁.step (.block p) = some events ∧
          s' = { s with
            events
            waiting := Function.update s.waiting p (some (.asleep req procs)) }) := by
  have hspec := select_spec huniq
  rw [turn] at h
  split at h
  · rename_i hnone
    exact .inl ⟨hspec.1 hnone, (Option.some.inj h).symm⟩
  · rename_i procs hprocs
    obtain ⟨hne, hmem⟩ := hspec.2 procs hprocs
    split at h
    · rename_i i hi
      obtain ⟨events, hevents, h⟩ := Option.bind_eq_some_iff.mp h
      obtain ⟨c, hc, hpending, heq⟩ := Watched.step_await_pending hevents hi
      obtain ⟨wstatus, rfl⟩ := finish_of_status h hc (hstatus c hpending)
      exact .inr (.inl ⟨c, wstatus, events, (hmem c).mp (List.mem_of_getElem? hc), hpending,
        ⟨procs, hevents⟩, heq, rfl⟩)
    · rename_i hnone
      refine .inr (.inr ⟨procs, hne, hmem, hnone, ?_⟩)
      split at h
      · exact .inl (Option.some.inj h).symm
      · obtain ⟨events₁, hevents₁, h⟩ := Option.bind_eq_some_iff.mp h
        obtain ⟨events, hevents, h⟩ := Option.bind_eq_some_iff.mp h
        exact .inr ⟨events₁, events, hevents₁, hevents, (Option.some.inj h).symm⟩

/-! ## The steps keep the invariant -/

namespace Inv

variable {s s' : ProcessTree} {p : ℕ}

/-- No process is reported twice. -/
theorem reports_le (h : Inv s) (c : ℕ) : s.reports c ≤ 1 := by
  cases hdead : (s.node c).dead with
  | false =>
    rw [(h.unreported c hdead).2.1]
    exact Nat.zero_le 1
  | true =>
    have haccount := (h.account c hdead).1
    omega

/-- A process that is owed an exit sleeps in a `WaitPid` for the child that exited. -/
theorem of_owed (h : Inv s) {q c : ℕ} (hc : c ∈ s.events.owed q) :
    (s.node q).dead = false ∧ c ∈ (s.node q).children ∧ (s.node c).dead = true ∧
      s.reports c = 0 := by
  obtain ⟨i, hresult, hi⟩ := h.events.served q c hc
  have hasleep : ∃ req procs, s.waiting q = some (.asleep req procs) := by
    by_contra hnone
    have hout := h.outside q fun req procs hq => hnone ⟨req, procs, hq⟩
    simp [Awaiter.result, hout] at hresult
  obtain ⟨req, procs, hq⟩ := hasleep
  obtain ⟨hphase, hprocs, -⟩ := h.asleep q req procs hq
  rw [Awaiter.awaited, hphase] at hi
  have hselected := (hprocs c).mp (List.mem_of_getElem? hi)
  have hdead : (s.node c).dead = true := by
    by_contra hnot
    exact (h.unreported c (by simpa using hnot)).2.2 q hc
  have hzero := (h.account c hdead).2.mpr ⟨q, hc⟩
  exact ⟨(h.alive q (by simp [hq])).2, hselected.1, hdead, by omega⟩

/-- Only one process is owed an exit. -/
theorem owed_unique (h : Inv s) {q q' c : ℕ} (hq : c ∈ s.events.owed q)
    (hq' : c ∈ s.events.owed q') : q = q' :=
  h.one q q' c (h.of_owed hq).1 (h.of_owed hq').1 (h.of_owed hq).2.1 (h.of_owed hq').2.1

/-- A step of `WaitPid` of the process `p`, which leaves the tree alone. -/
theorem of_events (h : Inv s) (hnode : s'.node = s.node) (hcount : s'.count = s.count)
    (hprocesses : s'.processes = s.processes) (hevents : s'.events.Inv)
    (hkeeps : Watched.Keeps s.events s'.events p) (hwaiting : ∀ q ≠ p, s'.waiting q = s.waiting q)
    (hresult : ∀ q ≠ p, s'.result q = s.result q) (halive : p < s.count ∧ (s.node p).dead = false)
    (hasleep : ∀ req procs, s'.waiting p = some (.asleep req procs) →
      (s'.events.sys.thread p).phase = .asleep procs ∧ (∀ c, c ∈ procs ↔ s.Selected p req.pid c) ∧
        ∀ c ∈ procs, s'.events.listening c p)
    (houtside : (∀ req procs, s'.waiting p ≠ some (.asleep req procs)) →
      (s'.events.sys.thread p).phase = .outside)
    (hturn : ∀ req, s'.waiting p = some (.turn req) → s'.result p = none)
    (hunreported : ∀ c, (s.node c).dead = false →
      (s'.events.sys.event c).pending = 0 ∧ s'.reports c = 0 ∧ ∀ q, c ∉ s'.events.owed q)
    (haccount : ∀ c, (s.node c).dead = true →
      (s'.events.sys.event c).pending + s'.reports c ≤ 1 ∧
        ((s'.events.sys.event c).pending + s'.reports c = 0 ↔ ∃ q, c ∈ s'.events.owed q)) :
    Inv s' where
  events := hevents
  asleep q req procs hq := by
    have hselected (c : ℕ) : s'.Selected q req.pid c ↔ s.Selected q req.pid c := by
      simp only [Selected, Matches, hnode]
    simp only [hselected]
    by_cases hqp : q = p
    · subst hqp
      obtain ⟨hphase, hprocs, hlistening⟩ := hasleep req procs hq
      exact ⟨hphase, hprocs, fun c hc => .inl (hlistening c hc)⟩
    · rw [hwaiting q hqp] at hq
      obtain ⟨hphase, hprocs, hlistening⟩ := h.asleep q req procs hq
      rw [hkeeps.thread q hqp, hkeeps.owed q hqp]
      exact ⟨hphase, hprocs, fun c hc => (hlistening c hc).imp_left (hkeeps.listening c q hqp)⟩
  outside q hq := by
    by_cases hqp : q = p
    · subst hqp
      exact houtside hq
    · rw [hkeeps.thread q hqp]
      exact h.outside q fun req procs => hwaiting q hqp ▸ hq req procs
  alive q hq := by
    rw [hnode, hcount]
    by_cases hqp : q = p
    · subst hqp
      exact halive
    · rw [hwaiting q hqp] at hq
      exact h.alive q hq
  unborn q hq := by
    rw [hnode]
    exact h.unborn q (hcount ▸ hq)
  unreported c hc := hunreported c (hnode ▸ hc)
  account c hc := haccount c (hnode ▸ hc)
  nodup q := by
    rw [hnode]
    exact h.nodup q
  born q := by
    rw [hnode, hcount]
    exact h.born q
  one q q' c := by
    rw [hnode]
    exact h.one q q' c
  table k r hr := by
    rw [hnode, hcount]
    exact h.table k r (hprocesses ▸ hr)
  zombies q := by
    rw [hnode]
    exact h.zombies q
  status c := by
    rw [hnode]
    exact h.status c
  result q req hq := by
    by_cases hqp : q = p
    · subst hqp
      exact hturn req hq
    · rw [hwaiting q hqp] at hq
      rw [hresult q hqp]
      exact h.result q req hq

/-- `WaitPid` is called. -/
theorem waitPid (h : Inv s) (hrunning : s.Running p) (req : WaitRequest) :
    Inv { s with
      waiting := Function.update s.waiting p (some (.turn req))
      result := Function.update s.result p none } := by
  refine h.of_events rfl rfl rfl h.events (.refl _ p) (fun q hq => Function.update_of_ne hq _ _)
    (fun q hq => Function.update_of_ne hq _ _) ⟨hrunning.1, hrunning.2.1⟩ (fun _ _ hp => ?_)
    (fun _ => h.outside p ?_) (fun _ _ => Function.update_self _ _ _) h.unreported h.account
  · simp at hp
  · simp [hrunning.2.2]

/-- `WaitPid` returns an error. -/
theorem answer (h : Inv s) {req : WaitRequest} (hp : s.waiting p = some (.turn req))
    {result : WaitResult} (hresult : ∀ c pid wstatus, result ≠ .reported c pid wstatus) :
    Inv (s.answer p result) := by
  have hreports : (s.answer p result).reports = s.reports := by
    cases result with
    | reported c pid wstatus => exact absurd rfl (hresult c pid wstatus)
    | _ => rfl
  refine h.of_events rfl rfl rfl h.events (.refl _ p) (fun q hq => Function.update_of_ne hq _ _)
    (fun q hq => Function.update_of_ne hq _ _) (h.alive p (by simp [hp])) (fun _ _ hp' => ?_)
    (fun _ => h.outside p (by simp [hp])) (fun _ hp' => ?_) ?_ ?_
  · simp at hp'
  · simp at hp'
  · rw [hreports]
    exact h.unreported
  · rw [hreports]
    exact h.account

/-- `WaitPid` reports a child whose exit was pending or has woken the process. -/
theorem report (h : Inv s) {c : ℕ} {events : Watched ℕ ℕ} (hevents : events.Inv)
    (hkeeps : Watched.Keeps s.events events p) (halive : p < s.count ∧ (s.node p).dead = false)
    (houtside : (events.sys.thread p).phase = .outside) (hdead : (s.node c).dead = true)
    (hpending : (events.sys.event c).pending = 0) (hreports : s.reports c = 0)
    (howed : ∀ q, c ∉ events.owed q)
    (hother : ∀ x ≠ c, (events.sys.event x).pending = (s.events.sys.event x).pending ∧
      ∀ q, x ∈ events.owed q ↔ x ∈ s.events.owed q) (pid wstatus : ℤ) :
    Inv ({ s with events }.answer p (.reported c pid wstatus)) := by
  refine h.of_events rfl rfl rfl hevents hkeeps (fun q hq => Function.update_of_ne hq _ _)
    (fun q hq => Function.update_of_ne hq _ _) halive (fun _ _ hp' => ?_) (fun _ => houtside)
    (fun _ hp' => ?_) (fun x hx => ?_) (fun x hx => ?_)
  · simp at hp'
  · simp at hp'
  · have hxc : x ≠ c := by
      rintro rfl
      simp [hdead] at hx
    simp only [ProcessTree.answer, Function.update_of_ne hxc, (hother x hxc).1, (hother x hxc).2]
    exact h.unreported x hx
  · by_cases hxc : x = c
    · subst hxc
      simp [ProcessTree.answer, hpending, hreports, howed]
    · simp only [ProcessTree.answer, Function.update_of_ne hxc, (hother x hxc).1,
        (hother x hxc).2]
      exact h.account x hx

/-- What is pending is the exit of a child that was not reported. -/
theorem of_pending (h : Inv s) {c : ℕ} (hpending : 0 < (s.events.sys.event c).pending) :
    (s.node c).dead = true ∧ (s.events.sys.event c).pending = 1 ∧ s.reports c = 0 ∧
      ∀ q, c ∉ s.events.owed q := by
  have hdead : (s.node c).dead = true := by
    by_contra hnot
    have hzero := (h.unreported c (by simpa using hnot)).1
    omega
  obtain ⟨hle, hiff⟩ := h.account c hdead
  refine ⟨hdead, by omega, by omega, fun q hq => ?_⟩
  have hzero := hiff.mpr ⟨q, hq⟩
  omega

theorem turn (h : Inv s) {req : WaitRequest} (hp : s.waiting p = some (.turn req))
    (huniq : req.pid ≠ -1 → ∀ c c', s.Selected p req.pid c → s.Selected p req.pid c' → c = c')
    (hstep : s.turn p req = some s') : Inv s' := by
  have halive := h.alive p (by simp [hp])
  rcases turn_cases huniq (fun c hc => h.status c (h.of_pending hc).1) hstep with
    ⟨-, rfl⟩ | ⟨c, wstatus, events, -, hpending, ⟨procs, hawait⟩, rfl, rfl⟩ |
    ⟨procs, -, hmem, hnone, rfl | ⟨events₁, events, hawait, hblock, rfl⟩⟩
  · exact h.answer hp (by simp)
  · obtain ⟨hdead, hone, hreports, howed⟩ := h.of_pending hpending
    refine h.report (h.events.step (by trivial) hawait) (Watched.keeps_takePending _ _ _) halive
      (h.outside p (by simp [hp])) hdead ?_ hreports howed (fun x hx => ⟨?_, fun q => Iff.rfl⟩) _ _
    · simp [EventSystem.takePending, hone]
    · simp [EventSystem.takePending, hx]
  · exact h.answer hp (by simp)
  · obtain ⟨hkeeps, hphase, howed, hpending, hlistening⟩ :=
      Watched.step_await_block hawait hnone hblock
    refine h.of_events rfl rfl rfl ((h.events.step (by trivial) hawait).step (by trivial) hblock)
      hkeeps
      (fun q hq => Function.update_of_ne hq _ _) (fun _ _ => rfl) halive (fun req' procs' hp' => ?_)
      (fun hnot => ?_) (fun _ hp' => ?_) ?_ ?_
    · obtain ⟨rfl, rfl⟩ : req = req' ∧ procs = procs' := by simpa using hp'
      exact ⟨hphase, hmem, hlistening⟩
    · exact absurd (Function.update_self _ _ _) (hnot req procs)
    · simp at hp'
    · simpa only [howed, hpending] using h.unreported
    · simpa only [howed, hpending] using h.account

/-- The process that is woken knows the child whose exit it is owed, and no other. -/
theorem woken (h : Inv s) {req : WaitRequest} {procs : List ℕ}
    (hp : s.waiting p = some (.asleep req procs)) {i : ℕ}
    (hi : (s.events.sys.thread p).result = some i) :
    ∃ c, procs[i]? = some c ∧ s.Selected p req.pid c ∧ ∀ x, x ∈ s.events.owed p ↔ x = c := by
  have hawaited : (s.events.sys.thread p).awaited = procs := by
    rw [Awaiter.awaited, (h.asleep p req procs hp).1]
  have hserved : ∀ x ∈ s.events.owed p, procs[i]? = some x := by
    intro x hx
    obtain ⟨j, hj, hx⟩ := h.events.served p x hx
    rw [hi] at hj
    rwa [hawaited, ← Option.some.inj hj] at hx
  obtain ⟨c, hc⟩ := List.exists_mem_of_ne_nil _ ((h.events.result p).mp (by simp [hi]))
  refine ⟨c, hserved c hc, ?_, fun x => ⟨fun hx => ?_, fun hx => hx ▸ hc⟩⟩
  · exact ((h.asleep p req procs hp).2.1 c).mp (List.mem_of_getElem? (hserved c hc))
  · exact Option.some.inj ((hserved x hx).symm.trans (hserved c hc))

/-- What a process does that is woken. -/
theorem resume_cases (h : Inv s) (hstep : s.step (.resume p) = some s') :
    ∃ req procs c wstatus events, s.waiting p = some (.asleep req procs) ∧
      s.Selected p req.pid c ∧ (∀ x, x ∈ s.events.owed p ↔ x = c) ∧
      s.events.step (.detach p) = some events ∧
      s' = { s with events }.answer p (.reported c (s.node c).pid wstatus) := by
  simp only [step] at hstep
  split at hstep
  · rename_i req procs hp
    obtain ⟨i, hi, hstep⟩ := Option.bind_eq_some_iff.mp hstep
    obtain ⟨events, hevents, hstep⟩ := Option.bind_eq_some_iff.mp hstep
    obtain ⟨c, hc, hselected, howed⟩ := h.woken hp hi
    have hstatus := h.status c (h.of_owed ((howed c).mpr rfl)).2.2.1
    obtain ⟨wstatus, rfl⟩ := finish_of_status hstep hc hstatus
    exact ⟨req, procs, c, wstatus, events, hp, hselected, howed, hevents, rfl⟩
  · cases hstep

theorem resume (h : Inv s) (hstep : s.step (.resume p) = some s') : Inv s' := by
  obtain ⟨req, procs, c, wstatus, events, hp, -, howed, hevents, rfl⟩ := h.resume_cases hstep
  obtain ⟨hkeeps, hphase, howed', hpending⟩ := Watched.step_detach h.events hevents
  have hc : c ∈ s.events.owed p := (howed c).mpr rfl
  obtain ⟨-, -, hdead, hreports⟩ := h.of_owed hc
  have hzero := (h.account c hdead).2.mpr ⟨p, hc⟩
  refine h.report (h.events.step (by trivial) hevents) hkeeps (h.alive p (by simp [hp])) hphase
    hdead ?_ hreports (fun q hq => ?_) (fun x hx => ⟨hpending x, fun q => ?_⟩) _ _
  · rw [hpending]
    omega
  · by_cases hqp : q = p
    · simp [howed', hqp] at hq
    · rw [howed', Function.update_of_ne hqp] at hq
      exact hqp (h.owed_unique hq hc)
  · by_cases hqp : q = p
    · simp [howed', hqp, howed, hx]
    · rw [howed', Function.update_of_ne hqp]

theorem fork (h : Inv s) (hrunning : s.Running p) : Inv (s.fork p) := by
  obtain ⟨hp, halive, hwaiting⟩ := hrunning
  obtain ⟨hdead, hnil⟩ := h.unborn s.count le_rfl
  have hforked := forked_fork (Nat.ne_of_lt hp) hdead hnil h.zombies
  have hborn : ∀ q, ∀ c ∈ (s.node q).children, c ≠ s.count :=
    fun q c hc => Nat.ne_of_lt (h.born q c hc)
  have hmem (q c : ℕ) : c ∈ ((s.fork p).node q).children ↔
      c ∈ (s.node q).children ∨ q = p ∧ c = s.count := by
    rw [hforked.children, List.mem_append]
    by_cases hqp : q = p <;> simp [hqp]
  -- a process that sleeps in `WaitPid` keeps its children
  have hselected {q : ℕ} (hq : q ≠ p) (hcount : q ≠ s.count) (pid : ℤ) (c : ℕ) :
      (s.fork p).Selected q pid c ↔ s.Selected q pid c := by
    have hchildren : c ∈ ((s.fork p).node q).children ↔ c ∈ (s.node q).children := by
      simp [hmem, hq]
    rw [Selected, Selected, hchildren]
    refine and_congr_right fun hc => ?_
    rw [Matches, Matches, hforked.pid c (hborn q c hc), hforked.pgid c (hborn q c hc),
      hforked.pgid q hcount]
  refine ⟨h.events, fun q req procs hq => ?_, h.outside, fun q hq => ?_, fun q hq => ?_,
    fun c hc => ?_, fun c hc => ?_, fun q hq => ?_, fun q c hc => ?_,
    fun q q' c hq hq' hc hc' => ?_, fun k r hr => ?_, hforked.zombies, fun c hc => ?_, h.result⟩
  · have hqp : q ≠ p := by
      rintro rfl
      exact absurd (hwaiting.symm.trans hq) (by simp)
    have hcount : q ≠ s.count := Nat.ne_of_lt (h.alive q (by simp [show s.waiting q = _ from hq])).1
    simp only [hselected hqp hcount]
    exact h.asleep q req procs hq
  · rw [hforked.dead]
    exact ⟨Nat.lt_succ_of_lt (h.alive q hq).1, (h.alive q hq).2⟩
  · have hcount : s.count + 1 ≤ q := hq
    rw [hforked.dead, hforked.children, if_neg (by omega), List.append_nil]
    exact h.unborn q (by omega)
  · exact h.unreported c (hforked.dead c ▸ hc)
  · exact h.account c (hforked.dead c ▸ hc)
  · rw [hforked.dead] at hq
    rw [hforked.children, List.nodup_append]
    refine ⟨h.nodup q hq, ?_, fun a ha b hb => ?_⟩
    · split <;> simp
    · split at hb
      · rw [List.mem_singleton.mp hb]
        exact hborn q a ha
      · cases hb
  · have hcount : (s.fork p).count = s.count + 1 := rfl
    rcases (hmem q c).mp hc with hc | ⟨-, rfl⟩
    · have hlt := h.born q c hc
      omega
    · omega
  · rw [hforked.dead] at hq hq'
    rcases (hmem q c).mp hc with hc | ⟨rfl, rfl⟩
    · rcases (hmem q' c).mp hc' with hc' | ⟨-, rfl⟩
      · exact h.one q q' c hq hq' hc hc'
      · exact absurd rfl (hborn q _ hc)
    · rcases (hmem q' _).mp hc' with hc' | ⟨rfl, -⟩
      · exact absurd rfl (hborn q' _ hc')
      · rfl
  · rw [hforked.dead]
    simp only [ProcessTree.fork] at hr ⊢
    by_cases hk : k = allocatePid fun pid => (s.processes pid).isSome
    · subst hk
      obtain rfl : s.count = r := by simpa using hr
      exact ⟨hforked.new, hdead, Nat.lt_succ_self _⟩
    · rw [Function.update_of_ne hk] at hr
      obtain ⟨hpid, hlive, hlt⟩ := h.table k r hr
      exact ⟨(hforked.pid r (Nat.ne_of_lt hlt)).trans hpid, hlive, Nat.lt_succ_of_lt hlt⟩
  · rw [hforked.dead] at hc
    have hcount : c ≠ s.count := by
      rintro rfl
      simp [hdead] at hc
    rw [hforked.status c hcount]
    exact h.status c hc

/-- What a process that exits leaves behind. -/
theorem exit_cases (h : Inv s) {code : ℤ}
    (hpid : (s.node p).children ≠ [] → 1 < (s.node p).pid) (hstep : s.exit p code = some s') :
    ∃ node events, Left s p code node ∧ s.events.step (.trigger p) = some events ∧
      s' = { s with
        node
        processes := Function.update s.processes (s.node p).pid none
        events } := by
  obtain ⟨node, hnode, hstep⟩ := Option.bind_eq_some_iff.mp hstep
  obtain ⟨events, hevents, hstep⟩ := Option.bind_eq_some_iff.mp hstep
  exact ⟨node, events, left_of_leave h.zombies hpid hnode, hevents, (Option.some.inj hstep).symm⟩

section

variable {code : ℤ} {node : ℕ → ProcessNode}

/-- A child that is handed over is new to the process that gets it. -/
theorem nodup_left (h : Inv s) (halive : (s.node p).dead = false) (hleft : Left s p code node)
    (q : ℕ) (hq : (node q).dead = false) : (node q).children.Nodup := by
  obtain ⟨hqp, hq⟩ := (hleft.alive q).mp hq
  rw [hleft.children, List.nodup_append]
  refine ⟨h.nodup q hq, ?_, fun a ha b hb => ?_⟩
  · split
    · exact h.nodup p halive
    · exact List.nodup_nil
  · split at hb
    · rintro rfl
      exact hqp (h.one q p a hq halive ha hb)
    · cases hb

/-- Only one process gets the children. -/
theorem one_left (h : Inv s) (halive : (s.node p).dead = false) (hleft : Left s p code node)
    {q q' c : ℕ} (hq : (node q).dead = false) (hq' : (node q').dead = false)
    (hc : c ∈ (node q).children) (hc' : c ∈ (node q').children) : q = q' := by
  obtain ⟨hqp, hq⟩ := (hleft.alive q).mp hq
  obtain ⟨hqp', hq'⟩ := (hleft.alive q').mp hq'
  rcases (hleft.mem_children q c).mp hc with hc | ⟨hone, hc⟩ <;>
    rcases (hleft.mem_children q' c).mp hc' with hc' | ⟨hone', hc'⟩
  · exact h.one q q' c hq hq' hc hc'
  · exact absurd (h.one q p c hq halive hc hc') hqp
  · exact absurd (h.one q' p c hq' halive hc' hc) hqp'
  · exact Option.some.inj (hone.symm.trans hone')

end

theorem exit (h : Inv s) (hrunning : s.Running p) {code : ℤ} (hord : s.Orderly (.exit p code))
    (hstep : s.exit p code = some s') : Inv s' := by
  obtain ⟨hlt, halive, hwaiting⟩ := hrunning
  obtain ⟨hblocked, hreaper⟩ := hord
  obtain ⟨node, events, hleft, hevents, rfl⟩ :=
    h.exit_cases (fun hne => (hreaper hne).1) hstep
  obtain ⟨hphase, hothers, howed, hpending⟩ := Watched.step_trigger hevents
  -- a process that sleeps in `WaitPid` gets no children
  have hselected {q : ℕ} {req : WaitRequest} {procs : List ℕ}
      (hq : s.waiting q = some (.asleep req procs)) (c : ℕ) :
      c ∈ (node q).children ∧ (if 0 < req.pid then (node c).pid = req.pid
        else if req.pid = 0 then (node c).pgid = (node q).pgid
        else if req.pid = -1 then True else (node c).pgid = -req.pid) ↔
      s.Selected q req.pid c := by
    rw [hleft.mem_children, hleft.pid, hleft.pgid, hleft.pgid, Selected, Matches]
    refine and_congr_left fun hmatches => ⟨fun hc => hc.resolve_right ?_, .inl⟩
    rintro ⟨hone, hc⟩
    exact (hreaper (List.ne_nil_of_mem hc)).2 q hone req procs hq c hc hmatches
  obtain ⟨hzero, hreports, hunowed⟩ := h.unreported p halive
  refine ⟨h.events.trigger hblocked hevents, fun q req procs hq => ?_, fun q hq => ?_,
    fun q hq => ?_, fun q hq => ?_, fun c hc => ?_, fun c hc => ?_, fun q hq => ?_,
    fun q c hc => ?_, fun q q' c hq hq' hc hc' => ?_, fun k r hr => ?_, hleft.zombies,
    fun c hc => ?_, h.result⟩
  · obtain ⟨hasleep, hprocs, hlistening⟩ := h.asleep q req procs hq
    refine ⟨(hphase q).trans hasleep, fun c => (hprocs c).trans (hselected hq c).symm,
      fun c hc => ?_⟩
    rcases hlistening c hc with hlistening | hc
    · by_cases hcp : c = p
      · exact .inr ((howed q c).mpr (.inr ⟨hcp, hcp ▸ hlistening⟩))
      · exact .inl ((hothers c hcp).2 q hlistening)
    · exact .inr ((howed q c).mpr (.inl hc))
  · exact (hphase q).trans (h.outside q hq)
  · have hqp : q ≠ p := by
      rintro rfl
      exact hq hwaiting
    exact ⟨(h.alive q hq).1, (hleft.alive q).mpr ⟨hqp, (h.alive q hq).2⟩⟩
  · obtain ⟨hlive, hnil⟩ := h.unborn q hq
    have hqp : q ≠ p := by
      rintro rfl
      exact absurd hlt (Nat.not_lt.mpr hq)
    have hone : s.processes 1 ≠ some q := fun hone =>
      absurd (h.table 1 q hone).2.2 (Nat.not_lt.mpr hq)
    refine ⟨(hleft.alive q).mpr ⟨hqp, hlive⟩, ?_⟩
    rw [hleft.children, hnil, if_neg hone, List.append_nil]
  · obtain ⟨hcp, hc⟩ := (hleft.alive c).mp hc
    obtain ⟨hc₀, hreports, hunowed⟩ := h.unreported c hc
    exact ⟨(hothers c hcp).1.trans hc₀, hreports,
      fun q hq => (hunowed q) (by simpa [howed, hcp] using hq)⟩
  · by_cases hcp : c = p
    · subst hcp
      simp only [howed, hunowed, false_or, true_and, hreports]
      rcases hpending with ⟨hlistening, hpending⟩ | ⟨hnone, hpending⟩
      · simp [hpending, hzero, hlistening]
      · simp [hpending, hzero, hnone]
    · have hc : (s.node c).dead = true := ((hleft.dead c).mp hc).resolve_left hcp
      simp only [howed, hcp, false_and, or_false, (hothers c hcp).1]
      exact h.account c hc
  · exact h.nodup_left halive hleft q hq
  · rcases (hleft.mem_children q c).mp hc with hc | ⟨-, hc⟩
    · exact h.born q c hc
    · exact h.born p c hc
  · exact h.one_left halive hleft hq hq' hc hc'
  · by_cases hk : k = (s.node p).pid
    · simp [hk] at hr
    · simp only [Function.update_of_ne hk] at hr
      obtain ⟨hpid, hlive, hlt⟩ := h.table k r hr
      have hrp : r ≠ p := by
        rintro rfl
        exact hk hpid.symm
      exact ⟨(hleft.pid r).trans hpid, (hleft.alive r).mpr ⟨hrp, hlive⟩, hlt⟩
  · by_cases hcp : c = p
    · exact ⟨code, (hleft.status c).trans (if_pos hcp)⟩
    · rw [hleft.status, if_neg hcp]
      exact h.status c (((hleft.dead c).mp hc).resolve_left hcp)

theorem step (h : Inv s) {a : TreeAction} (hord : s.Orderly a) (hstep : s.step a = some s') :
    Inv s' := by
  cases a with
  | fork p =>
    obtain ⟨hrunning, hstep⟩ := Option.ite_none_right_eq_some.mp hstep
    exact Option.some.inj hstep ▸ h.fork hrunning
  | exit p code =>
    obtain ⟨hrunning, hstep⟩ := Option.ite_none_right_eq_some.mp hstep
    exact h.exit hrunning hord hstep
  | waitPid p req =>
    obtain ⟨hrunning, hstep⟩ := Option.ite_none_right_eq_some.mp hstep
    exact Option.some.inj hstep ▸ h.waitPid hrunning req
  | turn p =>
    simp only [ProcessTree.step] at hstep
    split at hstep
    · rename_i req hp
      exact h.turn hp (hord req hp).1 hstep
    · cases hstep
  | resume p => exact h.resume hstep

/-! ## The steps do what they should -/

/-- A child that has exited is pending when its parent is outside of `Await`. -/
theorem pending_of_ripe (h : Inv s) {req : WaitRequest} (hp : s.waiting p = some (.turn req))
    {c : ℕ}
    (hc : s.Ripe p req c) : 0 < (s.events.sys.event c).pending := by
  obtain ⟨hselected, hdead, hreports⟩ := hc
  by_contra hzero
  obtain ⟨q, hq⟩ := (h.account c hdead).2.mp (by omega)
  -- the process that is owed the exit would be the parent
  obtain ⟨hlive, hchild, -⟩ := h.of_owed hq
  obtain rfl := h.one q p c hlive (h.alive p (by simp [hp])).2 hchild hselected.1
  have hphase := h.outside q (by simp [hp])
  have hsome := (h.events.result q).mpr (List.ne_nil_of_mem hq)
  simp [Awaiter.result, hphase] at hsome

theorem turn_correct (h : Inv s) {req : WaitRequest} (hp : s.waiting p = some (.turn req))
    (hord : s.Orderly (.turn p)) (hstep : s.turn p req = some s') : TurnCorrect s s' p req := by
  obtain ⟨huniq, hleft⟩ := hord req hp
  have hnotall : ∀ c, s.Selected p req.pid c → ¬∀ c, s.Selected p req.pid c → s.reports c ≠ 0 := by
    intro c hc hall
    obtain ⟨c', hc', hzero⟩ := hleft ⟨c, hc⟩
    exact hall c' hc' hzero
  rcases turn_cases huniq (fun c hc => h.status c (h.of_pending hc).1) hstep with
    ⟨hnone, rfl⟩ | ⟨c, wstatus, events, hselected, hpending, -, -, rfl⟩ |
    ⟨procs, hne, hmem, hnone, hs'⟩
  · refine ⟨by simp, ?_, fun ⟨c, hc⟩ => absurd hc.1 (hnone c), by simp⟩
    simpa using fun c hc => absurd hc (hnone c)
  · obtain ⟨hdead, -, hreports, -⟩ := h.of_pending hpending
    refine ⟨?_, ?_, fun _ => ⟨c, _, wstatus, Function.update_self _ _ _⟩, by simp⟩
    · intro c' pid' wstatus' heq
      obtain ⟨rfl, -⟩ : c = c' ∧ _ := by simpa using heq
      exact ⟨hselected, hdead, hreports⟩
    · simpa using hnotall c hselected
  · obtain ⟨c, hc⟩ := List.exists_mem_of_ne_nil _ hne
    have hnotripe (c : ℕ) : ¬s.Ripe p req c := by
      intro hripe
      have hpending := h.pending_of_ripe hp hripe
      have hzero := Watched.checkPending_eq_none hnone c ((hmem c).mpr hripe.1)
      omega
    have hall := hnotall c ((hmem c).mp hc)
    rcases hs' with rfl | ⟨events₁, events, hawait, hblock, rfl⟩
    · refine ⟨by simp, ?_, fun ⟨c, hc⟩ => absurd hc (hnotripe c), by simp⟩
      simpa using hall
    · have hresult := h.result p req hp
      refine ⟨by simp [hresult], ?_, fun ⟨c, hc⟩ => absurd hc (hnotripe c), fun _ c hc => ?_⟩
      · simpa [hresult] using hall
      · exact (Watched.step_await_block hawait hnone hblock).2.2.2.2 c ((hmem c).mpr hc)

theorem resume_correct (h : Inv s) (hstep : s.step (.resume p) = some s') {req : WaitRequest}
    {procs : List ℕ} (hp : s.waiting p = some (.asleep req procs)) : ResumeCorrect s s' p req := by
  obtain ⟨req', procs', c, wstatus, events, hp', hselected, howed, -, rfl⟩ := h.resume_cases hstep
  obtain ⟨rfl, rfl⟩ : req = req' ∧ procs = procs' := by simpa using hp.symm.trans hp'
  obtain ⟨-, -, hdead, hreports⟩ := h.of_owed ((howed c).mpr rfl)
  exact ⟨c, _, wstatus, Function.update_self _ _ _, hselected, hdead, hreports⟩

theorem exit_correct (h : Inv s) (hrunning : s.Running p) {code : ℤ}
    (hord : s.Orderly (.exit p code)) (hstep : s.exit p code = some s') : ExitCorrect s s' p := by
  have hinv := h.exit hrunning hord hstep
  obtain ⟨-, halive, -⟩ := hrunning
  obtain ⟨-, hreaper⟩ := hord
  obtain ⟨node, events, hleft, hevents, rfl⟩ :=
    h.exit_cases (fun hne => (hreaper hne).1) hstep
  obtain ⟨hphase, -, howed, -⟩ := Watched.step_trigger hevents
  constructor
  · intro q req procs hq hselected
    obtain ⟨hasleep, hprocs, hlistening⟩ := h.asleep q req procs hq
    have hlistening := (hlistening p ((hprocs p).mpr hselected)).resolve_right
      ((h.unreported p halive).2.2 q)
    obtain ⟨i, hi, hp⟩ := hinv.events.served q p ((howed q p).mpr (.inr ⟨rfl, hlistening⟩))
    have hawaited : (events.sys.thread q).awaited = procs := by
      rw [Awaiter.awaited, hphase, hasleep]
    exact ⟨i, hi, hawaited ▸ hp⟩
  · intro c hc
    obtain ⟨r, hr, hparent⟩ := hleft.parent c hc
    obtain ⟨hpid, hlive, -⟩ := h.table 1 r hr
    have hrp : r ≠ p := by
      rintro rfl
      have hgt := (hreaper (List.ne_nil_of_mem hc)).1
      omega
    have hlive : (node r).dead = false := (hleft.alive r).mpr ⟨hrp, hlive⟩
    have hmem : c ∈ (node r).children := (hleft.mem_children r c).mpr (.inr ⟨hr, hc⟩)
    refine ⟨r, hparent, List.count_eq_one_of_mem (hinv.nodup r hlive) hmem, fun q => ⟨?_, ?_⟩⟩
    · rintro ⟨hq, hcq⟩
      exact hinv.one q r c hq hlive hcq hmem
    · rintro rfl
      exact ⟨hlive, hmem⟩

theorem correct (h : Inv s) {a : TreeAction} (hord : s.Orderly a) : s.Correct a := by
  intro s' hstep
  refine ⟨(h.step hord hstep).reports_le, ?_⟩
  cases a with
  | fork p => trivial
  | waitPid p req => trivial
  | exit p code =>
    obtain ⟨hrunning, hstep⟩ := Option.ite_none_right_eq_some.mp hstep
    exact h.exit_correct hrunning hord hstep
  | turn p =>
    intro req hp
    simp only [ProcessTree.step, hp] at hstep
    exact h.turn_correct hp hord hstep
  | resume p =>
    intro req procs hp
    exact h.resume_correct hstep hp

end Inv

/-- In every run of forks, exits and calls of `WaitPid` whose steps are orderly, every exit is
reported once and every step does what it should. -/
theorem reports_once {s : ProcessTree} (hs : s.Fresh) {actions : List TreeAction}
    (h : Along step Orderly s actions) : Along step Correct s actions :=
  .of_invariant hs.inv h (fun _ _ hinv hord => hinv.correct hord)
    fun _ _ _ hinv hord hstep => hinv.step hord hstep

/-- The tree with the first process, whose pid is 1. -/
def init : ProcessTree where
  node p := ⟨if p = 0 then 1 else 0, 1, none, [], [], none, false⟩
  count := 1
  processes := Function.update (fun _ => none) 1 (some 0)
  events := .boot fun _ => 0
  waiting _ := none
  result _ := none
  reports _ := 0

theorem fresh_init : Fresh init where
  events := rfl
  waiting := rfl
  reports := rfl
  dead _ := rfl
  zombies _ := rfl
  unborn _ _ := rfl
  nodup _ := List.nodup_nil
  born _ _ hc := by cases hc
  one _ _ _ hc := by cases hc
  table k r hr := by
    by_cases hk : k = 1
    · subst hk
      obtain rfl : 0 = r := by simpa [init] using hr
      exact ⟨rfl, Nat.zero_lt_one⟩
    · simp [init, hk] at hr

/-- A call of `WaitPid` for any child. -/
def anyChild (noHang : Bool) : WaitRequest := ⟨-1, noHang, false, false⟩

/-- One of two children exits before its parent waits, the other one while it sleeps. -/
theorem reports_once_two_children :
    Along step Correct init
      [.fork 0, .fork 0, .exit 1 7, .waitPid 0 (anyChild false), .turn 0,
        .waitPid 0 (anyChild false), .turn 0, .exit 2 8, .resume 0] := by
  refine reports_once fresh_init ?_
  have hturn {s : ProcessTree} (hs : s.waiting 0 = some (.turn (anyChild false))) {c : ℕ}
      (hc : c ∈ (s.node 0).children) (hzero : s.reports c = 0) : s.Orderly (.turn 0) := by
    intro req hreq
    obtain rfl : anyChild false = req := by simpa [hs] using hreq
    exact ⟨fun h => absurd rfl h, fun _ => ⟨c, ⟨hc, trivial⟩, hzero⟩⟩
  refine .cons trivial rfl (.cons trivial rfl (.cons ⟨by decide, fun h => absurd rfl h⟩ rfl
    (.cons trivial rfl (.cons (hturn rfl (c := 1) (by decide) rfl) rfl (.cons trivial rfl
    (.cons (hturn rfl (c := 2) (by decide) rfl) rfl (.cons ⟨by decide, fun h => absurd rfl h⟩ rfl
    (.cons trivial rfl trivial))))))))

/-- A child exits and is reported, and is not taken out of the children: the next `WaitPid` for any
child with `WNOHANG` returns `EINTR` where no child is left, and without it sleeps. -/
theorem not_correct_no_child_left :
    ¬Along step Correct init
      [.fork 0, .exit 1 7, .waitPid 0 (anyChild true), .turn 0, .waitPid 0 (anyChild true),
        .turn 0] ∧
    (Reaches.runList step anyCall init
      [.fork 0, .exit 1 7, .waitPid 0 (anyChild true), .turn 0, .waitPid 0 (anyChild true),
        .turn 0]).map (fun s => (s.result 0, s.reports 1)) = some (some .eintr, 1) := by
  refine ⟨?_, rfl⟩
  rintro ⟨-, h⟩
  obtain ⟨-, h⟩ := h _ rfl
  obtain ⟨-, h⟩ := h _ rfl
  obtain ⟨-, h⟩ := h _ rfl
  obtain ⟨-, h⟩ := h _ rfl
  obtain ⟨hturn, -⟩ := h _ rfl
  obtain ⟨-, hturn⟩ := hturn _ rfl
  obtain ⟨-, hechild, -⟩ := hturn (anyChild true) rfl
  have hall := hechild.mpr fun c hc => ?_
  · cases hall
  · obtain rfl : c = 1 := List.mem_singleton.mp hc.1
    exact Nat.one_ne_zero

end ProcessTree

end Cryptix.Scheduler
