import Cryptix.Scheduler.WaitPid

/-!
# The status word of a child

The macros of `Kernel/API/Posix/sys/wait.h` and what `Exit` and `WaitPid` make with them. `Exit`
stores the code as `W_EXITCODE(code, 0)`, and `WaitPid` encodes what it finds there once more, so
the parent reads a word whose lower half is zero: that of a child that has exited with code zero.

A run is recorded with the codes that were passed to `Exit`. `reported_decodes_iff` is about every
child that is reported in it.
-/

namespace Cryptix.Scheduler

open Lib

/-- `WEXITSTATUS`, of an `i32`. -/
def wExitStatus (status : ℤ) : ℤ := status / 256 % 256

def wTermSig (status : ℤ) : ℤ := status % 128

def wIfExited (status : ℤ) : Prop := wTermSig status = 0

/-- `WIFSIGNALED`. The sum is cast to an `i8`. -/
def wIfSignaled (status : ℤ) : Prop := (status % 128 + 1).bmod 256 / 2 > 0

/-- The word tells that the child has exited, and its code. -/
structure Decodes (code status : ℤ) : Prop where
  exited : wIfExited status
  notSignaled : ¬wIfSignaled status
  notStopped : ¬wIfStopped status
  notContinued : ¬wIfContinued status
  exitStatus : wExitStatus status = code % 256

namespace ProcessTree

/-- The codes that were passed to `Exit`. -/
def recordExit (codes : ℕ → Option ℤ) : TreeAction → ℕ → Option ℤ
  | .exit p code => Function.update codes p (some code)
  | _ => codes

/-- A step of the processes, with the codes of those that have exited. -/
def recordStep (x : ProcessTree × (ℕ → Option ℤ)) (a : TreeAction) :
    Option (ProcessTree × (ℕ → Option ℤ)) :=
  (x.1.step a).map fun s => (s, recordExit x.2 a)

/-- The status of every process that has exited is its code, encoded once. -/
def Recorded (x : ProcessTree × (ℕ → Option ℤ)) : Prop :=
  ∀ c code, x.2 c = some code → c < x.1.count ∧ (x.1.node c).status = some (wExitCode code)

/-! ## The word that is stored -/

theorem wExitCode_twice (code : ℤ) : wExitCode (wExitCode code) % 65536 = 0 := by
  rw [wExitCode, wExitCode, Int.bmod, Int.bmod]
  omega

/-- A word whose lower half is zero is that of a child that has exited with code zero. -/
theorem decodes_iff {code status : ℤ} (h : status % 65536 = 0) :
    Decodes code status ↔ code % 256 = 0 := by
  have hlow : status % 128 = 0 := by omega
  have hstatus : wExitStatus status = 0 := by
    rw [wExitStatus]
    omega
  constructor
  · intro hdecodes
    rw [← hdecodes.exitStatus, hstatus]
  · intro hcode
    refine ⟨hlow, ?_, ?_, ?_, by rw [hstatus, hcode]⟩
    · rw [wIfSignaled, hlow]
      decide
    · rw [wIfStopped]
      omega
    · rw [wIfContinued]
      omega

/-! ## The run -/

variable {s s' : ProcessTree} {p q c : ℕ} {code : ℤ} {node node' : ℕ → ProcessNode}

theorem adopt_status (node : ℕ → ProcessNode) (parent child x : ℕ) :
    (adopt node parent child x).status = (node x).status := by
  rw [adopt_apply]

/-- What is done for each process of a list keeps the status of all. -/
theorem foldl_status {f : (ℕ → ProcessNode) → ℕ → ℕ → ProcessNode}
    (hf : ∀ node y x, (f node y x).status = (node x).status) (l : List ℕ) (x : ℕ) :
    (l.foldl f node x).status = (node x).status := by
  induction l generalizing node with
  | nil => rfl
  | cons y l ih => exact ih.trans (hf node y x)

theorem handOver_status (h : s.handOver p = some node) (x : ℕ) :
    (node x).status = (s.node x).status := by
  rw [handOver] at h
  split at h
  · obtain ⟨subreaper, -, rfl⟩ := Option.map_eq_some_iff.mp h
    exact foldl_status (fun node child => adopt_status node subreaper child) _ x
  · rw [← Option.some.inj h]

theorem passZombies_status (h : passZombies p node = some node') (x : ℕ) :
    (node' x).status = (node x).status := by
  rw [passZombies] at h
  split at h
  · rw [← Option.some.inj h]
  · obtain ⟨parent, -, rfl⟩ := Option.map_eq_some_iff.mp h
    apply foldl_status
    intro node zombie x
    simp only [Function.update_apply]
    split_ifs with hparent hzombie hzombie
    · rw [hparent, hzombie]
    · rw [hparent]
    · rw [hzombie]
    · rfl

theorem leave_status (h : s.leave p code = some node) (x : ℕ) :
    (node x).status = if x = p then some (wExitCode code) else (s.node x).status := by
  obtain ⟨node₂, h₂, rfl⟩ := Option.map_eq_some_iff.mp h
  obtain ⟨node₁, h₁, h₂⟩ := Option.bind_eq_some_iff.mp h₂
  by_cases hx : x = p
  · simp [hx]
  · simp only [Function.update_of_ne hx, if_neg hx]
    exact (passZombies_status h₂ x).trans (handOver_status h₁ x)

theorem fork_status (hc : c < s.count) :
    ((s.fork p).node c).status = (s.node c).status := by
  by_cases hcp : c = p
  · simp [fork, hcp]
  · simp [fork, hcp, Nat.ne_of_lt hc]

/-- The part of a turn behind `Await` keeps the processes, and reports the status that a child has,
encoded. -/
theorem finish_spec {req : WaitRequest} {procs : List ℕ} {i : ℕ}
    (h : s.finish p req procs i = some s') :
    s'.node = s.node ∧ s'.count = s.count ∧
      ∀ q c pid wstatus, s'.result q = some (.reported c pid wstatus) →
        s.result q = some (.reported c pid wstatus) ∨
          wstatus = wExitCode ((s.node c).status.getD 0) := by
  obtain ⟨which, -, hs'⟩ := Option.map_eq_some_iff.mp h
  simp only at hs'
  split at hs'
  · subst hs'
    exact ⟨rfl, rfl, fun q c pid wstatus hq => .inl hq⟩
  · subst hs'
    refine ⟨rfl, rfl, fun q c pid wstatus hq => ?_⟩
    by_cases hqp : q = p
    · rw [hqp, answer_result] at hq
      cases hq
      exact .inr rfl
    · exact .inl ((Function.update_of_ne hqp _ _).symm.trans hq)

theorem answer_spec {result : WaitResult} (h : s' = s.answer p result)
    (hresult : ∀ c pid wstatus, result ≠ .reported c pid wstatus) :
    s'.node = s.node ∧ s'.count = s.count ∧
      ∀ q c pid wstatus, s'.result q = some (.reported c pid wstatus) →
        s.result q = some (.reported c pid wstatus) := by
  subst h
  refine ⟨rfl, rfl, fun q c pid wstatus hq => ?_⟩
  by_cases hqp : q = p
  · rw [hqp, answer_result] at hq
    exact absurd (Option.some.inj hq) (hresult c pid wstatus)
  · exact (Function.update_of_ne hqp _ _).symm.trans hq

/-- What a step of `WaitPid` reports is the status that a child has, encoded. No step of it changes
the processes. -/
theorem turn_spec {req : WaitRequest} (h : s.turn p req = some s') :
    s'.node = s.node ∧ s'.count = s.count ∧
      ∀ q c pid wstatus, s'.result q = some (.reported c pid wstatus) →
        s.result q = some (.reported c pid wstatus) ∨
          wstatus = wExitCode ((s.node c).status.getD 0) := by
  rw [turn] at h
  split at h
  · obtain ⟨hnode, hcount, hresult⟩ := answer_spec (Option.some.inj h).symm (by simp)
    exact ⟨hnode, hcount, fun q c pid wstatus hq => .inl (hresult q c pid wstatus hq)⟩
  · split at h
    · obtain ⟨events, -, h⟩ := Option.bind_eq_some_iff.mp h
      exact finish_spec (s := { s with events }) h
    · split at h
      · obtain ⟨hnode, hcount, hresult⟩ := answer_spec (Option.some.inj h).symm (by simp)
        exact ⟨hnode, hcount, fun q c pid wstatus hq => .inl (hresult q c pid wstatus hq)⟩
      · obtain ⟨events₁, -, h⟩ := Option.bind_eq_some_iff.mp h
        obtain ⟨events, -, h⟩ := Option.bind_eq_some_iff.mp h
        obtain rfl := Option.some.inj h
        exact ⟨rfl, rfl, fun q c pid wstatus hq => .inl hq⟩

theorem resume_spec (h : s.step (.resume p) = some s') :
    s'.node = s.node ∧ s'.count = s.count ∧
      ∀ q c pid wstatus, s'.result q = some (.reported c pid wstatus) →
        s.result q = some (.reported c pid wstatus) ∨
          wstatus = wExitCode ((s.node c).status.getD 0) := by
  rw [step] at h
  split at h
  · obtain ⟨i, -, h⟩ := Option.bind_eq_some_iff.mp h
    obtain ⟨events, -, h⟩ := Option.bind_eq_some_iff.mp h
    exact finish_spec (s := { s with events }) h
  · cases h

/-- A step keeps the record of the codes, and what it reports of a child is the status the child has
then. -/
theorem step_recorded {x x' : ProcessTree × (ℕ → Option ℤ)} {a : TreeAction} (hx : Recorded x)
    (h : recordStep x a = some x') :
    Recorded x' ∧ ∀ q c pid wstatus, x'.1.result q = some (.reported c pid wstatus) →
      x.1.result q = some (.reported c pid wstatus) ∨
        wstatus = wExitCode ((x.1.node c).status.getD 0) := by
  obtain ⟨s', hs', rfl⟩ := Option.map_eq_some_iff.mp h
  have hsame (hnode : s'.node = x.1.node) (hcount : s'.count = x.1.count) :
      Recorded (s', x.2) := by
    intro c code hc
    rw [hnode, hcount]
    exact hx c code hc
  cases a with
  | fork p =>
    rw [step] at hs'
    split at hs'
    · obtain rfl := Option.some.inj hs'
      refine ⟨fun c code hc => ?_, fun q c pid wstatus hq => .inl hq⟩
      obtain ⟨hlt, hstatus⟩ := hx c code hc
      exact ⟨Nat.lt_succ_of_lt hlt, (fork_status hlt).trans hstatus⟩
    · cases hs'
  | exit p code =>
    rw [step] at hs'
    split at hs'
    · rename_i hrunning
      obtain ⟨node, hnode, hs'⟩ := Option.bind_eq_some_iff.mp hs'
      obtain ⟨events, -, hs'⟩ := Option.bind_eq_some_iff.mp hs'
      obtain rfl := Option.some.inj hs'
      refine ⟨fun c code' hc => ?_, fun q c pid wstatus hq => .inl hq⟩
      have hstatus := leave_status hnode c
      by_cases hcp : c = p
      · rw [if_pos hcp] at hstatus
        subst hcp
        obtain rfl : code = code' := by simpa [recordExit] using hc
        exact ⟨hrunning.1, hstatus⟩
      · rw [if_neg hcp] at hstatus
        obtain ⟨hlt, hcode⟩ := hx c code' ((Function.update_of_ne hcp _ _).symm.trans hc)
        exact ⟨hlt, hstatus.trans hcode⟩
    · cases hs'
  | waitPid p req =>
    rw [step] at hs'
    split at hs'
    · obtain rfl := Option.some.inj hs'
      refine ⟨hsame rfl rfl, fun q c pid wstatus hq => ?_⟩
      by_cases hqp : q = p
      · simp [hqp] at hq
      · exact .inl ((Function.update_of_ne hqp _ _).symm.trans hq)
    · cases hs'
  | turn p =>
    rw [step] at hs'
    split at hs'
    · obtain ⟨hnode, hcount, hresult⟩ := turn_spec hs'
      exact ⟨hsame hnode hcount, hresult⟩
    · cases hs'
  | resume p =>
    obtain ⟨hnode, hcount, hresult⟩ := resume_spec hs'
    exact ⟨hsame hnode hcount, hresult⟩

theorem recorded_of_reaches {x : ProcessTree × (ℕ → Option ℤ)}
    (hx : Reaches recordStep anyCall (s, fun _ => none) x) : Recorded x :=
  hx.invariant (fun c code hc => by cases hc) fun _ _ _ h _ hstep => (step_recorded h hstep).1

/-- In every run, when a step reports a child that has exited with a code, the word that it stores
tells so exactly when the low byte of the code is zero. -/
theorem reported_decodes_iff {x x' : ProcessTree × (ℕ → Option ℤ)} {a : TreeAction}
    (hx : Reaches recordStep anyCall (s, fun _ => none) x) (hstep : recordStep x a = some x')
    {pid wstatus : ℤ} (hold : x.1.result q ≠ some (.reported c pid wstatus))
    (hnew : x'.1.result q = some (.reported c pid wstatus)) (hcode : x.2 c = some code) :
    Decodes code wstatus ↔ code % 256 = 0 := by
  have hrecorded := recorded_of_reaches hx
  have hwstatus := ((step_recorded hrecorded hstep).2 q c pid wstatus hnew).resolve_left hold
  rw [(hrecorded c code hcode).2, Option.getD_some] at hwstatus
  apply decodes_iff
  rw [hwstatus]
  exact wExitCode_twice code

/-- A child exits with code 512 and is reported. -/
theorem reported_decodes_512 :
    ∃ x x', Reaches recordStep anyCall (init, fun _ => none) x ∧
      recordStep x (.turn 0) = some x' ∧ x'.1.result 0 = some (.reported 1 2 (512 * 65536)) ∧
      (Decodes 512 (512 * 65536) ↔ (512 : ℤ) % 256 = 0) := by
  have hrun : ∃ x x', Reaches recordStep anyCall (init, fun _ => none) x ∧
      x.1.result 0 = none ∧ x.2 1 = some 512 ∧ recordStep x (.turn 0) = some x' ∧
      x'.1.result 0 = some (.reported 1 2 (512 * 65536)) :=
    ⟨_, _, .of_list [.fork 0, .exit 1 512, .waitPid 0 (anyChild true)] rfl, rfl, rfl, rfl, rfl⟩
  obtain ⟨x, x', hx, hold, hcode, hstep, hnew⟩ := hrun
  have hold' : x.1.result 0 ≠ some (.reported 1 2 (512 * 65536)) := by
    rw [hold]
    simp
  exact ⟨x, x', hx, hstep, hnew, reported_decodes_iff hx hstep hold' hnew hcode⟩

/-- A child exits with code 7, and its parent reads that the code was zero. -/
theorem not_decodes_seven :
    ∃ x x', Reaches recordStep anyCall (init, fun _ => none) x ∧
      recordStep x (.turn 0) = some x' ∧ x.2 1 = some 7 ∧
      x'.1.result 0 = some (.reported 1 2 (7 * 65536)) ∧ ¬Decodes 7 (7 * 65536) := by
  refine ⟨_, _, .of_list [.fork 0, .exit 1 7, .waitPid 0 (anyChild true)] rfl, rfl, rfl, rfl,
    fun h => ?_⟩
  have hcode := (decodes_iff (by decide)).mp h
  revert hcode
  decide

end ProcessTree

end Cryptix.Scheduler
