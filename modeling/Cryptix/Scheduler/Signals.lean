import Mathlib.Data.Finset.Insert
import Mathlib.Data.Finset.Erase
import Cryptix.Lib.Transition

/-!
# The signals of a thread

`SendSignal`, `SetSignalMask` and `DispatchAnyPendingSignal` of `Kernel/Scheduler/Thread.cpp`. The
mask and the pending signals are words with a bit for each signal, but `ShouldIgnoreSignal` takes
the number of the signal for such a word, and what it ignores is lost. The switch of
`DispatchSignal` has no case for the signals 30 and 31. In a run that meets neither, every signal
stays pending until it is dispatched (`signals_lawful_iff`).

A run is watched with the set of the signals that were sent and have not been dispatched. What
`Process::Exit` does to the process is left out; its call is part of what a dispatch returns.
-/

namespace Cryptix.Scheduler.Signals

open Lib

/-- The signals that have a bit in the lower half of a `sigset_t`, without zero. -/
structure Signal where
  number : ℕ
  pos : 1 ≤ number
  lt : number < 32

/-- What `DispatchSignal` reads of a thread and of its process. -/
structure Thread where
  signalMask : BitVec 64
  pendingSignals : BitVec 64
  parentPid : ℤ
  parentGroup : ℤ
  deriving DecidableEq

inductive Disposition
  | terminate | ignore | dumpCore | resume | stop
  deriving DecidableEq

/-- The switch of `DispatchSignal`. A signal without a case reaches `AssertNotReached`. -/
def disposition : ℕ → Option Disposition
  -- HUP, INT, KILL, PIPE, ALRM, USR1, USR2, VTALRM, STKFLT, IO, PROF, TERM
  | 1 | 2 | 9 | 13 | 14 | 10 | 12 | 26 | 16 | 29 | 27 | 15 => some .terminate
  -- CHLD, URG, WINCH
  | 17 | 23 | 28 => some .ignore
  -- QUIT, ILL, TRAP, ABRT, BUS, FPE, SEGV, XCPU, XFSZ
  | 3 | 4 | 5 | 6 | 7 | 8 | 11 | 24 | 25 => some .dumpCore
  -- CONT
  | 18 => some .resume
  -- STOP, TSTP, TTIN, TTOU
  | 19 | 20 | 21 | 22 => some .stop
  | _ => none

/-- A dispatched signal, and whether the process exits. -/
structure Dispatched where
  signal : ℕ
  exits : Bool
  deriving DecidableEq

namespace Thread

/-- `ShouldIgnoreSignal`, with the number of the signal where its bit belongs. -/
def shouldIgnoreSignal (t : Thread) (signal : ℕ) : Bool :=
  t.signalMask &&& BitVec.ofNat 64 signal != 0

/-- `SendSignal`. The shift is one of an `int`. -/
def sendSignal (t : Thread) (signal : ℕ) : Thread :=
  if t.shouldIgnoreSignal signal then t
  else { t with pendingSignals := t.pendingSignals ||| (1#32 <<< signal).signExtend 64 }

def setSignalMask (t : Thread) (mask : BitVec 64) : Thread := { t with signalMask := mask }

/-- `DispatchSignal`. -/
def dispatchSignal (t : Thread) (signal : ℕ) : Option (Thread × Dispatched) :=
  match disposition signal with
  | none => none
  | some d =>
    some ({ t with pendingSignals := t.pendingSignals &&& ~~~(1#64 <<< signal) },
      ⟨signal, decide (d = .terminate ∧ t.parentPid ≠ t.parentGroup)⟩)

/-- The `u32` that `DispatchAnyPendingSignal` goes through. -/
def unmasked (t : Thread) : BitVec 32 := (t.pendingSignals &&& ~~~t.signalMask).setWidth 32

/-- `DispatchAnyPendingSignal`. -/
def dispatchAnyPendingSignal (t : Thread) : Option (Thread × Option Dispatched) :=
  match (List.range 32).find? fun signal => t.unmasked.getLsbD signal with
  | none => some (t, none)
  | some signal =>
    match t.dispatchSignal signal with
    | none => none
    | some (t, d) => some (t, some d)

end Thread

inductive Call
  | sendSignal (s : Signal)
  | setSignalMask (mask : BitVec 64)
  | dispatchAnyPendingSignal

/-- What a call leaves, and the signal that it dispatches. There is nothing after a panic. -/
def Call.run (t : Thread) : Call → Option (Thread × Option Dispatched)
  | sendSignal s => some (t.sendSignal s.number, none)
  | setSignalMask mask => some (t.setSignalMask mask, none)
  | dispatchAnyPendingSignal => t.dispatchAnyPendingSignal

/-! ## What the calls have to do -/

/-- A thread together with the signals that were sent to it and have not been dispatched. -/
structure Watched where
  thread : Thread
  waiting : Finset ℕ

/-- The signals that wait after a call. -/
def Call.waiting (w : Finset ℕ) (dispatched : Option Dispatched) : Call → Finset ℕ
  | sendSignal s => insert s.number w
  | setSignalMask _ => w
  | dispatchAnyPendingSignal => dispatched.elim w fun d => w.erase d.signal

/-- The system takes one call after the other. -/
def step (w : Watched) (call : Call) : Option Watched :=
  (call.run w.thread).map fun r => ⟨r.1, call.waiting w.waiting r.2⟩

/-- The thread a run starts from has no pending signals. -/
def start (mask : BitVec 64) (pid group : ℤ) : Watched := ⟨⟨mask, 0, pid, group⟩, ∅⟩

/-- The pending signals are those that wait. -/
def Pending (w : Watched) : Prop :=
  ∀ x < 32, w.thread.pendingSignals.getLsbD x = true ↔ x ∈ w.waiting

/-- A call does not panic and leaves the waiting signals pending. What it dispatches waited and is
not masked, and it dispatches a signal when one waits that is not masked. -/
def Lawful (w : Watched) (call : Call) : Prop :=
  ∃ t d, call.run w.thread = some (t, d) ∧ Pending ⟨t, call.waiting w.waiting d⟩ ∧
    (∀ x ∈ d, x.signal ∈ w.waiting ∧ w.thread.signalMask.getLsbD x.signal = false) ∧
    (call = .dispatchAnyPendingSignal → d = none →
      ∀ x ∈ w.waiting, w.thread.signalMask.getLsbD x = true)

/-- The signal is pending and not masked. -/
def Deliverable (t : Thread) (x : ℕ) : Prop :=
  t.pendingSignals.getLsbD x = true ∧ t.signalMask.getLsbD x = false

/-- The mask has no bit in common with the number of a signal that is sent, unless the signal is
pending already; and where 30 or 31 could be dispatched, a lower signal can be as well. -/
def Meets (w : Watched) : Call → Prop
  | .sendSignal s => w.thread.signalMask &&& BitVec.ofNat 64 s.number = 0 ∨
      w.thread.pendingSignals.getLsbD s.number = true
  | .setSignalMask _ => True
  | .dispatchAnyPendingSignal =>
      Deliverable w.thread 30 ∨ Deliverable w.thread 31 → ∃ x < 30, Deliverable w.thread x

/-! ## When they do it -/

/-- Signal numbers wait, and they are the pending ones. -/
structure Inv (w : Watched) : Prop where
  pending : Pending w
  range : ∀ x ∈ w.waiting, 1 ≤ x ∧ x < 32

theorem isSome_disposition : ∀ x < 32, 1 ≤ x → ((disposition x).isSome ↔ x < 30) := by
  decide

theorem getLsbD_shift {x s : ℕ} (hx : x < 32) :
    ((1#32 <<< s).signExtend 64).getLsbD x = decide (x = s) := by
  rw [BitVec.getLsbD_signExtend, if_pos hx, BitVec.getLsbD_shiftLeft, BitVec.getLsbD_one]
  by_cases hxs : x = s
  · simp [hxs]
    omega
  · simp [hxs]
    omega

theorem getLsbD_unmasked {t : Thread} {x : ℕ} (hx : x < 32) :
    t.unmasked.getLsbD x = true ↔ Deliverable t x := by
  rw [Thread.unmasked, BitVec.getLsbD_setWidth, Deliverable]
  simp [hx]
  omega

theorem getLsbD_dispatch {t : Thread} {x s : ℕ} (hx : x < 32) :
    (t.pendingSignals &&& ~~~(1#64 <<< s)).getLsbD x = true ↔
      x ≠ s ∧ t.pendingSignals.getLsbD x = true := by
  rw [BitVec.getLsbD_and, BitVec.getLsbD_not, BitVec.getLsbD_shiftLeft, BitVec.getLsbD_one]
  by_cases hxs : x = s
  · simp [hxs]
  · simp [hxs]
    omega

/-- What is sent is pending afterwards exactly when it is not ignored or was pending before. -/
theorem pending_sendSignal_iff {w : Watched} (h : Inv w) (s : Signal) :
    Pending ⟨w.thread.sendSignal s.number, insert s.number w.waiting⟩ ↔
      Meets w (.sendSignal s) := by
  rw [Thread.sendSignal, Thread.shouldIgnoreSignal, Meets]
  by_cases hmask : w.thread.signalMask &&& BitVec.ofNat 64 s.number = 0
  · refine iff_of_true (fun x hx => ?_) (.inl hmask)
    simp only [hmask, bne_self_eq_false, Bool.false_eq_true, if_false]
    rw [BitVec.getLsbD_or, getLsbD_shift hx, Bool.or_eq_true, h.pending x hx, Finset.mem_insert,
      decide_eq_true_iff]
    exact or_comm
  · rw [if_pos (by simpa using hmask), or_iff_right hmask]
    constructor
    · intro hpending
      exact (hpending s.number s.lt).mpr (Finset.mem_insert_self _ _)
    · intro hset x hx
      rw [Finset.mem_insert]
      refine (h.pending x hx).trans (or_iff_right_of_imp ?_).symm
      rintro rfl
      exact (h.pending _ hx).mp hset

theorem dispatch_none {t : Thread}
    (h : (List.range 32).find? (fun signal => t.unmasked.getLsbD signal) = none) :
    t.dispatchAnyPendingSignal = some (t, none) ∧ ∀ x < 32, ¬Deliverable t x := by
  refine ⟨by rw [Thread.dispatchAnyPendingSignal, h], fun x hx hdeliver => ?_⟩
  have hnot := List.find?_range_eq_none.mp h x hx
  rw [(getLsbD_unmasked hx).mpr hdeliver] at hnot
  cases hnot

theorem dispatch_some {t : Thread} {s : ℕ}
    (h : (List.range 32).find? (fun signal => t.unmasked.getLsbD signal) = some s) :
    s < 32 ∧ Deliverable t s ∧ ∀ x < s, ¬Deliverable t x := by
  obtain ⟨hs, hmem, hlower⟩ := List.find?_range_eq_some.mp h
  have hlt := List.mem_range.mp hmem
  refine ⟨hlt, (getLsbD_unmasked hlt).mp hs, fun x hx hdeliver => ?_⟩
  have hnot := hlower x hx
  rw [(getLsbD_unmasked (hx.trans hlt)).mpr hdeliver] at hnot
  cases hnot

theorem lawful_dispatch_iff {w : Watched} (h : Inv w) :
    Lawful w .dispatchAnyPendingSignal ↔ Meets w .dispatchAnyPendingSignal := by
  rw [Lawful, Meets, Call.run]
  cases hfind : (List.range 32).find? (fun signal => w.thread.unmasked.getLsbD signal) with
  | none =>
    obtain ⟨hrun, hnone⟩ := dispatch_none hfind
    refine iff_of_true ⟨_, _, hrun, h.pending, ?_, fun _ _ x hx => ?_⟩ fun hdeliver => ?_
    · intro x hx
      cases hx
    · have hlt := (h.range x hx).2
      by_contra hmask
      exact hnone x hlt ⟨(h.pending x hlt).mpr hx, by simpa using hmask⟩
    · rcases hdeliver with hdeliver | hdeliver
      · exact absurd hdeliver (hnone 30 (by omega))
      · exact absurd hdeliver (hnone 31 (by omega))
  | some s =>
    obtain ⟨hlt, hdeliver, hlower⟩ := dispatch_some hfind
    have hmem := (h.pending s hlt).mp hdeliver.1
    have hcase := isSome_disposition s hlt (h.range s hmem).1
    rw [Thread.dispatchAnyPendingSignal, hfind]
    simp only [Thread.dispatchSignal]
    cases hdisposition : disposition s with
    | none =>
      -- the switch has no case for the signal, and no lower one can be dispatched
      rw [hdisposition] at hcase
      have hge : ¬s < 30 := fun hs => by simp [hs] at hcase
      refine iff_of_false ?_ fun hmeets => ?_
      · rintro ⟨t, d, hrun, -⟩
        cases hrun
      · have hlast : Deliverable w.thread 30 ∨ Deliverable w.thread 31 := by
          obtain rfl | rfl : s = 30 ∨ s = 31 := by omega
          · exact .inl hdeliver
          · exact .inr hdeliver
        obtain ⟨x, hx, hdeliver'⟩ := hmeets hlast
        exact hlower x (by omega) hdeliver'
    | some disposed =>
      rw [hdisposition] at hcase
      refine iff_of_true ⟨_, _, rfl, fun x hx => ?_, fun x hx => ?_, fun _ hnone => ?_⟩
        fun _ => ⟨s, hcase.mp rfl, hdeliver⟩
      · rw [getLsbD_dispatch hx, h.pending x hx]
        exact Finset.mem_erase.symm
      · obtain rfl := Option.some.inj hx
        exact ⟨hmem, hdeliver.2⟩
      · cases hnone

theorem lawful_iff {w : Watched} (h : Inv w) (call : Call) : Lawful w call ↔ Meets w call := by
  cases call with
  | sendSignal s =>
    rw [← pending_sendSignal_iff h s]
    constructor
    · rintro ⟨t, d, hrun, hpending, -⟩
      obtain ⟨rfl, rfl⟩ := Prod.mk.inj (Option.some.inj hrun)
      exact hpending
    · intro hpending
      refine ⟨_, _, rfl, hpending, fun x hx => ?_, fun hcall => ?_⟩
      · cases hx
      · cases hcall
  | setSignalMask mask =>
    refine iff_of_true ⟨_, _, rfl, h.pending, fun x hx => ?_, fun hcall => ?_⟩ trivial
    · cases hx
    · cases hcall
  | dispatchAnyPendingSignal => exact lawful_dispatch_iff h

/-- A lawful call keeps the invariant. -/
theorem Inv.step {w w' : Watched} (h : Inv w) {call : Call} (hlawful : Lawful w call)
    (hstep : step w call = some w') : Inv w' := by
  obtain ⟨t, d, hrun, hpending, -⟩ := hlawful
  rw [Signals.step, hrun, Option.map_some] at hstep
  obtain rfl := Option.some.inj hstep
  refine ⟨hpending, fun x hx => ?_⟩
  cases call with
  | sendSignal s =>
    rcases Finset.mem_insert.mp hx with rfl | hx
    · exact ⟨s.pos, s.lt⟩
    · exact h.range x hx
  | setSignalMask mask => exact h.range x hx
  | dispatchAnyPendingSignal =>
    cases d with
    | none => exact h.range x hx
    | some d => exact h.range x (Finset.mem_of_mem_erase hx)

theorem inv_start (mask : BitVec 64) (pid group : ℤ) : Inv (start mask pid group) where
  pending x _ := by simp [start]
  range x hx := by simp [start] at hx

/-- In every run from a thread without pending signals, every call does what it has to exactly when
every call meets its condition. -/
theorem signals_lawful_iff (mask : BitVec 64) (pid group : ℤ) (calls : List Call) :
    Along step Lawful (start mask pid group) calls ↔
      Along step Meets (start mask pid group) calls := by
  apply Along.congr (inv_start mask pid group) Along.anyCall
  · exact fun w call h _ => lawful_iff h call
  · exact fun w call w' h _ hmeets hstep => h.step ((lawful_iff h call).mpr hmeets) hstep

/-- While only SIGHUP, number 1, is masked, SIGINT is sent and is lost. -/
theorem not_lawful_along_interrupt :
    ¬Along step Lawful (start (1#64 <<< 1) 5 4) [.sendSignal ⟨2, by decide, by decide⟩] := by
  rintro ⟨⟨t, d, hrun, hpending, -⟩, -⟩
  obtain ⟨rfl, rfl⟩ := Prod.mk.inj (Option.some.inj hrun)
  have hlost := (hpending 2 (by decide)).mpr (Finset.mem_insert_self _ _)
  revert hlost
  decide

end Cryptix.Scheduler.Signals
