import Cryptix.Scheduler.Event

/-!
# The semaphore

`Kernel/Library/Locking/Semaphore.cpp`. `Signal` and `TryWait` run under the lock of the semaphore
and are one step each; `Wait` repeats `TryWait` and, when it fails, awaits the event of the
semaphore.

A `Signal` that finds a listener triggers the event and does not raise the count, and the woken
thread finds nothing to take: the unit is lost. `balanced_iff` says that the completed waits and the
count balance the completed signals exactly as long as no `Signal` finds a listener.
-/

namespace Cryptix.Locking

open Lib Scheduler

variable {T : Type*}

/-- Where a thread is in `Wait`. -/
inductive WaitPhase
  | outside | tryWait | awaiting
  deriving DecidableEq, Repr

/-- A semaphore and the threads that use it, with the number of waits and signals completed. -/
structure Semaphore (T : Type*) where
  count : ℕ
  sys : EventSystem T Unit
  phase : T → WaitPhase
  waits : ℕ
  signals : ℕ

/-- A call of `Wait`, `TryWait` or `Signal`, or a step inside of `Wait`. -/
inductive SemaphoreAction (T : Type*)
  | wait (t : T)
  | tryWait (t : T)
  | await (t : T) (a : AwaitStep)
  | signal
  deriving DecidableEq

namespace Semaphore

def boot (initial : ℕ) : Semaphore T where
  count := initial
  sys := .boot fun _ => 0
  phase _ := .outside
  waits := 0
  signals := 0

variable [DecidableEq T]

/-- `TryWait`, from outside or as the head of the loop of `Wait`. A thread that gets nothing inside
of `Wait` goes on to `Await`. -/
def tryWait (s : Semaphore T) (t : T) : Option (Semaphore T) :=
  if s.phase t = .awaiting then none
  else if s.count > 0 then
    some { s with
      count := s.count - 1
      phase := Function.update s.phase t .outside
      waits := s.waits + 1 }
  else if s.phase t = .tryWait then
    some { s with phase := Function.update s.phase t .awaiting }
  else some s

/-- A step of the `Await` inside of `Wait`. -/
def await (s : Semaphore T) (t : T) (a : AwaitStep) : Option (Semaphore T) :=
  if s.phase t = .awaiting then
    (s.sys.awaitStep t [()] a).map fun (sys, returned) =>
      { s with
        sys
        phase := if returned then Function.update s.phase t .tryWait else s.phase }
  else none

/-- `Signal`. -/
def signal (s : Semaphore T) : Semaphore T :=
  if (s.sys.event ()).listeners ≠ [] then
    { s with sys := s.sys.trigger () false, signals := s.signals + 1 }
  else { s with count := s.count + 1, signals := s.signals + 1 }

def step (s : Semaphore T) : SemaphoreAction T → Option (Semaphore T)
  | .wait t =>
    if s.phase t = .outside then some { s with phase := Function.update s.phase t .tryWait }
    else none
  | .tryWait t => s.tryWait t
  | .await t a => s.await t a
  | .signal => some s.signal

/-- No thread listens when the semaphore is signalled. -/
def Unheard (s : Semaphore T) : SemaphoreAction T → Prop
  | .signal => (s.sys.event ()).listeners = []
  | _ => True

instance (s : Semaphore T) : ∀ a, Decidable (s.Unheard a)
  | .signal => inferInstanceAs (Decidable (_ = _))
  | .wait _ => inferInstanceAs (Decidable True)
  | .tryWait _ => inferInstanceAs (Decidable True)
  | .await .. => inferInstanceAs (Decidable True)

/-- The units that a step loses. -/
def lost (s : Semaphore T) (a : SemaphoreAction T) : ℕ := if s.Unheard a then 0 else 1

/-- A step keeps the balance, but for the unit it loses. -/
theorem step_balance {s s' : Semaphore T} {a : SemaphoreAction T} (h : s.step a = some s') :
    s'.waits + s'.count + s.signals + s.lost a = s.waits + s.count + s'.signals := by
  cases a with
  | wait t =>
    have hlost : s.lost (.wait t) = 0 := rfl
    simp only [step] at h
    split at h
    · obtain rfl := Option.some.inj h
      rw [hlost, Nat.add_zero]
    · cases h
  | tryWait t =>
    have hlost : s.lost (.tryWait t) = 0 := rfl
    simp only [step, tryWait] at h
    split at h
    · cases h
    · split at h
      · obtain rfl := Option.some.inj h
        simp only
        omega
      · split at h <;> obtain rfl := Option.some.inj h <;> rw [hlost, Nat.add_zero]
  | await t a =>
    have hlost : s.lost (.await t a) = 0 := rfl
    simp only [step, await] at h
    split at h
    · obtain ⟨⟨sys, returned⟩, -, rfl⟩ := Option.map_eq_some_iff.mp h
      rw [hlost, Nat.add_zero]
    · cases h
  | signal =>
    obtain rfl := Option.some.inj h
    by_cases hnil : (s.sys.event ()).listeners = []
    · have hlost : s.lost .signal = 0 := if_pos hnil
      simp only [signal, hnil, ne_eq, not_true_eq_false, if_false]
      omega
    · have hlost : s.lost .signal = 1 := if_neg hnil
      simp only [signal, hnil, ne_eq, not_false_eq_true, if_true]
      omega

/-- A run is out of balance by the units its steps have lost. -/
theorem run_balance {actions : List (SemaphoreAction T)} : ∀ {s s' : Semaphore T},
    actions.foldlM step s = some s' →
      s'.waits + s'.count + s.signals ≤ s.waits + s.count + s'.signals ∧
      (s'.waits + s'.count + s.signals = s.waits + s.count + s'.signals ↔
        Along step Unheard s actions) := by
  induction actions with
  | nil =>
    intro s s' h
    obtain rfl : s = s' := by simpa using h
    simp [Along]
  | cons a actions ih =>
    intro s s' h
    rw [List.foldlM_cons, Option.bind_eq_bind, Option.bind_eq_some_iff] at h
    obtain ⟨s₁, hs₁, hrest⟩ := h
    obtain ⟨hle, hiff⟩ := ih hrest
    have hbalance := step_balance hs₁
    have halong : Along step Unheard s (a :: actions) ↔
        s.Unheard a ∧ Along step Unheard s₁ actions := by
      simp [Along, hs₁]
    rw [halong, ← hiff]
    by_cases hheard : s.Unheard a
    · simp only [lost, if_pos hheard] at hbalance
      simp only [hheard, true_and]
      omega
    · simp only [lost, if_neg hheard] at hbalance
      simp only [hheard, false_and, iff_false]
      omega

/-- The state after any interleaving of calls is balanced exactly when no `Signal` so far has found
a listener. -/
theorem balanced_iff (initial : ℕ) {actions : List (SemaphoreAction T)} {s : Semaphore T}
    (h : actions.foldlM step (boot initial) = some s) :
    s.waits + s.count = initial + s.signals ↔ Along step Unheard (boot initial) actions := by
  have hrun := (run_balance h).2
  simpa only [boot, Nat.add_zero, Nat.zero_add] using hrun

/-- No thread is between its wake-up and its next `TryWait`. -/
def Quiescent (s : Semaphore T) : Prop :=
  ∀ t, s.phase t ≠ .tryWait ∧ (s.sys.thread t).result = none

/-- A thread takes the only unit, and another one after that a signalled one. -/
theorem balanced_two_threads :
    let actions : List (SemaphoreAction Bool) :=
      [.wait false, .tryWait false, .wait true, .tryWait true, .signal, .await true .attach,
        .tryWait false]
    ∃ s, actions.foldlM step (boot 1) = some s ∧ s.waits + s.count = 1 + s.signals := by
  intro actions
  have hrun : ∃ s, actions.foldlM step (boot 1) = some s := ⟨_, rfl⟩
  obtain ⟨s, hs⟩ := hrun
  exact ⟨s, hs, (balanced_iff 1 hs).mpr (by decide)⟩

/-- A thread waits for an empty semaphore, is woken by a signal, finds the count at zero and sleeps
again: the signal is completed, no wait is, and there is nothing left to take. -/
theorem not_balanced_after_wake :
    ∃ s, [.wait (), .tryWait (), .await () .attach, .await () .block, .signal, .await () .detach,
        .tryWait (), .await () .attach, .await () .block].foldlM step (boot (T := Unit) 0)
          = some s ∧
      s.Quiescent ∧ ¬s.waits + s.count = 0 + s.signals :=
  ⟨_, rfl, fun ⟨⟩ => ⟨by decide, rfl⟩, by decide⟩

end Semaphore

end Cryptix.Locking
