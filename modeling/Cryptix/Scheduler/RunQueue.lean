import Mathlib.Data.List.Nodup
import Mathlib.Logic.Function.Basic
import Cryptix.Lib.Transition

/-!
# The run queues of a CPU

`Kernel/Scheduler/Scheduler.cpp`: the threads of a CPU are in its execution queue or, when the
scheduler found them blocked there, in its blocked queue; the current thread is in neither. A queue
links its threads through their hooks, so a thread is in one queue at most, and the functions that
enqueue a thread assert that it is not linked.

A call returns the new state, or fails: an assertion that a thread is not linked, or the one of
`DequeueThread` that it is, does not hold, or the loop of `PickReadyThread` does not come to an end.
A tick carries a bound on the turns of that loop; a tick that takes more turns is another tick.
Ticks come with preemption enabled, and no thread has a pending signal.

`Unblock` enqueues a blocked thread that is still running, and the tick that takes it off the CPU
then enqueues it again. `queues_wellFormed` says that the queues stay in order when the current
thread is left alone. `blocked_stays_blocked` says which ticks wake a blocked thread: those that
find no other thread to run.
-/

namespace Cryptix.Scheduler

open Lib

variable {T : Type*}

inductive ThreadState
  | ready | idle | killed | running | dequeued | enqueued | blocked | exited
  deriving DecidableEq, Repr

/-- `Thread::IsDead`. -/
def ThreadState.IsDead (state : ThreadState) : Prop := state = .exited ∨ state = .killed

instance (state : ThreadState) : Decidable state.IsDead := inferInstanceAs (Decidable (_ ∨ _))

/-- Why a call does not return. -/
inductive Failure
  | linked | notLinked | noReturn
  deriving DecidableEq, Repr

/-- The threads of a CPU. `parentDead` says whose process is dead. -/
structure RunQueue (T : Type*) where
  state : T → ThreadState
  isEnqueued : T → Bool
  execution : List T
  blocked : List T
  current : Option T
  idle : T
  parentDead : T → Bool

inductive SchedulerAction (T : Type*)
  | tick (turns : ℕ)
  | block (t : T)
  | unblock (t : T)
  | enqueueThread (t : T)
  | enqueueNotReady (t : T)
  | dequeueThread (t : T)
  deriving DecidableEq

namespace RunQueue

/-- A CPU before its first tick. -/
def boot (idle : T) (state : T → ThreadState) (parentDead : T → Bool) : RunQueue T where
  state
  isEnqueued _ := false
  execution := []
  blocked := []
  current := none
  idle
  parentDead

/-- `Hook.IsLinked()`. -/
def Linked (s : RunQueue T) (t : T) : Prop := t ∈ s.execution ++ s.blocked

variable [DecidableEq T]

instance (s : RunQueue T) (t : T) : Decidable (s.Linked t) := inferInstanceAs (Decidable (_ ∈ _))

def setState (s : RunQueue T) (t : T) (state : ThreadState) : RunQueue T :=
  { s with state := Function.update s.state t state }

theorem setState_of_ne (s : RunQueue T) {t x : T} {state : ThreadState} (h : x ≠ t) :
    (s.setState t state).state x = s.state x :=
  Function.update_of_ne h _ _

/-- `Hook.Unlink`. -/
def unlink (s : RunQueue T) (t : T) : RunQueue T :=
  { s with execution := s.execution.erase t, blocked := s.blocked.erase t }

/-- A thread at the end of the execution queue. -/
def pushBack (s : RunQueue T) (t : T) : RunQueue T :=
  { s with
    isEnqueued := Function.update s.isEnqueued t true
    execution := s.execution ++ [t] }

def enqueueThread (s : RunQueue T) (t : T) : Except Failure (RunQueue T) :=
  if s.Linked t then .error .linked
  else if s.isEnqueued t then .ok s
  else .ok ((s.pushBack t).setState t .ready)

def enqueueNotReady (s : RunQueue T) (t : T) : Except Failure (RunQueue T) :=
  if s.Linked t then .error .linked
  else if s.state t = .running then .ok ((s.pushBack t).setState t .ready)
  else .ok (s.pushBack t)

def dequeueThread (s : RunQueue T) (t : T) : Except Failure (RunQueue T) :=
  if ¬s.Linked t then .error .notLinked
  else if ¬s.isEnqueued t then .ok s
  else
    .ok (({ s with isEnqueued := Function.update s.isEnqueued t false }.setState t .dequeued).unlink
      t)

/-- `Block`, up to the yield of the current thread. -/
def block (s : RunQueue T) (t : T) : RunQueue T :=
  if s.state t = .blocked then s else s.setState t .blocked

def unblock (s : RunQueue T) (t : T) : Except Failure (RunQueue T) :=
  if s.state t ≠ .blocked then .ok s
  else
    let s := s.setState t .ready
    if s.isEnqueued t then .ok s
    else (if s.Linked t then s.unlink t else s).enqueueThread t

def getNextThread (s : RunQueue T) : Except Failure (Option T × RunQueue T) :=
  match s.execution with
  | [] => .ok (none, s)
  | t :: execution =>
    let s := { s with execution, isEnqueued := Function.update s.isEnqueued t false }
    if s.Linked t then .error .linked else .ok (some t, s)

/-- The loop of `PickReadyThread`, for at most `n` turns. The branch for a dead process goes on with
the same thread. -/
def pickLoop : ℕ → RunQueue T → Except Failure (Option T × RunQueue T)
  | 0, _ => .error .noReturn
  | n + 1, s =>
    match s.getNextThread with
    | .error e => .error e
    | .ok (none, s) => .ok (none, s)
    | .ok (some t, s) =>
      if s.state t = .ready then .ok (some t, s)
      else if (s.state t).IsDead ∧ s.parentDead t then .error .noReturn
      else if s.state t = .blocked then pickLoop n { s with blocked := s.blocked ++ [t] }
      else
        match s.enqueueNotReady t with
        | .error e => .error e
        | .ok s => pickLoop n s

/-- `PickReadyThread`, when the thread has no pending signal. -/
def pickReadyThread (turns : ℕ) (s : RunQueue T) : Except Failure (T × RunQueue T) :=
  match s.pickLoop turns with
  | .error e => .error e
  | .ok (some t, s) => .ok (t, s)
  | .ok (none, s) => .ok (s.current.getD s.idle, s)

/-- `SwitchContext`, as far as the queues and the current thread go. -/
def switchContext (s : RunQueue T) (t : T) : Except Failure (RunQueue T) :=
  match s.current with
  | none => .ok { s with current := some t }
  | some c =>
    if (s.state c).IsDead ∨ c = t ∨ c = s.idle then .ok { s with current := some t }
    else
      match s.enqueueNotReady c with
      | .error e => .error e
      | .ok s => .ok { s with current := some t }

/-- `Tick`. -/
def tick (turns : ℕ) (s : RunQueue T) : Except Failure (RunQueue T) :=
  match s.pickReadyThread turns with
  | .error e => .error e
  | .ok (t, s) =>
    match s.switchContext t with
    | .error e => .error e
    | .ok s => .ok (if t ≠ s.idle then s.setState t .running else s)

def call (s : RunQueue T) : SchedulerAction T → Except Failure (RunQueue T)
  | .tick turns => s.tick turns
  | .block t => .ok (s.block t)
  | .unblock t => s.unblock t
  | .enqueueThread t => s.enqueueThread t
  | .enqueueNotReady t => s.enqueueNotReady t
  | .dequeueThread t => s.dequeueThread t

def step (s : RunQueue T) (a : SchedulerAction T) : Option (RunQueue T) := (s.call a).toOption

/-! ## The queues stay in order -/

/-- A thread is in one queue at most, and is marked when it is in the execution queue. -/
structure WellFormed (s : RunQueue T) : Prop where
  nodup : (s.execution ++ s.blocked).Nodup
  enqueued : ∀ t, s.isEnqueued t = true ↔ t ∈ s.execution

/-- A new state in which the queues are in order and hold threads that were in them before, or are
in `new`; the current thread is the same. -/
structure Ordered (s s' : RunQueue T) (new : T → Prop) : Prop where
  wellFormed : s'.WellFormed
  linked : ∀ t, s'.Linked t → s.Linked t ∨ new t
  current : s'.current = s.current
  idle : s'.idle = s.idle

namespace WellFormed

variable {s : RunQueue T} {t : T}

theorem pushBack (h : s.WellFormed) (ht : ¬s.Linked t) : Ordered s (s.pushBack t) (· = t) where
  wellFormed :=
    { nodup := by
        have hperm : (t :: (s.execution ++ s.blocked)).Perm (s.execution ++ [t] ++ s.blocked) := by
          rw [List.append_assoc]
          exact List.perm_middle.symm
        exact hperm.nodup_iff.mp (List.nodup_cons.mpr ⟨ht, h.nodup⟩)
      enqueued := fun x => by
        by_cases hx : x = t
        · simp [RunQueue.pushBack, hx]
        · simp [RunQueue.pushBack, hx, h.enqueued] }
  linked x hx := by
    simp only [RunQueue.pushBack, Linked, List.mem_append, List.mem_singleton] at hx ⊢
    tauto
  current := rfl
  idle := rfl

theorem setState (h : s.WellFormed) (t : T) (state : ThreadState) :
    (s.setState t state).WellFormed := ⟨h.nodup, h.enqueued⟩

theorem enqueueThread (h : s.WellFormed) (ht : ¬s.Linked t) :
    ∃ s', s.enqueueThread t = .ok s' ∧ Ordered s s' (· = t) := by
  have hnot : ¬s.isEnqueued t = true := fun henq =>
    ht (List.mem_append_left _ ((h.enqueued t).mp henq))
  refine ⟨(s.pushBack t).setState t .ready, by simp [RunQueue.enqueueThread, ht, hnot], ?_⟩
  have hpush := h.pushBack ht
  exact ⟨hpush.wellFormed.setState t _, hpush.linked, rfl, rfl⟩

theorem enqueueNotReady (h : s.WellFormed) (ht : ¬s.Linked t) :
    ∃ s', s.enqueueNotReady t = .ok s' ∧ Ordered s s' (· = t) := by
  have hpush := h.pushBack ht
  rw [RunQueue.enqueueNotReady, if_neg ht]
  split
  · exact ⟨_, rfl, hpush.wellFormed.setState t _, hpush.linked, rfl, rfl⟩
  · exact ⟨_, rfl, hpush⟩

theorem unlink (h : s.WellFormed) (ht : s.isEnqueued t = false) :
    Ordered s (s.unlink t) (fun _ => False) ∧ ¬(s.unlink t).Linked t := by
  have hexec : t ∉ s.execution := fun hmem => by
    rw [(h.enqueued t).mpr hmem] at ht
    cases ht
  have hnodup := List.nodup_append.mp h.nodup
  have herase : s.execution.erase t = s.execution := List.erase_of_not_mem hexec
  refine ⟨⟨⟨?_, ?_⟩, fun x hx => ?_, rfl, rfl⟩, fun hlinked => ?_⟩
  · exact h.nodup.sublist (List.erase_sublist.append List.erase_sublist)
  · simpa only [RunQueue.unlink, herase] using h.enqueued
  · refine .inl ?_
    simp only [RunQueue.unlink, Linked, List.mem_append] at hx ⊢
    exact hx.imp List.mem_of_mem_erase List.mem_of_mem_erase
  · simp only [RunQueue.unlink, Linked, List.mem_append, herase] at hlinked
    rcases hlinked with hmem | hmem
    · exact hexec hmem
    · exact (hnodup.2.1.not_mem_erase) hmem

theorem unblock (h : s.WellFormed) (t : T) :
    ∃ s', s.unblock t = .ok s' ∧ Ordered s s' (fun x => x = t ∧ s.state t = .blocked) := by
  by_cases hblocked : s.state t = .blocked
  · have hready := h.setState t .ready
    by_cases henq : s.isEnqueued t = true
    · refine ⟨s.setState t .ready, ?_, hready, fun _ hx => .inl hx, rfl, rfl⟩
      simp [RunQueue.unblock, hblocked, RunQueue.setState, henq]
    · -- a thread that is not in the execution queue is taken out of the other one first
      have hset : (s.setState t .ready).isEnqueued t = false := Bool.eq_false_iff.mpr henq
      have hunlinked : ∃ s₁, (if (s.setState t .ready).Linked t then
          (s.setState t .ready).unlink t else s.setState t .ready) = s₁ ∧
          Ordered s s₁ (fun _ => False) ∧ ¬s₁.Linked t := by
        split
        · obtain ⟨hord, hnot⟩ := hready.unlink hset
          exact ⟨_, rfl, ⟨hord.wellFormed, hord.linked, rfl, rfl⟩, hnot⟩
        · rename_i hnot
          exact ⟨_, rfl, ⟨hready, fun _ hx => .inl hx, rfl, rfl⟩, hnot⟩
      obtain ⟨s₁, heq, hord, hnot⟩ := hunlinked
      obtain ⟨s', hs', hord'⟩ := hord.wellFormed.enqueueThread hnot
      refine ⟨s', ?_, hord'.wellFormed, fun x hx => ?_, hord'.current.trans hord.current,
        hord'.idle.trans hord.idle⟩
      · simp only [RunQueue.unblock, hblocked, ne_eq, not_true_eq_false, if_false, hset,
          Bool.false_eq_true, heq]
        exact hs'
      · rcases hord'.linked x hx with hx | hx
        · rcases hord.linked x hx with hx | hx
          · exact .inl hx
          · exact hx.elim
        · exact .inr ⟨hx, hblocked⟩
  · exact ⟨s, by simp [RunQueue.unblock, hblocked], h, fun _ hx => .inl hx, rfl, rfl⟩

theorem dequeueThread (h : s.WellFormed) {s' : RunQueue T} (hs' : s.dequeueThread t = .ok s') :
    Ordered s s' (fun _ => False) := by
  rw [RunQueue.dequeueThread] at hs'
  split at hs'
  · cases hs'
  · split at hs'
    · cases hs'
      exact ⟨h, fun _ hx => .inl hx, rfl, rfl⟩
    · cases hs'
      have hexec := (List.nodup_append.mp h.nodup).1
      refine ⟨⟨?_, fun x => ?_⟩, fun x hx => .inl ?_, rfl, rfl⟩
      · exact h.nodup.sublist (List.erase_sublist.append List.erase_sublist)
      · by_cases hx : x = t
        · simp [RunQueue.unlink, RunQueue.setState, hx, hexec.not_mem_erase]
        · simp [RunQueue.unlink, RunQueue.setState, hx, h.enqueued, List.mem_erase_of_ne hx]
      · simp only [RunQueue.unlink, RunQueue.setState, Linked, List.mem_append] at hx ⊢
        exact hx.imp List.mem_of_mem_erase List.mem_of_mem_erase

/-- The first thread of the execution queue is in no queue when it has been taken out. -/
theorem getNextThread (h : s.WellFormed) {e : List T} (he : s.execution = t :: e) :
    ∃ s', s.getNextThread = .ok (some t, s') ∧ Ordered s s' (fun _ => False) ∧ ¬s'.Linked t ∧
      s.Linked t ∧ s'.state = s.state := by
  have hnodup := h.nodup
  rw [he, List.cons_append, List.nodup_cons] at hnodup
  refine ⟨{ s with execution := e, isEnqueued := Function.update s.isEnqueued t false }, ?_,
    ⟨⟨hnodup.2, fun x => ?_⟩, fun x hx => .inl ?_, rfl, rfl⟩, hnodup.1, ?_, rfl⟩
  · rw [RunQueue.getNextThread, he]
    exact if_neg hnodup.1
  · by_cases hx : x = t
    · have hnot : t ∉ e := fun hmem => hnodup.1 (List.mem_append_left _ hmem)
      simp [hx, hnot]
    · simp [hx, h.enqueued, he]
  · rw [Linked, he]
    exact List.mem_cons_of_mem _ hx
  · rw [Linked, he]
    exact List.mem_cons_self

omit [DecidableEq T] in
theorem pushBlocked (h : s.WellFormed) (ht : ¬s.Linked t) :
    Ordered s { s with blocked := s.blocked ++ [t] } (· = t) where
  wellFormed :=
    { nodup := by
        rw [← List.append_assoc]
        exact List.nodup_append.mpr ⟨h.nodup, List.nodup_singleton t, fun a ha b hb => by
          rw [List.mem_singleton.mp hb]
          rintro rfl
          exact ht ha⟩
      enqueued := h.enqueued }
  linked x hx := by
    simp only [Linked, List.mem_append, List.mem_singleton] at hx ⊢
    tauto
  current := rfl
  idle := rfl

/-- The loop of `PickReadyThread` only moves threads between the queues, and takes out the one it
returns. -/
theorem pickLoop (n : ℕ) : ∀ {s : RunQueue T}, s.WellFormed →
    (∀ e, s.pickLoop n = .error e → e = .noReturn) ∧
    ∀ t? s', s.pickLoop n = .ok (t?, s') → Ordered s s' (fun _ => False) ∧
      ∀ t, t? = some t → ¬s'.Linked t ∧ s.Linked t := by
  induction n with
  | zero =>
    intro s _
    exact ⟨fun e he => by cases he; rfl, fun t? s' hs' => by cases hs'⟩
  | succ n ih =>
    intro s h
    cases he : s.execution with
    | nil =>
      have hnext : s.getNextThread = .ok (none, s) := by rw [RunQueue.getNextThread, he]
      rw [RunQueue.pickLoop, hnext]
      refine ⟨fun e he => (by cases he), fun t? s' hs' => ?_⟩
      obtain ⟨rfl, rfl⟩ := by simpa using hs'
      exact ⟨⟨h, fun _ hx => .inl hx, rfl, rfl⟩, fun t ht => by cases ht⟩
    | cons t e =>
      obtain ⟨s₁, hnext, hord, hnot, hlinked, -⟩ := h.getNextThread he
      rw [RunQueue.pickLoop, hnext]
      -- what is put back was in a queue before
      have hback {s₂ : RunQueue T} (hord₂ : Ordered s₁ s₂ (· = t)) :
          (∀ e, s₂.pickLoop n = .error e → e = .noReturn) ∧
          ∀ t? s', s₂.pickLoop n = .ok (t?, s') → Ordered s s' (fun _ => False) ∧
            ∀ x, t? = some x → ¬s'.Linked x ∧ s.Linked x := by
        have hsub (x : T) (hx : s₂.Linked x) : s.Linked x := by
          rcases hord₂.linked x hx with hx | rfl
          · exact (hord.linked x hx).resolve_right id
          · exact hlinked
        obtain ⟨herror, hok⟩ := ih hord₂.wellFormed
        refine ⟨herror, fun t? s' hs' => ?_⟩
        obtain ⟨hord', hpicked⟩ := hok t? s' hs'
        refine ⟨⟨hord'.wellFormed, fun x hx => ?_, ?_, ?_⟩, fun x hx => ?_⟩
        · exact .inl (hsub x ((hord'.linked x hx).resolve_right id))
        · rw [hord'.current, hord₂.current, hord.current]
        · rw [hord'.idle, hord₂.idle, hord.idle]
        · exact ⟨(hpicked x hx).1, hsub x (hpicked x hx).2⟩
      simp only
      split
      · refine ⟨fun e he => (by cases he), fun t? s' hs' => ?_⟩
        obtain ⟨rfl, rfl⟩ := by simpa using hs'
        refine ⟨hord, fun x hx => ?_⟩
        obtain rfl := Option.some.inj hx
        exact ⟨hnot, hlinked⟩
      · split
        · exact ⟨fun e he => by cases he; rfl, fun t? s' hs' => by cases hs'⟩
        · split
          · exact hback (hord.wellFormed.pushBlocked hnot)
          · obtain ⟨s₂, hs₂, hord₂⟩ := hord.wellFormed.enqueueNotReady hnot
            rw [hs₂]
            exact hback hord₂

end WellFormed

/-- The queues are in order, and the current thread, unless it is the idle thread, is in neither. -/
structure Inv (s : RunQueue T) : Prop extends s.WellFormed where
  current : ∀ c, s.current = some c → c ≠ s.idle → ¬s.Linked c

omit [DecidableEq T] in
theorem inv_boot (idle : T) (state : T → ThreadState) (parentDead : T → Bool) :
    Inv (boot idle state parentDead) where
  nodup := List.nodup_nil
  enqueued t := by simp [boot]
  current c hc := by cases hc

namespace Inv

variable {s : RunQueue T} {t : T}

omit [DecidableEq T] in
/-- What only enqueues threads other than the current one keeps the invariant. -/
theorem of_ordered (h : Inv s) {s' : RunQueue T} {new : T → Prop} (hord : Ordered s s' new)
    (hnew : ∀ x, new x → s.current = some x → x = s.idle) : Inv s' where
  toWellFormed := hord.wellFormed
  current c hc hidle hlinked := by
    rw [hord.current] at hc
    rw [hord.idle] at hidle
    rcases hord.linked c hlinked with hlinked | hc'
    · exact h.current c hc hidle hlinked
    · exact hidle (hnew c hc' hc)

/-- The thread that is picked is in no queue, unless it is the idle thread. -/
theorem pickReadyThread (h : Inv s) (turns : ℕ) :
    (∀ e, s.pickReadyThread turns = .error e → e = .noReturn) ∧
    ∀ t s', s.pickReadyThread turns = .ok (t, s') →
      Ordered s s' (fun _ => False) ∧ (t ≠ s.idle → ¬s'.Linked t) := by
  obtain ⟨herror, hok⟩ := h.toWellFormed.pickLoop turns
  rw [RunQueue.pickReadyThread]
  split
  · rename_i e he
    refine ⟨fun e' he' => ?_, fun t s' hs' => by cases hs'⟩
    obtain rfl : e = e' := by simpa using he'
    exact herror e he
  · rename_i t s₁ hs₁
    refine ⟨fun e he => (by cases he), fun t' s' hs' => ?_⟩
    obtain ⟨rfl, rfl⟩ := by simpa using hs'
    obtain ⟨hord, hpicked⟩ := hok _ _ hs₁
    exact ⟨hord, fun _ => (hpicked t rfl).1⟩
  · rename_i s₁ hs₁
    refine ⟨fun e he => (by cases he), fun t' s' hs' => ?_⟩
    obtain ⟨rfl, rfl⟩ := by simpa using hs'
    obtain ⟨hord, -⟩ := hok _ _ hs₁
    refine ⟨hord, fun hidle hlinked => ?_⟩
    rw [hord.current, hord.idle] at hidle hlinked
    have hlinked := (hord.linked _ hlinked).resolve_right id
    cases hcurrent : s.current with
    | none => simp [hcurrent] at hidle
    | some c =>
      rw [hcurrent, Option.getD_some] at hidle hlinked
      exact h.current c hcurrent hidle hlinked

theorem switchContext (h : Inv s) (ht : t ≠ s.idle → ¬s.Linked t) :
    ∃ s', s.switchContext t = .ok s' ∧ Inv s' := by
  have hsame : Inv { s with current := some t } :=
    ⟨⟨h.nodup, h.enqueued⟩, fun c hc hidle => by
      obtain rfl := Option.some.inj hc
      exact ht hidle⟩
  rw [RunQueue.switchContext]
  cases hcurrent : s.current with
  | none => exact ⟨_, rfl, hsame⟩
  | some c =>
    simp only
    split
    · exact ⟨_, rfl, hsame⟩
    · rename_i hc
      simp only [not_or] at hc
      obtain ⟨s', hs', hord⟩ := h.toWellFormed.enqueueNotReady (h.current c hcurrent hc.2.2)
      rw [hs']
      refine ⟨_, rfl, ⟨hord.wellFormed.nodup, hord.wellFormed.enqueued⟩,
        fun x hx hidle hlinked => ?_⟩
      obtain rfl := Option.some.inj hx
      simp only [hord.idle] at hidle
      rcases hord.linked t hlinked with hlinked | hct
      · exact ht hidle hlinked
      · exact hc.2.1 hct.symm

theorem tick (h : Inv s) (turns : ℕ) :
    (∀ e, s.tick turns = .error e → e = .noReturn) ∧ ∀ s', s.tick turns = .ok s' → Inv s' := by
  obtain ⟨herror, hok⟩ := h.pickReadyThread turns
  rw [RunQueue.tick]
  split
  · rename_i e he
    refine ⟨fun e' he' => ?_, fun s' hs' => by cases hs'⟩
    obtain rfl : e = e' := by simpa using he'
    exact herror e he
  · rename_i t s₁ hs₁
    obtain ⟨hord, ht⟩ := hok t s₁ hs₁
    obtain ⟨s₂, hs₂, hinv⟩ := (h.of_ordered hord fun _ hx => hx.elim).switchContext
      (by rwa [hord.idle])
    rw [hs₂]
    refine ⟨fun e he => (by cases he), fun s' hs' => ?_⟩
    obtain rfl := Except.ok.inj hs'
    split
    · exact ⟨⟨hinv.nodup, hinv.enqueued⟩, hinv.current⟩
    · exact hinv

end Inv

/-- A blocked thread that is still current is not unblocked, and only threads that are in no queue
and are not current are enqueued. The idle thread is never enqueued by a tick. -/
def Apart (s : RunQueue T) : SchedulerAction T → Prop
  | .unblock t => s.state t = .blocked → s.current = some t → t = s.idle
  | .enqueueThread t => ¬s.Linked t ∧ (s.current = some t → t = s.idle)
  | .enqueueNotReady t => ¬s.Linked t ∧ (s.current = some t → t = s.idle)
  | _ => True

instance (s : RunQueue T) : ∀ a, Decidable (s.Apart a)
  | .unblock _ => inferInstanceAs (Decidable (_ → _ → _))
  | .enqueueThread _ => inferInstanceAs (Decidable (_ ∧ _))
  | .enqueueNotReady _ => inferInstanceAs (Decidable (_ ∧ _))
  | .tick _ => inferInstanceAs (Decidable True)
  | .block _ => inferInstanceAs (Decidable True)
  | .dequeueThread _ => inferInstanceAs (Decidable True)

/-- No assertion that a thread is not linked fails, and the queues are in order afterwards. -/
def InOrder (s : RunQueue T) (a : SchedulerAction T) : Prop :=
  s.call a ≠ .error .linked ∧ ∀ s', s.step a = some s' → s'.WellFormed

theorem Inv.call {s : RunQueue T} (h : Inv s) {a : SchedulerAction T} (ha : s.Apart a) :
    s.call a ≠ .error .linked ∧ ∀ s', s.call a = .ok s' → Inv s' := by
  cases a with
  | tick turns =>
    obtain ⟨herror, hok⟩ := h.tick turns
    refine ⟨fun he => ?_, hok⟩
    have hne := herror _ he
    cases hne
  | block t =>
    refine ⟨fun he => (by cases he), fun s' hs' => ?_⟩
    obtain rfl := Except.ok.inj hs'
    rw [RunQueue.block]
    split
    · exact h
    · exact ⟨⟨h.nodup, h.enqueued⟩, h.current⟩
  | unblock t =>
    obtain ⟨s', hs', hord⟩ := h.toWellFormed.unblock t
    have hcall : s.call (.unblock t) = .ok s' := hs'
    rw [hcall]
    refine ⟨fun he => (by cases he), fun s₁ hs₁ => ?_⟩
    obtain rfl := Except.ok.inj hs₁
    exact h.of_ordered hord fun x hx hcurrent => by
      obtain ⟨rfl, hblocked⟩ := hx
      exact ha hblocked hcurrent
  | enqueueThread t =>
    obtain ⟨s', hs', hord⟩ := h.toWellFormed.enqueueThread ha.1
    have hcall : s.call (.enqueueThread t) = .ok s' := hs'
    rw [hcall]
    refine ⟨fun he => (by cases he), fun s₁ hs₁ => ?_⟩
    obtain rfl := Except.ok.inj hs₁
    exact h.of_ordered hord fun x hx hcurrent => by
      subst hx
      exact ha.2 hcurrent
  | enqueueNotReady t =>
    obtain ⟨s', hs', hord⟩ := h.toWellFormed.enqueueNotReady ha.1
    have hcall : s.call (.enqueueNotReady t) = .ok s' := hs'
    rw [hcall]
    refine ⟨fun he => (by cases he), fun s₁ hs₁ => ?_⟩
    obtain rfl := Except.ok.inj hs₁
    exact h.of_ordered hord fun x hx hcurrent => by
      subst hx
      exact ha.2 hcurrent
  | dequeueThread t =>
    refine ⟨fun he => ?_, fun s' hs' => ?_⟩
    · simp only [RunQueue.call, RunQueue.dequeueThread] at he
      split at he
      · cases he
      · split at he <;> cases he
    · exact h.of_ordered (h.toWellFormed.dequeueThread hs') fun _ hx => hx.elim

theorem step_eq_some {s s' : RunQueue T} {a : SchedulerAction T} :
    s.step a = some s' ↔ s.call a = .ok s' := by
  rw [step]
  cases s.call a <;> simp [Except.toOption]

/-- In every run that leaves the current thread apart, the queues stay in order and no assertion on
`Hook.IsLinked()` in `EnqueueThread`, `EnqueueNotReady` and `GetNextThread` fails. -/
theorem queues_wellFormed (idle : T) (state : T → ThreadState) (parentDead : T → Bool)
    {actions : List (SchedulerAction T)}
    (h : Along step Apart (boot idle state parentDead) actions) :
    Along step InOrder (boot idle state parentDead) actions := by
  refine Along.of_invariant (inv_boot idle state parentDead) h (fun s a hs ha => ?_)
    fun s a s' hs ha hs' => (hs.call ha).2 s' (step_eq_some.mp hs')
  exact ⟨(hs.call ha).1, fun s' hs' => ((hs.call ha).2 s' (step_eq_some.mp hs')).toWellFormed⟩

/-- Two threads take turns; one of them is blocked, moved to the blocked queue by a tick and
unblocked there. -/
theorem queues_wellFormed_two_threads :
    Along step InOrder (boot (0 : Fin 3) (fun _ => .idle) fun _ => false)
      [.enqueueThread 1, .enqueueThread 2, .tick 5, .block 1, .tick 5, .tick 5, .unblock 1,
        .tick 5] :=
  queues_wellFormed 0 (fun _ => .idle) (fun _ => false) (by decide)

/-- An interrupt unblocks a thread that has blocked itself and is still current, and the next tick,
which picks another thread, enqueues it again. -/
theorem linked_after_early_unblock :
    ∃ s, Reaches step anyCall (boot (0 : Fin 3) (fun _ => .idle) fun _ => false) s ∧
      s.current = some 1 ∧ 1 ∈ s.execution ∧ s.call (.tick 5) = .error .linked :=
  ⟨_, .of_list [.enqueueThread 1, .enqueueThread 2, .tick 5, .block 1, .unblock 1] rfl,
    by decide, by decide, rfl⟩

/-! ## Who wakes a blocked thread -/

/-- A blocked thread becomes ready or running only in a call of `Unblock` or `EnqueueThread` for
it. -/
def OnlyWoken (s : RunQueue T) (a : SchedulerAction T) : Prop :=
  ∀ s', s.step a = some s' → ∀ t, s.state t = .blocked →
    s'.state t = .ready ∨ s'.state t = .running → a = .unblock t ∨ a = .enqueueThread t

/-- The current thread is blocked, and so is every thread of the execution queue. -/
def FallsBack (s : RunQueue T) : Prop :=
  ∃ c ∈ s.current, c ≠ s.idle ∧ s.state c = .blocked ∧ ∀ t ∈ s.execution, s.state t = .blocked

instance (s : RunQueue T) : Decidable s.FallsBack :=
  inferInstanceAs (Decidable (∃ c ∈ s.current, _))

/-- A tick finds the current thread not blocked, or another thread to run. -/
def FindsThread (s : RunQueue T) : SchedulerAction T → Prop
  | .tick _ => ¬s.FallsBack
  | _ => True

instance (s : RunQueue T) : ∀ a, Decidable (s.FindsThread a)
  | .tick _ => inferInstanceAs (Decidable (¬_))
  | .block _ => inferInstanceAs (Decidable True)
  | .unblock _ => inferInstanceAs (Decidable True)
  | .enqueueThread _ => inferInstanceAs (Decidable True)
  | .enqueueNotReady _ => inferInstanceAs (Decidable True)
  | .dequeueThread _ => inferInstanceAs (Decidable True)

/-- `EnqueueNotReady` makes only a running thread ready. -/
theorem enqueueNotReady_state {s s' : RunQueue T} {t : T} (h : s.enqueueNotReady t = .ok s') :
    (∀ x, s'.state x = .blocked ↔ s.state x = .blocked) ∧ s'.execution = s.execution ++ [t] ∧
      s'.current = s.current ∧ s'.idle = s.idle := by
  rw [enqueueNotReady] at h
  split at h
  · cases h
  · split at h
    · rename_i hrunning
      obtain rfl := Except.ok.inj h
      refine ⟨fun x => ?_, rfl, rfl, rfl⟩
      by_cases hx : x = t
      · simp [setState, hx, hrunning]
      · simp [setState, pushBack, hx]
    · obtain rfl := Except.ok.inj h
      exact ⟨fun _ => Iff.rfl, rfl, rfl, rfl⟩

theorem getNextThread_cases {s s' : RunQueue T} {t? : Option T}
    (h : s.getNextThread = .ok (t?, s')) :
    (t? = none ∧ s' = s ∧ s.execution = []) ∨
      ∃ t e, s.execution = t :: e ∧ t? = some t ∧
        s' = { s with execution := e, isEnqueued := Function.update s.isEnqueued t false } := by
  rw [getNextThread] at h
  split at h
  · rename_i hnil
    obtain ⟨rfl, rfl⟩ := by simpa using h
    exact .inl ⟨rfl, rfl, hnil⟩
  · rename_i t e he
    simp only at h
    split at h
    · cases h
    · obtain ⟨rfl, rfl⟩ := by simpa using h
      exact .inr ⟨t, e, he, rfl, rfl⟩

/-- The loop of `PickReadyThread` blocks and unblocks nobody; the thread it returns is ready, and it
returns none only when every thread of the queue is blocked. -/
theorem pickLoop_state (n : ℕ) : ∀ {s s' : RunQueue T} {t? : Option T},
    s.pickLoop n = .ok (t?, s') →
      (∀ x, s'.state x = .blocked ↔ s.state x = .blocked) ∧ s'.current = s.current ∧
      s'.idle = s.idle ∧ (∀ t, t? = some t → s'.state t = .ready) ∧
      (t? = none → ∀ x ∈ s.execution, s.state x = .blocked) := by
  induction n with
  | zero =>
    intro s s' t? h
    cases h
  | succ n ih =>
    intro s s' t? h
    rw [pickLoop] at h
    split at h
    · cases h
    · rename_i s₁ hnext
      obtain ⟨rfl, rfl⟩ := by simpa using h
      rcases getNextThread_cases hnext with ⟨-, rfl, hnil⟩ | ⟨t, e, -, hsome, -⟩
      · exact ⟨fun _ => Iff.rfl, rfl, rfl, fun t ht => (by cases ht), fun _ => by simp [hnil]⟩
      · cases hsome
    · rename_i t s₁ hnext
      rcases getNextThread_cases hnext with ⟨hnone, -⟩ | ⟨t', e, he, hsome, rfl⟩
      · cases hnone
      obtain rfl := Option.some.inj hsome
      split at h
      · rename_i hready
        obtain ⟨rfl, rfl⟩ := by simpa using h
        refine ⟨fun _ => Iff.rfl, rfl, rfl, fun x hx => ?_, fun hx => by cases hx⟩
        exact Option.some.inj hx ▸ hready
      · split at h
        · cases h
        · split at h
          · rename_i hblocked
            obtain ⟨hstate, hcurrent, hidle, hpicked, hnone⟩ := ih h
            refine ⟨hstate, hcurrent, hidle, hpicked, fun ht x hx => ?_⟩
            rw [he] at hx
            rcases List.mem_cons.mp hx with rfl | hx
            · exact hblocked
            · exact hnone ht x hx
          · rename_i hblocked
            split at h
            · cases h
            · rename_i s₂ hs₂
              obtain ⟨hstate₂, hexec, hcurrent₂, hidle₂⟩ := enqueueNotReady_state hs₂
              obtain ⟨hstate, hcurrent, hidle, hpicked, hnone⟩ := ih h
              refine ⟨fun x => (hstate x).trans (hstate₂ x), hcurrent.trans hcurrent₂,
                hidle.trans hidle₂, hpicked, fun ht => ?_⟩
              -- a thread that is put back would have been found again
              have hback := hnone ht t (by rw [hexec]; exact List.mem_append_right _ (by simp))
              exact absurd ((hstate₂ t).mp hback) hblocked

/-- `SwitchContext` neither blocks nor unblocks. -/
theorem switchContext_state {s s' : RunQueue T} {t : T} (h : s.switchContext t = .ok s') :
    (∀ x, s'.state x = .blocked ↔ s.state x = .blocked) ∧ s'.idle = s.idle := by
  rw [switchContext] at h
  split at h
  · obtain rfl := Except.ok.inj h
    exact ⟨fun _ => Iff.rfl, rfl⟩
  · split at h
    · obtain rfl := Except.ok.inj h
      exact ⟨fun _ => Iff.rfl, rfl⟩
    · split at h
      · cases h
      · rename_i s₁ hs₁
        obtain rfl := Except.ok.inj h
        obtain ⟨hstate, -, -, hidle⟩ := enqueueNotReady_state hs₁
        exact ⟨hstate, hidle⟩

/-- The thread that a tick takes is ready, or it is the current one or the idle one, and then nobody
else can run. -/
theorem tick_state {s s' : RunQueue T} {turns : ℕ} (h : s.tick turns = .ok s') {x : T}
    (hx : s.state x = .blocked) (hwoken : s'.state x ≠ .blocked) : s.FallsBack := by
  rw [tick] at h
  split at h
  · cases h
  · rename_i t s₁ hs₁
    split at h
    · cases h
    · rename_i s₂ hs₂
      obtain rfl := Except.ok.inj h
      obtain ⟨hstate₂, hidle₂⟩ := switchContext_state hs₂
      rw [pickReadyThread] at hs₁
      split at hs₁
      · cases hs₁
      · -- a ready thread was not blocked before
        rename_i t' s₁' hpick
        obtain ⟨rfl, rfl⟩ := by simpa using hs₁
        obtain ⟨hstate, -, -, hready, -⟩ := pickLoop_state turns hpick
        have hx₂ := (hstate₂ x).mpr ((hstate x).mpr hx)
        split at hwoken
        · by_cases hxt : x = t'
          · rw [hxt, hstate₂, hready t' rfl] at hx₂
            cases hx₂
          · rw [setState_of_ne _ hxt] at hwoken
            exact absurd hx₂ hwoken
        · exact absurd hx₂ hwoken
      · rename_i s₁' hpick
        obtain ⟨rfl, rfl⟩ := by simpa using hs₁
        obtain ⟨hstate, hcurrent, hidle, -, hall⟩ := pickLoop_state turns hpick
        have hx₂ := (hstate₂ x).mpr ((hstate x).mpr hx)
        split at hwoken
        · rename_i hne
          by_cases hxt : x = s₁'.current.getD s₁'.idle
          · rw [hidle₂] at hne
            rw [hcurrent, hidle] at hne hxt
            cases hc : s.current with
            | none => simp [hc] at hne
            | some c =>
              rw [hc, Option.getD_some] at hne hxt
              exact ⟨c, hc, hne, hxt ▸ hx, hall rfl⟩
          · rw [setState_of_ne _ hxt] at hwoken
            exact absurd hx₂ hwoken
        · exact absurd hx₂ hwoken

theorem enqueueThread_state {s s' : RunQueue T} {t x : T} (h : s.enqueueThread t = .ok s')
    (hx : x ≠ t) : s'.state x = s.state x := by
  rw [enqueueThread] at h
  split at h
  · cases h
  · split at h
    · rw [Except.ok.inj h]
    · obtain rfl := Except.ok.inj h
      exact setState_of_ne _ hx

theorem unblock_state {s s' : RunQueue T} {t x : T} (h : s.unblock t = .ok s') (hx : x ≠ t) :
    s'.state x = s.state x := by
  have hset : (s.setState t .ready).state x = s.state x := setState_of_ne s hx
  simp only [unblock] at h
  split at h
  · rw [Except.ok.inj h]
  · split at h
    · rw [← Except.ok.inj h]
      exact hset
    · refine (enqueueThread_state h hx).trans ?_
      split <;> exact hset

theorem dequeueThread_state {s s' : RunQueue T} {t : T} (h : s.dequeueThread t = .ok s') (x : T) :
    s'.state x = s.state x ∨ s'.state x = .dequeued := by
  rw [dequeueThread] at h
  split at h
  · cases h
  · split at h
    · rw [Except.ok.inj h]
      exact .inl rfl
    · obtain rfl := Except.ok.inj h
      by_cases hx : x = t
      · exact .inr (by simp [unlink, setState, hx])
      · exact .inl (by simp [unlink, setState, hx])

theorem step_onlyWoken {s : RunQueue T} {a : SchedulerAction T} (ha : s.FindsThread a) :
    s.OnlyWoken a := by
  intro s' hs' x hx hwoken
  have hcall := step_eq_some.mp hs'
  have hne : s'.state x ≠ .blocked := by
    intro heq
    rw [heq] at hwoken
    simp at hwoken
  cases a with
  | tick turns => exact absurd (tick_state hcall hx hne) ha
  | block t =>
    obtain rfl := Except.ok.inj hcall
    refine absurd ?_ hne
    rw [block]
    split
    · exact hx
    · by_cases hxt : x = t
      · simp [setState, hxt]
      · rw [setState_of_ne s hxt]
        exact hx
  | unblock t =>
    by_cases hxt : x = t
    · exact .inl (by rw [hxt])
    · exact absurd ((unblock_state hcall hxt).trans hx) hne
  | enqueueThread t =>
    by_cases hxt : x = t
    · exact .inr (by rw [hxt])
    · exact absurd ((enqueueThread_state hcall hxt).trans hx) hne
  | enqueueNotReady t => exact absurd (((enqueueNotReady_state hcall).1 x).mpr hx) hne
  | dequeueThread t =>
    rcases dequeueThread_state hcall x with heq | heq
    · exact absurd (heq.trans hx) hne
    · rw [heq] at hwoken
      simp at hwoken

/-- In every run, from any contents of the queues, a blocked thread is woken only by a call for it,
as long as every tick finds the current thread not blocked or a thread to run instead. -/
theorem blocked_stays_blocked (s : RunQueue T) {actions : List (SchedulerAction T)}
    (h : Along step FindsThread s actions) : Along step OnlyWoken s actions :=
  Along.of_invariant (I := fun _ => True) trivial h (fun _ _ _ ha => step_onlyWoken ha)
    fun _ _ _ _ _ _ => trivial

/-- When every thread of the queue is blocked, the loop of `PickReadyThread` empties the queue. -/
theorem pickLoop_of_blocked : ∀ {s : RunQueue T}, (s.execution ++ s.blocked).Nodup →
    (∀ t ∈ s.execution, s.state t = .blocked) →
    ∃ s', s.pickLoop (s.execution.length + 1) = .ok (none, s') ∧ s'.state = s.state ∧
      s'.current = s.current ∧ s'.idle = s.idle := by
  intro s
  induction he : s.execution generalizing s with
  | nil =>
    intro _ _
    have hnext : s.getNextThread = .ok (none, s) := by rw [getNextThread, he]
    exact ⟨s, by rw [pickLoop, hnext], rfl, rfl, rfl⟩
  | cons t e ih =>
    intro hnodup hall
    rw [List.cons_append, List.nodup_cons] at hnodup
    have ht := hall t List.mem_cons_self
    have hnext : s.getNextThread = .ok (some t, { s with
        execution := e, isEnqueued := Function.update s.isEnqueued t false }) := by
      rw [getNextThread, he]
      exact if_neg hnodup.1
    have hperm : (t :: (e ++ s.blocked)).Perm (e ++ (s.blocked ++ [t])) := by
      rw [← List.append_assoc]
      exact (List.perm_append_singleton t _).symm
    obtain ⟨s', hs', hrest⟩ := ih (s := { s with
        execution := e
        isEnqueued := Function.update s.isEnqueued t false
        blocked := s.blocked ++ [t] }) rfl (hperm.nodup_iff.mp (List.nodup_cons.mpr hnodup))
      fun x hx => hall x (List.mem_cons_of_mem _ hx)
    refine ⟨s', ?_, hrest⟩
    rw [List.length_cons, pickLoop, hnext]
    simp only [ht, ThreadState.IsDead]
    simpa using hs'

/-- A tick that finds nobody to run makes the blocked current thread run. -/
theorem running_of_fallsBack {s : RunQueue T} (hnodup : (s.execution ++ s.blocked).Nodup)
    (h : s.FallsBack) : ¬s.OnlyWoken (.tick (s.execution.length + 1)) := by
  obtain ⟨c, hc, hidle, hblocked, hall⟩ := h
  obtain ⟨s', hs', hstate, hcurrent, hidle'⟩ := pickLoop_of_blocked hnodup hall
  have hpick : s.pickReadyThread (s.execution.length + 1) = .ok (c, s') := by
    rw [pickReadyThread, hs']
    simp [hcurrent, Option.mem_def.mp hc]
  have hswitch : s'.switchContext c = .ok { s' with current := some c } := by
    rw [switchContext, hcurrent, hc]
    exact if_pos (.inr (.inl rfl))
  intro honly
  have hstep : s.step (.tick (s.execution.length + 1)) =
      some ({ s' with current := some c }.setState c .running) := by
    refine step_eq_some.mpr ?_
    simp only [call, tick, hpick, hswitch]
    rw [if_pos (by rw [hidle']; exact hidle)]
  rcases honly _ hstep c hblocked (.inr (by simp [setState])) with h | h <;> cases h

/-- A thread is blocked while another one is ready, and is unblocked. -/
theorem blocked_stays_blocked_two_threads :
    Along step OnlyWoken (boot (0 : Fin 3) (fun _ => .idle) fun _ => false)
      [.enqueueThread 1, .enqueueThread 2, .tick 5, .block 1, .tick 5, .tick 5, .unblock 1,
        .tick 5] :=
  blocked_stays_blocked _ (by decide)

/-- The only thread blocks itself, and the next tick makes it run. -/
theorem running_after_block :
    ∃ s, Reaches step anyCall (boot (0 : Fin 2) (fun _ => .idle) fun _ => false) s ∧
      ¬s.OnlyWoken (.tick 1) := by
  refine ⟨_, .of_list [.enqueueThread 1, .tick 2, .block 1] rfl, fun h => ?_⟩
  rcases h _ rfl 1 rfl (.inr rfl) with h | h <;> cases h

end RunQueue

end Cryptix.Scheduler
