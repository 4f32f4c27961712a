import Mathlib.Data.Fintype.Basic
import Cryptix.Locking.Mutex

/-!
# The condition variable

`Kernel/Library/Locking/ConditionalVariable.cpp`. `Wait` lists the thread with the event of the
variable, releases the mutex, awaits the event, which lists the thread a second time, and takes the
mutex again. `NotifyOne` and `NotifyAll` trigger the event, and a notification that finds no
listener is dropped.

The threads share one mutex, whose own event is the second event of the system, so a thread that
takes the mutex, in `Wait` or before it, may sleep in `Mutex::Lock`.

A notification that comes between the release of the mutex and `Block` is lost, and `NotifyOne`
wakes every listener. `notified` says that in a run in which neither happens each notification has
its effect: the waiters it is for return from `Await`, exactly one for `NotifyOne`, and none returns
without a notification.
-/

namespace Cryptix.Locking

open Lib Scheduler

variable {T : Type*}

/-- The event of the variable and the event of the mutex. -/
inductive CvEvent
  | cond | lock
  deriving DecidableEq, Repr

/-- Where a thread is: outside, in `Mutex::Lock` (as the end of `Wait` or by itself), in `Wait`
before it has released the mutex, or in the `Await` of `Wait`. -/
inductive CvPhase
  | outside
  | locking (p : LockPhase) (inWait : Bool)
  | registered
  | waiting
  deriving DecidableEq, Repr

/-- The event that the `Await` a thread is in was given. -/
def CvPhase.event : CvPhase → Option CvEvent
  | .waiting => some .cond
  | .locking .awaiting _ => some .lock
  | _ => none

theorem CvPhase.event_eq_cond {p : CvPhase} (h : p.event = some .cond) : p = .waiting := by
  rw [CvPhase.event.eq_def] at h
  split at h
  · rfl
  · cases h
  · cases h

/-- A condition variable with its mutex and its threads. `told t` says that a notification was made
since the thread `t` released the mutex in `Wait`. -/
structure ConditionalVariable (T : Type*) where
  mutex : Mutex T
  sys : EventSystem T CvEvent
  phase : T → CvPhase
  told : T → Bool

inductive CvAction (T : Type*)
  | lock (t : T)
  | lockStep (t : T) (a : LockStep)
  | unlock (t : T)
  | wait (t : T)
  | release (t : T)
  | await (t : T) (a : AwaitStep)
  | notifyOne
  | notifyAll
  deriving DecidableEq

namespace ConditionalVariable

def boot : ConditionalVariable T where
  mutex := .new
  sys := .boot fun _ => 0
  phase _ := .outside
  told _ := false

variable [DecidableEq T]

/-- The section of `Wait` under the lock of the variable. -/
def register (sys : EventSystem T CvEvent) (t : T) : EventSystem T CvEvent where
  event := Function.update sys.event .cond
    { sys.event .cond with listeners := (sys.event .cond).listeners ++ [⟨t, 0⟩] }
  thread := Function.update sys.thread t
    { sys.thread t with events := (sys.thread t).events ++ [.cond] }

/-- The place a thread gets to in `Mutex::Lock`. -/
def locked (inWait : Bool) : Option LockPhase → CvPhase
  | some p => .locking p inWait
  | none => .outside

/-- A notification that triggers the event or not. -/
def notify (s : ConditionalVariable T) (sys : EventSystem T CvEvent) : ConditionalVariable T :=
  { s with sys, told := fun t => s.phase t = .waiting ∨ s.told t }

def step (s : ConditionalVariable T) : CvAction T → Option (ConditionalVariable T)
  | .lock t =>
    if s.phase t = .outside then
      some { s with phase := Function.update s.phase t (.locking .entry false) }
    else none
  | .lockStep t a =>
    match s.phase t with
    | .locking p inWait =>
      (s.mutex.lockStep s.sys .lock t p a).map fun (mutex, sys, p) =>
        { s with mutex, sys, phase := Function.update s.phase t (locked inWait p) }
    | _ => none
  | .unlock t =>
    if s.phase t = .outside then
      (s.mutex.unlock t).map fun mutex => { s with mutex, sys := s.sys.trigger .lock false }
    else none
  | .wait t =>
    if s.phase t = .outside then
      some { s with
        sys := register s.sys t
        phase := Function.update s.phase t .registered
        told := Function.update s.told t false }
    else none
  | .release t =>
    if s.phase t = .registered then
      (s.mutex.unlock t).map fun mutex =>
        { s with
          mutex
          sys := s.sys.trigger .lock false
          phase := Function.update s.phase t .waiting }
    else none
  | .await t a =>
    if s.phase t = .waiting then
      (s.sys.awaitStep t [.cond] a).map fun (sys, returned) =>
        { s with
          sys
          phase := if returned then Function.update s.phase t (.locking .entry true) else s.phase }
    else none
  | .notifyOne =>
    some (s.notify
      (if (s.sys.event .cond).listeners ≠ [] then s.sys.trigger .cond true else s.sys))
  | .notifyAll => some (s.notify (s.sys.trigger .cond true))

/-- The thread has released the mutex in `Wait` and has not been woken. -/
def Sleeper (s : ConditionalVariable T) (t : T) : Prop :=
  s.phase t = .waiting ∧ (s.sys.thread t).result = none

instance (s : ConditionalVariable T) (t : T) : Decidable (s.Sleeper t) :=
  inferInstanceAs (Decidable (_ ∧ _))

/-- The thread has released the mutex in `Wait` and returns from `Await`, to take the mutex. -/
def Woken (s : ConditionalVariable T) (t : T) : Prop :=
  s.phase t = .waiting ∧ (s.sys.thread t).result.isSome

/-- What a step has to do: `NotifyAll` wakes every waiter that has released the mutex, `NotifyOne`
exactly one of them if there are any, a woken waiter stays so until it returns from `Await`, one
that sleeps for the mutex then is listed with the event of the mutex, and none returns without a
notification. -/
def Notifies (s : ConditionalVariable T) (a : CvAction T) : Prop :=
  ∀ s', s.step a = some s' →
    (a = .notifyAll → ∀ t, s.Sleeper t → s'.Woken t) ∧
    (a = .notifyOne → (∃ t, s.Sleeper t) → ∃! t, s.Sleeper t ∧ s'.Woken t) ∧
    (∀ t, s.Woken t → s'.Woken t ∨ s'.phase t = .locking .entry true) ∧
    (∀ t, s'.phase t = .locking .awaiting true → (s'.sys.thread t).blocked →
      ∃ l ∈ (s'.sys.event .lock).listeners, l.thread = t) ∧
    ∀ t, s.phase t = .waiting → s'.phase t ≠ .waiting → s.told t

/-- The threads that a trigger is for are blocked: the waiters that have released the mutex when a
notification is made, of which there is at most one for `NotifyOne`, and the threads that listen to
the event of the mutex when it is unlocked. -/
def Settled (s : ConditionalVariable T) : CvAction T → Prop
  | .notifyOne => (∀ t, s.Sleeper t → (s.sys.thread t).blocked) ∧
      ∀ t t', s.Sleeper t → s.Sleeper t' → t = t'
  | .notifyAll => ∀ t, s.Sleeper t → (s.sys.thread t).blocked
  | .unlock _ => ∀ l ∈ (s.sys.event .lock).listeners, (s.sys.thread l.thread).blocked
  | .release _ => ∀ l ∈ (s.sys.event .lock).listeners, (s.sys.thread l.thread).blocked
  | _ => True

instance [Fintype T] (s : ConditionalVariable T) : ∀ a, Decidable (s.Settled a)
  | .notifyOne => inferInstanceAs (Decidable (_ ∧ _))
  | .notifyAll => inferInstanceAs (Decidable (∀ _, _))
  | .unlock _ => inferInstanceAs (Decidable (∀ l ∈ _, _))
  | .release _ => inferInstanceAs (Decidable (∀ l ∈ _, _))
  | .lock _ => inferInstanceAs (Decidable True)
  | .lockStep .. => inferInstanceAs (Decidable True)
  | .wait _ => inferInstanceAs (Decidable True)
  | .await .. => inferInstanceAs (Decidable True)

/-! ## The invariant -/

/-- Whether a thread may be listed with an event. Only `Wait` lists a thread that is not in `Await`
yet. -/
def MayListen (s : ConditionalVariable T) (e : CvEvent) (t : T) : Prop :=
  (e = .cond ∧ s.phase t = .registered) ∨
    ((s.phase t).event = some e ∧ (s.sys.thread t).result = none ∧
      (e = .lock → (s.sys.thread t).phase ≠ .outside))

/-- What holds in every state of a run whose triggers find the threads blocked. -/
structure Inv (s : ConditionalVariable T) : Prop where
  listeners : ∀ e, ∀ l ∈ (s.sys.event e).listeners, s.MayListen e l.thread
  listed : ∀ e t, (s.phase t).event = some e → (s.sys.thread t).phase ≠ .outside →
    (s.sys.thread t).result = none → ∃ l ∈ (s.sys.event e).listeners, l.thread = t
  inside : ∀ t, (s.phase t).event = none → (s.sys.thread t).phase = .outside
  asleep : ∀ t, (s.sys.thread t).blocked → ∃ events, (s.sys.thread t).phase = .asleep events
  pending : (s.sys.event .cond).pending = 0
  told : ∀ t, s.Woken t → s.told t

omit [DecidableEq T] in
theorem inv_boot : Inv (boot (T := T)) where
  listeners e l hl := by cases hl
  listed e t ht := by cases ht
  inside t _ := rfl
  asleep t ht := by cases ht
  pending := rfl
  told t ht := by cases ht.1

namespace Inv

variable {s s' : ConditionalVariable T}

/-- A thread that moves without touching the others. -/
theorem of_thread (h : Inv s) (t : T) (hphase : ∀ t' ≠ t, s'.phase t' = s.phase t')
    (hthread : ∀ t' ≠ t, s'.sys.thread t' = s.sys.thread t')
    (htold : ∀ t' ≠ t, s'.told t' = s.told t')
    (hnew : ∀ e, ∀ l ∈ (s'.sys.event e).listeners, l.thread ≠ t → l ∈ (s.sys.event e).listeners)
    (hold : ∀ e, ∀ l ∈ (s.sys.event e).listeners, l.thread ≠ t → l ∈ (s'.sys.event e).listeners)
    (hpending : (s'.sys.event .cond).pending = (s.sys.event .cond).pending)
    (hlisteners : ∀ e, ∀ l ∈ (s'.sys.event e).listeners, l.thread = t → s'.MayListen e t)
    (hlisted : ∀ e, (s'.phase t).event = some e → (s'.sys.thread t).phase ≠ .outside →
      (s'.sys.thread t).result = none → ∃ l ∈ (s'.sys.event e).listeners, l.thread = t)
    (hinside : (s'.phase t).event = none → (s'.sys.thread t).phase = .outside)
    (hasleep : (s'.sys.thread t).blocked → ∃ events, (s'.sys.thread t).phase = .asleep events)
    (htold' : s'.Woken t → s'.told t) : Inv s' where
  listeners e l hl := by
    by_cases ht : l.thread = t
    · rw [ht]
      exact hlisteners e l hl ht
    · rw [MayListen, hphase _ ht, hthread _ ht]
      exact h.listeners e l (hnew e l hl ht)
  listed e t' he hout hnone := by
    by_cases ht : t' = t
    · subst ht
      exact hlisted e he hout hnone
    · rw [hphase _ ht] at he
      rw [hthread _ ht] at hout hnone
      obtain ⟨l, hl, rfl⟩ := h.listed e t' he hout hnone
      exact ⟨l, hold e l hl ht, rfl⟩
  inside t' := by
    by_cases ht : t' = t
    · subst ht
      exact hinside
    · rw [hphase _ ht, hthread _ ht]
      exact h.inside t'
  asleep t' := by
    by_cases ht : t' = t
    · subst ht
      exact hasleep
    · rw [hthread _ ht]
      exact h.asleep t'
  pending := hpending.trans h.pending
  told t' := by
    by_cases ht : t' = t
    · subst ht
      exact htold'
    · rw [Woken, hphase _ ht, hthread _ ht, htold _ ht]
      exact h.told t'

/-- A trigger that finds the threads of the event blocked. -/
theorem trigger (h : Inv s) {e : CvEvent} {drop : Bool} {told : T → Bool} {mutex : Mutex T}
    (hdrop : e ≠ .cond ∨ drop = true)
    (hblocked : ∀ l ∈ (s.sys.event e).listeners,
      s.phase l.thread = .registered ∨ (s.sys.thread l.thread).blocked)
    (htold : ∀ t, s.told t → told t) (hcond : e = .cond → ∀ t, s.phase t = .waiting → told t) :
    Inv ⟨mutex, s.sys.trigger e drop, s.phase, told⟩ := by
  -- a thread keeps its place, and gets a result when it listens
  have hthread (t : T) : ((s.sys.trigger e drop).thread t).phase = (s.sys.thread t).phase ∧
      (((s.sys.trigger e drop).thread t).blocked → (s.sys.thread t).blocked) ∧
      (((s.sys.trigger e drop).thread t).result = none → (s.sys.thread t).result = none ∧
        ((s.phase t).event = some e → (s.sys.thread t).phase = .outside)) := by
    rcases EventSystem.trigger_thread (s := s.sys) drop t with ⟨hnot, heq⟩ | ⟨l, hl, rfl, heq⟩
    · rw [heq]
      refine ⟨rfl, id, fun hnone => ⟨hnone, fun he => ?_⟩⟩
      by_contra hout
      obtain ⟨l, hl, rfl⟩ := h.listed e t he hout hnone
      exact hnot l hl rfl
    · rw [heq]
      refine ⟨rfl, by simp, fun hnone => ?_⟩
      rcases hblocked l hl with hregistered | hb
      · have hout := h.inside l.thread (by rw [hregistered]; rfl)
        exact ⟨by simp [Awaiter.result, hout], fun _ => hout⟩
      · obtain ⟨events, hasleep⟩ := h.asleep l.thread hb
        simp [Awaiter.result, hasleep] at hnone
  refine ⟨fun e' l hl => ?_, fun e' t he hout hnone => ?_, fun t he => ?_, fun t hb => ?_, ?_,
    fun t ht => ?_⟩
  · simp only [EventSystem.trigger_listeners] at hl
    split at hl
    · cases hl
    · rename_i hne
      rcases h.listeners e' l hl with hregistered | ⟨he, hnone, hlock⟩
      · exact .inl hregistered
      · refine .inr ⟨he, ?_, (hthread l.thread).1 ▸ hlock⟩
        rcases EventSystem.trigger_thread (s := s.sys) (e := e) drop l.thread with
          ⟨-, heq⟩ | ⟨l', hl', hsame, -⟩
        · rw [heq]
          exact hnone
        · -- a thread waits for one event at a time
          rcases h.listeners e l' hl' with ⟨-, hregistered⟩ | ⟨he', -⟩
          · rw [hsame] at hregistered
            rw [hregistered] at he
            cases he
          · rw [hsame] at he'
            exact absurd (Option.some.inj (he.symm.trans he')) hne
  · obtain ⟨hnone, hout'⟩ := (hthread t).2.2 hnone
    rw [(hthread t).1] at hout
    obtain ⟨l, hl, rfl⟩ := h.listed e' t he hout hnone
    refine ⟨l, ?_, rfl⟩
    rw [EventSystem.trigger_listeners, if_neg]
    · exact hl
    · rintro rfl
      exact hout (hout' he)
  · rw [(hthread t).1]
    exact h.inside t he
  · rw [(hthread t).1]
    exact h.asleep t ((hthread t).2.1 hb)
  · rw [EventSystem.trigger_pending drop (hdrop.imp_left Ne.symm)]
    exact h.pending
  · obtain ⟨hphase, hsome⟩ := ht
    cases e with
    | cond => exact hcond rfl t hphase
    | lock =>
      refine htold t (h.told t ⟨hphase, ?_⟩)
      rcases EventSystem.trigger_thread (s := s.sys) (e := .lock) drop t with
        ⟨-, heq⟩ | ⟨l, hl, rfl, -⟩
      · rwa [heq] at hsome
      · rcases h.listeners .lock l hl with ⟨hcond, -⟩ | ⟨he, -⟩
        · cases hcond
        · rw [hphase] at he
          cases he

/-- A thread outside of every `Await` gets to another place. -/
theorem move (h : Inv s) {t : T} {p : CvPhase} (mutex : Mutex T)
    (hout : (s.phase t).event = none) (hp : s.phase t = .registered → p = .waiting) :
    Inv ⟨mutex, s.sys, Function.update s.phase t p, s.told⟩ := by
  have houtside := h.inside t hout
  have hresult : (s.sys.thread t).result = none := by rw [Awaiter.result, houtside]
  refine h.of_thread t (fun t' ht' => Function.update_of_ne ht' _ _) (fun _ _ => rfl)
    (fun _ _ => rfl) (fun _ _ hl _ => hl) (fun _ _ hl _ => hl) rfl (fun e l hl ht => ?_)
    (fun _ _ hne => absurd houtside hne) (fun _ => houtside) (h.asleep t) fun hw => ?_
  · rcases h.listeners e l hl with ⟨rfl, hregistered⟩ | ⟨he, -⟩
    · rw [ht] at hregistered
      obtain rfl := hp hregistered
      exact .inr ⟨by simp [CvPhase.event], hresult, by simp⟩
    · rw [ht, hout] at he
      cases he
  · have hsome := hw.2
    simp only [hresult] at hsome
    cases hsome

omit [DecidableEq T] in
/-- A thread in `Await` is listed with one event at most. -/
theorem event_eq (h : Inv s) {t : T} {e e' : CvEvent} {l : EventListener T}
    (he : (s.phase t).event = some e) (hl : l ∈ (s.sys.event e').listeners) (ht : l.thread = t) :
    e' = e ∧ (s.sys.thread t).result = none ∧
      (e' = .lock → (s.sys.thread t).phase ≠ .outside) := by
  rcases h.listeners e' l hl with ⟨-, hregistered⟩ | ⟨he', hrest⟩
  · rw [ht] at hregistered
    rw [hregistered] at he
    cases he
  · rw [ht] at he' hrest
    exact ⟨Option.some.inj (he'.symm.trans he), hrest⟩

/-- An `Await` that takes a pending event, which is the one of the mutex. -/
theorem takePending (h : Inv s) {t : T} {e : CvEvent} {p : CvPhase} (mutex : Mutex T)
    (he : (s.phase t).event = some e) (hp : p.event = none)
    (hout : (s.sys.thread t).phase = .outside) (hpending : 0 < (s.sys.event e).pending) :
    Inv ⟨mutex, s.sys.takePending e, Function.update s.phase t p, s.told⟩ := by
  cases e with
  | cond => exact absurd h.pending (Nat.ne_of_gt hpending)
  | lock =>
    have hlisteners (e : CvEvent) : ((s.sys.takePending .lock).event e).listeners =
        (s.sys.event e).listeners := by
      by_cases hl : e = .lock <;> simp [hl, EventSystem.takePending]
    refine h.of_thread t (fun t' ht' => Function.update_of_ne ht' _ _) (fun _ _ => rfl)
      (fun _ _ => rfl) (fun e l hl _ => hlisteners e ▸ hl)
      (fun e l hl _ => (hlisteners e).symm ▸ hl) rfl (fun e l hl ht => ?_)
      (fun _ _ hne => absurd hout hne) (fun _ => hout) (h.asleep t) fun hw => ?_
    · rw [hlisteners] at hl
      obtain ⟨rfl, -, hlock⟩ := h.event_eq he hl ht
      exact absurd hout (hlock rfl)
    · have hwaiting := hw.1
      simp only [Function.update_self] at hwaiting
      rw [hwaiting] at hp
      cases hp

omit [DecidableEq T] in
theorem mem_append_listener {listeners : List (EventListener T)} {l : EventListener T} {t : T}
    {c : Prop} [Decidable c] :
    l ∈ listeners ++ (if c then [⟨t, 0⟩] else []) ↔ l ∈ listeners ∨ c ∧ l = ⟨t, 0⟩ := by
  split <;> simp [*]

theorem attach (h : Inv s) {t : T} {e : CvEvent} (mutex : Mutex T)
    (he : (s.phase t).event = some e) (hout : (s.sys.thread t).phase = .outside) :
    Inv ⟨mutex, s.sys.attachListeners t [e], s.phase, s.told⟩ := by
  have hself : (s.sys.attachListeners t [e]).thread t =
      { s.sys.thread t with events := [e], phase := .attached [e] } := Function.update_self _ _ _
  have hlisteners (e' : CvEvent) : ((s.sys.attachListeners t [e]).event e').listeners =
      (s.sys.event e').listeners ++ if e' = e then [⟨t, 0⟩] else [] := by
    by_cases hl : e' = e
    · simp [hl, EventSystem.attachListeners, EventSystem.attachFrom]
    · simp [hl, EventSystem.attachListeners, EventSystem.attachFrom]
  refine h.of_thread t (fun _ _ => rfl) (fun t' ht' => Function.update_of_ne ht' _ _)
    (fun _ _ => rfl) (fun e' l hl ht => ?_) (fun e' l hl _ => ?_) ?_ (fun e' l hl ht => ?_)
    (fun e' he' _ _ => ⟨⟨t, 0⟩, ?_, rfl⟩) (fun hnone => ?_) (fun hb => ?_) fun hw => ?_
  · rw [hlisteners, mem_append_listener] at hl
    obtain hl | ⟨-, rfl⟩ := hl
    · exact hl
    · exact absurd rfl ht
  · rw [hlisteners]
    exact List.mem_append_left _ hl
  · by_cases hl : e = .cond
    · simp [hl, EventSystem.attachListeners, EventSystem.attachFrom]
    · simp [Ne.symm hl, EventSystem.attachListeners, EventSystem.attachFrom]
  · have heq : e' = e := by
      rw [hlisteners, mem_append_listener] at hl
      obtain hl | ⟨heq, -⟩ := hl
      · exact (h.event_eq he hl ht).1
      · exact heq
    refine .inr ⟨heq ▸ he, ?_, fun _ => ?_⟩
    · simp only [hself, Awaiter.result]
    · simp [hself]
  · obtain rfl := Option.some.inj (he.symm.trans he')
    simp [hlisteners]
  · rw [he] at hnone
    cases hnone
  · simp only [hself] at hb
    obtain ⟨events, hasleep⟩ := h.asleep t hb
    rw [hout] at hasleep
    cases hasleep
  · have hsome := hw.2
    simp only [hself, Awaiter.result] at hsome
    cases hsome

theorem block (h : Inv s) {t : T} {e : CvEvent} {events : List CvEvent} (mutex : Mutex T)
    (he : (s.phase t).event = some e) (hphase : (s.sys.thread t).phase = .attached events) :
    Inv ⟨mutex,
      { s.sys with
        thread := Function.update s.sys.thread t
          { s.sys.thread t with blocked := true, phase := .asleep events } },
      s.phase, s.told⟩ := by
  have hresult : (s.sys.thread t).result = none := by rw [Awaiter.result, hphase]
  refine h.of_thread t (fun _ _ => rfl) (fun t' ht' => Function.update_of_ne ht' _ _)
    (fun _ _ => rfl) (fun _ _ hl _ => hl) (fun _ _ hl _ => hl) rfl (fun e' l hl ht => ?_)
    (fun e' he' _ _ => h.listed e' t he' (by simp [hphase]) hresult) (fun hnone => ?_)
    (fun _ => ⟨events, by simp⟩) fun hw => ?_
  · obtain ⟨rfl, -⟩ := h.event_eq he hl ht
    exact .inr ⟨he, by simp [Awaiter.result], by simp⟩
  · rw [he] at hnone
    cases hnone
  · have hsome := hw.2
    simp [Awaiter.result] at hsome

/-- A thread that has been woken is listed nowhere, so it is detached from nothing. -/
theorem detach (h : Inv s) {t : T} {e : CvEvent} {p : CvPhase} (mutex : Mutex T)
    (he : (s.phase t).event = some e) (hp : p.event = none)
    (hsome : (s.sys.thread t).result.isSome) :
    Inv ⟨mutex, s.sys.detachListeners t, Function.update s.phase t p, s.told⟩ := by
  have hnot (e' : CvEvent) : ∀ l ∈ (s.sys.event e').listeners, l.thread ≠ t := by
    intro l hl ht
    obtain ⟨-, hnone, -⟩ := h.event_eq he hl ht
    rw [hnone] at hsome
    cases hsome
  have hevent : (s.sys.detachListeners t).event = s.sys.event :=
    EventSystem.detachFrom_eq_self t _ _ hnot
  have hself : (s.sys.detachListeners t).thread t =
      { s.sys.thread t with events := [], phase := .outside } := Function.update_self _ _ _
  refine h.of_thread t (fun t' ht' => Function.update_of_ne ht' _ _)
    (fun t' ht' => Function.update_of_ne ht' _ _) (fun _ _ => rfl) (fun e' l hl _ => ?_)
    (fun e' l hl _ => ?_) ?_ (fun e' l hl ht => ?_) (fun e' he' => ?_) (fun _ => ?_) (fun hb => ?_)
    fun hw => ?_
  · rwa [hevent] at hl
  · rwa [hevent]
  · rw [hevent]
  · rw [hevent] at hl
    exact absurd ht (hnot e' l hl)
  · simp only [Function.update_self, hp] at he'
    cases he'
  · simp only [hself]
  · simp only [hself] at hb
    simp only [Awaiter.result, hb] at hsome
    split at hsome <;> cases hsome
  · have hwaiting := hw.1
    simp only [Function.update_self] at hwaiting
    rw [hwaiting] at hp
    cases hp

/-- A step of an `Await`; a thread that returns from it gets to the place `p`. -/
theorem await (h : Inv s) {t : T} {e : CvEvent} {a : AwaitStep} {sys : EventSystem T CvEvent}
    {returned : Bool} {p : CvPhase} (mutex : Mutex T) (he : (s.phase t).event = some e)
    (hp : p.event = none) (hstep : s.sys.awaitStep t [e] a = some (sys, returned)) :
    Inv ⟨mutex, sys, if returned then Function.update s.phase t p else s.phase, s.told⟩ := by
  rcases EventSystem.awaitStep_cases hstep with ⟨-, hout, hpending, rfl, rfl⟩ |
    ⟨-, hout, -, rfl, rfl⟩ | ⟨events, -, hphase, rfl, rfl⟩ | ⟨-, hsome, rfl, rfl⟩
  · exact h.takePending mutex he hp hout hpending
  · exact h.attach mutex he hout
  · exact h.block mutex he hphase
  · exact h.detach mutex he hp hsome

/-- The section of `Wait` that lists the thread for the first time. -/
theorem register (h : Inv s) {t : T} (mutex : Mutex T) (hphase : s.phase t = .outside) :
    Inv ⟨mutex, ConditionalVariable.register s.sys t, Function.update s.phase t .registered,
      Function.update s.told t false⟩ := by
  have hout := h.inside t (by rw [hphase]; rfl)
  have hself : (ConditionalVariable.register s.sys t).thread t =
      { s.sys.thread t with events := (s.sys.thread t).events ++ [.cond] } :=
    Function.update_self _ _ _
  have hlisteners (e : CvEvent) : ((ConditionalVariable.register s.sys t).event e).listeners =
      (s.sys.event e).listeners ++ if e = .cond then [⟨t, 0⟩] else [] := by
    by_cases he : e = .cond <;> simp [he, ConditionalVariable.register]
  refine h.of_thread t (fun t' ht' => Function.update_of_ne ht' _ _)
    (fun t' ht' => Function.update_of_ne ht' _ _) (fun t' ht' => Function.update_of_ne ht' _ _)
    (fun e l hl ht => ?_) (fun e l hl _ => ?_) (by simp [ConditionalVariable.register])
    (fun e l hl ht => ?_) (fun e he => ?_) (fun _ => ?_) (fun hb => ?_) fun hw => ?_
  · rw [hlisteners, mem_append_listener] at hl
    obtain hl | ⟨-, rfl⟩ := hl
    · exact hl
    · exact absurd rfl ht
  · rw [hlisteners]
    exact List.mem_append_left _ hl
  · rw [hlisteners, mem_append_listener] at hl
    obtain hl | ⟨he, -⟩ := hl
    · rcases h.listeners e l hl with ⟨-, hreg⟩ | ⟨he, -⟩
      · rw [ht, hphase] at hreg
        cases hreg
      · rw [ht, hphase] at he
        cases he
    · exact .inl ⟨he, by simp⟩
  · simp only [Function.update_self] at he
    cases he
  · rw [hself]
    exact hout
  · rw [hself] at hb ⊢
    exact h.asleep t hb
  · have hwaiting := hw.1
    simp only [Function.update_self] at hwaiting
    cases hwaiting

/-- A step of `Mutex::Lock`. -/
theorem lockStep (h : Inv s) {t : T} {p : LockPhase} {inWait : Bool} {a : LockStep}
    {mutex : Mutex T}
    {sys : EventSystem T CvEvent} {p' : Option LockPhase} (hp : s.phase t = .locking p inWait)
    (hstep : s.mutex.lockStep s.sys .lock t p a = some (mutex, sys, p')) :
    Inv ⟨mutex, sys, Function.update s.phase t (locked inWait p'), s.told⟩ := by
  have hregistered {q : CvPhase} : s.phase t = .registered → q = .waiting := fun hreg => by
    rw [hp] at hreg
    cases hreg
  rw [Mutex.lockStep.eq_def] at hstep
  split at hstep
  · split at hstep <;> obtain ⟨rfl, rfl, rfl⟩ := by simpa using hstep
    · exact h.move _ (by rw [hp]; rfl) hregistered
    · exact h.move _ (by rw [hp]; rfl) hregistered
  · split at hstep <;> obtain ⟨rfl, rfl, rfl⟩ := by simpa using hstep
    · exact h.move _ (by rw [hp]; rfl) hregistered
    · exact h.move _ (by rw [hp]; rfl) hregistered
  · obtain ⟨⟨sys', returned⟩, hawait, heq⟩ := Option.map_eq_some_iff.mp hstep
    obtain ⟨rfl, rfl, rfl⟩ := by simpa using heq
    have hinv := h.await (p := .locking .loop inWait) s.mutex (by rw [hp]; rfl) rfl hawait
    cases returned with
    | true => exact hinv
    | false =>
      have hsame : Function.update s.phase t (locked inWait (some .awaiting)) = s.phase := by
        rw [locked, ← hp, Function.update_eq_self]
      simp only [Bool.false_eq_true, if_false, hsame] at hinv ⊢
      exact hinv
  · obtain ⟨rfl, rfl, rfl⟩ := by simpa using hstep
    exact h.move _ (by rw [hp]; rfl) hregistered
  · cases hstep

/-- `Mutex::Unlock` finds the threads that listen to its event blocked. -/
theorem triggerLock (h : Inv s) (mutex : Mutex T)
    (hblocked : ∀ l ∈ (s.sys.event .lock).listeners, (s.sys.thread l.thread).blocked) :
    Inv ⟨mutex, s.sys.trigger .lock false, s.phase, s.told⟩ :=
  h.trigger (.inl (by decide)) (fun l hl => .inr (hblocked l hl)) (fun _ => id) (by simp)

/-- A notification finds the waiters that have released the mutex blocked. -/
theorem notify (h : Inv s) (hblocked : ∀ t, s.Sleeper t → (s.sys.thread t).blocked) :
    Inv (s.notify (s.sys.trigger .cond true)) := by
  refine h.trigger (.inr rfl) (fun l hl => ?_) (fun t ht => by simp [ht]) fun _ t ht => by simp [ht]
  rcases h.listeners .cond l hl with ⟨-, hregistered⟩ | ⟨he, hnone, -⟩
  · exact .inl hregistered
  · exact .inr (hblocked l.thread ⟨CvPhase.event_eq_cond he, hnone⟩)

end Inv

/-- `NotifyOne` triggers what `NotifyAll` triggers. -/
theorem step_notifyOne (s : ConditionalVariable T) : s.step .notifyOne = s.step .notifyAll := by
  simp only [step]
  split
  · rfl
  · rename_i hnil
    rw [EventSystem.trigger, if_pos (not_not.mp hnil), if_pos rfl]

theorem Inv.step {s s' : ConditionalVariable T} (h : Inv s) {a : CvAction T} (ha : s.Settled a)
    (hstep : s.step a = some s') : Inv s' := by
  cases a with
  | lock t =>
    simp only [ConditionalVariable.step] at hstep
    split at hstep
    · rename_i hphase
      obtain rfl := Option.some.inj hstep
      exact h.move s.mutex (by rw [hphase]; rfl) (by simp [hphase])
    · cases hstep
  | lockStep t a =>
    simp only [ConditionalVariable.step] at hstep
    split at hstep
    · rename_i p inWait hp
      obtain ⟨⟨mutex, sys, p'⟩, hlock, rfl⟩ := Option.map_eq_some_iff.mp hstep
      exact h.lockStep hp hlock
    · cases hstep
  | unlock t =>
    simp only [ConditionalVariable.step] at hstep
    split at hstep
    · obtain ⟨mutex, -, rfl⟩ := Option.map_eq_some_iff.mp hstep
      exact h.triggerLock mutex ha
    · cases hstep
  | wait t =>
    simp only [ConditionalVariable.step] at hstep
    split at hstep
    · rename_i hphase
      obtain rfl := Option.some.inj hstep
      exact h.register s.mutex hphase
    · cases hstep
  | release t =>
    simp only [ConditionalVariable.step] at hstep
    split at hstep
    · rename_i hphase
      obtain ⟨mutex, -, rfl⟩ := Option.map_eq_some_iff.mp hstep
      exact (h.triggerLock s.mutex ha).move mutex (by rw [hphase]; rfl) fun _ => rfl
    · cases hstep
  | await t a =>
    simp only [ConditionalVariable.step] at hstep
    split at hstep
    · rename_i hphase
      obtain ⟨⟨sys, returned⟩, hawait, rfl⟩ := Option.map_eq_some_iff.mp hstep
      exact h.await s.mutex (by rw [hphase]; rfl) rfl hawait
    · cases hstep
  | notifyOne =>
    rw [step_notifyOne] at hstep
    obtain rfl := Option.some.inj hstep
    exact h.notify ha.1
  | notifyAll =>
    obtain rfl := Option.some.inj hstep
    exact h.notify ha

/-! ## What a waiter sees -/

/-- A step of another thread leaves a waiter in `Await`, with its result if it has one; its own last
step takes it to the mutex. -/
theorem Inv.step_waiting {s s' : ConditionalVariable T} (h : Inv s) {a : CvAction T}
    (hstep : s.step a = some s') {t : T} (ht : s.phase t = .waiting) :
    (s'.phase t = .waiting ∧
      ((s.sys.thread t).result.isSome → (s'.sys.thread t).result.isSome)) ∨
    (s'.phase t = .locking .entry true ∧ s.Woken t) := by
  cases a with
  | lock t' =>
    simp only [ConditionalVariable.step] at hstep
    split at hstep
    · rename_i hphase
      obtain rfl := Option.some.inj hstep
      have hne : t ≠ t' := by
        rintro rfl
        rw [hphase] at ht
        cases ht
      exact .inl ⟨by simpa [hne] using ht, id⟩
    · cases hstep
  | lockStep t' a =>
    simp only [ConditionalVariable.step] at hstep
    split at hstep
    · rename_i p inWait hp
      obtain ⟨⟨mutex, sys, p'⟩, hlock, rfl⟩ := Option.map_eq_some_iff.mp hstep
      have hne : t ≠ t' := by
        rintro rfl
        rw [hp] at ht
        cases ht
      refine .inl ⟨by simpa [hne] using ht, ?_⟩
      simp [Mutex.lockStep_thread hlock hne]
    · cases hstep
  | unlock t' =>
    simp only [ConditionalVariable.step] at hstep
    split at hstep
    · obtain ⟨mutex, -, rfl⟩ := Option.map_eq_some_iff.mp hstep
      exact .inl ⟨ht, EventSystem.trigger_result false⟩
    · cases hstep
  | wait t' =>
    simp only [ConditionalVariable.step] at hstep
    split at hstep
    · rename_i hphase
      obtain rfl := Option.some.inj hstep
      have hne : t ≠ t' := by
        rintro rfl
        rw [hphase] at ht
        cases ht
      exact .inl ⟨by simpa [hne] using ht, by simp [ConditionalVariable.register, hne]⟩
    · cases hstep
  | release t' =>
    simp only [ConditionalVariable.step] at hstep
    split at hstep
    · obtain ⟨mutex, -, rfl⟩ := Option.map_eq_some_iff.mp hstep
      refine .inl ⟨?_, EventSystem.trigger_result false⟩
      by_cases hne : t = t' <;> simp [hne, ht]
    · cases hstep
  | await t' a =>
    simp only [ConditionalVariable.step] at hstep
    split at hstep
    · obtain ⟨⟨sys, returned⟩, hawait, rfl⟩ := Option.map_eq_some_iff.mp hstep
      by_cases hne : t = t'
      · subst hne
        rcases EventSystem.awaitStep_cases hawait with ⟨-, -, hpending, -⟩ |
          ⟨-, hout, -, rfl, rfl⟩ | ⟨events, -, hphase, rfl, rfl⟩ | ⟨-, hsome, -, rfl⟩
        · exact absurd h.pending (Nat.ne_of_gt hpending)
        · exact .inl ⟨by simpa using ht, by simp [Awaiter.result, hout]⟩
        · exact .inl ⟨by simpa using ht, by simp [Awaiter.result, hphase]⟩
        · exact .inr ⟨by simp, ht, hsome⟩
      · refine .inl ⟨?_, ?_⟩
        · cases returned <;> simp [hne, ht]
        · simp [EventSystem.awaitStep_thread hawait hne]
    · cases hstep
  | notifyOne =>
    rw [step_notifyOne] at hstep
    obtain rfl := Option.some.inj hstep
    exact .inl ⟨ht, EventSystem.trigger_result true⟩
  | notifyAll =>
    obtain rfl := Option.some.inj hstep
    exact .inl ⟨ht, EventSystem.trigger_result true⟩

/-- A waiter that is blocked is woken by a notification. -/
theorem Inv.woken_notify {s : ConditionalVariable T} (h : Inv s) {t : T} (ht : s.Sleeper t)
    (hb : (s.sys.thread t).blocked) : (s.notify (s.sys.trigger .cond true)).Woken t := by
  refine ⟨ht.1, ?_⟩
  obtain ⟨events, hasleep⟩ := h.asleep t hb
  obtain ⟨l, hl, rfl⟩ := h.listed .cond t (by rw [ht.1]; rfl) (by simp [hasleep]) ht.2
  rcases EventSystem.trigger_thread (s := s.sys) (e := .cond) true l.thread with
    ⟨hnot, -⟩ | ⟨l', -, -, heq⟩
  · exact absurd rfl (hnot l hl)
  · simp [ConditionalVariable.notify, heq, Awaiter.result, hasleep]

/-- A step has the effect it has to have when the threads that it triggers are blocked. -/
theorem Inv.notifies {s : ConditionalVariable T} (h : Inv s) {a : CvAction T} (ha : s.Settled a) :
    s.Notifies a := by
  intro s' hstep
  have h' := h.step ha hstep
  refine ⟨?_, ?_, fun t ht => ?_, fun t ht hb => ?_, fun t ht ht' => ?_⟩
  · rintro rfl t ht
    obtain rfl := Option.some.inj hstep
    exact h.woken_notify ht (ha t ht)
  · rintro rfl ⟨t, ht⟩
    rw [step_notifyOne] at hstep
    obtain rfl := Option.some.inj hstep
    exact ⟨t, ⟨ht, h.woken_notify ht (ha.1 t ht)⟩, fun t' ht' => ha.2 t' t ht'.1 ht⟩
  · rcases h.step_waiting hstep ht.1 with ⟨hphase, hresult⟩ | ⟨hphase, -⟩
    · exact .inl ⟨hphase, hresult ht.2⟩
    · exact .inr hphase
  · obtain ⟨events, hasleep⟩ := h'.asleep t hb
    refine h'.listed .lock t (by rw [ht]; rfl) (by simp [hasleep]) ?_
    simp [Awaiter.result, hasleep, hb]
  · rcases h.step_waiting hstep ht with ⟨hphase, -⟩ | ⟨-, hwoken⟩
    · exact absurd hphase ht'
    · exact h.told t hwoken

/-- In every run, of any number of threads and any interleaving, whose triggers find the threads
they are for blocked, with one waiter at most for a `NotifyOne`, every step has the effect it has to
have. -/
theorem notified {actions : List (CvAction T)} (h : Along step Settled boot actions) :
    Along step Notifies (boot (T := T)) actions :=
  Along.of_invariant inv_boot h (fun _ _ hs ha => hs.notifies ha)
    fun _ _ _ hs ha hstep => hs.step ha hstep

/-- Two threads wait, one after the other and for one notification each. -/
theorem notified_twice :
    Along step Notifies (boot (T := Bool))
      [.lock false, .lockStep false .tryLock, .lockStep false .store, .wait false, .release false,
        .await false .attach, .await false .block, .notifyOne, .lock true, .lockStep true .tryLock,
        .await false .detach, .lockStep false .tryLock, .lockStep true .store, .wait true,
        .release true, .await true .attach, .await true .block, .notifyAll] :=
  notified (by decide)

/-- A notification between the release of the mutex and `Block` is lost, and `NotifyOne` wakes two
waiters. -/
theorem not_notified :
    (∃ s : ConditionalVariable Unit, Reaches step anyCall boot s ∧ ¬s.Notifies .notifyAll) ∧
    ∃ s : ConditionalVariable Bool, Reaches step anyCall boot s ∧ ¬s.Notifies .notifyOne := by
  constructor
  · refine ⟨_, .of_list [.lock (), .lockStep () .tryLock, .lockStep () .store, .wait (),
      .release (), .await () .attach] rfl, fun h => ?_⟩
    obtain ⟨-, hwoken⟩ := (h _ rfl).1 rfl () ⟨rfl, rfl⟩
    cases hwoken
  · refine ⟨_, .of_list [.lock false, .lockStep false .tryLock, .lockStep false .store,
      .wait false, .release false, .await false .attach, .await false .block, .lock true,
      .lockStep true .tryLock, .lockStep true .store, .wait true, .release true,
      .await true .attach, .await true .block] rfl, fun h => ?_⟩
    obtain ⟨t, -, hunique⟩ := (h _ rfl).2.1 rfl ⟨false, rfl, rfl⟩
    have htrue := hunique true ⟨⟨rfl, rfl⟩, rfl, rfl⟩
    have hfalse := hunique false ⟨⟨rfl, rfl⟩, rfl, rfl⟩
    rw [← htrue] at hfalse
    cases hfalse

end ConditionalVariable

end Cryptix.Locking
