import Mathlib.Data.List.Nodup
import Mathlib.Logic.Function.Basic
import Cryptix.Lib.Transition

/-!
# Events

`Kernel/Scheduler/Event.cpp` with `Scheduler::Block` and `Unblock`: a thread waits for the first of
several events, and a trigger wakes the threads that listen to an event or, when there are none, is
counted in `Pending`.

`Await` is three steps, between which other threads run: it looks for a pending event and attaches
the thread to all of them; it blocks the thread; when the thread has been unblocked, it detaches it
and returns `Which`. A trigger is one step. The threads and the events are arbitrary types.

A trigger is lost when it finds a thread that is attached and not blocked yet, and the index of an
earlier one is lost when a second event is triggered before the woken thread has detached itself.
`served_iff` says that these are the only ways to lose one.
-/

namespace Cryptix.Scheduler

open Lib

variable {T E : Type*}

structure EventListener (T : Type*) where
  thread : T
  which : ℕ
  deriving DecidableEq, Repr

structure Event (T : Type*) where
  pending : ℕ
  listeners : List (EventListener T)
  deriving DecidableEq, Repr

/-- How far a thread is in `Await`. -/
inductive AwaitPhase (E : Type*)
  | outside
  | attached (events : List E)
  | asleep (events : List E)
  deriving DecidableEq, Repr

/-- What a thread keeps for `Await`; `blocked` says that its state is `eBlocked`. -/
structure Awaiter (E : Type*) where
  which : ℕ
  events : List E
  blocked : Bool
  phase : AwaitPhase E
  deriving DecidableEq, Repr

/-- The events that the running `Await` of a thread was given. -/
def Awaiter.awaited (w : Awaiter E) : List E :=
  match w.phase with
  | .outside => []
  | .attached events => events
  | .asleep events => events

/-- The result of the running `Await` when the thread goes on by itself: a thread that is still to
be blocked, or is blocked, does not return. -/
def Awaiter.result (w : Awaiter E) : Option ℕ :=
  match w.phase with
  | .asleep _ => if w.blocked then none else some w.which
  | _ => none

structure EventSystem (T E : Type*) where
  event : E → Event T
  thread : T → Awaiter E

namespace EventSystem

/-- The threads as they are created, outside of every `Await`. -/
def boot (pending : E → ℕ) : EventSystem T E where
  event e := ⟨pending e, []⟩
  thread _ := ⟨0, [], false, .outside⟩

variable [DecidableEq T] [DecidableEq E]

/-- `CheckPending`: the index of the first pending event. -/
def checkPending (s : EventSystem T E) (events : List E) : Option ℕ :=
  events.findIdx? fun e => 0 < (s.event e).pending

def takePending (s : EventSystem T E) (e : E) : EventSystem T E :=
  { s with
    event := Function.update s.event e { s.event e with pending := (s.event e).pending - 1 } }

/-- The loop of `AttachListeners`, from index `i` on. -/
def attachFrom (t : T) : ℕ → List E → (E → Event T) → E → Event T
  | _, [], event => event
  | i, e :: events, event =>
    attachFrom t (i + 1) events (Function.update event e
      { event e with listeners := (event e).listeners ++ [⟨t, i⟩] })

def attachListeners (s : EventSystem T E) (t : T) (events : List E) : EventSystem T E where
  event := attachFrom t 0 events s.event
  thread := Function.update s.thread t
    { s.thread t with events := events, phase := .attached events }

/-- The inner loop of `DetachListeners`. `Erase` returns the place behind the erased listener, and
the loop goes on from the next one. -/
def eraseListeners (t : T) : List (EventListener T) → List (EventListener T)
  | [] => []
  | [l] => if l.thread = t then [] else [l]
  | l :: l' :: ls =>
    if l.thread = t then l' :: eraseListeners t ls else l :: eraseListeners t (l' :: ls)

/-- The outer loop of `DetachListeners`. -/
def detachFrom (t : T) : List E → (E → Event T) → E → Event T
  | [], event => event
  | e :: events, event =>
    detachFrom t events (Function.update event e
      { event e with listeners := eraseListeners t (event e).listeners })

def detachListeners (s : EventSystem T E) (t : T) : EventSystem T E where
  event := detachFrom t (s.thread t).events s.event
  thread := Function.update s.thread t { s.thread t with events := [], phase := .outside }

/-- The first section of `Await`. A thread that locks the same event twice does not get further. An
event that is pending is returned at once. -/
def await (s : EventSystem T E) (t : T) (events : List E) : Option (EventSystem T E) :=
  if (s.thread t).phase = .outside ∧ events.Nodup then
    match s.checkPending events with
    | some i => (events[i]?).map s.takePending
    | none => some (s.attachListeners t events)
  else none

/-- `Scheduler::Block` inside `Await`. -/
def block (s : EventSystem T E) (t : T) : Option (EventSystem T E) :=
  match (s.thread t).phase with
  | .attached events =>
    some { s with
      thread := Function.update s.thread t
        { s.thread t with blocked := true, phase := .asleep events } }
  | _ => none

/-- The last section of `Await`, which a thread gets to when it is not blocked any more. -/
def detach (s : EventSystem T E) (t : T) : Option (EventSystem T E) :=
  if (s.thread t).result.isSome then some (s.detachListeners t) else none

end EventSystem

/-- The steps of `Await`. -/
inductive AwaitStep
  | attach | block | detach
  deriving DecidableEq, Repr

namespace EventSystem

variable [DecidableEq T] [DecidableEq E]

/-- A step of `Await`, and whether it was the last one. -/
def awaitStep (s : EventSystem T E) (t : T) (events : List E) :
    AwaitStep → Option (EventSystem T E × Bool)
  | .attach => (s.await t events).map fun s' => (s', (s'.thread t).phase = .outside)
  | .block => (s.block t).map (·, false)
  | .detach => (s.detach t).map (·, true)

/-- The loop of `Trigger`: `SetWhich` and `Unblock` for every listener. -/
def wakeAll (thread : T → Awaiter E) (listeners : List (EventListener T)) : T → Awaiter E :=
  listeners.foldl
    (fun thread l => Function.update thread l.thread
      { thread l.thread with which := l.which, blocked := false }) thread

/-- `Event::Trigger`. -/
def trigger (s : EventSystem T E) (e : E) (drop : Bool) : EventSystem T E :=
  if (s.event e).listeners = [] then
    if drop then s
    else
      { s with
        event := Function.update s.event e { s.event e with pending := (s.event e).pending + 1 } }
  else
    { event := Function.update s.event e { s.event e with listeners := [] }
      thread := wakeAll s.thread (s.event e).listeners }

/-! ## The loops in closed form -/

omit [DecidableEq T] in
theorem attachFrom_apply (t : T) (events : List E) (hnodup : events.Nodup) :
    ∀ (i : ℕ) (event : E → Event T) (e : E), attachFrom t i events event e =
      if e ∈ events then
        { event e with listeners := (event e).listeners ++ [⟨t, i + events.idxOf e⟩] }
      else event e := by
  induction events with
  | nil => simp [attachFrom]
  | cons e' events ih =>
    intro i event e
    obtain ⟨hnotin, hnodup⟩ := List.nodup_cons.mp hnodup
    rw [attachFrom, ih hnodup]
    by_cases he : e = e'
    · subst he
      simp [hnotin]
    · rw [List.idxOf_cons_ne events (Ne.symm he)]
      simp [he, Nat.add_assoc, Nat.add_comm 1]

/-- A thread that is listed once is taken out, whatever stands behind it. -/
theorem eraseListeners_eq_filter (t : T) : ∀ {ls : List (EventListener T)},
    (ls.map EventListener.thread).Nodup → eraseListeners t ls = ls.filter fun l => l.thread ≠ t
  | [], _ => rfl
  | [l], _ => by by_cases h : l.thread = t <;> simp [eraseListeners, h]
  | l :: l' :: ls, hnodup => by
    rw [List.map_cons, List.nodup_cons] at hnodup
    obtain ⟨hnotin, hnodup⟩ := hnodup
    by_cases h : l.thread = t
    · have hother : ∀ x ∈ l' :: ls, x.thread ≠ t := by
        intro x hx hxt
        exact hnotin (h ▸ hxt ▸ List.mem_map_of_mem hx)
      have hls : eraseListeners t ls = ls := by
        rw [eraseListeners_eq_filter t (List.nodup_cons.mp hnodup).2]
        exact List.filter_eq_self.mpr fun x hx => by
          simpa using hother x (List.mem_cons_of_mem _ hx)
      rw [eraseListeners, if_pos h, hls, List.filter_cons_of_neg (by simpa using h)]
      exact (List.filter_eq_self.mpr fun x hx => by simpa using hother x hx).symm
    · rw [eraseListeners, if_neg h, eraseListeners_eq_filter t hnodup]
      exact (List.filter_cons_of_pos (by simpa using h)).symm

theorem detachFrom_apply (t : T) (events : List E) (hnodup : events.Nodup) :
    ∀ (event : E → Event T) (e : E), detachFrom t events event e =
      if e ∈ events then
        { event e with listeners := eraseListeners t (event e).listeners }
      else event e := by
  induction events with
  | nil => simp [detachFrom]
  | cons e' events ih =>
    intro event e
    obtain ⟨hnotin, hnodup⟩ := List.nodup_cons.mp hnodup
    rw [detachFrom, ih hnodup]
    by_cases he : e = e'
    · subst he
      simp [hnotin]
    · simp [he]

omit [DecidableEq E] in
/-- A trigger leaves a thread alone, or unblocks it and tells it one of its indices. -/
theorem wakeAll_apply (t : T) (listeners : List (EventListener T)) (thread : T → Awaiter E) :
    ((∀ l ∈ listeners, l.thread ≠ t) ∧ wakeAll thread listeners t = thread t) ∨
      ∃ l ∈ listeners, l.thread = t ∧
        wakeAll thread listeners t = { thread t with which := l.which, blocked := false } := by
  induction listeners generalizing thread with
  | nil => exact .inl ⟨by simp, rfl⟩
  | cons l listeners ih =>
    have hcons : wakeAll thread (l :: listeners) = wakeAll (Function.update thread l.thread
        { thread l.thread with which := l.which, blocked := false }) listeners := rfl
    rw [hcons]
    by_cases hl : l.thread = t
    · subst hl
      right
      rcases ih (Function.update thread l.thread
        { thread l.thread with which := l.which, blocked := false }) with ⟨-, h⟩ | ⟨l', hl', heq, h⟩
      · exact ⟨l, List.mem_cons_self, rfl, by rw [h, Function.update_self]⟩
      · exact ⟨l', List.mem_cons_of_mem _ hl', heq, by rw [h, Function.update_self]⟩
    · rcases ih (Function.update thread l.thread
        { thread l.thread with which := l.which, blocked := false }) with
        ⟨hother, h⟩ | ⟨l', hl', heq, h⟩
      · refine .inl ⟨fun x hx => ?_, by rw [h, Function.update_of_ne (Ne.symm hl)]⟩
        rcases List.mem_cons.mp hx with rfl | hx
        · exact hl
        · exact hother x hx
      · exact .inr ⟨l', List.mem_cons_of_mem _ hl', heq,
          by rw [h, Function.update_of_ne (Ne.symm hl)]⟩

omit [DecidableEq E] in
/-- A thread that nobody lists is detached from nothing. -/
theorem eraseListeners_eq_self (t : T) : ∀ {ls : List (EventListener T)},
    (∀ l ∈ ls, l.thread ≠ t) → eraseListeners t ls = ls
  | [], _ => rfl
  | [l], h => if_neg (h l List.mem_cons_self)
  | l :: l' :: ls, h => by
    rw [eraseListeners, if_neg (h l List.mem_cons_self),
      eraseListeners_eq_self t fun x hx => h x (List.mem_cons_of_mem _ hx)]

theorem detachFrom_eq_self (t : T) (events : List E) (event : E → Event T)
    (h : ∀ e, ∀ l ∈ (event e).listeners, l.thread ≠ t) : detachFrom t events event = event := by
  induction events with
  | nil => rfl
  | cons e events ih => rw [detachFrom, eraseListeners_eq_self t (h e), Function.update_eq_self, ih]

/-! ## What the steps do -/

section Steps

variable {s : EventSystem T E} {t : T} {e : E}

/-- A step of an `Await` for one event. -/
theorem awaitStep_cases {a : AwaitStep} {s' : EventSystem T E} {returned : Bool}
    (h : s.awaitStep t [e] a = some (s', returned)) :
    (a = .attach ∧ (s.thread t).phase = .outside ∧ 0 < (s.event e).pending ∧
      s' = s.takePending e ∧ returned = true) ∨
    (a = .attach ∧ (s.thread t).phase = .outside ∧ (s.event e).pending = 0 ∧
      s' = s.attachListeners t [e] ∧ returned = false) ∨
    (∃ events, a = .block ∧ (s.thread t).phase = .attached events ∧
      s' =
        { s with
          thread := Function.update s.thread t
            { s.thread t with blocked := true, phase := .asleep events } } ∧
      returned = false) ∨
    (a = .detach ∧ (s.thread t).result.isSome ∧ s' = s.detachListeners t ∧ returned = true) := by
  cases a with
  | attach =>
    obtain ⟨s₁, hawait, heq⟩ := Option.map_eq_some_iff.mp h
    obtain ⟨rfl, rfl⟩ := Prod.mk.inj heq
    rw [await] at hawait
    split at hawait
    · rename_i hok
      by_cases hpending : 0 < (s.event e).pending
      · have hcheck : s.checkPending [e] = some 0 := by simp [checkPending, hpending]
        rw [hcheck] at hawait
        obtain rfl : s.takePending e = s₁ := by simpa using hawait
        exact .inl ⟨rfl, hok.1, hpending, rfl, by simp [takePending, hok.1]⟩
      · have hcheck : s.checkPending [e] = none := by simpa [checkPending] using hpending
        rw [hcheck] at hawait
        obtain rfl := Option.some.inj hawait
        exact .inr (.inl ⟨rfl, hok.1, by omega, rfl, by simp [attachListeners]⟩)
    · cases hawait
  | block =>
    obtain ⟨s₁, hblock, heq⟩ := Option.map_eq_some_iff.mp h
    obtain ⟨rfl, rfl⟩ := Prod.mk.inj heq
    rw [block] at hblock
    split at hblock
    · rename_i events hphase
      obtain rfl := Option.some.inj hblock
      exact .inr (.inr (.inl ⟨events, rfl, hphase, rfl, rfl⟩))
    · cases hblock
  | detach =>
    obtain ⟨s₁, hdetach, heq⟩ := Option.map_eq_some_iff.mp h
    obtain ⟨rfl, rfl⟩ := Prod.mk.inj heq
    rw [detach] at hdetach
    split at hdetach
    · rename_i hsome
      obtain rfl := Option.some.inj hdetach
      exact .inr (.inr (.inr ⟨rfl, hsome, rfl, rfl⟩))
    · cases hdetach

/-- A step of an `Await` changes its own thread only. -/
theorem awaitStep_thread {a : AwaitStep} {s' : EventSystem T E} {returned : Bool}
    (h : s.awaitStep t [e] a = some (s', returned)) {t' : T} (ht' : t' ≠ t) :
    s'.thread t' = s.thread t' := by
  rcases awaitStep_cases h with ⟨-, -, -, rfl, -⟩ | ⟨-, -, -, rfl, -⟩ | ⟨events, -, -, rfl, -⟩ |
    ⟨-, -, rfl, -⟩
  · rfl
  · exact Function.update_of_ne ht' _ _
  · exact Function.update_of_ne ht' _ _
  · exact Function.update_of_ne ht' _ _

/-- After a trigger nobody listens to the event; the other events are as they were. -/
theorem trigger_listeners (drop : Bool) (e' : E) :
    ((s.trigger e drop).event e').listeners =
      if e' = e then [] else (s.event e').listeners := by
  rw [trigger]
  by_cases he : e' = e
  · subst he
    split
    · split <;> simp_all
    · simp
  · split
    · split <;> simp [he]
    · simp [he]

theorem trigger_pending (drop : Bool) {e' : E} (h : e' ≠ e ∨ drop = true) :
    ((s.trigger e drop).event e').pending = (s.event e').pending := by
  rw [trigger]
  by_cases he : e' = e
  · subst he
    obtain rfl : drop = true := by simpa using h
    split <;> simp
  · split
    · split <;> simp [he]
    · simp [he]

/-- A trigger leaves a thread alone that does not listen, and unblocks one that does. -/
theorem trigger_thread (drop : Bool) (t : T) :
    ((∀ l ∈ (s.event e).listeners, l.thread ≠ t) ∧ (s.trigger e drop).thread t = s.thread t) ∨
      ∃ l ∈ (s.event e).listeners, l.thread = t ∧
        (s.trigger e drop).thread t = { s.thread t with which := l.which, blocked := false } := by
  rw [trigger]
  split
  · rename_i hnil
    refine .inl ⟨by simp [hnil], ?_⟩
    split <;> rfl
  · exact wakeAll_apply t _ _

/-- A thread that returns from `Await` still does after another trigger. -/
theorem trigger_result (drop : Bool) (h : (s.thread t).result.isSome) :
    ((s.trigger e drop).thread t).result.isSome := by
  rcases trigger_thread (s := s) (e := e) drop t with ⟨-, heq⟩ | ⟨l, -, -, heq⟩
  · rwa [heq]
  · rw [heq]
    cases hphase : (s.thread t).phase with
    | asleep events => simp [Awaiter.result, hphase]
    | outside => simp [Awaiter.result, hphase] at h
    | attached events => simp [Awaiter.result, hphase] at h

end Steps

end EventSystem

/-! ## Runs -/

/-- A step of a thread in `Await`, or a trigger that is not dropped. -/
inductive EventAction (T E : Type*)
  | await (t : T) (events : List E)
  | block (t : T)
  | detach (t : T)
  | trigger (e : E)
  deriving DecidableEq

/-- A system together with the events that were triggered while a thread listened to them and that
its `Await` has not returned for. -/
structure Watched (T E : Type*) where
  sys : EventSystem T E
  owed : T → List E

namespace Watched

def boot (pending : E → ℕ) : Watched T E := ⟨.boot pending, fun _ => []⟩

variable [DecidableEq T] [DecidableEq E]

def listening (s : Watched T E) (e : E) (t : T) : Prop :=
  ∃ l ∈ (s.sys.event e).listeners, l.thread = t

instance (s : Watched T E) (e : E) (t : T) : Decidable (s.listening e t) :=
  inferInstanceAs (Decidable (∃ l ∈ _, _))

def step (s : Watched T E) : EventAction T E → Option (Watched T E)
  | .await t events => (s.sys.await t events).map fun sys => { s with sys }
  | .block t => (s.sys.block t).map fun sys => { s with sys }
  | .detach t =>
    (s.sys.detach t).map fun sys => { sys, owed := Function.update s.owed t [] }
  | .trigger e => some
    { sys := s.sys.trigger e false
      owed := fun t => if s.listening e t then e :: s.owed t else s.owed t }

/-- Every thread returns from its `Await`, and with the index of the event that was triggered. -/
def Served (s : Watched T E) : Prop :=
  ∀ t, ∀ e ∈ s.owed t, ∃ i, (s.sys.thread t).result = some i ∧
    (s.sys.thread t).awaited[i]? = some e

/-- What a step has to do: a trigger raises `Pending` or is noted for every thread that listens, and
what is noted is served. -/
def Delivers (s : Watched T E) (a : EventAction T E) : Prop :=
  ∀ s', s.step a = some s' →
    (∀ e, a = .trigger e → (s'.sys.event e).pending = (s.sys.event e).pending + 1 ∨
      ∀ t, s.listening e t → e ∈ s'.owed t) ∧
    s'.Served

/-- The threads that listen to an event that is triggered are blocked. -/
def ListenersBlocked (s : Watched T E) : EventAction T E → Prop
  | .trigger e => ∀ l ∈ (s.sys.event e).listeners, (s.sys.thread l.thread).blocked
  | _ => True

instance (s : Watched T E) : ∀ a, Decidable (s.ListenersBlocked a)
  | .trigger _ => inferInstanceAs (Decidable (∀ l ∈ _, _))
  | .await .. => inferInstanceAs (Decidable True)
  | .block _ => inferInstanceAs (Decidable True)
  | .detach _ => inferInstanceAs (Decidable True)

/-- What holds in every state as long as only blocked threads are triggered. -/
structure Inv (s : Watched T E) : Prop where
  listed : ∀ e, ∀ l ∈ (s.sys.event e).listeners, (s.sys.thread l.thread).awaited[l.which]? = some e
  once : ∀ e, ((s.sys.event e).listeners.map EventListener.thread).Nodup
  events : ∀ t, (s.sys.thread t).events = (s.sys.thread t).awaited
  nodup : ∀ t, (s.sys.thread t).awaited.Nodup
  result : ∀ t, (s.sys.thread t).result.isSome ↔ s.owed t ≠ []
  blocked : ∀ t, (s.sys.thread t).blocked → ∃ events, (s.sys.thread t).phase = .asleep events
  left : ∀ t, ∀ e ∈ s.owed t, ¬s.listening e t
  served : s.Served

omit [DecidableEq T] [DecidableEq E] in
theorem inv_boot (pending : E → ℕ) : Inv (boot (T := T) pending) where
  listed e l hl := absurd hl (by simp [boot, EventSystem.boot])
  once e := by simp [boot, EventSystem.boot]
  events t := rfl
  nodup t := List.nodup_nil
  result t := by simp [boot, EventSystem.boot, Awaiter.result]
  blocked t h := absurd h (by simp [boot, EventSystem.boot])
  left t e he := absurd he (by simp [boot])
  served t e he := absurd he (by simp [boot])

namespace Inv

variable {s : Watched T E}

omit [DecidableEq T] [DecidableEq E] in
theorem owed_eq_nil (h : Inv s) {t : T} (ht : (s.sys.thread t).result = none) : s.owed t = [] := by
  by_contra howed
  have hsome := (h.result t).mpr howed
  rw [ht] at hsome
  cases hsome

omit [DecidableEq T] [DecidableEq E] in
/-- A thread outside of `Await` listens to nothing. -/
theorem not_listening (h : Inv s) {t : T} (ht : (s.sys.thread t).phase = .outside) (e : E) :
    ∀ l ∈ (s.sys.event e).listeners, l.thread ≠ t := by
  rintro l hl rfl
  have hlisted := h.listed e l hl
  simp [Awaiter.awaited, ht] at hlisted

omit [DecidableEq T] in
/-- Counting a trigger or taking a pending one changes nothing for the threads. -/
theorem of_pending (h : Inv s) (e : E) (pending : ℕ) :
    Inv { s with sys := { s.sys with
      event := Function.update s.sys.event e { s.sys.event e with pending } } } := by
  have hlisteners (e' : E) :
      (Function.update s.sys.event e { s.sys.event e with pending } e').listeners =
        (s.sys.event e').listeners := by
    by_cases he : e' = e
    · subst he
      rw [Function.update_self]
    · rw [Function.update_of_ne he]
  refine { h with listed := fun e' l hl => ?_, once := fun e' => ?_, left := fun t e' he' => ?_ }
  · exact h.listed e' l (by rwa [hlisteners] at hl)
  · simpa only [hlisteners] using h.once e'
  · simpa only [listening, hlisteners] using h.left t e' he'

omit [DecidableEq E] in
/-- A thread that steps to a place where it does not return from, without touching the others. -/
theorem of_thread (h : Inv s) (t : T) {s' : Watched T E}
    (hthread : ∀ t' ≠ t, s'.sys.thread t' = s.sys.thread t')
    (howed : ∀ t' ≠ t, s'.owed t' = s.owed t')
    (hlisted : ∀ e, ∀ l ∈ (s'.sys.event e).listeners,
      (l ∈ (s.sys.event e).listeners ∧ l.thread ≠ t) ∨
        l.thread = t ∧ (s'.sys.thread t).awaited[l.which]? = some e)
    (honce : ∀ e, ((s'.sys.event e).listeners.map EventListener.thread).Nodup)
    (hevents : (s'.sys.thread t).events = (s'.sys.thread t).awaited)
    (hnodup : (s'.sys.thread t).awaited.Nodup)
    (hresult : (s'.sys.thread t).result = none) (hnil : s'.owed t = [])
    (hblocked : (s'.sys.thread t).blocked → ∃ events, (s'.sys.thread t).phase = .asleep events) :
    Inv s' where
  listed e l hl := by
    rcases hlisted e l hl with ⟨hl, hne⟩ | ⟨heq, hl⟩
    · rw [hthread _ hne]
      exact h.listed e l hl
    · rw [heq]
      exact hl
  once := honce
  events t' := by
    by_cases ht : t' = t
    · exact ht ▸ hevents
    · exact hthread t' ht ▸ h.events t'
  nodup t' := by
    by_cases ht : t' = t
    · exact ht ▸ hnodup
    · exact hthread t' ht ▸ h.nodup t'
  result t' := by
    by_cases ht : t' = t
    · simp [ht, hresult, hnil]
    · rw [hthread t' ht, howed t' ht]
      exact h.result t'
  blocked t' hb := by
    by_cases ht : t' = t
    · exact ht ▸ hblocked (ht ▸ hb)
    · rw [hthread t' ht] at hb ⊢
      exact h.blocked t' hb
  left t' e he := by
    by_cases ht : t' = t
    · simp [ht, hnil] at he
    · rw [howed t' ht] at he
      rintro ⟨l, hl, rfl⟩
      rcases hlisted e l hl with ⟨hl, -⟩ | ⟨hl, -⟩
      · exact h.left _ e he ⟨l, hl, rfl⟩
      · exact ht hl
  served t' e he := by
    by_cases ht : t' = t
    · simp [ht, hnil] at he
    · rw [howed t' ht] at he
      rw [hthread t' ht]
      exact h.served t' e he

theorem attachListeners (h : Inv s) {t : T} {events : List E}
    (hphase : (s.sys.thread t).phase = .outside) (hnodup : events.Nodup) :
    Inv { s with sys := s.sys.attachListeners t events } := by
  have hnone : (s.sys.thread t).result = none := by rw [Awaiter.result, hphase]
  have hself : (s.sys.attachListeners t events).thread t =
      { s.sys.thread t with events := events, phase := .attached events } :=
    Function.update_self _ _ _
  have hevent (e : E) : (s.sys.attachListeners t events).event e = _ :=
    EventSystem.attachFrom_apply t events hnodup 0 s.sys.event e
  refine h.of_thread t (fun t' ht' => Function.update_of_ne ht' _ _) (fun _ _ => rfl)
    (fun e l hl => ?_) (fun e => ?_) ?_ ?_ ?_ (h.owed_eq_nil hnone) fun hb => ?_
  · simp only [hevent e] at hl
    split at hl
    · rename_i he
      rcases List.mem_append.mp hl with hl | hl
      · exact .inl ⟨hl, h.not_listening hphase e l hl⟩
      · obtain rfl : l = ⟨t, 0 + events.idxOf e⟩ := by simpa using hl
        rw [hself, Nat.zero_add]
        exact .inr ⟨rfl, List.getElem?_idxOf he⟩
    · exact .inl ⟨hl, h.not_listening hphase e l hl⟩
  · simp only [hevent e]
    split
    · rw [List.map_append, List.nodup_append]
      refine ⟨h.once e, List.nodup_singleton _, fun a ha b hb => ?_⟩
      obtain ⟨l, hl, rfl⟩ := List.mem_map.mp ha
      rw [List.map_singleton, List.mem_singleton] at hb
      exact hb ▸ h.not_listening hphase e l hl
    · exact h.once e
  · simp only [hself, Awaiter.awaited]
  · simpa only [hself, Awaiter.awaited] using hnodup
  · simp only [hself, Awaiter.result]
  · simp only [hself] at hb
    obtain ⟨events, hasleep⟩ := h.blocked t hb
    rw [hasleep] at hphase
    cases hphase

omit [DecidableEq E] in
theorem block (h : Inv s) {t : T} {sys : EventSystem T E} (hblock : s.sys.block t = some sys) :
    Inv { s with sys } := by
  rw [EventSystem.block] at hblock
  split at hblock
  · rename_i events hphase
    obtain rfl := Option.some.inj hblock
    have hnone : (s.sys.thread t).result = none := by rw [Awaiter.result, hphase]
    have hawaited : (s.sys.thread t).awaited = events := by rw [Awaiter.awaited, hphase]
    refine h.of_thread t (fun t' ht' => Function.update_of_ne ht' _ _) (fun _ _ => rfl)
      (fun e l hl => ?_) h.once ?_ ?_ ?_ (h.owed_eq_nil hnone) fun _ => ⟨events, ?_⟩
    · by_cases hl' : l.thread = t
      · refine .inr ⟨hl', ?_⟩
        have hlisted := h.listed e l hl
        rw [hl', hawaited] at hlisted
        simpa only [Function.update_self, Awaiter.awaited] using hlisted
      · exact .inl ⟨hl, hl'⟩
    · simpa only [Function.update_self, Awaiter.awaited] using (h.events t).trans hawaited
    · simpa only [Function.update_self, Awaiter.awaited] using hawaited ▸ h.nodup t
    · simp [Awaiter.result]
    · simp
  · cases hblock

/-- After `DetachListeners` nobody lists the thread. -/
theorem listeners_detachListeners (h : Inv s) (t : T) (e : E) :
    ((s.sys.detachListeners t).event e).listeners =
      (s.sys.event e).listeners.filter fun l => l.thread ≠ t := by
  have hevent : (s.sys.detachListeners t).event e = _ :=
    EventSystem.detachFrom_apply t (s.sys.thread t).events (h.events t ▸ h.nodup t) s.sys.event e
  rw [hevent]
  split
  · exact EventSystem.eraseListeners_eq_filter t (h.once e)
  · rename_i he
    refine (List.filter_eq_self.mpr fun l hl => ?_).symm
    rw [decide_eq_true_iff]
    rintro rfl
    rw [h.events] at he
    exact he (List.mem_of_getElem? (h.listed e l hl))

theorem detach (h : Inv s) {t : T} {sys : EventSystem T E} (hdetach : s.sys.detach t = some sys) :
    Inv { sys, owed := Function.update s.owed t [] } := by
  rw [EventSystem.detach] at hdetach
  split at hdetach
  · rename_i hsome
    obtain rfl := Option.some.inj hdetach
    have hself : (s.sys.detachListeners t).thread t =
        { s.sys.thread t with events := [], phase := .outside } := Function.update_self _ _ _
    refine h.of_thread t (fun t' ht' => Function.update_of_ne ht' _ _)
      (fun t' ht' => Function.update_of_ne ht' _ _) (fun e l hl => ?_) (fun e => ?_) ?_ ?_ ?_
      (Function.update_self _ _ _) fun hb => ?_
    · simp only [h.listeners_detachListeners, List.mem_filter] at hl
      exact .inl ⟨hl.1, by simpa using hl.2⟩
    · simp only [h.listeners_detachListeners]
      exact (h.once e).sublist (List.filter_sublist.map _)
    · simp only [hself, Awaiter.awaited]
    · simp [hself, Awaiter.awaited]
    · simp only [hself, Awaiter.result]
    · -- a blocked thread has no result
      simp only [hself] at hb
      simp only [Awaiter.result, hb] at hsome
      split at hsome <;> cases hsome
  · cases hdetach

theorem trigger (h : Inv s) {e : E}
    (hblocked : ∀ l ∈ (s.sys.event e).listeners, (s.sys.thread l.thread).blocked)
    {s' : Watched T E} (hstep : s.step (.trigger e) = some s') : Inv s' := by
  obtain rfl := Option.some.inj hstep
  have hlisteners (e' : E) : ∀ l ∈ ((s.sys.trigger e false).event e').listeners,
      e' ≠ e ∧ l ∈ (s.sys.event e').listeners := by
    intro l hl
    rw [EventSystem.trigger_listeners] at hl
    split at hl
    · cases hl
    · rename_i he
      exact ⟨he, hl⟩
  -- the threads that do not listen keep everything
  have hthread (t : T) : let w := (s.sys.trigger e false).thread t
      w.events = (s.sys.thread t).events ∧ w.phase = (s.sys.thread t).phase ∧
      w.awaited = (s.sys.thread t).awaited ∧
      (¬s.listening e t ∧ w = s.sys.thread t ∨
        s.listening e t ∧ w.blocked = false ∧ s.owed t = [] ∧
        ∃ i, w.result = some i ∧ w.awaited[i]? = some e) := by
    rcases EventSystem.trigger_thread (s := s.sys) (e := e) false t with
      ⟨hnot, heq⟩ | ⟨l, hl, rfl, heq⟩
    · rw [heq]
      exact ⟨rfl, rfl, rfl, .inl ⟨fun ⟨l, hl, hlt⟩ => hnot l hl hlt, rfl⟩⟩
    · have hb := hblocked l hl
      obtain ⟨events, hasleep⟩ := h.blocked _ hb
      have hlisted := h.listed e l hl
      rw [heq]
      refine ⟨rfl, rfl, rfl, .inr ⟨⟨l, hl, rfl⟩, rfl, h.owed_eq_nil ?_, l.which, ?_, hlisted⟩⟩
      · simp [Awaiter.result, hasleep, hb]
      · simp [Awaiter.result, hasleep]
  refine ⟨fun e' l hl => ?_, fun e' => ?_, fun t => ?_, fun t => ?_, fun t => ?_, fun t hb => ?_,
    fun t e' he' => ?_, fun t e' he' => ?_⟩
  · obtain ⟨-, hl⟩ := hlisteners e' l hl
    rw [(hthread l.thread).2.2.1]
    exact h.listed e' l hl
  · rw [EventSystem.trigger_listeners]
    split
    · simp
    · exact h.once e'
  · rw [(hthread t).1, (hthread t).2.2.1]
    exact h.events t
  · rw [(hthread t).2.2.1]
    exact h.nodup t
  · rcases (hthread t).2.2.2 with ⟨hnot, heq⟩ | ⟨hlistening, -, -, i, hresult, -⟩
    · simp only [heq, if_neg hnot]
      exact h.result t
    · simp [hresult, hlistening]
  · rcases (hthread t).2.2.2 with ⟨-, heq⟩ | ⟨-, hfalse, -⟩
    · simp only [heq] at hb ⊢
      exact h.blocked t hb
    · simp only [hfalse] at hb
      cases hb
  · rintro ⟨l, hl, rfl⟩
    obtain ⟨hne, hl⟩ := hlisteners e' l hl
    simp only at he'
    split at he'
    · rcases List.mem_cons.mp he' with he' | he'
      · exact hne he'
      · exact h.left _ e' he' ⟨l, hl, rfl⟩
    · exact h.left _ e' he' ⟨l, hl, rfl⟩
  · rcases (hthread t).2.2.2 with ⟨hnot, heq⟩ | ⟨hlistening, -, hnil, hserved⟩
    · simp only [heq, if_neg hnot] at he' ⊢
      exact h.served t e' he'
    · simp only [if_pos hlistening, hnil, List.mem_singleton] at he'
      exact he' ▸ hserved

theorem await (h : Inv s) {t : T} {events : List E} {sys : EventSystem T E}
    (hawait : s.sys.await t events = some sys) : Inv { s with sys } := by
  rw [EventSystem.await] at hawait
  split at hawait
  · rename_i hok
    split at hawait
    · obtain ⟨e, -, rfl⟩ := Option.map_eq_some_iff.mp hawait
      exact h.of_pending e _
    · obtain rfl := Option.some.inj hawait
      exact h.attachListeners hok.1 hok.2
  · cases hawait

theorem step (h : Inv s) {a : EventAction T E} (ha : s.ListenersBlocked a) {s' : Watched T E}
    (hstep : s.step a = some s') : Inv s' := by
  cases a with
  | await t events =>
    obtain ⟨sys, hsys, rfl⟩ := Option.map_eq_some_iff.mp hstep
    exact h.await hsys
  | block t =>
    obtain ⟨sys, hsys, rfl⟩ := Option.map_eq_some_iff.mp hstep
    exact h.block hsys
  | detach t =>
    obtain ⟨sys, hsys, rfl⟩ := Option.map_eq_some_iff.mp hstep
    exact h.detach hsys
  | trigger e => exact h.trigger ha hstep

/-- A trigger that finds a thread which is not blocked is lost for it, or takes the place of the one
that woke it. -/
theorem not_served (h : Inv s) {e : E} {l : EventListener T} (hl : l ∈ (s.sys.event e).listeners)
    (hrunning : (s.sys.thread l.thread).blocked = false) {s' : Watched T E}
    (hstep : s.step (.trigger e) = some s') : ¬s'.Served := by
  intro hserved
  obtain rfl := Option.some.inj hstep
  have hlistening : s.listening e l.thread := ⟨l, hl, rfl⟩
  have hne : (s.sys.event e).listeners ≠ [] := List.ne_nil_of_mem hl
  obtain ⟨l', hl', hsame, heq⟩ :
      ∃ l' ∈ (s.sys.event e).listeners, l'.thread = l.thread ∧
        (s.sys.trigger e false).thread l.thread =
          { s.sys.thread l.thread with which := l'.which, blocked := false } := by
    rw [EventSystem.trigger, if_neg hne]
    rcases EventSystem.wakeAll_apply l.thread (s.sys.event e).listeners s.sys.thread with
      ⟨hnot, -⟩ | hwoken
    · exact absurd rfl (hnot l hl)
    · exact hwoken
  have hserved' (e' : E) (he' : e' = e ∨ e' ∈ s.owed l.thread) := hserved l.thread e'
    (by simpa only [if_pos hlistening, List.mem_cons] using he')
  simp only [heq] at hserved'
  obtain ⟨i, hresult, -⟩ := hserved' e (.inl rfl)
  -- it can only return when it was woken before
  have hsome : (s.sys.thread l.thread).result.isSome := by
    cases hphase : (s.sys.thread l.thread).phase with
    | outside => simp [Awaiter.result, hphase] at hresult
    | attached events => simp [Awaiter.result, hphase] at hresult
    | asleep events => simp [Awaiter.result, hphase, hrunning]
  obtain ⟨e', he'⟩ := List.exists_mem_of_ne_nil _ ((h.result l.thread).mp hsome)
  obtain ⟨j, hresult', hj⟩ := hserved' e' (.inr he')
  have hwhich : j = l'.which := by
    cases hphase : (s.sys.thread l.thread).phase with
    | outside => simp [Awaiter.result, hphase] at hresult
    | attached events => simp [Awaiter.result, hphase] at hresult
    | asleep events => simpa [Awaiter.result, hphase] using hresult'.symm
  have hlisted := h.listed e l' hl'
  rw [hsame] at hlisted
  have heq' : e' = e := by
    rw [hwhich] at hj
    exact Option.some.inj (hj.symm.trans hlisted)
  exact h.left _ e' he' (heq' ▸ hlistening)

/-- One step delivers what it triggers exactly when the listeners are blocked. -/
theorem delivers_iff (h : Inv s) (a : EventAction T E) : s.Delivers a ↔ s.ListenersBlocked a := by
  constructor
  · intro hdelivers
    cases a with
    | trigger e =>
      intro l hl
      by_contra hrunning
      exact h.not_served hl (by simpa using hrunning) rfl (hdelivers _ rfl).2
    | _ => trivial
  · intro ha s' hstep
    refine ⟨?_, (h.step ha hstep).served⟩
    rintro e rfl
    obtain rfl := Option.some.inj hstep
    right
    intro t ht
    simp [ht]

end Inv

/-! ## What a thread keeps when another one steps -/

/-- A step of the thread `t` that leaves the other threads and what they listen to alone. -/
structure Keeps (s s' : Watched T E) (t : T) : Prop where
  thread : ∀ t' ≠ t, s'.sys.thread t' = s.sys.thread t'
  owed : ∀ t' ≠ t, s'.owed t' = s.owed t'
  listening : ∀ e, ∀ t' ≠ t, s.listening e t' → s'.listening e t'

omit [DecidableEq T] [DecidableEq E] in
theorem Keeps.refl (s : Watched T E) (t : T) : Keeps s s t :=
  ⟨fun _ _ => rfl, fun _ _ => rfl, fun _ _ _ h => h⟩

section Steps

variable {s s' : Watched T E} {t : T} {events : List E}

omit [DecidableEq T] [DecidableEq E] in
theorem checkPending_eq_some {s : EventSystem T E} {i : ℕ} (h : s.checkPending events = some i) :
    ∃ e, events[i]? = some e ∧ 0 < (s.event e).pending := by
  obtain ⟨hi, hpending, -⟩ := List.findIdx?_eq_some_iff_getElem.mp h
  exact ⟨events[i], List.getElem?_eq_getElem hi, by simpa using hpending⟩

omit [DecidableEq T] [DecidableEq E] in
theorem checkPending_eq_none {s : EventSystem T E} (h : s.checkPending events = none) :
    ∀ e ∈ events, (s.event e).pending = 0 := by
  intro e he
  have hnot := List.findIdx?_eq_none_iff.mp h e he
  simpa using hnot

/-- `Await` takes a pending event. -/
theorem step_await_pending {i : ℕ} (h : s.step (.await t events) = some s')
    (hi : s.sys.checkPending events = some i) :
    ∃ e, events[i]? = some e ∧ 0 < (s.sys.event e).pending ∧
      s' = { s with sys := s.sys.takePending e } := by
  obtain ⟨e, he, hpending⟩ := checkPending_eq_some hi
  obtain ⟨sys, hsys, rfl⟩ := Option.map_eq_some_iff.mp h
  rw [EventSystem.await] at hsys
  split at hsys
  · simp only [hi, he, Option.map_some] at hsys
    obtain rfl := Option.some.inj hsys
    exact ⟨e, he, hpending, rfl⟩
  · cases hsys

omit [DecidableEq T] in
theorem keeps_takePending (s : Watched T E) (t : T) (e : E) :
    Keeps s { s with sys := s.sys.takePending e } t where
  thread _ _ := rfl
  owed _ _ := rfl
  listening e' t' _ := by
    rintro ⟨l, hl, rfl⟩
    refine ⟨l, ?_, rfl⟩
    by_cases he : e' = e
    · subst he
      simpa [EventSystem.takePending] using hl
    · simpa [EventSystem.takePending, he] using hl

/-- The first two steps of an `Await` that finds nothing pending. -/
theorem step_await_block {s'' : Watched T E} (h : s.step (.await t events) = some s')
    (hnone : s.sys.checkPending events = none) (hblock : s'.step (.block t) = some s'') :
    Keeps s s'' t ∧ (s''.sys.thread t).phase = .asleep events ∧ s''.owed = s.owed ∧
      (∀ e, (s''.sys.event e).pending = (s.sys.event e).pending) ∧
      ∀ e ∈ events, s''.listening e t := by
  obtain ⟨sys, hsys, rfl⟩ := Option.map_eq_some_iff.mp h
  rw [EventSystem.await] at hsys
  split at hsys
  · rename_i hok
    rw [hnone] at hsys
    obtain rfl := Option.some.inj hsys
    obtain ⟨sys, hsys, rfl⟩ := Option.map_eq_some_iff.mp hblock
    have hself : (s.sys.attachListeners t events).thread t =
        { s.sys.thread t with events := events, phase := .attached events } :=
      Function.update_self _ _ _
    have hevent (e : E) : (s.sys.attachListeners t events).event e = _ :=
      EventSystem.attachFrom_apply t events hok.2 0 s.sys.event e
    simp only [EventSystem.block, hself] at hsys
    obtain rfl := Option.some.inj hsys
    refine ⟨⟨fun t' ht' => ?_, fun _ _ => rfl, fun e t' _ => ?_⟩, by simp, rfl, fun e => ?_,
      fun e he => ?_⟩
    · simp [EventSystem.attachListeners, ht']
    · rintro ⟨l, hl, rfl⟩
      refine ⟨l, ?_, rfl⟩
      simp only [hevent e]
      split
      · exact List.mem_append_left _ hl
      · exact hl
    · simp only [hevent e]
      split <;> rfl
    · refine ⟨⟨t, 0 + events.idxOf e⟩, ?_, rfl⟩
      simp only [hevent e, if_pos he]
      exact List.mem_append_right _ (List.mem_singleton.mpr rfl)
  · cases hsys

/-- The last step of an `Await`. -/
theorem step_detach (hs : Inv s) (h : s.step (.detach t) = some s') :
    Keeps s s' t ∧ (s'.sys.thread t).phase = .outside ∧ s'.owed = Function.update s.owed t [] ∧
      ∀ e, (s'.sys.event e).pending = (s.sys.event e).pending := by
  obtain ⟨sys, hsys, rfl⟩ := Option.map_eq_some_iff.mp h
  rw [EventSystem.detach] at hsys
  split at hsys
  · obtain rfl := Option.some.inj hsys
    have hevent (e : E) : (s.sys.detachListeners t).event e = _ :=
      EventSystem.detachFrom_apply t (s.sys.thread t).events (hs.events t ▸ hs.nodup t)
        s.sys.event e
    refine ⟨⟨fun t' ht' => Function.update_of_ne ht' _ _,
      fun t' ht' => Function.update_of_ne ht' _ _, fun e t' ht' => ?_⟩, ?_, rfl, fun e => ?_⟩
    · rintro ⟨l, hl, rfl⟩
      refine ⟨l, ?_, rfl⟩
      rw [hs.listeners_detachListeners, List.mem_filter]
      exact ⟨hl, by simpa using ht'⟩
    · simp [EventSystem.detachListeners]
    · rw [hevent e]
      split <;> rfl
  · cases hsys

/-- A trigger is owed to the threads that listen, or counted when there are none. -/
theorem step_trigger {e : E} (h : s.step (.trigger e) = some s') :
    (∀ t, (s'.sys.thread t).phase = (s.sys.thread t).phase) ∧
      (∀ e' ≠ e, (s'.sys.event e').pending = (s.sys.event e').pending ∧
        ∀ t, s.listening e' t → s'.listening e' t) ∧
      (∀ t e', e' ∈ s'.owed t ↔ e' ∈ s.owed t ∨ e' = e ∧ s.listening e t) ∧
      ((∃ t, s.listening e t) ∧ (s'.sys.event e).pending = (s.sys.event e).pending ∨
        (∀ t, ¬s.listening e t) ∧ (s'.sys.event e).pending = (s.sys.event e).pending + 1) := by
  obtain rfl := Option.some.inj h
  refine ⟨fun t => ?_, fun e' he' => ⟨EventSystem.trigger_pending false (.inl he'), fun t => ?_⟩,
    fun t e' => ?_, ?_⟩
  · rcases EventSystem.trigger_thread (s := s.sys) (e := e) false t with ⟨-, heq⟩ | ⟨l, -, -, heq⟩
    · rw [heq]
    · rw [heq]
  · rintro ⟨l, hl, rfl⟩
    refine ⟨l, ?_, rfl⟩
    rwa [EventSystem.trigger_listeners, if_neg he']
  · by_cases hlistening : s.listening e t
    · simp [hlistening, or_comm]
    · simp [hlistening]
  · rw [EventSystem.trigger]
    by_cases hnil : (s.sys.event e).listeners = []
    · exact .inr ⟨fun t ⟨l, hl, _⟩ => by simp [hnil] at hl, by simp [hnil]⟩
    · obtain ⟨l, hl⟩ := List.exists_mem_of_ne_nil _ hnil
      exact .inl ⟨⟨l.thread, l, hl, rfl⟩, by simp [hnil]⟩

end Steps

/-- In every run, of any number of threads and any interleaving, all triggers are delivered exactly
when each of them finds only threads that are blocked. -/
theorem served_iff (pending : E → ℕ) (actions : List (EventAction T E)) :
    Along step Delivers (boot pending) actions ↔
      Along step ListenersBlocked (boot pending) actions :=
  Along.congr (D := anyCall) (inv_boot pending) Along.anyCall (fun _ a hs _ => hs.delivers_iff a)
    fun _ _ _ hs _ ha hstep => hs.step ha hstep

/-- A thread is attached to the only event, which is triggered before the thread is blocked: the
thread sleeps, nobody lists it and nothing is pending. -/
theorem not_served_before_block :
    ¬Along step Delivers (boot (T := Unit) (E := Unit) fun _ => 0)
      [.await () [()], .trigger (), .block ()] ∧
    (Reaches.runList step anyCall (boot (T := Unit) (E := Unit) fun _ => 0)
      [.await () [()], .trigger (), .block ()]).map
        (fun s => ((s.sys.thread ()).blocked, s.sys.event ())) = some (true, ⟨0, []⟩) := by
  refine ⟨?_, by decide⟩
  rintro ⟨-, h⟩
  obtain ⟨htrigger, -⟩ := h _ rfl
  obtain ⟨-, hserved⟩ := htrigger _ rfl
  obtain ⟨i, hresult, -⟩ := hserved () () (by decide)
  cases hresult

end Watched

end Cryptix.Scheduler
