import Cryptix.Scheduler.Event

/-!
# The mutexes

`Kernel/Library/Locking/Mutex.cpp` and `RecursiveMutex.cpp`. `TryLock` and `Unlock` run under the
lock of the mutex and are one step each. `Lock` repeats `TryLock` and, when it fails, awaits the
event of the mutex; `Mutex::Lock` stores `m_Holder` once more when it has the mutex, and that store
is a step of its own, outside of the lock.

A thread unlocks as often as it locked. Whatever the interleaving, at most one thread holds the
mutex, the mutex names it, and the assertion of `Unlock` does not fail (`exclusive`). The late store
does no harm because the thread that makes it cannot have unlocked the mutex before.
-/

namespace Cryptix.Locking

open Lib Scheduler

variable {T E : Type*}

/-! ## Who holds a lock

`held t` is the number of times that the thread `t` has locked and not unlocked. -/

section Owned

variable [DecidableEq T] {held : T → ℕ} {owner : Option T} {depth : ℕ} {t : T}

/-- One more lock that a thread holds. -/
def acquire (held : T → ℕ) (t : T) : T → ℕ := Function.update held t (held t + 1)

/-- The end of a lock that a thread holds. -/
def release (held : T → ℕ) (t : T) : T → ℕ := Function.update held t (held t - 1)

/-- Only the owner holds locks, and as many as `depth`. -/
def Owned (held : T → ℕ) (depth : ℕ) : Option T → Prop
  | none => ∀ t, held t = 0
  | some t => held t = depth ∧ 0 < depth ∧ ∀ t' ≠ t, held t' = 0

namespace Owned

omit [DecidableEq T] in
theorem owner_eq (h : Owned held depth owner) (ht : 0 < held t) :
    owner = some t ∧ held t = depth := by
  cases owner with
  | none => exact absurd (h t) (Nat.ne_of_gt ht)
  | some t' =>
    obtain ⟨hdepth, -, hother⟩ := h
    by_cases hne : t = t'
    · exact ⟨congrArg some hne.symm, hne ▸ hdepth⟩
    · exact absurd (hother t hne) (Nat.ne_of_gt ht)

theorem acquire_free (h : Owned held depth none) (t : T) : Owned (acquire held t) 1 (some t) := by
  refine ⟨?_, Nat.one_pos, fun t' ht' => ?_⟩
  · rw [acquire, Function.update_self, h t]
  · rw [acquire, Function.update_of_ne ht']
    exact h t'

theorem acquire_again (h : Owned held depth (some t)) :
    Owned (acquire held t) (depth + 1) (some t) := by
  obtain ⟨hdepth, -, hother⟩ := h
  refine ⟨?_, Nat.succ_pos depth, fun t' ht' => ?_⟩
  · rw [acquire, Function.update_self, hdepth]
  · rw [acquire, Function.update_of_ne ht']
    exact hother t' ht'

theorem release_last (h : Owned held 1 (some t)) (depth : ℕ) :
    Owned (release held t) depth none := by
  intro t'
  by_cases ht' : t' = t
  · rw [ht', release, Function.update_self, h.1]
  · rw [release, Function.update_of_ne ht']
    exact h.2.2 t' ht'

theorem release_one (h : Owned held depth (some t)) (hdepth : depth - 1 ≠ 0) :
    Owned (release held t) (depth - 1) (some t) := by
  obtain ⟨hheld, -, hother⟩ := h
  refine ⟨?_, Nat.pos_of_ne_zero hdepth, fun t' ht' => ?_⟩
  · rw [release, Function.update_self, hheld]
  · rw [release, Function.update_of_ne ht']
    exact hother t' ht'

end Owned

end Owned

/-! ## `Mutex` -/

structure Mutex (T : Type*) where
  locked : Bool
  holder : Option T
  deriving DecidableEq, Repr

namespace Mutex

def new : Mutex T := ⟨false, none⟩

/-- `Mutex::TryLock`; `none` when the mutex is taken. -/
def tryLock (m : Mutex T) (t : T) : Option (Mutex T) :=
  if m.locked then none else some ⟨true, some t⟩

variable [DecidableEq T]

/-- The assertion of `Mutex::Unlock`. -/
def CanUnlock (m : Mutex T) (t : T) : Prop := m.locked = true ∧ m.holder = some t

instance (m : Mutex T) (t : T) : Decidable (m.CanUnlock t) :=
  inferInstanceAs (Decidable (_ ∧ _))

/-- `Mutex::Unlock`, up to the trigger; `none` when the assertion fails. -/
def unlock (m : Mutex T) (t : T) : Option (Mutex T) :=
  if m.CanUnlock t then some ⟨false, none⟩ else none

end Mutex

/-- Where a thread is in `Mutex::Lock`: before the first `TryLock`, at the head of the loop, in
`Await`, or before the store to `m_Holder`. -/
inductive LockPhase
  | entry | loop | awaiting | store
  deriving DecidableEq, Repr

/-- The steps of `Mutex::Lock`. -/
inductive LockStep
  | tryLock
  | await (a : AwaitStep)
  | store
  deriving DecidableEq, Repr

/-- A step of `Mutex::Lock` with the event `e`. The last component is the place the thread gets to,
`none` when `Lock` returns. -/
def Mutex.lockStep [DecidableEq T] [DecidableEq E] (m : Mutex T) (sys : EventSystem T E) (e : E)
    (t : T) : LockPhase → LockStep → Option (Mutex T × EventSystem T E × Option LockPhase)
  | .entry, .tryLock =>
    match m.tryLock t with
    | some m => some (m, sys, some .store)
    | none => some (m, sys, some .loop)
  | .loop, .tryLock =>
    match m.tryLock t with
    | some m => some (m, sys, some .store)
    | none => some (m, sys, some .awaiting)
  | .awaiting, .await a =>
    (sys.awaitStep t [e] a).map fun (sys, returned) =>
      (m, sys, some (if returned then .loop else .awaiting))
  | .store, .store => some ({ m with holder := some t }, sys, none)
  | _, _ => none

/-- A step of `Mutex::Lock` changes its own thread only. -/
theorem Mutex.lockStep_thread [DecidableEq T] [DecidableEq E] {m m' : Mutex T}
    {sys sys' : EventSystem T E} {e : E} {t t' : T} {p : LockPhase} {a : LockStep}
    {p' : Option LockPhase} (h : m.lockStep sys e t p a = some (m', sys', p')) (ht' : t' ≠ t) :
    sys'.thread t' = sys.thread t' := by
  rw [Mutex.lockStep.eq_def] at h
  split at h
  · split at h <;> obtain ⟨-, rfl, -⟩ := by simpa using h
    all_goals rfl
  · split at h <;> obtain ⟨-, rfl, -⟩ := by simpa using h
    all_goals rfl
  · obtain ⟨⟨sys₁, returned⟩, hawait, heq⟩ := Option.map_eq_some_iff.mp h
    obtain ⟨-, rfl, -⟩ := by simpa using heq
    exact EventSystem.awaitStep_thread hawait ht'
  · obtain ⟨-, rfl, -⟩ := by simpa using h
    rfl
  · cases h

/-- A mutex and the threads that use it, each with its place in `Lock` and the number of times it
has locked the mutex and not unlocked it. -/
structure MutexSystem (T : Type*) where
  mutex : Mutex T
  sys : EventSystem T Unit
  phase : T → Option LockPhase
  held : T → ℕ

/-- A call of `TryLock`, `Lock` or `Unlock`, or a step inside of `Lock`. -/
inductive MutexAction (T : Type*)
  | tryLock (t : T)
  | lock (t : T)
  | lockStep (t : T) (a : LockStep)
  | unlock (t : T)
  deriving DecidableEq

namespace MutexSystem

def boot : MutexSystem T where
  mutex := .new
  sys := .boot fun _ => 0
  phase _ := none
  held _ := 0

variable [DecidableEq T]

def step (s : MutexSystem T) : MutexAction T → Option (MutexSystem T)
  | .tryLock t =>
    if s.phase t = none then
      match s.mutex.tryLock t with
      | some m => some { s with mutex := m, held := acquire s.held t }
      | none => some s
    else none
  | .lock t =>
    if s.phase t = none then some { s with phase := Function.update s.phase t (some .entry) }
    else none
  | .lockStep t a =>
    match s.phase t with
    | none => none
    | some p =>
      (s.mutex.lockStep s.sys () t p a).map fun (m, sys, phase) =>
        { mutex := m
          sys
          phase := Function.update s.phase t phase
          -- a `TryLock` that succeeds is followed by the store
          held := if phase = some .store then acquire s.held t else s.held }
  | .unlock t =>
    if s.phase t = none then
      (s.mutex.unlock t).map fun m =>
        { s with mutex := m, sys := s.sys.trigger () false, held := release s.held t }
    else none

/-- A thread calls `Unlock` when no `Lock` of it is running and it has locked the mutex more often
than it unlocked it. -/
def Balanced (s : MutexSystem T) : MutexAction T → Prop
  | .unlock t => s.phase t = none ∧ 0 < s.held t
  | _ => True

instance (s : MutexSystem T) : ∀ a, Decidable (s.Balanced a)
  | .unlock _ => inferInstanceAs (Decidable (_ ∧ _))
  | .tryLock _ => inferInstanceAs (Decidable True)
  | .lock _ => inferInstanceAs (Decidable True)
  | .lockStep .. => inferInstanceAs (Decidable True)

/-- The mutex names the thread that holds it, and a thread that is about to store `m_Holder` holds
the mutex. -/
structure Inv (s : MutexSystem T) : Prop where
  owned : Owned s.held 1 s.mutex.holder
  locked : s.mutex.locked = s.mutex.holder.isSome
  store : ∀ t, s.phase t = some .store → 0 < s.held t

omit [DecidableEq T] in
theorem inv_boot : Inv (boot (T := T)) where
  owned _ := rfl
  locked := rfl
  store _ h := by cases h

namespace Inv

variable {s : MutexSystem T} {t : T}

omit [DecidableEq T] in
theorem holder_eq_none (h : Inv s) {m : Mutex T} (hm : s.mutex.tryLock t = some m) :
    s.mutex.holder = none ∧ m = ⟨true, some t⟩ := by
  rw [Mutex.tryLock] at hm
  split at hm
  · cases hm
  · rename_i hlocked
    rw [h.locked] at hlocked
    exact ⟨by simpa using hlocked, (Option.some.inj hm).symm⟩

/-- A `TryLock` that succeeds. -/
theorem tryLock (h : Inv s) {m : Mutex T} (hm : s.mutex.tryLock t = some m)
    (sys : EventSystem T Unit) (phase : Option LockPhase) :
    Inv ⟨m, sys, Function.update s.phase t phase, acquire s.held t⟩ := by
  obtain ⟨hnone, rfl⟩ := h.holder_eq_none hm
  have howned := h.owned
  rw [hnone] at howned
  refine ⟨howned.acquire_free t, rfl, fun t' ht' => ?_⟩
  by_cases hne : t' = t
  · simp [hne, acquire]
  · simp only [Function.update_of_ne hne] at ht'
    exact absurd (howned t') (Nat.ne_of_gt (h.store t' ht'))

/-- A step that leaves the mutex alone and does not get to the store. -/
theorem move (h : Inv s) (sys : EventSystem T Unit) {phase : Option LockPhase}
    (hphase : phase ≠ some .store) :
    Inv ⟨s.mutex, sys, Function.update s.phase t phase, s.held⟩ := by
  refine ⟨h.owned, h.locked, fun t' ht' => ?_⟩
  by_cases hne : t' = t
  · subst hne
    exact absurd (by simpa using ht') hphase
  · simp only [Function.update_of_ne hne] at ht'
    exact h.store t' ht'

/-- The steps of `Lock`. The store finds the thread as the holder already. -/
theorem lockStep (h : Inv s) {p : LockPhase} {a : LockStep} {m : Mutex T} {sys : EventSystem T Unit}
    {phase : Option LockPhase} (hp : s.phase t = some p)
    (hstep : s.mutex.lockStep s.sys () t p a = some (m, sys, phase)) :
    Inv ⟨m, sys, Function.update s.phase t phase,
      if phase = some .store then acquire s.held t else s.held⟩ := by
  rw [Mutex.lockStep.eq_def] at hstep
  split at hstep
  · split at hstep <;> obtain ⟨rfl, rfl, rfl⟩ := by simpa using hstep
    · rename_i hm
      exact h.tryLock hm _ _
    · exact h.move _ (by simp)
  · split at hstep <;> obtain ⟨rfl, rfl, rfl⟩ := by simpa using hstep
    · rename_i hm
      exact h.tryLock hm _ _
    · exact h.move _ (by simp)
  · obtain ⟨⟨sys', returned⟩, -, heq⟩ := Option.map_eq_some_iff.mp hstep
    obtain ⟨rfl, rfl, rfl⟩ := by simpa using heq
    have hstore : some (if returned then LockPhase.loop else .awaiting) ≠ some .store := by
      cases returned <;> simp
    rw [if_neg hstore]
    exact h.move _ hstore
  · obtain ⟨rfl, rfl, rfl⟩ := by simpa using hstep
    have hholder := (h.owned.owner_eq (h.store t hp)).1
    rw [← hholder, if_neg (by simp)]
    exact h.move _ (by simp)
  · cases hstep

theorem unlock (h : Inv s) {m : Mutex T} (hphase : s.phase t = none)
    (hm : s.mutex.unlock t = some m) (sys : EventSystem T Unit) :
    Inv { s with mutex := m, sys, held := release s.held t } := by
  rw [Mutex.unlock] at hm
  split at hm
  · rename_i hcan
    obtain rfl := Option.some.inj hm
    have howned := h.owned
    rw [hcan.2] at howned
    refine ⟨howned.release_last 1, rfl, fun t' ht' => ?_⟩
    -- the other threads do not hold the mutex, and this one does not store
    by_cases hne : t' = t
    · rw [hne, hphase] at ht'
      cases ht'
    · exact absurd (howned.2.2 t' hne) (Nat.ne_of_gt (h.store t' ht'))
  · cases hm

theorem step (h : Inv s) {a : MutexAction T} {s' : MutexSystem T} (hstep : s.step a = some s') :
    Inv s' := by
  cases a with
  | tryLock t =>
    simp only [MutexSystem.step] at hstep
    split at hstep
    · rename_i hphase
      split at hstep <;> obtain rfl := Option.some.inj hstep
      · rename_i hm
        have hinv := h.tryLock hm s.sys none
        rwa [← hphase, Function.update_eq_self] at hinv
      · exact h
    · cases hstep
  | lock t =>
    simp only [MutexSystem.step] at hstep
    split at hstep
    · obtain rfl := Option.some.inj hstep
      exact h.move s.sys (by simp)
    · cases hstep
  | lockStep t a =>
    simp only [MutexSystem.step] at hstep
    split at hstep
    · cases hstep
    · rename_i p hp
      obtain ⟨⟨m, sys, phase⟩, hlock, rfl⟩ := Option.map_eq_some_iff.mp hstep
      exact h.lockStep hp hlock
  | unlock t =>
    simp only [MutexSystem.step] at hstep
    split at hstep
    · rename_i hphase
      obtain ⟨m, hm, rfl⟩ := Option.map_eq_some_iff.mp hstep
      exact h.unlock hphase hm _
    · cases hstep

omit [DecidableEq T] in
theorem canUnlock (h : Inv s) (ht : 0 < s.held t) : s.mutex.CanUnlock t := by
  have hholder := (h.owned.owner_eq ht).1
  refine ⟨?_, hholder⟩
  rw [h.locked, hholder]
  rfl

end Inv

end MutexSystem

/-! ## `RecursiveMutex` -/

structure RecursiveMutex (T : Type*) where
  locked : Bool
  depth : ℕ
  owner : Option T
  deriving DecidableEq, Repr

namespace RecursiveMutex

def new : RecursiveMutex T := ⟨false, 0, none⟩

variable [DecidableEq T]

/-- `RecursiveMutex::TryLock`; `none` when another thread has the mutex. -/
def tryLock (m : RecursiveMutex T) (t : T) : Option (RecursiveMutex T) :=
  if ¬m.locked then some ⟨true, 1, some t⟩
  else if m.owner = some t then some { m with depth := m.depth + 1 }
  else none

/-- The assertion of `RecursiveMutex::Unlock`. -/
def CanUnlock (m : RecursiveMutex T) (t : T) : Prop := m.locked = true ∧ m.owner = some t

instance (m : RecursiveMutex T) (t : T) : Decidable (m.CanUnlock t) :=
  inferInstanceAs (Decidable (_ ∧ _))

/-- `RecursiveMutex::Unlock`; `none` when the assertion fails. The event is triggered when the last
lock is undone. -/
def unlock (m : RecursiveMutex T) (sys : EventSystem T Unit) (t : T) :
    Option (RecursiveMutex T × EventSystem T Unit) :=
  if m.CanUnlock t then
    if m.depth - 1 = 0 then some (⟨false, 0, none⟩, sys.trigger () false)
    else some ({ m with depth := m.depth - 1 }, sys)
  else none

/-- A step of `RecursiveMutex::Lock`. -/
def lockStep (m : RecursiveMutex T) (sys : EventSystem T Unit) (t : T) :
    LockPhase → LockStep → Option (RecursiveMutex T × EventSystem T Unit × Option LockPhase)
  | .loop, .tryLock =>
    match m.tryLock t with
    | some m => some (m, sys, none)
    | none => some (m, sys, some .awaiting)
  | .awaiting, .await a =>
    (sys.awaitStep t [()] a).map fun (sys, returned) =>
      (m, sys, some (if returned then .loop else .awaiting))
  | _, _ => none

end RecursiveMutex

structure RecursiveMutexSystem (T : Type*) where
  mutex : RecursiveMutex T
  sys : EventSystem T Unit
  phase : T → Option LockPhase
  held : T → ℕ

namespace RecursiveMutexSystem

def boot : RecursiveMutexSystem T where
  mutex := .new
  sys := .boot fun _ => 0
  phase _ := none
  held _ := 0

variable [DecidableEq T]

def step (s : RecursiveMutexSystem T) : MutexAction T → Option (RecursiveMutexSystem T)
  | .tryLock t =>
    if s.phase t = none then
      match s.mutex.tryLock t with
      | some m => some { s with mutex := m, held := acquire s.held t }
      | none => some s
    else none
  | .lock t =>
    if s.phase t = none then some { s with phase := Function.update s.phase t (some .loop) }
    else none
  | .lockStep t a =>
    match s.phase t with
    | none => none
    | some p =>
      (s.mutex.lockStep s.sys t p a).map fun (m, sys, phase) =>
        { mutex := m
          sys
          phase := Function.update s.phase t phase
          -- `Lock` returns after a `TryLock` that succeeds
          held := if phase = none then acquire s.held t else s.held }
  | .unlock t =>
    if s.phase t = none then
      (s.mutex.unlock s.sys t).map fun (m, sys) =>
        { s with mutex := m, sys, held := release s.held t }
    else none

/-- A thread calls `Unlock` when no `Lock` of it is running and it has locked the mutex more often
than it unlocked it. -/
def Balanced (s : RecursiveMutexSystem T) : MutexAction T → Prop
  | .unlock t => s.phase t = none ∧ 0 < s.held t
  | _ => True

instance (s : RecursiveMutexSystem T) : ∀ a, Decidable (s.Balanced a)
  | .unlock _ => inferInstanceAs (Decidable (_ ∧ _))
  | .tryLock _ => inferInstanceAs (Decidable True)
  | .lock _ => inferInstanceAs (Decidable True)
  | .lockStep .. => inferInstanceAs (Decidable True)

/-- The mutex names its owner and counts the locks of the owner. -/
structure Inv (s : RecursiveMutexSystem T) : Prop where
  owned : Owned s.held s.mutex.depth s.mutex.owner
  locked : s.mutex.locked = s.mutex.owner.isSome

omit [DecidableEq T] in
theorem inv_boot : Inv (boot (T := T)) where
  owned _ := rfl
  locked := rfl

namespace Inv

variable {s : RecursiveMutexSystem T} {t : T}

theorem tryLock (h : Inv s) {m : RecursiveMutex T} (hm : s.mutex.tryLock t = some m)
    (sys : EventSystem T Unit) (phase : T → Option LockPhase) :
    Inv ⟨m, sys, phase, acquire s.held t⟩ := by
  have howned := h.owned
  rw [RecursiveMutex.tryLock] at hm
  split at hm
  · rename_i hlocked
    obtain rfl := Option.some.inj hm
    rw [h.locked] at hlocked
    rw [show s.mutex.owner = none by simpa using hlocked] at howned
    exact ⟨howned.acquire_free t, rfl⟩
  · split at hm
    · rename_i howner
      obtain rfl := Option.some.inj hm
      rw [howner] at howned
      refine ⟨?_, h.locked⟩
      rw [howner]
      exact howned.acquire_again
    · cases hm

theorem lockStep (h : Inv s) {p : LockPhase} {a : LockStep} {m : RecursiveMutex T}
    {sys : EventSystem T Unit} {phase : Option LockPhase}
    (hstep : s.mutex.lockStep s.sys t p a = some (m, sys, phase)) :
    Inv ⟨m, sys, Function.update s.phase t phase,
      if phase = none then acquire s.held t else s.held⟩ := by
  rw [RecursiveMutex.lockStep.eq_def] at hstep
  split at hstep
  · split at hstep <;> obtain ⟨rfl, rfl, rfl⟩ := by simpa using hstep
    · rename_i hm
      exact h.tryLock hm _ _
    · exact ⟨h.owned, h.locked⟩
  · obtain ⟨⟨sys', returned⟩, -, heq⟩ := Option.map_eq_some_iff.mp hstep
    obtain ⟨rfl, rfl, rfl⟩ := by simpa using heq
    exact ⟨h.owned, h.locked⟩
  · cases hstep

theorem unlock (h : Inv s) {m : RecursiveMutex T} {sys : EventSystem T Unit}
    (hm : s.mutex.unlock s.sys t = some (m, sys)) :
    Inv { s with mutex := m, sys, held := release s.held t } := by
  have howned := h.owned
  rw [RecursiveMutex.unlock] at hm
  split at hm
  · rename_i hcan
    rw [hcan.2] at howned
    split at hm
    · rename_i hlast
      obtain ⟨rfl, rfl⟩ := by simpa using hm
      have hdepth : s.mutex.depth = 1 := by
        have hpos := howned.2.1
        omega
      rw [hdepth] at howned
      exact ⟨howned.release_last 0, rfl⟩
    · rename_i hmore
      obtain ⟨rfl, rfl⟩ := by simpa using hm
      refine ⟨?_, h.locked⟩
      rw [hcan.2]
      exact howned.release_one hmore
  · cases hm

theorem step (h : Inv s) {a : MutexAction T} {s' : RecursiveMutexSystem T}
    (hstep : s.step a = some s') : Inv s' := by
  cases a with
  | tryLock t =>
    simp only [RecursiveMutexSystem.step] at hstep
    split at hstep
    · split at hstep <;> obtain rfl := Option.some.inj hstep
      · rename_i hm
        exact h.tryLock hm _ _
      · exact h
    · cases hstep
  | lock t =>
    simp only [RecursiveMutexSystem.step] at hstep
    split at hstep
    · obtain rfl := Option.some.inj hstep
      exact ⟨h.owned, h.locked⟩
    · cases hstep
  | lockStep t a =>
    simp only [RecursiveMutexSystem.step] at hstep
    split at hstep
    · cases hstep
    · obtain ⟨⟨m, sys, phase⟩, hlock, rfl⟩ := Option.map_eq_some_iff.mp hstep
      exact h.lockStep hlock
  | unlock t =>
    simp only [RecursiveMutexSystem.step] at hstep
    split at hstep
    · obtain ⟨⟨m, sys⟩, hm, rfl⟩ := Option.map_eq_some_iff.mp hstep
      exact h.unlock hm
    · cases hstep

omit [DecidableEq T] in
theorem canUnlock (h : Inv s) (ht : 0 < s.held t) : s.mutex.CanUnlock t := by
  have howner := (h.owned.owner_eq ht).1
  refine ⟨?_, howner⟩
  rw [h.locked, howner]
  rfl

end Inv

end RecursiveMutexSystem

/-! ## Mutual exclusion -/

section Exclusive

variable [DecidableEq T]

/-- In every state that an interleaving of calls gets to, at most one thread holds the mutex, the
mutex names it, a recursive mutex counts its locks, and the assertion of an allowed `Unlock`
holds. -/
theorem exclusive :
    (∀ s : MutexSystem T, Reaches MutexSystem.step MutexSystem.Balanced .boot s →
      (∀ t t', 0 < s.held t → 0 < s.held t' → t = t') ∧
      (∀ t, 0 < s.held t → s.mutex.holder = some t) ∧
      ∀ t, s.Balanced (.unlock t) → s.mutex.CanUnlock t) ∧
    ∀ s : RecursiveMutexSystem T,
      Reaches RecursiveMutexSystem.step RecursiveMutexSystem.Balanced .boot s →
      (∀ t t', 0 < s.held t → 0 < s.held t' → t = t') ∧
      (∀ t, 0 < s.held t → s.mutex.owner = some t ∧ s.mutex.depth = s.held t) ∧
      ∀ t, s.Balanced (.unlock t) → s.mutex.CanUnlock t := by
  constructor
  · intro s hs
    have h : s.Inv := hs.invariant MutexSystem.inv_boot fun _ _ _ h _ hstep => h.step hstep
    refine ⟨fun t t' ht ht' => ?_, fun t ht => (h.owned.owner_eq ht).1,
      fun t ht => h.canUnlock ht.2⟩
    exact Option.some.inj ((h.owned.owner_eq ht).1.symm.trans (h.owned.owner_eq ht').1)
  · intro s hs
    have h : s.Inv := hs.invariant RecursiveMutexSystem.inv_boot
      fun _ _ _ h _ hstep => h.step hstep
    refine ⟨fun t t' ht ht' => ?_, fun t ht => ?_, fun t ht => h.canUnlock ht.2⟩
    · exact Option.some.inj ((h.owned.owner_eq ht).1.symm.trans (h.owned.owner_eq ht').1)
    · obtain ⟨howner, hdepth⟩ := h.owned.owner_eq ht
      exact ⟨howner, hdepth.symm⟩

end Exclusive

/-- Two threads contend for the mutex; the one that has it locks a recursive one twice. -/
theorem exclusive_two_threads :
    (∃ s : MutexSystem Bool, Reaches MutexSystem.step MutexSystem.Balanced .boot s ∧
      s.phase true = some .awaiting ∧ s.mutex.holder = some false) ∧
    ∃ s : RecursiveMutexSystem Bool,
      Reaches RecursiveMutexSystem.step RecursiveMutexSystem.Balanced .boot s ∧
      s.held false = 2 ∧ s.mutex.depth = 2 := by
  constructor
  · have hrun : ∃ s, Reaches.runList MutexSystem.step MutexSystem.Balanced (.boot (T := Bool))
        [.lock false, .lock true, .lockStep false .tryLock, .lockStep true .tryLock,
          .lockStep true .tryLock, .lockStep true (.await .attach), .lockStep false .store] =
        some s ∧ s.phase true = some .awaiting ∧ 0 < s.held false :=
      ⟨_, rfl, rfl, by decide⟩
    obtain ⟨s, hs, hphase, hheld⟩ := hrun
    exact ⟨s, .of_list _ hs, hphase, (exclusive.1 s (.of_list _ hs)).2.1 false hheld⟩
  · have hrun : ∃ s, Reaches.runList RecursiveMutexSystem.step RecursiveMutexSystem.Balanced
        (.boot (T := Bool)) [.tryLock false, .lock false, .lockStep false .tryLock,
          .tryLock true, .tryLock false, .unlock false] = some s ∧ s.held false = 2 :=
      ⟨_, rfl, rfl⟩
    obtain ⟨s, hs, hheld⟩ := hrun
    have hdepth := ((exclusive.2 s (.of_list _ hs)).2.1 false (by omega)).2
    exact ⟨s, .of_list _ hs, hheld, hdepth.trans hheld⟩

end Cryptix.Locking
