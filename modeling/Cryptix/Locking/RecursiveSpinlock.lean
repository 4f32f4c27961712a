import Cryptix.Lib.Transition
import Mathlib.Logic.Function.Basic
import Mathlib.Tactic.Common

/-!
# The recursive spinlock

`Kernel/Library/Locking/RecursiveSpinlock.hpp` over `Spinlock.cpp`. No lock protects the members of
the spinlock itself, so every access to one of them is a step of its own, and the steps of the
threads interleave in any order. A thread may call `Release` whether it has the lock or not: the
assertion is part of the model.

`Thread.owns` says that a thread has taken the base spinlock and not given it back, `Thread.named`
that `m_Owner` names it. Both are read off the place of the thread in the code and off the number of
its locks, and the invariant (`Inv`) compares them with the members.
-/

namespace Cryptix.Locking

open Lib

variable {T : Type*}

/-! ## The code -/

structure Spinlock where
  locked : Bool
  savedInterruptState : Bool
  deriving DecidableEq, Repr

structure RecursiveSpinlock (T : Type*) where
  lock : Spinlock
  owner : Option T
  recursionCount : ℕ
  deriving DecidableEq, Repr

def RecursiveSpinlock.new : RecursiveSpinlock T := ⟨⟨false, false⟩, none, 0⟩

/-- The turns of the inner loop of `Spinlock::Acquire` after which it panics. -/
def deadLockLimit : ℕ := 100000000

/-- What a thread does next in `Acquire` and `Release`. The argument of the places of `Acquire` is
`disableInterrupts`, of those of `Release` `restoreInterrupts`; `counter` is `deadLockCounter`. -/
inductive SpinPhase
  | idle
  | guard (disableInterrupts : Bool)
  | unguard (saved : Bool)
  | checkOwner (disableInterrupts : Bool)
  | countUp
  | testAndAcquire (disableInterrupts : Bool) (counter : ℕ)
  | pause (disableInterrupts : Bool) (counter : ℕ)
  | swapInterrupts
  | setOwner
  | setCount
  | assertion (restoreInterrupts : Bool)
  | countDown (restoreInterrupts : Bool)
  | clearOwner (restoreInterrupts : Bool)
  | unlock (restoreInterrupts : Bool)
  | setInterrupts
  | clearSaved
  deriving DecidableEq, Repr

/-- A thread: the interrupt flag of the CPU it runs on, its place in the code, and the number of
times it has acquired the lock and not released it. -/
structure SpinThread where
  interrupts : Bool
  phase : SpinPhase
  held : ℕ
  deriving DecidableEq, Repr

namespace RecursiveSpinlock

variable [DecidableEq T]

/-- One step of the thread `t` inside of `Acquire` or `Release`; `none` when the kernel panics, and
for a thread that is in neither. -/
def run (l : RecursiveSpinlock T) (t : T) (th : SpinThread) :
    Option (RecursiveSpinlock T × SpinThread) :=
  match th.phase with
  | .idle => none
  -- the guard is a statement of its own, and its destructor runs at the end of it
  | .guard true => some (l, { th with interrupts := true, phase := .unguard th.interrupts })
  | .guard false => some (l, { th with phase := .checkOwner false })
  | .unguard saved => some (l, { th with interrupts := saved, phase := .checkOwner true })
  | .checkOwner d =>
    some (l, { th with phase := if l.owner = some t then .countUp else .testAndAcquire d 0 })
  | .countUp =>
    some ({ l with recursionCount := l.recursionCount + 1 },
      { th with phase := .idle, held := th.held + 1 })
  | .testAndAcquire d counter =>
    if l.lock.locked then some (l, { th with phase := .pause d counter })
    else some ({ l with lock.locked := true },
      { th with phase := if d then .swapInterrupts else .setOwner })
  | .pause d counter =>
    if l.lock.locked then
      if counter + 1 ≥ deadLockLimit then none
      else some (l, { th with phase := .pause d (counter + 1) })
    else some (l, { th with phase := .testAndAcquire d counter })
  | .swapInterrupts =>
    some ({ l with lock.savedInterruptState := th.interrupts },
      { th with interrupts := false, phase := .setOwner })
  | .setOwner => some ({ l with owner := some t }, { th with phase := .setCount })
  | .setCount => some ({ l with recursionCount := 1 }, { th with phase := .idle, held := 1 })
  | .assertion r =>
    if l.owner = some t ∧ 0 < l.recursionCount then some (l, { th with phase := .countDown r })
    else none
  | .countDown r =>
    some ({ l with recursionCount := l.recursionCount - 1 },
      { th with
        phase := if l.recursionCount - 1 = 0 then .clearOwner r else .idle
        held := th.held - 1 })
  | .clearOwner r => some ({ l with owner := none }, { th with phase := .unlock r })
  | .unlock r =>
    some ({ l with lock.locked := false },
      { th with phase := if r then .setInterrupts else .clearSaved })
  | .setInterrupts =>
    some (l, { th with interrupts := l.lock.savedInterruptState, phase := .clearSaved })
  | .clearSaved =>
    some ({ l with lock.savedInterruptState := false }, { th with phase := .idle })

end RecursiveSpinlock

/-- The lock and the threads that use it. -/
structure SpinSystem (T : Type*) where
  lock : RecursiveSpinlock T
  thread : T → SpinThread

/-- A call of `Acquire` or `Release`, or a step inside of one. -/
inductive SpinAction (T : Type*)
  | acquire (t : T) (disableInterrupts : Bool)
  | release (t : T) (restoreInterrupts : Bool)
  | run (t : T)
  deriving DecidableEq

namespace SpinSystem

def boot : SpinSystem T where
  lock := .new
  thread _ := ⟨true, .idle, 0⟩

variable [DecidableEq T]

/-- A thread goes to a place in the code. -/
def enter (s : SpinSystem T) (t : T) (phase : SpinPhase) : SpinSystem T :=
  { s with thread := Function.update s.thread t { s.thread t with phase } }

def step (s : SpinSystem T) : SpinAction T → Option (SpinSystem T)
  | .acquire t d => if (s.thread t).phase = .idle then some (s.enter t (.guard d)) else none
  | .release t r => if (s.thread t).phase = .idle then some (s.enter t (.assertion r)) else none
  | .run t =>
    (s.lock.run t (s.thread t)).map fun (lock, th) => ⟨lock, Function.update s.thread t th⟩

end SpinSystem

/-! ## Who has the lock -/

namespace SpinThread

/-- The thread has taken the base spinlock and not given it back. -/
def owns (th : SpinThread) : Prop :=
  match th.phase with
  | .swapInterrupts | .setOwner | .setCount | .clearOwner _ | .unlock _ => True
  | _ => 0 < th.held

/-- The thread has stored itself in `m_Owner` and not cleared it. -/
def named (th : SpinThread) : Prop :=
  match th.phase with
  | .setCount | .clearOwner _ => True
  | .swapInterrupts | .setOwner | .unlock _ => False
  | _ => 0 < th.held

/-- What the place of a thread says about its locks: it takes and gives back the base spinlock
without a lock, and counts up and down with one. -/
def Fits (th : SpinThread) : Prop :=
  match th.phase with
  | .testAndAcquire .. | .pause .. | .swapInterrupts | .setOwner | .setCount | .clearOwner _
  | .unlock _ | .setInterrupts | .clearSaved => th.held = 0
  | .countUp | .countDown _ => 0 < th.held
  | _ => True

theorem owns_of_named {th : SpinThread} (h : th.named) : th.owns := by
  rw [named.eq_def] at h
  rw [owns.eq_def]
  split at h <;> simp_all

theorem owns_of_held {th : SpinThread} (h : 0 < th.held) : th.owns := by
  rw [owns.eq_def]
  split <;> trivial

theorem named_of_held {th : SpinThread} (hfits : th.Fits) (h : 0 < th.held) : th.named := by
  rw [Fits.eq_def] at hfits
  rw [named.eq_def]
  split <;> simp_all

end SpinThread

namespace SpinSystem

open SpinThread

/-- The base spinlock is taken exactly while a thread owns it, at most one thread does, `m_Owner` is
the thread that is named, and the count is the number of its locks. -/
structure Inv (s : SpinSystem T) : Prop where
  locked : s.lock.lock.locked = true ↔ ∃ t, (s.thread t).owns
  unique : ∀ t t', (s.thread t).owns → (s.thread t').owns → t = t'
  owner : ∀ t, s.lock.owner = some t ↔ (s.thread t).named
  count : ∀ t, 0 < (s.thread t).held → s.lock.recursionCount = (s.thread t).held
  fits : ∀ t, (s.thread t).Fits

theorem inv_boot : Inv (boot (T := T)) where
  locked := by simp [boot, RecursiveSpinlock.new, owns]
  unique t t' h := by simp [boot, owns] at h
  owner t := by simp [boot, RecursiveSpinlock.new, named]
  count t h := by simp [boot] at h
  fits t := trivial

namespace Inv

variable [DecidableEq T] {s : SpinSystem T} {t : T} {th : SpinThread} {l : RecursiveSpinlock T}

omit [DecidableEq T] in
/-- A thread that owns the lock is the only one that holds a lock or is named. -/
theorem eq_of_owns (h : Inv s) (ht : (s.thread t).owns) {t' : T} (ht' : (s.thread t').owns) :
    t' = t :=
  h.unique t' t ht' ht

/-- The one lemma for all steps: what a step has to leave behind for its own thread `t`, and that it
changes the members the other threads rely on only if no other thread owns the lock. -/
theorem update (h : Inv s) (hfits : th.Fits)
    (hlocked : l.lock.locked = true ↔ th.owns ∨ ∃ t' ≠ t, (s.thread t').owns)
    (hunique : th.owns → ∀ t' ≠ t, ¬(s.thread t').owns)
    (howner : ∀ t', l.owner = some t' ↔ if t' = t then th.named else (s.thread t').named)
    (hcount : 0 < th.held → l.recursionCount = th.held)
    (hother : (∃ t' ≠ t, (s.thread t').owns) → l.recursionCount = s.lock.recursionCount) :
    Inv ⟨l, Function.update s.thread t th⟩ where
  locked := by
    rw [hlocked]
    constructor
    · rintro (hth | ⟨t', hne, ht'⟩)
      · exact ⟨t, by simpa using hth⟩
      · exact ⟨t', by simpa [Function.update_of_ne hne] using ht'⟩
    · rintro ⟨t', ht'⟩
      by_cases hne : t' = t
      · exact .inl (by simpa [hne] using ht')
      · exact .inr ⟨t', hne, by simpa [Function.update_of_ne hne] using ht'⟩
  unique t₁ t₂ h₁ h₂ := by
    by_cases hne₁ : t₁ = t <;> by_cases hne₂ : t₂ = t
    · exact hne₁.trans hne₂.symm
    · simp only [hne₁, Function.update_self, Function.update_of_ne hne₂] at h₁ h₂
      exact absurd h₂ (hunique h₁ t₂ hne₂)
    · simp only [hne₂, Function.update_self, Function.update_of_ne hne₁] at h₁ h₂
      exact absurd h₁ (hunique h₂ t₁ hne₁)
    · simp only [Function.update_of_ne hne₁, Function.update_of_ne hne₂] at h₁ h₂
      exact h.unique t₁ t₂ h₁ h₂
  owner t' := by
    rw [howner t']
    by_cases hne : t' = t
    · simp only [hne, if_true, Function.update_self]
    · simp only [hne, if_false, ne_eq, not_false_eq_true, Function.update_of_ne]
  count t' ht' := by
    by_cases hne : t' = t
    · simp only [hne, Function.update_self] at ht' ⊢
      exact hcount ht'
    · simp only [Function.update_of_ne hne] at ht' ⊢
      exact (hother ⟨t', hne, owns_of_held ht'⟩).trans (h.count t' ht')
  fits t' := by
    by_cases hne : t' = t
    · simpa [hne] using hfits
    · simpa [Function.update_of_ne hne] using h.fits t'

/-- A step that changes no member the invariant is about, and neither what the thread owns nor its
number of locks. -/
theorem quiet (h : Inv s) (hlock : l.lock.locked = s.lock.lock.locked)
    (howner : l.owner = s.lock.owner) (hcount : l.recursionCount = s.lock.recursionCount)
    (hfits : th.Fits) (howns : th.owns ↔ (s.thread t).owns)
    (hnamed : th.named ↔ (s.thread t).named) (hheld : th.held = (s.thread t).held) :
    Inv ⟨l, Function.update s.thread t th⟩ := by
  refine h.update hfits ?_ ?_ ?_ ?_ fun _ => hcount
  · rw [howns, hlock]
    refine h.locked.trans ⟨fun ⟨t', ht'⟩ => ?_, ?_⟩
    · by_cases hne : t' = t
      · exact .inl (hne ▸ ht')
      · exact .inr ⟨t', hne, ht'⟩
    · rintro (ht | ⟨t', -, ht'⟩)
      · exact ⟨t, ht⟩
      · exact ⟨t', ht'⟩
  · exact fun hth t' hne ht' => hne (h.eq_of_owns (howns.mp hth) ht')
  · intro t'
    rw [howner]
    refine (h.owner t').trans ?_
    by_cases hne : t' = t
    · rw [if_pos hne, hne, hnamed]
    · rw [if_neg hne]
  · intro hpos
    rw [hheld] at hpos ⊢
    exact hcount.trans (h.count t hpos)

omit [DecidableEq T] in
/-- While a thread owns the base spinlock, `m_Owner` is this thread or nobody. -/
theorem owner_iff (h : Inv s) (ht : (s.thread t).owns) (t' : T) :
    s.lock.owner = some t' ↔ t' = t ∧ (s.thread t).named := by
  rw [h.owner t']
  constructor
  · intro hnamed
    obtain rfl := h.eq_of_owns ht (owns_of_named hnamed)
    exact ⟨rfl, hnamed⟩
  · rintro ⟨rfl, hnamed⟩
    exact hnamed

/-- A step of the thread that owns the base spinlock. The other threads rely on nothing. -/
theorem ofOwner (h : Inv s) (ht : (s.thread t).owns) (hfits : th.Fits)
    (hlocked : l.lock.locked = true ↔ th.owns)
    (howner : ∀ t', l.owner = some t' ↔ t' = t ∧ th.named)
    (hcount : 0 < th.held → l.recursionCount = th.held) :
    Inv ⟨l, Function.update s.thread t th⟩ := by
  have hnone : ∀ t' ≠ t, ¬(s.thread t').owns := fun t' hne ht' => hne (h.eq_of_owns ht ht')
  refine h.update hfits ?_ (fun _ => hnone) ?_ hcount ?_
  · rw [hlocked]
    constructor
    · exact .inl
    · rintro (hth | ⟨t', hne, ht'⟩)
      · exact hth
      · exact absurd ht' (hnone t' hne)
  · intro t'
    rw [howner t']
    by_cases hne : t' = t
    · simp [hne]
    · have hnot : ¬(s.thread t').named := fun ht' => hnone t' hne (owns_of_named ht')
      simp [hne, hnot]
  · rintro ⟨t', hne, ht'⟩
    exact absurd ht' (hnone t' hne)

/-- The step that takes the base spinlock. -/
theorem take (h : Inv s) (hfree : ¬s.lock.lock.locked = true) (hheld : th.held = 0)
    (hfits : th.Fits) (howns : th.owns) (hnamed : ¬th.named) :
    Inv ⟨{ s.lock with lock.locked := true }, Function.update s.thread t th⟩ := by
  have hnone : ∀ t', ¬(s.thread t').owns := fun t' ht' => hfree (h.locked.mpr ⟨t', ht'⟩)
  refine h.update hfits ?_ (fun _ t' _ => hnone t') ?_ ?_ ?_
  · simp [howns]
  · intro t'
    have hnot : ¬(s.thread t').named := fun ht' => hnone t' (owns_of_named ht')
    rw [h.owner t']
    by_cases hne : t' = t
    · simp [hne, hnamed, hne ▸ hnot]
    · rw [if_neg hne]
  · intro hpos
    exact absurd hheld (Nat.ne_of_gt hpos)
  · rintro ⟨t', -, ht'⟩
    exact absurd ht' (hnone t')

/-- A thread finds itself in `m_Owner` exactly when it holds a lock. -/
theorem checkOwner (h : Inv s) {d : Bool} (hphase : (s.thread t).phase = .checkOwner d) :
    Inv ⟨s.lock, Function.update s.thread t { s.thread t with
      phase := if s.lock.owner = some t then .countUp else .testAndAcquire d 0 }⟩ := by
  have hnamed := h.owner t
  simp only [named, hphase] at hnamed
  by_cases howner : s.lock.owner = some t
  · have hpos := hnamed.mp howner
    rw [if_pos howner]
    exact h.quiet rfl rfl rfl hpos (by simp [owns, hphase]) (by simp [named, hphase]) rfl
  · have hzero : (s.thread t).held = 0 := Nat.eq_zero_of_not_pos fun hpos =>
      howner (hnamed.mpr hpos)
    rw [if_neg howner]
    exact h.quiet rfl rfl rfl hzero (by simp [owns, hphase]) (by simp [named, hphase]) rfl

theorem countUp (h : Inv s) (hphase : (s.thread t).phase = .countUp) :
    Inv ⟨{ s.lock with recursionCount := s.lock.recursionCount + 1 },
      Function.update s.thread t
        { s.thread t with phase := .idle, held := (s.thread t).held + 1 }⟩ := by
  have hheld := h.fits t
  simp only [Fits, hphase] at hheld
  have ht : (s.thread t).owns := owns_of_held hheld
  refine h.ofOwner ht trivial ?_ ?_ fun _ => ?_
  · simpa [owns] using h.locked.mpr ⟨t, ht⟩
  · intro t'
    simp [h.owner_iff ht, named, hphase, hheld]
  · rw [h.count t hheld]

theorem setOwner (h : Inv s) (hphase : (s.thread t).phase = .setOwner) :
    Inv ⟨{ s.lock with owner := some t },
      Function.update s.thread t { s.thread t with phase := .setCount }⟩ := by
  have hheld := h.fits t
  simp only [Fits, hphase] at hheld
  have ht : (s.thread t).owns := by simp [owns, hphase]
  refine h.ofOwner ht hheld ?_ ?_ fun hpos => absurd hheld (Nat.ne_of_gt hpos)
  · simpa [owns] using h.locked.mpr ⟨t, ht⟩
  · intro t'
    simp [named, eq_comm]

theorem setCount (h : Inv s) (hphase : (s.thread t).phase = .setCount) :
    Inv ⟨{ s.lock with recursionCount := 1 },
      Function.update s.thread t { s.thread t with phase := .idle, held := 1 }⟩ := by
  have ht : (s.thread t).owns := by simp [owns, hphase]
  refine h.ofOwner ht trivial ?_ ?_ fun _ => rfl
  · simpa [owns] using h.locked.mpr ⟨t, ht⟩
  · intro t'
    simp [h.owner_iff ht, named, hphase]

/-- The last `Release` of a thread goes on to clear `m_Owner`; the ones before it return. -/
theorem countDown (h : Inv s) {r : Bool} (hphase : (s.thread t).phase = .countDown r) :
    Inv ⟨{ s.lock with recursionCount := s.lock.recursionCount - 1 },
      Function.update s.thread t { s.thread t with
        phase := if s.lock.recursionCount - 1 = 0 then .clearOwner r else .idle
        held := (s.thread t).held - 1 }⟩ := by
  have hheld := h.fits t
  simp only [Fits, hphase] at hheld
  have ht : (s.thread t).owns := owns_of_held hheld
  have hcount := h.count t hheld
  have hlocked := h.locked.mpr ⟨t, ht⟩
  by_cases hlast : s.lock.recursionCount - 1 = 0
  · have hzero : (s.thread t).held - 1 = 0 := hcount ▸ hlast
    rw [if_pos hlast]
    refine h.ofOwner ht hzero ?_ ?_ fun hpos => absurd hzero (Nat.ne_of_gt hpos)
    · simp [owns, hlocked]
    · intro t'
      simp [h.owner_iff ht, named, hphase, hheld]
  · have hpos : 0 < (s.thread t).held - 1 := Nat.pos_of_ne_zero (hcount ▸ hlast)
    rw [if_neg hlast]
    refine h.ofOwner ht trivial ?_ ?_ fun _ => ?_
    · simp [owns, hlocked, hpos]
    · intro t'
      simp [h.owner_iff ht, named, hphase, hheld, hpos]
    · rw [hcount]

theorem clearOwner (h : Inv s) {r : Bool} (hphase : (s.thread t).phase = .clearOwner r) :
    Inv ⟨{ s.lock with owner := none },
      Function.update s.thread t { s.thread t with phase := .unlock r }⟩ := by
  have hheld := h.fits t
  simp only [Fits, hphase] at hheld
  have ht : (s.thread t).owns := by simp [owns, hphase]
  refine h.ofOwner ht hheld ?_ ?_ fun hpos => absurd hheld (Nat.ne_of_gt hpos)
  · simpa [owns] using h.locked.mpr ⟨t, ht⟩
  · intro t'
    simp [named]

/-- The thread gives the base spinlock back. -/
theorem unlock (h : Inv s) {r : Bool} (hphase : (s.thread t).phase = .unlock r) :
    Inv ⟨{ s.lock with lock.locked := false }, Function.update s.thread t
      { s.thread t with phase := if r then .setInterrupts else .clearSaved }⟩ := by
  have hheld := h.fits t
  simp only [Fits, hphase] at hheld
  have ht : (s.thread t).owns := by simp [owns, hphase]
  refine h.ofOwner ht ?_ ?_ ?_ fun hpos => absurd hheld (Nat.ne_of_gt hpos)
  · cases r <;> exact hheld
  · cases r <;> simp [owns, hheld]
  · intro t'
    cases r <;> simp [h.owner_iff ht, named, hphase, hheld]

/-- Every step inside of `Acquire` and `Release`. -/
theorem run (h : Inv s) (hrun : s.lock.run t (s.thread t) = some (l, th)) :
    Inv ⟨l, Function.update s.thread t th⟩ := by
  have hfits := h.fits t
  cases hphase : (s.thread t).phase with
  | idle => simp [RecursiveSpinlock.run, hphase] at hrun
  | guard d =>
    cases d <;>
    · simp only [RecursiveSpinlock.run, hphase, Option.some.injEq, Prod.mk.injEq] at hrun
      obtain ⟨rfl, rfl⟩ := hrun
      exact h.quiet rfl rfl rfl trivial (by simp [owns, hphase]) (by simp [named, hphase]) rfl
  | unguard saved =>
    simp only [RecursiveSpinlock.run, hphase, Option.some.injEq, Prod.mk.injEq] at hrun
    obtain ⟨rfl, rfl⟩ := hrun
    exact h.quiet rfl rfl rfl trivial (by simp [owns, hphase]) (by simp [named, hphase]) rfl
  | checkOwner d =>
    simp only [RecursiveSpinlock.run, hphase, Option.some.injEq, Prod.mk.injEq] at hrun
    obtain ⟨rfl, rfl⟩ := hrun
    exact h.checkOwner hphase
  | countUp =>
    simp only [RecursiveSpinlock.run, hphase, Option.some.injEq, Prod.mk.injEq] at hrun
    obtain ⟨rfl, rfl⟩ := hrun
    exact h.countUp hphase
  | testAndAcquire d counter =>
    simp only [Fits, hphase] at hfits
    simp only [RecursiveSpinlock.run, hphase] at hrun
    split at hrun <;> obtain ⟨rfl, rfl⟩ := by simpa using hrun
    · exact h.quiet rfl rfl rfl hfits (by simp [owns, hphase]) (by simp [named, hphase]) rfl
    · rename_i hfree
      cases d <;> exact h.take hfree hfits hfits trivial not_false
  | pause d counter =>
    simp only [Fits, hphase] at hfits
    simp only [RecursiveSpinlock.run, hphase] at hrun
    -- the thread spins on, or it panics, or it tries again
    split at hrun
    · split at hrun
      · cases hrun
      · obtain ⟨rfl, rfl⟩ := by simpa using hrun
        exact h.quiet rfl rfl rfl hfits (by simp [owns, hphase]) (by simp [named, hphase]) rfl
    · obtain ⟨rfl, rfl⟩ := by simpa using hrun
      exact h.quiet rfl rfl rfl hfits (by simp [owns, hphase]) (by simp [named, hphase]) rfl
  | swapInterrupts =>
    simp only [Fits, hphase] at hfits
    simp only [RecursiveSpinlock.run, hphase, Option.some.injEq, Prod.mk.injEq] at hrun
    obtain ⟨rfl, rfl⟩ := hrun
    exact h.quiet rfl rfl rfl hfits (by simp [owns, hphase]) (by simp [named, hphase]) rfl
  | setOwner =>
    simp only [RecursiveSpinlock.run, hphase, Option.some.injEq, Prod.mk.injEq] at hrun
    obtain ⟨rfl, rfl⟩ := hrun
    exact h.setOwner hphase
  | setCount =>
    simp only [RecursiveSpinlock.run, hphase, Option.some.injEq, Prod.mk.injEq] at hrun
    obtain ⟨rfl, rfl⟩ := hrun
    exact h.setCount hphase
  | assertion r =>
    have hnamed := h.owner t
    simp only [named, hphase] at hnamed
    simp only [RecursiveSpinlock.run, hphase] at hrun
    split at hrun
    · rename_i hassert
      obtain ⟨rfl, rfl⟩ := by simpa using hrun
      have hpos := hnamed.mp hassert.1
      exact h.quiet rfl rfl rfl hpos (by simp [owns, hphase]) (by simp [named, hphase]) rfl
    · cases hrun
  | countDown r =>
    simp only [RecursiveSpinlock.run, hphase, Option.some.injEq, Prod.mk.injEq] at hrun
    obtain ⟨rfl, rfl⟩ := hrun
    exact h.countDown hphase
  | clearOwner r =>
    simp only [RecursiveSpinlock.run, hphase, Option.some.injEq, Prod.mk.injEq] at hrun
    obtain ⟨rfl, rfl⟩ := hrun
    exact h.clearOwner hphase
  | unlock r =>
    simp only [RecursiveSpinlock.run, hphase, Option.some.injEq, Prod.mk.injEq] at hrun
    obtain ⟨rfl, rfl⟩ := hrun
    exact h.unlock hphase
  | setInterrupts =>
    simp only [Fits, hphase] at hfits
    simp only [RecursiveSpinlock.run, hphase, Option.some.injEq, Prod.mk.injEq] at hrun
    obtain ⟨rfl, rfl⟩ := hrun
    exact h.quiet rfl rfl rfl hfits (by simp [owns, hphase]) (by simp [named, hphase]) rfl
  | clearSaved =>
    simp only [RecursiveSpinlock.run, hphase, Option.some.injEq, Prod.mk.injEq] at hrun
    obtain ⟨rfl, rfl⟩ := hrun
    exact h.quiet rfl rfl rfl trivial (by simp [owns, hphase]) (by simp [named, hphase]) rfl

/-- A thread that is in no call begins one. -/
theorem enter (h : Inv s) (hidle : (s.thread t).phase = .idle) {phase : SpinPhase}
    (hphase : (∃ d, phase = .guard d) ∨ ∃ r, phase = .assertion r) :
    Inv (s.enter t phase) := by
  rcases hphase with ⟨d, rfl⟩ | ⟨r, rfl⟩ <;>
    exact h.quiet rfl rfl rfl (by trivial) (by simp [owns, hidle]) (by simp [named, hidle]) rfl

theorem step (h : Inv s) {a : SpinAction T} {s' : SpinSystem T} (hstep : s.step a = some s') :
    Inv s' := by
  cases a with
  | acquire t d =>
    simp only [SpinSystem.step] at hstep
    split at hstep
    · rename_i hidle
      obtain rfl := Option.some.inj hstep
      exact h.enter hidle (.inl ⟨d, rfl⟩)
    · cases hstep
  | release t r =>
    simp only [SpinSystem.step] at hstep
    split at hstep
    · rename_i hidle
      obtain rfl := Option.some.inj hstep
      exact h.enter hidle (.inr ⟨r, rfl⟩)
    · cases hstep
  | run t =>
    obtain ⟨⟨l, th⟩, hrun, rfl⟩ := Option.map_eq_some_iff.mp hstep
    exact h.run hrun

end Inv

end SpinSystem

/-! ## Mutual exclusion -/

/-- A thread that is in the loop of `Spinlock::Acquire`. -/
def SpinThread.spins (th : SpinThread) : Prop :=
  match th.phase with
  | .testAndAcquire .. | .pause .. => True
  | _ => False

/-- In every interleaving of the accesses that any number of threads make in `Acquire` and
`Release`, at most one thread holds a lock; while it does, `m_Owner` names it, the count is the
number of its locks, and it does not spin in a further `Acquire`; its `Release` passes the
assertion, and that of every other thread fails. The base spinlock is taken only while a thread
is on its way in, inside, or on its way out. -/
theorem recursive_exclusive [DecidableEq T] (s : SpinSystem T)
    (hs : Reaches SpinSystem.step anyCall .boot s) :
    (∀ t t', 0 < (s.thread t).held → 0 < (s.thread t').held → t = t') ∧
      (∀ t, 0 < (s.thread t).held → s.lock.lock.locked = true ∧ s.lock.owner = some t ∧
        s.lock.recursionCount = (s.thread t).held ∧ ¬(s.thread t).spins) ∧
      (∀ t r, (s.thread t).phase = .assertion r →
        ((s.step (.run t)).isSome ↔ 0 < (s.thread t).held)) ∧
      (s.lock.lock.locked = true ↔ ∃ t, (s.thread t).owns) := by
  have h : s.Inv := hs.invariant SpinSystem.inv_boot fun _ _ _ h _ hstep => h.step hstep
  refine ⟨fun t t' ht ht' => ?_, fun t ht => ?_, fun t r hphase => ?_, h.locked⟩
  · exact h.unique t t' (SpinThread.owns_of_held ht) (SpinThread.owns_of_held ht')
  · have hfits := h.fits t
    refine ⟨h.locked.mpr ⟨t, SpinThread.owns_of_held ht⟩,
      (h.owner t).mpr (SpinThread.named_of_held hfits ht), h.count t ht, fun hspins => ?_⟩
    rw [SpinThread.spins.eq_def] at hspins
    split at hspins <;> simp_all [SpinThread.Fits]
  · have howner := h.owner t
    simp only [SpinThread.named, hphase] at howner
    rw [SpinSystem.step, RecursiveSpinlock.run.eq_def, Option.isSome_map, hphase]
    constructor
    · intro hsome
      by_contra hnot
      simp [howner, hnot] at hsome
    · intro hpos
      have hcount : 0 < s.lock.recursionCount := (h.count t hpos).symm ▸ hpos
      simp [howner, hpos, hcount]

/-- One thread acquires the lock twice while another one spins. -/
theorem recursive_exclusive_two_threads :
    ∃ s : SpinSystem Bool, Reaches SpinSystem.step anyCall .boot s ∧ (s.thread true).spins ∧
      (s.thread false).held = 2 ∧ s.lock.owner = some false ∧ s.lock.recursionCount = 2 := by
  have hrun : ∃ s, Reaches.runList SpinSystem.step anyCall (.boot (T := Bool))
      [.acquire false true, .acquire true false, .run false, .run true, .run false, .run true,
        .run false, .run false, .run true, .run false, .run false, .run false, .run true,
        .acquire false false, .run false, .run false, .run false] = some s ∧
        (s.thread true).spins ∧ (s.thread false).held = 2 :=
    ⟨_, rfl, trivial, rfl⟩
  obtain ⟨s, hs, hspins, hheld⟩ := hrun
  have hs := Reaches.of_list _ hs
  obtain ⟨-, hholder, -, -⟩ := recursive_exclusive s hs
  obtain ⟨-, howner, hcount, -⟩ := hholder false (by omega)
  exact ⟨s, hs, hspins, hheld, howner, hcount.trans hheld⟩

end Cryptix.Locking
