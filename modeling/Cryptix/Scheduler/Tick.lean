import Mathlib.Data.List.Nodup
import Mathlib.Logic.Function.Basic
import Cryptix.Scheduler.RunQueue
import Cryptix.Scheduler.Signals

/-!
# A tick of the scheduler

`Scheduler::Tick` in `Kernel/Scheduler/Scheduler.cpp`, from the queues to the process of the thread
that runs next: without preemption no thread is picked, and the null pointer is dereferenced for the
quantum; `SwitchContext` deletes the process of a dead current thread, and the quantum is read after
that. The thread that the loop of `PickReadyThread` comes to has the first of its pending signals
dispatched, and a signal that ends its process calls `Process::Exit`, which does not return.

The loop of `PickReadyThread` goes through the queue. It stops at a thread that is ready, or at one
whose process it deletes; the others it puts at the end of the queue, the running ones made ready,
or into the blocked queue. `pick_cases` says where that ends: at a thread, at an empty queue, or
nowhere. `ticksSafely_iff` says when a tick does its work.
-/

namespace Cryptix.Scheduler

variable {T P : Type*}

namespace RunQueue

variable [DecidableEq T]

/-! ## The loop of `PickReadyThread` -/

/-- The loop stops at the thread. -/
def Stops (s : RunQueue T) (t : T) : Prop :=
  s.state t = .ready ∨ (s.state t).IsDead ∧ s.parentDead t = true

instance (s : RunQueue T) (t : T) : Decidable (s.Stops t) := inferInstanceAs (Decidable (_ ∨ _))

/-- The thread that the loop comes to: the first one at which it stops, or the first running one,
which it has made ready when it comes back to it. -/
def Picks (s : RunQueue T) (t : T) : Prop :=
  (s.execution.find? (fun x => s.Stops x) = some t ∧ s.state t = .ready) ∨
    ((∀ x ∈ s.execution, ¬s.Stops x) ∧
      s.execution.find? (fun x => s.state x = .running) = some t)

/-- The queues after the first thread has been taken. -/
def next (s : RunQueue T) (t : T) (e : List T) : RunQueue T :=
  { s with execution := e, isEnqueued := Function.update s.isEnqueued t false }

/-- The queues after a turn that goes on. -/
def pass (s : RunQueue T) (t : T) (e : List T) : RunQueue T :=
  if s.state t = .blocked then { s.next t e with blocked := s.blocked ++ [t] }
  else if s.state t = .running then ((s.next t e).pushBack t).setState t .ready
  else (s.next t e).pushBack t

/-- What the threads `l` that the loop has passed leave behind. -/
structure Passed (s s' : RunQueue T) (l : List T) : Prop where
  nodup : (s'.execution ++ s'.blocked).Nodup
  state : ∀ x, s'.state x = if x ∈ l ∧ s.state x = .running then .ready else s.state x
  linked : ∀ x, s'.Linked x ↔ s.Linked x
  current : s'.current = s.current
  idle : s'.idle = s.idle
  parentDead : s'.parentDead = s.parentDead

/-- What the loop leaves behind when it returns the thread `t`. -/
structure PickedFrom (s s' : RunQueue T) (t : T) : Prop where
  ready : s'.state t = .ready
  dead : ∀ x, (s'.state x).IsDead ↔ (s.state x).IsDead
  linked : ∀ x, x ≠ t → (s'.Linked x ↔ s.Linked x)
  current : s'.current = s.current
  idle : s'.idle = s.idle
  parentDead : s'.parentDead = s.parentDead

variable {s s' s₁ : RunQueue T} {t : T} {e l l' : List T}

theorem getNextThread_cons (he : s.execution = t :: e) (h : (s.execution ++ s.blocked).Nodup) :
    s.getNextThread = .ok (some t, s.next t e) ∧ ¬(s.next t e).Linked t := by
  rw [he, List.cons_append, List.nodup_cons] at h
  refine ⟨?_, h.1⟩
  rw [getNextThread, he]
  exact if_neg h.1

theorem pickLoop_ready (he : s.execution = t :: e) (h : (s.execution ++ s.blocked).Nodup)
    (ht : s.state t = .ready) (n : ℕ) : s.pickLoop (n + 1) = .ok (some t, s.next t e) := by
  rw [pickLoop, (getNextThread_cons he h).1]
  exact if_pos ht

theorem pickLoop_dead (he : s.execution = t :: e) (h : (s.execution ++ s.blocked).Nodup)
    (ht : s.Stops t) (hne : s.state t ≠ .ready) (n : ℕ) :
    s.pickLoop (n + 1) = .error .noReturn := by
  rw [pickLoop, (getNextThread_cons he h).1]
  exact (if_neg hne).trans (if_pos (ht.resolve_left hne))

theorem pickLoop_pass (he : s.execution = t :: e) (h : (s.execution ++ s.blocked).Nodup)
    (ht : ¬s.Stops t) (n : ℕ) : s.pickLoop (n + 1) = (s.pass t e).pickLoop n := by
  obtain ⟨hready, hdead⟩ := not_or.mp ht
  obtain ⟨hnext, hnot⟩ := getNextThread_cons he h
  rw [pickLoop, hnext]
  refine (if_neg hready).trans ((if_neg hdead).trans ?_)
  rw [pass]
  by_cases hblocked : s.state t = .blocked
  · rw [if_pos hblocked]
    exact if_pos hblocked
  · rw [if_neg hblocked]
    refine (if_neg hblocked).trans ?_
    rw [enqueueNotReady, if_neg hnot]
    by_cases hrunning : s.state t = .running
    · rw [if_pos hrunning, if_pos (show (s.next t e).state t = .running from hrunning)]
    · rw [if_neg hrunning, if_neg (show (s.next t e).state t ≠ .running from hrunning)]

theorem passed_pass (he : s.execution = t :: e) (h : (s.execution ++ s.blocked).Nodup) :
    Passed s (s.pass t e) [t] ∧
      (s.pass t e).execution = e ++ [t].filter (fun x => s.state x ≠ .blocked) := by
  have hperm₁ : (t :: (e ++ s.blocked)).Perm (e ++ (s.blocked ++ [t])) := by
    rw [← List.append_assoc]
    exact (List.perm_append_singleton t _).symm
  have hperm₂ : (t :: (e ++ s.blocked)).Perm (e ++ [t] ++ s.blocked) := by
    rw [List.append_assoc]
    exact List.perm_middle.symm
  have hmem (x : T) : s.Linked x ↔ x ∈ t :: (e ++ s.blocked) := by
    rw [Linked, he, List.cons_append]
  rw [he, List.cons_append] at h
  rw [pass]
  by_cases hblocked : s.state t = .blocked
  · rw [if_pos hblocked]
    refine ⟨⟨hperm₁.nodup_iff.mp h, fun x => ?_, fun x => ?_, rfl, rfl, rfl⟩, ?_⟩
    · refine (if_neg ?_).symm
      rintro ⟨hx, hrunning⟩
      rw [List.mem_singleton.mp hx, hblocked] at hrunning
      cases hrunning
    · exact (hperm₁.mem_iff.symm).trans (hmem x).symm
    · simp [next, hblocked]
  · rw [if_neg hblocked]
    by_cases hrunning : s.state t = .running
    · rw [if_pos hrunning]
      refine ⟨⟨hperm₂.nodup_iff.mp h, fun x => ?_, fun x => ?_, rfl, rfl, rfl⟩, ?_⟩
      · by_cases hx : x = t
        · simp [setState, hx, hrunning]
        · simp [setState, pushBack, next, hx]
      · exact (hperm₂.mem_iff.symm).trans (hmem x).symm
      · simp [setState, pushBack, next, hblocked]
    · rw [if_neg hrunning]
      refine ⟨⟨hperm₂.nodup_iff.mp h, fun x => ?_, fun x => ?_, rfl, rfl, rfl⟩, ?_⟩
      · refine (if_neg ?_).symm
        rintro ⟨hx, hx'⟩
        exact hrunning (List.mem_singleton.mp hx ▸ hx')
      · exact (hperm₂.mem_iff.symm).trans (hmem x).symm
      · simp [pushBack, next, hblocked]

theorem Passed.trans (h : Passed s s₁ l) (h' : Passed s₁ s' l') : Passed s s' (l ++ l') where
  nodup := h'.nodup
  state x := by
    rw [h'.state, h.state]
    by_cases hl : x ∈ l <;> by_cases hrunning : s.state x = .running <;> simp [hl, hrunning]
  linked x := (h'.linked x).trans (h.linked x)
  current := h'.current.trans h.current
  idle := h'.idle.trans h.idle
  parentDead := h'.parentDead.trans h.parentDead

omit [DecidableEq T] in
theorem stops_congr (hstate : s'.state t = s.state t) (hparent : s'.parentDead = s.parentDead) :
    s'.Stops t ↔ s.Stops t := by
  rw [Stops, Stops, hstate, hparent]

/-- The loop passes threads at which it does not stop. -/
theorem pickLoop_append (l : List T) : ∀ {s : RunQueue T} {back : List T},
    s.execution = l ++ back → (s.execution ++ s.blocked).Nodup → (∀ x ∈ l, ¬s.Stops x) →
    ∃ s', (∀ n, s.pickLoop (l.length + n) = s'.pickLoop n) ∧ Passed s s' l ∧
      s'.execution = back ++ l.filter (fun x => s.state x ≠ .blocked) := by
  induction l with
  | nil =>
    intro s back he h _
    refine ⟨s, fun n => by rw [List.length_nil, Nat.zero_add], ⟨h, ?_, ?_, rfl, rfl, rfl⟩, ?_⟩
    · simp
    · simp
    · simpa using he
  | cons t l ih =>
    intro s back he h hstops
    have he' : s.execution = t :: (l ++ back) := he
    obtain ⟨hpassed, hexec⟩ := passed_pass he' h
    -- the state of the others is as it was
    have hmem : ∀ x ∈ l, x ≠ t := by
      rintro x hx rfl
      rw [he', List.cons_append, List.nodup_cons] at h
      exact h.1 (List.mem_append_left _ (List.mem_append_left _ hx))
    have hstate : ∀ x ∈ l, (s.pass t (l ++ back)).state x = s.state x := by
      intro x hx
      rw [hpassed.state]
      refine if_neg ?_
      rintro ⟨hxt, -⟩
      exact hmem x hx (List.mem_singleton.mp hxt)
    rw [List.append_assoc] at hexec
    obtain ⟨s', hloop, hrest, hexec'⟩ := ih hexec hpassed.nodup fun x hx hx' =>
      hstops x (List.mem_cons_of_mem _ hx)
        ((stops_congr (hstate x hx) hpassed.parentDead).mp hx')
    refine ⟨s', fun n => ?_, hpassed.trans hrest, ?_⟩
    · rw [List.length_cons, Nat.add_right_comm, pickLoop_pass he' h (hstops t List.mem_cons_self)]
      exact hloop n
    · have hfilter : l.filter (fun x => (s.pass t (l ++ back)).state x ≠ .blocked) =
          l.filter (fun x => s.state x ≠ .blocked) :=
        List.filter_congr fun x hx => by rw [hstate x hx]
      rw [hexec', hfilter, List.append_assoc, ← List.filter_append, List.singleton_append]

/-- More turns do not change what the loop returns. -/
theorem pickLoop_mono : ∀ (n k : ℕ) {s : RunQueue T} {r : Option T × RunQueue T},
    s.pickLoop n = .ok r → s.pickLoop (n + k) = .ok r := by
  intro n k
  induction n with
  | zero =>
    intro s r h
    cases h
  | succ n ih =>
    intro s r h
    rw [Nat.add_right_comm]
    rw [pickLoop] at h ⊢
    split at h
    · cases h
    · exact h
    · split
      · rwa [if_pos ‹_›] at h
      · rw [if_neg ‹_›] at h
        split
        · rwa [if_pos ‹_›] at h
        · rw [if_neg ‹_›] at h
          split
          · rw [if_pos ‹_›] at h
            exact ih h
          · rw [if_neg ‹_›] at h
            split at h
            · cases h
            · exact ih h

theorem pickLoop_unique {m n : ℕ} {r r' : Option T × RunQueue T} (h : s.pickLoop m = .ok r)
    (h' : s.pickLoop n = .ok r') : r = r' := by
  have hm := pickLoop_mono m n h
  have hn := pickLoop_mono n m h'
  rw [Nat.add_comm] at hn
  exact Except.ok.inj (hm.symm.trans hn)

theorem Passed.pickedFrom (h : Passed s s₁ l) (h' : PickedFrom s₁ s' t) : PickedFrom s s' t where
  ready := h'.ready
  dead x := by
    rw [h'.dead, h.state]
    split
    · rename_i hx
      rw [hx.2]
      simp [ThreadState.IsDead]
    · exact Iff.rfl
  linked x hx := (h'.linked x hx).trans (h.linked x)
  current := h'.current.trans h.current
  idle := h'.idle.trans h.idle
  parentDead := h'.parentDead.trans h.parentDead

/-- The loop comes to a ready thread behind threads at which it does not stop. -/
theorem pickLoop_of_append (he : s.execution = l ++ t :: e) (h : (s.execution ++ s.blocked).Nodup)
    (hl : ∀ x ∈ l, ¬s.Stops x) (ht : s.state t = .ready) :
    ∃ n s', s.pickLoop n = .ok (some t, s') ∧ PickedFrom s s' t := by
  obtain ⟨s₁, hloop, hpassed, hexec⟩ := pickLoop_append l he h hl
  rw [List.cons_append] at hexec
  have ht₁ : s₁.state t = .ready := by
    rw [hpassed.state, ht]
    simp
  refine ⟨l.length + 1, _, (hloop 1).trans (pickLoop_ready hexec hpassed.nodup ht₁ 0),
    hpassed.pickedFrom ⟨ht₁, fun _ => Iff.rfl, fun x hx => ?_, rfl, rfl, rfl⟩⟩
  rw [Linked, Linked, hexec, List.cons_append, List.mem_cons]
  exact (or_iff_right hx).symm

theorem exists_pickLoop (h : (s.execution ++ s.blocked).Nodup) (ht : s.Picks t) :
    ∃ n s', s.pickLoop n = .ok (some t, s') ∧ PickedFrom s s' t := by
  rcases ht with ⟨hfind, hready⟩ | ⟨hstops, hfind⟩
  · obtain ⟨-, l, e, he, hl⟩ := List.find?_eq_some_iff_append.mp hfind
    exact pickLoop_of_append he h (fun x hx => by simpa using hl x hx) hready
  · -- all threads are passed, and the first running one is ready afterwards
    obtain ⟨hrunning, l, e, he, hl⟩ := List.find?_eq_some_iff_append.mp hfind
    rw [decide_eq_true_iff] at hrunning
    have hl' : ∀ x ∈ l, s.state x ≠ .running := fun x hx => by simpa using hl x hx
    obtain ⟨s₁, hloop, hpassed, hexec⟩ :=
      pickLoop_append s.execution (List.append_nil _).symm h hstops
    have hblocked : s.state t ≠ .blocked := by
      rw [hrunning]
      decide
    rw [List.nil_append, he, List.filter_append,
      List.filter_cons_of_pos (by simpa using hblocked)] at hexec
    have hmem : t ∈ s.execution := by
      rw [he]
      exact List.mem_append_right _ List.mem_cons_self
    have ht₁ : s₁.state t = .ready := by
      rw [hpassed.state]
      exact if_pos ⟨hmem, hrunning⟩
    have hl₁ : ∀ x ∈ l.filter (fun x => s.state x ≠ .blocked), ¬s₁.Stops x := by
      intro x hx hx'
      have hx := (List.mem_filter.mp hx).1
      have hsame : s₁.state x = s.state x := by
        rw [hpassed.state]
        exact if_neg fun hrunning' => hl' x hx hrunning'.2
      refine hstops x ?_ ((stops_congr hsame hpassed.parentDead).mp hx')
      rw [he]
      exact List.mem_append_left _ hx
    obtain ⟨n, s', hs', hpicked⟩ := pickLoop_of_append hexec hpassed.nodup hl₁ ht₁
    exact ⟨s.execution.length + n, s', (hloop n).trans hs', hpassed.pickedFrom hpicked⟩

/-- Threads that are neither ready nor running nor blocked go round forever. -/
theorem pickLoop_endless (n : ℕ) : ∀ {s : RunQueue T}, (s.execution ++ s.blocked).Nodup →
    (∀ x ∈ s.execution, ¬s.Stops x ∧ s.state x ≠ .running) →
    (∃ x ∈ s.execution, s.state x ≠ .blocked) → s.pickLoop n = .error .noReturn := by
  induction n with
  | zero =>
    intro s _ _ _
    rfl
  | succ n ih =>
    intro s h hpass hround
    obtain ⟨y, hy, hy'⟩ := hround
    obtain ⟨t, e, he⟩ := List.exists_cons_of_ne_nil (List.ne_nil_of_mem hy)
    have ht : t ∈ s.execution := by
      rw [he]
      exact List.mem_cons_self
    obtain ⟨hpassed, hexec⟩ := passed_pass he h
    have hstate (x : T) : (s.pass t e).state x = s.state x := by
      rw [hpassed.state]
      refine if_neg ?_
      rintro ⟨hx, hrunning⟩
      rw [List.mem_singleton.mp hx] at hrunning
      exact (hpass t ht).2 hrunning
    rw [pickLoop_pass he h (hpass t ht).1]
    apply ih hpassed.nodup
    · intro x hx
      rw [hstate, stops_congr (hstate x) hpassed.parentDead]
      apply hpass
      rw [hexec] at hx
      rw [he, List.mem_cons]
      rcases List.mem_append.mp hx with hx | hx
      · exact .inr hx
      · exact .inl (List.mem_singleton.mp (List.mem_filter.mp hx).1)
    · refine ⟨y, ?_, by rwa [hstate]⟩
      rw [hexec]
      rw [he, List.mem_cons] at hy
      rcases hy with rfl | hy
      · exact List.mem_append_right _ (by simpa using hy')
      · exact List.mem_append_left _ hy

/-- Where the loop ends: at a thread, with nobody to run, or nowhere. -/
theorem pick_cases (h : (s.execution ++ s.blocked).Nodup) :
    (∃ t, s.Picks t) ∨ (∀ t ∈ s.execution, s.state t = .blocked) ∨
      ∀ n r, s.pickLoop n ≠ .ok r := by
  cases hstops : s.execution.find? (fun x => s.Stops x) with
  | some t =>
    by_cases hready : s.state t = .ready
    · exact .inl ⟨t, .inl ⟨hstops, hready⟩⟩
    · obtain ⟨ht, l, e, he, hl⟩ := List.find?_eq_some_iff_append.mp hstops
      rw [decide_eq_true_iff] at ht
      obtain ⟨s₁, hloop, hpassed, hexec⟩ :=
        pickLoop_append l he h fun x hx => by simpa using hl x hx
      rw [List.cons_append] at hexec
      have hsame : s₁.state t = s.state t := by
        rw [hpassed.state]
        refine if_neg fun hrunning => ?_
        rcases ht with ht | ht
        · exact hready ht
        · rw [hrunning.2] at ht
          simp [ThreadState.IsDead] at ht
      refine .inr (.inr fun n r hr => ?_)
      have hmore := pickLoop_mono n (l.length + 1) hr
      have herror : s.pickLoop (n + (l.length + 1)) = .error .noReturn := by
        rw [show n + (l.length + 1) = l.length + (n + 1) by omega, hloop]
        exact pickLoop_dead hexec hpassed.nodup ((stops_congr hsame hpassed.parentDead).mpr ht)
          (by rwa [hsame]) n
      rw [herror] at hmore
      cases hmore
  | none =>
    have hall : ∀ x ∈ s.execution, ¬s.Stops x := by simpa using hstops
    cases hrunning : s.execution.find? (fun x => s.state x = .running) with
    | some t => exact .inl ⟨t, .inr ⟨hall, hrunning⟩⟩
    | none =>
      by_cases hblocked : ∀ t ∈ s.execution, s.state t = .blocked
      · exact .inr (.inl hblocked)
      · refine .inr (.inr fun n r hr => ?_)
        have hnone : ∀ x ∈ s.execution, s.state x ≠ .running := by simpa using hrunning
        push Not at hblocked
        rw [pickLoop_endless n h (fun x hx => ⟨hall x hx, hnone x hx⟩) hblocked] at hr
        cases hr

/-! ## The switch -/

/-- The process of the current thread, when `SwitchContext` deletes it. -/
def deleted (process : T → P) (s : RunQueue T) : Option P :=
  match s.current with
  | none => none
  | some c =>
    if (s.state c).IsDead ∧ s.parentDead c = true ∧ c ≠ s.idle then some (process c) else none

/-- The switch works out exactly when it enqueues no linked thread. -/
theorem exists_switchContext (t : T) :
    (∃ s', s.switchContext t = .ok s') ↔
      ∀ c ∈ s.current, ¬(s.state c).IsDead → c ≠ t → c ≠ s.idle → ¬s.Linked c := by
  rw [switchContext]
  cases hcurrent : s.current with
  | none => simp
  | some c =>
    simp only
    split
    · rename_i hc
      refine iff_of_true ⟨_, rfl⟩ fun c' hc' hdead hne hidle => ?_
      obtain rfl := Option.some.inj hc'
      rcases hc with hc | hc | hc
      · exact absurd hc hdead
      · exact absurd hc hne
      · exact absurd hc hidle
    · rename_i hc
      rw [not_or, not_or] at hc
      by_cases hlinked : s.Linked c
      · rw [enqueueNotReady, if_pos hlinked]
        refine iff_of_false ?_ fun h => h c rfl hc.1 hc.2.1 hc.2.2 hlinked
        rintro ⟨s', hs'⟩
        cases hs'
      · have henqueue : ∃ s', s.enqueueNotReady c = .ok s' := by
          rw [enqueueNotReady, if_neg hlinked]
          split <;> exact ⟨_, rfl⟩
        obtain ⟨s', hs'⟩ := henqueue
        rw [hs']
        refine iff_of_true ⟨_, rfl⟩ fun c' hc' _ _ _ => ?_
        obtain rfl := Option.some.inj hc'
        exact hlinked

theorem deleted_ne_iff (process : T → P) (t : T) :
    s.deleted process ≠ some (process t) ↔
      ∀ c ∈ s.current, (s.state c).IsDead → s.parentDead c = true → c ≠ s.idle →
        process c ≠ process t := by
  rw [deleted]
  cases hcurrent : s.current with
  | none => simp
  | some c =>
    simp only
    split
    · rename_i hc
      refine ⟨fun h c' hc' _ _ _ heq => ?_, fun h heq => ?_⟩
      · obtain rfl := Option.some.inj hc'
        exact h (congrArg some heq)
      · exact h c rfl hc.1 hc.2.1 hc.2.2 (Option.some.inj heq)
    · rename_i hc
      refine iff_of_true (by simp) fun c' hc' hdead hparent hidle => ?_
      obtain rfl := Option.some.inj hc'
      exact absurd ⟨hdead, hparent, hidle⟩ hc

end RunQueue

/-! ## The tick -/

/-- A CPU with the processes and the signals of its threads. A thread is linked once at most. -/
structure Cpu (T P : Type*) extends RunQueue T where
  process : T → P
  signals : T → Signals.Thread
  preemptionEnabled : Bool
  linkedOnce : (execution ++ blocked).Nodup

/-- How a tick goes wrong: a null thread or a deleted process is used, a signal has no case in the
switch of `DispatchSignal`, or the scheduler or `Process::Exit` does not come back. -/
inductive TickFault
  | nullThread | deletedProcess | unknownSignal | exit
  | scheduler (f : Failure)
  deriving DecidableEq

/-- What a tick leaves, with the thread that it switches to. -/
structure Ticked (T : Type*) where
  thread : T
  queues : RunQueue T
  signals : T → Signals.Thread

namespace Cpu

open RunQueue

variable [DecidableEq T] [DecidableEq P]

/-- The end of `PickReadyThread`: the pending signals of the thread that the loop has found. -/
def dispatchSignal (s : Cpu T P) (t : T) (queues : RunQueue T) : Except TickFault (Ticked T) :=
  match (s.signals t).dispatchAnyPendingSignal with
  | none => .error .unknownSignal
  | some (thread, dispatched) =>
    if dispatched.any (·.exits) then .error .exit
    else .ok ⟨t, queues, Function.update s.signals t thread⟩

/-- `PickReadyThread`, for at most `turns` turns of the loop. -/
def pickReadyThread (turns : ℕ) (s : Cpu T P) : Except TickFault (Ticked T) :=
  match s.pickLoop turns with
  | .error f => .error (.scheduler f)
  | .ok (none, s₁) => .ok ⟨s₁.current.getD s₁.idle, s₁, s.signals⟩
  | .ok (some t, s₁) => s.dispatchSignal t s₁

/-- `Tick`, for at most `turns` turns of the loop. -/
def tick (turns : ℕ) (s : Cpu T P) : Except TickFault (Ticked T) :=
  if !s.preemptionEnabled then .error .nullThread
  else
    match s.pickReadyThread turns with
    | .error f => .error f
    | .ok ⟨t, s₁, signals⟩ =>
      match s₁.switchContext t with
      | .error f => .error (.scheduler f)
      | .ok s₂ =>
        if s₁.deleted s.process = some (s.process t) then .error .deletedProcess
        else .ok ⟨t, if t ≠ s₂.idle then s₂.setState t .running else s₂, signals⟩

def Runnable (s : RunQueue T) (t : T) : Prop := s.state t = .ready ∨ s.state t = .running

instance (s : RunQueue T) (t : T) : Decidable (Runnable s t) := inferInstanceAs (Decidable (_ ∨ _))

/-- A tick comes to its end and uses what there is, and the thread it switches to was ready when it
was picked, or is the current one and can run, or is the idle thread. -/
def TicksSafely (s : Cpu T P) : Prop :=
  ∃ turns r, s.tick turns = .ok r ∧
    ((∃ s₁, s.pickLoop turns = .ok (some r.thread, s₁) ∧ s₁.state r.thread = .ready) ∨
      (s.current = some r.thread ∧ Runnable s.toRunQueue r.thread) ∨ r.thread = s.idle)

/-- The lowest pending signal that is not masked, if there is one, has a case in the switch of
`DispatchSignal`, and it does not end the process of the thread. -/
def Survives (t : Signals.Thread) : Prop :=
  ∀ x < 32, Signals.Deliverable t x → (∀ y < x, ¬Signals.Deliverable t y) →
    ∃ d, Signals.disposition x = some d ∧ (d = .terminate → t.parentPid = t.parentGroup)

/-- The switch from the current thread to `t` enqueues no linked thread and deletes no process that
is needed. -/
def SwitchesTo (s : Cpu T P) (t : T) : Prop :=
  ∀ c ∈ s.current,
    ((s.state c).IsDead → s.parentDead c = true → c ≠ s.idle → s.process c ≠ s.process t) ∧
      (¬(s.state c).IsDead → c ≠ t → c ≠ s.idle → ¬s.Linked c)

/-- Preemption is on, and either the loop comes to a thread that survives its signals and that the
CPU can switch to, or all threads of the queue are blocked and the current one can run. -/
def CanTick (s : Cpu T P) : Prop :=
  s.preemptionEnabled = true ∧
    ((∃ t, s.Picks t ∧ Survives (s.signals t) ∧ s.SwitchesTo t) ∨
      (∀ t ∈ s.execution, s.state t = .blocked) ∧
        ∀ c ∈ s.current, Runnable s.toRunQueue c ∨ c = s.idle)

variable {s : Cpu T P} {s₁ s₂ : RunQueue T} {turns : ℕ} {t : T} {r : Ticked T}

omit [DecidableEq P] in
/-- The thread the loop has found goes on exactly when it survives its signals. -/
theorem dispatchSignal_cases (s : Cpu T P) (t : T) (s₁ : RunQueue T) :
    (Survives (s.signals t) ∧ ∃ signals, s.dispatchSignal t s₁ = .ok ⟨t, s₁, signals⟩) ∨
      (¬Survives (s.signals t) ∧ ∃ f, s.dispatchSignal t s₁ = .error f) := by
  rw [Cpu.dispatchSignal]
  cases hfind : (List.range 32).find? (fun x => (s.signals t).unmasked.getLsbD x) with
  | none =>
    obtain ⟨hdispatch, hnone⟩ := Signals.dispatch_none hfind
    rw [hdispatch]
    exact .inl ⟨fun x hx hdeliver => absurd hdeliver (hnone x hx), _, rfl⟩
  | some x =>
    obtain ⟨hlt, hdeliver, hlower⟩ := Signals.dispatch_some hfind
    have hsurvives : Survives (s.signals t) ↔ ∃ d, Signals.disposition x = some d ∧
        (d = .terminate → (s.signals t).parentPid = (s.signals t).parentGroup) := by
      refine ⟨fun h => h x hlt hdeliver hlower, fun h y _ hy hlower' => ?_⟩
      have hxy : y = x := by
        rcases lt_trichotomy y x with hlt' | heq | hlt'
        · exact absurd hy (hlower y hlt')
        · exact heq
        · exact absurd hdeliver (hlower' x hlt')
      rwa [hxy]
    rw [hsurvives, Signals.Thread.dispatchAnyPendingSignal, hfind]
    simp only [Signals.Thread.dispatchSignal]
    cases Signals.disposition x with
    | none => exact .inr ⟨by simp, _, rfl⟩
    | some d =>
      by_cases hexits : d = .terminate ∧ (s.signals t).parentPid ≠ (s.signals t).parentGroup
      · exact .inr ⟨by simpa using hexits, .exit, by simp [hexits]⟩
      · refine .inl ⟨⟨d, rfl, by simpa using hexits⟩, ?_⟩
        dsimp only
        rw [if_neg (by simpa using hexits)]
        exact ⟨_, rfl⟩

omit [DecidableEq P] in
theorem pickReadyThread_some (h : s.pickLoop turns = .ok (some t, s₁))
    (hsurvives : Survives (s.signals t)) :
    ∃ signals, s.pickReadyThread turns = .ok ⟨t, s₁, signals⟩ := by
  rw [Cpu.pickReadyThread, h]
  rcases s.dispatchSignal_cases t s₁ with ⟨-, hok⟩ | ⟨hnot, -⟩
  · exact hok
  · exact absurd hsurvives hnot

omit [DecidableEq P] in
/-- What is picked is the thread the loop has found, or the current or idle one. -/
theorem pickReadyThread_eq_ok (h : s.pickReadyThread turns = .ok r) :
    (s.pickLoop turns = .ok (some r.thread, r.queues) ∧ Survives (s.signals r.thread)) ∨
      (s.pickLoop turns = .ok (none, r.queues) ∧
        r.thread = r.queues.current.getD r.queues.idle) := by
  rw [Cpu.pickReadyThread] at h
  split at h
  · cases h
  · rename_i hloop
    obtain rfl := Except.ok.inj h
    exact .inr ⟨hloop, rfl⟩
  · rename_i t s₁ hloop
    rcases s.dispatchSignal_cases t s₁ with ⟨hsurvives, signals, hok⟩ | ⟨-, f, herror⟩
    · obtain rfl := Except.ok.inj (hok.symm.trans h)
      exact .inl ⟨hloop, hsurvives⟩
    · cases herror.symm.trans h

omit [DecidableEq P] in
theorem pickReadyThread_toRunQueue (h : s.pickReadyThread turns = .ok r) :
    s.toRunQueue.pickReadyThread turns = .ok (r.thread, r.queues) := by
  rw [RunQueue.pickReadyThread]
  rcases pickReadyThread_eq_ok h with ⟨hloop, -⟩ | ⟨hloop, hthread⟩
  · rw [hloop]
  · rw [hloop, hthread]

/-- What a tick that comes to its end has done on the way. -/
theorem tick_eq_ok (h : s.tick turns = .ok r) :
    s.preemptionEnabled = true ∧ ∃ s₁ s₂ signals,
      s.pickReadyThread turns = .ok ⟨r.thread, s₁, signals⟩ ∧
      s₁.switchContext r.thread = .ok s₂ ∧
      s₁.deleted s.process ≠ some (s.process r.thread) := by
  rw [tick] at h
  split at h
  · cases h
  · rename_i hpreempt
    refine ⟨by simpa using hpreempt, ?_⟩
    split at h
    · cases h
    · rename_i t s₁ signals hs₁
      split at h
      · cases h
      · rename_i s₂ hs₂
        split at h
        · cases h
        · rename_i hdeleted
          obtain rfl := Except.ok.inj h
          exact ⟨s₁, s₂, signals, hs₁, hs₂, hdeleted⟩

/-- A tick that comes to its end is one of the run queues: signals do not change these. -/
theorem tick_toRunQueue (h : s.tick turns = .ok r) : s.toRunQueue.tick turns = .ok r.queues := by
  rw [tick] at h
  split at h
  · cases h
  · split at h
    · cases h
    · rename_i t s₁ signals hpick
      split at h
      · cases h
      · rename_i s₂ hswitch
        split at h
        · cases h
        · obtain rfl := Except.ok.inj h
          rw [RunQueue.tick, pickReadyThread_toRunQueue hpick]
          dsimp only
          rw [hswitch]

theorem tick_of_ok {signals : T → Signals.Thread} (hpreempt : s.preemptionEnabled = true)
    (hpick : s.pickReadyThread turns = .ok ⟨t, s₁, signals⟩)
    (hswitch : s₁.switchContext t = .ok s₂)
    (hdeleted : s₁.deleted s.process ≠ some (s.process t)) :
    ∃ r, s.tick turns = .ok r ∧ r.thread = t := by
  refine ⟨⟨t, if t ≠ s₂.idle then s₂.setState t .running else s₂, signals⟩, ?_, rfl⟩
  rw [tick, hpreempt, hpick]
  simp only [Bool.not_true, Bool.false_eq_true, if_false, hswitch]
  exact if_neg hdeleted

omit [DecidableEq P] in
/-- After the loop has picked a thread, the switch to it depends on the queues before. -/
theorem switchesTo_iff (h : s.PickedFrom s₁ t) :
    s.SwitchesTo t ↔
      (∃ s₂, s₁.switchContext t = .ok s₂) ∧ s₁.deleted s.process ≠ some (s.process t) := by
  rw [exists_switchContext, deleted_ne_iff, h.current, h.idle, h.parentDead, ← forall₂_and]
  refine forall₂_congr fun c _ => ?_
  rw [h.dead, and_comm]
  refine and_congr (forall_congr' fun _ => forall_congr' fun hne => forall_congr' fun _ => ?_)
    Iff.rfl
  rw [h.linked c hne]

/-- With nobody to run, the current thread or the idle one goes on. -/
theorem ticksSafely_of_blocked (hpreempt : s.preemptionEnabled = true)
    (hblocked : ∀ t ∈ s.execution, s.state t = .blocked)
    (hcurrent : ∀ c ∈ s.current, Runnable s.toRunQueue c ∨ c = s.idle) : s.TicksSafely := by
  obtain ⟨s₁, hloop, hstate, hcurrent₁, hidle₁⟩ := pickLoop_of_blocked s.linkedOnce hblocked
  have hpick : s.pickReadyThread (s.execution.length + 1) =
      .ok ⟨s.current.getD s.idle, s₁, s.signals⟩ := by
    rw [Cpu.pickReadyThread, hloop, ← hcurrent₁, ← hidle₁]
  have hswitch : ∃ s₂, s₁.switchContext (s.current.getD s.idle) = .ok s₂ := by
    refine (exists_switchContext _).mpr fun c hc _ hne _ => absurd ?_ hne
    rw [← hcurrent₁, Option.mem_def.mp hc, Option.getD_some]
  have hdeleted : s₁.deleted s.process ≠ some (s.process (s.current.getD s.idle)) := by
    refine (deleted_ne_iff _ _).mpr fun c hc hdead _ hidle => ?_
    rw [hstate] at hdead
    rw [hidle₁] at hidle
    rw [hcurrent₁] at hc
    rcases hcurrent c hc with (hready | hrunning) | hidle'
    · rw [hready] at hdead
      simp [ThreadState.IsDead] at hdead
    · rw [hrunning] at hdead
      simp [ThreadState.IsDead] at hdead
    · exact absurd hidle' hidle
  obtain ⟨s₂, hs₂⟩ := hswitch
  obtain ⟨r, hr, hthread⟩ := tick_of_ok hpreempt hpick hs₂ hdeleted
  refine ⟨_, r, hr, .inr ?_⟩
  rw [hthread]
  cases hc : s.current with
  | none => exact .inr rfl
  | some c => exact (hcurrent c hc).imp (fun h => ⟨rfl, h⟩) id

/-- A tick ends well exactly when preemption is on and the threads of the queue and the current one
leave it something to switch to. -/
theorem ticksSafely_iff (s : Cpu T P) : s.TicksSafely ↔ s.CanTick := by
  constructor
  · rintro ⟨turns, r, htick, hthread⟩
    obtain ⟨hpreempt, s₁, s₂, signals, hpick, hswitch, hdeleted⟩ := tick_eq_ok htick
    refine ⟨hpreempt, ?_⟩
    have hpick := pickReadyThread_eq_ok hpick
    rcases pick_cases s.linkedOnce with ⟨t, ht⟩ | hblocked | hendless
    · -- the loop returns the thread it comes to
      obtain ⟨n, s₁', hloop', hpicked⟩ := exists_pickLoop s.linkedOnce ht
      rcases hpick with ⟨hloop, hsurvives⟩ | ⟨hloop, -⟩
      · obtain ⟨hsame, rfl⟩ := Prod.mk.inj (pickLoop_unique hloop hloop')
        obtain rfl := Option.some.inj hsame
        exact .inl ⟨_, ht, hsurvives, (switchesTo_iff hpicked).mpr ⟨⟨s₂, hswitch⟩, hdeleted⟩⟩
      · cases (Prod.mk.inj (pickLoop_unique hloop hloop')).1
    · refine .inr ⟨hblocked, fun c hc => ?_⟩
      obtain ⟨s₁', hloop', -, hcurrent, hidle⟩ := pickLoop_of_blocked s.linkedOnce hblocked
      rcases hthread with ⟨s₁'', hloop, -⟩ | hrest
      · cases (Prod.mk.inj (pickLoop_unique hloop hloop')).1
      · rcases hpick with ⟨hloop, -⟩ | ⟨hloop, hsame⟩
        · cases (Prod.mk.inj (pickLoop_unique hloop hloop')).1
        · obtain ⟨-, rfl⟩ := Prod.mk.inj (pickLoop_unique hloop hloop')
          rw [hcurrent, hidle, Option.mem_def.mp hc, Option.getD_some] at hsame
          rw [hsame] at hrest
          exact hrest.imp And.right id
    · rcases hpick with ⟨hloop, -⟩ | ⟨hloop, -⟩
      · exact absurd hloop (hendless turns _)
      · exact absurd hloop (hendless turns _)
  · rintro ⟨hpreempt, ⟨t, ht, hsurvives, hswitches⟩ | ⟨hblocked, hcurrent⟩⟩
    · obtain ⟨n, s₁, hloop, hpicked⟩ := exists_pickLoop s.linkedOnce ht
      obtain ⟨⟨s₂, hs₂⟩, hdeleted⟩ := (switchesTo_iff hpicked).mp hswitches
      obtain ⟨signals, hpick⟩ := pickReadyThread_some hloop hsurvives
      obtain ⟨r, hr, rfl⟩ := tick_of_ok hpreempt hpick hs₂ hdeleted
      exact ⟨n, r, hr, .inl ⟨s₁, hloop, hpicked.ready⟩⟩
    · exact ticksSafely_of_blocked hpreempt hblocked hcurrent

/-- A killed thread whose process still lives goes round in the queue, while the current thread
could run on. -/
theorem not_ticksSafely_killed :
    ¬TicksSafely (T := Fin 3) (P := Fin 2)
      { state := fun t => if t = 1 then .killed else .running
        isEnqueued := fun t => t = 1
        execution := [1]
        blocked := []
        current := some 2
        idle := 0
        parentDead := fun _ => false
        process := fun t => if t = 0 then 0 else 1
        signals := fun _ => ⟨0, 0, 1, 1⟩
        preemptionEnabled := true
        linkedOnce := List.nodup_singleton 1 } := by
  rintro ⟨turns, r, htick, -⟩
  obtain ⟨-, s₁, s₂, signals, hpick, -⟩ := tick_eq_ok htick
  rw [Cpu.pickReadyThread, pickLoop_endless turns (by decide) (by decide) (by decide)] at hpick
  cases hpick

end Cpu

end Cryptix.Scheduler
