import Mathlib.Algebra.Group.Nat.Defs
import Mathlib.Data.Int.Basic
import Mathlib.Logic.Function.Basic
import Cryptix.Lib.Transition

/-!
# The process table

`AllocatePid` in `Kernel/Scheduler/Process.cpp` and `CreateProcess`, `RemoveProcess` and
`ValidatePid` in `Scheduler.cpp`. `CreateProcess`, which `Fork` calls, chooses the first pid that is
not in the table, under a lock of its own, and enters the process later, under the lock of the
table. Each of the two is one step, and any number of CPUs take them in any order. `Exit` takes a
process out of the table.

Two CPUs that choose one after the other, before either has entered its process, choose the same
pid. `pids_unique` says that the pids of the live processes stay apart when no CPU chooses while
another has chosen and not entered.
-/

namespace Cryptix.Scheduler

open Lib

variable {C : Type*}

/-- The process table, the pid of every live process, the number of processes constructed, and what
the CPUs inside of `CreateProcess` have chosen. A process is a number. -/
structure ProcessTable (C : Type*) where
  processes : ℤ → Option ℕ
  live : ℕ → Option ℤ
  constructed : ℕ
  chosen : C → Option (ℕ × ℤ)

/-- The loop of `AllocatePid` from `i` on, for at most `n` turns. -/
def firstFree (used : ℤ → Bool) : ℕ → ℤ → ℤ
  | 0, _ => -1
  | n + 1, i => if ¬used i then i else firstFree used n (i + 1)

/-- `AllocatePid`: the largest `pid_t` is not given out, and `-1` is returned when all are in
use. -/
def allocatePid (used : ℤ → Bool) : ℤ := firstFree used (2 ^ 31 - 2) 1

/-- The loop returns a pid that is not in use when it finds one, and `-1` otherwise. -/
theorem firstFree_free (used : ℤ → Bool) (n : ℕ) : ∀ i : ℤ,
    used (firstFree used n i) = false ∨
      (firstFree used n i = -1 ∧ ∀ k < n, used (i + k) = true) := by
  induction n with
  | zero => exact fun i => .inr ⟨rfl, fun k hk => absurd hk (Nat.not_lt_zero k)⟩
  | succ n ih =>
    intro i
    rw [firstFree]
    split
    · rename_i hfree
      exact .inl (by simpa using hfree)
    · rename_i hused
      rcases ih (i + 1) with h | ⟨heq, hall⟩
      · exact .inl h
      · refine .inr ⟨heq, fun k hk => ?_⟩
        cases k with
        | zero => simpa using hused
        | succ k =>
          have hk' := hall k (by omega)
          rwa [Int.natCast_succ, Int.add_comm (k : ℤ) 1, ← Int.add_assoc]

inductive ProcessAction (C : Type*)
  | allocatePid (c : C)
  | insert (c : C)
  | removeProcess (p : ℕ)
  deriving DecidableEq

namespace ProcessTable

def boot : ProcessTable C where
  processes _ := none
  live _ := none
  constructed := 0
  chosen _ := none

/-- `ValidatePid`. -/
def validatePid (s : ProcessTable C) (pid : ℤ) : Bool := (s.processes pid).isSome

variable [DecidableEq C]

def step (s : ProcessTable C) : ProcessAction C → Option (ProcessTable C)
  | .allocatePid c =>
    match s.chosen c with
    | some _ => none
    | none => some
      { s with
        constructed := s.constructed + 1
        chosen := Function.update s.chosen c (some (s.constructed, allocatePid s.validatePid)) }
  | .insert c =>
    match s.chosen c with
    | none => none
    | some (p, pid) => some
      { s with
        processes := Function.update s.processes pid (some p)
        live := Function.update s.live p (some pid)
        chosen := Function.update s.chosen c none }
  | .removeProcess p =>
    match s.live p with
    | none => none
    | some pid => some
      { s with
        processes := Function.update s.processes pid none
        live := Function.update s.live p none }

/-- No two live processes have the same pid, and the table holds every live process under its
pid. -/
def Unique (s : ProcessTable C) : Prop :=
  (∀ p q pid, s.live p = some pid → s.live q = some pid → p = q) ∧
    ∀ p pid, s.live p = some pid → s.processes pid = some p

/-- A pid is left to give out: one in the range, or `-1` for the first process that gets none. -/
def HasFree (s : ProcessTable C) : Prop :=
  s.processes (-1) = none ∨ ∃ n : ℕ, n < 2 ^ 31 - 2 ∧ s.processes (1 + n) = none

/-- When a CPU chooses a pid, none has chosen one that it has not entered, and a pid is left. -/
def Alone (s : ProcessTable C) : ProcessAction C → Prop
  | .allocatePid _ => (∀ c, s.chosen c = none) ∧ s.HasFree
  | _ => True

/-- The live processes are in the table, and only one CPU has chosen a pid that it has not entered,
which is free. -/
structure Inv (s : ProcessTable C) : Prop where
  mapped : ∀ p pid, s.live p = some pid → s.processes pid = some p
  fresh : ∀ p, s.constructed ≤ p → s.live p = none
  free : ∀ c p pid, s.chosen c = some (p, pid) →
    s.processes pid = none ∧ s.live p = none ∧ p < s.constructed
  one : ∀ c c', s.chosen c ≠ none → s.chosen c' ≠ none → c = c'

omit [DecidableEq C] in
theorem inv_boot : Inv (boot (C := C)) where
  mapped p pid h := by cases h
  fresh _ _ := rfl
  free c p pid h := by cases h
  one c c' h := absurd rfl h

omit [DecidableEq C] in
theorem Inv.unique {s : ProcessTable C} (h : Inv s) : s.Unique := by
  refine ⟨fun p q pid hp hq => ?_, h.mapped⟩
  exact Option.some.inj ((h.mapped p pid hp).symm.trans (h.mapped q pid hq))

omit [DecidableEq C] in
theorem allocatePid_free {s : ProcessTable C} (h : s.HasFree) :
    s.processes (allocatePid s.validatePid) = none := by
  rw [allocatePid]
  rcases firstFree_free s.validatePid (2 ^ 31 - 2) 1 with hfree | ⟨heq, hall⟩
  · simpa [validatePid] using hfree
  · rcases h with hminus | ⟨n, hn, hfree⟩
    · rw [heq]
      exact hminus
    · have hused := hall n hn
      simp [validatePid, hfree] at hused

namespace Inv

variable {s s' : ProcessTable C}

theorem allocatePid (h : Inv s) {c : C} (ha : s.Alone (.allocatePid c))
    (hstep : s.step (.allocatePid c) = some s') : Inv s' := by
  simp only [ProcessTable.step] at hstep
  split at hstep
  · cases hstep
  · obtain rfl := Option.some.inj hstep
    obtain ⟨halone, hfree⟩ := ha
    refine ⟨h.mapped, fun p hp => h.fresh p (by simp only at hp; omega), fun c' p pid hc' => ?_,
      fun c₁ c₂ h₁ h₂ => ?_⟩
    · by_cases hc : c' = c
      · simp only [hc, Function.update_self, Option.some.injEq, Prod.mk.injEq] at hc'
        obtain ⟨rfl, hpid⟩ := hc'
        have hnone := allocatePid_free hfree
        rw [hpid] at hnone
        exact ⟨hnone, h.fresh _ le_rfl, Nat.lt_succ_self _⟩
      · simp only [Function.update_of_ne hc, halone c'] at hc'
        cases hc'
    · -- the others have chosen nothing
      have hself (c' : C) (hc' : Function.update s.chosen c
          (some (s.constructed, Scheduler.allocatePid s.validatePid)) c' ≠ none) : c' = c := by
        by_contra hc
        rw [Function.update_of_ne hc] at hc'
        exact hc' (halone c')
      rw [hself c₁ h₁, hself c₂ h₂]

theorem insert (h : Inv s) {c : C} (hstep : s.step (.insert c) = some s') : Inv s' := by
  simp only [ProcessTable.step] at hstep
  split at hstep
  · cases hstep
  · rename_i p pid hc
    obtain rfl := Option.some.inj hstep
    obtain ⟨hpid, hp, hlt⟩ := h.free c p pid hc
    have hnone (c' : C) : Function.update s.chosen c none c' = none := by
      by_cases hc' : c' = c
      · rw [hc', Function.update_self]
      · rw [Function.update_of_ne hc']
        by_contra hne
        exact hc' (h.one c' c hne (by simp [hc]))
    refine ⟨fun q qid hq => ?_, fun q hq => ?_, fun c' q qid hc' => ?_, fun c' _ hc' => ?_⟩
    · by_cases hqp : q = p
      · simp only [hqp, Function.update_self, Option.some.injEq] at hq
        simp only [← hq, hqp, Function.update_self]
      · simp only [Function.update_of_ne hqp] at hq
        have hmapped := h.mapped q qid hq
        have hne : qid ≠ pid := by
          rintro rfl
          rw [hpid] at hmapped
          cases hmapped
        simp only [Function.update_of_ne hne]
        exact hmapped
    · have hne : q ≠ p := by
        simp only at hq
        omega
      simp only [Function.update_of_ne hne]
      exact h.fresh q hq
    · simp only [hnone] at hc'
      cases hc'
    · exact absurd (hnone c') hc'

theorem removeProcess (h : Inv s) {p : ℕ} (hstep : s.step (.removeProcess p) = some s') :
    Inv s' := by
  simp only [ProcessTable.step] at hstep
  split at hstep
  · cases hstep
  · rename_i pid hp
    obtain rfl := Option.some.inj hstep
    refine ⟨fun q qid hq => ?_, fun q hq => ?_, fun c q qid hc => ?_, h.one⟩
    · have hqp : q ≠ p := by
        rintro rfl
        simp at hq
      simp only [Function.update_of_ne hqp] at hq
      have hne : qid ≠ pid := by
        rintro rfl
        exact hqp (h.unique.1 q p qid hq hp)
      simp only [Function.update_of_ne hne]
      exact h.mapped q qid hq
    · by_cases hqp : q = p
      · simp [hqp]
      · simp only [Function.update_of_ne hqp]
        exact h.fresh q hq
    · obtain ⟨hqid, hq, hlt⟩ := h.free c q qid hc
      refine ⟨?_, ?_, hlt⟩
      · by_cases hne : qid = pid
        · simp [hne]
        · simp only [Function.update_of_ne hne]
          exact hqid
      · by_cases hqp : q = p
        · simp [hqp]
        · simp only [Function.update_of_ne hqp]
          exact hq

theorem step (h : Inv s) {a : ProcessAction C} (ha : s.Alone a) (hstep : s.step a = some s') :
    Inv s' := by
  cases a with
  | allocatePid c => exact h.allocatePid ha hstep
  | insert c => exact h.insert hstep
  | removeProcess p => exact h.removeProcess hstep

end Inv

/-- After every interleaving of calls in which each choice of a pid is made alone, the pids of the
live processes are unique and the table holds the processes under them. -/
theorem pids_unique {s : ProcessTable C} (h : Reaches step Alone boot s) : s.Unique :=
  (h.invariant inv_boot fun _ _ _ hs ha hstep => hs.step ha hstep).unique

/-- One CPU forks twice, the first process exits, and another CPU forks. -/
theorem pids_unique_after_exit :
    ∃ s : ProcessTable Bool, Reaches step Alone boot s ∧ s.live 1 = some 2 ∧ s.live 2 = some 1 ∧
      s.Unique := by
  have hother (s : ProcessTable Bool) (hs : s.chosen true = none ∧ s.chosen false = none)
      (hfree : s.processes (-1) = none) (c : Bool) : s.Alone (.allocatePid c) :=
    ⟨fun c' => by cases c' <;> [exact hs.2; exact hs.1], .inl hfree⟩
  have h₁ : Reaches step Alone (boot (C := Bool)) _ :=
    .tail (.insert true) (.tail (.allocatePid true) .refl (hother _ ⟨rfl, rfl⟩ rfl true) rfl)
      trivial rfl
  have h₂ : Reaches step Alone (boot (C := Bool)) _ :=
    .tail (.insert true) (.tail (.allocatePid true) h₁ (hother _ ⟨rfl, rfl⟩ rfl true) rfl)
      trivial rfl
  have h₃ : Reaches step Alone (boot (C := Bool)) _ := .tail (.removeProcess 0) h₂ trivial rfl
  have h₄ : Reaches step Alone (boot (C := Bool)) _ :=
    .tail (.insert false) (.tail (.allocatePid false) h₃ (hother _ ⟨rfl, rfl⟩ rfl false) rfl)
      trivial rfl
  exact ⟨_, h₄, rfl, rfl, pids_unique h₄⟩

/-- Two CPUs choose a pid before either has entered its process: both choose 1, and the process that
is entered first is lost. -/
theorem not_unique_two_cpus :
    ∃ s : ProcessTable Bool, Reaches step anyCall boot s ∧ s.live 0 = some 1 ∧ s.live 1 = some 1 ∧
      s.processes 1 = some 1 ∧ ¬s.Unique := by
  refine ⟨_, .of_list [.allocatePid false, .allocatePid true, .insert false, .insert true] rfl, rfl,
    rfl, rfl, fun h => ?_⟩
  have heq := h.1 0 1 1 rfl rfl
  cases heq

end ProcessTable

end Cryptix.Scheduler
