import Mathlib.Data.List.Basic
import Mathlib.Logic.Function.Basic
import Cryptix.Lib.Transition

/-!
# Destructors at exit

`Kernel/Library/ICxxAbi.cpp`. `__cxa_atexit` notes a destructor and its object in an array of 128
entries, and `__cxa_finalize` calls all destructors that are noted, the last one first, or those of
one function. In the second case the entries stay in the array without their functions, but for the
last one, which is taken out; with 128 entries in use the shift reads the one behind the array. A
destructor that notes or finalizes others is not modelled.
-/

namespace Cryptix

open Lib

/-- `AtExitFunctionEntry`; the function may be null. -/
structure AtExitFunctionEntry (F O : Type) where
  func : Option F
  objptr : O

/-- `__atexit_funcs`, with the memory behind it, and `__atexit_func_count`. -/
structure ICxxAbi (F O : Type) where
  funcs : ℕ → AtExitFunctionEntry F O
  count : ℕ

namespace ICxxAbi

variable {F O : Type} [DecidableEq F]

/-- `ATEXIT_MAX_FUNCS`. -/
def atexitMaxFuncs : ℕ := 128

omit [DecidableEq F] in
/-- `__cxa_atexit`, and whether it succeeds. -/
def cxaAtexit (s : ICxxAbi F O) (func : F) (objptr : O) : Bool × ICxxAbi F O :=
  if atexitMaxFuncs ≤ s.count then (false, s)
  else (true, ⟨Function.update s.funcs s.count ⟨some func, objptr⟩, s.count + 1⟩)

/-- An entry as a call of its function. -/
def call (entry : AtExitFunctionEntry F O) : Option (F × O) :=
  entry.func.map fun func => (func, entry.objptr)

omit [DecidableEq F] in
/-- `__cxa_finalize` of null: the calls it makes, in their order. -/
def finalizeAll (s : ICxxAbi F O) : List (F × O) :=
  (List.range s.count).reverse.filterMap fun i => call (s.funcs i)

/-- The variables of the first loop of `__cxa_finalize`, and the calls that were made. -/
structure Scan (F O : Type) where
  funcs : ℕ → AtExitFunctionEntry F O
  findex : Option ℕ
  calls : List (F × O)

/-- One turn of the first loop. -/
def scanTurn (f : F) (s : Scan F O) (j : ℕ) : Scan F O :=
  if (s.funcs j).func = some f then
    ⟨Function.update s.funcs j ⟨none, (s.funcs j).objptr⟩, some j,
      s.calls ++ [(f, (s.funcs j).objptr)]⟩
  else s

/-- `__cxa_finalize` of a function: the calls it makes, in their order. -/
def cxaFinalize (s : ICxxAbi F O) (f : F) : List (F × O) × ICxxAbi F O :=
  let scan := (List.range s.count).foldl (scanTurn f) ⟨s.funcs, none, []⟩
  match scan.findex with
  | none => (scan.calls, ⟨scan.funcs, s.count⟩)
  | some findex =>
    (scan.calls,
      ⟨(List.range' findex (s.count - findex)).foldl
        (fun funcs j => Function.update funcs j (funcs (j + 1))) scan.funcs, s.count - 1⟩)

omit [DecidableEq F] in
/-- The destructors that are noted, the first one first. -/
def pending (s : ICxxAbi F O) : List (F × O) :=
  (List.range s.count).filterMap fun i => call (s.funcs i)

/-! ## What the functions do to the destructors that are noted -/

variable {s : ICxxAbi F O} {f : F}

omit [DecidableEq F] in
theorem finalizeAll_eq (s : ICxxAbi F O) : s.finalizeAll = s.pending.reverse := by
  rw [finalizeAll, pending, List.filterMap_reverse]

omit [DecidableEq F] in
theorem pending_cxaAtexit (s : ICxxAbi F O) (func : F) (objptr : O) :
    (s.cxaAtexit func objptr).2.pending =
      if (s.cxaAtexit func objptr).1 = true then s.pending ++ [(func, objptr)] else s.pending := by
  rw [cxaAtexit]
  split
  · rfl
  · have hframe : (List.range s.count).filterMap (fun i =>
        call (Function.update s.funcs s.count ⟨some func, objptr⟩ i)) = s.pending := by
      refine List.filterMap_congr fun i hi => ?_
      rw [Function.update_of_ne (Nat.ne_of_lt (List.mem_range.mp hi))]
    rw [if_pos rfl, pending, List.range_succ, List.filterMap_append, hframe]
    simp [call]

/-- The entries after the first loop. -/
def cleared (f : F) (entry : AtExitFunctionEntry F O) : AtExitFunctionEntry F O :=
  if entry.func = some f then ⟨none, entry.objptr⟩ else entry

theorem call_cleared (f : F) (entry : AtExitFunctionEntry F O) :
    call (cleared f entry) = (call entry).filter fun c => c.1 ≠ f := by
  obtain ⟨func, objptr⟩ := entry
  cases func with
  | none => simp [cleared, call]
  | some g => by_cases hg : g = f <;> simp [cleared, call, hg, Option.filter]

/-- The first loop, up to some entry. -/
theorem scan_spec (funcs : ℕ → AtExitFunctionEntry F O) (f : F) (n : ℕ) :
    (∀ i, ((List.range n).foldl (scanTurn f) ⟨funcs, none, []⟩).funcs i =
      if i < n then cleared f (funcs i) else funcs i) ∧
    (∀ k, ((List.range n).foldl (scanTurn f) ⟨funcs, none, []⟩).findex = some k →
      k < n ∧ (funcs k).func = some f) ∧
    ((List.range n).foldl (scanTurn f) ⟨funcs, none, []⟩).calls =
      (List.range n).filterMap fun i => (call (funcs i)).filter fun c => c.1 = f := by
  induction n with
  | zero => simp
  | succ n ih =>
    obtain ⟨hfuncs, hfindex, hcalls⟩ := ih
    rw [List.range_succ, List.foldl_append, List.foldl_cons, List.foldl_nil,
      List.filterMap_append]
    generalize (List.range n).foldl (scanTurn f) ⟨funcs, none, []⟩ = scan at *
    have hentry : scan.funcs n = funcs n := by rw [hfuncs, if_neg (Nat.lt_irrefl n)]
    rw [scanTurn, hentry]
    by_cases hf : (funcs n).func = some f
    · rw [if_pos hf]
      refine ⟨fun i => ?_, fun k hk => ?_, ?_⟩
      · dsimp only
        by_cases hi : i = n
        · subst hi
          rw [Function.update_self, if_pos (Nat.lt_succ_self i), cleared, if_pos hf]
        · rw [Function.update_of_ne hi, hfuncs]
          exact if_congr (by omega) rfl rfl
      · obtain rfl := Option.some.inj hk
        exact ⟨Nat.lt_succ_self n, hf⟩
      · rw [hcalls]
        simp [call, hf, Option.filter]
    · rw [if_neg hf]
      refine ⟨fun i => ?_, fun k hk => ?_, ?_⟩
      · by_cases hi : i = n
        · subst hi
          rw [hentry, if_pos (Nat.lt_succ_self i), cleared, if_neg hf]
        · rw [hfuncs]
          exact if_congr (by omega) rfl rfl
      · exact ⟨Nat.lt_succ_of_lt (hfindex k hk).1, (hfindex k hk).2⟩
      · rw [hcalls]
        cases hfunc : (funcs n).func with
        | none => simp [call, hfunc]
        | some g =>
          have hg : g ≠ f := fun hg => hf (hfunc.trans (congrArg some hg))
          simp [call, hfunc, Option.filter, hg]

omit [DecidableEq F] in
/-- The second loop moves the entries behind `k` down by one. -/
theorem shift_spec (funcs : ℕ → AtExitFunctionEntry F O) (k n : ℕ) :
    ∀ i, (List.range' k n).foldl (fun funcs j => Function.update funcs j (funcs (j + 1))) funcs i =
      if k ≤ i ∧ i < k + n then funcs (i + 1) else funcs i := by
  induction n with
  | zero => exact fun i => (if_neg (by omega)).symm
  | succ n ih =>
    intro i
    rw [List.range'_concat, Nat.one_mul, List.foldl_append, List.foldl_cons, List.foldl_nil]
    generalize (List.range' k n).foldl
      (fun funcs j => Function.update funcs j (funcs (j + 1))) funcs = moved at *
    by_cases hi : i = k + n
    · subst hi
      rw [Function.update_self, ih, if_neg (by omega), if_pos (by omega)]
    · rw [Function.update_of_ne hi, ih]
      exact if_congr (by omega) rfl rfl

/-- `__cxa_finalize` of a function calls its destructors and leaves the others, and the memory
behind the entries in use. -/
theorem cxaFinalize_spec (s : ICxxAbi F O) (f : F) :
    (s.cxaFinalize f).1 = s.pending.filter (fun c => c.1 = f) ∧
      (s.cxaFinalize f).2.pending = s.pending.filter (fun c => c.1 ≠ f) ∧
      (s.cxaFinalize f).2.count ≤ s.count ∧
      ∀ i, s.count ≤ i → (s.cxaFinalize f).2.funcs i = s.funcs i := by
  obtain ⟨hfuncs, hfindex, hcalls⟩ := scan_spec s.funcs f s.count
  have hpending : (List.range s.count).filterMap (fun i => call (cleared f (s.funcs i))) =
      s.pending.filter fun c => c.1 ≠ f := by
    rw [pending, List.filter_filterMap]
    exact List.filterMap_congr fun i _ => call_cleared f (s.funcs i)
  rw [cxaFinalize]
  generalize (List.range s.count).foldl (scanTurn f) ⟨s.funcs, none, []⟩ = scan at *
  rw [← List.filter_filterMap] at hcalls
  cases hscan : scan.findex with
  | none =>
    refine ⟨hcalls, ?_, Nat.le_refl _, fun i hi => (hfuncs i).trans (if_neg (Nat.not_lt.mpr hi))⟩
    rw [← hpending]
    refine List.filterMap_congr fun i hi => ?_
    dsimp only
    rw [hfuncs, if_pos (List.mem_range.mp hi)]
  | some k =>
    obtain ⟨hk, hfunc⟩ := hfindex k hscan
    refine ⟨hcalls, ?_, Nat.sub_le _ _, fun i hi => ?_⟩
    swap
    · dsimp only
      rw [shift_spec, if_neg (by omega), hfuncs, if_neg (by omega)]
    rw [← hpending]
    -- the entry that is taken out has no function, and the ones behind it move down
    obtain ⟨n, hn⟩ := Nat.exists_eq_add_of_lt hk
    have hgone : call (cleared f (s.funcs k)) = none := by rw [cleared, if_pos hfunc, call]; rfl
    have hbefore : (List.range k).filterMap (fun i => call ((List.range' k (s.count - k)).foldl
          (fun funcs j => Function.update funcs j (funcs (j + 1))) scan.funcs i)) =
        (List.range k).filterMap fun i => call (cleared f (s.funcs i)) := by
      refine List.filterMap_congr fun i hi => ?_
      have hlt := List.mem_range.mp hi
      rw [shift_spec, if_neg (by omega), hfuncs, if_pos (by omega)]
    have hbehind : (List.range n).filterMap (fun i => call ((List.range' k (s.count - k)).foldl
          (fun funcs j => Function.update funcs j (funcs (j + 1))) scan.funcs (k + i))) =
        (List.range n).filterMap fun i => call (cleared f (s.funcs (k + (i + 1)))) := by
      refine List.filterMap_congr fun i hi => ?_
      have hlt := List.mem_range.mp hi
      rw [shift_spec, if_pos (by omega), hfuncs, if_pos (by omega), Nat.add_assoc]
    have hnew : s.count - 1 = k + n := by omega
    have hold : s.count = k + (n + 1) := by omega
    rw [pending]
    dsimp only
    rw [hnew, List.range_add, List.filterMap_append, List.filterMap_map]
    rw [hold, List.range_add, List.filterMap_append, List.filterMap_map, List.range_succ_eq_map,
      List.filterMap_cons, ← hold]
    simp only [Function.comp_apply, Nat.add_zero, hgone, List.filterMap_map]
    exact congrArg₂ _ hbefore hbehind

/-! ## Every run -/

/-- A call of `__cxa_atexit`, or of `__cxa_finalize` for one function. -/
inductive Call (F O : Type)
  | atexit (func : F) (objptr : O)
  | finalize (func : F)

/-- A call, with the destructors that are to run at exit: those noted with success, but for those
finalized since. -/
def step (s : ICxxAbi F O × List (F × O)) : Call F O → Option (ICxxAbi F O × List (F × O))
  | .atexit func objptr =>
    some ((s.1.cxaAtexit func objptr).2,
      if (s.1.cxaAtexit func objptr).1 = true then s.2 ++ [(func, objptr)] else s.2)
  | .finalize func => some ((s.1.cxaFinalize func).2, s.2.filter fun c => c.1 ≠ func)

/-- Before the first destructor is noted. -/
def boot (funcs : ℕ → AtExitFunctionEntry F O) : ICxxAbi F O × List (F × O) := (⟨funcs, 0⟩, [])

omit [DecidableEq F] in
theorem count_cxaAtexit_le (h : s.count ≤ atexitMaxFuncs) (func : F) (objptr : O) :
    (s.cxaAtexit func objptr).2.count ≤ atexitMaxFuncs := by
  rw [cxaAtexit]
  split
  · exact h
  · rename_i hfull
    exact Nat.lt_of_not_le hfull

omit [DecidableEq F] in
/-- A destructor that is noted is stored in the array. -/
theorem funcs_cxaAtexit (s : ICxxAbi F O) (func : F) (objptr : O) {i : ℕ}
    (hi : atexitMaxFuncs ≤ i) : (s.cxaAtexit func objptr).2.funcs i = s.funcs i := by
  rw [cxaAtexit]
  split
  · rfl
  · exact Function.update_of_ne (by omega) _ _

/-- The array holds the destructors that are to run, and the memory behind it is as at the start. -/
structure Agrees (funcs : ℕ → AtExitFunctionEntry F O) (s : ICxxAbi F O × List (F × O)) :
    Prop where
  pending : s.1.pending = s.2
  count_le : s.1.count ≤ atexitMaxFuncs
  behind : ∀ i, atexitMaxFuncs ≤ i → s.1.funcs i = funcs i

theorem Agrees.step {funcs : ℕ → AtExitFunctionEntry F O} {s s' : ICxxAbi F O × List (F × O)}
    {c : Call F O} (h : Agrees funcs s) (hstep : step s c = some s') : Agrees funcs s' := by
  cases c with
  | atexit func objptr =>
    obtain rfl := Option.some.inj hstep
    refine ⟨?_, count_cxaAtexit_le h.count_le func objptr, fun i hi => ?_⟩
    · rw [pending_cxaAtexit, h.pending]
    · exact (funcs_cxaAtexit s.1 func objptr hi).trans (h.behind i hi)
  | finalize func =>
    obtain rfl := Option.some.inj hstep
    obtain ⟨-, hpending, hcount, hbehind⟩ := cxaFinalize_spec s.1 func
    exact ⟨by rw [hpending, h.pending], Nat.le_trans hcount h.count_le, fun i hi =>
      (hbehind i (Nat.le_trans h.count_le hi)).trans (h.behind i hi)⟩

/-- After every run, the destructors that `__cxa_finalize` calls at exit are those that were noted
and not finalized since, each one once and the last one first; those of one function are called in
the order in which they were noted; and nothing is stored behind the array. -/
theorem finalizeAll_eq_reverse {funcs : ℕ → AtExitFunctionEntry F O}
    {s : ICxxAbi F O × List (F × O)} (hrun : Reaches step anyCall (boot funcs) s) :
    s.1.finalizeAll = s.2.reverse ∧
      (∀ f, (s.1.cxaFinalize f).1 = s.2.filter fun c => c.1 = f) ∧
      s.1.count ≤ atexitMaxFuncs ∧ ∀ i, atexitMaxFuncs ≤ i → s.1.funcs i = funcs i := by
  have hboot : Agrees funcs (boot funcs) := ⟨rfl, Nat.zero_le _, fun _ _ => rfl⟩
  have h : Agrees funcs s := hrun.invariant hboot fun _ _ _ hs _ hstep => hs.step hstep
  refine ⟨?_, fun f => ?_, h.count_le, h.behind⟩
  · rw [finalizeAll_eq, h.pending]
  · rw [(cxaFinalize_spec s.1 f).1, h.pending]

theorem finalizeAll_eq_reverse_three : ∃ s : ICxxAbi ℕ ℕ × List (ℕ × ℕ),
    Reaches.runList step anyCall (boot fun _ => ⟨none, 0⟩)
      [.atexit 1 10, .atexit 2 20, .atexit 1 11, .finalize 1, .atexit 3 30] = some s ∧
    s.1.finalizeAll = s.2.reverse ∧ s.2 = [(2, 20), (3, 30)] := by
  refine ⟨_, rfl, ?_, rfl⟩
  exact (finalizeAll_eq_reverse (.of_list
    [.atexit 1 10, .atexit 2 20, .atexit 1 11, .finalize 1, .atexit 3 30] rfl)).1

end ICxxAbi

end Cryptix
