import Mathlib.Data.List.Basic
import Mathlib.Data.List.Range
import Mathlib.Logic.Function.Basic

/-!
# Loops that copy inside one array

A loop that moves entries of an array one at a time, each from `src i` to `dst i`, does what a
simultaneous move would do as long as no turn reads or writes an entry that an earlier turn has
written. That is what the direction of a shifting loop is chosen for.
-/

namespace Cryptix.Lib

variable {ι α β : Type*} [DecidableEq β]

/-- The loop `for i in l: s[dst i] = s[src i]`. -/
def copyLoop (src dst : ι → β) (l : List ι) (s : β → α) : β → α :=
  l.foldl (fun s i => Function.update s (dst i) (s (src i))) s

/-- The loop `for i in l: s[dst i] = c`. -/
def fillLoop (dst : ι → β) (c : α) (l : List ι) (s : β → α) : β → α :=
  l.foldl (fun s i => Function.update s (dst i) c) s

section Copy

variable {src dst : ι → β} {l : List ι}

/-- An entry no turn writes keeps its value. -/
theorem copyLoop_of_ne (s : β → α) {j : β} (h : ∀ i ∈ l, dst i ≠ j) :
    copyLoop src dst l s j = s j := by
  induction l generalizing s with
  | nil => rfl
  | cons a l ih =>
    refine (ih _ fun i hi => h i (List.mem_cons_of_mem a hi)).trans ?_
    exact Function.update_of_ne (h a List.mem_cons_self).symm _ _

/-- An entry some turn writes gets the value its source had before the loop. -/
theorem copyLoop_of_mem (s : β → α)
    (h : l.Pairwise fun a b => dst a ≠ src b ∧ dst a ≠ dst b) {i : ι} (hi : i ∈ l) :
    copyLoop src dst l s (dst i) = s (src i) := by
  induction l generalizing s with
  | nil => exact absurd hi List.not_mem_nil
  | cons a l ih =>
    obtain ⟨hhead, htail⟩ := List.pairwise_cons.mp h
    change copyLoop src dst l (Function.update s (dst a) (s (src a))) (dst i) = s (src i)
    rcases List.mem_cons.mp hi with rfl | hi
    · rw [copyLoop_of_ne _ fun b hb => (hhead b hb).2.symm, Function.update_self]
    · rw [ih _ htail hi, Function.update_of_ne (hhead i hi).1.symm]

end Copy

section Fill

variable {dst : ι → β} {c : α} {l : List ι}

theorem fillLoop_of_ne (s : β → α) {j : β} (h : ∀ i ∈ l, dst i ≠ j) :
    fillLoop dst c l s j = s j := by
  induction l generalizing s with
  | nil => rfl
  | cons a l ih =>
    refine (ih _ fun i hi => h i (List.mem_cons_of_mem a hi)).trans ?_
    exact Function.update_of_ne (h a List.mem_cons_self).symm _ _

theorem fillLoop_of_mem (dst : ι → β) (s : β → α) {i : ι} (hi : i ∈ l) :
    fillLoop dst c l s (dst i) = c := by
  induction l generalizing s i with
  | nil => exact absurd hi List.not_mem_nil
  | cons a l ih =>
    change fillLoop dst c l (Function.update s (dst a) c) (dst i) = c
    by_cases hlater : ∃ b ∈ l, dst b = dst i
    · obtain ⟨b, hb, hdst⟩ := hlater
      rw [← hdst]
      exact ih _ hb
    · -- no later turn writes it, so this one does
      obtain rfl : i = a := by
        rcases List.mem_cons.mp hi with rfl | hi
        · rfl
        · exact absurd ⟨i, hi, rfl⟩ hlater
      rw [fillLoop_of_ne _ fun b hb hdst => hlater ⟨b, hb, hdst⟩, Function.update_self]

end Fill

/-! ## Shifting an interval

The entries `first + w` to `first + w + n` move down by `w` when the loop runs upwards, and the
entries `first` to `first + n` move up by `w` when it runs downwards. -/

theorem shiftDown_apply {w : ℕ} (hw : 0 < w) (first n : ℕ) (s : ℕ → α) (j : ℕ) :
    copyLoop id (· - w) (List.range' (first + w) n) s j =
      if first ≤ j ∧ j < first + n then s (j + w) else s j := by
  split
  · rename_i h
    have hmem : j + w ∈ List.range' (first + w) n := List.mem_range'_1.mpr (by omega)
    have hpair : (List.range' (first + w) n).Pairwise
        fun a b => a - w ≠ id b ∧ a - w ≠ b - w := by
      refine (List.pairwise_lt_range' (s := first + w)).imp_of_mem fun {a b} ha hb hab => ?_
      have := List.mem_range'_1.mp ha
      exact ⟨by simp only [id]; omega, by omega⟩
    simpa using copyLoop_of_mem s hpair hmem
  · rename_i h
    refine copyLoop_of_ne s fun i hi hj => h ?_
    have := List.mem_range'_1.mp hi
    omega

theorem shiftUp_apply {w : ℕ} (hw : 0 < w) (first n : ℕ) (s : ℕ → α) (j : ℕ) :
    copyLoop id (· + w) (List.range' first n).reverse s j =
      if first + w ≤ j ∧ j < first + w + n then s (j - w) else s j := by
  split
  · rename_i h
    have hmem : j - w ∈ (List.range' first n).reverse :=
      List.mem_reverse.mpr (List.mem_range'_1.mpr (by omega))
    have hpair : (List.range' first n).reverse.Pairwise
        fun a b => a + w ≠ id b ∧ a + w ≠ b + w := by
      rw [List.pairwise_reverse]
      refine (List.pairwise_lt_range' (s := first)).imp fun {a b} hab => ?_
      exact ⟨by simp only [id]; omega, by omega⟩
    have hcopy := copyLoop_of_mem s hpair hmem
    rwa [Nat.sub_add_cancel (by omega)] at hcopy
  · rename_i h
    refine copyLoop_of_ne s fun i hi hj => h ?_
    have := List.mem_range'_1.mp (List.mem_reverse.mp hi)
    omega

/-! ## Computing an interval in place

A loop that computes the entries of an interval one after another may read the entries it has
computed and the ones it has not. -/

/-- The array `s` with `n` entries of `t` in it, from `first` on. -/
def overlay (first n : ℕ) (t s : ℕ → α) : ℕ → α := fun j =>
  if first ≤ j ∧ j < first + n then t (j - first) else s j

theorem overlay_of_mem (first : ℕ) {n i : ℕ} (t s : ℕ → α) (hi : i < n) :
    overlay first n t s (first + i) = t i := by
  rw [overlay, if_pos (by omega), Nat.add_sub_cancel_left]

theorem overlay_of_not_mem {first n j : ℕ} (t s : ℕ → α) (h : j < first ∨ first + n ≤ j) :
    overlay first n t s j = s j := by
  rw [overlay, if_neg (by omega)]

@[simp] theorem overlay_zero (first : ℕ) (t s : ℕ → α) : overlay first 0 t s = s :=
  funext fun j => overlay_of_not_mem t s (by omega)

theorem overlay_congr {first n : ℕ} {t t' s s' : ℕ → α} (ht : ∀ i < n, t i = t' i)
    (hs : ∀ j, j < first ∨ first + n ≤ j → s j = s' j) :
    overlay first n t s = overlay first n t' s' := by
  funext j
  by_cases hj : first ≤ j ∧ j < first + n
  · rw [overlay, overlay, if_pos hj, if_pos hj]
    exact ht _ (by omega)
  · rw [overlay, overlay, if_neg hj, if_neg hj]
    exact hs j (by omega)

/-- Two intervals one after the other. -/
theorem overlay_append (first n m : ℕ) (t s : ℕ → α) :
    overlay (first + n) m (fun i => t (n + i)) (overlay first n t s) =
      overlay first (n + m) t s := by
  funext j
  by_cases hj : first + n ≤ j ∧ j < first + n + m
  · rw [overlay, if_pos hj, overlay, if_pos (by omega)]
    congr 1
    omega
  · rw [overlay, if_neg hj, overlay, overlay]
    exact if_congr (by omega) rfl rfl

theorem overlay_overlay (first n : ℕ) (t t' s : ℕ → α) :
    overlay first n t (overlay first n t' s) = overlay first n t s := by
  funext j
  by_cases hj : first ≤ j ∧ j < first + n
  · exact (if_pos hj).trans (if_pos hj).symm
  · exact (if_neg hj).trans ((if_neg hj).trans (if_neg hj).symm)

theorem overlay_succ (first n : ℕ) (t s : ℕ → α) :
    overlay first (n + 1) t s = Function.update (overlay first n t s) (first + n) (t n) := by
  funext j
  by_cases hlast : j = first + n
  · subst hlast
    rw [Function.update_self, overlay_of_mem first t s (Nat.lt_succ_self n)]
  · rw [Function.update_of_ne hlast, overlay, overlay]
    exact if_congr (by omega) rfl rfl

/-- The loop `for i < n: s[first + i] = f(s, i)`. -/
def scanLoop (f : (ℕ → α) → ℕ → α) (first n : ℕ) (s : ℕ → α) : ℕ → α :=
  (List.range n).foldl (fun s i => Function.update s (first + i) (f s i)) s

theorem scanLoop_succ (f : (ℕ → α) → ℕ → α) (first n : ℕ) (s : ℕ → α) :
    scanLoop f first (n + 1) s =
      Function.update (scanLoop f first n s) (first + n) (f (scanLoop f first n s) n) := by
  rw [scanLoop, List.range_succ, List.foldl_append]
  rfl

/-- Entries that each turn computes when it finds the earlier ones are the result of the loop. -/
theorem scanLoop_eq_overlay {f : (ℕ → α) → ℕ → α} {t s : ℕ → α} {first n : ℕ}
    (h : ∀ i < n, f (overlay first i t s) i = t i) :
    scanLoop f first n s = overlay first n t s := by
  induction n with
  | zero => exact (overlay_zero first t s).symm
  | succ n ih =>
    rw [scanLoop_succ, ih fun i hi => h i (Nat.lt_succ_of_lt hi), h n (Nat.lt_succ_self n),
      overlay_succ]

theorem overlay_update {first n p : ℕ} (t s : ℕ → α) (v : α) (hp : p < first ∨ first + n ≤ p) :
    overlay first n t (Function.update s p v) = Function.update (overlay first n t s) p v := by
  funext j
  by_cases hj : j = p
  · subst hj
    rw [Function.update_self, overlay_of_not_mem t _ hp, Function.update_self]
  · rw [Function.update_of_ne hj, overlay, overlay, Function.update_of_ne hj]

/-- An entry outside of the interval stays as it is. -/
theorem scanLoop_of_not_mem {f : (ℕ → α) → ℕ → α} {first n j : ℕ} (s : ℕ → α)
    (h : j < first ∨ first + n ≤ j) : scanLoop f first n s j = s j := by
  induction n with
  | zero => rfl
  | succ n ih => rw [scanLoop_succ, Function.update_of_ne (by omega), ih (by omega)]

/-- An entry outside of the interval that no turn reads does not matter. -/
theorem scanLoop_update {f : (ℕ → α) → ℕ → α} {first n p : ℕ} (s : ℕ → α) (v : α)
    (hp : p < first ∨ first + n ≤ p)
    (h : ∀ i < n, ∀ s, f (Function.update s p v) i = f s i) :
    scanLoop f first n (Function.update s p v) = Function.update (scanLoop f first n s) p v := by
  induction n with
  | zero => rfl
  | succ n ih =>
    rw [scanLoop_succ, scanLoop_succ, ih (by omega) fun i hi => h i (Nat.lt_succ_of_lt hi),
      h n (Nat.lt_succ_self n), Function.update_comm (by omega)]

end Cryptix.Lib
