import Mathlib.Logic.Function.Iterate
import Mathlib.Order.Basic

/-!
# Chains of links

What one comes to from an element by a function that links each to the next, as long as it is of
some kind. Where the elements of the kind come to an end there are no two alike among them
(`Links.ne_of_lt`), since behind two that are alike the same would follow again and again.
-/

namespace Cryptix.Lib

variable {α : Type*} {p : α → Prop} {f g : α → α} {a : α} {n m i j : ℕ}

/-- From `a` on there are `n` elements of a kind, and then one that is not. -/
structure Links (p : α → Prop) (f : α → α) (a : α) (n : ℕ) : Prop where
  mem : ∀ i < n, p (f^[i] a)
  stop : ¬ p (f^[n] a)

namespace Links

theorem zero_iff : Links p f a 0 ↔ ¬ p a :=
  ⟨Links.stop, fun h => ⟨fun i hi => absurd hi (Nat.not_lt_zero i), h⟩⟩

theorem succ_iff : Links p f a (n + 1) ↔ p a ∧ Links p f (f a) n := by
  constructor
  · intro h
    exact ⟨h.mem 0 (Nat.succ_pos n), fun i hi => h.mem (i + 1) (Nat.succ_lt_succ hi), h.stop⟩
  · rintro ⟨hfirst, hrest⟩
    refine ⟨fun i hi => ?_, hrest.stop⟩
    cases i with
    | zero => exact hfirst
    | succ i => exact hrest.mem i (Nat.lt_of_succ_lt_succ hi)

theorem unique (h : Links p f a n) (h' : Links p f a m) : n = m := by
  rcases Nat.lt_trichotomy n m with hlt | heq | hlt
  · exact absurd (h'.mem n hlt) h.stop
  · exact heq
  · exact absurd (h.mem m hlt) h'.stop

/-- Two elements that are alike are one. -/
theorem ne_of_lt (h : Links p f a n) (hij : i < j) (hj : j ≤ n) : f^[i] a ≠ f^[j] a := by
  intro heq
  have hlast : f^[n - j + i] a = f^[n] a := by
    rw [Function.iterate_add_apply, heq, ← Function.iterate_add_apply, Nat.sub_add_cancel hj]
  exact h.stop (hlast ▸ h.mem (n - j + i) (by omega))

/-- What is linked to itself is not of the kind. -/
theorem not_mem_of_fixed (h : Links p f a n) (hfixed : f a = a) : ¬ p a := by
  have hstop := h.stop
  rwa [Function.iterate_fixed hfixed n] at hstop

end Links

/-- Links that agree along the way lead to the same. -/
theorem iterate_congr (h : ∀ i < n, g (f^[i] a) = f (f^[i] a)) : g^[n] a = f^[n] a := by
  induction n with
  | zero => rfl
  | succ n ih =>
    rw [Function.iterate_succ_apply', Function.iterate_succ_apply',
      ih fun i hi => h i (Nat.lt_succ_of_lt hi), h n (Nat.lt_succ_self n)]

end Cryptix.Lib
