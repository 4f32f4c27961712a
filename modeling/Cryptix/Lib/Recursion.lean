import Mathlib.Data.Fintype.EquivFin
import Mathlib.Logic.Relation
import Mathlib.Order.WellFounded

/-!
# Recursive procedures that need not end

A group of functions that call each other is a function `body : T → Proc T V V`: `T` are the calls
that can be made, `V` is what they return. `Proc T V W` is a piece of the code of such a function:
it returns a `W`, it makes a call and goes on with what the call returned, or it halts without
returning, as a failed assertion does.

`value body n t` is what the call `t` returns when calls are nested less than `n` deep, and
`Returns body p w` says that the code `p` returns `w` after finitely many steps. `value_induction`
is the rule for what every returned value has in common. On a finite type, that a call tree is
well founded and that no call comes back to itself are the same (`acc_iff_acyclic`).
-/

namespace Cryptix.Lib

universe u

variable {T V : Type*} {W X : Type u}

/-- Code that may call. -/
inductive Proc (T V : Type*) (W : Type u)
  | ret (w : W)
  | call (t : T) (next : V → Proc T V W)
  | halt

namespace Proc

/-- Goes on with the result of a piece of code. -/
def bind : Proc T V W → (W → Proc T V X) → Proc T V X
  | ret w, k => k w
  | call t next, k => call t fun v => (next v).bind k
  | halt, _ => halt

instance : Monad (Proc T V) where
  pure := ret
  bind := bind

protected theorem pure_bind (w : W) (k : W → Proc T V X) : pure w >>= k = k w := rfl

/-- The call `t`, whose result is returned. -/
def perform (t : T) : Proc T V V := call t ret

/-- Runs the code with `f` in place of the calls. -/
def run (f : T → Option V) : Proc T V W → Option W
  | ret w => some w
  | call t next => (f t).bind fun v => (next v).run f
  | halt => none

variable {f g : T → Option V}

@[simp] theorem run_pure (w : W) : (pure w : Proc T V W).run f = some w := rfl

@[simp] theorem run_halt : (halt : Proc T V W).run f = none := rfl

@[simp] theorem run_perform (t : T) : (perform t : Proc T V V).run f = f t := by
  simp [perform, run]

@[simp] theorem run_bind (p : Proc T V W) (k : W → Proc T V X) :
    (p >>= k).run f = (p.run f).bind fun w => (k w).run f := by
  change (p.bind k).run f = _
  induction p with
  | ret w => rfl
  | call t next ih => simp [bind, run, ih, Option.bind_assoc]
  | halt => rfl

/-- Code that has returned returns the same when more calls return. -/
theorem run_mono (hfg : ∀ t v, f t = some v → g t = some v) {p : Proc T V W} {w : W}
    (h : p.run f = some w) : p.run g = some w := by
  induction p with
  | ret _ => exact h
  | call t next ih =>
    obtain ⟨v, hv, hw⟩ := Option.bind_eq_some_iff.mp h
    exact Option.bind_eq_some_iff.mpr ⟨v, hfg t v hv, ih v hw⟩
  | halt => cases h

/-- What a call returns when calls are nested less than `n` deep. -/
def value (body : T → Proc T V V) : ℕ → T → Option V
  | 0, _ => none
  | n + 1, t => (body t).run (value body n)

variable {body : T → Proc T V V}

theorem value_mono {n m : ℕ} (hnm : n ≤ m) {t : T} {v : V} (h : value body n t = some v) :
    value body m t = some v := by
  induction n generalizing m t v with
  | zero => cases h
  | succ n ih =>
    obtain ⟨m, rfl⟩ : ∃ k, m = k + 1 := ⟨m - 1, by omega⟩
    exact run_mono (fun _ _ => ih (by omega)) h

/-- The code `p` returns `w`. -/
def Returns (body : T → Proc T V V) (p : Proc T V W) (w : W) : Prop :=
  ∃ n, p.run (value body n) = some w

/-- The code `p` returns. -/
def Ends (body : T → Proc T V V) (p : Proc T V W) : Prop :=
  ∃ w, Returns body p w

theorem Returns.unique {p : Proc T V W} {w w' : W} (h : Returns body p w)
    (h' : Returns body p w') : w = w' := by
  obtain ⟨n, hn⟩ := h
  obtain ⟨m, hm⟩ := h'
  have hn' := run_mono (fun t v => value_mono (le_max_left n m)) hn
  have hm' := run_mono (fun t v => value_mono (le_max_right n m)) hm
  exact Option.some.inj (hn'.symm.trans hm')

@[simp] theorem returns_pure {w w' : W} : Returns body (pure w) w' ↔ w = w' := by
  simp [Returns]

@[simp] theorem not_returns_halt {w : W} : ¬Returns body (halt : Proc T V W) w := by
  simp [Returns]

/-- A call returns what its body returns. -/
@[simp] theorem returns_perform {t : T} {v : V} :
    Returns body (perform t) v ↔ Returns body (body t) v := by
  constructor
  · rintro ⟨n, hn⟩
    rw [run_perform] at hn
    cases n with
    | zero => cases hn
    | succ n => exact ⟨n, hn⟩
  · rintro ⟨n, hn⟩
    exact ⟨n + 1, by rwa [run_perform]⟩

@[simp] theorem returns_bind {p : Proc T V W} {k : W → Proc T V X} {x : X} :
    Returns body (p >>= k) x ↔ ∃ w, Returns body p w ∧ Returns body (k w) x := by
  constructor
  · rintro ⟨n, hn⟩
    rw [run_bind, Option.bind_eq_some_iff] at hn
    obtain ⟨w, hw, hx⟩ := hn
    exact ⟨w, ⟨n, hw⟩, n, hx⟩
  · rintro ⟨w, ⟨n, hw⟩, m, hx⟩
    refine ⟨max n m, ?_⟩
    rw [run_bind, Option.bind_eq_some_iff]
    exact ⟨w, run_mono (fun _ _ => value_mono (le_max_left n m)) hw,
      run_mono (fun _ _ => value_mono (le_max_right n m)) hx⟩

@[simp] theorem ends_pure {w : W} : Ends body (pure w : Proc T V W) := ⟨w, by simp⟩

@[simp] theorem not_ends_halt : ¬Ends body (halt : Proc T V W) := by
  simp [Ends]

@[simp] theorem ends_perform {t : T} : Ends body (perform t) ↔ Ends body (body t) := by
  simp [Ends]

theorem ends_bind {p : Proc T V W} {k : W → Proc T V X} :
    Ends body (p >>= k) ↔ ∃ w, Returns body p w ∧ Ends body (k w) := by
  simp only [Ends, returns_bind]
  constructor
  · rintro ⟨x, w, hw, hx⟩
    exact ⟨w, hw, x, hx⟩
  · rintro ⟨w, hw, x, hx⟩
    exact ⟨x, w, hw, hx⟩

/-- Code that is known to return goes on with what it returns. -/
theorem Returns.ends_bind_iff {p : Proc T V W} {k : W → Proc T V X} {w : W}
    (h : Returns body p w) : Ends body (p >>= k) ↔ Ends body (k w) := by
  rw [ends_bind]
  constructor
  · rintro ⟨w', hw', hk⟩
    rwa [h.unique hw']
  · exact fun hk => ⟨w, h, hk⟩

theorem returns_of_value {n : ℕ} {t : T} {v : V} (h : value body n t = some v) :
    Returns body (body t) v := by
  cases n with
  | zero => cases h
  | succ n => exact ⟨n, h⟩

/-- Code that returns when only some of the calls that return are answered. -/
theorem returns_of_run (hf : ∀ t v, f t = some v → Returns body (body t) v) {p : Proc T V W} {w : W}
    (h : p.run f = some w) : Returns body p w := by
  induction p with
  | ret _ => exact returns_pure.mpr (Option.some.inj h)
  | call t next ih =>
    obtain ⟨v, hv, hw⟩ := Option.bind_eq_some_iff.mp h
    obtain ⟨n, hn⟩ := hf t v hv
    obtain ⟨m, hm⟩ := ih v hw
    have ht : value body (n + 1) t = some v := hn
    refine ⟨max (n + 1) m, Option.bind_eq_some_iff.mpr ⟨v, ?_, ?_⟩⟩
    · exact value_mono (le_max_left _ _) ht
    · exact run_mono (fun _ _ => value_mono (le_max_right _ _)) hm
  | halt => cases h

/-- What the bodies establish for their own result, given it for the results of the calls they
make, holds of every result. -/
theorem value_induction {Q : T → V → Prop}
    (hbody : ∀ f : T → Option V, (∀ t v, f t = some v → Returns body (body t) v ∧ Q t v) →
      ∀ t v, (body t).run f = some v → Q t v)
    {t : T} {v : V} (h : Returns body (body t) v) : Q t v := by
  have hall : ∀ n t v, value body n t = some v → Q t v := by
    intro n
    induction n with
    | zero => intro t v hv; cases hv
    | succ n ih =>
      intro t v hv
      exact hbody (value body n) (fun u w hw => ⟨returns_of_value hw, ih u w hw⟩) t v hv
  obtain ⟨n, hn⟩ := h
  exact hall (n + 1) t v hn

end Proc

/-- On a finite type, no chain of steps from `a` goes on for ever exactly when no element that
steps lead to from `a` leads back to itself. -/
theorem acc_iff_acyclic {α : Type*} [Finite α] {r : α → α → Prop} {a : α} :
    Acc (flip r) a ↔ ∀ b, Relation.ReflTransGen r a b → ¬Relation.TransGen r b b := by
  constructor
  · intro h
    induction h with
    | intro a _ ih =>
      intro b hab hbb
      rcases Relation.ReflTransGen.cases_head hab with rfl | ⟨c, hac, hcb⟩
      · -- a cycle through `a` is also a cycle through the element after it
        obtain ⟨c, hac, hca⟩ := Relation.TransGen.head'_iff.mp hbb
        exact ih c hac c .refl (Relation.TransGen.tail' hca hac)
      · exact ih c hac b hcb hbb
  · intro h
    -- the elements that steps lead to from `a` form a finite acyclic graph
    let S := {b // Relation.ReflTransGen r a b}
    let s : S → S → Prop := fun x y => Relation.TransGen r y.1 x.1
    have : IsTrans S s := ⟨fun _ _ _ hxy hyz => hyz.trans hxy⟩
    have : Std.Irrefl s := ⟨fun x hx => h x.1 x.2 hx⟩
    have hwf : WellFounded s := Finite.wellFounded_of_trans_of_irrefl s
    have hacc : ∀ x : S, Acc (flip r) x.1 := by
      intro x
      induction x using hwf.induction with
      | _ x ih =>
        exact ⟨_, fun y hy => ih ⟨y, x.2.tail hy⟩ (.single hy)⟩
    exact hacc ⟨a, .refl⟩

end Cryptix.Lib
