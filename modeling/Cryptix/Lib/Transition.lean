import Mathlib.Data.List.Basic

/-!
# Runs of a deterministic system

A component is a function `step : σ → α → Option σ`: in state `s` the call `a` either returns and
leaves a new state, or does not return (`none`, a panic). `Reaches step ok s₀ s` says that some run
from `s₀` ends in `s`, every call of which met the discipline `ok` in the state it was made in.
`Reaches.invariant` is the induction principle every safety theorem below is an instance of.
`Along` looks at the calls of one run instead of at the states it goes through.
-/

namespace Cryptix.Lib

variable {σ α : Type*}

/-- `s` is the end of a run from `s₀` whose calls all meet `ok`. -/
inductive Reaches (step : σ → α → Option σ) (ok : σ → α → Prop) (s₀ : σ) : σ → Prop
  | refl : Reaches step ok s₀ s₀
  | tail {s s' : σ} (a : α) :
      Reaches step ok s₀ s → ok s a → step s a = some s' → Reaches step ok s₀ s'

/-- The discipline that allows every call. -/
def anyCall : σ → α → Prop := fun _ _ => True

instance (s : σ) (a : α) : Decidable (anyCall s a) := inferInstanceAs (Decidable True)

namespace Reaches

variable {step : σ → α → Option σ} {ok ok' : σ → α → Prop} {s₀ s : σ}

/-- What the first state has and every allowed call preserves, every reached state has. -/
theorem invariant {P : σ → Prop} (h : Reaches step ok s₀ s) (h₀ : P s₀)
    (hstep : ∀ s a s', P s → ok s a → step s a = some s' → P s') : P s := by
  induction h with
  | refl => exact h₀
  | tail a _ hok hs ih => exact hstep _ a _ ih hok hs

/-- A run that meets a discipline meets every weaker one. -/
theorem mono (h : Reaches step ok s₀ s) (hok : ∀ s a, ok s a → ok' s a) :
    Reaches step ok' s₀ s :=
  h.invariant .refl fun _ a _ hs ha hstep => .tail a hs (hok _ a ha) hstep

/-- A call in front of a run. -/
theorem head {s₁ : σ} (a : α) (hok : ok s₀ a) (hs : step s₀ a = some s₁)
    (h : Reaches step ok s₁ s) : Reaches step ok s₀ s := by
  induction h with
  | refl => exact .tail a .refl hok hs
  | tail b _ hb hsb ih => exact .tail b ih hb hsb

/-- The run that makes a list of calls and stops at the first one that is not allowed. -/
def runList (step : σ → α → Option σ) (ok : σ → α → Prop) [∀ s a, Decidable (ok s a)]
    (s₀ : σ) (calls : List α) : Option σ :=
  calls.foldlM (fun s a => if ok s a then step s a else none) s₀

/-- Where a list of calls gets to is reached. -/
theorem of_list [∀ s a, Decidable (ok s a)] (calls : List α)
    (h : runList step ok s₀ calls = some s) : Reaches step ok s₀ s := by
  induction calls generalizing s₀ with
  | nil =>
    obtain rfl : s₀ = s := by simpa [runList] using h
    exact .refl
  | cons a as ih =>
    rw [runList, List.foldlM_cons, Option.bind_eq_bind, Option.bind_eq_some_iff] at h
    obtain ⟨s₁, hs₁, hrest⟩ := h
    split at hs₁
    · rename_i hok
      exact head a hok hs₁ (ih hrest)
    · exact absurd hs₁ (by simp)

end Reaches

/-- What holds before a loop over a list and is kept by every turn holds after the loop. -/
theorem foldlM_invariant {step : σ → α → Option σ} {P : σ → Prop} {s s' : σ} {l : List α}
    (h : l.foldlM step s = some s') (hs : P s)
    (hstep : ∀ a ∈ l, ∀ s s', P s → step s a = some s' → P s') : P s' := by
  induction l generalizing s with
  | nil =>
    obtain rfl : s = s' := by simpa using h
    exact hs
  | cons a as ih =>
    rw [List.foldlM_cons, Option.bind_eq_bind, Option.bind_eq_some_iff] at h
    obtain ⟨s₁, hs₁, hrest⟩ := h
    exact ih hrest (hstep a List.mem_cons_self s s₁ hs hs₁)
      fun b hb => hstep b (List.mem_cons_of_mem _ hb)

/-- Every call of a list, made one after the other from `s`, has the property `P` in the state it
is made in. -/
def Along (step : σ → α → Option σ) (P : σ → α → Prop) : σ → List α → Prop
  | _, [] => True
  | s, a :: as => P s a ∧ ∀ s', step s a = some s' → Along step P s' as

namespace Along

variable {step : σ → α → Option σ} {D P Q : σ → α → Prop} {s : σ} {calls : List α}

instance decidable [∀ s a, Decidable (P s a)] :
    ∀ (s : σ) (calls : List α), Decidable (Along step P s calls)
  | _, [] => inferInstanceAs (Decidable True)
  | s, a :: as =>
    match h : step s a with
    | none => decidable_of_iff (P s a) (by simp [Along, h])
    | some s' =>
      have := decidable s' as
      decidable_of_iff (P s a ∧ Along step P s' as) (by simp [Along, h])

/-- A call in front of a list of calls. -/
theorem cons {a : α} {s' : σ} (ha : P s a) (hstep : step s a = some s')
    (h : Along step P s' calls) : Along step P s (a :: calls) :=
  ⟨ha, fun _ hs => Option.some.inj (hstep.symm.trans hs) ▸ h⟩

/-- Every run makes allowed calls when every call is allowed. -/
theorem anyCall : Along step anyCall s calls := by
  induction calls generalizing s with
  | nil => trivial
  | cons a as ih => exact ⟨trivial, fun _ _ => ih⟩

/-- A property of the calls themselves. -/
theorem of_mem {P : α → Prop} (h : ∀ a ∈ calls, P a) : Along step (fun _ a => P a) s calls := by
  induction calls generalizing s with
  | nil => trivial
  | cons a as ih => exact ⟨h a (by simp), fun _ _ => ih fun b hb => h b (by simp [hb])⟩

/-- Every call of a run has the property `P` when it has `Q`, wherever `I` holds, and the calls that
have `Q` preserve `I`. -/
theorem of_invariant {I : σ → Prop} (hs : I s) (hQ : Along step Q s calls)
    (hP : ∀ s a, I s → Q s a → P s a)
    (hinv : ∀ s a s', I s → Q s a → step s a = some s' → I s') : Along step P s calls := by
  induction calls generalizing s with
  | nil => trivial
  | cons a as ih =>
    obtain ⟨ha, hrest⟩ := hQ
    exact ⟨hP s a hs ha, fun s' hs' => ih (hinv s a s' hs ha hs') (hrest s' hs')⟩

/-- Two properties of a call that agree on the calls in the domain `D` wherever `I` holds agree
along every run in the domain, as long as the calls that have them preserve `I`. -/
theorem congr {I : σ → Prop} (hs : I s) (hD : Along step D s calls)
    (hPQ : ∀ s a, I s → D s a → (P s a ↔ Q s a))
    (hinv : ∀ s a s', I s → D s a → Q s a → step s a = some s' → I s') :
    Along step P s calls ↔ Along step Q s calls := by
  induction calls generalizing s with
  | nil => exact Iff.rfl
  | cons a as ih =>
    obtain ⟨ha, hrest⟩ := hD
    have h := hPQ s a hs ha
    have hnext : Q s a → ∀ s', step s a = some s' →
        (Along step P s' as ↔ Along step Q s' as) :=
      fun hQ s' hs' => ih (hinv s a s' hs ha hQ hs') (hrest s' hs')
    constructor
    · rintro ⟨hP, hall⟩
      exact ⟨h.mp hP, fun s' hs' => (hnext (h.mp hP) s' hs').mp (hall s' hs')⟩
    · rintro ⟨hQ, hall⟩
      exact ⟨h.mpr hQ, fun s' hs' => (hnext hQ s' hs').mpr (hall s' hs')⟩

end Along

/-! ## Loops that stop at a failure -/

/-- A loop over a list whose turns report success, left at the first one that does not. -/
def untilFailure (body : σ → α → Bool × σ) : σ → List α → Bool × σ
  | s, [] => (true, s)
  | s, a :: rest =>
    match body s a with
    | (false, s') => (false, s')
    | (true, s') => untilFailure body s' rest

section

variable {body : σ → α → Bool × σ} {s s' : σ}

theorem untilFailure_cons_true {a : α} {rest : List α} (h : body s a = (true, s')) :
    untilFailure body s (a :: rest) = untilFailure body s' rest := by
  rw [untilFailure, h]

theorem untilFailure_cons_false {a : α} {rest : List α} (h : body s a = (false, s')) :
    untilFailure body s (a :: rest) = (false, s') := by
  rw [untilFailure, h]

/-- After turns that all succeed the loop goes on with the rest. -/
theorem untilFailure_append {l₁ l₂ : List α} (h : untilFailure body s l₁ = (true, s')) :
    untilFailure body s (l₁ ++ l₂) = untilFailure body s' l₂ := by
  induction l₁ generalizing s with
  | nil =>
    obtain rfl : s = s' := (Prod.mk.inj h).2
    rfl
  | cons a l₁ ih =>
    rcases hbody : body s a with ⟨_ | _, s₁⟩
    · rw [untilFailure_cons_false hbody] at h
      cases h
    · rw [untilFailure_cons_true hbody] at h
      rw [List.cons_append, untilFailure_cons_true hbody, ih h]

/-- Turns that succeed and change nothing. -/
theorem untilFailure_of_same {l : List α} (h : ∀ a ∈ l, body s a = (true, s)) :
    untilFailure body s l = (true, s) := by
  induction l with
  | nil => rfl
  | cons a l ih =>
    rw [untilFailure_cons_true (h a List.mem_cons_self),
      ih fun b hb => h b (List.mem_cons_of_mem _ hb)]

/-- With a property `P` of the turns made that every successful turn carries on, the loop makes all
turns, or is left at a turn before which `P` holds. -/
theorem untilFailure_cases {P : List α → σ → Prop} (l : List α) (h : P [] s)
    (hturn : ∀ done a rest s s', l = done ++ a :: rest → P done s → body s a = (true, s') →
      P (done ++ [a]) s') :
    (∃ s', untilFailure body s l = (true, s') ∧ P l s') ∨
    ∃ done a rest s₁ s', l = done ++ a :: rest ∧ P done s₁ ∧ body s₁ a = (false, s') ∧
      untilFailure body s l = (false, s') := by
  -- over the turns that are left, with those made in front
  have hgo : ∀ (rest done : List α) (s : σ), l = done ++ rest → P done s →
      (∃ s', untilFailure body s rest = (true, s') ∧ P l s') ∨
      ∃ done a tail s₁ s', l = done ++ a :: tail ∧ P done s₁ ∧ body s₁ a = (false, s') ∧
        untilFailure body s rest = (false, s') := by
    intro rest
    induction rest with
    | nil =>
      intro done s hl hP
      rw [List.append_nil] at hl
      exact .inl ⟨s, rfl, hl ▸ hP⟩
    | cons a rest ih =>
      intro done s hl hP
      rcases hbody : body s a with ⟨_ | _, s₁⟩
      · exact .inr ⟨done, a, rest, s, s₁, hl, hP, hbody, untilFailure_cons_false hbody⟩
      · rw [untilFailure_cons_true hbody]
        exact ih (done ++ [a]) s₁ (by rw [hl, List.append_assoc]; rfl)
          (hturn done a rest s s₁ hl hP hbody)
  exact hgo l [] s rfl h

/-- A counted loop, with a property of the number of turns made. -/
theorem untilFailure_range_cases {body : σ → ℕ → Bool × σ} {P : ℕ → σ → Prop} (n : ℕ) (h : P 0 s)
    (hturn : ∀ i s s', i < n → P i s → body s i = (true, s') → P (i + 1) s') :
    (∃ s', untilFailure body s (List.range n) = (true, s') ∧ P n s') ∨
    ∃ i s₁ s', i < n ∧ P i s₁ ∧ body s₁ i = (false, s') ∧
      untilFailure body s (List.range n) = (false, s') := by
  -- a turn is the number of the turns made before it
  have hindex : ∀ {done rest : List ℕ} {a : ℕ}, List.range n = done ++ a :: rest →
      a = done.length ∧ done.length < n := by
    intro done rest a hl
    have hlen := congrArg List.length hl
    have hget := congrArg (fun l => l[done.length]?) hl
    rw [List.length_range, List.length_append, List.length_cons] at hlen
    have hlt : done.length < n := by omega
    simp only [List.getElem?_range hlt, List.getElem?_append_right (Nat.le_refl _), Nat.sub_self,
      List.getElem?_cons_zero, Option.some.injEq] at hget
    exact ⟨hget.symm, hlt⟩
  rcases untilFailure_cases (P := fun done => P done.length) (List.range n) h
    (fun done a rest s s' hl hP hbody => by
      obtain ⟨rfl, hlt⟩ := hindex hl
      rw [List.length_append, List.length_singleton]
      exact hturn _ s s' hlt hP hbody) with
    ⟨s', heq, hP⟩ | ⟨done, a, rest, s₁, s', hl, hP, hbody, heq⟩
  · rw [List.length_range] at hP
    exact .inl ⟨s', heq, hP⟩
  · obtain ⟨rfl, hlt⟩ := hindex hl
    exact .inr ⟨_, s₁, s', hlt, hP, hbody, heq⟩

/-- What holds before the loop and is kept by every turn, whether it succeeds or not, holds after
the loop. -/
theorem untilFailure_invariant {P : σ → Prop} (l : List α) (h : P s)
    (hturn : ∀ a ∈ l, ∀ s, P s → P (body s a).2) : P (untilFailure body s l).2 := by
  have hmem : ∀ {done rest : List α} {a : α}, l = done ++ a :: rest → a ∈ l := by
    rintro done rest a rfl
    simp
  have hkeep : ∀ done a rest s s', l = done ++ a :: rest → P s → body s a = (true, s') → P s' := by
    intro done a rest s s' hl hP hbody
    have hkept := hturn a (hmem hl) s hP
    rwa [hbody] at hkept
  rcases untilFailure_cases (P := fun _ => P) l h hkeep with
    ⟨s', heq, hP⟩ | ⟨done, a, rest, s₁, s', hl, hP, hbody, heq⟩
  · rwa [heq]
  · have hkept := hturn a (hmem hl) s₁ hP
    rw [hbody] at hkept
    rwa [heq]

end

end Cryptix.Lib
