import Mathlib.Data.List.Basic
import Mathlib.Logic.Basic

/-!
# Computations that may run into a fault

A computation in `Except ε` stops at its first fault. `Computes x C a` says exactly when `x` does
not fault, as a condition `C` on its inputs, and that its value is then `a`. The rules below put
this together along a sequence of steps, so that one pass over a program gives both its value and
the weakest condition under which it has one.
-/

namespace Cryptix.Lib

universe u

variable {ε : Type*} {α β σ : Type u} {x : Except ε α} {C D : Prop} {a : α} {b : β}

/-- `x` succeeds exactly under `C`, and then with the value `a`. -/
structure Computes (x : Except ε α) (C : Prop) (a : α) : Prop where
  ok : C → x = .ok a
  fault : ¬C → ∃ e, x = .error e

namespace Computes

theorem pure (a : α) : Computes (Pure.pure a : Except ε α) True a :=
  ⟨fun _ => rfl, fun h => absurd trivial h⟩

theorem congr (h : Computes x C a) (hCD : C ↔ D) : Computes x D a :=
  ⟨fun hD => h.ok (hCD.mpr hD), fun hD => h.fault (mt hCD.mp hD)⟩

/-- The value matters only where the computation has one. -/
theorem congr_value {a' : α} (h : Computes x C a) (ha : C → a = a') : Computes x C a' :=
  ⟨fun hC => (h.ok hC).trans (congrArg _ (ha hC)), h.fault⟩

theorem bind {f : α → Except ε β} (h : Computes x C a) (hf : C → Computes (f a) D b) :
    Computes (x >>= f) (C ∧ D) b := by
  by_cases hC : C
  · rw [h.ok hC]
    exact (hf hC).congr ⟨fun hD => ⟨hC, hD⟩, And.right⟩
  · obtain ⟨e, he⟩ := h.fault hC
    rw [he]
    exact ⟨fun hCD => absurd hCD.1 hC, fun _ => ⟨e, rfl⟩⟩

theorem ite {p : Prop} [Decidable p] {y : Except ε α} {a' : α} (hx : p → Computes x C a)
    (hy : ¬p → Computes y D a') :
    Computes (if p then x else y) ((p → C) ∧ (¬p → D)) (if p then a else a') := by
  by_cases hp : p
  · rw [if_pos hp, if_pos hp]
    exact (hx hp).congr ⟨fun hC => ⟨fun _ => hC, fun hn => absurd hp hn⟩, fun h => h.1 hp⟩
  · rw [if_neg hp, if_neg hp]
    exact (hy hp).congr ⟨fun hD => ⟨fun h => absurd h hp, fun _ => hD⟩, fun h => h.2 hp⟩

/-- A check in front of a computation. -/
theorem guard {p : Prop} [Decidable p] {e : ε} (hx : p → Computes x C a) :
    Computes (if p then x else .error e) (p ∧ C) a := by
  by_cases hp : p
  · rw [if_pos hp]
    exact (hx hp).congr ⟨fun hC => ⟨hp, hC⟩, And.right⟩
  · rw [if_neg hp]
    exact ⟨fun hpC => absurd hpC.1 hp, fun _ => ⟨e, rfl⟩⟩

theorem isOk_iff (h : Computes x C a) : (∃ a, x = .ok a) ↔ C := by
  by_cases hC : C
  · exact iff_of_true ⟨a, h.ok hC⟩ hC
  · obtain ⟨e, he⟩ := h.fault hC
    refine iff_of_false ?_ hC
    rintro ⟨a, ha⟩
    cases he.symm.trans ha

/-- What follows a computation runs from its value. -/
theorem isOk_bind_iff {f : α → Except ε β} (h : Computes x C a) :
    (∃ r, x >>= f = .ok r) ↔ C ∧ ∃ r, f a = .ok r := by
  by_cases hC : C
  · rw [h.ok hC]
    exact ⟨fun hr => ⟨hC, hr⟩, And.right⟩
  · obtain ⟨e, he⟩ := h.fault hC
    rw [he]
    exact iff_of_false (fun ⟨_, hr⟩ => nomatch hr) fun hr => hC hr.1

/-- A loop, when the state before each turn is known. -/
theorem foldlM_range {step : σ → ℕ → Except ε σ} {S : ℕ → σ} {C : ℕ → Prop} (n : ℕ)
    (h : ∀ i < n, (∀ j < i, C j) → Computes (step (S i) i) (C i) (S (i + 1))) :
    Computes ((List.range n).foldlM step (S 0)) (∀ i < n, C i) (S n) := by
  induction n with
  | zero => exact (pure (S 0)).congr ⟨fun _ i hi => absurd hi (Nat.not_lt_zero i), fun _ => trivial⟩
  | succ n ih =>
    rw [List.range_succ, List.foldlM_append]
    have hloop := ih fun i hi => h i (Nat.lt_succ_of_lt hi)
    have hlast : (∀ i < n, C i) →
        Computes ([n].foldlM step (S n)) (C n) (S (n + 1)) := by
      intro hbefore
      rw [List.foldlM_cons]
      exact ((h n (Nat.lt_succ_self n) hbefore).bind fun _ => pure _).congr (iff_of_eq (and_true _))
    refine (hloop.bind hlast).congr ⟨fun ⟨hbefore, hn⟩ i hi => ?_, fun hall => ?_⟩
    · rcases Nat.lt_succ_iff_lt_or_eq.mp hi with hlt | rfl
      · exact hbefore i hlt
      · exact hn
    · exact ⟨fun i hi => hall i (Nat.lt_succ_of_lt hi), hall n (Nat.lt_succ_self n)⟩

end Computes

/-! ## Loops with an early return -/

/-- The loop `for i in l: body(i)`, which ends early at a turn that rejects with `false`, or at a
fault. -/
def untilRejected (body : σ → α → Except ε (Bool × σ)) : σ → List α → Except ε (Bool × σ)
  | s, [] => .ok (true, s)
  | s, a :: rest =>
    match body s a with
    | .error e => .error e
    | .ok (false, s) => .ok (false, s)
    | .ok (true, s) => untilRejected body s rest

/-- Every turn that the loop comes to meets a condition on the state before it. -/
def EveryTurn (body : σ → α → Except ε (Bool × σ)) (C : σ → α → Prop) : σ → List α → Prop
  | _, [] => True
  | s, a :: rest => C s a ∧ ∀ s', body s a = .ok (true, s') → EveryTurn body C s' rest

/-- The loop runs into no fault exactly if no turn that it comes to does. -/
theorem untilRejected_isOk_iff {body : σ → α → Except ε (Bool × σ)} {C : σ → α → Prop} (s : σ)
    (l : List α) (hbody : ∀ s, ∀ a ∈ l, (∃ r, body s a = .ok r) ↔ C s a) :
    (∃ r, untilRejected body s l = .ok r) ↔ EveryTurn body C s l := by
  induction l generalizing s with
  | nil => exact iff_of_true ⟨_, rfl⟩ trivial
  | cons a rest ih =>
    rw [untilRejected, EveryTurn, ← hbody s a List.mem_cons_self]
    match hturn : body s a with
    | .error e => exact iff_of_false nofun fun h => nomatch h.1
    | .ok (false, s') => exact iff_of_true ⟨_, rfl⟩ ⟨⟨_, rfl⟩, nofun⟩
    | .ok (true, s') =>
      have hrest := ih s' fun s b hb => hbody s b (List.mem_cons_of_mem a hb)
      refine hrest.trans ⟨fun hrest => ⟨⟨_, rfl⟩, fun s'' heq => ?_⟩, fun h => h.2 s' rfl⟩
      cases heq
      exact hrest

/-- A last turn. -/
theorem untilRejected_concat (body : σ → α → Except ε (Bool × σ)) (s : σ) (l : List α) (a : α) :
    untilRejected body s (l ++ [a]) =
      match untilRejected body s l with
      | .error e => .error e
      | .ok (false, t) => .ok (false, t)
      | .ok (true, t) => body t a := by
  induction l generalizing s with
  | nil =>
    simp only [List.nil_append, untilRejected]
    match hturn : body s a with
    | .error e => rfl
    | .ok (false, t) => rfl
    | .ok (true, t) => rfl
  | cons b rest ih =>
    rw [List.cons_append, untilRejected, untilRejected]
    match hturn : body s b with
    | .error e => rfl
    | .ok (false, t) => rfl
    | .ok (true, t) => exact ih t

theorem everyTurn_concat (body : σ → α → Except ε (Bool × σ)) (C : σ → α → Prop) (s : σ)
    (l : List α) (a : α) : EveryTurn body C s (l ++ [a]) ↔
      EveryTurn body C s l ∧ ∀ t, untilRejected body s l = .ok (true, t) → C t a := by
  induction l generalizing s with
  | nil =>
    rw [List.nil_append, EveryTurn, untilRejected]
    refine ⟨fun h => ⟨trivial, fun t ht => ?_⟩, fun h => ⟨h.2 s rfl, fun _ _ => trivial⟩⟩
    cases ht
    exact h.1
  | cons b rest ih =>
    rw [List.cons_append, EveryTurn, EveryTurn, untilRejected, and_assoc]
    refine and_congr_right fun _ => ?_
    match hturn : body s b with
    | .error e => exact iff_of_true nofun ⟨nofun, nofun⟩
    | .ok (false, t) => exact iff_of_true nofun ⟨nofun, nofun⟩
    | .ok (true, t) =>
      constructor
      · intro h
        obtain ⟨hrest, hlast⟩ := (ih t).mp (h t rfl)
        refine ⟨fun t' ht' => ?_, hlast⟩
        cases ht'
        exact hrest
      · rintro ⟨hrest, hlast⟩ t' ht'
        cases ht'
        exact (ih t).mpr ⟨hrest t rfl, hlast⟩

/-! ### Counted loops -/

section Counted

variable {τ : Type} {body : τ → ℕ → Except ε (Bool × τ)} {C : τ → ℕ → Prop} {s t u : τ}
  {i j n : ℕ} {e : ε}

/-- The loop `for i < n: body(i)` comes to turn `i`, with a state. -/
def ComesTo (body : τ → ℕ → Except ε (Bool × τ)) (s : τ) (i : ℕ) (t : τ) : Prop :=
  untilRejected body s (List.range i) = .ok (true, t)

theorem comesTo_zero_iff : ComesTo body s 0 t ↔ t = s :=
  ⟨fun h => by cases h; rfl, fun h => by rw [h]; rfl⟩

theorem comesTo_succ_iff :
    ComesTo body s (i + 1) u ↔ ∃ t, ComesTo body s i t ∧ body t i = .ok (true, u) := by
  rw [ComesTo, List.range_succ, untilRejected_concat]
  simp only [ComesTo]
  match untilRejected body s (List.range i) with
  | .error e => exact iff_of_false nofun fun ⟨_, h, _⟩ => nomatch h
  | .ok (false, t) => exact iff_of_false nofun fun ⟨_, h, _⟩ => nomatch h
  | .ok (true, t) =>
    refine ⟨fun h => ⟨t, rfl, h⟩, ?_⟩
    rintro ⟨t', ht, h⟩
    cases ht
    exact h

theorem ComesTo.succ (h : ComesTo body s i t) (hturn : body t i = .ok (true, u)) :
    ComesTo body s (i + 1) u :=
  comesTo_succ_iff.mpr ⟨t, h, hturn⟩

theorem ComesTo.unique (ht : ComesTo body s i t) (hu : ComesTo body s i u) : t = u := by
  cases ht.symm.trans hu
  rfl

/-- A loop that comes to a turn has come to those before it. -/
theorem ComesTo.before (h : ComesTo body s n u) (hi : i ≤ n) : ∃ t, ComesTo body s i t := by
  induction n generalizing u with
  | zero =>
    obtain rfl := Nat.le_zero.mp hi
    exact ⟨u, h⟩
  | succ n ih =>
    obtain ⟨t, ht, -⟩ := comesTo_succ_iff.mp h
    rcases Nat.le_succ_iff.mp hi with hlt | rfl
    · exact ih ht hlt
    · exact ⟨u, h⟩

/-- The turns before are right. -/
theorem ComesTo.turn (h : ComesTo body s n u) (hi : i < n) (ht : ComesTo body s i t) :
    ∃ v, body t i = .ok (true, v) := by
  obtain ⟨v, hv⟩ := h.before hi
  obtain ⟨t', ht', hturn⟩ := comesTo_succ_iff.mp hv
  exact ⟨v, ht.unique ht' ▸ hturn⟩

/-- What holds at the beginning, and is kept by a turn, holds at every turn. -/
theorem ComesTo.induct {I : ℕ → τ → Prop} (hinit : I 0 s)
    (hturn : ∀ i t u, i < n → ComesTo body s i t → I i t → body t i = .ok (true, u) → I (i + 1) u)
    (h : ComesTo body s n t) : I n t := by
  induction n generalizing t with
  | zero =>
    obtain rfl := comesTo_zero_iff.mp h
    exact hinit
  | succ n ih =>
    obtain ⟨t', ht, hlast⟩ := comesTo_succ_iff.mp h
    have hbefore := ih (fun i t u hi => hturn i t u (Nat.lt_succ_of_lt hi)) ht
    exact hturn n t' t (Nat.lt_succ_self n) ht hbefore hlast

/-- What a later turn finds, if it is kept by the turns in between. -/
theorem ComesTo.induct_from {I : ℕ → τ → Prop} (h : ComesTo body s i t) (hfrom : I i t)
    (hturn : ∀ j t u, i ≤ j → j < n → ComesTo body s j t → I j t → body t j = .ok (true, u) →
      I (j + 1) u)
    (hle : i ≤ n) (hn : ComesTo body s n u) : I n u := by
  induction hle generalizing u with
  | refl => exact h.unique hn ▸ hfrom
  | @step n hle ih =>
    obtain ⟨t', ht', hlast⟩ := comesTo_succ_iff.mp hn
    have hbefore := ih (fun j t u hj hlt => hturn j t u hj (Nat.lt_succ_of_lt hlt)) ht'
    exact hturn n t' u hle (Nat.lt_succ_self n) ht' hbefore hlast

/-- The turns that a counted loop comes to. -/
theorem everyTurn_range_iff : EveryTurn body C s (List.range n) ↔
    ∀ i < n, ∀ t, ComesTo body s i t → C t i := by
  induction n with
  | zero => exact iff_of_true trivial fun i hi => absurd hi (Nat.not_lt_zero i)
  | succ n ih =>
    rw [List.range_succ, everyTurn_concat, ih]
    constructor
    · rintro ⟨hbefore, hlast⟩ i hi
      rcases Nat.lt_succ_iff_lt_or_eq.mp hi with hlt | rfl
      · exact hbefore i hlt
      · exact hlast
    · exact fun h => ⟨fun i hi => h i (Nat.lt_succ_of_lt hi), h n (Nat.lt_succ_self n)⟩

/-- How a counted loop ends: behind its last turn, or at a turn that rejects or faults. -/
theorem untilRejected_range_cases (body : τ → ℕ → Except ε (Bool × τ)) (s : τ) (n : ℕ) :
    (∃ t, ComesTo body s n t) ∨
    ∃ i < n, ∃ t, ComesTo body s i t ∧ (∀ u, body t i ≠ .ok (true, u)) ∧
      untilRejected body s (List.range n) = body t i := by
  induction n with
  | zero => exact Or.inl ⟨s, comesTo_zero_iff.mpr rfl⟩
  | succ n ih =>
    rw [List.range_succ, untilRejected_concat]
    rcases ih with ⟨t, ht⟩ | ⟨i, hi, t, ht, hstop, hend⟩
    · have hrun : untilRejected body s (List.range n) = .ok (true, t) := ht
      rw [hrun]
      by_cases hlast : ∃ u, body t n = .ok (true, u)
      · exact Or.inl (hlast.imp fun u hu => ht.succ hu)
      · exact Or.inr ⟨n, Nat.lt_succ_self n, t, ht, not_exists.mp hlast, rfl⟩
    · refine Or.inr ⟨i, Nat.lt_succ_of_lt hi, t, ht, hstop, ?_⟩
      rw [hend]
      match hturn : body t i with
      | .error e => rfl
      | .ok (false, u) => rfl
      | .ok (true, u) => exact absurd hturn (hstop u)

/-- A counted loop runs into a fault exactly at a turn that it comes to. -/
theorem untilRejected_range_eq_error_iff : untilRejected body s (List.range n) = .error e ↔
    ∃ i < n, ∃ t, ComesTo body s i t ∧ body t i = .error e := by
  have hcases := untilRejected_range_cases body s n
  constructor
  · intro h
    rcases hcases with ⟨t, ht⟩ | ⟨i, hi, t, ht, -, hend⟩
    · exact nomatch h.symm.trans ht
    · exact ⟨i, hi, t, ht, hend.symm.trans h⟩
  · rintro ⟨i, hi, t, ht, hfault⟩
    have hnext : ∀ v, body t i ≠ .ok (true, v) := fun v hv => nomatch hfault.symm.trans hv
    rcases hcases with ⟨u, hu⟩ | ⟨j, -, u, hu, hstop, hend⟩
    · obtain ⟨v, hv⟩ := hu.turn hi ht
      exact absurd hv (hnext v)
    · rcases Nat.lt_trichotomy i j with hlt | rfl | hlt
      · obtain ⟨v, hv⟩ := hu.turn hlt ht
        exact absurd hv (hnext v)
      · rw [hend, hu.unique ht, hfault]
      · obtain ⟨v, hv⟩ := ht.turn hlt hu
        exact absurd hv (hstop v)

/-- The turns that should put out an item do, and no others. No such turn is left when the loop
ends. -/
def Emits {ω : Type*} (own : ℕ → Prop) [DecidablePred own] (item : ℕ → ω) (out : τ → List ω)
    (n : ℕ) (t : τ) (i : ℕ) : Except ε (Bool × τ) → Prop
  | .error _ => False
  | .ok (true, u) => out u = out t ++ if own i then [item i] else []
  | .ok (false, _) => ∀ j < n, own j → j < i

section Emits

variable {ω : Type*} {own : ℕ → Prop} [DecidablePred own] {item : ℕ → ω} {out : τ → List ω}

/-- Where each turn is right, so is the output so far. -/
theorem ComesTo.out_eq (hinit : out s = []) (hall : ∀ i < n, ∀ t, ComesTo body s i t →
      Emits own item out n t i (body t i)) (hle : i ≤ n) (h : ComesTo body s i t) :
    out t = ((List.range i).filter own).map item := by
  refine ComesTo.induct (I := fun i t => out t = ((List.range i).filter own).map item) hinit
    (fun j t u hj ht hout hturn => ?_) h
  have hright := hall j (Nat.lt_of_lt_of_le hj hle) t ht
  rw [hturn] at hright
  rw [hright, hout, List.range_succ, List.filter_append, List.map_append]
  by_cases hown : own j <;> simp [hown]

/-- No item is left behind the last one. -/
theorem filter_range_eq (hle : i ≤ n) (h : ∀ j < n, own j → j < i) :
    (List.range n).filter own = (List.range i).filter own := by
  induction hle with
  | refl => rfl
  | @step n hle ih =>
    have hlast : ¬ own n := fun hown =>
      Nat.not_lt_of_le hle (h n (Nat.lt_succ_self n) hown)
    rw [List.range_succ, List.filter_append, ih fun j hj => h j (Nat.lt_succ_of_lt hj),
      List.filter_singleton, decide_eq_false hlast]
    exact List.append_nil _

section Items

variable (hitem : Function.Injective item) (hinit : out s = [])
  (hcontinue : ∀ i t u, body t i = .ok (true, u) → out u = out t ∨ out u = out t ++ [item i])
include hinit hcontinue

/-- The items so far are those of turns so far. -/
theorem ComesTo.mem_out {x : ω} (h : ComesTo body s i t) (hx : x ∈ out t) :
    ∃ j < i, x = item j := by
  refine ComesTo.induct (I := fun i t => ∀ x ∈ out t, ∃ j < i, x = item j) ?_
    (fun j t u _ _ hout hturn x hx => ?_) h x hx
  · rw [hinit]
    exact fun x hx => absurd hx List.not_mem_nil
  · have hold : x ∈ out t → ∃ k < j + 1, x = item k := fun hx =>
      (hout x hx).imp fun k hk => ⟨Nat.lt_succ_of_lt hk.1, hk.2⟩
    rcases hcontinue j t u hturn with hsame | hnew
    · exact hold (hsame ▸ hx)
    · rw [hnew] at hx
      exact (List.mem_append.mp hx).elim hold fun hx =>
        ⟨j, Nat.lt_succ_self j, List.mem_singleton.mp hx⟩

include hitem

/-- Later turns tell whether a turn was right. -/
theorem ComesTo.emits (hu : ComesTo body s n u) (hi : i < n) (ht : ComesTo body s i t)
    (hown : own i ↔ item i ∈ out u) {k : ℕ} : Emits own item out k t i (body t i) := by
  obtain ⟨v, hv⟩ := hu.turn hi ht
  have hkeep : item i ∈ out u ↔ item i ∈ out v := by
    refine ComesTo.induct_from (I := fun _ u => item i ∈ out u ↔ item i ∈ out v) (ht.succ hv)
      Iff.rfl (fun j t u hj _ _ hsame hturn => ?_) hi hu
    rcases hcontinue j t u hturn with hout | hout
    · rw [hout, hsame]
    · have hne : ¬ item i = item j := fun heq => absurd (hitem heq) (Nat.ne_of_lt hj)
      rw [hout, List.mem_append, List.mem_singleton, or_iff_left hne, hsame]
  have hnot : item i ∉ out t := by
    intro hmem
    obtain ⟨j, hj, heq⟩ := ht.mem_out hinit hcontinue hmem
    exact absurd (hitem heq) (Nat.ne_of_gt hj)
  rw [hv, Emits]
  rcases hcontinue i t v hv with hout | hout
  · rw [hout] at hkeep
    rw [hout, if_neg fun h => hnot (hkeep.mp (hown.mp h)), List.append_nil]
  · have hmem : item i ∈ out v := by
      rw [hout]
      exact List.mem_append_right _ List.mem_cons_self
    rw [hout, if_pos (hown.mpr (hkeep.mpr hmem))]

/-- A loop of which each turn puts out its item, or nothing, puts out the right items exactly if
each turn that it comes to is right. -/
theorem untilRejected_emits_iff
    (hstop : ∀ i t u, body t i = .ok (false, u) → out u = out t) :
    (∃ b u, untilRejected body s (List.range n) = .ok (b, u) ∧
        out u = ((List.range n).filter own).map item) ↔
      ∀ i < n, ∀ t, ComesTo body s i t → Emits own item out n t i (body t i) := by
  have hcases := untilRejected_range_cases body s n
  constructor
  · rintro ⟨b, u, hrun, hout⟩ i hi t ht
    have hown : ∀ j < n, own j ↔ item j ∈ out u := by
      intro j hj
      rw [hout, List.mem_map_of_injective hitem, List.mem_filter, List.mem_range,
        decide_eq_true_eq, and_iff_right hj]
    rcases hcases with ⟨v, hv⟩ | ⟨k, hk, v, hv, hnext, hend⟩
    · cases hrun.symm.trans hv
      exact hv.emits hitem hinit hcontinue hi ht (hown i hi)
    · have hlast : body v k = .ok (b, u) := hend.symm.trans hrun
      match b, hlast with
      | true, hlast => exact absurd hlast (hnext u)
      | false, hlast =>
        rw [hstop k v u hlast] at hown
        rcases Nat.lt_trichotomy i k with hlt | rfl | hlt
        · exact hv.emits hitem hinit hcontinue hlt ht (hown i hi)
        · rw [ht.unique hv, hlast]
          intro j hj hj'
          obtain ⟨l, hl, heq⟩ := hv.mem_out hinit hcontinue ((hown j hj).mp hj')
          exact hitem heq ▸ hl
        · obtain ⟨w, hw⟩ := ht.turn hlt hv
          exact absurd hw (hnext w)
  · intro hall
    rcases hcases with ⟨t, ht⟩ | ⟨i, hi, t, ht, hnext, hend⟩
    · exact ⟨true, t, ht, ht.out_eq hinit hall (Nat.le_refl n)⟩
    · have hright := hall i hi t ht
      match hturn : body t i with
      | .error e =>
        rw [hturn] at hright
        exact absurd hright not_false
      | .ok (true, u) => exact absurd hturn (hnext u)
      | .ok (false, u) =>
        rw [hturn] at hright
        refine ⟨false, u, hend.trans hturn, ?_⟩
        rw [hstop i t u hturn, ht.out_eq hinit hall (Nat.le_of_lt hi),
          filter_range_eq (Nat.le_of_lt hi) hright]

end Items

end Emits

end Counted

/-! ## Scans of data that may be corrupt -/

/-- How a scan of data can go wrong: it reads outside of the data, or it does not end. -/
inductive ScanFault
  | outside
  | endless
  deriving DecidableEq, Repr

end Cryptix.Lib
