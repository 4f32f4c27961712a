import Mathlib.Data.Nat.ModEq
import Cryptix.Lib.Transition
import Cryptix.Prism

/-!
# Sleeping until a timer fires

`Sleep` and `Tick` of `Kernel/Time/Time.cpp`. A `Timestep` is a number of nanoseconds in a word. An
armed timer counts down by what each tick that gets the lock of the timers takes for the time since
the last tick: its argument or, with a high-resolution clock, the difference of two readings.

`Sleep` adds up only one part of the duration, a tick that misses the lock is not made up for, and
with a high-resolution clock the monotonic clock stands still. `sleep_lawful_iff` says which runs
all that leaves right.
-/

namespace Cryptix.Time

open Lib

/-- A `Timer`. `triggers` counts the triggers of its event. -/
structure Timer where
  when : ℕ
  fired : Bool
  triggers : ℕ
  deriving DecidableEq, Repr

/-- The clocks and the armed timers. -/
structure Clocks where
  realTime : ℕ
  monotonic : ℕ
  armed : List Timer
  deriving DecidableEq, Repr

/-- A duration with a valid number of nanoseconds. -/
structure TimeSpec where
  sec : ℕ
  nsec : ℕ
  nsec_lt : nsec < 10 ^ 9

/-- A call of `Tick`: its argument, the reading of the high-resolution clock, if there is one and
if it can be read, and whether the lock of the timers is free. -/
structure TickCall where
  ns : ℕ
  highResClock : Option (Option ℕ)
  lockFree : Bool
  ns_lt : ns < wordCount

/-- One turn of the loop of `Tick` over the armed timers. -/
def Timer.advance (ns : ℕ) (timer : Timer) : Timer :=
  if timer.fired then timer
  else
    let when := if ns ≥ timer.when then 0 else timer.when - ns
    if when = 0 then ⟨when, true, timer.triggers + 1⟩ else { timer with when }

namespace Clocks

/-- The nanoseconds that a tick takes off the timers. -/
def elapsed (s : Clocks) (c : TickCall) : ℕ :=
  match c.highResClock with
  | some (some now) => wordSub now s.realTime
  | _ => c.ns

/-- `Tick`. -/
def tick (s : Clocks) (c : TickCall) : Clocks where
  realTime :=
    match c.highResClock with
    | none => offset s.realTime c.ns
    | some none => s.realTime
    | some (some now) => now
  monotonic := if c.highResClock.isSome then s.monotonic else offset s.monotonic c.ns
  armed := if c.lockFree then s.armed.map (Timer.advance (s.elapsed c)) else s.armed

end Clocks

namespace TimeSpec

/-- The nanoseconds for which `Sleep` arms its timer. -/
def sleepNs (d : TimeSpec) : ℕ :=
  if d.sec * 10 ^ 9 % wordCount = 0 then d.nsec else d.sec * 10 ^ 9 % wordCount

/-- `Sleep`, up to the point where it awaits the event of the timer. -/
def sleep (d : TimeSpec) (s : Clocks) : Clocks :=
  { s with armed := s.armed ++ [⟨d.sleepNs, false, 0⟩] }

/-- The duration, in nanoseconds. -/
def nanoseconds (d : TimeSpec) : ℕ := d.sec * 10 ^ 9 + d.nsec

end TimeSpec

/-! ## What the ticks have to do -/

/-- The clocks with the index of the timer of a sleep, the time since it was armed, and the part of
it that passed in ticks that missed the lock. -/
structure Sleeping where
  clocks : Clocks
  index : ℕ
  elapsed : ℕ
  missed : ℕ

def Sleeping.start (d : TimeSpec) (s : Clocks) : Sleeping := ⟨d.sleep s, s.armed.length, 0, 0⟩

def Sleeping.step (w : Sleeping) (c : TickCall) : Option Sleeping :=
  some
    { w with
      clocks := w.clocks.tick c
      elapsed := w.elapsed + w.clocks.elapsed c
      missed := if c.lockFree then w.missed else w.missed + w.clocks.elapsed c }

/-- A tick advances the monotonic clock by the time that has passed. The timer fires in it when the
tick gets the lock and the duration has passed, if it has not fired before, and then once. -/
structure Lawful (d : TimeSpec) (w : Sleeping) (c : TickCall) : Prop where
  monotonic :
    (w.clocks.tick c).monotonic ≡ w.clocks.monotonic + w.clocks.elapsed c [MOD wordCount]
  timer : ∃ t t', w.clocks.armed[w.index]? = some t ∧ (w.clocks.tick c).armed[w.index]? = some t' ∧
    (t'.fired = true ↔ t.fired = true ∨
      c.lockFree = true ∧ d.nanoseconds ≤ w.elapsed + w.clocks.elapsed c) ∧
    t'.triggers = if t'.fired then 1 else 0

/-- There is no high-resolution clock, or no time passes; and while the timer has not fired, a tick
that gets the lock leaves the elapsed time on the same side of the duration as of the sum of what
the timer was armed for and the time that ticks without the lock have missed. -/
def Meets (d : TimeSpec) (w : Sleeping) (c : TickCall) : Prop :=
  (c.highResClock = none ∨ w.clocks.elapsed c = 0) ∧
    (c.lockFree = true → ∀ t, w.clocks.armed[w.index]? = some t → t.fired = false →
      (d.sleepNs + w.missed ≤ w.elapsed + w.clocks.elapsed c ↔
        d.nanoseconds ≤ w.elapsed + w.clocks.elapsed c))

/-! ## When they do it -/

/-- Until the timer has fired, it is armed for what is left. -/
structure Inv (d : TimeSpec) (w : Sleeping) : Prop where
  timer : ∃ t, w.clocks.armed[w.index]? = some t ∧ t.triggers = (if t.fired then 1 else 0) ∧
    (t.fired = false → t.when + w.elapsed = d.sleepNs + w.missed)

theorem advance_of_fired {t : Timer} (ns : ℕ) (h : t.fired = true) : t.advance ns = t := by
  rw [Timer.advance, if_pos h]

theorem advance_of_le {t : Timer} {ns : ℕ} (h : t.fired = false) (hns : t.when ≤ ns) :
    t.advance ns = ⟨0, true, t.triggers + 1⟩ := by
  simp [Timer.advance, h, hns]

theorem advance_of_lt {t : Timer} {ns : ℕ} (h : t.fired = false) (hns : ns < t.when) :
    t.advance ns = ⟨t.when - ns, false, t.triggers⟩ := by
  have hpos : t.when - ns ≠ 0 := by omega
  simp [Timer.advance, h, Nat.not_le.mpr hns, hpos]

/-- A tick that gets the lock fires the timers that it brings to zero. -/
theorem advance_fired (t : Timer) (ns : ℕ) :
    (t.advance ns).fired = true ↔ t.fired = true ∨ t.when ≤ ns := by
  cases hfired : t.fired with
  | true => simp [advance_of_fired ns hfired, hfired]
  | false =>
    rcases Nat.lt_or_ge ns t.when with hns | hns
    · simp [advance_of_lt hfired hns, hns]
    · simp [advance_of_le hfired hns, hns]

theorem advance_triggers {t : Timer} (ns : ℕ) (h : t.triggers = if t.fired then 1 else 0) :
    (t.advance ns).triggers = if (t.advance ns).fired then 1 else 0 := by
  cases hfired : t.fired with
  | true => rwa [advance_of_fired ns hfired]
  | false =>
    rw [hfired] at h
    rcases Nat.lt_or_ge ns t.when with hns | hns
    · rw [advance_of_lt hfired hns]
      exact h
    · rw [advance_of_le hfired hns, h]
      rfl

theorem advance_when {t : Timer} {ns : ℕ} (h : (t.advance ns).fired = false) :
    t.fired = false ∧ (t.advance ns).when + ns = t.when := by
  have hnot := mt (advance_fired t ns).mpr (by simp [h])
  rw [not_or, Bool.not_eq_true] at hnot
  refine ⟨hnot.1, ?_⟩
  rw [advance_of_lt hnot.1 (Nat.lt_of_not_le hnot.2)]
  exact Nat.sub_add_cancel (Nat.le_of_not_le hnot.2)

theorem elapsed_lt (s : Clocks) (c : TickCall) : s.elapsed c < wordCount := by
  rw [Clocks.elapsed]
  split
  · exact Nat.mod_lt _ (by decide)
  · exact c.ns_lt

/-- The monotonic clock keeps up exactly without a high-resolution clock, or when no time passes. -/
theorem monotonic_iff (s : Clocks) (c : TickCall) :
    (s.tick c).monotonic ≡ s.monotonic + s.elapsed c [MOD wordCount] ↔
      c.highResClock = none ∨ s.elapsed c = 0 := by
  have hlt := elapsed_lt s c
  cases hclock : c.highResClock with
  | none =>
    refine iff_of_true ?_ (.inl rfl)
    simp only [Clocks.tick, Clocks.elapsed, hclock]
    exact Nat.mod_modEq _ _
  | some reading =>
    have hsame : (s.tick c).monotonic = s.monotonic := by
      rw [Clocks.tick]
      simp [hclock]
    rw [hsame]
    constructor
    · intro h
      have hzero : 0 ≡ s.elapsed c [MOD wordCount] := Nat.ModEq.add_left_cancel' s.monotonic h
      rw [Nat.ModEq, Nat.zero_mod, Nat.mod_eq_of_lt hlt] at hzero
      exact .inr hzero.symm
    · rintro (h | h)
      · cases h
      · rw [h, Nat.add_zero]

theorem getElem?_tick_armed (s : Clocks) (c : TickCall) (i : ℕ) :
    (s.tick c).armed[i]? =
      if c.lockFree then s.armed[i]?.map (Timer.advance (s.elapsed c)) else s.armed[i]? := by
  rw [Clocks.tick]
  cases c.lockFree with
  | true => exact List.getElem?_map
  | false => rfl

theorem lawful_iff {d : TimeSpec} {w : Sleeping} (h : Inv d w) (c : TickCall) :
    Lawful d w c ↔ Meets d w c := by
  obtain ⟨t, ht, htriggers, hwhen⟩ := h.timer
  have hclock := monotonic_iff w.clocks c
  have hnext := getElem?_tick_armed w.clocks c w.index
  rw [ht] at hnext
  cases hlock : c.lockFree with
  | false =>
    rw [hlock] at hnext
    refine ⟨fun hlawful => ⟨hclock.mp hlawful.monotonic, fun hfree => ?_⟩,
      fun hmeets => ⟨hclock.mpr hmeets.1, t, t, ht, hnext, by simp [hlock], htriggers⟩⟩
    rw [hlock] at hfree
    cases hfree
  | true =>
    rw [hlock, if_pos rfl, Option.map_some] at hnext
    -- the timer fires when what is left has passed
    have hfires : t.fired = false → (t.when ≤ w.clocks.elapsed c ↔
        d.sleepNs + w.missed ≤ w.elapsed + w.clocks.elapsed c) := by
      intro hfired
      have hleft := hwhen hfired
      omega
    constructor
    · intro hlawful
      refine ⟨hclock.mp hlawful.monotonic, fun _ t₁ ht₁ hfired => ?_⟩
      obtain ⟨t₂, t', ht₂, ht', hiff, -⟩ := hlawful.timer
      obtain rfl := Option.some.inj (ht.symm.trans ht₁)
      obtain rfl := Option.some.inj (ht.symm.trans ht₂)
      obtain rfl := Option.some.inj (hnext.symm.trans ht')
      rw [advance_fired, hfired, hfires hfired] at hiff
      simpa [hlock] using hiff
    · rintro ⟨hmonotonic, hsame⟩
      refine ⟨hclock.mpr hmonotonic, t, _, ht, hnext, ?_, advance_triggers _ htriggers⟩
      rw [advance_fired]
      cases hfired : t.fired with
      | true => simp
      | false => simp [hfires hfired, hsame hlock t ht hfired, hlock]

theorem Inv.step {d : TimeSpec} {w w' : Sleeping} {c : TickCall} (h : Inv d w)
    (hstep : w.step c = some w') : Inv d w' := by
  obtain ⟨t, ht, htriggers, hwhen⟩ := h.timer
  obtain rfl := Option.some.inj hstep
  have hnext := getElem?_tick_armed w.clocks c w.index
  rw [ht] at hnext
  cases hlock : c.lockFree with
  | false =>
    rw [hlock] at hnext
    refine ⟨t, hnext, htriggers, fun hfired => ?_⟩
    have hleft := hwhen hfired
    simp only [Bool.false_eq_true, if_false]
    omega
  | true =>
    rw [hlock, if_pos rfl, Option.map_some] at hnext
    refine ⟨_, hnext, advance_triggers _ htriggers, fun hfired => ?_⟩
    obtain ⟨hold, hleft⟩ := advance_when hfired
    have hwas := hwhen hold
    simp only [if_true]
    omega

theorem inv_start (d : TimeSpec) (s : Clocks) : Inv d (.start d s) where
  timer := ⟨⟨d.sleepNs, false, 0⟩, by simp [Sleeping.start, TimeSpec.sleep], rfl, fun _ => rfl⟩

/-- In every run of ticks after a timer was armed for a duration, every tick does what it has to
exactly when every tick meets its condition. -/
theorem sleep_lawful_iff (d : TimeSpec) (s : Clocks) (ticks : List TickCall) :
    Along Sleeping.step (Lawful d) (.start d s) ticks ↔
      Along Sleeping.step (Meets d) (.start d s) ticks := by
  apply Along.congr (inv_start d s) Along.anyCall
  · exact fun w c h _ => lawful_iff h c
  · exact fun w c w' h _ _ hstep => h.step hstep

/-- A sleep of a second and a half ends after a second. -/
theorem not_lawful_along_oneAndAHalf :
    ¬Along Sleeping.step (Lawful ⟨1, 500000000, by decide⟩)
      (.start ⟨1, 500000000, by decide⟩ ⟨0, 0, []⟩) [⟨1000000000, none, true, by decide⟩] := by
  rintro ⟨⟨-, t, t', ht, ht', hiff, -⟩, -⟩
  obtain rfl := Option.some.inj ht
  obtain rfl := Option.some.inj ht'
  revert hiff
  decide

end Cryptix.Time
