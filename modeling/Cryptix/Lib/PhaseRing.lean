import Mathlib.Data.Nat.ModEq
import Mathlib.Logic.Function.Basic
import Mathlib.Data.List.Basic

/-!
# Rings with a phase tag

A producer writes entries into a ring of `d` slots, one after the other and around again. It tags
each entry with the phase of the lap it was written in: true on the first lap, and flipped each time
the ring wraps. A consumer that follows behind and knows the phase of its own lap can tell a new
entry in its slot from the one that was written there a lap ago, or never.

`Laps` relates the ring to the list of all entries written so far. `Laps.tag_next` is the fact the
protocol lives on: the slot that is written next carries the wrong phase.
-/

namespace Cryptix.Lib

/-- The phase of the `n`th entry: true on even laps of `d` entries. -/
def lapTag (d n : ℕ) : Bool := n / d % 2 == 0

theorem lapTag_zero (d : ℕ) : lapTag d 0 = true := by
  simp [lapTag]

theorem lapTag_of_lt {d n : ℕ} (h : n < d) : lapTag d n = true := by
  simp [lapTag, Nat.div_eq_of_lt h]

/-- Consecutive laps have opposite phases. -/
private theorem parity_succ (lap : ℕ) : ((lap + 1) % 2 == 0) = !(lap % 2 == 0) := by
  rcases Nat.mod_two_eq_zero_or_one lap with h | h
  · simp [h, show (lap + 1) % 2 = 1 by omega]
  · simp [h, show (lap + 1) % 2 = 0 by omega]

/-- A lap later the phase is the opposite one. -/
theorem lapTag_add_self {d : ℕ} (hd : 0 < d) (n : ℕ) : lapTag d (n + d) = !lapTag d n := by
  rw [lapTag, lapTag, Nat.add_div_right n hd]
  exact parity_succ (n / d)

/-- The slot after the slot of the `n`th entry. -/
theorem slot_succ (d n : ℕ) : (n % d + 1) % d = (n + 1) % d :=
  Nat.mod_add_mod n d 1

/-- The phase flips exactly where the ring wraps. -/
theorem lapTag_succ (d n : ℕ) :
    lapTag d (n + 1) = if (n + 1) % d = 0 then !lapTag d n else lapTag d n := by
  rw [lapTag, lapTag, Nat.succ_div]
  by_cases hwrap : (n + 1) % d = 0
  · rw [if_pos hwrap, if_pos (Nat.dvd_of_mod_eq_zero hwrap)]
    exact parity_succ (n / d)
  · rw [if_neg hwrap, if_neg fun h => hwrap (Nat.mod_eq_zero_of_dvd h), Nat.add_zero]

variable {α : Type*} {tag : α → Bool} {d : ℕ} {ring : ℕ → α} {log : List α}

/-- The ring after the entries of `log` have been written into it, starting from a ring whose tags
were all false. -/
structure Laps (tag : α → Bool) (d : ℕ) (ring : ℕ → α) (log : List α) : Prop where
  /-- The last `d` entries are still there. -/
  recent : ∀ k e, log[k]? = some e → log.length ≤ k + d → ring (k % d) = e
  tagged : ∀ k e, log[k]? = some e → tag e = lapTag d k
  /-- Slots of the first lap that have not been written yet. -/
  untouched : ∀ i, log.length ≤ i → i < d → tag (ring i) = false

namespace Laps

theorem nil (h : ∀ i < d, tag (ring i) = false) : Laps tag d ring [] :=
  ⟨by simp, by simp, fun i _ hi => h i hi⟩

/-- The slot that is written next does not carry the phase of the entry it is waiting for. -/
theorem tag_next (h : Laps tag d ring log) (hd : 0 < d) :
    tag (ring (log.length % d)) = !lapTag d log.length := by
  by_cases hlt : log.length < d
  · rw [Nat.mod_eq_of_lt hlt, h.untouched _ le_rfl hlt, lapTag_of_lt hlt]
    rfl
  · -- the entry there was written exactly one lap ago
    obtain ⟨k, hk⟩ : ∃ k, log.length = k + d := ⟨log.length - d, by omega⟩
    obtain ⟨e, he⟩ : ∃ e, log[k]? = some e := ⟨log[k], by simp [hk, hd]⟩
    have hslot : ring (k % d) = e := h.recent k e he hk.le
    rw [hk, Nat.add_mod_right, hslot, h.tagged k e he, lapTag_add_self hd, Bool.not_not]

/-- Writing the next entry with the phase of its lap. -/
theorem post (h : Laps tag d ring log) {e : α} (he : tag e = lapTag d log.length) :
    Laps tag d (Function.update ring (log.length % d) e) (log ++ [e]) := by
  refine ⟨fun k e' hk hlast => ?_, fun k e' hk => ?_, fun i hi hid => ?_⟩
  · rw [List.length_append, List.length_singleton] at hlast
    rcases Nat.lt_or_ge k log.length with hlt | hge
    · rw [List.getElem?_append_left hlt] at hk
      -- the other entries of the last lap are in other slots
      have hne : k % d ≠ log.length % d := by
        intro heq
        have hdvd : d ∣ log.length - k := (Nat.modEq_iff_dvd' hlt.le).mp heq
        have hge := Nat.le_of_dvd (by omega) hdvd
        omega
      rw [Function.update_of_ne hne]
      exact h.recent k e' hk (by omega)
    · obtain rfl : k = log.length := by
        have hlen := (List.getElem?_eq_some_iff.mp hk).1
        rw [List.length_append, List.length_singleton] at hlen
        omega
      rw [Function.update_self]
      simpa using hk
  · rcases Nat.lt_or_ge k log.length with hlt | hge
    · rw [List.getElem?_append_left hlt] at hk
      exact h.tagged k e' hk
    · obtain rfl : k = log.length := by
        have hlen := (List.getElem?_eq_some_iff.mp hk).1
        rw [List.length_append, List.length_singleton] at hlen
        omega
      obtain rfl : e = e' := by simpa using hk
      exact he
  · rw [List.length_append, List.length_singleton] at hi
    rw [Function.update_of_ne (by rw [Nat.mod_eq_of_lt (by omega)]; omega)]
    exact h.untouched i (by omega) hid

/-- What a consumer that has taken `m` entries finds in its slot: the phase it expects exactly when
the producer has written past it. -/
theorem tag_eq_iff (h : Laps tag d ring log) (hd : 0 < d) {m : ℕ} (hm : m ≤ log.length)
    (hlap : log.length ≤ m + d) :
    tag (ring (m % d)) = lapTag d m ↔ m < log.length := by
  rcases Nat.lt_or_ge m log.length with hlt | hge
  · have he : log[m]? = some log[m] := List.getElem?_eq_getElem hlt
    rw [h.recent m _ he hlap, h.tagged m _ he]
    simp [hlt]
  · obtain rfl : m = log.length := by omega
    rw [h.tag_next hd]
    simp

end Laps

end Cryptix.Lib
