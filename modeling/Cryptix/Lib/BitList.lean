import Mathlib.Data.Nat.Bitwise
import Mathlib.Data.List.Basic

/-!
# Numbers and lists of bits

A field of a bit stream is a number whose bits come with the least significant bit first
(`ofLsb`, `toLsb`), or, for the words of a prefix code, with the most significant bit first
(`toMsb`). Bits past the end of a stream read as zero, so that the number read from a short list is
that of the list padded with zeros: `l.getD i false` is the bit `i` of a stream.
-/

namespace Cryptix.Lib

/-- The number whose bits are given with the least significant bit first. -/
def ofLsb : List Bool → ℕ
  | [] => 0
  | b :: l => Nat.bit b (ofLsb l)

/-- The low `n` bits of a number, the least significant bit first. -/
def toLsb (n v : ℕ) : List Bool := (List.range n).map v.testBit

/-- The low `n` bits of a number, the most significant bit first. -/
def toMsb (n v : ℕ) : List Bool := (toLsb n v).reverse

@[simp] theorem length_toLsb (n v : ℕ) : (toLsb n v).length = n := by
  simp [toLsb]

@[simp] theorem length_toMsb (n v : ℕ) : (toMsb n v).length = n := by
  simp [toMsb]

theorem testBit_ofLsb (l : List Bool) (i : ℕ) : (ofLsb l).testBit i = l.getD i false := by
  induction l generalizing i with
  | nil => simp [ofLsb]
  | cons b l ih =>
    cases i with
    | zero => simp [ofLsb]
    | succ i => rw [ofLsb, Nat.testBit_bit_succ, ih, List.getD_cons_succ]

theorem ofLsb_lt (l : List Bool) : ofLsb l < 2 ^ l.length := by
  refine Nat.lt_pow_two_of_testBit _ fun i hi => ?_
  rw [testBit_ofLsb, List.getD_eq_default _ _ hi]

theorem getD_toLsb {n i : ℕ} (v : ℕ) (hi : i < n) : (toLsb n v).getD i false = v.testBit i := by
  simp [toLsb, List.getD_eq_getElem?_getD, List.getElem?_range hi]

theorem getD_toMsb {n i : ℕ} (v : ℕ) (hi : i < n) :
    (toMsb n v).getD i false = v.testBit (n - 1 - i) := by
  rw [toMsb, List.getD_eq_getElem?_getD, List.getElem?_reverse (by simpa using hi), length_toLsb,
    ← List.getD_eq_getElem?_getD, getD_toLsb v (by omega)]

/-- A number that fits in `n` bits is read back from them. -/
theorem ofLsb_toLsb {n v : ℕ} (hv : v < 2 ^ n) : ofLsb (toLsb n v) = v := by
  refine Nat.eq_of_testBit_eq fun i => ?_
  rw [testBit_ofLsb]
  by_cases hi : i < n
  · exact getD_toLsb v hi
  · rw [List.getD_eq_default _ _ (by simpa using hi)]
    exact (Nat.testBit_lt_two_pow (hv.trans_le (Nat.pow_le_pow_right (by decide) (by omega)))).symm

theorem toMsb_injective {n v w : ℕ} (hv : v < 2 ^ n) (hw : w < 2 ^ n) (h : toMsb n v = toMsb n w) :
    v = w := by
  rw [← ofLsb_toLsb hv, ← ofLsb_toLsb hw, List.reverse_injective h]

/-- Two fields one after the other are one field. -/
theorem toLsb_append_toLsb {n v : ℕ} (hv : v < 2 ^ n) (k w : ℕ) :
    toLsb n v ++ toLsb k w = toLsb (n + k) (v + 2 ^ n * w) := by
  rw [toLsb, toLsb, toLsb, List.range_add, List.map_append, List.map_map, Nat.add_comm v]
  congr 1
  · refine List.map_congr_left fun i hi => ?_
    rw [Nat.testBit_two_pow_mul_add w hv, if_pos (List.mem_range.mp hi)]
  · refine List.map_congr_left fun i _ => ?_
    rw [Function.comp_apply, Nat.testBit_two_pow_mul_add w hv, if_neg (by omega),
      Nat.add_sub_cancel_left]

/-- A field at the front of a stream. -/
theorem ofLsb_take_toLsb_append {n v : ℕ} (hv : v < 2 ^ n) (rest : List Bool) :
    ofLsb ((toLsb n v ++ rest).take n) = v := by
  rw [List.take_left' (length_toLsb n v), ofLsb_toLsb hv]

@[simp] theorem drop_toLsb_append (n v : ℕ) (rest : List Bool) :
    (toLsb n v ++ rest).drop n = rest :=
  List.drop_left' (length_toLsb n v)

@[simp] theorem drop_toMsb_append (n v : ℕ) (rest : List Bool) :
    (toMsb n v ++ rest).drop n = rest :=
  List.drop_left' (length_toMsb n v)

end Cryptix.Lib
