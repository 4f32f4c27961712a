import Mathlib.Algebra.GroupWithZero.Nat
import Mathlib.Data.Nat.Log
import Mathlib.Data.List.Basic

/-!
# What the kernel takes from Prism

The kernel is written over the Prism library: unsigned 64-bit arithmetic (`usize`, `Pointer`), the
rounding helpers of `Prism/Utility/Math.hpp`, the `Bitmap` container and the error codes. Machine
words are natural numbers here; an operation that can leave the 64-bit range reduces its result
modulo `2 ^ 64`, as the hardware does.
-/

namespace Cryptix

/-- The number of 64-bit words. -/
def wordCount : ℕ := 2 ^ 64

/-- The literals of `Fin 4` share this proof. -/
instance neZero_four : NeZero 4 := ⟨Nat.succ_ne_zero 3⟩

/-- `Pointer::Offset`: 64-bit addition. -/
def offset (p n : ℕ) : ℕ := (p + n) % wordCount

theorem offset_of_lt {p n : ℕ} (h : p + n < wordCount) : offset p n = p + n :=
  Nat.mod_eq_of_lt h

/-- 64-bit subtraction. -/
def wordSub (a b : ℕ) : ℕ := (a + (wordCount - b % wordCount)) % wordCount

theorem wordSub_of_le {a b : ℕ} (ha : a < wordCount) (h : b ≤ a) : wordSub a b = a - b := by
  rw [wordSub, Nat.mod_eq_of_lt (h.trans_lt ha),
    show a + (wordCount - b) = a - b + wordCount by omega, Nat.add_mod_right,
    Nat.mod_eq_of_lt (by omega)]

/-- A 64-bit word as an `isize`. -/
def toISize (n : ℕ) : ℤ := (n : ℤ).bmod wordCount

theorem toISize_of_lt {n : ℕ} (h : 2 * n < wordCount) : toISize n = n :=
  Int.bmod_eq_of_le_mul_two (by omega) (by omega)

theorem toISize_eq_iff {n m : ℕ} (hn : n < wordCount) (_ : m ≤ n) :
    toISize n = m ↔ n = m ∧ 2 * n < wordCount := by
  have hmod : (n : ℤ) % (wordCount : ℕ) = n := Int.emod_eq_of_lt (by omega) (by omega)
  have heven : ((wordCount : ℕ) : ℤ) = 2 * 2 ^ 63 := by decide
  rw [toISize, Int.bmod, hmod]
  split <;> omega

/-- An `isize` as a 64-bit word. -/
def toUSize (n : ℤ) : ℕ := (n % (wordCount : ℕ)).toNat

/-- The error codes the modelled functions return. -/
inductive Errno
  | EPERM | ENOENT | EBADF | ENOMEM | EFAULT | EEXIST | ENOTDIR | EINVAL | ENOSPC | ENOSYS
  | ENOTEMPTY | ELOOP | ENOLINK | ENOEXEC | EISDIR | ESPIPE | EOVERFLOW | EINTR
  deriving DecidableEq, Repr

/-- How a kernel function can fail: with an error code, or on a failed `Assert`. -/
inductive Failure
  | errno (code : Errno)
  | assertion
  deriving DecidableEq, Repr

namespace Prism

/-- `Math::IsPowerOfTwo`. -/
def isPowerOfTwo (n : ℕ) : Bool := n != 0 && 2 ^ Nat.log 2 n == n

/-- `Math::DivRoundUp`. -/
def divRoundUp (n d : ℕ) : ℕ := (n + d - 1) / d

/-- The least multiple of `alignment` that is not below `n`, as a natural number. -/
def roundUp (n alignment : ℕ) : ℕ := divRoundUp n alignment * alignment

theorem le_roundUp {alignment : ℕ} (hpos : 0 < alignment) (n : ℕ) : n ≤ roundUp n alignment := by
  have hdiv := Nat.div_add_mod (n + alignment - 1) alignment
  have hmod := Nat.mod_lt (n + alignment - 1) hpos
  rw [roundUp, divRoundUp, Nat.mul_comm]
  omega

/-- `Math::AlignUp` on 64-bit words. -/
def alignUp (n alignment : ℕ) : ℕ := roundUp n alignment % wordCount

/-- `Bitmap`: an array of bits with `GetIndex` and `SetIndex`. -/
structure Bitmap where
  bits : Array Bool
  deriving DecidableEq, Repr

namespace Bitmap

/-- `Allocate` followed by `SetAll(0xff)`. -/
def allocateSet (count : ℕ) : Bitmap := ⟨Array.replicate count true⟩

/-- `GetSize`. -/
def size (b : Bitmap) : ℕ := b.bits.size

/-- `GetIndex` on a bit of the bitmap. Past the end this reports a set bit; what the source reads
there is for its callers to say. -/
def getIndex (b : Bitmap) (i : ℕ) : Bool := b.bits.getD i true

/-- `SetIndex`. -/
def setIndex (b : Bitmap) (i : ℕ) (value : Bool) : Bitmap := ⟨b.bits.setIfInBounds i value⟩

@[simp] theorem size_allocateSet (count : ℕ) : (allocateSet count).size = count := by
  simp [allocateSet, size]

@[simp] theorem getIndex_allocateSet (count i : ℕ) : (allocateSet count).getIndex i = true := by
  simp only [allocateSet, getIndex, Array.getD_eq_getD_getElem?, Array.getElem?_replicate]
  split <;> rfl

@[simp] theorem size_setIndex (b : Bitmap) (i : ℕ) (value : Bool) :
    (b.setIndex i value).size = b.size := by
  simp [setIndex, size]

theorem getIndex_setIndex (b : Bitmap) (i j : ℕ) (value : Bool) :
    (b.setIndex i value).getIndex j =
      if i = j ∧ j < b.size then value else b.getIndex j := by
  simp only [setIndex, getIndex, size, Array.getD_eq_getD_getElem?,
    Array.getElem?_setIfInBounds]
  by_cases hij : i = j
  · subst hij
    by_cases hlt : i < b.bits.size <;> simp [hlt]
  · simp [hij]

/-- Past the end every bit reads as set. -/
theorem getIndex_of_size_le {b : Bitmap} {i : ℕ} (h : b.size ≤ i) : b.getIndex i = true := by
  simp only [size] at h
  simp [getIndex, Array.getD_eq_getD_getElem?, Array.getElem?_eq_none h]

/-- The loop `for (i = first; i < first + count; i++) SetIndex(i, value)`. -/
def setRange (b : Bitmap) (first count : ℕ) (value : Bool) : Bitmap :=
  (List.range' first count).foldl (fun b i => b.setIndex i value) b

@[simp] theorem size_setRange (b : Bitmap) (first count : ℕ) (value : Bool) :
    (b.setRange first count value).size = b.size := by
  induction count generalizing b first with
  | zero => rfl
  | succ n ih =>
    rw [setRange, List.range'_succ, List.foldl_cons]
    exact (ih _ _).trans (size_setIndex _ _ _)

/-- A range write changes exactly the bits of the range. -/
theorem getIndex_setRange (b : Bitmap) (first count j : ℕ) (value : Bool) :
    (b.setRange first count value).getIndex j =
      if (first ≤ j ∧ j < first + count) ∧ j < b.size then value else b.getIndex j := by
  induction count generalizing b first with
  | zero =>
    rw [if_neg (by omega)]
    rfl
  | succ n ih =>
    rw [setRange, List.range'_succ, List.foldl_cons]
    refine (ih (b.setIndex first value) (first + 1)).trans ?_
    rw [getIndex_setIndex, size_setIndex]
    by_cases hin : (first + 1 ≤ j ∧ j < first + 1 + n) ∧ j < b.size
    · rw [if_pos hin, if_pos (by omega)]
    · rw [if_neg hin]
      by_cases hfirst : first = j ∧ j < b.size
      · rw [if_pos hfirst, if_pos (by omega)]
      · rw [if_neg hfirst, if_neg (by omega)]

end Bitmap

end Prism

end Cryptix
