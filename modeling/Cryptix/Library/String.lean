import Mathlib.Data.List.GetD
import Cryptix.Prism
import Cryptix.Lib.CopyLoop

/-!
# The C string functions

`Kernel/Library/KLibC/string.cpp`: `memmove` as it is compiled for targets other than x86-64, and
`strcmp` and `strncmp`.

`memmove` copies upwards when the source is above the destination, and downwards when it is below.
A comparison goes through both strings byte by byte, and the plain `char` that it subtracts is
signed or unsigned, depending on the target.
-/

namespace Cryptix

namespace KLibC

open Lib

/-! ## `memmove` -/

/-- `memmove`: the returned pointer, and the memory. -/
def memmove (memory : ℕ → UInt8) (dest src len : ℕ) : ℕ × (ℕ → UInt8) :=
  let copy := copyLoop (fun i => offset src i) (fun i => offset dest i)
  if dest < src then (dest, copy (List.range len) memory)
  else if src < dest then (dest, copy (List.range len).reverse memory)
  else (dest, memory)

section Move

variable {memory : ℕ → UInt8} {dest src len : ℕ}

/-- No turn of the loop writes a byte that a later turn reads or writes. -/
theorem pairwise_turns (hsrc : src + len ≤ wordCount) (hdest : dest + len ≤ wordCount) :
    (dest < src → (List.range len).Pairwise fun a b =>
      offset dest a ≠ offset src b ∧ offset dest a ≠ offset dest b) ∧
    (src < dest → (List.range len).reverse.Pairwise fun a b =>
      offset dest a ≠ offset src b ∧ offset dest a ≠ offset dest b) := by
  have hoffset : ∀ {p i}, p + len ≤ wordCount → i ∈ List.range len → offset p i = p + i :=
    fun hp hi => offset_of_lt (by have := List.mem_range.mp hi; omega)
  constructor
  · intro hlt
    refine List.pairwise_lt_range.imp_of_mem fun {a b} ha hb hab => ?_
    rw [hoffset hdest ha, hoffset hsrc hb, hoffset hdest hb]
    omega
  · intro hlt
    rw [List.pairwise_reverse]
    refine List.pairwise_lt_range.imp_of_mem fun {a b} ha hb hab => ?_
    rw [hoffset hdest hb, hoffset hsrc ha, hoffset hdest ha]
    omega

/-- The destination gets the bytes that the source had, however the two overlap, and the rest of
the memory is kept. -/
theorem memmove_moves (memory : ℕ → UInt8) (dest src len : ℕ) (hsrc : src + len ≤ wordCount)
    (hdest : dest + len ≤ wordCount) :
    (memmove memory dest src len).1 = dest ∧
    (∀ i < len, (memmove memory dest src len).2 (dest + i) = memory (src + i)) ∧
    ∀ p, (∀ i < len, p ≠ dest + i) → (memmove memory dest src len).2 p = memory p := by
  have hdestAt : ∀ i < len, offset dest i = dest + i := fun i hi => offset_of_lt (by omega)
  have hsrcAt : ∀ i < len, offset src i = src + i := fun i hi => offset_of_lt (by omega)
  obtain ⟨hup, hdown⟩ := pairwise_turns hsrc hdest
  have hcopied : ∀ l : List ℕ, (∀ i, i ∈ l ↔ i < len) →
      l.Pairwise (fun a b => offset dest a ≠ offset src b ∧ offset dest a ≠ offset dest b) →
      let copied := copyLoop (fun i => offset src i) (fun i => offset dest i) l memory
      (∀ i < len, copied (dest + i) = memory (src + i)) ∧
        ∀ p, (∀ i < len, p ≠ dest + i) → copied p = memory p := by
    intro l hl hpair
    refine ⟨fun i hi => ?_, fun p hp => copyLoop_of_ne memory fun i hi => ?_⟩
    · rw [← hdestAt i hi, ← hsrcAt i hi]
      exact copyLoop_of_mem memory hpair ((hl i).mpr hi)
    · rw [hdestAt i ((hl i).mp hi)]
      exact (hp i ((hl i).mp hi)).symm
  unfold memmove
  split
  · rename_i hlt
    exact ⟨rfl, hcopied _ (fun i => List.mem_range) (hup hlt)⟩
  · split
    · rename_i hlt
      exact ⟨rfl, hcopied _ (fun i => List.mem_reverse.trans List.mem_range) (hdown hlt)⟩
    · -- both ranges are the same
      have heq : src = dest := by omega
      exact ⟨rfl, fun i _ => by rw [heq], fun p _ => rfl⟩

end Move

/-- Four bytes that overlap their destination in two of them. -/
theorem memmove_moves_overlap :
    2 + 4 ≤ wordCount ∧ 4 + 4 ≤ wordCount ∧
    (memmove (fun p => UInt8.ofNat p) 4 2 4).1 = 4 ∧
    (∀ i < 4, (memmove (fun p => UInt8.ofNat p) 4 2 4).2 (4 + i) = UInt8.ofNat (2 + i)) ∧
    ∀ p, (∀ i < 4, p ≠ 4 + i) → (memmove (fun p => UInt8.ofNat p) 4 2 4).2 p = UInt8.ofNat p :=
  ⟨by decide, by decide,
    memmove_moves (fun p => UInt8.ofNat p) 4 2 4 (by decide) (by decide)⟩

/-! ## Comparing strings -/

/-- The targets of the kernel. -/
inductive Target
  | x86_64 | aarch64
  deriving DecidableEq, Repr

/-- The value of a plain `char`, which is signed on x86-64 only. -/
def Target.char : Target → UInt8 → ℤ
  | .x86_64, c => c.toInt8.toInt
  | .aarch64, c => c.toNat

/-- A NUL-terminated string, by the bytes in front of its terminator. -/
structure CString where
  bytes : List UInt8
  no_nul : 0 ∉ bytes

namespace CString

/-- `strlen`. -/
def length (str : CString) : ℕ := str.bytes.length

/-- `str[i]`, where the terminator is taken for all that follows it. -/
def byteAt (str : CString) (i : ℕ) : UInt8 := str.bytes.getD i 0

/-- The first `n` bytes, as far as the string goes. -/
def firstBytes (str : CString) (n : ℕ) : List UInt8 := (str.bytes ++ [0]).take n

end CString

/-- The parameter that a byte is read from. -/
inductive Operand
  | str1 | str2
  deriving DecidableEq, Repr

/-- A byte that is read. -/
structure ByteRead where
  operand : Operand
  index : ℕ
  deriving DecidableEq, Repr

/-- `strcmp`, from where the strings have got to. -/
def strcmpFrom (target : Target) : List UInt8 → List UInt8 → ℤ
  | [], str2 => target.char 0 - target.char (str2.headD 0)
  | c :: _, [] => target.char c - target.char 0
  | c :: str1, d :: str2 =>
    if c = d then strcmpFrom target str1 str2 else target.char c - target.char d

/-- `strcmp`. -/
def strcmp (target : Target) (str1 str2 : CString) : ℤ := strcmpFrom target str1.bytes str2.bytes

/-- What `strncmp` returns at the bytes where its loop ends. -/
def strncmpResult (target : Target) (len : UInt64) (c d : UInt8) : ℤ :=
  if len ≠ 0 then target.char c - target.char d else 0

/-- `strncmp`, from the index that the strings have got to, and the bytes that it reads. -/
def strncmpFrom (target : Target) : List UInt8 → List UInt8 → ℕ → UInt64 → ℤ × List ByteRead
  | [], str2, i, len =>
    -- the second string is read for the result only
    (strncmpResult target len 0 (str2.headD 0),
      ⟨.str1, i⟩ :: if len ≠ 0 then [⟨.str2, i⟩] else [])
  | c :: _, [], i, len => (strncmpResult target len c 0, [⟨.str1, i⟩, ⟨.str2, i⟩])
  | c :: str1, d :: str2, i, len =>
    if c = d then
      -- `len-- > 0`
      if 0 < len then
        let rest := strncmpFrom target str1 str2 (i + 1) (len - 1)
        (rest.1, ⟨.str1, i⟩ :: ⟨.str2, i⟩ :: rest.2)
      else (strncmpResult target (len - 1) c d, [⟨.str1, i⟩, ⟨.str2, i⟩])
    else (strncmpResult target len c d, [⟨.str1, i⟩, ⟨.str2, i⟩])

/-- `strncmp`. -/
def strncmp (target : Target) (str1 str2 : CString) (len : UInt64) : ℤ × List ByteRead :=
  strncmpFrom target str1.bytes str2.bytes 0 len

/-- The string that a parameter points to. -/
def Operand.of (str1 str2 : CString) : Operand → CString
  | .str1 => str1
  | .str2 => str2

/-- What `strncmp` is for. -/
structure Compares (target : Target) (str1 str2 : CString) (n : UInt64) : Prop where
  reads : ∀ r ∈ (strncmp target str1 str2 n).2,
    r.index < n.toNat ∧ r.index ≤ (r.operand.of str1 str2).length
  eq_zero_iff : (strncmp target str1 str2 n).1 = 0 ↔
    str1.firstBytes n.toNat = str2.firstBytes n.toNat
  sign : ∀ k < n.toNat, (∀ i < k, str1.byteAt i = str2.byteAt i) →
    str1.byteAt k ≠ str2.byteAt k →
    (strncmp target str1 str2 n).1.sign = if str1.byteAt k < str2.byteAt k then -1 else 1
  strcmp_eq : str1.length < n.toNat → str2.length < n.toNat →
    strcmp target str1 str2 = (strncmp target str1 str2 n).1

/-- The strings are the same up to index `k`, and there they differ or both end. -/
structure PartAt (str1 str2 : CString) (k : ℕ) : Prop where
  before : ∀ i < k, str1.byteAt i = str2.byteAt i ∧ str1.byteAt i ≠ 0
  there : str1.byteAt k = str2.byteAt k → str1.byteAt k = 0

/-! ### Where the loops end -/

/-- The number of bytes that two strings have in common at their begin. -/
def commonLength : List UInt8 → List UInt8 → ℕ
  | c :: str1, d :: str2 => if c = d then commonLength str1 str2 + 1 else 0
  | _, _ => 0

section Loops

variable (target : Target) {str1 str2 : List UInt8}

theorem strcmpFrom_eq (str1 str2 : List UInt8) : strcmpFrom target str1 str2 =
    target.char (str1.getD (commonLength str1 str2) 0) -
      target.char (str2.getD (commonLength str1 str2) 0) := by
  induction str1 generalizing str2 with
  | nil => cases str2 <;> rfl
  | cons c str1 ih =>
    cases str2 with
    | nil => rfl
    | cons d str2 =>
      by_cases hcd : c = d
      · simp only [strcmpFrom, commonLength, if_pos hcd, ih, List.getD_cons_succ]
      · simp only [strcmpFrom, commonLength, if_neg hcd, List.getD_cons_zero]

theorem strncmpResult_eq (len : UInt64) (c d : UInt8) : strncmpResult target len c d =
    if 0 < len.toNat then target.char c - target.char d else 0 := by
  have hpos : len ≠ 0 ↔ 0 < len.toNat := by
    rw [Nat.pos_iff_ne_zero, ne_eq, ne_eq, ← UInt64.toNat_inj]
    rfl
  simp only [strncmpResult, hpos]

theorem toNat_pred {len : UInt64} (h : 0 < len) : (len - 1).toNat = len.toNat - 1 :=
  UInt64.toNat_sub_of_le len 1 (UInt64.le_iff_toNat_le.mpr (UInt64.lt_iff_toNat_lt.mp h))

/-- The loop ends where the strings part, or behind `len` bytes. In the second case the length has
run below zero, and the bytes there are equal. -/
theorem strncmpFrom_fst (str1 str2 : List UInt8) (i : ℕ) (len : UInt64) :
    (strncmpFrom target str1 str2 i len).1 =
      if commonLength str1 str2 < len.toNat then strcmpFrom target str1 str2 else 0 := by
  induction str1 generalizing str2 i len with
  | nil => cases str2 <;> exact strncmpResult_eq target len _ _
  | cons c str1 ih =>
    cases str2 with
    | nil => exact strncmpResult_eq target len _ _
    | cons d str2 =>
      by_cases hcd : c = d
      · simp only [strncmpFrom, strcmpFrom, commonLength, if_pos hcd]
        by_cases hpos : 0 < len
        · have hlen : 0 < len.toNat := UInt64.lt_iff_toNat_lt.mp hpos
          rw [if_pos hpos, ih, toNat_pred hpos]
          exact if_congr (by omega) rfl rfl
        · have hlen : len.toNat = 0 :=
            Nat.eq_zero_of_not_pos fun h => hpos (UInt64.lt_iff_toNat_lt.mpr h)
          rw [if_neg hpos, strncmpResult_eq, hcd, Int.sub_self, ite_self, if_neg (by omega)]
      · simp only [strncmpFrom, strcmpFrom, commonLength, if_neg hcd, strncmpResult_eq]

/-- The last byte of the first string that is read. -/
theorem strncmpFrom_reads (str1 str2 : List UInt8) (i : ℕ) (len : UInt64) :
    ⟨.str1, i + min (commonLength str1 str2) len.toNat⟩ ∈
        (strncmpFrom target str1 str2 i len).2 ∧
      ∀ r ∈ (strncmpFrom target str1 str2 i len).2,
        r.index ≤ i + min (commonLength str1 str2) len.toNat := by
  induction str1 generalizing str2 i len with
  | nil =>
    simp only [strncmpFrom, commonLength, Nat.zero_min, Nat.add_zero]
    refine ⟨List.mem_cons_self, fun r hr => ?_⟩
    split at hr <;> simp at hr <;> grind
  | cons c str1 ih =>
    cases str2 with
    | nil => simp [strncmpFrom, commonLength]
    | cons d str2 =>
      by_cases hcd : c = d
      · simp only [strncmpFrom, commonLength, if_pos hcd]
        by_cases hpos : 0 < len
        · have hlen : 0 < len.toNat := UInt64.lt_iff_toNat_lt.mp hpos
          obtain ⟨hmem, hle⟩ := ih str2 (i + 1) (len - 1)
          rw [toNat_pred hpos] at hmem hle
          rw [if_pos hpos, show i + min (commonLength str1 str2 + 1) len.toNat =
            i + 1 + min (commonLength str1 str2) (len.toNat - 1) by omega]
          refine ⟨List.mem_cons_of_mem _ (List.mem_cons_of_mem _ hmem), fun r hr => ?_⟩
          rcases List.mem_cons.mp hr with rfl | hr
          · simp only; omega
          · rcases List.mem_cons.mp hr with rfl | hr
            · simp only; omega
            · exact hle r hr
        · have hlen : len.toNat = 0 :=
            Nat.eq_zero_of_not_pos fun h => hpos (UInt64.lt_iff_toNat_lt.mpr h)
          simp [if_neg hpos, hlen]
      · simp [strncmpFrom, commonLength, if_neg hcd]

end Loops

/-! ### Strings without a NUL in them -/

section Strings

variable {target : Target} {str1 str2 : CString} {n : UInt64} {k : ℕ}

theorem CString.byteAt_ne_zero (str : CString) {i : ℕ} (h : i < str.length) :
    str.byteAt i ≠ 0 := by
  intro hzero
  rw [CString.byteAt, List.getD_eq_getElem _ _ h] at hzero
  exact str.no_nul (hzero ▸ List.getElem_mem h)

theorem CString.byteAt_of_length_le (str : CString) {i : ℕ} (h : str.length ≤ i) :
    str.byteAt i = 0 :=
  List.getD_eq_default _ _ h

theorem CString.byteAt_eq_zero_iff (str : CString) {i : ℕ} :
    str.byteAt i = 0 ↔ str.length ≤ i :=
  ⟨fun h => Nat.le_of_not_lt fun hlt => str.byteAt_ne_zero hlt h, str.byteAt_of_length_le⟩

/-- The strings part behind the bytes that they have in common. -/
theorem commonLength_spec (str1 str2 : List UInt8) :
    commonLength str1 str2 ≤ str1.length ∧ commonLength str1 str2 ≤ str2.length ∧
    (∀ i < commonLength str1 str2, str1.getD i 0 = str2.getD i 0) ∧
    (commonLength str1 str2 < str1.length → commonLength str1 str2 < str2.length →
      str1.getD (commonLength str1 str2) 0 ≠ str2.getD (commonLength str1 str2) 0) := by
  induction str1 generalizing str2 with
  | nil => cases str2 <;> simp [commonLength]
  | cons c str1 ih =>
    cases str2 with
    | nil => simp [commonLength]
    | cons d str2 =>
      by_cases hcd : c = d
      · obtain ⟨hle, hle', hbefore, hthere⟩ := ih str2
        simp only [commonLength, if_pos hcd, List.length_cons, List.getD_cons_succ]
        refine ⟨by omega, by omega, fun i hi => ?_, fun h h' => hthere (by omega) (by omega)⟩
        cases i with
        | zero => exact hcd
        | succ i => exact hbefore i (by omega)
      · simp [commonLength, hcd]

theorem partAt_commonLength (str1 str2 : CString) :
    PartAt str1 str2 (commonLength str1.bytes str2.bytes) := by
  obtain ⟨hle, hle', hbefore, hthere⟩ := commonLength_spec str1.bytes str2.bytes
  refine ⟨fun i hi => ⟨hbefore i hi, str1.byteAt_ne_zero (Nat.lt_of_lt_of_le hi hle)⟩, ?_⟩
  intro heq
  by_contra hne
  have hlt : commonLength str1.bytes str2.bytes < str1.length :=
    Nat.lt_of_not_le fun h => hne (str1.byteAt_of_length_le h)
  have hlt' : commonLength str1.bytes str2.bytes < str2.length :=
    Nat.lt_of_not_le fun h => hne (heq.trans (str2.byteAt_of_length_le h))
  exact hthere hlt hlt' heq

theorem PartAt.unique (h : PartAt str1 str2 k) : k = commonLength str1.bytes str2.bytes := by
  have h' := partAt_commonLength str1 str2
  rcases Nat.lt_trichotomy k (commonLength str1.bytes str2.bytes) with hlt | heq | hlt
  · exact absurd (h.there (h'.before k hlt).1) (h'.before k hlt).2
  · exact heq
  · exact absurd (h'.there (h.before _ hlt).1) (h.before _ hlt).2

theorem PartAt.le_length (h : PartAt str1 str2 k) : k ≤ str1.length ∧ k ≤ str2.length := by
  constructor
  · refine Nat.le_of_not_lt fun hlt => (h.before _ hlt).2 ?_
    exact str1.byteAt_of_length_le (Nat.le_refl _)
  · refine Nat.le_of_not_lt fun hlt => (h.before _ hlt).2 ?_
    exact (h.before _ hlt).1.trans (str2.byteAt_of_length_le (Nat.le_refl _))

theorem CString.getElem?_firstBytes (str : CString) (n i : ℕ) :
    (str.firstBytes n)[i]? = if i < n ∧ i ≤ str.length then some (str.byteAt i) else none := by
  rw [CString.firstBytes, List.getElem?_take]
  by_cases hi : i < n
  · rw [if_pos hi]
    rcases Nat.lt_trichotomy i str.length with hlt | heq | hlt
    · rw [if_pos ⟨hi, Nat.le_of_lt hlt⟩, List.getElem?_append_left hlt, CString.byteAt,
        List.getD_eq_getElem _ _ hlt, List.getElem?_eq_getElem hlt]
    · rw [if_pos ⟨hi, Nat.le_of_eq heq⟩, str.byteAt_of_length_le (Nat.le_of_eq heq.symm), heq]
      exact List.getElem?_concat_length
    · rw [if_neg (by omega)]
      exact List.getElem?_eq_none (by rw [List.length_append]; exact hlt)
  · rw [if_neg hi, if_neg fun h => hi h.1]

/-- The first bytes of two strings are the same exactly if the strings part behind them, or end
together. -/
theorem PartAt.firstBytes_eq_iff (h : PartAt str1 str2 k) (n : ℕ) :
    str1.firstBytes n = str2.firstBytes n ↔ n ≤ k ∨ str1.byteAt k = str2.byteAt k := by
  obtain ⟨hle, hle'⟩ := h.le_length
  constructor
  · intro heq
    refine or_iff_not_imp_left.mpr fun hlt => ?_
    have hk := congrArg (·[k]?) heq
    simp only [CString.getElem?_firstBytes] at hk
    rw [if_pos ⟨by omega, hle⟩, if_pos ⟨by omega, hle'⟩] at hk
    exact Option.some.inj hk
  · intro hcase
    refine List.ext_getElem? fun i => ?_
    rw [CString.getElem?_firstBytes, CString.getElem?_firstBytes]
    by_cases hi : i < k
    · rw [(h.before i hi).1]
      exact if_congr (by omega) rfl rfl
    · rcases hcase with hn | hend
      · rw [if_neg (by omega), if_neg (by omega)]
      · have hlength := str1.byteAt_eq_zero_iff.mp (h.there hend)
        have hlength' := str2.byteAt_eq_zero_iff.mp (hend.symm.trans (h.there hend))
        rw [str1.byteAt_of_length_le (by omega), str2.byteAt_of_length_le (by omega)]
        exact if_congr (by omega) rfl rfl

theorem Target.char_eq (target : Target) (c : UInt8) : target.char c =
    if target = .x86_64 ∧ 128 ≤ c.toNat then (c.toNat : ℤ) - 256 else c.toNat := by
  cases target with
  | aarch64 => rfl
  | x86_64 =>
    have hchar : Target.char .x86_64 c = c.toBitVec.toInt := rfl
    have hnat : c.toBitVec.toNat = c.toNat := rfl
    rw [hchar, BitVec.toInt_eq_toNat_cond, hnat]
    by_cases hc : 128 ≤ c.toNat
    · rw [if_neg (by omega), if_pos ⟨rfl, hc⟩]
      rfl
    · rw [if_pos (by omega), if_neg fun h => hc h.2]

theorem Target.char_inj (target : Target) {c d : UInt8} (h : target.char c = target.char d) :
    c = d := by
  have hc := c.toNat_lt
  have hd := d.toNat_lt
  rw [Target.char_eq, Target.char_eq] at h
  refine UInt8.toNat_inj.mp ?_
  split at h <;> split at h <;> omega

/-- Plain `char`s are in the order of unsigned bytes exactly if both or none are negative. -/
theorem Target.sign_char_sub (target : Target) {c d : UInt8} (hne : c ≠ d) :
    (target.char c - target.char d).sign = (if c < d then -1 else 1) ↔
      (target = .x86_64 → (c < 0x80 ↔ d < 0x80)) := by
  have hc := c.toNat_lt
  have hd := d.toNat_lt
  have hnat : c.toNat ≠ d.toNat := fun h => hne (UInt8.toNat_inj.mp h)
  have hsmall : ∀ c : UInt8, c < 0x80 ↔ c.toNat < 128 := fun c => UInt8.lt_iff_toNat_lt
  have hsign : (target.char c - target.char d).sign = (if c < d then -1 else 1) ↔
      (target.char c < target.char d ↔ c.toNat < d.toNat) := by
    have hchar : target.char c ≠ target.char d := fun h => hne (target.char_inj h)
    rw [← UInt8.lt_iff_toNat_lt]
    split
    · rename_i hlt
      rw [Int.sign_eq_neg_one_iff_neg, iff_true_right hlt]
      omega
    · rename_i hlt
      rw [Int.sign_eq_one_iff_pos, iff_false_right hlt]
      omega
  rw [hsign, Target.char_eq, Target.char_eq, hsmall, hsmall]
  by_cases htarget : target = .x86_64
  · simp only [htarget, true_and, true_imp_iff]
    split <;> split <;> omega
  · simp only [htarget, false_and, if_false, false_imp_iff, iff_true]
    omega

end Strings

/-- The loop's turns do not matter for whether the result is zero. -/
theorem strncmp_eq_zero_iff (target : Target) (str1 str2 : CString) (n : UInt64) :
    (strncmp target str1 str2 n).1 = 0 ↔ str1.firstBytes n.toNat = str2.firstBytes n.toNat := by
  have hpart := partAt_commonLength str1 str2
  rw [hpart.firstBytes_eq_iff, strncmp, strncmpFrom_fst, strcmpFrom_eq]
  by_cases hlt : commonLength str1.bytes str2.bytes < n.toNat
  · rw [if_pos hlt, or_iff_right (Nat.not_le_of_lt hlt), Int.sub_eq_zero]
    exact ⟨target.char_inj, congrArg target.char⟩
  · rw [if_neg hlt]
    exact iff_of_true rfl (.inl (Nat.le_of_not_lt hlt))

/-- **When `strncmp` compares.** It reads the byte behind the first `n` ones, unless the strings
part in front of it. Where plain `char` is signed, it takes the bytes from `0x80` on for the lesser
ones. -/
theorem compares_iff (target : Target) (str1 str2 : CString) (n : UInt64) :
    Compares target str1 str2 n ↔ ∃ k < n.toNat, PartAt str1 str2 k ∧
      (target = .x86_64 → (str1.byteAt k < 0x80 ↔ str2.byteAt k < 0x80)) := by
  have hpart := partAt_commonLength str1 str2
  obtain ⟨hmem, hreads⟩ := strncmpFrom_reads target str1.bytes str2.bytes 0 n
  have hresult := strncmpFrom_fst target str1.bytes str2.bytes 0 n
  have hstrcmp := strcmpFrom_eq target str1.bytes str2.bytes
  generalize hk : commonLength str1.bytes str2.bytes = k at hpart hmem hreads hresult hstrcmp
  have hunique : ∀ {k'}, PartAt str1 str2 k' → k' = k := fun h => h.unique.trans hk
  obtain ⟨hle, hle'⟩ := hpart.le_length
  constructor
  · intro h
    have hlt : k < n.toNat := by
      have := (h.reads _ hmem).1
      simp only at this
      omega
    refine ⟨k, hlt, hpart, ?_⟩
    by_cases hne : str1.byteAt k = str2.byteAt k
    · rw [hne]
      exact fun _ => Iff.rfl
    · refine (target.sign_char_sub hne).mp ?_
      have hsign := h.sign k hlt (fun i hi => (hpart.before i hi).1) hne
      rwa [strncmp, hresult, if_pos hlt, hstrcmp] at hsign
  · rintro ⟨k', hlt, hpart', hsmall⟩
    obtain rfl := hunique hpart'
    have hvalue : (strncmp target str1 str2 n).1 =
        target.char (str1.byteAt k') - target.char (str2.byteAt k') := by
      rw [strncmp, hresult, if_pos hlt, hstrcmp]
      rfl
    refine ⟨fun r hr => ?_, strncmp_eq_zero_iff target str1 str2 n, fun j hj hbefore hne => ?_,
      fun _ _ => ?_⟩
    · have hindex := hreads r hr
      refine ⟨by omega, ?_⟩
      cases r.operand with
      | str1 => exact (show r.index ≤ str1.length by omega)
      | str2 => exact (show r.index ≤ str2.length by omega)
    · -- an index where the strings differ behind an equal part is where they part
      obtain rfl : j = k' := by
        rcases Nat.lt_trichotomy j k' with hjk | heq | hjk
        · exact absurd (hpart.before j hjk).1 hne
        · exact heq
        · have hend := hpart.there (hbefore k' hjk)
          have hlength := str1.byteAt_eq_zero_iff.mp hend
          have hlength' := str2.byteAt_eq_zero_iff.mp ((hbefore k' hjk).symm.trans hend)
          refine absurd ?_ hne
          rw [str1.byteAt_of_length_le (by omega), str2.byteAt_of_length_le (by omega)]
      rw [hvalue]
      exact (target.sign_char_sub hne).mpr hsmall
    · rw [hvalue]
      exact hstrcmp

theorem no_nul_signature : 0 ∉ ([0x41, 0x50, 0x49, 0x43] : List UInt8) := by decide

theorem no_nul_header : 0 ∉ ([0x41, 0x50, 0x49, 0x43, 0xbc] : List UInt8) := by decide

/-- The signature of a table is compared with the one in its header, which has its length behind
it. -/
theorem not_compares_signature :
    ¬Compares .x86_64 ⟨[0x41, 0x50, 0x49, 0x43], no_nul_signature⟩
      ⟨[0x41, 0x50, 0x49, 0x43, 0xbc], no_nul_header⟩ 4 := by
  intro h
  have hread := (h.reads ⟨.str1, 4⟩ (by decide)).1
  exact absurd hread (by decide)

end KLibC

end Cryptix
