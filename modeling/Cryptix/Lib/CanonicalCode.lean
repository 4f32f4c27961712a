import Mathlib.Algebra.BigOperators.Group.Finset.Piecewise
import Mathlib.Algebra.Order.Field.Rat
import Mathlib.Algebra.Order.BigOperators.Group.Finset
import Mathlib.Tactic.Ring
import Cryptix.Lib.BitList

/-!
# Canonical prefix codes

A prefix code is given by the lengths of its words: symbol `s` has a word of `lengthOf s` bits, or
none when that is zero. Words of one length are consecutive numbers in the order of their symbols,
and the first of them (`firstCode`) follows the last shorter word. When the lengths satisfy Kraft's
inequality, the words fit (`IsPrefixCode.firstCode_add_count_le`).

A decoder looks at a window of `n` bits, read as a number with the first bit most significant. The
words of length `L` take the windows from `bound n (L - 1)` up to `bound n L`, so that at most one
word is at the front of a window (`Matches.unique`), and one is exactly when the window is below
the last bound (`exists_matches`). On the stream itself that is a word at the front of its next `n`
bits (`matches_window_iff`).
-/

namespace Cryptix.Lib.CanonicalCode

variable (lengths : List ℕ)

/-- The length of the word of a symbol. -/
def lengthOf (s : ℕ) : ℕ := lengths.getD s 0

/-- The number of words of a length. -/
def count (L : ℕ) : ℕ := if L = 0 then 0 else lengths.count L

/-- The first word of a length. -/
def firstCode : ℕ → ℕ
  | 0 => 0
  | L + 1 => 2 * (firstCode L + count lengths L)

/-- The number of earlier symbols with words of the same length. -/
def rank (s : ℕ) : ℕ := (lengths.take s).count (lengthOf lengths s)

/-- The word of a symbol, as a number. -/
def code (s : ℕ) : ℕ := firstCode lengths (lengthOf lengths s) + rank lengths s

/-- The word of a symbol. -/
def codeword (s : ℕ) : List Bool := toMsb (lengthOf lengths s) (code lengths s)

/-- Kraft's sum, in units of `2 ^ -n`. -/
def kraftSum (n : ℕ) : ℕ := ((lengths.filter (· ≠ 0)).map fun l => 2 ^ (n - l)).sum

/-- Words of at most `n` bits that satisfy Kraft's inequality. -/
structure IsPrefixCode (n : ℕ) : Prop where
  le : ∀ l ∈ lengths, l ≤ n
  kraft : kraftSum lengths n ≤ 2 ^ n

variable {lengths}

/-! ## Symbols of one length -/

theorem lt_length_of_lengthOf {s : ℕ} (h : lengthOf lengths s ≠ 0) : s < lengths.length := by
  by_contra hs
  exact h (List.getD_eq_default _ _ (by omega))

theorem getElem?_of_lengthOf {s : ℕ} (h : lengthOf lengths s ≠ 0) :
    lengths[s]? = some (lengthOf lengths s) := by
  have hs := lt_length_of_lengthOf h
  rw [List.getElem?_eq_getElem hs, lengthOf, List.getD_eq_getElem _ _ hs]

theorem count_take_succ {s : ℕ} (h : lengthOf lengths s ≠ 0) :
    (lengths.take (s + 1)).count (lengthOf lengths s) = rank lengths s + 1 := by
  rw [List.take_add_one, getElem?_of_lengthOf h, List.count_append, rank]
  simp

theorem rank_lt_count {s : ℕ} (h : lengthOf lengths s ≠ 0) :
    rank lengths s < count lengths (lengthOf lengths s) := by
  have hle := (List.take_sublist (s + 1) lengths).count_le (lengthOf lengths s)
  rw [count_take_succ h] at hle
  rw [count, if_neg h]
  omega

theorem rank_lt_rank {s s' : ℕ} (hs : s < s') (h : lengthOf lengths s ≠ 0)
    (heq : lengthOf lengths s' = lengthOf lengths s) : rank lengths s < rank lengths s' := by
  have hle := (List.take_sublist_take_left (l := lengths) (Nat.succ_le_of_lt hs)).count_le
    (lengthOf lengths s)
  rw [count_take_succ h] at hle
  rw [rank, rank, heq]
  rw [rank] at hle
  omega

/-- Symbols with words of one length differ in their rank. -/
theorem eq_of_rank_eq {s s' : ℕ} (h : lengthOf lengths s ≠ 0)
    (heq : lengthOf lengths s' = lengthOf lengths s) (hr : rank lengths s = rank lengths s') :
    s = s' := by
  rcases Nat.lt_trichotomy s s' with hlt | rfl | hlt
  · exact absurd hr (rank_lt_rank hlt h heq).ne
  · rfl
  · exact absurd hr (rank_lt_rank hlt (heq ▸ h) heq.symm).ne'

theorem exists_rank {L i : ℕ} (hi : i < count lengths L) :
    ∃ s, lengthOf lengths s = L ∧ rank lengths s = i := by
  have hL : L ≠ 0 := by
    rintro rfl
    simp [count] at hi
  rw [count, if_neg hL] at hi
  have hex : ∃ s, lengths.getD s 0 = L ∧ (lengths.take s).count L = i := by
    induction lengths generalizing i with
    | nil => simp at hi
    | cons l ls ih =>
      by_cases hl : l = L
      · subst hl
        cases i with
        | zero => exact ⟨0, by simp⟩
        | succ i =>
          obtain ⟨s, hs, hcount⟩ := ih (i := i) (by simpa using hi)
          exact ⟨s + 1, by simpa using hs, by simp [hcount]⟩
      · obtain ⟨s, hs, hcount⟩ := ih (i := i) (by simpa [List.count_cons_of_ne hl] using hi)
        exact ⟨s + 1, by simpa using hs, by simp [hcount, List.count_cons_of_ne hl]⟩
  obtain ⟨s, rfl, hcount⟩ := hex
  exact ⟨s, rfl, hcount⟩

/-! ## The symbols in the order of their words -/

/-- The number of words that are shorter than `L`. -/
def firstIndex (lengths : List ℕ) (L : ℕ) : ℕ := ∑ l ∈ Finset.range L, count lengths l

/-- The place of a symbol in the order of the words. -/
def index (lengths : List ℕ) (s : ℕ) : ℕ :=
  firstIndex lengths (lengthOf lengths s) + rank lengths s

theorem firstIndex_succ (L : ℕ) :
    firstIndex lengths (L + 1) = firstIndex lengths L + count lengths L :=
  Finset.sum_range_succ _ L

theorem firstIndex_mono {L M : ℕ} (h : L ≤ M) : firstIndex lengths L ≤ firstIndex lengths M :=
  Finset.sum_le_sum_of_subset (Finset.range_subset_range.mpr h)

theorem count_cons (l : ℕ) (ls : List ℕ) (L : ℕ) :
    count (l :: ls) L = count ls L + if l = L ∧ l ≠ 0 then 1 else 0 := by
  by_cases hL : L = 0
  · subst hL
    simp +contextual [count]
  · by_cases hl : l = L
    · simp [count, hL, hl]
    · simp [count, hL, hl]

theorem firstIndex_le_length (L : ℕ) : firstIndex lengths L ≤ lengths.length := by
  induction lengths with
  | nil => simp [firstIndex, count]
  | cons l ls ih =>
    have hone : ∑ x ∈ Finset.range L, (if l = x ∧ l ≠ 0 then 1 else 0) ≤ 1 := by
      by_cases h0 : l = 0
      · simp [h0]
      · simp only [h0, ne_eq, not_false_eq_true, and_true, Finset.sum_ite_eq]
        split <;> omega
    simp only [firstIndex, count_cons, Finset.sum_add_distrib, List.length_cons]
    rw [firstIndex] at ih
    omega

theorem index_lt_firstIndex {s : ℕ} (h : lengthOf lengths s ≠ 0) :
    index lengths s < firstIndex lengths (lengthOf lengths s + 1) := by
  have hrank := rank_lt_count h
  rw [index, firstIndex_succ]
  omega

theorem index_lt_length {s : ℕ} (h : lengthOf lengths s ≠ 0) :
    index lengths s < lengths.length :=
  (index_lt_firstIndex h).trans_le (firstIndex_le_length _)

/-- No two symbols with words have the same place. -/
theorem index_injective {s s' : ℕ} (h : lengthOf lengths s ≠ 0) (h' : lengthOf lengths s' ≠ 0)
    (heq : index lengths s = index lengths s') : s = s' := by
  have hlt := index_lt_firstIndex h
  have hlt' := index_lt_firstIndex h'
  have hle : ∀ s, firstIndex lengths (lengthOf lengths s) ≤ index lengths s :=
    fun s => Nat.le_add_right _ _
  have hlen : lengthOf lengths s' = lengthOf lengths s := by
    rcases Nat.lt_trichotomy (lengthOf lengths s) (lengthOf lengths s') with hls | hls | hls
    · have hmono : firstIndex lengths (lengthOf lengths s + 1)
          ≤ firstIndex lengths (lengthOf lengths s') := firstIndex_mono hls
      exact absurd (hmono.trans (hle s')) (by omega)
    · exact hls.symm
    · have hmono : firstIndex lengths (lengthOf lengths s' + 1)
          ≤ firstIndex lengths (lengthOf lengths s) := firstIndex_mono hls
      exact absurd (hmono.trans (hle s)) (by omega)
  refine eq_of_rank_eq h hlen ?_
  rw [index, index, hlen] at heq
  omega

/-! ## Kraft's inequality -/

/-- The windows of `n` bits below this start with a word of at most `L` bits. -/
def bound (lengths : List ℕ) (n L : ℕ) : ℕ :=
  (firstCode lengths L + count lengths L) * 2 ^ (n - L)

theorem bound_eq_firstCode_mul {n L : ℕ} (hL : L < n) :
    bound lengths n L = firstCode lengths (L + 1) * 2 ^ (n - (L + 1)) := by
  have hn : n - L = n - (L + 1) + 1 := by omega
  rw [bound, firstCode, hn, pow_succ]
  ring

theorem bound_zero (n : ℕ) : bound lengths n 0 = 0 := by
  simp [bound, firstCode, count]

theorem bound_eq_sum {n L : ℕ} (hL : L ≤ n) :
    bound lengths n L = ∑ l ∈ Finset.range (L + 1), count lengths l * 2 ^ (n - l) := by
  induction L with
  | zero => simp [bound_zero, count]
  | succ L ih =>
    rw [Finset.sum_range_succ, ← ih (by omega), bound_eq_firstCode_mul (show L < n by omega), bound,
      add_mul]

theorem bound_mono {n L M : ℕ} (hLM : L ≤ M) (hM : M ≤ n) :
    bound lengths n L ≤ bound lengths n M := by
  rw [bound_eq_sum (hLM.trans hM), bound_eq_sum hM]
  refine Finset.sum_le_sum_of_subset ?_
  exact Finset.range_subset_range.mpr (by omega)

theorem kraftSum_eq_bound {n : ℕ} (h : ∀ l ∈ lengths, l ≤ n) :
    kraftSum lengths n = bound lengths n n := by
  rw [bound_eq_sum le_rfl]
  induction lengths with
  | nil => simp [kraftSum, count]
  | cons l ls ih =>
    have ih := ih fun x hx => h x (List.mem_cons_of_mem _ hx)
    have hl : l ≤ n := h l List.mem_cons_self
    have hone : ∑ L ∈ Finset.range (n + 1), (if l = L ∧ l ≠ 0 then 1 else 0) * 2 ^ (n - L)
        = if l ≠ 0 then 2 ^ (n - l) else 0 := by
      by_cases h0 : l = 0
      · simp [h0]
      · simp only [h0, ne_eq, not_false_eq_true, and_true, ite_mul, one_mul, zero_mul]
        rw [Finset.sum_ite_eq, if_pos (by simpa using Nat.lt_succ_of_le hl), if_pos trivial]
    simp only [count_cons, add_mul, Finset.sum_add_distrib, ← ih, hone]
    by_cases h0 : l = 0
    · simp [kraftSum, h0]
    · simp [kraftSum, h0, Nat.add_comm]

/-- Kraft's inequality: the words take at most the whole of the unit interval. -/
def Kraft (lengths : List ℕ) : Prop :=
  ((lengths.filter (· ≠ 0)).map fun l => (1 / 2 ^ l : ℚ)).sum ≤ 1

theorem kraftSum_eq {n : ℕ} (h : ∀ l ∈ lengths, l ≤ n) :
    (kraftSum lengths n : ℚ) =
      2 ^ n * ((lengths.filter (· ≠ 0)).map fun l => (1 / 2 ^ l : ℚ)).sum := by
  induction lengths with
  | nil => simp [kraftSum]
  | cons l ls ih =>
    have ih := ih fun x hx => h x (List.mem_cons_of_mem _ hx)
    have hl : l ≤ n := h l List.mem_cons_self
    by_cases h0 : l = 0
    · simpa [kraftSum, h0] using ih
    · have hpow : (2 : ℚ) ^ (n - l) = 2 ^ n * (1 / 2 ^ l) := by
        rw [one_div, pow_sub₀ 2 two_ne_zero hl]
      have hcons : kraftSum (l :: ls) n = 2 ^ (n - l) + kraftSum ls n := by simp [kraftSum, h0]
      rw [List.filter_cons_of_pos (by simpa using h0), List.map_cons, List.sum_cons, mul_add, ← ih,
        ← hpow, hcons]
      push_cast
      rfl

/-- Kraft's inequality makes lengths those of a prefix code. -/
theorem isPrefixCode_iff_kraft {n : ℕ} (h : ∀ l ∈ lengths, l ≤ n) :
    IsPrefixCode lengths n ↔ Kraft lengths := by
  have hsum : kraftSum lengths n ≤ 2 ^ n ↔ Kraft lengths := by
    have hpos : (0 : ℚ) < 2 ^ n := pow_pos two_pos n
    rw [← Nat.cast_le (α := ℚ), kraftSum_eq h, Nat.cast_pow, Nat.cast_ofNat, Kraft,
      mul_le_iff_le_one_right hpos]
  rw [← hsum]
  exact ⟨IsPrefixCode.kraft, fun hkraft => ⟨h, hkraft⟩⟩

/-- The words of a prefix code of every length fit in their bits. -/
theorem IsPrefixCode.firstCode_add_count_le {n L : ℕ} (h : IsPrefixCode lengths n) (hL : L ≤ n) :
    firstCode lengths L + count lengths L ≤ 2 ^ L := by
  have hle : bound lengths n L ≤ 2 ^ n :=
    (bound_mono hL le_rfl).trans (kraftSum_eq_bound h.le ▸ h.kraft)
  have hpow : 2 ^ n = 2 ^ L * 2 ^ (n - L) := by
    rw [← pow_add]
    congr 1
    omega
  rw [bound, hpow] at hle
  exact Nat.le_of_mul_le_mul_right hle (Nat.two_pow_pos _)

theorem IsPrefixCode.lengthOf_le {n : ℕ} (h : IsPrefixCode lengths n) (s : ℕ) :
    lengthOf lengths s ≤ n := by
  by_cases hs : lengthOf lengths s = 0
  · omega
  · exact h.le _ (List.mem_of_getElem? (getElem?_of_lengthOf hs))

theorem IsPrefixCode.code_lt {n s : ℕ} (h : IsPrefixCode lengths n)
    (hs : lengthOf lengths s ≠ 0) : code lengths s < 2 ^ lengthOf lengths s := by
  have hfit := h.firstCode_add_count_le (h.lengthOf_le s)
  have hrank := rank_lt_count hs
  rw [code]
  omega

/-! ## The word at the front of a window -/

/-- The first `n` bits of a stream as a number, the first bit most significant. -/
def window (n : ℕ) (bits : List Bool) : ℕ := ofLsb (toMsb n (ofLsb (bits.take n)))

/-- The word of `s` is at the front of the window `v` of `n` bits. -/
structure Matches (lengths : List ℕ) (n v s : ℕ) : Prop where
  lengthOf_ne_zero : lengthOf lengths s ≠ 0
  div_eq : v / 2 ^ (n - lengthOf lengths s) = code lengths s

/-- The windows that start with a word lie between the bounds of its length. -/
theorem Matches.mem_bounds {n v s : ℕ} (h : Matches lengths n v s)
    (hn : lengthOf lengths s ≤ n) :
    bound lengths n (lengthOf lengths s - 1) ≤ v ∧ v < bound lengths n (lengthOf lengths s) := by
  have hpos : 0 < 2 ^ (n - lengthOf lengths s) := Nat.two_pow_pos _
  have hne := h.lengthOf_ne_zero
  have hcode := h.div_eq
  rw [code] at hcode
  constructor
  · rw [bound_eq_firstCode_mul (show lengthOf lengths s - 1 < n by omega),
      show lengthOf lengths s - 1 + 1 = lengthOf lengths s by omega,
      ← Nat.le_div_iff_mul_le hpos]
    omega
  · have hrank := rank_lt_count hne
    rw [bound, ← Nat.div_lt_iff_lt_mul hpos]
    omega

/-- At most one word is at the front of a window. -/
theorem Matches.unique {n v s s' : ℕ} (h : Matches lengths n v s) (h' : Matches lengths n v s')
    (hn : ∀ s, lengthOf lengths s ≤ n) : s = s' := by
  have hb := h.mem_bounds (hn s)
  have hb' := h'.mem_bounds (hn s')
  have hne := h.lengthOf_ne_zero
  have hne' := h'.lengthOf_ne_zero
  have hlen : lengthOf lengths s' = lengthOf lengths s := by
    rcases Nat.lt_trichotomy (lengthOf lengths s) (lengthOf lengths s') with hlt | heq | hlt
    · have hmono : bound lengths n (lengthOf lengths s)
          ≤ bound lengths n (lengthOf lengths s' - 1) :=
        bound_mono (by omega) ((Nat.sub_le _ 1).trans (hn s'))
      omega
    · exact heq.symm
    · have hmono : bound lengths n (lengthOf lengths s')
          ≤ bound lengths n (lengthOf lengths s - 1) :=
        bound_mono (by omega) ((Nat.sub_le _ 1).trans (hn s))
      omega
  have hcode : code lengths s = code lengths s' := by
    rw [← h.div_eq, ← h'.div_eq, hlen]
  refine eq_of_rank_eq hne hlen ?_
  rw [code, code, hlen] at hcode
  omega

/-- A window below a bound starts with a word that is not longer. -/
theorem exists_matches {n M v : ℕ} (hM : M ≤ n) (hv : v < bound lengths n M) :
    ∃ s, Matches lengths n v s ∧ lengthOf lengths s ≤ M := by
  -- the length of the word is the first whose bound is above the window
  have hex : ∃ L, v < bound lengths n L := ⟨M, hv⟩
  obtain ⟨L, hL, hmin⟩ : ∃ L, v < bound lengths n L ∧ ∀ K < L, bound lengths n K ≤ v :=
    ⟨Nat.find hex, Nat.find_spec hex, fun K hK => not_lt.mp (Nat.find_min hex hK)⟩
  have hLM : L ≤ M := by
    by_contra hlt
    have := hmin M (by omega)
    omega
  have hL0 : L ≠ 0 := by
    rintro rfl
    rw [bound_zero] at hL
    omega
  have hpos : 0 < 2 ^ (n - L) := Nat.two_pow_pos _
  have hlow : firstCode lengths L ≤ v / 2 ^ (n - L) := by
    have hb := hmin (L - 1) (by omega)
    rw [bound_eq_firstCode_mul (by omega), show L - 1 + 1 = L by omega] at hb
    exact (Nat.le_div_iff_mul_le hpos).mpr hb
  have hhigh : v / 2 ^ (n - L) < firstCode lengths L + count lengths L :=
    (Nat.div_lt_iff_lt_mul hpos).mpr hL
  have hidx : v / 2 ^ (n - L) - firstCode lengths L < count lengths L := by omega
  obtain ⟨s, rfl, hrank⟩ := exists_rank hidx
  refine ⟨s, ⟨hL0, ?_⟩, hLM⟩
  rw [code, hrank]
  omega

theorem testBit_window {n i : ℕ} (bits : List Bool) (hi : i < n) :
    (window n bits).testBit i = bits.getD (n - 1 - i) false := by
  rw [window, testBit_ofLsb, getD_toMsb _ hi, testBit_ofLsb, List.getD_eq_getElem?_getD,
    List.getElem?_take_of_lt (by omega), ← List.getD_eq_getElem?_getD]

theorem window_lt (n : ℕ) (bits : List Bool) : window n bits < 2 ^ n := by
  simpa [window] using ofLsb_lt (toMsb n (ofLsb (bits.take n)))

/-- A stream that starts with a word. -/
theorem matches_codeword_append {m n s : ℕ} (h : IsPrefixCode lengths m) (hmn : m ≤ n)
    (hs : lengthOf lengths s ≠ 0) (rest : List Bool) :
    Matches lengths n (window n (codeword lengths s ++ rest)) s := by
  refine ⟨hs, Nat.eq_of_testBit_eq fun i => ?_⟩
  have hle := h.lengthOf_le s
  rw [Nat.testBit_div_two_pow]
  by_cases hi : i < lengthOf lengths s
  · rw [testBit_window _ (by omega), show n - 1 - (i + (n - lengthOf lengths s))
        = lengthOf lengths s - 1 - i by omega, codeword,
      List.getD_append _ _ _ _ (by simp; omega), getD_toMsb _ (by omega)]
    congr 1
    omega
  · rw [Nat.testBit_lt_two_pow, Nat.testBit_lt_two_pow]
    · exact (h.code_lt hs).trans_le (Nat.pow_le_pow_right (by decide) (by omega))
    · exact (window_lt n _).trans_le (Nat.pow_le_pow_right (by decide) (by omega))

@[simp] theorem length_codeword (s : ℕ) :
    (codeword lengths s).length = lengthOf lengths s := by
  simp [codeword]

/-- The first `n` bits of a stream, with zeros past its end. -/
def nextBits (n : ℕ) (bits : List Bool) : List Bool := (bits ++ List.replicate n false).take n

/-- The front of the next bits is the front of the window. -/
theorem take_nextBits {n L : ℕ} (hL : L ≤ n) (bits : List Bool) :
    (nextBits n bits).take L = toMsb L (window n bits / 2 ^ (n - L)) := by
  refine List.ext_getElem (by simp [nextBits, hL]) fun i hi hi' => ?_
  have hlt : i < L := by simpa using hi'
  have hmsb := getD_toMsb (window n bits / 2 ^ (n - L)) hlt
  rw [List.getD_eq_getElem _ _ hi', Nat.testBit_div_two_pow, testBit_window _ (by omega)] at hmsb
  rw [hmsb, show n - 1 - (L - 1 - i + (n - L)) = i by omega, List.getElem_take]
  simp only [nextBits, List.getElem_take]
  by_cases hin : i < bits.length
  · rw [List.getElem_append_left hin, List.getD_eq_getElem _ _ hin]
  · rw [List.getElem_append_right (by omega), List.getElem_replicate,
      List.getD_eq_default _ _ (by omega)]

/-- A word is at the front of the window exactly when it is at the front of the next bits. -/
theorem matches_window_iff {m n s : ℕ} (h : IsPrefixCode lengths m) (hmn : m ≤ n)
    (bits : List Bool) :
    Matches lengths n (window n bits) s ↔
      lengthOf lengths s ≠ 0 ∧ codeword lengths s <+: nextBits n bits := by
  have hle := h.lengthOf_le s
  have hlt : window n bits / 2 ^ (n - lengthOf lengths s) < 2 ^ lengthOf lengths s := by
    rw [Nat.div_lt_iff_lt_mul (Nat.two_pow_pos _), ← pow_add,
      show lengthOf lengths s + (n - lengthOf lengths s) = n by omega]
    exact window_lt n bits
  rw [List.prefix_iff_eq_take, length_codeword, take_nextBits (by omega), codeword]
  constructor
  · rintro ⟨hne, hdiv⟩
    exact ⟨hne, by rw [hdiv]⟩
  · rintro ⟨hne, heq⟩
    exact ⟨hne, (toMsb_injective (h.code_lt hne) hlt heq).symm⟩

end Cryptix.Lib.CanonicalCode
