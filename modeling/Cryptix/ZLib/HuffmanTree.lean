import Mathlib.Logic.Function.Basic
import Cryptix.Lib.CanonicalCode

/-!
# Huffman trees

`HuffmanTree` of `Kernel/Library/ZLib.cpp`. `Build` makes the tables of a canonical code from the
lengths of its words; `Decode` finds the word at the front of a stream, words of up to nine bits by
one look into a table, longer ones by comparing the next sixteen bits with the bounds of the
lengths. Both ways find the one word of the canonical code (`Built.decode_of_matches`), whatever the
tables held before `Build`.

The tables are functions from their indices. Every number that `Build` computes for lengths of at
most fifteen bits fits in the type of its table.
-/

namespace Cryptix.ZLib

open Lib Lib.CanonicalCode

/-- Prism's `BitStream`: the bits that are left, in the order in which they are read. Bits past the
end are read as zero. -/
abbrev BitStream := List Bool

namespace BitStream

/-- `PeekBits`: the first bit is the least significant one. -/
def peekBits (stream : BitStream) (n : ℕ) : ℕ := ofLsb (stream.take n)

/-- `DropBits`. -/
def dropBits (stream : BitStream) (n : ℕ) : BitStream := stream.drop n

/-- `ReadBits`. -/
def readBits (stream : BitStream) (n : ℕ) : ℕ × BitStream := (stream.peekBits n, stream.dropBits n)

end BitStream

/-- `ReverseBits`. -/
def reverseBits (value count : ℕ) : ℕ :=
  let r := ((value &&& 0xaaaa) >>> 1) ||| ((value &&& 0x5555) <<< 1)
  let r := ((r &&& 0xcccc) >>> 2) ||| ((r &&& 0x3333) <<< 2)
  let r := ((r &&& 0xf0f0) >>> 4) ||| ((r &&& 0x0f0f) <<< 4)
  let r := ((r &&& 0xff00) >>> 8) ||| ((r &&& 0x00ff) <<< 8)
  r >>> (16 - count)

structure HuffmanTree where
  fastLookupTable : ℕ → ℕ
  firstCodeOfLength : ℕ → ℕ
  maxCodeInclusive : ℕ → ℕ
  firstSymbolIndexOfLength : ℕ → ℕ
  symbolBitLengths : ℕ → ℕ
  symbolValues : ℕ → ℕ

namespace HuffmanTree

/-- `FAST_BITS`. -/
def fastBits : ℕ := 9

/-- `FAST_MASK`. -/
def fastMask : ℕ := (1 <<< fastBits) - 1

/-- `MAX_SYMBOLS`. -/
def maxSymbols : ℕ := 288

/-- `codeLengthCounts`: how many symbols have a word of each length. -/
def codeLengthCounts (bitLengths : List ℕ) : ℕ → ℕ :=
  Function.update
    (bitLengths.foldl (fun counts length => Function.update counts length (counts length + 1))
      fun _ => 0) 0 0

/-- What the loop of `Build` over the lengths works on. -/
structure Assignment where
  huffmanCode : ℕ
  totalSymbolsAssigned : ℕ
  nextCodeForLength : ℕ → ℕ
  tree : HuffmanTree

/-- One turn of the loop of `Build` over the lengths. -/
def assignLength (counts : ℕ → ℕ) (a : Assignment) (length : ℕ) : Option Assignment :=
  let huffmanCode := a.huffmanCode + counts length
  if counts length ≠ 0 ∧ huffmanCode - 1 ≥ 1 <<< length then none
  else some
    { huffmanCode := huffmanCode <<< 1
      totalSymbolsAssigned := a.totalSymbolsAssigned + counts length
      nextCodeForLength := Function.update a.nextCodeForLength length a.huffmanCode
      tree :=
        { a.tree with
          firstCodeOfLength := Function.update a.tree.firstCodeOfLength length a.huffmanCode
          firstSymbolIndexOfLength :=
            Function.update a.tree.firstSymbolIndexOfLength length a.totalSymbolsAssigned
          maxCodeInclusive :=
            Function.update a.tree.maxCodeInclusive length (huffmanCode <<< (16 - length)) } }

/-- The `while` loop of `Build` over the entries of the fast table that end in a word, for at most
`n` turns. -/
def fillFast (value step : ℕ) : ℕ → ℕ → (ℕ → ℕ) → ℕ → ℕ
  | 0, _, table => table
  | n + 1, reversedBits, table =>
    if reversedBits < 1 <<< fastBits then
      fillFast value step n (reversedBits + step) (Function.update table reversedBits value)
    else table

/-- One turn of the loop of `Build` over the symbols: the tree and `nextCodeForLength`. A turn of
the inner loop moves on by at least two entries, so `1 <<< fastBits` turns are enough. -/
def placeSymbol (bitLengths : List ℕ) (state : HuffmanTree × (ℕ → ℕ)) (symbol : ℕ) :
    HuffmanTree × (ℕ → ℕ) :=
  let (tree, next) := state
  let length := bitLengths.getD symbol 0
  if length = 0 then state
  else
    let symbolIndex :=
      next length - tree.firstCodeOfLength length + tree.firstSymbolIndexOfLength length
    let fastTableValue := length <<< 9 ||| symbol
    let fastLookupTable :=
      if length ≤ fastBits then
        fillFast fastTableValue (1 <<< length) (1 <<< fastBits)
          (reverseBits (next length) length) tree.fastLookupTable
      else tree.fastLookupTable
    ({ tree with
        symbolBitLengths := Function.update tree.symbolBitLengths symbolIndex length
        symbolValues := Function.update tree.symbolValues symbolIndex symbol
        fastLookupTable },
      Function.update next length (next length + 1))

/-- `HuffmanTree::Build`, with `none` for a result of false. -/
def build (tree : HuffmanTree) (bitLengths : List ℕ) : Option HuffmanTree :=
  let counts := codeLengthCounts bitLengths
  if (List.range' 1 15).any fun length => counts length > 1 <<< length then none
  else do
    let a ← (List.range' 1 15).foldlM (assignLength counts)
      ⟨0, 0, fun _ => 0, { tree with fastLookupTable := fun _ => 0 }⟩
    let tree :=
      { a.tree with maxCodeInclusive := Function.update a.tree.maxCodeInclusive 16 0x10000 }
    some ((List.range bitLengths.length).foldl (placeSymbol bitLengths)
      (tree, a.nextCodeForLength)).1

/-- `HuffmanTree::DecodeSlowPath`, with `none` for a result of `-1`. `Build` puts a bound above
every sixteen bits at the end of `MaxCodeInclusive`, where the search for the length ends. -/
def decodeSlowPath (tree : HuffmanTree) (stream : BitStream) : Option ℕ × BitStream :=
  let reversedBits := reverseBits (stream.peekBits 16) 16
  match (List.range' (fastBits + 1) 7).find? fun codeLength =>
      reversedBits < tree.maxCodeInclusive codeLength with
  | none => (none, stream)
  | some codeLength =>
    if codeLength ≥ 16 then (none, stream)
    else
      let symbolIndex := reversedBits >>> (16 - codeLength) - tree.firstCodeOfLength codeLength
        + tree.firstSymbolIndexOfLength codeLength
      if symbolIndex ≥ maxSymbols then (none, stream)
      else if tree.symbolBitLengths symbolIndex ≠ codeLength then (none, stream)
      else (some (tree.symbolValues symbolIndex), stream.dropBits codeLength)

/-- `HuffmanTree::Decode`. -/
def decode (tree : HuffmanTree) (stream : BitStream) : Option ℕ × BitStream :=
  let bits := stream.peekBits 16
  let fastEntry := tree.fastLookupTable (bits &&& fastMask)
  if fastEntry ≠ 0 then
    let codeLength := fastEntry >>> 9
    (some (fastEntry &&& 511), stream.dropBits codeLength)
  else tree.decodeSlowPath stream

/-! ## Reversed words -/

/-- At the bit `i` the masks of a turn of `ReverseBits` pick the bit whose index differs in `k`. -/
def Swaps (high low k i : ℕ) : Prop :=
  (i ^^^ k = k + i ∧ high.testBit (k + i) = true ∧ (k ≤ i → low.testBit (i - k) = false)) ∨
    (i ^^^ k = i - k ∧ k ≤ i ∧ high.testBit (k + i) = false ∧ low.testBit (i - k) = true)

instance (high low k i : ℕ) : Decidable (Swaps high low k i) :=
  inferInstanceAs (Decidable (_ ∨ _))

theorem Swaps.testBit {high low k i : ℕ} (h : Swaps high low k i) (v : ℕ) :
    (((v &&& high) >>> k) ||| ((v &&& low) <<< k)).testBit i = v.testBit (i ^^^ k) := by
  rw [Nat.testBit_or, Nat.testBit_shiftRight, Nat.testBit_shiftLeft, Nat.testBit_and,
    Nat.testBit_and]
  rcases h with ⟨hi, hhigh, hlow⟩ | ⟨hi, hk, hhigh, hlow⟩
  · rw [hi, hhigh]
    by_cases hk : k ≤ i
    · simp [hlow hk]
    · simp [hk]
  · rw [hi, hhigh, hlow]
    simp [hk]

theorem testBit_reverseBits_sixteen {i : ℕ} (v : ℕ) (hi : i < 16) :
    (reverseBits v 16).testBit i = v.testBit (15 - i) := by
  have hswaps : ∀ i < 16, Swaps 0xaaaa 0x5555 1 i ∧ Swaps 0xcccc 0x3333 2 i ∧
      Swaps 0xf0f0 0x0f0f 4 i ∧ Swaps 0xff00 0x00ff 8 i := by decide
  have hxor : ∀ i < 16, i ^^^ 8 < 16 ∧ i ^^^ 8 ^^^ 4 < 16 ∧ i ^^^ 8 ^^^ 4 ^^^ 2 < 16 ∧
      i ^^^ 8 ^^^ 4 ^^^ 2 ^^^ 1 = 15 - i := by decide
  obtain ⟨h8, h4, h2, hall⟩ := hxor i hi
  simp only [reverseBits, Nat.sub_self, Nat.shiftRight_zero]
  rw [(hswaps i hi).2.2.2.testBit, (hswaps _ h8).2.2.1.testBit, (hswaps _ h4).2.1.testBit,
    (hswaps _ h2).1.testBit, hall]

theorem reverseBits_lt (v : ℕ) : reverseBits v 16 < 2 ^ 16 := by
  simp only [reverseBits, Nat.sub_self, Nat.shiftRight_zero]
  refine Nat.or_lt_two_pow ?_ ?_
  · exact (Nat.shiftRight_le _ _).trans_lt (Nat.and_lt_two_pow _ (by decide))
  · rw [Nat.shiftLeft_eq]
    exact Nat.mul_lt_mul_of_pos_right (Nat.and_lt_two_pow (n := 8) _ (by decide)) (by decide)

/-- The bits of a reversed number. -/
theorem testBit_reverseBits {n i : ℕ} (v : ℕ) (hn : n ≤ 16) (hi : i < n) :
    (reverseBits v n).testBit i = v.testBit (n - 1 - i) := by
  have hshift : reverseBits v n = reverseBits v 16 >>> (16 - n) := rfl
  rw [hshift, Nat.testBit_shiftRight, testBit_reverseBits_sixteen v (by omega)]
  congr 1
  omega

theorem reverseBits_lt_two_pow {n : ℕ} (v : ℕ) (hn : n ≤ 16) : reverseBits v n < 2 ^ n := by
  have hshift : reverseBits v n = reverseBits v 16 >>> (16 - n) := rfl
  rw [hshift, Nat.shiftRight_eq_div_pow, Nat.div_lt_iff_lt_mul (Nat.two_pow_pos _), ← pow_add,
    show n + (16 - n) = 16 by omega]
  exact reverseBits_lt v

/-- A number ends in a reversed word exactly when the word is at the front of the reversed
number. -/
theorem mod_eq_reverseBits_iff {n c : ℕ} (p : ℕ) (hn : n ≤ 16) (hc : c < 2 ^ n) :
    p % 2 ^ n = reverseBits c n ↔ reverseBits p 16 / 2 ^ (16 - n) = c := by
  have hbit : ∀ i < n, (reverseBits p 16 / 2 ^ (16 - n)).testBit i = p.testBit (n - 1 - i) := by
    intro i hi
    rw [Nat.testBit_div_two_pow, testBit_reverseBits_sixteen p (by omega)]
    congr 1
    omega
  constructor
  · intro h
    refine Nat.eq_of_testBit_eq fun i => ?_
    by_cases hi : i < n
    · have hmod := congrArg (Nat.testBit · (n - 1 - i)) h
      simp only [Nat.testBit_mod_two_pow, testBit_reverseBits c hn (show n - 1 - i < n by omega),
        show n - 1 - i < n by omega, decide_true, Bool.true_and,
        show n - 1 - (n - 1 - i) = i by omega] at hmod
      rw [hbit i hi, hmod]
    · have hlt : reverseBits p 16 / 2 ^ (16 - n) < 2 ^ n := by
        rw [Nat.div_lt_iff_lt_mul (Nat.two_pow_pos _), ← pow_add, show n + (16 - n) = 16 by omega]
        exact reverseBits_lt p
      have hpow : 2 ^ n ≤ 2 ^ i := Nat.pow_le_pow_right (by decide) (by omega)
      rw [Nat.testBit_lt_two_pow (hlt.trans_le hpow), Nat.testBit_lt_two_pow (hc.trans_le hpow)]
  · rintro rfl
    refine Nat.eq_of_testBit_eq fun i => ?_
    by_cases hi : i < n
    · rw [Nat.testBit_mod_two_pow, testBit_reverseBits _ hn hi, hbit _ (by omega)]
      simp [hi, show n - 1 - (n - 1 - i) = i by omega]
    · have hpow : 2 ^ n ≤ 2 ^ i := Nat.pow_le_pow_right (by decide) (by omega)
      rw [Nat.testBit_lt_two_pow ((reverseBits_lt_two_pow _ hn).trans_le hpow)]
      simp [Nat.testBit_mod_two_pow, hi]

/-- `Decode` looks at the next sixteen bits as a window. -/
theorem reverseBits_peekBits (stream : BitStream) :
    reverseBits (stream.peekBits 16) 16 = window 16 stream := by
  refine Nat.eq_of_testBit_eq fun i => ?_
  by_cases hi : i < 16
  · rw [testBit_reverseBits_sixteen _ hi, testBit_window _ hi, BitStream.peekBits, testBit_ofLsb,
      List.getD_eq_getElem?_getD, List.getElem?_take_of_lt (by omega),
      ← List.getD_eq_getElem?_getD]
  · have hpow : 2 ^ 16 ≤ 2 ^ i := Nat.pow_le_pow_right (by decide) (by omega)
    rw [Nat.testBit_lt_two_pow ((reverseBits_lt _).trans_le hpow),
      Nat.testBit_lt_two_pow ((window_lt 16 stream).trans_le hpow)]

/-! ## The loop over the lengths -/

variable {lengths : List ℕ}

theorem codeLengthCounts_eq (lengths : List ℕ) : codeLengthCounts lengths = count lengths := by
  have hfold : ∀ (l : List ℕ) (counts : ℕ → ℕ) (L : ℕ),
      l.foldl (fun counts length => Function.update counts length (counts length + 1)) counts L
        = counts L + l.count L := by
    intro l
    induction l with
    | nil => simp
    | cons x xs ih =>
      intro counts L
      rw [List.foldl_cons, ih]
      by_cases hx : L = x
      · subst hx
        simp
        omega
      · simp [Function.update_of_ne hx, List.count_cons_of_ne (Ne.symm hx)]
  funext L
  rw [codeLengthCounts, count]
  by_cases hL : L = 0
  · simp [hL]
  · rw [Function.update_of_ne hL, hfold, if_neg hL, Nat.zero_add]

/-- The tables after the lengths up to `m` have got their words. -/
structure Assigned (lengths : List ℕ) (m : ℕ) (a : Assignment) : Prop where
  huffmanCode : a.huffmanCode = firstCode lengths (m + 1)
  total : a.totalSymbolsAssigned = firstIndex lengths (m + 1)
  next : ∀ L, 1 ≤ L → L ≤ m → a.nextCodeForLength L = firstCode lengths L
  firstCode : ∀ L, 1 ≤ L → L ≤ m → a.tree.firstCodeOfLength L = firstCode lengths L
  firstIndex : ∀ L, 1 ≤ L → L ≤ m → a.tree.firstSymbolIndexOfLength L = firstIndex lengths L
  max : ∀ L, 1 ≤ L → L ≤ m → a.tree.maxCodeInclusive L = bound lengths 16 L
  fast : a.tree.fastLookupTable = fun _ => 0

/-- Looks a value up that was written for `m + 1` on top of values for `1` to `m`. -/
theorem update_succ {f g : ℕ → ℕ} {m v : ℕ} (hf : ∀ L, 1 ≤ L → L ≤ m → f L = g L)
    (hv : v = g (m + 1)) :
    ∀ L, 1 ≤ L → L ≤ m + 1 → Function.update f (m + 1) v L = g L := by
  intro L h1 hL
  by_cases heq : L = m + 1
  · subst heq
    simpa using hv
  · rw [Function.update_of_ne heq]
    exact hf L h1 (by omega)

theorem Assigned.assignLength {m : ℕ} {a : Assignment} (h : Assigned lengths m a)
    (hfits : CanonicalCode.firstCode lengths (m + 1) + count lengths (m + 1) ≤ 2 ^ (m + 1)) :
    ∃ a', HuffmanTree.assignLength (count lengths) a (m + 1) = some a' ∧
      Assigned lengths (m + 1) a' := by
  have hcond : ¬(count lengths (m + 1) ≠ 0 ∧
      a.huffmanCode + count lengths (m + 1) - 1 ≥ 1 <<< (m + 1)) := by
    rw [h.huffmanCode, Nat.shiftLeft_eq, Nat.one_mul]
    omega
  refine ⟨_, if_neg hcond, ?_⟩
  constructor
  · rw [h.huffmanCode, CanonicalCode.firstCode, Nat.shiftLeft_eq, Nat.mul_comm]
    rfl
  · rw [h.total, firstIndex_succ (m + 1)]
  · exact update_succ h.next h.huffmanCode
  · exact update_succ h.firstCode h.huffmanCode
  · exact update_succ h.firstIndex h.total
  · refine update_succ h.max ?_
    rw [h.huffmanCode, Nat.shiftLeft_eq, bound]
  · exact h.fast

/-- The tree at the start of the loop over the lengths. -/
def start (tree : HuffmanTree) : Assignment :=
  ⟨0, 0, fun _ => 0, { tree with fastLookupTable := fun _ => 0 }⟩

theorem assigned_start (tree : HuffmanTree) : Assigned lengths 0 (start tree) where
  huffmanCode := by simp [start, CanonicalCode.firstCode, count]
  total := by simp [start, CanonicalCode.firstIndex, count]
  next L h1 h0 := by omega
  firstCode L h1 h0 := by omega
  firstIndex L h1 h0 := by omega
  max L h1 h0 := by omega
  fast := rfl

theorem foldlM_assignLength_succ (a : Assignment) (m : ℕ) :
    (List.range' 1 (m + 1)).foldlM (assignLength (count lengths)) a
      = ((List.range' 1 m).foldlM (assignLength (count lengths)) a).bind
          fun a' => assignLength (count lengths) a' (m + 1) := by
  rw [List.range'_concat, List.foldlM_append, Option.bind_eq_bind]
  congr 1
  funext a'
  simp [Nat.add_comm]

/-- Words that fit are assigned. -/
theorem assigned_of_fits (tree : HuffmanTree) {m : ℕ}
    (hfits : ∀ L ≤ m, firstCode lengths L + count lengths L ≤ 2 ^ L) :
    ∃ a, (List.range' 1 m).foldlM (assignLength (count lengths)) (start tree) = some a ∧
      Assigned lengths m a := by
  induction m with
  | zero => exact ⟨_, rfl, assigned_start tree⟩
  | succ m ih =>
    obtain ⟨a, ha, hassigned⟩ := ih fun L hL => hfits L (by omega)
    obtain ⟨a', ha', hassigned'⟩ := hassigned.assignLength (hfits (m + 1) le_rfl)
    refine ⟨a', ?_, hassigned'⟩
    rw [foldlM_assignLength_succ, ha]
    exact ha'

/-! ## The loop over the symbols -/

/-- The inner loop writes the entries from `reversedBits` on, `step` apart. -/
theorem fillFast_apply {value step n r i : ℕ} {table : ℕ → ℕ} (hstep : 0 < step)
    (hn : 2 ^ 9 ≤ r + n * step) :
    fillFast value step n r table i
      = if r ≤ i ∧ i < 2 ^ 9 ∧ step ∣ i - r then value else table i := by
  induction n generalizing r table with
  | zero =>
    rw [fillFast, if_neg]
    omega
  | succ n ih =>
    rw [fillFast]
    by_cases hr : r < 1 <<< fastBits
    · rw [if_pos hr, ih (by rw [Nat.add_mul] at hn; omega)]
      change r < 2 ^ 9 at hr
      by_cases hi : i = r
      · subst hi
        rw [if_neg (by omega), Function.update_self, if_pos ⟨le_rfl, hr, by simp⟩]
      · rw [Function.update_of_ne hi]
        have hiff : (r + step ≤ i ∧ i < 2 ^ 9 ∧ step ∣ i - (r + step)) ↔
            (r ≤ i ∧ i < 2 ^ 9 ∧ step ∣ i - r) := by
          constructor
          · rintro ⟨hle, hlt, k, hk⟩
            exact ⟨by omega, hlt, k + 1, by rw [Nat.mul_add]; omega⟩
          · rintro ⟨hle, hlt, hdvd⟩
            have hge : step ≤ i - r := Nat.le_of_dvd (by omega) hdvd
            refine ⟨by omega, hlt, ?_⟩
            rw [Nat.sub_add_eq]
            exact Nat.dvd_sub hdvd dvd_rfl
        simp only [hiff]
    · rw [if_neg hr, if_neg]
      change ¬r < 2 ^ 9 at hr
      omega

/-- A word of `L` bits gets the entries that end in it. -/
theorem fillFast_word {value L w i : ℕ} {table : ℕ → ℕ} (hw : w < 2 ^ L) :
    fillFast value (1 <<< L) (1 <<< fastBits) w table i
      = if i < 2 ^ 9 ∧ i % 2 ^ L = w then value else table i := by
  have hpos : 0 < 2 ^ L := Nat.two_pow_pos L
  rw [Nat.shiftLeft_eq 1 L, Nat.one_mul, fillFast_apply hpos]
  · congr 1
    rw [eq_iff_iff]
    constructor
    · rintro ⟨hle, hlt, k, hk⟩
      refine ⟨hlt, ?_⟩
      rw [show i = w + 2 ^ L * k by omega, Nat.add_mul_mod_self_left, Nat.mod_eq_of_lt hw]
    · rintro ⟨hlt, rfl⟩
      exact ⟨Nat.mod_le _ _, hlt, Nat.dvd_sub_mod i⟩
  · change 2 ^ 9 ≤ w + 512 * 2 ^ L
    omega

/-- The entry `r` of the fast table ends in the word of `s`. -/
structure Fast (lengths : List ℕ) (s r : ℕ) : Prop where
  ne_zero : lengthOf lengths s ≠ 0
  le : lengthOf lengths s ≤ fastBits
  mod_eq : r % 2 ^ lengthOf lengths s = reverseBits (code lengths s) (lengthOf lengths s)

/-- What the fast table holds for a symbol. -/
def fastEntry (lengths : List ℕ) (s : ℕ) : ℕ := lengthOf lengths s <<< 9 ||| s

theorem fast_iff_matches (h : IsPrefixCode lengths 15) {s r : ℕ} :
    Fast lengths s r ↔
      lengthOf lengths s ≤ fastBits ∧ Matches lengths 16 (reverseBits r 16) s := by
  constructor
  · intro hfast
    have hlen := h.lengthOf_le s
    exact ⟨hfast.le, hfast.ne_zero,
      (mod_eq_reverseBits_iff r (by omega) (h.code_lt hfast.ne_zero)).mp hfast.mod_eq⟩
  · rintro ⟨hle, hmatch⟩
    have hlen := h.lengthOf_le s
    exact ⟨hmatch.lengthOf_ne_zero, hle,
      (mod_eq_reverseBits_iff r (by omega) (h.code_lt hmatch.lengthOf_ne_zero)).mpr
        hmatch.div_eq⟩

theorem Fast.unique (h : IsPrefixCode lengths 15) {s s' r : ℕ} (hs : Fast lengths s r)
    (hs' : Fast lengths s' r) : s = s' :=
  ((fast_iff_matches h).mp hs).2.unique ((fast_iff_matches h).mp hs').2
    fun s => (h.lengthOf_le s).trans (by decide)

/-- The tables after the first `k` symbols have got their places. -/
structure Placed (lengths : List ℕ) (k : ℕ) (base : HuffmanTree)
    (state : HuffmanTree × (ℕ → ℕ)) : Prop where
  next : ∀ L, 1 ≤ L → L ≤ 15 → state.2 L = firstCode lengths L + (lengths.take k).count L
  firstCode : state.1.firstCodeOfLength = base.firstCodeOfLength
  firstIndex : state.1.firstSymbolIndexOfLength = base.firstSymbolIndexOfLength
  max : state.1.maxCodeInclusive = base.maxCodeInclusive
  bitLengths : ∀ s < k, lengthOf lengths s ≠ 0 →
    state.1.symbolBitLengths (index lengths s) = lengthOf lengths s
  values : ∀ s < k, lengthOf lengths s ≠ 0 → state.1.symbolValues (index lengths s) = s
  fast : ∀ r < 2 ^ 9, ∀ s < k, Fast lengths s r →
    state.1.fastLookupTable r = fastEntry lengths s
  fast_none : ∀ r < 2 ^ 9, (∀ s < k, ¬Fast lengths s r) → state.1.fastLookupTable r = 0

theorem count_take_succ_of_ne {s L : ℕ} (h : lengthOf lengths s ≠ L) :
    (lengths.take (s + 1)).count L = (lengths.take s).count L := by
  rw [List.take_add_one, List.count_append]
  cases hs : lengths[s]? with
  | none => simp
  | some l =>
    have hl : lengthOf lengths s = l := by rw [lengthOf, List.getD_eq_getElem?_getD, hs]; rfl
    simp [hl ▸ h]

namespace Placed

variable {k : ℕ} {base : HuffmanTree} {state : HuffmanTree × (ℕ → ℕ)}

/-- A symbol without a word is passed over. -/
theorem skip (h : Placed lengths k base state) (hk : lengthOf lengths k = 0) :
    Placed lengths (k + 1) base state where
  next L h1 h15 := by
    rw [h.next L h1 h15, count_take_succ_of_ne (by omega)]
  firstCode := h.firstCode
  firstIndex := h.firstIndex
  max := h.max
  bitLengths s hs hne := h.bitLengths s (by grind) hne
  values s hs hne := h.values s (by grind) hne
  fast r hr s hs hfast := h.fast r hr s (by grind [hfast.ne_zero]) hfast
  fast_none r hr hnone := h.fast_none r hr fun s hs => hnone s (by omega)

/-- A symbol with a word gets the next place of its length, and the entries of the fast table that
end in its word when that is short. -/
theorem place (h : Placed lengths k base state) (hcode : IsPrefixCode lengths 15)
    (hbase : ∀ L, 1 ≤ L → L ≤ 15 → base.firstCodeOfLength L = CanonicalCode.firstCode lengths L ∧
      base.firstSymbolIndexOfLength L = CanonicalCode.firstIndex lengths L)
    (hk : lengthOf lengths k ≠ 0) :
    Placed lengths (k + 1) base (placeSymbol lengths state k) := by
  obtain ⟨tree, next⟩ := state
  have hle := hcode.lengthOf_le k
  have hnext : next (lengthOf lengths k) = code lengths k := h.next _ (by omega) hle
  have hindex : code lengths k - tree.firstCodeOfLength (lengthOf lengths k)
      + tree.firstSymbolIndexOfLength (lengthOf lengths k) = index lengths k := by
    obtain ⟨hfirst, hplace⟩ := hbase (lengthOf lengths k) (by omega) hle
    rw [h.firstCode, h.firstIndex, hfirst, hplace, code, index]
    omega
  have hlen : lengths.getD k 0 = lengthOf lengths k := rfl
  simp only [placeSymbol, hlen, if_neg hk, hnext, hindex]
  -- the entries that end in the new word have no other word
  have hfast (r : ℕ) (hr : r < 2 ^ 9) :
      (if lengthOf lengths k ≤ fastBits then
        fillFast (lengthOf lengths k <<< 9 ||| k) (1 <<< lengthOf lengths k) (1 <<< fastBits)
          (reverseBits (code lengths k) (lengthOf lengths k)) tree.fastLookupTable
        else tree.fastLookupTable) r = fastEntry lengths k ∧ Fast lengths k r ∨
      (if lengthOf lengths k ≤ fastBits then
        fillFast (lengthOf lengths k <<< 9 ||| k) (1 <<< lengthOf lengths k) (1 <<< fastBits)
          (reverseBits (code lengths k) (lengthOf lengths k)) tree.fastLookupTable
        else tree.fastLookupTable) r = tree.fastLookupTable r ∧ ¬Fast lengths k r := by
    by_cases hshort : lengthOf lengths k ≤ fastBits
    · rw [if_pos hshort, fillFast_word (reverseBits_lt_two_pow _ (by omega))]
      by_cases hmod : r % 2 ^ lengthOf lengths k =
          reverseBits (code lengths k) (lengthOf lengths k)
      · rw [if_pos ⟨hr, hmod⟩]
        exact .inl ⟨rfl, hk, hshort, hmod⟩
      · rw [if_neg fun hand => hmod hand.2]
        exact .inr ⟨rfl, fun hfast => hmod hfast.mod_eq⟩
    · rw [if_neg hshort]
      exact .inr ⟨rfl, fun hfast => hshort hfast.le⟩
  refine ⟨fun L h1 h15 => ?_, h.firstCode, h.firstIndex, h.max, fun s hs hne => ?_,
    fun s hs hne => ?_, fun r hr s hs hs' => ?_, fun r hr hnone => ?_⟩
  · by_cases hL : L = lengthOf lengths k
    · subst hL
      rw [count_take_succ hk]
      exact (Function.update_self _ _ _).trans (Nat.add_assoc _ _ _)
    · rw [count_take_succ_of_ne (Ne.symm hL), ← h.next L h1 h15]
      exact Function.update_of_ne hL _ _
  · by_cases hsk : s = k
    · subst hsk
      exact Function.update_self _ _ _
    · have hplace : index lengths s ≠ index lengths k := fun heq =>
        hsk (index_injective hne hk heq)
      exact (Function.update_of_ne hplace _ _).trans (h.bitLengths s (by omega) hne)
  · by_cases hsk : s = k
    · subst hsk
      exact Function.update_self _ _ _
    · have hplace : index lengths s ≠ index lengths k := fun heq =>
        hsk (index_injective hne hk heq)
      exact (Function.update_of_ne hplace _ _).trans (h.values s (by omega) hne)
  · rcases hfast r hr with ⟨heq, hk'⟩ | ⟨heq, hk'⟩
    · rw [Fast.unique hcode hs' hk']
      exact heq
    · have hsk : s ≠ k := by
        rintro rfl
        exact hk' hs'
      exact heq.trans (h.fast r hr s (by omega) hs')
  · rcases hfast r hr with ⟨-, hk'⟩ | ⟨heq, -⟩
    · exact absurd hk' (hnone k (by omega))
    · exact heq.trans (h.fast_none r hr fun s hs => hnone s (by omega))

theorem step (h : Placed lengths k base state) (hcode : IsPrefixCode lengths 15)
    (hbase : ∀ L, 1 ≤ L → L ≤ 15 → base.firstCodeOfLength L = CanonicalCode.firstCode lengths L ∧
      base.firstSymbolIndexOfLength L = CanonicalCode.firstIndex lengths L) :
    Placed lengths (k + 1) base (placeSymbol lengths state k) := by
  by_cases hk : lengthOf lengths k = 0
  · have hskip : placeSymbol lengths state k = state := by
      obtain ⟨tree, next⟩ := state
      exact if_pos hk
    rw [hskip]
    exact h.skip hk
  · exact h.place hcode hbase hk

end Placed

/-! ## The tree that is built -/

/-- The tables of the canonical code of `lengths`. -/
structure Built (lengths : List ℕ) (tree : HuffmanTree) : Prop where
  firstCode : ∀ L, 1 ≤ L → L ≤ 15 → tree.firstCodeOfLength L = firstCode lengths L
  firstIndex : ∀ L, 1 ≤ L → L ≤ 15 → tree.firstSymbolIndexOfLength L = firstIndex lengths L
  max : ∀ L, 1 ≤ L → L ≤ 15 → tree.maxCodeInclusive L = bound lengths 16 L
  bitLengths : ∀ s, lengthOf lengths s ≠ 0 →
    tree.symbolBitLengths (index lengths s) = lengthOf lengths s
  values : ∀ s, lengthOf lengths s ≠ 0 → tree.symbolValues (index lengths s) = s
  fast : ∀ r < 2 ^ 9, ∀ s, Fast lengths s r → tree.fastLookupTable r = fastEntry lengths s
  fast_none : ∀ r < 2 ^ 9, (∀ s, ¬Fast lengths s r) → tree.fastLookupTable r = 0

/-- `Build` succeeds for the lengths of a prefix code of up to fifteen bits. -/
theorem built_of_isPrefixCode (tree : HuffmanTree) (h : IsPrefixCode lengths 15) :
    ∃ tree', tree.build lengths = some tree' ∧ Built lengths tree' := by
  have hfits : ∀ L ≤ 15, CanonicalCode.firstCode lengths L + count lengths L ≤ 2 ^ L :=
    fun L hL => h.firstCode_add_count_le hL
  have hcounts : ¬((List.range' 1 15).any fun length =>
      count lengths length > 1 <<< length) = true := by
    rw [List.any_eq_true]
    rintro ⟨L, hL, hgt⟩
    have hle := hfits L (by rw [List.mem_range'_1] at hL; omega)
    rw [decide_eq_true_iff, Nat.shiftLeft_eq, Nat.one_mul] at hgt
    omega
  obtain ⟨a, ha, hassigned⟩ := assigned_of_fits tree hfits
  let base : HuffmanTree :=
    { a.tree with maxCodeInclusive := Function.update a.tree.maxCodeInclusive 16 0x10000 }
  have hplaced (n : ℕ) : Placed lengths n base
      ((List.range n).foldl (placeSymbol lengths) (base, a.nextCodeForLength)) := by
    induction n with
    | zero =>
      refine ⟨fun L h1 h15 => ?_, rfl, rfl, rfl, fun s hs => absurd hs (Nat.not_lt_zero s),
        fun s hs => absurd hs (Nat.not_lt_zero s), fun r _ s hs => absurd hs (Nat.not_lt_zero s),
        fun r _ _ => congrFun hassigned.fast r⟩
      simpa using hassigned.next L h1 h15
    | succ n ih =>
      rw [List.range_succ, List.foldl_append]
      exact ih.step h fun L h1 h15 => ⟨hassigned.firstCode L h1 h15, hassigned.firstIndex L h1 h15⟩
  have hbuild : tree.build lengths = some ((List.range lengths.length).foldl (placeSymbol lengths)
      (base, a.nextCodeForLength)).1 := by
    rw [build, codeLengthCounts_eq, if_neg hcounts]
    exact congrArg (fun o => o.bind fun a => some ((List.range lengths.length).foldl
      (placeSymbol lengths) ({ a.tree with
        maxCodeInclusive := Function.update a.tree.maxCodeInclusive 16 0x10000 },
        a.nextCodeForLength)).1) ha
  have hall := hplaced lengths.length
  refine ⟨_, hbuild, fun L h1 h15 => ?_, fun L h1 h15 => ?_, fun L h1 h15 => ?_,
    fun s hs => hall.bitLengths s (lt_length_of_lengthOf hs) hs,
    fun s hs => hall.values s (lt_length_of_lengthOf hs) hs,
    fun r hr s hs => hall.fast r hr s (lt_length_of_lengthOf hs.ne_zero) hs,
    fun r hr hnone => hall.fast_none r hr fun s _ => hnone s⟩
  · rw [hall.firstCode]
    exact hassigned.firstCode L h1 h15
  · rw [hall.firstIndex]
    exact hassigned.firstIndex L h1 h15
  · rw [hall.max]
    exact (Function.update_of_ne (by omega) _ _).trans (hassigned.max L h1 h15)

/-! ## Decoding -/

namespace Built

variable {tree : HuffmanTree} {stream : BitStream} {s : ℕ}

/-- An entry of the fast table says the length of a word and its symbol. -/
theorem fastEntry_spec (hs : s < 512) (hlen : lengthOf lengths s ≠ 0) :
    fastEntry lengths s ≠ 0 ∧ fastEntry lengths s >>> 9 = lengthOf lengths s ∧
      fastEntry lengths s &&& 511 = s := by
  have hsplit : fastEntry lengths s = 2 ^ 9 * lengthOf lengths s + s := by
    rw [fastEntry, Nat.shiftLeft_eq, Nat.mul_comm]
    exact (Nat.two_pow_add_eq_or_of_lt hs _).symm
  refine ⟨by omega, ?_, ?_⟩
  · rw [Nat.shiftRight_eq_div_pow, hsplit]
    omega
  · rw [show 511 = 2 ^ 9 - 1 from rfl, Nat.and_two_pow_sub_one_eq_mod, hsplit]
    omega

/-- The entry of the fast table that `Decode` looks at ends in a short word exactly when the word is
at the front of the stream. -/
theorem fast_peekBits_iff (hcode : IsPrefixCode lengths 15) :
    Fast lengths s (stream.peekBits 16 &&& fastMask) ↔
      lengthOf lengths s ≤ fastBits ∧ Matches lengths 16 (window 16 stream) s := by
  have hmask : stream.peekBits 16 &&& fastMask = stream.peekBits 16 % 2 ^ 9 :=
    Nat.and_two_pow_sub_one_eq_mod _ 9
  have hfast : Fast lengths s (stream.peekBits 16 % 2 ^ 9) ↔
      Fast lengths s (stream.peekBits 16) := by
    have hmod (hle : lengthOf lengths s ≤ 9) : stream.peekBits 16 % 2 ^ 9 % 2 ^ lengthOf lengths s
        = stream.peekBits 16 % 2 ^ lengthOf lengths s :=
      Nat.mod_mod_of_dvd _ (pow_dvd_pow 2 hle)
    exact ⟨fun h => ⟨h.ne_zero, h.le, hmod h.le ▸ h.mod_eq⟩,
      fun h => ⟨h.ne_zero, h.le, (hmod h.le).trans h.mod_eq⟩⟩
  rw [hmask, hfast, fast_iff_matches hcode, reverseBits_peekBits]

/-- `DecodeSlowPath` finds the long word at the front of a stream. -/
theorem decodeSlowPath_of_matches (h : Built lengths tree) (hcode : IsPrefixCode lengths 15)
    (hsize : lengths.length ≤ maxSymbols) (hs : Matches lengths 16 (window 16 stream) s)
    (hlong : fastBits < lengthOf lengths s) :
    tree.decodeSlowPath stream = (some s, stream.drop (lengthOf lengths s)) := by
  have hle := hcode.lengthOf_le s
  have hlong' : 9 < lengthOf lengths s := hlong
  obtain ⟨hlow, hhigh⟩ := hs.mem_bounds (by omega)
  have hfind : (List.range' (fastBits + 1) 7).find? (fun codeLength =>
      window 16 stream < tree.maxCodeInclusive codeLength) = some (lengthOf lengths s) := by
    rw [List.find?_range'_eq_some]
    refine ⟨?_, ?_, fun L hL hL' => ?_⟩
    · rw [h.max _ (by omega) hle]
      exact decide_eq_true hhigh
    · rw [List.mem_range'_1]
      exact ⟨hlong, by change _ < 17; omega⟩
    · -- a shorter length has its bound below the window
      have hL : 9 + 1 ≤ L := hL
      have hmono : bound lengths 16 L ≤ bound lengths 16 (lengthOf lengths s - 1) :=
        bound_mono (by omega) (by omega)
      rw [h.max L (by omega) (by omega)]
      simpa using hmono.trans hlow
  have hindex : window 16 stream >>> (16 - lengthOf lengths s)
      - tree.firstCodeOfLength (lengthOf lengths s)
      + tree.firstSymbolIndexOfLength (lengthOf lengths s) = index lengths s := by
    rw [Nat.shiftRight_eq_div_pow, hs.div_eq, h.firstCode _ (by omega) hle,
      h.firstIndex _ (by omega) hle, code, index]
    omega
  have hlt := index_lt_length hs.lengthOf_ne_zero
  simp only [decodeSlowPath, reverseBits_peekBits, hfind, hindex,
    if_neg (show ¬lengthOf lengths s ≥ 16 by omega),
    if_neg (show ¬index lengths s ≥ maxSymbols by omega),
    h.bitLengths s hs.lengthOf_ne_zero, h.values s hs.lengthOf_ne_zero, ne_eq, not_true_eq_false,
    if_false]
  rfl

/-- `Decode` finds the word at the front of a stream. -/
theorem decode_of_matches (h : Built lengths tree) (hcode : IsPrefixCode lengths 15)
    (hsize : lengths.length ≤ maxSymbols) (hs : Matches lengths 16 (window 16 stream) s) :
    tree.decode stream = (some s, stream.drop (lengthOf lengths s)) := by
  have hmask : stream.peekBits 16 &&& fastMask < 2 ^ 9 := Nat.and_lt_two_pow _ (by decide)
  simp only [decode]
  by_cases hshort : lengthOf lengths s ≤ fastBits
  · have hlt := lt_length_of_lengthOf hs.lengthOf_ne_zero
    have hmax : maxSymbols = 288 := rfl
    obtain ⟨hne, hlen, hsymbol⟩ := fastEntry_spec (s := s) (by omega) hs.lengthOf_ne_zero
    rw [h.fast _ hmask s ((fast_peekBits_iff hcode).mpr ⟨hshort, hs⟩), if_pos hne, hlen, hsymbol]
    rfl
  · have hnone (s' : ℕ) : ¬Fast lengths s' (stream.peekBits 16 &&& fastMask) := by
      intro hfast
      obtain ⟨hle, hs'⟩ := (fast_peekBits_iff hcode).mp hfast
      obtain rfl := hs'.unique hs fun s => (hcode.lengthOf_le s).trans (by decide)
      exact hshort hle
    rw [h.fast_none _ hmask hnone, if_neg (by decide)]
    exact h.decodeSlowPath_of_matches hcode hsize hs (by omega)

/-- `Decode` reads a word. -/
theorem decode_codeword (h : Built lengths tree) (hcode : IsPrefixCode lengths 15)
    (hsize : lengths.length ≤ maxSymbols) (hs : lengthOf lengths s ≠ 0) (rest : List Bool) :
    tree.decode (codeword lengths s ++ rest) = (some s, rest) := by
  rw [h.decode_of_matches hcode hsize (matches_codeword_append hcode (by decide) hs rest)]
  have hdrop : (codeword lengths s ++ rest).drop (lengthOf lengths s) = rest :=
    drop_toMsb_append _ _ rest
  rw [hdrop]

end Built

end HuffmanTree

end Cryptix.ZLib
