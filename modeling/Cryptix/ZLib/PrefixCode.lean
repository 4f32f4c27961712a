import Cryptix.ZLib.HuffmanTree
import Mathlib.Tactic.NormNum

/-!
# Which lengths make a Huffman tree

`Build` of `Kernel/Library/ZLib.cpp` checks the words of every length that has some. That catches
exactly the lengths that violate Kraft's inequality (`isSome_build_iff`): the first partial sum
above one is that of a length with words. The code that is built need not be complete. A stream
that starts with none of its words is beyond the bounds of all lengths, and `Decode` returns `-1`
without a look at the symbols that an earlier `Build` has left (`Built.decode_of_no_match`).
-/

namespace Cryptix.ZLib.HuffmanTree

open Lib Lib.CanonicalCode

variable {lengths : List ℕ}

/-- Lengths that the loop of `Build` gets through fit in their bits. -/
theorem fits_of_foldlM (tree : HuffmanTree) {m : ℕ} {a : Assignment}
    (ha : (List.range' 1 m).foldlM (assignLength (count lengths)) (start tree) = some a) :
    Assigned lengths m a ∧ ∀ L ≤ m, firstCode lengths L + count lengths L ≤ 2 ^ L := by
  induction m generalizing a with
  | zero =>
    obtain rfl : start tree = a := by simpa using ha
    refine ⟨assigned_start tree, fun L hL => ?_⟩
    obtain rfl := Nat.le_zero.mp hL
    simp [firstCode, count]
  | succ m ih =>
    rw [foldlM_assignLength_succ] at ha
    obtain ⟨b, hb, hstep⟩ := Option.bind_eq_some_iff.mp ha
    obtain ⟨hassigned, hfits⟩ := ih hb
    have hlast : firstCode lengths (m + 1) + count lengths (m + 1) ≤ 2 ^ (m + 1) := by
      by_contra hover
      have hprevious := hfits m le_rfl
      have hfirst : firstCode lengths (m + 1) =
          2 * (firstCode lengths m + count lengths m) := rfl
      have hpow : 2 ^ (m + 1) = 2 * 2 ^ m := pow_succ' 2 m
      -- without words of this length the words before it would not fit either
      have hcond : count lengths (m + 1) ≠ 0 ∧
          b.huffmanCode + count lengths (m + 1) - 1 ≥ 1 <<< (m + 1) := by
        rw [hassigned.huffmanCode, Nat.shiftLeft_eq, Nat.one_mul]
        omega
      have hnone : assignLength (count lengths) b (m + 1) = none := if_pos hcond
      rw [hnone] at hstep
      cases hstep
    obtain ⟨a', ha', hassigned'⟩ := hassigned.assignLength hlast
    obtain rfl := Option.some.inj (ha'.symm.trans hstep)
    refine ⟨hassigned', fun L hL => ?_⟩
    rcases Nat.le_succ_iff.mp hL with hle | rfl
    · exact hfits L hle
    · exact hlast

/-- `Build` succeeds exactly for the lengths of a prefix code. -/
theorem isSome_build_iff (tree : HuffmanTree) (hle : ∀ l ∈ lengths, l ≤ 15) :
    (tree.build lengths).isSome ↔ IsPrefixCode lengths 15 := by
  constructor
  · intro hsome
    obtain ⟨tree', htree'⟩ := Option.isSome_iff_exists.mp hsome
    rw [build, codeLengthCounts_eq] at htree'
    split at htree'
    · cases htree'
    · obtain ⟨a, ha, -⟩ := Option.bind_eq_some_iff.mp htree'
      have hfits := (fits_of_foldlM tree ha).2 15 le_rfl
      refine ⟨hle, ?_⟩
      rw [kraftSum_eq_bound hle, bound]
      simpa using hfits
  · intro hcode
    obtain ⟨tree', htree', -⟩ := built_of_isPrefixCode tree hcode
    rw [htree']
    rfl

/-- Without a word at the front of the stream `Decode` returns `-1`. -/
theorem Built.decode_of_no_match {tree : HuffmanTree} {stream : BitStream}
    (h : Built lengths tree) (hcode : IsPrefixCode lengths 15)
    (hnone : ∀ s, ¬Matches lengths 16 (window 16 stream) s) :
    tree.decode stream = (none, stream) := by
  have hmask : stream.peekBits 16 &&& fastMask < 2 ^ 9 := Nat.and_lt_two_pow _ (by decide)
  have hfast (s : ℕ) : ¬Fast lengths s (stream.peekBits 16 &&& fastMask) := fun hfast =>
    hnone s ((fast_peekBits_iff hcode).mp hfast).2
  -- no bound of a length is above the window, so the search ends at sixteen or behind it
  have hbound : ∀ L ≤ 15, bound lengths 16 L ≤ window 16 stream := by
    intro L hL
    by_contra hlt
    obtain ⟨s, hs, -⟩ := exists_matches (show L ≤ 16 by omega) (not_le.mp hlt)
    exact hnone s hs
  rw [decode, h.fast_none _ hmask hfast]
  simp only [ne_eq, not_true_eq_false, if_false, decodeSlowPath, reverseBits_peekBits]
  cases hfind : (List.range' (fastBits + 1) 7).find? fun codeLength =>
      window 16 stream < tree.maxCodeInclusive codeLength with
  | none => rfl
  | some codeLength =>
    have hge : codeLength ≥ 16 := by
      by_contra hlt
      have hbelow := List.find?_some hfind
      have hmem : fastBits + 1 ≤ codeLength :=
        (List.mem_range'_1.mp (List.mem_of_find?_eq_some hfind)).1
      rw [h.max codeLength (by omega) (by omega), decide_eq_true_iff] at hbelow
      exact absurd (hbound codeLength (by omega)) (not_le.mpr hbelow)
    exact if_pos hge

/-- `Build` takes exactly the lengths that satisfy Kraft's inequality. `Decode` then returns the
symbol whose word of the canonical code is at the front of the next sixteen bits and drops that
word, or returns `-1` when no word is there. -/
theorem build_decodes_canonicalCode (tree : HuffmanTree) (hsize : lengths.length ≤ maxSymbols)
    (hle : ∀ l ∈ lengths, l ≤ 15) :
    ((tree.build lengths).isSome ↔ Kraft lengths) ∧
    ∀ tree', tree.build lengths = some tree' → ∀ stream : BitStream,
      (∀ s, lengthOf lengths s ≠ 0 → codeword lengths s <+: nextBits 16 stream →
        tree'.decode stream = (some s, stream.drop (lengthOf lengths s))) ∧
      ((∀ s, lengthOf lengths s ≠ 0 → ¬codeword lengths s <+: nextBits 16 stream) →
        tree'.decode stream = (none, stream)) := by
  refine ⟨(isSome_build_iff tree hle).trans (isPrefixCode_iff_kraft hle), ?_⟩
  intro tree' htree' stream
  have hcode : IsPrefixCode lengths 15 := (isSome_build_iff tree hle).mp (by rw [htree']; rfl)
  have hmatches (s : ℕ) := matches_window_iff (s := s) hcode (show 15 ≤ 16 by decide) stream
  obtain ⟨built, hbuild, h⟩ := built_of_isPrefixCode tree hcode
  obtain rfl := Option.some.inj (hbuild.symm.trans htree')
  refine ⟨fun s hne hprefix => h.decode_of_matches hcode hsize ((hmatches s).mpr ⟨hne, hprefix⟩),
    fun hnone => h.decode_of_no_match hcode fun s hs => ?_⟩
  obtain ⟨hne, hprefix⟩ := (hmatches s).mp hs
  exact hnone s hne hprefix

/-- A tree with entries from before. -/
def stale : HuffmanTree := ⟨fun _ => 7, fun _ => 7, fun _ => 7, fun _ => 7, fun _ => 7, fun _ => 7⟩

/-- An incomplete code: `0` for the first symbol, `100` for the third. -/
theorem decode_incomplete : ∃ tree', stale.build [1, 0, 3] = some tree' ∧
    tree'.decode [true, false, false, true] = (some 2, [true]) ∧
      tree'.decode [true, true] = (none, [true, true]) := by
  obtain ⟨hbuild, hdecode⟩ := @build_decodes_canonicalCode [1, 0, 3] stale (by decide) (by decide)
  have hkraft : Kraft [1, 0, 3] := by norm_num [Kraft]
  obtain ⟨tree', htree'⟩ := Option.isSome_iff_exists.mp (hbuild.mpr hkraft)
  refine ⟨tree', htree', (hdecode tree' htree' _).1 2 (by decide) (by decide),
    (hdecode tree' htree' _).2 fun s hs => ?_⟩
  have hlt := lt_length_of_lengthOf hs
  have hall : ∀ s < 3, ¬codeword [1, 0, 3] s <+: nextBits 16 [true, true] ∨
      lengthOf [1, 0, 3] s = 0 := by decide
  exact (hall s hlt).resolve_right hs

end Cryptix.ZLib.HuffmanTree
