import Cryptix.ZLib.OutputGrowth
import Cryptix.ZLib.PrefixCode

/-!
# The tokens of a block

`DecodeBlock` reads a block as the DEFLATE format says. `nextToken` takes the next token off a
stream by the canonical codes and the formulas for lengths and distances, with no tree and no table,
and `Produces` applies the tokens to a list of bytes. With room for what the block produces,
`DecodeBlock` ends with the same bytes at the same place of the stream, or fails where the reference
rejects the stream (`decodeBlock_exact`).
-/

namespace Cryptix.ZLib

open Lib Lib.CanonicalCode

namespace Deflate

/-- The symbol whose word is at the front of a stream, and what follows the word. -/
def nextSymbol (lengths : List ℕ) (stream : List Bool) : Option (ℕ × List Bool) :=
  ((List.range lengths.length).find? fun s =>
      lengthOf lengths s ≠ 0 && (codeword lengths s).isPrefixOf (nextBits 16 stream)).map
    fun s => (s, stream.drop (lengthOf lengths s))

/-- A length or a distance that starts at `start` and has `extra` bits after its word. -/
def readExtra (start extra : ℕ) (stream : List Bool) : ℕ × List Bool :=
  (start + ofLsb (stream.take extra), stream.drop extra)

/-- The token at the front of a stream, and what follows it. -/
def nextToken (codes : Codes) (stream : List Bool) : Option (Event × List Bool) := do
  let (symbol, stream) ← nextSymbol codes.literal stream
  if symbol < 256 then some (.literal (UInt8.ofNat symbol), stream)
  else if symbol = 256 then some (.endOfBlock, stream)
  else if 286 ≤ symbol then none
  else
    let (len, stream) := readExtra (lengthStart (symbol - 257)) (lengthExtra (symbol - 257)) stream
    let (symbol, stream) ← nextSymbol codes.distance stream
    if 30 ≤ symbol then none
    else
      let (distance, stream) := readExtra (distanceStart symbol) (distanceExtra symbol) stream
      some (.copy distance len, stream)

/-- Some tokens at the front of `s` make `out'` of the output `out`; what follows them is `s'`. -/
inductive Produces (codes : Codes) :
    List UInt8 → List Bool → List UInt8 → List Bool → Prop
  | refl (out : List UInt8) (s : List Bool) : Produces codes out s out s
  | head {out out₁ out' : List UInt8} {s s₁ s' : List Bool} {e : Event} :
    nextToken codes s = some (e, s₁) → e ≠ .endOfBlock → e.apply out = some out₁ →
    Produces codes out₁ s₁ out' s' → Produces codes out s out' s'

/-- The block at the front of `s` makes `out'` of `out`, and `rest` follows it. -/
def Reads (codes : Codes) (out : List UInt8) (s : List Bool) (out' : List UInt8)
    (rest : List Bool) : Prop :=
  ∃ s', Produces codes out s out' s' ∧ nextToken codes s' = some (.endOfBlock, rest)

/-- The tokens at the front of `s` lead to one that is none, or to a copy from in front of the
output. -/
def Rejects (codes : Codes) (out : List UInt8) (s : List Bool) : Prop :=
  ∃ out' s', Produces codes out s out' s' ∧
    (nextToken codes s' = none ∨
      ∃ distance len rest, nextToken codes s' = some (.copy distance len, rest) ∧
        out'.length < distance)

section Reference

variable {codes : Codes} {out out₁ out₂ : List UInt8} {s s₁ s₂ rest rest' : List Bool} {e : Event}

/-- Nothing more is produced behind `out`. -/
def Stuck (codes : Codes) (out : List UInt8) (s : List Bool) : Prop :=
  ∀ e s', nextToken codes s = some (e, s') → e = .endOfBlock ∨ e.apply out = none

theorem stuck_of_endOfBlock (h : nextToken codes s = some (.endOfBlock, rest)) :
    Stuck codes out s := by
  intro e s' hnext
  rw [h] at hnext
  exact .inl (congrArg Prod.fst (Option.some.inj hnext)).symm

theorem stuck_of_none (h : nextToken codes s = none) : Stuck codes out s := by
  intro e s' hnext
  rw [h] at hnext
  cases hnext

theorem stuck_of_copy {distance len : ℕ}
    (h : nextToken codes s = some (.copy distance len, rest)) (hfar : out.length < distance) :
    Stuck codes out s := by
  intro e s' hnext
  rw [h] at hnext
  obtain rfl : .copy distance len = e := congrArg Prod.fst (Option.some.inj hnext)
  exact .inr (if_pos hfar)

/-- The tokens end in one way. -/
theorem Produces.unique (h₁ : Produces codes out s out₁ s₁) (hstuck₁ : Stuck codes out₁ s₁)
    (h₂ : Produces codes out s out₂ s₂) (hstuck₂ : Stuck codes out₂ s₂) :
    out₁ = out₂ ∧ s₁ = s₂ := by
  induction h₁ with
  | refl out s =>
    cases h₂ with
    | refl => exact ⟨rfl, rfl⟩
    | head hnext hne happly _ =>
      rcases hstuck₁ _ _ hnext with hend | hnone
      · exact absurd hend hne
      · rw [hnone] at happly
        cases happly
  | head hnext hne happly _ ih =>
    cases h₂ with
    | refl =>
      rcases hstuck₂ _ _ hnext with hend | hnone
      · exact absurd hend hne
      · rw [hnone] at happly
        cases happly
    | head hnext' _ happly' hrest =>
      obtain ⟨rfl, rfl⟩ := Prod.mk.inj (Option.some.inj (hnext.symm.trans hnext'))
      obtain rfl := Option.some.inj (happly.symm.trans happly')
      exact ih hstuck₁ hrest

theorem Reads.unique (h₁ : Reads codes out s out₁ rest) (h₂ : Reads codes out s out₂ rest') :
    out₁ = out₂ ∧ rest = rest' := by
  obtain ⟨s₁, hproduces₁, hend₁⟩ := h₁
  obtain ⟨s₂, hproduces₂, hend₂⟩ := h₂
  obtain ⟨rfl, rfl⟩ := hproduces₁.unique (stuck_of_endOfBlock hend₁) hproduces₂
    (stuck_of_endOfBlock hend₂)
  exact ⟨rfl, congrArg Prod.snd (Option.some.inj (hend₁.symm.trans hend₂))⟩

theorem Reads.not_rejects (h : Reads codes out s out₁ rest) : ¬Rejects codes out s := by
  obtain ⟨s₁, hproduces₁, hend₁⟩ := h
  rintro ⟨out₂, s₂, hproduces₂, hbad⟩
  have hstuck : Stuck codes out₂ s₂ := by
    rcases hbad with hnone | ⟨distance, len, rest, hcopy, hfar⟩
    · exact stuck_of_none hnone
    · exact stuck_of_copy hcopy hfar
  obtain ⟨rfl, rfl⟩ := hproduces₁.unique (stuck_of_endOfBlock hend₁) hproduces₂ hstuck
  rw [hend₁] at hbad
  rcases hbad with hnone | ⟨_, _, _, hcopy, -⟩
  · cases hnone
  · cases hcopy

theorem Reads.head (hnext : nextToken codes s = some (e, s₁)) (hne : e ≠ .endOfBlock)
    (happly : e.apply out = some out₁) (h : Reads codes out₁ s₁ out₂ rest) :
    Reads codes out s out₂ rest := by
  obtain ⟨s', hproduces, hend⟩ := h
  exact ⟨s', .head hnext hne happly hproduces, hend⟩

theorem Rejects.head (hnext : nextToken codes s = some (e, s₁)) (hne : e ≠ .endOfBlock)
    (happly : e.apply out = some out₁) (h : Rejects codes out₁ s₁) : Rejects codes out s := by
  obtain ⟨out', s', hproduces, hbad⟩ := h
  exact ⟨out', s', .head hnext hne happly hproduces, hbad⟩

theorem lengthStart_pos (code : ℕ) : 0 < lengthStart code := by
  rw [lengthStart]
  split_ifs <;> omega

/-- A token writes at least one byte. -/
theorem size_pos_of_nextToken (h : nextToken codes s = some (e, rest)) (hne : e ≠ .endOfBlock) :
    0 < e.size := by
  rw [nextToken] at h
  simp only [Option.bind_eq_bind, Option.bind_eq_some_iff] at h
  obtain ⟨⟨symbol, s₁⟩, -, h⟩ := h
  dsimp only at h
  split at h
  · cases h
    exact Nat.one_pos
  split at h
  · cases h
    exact absurd rfl hne
  split at h
  · cases h
  obtain ⟨⟨code, s₂⟩, -, h⟩ := Option.bind_eq_some_iff.mp h
  dsimp only at h
  split at h
  · cases h
  · cases h
    exact (lengthStart_pos _).trans_le (Nat.le_add_right _ _)

end Reference

end Deflate

/-! ## The trees find the tokens -/

section Trees

variable {lengths : List ℕ} {tree : HuffmanTree}

theorem HuffmanTree.Built.decode_eq (h : HuffmanTree.Built lengths tree)
    (hcode : IsPrefixCode lengths 15) (hsize : lengths.length ≤ HuffmanTree.maxSymbols)
    (stream : BitStream) :
    tree.decode stream = match Deflate.nextSymbol lengths stream with
      | none => (none, stream)
      | some (symbol, rest) => (some symbol, rest) := by
  have hmatches (s : ℕ) := matches_window_iff (s := s) hcode (show 15 ≤ 16 by decide) stream
  rw [Deflate.nextSymbol]
  cases hfind : (List.range lengths.length).find? fun s =>
      lengthOf lengths s ≠ 0 && (codeword lengths s).isPrefixOf (nextBits 16 stream) with
  | none =>
    refine h.decode_of_no_match hcode fun s hs => ?_
    obtain ⟨hne, hprefix⟩ := (hmatches s).mp hs
    have hnot := List.find?_eq_none.mp hfind s (List.mem_range.mpr (lt_length_of_lengthOf hne))
    exact hnot (by simp [hne, hprefix])
  | some s =>
    have hfound := List.find?_some hfind
    rw [Bool.and_eq_true, decide_eq_true_iff, List.isPrefixOf_iff_prefix] at hfound
    exact h.decode_of_matches hcode hsize ((hmatches s).mpr hfound)

theorem readValue_eq {base extraBits : List ℕ} {symbol start extra : ℕ}
    (hbase : base.getD symbol 0 = start) (hextra : extraBits.getD symbol 0 = extra)
    (stream : BitStream) :
    Decompressor.readValue base extraBits symbol stream = Deflate.readExtra start extra stream := by
  subst hbase hextra
  rw [Decompressor.readValue, Deflate.readExtra]
  by_cases hzero : extraBits.getD symbol 0 = 0
  · simp only [hzero, ne_eq, not_true_eq_false, if_false]
    rfl
  · simp only [if_pos hzero]
    rfl

end Trees

namespace Decompressor

variable {codes : Deflate.Codes} {m : Memory} {d : Decompressor} {s : BitStream} {out : List UInt8}
  {p n : ℕ}

/-- The trees are those that `Build` has made of the codes. -/
structure HasCodes (codes : Deflate.Codes) (d : Decompressor) : Prop where
  literal_length : codes.literal.length ≤ HuffmanTree.maxSymbols
  literal_le : ∀ l ∈ codes.literal, l ≤ 15
  literal : ∃ tree : HuffmanTree, tree.build codes.literal = some d.literalLengthTree
  distance_length : codes.distance.length ≤ HuffmanTree.maxSymbols
  distance_le : ∀ l ∈ codes.distance, l ≤ 15
  distance : ∃ tree : HuffmanTree, tree.build codes.distance = some d.distanceTree

theorem built_of_build {lengths : List ℕ} {tree tree' : HuffmanTree} (hle : ∀ l ∈ lengths, l ≤ 15)
    (h : tree.build lengths = some tree') :
    IsPrefixCode lengths 15 ∧ HuffmanTree.Built lengths tree' := by
  have hcode : IsPrefixCode lengths 15 :=
    (HuffmanTree.isSome_build_iff tree hle).mp (by rw [h]; rfl)
  obtain ⟨built, hbuild, hbuilt⟩ := HuffmanTree.built_of_isPrefixCode tree hcode
  obtain rfl := Option.some.inj (hbuild.symm.trans h)
  exact ⟨hcode, hbuilt⟩

/-- The next event of the trees is the next token of the codes. -/
theorem HasCodes.nextEvent_eq (h : HasCodes codes d) (s : BitStream) :
    d.trees.nextEvent s = Deflate.nextToken codes s := by
  obtain ⟨tree, hbuild⟩ := h.literal
  obtain ⟨tree', hbuild'⟩ := h.distance
  obtain ⟨hcode, hbuilt⟩ := built_of_build h.literal_le hbuild
  obtain ⟨hcode', hbuilt'⟩ := built_of_build h.distance_le hbuild'
  have hlengths : ∀ code < 29, lengthBase.getD code 0 = Deflate.lengthStart code ∧
      lengthExtraBits.getD code 0 = Deflate.lengthExtra code := by decide
  have hdistances : ∀ code < 30, distBase.getD code 0 = Deflate.distanceStart code ∧
      distExtraBits.getD code 0 = Deflate.distanceExtra code := by decide
  rw [Trees.nextEvent, Deflate.nextToken, trees]
  simp only [hbuilt.decode_eq hcode h.literal_length, hbuilt'.decode_eq hcode' h.distance_length]
  cases Deflate.nextSymbol codes.literal s with
  | none => rfl
  | some next =>
    obtain ⟨symbol, s₁⟩ := next
    simp only [Option.bind_eq_bind, Option.bind_some]
    by_cases hliteral : symbol < 256
    · rw [if_pos hliteral, if_pos hliteral]
    rw [if_neg hliteral, if_neg hliteral]
    by_cases hend : symbol = 256
    · rw [if_pos hend, if_pos hend]
    rw [if_neg hend, if_neg hend]
    by_cases hhi : 286 ≤ symbol
    · rw [if_pos hhi, if_pos hhi]
    rw [if_neg hhi, if_neg hhi]
    obtain ⟨hbase, hextra⟩ := hlengths (symbol - 257) (by omega)
    simp only [readValue_eq hbase hextra]
    cases Deflate.nextSymbol codes.distance _ with
    | none => rfl
    | some next =>
      obtain ⟨code, s₂⟩ := next
      simp only [Option.bind_some]
      by_cases hcodehi : 30 ≤ code
      · rw [if_pos hcodehi, if_pos hcodehi]
      rw [if_neg hcodehi, if_neg hcodehi]
      obtain ⟨hbase', hextra'⟩ := hdistances code (by omega)
      simp only [readValue_eq hbase' hextra']

/-! ## `DecodeBlock` -/

/-- How `DecodeBlock` may end after at most `n` turns, when the output `out` has `size` bytes of
room in all. It runs out of turns only if there are fewer turns than bytes left. -/
def Agrees (codes : Deflate.Codes) (out : List UInt8) (s : BitStream) (size n : ℕ) :
    Except Failure (Decompressor × BitStream) → Prop
  | .ok (d', rest) => Deflate.Reads codes out s d'.decompressedData rest
  | .error (.failed _) => Deflate.Rejects codes out s
  | .error .endless => out.length + n ≤ size

/-- `DecodeBlock` agrees with the reference. The induction is on its turns; a token that is written
leaves the rest of the block to a decompressor with a longer output. -/
theorem decodeBlock_agrees (hcodes : HasCodes codes d) (hready : d.Ready)
    (hfaithful : (d.output p).Faithful out)
    (hroom : ∀ out' s', Deflate.Produces codes out s out' s' → out'.length + 259 ≤ d.outputEnd) :
    Agrees codes out s d.outputEnd n (decodeBlock m n d p s) := by
  have hlength : p = out.length := hfaithful.current
  induction n generalizing d p s out with
  | zero =>
    have hle := hroom out s (.refl out s)
    change out.length + 0 ≤ d.outputEnd
    omega
  | succ n ih =>
    cases hnext : Deflate.nextToken codes s with
    | none =>
      rw [decodeBlock_succ hready, hcodes.nextEvent_eq, hnext]
      exact ⟨out, s, .refl out s, .inl hnext⟩
    | some next =>
      obtain ⟨e, s₁⟩ := next
      have hevent : d.trees.nextEvent s = some (e, s₁) := (hcodes.nextEvent_eq s).trans hnext
      by_cases hend : e = .endOfBlock
      · subst hend
        rw [decodeBlock_succ hready, hevent]
        have hdata : (d.withOutput { d.output p with pointer := p }).decompressedData = out :=
          @Output.Faithful.data_eq { d.output p with pointer := p } out
            ⟨hfaithful.current, hfaithful.holds⟩ rfl
        refine ⟨s, ?_, hnext⟩
        rw [hdata]
        exact .refl out s
      rw [decodeBlock_next hready hevent hend]
      cases happly : e.apply out with
      | none =>
        -- only a copy can be refused, and the output refuses it, too
        cases e with
        | literal byte => cases happly
        | stored data => cases happly
        | endOfBlock => exact absurd rfl hend
        | copy distance len =>
          have hfar : out.length < distance := by
            by_contra hnear
            rw [Event.apply, if_neg hnear] at happly
            cases happly
          have hback : p < distance := hlength ▸ hfar
          have hrefused : (d.output p).write m.bytes (.copy distance len) = none := if_pos hback
          rw [hrefused, refusal, if_pos hback]
          exact ⟨out, s, .refl out s, .inr ⟨distance, len, s₁, hnext, hfar⟩⟩
      | some out₁ =>
        have hsize := Event.length_apply happly
        have hpos := Deflate.size_pos_of_nextToken hnext hend
        have hroom₁ : ∀ out' s', Deflate.Produces codes out₁ s₁ out' s' →
            out'.length + 259 ≤ d.outputEnd := fun out' s' h =>
          hroom out' s' (.head hnext hend happly h)
        have hle := hroom₁ out₁ s₁ (.refl out₁ s₁)
        have hneed := e.need_le_size
        have hfits : e = .endOfBlock ∨ e.need < (d.output p).size - (d.output p).current := by
          refine .inr ?_
          change e.need < d.outputEnd - p
          omega
        obtain ⟨o, hwrite, hfaithful₁, hkept⟩ := @Output.Faithful.write m.bytes _ _ _ _ hfaithful
          (d.trees.valid_nextEvent hevent) hfits happly
        have hagrees := ih (d := d.withOutput o) (p := o.current)
          ⟨hcodes.1, hcodes.2, hcodes.3, hcodes.4, hcodes.5, hcodes.6⟩ (ready_withOutput hready o)
          hfaithful₁ (fun out' s' h => (hroom₁ out' s' h).trans_eq hkept.symm) hfaithful₁.current
        rw [hwrite]
        change Agrees codes out₁ s₁ o.size n (decodeBlock m n (d.withOutput o) o.current s₁)
          at hagrees
        dsimp only
        generalize decodeBlock m n (d.withOutput o) o.current s₁ = result at hagrees ⊢
        rcases result with (_ | _) | _
        · have hrejects : Deflate.Rejects codes out₁ s₁ := hagrees
          exact hrejects.head hnext hend happly
        · change out₁.length + n ≤ o.size at hagrees
          change out.length + (n + 1) ≤ d.outputEnd
          have hsame : o.size = d.outputEnd := hkept
          omega
        · have hreads : Deflate.Reads codes out₁ s₁ _ _ := hagrees
          exact hreads.head hnext hend happly

/-- With room for what a block produces and 259 bytes more, `DecodeBlock` returns true exactly if
the tokens of the block come to its end, with what they produce, behind the block; it returns false
exactly if they lead to a token that is none, or to a distance in front of the output. One of the
two happens. -/
theorem decodeBlock_exact (hcodes : HasCodes codes d) (hready : d.Ready)
    (hroom : ∀ out s', Deflate.Produces codes d.decompressedData s out s' →
      out.length + 259 ≤ d.outputEnd) :
    (∀ out rest, (∃ n d', decodeBlock m n d d.outputPointer s = .ok (d', rest) ∧
        d'.decompressedData = out) ↔ Deflate.Reads codes d.decompressedData s out rest) ∧
      ((∃ n d', decodeBlock m n d d.outputPointer s = .error (.failed d')) ↔
        Deflate.Rejects codes d.decompressedData s) ∧
      ((∃ out rest, Deflate.Reads codes d.decompressedData s out rest) ∨
        Deflate.Rejects codes d.decompressedData s) := by
  have hlength : d.decompressedData.length = d.outputPointer := by
    rw [decompressedData, List.length_map, List.length_range]
    rfl
  have hfaithful : (d.output d.outputPointer).Faithful d.decompressedData := by
    refine ⟨hlength.symm, fun i hi => ?_⟩
    have hlt : i < d.outputPointer := hlength ▸ hi
    change d.outputBuffer i = ((List.range d.outputPointer).map d.outputBuffer).getD i 0
    rw [List.getD_eq_getElem _ _ (by simpa using hlt), List.getElem_map, List.getElem_range]
  have hagrees (n : ℕ) := @decodeBlock_agrees codes m d s _ _ n hcodes hready hfaithful hroom
  -- more turns than there is room for are enough
  have hends := hagrees (d.outputEnd + 1)
  have hresult : (∃ n d' out rest, decodeBlock m n d d.outputPointer s = .ok (d', rest) ∧
      d'.decompressedData = out ∧ Deflate.Reads codes d.decompressedData s out rest) ∨
      ∃ n d', decodeBlock m n d d.outputPointer s = .error (.failed d') ∧
        Deflate.Rejects codes d.decompressedData s := by
    cases hrun : decodeBlock m (d.outputEnd + 1) d d.outputPointer s with
    | ok result =>
      rw [hrun] at hends
      exact .inl ⟨_, result.1, _, result.2, hrun, rfl, hends⟩
    | error failure =>
      rw [hrun] at hends
      cases failure with
      | failed d' => exact .inr ⟨_, d', hrun, hends⟩
      | endless =>
        change d.decompressedData.length + (d.outputEnd + 1) ≤ d.outputEnd at hends
        omega
  refine ⟨fun out rest => ⟨?_, fun hreads => ?_⟩, ⟨?_, fun hrejects => ?_⟩, ?_⟩
  · rintro ⟨n, d', hrun, rfl⟩
    have hagree := hagrees n
    rwa [hrun] at hagree
  · rcases hresult with ⟨n, d', out', rest', hrun, hdata, hreads'⟩ | ⟨n, d', -, hrejects⟩
    · obtain ⟨rfl, rfl⟩ := hreads.unique hreads'
      exact ⟨n, d', hrun, hdata⟩
    · exact absurd hrejects hreads.not_rejects
  · rintro ⟨n, d', hrun⟩
    have hagree := hagrees n
    rwa [hrun] at hagree
  · rcases hresult with ⟨n, d', out', rest', -, -, hreads⟩ | ⟨n, d', hrun, -⟩
    · exact absurd hrejects hreads.not_rejects
    · exact ⟨n, d', hrun⟩
  · rcases hresult with ⟨n, d', out', rest', -, -, hreads⟩ | ⟨n, d', -, hrejects⟩
    · exact .inl ⟨out', rest', hreads⟩
    · exact .inr hrejects

/-- A code for the byte 1, the end of the block and a copy of five bytes, and one for the
distance 2. -/
def threeWords : Deflate.Codes := ⟨0 :: 1 :: (List.replicate 254 0 ++ [2, 0, 0, 2]), [0, 1]⟩

/-- Behind the output `7`, the byte 1, and then a copy of five bytes from two bytes back. -/
theorem decodeBlock_exact_threeWords : ∃ d : Decompressor, d.decompressedData = [7] ∧
    ∃ n d', decodeBlock zeroMemory n d d.outputPointer [false, true, true, false, true, false] =
        .ok (d', []) ∧
      d'.decompressedData = [7, 1, 7, 1, 7, 1, 7] := by
  obtain ⟨tree, htree⟩ := Option.isSome_iff_exists.mp
    (show (HuffmanTree.stale.build threeWords.literal).isSome = true by decide +kernel)
  obtain ⟨tree', htree'⟩ := Option.isSome_iff_exists.mp
    (show (HuffmanTree.stale.build threeWords.distance).isSome = true by decide +kernel)
  let d : Decompressor :=
    { inputData := [], hasBuffer := true, outputBuffer := fun _ => 7, outputSize := 300,
      outputPointer := 1, outputEnd := 300, literalLengthTree := tree, distanceTree := tree' }
  have hcodes : HasCodes threeWords d := ⟨by decide +kernel, by decide +kernel, ⟨_, htree⟩,
    by decide +kernel, by decide +kernel, ⟨_, htree'⟩⟩
  have hliteral : Deflate.nextToken threeWords [false, true, true, false, true, false] =
      some (.literal 1, [true, true, false, true, false]) := by
    decide +kernel
  have hcopy : Deflate.nextToken threeWords [true, true, false, true, false] =
      some (.copy 2 5, [true, false]) := by
    decide +kernel
  have hend : Deflate.nextToken threeWords [true, false] = some (.endOfBlock, []) := by
    decide +kernel
  have hroom : ∀ out s', Deflate.Produces threeWords d.decompressedData
      [false, true, true, false, true, false] out s' → out.length + 259 ≤ d.outputEnd := by
    rintro out s' (_ | ⟨hnext, -, happly, _ | ⟨hnext', -, happly', _ | ⟨hnext'', hne, -, -⟩⟩⟩)
    · exact show 1 + 259 ≤ 300 by decide
    · obtain ⟨rfl, rfl⟩ := Prod.mk.inj (Option.some.inj (hliteral.symm.trans hnext))
      obtain rfl := Option.some.inj happly
      exact show 2 + 259 ≤ 300 by decide
    · obtain ⟨rfl, rfl⟩ := Prod.mk.inj (Option.some.inj (hliteral.symm.trans hnext))
      obtain rfl := Option.some.inj happly
      obtain ⟨rfl, rfl⟩ := Prod.mk.inj (Option.some.inj (hcopy.symm.trans hnext'))
      obtain rfl := Option.some.inj happly'
      exact show 7 + 259 ≤ 300 by decide
    · obtain ⟨rfl, rfl⟩ := Prod.mk.inj (Option.some.inj (hliteral.symm.trans hnext))
      obtain ⟨rfl, rfl⟩ := Prod.mk.inj (Option.some.inj (hcopy.symm.trans hnext'))
      exact absurd (congrArg Prod.fst (Option.some.inj (hend.symm.trans hnext''))).symm hne
  have hreads : Deflate.Reads threeWords d.decompressedData
      [false, true, true, false, true, false] [7, 1, 7, 1, 7, 1, 7] [] :=
    ⟨[true, false], .head hliteral nofun rfl (.head hcopy nofun rfl (.refl _ _)), hend⟩
  exact ⟨d, rfl, ((@decodeBlock_exact threeWords zeroMemory d _ hcodes ⟨rfl, rfl⟩ hroom).1
    _ []).mpr hreads⟩

end Decompressor

end Cryptix.ZLib
