import Cryptix.ZLib.Deflate
import Cryptix.ZLib.HuffmanTree

/-!
# The decompressor

`Decompressor` of `Kernel/Library/ZLib.cpp`. `Decompress` reads the header of a zlib stream and then
its blocks: `ParseBlock` reads what stands in front of the tokens of a block and builds its trees,
`DecodeBlock` reads the tokens and writes the output. `DecompressStream` calls both for every block,
also for a stored one, which `ParseBlock` has read to its end and which has no tokens.

A stream without stored blocks is decompressed to its data, into a buffer with room for it. After a
stored block the bits behind it are taken for tokens of the codes of an earlier block
(`decompressBlocks_stored`), or of a tree that was never built.
-/

namespace Cryptix.ZLib

open Lib Lib.CanonicalCode

/-- What memory holds before it is written: the bytes of a new buffer, which `new[]` of the kernel
clears, a new tree, and the byte in front of the array of `DecodeCanonicalCodes`. -/
structure Memory where
  bytes : ℕ → UInt8
  tree : HuffmanTree
  codeLength : ℕ

/-- The output pointer and the end of the buffer are offsets into the buffer. -/
structure Decompressor where
  inputData : List UInt8
  hasBuffer : Bool
  outputBuffer : ℕ → UInt8
  outputSize : ℕ
  outputPointer : ℕ
  outputEnd : ℕ
  literalLengthTree : HuffmanTree
  distanceTree : HuffmanTree

/-- How a call ends that does not return true: it returns false and leaves the decompressor as it
is given here, or it does not return. -/
inductive Failure
  | failed (d : Decompressor)
  | endless

namespace Decompressor

/-- `Decompressor(data, size)`. -/
def new (m : Memory) (data : List UInt8) : Decompressor :=
  { inputData := data
    hasBuffer := false
    outputBuffer := m.bytes
    outputSize := 0
    outputPointer := 0
    outputEnd := 0
    literalLengthTree := m.tree
    distanceTree := m.tree }

/-- `DecompressedSize`. -/
def decompressedSize (d : Decompressor) : ℕ := d.outputPointer

/-- The bytes at `DecompressedData`. -/
def decompressedData (d : Decompressor) : List UInt8 :=
  (List.range d.decompressedSize).map d.outputBuffer

/-! ## The output -/

/-- The loop of `EnsureCapacity` that doubles the size. A size that was doubled 64 times is zero. -/
def growTo (needed : ℕ) : ℕ → ℕ → Option ℕ
  | 0, _ => none
  | n + 1, newSize =>
    if newSize < needed then growTo needed n (newSize * 2 % 2 ^ 64) else some newSize

/-- `EnsureCapacity`, which always returns true when it returns. The bytes of the old buffer are not
copied. -/
def ensureCapacity (m : Memory) (d : Decompressor) (count : ℕ) : Except Failure Decompressor :=
  let currentOffset := if d.hasBuffer then d.outputPointer else 0
  let newSize := if d.hasBuffer then d.outputSize else count
  match growTo (currentOffset + count) 65 newSize with
  | none => .error .endless
  | some newSize => .ok
    { d with
      hasBuffer := true
      outputBuffer := m.bytes
      outputSize := newSize
      outputPointer := currentOffset
      outputEnd := newSize }

def storeByte (d : Decompressor) (pointer : ℕ) (b : UInt8) : Decompressor :=
  { d with outputBuffer := Function.update d.outputBuffer pointer b }

/-- The loop of `DecodeBlock` that copies `len` bytes. -/
def copyBytes (distance : ℕ) : ℕ → ℕ → ℕ → (ℕ → UInt8) → ℕ → UInt8
  | 0, _, _, buffer => buffer
  | len + 1, src, currentPointer, buffer =>
    copyBytes distance len (if distance = 1 then src else src + 1) (currentPointer + 1)
      (Function.update buffer currentPointer (buffer src))

/-! ## `DecodeBlock` -/

def lengthBase : List ℕ :=
  [3, 4, 5, 6, 7, 8, 9, 10, 11, 13, 15, 17, 19, 23, 27,
    31, 35, 43, 51, 59, 67, 83, 99, 115, 131, 163, 195, 227, 258]

def lengthExtraBits : List ℕ :=
  [0, 0, 0, 0, 0, 0, 0, 0, 1, 1, 1, 1, 2, 2, 2,
    2, 3, 3, 3, 3, 4, 4, 4, 4, 5, 5, 5, 5, 0]

def distBase : List ℕ :=
  [1, 2, 3, 4, 5, 7, 9, 13, 17, 25,
    33, 49, 65, 97, 129, 193, 257, 385, 513, 769,
    1025, 1537, 2049, 3073, 4097, 6145, 8193, 12289, 16385, 24577]

def distExtraBits : List ℕ :=
  [0, 0, 0, 0, 1, 1, 2, 2, 3, 3, 4, 4, 5, 5, 6,
    6, 7, 7, 8, 8, 9, 9, 10, 10, 11, 11, 12, 12, 13, 13]

/-- A length or a distance: the base of its symbol and the bits after the word. -/
def readValue (base extraBits : List ℕ) (symbol : ℕ) (stream : BitStream) : ℕ × BitStream :=
  let value := base.getD symbol 0
  let extra := extraBits.getD symbol 0
  if extra ≠ 0 then
    let (bits, stream) := stream.readBits extra
    (value + bits, stream)
  else (value, stream)

/-- `DecodeBlock` with its variable `currentPointer`, for at most `n` turns of its loop. A buffer
that is made larger is continued at `m_OutputPointer`, which the loop has not moved; the source of a
copy may then lie in front of the buffer, which is not modelled. -/
def decodeBlock (m : Memory) :
    ℕ → Decompressor → ℕ → BitStream → Except Failure (Decompressor × BitStream)
  | 0, _, _, _ => .error .endless
  | n + 1, d, currentPointer, stream =>
    match d.literalLengthTree.decode stream with
    | (none, _) => .error (.failed d)
    | (some symbol, stream) =>
      if symbol < 256 then do
        let (d, currentPointer) ←
          if currentPointer ≥ d.outputEnd then do
            let d ← d.ensureCapacity m 4096
            .ok (d, d.outputPointer)
          else .ok (d, currentPointer)
        decodeBlock m n (d.storeByte currentPointer (UInt8.ofNat symbol)) (currentPointer + 1)
          stream
      else if symbol = 256 then .ok ({ d with outputPointer := currentPointer }, stream)
      else if symbol ≥ 286 then .error (.failed d)
      else
        let (len, stream) := readValue lengthBase lengthExtraBits (symbol - 257) stream
        match d.distanceTree.decode stream with
        | (none, _) => .error (.failed d)
        | (some symbol, stream) =>
          if symbol ≥ 30 then .error (.failed d)
          else
            let (distance, stream) := readValue distBase distExtraBits symbol stream
            if currentPointer < distance then .error (.failed d)
            else do
              let (d, currentPointer) ←
                if currentPointer + len ≥ d.outputEnd then do
                  let d ← d.ensureCapacity m (len * 2)
                  .ok (d, d.outputPointer)
                else .ok (d, currentPointer)
              let buffer :=
                copyBytes distance len (currentPointer - distance) currentPointer d.outputBuffer
              decodeBlock m n { d with outputBuffer := buffer } (currentPointer + len) stream

/-! ## `ParseBlock` -/

/-- The order of `DecodeCanonicalCodes`. -/
def codeLengthOrder : List ℕ :=
  [16, 17, 18, 0, 8, 7, 9, 6, 10, 5, 11, 4, 12, 3, 13, 2, 14, 1, 15]

/-- The loop of `DecodeCanonicalCodes` over `codeLengthCodeLengths`. -/
def readCodeLengthCodeLengths : List ℕ → (ℕ → ℕ) → BitStream → (ℕ → ℕ) × BitStream
  | [], lengths, stream => (lengths, stream)
  | symbol :: order, lengths, stream =>
    let (length, stream) := stream.readBits 3
    readCodeLengthCodeLengths order (Function.update lengths symbol length) stream

/-- The loop of `DecodeCanonicalCodes` over `allCodeLengths`, with `none` for an invalid code
length: the list is the array up to `i`. Every turn adds a length, so `totalCodes` turns are enough.
A repetition may write past the end of the array; `i` is then not `totalCodes`. -/
def readCodeLengths (m : Memory) (tree : HuffmanTree) (totalCodes : ℕ) :
    ℕ → List ℕ → BitStream → Option (List ℕ × BitStream)
  | 0, lengths, stream => some (lengths, stream)
  | n + 1, lengths, stream =>
    if lengths.length ≥ totalCodes then some (lengths, stream)
    else
      match tree.decode stream with
      | (none, _) => none
      | (some symbol, stream) =>
        if symbol ≤ 15 then readCodeLengths m tree totalCodes n (lengths ++ [symbol]) stream
        else if symbol = 16 then
          let value := lengths.getLastD m.codeLength
          let (extra, stream) := stream.readBits 2
          readCodeLengths m tree totalCodes n (lengths ++ List.replicate (extra + 3) value) stream
        else if symbol = 17 then
          let (extra, stream) := stream.readBits 3
          readCodeLengths m tree totalCodes n (lengths ++ List.replicate (extra + 3) 0) stream
        else if symbol = 18 then
          let (extra, stream) := stream.readBits 7
          readCodeLengths m tree totalCodes n (lengths ++ List.replicate (extra + 11) 0) stream
        else none

/-- Two calls of `Build`, as `ParseBlock` makes them for the two trees of a block. -/
def buildTrees (d : Decompressor) (lengths distances : List ℕ) : Option Decompressor := do
  let literalLengthTree ← d.literalLengthTree.build lengths
  let distanceTree ← d.distanceTree.build distances
  some { d with literalLengthTree, distanceTree }

/-- `DecodeCanonicalCodes`. -/
def decodeCanonicalCodes (m : Memory) (d : Decompressor) (stream : BitStream) :
    Option (Decompressor × BitStream) := do
  let (literalBits, stream) := stream.readBits 5
  let (distanceBits, stream) := stream.readBits 5
  let (codeLengthBits, stream) := stream.readBits 4
  let literalCodeCount := literalBits + 257
  let totalCodes := literalCodeCount + (distanceBits + 1)
  let (codeLengthCodeLengths, stream) :=
    readCodeLengthCodeLengths (codeLengthOrder.take (codeLengthBits + 4)) (fun _ => 0) stream
  let codeLengthTree ← m.tree.build ((List.range 19).map codeLengthCodeLengths)
  let (lengths, stream) ← readCodeLengths m codeLengthTree totalCodes totalCodes [] stream
  if lengths.length ≠ totalCodes then none
  else do
    let d ← d.buildTrees (lengths.take literalCodeCount) (lengths.drop literalCodeCount)
    some (d, stream)

def defaultLengths : List ℕ :=
  List.replicate 144 8 ++ List.replicate 112 9 ++ List.replicate 24 7 ++ List.replicate 8 8

def defaultDistances : List ℕ := List.replicate 32 5

/-- `AlignToByteBoundary`: what is left of a stream that is at a byte boundary are whole bytes. -/
def alignToByteBoundary (stream : BitStream) : BitStream :=
  stream.dropBits (stream.length % 8)

/-- `Read` of `n` bytes to the output pointer. -/
def readBytes : ℕ → Decompressor → BitStream → Decompressor × BitStream
  | 0, d, stream => (d, stream)
  | n + 1, d, stream =>
    let (b, stream) := stream.readBits 8
    readBytes n
      { d.storeByte d.outputPointer (UInt8.ofNat b) with
        outputPointer := d.outputPointer + 1 } stream

/-- `ParseBlock`. -/
def parseBlock (m : Memory) (d : Decompressor) (stream : BitStream) (blockType : ℕ) :
    Except Failure (Decompressor × BitStream) :=
  match blockType with
  | 0 =>
    let (length, stream) := (alignToByteBoundary stream).readBits 16
    let (negatedLength, stream) := stream.readBits 16
    if length ^^^ 0xffff ≠ negatedLength then .error (.failed d)
    else do
      let d ← if d.outputPointer + length ≥ d.outputEnd then d.ensureCapacity m (length * 2)
        else .ok d
      .ok (readBytes length d stream)
  | 1 =>
    match d.buildTrees defaultLengths defaultDistances with
    | none => .error (.failed d)
    | some d => .ok (d, stream)
  | 2 =>
    match d.decodeCanonicalCodes m stream with
    | none => .error (.failed d)
    | some result => .ok result
  | _ => .error (.failed d)

/-! ## `Decompress` -/

/-- The loop of `DecompressStream`, for at most `n` turns; `fuel` bounds those of `DecodeBlock`. -/
def decompressBlocks (m : Memory) (fuel : ℕ) :
    ℕ → Decompressor → BitStream → Except Failure (Decompressor × BitStream)
  | 0, _, _ => .error .endless
  | n + 1, d, stream => do
    let (final, stream) := stream.readBits 1
    let (type, stream) := stream.readBits 2
    let (d, stream) ← d.parseBlock m stream type
    let (d, stream) ← decodeBlock m fuel d d.outputPointer stream
    if final ≠ 0 then .ok (d, stream) else decompressBlocks m fuel n d stream

/-- `DecompressStream`. A wrong checksum is only logged. -/
def decompressStream (m : Memory) (fuel : ℕ) (d : Decompressor) (stream : BitStream) :
    Except Failure Decompressor := do
  let (d, _) ← d.decompressBlocks m fuel fuel stream
  .ok d

/-- `Decompress`. The fields of the header lie over the two bytes as they are in the stream, the
number that is checked has the first of them as its high byte. -/
def decompress (m : Memory) (fuel : ℕ) (d : Decompressor) (initialSize : ℕ) :
    Except Failure Decompressor := do
  let initialSize := if initialSize = 0 then d.inputData.length else initialSize
  let d ← d.ensureCapacity m initialSize
  let (header, stream) := BitStream.readBits (bitsOfBytes d.inputData) 16
  if header % 2 ^ 4 ≠ 8 then .error (.failed d)
  else if header / 2 ^ 13 % 2 = 1 then .error (.failed d)
  else if (header % 2 ^ 8 * 2 ^ 8 + header / 2 ^ 8) % 31 ≠ 0 then .error (.failed d)
  else if stream = [] then .error (.failed d)
  else
    match d.decompressStream m fuel stream with
    | .ok d => .ok { d with outputSize := d.outputPointer }
    | .error (.failed d) => .error (.failed { d with hasBuffer := false, outputSize := 0 })
    | .error .endless => .error .endless

/-! ## Fields and tables -/

theorem readBits_toLsb_append {n v : ℕ} (hv : v < 2 ^ n) (rest : BitStream) :
    BitStream.readBits (toLsb n v ++ rest) n = (v, rest) := by
  rw [BitStream.readBits, BitStream.peekBits, BitStream.dropBits, ofLsb_take_toLsb_append hv,
    drop_toLsb_append]

theorem readValue_append {base extraBits : List ℕ} {symbol bits : ℕ}
    (hbits : bits < 2 ^ extraBits.getD symbol 0) (rest : BitStream) :
    readValue base extraBits symbol (toLsb (extraBits.getD symbol 0) bits ++ rest)
      = (base.getD symbol 0 + bits, rest) := by
  by_cases h : extraBits.getD symbol 0 = 0
  · rw [h, pow_zero, Nat.lt_one_iff] at hbits
    simp only [readValue, h, hbits, ne_eq, not_true_eq_false, if_false]
    rfl
  · simp only [readValue, if_pos (show extraBits.getD symbol 0 ≠ 0 from h),
      readBits_toLsb_append hbits]

theorem readValue_length {code bits : ℕ} (hcode : code < 29)
    (hbits : bits < 2 ^ Deflate.lengthExtra code) (rest : BitStream) :
    readValue lengthBase lengthExtraBits code (toLsb (Deflate.lengthExtra code) bits ++ rest)
      = (Deflate.lengthStart code + bits, rest) := by
  have htable : ∀ code < 29, lengthExtraBits.getD code 0 = Deflate.lengthExtra code ∧
      lengthBase.getD code 0 = Deflate.lengthStart code := by decide
  obtain ⟨hextra, hbase⟩ := htable code hcode
  rw [← hextra] at hbits ⊢
  rw [readValue_append hbits, hbase]

theorem readValue_distance {code bits : ℕ} (hcode : code < 30)
    (hbits : bits < 2 ^ Deflate.distanceExtra code) (rest : BitStream) :
    readValue distBase distExtraBits code (toLsb (Deflate.distanceExtra code) bits ++ rest)
      = (Deflate.distanceStart code + bits, rest) := by
  have htable : ∀ code < 30, distExtraBits.getD code 0 = Deflate.distanceExtra code ∧
      distBase.getD code 0 = Deflate.distanceStart code := by decide
  obtain ⟨hextra, hbase⟩ := htable code hcode
  rw [← hextra] at hbits ⊢
  rw [readValue_append hbits, hbase]

/-! ## Bytes that are written -/

/-- The buffer starts with the bytes of `out`. -/
def Holds (buffer : ℕ → UInt8) (out : List UInt8) : Prop :=
  ∀ i < out.length, buffer i = out.getD i 0

theorem Holds.push {buffer : ℕ → UInt8} {out : List UInt8} (h : Holds buffer out) (b : UInt8) :
    Holds (Function.update buffer out.length b) (out ++ [b]) := by
  intro i hi
  rw [List.length_append, List.length_singleton] at hi
  rcases Nat.lt_succ_iff_lt_or_eq.mp hi with hlt | rfl
  · rw [Function.update_of_ne hlt.ne, h i hlt, List.getD_append _ _ _ _ hlt]
  · rw [Function.update_self, List.getD_append_right _ _ _ _ le_rfl, Nat.sub_self]
    rfl

theorem Holds.map_range {buffer : ℕ → UInt8} {out : List UInt8} (h : Holds buffer out) :
    (List.range out.length).map buffer = out := by
  refine List.ext_getElem (by simp) fun i hi _ => ?_
  rw [List.length_map, List.length_range] at hi
  rw [List.getElem_map, List.getElem_range, h i hi, List.getD_eq_getElem _ _ hi]

theorem length_copyBack (distance n : ℕ) (out : List UInt8) :
    (Deflate.copyBack distance n out).length = out.length + n := by
  induction n generalizing out with
  | zero => rfl
  | succ n ih =>
    rw [Deflate.copyBack, ih, List.length_append, List.length_singleton]
    omega

/-- The copy of the loop. With a distance of one the source stays at a byte that holds what the byte
before the pointer holds. -/
theorem copyBytes_holds {distance src : ℕ} (len : ℕ) {buffer : ℕ → UInt8} {out : List UInt8}
    (hpos : 1 ≤ distance) (hle : distance ≤ out.length) (hholds : Holds buffer out)
    (hlt : src < out.length) (hbyte : buffer src = out.getD (out.length - distance) 0)
    (hsrc : distance ≠ 1 → src = out.length - distance) :
    Holds (copyBytes distance len src out.length buffer) (Deflate.copyBack distance len out) := by
  induction len generalizing src buffer out with
  | zero => exact hholds
  | succ len ih =>
    rw [copyBytes, Deflate.copyBack, ← hbyte]
    have hpush := hholds.push (buffer src)
    have hlength : (out ++ [buffer src]).length = out.length + 1 := by simp
    rw [← hlength]
    by_cases hone : distance = 1
    · rw [if_pos hone]
      refine ih (by omega) hpush (by omega) ?_ fun h => absurd hone h
      rw [Function.update_of_ne hlt.ne, hlength, hone, Nat.add_sub_cancel,
        List.getD_append_right _ _ _ _ le_rfl, Nat.sub_self]
      rfl
    · rw [if_neg hone]
      have hsrc := hsrc hone
      refine ih (by omega) hpush (by omega) ?_ fun _ => by omega
      rw [hpush _ (by omega), hlength, show out.length + 1 - distance = src + 1 by omega]

/-! ## Tokens -/

/-- The trees of the codes of a block. -/
structure HasTrees (codes : Deflate.Codes) (d : Decompressor) : Prop where
  valid : codes.Valid
  literal : HuffmanTree.Built codes.literal d.literalLengthTree
  distance : HuffmanTree.Built codes.distance d.distanceTree

namespace HasTrees

variable {codes : Deflate.Codes} {d : Decompressor} {m : Memory} {n pointer : ℕ}

theorem decode_literal (h : HasTrees codes d) {s : ℕ} (hs : lengthOf codes.literal s ≠ 0)
    (rest : BitStream) :
    d.literalLengthTree.decode (codeword codes.literal s ++ rest) = (some s, rest) :=
  h.literal.decode_codeword h.valid.literal h.valid.literal_length hs rest

theorem decode_distance (h : HasTrees codes d) {s : ℕ} (hs : lengthOf codes.distance s ≠ 0)
    (rest : BitStream) :
    d.distanceTree.decode (codeword codes.distance s ++ rest) = (some s, rest) :=
  h.distance.decode_codeword h.valid.distance (h.valid.distance_length.trans (by decide)) hs rest

theorem decodeBlock_end (h : HasTrees codes d) (rest : BitStream) :
    decodeBlock m (n + 1) d pointer (codeword codes.literal 256 ++ rest)
      = .ok ({ d with outputPointer := pointer }, rest) := by
  rw [decodeBlock]
  simp only [h.decode_literal h.valid.endOfBlock]
  rfl

theorem decodeBlock_literal (h : HasTrees codes d) {byte : UInt8}
    (hbyte : lengthOf codes.literal byte.toNat ≠ 0) (hroom : pointer < d.outputEnd)
    (rest : BitStream) :
    decodeBlock m (n + 1) d pointer (codeword codes.literal byte.toNat ++ rest)
      = decodeBlock m n (d.storeByte pointer byte) (pointer + 1) rest := by
  rw [decodeBlock]
  simp only [h.decode_literal hbyte, if_pos byte.toNat_lt,
    if_neg (show ¬pointer ≥ d.outputEnd by omega), UInt8.ofNat_toNat]
  rfl

theorem decodeBlock_copy (h : HasTrees codes d) {lengthCode lengthBits distanceCode
    distanceBits : ℕ} {out : List UInt8}
    (hvalid : (Deflate.Token.copy lengthCode lengthBits distanceCode distanceBits).Valid codes out)
    (hroom : out.length + (Deflate.lengthStart lengthCode + lengthBits) < d.outputEnd)
    (rest : BitStream) :
    decodeBlock m (n + 1) d out.length
        ((Deflate.Token.copy lengthCode lengthBits distanceCode distanceBits).bits codes ++ rest)
      = decodeBlock m n
        { d with
          outputBuffer := copyBytes (Deflate.distanceStart distanceCode + distanceBits)
            (Deflate.lengthStart lengthCode + lengthBits)
            (out.length - (Deflate.distanceStart distanceCode + distanceBits)) out.length
            d.outputBuffer }
        (out.length + (Deflate.lengthStart lengthCode + lengthBits)) rest := by
  obtain ⟨hcode, hbits, hword, hcode', hbits', hword', hle⟩ := hvalid
  rw [decodeBlock, Deflate.Token.bits]
  simp only [List.append_assoc, h.decode_literal hword]
  rw [if_neg (by omega), if_neg (by omega), if_neg (by omega), Nat.add_sub_cancel_left]
  simp only [readValue_length hcode hbits, h.decode_distance hword',
    readValue_distance hcode' hbits', if_neg (show ¬distanceCode ≥ 30 by omega),
    if_neg (Nat.not_lt.mpr hle), if_neg (Nat.not_le.mpr hroom)]
  rfl

end HasTrees

theorem length_le_length_apply (token : Deflate.Token) (out : List UInt8) :
    out.length ≤ (token.apply out).length := by
  cases token with
  | literal byte => simp [Deflate.Token.apply]
  | copy => simp [Deflate.Token.apply, length_copyBack]

theorem length_le_length_applyTokens (tokens : List Deflate.Token) (out : List UInt8) :
    out.length ≤ (Deflate.applyTokens tokens out).length := by
  induction tokens generalizing out with
  | nil => exact le_rfl
  | cons token tokens ih => exact (length_le_length_apply token out).trans (ih _)

theorem distanceStart_pos (code : ℕ) : 1 ≤ Deflate.distanceStart code := by
  rw [Deflate.distanceStart]
  split <;> omega

/-- `DecodeBlock` writes what the tokens of a block stand for, and stops behind the block. -/
theorem decodeBlock_tokens {codes : Deflate.Codes} {tokens : List Deflate.Token}
    {out : List UInt8} {d : Decompressor} {n : ℕ} (m : Memory) (htrees : HasTrees codes d)
    (hvalid : Deflate.TokensValid codes tokens out) (hholds : Holds d.outputBuffer out)
    (hroom : (Deflate.applyTokens tokens out).length < d.outputEnd) (hn : tokens.length < n)
    (rest : BitStream) :
    ∃ buffer, decodeBlock m n d out.length (Deflate.tokensBits codes tokens ++ rest)
        = .ok ({ d with
            outputBuffer := buffer
            outputPointer := (Deflate.applyTokens tokens out).length }, rest) ∧
      Holds buffer (Deflate.applyTokens tokens out) := by
  induction tokens generalizing out d n with
  | nil =>
    obtain ⟨n, rfl⟩ := Nat.exists_eq_succ_of_ne_zero hn.ne_bot
    exact ⟨d.outputBuffer, htrees.decodeBlock_end rest, hholds⟩
  | cons token tokens ih =>
    obtain ⟨n, rfl⟩ := Nat.exists_eq_succ_of_ne_zero (Nat.ne_zero_of_lt hn)
    obtain ⟨htoken, htokens⟩ := hvalid
    have hle := length_le_length_applyTokens tokens (token.apply out)
    have hbits : Deflate.tokensBits codes (token :: tokens) ++ rest
        = token.bits codes ++ (Deflate.tokensBits codes tokens ++ rest) := by
      simp [Deflate.tokensBits]
    have hturns : tokens.length < n := Nat.lt_of_succ_lt_succ hn
    rw [hbits]
    change (Deflate.applyTokens tokens (token.apply out)).length < d.outputEnd at hroom
    cases token with
    | literal byte =>
      have hlength : ((Deflate.Token.literal byte).apply out).length = out.length + 1 := by
        simp [Deflate.Token.apply]
      obtain ⟨buffer, hrun, hbuffer⟩ := ih (d := d.storeByte out.length byte)
        ⟨htrees.valid, htrees.literal, htrees.distance⟩ htokens (hholds.push byte) hroom hturns
      refine ⟨buffer, ?_, hbuffer⟩
      rw [Deflate.Token.bits, htrees.decodeBlock_literal htoken (by omega), ← hlength, hrun]
      rfl
    | copy lengthCode lengthBits distanceCode distanceBits =>
      have hlength : ((Deflate.Token.copy lengthCode lengthBits distanceCode
          distanceBits).apply out).length
            = out.length + (Deflate.lengthStart lengthCode + lengthBits) :=
        length_copyBack _ _ _
      have hpos := distanceStart_pos distanceCode
      have hdistance := htoken.2.2.2.2.2.2
      have hcopy := copyBytes_holds (Deflate.lengthStart lengthCode + lengthBits) (by omega)
        hdistance hholds (Nat.sub_lt_self (by omega) hdistance) (hholds _ (by omega)) fun _ => rfl
      obtain ⟨buffer, hrun, hbuffer⟩ := ih (d := { d with outputBuffer := copyBytes _ _ _ _ _ })
        ⟨htrees.valid, htrees.literal, htrees.distance⟩ htokens hcopy hroom hturns
      refine ⟨buffer, ?_, hbuffer⟩
      rw [htrees.decodeBlock_copy htoken (by omega), ← hlength, hrun]
      rfl

/-! ## The trees of a block -/

theorem buildTrees_of_valid {codes : Deflate.Codes} (d : Decompressor) (h : codes.Valid) :
    ∃ t t', d.buildTrees codes.literal codes.distance
        = some { d with literalLengthTree := t, distanceTree := t' } ∧
      HasTrees codes { d with literalLengthTree := t, distanceTree := t' } := by
  obtain ⟨t, ht, hbuilt⟩ := d.literalLengthTree.built_of_isPrefixCode h.literal
  obtain ⟨t', ht', hbuilt'⟩ := d.distanceTree.built_of_isPrefixCode h.distance
  refine ⟨t, t', ?_, h, hbuilt, hbuilt'⟩
  rw [buildTrees, ht, ht']
  rfl

/-- The lengths are stored at the symbols that they belong to. -/
theorem readCodeLengthCodeLengths_append {order lengths : List ℕ} (f : ℕ → ℕ)
    (hnodup : order.Nodup) (hle : lengths.length ≤ order.length) (hlt : ∀ l ∈ lengths, l < 8)
    (rest : BitStream) :
    readCodeLengthCodeLengths (order.take lengths.length) f (lengths.flatMap (toLsb 3) ++ rest)
      = (fun s => lengths.getD (order.idxOf s) (f s), rest) := by
  induction lengths generalizing order f with
  | nil => rfl
  | cons l lengths ih =>
    obtain _ | ⟨symbol, order⟩ := order
    · exact absurd hle (by simp)
    obtain ⟨hnot, hnodup⟩ := List.nodup_cons.mp hnodup
    rw [List.length_cons, List.take_succ_cons, List.flatMap_cons, List.append_assoc,
      readCodeLengthCodeLengths, readBits_toLsb_append (hlt l List.mem_cons_self)]
    simp only
    rw [ih _ hnodup (Nat.le_of_succ_le_succ hle) fun l hl => hlt l (List.mem_cons_of_mem _ hl)]
    refine congrArg (·, rest) (funext fun s => ?_)
    by_cases hs : s = symbol
    · -- the symbol does not come again
      subst hs
      rw [List.idxOf_cons_self, List.getD_cons_zero, List.getD_eq_default, Function.update_self]
      rw [List.idxOf_of_notMem hnot]
      exact Nat.le_of_succ_le_succ hle
    · rw [List.idxOf_cons_ne _ (Ne.symm hs), List.getD_cons_succ, Function.update_of_ne hs]

theorem length_lt_length_apply (c : Deflate.CodeLength) (lengths : List ℕ) :
    lengths.length < (c.apply lengths).length := by
  cases c <;> simp [Deflate.CodeLength.apply]

theorem length_add_length_le_foldl (cs : List Deflate.CodeLength) (lengths : List ℕ) :
    lengths.length + cs.length ≤ (cs.foldl Deflate.CodeLength.apply lengths).length := by
  induction cs generalizing lengths with
  | nil => exact le_rfl
  | cons c cs ih =>
    have hlt := length_lt_length_apply c lengths
    have hle := ih (c.apply lengths)
    rw [List.foldl_cons, List.length_cons]
    omega

/-- One turn of the loop over `allCodeLengths`. -/
theorem readCodeLengths_bits {code lengths : List ℕ} {tree : HuffmanTree} {total n : ℕ} (m : Memory)
    (hcode : IsPrefixCode code 15) (hsize : code.length ≤ HuffmanTree.maxSymbols)
    (htree : HuffmanTree.Built code tree) {c : Deflate.CodeLength} (hc : c.Valid code lengths)
    (hlt : lengths.length < total) (rest : BitStream) :
    readCodeLengths m tree total (n + 1) lengths (c.bits code ++ rest)
      = readCodeLengths m tree total n (c.apply lengths) rest := by
  obtain ⟨hword, hvalid⟩ := hc
  rw [readCodeLengths, if_neg (Nat.not_le.mpr hlt), Deflate.CodeLength.bits, List.append_assoc,
    htree.decode_codeword hcode hsize hword]
  cases c with
  | length l =>
    have hle : (Deflate.CodeLength.length l).symbol ≤ 15 := Nat.le_of_lt_succ hvalid
    simp only [if_pos hle]
    rfl
  | repeatLast extra =>
    obtain ⟨hextra, hne⟩ := hvalid
    have hlast : lengths.getLastD m.codeLength = lengths.getLastD 0 := by
      rw [List.getLastD_eq_getLast?, List.getLastD_eq_getLast?,
        List.getLast?_eq_getLast_of_ne_nil hne]
      rfl
    simp only [Deflate.CodeLength.symbol, Deflate.CodeLength.extra, readBits_toLsb_append hextra,
      hlast]
    rfl
  | zeros extra =>
    simp only [Deflate.CodeLength.symbol, Deflate.CodeLength.extra, readBits_toLsb_append hvalid]
    rfl
  | manyZeros extra =>
    simp only [Deflate.CodeLength.symbol, Deflate.CodeLength.extra, readBits_toLsb_append hvalid]
    rfl

/-- The loop over `allCodeLengths` reads the lengths of both codes. -/
theorem readCodeLengths_flatMap {code : List ℕ} {tree : HuffmanTree} {total n : ℕ} (m : Memory)
    (hcode : IsPrefixCode code 15) (hsize : code.length ≤ HuffmanTree.maxSymbols)
    (htree : HuffmanTree.Built code tree) {cs : List Deflate.CodeLength} {lengths : List ℕ}
    (hvalid : Deflate.CodeLengthsValid code cs lengths)
    (htotal : (cs.foldl Deflate.CodeLength.apply lengths).length = total) (hn : cs.length ≤ n)
    (rest : BitStream) :
    readCodeLengths m tree total n lengths (cs.flatMap (Deflate.CodeLength.bits code) ++ rest)
      = some (cs.foldl Deflate.CodeLength.apply lengths, rest) := by
  induction cs generalizing lengths n with
  | nil =>
    have hge : lengths.length ≥ total := htotal.ge
    cases n with
    | zero => rfl
    | succ n =>
      rw [readCodeLengths, if_pos hge]
      rfl
  | cons c cs ih =>
    obtain ⟨n, rfl⟩ := Nat.exists_eq_succ_of_ne_zero (Nat.ne_zero_of_lt hn)
    obtain ⟨hc, hcs⟩ := hvalid
    have hle := length_add_length_le_foldl (c :: cs) lengths
    rw [List.length_cons] at hle
    rw [List.flatMap_cons, List.append_assoc,
      readCodeLengths_bits m hcode hsize htree hc (by omega)]
    exact ih hcs htotal (Nat.le_of_succ_le_succ hn)

theorem codeLengthCode_eq {header : Deflate.DynamicHeader} :
    header.codeLengthCode = (List.range 19).map
      fun s => header.codeLengthLengths.getD (codeLengthOrder.idxOf s) 0 := rfl

/-- `DecodeCanonicalCodes` reads the codes in front of a block. -/
theorem decodeCanonicalCodes_bits {header : Deflate.DynamicHeader} (m : Memory) (d : Decompressor)
    (h : header.Valid) (rest : BitStream) :
    ∃ t t', d.decodeCanonicalCodes m (header.bits ++ rest)
        = some ({ d with literalLengthTree := t, distanceTree := t' }, rest) ∧
      HasTrees header.codes { d with literalLengthTree := t, distanceTree := t' } := by
  have hliteral := h.literalCount_ge
  have hliteral' := h.literalCount_le
  have hdistance := h.distanceCount_ge
  have hdistance' := h.distanceCount_le
  have hlength := h.length_ge
  have hlength' := h.length_le
  obtain ⟨tree, htree, hbuilt⟩ := m.tree.built_of_isPrefixCode h.code
  obtain ⟨t, t', hbuild, htrees⟩ := d.buildTrees_of_valid h.codes
  refine ⟨t, t', ?_, htrees⟩
  have hturns : header.codeLengths.length ≤ header.literalCount + header.distanceCount := by
    have hle := length_add_length_le_foldl header.codeLengths []
    rw [← h.total, Deflate.DynamicHeader.lengths]
    simpa using hle
  have hread := readCodeLengths_flatMap m h.code (by simp [Deflate.DynamicHeader.codeLengthCode,
    HuffmanTree.maxSymbols]) hbuilt h.codeLengths h.total hturns rest
  have horder := readCodeLengthCodeLengths_append (fun _ => 0)
    (show codeLengthOrder.Nodup by decide) hlength' h.lt_eight (header.codeLengths.flatMap
      (Deflate.CodeLength.bits header.codeLengthCode) ++ rest)
  simp only [decodeCanonicalCodes, Deflate.DynamicHeader.bits, List.append_assoc]
  rw [readBits_toLsb_append (by omega)]
  simp only
  rw [readBits_toLsb_append (by omega)]
  simp only
  rw [readBits_toLsb_append (by omega)]
  simp only
  rw [Nat.sub_add_cancel hlength, horder, Nat.sub_add_cancel hliteral, Nat.sub_add_cancel hdistance]
  simp only [← codeLengthCode_eq, htree, Option.bind_eq_bind, Option.bind_some, hread]
  have hlengths : header.codeLengths.foldl Deflate.CodeLength.apply [] = header.lengths := rfl
  rw [hlengths, if_neg (not_not.mpr h.total)]
  exact congrArg (·.bind fun d => some (d, rest)) hbuild

/-! ## Blocks -/

theorem length_pos_codeword {lengths : List ℕ} {s : ℕ} (hs : lengthOf lengths s ≠ 0) :
    0 < (codeword lengths s).length := by
  rw [length_codeword]
  omega

theorem length_pos_bits {codes : Deflate.Codes} {token : Deflate.Token} {out : List UInt8}
    (h : token.Valid codes out) : 0 < (token.bits codes).length := by
  cases token with
  | literal byte => exact length_pos_codeword h
  | copy =>
    rw [Deflate.Token.bits, List.length_append]
    exact Nat.add_pos_left (length_pos_codeword h.2.2.1) _

/-- Every token of a block takes a bit, and so does its end. -/
theorem length_lt_length_tokensBits {codes : Deflate.Codes} {tokens : List Deflate.Token}
    {out : List UInt8} (hend : lengthOf codes.literal 256 ≠ 0)
    (h : Deflate.TokensValid codes tokens out) :
    tokens.length < (Deflate.tokensBits codes tokens).length := by
  induction tokens generalizing out with
  | nil => exact length_pos_codeword hend
  | cons token tokens ih =>
    have hpos := length_pos_bits h.1
    have hlt := ih h.2
    simp only [Deflate.tokensBits, List.flatMap_cons, List.length_append, List.length_cons] at hlt ⊢
    omega

theorem parseBlock_fixed (m : Memory) (d : Decompressor) (stream : BitStream) :
    ∃ t t', d.parseBlock m stream 1
        = .ok ({ d with literalLengthTree := t, distanceTree := t' }, stream) ∧
      HasTrees Deflate.fixedCodes { d with literalLengthTree := t, distanceTree := t' } := by
  obtain ⟨t, t', hbuild, htrees⟩ := d.buildTrees_of_valid Deflate.fixedCodes_valid
  have hdefault : d.buildTrees defaultLengths defaultDistances
      = d.buildTrees Deflate.fixedCodes.literal Deflate.fixedCodes.distance := rfl
  refine ⟨t, t', ?_, htrees⟩
  unfold parseBlock
  rw [hdefault, hbuild]
  rfl

/-- `ParseBlock` reads a block up to its tokens and builds the trees for them. -/
theorem parseBlock_body {b : Deflate.Block} {pos : ℕ} {out : List UInt8} (m : Memory)
    (d : Decompressor) (hvalid : b.Valid pos out) (hstored : b.isStored = false)
    (rest : BitStream) :
    ∃ codes tokens t t',
      d.parseBlock m (b.body ++ rest) b.type
        = .ok ({ d with literalLengthTree := t, distanceTree := t' },
            Deflate.tokensBits codes tokens ++ rest) ∧
      HasTrees codes { d with literalLengthTree := t, distanceTree := t' } ∧
      Deflate.TokensValid codes tokens out ∧ b.apply out = Deflate.applyTokens tokens out ∧
      (Deflate.tokensBits codes tokens).length ≤ b.body.length := by
  cases b with
  | stored => simp [Deflate.Block.isStored] at hstored
  | fixed tokens =>
    obtain ⟨t, t', hparse, htrees⟩ :=
      parseBlock_fixed m d (Deflate.tokensBits Deflate.fixedCodes tokens ++ rest)
    exact ⟨Deflate.fixedCodes, tokens, t, t', hparse, htrees, hvalid, rfl, le_rfl⟩
  | dynamic header tokens =>
    obtain ⟨hheader, htokens⟩ := hvalid
    obtain ⟨t, t', hdecode, htrees⟩ :=
      decodeCanonicalCodes_bits m d hheader (Deflate.tokensBits header.codes tokens ++ rest)
    refine ⟨header.codes, tokens, t, t', ?_, htrees, htokens, rfl, ?_⟩
    · unfold parseBlock
      rw [Deflate.Block.body, List.append_assoc, hdecode]
      rfl
    · rw [Deflate.Block.body, List.length_append]
      omega

/-- The output so far. -/
structure Written (d : Decompressor) (out : List UInt8) : Prop where
  pointer : d.outputPointer = out.length
  holds : Holds d.outputBuffer out

theorem readBits_cons (b : Bool) (rest : BitStream) :
    BitStream.readBits (b :: rest) 1 = (b.toNat, rest) := by
  cases b <;> rfl

/-- One turn of the loop of `DecompressStream`. -/
theorem decompressBlocks_succ {b : Deflate.Block} {d d₁ d₂ : Decompressor} {m : Memory}
    {fuel n : ℕ} {stream stream₁ rest : BitStream} (final : Bool)
    (hparse : d.parseBlock m (b.body ++ stream) b.type = .ok (d₁, stream₁))
    (hdecode : decodeBlock m fuel d₁ d₁.outputPointer stream₁ = .ok (d₂, rest)) :
    decompressBlocks m fuel (n + 1) d (b.bits final ++ stream)
      = if final then .ok (d₂, rest) else decompressBlocks m fuel n d₂ rest := by
  have htype : b.type < 2 ^ 2 := by cases b <;> simp [Deflate.Block.type]
  rw [decompressBlocks, Deflate.Block.bits, List.cons_append, List.append_assoc, readBits_cons]
  simp only
  rw [readBits_toLsb_append htype]
  simp only [hparse]
  change (decodeBlock m fuel d₁ d₁.outputPointer stream₁ >>= _) = _
  rw [hdecode]
  cases final <;> rfl

/-- A turn of the loop in which `ParseBlock` leaves the tokens of a block at the front of the
stream. -/
theorem decompressBlocks_tokens {b : Deflate.Block} {codes : Deflate.Codes}
    {tokens : List Deflate.Token} {out : List UInt8} {d d₁ : Decompressor} {m : Memory}
    {fuel n : ℕ} {stream rest : BitStream} (final : Bool)
    (hparse : d.parseBlock m (b.body ++ stream) b.type
      = .ok (d₁, Deflate.tokensBits codes tokens ++ rest))
    (htrees : HasTrees codes d₁) (hwritten : Written d₁ out)
    (hvalid : Deflate.TokensValid codes tokens out)
    (hroom : (Deflate.applyTokens tokens out).length < d₁.outputEnd)
    (hfuel : tokens.length < fuel) :
    ∃ d', Written d' (Deflate.applyTokens tokens out) ∧ HasTrees codes d' ∧
      d'.outputEnd = d₁.outputEnd ∧
      decompressBlocks m fuel (n + 1) d (b.bits final ++ stream)
        = if final then .ok (d', rest) else decompressBlocks m fuel n d' rest := by
  obtain ⟨buffer, hdecode, hbuffer⟩ :=
    decodeBlock_tokens m htrees hvalid hwritten.holds hroom hfuel rest
  rw [← hwritten.pointer] at hdecode
  refine ⟨_, ?_, ?_, ?_, decompressBlocks_succ final hparse hdecode⟩
  · exact ⟨rfl, hbuffer⟩
  · exact ⟨htrees.valid, htrees.literal, htrees.distance⟩
  · rfl

/-- A block that is not stored is decompressed by one turn of the loop. -/
theorem decompressBlocks_bits {b : Deflate.Block} {pos fuel n : ℕ} {out : List UInt8}
    {d : Decompressor} (m : Memory) (final : Bool) (hvalid : b.Valid pos out)
    (hstored : b.isStored = false) (hwritten : Written d out)
    (hroom : (b.apply out).length < d.outputEnd) (hfuel : b.body.length ≤ fuel)
    (rest : BitStream) :
    ∃ d', Written d' (b.apply out) ∧ d'.outputEnd = d.outputEnd ∧
      decompressBlocks m fuel (n + 1) d (b.bits final ++ rest)
        = if final then .ok (d', rest) else decompressBlocks m fuel n d' rest := by
  obtain ⟨codes, tokens, t, t', hparse, htrees, htokens, happly, hle⟩ :=
    parseBlock_body m d hvalid hstored rest
  rw [happly] at hroom ⊢
  have hturns := length_lt_length_tokensBits htrees.valid.endOfBlock htokens
  obtain ⟨d', hwritten', -, hend, hrun⟩ := decompressBlocks_tokens final hparse htrees
    ⟨hwritten.pointer, hwritten.holds⟩ htokens hroom (hturns.trans_le (hle.trans hfuel))
  exact ⟨d', hwritten', hend, hrun⟩

theorem length_le_length_block (b : Deflate.Block) (out : List UInt8) :
    out.length ≤ (b.apply out).length := by
  cases b with
  | stored padding data => simp [Deflate.Block.apply]
  | fixed tokens => exact length_le_length_applyTokens tokens out
  | dynamic header tokens => exact length_le_length_applyTokens tokens out

theorem length_le_length_blocks (blocks : List Deflate.Block) (out : List UInt8) :
    out.length ≤ (blocks.foldl Deflate.Block.apply out).length := by
  induction blocks generalizing out with
  | nil => exact le_rfl
  | cons b blocks ih => exact (length_le_length_block b out).trans (ih _)

theorem length_bits (final : Bool) (b : Deflate.Block) :
    (b.bits final).length = b.body.length + 3 := by
  rw [Deflate.Block.bits, List.length_cons, List.length_append, length_toLsb]
  omega

theorem length_le_length_blocksBits (blocks : List Deflate.Block) :
    blocks.length ≤ (Deflate.blocksBits blocks).length := by
  induction blocks using Deflate.blocksBits.induct with
  | case1 => exact le_rfl
  | case2 b =>
    rw [Deflate.blocksBits, length_bits]
    simp
  | case3 b b' blocks ih =>
    rw [Deflate.blocksBits, List.length_append, length_bits]
    simp only [List.length_cons] at ih ⊢
    omega

/-- The loop of `DecompressStream` decompresses blocks that are not stored. -/
theorem decompressBlocks_blocksBits {blocks : List Deflate.Block} {pos fuel n : ℕ}
    {out : List UInt8} {d : Decompressor} (m : Memory) (hne : blocks ≠ [])
    (hvalid : Deflate.BlocksValid pos out blocks)
    (hstored : ∀ b ∈ blocks, Deflate.Block.isStored b = false) (hwritten : Written d out)
    (hroom : (blocks.foldl Deflate.Block.apply out).length < d.outputEnd)
    (hfuel : (Deflate.blocksBits blocks).length ≤ fuel) (hn : blocks.length ≤ n)
    (rest : BitStream) :
    ∃ d', Written d' (blocks.foldl Deflate.Block.apply out) ∧
      decompressBlocks m fuel n d (Deflate.blocksBits blocks ++ rest) = .ok (d', rest) := by
  induction blocks using Deflate.blocksBits.induct generalizing pos n out d with
  | case1 => exact absurd rfl hne
  | case2 b =>
    obtain ⟨n, rfl⟩ := Nat.exists_eq_succ_of_ne_zero (Nat.ne_zero_of_lt hn)
    rw [Deflate.blocksBits, length_bits] at hfuel
    have hbody : b.body.length ≤ fuel := by omega
    obtain ⟨d', hwritten', -, hrun⟩ := decompressBlocks_bits m true hvalid.1
      (hstored b List.mem_cons_self) hwritten hroom hbody rest
    exact ⟨d', hwritten', hrun⟩
  | case3 b b' blocks ih =>
    obtain ⟨n, rfl⟩ := Nat.exists_eq_succ_of_ne_zero (Nat.ne_zero_of_lt hn)
    rw [Deflate.blocksBits, List.length_append, length_bits] at hfuel
    have hbody : b.body.length ≤ fuel := by omega
    have hroom' := (length_le_length_blocks (b' :: blocks) (b.apply out)).trans_lt hroom
    obtain ⟨d₁, hwritten₁, hend, hstep⟩ := decompressBlocks_bits m false hvalid.1
      (hstored b List.mem_cons_self) hwritten hroom' hbody
      (Deflate.blocksBits (b' :: blocks) ++ rest)
    obtain ⟨d', hwritten', hrun⟩ := ih (List.cons_ne_nil _ _) hvalid.2
      (fun c hc => hstored c (List.mem_cons_of_mem _ hc)) hwritten₁ (hend ▸ hroom) (by omega)
      (Nat.le_of_succ_le_succ hn)
    refine ⟨d', hwritten', ?_⟩
    rw [Deflate.blocksBits, List.append_assoc, hstep]
    exact hrun

/-! ## Stored blocks -/

theorem bitsOfBytes_append (data data' : List UInt8) :
    bitsOfBytes (data ++ data') = bitsOfBytes data ++ bitsOfBytes data' :=
  List.flatMap_append

theorem length_bitsOfBytes (data : List UInt8) : (bitsOfBytes data).length = 8 * data.length := by
  rw [bitsOfBytes, List.length_flatMap]
  simp [Nat.mul_comm]

theorem xor_ones {v : ℕ} (hv : v < 2 ^ 16) : v ^^^ 0xffff = 0xffff - v := by
  have hones : 0xffff - v = 2 ^ 16 - (v + 1) := by omega
  refine Nat.eq_of_testBit_eq fun i => ?_
  rw [hones, Nat.testBit_two_pow_sub_succ hv, Nat.testBit_xor,
    show 0xffff = 2 ^ 16 - 1 from rfl, Nat.testBit_two_pow_sub_one]
  by_cases hi : i < 16
  · simp [hi]
  · simp [hi, Nat.testBit_lt_two_pow (hv.trans_le (Nat.pow_le_pow_right (by decide)
      (Nat.le_of_not_lt hi)))]

/-- `Read` copies bytes to the output. -/
theorem readBytes_append {d : Decompressor} {out : List UInt8} (data : List UInt8)
    (h : Written d out) (rest : BitStream) :
    ∃ buffer, readBytes data.length d (bitsOfBytes data ++ rest)
        = ({ d with outputBuffer := buffer, outputPointer := (out ++ data).length }, rest) ∧
      Holds buffer (out ++ data) := by
  induction data generalizing d out with
  | nil =>
    rw [List.append_nil, ← h.pointer]
    exact ⟨d.outputBuffer, rfl, h.holds⟩
  | cons b data ih =>
    let d' : Decompressor :=
      { d.storeByte d.outputPointer b with outputPointer := d.outputPointer + 1 }
    have hwritten : Written d' (out ++ [b]) := by
      refine ⟨?_, ?_⟩
      · rw [List.length_append, ← h.pointer]
        rfl
      · have hpush := h.holds.push b
        rw [← h.pointer] at hpush
        exact hpush
    have hbits : bitsOfBytes (b :: data) ++ rest
        = toLsb 8 b.toNat ++ (bitsOfBytes data ++ rest) := List.append_assoc _ _ _
    obtain ⟨buffer, hread, hbuffer⟩ := ih hwritten
    rw [List.append_assoc, List.singleton_append] at hread hbuffer
    refine ⟨buffer, ?_, hbuffer⟩
    rw [hbits, List.length_cons, readBytes, readBits_toLsb_append b.toNat_lt]
    simp only [UInt8.ofNat_toNat]
    exact hread

/-- `ParseBlock` reads a stored block to its end. -/
theorem parseBlock_stored {d : Decompressor} {out data : List UInt8} {padding : List Bool}
    {rest : BitStream} (m : Memory) (h : Written d out) (hpadding : padding.length < 8)
    (hdata : data.length < 2 ^ 16) (hroom : out.length + data.length < d.outputEnd)
    (hrest : rest.length % 8 = 0) :
    ∃ buffer, d.parseBlock m ((Deflate.Block.stored padding data).body ++ rest) 0
        = .ok ({ d with outputBuffer := buffer, outputPointer := (out ++ data).length }, rest) ∧
      Holds buffer (out ++ data) := by
  obtain ⟨buffer, hread, hbuffer⟩ := readBytes_append data h rest
  refine ⟨buffer, ?_, hbuffer⟩
  have halign : alignToByteBoundary ((Deflate.Block.stored padding data).body ++ rest)
      = toLsb 16 data.length ++
        (toLsb 16 (0xffff - data.length) ++ (bitsOfBytes data ++ rest)) := by
    have hlength : ((Deflate.Block.stored padding data).body ++ rest).length % 8
        = padding.length := by
      simp only [Deflate.Block.body, List.length_append, length_toLsb, length_bitsOfBytes]
      omega
    rw [alignToByteBoundary, hlength, BitStream.dropBits, Deflate.Block.body, List.append_assoc,
      List.drop_left' rfl, List.append_assoc, List.append_assoc]
  unfold parseBlock
  simp only [halign]
  rw [readBits_toLsb_append hdata]
  simp only
  rw [readBits_toLsb_append (by omega)]
  simp only [xor_ones hdata, ne_eq, not_true_eq_false, if_false,
    if_neg (show ¬d.outputPointer + data.length ≥ d.outputEnd by rw [h.pointer]; omega)]
  rw [← hread]
  rfl

/-- `DecodeBlock` takes the bits behind a stored block for tokens of the codes of an earlier
block. -/
theorem decompressBlocks_stored {codes : Deflate.Codes} {tokens : List Deflate.Token}
    {d : Decompressor} {out data : List UInt8} {padding : List Bool} {rest : BitStream}
    {fuel n : ℕ} (m : Memory) (final : Bool) (htrees : HasTrees codes d) (h : Written d out)
    (hpadding : padding.length < 8) (hdata : data.length < 2 ^ 16)
    (hvalid : Deflate.TokensValid codes tokens (out ++ data))
    (hroom : (Deflate.applyTokens tokens (out ++ data)).length < d.outputEnd)
    (hfuel : tokens.length < fuel)
    (hrest : (Deflate.tokensBits codes tokens ++ rest).length % 8 = 0) :
    ∃ d', Written d' (Deflate.applyTokens tokens (out ++ data)) ∧
      decompressBlocks m fuel (n + 1) d ((Deflate.Block.stored padding data).bits final ++
          (Deflate.tokensBits codes tokens ++ rest))
        = if final then .ok (d', rest) else decompressBlocks m fuel n d' rest := by
  have hle := length_le_length_applyTokens tokens (out ++ data)
  rw [List.length_append] at hle
  obtain ⟨buffer, hparse, hbuffer⟩ := parseBlock_stored m h hpadding hdata (by omega) hrest
  obtain ⟨d', hwritten, -, -, hrun⟩ := decompressBlocks_tokens final hparse
    ⟨htrees.valid, htrees.literal, htrees.distance⟩ ⟨rfl, hbuffer⟩ hvalid hroom hfuel
  exact ⟨d', hwritten, hrun⟩

/-! ## Streams -/

theorem Written.decompressedData {d : Decompressor} {out : List UInt8} (h : Written d out) :
    d.decompressedData = out := by
  rw [Decompressor.decompressedData, decompressedSize, h.pointer]
  exact h.holds.map_range

/-- `Decompress` returns true and leaves exactly the data of the stream, if its loops may take
enough turns. -/
def Inflates (m : Memory) (initialSize : ℕ) (z : ZLibStream) : Prop :=
  ∀ fuel ≥ 8 * z.bytes.length, ∃ d, (new m z.bytes).decompress m fuel initialSize = .ok d ∧
    d.decompressedData = z.plain ∧ d.decompressedSize = z.plain.length

/-- What follows the blocks of a stream. -/
def trailer (z : ZLibStream) : BitStream :=
  z.padding ++ bitsOfBytes (bigEndianBytes (adler32 z.plain))

theorem bitsOfBytes_bytes (z : ZLibStream) :
    bitsOfBytes z.bytes = toLsb 16 (z.cmf.toNat + 2 ^ 8 * z.flg.toNat) ++
      (Deflate.blocksBits z.blocks ++ trailer z) := by
  have hsplit : bitsOfBytes z.bytes = toLsb 8 z.cmf.toNat ++ (toLsb 8 z.flg.toNat ++
      bitsOfBytes (z.body ++ bigEndianBytes (adler32 z.plain))) := rfl
  rw [hsplit, bitsOfBytes_append, z.bits_eq, ← List.append_assoc,
    toLsb_append_toLsb z.cmf.toNat_lt, List.append_assoc]
  rfl

/-- The decompressor of a stream with the buffer that `Decompress` makes. -/
def start (m : Memory) (data : List UInt8) (initialSize : ℕ) : Decompressor :=
  { new m data with hasBuffer := true, outputSize := initialSize, outputEnd := initialSize }

theorem ensureCapacity_new {initialSize : ℕ} (m : Memory) (data : List UInt8) :
    (new m data).ensureCapacity m initialSize = .ok (start m data initialSize) := by
  have hgrow : growTo (0 + initialSize) 65 initialSize = some initialSize := by
    rw [growTo, if_neg (by omega)]
  simp only [ensureCapacity, new, Bool.false_eq_true, if_false, hgrow]
  rfl

/-- `Decompress` accepts the header of a stream and goes on with its blocks. -/
theorem decompress_of_run {z : ZLibStream} {m : Memory} {initialSize fuel : ℕ} {d : Decompressor}
    {rest : BitStream} (hpos : initialSize ≠ 0)
    (hrun : (start m z.bytes initialSize).decompressBlocks m fuel fuel
      (Deflate.blocksBits z.blocks ++ trailer z) = .ok (d, rest)) :
    (new m z.bytes).decompress m fuel initialSize
      = .ok { d with outputSize := d.outputPointer } := by
  have hcmf := z.cmf.toNat_lt
  have hflg := z.flg.toNat_lt
  have hlow : (z.cmf.toNat + 2 ^ 8 * z.flg.toNat) % 2 ^ 8 = z.cmf.toNat := by omega
  have hhigh : (z.cmf.toNat + 2 ^ 8 * z.flg.toNat) / 2 ^ 8 = z.flg.toNat := by omega
  have hmethod : (z.cmf.toNat + 2 ^ 8 * z.flg.toNat) % 2 ^ 4 = 8 := by
    have hdeflate := z.deflate
    omega
  have hdictionary : (z.cmf.toNat + 2 ^ 8 * z.flg.toNat) / 2 ^ 13 % 2 = 0 := by
    rw [show 2 ^ 13 = 2 ^ 8 * 32 by rfl, ← Nat.div_div_eq_div_mul, hhigh, z.no_dictionary]
  have hcheck : (z.cmf.toNat * 2 ^ 8 + z.flg.toNat) % 31 = 0 := by
    rw [Nat.mul_comm]
    exact z.check
  have hne : Deflate.blocksBits z.blocks ++ trailer z ≠ [] := by
    have hle := length_le_length_blocksBits z.blocks
    have hlength := List.length_pos_iff.mpr z.blocks_ne
    intro h
    rw [List.append_eq_nil_iff.mp h |>.1, List.length_nil] at hle
    omega
  have hstream : (start m z.bytes initialSize).decompressStream m fuel
      (Deflate.blocksBits z.blocks ++ trailer z) = .ok d := by
    rw [decompressStream, hrun]
    rfl
  have hheader : BitStream.readBits (bitsOfBytes (start m z.bytes initialSize).inputData) 16
      = (z.cmf.toNat + 2 ^ 8 * z.flg.toNat, Deflate.blocksBits z.blocks ++ trailer z) := by
    change BitStream.readBits (bitsOfBytes z.bytes) 16 = _
    rw [bitsOfBytes_bytes, readBits_toLsb_append (by omega)]
  rw [decompress, if_neg hpos, ensureCapacity_new]
  simp only [bind, Except.bind, hheader]
  rw [if_neg (not_not.mpr hmethod), if_neg (by rw [hdictionary]; decide), hlow, hhigh,
    if_neg (not_not.mpr hcheck), if_neg hne, hstream]

/-- A stream without stored blocks is decompressed to its data. -/
theorem decompress_inflates {z : ZLibStream} {initialSize : ℕ} (m : Memory)
    (hsize : z.plain.length + 259 ≤ initialSize)
    (hstored : ∀ b ∈ z.blocks, Deflate.Block.isStored b = false) : Inflates m initialSize z := by
  intro fuel hfuel
  have hbits := congrArg List.length (bitsOfBytes_bytes z)
  rw [length_bitsOfBytes, List.length_append, List.length_append, length_toLsb] at hbits
  have hblocks := length_le_length_blocksBits z.blocks
  obtain ⟨d, hwritten, hrun⟩ := decompressBlocks_blocksBits m z.blocks_ne z.valid hstored
    (d := start m z.bytes initialSize) ⟨rfl, fun i hi => absurd hi (Nat.not_lt_zero i)⟩
    (show z.plain.length < initialSize by omega)
    (show (Deflate.blocksBits z.blocks).length ≤ fuel by omega)
    (show z.blocks.length ≤ fuel by omega) (trailer z)
  refine ⟨_, decompress_of_run (by omega) hrun, ?_, hwritten.pointer⟩
  exact hwritten.decompressedData

/-- Memory that is all zero. -/
def zeroMemory : Memory where
  bytes _ := 0
  tree := ⟨fun _ => 0, fun _ => 0, fun _ => 0, fun _ => 0, fun _ => 0, fun _ => 0⟩
  codeLength := 0

/-- The letter `a` and a copy of it of length three, in a block with fixed codes. -/
def repeatedLetter : ZLibStream where
  cmf := 0x78
  flg := 0x9c
  blocks := [.fixed [.literal 97, .copy 0 0 0 0]]
  body := [0x4b, 0x04, 0x02, 0x00]
  padding := [false, false]
  deflate := by decide
  window_le := by decide
  no_dictionary := by decide
  check := by decide
  blocks_ne := by decide
  valid := ⟨show Deflate.TokensValid _ _ _ by decide +kernel, trivial⟩
  bits_eq := by decide +kernel
  padding_lt := by decide

theorem decompress_inflates_repeatedLetter :
    repeatedLetter.plain = [97, 97, 97, 97] ∧ Inflates zeroMemory 263 repeatedLetter :=
  ⟨by decide, decompress_inflates zeroMemory (by decide) (by decide)⟩

/-- The letter `a` in a block with fixed codes, and the letter `b` in a stored block. -/
def fixedThenStored : ZLibStream where
  cmf := 0x78
  flg := 0x9c
  blocks := [.fixed [.literal 97], .stored [false, false, false] [98]]
  body := [0x4a, 0x04, 0x04, 0x01, 0x00, 0xfe, 0xff, 0x62]
  padding := []
  deflate := by decide
  window_le := by decide
  no_dictionary := by decide
  check := by decide
  blocks_ne := by decide
  valid := ⟨show Deflate.TokensValid _ _ _ by decide +kernel,
    ⟨by decide +kernel, by decide, by decide⟩, trivial⟩
  bits_eq := by decide +kernel
  padding_lt := by decide

/-- The checksum of `fixedThenStored` reads as two more letters. -/
theorem trailer_fixedThenStored : ∃ rest, trailer fixedThenStored
    = Deflate.tokensBits Deflate.fixedCodes [.literal 80, .literal 52] ++ rest :=
  ⟨(trailer fixedThenStored).drop 23, by decide +kernel⟩

theorem decompress_fixedThenStored {fuel : ℕ} (m : Memory) (hfuel : 3 ≤ fuel) :
    ∃ d, (new m fixedThenStored.bytes).decompress m fuel 261 = .ok d ∧
      d.decompressedData = [97, 98, 80, 52] := by
  obtain ⟨n, rfl⟩ := Nat.exists_eq_add_of_le' (show 2 ≤ fuel by omega)
  obtain ⟨rest, hrest⟩ := trailer_fixedThenStored
  have hlength : (trailer fixedThenStored).length % 8 = 0 := by decide
  let d := start m fixedThenStored.bytes 261
  obtain ⟨t, t', hparse, htrees⟩ := parseBlock_fixed m d
    (Deflate.tokensBits Deflate.fixedCodes [.literal 97] ++
      ((Deflate.Block.stored [false, false, false] [98]).bits true ++ trailer fixedThenStored))
  have hwritten : Written { d with literalLengthTree := t, distanceTree := t' } [] :=
    ⟨rfl, fun i hi => absurd hi (Nat.not_lt_zero i)⟩
  obtain ⟨d₁, hwritten₁, htrees₁, hend, hstep⟩ := decompressBlocks_tokens
    (b := .fixed [.literal 97]) (n := n + 1) false hparse htrees hwritten (by decide +kernel)
    (show 1 < 261 by decide) (show 1 < n + 2 by omega)
  have hroom : 4 < d₁.outputEnd := by
    rw [hend]
    exact (by decide : 4 < 261)
  have hletters : Deflate.TokensValid Deflate.fixedCodes [.literal 80, .literal 52]
      ([97] ++ [98]) := by
    decide +kernel
  rw [hrest] at hlength hstep
  obtain ⟨d₂, hwritten₂, hrun⟩ := decompressBlocks_stored (n := n) m true htrees₁ hwritten₁
    (show [false, false, false].length < 8 by decide)
    (show [(98 : UInt8)].length < 2 ^ 16 by decide) hletters hroom hfuel hlength
  have hbits : Deflate.blocksBits fixedThenStored.blocks ++ trailer fixedThenStored
      = (Deflate.Block.fixed [.literal 97]).bits false ++
        ((Deflate.Block.stored [false, false, false] [98]).bits true ++
          (Deflate.tokensBits Deflate.fixedCodes [.literal 80, .literal 52] ++ rest)) := by
    rw [hrest]
    exact List.append_assoc _ _ _
  have hall : d.decompressBlocks m (n + 2) (n + 2) (Deflate.blocksBits fixedThenStored.blocks ++
      trailer fixedThenStored) = .ok (d₂, rest) := by
    rw [hbits]
    exact hstep.trans hrun
  exact ⟨_, decompress_of_run (by decide) hall, hwritten₂.decompressedData⟩

/-- What follows a stored block is taken for tokens. -/
theorem not_inflates_fixedThenStored :
    fixedThenStored.plain = [97, 98] ∧ fixedThenStored.plain.length + 259 ≤ 261 ∧
      ¬Inflates zeroMemory 261 fixedThenStored := by
  refine ⟨by decide, by decide, fun h => ?_⟩
  obtain ⟨d, hd, hdata⟩ := decompress_fixedThenStored zeroMemory
    (show 3 ≤ 8 * fixedThenStored.bytes.length by decide)
  obtain ⟨d', hd', hdata', -⟩ := h _ le_rfl
  obtain rfl : d = d' := Except.ok.inj (hd.symm.trans hd')
  rw [hdata] at hdata'
  exact absurd hdata' (by decide)

end Decompressor

end Cryptix.ZLib
