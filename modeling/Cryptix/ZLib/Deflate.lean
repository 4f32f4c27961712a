import Cryptix.Lib.CanonicalCode

/-!
# The deflate and zlib formats

What a stream says, independently of how the kernel reads it: the blocks of a deflate stream, the
bits they are written with and the bytes they stand for, and the frame that zlib puts around them. A
stream is a value of `ZLibStream`, which holds the blocks with the proof that they are well formed;
`ZLibStream.bytes` is the stream itself and `ZLibStream.plain` the data.

Fields are written with the least significant bit first, the words of the Huffman codes with the
most significant bit first.
-/

namespace Cryptix.ZLib

open Lib Lib.CanonicalCode

/-- The bits of bytes, in the order in which they are read. -/
def bitsOfBytes (data : List UInt8) : List Bool := data.flatMap fun b => toLsb 8 b.toNat

namespace Deflate

/-! ## Tokens -/

/-- The number of bits after the word of a length. -/
def lengthExtra (code : ℕ) : ℕ := if code < 8 ∨ code = 28 then 0 else (code - 4) / 4

/-- The first length of a length code. -/
def lengthStart (code : ℕ) : ℕ :=
  if code < 8 then 3 + code
  else if code = 28 then 258
  else 3 + (4 + code % 4) * 2 ^ lengthExtra code

/-- The number of bits after the word of a distance. -/
def distanceExtra (code : ℕ) : ℕ := if code < 4 then 0 else (code - 2) / 2

/-- The first distance of a distance code. -/
def distanceStart (code : ℕ) : ℕ :=
  if code < 4 then 1 + code else 1 + (2 + code % 2) * 2 ^ distanceExtra code

/-- A byte, or a copy of earlier bytes. -/
inductive Token
  | literal (byte : UInt8)
  | copy (lengthCode lengthBits distanceCode distanceBits : ℕ)
  deriving DecidableEq, Repr

/-- Repeats the byte that stands `distance` back. -/
def copyBack (distance : ℕ) : ℕ → List UInt8 → List UInt8
  | 0, out => out
  | n + 1, out => copyBack distance n (out ++ [out.getD (out.length - distance) 0])

/-- The lengths of the words of the two Huffman codes of a block. -/
structure Codes where
  literal : List ℕ
  distance : List ℕ
  deriving DecidableEq, Repr

/-- Codes that a block may use: prefix codes with a word for the end of the block. -/
structure Codes.Valid (codes : Codes) : Prop where
  literal : IsPrefixCode codes.literal 15
  distance : IsPrefixCode codes.distance 15
  literal_length : codes.literal.length ≤ 288
  distance_length : codes.distance.length ≤ 32
  endOfBlock : lengthOf codes.literal 256 ≠ 0

namespace Token

/-- What a token adds to the output. -/
def apply : Token → List UInt8 → List UInt8
  | .literal byte, out => out ++ [byte]
  | .copy lengthCode lengthBits distanceCode distanceBits, out =>
    copyBack (distanceStart distanceCode + distanceBits) (lengthStart lengthCode + lengthBits) out

def bits (codes : Codes) : Token → List Bool
  | .literal byte => codeword codes.literal byte.toNat
  | .copy lengthCode lengthBits distanceCode distanceBits =>
    codeword codes.literal (257 + lengthCode) ++ (toLsb (lengthExtra lengthCode) lengthBits ++
      (codeword codes.distance distanceCode ++ toLsb (distanceExtra distanceCode) distanceBits))

/-- A token that can be written after the output `out`. -/
def Valid (codes : Codes) (out : List UInt8) : Token → Prop
  | .literal byte => lengthOf codes.literal byte.toNat ≠ 0
  | .copy lengthCode lengthBits distanceCode distanceBits =>
    lengthCode < 29 ∧ lengthBits < 2 ^ lengthExtra lengthCode ∧
      lengthOf codes.literal (257 + lengthCode) ≠ 0 ∧
      distanceCode < 30 ∧ distanceBits < 2 ^ distanceExtra distanceCode ∧
      lengthOf codes.distance distanceCode ≠ 0 ∧
      distanceStart distanceCode + distanceBits ≤ out.length

instance (codes : Codes) (out : List UInt8) : DecidablePred (Valid codes out)
  | .literal byte => inferInstanceAs (Decidable (lengthOf codes.literal byte.toNat ≠ 0))
  | .copy .. => inferInstanceAs (Decidable (_ ∧ _))

end Token

/-- Tokens one after the other, up to the end of the block. -/
def tokensBits (codes : Codes) (tokens : List Token) : List Bool :=
  tokens.flatMap (Token.bits codes) ++ codeword codes.literal 256

def applyTokens (tokens : List Token) (out : List UInt8) : List UInt8 :=
  tokens.foldl (fun out token => token.apply out) out

def TokensValid (codes : Codes) : List Token → List UInt8 → Prop
  | [], _ => True
  | token :: tokens, out => token.Valid codes out ∧ TokensValid codes tokens (token.apply out)

instance (codes : Codes) : ∀ tokens out, Decidable (TokensValid codes tokens out)
  | [], _ => inferInstanceAs (Decidable True)
  | token :: tokens, out =>
    have := instDecidableTokensValid codes tokens (token.apply out)
    inferInstanceAs (Decidable (token.Valid codes out ∧ _))

/-! ## Dynamic codes -/

/-- One or more lengths of words. -/
inductive CodeLength
  | length (l : ℕ)
  | repeatLast (extra : ℕ)
  | zeros (extra : ℕ)
  | manyZeros (extra : ℕ)
  deriving DecidableEq, Repr

namespace CodeLength

def symbol : CodeLength → ℕ
  | .length l => l
  | .repeatLast _ => 16
  | .zeros _ => 17
  | .manyZeros _ => 18

/-- The bits after the word. -/
def extra : CodeLength → List Bool
  | .length _ => []
  | .repeatLast extra => toLsb 2 extra
  | .zeros extra => toLsb 3 extra
  | .manyZeros extra => toLsb 7 extra

def apply (lengths : List ℕ) : CodeLength → List ℕ
  | .length l => lengths ++ [l]
  | .repeatLast extra => lengths ++ List.replicate (extra + 3) (lengths.getLastD 0)
  | .zeros extra => lengths ++ List.replicate (extra + 3) 0
  | .manyZeros extra => lengths ++ List.replicate (extra + 11) 0

/-- A length that can be written after the lengths `lengths`; the first one cannot be a
repetition. -/
def Valid (code : List ℕ) (lengths : List ℕ) (c : CodeLength) : Prop :=
  lengthOf code c.symbol ≠ 0 ∧
    match c with
    | .length l => l < 16
    | .repeatLast extra => extra < 2 ^ 2 ∧ lengths ≠ []
    | .zeros extra => extra < 2 ^ 3
    | .manyZeros extra => extra < 2 ^ 7

def bits (code : List ℕ) (c : CodeLength) : List Bool := codeword code c.symbol ++ c.extra

end CodeLength

def CodeLengthsValid (code : List ℕ) : List CodeLength → List ℕ → Prop
  | [], _ => True
  | c :: cs, lengths => c.Valid code lengths ∧ CodeLengthsValid code cs (c.apply lengths)

/-- The order in which the lengths of the code of the lengths are written. -/
def codeLengthOrder : List ℕ :=
  [16, 17, 18, 0, 8, 7, 9, 6, 10, 5, 11, 4, 12, 3, 13, 2, 14, 1, 15]

/-- The codes of a block as they are written in front of it. -/
structure DynamicHeader where
  literalCount : ℕ
  distanceCount : ℕ
  codeLengthLengths : List ℕ
  codeLengths : List CodeLength
  deriving DecidableEq, Repr

namespace DynamicHeader

variable (header : DynamicHeader)

/-- The code of the lengths. -/
def codeLengthCode : List ℕ :=
  (List.range 19).map fun symbol =>
    header.codeLengthLengths.getD (codeLengthOrder.idxOf symbol) 0

/-- The lengths of both codes. -/
def lengths : List ℕ := header.codeLengths.foldl CodeLength.apply []

def codes : Codes :=
  ⟨header.lengths.take header.literalCount, header.lengths.drop header.literalCount⟩

def bits : List Bool :=
  toLsb 5 (header.literalCount - 257) ++ (toLsb 5 (header.distanceCount - 1) ++
    (toLsb 4 (header.codeLengthLengths.length - 4) ++
      (header.codeLengthLengths.flatMap (toLsb 3) ++
        header.codeLengths.flatMap (CodeLength.bits header.codeLengthCode))))

structure Valid : Prop where
  literalCount_ge : 257 ≤ header.literalCount
  literalCount_le : header.literalCount ≤ 286
  distanceCount_ge : 1 ≤ header.distanceCount
  distanceCount_le : header.distanceCount ≤ 32
  length_ge : 4 ≤ header.codeLengthLengths.length
  length_le : header.codeLengthLengths.length ≤ 19
  lt_eight : ∀ l ∈ header.codeLengthLengths, l < 8
  code : IsPrefixCode header.codeLengthCode 15
  codeLengths : CodeLengthsValid header.codeLengthCode header.codeLengths []
  total : header.lengths.length = header.literalCount + header.distanceCount
  codes : header.codes.Valid

end DynamicHeader

/-! ## Blocks -/

/-- The codes of a block with fixed codes. -/
def fixedCodes : Codes where
  literal := List.replicate 144 8 ++ List.replicate 112 9 ++ List.replicate 24 7 ++
    List.replicate 8 8
  distance := List.replicate 32 5

theorem fixedCodes_valid : fixedCodes.Valid where
  literal := ⟨by decide +kernel, by decide +kernel⟩
  distance := ⟨by decide +kernel, by decide +kernel⟩
  literal_length := by decide +kernel
  distance_length := by decide +kernel
  endOfBlock := by decide +kernel

/-- A block; the padding of a stored one fills up the byte that its header ends in. -/
inductive Block
  | stored (padding : List Bool) (data : List UInt8)
  | fixed (tokens : List Token)
  | dynamic (header : DynamicHeader) (tokens : List Token)
  deriving DecidableEq, Repr

namespace Block

def type : Block → ℕ
  | .stored .. => 0
  | .fixed _ => 1
  | .dynamic .. => 2

def isStored : Block → Bool
  | .stored .. => true
  | _ => false

def body : Block → List Bool
  | .stored padding data =>
    padding ++ (toLsb 16 data.length ++ (toLsb 16 (0xffff - data.length) ++ bitsOfBytes data))
  | .fixed tokens => tokensBits fixedCodes tokens
  | .dynamic header tokens => header.bits ++ tokensBits header.codes tokens

def bits (final : Bool) (b : Block) : List Bool := final :: (toLsb 2 b.type ++ b.body)

def apply (out : List UInt8) : Block → List UInt8
  | .stored _ data => out ++ data
  | .fixed tokens => applyTokens tokens out
  | .dynamic _ tokens => applyTokens tokens out

/-- A block that can be written at the bit `pos` of a stream after the output `out`. -/
def Valid (pos : ℕ) (out : List UInt8) : Block → Prop
  | .stored padding data => (pos + 3 + padding.length) % 8 = 0 ∧ padding.length < 8 ∧
      data.length < 2 ^ 16
  | .fixed tokens => TokensValid fixedCodes tokens out
  | .dynamic header tokens => header.Valid ∧ TokensValid header.codes tokens out

end Block

/-- The bits of a stream; the last block is marked. -/
def blocksBits : List Block → List Bool
  | [] => []
  | [b] => b.bits true
  | b :: b' :: bs => b.bits false ++ blocksBits (b' :: bs)

def BlocksValid : ℕ → List UInt8 → List Block → Prop
  | _, _, [] => True
  | pos, out, b :: bs =>
    b.Valid pos out ∧ BlocksValid (pos + (b.bits false).length) (b.apply out) bs

/-- The data that blocks stand for. -/
def inflate (blocks : List Block) : List UInt8 := blocks.foldl Block.apply []

end Deflate

/-! ## The frame -/

/-- The checksum of the data: two sums modulo 65521. -/
def adler32 (data : List UInt8) : ℕ :=
  let (s1, s2) := data.foldl
    (fun (s1, s2) b => ((s1 + b.toNat) % 65521, (s2 + (s1 + b.toNat) % 65521) % 65521)) (1, 0)
  s2 * 65536 + s1

/-- The four bytes of a number, the most significant one first. -/
def bigEndianBytes (v : ℕ) : List UInt8 :=
  [UInt8.ofNat (v / 2 ^ 24), UInt8.ofNat (v / 2 ^ 16), UInt8.ofNat (v / 2 ^ 8), UInt8.ofNat v]

/-- A zlib stream: two bytes of header, the blocks in whole bytes, and the checksum of the data. -/
structure ZLibStream where
  cmf : UInt8
  flg : UInt8
  blocks : List Deflate.Block
  body : List UInt8
  padding : List Bool
  deflate : cmf.toNat % 16 = 8
  window_le : cmf.toNat / 16 ≤ 7
  no_dictionary : flg.toNat / 32 % 2 = 0
  check : (256 * cmf.toNat + flg.toNat) % 31 = 0
  blocks_ne : blocks ≠ []
  valid : Deflate.BlocksValid 0 [] blocks
  bits_eq : bitsOfBytes body = Deflate.blocksBits blocks ++ padding
  padding_lt : padding.length < 8

namespace ZLibStream

/-- The data. -/
def plain (z : ZLibStream) : List UInt8 := Deflate.inflate z.blocks

/-- The stream. -/
def bytes (z : ZLibStream) : List UInt8 :=
  z.cmf :: z.flg :: (z.body ++ bigEndianBytes (adler32 z.plain))

end ZLibStream

end Cryptix.ZLib
