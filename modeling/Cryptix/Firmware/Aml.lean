import Mathlib.Algebra.Order.Ring.Nat
import Mathlib.Data.List.Basic
import Cryptix.Prism

/-!
# What an AML stream is decoded into

The decoders of `Kernel/Firmware/ACPI/Interpreter/Interpreter.cpp`: package lengths, names, the
arguments of a term, and the values that are named.

Prism's `ByteStream` is a parameter: within the bytes it was made for it reads them in order, and
goes where it is sent. The decoders that call themselves, or that have a loop without a bound, get a
number of turns that they may take at most.
-/

namespace Cryptix.ACPI

/-- The operations of Prism's `ByteStream` that the interpreter uses: the constructor, `Offset`,
`Seek`, and what the operators that read numbers are made of. `data` are the bytes that it was made
for. -/
structure ByteStream (σ : Type) where
  make : List UInt8 → σ
  data : σ → List UInt8
  offset : σ → ℕ
  read : σ → ℕ → List UInt8 × σ
  seek : σ → ℕ → σ

/-- A number of which the lowest byte comes first. -/
def ofBytes (bytes : List UInt8) : ℕ := bytes.foldr (fun b n => b.toNat + 256 * n) 0

namespace ByteStream

variable {σ : Type} (S : ByteStream σ)

/-- What the interpreter relies on. -/
structure Lawful : Prop where
  data_make : ∀ bytes, S.data (S.make bytes) = bytes
  bytes_read : ∀ s n, S.offset s + n ≤ (S.data s).length →
    (S.read s n).1 = ((S.data s).drop (S.offset s)).take n
  data_read : ∀ s n, S.offset s + n ≤ (S.data s).length → S.data (S.read s n).2 = S.data s
  offset_read : ∀ s n, S.offset s + n ≤ (S.data s).length →
    S.offset (S.read s n).2 = S.offset s + n
  data_seek : ∀ s n, n ≤ (S.data s).length → S.data (S.seek s n) = S.data s
  offset_seek : ∀ s n, n ≤ (S.data s).length → S.offset (S.seek s n) = n

/-- `ReadNext` of a number of `n` bytes. -/
def readNext (s : σ) (n : ℕ) : ℕ × σ := (ofBytes (S.read s n).1, (S.read s n).2)

/-- `ReadNext<u8>`, and the operator for a `u8` or a `char`. -/
def readU8 (s : σ) : UInt8 × σ := (UInt8.ofNat (S.readNext s 1).1, (S.readNext s 1).2)

/-- `PeekNextByte`. -/
def peekNextByte (s : σ) : UInt8 × σ :=
  let (value, s) := S.readU8 s
  (value, S.seek s (S.offset s - 1))

/-- `GetNextOp`. -/
def getNextOp (s : σ) : ℕ × σ :=
  let (high, s) := S.readU8 s
  if high = 0x5b then
    let (low, s) := S.readU8 s
    ((high.toNat <<< 8) ||| low.toNat, s)
  else (high.toNat, s)

end ByteStream

/-- `static_cast<u32>(next) << shift`. -/
def shiftByte (next : UInt8) (shift : ℕ) : ℕ := (next.toNat <<< shift) % 2 ^ 32

section Decoders

variable {σ : Type} (S : ByteStream σ)

/-! ## Package lengths -/

/-- One turn of the loop of `DecodePkgLength`. -/
def orNextByte (ls : ℕ × σ) (i : ℕ) : ℕ × σ :=
  let (nextByte, s) := S.readU8 ls.2
  (ls.1 ||| shiftByte nextByte (4 + i * 8), s)

/-- `DecodePkgLength`. -/
def decodePkgLength (s : σ) : ℕ × σ :=
  let (leadByte, s) := S.readU8 s
  let byteCount := (leadByte >>> 6) &&& 0x03
  let length := (leadByte &&& 0x3f).toNat
  (List.range byteCount.toNat).foldl (orNextByte S) (length, s)

/-! ## Names -/

/-- `IsNameSegment`. -/
def isNameSegment (op : UInt8) : Bool :=
  op = 0x2e ∨ op = 0x2f ∨ op = 0x5c ∨ op = 0x5e ∨ (0x41 ≤ op ∧ op ≤ 0x5a) ∨ op = 0x00 ∨ op = 0x5f

/-- `DecodeNameSegment`: the four bytes as a NUL-terminated string. -/
def decodeNameSegment (s : σ) : List UInt8 × σ :=
  let (a, s) := S.readU8 s
  let (b, s) := S.readU8 s
  let (c, s) := S.readU8 s
  let (d, s) := S.readU8 s
  ([a, b, c, d].takeWhile (· ≠ 0), s)

/-- `while (PeekNextByte() == '^') name += ReadNext<u8>()`. -/
def decodeParents : ℕ → List UInt8 → σ → Option (List UInt8 × σ)
  | 0, _, _ => none
  | turns + 1, name, s =>
    let (next, s) := S.peekNextByte s
    if next = 0x5e then
      let (c, s) := S.readU8 s
      decodeParents turns (name ++ [c]) s
    else some (name, s)

/-- The number of segments of a name. -/
def decodeSegmentCount (s : σ) : ℕ × σ :=
  let (next, s) := S.peekNextByte s
  if next = 0x00 then (0, (S.readU8 s).2)
  else
    let (next, s) := S.peekNextByte s
    if next = 0x2e then (2, (S.readU8 s).2)
    else
      let (next, s) := S.peekNextByte s
      if next = 0x2f then
        let (count, s) := S.readU8 (S.readU8 s).2
        (count.toNat, s)
      else (1, s)

/-- One turn of the last loop of `DecodeName`. -/
def addSegment (ns : List UInt8 × σ) (_ : ℕ) : List UInt8 × σ :=
  let (segment, s) := decodeNameSegment S ns.2
  (ns.1 ++ segment, s)

/-- `DecodeName`. -/
def decodeName (turns : ℕ) (s : σ) : Option (List UInt8 × σ) :=
  let (next, s) := S.peekNextByte s
  let (name, s) :=
    if next = 0x5c then
      let (c, s) := S.readU8 s
      ([c], s)
    else ([], s)
  (decodeParents S turns name s).map fun (name, s) =>
    let (segmentCount, s) := decodeSegmentCount S s
    (List.range segmentCount).foldl (addSegment S) (name, s)

/-! ## Arguments -/

/-- `BinaryOpcode`. -/
inductive BinaryOpcode
  | eAdd | eSubtract | eLess
  deriving DecidableEq, Repr

/-- `Expression`. -/
inductive Expression
  | constant (value : ℕ)
  | nameRef (name : List UInt8)
  | binary (op : BinaryOpcode) (left right : Expression)
  | call (callee : String) (args : List Expression)

/-- The name of a local object or an argument. -/
def numbered (name : String) (n : UInt8) : List UInt8 :=
  name.toList.map (fun c => UInt8.ofNat c.toNat) ++ [0x30 + n]

/-- `ParseTermArg`. -/
def parseTermArg : ℕ → σ → Option (Expression × σ)
  | 0, _ => none
  | turns + 1, s =>
    let (op, s) := S.readU8 s
    if 0x60 ≤ op ∧ op ≤ 0x67 then some (.nameRef (numbered "Local" (op - 0x60)), s)
    else if 0x68 ≤ op ∧ op ≤ 0x6e then some (.nameRef (numbered "Arg" (op - 0x68)), s)
    else if op = 0x00 then some (.constant 0, s)
    else if op = 0x01 then some (.constant 1, s)
    else if op = 0xff then some (.constant (wordCount - 1), s)
    else if op = 0x0a then
      let (value, s) := S.readNext s 1
      some (.constant value, s)
    else if op = 0x0b then
      let (value, s) := S.readNext s 2
      some (.constant value, s)
    else if op = 0x0c then
      let (value, s) := S.readNext s 4
      some (.constant value, s)
    else if op = 0x0e then
      let (value, s) := S.readNext s 8
      some (.constant value, s)
    else if op = 0x87 then
      (parseTermArg turns s).map fun (arg, s) => (.call "SizeOf" [arg], s)
    else if op = 0x88 then
      (parseTermArg turns s).bind fun (src, s) =>
        (parseTermArg turns s).map fun (index, s) => (.call "Index" [src, index], s)
    else if op = 0x83 then
      (parseTermArg turns s).map fun (ref, s) => (.call "DerefOf" [ref], s)
    else if op = 0x95 then
      (parseTermArg turns s).bind fun (lhs, s) =>
        (parseTermArg turns s).map fun (rhs, s) => (.binary .eLess lhs rhs, s)
    else if isNameSegment op then
      (decodeName S turns s).map fun (name, s) => (.nameRef name, s)
    else some (.constant op.toNat, s)

/-! ## Named objects -/

/-- The switch of `CreateNamedObject`: `initialValue`, and `byteCount`. -/
def startNamedObject (turns : ℕ) (op : UInt8) (s : σ) : Option ((Option ℕ × ℕ) × σ) :=
  if op = 0x01 then some ((some 1, 0), s)
  else if op = 0x00 then some ((some 0, 0), s)
  else if op = 0x0e then some ((some 0, 4), s)
  else if op = 0x0c then some ((some 0, 3), s)
  else if op = 0x0b then some ((some 0, 2), s)
  else if op = 0x0a then some ((some 0, 1), s)
  else if op = 0x11 then
    let (_, s) := decodePkgLength S s
    (parseTermArg S turns s).map fun (_, s) => ((some 0, 0), s)
  else if op = 0x12 then
    let (_, s) := decodePkgLength S s
    (parseTermArg S turns s).bind fun (_, s) =>
      let (next, s) := S.peekNextByte s
      if isNameSegment next then (decodeName S turns s).map fun (_, s) => ((some 0, 0), s)
      else some ((some 0, 0), s)
  else some ((some 0, 0), s)

/-- One turn of the loop of `CreateNamedObject`. -/
def shiftInByte (vs : Option ℕ × σ) (i : ℕ) : Option ℕ × σ :=
  let initialValue := vs.1.getD 0
  let (next, s) := S.readU8 vs.2
  (some (initialValue ||| shiftByte next (4 + i * 8)), s)

/-- `CreateNamedObject`: the value of the `IntegerObject`, if there is one. -/
def createNamedObject (turns : ℕ) (s : σ) : Option (Option ℕ × σ) :=
  let (op, s) := S.readU8 s
  (startNamedObject S turns op s).map fun ((initialValue, byteCount), s) =>
    (List.range byteCount).foldl (shiftInByte S) (initialValue, s)

end Decoders

/-! ## Where a stream is -/

namespace ByteStream

variable {σ : Type} {S : ByteStream σ} {s : σ} {data bytes rest : List UInt8} {pos n : ℕ}
  {b : UInt8}

/-- The stream is over `data`, and the bytes from `pos` on are next. -/
structure At (S : ByteStream σ) (s : σ) (data : List UInt8) (pos : ℕ) : Prop where
  data_eq : S.data s = data
  offset_eq : S.offset s = pos
  le_length : pos ≤ data.length

theorem isPrefix_of_append (h : bytes ++ rest <+: data.drop pos) :
    bytes <+: data.drop pos ∧ rest <+: data.drop (pos + bytes.length) := by
  obtain ⟨tail, htail⟩ := h
  rw [List.append_assoc] at htail
  refine ⟨⟨rest ++ tail, htail⟩, tail, ?_⟩
  rw [← List.drop_drop, ← htail, List.drop_left]

/-- A byte, and what is behind it. -/
theorem isPrefix_of_cons (h : b :: rest <+: data.drop pos) :
    [b] <+: data.drop pos ∧ rest <+: data.drop (pos + 1) :=
  isPrefix_of_append h

theorem At.length_le (h : S.At s data pos) (hnext : bytes <+: data.drop pos) :
    pos + bytes.length ≤ data.length := by
  have hlength := hnext.length_le
  have hle := h.le_length
  rw [List.length_drop] at hlength
  omega

theorem At.seek (hS : S.Lawful) (h : S.At s data pos) (hn : n ≤ data.length) :
    S.At (S.seek s n) data n := by
  have hroom : n ≤ (S.data s).length := h.data_eq ▸ hn
  exact ⟨(hS.data_seek s n hroom).trans h.data_eq, hS.offset_seek s n hroom, hn⟩

theorem At.readNext (hS : S.Lawful) (h : S.At s data pos) (hnext : bytes <+: data.drop pos) :
    (S.readNext s bytes.length).1 = ofBytes bytes ∧
      S.At (S.readNext s bytes.length).2 data (pos + bytes.length) := by
  have hlength := h.length_le hnext
  have hroom : S.offset s + bytes.length ≤ (S.data s).length := by
    rw [h.data_eq, h.offset_eq]
    exact hlength
  constructor
  · rw [ByteStream.readNext, hS.bytes_read s _ hroom, h.data_eq, h.offset_eq,
      ← List.prefix_iff_eq_take.mp hnext]
  · refine ⟨(hS.data_read s _ hroom).trans h.data_eq, ?_, hlength⟩
    exact (hS.offset_read s _ hroom).trans (congrArg (· + bytes.length) h.offset_eq)

theorem At.readU8 (hS : S.Lawful) (h : S.At s data pos) (hnext : [b] <+: data.drop pos) :
    ∃ s', S.readU8 s = (b, s') ∧ S.At s' data (pos + 1) := by
  obtain ⟨hvalue, hat⟩ := h.readNext hS hnext
  have hone : ofBytes [b] = b.toNat := rfl
  rw [hone] at hvalue
  exact ⟨_, Prod.ext ((congrArg UInt8.ofNat hvalue).trans UInt8.ofNat_toNat) rfl, hat⟩

theorem At.peekNextByte (hS : S.Lawful) (h : S.At s data pos) (hnext : [b] <+: data.drop pos) :
    ∃ s', S.peekNextByte s = (b, s') ∧ S.At s' data pos := by
  obtain ⟨s', hread, hat⟩ := h.readU8 hS hnext
  have hback : S.offset s' - 1 = pos := by rw [hat.offset_eq]; rfl
  refine ⟨S.seek s' pos, ?_, hat.seek hS h.le_length⟩
  rw [ByteStream.peekNextByte, hread]
  dsimp only
  rw [hback]

end ByteStream

/-! ## Package lengths are decoded -/

/-- The encoding of a package length with `following` bytes behind the first one. -/
def encodePkgLength (following length : ℕ) : List UInt8 :=
  if following = 0 then [UInt8.ofNat length]
  else
    UInt8.ofNat (following * 64 + length % 16) ::
      (List.range following).map fun i => UInt8.ofNat (length / 2 ^ (4 + i * 8))

/-- The lengths that have an encoding with so many bytes behind the first one. -/
def PkgLengthFits (following length : ℕ) : Prop :=
  following ≤ 3 ∧ length < if following = 0 then 64 else 2 ^ (4 + following * 8)

instance (following length : ℕ) : Decidable (PkgLengthFits following length) :=
  inferInstanceAs (Decidable (_ ∧ _))

theorem length_encodePkgLength (following length : ℕ) :
    (encodePkgLength following length).length = following + 1 := by
  rw [encodePkgLength]
  split
  · rename_i hzero
    rw [hzero]
    rfl
  · rw [List.length_cons, List.length_map, List.length_range]

/-- What the first byte says. -/
theorem leadByte_eq {following n : ℕ} (hfollowing : following ≤ 3) (hn : n < 64) :
    ((UInt8.ofNat (following * 64 + n) >>> 6) &&& 0x03).toNat = following ∧
      (UInt8.ofNat (following * 64 + n) &&& 0x3f).toNat = n := by
  have hbyte : (UInt8.ofNat (following * 64 + n)).toNat = following * 64 + n := by
    rw [UInt8.toNat_ofNat', Nat.mod_eq_of_lt (by omega)]
  have hsix : (6 : UInt8).toNat % 8 = 6 := rfl
  have hthree : (0x03 : UInt8).toNat = 2 ^ 2 - 1 := rfl
  have hmask : (0x3f : UInt8).toNat = 2 ^ 6 - 1 := rfl
  constructor
  · rw [UInt8.toNat_and, UInt8.toNat_shiftRight, hbyte, hsix, hthree,
      Nat.and_two_pow_sub_one_eq_mod, Nat.shiftRight_eq_div_pow]
    omega
  · rw [UInt8.toNat_and, hbyte, hmask, Nat.and_two_pow_sub_one_eq_mod]
    omega

/-- A byte behind `n` low bits. -/
theorem or_shiftByte (length n : ℕ) (hn : n ≤ 24) :
    (length % 2 ^ n ||| shiftByte (UInt8.ofNat (length / 2 ^ n)) n) = length % 2 ^ (n + 8) := by
  have hbyte : (UInt8.ofNat (length / 2 ^ n)).toNat = length / 2 ^ n % 2 ^ 8 :=
    UInt8.toNat_ofNat'
  have hlow : length % 2 ^ n < 2 ^ n := Nat.mod_lt _ (Nat.two_pow_pos n)
  have hsmall : length / 2 ^ n % 2 ^ 8 * 2 ^ n < 2 ^ 32 := by
    have hpow : 2 ^ n ≤ 2 ^ 24 := Nat.pow_le_pow_right (by decide) hn
    have hmod : length / 2 ^ n % 2 ^ 8 < 2 ^ 8 := Nat.mod_lt _ (by decide)
    calc length / 2 ^ n % 2 ^ 8 * 2 ^ n < 2 ^ 8 * 2 ^ n :=
          Nat.mul_lt_mul_of_pos_right hmod (Nat.two_pow_pos n)
      _ ≤ 2 ^ 8 * 2 ^ 24 := Nat.mul_le_mul_left _ hpow
  rw [shiftByte, hbyte, Nat.shiftLeft_eq, Nat.mod_eq_of_lt hsmall, Nat.or_comm, Nat.mul_comm,
    ← Nat.two_pow_add_eq_or_of_lt hlow, Nat.pow_add, Nat.mod_mul, Nat.add_comm]

section PkgLength

variable {σ : Type} {S : ByteStream σ} {s : σ} {data : List UInt8} {pos : ℕ}

/-- The loop, by induction on the bytes that it reads. -/
theorem orNextByte_loop (hS : S.Lawful) (h : S.At s data pos) (length : ℕ) {count : ℕ}
    (hcount : count ≤ 3)
    (hnext : (List.range count).map (fun i => UInt8.ofNat (length / 2 ^ (4 + i * 8))) <+:
      data.drop pos) :
    ∃ s', (List.range count).foldl (orNextByte S) (length % 16, s) =
      (length % 2 ^ (4 + count * 8), s') ∧ S.At s' data (pos + count) := by
  induction count with
  | zero => exact ⟨s, rfl, h⟩
  | succ count ih =>
    rw [List.range_succ, List.map_append] at hnext
    obtain ⟨hbefore, hlast⟩ := ByteStream.isPrefix_of_append hnext
    rw [List.length_map, List.length_range] at hlast
    obtain ⟨s', hloop, hat⟩ := ih (Nat.le_of_succ_le hcount) hbefore
    obtain ⟨s'', hread, hat⟩ := hat.readU8 hS hlast
    refine ⟨s'', ?_, hat⟩
    rw [List.range_succ, List.foldl_append, hloop, List.foldl_cons, List.foldl_nil, orNextByte,
      hread]
    dsimp only
    rw [or_shiftByte length _ (by omega), Nat.succ_mul, Nat.add_assoc]

theorem decodePkgLength_at (hS : S.Lawful) (h : S.At s data pos) (following length : ℕ)
    (hfits : PkgLengthFits following length)
    (hnext : encodePkgLength following length <+: data.drop pos) :
    ∃ s', decodePkgLength S s = (length, s') ∧
      S.At s' data (pos + (encodePkgLength following length).length) := by
  obtain ⟨hfollowing, hlength⟩ := hfits
  rw [length_encodePkgLength]
  by_cases hzero : following = 0
  · subst hzero
    rw [if_pos rfl] at hlength
    rw [encodePkgLength, if_pos rfl] at hnext
    obtain ⟨s', hread, hat⟩ := h.readU8 hS hnext
    obtain ⟨hcount, hlow⟩ := leadByte_eq hfollowing hlength
    rw [Nat.zero_mul, Nat.zero_add] at hcount hlow
    refine ⟨s', ?_, hat⟩
    rw [decodePkgLength, hread]
    dsimp only
    rw [hcount, hlow]
    rfl
  · rw [if_neg hzero] at hlength
    rw [encodePkgLength, if_neg hzero] at hnext
    obtain ⟨hfirst, hrest⟩ := ByteStream.isPrefix_of_cons hnext
    obtain ⟨s', hread, hat⟩ := h.readU8 hS hfirst
    obtain ⟨hcount, hlow⟩ := leadByte_eq (n := length % 16) hfollowing (by omega)
    obtain ⟨s'', hloop, hat⟩ := orNextByte_loop hS hat length hfollowing hrest
    refine ⟨s'', ?_, by rwa [Nat.add_assoc, Nat.add_comm 1] at hat⟩
    rw [decodePkgLength, hread]
    dsimp only
    rw [hcount, hlow, hloop, Nat.mod_eq_of_lt hlength]

/-- **Decoding undoes encoding.** The bytes of an encoding, and no others, are consumed. -/
theorem decodePkgLength_encode (hS : S.Lawful) (following length : ℕ) (front rest : List UInt8)
    (hfits : PkgLengthFits following length)
    (hdata : S.data s = front ++ (encodePkgLength following length ++ rest))
    (hoffset : S.offset s = front.length) :
    ∃ s', decodePkgLength S s = (length, s') ∧ S.data s' = S.data s ∧
      S.offset s' = front.length + (encodePkgLength following length).length := by
  have hat : S.At s (S.data s) front.length := by
    refine ⟨rfl, hoffset, ?_⟩
    rw [hdata, List.length_append]
    exact Nat.le_add_right _ _
  have hnext : encodePkgLength following length <+: (S.data s).drop front.length := by
    rw [hdata, List.drop_left]
    exact List.prefix_append _ _
  obtain ⟨s', hdecode, hat'⟩ := decodePkgLength_at hS hat following length hfits hnext
  exact ⟨s', hdecode, hat'.data_eq, hat'.offset_eq⟩

end PkgLength

/-- A list of bytes with an offset. -/
def listStream : ByteStream (List UInt8 × ℕ) where
  make bytes := (bytes, 0)
  data := Prod.fst
  offset := Prod.snd
  read s n := ((s.1.drop s.2).take n, (s.1, s.2 + n))
  seek s n := (s.1, n)

theorem listStream_lawful : listStream.Lawful where
  data_make _ := rfl
  bytes_read _ _ _ := rfl
  data_read _ _ _ := rfl
  offset_read _ _ _ := rfl
  data_seek _ _ _ := rfl
  offset_seek _ _ _ := rfl

/-- The length `0x1234` with two bytes behind the first one. -/
theorem decodePkgLength_three_bytes :
    listStream.Lawful ∧ PkgLengthFits 2 0x1234 ∧
    ∃ s', decodePkgLength listStream ([0x10, 0x84, 0x23, 0x01, 0x00], 1) = (0x1234, s') ∧
      s'.1 = [0x10, 0x84, 0x23, 0x01, 0x00] ∧
      s'.2 = [(0x10 : UInt8)].length + (encodePkgLength 2 0x1234).length :=
  ⟨listStream_lawful, by decide,
    decodePkgLength_encode listStream_lawful 2 0x1234 [0x10] [0x00] (by decide) (by decide) rfl⟩

/-! ## Integers are decoded twice -/

/-- The operators that an integer stands behind. -/
inductive IntegerWidth
  | eBytePrefix | eWordPrefix | eDWordPrefix | eQWordPrefix
  deriving DecidableEq, Repr

namespace IntegerWidth

def op : IntegerWidth → UInt8
  | eBytePrefix => 0x0a
  | eWordPrefix => 0x0b
  | eDWordPrefix => 0x0c
  | eQWordPrefix => 0x0e

/-- The bytes of such an integer. -/
def size : IntegerWidth → ℕ
  | eBytePrefix => 1
  | eWordPrefix => 2
  | eDWordPrefix => 4
  | eQWordPrefix => 8

/-- The bytes that `CreateNamedObject` takes for it. -/
def byteCount : IntegerWidth → ℕ
  | eBytePrefix => 1
  | eWordPrefix => 2
  | eDWordPrefix => 3
  | eQWordPrefix => 4

theorem byteCount_le_size (w : IntegerWidth) : w.byteCount ≤ w.size := by
  cases w <;> decide

end IntegerWidth

/-- An integer in a stream. -/
inductive IntegerEncoding
  | eZero
  | eOne
  | eOnes
  | withPrefix (width : IntegerWidth) (bytes : List UInt8)
    (length_bytes : bytes.length = width.size)

namespace IntegerEncoding

def bytes : IntegerEncoding → List UInt8
  | eZero => [0x00]
  | eOne => [0x01]
  | eOnes => [0xff]
  | withPrefix width bytes _ => width.op :: bytes

def value : IntegerEncoding → ℕ
  | eZero => 0
  | eOne => 1
  | eOnes => wordCount - 1
  | withPrefix _ bytes _ => ofBytes bytes

/-- The integers that `CreateNamedObject` decodes: the constants 0 and 1, and a 0 of one or two
bytes. -/
def Decoded : IntegerEncoding → Prop
  | eZero | eOne => True
  | eOnes => False
  | withPrefix width bytes _ =>
    (width = .eBytePrefix ∨ width = .eWordPrefix) ∧ ofBytes bytes = 0

end IntegerEncoding

/-- The number that the loop of `CreateNamedObject` makes of bytes, from turn `i` on. -/
def orBytes (i : ℕ) (value : ℕ) : List UInt8 → ℕ
  | [] => value
  | b :: bytes => orBytes (i + 1) (value ||| shiftByte b (4 + i * 8)) bytes

namespace IntegerEncoding

/-- What `CreateNamedObject` makes of an integer. -/
def object : IntegerEncoding → ℕ
  | eZero => 0
  | eOne => 1
  | eOnes => 0
  | withPrefix width bytes _ => orBytes 0 0 (bytes.take width.byteCount)

/-- The bytes that `CreateNamedObject` takes for it. -/
def taken : IntegerEncoding → ℕ
  | eZero | eOne | eOnes => 1
  | withPrefix width _ _ => 1 + width.byteCount

theorem taken_le (e : IntegerEncoding) : e.taken ≤ e.bytes.length := by
  cases e with
  | eZero => exact Nat.le_refl 1
  | eOne => exact Nat.le_refl 1
  | eOnes => exact Nat.le_refl 1
  | withPrefix width bytes length_bytes =>
    rw [taken, IntegerEncoding.bytes, List.length_cons, length_bytes, Nat.add_comm]
    exact Nat.succ_le_succ width.byteCount_le_size

end IntegerEncoding

section Integers

variable {σ : Type} {S : ByteStream σ} {s : σ} {data : List UInt8} {pos : ℕ}

theorem parseTermArg_integer (hS : S.Lawful) (h : S.At s data pos) (e : IntegerEncoding)
    (hnext : e.bytes <+: data.drop pos) (turns : ℕ) :
    ∃ s', parseTermArg S (turns + 1) s = some (.constant e.value, s') ∧
      S.At s' data (pos + e.bytes.length) := by
  cases e with
  | eZero =>
    obtain ⟨s', hread, hat⟩ := h.readU8 hS hnext
    exact ⟨s', by rw [parseTermArg, hread]; rfl, hat⟩
  | eOne =>
    obtain ⟨s', hread, hat⟩ := h.readU8 hS hnext
    exact ⟨s', by rw [parseTermArg, hread]; rfl, hat⟩
  | eOnes =>
    obtain ⟨s', hread, hat⟩ := h.readU8 hS hnext
    exact ⟨s', by rw [parseTermArg, hread]; rfl, hat⟩
  | withPrefix width bytes length_bytes =>
    obtain ⟨hop, hbytes⟩ := ByteStream.isPrefix_of_cons hnext
    obtain ⟨s', hread, hat⟩ := h.readU8 hS hop
    obtain ⟨hvalue, hat⟩ := hat.readNext hS hbytes
    rw [length_bytes] at hvalue hat
    have hlength : (IntegerEncoding.withPrefix width bytes length_bytes).bytes.length =
        1 + width.size := by
      rw [IntegerEncoding.bytes, List.length_cons, length_bytes, Nat.add_comm]
    refine ⟨(S.readNext s' width.size).2, ?_, by rwa [hlength, ← Nat.add_assoc]⟩
    rw [parseTermArg, hread, IntegerEncoding.value, ← hvalue]
    cases width <;> rfl

theorem shiftInByte_loop (hS : S.Lawful) (h : S.At s data pos) (bytes : List UInt8) (i value : ℕ)
    (hnext : bytes <+: data.drop pos) :
    ∃ s', (List.range' i bytes.length).foldl (shiftInByte S) (some value, s) =
      (some (orBytes i value bytes), s') ∧ S.At s' data (pos + bytes.length) := by
  induction bytes generalizing s pos i value with
  | nil => exact ⟨s, rfl, h⟩
  | cons b bytes ih =>
    obtain ⟨hfirst, hrest⟩ := ByteStream.isPrefix_of_cons hnext
    obtain ⟨s', hread, hat⟩ := h.readU8 hS hfirst
    obtain ⟨s'', hloop, hat⟩ := ih hat (i + 1) (value ||| shiftByte b (4 + i * 8)) hrest
    refine ⟨s'', ?_, by rwa [List.length_cons, Nat.add_comm bytes.length, ← Nat.add_assoc]⟩
    rw [List.length_cons, List.range'_succ, List.foldl_cons, shiftInByte, hread]
    exact hloop

theorem createNamedObject_integer (hS : S.Lawful) (h : S.At s data pos) (e : IntegerEncoding)
    (hnext : e.bytes <+: data.drop pos) (turns : ℕ) :
    ∃ s', createNamedObject S turns s = some (some e.object, s') ∧
      S.At s' data (pos + e.taken) := by
  cases e with
  | eZero =>
    obtain ⟨s', hread, hat⟩ := h.readU8 hS hnext
    exact ⟨s', by rw [createNamedObject, hread]; rfl, hat⟩
  | eOne =>
    obtain ⟨s', hread, hat⟩ := h.readU8 hS hnext
    exact ⟨s', by rw [createNamedObject, hread]; rfl, hat⟩
  | eOnes =>
    obtain ⟨s', hread, hat⟩ := h.readU8 hS hnext
    exact ⟨s', by rw [createNamedObject, hread]; rfl, hat⟩
  | withPrefix width bytes length_bytes =>
    obtain ⟨hop, hbytes⟩ := ByteStream.isPrefix_of_cons hnext
    obtain ⟨s', hread, hat⟩ := h.readU8 hS hop
    have htaken : (bytes.take width.byteCount).length = width.byteCount := by
      rw [List.length_take, length_bytes, Nat.min_eq_left width.byteCount_le_size]
    obtain ⟨s'', hloop, hat⟩ := shiftInByte_loop hS hat (bytes.take width.byteCount) 0 0
      ((List.take_prefix _ _).trans hbytes)
    rw [htaken, ← List.range_eq_range'] at hloop
    rw [htaken] at hat
    refine ⟨s'', ?_, by rwa [IntegerEncoding.taken, ← Nat.add_assoc]⟩
    have hstart : startNamedObject S turns width.op s' = some ((some 0, width.byteCount), s') := by
      cases width <;> rfl
    rw [createNamedObject, hread]
    dsimp only
    rw [hstart, Option.map_some, hloop]
    rfl

/-- One or two bytes are taken for sixteen times their number. -/
theorem orBytes_byte (b : UInt8) : orBytes 0 0 [b] = 16 * ofBytes [b] := by
  have hb := b.toNat_lt
  rw [orBytes, orBytes, shiftByte, Nat.zero_or, Nat.shiftLeft_eq, Nat.mod_eq_of_lt (by omega)]
  exact Nat.mul_comm _ _

theorem orBytes_word (b c : UInt8) : orBytes 0 0 [b, c] = 16 * ofBytes [b, c] := by
  have hb := b.toNat_lt
  have hc := c.toNat_lt
  have hlow : b.toNat * 2 ^ 4 < 2 ^ 12 := by omega
  rw [orBytes, orBytes, orBytes, shiftByte, shiftByte, Nat.zero_or, Nat.shiftLeft_eq,
    Nat.shiftLeft_eq, Nat.mod_eq_of_lt (by omega), Nat.mod_eq_of_lt (by omega), Nat.or_comm,
    Nat.mul_comm c.toNat]
  change 2 ^ 12 * c.toNat ||| b.toNat * 2 ^ 4 = 16 * (b.toNat + 256 * (c.toNat + 256 * 0))
  rw [← Nat.two_pow_add_eq_or_of_lt hlow]
  omega

theorem decoded_iff (e : IntegerEncoding) :
    e.object = e.value ∧ e.taken = e.bytes.length ↔ e.Decoded := by
  cases e with
  | eZero => exact iff_of_true ⟨rfl, rfl⟩ trivial
  | eOne => exact iff_of_true ⟨rfl, rfl⟩ trivial
  | eOnes => exact iff_of_false (fun h => absurd h.1 (by decide)) not_false
  | withPrefix width bytes length_bytes =>
    have hlength : (IntegerEncoding.withPrefix width bytes length_bytes).bytes.length =
        1 + width.size := by
      rw [IntegerEncoding.bytes, List.length_cons, length_bytes, Nat.add_comm]
    rw [hlength]
    simp only [IntegerEncoding.object, IntegerEncoding.value, IntegerEncoding.taken,
      IntegerEncoding.Decoded]
    cases width with
    | eBytePrefix =>
      obtain ⟨b, rfl⟩ := List.length_eq_one_iff.mp length_bytes
      rw [show [b].take IntegerWidth.eBytePrefix.byteCount = [b] from rfl, orBytes_byte]
      simp only [IntegerWidth.byteCount, IntegerWidth.size, and_true, true_or, true_and]
      omega
    | eWordPrefix =>
      obtain ⟨b, c, rfl⟩ := List.length_eq_two.mp length_bytes
      rw [show [b, c].take IntegerWidth.eWordPrefix.byteCount = [b, c] from rfl, orBytes_word]
      simp only [IntegerWidth.byteCount, IntegerWidth.size, and_true, or_true, true_and]
      omega
    | eDWordPrefix => exact iff_of_false (fun h => absurd h.2 (by decide)) (by simp)
    | eQWordPrefix => exact iff_of_false (fun h => absurd h.2 (by decide)) (by simp)

/-- **Which integers both decoders agree on.** `CreateNamedObject` shifts the bytes by four bits too
much, takes three bytes of four and four of eight, and does not know `Ones`. -/
theorem createNamedObject_agrees_iff (hS : S.Lawful) (h : S.At s data pos) (e : IntegerEncoding)
    (hnext : e.bytes <+: data.drop pos) (turns : ℕ) :
    ∃ value s' object s'', parseTermArg S (turns + 1) s = some (.constant value, s') ∧
      createNamedObject S (turns + 1) s = some (some object, s'') ∧
      (object = value ∧ S.offset s' = pos + e.bytes.length ∧ S.offset s'' = pos + e.bytes.length ↔
        e.Decoded) := by
  obtain ⟨s', hparse, hat⟩ := parseTermArg_integer hS h e hnext turns
  obtain ⟨s'', hcreate, hat'⟩ := createNamedObject_integer hS h e hnext (turns + 1)
  refine ⟨_, s', _, s'', hparse, hcreate, ?_⟩
  rw [← decoded_iff, hat.offset_eq, hat'.offset_eq]
  omega

end Integers

theorem length_qword :
    ([0x88, 0x77, 0x66, 0x55, 0x44, 0x33, 0x22, 0x11] : List UInt8).length =
      IntegerWidth.eQWordPrefix.size := by
  decide

/-- The integer `0x1122334455667788`. -/
def qword : IntegerEncoding := .withPrefix .eQWordPrefix _ length_qword

theorem createNamedObject_agrees_qword :
    listStream.Lawful ∧ listStream.At (qword.bytes, 0) qword.bytes 0 ∧
    qword.bytes <+: qword.bytes.drop 0 ∧
    ∃ value s' object s'', parseTermArg listStream 1 (qword.bytes, 0) = some (.constant value, s') ∧
      createNamedObject listStream 1 (qword.bytes, 0) = some (some object, s'') ∧
      (object = value ∧ listStream.offset s' = 0 + qword.bytes.length ∧
        listStream.offset s'' = 0 + qword.bytes.length ↔ qword.Decoded) := by
  have hat : listStream.At (qword.bytes, 0) qword.bytes 0 := ⟨rfl, rfl, Nat.zero_le _⟩
  have hnext : qword.bytes <+: qword.bytes.drop 0 := List.prefix_rfl
  exact ⟨listStream_lawful, hat, hnext,
    createNamedObject_agrees_iff listStream_lawful hat qword hnext 0⟩

/-- Its lower half is taken for a number that is shifted out of place. -/
theorem not_agrees_qword :
    parseTermArg listStream 1 (qword.bytes, 0) =
        some (.constant 0x1122334455667788, (qword.bytes, 9)) ∧
      createNamedObject listStream 1 (qword.bytes, 0) =
        some (some 0x56677880, (qword.bytes, 5)) :=
  ⟨rfl, rfl⟩

end Cryptix.ACPI
