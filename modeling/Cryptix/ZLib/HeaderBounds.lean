import Cryptix.Lib.Checked
import Cryptix.ZLib.Events
import Cryptix.ZLib.PrefixCode

/-!
# The arrays of `DecodeCanonicalCodes`

`DecodeCanonicalCodes` and `DecodeBlock` once more, with every access to an array checked: one that
lies outside is a fault (`OutOfBounds`). The source does not check them, so the faults mark where
its behaviour is undefined.

What a header says is a `Header`: the code lengths as they are read, up to the declared total.
`DecodeCanonicalCodes` writes them one after the other, and looks at their number only at the end.
So it stays inside of its arrays exactly for the headers that fit (`Header.Fits`), and then rejects
every one that is not well formed. The tables of `DecodeBlock` are never left.
-/

namespace Cryptix.ZLib

open Lib Lib.CanonicalCode

/-- An index, and the size of the array that it lies outside of. -/
structure OutOfBounds where
  index : ℤ
  size : ℕ
  deriving DecidableEq, Repr

/-! ## Accesses -/

namespace Checked

/-- A read of an array of `size` elements. -/
def load (size : ℕ) (array : ℕ → ℕ) (index : ℤ) : Except OutOfBounds ℕ :=
  if 0 ≤ index ∧ index < size then .ok (array index.toNat) else .error ⟨index, size⟩

/-- A write to an array of `size` elements. -/
def store (size : ℕ) (array : ℕ → ℕ) (index value : ℕ) : Except OutOfBounds (ℕ → ℕ) :=
  if index < size then .ok (Function.update array index value) else .error ⟨index, size⟩

/-- `Memory::Fill`, from the index `start` on. -/
def fill (size : ℕ) (array : ℕ → ℕ) (start value count : ℕ) : Except OutOfBounds (ℕ → ℕ) :=
  if start + count ≤ size then
    .ok fun i => if start ≤ i ∧ i < start + count then value else array i
  else .error ⟨start + count - 1, size⟩

/-- The elements of a span. -/
def span (size : ℕ) (array : ℕ → ℕ) (start count : ℕ) : Except OutOfBounds (List ℕ) :=
  if start + count ≤ size then .ok ((List.range count).map fun i => array (start + i))
  else .error ⟨start + count - 1, size⟩

/-- A read of a table of constants. -/
def loadTable (table : List ℕ) (index : ℤ) : Except OutOfBounds ℕ :=
  load table.length (table.getD · 0) index

/-! ## `DecodeCanonicalCodes` -/

/-- The loop over `codeLengthCodeLengths`. -/
def readCodeLengthCodeLengths (codeLengthCodeCount : ℕ) (stream : BitStream) :
    Except OutOfBounds ((ℕ → ℕ) × BitStream) :=
  (List.range codeLengthCodeCount).foldlM
    (fun (lengths, stream) (i : ℕ) => do
      let symbol ← loadTable Decompressor.codeLengthOrder i
      let (length, stream) := BitStream.readBits stream 3
      let lengths ← store 19 lengths symbol length
      .ok (lengths, stream))
    (fun _ => 0, stream)

/-- The size of `allCodeLengths`. -/
def maxCodeLengths : ℕ := 320

/-- The loop over `allCodeLengths`, for at most `n` turns, with `none` for an invalid code
length. -/
def readCodeLengths (tree : HuffmanTree) (totalCodes : ℕ) :
    ℕ → (ℕ → ℕ) → ℕ → BitStream → Except OutOfBounds (Option ((ℕ → ℕ) × ℕ × BitStream))
  | 0, allCodeLengths, i, stream => .ok (some (allCodeLengths, i, stream))
  | n + 1, allCodeLengths, i, stream =>
    if i ≥ totalCodes then .ok (some (allCodeLengths, i, stream))
    else
      match tree.decode stream with
      | (none, _) => .ok none
      | (some symbol, stream) =>
        if symbol ≤ 15 then do
          let allCodeLengths ← store maxCodeLengths allCodeLengths i symbol
          readCodeLengths tree totalCodes n allCodeLengths (i + 1) stream
        else if symbol = 16 then do
          let value ← load maxCodeLengths allCodeLengths ((i : ℤ) - 1)
          let (extra, stream) := stream.readBits 2
          let allCodeLengths ← fill maxCodeLengths allCodeLengths i value (extra + 3)
          readCodeLengths tree totalCodes n allCodeLengths (i + (extra + 3)) stream
        else if symbol = 17 then do
          let (extra, stream) := stream.readBits 3
          let allCodeLengths ← fill maxCodeLengths allCodeLengths i 0 (extra + 3)
          readCodeLengths tree totalCodes n allCodeLengths (i + (extra + 3)) stream
        else if symbol = 18 then do
          let (extra, stream) := stream.readBits 7
          let allCodeLengths ← fill maxCodeLengths allCodeLengths i 0 (extra + 11)
          readCodeLengths tree totalCodes n allCodeLengths (i + (extra + 11)) stream
        else .ok none

/-- `DecodeCanonicalCodes`, with `none` for a result of false. The array `allCodeLengths` is not
initialised. -/
def decodeCanonicalCodes (m : Memory) (allCodeLengths : ℕ → ℕ) (d : Decompressor)
    (stream : BitStream) : Except OutOfBounds (Option (Decompressor × BitStream)) := do
  let (literalBits, stream) := stream.readBits 5
  let (distanceBits, stream) := stream.readBits 5
  let (codeLengthBits, stream) := stream.readBits 4
  let literalCodeCount := literalBits + 257
  let distanceCodeCount := distanceBits + 1
  let totalCodes := literalCodeCount + distanceCodeCount
  let (codeLengthCodeLengths, stream) ← readCodeLengthCodeLengths (codeLengthBits + 4) stream
  let lengths ← span 19 codeLengthCodeLengths 0 19
  match m.tree.build lengths with
  | none => .ok none
  | some codeLengthTree =>
    match ← readCodeLengths codeLengthTree totalCodes totalCodes allCodeLengths 0 stream with
    | none => .ok none
    | some (allCodeLengths, i, stream) =>
      if i ≠ totalCodes then .ok none
      else do
        let literalLengths ← span maxCodeLengths allCodeLengths 0 literalCodeCount
        let distanceLengths ←
          span maxCodeLengths allCodeLengths literalCodeCount distanceCodeCount
        .ok ((d.buildTrees literalLengths distanceLengths).map fun d => (d, stream))

/-! ## `DecodeBlock` -/

/-- A length or a distance: the base of its symbol and the bits after the word. -/
def readValue (base extraBits : List ℕ) (symbol : ℤ) (stream : BitStream) :
    Except OutOfBounds (ℕ × BitStream) := do
  let value ← loadTable base symbol
  let extra ← loadTable extraBits symbol
  if extra ≠ 0 then
    let (bits, stream) := stream.readBits extra
    .ok (value + bits, stream)
  else .ok (value, stream)

/-- `DecodeBlock`, for at most `n` turns of its loop. -/
def decodeBlock (m : Memory) :
    ℕ → Decompressor → ℕ → BitStream →
      Except OutOfBounds (Except Failure (Decompressor × BitStream))
  | 0, _, _, _ => .ok (.error .endless)
  | n + 1, d, currentPointer, stream =>
    match d.literalLengthTree.decode stream with
    | (none, _) => .ok (.error (.failed d))
    | (some symbol, stream) =>
      if symbol < 256 then
        if currentPointer ≥ d.outputEnd then
          match d.ensureCapacity m 4096 with
          | .error e => .ok (.error e)
          | .ok d =>
            decodeBlock m n (d.storeByte d.outputPointer (UInt8.ofNat symbol))
              (d.outputPointer + 1) stream
        else
          decodeBlock m n (d.storeByte currentPointer (UInt8.ofNat symbol)) (currentPointer + 1)
            stream
      else if symbol = 256 then .ok (.ok ({ d with outputPointer := currentPointer }, stream))
      else if symbol ≥ 286 then .ok (.error (.failed d))
      else do
        let (len, stream) ← readValue Decompressor.lengthBase Decompressor.lengthExtraBits
          ((symbol : ℤ) - 257) stream
        match d.distanceTree.decode stream with
        | (none, _) => .ok (.error (.failed d))
        | (some symbol, stream) =>
          if symbol ≥ 30 then .ok (.error (.failed d))
          else do
            let (distance, stream) ←
              readValue Decompressor.distBase Decompressor.distExtraBits symbol stream
            if currentPointer < distance then .ok (.error (.failed d))
            else if currentPointer + len ≥ d.outputEnd then
              match d.ensureCapacity m (len * 2) with
              | .error e => .ok (.error e)
              | .ok d =>
                let buffer := Decompressor.copyBytes distance len (d.outputPointer - distance)
                  d.outputPointer d.outputBuffer
                decodeBlock m n { d with outputBuffer := buffer } (d.outputPointer + len) stream
            else
              let buffer := Decompressor.copyBytes distance len (currentPointer - distance)
                currentPointer d.outputBuffer
              decodeBlock m n { d with outputBuffer := buffer } (currentPointer + len) stream

end Checked

/-! ## What a header says -/

/-- The next code length of a header, or `none` if there is none. -/
def HuffmanTree.nextCodeLength (tree : HuffmanTree) (stream : BitStream) :
    Option (Deflate.CodeLength × BitStream) :=
  match tree.decode stream with
  | (none, _) => none
  | (some symbol, stream) =>
    if symbol ≤ 15 then some (.length symbol, stream)
    else if symbol = 16 then
      let (extra, stream) := stream.readBits 2
      some (.repeatLast extra, stream)
    else if symbol = 17 then
      let (extra, stream) := stream.readBits 3
      some (.zeros extra, stream)
    else if symbol = 18 then
      let (extra, stream) := stream.readBits 7
      some (.manyZeros extra, stream)
    else none

/-- The code lengths after the lengths `lengths`, up to the declared total, and what follows them;
`none` follows a code length that there is not. -/
def HuffmanTree.codeLengthsFrom (tree : HuffmanTree) (total : ℕ) :
    ℕ → List ℕ → BitStream → List Deflate.CodeLength × Option BitStream
  | 0, _, stream => ([], some stream)
  | n + 1, lengths, stream =>
    if lengths.length ≥ total then ([], some stream)
    else
      match tree.nextCodeLength stream with
      | none => ([], none)
      | some (c, stream) =>
        (c :: (codeLengthsFrom tree total n (c.apply lengths) stream).1,
          (codeLengthsFrom tree total n (c.apply lengths) stream).2)

/-- The header of a dynamic block. -/
structure Header where
  literalCount : ℕ
  distanceCount : ℕ
  codeLengthCode : List ℕ
  codeLengths : List Deflate.CodeLength
  rest : Option BitStream

namespace Header

/-- The header at the front of a stream. Without a tree for them there are no code lengths. -/
def read (tree : HuffmanTree) (stream : BitStream) : Header :=
  let (literalBits, stream) := stream.readBits 5
  let (distanceBits, stream) := stream.readBits 5
  let (codeLengthBits, stream) := stream.readBits 4
  let total := literalBits + 257 + (distanceBits + 1)
  let (lengths, stream) := Decompressor.readCodeLengthCodeLengths
    (Decompressor.codeLengthOrder.take (codeLengthBits + 4)) (fun _ => 0) stream
  let code := (List.range 19).map lengths
  let (codeLengths, rest) := match tree.build code with
    | none => ([], none)
    | some tree => tree.codeLengthsFrom total total [] stream
  ⟨literalBits + 257, distanceBits + 1, code, codeLengths, rest⟩

variable (h : Header)

/-- The lengths of the words of both codes. -/
def lengths : List ℕ := h.codeLengths.foldl Deflate.CodeLength.apply []

/-- What `DecodeCanonicalCodes` makes of the header. -/
def result (d : Decompressor) : Option (Decompressor × BitStream) :=
  h.rest.bind fun stream =>
    if h.lengths.length ≠ h.literalCount + h.distanceCount then none
    else (d.buildTrees (h.lengths.take h.literalCount) (h.lengths.drop h.literalCount)).map
      fun d => (d, stream)

/-- The first code length is not a repetition. -/
def StartsWithLength : Prop := ∀ extra, h.codeLengths.head? ≠ some (.repeatLast extra)

/-- A header that `DecodeCanonicalCodes` has room for. -/
structure Fits : Prop where
  startsWithLength : h.StartsWithLength
  length_le : h.lengths.length ≤ Checked.maxCodeLengths

/-- A header that gives as many lengths as it declares, of two prefix codes. -/
structure WellFormed : Prop where
  kraft : Kraft h.codeLengthCode
  ends : h.rest.isSome
  startsWithLength : h.StartsWithLength
  total : h.lengths.length = h.literalCount + h.distanceCount
  literal : Kraft (h.lengths.take h.literalCount)
  distance : Kraft (h.lengths.drop h.literalCount)

end Header

/-! ## The loop over `allCodeLengths` -/

/-- The code lengths after the lengths `lengths` stay inside of `allCodeLengths`. -/
def FitsFrom : List ℕ → List Deflate.CodeLength → Prop
  | _, [] => True
  | lengths, c :: cs =>
    ((∀ extra, c = .repeatLast extra → lengths ≠ []) ∧
      (c.apply lengths).length ≤ Checked.maxCodeLengths) ∧ FitsFrom (c.apply lengths) cs

theorem fitsFrom_iff {lengths : List ℕ} {cs : List Deflate.CodeLength} (hne : lengths ≠ [])
    (hle : lengths.length ≤ Checked.maxCodeLengths) :
    FitsFrom lengths cs ↔
      (cs.foldl Deflate.CodeLength.apply lengths).length ≤ Checked.maxCodeLengths := by
  induction cs generalizing lengths with
  | nil => exact iff_of_true trivial hle
  | cons c cs ih =>
    have hlt := Decompressor.length_lt_length_apply c lengths
    have hne' : c.apply lengths ≠ [] := List.length_pos_iff.mp (Nat.zero_lt_of_lt hlt)
    constructor
    · rintro ⟨⟨-, hle'⟩, hrest⟩
      exact (ih hne' hle').mp hrest
    · intro hall
      have hle' : (c.apply lengths).length ≤ Checked.maxCodeLengths :=
        (le_self_add.trans (Decompressor.length_add_length_le_foldl cs _)).trans hall
      exact ⟨⟨fun _ _ => hne, hle'⟩, (ih hne' hle').mpr hall⟩

theorem Header.fits_iff (h : Header) : h.Fits ↔ FitsFrom [] h.codeLengths := by
  obtain ⟨literalCount, distanceCount, code, cs, rest⟩ := h
  cases cs with
  | nil => exact iff_of_true ⟨nofun, Nat.zero_le _⟩ trivial
  | cons c cs =>
    have hlt := Decompressor.length_lt_length_apply c []
    have hne : c.apply [] ≠ [] := List.length_pos_iff.mp (Nat.zero_lt_of_lt hlt)
    constructor
    · rintro ⟨hstart, hall⟩
      have hle : (c.apply []).length ≤ Checked.maxCodeLengths :=
        (le_self_add.trans (Decompressor.length_add_length_le_foldl cs _)).trans hall
      refine ⟨⟨fun extra hc => absurd (congrArg some hc) (hstart extra), hle⟩, ?_⟩
      exact (fitsFrom_iff hne hle).mpr hall
    · rintro ⟨⟨hstart, hle⟩, hrest⟩
      exact ⟨fun extra hc => hstart extra (Option.some.inj hc) rfl, (fitsFrom_iff hne hle).mp hrest⟩

/-- An array that starts with the elements of a list. -/
def overlay (array : ℕ → ℕ) (lengths : List ℕ) (i : ℕ) : ℕ :=
  if i < lengths.length then lengths.getD i 0 else array i

section Overlay

variable {array : ℕ → ℕ} {lengths : List ℕ} {n v : ℕ}

theorem overlay_nil : overlay array [] = array := rfl

theorem overlay_append_replicate :
    overlay array (lengths ++ List.replicate n v) = fun i =>
      if lengths.length ≤ i ∧ i < lengths.length + n then v else overlay array lengths i := by
  funext i
  rw [overlay, List.length_append, List.length_replicate, overlay]
  by_cases hlt : i < lengths.length
  · rw [if_pos (by omega), if_neg (by omega), if_pos hlt, List.getD_append _ _ _ _ hlt]
  · by_cases hnew : i < lengths.length + n
    · rw [if_pos hnew, if_pos ⟨by omega, hnew⟩, List.getD_append_right _ _ _ _ (by omega),
        List.getD_replicate _ (by omega)]
    · rw [if_neg hnew, if_neg (by omega), if_neg hlt]

theorem overlay_append_singleton :
    overlay array (lengths ++ [v]) = Function.update (overlay array lengths) lengths.length v := by
  rw [← List.replicate_one, overlay_append_replicate]
  funext i
  by_cases hi : i = lengths.length
  · rw [hi, Function.update_self, if_pos ⟨le_rfl, Nat.lt_succ_self _⟩]
  · rw [Function.update_of_ne hi, if_neg (by omega)]

theorem overlay_last (hne : lengths ≠ []) :
    overlay array lengths (lengths.length - 1) = lengths.getLastD 0 := by
  have hpos := List.length_pos_iff.mpr hne
  rw [overlay, if_pos (by omega), List.getLastD_eq_getLast?, List.getLast?_eq_getElem?,
    List.getD_eq_getElem?_getD]

theorem map_overlay {start count : ℕ} (hle : start + count ≤ lengths.length) :
    (List.range count).map (fun i => overlay array lengths (start + i)) =
      (lengths.drop start).take count := by
  refine List.ext_getElem (by simp; omega) fun i hi _ => ?_
  rw [List.length_map, List.length_range] at hi
  rw [List.getElem_map, List.getElem_range, overlay, if_pos (by omega), List.getElem_take,
    List.getElem_drop, List.getD_eq_getElem _ _ (by omega)]

end Overlay

namespace Checked

variable {array : ℕ → ℕ} {lengths : List ℕ} {tree : HuffmanTree} {total n : ℕ}
  {stream : BitStream}

theorem load_computes (size : ℕ) (array : ℕ → ℕ) (index : ℤ) :
    Computes (load size array index) (0 ≤ index ∧ index < size) (array index.toNat) :=
  (Computes.guard fun _ => Computes.pure _).congr (iff_of_eq (and_true _))

theorem store_computes (size : ℕ) (array : ℕ → ℕ) (index value : ℕ) :
    Computes (store size array index value) (index < size)
      (Function.update array index value) :=
  (Computes.guard fun _ => Computes.pure _).congr (iff_of_eq (and_true _))

theorem fill_computes (size value count : ℕ) (array : ℕ → ℕ) (lengths : List ℕ) :
    Computes (fill size (overlay array lengths) lengths.length value count)
      (lengths.length + count ≤ size) (overlay array (lengths ++ List.replicate count value)) := by
  rw [overlay_append_replicate]
  exact (Computes.guard fun _ => Computes.pure _).congr (iff_of_eq (and_true _))

theorem span_computes (size start count : ℕ) (array : ℕ → ℕ) :
    Computes (span size array start count) (start + count ≤ size)
      ((List.range count).map fun i => array (start + i)) :=
  (Computes.guard fun _ => Computes.pure _).congr (iff_of_eq (and_true _))

/-- What a turn of the loop over `allCodeLengths` writes. -/
def putCodeLength (allCodeLengths : ℕ → ℕ) (i : ℕ) :
    Deflate.CodeLength → Except OutOfBounds (ℕ → ℕ)
  | .length l => store maxCodeLengths allCodeLengths i l
  | .repeatLast extra => do
    let value ← load maxCodeLengths allCodeLengths ((i : ℤ) - 1)
    fill maxCodeLengths allCodeLengths i value (extra + 3)
  | .zeros extra => fill maxCodeLengths allCodeLengths i 0 (extra + 3)
  | .manyZeros extra => fill maxCodeLengths allCodeLengths i 0 (extra + 11)

/-- A turn stays inside of the array if it does not repeat what is not there, and ends inside. -/
theorem putCodeLength_computes (c : Deflate.CodeLength) (hlt : lengths.length < maxCodeLengths) :
    Computes (putCodeLength (overlay array lengths) lengths.length c)
      ((∀ extra, c = .repeatLast extra → lengths ≠ []) ∧
        (c.apply lengths).length ≤ maxCodeLengths)
      (overlay array (c.apply lengths)) := by
  cases c with
  | length l =>
    rw [Deflate.CodeLength.apply, overlay_append_singleton, List.length_append]
    exact (store_computes _ _ _ _).congr (and_iff_right fun _ h => by cases h).symm
  | repeatLast extra =>
    have hload : Computes
        (load maxCodeLengths (overlay array lengths) ((lengths.length : ℤ) - 1)) (lengths ≠ [])
        (overlay array lengths (lengths.length - 1)) := by
      have hindex : ((lengths.length : ℤ) - 1).toNat = lengths.length - 1 := by omega
      rw [← hindex]
      refine (load_computes _ _ _).congr ?_
      rw [← List.length_pos_iff]
      omega
    refine (hload.bind fun hne => ?_).congr
      (and_congr_left' ⟨fun h _ _ => h, fun h => h extra rfl⟩)
    rw [overlay_last hne, Deflate.CodeLength.apply, List.length_append, List.length_replicate]
    exact fill_computes _ _ _ _ _
  | zeros extra =>
    refine (fill_computes maxCodeLengths 0 (extra + 3) array lengths).congr ?_
    rw [Deflate.CodeLength.apply, List.length_append, List.length_replicate]
    exact (and_iff_right fun _ h => by cases h).symm
  | manyZeros extra =>
    refine (fill_computes maxCodeLengths 0 (extra + 11) array lengths).congr ?_
    rw [Deflate.CodeLength.apply, List.length_append, List.length_replicate]
    exact (and_iff_right fun _ h => by cases h).symm

/-- A turn of the loop takes one code length. -/
theorem readCodeLengths_succ (hlt : lengths.length < total) :
    readCodeLengths tree total (n + 1) array lengths.length stream =
      match tree.nextCodeLength stream with
      | none => .ok none
      | some (c, s) => putCodeLength array lengths.length c >>= fun array =>
        readCodeLengths tree total n array (c.apply lengths).length s := by
  rw [readCodeLengths, if_neg (Nat.not_le.mpr hlt), HuffmanTree.nextCodeLength]
  obtain ⟨⟨symbol, s⟩, hdecode⟩ : ∃ r, tree.decode stream = r := ⟨_, rfl⟩
  rw [hdecode]
  cases symbol with
  | none => rfl
  | some symbol =>
    dsimp only
    by_cases hlength : symbol ≤ 15
    · rw [if_pos hlength, if_pos hlength]
      simp only [putCodeLength, Deflate.CodeLength.apply, List.length_append, List.length_singleton]
    rw [if_neg hlength, if_neg hlength]
    by_cases hrepeat : symbol = 16
    · rw [if_pos hrepeat, if_pos hrepeat]
      simp only [putCodeLength, Deflate.CodeLength.apply, List.length_append,
        List.length_replicate, bind_assoc]
    rw [if_neg hrepeat, if_neg hrepeat]
    by_cases hzeros : symbol = 17
    · rw [if_pos hzeros, if_pos hzeros]
      simp only [putCodeLength, Deflate.CodeLength.apply, List.length_append,
        List.length_replicate]
    rw [if_neg hzeros, if_neg hzeros]
    by_cases hmany : symbol = 18
    · rw [if_pos hmany, if_pos hmany]
      simp only [putCodeLength, Deflate.CodeLength.apply, List.length_append,
        List.length_replicate]
    · rw [if_neg hmany, if_neg hmany]

/-- The loop stays inside of `allCodeLengths` exactly if the code lengths fit, and leaves them
there. -/
theorem readCodeLengths_computes (htotal : total ≤ maxCodeLengths) :
    Computes (readCodeLengths tree total n (overlay array lengths) lengths.length stream)
      (FitsFrom lengths (tree.codeLengthsFrom total n lengths stream).1)
      ((tree.codeLengthsFrom total n lengths stream).2.map fun s =>
        let all := (tree.codeLengthsFrom total n lengths stream).1.foldl Deflate.CodeLength.apply
          lengths
        (overlay array all, all.length, s)) := by
  induction n generalizing lengths stream with
  | zero => exact Computes.pure _
  | succ n ih =>
    by_cases hge : lengths.length ≥ total
    · rw [readCodeLengths, HuffmanTree.codeLengthsFrom, if_pos hge, if_pos hge]
      exact Computes.pure _
    · rw [readCodeLengths_succ (Nat.lt_of_not_le hge), HuffmanTree.codeLengthsFrom, if_neg hge]
      cases hnext : tree.nextCodeLength stream with
      | none => exact Computes.pure _
      | some next =>
        obtain ⟨c, s⟩ := next
        have hlt : lengths.length < maxCodeLengths := by omega
        exact (putCodeLength_computes c hlt).bind fun _ => ih

/-! ## The whole of `DecodeCanonicalCodes` -/

theorem readCodeLengthCodeLengths_concat (order : List ℕ) (symbol : ℕ) (f : ℕ → ℕ)
    (s : BitStream) :
    Decompressor.readCodeLengthCodeLengths (order ++ [symbol]) f s =
      let (lengths, s) := Decompressor.readCodeLengthCodeLengths order f s
      let (length, s) := s.readBits 3
      (Function.update lengths symbol length, s) := by
  induction order generalizing f s with
  | nil => rfl
  | cons symbol' order ih => exact ih _ _

/-- The loop over `codeLengthCodeLengths` stays inside of both arrays. -/
theorem readCodeLengthCodeLengths_eq {count : ℕ} (hcount : count ≤ 19) (s : BitStream) :
    readCodeLengthCodeLengths count s = .ok (Decompressor.readCodeLengthCodeLengths
      (Decompressor.codeLengthOrder.take count) (fun _ => 0) s) := by
  have horder : ∀ i < 19, Decompressor.codeLengthOrder.getD i 0 < 19 ∧
      Decompressor.codeLengthOrder.take (i + 1) = Decompressor.codeLengthOrder.take i ++
        [Decompressor.codeLengthOrder.getD i 0] := by decide
  let S (i : ℕ) := Decompressor.readCodeLengthCodeLengths
    (Decompressor.codeLengthOrder.take i) (fun _ => 0) s
  have hloop : Computes (readCodeLengthCodeLengths count s) (∀ i < count, True) (S count) := by
    rw [readCodeLengthCodeLengths]
    refine @Computes.foldlM_range _ _ _ S (fun _ => True) count fun i hi _ => ?_
    obtain ⟨hlt, htake⟩ := horder i (by omega)
    have hload : loadTable Decompressor.codeLengthOrder i =
        .ok (Decompressor.codeLengthOrder.getD i 0) :=
      (load_computes _ _ _).ok ⟨Int.natCast_nonneg i, Int.ofNat_lt.mpr (hi.trans_le hcount)⟩
    have hstore (array : ℕ → ℕ) (length : ℕ) := (store_computes 19 array _ length).ok hlt
    refine ⟨fun _ => ?_, fun h => absurd trivial h⟩
    simp only [S, htake, readCodeLengthCodeLengths_concat, hload, hstore, bind, Except.bind]
  exact hloop.ok fun _ _ => trivial

/-- The last checks of `DecodeCanonicalCodes`, when the code lengths have been read. -/
theorem buildTrees_computes {literalCount distanceCount : ℕ} (array : ℕ → ℕ) (d : Decompressor)
    (lengths : List ℕ) (s : BitStream) (hle : literalCount + distanceCount ≤ maxCodeLengths) :
    Computes
      (if lengths.length ≠ literalCount + distanceCount then .ok none
      else do
        let literalLengths ← span maxCodeLengths (overlay array lengths) 0 literalCount
        let distanceLengths ←
          span maxCodeLengths (overlay array lengths) literalCount distanceCount
        .ok ((d.buildTrees literalLengths distanceLengths).map fun d => (d, s)))
      True
      (if lengths.length ≠ literalCount + distanceCount then none
      else (d.buildTrees (lengths.take literalCount) (lengths.drop literalCount)).map
        fun d => (d, s)) := by
  by_cases htotal : lengths.length = literalCount + distanceCount
  · rw [if_neg (not_not.mpr htotal), if_neg (not_not.mpr htotal)]
    have hliteral := (span_computes maxCodeLengths 0 literalCount (overlay array lengths)).ok
      (by omega)
    have hdistance := (span_computes maxCodeLengths literalCount distanceCount
      (overlay array lengths)).ok hle
    rw [map_overlay (by omega), List.drop_zero] at hliteral
    rw [map_overlay htotal.ge, List.take_of_length_le (by simp; omega)] at hdistance
    simp only [hliteral, hdistance, bind, Except.bind]
    exact Computes.pure _
  · rw [if_pos htotal, if_pos htotal]
    exact Computes.pure _

/-- `DecodeCanonicalCodes` stays inside of its arrays exactly for the headers that fit. -/
theorem decodeCanonicalCodes_computes (m : Memory) (allCodeLengths : ℕ → ℕ) (d : Decompressor)
    (s : BitStream) :
    Computes (decodeCanonicalCodes m allCodeLengths d s) (Header.read m.tree s).Fits
      ((Header.read m.tree s).result d) := by
  rw [decodeCanonicalCodes, Header.fits_iff, Header.read]
  obtain ⟨⟨literalBits, s₁⟩, hliteral⟩ : ∃ r, s.readBits 5 = r := ⟨_, rfl⟩
  obtain ⟨⟨distanceBits, s₂⟩, hdistance⟩ : ∃ r, s₁.readBits 5 = r := ⟨_, rfl⟩
  obtain ⟨⟨codeLengthBits, s₃⟩, hcount⟩ : ∃ r, s₂.readBits 4 = r := ⟨_, rfl⟩
  have hliteral' : literalBits < 2 ^ 5 := by
    have hlt := Decompressor.readBits_lt 5 s
    rwa [hliteral] at hlt
  have hdistance' : distanceBits < 2 ^ 5 := by
    have hlt := Decompressor.readBits_lt 5 s₁
    rwa [hdistance] at hlt
  have hcount' : codeLengthBits < 2 ^ 4 := by
    have hlt := Decompressor.readBits_lt 4 s₂
    rwa [hcount] at hlt
  have hmax : literalBits + 257 + (distanceBits + 1) ≤ maxCodeLengths := by
    rw [maxCodeLengths]
    omega
  simp only [hliteral, hdistance, hcount, readCodeLengthCodeLengths_eq
    (show codeLengthBits + 4 ≤ 19 by omega)]
  obtain ⟨⟨f, s₄⟩, hlengths⟩ : ∃ r, Decompressor.readCodeLengthCodeLengths
    (Decompressor.codeLengthOrder.take (codeLengthBits + 4)) (fun _ => 0) s₃ = r := ⟨_, rfl⟩
  have hspan := (span_computes 19 0 19 f).ok le_rfl
  simp only [Nat.zero_add] at hspan
  simp only [hlengths, hspan, bind, Except.bind]
  cases hbuild : m.tree.build ((List.range 19).map f) with
  | none => exact Computes.pure _
  | some tree =>
    have hloop := @readCodeLengths_computes allCodeLengths [] tree _
      (literalBits + 257 + (distanceBits + 1)) s₄ hmax
    refine ⟨fun hfits => ?_, fun hmisfit => ?_⟩
    · have hcodes := hloop.ok hfits
      rw [overlay_nil, List.length_nil] at hcodes
      simp only [hcodes, Header.result]
      cases (tree.codeLengthsFrom (literalBits + 257 + (distanceBits + 1))
        (literalBits + 257 + (distanceBits + 1)) [] s₄).2 with
      | none => rfl
      | some s₅ => exact (buildTrees_computes allCodeLengths d _ s₅ hmax).ok trivial
    · obtain ⟨e, he⟩ := hloop.fault hmisfit
      rw [overlay_nil, List.length_nil] at he
      simp only [he]
      exact ⟨e, rfl⟩

end Checked

/-! ## Which headers are accepted -/

section Accepted

variable {m : Memory} {tree : HuffmanTree} {total n : ℕ} {lengths : List ℕ}
  {s stream : BitStream} {d : Decompressor}

namespace Decompressor

/-- A turn of the loop over `allCodeLengths` that repeats nothing, or a length that is there. -/
theorem readCodeLengths_succ (hlt : lengths.length < total) {c : Deflate.CodeLength}
    {s : BitStream} (hnext : tree.nextCodeLength stream = some (c, s))
    (hrepeat : ∀ extra, c = .repeatLast extra → lengths ≠ []) :
    readCodeLengths m tree total (n + 1) lengths stream =
      readCodeLengths m tree total n (c.apply lengths) s := by
  rw [HuffmanTree.nextCodeLength] at hnext
  rw [readCodeLengths, if_neg (Nat.not_le.mpr hlt)]
  obtain ⟨⟨symbol, s₁⟩, hdecode⟩ : ∃ r, tree.decode stream = r := ⟨_, rfl⟩
  rw [hdecode] at hnext ⊢
  cases symbol with
  | none => cases hnext
  | some symbol =>
    dsimp only at hnext ⊢
    by_cases hlength : symbol ≤ 15
    · rw [if_pos hlength] at hnext ⊢
      obtain ⟨rfl, rfl⟩ := Prod.mk.inj (Option.some.inj hnext)
      rfl
    rw [if_neg hlength] at hnext ⊢
    by_cases hsixteen : symbol = 16
    · rw [if_pos hsixteen] at hnext ⊢
      obtain ⟨rfl, rfl⟩ := Prod.mk.inj (Option.some.inj hnext)
      have hne := hrepeat _ rfl
      have hlast : lengths.getLastD m.codeLength = lengths.getLastD 0 := by
        rw [List.getLastD_eq_getLast?, List.getLastD_eq_getLast?,
          List.getLast?_eq_getLast_of_ne_nil hne]
        rfl
      rw [Deflate.CodeLength.apply, hlast]
    rw [if_neg hsixteen] at hnext ⊢
    by_cases hzeros : symbol = 17
    · rw [if_pos hzeros] at hnext ⊢
      obtain ⟨rfl, rfl⟩ := Prod.mk.inj (Option.some.inj hnext)
      rfl
    rw [if_neg hzeros] at hnext ⊢
    by_cases hmany : symbol = 18
    · rw [if_pos hmany] at hnext ⊢
      obtain ⟨rfl, rfl⟩ := Prod.mk.inj (Option.some.inj hnext)
      rfl
    · rw [if_neg hmany] at hnext
      cases hnext

theorem readCodeLengths_none (hlt : lengths.length < total)
    (hnext : tree.nextCodeLength stream = none) :
    readCodeLengths m tree total (n + 1) lengths stream = none := by
  rw [HuffmanTree.nextCodeLength] at hnext
  rw [readCodeLengths, if_neg (Nat.not_le.mpr hlt)]
  grind

/-- The loop over `allCodeLengths` reads the code lengths of the header. -/
theorem readCodeLengths_eq
    (h : FitsFrom lengths (tree.codeLengthsFrom total n lengths stream).1) :
    readCodeLengths m tree total n lengths stream =
      (tree.codeLengthsFrom total n lengths stream).2.map fun s =>
        ((tree.codeLengthsFrom total n lengths stream).1.foldl Deflate.CodeLength.apply lengths,
          s) := by
  induction n generalizing lengths stream with
  | zero => rfl
  | succ n ih =>
    rw [HuffmanTree.codeLengthsFrom] at h ⊢
    by_cases hge : lengths.length ≥ total
    · rw [if_pos hge, readCodeLengths, if_pos hge]
      rfl
    · rw [if_neg hge] at h ⊢
      have hlt := Nat.lt_of_not_le hge
      cases hnext : tree.nextCodeLength stream with
      | none => exact readCodeLengths_none hlt hnext
      | some next =>
        obtain ⟨c, s⟩ := next
        rw [hnext] at h
        rw [readCodeLengths_succ hlt hnext h.1.1]
        exact ih h.2

/-- With lists, `DecodeCanonicalCodes` gives the same for the headers that fit. -/
theorem decodeCanonicalCodes_eq_result (hfits : (Header.read m.tree s).Fits) :
    d.decodeCanonicalCodes m s = (Header.read m.tree s).result d := by
  rw [Header.fits_iff] at hfits
  rw [decodeCanonicalCodes]
  rw [Header.read] at hfits ⊢
  obtain ⟨⟨literalBits, s₁⟩, hliteral⟩ : ∃ r, s.readBits 5 = r := ⟨_, rfl⟩
  obtain ⟨⟨distanceBits, s₂⟩, hdistance⟩ : ∃ r, s₁.readBits 5 = r := ⟨_, rfl⟩
  obtain ⟨⟨codeLengthBits, s₃⟩, hcount⟩ : ∃ r, s₂.readBits 4 = r := ⟨_, rfl⟩
  obtain ⟨⟨f, s₄⟩, hlengths⟩ : ∃ r, Decompressor.readCodeLengthCodeLengths
    (Decompressor.codeLengthOrder.take (codeLengthBits + 4)) (fun _ => 0) s₃ = r := ⟨_, rfl⟩
  simp only [hliteral, hdistance, hcount, hlengths] at hfits ⊢
  cases hbuild : m.tree.build ((List.range 19).map f) with
  | none => rfl
  | some tree =>
    rw [hbuild] at hfits
    simp only [bind, Option.bind_some, readCodeLengths_eq hfits, Header.result,
      Option.map_eq_bind]
    cases (tree.codeLengthsFrom (literalBits + 257 + (distanceBits + 1))
      (literalBits + 257 + (distanceBits + 1)) [] s₄).2 with
    | none => rfl
    | some s₅ => rfl

end Decompressor

theorem length_le_of_nextCodeLength {l : ℕ} {s' : BitStream}
    (h : tree.nextCodeLength s = some (.length l, s')) : l ≤ 15 := by
  rw [HuffmanTree.nextCodeLength] at h
  grind

/-- The lengths that a header gives are at most fifteen. -/
theorem le_of_codeLengthsFrom (h : ∀ l ∈ lengths, l ≤ 15) :
    ∀ l ∈ (tree.codeLengthsFrom total n lengths s).1.foldl Deflate.CodeLength.apply lengths,
      l ≤ 15 := by
  induction n generalizing lengths s with
  | zero => exact h
  | succ n ih =>
    rw [HuffmanTree.codeLengthsFrom]
    by_cases hge : lengths.length ≥ total
    · rw [if_pos hge]
      exact h
    · rw [if_neg hge]
      cases hnext : tree.nextCodeLength s with
      | none => exact h
      | some next =>
        obtain ⟨c, s'⟩ := next
        refine ih fun l hl => ?_
        cases c with
        | length l' =>
          rcases List.mem_append.mp hl with hl | hl
          · exact h l hl
          · rw [List.mem_singleton.mp hl]
            exact length_le_of_nextCodeLength hnext
        | repeatLast extra =>
          rcases List.mem_append.mp hl with hl | hl
          · exact h l hl
          · rw [List.eq_of_mem_replicate hl]
            cases hlast : lengths.getLast? with
            | none => simp [List.getLastD_eq_getLast?, hlast]
            | some last =>
              rw [List.getLastD_eq_getLast?, hlast]
              exact h last (List.mem_of_getLast? hlast)
        | zeros extra =>
          rcases List.mem_append.mp hl with hl | hl
          · exact h l hl
          · rw [List.eq_of_mem_replicate hl]
            exact Nat.zero_le 15
        | manyZeros extra =>
          rcases List.mem_append.mp hl with hl | hl
          · exact h l hl
          · rw [List.eq_of_mem_replicate hl]
            exact Nat.zero_le 15

theorem readCodeLengthCodeLengths_lt {order : List ℕ} {f : ℕ → ℕ} (hf : ∀ i, f i < 8)
    (s : BitStream) (i : ℕ) :
    (Decompressor.readCodeLengthCodeLengths order f s).1 i < 8 := by
  induction order generalizing f s with
  | nil => exact hf i
  | cons symbol order ih =>
    refine ih (fun i => ?_) _
    by_cases hi : i = symbol
    · rw [hi, Function.update_self]
      exact Decompressor.readBits_lt 3 s
    · rw [Function.update_of_ne hi]
      exact hf i

theorem isSome_buildTrees_iff {distances : List ℕ} (hle : ∀ l ∈ lengths, l ≤ 15)
    (hle' : ∀ l ∈ distances, l ≤ 15) :
    (d.buildTrees lengths distances).isSome ↔ Kraft lengths ∧ Kraft distances := by
  rw [← isPrefixCode_iff_kraft hle, ← isPrefixCode_iff_kraft hle',
    ← HuffmanTree.isSome_build_iff d.literalLengthTree hle,
    ← HuffmanTree.isSome_build_iff d.distanceTree hle', Decompressor.buildTrees]
  cases d.literalLengthTree.build lengths with
  | none => simp
  | some t =>
    cases d.distanceTree.build distances with
    | none => simp
    | some t' => simp

namespace Header

theorem le_of_read (tree : HuffmanTree) (s : BitStream) :
    ∀ l ∈ (Header.read tree s).lengths, l ≤ 15 := by
  rw [Header.lengths, Header.read]
  dsimp only
  split
  · exact fun l hl => absurd hl List.not_mem_nil
  · exact le_of_codeLengthsFrom fun l hl => absurd hl List.not_mem_nil

/-- Without a tree for the code lengths there is nothing behind them. -/
theorem kraft_of_ends (h : (Header.read tree s).rest.isSome) :
    Kraft (Header.read tree s).codeLengthCode := by
  rw [Header.read] at h ⊢
  dsimp only at h ⊢
  have hle (order : List ℕ) (s : BitStream) : ∀ l ∈ (List.range 19).map
      (Decompressor.readCodeLengthCodeLengths order (fun _ => 0) s).1, l ≤ 15 := by
    intro l hl
    obtain ⟨i, -, rfl⟩ := List.mem_map.mp hl
    exact (readCodeLengthCodeLengths_lt (fun _ => by decide) s i).le.trans (by decide)
  rw [← isPrefixCode_iff_kraft (hle _ _), ← HuffmanTree.isSome_build_iff tree (hle _ _)]
  split at h
  · cases h
  · rename_i hbuild
    rw [hbuild]
    rfl

/-- A header that fits is accepted if and only if it is well formed. -/
theorem isSome_result_iff (hfits : (Header.read tree s).Fits) :
    ((Header.read tree s).result d).isSome ↔ (Header.read tree s).WellFormed := by
  have hle := le_of_read tree s
  have hkraft := @kraft_of_ends tree s
  generalize Header.read tree s = h at hfits hle hkraft ⊢
  have hbuild := @isSome_buildTrees_iff (h.lengths.take h.literalCount) d
    (h.lengths.drop h.literalCount) (fun l hl => hle l (List.mem_of_mem_take hl))
    fun l hl => hle l (List.mem_of_mem_drop hl)
  rw [result]
  cases hrest : h.rest with
  | none =>
    refine iff_of_false nofun fun hwell => ?_
    have hends := hwell.ends
    rw [hrest] at hends
    cases hends
  | some s' =>
    rw [hrest] at hkraft
    rw [Option.bind_some]
    by_cases htotal : h.lengths.length = h.literalCount + h.distanceCount
    · rw [if_neg (not_not.mpr htotal), Option.isSome_map, hbuild]
      constructor
      · rintro ⟨hliteral, hdistance⟩
        exact ⟨hkraft rfl, hrest ▸ rfl, hfits.startsWithLength, htotal, hliteral, hdistance⟩
      · exact fun hwell => ⟨hwell.literal, hwell.distance⟩
    · rw [if_pos htotal]
      exact iff_of_false nofun fun hwell => htotal hwell.total

end Header

end Accepted

/-! ## The tables of `DecodeBlock` -/

namespace Checked

theorem readValue_eq {base extraBits : List ℕ} {symbol : ℤ} {index : ℕ} (hindex : symbol = index)
    (hbase : index < base.length) (hextra : index < extraBits.length) (s : BitStream) :
    readValue base extraBits symbol s = .ok (Decompressor.readValue base extraBits index s) := by
  have hload {table : List ℕ} (hlt : index < table.length) :
      loadTable table symbol = .ok (table.getD index 0) := by
    subst hindex
    exact (load_computes _ _ _).ok ⟨Int.natCast_nonneg index, Int.ofNat_lt.mpr hlt⟩
  rw [readValue, Decompressor.readValue, hload hbase, hload hextra]
  simp only [bind, Except.bind]
  split <;> rfl

/-- `DecodeBlock` never leaves its tables. -/
theorem decodeBlock_eq (m : Memory) (n : ℕ) (d : Decompressor) (p : ℕ) (s : BitStream) :
    decodeBlock m n d p s = .ok (Decompressor.decodeBlock m n d p s) := by
  induction n generalizing d p s with
  | zero => rfl
  | succ n ih =>
    rw [decodeBlock, Decompressor.decodeBlock]
    obtain ⟨⟨symbol, s₁⟩, hdecode⟩ : ∃ r, d.literalLengthTree.decode s = r := ⟨_, rfl⟩
    rw [hdecode]
    cases symbol with
    | none => rfl
    | some symbol =>
      dsimp only
      by_cases hliteral : symbol < 256
      · rw [if_pos hliteral, if_pos hliteral]
        by_cases hroom : p ≥ d.outputEnd
        · rw [if_pos hroom, if_pos hroom]
          cases hgrow : d.ensureCapacity m 4096 with
          | error e => rfl
          | ok d₁ => exact ih _ _ _
        · rw [if_neg hroom, if_neg hroom]
          exact ih _ _ _
      rw [if_neg hliteral, if_neg hliteral]
      by_cases hend : symbol = 256
      · rw [if_pos hend, if_pos hend]
      rw [if_neg hend, if_neg hend]
      by_cases hhi : symbol ≥ 286
      · rw [if_pos hhi, if_pos hhi]
      rw [if_neg hhi, if_neg hhi]
      have hindex : (symbol : ℤ) - 257 = (symbol - 257 : ℕ) := by omega
      have hlength : symbol - 257 < 29 := by omega
      have hlengthRead (s : BitStream) := @readValue_eq Decompressor.lengthBase
        Decompressor.lengthExtraBits _ _ hindex hlength hlength s
      rw [hlengthRead]
      obtain ⟨⟨len, s₂⟩, hlen⟩ : ∃ r, Decompressor.readValue Decompressor.lengthBase
        Decompressor.lengthExtraBits (symbol - 257) s₁ = r := ⟨_, rfl⟩
      obtain ⟨⟨code, s₃⟩, hcode⟩ : ∃ r, d.distanceTree.decode s₂ = r := ⟨_, rfl⟩
      simp only [hlen, hcode, bind, Except.bind]
      cases code with
      | none => rfl
      | some code =>
        dsimp only
        by_cases hcodehi : code ≥ 30
        · rw [if_pos hcodehi, if_pos hcodehi]
        rw [if_neg hcodehi, if_neg hcodehi]
        have hdistance : code < 30 := by omega
        have hdistanceRead (s : BitStream) := @readValue_eq Decompressor.distBase
          Decompressor.distExtraBits _ _ rfl hdistance hdistance s
        rw [hdistanceRead]
        obtain ⟨⟨distance, s₄⟩, hdist⟩ : ∃ r, Decompressor.readValue Decompressor.distBase
          Decompressor.distExtraBits code s₃ = r := ⟨_, rfl⟩
        simp only [hdist]
        by_cases hback : p < distance
        · rw [if_pos hback, if_pos hback]
        rw [if_neg hback, if_neg hback]
        by_cases hroom : p + len ≥ d.outputEnd
        · rw [if_pos hroom, if_pos hroom]
          cases hgrow : d.ensureCapacity m (len * 2) with
          | error e => rfl
          | ok d₁ => exact ih _ _ _
        · rw [if_neg hroom, if_neg hroom]
          exact ih _ _ _

end Checked

section Block

variable {m : Memory} {n p : ℕ} {d d' : Decompressor} {s s' : BitStream}

theorem Decompressor.trees_of_ensureCapacity {count : ℕ} (h : d.ensureCapacity m count = .ok d') :
    d'.trees = d.trees := by
  rw [ensureCapacity] at h
  split at h
  · cases h
  · obtain rfl := Except.ok.inj h
    rfl

/-- A turn of a call of `DecodeBlock` that returns true reads a token. -/
theorem Decompressor.nextEvent_of_decodeBlock (hrun : decodeBlock m (n + 1) d p s = .ok (d', s')) :
    d.trees.nextEvent s = some (.endOfBlock, s') ∨ ∃ e s₁ d₁ p₁,
      d.trees.nextEvent s = some (e, s₁) ∧ e ≠ .endOfBlock ∧ d₁.trees = d.trees ∧
        decodeBlock m n d₁ p₁ s₁ = .ok (d', s') := by
  rw [decodeBlock] at hrun
  rw [Trees.nextEvent]
  obtain ⟨⟨symbol, s₁⟩, hdecode⟩ : ∃ r, d.literalLengthTree.decode s = r := ⟨_, rfl⟩
  rw [hdecode] at hrun
  rw [show d.trees.literalLength.decode s = (symbol, s₁) from hdecode]
  cases symbol with
  | none => cases hrun
  | some symbol =>
    dsimp only at hrun ⊢
    by_cases hliteral : symbol < 256
    · rw [if_pos hliteral] at hrun ⊢
      refine .inr ?_
      by_cases hroom : p ≥ d.outputEnd
      · rw [if_pos hroom] at hrun
        cases hgrow : d.ensureCapacity m 4096 with
        | error e => rw [hgrow] at hrun; cases hrun
        | ok d₁ =>
          rw [hgrow] at hrun
          have htrees := trees_of_ensureCapacity hgrow
          exact ⟨_, _, d₁.storeByte d₁.outputPointer (UInt8.ofNat symbol), d₁.outputPointer + 1,
            rfl, (fun h => by cases h), htrees, hrun⟩
      · rw [if_neg hroom] at hrun
        exact ⟨_, _, d.storeByte p (UInt8.ofNat symbol), p + 1, rfl, (fun h => by cases h), rfl,
          hrun⟩
    rw [if_neg hliteral] at hrun ⊢
    by_cases hend : symbol = 256
    · rw [if_pos hend] at hrun ⊢
      obtain ⟨-, rfl⟩ := Prod.mk.inj (Except.ok.inj hrun)
      exact .inl rfl
    rw [if_neg hend] at hrun ⊢
    by_cases hhi : symbol ≥ 286
    · rw [if_pos hhi] at hrun
      cases hrun
    rw [if_neg hhi] at hrun ⊢
    obtain ⟨⟨len, s₂⟩, hlen⟩ :
        ∃ r, readValue lengthBase lengthExtraBits (symbol - 257) s₁ = r := ⟨_, rfl⟩
    obtain ⟨⟨code, s₃⟩, hcode⟩ : ∃ r, d.distanceTree.decode s₂ = r := ⟨_, rfl⟩
    have hcode' : d.trees.distance.decode s₂ = (code, s₃) := hcode
    simp only [hlen, hcode, hcode'] at hrun ⊢
    cases code with
    | none => cases hrun
    | some code =>
      dsimp only at hrun ⊢
      by_cases hcodehi : code ≥ 30
      · rw [if_pos hcodehi] at hrun
        cases hrun
      rw [if_neg hcodehi] at hrun ⊢
      obtain ⟨⟨distance, s₄⟩, hdistance⟩ :
          ∃ r, readValue distBase distExtraBits code s₃ = r := ⟨_, rfl⟩
      simp only [hdistance] at hrun ⊢
      by_cases hback : p < distance
      · rw [if_pos hback] at hrun
        cases hrun
      rw [if_neg hback] at hrun
      refine .inr ?_
      by_cases hroom : p + len ≥ d.outputEnd
      · rw [if_pos hroom] at hrun
        cases hgrow : d.ensureCapacity m (len * 2) with
        | error e => rw [hgrow] at hrun; cases hrun
        | ok d₁ =>
          rw [hgrow] at hrun
          have htrees := trees_of_ensureCapacity hgrow
          let buffer := copyBytes distance len (d₁.outputPointer - distance) d₁.outputPointer
            d₁.outputBuffer
          exact ⟨_, _, { d₁ with outputBuffer := buffer }, d₁.outputPointer + len, rfl,
            (fun h => by cases h), htrees, hrun⟩
      · rw [if_neg hroom] at hrun
        let buffer := copyBytes distance len (p - distance) p d.outputBuffer
        exact ⟨_, _, { d with outputBuffer := buffer }, p + len, rfl, (fun h => by cases h), rfl,
          hrun⟩

/-- When `DecodeBlock` returns true, every symbol of the block has a meaning. -/
theorem Decompressor.exists_tokens_of_decodeBlock (hrun : decodeBlock m n d p s = .ok (d', s')) :
    ∃ es, Tokens d.trees s es s' := by
  induction n generalizing d p s with
  | zero => cases hrun
  | succ n ih =>
    obtain hend | ⟨e, s₁, d₁, p₁, hnext, hne, htrees, hrun⟩ := nextEvent_of_decodeBlock hrun
    · exact ⟨_, .last hend⟩
    · obtain ⟨es, htokens⟩ := ih hrun
      rw [htrees] at htokens
      exact ⟨_, .next hnext hne htokens⟩

end Block

/-! ## A whole dynamic block -/

/-- `DecodeCanonicalCodes` and the call of `DecodeBlock` after it stay inside of their arrays,
reject a header that is not well formed, and accept no block with a symbol that has no meaning. -/
structure InsideArrays (m : Memory) (allCodeLengths : ℕ → ℕ) (d : Decompressor) (s : BitStream) :
    Prop where
  header : ∃ r, Checked.decodeCanonicalCodes m allCodeLengths d s = .ok r
  rejected : ¬(Header.read m.tree s).WellFormed →
    Checked.decodeCanonicalCodes m allCodeLengths d s = .ok none
  block : ∀ d₁ s₁, Checked.decodeCanonicalCodes m allCodeLengths d s = .ok (some (d₁, s₁)) →
    ∀ fuel, ∃ r, Checked.decodeBlock m fuel d₁ d₁.outputPointer s₁ = .ok r ∧
      ∀ d₂ s₂, r = .ok (d₂, s₂) → ∃ es, Tokens d₁.trees s₁ es s₂

/-- A dynamic block stays inside of the arrays if and only if its header fits. -/
theorem insideArrays_iff_fits (m : Memory) (allCodeLengths : ℕ → ℕ) (d : Decompressor)
    (s : BitStream) : InsideArrays m allCodeLengths d s ↔ (Header.read m.tree s).Fits := by
  have hcomputes := Checked.decodeCanonicalCodes_computes m allCodeLengths d s
  constructor
  · intro h
    exact hcomputes.isOk_iff.mp h.header
  · intro hfits
    refine ⟨⟨_, hcomputes.ok hfits⟩, fun hill => ?_, fun d₁ s₁ _ fuel => ?_⟩
    · have hnone : ((Header.read m.tree s).result d).isSome = false := by
        rw [Bool.eq_false_iff]
        exact fun hsome => hill ((Header.isSome_result_iff hfits).mp hsome)
      rw [hcomputes.ok hfits, Option.isSome_eq_false_iff.mp hnone |> Option.isNone_iff_eq_none.mp]
    · exact ⟨_, Checked.decodeBlock_eq m fuel d₁ _ s₁, fun d₂ s₂ hrun =>
        Decompressor.exists_tokens_of_decodeBlock hrun⟩

/-- The code lengths of a header, if there is a tree for them. -/
theorem Header.codeLengths_read {tree tree' : HuffmanTree} {s s₁ s₂ s₃ s₄ : BitStream} {f : ℕ → ℕ}
    {literalBits distanceBits codeLengthBits : ℕ} (hliteral : s.readBits 5 = (literalBits, s₁))
    (hdistance : s₁.readBits 5 = (distanceBits, s₂))
    (hcount : s₂.readBits 4 = (codeLengthBits, s₃))
    (hlengths : Decompressor.readCodeLengthCodeLengths
      (Decompressor.codeLengthOrder.take (codeLengthBits + 4)) (fun _ => 0) s₃ = (f, s₄))
    (hbuild : tree.build ((List.range 19).map f) = some tree') :
    (Header.read tree s).codeLengths =
      (tree'.codeLengthsFrom (literalBits + 257 + (distanceBits + 1))
        (literalBits + 257 + (distanceBits + 1)) [] s₄).1 := by
  rw [Header.read]
  simp only [hliteral, hdistance, hcount, hlengths, hbuild]

theorem HuffmanTree.head_codeLengthsFrom (tree : HuffmanTree) {total n : ℕ} {lengths : List ℕ}
    {s s' : BitStream} {c : Deflate.CodeLength} (hn : 0 < n) (hlt : lengths.length < total)
    (hnext : tree.nextCodeLength s = some (c, s')) :
    (tree.codeLengthsFrom total n lengths s).1.head? = some c := by
  obtain ⟨n, rfl⟩ := Nat.exists_eq_add_of_lt hn
  rw [Nat.zero_add, codeLengthsFrom, if_neg (Nat.not_le.mpr hlt), hnext]
  rfl

/-- A code of the code lengths with words for the symbols 16 and 18. -/
def repeatCode : List ℕ := [0, 0, 0, 0, 0, 0, 0, 0, 0, 0, 0, 0, 0, 0, 0, 0, 1, 0, 1]

/-- A header with that code, and the word of 16 behind it. -/
def repeatFirst : BitStream :=
  List.replicate 14 false ++ (toLsb 3 1 ++ (toLsb 3 0 ++ (toLsb 3 1 ++ (toLsb 3 0 ++
    (codeword repeatCode 16 ++ [false, false])))))

/-- A repetition that comes first reads in front of `allCodeLengths`. -/
theorem not_insideArrays :
    ¬InsideArrays Decompressor.zeroMemory (fun _ => 0) (.new Decompressor.zeroMemory [])
      repeatFirst := by
  have hcode : IsPrefixCode repeatCode 15 := ⟨by decide, by decide⟩
  obtain ⟨tree, hbuild, hbuilt⟩ := HuffmanTree.built_of_isPrefixCode
    Decompressor.zeroMemory.tree hcode
  have hdecode : tree.decode (codeword repeatCode 16 ++ [false, false]) =
      (some 16, [false, false]) :=
    hbuilt.decode_codeword hcode (by decide) (by decide) _
  have hliteral : BitStream.readBits repeatFirst 5 = (0, repeatFirst.drop 5) := by decide
  have hdistance : BitStream.readBits (repeatFirst.drop 5) 5 = (0, repeatFirst.drop 10) := by decide
  have hcount : BitStream.readBits (repeatFirst.drop 10) 4 = (0, repeatFirst.drop 14) := by decide
  obtain ⟨⟨f, rest⟩, hlengths⟩ : ∃ r, Decompressor.readCodeLengthCodeLengths
    (Decompressor.codeLengthOrder.take (0 + 4)) (fun _ => 0) (repeatFirst.drop 14) = r := ⟨_, rfl⟩
  have hmap : (List.range 19).map f = repeatCode := by
    rw [show f = _ from (congrArg Prod.fst hlengths).symm]
    decide
  have hrest : rest = codeword repeatCode 16 ++ [false, false] := by
    rw [show rest = _ from (congrArg Prod.snd hlengths).symm]
    decide
  have hnext : tree.nextCodeLength rest = some (.repeatLast 0, []) := by
    rw [hrest, HuffmanTree.nextCodeLength, hdecode]
    rfl
  have hfirst : (Header.read Decompressor.zeroMemory.tree repeatFirst).codeLengths.head? =
      some (.repeatLast 0) := by
    rw [Header.codeLengths_read hliteral hdistance hcount hlengths (hmap ▸ hbuild)]
    exact tree.head_codeLengthsFrom (Nat.succ_pos _) (Nat.succ_pos _) hnext
  intro h
  have hfits := (Checked.decodeCanonicalCodes_computes _ _ _ _).isOk_iff.mp h.header
  exact hfits.startsWithLength 0 hfirst

end Cryptix.ZLib
