import Mathlib.Data.List.Basic
import Cryptix.PNG.Defilter

/-!
# The chunks of a PNG

The loop of `LoadFromMemory` in `Kernel/Library/Image.cpp`, from the end of the header on. A chunk
is its length, its type, that many bytes and a checksum. The loop reads length and type, leaves the
bytes to a handler, and reads the checksum where the handler has stopped.

`ParseTRNS` and the case of `IEND` do not look at the length. What a file must be like for the loop
not to lose its place is `loadChunks_iff`.

Prism's `ByteStream` is a parameter: within the bytes it was made for it reads them in order.
-/

namespace Cryptix.PNG

/-- The operations of Prism's `ByteStream` that the loader uses: `Read` and the operators that read
numbers, `Skip`, `Offset`, and the bytes of `Raw` and `Size`. -/
structure ByteStream (σ : Type) where
  data : σ → List UInt8
  offset : σ → ℕ
  read : σ → ℕ → List UInt8 × σ
  skip : σ → ℕ → σ

/-- A number of which the highest byte comes first. -/
def ofBytes (bytes : List UInt8) : ℕ := bytes.foldl (fun n b => n * 256 + b.toNat) 0

namespace ByteStream

variable {σ : Type} (S : ByteStream σ)

/-- `stream >> x` for a `u8`. -/
def readU8 (s : σ) : UInt8 × σ := (UInt8.ofNat (ofBytes (S.read s 1).1), (S.read s 1).2)

/-- `stream >> x` for a `u32`. -/
def readU32 (s : σ) : ℕ × σ := (ofBytes (S.read s 4).1, (S.read s 4).2)

/-- What the loader relies on. -/
structure Lawful : Prop where
  bytes_read : ∀ s n, S.offset s + n ≤ (S.data s).length →
    (S.read s n).1 = ((S.data s).drop (S.offset s)).take n
  data_read : ∀ s n, S.offset s + n ≤ (S.data s).length → S.data (S.read s n).2 = S.data s
  offset_read : ∀ s n, S.offset s + n ≤ (S.data s).length →
    S.offset (S.read s n).2 = S.offset s + n
  data_skip : ∀ s n, S.offset s + n ≤ (S.data s).length → S.data (S.skip s n) = S.data s
  offset_skip : ∀ s n, S.offset s + n ≤ (S.data s).length →
    S.offset (S.skip s n) = S.offset s + n

end ByteStream

/-! ## The loop -/

/-- `ToChunkType`. -/
def toChunkType (a b c d : Char) : ℕ :=
  a.toNat <<< 24 ||| b.toNat <<< 16 ||| c.toNat <<< 8 ||| d.toNat

/-- `ChunkType`, as far as the loop tells the types apart. -/
inductive ChunkType
  | IHDR | IDAT | PLTE | IEND | tRNS | CgBI
  | other (type : ℕ)
  deriving DecidableEq, Repr

/-- The cast of a type that was read. -/
def ChunkType.ofWord (type : ℕ) : ChunkType :=
  if type = toChunkType 'C' 'g' 'B' 'I' then .CgBI
  else if type = toChunkType 'I' 'H' 'D' 'R' then .IHDR
  else if type = toChunkType 'P' 'L' 'T' 'E' then .PLTE
  else if type = toChunkType 't' 'R' 'N' 'S' then .tRNS
  else if type = toChunkType 'I' 'D' 'A' 'T' then .IDAT
  else if type = toChunkType 'I' 'E' 'N' 'D' then .IEND
  else .other type

/-- `ColorType`. -/
inductive ColorType
  | grayscale | trueColor | indexed | grayscaleWithAlpha | trueColorWithAlpha
  deriving DecidableEq, Repr

/-- `PaletteEntry`. -/
structure PaletteEntry where
  red : UInt8
  green : UInt8
  blue : UInt8
  alpha : UInt8
  deriving DecidableEq, Repr

/-- `Loader`, as far as the chunks change it. `compressedData` is what has been read into the buffer
`m_CompressedData`, `compressedSize` the size of that buffer. -/
structure ChunkLoader where
  colorType : ColorType
  palette : List PaletteEntry
  compressedData : List UInt8
  compressedSize : ℕ
  idatSize : ℕ
  deriving DecidableEq, Repr

/-- `while (needed > newSize) newSize <<= 1`, which ends after less than 32 turns: the size is not 0
and what is needed is below `2 ^ 31`. -/
def doubleUntil (needed : ℕ) : ℕ → ℕ → ℕ
  | 0, newSize => newSize
  | turns + 1, newSize =>
    if needed > newSize then doubleUntil needed turns (newSize <<< 1) else newSize

/-- The size of `m_CompressedData` that `ParseIDAT` makes room with. -/
def roomFor (compressedSize idatSize length : ℕ) : ℕ :=
  if idatSize + length > compressedSize then
    doubleUntil (idatSize + length) 32
      (if compressedSize = 0 then if length > 4096 then length else 4096 else compressedSize)
  else compressedSize

section

variable {σ : Type} (S : ByteStream σ)

namespace ChunkLoader

/-- One turn of the loop of `ParsePLTE`. -/
def readEntry (ls : ChunkLoader × σ) : ChunkLoader × σ :=
  let red := S.readU8 ls.2
  let green := S.readU8 red.2
  let blue := S.readU8 green.2
  ({ ls.1 with palette := ls.1.palette ++ [⟨red.1, green.1, blue.1, 0⟩] }, blue.2)

/-- `ParsePLTE`. -/
def parsePLTE (l : ChunkLoader) (s : σ) (length : ℕ) : Option (ChunkLoader × σ) :=
  if l.colorType = .grayscale ∨ l.colorType = .grayscaleWithAlpha then none
  else if length > 256 * 3 then none
  else if length / 3 * 3 ≠ length then none
  else some ((List.range (length / 3)).foldl (fun ls _ => readEntry S ls) (l, s))

/-- `ParseIDAT`. -/
def parseIDAT (l : ChunkLoader) (s : σ) (length : ℕ) : Option (ChunkLoader × σ) :=
  if l.colorType = .indexed ∧ l.palette.isEmpty then none
  else if length > 2 ^ 30 then none
  else if toI32 (l.idatSize + length) < toI32 l.idatSize then none
  else
    let bytes := S.read s length
    some ({ l with
      compressedData := l.compressedData ++ bytes.1
      compressedSize := roomFor l.compressedSize l.idatSize length
      idatSize := l.idatSize + length }, bytes.2)

/-- The loop of `ParseTRNS` that reads an alpha for each entry. -/
def readAlphas : List PaletteEntry → σ → List PaletteEntry × σ
  | [], s => ([], s)
  | entry :: entries, s =>
    let alpha := S.readU8 s
    let rest := readAlphas entries alpha.2
    ({ entry with alpha := alpha.1 } :: rest.1, rest.2)

/-- `ParseTRNS`; the loop goes on whether it succeeds or not. -/
def parseTRNS (l : ChunkLoader) (s : σ) (length : ℕ) : ChunkLoader × σ :=
  if l.compressedSize ≠ 0 then (l, s)
  else
    match l.colorType with
    | .grayscale | .trueColor => (l, s)
    | .indexed =>
      if l.palette.isEmpty then (l, s)
      else if length > l.palette.length then (l, s)
      else
        let alphas := readAlphas S l.palette s
        ({ l with palette := alphas.1 }, alphas.2)
    | .grayscaleWithAlpha | .trueColorWithAlpha => (l, s)

/-- The switch over the type of a chunk. -/
def handleChunk (l : ChunkLoader) (s : σ) (length : ℕ) : ChunkType → Option (ChunkLoader × σ)
  | .CgBI => some (l, S.skip s length)
  | .IHDR => none
  | .PLTE => l.parsePLTE S s length
  | .tRNS => some (l.parseTRNS S s length)
  | .IDAT => l.parseIDAT S s length
  | .IEND => some (l, s)
  | .other type => if type &&& (1 <<< 29) = 0 then none else some (l, S.skip s length)

end ChunkLoader

/-- A chunk that the loop has come to: where, its type, and where the loop went on after its
checksum. -/
structure Visit where
  position : ℕ
  type : ℕ
  ending : Option ℕ
  deriving DecidableEq, Repr

namespace ChunkLoader

/-- One turn of the loop. -/
def processChunk (l : ChunkLoader) (s : σ) : Visit × Option (ChunkLoader × σ) :=
  let length := S.readU32 s
  let type := S.readU32 length.2
  match l.handleChunk S type.2 length.1 (ChunkType.ofWord type.1) with
  | none => (⟨S.offset s, type.1, none⟩, none)
  | some (l', s') =>
    let crc := S.readU32 s'
    (⟨S.offset s, type.1, some (S.offset crc.2)⟩, some (l', crc.2))

/-- The loop: the chunks it comes to. -/
def loadChunks : ℕ → ChunkLoader → σ → Option (List Visit)
  | 0, _, _ => none
  | fuel + 1, l, s =>
    match l.processChunk S s with
    | (visit, none) => some [visit]
    | (visit, some (l', s')) =>
      if ChunkType.ofWord visit.type = .IEND then some [visit]
      else (loadChunks fuel l' s').map (visit :: ·)

/-- `Loader` after the header. -/
def start (colorType : ColorType) : ChunkLoader := ⟨colorType, [], [], 0, 0⟩

end ChunkLoader

end

/-! ## The chunks of a file -/

/-- A `u32` as it is stored. -/
def toBytes (n : ℕ) : List UInt8 :=
  [UInt8.ofNat (n / 2 ^ 24), UInt8.ofNat (n / 2 ^ 16), UInt8.ofNat (n / 2 ^ 8), UInt8.ofNat n]

theorem ofBytes_toBytes {n : ℕ} (h : n < 2 ^ 32) : ofBytes (toBytes n) = n := by
  simp only [ofBytes, toBytes, List.foldl_cons, List.foldl_nil, UInt8.toNat_ofNat']
  omega

/-- A chunk of a file. -/
structure FileChunk where
  type : ℕ
  data : List UInt8
  crc : List UInt8
  type_lt : type < 2 ^ 32
  length_lt : data.length < 2 ^ 32
  crc_length : crc.length = 4

namespace FileChunk

/-- The bytes of a chunk. -/
def bytes (c : FileChunk) : List UInt8 :=
  toBytes c.data.length ++ toBytes c.type ++ c.data ++ c.crc

/-- `ChunkType` of a chunk. -/
def chunkType (c : FileChunk) : ChunkType := ChunkType.ofWord c.type

theorem length_bytes (c : FileChunk) : c.bytes.length = 12 + c.data.length := by
  simp only [bytes, toBytes, List.length_append, List.length_cons, List.length_nil, c.crc_length]
  omega

end FileChunk

/-- The part of a loader that its decisions depend on. -/
structure Progress where
  colorType : ColorType
  paletteSize : ℕ
  compressedSize : ℕ
  idatSize : ℕ
  deriving DecidableEq, Repr

/-- `Loader` as far as it decides about chunks. -/
def ChunkLoader.progress (l : ChunkLoader) : Progress :=
  ⟨l.colorType, l.palette.length, l.compressedSize, l.idatSize⟩

namespace Progress

/-- What a chunk of a length leaves behind, unless the loader refuses the file because of it. -/
def accept (g : Progress) (length : ℕ) : ChunkType → Option Progress
  | .IHDR => none
  | .PLTE =>
    if g.colorType = .grayscale ∨ g.colorType = .grayscaleWithAlpha ∨ length > 256 * 3 ∨
        length / 3 * 3 ≠ length then none
    else some { g with paletteSize := g.paletteSize + length / 3 }
  | .IDAT =>
    if g.colorType = .indexed ∧ g.paletteSize = 0 ∨ length > 2 ^ 30 ∨
        toI32 (g.idatSize + length) < toI32 g.idatSize then none
    else some { g with
      compressedSize := roomFor g.compressedSize g.idatSize length
      idatSize := g.idatSize + length }
  | .other type => if type &&& (1 <<< 29) = 0 then none else some g
  | .CgBI | .tRNS | .IEND => some g

/-- `ParseTRNS` reads an alpha for each entry of the palette. -/
def ReadsAlphas (g : Progress) (length : ℕ) : Prop :=
  g.compressedSize = 0 ∧ g.colorType = .indexed ∧ length ≤ g.paletteSize

instance (g : Progress) (length : ℕ) : Decidable (g.ReadsAlphas length) :=
  inferInstanceAs (Decidable (_ ∧ _))

/-- How many bytes the handler of a chunk of a length goes over. -/
def consumed (g : Progress) (length : ℕ) : ChunkType → ℕ
  | .tRNS => if g.ReadsAlphas length then g.paletteSize else 0
  | .IEND => 0
  | _ => length

/-- The chunks that a loader comes to in a file, from the position `p` on: those up to `IEND` or to
one that the loader refuses. -/
def visits (p : ℕ) (g : Progress) : List FileChunk → List Visit
  | [] => []
  | c :: rest =>
    match g.accept c.data.length c.chunkType with
    | none => [⟨p, c.type, none⟩]
    | some g' =>
      ⟨p, c.type, some (p + c.bytes.length)⟩ ::
        if c.chunkType = .IEND then [] else visits (p + c.bytes.length) g' rest

/-- The handlers go over all bytes of the chunks that a loader comes to. -/
def ConsumesAll (g : Progress) : List FileChunk → Prop
  | [] => True
  | c :: rest =>
    ∀ g', g.accept c.data.length c.chunkType = some g' →
      g.consumed c.data.length c.chunkType = c.data.length ∧
        (c.chunkType ≠ .IEND → ConsumesAll g' rest)

end Progress

/-! ## What the handlers go over -/

section

variable {σ : Type} {S : ByteStream σ}

/-- `s` stands behind the bytes `front`, and `rest` are left. -/
structure ByteStream.Left (S : ByteStream σ) (s : σ) (front rest : List UInt8) : Prop where
  data_eq : S.data s = front ++ rest
  offset_eq : S.offset s = front.length

/-- `s'` is `s` after `n` bytes. -/
structure ByteStream.Advanced (S : ByteStream σ) (room : σ → ℕ → Prop) (s s' : σ) (n : ℕ) :
    Prop where
  data_eq : S.data s' = S.data s
  offset_eq : S.offset s' = S.offset s + n
  room_of : ∀ m, room s (n + m) → room s' m

/-- Reading and skipping count, as long as there is room. -/
structure ByteStream.Counts (S : ByteStream σ) (room : σ → ℕ → Prop) : Prop where
  read : ∀ s n, room s n → S.Advanced room s (S.read s n).2 n
  skip : ∀ s n, room s n → S.Advanced room s (S.skip s n) n
  room_mono : ∀ s n m, n ≤ m → room s m → room s n

theorem ByteStream.Lawful.counts (hS : S.Lawful) :
    S.Counts fun s n => S.offset s + n ≤ (S.data s).length where
  read s n h := by
    refine ⟨hS.data_read s n h, hS.offset_read s n h, fun m hm => ?_⟩
    rw [hS.data_read s n h, hS.offset_read s n h]
    omega
  skip s n h := by
    refine ⟨hS.data_skip s n h, hS.offset_skip s n h, fun m hm => ?_⟩
    rw [hS.data_skip s n h, hS.offset_skip s n h]
    omega
  room_mono s n m hnm hroom := by omega

variable {room : σ → ℕ → Prop} {s s' s'' : σ} {n m : ℕ}

theorem ByteStream.Advanced.refl (S : ByteStream σ) (room : σ → ℕ → Prop) (s : σ) :
    S.Advanced room s s 0 :=
  ⟨rfl, rfl, fun m h => by rwa [Nat.zero_add] at h⟩

theorem ByteStream.Advanced.trans (h : S.Advanced room s s' n) (h' : S.Advanced room s' s'' m) :
    S.Advanced room s s'' (n + m) where
  data_eq := h'.data_eq.trans h.data_eq
  offset_eq := by rw [h'.offset_eq, h.offset_eq, Nat.add_assoc]
  room_of k hk := h'.room_of k (h.room_of (m + k) (by rwa [← Nat.add_assoc]))

namespace ChunkLoader

/-- What a handler does to the loader and to the stream. -/
structure Handles (S : ByteStream σ) (room : σ → ℕ → Prop) (s : σ) (g : Progress) (n : ℕ)
    (after : ChunkLoader × σ) : Prop where
  progress_eq : after.1.progress = g
  advanced : S.Advanced room s after.2 n

theorem readEntry_handles (hS : S.Counts room) (l : ChunkLoader) (h : room s 3) :
    Handles S room s { l.progress with paletteSize := l.palette.length + 1 } 3
      (readEntry S (l, s)) := by
  have hred := hS.read s 1 (hS.room_mono s 1 3 (by omega) h)
  have hgreen := hS.read _ 1 (hS.room_mono _ 1 2 (by omega) (hred.room_of 2 h))
  have hblue := hS.read _ 1 ((hred.trans hgreen).room_of 1 h)
  refine ⟨?_, (hred.trans hgreen).trans hblue⟩
  simp only [readEntry, progress, List.length_append, List.length_cons, List.length_nil]

/-- The loop over the entries of a palette. -/
theorem readEntries_handles (hS : S.Counts room) (l : ChunkLoader) (count : ℕ)
    (h : room s (count * 3)) :
    Handles S room s { l.progress with paletteSize := l.palette.length + count } (count * 3)
      ((List.range count).foldl (fun ls _ => readEntry S ls) (l, s)) := by
  induction count with
  | zero => exact ⟨rfl, .refl S room s⟩
  | succ count ih =>
    have hbefore := ih (hS.room_mono s _ _ (by omega) h)
    rw [List.range_succ, List.foldl_append, List.foldl_cons, List.foldl_nil]
    set after := (List.range count).foldl (fun ls _ => readEntry S ls) (l, s)
    have hentry := readEntry_handles hS after.1
      (hbefore.advanced.room_of 3 (by rwa [← Nat.succ_mul]))
    refine ⟨?_, ?_⟩
    · have hsize : after.1.palette.length = l.palette.length + count :=
        congrArg Progress.paletteSize hbefore.progress_eq
      rw [hentry.progress_eq, hbefore.progress_eq, hsize]
      rfl
    · rw [Nat.succ_mul]
      exact hbefore.advanced.trans hentry.advanced

/-- The loop over the alphas of a palette. -/
theorem readAlphas_advanced (hS : S.Counts room) (entries : List PaletteEntry)
    (h : room s entries.length) :
    (readAlphas S entries s).1.length = entries.length ∧
      S.Advanced room s (readAlphas S entries s).2 entries.length := by
  induction entries generalizing s with
  | nil => exact ⟨rfl, .refl S room s⟩
  | cons entry entries ih =>
    rw [List.length_cons] at h
    have halpha := hS.read s 1 (hS.room_mono s 1 _ (by omega) h)
    obtain ⟨hlength, hrest⟩ := ih (halpha.room_of entries.length (by rwa [Nat.add_comm]))
    refine ⟨congrArg (· + 1) hlength, ?_⟩
    rw [List.length_cons, Nat.add_comm]
    exact halpha.trans hrest

/-- Two reasons to refuse a chunk are one. -/
theorem refuse_or {α : Type*} {p q : Prop} [Decidable p] [Decidable q] (x : Option α) :
    (if p then none else if q then none else x) = if p ∨ q then none else x := by
  by_cases hp : p
  · rw [if_pos hp, if_pos (Or.inl hp)]
  · rw [if_neg hp]
    exact if_congr (or_iff_right hp).symm rfl rfl

theorem parsePLTE_handles (hS : S.Counts room) (l : ChunkLoader) (length : ℕ)
    (h : room s length) :
    Option.Rel (Handles S room s · length ·) (l.progress.accept length .PLTE)
      (l.parsePLTE S s length) := by
  have hparse : l.parsePLTE S s length =
      if l.progress.colorType = .grayscale ∨ l.progress.colorType = .grayscaleWithAlpha ∨
        length > 256 * 3 ∨ length / 3 * 3 ≠ length then none
      else some ((List.range (length / 3)).foldl (fun ls _ => readEntry S ls) (l, s)) := by
    simp only [parsePLTE, refuse_or, or_assoc]
    rfl
  rw [hparse, Progress.accept]
  split
  · exact .none
  · rename_i hrefuse
    have hcount : length / 3 * 3 = length := by
      by_contra hcount
      exact hrefuse (.inr (.inr (.inr hcount)))
    have hread := readEntries_handles hS l (length / 3) (hcount.symm ▸ h)
    rw [hcount] at hread
    exact .some hread

theorem parseIDAT_handles (hS : S.Counts room) (l : ChunkLoader) (length : ℕ)
    (h : room s length) :
    Option.Rel (Handles S room s · length ·) (l.progress.accept length .IDAT)
      (l.parseIDAT S s length) := by
  have hempty : l.palette.isEmpty = true ↔ l.progress.paletteSize = 0 := by
    rw [List.isEmpty_iff, ← List.length_eq_zero_iff]
    rfl
  have hparse : l.parseIDAT S s length =
      if l.progress.colorType = .indexed ∧ l.progress.paletteSize = 0 ∨ length > 2 ^ 30 ∨
        toI32 (l.progress.idatSize + length) < toI32 l.progress.idatSize then none
      else some ({ l with
        compressedData := l.compressedData ++ (S.read s length).1
        compressedSize := roomFor l.compressedSize l.idatSize length
        idatSize := l.idatSize + length }, (S.read s length).2) := by
    simp only [parseIDAT, refuse_or, hempty]
    rfl
  rw [hparse, Progress.accept]
  split
  · exact .none
  · exact .some ⟨rfl, hS.read s length h⟩

theorem parseTRNS_eq (l : ChunkLoader) (s : σ) (length : ℕ) :
    l.parseTRNS S s length =
      if l.progress.ReadsAlphas length then
        ({ l with palette := (readAlphas S l.palette s).1 }, (readAlphas S l.palette s).2)
      else (l, s) := by
  obtain ⟨colorType, palette, compressedData, compressedSize, idatSize⟩ := l
  rw [parseTRNS]
  by_cases hsize : compressedSize = 0
  · rw [if_neg (not_not.mpr hsize)]
    cases colorType with
    | indexed =>
      by_cases hlength : length ≤ palette.length
      · have hreads : Progress.ReadsAlphas ⟨.indexed, palette.length, compressedSize, idatSize⟩
          length := ⟨hsize, rfl, hlength⟩
        refine Eq.trans ?_ (if_pos hreads).symm
        cases palette with
        | nil => rfl
        | cons entry entries => exact if_neg hlength.not_gt
      · refine Eq.trans ?_ (if_neg fun halphas => hlength halphas.2.2).symm
        dsimp only
        rw [if_pos (not_le.mp hlength), ite_self]
    | grayscale | trueColor | grayscaleWithAlpha | trueColorWithAlpha =>
      exact (if_neg fun halphas => ColorType.noConfusion halphas.2.1).symm
  · rw [if_pos hsize]
    exact (if_neg fun halphas => hsize halphas.1).symm

theorem parseTRNS_handles (hS : S.Counts room) (l : ChunkLoader) (length : ℕ)
    (h : room s (l.progress.consumed length .tRNS)) :
    Handles S room s l.progress (l.progress.consumed length .tRNS) (l.parseTRNS S s length) := by
  rw [Progress.consumed] at h ⊢
  rw [parseTRNS_eq]
  split
  · rename_i halphas
    rw [if_pos halphas] at h
    obtain ⟨hlength, hadvanced⟩ := readAlphas_advanced hS l.palette h
    refine ⟨?_, hadvanced⟩
    simp only [progress, hlength]
  · exact ⟨rfl, .refl S room s⟩

/-- A handler accepts a chunk when it should, and goes over `consumed` bytes, whatever they are. -/
theorem handleChunk_handles (hS : S.Counts room) (l : ChunkLoader) (length : ℕ)
    (type : ChunkType) (h : room s (l.progress.consumed length type)) :
    Option.Rel (Handles S room s · (l.progress.consumed length type) ·)
      (l.progress.accept length type) (l.handleChunk S s length type) := by
  cases type with
  | IHDR => exact .none
  | PLTE => exact parsePLTE_handles hS l length h
  | IDAT => exact parseIDAT_handles hS l length h
  | tRNS => exact .some (parseTRNS_handles hS l length h)
  | IEND => exact .some ⟨rfl, .refl S room s⟩
  | CgBI => exact .some ⟨rfl, hS.skip s length h⟩
  | other type =>
    simp only [Progress.accept, handleChunk]
    split
    · exact .none
    · exact .some ⟨rfl, hS.skip s length h⟩

/-! ## The loop over a file -/

theorem readU32_of_left (hS : S.Lawful) {front bytes rest : List UInt8}
    (h : S.Left s front (bytes ++ rest)) (hbytes : bytes.length = 4) :
    (S.readU32 s).1 = ofBytes bytes := by
  have hroom : S.offset s + 4 ≤ (S.data s).length := by
    rw [h.offset_eq, h.data_eq, List.length_append, List.length_append, hbytes]
    omega
  rw [ByteStream.readU32, hS.bytes_read s 4 hroom, h.data_eq, h.offset_eq, List.drop_left,
    List.take_left' hbytes]

/-- A stream that has advanced over a part of what was left. -/
theorem left_of_advanced {front bytes rest : List UInt8} (h : S.Left s front (bytes ++ rest))
    (hadvanced : S.Advanced room s s' bytes.length) : S.Left s' (front ++ bytes) rest where
  data_eq := by rw [hadvanced.data_eq, h.data_eq, List.append_assoc]
  offset_eq := by rw [hadvanced.offset_eq, h.offset_eq, List.length_append]

/-- Length and type of a chunk of the file are read as they are. -/
theorem processChunk_eq (hS : S.Lawful) (hc : S.Counts room) (l : ChunkLoader) {c : FileChunk}
    {front rest : List UInt8} (h : S.Left s front (c.bytes ++ rest)) (hroom : room s 8) :
    ∃ s', S.Advanced room s s' 8 ∧ l.processChunk S s =
      match l.handleChunk S s' c.data.length c.chunkType with
      | none => (⟨front.length, c.type, none⟩, none)
      | some (l', s'') => (⟨front.length, c.type, some (S.offset (S.readU32 s'').2)⟩,
          some (l', (S.readU32 s'').2)) := by
  have hbytes : c.bytes ++ rest =
      toBytes c.data.length ++ (toBytes c.type ++ (c.data ++ c.crc ++ rest)) := by
    simp only [FileChunk.bytes, List.append_assoc]
  rw [hbytes] at h
  have hlength := hc.read s 4 (hc.room_mono s 4 8 (by omega) hroom)
  have htype := hc.read _ 4 (hlength.room_of 4 hroom)
  have hlengthEq : (S.readU32 s).1 = c.data.length := by
    rw [readU32_of_left hS h rfl, ofBytes_toBytes c.length_lt]
  have htypeEq : (S.readU32 (S.readU32 s).2).1 = c.type :=
    (readU32_of_left hS (left_of_advanced h hlength) rfl).trans (ofBytes_toBytes c.type_lt)
  refine ⟨(S.readU32 (S.readU32 s).2).2, hlength.trans htype, ?_⟩
  rw [processChunk]
  simp only [hlengthEq, htypeEq, h.offset_eq]
  rfl

variable {c : FileChunk} {front rest : List UInt8}

/-- A turn of the loop at a chunk that is refused. -/
theorem processChunk_of_refused (hS : S.Lawful) (hc : S.Counts room) (l : ChunkLoader)
    (h : S.Left s front (c.bytes ++ rest))
    (hroom : room s (8 + l.progress.consumed c.data.length c.chunkType))
    (hrefuse : l.progress.accept c.data.length c.chunkType = none) :
    l.processChunk S s = (⟨front.length, c.type, none⟩, none) := by
  obtain ⟨s', hadvanced, heq⟩ := processChunk_eq hS hc l h
    (hc.room_mono s 8 _ (Nat.le_add_right 8 _) hroom)
  have hhandled := handleChunk_handles hc l c.data.length c.chunkType (hadvanced.room_of _ hroom)
  rw [hrefuse] at hhandled
  rw [heq]
  cases hnone : l.handleChunk S s' c.data.length c.chunkType with
  | none => rfl
  | some after =>
    rw [hnone] at hhandled
    cases hhandled

/-- A turn of the loop at any other chunk. -/
theorem processChunk_of_accepted (hS : S.Lawful) (hc : S.Counts room) (l : ChunkLoader)
    (h : S.Left s front (c.bytes ++ rest))
    (hroom : room s (8 + l.progress.consumed c.data.length c.chunkType + 4)) {g : Progress}
    (haccept : l.progress.accept c.data.length c.chunkType = some g) :
    ∃ l' s', l.processChunk S s = (⟨front.length, c.type,
        some (front.length + (8 + l.progress.consumed c.data.length c.chunkType + 4))⟩,
        some (l', s')) ∧ l'.progress = g ∧
      S.Advanced room s s' (8 + l.progress.consumed c.data.length c.chunkType + 4) := by
  obtain ⟨s', hadvanced, heq⟩ := processChunk_eq hS hc l h
    (hc.room_mono s 8 _ (by omega) hroom)
  have hhandled := handleChunk_handles hc l c.data.length c.chunkType
    (hadvanced.room_of _ (hc.room_mono s _ _ (Nat.le_add_right _ 4) hroom))
  rw [haccept] at hhandled
  cases hsome : l.handleChunk S s' c.data.length c.chunkType with
  | none =>
    rw [hsome] at hhandled
    cases hhandled
  | some after =>
    rw [hsome] at hhandled heq
    cases hhandled with
    | some hafter =>
      have hbefore := hadvanced.trans hafter.advanced
      have hcrc := hbefore.trans (hc.read after.2 4 (hbefore.room_of 4 hroom))
      refine ⟨after.1, _, heq.trans ?_, hafter.progress_eq, hcrc⟩
      rw [← h.offset_eq, ← hcrc.offset_eq]
      rfl

theorem consumed_of_refused {g : Progress} {length : ℕ} {type : ChunkType}
    (h : g.accept length type = none) : g.consumed length type = length := by
  cases type with
  | tRNS | IEND => cases h
  | IHDR | IDAT | PLTE | CgBI | other => rfl

/-- A file whose chunks are gone over in full is loaded chunk by chunk. -/
theorem loadChunks_of_consumesAll (hS : S.Lawful) {l : ChunkLoader} {chunks : List FileChunk}
    (hend : ∃ c ∈ chunks, c.chunkType = .IEND) (hall : l.progress.ConsumesAll chunks)
    (h : S.Left s front (chunks.flatMap FileChunk.bytes ++ rest)) {fuel : ℕ}
    (hfuel : chunks.length ≤ fuel) :
    l.loadChunks S fuel s = some (l.progress.visits front.length chunks) := by
  induction chunks generalizing l s front fuel with
  | nil =>
    obtain ⟨c, hc, -⟩ := hend
    cases hc
  | cons c chunks ih =>
    obtain ⟨turns, rfl⟩ : ∃ turns, fuel = turns + 1 := Nat.exists_eq_succ_of_ne_zero (by
      rw [List.length_cons] at hfuel
      omega)
    rw [List.flatMap_cons, List.append_assoc] at h
    have hlength := c.length_bytes
    have hroom : S.offset s + (8 + c.data.length + 4) ≤ (S.data s).length := by
      rw [h.offset_eq, h.data_eq, List.length_append, List.length_append, hlength]
      omega
    rw [loadChunks, Progress.visits]
    cases haccept : l.progress.accept c.data.length c.chunkType with
    | none =>
      rw [processChunk_of_refused hS hS.counts l h ?_ haccept]
      rw [consumed_of_refused haccept]
      omega
    | some g =>
      obtain ⟨hconsumed, hrest⟩ := hall g haccept
      obtain ⟨l', s', hturn, hprogress, hadvanced⟩ :=
        processChunk_of_accepted hS hS.counts l h (by rwa [hconsumed]) haccept
      have hbytes : 8 + l.progress.consumed c.data.length c.chunkType + 4 = c.bytes.length := by
        omega
      rw [hbytes] at hturn hadvanced
      rw [hturn]
      dsimp only
      by_cases hiend : c.chunkType = .IEND
      · rw [if_pos hiend, if_pos (show ChunkType.ofWord c.type = .IEND from hiend)]
      · rw [if_neg hiend, if_neg (show ChunkType.ofWord c.type ≠ .IEND from hiend)]
        have hend' : ∃ c ∈ chunks, c.chunkType = .IEND := by
          obtain ⟨d, hd, hdend⟩ := hend
          rcases List.mem_cons.mp hd with rfl | hd
          · exact absurd hdend hiend
          · exact ⟨d, hd, hdend⟩
        rw [ih hend' (hprogress ▸ hrest hiend) (left_of_advanced h hadvanced)
          (Nat.le_of_succ_le_succ hfuel), hprogress, List.length_append]
        rfl

/-- A list of bytes with an offset, which may run past the end. -/
def listStream : ByteStream (List UInt8 × ℕ) where
  data := Prod.fst
  offset := Prod.snd
  read s n := ((s.1.drop s.2).take n, (s.1, s.2 + n))
  skip s n := (s.1, s.2 + n)

theorem listStream_lawful : listStream.Lawful where
  bytes_read _ _ _ := rfl
  data_read _ _ _ := rfl
  offset_read _ _ _ := rfl
  data_skip _ _ _ := rfl
  offset_skip _ _ _ := rfl

theorem listStream_counts : listStream.Counts fun _ _ => True where
  read _ _ _ := ⟨rfl, rfl, fun _ _ => trivial⟩
  skip _ _ _ := ⟨rfl, rfl, fun _ _ => trivial⟩
  room_mono _ _ _ _ _ := trivial

/-- Where the loop finds the chunks of a file, it has gone over them in full. -/
theorem consumesAll_of_loadChunks {l : ChunkLoader} {chunks : List FileChunk}
    {s : List UInt8 × ℕ} (h : listStream.Left s front (chunks.flatMap FileChunk.bytes ++ rest))
    (hload : l.loadChunks listStream chunks.length s =
      some (l.progress.visits front.length chunks)) : l.progress.ConsumesAll chunks := by
  induction chunks generalizing l s front with
  | nil => trivial
  | cons c chunks ih =>
    intro g haccept
    rw [List.flatMap_cons, List.append_assoc] at h
    have hlength := c.length_bytes
    obtain ⟨l', s', hturn, hprogress, hadvanced⟩ :=
      processChunk_of_accepted listStream_lawful listStream_counts l h trivial haccept
    rw [List.length_cons, loadChunks, hturn, Progress.visits, haccept] at hload
    dsimp only at hload
    have hsame : ∀ {tail tail' : List Visit}, (⟨front.length, c.type,
        some (front.length + (8 + l.progress.consumed c.data.length c.chunkType + 4))⟩ :: tail :
        List Visit) = ⟨front.length, c.type, some (front.length + c.bytes.length)⟩ :: tail' →
        l.progress.consumed c.data.length c.chunkType = c.data.length ∧ tail = tail' := by
      intro tail tail' heq
      obtain ⟨hvisit, htail⟩ := List.cons.inj heq
      have hending := Option.some.inj (congrArg Visit.ending hvisit)
      exact ⟨by omega, htail⟩
    by_cases hiend : c.chunkType = .IEND
    · rw [if_pos hiend, if_pos (show ChunkType.ofWord c.type = .IEND from hiend)] at hload
      exact ⟨(hsame (Option.some.inj hload)).1, fun hother => absurd hiend hother⟩
    · rw [if_neg hiend, if_neg (show ChunkType.ofWord c.type ≠ .IEND from hiend),
        Option.map_eq_some_iff] at hload
      obtain ⟨tail, hrest, heq⟩ := hload
      obtain ⟨hconsumed, rfl⟩ := hsame heq
      refine ⟨hconsumed, fun _ => ?_⟩
      rw [hconsumed, show 8 + c.data.length + 4 = c.bytes.length by omega] at hadvanced
      rw [← hprogress]
      refine ih (left_of_advanced h hadvanced) ?_
      rw [hrest, hprogress, List.length_append]

/-- `tRNS` of a truecolour image, with the colour of the transparent pixels. -/
def transparentBlack : FileChunk :=
  ⟨toChunkType 't' 'R' 'N' 'S', [0, 0, 0, 0, 0, 0], [0x6E, 0xA6, 0x07, 0x91], by decide, by decide,
    by decide⟩

/-- The last chunk of a file. -/
def imageEnd : FileChunk :=
  ⟨toChunkType 'I' 'E' 'N' 'D', [], [0xAE, 0x42, 0x60, 0x82], by decide, by decide, by decide⟩

/-- The first four bytes of a `tRNS` are taken for its checksum. -/
theorem not_loadChunks : listStream.Lawful ∧
    (start .trueColor).loadChunks listStream 2 (transparentBlack.bytes ++ imageEnd.bytes, 0) ≠
      some ((start .trueColor).progress.visits 0 [transparentBlack, imageEnd]) :=
  ⟨listStream_lawful, by decide⟩

/-- **Which files the loop keeps its place in.** With every stream, the loop comes to the chunks of
a file, each at its position, up to `IEND` or to one it refuses, exactly when the handlers go over
all bytes of these chunks: a `tRNS` must have an alpha for each entry of the palette, or be empty
where no palette is read, and `IEND` must be empty. -/
theorem loadChunks_iff (colorType : ColorType) (header trailing : List UInt8)
    (chunks : List FileChunk) (hend : ∃ c ∈ chunks, c.chunkType = .IEND) :
    (∀ (σ : Type) (S : ByteStream σ) (s : σ), S.Lawful →
      S.Left s header (chunks.flatMap FileChunk.bytes ++ trailing) →
        ∀ fuel ≥ chunks.length, (start colorType).loadChunks S fuel s =
          some ((start colorType).progress.visits header.length chunks)) ↔
      (start colorType).progress.ConsumesAll chunks := by
  constructor
  · intro h
    have hleft : listStream.Left (header ++ (chunks.flatMap FileChunk.bytes ++ trailing),
        header.length) header (chunks.flatMap FileChunk.bytes ++ trailing) := ⟨rfl, rfl⟩
    exact consumesAll_of_loadChunks hleft (h _ listStream _ listStream_lawful hleft _ le_rfl)
  · intro hall σ S s hS hleft fuel hfuel
    exact loadChunks_of_consumesAll hS hend hall hleft hfuel

/-- The chunks of an image of one pixel with a palette of one half transparent colour. -/
def onePixel : List FileChunk :=
  [⟨toChunkType 'P' 'L' 'T' 'E', [1, 2, 3], [0x0d, 0x87, 0x64, 0xd5], by decide, by decide,
      by decide⟩,
    ⟨toChunkType 't' 'R' 'N' 'S', [0x80], [0xad, 0x5e, 0x5b, 0x46], by decide, by decide,
      by decide⟩,
    ⟨toChunkType 'I' 'D' 'A' 'T', [0x78, 0x9c, 0x63, 0x60, 0, 0, 0, 2, 0, 1],
      [0x48, 0xaf, 0xa4, 0x71], by decide, by decide, by decide⟩,
    imageEnd]

theorem onePixel_consumesAll : (start .indexed).progress.ConsumesAll onePixel := by
  refine fun g hg => ⟨rfl, fun _ => ?_⟩
  obtain rfl := Option.some.inj hg
  refine fun g hg => ⟨rfl, fun _ => ?_⟩
  obtain rfl := Option.some.inj hg
  refine fun g hg => ⟨rfl, fun _ => ?_⟩
  obtain rfl := Option.some.inj hg
  exact fun g hg => ⟨rfl, fun hend => absurd rfl hend⟩

/-- The loop keeps its place in them. -/
theorem loadChunks_onePixel :
    (start .indexed).loadChunks listStream 4 (onePixel.flatMap FileChunk.bytes, 0) =
      some ((start .indexed).progress.visits 0 onePixel) :=
  (loadChunks_iff .indexed [] [] onePixel ⟨imageEnd, by simp [onePixel], rfl⟩).mpr
    onePixel_consumesAll _ listStream _ listStream_lawful
    ⟨(List.append_nil _).symm, rfl⟩ 4 (Nat.le_refl 4)

end ChunkLoader

end

end Cryptix.PNG
