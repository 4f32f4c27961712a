import Mathlib.Algebra.Order.Ring.Nat
import Mathlib.Data.List.GetD
import Mathlib.Tactic.NormNum
import Cryptix.Lib.Bytes
import Cryptix.Lib.Transition
import Cryptix.Prism
import Cryptix.PNG.Filter

/-!
# From the rows of a PNG to its pixels

`Defilter` of `Kernel/Library/Image.cpp` writes the rows of an image one after the other into the
buffer of the pixels, unfilters each of them there and widens its pixels to four bytes.

A row is written where the stream stands, behind the bytes of the rows before it, and unfiltered
where its pixels belong. The two places are one when a pixel has four bytes already, or in the first
row. The other limits are those of 32-bit numbers: the number of pixels, and the length of a row of
which the unfiltering is told.
-/

namespace Cryptix.PNG

open Lib

/-- A number as an `i32`. -/
def toI32 (n : ℕ) : ℤ := (n : ℤ).bmod (2 ^ 32)

/-- A `FilterType` in the stream. -/
def FilterType.ofByte (byte : UInt8) : Option FilterType :=
  match byte.toNat with
  | 0 => some .none
  | 1 => some .sub
  | 2 => some .up
  | 3 => some .average
  | 4 => some .paeth
  | _ => Option.none

/-- `Loader`, as far as the pixels depend on it. The format allows widths and heights below
`2 ^ 31`. -/
structure Loader where
  width : ℕ
  height : ℕ
  depth : ℕ
  channelCount : ℕ
  deriving DecidableEq, Repr

/-- What the loop over the rows works on: the new buffer, the offset of `outStream`, what is left of
`inputStream`, and the row before. -/
structure Scanlines where
  reconstructed : ℕ → UInt8
  written : ℕ
  input : List UInt8
  previousRow : Option ℕ

/-- The state with another buffer. -/
def Scanlines.withBuffer (s : Scanlines) (mem : ℕ → UInt8) : Scanlines :=
  { s with reconstructed := mem }

namespace Loader

variable (l : Loader)

/-- `bytesPerSample`. -/
def bytesPerSample : ℕ := if l.depth = 16 then 2 else 1

/-- `bitsPerPixel`, which counts bytes. -/
def bitsPerPixel : ℕ := l.bytesPerSample * l.channelCount

/-- `stride`. -/
def stride : ℕ := l.width * 4 * l.bytesPerSample

/-- `imageRowBytes`. -/
def imageRowBytes : ℕ := Prism.divRoundUp (l.channelCount * l.width * l.depth) 8

/-- `expectedSize`. -/
def expectedSize : ℕ := (l.imageRowBytes + 1) * l.height

/-- The size of `reconstructedScanlines`: the number of pixels is a product of two `i32`. -/
def bufferSize : ℕ := (toI32 (l.width * l.height) * 4 % wordCount).toNat

/-- The number of turns of the loop of `UnfilterScanline`, whose `length` is an `i32`. -/
def unfilterLength : ℕ := (toI32 l.imageRowBytes).toNat

/-- Moves the samples of a pixel to where its four bytes belong. -/
def expandPixel (currentRow : ℕ) (mem : ℕ → UInt8) (x : ℕ) : ℕ → UInt8 :=
  let src := currentRow + x * l.channelCount
  let dst := currentRow + x * 4
  let mem := overlay dst l.channelCount (fun i => mem (src + i)) mem
  if l.channelCount = 3 then Function.update mem (dst + 3) 255 else mem

/-- The loop that widens the pixels of a row, from the last one down. -/
def expandRow (mem : ℕ → UInt8) (currentRow : ℕ) : ℕ → UInt8 :=
  if l.channelCount < 4 ∧ l.depth = 8 then
    (List.range l.width).reverse.foldl (l.expandPixel currentRow) mem
  else mem

/-- The loop that swaps the bytes of the samples of a row. -/
def swapRow (mem : ℕ → UInt8) (currentRow : ℕ) : ℕ → UInt8 :=
  if l.depth = 16 then
    (List.range ((l.stride + 1) / 2)).foldl (fun mem i =>
      let low := mem (currentRow + 2 * i)
      let high := mem (currentRow + 2 * i + 1)
      Function.update (Function.update mem (currentRow + 2 * i) high) (currentRow + 2 * i + 1) low)
      mem
  else mem

/-- One turn of the loop of `Defilter`. -/
def defilterRow (s : Scanlines) (y : ℕ) : Option Scanlines :=
  match s.input with
  -- the size of the stream has been checked
  | [] => none
  | byte :: rest =>
    match FilterType.ofByte byte with
    | none => none
    | some filter =>
      let mem := writeBytes s.reconstructed s.written (rest.take l.imageRowBytes)
      let currentRow := l.stride * y
      let mem := unfilterScanline mem currentRow s.previousRow l.bitsPerPixel l.unfilterLength
        filter
      let mem := l.expandRow mem currentRow
      let mem := l.swapRow mem currentRow
      some ⟨mem, s.written + l.imageRowBytes, rest.drop l.imageRowBytes, some currentRow⟩

/-- `Defilter`; a new buffer holds the bytes `fresh`. The empty buffer stands for a failure. -/
def defilter (fresh : ℕ → UInt8) (input : List UInt8) : List UInt8 :=
  if input.length < l.expectedSize then []
  else
    match (List.range l.height).foldlM l.defilterRow ⟨fresh, 0, input, none⟩ with
    | none => []
    | some s => (List.range l.bufferSize).map s.reconstructed

end Loader

/-! ## Images and their pixels -/

/-- A `FilterType` as it is stored. -/
def FilterType.toByte : FilterType → UInt8
  | .none => 0
  | .sub => 1
  | .up => 2
  | .average => 3
  | .paeth => 4

@[simp] theorem FilterType.ofByte_toByte (f : FilterType) : ofByte f.toByte = some f := by
  cases f <;> rfl

/-- The rows of an image above the one at `y`. -/
def rowBefore (rows : ℕ → ℕ → UInt8) : ℕ → ℕ → UInt8
  | 0 => fun _ => 0
  | y + 1 => rows y

namespace Loader

variable (l : Loader) (filters : ℕ → FilterType) (rows : ℕ → ℕ → UInt8)

/-- An image of pixels with three or four samples of eight bits. -/
structure TrueColor (l : Loader) : Prop where
  depth : l.depth = 8
  channels : l.channelCount = 3 ∨ l.channelCount = 4
  width_pos : 0 < l.width
  width_lt : l.width < 2 ^ 31
  height_pos : 0 < l.height
  height_lt : l.height < 2 ^ 31

/-- The prediction for a byte of the image. -/
def predictedAt (y x : ℕ) : UInt8 :=
  predicted (filters y) l.channelCount (rowBefore rows y) (rows y) x

/-- A row of the image with its filter. -/
def encodeRow (y : ℕ) : List UInt8 :=
  (filters y).toByte :: (List.range (l.channelCount * l.width)).map
    (filterScanline (filters y) l.channelCount (rowBefore rows y) (rows y))

/-- The image with a filter for each row. -/
def encode : List UInt8 := (List.range l.height).flatMap (l.encodeRow filters rows)

/-- A byte of a pixel of four bytes: a sample, or a full alpha where the image has none. -/
def sample (y x c : ℕ) : UInt8 :=
  if c < l.channelCount then rows y (x * l.channelCount + c) else 255

/-- The pixels of the image, row by row. -/
def Shows (pixels : List UInt8) : Prop :=
  pixels.length = l.width * l.height * 4 ∧
    ∀ y < l.height, ∀ x < l.width, ∀ c < 4,
      pixels[(y * l.width + x) * 4 + c]? = some (l.sample rows y x c)

instance (pixels : List UInt8) : Decidable (l.Shows rows pixels) :=
  inferInstanceAs (Decidable (_ ∧ _))

/-- Two rows of a single black pixel: the red sample of the second one is written over the alpha
of the first. -/
theorem not_defilter_shows : TrueColor ⟨1, 2, 8, 3⟩ ∧
    ¬ Shows ⟨1, 2, 8, 3⟩ (fun _ _ => 0)
      (defilter ⟨1, 2, 8, 3⟩ (fun _ => 0)
        (encode ⟨1, 2, 8, 3⟩ (fun _ => .none) fun _ _ => 0)) :=
  ⟨⟨rfl, .inl rfl, by decide, by decide, by decide, by decide⟩, by decide +kernel⟩

variable {l : Loader}

/-! ## The sizes -/

theorem toI32_eq (n : ℕ) : toI32 n =
    if (n : ℤ) % 4294967296 < 2147483648 then (n : ℤ) % 4294967296
    else (n : ℤ) % 4294967296 - 4294967296 := rfl

theorem toI32_le (n : ℕ) : toI32 n ≤ n := by
  have := toI32_eq n
  split at this <;> omega

theorem unfilterLength_le : l.unfilterLength ≤ l.imageRowBytes := by
  have := toI32_le l.imageRowBytes
  unfold unfilterLength
  omega

section Sizes

variable (hl : l.TrueColor)

include hl

theorem TrueColor.bitsPerPixel_eq : l.bitsPerPixel = l.channelCount := by
  rw [bitsPerPixel, bytesPerSample, hl.depth, if_neg (by decide), Nat.one_mul]

theorem TrueColor.stride_eq : l.stride = 4 * l.width := by
  rw [stride, bytesPerSample, hl.depth, if_neg (by decide), Nat.mul_one, Nat.mul_comm]

theorem TrueColor.imageRowBytes_eq : l.imageRowBytes = l.channelCount * l.width := by
  rw [imageRowBytes, hl.depth, Prism.divRoundUp]
  omega

theorem TrueColor.channelCount_pos : 0 < l.channelCount := by
  rcases hl.channels with h | h <;> omega

theorem TrueColor.channelCount_le : l.channelCount ≤ 4 := by
  rcases hl.channels with h | h <;> omega

theorem TrueColor.imageRowBytes_le : l.imageRowBytes ≤ l.stride := by
  rw [hl.imageRowBytes_eq, hl.stride_eq]
  exact Nat.mul_le_mul_right _ hl.channelCount_le

/-- The buffer has four bytes for each pixel as long as an `i32` counts the pixels. -/
theorem TrueColor.bufferSize_eq_iff :
    l.bufferSize = l.width * l.height * 4 ↔ l.width * l.height < 2 ^ 31 := by
  have hwidth := hl.width_lt
  have hheight := hl.height_lt
  have hpixels : l.width * l.height ≤ (2 ^ 31 - 1) * (2 ^ 31 - 1) :=
    Nat.mul_le_mul (by omega) (by omega)
  rw [bufferSize, wordCount]
  generalize l.width * l.height = pixels at hpixels
  have hword := toI32_eq pixels
  split at hword <;> omega

end Sizes

/-! ## One row -/

/-- The bytes of a row with four bytes for each pixel. -/
def widened (l : Loader) (row : ℕ → UInt8) (k : ℕ) : UInt8 :=
  if k % 4 < l.channelCount then row (k / 4 * l.channelCount + k % 4) else 255

theorem widened_pixel (row : ℕ → UInt8) (x : ℕ) {c : ℕ} (hc : c < 4) :
    l.widened row (x * 4 + c) =
      if c < l.channelCount then row (x * l.channelCount + c) else 255 := by
  have hdiv : (x * 4 + c) / 4 = x := by omega
  have hmod : (x * 4 + c) % 4 = c := by omega
  rw [widened, hdiv, hmod]

theorem widened_of_channelCount (hc : l.channelCount = 4) (row : ℕ → UInt8) :
    l.widened row = row := by
  funext k
  have hmod : k % 4 < 4 := Nat.mod_lt k (by decide)
  rw [widened, hc, if_pos hmod]
  congr 1
  omega

/-- Where a byte of a row is after its pixels have been widened. -/
theorem widened_sample (hl : l.TrueColor) {x : ℕ} (hx : x < l.channelCount * l.width) :
    x / l.channelCount * 4 + x % l.channelCount < l.stride ∧
      ∀ row, l.widened row (x / l.channelCount * 4 + x % l.channelCount) = row x := by
  have hmod : x % l.channelCount < l.channelCount := Nat.mod_lt x hl.channelCount_pos
  have hpixel : x / l.channelCount < l.width := Nat.div_lt_of_lt_mul hx
  have hfour := hl.channelCount_le
  refine ⟨?_, fun row => ?_⟩
  · rw [hl.stride_eq]
    omega
  · rw [widened_pixel row _ (hmod.trans_le hfour), if_pos hmod, Nat.div_add_mod']

theorem widened_congr {row row' : ℕ → UInt8} {k : ℕ} (hk : k < 4 * l.width)
    (h : ∀ x < l.channelCount * l.width, row x = row' x) : l.widened row k = l.widened row' k := by
  unfold widened
  split
  · rename_i hlt
    refine h _ ?_
    have hpixel : k / 4 + 1 ≤ l.width := by omega
    calc k / 4 * l.channelCount + k % 4 < (k / 4 + 1) * l.channelCount := by
          rw [Nat.add_mul, Nat.one_mul]
          omega
      _ ≤ l.width * l.channelCount := Nat.mul_le_mul_right _ hpixel
      _ = l.channelCount * l.width := Nat.mul_comm _ _
  · rfl

theorem expandPixel_apply (hc : l.channelCount = 3) (currentRow : ℕ) (mem : ℕ → UInt8)
    (x i : ℕ) :
    l.expandPixel currentRow mem x i =
      if i < currentRow + x * 4 ∨ currentRow + x * 4 + 4 ≤ i then mem i
      else if i < currentRow + x * 4 + 3 then mem (currentRow + x * 3 + (i - (currentRow + x * 4)))
      else 255 := by
  rw [expandPixel, if_pos hc, hc]
  by_cases halpha : i = currentRow + x * 4 + 3
  · subst halpha
    rw [Function.update_self, if_neg (by omega), if_neg (by omega)]
  · rw [Function.update_of_ne halpha]
    by_cases hout : i < currentRow + x * 4 ∨ currentRow + x * 4 + 4 ≤ i
    · rw [if_pos hout, overlay_of_not_mem _ _ (by omega)]
    · rw [if_neg hout, if_pos (by omega), overlay, if_pos (by omega)]

/-- Widening the pixels from the last one down does not overwrite a pixel before it is moved. -/
theorem foldl_expandPixel (hc : l.channelCount = 3) (mem : ℕ → UInt8) (currentRow n : ℕ) :
    (List.range n).reverse.foldl (l.expandPixel currentRow) mem =
      overlay currentRow (4 * n) (l.widened fun x => mem (currentRow + x)) mem := by
  -- by induction on the number of pixels that are left
  induction n generalizing mem with
  | zero => exact (overlay_zero _ _ _).symm
  | succ n ih =>
    rw [List.range_succ, List.reverse_append, List.reverse_singleton, List.singleton_append,
      List.foldl_cons, ih]
    funext j
    simp only [overlay, widened, hc, expandPixel_apply hc]
    by_cases hbefore : currentRow ≤ j ∧ j < currentRow + 4 * n
    · -- the pixels before this one find their samples as they were
      have hwhole : currentRow ≤ j ∧ j < currentRow + 4 * (n + 1) := by omega
      rw [if_pos hbefore, if_pos hwhole]
      split
      · rw [if_pos (Or.inl (by omega))]
      · rfl
    · rw [if_neg hbefore]
      by_cases hpixel : currentRow + n * 4 ≤ j ∧ j < currentRow + n * 4 + 4
      · have hdiv : (j - currentRow) / 4 = n := by omega
        have hmod : (j - currentRow) % 4 = j - (currentRow + n * 4) := by omega
        have hwhole : currentRow ≤ j ∧ j < currentRow + 4 * (n + 1) := by omega
        have hinside : ¬ (j < currentRow + n * 4 ∨ currentRow + n * 4 + 4 ≤ j) := by omega
        rw [if_neg hinside, if_pos hwhole, hdiv, hmod]
        exact if_congr (by omega) (by rw [Nat.add_assoc]) rfl
      · have hout : ¬ (currentRow ≤ j ∧ j < currentRow + 4 * (n + 1)) := by omega
        rw [if_pos (by omega), if_neg hout]

theorem expandRow_eq (hl : l.TrueColor) (mem : ℕ → UInt8) (currentRow : ℕ) :
    l.expandRow mem currentRow =
      overlay currentRow l.stride (l.widened fun x => mem (currentRow + x)) mem := by
  rw [hl.stride_eq]
  rcases hl.channels with hc | hc
  · rw [expandRow, if_pos ⟨by omega, hl.depth⟩, foldl_expandPixel hc]
  · rw [expandRow, if_neg (by omega), widened_of_channelCount hc]
    funext j
    rw [overlay]
    split
    · congr 1
      omega
    · rfl

theorem swapRow_eq (hl : l.TrueColor) (mem : ℕ → UInt8) (currentRow : ℕ) :
    l.swapRow mem currentRow = mem := by
  rw [swapRow, hl.depth, if_neg (by decide)]

variable {filters : ℕ → FilterType} {rows : ℕ → ℕ → UInt8}

/-- A row of the image of which the bytes from `unfilterLength` on are still filtered. -/
def halfRestored (l : Loader) (filters : ℕ → FilterType) (rows : ℕ → ℕ → UInt8) (y x : ℕ) :
    UInt8 :=
  if x < l.unfilterLength then rows y x
  else filterScanline (filters y) l.channelCount (rowBefore rows y) (rows y) x

/-- Where the row before the one at `y` has been put. -/
def rowBeforeAt (l : Loader) : ℕ → Option ℕ
  | 0 => none
  | y + 1 => some (l.stride * y)

theorem rowBeforeAt_le {y above : ℕ} (h : above ∈ l.rowBeforeAt y) :
    above + l.stride ≤ l.stride * y := by
  cases y with
  | zero => cases h
  | succ y =>
    obtain rfl : l.stride * y = above := by simpa [rowBeforeAt] using h
    exact le_rfl

/-- The rows from `y` on. -/
def encodeFrom (l : Loader) (filters : ℕ → FilterType) (rows : ℕ → ℕ → UInt8) (y : ℕ) :
    List UInt8 :=
  (List.range' y (l.height - y)).flatMap (l.encodeRow filters rows)

theorem encodeFrom_of_lt {y : ℕ} (hy : y < l.height) :
    l.encodeFrom filters rows y =
      l.encodeRow filters rows y ++ l.encodeFrom filters rows (y + 1) := by
  rw [encodeFrom, show l.height - y = l.height - (y + 1) + 1 by omega, List.range'_succ,
    List.flatMap_cons]
  rfl

/-- The state before the row at `y`, with the rows before it in place. -/
structure Before (l : Loader) (filters : ℕ → FilterType) (rows : ℕ → ℕ → UInt8) (y : ℕ)
    (s : Scanlines) : Prop where
  written_eq : s.written = l.imageRowBytes * y
  input_eq : s.input = l.encodeFrom filters rows y
  previousRow_eq : s.previousRow = l.rowBeforeAt y
  row_eq : ∀ y' < y, ∀ k < l.stride,
    s.reconstructed (l.stride * y' + k) = l.widened (rows y') k

/-- Before a row is unfiltered, the row above is found in its final form. -/
theorem rowAbove_before (hl : l.TrueColor) {y : ℕ} {s : Scanlines}
    (hs : l.Before filters rows y s) (hplace : l.channelCount = 4 ∨ y = 0)
    (raw : ℕ → UInt8) {x : ℕ} (hx : x < l.imageRowBytes) :
    rowAbove (overlay (l.stride * y) l.imageRowBytes raw s.reconstructed) s.previousRow x =
      rowBefore rows y x := by
  rw [hs.previousRow_eq]
  cases y with
  | zero => rfl
  | succ y =>
    have hc : l.channelCount = 4 := hplace.resolve_right (Nat.succ_ne_zero y)
    have hbytes := hl.imageRowBytes_le
    have hbelow : l.stride * y + x < l.stride * (y + 1) := by
      rw [Nat.mul_succ]
      omega
    change overlay _ _ raw s.reconstructed (l.stride * y + x) = rows y x
    rw [overlay_of_not_mem _ _ (Or.inl hbelow),
      hs.row_eq y (Nat.lt_succ_self y) x (hx.trans_le hbytes), widened_of_channelCount hc]

/-- A row that is written where its pixels belong is restored up to `unfilterLength` and widened.
That is so in the first row, and when a pixel has four bytes already. -/
theorem defilterRow_eq (hl : l.TrueColor) {y : ℕ} {s : Scanlines} (hy : y < l.height)
    (hs : l.Before filters rows y s) (hplace : l.channelCount = 4 ∨ y = 0) :
    l.defilterRow s y = some
      ⟨overlay (l.stride * y) l.stride (l.widened (l.halfRestored filters rows y))
        s.reconstructed, l.imageRowBytes * (y + 1), l.encodeFrom filters rows (y + 1),
        l.rowBeforeAt (y + 1)⟩ := by
  set raw := filterScanline (filters y) l.channelCount (rowBefore rows y) (rows y) with hraw
  have hbytes := hl.imageRowBytes_eq
  have hstride := hl.imageRowBytes_le
  have hlength : l.unfilterLength ≤ l.imageRowBytes := l.unfilterLength_le
  have hstart : s.written = l.stride * y := by
    rw [hs.written_eq]
    rcases hplace with hc | rfl
    · rw [hbytes, hl.stride_eq, hc]
    · rfl
  have hlen : ((List.range (l.channelCount * l.width)).map raw).length = l.imageRowBytes := by
    rw [List.length_map, List.length_range, hbytes]
  -- the row as it is written, as it is unfiltered, and as it is widened
  have hwrite : writeBytes s.reconstructed s.written
      ((List.range (l.channelCount * l.width)).map raw) =
      overlay (l.stride * y) l.imageRowBytes raw s.reconstructed := by
    rw [← hlen, hstart]
    change overlay _ _ (fun k => ((List.range (l.channelCount * l.width)).map raw).getD k 0) _ = _
    refine overlay_congr (fun k hk => ?_) fun _ _ => rfl
    rw [List.getD_eq_getElem _ _ hk, List.getElem_map, List.getElem_range]
  set written := overlay (l.stride * y) l.imageRowBytes raw s.reconstructed with hwritten
  have hunfilter : unfilterScanline written (l.stride * y) s.previousRow l.bitsPerPixel
      l.unfilterLength (filters y) = overlay (l.stride * y) l.unfilterLength (rows y) written := by
    rw [hl.bitsPerPixel_eq]
    refine unfilterScanline_eq_overlay (rows y) hl.channelCount_pos (fun above habove => ?_)
      fun x hx => ?_
    · have hend := rowBeforeAt_le (hs.previousRow_eq ▸ habove)
      omega
    · rw [hwritten, overlay_of_mem _ _ _ (hx.trans_le hlength), hraw, filterScanline,
        predicted_congr hl.channelCount_pos (fun i hi => rowAbove_before hl hs hplace _ (by omega))
          fun _ _ => rfl]
      exact (UInt8.sub_add_cancel _ _).symm
  have hexpand : l.expandRow (overlay (l.stride * y) l.unfilterLength (rows y) written)
      (l.stride * y) =
      overlay (l.stride * y) l.stride (l.widened (l.halfRestored filters rows y))
        s.reconstructed := by
    rw [expandRow_eq hl]
    refine overlay_congr (fun k hk => ?_) fun j hj => ?_
    · rw [hl.stride_eq] at hk
      refine widened_congr hk fun x hx => ?_
      rw [halfRestored]
      split
      · rw [overlay_of_mem _ _ _ (by assumption)]
      · rw [overlay_of_not_mem _ _ (by omega), hwritten, overlay_of_mem _ _ _ (by omega)]
    · rw [overlay_of_not_mem _ _ (by omega), hwritten, overlay_of_not_mem _ _ (by omega)]
  rw [defilterRow, hs.input_eq, encodeFrom_of_lt hy, encodeRow, List.cons_append]
  simp only [FilterType.ofByte_toByte]
  rw [List.take_left' hlen, List.drop_left' hlen, hwrite, hunfilter, hexpand, swapRow_eq hl,
    hs.written_eq]
  rfl

/-- From `unfilterLength` on the filter of a row changes nothing. -/
def KeepsTail (l : Loader) (filters : ℕ → FilterType) (rows : ℕ → ℕ → UInt8) (y : ℕ) : Prop :=
  ∀ x, l.unfilterLength ≤ x → x < l.imageRowBytes → l.predictedAt filters rows y x = 0

theorem KeepsTail.halfRestored_eq (hl : l.TrueColor) {y : ℕ} (h : l.KeepsTail filters rows y)
    {x : ℕ} (hx : x < l.channelCount * l.width) : l.halfRestored filters rows y x = rows y x := by
  rw [halfRestored]
  split
  · rfl
  · have hzero := h x (by omega) (hl.imageRowBytes_eq ▸ hx)
    rw [predictedAt] at hzero
    rw [filterScanline, hzero]
    exact UInt8.sub_zero _

/-- One row keeps the rows before it and puts the next one in place. -/
theorem Before.defilterRow (hl : l.TrueColor) {y : ℕ} {s : Scanlines} (hy : y < l.height)
    (hs : l.Before filters rows y s) (hplace : l.channelCount = 4 ∨ y = 0)
    (htail : l.KeepsTail filters rows y) :
    ∃ s', l.defilterRow s y = some s' ∧ l.Before filters rows (y + 1) s' := by
  refine ⟨_, defilterRow_eq hl hy hs hplace, rfl, rfl, rfl, fun y' hy' k hk => ?_⟩
  rcases Nat.lt_succ_iff_lt_or_eq.mp hy' with hbefore | rfl
  · have hbelow : l.stride * (y' + 1) ≤ l.stride * y := Nat.mul_le_mul_left _ hbefore
    rw [Nat.mul_succ] at hbelow
    exact (overlay_of_not_mem _ _ (by omega)).trans (hs.row_eq y' hbefore k hk)
  · refine (overlay_of_mem _ _ _ hk).trans ?_
    rw [hl.stride_eq] at hk
    exact widened_congr hk fun x hx => htail.halfRestored_eq hl hx

/-- The state before the row at `n`. -/
def run (l : Loader) (fresh : ℕ → UInt8) (input : List UInt8) (n : ℕ) : Option Scanlines :=
  (List.range n).foldlM l.defilterRow ⟨fresh, 0, input, none⟩

theorem run_succ (fresh : ℕ → UInt8) (input : List UInt8) (n : ℕ) :
    l.run fresh input (n + 1) = (l.run fresh input n).bind fun s => l.defilterRow s n := by
  rw [run, List.range_succ, List.foldlM_append]
  simp only [List.foldlM_cons, List.foldlM_nil, Option.pure_def, Option.bind_eq_bind,
    Option.bind_fun_some, run]

theorem run_before (hl : l.TrueColor) (fresh : ℕ → UInt8) {n : ℕ} (hn : n ≤ l.height)
    (hplace : l.channelCount = 4 ∨ n ≤ 1) (htail : ∀ y < n, l.KeepsTail filters rows y) :
    ∃ s, l.run fresh (l.encode filters rows) n = some s ∧ l.Before filters rows n s := by
  induction n with
  | zero =>
    refine ⟨_, rfl, rfl, ?_, rfl, fun y' hy' => absurd hy' (Nat.not_lt_zero y')⟩
    rw [encode, encodeFrom, List.range_eq_range']
    rfl
  | succ n ih =>
    obtain ⟨s, hrun, hs⟩ := ih (by omega) (by omega) fun y hy => htail y (by omega)
    obtain ⟨s', hstep, hs'⟩ := hs.defilterRow hl (by omega) (by omega) (htail n (by omega))
    exact ⟨s', by rw [run_succ, hrun, Option.bind_some, hstep], hs'⟩

/-! ## All rows -/

theorem length_encode (hl : l.TrueColor) :
    (l.encode filters rows).length = l.expectedSize := by
  have hrow : ∀ y, (l.encodeRow filters rows y).length = l.imageRowBytes + 1 := by
    intro y
    rw [encodeRow, List.length_cons, List.length_map, List.length_range, hl.imageRowBytes_eq]
  rw [encode, List.length_flatMap, expectedSize]
  simp only [hrow, List.map_const', List.length_range, List.sum_replicate_nat]
  exact Nat.mul_comm _ _

/-- The place of a byte of a pixel, counted by rows. -/
theorem pixel_index (hl : l.TrueColor) {y x c : ℕ} (hy : y < l.height) (hx : x < l.width)
    (hc : c < 4) :
    (y * l.width + x) * 4 + c = l.stride * y + (x * 4 + c) ∧
      (y * l.width + x) * 4 + c < l.width * l.height * 4 := by
  have hrow : (y + 1) * l.width ≤ l.height * l.width := Nat.mul_le_mul_right _ hy
  rw [Nat.add_mul, Nat.one_mul] at hrow
  rw [hl.stride_eq, Nat.mul_comm l.width l.height, Nat.mul_assoc, Nat.mul_comm l.width y]
  constructor <;> omega

/-- What it means for the pixels that they are right. -/
theorem defilter_shows_iff_run (hl : l.TrueColor) (fresh : ℕ → UInt8) :
    l.Shows rows (l.defilter fresh (l.encode filters rows)) ↔
      ∃ s, l.run fresh (l.encode filters rows) l.height = some s ∧
        l.width * l.height < 2 ^ 31 ∧ ∀ y < l.height, ∀ k < l.stride,
          s.reconstructed (l.stride * y + k) = l.widened (rows y) k := by
  have hlength : ¬ (l.encode filters rows).length < l.expectedSize := by
    rw [length_encode hl]
    exact lt_irrefl _
  have hpixels : 0 < l.width * l.height := Nat.mul_pos hl.width_pos hl.height_pos
  rw [defilter, if_neg hlength]
  change l.Shows rows (match l.run fresh (l.encode filters rows) l.height with
    | none => []
    | some s => (List.range l.bufferSize).map s.reconstructed) ↔ _
  cases l.run fresh (l.encode filters rows) l.height with
  | none =>
    constructor
    · rintro ⟨hsize, -⟩
      rw [List.length_nil] at hsize
      omega
    · rintro ⟨s, hs, -⟩
      cases hs
  | some s =>
    simp only [Option.some.injEq, exists_eq_left', Shows, List.length_map, List.length_range,
      hl.bufferSize_eq_iff]
    refine and_congr_right fun hsize => ?_
    have hbuffer := hl.bufferSize_eq_iff.mpr hsize
    constructor
    · intro h y hy k hk
      rw [hl.stride_eq] at hk
      have hx : k / 4 < l.width := by omega
      have hc : k % 4 < 4 := Nat.mod_lt k (by decide)
      obtain ⟨hindex, hlt⟩ := pixel_index hl hy hx hc
      have hbyte := h y hy (k / 4) hx (k % 4) hc
      rw [List.getElem?_map, List.getElem?_range (hbuffer ▸ hlt), Option.map_some, hindex,
        show k / 4 * 4 + k % 4 = k by omega, Option.some.injEq] at hbyte
      rw [hbyte]
      rfl
    · intro h y hy x hx c hc
      obtain ⟨hindex, hlt⟩ := pixel_index hl hy hx hc
      have hk : x * 4 + c < l.stride := by
        rw [hl.stride_eq]
        omega
      rw [List.getElem?_map, List.getElem?_range (hbuffer ▸ hlt), Option.map_some, hindex,
        h y hy _ hk, widened_pixel _ _ hc]
      rfl

/-- The image is shown as it should be when its rows are written where they belong and the
unfiltering reaches to their ends, or need not. -/
theorem shows_of (hl : l.TrueColor) (fresh : ℕ → UInt8) (hsize : l.width * l.height < 2 ^ 31)
    (hplace : l.channelCount = 4 ∨ l.height = 1)
    (htail : ∀ y < l.height, l.KeepsTail filters rows y) :
    l.Shows rows (l.defilter fresh (l.encode filters rows)) := by
  obtain ⟨s, hrun, hs⟩ := run_before hl fresh le_rfl (by omega) htail
  exact (defilter_shows_iff_run hl fresh).mpr ⟨s, hrun, hsize, hs.row_eq⟩

/-! ## Rows that are written elsewhere -/

/-- The bytes of the buffer after a row with the bytes `data` has been written, unfiltered and
widened. -/
def putRow (l : Loader) (s : Scanlines) (y : ℕ) (filter : FilterType) (data : List UInt8)
    (mem : ℕ → UInt8) : ℕ → UInt8 :=
  l.expandRow (unfilterScanline (writeBytes mem s.written data) (l.stride * y) s.previousRow
    l.channelCount l.unfilterLength filter) (l.stride * y)

/-- What one row does does not depend on what the buffer holds, but for the bytes themselves. -/
theorem defilterRow_cases (hl : l.TrueColor) (s : Scanlines) (y : ℕ) :
    (∀ mem, l.defilterRow (s.withBuffer mem) y = none) ∨
      ∃ (filter : FilterType) (data rest : List UInt8), data.length ≤ l.imageRowBytes ∧
        ∀ mem, l.defilterRow (s.withBuffer mem) y = some
          ⟨l.putRow s y filter data mem, s.written + l.imageRowBytes, rest,
            some (l.stride * y)⟩ := by
  simp only [defilterRow, Scanlines.withBuffer, swapRow_eq hl, hl.bitsPerPixel_eq]
  cases s.input with
  | nil => exact .inl fun _ => rfl
  | cons byte rest =>
    cases hfilter : FilterType.ofByte byte with
    | none => exact .inl fun _ => by simp only [hfilter]
    | some filter =>
      refine .inr ⟨filter, rest.take l.imageRowBytes, rest.drop l.imageRowBytes,
        List.length_take_le _ _, fun _ => ?_⟩
      simp only [hfilter]
      rfl

theorem defilterRow_eq_some (hl : l.TrueColor) {s s' : Scanlines} {y : ℕ}
    (h : l.defilterRow s y = some s') :
    ∃ (filter : FilterType) (data rest : List UInt8), data.length ≤ l.imageRowBytes ∧
      s' = ⟨l.putRow s y filter data s.reconstructed, s.written + l.imageRowBytes, rest,
        some (l.stride * y)⟩ := by
  rcases defilterRow_cases hl s y with hnone | ⟨filter, data, rest, hlen, hsome⟩
  · cases h.symm.trans (hnone s.reconstructed)
  · exact ⟨filter, data, rest, hlen, Option.some.inj (h.symm.trans (hsome s.reconstructed))⟩

/-- A byte in front of the row and of what is written stays as it is. -/
theorem defilterRow_frame (hl : l.TrueColor) {s s' : Scanlines} {y i : ℕ}
    (h : l.defilterRow s y = some s') (hrow : i < l.stride * y) (hwritten : i < s.written) :
    s'.reconstructed i = s.reconstructed i := by
  obtain ⟨filter, data, rest, -, rfl⟩ := defilterRow_eq_some hl h
  change l.putRow s y filter data s.reconstructed i = _
  rw [putRow, expandRow_eq hl, overlay_of_not_mem _ _ (Or.inl hrow),
    unfilterScanline_of_not_mem (Or.inl hrow), writeBytes_of_not_mem (Or.inl hwritten)]

/-- Where the rows before the one at `n` have been written. -/
theorem run_written (hl : l.TrueColor) {fresh : ℕ → UInt8} {input : List UInt8} {n : ℕ}
    {s : Scanlines} (h : l.run fresh input n = some s) :
    s.written = l.imageRowBytes * n ∧ s.previousRow = l.rowBeforeAt n := by
  induction n generalizing s with
  | zero =>
    obtain rfl : Scanlines.mk fresh 0 input none = s := Option.some.inj h
    exact ⟨rfl, rfl⟩
  | succ n ih =>
    rw [run_succ, Option.bind_eq_some_iff] at h
    obtain ⟨s₀, hrun, hstep⟩ := h
    obtain ⟨filter, data, rest, -, rfl⟩ := defilterRow_eq_some hl hstep
    exact ⟨congrArg (· + l.imageRowBytes) (ih hrun).1, rfl⟩

/-- The rows from the one at `n` on keep a byte in front of them. -/
theorem run_frame (hl : l.TrueColor) {fresh : ℕ → UInt8} {input : List UInt8} {n m i : ℕ}
    {s s' : Scanlines} (hnm : n ≤ m) (hs : l.run fresh input n = some s)
    (hs' : l.run fresh input m = some s') (hrow : i < l.stride * n)
    (hwritten : n = m ∨ i < l.imageRowBytes * n) : s'.reconstructed i = s.reconstructed i := by
  induction m, hnm using Nat.le_induction generalizing s' with
  | base =>
    obtain rfl : s = s' := Option.some.inj (hs.symm.trans hs')
    rfl
  | succ m hnm ih =>
    rw [run_succ, Option.bind_eq_some_iff] at hs'
    obtain ⟨s₀, hrun, hstep⟩ := hs'
    have hstride : l.stride * n ≤ l.stride * m := Nat.mul_le_mul_left _ hnm
    have hbytes : l.imageRowBytes * n ≤ l.imageRowBytes * m := Nat.mul_le_mul_left _ hnm
    have hbefore : i < l.imageRowBytes * n := hwritten.resolve_left (by omega)
    rw [defilterRow_frame hl hstep (by omega) (by rw [(run_written hl hrun).1]; omega),
      ih hrun (Or.inr hbefore)]

/-- Pixels that are right show that the filters change nothing where the unfiltering does not
reach. -/
theorem keepsTail_of_shows (hl : l.TrueColor) {fresh : ℕ → UInt8}
    (h : l.Shows rows (l.defilter fresh (l.encode filters rows)))
    (hplace : l.channelCount = 4 ∨ l.height = 1) {y : ℕ} (hy : y < l.height) :
    l.KeepsTail filters rows y := by
  obtain ⟨last, hlast, -, hright⟩ := (defilter_shows_iff_run hl fresh).mp h
  -- by induction over the rows: the ones above are in place before this one is unfiltered
  induction y using Nat.strong_induction_on with
  | _ y ih =>
    obtain ⟨s, hrun, hs⟩ : ∃ s, l.run fresh (l.encode filters rows) y = some s ∧
        l.Before filters rows y s :=
      run_before hl fresh hy.le (by omega) fun y' hy' => ih y' hy' (hy'.trans hy)
    have hstep := defilterRow_eq hl hy hs (by omega)
    have hnext := (run_succ fresh (l.encode filters rows) y).trans
      ((congrArg (Option.bind · _) hrun).trans hstep)
    intro x hx hbytes
    obtain ⟨hk, hsample⟩ := widened_sample hl (hl.imageRowBytes_eq ▸ hbytes)
    set k := x / l.channelCount * 4 + x % l.channelCount
    have hframe := run_frame (i := l.stride * y + k) hl (Nat.succ_le_of_lt hy) hnext hlast
      (by rw [Nat.mul_succ]; omega) (by
        rcases hplace with hc | hone
        · right
          rw [hl.imageRowBytes_eq, hc, ← hl.stride_eq, Nat.mul_succ]
          omega
        · left
          omega)
    rw [hright y hy k hk, hsample] at hframe
    have hhalf := hframe.trans ((overlay_of_mem _ _ _ hk).trans (hsample _))
    rw [halfRestored, if_neg (by omega), filterScanline] at hhalf
    exact ((UInt8.sub_right_inj _).mp ((UInt8.sub_zero _).trans hhalf)).symm

theorem writeBytes_update (mem : ℕ → UInt8) (start : ℕ) (data : List UInt8) {p : ℕ} (v : UInt8)
    (hp : start + data.length ≤ p) :
    writeBytes (Function.update mem p v) start data =
      Function.update (writeBytes mem start data) p v :=
  overlay_update (fun i => data.getD i 0) mem v (Or.inr hp)

theorem expandRow_update (hl : l.TrueColor) (mem : ℕ → UInt8) {currentRow p : ℕ} (v : UInt8)
    (hp : currentRow + l.stride ≤ p) :
    l.expandRow (Function.update mem p v) currentRow =
      Function.update (l.expandRow mem currentRow) p v := by
  have hbytes := hl.imageRowBytes_le
  rw [expandRow_eq hl, expandRow_eq hl, ← overlay_update _ mem v (Or.inr hp)]
  refine overlay_congr (fun k hk => ?_) fun _ _ => rfl
  rw [hl.stride_eq] at hk
  refine widened_congr hk fun x hx => Function.update_of_ne ?_ ..
  rw [hl.imageRowBytes_eq] at hbytes
  omega

/-- A byte behind the row and behind what is written is not read. -/
theorem defilterRow_update (hl : l.TrueColor) {s : Scanlines} {y p : ℕ} (v : UInt8)
    (hrow : l.stride * (y + 1) ≤ p) (hwritten : s.written + l.imageRowBytes ≤ p)
    (hprevious : s.previousRow = l.rowBeforeAt y) :
    l.defilterRow (s.withBuffer (Function.update s.reconstructed p v)) y =
      (l.defilterRow s y).map fun s' =>
        s'.withBuffer (Function.update s'.reconstructed p v) := by
  have hbytes := hl.imageRowBytes_le
  have hlength : l.unfilterLength ≤ l.imageRowBytes := l.unfilterLength_le
  rw [Nat.mul_succ] at hrow
  rcases defilterRow_cases hl s y with hnone | ⟨filter, data, rest, hlen, hsome⟩
  · exact (hnone _).trans (congrArg (Option.map _) (hnone s.reconstructed)).symm
  · refine (hsome _).trans (Eq.trans ?_ (congrArg (Option.map _) (hsome s.reconstructed)).symm)
    have hput : l.putRow s y filter data (Function.update s.reconstructed p v) =
        Function.update (l.putRow s y filter data s.reconstructed) p v := by
      rw [putRow, putRow, writeBytes_update _ _ _ _ (by omega),
        unfilterScanline_update _ _ _ hl.channelCount_pos (fun above habove => ?_) (by omega),
        expandRow_update hl _ _ (by omega)]
      have := rowBeforeAt_le (hprevious ▸ habove)
      omega
    rw [hput]
    rfl

theorem run_update (hl : l.TrueColor) (fresh : ℕ → UInt8) (input : List UInt8) {n p : ℕ}
    (v : UInt8) (hrow : l.stride * n ≤ p) (hwritten : l.imageRowBytes * n ≤ p) :
    l.run (Function.update fresh p v) input n =
      (l.run fresh input n).map fun s => s.withBuffer (Function.update s.reconstructed p v) := by
  induction n with
  | zero => rfl
  | succ n ih =>
    have hstride : l.stride * n ≤ l.stride * (n + 1) := Nat.mul_le_mul_left _ n.le_succ
    have hbytes : l.imageRowBytes * n ≤ l.imageRowBytes * (n + 1) :=
      Nat.mul_le_mul_left _ n.le_succ
    rw [run_succ, run_succ, ih (by omega) (by omega)]
    cases hs : l.run fresh input n with
    | none => rfl
    | some s =>
      obtain ⟨hplace, hprevious⟩ := run_written hl hs
      refine defilterRow_update hl v hrow ?_ hprevious
      rw [hplace, ← Nat.mul_succ]
      exact hwritten

/-- The bytes behind the rows are as they were. -/
theorem run_apply (hl : l.TrueColor) {fresh : ℕ → UInt8} {input : List UInt8} {n p : ℕ}
    {s : Scanlines} (h : l.run fresh input n = some s) (hrow : l.stride * n ≤ p)
    (hwritten : l.imageRowBytes * n ≤ p) : s.reconstructed p = fresh p := by
  have hsame := run_update hl fresh input (fresh p) hrow hwritten
  rw [Function.update_eq_self, h] at hsame
  rw [Option.some.inj hsame]
  exact Function.update_self ..

/-- The last sample of a row that is unfiltered behind what is written depends on the byte the
buffer held there. -/
theorem putRow_update_ne (hl : l.TrueColor) (hc : l.channelCount = 3) {s : Scanlines} {y : ℕ}
    (filter : FilterType) {data : List UInt8} {v : UInt8} (hlen : data.length ≤ l.imageRowBytes)
    (hwritten : s.written + l.imageRowBytes ≤ l.stride * y + (l.imageRowBytes - 1))
    (hprevious : s.previousRow = l.rowBeforeAt y) {mem : ℕ → UInt8}
    (hv : v ≠ mem (l.stride * y + (l.imageRowBytes - 1))) :
    l.putRow s y filter data (Function.update mem (l.stride * y + (l.imageRowBytes - 1)) v)
        (l.stride * y + ((l.width - 1) * 4 + 2)) ≠
      l.putRow s y filter data mem (l.stride * y + ((l.width - 1) * 4 + 2)) := by
  have hwidth := hl.width_pos
  have hbytes := hl.imageRowBytes_eq
  have hlast : ∀ mem, l.expandRow mem (l.stride * y) (l.stride * y + ((l.width - 1) * 4 + 2)) =
      mem (l.stride * y + (l.imageRowBytes - 1)) := by
    intro mem
    rw [expandRow_eq hl, overlay_of_mem _ _ _ (by rw [hl.stride_eq]; omega),
      widened_pixel _ _ (by decide), if_pos (by omega), hbytes, hc]
    congr 2
    omega
  rw [putRow, putRow, hlast, hlast, writeBytes_update _ _ _ _ (by omega)]
  refine unfilterScanline_update_ne hl.channelCount_pos (fun above habove => ?_) ?_ ?_
  · have hend := rowBeforeAt_le (hprevious ▸ habove)
    have hlength : l.unfilterLength ≤ l.imageRowBytes := l.unfilterLength_le
    have hstride := hl.imageRowBytes_le
    omega
  · have hlength : l.unfilterLength ≤ l.imageRowBytes := l.unfilterLength_le
    omega
  · rwa [writeBytes_of_not_mem (Or.inr (by omega))]

/-- The rows of an image with three samples in a pixel do not stay where they are written: the last
sample depends on what the buffer held before. -/
theorem exists_not_shows (filters : ℕ → FilterType) (rows : ℕ → ℕ → UInt8) (hl : l.TrueColor)
    (hc : l.channelCount = 3) (hheight : l.height ≠ 1) :
    ∃ fresh, ¬ l.Shows rows (l.defilter fresh (l.encode filters rows)) := by
  by_contra hall
  push Not at hall
  have hpos := hl.height_pos
  have hwidth := hl.width_pos
  have hbytes : l.imageRowBytes = 3 * l.width := hc ▸ hl.imageRowBytes_eq
  have hstride := hl.stride_eq
  obtain ⟨n, hn⟩ : ∃ n, l.height = n + 1 := ⟨l.height - 1, by omega⟩
  set p := l.stride * n + (l.imageRowBytes - 1) with hp
  have hrows : l.imageRowBytes * n + l.width ≤ l.stride * n := by
    have hone : l.width * 1 ≤ l.width * n := Nat.mul_le_mul_left _ (by omega)
    rw [hbytes, hstride, Nat.mul_assoc, Nat.mul_assoc]
    omega
  have hright : ∀ fresh, ∃ s, (l.run fresh (l.encode filters rows) n).bind
      (fun s => l.defilterRow s n) = some s ∧
      s.reconstructed (l.stride * n + ((l.width - 1) * 4 + 2)) =
        l.widened (rows n) ((l.width - 1) * 4 + 2) := by
    intro fresh
    obtain ⟨s, hrun, -, hs⟩ := (defilter_shows_iff_run hl fresh).mp (hall fresh)
    rw [hn, run_succ] at hrun
    exact ⟨s, hrun, hs n (by omega) _ (by omega)⟩
  obtain ⟨s₀, hrun₀, hs₀⟩ := hright fun _ => 0
  obtain ⟨s₁, hrun₁, hs₁⟩ := hright (Function.update (fun _ => 0) p 1)
  rw [run_update hl _ _ _ (by omega) (by omega)] at hrun₁
  -- two buffers that differ in one byte lead to the same sample
  obtain ⟨s, hrun, hstep₀⟩ := Option.bind_eq_some_iff.mp hrun₀
  rw [hrun, Option.map_some, Option.bind_some] at hrun₁
  obtain ⟨hplace, hprevious⟩ := run_written hl hrun
  have hbyte : s.reconstructed p = 0 := run_apply hl hrun (by omega) (by omega)
  rcases defilterRow_cases hl s n with hnone | ⟨filter, data, rest, hlen, hsome⟩
  · cases hrun₁.symm.trans (hnone _)
  · obtain rfl := Option.some.inj ((hsome s.reconstructed).symm.trans hstep₀)
    obtain rfl := Option.some.inj ((hsome _).symm.trans hrun₁)
    refine putRow_update_ne hl hc filter hlen (by omega) hprevious ?_ (hs₁.trans hs₀.symm)
    rw [← hp, hbyte]
    decide

/-- **Which images come out right.** Whatever a new buffer holds, the pixels are those of the image
exactly when an `i32` counts them, the rows are written where their pixels belong, and the filters
change nothing from `unfilterLength` on. -/
theorem defilter_shows_iff (hl : l.TrueColor) (filters : ℕ → FilterType)
    (rows : ℕ → ℕ → UInt8) :
    (∀ fresh, l.Shows rows (l.defilter fresh (l.encode filters rows))) ↔
      l.width * l.height < 2 ^ 31 ∧ (l.channelCount = 4 ∨ l.height = 1) ∧
        ∀ y < l.height, l.KeepsTail filters rows y := by
  constructor
  · intro h
    obtain ⟨s, hrun, hsize, -⟩ := (defilter_shows_iff_run hl fun _ => 0).mp (h _)
    have hplace : l.channelCount = 4 ∨ l.height = 1 := by
      rcases hl.channels with hc | hc
      · right
        by_contra hheight
        obtain ⟨fresh, hfresh⟩ := exists_not_shows filters rows hl hc hheight
        exact hfresh (h fresh)
      · exact Or.inl hc
    exact ⟨hsize, hplace, fun y hy => keepsTail_of_shows hl (h fun _ => 0) hplace hy⟩
  · rintro ⟨hsize, hplace, htail⟩ fresh
    exact shows_of hl fresh hsize hplace htail

/-- The samples of two rows of three pixels. -/
def twoRows (y x : ℕ) : UInt8 := UInt8.ofNat (40 * y + 7 * x)

/-- An image of two rows with a filter each. -/
theorem defilter_shows_twoRows :
    Shows ⟨3, 2, 8, 4⟩ twoRows (defilter ⟨3, 2, 8, 4⟩ (fun _ => 0xaa)
      (encode ⟨3, 2, 8, 4⟩ (fun y => if y = 0 then .sub else .paeth) twoRows)) := by
  refine (defilter_shows_iff ⟨rfl, .inr rfl, by decide, by decide, by decide, by decide⟩ _ _).mpr
    ⟨by decide, .inl rfl, fun y _ x hle hlt => ?_⟩ _
  have hlength : unfilterLength ⟨3, 2, 8, 4⟩ = imageRowBytes ⟨3, 2, 8, 4⟩ := by decide
  rw [hlength] at hle
  exact absurd hlt (Nat.not_lt_of_le hle)

end Loader

end Cryptix.PNG
