import Mathlib.Algebra.Ring.Int.Defs
import Mathlib.Data.List.MinMax
import Mathlib.Data.UInt
import Cryptix.Lib.CopyLoop

/-!
# The filters of a PNG row

`UnfilterScanline` and `PredictPaeth` of `Kernel/Library/Image.{cpp,hpp}`. A row of an image is
stored as the differences of its bytes from a prediction, which is made from the byte one pixel to
the left, the byte above and the byte above that one to the left. `UnfilterScanline` undoes this in
place, from left to right, so that a prediction finds the bytes to its left restored.
-/

namespace Cryptix.PNG

open Lib

/-- `FilterType`, without its `eCount`. -/
inductive FilterType
  | none | sub | up | average | paeth
  deriving DecidableEq, Repr

/-- `PredictPaeth`. -/
def predictPaeth (a b c : UInt8) : UInt8 :=
  let p : ℤ := (a.toNat : ℤ) + b.toNat - c.toNat
  let pa := (p - a.toNat).natAbs
  let pb := (p - b.toNat).natAbs
  let pc := (p - c.toNat).natAbs
  if pa ≤ pb ∧ pa ≤ pc then a
  else if pb ≤ pc then b
  else c

/-- `UnfilterScanline`, on the bytes of memory. -/
def unfilterScanline (mem : ℕ → UInt8) (currentRow : ℕ) (previousRow : Option ℕ)
    (bytesPerPixel length : ℕ) (filter : FilterType) : ℕ → UInt8 :=
  (List.range length).foldl (fun mem x =>
    let left := if x ≥ bytesPerPixel then mem (currentRow + (x - bytesPerPixel)) else 0
    let above := match previousRow with
      | some row => mem (row + x)
      | Option.none => 0
    let upperLeft := match previousRow with
      | some row => if x ≥ bytesPerPixel then mem (row + (x - bytesPerPixel)) else 0
      | Option.none => 0
    let current := mem (currentRow + x)
    match filter with
    | .none => mem
    | .sub => Function.update mem (currentRow + x) (current + left)
    | .up => Function.update mem (currentRow + x) (current + above)
    | .average => Function.update mem (currentRow + x)
        (current + UInt8.ofNat ((left.toNat + above.toNat) >>> 1))
    | .paeth => Function.update mem (currentRow + x)
        (current + predictPaeth left above upperLeft)) mem

/-! ## The filters as the format defines them -/

/-- The byte one pixel to the left, 0 where there is none. -/
def byteLeft (bytesPerPixel : ℕ) (row : ℕ → UInt8) (x : ℕ) : UInt8 :=
  if bytesPerPixel ≤ x then row (x - bytesPerPixel) else 0

/-- Among three bytes the first that is closest to `a + b - c`. -/
def paeth (a b c : UInt8) : UInt8 :=
  ([a, b, c].argmin fun n => ((a.toNat : ℤ) + b.toNat - c.toNat - n.toNat).natAbs).getD 0

/-- What a filter predicts from the bytes to the left, above, and above to the left. -/
def FilterType.prediction (left above upperLeft : UInt8) : FilterType → UInt8
  | .none => 0
  | .sub => left
  | .up => above
  | .average => UInt8.ofNat ((left.toNat + above.toNat) / 2)
  | .paeth => PNG.paeth left above upperLeft

/-- What is predicted for a byte of a row, below the row `above`. -/
def predicted (filter : FilterType) (bytesPerPixel : ℕ) (above row : ℕ → UInt8) (x : ℕ) : UInt8 :=
  filter.prediction (byteLeft bytesPerPixel row x) (above x) (byteLeft bytesPerPixel above x)

/-- A filtered row: the differences from what is predicted, modulo 256. -/
def filterScanline (filter : FilterType) (bytesPerPixel : ℕ) (above row : ℕ → UInt8) (x : ℕ) :
    UInt8 :=
  row x - predicted filter bytesPerPixel above row x

/-- The row above in memory, zeros above the first row. -/
def rowAbove (mem : ℕ → UInt8) : Option ℕ → ℕ → UInt8
  | some row, x => mem (row + x)
  | Option.none, _ => 0

/-- The first of three values at which a function is least. -/
theorem argmin_three {α : Type*} (f : α → ℕ) (a b c : α) :
    [a, b, c].argmin f =
      some (if f a ≤ f b ∧ f a ≤ f c then a else if f b ≤ f c then b else c) := by
  rw [List.argmin_cons, List.argmin_cons, List.argmin_singleton]
  by_cases hbc : f b ≤ f c
  · by_cases hab : f a ≤ f b
    · simp [hbc.not_gt, hab, hab.trans hbc]
    · simp [hbc, hbc.not_gt, hab, lt_of_not_ge hab]
  · have hcb : f c < f b := lt_of_not_ge hbc
    by_cases hac : f a ≤ f c
    · simp [hcb, hac, hac.trans hcb.le]
    · simp [hcb, hbc, hac, lt_of_not_ge hac]

/-- The order of the comparisons in `PredictPaeth` breaks ties as the format demands. -/
theorem predictPaeth_eq (a b c : UInt8) : predictPaeth a b c = paeth a b c := by
  rw [paeth, argmin_three, Option.getD_some, predictPaeth]

/-! ## Unfiltering -/

variable {mem : ℕ → UInt8} {filter : FilterType} {previousRow : Option ℕ}
  {currentRow bytesPerPixel length : ℕ}

/-- The loop adds to every byte what is predicted for it. -/
theorem unfilterScanline_eq_scanLoop :
    unfilterScanline mem currentRow previousRow bytesPerPixel length filter =
      scanLoop (fun mem x => mem (currentRow + x) + predicted filter bytesPerPixel
        (rowAbove mem previousRow) (fun i => mem (currentRow + i)) x) currentRow length mem := by
  unfold unfilterScanline scanLoop
  congr 1
  funext mem x
  have hupper : byteLeft bytesPerPixel (rowAbove mem previousRow) x =
      match previousRow with
      | some row => if x ≥ bytesPerPixel then mem (row + (x - bytesPerPixel)) else 0
      | Option.none => 0 := by
    cases previousRow with
    | none => exact ite_self 0
    | some row => rfl
  cases filter with
  | none =>
    have hsame : mem (currentRow + x) + 0 = mem (currentRow + x) := UInt8.add_zero _
    exact (Function.update_eq_self_iff.mpr hsame).symm
  | sub => rfl
  | up => cases previousRow <;> rfl
  | average =>
    simp only [Nat.shiftRight_one]
    cases previousRow <;> rfl
  | paeth =>
    simp only [predictPaeth_eq, ← hupper]
    cases previousRow <;> rfl

theorem byteLeft_congr {row row' : ℕ → UInt8} {x : ℕ} (hpixel : 0 < bytesPerPixel)
    (h : ∀ i < x, row i = row' i) :
    byteLeft bytesPerPixel row x = byteLeft bytesPerPixel row' x := by
  unfold byteLeft
  split
  · exact h _ (by omega)
  · rfl

/-- A prediction depends on the bytes before it in its row and on the row above up to it. -/
theorem predicted_congr {above above' row row' : ℕ → UInt8} {x : ℕ} (hpixel : 0 < bytesPerPixel)
    (habove : ∀ i ≤ x, above i = above' i) (hrow : ∀ i < x, row i = row' i) :
    predicted filter bytesPerPixel above row x =
      predicted filter bytesPerPixel above' row' x := by
  rw [predicted, predicted, habove x le_rfl, byteLeft_congr hpixel hrow,
    byteLeft_congr hpixel fun i hi => habove i hi.le]

/-- Writing a row leaves the row above it alone. -/
theorem rowAbove_overlay {row : ℕ → UInt8} {n x : ℕ}
    (hdisjoint : ∀ above ∈ previousRow,
      above + length ≤ currentRow ∨ currentRow + length ≤ above)
    (hn : n ≤ length) (hx : x < length) :
    rowAbove (overlay currentRow n row mem) previousRow x = rowAbove mem previousRow x := by
  cases previousRow with
  | none => rfl
  | some above =>
    have hfar := hdisjoint above rfl
    exact overlay_of_not_mem row mem (by omega)

/-- A row is restored when each of its bytes is the byte found in memory plus what is predicted
from the row itself. -/
theorem unfilterScanline_eq_overlay (row : ℕ → UInt8) (hpixel : 0 < bytesPerPixel)
    (hdisjoint : ∀ above ∈ previousRow,
      above + length ≤ currentRow ∨ currentRow + length ≤ above)
    (hrow : ∀ x < length, row x = mem (currentRow + x) +
      predicted filter bytesPerPixel (rowAbove mem previousRow) row x) :
    unfilterScanline mem currentRow previousRow bytesPerPixel length filter =
      overlay currentRow length row mem := by
  rw [unfilterScanline_eq_scanLoop]
  refine scanLoop_eq_overlay fun x hx => ?_
  have hcurrent : overlay currentRow x row mem (currentRow + x) = mem (currentRow + x) :=
    overlay_of_not_mem row mem (Or.inr le_rfl)
  -- the bytes to the left are restored, the row above is as it was
  rw [hrow x hx, hcurrent, predicted_congr hpixel
    (fun i hi => rowAbove_overlay hdisjoint hx.le (hi.trans_lt hx))
    (fun i hi => overlay_of_mem currentRow row mem hi)]

theorem unfilterScanline_of_not_mem {i : ℕ} (h : i < currentRow ∨ currentRow + length ≤ i) :
    unfilterScanline mem currentRow previousRow bytesPerPixel length filter i = mem i := by
  rw [unfilterScanline_eq_scanLoop, scanLoop_of_not_mem mem h]

/-- What is predicted does not depend on a byte behind it. -/
theorem predicted_update {p x : ℕ} {v : UInt8} (hpixel : 0 < bytesPerPixel)
    (hprevious : ∀ above ∈ previousRow, above + length ≤ p) (hp : currentRow + x ≤ p)
    (hx : x < length) :
    predicted filter bytesPerPixel (rowAbove (Function.update mem p v) previousRow)
        (fun i => Function.update mem p v (currentRow + i)) x =
      predicted filter bytesPerPixel (rowAbove mem previousRow)
        (fun i => mem (currentRow + i)) x := by
  refine predicted_congr hpixel (fun i hi => ?_) fun i hi => Function.update_of_ne (by omega) ..
  cases previousRow with
  | none => rfl
  | some above =>
    have hfar := hprevious above rfl
    exact Function.update_of_ne (by omega) ..

/-- A byte behind the row is not read. -/
theorem unfilterScanline_update (mem : ℕ → UInt8) (filter : FilterType) {p : ℕ} (v : UInt8)
    (hpixel : 0 < bytesPerPixel) (hprevious : ∀ above ∈ previousRow, above + length ≤ p)
    (hp : currentRow + length ≤ p) :
    unfilterScanline (Function.update mem p v) currentRow previousRow bytesPerPixel length filter =
      Function.update
        (unfilterScanline mem currentRow previousRow bytesPerPixel length filter) p v := by
  rw [unfilterScanline_eq_scanLoop, unfilterScanline_eq_scanLoop]
  refine scanLoop_update mem v (Or.inr hp) fun i hi mem => ?_
  rw [predicted_update hpixel hprevious (by omega) hi, Function.update_of_ne (by omega)]

/-- What unfiltering makes of the last byte of a row tells which byte it was. -/
theorem unfilterScanline_update_ne {x : ℕ} {v : UInt8} (hpixel : 0 < bytesPerPixel)
    (hprevious : ∀ above ∈ previousRow, above + length ≤ currentRow + x) (hx : length ≤ x + 1)
    (hv : v ≠ mem (currentRow + x)) :
    unfilterScanline (Function.update mem (currentRow + x) v) currentRow previousRow
        bytesPerPixel length filter (currentRow + x) ≠
      unfilterScanline mem currentRow previousRow bytesPerPixel length filter (currentRow + x) := by
  rcases Nat.lt_or_eq_of_le hx with hbehind | rfl
  · rw [unfilterScanline_update mem filter v hpixel hprevious (by omega), Function.update_self,
      unfilterScanline_of_not_mem (by omega)]
    exact hv
  · have hshort : ∀ above ∈ previousRow, above + x ≤ currentRow + x := fun above h => by
      have := hprevious above h
      omega
    have hbefore := unfilterScanline_update mem filter v hpixel hshort le_rfl
    simp only [unfilterScanline_eq_scanLoop] at hbefore ⊢
    rw [scanLoop_succ, scanLoop_succ, Function.update_self, Function.update_self, hbefore,
      Function.update_self, predicted_update hpixel hprevious le_rfl (Nat.lt_succ_self x),
      scanLoop_of_not_mem mem (Or.inr le_rfl)]
    exact fun hsame => hv ((UInt8.add_left_inj _).mp hsame)

/-- Unfiltering gives back the row that was filtered, and changes no other byte of memory. -/
theorem unfilterScanline_filterScanline (mem : ℕ → UInt8) (filter : FilterType)
    (previousRow : Option ℕ) (currentRow length : ℕ) (row : ℕ → UInt8) (hpixel : 0 < bytesPerPixel)
    (hdisjoint : ∀ above ∈ previousRow,
      above + length ≤ currentRow ∨ currentRow + length ≤ above) :
    unfilterScanline
        (overlay currentRow length
          (filterScanline filter bytesPerPixel (rowAbove mem previousRow) row) mem)
        currentRow previousRow bytesPerPixel length filter =
      overlay currentRow length row mem := by
  set filtered := filterScanline filter bytesPerPixel (rowAbove mem previousRow) row
  rw [unfilterScanline_eq_overlay row hpixel hdisjoint, overlay_overlay]
  intro x hx
  have hbyte : overlay currentRow length filtered mem (currentRow + x) = filtered x :=
    overlay_of_mem currentRow filtered mem hx
  rw [hbyte, predicted_congr hpixel
    (fun i hi => rowAbove_overlay hdisjoint le_rfl (hi.trans_lt hx)) (fun _ _ => rfl)]
  exact (UInt8.sub_add_cancel _ _).symm

/-- Two rows of four bytes, one byte for each pixel, the lower one with the filter `paeth`. -/
theorem unfilterScanline_filterScanline_paeth :
    unfilterScanline
        (overlay 4 4 (filterScanline .paeth 1 (rowAbove UInt8.ofNat (some 0)) fun _ => 7)
          UInt8.ofNat) 4 (some 0) 1 4 .paeth =
      overlay 4 4 (fun _ => 7) UInt8.ofNat :=
  unfilterScanline_filterScanline UInt8.ofNat .paeth (some 0) 4 4 (fun _ => 7) Nat.one_pos
    fun above hab => Or.inl (by cases hab; exact le_rfl)

end Cryptix.PNG
