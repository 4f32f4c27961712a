import Mathlib.Data.List.ReduceOption
import Mathlib.Data.Nat.Bitwise
import Cryptix.Prism

/-!
# Device numbers

`Kernel/Drivers/Core/Device.hpp` and `Kernel/Drivers/Core/Device.cpp`. A device number holds the low
parts of the major and of the minor number in its low 20 bits and the high parts above, so both
numbers have all of their 32 bits.

Drivers without a number of their own get a major from `AllocateMajor`, which takes the last one
that is free from its hint on, or else the last one below. No driver gives one back. With a hint
beyond the table the second search leaves the bitmap.
-/

namespace Cryptix.Drivers

open Prism

variable {major minor : ℕ}

/-- `MakeDevice`. -/
def makeDevice (major minor : ℕ) : ℕ :=
  (major &&& 0x00000fff) <<< 8 ||| (major &&& 0xfffff000) <<< 32 ||| (minor &&& 0x000000ff) |||
    (minor &&& 0xffffff00) <<< 12

/-- `GetDeviceMajor`. -/
def getDeviceMajor (dev : ℕ) : ℕ :=
  ((dev &&& 0x00000000000fff00) >>> 8 ||| (dev &&& 0xfffff00000000000) >>> 32) % 2 ^ 32

/-- `GetDeviceMinor`. -/
def getDeviceMinor (dev : ℕ) : ℕ :=
  ((dev &&& 0x00000000000000ff) ||| (dev &&& 0x00000ffffff00000) >>> 12) % 2 ^ 32

/-! ## Masks of a range of bits -/

/-- The bits from `low` on, `count` of them. -/
def bitMask (low count : ℕ) : ℕ := (2 ^ count - 1) <<< low

theorem testBit_bitMask (low count i : ℕ) :
    (bitMask low count).testBit i = decide (low ≤ i ∧ i < low + count) := by
  rw [bitMask, Nat.testBit_shiftLeft, Nat.testBit_two_pow_sub_one, Bool.eq_iff_iff]
  simp only [Bool.and_eq_true, decide_eq_true_eq]
  omega

/-- The bits of a number that a mask leaves. -/
theorem testBit_and_bitMask (n low count i : ℕ) :
    (n &&& bitMask low count).testBit i = (n.testBit i && decide (low ≤ i ∧ i < low + count)) := by
  rw [Nat.testBit_and, testBit_bitMask]

theorem testBit_makeDevice (major minor i : ℕ) :
    (makeDevice major minor).testBit i =
      if i < 8 then minor.testBit i
      else if i < 20 then major.testBit (i - 8)
      else if i < 44 then decide (i - 12 < 32) && minor.testBit (i - 12)
      else decide (i - 32 < 32) && major.testBit (i - 32) := by
  have h₁ : (0x00000fff : ℕ) = bitMask 0 12 := rfl
  have h₂ : (0xfffff000 : ℕ) = bitMask 12 20 := rfl
  have h₃ : (0x000000ff : ℕ) = bitMask 0 8 := rfl
  have h₄ : (0xffffff00 : ℕ) = bitMask 8 24 := rfl
  rw [makeDevice, h₁, h₂, h₃, h₄]
  simp only [Nat.testBit_or, Nat.testBit_shiftLeft, testBit_and_bitMask]
  by_cases h8 : i < 8
  · simp [h8, show ¬ 8 ≤ i by omega, show ¬ 32 ≤ i by omega, show ¬ 12 ≤ i by omega]
  by_cases h20 : i < 20
  · simp [h8, h20, show 8 ≤ i by omega, show ¬ 32 ≤ i by omega, show i - 8 < 12 by omega,
      show ¬ 8 ≤ i - 12 by omega]
  by_cases h44 : i < 44
  · simp [h8, h20, h44, show 8 ≤ i by omega, show ¬ i - 8 < 12 by omega,
      show ¬ 12 ≤ i - 32 by omega, show 12 ≤ i by omega, show 8 ≤ i - 12 by omega,
      show i - 12 < 32 by omega]
  · simp [h8, h20, h44, show ¬ i - 8 < 12 by omega, show 32 ≤ i by omega,
      show 12 ≤ i - 32 by omega, show ¬ i - 12 < 32 by omega, Bool.and_comm]

theorem getDeviceMajor_makeDevice (hmajor : major < 2 ^ 32) (minor : ℕ) :
    getDeviceMajor (makeDevice major minor) = major := by
  have hlow : (0x00000000000fff00 : ℕ) = bitMask 8 12 := rfl
  have hhigh : (0xfffff00000000000 : ℕ) = bitMask 44 20 := rfl
  refine Nat.eq_of_testBit_eq fun i => ?_
  rw [getDeviceMajor, hlow, hhigh]
  simp only [Nat.testBit_mod_two_pow, Nat.testBit_or, Nat.testBit_shiftRight, testBit_and_bitMask,
    testBit_makeDevice]
  by_cases h32 : i < 32
  · by_cases h12 : i < 12
    · simp [h32, show 8 + i < 20 by omega, show ¬ 44 ≤ 32 + i by omega]
    · simp [h32, show ¬ 8 + i < 20 by omega, show 44 ≤ 32 + i by omega, show 32 + i < 64 by omega,
        show ¬ 32 + i < 8 by omega, show ¬ 32 + i < 20 by omega, show ¬ 32 + i < 44 by omega]
  · have hzero : major.testBit i = false :=
      Nat.testBit_lt_two_pow (hmajor.trans_le (Nat.pow_le_pow_right Nat.two_pos (by omega)))
    simp [h32, hzero]

theorem getDeviceMinor_makeDevice (major : ℕ) (hminor : minor < 2 ^ 32) :
    getDeviceMinor (makeDevice major minor) = minor := by
  have hlow : (0x00000000000000ff : ℕ) = bitMask 0 8 := rfl
  have hhigh : (0x00000ffffff00000 : ℕ) = bitMask 20 24 := rfl
  refine Nat.eq_of_testBit_eq fun i => ?_
  rw [getDeviceMinor, hlow, hhigh]
  simp only [Nat.testBit_mod_two_pow, Nat.testBit_or, Nat.testBit_shiftRight, testBit_and_bitMask,
    testBit_makeDevice]
  by_cases h32 : i < 32
  · by_cases h8 : i < 8
    · simp [h32, h8, show ¬ 20 ≤ 12 + i by omega]
    · simp [h32, h8, show ¬ 12 + i < 8 by omega, show ¬ 12 + i < 20 by omega,
        show 12 + i < 44 by omega, show 20 ≤ 12 + i by omega]
  · have hzero : minor.testBit i = false :=
      Nat.testBit_lt_two_pow (hminor.trans_le (Nat.pow_le_pow_right Nat.two_pos (by omega)))
    simp [h32, hzero]

/-- Different parts make different device numbers. -/
theorem makeDevice_inj {major' minor' : ℕ} (hmajor : major < 2 ^ 32) (hmajor' : major' < 2 ^ 32)
    (hminor : minor < 2 ^ 32) (hminor' : minor' < 2 ^ 32)
    (h : makeDevice major minor = makeDevice major' minor') : major = major' ∧ minor = minor' := by
  constructor
  · rw [← getDeviceMajor_makeDevice hmajor minor, h, getDeviceMajor_makeDevice hmajor']
  · rw [← getDeviceMinor_makeDevice major hminor, h, getDeviceMinor_makeDevice major' hminor']

/-! ## Major numbers -/

section FindFreeMajor

-- What the bits behind the bitmap read as.
variable (beyond : ℕ → Bool)

/-- A bit of the bitmap, or one behind it. -/
def readBit (b : Bitmap) (i : ℕ) : Bool := if i < b.size then b.getIndex i else beyond i

/-- `FindFreeMajor` on a range: the last one of it that is free. -/
def findFreeMajorIn (b : Bitmap) (start stop : ℕ) : Option ℕ :=
  (List.range' start (stop - start)).foldl
    (fun allocated i => if readBit beyond b i then allocated else some i) none

/-- `FindFreeMajor` with a hint. -/
def findFreeMajor (b : Bitmap) (hint : ℕ) : Option ℕ :=
  match findFreeMajorIn beyond b hint b.size with
  | some major => some major
  | none => findFreeMajorIn beyond b 0 hint

end FindFreeMajor

/-- `s_LeastMajor` and `s_AllocatedMajors`. -/
structure MajorTable where
  leastMajor : Option ℕ
  allocatedMajors : Bitmap

namespace MajorTable

/-- `AllocateMajor`. A store behind the bitmap is left out. -/
def allocateMajor (beyond : ℕ → Bool) (t : MajorTable) (hint : ℕ) : Option ℕ × MajorTable :=
  match findFreeMajor beyond t.allocatedMajors (hint % 2 ^ 32) with
  | none => (none, t)
  | some allocated =>
    let leastMajor :=
      if t.leastMajor = some allocated then findFreeMajor beyond t.allocatedMajors 0
      else t.leastMajor
    (some allocated, ⟨leastMajor, t.allocatedMajors.setIndex allocated true⟩)

/-- One call of `AllocateMajor` after the other, with their results. -/
def allocateMajors (beyond : ℕ → Bool) (t : MajorTable) :
    List ℕ → List (Option ℕ) × MajorTable
  | [] => ([], t)
  | hint :: hints =>
    let rest := allocateMajors beyond (t.allocateMajor beyond hint).2 hints
    ((t.allocateMajor beyond hint).1 :: rest.1, rest.2)

end MajorTable

section Majors

variable {b : Bitmap} {beyond : ℕ → Bool}

theorem readBit_of_lt {i : ℕ} (h : i < b.size) : readBit beyond b i = b.getIndex i := if_pos h

theorem foldl_free_eq_some {l : List ℕ} {allocated : Option ℕ} {m : ℕ}
    (h : l.foldl (fun allocated i => if readBit beyond b i then allocated else some i) allocated =
      some m) : allocated = some m ∨ m ∈ l ∧ readBit beyond b m = false := by
  induction l generalizing allocated with
  | nil => exact .inl h
  | cons i l ih =>
    rw [List.foldl_cons] at h
    rcases ih h with hold | ⟨hmem, hfree⟩
    · split at hold
      · exact .inl hold
      · rename_i hbit
        obtain rfl := Option.some.inj hold
        exact .inr ⟨List.mem_cons_self, Bool.eq_false_iff.mpr hbit⟩
    · exact .inr ⟨List.mem_cons_of_mem _ hmem, hfree⟩

theorem foldl_free_eq_none {l : List ℕ} {allocated : Option ℕ}
    (h : l.foldl (fun allocated i => if readBit beyond b i then allocated else some i) allocated =
      none) : allocated = none ∧ ∀ i ∈ l, readBit beyond b i = true := by
  induction l generalizing allocated with
  | nil => exact ⟨h, fun i hi => absurd hi List.not_mem_nil⟩
  | cons i l ih =>
    rw [List.foldl_cons] at h
    obtain ⟨hnone, hrest⟩ := ih h
    split at hnone
    · rename_i hbit
      exact ⟨hnone, List.forall_mem_cons.mpr ⟨hbit, hrest⟩⟩
    · cases hnone

/-- A range inside the bitmap gives a free number of it. -/
theorem findFreeMajorIn_eq_some {start stop m : ℕ} (hstop : stop ≤ b.size)
    (h : findFreeMajorIn beyond b start stop = some m) : m < b.size ∧ b.getIndex m = false := by
  obtain ⟨hmem, hfree⟩ := (foldl_free_eq_some h).resolve_left (by simp)
  have hlt : m < b.size := by
    have := List.mem_range'_1.mp hmem
    omega
  exact ⟨hlt, by rwa [readBit_of_lt hlt] at hfree⟩

theorem findFreeMajor_eq_some {hint m : ℕ} (hhint : hint ≤ b.size)
    (h : findFreeMajor beyond b hint = some m) : m < b.size ∧ b.getIndex m = false := by
  rw [findFreeMajor] at h
  split at h
  · rename_i hfound
    obtain rfl := Option.some.inj h
    exact findFreeMajorIn_eq_some le_rfl hfound
  · exact findFreeMajorIn_eq_some hhint h

/-- No number is found only where none is free. -/
theorem findFreeMajor_eq_none {hint : ℕ} (h : findFreeMajor beyond b hint = none) :
    ∀ i < b.size, b.getIndex i = true := by
  rw [findFreeMajor] at h
  split at h
  · cases h
  · rename_i hnone
    intro i hi
    rw [← @readBit_of_lt b beyond i hi]
    by_cases hlt : i < hint
    · exact (foldl_free_eq_none h).2 i (List.mem_range'_1.mpr (by omega))
    · exact (foldl_free_eq_none hnone).2 i (List.mem_range'_1.mpr (by omega))

namespace MajorTable

/-- With a hint in the table, `AllocateMajor` takes a free number or leaves the table as it is. -/
theorem allocateMajor_spec (beyond : ℕ → Bool) (t : MajorTable) {hint : ℕ}
    (hhint : hint ≤ t.allocatedMajors.size) :
    (∃ m < t.allocatedMajors.size, (t.allocateMajor beyond hint).1 = some m ∧
        t.allocatedMajors.getIndex m = false ∧
        (t.allocateMajor beyond hint).2.allocatedMajors = t.allocatedMajors.setIndex m true) ∨
      (t.allocateMajor beyond hint).1 = none ∧ (t.allocateMajor beyond hint).2 = t ∧
        ∀ i < t.allocatedMajors.size, t.allocatedMajors.getIndex i = true := by
  rw [allocateMajor]
  cases hfound : findFreeMajor beyond t.allocatedMajors (hint % 2 ^ 32) with
  | some m =>
    obtain ⟨hlt, hfree⟩ := findFreeMajor_eq_some ((Nat.mod_le _ _).trans hhint) hfound
    exact .inl ⟨m, hlt, rfl, hfree, rfl⟩
  | none => exact .inr ⟨rfl, rfl, findFreeMajor_eq_none hfound⟩

/-- The size of the table stays the same. -/
theorem size_allocateMajor (t : MajorTable) (hint : ℕ) :
    (t.allocateMajor beyond hint).2.allocatedMajors.size = t.allocatedMajors.size := by
  rw [allocateMajor]
  split
  · rfl
  · exact Bitmap.size_setIndex _ _ _

/-- The bits that are set stay set. -/
theorem allocateMajors_grows (t : MajorTable) {hints : List ℕ}
    (hhints : ∀ hint ∈ hints, hint ≤ t.allocatedMajors.size) :
    ∀ i, t.allocatedMajors.getIndex i = true →
      (t.allocateMajors beyond hints).2.allocatedMajors.getIndex i = true := by
  induction hints generalizing t with
  | nil => exact fun _ h => h
  | cons hint hints ih =>
    obtain ⟨hhint, hrest⟩ := List.forall_mem_cons.mp hhints
    have hbits := ih (t.allocateMajor beyond hint).2 (by rwa [size_allocateMajor])
    rcases t.allocateMajor_spec beyond hhint with ⟨m, -, -, -, hset⟩ | ⟨-, hsame, -⟩
    · refine fun i hi => hbits i ?_
      rw [hset, Bitmap.getIndex_setIndex]
      split
      · rfl
      · exact hi
    · rw [hsame] at hbits
      rw [allocateMajors, hsame]
      exact hbits

theorem allocateMajors_nodup (t : MajorTable) {hints : List ℕ}
    (hhints : ∀ hint ∈ hints, hint ≤ t.allocatedMajors.size) :
    (t.allocateMajors beyond hints).1.reduceOption.Nodup ∧
      ∀ m ∈ (t.allocateMajors beyond hints).1.reduceOption,
        m < t.allocatedMajors.size ∧ t.allocatedMajors.getIndex m = false := by
  induction hints generalizing t with
  | nil => exact ⟨List.nodup_nil, fun m hm => absurd hm List.not_mem_nil⟩
  | cons hint hints ih =>
    obtain ⟨hhint, hhints⟩ := List.forall_mem_cons.mp hhints
    obtain ⟨hnodup, hfree⟩ :=
      ih (t.allocateMajor beyond hint).2 (by rwa [size_allocateMajor])
    rw [size_allocateMajor] at hfree
    rw [allocateMajors]
    rcases t.allocateMajor_spec beyond hhint with ⟨m, hlt, hm, hclear, hset⟩ | ⟨hnone, hsame, -⟩
    · rw [hm, List.reduceOption_cons_of_some]
      rw [hset] at hfree
      have hrest : ∀ m' ∈
          ((t.allocateMajor beyond hint).2.allocateMajors beyond hints).1.reduceOption,
          m' ≠ m ∧ m' < t.allocatedMajors.size ∧ t.allocatedMajors.getIndex m' = false := by
        intro m' hm'
        obtain ⟨hlt', hbit⟩ := hfree m' hm'
        rw [Bitmap.getIndex_setIndex] at hbit
        split at hbit
        · cases hbit
        · rename_i hne
          refine ⟨?_, hlt', hbit⟩
          rintro rfl
          exact hne ⟨rfl, hlt⟩
      exact ⟨List.nodup_cons.mpr ⟨fun hmem => (hrest m hmem).1 rfl, hnodup⟩,
        List.forall_mem_cons.mpr ⟨⟨hlt, hclear⟩, fun m' hm' => (hrest m' hm').2⟩⟩
    · rw [hsame] at hnodup hfree
      rw [hnone, List.reduceOption_cons_of_none, hsame]
      exact ⟨hnodup, hfree⟩

/-- Over every run of calls of `AllocateMajor` with hints in the table, no major is given out twice,
none that was taken before is, and a call fails only when all are taken. The device numbers that
drivers make of their majors, with whatever minors, are different from each other. -/
theorem allocateMajors_distinct (beyond : ℕ → Bool) {t : MajorTable}
    (hsize : t.allocatedMajors.size ≤ 2 ^ 32) {hints : List ℕ}
    (hhints : ∀ hint ∈ hints, hint ≤ t.allocatedMajors.size) :
    (t.allocateMajors beyond hints).1.reduceOption.Nodup ∧
      (∀ m ∈ (t.allocateMajors beyond hints).1.reduceOption,
        m < t.allocatedMajors.size ∧ t.allocatedMajors.getIndex m = false) ∧
      (none ∈ (t.allocateMajors beyond hints).1 → ∀ i < t.allocatedMajors.size,
        (t.allocateMajors beyond hints).2.allocatedMajors.getIndex i = true) ∧
      ∀ m ∈ (t.allocateMajors beyond hints).1.reduceOption,
        ∀ m' ∈ (t.allocateMajors beyond hints).1.reduceOption,
          ∀ minor < 2 ^ 32, ∀ minor' < 2 ^ 32,
            makeDevice m minor = makeDevice m' minor' → m = m' ∧ minor = minor' := by
  obtain ⟨hnodup, hfree⟩ := @allocateMajors_nodup beyond t hints hhints
  have hlt : ∀ m ∈ (t.allocateMajors beyond hints).1.reduceOption, m < 2 ^ 32 :=
    fun m hm => (hfree m hm).1.trans_le hsize
  refine ⟨hnodup, hfree, fun hnone => ?_, fun m hm m' hm' minor hminor minor' hminor' heq =>
    makeDevice_inj (hlt m hm) (hlt m' hm') hminor hminor' heq⟩
  clear hnodup hfree hlt hsize
  induction hints generalizing t with
  | nil => exact absurd hnone List.not_mem_nil
  | cons hint hints ih =>
    obtain ⟨hhint, hrest⟩ := List.forall_mem_cons.mp hhints
    rw [allocateMajors] at hnone ⊢
    rcases t.allocateMajor_spec beyond hhint with ⟨m, -, hm, -, -⟩ | ⟨-, hsame, hall⟩
    · rw [hm, List.mem_cons] at hnone
      have htail := ih (by rwa [size_allocateMajor]) (hnone.resolve_left (by simp))
      rwa [size_allocateMajor] at htail
    · intro i hi
      rw [hsame]
      exact t.allocateMajors_grows hrest i (hall i hi)

/-- Of four majors, two with a hint are given out, then all, then none is left. -/
theorem allocateMajors_distinct_four :
    let t : MajorTable := ⟨some 0, ⟨#[false, false, false, false]⟩⟩
    (t.allocateMajors (fun _ => false) [0, 3, 2, 0, 0]).1 =
        [some 3, some 2, some 1, some 0, none] ∧
      (t.allocateMajors (fun _ => false) [0, 3, 2, 0, 0]).1.reduceOption.Nodup :=
  ⟨by decide, (allocateMajors_distinct (fun _ => false) (by decide) (by decide)).1⟩

end MajorTable

end Majors

end Cryptix.Drivers
