import Mathlib.Data.Nat.Basic
import Mathlib.Logic.Function.Basic
import Cryptix.Prism

/-!
# The address sanitizer

`Kernel/Debug/Kasan.cpp`: a byte of shadow memory says which of the eight bytes of a granule may be
accessed. The checks of one, two, four and eight bytes look at the last byte of a granule only, and
`CheckN_ShadowBytes` puts longer accesses together from them.

A shadow of 1 to 7 counts the bytes at the begin of the granule; the other ones are poison. The
checks compare `i8` with the unsigned underlying type of `ShadowType`, so that no poison is less
than the number of bytes that are needed.
-/

namespace Cryptix

/-- `ShadowType`, by its underlying type: what is read from memory need not be a member. -/
abbrev ShadowType := UInt8

namespace ShadowType

def eUnpoisoned8Bytes : ShadowType := 0

def eGeneric : ShadowType := 0xfa

end ShadowType

inductive AccessType
  | eLoad | eStore
  deriving DecidableEq, Repr

/-- What `PrintViolation` reports before it panics. -/
structure Violation where
  address : BitVec 64
  size : ℕ
  accessType : AccessType
  shadowType : ShadowType
  returnAddress : BitVec 64
  deriving DecidableEq, Repr

/-- The static variables of `Kasan.cpp`, `MM::HigherHalfOffset()`, and the memory that shadow
addresses point to. -/
structure Kasan where
  initialized : Bool
  higherHalfOffset : BitVec 64
  shadowBase : BitVec 64
  shadowOffset : BitVec 64
  memory : BitVec 64 → ShadowType

namespace Kasan

/-- `va_to_shadow`. -/
def vaToShadow (k : Kasan) (address : BitVec 64) : BitVec 64 := (address >>> 3) + k.shadowOffset

/-- The shadow of the granule of an address. -/
def shadowOf (k : Kasan) (address : BitVec 64) : ShadowType := k.memory (k.vaToShadow address)

/-! ## Marking -/

/-- `Memory::Fill`. -/
def fill (memory : BitVec 64 → ShadowType) (start : BitVec 64) (value : ShadowType) (count : ℕ) :
    BitVec 64 → ShadowType :=
  fun p => if (p - start).toNat < count then value else memory p

/-- `FillShadow`. -/
def fillShadow (k : Kasan) (address size : BitVec 64) (type : ShadowType) : Except Failure Kasan :=
  if !k.initialized then .ok k
  else if address % 8 ≠ 0 ∨ size % 8 ≠ 0 then .error .assertion
  else .ok { k with memory := fill k.memory (k.vaToShadow address) type (size >>> 3).toNat }

/-- `MarkRegion`. -/
def markRegion (k : Kasan) (address validSize totalSize : BitVec 64) (type : ShadowType) :
    Except Failure Kasan :=
  if !k.initialized then .ok k
  else if address % 8 ≠ 0 ∨ totalSize % 8 ≠ 0 then .error .assertion
  else
    let shadow := k.vaToShadow address
    let validShadowSize := validSize >>> 3
    let memory := fill k.memory shadow ShadowType.eUnpoisoned8Bytes validShadowSize.toNat
    let unalignedSize := validSize &&& 7
    let memory :=
      if unalignedSize ≠ 0 then
        Function.update memory (shadow + validShadowSize) (UInt8.ofNat unalignedSize.toNat)
      else memory
    let poisonedShadowSize := (totalSize - BitVec.ofNat 64 (Prism.roundUp validSize.toNat 8)) >>> 3
    let first := shadow + validShadowSize + if unalignedSize ≠ 0 then 1 else 0
    .ok { k with memory := fill memory first type poisonedShadowSize.toNat }

/-! ## Checking -/

/-- The check of all bytes of a granule up to the one `last` bytes behind the address. Both sides of
the comparison become an `int`, and the shadow is not negative. -/
def checkLast (k : Kasan) (last : BitVec 64) (address : BitVec 64) : Except ShadowType Unit :=
  let shadow := k.shadowOf address
  let minimalValidShadow := ((address + last) &&& 7) + 1
  if shadow = ShadowType.eUnpoisoned8Bytes ∨ minimalValidShadow.toNat ≤ shadow.toNat then .ok ()
  else .error shadow

/-- A check of two halves if the access goes over the end of the granule, else of its last byte. -/
def checkSplit (k : Kasan) (half : BitVec 64 → Except ShadowType Unit) (middle last : BitVec 64)
    (address : BitVec 64) : Except ShadowType Unit :=
  if address >>> 3 ≠ (address + last) >>> 3 then do
    half address
    half (address + middle)
  else k.checkLast last address

/-- `Check1ShadowByte`; the shadow is what it leaves in `shadowType` when it returns false. -/
def check1ShadowByte (k : Kasan) : BitVec 64 → Except ShadowType Unit := k.checkLast 0

/-- `Check2ShadowBytes`. -/
def check2ShadowBytes (k : Kasan) : BitVec 64 → Except ShadowType Unit :=
  k.checkSplit k.check1ShadowByte 1 1

/-- `Check4ShadowBytes`. -/
def check4ShadowBytes (k : Kasan) : BitVec 64 → Except ShadowType Unit :=
  k.checkSplit k.check2ShadowBytes 2 3

/-- `Check8ShadowBytes`. -/
def check8ShadowBytes (k : Kasan) : BitVec 64 → Except ShadowType Unit :=
  k.checkSplit k.check4ShadowBytes 4 7

/-- The first loop of `CheckN_ShadowBytes`, and what it leaves of `n` and of the address. -/
def checkUntilAligned (k : Kasan) : ℕ → BitVec 64 → Except ShadowType (ℕ × BitVec 64)
  | 0, address => .ok (0, address)
  | n + 1, address =>
    if address % 8 ≠ 0 then do
      k.check1ShadowByte address
      checkUntilAligned k n (address + 1)
    else .ok (n + 1, address)

/-- The other loops of `CheckN_ShadowBytes`, by the number of their turns. -/
def checkEach (check : BitVec 64 → Except ShadowType Unit) (width : ℕ) :
    ℕ → BitVec 64 → Except ShadowType (BitVec 64)
  | 0, address => .ok address
  | turns + 1, address => do
    check address
    checkEach check width turns (address + BitVec.ofNat 64 width)

/-- `CheckN_ShadowBytes`. -/
def checkNShadowBytes (k : Kasan) (address : BitVec 64) (n : ℕ) : Except ShadowType Unit := do
  let (n, address) ← k.checkUntilAligned n address
  let address ← checkEach k.check8ShadowBytes 8 (n / 8) address
  let _ ← checkEach k.check1ShadowByte 1 (n % 8) address
  return ()

/-- The switch of `CheckShadowBytes`. -/
def checkBySize (k : Kasan) (address : BitVec 64) (size : ℕ) : Except ShadowType Unit :=
  match size with
  | 1 => k.check1ShadowByte address
  | 2 => k.check2ShadowBytes address
  | 4 => k.check4ShadowBytes address
  | 8 => k.check8ShadowBytes address
  | _ => k.checkNShadowBytes address size

/-- `CheckShadowBytes`. -/
def checkShadowBytes (k : Kasan) (address : BitVec 64) (size : ℕ) (accessType : AccessType)
    (returnAddress : BitVec 64) : Except Violation Unit :=
  if size = 0 then .ok ()
  else if !k.initialized then .ok ()
  else if address < k.higherHalfOffset ∨ address ≥ k.shadowBase then .ok ()
  else
    (k.checkBySize address size).mapError fun shadowType =>
      ⟨address, size, accessType, shadowType, returnAddress⟩

/-! ## What the checks look at -/

/-- The place of an address in its granule. -/
def column (address : BitVec 64) : ℕ := address.toNat % 8

/-- The byte at an address may be accessed: the shadow is zero, or a number of bytes of which it is
one. -/
def Accessible (k : Kasan) (address : BitVec 64) : Prop :=
  k.shadowOf address = 0 ∨
    (k.shadowOf address).toNat ≤ 7 ∧ column address < (k.shadowOf address).toNat

instance (k : Kasan) (address : BitVec 64) : Decidable (k.Accessible address) :=
  inferInstanceAs (Decidable (_ ∨ _))

/-- The checks refuse a byte. -/
def Refused (k : Kasan) (address : BitVec 64) : Prop :=
  k.shadowOf address ≠ 0 ∧ (k.shadowOf address).toNat ≤ column address

theorem toNat_and_seven (address : BitVec 64) : (address &&& 7).toNat = column address := by
  rw [column, BitVec.toNat_and]
  exact Nat.and_two_pow_sub_one_eq_mod address.toNat 3

theorem toNat_add_ofNat {address : BitVec 64} {i : ℕ} (h : column address + i < 8) :
    (address + BitVec.ofNat 64 i).toNat = address.toNat + i := by
  rw [column] at h
  rw [BitVec.toNat_add, BitVec.toNat_ofNat]
  omega

theorem column_add {address : BitVec 64} {i : ℕ} (h : column address + i < 8) :
    column (address + BitVec.ofNat 64 i) = column address + i := by
  rw [column, toNat_add_ofNat h, column]
  rw [column] at h
  omega

theorem granule_add {address : BitVec 64} {i : ℕ} (h : column address + i < 8) :
    (address + BitVec.ofNat 64 i) >>> 3 = address >>> 3 := by
  apply BitVec.eq_of_toNat_eq
  rw [BitVec.toNat_ushiftRight, BitVec.toNat_ushiftRight, toNat_add_ofNat h]
  rw [column] at h
  simp only [Nat.shiftRight_eq_div_pow]
  omega

theorem column_of_granule_eq {address : BitVec 64} {last : ℕ} (hlast : last < 8)
    (h : address >>> 3 = (address + BitVec.ofNat 64 last) >>> 3) : column address + last < 8 := by
  have hgranule := congrArg BitVec.toNat h
  rw [BitVec.toNat_ushiftRight, BitVec.toNat_ushiftRight, BitVec.toNat_add,
    BitVec.toNat_ofNat] at hgranule
  simp only [Nat.shiftRight_eq_div_pow] at hgranule
  rw [column]
  omega

theorem shadowOf_add (k : Kasan) {address : BitVec 64} {i : ℕ} (h : column address + i < 8) :
    k.shadowOf (address + BitVec.ofNat 64 i) = k.shadowOf address := by
  rw [shadowOf, vaToShadow, granule_add h]
  rfl

/-- A check of `n` bytes accepts when it refuses none of them, and else reports the shadow of one it
refuses. -/
structure Tests {α : Type} (k : Kasan) (address : BitVec 64) (n : ℕ) (r : Except ShadowType α) :
    Prop where
  accepted : ∀ x, r = .ok x → ∀ i < n, ¬k.Refused (address + BitVec.ofNat 64 i)
  refused : ∀ shadow, r = .error shadow → ∃ i < n, k.Refused (address + BitVec.ofNat 64 i) ∧
    shadow = k.shadowOf (address + BitVec.ofNat 64 i)

namespace Tests

variable {k : Kasan} {address : BitVec 64} {n : ℕ}

/-- A check that accepts, and one of the bytes behind it. -/
theorem bind {α β : Type} {r : Except ShadowType α} {f : α → Except ShadowType β} {m : ℕ}
    (h : Tests k address n r)
    (hf : ∀ x, r = .ok x → Tests k (address + BitVec.ofNat 64 n) m (f x)) :
    Tests k address (n + m) (r >>= f) := by
  have hlater (i : ℕ) : address + BitVec.ofNat 64 n + BitVec.ofNat 64 i =
      address + BitVec.ofNat 64 (n + i) := by
    rw [BitVec.add_assoc, BitVec.ofNat_add]
  cases r with
  | error shadow =>
    refine ⟨fun x hx => ?_, fun shadow' hshadow => ?_⟩
    · cases hx
    · obtain rfl : shadow = shadow' := Except.error.inj hshadow
      obtain ⟨i, hi, hrefused, heq⟩ := h.refused shadow rfl
      exact ⟨i, by omega, hrefused, heq⟩
  | ok x =>
    have hrest := hf x rfl
    have hbind : (Except.ok x >>= f) = f x := rfl
    rw [hbind]
    refine ⟨fun y hy i hi => ?_, fun shadow hshadow => ?_⟩
    · rcases Nat.lt_or_ge i n with hlt | hge
      · exact h.accepted x rfl i hlt
      · have := hrest.accepted y hy (i - n) (by omega)
        rwa [hlater, Nat.add_sub_cancel' hge] at this
    · obtain ⟨i, hi, hrefused, heq⟩ := hrest.refused shadow hshadow
      rw [hlater] at hrefused heq
      exact ⟨n + i, by omega, hrefused, heq⟩

/-- The check of no byte. -/
theorem ok {α : Type} (k : Kasan) (address : BitVec 64) (x : α) :
    Tests k address 0 (.ok x : Except ShadowType α) := by
  refine ⟨fun _ _ i hi => absurd hi (Nat.not_lt_zero i), fun shadow hshadow => ?_⟩
  cases hshadow

/-- The last byte of a granule that is accessed is refused if any is. -/
theorem checkLast (k : Kasan) {address : BitVec 64} {last : ℕ} (h : column address + last < 8) :
    Tests k address (last + 1) (k.checkLast (BitVec.ofNat 64 last) address) := by
  have hminimal : (((address + BitVec.ofNat 64 last) &&& 7) + 1).toNat =
      column address + last + 1 := by
    rw [BitVec.toNat_add, toNat_and_seven, column_add h]
    exact Nat.mod_eq_of_lt (by simp only [BitVec.reduceToNat]; omega)
  rw [Kasan.checkLast, hminimal]
  split
  · rename_i hvalid
    refine ⟨fun x _ i hi hrefused => ?_, fun shadow hshadow => ?_⟩
    · rw [Refused, shadowOf_add k (by omega), column_add (by omega)] at hrefused
      rcases hvalid with hzero | hle
      · exact hrefused.1 hzero
      · omega
    · cases hshadow
  · rename_i hvalid
    refine ⟨fun x hx => ?_, fun shadow hshadow => ⟨last, Nat.lt_succ_self last, ?_, ?_⟩⟩
    · cases hx
    · rw [Refused, shadowOf_add k h, column_add h]
      exact ⟨fun hzero => hvalid (.inl hzero), by omega⟩
    · rw [shadowOf_add k h]
      exact (Except.error.inj hshadow).symm

/-- A check of `last + 1` bytes from one of half of them. -/
theorem checkSplit {half : BitVec 64 → Except ShadowType Unit} {middle last : ℕ}
    (hhalf : ∀ address, Tests k address middle (half address)) (hlast : middle + middle = last + 1)
    (hwidth : last < 8) (address : BitVec 64) :
    Tests k address (last + 1)
      (k.checkSplit half (BitVec.ofNat 64 middle) (BitVec.ofNat 64 last) address) := by
  rw [Kasan.checkSplit]
  split
  · rw [← hlast]
    exact (hhalf address).bind fun _ _ => hhalf _
  · rename_i hsame
    exact checkLast k (column_of_granule_eq hwidth (not_not.mp hsame))

theorem check1 (k : Kasan) (address : BitVec 64) : Tests k address 1 (k.check1ShadowByte address) :=
  checkLast k (Nat.mod_lt _ (by decide))

theorem check2 (k : Kasan) (address : BitVec 64) :
    Tests k address 2 (k.check2ShadowBytes address) :=
  checkSplit (check1 k) rfl (by decide) address

theorem check4 (k : Kasan) (address : BitVec 64) :
    Tests k address 4 (k.check4ShadowBytes address) :=
  checkSplit (check2 k) rfl (by decide) address

theorem check8 (k : Kasan) (address : BitVec 64) :
    Tests k address 8 (k.check8ShadowBytes address) :=
  checkSplit (check4 k) rfl (by decide) address

/-- The bytes up to a multiple of eight, or all of them if there are fewer. -/
theorem checkUntilAligned (k : Kasan) (n : ℕ) (address : BitVec 64) :
    ∃ m ≤ n, Tests k address m (k.checkUntilAligned n address) ∧
      ∀ x, k.checkUntilAligned n address = .ok x → x = (n - m, address + BitVec.ofNat 64 m) := by
  induction n generalizing address with
  | zero =>
    refine ⟨0, le_rfl, ok k address _, fun x hx => ?_⟩
    rw [← Except.ok.inj hx, BitVec.add_zero]
  | succ n ih =>
    rw [Kasan.checkUntilAligned]
    split
    · obtain ⟨m, hm, htests, hresult⟩ := ih (address + 1)
      refine ⟨1 + m, by omega, (check1 k address).bind fun _ _ => htests, fun x hx => ?_⟩
      cases hfirst : k.check1ShadowByte address with
      | error shadow =>
        rw [hfirst] at hx
        cases hx
      | ok u =>
        rw [hfirst] at hx
        rw [hresult x hx, BitVec.add_assoc, BitVec.ofNat_add]
        exact Prod.ext (by simp only; omega) rfl
    · refine ⟨0, Nat.zero_le _, ok k address _, fun x hx => ?_⟩
      rw [← Except.ok.inj hx, BitVec.add_zero]
      rfl

theorem checkEach {check : BitVec 64 → Except ShadowType Unit} {width : ℕ}
    (hcheck : ∀ address, Tests k address width (check address)) (turns : ℕ)
    (address : BitVec 64) :
    Tests k address (width * turns) (checkEach check width turns address) ∧
      ∀ x, checkEach check width turns address = .ok x →
        x = address + BitVec.ofNat 64 (width * turns) := by
  induction turns generalizing address with
  | zero =>
    refine ⟨ok k address _, fun x hx => ?_⟩
    rw [← Except.ok.inj hx, Nat.mul_zero, BitVec.add_zero]
  | succ turns ih =>
    obtain ⟨htests, hresult⟩ := ih (address + BitVec.ofNat 64 width)
    rw [Kasan.checkEach, Nat.mul_succ, Nat.add_comm]
    refine ⟨(hcheck address).bind fun _ _ => htests, fun x hx => ?_⟩
    cases hfirst : check address with
    | error shadow =>
      rw [hfirst] at hx
      cases hx
    | ok u =>
      rw [hfirst] at hx
      rw [hresult x hx, BitVec.add_assoc, BitVec.ofNat_add]

theorem checkN (k : Kasan) (address : BitVec 64) (n : ℕ) :
    Tests k address n (k.checkNShadowBytes address n) := by
  obtain ⟨m, hm, hleading, hleft⟩ := checkUntilAligned k n address
  have hcount : m + (8 * ((n - m) / 8) + (1 * ((n - m) % 8) + 0)) = n := by omega
  have htests : Tests k address (m + (8 * ((n - m) / 8) + (1 * ((n - m) % 8) + 0)))
      (k.checkNShadowBytes address n) := by
    rw [checkNShadowBytes]
    refine hleading.bind fun x hx => ?_
    rw [hleft x hx]
    obtain ⟨hchunks, hbehind⟩ :=
      checkEach (check8 k) ((n - m) / 8) (address + BitVec.ofNat 64 m)
    refine hchunks.bind fun y hy => ?_
    rw [hbehind y hy]
    exact (checkEach (check1 k) _ _).1.bind fun _ _ => ok k _ _
  rwa [hcount] at htests

theorem checkBySize (k : Kasan) (address : BitVec 64) (size : ℕ) :
    Tests k address size (k.checkBySize address size) := by
  unfold Kasan.checkBySize
  split
  · exact check1 k address
  · exact check2 k address
  · exact check4 k address
  · exact check8 k address
  · exact checkN k address size

end Tests

/-- The accesses that are checked at all. -/
def Guards (k : Kasan) (address : BitVec 64) : Prop :=
  k.initialized = true ∧ k.higherHalfOffset ≤ address ∧ address < k.shadowBase

/-- An access that is checked is refused if one of its bytes is, and the shadow of such a byte is
reported. -/
theorem checkShadowBytes_spec (k : Kasan) (address : BitVec 64) (size : ℕ) (accessType : AccessType)
    (returnAddress : BitVec 64) :
    (k.checkShadowBytes address size accessType returnAddress = .ok () ∧
      (k.Guards address → ∀ i < size, ¬k.Refused (address + BitVec.ofNat 64 i))) ∨
    ∃ i < size, k.Guards address ∧ k.Refused (address + BitVec.ofNat 64 i) ∧
      k.checkShadowBytes address size accessType returnAddress =
        .error ⟨address, size, accessType, k.shadowOf (address + BitVec.ofNat 64 i),
          returnAddress⟩ := by
  have htests := Tests.checkBySize k address size
  rw [checkShadowBytes]
  by_cases hsize : size = 0
  · rw [if_pos hsize]
    exact .inl ⟨rfl, fun _ i hi => absurd hi (by omega)⟩
  rw [if_neg hsize]
  by_cases hinit : k.initialized = true
  · rw [hinit, Bool.not_true, if_neg Bool.false_ne_true]
    by_cases hout : address < k.higherHalfOffset ∨ address ≥ k.shadowBase
    · rw [if_pos hout]
      refine .inl ⟨rfl, fun hguards => ?_⟩
      rcases hout with hlow | hhigh
      · exact absurd hguards.2.1 (BitVec.not_le.mpr hlow)
      · exact absurd hguards.2.2 (BitVec.not_lt.mpr hhigh)
    · rw [if_neg hout]
      have hguards : k.Guards address := by
        rw [not_or, BitVec.not_lt, ge_iff_le, BitVec.not_le] at hout
        exact ⟨hinit, hout⟩
      cases hchecked : k.checkBySize address size with
      | ok x => exact .inl ⟨rfl, fun _ => htests.accepted x hchecked⟩
      | error shadow =>
        obtain ⟨i, hi, hrefused, heq⟩ := htests.refused shadow hchecked
        refine .inr ⟨i, hi, hguards, hrefused, ?_⟩
        rw [← heq]
        rfl
  · rw [Bool.eq_false_iff.mpr hinit, Bool.not_false, if_pos rfl]
    exact .inl ⟨rfl, fun hguards => absurd hguards.1 hinit⟩

theorem checkShadowBytes_eq_ok_iff (k : Kasan) (address : BitVec 64) (size : ℕ)
    (accessType : AccessType) (returnAddress : BitVec 64) :
    k.checkShadowBytes address size accessType returnAddress = .ok () ↔
      (k.Guards address → ∀ i < size, ¬k.Refused (address + BitVec.ofNat 64 i)) := by
  rcases k.checkShadowBytes_spec address size accessType returnAddress with
    ⟨hok, hall⟩ | ⟨i, hi, hguards, hrefused, herror⟩
  · exact iff_of_true hok hall
  · refine iff_of_false (fun hok => ?_) fun hall => hall hguards i hi hrefused
    rw [herror] at hok
    cases hok

/-! ## What marking leaves -/

/-- The number of granules from an aligned address to another one, less some. -/
theorem toNat_vaToShadow_sub (k : Kasan) {address b : BitVec 64} (haligned : address.toNat % 8 = 0)
    (hle : address.toNat ≤ b.toNat) (j : BitVec 64) :
    (k.vaToShadow b - (k.vaToShadow address + j)).toNat =
      ((b.toNat - address.toNat) / 8 + 2 ^ 64 - j.toNat) % 2 ^ 64 := by
  rw [vaToShadow, vaToShadow, BitVec.toNat_sub, BitVec.toNat_add, BitVec.toNat_add,
    BitVec.toNat_add, BitVec.toNat_ushiftRight, BitVec.toNat_ushiftRight]
  simp only [Nat.shiftRight_eq_div_pow]
  omega

theorem fill_apply (memory : BitVec 64 → ShadowType) (start : BitVec 64) (value : ShadowType)
    (count : ℕ) (p : BitVec 64) :
    fill memory start value count p = if (p - start).toNat < count then value else memory p := rfl

theorem eq_iff_toNat_sub (p x : BitVec 64) : p = x ↔ (p - x).toNat = 0 := by
  constructor
  · rintro rfl
    rw [BitVec.sub_self]
    rfl
  · intro h
    have hzero : p - x = 0#64 := BitVec.eq_of_toNat_eq h
    rw [← BitVec.sub_add_cancel p x, hzero, BitVec.zero_add]

theorem aligned_of_markRegion {k k' : Kasan} {address validSize totalSize : BitVec 64}
    {type : ShadowType} (hinit : k.initialized = true)
    (hmark : k.markRegion address validSize totalSize type = .ok k') :
    address.toNat % 8 = 0 ∧ totalSize.toNat % 8 = 0 := by
  rw [markRegion, hinit, Bool.not_true, if_neg Bool.false_ne_true] at hmark
  split at hmark
  · cases hmark
  · rename_i haligned
    rw [not_or, not_not, not_not] at haligned
    exact ⟨congrArg BitVec.toNat haligned.1, congrArg BitVec.toNat haligned.2⟩

/-- The shadow of a region: zero for its whole granules of valid bytes, the number of valid bytes
for a granule with fewer than eight, and the type behind it. -/
theorem shadowOf_markRegion {k k' : Kasan} {address validSize totalSize : BitVec 64}
    {type : ShadowType} (hinit : k.initialized = true)
    (hmark : k.markRegion address validSize totalSize type = .ok k') {b : BitVec 64}
    (hle : address.toNat ≤ b.toNat) (hlt : b.toNat < address.toNat + totalSize.toNat) :
    k'.shadowOf b =
      if (b.toNat - address.toNat) / 8 < validSize.toNat / 8 then 0
      else if b.toNat - address.toNat < Prism.roundUp validSize.toNat 8 then
        UInt8.ofNat (validSize.toNat % 8)
      else type := by
  obtain ⟨haddress, htotal⟩ := aligned_of_markRegion hinit hmark
  rw [markRegion, hinit, Bool.not_true, if_neg Bool.false_ne_true] at hmark
  split at hmark
  · cases hmark
  have hseven : (validSize &&& 7).toNat = validSize.toNat % 8 := toNat_and_seven validSize
  have hunaligned : validSize &&& 7 ≠ 0 ↔ validSize.toNat % 8 ≠ 0 := by
    rw [← hseven, not_iff_not, BitVec.toNat_eq]
    rfl
  have hwhole : (validSize >>> 3).toNat = validSize.toNat / 8 := by
    rw [BitVec.toNat_ushiftRight, Nat.shiftRight_eq_div_pow]
  have hpoisoned : ((totalSize - BitVec.ofNat 64 (Prism.roundUp validSize.toNat 8)) >>> 3).toNat =
      (totalSize.toNat + 2 ^ 64 - Prism.roundUp validSize.toNat 8 % 2 ^ 64) % 2 ^ 64 / 8 := by
    rw [BitVec.toNat_ushiftRight, Nat.shiftRight_eq_div_pow, BitVec.toNat_sub, BitVec.toNat_ofNat]
    congr 2
    omega
  have hfirst : (k.vaToShadow b - k.vaToShadow address).toNat = (b.toNat - address.toNat) / 8 := by
    have hzero := k.toNat_vaToShadow_sub haddress hle 0#64
    rw [BitVec.add_zero, BitVec.toNat_ofNat] at hzero
    rw [hzero]
    omega
  have hpartial := k.toNat_vaToShadow_sub haddress hle (validSize >>> 3)
  have hnext := k.toNat_vaToShadow_sub haddress hle (validSize >>> 3 + 1)
  have hplus : (validSize >>> 3 + 1).toNat = validSize.toNat / 8 + 1 := by
    rw [BitVec.toNat_add, hwhole]
    exact Nat.mod_eq_of_lt (by simp only [BitVec.reduceToNat]; omega)
  rw [hwhole] at hpartial
  rw [hplus, ← BitVec.add_assoc] at hnext
  obtain rfl := Except.ok.inj hmark
  rw [Prism.roundUp, Prism.divRoundUp] at hpoisoned ⊢
  by_cases hrest : validSize.toNat % 8 = 0
  · have hnone : validSize &&& 7 = 0 := not_not.mp fun h => hunaligned.mp h hrest
    simp only [shadowOf, hnone, ne_eq, not_true_eq_false, if_false]
    change fill _ (_ + 0#64) _ _ (k.vaToShadow b) = _
    rw [BitVec.add_zero, fill_apply, fill_apply, hfirst, hpartial, hwhole, hpoisoned]
    by_cases hin : (b.toNat - address.toNat) / 8 < validSize.toNat / 8
    · rw [if_neg (by omega), if_pos hin, if_pos hin]
      rfl
    · rw [if_pos (by omega), if_neg hin, if_neg (by omega)]
  · have hsome := hunaligned.mpr hrest
    have hhere : k.vaToShadow b = k.vaToShadow address + validSize >>> 3 ↔
        (b.toNat - address.toNat) / 8 = validSize.toNat / 8 := by
      rw [eq_iff_toNat_sub, hpartial]
      omega
    simp only [shadowOf, hsome, ne_eq, not_false_eq_true, if_true]
    change fill _ _ _ _ (k.vaToShadow b) = _
    simp only [fill_apply, Function.update_apply, hhere, hnext, hfirst, hwhole, hpoisoned, hseven]
    by_cases hin : (b.toNat - address.toNat) / 8 < validSize.toNat / 8
    · rw [if_neg (by omega), if_neg (by omega), if_pos hin, if_pos hin]
      rfl
    · rw [if_neg hin, if_neg hin]
      by_cases hpart : (b.toNat - address.toNat) / 8 = validSize.toNat / 8
      · rw [if_neg (by omega), if_pos hpart, if_pos (by omega)]
      · rw [if_pos (by omega), if_neg (by omega)]

/-- `FillShadow` marks the granules of a region. -/
theorem shadowOf_fillShadow {k k' : Kasan} {address size : BitVec 64} {type : ShadowType}
    (hinit : k.initialized = true) (hfill : k.fillShadow address size type = .ok k')
    {b : BitVec 64} (hle : address.toNat ≤ b.toNat) :
    k'.shadowOf b = if b.toNat < address.toNat + size.toNat then type else k.shadowOf b := by
  rw [fillShadow, hinit, Bool.not_true, if_neg Bool.false_ne_true] at hfill
  split at hfill
  · cases hfill
  rename_i haligned
  rw [not_or, not_not, not_not] at haligned
  have haddress : address.toNat % 8 = 0 := congrArg BitVec.toNat haligned.1
  have hsize : size.toNat % 8 = 0 := congrArg BitVec.toNat haligned.2
  have hfirst := k.toNat_vaToShadow_sub haddress hle 0#64
  rw [BitVec.add_zero, BitVec.toNat_ofNat] at hfirst
  obtain rfl := Except.ok.inj hfill
  change fill _ _ _ _ (k.vaToShadow b) = _
  rw [fill_apply, hfirst, BitVec.toNat_ushiftRight, Nat.shiftRight_eq_div_pow]
  have hb := b.isLt
  exact if_congr (by omega) rfl rfl

/-- Marking changes the shadow only. -/
theorem guards_markRegion {k k' : Kasan} {address validSize totalSize : BitVec 64}
    {type : ShadowType} (hmark : k.markRegion address validSize totalSize type = .ok k')
    (b : BitVec 64) : k'.Guards b ↔ k.Guards b := by
  rw [markRegion] at hmark
  split at hmark
  · obtain rfl := Except.ok.inj hmark
    rfl
  · split at hmark
    · cases hmark
    · obtain rfl := Except.ok.inj hmark
      rfl

/-! ## When the checks are right -/

/-- The checks are right about an access if it goes to a byte that they refuse, or to no poison; and
about one that is not checked, if all its bytes may be accessed. -/
def ChecksExactly (k : Kasan) (address : BitVec 64) (size : ℕ) : Prop :=
  (k.Guards address → (∃ i < size, k.Refused (address + BitVec.ofNat 64 i)) ∨
    ∀ i < size, (k.shadowOf (address + BitVec.ofNat 64 i)).toNat ≤ 7) ∧
  (¬k.Guards address → ∀ i < size, k.Accessible (address + BitVec.ofNat 64 i))

/-- The bytes of a region; it ends where the addresses do. -/
def InRegion (address totalSize b : BitVec 64) : Prop :=
  address.toNat ≤ b.toNat ∧ b.toNat < address.toNat + totalSize.toNat

/-- All bytes of a region that are not valid are checked, and in a granule with a valid one. -/
def MarksExactly (k : Kasan) (address validSize totalSize : BitVec 64) : Prop :=
  ∀ b, InRegion address totalSize b → address.toNat + validSize.toNat ≤ b.toNat →
    k.Guards b ∧ b.toNat < address.toNat + Prism.roundUp validSize.toNat 8

theorem accessible_iff (k : Kasan) (address : BitVec 64) :
    k.Accessible address ↔ ¬k.Refused address ∧ (k.shadowOf address).toNat ≤ 7 := by
  have hzero : k.shadowOf address = 0 ↔ (k.shadowOf address).toNat = 0 := UInt8.toNat_inj.symm
  rw [Accessible, Refused, ne_eq, hzero]
  omega

/-- The first byte of a granule is never refused. -/
theorem not_refused_of_column_zero (k : Kasan) {address : BitVec 64} (h : column address = 0) :
    ¬k.Refused address := by
  rintro ⟨hne, hle⟩
  rw [h] at hle
  exact hne (UInt8.toNat_inj.mp (Nat.le_zero.mp hle))

theorem checks_iff_checksExactly (k : Kasan) (address : BitVec 64) (size : ℕ)
    (accessType : AccessType) (returnAddress : BitVec 64) :
    (k.checkShadowBytes address size accessType returnAddress = .ok () ↔
      ∀ i < size, k.Accessible (address + BitVec.ofNat 64 i)) ↔ k.ChecksExactly address size := by
  rw [checkShadowBytes_eq_ok_iff]
  by_cases hguards : k.Guards address
  · rw [ChecksExactly, and_iff_left (absurd hguards), imp_iff_right hguards, imp_iff_right hguards]
    constructor
    · intro hright
      by_cases hrefused : ∃ i < size, k.Refused (address + BitVec.ofNat 64 i)
      · exact .inl hrefused
      · refine .inr fun i hi => ((accessible_iff k _).mp (hright.mp (fun j hj hbad => ?_) i hi)).2
        exact hrefused ⟨j, hj, hbad⟩
    · rintro (⟨i, hi, hrefused⟩ | hsmall)
      · refine iff_of_false (fun hall => hall i hi hrefused) fun hall => ?_
        exact ((accessible_iff k _).mp (hall i hi)).1 hrefused
      · refine forall₂_congr fun i hi => ?_
        rw [accessible_iff, and_iff_left (hsmall i hi)]
  · rw [ChecksExactly, and_iff_right (fun h => absurd h hguards), imp_iff_right hguards]
    exact ⟨fun hright => hright.mp (absurd · hguards),
      fun hall => iff_of_true (absurd · hguards) hall⟩

/-- A byte by itself. -/
theorem checkShadowBytes_one_iff (k : Kasan) (b : BitVec 64) (accessType : AccessType)
    (returnAddress : BitVec 64) :
    k.checkShadowBytes b 1 accessType returnAddress = .ok () ↔ (k.Guards b → ¬k.Refused b) := by
  rw [checkShadowBytes_eq_ok_iff]
  refine imp_congr_right fun _ => ⟨fun hall => ?_, fun hb i hi => ?_⟩
  · have := hall 0 Nat.one_pos
    rwa [BitVec.add_zero] at this
  · rw [Nat.lt_one_iff.mp hi, BitVec.add_zero]
    exact hb

theorem marks_iff_marksExactly {k k' : Kasan} {address validSize totalSize : BitVec 64}
    {type : ShadowType} (hmark : k.markRegion address validSize totalSize type = .ok k')
    (accessType : AccessType) (returnAddress : BitVec 64) :
    (∀ b, InRegion address totalSize b →
      (k'.checkShadowBytes b 1 accessType returnAddress = .ok () ↔
        b.toNat < address.toNat + validSize.toNat)) ↔
      k.MarksExactly address validSize totalSize := by
  simp only [checkShadowBytes_one_iff, guards_markRegion hmark]
  constructor
  · intro hright b hregion hvalid
    have hrefused : ¬(k.Guards b → ¬k'.Refused b) :=
      fun haccepted => absurd ((hright b hregion).mp haccepted) (by omega)
    rw [Classical.not_imp, not_not] at hrefused
    refine ⟨hrefused.1, ?_⟩
    by_contra hfar
    -- the first byte of the granule is not valid either, and accepted
    have haligned := (aligned_of_markRegion hrefused.1.1 hmark).1
    obtain ⟨hle, hlt⟩ := hregion
    have hfirst : (address + BitVec.ofNat 64 ((b.toNat - address.toNat) / 8 * 8)).toNat =
        address.toNat + (b.toNat - address.toNat) / 8 * 8 := by
      rw [BitVec.toNat_add, BitVec.toNat_ofNat]
      omega
    have hcolumn : column (address + BitVec.ofNat 64 ((b.toNat - address.toNat) / 8 * 8)) = 0 := by
      rw [column, hfirst]
      omega
    have hearly := (hright (address + BitVec.ofNat 64 ((b.toNat - address.toNat) / 8 * 8))
      ⟨by omega, by omega⟩).mp fun _ => k'.not_refused_of_column_zero hcolumn
    rw [Prism.roundUp, Prism.divRoundUp] at hfar
    omega
  · rintro hexact b ⟨hle, hlt⟩
    have hpart : (UInt8.ofNat (validSize.toNat % 8)).toNat = validSize.toNat % 8 := by
      rw [UInt8.toNat_ofNat']
      omega
    constructor
    · intro haccepted
      by_contra hinvalid
      obtain ⟨hguards, hnear⟩ := hexact b ⟨hle, hlt⟩ (by omega)
      refine haccepted hguards ?_
      have haligned := (aligned_of_markRegion hguards.1 hmark).1
      rw [Prism.roundUp, Prism.divRoundUp] at hnear
      have hshadow := shadowOf_markRegion hguards.1 hmark hle hlt
      rw [Prism.roundUp, Prism.divRoundUp, if_neg (by omega), if_pos (by omega)] at hshadow
      rw [Refused, hshadow, hpart, ne_eq, ← UInt8.toNat_inj, hpart, column]
      exact ⟨fun hzero => by rw [UInt8.toNat_zero] at hzero; omega, by omega⟩
    · intro hvalid hguards hrefused
      have haligned := (aligned_of_markRegion hguards.1 hmark).1
      have hshadow := shadowOf_markRegion hguards.1 hmark hle hlt
      by_cases hwhole : (b.toNat - address.toNat) / 8 < validSize.toNat / 8
      · rw [if_pos hwhole] at hshadow
        exact hrefused.1 hshadow
      · have hround := Prism.le_roundUp (by decide : 0 < 8) validSize.toNat
        rw [if_neg hwhole, if_pos (by omega)] at hshadow
        have hcolumn := hrefused.2
        rw [hshadow, hpart, column] at hcolumn
        omega

/-- The checks accept an access exactly when all its bytes may be accessed, in the cases of
`ChecksExactly` and only in these; and they accept exactly the valid bytes of a marked region in
those of `MarksExactly`. -/
theorem checks_and_marks_iff (k : Kasan) (accessType : AccessType) (returnAddress : BitVec 64) :
    (∀ address size,
      (k.checkShadowBytes address size accessType returnAddress = .ok () ↔
        ∀ i < size, k.Accessible (address + BitVec.ofNat 64 i)) ↔ k.ChecksExactly address size) ∧
    ∀ k' address validSize totalSize type,
      k.markRegion address validSize totalSize type = .ok k' →
        ((∀ b, InRegion address totalSize b →
          (k'.checkShadowBytes b 1 accessType returnAddress = .ok () ↔
            b.toNat < address.toNat + validSize.toNat)) ↔
          k.MarksExactly address validSize totalSize) := by
  constructor
  · exact fun address size => checks_iff_checksExactly k address size accessType returnAddress
  · exact fun _ _ _ _ _ hmark => marks_iff_marksExactly hmark accessType returnAddress

/-- A kernel whose shadow is the same everywhere. -/
def uniform (shadow : ShadowType) : Kasan where
  initialized := true
  higherHalfOffset := 0xffff800000000000
  shadowBase := 0xffff900000000000
  shadowOffset := 0xffff900000000000 - (0xffff800000000000 >>> 3)
  memory := fun _ => shadow

/-- An access to poison is accepted, and so is the byte behind a granule of valid bytes that
`MarkRegion` has poisoned. -/
theorem not_checks_poison :
    ¬((uniform ShadowType.eGeneric).checkShadowBytes 0xffff800000001000 1 .eLoad 0 = .ok () ↔
        ∀ i < 1, (uniform ShadowType.eGeneric).Accessible
          (0xffff800000001000 + BitVec.ofNat 64 i)) ∧
      ((uniform 0).markRegion 0xffff800000001000 8 16 ShadowType.eGeneric).map
        (fun k => k.checkShadowBytes 0xffff800000001008 1 .eLoad 0) = .ok (.ok ()) := by
  constructor
  · intro h
    have hall := h.mp (by decide) 0 (by decide)
    revert hall
    decide
  · decide

end Kasan

end Cryptix
