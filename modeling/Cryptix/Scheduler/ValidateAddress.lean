import Cryptix.Memory.AddressSpace

/-!
# The check of user pointers

`Process::ValidateAddress` of `Kernel/Scheduler/Process.cpp`, and `ValidateRead` and `ValidateWrite`
over it: what stands between a system call and the memory that its caller names. The loop answers at
the first region that contains the address. The checks of the end of the range and of the access
mode come after that answer and are never reached.

`validateAddress_covers_iff` says for which calls the answer is right all the same.
-/

namespace Cryptix.Memory

/-- `Region::Contains`. -/
def Region.contains (r : Region) (address : ℕ) : Bool :=
  address ≥ r.virtualBase && address < r.endAddress

/-- The rights that an access mode of `PROT_READ`, `PROT_WRITE` and `PROT_EXEC` asks for. -/
def Access.Includes (access : Access) (accessMode : BitVec 32) : Prop :=
  (accessMode &&& 1 ≠ 0 → access.read = true) ∧
    (accessMode &&& 2 ≠ 0 → access.write = true) ∧
      (accessMode &&& 4 ≠ 0 → access.execute = true)

instance (access : Access) (accessMode : BitVec 32) : Decidable (access.Includes accessMode) :=
  inferInstanceAs (Decidable (_ ∧ _ ∧ _))

namespace AddressSpace

/-- The loop of `ValidateAddress` over the regions that are left. -/
def validateIn (address : ℕ) (accessMode : BitVec 32) (size : ℕ) : List Region → Bool
  | [] => false
  | region :: rest =>
    if region.contains address then true
    else if !region.contains address || !region.contains (offset address size) then
      validateIn address accessMode size rest
    else if accessMode &&& 1 != 0 && !region.access.read then false
    else if accessMode &&& 2 != 0 && !region.access.write then false
    else if accessMode &&& 4 != 0 && !region.access.execute then false
    else true

/-- `Process::ValidateAddress`, on the address space of the process. -/
def validateAddress (s : AddressSpace) (address : BitVec 64) (accessMode : BitVec 32)
    (size : BitVec 64) : Bool :=
  validateIn address.toNat accessMode size.toNat s.regions

/-- `Process::ValidateRead`. -/
def validateRead (s : AddressSpace) (address size : BitVec 64) : Bool :=
  s.validateAddress address 1 size

/-- `Process::ValidateWrite`. -/
def validateWrite (s : AddressSpace) (address size : BitVec 64) : Bool :=
  s.validateAddress address 2 size

/-- Nothing but the first address is looked at. -/
theorem validateIn_eq_any (address : ℕ) (accessMode : BitVec 32) (size : ℕ) (rs : List Region) :
    validateIn address accessMode size rs = rs.any (·.contains address) := by
  induction rs with
  | nil => rfl
  | cons region rest ih =>
    rw [validateIn, List.any_cons]
    by_cases hin : region.contains address = true
    · simp only [hin, if_true, Bool.true_or]
    · rw [Bool.not_eq_true] at hin
      simp only [hin, Bool.false_eq_true, if_false, Bool.not_false, Bool.true_or, if_true,
        Bool.false_or]
      exact ih

/-- The check says whether `Find` finds a region at the address. -/
theorem validateAddress_eq_false_iff {s : AddressSpace} {address size : BitVec 64}
    {accessMode : BitVec 32} :
    s.validateAddress address accessMode size = false ↔ s.find address.toNat = none := by
  rw [validateAddress, validateIn_eq_any, find, List.any_eq_false, List.find?_eq_none]
  simp only [Region.contains, ge_iff_le, Bool.and_eq_true, decide_eq_true_eq]

/-- Reads and writes are let through alike. -/
theorem validateWrite_eq_validateRead (s : AddressSpace) (address size : BitVec 64) :
    s.validateWrite address size = s.validateRead address size := by
  simp only [validateWrite, validateRead, validateAddress, validateIn_eq_any]

/-! ## Ranges without a hole -/

/-- A byte of memory in a region that grants the mode. -/
def Covers (s : AddressSpace) (accessMode : BitVec 32) (byte : ℕ) : Prop :=
  byte < wordCount ∧ ∃ r ∈ s.regions, byte ∈ r.range ∧ r.access.Includes accessMode

/-- The regions that grant the mode reach from an address to the end of a range: one holds the
address, and where one ends inside the range, another one goes on. -/
def Chained (s : AddressSpace) (accessMode : BitVec 32) (address size : ℕ) : Prop :=
  address + size ≤ wordCount ∧
    (∃ r ∈ s.regions, address ∈ r.range ∧ r.access.Includes accessMode) ∧
      ∀ r ∈ s.regions, r.access.Includes accessMode →
        address < r.virtualBase + r.size → r.virtualBase + r.size < address + size →
        ∃ r' ∈ s.regions, r.virtualBase + r.size ∈ r'.range ∧ r'.access.Includes accessMode

/-- A chain covers the range, byte by byte from the left. -/
theorem Chained.covers {s : AddressSpace} {accessMode : BitVec 32} {address size : ℕ}
    (h : s.Chained accessMode address size) {i : ℕ} (hi : i < size) :
    s.Covers accessMode (address + i) := by
  obtain ⟨hend, hfirst, hnext⟩ := h
  refine ⟨by omega, ?_⟩
  induction i with
  | zero => exact hfirst
  | succ i ih =>
    -- the region of the previous byte holds this one too, or ends here
    obtain ⟨r, hr, hin, hgrants⟩ := ih (by omega)
    simp only [Region.range, Set.mem_Ico] at hin
    by_cases hlast : r.virtualBase + r.size = address + (i + 1)
    · rw [← hlast]
      exact hnext r hr hgrants (by omega) (by omega)
    · refine ⟨r, hr, ?_, hgrants⟩
      simp only [Region.range, Set.mem_Ico]
      omega

theorem chained_of_covers {s : AddressSpace} {accessMode : BitVec 32} {address size : ℕ}
    (hsize : 0 < size) (h : ∀ i < size, s.Covers accessMode (address + i)) :
    s.Chained accessMode address size := by
  refine ⟨?_, (h 0 hsize).2, fun r _ _ hlo hhi => ?_⟩
  · have hlast := (h (size - 1) (by omega)).1
    omega
  · obtain ⟨i, hi⟩ := Nat.exists_eq_add_of_lt hlo
    have hcovers := (h (i + 1) (by omega)).2
    rwa [← Nat.add_assoc, ← hi] at hcovers

/-- An answer of yes is right exactly if it was not given, the range is empty, or regions with the
rights reach without a hole from the address to the end of the range. -/
theorem validateAddress_covers_iff (s : AddressSpace) (address : BitVec 64)
    (accessMode : BitVec 32) (size : BitVec 64) :
    (s.validateAddress address accessMode size = true →
      ∀ i < size.toNat, s.Covers accessMode (address.toNat + i)) ↔
    s.find address.toNat = none ∨ size = 0 ∨
      s.Chained accessMode address.toNat size.toNat := by
  have hfalse : s.validateAddress address accessMode size = false ↔ s.find address.toNat = none :=
    validateAddress_eq_false_iff
  rw [← hfalse]
  constructor
  · intro h
    rcases Bool.eq_false_or_eq_true (s.validateAddress address accessMode size) with hyes | hno
    · by_cases hzero : size = 0
      · exact .inr (.inl hzero)
      · refine .inr (.inr (chained_of_covers ?_ (h hyes)))
        exact Nat.pos_of_ne_zero fun h0 => hzero (BitVec.eq_of_toNat_eq h0)
    · exact .inl hno
  · rintro (hno | rfl | hchain) hyes i hi
    · rw [hno] at hyes
      exact absurd hyes Bool.false_ne_true
    · exact absurd hi (Nat.not_lt_zero i)
    · exact hchain.covers hi

/-- A process with one page, which it may only read. -/
def readOnlyPage : AddressSpace where
  regionTree := Lib.OrderedMap.empty.insert 0x400000
    { virtualBase := 0x400000, size := 0x1000, access := { read := true, user := true } }
  totalBase := 0

/-- A write of two pages from the last byte of a read-only page is let through. -/
theorem not_validateAddress_covers : ¬∀ (s : AddressSpace) (address : BitVec 64)
    (accessMode : BitVec 32) (size : BitVec 64),
    s.validateAddress address accessMode size = true →
      ∀ i < size.toNat, s.Covers accessMode (address.toNat + i) := by
  intro h
  obtain ⟨-, r, hr, -, hgrants⟩ := h readOnlyPage 0x400fff 2 0x2000 (by decide) 0 (by decide)
  have hregion : ∀ r ∈ readOnlyPage.regions, ¬r.access.Includes 2 := by decide
  exact hregion r hr hgrants

end AddressSpace

end Cryptix.Memory
