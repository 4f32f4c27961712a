import Cryptix.Lib.Bytes
import Mathlib.Data.Nat.Bitwise

/-!
# Access to the PCI configuration space

`Kernel/Drivers/PCI/Access.hpp`, with the two mechanisms behind it: the memory window of
`Kernel/Drivers/PCI/Access.cpp` and the ports of `Kernel/Arch/x86_64/Drivers/PCI.cpp`. The
configuration space is hardware, of which nothing is assumed but how the host bridge decodes an
address of the window and the address that is latched at the port.

Through the window every access reaches the register that it names, and nothing else. Through the
ports the reads do, while a write goes to the address port a second time and never to the data port,
so that no register changes (`accesses_eq`).
-/

namespace Cryptix.Drivers.PCI

open Lib

/-- `DeviceAddress`, within a domain. -/
structure DeviceAddress where
  bus : ℕ
  slot : ℕ
  function : ℕ
  bus_lt : bus < 256
  slot_lt : slot < 32
  function_lt : function < 8
  deriving DecidableEq

/-- The configuration space: the bytes of each function, and what a write of so many bytes at an
offset does. -/
structure ConfigSpace (σ : Type) where
  byte : σ → DeviceAddress → ℕ → UInt8
  write : σ → DeviceAddress → ℕ → ℕ → ℕ → σ

/-- A `Read`, or a `Write` of a value, of 1, 2 or 4 bytes that lie in one word of the first 256
bytes. -/
structure Access where
  device : DeviceAddress
  offset : ℕ
  accessSize : ℕ
  value : Option ℕ
  size_mem : accessSize = 1 ∨ accessSize = 2 ∨ accessSize = 4
  offset_lt : offset < 256
  within : offset % 4 + accessSize ≤ 4

variable {σ : Type} (C : ConfigSpace σ)

/-- A register of a function. -/
def readRegister (s : σ) (device : DeviceAddress) (offset accessSize : ℕ) : ℕ :=
  readLE (C.byte s device) offset accessSize

/-- The function that some bits of an address select. -/
def deviceAt (bus slot function : ℕ) : DeviceAddress where
  bus := bus % 256
  slot := slot % 32
  function := function % 8
  bus_lt := Nat.mod_lt _ (by decide)
  slot_lt := Nat.mod_lt _ (by decide)
  function_lt := Nat.mod_lt _ (by decide)

/-! ## The memory window -/

/-- `ECAM`, and the configuration space behind the window. -/
structure ECAM (σ : Type) where
  base : ℕ
  busStart : ℕ
  mappings : ℕ → Option ℕ
  space : σ

namespace ECAM

/-- What the host bridge makes of an address of the window. -/
def decode (e : ECAM σ) (address : ℕ) : DeviceAddress × ℕ :=
  (deviceAt (e.busStart + (address - e.base) / 2 ^ 20) ((address - e.base) / 2 ^ 15)
    ((address - e.base) / 2 ^ 12), (address - e.base) % 2 ^ 12)

/-- `MMIO::Read` and `MMIO::Write`. -/
def mmioRead (e : ECAM σ) (address accessSize : ℕ) : ℕ :=
  readRegister C e.space (e.decode address).1 (e.decode address).2 accessSize
def mmioWrite (e : ECAM σ) (address accessSize value : ℕ) : ECAM σ :=
  { e with
    space := C.write e.space (e.decode address).1 (e.decode address).2 accessSize
      (value % 256 ^ accessSize) }

/-- The physical address of the registers of a function. -/
def phys (e : ECAM σ) (dev : DeviceAddress) : ℕ :=
  (e.base + (dev.bus - e.busStart) <<< 20) ||| dev.slot <<< 15 ||| dev.function <<< 12

/-- `GetAddress`. -/
def getAddress (e : ECAM σ) (dev : DeviceAddress) (offset : ℕ) : ℕ × ECAM σ :=
  match e.mappings (e.phys dev) with
  | some virt => (virt + offset, e)
  | none =>
    (e.phys dev + offset,
      { e with mappings := Function.update e.mappings (e.phys dev) (some (e.phys dev)) })

/-- `Read` or `Write`, and the value that was read. -/
def access (e : ECAM σ) (a : Access) : Option ℕ × ECAM σ :=
  let address := e.getAddress a.device a.offset
  match a.value with
  | none => (some (address.2.mmioRead C address.1 a.accessSize), address.2)
  | some value => (none, address.2.mmioWrite C address.1 a.accessSize value)

end ECAM

/-! ## The ports -/

/-- `LegacyAccessMechanism`: the word in the address port, and the configuration space behind the
data port. -/
structure LegacyAccessMechanism (σ : Type) where
  configAddress : ℕ
  space : σ

namespace LegacyAccessMechanism

/-- What the host bridge makes of the word in the address port. -/
def decode (p : LegacyAccessMechanism σ) : DeviceAddress × ℕ :=
  (deviceAt (p.configAddress / 2 ^ 16) (p.configAddress / 2 ^ 11) (p.configAddress / 2 ^ 8),
    p.configAddress % 256 / 4 * 4)

/-- A read of the data port. -/
def inData (p : LegacyAccessMechanism σ) : ℕ :=
  if p.configAddress.testBit 31 then readRegister C p.space p.decode.1 p.decode.2 4
  else 0xffffffff

/-- A write to the address port. -/
def outAddress (p : LegacyAccessMechanism σ) (value : ℕ) : LegacyAccessMechanism σ :=
  { p with configAddress := value }

/-- The word that selects a register. -/
def selector (dev : DeviceAddress) (offset : ℕ) : ℕ :=
  2 ^ 31 ||| (offset &&& 0xfffffffc) ||| dev.function <<< 8 ||| dev.slot <<< 11 |||
    dev.bus <<< 16

/-- `Read`. -/
def read (p : LegacyAccessMechanism σ) (dev : DeviceAddress) (offset accessSize : ℕ) :
    ℕ × LegacyAccessMechanism σ :=
  let p := p.outAddress (selector dev offset)
  let data := p.inData C >>> ((offset &&& 3) <<< 3)
  (if accessSize = 1 ∨ accessSize = 2 ∨ accessSize = 4 then data % 256 ^ accessSize else 0, p)

/-- `Write`. The last word goes to the address port, as in the source. -/
def write (p : LegacyAccessMechanism σ) (dev : DeviceAddress) (offset accessSize value : ℕ) :
    LegacyAccessMechanism σ :=
  let p := p.outAddress (selector dev offset)
  let oldVal := p.inData C
  let mask := if accessSize = 1 then 0xff else if accessSize = 2 then 0xffff
    else if accessSize = 4 then 0xffffffff else 0
  let bitOffset := (offset &&& 3) <<< 3
  let value := (value &&& mask) <<< bitOffset
  let oldVal := oldVal &&& (2 ^ 32 - 1 - mask <<< bitOffset) ||| value
  (p.outAddress (selector dev offset)).outAddress oldVal

/-- `Read` or `Write`, and the value that was read. -/
def access (p : LegacyAccessMechanism σ) (a : Access) : Option ℕ × LegacyAccessMechanism σ :=
  match a.value with
  | none => ((p.read C a.device a.offset a.accessSize).1,
      (p.read C a.device a.offset a.accessSize).2)
  | some value => (none, p.write C a.device a.offset a.accessSize value)

end LegacyAccessMechanism

/-! ## Both mechanisms over a run -/

/-- A run of accesses: the values that were read, and the state after it. -/
def run {τ : Type} (access : τ → Access → Option ℕ × τ) : List Access → τ → List (Option ℕ) × τ
  | [], s => ([], s)
  | a :: accesses, s =>
    ((access s a).1 :: (run access accesses (access s a).2).1,
      (run access accesses (access s a).2).2)

/-- An access as it is meant: it reaches the register that it names. -/
def accessRegister (s : σ) (a : Access) : Option ℕ × σ :=
  match a.value with
  | none => (some (readRegister C s a.device a.offset a.accessSize), s)
  | some value =>
    (none, C.write s a.device a.offset a.accessSize (value % 256 ^ a.accessSize))

/-- An access whose writes are lost. -/
def readOnly (s : σ) (a : Access) : Option ℕ × σ :=
  match a.value with
  | none => (some (readRegister C s a.device a.offset a.accessSize), s)
  | some _ => (none, s)

/-- Where two mechanisms agree about every access, they agree about every run. -/
theorem run_eq {τ υ : Type} {f : τ → Access → Option ℕ × τ} {g : υ → Access → Option ℕ × υ}
    (view : τ → υ) (Inv : τ → Prop) (accesses : List Access)
    (hstep : ∀ s, ∀ a ∈ accesses, Inv s →
      (f s a).1 = (g (view s) a).1 ∧ view (f s a).2 = (g (view s) a).2 ∧ Inv (f s a).2)
    {s : τ} (hs : Inv s) :
    (run f accesses s).1 = (run g accesses (view s)).1 ∧
      view (run f accesses s).2 = (run g accesses (view s)).2 := by
  induction accesses generalizing s with
  | nil => exact ⟨rfl, rfl⟩
  | cons a accesses ih =>
    obtain ⟨hvalue, hview, hinv⟩ := hstep s a List.mem_cons_self hs
    obtain ⟨hvalues, hend⟩ :=
      ih (fun s a' h' => hstep s a' (List.mem_cons_of_mem a h')) hinv
    simp only [run]
    rw [hvalue, hvalues, hend, hview]
    exact ⟨rfl, rfl⟩

/-! ## The addresses -/

theorem deviceAt_eq {dev : DeviceAddress} {bus slot function : ℕ} (hbus : bus % 256 = dev.bus)
    (hslot : slot % 32 = dev.slot) (hfunction : function % 8 = dev.function) :
    deviceAt bus slot function = dev := by
  obtain ⟨_, _, _, _, _, _⟩ := dev
  subst hbus hslot hfunction
  rfl

namespace ECAM

variable {e : ECAM σ} {dev : DeviceAddress} {offset : ℕ}

theorem phys_eq (hbase : e.base % 2 ^ 20 = 0) (dev : DeviceAddress) :
    e.phys dev = e.base + (dev.bus - e.busStart) * 2 ^ 20 + dev.slot * 2 ^ 15 +
      dev.function * 2 ^ 12 := by
  have hslot := dev.slot_lt
  have hfunction := dev.function_lt
  obtain ⟨q, hq⟩ := Nat.dvd_of_mod_eq_zero hbase
  have hbus : e.base + (dev.bus - e.busStart) <<< 20 = (q + (dev.bus - e.busStart)) <<< 20 := by
    rw [Nat.shiftLeft_eq, Nat.shiftLeft_eq, hq, Nat.add_mul, Nat.mul_comm q]
  have hlow : dev.slot <<< 15 ||| dev.function <<< 12 = (dev.slot <<< 3 + dev.function) <<< 12 := by
    rw [Nat.shiftLeft_add_eq_or_of_lt (show dev.function < 2 ^ 3 from hfunction),
      Nat.shiftLeft_or_distrib, ← Nat.shiftLeft_add]
  rw [phys, Nat.or_assoc, hlow, hbus, ← Nat.shiftLeft_add_eq_or_of_lt, ← hbus]
  · simp only [Nat.shiftLeft_eq]
    omega
  · simp only [Nat.shiftLeft_eq]
    omega

theorem decode_phys (hbase : e.base % 2 ^ 20 = 0) (hbus : e.busStart ≤ dev.bus)
    (hoffset : offset < 256) : e.decode (e.phys dev + offset) = (dev, offset) := by
  have hdev := dev.bus_lt
  have hslot := dev.slot_lt
  have hfunction := dev.function_lt
  rw [decode, phys_eq hbase]
  refine Prod.ext (deviceAt_eq ?_ ?_ ?_) ?_ <;> dsimp only <;> omega

end ECAM

namespace LegacyAccessMechanism

/-- The offset of a word. -/
theorem and_word_mask {offset : ℕ} (h : offset < 2 ^ 32) :
    offset &&& 0xfffffffc = offset / 4 * 4 := by
  have hword : offset / 4 * 4 = (offset >>> 2) <<< 2 := by
    rw [Nat.shiftLeft_eq, Nat.shiftRight_eq_div_pow]
  have hmask : (0xfffffffc : ℕ) = (2 ^ 30 - 1) <<< 2 := rfl
  refine Nat.eq_of_testBit_eq fun i => ?_
  rw [hword, hmask]
  simp only [Nat.testBit_and, Nat.testBit_shiftLeft, Nat.testBit_two_pow_sub_one,
    Nat.testBit_shiftRight]
  by_cases hi : 2 ≤ i
  · by_cases htop : i - 2 < 30
    · simp [hi, htop]
    · have hzero : offset.testBit i = false :=
        Nat.testBit_lt_two_pow (h.trans_le (Nat.pow_le_pow_right Nat.two_pos (by omega)))
      simp [hi, htop, hzero]
  · simp [hi]

theorem selector_eq (dev : DeviceAddress) {offset : ℕ} (hoffset : offset < 256) :
    selector dev offset = 2 ^ 31 + dev.bus * 2 ^ 16 + dev.slot * 2 ^ 11 + dev.function * 2 ^ 8 +
      offset / 4 * 4 := by
  have hbus := dev.bus_lt
  have hslot := dev.slot_lt
  have hfunction := dev.function_lt
  have hfields : selector dev offset =
      1 <<< 31 ||| (dev.bus <<< 16 ||| (dev.slot <<< 11 ||| (dev.function <<< 8 |||
        offset / 4 * 4))) := by
    rw [selector, and_word_mask (by omega), show (2 : ℕ) ^ 31 = 1 <<< 31 from rfl]
    ac_rfl
  rw [hfields, ← Nat.shiftLeft_add_eq_or_of_lt (i := 8) (by omega),
    ← Nat.shiftLeft_add_eq_or_of_lt (i := 11) (by rw [Nat.shiftLeft_eq]; omega),
    ← Nat.shiftLeft_add_eq_or_of_lt (i := 16) (by simp only [Nat.shiftLeft_eq]; omega),
    ← Nat.shiftLeft_add_eq_or_of_lt (i := 31) (by simp only [Nat.shiftLeft_eq]; omega)]
  simp only [Nat.shiftLeft_eq]
  omega

theorem decode_selector (p : LegacyAccessMechanism σ) (dev : DeviceAddress) {offset : ℕ}
    (hoffset : offset < 256) :
    (p.outAddress (selector dev offset)).decode = (dev, offset / 4 * 4) := by
  have hbus := dev.bus_lt
  have hslot := dev.slot_lt
  have hfunction := dev.function_lt
  rw [decode, outAddress, selector_eq dev hoffset]
  refine Prod.ext (deviceAt_eq ?_ ?_ ?_) ?_ <;> dsimp only <;> omega

theorem testBit_selector (dev : DeviceAddress) {offset : ℕ} (hoffset : offset < 256) :
    (selector dev offset).testBit 31 = true := by
  have hbus := dev.bus_lt
  have hslot := dev.slot_lt
  have hfunction := dev.function_lt
  rw [selector_eq dev hoffset, Nat.testBit_eq_decide_div_mod_eq, decide_eq_true_eq]
  omega

/-- A read of the data port, shifted and cut, is a read of the register. -/
theorem read_eq (p : LegacyAccessMechanism σ) (a : Access) :
    p.read C a.device a.offset a.accessSize =
      (readRegister C p.space a.device a.offset a.accessSize,
        p.outAddress (selector a.device a.offset)) := by
  have hoffset : a.offset / 4 * 4 + a.offset % 4 = a.offset := Nat.div_add_mod' a.offset 4
  have hwithin := a.within
  have hshift : (a.offset &&& 3) <<< 3 = 8 * (a.offset % 4) := by
    have hlow : a.offset &&& 3 = a.offset % 4 := Nat.and_two_pow_sub_one_eq_mod a.offset 2
    rw [hlow, Nat.shiftLeft_eq, Nat.mul_comm]
  obtain ⟨rest, hrest⟩ := Nat.exists_eq_add_of_le hwithin
  refine Prod.ext ?_ rfl
  rw [read]
  dsimp only
  have hdata : (p.outAddress (selector a.device a.offset)).inData C =
      readLE (C.byte p.space a.device) (a.offset / 4 * 4)
        (a.offset % 4 + (a.accessSize + rest)) := by
    have henabled : (p.outAddress (selector a.device a.offset)).configAddress.testBit 31 = true :=
      testBit_selector a.device a.offset_lt
    rw [inData, if_pos henabled, decode_selector p a.device a.offset_lt, readRegister,
      ← Nat.add_assoc, ← hrest]
    rfl
  rw [if_pos a.size_mem, hshift, hdata, readLE_add, hoffset, readLE_add, Nat.shiftRight_eq_div_pow,
    Nat.pow_mul, Nat.add_mul_div_left _ _ (Nat.pow_pos (by decide)),
    Nat.div_eq_of_lt (readLE_lt _ _ _),
    Nat.zero_add, Nat.add_mul_mod_self_left, Nat.mod_eq_of_lt (readLE_lt _ _ _)]
  rfl

end LegacyAccessMechanism

/-! ## Every run -/

/-- The window begins at a multiple of a bus, and what is mapped is mapped to itself. -/
structure ECAM.Inv (e : ECAM σ) (base busStart : ℕ) : Prop where
  base : e.base = base
  busStart : e.busStart = busStart
  mappings : ∀ phys virt, e.mappings phys = some virt → virt = phys

namespace ECAM

variable {e : ECAM σ} {base busStart : ℕ}

/-- The address is the same whether it has been asked for before or not. -/
theorem Inv.getAddress (h : e.Inv base busStart) (dev : DeviceAddress) (offset : ℕ) :
    (e.getAddress dev offset).1 = e.phys dev + offset ∧
      (e.getAddress dev offset).2.Inv base busStart ∧
      (e.getAddress dev offset).2.space = e.space := by
  rw [ECAM.getAddress]
  split
  · rename_i virt hvirt
    rw [h.mappings _ _ hvirt]
    exact ⟨rfl, h, rfl⟩
  · refine ⟨rfl, ⟨h.base, h.busStart, fun phys virt hvirt => ?_⟩, rfl⟩
    dsimp only at hvirt
    by_cases hphys : phys = e.phys dev
    · subst hphys
      rw [Function.update_self] at hvirt
      exact (Option.some.inj hvirt).symm
    · rw [Function.update_of_ne hphys] at hvirt
      exact h.mappings phys virt hvirt

theorem Inv.decode_eq {e' : ECAM σ} (h : e.Inv base busStart) (h' : e'.Inv base busStart)
    (address : ℕ) : e'.decode address = e.decode address := by
  rw [decode, decode, h.base, h.busStart, h'.base, h'.busStart]

theorem Inv.access (h : e.Inv base busStart) (hbase : base % 2 ^ 20 = 0) {a : Access}
    (hbus : busStart ≤ a.device.bus) :
    (e.access C a).1 = (accessRegister C e.space a).1 ∧
      (e.access C a).2.space = (accessRegister C e.space a).2 ∧
      (e.access C a).2.Inv base busStart := by
  obtain ⟨haddress, hinv, hspace⟩ := h.getAddress a.device a.offset
  have hdecode : (e.getAddress a.device a.offset).2.decode (e.getAddress a.device a.offset).1 =
      (a.device, a.offset) := by
    rw [h.decode_eq hinv, haddress]
    exact decode_phys (by rwa [h.base]) (by rwa [h.busStart]) a.offset_lt
  rw [ECAM.access, accessRegister]
  cases a.value with
  | none =>
    refine ⟨?_, hspace, hinv⟩
    rw [mmioRead, hdecode, hspace]
  | some value =>
    refine ⟨rfl, ?_, ⟨hinv.base, hinv.busStart, hinv.mappings⟩⟩
    simp only [mmioWrite, hdecode, hspace]

end ECAM

theorem LegacyAccessMechanism.access_eq (p : LegacyAccessMechanism σ) (a : Access) :
    (p.access C a).1 = (readOnly C p.space a).1 ∧
      (p.access C a).2.space = (readOnly C p.space a).2 := by
  rw [LegacyAccessMechanism.access, readOnly]
  cases a.value with
  | none => rw [read_eq]; exact ⟨rfl, rfl⟩
  | some value => exact ⟨rfl, rfl⟩

theorem run_readOnly (accesses : List Access) (s : σ) : (run (readOnly C) accesses s).2 = s := by
  induction accesses with
  | nil => rfl
  | cons a accesses ih =>
    have hsame : (readOnly C s a).2 = s := by
      rw [readOnly]
      cases a.value <;> rfl
    rw [run, hsame]
    exact ih

/-- Over every run of accesses, those through the window reach the registers that they name, whether
the window was mapped before or not, and those through the ports read the same registers but write
to none. -/
theorem accesses_eq (base busStart : ℕ) (accesses : List Access) (hbase : base % 2 ^ 20 = 0)
    (hbus : ∀ a ∈ accesses, busStart ≤ a.device.bus) (s : σ) (configAddress : ℕ) :
    (∃ e : ECAM σ, run (ECAM.access C) accesses ⟨base, busStart, fun _ => none, s⟩ =
        ((run (accessRegister C) accesses s).1, e) ∧
      e.space = (run (accessRegister C) accesses s).2) ∧
    ∃ p : LegacyAccessMechanism σ,
      run (LegacyAccessMechanism.access C) accesses ⟨configAddress, s⟩ =
        ((run (readOnly C) accesses s).1, p) ∧
      p.space = s := by
  constructor
  · have hinit : ECAM.Inv ⟨base, busStart, fun _ => none, s⟩ base busStart :=
      ⟨rfl, rfl, fun _ _ h => absurd h (by simp)⟩
    obtain ⟨hvalues, hspace⟩ := run_eq ECAM.space (fun e => e.Inv base busStart) accesses
      (fun _ a ha hinv => ECAM.Inv.access C hinv hbase (hbus a ha)) hinit
    exact ⟨_, Prod.ext hvalues rfl, hspace⟩
  · obtain ⟨hvalues, hspace⟩ := run_eq (f := LegacyAccessMechanism.access C) (g := readOnly C)
      LegacyAccessMechanism.space (fun _ => True) accesses
      (fun p a _ _ => ⟨(p.access_eq C a).1, (p.access_eq C a).2, trivial⟩)
      (s := ⟨configAddress, s⟩) trivial
    exact ⟨_, Prod.ext hvalues rfl, hspace.trans (run_readOnly C accesses s)⟩

/-- Plain memory for each function. -/
def plainSpace : ConfigSpace (DeviceAddress → ℕ → UInt8) where
  byte s dev i := s dev i
  write s dev offset accessSize value :=
    Function.update s dev (writeLE (s dev) offset accessSize value)

/-- A word of the function 2.1 of bus 3, and its upper half. -/
def twoAccesses : List Access :=
  [⟨⟨3, 2, 1, by decide, by decide, by decide⟩, 0x10, 4, some 0xaabbccdd, by decide, by decide,
      by decide⟩,
    ⟨⟨3, 2, 1, by decide, by decide, by decide⟩, 0x12, 2, none, by decide, by decide, by decide⟩]

theorem accesses_eq_two :
    (run (ECAM.access plainSpace) twoAccesses ⟨0xe0000000, 0, fun _ => none, fun _ _ => 0⟩).1 =
        [none, some 0xaabb] ∧
      (run (LegacyAccessMechanism.access plainSpace) twoAccesses ⟨0, fun _ _ => 0⟩).1 =
        [none, some 0] := by
  obtain ⟨⟨e, hecam, -⟩, p, hports, -⟩ := accesses_eq plainSpace 0xe0000000 0 twoAccesses
    (by decide) (fun a _ => Nat.zero_le _) (fun _ _ => 0) 0
  rw [hecam, hports]
  exact ⟨rfl, rfl⟩

end Cryptix.Drivers.PCI
