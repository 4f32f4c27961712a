import Mathlib.Data.List.Dedup
import Cryptix.Drivers.PartitionTable
import Cryptix.Lib.Checked

/-!
# Partitions of a GUID partition table

`ParseGPT` of `Kernel/Drivers/Storage/PartitionTable.cpp`. The header says how many slots the array
of partitions has, and how large one is.

The code reads the array in pieces of 128 bytes, whatever the size of a slot is. It takes one for
unused by eight bytes of its unique GUID, not by the GUID of its type. And the size of the array is
a product of 32-bit numbers, so that slots of a large one are left out. It reads nothing outside of
the array (`parseLoop_eq_ok`), but what it yields are the partitions of the array only if what it
passes over and what it makes up come to the same (`yieldsPartitions_iff`).

The checksums are left out: a wrong one is logged, and nothing else.
-/

namespace Cryptix.Lib

/-- Two lists without duplicates have the same images if the images of what is in one alone are
those of what is in the other alone. -/
theorem perm_map_iff_of_nodup {α β : Type*} [DecidableEq α] {s t : List α} (hs : s.Nodup)
    (ht : t.Nodup) (f : α → β) :
    (s.map f).Perm (t.map f) ↔
      ((s.filter (· ∉ t)).map f).Perm ((t.filter (· ∉ s)).map f) := by
  have hboth : (s.filter (· ∈ t)).Perm (t.filter (· ∈ s)) := by
    apply (List.perm_ext_iff_of_nodup (hs.filter _) (ht.filter _)).mpr
    intro a
    simp only [List.mem_filter, decide_eq_true_eq]
    exact and_comm
  have hsplit : ∀ u v : List α, ((u.filter (· ∈ v)).map f ++ (u.filter (· ∉ v)).map f).Perm
      (u.map f) := by
    intro u v
    rw [← List.map_append]
    simpa using (List.filter_append_perm (fun a => decide (a ∈ v)) u).map f
  have hsame := (hboth.map f).append_right ((s.filter (· ∉ t)).map f)
  rw [← (hsplit s t).congr_left, ← (hsplit t s).congr_right, hsame.congr_left,
    List.perm_append_left_iff]

end Cryptix.Lib

namespace Cryptix.Drivers

open Lib

namespace GPT

/-- `HEADER_LENGTH`. -/
def headerLength : ℕ := 92

/-- `HEADER_SIGNATURE`. -/
def headerSignature : ℕ := 0x5452415020494645

/-- `Attributes::eDontMount | Attributes::eLegacy`. -/
def notMounted : ℕ := 2 ^ 1 ||| 2 ^ 2

/-- `PartitionHeader`, but for what is only logged. -/
structure PartitionHeader where
  signature : ℕ
  headerSize : ℕ
  partitionArrayLBA : ℕ
  partitionCount : ℕ
  entrySize : ℕ

/-- `Entry`, but for the name. A GUID is a number of 16 bytes. -/
structure Entry where
  guid : ℕ
  uniqueGuid : ℕ
  startLBA : ℕ
  endLBA : ℕ
  attributes : ℕ

/-- `sizeof(Entry)`. -/
def sizeOfEntry : ℕ := 128

def PartitionHeader.read (device : ℕ → UInt8) (address : ℕ) : PartitionHeader where
  signature := readLE device address 8
  headerSize := readLE device (address + 12) 4
  partitionArrayLBA := readLE device (address + 72) 8
  partitionCount := readLE device (address + 80) 4
  entrySize := readLE device (address + 84) 4

/-- `partitionArraySize`. -/
def PartitionHeader.partitionArraySize (header : PartitionHeader) : ℕ :=
  header.partitionCount * header.entrySize % 2 ^ 32

namespace Entry

/-- The copy of an entry out of the array. -/
def read (array : ℕ → UInt8) (position : ℕ) : Entry where
  guid := readLE array position 16
  uniqueGuid := readLE array (position + 16) 16
  startLBA := readLE array (position + 32) 8
  endLBA := readLE array (position + 40) 8
  attributes := readLE array (position + 48) 8

variable (entry : Entry)

/-- What `ParseGPT` takes for an unused entry: the first and the third four bytes of the unique GUID
are zero. -/
def LooksUnused : Prop := entry.uniqueGuid % 2 ^ 32 = 0 ∧ entry.uniqueGuid / 2 ^ 64 % 2 ^ 32 = 0

instance : DecidablePred LooksUnused := fun _ => inferInstanceAs (Decidable (_ ∧ _))

/-- The attributes allow mounting. -/
def AllowsMounting : Prop := entry.attributes &&& notMounted = 0

instance : DecidablePred AllowsMounting := fun _ => inferInstanceAs (Decidable (_ = _))

/-- An entry for a partition to be mounted. -/
def IsPartition : Prop := entry.guid ≠ 0 ∧ entry.AllowsMounting

instance : DecidablePred IsPartition := fun _ => inferInstanceAs (Decidable (_ ∧ _))

/-- `ParseGPT` appends an entry for it. -/
def IsTaken : Prop := ¬ entry.LooksUnused ∧ entry.AllowsMounting

instance : DecidablePred IsTaken := fun _ => inferInstanceAs (Decidable (_ ∧ _))

/-- The first and the last block. -/
def extent : PartitionTable.Extent := (entry.startLBA, entry.endLBA)

end Entry

end GPT

namespace PartitionTable

open GPT

/-- `partition`. -/
def partitionOf (entry : GPT.Entry) : Entry where
  firstBlock := entry.startLBA
  lastBlock := entry.endLBA
  type := 0
  attributes := some entry.attributes

/-- The loop of `ParseGPT` from `position` on: what it appends to `m_Entries`. -/
def parseLoop (array : ℕ → UInt8) (size : ℕ) : ℕ → ℕ → Except ScanFault (List Entry)
  | 0, position => if position < size then .error .endless else .ok []
  | fuel + 1, position =>
    if position < size then
      if position + sizeOfEntry ≤ size then
        let entry := GPT.Entry.read array position
        let rest := parseLoop array size fuel (position + sizeOfEntry)
        if entry.LooksUnused then rest
        else if entry.attributes &&& notMounted ≠ 0 then rest
        else rest.map (partitionOf entry :: ·)
      else .error .outside
    else .ok []

variable (device : ℕ → UInt8)

/-- `gptHeader`. -/
def gptHeader : PartitionHeader := .read device 512

/-- `partitionArray`. -/
def partitionArray : ℕ → UInt8 :=
  fun i => device ((gptHeader device).partitionArrayLBA * 512 % wordCount + i)

/-- `ParseGPT`: what it appends, or `none` if it returns `false`. -/
def parseGPT : Except ScanFault (Option (List Entry)) :=
  let firstEntry := (MasterBootRecord.read device 0).partitionEntries 0
  let header := gptHeader device
  if firstEntry.status ≠ 0 ∨ firstEntry.type ≠ 0xee ∨ firstEntry.firstSector ≠ 1 then .ok none
  else if header.signature ≠ headerSignature then .ok none
  else if header.headerSize < headerLength then .ok none
  else
    (parseLoop (partitionArray device) header.partitionArraySize header.partitionArraySize 0).map
      some

/-- The disk has a protective record and a header that passes the checks. -/
structure HasGPT : Prop where
  status : ((MasterBootRecord.read device 0).partitionEntries 0).status = 0
  type : ((MasterBootRecord.read device 0).partitionEntries 0).type = 0xee
  firstSector : ((MasterBootRecord.read device 0).partitionEntries 0).firstSector = 1
  signature : (gptHeader device).signature = headerSignature
  headerSize : headerLength ≤ (gptHeader device).headerSize

/-- Where the slots of the array are. -/
def slots : List ℕ :=
  (List.range (gptHeader device).partitionCount).map (· * (gptHeader device).entrySize)

/-- Where the pieces are that the loop looks at. -/
def pieces : List ℕ :=
  (List.range ((gptHeader device).partitionArraySize / sizeOfEntry)).map (sizeOfEntry * ·)

/-- The entry at a place of the array. -/
def entryAt (position : ℕ) : GPT.Entry := .read (partitionArray device) position

/-- `ParseGPT` reads inside of the array, and yields each partition once. -/
def YieldsPartitions : Prop :=
  ∃ entries, parseGPT device = .ok (some entries) ∧
    (entries.map Entry.extent).Perm
      (((slots device).filter fun i => (entryAt device i).IsPartition).map
        fun i => (entryAt device i).extent)

/-- The partitions that are passed over. -/
def missed : List ℕ :=
  (slots device).filter fun i => (entryAt device i).IsPartition ∧
    ((entryAt device i).LooksUnused ∨ (gptHeader device).partitionArraySize ≤ i)

/-- The pieces that are taken for partitions: those that are not at the start of a slot, and unused
slots. -/
def madeUp : List ℕ :=
  (pieces device).filter fun i => (entryAt device i).IsTaken ∧
    (i ∉ slots device ∨ (entryAt device i).guid = 0)

/-! ## What the loop yields -/

variable {device}

/-- The loop looks at every piece, and is through with the array after the last. -/
theorem parseLoop_eq_ok (array : ℕ → UInt8) {fuel i n : ℕ} (hfuel : n ≤ fuel) :
    parseLoop array (sizeOfEntry * (i + n)) fuel (sizeOfEntry * i) =
      .ok ((((List.range' i n).map (sizeOfEntry * ·)).filter
        fun position => (GPT.Entry.read array position).IsTaken).map
          fun position => partitionOf (.read array position)) := by
  induction n generalizing fuel i with
  | zero =>
    have hend : ¬ sizeOfEntry * i < sizeOfEntry * (i + 0) := Nat.lt_irrefl _
    cases fuel <;> rw [parseLoop, if_neg hend] <;> rfl
  | succ n ih =>
    obtain ⟨fuel, rfl⟩ := Nat.exists_eq_add_one_of_ne_zero (show fuel ≠ 0 by omega)
    have hrest := ih (i := i + 1) (Nat.le_of_succ_le_succ hfuel)
    rw [Nat.add_right_comm, Nat.add_assoc, Nat.mul_add sizeOfEntry i 1, Nat.mul_one] at hrest
    have hin : sizeOfEntry * i + sizeOfEntry ≤ sizeOfEntry * (i + (n + 1)) := by
      rw [sizeOfEntry]
      omega
    have hlt : sizeOfEntry * i < sizeOfEntry * (i + (n + 1)) := by
      rw [sizeOfEntry]
      omega
    rw [parseLoop, if_pos hlt, if_pos hin, hrest, List.range'_succ, List.map_cons,
      List.filter_cons]
    by_cases hunused : (GPT.Entry.read array (sizeOfEntry * i)).LooksUnused
    · rw [if_pos hunused, if_neg]
      exact fun h => (of_decide_eq_true h).1 hunused
    · by_cases hmount : (GPT.Entry.read array (sizeOfEntry * i)).attributes &&& notMounted ≠ 0
      · rw [if_neg hunused, if_pos hmount, if_neg]
        exact fun h => hmount (of_decide_eq_true h).2
      · have htaken : (GPT.Entry.read array (sizeOfEntry * i)).IsTaken :=
          ⟨hunused, not_not.mp hmount⟩
        rw [if_neg hunused, if_neg hmount, if_pos (decide_eq_true htaken)]
        rfl

theorem nodup_pieces (device : ℕ → UInt8) : (pieces device).Nodup :=
  List.nodup_range.map fun _ _ h => Nat.eq_of_mul_eq_mul_left (show 0 < 128 by decide) h

theorem madeUp_eq (device : ℕ → UInt8) :
    madeUp device = ((pieces device).filter fun i => (entryAt device i).IsTaken).filter
      (· ∉ (slots device).filter fun i => (entryAt device i).IsPartition) := by
  rw [madeUp, List.filter_filter]
  apply List.filter_congr
  intro i _
  rw [Bool.eq_iff_iff]
  simp only [decide_eq_true_eq, Bool.and_eq_true, List.mem_filter]
  constructor
  · intro h
    exact ⟨fun hslot => h.2.elim (absurd hslot.1) hslot.2.1, h.1⟩
  · rintro ⟨hnot, htaken⟩
    refine ⟨htaken, or_iff_not_imp_left.mpr fun hslot => not_not.mp fun hguid => ?_⟩
    exact hnot ⟨not_not.mp hslot, hguid, htaken.2⟩

section EntrySize

variable {k : ℕ} (hsize : (gptHeader device).entrySize = sizeOfEntry * 2 ^ k)

include hsize

/-- The array is one of whole pieces, also when the product is too large. -/
theorem dvd_partitionArraySize : sizeOfEntry ∣ (gptHeader device).partitionArraySize := by
  rw [PartitionHeader.partitionArraySize, hsize]
  apply (Nat.dvd_mod_iff (show sizeOfEntry ∣ 2 ^ 32 by rw [sizeOfEntry]; decide)).mpr
  exact (Nat.dvd_mul_right sizeOfEntry (2 ^ k)).mul_left _

theorem entrySize_pos : 0 < (gptHeader device).entrySize := by
  rw [hsize, sizeOfEntry]
  exact Nat.mul_pos (by decide) (Nat.two_pow_pos k)

theorem parseGPT_eq (h : HasGPT device) :
    parseGPT device = .ok (some (((pieces device).filter fun i =>
      (entryAt device i).IsTaken).map fun i => partitionOf (entryAt device i))) := by
  have hloop := parseLoop_eq_ok (partitionArray device) (i := 0)
    (Nat.div_le_self (gptHeader device).partitionArraySize sizeOfEntry)
  rw [Nat.zero_add, Nat.mul_div_cancel' (dvd_partitionArraySize hsize), Nat.mul_zero,
    ← List.range_eq_range'] at hloop
  rw [parseGPT, if_neg, if_neg (not_not.mpr h.signature), if_neg (Nat.not_lt_of_le h.headerSize),
    hloop]
  · rfl
  · rintro (hstatus | htype | hsector)
    · exact hstatus h.status
    · exact htype h.type
    · exact hsector h.firstSector

theorem nodup_slots : (slots device).Nodup :=
  List.nodup_range.map fun _ _ h => Nat.eq_of_mul_eq_mul_right (entrySize_pos hsize) h

/-- A slot is looked at if it is in front of the end that the loop knows. -/
theorem mem_pieces_iff {i : ℕ} (hi : i ∈ slots device) :
    i ∈ pieces device ↔ i < (gptHeader device).partitionArraySize := by
  obtain ⟨j, -, rfl⟩ := List.mem_map.mp hi
  obtain ⟨m, hm⟩ := dvd_partitionArraySize hsize
  have hpos : 0 < sizeOfEntry := by decide
  have hplace : j * (gptHeader device).entrySize = sizeOfEntry * (j * 2 ^ k) := by
    rw [hsize, Nat.mul_left_comm]
  rw [pieces, hm, hplace, Nat.mul_div_cancel_left m hpos, Nat.mul_lt_mul_left hpos,
    List.mem_map_of_injective fun _ _ h => Nat.eq_of_mul_eq_mul_left hpos h, List.mem_range]

theorem missed_eq : missed device = ((slots device).filter fun i =>
    (entryAt device i).IsPartition).filter
      (· ∉ (pieces device).filter fun i => (entryAt device i).IsTaken) := by
  rw [missed, List.filter_filter]
  apply List.filter_congr
  intro i hi
  rw [Bool.eq_iff_iff]
  simp only [decide_eq_true_eq, Bool.and_eq_true, List.mem_filter, mem_pieces_iff hsize hi]
  constructor
  · intro h
    exact ⟨fun hpiece => h.2.elim hpiece.2.1 (Nat.not_le_of_lt hpiece.1), h.1⟩
  · rintro ⟨hnot, hpartition⟩
    refine ⟨hpartition, or_iff_not_imp_left.mpr fun hused => Nat.le_of_not_lt fun hlt => ?_⟩
    exact hnot ⟨hlt, hused, hpartition.2⟩

end EntrySize

/-- **When the partitions of an array are found.** `ParseGPT` always reads inside of the array. It
yields each partition once if no slot with one is passed over and nothing else is taken for one, or
if the blocks of the latter are those of the former. -/
theorem yieldsPartitions_iff {k : ℕ} (h : HasGPT device)
    (hsize : (gptHeader device).entrySize = sizeOfEntry * 2 ^ k) :
    YieldsPartitions device ↔
      ((madeUp device).map fun i => (entryAt device i).extent).Perm
        ((missed device).map fun i => (entryAt device i).extent) := by
  have hperm := perm_map_iff_of_nodup
    ((nodup_pieces device).filter fun i => (entryAt device i).IsTaken)
    ((nodup_slots hsize).filter fun i => (entryAt device i).IsPartition)
    fun i => (entryAt device i).extent
  rw [← madeUp_eq, ← missed_eq hsize] at hperm
  rw [← hperm, YieldsPartitions, parseGPT_eq hsize h]
  constructor
  · rintro ⟨entries, hentries, hfound⟩
    cases hentries
    rwa [List.map_map] at hfound
  · intro hfound
    refine ⟨_, rfl, ?_⟩
    rwa [List.map_map]

/-- A disk with a table of one slot. The unique GUID of its partition has one byte that is not
zero. -/
def oneSlot (unique : ℕ) : ℕ → UInt8 := fun i =>
  -- the protective record, and the header at 512
  if i = 450 then 0xee
  else if i = 454 then 1
  else if 512 ≤ i ∧ i < 520 then [0x45, 0x46, 0x49, 0x20, 0x50, 0x41, 0x52, 0x54].getD (i - 512) 0
  else if i = 524 then 92
  else if i = 584 then 2
  else if i = 592 then 1
  else if i = 596 then 128
  -- the slot, with the GUID of a type
  else if i = 1024 ∨ i = 1040 + unique then 1
  else if i = 1056 then 3
  else if i = 1064 then 4
  else 0

theorem yieldsPartitions_oneSlot : YieldsPartitions (oneSlot 0) := by
  have hsize : (gptHeader (oneSlot 0)).entrySize = sizeOfEntry * 2 ^ 0 := by decide
  have hgpt : HasGPT (oneSlot 0) := ⟨by decide, by decide, by decide, by decide, by decide⟩
  exact (yieldsPartitions_iff hgpt hsize).mpr (by decide)

/-- A unique GUID with four other bytes. -/
theorem not_yieldsPartitions_oneSlot : ¬ YieldsPartitions (oneSlot 4) := by
  have hnone : parseGPT (oneSlot 4) = .ok (some []) := by decide
  intro h
  obtain ⟨entries, hentries, hperm⟩ := h
  rw [hnone] at hentries
  cases hentries
  exact absurd hperm (by decide)

end PartitionTable

end Cryptix.Drivers
