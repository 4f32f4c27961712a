import Mathlib.Algebra.Order.BigOperators.Group.List
import Mathlib.Data.List.Perm.Basic
import Cryptix.Lib.Bytes
import Cryptix.Lib.Links
import Cryptix.Prism

/-!
# Partitions of a master boot record

`ParseMBR` and `ParseEBR` of `Kernel/Drivers/Storage/PartitionTable.cpp`. A record has four entries.
One of type 5 is an extended partition, and the first sector of that holds a record too: its first
entry is a logical partition, its second one the link to the next record.

`ParseEBR` takes the link from the record it is in, not from the start of the extended partition,
and it goes on as long as the second entry is *not* a link. So it is through with two logical
partitions or more after the first of them, and does not return from one that is alone
(`parsesWell_iff`).

The device does not fail: it is a byte for each offset.
-/

namespace Cryptix.Drivers

open Lib

/-- `MBREntry`, but for what nothing reads. -/
structure MBREntry where
  status : UInt8
  type : UInt8
  firstSector : ℕ
  sectorCount : ℕ
  deriving DecidableEq

/-- `MasterBootRecord`: its `PartitionEntries`. -/
structure MasterBootRecord where
  partitionEntries : Fin 4 → MBREntry

namespace PartitionTable

/-- `PartitionTable::Entry`. The constructor leaves the attributes as they are. -/
structure Entry where
  firstBlock : ℕ
  lastBlock : ℕ
  type : ℕ
  attributes : Option ℕ := none
  deriving DecidableEq

end PartitionTable

section Parse

variable (device : ℕ → UInt8)

def MBREntry.read (address : ℕ) : MBREntry where
  status := device address
  type := device (address + 4)
  firstSector := readLE device (address + 8) 4
  sectorCount := readLE device (address + 12) 4

/-- `m_Device->Read` of a record. -/
def MasterBootRecord.read (address : ℕ) : MasterBootRecord where
  partitionEntries i := MBREntry.read device (address + 446 + 16 * i)

namespace PartitionTable

/-- `MBR_SYSTEMID_EBR`. -/
def mbrSystemIdEbr : UInt8 := 0x05

/-- The entry for `entry`, if that counts its sectors from `base` on. -/
def pushed (entry : MBREntry) (base : ℕ) : Entry where
  firstBlock := offset entry.firstSector base
  lastBlock := wordSub (offset (offset entry.firstSector base) entry.sectorCount) 1
  type := entry.type.toNat

/-- `ParseEBR`: what it appends to `m_Entries`. There is nothing if it has not returned. -/
def parseEBR : ℕ → MasterBootRecord → ℕ → Option (List Entry)
  | 0, _, _ => none
  | fuel + 1, ebr, start =>
    let logicalPartition := ebr.partitionEntries 0
    let nextEbrEntry := ebr.partitionEntries 1
    let entry := pushed logicalPartition start
    if nextEbrEntry.type = mbrSystemIdEbr then some [entry]
    else
      let start := offset start nextEbrEntry.firstSector
      (parseEBR fuel (.read device (start * 512 % wordCount)) start).map (entry :: ·)

/-- One turn of the loop of `ParseMBR`: what it appends. -/
def parseEntry (fuel : ℕ) (entry : MBREntry) : Option (List Entry) :=
  if entry.firstSector = 0 then some []
  else if entry.type = mbrSystemIdEbr then
    -- the product is one of 32-bit numbers
    parseEBR device fuel (.read device (entry.firstSector * 512 % 2 ^ 32)) entry.firstSector
  else some [pushed entry 0]

/-- The loop of `ParseMBR`. -/
def parseEntries (fuel : ℕ) : List MBREntry → Option (List Entry)
  | [] => some []
  | entry :: rest =>
    (parseEntry device fuel entry).bind fun first => (parseEntries fuel rest).map (first ++ ·)

/-- The entries of `m_Mbr`, which `Load` reads. -/
def mbrEntries : List MBREntry :=
  (List.finRange 4).map (MasterBootRecord.read device 0).partitionEntries

/-- `ParseMBR`. -/
def parseMBR (fuel : ℕ) : Option (List Entry) := parseEntries device fuel (mbrEntries device)

end PartitionTable

end Parse

/-! ## The partitions that a disk describes -/

namespace PartitionTable

/-- The first and the last sector of a partition. -/
abbrev Extent := ℕ × ℕ

def Entry.extent (entry : Entry) : Extent := (entry.firstBlock, entry.lastBlock)

end PartitionTable

namespace MBREntry

/-- The extent of an entry that counts its sectors from `base` on. -/
def extent (entry : MBREntry) (base : ℕ) : PartitionTable.Extent :=
  (base + entry.firstSector, base + entry.firstSector + entry.sectorCount - 1)

def IsExtended (entry : MBREntry) : Prop :=
  entry.firstSector ≠ 0 ∧ entry.type = PartitionTable.mbrSystemIdEbr

instance : DecidablePred IsExtended := fun _ => inferInstanceAs (Decidable (_ ∧ _))

/-- An entry for a partition. -/
def IsUsed (entry : MBREntry) : Prop := entry.firstSector ≠ 0 ∧ entry.sectorCount ≠ 0

instance : DecidablePred IsUsed := fun _ => inferInstanceAs (Decidable (_ ∧ _))

/-- An entry for nothing. -/
def IsEmpty (entry : MBREntry) : Prop :=
  entry.type = 0 ∧ entry.firstSector = 0 ∧ entry.sectorCount = 0

instance : DecidablePred IsEmpty := fun _ => inferInstanceAs (Decidable (_ ∧ _ ∧ _))

end MBREntry

namespace PartitionTable

variable (device : ℕ → UInt8)

/-- The record at sector `start` of an extended partition, and those it leads to, describe logical
partitions. The links count from `base` on, where the extended partition begins. -/
inductive ExtendedChain (base : ℕ) : ℕ → List Extent → Prop
  | last {start : ℕ} {ebr : MasterBootRecord} (hread : ebr = .read device (start * 512))
    (hlogical : (ebr.partitionEntries 0).IsUsed) (hnext : (ebr.partitionEntries 1).IsEmpty) :
    ExtendedChain base start [(ebr.partitionEntries 0).extent start]
  | link {start : ℕ} {ebr : MasterBootRecord} {logicals : List Extent}
    (hread : ebr = .read device (start * 512)) (hlogical : (ebr.partitionEntries 0).IsUsed)
    (hnext : (ebr.partitionEntries 1).IsExtended)
    (hrest : ExtendedChain base (base + (ebr.partitionEntries 1).firstSector) logicals) :
    ExtendedChain base start ((ebr.partitionEntries 0).extent start :: logicals)

/-- Entries of a master boot record describe partitions: each primary one, and those of the chains
of extended boot records. -/
inductive Describes : List MBREntry → List Extent → Prop
  | nil : Describes [] []
  | unused {entry : MBREntry} {rest : List MBREntry} {partitions : List Extent}
    (hunused : entry.firstSector = 0) (hrest : Describes rest partitions) :
    Describes (entry :: rest) partitions
  | primary {entry : MBREntry} {rest : List MBREntry} {partitions : List Extent}
    (hused : entry.IsUsed) (hprimary : ¬ entry.IsExtended) (hrest : Describes rest partitions) :
    Describes (entry :: rest) (entry.extent 0 :: partitions)
  | extended {entry : MBREntry} {rest : List MBREntry} {logicals partitions : List Extent}
    (hextended : entry.IsExtended)
    (hchain : ExtendedChain device entry.firstSector entry.firstSector logicals)
    (hrest : Describes rest partitions) : Describes (entry :: rest) (logicals ++ partitions)

/-- `ParseMBR` returns, and where the disk is in good order it has produced each partition once. -/
def ParsesWell : Prop :=
  ∃ fuel entries, parseMBR device fuel = some entries ∧
    ∀ partitions, Describes device (mbrEntries device) partitions →
      (entries.map Entry.extent).Perm partitions

/-! ## The records that `ParseEBR` comes to

A record is known by the address it is read from and the sector its logical partition counts from.
-/

/-- `ParseEBR` goes on from a record to another. -/
def GoesOn (record : ℕ × ℕ) : Prop :=
  ((MasterBootRecord.read device record.1).partitionEntries 1).type ≠ mbrSystemIdEbr

/-- The record it goes on to. -/
def next (record : ℕ × ℕ) : ℕ × ℕ :=
  let start := offset record.2
    ((MasterBootRecord.read device record.1).partitionEntries 1).firstSector
  (start * 512 % wordCount, start)

/-- The first record of an extended partition, as `ParseMBR` reads it. -/
def firstRecord (entry : MBREntry) : ℕ × ℕ :=
  (entry.firstSector * 512 % 2 ^ 32, entry.firstSector)

/-- `ParseEBR` comes to an end at the record after `n` others. -/
def EndsAfter (entry : MBREntry) (n : ℕ) : Prop :=
  Links (GoesOn device) (next device) (firstRecord entry) n

/-- The logical partition of a record. -/
def logicalOf (record : ℕ × ℕ) : Entry :=
  pushed ((MasterBootRecord.read device record.1).partitionEntries 0) record.2

/-- The logical partitions of the records up to the one after `n` others. -/
def logicals (record : ℕ × ℕ) (n : ℕ) : List Entry :=
  (List.range (n + 1)).map fun i => logicalOf device ((next device)^[i] record)

/-- The partitions for an entry of the master boot record, if `ParseEBR` comes to an end after `n`
records. -/
def partitionsOf (n : ℕ) (entry : MBREntry) : List Entry :=
  if entry.firstSector = 0 then []
  else if entry.type = mbrSystemIdEbr then logicals device (firstRecord entry) n
  else [pushed entry 0]

variable {device}

theorem logicals_succ (record : ℕ × ℕ) (n : ℕ) : logicals device record (n + 1) =
    logicalOf device record :: logicals device (next device record) n := by
  rw [logicals, List.range_succ_eq_map, List.map_cons, List.map_map]
  rfl

theorem length_logicals (record : ℕ × ℕ) (n : ℕ) : (logicals device record n).length = n + 1 := by
  rw [logicals, List.length_map, List.length_range]

/-- `ParseEBR` returns when the links come to an end, with what the records on the way hold. -/
theorem parseEBR_eq_some_iff {fuel : ℕ} (record : ℕ × ℕ) {entries : List Entry} :
    parseEBR device fuel (.read device record.1) record.2 = some entries ↔
      ∃ n < fuel, Links (GoesOn device) (next device) record n ∧
        entries = logicals device record n := by
  induction fuel generalizing record entries with
  | zero =>
    rw [parseEBR]
    constructor
    · intro h
      cases h
    · rintro ⟨n, hn, -⟩
      exact absurd hn (Nat.not_lt_zero n)
  | succ fuel ih =>
    rw [parseEBR]
    by_cases hstop : GoesOn device record
    · rw [if_neg hstop, Option.map_eq_some_iff]
      constructor
      · rintro ⟨rest, hrun, rfl⟩
        obtain ⟨n, hn, hlinks, rfl⟩ := (ih (next device record)).mp hrun
        exact ⟨n + 1, Nat.succ_lt_succ hn, Links.succ_iff.mpr ⟨hstop, hlinks⟩,
          (logicals_succ record n).symm⟩
      · rintro ⟨n, hn, hlinks, rfl⟩
        cases n with
        | zero => exact absurd hstop (Links.zero_iff.mp hlinks)
        | succ n =>
          have hrest := (Links.succ_iff.mp hlinks).2
          refine ⟨_, (ih (next device record)).mpr
            ⟨n, Nat.lt_of_succ_lt_succ hn, hrest, rfl⟩, ?_⟩
          exact (logicals_succ record n).symm
    · rw [if_pos (not_not.mp hstop), Option.some_inj]
      constructor
      · rintro rfl
        exact ⟨0, Nat.succ_pos fuel, Links.zero_iff.mpr hstop, rfl⟩
      · rintro ⟨n, -, hlinks, rfl⟩
        rw [hlinks.unique (Links.zero_iff.mpr hstop)]
        rfl

theorem parseEntry_eq_some {fuel n : ℕ} {entry : MBREntry} (hn : n < fuel)
    (hends : entry.IsExtended → EndsAfter device entry n) :
    parseEntry device fuel entry = some (partitionsOf device n entry) := by
  rw [parseEntry, partitionsOf]
  by_cases hunused : entry.firstSector = 0
  · rw [if_pos hunused, if_pos hunused]
  · rw [if_neg hunused, if_neg hunused]
    by_cases htype : entry.type = mbrSystemIdEbr
    · rw [if_pos htype, if_pos htype]
      exact (parseEBR_eq_some_iff _).mpr ⟨n, hn, hends ⟨hunused, htype⟩, rfl⟩
    · rw [if_neg htype, if_neg htype]

theorem exists_of_parseEntry {fuel : ℕ} {entry : MBREntry} {entries : List Entry}
    (hrun : parseEntry device fuel entry = some entries) :
    ∃ n, (entry.IsExtended → EndsAfter device entry n) ∧
      entries = partitionsOf device n entry := by
  rw [parseEntry] at hrun
  by_cases hunused : entry.firstSector = 0
  · rw [if_pos hunused, Option.some_inj] at hrun
    refine ⟨0, fun hextended => absurd hunused hextended.1, ?_⟩
    rw [partitionsOf, if_pos hunused, hrun]
  · rw [if_neg hunused] at hrun
    by_cases htype : entry.type = mbrSystemIdEbr
    · rw [if_pos htype] at hrun
      obtain ⟨n, -, hlinks, hentries⟩ := (parseEBR_eq_some_iff (firstRecord entry)).mp hrun
      refine ⟨n, fun _ => hlinks, ?_⟩
      rw [partitionsOf, if_neg hunused, if_pos htype, hentries]
    · rw [if_neg htype, Option.some_inj] at hrun
      refine ⟨0, fun hextended => absurd hextended.2 htype, ?_⟩
      rw [partitionsOf, if_neg hunused, if_neg htype, hrun]

/-- The partitions of an entry do not depend on the length of a chain, unless there is one. -/
theorem partitionsOf_eq {n m : ℕ} {entry : MBREntry}
    (hn : entry.IsExtended → EndsAfter device entry n)
    (hm : entry.IsExtended → EndsAfter device entry m) :
    partitionsOf device n entry = partitionsOf device m entry := by
  by_cases hextended : entry.IsExtended
  · rw [(hn hextended).unique (hm hextended)]
  · rw [partitionsOf, partitionsOf]
    by_cases hunused : entry.firstSector = 0
    · rw [if_pos hunused, if_pos hunused]
    · have htype : entry.type ≠ mbrSystemIdEbr := fun htype => hextended ⟨hunused, htype⟩
      rw [if_neg hunused, if_neg hunused, if_neg htype, if_neg htype]

section Entries

variable {n : MBREntry → ℕ} {entries : List MBREntry}

theorem parseEntries_eq_some {fuel : ℕ} (hn : ∀ e ∈ entries, n e < fuel)
    (hends : ∀ e ∈ entries, e.IsExtended → EndsAfter device e (n e)) :
    parseEntries device fuel entries =
      some (entries.flatMap fun e => partitionsOf device (n e) e) := by
  induction entries with
  | nil => rfl
  | cons entry rest ih =>
    rw [List.forall_mem_cons] at hn hends
    rw [parseEntries, parseEntry_eq_some hn.1 hends.1, ih hn.2 hends.2, List.flatMap_cons]
    rfl

theorem exists_of_parseEntries {fuel : ℕ} {pushed : List Entry}
    (hn : ∀ e k, EndsAfter device e k → n e = k)
    (hrun : parseEntries device fuel entries = some pushed) :
    (∀ e ∈ entries, e.IsExtended → EndsAfter device e (n e)) ∧
      pushed = entries.flatMap fun e => partitionsOf device (n e) e := by
  induction entries generalizing pushed with
  | nil => exact ⟨List.forall_mem_nil _, (Option.some.inj hrun).symm⟩
  | cons entry rest ih =>
    rw [parseEntries, Option.bind_eq_some_iff] at hrun
    obtain ⟨first, hfirst, hrun⟩ := hrun
    obtain ⟨others, hothers, rfl⟩ := Option.map_eq_some_iff.mp hrun
    obtain ⟨k, hends, rfl⟩ := exists_of_parseEntry hfirst
    obtain ⟨hrest, rfl⟩ := ih hothers
    have hentry : entry.IsExtended → EndsAfter device entry (n entry) := by
      intro hextended
      rw [hn entry k (hends hextended)]
      exact hends hextended
    refine ⟨List.forall_mem_cons.mpr ⟨hentry, hrest⟩, ?_⟩
    rw [List.flatMap_cons, partitionsOf_eq hends hentry]

end Entries

/-! ## Disks in good order -/

theorem extent_pushed {entry : MBREntry} (hfirst : entry.firstSector < 2 ^ 32)
    (hcount : entry.sectorCount < 2 ^ 32) (hused : entry.firstSector ≠ 0) :
    (pushed entry 0).extent = entry.extent 0 := by
  have hsector : offset entry.firstSector 0 = entry.firstSector :=
    offset_of_lt (by rw [wordCount]; omega)
  have hend : offset entry.firstSector entry.sectorCount =
      entry.firstSector + entry.sectorCount :=
    offset_of_lt (by rw [wordCount]; omega)
  have hlast := wordSub_of_le (a := entry.firstSector + entry.sectorCount) (b := 1)
    (by rw [wordCount]; omega) (by omega)
  rw [Entry.extent, pushed, MBREntry.extent, hsector, hend, hlast, Nat.zero_add]

/-- Without an extended partition `ParseMBR` produces what there is. -/
theorem extents_eq {n : MBREntry → ℕ} {entries : List MBREntry} {partitions : List Extent}
    (hdescribes : Describes device entries partitions)
    (hlt : ∀ e ∈ entries, e.firstSector < 2 ^ 32 ∧ e.sectorCount < 2 ^ 32)
    (hnone : ∀ e ∈ entries, ¬ e.IsExtended) :
    (entries.flatMap fun e => partitionsOf device (n e) e).map Entry.extent = partitions := by
  induction hdescribes with
  | nil => rfl
  | unused hunused _ ih =>
    rw [List.forall_mem_cons] at hlt hnone
    rw [List.flatMap_cons, List.map_append, ih hlt.2 hnone.2, partitionsOf, if_pos hunused]
    rfl
  | primary hused hprimary _ ih =>
    rw [List.forall_mem_cons] at hlt hnone
    rw [List.flatMap_cons, List.map_append, ih hlt.2 hnone.2, partitionsOf, if_neg hused.1,
      if_neg fun htype => hprimary ⟨hused.1, htype⟩, List.map_singleton,
      extent_pushed hlt.1.1 hlt.1.2 hused.1]
    rfl
  | extended hextended _ _ _ =>
    rw [List.forall_mem_cons] at hnone
    exact absurd hextended hnone.1

theorem ExtendedChain.length_pos {base start : ℕ} {logicals : List Extent}
    (h : ExtendedChain device base start logicals) : 0 < logicals.length := by
  cases h <;> exact Nat.succ_pos _

/-- From an extended partition within the first 4 GiB a partition is lost, if `ParseEBR` returns. -/
theorem length_logicals_lt {entry : MBREntry} {n : ℕ} {extents : List Extent}
    (hends : EndsAfter device entry n) (hlt : entry.firstSector < 2 ^ 23)
    (hchain : ExtendedChain device entry.firstSector entry.firstSector extents) :
    (logicals device (firstRecord entry) n).length < extents.length := by
  have hfirst : firstRecord entry = (entry.firstSector * 512, entry.firstSector) := by
    rw [firstRecord, Nat.mod_eq_of_lt (by omega)]
  rw [EndsAfter, hfirst] at hends
  rw [length_logicals]
  cases hchain with
  | last hread _ hnext =>
    -- the empty entry leads to the record it is in
    subst hread
    have hfixed : next device (entry.firstSector * 512, entry.firstSector) =
        (entry.firstSector * 512, entry.firstSector) := by
      have hstart : offset entry.firstSector 0 = entry.firstSector :=
        offset_of_lt (by rw [wordCount]; omega)
      rw [next, hnext.2.1]
      simp only [hstart]
      rw [Nat.mod_eq_of_lt (by rw [wordCount]; omega)]
    refine absurd ?_ (hends.not_mem_of_fixed hfixed)
    rw [GoesOn, hnext.1]
    decide
  | link hread _ hnext hrest =>
    subst hread
    have hstops : Links (GoesOn device) (next device)
        (entry.firstSector * 512, entry.firstSector) 0 :=
      Links.zero_iff.mpr fun hgoes => hgoes hnext.2
    rw [hends.unique hstops, List.length_cons]
    exact Nat.succ_lt_succ hrest.length_pos

theorem length_add_countP_le {n : MBREntry → ℕ} {entries : List MBREntry}
    {partitions : List Extent} (hdescribes : Describes device entries partitions)
    (hends : ∀ e ∈ entries, e.IsExtended → EndsAfter device e (n e))
    (hlt : ∀ e ∈ entries, e.IsExtended → e.firstSector < 2 ^ 23) :
    (entries.flatMap fun e => partitionsOf device (n e) e).length +
      entries.countP MBREntry.IsExtended ≤ partitions.length := by
  induction hdescribes with
  | nil => exact le_rfl
  | unused hunused _ ih =>
    rw [List.forall_mem_cons] at hends hlt
    have hrest := ih hends.2 hlt.2
    rw [List.flatMap_cons, List.countP_cons_of_neg, partitionsOf, if_pos hunused]
    · exact hrest
    · exact fun h => (of_decide_eq_true h).1 hunused
  | primary hused hprimary _ ih =>
    rw [List.forall_mem_cons] at hends hlt
    have hrest := ih hends.2 hlt.2
    rw [List.flatMap_cons, List.length_append, List.countP_cons_of_neg, partitionsOf,
      if_neg hused.1, if_neg fun htype => hprimary ⟨hused.1, htype⟩, List.length_singleton,
      List.length_cons]
    · omega
    · exact fun h => hprimary (of_decide_eq_true h)
  | @extended entry _ _ _ hextended hchain _ ih =>
    rw [List.forall_mem_cons] at hends hlt
    have hrest := ih hends.2 hlt.2
    have hfirst := length_logicals_lt (hends.1 hextended) (hlt.1 hextended) hchain
    rw [List.flatMap_cons, List.length_append, List.countP_cons_of_pos, partitionsOf,
      if_neg hextended.1, if_pos hextended.2, List.length_append]
    · omega
    · exact decide_eq_true hextended

theorem lt_of_mem_mbrEntries {entry : MBREntry} (h : entry ∈ mbrEntries device) :
    entry.firstSector < 2 ^ 32 ∧ entry.sectorCount < 2 ^ 32 := by
  obtain ⟨i, -, rfl⟩ := List.mem_map.mp h
  exact ⟨readLE_lt device _ 4, readLE_lt device _ 4⟩

theorem exists_of_parsesWell (h : ParsesWell device) :
    ∃ n : MBREntry → ℕ, (∀ e ∈ mbrEntries device, e.IsExtended → EndsAfter device e (n e)) ∧
      ∀ partitions, Describes device (mbrEntries device) partitions →
        (((mbrEntries device).flatMap fun e => partitionsOf device (n e) e).map
          Entry.extent).Perm partitions := by
  obtain ⟨fuel, entries, hrun, hperm⟩ := h
  -- the length of each chain that has one
  have hlength : ∀ e : MBREntry, ∃ k, ∀ m, EndsAfter device e m → k = m := by
    intro e
    by_cases hends : ∃ k, EndsAfter device e k
    · obtain ⟨k, hk⟩ := hends
      exact ⟨k, fun m hm => hk.unique hm⟩
    · exact ⟨0, fun m hm => absurd ⟨m, hm⟩ hends⟩
  choose n hn using hlength
  obtain ⟨hends, rfl⟩ := exists_of_parseEntries hn hrun
  exact ⟨n, hends, hperm⟩

/-- Of a disk in good order something is lost, or `ParseMBR` does not return, if it has extended
partitions and they all begin within the first 4 GiB. -/
theorem ParsesWell.exists_far {partitions : List Extent} (h : ParsesWell device)
    (hdescribes : Describes device (mbrEntries device) partitions)
    (hextended : ∃ e ∈ mbrEntries device, e.IsExtended) :
    ∃ e ∈ mbrEntries device, e.IsExtended ∧ 2 ^ 23 ≤ e.firstSector := by
  obtain ⟨n, hends, hfound⟩ := exists_of_parsesWell h
  have hlength := (hfound partitions hdescribes).length_eq
  by_contra hnear
  have hcount := length_add_countP_le hdescribes hends fun e he hextended =>
    Nat.lt_of_not_le fun hle => hnear ⟨e, he, hextended, hle⟩
  rw [← hlength, List.length_map] at hcount
  have hpos : 0 < (mbrEntries device).countP MBREntry.IsExtended := by
    apply List.countP_pos_iff.mpr
    obtain ⟨e, he, hextended⟩ := hextended
    exact ⟨e, he, decide_eq_true hextended⟩
  omega

/-- **When the partitions of a disk are found.** The links from every extended partition have to
come to an end, at a second entry that is again of type 5. Then a disk in good order must have no
extended partition, unless one begins past the first 4 GiB, so that the record is read from
elsewhere, and the records that are read instead hold the same partitions. -/
theorem parsesWell_iff (device : ℕ → UInt8) :
    ParsesWell device ↔
      ∃ n : MBREntry → ℕ, (∀ e ∈ mbrEntries device, e.IsExtended → EndsAfter device e (n e)) ∧
        ∀ partitions, Describes device (mbrEntries device) partitions →
          (∀ e ∈ mbrEntries device, ¬ e.IsExtended) ∨
            (∃ e ∈ mbrEntries device, e.IsExtended ∧ 2 ^ 23 ≤ e.firstSector) ∧
              (((mbrEntries device).flatMap fun e => partitionsOf device (n e) e).map
                Entry.extent).Perm partitions := by
  constructor
  · intro h
    obtain ⟨n, hends, hfound⟩ := exists_of_parsesWell h
    refine ⟨n, hends, fun partitions hdescribes => ?_⟩
    by_cases hextended : ∃ e ∈ mbrEntries device, e.IsExtended
    · exact Or.inr ⟨h.exists_far hdescribes hextended, hfound partitions hdescribes⟩
    · exact Or.inl fun e he h => hextended ⟨e, he, h⟩
  · rintro ⟨n, hends, hfound⟩
    have hfuel : ∀ e ∈ mbrEntries device, n e < ((mbrEntries device).map n).sum + 1 :=
      fun e he => Nat.lt_succ_of_le (List.le_sum_of_mem (List.mem_map_of_mem he))
    refine ⟨_, _, parseEntries_eq_some hfuel hends, fun partitions hdescribes => ?_⟩
    rcases hfound partitions hdescribes with hnone | ⟨-, hperm⟩
    · rw [extents_eq hdescribes (fun e he => lt_of_mem_mbrEntries he) hnone]
    · exact hperm

/-- A disk with an extended partition from sector 1 on, and in it two logical ones of one sector. -/
def twoLogicals : ℕ → UInt8 := fun i =>
  if i = 450 ∨ i = 978 then 0x05
  else if i = 962 ∨ i = 1986 then 0x83
  else if i = 454 ∨ i = 966 ∨ i = 970 ∨ i = 1990 ∨ i = 1994 then 1
  else if i = 982 ∨ i = 986 then 2
  else if i = 458 then 4
  else 0

theorem not_parsesWell_twoLogicals : ¬ ParsesWell twoLogicals := by
  have hentries : mbrEntries twoLogicals =
      [⟨0, 0x05, 1, 4⟩, ⟨0, 0, 0, 0⟩, ⟨0, 0, 0, 0⟩, ⟨0, 0, 0, 0⟩] := by decide
  have hsecond : ExtendedChain twoLogicals 1 3 [(4, 4)] :=
    ExtendedChain.last rfl (by decide) (by decide)
  have hchain : ExtendedChain twoLogicals 1 1 [(2, 2), (4, 4)] :=
    ExtendedChain.link rfl (by decide) (by decide) hsecond
  have hdescribes : Describes twoLogicals (mbrEntries twoLogicals) [(2, 2), (4, 4)] := by
    rw [hentries, ← List.append_nil [(2, 2), (4, 4)]]
    apply Describes.extended ⟨Nat.one_ne_zero, rfl⟩ hchain
    exact Describes.unused rfl (Describes.unused rfl (Describes.unused rfl Describes.nil))
  have hnear : ∀ e ∈ mbrEntries twoLogicals, e.firstSector < 2 ^ 23 := by decide
  intro h
  obtain ⟨e, he, -, hfar⟩ := h.exists_far hdescribes (by decide)
  exact Nat.not_lt_of_le hfar (hnear e he)

end PartitionTable

end Cryptix.Drivers
