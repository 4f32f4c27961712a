import Cryptix.Lib.Tiling
import Cryptix.Firmware.ACPI

/-!
# The multiple APIC description table

`Kernel/Firmware/ACPI/MADT.cpp`: the entries of the table are gone through one after the other, and
what is known of four types is copied.

The loop goes on while the unsigned difference of the size of the body and the offset is two or
more. Behind the end of the body the difference is below zero, which is more than two, so that the
loop is to come to the end of the body as it is, or to one byte before it. How many bytes are copied
depends on the type of an entry and not on its length. What this asks of a table is
`initializes_iff`.
-/

namespace Cryptix.MADT

open ACPI KLibC

/-- `sizeof(MADT)`. -/
def madtSize : ℕ := 44

/-- `MADT_SIGNATURE`. -/
def madtSignature : CString := ⟨[0x41, 0x50, 0x49, 0x43], StaticTables.no_nul_apic⟩

/-- `EntryType`, as far as entries are collected. -/
inductive EntryType
  | eProcessorLapic | eIoApic | eInterruptSourceOverride | eLapicNmi
  deriving DecidableEq, Repr

/-- The type of an entry with an ID. -/
def EntryType.ofID : UInt8 → Option EntryType
  | 0x00 => some .eProcessorLapic
  | 0x01 => some .eIoApic
  | 0x02 => some .eInterruptSourceOverride
  | 0x04 => some .eLapicNmi
  | _ => none

/-! ## The entries -/

structure Header where
  id : UInt8
  length : UInt8
  deriving DecidableEq, Repr

structure LapicEntry where
  header : Header
  processorID : UInt8
  apicID : UInt8
  flags : ℕ
  deriving DecidableEq, Repr

structure IoApicEntry where
  header : Header
  apicID : UInt8
  reserved : UInt8
  address : ℕ
  gsiBase : ℕ
  deriving DecidableEq, Repr

structure IsoEntry where
  header : Header
  busSource : UInt8
  irqSource : UInt8
  gsi : ℕ
  flags : ℕ
  deriving DecidableEq, Repr

structure LapicNmiEntry where
  header : Header
  processor : UInt8
  flags : ℕ
  lint : UInt8
  deriving DecidableEq, Repr

/-- The size of the structure of a type. -/
def EntryType.size : EntryType → ℕ
  | .eProcessorLapic => 8
  | .eIoApic => 12
  | .eInterruptSourceOverride => 10
  | .eLapicNmi => 6

section Copy

variable (m : ℕ → UInt8) (a : ℕ)

def Header.copy : Header := ⟨m a, m (a + 1)⟩

def LapicEntry.copy : LapicEntry := ⟨.copy m a, m (a + 2), m (a + 3), Lib.readLE m (a + 4) 4⟩

def IoApicEntry.copy : IoApicEntry :=
  ⟨.copy m a, m (a + 2), m (a + 3), Lib.readLE m (a + 4) 4, Lib.readLE m (a + 8) 4⟩

def IsoEntry.copy : IsoEntry :=
  ⟨.copy m a, m (a + 2), m (a + 3), Lib.readLE m (a + 4) 4, Lib.readLE m (a + 8) 2⟩

def LapicNmiEntry.copy : LapicNmiEntry :=
  ⟨.copy m a, m (a + 2), Lib.readLE m (a + 3) 2, m (a + 5)⟩

end Copy

/-- `s_LapicEntries`, `s_IoApicEntries`, `s_IsoEntries` and `s_LapicNmiEntries`. -/
structure Entries where
  lapicEntries : List LapicEntry
  ioApicEntries : List IoApicEntry
  isoEntries : List IsoEntry
  lapicNmiEntries : List LapicNmiEntry
  deriving DecidableEq, Repr

/-- The `switch` over the type of the entry at an address. -/
def Entries.emplaceBack (e : Entries) (m : ℕ → UInt8) (a : ℕ) : Option EntryType → Entries
  | some .eProcessorLapic => { e with lapicEntries := e.lapicEntries ++ [.copy m a] }
  | some .eIoApic => { e with ioApicEntries := e.ioApicEntries ++ [.copy m a] }
  | some .eInterruptSourceOverride => { e with isoEntries := e.isoEntries ++ [.copy m a] }
  | some .eLapicNmi => { e with lapicNmiEntries := e.lapicNmiEntries ++ [.copy m a] }
  | none => e

/-! ## The loop -/

/-- Bytes of the table that are read. -/
structure Read where
  address : ℕ
  size : ℕ
  deriving DecidableEq, Repr

structure State where
  off : ℕ
  entries : Entries
  reads : List Read
  deriving DecidableEq, Repr

section Loop

variable (toHigherHalf : ℕ → ℕ) (t : StaticTables) (target : Target) (madt : ℕ)

/-- `s_MADT->Header.Length` is read for the condition of the loop. -/
def State.checkLength (s : State) : State := { s with reads := s.reads ++ [⟨madt + 4, 4⟩] }

/-- A turn of the loop. -/
def turn (s : State) : State :=
  let header := toHigherHalf (madt + madtSize + s.off)
  let type := EntryType.ofID (t.memory header)
  { off := offset s.off (max (t.memory (header + 1)).toNat 2)
    entries := s.entries.emplaceBack t.memory header type
    reads := (s.checkLength madt).reads ++
      ⟨header, 2⟩ :: (type.map fun type => ⟨header, type.size⟩).toList }

/-- The loop, for a number of turns at most. -/
def loop : ℕ → State → Option State
  | 0, _ => none
  | turns + 1, s =>
    if 2 ≤ wordSub (wordSub (t.length madt) madtSize) s.off then
      loop turns (turn toHigherHalf t madt s)
    else some (s.checkLength madt)

/-- `MADT::Initialize`, for a number of turns at most. -/
def madtInitialize (turns : ℕ) : Option (Except Failure State) :=
  match t.getTable toHigherHalf target madtSignature 0 with
  | none => some (.error .assertion)
  | some madt => (loop toHigherHalf t madt turns ⟨0, ⟨[], [], [], []⟩, []⟩).map .ok

/-! ## What is to be collected -/

/-- The number of bytes that the entries have. -/
def bodySize : ℕ := t.length madt - madtSize

/-- The address of the entry at an offset. -/
def entryAt (off : ℕ) : ℕ := madt + madtSize + off

/-- The type of the entry at an offset. -/
def typeAt (off : ℕ) : Option EntryType :=
  EntryType.ofID (t.memory (entryAt madt off))

/-- The length of the entry at an offset. -/
def lengthAt (off : ℕ) : ℕ := (t.memory (entryAt madt off + 1)).toNat

/-- The entries of a type, by their addresses. -/
def ofType (type : EntryType) (offsets : List ℕ) : List ℕ :=
  (offsets.filter fun off => typeAt t madt off = some type).map (entryAt madt)

/-- The entries at the given offsets. -/
def collected (offsets : List ℕ) : Entries where
  lapicEntries := (ofType t madt .eProcessorLapic offsets).map (.copy t.memory)
  ioApicEntries := (ofType t madt .eIoApic offsets).map (.copy t.memory)
  isoEntries := (ofType t madt .eInterruptSourceOverride offsets).map (.copy t.memory)
  lapicNmiEntries := (ofType t madt .eLapicNmi offsets).map (.copy t.memory)

/-- The bytes of a read are in the table. -/
def InTable (r : Read) : Prop :=
  madt ≤ r.address ∧ r.address + r.size ≤ madt + t.length madt

/-- What is promised of the state behind the loop. -/
structure Initialized (s : State) : Prop where
  inside : ∀ r ∈ s.reads, InTable t madt r
  collects : ∀ offsets, Lib.Tiles (fun off => off) (lengthAt t madt)
    (fun off _ => 2 ≤ lengthAt t madt off) 0 (bodySize t madt) offsets →
    s.entries = collected t madt offsets

/-- The initialisation comes to an end, and keeps what is promised. -/
def Initializes : Prop :=
  ∃ turns s, madtInitialize toHigherHalf t target turns = some (.ok s) ∧ Initialized t madt s

/-! ## What is collected -/

/-- The offset behind the entry at an offset is so much further. -/
def advanceAt (off : ℕ) : ℕ := max (lengthAt t madt off) 2

/-- The number of bytes that are copied from the entry at an offset. -/
def copySize (off : ℕ) : ℕ := ((typeAt t madt off).map EntryType.size).getD 0

/-- The entries end with the body, or one byte before it, and what is copied of them lies in it. -/
def Fits : Prop :=
  ∃ stop offsets, stop ≤ bodySize t madt ∧ bodySize t madt < stop + 2 ∧
    Lib.Tiles (fun off => off) (advanceAt t madt)
      (fun off _ => off + copySize t madt off ≤ bodySize t madt) 0 stop offsets

end Loop

section Proofs

variable {toHigherHalf : ℕ → ℕ} {t : StaticTables} {target : Target} {madt off : ℕ} {s s' : State}

theorem bodySize_lt (t : StaticTables) (madt : ℕ) : bodySize t madt < 2 ^ 32 :=
  Nat.lt_of_le_of_lt (Nat.sub_le _ _) (Lib.readLE_lt _ _ 4)

theorem advanceAt_lt (t : StaticTables) (madt off : ℕ) : advanceAt t madt off < 256 :=
  Nat.max_lt.mpr ⟨UInt8.toNat_lt _, by decide⟩

theorem two_le_advanceAt (t : StaticTables) (madt off : ℕ) : 2 ≤ advanceAt t madt off :=
  Nat.le_max_right _ _

/-- The loop goes on in front of the last byte of the body, and behind the body. -/
theorem goes_on_iff (hlength : madtSize ≤ t.length madt) (hoff : off < 2 ^ 33) :
    2 ≤ wordSub (wordSub (t.length madt) madtSize) off ↔
      off + 2 ≤ bodySize t madt ∨ bodySize t madt < off := by
  have hbody := bodySize_lt t madt
  have hlt : t.length madt < 2 ^ 32 := Lib.readLE_lt _ _ 4
  have hword : wordCount = 2 ^ 64 := rfl
  rw [wordSub_of_le (by omega) hlength, ← bodySize]
  rcases Nat.lt_or_ge (bodySize t madt) off with hbehind | hle
  · rw [wordSub, Nat.mod_eq_of_lt (show off < wordCount by omega), Nat.mod_eq_of_lt (by omega)]
    omega
  · rw [wordSub_of_le (by omega) hle]
    omega

section Turn

variable (hself : ∀ o, toHigherHalf (madt + madtSize + o) = madt + madtSize + o)

include hself

theorem turn_off (hoff : s.off < 2 ^ 33) :
    (turn toHigherHalf t madt s).off = s.off + advanceAt t madt s.off := by
  have hadvance := advanceAt_lt t madt s.off
  have hword : wordCount = 2 ^ 64 := rfl
  have heq : (turn toHigherHalf t madt s).off = offset s.off (advanceAt t madt s.off) := by
    simp only [turn, hself]
    rfl
  rw [heq, offset_of_lt (by omega)]

theorem turn_entries : (turn toHigherHalf t madt s).entries =
    s.entries.emplaceBack t.memory (entryAt madt s.off) (typeAt t madt s.off) := by
  simp only [turn, hself]
  rfl

theorem mem_reads_turn {r : Read} : r ∈ (turn toHigherHalf t madt s).reads ↔
    r ∈ (s.checkLength madt).reads ∨ r = ⟨entryAt madt s.off, 2⟩ ∨
      ∃ type, typeAt t madt s.off = some type ∧ r = ⟨entryAt madt s.off, type.size⟩ := by
  simp only [turn, hself, List.mem_append, List.mem_cons, Option.mem_toList, Option.map_eq_some_iff]
  refine or_congr_right (or_congr_right (exists_congr fun type => and_congr_right fun _ => ?_))
  exact eq_comm

end Turn

/-- What has been read stays read. -/
theorem reads_of_loop {turns : ℕ} (h : loop toHigherHalf t madt turns s = some s') {r : Read}
    (hr : r ∈ s.reads) : r ∈ s'.reads := by
  induction turns generalizing s with
  | zero => cases h
  | succ turns ih =>
    have hread : r ∈ (s.checkLength madt).reads := List.mem_append_left _ hr
    rw [loop] at h
    split at h
    · exact ih h (List.mem_append_left _ hread)
    · obtain rfl := Option.some.inj h
      exact hread

theorem foldl_emplaceBack (t : StaticTables) (madt : ℕ) (offsets : List ℕ) (e : Entries) :
    offsets.foldl (fun e off => e.emplaceBack t.memory (entryAt madt off) (typeAt t madt off)) e =
      ⟨e.lapicEntries ++ (collected t madt offsets).lapicEntries,
        e.ioApicEntries ++ (collected t madt offsets).ioApicEntries,
        e.isoEntries ++ (collected t madt offsets).isoEntries,
        e.lapicNmiEntries ++ (collected t madt offsets).lapicNmiEntries⟩ := by
  induction offsets generalizing e with
  | nil => simp [collected, ofType]
  | cons off offsets ih =>
    rw [List.foldl_cons, ih]
    cases htype : typeAt t madt off with
    | none => simp [collected, ofType, htype, Entries.emplaceBack]
    | some type => cases type <;> simp [collected, ofType, htype, Entries.emplaceBack]

theorem copySize_eq {type : EntryType} (h : typeAt t madt off = some type) :
    copySize t madt off = type.size := by
  rw [copySize, h]
  rfl

theorem inTable_entryAt_iff (hlength : madtSize ≤ t.length madt) {size : ℕ} :
    InTable t madt ⟨entryAt madt off, size⟩ ↔ off + size ≤ bodySize t madt := by
  simp only [InTable, entryAt, bodySize]
  omega

theorem inTable_length (hlength : madtSize ≤ t.length madt) : InTable t madt ⟨madt + 4, 4⟩ := by
  have hsize : madtSize = 44 := rfl
  simp only [InTable]
  omega

section Run

variable (hself : ∀ o, toHigherHalf (madt + madtSize + o) = madt + madtSize + o)
  (hlength : madtSize ≤ t.length madt)

include hlength in
theorem reads_checkLength_iff : (∀ r ∈ (s.checkLength madt).reads, InTable t madt r) ↔
    ∀ r ∈ s.reads, InTable t madt r := by
  simp only [State.checkLength, List.mem_append, List.mem_singleton]
  refine ⟨fun h r hr => h r (.inl hr), fun h r hr => ?_⟩
  rcases hr with hr | rfl
  · exact h r hr
  · exact inTable_length hlength

include hself hlength

/-- What a turn reads is in the table, if the header of the entry is and what is copied of it. -/
theorem reads_turn_iff : (∀ r ∈ (turn toHigherHalf t madt s).reads, InTable t madt r) ↔
    (∀ r ∈ s.reads, InTable t madt r) ∧ s.off + 2 ≤ bodySize t madt ∧
      s.off + copySize t madt s.off ≤ bodySize t madt := by
  rw [← reads_checkLength_iff (s := s) hlength]
  simp only [mem_reads_turn hself]
  constructor
  · intro h
    have hheader := (inTable_entryAt_iff hlength).mp (h _ (.inr (.inl rfl)))
    refine ⟨fun r hr => h r (.inl hr), hheader, ?_⟩
    rcases htype : typeAt t madt s.off with _ | type
    · rw [copySize, htype]
      exact Nat.le_trans (Nat.le_add_right _ 2) hheader
    · rw [copySize_eq htype]
      exact (inTable_entryAt_iff hlength).mp (h _ (.inr (.inr ⟨type, htype, rfl⟩)))
  · rintro ⟨hreads, hheader, hcopy⟩ r (hr | rfl | ⟨type, htype, rfl⟩)
    · exact hreads r hr
    · exact (inTable_entryAt_iff hlength).mpr hheader
    · rw [copySize_eq htype] at hcopy
      exact (inTable_entryAt_iff hlength).mpr hcopy

/-- The loop goes through entries that end with the body. -/
theorem loop_of_tiles {stop : ℕ} {offsets : List ℕ}
    (h : Lib.Tiles (fun off => off) (advanceAt t madt)
      (fun off _ => off + copySize t madt off ≤ bodySize t madt) off stop offsets)
    (hstop : stop ≤ bodySize t madt) (hend : bodySize t madt < stop + 2)
    (hoff : s.off = off) (hreads : ∀ r ∈ s.reads, InTable t madt r) :
    ∃ s', loop toHigherHalf t madt (offsets.length + 1) s = some s' ∧
      s'.entries = offsets.foldl (fun e off =>
        e.emplaceBack t.memory (entryAt madt off) (typeAt t madt off)) s.entries ∧
      ∀ r ∈ s'.reads, InTable t madt r := by
  have hbody := bodySize_lt t madt
  induction h generalizing s with
  | nil =>
    refine ⟨s.checkLength madt, ?_, rfl, (reads_checkLength_iff hlength).mpr hreads⟩
    rw [List.length_nil, loop, if_neg]
    rw [hoff, goes_on_iff hlength (by omega)]
    omega
  | cons hpos hcopy hrest ih =>
    rename_i off stop rest
    have hle := hrest.le
    have htwo := two_le_advanceAt t madt off
    subst hoff
    have hnext : (turn toHigherHalf t madt s).off = s.off + advanceAt t madt s.off :=
      turn_off hself (by omega)
    have hnextReads : ∀ r ∈ (turn toHigherHalf t madt s).reads, InTable t madt r :=
      (reads_turn_iff hself hlength).mpr ⟨hreads, by omega, hcopy⟩
    obtain ⟨s', hloop, hentries, hs'⟩ := ih hstop hend hnext hnextReads
    refine ⟨s', ?_, ?_, hs'⟩
    · rw [List.length_cons, loop, if_pos, hloop]
      rw [goes_on_iff hlength (by omega)]
      exact .inl (by omega)
    · rw [hentries, turn_entries hself, List.foldl_cons]

/-- A turn that reads in the table goes to an entry in the body, or to its end. -/
theorem fits_of_loop {turns : ℕ} (hloop : loop toHigherHalf t madt turns s = some s')
    (hreads : ∀ r ∈ s'.reads, InTable t madt r) (hoff : s.off + 2 ≤ bodySize t madt) :
    s.off + copySize t madt s.off ≤ bodySize t madt ∧
      s.off + advanceAt t madt s.off ≤ bodySize t madt ∧
      ∃ turns' < turns, loop toHigherHalf t madt turns'
        (turn toHigherHalf t madt s) = some s' := by
  have hbody := bodySize_lt t madt
  have hadvance := advanceAt_lt t madt s.off
  cases turns with
  | zero => cases hloop
  | succ turns =>
    rw [loop, if_pos ((goes_on_iff hlength (by omega)).mpr (.inl hoff))] at hloop
    have hturn := (reads_turn_iff hself hlength).mp fun r hr => hreads r (reads_of_loop hloop hr)
    refine ⟨hturn.2.2, Nat.le_of_not_lt fun hbehind => ?_, turns, Nat.lt_succ_self turns, hloop⟩
    -- behind the body, the loop goes on, and reads there
    have hnext : (turn toHigherHalf t madt s).off = s.off + advanceAt t madt s.off :=
      turn_off hself (by omega)
    cases turns with
    | zero => cases hloop
    | succ turns =>
      rw [loop, if_pos] at hloop
      · have hinside := ((reads_turn_iff hself hlength).mp
          fun r hr => hreads r (reads_of_loop hloop hr)).2.1
        omega
      · rw [hnext, goes_on_iff hlength (by omega)]
        exact .inr hbehind

end Run

theorem madtInitialize_eq_some_iff {turns : ℕ}
    (hmadt : t.getTable toHigherHalf target madtSignature 0 = some madt) :
    madtInitialize toHigherHalf t target turns = some (.ok s) ↔
      loop toHigherHalf t madt turns ⟨0, ⟨[], [], [], []⟩, []⟩ = some s := by
  rw [madtInitialize, hmadt, Option.map_eq_some_iff]
  simp only [Except.ok.injEq, exists_eq_right]

/-- Entries that tile the body are what the loop goes through. -/
theorem eq_of_tiles {stop : ℕ} {offsets offsets' : List ℕ}
    (h : Lib.Tiles (fun off => off) (advanceAt t madt)
      (fun off _ => off + copySize t madt off ≤ bodySize t madt) 0 stop offsets)
    (hstop : stop ≤ bodySize t madt) (hend : bodySize t madt < stop + 2)
    (h' : Lib.Tiles (fun off => off) (lengthAt t madt) (fun off _ => 2 ≤ lengthAt t madt off) 0
      (bodySize t madt) offsets') : offsets' = offsets := by
  have hadvance : Lib.Tiles (fun off => off) (advanceAt t madt)
      (fun off _ => 2 ≤ lengthAt t madt off) 0 (bodySize t madt) offsets' :=
    h'.congr_width fun off hoff => Nat.max_eq_left hoff
  have htiles : Lib.Tiles (fun off => off) (advanceAt t madt) (fun _ _ => True) 0 stop offsets :=
    h.imp fun _ _ => trivial
  obtain ⟨rest, rfl, hrest⟩ := htiles.exists_append (hadvance.imp fun _ _ => trivial) hstop
  -- there is no room for a further entry
  cases rest with
  | nil => exact List.append_nil offsets
  | cons off rest =>
    obtain ⟨rfl, -, -, hlast⟩ := Lib.Tiles.cons_iff.mp hrest
    have hle := hlast.le
    have htwo := two_le_advanceAt t madt stop
    omega

/-- **When the table is read well.** The entries come to the end of the body, or to the last byte of
it, and each structure that is copied is in the body. -/
theorem initializes_iff (hhigher : ∀ a b, toHigherHalf a ≤ b → toHigherHalf b = b)
    (hmadt : t.getTable toHigherHalf target madtSignature 0 = some madt)
    (hlength : madtSize ≤ t.length madt) :
    Initializes toHigherHalf t target madt ↔ Fits t madt := by
  obtain ⟨i, hi⟩ := StaticTables.entry_of_getTable hmadt
  have hself : ∀ o, toHigherHalf (madt + madtSize + o) = madt + madtSize + o := by
    intro o
    refine hhigher _ _ (Nat.le_trans (Nat.le_of_eq hi) ?_)
    omega
  constructor
  · rintro ⟨turns, s', hturns, h⟩
    rw [madtInitialize_eq_some_iff hmadt] at hturns
    have hruns : ∃ stop offsets, bodySize t madt - 1 ≤ stop ∧
        Lib.Tiles (fun off => off) (advanceAt t madt)
          (fun off _ => off + copySize t madt off ≤ bodySize t madt ∧
            off + advanceAt t madt off ≤ bodySize t madt) 0 stop offsets := by
      refine Lib.Tiles.exists_of_runs (fun turns off => ∃ s, s.off = off ∧
        loop toHigherHalf t madt turns s = some s') ?_ ⟨_, rfl, hturns⟩
      rintro turns off ⟨s, rfl, hloop⟩ hoff
      have hbody := bodySize_lt t madt
      obtain ⟨hcopy, hadvance, turns', hlt, hnext⟩ :=
        fits_of_loop hself hlength hloop h.inside (by omega)
      exact ⟨⟨hcopy, hadvance⟩, turns', hlt, _, turn_off hself (by omega), hnext⟩
    obtain ⟨stop, offsets, hlimit, htiles⟩ := hruns
    refine ⟨stop, offsets, ?_, by omega, htiles.imp fun o ho => ho.1⟩
    exact htiles.stop_le (Nat.zero_le _) fun o ho => ho.2
  · rintro ⟨stop, offsets, hstop, hend, htiles⟩
    obtain ⟨s', hloop, hentries, hinside⟩ := loop_of_tiles hself hlength htiles hstop hend
      (s := ⟨0, ⟨[], [], [], []⟩, []⟩) rfl fun r hr => absurd hr List.not_mem_nil
    refine ⟨offsets.length + 1, s', (madtInitialize_eq_some_iff hmadt).mpr hloop, hinside, ?_⟩
    intro offsets' htiles'
    rw [hentries, foldl_emplaceBack, eq_of_tiles htiles hstop hend htiles']
    rfl

/-- An XSDT with one entry, and behind it a table named `APIC` that has the given entries. -/
def oneMadt (checksum : UInt8) (entries : List UInt8) : StaticTables where
  memory p := ([0x58, 0x53, 0x44, 0x54, 44] ++ List.replicate 31 0 ++ [44, 1, 0, 0, 0, 0, 0, 0] ++
    [0x41, 0x50, 0x49, 0x43, 44 + UInt8.ofNat entries.length, 0, 0, 0, 1, checksum] ++
    List.replicate 34 0 ++ entries).getD (p - 256) 0
  rsdt := 256
  xsdtAvailable := true

set_option maxRecDepth 1000 in
/-- A local APIC, an entry of an unknown type that is one byte long, and a further byte. -/
theorem initializes_oneMadt :
    (∀ a b, (if a < 256 then a + 256 else a) ≤ b → (if b < 256 then b + 256 else b) = b) ∧
    (oneMadt 0x1a [0, 8, 0, 7, 1, 0, 0, 0, 0x80, 1, 0]).getTable
      (fun a => if a < 256 then a + 256 else a) .x86_64 madtSignature 0 = some 300 ∧
    madtSize ≤ (oneMadt 0x1a [0, 8, 0, 7, 1, 0, 0, 0, 0x80, 1, 0]).length 300 ∧
    Initializes (fun a => if a < 256 then a + 256 else a)
      (oneMadt 0x1a [0, 8, 0, 7, 1, 0, 0, 0, 0x80, 1, 0]) .x86_64 300 := by
  have hhigher : ∀ a b, (if a < 256 then a + 256 else a) ≤ b →
      (if b < 256 then b + 256 else b) = b := by
    intro a b hab
    rw [if_neg]
    split at hab <;> omega
  have hmadt : (oneMadt 0x1a [0, 8, 0, 7, 1, 0, 0, 0, 0x80, 1, 0]).getTable
      (fun a => if a < 256 then a + 256 else a) .x86_64 madtSignature 0 = some 300 := by decide
  refine ⟨hhigher, hmadt, by decide, (initializes_iff hhigher hmadt (by decide)).mpr ?_⟩
  refine ⟨10, [0, 8], by decide, by decide, ?_⟩
  exact .cons (by decide) (by decide) (.cons (by decide) (by decide) (.nil 10))

set_option maxRecDepth 1000 in
/-- The last entry reaches one byte past the end of the table, and the loop goes on behind it. -/
theorem not_initializes_oneMadt : ¬Initializes id (oneMadt 0xae [3, 3]) .x86_64 300 := by
  rintro ⟨turns, s, hturns, h⟩
  have hmadt : (oneMadt 0xae [3, 3]).getTable id .x86_64 madtSignature 0 = some 300 := by decide
  rw [madtInitialize_eq_some_iff hmadt] at hturns
  have hfits := (fits_of_loop (fun _ => rfl) (by decide) hturns h.inside (by decide)).2.1
  exact absurd hfits (by decide)

end Proofs

end Cryptix.MADT
