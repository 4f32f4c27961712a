import Cryptix.Memory.BitmapAllocator
import Cryptix.VFS.Ext2FsTraversal

/-!
# Scans of a corrupt ext2 directory

The loops over the records of a directory in `Kernel/VFS/Ext2Fs`: that of `Populate`, that of
`TraverseDirectories`, and the one of `AddDirectoryEntry` that looks for room. They check nothing of
what they read. A record of size 0 is read again and again, the name of one at the end of the buffer
is read behind it, and `TraverseDirectories`, which takes the name for a string, reads on to the
next NUL.

The three end, and read inside of the buffer, exactly when records tile the buffer, and each of them
has its name and a NUL behind the start of it in the buffer (`scans_end_iff`).
-/

namespace Cryptix.VFS

open Lib

namespace Ext2FsDirectoryEntry

/-- What `Populate` reads of a record: the name that it has by `NameSize`, the header up to there,
and the type of an entry that is live. -/
structure Populates (size offset : ℕ) (entry : Ext2FsDirectoryEntry) : Prop where
  header : offset + 7 ≤ size
  name : 0 < entry.nameSize.toNat → offset + 8 + entry.nameSize.toNat ≤ size
  type : entry.inodeIndex ≠ 0 → offset + 8 ≤ size

instance (size offset : ℕ) (entry : Ext2FsDirectoryEntry) :
    Decidable (entry.Populates size offset) :=
  decidable_of_iff (offset + 7 ≤ size ∧
      (0 < entry.nameSize.toNat → offset + 8 + entry.nameSize.toNat ≤ size) ∧
      (entry.inodeIndex ≠ 0 → offset + 8 ≤ size))
    ⟨fun h => ⟨h.1, h.2.1, h.2.2⟩, fun h => ⟨h.header, h.name, h.type⟩⟩

/-- What `TraverseDirectories` reads of a record at an offset: the name, as a string, which is
behind the header. -/
def EndsString (buffer : ℕ → UInt8) (size offset : ℕ) : Prop :=
  ∃ position < size, offset + 8 ≤ position ∧ buffer position = 0

instance (buffer : ℕ → UInt8) (size : ℕ) : DecidablePred (EndsString buffer size) := fun offset =>
  inferInstanceAs (Decidable (∃ position < size, offset + 8 ≤ position ∧ buffer position = 0))

theorem EndsString.lt {buffer : ℕ → UInt8} {size offset : ℕ} (h : EndsString buffer size offset) :
    offset < size := by
  obtain ⟨position, hlt, hle, -⟩ := h
  omega

/-- A record whose name is in the buffer, whichever way it is read. -/
structure Readable (buffer : ℕ → UInt8) (size offset : ℕ) (entry : Ext2FsDirectoryEntry) :
    Prop where
  name : offset + 8 + entry.nameSize.toNat ≤ size
  string : EndsString buffer size offset

end Ext2FsDirectoryEntry

namespace Ext2Fs

open Ext2FsDirectoryEntry (read)

variable (buffer : ℕ → UInt8) (size : ℕ)

/-- The loop of `Populate`, with the children that it inserts. -/
def populateLoop : ℕ → ℕ → List (List UInt8 × UInt32 × ℕ) →
    Except ScanFault (List (List UInt8 × UInt32 × ℕ))
  | 0, i, children => if i < size then .error .endless else .ok children
  | fuel + 1, i, children =>
    if i < size then
      let entry := read buffer i
      if entry.Populates size i then
        let next := (i + entry.size.toNat) % wordCount
        if entry.inodeIndex = 0 then populateLoop fuel next children
        else if entry.name = [0x2e] ∨ entry.name = [0x2e, 0x2e] then
          populateLoop fuel next children
        else populateLoop fuel next (children ++ [(entry.name, entry.inodeIndex, entry.fileType)])
      else .error .outside
    else .ok children

/-- `Populate`. -/
def populate (fuel : ℕ) : Except ScanFault (List (List UInt8 × UInt32 × ℕ)) :=
  populateLoop buffer size fuel 0 []

end Ext2Fs

namespace Ext2FsINode

open Ext2FsDirectoryEntry (read)

/-- The loop of `AddDirectoryEntry` as far as it looks for room, in a buffer of whole pages. -/
def scanRoom (buffer : ℕ → UInt8) (size required : ℕ) : ℕ → ℕ → Except ScanFault (ℕ × Bool)
  | 0, offset => if offset < size then .error .endless else .ok (offset, false)
  | fuel + 1, offset =>
    if offset < size then
      if offset + 7 ≤ Prism.roundUp size Memory.PMM.pageSize then
        let previousEntry := read buffer offset
        if previousEntry.available ≥ required then .ok (offset, true)
        else scanRoom buffer size required fuel ((offset + previousEntry.size.toNat) % wordCount)
      else .error .outside
    else .ok (offset, false)

end Ext2FsINode

/-! ## Each scan by itself -/

namespace Ext2Fs

open Ext2FsDirectoryEntry

variable {buffer : ℕ → UInt8} {size fuel i stop : ℕ} {l : List Ext2FsDirectoryEntry}
  {children : List (List UInt8 × UInt32 × ℕ)}

theorem next_eq (hsize : size + 2 ^ 16 ≤ wordCount) (hi : i < size) :
    (i + (read buffer i).size.toNat) % wordCount = i + (read buffer i).size.toNat :=
  Nat.mod_eq_of_lt (by have := (read buffer i).size.toNat_lt; omega)

/-- The live entries that `Populate` makes children of. -/
def populated (l : List Ext2FsDirectoryEntry) : List (List UInt8 × UInt32 × ℕ) :=
  (listing l).filter fun e => ¬ (e.1 = [0x2e] ∨ e.1 = [0x2e, 0x2e])

/-- The loop goes through the records, which `Populate` reads inside of the buffer, and inserts the
live entries other than `.` and `..`. -/
theorem populateLoop_of_tiles (hsize : size + 2 ^ 16 ≤ wordCount)
    (h : Tiles (read buffer) (fun r => r.size.toNat) (fun o r => r.Populates size o) i stop l)
    (hstop : size ≤ stop) :
    populateLoop buffer size l.length i children = .ok (children ++ populated l) := by
  induction h generalizing children with
  | nil stop =>
    rw [List.length_nil, populateLoop, if_neg (by omega)]
    exact congrArg _ (List.append_nil children).symm
  | cons hpos hfits hrest ih =>
    rename_i offset stop l
    have hlt : offset < size := by
      have := hfits.header
      omega
    rw [List.length_cons, populateLoop, if_pos hlt]
    dsimp only
    rw [if_pos hfits, next_eq hsize hlt, populated, listing, List.filter_cons]
    by_cases hdeleted : (read buffer offset).inodeIndex = 0
    · rw [if_pos hdeleted, if_neg (by simpa using hdeleted), ih hstop]
      rfl
    · have hlive : decide ((read buffer offset).inodeIndex ≠ 0) = true := decide_eq_true hdeleted
      rw [if_neg hdeleted, if_pos hlive, List.map_cons, List.filter_cons]
      by_cases hdots : (read buffer offset).name = [0x2e] ∨ (read buffer offset).name = [0x2e, 0x2e]
      · rw [if_pos hdots, if_neg fun h => (of_decide_eq_true h : ¬ _) hdots, ih hstop]
        rfl
      · rw [if_neg hdots, if_pos (decide_eq_true hdots), ih hstop, List.append_assoc,
          List.singleton_append]
        rfl

/-- A turn of the loop. -/
theorem populateLoop_ok (hsize : size + 2 ^ 16 ≤ wordCount) (hi : i < size)
    {result : List (List UInt8 × UInt32 × ℕ)}
    (h : populateLoop buffer size fuel i children = .ok result) :
    (read buffer i).Populates size i ∧ ∃ m < fuel, ∃ children',
      populateLoop buffer size m (i + (read buffer i).size.toNat) children' = .ok result := by
  cases fuel with
  | zero =>
    rw [populateLoop, if_pos hi] at h
    cases h
  | succ fuel =>
    rw [populateLoop, if_pos hi] at h
    dsimp only at h
    rw [next_eq hsize hi] at h
    split at h
    · rename_i hreads
      refine ⟨hreads, fuel, Nat.lt_succ_self fuel, ?_⟩
      split at h
      · exact ⟨_, h⟩
      · split at h <;> exact ⟨_, h⟩
    · cases h

theorem populate_isOk_iff (hsize : size + 2 ^ 16 ≤ wordCount) :
    (∃ fuel result, populate buffer size fuel = .ok result) ↔
      ∃ stop l, size ≤ stop ∧
        Tiles (read buffer) (fun r => r.size.toNat) (fun o r => r.Populates size o) 0 stop l := by
  constructor
  · rintro ⟨fuel, result, hrun⟩
    refine Tiles.exists_of_runs
      (fun n o => ∃ children, populateLoop buffer size n o children = .ok result)
      (fun n o ⟨children, hchildren⟩ hlt => ?_) ⟨[], hrun⟩
    exact populateLoop_ok hsize hlt hchildren
  · rintro ⟨stop, l, hstop, htiles⟩
    exact ⟨l.length, _, populateLoop_of_tiles hsize htiles hstop⟩

end Ext2Fs

namespace Ext2FsINode

open Ext2FsDirectoryEntry

variable {buffer : ℕ → UInt8} {size fuel i bufferOffset directoryOffset stop required : ℕ}
  {reports : List Ext2FsReport} {l : List Ext2FsDirectoryEntry}

/-- A turn of a traversal that is not ended. -/
theorem traverseLoop_ok {inside : ℕ → Prop} [DecidablePred inside]
    (hsize : size + 2 ^ 16 ≤ wordCount) (hlt : bufferOffset < size) (hi : directoryOffset ≤ i)
    {t : Traversal}
    (h : traverseLoop inside buffer size (fun _ => true) fuel i bufferOffset directoryOffset
      reports = .ok t) :
    inside bufferOffset ∧ ∃ m < fuel, ∃ i directoryOffset reports, directoryOffset ≤ i ∧
      traverseLoop inside buffer size (fun _ => true) m i
        (bufferOffset + (read buffer bufferOffset).size.toNat) directoryOffset reports = .ok t := by
  cases fuel with
  | zero =>
    rw [traverseLoop, if_pos hlt] at h
    cases h
  | succ fuel =>
    rw [traverseLoop, if_pos hlt, if_neg (by omega)] at h
    dsimp only at h
    rw [Ext2Fs.next_eq hsize hlt] at h
    split at h
    · rename_i hinside
      refine ⟨hinside, fuel, Nat.lt_succ_self fuel, ?_⟩
      split at h
      · exact ⟨_, _, _, by omega, h⟩
      · split at h <;> exact ⟨_, _, _, by omega, h⟩
    · cases h

/-- The records end in a 64-bit offset. -/
theorem stop_lt {fits : ℕ → Ext2FsDirectoryEntry → Prop} (hsize : size + 2 ^ 16 ≤ wordCount)
    (h : Tiles (read buffer) (fun r => r.size.toNat) fits i stop l)
    (hfits : ∀ o, fits o (read buffer o) → o < size) (hi : i ≤ size) : stop < wordCount := by
  induction h with
  | nil => omega
  | cons hpos hfit hrest ih =>
    rename_i offset stop l
    have hlt := hfits offset hfit
    have hwidth := (read buffer offset).size.toNat_lt
    by_cases hle : offset + (read buffer offset).size.toNat ≤ size
    · exact ih hle
    · cases hrest with
      | nil => omega
      | cons hpos' hfit' hrest' => exact absurd (hfits _ hfit') (by omega)

theorem traverse_isOk_iff (hsize : size + 2 ^ 16 ≤ wordCount) :
    (∀ iterator directoryOffset, ∃ fuel result,
      traverse (EndsString buffer size) buffer size iterator fuel directoryOffset = .ok result) ↔
      ∃ stop l, size ≤ stop ∧
        Tiles (read buffer) (fun r => r.size.toNat) (fun o _ => EndsString buffer size o)
          0 stop l := by
  constructor
  · intro hall
    obtain ⟨fuel, result, hrun⟩ := hall (fun _ => true) 0
    cases hloop : traverseLoop (EndsString buffer size) buffer size (fun _ => true) fuel 0 0 0 []
      with
    | error fault =>
      rw [traverse, hloop] at hrun
      cases hrun
    | ok t =>
      refine Tiles.exists_of_runs (fun n o => ∃ i directoryOffset reports, directoryOffset ≤ i ∧
        traverseLoop (EndsString buffer size) buffer size (fun _ => true) n i o directoryOffset
          reports = .ok t) (fun n o hrun hlt => ?_) ⟨0, 0, [], le_rfl, hloop⟩
      obtain ⟨i, directoryOffset, reports, hi, hturn⟩ := hrun
      exact traverseLoop_ok hsize hlt hi hturn
  · rintro ⟨stop, l, hstop, htiles⟩ iterator directoryOffset
    have hword := stop_lt hsize htiles (fun o => EndsString.lt) (Nat.zero_le size)
    obtain ⟨next, hnext⟩ := traverse_of_tiles htiles hstop hword
      (fun o hends _ => ⟨hends.lt, hends⟩) le_rfl iterator directoryOffset
    exact ⟨_, _, hnext⟩

/-- Where the records can be read, the loop that looks for room ends. -/
theorem scanRoom_of_tiles (hsize : size + 2 ^ 16 ≤ wordCount)
    (h : Tiles (read buffer) (fun r => r.size.toNat) (Readable buffer size) i stop l)
    (hstop : size ≤ stop) :
    ∃ found, scanRoom buffer size required l.length i = .ok found := by
  induction h with
  | nil stop => exact ⟨_, by rw [List.length_nil, scanRoom, if_neg (by omega)]⟩
  | cons hpos hfits hrest ih =>
    rename_i offset stop l
    have hname := hfits.name
    have hpages := Prism.le_roundUp Memory.PMM.pageSize_pos size
    rw [List.length_cons, scanRoom, if_pos (by omega), if_pos (by omega)]
    dsimp only
    rw [Ext2Fs.next_eq hsize (by omega)]
    split
    · exact ⟨_, rfl⟩
    · exact ih hstop

/-- Where it ends it finds what the loop of `AddDirectoryEntry` finds. -/
theorem findRoom_of_scanRoom {found : ℕ × Bool}
    (h : scanRoom buffer size required fuel i = .ok found) :
    findRoom buffer size required fuel i = some found := by
  induction fuel generalizing i with
  | zero =>
    rw [scanRoom] at h
    split at h
    · cases h
    · rename_i hend
      rw [findRoom, if_neg hend, Except.ok.inj h]
  | succ fuel ih =>
    rw [scanRoom] at h
    rw [findRoom]
    split at h
    · rename_i hlt
      rw [if_pos hlt]
      split at h
      · dsimp only at h ⊢
        split at h
        · rename_i hroom
          rw [if_pos hroom, Except.ok.inj h]
        · rename_i hroom
          rw [if_neg hroom, ih h]
      · cases h
    · rename_i hend
      rw [if_neg hend, Except.ok.inj h]

end Ext2FsINode

/-! ## The three scans -/

namespace Ext2FsDirectoryEntry

variable {buffer : ℕ → UInt8} {size offset : ℕ} {entry : Ext2FsDirectoryEntry}

theorem readable_iff : entry.Readable buffer size offset ↔
    entry.Populates size offset ∧ EndsString buffer size offset := by
  constructor
  · intro h
    have := h.name
    exact ⟨⟨by omega, fun _ => h.name, fun _ => by omega⟩, h.string⟩
  · rintro ⟨hpopulates, hends⟩
    refine ⟨?_, hends⟩
    obtain ⟨position, hlt, hle, -⟩ := hends
    by_cases hpos : 0 < entry.nameSize.toNat
    · exact hpopulates.name hpos
    · omega

end Ext2FsDirectoryEntry

namespace Ext2Fs

open Ext2FsDirectoryEntry Ext2FsINode

variable {buffer : ℕ → UInt8} {size : ℕ}

/-- **Which directories can be scanned.** The loops of `Populate`, `TraverseDirectories` and
`AddDirectoryEntry` end, and read inside of the buffer, exactly when records with their names in the
buffer, and a NUL behind the start of each name, follow each other up to its end. -/
theorem scans_end_iff (hsize : size + 2 ^ 16 ≤ wordCount) :
    ((∃ fuel children, populate buffer size fuel = .ok children) ∧
      (∀ iterator directoryOffset, ∃ fuel result,
        traverse (EndsString buffer size) buffer size iterator fuel directoryOffset =
          .ok result) ∧
      ∀ required, ∃ fuel found, scanRoom buffer size required fuel 0 = .ok found) ↔
    ∃ stop records, size ≤ stop ∧
      Tiles (read buffer) (fun r => r.size.toNat) (Readable buffer size) 0 stop records := by
  rw [populate_isOk_iff hsize, traverse_isOk_iff hsize]
  constructor
  · rintro ⟨⟨stop, records, hstop, hpopulates⟩, ⟨stop', records', hstop', hends⟩, -⟩
    refine ⟨stop, records, hstop, (hpopulates.and_of hends (fun o hfits => ?_) hstop hstop').imp
      fun o => readable_iff.mpr⟩
    have := hfits.header
    omega
  · rintro ⟨stop, records, hstop, htiles⟩
    refine ⟨⟨stop, records, hstop, htiles.imp fun o hfits => (readable_iff.mp hfits).1⟩,
      ⟨stop, records, hstop, htiles.imp fun o hfits => hfits.string⟩, fun required => ?_⟩
    obtain ⟨found, hfound⟩ := scanRoom_of_tiles hsize htiles hstop
    exact ⟨_, found, hfound⟩

theorem twoEntries_readable : Tiles (read twoEntries) (fun r => r.size.toNat)
    (Readable twoEntries 1024) 0 1024 twoRecords := by
  obtain ⟨hfirst, hsecond, hthird⟩ := twoEntries_read
  refine Tiles.cons_iff.mpr ⟨hfirst, by decide, ⟨by decide, 9, by decide, by decide, rfl⟩, ?_⟩
  refine Tiles.cons_iff.mpr ⟨hsecond, by decide, ⟨by decide, 21, by decide, by decide, rfl⟩, ?_⟩
  exact Tiles.cons_iff.mpr
    ⟨hthird, by decide, ⟨by decide, 33, by decide, by decide, rfl⟩, .nil 1024⟩

/-- A directory in good order. -/
theorem scans_end_twoEntries :
    (∃ fuel children, populate twoEntries 1024 fuel = .ok children) ∧
      (∀ iterator directoryOffset, ∃ fuel result,
        traverse (EndsString twoEntries 1024) twoEntries 1024 iterator fuel directoryOffset =
          .ok result) ∧
      ∀ required, ∃ fuel found, scanRoom twoEntries 1024 required fuel 0 = .ok found :=
  (scans_end_iff (by decide)).mpr ⟨1024, twoRecords, le_rfl, twoEntries_readable⟩

/-- A directory of zeros, in which `Populate` does not go on. -/
theorem not_scans_end_zeros :
    ¬ ((∃ fuel children, populate (fun _ => 0) 12 fuel = .ok children) ∧
      (∀ iterator directoryOffset, ∃ fuel result,
        traverse (EndsString (fun _ => 0) 12) (fun _ => 0) 12 iterator fuel directoryOffset =
          .ok result) ∧
      ∀ required, ∃ fuel found, scanRoom (fun _ => 0) 12 required fuel 0 = .ok found) := by
  rintro ⟨⟨fuel, children, hrun⟩, -⟩
  have hendless : ∀ fuel, populateLoop (fun _ => 0) 12 fuel 0 [] = .error .endless := by
    intro fuel
    induction fuel with
    | zero => rfl
    | succ fuel ih => exact ih
  rw [populate, hendless fuel] at hrun
  cases hrun

end Ext2Fs

end Cryptix.VFS
