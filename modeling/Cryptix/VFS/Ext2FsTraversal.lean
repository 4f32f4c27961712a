import Mathlib.Data.List.TakeWhile
import Cryptix.Lib.Checked
import Cryptix.VFS.Ext2FsDirectory

/-!
# Listing an ext2 directory

`TraverseDirectories` and `Lookup` of `Kernel/VFS/Ext2Fs/Ext2FsINode.cpp`. A traversal calls an
iterator for each entry, which can end it, and the next one should go on where it ended:
`m_DirectoryOffset` counts the entries so far.

But the loop skips that many turns before it reads the first record, and not that many records, so
that every traversal begins with the first entry (`runTraversals_inOrder_iff`). And `Lookup`, which
traverses the directory up to the name and then goes through the children, takes the first of them
whatever its name is (`lookup_finds_iff`).

The records are those that `ReadINode` has read. The map of the children is a parameter.
-/

namespace Cryptix.VFS

open Lib

/-- What a traversal tells the iterator of an entry. -/
structure Ext2FsReport where
  name : List UInt8
  offset : ℕ
  ino : UInt32
  type : ℕ
  deriving DecidableEq

namespace Ext2FsReport

/-- What is listed of an entry: all but the offset. -/
def listed (report : Ext2FsReport) : List UInt8 × UInt32 × ℕ :=
  (report.name, report.ino, report.type)

end Ext2FsReport

namespace Ext2FsDirectoryEntry

/-- `nameBuffer`: the name, as a string. The bytes behind a NUL in the name are not copied. -/
def nameBuffer (entry : Ext2FsDirectoryEntry) : List UInt8 :=
  entry.name.takeWhile (· ≠ 0)

/-- `IF2DT` of the mode, which has the file type of the entry and the permissions of the inode. -/
def fileType (entry : Ext2FsDirectoryEntry) : ℕ :=
  if entry.type = 1 then 8
  else if entry.type = 2 then 4
  else if entry.type = 3 then 2
  else if entry.type = 4 then 6
  else if entry.type = 5 then 1
  else if entry.type = 6 then 12
  else if entry.type = 7 then 10
  else 0

end Ext2FsDirectoryEntry

/-- The variables of the loop of `TraverseDirectories` at its end, and what it has reported. -/
structure Traversal where
  bufferOffset : ℕ
  directoryOffset : ℕ
  reports : List Ext2FsReport

namespace Ext2FsINode

section Traverse

variable (inside : ℕ → Prop) [DecidablePred inside] (buffer : ℕ → UInt8) (size : ℕ)
  (iterator : List Ext2FsReport → Bool)

/-- The loop of `TraverseDirectories`. `inside` says where a record can be read, and the iterator
goes by what it was told so far. No name is `.` and `..` at the same time. -/
def traverseLoop : ℕ → ℕ → ℕ → ℕ → List Ext2FsReport → Except ScanFault Traversal
  | 0, _, bufferOffset, directoryOffset, reports =>
    if bufferOffset < size then .error .endless
    else .ok ⟨bufferOffset, directoryOffset, reports⟩
  | fuel + 1, i, bufferOffset, directoryOffset, reports =>
    if bufferOffset < size then
      if i < directoryOffset then traverseLoop fuel (i + 1) bufferOffset directoryOffset reports
      else if inside bufferOffset then
        let entry := Ext2FsDirectoryEntry.read buffer bufferOffset
        let next := (bufferOffset + entry.size.toNat) % wordCount
        if entry.inodeIndex = 0 then traverseLoop fuel (i + 1) next directoryOffset reports
        else if entry.nameBuffer = [0x2e] ∧ entry.nameBuffer = [0x2e, 0x2e] then
          traverseLoop fuel (i + 1) next directoryOffset reports
        else
          let report : Ext2FsReport :=
            ⟨entry.nameBuffer, directoryOffset, entry.inodeIndex, entry.fileType⟩
          if iterator (reports ++ [report]) then
            traverseLoop fuel (i + 1) next (directoryOffset + 1) (reports ++ [report])
          else .ok ⟨next, directoryOffset + 1, reports ++ [report]⟩
      else .error .outside
    else .ok ⟨bufferOffset, directoryOffset, reports⟩

/-- `TraverseDirectories`, with the new `m_DirectoryOffset` and the entries it has reported. -/
def traverse (fuel directoryOffset : ℕ) : Except ScanFault (ℕ × List Ext2FsReport) :=
  (traverseLoop inside buffer size iterator fuel 0 0 directoryOffset []).map fun t =>
    (if t.bufferOffset = size then 0 else t.directoryOffset, t.reports)

end Traverse

/-- `TraverseDirectories` where all records can be read. Every turn but those that are skipped goes
on by a byte at least. -/
def traverseDirectories (buffer : ℕ → UInt8) (size : ℕ) (iterator : List Ext2FsReport → Bool)
    (directoryOffset : ℕ) : Except ScanFault (ℕ × List Ext2FsReport) :=
  traverse (fun _ => True) buffer size iterator (directoryOffset + size) directoryOffset

/-- Traversals one after the other, with all that they report. -/
def runTraversals (buffer : ℕ → UInt8) (size : ℕ) :
    ℕ → List (List Ext2FsReport → Bool) → Except ScanFault (ℕ × List Ext2FsReport)
  | directoryOffset, [] => .ok (directoryOffset, [])
  | directoryOffset, iterator :: rest => do
    let (directoryOffset, reports) ← traverseDirectories buffer size iterator directoryOffset
    let (directoryOffset, later) ← runTraversals buffer size directoryOffset rest
    .ok (directoryOffset, reports ++ later)

end Ext2FsINode

/-! ## What a traversal should report -/

namespace Ext2FsDirectoryEntry

/-- The reports of entries one after the other, with numbers. -/
def reportsFrom (directoryOffset : ℕ) : List Ext2FsDirectoryEntry → List Ext2FsReport
  | [] => []
  | r :: rest =>
    if r.inodeIndex = 0 then reportsFrom directoryOffset rest
    else ⟨r.nameBuffer, directoryOffset, r.inodeIndex, r.fileType⟩ ::
      reportsFrom (directoryOffset + 1) rest

/-- The live entries of a directory, in order. -/
def listing (records : List Ext2FsDirectoryEntry) : List (List UInt8 × UInt32 × ℕ) :=
  (records.filter fun r => r.inodeIndex ≠ 0).map fun r => (r.name, r.inodeIndex, r.fileType)

/-- Names have no NUL, and no two live entries have the same one. -/
structure ProperNames (records : List Ext2FsDirectoryEntry) : Prop where
  no_nul : ∀ r ∈ records, 0 ∉ r.name
  distinct : ((listing records).map fun e => e.1).Nodup

/-- Each entry is reported once, in order, before any is reported again. -/
def InOrder (records : List Ext2FsDirectoryEntry) (reports : List Ext2FsReport) : Prop :=
  (reports.map Ext2FsReport.listed).take (listing records).length =
    (listing records).take reports.length

/-- The iterator does not end a traversal before the last live entry. -/
def RunsThrough (records : List Ext2FsDirectoryEntry) (iterator : List Ext2FsReport → Bool) :
    Prop :=
  ∀ k, 0 < k → k < (listing records).length → iterator ((reportsFrom 0 records).take k)

end Ext2FsDirectoryEntry

/-! ## One traversal -/

namespace Ext2FsDirectoryEntry

variable {records l : List Ext2FsDirectoryEntry} {directoryOffset : ℕ}

/-- The reports up to the one at which the iterator ends the traversal. -/
def accepted (iterator : List Ext2FsReport → Bool) :
    List Ext2FsReport → List Ext2FsReport → List Ext2FsReport
  | _, [] => []
  | reports, report :: rest =>
    if iterator (reports ++ [report]) then
      report :: accepted iterator (reports ++ [report]) rest
    else [report]

theorem reportsFrom_listed (h : ∀ r ∈ l, 0 ∉ r.name) (directoryOffset : ℕ) :
    (reportsFrom directoryOffset l).map Ext2FsReport.listed = listing l := by
  induction l generalizing directoryOffset with
  | nil => rfl
  | cons r l ih =>
    obtain ⟨hr, hl⟩ := List.forall_mem_cons.mp h
    have hname : r.nameBuffer = r.name :=
      List.takeWhile_eq_self_iff.mpr fun c hc => decide_eq_true fun hzero => hr (hzero ▸ hc)
    rw [reportsFrom, listing, List.filter_cons]
    by_cases hlive : r.inodeIndex = 0
    · rw [if_pos hlive, if_neg (by simpa using hlive), ih hl]
      rfl
    · rw [if_neg hlive, if_pos (by simpa using hlive), List.map_cons, List.map_cons, ih hl,
        Ext2FsReport.listed, hname]
      rfl

theorem accepted_isPrefixOf (iterator : List Ext2FsReport → Bool) (reports l : List Ext2FsReport) :
    accepted iterator reports l <+: l := by
  induction l generalizing reports with
  | nil => exact List.prefix_rfl
  | cons report rest ih =>
    rw [accepted]
    split
    · exact (List.cons_prefix_cons).mpr ⟨rfl, ih _⟩
    · exact List.prefix_append [report] rest

theorem accepted_ne_nil {iterator : List Ext2FsReport → Bool} {reports l : List Ext2FsReport}
    (h : l ≠ []) : accepted iterator reports l ≠ [] := by
  cases l with
  | nil => exact absurd rfl h
  | cons report rest =>
    rw [accepted]
    split <;> exact List.cons_ne_nil _ _

/-- A traversal goes through all entries unless the iterator ends it before the last. -/
theorem accepted_eq_self_iff {iterator : List Ext2FsReport → Bool}
    {reports l : List Ext2FsReport} :
    accepted iterator reports l = l ↔
      ∀ k, 0 < k → k < l.length → iterator (reports ++ l.take k) = true := by
  induction l generalizing reports with
  | nil => exact iff_of_true rfl fun k hk hlt => absurd hlt (Nat.not_lt_zero k)
  | cons report rest ih =>
    rw [accepted]
    split
    · rename_i hnext
      rw [List.cons.injEq, ih]
      constructor
      · rintro ⟨-, hrest⟩ k hk hlt
        obtain ⟨k, rfl⟩ : ∃ n, k = n + 1 := Nat.exists_eq_succ_of_ne_zero (by omega)
        rw [List.take_succ_cons, ← List.singleton_append, ← List.append_assoc]
        rw [List.length_cons] at hlt
        by_cases hzero : k = 0
        · rw [hzero, List.take_zero, List.append_nil]
          exact hnext
        · exact hrest k (by omega) (by omega)
      · intro hall
        refine ⟨rfl, fun k hk hlt => ?_⟩
        have hstep := hall (k + 1) (by omega) (by rw [List.length_cons]; omega)
        rwa [List.take_succ_cons, ← List.singleton_append, ← List.append_assoc] at hstep
    · rename_i hend
      constructor
      · intro heq k hk hlt
        rw [← heq, List.length_singleton] at hlt
        omega
      · intro hall
        cases rest with
        | nil => rfl
        | cons next rest =>
          refine absurd (hall 1 Nat.one_pos ?_) hend
          rw [List.length_cons, List.length_cons]
          omega

end Ext2FsDirectoryEntry

namespace Ext2FsINode

open Ext2FsDirectoryEntry

variable {inside : ℕ → Prop} [DecidablePred inside] {buffer : ℕ → UInt8} {blockSize size : ℕ}
  {iterator : List Ext2FsReport → Bool} {fuel i bufferOffset directoryOffset stop : ℕ}
  {reports : List Ext2FsReport} {records l : List Ext2FsDirectoryEntry}

/-- The turns that are skipped. -/
theorem traverseLoop_skip (hsize : bufferOffset < size) (k : ℕ) (h : i + k ≤ directoryOffset) :
    traverseLoop inside buffer size iterator (fuel + k) i bufferOffset directoryOffset reports =
      traverseLoop inside buffer size iterator fuel (i + k) bufferOffset directoryOffset
        reports := by
  induction k generalizing i with
  | zero => rfl
  | succ k ih =>
    rw [← Nat.add_assoc, traverseLoop, if_pos hsize, if_pos (by omega), ih (by omega)]
    congr 1
    omega

/-- The loop reports the entries of the records that it goes through, up to the one at which the
iterator ends it. -/
theorem traverseLoop_of_tiles {fits : ℕ → Ext2FsDirectoryEntry → Prop}
    (h : Tiles (read buffer) (fun r => r.size.toNat) fits bufferOffset stop l)
    (hstop : size ≤ stop) (hword : stop < wordCount)
    (hinside : ∀ o, fits o (read buffer o) → o + (read buffer o).size.toNat ≤ stop →
      o < size ∧ inside o)
    (hi : directoryOffset ≤ i) (hfuel : l.length ≤ fuel) :
    ∃ t, traverseLoop inside buffer size iterator fuel i bufferOffset directoryOffset reports =
        .ok t ∧
      t.reports = reports ++ accepted iterator reports (reportsFrom directoryOffset l) := by
  induction h generalizing fuel i directoryOffset reports with
  | nil stop =>
    have hend : traverseLoop inside buffer size iterator fuel i stop directoryOffset reports =
        .ok ⟨stop, directoryOffset, reports⟩ := by
      cases fuel with
      | zero => rw [traverseLoop, if_neg (by omega)]
      | succ fuel => rw [traverseLoop, if_neg (by omega)]
    exact ⟨_, hend, (List.append_nil reports).symm⟩
  | cons hpos hfits hrest ih =>
    rename_i offset stop l
    obtain ⟨fuel, rfl⟩ : ∃ n, fuel = n + 1 := Nat.exists_eq_succ_of_ne_zero (by
      rw [List.length_cons] at hfuel
      omega)
    have hle := hrest.le
    obtain ⟨hlt, hin⟩ := hinside offset hfits hle
    have hnext : (offset + (read buffer offset).size.toNat) % wordCount =
        offset + (read buffer offset).size.toNat := Nat.mod_eq_of_lt (by omega)
    have hfuel : l.length ≤ fuel := Nat.le_of_succ_le_succ hfuel
    rw [traverseLoop, if_pos hlt, if_neg (by omega), if_pos hin]
    dsimp only
    rw [hnext, reportsFrom]
    by_cases hlive : (read buffer offset).inodeIndex = 0
    · rw [if_pos hlive, if_pos hlive]
      exact ih hstop hword hinside (by omega) hfuel
    · have hdots : ¬ ((read buffer offset).nameBuffer = [0x2e] ∧
          (read buffer offset).nameBuffer = [0x2e, 0x2e]) := by
        rintro ⟨hdot, hdots⟩
        rw [hdot] at hdots
        exact absurd hdots (by decide)
      rw [if_neg hlive, if_neg hlive, if_neg hdots, accepted]
      set report : Ext2FsReport := ⟨(read buffer offset).nameBuffer, directoryOffset,
        (read buffer offset).inodeIndex, (read buffer offset).fileType⟩
      split
      · obtain ⟨t, ht, hreports⟩ : ∃ t, traverseLoop inside buffer size iterator fuel (i + 1)
            (offset + (read buffer offset).size.toNat) (directoryOffset + 1)
            (reports ++ [report]) = .ok t ∧ _ := ih hstop hword hinside (by omega) hfuel
        exact ⟨t, ht, by rw [hreports, List.append_assoc, List.singleton_append]⟩
      · exact ⟨_, rfl, rfl⟩

/-- A traversal reports the entries from the first one on, wherever the last one ended. -/
theorem traverse_of_tiles {fits : ℕ → Ext2FsDirectoryEntry → Prop}
    (h : Tiles (read buffer) (fun r => r.size.toNat) fits 0 stop l) (hstop : size ≤ stop)
    (hword : stop < wordCount)
    (hinside : ∀ o, fits o (read buffer o) → o + (read buffer o).size.toNat ≤ stop →
      o < size ∧ inside o)
    (hfuel : l.length ≤ fuel) (iterator : List Ext2FsReport → Bool) (directoryOffset : ℕ) :
    ∃ next, traverse inside buffer size iterator (fuel + directoryOffset) directoryOffset =
      .ok (next, accepted iterator [] (reportsFrom directoryOffset l)) := by
  by_cases hempty : size = 0
  · have hnone : l = [] := by
      cases h with
      | nil => rfl
      | cons hpos hfits hrest =>
        have := (hinside 0 hfits hrest.le).1
        omega
    have hend : traverseLoop inside buffer size iterator (fuel + directoryOffset) 0 0
        directoryOffset [] = .ok ⟨0, directoryOffset, []⟩ := by
      cases fuel + directoryOffset with
      | zero => rw [traverseLoop, if_neg (by omega)]
      | succ fuel => rw [traverseLoop, if_neg (by omega)]
    rw [traverse, hend, hnone]
    exact ⟨_, rfl⟩
  · obtain ⟨t, ht, hreports⟩ : ∃ t, traverseLoop inside buffer size iterator fuel
        (0 + directoryOffset) 0 directoryOffset [] = .ok t ∧ _ :=
      traverseLoop_of_tiles h hstop hword hinside (Nat.zero_add _).ge hfuel
    rw [traverse, traverseLoop_skip (Nat.pos_of_ne_zero hempty) directoryOffset (by omega), ht]
    rw [List.nil_append] at hreports
    exact ⟨if t.bufferOffset = size then 0 else t.directoryOffset, by rw [← hreports]; rfl⟩

/-- A traversal of a directory. -/
theorem traverseDirectories_eq (hdir : IsDirectory blockSize buffer size records)
    (hsize : size < wordCount) (iterator : List Ext2FsReport → Bool) (directoryOffset : ℕ) :
    ∃ next, traverseDirectories buffer size iterator directoryOffset =
      .ok (next, accepted iterator [] (reportsFrom directoryOffset records)) := by
  have hlength := hdir.records.length_le
  rw [Nat.zero_add] at hlength
  rw [traverseDirectories, Nat.add_comm]
  refine traverse_of_tiles hdir.records le_rfl hsize (fun o hfits hle => ⟨?_, trivial⟩) hlength _ _
  have := hfits.eight_le
  omega

/-- The first of some traversals, and the others. -/
theorem runTraversals_cons (hdir : IsDirectory blockSize buffer size records)
    (hsize : size < wordCount) (iterator : List Ext2FsReport → Bool)
    (rest : List (List Ext2FsReport → Bool)) (directoryOffset : ℕ) :
    ∃ next, ∀ last later, runTraversals buffer size next rest = .ok (last, later) →
      runTraversals buffer size directoryOffset (iterator :: rest) =
        .ok (last, accepted iterator [] (reportsFrom directoryOffset records) ++ later) := by
  obtain ⟨next, hfirst⟩ := traverseDirectories_eq hdir hsize iterator directoryOffset
  refine ⟨next, fun last later hrest => ?_⟩
  rw [runTraversals, hfirst]
  simp only [hrest, bind, Except.bind]

theorem runTraversals_total (hdir : IsDirectory blockSize buffer size records)
    (hsize : size < wordCount) (iterators : List (List Ext2FsReport → Bool))
    (directoryOffset : ℕ) :
    ∃ last reports, runTraversals buffer size directoryOffset iterators = .ok (last, reports) := by
  induction iterators generalizing directoryOffset with
  | nil => exact ⟨directoryOffset, [], rfl⟩
  | cons iterator rest ih =>
    obtain ⟨next, hcons⟩ := runTraversals_cons hdir hsize iterator rest directoryOffset
    obtain ⟨last, later, hrest⟩ := ih next
    exact ⟨last, _, hcons last later hrest⟩

theorem accepted_listed_isPrefixOf (hnames : ProperNames records)
    (iterator : List Ext2FsReport → Bool) (directoryOffset : ℕ) :
    (accepted iterator [] (reportsFrom directoryOffset records)).map Ext2FsReport.listed <+:
      listing records := by
  rw [← reportsFrom_listed hnames.no_nul directoryOffset]
  exact (accepted_isPrefixOf iterator [] _).map _

theorem inOrder_of_isPrefixOf (h : reports.map Ext2FsReport.listed <+: listing records) :
    InOrder records reports := by
  have hle := h.length_le
  rw [InOrder, List.take_of_length_le hle, ← List.length_map Ext2FsReport.listed]
  exact List.prefix_iff_eq_take.mp h

theorem inOrder_append_of_eq (h : reports.map Ext2FsReport.listed = listing records)
    (later : List Ext2FsReport) : InOrder records (reports ++ later) := by
  have hlength : reports.length = (listing records).length := by
    rw [← h, List.length_map]
  rw [InOrder, List.map_append, h, List.take_left, List.length_append, List.take_of_length_le]
  omega

/-- What begins again with the first entry before the last was reported is not in order. -/
theorem not_inOrder_append (hnames : ProperNames records) {later : List Ext2FsReport}
    (hne : reports ≠ []) (hlt : reports.length < (listing records).length)
    (hagain : (later.map Ext2FsReport.listed).head? = (listing records).head?) :
    ¬ InOrder records (reports ++ later) := by
  intro horder
  have hpos : 0 < reports.length := List.length_pos_iff.mpr hne
  have hlater : 0 < later.length := by
    refine Nat.pos_of_ne_zero fun hzero => ?_
    rw [List.length_eq_zero_iff.mp hzero, List.map_nil, List.head?_nil, eq_comm,
      List.head?_eq_none_iff] at hagain
    rw [hagain] at hlt
    exact absurd hlt (Nat.not_lt_zero _)
  -- the place behind what was reported first has the first entry again, and not the next one
  have hplace := congrArg (fun l => l[reports.length]?) horder
  simp only [List.getElem?_take, if_pos hlt, List.length_append,
    if_pos (show reports.length < reports.length + later.length by omega)] at hplace
  rw [List.map_append, List.getElem?_append_right (by rw [List.length_map]), List.length_map,
    Nat.sub_self, ← List.head?_eq_getElem?, hagain, List.head?_eq_getElem?] at hplace
  have hname : ((listing records).map fun e => e.1)[0]? =
      ((listing records).map fun e => e.1)[reports.length]? := by
    rw [List.getElem?_map, List.getElem?_map, hplace]
  have hsame := (List.getElem?_inj (by rw [List.length_map]; omega) hnames.distinct).mp hname
  omega

theorem accepted_head? (hnames : ProperNames records) (hne : listing records ≠ [])
    (iterator : List Ext2FsReport → Bool) (directoryOffset : ℕ) :
    accepted iterator [] (reportsFrom directoryOffset records) ≠ [] ∧
      ((accepted iterator [] (reportsFrom directoryOffset records)).map
        Ext2FsReport.listed).head? = (listing records).head? := by
  have hlisted := reportsFrom_listed hnames.no_nul directoryOffset
  have hany : accepted iterator [] (reportsFrom directoryOffset records) ≠ [] := by
    refine accepted_ne_nil fun hnil => hne ?_
    rw [← hlisted, hnil, List.map_nil]
  refine ⟨hany, ?_⟩
  obtain ⟨rest, hrest⟩ := accepted_listed_isPrefixOf hnames iterator directoryOffset
  rw [← hrest, List.head?_append_of_ne_nil _ (by rwa [Ne, List.map_eq_nil_iff])]

/-- The first traversal reports all entries exactly when the iterator does not end it. -/
theorem accepted_listed_eq_iff (hnames : ProperNames records)
    (iterator : List Ext2FsReport → Bool) :
    (accepted iterator [] (reportsFrom 0 records)).map Ext2FsReport.listed = listing records ↔
      RunsThrough records iterator := by
  have hlisted := reportsFrom_listed hnames.no_nul 0
  have hpre := accepted_isPrefixOf iterator [] (reportsFrom 0 records)
  have hlength : (reportsFrom 0 records).length = (listing records).length := by
    rw [← hlisted, List.length_map]
  have hself : accepted iterator [] (reportsFrom 0 records) = reportsFrom 0 records ↔ _ :=
    accepted_eq_self_iff
  simp only [List.nil_append] at hself
  rw [RunsThrough, ← hlength, ← hself]
  constructor
  · intro heq
    refine hpre.eq_of_length ?_
    rw [hlength, ← heq, List.length_map]
  · intro heq
    rw [heq, hlisted]

/-- **Which traversals go on where the last one ended.** The entries of a directory are reported in
order, each once before any is reported again, exactly when there is one traversal at most, or the
first one is not ended before the last entry. -/
theorem runTraversals_inOrder_iff (hdir : IsDirectory blockSize buffer size records)
    (hsize : size < wordCount) (hnames : ProperNames records)
    (iterators : List (List Ext2FsReport → Bool)) :
    (∃ next reports, runTraversals buffer size 0 iterators = .ok (next, reports) ∧
      InOrder records reports) ↔
    iterators.length ≤ 1 ∨ ∀ iterator ∈ iterators.head?, RunsThrough records iterator := by
  cases iterators with
  | nil =>
    exact iff_of_true ⟨0, [], rfl, inOrder_of_isPrefixOf (List.nil_prefix)⟩ (Or.inl (Nat.zero_le 1))
  | cons iterator rest =>
    obtain ⟨next, hcons⟩ := runTraversals_cons hdir hsize iterator rest 0
    obtain ⟨last, later, hrest⟩ := runTraversals_total hdir hsize rest next
    have hrun := hcons last later hrest
    have hpre := accepted_listed_isPrefixOf hnames iterator 0
    have hthrough := accepted_listed_eq_iff hnames iterator
    set first := accepted iterator [] (reportsFrom 0 records) with hfirst
    have hall : (∃ next reports, runTraversals buffer size 0 (iterator :: rest) =
        .ok (next, reports) ∧ InOrder records reports) ↔ InOrder records (first ++ later) := by
      rw [hrun]
      constructor
      · rintro ⟨_, _, ⟨⟩, horder⟩
        exact horder
      · exact fun horder => ⟨last, _, rfl, horder⟩
    rw [hall, List.head?_cons]
    simp only [Option.mem_some_iff, forall_eq']
    cases rest with
    | nil =>
      obtain ⟨rfl, rfl⟩ : next = last ∧ [] = later := by
        injection hrest with hpair
        exact Prod.mk.inj hpair
      rw [List.append_nil]
      exact iff_of_true (inOrder_of_isPrefixOf hpre) (Or.inl le_rfl)
    | cons second rest =>
      rw [← hthrough, List.length_cons, List.length_cons, or_iff_right (by omega)]
      refine ⟨fun horder => ?_, fun heq => inOrder_append_of_eq heq later⟩
      by_contra hpart
      obtain ⟨again, hsecond⟩ := runTraversals_cons hdir hsize second rest next
      obtain ⟨last', later', hrest'⟩ := runTraversals_total hdir hsize rest again
      obtain ⟨rfl, rfl⟩ : last' = last ∧ _ ++ later' = later := by
        have hboth := (hsecond last' later' hrest').symm.trans hrest
        injection hboth with hpair
        exact Prod.mk.inj hpair
      have hlt : first.length < (listing records).length := by
        rw [← List.length_map (f := Ext2FsReport.listed)]
        exact lt_of_le_of_ne hpre.length_le fun heq => hpart (hpre.eq_of_length heq)
      have hne : listing records ≠ [] := List.length_pos_iff.mp (Nat.zero_lt_of_lt hlt)
      obtain ⟨hany, hhead⟩ := accepted_head? hnames hne second next
      refine not_inOrder_append hnames (accepted_head? hnames hne iterator 0).1 hlt ?_ horder
      rw [List.map_append, List.head?_append_of_ne_nil _ (by rwa [Ne, List.map_eq_nil_iff]), hhead]

/-- A directory of one block with three records: `a`, one that was deleted, and `b`, whose record
reaches to the end of the block. -/
def twoEntries (offset : ℕ) : UInt8 :=
  [11, 0, 0, 0, 12, 0, 1, 1, 0x61, 0, 0, 0,
    0, 0, 0, 0, 12, 0, 1, 1, 0x63, 0, 0, 0,
    12, 0, 0, 0, 0xe8, 0x03, 1, 2, 0x62, 0, 0, 0].getD offset 0

/-- The records of `twoEntries`. -/
def twoRecords : List Ext2FsDirectoryEntry :=
  [⟨11, 12, 1, 1, [0x61]⟩, ⟨0, 12, 1, 1, [0x63]⟩, ⟨12, 1000, 1, 2, [0x62]⟩]

theorem twoEntries_read : read twoEntries 0 = ⟨11, 12, 1, 1, [0x61]⟩ ∧
    read twoEntries 12 = ⟨0, 12, 1, 1, [0x63]⟩ ∧
    read twoEntries 24 = ⟨12, 1000, 1, 2, [0x62]⟩ := by
  decide

theorem twoEntries_isDirectory : IsDirectory 1024 twoEntries 1024 twoRecords := by
  obtain ⟨hfirst, hsecond, hthird⟩ := twoEntries_read
  refine ⟨rfl, Tiles.cons_iff.mpr ⟨hfirst, by decide, ⟨by decide, by decide, by decide⟩, ?_⟩⟩
  refine Tiles.cons_iff.mpr ⟨hsecond, by decide, ⟨by decide, by decide, by decide⟩, ?_⟩
  exact Tiles.cons_iff.mpr ⟨hthird, by decide, ⟨by decide, by decide, by decide⟩, Tiles.nil 1024⟩

theorem twoEntries_properNames : ProperNames twoRecords :=
  ⟨by decide, by decide⟩

/-- A traversal that is not ended, and one that goes on behind it. -/
theorem runTraversals_inOrder_twoEntries :
    ∃ next reports, runTraversals twoEntries 1024 0 [fun _ => true, fun _ => false] =
      .ok (next, reports) ∧ InOrder twoRecords reports :=
  (runTraversals_inOrder_iff twoEntries_isDirectory (by decide) twoEntries_properNames _).mpr
    (Or.inr (by rintro _ ⟨⟩ k - -; rfl))

/-- Two traversals that are ended after one entry report the first one twice. -/
theorem not_inOrder_twoEntries :
    ¬ ∃ next reports, runTraversals twoEntries 1024 0 [fun _ => false, fun _ => false] =
      .ok (next, reports) ∧ InOrder twoRecords reports := by
  have hrun : runTraversals twoEntries 1024 0 [fun _ => false, fun _ => false] =
      .ok (2, [⟨[0x61], 0, 11, 8⟩, ⟨[0x61], 1, 11, 8⟩]) := by
    decide +kernel
  rintro ⟨next, reports, hsome, horder⟩
  rw [hrun] at hsome
  cases hsome
  rw [InOrder] at horder
  exact absurd horder (by decide)

end Ext2FsINode

/-! ## Lookup -/

/-- What an inode among the children is known by. -/
structure Ext2FsChild where
  name : List UInt8
  ino : UInt32
  deriving DecidableEq

/-- The map of the children by name, `UnorderedMap`. -/
structure Ext2FsChildren (C : Type*) where
  empty : C
  insert : C → List UInt8 → Ext2FsChild → C
  toList : C → List (List UInt8 × Ext2FsChild)

namespace Ext2FsChildren

variable {C : Type*} (map : Ext2FsChildren C)

/-- A map has one child for a name, the last one that was inserted. The order is not known. -/
structure Lawful : Prop where
  toList_empty : map.toList map.empty = []
  mem_insert : ∀ children name child e, e ∈ map.toList (map.insert children name child) ↔
    e = (name, child) ∨ e ∈ map.toList children ∧ e.1 ≠ name

/-- `InsertChild` for each of the entries. -/
def insertAll (children : C) (entries : List (List UInt8 × UInt32 × ℕ)) : C :=
  entries.foldl (fun children e => map.insert children e.1 ⟨e.1, e.2.1⟩) children

end Ext2FsChildren

/-- The members of a directory that traversals and lookups change. -/
structure Ext2FsListing (C : Type*) where
  directoryOffset : ℕ
  children : C

namespace Ext2FsINode

variable {C : Type*} (map : Ext2FsChildren C) (buffer : ℕ → UInt8) (size : ℕ)

/-- `TraverseDirectories`, which inserts the entries that it reports. -/
def traverseChildren (iterator : List Ext2FsReport → Bool) (s : Ext2FsListing C) :
    Except ScanFault (Ext2FsListing C) :=
  (traverseDirectories buffer size iterator s.directoryOffset).map fun (next, reports) =>
    ⟨next, map.insertAll s.children (reports.map Ext2FsReport.listed)⟩

/-- The iterator of `Lookup`. -/
def untilName (name : List UInt8) (reports : List Ext2FsReport) : Bool :=
  reports.getLast?.all fun report => report.name ≠ name

/-- `Lookup`, with the child that the directory entry is bound to. `none` stands for `ENOENT`. -/
def lookup (name : List UInt8) (s : Ext2FsListing C) :
    Except ScanFault (Option Ext2FsChild × Ext2FsListing C) :=
  (traverseChildren map buffer size (untilName name) s).map fun s =>
    (((map.toList s.children).find? fun e => e.1 = e.2.name).map Prod.snd, s)

/-- What traversals and lookups leave. -/
inductive Reachable : Ext2FsListing C → Prop
  | start : Reachable ⟨0, map.empty⟩
  | traverse {s s' : Ext2FsListing C} {iterator : List Ext2FsReport → Bool} (hs : Reachable s)
      (h : traverseChildren map buffer size iterator s = .ok s') : Reachable s'
  | lookup {s s' : Ext2FsListing C} {name : List UInt8} {found : Option Ext2FsChild}
      (hs : Reachable s) (h : lookup map buffer size name s = .ok (found, s')) : Reachable s'

end Ext2FsINode

namespace Ext2FsDirectoryEntry

/-- The child of the live entry with a name. -/
def childOf (records : List Ext2FsDirectoryEntry) (name : List UInt8) : Option Ext2FsChild :=
  ((listing records).find? fun e => e.1 = name).map fun e => ⟨e.1, e.2.1⟩

/-- The entries up to the first one with a name. -/
def upTo (name : List UInt8) :
    List (List UInt8 × UInt32 × ℕ) → List (List UInt8 × UInt32 × ℕ)
  | [] => []
  | e :: rest => if e.1 = name then [e] else e :: upTo name rest

theorem upTo_isPrefixOf (name : List UInt8) (l : List (List UInt8 × UInt32 × ℕ)) :
    upTo name l <+: l := by
  induction l with
  | nil => exact List.prefix_rfl
  | cons e rest ih =>
    rw [upTo]
    split
    · exact List.prefix_append [e] rest
    · exact List.cons_prefix_cons.mpr ⟨rfl, ih⟩

theorem upTo_ne_nil {name : List UInt8} {l : List (List UInt8 × UInt32 × ℕ)} (h : l ≠ []) :
    upTo name l ≠ [] := by
  cases l with
  | nil => exact absurd rfl h
  | cons e rest =>
    rw [upTo]
    split <;> exact List.cons_ne_nil _ _

/-- The iterator of `Lookup` ends the traversal at the name. -/
theorem accepted_untilName (name : List UInt8) (reports l : List Ext2FsReport) :
    (accepted (Ext2FsINode.untilName name) reports l).map Ext2FsReport.listed =
      upTo name (l.map Ext2FsReport.listed) := by
  induction l generalizing reports with
  | nil => rfl
  | cons report rest ih =>
    have hlast : Ext2FsINode.untilName name (reports ++ [report]) =
        decide (report.name ≠ name) := by
      rw [Ext2FsINode.untilName, List.getLast?_concat]
      rfl
    rw [accepted, hlast, List.map_cons, upTo]
    by_cases hname : report.name = name
    · rw [if_neg (by simpa using hname), if_pos (by exact hname)]
      rfl
    · rw [if_pos (by simpa using hname), if_neg (by exact hname), List.map_cons, ih]

theorem childOf_eq_some {records : List Ext2FsDirectoryEntry} {name : List UInt8}
    {child : Ext2FsChild} (h : childOf records name = some child) : child.name = name := by
  obtain ⟨e, he, rfl⟩ := Option.map_eq_some_iff.mp h
  simpa using List.find?_some he

theorem childOf_of_mem {records : List Ext2FsDirectoryEntry} (hnames : ProperNames records)
    {e : List UInt8 × UInt32 × ℕ} (he : e ∈ listing records) :
    childOf records e.1 = some ⟨e.1, e.2.1⟩ := by
  have hfound : ((listing records).find? fun e' => e'.1 = e.1).isSome := by
    rw [List.find?_isSome]
    exact ⟨e, he, decide_eq_true rfl⟩
  obtain ⟨e', he'⟩ := Option.isSome_iff_exists.mp hfound
  obtain rfl : e' = e := List.inj_on_of_nodup_map hnames.distinct (List.mem_of_find?_eq_some he')
    he (by simpa using List.find?_some he')
  rw [childOf, he']
  rfl

end Ext2FsDirectoryEntry

namespace Ext2FsINode

open Ext2FsDirectoryEntry

variable {C : Type*} {map : Ext2FsChildren C} {buffer : ℕ → UInt8} {blockSize size : ℕ}
  {records : List Ext2FsDirectoryEntry} {s : Ext2FsListing C}

/-- The children are live entries of the directory, under their names. -/
def Cached (map : Ext2FsChildren C) (records : List Ext2FsDirectoryEntry) (children : C) : Prop :=
  ∀ e ∈ map.toList children, e.2.name = e.1 ∧ ∃ type, (e.1, e.2.ino, type) ∈ listing records

theorem Cached.insertAll (hmap : map.Lawful) {children : C}
    (h : Cached map records children) {entries : List (List UInt8 × UInt32 × ℕ)}
    (hentries : ∀ e ∈ entries, e ∈ listing records) :
    Cached map records (map.insertAll children entries) := by
  induction entries generalizing children with
  | nil => exact h
  | cons e entries ih =>
    obtain ⟨he, hentries⟩ := List.forall_mem_cons.mp hentries
    refine ih (fun e' he' => ?_) hentries
    rcases (hmap.mem_insert _ _ _ _).mp he' with rfl | ⟨hold, -⟩
    · exact ⟨rfl, e.2.2, he⟩
    · exact h e' hold

theorem insertAll_ne_nil (hmap : map.Lawful) {children : C}
    {entries : List (List UInt8 × UInt32 × ℕ)}
    (h : map.toList children ≠ [] ∨ entries ≠ []) :
    map.toList (map.insertAll children entries) ≠ [] := by
  induction entries generalizing children with
  | nil => exact h.resolve_right fun hne => hne rfl
  | cons e entries ih =>
    exact ih (Or.inl (List.ne_nil_of_mem ((hmap.mem_insert _ _ _ _).mpr (Or.inl rfl))))

/-- A traversal inserts live entries. -/
theorem traverseChildren_eq (hdir : IsDirectory blockSize buffer size records)
    (hsize : size < wordCount) (iterator : List Ext2FsReport → Bool) (s : Ext2FsListing C) :
    ∃ next, traverseChildren map buffer size iterator s = .ok ⟨next, map.insertAll s.children
      ((accepted iterator [] (reportsFrom s.directoryOffset records)).map
        Ext2FsReport.listed)⟩ := by
  obtain ⟨next, hnext⟩ := traverseDirectories_eq hdir hsize iterator s.directoryOffset
  exact ⟨next, by rw [traverseChildren, hnext]; rfl⟩

theorem Cached.traverseChildren (hmap : map.Lawful)
    (hdir : IsDirectory blockSize buffer size records) (hsize : size < wordCount)
    (hnames : ProperNames records) {iterator : List Ext2FsReport → Bool}
    {s s' : Ext2FsListing C} (h : Cached map records s.children)
    (hrun : traverseChildren map buffer size iterator s = .ok s') :
    Cached map records s'.children := by
  obtain ⟨next, hnext⟩ := traverseChildren_eq hdir hsize iterator s
  cases hnext.symm.trans hrun
  exact h.insertAll hmap fun e he =>
    (accepted_listed_isPrefixOf hnames iterator s.directoryOffset).subset he

theorem Reachable.cached (hmap : map.Lawful) (hdir : IsDirectory blockSize buffer size records)
    (hsize : size < wordCount) (hnames : ProperNames records)
    (h : Reachable map buffer size s) : Cached map records s.children := by
  induction h with
  | start =>
    intro e he
    rw [hmap.toList_empty] at he
    exact absurd he List.not_mem_nil
  | traverse hs hrun ih => exact ih.traverseChildren hmap hdir hsize hnames hrun
  | lookup hs hrun ih =>
    rename_i s s' name found
    rw [Ext2FsINode.lookup] at hrun
    cases hfirst : Ext2FsINode.traverseChildren map buffer size (untilName name) s with
    | error fault =>
      rw [hfirst] at hrun
      cases hrun
    | ok s₁ =>
      rw [hfirst] at hrun
      cases hrun
      exact ih.traverseChildren hmap hdir hsize hnames hfirst

/-- `Lookup` takes the first of the children. -/
theorem lookup_eq (hmap : map.Lawful) (hdir : IsDirectory blockSize buffer size records)
    (hsize : size < wordCount) (hnames : ProperNames records)
    (h : Cached map records s.children) (name : List UInt8) :
    ∃ next, lookup map buffer size name s =
      .ok ((map.toList (map.insertAll s.children (upTo name (listing records)))).head?.map
          Prod.snd, ⟨next, map.insertAll s.children (upTo name (listing records))⟩) := by
  obtain ⟨next, hnext⟩ : ∃ next, traverseChildren map buffer size (untilName name) s = _ :=
    traverseChildren_eq hdir hsize (untilName name) s
  rw [accepted_untilName, reportsFrom_listed hnames.no_nul] at hnext
  have hcached := h.insertAll hmap (upTo_isPrefixOf name (listing records)).subset
  refine ⟨next, ?_⟩
  rw [lookup, hnext]
  simp only [Except.map]
  congr 3
  cases hlist : map.toList (map.insertAll s.children (upTo name (listing records))) with
  | nil => rfl
  | cons e rest =>
    obtain ⟨hname, -⟩ := hcached e (by rw [hlist]; exact List.mem_cons_self)
    rw [List.head?_cons]
    exact List.find?_cons_of_pos (by simpa using hname.symm)

/-- **Which lookups are right.** `Lookup` finds the child of the entry with the name, and none where
there is no such entry, exactly when the directory has no live entries, or that child is the first
one of those cached before and the entries up to the name. -/
theorem lookup_finds_iff (hmap : map.Lawful) (hdir : IsDirectory blockSize buffer size records)
    (hsize : size < wordCount) (hnames : ProperNames records)
    (hs : Reachable map buffer size s) (name : List UInt8) :
    (∃ s', lookup map buffer size name s = .ok (childOf records name, s')) ↔
      listing records = [] ∨ (map.toList (map.insertAll s.children
        (upTo name (listing records)))).head?.map Prod.fst = some name := by
  have hcached := hs.cached hmap hdir hsize hnames
  obtain ⟨next, hlookup⟩ := lookup_eq hmap hdir hsize hnames hcached name
  have hafter := hcached.insertAll hmap (upTo_isPrefixOf name (listing records)).subset
  set children := map.insertAll s.children (upTo name (listing records)) with hchildren
  have hresult : (∃ s', lookup map buffer size name s = .ok (childOf records name, s')) ↔
      (map.toList children).head?.map Prod.snd = childOf records name := by
    rw [hlookup]
    constructor
    · rintro ⟨s', hs'⟩
      exact congrArg Prod.fst (Except.ok.inj hs')
    · exact fun heq => ⟨_, by rw [heq]⟩
  rw [hresult]
  by_cases hempty : listing records = []
  · have hnone : map.toList children = [] := by
      refine List.eq_nil_iff_forall_not_mem.mpr fun e he => ?_
      obtain ⟨-, type, hmem⟩ := hafter e he
      rw [hempty] at hmem
      exact List.not_mem_nil hmem
    rw [hnone, childOf, hempty]
    exact iff_of_true rfl (Or.inl rfl)
  · have hany : map.toList children ≠ [] :=
      insertAll_ne_nil hmap (Or.inr (upTo_ne_nil hempty))
    obtain ⟨e, rest, hlist⟩ := List.exists_cons_of_ne_nil hany
    obtain ⟨hname, type, hmem⟩ := hafter e (by rw [hlist]; exact List.mem_cons_self)
    rw [hlist, List.head?_cons, Option.map_some, Option.map_some, Option.some_inj,
      or_iff_right hempty]
    constructor
    · exact fun heq => hname.symm.trans (childOf_eq_some heq.symm)
    · rintro rfl
      rw [childOf_of_mem hnames hmem, ← hname]

/-- A map that has the last child that was inserted at its end. -/
def assocChildren : Ext2FsChildren (List (List UInt8 × Ext2FsChild)) where
  empty := []
  insert children name child := children.filter (fun e => e.1 ≠ name) ++ [(name, child)]
  toList children := children

theorem assocChildren_lawful : assocChildren.Lawful := by
  refine ⟨rfl, fun children name child e => ?_⟩
  simp only [assocChildren, List.mem_append, List.mem_filter, List.mem_singleton,
    decide_eq_true_eq, ne_eq]
  exact or_comm

/-- The first entry of a directory is found. -/
theorem lookup_finds_twoEntries :
    ∃ s', lookup assocChildren twoEntries 1024 [0x61] ⟨0, []⟩ =
      .ok (childOf twoRecords [0x61], s') :=
  (lookup_finds_iff assocChildren_lawful twoEntries_isDirectory (by decide)
    twoEntries_properNames .start [0x61]).mpr (Or.inr (by decide))

/-- The last one is not: the directory entry `b` is bound to the inode of `a`. -/
theorem not_finds_twoEntries :
    ¬ ∃ s', lookup assocChildren twoEntries 1024 [0x62] ⟨0, []⟩ =
      .ok (childOf twoRecords [0x62], s') := by
  have hrun : (lookup assocChildren twoEntries 1024 [0x62] ⟨0, []⟩).map Prod.fst =
      .ok (some ⟨[0x61], 11⟩) := by
    decide +kernel
  rintro ⟨s', hs'⟩
  rw [hs'] at hrun
  have hfound : childOf twoRecords [0x62] = some ⟨[0x61], 11⟩ := Except.ok.inj hrun
  exact absurd hfound (by decide)

end Ext2FsINode

end Cryptix.VFS
