import Mathlib.Algebra.Group.Int.Defs
import Cryptix.Lib.Transition
import Cryptix.Prism

/-!
# The offset of a file descriptor

`Read`, `Write` and `Seek` of `Kernel/VFS/FileDescriptor.cpp`, with the calls `PRead` and `PWrite`
of `Kernel/API/VFS.cpp`. All of them share `m_Offset`. `Read` and `Write` go on from where they were
asked to start and put the result into `m_Offset`, also when that was an explicit offset, and take a
failure of the file for a count of zero. A run keeps the offset right exactly when no call does
either (`lawful_along_iff`).

A descriptor that is read has a file. What the file does is part of a call.
-/

namespace Cryptix.VFS.FileOffset

open Lib

/-- A `File` at the time of a call. What `Read` and `Write` return depends on the count and on the
offset. -/
structure File where
  isDirectory : Bool
  isSocket : Bool
  isFifo : Bool
  size : ℕ
  read : ℕ → ℤ → Except Errno ℤ
  write : ℕ → ℤ → Except Errno ℤ

/-- The fields of a `FileDescriptor` that the calls look at. -/
structure FileDescriptor where
  canRead : Bool
  canWrite : Bool
  offset : ℕ
  deriving DecidableEq, Repr

/-- `NumericLimits<off_t>::Max()`. -/
def offMax : ℕ := 2 ^ 63 - 1

namespace FileDescriptor

/-- The part of `Read` and `Write` behind their checks: the file transfers bytes from the offset
on. A negative offset stands for the current one. -/
def transfer (fd : FileDescriptor) (file : ℕ → ℤ → Except Errno ℤ) (count : ℕ) (offset : ℤ) :
    Except Errno ℤ × FileDescriptor :=
  let offset := if offset < 0 then toISize fd.offset else offset
  let bytes := (file count offset).toOption.getD 0
  (.ok bytes, { fd with offset := toUSize (offset + bytes) })

/-- `FileDescriptor::Read`. -/
def read (fd : FileDescriptor) (file : File) (count : ℕ) (offset : ℤ) :
    Except Errno ℤ × FileDescriptor :=
  if !fd.canRead then (.error .EBADF, fd)
  else if file.isDirectory then (.error .EISDIR, fd)
  else fd.transfer file.read count offset

/-- `FileDescriptor::Write`. -/
def write (fd : FileDescriptor) (file : File) (count : ℕ) (offset : ℤ) :
    Except Errno ℤ × FileDescriptor :=
  if !fd.canWrite then (.error .EBADF, fd)
  else fd.transfer file.write count offset

/-- `FileDescriptor::Seek`. `IsPipe` is always false. -/
def seek (fd : FileDescriptor) (file : File) (whence offset : ℤ) :
    Except Errno ℤ × FileDescriptor :=
  if file.isSocket || file.isFifo then (.error .ESPIPE, fd)
  else if whence = 0 then
    if offset < 0 then (.error .EINVAL, fd)
    else (.ok (toISize (toUSize offset)), { fd with offset := toUSize offset })
  else if whence = 1 then
    let newOffset := toISize (toUSize (fd.offset + offset))
    if newOffset ≥ offMax then (.error .EOVERFLOW, fd)
    else if newOffset < 0 then (.error .EINVAL, fd)
    else (.ok (toISize (toUSize (fd.offset + offset))),
      { fd with offset := toUSize (fd.offset + offset) })
  else if whence = 2 then
    if (fd.offset + file.size) % wordCount > offMax then (.error .EOVERFLOW, fd)
    else (.ok (toISize (toUSize (file.size + offset))),
      { fd with offset := toUSize (file.size + offset) })
  else (.error .EINVAL, fd)

end FileDescriptor

/-- The calls on a descriptor, each with what the check of the caller's buffer fails with and the
file as it is then. -/
inductive Call
  | read (buffer : Option Errno) (file : File) (count : ℕ)
  | write (buffer : Option Errno) (file : File) (count : ℕ)
  | pread (buffer : Option Errno) (file : File) (count : ℕ) (offset : ℤ)
  | pwrite (buffer : Option Errno) (file : File) (count : ℕ) (offset : ℤ)
  | seek (file : File) (whence offset : ℤ)

/-- A call with a buffer of the caller. -/
def withBuffer (fd : FileDescriptor) (buffer : Option Errno)
    (next : Except Errno ℤ × FileDescriptor) : Except Errno ℤ × FileDescriptor :=
  match buffer with
  | some code => (.error code, fd)
  | none => next

/-- What a call returns, and the descriptor after it. `Read` and `Write` without an offset hand the
current one on. -/
def Call.run (fd : FileDescriptor) : Call → Except Errno ℤ × FileDescriptor
  | read buffer file count => withBuffer fd buffer (fd.read file count (toISize fd.offset))
  | write buffer file count => withBuffer fd buffer (fd.write file count (toISize fd.offset))
  | pread buffer file count offset => withBuffer fd buffer (fd.read file count offset)
  | pwrite buffer file count offset => withBuffer fd buffer (fd.write file count offset)
  | seek file whence offset => fd.seek file whence offset

/-- The system takes one call after the other. -/
def step (fd : FileDescriptor) (call : Call) : Option FileDescriptor := some (call.run fd).2

/-! ## What the calls have to do -/

/-- The offset that a transfer starts at. -/
def startOf (fd : FileDescriptor) (offset : ℤ) : ℤ := if offset < 0 then fd.offset else offset

/-- What a transfer has to return and to leave: an error and the offset as it was, or the number of
bytes the file transferred. From the current offset on these are added to it. -/
def Transferred (fd : FileDescriptor) (file : ℕ → ℤ → Except Errno ℤ) (count : ℕ) (offset : ℤ)
    (r : Except Errno ℤ × FileDescriptor) : Prop :=
  match r.1 with
  | .error _ => r.2.offset = fd.offset
  | .ok n => file count (startOf fd offset) = .ok n ∧ 0 ≤ n ∧
      (r.2.offset : ℤ) = if offset < 0 then fd.offset + n else fd.offset

/-- What a seek has to return and to leave: an error and the offset as it was, or the offset that
was asked for. -/
def Sought (fd : FileDescriptor) (file : File) (whence offset : ℤ)
    (r : Except Errno ℤ × FileDescriptor) : Prop :=
  match r.1 with
  | .error _ => r.2.offset = fd.offset
  | .ok v => (r.2.offset : ℤ) = v ∧
      v = (if whence = 0 then 0 else if whence = 1 then (fd.offset : ℤ) else file.size) + offset

/-- A call does what it has to and leaves the offset in its range. -/
def Lawful (fd : FileDescriptor) (call : Call) : Prop :=
  (call.run fd).2.offset ≤ offMax ∧
    match call with
    | .read _ file count => Transferred fd file.read count (-1) (call.run fd)
    | .write _ file count => Transferred fd file.write count (-1) (call.run fd)
    | .pread _ file count offset => Transferred fd file.read count offset (call.run fd)
    | .pwrite _ file count offset => Transferred fd file.write count offset (call.run fd)
    | .seek file whence offset => Sought fd file whence offset (call.run fd)

/-- The counts a file returns are `isize`s. -/
def File.Fits (file : File) : Prop :=
  file.size < wordCount ∧
    (∀ count offset n, file.read count offset = .ok n → -2 ^ 63 ≤ n ∧ n < 2 ^ 63) ∧
      ∀ count offset n, file.write count offset = .ok n → -2 ^ 63 ≤ n ∧ n < 2 ^ 63

/-- The arguments of a call are an `off_t` and a file. -/
def Call.Fits : Call → Prop
  | read _ file _ | write _ file _ => file.Fits
  | pread _ file _ offset | pwrite _ file _ offset | seek file _ offset =>
    file.Fits ∧ -2 ^ 63 ≤ offset ∧ offset < 2 ^ 63

/-- The file transfers bytes and does not fail, and they end in the range of offsets or, for an
explicit offset, at the current one. -/
def TransferMeets (fd : FileDescriptor) (file : ℕ → ℤ → Except Errno ℤ) (count : ℕ) (offset : ℤ) :
    Prop :=
  ∃ n, file count (startOf fd offset) = .ok n ∧ 0 ≤ n ∧
    if offset < 0 then fd.offset + n ≤ offMax else offset + n = fd.offset

/-- A read or write is turned down before it gets to the file, or the transfer meets its condition;
a seek from the end that is not turned down ends in the range. -/
def Meets (fd : FileDescriptor) : Call → Prop
  | .read buffer file count => buffer ≠ none ∨ fd.canRead = false ∨ file.isDirectory = true ∨
      TransferMeets fd file.read count (-1)
  | .write buffer file count => buffer ≠ none ∨ fd.canWrite = false ∨
      TransferMeets fd file.write count (-1)
  | .pread buffer file count offset => buffer ≠ none ∨ fd.canRead = false ∨
      file.isDirectory = true ∨ TransferMeets fd file.read count offset
  | .pwrite buffer file count offset => buffer ≠ none ∨ fd.canWrite = false ∨
      TransferMeets fd file.write count offset
  | .seek file whence offset => whence = 2 → file.isSocket = false → file.isFifo = false →
      (fd.offset + file.size) % wordCount ≤ offMax →
        0 ≤ file.size + offset ∧ file.size + offset ≤ offMax

/-! ## When they do it -/

theorem toISize_of_le_offMax {n : ℕ} (h : n ≤ offMax) : toISize n = n :=
  toISize_of_lt (by rw [offMax] at h; rw [wordCount]; omega)

/-- The transfer from an offset, with the answer of the file. -/
theorem transfer_eq {fd : FileDescriptor} (hfd : fd.offset ≤ offMax)
    (file : ℕ → ℤ → Except Errno ℤ) (count : ℕ) (offset : ℤ) :
    fd.transfer file count offset =
      (.ok ((file count (startOf fd offset)).toOption.getD 0),
        ⟨fd.canRead, fd.canWrite,
          toUSize (startOf fd offset + (file count (startOf fd offset)).toOption.getD 0)⟩) := by
  rw [FileDescriptor.transfer, toISize_of_le_offMax hfd]
  rfl

theorem toUSize_of_nonneg {n : ℤ} (hn : 0 ≤ n) (hlt : n < 2 ^ 64) : (toUSize n : ℤ) = n := by
  rw [toUSize, wordCount]
  omega

/-- A transfer does what it has to exactly when the file transfers bytes to the right place. -/
theorem transferred_iff {fd : FileDescriptor} (hfd : fd.offset ≤ offMax)
    {file : ℕ → ℤ → Except Errno ℤ}
    (hfile : ∀ count offset n, file count offset = .ok n → -2 ^ 63 ≤ n ∧ n < 2 ^ 63) (count : ℕ)
    {offset : ℤ} (hoffset : offset < 2 ^ 63) :
    (fd.transfer file count offset).2.offset ≤ offMax ∧
        Transferred fd file count offset (fd.transfer file count offset) ↔
      TransferMeets fd file count offset := by
  rw [transfer_eq hfd, TransferMeets]
  cases hanswer : file count (startOf fd offset) with
  | error code => simp [Transferred, hanswer]
  | ok n =>
    obtain ⟨hlow, hhigh⟩ := hfile _ _ _ hanswer
    have hbound : (offMax : ℤ) = 2 ^ 63 - 1 := by decide
    simp only [Transferred, hanswer, Except.toOption, Option.getD_some, Except.ok.injEq, true_and,
      exists_eq_left']
    by_cases hneg : offset < 0
    · simp only [startOf, hneg, if_true]
      constructor
      · rintro ⟨hle, hpos, heq⟩
        exact ⟨hpos, by omega⟩
      · rintro ⟨hpos, hle⟩
        have hcast := toUSize_of_nonneg (n := fd.offset + n) (by omega) (by omega)
        exact ⟨by omega, hpos, hcast⟩
    · simp only [startOf, hneg, if_false]
      constructor
      · rintro ⟨hle, hpos, heq⟩
        have hcast := toUSize_of_nonneg (n := offset + n) (by omega) (by omega)
        exact ⟨hpos, by omega⟩
      · rintro ⟨hpos, heq⟩
        have hcast := toUSize_of_nonneg (n := offset + n) (by omega) (by omega)
        exact ⟨by omega, hpos, by omega⟩

theorem toISize_toUSize (n : ℤ) : toISize (toUSize n) = n.bmod (2 ^ 64) := by
  have hcast : (toUSize n : ℤ) = n % 2 ^ 64 := by
    rw [toUSize, wordCount]
    omega
  rw [toISize, hcast, wordCount]
  exact Int.emod_bmod n (2 ^ 64)

theorem toISize_toUSize_of_fits {n : ℤ} (hlow : -2 ^ 63 ≤ n) (hhigh : n < 2 ^ 63) :
    toISize (toUSize n) = n := by
  rw [toISize_toUSize]
  exact Int.bmod_eq_of_le_mul_two (by omega) (by omega)

/-- A sum behind the range wraps around to a negative number. -/
theorem toISize_toUSize_neg {n : ℤ} (hlow : 2 ^ 63 ≤ n) (hhigh : n < 2 ^ 64) :
    toISize (toUSize n) < 0 := by
  rw [toISize_toUSize, Int.bmod]
  split <;> omega

theorem sought_of_error {fd : FileDescriptor} (hfd : fd.offset ≤ offMax) (code : Errno)
    {file : File} {whence offset : ℤ} {r : Except Errno ℤ × FileDescriptor}
    (hr : r = (.error code, fd)) : r.2.offset ≤ offMax ∧ Sought fd file whence offset r := by
  subst hr
  exact ⟨hfd, rfl⟩

/-- A seek to a place in the range. -/
theorem sought_of_ok {fd : FileDescriptor} {file : File} {whence offset : ℤ} (target : ℤ)
    (htarget : target =
      (if whence = 0 then 0 else if whence = 1 then (fd.offset : ℤ) else file.size) + offset)
    (hpos : 0 ≤ target) (hle : target ≤ offMax) {r : Except Errno ℤ × FileDescriptor}
    (hr : r = (.ok (toISize (toUSize target)), { fd with offset := toUSize target })) :
    r.2.offset ≤ offMax ∧ Sought fd file whence offset r := by
  have hbound : (offMax : ℤ) = 2 ^ 63 - 1 := by decide
  have hcast := toUSize_of_nonneg hpos (by omega)
  have hword := toISize_toUSize_of_fits (n := target) (by omega) (by omega)
  have hin : toUSize target ≤ offMax := by omega
  subst hr
  exact ⟨hin, by rw [hword]; exact hcast, by rw [hword]; exact htarget⟩

/-- A seek from the current offset never leaves the range: the sum of two numbers that fit wraps
around to a negative one. -/
theorem sought_cur {fd : FileDescriptor} (hfd : fd.offset ≤ offMax) {file : File} {offset : ℤ}
    (hlow : -2 ^ 63 ≤ offset) (hhigh : offset < 2 ^ 63)
    (hfile : (file.isSocket || file.isFifo) = false) :
    (fd.seek file 1 offset).2.offset ≤ offMax ∧
      Sought fd file 1 offset (fd.seek file 1 offset) := by
  have hbound : (offMax : ℤ) = 2 ^ 63 - 1 := by decide
  by_cases hbig : toISize (toUSize (fd.offset + offset)) ≥ offMax
  · apply sought_of_error hfd .EOVERFLOW
    simp [FileDescriptor.seek, hfile, hbig]
  · by_cases hneg : toISize (toUSize (fd.offset + offset)) < 0
    · apply sought_of_error hfd .EINVAL
      simp [FileDescriptor.seek, hfile, hneg]
      omega
    · have hlt : (fd.offset : ℤ) + offset < 2 ^ 63 := by
        by_contra hge
        exact hneg (toISize_toUSize_neg (by omega) (by omega))
      have hword := toISize_toUSize_of_fits (n := fd.offset + offset) (by omega) hlt
      rw [hword] at hbig hneg
      apply sought_of_ok (fd.offset + offset) rfl (by omega) (by omega)
      simp [FileDescriptor.seek, hfile, hword, hbig, hneg]

/-- A seek from the end is only right if it ends in the range. -/
theorem sought_end_iff {fd : FileDescriptor} {file : File} {offset : ℤ}
    (hfile : (file.isSocket || file.isFifo) = false)
    (hin : (fd.offset + file.size) % wordCount ≤ offMax) :
    (fd.seek file 2 offset).2.offset ≤ offMax ∧
        Sought fd file 2 offset (fd.seek file 2 offset) ↔
      0 ≤ file.size + offset ∧ file.size + offset ≤ offMax := by
  have hbound : (offMax : ℤ) = 2 ^ 63 - 1 := by decide
  have hseek : fd.seek file 2 offset = (.ok (toISize (toUSize (file.size + offset))),
      { fd with offset := toUSize (file.size + offset) }) := by
    simp [FileDescriptor.seek, hfile, Nat.not_lt.mpr hin]
  constructor
  · rw [hseek]
    intro h
    have hle : toUSize (file.size + offset) ≤ offMax := h.1
    have heq : (toUSize (file.size + offset) : ℤ) = toISize (toUSize (file.size + offset)) := h.2.1
    have htarget : toISize (toUSize (file.size + offset)) = file.size + offset := by
      simpa using h.2.2
    omega
  · rintro ⟨hpos, hle⟩
    exact sought_of_ok _ rfl hpos hle hseek

theorem sought_iff {fd : FileDescriptor} (hfd : fd.offset ≤ offMax) {file : File}
    {whence offset : ℤ} (hfits : (Call.seek file whence offset).Fits) :
    Lawful fd (.seek file whence offset) ↔ Meets fd (.seek file whence offset) := by
  obtain ⟨-, hlow, hhigh⟩ := hfits
  have hbound : (offMax : ℤ) = 2 ^ 63 - 1 := by decide
  rw [Lawful, Meets, Call.run]
  cases hfile : file.isSocket || file.isFifo with
  | true =>
    refine iff_of_true (sought_of_error hfd .ESPIPE (by rw [FileDescriptor.seek, if_pos hfile])) ?_
    intro _ hsocket hfifo
    simp [hsocket, hfifo] at hfile
  | false =>
    have hneither := Bool.or_eq_false_iff.mp hfile
    by_cases hset : whence = 0
    · refine iff_of_true ?_ fun h => by omega
      subst hset
      by_cases hneg : offset < 0
      · apply sought_of_error hfd .EINVAL
        simp [FileDescriptor.seek, hfile, hneg]
      · apply sought_of_ok offset (by simp) (by omega) (by omega)
        simp [FileDescriptor.seek, hfile, hneg]
    · by_cases hcur : whence = 1
      · subst hcur
        exact iff_of_true (sought_cur hfd hlow hhigh hfile) fun h => by omega
      · by_cases hend : whence = 2
        · subst hend
          by_cases hin : (fd.offset + file.size) % wordCount ≤ offMax
          · rw [sought_end_iff hfile hin]
            simp [hneither, hin]
          · refine iff_of_true ?_ fun _ _ _ h => absurd h hin
            apply sought_of_error hfd .EOVERFLOW
            simp [FileDescriptor.seek, hfile, Nat.not_le.mp hin]
        · refine iff_of_true ?_ fun h => absurd h hend
          apply sought_of_error hfd .EINVAL
          simp [FileDescriptor.seek, hfile, hset, hcur, hend]

/-- What is turned down before it gets to the file leaves the offset alone. -/
theorem lawful_of_refused {fd : FileDescriptor} (hfd : fd.offset ≤ offMax) (code : Errno)
    {file : ℕ → ℤ → Except Errno ℤ} {count : ℕ} {offset : ℤ}
    {r : Except Errno ℤ × FileDescriptor} (hr : r = (.error code, fd)) :
    r.2.offset ≤ offMax ∧ Transferred fd file count offset r := by
  subst hr
  exact ⟨hfd, rfl⟩

theorem read_iff {fd : FileDescriptor} (hfd : fd.offset ≤ offMax) {file : File} (hfile : file.Fits)
    (buffer : Option Errno) (count : ℕ) {offset : ℤ} (hoffset : offset < 2 ^ 63) :
    (withBuffer fd buffer (fd.read file count offset)).2.offset ≤ offMax ∧
        Transferred fd file.read count offset (withBuffer fd buffer (fd.read file count offset)) ↔
      buffer ≠ none ∨ fd.canRead = false ∨ file.isDirectory = true ∨
        TransferMeets fd file.read count offset := by
  cases buffer with
  | some code => exact iff_of_true (lawful_of_refused hfd code rfl) (.inl (by simp))
  | none =>
    cases hcan : fd.canRead with
    | false =>
      refine iff_of_true (lawful_of_refused hfd .EBADF ?_) (.inr (.inl rfl))
      simp [withBuffer, FileDescriptor.read, hcan]
    | true =>
      cases hdir : file.isDirectory with
      | true =>
        refine iff_of_true (lawful_of_refused hfd .EISDIR ?_) (by simp)
        simp [withBuffer, FileDescriptor.read, hcan, hdir]
      | false =>
        have hrun : withBuffer fd none (fd.read file count offset)
            = fd.transfer file.read count offset := by
          simp [withBuffer, FileDescriptor.read, hcan, hdir]
        rw [hrun, transferred_iff hfd hfile.2.1 count hoffset]
        simp

theorem write_iff {fd : FileDescriptor} (hfd : fd.offset ≤ offMax) {file : File}
    (hfile : file.Fits) (buffer : Option Errno) (count : ℕ) {offset : ℤ}
    (hoffset : offset < 2 ^ 63) :
    (withBuffer fd buffer (fd.write file count offset)).2.offset ≤ offMax ∧
        Transferred fd file.write count offset (withBuffer fd buffer (fd.write file count offset)) ↔
      buffer ≠ none ∨ fd.canWrite = false ∨ TransferMeets fd file.write count offset := by
  cases buffer with
  | some code => exact iff_of_true (lawful_of_refused hfd code rfl) (.inl (by simp))
  | none =>
    cases hcan : fd.canWrite with
    | false =>
      refine iff_of_true (lawful_of_refused hfd .EBADF ?_) (.inr (.inl rfl))
      simp [withBuffer, FileDescriptor.write, hcan]
    | true =>
      have hrun : withBuffer fd none (fd.write file count offset)
          = fd.transfer file.write count offset := by
        simp [withBuffer, FileDescriptor.write, hcan]
      rw [hrun, transferred_iff hfd hfile.2.2 count hoffset]
      simp

/-- The offset that `Read` and `Write` hand on is the one that a negative offset stands for. -/
theorem transfer_current {fd : FileDescriptor} (hfd : fd.offset ≤ offMax)
    (file : ℕ → ℤ → Except Errno ℤ) (count : ℕ) :
    fd.transfer file count (toISize fd.offset) = fd.transfer file count (-1) := by
  rw [transfer_eq hfd, transfer_eq hfd, toISize_of_le_offMax hfd]
  simp [startOf]

theorem lawful_iff {fd : FileDescriptor} (hfd : fd.offset ≤ offMax) {call : Call}
    (hfits : call.Fits) : Lawful fd call ↔ Meets fd call := by
  cases call with
  | read buffer file count =>
    rw [Lawful, Call.run, FileDescriptor.read, transfer_current hfd]
    exact read_iff hfd hfits buffer count (by decide)
  | write buffer file count =>
    rw [Lawful, Call.run, FileDescriptor.write, transfer_current hfd]
    exact write_iff hfd hfits buffer count (by decide)
  | pread buffer file count offset => exact read_iff hfd hfits.1 buffer count hfits.2.2
  | pwrite buffer file count offset => exact write_iff hfd hfits.1 buffer count hfits.2.2
  | seek file whence offset => exact sought_iff hfd hfits

/-- In every run of calls on a descriptor whose offset is in its range, every call does what it has
to and leaves the offset in the range exactly when every call meets its condition. -/
theorem lawful_along_iff {fd : FileDescriptor} (hfd : fd.offset ≤ offMax) {calls : List Call}
    (hfits : ∀ call ∈ calls, call.Fits) :
    Along step Lawful fd calls ↔ Along step Meets fd calls := by
  apply Along.congr (I := fun fd => fd.offset ≤ offMax) hfd (Along.of_mem hfits)
  · exact fun fd call hin hcall => lawful_iff hin hcall
  · intro fd call fd' hin hcall hmeets hstep
    obtain rfl := Option.some.inj hstep
    exact ((lawful_iff hin hcall).mpr hmeets).1

/-- A file of ten bytes that reads what there is and takes all that is written. -/
def tenBytes : File where
  isDirectory := false
  isSocket := false
  isFifo := false
  size := 10
  read count offset := .ok (if offset ≤ 10 then min (count % 2 ^ 63 : ℕ) (10 - max 0 offset) else 0)
  write count _ := .ok (count % 2 ^ 63 : ℕ)

theorem fits_tenBytes : tenBytes.Fits := by
  refine ⟨by decide, fun count offset n h => ?_, fun count offset n h => ?_⟩
  · have hn := Except.ok.inj h
    rw [← hn]
    split <;> omega
  · have hn := Except.ok.inj h
    omega

/-- The bytes are read, a seek goes back by four, and a seek in front of the file is turned down. -/
theorem lawful_along_tenBytes :
    Along step Lawful ⟨true, true, 0⟩
      [.read none tenBytes 8, .seek tenBytes 1 (-4), .write none tenBytes 3,
        .seek tenBytes 1 (-20), .seek tenBytes 2 5] := by
  refine (lawful_along_iff (by decide) ?_).mpr ?_
  · simp [Call.Fits, fits_tenBytes]
  · refine ⟨.inr (.inr (.inr ⟨8, by decide⟩)), fun fd hfd => ?_⟩
    obtain rfl := Option.some.inj hfd
    refine ⟨fun h => by omega, fun fd hfd => ?_⟩
    obtain rfl := Option.some.inj hfd
    refine ⟨.inr (.inr ⟨3, by decide⟩), fun fd hfd => ?_⟩
    obtain rfl := Option.some.inj hfd
    refine ⟨fun h => by omega, fun fd hfd => ?_⟩
    obtain rfl := Option.some.inj hfd
    exact ⟨fun _ _ _ _ => by decide, fun _ _ => trivial⟩

/-- After a read at an explicit offset, the offset is behind what was read there. -/
theorem not_lawful_pread :
    ¬Along step Lawful ⟨true, true, 2⟩ [.pread none tenBytes 3 5] := by
  rintro ⟨⟨-, -, -, hoffset⟩, -⟩
  revert hoffset
  decide

end Cryptix.VFS.FileOffset
