import Mathlib.Algebra.Group.Int.Defs
import Mathlib.Data.List.AList
import Cryptix.Lib.Transition
import Cryptix.Prism

/-!
# The file descriptor table of a process

`Kernel/VFS/FileDescriptorTable.cpp`. `Insert` takes descriptor numbers from two sources: the
number the caller desires, when it is not negative and not open, and otherwise the counter
`m_NextIndex`, which every `Insert` advances whether or not it was used. Nothing keeps the two
apart: a desired number at or above the counter is met again when the counter gets there, and
`Insert` then overwrites it.

`OpenStdioStreams` fills a new or cleared table with the terminal.
-/

namespace Cryptix.VFS

open Lib

/-- The value an `i32` holds after an assignment. -/
def wrap32 (n : ℤ) : ℤ := n.bmod (2 ^ 32)

/-- `FileDescriptorTable`: an unordered map from numbers to descriptors, and the counter. -/
structure FileDescriptorTable (δ : Type*) where
  table : AList fun _ : ℤ => δ
  nextIndex : ℤ

namespace FileDescriptorTable

variable {δ : Type*}

/-- The default constructor, and the state after `Clear`. -/
def empty : FileDescriptorTable δ := ⟨∅, 3⟩

/-- `GetFd`; `none` is the null reference. -/
def getFd (t : FileDescriptorTable δ) (fd : ℤ) : Option δ := t.table.lookup fd

/-- `IsValid`. -/
def isValid (t : FileDescriptorTable δ) (fd : ℤ) : Bool := (t.getFd fd).isSome

/-- The number `Insert` picks. -/
def pick (t : FileDescriptorTable δ) (desired : ℤ) : ℤ :=
  if 0 ≤ desired ∧ t.isValid desired = false then desired else t.nextIndex

/-- `FileDescriptorTable::Insert`: the number returned, and the table after. -/
def insert (t : FileDescriptorTable δ) (fd : δ) (desired : ℤ) : ℤ × FileDescriptorTable δ :=
  (t.pick desired, ⟨t.table.insert (t.pick desired) fd, wrap32 (t.nextIndex + 1)⟩)

/-- `FileDescriptorTable::Erase`: `none` is the return value -1 with `EBADF`. -/
def erase (t : FileDescriptorTable δ) (fdNum : ℤ) : Option Unit × FileDescriptorTable δ :=
  match t.getFd fdNum with
  | none => (none, t)
  | some _ => (some (), { t with table := t.table.erase fdNum })

theorem getFd_insert_pick (t : FileDescriptorTable δ) (fd : δ) (desired : ℤ) :
    (t.insert fd desired).2.getFd (t.pick desired) = some fd :=
  AList.lookup_insert _

theorem getFd_insert_of_ne (t : FileDescriptorTable δ) (fd : δ) {desired n : ℤ}
    (h : n ≠ t.pick desired) : (t.insert fd desired).2.getFd n = t.getFd n :=
  AList.lookup_insert_ne h

theorem getFd_erase_of_ne (t : FileDescriptorTable δ) {fdNum n : ℤ} (h : n ≠ fdNum) :
    (t.erase fdNum).2.getFd n = t.getFd n := by
  rw [erase]
  split
  · rfl
  · exact AList.lookup_erase_ne h

/-! ## Runs -/

/-- The calls that change a table. -/
inductive Call (δ : Type*)
  | insert (fd : δ) (desired : ℤ)
  | erase (fdNum : ℤ)

/-- One call. -/
def step (t : FileDescriptorTable δ) : Call δ → Option (FileDescriptorTable δ)
  | .insert fd desired => some (t.insert fd desired).2
  | .erase fdNum => some (t.erase fdNum).2

/-- A call leaves every open descriptor alone: `Insert` returns a number that was not open and
that now maps to the new descriptor, and no other number changes; `Erase` changes at most the
number it is given. -/
def KeepsDescriptors (t : FileDescriptorTable δ) : Call δ → Prop
  | .insert fd desired =>
    let (fdNum, t') := t.insert fd desired
    t.getFd fdNum = none ∧ t'.getFd fdNum = some fd ∧ ∀ n, n ≠ fdNum → t'.getFd n = t.getFd n
  | .erase fdNum => ∀ n, n ≠ fdNum → (t.erase fdNum).2.getFd n = t.getFd n

/-- The desired number of an `Insert` is free and not negative, or the number the counter stands at
is not open. -/
def CounterFree (t : FileDescriptorTable δ) : Call δ → Prop
  | .insert _ desired =>
    (0 ≤ desired ∧ t.isValid desired = false) ∨ t.isValid t.nextIndex = false
  | .erase _ => True

theorem isValid_eq_false {t : FileDescriptorTable δ} {n : ℤ} :
    t.isValid n = false ↔ t.getFd n = none := by
  rw [isValid, Option.isSome_eq_false_iff, Option.isNone_iff_eq_none]

/-- The number `Insert` picks is free exactly when the counter does not stand at an open number it
has to fall back on. -/
theorem getFd_pick_eq_none_iff (t : FileDescriptorTable δ) (fd : δ) (desired : ℤ) :
    t.getFd (t.pick desired) = none ↔ t.CounterFree (.insert fd desired) := by
  rw [CounterFree, pick]
  split
  · rename_i h
    exact iff_of_true (isValid_eq_false.mp h.2) (.inl h)
  · rename_i h
    rw [isValid_eq_false (n := t.nextIndex)]
    exact ⟨.inr, fun hor => hor.resolve_left h⟩

/-- A single call keeps the open descriptors exactly when it does not run into the counter. -/
theorem keepsDescriptors_iff (t : FileDescriptorTable δ) (call : Call δ) :
    t.KeepsDescriptors call ↔ t.CounterFree call := by
  cases call with
  | insert fd desired =>
    rw [← getFd_pick_eq_none_iff]
    exact ⟨And.left, fun h => ⟨h, getFd_insert_pick t fd desired,
      fun n hn => getFd_insert_of_ne t fd hn⟩⟩
  | erase fdNum => exact iff_of_true (fun n hn => getFd_erase_of_ne t hn) trivial

/-- In every run of `Insert` and `Erase` calls on a new table, no `Insert` replaces an open
descriptor, every number returned maps to the descriptor inserted and all other numbers keep
theirs, if and only if no `Insert` falls back on the counter while that number is open. -/
theorem keepsDescriptors_along_iff (calls : List (Call δ)) :
    Along step KeepsDescriptors (empty : FileDescriptorTable δ) calls ↔
      Along step CounterFree empty calls :=
  Along.congr (I := fun _ => True) trivial Along.anyCall
    (fun t call _ _ => keepsDescriptors_iff t call) fun _ _ _ _ _ _ _ => trivial

/-- A descriptor placed at 4 by its desired number is replaced by the next `Insert` without one. -/
theorem not_keepsDescriptors_desired_four :
    ¬Along step KeepsDescriptors (empty : FileDescriptorTable Bool)
      [.insert false 4, .insert true (-1)] := by
  intro h
  have hsecond := (h.2 _ rfl).1.1
  exact absurd hsecond (by decide)

/-! ## The standard streams -/

/-- `FileAccessMode`. -/
inductive FileAccessMode
  | none
  | read
  | write
  | exec
  deriving DecidableEq

/-- What the constructor of a `FileDescriptor` sets. `object` is the number of the object that
`CreateRef` makes, `directoryEntry` that of the entry a path leads to. -/
structure FileDescriptor where
  object : ℕ
  directoryEntry : ℕ
  accessMode : FileAccessMode
  offset : ℕ
  flags : BitVec 32
  descriptionFlags : BitVec 32
  deriving DecidableEq

namespace FileDescriptor

def oCreat : BitVec 32 := 0x100
def oExcl : BitVec 32 := 0x200
def oNoctty : BitVec 32 := 0x400
def oTrunc : BitVec 32 := 0x1000
def oDirectory : BitVec 32 := 0x10000
def oNofollow : BitVec 32 := 0x20000
def oCloexec : BitVec 32 := 0x80000

/-- The constructor, for a new object. -/
def create (object dentry : ℕ) (flags : BitVec 32) (accMode : FileAccessMode) : FileDescriptor where
  object := object
  directoryEntry := dentry
  accessMode := accMode
  offset := 0
  flags := flags &&& oCloexec
  descriptionFlags := flags &&&
    ~~~(oCreat ||| oDirectory ||| oExcl ||| oNoctty ||| oNofollow ||| oTrunc ||| oCloexec)

end FileDescriptor

/-- `FileDescriptorTable::OpenStdioStreams`, where `/dev/tty` leads to `ttyNode` and the next new
object is `nextObject`: the table, and the next new object after it. -/
def openStdioStreams (t : FileDescriptorTable FileDescriptor) (ttyNode nextObject : ℕ) :
    FileDescriptorTable FileDescriptor × ℕ :=
  let t := (t.insert (.create nextObject ttyNode 0 .read) 0).2
  let t := (t.insert (.create (nextObject + 1) ttyNode 0 .write) 1).2
  let t := (t.insert (.create (nextObject + 2) ttyNode 0 .write) 2).2
  (t, nextObject + 3)

/-- The descriptors of the three standard streams. -/
def stdioStream (ttyNode nextObject : ℕ) (fd : ℤ) : Option FileDescriptor :=
  if fd = 0 then some (.create nextObject ttyNode 0 .read)
  else if fd = 1 then some (.create (nextObject + 1) ttyNode 0 .write)
  else if fd = 2 then some (.create (nextObject + 2) ttyNode 0 .write)
  else none

/-- A desired number that is free is the one that `Insert` takes. -/
theorem getFd_insert_of_free {t : FileDescriptorTable δ} {desired : ℤ}
    (hdesired : 0 ≤ desired) (hfree : t.getFd desired = none) (fd : δ) (n : ℤ) :
    (t.insert fd desired).2.getFd n = if n = desired then some fd else t.getFd n := by
  have hpick : t.pick desired = desired := if_pos ⟨hdesired, isValid_eq_false.mpr hfree⟩
  by_cases hn : n = desired
  · rw [if_pos hn, hn, ← hpick, hpick]
    have hget := getFd_insert_pick t fd desired
    rwa [hpick] at hget
  · rw [if_neg hn]
    exact getFd_insert_of_ne t fd (hpick.symm ▸ hn)

/-- A cleared table has the standard streams and nothing else. -/
theorem getFd_openStdioStreams (ttyNode nextObject : ℕ) (fd : ℤ) :
    (empty.openStdioStreams ttyNode nextObject).1.getFd fd = stdioStream ttyNode nextObject fd := by
  have hempty : ∀ n, (empty : FileDescriptorTable FileDescriptor).getFd n = none := fun _ => rfl
  have hfirst := getFd_insert_of_free le_rfl (hempty 0) (.create nextObject ttyNode 0 .read)
  have hsecond := getFd_insert_of_free (by decide) ((hfirst 1).trans (hempty 1))
    (.create (nextObject + 1) ttyNode 0 .write)
  have hthird := getFd_insert_of_free (by decide) ((hsecond 2).trans ((hfirst 2).trans (hempty 2)))
    (.create (nextObject + 2) ttyNode 0 .write)
  rw [openStdioStreams, hthird, hsecond, hfirst, hempty, stdioStream]
  -- the streams are looked up from the last to the first
  by_cases h0 : fd = 0
  · rw [if_neg (by omega), if_neg (by omega), if_pos h0, if_pos h0]
  · by_cases h1 : fd = 1
    · rw [if_neg (by omega), if_pos h1, if_neg h0, if_pos h1]
    · rw [if_neg h0, if_neg h0, if_neg h1, if_neg h1]

end FileDescriptorTable

end Cryptix.VFS
