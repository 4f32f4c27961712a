import Mathlib.Data.List.Basic
import Mathlib.Data.List.Infix
import Cryptix.Lib.Transition
import Cryptix.Prism

/-!
# Listing a directory

`GetDirEntries` and `GenerateDirEntries` of `Kernel/VFS/FileDescriptor.cpp`, with the queue
`DirectoryEntries` they work on and the records of `Kernel/API/Posix/dirent.h`. A descriptor is read
by calls that each bring a buffer. The first call queues one record for every entry of the
directory; every call copies records from the front of the queue as long as they fit, and after the
one that emptied the queue the next returns 0.

The loop stops `sizeof(dirent)` bytes before the end of the buffer, or of the queue if that is
shorter, and where there are fewer bytes the difference wraps. `lists_iff_suits` says with which
buffers no record is lost or repeated, no call writes past its buffer and none returns a wrong
count.

The directory does not change while it is listed. Its records are in memory, so that their lengths
add up to a 64-bit word.
-/

namespace Cryptix.VFS

open Lib

/-- What `INode::Stats` says of an inode, as far as a listing shows it. -/
structure INodeStats where
  ino : UInt64
  mode : UInt32
  deriving DecidableEq, Repr

/-- `sizeof(dirent)`. -/
def sizeofDirent : ℕ := 1048

/-- `MAXNAMELEN`. -/
def maxNameLen : ℕ := 1024

/-- `DIRENT_LENGTH`. -/
def direntLength : ℕ := sizeofDirent - maxNameLen

/-- `IF2DT`. -/
def if2dt (mode : UInt32) : ℕ := ((mode &&& 0o170000) >>> 12).toNat

/-- `dirent`: the record of an entry. -/
structure Dirent where
  ino : UInt64
  off : ℕ
  reclen : UInt16
  type : UInt8
  name : List UInt8
  deriving DecidableEq, Repr

/-- The record that `DirectoryEntries::Push` makes. -/
def Dirent.make (name : List UInt8) (stats : INodeStats) : Dirent :=
  let reclen := Prism.alignUp (direntLength + name.length + 1) 8
  { ino := stats.ino, off := reclen, reclen := .ofNat reclen, type := .ofNat (if2dt stats.mode),
    name := name }

/-- The length of the record says where it ends. It does not for names that are too long for the 16
bits of `d_reclen`. -/
def Dirent.IsWhole (e : Dirent) : Prop :=
  e.reclen.toNat = Prism.roundUp (direntLength + e.name.length + 1) 8

instance : DecidablePred Dirent.IsWhole := fun _ => inferInstanceAs (Decidable (_ = _))

/-- The bytes of a list of records. -/
def bytesOf : List Dirent → ℕ
  | [] => 0
  | e :: rest => e.reclen.toNat + bytesOf rest

/-- A child of a directory, as the tree of directory entries has it. A child without an inode is a
name that was looked up and not found. -/
structure Child where
  name : List UInt8
  inode : Option INodeStats
  deriving DecidableEq, Repr

/-- The directory that a descriptor is open on, after mounts and links are followed: its own inode,
the one of its effective parent, and its children in the order of the iterator. -/
structure Directory where
  self : INodeStats
  parent : INodeStats
  children : List Child
  deriving DecidableEq, Repr

/-- `m_DirectoryIterator`, as the children from it on, and `m_Offset`. -/
structure Cursor where
  rest : List Child
  offset : ℕ
  deriving DecidableEq, Repr

/-- `DirectoryEntries`. -/
structure DirectoryEntries where
  entries : List Dirent
  shouldRegenerate : Bool
  deriving DecidableEq, Repr

/-- `FileDescriptor`, as far as a directory is listed with it. -/
structure FileDescriptor where
  cursor : Cursor
  dirEntries : DirectoryEntries
  deriving DecidableEq, Repr

/-! ## The records of a directory -/

namespace Directory

variable (d : Directory)

/-- The record of the directory itself. -/
def dot : Dirent := .make [0x2e] d.self

/-- The record of the parent. -/
def dotDot : Dirent := .make [0x2e, 0x2e] d.parent

/-- The records of children, in order. -/
def records (children : List Child) : List Dirent :=
  children.filterMap fun c => c.inode.map (.make c.name)

/-- The entries of the directory. -/
def listing : List Dirent := d.dot :: d.dotDot :: records d.children

/-- One turn of the loop of `GenerateDirEntries`, with the record it queues. At a child without an
inode only the offset moves. -/
def turn (child : Child) (rest : List Child) (offset : ℕ) : Cursor × List Dirent :=
  match child.inode with
  | none => (⟨child :: rest, offset + 1⟩, [])
  | some stats =>
    if offset = 0 then (⟨child :: rest, offset + 1⟩, [d.dot])
    else if offset = 1 then (⟨child :: rest, offset + 1⟩, [d.dotDot])
    else (⟨rest, offset + 1⟩, [.make child.name stats])

/-- The loop of `GenerateDirEntries`, which is given up after a number of turns. -/
def turns : ℕ → Cursor → Option (Cursor × List Dirent)
  | _, ⟨[], offset⟩ => some (⟨[], offset⟩, [])
  | 0, _ => none
  | n + 1, ⟨child :: rest, offset⟩ =>
    let (next, queued) := d.turn child rest offset
    (turns n next).map fun r => (r.1, queued ++ r.2)

/-- Where `GenerateDirEntries` starts. -/
def restart (c : Cursor) : Cursor := if c.rest = [] then ⟨d.children, 0⟩ else c

/-- `GenerateDirEntries`: the new queue, or `none` if the loop does not end. It ends within the
turns that are given to it here or never does (`generateDirEntries_eq_some_iff`). -/
def generateDirEntries (c : Cursor) : Option (Cursor × List Dirent) :=
  d.turns ((d.restart c).rest.length + 2) (d.restart c)

variable {d}

theorem turns_nil (n offset : ℕ) : d.turns n ⟨[], offset⟩ = some (⟨[], offset⟩, []) := by
  cases n <;> rfl

theorem turns_cons (n : ℕ) (child : Child) (rest : List Child) (offset : ℕ) :
    d.turns (n + 1) ⟨child :: rest, offset⟩ =
      (d.turns n (d.turn child rest offset).1).map
        fun r => (r.1, (d.turn child rest offset).2 ++ r.2) := rfl

/-- A loop that has ended has ended for every larger number of turns. -/
theorem turns_mono {n m : ℕ} (hnm : n ≤ m) {c : Cursor} {r : Cursor × List Dirent}
    (h : d.turns n c = some r) : d.turns m c = some r := by
  induction n generalizing m c r with
  | zero =>
    obtain ⟨rest, offset⟩ := c
    cases rest with
    | nil => rwa [turns_nil] at h ⊢
    | cons child rest => cases h
  | succ n ih =>
    obtain ⟨m, rfl⟩ : ∃ k, m = k + 1 := ⟨m - 1, by omega⟩
    obtain ⟨rest, offset⟩ := c
    cases rest with
    | nil => rwa [turns_nil] at h ⊢
    | cons child rest =>
      rw [turns_cons, Option.map_eq_some_iff] at h ⊢
      obtain ⟨q, hq, hr⟩ := h
      exact ⟨q, ih (by omega) hq, hr⟩

/-- The loop never gets past a child without an inode. -/
theorem turns_eq_none (n : ℕ) {c : Cursor} (h : ∃ child ∈ c.rest, child.inode = none) :
    d.turns n c = none := by
  induction n generalizing c with
  | zero =>
    obtain ⟨rest, offset⟩ := c
    cases rest with
    | nil => obtain ⟨child, hmem, -⟩ := h; exact absurd hmem List.not_mem_nil
    | cons child rest => rfl
  | succ n ih =>
    obtain ⟨rest, offset⟩ := c
    cases rest with
    | nil => obtain ⟨child, hmem, -⟩ := h; exact absurd hmem List.not_mem_nil
    | cons child rest =>
      have hnext : ∃ x ∈ (d.turn child rest offset).1.rest, x.inode = none := by
        unfold turn
        cases hi : child.inode with
        | none => exact ⟨child, List.mem_cons_self, hi⟩
        | some stats =>
          simp only
          split_ifs
          · exact h
          · exact h
          · obtain ⟨x, hx, hnone⟩ := h
            rcases List.mem_cons.mp hx with rfl | hx
            · rw [hi] at hnone; cases hnone
            · exact ⟨x, hx, hnone⟩
      rw [turns_cons, ih hnext, Option.map_none]

/-- After the two turns for the dots, each turn queues the record of a child. -/
theorem turns_records {rest : List Child} (h : ∀ child ∈ rest, child.inode ≠ none) (k : ℕ) :
    d.turns rest.length ⟨rest, k + 2⟩ = some (⟨[], k + 2 + rest.length⟩, records rest) := by
  induction rest generalizing k with
  | nil => rfl
  | cons child rest ih =>
    obtain ⟨stats, hi⟩ := Option.ne_none_iff_exists'.mp (h child List.mem_cons_self)
    have hturn : d.turn child rest (k + 2) = (⟨rest, k + 1 + 2⟩, [.make child.name stats]) := by
      simp [turn, hi]
    rw [List.length_cons, turns_cons, hturn,
      ih (fun x hx => h x (List.mem_cons_of_mem child hx)) (k + 1)]
    simp [records, hi]
    omega

/-- The loop queues the dots that it has not come to yet, and then the children. -/
theorem turns_eq_some {c : Cursor} (h : ∀ child ∈ c.rest, child.inode ≠ none)
    (hne : c.rest ≠ []) :
    ∃ c' : Cursor, c'.rest = [] ∧ d.turns (c.rest.length + 2) c =
      some (c', [d.dot, d.dotDot].drop c.offset ++ records c.rest) := by
  obtain ⟨rest, offset⟩ := c
  obtain ⟨child, tail, rfl⟩ := List.exists_cons_of_ne_nil hne
  obtain ⟨stats, hi⟩ := Option.ne_none_iff_exists'.mp (h child List.mem_cons_self)
  have hdotDot : ∀ n, d.turns (n + 1) ⟨child :: tail, 1⟩ =
      (d.turns n ⟨child :: tail, 0 + 2⟩).map fun r => (r.1, [d.dotDot] ++ r.2) := by
    intro n
    simp [turns_cons, turn, hi]
  match offset with
  | 0 =>
    refine ⟨⟨[], 0 + 2 + (child :: tail).length⟩, rfl, ?_⟩
    have hdot : d.turn child tail 0 = (⟨child :: tail, 1⟩, [d.dot]) := by simp [turn, hi]
    rw [turns_cons, hdot, hdotDot, turns_records h]
    rfl
  | 1 =>
    refine ⟨⟨[], 0 + 2 + (child :: tail).length⟩, rfl, ?_⟩
    refine turns_mono (Nat.le_succ _) ?_
    rw [hdotDot, turns_records h]
    rfl
  | k + 2 =>
    exact ⟨⟨[], k + 2 + (child :: tail).length⟩, rfl,
      turns_mono (Nat.le_add_right _ 2) (by simpa using turns_records h k)⟩

/-- `GenerateDirEntries` returns what its loop ends with, after however many turns. -/
theorem generateDirEntries_eq_some_iff {c : Cursor} {r : Cursor × List Dirent} :
    d.generateDirEntries c = some r ↔ ∃ n, d.turns n (d.restart c) = some r := by
  refine ⟨fun h => ⟨_, h⟩, ?_⟩
  rintro ⟨n, hn⟩
  by_cases hnone : ∃ child ∈ (d.restart c).rest, child.inode = none
  · rw [turns_eq_none n hnone] at hn
    cases hn
  · by_cases hne : (d.restart c).rest = []
    · -- no turn is made
      have hnil : d.restart c = ⟨[], (d.restart c).offset⟩ := by rw [← hne]
      rw [generateDirEntries, hnil, turns_nil]
      rwa [hnil, turns_nil] at hn
    · have hall : ∀ child ∈ (d.restart c).rest, child.inode ≠ none :=
        fun child hmem hi => hnone ⟨child, hmem, hi⟩
      obtain ⟨c', -, hend⟩ := turns_eq_some (d := d) hall hne
      have hlong := turns_mono (le_max_left n ((d.restart c).rest.length + 2)) hn
      rw [turns_mono (le_max_right n _) hend] at hlong
      rwa [generateDirEntries, hend]

/-- A generation that starts at the beginning queues the whole listing, or nothing if the directory
has no children. -/
theorem generateDirEntries_fresh {c c' : Cursor} {q : List Dirent}
    (hc : d.restart c = ⟨d.children, 0⟩) (h : d.generateDirEntries c = some (c', q)) :
    c'.rest = [] ∧ (d.children = [] ∧ q = [] ∨ d.children ≠ [] ∧ q = d.listing) := by
  rw [generateDirEntries, hc] at h
  by_cases hne : d.children = []
  · rw [hne, turns_nil] at h
    obtain ⟨rfl, rfl⟩ := Prod.mk.inj (Option.some.inj h)
    exact ⟨rfl, .inl ⟨hne, rfl⟩⟩
  · have hall : ∀ child ∈ d.children, child.inode ≠ none := by
      intro child hmem hi
      rw [turns_eq_none _ ⟨child, hmem, hi⟩] at h
      cases h
    obtain ⟨c₁, hrest, hend⟩ := turns_eq_some (c := ⟨d.children, 0⟩) hall hne
    rw [hend] at h
    obtain ⟨rfl, rfl⟩ := Prod.mk.inj (Option.some.inj h)
    exact ⟨hrest, .inr ⟨hne, rfl⟩⟩

/-- From wherever its iterator stands, the loop ends, and from the beginning it queues the whole
listing. -/
def GeneratesListing (d : Directory) : Prop :=
  ∀ c : Cursor, c.rest <:+ d.children →
    ∃ n r, d.turns n (d.restart c) = some r ∧ (d.restart c = ⟨d.children, 0⟩ → r.2 = d.listing)

/-- The loop ends and queues the whole listing exactly when there are children and all of them have
inodes: without children no turn is made, and a child without an inode is never passed. -/
theorem generatesListing_iff :
    d.GeneratesListing ↔ d.children ≠ [] ∧ ∀ child ∈ d.children, child.inode ≠ none := by
  constructor
  · intro h
    obtain ⟨n, r, hturns, hlisting⟩ := h ⟨d.children, 0⟩ List.suffix_rfl
    have hstart : d.restart ⟨d.children, 0⟩ = ⟨d.children, 0⟩ := by
      rw [restart]
      split <;> rfl
    rw [hstart] at hturns hlisting
    constructor
    · intro hnil
      rw [hnil, turns_nil, Option.some.injEq] at hturns
      have hempty := hlisting rfl
      rw [← hturns] at hempty
      cases hempty
    · intro child hmem hnone
      rw [turns_eq_none n ⟨child, hmem, hnone⟩] at hturns
      cases hturns
  · rintro ⟨hne, hall⟩ c hsuffix
    have hrest : (d.restart c).rest ≠ [] ∧ (d.restart c).rest <:+ d.children := by
      by_cases hend : c.rest = []
      · rw [restart, if_pos hend]
        exact ⟨hne, List.suffix_rfl⟩
      · rw [restart, if_neg hend]
        exact ⟨hend, hsuffix⟩
    obtain ⟨c', -, hturns⟩ := turns_eq_some (d := d)
      (fun child hmem => hall child (hrest.2.subset hmem)) hrest.1
    refine ⟨_, _, hturns, fun hstart => ?_⟩
    rw [hstart]
    rfl

/-- An empty directory has no dots, and one with a name that was looked up and not found is never
listed. -/
theorem not_generatesListing_missing :
    ¬(⟨⟨2, 0o40755⟩, ⟨2, 0o40755⟩, []⟩ : Directory).GeneratesListing ∧
      ¬(⟨⟨2, 0o40755⟩, ⟨2, 0o40755⟩, [⟨[0x61], none⟩]⟩ : Directory).GeneratesListing := by
  constructor
  · intro h
    obtain ⟨n, r, hturns, hlisting⟩ := h ⟨[], 0⟩ List.suffix_rfl
    rw [show r = (⟨[], 0⟩, []) by simpa [restart, turns_nil, eq_comm] using hturns] at hlisting
    cases hlisting rfl
  · intro h
    obtain ⟨n, r, hturns, -⟩ := h ⟨[⟨[0x61], none⟩], 0⟩ List.suffix_rfl
    rw [turns_eq_none n ⟨⟨[0x61], none⟩, by simp [restart], rfl⟩] at hturns
    cases hturns

end Directory

/-! ## A call -/

/-- What the loop of `GetDirEntries` leaves: the records it copied, the rest of the queue, and the
count it has in `bytes`. -/
structure Copied where
  copied : List Dirent
  left : List Dirent
  bytes : ℕ
  deriving DecidableEq, Repr

/-- The loop of `GetDirEntries`, with `CopyAndPop` in it. A record of length 0 is popped, and ends
the loop. -/
def copyEntries (length : ℕ) : List Dirent → (offset bytes : ℕ) → Copied
  | [], offset, bytes => if offset < length then ⟨[], [], offset⟩ else ⟨[], [], bytes⟩
  | entry :: rest, offset, bytes =>
    if offset < length then
      if length - offset < entry.reclen.toNat then ⟨[], entry :: rest, offset⟩
      else if entry.reclen.toNat = 0 then ⟨[entry], rest, offset⟩
      else
        let r := copyEntries length rest (offset + entry.reclen.toNat) offset
        { r with copied := entry :: r.copied }
    else ⟨[], entry :: rest, bytes⟩

/-- What a call returns, the records it copied, and the descriptor after it. -/
structure Reply where
  result : Except Errno ℕ
  copied : List Dirent
  next : FileDescriptor

namespace FileDescriptor

/-- A descriptor that was just opened. -/
def opened (d : Directory) : FileDescriptor := ⟨⟨d.children, 0⟩, ⟨[], false⟩⟩

/-- Fills the queue if it is empty. -/
def generate (d : Directory) (f : FileDescriptor) : Option FileDescriptor :=
  if f.dirEntries.entries = [] then
    (d.generateDirEntries f.cursor).map fun r => ⟨r.1, { f.dirEntries with entries := r.2 }⟩
  else some f

/-- `GetDirEntries` on a queue that is not empty. -/
def copyOut (f : FileDescriptor) (front : Dirent) (maxSize : ℕ) : Reply :=
  let entries := f.dirEntries.entries
  let length := wordSub (min maxSize (bytesOf entries)) sizeofDirent
  if maxSize < front.reclen.toNat then ⟨.error .EINVAL, [], f⟩
  else
    let r := copyEntries length entries 0 0
    ⟨.ok (if f.dirEntries.shouldRegenerate then 0 else r.bytes), r.copied,
      { f with dirEntries := ⟨r.left, r.left.isEmpty⟩ }⟩

/-- `GetDirEntries`, or `none` if it does not return. -/
def getDirEntries (d : Directory) (f : FileDescriptor) (maxSize : BitVec 64) : Option Reply :=
  (f.generate d).map fun f =>
    match f.dirEntries.entries with
    | [] => ⟨.ok 0, [], f⟩
    | front :: _ => f.copyOut front maxSize.toNat

end FileDescriptor

/-! ## The loop copies the longest beginning that fits -/

@[simp] theorem bytesOf_nil : bytesOf [] = 0 := rfl

@[simp] theorem bytesOf_cons (e : Dirent) (l : List Dirent) :
    bytesOf (e :: l) = e.reclen.toNat + bytesOf l := rfl

theorem bytesOf_append (l l' : List Dirent) : bytesOf (l ++ l') = bytesOf l + bytesOf l' := by
  induction l with
  | nil => simp
  | cons e l ih => rw [List.cons_append, bytesOf_cons, bytesOf_cons, ih, Nat.add_assoc]

theorem bytesOf_le_of_isPrefix {l l' : List Dirent} (h : l <+: l') : bytesOf l ≤ bytesOf l' := by
  obtain ⟨rest, rfl⟩ := h
  rw [bytesOf_append]
  omega

theorem Dirent.IsWhole.reclen_pos {e : Dirent} (h : e.IsWhole) : 0 < e.reclen.toNat := by
  rw [h]
  unfold Prism.roundUp Prism.divRoundUp
  omega

section CopyEntries

variable {length : ℕ} {entries : List Dirent} {offset bytes : ℕ}

theorem copyEntries_of_le (h : length ≤ offset) :
    copyEntries length entries offset bytes = ⟨[], entries, bytes⟩ := by
  cases entries <;> simp [copyEntries, h]

theorem copied_append_left (length : ℕ) (entries : List Dirent) (offset bytes : ℕ) :
    (copyEntries length entries offset bytes).copied ++
      (copyEntries length entries offset bytes).left = entries := by
  induction entries generalizing offset bytes with
  | nil =>
    rw [copyEntries]
    split <;> rfl
  | cons entry rest ih =>
    rw [copyEntries]
    split_ifs
    · rfl
    · rfl
    · simpa using ih _ _
    · rfl

theorem copied_isPrefix (length : ℕ) (entries : List Dirent) (offset bytes : ℕ) :
    (copyEntries length entries offset bytes).copied <+: entries :=
  ⟨_, copied_append_left length entries offset bytes⟩

/-- Nothing is copied past `length`. -/
theorem offset_add_copied_le (h : offset ≤ length) :
    offset + bytesOf (copyEntries length entries offset bytes).copied ≤ length := by
  induction entries generalizing offset bytes with
  | nil =>
    rw [copyEntries]
    split <;> simpa
  | cons entry rest ih =>
    rw [copyEntries]
    split_ifs with hlt hfit hzero
    · simpa
    · simpa [hzero]
    · have hrest : offset + entry.reclen.toNat +
          bytesOf (copyEntries length rest (offset + entry.reclen.toNat) offset).copied ≤ length :=
        ih (by omega)
      rw [bytesOf_cons]
      omega
    · simpa

theorem copied_eq_nil_iff {front : Dirent} {rest : List Dirent} :
    (copyEntries length (front :: rest) offset bytes).copied = [] ↔
      length ≤ offset ∨ length - offset < front.reclen.toNat := by
  rw [copyEntries]
  split_ifs with hlt hfit hzero
  · simp [hfit]
  · simpa using ⟨hlt, by omega⟩
  · simpa using ⟨hlt, by omega⟩
  · simp
    omega

/-- The count is short of the record that fills the length exactly, and of no other. -/
theorem bytes_eq_iff (ho : offset < length)
    (hpos : ∀ e ∈ (copyEntries length entries offset bytes).copied, 0 < e.reclen.toNat) :
    (copyEntries length entries offset bytes).bytes =
        offset + bytesOf (copyEntries length entries offset bytes).copied ↔
      offset + bytesOf (copyEntries length entries offset bytes).copied < length := by
  induction entries generalizing offset bytes with
  | nil => simp [copyEntries, ho]
  | cons entry rest ih =>
    rw [copyEntries, if_pos ho] at hpos ⊢
    split_ifs at hpos ⊢ with hfit hzero
    · simpa
    · exact absurd (hpos entry (by simp)) (by omega)
    · simp only [bytesOf_cons, ← Nat.add_assoc]
      by_cases hlt : offset + entry.reclen.toNat < length
      · exact ih hlt fun e he => hpos e (List.mem_cons_of_mem entry he)
      · rw [copyEntries_of_le (Nat.not_lt.mp hlt)]
        simp only [bytesOf_nil]
        omega

/-- The first record that is left would not have fitted. -/
theorem length_lt_of_left {e : Dirent} {rest : List Dirent}
    (hpos : ∀ e ∈ (copyEntries length entries offset bytes).copied, 0 < e.reclen.toNat)
    (hlt : offset + bytesOf (copyEntries length entries offset bytes).copied < length)
    (hleft : (copyEntries length entries offset bytes).left = e :: rest) :
    length < offset + bytesOf (copyEntries length entries offset bytes).copied +
      e.reclen.toNat := by
  induction entries generalizing offset bytes with
  | nil =>
    rw [copyEntries] at hleft
    split at hleft <;> cases hleft
  | cons entry tail ih =>
    have ho : offset < length := by omega
    rw [copyEntries, if_pos ho] at hpos hlt hleft ⊢
    split_ifs at hpos hlt hleft ⊢ with hfit hzero
    · obtain ⟨rfl, rfl⟩ := List.cons.inj hleft
      rw [bytesOf_nil]
      omega
    · exact absurd (hpos entry (by simp)) (by omega)
    · simp only [bytesOf_cons, ← Nat.add_assoc] at hlt ⊢
      exact ih (fun e he => hpos e (List.mem_cons_of_mem entry he)) hlt hleft

/-- What the loop does from the front of a buffer. -/
structure Packs (length : ℕ) (entries : List Dirent) (r : Copied) : Prop where
  append : r.copied ++ r.left = entries
  le : bytesOf r.copied ≤ length
  counts_iff : (∀ e ∈ r.copied, e.IsWhole) →
    (r.bytes = bytesOf r.copied ↔ bytesOf r.copied < length)
  left : (∀ e ∈ r.copied, e.IsWhole) → bytesOf r.copied < length →
    ∀ e rest, r.left = e :: rest → length < bytesOf r.copied + e.reclen.toNat

theorem copyEntries_packs (hlength : 0 < length) :
    Packs length entries (copyEntries length entries 0 0) where
  append := copied_append_left length entries 0 0
  le := by simpa using offset_add_copied_le (Nat.zero_le length)
  counts_iff hwhole := by
    simpa using bytes_eq_iff hlength fun e he => (hwhole e he).reclen_pos
  left hwhole hlt e rest hleft := by
    simpa using length_lt_of_left (fun e he => (hwhole e he).reclen_pos) (by simpa) hleft

end CopyEntries

/-! ## When a call keeps its word -/

/-- What a call returns is the number of bytes it copied, they are in the buffer, and the records
are whole. A call that fails copies nothing. -/
def Reply.Honest (r : Reply) (maxSize : ℕ) : Prop :=
  match r.result with
  | .error _ => r.copied = []
  | .ok n => n = bytesOf r.copied ∧ n ≤ maxSize ∧ ∀ e ∈ r.copied, e.IsWhole

/-- No record ends exactly at `length`, and those that end before it are whole. -/
def EndsShort (length : ℕ) (entries : List Dirent) : Prop :=
  ∀ l ∈ entries.inits, bytesOf l ≠ length ∧ (bytesOf l ≤ length → ∀ e ∈ l, e.IsWhole)

instance (r : Reply) (maxSize : ℕ) : Decidable (r.Honest maxSize) :=
  match r with
  | ⟨.error _, copied, _⟩ => inferInstanceAs (Decidable (copied = []))
  | ⟨.ok n, copied, _⟩ =>
    inferInstanceAs (Decidable (n = bytesOf copied ∧ n ≤ maxSize ∧ ∀ e ∈ copied, e.IsWhole))

instance (length : ℕ) (entries : List Dirent) : Decidable (EndsShort length entries) :=
  inferInstanceAs (Decidable (∀ l ∈ _, _))

namespace FileDescriptor

/-- The bytes that a call counts: those of the buffer or those of the queue, whichever are less. -/
def capacity (f : FileDescriptor) (maxSize : ℕ) : ℕ :=
  min maxSize (bytesOf f.dirEntries.entries)

/-- The buffer has room for what the loop does with the queue. -/
def HasRoom (f : FileDescriptor) (front : Dirent) (maxSize : ℕ) : Prop :=
  (f.capacity maxSize < sizeofDirent →
    bytesOf f.dirEntries.entries ≤ maxSize ∧ ∀ e ∈ f.dirEntries.entries, e.IsWhole) ∧
  (sizeofDirent ≤ f.capacity maxSize →
    front.reclen.toNat ≤ f.capacity maxSize - sizeofDirent ∧
      EndsShort (f.capacity maxSize - sizeofDirent) f.dirEntries.entries)

instance (f : FileDescriptor) (front : Dirent) (maxSize : ℕ) :
    Decidable (f.HasRoom front maxSize) :=
  inferInstanceAs (Decidable ((_ → _) ∧ (_ → _)))

theorem hasRoom_of_lt {f : FileDescriptor} {front : Dirent} {maxSize : ℕ}
    (h : f.capacity maxSize < sizeofDirent) :
    f.HasRoom front maxSize ↔
      bytesOf f.dirEntries.entries ≤ maxSize ∧ ∀ e ∈ f.dirEntries.entries, e.IsWhole :=
  ⟨fun hroom => hroom.1 h, fun hroom => ⟨fun _ => hroom, fun hle => absurd h (Nat.not_lt.mpr hle)⟩⟩

theorem hasRoom_of_le {f : FileDescriptor} {front : Dirent} {maxSize : ℕ}
    (h : sizeofDirent ≤ f.capacity maxSize) :
    f.HasRoom front maxSize ↔ front.reclen.toNat ≤ f.capacity maxSize - sizeofDirent ∧
      EndsShort (f.capacity maxSize - sizeofDirent) f.dirEntries.entries :=
  ⟨fun hroom => hroom.2 h, fun hroom => ⟨fun hlt => absurd hlt (Nat.not_lt.mpr h), fun _ => hroom⟩⟩

end FileDescriptor

section Honest

variable {length : ℕ} {entries : List Dirent} {r : Copied}

/-- The loop counts what it copies, and copies whole records, exactly if no record ends at
`length`. -/
theorem Packs.counts_iff_endsShort (h : Packs length entries r) :
    (r.bytes = bytesOf r.copied ∧ ∀ e ∈ r.copied, e.IsWhole) ↔ EndsShort length entries := by
  have hle := h.le
  constructor
  · rintro ⟨hcount, hwhole⟩ l hl
    have hlt := (h.counts_iff hwhole).mp hcount
    rw [List.mem_inits, ← h.append] at hl
    rcases List.prefix_or_prefix_of_prefix hl (List.prefix_append _ _) with hshort | ⟨t, rfl⟩
    · have := bytesOf_le_of_isPrefix hshort
      exact ⟨by omega, fun _ e he => hwhole e (hshort.subset he)⟩
    · cases t with
      | nil =>
        rw [List.append_nil]
        exact ⟨by omega, fun _ => hwhole⟩
      | cons e t =>
        -- the next record is the one that did not fit
        obtain ⟨u, hu⟩ := (List.prefix_append_right_inj _).mp hl
        have := h.left hwhole hlt e _ hu.symm
        have hsum := bytesOf_append r.copied (e :: t)
        rw [bytesOf_cons] at hsum
        exact ⟨by omega, fun _ => by omega⟩
  · intro hshort
    obtain ⟨hne, hwhole⟩ := hshort r.copied ((List.mem_inits _ _).mpr ⟨r.left, h.append⟩)
    exact ⟨(h.counts_iff (hwhole hle)).mpr (by omega), hwhole hle⟩

/-- With more than `sizeof(dirent)` bytes missing the loop runs to the end of the queue. -/
theorem Packs.counts_iff_of_wrapped (h : Packs length entries r) {maxSize : ℕ}
    (hcap : min maxSize (bytesOf entries) < sizeofDirent)
    (hlength : wordCount - sizeofDirent ≤ length) :
    (r.bytes = bytesOf r.copied ∧ r.bytes ≤ maxSize ∧ ∀ e ∈ r.copied, e.IsWhole) ↔
      bytesOf entries ≤ maxSize ∧ ∀ e ∈ entries, e.IsWhole := by
  have hbig : sizeofDirent + 2 ^ 16 + sizeofDirent < wordCount := by decide
  have hbegin : r.copied <+: entries := ⟨r.left, h.append⟩
  have hcopied := bytesOf_le_of_isPrefix hbegin
  constructor
  · rintro ⟨hcount, hmax, hwhole⟩
    have hlt := (h.counts_iff hwhole).mp hcount
    cases hleft : r.left with
    | nil =>
      obtain rfl : r.copied = entries := by simpa [hleft] using h.append
      exact ⟨hcount ▸ hmax, hwhole⟩
    | cons e rest =>
      have hnext := h.left hwhole hlt e rest hleft
      have hsmall : e.reclen.toNat < 2 ^ 16 := e.reclen.toNat_lt
      omega
  · rintro ⟨hmax, hwhole⟩
    have hcopiedWhole : ∀ e ∈ r.copied, e.IsWhole := fun e he => hwhole e (hbegin.subset he)
    have hcount := (h.counts_iff hcopiedWhole).mpr (by omega)
    exact ⟨hcount, by omega, hcopiedWhole⟩

theorem eq_nil_of_bytesOf_eq_zero {l : List Dirent} (hwhole : ∀ e ∈ l, e.IsWhole)
    (h : bytesOf l = 0) : l = [] := by
  cases l with
  | nil => rfl
  | cons e rest =>
    have := (hwhole e List.mem_cons_self).reclen_pos
    rw [bytesOf_cons] at h
    omega

end Honest

/-! ### The length of the loop -/

theorem le_wordSub_sizeofDirent {n : ℕ} (h : n < sizeofDirent) :
    wordCount - sizeofDirent ≤ wordSub n sizeofDirent := by
  unfold wordSub wordCount sizeofDirent at *
  omega

namespace FileDescriptor

variable {f : FileDescriptor} {front : Dirent} {rest : List Dirent} {maxSize : ℕ}

/-- The records a call copies from a queue that is not empty. -/
def copied (f : FileDescriptor) (maxSize : ℕ) : Copied :=
  copyEntries (wordSub (f.capacity maxSize) sizeofDirent) f.dirEntries.entries 0 0

theorem copyOut_of_lt (h : maxSize < front.reclen.toNat) :
    f.copyOut front maxSize = ⟨.error .EINVAL, [], f⟩ := if_pos h

theorem copyOut_of_le (h : front.reclen.toNat ≤ maxSize) :
    f.copyOut front maxSize =
      ⟨.ok (if f.dirEntries.shouldRegenerate then 0 else (f.copied maxSize).bytes),
        (f.copied maxSize).copied,
        { f with dirEntries := ⟨(f.copied maxSize).left, (f.copied maxSize).left.isEmpty⟩ }⟩ :=
  if_neg (Nat.not_lt.mpr h)

/-- Nothing is copied where the length is 0 or the first record does not fit. -/
theorem copied_eq_nil_iff_capacity (hm : maxSize < wordCount)
    (hq : f.dirEntries.entries = front :: rest) :
    (f.copied maxSize).copied = [] ↔ sizeofDirent ≤ f.capacity maxSize ∧
      (f.capacity maxSize = sizeofDirent ∨
        f.capacity maxSize - sizeofDirent < front.reclen.toNat) := by
  have hcap : f.capacity maxSize < wordCount := (min_le_left _ _).trans_lt hm
  have hsmall : front.reclen.toNat < 2 ^ 16 := front.reclen.toNat_lt
  have hbig : sizeofDirent + 2 ^ 16 < wordCount := by decide
  rw [copied, hq, copied_eq_nil_iff]
  by_cases h : sizeofDirent ≤ f.capacity maxSize
  · rw [wordSub_of_le hcap h]
    omega
  · have := le_wordSub_sizeofDirent (Nat.not_le.mp h)
    omega

/-- A call before the queue has run empty keeps its word and copies a record exactly if its buffer
has room. -/
theorem honest_iff_hasRoom (hm : maxSize < wordCount) (hq : f.dirEntries.entries = front :: rest)
    (hfront : front.reclen.toNat ≤ maxSize) (hflag : f.dirEntries.shouldRegenerate = false) :
    (f.copyOut front maxSize).Honest maxSize ∧ (f.copied maxSize).copied ≠ [] ↔
      f.HasRoom front maxSize := by
  have hcap : f.capacity maxSize < wordCount := (min_le_left _ _).trans_lt hm
  rw [copyOut_of_le hfront, Ne, copied_eq_nil_iff_capacity hm hq]
  simp only [Reply.Honest, hflag, Bool.false_eq_true, if_false]
  by_cases hshort : f.capacity maxSize < sizeofDirent
  · have hlength := le_wordSub_sizeofDirent hshort
    have hpos : 0 < wordSub (f.capacity maxSize) sizeofDirent :=
      Nat.lt_of_lt_of_le (by decide) hlength
    rw [hasRoom_of_lt hshort, ← (copyEntries_packs hpos).counts_iff_of_wrapped hshort hlength]
    exact and_iff_left fun h => Nat.not_lt.mpr h.1 hshort
  · rw [hasRoom_of_le (Nat.not_lt.mp hshort)]
    have hlength := wordSub_of_le hcap (Nat.not_lt.mp hshort)
    by_cases hfull : f.capacity maxSize = sizeofDirent
    · refine iff_of_false (fun h => h.2 ⟨by omega, .inl hfull⟩) ?_
      -- where the length is 0 the empty beginning ends exactly there
      rintro ⟨-, hends⟩
      exact (hends [] ((List.mem_inits _ _).mpr (List.nil_prefix))).1 (by simp [hfull])
    · have hpacks : Packs (f.capacity maxSize - sizeofDirent) f.dirEntries.entries
          (f.copied maxSize) := by
        rw [← hlength]
        exact copyEntries_packs (by omega)
      have hle : bytesOf (f.copied maxSize).copied ≤ maxSize :=
        hpacks.le.trans ((Nat.sub_le _ _).trans (min_le_left _ _))
      rw [← hpacks.counts_iff_endsShort]
      constructor
      · rintro ⟨⟨hcount, -, hwhole⟩, hcopied⟩
        exact ⟨by omega, hcount, hwhole⟩
      · rintro ⟨hroom, hcount, hwhole⟩
        exact ⟨⟨hcount, hcount ▸ hle, hwhole⟩, by omega⟩

/-- A call with room takes all of a short queue, and never comes near the end of a long one. -/
theorem left_of_hasRoom (hm : maxSize < wordCount) (hroom : f.HasRoom front maxSize) :
    ((f.copied maxSize).left = [] ∧ bytesOf f.dirEntries.entries < sizeofDirent) ∨
      sizeofDirent ≤ bytesOf (f.copied maxSize).left := by
  have hcap : f.capacity maxSize < wordCount := (min_le_left _ _).trans_lt hm
  have hcapacity : f.capacity maxSize = min maxSize (bytesOf f.dirEntries.entries) := rfl
  have hsum := congrArg bytesOf (copied_append_left (wordSub (f.capacity maxSize) sizeofDirent)
    f.dirEntries.entries 0 0)
  rw [bytesOf_append] at hsum
  change bytesOf (f.copied maxSize).copied + bytesOf (f.copied maxSize).left = _ at hsum
  by_cases hshort : f.capacity maxSize < sizeofDirent
  · obtain ⟨hmax, hwhole⟩ := (hasRoom_of_lt hshort).mp hroom
    have hlength := le_wordSub_sizeofDirent hshort
    have hbig : sizeofDirent + sizeofDirent < wordCount := by decide
    have hpacks : Packs _ f.dirEntries.entries (f.copied maxSize) :=
      copyEntries_packs (Nat.lt_of_lt_of_le (by decide) hlength)
    have hcopied : ∀ e ∈ (f.copied maxSize).copied, e.IsWhole :=
      fun e he => hwhole e (hpacks.append ▸ List.mem_append_left _ he)
    refine .inl ⟨?_, by omega⟩
    cases hleft : (f.copied maxSize).left with
    | nil => rfl
    | cons e rest =>
      have hnext := hpacks.left hcopied (by omega) e rest hleft
      rw [hleft, bytesOf_cons] at hsum
      omega
  · have hle : bytesOf (f.copied maxSize).copied ≤ f.capacity maxSize - sizeofDirent := by
      rw [← wordSub_of_le hcap (Nat.not_lt.mp hshort), copied]
      simpa using offset_add_copied_le (Nat.zero_le _)
    exact .inr (by omega)

/-- The call after the queue has run empty fills the queue again and copies from it, but returns
0. -/
theorem not_honest_of_shouldRegenerate (hm : maxSize < wordCount)
    (hq : f.dirEntries.entries = front :: rest) (hfront : front.reclen.toNat ≤ maxSize)
    (hflag : f.dirEntries.shouldRegenerate = true)
    (hcap : f.capacity maxSize < sizeofDirent) : ¬(f.copyOut front maxSize).Honest maxSize := by
  rw [copyOut_of_le hfront]
  simp only [Reply.Honest, hflag, if_true]
  rintro ⟨hcount, -, hwhole⟩
  have hnil := eq_nil_of_bytesOf_eq_zero hwhole hcount.symm
  exact Nat.not_lt.mpr ((copied_eq_nil_iff_capacity hm hq).mp hnil).1 hcap

end FileDescriptor

/-! ## Whole listings -/

/-- Whether a call returned 0. -/
def Reply.isEnd (r : Reply) : Bool :=
  match r.result with
  | .ok 0 => true
  | _ => false

theorem Reply.isEnd_iff {r : Reply} : r.isEnd = true ↔ r.result = .ok 0 := by
  unfold Reply.isEnd
  split <;> simp_all

/-- A descriptor that is being read, with the records that were copied until the first call that
returned 0, and whether there was one. -/
structure Listing where
  descriptor : FileDescriptor
  delivered : List Dirent
  ended : Bool
  deriving DecidableEq, Repr

namespace Listing

variable (d : Directory)

/-- Nothing was read yet. -/
def start : Listing := ⟨.opened d, [], false⟩

/-- What a call adds. -/
def after (s : Listing) (r : Reply) : Listing :=
  { descriptor := r.next
    delivered := if s.ended then s.delivered else s.delivered ++ r.copied
    ended := s.ended || r.isEnd }

/-- A call with a buffer. -/
def step (s : Listing) (maxSize : BitVec 64) : Option Listing :=
  (s.descriptor.getDirEntries d maxSize).map s.after

/-- The call returns, keeps its word, and goes on with the listing of the directory, which is
complete if this is the first call that returns 0. -/
def Lists (s : Listing) (maxSize : BitVec 64) : Prop :=
  match s.descriptor.getDirEntries d maxSize with
  | none => False
  | some r =>
    r.Honest maxSize.toNat ∧ (s.ended = false →
      s.delivered ++ r.copied <+: d.listing ∧
        (r.isEnd = true → s.delivered ++ r.copied = d.listing))

/-- There are records to queue, and either the first is longer than the buffer, so that the call
fails, or the queue has not run empty yet and the buffer has room. -/
def Suits (s : Listing) (maxSize : BitVec 64) : Prop :=
  match s.descriptor.generate d with
  | none => False
  | some f =>
    match f.dirEntries.entries with
    | [] => False
    | front :: _ =>
      maxSize.toNat < front.reclen.toNat ∨
        f.dirEntries.shouldRegenerate = false ∧ f.HasRoom front maxSize.toNat

instance (s : Listing) (maxSize : BitVec 64) : Decidable (s.Lists d maxSize) :=
  match h : s.descriptor.getDirEntries d maxSize with
  | none => .isFalse (by simp [Lists, h])
  | some r =>
    decidable_of_iff (r.Honest maxSize.toNat ∧ (s.ended = false →
      s.delivered ++ r.copied <+: d.listing ∧
        (r.isEnd = true → s.delivered ++ r.copied = d.listing))) (by simp [Lists, h])

/-- Where a listing stands that suited every buffer so far, with the queue filled: nothing is
queued, some records were delivered and the others are queued, or all were delivered and are queued
once more. -/
inductive Ready (delivered : List Dirent) (f : FileDescriptor) : Prop
  | empty (hentries : f.dirEntries.entries = []) (hdelivered : delivered = [])
  | listing (hchildren : d.children ≠ []) (hentries : f.dirEntries.entries ≠ [])
      (hflag : f.dirEntries.shouldRegenerate = false)
      (happend : delivered ++ f.dirEntries.entries = d.listing)
      (hlong : delivered = [] ∨ sizeofDirent ≤ bytesOf f.dirEntries.entries)
  | finished (hflag : f.dirEntries.shouldRegenerate = true) (hdelivered : delivered = d.listing)
      (hentries : f.dirEntries.entries = d.listing) (hshort : bytesOf d.listing < sizeofDirent)

/-- What holds of a listing between two calls: the next call finds it ready. -/
structure Valid (s : Listing) : Prop where
  notEnded : s.ended = false
  ready : ∀ f, s.descriptor.generate d = some f →
    Ready d s.delivered f ∧ d.restart f.cursor = ⟨d.children, 0⟩

variable {d} {f : FileDescriptor}

/-- A queue that is not empty is left as it is. -/
theorem generate_of_ne_nil (h : f.dirEntries.entries ≠ []) : f.generate d = some f := if_neg h

/-- An empty queue gets the whole listing, if there is something to list. -/
theorem generate_of_nil {f' : FileDescriptor} (h : f.dirEntries.entries = [])
    (hc : d.restart f.cursor = ⟨d.children, 0⟩) (hf' : f.generate d = some f') :
    f'.dirEntries.shouldRegenerate = f.dirEntries.shouldRegenerate ∧
      d.restart f'.cursor = ⟨d.children, 0⟩ ∧
      (d.children = [] ∧ f'.dirEntries.entries = [] ∨
        d.children ≠ [] ∧ f'.dirEntries.entries = d.listing) := by
  rw [FileDescriptor.generate, if_pos h, Option.map_eq_some_iff] at hf'
  obtain ⟨⟨c, q⟩, hgen, rfl⟩ := hf'
  obtain ⟨hrest, hq⟩ := Directory.generateDirEntries_fresh hc hgen
  exact ⟨rfl, by simp [Directory.restart, hrest], hq⟩

theorem start_valid : (start d).Valid d where
  notEnded := rfl
  ready f hf := by
    have hc : d.restart ⟨d.children, 0⟩ = ⟨d.children, 0⟩ := by simp [Directory.restart]
    obtain ⟨hflag, hcursor, hq⟩ := generate_of_nil rfl hc hf
    refine ⟨?_, hcursor⟩
    rcases hq with ⟨-, hnil⟩ | ⟨hchildren, hq⟩
    · exact .empty hnil rfl
    · exact .listing hchildren (by simp [hq, Directory.listing]) hflag hq (.inl rfl)

/-- The reply of a call that finds a record in the queue. -/
theorem getDirEntries_of_cons {g : FileDescriptor} {maxSize : BitVec 64} {front : Dirent}
    {rest : List Dirent} (hg : g.generate d = some f)
    (hq : f.dirEntries.entries = front :: rest) :
    g.getDirEntries d maxSize = some (f.copyOut front maxSize.toNat) := by
  simp [FileDescriptor.getDirEntries, hg, hq]

variable {s : Listing} {maxSize : BitVec 64} {front : Dirent} {rest : List Dirent}

theorem lists_of_cons (hopen : s.ended = false) (hf : s.descriptor.generate d = some f)
    (hq : f.dirEntries.entries = front :: rest) :
    s.Lists d maxSize ↔ (f.copyOut front maxSize.toNat).Honest maxSize.toNat ∧
      s.delivered ++ (f.copyOut front maxSize.toNat).copied <+: d.listing ∧
        ((f.copyOut front maxSize.toNat).isEnd = true →
          s.delivered ++ (f.copyOut front maxSize.toNat).copied = d.listing) := by
  simp [Lists, getDirEntries_of_cons hf hq, hopen]

theorem suits_of_cons (hf : s.descriptor.generate d = some f)
    (hq : f.dirEntries.entries = front :: rest) :
    s.Suits d maxSize ↔ maxSize.toNat < front.reclen.toNat ∨
      f.dirEntries.shouldRegenerate = false ∧ f.HasRoom front maxSize.toNat := by
  simp [Suits, hf, hq]

/-- A call that fails leaves the listing as it was. -/
theorem lists_of_lt (hopen : s.ended = false) (hf : s.descriptor.generate d = some f)
    (hq : f.dirEntries.entries = front :: rest) (hlt : maxSize.toNat < front.reclen.toNat)
    (hdelivered : s.delivered <+: d.listing) : s.Lists d maxSize := by
  rw [lists_of_cons hopen hf hq, FileDescriptor.copyOut_of_lt hlt]
  refine ⟨rfl, by simpa using hdelivered, fun hend => ?_⟩
  cases hend

/-- A call of a listing that is not finished goes on with it exactly if its buffer has room. -/
theorem lists_iff_hasRoom (hopen : s.ended = false) (hf : s.descriptor.generate d = some f)
    (hq : f.dirEntries.entries = front :: rest) (hle : front.reclen.toNat ≤ maxSize.toNat)
    (hflag : f.dirEntries.shouldRegenerate = false)
    (happend : s.delivered ++ f.dirEntries.entries = d.listing) :
    s.Lists d maxSize ↔ f.HasRoom front maxSize.toNat := by
  have hm : maxSize.toNat < wordCount := maxSize.isLt
  rw [← FileDescriptor.honest_iff_hasRoom hm hq hle hflag, lists_of_cons hopen hf hq]
  have hcopied : (f.copyOut front maxSize.toNat).copied = (f.copied maxSize.toNat).copied := by
    rw [FileDescriptor.copyOut_of_le hle]
  rw [hcopied]
  refine and_congr_right fun hhonest => ?_
  rw [FileDescriptor.copyOut_of_le hle] at hhonest ⊢
  simp only [Reply.Honest, hflag, Bool.false_eq_true, if_false] at hhonest
  obtain ⟨hcount, -, hwhole⟩ := hhonest
  simp only [Reply.isEnd_iff, hflag, Bool.false_eq_true, if_false, hcount, Except.ok.injEq]
  constructor
  · rintro ⟨-, hend⟩ hnil
    -- an early 0 would have to complete the listing, but the queue is not empty
    have hall := hend (by rw [hnil, bytesOf_nil])
    rw [hnil, ← happend, hq] at hall
    simp at hall
  · intro hne
    refine ⟨?_, fun hend => absurd (eq_nil_of_bytesOf_eq_zero hwhole hend) hne⟩
    rw [← happend]
    exact (List.prefix_append_right_inj _).mpr (copied_isPrefix _ _ _ _)

/-- A call goes on with the listing exactly if its buffer suits. -/
theorem lists_iff_suits_of_valid (hs : s.Valid d) : s.Lists d maxSize ↔ s.Suits d maxSize := by
  have hm : maxSize.toNat < wordCount := maxSize.isLt
  cases hf : s.descriptor.generate d with
  | none => simp [Lists, Suits, FileDescriptor.getDirEntries, hf]
  | some f =>
    obtain ⟨hready, -⟩ := hs.ready f hf
    cases hready with
    | empty hentries hdelivered =>
      refine iff_of_false ?_ (by simp [Suits, hf, hentries])
      simp [Lists, FileDescriptor.getDirEntries, hf, hentries, hs.notEnded, hdelivered, Reply.isEnd,
        Directory.listing]
    | listing _ hentries hflag happend _ =>
      obtain ⟨front, rest, hq⟩ := List.exists_cons_of_ne_nil hentries
      rw [suits_of_cons hf hq]
      by_cases hlt : maxSize.toNat < front.reclen.toNat
      · exact iff_of_true (lists_of_lt hs.notEnded hf hq hlt ⟨_, happend⟩) (.inl hlt)
      · rw [lists_iff_hasRoom hs.notEnded hf hq (Nat.not_lt.mp hlt) hflag happend, or_iff_right hlt,
          and_iff_right hflag]
    | finished hflag hdelivered hentries hshort =>
      obtain ⟨front, rest, hq⟩ : ∃ front rest, f.dirEntries.entries = front :: rest :=
        ⟨_, _, hentries⟩
      rw [suits_of_cons hf hq]
      by_cases hlt : maxSize.toNat < front.reclen.toNat
      · exact iff_of_true (lists_of_lt hs.notEnded hf hq hlt (hdelivered ▸ List.prefix_rfl))
          (.inl hlt)
      · have hcap : f.capacity maxSize.toNat < sizeofDirent :=
          (min_le_right _ _).trans_lt (hentries ▸ hshort)
        refine iff_of_false (fun h => ?_) (by simp [hlt, hflag])
        exact FileDescriptor.not_honest_of_shouldRegenerate hm hq (Nat.not_lt.mp hlt) hflag hcap
          ((lists_of_cons hs.notEnded hf hq).mp h).1

/-- A call with room for it takes a short listing as a whole, and leaves the end of a long one. -/
theorem valid_after_room (hs : s.Valid d) (hf : s.descriptor.generate d = some f)
    (hq : f.dirEntries.entries = front :: rest) (hle : front.reclen.toNat ≤ maxSize.toNat)
    (hflag : f.dirEntries.shouldRegenerate = false) (hroom : f.HasRoom front maxSize.toNat) :
    (s.after (f.copyOut front maxSize.toNat)).Valid d := by
  have hm : maxSize.toNat < wordCount := maxSize.isLt
  obtain ⟨hready, hcursor⟩ := hs.ready f hf
  obtain ⟨hchildren, happend, hlong⟩ : d.children ≠ [] ∧
      s.delivered ++ f.dirEntries.entries = d.listing ∧
      (s.delivered = [] ∨ sizeofDirent ≤ bytesOf f.dirEntries.entries) := by
    cases hready with
    | empty hentries _ => rw [hq] at hentries; cases hentries
    | listing hchildren _ _ happend hlong => exact ⟨hchildren, happend, hlong⟩
    | finished hset _ _ _ => rw [hflag] at hset; cases hset
  obtain ⟨hhonest, hne⟩ := (FileDescriptor.honest_iff_hasRoom hm hq hle hflag).mpr hroom
  have hleft := FileDescriptor.left_of_hasRoom hm hroom
  have hsplit : (f.copied maxSize.toNat).copied ++ (f.copied maxSize.toNat).left =
      f.dirEntries.entries := copied_append_left _ _ _ _
  rw [FileDescriptor.copyOut_of_le hle] at hhonest ⊢
  simp only [Reply.Honest, hflag, Bool.false_eq_true, if_false] at hhonest
  obtain ⟨hcount, -, hwhole⟩ := hhonest
  generalize f.copied maxSize.toNat = r at *
  refine ⟨?_, fun f' hf' => ?_⟩
  · -- the call returned the bytes of at least one record
    refine Bool.eq_false_iff.mpr fun hend => hne (eq_nil_of_bytesOf_eq_zero hwhole ?_)
    simpa [after, hs.notEnded, Reply.isEnd_iff, hflag, hcount] using hend
  · simp only [after, hs.notEnded, Bool.false_eq_true, if_false] at hf' ⊢
    rcases hleft with ⟨hnil, hshort⟩ | hlarge
    · -- the queue ran empty, and is filled again
      have hdelivered : s.delivered = [] := hlong.resolve_right (by omega)
      rw [hdelivered, List.nil_append] at happend
      rw [hnil, List.append_nil] at hsplit
      obtain ⟨hset, hcursor', hgen⟩ :=
        generate_of_nil (f := ⟨f.cursor, r.left, r.left.isEmpty⟩) hnil hcursor hf'
      refine ⟨.finished (hset.trans (by simp [hnil])) ?_ ?_ (happend ▸ hshort), hcursor'⟩
      · rw [hdelivered, List.nil_append, hsplit, happend]
      · rcases hgen with ⟨hnone, -⟩ | ⟨-, hlisting⟩
        · exact absurd hnone hchildren
        · exact hlisting
    · have hleftNe : r.left ≠ [] := by
        rintro hnil
        rw [hnil, bytesOf_nil] at hlarge
        exact absurd hlarge (by decide)
      obtain rfl := Option.some.inj ((generate_of_ne_nil hleftNe).symm.trans hf')
      refine ⟨.listing hchildren hleftNe (by simpa using hleftNe) ?_ (.inr hlarge), hcursor⟩
      rw [List.append_assoc, hsplit, happend]

/-- A call that suits leaves a listing that the next call finds ready. -/
theorem valid_step {s' : Listing} (hs : s.Valid d) (hsuits : s.Suits d maxSize)
    (hstep : s.step d maxSize = some s') : s'.Valid d := by
  cases hf : s.descriptor.generate d with
  | none => simp [Suits, hf] at hsuits
  | some f =>
    cases hq : f.dirEntries.entries with
    | nil => simp [Suits, hf, hq] at hsuits
    | cons front rest =>
      obtain rfl : s.after (f.copyOut front maxSize.toNat) = s' := by
        simpa [step, getDirEntries_of_cons hf hq] using hstep
      rcases Nat.lt_or_ge maxSize.toNat front.reclen.toNat with hlt | hle
      · rw [FileDescriptor.copyOut_of_lt hlt]
        refine ⟨by simp [after, hs.notEnded, Reply.isEnd], fun f' hf' => ?_⟩
        have hself : f.generate d = some f := generate_of_ne_nil (by simp [hq])
        obtain rfl := Option.some.inj (hself.symm.trans hf')
        simpa [after, hs.notEnded] using hs.ready f hf
      · obtain ⟨hflag, hroom⟩ :=
          ((suits_of_cons hf hq).mp hsuits).resolve_left (Nat.not_lt.mpr hle)
        exact valid_after_room hs hf hq hle hflag hroom

/-- The calls that list a directory as they should are those whose buffers suit. -/
theorem lists_iff_suits (d : Directory) (calls : List (BitVec 64)) :
    Along (step d) (Lists d) (start d) calls ↔ Along (step d) (Suits d) (start d) calls :=
  Along.congr start_valid Along.anyCall (fun _ _ hs _ => lists_iff_suits_of_valid hs)
    fun _ _ _ hs _ hsuits hstep => valid_step hs hsuits hstep

/-- No such call returns 0. The one that finds the queue empty fills it again and copies from it,
and in a long listing the one that comes near the end copies nothing. -/
theorem not_ended_of_suits (h : Reaches (step d) (Suits d) (start d) s) : s.ended = false :=
  (h.invariant start_valid fun _ _ _ hs hsuits hstep => valid_step hs hsuits hstep).notEnded

/-- A directory with two files `a` and `b`. -/
def twoFiles : Directory where
  self := ⟨2, 0o040755⟩
  parent := ⟨2, 0o040755⟩
  children := [⟨[0x61], some ⟨12, 0o100644⟩⟩, ⟨[0x62], some ⟨13, 0o100644⟩⟩]

/-- A buffer for two of the four records gets all of them. -/
theorem not_lists_shortBuffer :
    ¬Along (step twoFiles) (Lists twoFiles) (start twoFiles) [64] := by
  decide

example : Along (step twoFiles) (Lists twoFiles) (start twoFiles) [16, 128] := by decide

end Listing

end Cryptix.VFS
