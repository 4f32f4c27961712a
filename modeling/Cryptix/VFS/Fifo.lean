import Cryptix.Scheduler.Event

/-!
# The pipe

`Kernel/VFS/Fifo.cpp`. `Read` and `Write` hold the lock of the inode except while they await the
event of the pipe, so a call is a sequence of sections, each of them one step, with the steps of
`Await` between them. The ring buffer comes from outside of the repository and is a parameter:
`RingBuffer.IsQueue` is what the pipe relies on.

Whatever the interleaving, the bytes that the reads returned, followed by what is in the buffer, are
the bytes that the writes accepted (`pipe_order`).
-/

namespace Cryptix.VFS

open Lib Scheduler

/-! ## The ring buffer -/

/-- The members of the ring buffer that the pipe uses, and the bytes it holds. -/
structure RingBuffer (β : Type*) where
  contents : β → List UInt8
  used : β → ℕ
  capacity : β → ℕ
  read : β → ℕ → List UInt8 × β
  write : β → List UInt8 → ℕ × β

/-- The buffer is a queue: bytes that fit are appended, and bytes that are there are taken from the
front. -/
structure RingBuffer.IsQueue {β : Type*} (R : RingBuffer β) : Prop where
  used : ∀ b, R.used b = (R.contents b).length
  read : ∀ b n, n ≤ R.used b →
    (R.read b n).1 = (R.contents b).take n ∧
      R.contents (R.read b n).2 = (R.contents b).drop n ∧
      R.capacity (R.read b n).2 = R.capacity b
  write : ∀ b data, R.used b + data.length ≤ R.capacity b →
    (R.write b data).1 = data.length ∧
      R.contents (R.write b data).2 = R.contents b ++ data ∧
      R.capacity (R.write b data).2 = R.capacity b

/-! ## The pipe -/

namespace Fifo

inductive Direction
  | eRead | eWrite
  deriving DecidableEq, Repr

/-- A call of `Read` or `Write`. -/
inductive Call
  | read (count : ℕ)
  | write (data : List UInt8)
  deriving DecidableEq, Repr

/-- Where a thread is in a call: outside, before a section under the lock, which is the first one of
the call or not, or in `Await`. -/
inductive Phase
  | outside
  | section (call : Call) (first : Bool)
  | awaiting (call : Call)
  deriving DecidableEq, Repr

/-- What happened: a direction was opened, or a call returned. `eof` is a `Read` that returns 0 at
an empty buffer, `epipe` a `Write` that returns -1. -/
inductive Entry (T : Type*)
  | opened (direction : Direction)
  | read (t : T) (count : ℕ) (data : List UInt8)
  | eof (t : T)
  | write (t : T) (data : List UInt8) (nwritten : ℕ)
  | epipe (t : T)
  deriving DecidableEq, Repr

/-- The bytes that the reads returned. -/
def delivered {T : Type*} (log : List (Entry T)) : List UInt8 :=
  log.flatMap fun
    | .read _ _ data => data
    | _ => []

/-- The bytes that the writes accepted. -/
def accepted {T : Type*} (log : List (Entry T)) : List UInt8 :=
  log.flatMap fun
    | .write _ data nwritten => data.take nwritten
    | _ => []

end Fifo

open Fifo

/-- A pipe, the threads that use it, and what happened so far. -/
structure Fifo (T β : Type*) where
  readerCount : ℕ
  writerCount : ℕ
  buffer : β
  nonBlocking : Bool
  sys : EventSystem T Unit
  phase : T → Phase
  log : List (Entry T)

/-- `Open`, the begin of a call, a section of a call, or a step of the `Await` in it. -/
inductive FifoAction (T : Type*)
  | open (direction : Direction)
  | call (t : T) (call : Call)
  | section (t : T)
  | await (t : T) (a : AwaitStep)
  deriving DecidableEq

namespace Fifo

variable {T β : Type*}

def boot (buffer : β) : Fifo T β where
  readerCount := 0
  writerCount := 0
  buffer := buffer
  nonBlocking := false
  sys := .boot fun _ => 0
  phase _ := .outside
  log := []

/-- `Open`, without the descriptor. Its constructor dereferences the entry, which is null here, so
that the source does not come to the counts. -/
def openDirection [DecidableEq T] (s : Fifo T β) (direction : Direction) : Fifo T β :=
  { s with
    readerCount := if direction = .eRead then s.readerCount + 1 else s.readerCount
    writerCount := if direction = .eRead then s.writerCount else s.writerCount + 1
    sys := s.sys.trigger () false
    log := s.log ++ [.opened direction] }

variable [DecidableEq T]

/-- A call returns. -/
def leave (s : Fifo T β) (t : T) (entry : Entry T) : Fifo T β :=
  { s with phase := Function.update s.phase t .outside, log := s.log ++ [entry] }

/-- A section of `Read`. -/
def readSection (R : RingBuffer β) (s : Fifo T β) (t : T) (count : ℕ) : Fifo T β :=
  if R.used s.buffer = 0 then
    if s.writerCount = 0 ∨ s.nonBlocking = true then s.leave t (.eof t)
    else { s with phase := Function.update s.phase t (.awaiting (.read count)) }
  else
    let (data, buffer) := R.read s.buffer (min count (R.used s.buffer))
    { s with buffer, sys := s.sys.trigger () false }.leave t (.read t count data)

/-- A section of `Write`. Only the first one looks for readers. -/
def writeSection (R : RingBuffer β) (s : Fifo T β) (t : T) (data : List UInt8) (first : Bool) :
    Fifo T β :=
  if first = true ∧ s.readerCount = 0 then s.leave t (.epipe t)
  else if R.used s.buffer = R.capacity s.buffer then
    { s with phase := Function.update s.phase t (.awaiting (.write data)) }
  else
    let count :=
      if R.used s.buffer + data.length > R.capacity s.buffer then
        R.capacity s.buffer - R.used s.buffer
      else data.length
    let (nwritten, buffer) := R.write s.buffer (data.take count)
    { s with buffer, sys := s.sys.trigger () false }.leave t (.write t data nwritten)

def step (R : RingBuffer β) (s : Fifo T β) : FifoAction T → Option (Fifo T β)
  | .open direction => some (s.openDirection direction)
  | .call t c =>
    if s.phase t = .outside then
      some { s with phase := Function.update s.phase t (.section c true) }
    else none
  | .section t =>
    match s.phase t with
    | .section (.read count) _ => some (s.readSection R t count)
    | .section (.write data) first => some (s.writeSection R t data first)
    | _ => none
  | .await t a =>
    match s.phase t with
    | .awaiting c =>
      (s.sys.awaitStep t [()] a).map fun (sys, returned) =>
        { s with
          sys
          phase := if returned then Function.update s.phase t (.section c false) else s.phase }
    | _ => none

/-! ## The invariant -/

/-- What an entry says, given the entries before it: a `Read` returns at most as many bytes as it
asked for and at least one, a `Write` accepts at least one byte, the end of the file is reported
only before the first writer, and a broken pipe only before the first reader. -/
def Entry.Sound (before : List (Entry T)) : Entry T → Prop
  | .opened _ => True
  | .read _ count data => data.length ≤ count ∧ (0 < count → data ≠ [])
  | .eof _ => .opened .eWrite ∉ before
  | .write _ data nwritten => nwritten ≤ data.length ∧ (data ≠ [] → 0 < nwritten)
  | .epipe _ => .opened .eRead ∉ before

/-- The invariant of the pipe over a buffer of the given capacity. -/
structure Inv (R : RingBuffer β) (limit : ℕ) (s : Fifo T β) : Prop where
  order : accepted s.log = delivered s.log ++ R.contents s.buffer
  capacity : R.capacity s.buffer = limit
  fits : R.used s.buffer ≤ limit
  blocking : s.nonBlocking = false
  readers : .opened .eRead ∈ s.log → 0 < s.readerCount
  writers : .opened .eWrite ∈ s.log → 0 < s.writerCount
  sound : ∀ before entry after, s.log = before ++ entry :: after → entry.Sound before

variable {R : RingBuffer β} {limit : ℕ} {s : Fifo T β} {t : T}

omit [DecidableEq T] in
theorem delivered_append (l₁ l₂ : List (Entry T)) :
    delivered (l₁ ++ l₂) = delivered l₁ ++ delivered l₂ :=
  List.flatMap_append

omit [DecidableEq T] in
theorem accepted_append (l₁ l₂ : List (Entry T)) :
    accepted (l₁ ++ l₂) = accepted l₁ ++ accepted l₂ :=
  List.flatMap_append

omit [DecidableEq T] in
/-- An entry at the end of a log of sound entries. -/
theorem sound_snoc {log : List (Entry T)} {entry : Entry T}
    (h : ∀ before e after, log = before ++ e :: after → e.Sound before) (hentry : entry.Sound log)
    (before : List (Entry T)) (e : Entry T) (after : List (Entry T))
    (heq : log ++ [entry] = before ++ e :: after) : e.Sound before := by
  rcases List.eq_nil_or_concat after with rfl | ⟨after, last, rfl⟩
  · obtain ⟨rfl, hlast⟩ := List.append_inj' heq rfl
    obtain rfl := List.singleton_inj.mp hlast
    exact hentry
  · rw [List.concat_eq_append, ← List.cons_append, ← List.append_assoc] at heq
    exact h before e after (List.append_inj' heq rfl).1

namespace Inv

omit [DecidableEq T] in
theorem boot (hR : R.IsQueue) {buffer : β} (hempty : R.contents buffer = [])
    (hcapacity : R.capacity buffer = limit) : Inv R limit (Fifo.boot (T := T) buffer) where
  order := by simp [Fifo.boot, accepted, delivered, hempty]
  capacity := hcapacity
  fits := by simp [Fifo.boot, hR.used, hempty]
  blocking := rfl
  readers h := by cases h
  writers h := by cases h
  sound before entry after h := by simp [Fifo.boot] at h

omit [DecidableEq T] in
/-- A step that leaves the pipe and the log alone. -/
theorem move (h : Inv R limit s) (sys : EventSystem T Unit) (phase : T → Phase) :
    Inv R limit { s with sys, phase } :=
  ⟨h.order, h.capacity, h.fits, h.blocking, h.readers, h.writers, h.sound⟩

/-- A call returns with an entry that is no `Open`, and leaves the buffer behind. -/
theorem leave (h : Inv R limit s) {buffer : β} (sys : EventSystem T Unit) {entry : Entry T}
    (hopened : ∀ direction, entry ≠ .opened direction)
    (horder : accepted s.log ++ accepted [entry] =
      delivered s.log ++ delivered [entry] ++ R.contents buffer)
    (hcapacity : R.capacity buffer = limit) (hfits : R.used buffer ≤ limit)
    (hsound : entry.Sound s.log) :
    Inv R limit ({ s with buffer, sys }.leave t entry) where
  order := by
    rw [Fifo.leave, accepted_append, delivered_append]
    exact horder
  capacity := hcapacity
  fits := hfits
  blocking := h.blocking
  readers hmem := by
    simp only [Fifo.leave, List.mem_append, List.mem_singleton] at hmem
    exact h.readers (hmem.resolve_right fun heq => hopened _ heq.symm)
  writers hmem := by
    simp only [Fifo.leave, List.mem_append, List.mem_singleton] at hmem
    exact h.writers (hmem.resolve_right fun heq => hopened _ heq.symm)
  sound := sound_snoc h.sound hsound

theorem readSection (hR : R.IsQueue) (h : Inv R limit s) (count : ℕ) :
    Inv R limit (s.readSection R t count) := by
  rw [Fifo.readSection]
  by_cases hempty : R.used s.buffer = 0
  · rw [if_pos hempty]
    by_cases hend : s.writerCount = 0 ∨ s.nonBlocking = true
    · rw [if_pos hend]
      refine h.leave s.sys (by simp) ?_ h.capacity h.fits fun hmem => ?_
      · simpa [accepted, delivered] using h.order
      · rcases hend with hzero | hnon
        · exact absurd hzero (Nat.ne_of_gt (h.writers hmem))
        · rw [h.blocking] at hnon
          cases hnon
    · rw [if_neg hend]
      exact h.move s.sys _
  · rw [if_neg hempty]
    obtain ⟨hdata, hrest, hcapacity⟩ := hR.read s.buffer _ (Nat.min_le_right count _)
    have hused := hR.used s.buffer
    refine h.leave _ (by simp) ?_ (hcapacity.trans h.capacity) ?_ ⟨?_, fun hpos => ?_⟩
    · rw [h.order, List.append_assoc, hrest]
      simp [accepted, delivered, hdata]
    · have hfits := h.fits
      rw [hR.used, hrest, List.length_drop]
      omega
    · rw [hdata, List.length_take]
      omega
    · rw [hdata, ne_eq, ← List.length_eq_zero_iff, List.length_take]
      omega

theorem writeSection (hR : R.IsQueue) (h : Inv R limit s) (data : List UInt8) (first : Bool) :
    Inv R limit (s.writeSection R t data first) := by
  rw [Fifo.writeSection]
  have hfits := h.fits
  have hcap := h.capacity
  by_cases hbroken : first = true ∧ s.readerCount = 0
  · rw [if_pos hbroken]
    refine h.leave s.sys (by simp) ?_ h.capacity h.fits fun hmem => ?_
    · simpa [accepted, delivered] using h.order
    · exact absurd hbroken.2 (Nat.ne_of_gt (h.readers hmem))
  · rw [if_neg hbroken]
    by_cases hfull : R.used s.buffer = R.capacity s.buffer
    · rw [if_pos hfull]
      exact h.move s.sys _
    · rw [if_neg hfull]
      generalize hcount : (if R.used s.buffer + data.length > R.capacity s.buffer then
        R.capacity s.buffer - R.used s.buffer else data.length) = count
      have hle : count ≤ data.length ∧ R.used s.buffer + count ≤ limit ∧
          (data.length ≠ 0 → 0 < count) := by
        rw [← hcount]
        split <;> omega
      have htake : (data.take count).length = count := by
        rw [List.length_take]
        omega
      obtain ⟨hn, hcontents, hcapacity⟩ := hR.write s.buffer (data.take count) (by
        rw [htake, hcap]
        exact hle.2.1)
      rw [htake] at hn
      refine h.leave _ (by simp) ?_ (hcapacity.trans hcap) ?_ ⟨?_, fun hne => ?_⟩
      · rw [h.order, hcontents]
        simp [accepted, delivered, hn]
      · rw [hR.used, hcontents, List.length_append, htake, ← hR.used]
        exact hle.2.1
      · rw [hn]
        exact hle.1
      · rw [hn]
        exact hle.2.2 fun hzero => hne (List.length_eq_zero_iff.mp hzero)

theorem openDirection (h : Inv R limit s) (direction : Direction) :
    Inv R limit (s.openDirection direction) where
  order := by
    rw [Fifo.openDirection, accepted_append, delivered_append]
    simpa [accepted, delivered] using h.order
  capacity := h.capacity
  fits := h.fits
  blocking := h.blocking
  readers hmem := by
    simp only [Fifo.openDirection, List.mem_append, List.mem_singleton] at hmem ⊢
    split
    · exact Nat.succ_pos _
    · rename_i hdir
      exact h.readers (hmem.resolve_right fun heq => hdir (Entry.opened.inj heq).symm)
  writers hmem := by
    simp only [Fifo.openDirection, List.mem_append, List.mem_singleton] at hmem ⊢
    split
    · rename_i hdir
      refine h.writers (hmem.resolve_right fun heq => ?_)
      rw [← Entry.opened.inj heq] at hdir
      cases hdir
    · exact Nat.succ_pos _
  sound := sound_snoc h.sound trivial

theorem step (hR : R.IsQueue) (h : Inv R limit s) {a : FifoAction T} {s' : Fifo T β}
    (hstep : s.step R a = some s') : Inv R limit s' := by
  cases a with
  | «open» direction =>
    obtain rfl := Option.some.inj hstep
    exact h.openDirection direction
  | call t c =>
    simp only [Fifo.step] at hstep
    split at hstep
    · obtain rfl := Option.some.inj hstep
      exact h.move s.sys _
    · cases hstep
  | «section» t =>
    simp only [Fifo.step] at hstep
    split at hstep
    · obtain rfl := Option.some.inj hstep
      exact h.readSection hR _
    · obtain rfl := Option.some.inj hstep
      exact h.writeSection hR _ _
    · cases hstep
  | await t a =>
    simp only [Fifo.step] at hstep
    split at hstep
    · obtain ⟨⟨sys, returned⟩, -, rfl⟩ := Option.map_eq_some_iff.mp hstep
      exact h.move sys _
    · cases hstep

end Inv

end Fifo

/-- In every interleaving of the calls that any number of threads make, the bytes that the reads
returned are, in this order, the first ones that the writes accepted, and the rest is in the buffer,
which never holds more than its capacity. No call returns without progress, except at the end of the
file, which is reported only before the pipe is opened for writing, and at a broken pipe, which is
reported only before it is opened for reading. -/
theorem pipe_order {T β : Type*} [DecidableEq T] {R : RingBuffer β} (hR : R.IsQueue) {buffer : β}
    (hempty : R.contents buffer = []) {s : Fifo T β}
    (hs : Reaches (Fifo.step R) anyCall (Fifo.boot buffer) s) :
    accepted s.log = delivered s.log ++ R.contents s.buffer ∧
      (R.contents s.buffer).length ≤ R.capacity buffer ∧
      ∀ before entry after, s.log = before ++ entry :: after → entry.Sound before := by
  have h : s.Inv R (R.capacity buffer) := hs.invariant (Inv.boot hR hempty rfl)
    fun _ _ _ h _ hstep => h.step hR hstep
  exact ⟨h.order, hR.used s.buffer ▸ h.fits, h.sound⟩

/-- `FIFO_SIZE`. -/
def fifoSize : ℕ := 16 * 4096

/-- A ring buffer of `FIFO_SIZE` bytes. -/
def fifoBuffer : RingBuffer (List UInt8) where
  contents := id
  used := List.length
  capacity _ := fifoSize
  read b n := (b.take n, b.drop n)
  write b data :=
    let data := data.take (fifoSize - b.length)
    (data.length, b ++ data)

theorem fifoBuffer_isQueue : fifoBuffer.IsQueue where
  used _ := rfl
  read _ _ _ := ⟨rfl, rfl, rfl⟩
  write b data h := by
    have htake : data.take (fifoSize - b.length) = data :=
      List.take_of_length_le (Nat.le_sub_of_add_le (by rwa [Nat.add_comm]))
    exact ⟨congrArg List.length htake, congrArg (b ++ ·) htake, rfl⟩

/-- One thread waits for bytes, and gets some of those that another one writes. -/
theorem pipe_order_two_threads :
    ∃ s : Fifo Bool (List UInt8),
      Reaches (Fifo.step fifoBuffer) anyCall (Fifo.boot []) s ∧ delivered s.log = [1, 2] ∧
        accepted s.log = [1, 2, 3] := by
  have hrun : ∃ s, Reaches.runList (Fifo.step fifoBuffer) anyCall (Fifo.boot (T := Bool) [])
      [.open .eRead, .open .eWrite, .call false (.read 2), .section false, .await false .attach,
        .section false, .await false .attach, .section false, .await false .attach,
        .await false .block, .call true (.write [1, 2, 3]), .section true, .await false .detach,
        .section false] = some s ∧ s.buffer = [3] ∧ delivered s.log = [1, 2] :=
    ⟨_, rfl, rfl, rfl⟩
  obtain ⟨s, hs, hbuffer, hdelivered⟩ := hrun
  have hs := Reaches.of_list _ hs
  obtain ⟨horder, -, -⟩ := pipe_order fifoBuffer_isQueue rfl hs
  refine ⟨s, hs, hdelivered, ?_⟩
  rw [horder, hdelivered, hbuffer]
  rfl

end Cryptix.VFS
