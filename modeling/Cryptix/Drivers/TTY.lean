import Mathlib.Data.List.Basic
import Mathlib.Data.List.Forall2
import Mathlib.Data.List.Infix
import Cryptix.Lib.Transition

/-!
# The line discipline of a tty

`Kernel/Drivers/TTY.cpp` in canonical mode (`ICANON` is set): `SendBuffer` takes the characters of
the keyboard into `m_RawBuffer`, edits it, and hands it to the line queue when a line is complete.
`Read` waits for a line and copies it to the buffer of its caller.

Characters and reads come in any order. A `Read` that finds no line waits on the event
`m_OnAddLine`; the thread that adds a line wakes it, and it runs at some later time. There is one
reader: a second one that waits at the same time would be woken for the same line.

What `Read` does not copy of a line is dropped with the line. `lossless_iff_roomy` says when that
matters.
-/

namespace Cryptix.Drivers

open Lib

/-- The flags and control characters of `termios2` that the functions below look at. -/
structure Termios where
  istrip : Bool
  inlcr : Bool
  igncr : Bool
  icrnl : Bool
  opost : Bool
  onlcr : Bool
  onlret : Bool
  isig : Bool
  echo : Bool
  echoe : Bool
  echok : Bool
  echonl : Bool
  vintr : UInt8
  vquit : UInt8
  vsusp : UInt8
  veof : UInt8
  vkill : UInt8
  verase : UInt8
  vwerase : UInt8
  veol : UInt8

/-- The `termios` a tty is constructed with. -/
def Termios.default : Termios :=
  { istrip := false, inlcr := false, igncr := false, icrnl := true, opost := true, onlcr := true,
    onlret := false, isig := true, echo := true, echoe := true, echok := true, echonl := false,
    vintr := 0x03, vquit := 0x1c, vsusp := 0x1a, veof := 0x04, vkill := 0x15, verase := 0x7f,
    vwerase := 0x17, veol := 0x00 }

/-- `SIGINT` and `SIGQUIT`. -/
inductive Signal
  | int | quit
  deriving DecidableEq, Repr

/-- The reading thread: not in `Read`, asleep in it, or woken and about to go on. It wants at most
`bytes` bytes. -/
inductive Reader
  | idle
  | waiting (bytes : ℕ)
  | woken (bytes : ℕ)
  deriving DecidableEq, Repr

/-- A line, as the bytes between two ends of line. -/
abbrev Line := List UInt8

/-- The line queue with the event that counts its lines, and the reader; and all lines that were
ever added to the queue, those that a `Read` took from it, and what it returned of them. -/
structure Lines where
  lineQueue : List Line
  pending : ℕ
  reader : Reader
  completed : List Line
  taken : List Line
  returned : List Line
  deriving DecidableEq, Repr

namespace Lines

/-- `m_OnAddLine.Trigger()`: wakes the reader if it listens, else leaves a pending event. -/
def trigger (l : Lines) : Lines :=
  match l.reader with
  | .waiting bytes => { l with reader := .woken bytes }
  | _ => { l with pending := l.pending + 1 }

/-- A line goes to the queue. -/
def add (l : Lines) (line : Line) : Lines :=
  { l with lineQueue := l.lineQueue ++ [line], completed := l.completed ++ [line] }.trigger

/-- The rest of `Read` after `Await`: the first line leaves the queue, and as much of it as fits is
copied. The queue is never empty here. -/
def take (l : Lines) (bytes : ℕ) : Option Lines :=
  match l.lineQueue with
  | [] => none
  | line :: rest =>
    let count := min bytes line.length
    some { l with
      lineQueue := rest
      reader := .idle
      taken := l.taken ++ [line]
      returned := l.returned ++ [line.take count] }

/-- `Read`, up to where it sleeps or returns. -/
def read (l : Lines) (bytes : ℕ) : Option Lines :=
  match l.reader with
  | .idle =>
    if 0 < l.pending then { l with pending := l.pending - 1 }.take bytes
    else some { l with reader := .waiting bytes }
  | _ => none

/-- A reader that was woken goes on. -/
def resume (l : Lines) : Option Lines :=
  match l.reader with
  | .woken bytes => l.take bytes
  | _ => none

/-- The queue of a new tty. -/
def empty : Lines := ⟨[], 0, .idle, [], [], []⟩

end Lines

/-- `TTY`; `echoed` is what it sent to its terminal, `signals` what it sent to the foreground
process group. -/
structure TTY where
  rawBuffer : List UInt8
  inEscape : Bool
  echoed : List UInt8
  signals : List Signal
  lines : Lines

namespace TTY

variable (termios : Termios) (push : List UInt8 → UInt8 → List UInt8)

/-- `EchoRaw`. The terminal answers `ESC [ 5 n` and `ESC [ 6 n` by `SendBuffer` from inside of this
call. That is left out, and so is the room that the `CircularQueue` has for the answer. -/
def echoRaw (t : TTY) (c : UInt8) : TTY := { t with echoed := t.echoed ++ [c] }

/-- `Echo`. -/
def echo (t : TTY) (c : UInt8) : TTY :=
  if !termios.opost then t.echoRaw c
  else
    let t := if c = 0x0a ∧ termios.onlcr then t.echoRaw 0x0d else t
    if c = 0x0d ∧ termios.onlret then t else t.echoRaw c

/-- `SendSignal`. -/
def sendSignal (t : TTY) (signal : Signal) : TTY := { t with signals := t.signals ++ [signal] }

/-- `EnqueueChar`. `push` is Prism's `CircularQueue::Push`, on a queue of 4096 bytes. -/
def enqueueChar (t : TTY) (c : UInt8) : TTY := { t with rawBuffer := push t.rawBuffer c }

/-- `AddLine`. -/
def addLine (t : TTY) : TTY := { t with rawBuffer := [], lines := t.lines.add t.rawBuffer }

/-- `KillLine`. -/
def killLine (t : TTY) : TTY := { t with rawBuffer := [] }

/-- `IsControl` of a signed character. -/
def isControl (c : UInt8) : Bool := c < 0x20 || c == 0x7f || 0x80 ≤ c

/-- `EraseChar`: removes the character at the front of the buffer. -/
def eraseChar (t : TTY) : TTY :=
  match t.rawBuffer with
  | [] => t
  | c :: rest =>
    let count := if isControl c then 2 else 1
    let t := { t with rawBuffer := rest }
    if termios.echo || termios.echok then
      { t with echoed := t.echoed ++ (List.replicate count [0x08, 0x20, 0x08]).flatten }
    else t

/-- The loops of `EraseWord`, for at most as many turns as there are characters. -/
def eraseWhile (p : UInt8 → Bool) : ℕ → TTY → TTY
  | 0, t => t
  | fuel + 1, t =>
    match t.rawBuffer.getLast? with
    | some c => if p c then eraseWhile p fuel (t.eraseChar termios) else t
    | none => t

/-- `EraseWord`. -/
def eraseWord (t : TTY) : TTY :=
  let t := eraseWhile termios (· != 0x20) t.rawBuffer.length t
  eraseWhile termios (· == 0x20) t.rawBuffer.length t

/-- A control character; the comparison is with a signed `char`. -/
def isControlChar (c cc : UInt8) : Bool := c == cc && c < 0x80

/-- `OnCanonChar`: whether the character is dealt with. -/
def onCanonChar (t : TTY) (c : UInt8) : Bool × TTY :=
  if t.inEscape then (true, t.echoRaw c)
  else if isControlChar c termios.veof then (true, t.addLine)
  else if isControlChar c termios.vkill ∧ termios.echok then (true, t.killLine)
  else if (isControlChar c termios.verase ∨ c = 0x08) ∧ termios.echoe then
    (true, t.eraseChar termios)
  else if isControlChar c termios.vwerase ∧ termios.echoe then (true, t.eraseWord termios)
  else if c = 0x0a then
    let t := if termios.echo ∨ termios.echonl then t.echo termios c else t
    (true, (t.enqueueChar push c).addLine)
  else if isControlChar c termios.veol then (false, t.addLine)
  else (false, t)

/-- The part of a turn of `SendBuffer` behind the signals. -/
def takeChar (t : TTY) (c : UInt8) : TTY :=
  let (handled, t) := t.onCanonChar termios push c
  if handled then t
  else
    let t := t.enqueueChar push c
    if termios.echo then t.echo termios c else t

/-- One turn of the loop of `SendBuffer`. -/
def sendChar (t : TTY) (c : UInt8) : TTY :=
  let c := if termios.istrip then c &&& 0x7f else c
  if termios.isig ∧ isControlChar c termios.vintr then t.sendSignal .int
  else if termios.isig ∧ isControlChar c termios.vquit then t.sendSignal .quit
  else if termios.isig ∧ isControlChar c termios.vsusp then t.sendSignal .int
  else if c = 0x0a ∧ termios.inlcr then t.takeChar termios push 0x0d
  else if c = 0x0d then
    if termios.igncr then t
    else t.takeChar termios push (if termios.icrnl then 0x0a else c)
  else t.takeChar termios push c

/-- `SendBuffer`. A string that begins with `ESC` is only echoed. -/
def sendBuffer (t : TTY) (string : List UInt8) : TTY :=
  let t := if string.head? = some 0x1b then { t with inEscape := true } else t
  { string.foldl (sendChar termios push) t with inEscape := false }

/-- What can happen next. -/
inductive Action
  | sendBuffer (string : List UInt8)
  | read (bytes : ℕ)
  | resume

def step (t : TTY) : Action → Option TTY
  | .sendBuffer string => some (t.sendBuffer termios push string)
  | .read bytes => (t.lines.read bytes).map fun lines => { t with lines }
  | .resume => t.lines.resume.map fun lines => { t with lines }

/-- A new tty. -/
def create : TTY := ⟨[], false, [], [], .empty⟩

end TTY

/-! ## Lines are kept in order -/

namespace Lines

variable {l l' : Lines}

/-- The queue holds the lines that no `Read` has taken, one pending event or woken reader for each
of them, and every `Read` returned the beginning of the line it took. -/
structure Inv (l : Lines) : Prop where
  completed_eq : l.completed = l.taken ++ l.lineQueue
  pre : List.Forall₂ (· <+: ·) l.returned l.taken
  counted : l.lineQueue.length = l.pending + (match l.reader with | .woken _ => 1 | _ => 0)
  sleeping : ∀ bytes, l.reader = .waiting bytes → l.pending = 0

/-- Every `Read` returned the whole line it took. -/
def Whole (l : Lines) : Prop := l.returned = l.taken

theorem Inv.add (h : l.Inv) (line : Line) : (l.add line).Inv ∧ ((l.add line).Whole ↔ l.Whole) := by
  have hcount := h.counted
  rw [Lines.add, trigger]
  dsimp only
  split
  · rename_i bytes hreader
    rw [hreader] at hcount
    refine ⟨⟨by simp [h.completed_eq], h.pre, ?_, by simp⟩, Iff.rfl⟩
    simp [hcount]
  · rename_i hreader
    refine ⟨⟨by simp [h.completed_eq], h.pre, ?_, fun bytes hw => absurd hw (hreader bytes)⟩,
      Iff.rfl⟩
    rw [List.length_append, List.length_singleton, hcount]
    exact Nat.add_right_comm _ _ _

theorem Inv.addAll (h : l.Inv) (added : List Line) :
    (added.foldl Lines.add l).Inv ∧ ((added.foldl Lines.add l).Whole ↔ l.Whole) := by
  induction added generalizing l with
  | nil => exact ⟨h, Iff.rfl⟩
  | cons line added ih =>
    obtain ⟨hinv, hwhole⟩ := h.add line
    exact ⟨(ih hinv).1, (ih hinv).2.trans hwhole⟩

/-- A `Read` that takes a line returns the whole of it exactly if its buffer has room for it. -/
theorem take_spec (hcompleted : l.completed = l.taken ++ l.lineQueue)
    (hpre : List.Forall₂ (· <+: ·) l.returned l.taken)
    (hcount : l.lineQueue.length = l.pending + 1) (bytes : ℕ) :
    ∃ line l', l.lineQueue.head? = some line ∧ l.take bytes = some l' ∧ l'.Inv ∧
      (l'.Whole ↔ l.Whole ∧ line.length ≤ bytes) := by
  rw [take]
  cases hqueue : l.lineQueue with
  | nil => simp [hqueue] at hcount
  | cons line rest =>
    refine ⟨line, _, rfl, rfl, ⟨?_, ?_, ?_, by simp⟩, ?_⟩
    · simp [hcompleted, hqueue]
    · exact List.rel_append hpre (.cons (List.take_prefix _ line) .nil)
    · simpa [hqueue] using hcount
    · have hline : line.take (min bytes line.length) = line ↔ line.length ≤ bytes := by
        rw [List.take_eq_self_iff]
        omega
      rw [Whole, Whole, ← hline]
      constructor
      · intro h
        obtain ⟨hreturned, hlast⟩ := List.append_inj' h rfl
        exact ⟨hreturned, List.singleton_inj.mp hlast⟩
      · rintro ⟨hreturned, hlast⟩
        rw [hreturned, hlast]

/-- Whether the next `Read` of `bytes` bytes takes a line, that line fits. -/
def ReadFits (l : Lines) (bytes : ℕ) : Prop :=
  0 < l.pending → ∀ line ∈ l.lineQueue.head?, line.length ≤ bytes

/-- The line that a woken reader takes fits. -/
def ResumeFits (l : Lines) : Prop :=
  ∀ bytes, l.reader = .woken bytes → ∀ line ∈ l.lineQueue.head?, line.length ≤ bytes

theorem Inv.read (h : l.Inv) {bytes : ℕ} (hread : l.read bytes = some l') :
    l'.Inv ∧ (l'.Whole ↔ l.Whole ∧ l.ReadFits bytes) := by
  have hcount := h.counted
  rw [Lines.read] at hread
  split at hread
  · rename_i hidle
    rw [hidle, Nat.add_zero] at hcount
    split at hread
    · rename_i hpos
      obtain ⟨line, l₁, hhead, htake, hinv, hwhole⟩ :=
        take_spec (l := { l with pending := l.pending - 1 }) h.completed_eq h.pre
          (by simp only; omega) bytes
      obtain rfl : l₁ = l' := Option.some.inj (htake.symm.trans hread)
      refine ⟨hinv, hwhole.trans (and_congr_right'
        ⟨fun hfits _ line' hline' => ?_, fun hfits => ?_⟩)⟩
      · obtain rfl : line = line' := Option.some.inj (hhead.symm.trans hline')
        exact hfits
      · exact hfits hpos line hhead
    · rename_i hpos
      obtain rfl := Option.some.inj hread
      refine ⟨⟨h.completed_eq, h.pre, hcount, fun _ _ => by simp only; omega⟩, ?_⟩
      exact ⟨fun hw => ⟨hw, fun hpos' => absurd hpos' hpos⟩, And.left⟩
  · exact absurd hread (by simp)

theorem Inv.resume (h : l.Inv) (hresume : l.resume = some l') :
    l'.Inv ∧ (l'.Whole ↔ l.Whole ∧ l.ResumeFits) := by
  have hcount := h.counted
  rw [Lines.resume] at hresume
  split at hresume
  · rename_i bytes hwoken
    rw [hwoken] at hcount
    obtain ⟨line, l₁, hhead, htake, hinv, hwhole⟩ := take_spec h.completed_eq h.pre hcount bytes
    obtain rfl : l₁ = l' := Option.some.inj (htake.symm.trans hresume)
    refine ⟨hinv, hwhole.trans (and_congr_right'
      ⟨fun hfits b hb line' hline' => ?_, fun hfits => ?_⟩)⟩
    · obtain rfl : line = line' := Option.some.inj (hhead.symm.trans hline')
      obtain rfl : bytes = b := Reader.woken.inj (hwoken.symm.trans hb)
      exact hfits
    · exact hfits bytes hwoken line hhead
  · exact absurd hresume (by simp)

/-! ## No byte is lost -/

/-- Lists of the same total length, each a beginning of its partner, are equal. -/
theorem eq_of_forall₂_isPrefix {xs ys : List Line} (h : List.Forall₂ (· <+: ·) xs ys)
    (hlen : ys.flatten.length ≤ xs.flatten.length) : xs = ys := by
  have hle : ∀ {xs ys : List Line}, List.Forall₂ (· <+: ·) xs ys →
      xs.flatten.length ≤ ys.flatten.length := by
    intro xs ys h
    induction h with
    | nil => exact le_rfl
    | cons hpre _ ih =>
      have := hpre.length_le
      simp only [List.flatten_cons, List.length_append]
      omega
  induction h with
  | nil => rfl
  | @cons x y xs ys hpre hrest ih =>
    have hxs := hle hrest
    have hx := hpre.length_le
    simp only [List.flatten_cons, List.length_append] at hlen
    rw [hpre.eq_of_length (by omega), ih (by omega)]

/-- The bytes that were returned, followed by those that are still queued, are the bytes of all
lines. -/
def Lossless (l : Lines) : Prop :=
  l.returned.flatten ++ l.lineQueue.flatten = l.completed.flatten

theorem Inv.lossless_iff (h : l.Inv) : l.Lossless ↔ l.Whole := by
  rw [Lossless, h.completed_eq, List.flatten_append, List.append_left_inj]
  constructor
  · intro hflat
    exact eq_of_forall₂_isPrefix h.pre (by rw [hflat])
  · intro hwhole
    rw [hwhole]

end Lines

namespace TTY

variable {termios : Termios} {push : List UInt8 → UInt8 → List UInt8}

/-- All the input functions do to the lines is to add some. -/
def Adds (t t' : TTY) : Prop := ∃ added : List Line, t'.lines = added.foldl Lines.add t.lines

namespace Adds

theorem of_eq {t t' : TTY} (h : t'.lines = t.lines) : Adds t t' := ⟨[], h⟩

theorem trans {t₁ t₂ t₃ : TTY} (h : Adds t₁ t₂) (h' : Adds t₂ t₃) : Adds t₁ t₃ := by
  obtain ⟨added, h⟩ := h
  obtain ⟨added', h'⟩ := h'
  exact ⟨added ++ added', by rw [h', h, List.foldl_append]⟩

theorem addLine (t : TTY) : Adds t t.addLine := ⟨[t.rawBuffer], rfl⟩

theorem ite {t t' t'' : TTY} {p : Prop} [Decidable p] (ha : Adds t t') (hb : Adds t t'') :
    Adds t (if p then t' else t'') := by
  split
  · exact ha
  · exact hb

theorem ite_snd {t : TTY} {p : Prop} [Decidable p] {a b : Bool × TTY} (ha : Adds t a.2)
    (hb : Adds t b.2) : Adds t (if p then a else b).2 := by
  split
  · exact ha
  · exact hb

end Adds

theorem lines_echo (t : TTY) (c : UInt8) : (t.echo termios c).lines = t.lines := by
  rw [echo]
  repeat' split
  all_goals rfl

theorem lines_eraseChar (t : TTY) : (t.eraseChar termios).lines = t.lines := by
  rw [eraseChar]
  split
  · rfl
  · dsimp only
    split <;> rfl

theorem lines_eraseWhile (p : UInt8 → Bool) (fuel : ℕ) (t : TTY) :
    (eraseWhile termios p fuel t).lines = t.lines := by
  induction fuel generalizing t with
  | zero => rfl
  | succ fuel ih =>
    rw [eraseWhile]
    split
    · split
      · rw [ih, lines_eraseChar]
      · rfl
    · rfl

theorem lines_eraseWord (t : TTY) : (t.eraseWord termios).lines = t.lines := by
  rw [eraseWord, lines_eraseWhile, lines_eraseWhile]

variable (termios push) in
theorem adds_onCanonChar (t : TTY) (c : UInt8) : Adds t (t.onCanonChar termios push c).2 := by
  have hnewline : Adds t (((if termios.echo ∨ termios.echonl then t.echo termios c else t
      ).enqueueChar push c).addLine) := by
    refine Adds.trans (.of_eq ?_) (.addLine _)
    dsimp only [enqueueChar]
    split
    · exact lines_echo t c
    · rfl
  rw [onCanonChar]
  refine .ite_snd (.of_eq rfl) ?_
  refine .ite_snd (.addLine t) ?_
  refine .ite_snd (.of_eq rfl) ?_
  refine .ite_snd (.of_eq (lines_eraseChar t)) ?_
  refine .ite_snd (.of_eq (lines_eraseWord t)) ?_
  refine .ite_snd hnewline ?_
  exact .ite_snd (.addLine t) (.of_eq rfl)

theorem adds_takeChar (t : TTY) (c : UInt8) : Adds t (t.takeChar termios push c) := by
  have hcanon := adds_onCanonChar termios push t c
  rw [takeChar]
  dsimp only
  split
  · exact hcanon
  · refine hcanon.trans (.of_eq ?_)
    split
    · rw [lines_echo]
      rfl
    · rfl

theorem adds_sendChar (t : TTY) (c : UInt8) : Adds t (t.sendChar termios push c) := by
  rw [sendChar]
  refine .ite (.of_eq rfl) (.ite (.of_eq rfl) (.ite (.of_eq rfl) ?_))
  refine .ite (adds_takeChar t _) (.ite ?_ (adds_takeChar t _))
  exact .ite (.of_eq rfl) (adds_takeChar t _)

variable (termios push) in
theorem adds_sendBuffer (t : TTY) (string : List UInt8) :
    Adds t (t.sendBuffer termios push string) := by
  have hloop : ∀ t : TTY, Adds t (string.foldl (sendChar termios push) t) := by
    induction string with
    | nil => exact fun t => .of_eq rfl
    | cons c string ih => exact fun t => (adds_sendChar t c).trans (ih _)
  rw [sendBuffer]
  split
  · have hstart : Adds t { t with inEscape := true } := .of_eq rfl
    obtain ⟨added, hadded⟩ := hstart.trans (hloop _)
    exact ⟨added, hadded⟩
  · obtain ⟨added, hadded⟩ := hloop t
    exact ⟨added, hadded⟩

/-- The buffer of every `Read` has room for the line it takes. -/
def Roomy (t : TTY) : Action → Prop
  | .sendBuffer _ => True
  | .read bytes => t.lines.ReadFits bytes
  | .resume => t.lines.ResumeFits

theorem step_whole {t t' : TTY} {a : Action} (h : t.lines.Inv)
    (hstep : t.step termios push a = some t') :
    t'.lines.Inv ∧ (t'.lines.Whole ↔ t.lines.Whole ∧ t.Roomy a) := by
  cases a with
  | sendBuffer string =>
    obtain rfl := Option.some.inj hstep
    obtain ⟨added, hadded⟩ := adds_sendBuffer termios push t string
    rw [hadded]
    obtain ⟨hinv, hwhole⟩ := h.addAll added
    exact ⟨hinv, hwhole.trans (and_iff_left trivial).symm⟩
  | read bytes =>
    obtain ⟨l, hl, rfl⟩ := Option.map_eq_some_iff.mp hstep
    exact h.read hl
  | resume =>
    obtain ⟨l, hl, rfl⟩ := Option.map_eq_some_iff.mp hstep
    exact h.resume hl

/-- Along a run every `Read` returned a whole line exactly if every buffer had room. -/
theorem run_whole {t t' : TTY} {calls : List Action} (h : t.lines.Inv)
    (hrun : calls.foldlM (step termios push) t = some t') :
    t'.lines.Inv ∧
      (t'.lines.Whole ↔ t.lines.Whole ∧ Along (step termios push) Roomy t calls) := by
  induction calls generalizing t with
  | nil =>
    obtain rfl : t = t' := by simpa using hrun
    exact ⟨h, (and_iff_left trivial).symm⟩
  | cons a calls ih =>
    rw [List.foldlM_cons, Option.bind_eq_bind, Option.bind_eq_some_iff] at hrun
    obtain ⟨t₁, hstep, hrest⟩ := hrun
    obtain ⟨hinv₁, hwhole₁⟩ := step_whole h hstep
    obtain ⟨hinv, hwhole⟩ := ih hinv₁ hrest
    refine ⟨hinv, hwhole.trans ?_⟩
    rw [hwhole₁, and_assoc]
    refine and_congr_right' (and_congr_right' ⟨fun hall t₂ ht₂ => ?_, fun hall => hall t₁ hstep⟩)
    obtain rfl : t₁ = t₂ := Option.some.inj (hstep.symm.trans ht₂)
    exact hall

/-- In every run, every `Read` returns bytes of one line only, the next one; and the bytes returned
are the first bytes of all lines completed so far, with the rest of them still queued, none lost or
repeated, exactly if every `Read` had a buffer at least as long as the line it took. -/
theorem lossless_iff_roomy {calls : List Action} {t : TTY}
    (hrun : calls.foldlM (step termios push) create = some t) :
    List.Forall₂ (· <+: ·) t.lines.returned (t.lines.completed.take t.lines.returned.length) ∧
      (t.lines.returned.flatten <+: t.lines.completed.flatten ∧
          t.lines.returned.flatten ++ t.lines.lineQueue.flatten = t.lines.completed.flatten ↔
        Along (step termios push) Roomy create calls) := by
  have hempty : create.lines.Inv := ⟨rfl, .nil, rfl, by simp [create, Lines.empty]⟩
  obtain ⟨hinv, hwhole⟩ := run_whole hempty hrun
  constructor
  · rw [hinv.completed_eq, hinv.pre.length_eq, List.take_left]
    exact hinv.pre
  · have hlossless : t.lines.Lossless ↔ Along (step termios push) Roomy create calls :=
      hinv.lossless_iff.trans (hwhole.trans (and_iff_right rfl))
    rw [← hlossless]
    exact ⟨And.right, fun h => ⟨⟨_, h⟩, h⟩⟩

/-- A line `ab` is typed and read with a buffer of three bytes. -/
theorem lossless_iff_roomy_shortLine :
    let calls := [.sendBuffer [0x61, 0x62, 0x0a], .read 3]
    ∃ t, calls.foldlM (step .default fun buffer c => buffer ++ [c]) create = some t ∧
      t.lines.returned.flatten ++ t.lines.lineQueue.flatten = t.lines.completed.flatten := by
  intro calls
  obtain ⟨t, ht⟩ : ∃ t, calls.foldlM (step .default fun buffer c => buffer ++ [c]) create =
      some t :=
    ⟨_, rfl⟩
  refine ⟨t, ht,
    ((lossless_iff_roomy ht).2.mpr ⟨trivial, fun t₁ ht₁ => ⟨?_, fun _ _ => trivial⟩⟩).2⟩
  obtain rfl := Option.some.inj ht₁
  intro _ line hline
  obtain rfl : [0x61, 0x62, 0x0a] = line := Option.some.inj hline
  decide

/-- The same line is read with a buffer of one byte: the `Read` returns `a`, and the rest of the
line is neither in the queue nor in any later `Read`. -/
theorem not_lossless_shortBuffer :
    let calls := [.sendBuffer [0x61, 0x62, 0x0a], .read 1]
    ∃ t, calls.foldlM (step .default fun buffer c => buffer ++ [c]) create = some t ∧
      t.lines.returned = [[0x61]] ∧ t.lines.completed = [[0x61, 0x62, 0x0a]] ∧
      ¬ t.lines.returned.flatten ++ t.lines.lineQueue.flatten = t.lines.completed.flatten :=
  ⟨_, rfl, rfl, rfl, by decide⟩

end TTY

end Cryptix.Drivers
