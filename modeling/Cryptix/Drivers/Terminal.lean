import Cryptix.Drivers.VideoTerminal
import Cryptix.Lib.Transition
import Cryptix.Prism

/-!
# Control sequences

`Kernel/Drivers/Terminal.cpp`: `PutChar` takes one byte of the stream that a terminal is fed. In the
normal state it is a character or a control character; after `ESC` it is the rest of an escape
sequence; after `CSI` it is a digit of a parameter or the function to be called with the parameters.

Two things reach outside of the terminal, and are parameters here (`Host`). The device status report
hands its answer to the current tty, which may echo it back to this terminal before the call
returns; and `OnCsi` counts parameters beyond the sixteen it has room for, and goes on storing them.
What such a store does is up to Prism's `Array`: it stops the kernel, or it changes a word behind
the array. The first of these words are the rest of the parser, and only their change is covered
here: the count grows on, and without a check a store could reach the fields of `VideoTerminal` as
well.

Log messages go to the sinks of the logger and are left out.
-/

namespace Cryptix.Drivers

/-- `Terminal::State`, the states the parser goes through. -/
inductive State
  | normal | escape | controlSequenceEntry | controlSequenceParams
  deriving DecidableEq, Repr

/-- The private fields of `Terminal`: the state, the parameters of the control sequence, and the
modes. -/
structure Parser where
  state : State
  escapeValues : List ℕ
  escapeValueCount : ℕ
  tabSize : ℕ
  decPrivate : Bool
  cursorKeyMode : Bool
  deriving DecidableEq, Repr

/-- `MAX_ESC_PARAMETER_COUNT`. -/
def maxEscParameterCount : ℕ := 16

/-- A `VideoTerminal` with the parser it inherits. -/
structure Terminal where
  parser : Parser
  video : VideoTerminal
  initialized : Bool

/-- The code around the terminal. -/
structure Host where
  /-- What a store of a parameter past the end of `m_EscapeValues` does to the parser, if it
  returns. The words behind the array are the parser's for a few indices only. -/
  overrun : Parser → Option Parser
  /-- The bytes the current tty echoes back to this terminal when it is handed the answer to the
  status report `parameter` at the cursor `(x, y)`; none if there is no tty. -/
  echo : (parameter x y : ℕ) → List UInt8

/-! ## What the control functions do to the screen -/

namespace VideoTerminal

variable (size : Winsize)

/-- `ICH`. -/
def ich (t : VideoTerminal) (count : ℕ) : VideoTerminal :=
  let (x, y) := t.getCursorPos size
  ((List.range' x (size.wsCol - x)).reverse.foldl
    (fun t i =>
      ((t.moveCharacter size (i + count) y i y).setCursorPos size i y).rawPutChar size 0x20)
    t).setCursorPos size x y

/-- `CHA`. -/
def cha (t : VideoTerminal) (column : ℕ) : VideoTerminal :=
  let column := wordSub column 1
  t.setCursorPos size (if column ≥ size.wsCol then size.wsCol - 1 else column)
    (t.getCursorPos size).2

/-- `CUP`; a coordinate counts from 1, and 0 means 1. -/
def cup (t : VideoTerminal) (row column : ℕ) : VideoTerminal :=
  t.setCursorPos size (min (column - 1) (size.wsCol - 1)) (min (row - 1) (size.wsRow - 1))

/-- `ED`. Its first part runs when the sequence had no parameter at all. -/
def ed (t : VideoTerminal) (escapeValueCount parameter : ℕ) : VideoTerminal :=
  let (startX, startY) := t.getCursorPos size
  let t :=
    if escapeValueCount = 0 then
      ((List.range (size.wsCol * size.wsRow - (startY * size.wsRow + startX))).foldl
        (fun t _ => t.rawPutChar size 0x20) t).setCursorPos size startX startY
    else t
  if parameter = 1 then
    (List.range startX).foldl (fun t _ => t.rawPutChar size 0x20) (t.setCursorPos size 0 startY)
  else if parameter = 2 ∨ parameter = 3 then (t.clear size false).setCursorPos size 0 0
  else t

/-- `EL`. -/
def el (t : VideoTerminal) (parameter : ℕ) : VideoTerminal :=
  let (x, y) := t.getCursorPos size
  let startX := if parameter = 1 ∨ parameter = 2 then 0 else x
  let endX := if parameter = 1 then x else size.wsCol
  let t := (List.range (endX - startX)).foldl (fun t _ => t.rawPutChar size 0x20)
    (t.setCursorPos size startX y)
  if parameter ≠ 1 then t.setCursorPos size x y else t

/-- `VPA`. -/
def vpa (t : VideoTerminal) (row : ℕ) : VideoTerminal :=
  let row := wordSub row 1
  t.setCursorPos size (t.getCursorPos size).1 (if row ≥ size.wsRow then size.wsRow - 1 else row)

/-- `CSI A`: the cursor goes up, but not out of the scroll region it was in. -/
def cursorUp (t : VideoTerminal) (parameter : ℕ) : VideoTerminal :=
  let (x, y) := t.getCursorPos size
  let destY := y - parameter
  let willBeScrolled :=
    (t.scrollTopMargin ≥ destY ∧ t.scrollTopMargin ≤ y) ∨
      (t.scrollBottomMargin ≥ destY ∧ t.scrollBottomMargin ≤ y)
  t.setCursorPos size x
    (if willBeScrolled ∧ destY < t.scrollTopMargin then t.scrollTopMargin else destY)

/-- `CSI C`. -/
def cursorForward (t : VideoTerminal) (parameter : ℕ) : VideoTerminal :=
  let (x, y) := t.getCursorPos size
  let parameter := if parameter + x > size.wsCol - 1 then size.wsCol - 1 - x else parameter
  t.setCursorPos size (x + parameter) y

/-- `CSI D`. -/
def cursorBack (t : VideoTerminal) (parameter : ℕ) : VideoTerminal :=
  let (x, y) := t.getCursorPos size
  t.setCursorPos size (x - parameter) y

/-- `s_AnsiColors` at the members of `AnsiColor`. -/
def ansiColor : ℕ → Option UInt32
  | 0x00 => some 0xa0000000
  | 0x01 => some 0xa0aa0000
  | 0x02 => some 0xa000aa00
  | 0x03 => some 0xa0aa5500
  | 0x04 => some 0xa00000aa
  | 0x05 => some 0xa0aa00aa
  | 0x06 => some 0xa000aaaa
  | 0x07 => some 0xa0aaaaaa
  | 0x0a => some 0xa0555555
  | 0x0b => some 0xa0ff5555
  | 0x0c => some 0xa055ff55
  | 0x0d => some 0xa0ffff55
  | 0x0e => some 0xa05555ff
  | 0x0f => some 0xa0ff55ff
  | 0x10 => some 0xa055ffff
  | 0x11 => some 0xa0ffffff
  | _ => none

/-- `SetTextForegroundRgb`. -/
def setTextForegroundRgb (t : VideoTerminal) (rgb : UInt32) : VideoTerminal :=
  { t with currentState := { t.currentState with textForeground := rgb } }

/-- `SetTextBackgroundRgb`. -/
def setTextBackgroundRgb (t : VideoTerminal) (rgb : UInt32) : VideoTerminal :=
  { t with currentState := { t.currentState with textBackground := rgb } }

/-- `SetTextForeground`; a colour that is not a member of `AnsiColor` is ignored. -/
def setTextForeground (t : VideoTerminal) (color : ℕ) : VideoTerminal :=
  if color = 0x09 then t.setTextForegroundRgb 0x00aaaaaa
  else if color = 0x13 then t.setTextForegroundRgb 0xa0555555
  else
    match ansiColor color with
    | some rgb => t.setTextForegroundRgb rgb
    | none => t

/-- `SetTextBackground`. -/
def setTextBackground (t : VideoTerminal) (color : ℕ) : VideoTerminal :=
  if color = 0x09 then t.setTextBackgroundRgb 0xffffffff
  else if color = 0x13 then t.setTextBackgroundRgb 0x00aaaaaa
  else
    match ansiColor color with
    | some rgb => t.setTextBackgroundRgb rgb
    | none => t

/-- `SGR`. The attributes it does not implement are left out. -/
def sgr (t : VideoTerminal) (p : Parser) (parameter : ℕ) : VideoTerminal :=
  let color := parameter % 10 + (if parameter ≥ 90 then 10 else 0)
  let component := fun k => p.escapeValues.getD k 0 % 256
  let rgb := UInt32.ofNat (component 1 * 0x10000 + component 2 * 0x100 + component 3)
  if parameter = 0 then (t.setTextForeground 0x09).setTextBackground 0x09
  else if (30 ≤ parameter ∧ parameter ≤ 37) ∨ parameter = 39 ∨
      (90 ≤ parameter ∧ parameter ≤ 97) then t.setTextForeground color
  else if parameter = 38 ∨ parameter = 48 then
    if p.escapeValueCount < 4 then t
    else if parameter = 38 then t.setTextForegroundRgb rgb
    else t.setTextBackgroundRgb rgb
  else if (40 ≤ parameter ∧ parameter ≤ 47) ∨ parameter = 49 ∨
      (100 ≤ parameter ∧ parameter ≤ 107) then t.setTextBackground color
  else t

end VideoTerminal

/-! ## The parser -/

namespace Terminal

variable (size : Winsize) (host : Host)

/-- `m_EscapeValues[m_EscapeValueCount] = value(...)`. -/
def store (p : Parser) (value : ℕ → ℕ) : Option Parser :=
  if p.escapeValueCount < maxEscParameterCount then
    some { p with escapeValues := p.escapeValues.modify p.escapeValueCount value }
  else host.overrun p

/-- `Reset`. -/
def reset (t : Terminal) : Terminal :=
  { t with
    parser := { t.parser with tabSize := 8, escapeValueCount := 0 }
    video := { t.video with scrollTopMargin := 0, scrollBottomMargin := size.wsRow } }

/-- A control function that only draws. -/
def draw (t : Terminal) (video : VideoTerminal) : Terminal := { t with video }

/-- The line feeds of `OnEscapeChar`: scroll at the bottom margin, and set the cursor one row down
if it did. -/
def lineFeed (t : Terminal) (x y : ℕ) : Terminal :=
  if y = t.video.scrollBottomMargin - 1 then
    t.draw ((t.video.scrollDown size).setCursorPos size x (y + 1))
  else t.draw (t.video.setCursorPos size x y)

/-- The reverse line feed of `OnEscapeChar`. -/
def reverseLineFeed (t : Terminal) (y : ℕ) : Terminal :=
  if y = t.video.scrollTopMargin then
    t.draw ((t.video.scrollUp size).setCursorPos size 0 (wordSub y 1))
  else t.draw (t.video.setCursorPos size 0 y)

/-- `OnEscapeChar`. -/
def onEscapeChar (t : Terminal) (c : UInt8) : Terminal :=
  let (x, y) := t.video.getCursorPos size
  let normal := fun t : Terminal => { t with parser := { t.parser with state := .normal } }
  match c.toNat with
  | 0x5b => -- [
    { t with parser := { t.parser with
        escapeValues := List.replicate maxEscParameterCount 0
        escapeValueCount := 0
        state := .controlSequenceEntry } }
  | 0x63 => -- c
    let t := t.reset size
    normal (t.draw (t.video.clear size true))
  | 0x44 => normal (t.lineFeed size x y) -- D
  | 0x45 => normal (t.lineFeed size 0 y) -- E
  | 0x4d => normal (t.reverseLineFeed size y) -- M
  | 0x37 => normal (t.draw t.video.saveState) -- 7
  | 0x38 => normal (t.draw t.video.restoreState) -- 8
  | _ => normal t

/-- The end of `OnCsi`. -/
def endCsi (t : Terminal) : Terminal :=
  { t with parser := { t.parser with state := .normal, decPrivate := false } }

/-- The switch of `OnCsi`. `echo` feeds bytes to this terminal from inside of the call. -/
def csiFunction (echo : Terminal → List UInt8 → Option Terminal) (t : Terminal) (c : UInt8) :
    Option Terminal :=
  let param := t.parser.escapeValues.getD 0 0
  let (x, y) := t.video.getCursorPos size
  match c.toNat with
  | 0x40 => some (t.draw (t.video.ich size param)).endCsi -- @
  | 0x3f => some { t with parser := { t.parser with decPrivate := true } } -- ?
  | 0x41 => some (t.draw (t.video.cursorUp size param)).endCsi -- A
  | 0x43 => some (t.draw (t.video.cursorForward size param)).endCsi -- C
  | 0x44 => some (t.draw (t.video.cursorBack size param)).endCsi -- D
  | 0x47 => some (t.draw (t.video.cha size param)).endCsi -- G
  | 0x48 => -- H
    some (t.draw (t.video.cup size param (t.parser.escapeValues.getD 1 0))).endCsi
  | 0x4a => some (t.draw (t.video.ed size t.parser.escapeValueCount param)).endCsi -- J
  | 0x4b => some (t.draw (t.video.el size param)).endCsi -- K
  | 0x64 => some (t.draw (t.video.vpa size param)).endCsi -- d
  | 0x68 | 0x6c => -- h l
    let known := t.parser.decPrivate ∧ t.parser.escapeValueCount > 0 ∧ param = 1
    let mode := if known then c == 0x68 else t.parser.cursorKeyMode
    some { t with parser := { t.parser with cursorKeyMode := mode } }.endCsi
  | 0x6d => some (t.draw (t.video.sgr t.parser param)).endCsi -- m
  | 0x6e => (echo t (host.echo param x y)).map endCsi -- n
  | _ => some t.endCsi

/-- `IsDigit`. -/
def isDigit (c : UInt8) : Bool := 0x30 ≤ c.toNat && c.toNat ≤ 0x39

/-- `OnCsi`. -/
def onCsi (echo : Terminal → List UInt8 → Option Terminal) (t : Terminal) (c : UInt8) :
    Option Terminal :=
  let p := t.parser
  if isDigit c then
    let p := { p with state := .controlSequenceParams }
    if p.escapeValueCount = maxEscParameterCount then some { t with parser := p }
    else
      (store host p fun v => (v * 10 + (c.toNat - 0x30)) % 2 ^ 32).map fun p =>
        { t with parser := p }
  else if p.state = .controlSequenceParams then
    let t := { t with parser := { p with
      escapeValueCount := p.escapeValueCount + 1
      state := .controlSequenceEntry } }
    if c.toNat = 0x3b then some t else t.csiFunction size host echo c
  else if c.toNat = 0x3b then
    if p.escapeValueCount = maxEscParameterCount then some t
    else
      (store host p fun _ => 1).map fun p =>
        { t with parser := { p with escapeValueCount := p.escapeValueCount + 1 } }
  else t.csiFunction size host echo c

/-- The switch of `PutCharImpl`: control characters, and everything else as a character of the font.
A tab divides by the tab size. -/
def putNormal (t : Terminal) (c : UInt8) : Option Terminal :=
  let (x, y) := t.video.getCursorPos size
  match c.toNat with
  | 0x00 | 0x07 | 0x0e | 0x0f | 0x7f => some t
  | 0x08 =>
    if x = 0 then some t
    else
      some (t.draw (((t.video.setCursorPos size (x - 1) y).rawPutChar size 0x20).setCursorPos size
        (x - 1) y))
  | 0x09 =>
    if t.parser.tabSize = 0 then none
    else if x / t.parser.tabSize + 1 ≥ size.wsCol then
      some (t.draw (t.video.setCursorPos size (size.wsCol - 1) y))
    else some (t.draw (t.video.setCursorPos size ((x / t.parser.tabSize + 1) * t.parser.tabSize) y))
  | 0x0a | 0x0b | 0x0c =>
    if y = t.video.scrollBottomMargin - 1 then
      some (t.draw ((t.video.scrollDown size).setCursorPos size 0 y))
    else some (t.draw (t.video.setCursorPos size 0 (y + 1)))
  | 0x0d => some (t.draw (t.video.setCursorPos size 0 y))
  | 0x1a => some { t with parser := { t.parser with state := .normal } }
  | 0x1b => some { t with parser := { t.parser with state := .escape } }
  | 0x9b => some { t with parser := { t.parser with state := .controlSequenceEntry } }
  | n =>
    if 0x20 ≤ n ∧ n ≤ 0x7e then some (t.draw (t.video.rawPutChar size n))
    else some (t.draw (t.video.rawPutChar size 0xfe))

/-- `PutCharImpl`, with a way to feed bytes back. -/
def putCharWith (echo : Terminal → List UInt8 → Option Terminal) (t : Terminal) (c : UInt8) :
    Option Terminal :=
  if !t.initialized then some t
  else
    match t.parser.state with
    | .escape => some (t.onEscapeChar size c)
    | .controlSequenceEntry | .controlSequenceParams => t.onCsi size host echo c
    | .normal => t.putNormal size c

/-- `Flush`. -/
def flush (t : Terminal) : Terminal := { t with video := t.video.flush size }

/-- `PutCharImpl`; echoed bytes go through `PutChar` again. `depth` is the number of calls that fit
into each other on the stack. -/
def putCharImpl : (depth : ℕ) → Terminal → UInt8 → Option Terminal
  | 0 => putCharWith size host fun t bytes => if bytes.isEmpty then some t else none
  | depth + 1 => putCharWith size host fun t bytes =>
      bytes.foldlM (fun t c => (putCharImpl depth t c).map (flush size)) t

/-- `PutChar`. -/
def putChar (depth : ℕ) (t : Terminal) (c : UInt8) : Option Terminal :=
  (putCharImpl size host depth t c).map (flush size)

/-- A new terminal: zeroed memory, then `Initialize` and `Reset`. -/
def create (textForeground textBackground : UInt32) : Terminal :=
  { parser :=
      { state := .normal
        escapeValues := List.replicate maxEscParameterCount 0
        escapeValueCount := 0
        tabSize := 8
        decPrivate := false
        cursorKeyMode := false }
    video := .create size textForeground textBackground
    initialized := true }

end Terminal

/-! ## Every access stays in the grid -/

namespace VideoTerminal

variable {size : Winsize} {t : VideoTerminal}

/-- The cells that were accessed so far, and those that `Flush` will access for the queue, are cells
of the grid. -/
structure InGrid (size : Winsize) (t : VideoTerminal) : Prop where
  queue : ∀ q ∈ t.queue, q.x < size.wsCol ∧ q.y < size.wsRow
  cells : ∀ i ∈ t.cells, i < size.cells

namespace InGrid

theorem touch (h : InGrid size t) {i : ℕ} (hi : i < size.cells) : InGrid size (t.touch i) :=
  ⟨h.queue, List.forall_mem_cons.mpr ⟨hi, h.cells⟩⟩

theorem enqueueChar (h : InGrid size t) (c : Character) (x y : ℕ) :
    InGrid size (t.enqueueChar size c x y) := by
  rw [VideoTerminal.enqueueChar]
  by_cases hout : x ≥ size.wsCol ∨ y ≥ size.wsRow
  · rw [if_pos hout]
    exact h
  rw [if_neg hout]
  dsimp only
  have hcell : (⟨x, y, c⟩ : QueueItem).cell size < size.cells :=
    cell_lt (by simp only; omega) (by simp only; omega)
  have ht := h.touch hcell
  split
  · refine ⟨fun q hq => ?_, ht.cells⟩
    obtain ⟨k, hk⟩ := List.getElem?_of_mem hq
    rw [List.getElem?_modify] at hk
    cases hold : t.queue[k]? with
    | none => simp [hold] at hk
    | some old =>
      have hin := h.queue old (List.mem_of_getElem? hold)
      rw [queue_touch, hold, Option.map_eq_map, Option.map_some, Option.some.injEq] at hk
      subst hk
      split
      · exact hin
      · exact hin
  · split
    · exact ht
    · refine ⟨fun q hq => ?_, ht.cells⟩
      rcases List.mem_append.mp hq with hq | hq
      · exact h.queue q hq
      · obtain rfl := List.mem_singleton.mp hq
        exact ⟨by simp only; omega, by simp only; omega⟩

theorem moveCharacter (h : InGrid size t) (newX newY oldX oldY : ℕ) :
    InGrid size (t.moveCharacter size newX newY oldX oldY) := by
  rw [VideoTerminal.moveCharacter]
  split
  · exact h
  · rename_i hin
    have hcell : oldX + oldY * size.wsCol < size.cells := by
      rw [Nat.add_comm]
      exact cell_lt (q := ⟨oldX, oldY, t.charAt 0⟩) (by simp only; omega) (by simp only; omega)
    exact (h.touch hcell).enqueueChar _ newX newY

/-- A loop of shifts out of the grid. -/
theorem shiftLoop (h : InGrid size t) (dst : ℕ → ℕ) {l : List ℕ} (hl : ∀ i ∈ l, i < size.cells) :
    InGrid size (l.foldl (fun t i => t.shift size i (dst i)) t) :=
  List.foldlRecOn l _ h fun _ ht i hi => (ht.touch (hl i hi)).enqueueChar _ _ _

theorem blankRow (h : InGrid size t) (empty : Character) (y : ℕ) :
    InGrid size (t.blankRow size empty y) :=
  List.foldlRecOn _ _ h fun _ ht x _ => ht.enqueueChar empty x y

theorem scrollDown (h : InGrid size t) (hbottom : t.scrollBottomMargin = size.wsRow) :
    InGrid size (t.scrollDown size) := by
  refine (h.shiftLoop _ fun i hi => ?_).blankRow _ _
  have hmem := List.mem_range'_1.mp hi
  rw [hbottom] at hmem
  rw [Winsize.cells]
  omega

theorem scrollUp (h : InGrid size t) (hbottom : t.scrollBottomMargin = size.wsRow) :
    InGrid size (t.scrollUp size) := by
  refine (h.shiftLoop _ fun i hi => ?_).blankRow _ _
  have hmem := List.mem_range'_1.mp (List.mem_reverse.mp hi)
  have hle : (size.wsRow - 1) * size.wsCol ≤ size.wsRow * size.wsCol :=
    Nat.mul_le_mul_right _ (Nat.sub_le _ _)
  rw [hbottom] at hmem
  rw [Winsize.cells]
  omega

theorem clear (h : InGrid size t) (move : Bool) : InGrid size (t.clear size move) := by
  have hloop : InGrid size ((List.range size.cells).foldl (fun u i =>
      u.enqueueChar size t.currentState.empty (i % size.wsCol) (i / size.wsCol)) t) :=
    List.foldlRecOn _ _ h fun _ ht i _ => ht.enqueueChar _ _ _
  rw [VideoTerminal.clear]
  cases move with
  | false => exact hloop
  | true => exact ⟨hloop.queue, hloop.cells⟩

theorem drawCursor (h : InGrid size t) : InGrid size (t.drawCursor size) := by
  rw [VideoTerminal.drawCursor]
  dsimp only
  split
  · rename_i hin
    have hcell : t.currentState.cursorX + t.currentState.cursorY * size.wsCol < size.cells := by
      rw [Nat.add_comm]
      exact cell_lt (q := ⟨_, _, t.charAt 0⟩) hin.1 hin.2
    have ht := h.touch hcell
    split
    · exact ⟨ht.queue, ht.cells⟩
    · exact ht
  · exact h

theorem retire (h : InGrid size t) {q : QueueItem} (hq : q.x < size.wsCol ∧ q.y < size.wsRow) :
    InGrid size (t.retire size q) := by
  have ht := h.touch (cell_lt hq.1 hq.2)
  have hdrop : ∀ q' ∈ t.queue.dropLast, q'.x < size.wsCol ∧ q'.y < size.wsRow :=
    fun q' hq' => h.queue q' ((List.dropLast_sublist _).subset hq')
  rw [VideoTerminal.retire]
  dsimp only
  split
  · exact ⟨hdrop, ht.cells⟩
  · exact ⟨hdrop, ht.cells⟩

theorem flush (h : InGrid size t) : InGrid size (t.flush size) := by
  have hcursor := h.drawCursor
  have hdrain : InGrid size
      ((t.drawCursor size).queue.reverse.foldl (VideoTerminal.retire size) (t.drawCursor size)) :=
    List.foldlRecOn _ _ hcursor fun _ ht q hq =>
      ht.retire (hcursor.queue q (List.mem_reverse.mp hq))
  rw [VideoTerminal.flush, VideoTerminal.redrawOldCursor]
  split
  · rename_i hin
    have hcell := cell_lt (q := ⟨_, _, t.charAt 0⟩) hin.2.1 hin.2.2
    have ht := hdrain.touch hcell
    refine ⟨ht.queue, ?_⟩
    simpa [VideoTerminal.touch, QueueItem.cell, Nat.add_comm] using ht.cells
  · exact ⟨hdrain.queue, hdrain.cells⟩

end InGrid

/-! ## What every byte keeps -/

/-- `Reset` of the screen. -/
def resetMargins (size : Winsize) (t : VideoTerminal) : VideoTerminal :=
  { t with scrollTopMargin := 0, scrollBottomMargin := size.wsRow }

/-- What holds of a screen whatever is done to it: the operations that everything else consists of
keep it. -/
structure Kept (size : Winsize) (I : VideoTerminal → Prop) : Prop where
  setCursorPos : ∀ {t}, I t → ∀ x y, I (t.setCursorPos size x y)
  saveState : ∀ {t}, I t → I t.saveState
  restoreState : ∀ {t}, I t → I t.restoreState
  moveCharacter : ∀ {t}, I t → ∀ newX newY oldX oldY, I (t.moveCharacter size newX newY oldX oldY)
  scrollDown : ∀ {t}, I t → I (t.scrollDown size)
  scrollUp : ∀ {t}, I t → I (t.scrollUp size)
  clear : ∀ {t}, I t → ∀ move, I (t.clear size move)
  flush : ∀ {t}, I t → I (t.flush size)
  rawPutChar : ∀ {t}, I t → ∀ c, I (t.rawPutChar size c)
  setTextForegroundRgb : ∀ {t}, I t → ∀ rgb, I (t.setTextForegroundRgb rgb)
  setTextBackgroundRgb : ∀ {t}, I t → ∀ rgb, I (t.setTextBackgroundRgb rgb)
  resetMargins : ∀ {t}, I t → I (t.resetMargins size)

namespace Kept

variable {I : VideoTerminal → Prop} (hI : Kept size I)

include hI

/-- A loop of blanks. -/
theorem rawPutChars (h : I t) (n c : ℕ) :
    I ((List.range n).foldl (fun t _ => t.rawPutChar size c) t) :=
  List.foldlRecOn _ _ h fun _ ht _ _ => hI.rawPutChar ht c

theorem ich (h : I t) (count : ℕ) : I (t.ich size count) := by
  rw [VideoTerminal.ich]
  refine hI.setCursorPos ?_ _ _
  exact List.foldlRecOn _ _ h fun _ ht i _ =>
    hI.rawPutChar (hI.setCursorPos (hI.moveCharacter ht _ _ _ _) _ _) _

theorem ed (h : I t) (escapeValueCount parameter : ℕ) :
    I (t.ed size escapeValueCount parameter) := by
  rw [VideoTerminal.ed]
  have hfirst : ∀ n x y, I (if escapeValueCount = 0 then
      ((List.range n).foldl (fun t _ => t.rawPutChar size 0x20) t).setCursorPos size x y
      else t) := by
    intro n x y
    split
    · exact hI.setCursorPos (hI.rawPutChars h _ _) _ _
    · exact h
  dsimp only
  split
  · exact hI.rawPutChars (hI.setCursorPos (hfirst _ _ _) _ _) _ _
  · split
    · exact hI.setCursorPos (hI.clear (hfirst _ _ _) false) _ _
    · exact hfirst _ _ _

theorem el (h : I t) (parameter : ℕ) : I (t.el size parameter) := by
  rw [VideoTerminal.el]
  dsimp only
  have hloop := fun x y n => hI.rawPutChars (hI.setCursorPos h x y) n 0x20
  split
  · exact hI.setCursorPos (hloop _ _ _) _ _
  · exact hloop _ _ _

theorem setTextForeground (h : I t) (color : ℕ) : I (t.setTextForeground color) := by
  rw [VideoTerminal.setTextForeground]
  split
  · exact hI.setTextForegroundRgb h _
  · split
    · exact hI.setTextForegroundRgb h _
    · split
      · exact hI.setTextForegroundRgb h _
      · exact h

theorem setTextBackground (h : I t) (color : ℕ) : I (t.setTextBackground color) := by
  rw [VideoTerminal.setTextBackground]
  split
  · exact hI.setTextBackgroundRgb h _
  · split
    · exact hI.setTextBackgroundRgb h _
    · split
      · exact hI.setTextBackgroundRgb h _
      · exact h

/-- `SGR` changes the colours only. -/
theorem sgr (h : I t) (p : Parser) (parameter : ℕ) : I (t.sgr p parameter) := by
  rw [VideoTerminal.sgr]
  dsimp only
  split
  · exact hI.setTextBackground (hI.setTextForeground h _) _
  · split
    · exact hI.setTextForeground h _
    · split
      · split
        · exact h
        · split
          · exact hI.setTextForegroundRgb h _
          · exact hI.setTextBackgroundRgb h _
      · split
        · exact hI.setTextBackground h _
        · exact h

end Kept

end VideoTerminal

namespace Terminal

open VideoTerminal Lib

section Kept

variable {size : Winsize} {host : Host} {t t' : Terminal} {I : VideoTerminal → Prop}
  {echo : Terminal → List UInt8 → Option Terminal} {c : UInt8}

theorem lineFeed_kept (hI : Kept size I) (h : I t.video) (x y : ℕ) :
    I (t.lineFeed size x y).video := by
  rw [lineFeed]
  split
  · exact hI.setCursorPos (hI.scrollDown h) _ _
  · exact hI.setCursorPos h _ _

theorem reverseLineFeed_kept (hI : Kept size I) (h : I t.video) (y : ℕ) :
    I (t.reverseLineFeed size y).video := by
  rw [reverseLineFeed]
  split
  · exact hI.setCursorPos (hI.scrollUp h) _ _
  · exact hI.setCursorPos h _ _

theorem onEscapeChar_kept (hI : Kept size I) (h : I t.video) (c : UInt8) :
    I (t.onEscapeChar size c).video := by
  rw [onEscapeChar]
  dsimp only
  split
  · exact h
  · exact hI.clear (hI.resetMargins h) true
  · exact lineFeed_kept hI h _ _
  · exact lineFeed_kept hI h _ _
  · exact reverseLineFeed_kept hI h _
  · exact hI.saveState h
  · exact hI.restoreState h
  · exact h

/-- Whatever is fed back to the terminal keeps it. -/
def EchoKeeps (I : VideoTerminal → Prop) (echo : Terminal → List UInt8 → Option Terminal) : Prop :=
  ∀ t bytes t', I t.video → echo t bytes = some t' → I t'.video

/-- Every function of the switch of `OnCsi`, whatever its parameters are. -/
theorem csiFunction_kept (hI : Kept size I) (hecho : EchoKeeps I echo) (h : I t.video)
    (hcsi : t.csiFunction size host echo c = some t') : I t'.video := by
  rw [csiFunction] at hcsi
  dsimp only at hcsi
  split at hcsi
  · exact Option.some.inj hcsi ▸ hI.ich h _
  · exact Option.some.inj hcsi ▸ h
  iterate 5 exact Option.some.inj hcsi ▸ hI.setCursorPos h _ _
  · exact Option.some.inj hcsi ▸ hI.ed h _ _
  · exact Option.some.inj hcsi ▸ hI.el h _
  · exact Option.some.inj hcsi ▸ hI.setCursorPos h _ _
  · exact Option.some.inj hcsi ▸ h
  · exact Option.some.inj hcsi ▸ h
  · exact Option.some.inj hcsi ▸ hI.sgr h _ _
  · obtain ⟨u, hu, rfl⟩ := Option.map_eq_some_iff.mp hcsi
    exact hecho t _ u h hu
  · exact Option.some.inj hcsi ▸ h

theorem onCsi_kept (hI : Kept size I) (hecho : EchoKeeps I echo) (h : I t.video)
    (hcsi : t.onCsi size host echo c = some t') : I t'.video := by
  rw [onCsi] at hcsi
  dsimp only at hcsi
  split at hcsi
  · split at hcsi
    · exact Option.some.inj hcsi ▸ h
    · obtain ⟨p, -, rfl⟩ := Option.map_eq_some_iff.mp hcsi
      exact h
  · split at hcsi
    · split at hcsi
      · exact Option.some.inj hcsi ▸ h
      · refine csiFunction_kept hI hecho ?_ hcsi
        exact h
    · split at hcsi
      · split at hcsi
        · exact Option.some.inj hcsi ▸ h
        · obtain ⟨p, -, rfl⟩ := Option.map_eq_some_iff.mp hcsi
          exact h
      · exact csiFunction_kept hI hecho h hcsi

theorem putNormal_kept (hI : Kept size I) (h : I t.video) (hput : t.putNormal size c = some t') :
    I t'.video := by
  rw [putNormal] at hput
  dsimp only at hput
  split at hput
  iterate 5 exact Option.some.inj hput ▸ h
  · split at hput
    · exact Option.some.inj hput ▸ h
    · exact Option.some.inj hput ▸
        hI.setCursorPos (hI.rawPutChar (hI.setCursorPos h _ _) _) _ _
  · split at hput
    · exact absurd hput (by simp)
    · split at hput
      · exact Option.some.inj hput ▸ hI.setCursorPos h _ _
      · exact Option.some.inj hput ▸ hI.setCursorPos h _ _
  iterate 3
    · split at hput
      · exact Option.some.inj hput ▸ hI.setCursorPos (hI.scrollDown h) _ _
      · exact Option.some.inj hput ▸ hI.setCursorPos h _ _
  · exact Option.some.inj hput ▸ hI.setCursorPos h _ _
  iterate 3 exact Option.some.inj hput ▸ h
  · split at hput
    · exact Option.some.inj hput ▸ hI.rawPutChar h _
    · exact Option.some.inj hput ▸ hI.rawPutChar h _

theorem putCharWith_kept (hI : Kept size I) (hecho : EchoKeeps I echo) (h : I t.video)
    (hput : t.putCharWith size host echo c = some t') : I t'.video := by
  rw [putCharWith] at hput
  split at hput
  · exact Option.some.inj hput ▸ h
  · split at hput
    · exact Option.some.inj hput ▸ onEscapeChar_kept hI h c
    · exact onCsi_kept hI hecho h hput
    · exact onCsi_kept hI hecho h hput
    · exact putNormal_kept hI h hput

/-- By induction on the depth: what a call feeds back went through calls below it. -/
theorem putCharImpl_kept (hI : Kept size I) (depth : ℕ) (h : I t.video)
    (hput : t.putCharImpl size host depth c = some t') : I t'.video := by
  induction depth generalizing t t' c with
  | zero =>
    refine putCharWith_kept hI (fun u bytes u' hu hecho => ?_) h hput
    split at hecho
    · exact Option.some.inj hecho ▸ hu
    · exact absurd hecho (by simp)
  | succ depth ih =>
    refine putCharWith_kept hI (fun u bytes u' hu hecho => ?_) h hput
    refine foldlM_invariant (P := fun t => I t.video) hecho hu ?_
    intro c _ u u' hu hstep
    obtain ⟨v, hv, rfl⟩ := Option.map_eq_some_iff.mp hstep
    exact hI.flush (ih hu hv)

/-- **The run lemma.** What the operations keep holds after every stream. -/
theorem kept_of_stream (hI : Kept size I) {textForeground textBackground : UInt32} {depth : ℕ}
    {stream : List UInt8} (hcreate : I (create size textForeground textBackground).video)
    (h : stream.foldlM (putChar size host depth) (create size textForeground textBackground) =
      some t) : I t.video := by
  refine foldlM_invariant (P := fun t => I t.video) h hcreate ?_
  intro c _ u u' hu hstep
  obtain ⟨v, hv, rfl⟩ := Option.map_eq_some_iff.mp hstep
  exact hI.flush (putCharImpl_kept hI depth hu hv)

end Kept

end Terminal

namespace VideoTerminal

variable {size : Winsize} {t : VideoTerminal}

/-! ## The cursor stays in the grid -/

/-- The cursor is in the grid, or just behind the last column; so is the saved one; the margins are
the whole grid; and no access leaves the grid. -/
structure Bounded (size : Winsize) (t : VideoTerminal) : Prop extends InGrid size t where
  cursorX_le : t.currentState.cursorX ≤ size.wsCol
  cursorY_lt : t.currentState.cursorY < size.wsRow
  savedX_le : t.savedState.cursorX ≤ size.wsCol
  savedY_lt : t.savedState.cursorY < size.wsRow
  top_eq : t.scrollTopMargin = 0
  bottom_eq : t.scrollBottomMargin = size.wsRow

namespace Bounded

theorem of_frame (h : Bounded size t) {t' : VideoTerminal} (hf : Frame t t')
    (hin : InGrid size t') : Bounded size t' where
  toInGrid := hin
  cursorX_le := by rw [hf.currentState_eq]; exact h.cursorX_le
  cursorY_lt := by rw [hf.currentState_eq]; exact h.cursorY_lt
  savedX_le := by rw [hf.savedState_eq]; exact h.savedX_le
  savedY_lt := by rw [hf.savedState_eq]; exact h.savedY_lt
  top_eq := hf.scrollTopMargin_eq.trans h.top_eq
  bottom_eq := hf.scrollBottomMargin_eq.trans h.bottom_eq

theorem moveCursor (h : Bounded size t) {x y : ℕ} (hx : x ≤ size.wsCol) (hy : y < size.wsRow) :
    Bounded size (t.moveCursor x y) :=
  { h with
    queue := h.queue
    cells := h.cells
    cursorX_le := hx
    cursorY_lt := hy }

theorem clamp_lt {limit : ℕ} (hlimit : 0 < limit) (pos : ℕ) : clamp limit pos < limit := by
  rw [clamp]
  split
  · split <;> omega
  · omega

/-- `SetCursorPos` puts the cursor into the grid whatever it is given. -/
theorem setCursorPos (h : Bounded size t) (xpos ypos : ℕ) :
    Bounded size (t.setCursorPos size xpos ypos) :=
  h.moveCursor (clamp_lt size.wsCol_pos xpos).le (clamp_lt size.wsRow_pos ypos)

theorem saveState (h : Bounded size t) : Bounded size t.saveState :=
  { h with
    queue := h.queue
    cells := h.cells
    savedX_le := h.cursorX_le
    savedY_lt := h.cursorY_lt }

theorem restoreState (h : Bounded size t) : Bounded size t.restoreState :=
  { h with
    queue := h.queue
    cells := h.cells
    cursorX_le := h.savedX_le
    cursorY_lt := h.savedY_lt }

theorem enqueueChar (h : Bounded size t) (c : Character) (x y : ℕ) :
    Bounded size (t.enqueueChar size c x y) :=
  h.of_frame (Frame.enqueueChar t c x y) (h.toInGrid.enqueueChar c x y)

theorem moveCharacter (h : Bounded size t) (newX newY oldX oldY : ℕ) :
    Bounded size (t.moveCharacter size newX newY oldX oldY) :=
  h.of_frame ((refines_moveCharacter newX newY oldX oldY).frame t)
    (h.toInGrid.moveCharacter newX newY oldX oldY)

theorem scrollDown (h : Bounded size t) : Bounded size (t.scrollDown size) := by
  refine h.of_frame ?_ (h.toInGrid.scrollDown h.bottom_eq)
  rw [VideoTerminal.scrollDown, h.top_eq, h.bottom_eq]
  exact (refines_scrollDown size.wsRow_pos le_rfl _).frame t

theorem scrollUp (h : Bounded size t) : Bounded size (t.scrollUp size) := by
  refine h.of_frame ?_ (h.toInGrid.scrollUp h.bottom_eq)
  rw [VideoTerminal.scrollUp, h.top_eq, h.bottom_eq]
  exact (refines_scrollUp size.wsRow_pos le_rfl _).frame t

theorem clear (h : Bounded size t) (move : Bool) : Bounded size (t.clear size move) := by
  have hloop := h.of_frame ((refines_clear t.currentState.empty).frame t) (h.toInGrid.clear false)
  cases move with
  | false => exact hloop
  | true => exact hloop.moveCursor (Nat.zero_le _) size.wsRow_pos

theorem flush (h : Bounded size t) : Bounded size (t.flush size) :=
  h.of_frame (Frame.flush size t) h.toInGrid.flush

theorem nextRow (h : Bounded size t) :
    Bounded size (t.nextRow size) ∧ (t.nextRow size).currentState.cursorX = 0 := by
  have hy := h.cursorY_lt
  rw [VideoTerminal.nextRow]
  split
  · have hback := h.moveCursor (Nat.zero_le _) (by omega : t.currentState.cursorY + 1 - 1 < _)
    refine ⟨hback.scrollDown, ?_⟩
    rw [VideoTerminal.scrollDown, hback.top_eq, hback.bottom_eq,
      ((refines_scrollDown size.wsRow_pos le_rfl _).frame _).currentState_eq]
    rfl
  · rename_i hne
    rw [h.bottom_eq] at hne
    exact ⟨h.moveCursor (Nat.zero_le _) (by omega), rfl⟩

/-- A cursor that wraps lands in the first column of a row of the grid: the next one, or the last
one after a scroll, or an earlier one when the grid has more rows than columns. -/
theorem wrapCursor (h : Bounded size t) :
    Bounded size (t.wrapCursor size) ∧ (t.wrapCursor size).currentState.cursorX = 0 := by
  obtain ⟨hnext, hx⟩ := h.nextRow
  rw [VideoTerminal.wrapCursor]
  split
  · have hpos := size.wsCol_pos
    have hlt := hnext.cursorY_lt
    exact ⟨hnext.moveCursor (Nat.zero_le _) (by omega), rfl⟩
  · exact ⟨hnext, hx⟩

theorem rawPutChar (h : Bounded size t) (c : ℕ) : Bounded size (t.rawPutChar size c) := by
  have hpos := size.wsCol_pos
  rw [VideoTerminal.rawPutChar]
  split
  · obtain ⟨hwrap, hx⟩ := h.wrapCursor
    exact (hwrap.moveCursor (by omega) hwrap.cursorY_lt).enqueueChar _ _ _
  · exact (h.moveCursor (by omega) h.cursorY_lt).enqueueChar _ _ _

theorem setTextForegroundRgb (h : Bounded size t) (rgb : UInt32) :
    Bounded size (t.setTextForegroundRgb rgb) :=
  { h with queue := h.queue, cells := h.cells }

theorem setTextBackgroundRgb (h : Bounded size t) (rgb : UInt32) :
    Bounded size (t.setTextBackgroundRgb rgb) :=
  { h with queue := h.queue, cells := h.cells }

theorem resetMargins (h : Bounded size t) : Bounded size (t.resetMargins size) :=
  { h with queue := h.queue, cells := h.cells, top_eq := rfl, bottom_eq := rfl }

theorem kept (size : Winsize) : Kept size (Bounded size) where
  setCursorPos h := h.setCursorPos
  saveState h := h.saveState
  restoreState h := h.restoreState
  moveCharacter h := h.moveCharacter
  scrollDown h := h.scrollDown
  scrollUp h := h.scrollUp
  clear h := h.clear
  flush h := h.flush
  rawPutChar h := h.rawPutChar
  setTextForegroundRgb h := h.setTextForegroundRgb
  setTextBackgroundRgb h := h.setTextBackgroundRgb
  resetMargins h := h.resetMargins

end Bounded

end VideoTerminal

namespace Terminal

open VideoTerminal Lib

variable {size : Winsize} {host : Host} {t t' : Terminal}

theorem create_bounded (size : Winsize) (textForeground textBackground : UInt32) :
    (create size textForeground textBackground).video.Bounded size where
  queue := by simp [create, VideoTerminal.create]
  cells := by simp [create, VideoTerminal.create]
  cursorX_le := Nat.zero_le _
  cursorY_lt := size.wsRow_pos
  savedX_le := Nat.zero_le _
  savedY_lt := size.wsRow_pos
  top_eq := rfl
  bottom_eq := rfl

/-- Whatever bytes `PutChar` is fed, the cursor stays in the grid or just behind its last column,
and no index passed to `m_Grid` or `m_Map` is beyond the last cell. -/
theorem cursor_and_cells_in_grid {textForeground textBackground : UInt32} {depth : ℕ}
    {stream : List UInt8}
    (h : stream.foldlM (putChar size host depth) (create size textForeground textBackground) =
      some t) :
    t.video.currentState.cursorX ≤ size.wsCol ∧ t.video.currentState.cursorY < size.wsRow ∧
      ∀ i ∈ t.video.cells, i < size.wsRow * size.wsCol := by
  have hbounded : t.video.Bounded size := kept_of_stream (Bounded.kept size)
    (create_bounded size textForeground textBackground) h
  exact ⟨hbounded.cursorX_le, hbounded.cursorY_lt, hbounded.cells⟩

/-- A kernel without a tty, in which a store past the parameters stops. -/
def silentHost : Host := ⟨fun _ => none, fun _ _ _ => []⟩

/-- `A`, `CSI 9;9H`, two letters that wrap and scroll, a line feed and a reverse line feed. -/
def shortStream : List UInt8 :=
  [0x41, 0x1b, 0x5b, 0x39, 0x3b, 0x39, 0x48, 0x42, 0x43, 0x0a, 0x1b, 0x4d]

/-- The stream on a grid of two rows and two columns. -/
theorem cursor_and_cells_in_grid_shortStream :
    ∃ t, shortStream.foldlM (putChar ⟨2, 2, by decide, by decide⟩ silentHost 0)
        (create ⟨2, 2, by decide, by decide⟩ 0x00aaaaaa 0xffffffff) = some t ∧
      t.video.currentState.cursorX ≤ 2 ∧ t.video.currentState.cursorY < 2 ∧
      ∀ i ∈ t.video.cells, i < 4 := by
  have hruns : (shortStream.foldlM (putChar ⟨2, 2, by decide, by decide⟩ silentHost 0)
      (create ⟨2, 2, by decide, by decide⟩ 0x00aaaaaa 0xffffffff)).isSome := by decide +kernel
  obtain ⟨t, ht⟩ := Option.isSome_iff_exists.mp hruns
  exact ⟨t, ht, cursor_and_cells_in_grid ht⟩

end Terminal

end Cryptix.Drivers
