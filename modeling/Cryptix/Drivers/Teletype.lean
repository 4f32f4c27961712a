import Cryptix.Drivers.Terminal

/-!
# Printing text

What `PrintString` of `Kernel/Drivers/Terminal.cpp` does with plain text: printable characters, line
feeds and carriage returns. The reference is a teletype with rows and columns of its own, which
writes a character at the cursor, moves to the next row before it would write past the last column,
and scrolls by one row before it would leave the last one.

The terminal is that teletype as long as `RawPutChar` does not correct the row of a cursor that
wraps. It compares the row with the number of columns, so a grid with more rows than columns goes
wrong at the first wrap into row `ws_col` or below (`prints_like_teletype_iff`).
-/

namespace Cryptix.Drivers

open VideoTerminal

/-- A byte of plain text. -/
def IsPlain (c : UInt8) : Prop :=
  c = 0x0a ∨ c = 0x0d ∨ 0x20 ≤ c.toNat ∧ c.toNat ≤ 0x7e

instance (c : UInt8) : Decidable (IsPlain c) := by
  unfold IsPlain
  infer_instance

/-- The bytes of plain text. -/
abbrev PlainChar := { c : UInt8 // IsPlain c }

/-! ## The reference -/

/-- A teletype: what stands in each row and column, and where the next character goes. The column is
the number of columns when the last row is full. -/
structure Teletype where
  cell : (row column : ℕ) → Character
  row : ℕ
  column : ℕ

namespace Teletype

variable (size : Winsize) (state : ConsoleState)

/-- The next row. Behind the last one every row moves up, and a blank one follows. -/
def newLine (m : Teletype) : Teletype :=
  if m.row + 1 = size.wsRow then
    { m with
      cell := fun r c => if r + 1 < size.wsRow then m.cell (r + 1) c else state.empty
      column := 0 }
  else { m with row := m.row + 1, column := 0 }

/-- The teletype as it is when it strikes a character: on the next row if this one is full. -/
def advance (m : Teletype) : Teletype :=
  if m.column = size.wsCol then m.newLine size state else m

/-- Strikes a character and moves on by one column. -/
def strike (m : Teletype) (ch : Character) : Teletype :=
  { m with
    cell := fun r c => if r = m.row ∧ c = m.column then ch else m.cell r c
    column := m.column + 1 }

/-- One byte of plain text. -/
def type (m : Teletype) (c : UInt8) : Teletype :=
  if c = 0x0a then m.newLine size state
  else if c = 0x0d then { m with column := 0 }
  else
    (m.advance size state).strike
      ⟨c.toNat, state.textForeground, state.textBackground⟩

/-- A blank sheet. -/
def blank : Teletype := ⟨fun _ _ => state.empty, 0, 0⟩

/-- A whole text. -/
def typeAll (m : Teletype) (text : List PlainChar) : Teletype :=
  text.foldl (fun m c => m.type size state c.val) m

/-- The byte does not wrap the teletype into row `ws_col` or below. -/
def Keeps (m : Teletype) (c : UInt8) : Prop :=
  0x20 ≤ c.toNat → m.column = size.wsCol → (m.newLine size state).row < size.wsCol

/-- No byte of the text does. -/
def KeepsAll : Teletype → List PlainChar → Prop
  | _, [] => True
  | m, c :: text => m.Keeps size state c.val ∧ KeepsAll (m.type size state c.val) text

end Teletype

namespace Terminal

/-- `PrintString`. -/
def printString (size : Winsize) (host : Host) (depth : ℕ) (t : Terminal) (str : List UInt8) :
    Option Terminal :=
  if !t.initialized then some t
  else (str.foldlM (putCharImpl size host depth) t).map (flush size)

/-! ## The terminal follows the teletype -/

/-- The terminal shows the sheet of the teletype, with the cursor where it is. -/
structure Follows (size : Winsize) (state : ConsoleState) (t : Terminal) (m : Teletype) : Prop where
  initialized : t.initialized = true
  parser : t.parser.state = .normal
  linked : t.video.Linked size
  shown : ∀ r < size.wsRow, ∀ c < size.wsCol, t.video.charAt (r * size.wsCol + c) = m.cell r c
  cursorX_eq : t.video.currentState.cursorX = m.column
  cursorY_eq : t.video.currentState.cursorY = m.row
  foreground_eq : t.video.currentState.textForeground = state.textForeground
  background_eq : t.video.currentState.textBackground = state.textBackground
  top_eq : t.video.scrollTopMargin = 0
  bottom_eq : t.video.scrollBottomMargin = size.wsRow
  column_le : m.column ≤ size.wsCol
  row_lt : m.row < size.wsRow

variable {size : Winsize} {state : ConsoleState} {host : Host} {t : Terminal} {m : Teletype}

/-- Cells in the order of their indices. -/
theorem cell_lt_row_iff {w r c k : ℕ} (hc : c < w) : r * w + c < k * w ↔ r < k := by
  constructor
  · intro h
    by_contra hge
    have := Nat.mul_le_mul_right w (Nat.le_of_not_lt hge)
    omega
  · intro h
    have := Nat.mul_le_mul_right w h
    rw [Nat.succ_mul] at this
    omega

theorem cell_eq_iff {w r c r' c' : ℕ} (hc : c < w) (hc' : c' < w) :
    r * w + c = r' * w + c' ↔ r = r' ∧ c = c' := by
  constructor
  · intro h
    have hle : r < r' + 1 := (cell_lt_row_iff hc).mp (by rw [Nat.succ_mul]; omega)
    have hge : r' < r + 1 := (cell_lt_row_iff hc').mp (by rw [Nat.succ_mul]; omega)
    obtain rfl : r = r' := by omega
    exact ⟨rfl, by omega⟩
  · rintro ⟨rfl, rfl⟩
    rfl

namespace Follows

/-- The colours of the text are the reference's. -/
theorem empty_eq (h : Follows size state t m) : t.video.currentState.empty = state.empty := by
  rw [ConsoleState.empty, ConsoleState.empty, h.foreground_eq, h.background_eq]

/-- The terminal as one that shows what it shows. -/
theorem shows (h : Follows size state t m) :
    Shows size t.video ⟨t.video.charAt, t.video.currentState⟩ :=
  ⟨h.linked, rfl, rfl, h.top_eq, h.bottom_eq⟩

/-- Moving the cursor. -/
theorem moveCursor (h : Follows size state t m) {x y : ℕ} (hx : x ≤ size.wsCol)
    (hy : y < size.wsRow) :
    Follows size state (t.draw (t.video.moveCursor x y)) { m with row := y, column := x } :=
  { h with
    cursorX_eq := rfl
    cursorY_eq := rfl
    column_le := hx
    row_lt := hy }

theorem clamp_of_lt {limit pos : ℕ} (h : pos < limit) : clamp limit pos = pos := by
  rw [clamp, if_neg (by omega)]

theorem setCursorPos (h : Follows size state t m) {x y : ℕ} (hx : x < size.wsCol)
    (hy : y < size.wsRow) :
    Follows size state (t.draw (t.video.setCursorPos size x y))
      { m with row := y, column := x } := by
  rw [VideoTerminal.setCursorPos, clamp_of_lt hx, clamp_of_lt hy]
  exact h.moveCursor hx.le hy

/-- Scrolling moves every row of the sheet up. -/
theorem scrollDown (h : Follows size state t m) :
    Follows size state (t.draw (t.video.scrollDown size))
      { m with
        cell := fun r c => if r + 1 < size.wsRow then m.cell (r + 1) c else state.empty } := by
  have hs := h.shows.scrollDown
  have hstate : (t.video.scrollDown size).currentState = t.video.currentState := hs.state_eq
  refine
    { h with
      linked := hs.linked
      shown := fun r hr c hc => ?_
      cursorX_eq := (congrArg _ hstate).trans h.cursorX_eq
      cursorY_eq := (congrArg _ hstate).trans h.cursorY_eq
      foreground_eq := (congrArg _ hstate).trans h.foreground_eq
      background_eq := (congrArg _ hstate).trans h.background_eq
      top_eq := hs.top_eq
      bottom_eq := hs.bottom_eq }
  have hlast : r * size.wsCol + c < (size.wsRow - 1) * size.wsCol ↔ r < size.wsRow - 1 :=
    cell_lt_row_iff hc
  have hall : r * size.wsCol + c < size.wsRow * size.wsCol := (cell_lt_row_iff hc).mpr hr
  have hchar : (t.video.scrollDown size).charAt =
      Screen.scrollDown size 0 size.wsRow state.empty t.video.charAt := by
    rw [← h.empty_eq]
    exact hs.screen_eq
  simp only [draw]
  rw [hchar, Screen.scrollDown]
  by_cases hnext : r + 1 < size.wsRow
  · rw [if_pos ⟨by omega, hlast.mpr (by omega)⟩, if_pos hnext, ← h.shown (r + 1) hnext c hc,
      Nat.succ_mul]
    congr 1
    omega
  · rw [if_neg (fun hin => hnext (by have := hlast.mp hin.2; omega)), if_neg hnext, if_pos]
    exact ⟨Nat.le_of_not_lt fun hin => hnext (by have := hlast.mp hin; omega), hall⟩

/-- The next row, in the terminal and on the sheet. -/
theorem nextRow (h : Follows size state t m) :
    Follows size state (t.draw (t.video.nextRow size)) (m.newLine size state) := by
  have hrow := h.row_lt
  rw [VideoTerminal.nextRow, Teletype.newLine]
  rw [h.bottom_eq, h.cursorY_eq]
  split
  · exact (h.moveCursor (Nat.zero_le _) (by omega)).scrollDown
  · exact h.moveCursor (Nat.zero_le _) (by omega)

/-- A cursor that wraps, when its row is not corrected. -/
theorem wrapCursor (h : Follows size state t m)
    (hkeeps : (m.newLine size state).row < size.wsCol) :
    Follows size state (t.draw (t.video.wrapCursor size)) (m.newLine size state) := by
  have hnext := h.nextRow
  have hy : (t.video.nextRow size).currentState.cursorY = (m.newLine size state).row :=
    hnext.cursorY_eq
  rw [VideoTerminal.wrapCursor]
  rw [if_neg (by omega)]
  exact hnext

/-- A cursor that wraps into row `ws_col` or below goes to the row above it instead. -/
theorem wrapCursor_corrected (h : Follows size state t m)
    (hlow : size.wsCol ≤ (m.newLine size state).row) :
    Follows size state (t.draw (t.video.wrapCursor size))
      { m.newLine size state with row := size.wsCol - 1, column := 0 } := by
  have hnext := h.nextRow
  have hy : (t.video.nextRow size).currentState.cursorY = (m.newLine size state).row :=
    hnext.cursorY_eq
  have hrow := hnext.row_lt
  have hpos := size.wsCol_pos
  rw [VideoTerminal.wrapCursor]
  rw [if_pos (by omega)]
  exact hnext.moveCursor (Nat.zero_le _) (by omega)

/-- A character at the cursor. -/
theorem strike (h : Follows size state t m) (hcolumn : m.column < size.wsCol) (c : ℕ) :
    Follows size state
      (t.draw ((t.video.moveCursor (t.video.currentState.cursorX + 1)
        t.video.currentState.cursorY).enqueueChar size
          ⟨c, t.video.currentState.textForeground, t.video.currentState.textBackground⟩
          t.video.currentState.cursorX t.video.currentState.cursorY))
      (m.strike ⟨c, state.textForeground, state.textBackground⟩) := by
  have hmove := h.moveCursor (x := m.column + 1) (by omega) h.row_lt
  rw [h.foreground_eq, h.background_eq, h.cursorX_eq, h.cursorY_eq]
  have hs := hmove.shows.of_refines
    (refines_enqueueChar ⟨c, state.textForeground, state.textBackground⟩ m.column m.row)
  have hstate : (VideoTerminal.enqueueChar size (t.video.moveCursor (m.column + 1) m.row)
      ⟨c, state.textForeground, state.textBackground⟩ m.column m.row).currentState =
      (t.video.moveCursor (m.column + 1) m.row).currentState := hs.state_eq
  have hchar : (VideoTerminal.enqueueChar size (t.video.moveCursor (m.column + 1) m.row)
      ⟨c, state.textForeground, state.textBackground⟩ m.column m.row).charAt =
      Screen.put size t.video.charAt ⟨c, state.textForeground, state.textBackground⟩
        m.column m.row := hs.screen_eq
  refine
    { hmove with
      linked := hs.linked
      shown := fun r hr c' hc' => ?_
      cursorX_eq := congrArg _ hstate
      cursorY_eq := congrArg _ hstate
      foreground_eq := (congrArg _ hstate).trans hmove.foreground_eq
      background_eq := (congrArg _ hstate).trans hmove.background_eq
      top_eq := hs.top_eq
      bottom_eq := hs.bottom_eq }
  have hrow := h.row_lt
  have hshown := h.shown r hr c' hc'
  simp only [draw, Teletype.strike]
  rw [hchar, Screen.put, if_neg (by omega)]
  by_cases hcell : r = m.row ∧ c' = m.column
  · rw [if_pos hcell, (cell_eq_iff hc' hcolumn).mpr hcell, Function.update_self]
  · rw [if_neg hcell, Function.update_of_ne (mt (cell_eq_iff hc' hcolumn).mp hcell)]
    exact hshown

/-- `RawPutChar` strikes the character, when it does not correct the row. -/
theorem rawPutChar (h : Follows size state t m) (c : ℕ)
    (hkeeps : m.column = size.wsCol → (m.newLine size state).row < size.wsCol) :
    Follows size state (t.draw (t.video.rawPutChar size c))
      ((m.advance size state).strike ⟨c, state.textForeground, state.textBackground⟩) := by
  have hle := h.column_le
  rw [VideoTerminal.rawPutChar, Teletype.advance]
  rw [h.cursorX_eq]
  by_cases hfull : m.column = size.wsCol
  · have hcolumn : (m.newLine size state).column < size.wsCol := by
      have := size.wsCol_pos
      rw [Teletype.newLine]
      split <;> exact this
    rw [if_pos hfull, if_pos hfull.ge]
    exact (h.wrapCursor (hkeeps hfull)).strike hcolumn c
  · rw [if_neg hfull, if_neg (by omega)]
    exact h.strike (by omega) c

/-- The cursor `GetCursorPos` reports is in the row of the teletype. -/
theorem getCursorPos_snd (h : Follows size state t m) :
    (t.video.getCursorPos size).2 = m.row := by
  have := h.row_lt
  rw [getCursorPos, h.cursorY_eq]
  exact if_neg (by omega)

end Follows

theorem putCharImpl_normal (hinit : t.initialized = true) (hnormal : t.parser.state = .normal)
    (depth : ℕ) (c : UInt8) : t.putCharImpl size host depth c = t.putNormal size c := by
  cases depth with
  | zero => simp [putCharImpl, putCharWith, hinit, hnormal]
  | succ depth => simp [putCharImpl, putCharWith, hinit, hnormal]

theorem putNormal_lineFeed (t : Terminal) :
    t.putNormal size 0x0a =
      if (t.video.getCursorPos size).2 = t.video.scrollBottomMargin - 1 then
        some (t.draw ((t.video.scrollDown size).setCursorPos size 0 (t.video.getCursorPos size).2))
      else some (t.draw (t.video.setCursorPos size 0 ((t.video.getCursorPos size).2 + 1))) := rfl

theorem putNormal_return (t : Terminal) :
    t.putNormal size 0x0d =
      some (t.draw (t.video.setCursorPos size 0 (t.video.getCursorPos size).2)) := rfl

theorem putNormal_printable (t : Terminal) {c : UInt8} (hc : 0x20 ≤ c.toNat ∧ c.toNat ≤ 0x7e) :
    t.putNormal size c = some (t.draw (t.video.rawPutChar size c.toNat)) := by
  rw [putNormal]
  dsimp only
  split <;> first | omega | rw [if_pos hc]

namespace Follows

/-- A line feed. -/
theorem lineFeed (h : Follows size state t m) :
    ∃ t', t.putNormal size 0x0a = some t' ∧ Follows size state t' (m.newLine size state) := by
  have hrow := h.row_lt
  rw [putNormal_lineFeed, h.getCursorPos_snd, h.bottom_eq, Teletype.newLine]
  by_cases hlast : m.row + 1 = size.wsRow
  · rw [if_pos (by omega), if_pos hlast]
    exact ⟨_, rfl, h.scrollDown.setCursorPos size.wsCol_pos hrow⟩
  · rw [if_neg (by omega), if_neg hlast]
    exact ⟨_, rfl, h.setCursorPos size.wsCol_pos (by omega)⟩

/-- `RawPutChar` at the end of a row, when it does correct the row. -/
theorem rawPutChar_corrected (h : Follows size state t m) (c : ℕ) (hfull : m.column = size.wsCol)
    (hlow : size.wsCol ≤ (m.newLine size state).row) :
    Follows size state (t.draw (t.video.rawPutChar size c))
      ({ m.newLine size state with row := size.wsCol - 1, column := 0 }.strike
        ⟨c, state.textForeground, state.textBackground⟩) := by
  rw [VideoTerminal.rawPutChar, h.cursorX_eq, if_pos hfull.ge]
  exact (h.wrapCursor_corrected hlow).strike size.wsCol_pos c

/-- One byte of plain text. -/
theorem putChar (h : Follows size state t m) (host : Host) (depth : ℕ) (c : PlainChar)
    (hkeeps : m.Keeps size state c.val) :
    ∃ t', t.putCharImpl size host depth c.val = some t' ∧
      Follows size state t' (m.type size state c.val) := by
  rw [putCharImpl_normal h.initialized h.parser]
  obtain ⟨c, rfl | rfl | hc⟩ := c
  · exact h.lineFeed
  · rw [putNormal_return, h.getCursorPos_snd]
    exact ⟨_, rfl, h.setCursorPos size.wsCol_pos h.row_lt⟩
  · have hfeed : c ≠ 0x0a := by
      rintro rfl
      exact absurd hc.1 (by decide)
    have hreturn : c ≠ 0x0d := by
      rintro rfl
      exact absurd hc.1 (by decide)
    rw [putNormal_printable t hc, Teletype.type, if_neg hfeed, if_neg hreturn]
    exact ⟨_, rfl, h.rawPutChar c.toNat (hkeeps hc.1)⟩

/-- A text none of whose bytes wraps into a row that is corrected. -/
theorem putChars (h : Follows size state t m) (host : Host) (depth : ℕ) (text : List PlainChar)
    (hkeeps : m.KeepsAll size state text) :
    ∃ t', (text.map Subtype.val).foldlM (putCharImpl size host depth) t = some t' ∧
      Follows size state t' (m.typeAll size state text) := by
  induction text generalizing t m with
  | nil => exact ⟨t, rfl, h⟩
  | cons c text ih =>
    obtain ⟨t₁, hput, hfollows⟩ := h.putChar host depth c hkeeps.1
    obtain ⟨t', hrest, hfollows'⟩ := ih hfollows hkeeps.2
    refine ⟨t', ?_, hfollows'⟩
    rw [List.map_cons, List.foldlM_cons, hput]
    exact hrest

end Follows

/-- A new terminal is a blank sheet. -/
theorem create_follows (size : Winsize) (state : ConsoleState) :
    Follows size state (create size state.textForeground state.textBackground)
      (Teletype.blank state) where
  initialized := rfl
  parser := rfl
  linked := (Shows.create size _ _).linked
  shown _ _ _ _ := rfl
  cursorX_eq := rfl
  cursorY_eq := rfl
  foreground_eq := rfl
  background_eq := rfl
  top_eq := rfl
  bottom_eq := rfl
  column_le := Nat.zero_le _
  row_lt := size.wsRow_pos

/-- After `PrintString` on a new terminal, and the `Flush` it ends with, the grid is the sheet of
the teletype. -/
def PrintsLikeTeletype (size : Winsize) (host : Host) (depth : ℕ) (state : ConsoleState)
    (text : List PlainChar) : Prop :=
  ∃ t', (create size state.textForeground state.textBackground).printString size host depth
      (text.map Subtype.val) = some t' ∧
    ∀ r < size.wsRow, ∀ c < size.wsCol, t'.video.grid (r * size.wsCol + c) =
      ((Teletype.blank state).typeAll size state text).cell r c

/-- The grid after `PrintString`, in terms of the calls of `PutCharImpl`. -/
theorem printString_grid {depth : ℕ} {str : List UInt8} {t' : Terminal}
    (hinit : t.initialized = true)
    (h : str.foldlM (putCharImpl size host depth) t = some t') (hlinked : t'.video.Linked size) :
    ∃ u, t.printString size host depth str = some u ∧ u.video.grid = t'.video.charAt := by
  refine ⟨t'.flush size, ?_, (flush_grid hlinked).1⟩
  simp [printString, hinit, h]

theorem printsLikeTeletype_of_keepsAll (depth : ℕ) {text : List PlainChar}
    (hkeeps : (Teletype.blank state).KeepsAll size state text) :
    PrintsLikeTeletype size host depth state text := by
  obtain ⟨t', hrun, hfollows⟩ := (create_follows size state).putChars host depth text hkeeps
  obtain ⟨u, hu, hgrid⟩ := printString_grid rfl hrun hfollows.linked
  exact ⟨u, hu, fun r hr c hc => by rw [hgrid, hfollows.shown r hr c hc]⟩

/-! ## A grid with more rows than columns -/

end Terminal

namespace Teletype

variable {size : Winsize} {state : ConsoleState} {m : Teletype}

theorem type_printable {c : UInt8} (hc : 0x20 ≤ c.toNat) :
    m.type size state c =
      (m.advance size state).strike ⟨c.toNat, state.textForeground, state.textBackground⟩ := by
  have hfeed : c ≠ 0x0a := by
    rintro rfl
    exact absurd hc (by decide)
  have hreturn : c ≠ 0x0d := by
    rintro rfl
    exact absurd hc (by decide)
  rw [type, if_neg hfeed, if_neg hreturn]

/-- On a grid that is not taller than wide no row is ever corrected. -/
theorem keepsAll_of_le (h : size.wsRow ≤ size.wsCol) (hrow : m.row < size.wsRow)
    (text : List PlainChar) : m.KeepsAll size state text := by
  have hnew : ∀ m : Teletype, m.row < size.wsRow → (m.newLine size state).row < size.wsRow := by
    intro m hm
    rw [newLine]
    split
    · exact hm
    · simp only
      omega
  induction text generalizing m with
  | nil => trivial
  | cons c text ih =>
    refine ⟨fun _ _ => (hnew m hrow).trans_le h, ih ?_⟩
    rw [type]
    split
    · exact hnew m hrow
    · split
      · exact hrow
      · rw [advance]
        split
        · exact hnew m hrow
        · exact hrow

theorem keepsAll_append (text rest : List PlainChar) :
    m.KeepsAll size state (text ++ rest) ↔
      m.KeepsAll size state text ∧ (m.typeAll size state text).KeepsAll size state rest := by
  induction text generalizing m with
  | nil => exact ⟨fun h => ⟨trivial, h⟩, And.right⟩
  | cons c text ih =>
    rw [List.cons_append, KeepsAll, KeepsAll, ih, and_assoc]
    rfl

/-- The line feed as a byte of plain text. -/
def feed : PlainChar := ⟨0x0a, .inl rfl⟩

/-- `n` line feeds on a sheet that has room for them. -/
theorem feeds (n : ℕ) (hrow : m.row + n < size.wsRow) (hcolumn : m.column = 0) :
    m.KeepsAll size state (List.replicate n feed) ∧
      m.typeAll size state (List.replicate n feed) = { m with row := m.row + n } := by
  induction n generalizing m with
  | zero => exact ⟨trivial, rfl⟩
  | succ n ih =>
    have hnext : m.type size state feed.val = { m with row := m.row + 1, column := 0 } := by
      rw [type, if_pos (show feed.val = 0x0a from rfl), newLine, if_neg (by omega)]
    obtain ⟨hkeeps, htype⟩ := ih (m := { m with row := m.row + 1, column := 0 })
      (by simp only; omega) rfl
    rw [List.replicate_succ]
    refine ⟨⟨fun h => absurd h (by decide), hnext ▸ hkeeps⟩, ?_⟩
    change (m.type size state feed.val).typeAll size state (List.replicate n feed) = _
    rw [hnext, htype, hcolumn]
    simp only [Nat.add_right_comm, Nat.add_assoc]

/-- `n` printable characters in a row that has room for them leave the other rows alone. -/
theorem strikes (c : PlainChar) (hc : 0x20 ≤ c.val.toNat) (n : ℕ)
    (hcolumn : m.column + n ≤ size.wsCol) :
    let m' := m.typeAll size state (List.replicate n c)
    m.KeepsAll size state (List.replicate n c) ∧ m'.row = m.row ∧ m'.column = m.column + n ∧
      ∀ r ≠ m.row, m'.cell r = m.cell r := by
  induction n generalizing m with
  | zero => exact ⟨trivial, rfl, rfl, fun _ _ => rfl⟩
  | succ n ih =>
    have hnext : m.type size state c.val =
        m.strike ⟨c.val.toNat, state.textForeground, state.textBackground⟩ := by
      rw [type_printable hc, advance, if_neg (by omega)]
    obtain ⟨hkeeps, hrow, hcol, hcell⟩ := ih
      (m := m.strike ⟨c.val.toNat, state.textForeground, state.textBackground⟩)
      (by simp only [strike]; omega)
    rw [List.replicate_succ]
    have hall : m.typeAll size state (c :: List.replicate n c) =
        (m.strike ⟨c.val.toNat, state.textForeground, state.textBackground⟩).typeAll size state
          (List.replicate n c) := by
      rw [← hnext]
      rfl
    refine ⟨⟨fun _ hfull => by omega, hnext ▸ hkeeps⟩, ?_, ?_, fun r hr => ?_⟩
    · rw [hall, hrow]
      rfl
    · rw [hall, hcol]
      simp only [strike]
      omega
    · rw [hall, hcell r hr]
      funext k
      simp only [strike]
      rw [if_neg fun h => hr h.1]

theorem typeAll_append (text rest : List PlainChar) :
    m.typeAll size state (text ++ rest) = (m.typeAll size state text).typeAll size state rest :=
  List.foldl_append

/-- Line feeds down to row `ws_col - 1`, and that row full of one letter. -/
def fullRow (size : Winsize) (c : PlainChar) : List PlainChar :=
  List.replicate (size.wsCol - 1) feed ++ List.replicate size.wsCol c

/-- The sheet then: the teletype is at the end of that row, and the rows below are blank. -/
theorem typeAll_fullRow (htall : size.wsCol < size.wsRow) (c : PlainChar)
    (hc : 0x20 ≤ c.val.toNat) :
    let m := (blank state).typeAll size state (fullRow size c)
    (blank state).KeepsAll size state (fullRow size c) ∧ m.row = size.wsCol - 1 ∧
      m.column = size.wsCol ∧ ∀ r ≠ size.wsCol - 1, m.cell r = fun _ => state.empty := by
  have hfeeds : (blank state).KeepsAll size state _ ∧ (blank state).typeAll size state _ = _ :=
    feeds (size.wsCol - 1) (by simp only [blank]; omega) rfl
  obtain ⟨hkeeps, htype⟩ := hfeeds
  obtain ⟨hkeeps', hrow, hcolumn, hcell⟩ :
      let m' := Teletype.typeAll size state { blank state with row := 0 + (size.wsCol - 1) }
        (List.replicate size.wsCol c)
      Teletype.KeepsAll size state { blank state with row := 0 + (size.wsCol - 1) }
        (List.replicate size.wsCol c) ∧ m'.row = 0 + (size.wsCol - 1) ∧
        m'.column = 0 + size.wsCol ∧ ∀ r ≠ 0 + (size.wsCol - 1), m'.cell r = _ :=
    strikes c hc size.wsCol (by simp [blank])
  rw [fullRow, typeAll_append, keepsAll_append, htype]
  exact ⟨⟨hkeeps, hkeeps'⟩, hrow.trans (Nat.zero_add _), hcolumn.trans (Nat.zero_add _),
    fun r hr => hcell r (by omega)⟩

end Teletype

namespace Terminal

open Teletype

variable {size : Winsize} {state : ConsoleState} {host : Host}

/-- `A` and `B` as bytes of plain text. -/
def letterA : PlainChar := ⟨0x41, .inr (.inr (by decide))⟩

@[inherit_doc letterA] def letterB : PlainChar := ⟨0x42, .inr (.inr (by decide))⟩

/-- A text that fills row `ws_col - 1` and goes on. -/
def tallText (size : Winsize) : List PlainChar := fullRow size letterA ++ [letterB]

/-- The last letter of the text belongs to row `ws_col`, and the terminal writes it to the row
above. -/
theorem not_printsLikeTeletype_tallText (depth : ℕ) (htall : size.wsCol < size.wsRow) :
    ¬PrintsLikeTeletype size host depth state (tallText size) := by
  rintro ⟨u, hprint, hgrid⟩
  have hpos := size.wsCol_pos
  obtain ⟨hkeeps, hrow, hcolumn, hcell⟩ :
      let m := (blank state).typeAll size state (fullRow size letterA)
      (blank state).KeepsAll size state (fullRow size letterA) ∧ m.row = size.wsCol - 1 ∧
        m.column = size.wsCol ∧ ∀ r ≠ size.wsCol - 1, m.cell r = fun _ => state.empty :=
    typeAll_fullRow htall letterA (by decide)
  obtain ⟨t₁, hrun, hfollows⟩ := (create_follows size state).putChars host depth _ hkeeps
  have hsheet : (blank state).typeAll size state (tallText size) =
      ((blank state).typeAll size state (fullRow size letterA)).type size state letterB.val :=
    typeAll_append _ _
  generalize (blank state).typeAll size state (fullRow size letterA) = m at *
  have hnew : m.newLine size state = { m with row := size.wsCol, column := 0 } := by
    rw [newLine, if_neg (by omega), hrow, Nat.sub_add_cancel hpos]
  -- the terminal after the last letter
  have hlast := hfollows.rawPutChar_corrected 0x42 hcolumn (by rw [hnew])
  have hput : t₁.putCharImpl size host depth letterB.val =
      some (t₁.draw (t₁.video.rawPutChar size 0x42)) := by
    rw [putCharImpl_normal hfollows.initialized hfollows.parser]
    exact putNormal_printable t₁ (by decide)
  have hall : ((tallText size).map Subtype.val).foldlM (putCharImpl size host depth)
      (create size state.textForeground state.textBackground) =
      some (t₁.draw (t₁.video.rawPutChar size 0x42)) := by
    rw [tallText, List.map_append, List.foldlM_append, hrun]
    simp [hput]
  obtain ⟨u', hu', hgrid'⟩ := printString_grid rfl hall hlast.linked
  obtain rfl : u = u' := Option.some.inj (hprint.symm.trans hu')
  -- the cell at the start of row `ws_col`
  have hcode : u.video.grid (size.wsCol * size.wsCol + 0) = state.empty := by
    rw [hgrid', hlast.shown size.wsCol htall 0 hpos, hnew]
    simp only [strike]
    rw [if_neg (by omega), hcell size.wsCol (by omega)]
  have href : (m.type size state letterB.val).cell size.wsCol 0 =
      ⟨0x42, state.textForeground, state.textBackground⟩ := by
    rw [type_printable (by decide), advance, if_pos hcolumn, hnew, strike]
    exact if_pos ⟨rfl, rfl⟩
  have heq := hgrid size.wsCol htall 0 hpos
  rw [hcode, hsheet, href] at heq
  exact absurd (congrArg Character.codePoint heq) (by simp [ConsoleState.empty])

/-- The terminal prints every plain text like the teletype exactly on the grids that are not taller
than wide; and on every grid it prints like it the texts that never wrap into row `ws_col` or
below. -/
theorem prints_like_teletype_iff (size : Winsize) (host : Host) (depth : ℕ) (state : ConsoleState) :
    ((∀ text, PrintsLikeTeletype size host depth state text) ↔ size.wsRow ≤ size.wsCol) ∧
      ∀ text, (blank state).KeepsAll size state text →
        PrintsLikeTeletype size host depth state text := by
  refine ⟨⟨fun h => ?_, fun h text => ?_⟩, fun text => printsLikeTeletype_of_keepsAll depth⟩
  · by_contra htall
    exact not_printsLikeTeletype_tallText depth (by omega) (h (tallText size))
  · exact printsLikeTeletype_of_keepsAll depth (keepsAll_of_le h size.wsRow_pos text)

/-- Two letters on a grid of two rows and one column end up in the same cell. -/
theorem not_printsLikeTeletype_twoLetters :
    ¬PrintsLikeTeletype ⟨2, 1, by decide, by decide⟩ silentHost 0 ⟨0, 0, 0, 0⟩
      [letterA, letterB] := by
  rintro ⟨u, hprint, hgrid⟩
  have hcode : ((create ⟨2, 1, by decide, by decide⟩ 0 0).printString ⟨2, 1, by decide, by decide⟩
      silentHost 0 [0x41, 0x42]).map (fun t => t.video.grid 1) = some ⟨0x20, 0, 0⟩ := by
    decide
  have hblank : u.video.grid 1 = ⟨0x20, 0, 0⟩ := by
    have h := (congrArg (Option.map fun t => t.video.grid 1) hprint).symm.trans hcode
    exact Option.some.inj h
  have href := hgrid 1 (by decide) 0 (by decide)
  exact absurd (hblank.symm.trans href) (by decide)

end Terminal

end Cryptix.Drivers
