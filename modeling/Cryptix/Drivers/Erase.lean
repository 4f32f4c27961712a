import Cryptix.Drivers.Terminal

/-!
# Erasing the display and the line

`ED` and `EL` of `Kernel/Drivers/Terminal.cpp` erase by printing blanks with `RawPutChar`, which
wraps at the last column and scrolls at the bottom margin. `EL` prints as many as there are columns
left. `ED` counts `startY * ws_row + startX` cells before the cursor where there are
`startY * ws_col + startX`, and a sequence with a parameter, also with the parameter 0, does not
reach its loop.
-/

namespace Cryptix.Drivers

/-- The state with the cursor at `(x, y)`. -/
def ConsoleState.cursorAt (state : ConsoleState) (x y : ℕ) : ConsoleState :=
  { state with cursorX := x, cursorY := y }

namespace VideoTerminal

/-- The erasures: `ED` with the parameter 0, given or not, and `EL` with the parameters 0 and 2. -/
inductive Erase
  | ed (escapeValueCount : ℕ)
  | el
  | elLine

variable (size : Winsize)

/-- The loop of `ED` and `EL`. -/
def blanks (t : VideoTerminal) (n : ℕ) : VideoTerminal :=
  (List.range n).foldl (fun t _ => t.rawPutChar size 0x20) t

/-- `RawPutChar` calls `ScrollDown`. -/
def ScrollsNext (t : VideoTerminal) : Prop :=
  t.currentState.cursorX ≥ size.wsCol ∧ t.currentState.cursorY + 1 = t.scrollBottomMargin

instance (t : VideoTerminal) : Decidable (t.ScrollsNext size) := inferInstanceAs (Decidable (_ ∧ _))

/-- The cell that `GetCursorPos` names. -/
def cursorCell (t : VideoTerminal) : ℕ :=
  (t.getCursorPos size).2 * size.wsCol + (t.getCursorPos size).1

namespace Erase

def run (t : VideoTerminal) : Erase → VideoTerminal
  | .ed escapeValueCount => t.ed size escapeValueCount 0
  | .el => t.el size 0
  | .elLine => t.el size 2

/-- The cells to be erased. -/
def Region (t : VideoTerminal) (e : Erase) (i : ℕ) : Prop :=
  match e with
  | .ed _ => t.cursorCell size ≤ i
  | .el => t.cursorCell size ≤ i ∧ i < ((t.getCursorPos size).2 + 1) * size.wsCol
  | .elLine =>
    (t.getCursorPos size).2 * size.wsCol ≤ i ∧ i < ((t.getCursorPos size).2 + 1) * size.wsCol

/-- The terminal at the begin of the loop. -/
def loopStart (t : VideoTerminal) : Erase → VideoTerminal
  | .ed _ => t
  | .el => t.setCursorPos size (t.getCursorPos size).1 (t.getCursorPos size).2
  | .elLine => t.setCursorPos size 0 (t.getCursorPos size).2

/-- The number of blanks that are printed. -/
def loopCount (t : VideoTerminal) : Erase → ℕ
  | .ed escapeValueCount =>
    if escapeValueCount = 0 then
      size.wsCol * size.wsRow - ((t.getCursorPos size).2 * size.wsRow + (t.getCursorPos size).1)
    else 0
  | .el => size.wsCol - (t.getCursorPos size).1
  | .elLine => size.wsCol

end Erase

/-- The cells to be erased become blank, and the other cells and the cursor stay; no blank makes the
screen scroll. -/
structure Erased (t : VideoTerminal) (e : Erase) : Prop where
  blank : ∀ i < size.cells, e.Region size t i → (e.run size t).charAt i = t.currentState.empty
  frame : ∀ i < size.cells, ¬e.Region size t i → (e.run size t).charAt i = t.charAt i
  cursor : (e.run size t).currentState = t.currentState
  never_scrolls : ∀ k < e.loopCount size t, ¬(blanks size (e.loopStart size t) k).ScrollsNext size

/-- What `Erased` takes. Above the last row that `RawPutChar` goes to by wrapping, `ws_col - 1`, the
cells must be blank from the start; and when the cursor is in that row, so must be those to its left
that the surplus blanks overwrite. -/
def ErasesExactly (t : VideoTerminal) : Erase → Prop
  | .ed escapeValueCount =>
    if escapeValueCount = 0 then
      t.currentState.cursorX < size.wsCol ∧
        (size.wsRow < size.wsCol → t.currentState.cursorY = 0) ∧
        (∀ i < size.cells, t.cursorCell size ≤ i → size.wsCol * size.wsCol ≤ i →
          t.charAt i = t.currentState.empty) ∧
        (t.currentState.cursorY + 1 = size.wsCol →
          ∀ x < t.currentState.cursorX, x < size.wsRow - size.wsCol →
            t.charAt (t.currentState.cursorY * size.wsCol + x) = t.currentState.empty)
    else ∀ i < size.cells, t.cursorCell size ≤ i → t.charAt i = t.currentState.empty
  | .el => t.currentState.cursorX < size.wsCol
  | .elLine => t.currentState.cursorX < size.wsCol

variable {size} {t : VideoTerminal}

/-! ## Printing blanks -/

theorem blanks_succ (t : VideoTerminal) (n : ℕ) :
    blanks size t (n + 1) = (blanks size t n).rawPutChar size 0x20 := by
  rw [blanks, List.range_succ, List.foldl_append]
  rfl

namespace Shows

variable {s : Screen} {state : ConsoleState} {x y : ℕ}

theorem moveCursor {m : Immediate} (h : Shows size t m) (x y : ℕ) :
    Shows size (t.moveCursor x y) ⟨m.screen, m.currentState.cursorAt x y⟩ :=
  ⟨h.linked, h.screen_eq, congrArg (fun s => s.cursorAt x y) h.state_eq, h.top_eq, h.bottom_eq⟩

theorem cursor (h : Shows size t ⟨s, state.cursorAt x y⟩) :
    t.currentState.cursorX = x ∧ t.currentState.cursorY = y := by
  rw [h.state_eq]
  exact ⟨rfl, rfl⟩

theorem scrollsNext_iff (h : Shows size t ⟨s, state.cursorAt x y⟩) :
    t.ScrollsNext size ↔ size.wsCol ≤ x ∧ y + 1 = size.wsRow := by
  rw [ScrollsNext, h.cursor.1, h.cursor.2, h.bottom_eq]

/-- A blank in the grid. -/
theorem put (h : Shows size t ⟨s, state.cursorAt x y⟩) (hx : x < size.wsCol)
    (hy : y < size.wsRow) :
    Shows size ((t.moveCursor (x + 1) y).enqueueChar size state.empty x y)
      ⟨Function.update s (y * size.wsCol + x) state.empty, state.cursorAt (x + 1) y⟩ := by
  have hput := (h.moveCursor (x + 1) y).of_refines (refines_enqueueChar state.empty x y)
  have hcell : Screen.put size s state.empty x y =
      Function.update s (y * size.wsCol + x) state.empty := if_neg (by omega)
  rw [← hcell]
  exact hput

theorem rawPutChar_inside (h : Shows size t ⟨s, state.cursorAt x y⟩) (hx : x < size.wsCol)
    (hy : y < size.wsRow) :
    Shows size (t.rawPutChar size 0x20)
      ⟨Function.update s (y * size.wsCol + x) state.empty, state.cursorAt (x + 1) y⟩ := by
  have hput := h.put hx hy
  obtain ⟨hcx, hcy⟩ := h.cursor
  have hstate := h.state_eq
  rw [VideoTerminal.rawPutChar, if_neg (by omega), hcx, hcy, hstate]
  exact hput

/-- A blank behind the last column goes to the next row, but not to one from `ws_col` on. -/
theorem rawPutChar_wraps (h : Shows size t ⟨s, state.cursorAt x y⟩) (hx : size.wsCol ≤ x)
    (hnext : y + 1 ≠ size.wsRow) (hrow : min (y + 1) (size.wsCol - 1) < size.wsRow) :
    Shows size (t.rawPutChar size 0x20)
      ⟨Function.update s (min (y + 1) (size.wsCol - 1) * size.wsCol) state.empty,
        state.cursorAt 1 (min (y + 1) (size.wsCol - 1))⟩ := by
  obtain ⟨hcx, hcy⟩ := h.cursor
  have hwrap : t.wrapCursor size = t.moveCursor 0 (min (y + 1) (size.wsCol - 1)) := by
    have hnextRow : t.nextRow size = t.moveCursor 0 (y + 1) := by
      rw [nextRow, hcy, h.bottom_eq]
      exact if_neg hnext
    rw [wrapCursor, hnextRow]
    by_cases hlast : y + 1 ≥ size.wsCol
    · rw [min_eq_right (by omega)]
      exact if_pos hlast
    · rw [min_eq_left (by omega)]
      exact if_neg hlast
  have hempty : (⟨0x20, t.currentState.textForeground, t.currentState.textBackground⟩ : Character) =
      state.empty := by
    rw [h.state_eq]
    rfl
  have hput : Shows size _ ⟨_, state.cursorAt (0 + 1) (min (y + 1) (size.wsCol - 1))⟩ :=
    Shows.put (h.moveCursor 0 (min (y + 1) (size.wsCol - 1))) size.wsCol_pos hrow
  rw [Nat.add_zero, Nat.zero_add] at hput
  rw [← hempty] at hput ⊢
  rw [VideoTerminal.rawPutChar, if_pos (by omega), hwrap]
  exact hput

/-- As long as the blanks fit behind the cursor, in its row or in the rows that wrapping goes to,
they are printed one behind the other, and nothing scrolls. -/
theorem blanks (h : Shows size t ⟨s, state.cursorAt x y⟩) (hx : x ≤ size.wsCol)
    (hy : y < size.wsRow) (n : ℕ)
    (hn : y * size.wsCol + x + n ≤ max (y + 1) (min size.wsCol size.wsRow) * size.wsCol) :
    ∃ x' y', y' * size.wsCol + x' = y * size.wsCol + x + n ∧ x' ≤ size.wsCol ∧ y ≤ y' ∧
      y' < max (y + 1) (min size.wsCol size.wsRow) ∧
      Shows size (VideoTerminal.blanks size t n)
        ⟨fun i => if y * size.wsCol + x ≤ i ∧ i < y * size.wsCol + x + n then state.empty else s i,
          state.cursorAt x' y'⟩ ∧
      ∀ k < n, ¬(VideoTerminal.blanks size t k).ScrollsNext size := by
  induction n with
  | zero =>
    refine ⟨x, y, rfl, hx, le_rfl, by omega, ?_, fun k hk => absurd hk (Nat.not_lt_zero k)⟩
    have hscreen : (fun i => if y * size.wsCol + x ≤ i ∧ i < y * size.wsCol + x + 0 then state.empty
        else s i) = s := by
      funext i
      exact if_neg (by omega)
    rw [hscreen]
    exact h
  | succ n ih =>
    obtain ⟨x', y', hcell, hx', hyy', hy', hshows, hnever⟩ := ih (by omega)
    have hscreen : Function.update
        (fun i => if y * size.wsCol + x ≤ i ∧ i < y * size.wsCol + x + n then state.empty else s i)
        (y' * size.wsCol + x') state.empty =
        fun i => if y * size.wsCol + x ≤ i ∧ i < y * size.wsCol + x + (n + 1) then state.empty
          else s i := by
      funext i
      by_cases hi : i = y' * size.wsCol + x'
      · rw [hi, Function.update_self, if_pos (by omega)]
      · rw [Function.update_of_ne hi]
        exact if_congr (by omega) rfl rfl
    rw [blanks_succ]
    -- the row behind a full one is one that wrapping goes to
    have hnext : size.wsCol ≤ x' → y' + 1 < max (y + 1) (min size.wsCol size.wsRow) := by
      intro hfull
      refine Nat.lt_of_mul_lt_mul_right (a := size.wsCol) ?_
      rw [Nat.succ_mul]
      omega
    have hnever' : ∀ k < n + 1, ¬(VideoTerminal.blanks size t k).ScrollsNext size := by
      intro k hk
      rcases Nat.lt_succ_iff_lt_or_eq.mp hk with hlt | rfl
      · exact hnever k hlt
      · rw [hshows.scrollsNext_iff]
        rintro ⟨hfull, hbottom⟩
        have := hnext hfull
        omega
    by_cases hinside : x' < size.wsCol
    · refine ⟨x' + 1, y', by omega, hinside, hyy', hy', ?_, hnever'⟩
      rw [← hscreen]
      exact hshows.rawPutChar_inside hinside (by omega)
    · have hnext := hnext (by omega)
      have hrow : min (y' + 1) (size.wsCol - 1) = y' + 1 := by omega
      refine ⟨1, y' + 1, by rw [Nat.succ_mul]; omega, size.wsCol_pos, by omega, hnext, ?_, hnever'⟩
      have hwrap := hshows.rawPutChar_wraps (by omega) (by omega) (by omega)
      rw [hrow] at hwrap
      have hstart : (y' + 1) * size.wsCol = y' * size.wsCol + x' := by
        rw [Nat.succ_mul]
        omega
      rw [← hscreen, ← hstart]
      exact hwrap

/-- When there are more rows than columns, all blanks that come when row `ws_col - 1` is full go to
that row again. -/
theorem blanks_again (h : Shows size t ⟨s, state.cursorAt x y⟩) (hrows : size.wsCol < size.wsRow)
    (hx : x < size.wsCol) {last : ℕ} (hlast : last + 1 = size.wsCol) (hy : y ≤ last) (k : ℕ) :
    ∃ x', x' ≤ size.wsCol ∧ (0 < k → k ≤ size.wsCol → x' = k) ∧ (k = 0 → x' = size.wsCol) ∧
      Shows size
        (VideoTerminal.blanks size t (size.wsCol * size.wsCol - (y * size.wsCol + x) + k))
        ⟨fun i => if (y * size.wsCol + x ≤ i ∧ i < size.wsCol * size.wsCol) ∨
            (last * size.wsCol ≤ i ∧ i < last * size.wsCol + min k size.wsCol) then state.empty
          else s i, state.cursorAt x' last⟩ ∧
      ∀ j < size.wsCol * size.wsCol - (y * size.wsCol + x) + k,
        ¬(VideoTerminal.blanks size t j).ScrollsNext size := by
  have hlimit : max (y + 1) (min size.wsCol size.wsRow) = size.wsCol := by omega
  have hsquare : size.wsCol * size.wsCol = last * size.wsCol + size.wsCol := by
    rw [← Nat.succ_mul, Nat.succ_eq_add_one, hlast]
  have hstart : y * size.wsCol ≤ last * size.wsCol := Nat.mul_le_mul_right _ hy
  induction k with
  | zero =>
    obtain ⟨x', y', hcell, hx', -, hy', hshows, hnever⟩ :=
      h.blanks hx.le (by omega) (size.wsCol * size.wsCol - (y * size.wsCol + x))
        (by rw [hlimit]; omega)
    have hrow : y' * size.wsCol ≤ last * size.wsCol := Nat.mul_le_mul_right _ (by omega)
    have hx' : x' = size.wsCol := by omega
    have hy' : y' = last := Nat.eq_of_mul_eq_mul_right size.wsCol_pos (by omega)
    refine ⟨x', hx'.le, fun hk => absurd hk (lt_irrefl 0), fun _ => hx', ?_, hnever⟩
    have hscreen : (fun i => if (y * size.wsCol + x ≤ i ∧ i < size.wsCol * size.wsCol) ∨
          (last * size.wsCol ≤ i ∧ i < last * size.wsCol + min 0 size.wsCol) then state.empty
        else s i) = fun i => if y * size.wsCol + x ≤ i ∧ i < y * size.wsCol + x +
          (size.wsCol * size.wsCol - (y * size.wsCol + x)) then state.empty else s i := by
      funext i
      exact if_congr (by omega) rfl rfl
    rw [hscreen, ← hy']
    exact hshows
  | succ k ih =>
    obtain ⟨x', hx', hpos, hzero, hshows, hnever⟩ := ih
    have hnever' : ∀ j < size.wsCol * size.wsCol - (y * size.wsCol + x) + (k + 1),
        ¬(VideoTerminal.blanks size t j).ScrollsNext size := by
      intro j hj
      rw [← Nat.add_assoc] at hj
      rcases Nat.lt_succ_iff_lt_or_eq.mp hj with hlt | rfl
      · exact hnever j hlt
      · rw [hshows.scrollsNext_iff]
        omega
    have hscreen (column : ℕ) (hcolumn : column < size.wsCol) (hk : k < size.wsCol → column = k) :
        Function.update (fun i =>
          if (y * size.wsCol + x ≤ i ∧ i < size.wsCol * size.wsCol) ∨
            (last * size.wsCol ≤ i ∧ i < last * size.wsCol + min k size.wsCol) then state.empty
          else s i) (last * size.wsCol + column) state.empty = fun i =>
          if (y * size.wsCol + x ≤ i ∧ i < size.wsCol * size.wsCol) ∨
            (last * size.wsCol ≤ i ∧ i < last * size.wsCol + min (k + 1) size.wsCol) then
            state.empty
          else s i := by
      funext i
      by_cases hi : i = last * size.wsCol + column
      · rw [hi, Function.update_self, if_pos (by omega)]
      · rw [Function.update_of_ne hi]
        exact if_congr (by omega) rfl rfl
    rw [← Nat.add_assoc, blanks_succ]
    by_cases hinside : x' < size.wsCol
    · refine ⟨x' + 1, hinside, by omega, by omega, ?_, hnever'⟩
      rw [← hscreen x' hinside (by omega)]
      exact hshows.rawPutChar_inside hinside (by omega)
    · have hrow : min (last + 1) (size.wsCol - 1) = last := by omega
      have hput := hshows.rawPutChar_wraps (by omega) (by omega) (by omega)
      rw [hrow] at hput
      refine ⟨1, size.wsCol_pos, by omega, by omega, ?_, hnever'⟩
      rw [← hscreen 0 size.wsCol_pos (by omega)]
      exact hput

end Shows

/-! ## The erasures -/

theorem getCursorPos_of_inside (h : Bounded size t) (hx : t.currentState.cursorX < size.wsCol) :
    t.getCursorPos size = (t.currentState.cursorX, t.currentState.cursorY) := by
  rw [getCursorPos, if_neg (by omega), if_neg (by have := h.cursorY_lt; omega)]

theorem getCursorPos_inside (size : Winsize) (t : VideoTerminal) :
    (t.getCursorPos size).1 < size.wsCol ∧ (t.getCursorPos size).2 < size.wsRow := by
  have hcol := size.wsCol_pos
  have hrow := size.wsRow_pos
  rw [getCursorPos]
  constructor
  · dsimp only
    split <;> omega
  · dsimp only
    split <;> omega

theorem setCursorPos_of_inside (t : VideoTerminal) {x y : ℕ} (hx : x < size.wsCol)
    (hy : y < size.wsRow) : t.setCursorPos size x y = t.moveCursor x y := by
  rw [setCursorPos, clamp, clamp, if_neg (by omega), if_neg (by omega)]

theorem Shows.self (hlinked : t.Linked size) (h : Bounded size t) :
    Shows size t
      ⟨t.charAt, t.currentState.cursorAt t.currentState.cursorX t.currentState.cursorY⟩ :=
  ⟨hlinked, rfl, rfl, h.top_eq, h.bottom_eq⟩

namespace Erase

/-- The erasure runs its loop. -/
def Loops : Erase → Prop
  | .ed escapeValueCount => escapeValueCount = 0
  | .el => True
  | .elLine => True

theorem loops_ed_zero : (ed 0).Loops := rfl

theorem loops_el : el.Loops := trivial

theorem loops_elLine : elLine.Loops := trivial

theorem run_of_loops {e : Erase} (he : e.Loops) (t : VideoTerminal) :
    e.run size t = (blanks size (e.loopStart size t) (e.loopCount size t)).moveCursor
      (t.getCursorPos size).1 (t.getCursorPos size).2 := by
  obtain ⟨hx, hy⟩ := getCursorPos_inside size t
  rw [← setCursorPos_of_inside _ hx hy]
  cases e with
  | ed escapeValueCount =>
    obtain rfl := he
    rfl
  | el => rfl
  | elLine => rfl

theorem run_ed_of_ne {escapeValueCount : ℕ} (h : escapeValueCount ≠ 0) (t : VideoTerminal) :
    (ed escapeValueCount).run size t = t := by
  rw [run, VideoTerminal.ed]
  simp [h]

end Erase

/-- A cursor behind the last column is moved by the loops. -/
theorem Erased.inside {e : Erase} (he : e.Loops) (h : Erased size t e) :
    t.currentState.cursorX < size.wsCol := by
  have hcursor := congrArg ConsoleState.cursorX h.cursor
  rw [Erase.run_of_loops he] at hcursor
  exact hcursor ▸ (getCursorPos_inside size t).1

/-- A loop that prints blanks in the cells `W` erases if the cells that are only in one of `W` and
the region are blank already. -/
theorem erased_iff_of_shows {e : Erase} (he : e.Loops) (hb : Bounded size t)
    (hx : t.currentState.cursorX < size.wsCol) {W : ℕ → Prop} [DecidablePred W] {x y : ℕ}
    (h : Shows size (blanks size (e.loopStart size t) (e.loopCount size t))
      ⟨fun i => if W i then t.currentState.empty else t.charAt i, t.currentState.cursorAt x y⟩)
    (hnever : ∀ k < e.loopCount size t,
      ¬(blanks size (e.loopStart size t) k).ScrollsNext size) :
    Erased size t e ↔
      ∀ i < size.cells, ¬(W i ↔ e.Region size t i) → t.charAt i = t.currentState.empty := by
  have hrun : e.run size t = _ := Erase.run_of_loops he t
  have hchar (i : ℕ) : (e.run size t).charAt i =
      if W i then t.currentState.empty else t.charAt i := by
    rw [hrun]
    exact congrFun h.screen_eq i
  constructor
  · intro herased i hi hdiffer
    by_cases hregion : e.Region size t i
    · have hblank := herased.blank i hi hregion
      rwa [hchar, if_neg fun hW => hdiffer (iff_of_true hW hregion)] at hblank
    · have hframe := herased.frame i hi hregion
      have hW : W i := by
        by_contra hW
        exact hdiffer (iff_of_false hW hregion)
      rw [hchar, if_pos hW] at hframe
      exact hframe.symm
  · intro hall
    refine ⟨fun i hi hregion => ?_, fun i hi hregion => ?_, ?_, hnever⟩
    · rw [hchar]
      split
      · rfl
      · rename_i hW
        exact hall i hi fun hiff => hW (hiff.mpr hregion)
    · rw [hchar]
      split
      · rename_i hW
        exact (hall i hi fun hiff => hregion (hiff.mp hW)).symm
      · rfl
    · rw [hrun, getCursorPos_of_inside hb hx]
      exact congrArg
        (fun s => s.cursorAt t.currentState.cursorX t.currentState.cursorY) h.state_eq

/-- Blanks that end with the row of the cursor. -/
theorem erased_of_row {e : Erase} (he : e.Loops) (hlinked : t.Linked size) (hb : Bounded size t)
    (hcursor : t.currentState.cursorX < size.wsCol) {x : ℕ} (hx : x < size.wsCol)
    (hstart : e.loopStart size t = t.moveCursor x t.currentState.cursorY)
    (hcount : e.loopCount size t = size.wsCol - x)
    (hregion : ∀ i, e.Region size t i ↔ t.currentState.cursorY * size.wsCol + x ≤ i ∧
      i < (t.currentState.cursorY + 1) * size.wsCol) : Erased size t e := by
  have hrow : (t.currentState.cursorY + 1) * size.wsCol ≤
      max (t.currentState.cursorY + 1) (min size.wsCol size.wsRow) * size.wsCol :=
    Nat.mul_le_mul_right _ (Nat.le_max_left _ _)
  rw [Nat.succ_mul] at hrow
  obtain ⟨x', y', -, -, -, -, hshows, hnever⟩ :=
    ((Shows.self hlinked hb).moveCursor x t.currentState.cursorY).blanks hx.le hb.cursorY_lt
      (size.wsCol - x) (by omega)
  rw [← hstart, ← hcount] at hshows hnever
  rw [erased_iff_of_shows he hb hcursor hshows hnever]
  intro i _ hdiffer
  rw [hregion, Nat.succ_mul, hcount] at hdiffer
  omega

/-- `EL` with the parameters 0 and 2. -/
theorem erased_line (hlinked : t.Linked size) (hb : Bounded size t)
    (hx : t.currentState.cursorX < size.wsCol) :
    Erased size t .el ∧ Erased size t .elLine := by
  have hpos := getCursorPos_of_inside hb hx
  have hzero := size.wsCol_pos
  constructor
  · apply erased_of_row Erase.loops_el hlinked hb hx hx
    · rw [Erase.loopStart, hpos]
      exact setCursorPos_of_inside t hx hb.cursorY_lt
    · rw [Erase.loopCount, hpos]
    · intro i
      rw [Erase.Region, cursorCell, hpos]
  · apply erased_of_row Erase.loops_elLine hlinked hb hx hzero
    · rw [Erase.loopStart, hpos]
      exact setCursorPos_of_inside t hzero hb.cursorY_lt
    · rfl
    · intro i
      rw [Erase.Region, hpos]
      rfl

/-- A sequence with a parameter does nothing when that is 0. -/
theorem erased_ed_of_ne {escapeValueCount : ℕ} (h : escapeValueCount ≠ 0) :
    Erased size t (.ed escapeValueCount) ↔
      ∀ i < size.cells, t.cursorCell size ≤ i → t.charAt i = t.currentState.empty := by
  have hrun : (Erase.ed escapeValueCount).run size t = t := Erase.run_ed_of_ne h t
  constructor
  · intro herased i hi hregion
    have hblank := herased.blank i hi hregion
    rwa [hrun] at hblank
  · intro hblank
    refine ⟨fun i hi hregion => ?_, fun i hi _ => by rw [hrun], by rw [hrun], fun k hk => ?_⟩
    · rw [hrun]
      exact hblank i hi hregion
    · rw [Erase.loopCount, if_neg h] at hk
      exact absurd hk (Nat.not_lt_zero k)

section Display

variable (hlinked : t.Linked size) (hb : Bounded size t)
  (hx : t.currentState.cursorX < size.wsCol)

include hlinked hb hx

/-- The blanks of `ED` on a grid with at most as many rows as columns: they end with the grid if
the rows before the cursor are counted right. -/
theorem erased_ed_of_le (hrows : size.wsRow ≤ size.wsCol) :
    Erased size t (.ed 0) ↔ size.wsRow < size.wsCol → t.currentState.cursorY = 0 := by
  have hpos := getCursorPos_of_inside hb hx
  have hy := hb.cursorY_lt
  have hlimit : max (t.currentState.cursorY + 1) (min size.wsCol size.wsRow) = size.wsRow := by
    omega
  have hlast : (t.currentState.cursorY + 1) * size.wsCol ≤ size.wsRow * size.wsCol :=
    Nat.mul_le_mul_right _ hy
  rw [Nat.succ_mul] at hlast
  have hcount : (Erase.ed 0).loopCount size t = size.wsCol * size.wsRow -
      (t.currentState.cursorY * size.wsRow + t.currentState.cursorX) := by
    rw [Erase.loopCount, if_pos rfl, hpos]
  have hcells : size.wsCol * size.wsRow = size.wsRow * size.wsCol := Nat.mul_comm _ _
  have hrun (n : ℕ) (hn : t.currentState.cursorY * size.wsCol + t.currentState.cursorX + n ≤
      size.wsRow * size.wsCol) := (Shows.self hlinked hb).blanks hx.le hy n (by rwa [hlimit])
  constructor
  · intro herased hless
    by_contra hdown
    have hfewer : t.currentState.cursorY * size.wsRow < t.currentState.cursorY * size.wsCol :=
      Nat.mul_lt_mul_of_pos_left hless (Nat.pos_of_ne_zero hdown)
    -- the blank behind the last cell of the grid scrolls
    obtain ⟨x', y', hcell, hx', -, hy', hshows, -⟩ := hrun (size.wsRow * size.wsCol -
      (t.currentState.cursorY * size.wsCol + t.currentState.cursorX)) (by omega)
    rw [hlimit] at hy'
    have hfull : (y' + 1) * size.wsCol ≤ size.wsRow * size.wsCol := Nat.mul_le_mul_right _ hy'
    rw [Nat.succ_mul] at hfull
    have hbottom : y' + 1 = size.wsRow := by
      refine Nat.eq_of_mul_eq_mul_right size.wsCol_pos ?_
      rw [Nat.succ_mul]
      omega
    refine herased.never_scrolls _ ?_ (hshows.scrollsNext_iff.mpr ⟨by omega, hbottom⟩)
    rw [hcount]
    omega
  · intro htop
    have hsame : t.currentState.cursorY * size.wsRow = t.currentState.cursorY * size.wsCol := by
      rcases Nat.lt_or_eq_of_le hrows with hless | hsquare
      · rw [htop hless, Nat.zero_mul, Nat.zero_mul]
      · rw [hsquare]
    obtain ⟨x', y', -, -, -, -, hshows, hnever⟩ := hrun ((Erase.ed 0).loopCount size t) (by omega)
    rw [erased_iff_of_shows Erase.loops_ed_zero hb hx hshows hnever]
    intro i hi hdiffer
    rw [Erase.Region, cursorCell, hpos, hcount] at hdiffer
    rw [Winsize.cells] at hi
    dsimp only at hdiffer
    omega

/-- A cursor in a row that wrapping does not go to prints nothing. -/
theorem erased_ed_of_low
    (hlow : size.wsCol ≤ t.currentState.cursorY) :
    Erased size t (.ed 0) ↔ ∀ i < size.cells, t.cursorCell size ≤ i →
      t.charAt i = t.currentState.empty := by
  have hpos := getCursorPos_of_inside hb hx
  have hcount : (Erase.ed 0).loopCount size t = 0 := by
    have hle : size.wsCol * size.wsRow ≤ t.currentState.cursorY * size.wsRow :=
      Nat.mul_le_mul_right _ hlow
    rw [Erase.loopCount, if_pos rfl, hpos]
    dsimp only
    omega
  have hshows : Shows size (blanks size t ((Erase.ed 0).loopCount size t))
      ⟨fun i => if False then t.currentState.empty else t.charAt i,
        t.currentState.cursorAt t.currentState.cursorX t.currentState.cursorY⟩ := by
    simp only [if_false, hcount]
    exact Shows.self hlinked hb
  have hnever : ∀ k < (Erase.ed 0).loopCount size t, ¬(blanks size t k).ScrollsNext size := by
    intro k hk
    omega
  rw [erased_iff_of_shows Erase.loops_ed_zero hb hx hshows hnever]
  simp [Erase.Region]

/-- With more rows than columns, the blanks fill the rows up to row `ws_col - 1` and the surplus
goes to that row again. -/
theorem erased_ed_of_high (hrows : size.wsCol < size.wsRow)
    (hhigh : t.currentState.cursorY < size.wsCol) :
    Erased size t (.ed 0) ↔
      (∀ i < size.cells, t.cursorCell size ≤ i → size.wsCol * size.wsCol ≤ i →
        t.charAt i = t.currentState.empty) ∧
      (t.currentState.cursorY + 1 = size.wsCol →
        ∀ x < t.currentState.cursorX, x < size.wsRow - size.wsCol →
          t.charAt (t.currentState.cursorY * size.wsCol + x) = t.currentState.empty) := by
  have hpos := getCursorPos_of_inside hb hx
  obtain ⟨last, hlast⟩ : ∃ last, last + 1 = size.wsCol := ⟨size.wsCol - 1, by omega⟩
  obtain ⟨height, hheight⟩ := Nat.exists_eq_add_of_le hhigh.le
  obtain ⟨surplus, hsurplus⟩ := Nat.exists_eq_add_of_le hrows.le
  -- the blanks up to the end of row `last`, and `surplus` more for every row from the cursor on
  have hwide : size.wsCol * size.wsRow =
      t.currentState.cursorY * size.wsRow + height * size.wsRow := by
    rw [← Nat.add_mul, ← hheight]
  have hsquare : size.wsCol * size.wsCol =
      t.currentState.cursorY * size.wsCol + height * size.wsCol := by
    rw [← Nat.add_mul, ← hheight]
  have htall : height * size.wsRow = height * size.wsCol + height * surplus := by
    rw [hsurplus, Nat.mul_add]
  have hroom : size.wsCol ≤ height * size.wsCol := Nat.le_mul_of_pos_left _ (by omega)
  have hcount : (Erase.ed 0).loopCount size t =
      size.wsCol * size.wsCol -
        (t.currentState.cursorY * size.wsCol + t.currentState.cursorX) + height * surplus := by
    rw [Erase.loopCount, if_pos rfl, hpos]
    dsimp only
    omega
  obtain ⟨x', -, -, -, hshows, hnever⟩ :=
    (Shows.self hlinked hb).blanks_again hrows hx hlast (by omega) (height * surplus)
  rw [← hcount] at hshows hnever
  rw [erased_iff_of_shows Erase.loops_ed_zero hb hx hshows hnever]
  have hlastRow : size.wsCol * size.wsCol = last * size.wsCol + size.wsCol := by
    rw [← Nat.succ_mul, Nat.succ_eq_add_one, hlast]
  have hcells : size.wsCol * size.wsCol ≤ size.cells := Nat.mul_le_mul_right _ hrows.le
  have hcell : t.cursorCell size =
      t.currentState.cursorY * size.wsCol + t.currentState.cursorX := by
    rw [cursorCell, hpos]
  simp only [Erase.Region, hcell]
  constructor
  · intro hall
    refine ⟨fun i hi hregion hbelow => hall i hi (by omega), fun hrow x hleft hsurplus => ?_⟩
    obtain rfl : t.currentState.cursorY = last := by omega
    obtain rfl : height = 1 := by omega
    rw [Nat.one_mul] at hall
    exact hall _ (by omega) (by omega)
  · rintro ⟨hbelow, hleft⟩ i hi hdiffer
    by_cases hregion : t.currentState.cursorY * size.wsCol + t.currentState.cursorX ≤ i
    · exact hbelow i hi hregion (by omega)
    · have hrow : t.currentState.cursorY = last := by
        by_contra hne
        have habove : (t.currentState.cursorY + 1) * size.wsCol ≤ last * size.wsCol :=
          Nat.mul_le_mul_right _ (by omega)
        rw [Nat.succ_mul] at habove
        omega
      obtain rfl : height = 1 := by omega
      rw [Nat.one_mul] at hdiffer
      rw [← hrow] at hdiffer
      have hblank := hleft (by omega) (i - t.currentState.cursorY * size.wsCol) (by omega)
        (by omega)
      rwa [Nat.add_sub_cancel' (by omega)] at hblank

theorem erased_ed_iff :
    Erased size t (.ed 0) ↔
      (size.wsRow < size.wsCol → t.currentState.cursorY = 0) ∧
        (∀ i < size.cells, t.cursorCell size ≤ i → size.wsCol * size.wsCol ≤ i →
          t.charAt i = t.currentState.empty) ∧
        (t.currentState.cursorY + 1 = size.wsCol →
          ∀ x < t.currentState.cursorX, x < size.wsRow - size.wsCol →
            t.charAt (t.currentState.cursorY * size.wsCol + x) = t.currentState.empty) := by
  rcases Nat.lt_or_ge size.wsCol size.wsRow with hrows | hrows
  · rw [and_iff_right (fun hless => absurd hless hrows.not_gt)]
    rcases Nat.lt_or_ge t.currentState.cursorY size.wsCol with hhigh | hlow
    · exact erased_ed_of_high hlinked hb hx hrows hhigh
    · rw [erased_ed_of_low hlinked hb hx hlow, and_iff_left (fun hrow => by omega)]
      have hbelow : size.wsCol * size.wsCol ≤ t.cursorCell size := by
        rw [cursorCell, getCursorPos_of_inside hb hx]
        exact (Nat.mul_le_mul_right _ hlow).trans (Nat.le_add_right _ _)
      exact ⟨fun h i hi hregion _ => h i hi hregion,
        fun h i hi hregion => h i hi hregion (hbelow.trans hregion)⟩
  · rw [erased_ed_of_le hlinked hb hx hrows]
    refine (and_iff_left ⟨fun i hi _ hbelow => ?_, fun _ x _ hsurplus => ?_⟩).symm
    · have hcells : size.cells ≤ size.wsCol * size.wsCol := Nat.mul_le_mul_right _ hrows
      omega
    · omega

end Display

/-! ## The queue of every terminal is linked -/

namespace Linked

theorem touch (h : t.Linked size) (i : ℕ) : (t.touch i).Linked size := h

theorem moveCursor (h : t.Linked size) (x y : ℕ) : (t.moveCursor x y).Linked size := h

theorem setCursorPos (h : t.Linked size) (x y : ℕ) : (t.setCursorPos size x y).Linked size := h

theorem moveCharacter (h : t.Linked size) (newX newY oldX oldY : ℕ) :
    (t.moveCharacter size newX newY oldX oldY).Linked size :=
  (refines_moveCharacter newX newY oldX oldY).linked t h

theorem blankRow (h : t.Linked size) (empty : Character) (y : ℕ) :
    (t.blankRow size empty y).Linked size :=
  List.foldlRecOn _ _ h fun _ ht x _ => ht.enqueueChar empty x y

theorem shiftLoop (h : t.Linked size) (dst : ℕ → ℕ) (l : List ℕ) :
    (l.foldl (fun t i => t.shift size i (dst i)) t).Linked size :=
  List.foldlRecOn l _ h fun _ ht i _ => (ht.touch i).enqueueChar _ _ _

theorem scrollDown (h : t.Linked size) : (t.scrollDown size).Linked size :=
  (h.shiftLoop _ _).blankRow _ _

theorem scrollUp (h : t.Linked size) : (t.scrollUp size).Linked size :=
  (h.shiftLoop _ _).blankRow _ _

theorem clear (h : t.Linked size) (move : Bool) : (t.clear size move).Linked size := by
  have hloop := (refines_clear t.currentState.empty).linked t h
  rw [VideoTerminal.clear]
  cases move with
  | false => exact hloop
  | true => exact hloop

theorem nextRow (h : t.Linked size) : (t.nextRow size).Linked size := by
  rw [VideoTerminal.nextRow]
  split
  · exact (h.moveCursor _ _).scrollDown
  · exact h

theorem wrapCursor (h : t.Linked size) : (t.wrapCursor size).Linked size := by
  rw [VideoTerminal.wrapCursor]
  split
  · exact h.nextRow.moveCursor _ _
  · exact h.nextRow

theorem rawPutChar (h : t.Linked size) (c : ℕ) : (t.rawPutChar size c).Linked size := by
  rw [VideoTerminal.rawPutChar]
  split
  · exact (h.wrapCursor.moveCursor _ _).enqueueChar _ _ _
  · exact (h.moveCursor _ _).enqueueChar _ _ _

theorem kept (size : Winsize) : Kept size (VideoTerminal.Linked size) where
  setCursorPos h := h.setCursorPos
  saveState h := h
  restoreState h := h
  moveCharacter h := h.moveCharacter
  scrollDown h := h.scrollDown
  scrollUp h := h.scrollUp
  clear h := h.clear
  flush h := h.flush
  rawPutChar h := h.rawPutChar
  setTextForegroundRgb h _ := h
  setTextBackgroundRgb h _ := h
  resetMargins h := h

end Linked

/-! ## Which erasures are exact -/

/-- The erasures do what they are for exactly when `ErasesExactly` holds. -/
theorem erased_iff_erasesExactly (hlinked : t.Linked size) (hb : Bounded size t) (e : Erase) :
    Erased size t e ↔ ErasesExactly size t e := by
  cases e with
  | el => exact ⟨Erased.inside Erase.loops_el, fun hx => (erased_line hlinked hb hx).1⟩
  | elLine => exact ⟨Erased.inside Erase.loops_elLine, fun hx => (erased_line hlinked hb hx).2⟩
  | ed escapeValueCount =>
    rw [ErasesExactly]
    split
    · rename_i hzero
      obtain rfl := hzero
      rw [← and_iff_right_of_imp (Erased.inside Erase.loops_ed_zero)]
      exact and_congr_right (erased_ed_iff hlinked hb)
    · rename_i hne
      exact erased_ed_of_ne hne

theorem three_pos : 0 < 3 := Nat.succ_pos 2

/-- Three rows of three columns. -/
def threeByThree : Winsize := ⟨3, 3, three_pos, three_pos⟩

/-- The letters `ABCDE`, with the cursor behind the last one, in the second row. -/
def fiveLetters : VideoTerminal :=
  [0x41, 0x42, 0x43, 0x44, 0x45].foldl (rawPutChar threeByThree)
    (create threeByThree 0x00aaaaaa 0xffffffff)

/-- On a square grid `ED` without a parameter erases what is left of it. -/
theorem erased_fiveLetters : Erased threeByThree fiveLetters (.ed 0) := by
  have hlinked : fiveLetters.Linked threeByThree :=
    List.foldlRecOn _ _ (Shows.create threeByThree _ _).linked fun _ ht c _ => ht.rawPutChar c
  have hbounded : Bounded threeByThree fiveLetters :=
    List.foldlRecOn _ _ (Terminal.create_bounded threeByThree _ _) fun _ ht c _ => ht.rawPutChar c
  apply (erased_iff_erasesExactly hlinked hbounded (.ed 0)).mpr
  rw [ErasesExactly, if_pos rfl]
  exact ⟨by decide, fun hless => absurd hless (Nat.lt_irrefl 3),
    fun i hi _ hbelow => absurd hi (Nat.not_lt_of_le hbelow), fun hrow => absurd hrow (by decide)⟩

/-- Two rows of three columns. -/
def twoByThree : Winsize := ⟨2, 3, Nat.two_pos, three_pos⟩

/-- In the second row it prints four blanks where three are left, and the last one scrolls; and with
the parameter 0 it leaves a letter under the cursor. -/
theorem not_erased_secondRow :
    ¬Erased twoByThree ((create twoByThree 0x00aaaaaa 0xffffffff).setCursorPos twoByThree 0 1)
        (.ed 0) ∧
      ¬Erased twoByThree (((create twoByThree 0x00aaaaaa 0xffffffff).rawPutChar twoByThree
        0x41).setCursorPos twoByThree 0 0) (.ed 1) := by
  constructor
  · intro h
    exact h.never_scrolls 3 (by decide) (by decide)
  · intro h
    have hblank := h.blank 0 (by decide) (Nat.zero_le _)
    revert hblank
    decide

end VideoTerminal

namespace Terminal

open VideoTerminal Lib

variable {size : Winsize} {host : Host} {t : Terminal}

/-- Every terminal that has taken a stream has a linked queue, and its cursor in bounds. -/
theorem linked_and_bounded_of_stream {textForeground textBackground : UInt32} {depth : ℕ}
    {stream : List UInt8}
    (h : stream.foldlM (putChar size host depth) (create size textForeground textBackground) =
      some t) : t.video.Linked size ∧ t.video.Bounded size :=
  ⟨kept_of_stream (Linked.kept size) (Shows.create size textForeground textBackground).linked h,
    kept_of_stream (Bounded.kept size) (create_bounded size textForeground textBackground) h⟩

end Terminal

end Cryptix.Drivers
