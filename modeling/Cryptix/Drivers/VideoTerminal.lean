import Mathlib.Algebra.Group.Nat.Defs
import Mathlib.Data.List.Basic
import Mathlib.Data.List.Nodup
import Mathlib.Data.List.Perm.Subperm
import Mathlib.Data.List.Range
import Mathlib.Logic.Function.Basic
import Cryptix.Lib.CopyLoop

/-!
# The framebuffer terminal

`Kernel/Drivers/Video/VideoTerminal.cpp`: a grid of characters that is drawn in batches. A character
is not written to `m_Grid` but queued, and `m_Map` holds for every cell the pointer to its item in
the queue. `Flush` draws the items and moves them to the grid; `DrawCursor` moves the one under the
cursor there early.

What a reader of the screen should see is the queued character of a cell, or else the one in the
grid (`charAt`). `Refines` compares the three of them with one plain array of characters, which
every call changes at once; `flush_grid` says that after `Flush` the grid is that array.

The pixels that `PlotChar` draws are left out. A pointer into `m_Queue` is the index of the item;
`Initialize` reserves one item a cell, so that the items do not move as long as the queue is not
longer than that, which `Linked.length_le` proves.
-/

namespace Cryptix.Drivers

open Lib

/-- The rows and columns of `winsize`. -/
structure Winsize where
  wsRow : ℕ
  wsCol : ℕ
  wsRow_pos : 0 < wsRow
  wsCol_pos : 0 < wsCol

/-- The number of cells. -/
def Winsize.cells (size : Winsize) : ℕ := size.wsRow * size.wsCol

/-- `Character`; two of them are equal when the code point and both colours are. -/
structure Character where
  codePoint : ℕ
  foreground : UInt32
  background : UInt32
  deriving DecidableEq, Repr

structure QueueItem where
  x : ℕ
  y : ℕ
  character : Character
  deriving DecidableEq, Repr

/-- `ConsoleState`, as far as the functions below use it. -/
structure ConsoleState where
  cursorX : ℕ
  cursorY : ℕ
  textForeground : UInt32
  textBackground : UInt32
  deriving DecidableEq, Repr

/-- A space in the colours of the text. -/
def ConsoleState.empty (s : ConsoleState) : Character :=
  ⟨0x20, s.textForeground, s.textBackground⟩

/-- `VideoTerminal`, with the scroll margins it inherits. `cells` lists the indices that were passed
to `m_Grid` and `m_Map` so far. -/
structure VideoTerminal where
  queue : List QueueItem
  map : ℕ → Option ℕ
  grid : ℕ → Character
  currentState : ConsoleState
  savedState : ConsoleState
  oldCursorX : ℕ
  oldCursorY : ℕ
  scrollTopMargin : ℕ
  scrollBottomMargin : ℕ
  cells : List ℕ

/-- The index of the cell of a queue item. -/
def QueueItem.cell (size : Winsize) (q : QueueItem) : ℕ := q.y * size.wsCol + q.x

namespace VideoTerminal

variable (size : Winsize)

/-- An access to cell `i` of `m_Grid` or `m_Map`. -/
def touch (t : VideoTerminal) (i : ℕ) : VideoTerminal := { t with cells := i :: t.cells }

/-- `q ? q->Character : m_Grid[i]` for `q = m_Map[i]`. -/
def charAt (t : VideoTerminal) (i : ℕ) : Character :=
  match t.map i with
  | some k => (t.queue[k]?.map QueueItem.character).getD (t.grid i)
  | none => t.grid i

/-- `EnqueueChar`. -/
def enqueueChar (t : VideoTerminal) (c : Character) (x y : ℕ) : VideoTerminal :=
  if x ≥ size.wsCol ∨ y ≥ size.wsRow then t
  else
    let i := y * size.wsCol + x
    let t := t.touch i
    match t.map i with
    | some k => { t with queue := t.queue.modify k fun q => { q with character := c } }
    | none =>
      if t.grid i = c then t
      else
        { t with
          queue := t.queue ++ [⟨x, y, c⟩]
          map := Function.update t.map i (some t.queue.length) }

/-- `MoveCharacter`. -/
def moveCharacter (t : VideoTerminal) (newX newY oldX oldY : ℕ) : VideoTerminal :=
  if oldX ≥ size.wsCol ∨ oldY ≥ size.wsRow ∨ newX ≥ size.wsCol ∨ newY ≥ size.wsRow then t
  else
    let i := oldX + oldY * size.wsCol
    (t.touch i).enqueueChar size (t.charAt i) newX newY

/-- One turn of the loops of `ScrollDown` and `ScrollUp`: the character of cell `i` goes to cell
`j`. -/
def shift (t : VideoTerminal) (i j : ℕ) : VideoTerminal :=
  (t.touch i).enqueueChar size (t.charAt i) (j % size.wsCol) (j / size.wsCol)

/-- The loop that blanks a row. -/
def blankRow (t : VideoTerminal) (empty : Character) (y : ℕ) : VideoTerminal :=
  (List.range size.wsCol).foldl (fun t x => t.enqueueChar size empty x y) t

/-- `ScrollDown`. -/
def scrollDown (t : VideoTerminal) : VideoTerminal :=
  let first := (t.scrollTopMargin + 1) * size.wsCol
  ((List.range' first (t.scrollBottomMargin * size.wsCol - first)).foldl
    (fun t i => t.shift size i (i - size.wsCol)) t).blankRow size t.currentState.empty
      (t.scrollBottomMargin - 1)

/-- `ScrollUp`. Its index counts down to the top margin and is left at -1 above the first row. -/
def scrollUp (t : VideoTerminal) : VideoTerminal :=
  let first := t.scrollTopMargin * size.wsCol
  ((List.range' first ((t.scrollBottomMargin - 1) * size.wsCol - first)).reverse.foldl
    (fun t i => t.shift size i (i + size.wsCol)) t).blankRow size t.currentState.empty
      t.scrollTopMargin

/-- `Clear`; the colour it is given is not used. -/
def clear (t : VideoTerminal) (move : Bool) : VideoTerminal :=
  let cleared := (List.range size.cells).foldl
    (fun u i => u.enqueueChar size t.currentState.empty (i % size.wsCol) (i / size.wsCol)) t
  if move then
    { cleared with currentState := { cleared.currentState with cursorX := 0, cursorY := 0 } }
  else cleared

/-- The cursor at `(x, y)`. -/
def moveCursor (t : VideoTerminal) (x y : ℕ) : VideoTerminal :=
  { t with currentState := { t.currentState with cursorX := x, cursorY := y } }

/-- The cursor goes to the first column of the next row, and scrolls at the bottom margin. -/
def nextRow (t : VideoTerminal) : VideoTerminal :=
  let y := t.currentState.cursorY + 1
  if y = t.scrollBottomMargin then (t.moveCursor 0 (y - 1)).scrollDown size else t.moveCursor 0 y

/-- The first branch of `RawPutChar`: a cursor behind the last column wraps to the next row, and is
kept above row `ws_col`. -/
def wrapCursor (t : VideoTerminal) : VideoTerminal :=
  let t := t.nextRow size
  if t.currentState.cursorY ≥ size.wsCol then t.moveCursor 0 (size.wsCol - 1) else t

/-- `RawPutChar`. -/
def rawPutChar (t : VideoTerminal) (c : ℕ) : VideoTerminal :=
  let t := if t.currentState.cursorX ≥ size.wsCol then t.wrapCursor size else t
  let x := t.currentState.cursorX
  let y := t.currentState.cursorY
  let ch : Character := ⟨c, t.currentState.textForeground, t.currentState.textBackground⟩
  (t.moveCursor (x + 1) y).enqueueChar size ch x y

/-- `GetCursorPos`. -/
def getCursorPos (t : VideoTerminal) : ℕ × ℕ :=
  (if t.currentState.cursorX ≥ size.wsCol then size.wsCol - 1 else t.currentState.cursorX,
    if t.currentState.cursorY ≥ size.wsRow then size.wsRow - 1 else t.currentState.cursorY)

/-- A coordinate that `SetCursorPos` finds beyond the last one: 0 if its low 32 bits are those of a
negative `i32`, else the last one. -/
def clamp (limit pos : ℕ) : ℕ :=
  if pos ≥ limit then (if pos % 2 ^ 32 ≥ 2 ^ 31 then 0 else limit - 1) else pos

/-- `SetCursorPos`. -/
def setCursorPos (t : VideoTerminal) (xpos ypos : ℕ) : VideoTerminal :=
  t.moveCursor (clamp size.wsCol xpos) (clamp size.wsRow ypos)

/-- `SaveState`. -/
def saveState (t : VideoTerminal) : VideoTerminal := { t with savedState := t.currentState }

/-- `RestoreState`. -/
def restoreState (t : VideoTerminal) : VideoTerminal := { t with currentState := t.savedState }

/-- `DrawCursor`: the item under the cursor goes to the grid, and stays in the queue. -/
def drawCursor (t : VideoTerminal) : VideoTerminal :=
  let x := t.currentState.cursorX
  let y := t.currentState.cursorY
  if x < size.wsCol ∧ y < size.wsRow then
    let i := x + y * size.wsCol
    let t := t.touch i
    match t.map i with
    | some _ =>
      { t with
        grid := Function.update t.grid i (t.charAt i)
        map := Function.update t.map i none }
    | none => t
  else t

/-- One turn of the loop of `Flush`: the last item of the queue goes to the grid, unless its cell
has been drawn already. -/
def retire (t : VideoTerminal) (q : QueueItem) : VideoTerminal :=
  let offset := q.cell size
  let t := { t.touch offset with queue := t.queue.dropLast }
  match t.map offset with
  | some _ =>
    { t with
      grid := Function.update t.grid offset q.character
      map := Function.update t.map offset none }
  | none => t

/-- The end of `Flush`: the cell the cursor has left is drawn again. -/
def redrawOldCursor (t : VideoTerminal) : VideoTerminal :=
  let x := t.oldCursorX
  let y := t.oldCursorY
  let moved := x ≠ t.currentState.cursorX ∨ y ≠ t.currentState.cursorY
  let t := if moved ∧ x < size.wsCol ∧ y < size.wsRow then t.touch (x + y * size.wsCol) else t
  { t with oldCursorX := t.currentState.cursorX, oldCursorY := t.currentState.cursorY }

/-- `Flush`. -/
def flush (t : VideoTerminal) : VideoTerminal :=
  let t := t.drawCursor size
  (t.queue.reverse.foldl (retire size) t).redrawOldCursor size

/-- The object `Initialize` leaves behind: zeroed memory, and blank cells in the colours of the
text. -/
def create (textForeground textBackground : UInt32) : VideoTerminal :=
  let state : ConsoleState := ⟨0, 0, textForeground, textBackground⟩
  { queue := []
    map := fun _ => none
    grid := fun _ => state.empty
    currentState := state
    savedState := ⟨0, 0, 0, 0⟩
    oldCursorX := 0
    oldCursorY := 0
    scrollTopMargin := 0
    scrollBottomMargin := size.wsRow
    cells := List.range size.cells }

/-! ## The queue and the map -/

/-- Every pointer of the map points to an item of its own cell, and every item of the queue is the
one its cell points to. -/
structure LinkedQueue (queue : List QueueItem) (map : ℕ → Option ℕ) : Prop where
  mapped : ∀ i k, map i = some k → ∃ q, queue[k]? = some q ∧ q.cell size = i
  item : ∀ (k : ℕ) (q : QueueItem), queue[k]? = some q →
    q.x < size.wsCol ∧ q.y < size.wsRow ∧ map (q.cell size) = some k

/-- The queue and the map of a terminal fit together. -/
def Linked (t : VideoTerminal) : Prop := LinkedQueue size t.queue t.map

variable {size} {queue : List QueueItem} {map : ℕ → Option ℕ} {t : VideoTerminal}

theorem cell_lt {q : QueueItem} (hx : q.x < size.wsCol) (hy : q.y < size.wsRow) :
    q.cell size < size.cells := by
  have hrow : (q.y + 1) * size.wsCol ≤ size.wsRow * size.wsCol := Nat.mul_le_mul_right _ hy
  rw [Nat.succ_mul] at hrow
  rw [QueueItem.cell, Winsize.cells]
  omega

namespace LinkedQueue

/-- No cell has two items in the queue. -/
theorem nodup (h : LinkedQueue size queue map) : (queue.map (QueueItem.cell size)).Nodup := by
  rw [List.nodup_iff_getElem?_ne_getElem?]
  intro k k' hk hk' heq
  rw [List.length_map] at hk'
  have hlt : k < queue.length := hk.trans hk'
  rw [List.getElem?_map, List.getElem?_map, List.getElem?_eq_getElem hlt,
    List.getElem?_eq_getElem hk', Option.map_some, Option.map_some, Option.some.injEq] at heq
  have hone := (h.item k _ (List.getElem?_eq_getElem hlt)).2.2
  have htwo := (h.item k' _ (List.getElem?_eq_getElem hk')).2.2
  rw [heq, htwo] at hone
  exact absurd (Option.some.inj hone) hk.ne'

/-- The queue is never longer than the grid. -/
theorem length_le (h : LinkedQueue size queue map) : queue.length ≤ size.cells := by
  have hsub : queue.map (QueueItem.cell size) ⊆ List.range size.cells := by
    intro i hi
    obtain ⟨q, hq, rfl⟩ := List.mem_map.mp hi
    obtain ⟨k, hk⟩ := List.getElem?_of_mem hq
    obtain ⟨hx, hy, -⟩ := h.item k q hk
    exact List.mem_range.mpr (cell_lt hx hy)
  simpa using (List.subperm_of_subset h.nodup hsub).length_le

/-- A new character in an item that is there. -/
theorem modify (h : LinkedQueue size queue map) (k : ℕ) (c : Character) :
    LinkedQueue size (queue.modify k fun q => { q with character := c }) map := by
  refine ⟨fun i k' hmap => ?_, fun k' q hq => ?_⟩
  · obtain ⟨q, hq, hcell⟩ := h.mapped i k' hmap
    simp only [List.getElem?_modify, hq]
    by_cases hk : k = k'
    · exact ⟨{ q with character := c }, by simp [hk], hcell⟩
    · exact ⟨q, by simp [hk], hcell⟩
  · rw [List.getElem?_modify] at hq
    cases hold : queue[k']? with
    | none => simp [hold] at hq
    | some q' =>
      obtain ⟨hx, hy, hmap⟩ := h.item k' q' hold
      rw [hold, Option.map_eq_map, Option.map_some, Option.some.injEq] at hq
      by_cases hk : k = k'
      · obtain rfl : { q' with character := c } = q := by simpa [hk] using hq
        exact ⟨hx, hy, hmap⟩
      · obtain rfl : q' = q := by simpa [hk] using hq
        exact ⟨hx, hy, hmap⟩

/-- A new item for a cell that has none. -/
theorem append (h : LinkedQueue size queue map) {x y : ℕ} (c : Character) (hx : x < size.wsCol)
    (hy : y < size.wsRow) (hmap : map (y * size.wsCol + x) = none) :
    LinkedQueue size (queue ++ [⟨x, y, c⟩])
      (Function.update map (y * size.wsCol + x) (some queue.length)) := by
  refine ⟨fun i k hk => ?_, fun k q hq => ?_⟩
  · by_cases hi : i = y * size.wsCol + x
    · subst hi
      rw [Function.update_self, Option.some.injEq] at hk
      subst hk
      exact ⟨⟨x, y, c⟩, by simp, rfl⟩
    · rw [Function.update_of_ne hi] at hk
      obtain ⟨q, hq, hcell⟩ := h.mapped i k hk
      exact ⟨q, (List.getElem?_append_left (List.getElem?_eq_some_iff.mp hq).1).trans hq, hcell⟩
  · rcases Nat.lt_or_ge k queue.length with hlt | hge
    · rw [List.getElem?_append_left hlt] at hq
      obtain ⟨hqx, hqy, hqmap⟩ := h.item k q hq
      refine ⟨hqx, hqy, ?_⟩
      have hne : q.cell size ≠ y * size.wsCol + x := by
        intro heq
        rw [heq, hmap] at hqmap
        exact absurd hqmap (by simp)
      rw [Function.update_of_ne hne]
      exact hqmap
    · have hlen := (List.getElem?_eq_some_iff.mp hq).1
      obtain rfl : k = queue.length := by
        rw [List.length_append, List.length_singleton] at hlen
        omega
      obtain rfl : (⟨x, y, c⟩ : QueueItem) = q := by simpa using hq
      exact ⟨hx, hy, Function.update_self _ _ _⟩

end LinkedQueue

@[simp] theorem map_touch (t : VideoTerminal) (i : ℕ) : (t.touch i).map = t.map := rfl

@[simp] theorem queue_touch (t : VideoTerminal) (i : ℕ) : (t.touch i).queue = t.queue := rfl

theorem charAt_of_some {i k : ℕ} {q : QueueItem} (hmap : t.map i = some k)
    (hq : t.queue[k]? = some q) : t.charAt i = q.character := by
  simp [charAt, hmap, hq]

theorem charAt_of_none {i : ℕ} (hmap : t.map i = none) : t.charAt i = t.grid i := by
  simp [charAt, hmap]

theorem Linked.enqueueChar (h : t.Linked size) (c : Character) (x y : ℕ) :
    (t.enqueueChar size c x y).Linked size := by
  rw [VideoTerminal.enqueueChar]
  by_cases hout : x ≥ size.wsCol ∨ y ≥ size.wsRow
  · rw [if_pos hout]
    exact h
  rw [if_neg hout]
  dsimp only
  split
  · exact h.modify _ c
  · rename_i hmap
    split
    · exact h
    · exact h.append c (by omega) (by omega) hmap

/-- The screen without the queue: what the cells show. -/
abbrev Screen := ℕ → Character

/-- A character written at once. -/
def Screen.put (size : Winsize) (s : Screen) (c : Character) (x y : ℕ) : Screen :=
  if x ≥ size.wsCol ∨ y ≥ size.wsRow then s else Function.update s (y * size.wsCol + x) c

/-- `EnqueueChar` shows the character in its cell and leaves the others as they are. -/
theorem charAt_enqueueChar (h : t.Linked size) (c : Character) (x y : ℕ) :
    (t.enqueueChar size c x y).charAt = Screen.put size t.charAt c x y := by
  rw [VideoTerminal.enqueueChar, Screen.put]
  by_cases hout : x ≥ size.wsCol ∨ y ≥ size.wsRow
  · rw [if_pos hout, if_pos hout]
  rw [if_neg hout, if_neg hout]
  dsimp only
  funext j
  by_cases hj : j = y * size.wsCol + x
  · subst hj
    rw [Function.update_self]
    split
    · rename_i k hmap
      obtain ⟨q, hq, -⟩ := h.mapped _ k hmap
      exact charAt_of_some hmap (q := { q with character := c }) (by simp [hq])
    · rename_i hmap
      split
      · rename_i hgrid
        exact (charAt_of_none hmap).trans hgrid
      · exact charAt_of_some (q := ⟨x, y, c⟩) (Function.update_self _ _ _) (by simp)
  · rw [Function.update_of_ne hj]
    split
    · rename_i k hmap
      cases hother : t.map j with
      | none =>
        rw [charAt_of_none hother]
        exact charAt_of_none hother
      | some k' =>
        -- the item of another cell is another item
        obtain ⟨q, hq, hcell⟩ := h.mapped _ k' hother
        have hne : k ≠ k' := by
          rintro rfl
          obtain ⟨q', hq', hcell'⟩ := h.mapped _ k hmap
          rw [hq, Option.some.injEq] at hq'
          exact hj (hcell.symm.trans (hq' ▸ hcell'))
        rw [charAt_of_some hother hq]
        exact charAt_of_some hother (by simp [hne, hq])
    · rename_i hmap
      split
      · rfl
      · have hmap' : Function.update t.map (y * size.wsCol + x) (some t.queue.length) j = t.map j :=
          Function.update_of_ne hj _ _
        cases hother : t.map j with
        | none =>
          rw [charAt_of_none hother]
          exact charAt_of_none (hmap'.trans hother)
        | some k' =>
          obtain ⟨q, hq, -⟩ := h.mapped _ k' hother
          rw [charAt_of_some hother hq]
          refine charAt_of_some (hmap'.trans hother) ?_
          exact (List.getElem?_append_left (List.getElem?_eq_some_iff.mp hq).1).trans hq

/-! ## Deferred and immediate calls -/

/-- Drawing moves neither the cursor nor the margins, and changes no colour. -/
structure Frame (t t' : VideoTerminal) : Prop where
  currentState_eq : t'.currentState = t.currentState
  savedState_eq : t'.savedState = t.savedState
  scrollTopMargin_eq : t'.scrollTopMargin = t.scrollTopMargin
  scrollBottomMargin_eq : t'.scrollBottomMargin = t.scrollBottomMargin

namespace Frame

theorem refl (t : VideoTerminal) : Frame t t := ⟨rfl, rfl, rfl, rfl⟩

theorem trans {t₁ t₂ t₃ : VideoTerminal} (h : Frame t₁ t₂) (h' : Frame t₂ t₃) : Frame t₁ t₃ :=
  ⟨h'.1.trans h.1, h'.2.trans h.2, h'.3.trans h.3, h'.4.trans h.4⟩

theorem foldl {ι : Type*} {f : VideoTerminal → ι → VideoTerminal} (h : ∀ t i, Frame t (f t i))
    (l : List ι) (t : VideoTerminal) : Frame t (l.foldl f t) := by
  induction l generalizing t with
  | nil => exact refl t
  | cons i l ih => exact (h t i).trans (ih (f t i))

theorem touch (t : VideoTerminal) (i : ℕ) : Frame t (t.touch i) := ⟨rfl, rfl, rfl, rfl⟩

theorem enqueueChar (t : VideoTerminal) (c : Character) (x y : ℕ) :
    Frame t (t.enqueueChar size c x y) := by
  rw [VideoTerminal.enqueueChar]
  split
  · exact refl t
  · dsimp only
    split
    · exact ⟨rfl, rfl, rfl, rfl⟩
    · split <;> exact ⟨rfl, rfl, rfl, rfl⟩

end Frame

/-- On terminals whose queue is linked, `f` shows what `g` writes at once. -/
structure Refines (size : Winsize) (f : VideoTerminal → VideoTerminal) (g : Screen → Screen) :
    Prop where
  linked : ∀ t, t.Linked size → (f t).Linked size
  charAt_eq : ∀ t, t.Linked size → (f t).charAt = g t.charAt
  frame : ∀ t, Frame t (f t)

namespace Refines

variable {f f' : VideoTerminal → VideoTerminal} {g g' : Screen → Screen}

theorem comp (h : Refines size f g) (h' : Refines size f' g') : Refines size (f ∘ f') (g ∘ g') where
  linked t ht := h.linked _ (h'.linked t ht)
  charAt_eq t ht := (h.charAt_eq _ (h'.linked t ht)).trans (congrArg g (h'.charAt_eq t ht))
  frame t := (h'.frame t).trans (h.frame _)

/-- A loop over calls. -/
theorem foldl {ι : Type*} {f : VideoTerminal → ι → VideoTerminal} {g : Screen → ι → Screen}
    (h : ∀ i, Refines size (f · i) (g · i)) (l : List ι) :
    Refines size (l.foldl f) (l.foldl g) := by
  induction l with
  | nil => exact ⟨fun _ ht => ht, fun _ _ => rfl, Frame.refl⟩
  | cons i l ih => exact ih.comp (h i)

end Refines

theorem refines_enqueueChar (c : Character) (x y : ℕ) :
    Refines size (fun t => t.enqueueChar size c x y) (fun s => s.put size c x y) where
  linked _ ht := ht.enqueueChar c x y
  charAt_eq _ ht := charAt_enqueueChar ht c x y
  frame t := Frame.enqueueChar t c x y

/-- A character read from cell `i` and queued for another cell. -/
theorem refines_copy (i x y : ℕ) :
    Refines size (fun t => (t.touch i).enqueueChar size (t.charAt i) x y)
      (fun s => s.put size (s i) x y) where
  linked t ht := (refines_enqueueChar _ x y).linked (t.touch i) ht
  charAt_eq t ht := (refines_enqueueChar _ x y).charAt_eq (t.touch i) ht
  frame t := (Frame.touch t i).trans (Frame.enqueueChar (t.touch i) _ x y)

/-- `MoveCharacter` at once. -/
def Screen.move (size : Winsize) (s : Screen) (newX newY oldX oldY : ℕ) : Screen :=
  if oldX ≥ size.wsCol ∨ oldY ≥ size.wsRow ∨ newX ≥ size.wsCol ∨ newY ≥ size.wsRow then s
  else Function.update s (newY * size.wsCol + newX) (s (oldX + oldY * size.wsCol))

theorem refines_moveCharacter (newX newY oldX oldY : ℕ) :
    Refines size (fun t => t.moveCharacter size newX newY oldX oldY)
      (fun s => s.move size newX newY oldX oldY) := by
  by_cases hout : oldX ≥ size.wsCol ∨ oldY ≥ size.wsRow ∨ newX ≥ size.wsCol ∨ newY ≥ size.wsRow
  · simp only [moveCharacter, Screen.move, if_pos hout]
    exact ⟨fun _ ht => ht, fun _ _ => rfl, Frame.refl⟩
  · have hput : ∀ s : Screen, s.move size newX newY oldX oldY =
        s.put size (s (oldX + oldY * size.wsCol)) newX newY := by
      intro s
      rw [Screen.move, if_neg hout, Screen.put, if_neg (by omega)]
    simp only [moveCharacter, if_neg hout, hput]
    exact refines_copy _ newX newY

/-! ### Scrolling -/

/-- The rows from `top` to `bottom` move up by one, and the last of them becomes blank. -/
def Screen.scrollDown (size : Winsize) (top bottom : ℕ) (empty : Character) (s : Screen) : Screen :=
  fun i =>
    if top * size.wsCol ≤ i ∧ i < (bottom - 1) * size.wsCol then s (i + size.wsCol)
    else if (bottom - 1) * size.wsCol ≤ i ∧ i < bottom * size.wsCol then empty
    else s i

/-- The rows from `top` to `bottom` move down by one, and the first of them becomes blank. -/
def Screen.scrollUp (size : Winsize) (top bottom : ℕ) (empty : Character) (s : Screen) : Screen :=
  fun i =>
    if (top + 1) * size.wsCol ≤ i ∧ i < bottom * size.wsCol then s (i - size.wsCol)
    else if top * size.wsCol ≤ i ∧ i < (top + 1) * size.wsCol then empty
    else s i

/-- A cell written by its column and row. -/
theorem put_cell (s : Screen) (c : Character) {i : ℕ} (hi : i < size.cells) :
    s.put size c (i % size.wsCol) (i / size.wsCol) = Function.update s i c := by
  have hcol : i % size.wsCol < size.wsCol := Nat.mod_lt _ size.wsCol_pos
  have hrow : i / size.wsCol < size.wsRow := Nat.div_lt_of_lt_mul (by rwa [Nat.mul_comm])
  rw [Screen.put, if_neg (by omega), Nat.mul_comm, Nat.div_add_mod]

/-- A loop of `shift`s over cells of the grid is a loop of plain copies. -/
theorem refines_shiftLoop (dst : ℕ → ℕ) (l : List ℕ) (hl : ∀ i ∈ l, dst i < size.cells) :
    Refines size (l.foldl fun t i => t.shift size i (dst i)) (copyLoop id dst l) := by
  have hcopy : l.foldl (fun (s : Screen) i =>
      s.put size (s i) (dst i % size.wsCol) (dst i / size.wsCol)) = copyLoop id dst l := by
    funext s
    exact List.foldl_ext _ _ s fun s i hi => put_cell s (s i) (hl i hi)
  rw [← hcopy]
  exact Refines.foldl (fun i => refines_copy i _ _) l

/-- Blanking a row of the grid. -/
theorem refines_blankRow (empty : Character) {y : ℕ} (hy : y < size.wsRow) :
    Refines size (fun t => t.blankRow size empty y)
      (fillLoop (fun x => y * size.wsCol + x) empty (List.range size.wsCol)) := by
  have hfill : (List.range size.wsCol).foldl (fun (s : Screen) x => s.put size empty x y) =
      fillLoop (fun x => y * size.wsCol + x) empty (List.range size.wsCol) := by
    funext s
    refine List.foldl_ext _ _ s fun s x hx => ?_
    rw [Screen.put, if_neg (by have := List.mem_range.mp hx; omega)]
  rw [← hfill]
  exact Refines.foldl (fun x => refines_enqueueChar empty x y) _

theorem fillRow_apply (empty : Character) (y : ℕ) (s : Screen) (j : ℕ) :
    fillLoop (fun x => y * size.wsCol + x) empty (List.range size.wsCol) s j =
      if y * size.wsCol ≤ j ∧ j < (y + 1) * size.wsCol then empty else s j := by
  rw [Nat.succ_mul]
  split
  · rename_i h
    obtain ⟨x, rfl⟩ := Nat.exists_eq_add_of_le h.1
    exact fillLoop_of_mem (fun x => y * size.wsCol + x) s (List.mem_range.mpr (by omega))
  · rename_i h
    refine fillLoop_of_ne s fun x hx hj => h ?_
    have := List.mem_range.mp hx
    omega

/-- `ScrollDown` moves the rows between the margins up. The loop runs upwards, so that a row is read
before the one below it is written there. -/
theorem refines_scrollDown {top bottom : ℕ} (htop : top < bottom) (hbottom : bottom ≤ size.wsRow)
    (empty : Character) :
    Refines size
      (fun t => ((List.range' ((top + 1) * size.wsCol)
          (bottom * size.wsCol - (top + 1) * size.wsCol)).foldl
        (fun t i => t.shift size i (i - size.wsCol)) t).blankRow size empty (bottom - 1))
      (Screen.scrollDown size top bottom empty) := by
  have hgrid : bottom * size.wsCol ≤ size.cells := Nat.mul_le_mul_right _ hbottom
  have hpos := size.wsCol_pos
  obtain ⟨last, rfl⟩ : ∃ last, bottom = last + 1 := ⟨bottom - 1, by omega⟩
  have hrows : (last + 1) * size.wsCol = last * size.wsCol + size.wsCol := Nat.succ_mul _ _
  have hfirst : (top + 1) * size.wsCol = top * size.wsCol + size.wsCol := Nat.succ_mul _ _
  have hle : top * size.wsCol ≤ last * size.wsCol := Nat.mul_le_mul_right _ (by omega)
  have hmove : Refines size _ _ := refines_shiftLoop (· - size.wsCol)
    (List.range' ((top + 1) * size.wsCol) ((last + 1) * size.wsCol - (top + 1) * size.wsCol))
    (fun i hi => by have := List.mem_range'_1.mp hi; omega)
  have heq : fillLoop (fun x => last * size.wsCol + x) empty (List.range size.wsCol) ∘
      copyLoop id (· - size.wsCol) (List.range' ((top + 1) * size.wsCol)
        ((last + 1) * size.wsCol - (top + 1) * size.wsCol)) =
      Screen.scrollDown size top (last + 1) empty := by
    funext s j
    rw [Function.comp_apply, fillRow_apply, hfirst, shiftDown_apply hpos, Screen.scrollDown,
      Nat.add_sub_cancel]
    by_cases hlast : last * size.wsCol ≤ j ∧ j < (last + 1) * size.wsCol
    · rw [if_pos hlast, if_neg (by omega), if_pos hlast]
    · rw [if_neg hlast, if_neg hlast]
      by_cases hmid : top * size.wsCol ≤ j ∧ j < last * size.wsCol
      · rw [if_pos (by omega), if_pos hmid]
      · rw [if_neg (by omega), if_neg hmid]
  rw [← heq]
  exact (refines_blankRow empty (by omega)).comp hmove

/-- `ScrollUp` moves the rows between the margins down, from the last one upwards. -/
theorem refines_scrollUp {top bottom : ℕ} (htop : top < bottom) (hbottom : bottom ≤ size.wsRow)
    (empty : Character) :
    Refines size
      (fun t => ((List.range' (top * size.wsCol)
          ((bottom - 1) * size.wsCol - top * size.wsCol)).reverse.foldl
        (fun t i => t.shift size i (i + size.wsCol)) t).blankRow size empty top)
      (Screen.scrollUp size top bottom empty) := by
  have hgrid : bottom * size.wsCol ≤ size.cells := Nat.mul_le_mul_right _ hbottom
  have hpos := size.wsCol_pos
  obtain ⟨last, rfl⟩ : ∃ last, bottom = last + 1 := ⟨bottom - 1, by omega⟩
  have hrows : (last + 1) * size.wsCol = last * size.wsCol + size.wsCol := Nat.succ_mul _ _
  have hfirst : (top + 1) * size.wsCol = top * size.wsCol + size.wsCol := Nat.succ_mul _ _
  have hle : top * size.wsCol ≤ last * size.wsCol := Nat.mul_le_mul_right _ (by omega)
  rw [Nat.add_sub_cancel]
  have hmove : Refines size _ _ := refines_shiftLoop (· + size.wsCol)
    (List.range' (top * size.wsCol) (last * size.wsCol - top * size.wsCol)).reverse
    (fun i hi => by have := List.mem_range'_1.mp (List.mem_reverse.mp hi); omega)
  have heq : fillLoop (fun x => top * size.wsCol + x) empty (List.range size.wsCol) ∘
      copyLoop id (· + size.wsCol) (List.range' (top * size.wsCol)
        (last * size.wsCol - top * size.wsCol)).reverse =
      Screen.scrollUp size top (last + 1) empty := by
    funext s j
    rw [Function.comp_apply, fillRow_apply, shiftUp_apply hpos, Screen.scrollUp]
    by_cases hblank : top * size.wsCol ≤ j ∧ j < (top + 1) * size.wsCol
    · rw [if_pos hblank, if_neg (by omega), if_pos hblank]
    · rw [if_neg hblank, if_neg hblank]
      by_cases hmid : (top + 1) * size.wsCol ≤ j ∧ j < (last + 1) * size.wsCol
      · rw [if_pos (by omega), if_pos hmid]
      · rw [if_neg (by omega), if_neg hmid]
  rw [← heq]
  exact (refines_blankRow empty (by omega)).comp hmove

/-- Every cell of the grid blank. -/
def Screen.clear (size : Winsize) (empty : Character) (s : Screen) : Screen :=
  fun i => if i < size.cells then empty else s i

theorem refines_clear (empty : Character) :
    Refines size
      ((List.range size.cells).foldl
        fun t i => t.enqueueChar size empty (i % size.wsCol) (i / size.wsCol))
      (Screen.clear size empty) := by
  have heq : (List.range size.cells).foldl (fun (s : Screen) i =>
      s.put size empty (i % size.wsCol) (i / size.wsCol)) = Screen.clear size empty := by
    funext s
    have hfill : (List.range size.cells).foldl (fun (s : Screen) i =>
        s.put size empty (i % size.wsCol) (i / size.wsCol)) s =
        fillLoop id empty (List.range size.cells) s :=
      List.foldl_ext _ _ s fun s i hi => put_cell s empty (List.mem_range.mp hi)
    rw [hfill]
    funext j
    rw [Screen.clear]
    split
    · rename_i hj
      exact fillLoop_of_mem id s (List.mem_range.mpr hj)
    · rename_i hj
      exact fillLoop_of_ne s fun i hi hij => hj (hij ▸ List.mem_range.mp hi)
  rw [← heq]
  exact Refines.foldl (fun i => refines_enqueueChar empty _ _) _

/-! ### Flush -/

/-- While `Flush` drains the queue: the items `l` are still to come, every cell whose pointer is set
has its character among them, and every other cell shows `s` in the grid already. -/
structure Draining (size : Winsize) (s : Screen) (l : List QueueItem) (map : ℕ → Option ℕ)
    (grid : ℕ → Character) : Prop where
  pending : ∀ i, map i ≠ none → ∃ q ∈ l, q.cell size = i
  item : ∀ q ∈ l, map (q.cell size) ≠ none → q.character = s (q.cell size)
  drawn : ∀ i, map i = none → grid i = s i

namespace Draining

variable {s : Screen} {q : QueueItem} {l : List QueueItem} {grid : ℕ → Character}

/-- Drawing a cell. -/
theorem draw (h : Draining size s l map grid) {i : ℕ} {c : Character} (hc : c = s i) :
    Draining size s l (Function.update map i none) (Function.update grid i c) := by
  have hset : ∀ j, Function.update map i none j ≠ none → map j ≠ none := by
    intro j hj hnone
    by_cases hij : j = i
    · exact hj (hij ▸ Function.update_self _ _ _)
    · exact hj ((Function.update_of_ne hij _ _).trans hnone)
  refine ⟨fun j hj => h.pending j (hset j hj), fun q hq hmap => h.item q hq (hset _ hmap),
    fun j hj => ?_⟩
  by_cases hij : j = i
  · rw [hij, Function.update_self, hc]
  · rw [Function.update_of_ne hij] at hj ⊢
    exact h.drawn j hj

/-- An item whose cell has been drawn is not waited for. -/
theorem tail (h : Draining size s (q :: l) map grid) (hmap : map (q.cell size) = none) :
    Draining size s l map grid := by
  refine ⟨fun i hi => ?_, fun q' hq' => h.item q' (List.mem_cons_of_mem q hq'), h.drawn⟩
  obtain ⟨q', hq', hcell⟩ := h.pending i hi
  rcases List.mem_cons.mp hq' with rfl | hq'
  · exact absurd (hcell ▸ hmap) hi
  · exact ⟨q', hq', hcell⟩

theorem drawCursor (h : Draining size t.charAt l t.map t.grid) :
    Draining size t.charAt l (t.drawCursor size).map (t.drawCursor size).grid := by
  rw [VideoTerminal.drawCursor]
  dsimp only
  split
  · split
    · exact h.draw rfl
    · exact h
  · exact h

theorem retire (h : Draining size s (q :: l) t.map t.grid) :
    Draining size s l (t.retire size q).map (t.retire size q).grid := by
  rw [VideoTerminal.retire]
  dsimp only
  cases hmap : t.map (q.cell size) with
  | none =>
    rw [map_touch, hmap]
    exact h.tail hmap
  | some k =>
    rw [map_touch, hmap]
    refine (h.draw ?_).tail (Function.update_self _ _ _)
    exact h.item q List.mem_cons_self (by simp [hmap])

/-- When the queue is empty the grid is the screen. -/
theorem drain (l : List QueueItem) (h : Draining size s l t.map t.grid) :
    (∀ i, (l.foldl (VideoTerminal.retire size) t).map i = none) ∧
      (l.foldl (VideoTerminal.retire size) t).grid = s := by
  induction l generalizing t with
  | nil =>
    have hnone : ∀ i, t.map i = none := by
      intro i
      by_contra hi
      obtain ⟨q, hq, -⟩ := h.pending i hi
      exact absurd hq List.not_mem_nil
    exact ⟨hnone, funext fun i => h.drawn i (hnone i)⟩
  | cons q l ih => exact ih h.retire

end Draining

theorem Linked.draining (h : t.Linked size) :
    Draining size t.charAt t.queue.reverse t.map t.grid := by
  refine ⟨fun i hi => ?_, fun q hq _ => ?_, fun i hi => (charAt_of_none hi).symm⟩
  · obtain ⟨k, hk⟩ := Option.ne_none_iff_exists'.mp hi
    obtain ⟨q, hq, hcell⟩ := h.mapped i k hk
    exact ⟨q, List.mem_reverse.mpr (List.mem_of_getElem? hq), hcell⟩
  · obtain ⟨k, hk⟩ := List.getElem?_of_mem (List.mem_reverse.mp hq)
    exact (charAt_of_some (h.item k q hk).2.2 hk).symm

theorem queue_drawCursor (size : Winsize) (t : VideoTerminal) :
    (t.drawCursor size).queue = t.queue := by
  rw [drawCursor]
  dsimp only
  split
  · split <;> rfl
  · rfl

theorem queue_drain (size : Winsize) (l : List QueueItem) (t : VideoTerminal)
    (hlen : t.queue.length = l.length) :
    (l.foldl (retire size) t).queue = [] := by
  induction l generalizing t with
  | nil => exact List.eq_nil_of_length_eq_zero hlen
  | cons q l ih =>
    refine ih _ ?_
    have hdrop : (t.retire size q).queue = t.queue.dropLast := by
      rw [retire]
      dsimp only
      split <;> rfl
    rw [hdrop, List.length_dropLast, hlen, List.length_cons, Nat.add_sub_cancel]

/-- After `Flush` the grid shows what every cell showed before, every pointer is null and the queue
is empty. -/
theorem flush_grid (h : t.Linked size) :
    (t.flush size).grid = t.charAt ∧ (∀ i, (t.flush size).map i = none) ∧
      (t.flush size).queue = [] := by
  have hdrain := (queue_drawCursor size t).symm ▸ h.draining.drawCursor.drain
  obtain ⟨hmap, hgrid⟩ := hdrain
  have hqueue := queue_drain size (t.drawCursor size).queue.reverse (t.drawCursor size)
    (List.length_reverse).symm
  rw [flush, redrawOldCursor]
  dsimp only
  split
  · exact ⟨hgrid, hmap, hqueue⟩
  · exact ⟨hgrid, hmap, hqueue⟩

theorem Linked.flush (h : t.Linked size) : (t.flush size).Linked size := by
  obtain ⟨-, hmap, hqueue⟩ := flush_grid h
  rw [Linked, hqueue]
  exact ⟨fun i k hk => absurd ((hmap i).symm.trans hk) (by simp), fun k q hq => by simp at hq⟩

theorem Frame.drawCursor (size : Winsize) (t : VideoTerminal) : Frame t (t.drawCursor size) := by
  rw [VideoTerminal.drawCursor]
  dsimp only
  split
  · split <;> exact ⟨rfl, rfl, rfl, rfl⟩
  · exact Frame.refl t

theorem Frame.retire (size : Winsize) (t : VideoTerminal) (q : QueueItem) :
    Frame t (t.retire size q) := by
  rw [VideoTerminal.retire]
  dsimp only
  split <;> exact ⟨rfl, rfl, rfl, rfl⟩

theorem Frame.redrawOldCursor (size : Winsize) (t : VideoTerminal) :
    Frame t (t.redrawOldCursor size) := by
  rw [VideoTerminal.redrawOldCursor]
  split <;> exact ⟨rfl, rfl, rfl, rfl⟩

theorem Frame.flush (size : Winsize) (t : VideoTerminal) : Frame t (t.flush size) := by
  have hdrain := Frame.foldl (Frame.retire size) (t.drawCursor size).queue.reverse
    (t.drawCursor size)
  exact ((Frame.drawCursor size t).trans hdrain).trans (Frame.redrawOldCursor size _)

/-! ## Runs of calls -/

/-- A call on the terminal. Between the calls the cursor and the colours change as they like. -/
inductive Call
  | enqueueChar (c : Character) (x y : ℕ)
  | moveCharacter (newX newY oldX oldY : ℕ)
  | scrollDown
  | scrollUp
  | clear (move : Bool)
  | flush
  | setState (state : ConsoleState)

def apply (size : Winsize) (t : VideoTerminal) : Call → VideoTerminal
  | .enqueueChar c x y => t.enqueueChar size c x y
  | .moveCharacter newX newY oldX oldY => t.moveCharacter size newX newY oldX oldY
  | .scrollDown => t.scrollDown size
  | .scrollUp => t.scrollUp size
  | .clear move => t.clear size move
  | .flush => t.flush size
  | .setState state => { t with currentState := state }

/-- The terminal without a queue: every write goes to the screen at once. -/
structure Immediate where
  screen : Screen
  currentState : ConsoleState

def Immediate.apply (size : Winsize) (m : Immediate) : Call → Immediate
  | .enqueueChar c x y => { m with screen := m.screen.put size c x y }
  | .moveCharacter newX newY oldX oldY =>
    { m with screen := m.screen.move size newX newY oldX oldY }
  | .scrollDown =>
    { m with screen := m.screen.scrollDown size 0 size.wsRow m.currentState.empty }
  | .scrollUp => { m with screen := m.screen.scrollUp size 0 size.wsRow m.currentState.empty }
  | .clear move =>
    { screen := m.screen.clear size m.currentState.empty
      currentState :=
        if move then { m.currentState with cursorX := 0, cursorY := 0 } else m.currentState }
  | .flush => m
  | .setState state => { m with currentState := state }

/-- The deferred terminal and the immediate one show the same. -/
structure Shows (size : Winsize) (t : VideoTerminal) (m : Immediate) : Prop where
  linked : t.Linked size
  screen_eq : t.charAt = m.screen
  state_eq : t.currentState = m.currentState
  top_eq : t.scrollTopMargin = 0
  bottom_eq : t.scrollBottomMargin = size.wsRow

namespace Shows

variable {m : Immediate}

theorem create (size : Winsize) (textForeground textBackground : UInt32) :
    Shows size (create size textForeground textBackground)
      ⟨fun _ => ⟨0x20, textForeground, textBackground⟩, 0, 0, textForeground, textBackground⟩ :=
  ⟨⟨fun _ _ h => absurd h (by simp [VideoTerminal.create]), fun _ _ h => by
    simp [VideoTerminal.create] at h⟩, rfl, rfl, rfl, rfl⟩

theorem of_refines (h : Shows size t m) {f : VideoTerminal → VideoTerminal} {g : Screen → Screen}
    (hf : Refines size f g) : Shows size (f t) { m with screen := g m.screen } where
  linked := hf.linked t h.linked
  screen_eq := (hf.charAt_eq t h.linked).trans (congrArg g h.screen_eq)
  state_eq := (hf.frame t).currentState_eq.trans h.state_eq
  top_eq := (hf.frame t).scrollTopMargin_eq.trans h.top_eq
  bottom_eq := (hf.frame t).scrollBottomMargin_eq.trans h.bottom_eq

theorem scrollDown (h : Shows size t m) :
    Shows size (t.scrollDown size) (m.apply size .scrollDown) := by
  rw [VideoTerminal.scrollDown, h.top_eq, h.bottom_eq, h.state_eq]
  exact h.of_refines (refines_scrollDown size.wsRow_pos le_rfl _)

theorem scrollUp (h : Shows size t m) : Shows size (t.scrollUp size) (m.apply size .scrollUp) := by
  rw [VideoTerminal.scrollUp, h.top_eq, h.bottom_eq, h.state_eq]
  exact h.of_refines (refines_scrollUp size.wsRow_pos le_rfl _)

theorem clear (h : Shows size t m) (move : Bool) :
    Shows size (t.clear size move) (m.apply size (.clear move)) := by
  have hclear := h.of_refines (refines_clear m.currentState.empty)
  rw [VideoTerminal.clear, Immediate.apply, h.state_eq]
  cases move with
  | false => exact hclear
  | true =>
    refine ⟨hclear.linked, hclear.screen_eq, ?_, hclear.top_eq, hclear.bottom_eq⟩
    simp only [if_true, hclear.state_eq]

theorem flush (h : Shows size t m) : Shows size (t.flush size) m := by
  obtain ⟨hgrid, hmap, -⟩ := flush_grid h.linked
  have hframe := Frame.flush size t
  refine ⟨h.linked.flush, ?_, hframe.currentState_eq.trans h.state_eq,
    hframe.scrollTopMargin_eq.trans h.top_eq, hframe.scrollBottomMargin_eq.trans h.bottom_eq⟩
  funext i
  rw [charAt_of_none (hmap i), hgrid, h.screen_eq]

theorem apply (h : Shows size t m) (call : Call) :
    Shows size (t.apply size call) (m.apply size call) := by
  cases call with
  | enqueueChar c x y => exact h.of_refines (refines_enqueueChar c x y)
  | moveCharacter newX newY oldX oldY =>
    exact h.of_refines (refines_moveCharacter newX newY oldX oldY)
  | scrollDown => exact h.scrollDown
  | scrollUp => exact h.scrollUp
  | clear move => exact h.clear move
  | flush => exact h.flush
  | setState state => exact ⟨h.linked, h.screen_eq, rfl, h.top_eq, h.bottom_eq⟩

theorem run (h : Shows size t m) (calls : List Call) :
    Shows size (calls.foldl (VideoTerminal.apply size) t)
      (calls.foldl (Immediate.apply size) m) := by
  induction calls generalizing t m with
  | nil => exact h
  | cons call calls ih => exact ih (h.apply call)

end Shows

/-- Over any sequence of calls, every cell shows what it would show if every write were done at
once; no cell has two items in the queue, and there are never more items than cells; and after
`Flush` the grid alone is the screen and no pointer is left. -/
theorem deferred_screen_refines_immediate (size : Winsize) (textForeground textBackground : UInt32)
    (calls : List Call) :
    let t := calls.foldl (apply size) (create size textForeground textBackground)
    let m := calls.foldl (Immediate.apply size)
      ⟨fun _ => ⟨0x20, textForeground, textBackground⟩, 0, 0, textForeground, textBackground⟩
    (∀ i < size.cells, t.charAt i = m.screen i) ∧
      (t.queue.map (QueueItem.cell size)).Nodup ∧ t.queue.length ≤ size.cells ∧
      ∀ i < size.cells, (t.flush size).grid i = m.screen i ∧ (t.flush size).map i = none := by
  have h := (Shows.create size textForeground textBackground).run calls
  obtain ⟨hgrid, hmap, -⟩ := flush_grid h.linked
  exact ⟨fun i _ => congrFun h.screen_eq i, h.linked.nodup, h.linked.length_le,
    fun i _ => ⟨congrFun (hgrid.trans h.screen_eq) i, hmap i⟩⟩

end VideoTerminal

end Cryptix.Drivers
