import Mathlib.Data.List.DropRight
import Cryptix.Drivers.TTY

/-!
# The line editor of a tty

A reference for what a tty in canonical mode does with the characters of a line, and the line
discipline of `Kernel/Drivers/TTY.cpp` against it. The buffer of the tty is a queue: a line is taken
out at the front, and so is, in `EraseChar`, the character that is erased. `EraseWord` looks at the
back and erases at the front, until nothing is left. `VEOL` ends the line in front of it and begins
the next one.

The control characters are the default ones, the flags of the `termios` any. `follows_along_iff`
says which input the tty edits like the reference.
-/

namespace Cryptix.Drivers

open Lib

/-- The flags of a `termios` with the default control characters. -/
def Termios.withDefaultControls (flags : Termios) : Termios :=
  { flags with
    vintr := Termios.default.vintr
    vquit := Termios.default.vquit
    vsusp := Termios.default.vsusp
    veof := Termios.default.veof
    vkill := Termios.default.vkill
    verase := Termios.default.verase
    vwerase := Termios.default.vwerase
    veol := Termios.default.veol }

namespace LineEditor

/-! ## The reference -/

/-- A line without its trailing blanks and the word in front of them. -/
def killWord (line : Line) : Line := (line.rdropWhile (· == 0x20)).rdropWhile (· != 0x20)

/-- What a character makes of the line that is being typed, and the lines that it completes:
`VEOF`, `VKILL`, `VERASE` and backspace, `VWERASE`, newline and `VEOL`, and any other one. -/
def edit (line : Line) (c : UInt8) : Line × List Line :=
  if c = 0x04 then ([], [line])
  else if c = 0x15 then ([], [])
  else if c = 0x7f ∨ c = 0x08 then (line.dropLast, [])
  else if c = 0x17 then (killWord line, [])
  else if c = 0x0a ∨ c = 0x00 then ([], [line ++ [c]])
  else (line ++ [c], [])

/-- The line that is being typed, and those that were completed. -/
structure Editor where
  line : Line
  lines : List Line
  deriving DecidableEq

/-- A character, and whether it comes in a string that begins with `ESC`. -/
structure Key where
  inEscape : Bool
  char : UInt8

/-- The character that the editor is given for one that is typed. The characters for a signal are
not part of a line, and carriage return and newline stand for each other, depending on the flags. -/
def typed (termios : Termios) (k : Key) : Option UInt8 :=
  let c := if termios.istrip then k.char &&& 0x7f else k.char
  if k.inEscape then none
  else if termios.isig ∧ (c = 0x03 ∨ c = 0x1c ∨ c = 0x1a) then none
  else if c = 0x0a ∧ termios.inlcr then some 0x0d
  else if c = 0x0d then
    if termios.igncr then none else some (if termios.icrnl then 0x0a else c)
  else some c

def Editor.feed (termios : Termios) (e : Editor) (k : Key) : Editor :=
  match typed termios k with
  | none => e
  | some c => ⟨(edit e.line c).1, e.lines ++ (edit e.line c).2⟩

/-! ## The tty -/

/-- The queue of Prism, as far as the buffer goes. -/
def push (buffer : List UInt8) (c : UInt8) : List UInt8 := buffer ++ [c]

/-- One character of a string of `SendBuffer`. -/
def sendKey (termios : Termios) (t : TTY) (k : Key) : TTY :=
  { TTY.sendChar termios push { t with inEscape := k.inEscape } k.char with inEscape := false }

/-- The characters of the strings. -/
def keys (strings : List (List UInt8)) : List Key :=
  strings.flatMap fun string => string.map fun c => ⟨decide (string.head? = some 0x1b), c⟩

/-- A tty and the editor for the same input. -/
structure Both where
  tty : TTY
  editor : Editor

def start : Both := ⟨.create, ⟨[], []⟩⟩

/-- Both take one character. -/
def step (flags : Termios) (w : Both) (k : Key) : Option Both :=
  some ⟨sendKey flags.withDefaultControls w.tty k,
    w.editor.feed flags.withDefaultControls k⟩

/-- The tty has handed over the lines of the editor, and would hand over the same next line. -/
def Agree (t : TTY) (e : Editor) : Prop := t.rawBuffer = e.line ∧ t.lines.completed = e.lines

/-- The tty agrees with the editor after a character. -/
def Follows (flags : Termios) (w : Both) (k : Key) : Prop :=
  Agree (sendKey flags.withDefaultControls w.tty k)
    (w.editor.feed flags.withDefaultControls k)

/-- The line is one word, with blanks behind it at most. -/
def OneWord (line : Line) : Prop :=
  ∃ word blanks, line = word ++ blanks ∧ (∀ c ∈ word, c ≠ 0x20) ∧ ∀ c ∈ blanks, c = 0x20

/-- The flags let the erasing characters through, `VERASE` finds a line of one character over and
over, `VWERASE` one that is a single word, and `VEOL` is not typed. -/
def Meets (flags : Termios) (w : Both) (k : Key) : Prop :=
  ∀ c ∈ typed flags.withDefaultControls k,
    (c = 0x15 → flags.echok = true) ∧
    (c = 0x7f ∨ c = 0x08 → flags.echoe = true ∧
      ∀ x ∈ w.tty.rawBuffer, ∀ y ∈ w.tty.rawBuffer, x = y) ∧
    (c = 0x17 → flags.echoe = true ∧ OneWord w.tty.rawBuffer) ∧
    c ≠ 0x00

/-! ## What the tty makes of the line -/

/-- What a character makes of the buffer, and the lines that it adds to the queue. -/
def bufferEdit (flags : Termios) (buffer : Line) (c : UInt8) : Line × List Line :=
  if c = 0x04 then ([], [buffer])
  else if c = 0x15 ∧ flags.echok then ([], [])
  else if (c = 0x7f ∨ c = 0x08) ∧ flags.echoe then (buffer.tail, [])
  else if c = 0x17 ∧ flags.echoe then ([], [])
  else if c = 0x0a then ([], [buffer ++ [c]])
  else if c = 0x00 then ([c], [buffer])
  else (buffer ++ [c], [])

theorem isControlChar_iff (c cc : UInt8) (h : cc < 0x80) :
    TTY.isControlChar c cc = true ↔ c = cc := by
  rw [TTY.isControlChar, Bool.and_eq_true, beq_iff_eq]
  constructor
  · exact And.left
  · rintro rfl
    exact ⟨rfl, by simpa using h⟩

variable {termios : Termios} {t : TTY}

/-- The buffer and the lines after a step are those before. -/
def SameLine (t t' : TTY) : Prop :=
  t'.rawBuffer = t.rawBuffer ∧ t'.lines = t.lines ∧ t'.inEscape = t.inEscape

theorem same_echo (t : TTY) (c : UInt8) : SameLine t (t.echo termios c) := by
  rw [TTY.echo]
  repeat' split
  all_goals exact ⟨rfl, rfl, rfl⟩

theorem completed_addLine (t : TTY) :
    t.addLine.lines.completed = t.lines.completed ++ [t.rawBuffer] := by
  rw [TTY.addLine, Lines.add, Lines.trigger]
  split <;> rfl

theorem rawBuffer_eraseChar (t : TTY) :
    (t.eraseChar termios).rawBuffer = t.rawBuffer.tail := by
  rw [TTY.eraseChar]
  split
  · rename_i hnil
    rw [hnil]
    rfl
  · rename_i c rest hcons
    rw [hcons]
    dsimp only
    split <;> rfl

theorem inEscape_eraseChar (t : TTY) : (t.eraseChar termios).inEscape = t.inEscape := by
  rw [TTY.eraseChar]
  split
  · rfl
  · dsimp only
    split <;> rfl

/-- A loop that looks at the back and erases at the front erases everything or nothing. -/
theorem rawBuffer_eraseWhile (p : UInt8 → Bool) (fuel : ℕ) : ∀ t : TTY,
    t.rawBuffer.length ≤ fuel → (TTY.eraseWhile termios p fuel t).rawBuffer =
      if t.rawBuffer.getLast?.any p then [] else t.rawBuffer := by
  induction fuel with
  | zero =>
    intro t hlen
    rw [TTY.eraseWhile, List.length_eq_zero_iff.mp (Nat.le_zero.mp hlen)]
    rfl
  | succ fuel ih =>
    intro t hlen
    rw [TTY.eraseWhile]
    cases hlast : t.rawBuffer.getLast? with
    | none =>
      rw [List.getLast?_eq_none_iff.mp hlast]
      rfl
    | some c =>
      simp only [Option.any_some]
      split
      · rename_i hp
        rw [ih _ (by rw [rawBuffer_eraseChar, List.length_tail]; omega), rawBuffer_eraseChar]
        -- the last character is still there, unless it was the only one
        cases htail : t.rawBuffer.tail with
        | nil => rfl
        | cons x rest =>
          have hsame : (x :: rest).getLast? = some c := by
            rw [← htail, List.getLast?_tail, hlast]
            have hlen' := congrArg List.length htail
            rw [List.length_tail, List.length_cons] at hlen'
            rw [if_neg (by omega)]
          rw [hsame, Option.any_some, hp]
          rfl
      · rfl

theorem inEscape_eraseWhile (p : UInt8 → Bool) (fuel : ℕ) : ∀ t : TTY,
    (TTY.eraseWhile termios p fuel t).inEscape = t.inEscape := by
  induction fuel with
  | zero => exact fun t => rfl
  | succ fuel ih =>
    intro t
    rw [TTY.eraseWhile]
    split
    · split
      · rw [ih, inEscape_eraseChar]
      · rfl
    · rfl

/-- `EraseWord` erases all there is. -/
theorem rawBuffer_eraseWord (t : TTY) : (t.eraseWord termios).rawBuffer = [] := by
  rw [TTY.eraseWord, rawBuffer_eraseWhile _ _ _ le_rfl, rawBuffer_eraseWhile _ _ _ le_rfl]
  cases hlast : t.rawBuffer.getLast? with
  | none =>
    rw [List.getLast?_eq_none_iff.mp hlast]
    rfl
  | some c =>
    by_cases hc : c = 0x20
    · simp [hc, hlast]
    · simp [hc]

theorem inEscape_eraseWord (t : TTY) : (t.eraseWord termios).inEscape = t.inEscape := by
  rw [TTY.eraseWord]
  exact (inEscape_eraseWhile _ _ _).trans (inEscape_eraseWhile _ _ _)

/-- The buffer is edited, and lines are added. -/
def Edited (t t' : TTY) (r : Line × List Line) : Prop :=
  t'.rawBuffer = r.1 ∧ t'.lines.completed = t.lines.completed ++ r.2 ∧ t'.inEscape = t.inEscape

theorem edited_enqueueChar {t t' : TTY} {r : Line × List Line} (h : Edited t t' r) (c : UInt8) :
    Edited t (t'.enqueueChar push c) (r.1 ++ [c], r.2) :=
  ⟨congrArg (· ++ [c]) h.1, h.2.1, h.2.2⟩

theorem edited_addLine {t t' : TTY} {line : Line} (h : Edited t t' (line, [])) :
    Edited t t'.addLine ([], [line]) := by
  obtain ⟨hbuffer, hlines, hescape⟩ := h
  refine ⟨rfl, ?_, hescape⟩
  rw [completed_addLine, hlines, hbuffer, List.append_nil]

theorem Edited.same {t t' t'' : TTY} {r : Line × List Line} (h : Edited t t' r)
    (hsame : SameLine t' t'') : Edited t t'' r :=
  ⟨hsame.1.trans h.1, hsame.2.1 ▸ h.2.1, hsame.2.2.trans h.2.2⟩

theorem edited_rfl (t : TTY) : Edited t t (t.rawBuffer, []) :=
  ⟨rfl, (List.append_nil _).symm, rfl⟩

theorem edited_eraseChar (t : TTY) :
    Edited t (t.eraseChar termios) (t.rawBuffer.tail, []) :=
  ⟨rawBuffer_eraseChar t, by rw [TTY.lines_eraseChar, List.append_nil], inEscape_eraseChar t⟩

theorem edited_eraseWord (t : TTY) : Edited t (t.eraseWord termios) ([], []) :=
  ⟨rawBuffer_eraseWord t, by rw [TTY.lines_eraseWord, List.append_nil], inEscape_eraseWord t⟩

/-- A character that is not dealt with goes to the end of the buffer. -/
theorem edited_enqueue_echo {t t' : TTY} {r : Line × List Line} (h : Edited t t' r) (c : UInt8)
    {echo : Prop} [Decidable echo] :
    Edited t (if echo then (t'.enqueueChar push c).echo termios c else t'.enqueueChar push c)
      (r.1 ++ [c], r.2) := by
  have henqueue := edited_enqueueChar h c
  split
  · exact henqueue.same (same_echo _ c)
  · exact henqueue

/-- The control characters have edited the buffer, or left one that still takes the character. -/
def Handles (t : TTY) (c : UInt8) (handled : Bool × TTY) (r : Line × List Line) : Prop :=
  if handled.1 then Edited t handled.2 r
  else ∃ r', Edited t handled.2 r' ∧ r = (r'.1 ++ [c], r'.2)

theorem handles_onCanonChar (flags : Termios) {t : TTY} (h : t.inEscape = false) (c : UInt8) :
    Handles t c (t.onCanonChar flags.withDefaultControls push c)
      (bufferEdit flags t.rawBuffer c) := by
  have heof : TTY.isControlChar c flags.withDefaultControls.veof = true ↔ c = 0x04 :=
    isControlChar_iff c 0x04 (by decide)
  have hkill : TTY.isControlChar c flags.withDefaultControls.vkill = true ↔ c = 0x15 :=
    isControlChar_iff c 0x15 (by decide)
  have herase : TTY.isControlChar c flags.withDefaultControls.verase = true ↔ c = 0x7f :=
    isControlChar_iff c 0x7f (by decide)
  have hwerase : TTY.isControlChar c flags.withDefaultControls.vwerase = true ↔ c = 0x17 :=
    isControlChar_iff c 0x17 (by decide)
  have heol : TTY.isControlChar c flags.withDefaultControls.veol = true ↔ c = 0x00 :=
    isControlChar_iff c 0x00 (by decide)
  have hechok : flags.withDefaultControls.echok = flags.echok := rfl
  have hechoe : flags.withDefaultControls.echoe = flags.echoe := rfl
  rw [TTY.onCanonChar, bufferEdit]
  simp only [h, heof, hkill, herase, hwerase, heol, hechok, hechoe, Bool.false_eq_true, if_false]
  split
  · exact edited_addLine (edited_rfl t)
  · split
    · exact ⟨rfl, (List.append_nil _).symm, rfl⟩
    · split
      · exact edited_eraseChar t
      · split
        · exact edited_eraseWord t
        · split
          · apply edited_addLine
            refine edited_enqueueChar (r := (t.rawBuffer, [])) ?_ c
            split
            · exact (edited_rfl t).same (same_echo t c)
            · exact edited_rfl t
          · split
            · exact ⟨_, edited_addLine (edited_rfl t), rfl⟩
            · exact ⟨_, edited_rfl t, rfl⟩

theorem edited_takeChar (flags : Termios) {t : TTY} (h : t.inEscape = false) (c : UInt8) :
    Edited t (t.takeChar flags.withDefaultControls push c) (bufferEdit flags t.rawBuffer c) := by
  have hhandles := handles_onCanonChar flags h c
  rw [Handles] at hhandles
  rw [TTY.takeChar]
  dsimp only
  split at hhandles
  · rename_i hhandled
    rw [if_pos hhandled]
    exact hhandles
  · rename_i hhandled
    obtain ⟨r, hr, heq⟩ := hhandles
    rw [if_neg hhandled, heq]
    exact edited_enqueue_echo hr c

/-- In a string that begins with `ESC` no character gets to the line. -/
theorem same_takeChar (h : t.inEscape = true) (c : UInt8) :
    SameLine t (t.takeChar termios push c) := by
  rw [TTY.takeChar, TTY.onCanonChar, if_pos h]
  exact ⟨rfl, rfl, rfl⟩

theorem same_sendChar (termios : Termios) {t : TTY} (h : t.inEscape = true) (c : UInt8) :
    SameLine t (t.sendChar termios push c) := by
  rw [TTY.sendChar]
  repeat' split
  all_goals
    first
    | exact same_takeChar h _
    | exact ⟨rfl, rfl, rfl⟩

/-- A character that is typed edits the buffer as the character that gets through to the line. -/
theorem edited_sendChar (flags : Termios) {t : TTY} (h : t.inEscape = false) (c : UInt8) :
    Edited t (t.sendChar flags.withDefaultControls push c)
      ((typed flags.withDefaultControls ⟨false, c⟩).elim (t.rawBuffer, [])
        (bufferEdit flags t.rawBuffer)) := by
  have hcontrol (c : UInt8) :
      (TTY.isControlChar c flags.withDefaultControls.vintr = true ↔ c = 0x03) ∧
      (TTY.isControlChar c flags.withDefaultControls.vquit = true ↔ c = 0x1c) ∧
      (TTY.isControlChar c flags.withDefaultControls.vsusp = true ↔ c = 0x1a) :=
    ⟨isControlChar_iff c 0x03 (by decide), isControlChar_iff c 0x1c (by decide),
      isControlChar_iff c 0x1a (by decide)⟩
  rw [TTY.sendChar, typed]
  simp only [(hcontrol _).1, (hcontrol _).2.1, (hcontrol _).2.2, Bool.false_eq_true, if_false]
  generalize (if flags.withDefaultControls.istrip then c &&& 0x7f else c) = c'
  have hsignal : Edited t (t.sendSignal .int) (t.rawBuffer, []) ∧
      Edited t (t.sendSignal .quit) (t.rawBuffer, []) :=
    ⟨⟨rfl, (List.append_nil _).symm, rfl⟩, ⟨rfl, (List.append_nil _).symm, rfl⟩⟩
  by_cases hisig : flags.withDefaultControls.isig = true ∧ (c' = 0x03 ∨ c' = 0x1c ∨ c' = 0x1a)
  · rw [if_pos hisig]
    split
    · exact hsignal.1
    · split
      · exact hsignal.2
      · split
        · exact hsignal.1
        · obtain ⟨hisig, hc⟩ := hisig
          simp_all
  · rw [if_neg hisig]
    have hnot : ¬(flags.withDefaultControls.isig = true ∧ c' = 0x03) ∧
        ¬(flags.withDefaultControls.isig = true ∧ c' = 0x1c) ∧
        ¬(flags.withDefaultControls.isig = true ∧ c' = 0x1a) := by
      tauto
    rw [if_neg hnot.1, if_neg hnot.2.1, if_neg hnot.2.2]
    split
    · exact edited_takeChar flags h _
    · split
      · split
        · exact edited_rfl t
        · exact edited_takeChar flags h _
      · exact edited_takeChar flags h _

theorem sendKey_spec (flags : Termios) (t : TTY) (k : Key) :
    (sendKey flags.withDefaultControls t k).rawBuffer =
        ((typed flags.withDefaultControls k).elim (t.rawBuffer, [])
          (bufferEdit flags t.rawBuffer)).1 ∧
      (sendKey flags.withDefaultControls t k).lines.completed = t.lines.completed ++
        ((typed flags.withDefaultControls k).elim (t.rawBuffer, [])
          (bufferEdit flags t.rawBuffer)).2 := by
  obtain ⟨inEscape, c⟩ := k
  cases inEscape with
  | true =>
    obtain ⟨hbuffer, hlines, -⟩ :=
      same_sendChar flags.withDefaultControls (t := { t with inEscape := true }) rfl c
    have hnone : typed flags.withDefaultControls ⟨true, c⟩ = none := by
      rw [typed]
      exact if_pos rfl
    rw [hnone]
    exact ⟨hbuffer, (congrArg Lines.completed hlines).trans (List.append_nil _).symm⟩
  | false =>
    obtain ⟨hbuffer, hlines, -⟩ :=
      edited_sendChar flags (t := { t with inEscape := false }) rfl c
    exact ⟨hbuffer, hlines⟩

/-! ## When it is what the editor makes of it -/

/-- To lose the first character or the last one is the same for one that is repeated. -/
theorem tail_eq_dropLast_iff (line : Line) :
    line.tail = line.dropLast ↔ ∀ x ∈ line, ∀ y ∈ line, x = y := by
  induction line with
  | nil => simp
  | cons x rest ih =>
    cases rest with
    | nil => simp
    | cons y rest =>
      have htail : rest = (y :: rest).dropLast ↔ ∀ a ∈ y :: rest, ∀ b ∈ y :: rest, a = b := ih
      rw [List.tail_cons, List.dropLast_cons_cons, List.cons.injEq, htail]
      constructor
      · rintro ⟨rfl, h⟩ a ha b hb
        have hmem (z : UInt8) (hz : z ∈ y :: y :: rest) : z ∈ y :: rest := by simpa using hz
        exact h a (hmem a ha) b (hmem b hb)
      · intro h
        refine ⟨h y (by simp) x (by simp), fun a ha b hb => ?_⟩
        exact h a (List.mem_cons_of_mem _ ha) b (List.mem_cons_of_mem _ hb)

theorem killWord_eq_nil_iff (line : Line) : killWord line = [] ↔ OneWord line := by
  rw [killWord, List.rdropWhile_eq_nil_iff]
  constructor
  · intro h
    refine ⟨line.rdropWhile (· == 0x20), line.rtakeWhile (· == 0x20),
      List.rdropWhile_append_rtakeWhile.symm, fun c hc => by simpa using h c hc, fun c hc => ?_⟩
    simpa using List.mem_rtakeWhile_imp hc
  · rintro ⟨word, blanks, rfl, hword, hblanks⟩ c hc
    have hdrop : (word ++ blanks).rdropWhile (· == 0x20) = word.rdropWhile (· == 0x20) := by
      rw [List.rdropWhile, List.reverse_append, List.dropWhile_append_of_pos]
      · rfl
      · intro x hx
        simpa using hblanks x (List.mem_reverse.mp hx)
    rw [hdrop] at hc
    simpa using hword c ((List.rdropWhile_prefix _ _).subset hc)

theorem length_killWord_le (line : Line) : (killWord line).length ≤ line.length :=
  (List.rdropWhile_prefix _ _).length_le.trans (List.rdropWhile_prefix _ _).length_le

/-- The buffer is edited like the line by the characters that do the same to both. -/
theorem bufferEdit_eq_edit_iff (flags : Termios) (line : Line) (c : UInt8) :
    bufferEdit flags line c = edit line c ↔
      (c = 0x15 → flags.echok = true) ∧
      (c = 0x7f ∨ c = 0x08 → flags.echoe = true ∧ ∀ x ∈ line, ∀ y ∈ line, x = y) ∧
      (c = 0x17 → flags.echoe = true ∧ OneWord line) ∧ c ≠ 0x00 := by
  rw [bufferEdit, edit]
  by_cases hkill : c = 0x15
  · subst hkill
    cases flags.echok <;> simp
  · by_cases herase : c = 0x7f ∨ c = 0x08
    · have hne : c ≠ 0x04 ∧ c ≠ 0x17 ∧ c ≠ 0x0a ∧ c ≠ 0x00 := by
        rcases herase with rfl | rfl <;> decide
      cases hechoe : flags.echoe with
      | true => simp [hkill, herase, hne, tail_eq_dropLast_iff]
      | false =>
        have hlength : line ++ [c] ≠ line.dropLast := by
          intro heq
          have hlen := congrArg List.length heq
          rw [List.length_append, List.length_dropLast, List.length_singleton] at hlen
          omega
        simp [hkill, herase, hne, hlength]
    · by_cases hwerase : c = 0x17
      · subst hwerase
        cases hechoe : flags.echoe with
        | true =>
          simp [@eq_comm _ [] (killWord line), killWord_eq_nil_iff]
        | false =>
          have hlength : line ++ [0x17] ≠ killWord line := by
            intro heq
            have hlen := congrArg List.length heq
            have hle := length_killWord_le line
            rw [List.length_append, List.length_singleton] at hlen
            omega
          simp [hlength]
      · by_cases heol : c = 0x00
        · subst heol
          simp
        · simp [hkill, herase, hwerase, heol]

/-- The tty follows the editor exactly where their editing of the line is the same. -/
theorem follows_iff {flags : Termios} {w : Both} (h : Agree w.tty w.editor) (k : Key) :
    Follows flags w k ↔ Meets flags w k := by
  obtain ⟨hbuffer, hlines⟩ := sendKey_spec flags w.tty k
  rw [Follows, Agree, hbuffer, hlines, Meets, Editor.feed]
  cases htyped : typed flags.withDefaultControls k with
  | none => simp [h.1, h.2]
  | some c =>
    simp only [Option.elim_some, Option.mem_def, Option.some.injEq, forall_eq']
    rw [← bufferEdit_eq_edit_iff, ← h.1, ← h.2, Prod.ext_iff, List.append_right_inj]

theorem sendKey_agree {flags : Termios} {w w' : Both} {k : Key} (h : Follows flags w k)
    (hstep : step flags w k = some w') : Agree w'.tty w'.editor := by
  obtain rfl := Option.some.inj hstep
  exact h

/-- Where the tty follows the editor at every character, they agree at the end. -/
theorem agree_of_along {flags : Termios} (ks : List Key) : ∀ {w : Both}, Agree w.tty w.editor →
    Along (step flags) (Follows flags) w ks →
    Agree (ks.foldl (sendKey flags.withDefaultControls) w.tty)
      (ks.foldl (Editor.feed flags.withDefaultControls) w.editor) := by
  induction ks with
  | nil => exact fun h _ => h
  | cons k ks ih =>
    rintro w - ⟨hfollows, hrest⟩
    exact ih (sendKey_agree hfollows rfl) (hrest _ rfl)

theorem inEscape_sendChar (flags : Termios) (t : TTY) (c : UInt8) :
    (t.sendChar flags.withDefaultControls push c).inEscape = t.inEscape := by
  cases h : t.inEscape with
  | true => exact (same_sendChar _ h c).2.2.trans h
  | false => exact (edited_sendChar flags h c).2.2.trans h

/-- A string is sent character by character. -/
theorem foldl_sendKey (flags : Termios) (string : List UInt8) : ∀ t : TTY,
    (string.map fun c => (⟨t.inEscape, c⟩ : Key)).foldl (sendKey flags.withDefaultControls)
        { t with inEscape := false } =
      { string.foldl (TTY.sendChar flags.withDefaultControls push) t with inEscape := false } := by
  induction string with
  | nil => exact fun t => rfl
  | cons c string ih =>
    intro t
    have hrest := ih (t.sendChar flags.withDefaultControls push c)
    rw [inEscape_sendChar] at hrest
    exact hrest

theorem sendBuffer_eq (flags : Termios) {t : TTY} (h : t.inEscape = false) (string : List UInt8) :
    t.sendBuffer flags.withDefaultControls push string =
      (string.map fun c => (⟨decide (string.head? = some 0x1b), c⟩ : Key)).foldl
        (sendKey flags.withDefaultControls) t := by
  have ht : { t with inEscape := false } = t := by
    rw [← h]
  rw [TTY.sendBuffer]
  by_cases hescape : string.head? = some 0x1b
  · have hsend := foldl_sendKey flags string { t with inEscape := true }
    simp only [hescape, if_true, decide_true]
    rw [← hsend]
    exact congrArg (List.foldl _ · _) ht
  · have hsend := foldl_sendKey flags string t
    rw [h, ht] at hsend
    simp only [hescape, if_false, decide_false]
    exact hsend.symm

/-- Strings are sent one after the other. -/
theorem foldl_sendBuffer (flags : Termios) (strings : List (List UInt8)) : ∀ {t : TTY},
    t.inEscape = false →
    strings.foldl (TTY.sendBuffer flags.withDefaultControls push) t =
      (keys strings).foldl (sendKey flags.withDefaultControls) t := by
  induction strings with
  | nil => exact fun _ => rfl
  | cons string strings ih =>
    intro t h
    have hkeys : keys (string :: strings) =
        (string.map fun c => ⟨decide (string.head? = some 0x1b), c⟩) ++ keys strings :=
      List.flatMap_cons
    rw [List.foldl_cons, ih rfl, hkeys, List.foldl_append, sendBuffer_eq flags h]

/-- In every run of strings that are sent to a new tty, the tty follows the editor exactly when
every character meets its condition; and then the lines that it hands over are those of the
editor. -/
theorem follows_along_iff (flags : Termios) (strings : List (List UInt8)) :
    (Along (step flags) (Follows flags) start (keys strings) ↔
      Along (step flags) (Meets flags) start (keys strings)) ∧
    (Along (step flags) (Meets flags) start (keys strings) →
      (strings.foldl (TTY.sendBuffer flags.withDefaultControls push) .create).lines.completed =
        ((keys strings).foldl (Editor.feed flags.withDefaultControls) ⟨[], []⟩).lines) := by
  have hiff : Along (step flags) (Follows flags) start (keys strings) ↔
      Along (step flags) (Meets flags) start (keys strings) := by
    apply Along.congr (I := fun w => Agree w.tty w.editor) ⟨rfl, rfl⟩ Along.anyCall
    · exact fun w k h _ => follows_iff h k
    · exact fun w k w' h _ hmeets hstep => sendKey_agree ((follows_iff h k).mpr hmeets) hstep
  refine ⟨hiff, fun hmeets => ?_⟩
  rw [foldl_sendBuffer flags strings rfl]
  exact (agree_of_along (keys strings) ⟨rfl, rfl⟩ (hiff.mpr hmeets)).2

/-- The second of two characters is erased, and the first one is missing in the line. -/
theorem not_follows_erase :
    ([[0x61], [0x62], [0x7f], [0x0a]].foldl
        (TTY.sendBuffer Termios.default.withDefaultControls push) .create).lines.completed =
      [[0x62, 0x0a]] ∧
    ((keys [[0x61], [0x62], [0x7f], [0x0a]]).foldl
        (Editor.feed Termios.default.withDefaultControls) ⟨[], []⟩).lines = [[0x61, 0x0a]] ∧
    ¬Along (step .default) (Follows .default) start (keys [[0x61], [0x62], [0x7f], [0x0a]]) := by
  have hcode : ([[0x61], [0x62], [0x7f], [0x0a]].foldl
      (TTY.sendBuffer Termios.default.withDefaultControls push) .create).lines.completed =
      [[0x62, 0x0a]] := by decide
  have heditor : ((keys [[0x61], [0x62], [0x7f], [0x0a]]).foldl
      (Editor.feed Termios.default.withDefaultControls) ⟨[], []⟩).lines = [[0x61, 0x0a]] := by
    decide
  refine ⟨hcode, heditor, fun h => ?_⟩
  have hlines := (agree_of_along _ ⟨rfl, rfl⟩ h).2
  rw [← foldl_sendBuffer .default _ rfl] at hlines
  have hsame := hcode.symm.trans (hlines.trans heditor)
  revert hsame
  decide

end LineEditor

end Cryptix.Drivers
