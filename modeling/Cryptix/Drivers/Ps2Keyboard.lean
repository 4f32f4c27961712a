import Mathlib.Data.Nat.Bitwise
import Mathlib.Tactic.SplitIfs

/-!
# The PS/2 keyboard

`Kernel/Drivers/HID/Ps2KeyboardDevice.cpp` with the table of `Kernel/Drivers/HID/PS2Scancodes.hpp`:
the bytes that the keyboard sends in the first scan code set become strings for the current tty. The
reference says what a key means by the keys before it.

The table has no rows for the keypad, so that `F11` and `F12` stand where its `7` and `8` would be,
and the codes of `F11` and `F12` are behind its end. A key without a character, such as `F1`, sends
a zero byte. Caps Lock stays on once it was pressed, and the escape `\0177` of the Delete key is a
character `0x0f` in front of a `7`.
-/

namespace Cryptix.Drivers

/-- The code points of a `Key`; its `KeyCode` is not read. -/
structure Key where
  codePoint : UInt8
  shiftCodePoint : UInt8
  capsLockCodePoint : UInt8
  shiftCapsLockCodePoint : UInt8
  deriving DecidableEq

/-- `PS2_Set1_Keys`. -/
def ps2Set1Keys : List Key :=
  [⟨0, 0, 0, 0⟩, ⟨0x1b, 0x1b, 0x1b, 0x1b⟩,
    -- `1` to Tab
    ⟨0x31, 0x21, 0x31, 0x21⟩, ⟨0x32, 0x40, 0x32, 0x40⟩, ⟨0x33, 0x23, 0x33, 0x23⟩,
    ⟨0x34, 0x24, 0x34, 0x24⟩, ⟨0x35, 0x25, 0x35, 0x25⟩, ⟨0x36, 0x5e, 0x36, 0x5e⟩,
    ⟨0x37, 0x26, 0x37, 0x26⟩, ⟨0x38, 0x2a, 0x38, 0x2a⟩, ⟨0x39, 0x28, 0x39, 0x28⟩,
    ⟨0x30, 0x29, 0x30, 0x29⟩, ⟨0x2d, 0x5f, 0x2d, 0x5f⟩, ⟨0x3d, 0x2b, 0x3d, 0x2b⟩,
    ⟨0x08, 0x08, 0x08, 0x08⟩, ⟨0x09, 0x09, 0x09, 0x09⟩,
    -- `q` to Control
    ⟨0x71, 0x51, 0x51, 0x71⟩, ⟨0x77, 0x57, 0x57, 0x77⟩, ⟨0x65, 0x45, 0x45, 0x65⟩,
    ⟨0x72, 0x52, 0x52, 0x72⟩, ⟨0x74, 0x54, 0x54, 0x74⟩, ⟨0x79, 0x59, 0x59, 0x79⟩,
    ⟨0x75, 0x55, 0x55, 0x75⟩, ⟨0x69, 0x49, 0x49, 0x69⟩, ⟨0x6f, 0x4f, 0x4f, 0x6f⟩,
    ⟨0x70, 0x50, 0x50, 0x70⟩, ⟨0x5b, 0x7b, 0x5b, 0x7b⟩, ⟨0x5d, 0x7d, 0x5d, 0x7d⟩,
    ⟨0x0d, 0x0d, 0x0d, 0x0d⟩, ⟨0, 0, 0, 0⟩,
    -- `a` to the backslash
    ⟨0x61, 0x41, 0x41, 0x61⟩, ⟨0x73, 0x53, 0x53, 0x73⟩, ⟨0x64, 0x44, 0x44, 0x64⟩,
    ⟨0x66, 0x46, 0x46, 0x66⟩, ⟨0x67, 0x47, 0x47, 0x67⟩, ⟨0x68, 0x48, 0x48, 0x68⟩,
    ⟨0x6a, 0x4a, 0x4a, 0x6a⟩, ⟨0x6b, 0x4b, 0x4b, 0x6b⟩, ⟨0x6c, 0x4c, 0x4c, 0x6c⟩,
    ⟨0x3b, 0x3a, 0x3b, 0x3a⟩, ⟨0x27, 0x22, 0x27, 0x22⟩, ⟨0x60, 0x7e, 0x60, 0x7e⟩, ⟨0, 0, 0, 0⟩,
    ⟨0x5c, 0x7c, 0x5c, 0x7c⟩,
    -- `z` to the space
    ⟨0x7a, 0x5a, 0x5a, 0x7a⟩, ⟨0x78, 0x58, 0x58, 0x78⟩, ⟨0x63, 0x43, 0x43, 0x63⟩,
    ⟨0x76, 0x56, 0x56, 0x76⟩, ⟨0x62, 0x42, 0x42, 0x62⟩, ⟨0x6e, 0x4e, 0x4e, 0x6e⟩,
    ⟨0x6d, 0x4d, 0x4d, 0x6d⟩, ⟨0x2c, 0x3c, 0x2c, 0x3c⟩, ⟨0x2e, 0x3e, 0x2e, 0x3e⟩,
    ⟨0x2f, 0x3f, 0x2f, 0x3f⟩, ⟨0, 0, 0, 0⟩, ⟨0x2a, 0x2a, 0x2a, 0x2a⟩, ⟨0, 0, 0, 0⟩,
    ⟨0x20, 0x20, 0x20, 0x20⟩,
    -- Caps Lock, `F1` to `F10`, Num Lock, Scroll Lock, `F11` and `F12`
    ⟨0, 0, 0, 0⟩, ⟨0, 0, 0, 0⟩, ⟨0, 0, 0, 0⟩, ⟨0, 0, 0, 0⟩, ⟨0, 0, 0, 0⟩, ⟨0, 0, 0, 0⟩,
    ⟨0, 0, 0, 0⟩, ⟨0, 0, 0, 0⟩, ⟨0, 0, 0, 0⟩, ⟨0, 0, 0, 0⟩, ⟨0, 0, 0, 0⟩, ⟨0, 0, 0, 0⟩,
    ⟨0, 0, 0, 0⟩, ⟨0, 0, 0, 0⟩, ⟨0, 0, 0, 0⟩]

/-- `KeyModifier`, a flag for each bit. -/
structure KeyModifier where
  control : Bool
  alt : Bool
  shift : Bool
  capsLock : Bool
  deriving DecidableEq

inductive ScanCodeSet
  | set1
  | set2
  | set3
  deriving DecidableEq

/-- `m_ScanCodeSet`, `m_Modifiers` and `m_ExtraScanCode` of a `Ps2KeyboardDevice`. -/
structure Ps2KeyboardDevice where
  scanCodeSet : ScanCodeSet
  modifiers : KeyModifier
  extraScanCode : Bool
  deriving DecidableEq

namespace Ps2KeyboardDevice

/-- What the keyboard finds when it handles a byte: the cursor key mode of the current tty, if there
is one, and `disableArrowKeys` of the command line. -/
structure Surroundings where
  cursorKeyMode : Option Bool
  disableArrowKeys : Bool

/-- What the keyboard does. -/
inductive Effect
  | send (string : List UInt8)
  | reboot
  | toggleLogSyscalls
  deriving DecidableEq

/-- `Emit`. -/
def emit (w : Surroundings) (string : List UInt8) : List Effect :=
  if w.cursorKeyMode.isSome then [.send string] else []

/-- The sequence of a cursor key. -/
def emitCursor (w : Surroundings) (c : UInt8) : List Effect :=
  if w.disableArrowKeys then []
  else emit w [0x1b, if w.cursorKeyMode.getD false then 0x4f else 0x5b, c]

/-- `std::toupper`. -/
def toupper (c : UInt8) : UInt8 := if 0x61 ≤ c ∧ c ≤ 0x7a then c - 0x20 else c

/-- The character of a key with the modifiers. -/
def character (m : KeyModifier) (key : Key) : UInt8 :=
  let c :=
    if !m.capsLock && !m.shift then key.codePoint
    else if !m.capsLock && m.shift then key.shiftCodePoint
    else if m.capsLock && !m.shift then key.capsLockCodePoint
    else key.shiftCapsLockCodePoint
  if m.control then toupper c - 0x40 else c

/-- `!(raw & 0x80)`. -/
def isPressed (raw : ℕ) : Bool := !raw.testBit 7

/-- The `switch` for a byte with the prefix; `none` falls through to the one without. -/
def handleExtra (w : Surroundings) (s : Ps2KeyboardDevice) (raw : ℕ) :
    Option (Ps2KeyboardDevice × List Effect) :=
  if raw = 0x1d ∨ raw = 0x9d then
    some ({ s with modifiers := { s.modifiers with control := isPressed raw } }, [])
  else if raw = 0x1c then some (s, emit w [0x0a])
  else if raw = 0x35 then some (s, emit w [0x2f])
  else if raw = 0x48 then some (s, emitCursor w 0x41)
  else if raw = 0x4b then some (s, emitCursor w 0x44)
  else if raw = 0x50 then some (s, emitCursor w 0x42)
  else if raw = 0x4d then some (s, emitCursor w 0x43)
  else if raw = 0x47 then some (s, emit w [0x1b, 0x5b, 0x31, 0x7e])
  else if raw = 0x4f then some (s, emit w [0x1b, 0x5b, 0x34, 0x7e])
  else if raw = 0x49 then some (s, emit w [0x1b, 0x5b, 0x35, 0x7e])
  else if raw = 0x51 then some (s, emit w [0x1b, 0x5b, 0x36, 0x7e])
  else if raw = 0x53 then some (s, emit w [0x0f])
  else none

/-- What a key in the table does when it is pressed. -/
def press (w : Surroundings) (m : KeyModifier) (key : Key) : List Effect :=
  let c := character m key
  (if m.shift && m.alt && c == 0x0d then [.reboot]
    else if m.shift && m.alt then [.toggleLogSyscalls] else []) ++ emit w [c]

/-- The `switch` for a byte without the prefix, and the lookup behind it. -/
def handleKey (w : Surroundings) (s : Ps2KeyboardDevice) (raw : ℕ) :
    Ps2KeyboardDevice × List Effect :=
  if raw = 0x45 then (s, [])
  else if raw = 0x38 ∨ raw = 0xb8 then
    ({ s with modifiers := { s.modifiers with alt := isPressed raw } }, [])
  else if raw = 0x2a ∨ raw = 0x36 ∨ raw = 0xaa ∨ raw = 0xb6 then
    ({ s with modifiers := { s.modifiers with shift := isPressed raw } }, [])
  else if raw = 0x1d ∨ raw = 0x9d then
    ({ s with modifiers := { s.modifiers with control := isPressed raw } }, [])
  else if raw = 0x3a then
    ({ s with modifiers := { s.modifiers with capsLock := isPressed raw } }, [])
  else
    match ps2Set1Keys[raw]? with
    | none => (s, [])
    | some key => (s, if !isPressed raw then [] else press w s.modifiers key)

/-- `HandleScanCodeSet1Key`. -/
def handleScanCodeSet1Key (w : Surroundings) (s : Ps2KeyboardDevice) (raw : ℕ) :
    Ps2KeyboardDevice × List Effect :=
  if raw = 0xe0 then ({ s with extraScanCode := true }, [])
  else if s.extraScanCode then
    let s := { s with extraScanCode := false }
    (handleExtra w s raw).getD (handleKey w s raw)
  else handleKey w s raw

/-- `OnByteReceived`; `none` is the assertion. `HandleScanCodeSet2Key` is empty. -/
def onByteReceived (w : Surroundings) (s : Ps2KeyboardDevice) (raw : ℕ) :
    Option (Ps2KeyboardDevice × List Effect) :=
  match s.scanCodeSet with
  | .set1 => some (handleScanCodeSet1Key w s raw)
  | .set2 => some (s, [])
  | .set3 => none

/-- The bytes that the controller hands over, with what the keyboard finds at each of them. -/
def receive : List (Surroundings × ℕ) → Ps2KeyboardDevice →
    Option (Ps2KeyboardDevice × List Effect)
  | [], s => some (s, [])
  | (w, raw) :: bytes, s =>
    (onByteReceived w s raw).bind fun first =>
      (receive bytes first.1).map fun rest => (rest.1, first.2 ++ rest.2)

/-! ## The keys of a keyboard -/

/-- A key by its code, with the prefix or without. Released, a key `0x60` would send the prefix. -/
structure PhysicalKey where
  extended : Bool
  code : ℕ
  code_lt : code < 0x80
  code_ne : code ≠ 0x60

/-- What happens to the keys; Pause has no release. -/
inductive KeyEvent
  | press (k : PhysicalKey)
  | release (k : PhysicalKey)
  | pause

/-- The bytes that the keyboard sends for it. -/
def KeyEvent.bytes : KeyEvent → List ℕ
  | .press k => if k.extended then [0xe0, k.code] else [k.code]
  | .release k => if k.extended then [0xe0, k.code + 0x80] else [k.code + 0x80]
  | .pause => [0xe1, 0x1d, 0x45, 0xe1, 0x9d, 0xc5]

/-- What it does to the keys with the codes; Pause releases Control. -/
def KeyEvent.held? (codes : List ℕ) : KeyEvent → Option Bool
  | .press k => if k.code ∈ codes then some true else none
  | .release k => if k.code ∈ codes then some false else none
  | .pause => if 0x1d ∈ codes then some false else none

/-- Whether the last event of the keys with the codes is a press. -/
def held (codes : List ℕ) (history : List KeyEvent) : Bool :=
  (history.filterMap (KeyEvent.held? codes)).getLast?.getD false

/-- Caps Lock is on from its first press. -/
def capsLocked (history : List KeyEvent) : Bool :=
  history.any fun e => e.held? [0x3a] == some true

/-- The modifiers by the history of the keys. -/
def modifiersOf (history : List KeyEvent) : KeyModifier where
  control := held [0x1d] history
  alt := held [0x38] history
  shift := held [0x2a, 0x36] history
  capsLock := capsLocked history

/-- The keys with the prefix that have a string of their own. -/
def extendedKey (w : Surroundings) : ℕ → Option (List Effect)
  | 0x1c => some (emit w [0x0a])
  | 0x35 => some (emit w [0x2f])
  | 0x47 => some (emit w [0x1b, 0x5b, 0x31, 0x7e])
  | 0x48 => some (emitCursor w 0x41)
  | 0x49 => some (emit w [0x1b, 0x5b, 0x35, 0x7e])
  | 0x4b => some (emitCursor w 0x44)
  | 0x4d => some (emitCursor w 0x43)
  | 0x4f => some (emit w [0x1b, 0x5b, 0x34, 0x7e])
  | 0x50 => some (emitCursor w 0x42)
  | 0x51 => some (emit w [0x1b, 0x5b, 0x36, 0x7e])
  | 0x53 => some (emit w [0x0f])
  | _ => none

/-- The keys that send nothing: Num Lock and the modifiers. -/
def silent : List ℕ := [0x45, 0x1d, 0x38, 0x2a, 0x36, 0x3a]

/-- What a key sends if it has no string of its own. -/
def keyMeaning (w : Surroundings) (m : KeyModifier) (code : ℕ) : List Effect :=
  if code ∈ silent then [] else (ps2Set1Keys[code]?.map (press w m)).getD []

/-- What a key means after the history. -/
def meaning (w : Surroundings) (history : List KeyEvent) : KeyEvent → List Effect
  | .press k =>
    (if k.extended then extendedKey w k.code else none).getD
      (keyMeaning w (modifiersOf history) k.code)
  | .release _ => []
  | .pause => []

/-- What the keys mean, one after the other. -/
def meanings (history : List KeyEvent) : List (Surroundings × KeyEvent) → List Effect
  | [] => []
  | (w, e) :: events => meaning w history e ++ meanings (history ++ [e]) events

/-! ## One key -/

/-- The modifiers after a key with the code was pressed or released. -/
def after (m : KeyModifier) (code : ℕ) (pressed : Bool) : KeyModifier where
  control := if code = 0x1d then pressed else m.control
  alt := if code = 0x38 then pressed else m.alt
  shift := if code = 0x2a ∨ code = 0x36 then pressed else m.shift
  capsLock := if code = 0x3a ∧ pressed then true else m.capsLock

theorem isPressed_code {code : ℕ} (h : code < 0x80) : isPressed code = true := by
  rw [isPressed, Nat.testBit_lt_two_pow (show code < 2 ^ 7 from h), Bool.not_false]

theorem isPressed_released {code : ℕ} (h : code < 0x80) : isPressed (code + 0x80) = false := by
  rw [isPressed, Nat.add_comm, show 0x80 = 2 ^ 7 from rfl, Nat.testBit_two_pow_add_eq,
    Nat.testBit_lt_two_pow (show code < 2 ^ 7 from h), Bool.not_false, Bool.not_true]

/-- A code of none of the modifiers. -/
theorem after_of_other {code : ℕ} (m : KeyModifier) (pressed : Bool) (hcontrol : code ≠ 0x1d)
    (halt : code ≠ 0x38) (hshift : ¬(code = 0x2a ∨ code = 0x36)) (hcaps : code ≠ 0x3a) :
    after m code pressed = m := by
  unfold after
  rw [if_neg hcontrol, if_neg halt, if_neg hshift, if_neg fun h => hcaps h.1]

theorem handleKey_press (w : Surroundings) (s : Ps2KeyboardDevice) {code : ℕ} (h : code < 0x80) :
    handleKey w s code =
      ({ s with modifiers := after s.modifiers code true }, keyMeaning w s.modifiers code) := by
  have hpressed := isPressed_code h
  unfold handleKey keyMeaning
  rw [hpressed]
  by_cases hnum : code = 0x45
  · subst hnum
    rfl
  by_cases halt : code = 0x38
  · subst halt
    rfl
  by_cases hshift : code = 0x2a ∨ code = 0x36
  · rcases hshift with rfl | rfl
    · rfl
    · rfl
  by_cases hcontrol : code = 0x1d
  · subst hcontrol
    rfl
  by_cases hcaps : code = 0x3a
  · subst hcaps
    rfl
  have hsilent : code ∉ silent := by
    simp only [silent, List.mem_cons, List.not_mem_nil, or_false]
    omega
  rw [after_of_other _ _ hcontrol halt hshift hcaps, if_neg hnum, if_neg (by omega),
    if_neg (by omega), if_neg (by omega), if_neg hcaps, if_neg hsilent]
  cases ps2Set1Keys[code]? with
  | none => rfl
  | some key => rfl

theorem handleKey_release (w : Surroundings) (s : Ps2KeyboardDevice) {code : ℕ}
    (h : code < 0x80) :
    handleKey w s (code + 0x80) =
      ({ s with modifiers := after s.modifiers code false }, []) := by
  have hpressed := isPressed_released h
  have hnone : ps2Set1Keys[code + 0x80]? = none :=
    List.getElem?_eq_none (Nat.le_trans (by decide) (Nat.le_add_left 0x80 code))
  unfold handleKey
  rw [hpressed, hnone]
  by_cases halt : code = 0x38
  · subst halt
    rfl
  by_cases hshift : code = 0x2a ∨ code = 0x36
  · rcases hshift with rfl | rfl
    · rfl
    · rfl
  by_cases hcontrol : code = 0x1d
  · subst hcontrol
    rfl
  rw [if_neg (by omega), if_neg (by omega), if_neg (by omega), if_neg (by omega),
    if_neg (by omega)]
  unfold after
  rw [if_neg hcontrol, if_neg halt, if_neg hshift, if_neg fun h => Bool.false_ne_true h.2]

/-- A key with the prefix that has a string of its own is no modifier. -/
theorem handleExtra_press (w : Surroundings) (s : Ps2KeyboardDevice) {code : ℕ} (h : code < 0x80) :
    (handleExtra w s code).getD (handleKey w s code) =
      ({ s with modifiers := after s.modifiers code true },
        (extendedKey w code).getD (keyMeaning w s.modifiers code)) := by
  rw [handleKey_press w s h]
  unfold extendedKey
  split
  iterate 11 rfl
  · rename_i hne₁ hne₂ hne₃ hne₄ hne₅ hne₆ hne₇ hne₈ hne₉ hne₁₀ hne₁₁
    unfold handleExtra
    by_cases hcontrol : code = 0x1d
    · subst hcontrol
      rfl
    rw [if_neg (by omega), if_neg hne₁, if_neg hne₂, if_neg hne₄, if_neg hne₆, if_neg hne₉,
      if_neg hne₇, if_neg hne₃, if_neg hne₈, if_neg hne₅, if_neg hne₁₀, if_neg hne₁₁]
    rfl

theorem handleExtra_release (w : Surroundings) (s : Ps2KeyboardDevice) {code : ℕ}
    (h : code < 0x80) :
    (handleExtra w s (code + 0x80)).getD (handleKey w s (code + 0x80)) =
      ({ s with modifiers := after s.modifiers code false }, []) := by
  rw [handleKey_release w s h]
  unfold handleExtra
  by_cases hcontrol : code = 0x1d
  · subst hcontrol
    rfl
  · iterate 12 rw [if_neg (by omega)]
    rfl

/-! ## The run -/

theorem held_append (codes : List ℕ) (history : List KeyEvent) (e : KeyEvent) :
    held codes (history ++ [e]) = (e.held? codes).getD (held codes history) := by
  unfold held
  rw [List.filterMap_append]
  cases h : e.held? codes with
  | none =>
    rw [List.filterMap_cons_none h, List.filterMap_nil, List.append_nil]
    rfl
  | some b =>
    rw [List.filterMap_cons_some h, List.filterMap_nil, List.getLast?_concat]
    rfl

theorem capsLocked_append (history : List KeyEvent) (e : KeyEvent) :
    capsLocked (history ++ [e]) = (capsLocked history || e.held? [0x3a] == some true) := by
  rw [capsLocked, List.any_append, List.any_cons, List.any_nil, Bool.or_false]
  rfl

theorem getD_ite (p : Prop) [Decidable p] (pressed old : Bool) :
    (if p then some pressed else none).getD old = if p then pressed else old := by
  split
  · rfl
  · rfl

/-- A key with the code was pressed or released. -/
theorem modifiersOf_key (history : List KeyEvent) {e : KeyEvent} {code : ℕ} {pressed : Bool}
    (h : ∀ codes, e.held? codes = if code ∈ codes then some pressed else none) :
    modifiersOf (history ++ [e]) = after (modifiersOf history) code pressed := by
  unfold modifiersOf after
  rw [held_append, held_append, held_append, capsLocked_append, h, h, h, h, getD_ite, getD_ite,
    getD_ite]
  simp only [List.mem_cons, List.not_mem_nil, or_false, KeyModifier.mk.injEq, true_and]
  by_cases hcaps : code = 0x3a
  · cases pressed with
    | true => simp [hcaps]
    | false => simp [hcaps]
  · simp [hcaps]

theorem modifiersOf_pause (history : List KeyEvent) :
    modifiersOf (history ++ [.pause]) = { modifiersOf history with control := false } := by
  unfold modifiersOf
  rw [held_append, held_append, held_append, capsLocked_append]
  simp [KeyEvent.held?]

/-- The keyboard after the history, between two keys. -/
def device (history : List KeyEvent) : Ps2KeyboardDevice := ⟨.set1, modifiersOf history, false⟩

theorem receive_cons_set1 (w : Surroundings) (m : KeyModifier) (extra : Bool) (raw : ℕ)
    (bytes : List (Surroundings × ℕ)) :
    receive ((w, raw) :: bytes) ⟨.set1, m, extra⟩ =
      (receive bytes (handleScanCodeSet1Key w ⟨.set1, m, extra⟩ raw).1).map fun rest =>
        (rest.1, (handleScanCodeSet1Key w ⟨.set1, m, extra⟩ raw).2 ++ rest.2) := rfl

theorem handle_prefix (w : Surroundings) (m : KeyModifier) :
    handleScanCodeSet1Key w ⟨.set1, m, false⟩ 0xe0 = (⟨.set1, m, true⟩, []) := rfl

theorem handle_code (w : Surroundings) (m : KeyModifier) {raw : ℕ} (h : raw ≠ 0xe0) :
    handleScanCodeSet1Key w ⟨.set1, m, false⟩ raw = handleKey w ⟨.set1, m, false⟩ raw :=
  if_neg h

theorem handle_extraCode (w : Surroundings) (m : KeyModifier) {raw : ℕ} (h : raw ≠ 0xe0) :
    handleScanCodeSet1Key w ⟨.set1, m, true⟩ raw =
      (handleExtra w ⟨.set1, m, false⟩ raw).getD (handleKey w ⟨.set1, m, false⟩ raw) :=
  if_neg h

/-- The bytes of a key, from what its code does. -/
theorem receive_key (w : Surroundings) (m m' : KeyModifier) (extended : Bool) {raw : ℕ}
    {effects : List Effect} (hraw : raw ≠ 0xe0)
    (h : (if extended then (handleExtra w ⟨.set1, m, false⟩ raw).getD
        (handleKey w ⟨.set1, m, false⟩ raw) else handleKey w ⟨.set1, m, false⟩ raw) =
      (⟨.set1, m', false⟩, effects)) :
    receive ((if extended then [0xe0, raw] else [raw]).map fun raw => (w, raw))
        ⟨.set1, m, false⟩ = some (⟨.set1, m', false⟩, effects) := by
  cases extended with
  | false =>
    have hkey : handleKey w ⟨.set1, m, false⟩ raw = (⟨.set1, m', false⟩, effects) := h
    show receive [(w, raw)] ⟨.set1, m, false⟩ = _
    rw [receive_cons_set1, handle_code w m hraw, hkey]
    show some (_, effects ++ []) = _
    rw [List.append_nil]
  | true =>
    have hkey : (handleExtra w ⟨.set1, m, false⟩ raw).getD (handleKey w ⟨.set1, m, false⟩ raw) =
        (⟨.set1, m', false⟩, effects) := h
    show receive [(w, 0xe0), (w, raw)] ⟨.set1, m, false⟩ = _
    rw [receive_cons_set1, handle_prefix, receive_cons_set1, handle_extraCode w m hraw, hkey]
    show some (_, [] ++ (effects ++ [])) = _
    rw [List.nil_append, List.append_nil]

theorem receive_bytes (w : Surroundings) (history : List KeyEvent) (e : KeyEvent) :
    receive (e.bytes.map fun raw => (w, raw)) (device history) =
      some (device (history ++ [e]), meaning w history e) := by
  cases e with
  | press k =>
    have hlt := k.code_lt
    unfold device
    rw [modifiersOf_key history fun _ => rfl]
    refine receive_key w _ _ k.extended (by omega) ?_
    rw [meaning]
    cases k.extended with
    | false => exact handleKey_press w _ hlt
    | true => exact handleExtra_press w _ hlt
  | release k =>
    have hlt := k.code_lt
    have hne := k.code_ne
    unfold device
    rw [modifiersOf_key history fun _ => rfl]
    refine receive_key w _ _ k.extended (by omega) ?_
    cases k.extended with
    | false => exact handleKey_release w _ hlt
    | true => exact handleExtra_release w _ hlt
  | pause =>
    unfold device
    rw [modifiersOf_pause]
    rfl

theorem receive_append (bytes rest : List (Surroundings × ℕ)) : ∀ s : Ps2KeyboardDevice,
    receive (bytes ++ rest) s = (receive bytes s).bind fun first =>
      (receive rest first.1).map fun last => (last.1, first.2 ++ last.2) := by
  induction bytes with
  | nil =>
    intro s
    cases h : receive rest s with
    | none => simp [receive, h]
    | some last => simp [receive, h]
  | cons byte bytes ih =>
    intro s
    obtain ⟨w, raw⟩ := byte
    rw [List.cons_append, receive, receive]
    cases onByteReceived w s raw with
    | none => rfl
    | some first =>
      rw [Option.bind_some, Option.bind_some, ih]
      cases receive bytes first.1 with
      | none => rfl
      | some second =>
        show ((receive rest second.1).map _).map _ = (receive rest second.1).map _
        rw [Option.map_map]
        simp only [Function.comp_def, List.append_assoc]

/-- Keys after the history. -/
theorem receive_keys_from (events : List (Surroundings × KeyEvent)) : ∀ history : List KeyEvent,
    receive (events.flatMap fun event => event.2.bytes.map fun raw => (event.1, raw))
        (device history) =
      some (device (history ++ events.map Prod.snd), meanings history events) := by
  induction events with
  | nil =>
    intro history
    rw [List.map_nil, List.append_nil]
    rfl
  | cons event events ih =>
    intro history
    rw [List.flatMap_cons, receive_append, receive_bytes, Option.bind_some, ih, Option.map_some,
      List.map_cons, List.append_assoc, List.singleton_append]
    rfl

/-- Whatever happens to the keys of a keyboard, the bytes that it sends have the meaning of the
keys, and the driver is left between two keys with the modifiers of the history. -/
theorem receive_keys (events : List (Surroundings × KeyEvent)) :
    receive (events.flatMap fun event => event.2.bytes.map fun raw => (event.1, raw))
        ⟨.set1, ⟨false, false, false, false⟩, false⟩ =
      some (⟨.set1, modifiersOf (events.map Prod.snd), false⟩, meanings [] events) :=
  receive_keys_from events []


end Ps2KeyboardDevice

end Cryptix.Drivers
