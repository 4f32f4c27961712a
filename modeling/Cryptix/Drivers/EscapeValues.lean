import Cryptix.Drivers.Terminal
import Cryptix.Library.String

/-!
# The parameters of control sequences

The part of a terminal that collects the parameters: the state, `m_EscapeValues` and
`m_EscapeValueCount`, as `OnEscapeChar` and `OnCsi` of `Kernel/Drivers/Terminal.cpp` change them.
`sequence_of_stream` connects it with the terminal. The bytes that a status report echoes back come
between the byte that asked for it and the end of its call, so a run is a list of bytes and of such
ends.

The count is increased behind a number without a look at its bound, and the introducer 0x9b, other
than `ESC [`, begins with the parameters of the sequence before. `parameters_lawful_iff` says that
these are the only slips. The second one needs a plain `char` that is unsigned: `PrintString` and
the tty hand their `char`s to `PutChar(u64)`, and a `char` with its sign extended is not 0x9b.
-/

namespace Cryptix.Drivers

open Lib KLibC

/-- The fields of a `Parser` that the parameters depend on. -/
structure Sequence where
  state : State
  escapeValues : List ℕ
  escapeValueCount : ℕ
  deriving DecidableEq, Repr

def Parser.sequence (p : Parser) : Sequence := ⟨p.state, p.escapeValues, p.escapeValueCount⟩

/-- What the parameters see of a run: a `char` handed to `PutChar`, or the end of a status
report. -/
inductive SequenceEvent
  | byte (c : UInt8)
  | reported

def SequenceEvent.byte? : SequenceEvent → Option UInt8
  | .byte c => some c
  | .reported => none

namespace Sequence

/-- Between an introducer and the function of the sequence. -/
def InSequence (s : Sequence) : Prop :=
  s.state = .controlSequenceEntry ∨ s.state = .controlSequenceParams

instance (s : Sequence) : Decidable s.InSequence := inferInstanceAs (Decidable (_ ∨ _))

/-- The parameters of `ESC [`. -/
def entry : Sequence := ⟨.controlSequenceEntry, List.replicate maxEscParameterCount 0, 0⟩

/-- `OnCsi`, up to its switch, and whether it gets there. A store past the end does not return. -/
def onCsi (s : Sequence) (c : UInt8) : Option (Sequence × Bool) :=
  if Terminal.isDigit c then
    if s.escapeValueCount = maxEscParameterCount then
      some ({ s with state := .controlSequenceParams }, false)
    else if s.escapeValueCount < maxEscParameterCount then
      some (⟨.controlSequenceParams,
        s.escapeValues.modify s.escapeValueCount fun v => (v * 10 + (c.toNat - 0x30)) % 2 ^ 32,
        s.escapeValueCount⟩, false)
    else none
  else if s.state = .controlSequenceParams then
    some (⟨.controlSequenceEntry, s.escapeValues, s.escapeValueCount + 1⟩, c.toNat ≠ 0x3b)
  else if c.toNat = 0x3b then
    if s.escapeValueCount = maxEscParameterCount then some (s, false)
    else if s.escapeValueCount < maxEscParameterCount then
      some (⟨s.state, s.escapeValues.modify s.escapeValueCount fun _ => 1,
        s.escapeValueCount + 1⟩, false)
    else none
  else some (s, true)

/-- A `char` as the `u64` that `PutChar` takes. -/
def toU64 (target : Target) (c : UInt8) : ℕ := (target.char c % wordCount).toNat

variable (target : Target)

/-- `PutChar` of a `char`, as far as the parameters go. The normal state looks at the `u64`, the
others at the `char`. `?` goes on with the sequence, and `n` ends it when the report has been
made. -/
def putChar (s : Sequence) (c : UInt8) : Option Sequence :=
  match s.state with
  | .normal =>
    some { s with
      state :=
        if toU64 target c = 0x1b then .escape
        else if toU64 target c = 0x9b then .controlSequenceEntry
        else .normal }
  | .escape =>
    if c.toNat = 0x5b then some entry
    else some ⟨.normal, s.escapeValues, if c.toNat = 0x63 then 0 else s.escapeValueCount⟩
  | _ =>
    match s.onCsi c with
    | none => none
    | some (s, executed) =>
      if executed = true ∧ c.toNat ≠ 0x3f ∧ c.toNat ≠ 0x6e then some { s with state := .normal }
      else some s

def take (s : Sequence) : SequenceEvent → Option Sequence
  | .byte c => s.putChar target c
  | .reported => some { s with state := .normal }

/-- The indices at which the switch of `OnCsi` reads a parameter: the first one always, the second
one for `CUP`, and four for a colour of `SGR`. -/
def functionAccesses (s : Sequence) (c : UInt8) : List ℕ :=
  if c.toNat = 0x48 then [0, 1, 0]
  else if c.toNat = 0x6d ∧ 4 ≤ s.escapeValueCount ∧
      (s.escapeValues.getD 0 0 = 38 ∨ s.escapeValues.getD 0 0 = 48) then [0, 1, 2, 3]
  else [0]

/-- The indices at which a byte accesses `m_EscapeValues`. -/
def accesses (s : Sequence) (c : UInt8) : List ℕ :=
  match s.state with
  | .normal => []
  | .escape => if c.toNat = 0x5b then List.range maxEscParameterCount else []
  | _ =>
    if Terminal.isDigit c then
      if s.escapeValueCount = maxEscParameterCount then [] else [s.escapeValueCount]
    else if s.state = .controlSequenceParams then
      if c.toNat = 0x3b then []
      else functionAccesses { s with escapeValueCount := s.escapeValueCount + 1 } c
    else if c.toNat = 0x3b then
      if s.escapeValueCount = maxEscParameterCount then [] else [s.escapeValueCount]
    else s.functionAccesses c

/-! ## What the bytes since the introducer make -/

/-- The parameters that bytes behind an introducer make of none. -/
def parametersOf (bytes : List UInt8) : Option Sequence :=
  bytes.foldlM (fun s c => (s.onCsi c).map Prod.fst) entry

/-- The parameters with the bytes since the last introducer. -/
structure Watched where
  sequence : Sequence
  since : List UInt8

/-- The bytes since the introducer after an event. -/
def nextSince (w : Watched) : SequenceEvent → List UInt8
  | .byte c => if w.sequence.InSequence then w.since ++ [c] else []
  | .reported => w.since

def step (w : Watched) (e : SequenceEvent) : Option Watched :=
  (w.sequence.take target e).map fun s => ⟨s, nextSince w e⟩

/-- A new terminal. -/
def start : Watched := ⟨⟨.normal, List.replicate maxEscParameterCount 0, 0⟩, []⟩

/-- An event accesses no parameter behind the last one and counts none, and the parameters, those of
a function that is called and those of a sequence that goes on, are what the bytes since the
introducer make. -/
structure Lawful (w : Watched) (e : SequenceEvent) : Prop where
  accesses : ∀ c, e = .byte c → ∀ i ∈ w.sequence.accesses c, i < maxEscParameterCount
  executed : ∀ c s, e = .byte c → w.sequence.InSequence → w.sequence.onCsi c = some (s, true) →
    parametersOf (w.since ++ [c]) = some s
  next : ∃ s, w.sequence.take target e = some s ∧ s.escapeValueCount ≤ maxEscParameterCount ∧
    (s.InSequence → parametersOf (nextSince w e) = some s)

/-- The introducer 0x9b finds no parameters, and a number is not ended when there are as many
parameters as there is room for. -/
def Meets (w : Watched) : SequenceEvent → Prop
  | .byte c =>
    (w.sequence.state = .normal → toU64 target c = 0x9b →
      w.sequence.escapeValues = List.replicate maxEscParameterCount 0 ∧
        w.sequence.escapeValueCount = 0) ∧
    (w.sequence.state = .controlSequenceParams → Terminal.isDigit c = false →
      w.sequence.escapeValueCount < maxEscParameterCount)
  | .reported => True

structure Inv (w : Watched) : Prop where
  count : w.sequence.escapeValueCount ≤ maxEscParameterCount
  parameters : w.sequence.InSequence → parametersOf w.since = some w.sequence

variable {target}

/-! ## When an event is lawful -/

/-- Nothing but `ESC` is extended to 0x1b. -/
theorem toU64_eq_escape {c : UInt8} : toU64 target c = 0x1b ↔ c.toNat = 0x1b := by
  have hc := c.toNat_lt
  rw [toU64, Target.char_eq, wordCount]
  split <;> omega

/-- Where `char` is signed, nothing is extended to the introducer. -/
theorem toU64_eq_csi {c : UInt8} :
    toU64 target c = 0x9b ↔ target ≠ .x86_64 ∧ c.toNat = 0x9b := by
  have hc := c.toNat_lt
  rw [toU64, Target.char_eq, wordCount]
  by_cases htarget : target = .x86_64
  · simp only [htarget, true_and, ne_eq, not_true_eq_false, false_and, iff_false]
    split <;> omega
  · simp only [htarget, false_and, if_false, ne_eq, not_false_eq_true, true_and]
    omega

theorem functionAccesses_lt (s : Sequence) (c : UInt8) :
    ∀ i ∈ s.functionAccesses c, i < maxEscParameterCount := by
  rw [functionAccesses]
  split
  · decide
  · split <;> decide

/-- As long as there is no more than the room for the parameters, no access is behind it. -/
theorem accesses_lt {s : Sequence} (h : s.escapeValueCount ≤ maxEscParameterCount) (c : UInt8) :
    ∀ i ∈ s.accesses c, i < maxEscParameterCount := by
  have hstore : ∀ i ∈ (if s.escapeValueCount = maxEscParameterCount then []
      else [s.escapeValueCount]), i < maxEscParameterCount := by
    intro i hi
    split at hi
    · cases hi
    · rw [List.mem_singleton.mp hi]
      omega
  rw [accesses]
  split
  · intro i hi
    cases hi
  · split
    · exact fun i => List.mem_range.mp
    · intro i hi
      cases hi
  · split
    · exact hstore
    · split
      · split
        · intro i hi
          cases hi
        · exact functionAccesses_lt _ c
      · split
        · exact hstore
        · exact functionAccesses_lt s c

/-- `OnCsi` gets to its switch or returns, and leaves too high a count only when it ends a number
behind the last parameter there is room for. -/
theorem onCsi_spec {s : Sequence} (h : s.escapeValueCount ≤ maxEscParameterCount) (c : UInt8) :
    ∃ s' executed, s.onCsi c = some (s', executed) ∧
      (s'.escapeValueCount ≤ maxEscParameterCount ↔
        (s.state = .controlSequenceParams → Terminal.isDigit c = false →
          s.escapeValueCount < maxEscParameterCount)) := by
  rw [onCsi]
  cases hdigit : Terminal.isDigit c with
  | true =>
    rw [if_pos rfl]
    rcases Nat.lt_or_eq_of_le h with hlt | heq
    · rw [if_neg hlt.ne, if_pos hlt]
      exact ⟨_, _, rfl, by simpa using h⟩
    · rw [if_pos heq]
      exact ⟨_, _, rfl, by simpa using h⟩
  | false =>
    rw [if_neg Bool.false_ne_true]
    by_cases hparams : s.state = .controlSequenceParams
    · rw [if_pos hparams]
      exact ⟨_, _, rfl, fun hle _ _ => hle, fun hlt => hlt hparams rfl⟩
    · rw [if_neg hparams]
      by_cases hsemicolon : c.toNat = 0x3b
      · rw [if_pos hsemicolon]
        rcases Nat.lt_or_eq_of_le h with hlt | heq
        · rw [if_neg hlt.ne, if_pos hlt]
          exact ⟨_, _, rfl, by simpa [hparams] using Nat.succ_le_of_lt hlt⟩
        · rw [if_pos heq]
          exact ⟨_, _, rfl, by simpa [hparams] using h⟩
      · rw [if_neg hsemicolon]
        exact ⟨_, _, rfl, by simpa [hparams] using h⟩

theorem parametersOf_append (bytes : List UInt8) (c : UInt8) :
    parametersOf (bytes ++ [c]) =
      (parametersOf bytes).bind fun s => (s.onCsi c).map Prod.fst := by
  simp [parametersOf, List.foldlM_append]

theorem putChar_csi (target : Target) {s s' : Sequence} {executed : Bool} {c : UInt8}
    (hin : s.InSequence) (hcsi : s.onCsi c = some (s', executed)) :
    s.putChar target c = some (if executed = true ∧ c.toNat ≠ 0x3f ∧ c.toNat ≠ 0x6e then
      { s' with state := .normal } else s') := by
  rw [putChar]
  rcases hin with hstate | hstate
  · rw [hstate]
    simp only [hcsi]
    split <;> rfl
  · rw [hstate]
    simp only [hcsi]
    split <;> rfl

/-- The parameters at a byte of a sequence, and after it, are those of the bytes so far. -/
theorem lawful_csi_iff {w : Watched} (h : Inv w) (hin : w.sequence.InSequence) (c : UInt8) :
    Lawful target w (.byte c) ↔ (w.sequence.state = .controlSequenceParams →
      Terminal.isDigit c = false → w.sequence.escapeValueCount < maxEscParameterCount) := by
  obtain ⟨s, executed, hcsi, hcount⟩ := onCsi_spec h.count c
  have hparameters : parametersOf (w.since ++ [c]) = some s := by
    rw [parametersOf_append, h.parameters hin, Option.bind_some, hcsi]
    rfl
  have hput := putChar_csi target hin hcsi
  rw [← hcount]
  constructor
  · intro hlawful
    obtain ⟨s', hs', hle, -⟩ := hlawful.next
    obtain rfl := Option.some.inj (hput.symm.trans hs')
    split at hle <;> exact hle
  · intro hle
    refine ⟨fun c' hc' => ?_, fun c' s' hc' _ hs' => ?_, _, hput, ?_, fun hnext => ?_⟩
    · obtain rfl := SequenceEvent.byte.inj hc'
      exact accesses_lt h.count c
    · obtain rfl := SequenceEvent.byte.inj hc'
      obtain ⟨rfl, -⟩ := Prod.mk.inj (Option.some.inj (hcsi.symm.trans hs'))
      exact hparameters
    · split <;> exact hle
    · rw [nextSince, if_pos hin, hparameters]
      split at hnext
      · rcases hnext with hnormal | hnormal <;> cases hnormal
      · rw [if_neg ‹_›]

/-- Outside of a sequence only an introducer matters. -/
theorem lawful_outside_iff {w : Watched} (h : Inv w) (hout : ¬w.sequence.InSequence) {c : UInt8}
    {s : Sequence} (hput : w.sequence.putChar target c = some s)
    (hcount : s.escapeValueCount ≤ maxEscParameterCount) :
    Lawful target w (.byte c) ↔ (s.InSequence → s = entry) := by
  have hsince : nextSince w (.byte c) = [] := if_neg hout
  have hnone : parametersOf [] = some entry := rfl
  constructor
  · intro hlawful hin
    obtain ⟨s', hs', -, hnext⟩ := hlawful.next
    obtain rfl := Option.some.inj (hput.symm.trans hs')
    have hentry := hnext hin
    rw [hsince, hnone] at hentry
    exact (Option.some.inj hentry).symm
  · intro hentry
    refine ⟨fun c' hc' => ?_, fun c' s' hc' hin => absurd hin hout, s, hput, hcount,
      fun hin => ?_⟩
    · obtain rfl := SequenceEvent.byte.inj hc'
      exact accesses_lt h.count c
    · rw [hsince, hnone, hentry hin]

theorem lawful_iff {w : Watched} (h : Inv w) (e : SequenceEvent) :
    Lawful target w e ↔ Meets target w e := by
  cases e with
  | reported =>
    refine iff_of_true ⟨fun c hc => ?_, fun c s hc => ?_, _, rfl, h.count, fun hin => ?_⟩ trivial
    · cases hc
    · cases hc
    · rcases hin with hnormal | hnormal <;> cases hnormal
  | byte c =>
    rw [Meets]
    cases hstate : w.sequence.state with
    | normal =>
      have hout : ¬w.sequence.InSequence := by
        rw [InSequence, hstate]
        simp
      have hput : w.sequence.putChar target c = some { w.sequence with
          state :=
            if toU64 target c = 0x1b then .escape
            else if toU64 target c = 0x9b then .controlSequenceEntry
            else .normal } := by
        rw [putChar, hstate]
      rw [lawful_outside_iff h hout hput h.count]
      by_cases hcsi : toU64 target c = 0x9b
      · simp [hcsi, InSequence, entry]
      · by_cases hescape : toU64 target c = 0x1b <;> simp [hcsi, hescape, InSequence]
    | escape =>
      have hout : ¬w.sequence.InSequence := by
        rw [InSequence, hstate]
        simp
      by_cases hcsi : c.toNat = 0x5b
      · have hput : w.sequence.putChar target c = some entry := by
          rw [putChar, hstate]
          exact if_pos hcsi
        rw [lawful_outside_iff h hout hput (Nat.zero_le _)]
        simp
      · have hput : w.sequence.putChar target c = some ⟨.normal, w.sequence.escapeValues,
            if c.toNat = 0x63 then 0 else w.sequence.escapeValueCount⟩ := by
          rw [putChar, hstate]
          exact if_neg hcsi
        have hcount := h.count
        rw [lawful_outside_iff h hout hput (by simp only; split <;> omega)]
        simp [InSequence]
    | controlSequenceEntry =>
      rw [lawful_csi_iff h (.inl hstate), hstate]
      simp
    | controlSequenceParams =>
      rw [lawful_csi_iff h (.inr hstate), hstate]
      simp

/-- A lawful event keeps the invariant. -/
theorem Inv.step {w w' : Watched} {e : SequenceEvent} (h : Lawful target w e)
    (hstep : step target w e = some w') : Inv w' := by
  obtain ⟨s, hs, hcount, hparameters⟩ := h.next
  rw [Sequence.step, hs, Option.map_some] at hstep
  obtain rfl := Option.some.inj hstep
  exact ⟨hcount, hparameters⟩

theorem inv_start : Inv start where
  count := Nat.zero_le _
  parameters hin := by
    rcases hin with hnormal | hnormal <;> cases hnormal

/-- In every run of a new terminal, all accesses are in bounds and the parameters are those of the
bytes since the introducer exactly when every event meets its condition. -/
theorem parameters_lawful_iff (target : Target) (events : List SequenceEvent) :
    Along (step target) (Lawful target) start events ↔
      Along (step target) (Meets target) start events := by
  apply Along.congr inv_start Along.anyCall
  · exact fun w e h _ => lawful_iff h e
  · exact fun w e w' h _ hmeets hstep => Inv.step ((lawful_iff h e).mpr hmeets) hstep

/-- In a lawful run there are never more parameters than there is room for. -/
theorem count_of_along {events : List SequenceEvent} : ∀ {w : Watched}, Inv w →
    Along (step target) (Lawful target) w events →
      ∀ s, events.foldlM (take target) w.sequence = some s →
      s.escapeValueCount ≤ maxEscParameterCount := by
  induction events with
  | nil =>
    intro w h _ s hs
    obtain rfl := Option.some.inj hs
    exact h.count
  | cons e events ih =>
    rintro w h ⟨hlawful, hrest⟩ s hs
    rw [List.foldlM_cons, Option.bind_eq_bind, Option.bind_eq_some_iff] at hs
    obtain ⟨s₁, hs₁, hs⟩ := hs
    have hstep : step target w e = some ⟨s₁, nextSince w e⟩ := by
      rw [Sequence.step, hs₁]
      rfl
    exact ih (Inv.step hlawful hstep) (hrest _ hstep) s hs

/-- `ESC [`, a semicolon for each of the sixteen parameters, and one more number that is ended by a
semicolon. -/
def seventeen : List SequenceEvent :=
  [.byte 0x1b, .byte 0x5b] ++ List.replicate 16 (.byte 0x3b) ++ [.byte 0x30, .byte 0x3b]

/-- The count is seventeen then, and the next digit is added to a parameter behind the array. -/
theorem not_lawful_along_seventeen :
    ¬Along (step .x86_64) (Lawful .x86_64) start seventeen ∧
      (seventeen.foldlM (take .x86_64) start.sequence).map (fun s => s.accesses 0x30) =
        some [17] := by
  refine ⟨fun h => ?_, by decide⟩
  have hcount := count_of_along inv_start h
  revert hcount
  decide

end Sequence

/-! ## The terminal

`Terminal.putChar` takes the byte that `PutChar` is handed, and so acts like `Sequence.putChar`
where `char` is unsigned. -/

namespace Terminal

variable {size : Winsize} {host : Host} {target : Target} {t t' : Terminal}

theorem putNormal_sequence (hstate : t.parser.state = .normal) {c : UInt8}
    (h : t.putNormal size c = some t') :
    t.parser.sequence.putChar .aarch64 c = some t'.parser.sequence ∧
      t'.initialized = t.initialized := by
  have hsame (hescape : c.toNat ≠ 0x1b) (hcsi : c.toNat ≠ 0x9b) {t'' : Terminal}
      (ht : some t'' = some t') (hparser : t''.parser = t.parser)
      (hinit : t''.initialized = t.initialized) :
      t.parser.sequence.putChar .aarch64 c = some t'.parser.sequence ∧
        t'.initialized = t.initialized := by
    obtain rfl := Option.some.inj ht
    exact ⟨by simp [Sequence.putChar, Sequence.toU64_eq_escape, Sequence.toU64_eq_csi,
      Parser.sequence, hstate, hescape, hcsi, hparser], hinit⟩
  rw [putNormal] at h
  dsimp only at h
  split at h
  iterate 5 exact hsame (by omega) (by omega) h rfl rfl
  · split at h
    · exact hsame (by omega) (by omega) h rfl rfl
    · exact hsame (by omega) (by omega) h rfl rfl
  · split at h
    · cases h
    · split at h
      · exact hsame (by omega) (by omega) h rfl rfl
      · exact hsame (by omega) (by omega) h rfl rfl
  iterate 3
    · split at h
      · exact hsame (by omega) (by omega) h rfl rfl
      · exact hsame (by omega) (by omega) h rfl rfl
  · exact hsame (by omega) (by omega) h rfl rfl
  · obtain rfl := Option.some.inj h
    exact ⟨by simp [Sequence.putChar, Sequence.toU64_eq_escape, Sequence.toU64_eq_csi,
      Parser.sequence, *], rfl⟩
  · obtain rfl := Option.some.inj h
    exact ⟨by simp [Sequence.putChar, Sequence.toU64_eq_escape, Parser.sequence, *], rfl⟩
  · obtain rfl := Option.some.inj h
    exact ⟨by simp [Sequence.putChar, Sequence.toU64_eq_escape, Sequence.toU64_eq_csi,
      Parser.sequence, *], rfl⟩
  · split at h
    · exact hsame (by assumption) (by assumption) h rfl rfl
    · exact hsame (by assumption) (by assumption) h rfl rfl

theorem onEscapeChar_sequence (hstate : t.parser.state = .escape) (c : UInt8) :
    t.parser.sequence.putChar .aarch64 c = some (t.onEscapeChar size c).parser.sequence ∧
      (t.onEscapeChar size c).initialized = t.initialized := by
  -- all but `[` and `c` only draw and go back to the normal state
  have hsame (hcsi : c.toNat ≠ 0x5b) (hreset : c.toNat ≠ 0x63) {u : Terminal}
      (hparser : u.parser = t.parser) :
      t.parser.sequence.putChar .aarch64 c =
        some { u.parser with state := State.normal }.sequence := by
    simp [Sequence.putChar, Parser.sequence, hstate, hcsi, hreset, hparser]
  have hfeed (x y : ℕ) : (t.lineFeed size x y).parser = t.parser ∧
      (t.lineFeed size x y).initialized = t.initialized := by
    rw [lineFeed]
    split <;> exact ⟨rfl, rfl⟩
  have hreverse (y : ℕ) : (t.reverseLineFeed size y).parser = t.parser ∧
      (t.reverseLineFeed size y).initialized = t.initialized := by
    rw [reverseLineFeed]
    split <;> exact ⟨rfl, rfl⟩
  rw [onEscapeChar]
  dsimp only
  split
  · exact ⟨by simp [Sequence.putChar, Parser.sequence, Sequence.entry, *], rfl⟩
  · exact ⟨by simp [Sequence.putChar, Parser.sequence, reset, draw, *], rfl⟩
  · exact ⟨hsame (by omega) (by omega) (hfeed _ _).1, (hfeed _ _).2⟩
  · exact ⟨hsame (by omega) (by omega) (hfeed _ _).1, (hfeed _ _).2⟩
  · exact ⟨hsame (by omega) (by omega) (hreverse _).1, (hreverse _).2⟩
  · exact ⟨hsame (by omega) (by omega) (u := t.draw t.video.saveState) rfl, rfl⟩
  · exact ⟨hsame (by omega) (by omega) (u := t.draw t.video.restoreState) rfl, rfl⟩
  · exact ⟨hsame (by assumption) (by assumption) rfl, rfl⟩

/-- The terminal acts on the byte as on the `char`. -/
def Alike (target : Target) (byte c : UInt8) : Prop :=
  ∀ s : Sequence, s.putChar .aarch64 byte = s.putChar target c

theorem alike_self {c : UInt8} (hc : target = .x86_64 → c.toNat ≠ 0x9b) : Alike target c c := by
  have hcsi : c.toNat = 0x9b → ¬target = .x86_64 := fun h htarget => hc htarget h
  intro s
  rw [Sequence.putChar, Sequence.putChar]
  simp only [Sequence.toU64_eq_escape, Sequence.toU64_eq_csi]
  by_cases h : c.toNat = 0x9b <;> simp [h, hcsi]

/-- The byte that a `char` is for the terminal. Where it is extended with its sign, no case of the
normal state is about it, and in a sequence it is a byte again that no case is about; 0x80 is such a
byte in every state. -/
def ofChar (target : Target) (c : UInt8) : UInt8 :=
  if target = .x86_64 ∧ 0x80 ≤ c.toNat then 0x80 else c

theorem alike_ofChar (target : Target) (c : UInt8) : Alike target (ofChar target c) c := by
  rw [ofChar]
  split
  · rename_i h
    obtain ⟨rfl, hc⟩ := h
    have hne {n : ℕ} (hn : n < 0x80) : c.toNat ≠ n := by omega
    intro s
    simp [Sequence.putChar, Sequence.onCsi, Sequence.toU64_eq_escape, Sequence.toU64_eq_csi,
      isDigit, hne, Nat.not_le.mpr (lt_of_lt_of_le (by decide : 0x39 < 0x80) hc)]
  · rename_i h
    exact alike_self fun htarget hc => h ⟨htarget, by omega⟩

/-- The parameters of `t'` are left by a run from `s` that takes the bytes, and maybe others that
are fed back. -/
def RunsTo (target : Target) (s : Sequence) (bytes : List UInt8) (t' : Terminal) : Prop :=
  t'.initialized = true ∧
    ∃ events : List SequenceEvent,
      events.foldlM (Sequence.take target) s = some t'.parser.sequence ∧
        bytes.Sublist (events.filterMap SequenceEvent.byte?)

theorem RunsTo.refl {s : Sequence} (hinit : t'.initialized = true)
    (hs : t'.parser.sequence = s) : RunsTo target s [] t' := by
  refine ⟨hinit, [], ?_, List.Sublist.slnil⟩
  rw [hs]
  rfl

theorem RunsTo.cons {s s' : Sequence} {c : UInt8} {bytes : List UInt8}
    (hs : s.putChar target c = some s') (h : RunsTo target s' bytes t') :
    RunsTo target s (c :: bytes) t' := by
  obtain ⟨hinit, events, hevents, hbytes⟩ := h
  refine ⟨hinit, .byte c :: events, ?_, hbytes.cons_cons c⟩
  rw [List.foldlM_cons, Sequence.take, hs]
  exact hevents

theorem RunsTo.trans {s : Sequence} {before bytes : List UInt8} (ht : RunsTo target s before t)
    (h : RunsTo target t.parser.sequence bytes t') : RunsTo target s (before ++ bytes) t' := by
  obtain ⟨-, first, hfirst, hbefore⟩ := ht
  obtain ⟨hinit, events, hevents, hbytes⟩ := h
  refine ⟨hinit, first ++ events, ?_, ?_⟩
  · rw [List.foldlM_append, hfirst]
    exact hevents
  · rw [List.filterMap_append]
    exact hbefore.append hbytes

/-- What a status report feeds back is a run of its own. -/
def EchoRuns (target : Target) (host : Host)
    (echo : Terminal → List UInt8 → Option Terminal) : Prop :=
  ∀ t parameter x y t', t.initialized = true → echo t (host.echo parameter x y) = some t' →
    RunsTo target t.parser.sequence (host.echo parameter x y) t'

/-- The switch of `OnCsi` ends the sequence, except for `?`; for `n` after the report. -/
theorem csiFunction_sequence {echo : Terminal → List UInt8 → Option Terminal}
    (hecho : EchoRuns target host echo) (hinit : t.initialized = true) {c : UInt8}
    (h : t.csiFunction size host echo c = some t') :
    RunsTo target (if c.toNat ≠ 0x3f ∧ c.toNat ≠ 0x6e then
      { t.parser.sequence with state := .normal } else t.parser.sequence) [] t' := by
  have hend (hgo : c.toNat ≠ 0x3f) (hreport : c.toNat ≠ 0x6e) {u : Terminal}
      (ht : some u.endCsi = some t') (hparser : u.parser.sequence = t.parser.sequence)
      (hu : u.initialized = t.initialized) :
      RunsTo target (if c.toNat ≠ 0x3f ∧ c.toNat ≠ 0x6e then
        { t.parser.sequence with state := .normal } else t.parser.sequence) [] t' := by
    obtain rfl := Option.some.inj ht
    have hinit' : u.endCsi.initialized = true := hu.trans hinit
    apply RunsTo.refl hinit'
    rw [if_pos ⟨hgo, hreport⟩, ← hparser]
    rfl
  rw [csiFunction] at h
  dsimp only at h
  split at h
  · exact hend (by omega) (by omega) h rfl rfl
  · obtain rfl := Option.some.inj h
    apply RunsTo.refl hinit
    rw [if_neg (by omega)]
  iterate 11 exact hend (by omega) (by omega) h rfl rfl
  · obtain ⟨u, hu, rfl⟩ := Option.map_eq_some_iff.mp h
    obtain ⟨hinit', events, hevents, -⟩ := hecho t _ _ _ u hinit hu
    refine ⟨hinit', events ++ [.reported], ?_, List.nil_sublist _⟩
    rw [if_neg (by omega), List.foldlM_append, hevents]
    rfl
  · exact hend (by assumption) (by assumption) h rfl rfl

theorem onCsi_sequence (hhost : ∀ p, host.overrun p = none)
    {echo : Terminal → List UInt8 → Option Terminal} (hecho : EchoRuns target host echo)
    (hinit : t.initialized = true) (hin : t.parser.sequence.InSequence) {c c' : UInt8}
    (halike : Alike target c c') (h : t.onCsi size host echo c = some t') :
    RunsTo target t.parser.sequence [c'] t' := by
  have hgoes {u : Terminal} (ht : some u = some t') (hu : u.initialized = true)
      (hcsi : t.parser.sequence.onCsi c = some (u.parser.sequence, false)) :
      RunsTo target t.parser.sequence [c'] t' := by
    obtain rfl := Option.some.inj ht
    have hput := (halike _).symm.trans (Sequence.putChar_csi _ hin hcsi)
    exact RunsTo.cons hput (RunsTo.refl hu rfl)
  have hcalls {u : Terminal} (ht : u.csiFunction size host echo c = some t')
      (hu : u.initialized = true)
      (hcsi : t.parser.sequence.onCsi c = some (u.parser.sequence, true)) :
      RunsTo target t.parser.sequence [c'] t' := by
    have hput := (halike _).symm.trans (Sequence.putChar_csi _ hin hcsi)
    simp only [true_and] at hput
    exact RunsTo.cons hput (csiFunction_sequence hecho hu ht)
  have hstore {p : Parser} {value : ℕ → ℕ} {after : Parser → Parser}
      (ht : ((store host p value).map fun p => { t with parser := after p }) = some t') :
      p.escapeValueCount < maxEscParameterCount ∧
        some { t with parser := after ⟨p.state, p.escapeValues.modify p.escapeValueCount value,
          p.escapeValueCount, p.tabSize, p.decPrivate, p.cursorKeyMode⟩ } = some t' := by
    rw [store] at ht
    split at ht
    · exact ⟨by assumption, ht⟩
    · rw [hhost] at ht
      cases ht
  rw [onCsi] at h
  dsimp only at h
  split at h
  · split at h
    · exact hgoes h hinit (by simp [Sequence.onCsi, Parser.sequence, *])
    · obtain ⟨hlt, h⟩ := hstore h
      exact hgoes h hinit (by simp [Sequence.onCsi, Parser.sequence, *])
  · split at h
    · split at h
      · exact hgoes h hinit (by simp [Sequence.onCsi, Parser.sequence, *])
      · refine hcalls h hinit ?_
        simp [Sequence.onCsi, Parser.sequence, *]
    · split at h
      · split at h
        · exact hgoes h hinit (by simp [Sequence.onCsi, Parser.sequence, *])
        · obtain ⟨hlt, h⟩ := hstore h
          exact hgoes h hinit (by simp [Sequence.onCsi, Parser.sequence, *])
      · refine hcalls h hinit ?_
        simp [Sequence.onCsi, Parser.sequence, *]

theorem putCharWith_sequence (hhost : ∀ p, host.overrun p = none)
    {echo : Terminal → List UInt8 → Option Terminal} (hecho : EchoRuns target host echo)
    (hinit : t.initialized = true) {c c' : UInt8} (halike : Alike target c c')
    (h : t.putCharWith size host echo c = some t') :
    RunsTo target t.parser.sequence [c'] t' := by
  rw [putCharWith, hinit, Bool.not_true, if_neg Bool.false_ne_true] at h
  split at h
  · rename_i hstate
    obtain rfl := Option.some.inj h
    obtain ⟨hput, hinit'⟩ := @onEscapeChar_sequence size t hstate c
    exact RunsTo.cons ((halike _).symm.trans hput) (RunsTo.refl (hinit'.trans hinit) rfl)
  · exact onCsi_sequence hhost hecho hinit (.inl (by assumption)) halike h
  · exact onCsi_sequence hhost hecho hinit (.inr (by assumption)) halike h
  · rename_i hstate
    obtain ⟨hput, hinit'⟩ := putNormal_sequence hstate h
    exact RunsTo.cons ((halike _).symm.trans hput) (RunsTo.refl (hinit'.trans hinit) rfl)

theorem foldlM_sequence {put : Terminal → UInt8 → Option Terminal} {bytes : List UInt8}
    (hput : ∀ c ∈ bytes, ∀ t t', t.initialized = true → put t c = some t' →
      RunsTo target t.parser.sequence [c] t') :
    ∀ {t t' : Terminal}, t.initialized = true →
      bytes.foldlM put t = some t' → RunsTo target t.parser.sequence bytes t' := by
  induction bytes with
  | nil =>
    intro t t' hinit h
    obtain rfl := Option.some.inj h
    exact RunsTo.refl hinit rfl
  | cons c bytes ih =>
    intro t t' hinit h
    rw [List.foldlM_cons, Option.bind_eq_bind, Option.bind_eq_some_iff] at h
    obtain ⟨u, hu, h⟩ := h
    have hrun := hput c List.mem_cons_self t u hinit hu
    exact hrun.trans (ih (fun c hc => hput c (List.mem_cons_of_mem _ hc)) hrun.1 h)

/-- By induction on the depth: what a report feeds back went through calls below it. -/
theorem putChar_sequence (hhost : ∀ p, host.overrun p = none)
    (hechoed : ∀ parameter x y, ∀ c ∈ host.echo parameter x y, target = .x86_64 → c.toNat ≠ 0x9b)
    (depth : ℕ) {c c' : UInt8} (halike : Alike target c c') :
    ∀ t t', t.initialized = true → putChar size host depth t c = some t' →
      RunsTo target t.parser.sequence [c'] t' := by
  induction depth generalizing c c' with
  | zero =>
    intro t t' hinit h
    obtain ⟨u, hu, rfl⟩ := Option.map_eq_some_iff.mp h
    have hnone : EchoRuns target host fun t bytes => if bytes.isEmpty then some t else none := by
      intro v parameter x y v' hv hecho
      dsimp only at hecho
      split at hecho
      · rename_i hempty
        obtain rfl := Option.some.inj hecho
        rw [List.isEmpty_iff.mp hempty]
        exact RunsTo.refl hv rfl
      · cases hecho
    have hrun : RunsTo target t.parser.sequence [c'] u :=
      putCharWith_sequence hhost hnone hinit halike hu
    exact hrun
  | succ depth ih =>
    intro t t' hinit h
    obtain ⟨u, hu, rfl⟩ := Option.map_eq_some_iff.mp h
    have hecho : EchoRuns target host fun t bytes => bytes.foldlM (putChar size host depth) t :=
      fun v parameter x y v' hv => foldlM_sequence
        (fun c hc => ih (alike_self (hechoed parameter x y c hc))) hv
    have hrun : RunsTo target t.parser.sequence [c'] u :=
      putCharWith_sequence hhost hecho hinit halike hu
    exact hrun

/-- The parameters of a terminal that has taken a stream of `char`s are those of a run of `Sequence`
that takes the stream, with what is fed back in between. A store behind the array stops here, as it
does there. -/
theorem sequence_of_stream (hhost : ∀ p, host.overrun p = none)
    (hechoed : ∀ parameter x y, ∀ c ∈ host.echo parameter x y, target = .x86_64 → c.toNat ≠ 0x9b)
    {depth : ℕ} {stream : List UInt8} (hinit : t.initialized = true)
    (h : stream.foldlM (fun t c => putChar size host depth t (ofChar target c)) t = some t') :
    ∃ events : List SequenceEvent,
      events.foldlM (Sequence.take target) t.parser.sequence = some t'.parser.sequence ∧
        stream.Sublist (events.filterMap SequenceEvent.byte?) :=
  (foldlM_sequence (fun c _ => putChar_sequence hhost hechoed depth (alike_ofChar target c))
    hinit h).2

end Terminal

end Cryptix.Drivers
