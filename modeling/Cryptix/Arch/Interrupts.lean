import Mathlib.Data.List.FinRange
import Mathlib.Logic.Function.Basic
import Cryptix.Lib.Transition

/-!
# Interrupts on x86_64

`Kernel/Arch/x86_64/IDT.cpp`, `Kernel/Arch/InterruptHandler.hpp`,
`Kernel/Arch/x86_64/InterruptManager.cpp` and `PIC.cpp` and `IoApic.cpp` in
`Kernel/Arch/x86_64/Drivers`. A driver asks for a handler with a hint, or for the one of a fixed
vector, reserves it and sets its routine, in whatever order. `raiseInterrupt` finds the routine by
the vector.

`AllocateHandler` returns a line of the PIC without reserving it, and looks only at its routine, so
two drivers get the same one when the second asks before the first has set its routine.

`SendEOI` is called with the vector where the PIC expects the line. A vector is never below `0x20`,
so that both chips get the command and the check for spurious interrupts is passed over. Of an I/O
APIC its redirection entries are kept, without their layout.
-/

namespace Cryptix.Arch

open Lib

/-- `InterruptHandler`. -/
structure InterruptHandler (R : Type*) where
  interruptVector : Fin 256
  routine : Option R
  reserved : Bool
  eoiFirst : Bool

namespace InterruptHandler

variable {R : Type*}

/-- `IsUsed`. -/
def isUsed (h : InterruptHandler R) : Bool := h.routine.isSome

/-- `Reserve`. -/
def reserve (h : InterruptHandler R) : InterruptHandler R := { h with reserved := true }

/-- `SetHandler`. -/
def setHandler (h : InterruptHandler R) (routine : R) : InterruptHandler R :=
  { h with routine := some routine }

/-- `SetInterruptVector`. -/
def setInterruptVector (h : InterruptHandler R) (v : Fin 256) : InterruptHandler R :=
  { h with interruptVector := v }

end InterruptHandler

/-- `IoApic`, without its registers. -/
structure IoApic where
  enabled : Bool
  gsiBase : ℕ
  redirectionEntryCount : ℕ

/-- `MADT::IsoEntry`: a line whose interrupt has another number. -/
structure IsoEntry where
  irqSource : ℕ
  gsi : ℕ
  flags : BitVec 16

/-- `IoApicRedirectionEntry`. -/
structure RedirectionEntry where
  vector : Fin 256
  activeLow : Bool
  level : Bool
  masked : Bool
  destination : ℕ

/-- What the firmware says, and `s_IoApics`. -/
structure Machine where
  legacyPIC : Bool
  isoEntries : List IsoEntry
  ioApics : List IoApic

namespace Machine

/-- `IoApic::IsAnyEnabled`. -/
def isAnyEnabled (M : Machine) : Bool := M.ioApics.any (·.enabled)

/-- `GetIoApicForGsi` finds one. -/
def hasGsi (M : Machine) (gsi : ℕ) : Bool :=
  M.ioApics.any fun a => a.gsiBase ≤ gsi ∧ gsi < a.gsiBase + a.redirectionEntryCount

/-- The number of the interrupt and the flags with which `SetIrqRedirect` calls `SetGsiRedirect`. -/
def gsi (M : Machine) (irq : ℕ) : ℕ × BitVec 16 :=
  match M.isoEntries.find? (·.irqSource = irq) with
  | some iso => (iso.gsi % 256, iso.flags)
  | none => (irq, 0)

end Machine

/-- `s_InterruptHandlers`, the mask registers of the two chips and the entries of the I/O APICs. -/
structure Interrupts (R : Type*) where
  handlers : Fin 256 → InterruptHandler R
  pic1Data : BitVec 8
  pic2Data : BitVec 8
  redirections : ℕ → RedirectionEntry

/-- What the processor does for an interrupt. -/
inductive Action (R : Type*)
  | exception (v : Fin 256)
  | routine (r : R)
  | out (port value : ℕ)
  | lapicEOI
  | unhandled
  deriving DecidableEq

namespace Interrupts

variable {R : Type*}

/-- After `IDT::Initialize`, with the masks and the entries that were found. -/
def initialized (pic1Data pic2Data : BitVec 8) (redirections : ℕ → RedirectionEntry) :
    Interrupts R :=
  ⟨fun i => ⟨i, none, false, false⟩, pic1Data, pic2Data, redirections⟩

/-- A change of one handler. -/
def update (s : Interrupts R) (v : Fin 256) (h : InterruptHandler R) : Interrupts R :=
  { s with handlers := Function.update s.handlers v h }

/-- The hint that the search begins with: `if (hint < 0x20) hint += 0x20`. -/
def firstHint (hint : Fin 256) : Fin 256 := if hint < 0x20 then hint + 0x20 else hint

/-- `IDT::AllocateHandler`; `none` is the panic. -/
def allocateHandler (M : Machine) (s : Interrupts R) (hint : Fin 256) :
    Option (Fin 256 × Interrupts R) :=
  let hint := firstHint hint
  if M.legacyPIC ∧ hint ≤ 0x20 + 15 ∧ !(s.handlers hint).isUsed then some (hint, s)
  else
    ((List.finRange 256).find? fun i =>
        hint ≤ i ∧ !(s.handlers i).isUsed ∧ !(s.handlers i).reserved).map fun i =>
      (i, s.update i (((s.handlers i).reserve).setInterruptVector i))

/-- `I8259A::HandleSpuriousInterrupt`: whether it was one, and what is written. -/
def handleSpuriousInterrupt (isr : BitVec 16) (irq : ℕ) : Bool × List (Action R) :=
  if irq ≠ 8 ∧ irq ≠ 15 then (false, [])
  else if isr.getLsbD irq then (false, [])
  else (true, if irq = 15 then [.out 0x20 0x20] else [])

/-- `I8259A::SendEOI`. -/
def sendEOI (isr : BitVec 16) (irq : ℕ) : List (Action R) :=
  let spurious := handleSpuriousInterrupt isr irq
  if spurious.1 then spurious.2
  else spurious.2 ++ (if 8 ≤ irq then [.out 0xa0 0x20] else []) ++ [.out 0x20 0x20]

/-- `InterruptManager::SendEOI`. -/
def managerSendEOI (M : Machine) (isr : BitVec 16) (v : Fin 256) : List (Action R) :=
  if M.isAnyEnabled then [.lapicEOI] else sendEOI isr v

/-- `raiseInterrupt`. -/
def raiseInterrupt (M : Machine) (s : Interrupts R) (isr : BitVec 16) (v : Fin 256) :
    List (Action R) :=
  let handler := s.handlers v
  if v < 0x20 then [.exception v]
  else
    match handler.routine with
    | some r =>
      (if handler.eoiFirst then managerSendEOI M isr v else []) ++ [.routine r] ++
        if !handler.eoiFirst then managerSendEOI M isr v else []
    | none => [.unhandled]

/-- `I8259A::Mask` or `I8259A::Unmask`, by what is done to the mask register with the bit. -/
def onMask (f : BitVec 8 → BitVec 8 → BitVec 8) (s : Interrupts R) (irq : ℕ) : Interrupts R :=
  if 8 ≤ irq then { s with pic2Data := f s.pic2Data (1#8 <<< (irq - 8)) }
  else { s with pic1Data := f s.pic1Data (1#8 <<< irq) }

/-- `IoApic::SetIrqRedirect` with `SetGsiRedirect`; `none` is the panic of `GetIoApicForGsi`. -/
def setIrqRedirect (M : Machine) (s : Interrupts R) (lapicID : ℕ) (v : Fin 256) (irq : ℕ)
    (status : Bool) : Option (Interrupts R) :=
  let gsi := (M.gsi irq).1
  let flags := (M.gsi irq).2
  if M.hasGsi gsi then
    some { s with
      redirections := Function.update s.redirections gsi
        ⟨v, flags.getLsbD 1, flags.getLsbD 3, !status, lapicID⟩ }
  else none

/-- `InterruptManager::Mask`. -/
def mask (M : Machine) (s : Interrupts R) (lapicID : ℕ) (v : Fin 256) : Option (Interrupts R) :=
  if M.isAnyEnabled then s.setIrqRedirect M lapicID v (v - 0x20).val false
  else some (s.onMask (fun data bit => data ||| bit) (v - 0x20).val)

/-- `InterruptManager::Unmask`. -/
def unmask (M : Machine) (s : Interrupts R) (lapicID : ℕ) (v : Fin 256) : Option (Interrupts R) :=
  if M.isAnyEnabled then s.setIrqRedirect M lapicID v (v - 0x20).val true
  else some (s.onMask (fun data bit => data &&& ~~~bit) (v - 0x20).val)

/-- What drivers `D` ask for. The timer sets `eoiFirst` itself. -/
inductive Call (D R : Type*)
  | allocateHandler (d : D) (hint : Fin 256)
  | getHandler (d : D) (v : Fin 256)
  | reserve (d : D) (v : Fin 256)
  | setHandler (d : D) (v : Fin 256) (r : R)
  | setEoiFirst (d : D) (v : Fin 256) (eoiFirst : Bool)
  | mask (lapicID : ℕ) (v : Fin 256)
  | unmask (lapicID : ℕ) (v : Fin 256)

/-- Who was given a vector, the routine and the order that were set last, which lines are masked,
and the last request for an interrupt of an I/O APIC. -/
structure Expected (D R : Type*) where
  given : List (Fin 256 × D)
  routine : Fin 256 → Option R
  eoiFirst : Fin 256 → Bool
  masked : ℕ → Bool
  requested : ℕ → Option (Fin 256 × Bool)

namespace Expected

variable {D : Type*}

/-- What is expected at first, with the masks that were found. -/
def initialized (pic1Data pic2Data : BitVec 8) : Expected D R where
  given := []
  routine _ := none
  eoiFirst _ := false
  masked k := if k < 8 then pic1Data.getLsbD k else pic2Data.getLsbD (k - 8)
  requested _ := none

/-- A line is masked or not. -/
def request (M : Machine) (e : Expected D R) (v : Fin 256) (masked : Bool) : Expected D R :=
  if M.isAnyEnabled then
    { e with requested := Function.update e.requested (M.gsi (v - 0x20).val).1 (some (v, masked)) }
  else { e with masked := Function.update e.masked (v - 0x20).val masked }

end Expected

variable {D : Type*}

/-- A call, and what it is expected to do. -/
def step (M : Machine) (s : Interrupts R × Expected D R) :
    Call D R → Option (Interrupts R × Expected D R)
  | .allocateHandler d hint =>
    (s.1.allocateHandler M hint).map fun found =>
      (found.2, { s.2 with given := (found.1, d) :: s.2.given })
  | .getHandler d v => some (s.1, { s.2 with given := (v, d) :: s.2.given })
  | .reserve _ v => some (s.1.update v (s.1.handlers v).reserve, s.2)
  | .setHandler _ v r =>
    some (s.1.update v ((s.1.handlers v).setHandler r),
      { s.2 with routine := Function.update s.2.routine v (some r) })
  | .setEoiFirst _ v eoiFirst =>
    some (s.1.update v { s.1.handlers v with eoiFirst },
      { s.2 with eoiFirst := Function.update s.2.eoiFirst v eoiFirst })
  | .mask lapicID v => (s.1.mask M lapicID v).map fun s' => (s', s.2.request M v true)
  | .unmask lapicID v => (s.1.unmask M lapicID v).map fun s' => (s', s.2.request M v false)

/-- `AllocateHandler` does not find the vector: its routine is set, or it is reserved and is no line
of the PIC. -/
def Settled (M : Machine) (s : Interrupts R) (v : Fin 256) : Prop :=
  (s.handlers v).isUsed = true ∨
    (s.handlers v).reserved = true ∧ ¬(M.legacyPIC = true ∧ v ≤ 0x20 + 15)

/-- A driver asks for a handler when those that were given before are settled, or for a fixed vector
that is free; a handler is changed by who was given it; and without an I/O APIC a line is below 40,
since the shift in `Mask` is not defined from there on. -/
def Disciplined (M : Machine) (s : Interrupts R × Expected D R) : Call D R → Prop
  | .allocateHandler _ _ => ∀ v ∈ s.2.given.map Prod.fst, s.1.Settled M v
  | .getHandler _ v => 0x20 ≤ v ∧ v ∉ s.2.given.map Prod.fst
  | .reserve d v => (v, d) ∈ s.2.given
  | .setHandler d v _ => (v, d) ∈ s.2.given
  | .setEoiFirst d v _ => (v, d) ∈ s.2.given
  | .mask _ v => M.isAnyEnabled = false → (v - 0x20).val < 40
  | .unmask _ v => M.isAnyEnabled = false → (v - 0x20).val < 40

/-! ## One owner for each vector -/

/-- The handlers are as their owners left them and the others untouched, and the masks and the
redirection entries are as expected. -/
structure Inv (M : Machine) (s : Interrupts R) (e : Expected D R) : Prop where
  vector : ∀ v, (s.handlers v).interruptVector = v
  routine : ∀ v, (s.handlers v).routine = e.routine v
  eoiFirst : ∀ v, (s.handlers v).eoiFirst = e.eoiFirst v
  owned : ∀ v, (s.handlers v).isUsed = true ∨ (s.handlers v).reserved = true →
    v ∈ e.given.map Prod.fst
  nodup : (e.given.map Prod.fst).Nodup
  device : ∀ v ∈ e.given.map Prod.fst, 0x20 ≤ v
  masks : ∀ k < 8, s.pic1Data.getLsbD k = e.masked k ∧ s.pic2Data.getLsbD k = e.masked (k + 8)
  redirections : ∀ gsi v masked, e.requested gsi = some (v, masked) →
    (s.redirections gsi).vector = v ∧ (s.redirections gsi).masked = masked

@[simp] theorem handlers_update_self {s : Interrupts R} {v : Fin 256} {h : InterruptHandler R} :
    (s.update v h).handlers v = h :=
  Function.update_self _ _ _

theorem handlers_update_of_ne {s : Interrupts R} {v i : Fin 256} {h : InterruptHandler R}
    (hne : i ≠ v) : (s.update v h).handlers i = s.handlers i :=
  Function.update_of_ne hne _ _

theorem le_firstHint (hint : Fin 256) : 0x20 ≤ firstHint hint := by
  unfold firstHint
  split
  · rename_i h
    rw [Fin.lt_def] at h
    rw [Fin.le_def, Fin.val_add_eq_of_add_lt]
    · exact Nat.le_add_left _ _
    · show hint.val + 32 < 256
      have : hint.val < 32 := h
      omega
  · rename_i h
    exact not_lt.mp h

/-- The handler that is found is not settled, and at most its reservation is new. -/
theorem allocateHandler_spec {M : Machine} {s s' : Interrupts R} {hint v : Fin 256}
    (h : allocateHandler M s hint = some (v, s')) :
    0x20 ≤ v ∧ ¬s.Settled M v ∧
      (s' = s ∨ s' = s.update v ((s.handlers v).reserve.setInterruptVector v)) := by
  unfold allocateHandler at h
  dsimp only at h
  split at h
  · rename_i hline
    obtain ⟨rfl, rfl⟩ := Prod.mk.inj (Option.some.inj h)
    refine ⟨le_firstHint hint, ?_, .inl rfl⟩
    rintro (hused | ⟨-, hpic⟩)
    · simp [hused] at hline
    · exact hpic ⟨hline.1, hline.2.1⟩
  · obtain ⟨i, hfound, heq⟩ := Option.map_eq_some_iff.mp h
    obtain ⟨rfl, rfl⟩ := Prod.mk.inj heq
    have hi := List.find?_some hfound
    rw [decide_eq_true_eq] at hi
    refine ⟨(le_firstHint hint).trans hi.1, ?_, .inr rfl⟩
    rintro (hused | ⟨hreserved, -⟩)
    · simp [hused] at hi
    · simp [hreserved] at hi

/-- The end of an interrupt: a write to the local APIC, or the command to both chips. -/
theorem managerSendEOI_eq (M : Machine) (isr : BitVec 16) {v : Fin 256} (hv : 0x20 ≤ v) :
    managerSendEOI (R := R) M isr v =
      if M.isAnyEnabled then [.lapicEOI] else [.out 0xa0 0x20, .out 0x20 0x20] := by
  have hval : 0x20 ≤ v.val := hv
  have hspurious : handleSpuriousInterrupt (R := R) isr v = (false, []) := by
    unfold handleSpuriousInterrupt
    rw [if_pos ⟨by omega, by omega⟩]
  unfold managerSendEOI sendEOI
  rw [hspurious, if_pos (show 8 ≤ v.val by omega)]
  rfl

/-- One bit of a mask register. -/
theorem getLsbD_one_shiftLeft {k : ℕ} (hk : k < 8) (n : ℕ) :
    (1#8 <<< n).getLsbD k = decide (k = n) := by
  rw [BitVec.getLsbD_shiftLeft, BitVec.getLsbD_one, Bool.eq_iff_iff]
  simp only [Bool.and_eq_true, Bool.not_eq_true', decide_eq_true_eq, decide_eq_false_iff_not]
  omega

/-- The bits of the two registers after one of them was set or cleared. -/
theorem getLsbD_onMask {f : BitVec 8 → BitVec 8 → BitVec 8} {value : Bool}
    (hf : ∀ data n k, k < 8 →
      (f data (1#8 <<< n)).getLsbD k = if k = n then value else data.getLsbD k)
    (s : Interrupts R) {masked : ℕ → Bool} (irq : ℕ)
    (h : ∀ k < 8, s.pic1Data.getLsbD k = masked k ∧ s.pic2Data.getLsbD k = masked (k + 8)) :
    ∀ k < 8, (s.onMask f irq).pic1Data.getLsbD k = Function.update masked irq value k ∧
      (s.onMask f irq).pic2Data.getLsbD k = Function.update masked irq value (k + 8) := by
  intro k hk
  obtain ⟨h₁, h₂⟩ := h k hk
  unfold Interrupts.onMask
  rw [Function.update_apply, Function.update_apply]
  split
  · refine ⟨?_, ?_⟩
    · rw [if_neg (by omega)]
      exact h₁
    · rw [hf _ _ k hk, h₂]
      split
      · rw [if_pos (by omega)]
      · rw [if_neg (by omega)]
  · refine ⟨?_, ?_⟩
    · rw [hf _ _ k hk, h₁]
    · rw [if_neg (by omega)]
      exact h₂

namespace Inv

variable {M : Machine} {s : Interrupts R} {e : Expected D R}

theorem inv_initialized (M : Machine) (pic1Data pic2Data : BitVec 8)
    (redirections : ℕ → RedirectionEntry) :
    Inv M (initialized pic1Data pic2Data redirections : Interrupts R)
      (.initialized pic1Data pic2Data : Expected D R) where
  vector _ := rfl
  routine _ := rfl
  eoiFirst _ := rfl
  owned v h := by simp [initialized, InterruptHandler.isUsed] at h
  nodup := List.nodup_nil
  device v hv := absurd hv List.not_mem_nil
  masks k hk := by
    refine ⟨(if_pos hk).symm, ?_⟩
    show pic2Data.getLsbD k = if k + 8 < 8 then pic1Data.getLsbD (k + 8)
      else pic2Data.getLsbD (k + 8 - 8)
    rw [if_neg (by omega), Nat.add_sub_cancel]
  redirections gsi v masked h := by cases h

/-- A vector that is free is given to a driver. -/
theorem give (h : Inv M s e) {v : Fin 256} {d : D} (hv : 0x20 ≤ v)
    (hfree : v ∉ e.given.map Prod.fst) : Inv M s { e with given := (v, d) :: e.given } :=
  { h with
    owned := fun i hi => List.mem_cons_of_mem _ (h.owned i hi)
    nodup := List.nodup_cons.mpr ⟨hfree, h.nodup⟩
    device := List.forall_mem_cons.mpr ⟨hv, h.device⟩ }

/-- A handler that was given to a driver is changed. -/
theorem change (h : Inv M s e) {v : Fin 256} {handler : InterruptHandler R} {e' : Expected D R}
    (hgiven : v ∈ e.given.map Prod.fst) (hvector : handler.interruptVector = v)
    (hroutine : e'.routine = Function.update e.routine v handler.routine)
    (heoi : e'.eoiFirst = Function.update e.eoiFirst v handler.eoiFirst)
    (hsame : e'.given = e.given ∧ e'.masked = e.masked ∧ e'.requested = e.requested) :
    Inv M (s.update v handler) e' where
  vector i := by
    by_cases hi : i = v
    · rw [hi, handlers_update_self, hvector]
    · rw [handlers_update_of_ne hi, h.vector]
  routine i := by
    rw [hroutine]
    by_cases hi : i = v
    · rw [hi, handlers_update_self, Function.update_self]
    · rw [handlers_update_of_ne hi, h.routine, Function.update_of_ne hi]
  eoiFirst i := by
    rw [heoi]
    by_cases hi : i = v
    · rw [hi, handlers_update_self, Function.update_self]
    · rw [handlers_update_of_ne hi, h.eoiFirst, Function.update_of_ne hi]
  owned i hi := by
    rw [hsame.1]
    by_cases hv : i = v
    · exact hv ▸ hgiven
    · rw [handlers_update_of_ne hv] at hi
      exact h.owned i hi
  nodup := by rw [hsame.1]; exact h.nodup
  device := by rw [hsame.1]; exact h.device
  masks := by rw [hsame.2.1]; exact h.masks
  redirections := by rw [hsame.2.2]; exact h.redirections

theorem allocateHandler (h : Inv M s e) {s' : Interrupts R} {hint v : Fin 256} {d : D}
    (hsettled : ∀ v ∈ e.given.map Prod.fst, s.Settled M v)
    (hfound : s.allocateHandler M hint = some (v, s')) :
    Inv M s' { e with given := (v, d) :: e.given } := by
  obtain ⟨hv, hnot, hs'⟩ := allocateHandler_spec hfound
  have hgive : Inv M s { e with given := (v, d) :: e.given } :=
    h.give hv fun hmem => hnot (hsettled v hmem)
  rcases hs' with rfl | rfl
  · exact hgive
  · refine hgive.change List.mem_cons_self rfl ?_ ?_ ⟨rfl, rfl, rfl⟩
    · exact (Function.update_eq_self_iff.mpr (h.routine v)).symm
    · exact (Function.update_eq_self_iff.mpr (h.eoiFirst v)).symm

/-- A line is masked or unmasked at the chips. -/
theorem onMask (h : Inv M s e) {f : BitVec 8 → BitVec 8 → BitVec 8} {value : Bool}
    (hf : ∀ data n k, k < 8 →
      (f data (1#8 <<< n)).getLsbD k = if k = n then value else data.getLsbD k) (irq : ℕ) :
    Inv M (s.onMask f irq) { e with masked := Function.update e.masked irq value } := by
  have hrest : (s.onMask f irq).handlers = s.handlers ∧
      (s.onMask f irq).redirections = s.redirections := by
    unfold Interrupts.onMask
    split <;> exact ⟨rfl, rfl⟩
  constructor
  · rw [hrest.1]; exact h.vector
  · rw [hrest.1]; exact h.routine
  · rw [hrest.1]; exact h.eoiFirst
  · rw [hrest.1]; exact h.owned
  · exact h.nodup
  · exact h.device
  · exact getLsbD_onMask hf s irq h.masks
  · rw [hrest.2]; exact h.redirections

/-- A line is masked or unmasked at an I/O APIC. -/
theorem setIrqRedirect (h : Inv M s e) {s' : Interrupts R} {lapicID irq : ℕ} {v : Fin 256}
    {status : Bool} (hs' : s.setIrqRedirect M lapicID v irq status = some s') :
    Inv M s' { e with
      requested := Function.update e.requested (M.gsi irq).1 (some (v, !status)) } := by
  unfold Interrupts.setIrqRedirect at hs'
  dsimp only at hs'
  split at hs'
  · obtain rfl := Option.some.inj hs'
    refine { h with redirections := fun gsi v' masked hrequest => ?_ }
    dsimp only at hrequest ⊢
    by_cases hgsi : gsi = (M.gsi irq).1
    · rw [hgsi, Function.update_self] at hrequest ⊢
      obtain ⟨rfl, rfl⟩ := Prod.mk.inj (Option.some.inj hrequest)
      exact ⟨rfl, rfl⟩
    · rw [Function.update_of_ne hgsi] at hrequest ⊢
      exact h.redirections gsi v' masked hrequest
  · cases hs'

/-- `Mask` and `Unmask`, with what they do to the mask registers. -/
theorem request (h : Inv M s e) {f : BitVec 8 → BitVec 8 → BitVec 8} {masked : Bool}
    (hf : ∀ data n k, k < 8 →
      (f data (1#8 <<< n)).getLsbD k = if k = n then masked else data.getLsbD k)
    {s' : Interrupts R} {lapicID : ℕ} {v : Fin 256}
    (hs' : (if M.isAnyEnabled then s.setIrqRedirect M lapicID v (v - 0x20).val !masked
      else some (s.onMask f (v - 0x20).val)) = some s') : Inv M s' (e.request M v masked) := by
  unfold Expected.request
  split at hs'
  · rename_i hany
    have hredirect := h.setIrqRedirect hs'
    rw [Bool.not_not] at hredirect
    rwa [if_pos hany]
  · rename_i hany
    rw [if_neg hany]
    obtain rfl := Option.some.inj hs'
    exact h.onMask hf _

theorem mask (h : Inv M s e) {s' : Interrupts R} {lapicID : ℕ} {v : Fin 256}
    (hs' : s.mask M lapicID v = some s') : Inv M s' (e.request M v true) := by
  refine h.request (f := fun data bit => data ||| bit) (fun data n k hk => ?_) hs'
  rw [BitVec.getLsbD_or, getLsbD_one_shiftLeft hk]
  by_cases heq : k = n <;> simp [heq]

theorem unmask (h : Inv M s e) {s' : Interrupts R} {lapicID : ℕ} {v : Fin 256}
    (hs' : s.unmask M lapicID v = some s') : Inv M s' (e.request M v false) := by
  refine h.request (f := fun data bit => data &&& ~~~bit) (fun data n k hk => ?_) hs'
  rw [BitVec.getLsbD_and, BitVec.getLsbD_not, getLsbD_one_shiftLeft hk, decide_eq_true hk]
  by_cases heq : k = n <;> simp [heq]

theorem step {s s' : Interrupts R × Expected D R} (h : Inv M s.1 s.2) {c : Call D R}
    (hok : Disciplined M s c) (hstep : step M s c = some s') : Inv M s'.1 s'.2 := by
  cases c with
  | allocateHandler d hint =>
    obtain ⟨⟨v, s₁⟩, hfound, rfl⟩ := Option.map_eq_some_iff.mp hstep
    exact h.allocateHandler hok hfound
  | getHandler d v =>
    obtain rfl := Option.some.inj hstep
    exact h.give hok.1 hok.2
  | reserve d v =>
    obtain rfl := Option.some.inj hstep
    refine h.change (List.mem_map_of_mem hok) (h.vector v) ?_ ?_ ⟨rfl, rfl, rfl⟩
    · exact (Function.update_eq_self_iff.mpr (h.routine v)).symm
    · exact (Function.update_eq_self_iff.mpr (h.eoiFirst v)).symm
  | setHandler d v r =>
    obtain rfl := Option.some.inj hstep
    refine h.change (List.mem_map_of_mem hok) (h.vector v) rfl ?_ ⟨rfl, rfl, rfl⟩
    exact (Function.update_eq_self_iff.mpr (h.eoiFirst v)).symm
  | setEoiFirst d v eoiFirst =>
    obtain rfl := Option.some.inj hstep
    refine h.change (List.mem_map_of_mem hok) (h.vector v) ?_ rfl ⟨rfl, rfl, rfl⟩
    exact (Function.update_eq_self_iff.mpr (h.routine v)).symm
  | mask lapicID v =>
    obtain ⟨s₁, hs₁, rfl⟩ := Option.map_eq_some_iff.mp hstep
    exact h.mask hs₁
  | unmask lapicID v =>
    obtain ⟨s₁, hs₁, rfl⟩ := Option.map_eq_some_iff.mp hstep
    exact h.unmask hs₁

end Inv

/-- Over every run of the drivers' calls, no vector is given out twice: an interrupt runs the
routine that the owner of its vector set last, once, with the end of the interrupt before or after
it; any other vector is an exception or unhandled; and the mask registers have the lines that were
masked last, and the redirection entries the last requests. -/
theorem interrupts_dispatch {M : Machine} {pic1Data pic2Data : BitVec 8}
    {redirections : ℕ → RedirectionEntry} {s : Interrupts R × Expected D R}
    (hrun : Reaches (step M) (Disciplined M)
      (initialized pic1Data pic2Data redirections, .initialized pic1Data pic2Data) s)
    (isr : BitVec 16) :
    (s.2.given.map Prod.fst).Nodup ∧
      (∀ v r, s.2.routine v = some r → v ∈ s.2.given.map Prod.fst ∧
        s.1.raiseInterrupt M isr v =
          let eoi := if M.isAnyEnabled then [.lapicEOI] else [.out 0xa0 0x20, .out 0x20 0x20]
          if s.2.eoiFirst v then eoi ++ [.routine r] else .routine r :: eoi) ∧
      (∀ v, s.2.routine v = none →
        s.1.raiseInterrupt M isr v = if v < 0x20 then [.exception v] else [.unhandled]) ∧
      (∀ k < 8, s.1.pic1Data.getLsbD k = s.2.masked k ∧
        s.1.pic2Data.getLsbD k = s.2.masked (k + 8)) ∧
      ∀ gsi v masked, s.2.requested gsi = some (v, masked) →
        (s.1.redirections gsi).vector = v ∧ (s.1.redirections gsi).masked = masked := by
  have h : Inv M s.1 s.2 := hrun.invariant (P := fun s => Inv M s.1 s.2)
    (Inv.inv_initialized M pic1Data pic2Data redirections) fun _ _ _ h hok hstep => h.step hok hstep
  refine ⟨h.nodup, fun v r hr => ?_, fun v hv => ?_, h.masks, h.redirections⟩
  · have hroutine : (s.1.handlers v).routine = some r := (h.routine v).trans hr
    have hgiven : v ∈ s.2.given.map Prod.fst :=
      h.owned v (.inl (by rw [InterruptHandler.isUsed, hroutine]; rfl))
    have hle := h.device v hgiven
    refine ⟨hgiven, ?_⟩
    unfold raiseInterrupt
    rw [if_neg (not_lt.mpr hle), managerSendEOI_eq M isr hle, hroutine, h.eoiFirst]
    cases s.2.eoiFirst v with
    | true => exact List.append_nil _
    | false => rfl
  · unfold raiseInterrupt
    dsimp only
    rw [h.routine v, hv]

/-- The timer, the keyboard and the calls of processes on a machine without an I/O APIC. -/
theorem interrupts_dispatch_three : ∃ s : Interrupts ℕ × Expected ℕ ℕ,
    Reaches (step ⟨true, [], []⟩) (Disciplined ⟨true, [], []⟩)
      (initialized 0xff 0xff fun _ => ⟨0, false, false, true, 0⟩, .initialized 0xff 0xff) s ∧
      s.1.raiseInterrupt ⟨true, [], []⟩ 0 0x20 =
        [.out 0xa0 0x20, .out 0x20 0x20, .routine 0] ∧
      s.1.raiseInterrupt ⟨true, [], []⟩ 0 0x21 =
        [.routine 1, .out 0xa0 0x20, .out 0x20 0x20] ∧
      s.1.raiseInterrupt ⟨true, [], []⟩ 0 0x80 =
        [.routine 2, .out 0xa0 0x20, .out 0x20 0x20] ∧
      s.1.raiseInterrupt ⟨true, [], []⟩ 0 0x22 = [.unhandled] ∧
      s.1.pic1Data.getLsbD 1 = false := by
  have hrun : ∃ s : Interrupts ℕ × Expected ℕ ℕ,
      Reaches (step ⟨true, [], []⟩) (Disciplined ⟨true, [], []⟩)
        (initialized 0xff 0xff fun _ => ⟨0, false, false, true, 0⟩, .initialized 0xff 0xff) s ∧
        (s.2.routine 0x20 = some 0 ∧ s.2.routine 0x21 = some 1 ∧ s.2.routine 0x80 = some 2 ∧
          s.2.routine 0x22 = none) ∧
        (s.2.eoiFirst 0x20 = true ∧ s.2.eoiFirst 0x21 = false ∧ s.2.eoiFirst 0x80 = false) ∧
        s.2.masked 1 = false := by
    refine ⟨_, .tail (.setHandler 2 0x80 2) (.tail (.getHandler 2 0x80) (.tail (.unmask 0 0x21)
      (.tail (.setHandler 1 0x21 1) (.tail (.reserve 1 0x21) (.tail (.allocateHandler 1 0x21)
      (.tail (.setEoiFirst 0 0x20 true) (.tail (.reserve 0 0x20) (.tail (.setHandler 0 0x20 0)
      (.tail (.allocateHandler 0 0x00) .refl ?_ rfl) ?_ rfl) ?_ rfl) ?_ rfl) ?_ rfl) ?_ rfl)
      ?_ rfl) ?_ rfl) ?_ rfl) ?_ rfl, ⟨rfl, rfl, rfl, rfl⟩, ⟨rfl, rfl, rfl⟩, rfl⟩
    · intro v hv
      exact absurd hv List.not_mem_nil
    · exact List.mem_cons_self
    · exact List.mem_cons_self
    · exact List.mem_cons_self
    · intro v hv
      obtain rfl := List.mem_singleton.mp hv
      exact .inl rfl
    · exact List.mem_cons_self
    · exact List.mem_cons_self
    · exact fun _ => by decide
    · exact ⟨by decide, by decide⟩
    · exact List.mem_cons_self
  obtain ⟨s, hs, ⟨h20, h21, h80, h22⟩, ⟨heoi20, heoi21, heoi80⟩, hmasked⟩ := hrun
  obtain ⟨-, hroutine, hnone, hmasks, -⟩ := interrupts_dispatch hs 0
  refine ⟨s, hs, ?_, ?_, ?_, ?_, (hmasks 1 (by decide)).1.trans hmasked⟩
  · rw [(hroutine 0x20 0 h20).2, heoi20]
    rfl
  · rw [(hroutine 0x21 1 h21).2, heoi21]
    rfl
  · rw [(hroutine 0x80 2 h80).2, heoi80]
    rfl
  · rw [hnone 0x22 h22]
    rfl

end Interrupts

end Cryptix.Arch
