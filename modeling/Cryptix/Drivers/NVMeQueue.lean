import Mathlib.Data.List.Basic
import Cryptix.Lib.PhaseRing
import Cryptix.Lib.Transition

/-!
# The queue pairs of an NVMe controller

`Kernel/Drivers/Storage/NVMe/NVMeQueue.cpp`: a submission ring the driver writes commands into, a
completion ring the device answers in, and a doorbell register for each. `AwaitSubmit` hands over
one command and spins on the completion ring until the phase bit of the slot at its head is the one
it expects.

The system is the driver together with the device on the other side of the rings. A call of
`AwaitSubmit` is in flight from its submission to the poll that sees the phase it waits for; between
its polls the device posts the answer at any time. `Run` keeps the commands, the completions and the
doorbell writes of a whole run.
-/

namespace Cryptix.NVMe

open Lib

/-- `Submission`; `command` is the union at its end. -/
structure Submission where
  opCode : UInt8
  flags : UInt8
  completeID : ℕ
  nameSpaceID : UInt32
  cdw2 : List UInt32
  metadata : UInt64
  prp1 : UInt64
  prp2 : UInt64
  command : List UInt32
  deriving DecidableEq, Repr

/-- `Completion`. Bit 0 of the status is the phase, the other bits are the error code. -/
structure Completion where
  result : UInt32
  reserved : UInt32
  submitQueueHead : ℕ
  submitQueueID : ℕ
  commandID : ℕ
  status : ℕ
  deriving DecidableEq, Repr

/-- The phase bit of a completion. -/
def Completion.phase (c : Completion) : Bool := c.status % 2 == 1

/-- The constructor's `depth`, kept in 16 bits. -/
structure Depth where
  val : ℕ
  pos : 0 < val
  lt : val < 2 ^ 16

/-- `NVMe::Queue`. The rings are arrays of `depth` entries; a doorbell is a register, of which we
keep every value written, the last one at the end. -/
structure Queue where
  submission : ℕ → Submission
  completion : ℕ → Completion
  submitDoorbell : List ℕ
  completeDoorbell : List ℕ
  submitTail : ℕ
  completeHead : ℕ
  completePhase : ℕ
  cmdId : ℕ

namespace Queue

/-- `Queue::Queue` over two rings. -/
def create (submission : ℕ → Submission) (completion : ℕ → Completion) : Queue :=
  { submission, completion, submitDoorbell := [], completeDoorbell := [], submitTail := 0,
    completeHead := 0, completePhase := 1, cmdId := 0 }

variable (depth : Depth)

/-- `Queue::Submit`. -/
def submit (q : Queue) (cmd : Submission) : Queue :=
  let currentTail := (q.submitTail + 1) % depth.val
  { q with
    submission := Function.update q.submission q.submitTail cmd
    submitDoorbell := q.submitDoorbell ++ [currentTail]
    submitTail := currentTail }

/-- The command as `AwaitSubmit` submits it: with the next command id, cut to 16 bits. -/
def label (q : Queue) (cmd : Submission) : Submission :=
  { cmd with completeID := q.cmdId % 2 ^ 16 }

/-- `AwaitSubmit` up to its loop. -/
def beginAwait (q : Queue) (cmd : Submission) : Queue :=
  { q with cmdId := (q.cmdId + 1) % 2 ^ 32 }.submit depth (q.label cmd)

/-- `AwaitSubmit` after its loop, when the status carries no error: `currentHead` and `currentPhase`
are its locals, read when the call began. -/
def endAwait (q : Queue) (currentHead currentPhase : ℕ) : Queue :=
  let currentHead := (currentHead + 1) % depth.val
  let currentPhase := if currentHead = 0 then (if currentPhase = 0 then 1 else 0) else currentPhase
  { q with
    completeDoorbell := q.completeDoorbell ++ [currentHead]
    completeHead := currentHead
    completePhase := currentPhase }

end Queue

/-- The device's side of a queue pair: the slot it fetches the next command from, the slot it
answers in, and the phase it tags its answers with. -/
structure Device where
  submitHead : ℕ
  completeTail : ℕ
  phase : ℕ

/-- A queue pair in use: the driver's object, the device, and the locals `currentHead` and
`currentPhase` of the call in flight, if there is one; and what happened so far. -/
structure Run where
  queue : Queue
  device : Device
  awaiting : Option (ℕ × ℕ)
  submitted : List Submission
  posted : List Completion
  consumed : List Completion

/-- What can happen next: the driver calls `AwaitSubmit`, the device answers the oldest command it
has not answered, or the driver reads the status once more. -/
inductive Action
  | awaitSubmit (cmd : Submission)
  | post (reply : Completion)
  | poll
  deriving DecidableEq, Repr

namespace Run

variable (depth : Depth)

/-- Before the first call. -/
def start (submission : ℕ → Submission) (completion : ℕ → Completion) : Run :=
  { queue := .create submission completion
    device := ⟨0, 0, 1⟩
    awaiting := none
    submitted := []
    posted := []
    consumed := [] }

/-- The completion the device posts: the result and the error code are its own, the command id is
that of the command it fetched, and the phase bit is that of its lap. -/
def answer (r : Run) (reply : Completion) : Completion :=
  { reply with
    commandID := (r.queue.submission r.device.submitHead).completeID
    status := reply.status / 2 * 2 + r.device.phase }

/-- The device posts one completion and moves on, flipping its phase where the ring wraps. -/
def post (r : Run) (reply : Completion) : Run :=
  let completeTail := (r.device.completeTail + 1) % depth.val
  { r with
    queue := { r.queue with
      completion := Function.update r.queue.completion r.device.completeTail (r.answer reply) }
    device :=
      { submitHead := (r.device.submitHead + 1) % depth.val
        completeTail
        phase := if completeTail = 0 then 1 - r.device.phase else r.device.phase }
    posted := r.posted ++ [r.answer reply] }

/-- The call begins: it reads its locals, labels the command and submits it. -/
def awaitSubmit (r : Run) (cmd : Submission) : Run :=
  { r with
    queue := r.queue.beginAwait depth cmd
    awaiting := some (r.queue.completeHead, r.queue.completePhase)
    submitted := r.submitted ++ [r.queue.label cmd] }

/-- One turn of the loop of `AwaitSubmit`. An error code trips the assertion behind the loop. -/
def poll (r : Run) (currentHead currentPhase : ℕ) : Option Run :=
  let entry := r.queue.completion r.queue.completeHead
  if entry.status % 2 = currentPhase then
    if entry.status / 2 = 0 then
      some { r with
        queue := r.queue.endAwait depth currentHead currentPhase
        awaiting := none
        consumed := r.consumed ++ [entry] }
    else none
  else some r

/-- One step of the system. The calls are consecutive, and the device only answers commands that
have been submitted. -/
def step (r : Run) : Action → Option Run
  | .awaitSubmit cmd => if r.awaiting.isNone then some (r.awaitSubmit depth cmd) else none
  | .post reply => if r.posted.length < r.submitted.length then some (r.post depth reply) else none
  | .poll =>
    match r.awaiting with
    | some (currentHead, currentPhase) => r.poll depth currentHead currentPhase
    | none => none

/-! ## The invariant over whole laps -/

/-- What holds between any two steps. The positions in the rings are the lengths of the histories
modulo the depth, and both phases are those of the lap the next entry belongs to. -/
structure Inv (r : Run) : Prop where
  laps : Laps Completion.phase depth.val r.queue.completion r.posted
  submitTail_eq : r.queue.submitTail = r.submitted.length % depth.val
  completeHead_eq : r.queue.completeHead = r.consumed.length % depth.val
  completePhase_eq : r.queue.completePhase = (lapTag depth.val r.consumed.length).toNat
  device_eq : r.device = ⟨r.posted.length % depth.val, r.posted.length % depth.val,
    (lapTag depth.val r.posted.length).toNat⟩
  /-- The command the device fetches next is in the slot it fetches from. -/
  unanswered : ∀ cmd : Submission, r.submitted[r.posted.length]? = some cmd →
    r.queue.submission (r.posted.length % depth.val) = cmd
  answered : ∀ (k : ℕ) (c : Completion), r.posted[k]? = some c →
    ∃ cmd : Submission, r.submitted[k]? = some cmd ∧ c.commandID = cmd.completeID
  consumed_eq : r.consumed = r.posted.take r.consumed.length
  posted_le : r.posted.length ≤ r.submitted.length
  consumed_le : r.consumed.length ≤ r.posted.length
  idle : r.awaiting = none → r.submitted.length = r.consumed.length
  inFlight : ∀ currentHead currentPhase, r.awaiting = some (currentHead, currentPhase) →
    currentHead = r.queue.completeHead ∧ currentPhase = r.queue.completePhase ∧
      r.submitted.length = r.consumed.length + 1
  submitDoorbell_eq : r.queue.submitDoorbell =
    (List.range r.submitted.length).map fun k => (k + 1) % depth.val
  completeDoorbell_eq : r.queue.completeDoorbell =
    (List.range r.consumed.length).map fun k => (k + 1) % depth.val

variable {depth} {r r' : Run}

theorem start_inv (submission : ℕ → Submission) {completion : ℕ → Completion}
    (h : ∀ i < depth.val, (completion i).phase = false) :
    (start submission completion).Inv depth where
  laps := .nil h
  submitTail_eq := (Nat.zero_mod _).symm
  completeHead_eq := (Nat.zero_mod _).symm
  completePhase_eq := by simp [start, Queue.create, lapTag_zero]
  device_eq := by simp [start, lapTag_zero]
  unanswered := by simp [start]
  answered := by simp [start]
  consumed_eq := rfl
  posted_le := le_rfl
  consumed_le := le_rfl
  idle := fun _ => rfl
  inFlight := by simp [start]
  submitDoorbell_eq := rfl
  completeDoorbell_eq := rfl

/-- One more doorbell write. -/
private theorem doorbell_snoc (d n : ℕ) :
    ((List.range n).map fun k => (k + 1) % d) ++ [(n % d + 1) % d] =
      (List.range (n + 1)).map fun k => (k + 1) % d := by
  rw [List.range_succ, List.map_append, slot_succ]
  rfl

theorem Inv.awaitSubmit (h : r.Inv depth) (hidle : r.awaiting = none) (cmd : Submission) :
    (r.awaitSubmit depth cmd).Inv depth := by
  have hlen : (r.submitted ++ [r.queue.label cmd]).length = r.submitted.length + 1 := by simp
  have hsub := h.idle hidle
  have hpost : r.posted.length = r.submitted.length := by
    have := h.posted_le
    have := h.consumed_le
    omega
  refine
    { laps := h.laps
      submitTail_eq := ?_
      completeHead_eq := h.completeHead_eq
      completePhase_eq := h.completePhase_eq
      device_eq := h.device_eq
      unanswered := ?_
      answered := ?_
      consumed_eq := h.consumed_eq
      posted_le := ?_
      consumed_le := h.consumed_le
      idle := by simp [Run.awaitSubmit]
      inFlight := ?_
      submitDoorbell_eq := ?_
      completeDoorbell_eq := h.completeDoorbell_eq }
  · simp only [Run.awaitSubmit, Queue.beginAwait, Queue.submit, hlen, h.submitTail_eq, slot_succ]
  · -- nothing was in flight, so this is the command the device fetches next
    intro c hc
    simp only [Run.awaitSubmit, Queue.beginAwait, Queue.submit, h.submitTail_eq, hpost] at hc ⊢
    rw [Function.update_self]
    simpa using hc
  · intro k c hc
    obtain ⟨old, hold, hid⟩ := h.answered k c hc
    exact ⟨old, (List.getElem?_append_left (List.getElem?_eq_some_iff.mp hold).1).trans hold, hid⟩
  · simp only [Run.awaitSubmit, hlen]
    omega
  · intro head phase hsome
    simp only [Run.awaitSubmit, Option.some.injEq, Prod.mk.injEq] at hsome
    refine ⟨hsome.1.symm, hsome.2.symm, ?_⟩
    simp only [Run.awaitSubmit, hlen]
    omega
  · simp only [Run.awaitSubmit, Queue.beginAwait, Queue.submit, hlen, h.submitTail_eq,
      h.submitDoorbell_eq]
    exact doorbell_snoc _ _

/-- A posted completion carries the phase of the device. -/
theorem answer_phase (r : Run) (reply : Completion) {b : Bool} (hb : r.device.phase = b.toNat) :
    (r.answer reply).phase = b := by
  have hmod : (r.answer reply).status % 2 = b.toNat := by
    have := b.toNat_lt
    simp only [answer, hb]
    omega
  rw [Completion.phase, hmod]
  cases b <;> rfl

theorem Inv.post (h : r.Inv depth) (hlt : r.posted.length < r.submitted.length)
    (reply : Completion) : (r.post depth reply).Inv depth := by
  have hlen : (r.posted ++ [r.answer reply]).length = r.posted.length + 1 := by simp
  have hdev := h.device_eq
  have hphase : (r.answer reply).phase = lapTag depth.val r.posted.length :=
    r.answer_phase reply (by rw [hdev])
  have hcmd : r.submitted[r.posted.length]? = some r.submitted[r.posted.length] :=
    List.getElem?_eq_getElem hlt
  refine
    { laps := ?_
      submitTail_eq := h.submitTail_eq
      completeHead_eq := h.completeHead_eq
      completePhase_eq := h.completePhase_eq
      device_eq := ?_
      unanswered := ?_
      answered := ?_
      consumed_eq := ?_
      posted_le := ?_
      consumed_le := ?_
      idle := h.idle
      inFlight := h.inFlight
      submitDoorbell_eq := h.submitDoorbell_eq
      completeDoorbell_eq := h.completeDoorbell_eq }
  · simp only [Run.post, hdev]
    exact h.laps.post hphase
  · simp only [Run.post, hlen, hdev, slot_succ, lapTag_succ]
    split
    · cases lapTag depth.val r.posted.length <;> rfl
    · rfl
  · -- only one command is ever in flight, so none is left unanswered
    intro cmd hcmd'
    have hbound := (List.getElem?_eq_some_iff.mp hcmd').1
    have hflight : r.submitted.length ≤ r.consumed.length + 1 := by
      cases hawait : r.awaiting with
      | none => exact (h.idle hawait).le.trans (Nat.le_succ _)
      | some locals => exact (h.inFlight locals.1 locals.2 hawait).2.2.le
    have := h.consumed_le
    simp only [Run.post, hlen] at hbound
    omega
  · intro k c hc
    simp only [Run.post] at hc
    rcases Nat.lt_or_ge k r.posted.length with hk | hk
    · rw [List.getElem?_append_left hk] at hc
      exact h.answered k c hc
    · have hk' := (List.getElem?_eq_some_iff.mp hc).1
      rw [hlen] at hk'
      obtain rfl : k = r.posted.length := by omega
      obtain rfl : r.answer reply = c := by simpa using hc
      refine ⟨_, hcmd, ?_⟩
      simp only [answer, hdev]
      rw [h.unanswered _ hcmd]
  · simp only [Run.post]
    rw [List.take_append_of_le_length h.consumed_le]
    exact h.consumed_eq
  · simp only [Run.post, hlen]
    omega
  · simp only [Run.post, hlen]
    exact h.consumed_le.trans (Nat.le_succ _)

/-- The status in the head slot has the phase a call in flight waits for exactly when the device has
answered its command. -/
theorem Inv.ready_iff (h : r.Inv depth) {currentHead currentPhase : ℕ}
    (hsome : r.awaiting = some (currentHead, currentPhase)) :
    (r.queue.completion r.queue.completeHead).status % 2 = currentPhase ↔
      r.posted.length = r.submitted.length := by
  obtain ⟨-, hphase, hflight⟩ := h.inFlight _ _ hsome
  have hposted := h.posted_le
  have hconsumed := h.consumed_le
  have hdepth := depth.pos
  have htag := h.laps.tag_eq_iff depth.pos hconsumed (by omega)
  have hbit : (r.queue.completion (r.consumed.length % depth.val)).status % 2 = currentPhase ↔
      (r.queue.completion (r.consumed.length % depth.val)).phase =
        lapTag depth.val r.consumed.length := by
    rw [hphase, h.completePhase_eq, Completion.phase]
    generalize (r.queue.completion (r.consumed.length % depth.val)).status = status
    rcases Nat.mod_two_eq_zero_or_one status with hmod | hmod <;>
      cases lapTag depth.val r.consumed.length <;> simp [hmod]
  rw [h.completeHead_eq, hbit, htag]
  omega

/-- The entry a successful poll takes is the first one not consumed yet. -/
theorem Inv.head_entry (h : r.Inv depth) (hlt : r.consumed.length < r.posted.length)
    (hlap : r.posted.length ≤ r.consumed.length + 1) :
    r.posted[r.consumed.length]? = some (r.queue.completion r.queue.completeHead) := by
  have hentry := List.getElem?_eq_getElem hlt
  have hdepth := depth.pos
  rw [h.completeHead_eq, h.laps.recent _ _ hentry (by omega)]
  exact hentry

theorem Inv.poll (h : r.Inv depth) {currentHead currentPhase : ℕ}
    (hsome : r.awaiting = some (currentHead, currentPhase))
    (hpoll : r.poll depth currentHead currentPhase = some r') : r'.Inv depth := by
  obtain ⟨hhead, hphase, hflight⟩ := h.inFlight _ _ hsome
  have hposted := h.posted_le
  rw [Run.poll] at hpoll
  by_cases hbit : (r.queue.completion r.queue.completeHead).status % 2 = currentPhase
  · rw [if_pos hbit] at hpoll
    have hready := (h.ready_iff hsome).mp hbit
    have hentry := h.head_entry (by omega) (by omega)
    split at hpoll
    · obtain rfl := Option.some.inj hpoll
      have hlen : ∀ c, (r.consumed ++ [c]).length = r.consumed.length + 1 := by simp
      refine
        { laps := h.laps
          submitTail_eq := h.submitTail_eq
          completeHead_eq := ?_
          completePhase_eq := ?_
          device_eq := h.device_eq
          unanswered := h.unanswered
          answered := h.answered
          consumed_eq := ?_
          posted_le := hposted
          consumed_le := ?_
          idle := fun _ => ?_
          inFlight := by simp
          submitDoorbell_eq := h.submitDoorbell_eq
          completeDoorbell_eq := ?_ }
      · simp only [Queue.endAwait, hlen, hhead, h.completeHead_eq, slot_succ]
      · simp only [Queue.endAwait, hlen, hhead, hphase, h.completeHead_eq, h.completePhase_eq,
          slot_succ, lapTag_succ]
        split
        · cases lapTag depth.val r.consumed.length <;> rfl
        · rfl
      · simp only [hlen]
        rw [List.take_add_one, hentry, ← h.consumed_eq]
        rfl
      · simp only [hlen]
        omega
      · simp only [hlen]
        omega
      · simp only [Queue.endAwait, hlen, hhead, h.completeHead_eq, h.completeDoorbell_eq]
        exact doorbell_snoc _ _
    · exact absurd hpoll (by simp)
  · rw [if_neg hbit] at hpoll
    obtain rfl := Option.some.inj hpoll
    exact h

theorem Inv.step (h : r.Inv depth) {a : Action} (hstep : r.step depth a = some r') :
    r'.Inv depth := by
  cases a with
  | awaitSubmit cmd =>
    simp only [Run.step, Option.ite_none_right_eq_some, Option.some.injEq,
      Option.isNone_iff_eq_none] at hstep
    obtain ⟨hidle, rfl⟩ := hstep
    exact h.awaitSubmit hidle cmd
  | post reply =>
    simp only [Run.step, Option.ite_none_right_eq_some, Option.some.injEq] at hstep
    obtain ⟨hlt, rfl⟩ := hstep
    exact h.post hlt reply
  | poll =>
    simp only [Run.step] at hstep
    split at hstep
    · rename_i currentHead currentPhase hsome
      exact h.poll hsome hstep
    · exact absurd hstep (by simp)

/-- Every call of `AwaitSubmit` consumes the completion of its own command. In every state of every
run over rings of any depth whose phase bits start at 0, the completions consumed so far are those
the device posted first, one for each call that has returned, each with the id of its own command;
a call in flight sees its phase only once its own command has been answered; and the `k`th write to
a doorbell is `k + 1` modulo the depth. -/
theorem awaitSubmit_consumes_own {submission : ℕ → Submission} {completion : ℕ → Completion}
    (hfresh : ∀ i < depth.val, (completion i).phase = false)
    (h : Reaches (step depth) anyCall (start submission completion) r) :
    r.consumed = r.posted.take r.consumed.length ∧
    (∀ (k : ℕ) (c : Completion), r.consumed[k]? = some c →
      ∃ cmd, r.submitted[k]? = some cmd ∧ c.commandID = cmd.completeID) ∧
    r.submitted.length = r.consumed.length + (if r.awaiting.isSome then 1 else 0) ∧
    (∀ currentHead currentPhase, r.awaiting = some (currentHead, currentPhase) →
      ((r.queue.completion r.queue.completeHead).status % 2 = currentPhase ↔
        r.posted.length = r.submitted.length)) ∧
    r.queue.submitDoorbell = (List.range r.submitted.length).map (fun k => (k + 1) % depth.val) ∧
    r.queue.completeDoorbell =
      (List.range r.consumed.length).map (fun k => (k + 1) % depth.val) := by
  have hinv : r.Inv depth :=
    h.invariant (start_inv submission hfresh) fun _ _ _ hs _ hstep => hs.step hstep
  refine ⟨hinv.consumed_eq, fun k c hc => ?_, ?_, fun _ _ => hinv.ready_iff,
    hinv.submitDoorbell_eq, hinv.completeDoorbell_eq⟩
  · rw [hinv.consumed_eq] at hc
    rw [List.getElem?_take, Option.ite_none_right_eq_some] at hc
    exact hinv.answered k c hc.2
  · cases hawait : r.awaiting with
    | none => simpa using hinv.idle hawait
    | some locals => simpa using (hinv.inFlight locals.1 locals.2 hawait).2.2

/-- Rings of two slots. -/
def twoSlots : Depth := ⟨2, by decide, by decide⟩

/-- Rings filled with zeros. -/
def zeroRings : Run :=
  start (fun _ => ⟨0, 0, 0, 0, [], 0, 0, 0, []⟩) (fun _ => ⟨0, 0, 0, 0, 0, 0⟩)

/-- Three commands, each answered between two polls. -/
def threeCommands : List Action :=
  let cmd : Submission := ⟨2, 0, 0, 1, [], 0, 0, 0, []⟩
  let reply : Completion := ⟨0, 0, 0, 1, 0, 0⟩
  [.awaitSubmit cmd, .poll, .post reply, .poll, .awaitSubmit cmd, .poll, .post reply, .poll,
    .awaitSubmit cmd, .poll, .post reply, .poll]

/-- The third command is answered in the slot of the first one, and consumed there. -/
theorem awaitSubmit_consumes_own_threeCommands :
    ∃ r, Reaches.runList (step twoSlots) anyCall zeroRings threeCommands = some r ∧
      r.consumed.length = 3 ∧ r.consumed = r.posted.take r.consumed.length ∧
      r.queue.completeDoorbell = [1, 0, 1] := by
  obtain ⟨r, hr⟩ : ∃ r, Reaches.runList (step twoSlots) anyCall zeroRings threeCommands = some r :=
    ⟨_, rfl⟩
  have hreach : Reaches (step twoSlots) anyCall zeroRings r := Reaches.of_list threeCommands hr
  refine ⟨r, hr, ?_, (awaitSubmit_consumes_own (fun _ _ => rfl) hreach).1, ?_⟩
  · obtain rfl := Option.some.inj hr
    rfl
  · obtain rfl := Option.some.inj hr
    rfl

end Run

end Cryptix.NVMe
