import Cryptix.ZLib.Decompressor

/-!
# What a stream writes

What the decompressor reads does not depend on what it has written. A stream stands for a sequence
of events, which `StreamEvents` gives without any output: literals, copies, stored data and the ends
of blocks. The output is a machine of its own, which takes them one after the other
(`Output.write`). `succeeds_iff` puts the two together again: `Decompress` succeeds exactly if the
events of the stream come to an end and the output takes all of them.
-/

namespace Cryptix.ZLib

open Lib

/-- What a stream does to the output. -/
inductive Event
  | literal (byte : UInt8)
  | copy (distance len : ℕ)
  | stored (data : List UInt8)
  | endOfBlock
  deriving DecidableEq, Repr

/-- The output: the buffer, its size, `m_OutputPointer` and `currentPointer` of `DecodeBlock`. -/
structure Output where
  buffer : ℕ → UInt8
  size : ℕ
  pointer : ℕ
  current : ℕ

namespace Output

/-- `EnsureCapacity`, after which `currentPointer` is `m_OutputPointer`. The new buffer holds
`fresh`. -/
def grow (fresh : ℕ → UInt8) (o : Output) (count : ℕ) : Option Output :=
  (Decompressor.growTo (o.pointer + count) 65 o.size).map fun size =>
    ⟨fresh, size, o.pointer, o.pointer⟩

/-- The check in front of a write of `len` bytes. -/
def makeRoom (fresh : ℕ → UInt8) (o : Output) (len count : ℕ) : Option Output :=
  if o.current + len ≥ o.size then o.grow fresh count else some o

/-- Bytes from a position on. -/
def storeBytes : List UInt8 → ℕ → (ℕ → UInt8) → ℕ → UInt8
  | [], _, buffer => buffer
  | b :: data, position, buffer =>
    storeBytes data (position + 1) (Function.update buffer position b)

/-- What an event does. Stored data comes between blocks, where both pointers are the same. -/
def write (fresh : ℕ → UInt8) (o : Output) : Event → Option Output
  | .literal byte => (o.makeRoom fresh 0 4096).map fun o =>
    { o with
      buffer := Function.update o.buffer o.current byte
      current := o.current + 1 }
  | .copy distance len =>
    if o.current < distance then none
    else (o.makeRoom fresh len (len * 2)).map fun o =>
      { o with
        buffer := Decompressor.copyBytes distance len (o.current - distance) o.current o.buffer
        current := o.current + len }
  | .stored data => (o.makeRoom fresh data.length (data.length * 2)).map fun o =>
    { o with
      buffer := storeBytes data o.current o.buffer
      pointer := o.current + data.length
      current := o.current + data.length }
  | .endOfBlock => some { o with pointer := o.current }

theorem current_of_makeRoom {fresh : ℕ → UInt8} {o o' : Output} {len count : ℕ}
    (h : o.current = o.pointer) (hmade : o.makeRoom fresh len count = some o') :
    o'.current = o'.pointer := by
  rw [makeRoom] at hmade
  split at hmade
  · obtain ⟨size, -, rfl⟩ := Option.map_eq_some_iff.mp hmade
    rfl
  · obtain rfl := Option.some.inj hmade
    exact h

/-- The bytes in front of `m_OutputPointer`. -/
def data (o : Output) : List UInt8 := (List.range o.pointer).map o.buffer

end Output

/-! ## Events of a stream -/

/-- The trees that the tokens of a block are read with. -/
structure Trees where
  literalLength : HuffmanTree
  distance : HuffmanTree

/-- The event of the next token, and what follows it. -/
def Trees.nextEvent (t : Trees) (stream : BitStream) : Option (Event × BitStream) :=
  match t.literalLength.decode stream with
  | (none, _) => none
  | (some symbol, stream) =>
    if symbol < 256 then some (.literal (UInt8.ofNat symbol), stream)
    else if symbol = 256 then some (.endOfBlock, stream)
    else if symbol ≥ 286 then none
    else
      let (len, stream) := Decompressor.readValue Decompressor.lengthBase
        Decompressor.lengthExtraBits (symbol - 257) stream
      match t.distance.decode stream with
      | (none, _) => none
      | (some symbol, stream) =>
        if symbol ≥ 30 then none
        else
          let (distance, stream) := Decompressor.readValue Decompressor.distBase
            Decompressor.distExtraBits symbol stream
          some (.copy distance len, stream)

/-- The events of the tokens of a block, and what follows them. -/
inductive Tokens (t : Trees) : BitStream → List Event → BitStream → Prop
  | last {s s' : BitStream} : t.nextEvent s = some (.endOfBlock, s') → Tokens t s [.endOfBlock] s'
  | next {s s₁ s' : BitStream} {e : Event} {es : List Event} :
    t.nextEvent s = some (e, s₁) → e ≠ .endOfBlock → Tokens t s₁ es s' → Tokens t s (e :: es) s'

/-- The next `n` bytes of a stream. -/
def readData : ℕ → BitStream → List UInt8 × BitStream
  | 0, stream => ([], stream)
  | n + 1, stream =>
    let (b, stream) := stream.readBits 8
    let (data, stream) := readData n stream
    (UInt8.ofNat b :: data, stream)

namespace Decompressor

/-- The trees of a decompressor. -/
def trees (d : Decompressor) : Trees := ⟨d.literalLengthTree, d.distanceTree⟩

/-- A decompressor with other trees. -/
def withTrees (d : Decompressor) (t : Trees) : Decompressor :=
  { d with
    literalLengthTree := t.literalLength
    distanceTree := t.distance }

/-- The output of a decompressor. -/
def output (d : Decompressor) (current : ℕ) : Output :=
  ⟨d.outputBuffer, d.outputEnd, d.outputPointer, current⟩

/-- A decompressor with another output. -/
def withOutput (d : Decompressor) (o : Output) : Decompressor :=
  { d with
    outputBuffer := o.buffer
    outputSize := o.size
    outputPointer := o.pointer
    outputEnd := o.size }

/-- The state of a decompressor that has a buffer. -/
structure Ready (d : Decompressor) : Prop where
  hasBuffer : d.hasBuffer = true
  outputSize : d.outputSize = d.outputEnd

end Decompressor

/-- A decompressor that is there for its trees. -/
def Trees.carrier (t : Trees) : Decompressor where
  inputData := []
  hasBuffer := false
  outputBuffer := fun _ => 0
  outputSize := 0
  outputPointer := 0
  outputEnd := 0
  literalLengthTree := t.literalLength
  distanceTree := t.distance

/-- What `ParseBlock` reads. -/
def Trees.parseBlock (m : Memory) (t : Trees) (stream : BitStream) (blockType : ℕ) :
    Option (Trees × List Event × BitStream) :=
  match blockType with
  | 0 =>
    let (length, stream) := (Decompressor.alignToByteBoundary stream).readBits 16
    let (negatedLength, stream) := stream.readBits 16
    if length ^^^ 0xffff ≠ negatedLength then none
    else
      let (data, stream) := readData length stream
      some (t, [.stored data], stream)
  | 1 => (t.carrier.buildTrees Decompressor.defaultLengths Decompressor.defaultDistances).map
      fun d => (d.trees, [], stream)
  | 2 => (t.carrier.decodeCanonicalCodes m stream).map fun (d, stream) => (d.trees, [], stream)
  | _ => none

/-- The events of the blocks up to the final one. -/
inductive StreamEvents (m : Memory) : Trees → BitStream → List Event → Prop
  | final {t t' : Trees} {s s' s'' : BitStream} {es es' : List Event} :
    (s.readBits 1).1 ≠ 0 →
    t.parseBlock m ((s.readBits 1).2.readBits 2).2 ((s.readBits 1).2.readBits 2).1 =
      some (t', es, s') →
    Tokens t' s' es' s'' → StreamEvents m t s (es ++ es')
  | more {t t' : Trees} {s s' s'' : BitStream} {es es' es'' : List Event} :
    (s.readBits 1).1 = 0 →
    t.parseBlock m ((s.readBits 1).2.readBits 2).2 ((s.readBits 1).2.readBits 2).1 =
      some (t', es, s') →
    Tokens t' s' es' s'' → StreamEvents m t' s'' es'' → StreamEvents m t s (es ++ (es' ++ es''))

/-! ## One event -/

namespace Decompressor

variable {m : Memory} {d d' : Decompressor} {p n : ℕ} {s s₁ : BitStream} {o : Output}

theorem ready_withOutput (h : d.Ready) (o : Output) : (d.withOutput o).Ready :=
  ⟨h.hasBuffer, rfl⟩

theorem withOutput_output (h : d.Ready) : d.withOutput (d.output p) = d := by
  obtain ⟨input, hasBuffer, buffer, size, pointer, outputEnd, literalLength, distance⟩ := d
  obtain ⟨-, rfl⟩ : hasBuffer = true ∧ size = outputEnd := ⟨h.hasBuffer, h.outputSize⟩
  rfl

/-- `EnsureCapacity`, seen from the output. -/
theorem ensureCapacity_eq (h : d.Ready) (p count : ℕ) :
    d.ensureCapacity m count = match (d.output p).grow m.bytes count with
      | none => .error .endless
      | some o => .ok (d.withOutput o) := by
  obtain ⟨input, hasBuffer, buffer, size, pointer, outputEnd, literalLength, distance⟩ := d
  obtain ⟨rfl, rfl⟩ : hasBuffer = true ∧ size = outputEnd := ⟨h.hasBuffer, h.outputSize⟩
  unfold ensureCapacity Output.grow output
  simp only [if_true]
  cases growTo (pointer + count) 65 size with
  | none => rfl
  | some size => rfl

/-- The check in front of a write in `DecodeBlock`, and what follows it. -/
theorem makeRoom_eq {α : Type} (h : d.Ready) (p len count : ℕ)
    (next : Decompressor × ℕ → Except Failure α) :
    (if p + len ≥ d.outputEnd then do
        let d ← d.ensureCapacity m count
        let made ← .ok (d, d.outputPointer)
        next made
      else do
        let made ← .ok (d, p)
        next made) =
    match (d.output p).makeRoom m.bytes len count with
      | none => .error .endless
      | some o => next (d.withOutput o, o.current) := by
  rw [Output.makeRoom]
  by_cases hroom : p + len ≥ d.outputEnd
  · rw [if_pos hroom, if_pos (show (d.output p).current + len ≥ (d.output p).size from hroom),
      ensureCapacity_eq h p, Output.grow]
    cases growTo ((d.output p).pointer + count) 65 (d.output p).size with
    | none => rfl
    | some size => rfl
  · rw [if_neg hroom, if_neg (show ¬(d.output p).current + len ≥ (d.output p).size from hroom)]
    simp only [withOutput_output h]
    rfl

/-- How `DecodeBlock` ends when the output cannot take an event. -/
def refusal (d : Decompressor) (p : ℕ) : Event → Failure
  | .copy distance _ => if p < distance then .failed d else .endless
  | _ => .endless

theorem decodeBlock_literal_eq (h : d.Ready) (byte : UInt8) (next : BitStream) :
    (if p ≥ d.outputEnd then do
        let d ← d.ensureCapacity m 4096
        let made ← .ok (d, d.outputPointer)
        decodeBlock m n (made.1.storeByte made.2 byte) (made.2 + 1) next
      else do
        let made ← .ok (d, p)
        decodeBlock m n (made.1.storeByte made.2 byte) (made.2 + 1) next) =
    match (d.output p).write m.bytes (.literal byte) with
      | none => .error .endless
      | some o => decodeBlock m n (d.withOutput o) o.current next := by
  refine (makeRoom_eq h p 0 4096 fun made =>
    decodeBlock m n (made.1.storeByte made.2 byte) (made.2 + 1) next).trans ?_
  rw [Output.write]
  cases (d.output p).makeRoom m.bytes 0 4096 with
  | none => rfl
  | some o => rfl

theorem decodeBlock_copy_eq (h : d.Ready) {distance : ℕ} (len : ℕ) (hback : ¬p < distance)
    (next : BitStream) :
    (if p + len ≥ d.outputEnd then do
        let d ← d.ensureCapacity m (len * 2)
        let made ← .ok (d, d.outputPointer)
        decodeBlock m n { made.1 with
          outputBuffer := copyBytes distance len (made.2 - distance) made.2 made.1.outputBuffer }
          (made.2 + len) next
      else do
        let made ← .ok (d, p)
        decodeBlock m n { made.1 with
          outputBuffer := copyBytes distance len (made.2 - distance) made.2 made.1.outputBuffer }
          (made.2 + len) next) =
    match (d.output p).write m.bytes (.copy distance len) with
      | none => .error .endless
      | some o => decodeBlock m n (d.withOutput o) o.current next := by
  refine (makeRoom_eq h p len (len * 2) fun made => decodeBlock m n { made.1 with
    outputBuffer := copyBytes distance len (made.2 - distance) made.2 made.1.outputBuffer }
    (made.2 + len) next).trans ?_
  rw [Output.write, if_neg (show ¬(d.output p).current < distance from hback)]
  cases (d.output p).makeRoom m.bytes len (len * 2) with
  | none => rfl
  | some o => rfl

/-- A turn of the loop of `DecodeBlock` takes one event. -/
theorem decodeBlock_succ (h : d.Ready) :
    decodeBlock m (n + 1) d p s = match d.trees.nextEvent s with
      | none => .error (.failed d)
      | some (.endOfBlock, next) => .ok (d.withOutput { d.output p with pointer := p }, next)
      | some (event, next) => match (d.output p).write m.bytes event with
        | none => .error (d.refusal p event)
        | some o => decodeBlock m n (d.withOutput o) o.current next := by
  rw [decodeBlock, Trees.nextEvent, trees]
  dsimp only
  obtain ⟨⟨symbol, s₁⟩, hdecode⟩ : ∃ r, d.literalLengthTree.decode s = r := ⟨_, rfl⟩
  rw [hdecode]
  cases symbol with
  | none => rfl
  | some symbol =>
    dsimp only
    by_cases hliteral : symbol < 256
    · rw [if_pos hliteral, if_pos hliteral]
      exact decodeBlock_literal_eq h _ _
    rw [if_neg hliteral, if_neg hliteral]
    by_cases hend : symbol = 256
    · rw [if_pos hend, if_pos hend]
      dsimp only
      rw [withOutput, output, ← h.outputSize]
    rw [if_neg hend, if_neg hend]
    by_cases hhi : symbol ≥ 286
    · rw [if_pos hhi, if_pos hhi]
    rw [if_neg hhi, if_neg hhi]
    obtain ⟨⟨len, s₂⟩, hlen⟩ :
        ∃ r, readValue lengthBase lengthExtraBits (symbol - 257) s₁ = r := ⟨_, rfl⟩
    obtain ⟨⟨code, s₃⟩, hcode⟩ : ∃ r, d.distanceTree.decode s₂ = r := ⟨_, rfl⟩
    simp only [hlen, hcode]
    cases code with
    | none => rfl
    | some code =>
      dsimp only
      by_cases hcodehi : code ≥ 30
      · rw [if_pos hcodehi, if_pos hcodehi]
      rw [if_neg hcodehi, if_neg hcodehi]
      obtain ⟨⟨distance, s₄⟩, hdistance⟩ :
          ∃ r, readValue distBase distExtraBits code s₃ = r := ⟨_, rfl⟩
      simp only [hdistance, refusal]
      by_cases hback : p < distance
      · rw [if_pos hback, if_pos hback, Output.write,
          if_pos (show (d.output p).current < distance from hback)]
      · rw [if_neg hback, if_neg hback]
        exact decodeBlock_copy_eq h len hback s₄

theorem decodeBlock_next {event : Event} (h : d.Ready)
    (hnext : d.trees.nextEvent s = some (event, s₁)) (hne : event ≠ .endOfBlock) :
    decodeBlock m (n + 1) d p s = match (d.output p).write m.bytes event with
      | none => .error (d.refusal p event)
      | some o => decodeBlock m n (d.withOutput o) o.current s₁ := by
  rw [decodeBlock_succ h, hnext]
  cases event with
  | literal byte => rfl
  | copy distance len => rfl
  | stored data => rfl
  | endOfBlock => exact absurd rfl hne

/-! ## A block -/

/-- When `DecodeBlock` returns true, the output has taken the events of the tokens. -/
theorem tokens_of_decodeBlock {s' : BitStream} (h : d.Ready)
    (hrun : decodeBlock m n d p s = .ok (d', s')) :
    ∃ es o, Tokens d.trees s es s' ∧
      es.foldlM (Output.write m.bytes) (d.output p) = some o ∧ o.current = o.pointer ∧
        d' = d.withOutput o := by
  induction n generalizing d p s with
  | zero => cases hrun
  | succ n ih =>
    cases hnext : d.trees.nextEvent s with
    | none =>
      rw [decodeBlock_succ h, hnext] at hrun
      cases hrun
    | some next =>
      obtain ⟨event, s₁⟩ := next
      by_cases hne : event = .endOfBlock
      · subst hne
        rw [decodeBlock_succ h, hnext] at hrun
        obtain ⟨rfl, rfl⟩ := Prod.mk.inj (Except.ok.inj hrun)
        exact ⟨[.endOfBlock], _, .last hnext, rfl, rfl, rfl⟩
      · rw [decodeBlock_next h hnext hne] at hrun
        cases hwrite : (d.output p).write m.bytes event with
        | none =>
          rw [hwrite] at hrun
          cases hrun
        | some o₁ =>
          rw [hwrite] at hrun
          obtain ⟨es, o, htokens, hfold, hend, rfl⟩ := ih (ready_withOutput h o₁) hrun
          refine ⟨event :: es, o, .next hnext hne htokens, ?_, hend, rfl⟩
          rw [List.foldlM_cons, hwrite]
          exact hfold

/-- The events of the tokens of a block, taken by the output, are a run of `DecodeBlock`. -/
theorem decodeBlock_of_tokens {t : Trees} {s' : BitStream} {es : List Event}
    (htokens : Tokens t s es s') (h : d.Ready) (ht : d.trees = t)
    (hfold : es.foldlM (Output.write m.bytes) (d.output p) = some o) (hn : es.length ≤ n) :
    decodeBlock m n d p s = .ok (d.withOutput o, s') := by
  induction htokens generalizing d p n with
  | last hnext =>
    subst ht
    obtain ⟨n, rfl⟩ := Nat.exists_eq_succ_of_ne_zero (Nat.ne_zero_of_lt hn)
    obtain rfl := Option.some.inj hfold
    rw [decodeBlock_succ h, hnext]
    rfl
  | @next s s₁ s' e es hnext hne _ ih =>
    subst ht
    obtain ⟨n, rfl⟩ := Nat.exists_eq_succ_of_ne_zero (Nat.ne_zero_of_lt hn)
    rw [List.foldlM_cons, Option.bind_eq_bind, Option.bind_eq_some_iff] at hfold
    obtain ⟨o₁, hwrite, hfold⟩ := hfold
    rw [decodeBlock_next h hnext hne, hwrite]
    exact ih (ready_withOutput h o₁) rfl hfold (Nat.le_of_succ_le_succ hn)

/-- A block ends where `m_OutputPointer` is moved. -/
theorem current_eq_of_tokens {t : Trees} {s' : BitStream} {es : List Event} {fresh : ℕ → UInt8}
    {o o' : Output} (htokens : Tokens t s es s')
    (hfold : es.foldlM (Output.write fresh) o = some o') : o'.current = o'.pointer := by
  induction htokens generalizing o with
  | last =>
    obtain rfl := Option.some.inj hfold
    rfl
  | next _ _ _ ih =>
    obtain ⟨o₁, -, hfold⟩ := Option.bind_eq_some_iff.mp hfold
    exact ih hfold

theorem length_pos_of_tokens {t : Trees} {s' : BitStream} {es : List Event}
    (htokens : Tokens t s es s') : 0 < es.length := by
  cases htokens <;> simp

/-! ## The head of a block -/

/-- The trees of a block do not depend on the output. -/
theorem buildTrees_eq (d : Decompressor) (lengths distances : List ℕ) :
    d.buildTrees lengths distances =
      (d.trees.carrier.buildTrees lengths distances).map
        fun d' => d.withTrees d'.trees := by
  simp only [buildTrees, withTrees, trees, Trees.carrier]
  cases d.literalLengthTree.build lengths with
  | none => rfl
  | some literalLength =>
    cases d.distanceTree.build distances with
    | none => rfl
    | some distance => rfl

theorem decodeCanonicalCodes_eq (m : Memory) (d : Decompressor) (s : BitStream) :
    d.decodeCanonicalCodes m s =
      (d.trees.carrier.decodeCanonicalCodes m s).map
        fun (d', s') => (d.withTrees d'.trees, s') := by
  simp only [decodeCanonicalCodes, buildTrees_eq d, Option.bind_eq_bind, Option.map_bind]
  refine congrArg _ (funext fun codeLengthTree => ?_)
  rw [Function.comp_apply, Option.map_bind]
  refine congrArg _ (funext fun read => ?_)
  rw [Function.comp_apply, apply_ite (Option.map _), Option.map_none, Option.map_bind,
    Option.bind_map]
  rfl

theorem length_readData (n : ℕ) (s : BitStream) : (readData n s).1.length = n := by
  induction n generalizing s with
  | zero => rfl
  | succ n ih => exact congrArg Nat.succ (ih _)

/-- `Read` writes the data of a stored block. -/
theorem readBytes_eq (n : ℕ) (d : Decompressor) (s : BitStream) :
    readBytes n d s =
      ({ d with
        outputBuffer := Output.storeBytes (readData n s).1 d.outputPointer d.outputBuffer
        outputPointer := d.outputPointer + n }, (readData n s).2) := by
  induction n generalizing d s with
  | zero => rfl
  | succ n ih =>
    rw [readBytes, readData]
    simp only [ih, Nat.add_right_comm, ← Nat.add_assoc]
    rfl

/-- The output after new trees are built. -/
theorem withTrees_eq_iff (h : d.Ready) {s' : BitStream}
    (built : Option (Decompressor × BitStream)) :
    (built.map fun r => (d.withTrees r.1.trees, r.2)) = some (d', s') ↔
      ∃ t es o, (built.map fun r => (r.1.trees, ([] : List Event), r.2)) = some (t, es, s') ∧
        es.foldlM (Output.write m.bytes) (d.output d.outputPointer) = some o ∧
          d' = (d.withTrees t).withOutput o := by
  have hsame (t : Trees) : (d.withTrees t).withOutput (d.output d.outputPointer) = d.withTrees t :=
    withOutput_output (d := d.withTrees t) ⟨h.hasBuffer, h.outputSize⟩
  cases built with
  | none => exact ⟨fun hnone => (nomatch hnone), fun ⟨_, _, _, hnone, _⟩ => (nomatch hnone)⟩
  | some r =>
    constructor
    · intro hsome
      obtain ⟨rfl, rfl⟩ := Prod.mk.inj (Option.some.inj hsome)
      exact ⟨_, _, _, rfl, rfl, (hsame _).symm⟩
    · rintro ⟨t, es, o, hparse, hfold, rfl⟩
      simp only [Option.map_some, Option.some.injEq, Prod.mk.injEq] at hparse ⊢
      obtain ⟨rfl, rfl, rfl⟩ := hparse
      obtain rfl := Option.some.inj hfold
      exact ⟨(hsame _).symm, rfl⟩

theorem parseBlock_fixed_eq (m : Memory) (d : Decompressor) (s : BitStream) :
    d.parseBlock m s 1 =
      (((d.trees.carrier.buildTrees defaultLengths defaultDistances).map
        (·, s)).map fun r => (d.withTrees r.1.trees, r.2)).elim (.error (.failed d)) .ok := by
  unfold parseBlock
  simp only [buildTrees_eq d]
  cases d.trees.carrier.buildTrees defaultLengths defaultDistances with
  | none => rfl
  | some d₁ => rfl

theorem parseBlock_dynamic_eq (m : Memory) (d : Decompressor) (s : BitStream) :
    d.parseBlock m s 2 =
      ((d.trees.carrier.decodeCanonicalCodes m s).map
        fun r => (d.withTrees r.1.trees, r.2)).elim (.error (.failed d)) .ok := by
  unfold parseBlock
  simp only [decodeCanonicalCodes_eq m d]
  cases d.trees.carrier.decodeCanonicalCodes m s with
  | none => rfl
  | some r => rfl

theorem elim_ok_eq_ok_iff {α : Type} {e : Failure} {x : Option α} {a : α} :
    x.elim (.error e) .ok = (.ok a : Except Failure α) ↔ x = some a := by
  cases x with
  | none => exact ⟨fun h => (nomatch h), fun h => (nomatch h)⟩
  | some b =>
    exact ⟨fun h => congrArg some (Except.ok.inj h), fun h => congrArg _ (Option.some.inj h)⟩

/-- `ParseBlock` of a stored block, behind its two lengths. -/
theorem parseBlock_stored_eq (h : d.Ready) (s : BitStream) {length negatedLength : ℕ}
    {s₂ : BitStream} (hlength : (alignToByteBoundary s).readBits 16 = (length, s₁))
    (hnegated : s₁.readBits 16 = (negatedLength, s₂)) :
    d.parseBlock m s 0 =
      if length ^^^ 0xffff ≠ negatedLength then .error (.failed d)
      else match (d.output d.outputPointer).write m.bytes (.stored (readData length s₂).1) with
      | none => .error .endless
      | some o => .ok (d.withOutput o, (readData length s₂).2) := by
  unfold parseBlock
  simp only [hlength, hnegated]
  by_cases hbad : length ^^^ 0xffff ≠ negatedLength
  · rw [if_pos hbad, if_pos hbad]
  · have hroom := makeRoom_eq (m := m) h d.outputPointer length (length * 2) fun made =>
      .ok (readBytes length made.1 s₂)
    rw [if_neg hbad, if_neg hbad, Output.write, length_readData]
    refine hroom.trans ?_
    cases hmade : (d.output d.outputPointer).makeRoom m.bytes length (length * 2) with
    | none => rfl
    | some o =>
      rw [Option.map_some, Output.current_of_makeRoom rfl hmade]
      exact congrArg Except.ok (readBytes_eq length (d.withOutput o) s₂)

/-- When `ParseBlock` returns true, the output has taken the stored data. -/
theorem parseBlock_eq_ok_iff {type : ℕ} {s' : BitStream} (h : d.Ready) :
    d.parseBlock m s type = .ok (d', s') ↔
      ∃ t es o, d.trees.parseBlock m s type = some (t, es, s') ∧
        es.foldlM (Output.write m.bytes) (d.output d.outputPointer) = some o ∧
          d' = (d.withTrees t).withOutput o := by
  match type with
  | 0 =>
    obtain ⟨⟨length, s₁⟩, hlength⟩ : ∃ r, (alignToByteBoundary s).readBits 16 = r := ⟨_, rfl⟩
    obtain ⟨⟨negatedLength, s₂⟩, hnegated⟩ : ∃ r, s₁.readBits 16 = r := ⟨_, rfl⟩
    rw [parseBlock_stored_eq h s hlength hnegated]
    simp only [Trees.parseBlock, hlength, hnegated]
    by_cases hbad : length ^^^ 0xffff ≠ negatedLength
    · rw [if_pos hbad, if_pos hbad]
      exact ⟨fun herror => (nomatch herror), fun ⟨_, _, _, hnone, _⟩ => (nomatch hnone)⟩
    · rw [if_neg hbad, if_neg hbad]
      constructor
      · intro hrun
        cases hwrite : (d.output d.outputPointer).write m.bytes
            (.stored (readData length s₂).1) with
        | none =>
          rw [hwrite] at hrun
          cases hrun
        | some o =>
          rw [hwrite] at hrun
          obtain ⟨rfl, rfl⟩ := Prod.mk.inj (Except.ok.inj hrun)
          refine ⟨d.trees, _, o, rfl, ?_, rfl⟩
          rw [List.foldlM_cons, hwrite]
          rfl
      · rintro ⟨t, es, o, hparse, hfold, rfl⟩
        simp only [Option.some.injEq, Prod.mk.injEq] at hparse
        obtain ⟨rfl, rfl, rfl⟩ := hparse
        obtain ⟨o₁, hwrite, hnil⟩ := Option.bind_eq_some_iff.mp hfold
        obtain rfl := Option.some.inj hnil
        rw [hwrite]
        rfl
  | 1 =>
    rw [parseBlock_fixed_eq, elim_ok_eq_ok_iff, withTrees_eq_iff (m := m) h, Option.map_map]
    rfl
  | 2 =>
    rw [parseBlock_dynamic_eq, elim_ok_eq_ok_iff, withTrees_eq_iff (m := m) h]
    rfl
  | n + 3 => exact ⟨fun herror => (nomatch herror), fun ⟨_, _, _, hnone, _⟩ => (nomatch hnone)⟩

theorem readBits_lt (n : ℕ) (s : BitStream) : (s.readBits n).1 < 2 ^ n :=
  (ofLsb_lt _).trans_le (Nat.pow_le_pow_right (by decide) (List.length_take_le n s))

/-- The head of a block is that of a stored block, or it has no events. -/
theorem head_events {t t' : Trees} {type : ℕ} {s' : BitStream} {es : List Event}
    (hparse : t.parseBlock m s type = some (t', es, s')) :
    es = [] ∨ ∃ data : List UInt8, data.length < 2 ^ 16 ∧ es = [.stored data] := by
  rcases type with _ | _ | _ | n
  · simp only [Trees.parseBlock] at hparse
    by_cases hbad : ((alignToByteBoundary s).readBits 16).1 ^^^ 0xffff ≠
        (((alignToByteBoundary s).readBits 16).2.readBits 16).1
    · rw [if_pos hbad] at hparse
      cases hparse
    · rw [if_neg hbad] at hparse
      simp only [Option.some.injEq, Prod.mk.injEq] at hparse
      refine .inr ⟨_, ?_, hparse.2.1.symm⟩
      rw [length_readData]
      exact readBits_lt 16 _
  · simp only [Trees.parseBlock, Option.map_eq_some_iff, Prod.mk.injEq] at hparse
    obtain ⟨r, -, -, hnil, -⟩ := hparse
    exact .inl hnil.symm
  · simp only [Trees.parseBlock, Option.map_eq_some_iff, Prod.mk.injEq] at hparse
    obtain ⟨r, -, -, hnil, -⟩ := hparse
    exact .inl hnil.symm
  · cases hparse

theorem current_eq_of_head {t t' : Trees} {type : ℕ} {s' : BitStream} {es : List Event}
    (hparse : t.parseBlock m s type = some (t', es, s'))
    (hfold : es.foldlM (Output.write m.bytes) (d.output d.outputPointer) = some o) :
    o.current = o.pointer := by
  rcases head_events hparse with rfl | ⟨data, -, rfl⟩
  · obtain rfl := Option.some.inj hfold
    rfl
  · obtain ⟨o₁, hwrite, hnil⟩ := Option.bind_eq_some_iff.mp hfold
    obtain rfl := Option.some.inj hnil
    obtain ⟨o₂, -, rfl⟩ := Option.map_eq_some_iff.mp hwrite
    rfl

/-! ## All blocks -/

theorem output_withOutput (d : Decompressor) (hend : o.current = o.pointer) :
    (d.withOutput o).output (d.withOutput o).outputPointer = o := by
  obtain ⟨buffer, size, pointer, current⟩ := o
  obtain rfl : current = pointer := hend
  rfl

/-- A block that has been decompressed to `d₂`, with the events of its head and its tokens. -/
structure BlockRun (m : Memory) (d : Decompressor) (t : Trees) (events : List Event)
    (d₂ : Decompressor) : Prop where
  ready : d₂.Ready
  trees : d₂.trees = t
  fold : events.foldlM (Output.write m.bytes) (d.output d.outputPointer) =
    some (d₂.output d₂.outputPointer)

/-- `ParseBlock` and `DecodeBlock`, if both return true. -/
theorem blockRun_of_run {type fuel : ℕ} {d₁ d₂ : Decompressor} {s₂ : BitStream} (h : d.Ready)
    (hparse : d.parseBlock m s type = .ok (d₁, s₁))
    (hdecode : decodeBlock m fuel d₁ d₁.outputPointer s₁ = .ok (d₂, s₂)) :
    ∃ t es es', d.trees.parseBlock m s type = some (t, es, s₁) ∧ Tokens t s₁ es' s₂ ∧
      BlockRun m d t (es ++ es') d₂ := by
  obtain ⟨t, es, o₁, hevents, hfold, rfl⟩ := (parseBlock_eq_ok_iff h).mp hparse
  have hready : ((d.withTrees t).withOutput o₁).Ready := ⟨h.hasBuffer, rfl⟩
  obtain ⟨es', o, htokens, hfold', hend', rfl⟩ := tokens_of_decodeBlock hready hdecode
  rw [output_withOutput _ (current_eq_of_head hevents hfold)] at hfold'
  refine ⟨t, es, es', hevents, htokens, ready_withOutput hready o, rfl, ?_⟩
  rw [List.foldlM_append, hfold, output_withOutput _ hend']
  exact hfold'

/-- The events of a block, taken by the output, are runs of `ParseBlock` and `DecodeBlock`. -/
theorem run_of_events {type fuel : ℕ} {t : Trees} {es es' : List Event} {s₂ : BitStream}
    (h : d.Ready) (hparse : d.trees.parseBlock m s type = some (t, es, s₁))
    (htokens : Tokens t s₁ es' s₂)
    (hfold : (es ++ es').foldlM (Output.write m.bytes) (d.output d.outputPointer) = some o)
    (hfuel : es'.length ≤ fuel) :
    ∃ d₁ d₂, d.parseBlock m s type = .ok (d₁, s₁) ∧
      decodeBlock m fuel d₁ d₁.outputPointer s₁ = .ok (d₂, s₂) ∧ d₂.Ready ∧ d₂.trees = t ∧
        d₂.output d₂.outputPointer = o := by
  rw [List.foldlM_append, Option.bind_eq_bind, Option.bind_eq_some_iff] at hfold
  obtain ⟨o₁, hfold₁, hfold⟩ := hfold
  have hready : ((d.withTrees t).withOutput o₁).Ready := ⟨h.hasBuffer, rfl⟩
  refine ⟨_, _, (parseBlock_eq_ok_iff h).mpr ⟨t, es, o₁, hparse, hfold₁, rfl⟩,
    decodeBlock_of_tokens htokens hready rfl ?_ hfuel, ready_withOutput hready o, rfl,
    output_withOutput _ (current_eq_of_tokens htokens hfold)⟩
  rw [output_withOutput _ (current_eq_of_head hparse hfold₁)]
  exact hfold

/-- When `DecompressStream` gets to its end, the output has taken the events of the stream. -/
theorem streamEvents_of_decompressBlocks {fuel : ℕ} {s' : BitStream} (h : d.Ready)
    (hrun : d.decompressBlocks m fuel n s = .ok (d', s')) :
    ∃ es, StreamEvents m d.trees s es ∧
      es.foldlM (Output.write m.bytes) (d.output d.outputPointer) =
        some (d'.output d'.outputPointer) := by
  induction n generalizing d s with
  | zero => cases hrun
  | succ n ih =>
    rw [decompressBlocks] at hrun
    cases hparse : d.parseBlock m ((s.readBits 1).2.readBits 2).2
        ((s.readBits 1).2.readBits 2).1 with
    | error e =>
      simp only [hparse] at hrun
      cases hrun
    | ok r =>
      obtain ⟨d₁, s₁⟩ := r
      simp only [hparse] at hrun
      cases hdecode : decodeBlock m fuel d₁ d₁.outputPointer s₁ with
      | error e =>
        simp only [bind, Except.bind, hdecode] at hrun
        cases hrun
      | ok r =>
        obtain ⟨d₂, s₂⟩ := r
        simp only [bind, Except.bind, hdecode] at hrun
        obtain ⟨t, es, es', hhead, htokens, hblock⟩ := blockRun_of_run h hparse hdecode
        by_cases hfinal : (s.readBits 1).1 ≠ 0
        · rw [if_pos hfinal] at hrun
          obtain ⟨rfl, rfl⟩ := Prod.mk.inj (Except.ok.inj hrun)
          exact ⟨es ++ es', .final hfinal hhead htokens, hblock.fold⟩
        · rw [if_neg hfinal] at hrun
          obtain ⟨es'', hevents, hfold⟩ := ih hblock.ready hrun
          rw [hblock.trees] at hevents
          refine ⟨_, .more (not_not.mp hfinal) hhead htokens hevents, ?_⟩
          rw [← List.append_assoc, List.foldlM_append, hblock.fold]
          exact hfold

/-- The events of a stream, taken by the output, are a run of `DecompressStream`. -/
theorem decompressBlocks_of_streamEvents {t : Trees} {fuel : ℕ} {es : List Event}
    (hevents : StreamEvents m t s es) (h : d.Ready) (ht : d.trees = t)
    (hfold : es.foldlM (Output.write m.bytes) (d.output d.outputPointer) = some o)
    (hfuel : es.length ≤ fuel) (hn : es.length ≤ n) :
    ∃ d' s', d.decompressBlocks m fuel n s = .ok (d', s') ∧ d'.output d'.outputPointer = o := by
  induction hevents generalizing d n with
  | @final t t' s s' s'' es es' hfinal hparse htokens =>
    subst ht
    rw [List.length_append] at hfuel hn
    have hpos := length_pos_of_tokens htokens
    obtain ⟨n, rfl⟩ := Nat.exists_eq_succ_of_ne_zero (show n ≠ 0 by omega)
    obtain ⟨d₁, d₂, hhead, hdecode, -, -, hout⟩ := run_of_events h hparse htokens hfold
      (show es'.length ≤ fuel by omega)
    refine ⟨d₂, s'', ?_, hout⟩
    rw [decompressBlocks]
    simp only [hhead, bind, Except.bind, hdecode, if_pos hfinal]
  | @more t t' s s' s'' es es' es'' hfinal hparse htokens _ ih =>
    subst ht
    rw [List.length_append, List.length_append] at hfuel hn
    have hpos := length_pos_of_tokens htokens
    obtain ⟨n, rfl⟩ := Nat.exists_eq_succ_of_ne_zero (show n ≠ 0 by omega)
    rw [← List.append_assoc, List.foldlM_append, Option.bind_eq_bind,
      Option.bind_eq_some_iff] at hfold
    obtain ⟨o₁, hblock, hfold⟩ := hfold
    obtain ⟨d₁, d₂, hhead, hdecode, hready, htrees, hout⟩ := run_of_events h hparse htokens hblock
      (show es'.length ≤ fuel by omega)
    rw [← hout] at hfold
    obtain ⟨d', s₁, hrun, hend⟩ := ih hready htrees hfold (by omega) (show es''.length ≤ n by omega)
    refine ⟨d', s₁, ?_, hend⟩
    rw [decompressBlocks]
    simp only [hhead, bind, Except.bind, hdecode]
    rw [if_neg (not_not.mpr hfinal), hrun]

/-! ## `Decompress` -/

/-- The checks of `Decompress` before the first block. -/
def HeaderAccepted (data : List UInt8) : Prop :=
  let (header, stream) := BitStream.readBits (bitsOfBytes data) 16
  header % 2 ^ 4 = 8 ∧ header / 2 ^ 13 % 2 ≠ 1 ∧
    (header % 2 ^ 8 * 2 ^ 8 + header / 2 ^ 8) % 31 = 0 ∧ stream ≠ []

/-- The events of a zlib stream. -/
def EventsOf (m : Memory) (data : List UInt8) (es : List Event) : Prop :=
  HeaderAccepted data ∧
    StreamEvents m ⟨m.tree, m.tree⟩ (BitStream.readBits (bitsOfBytes data) 16).2 es

/-- `Decompress` returns true, and these are the bytes at `DecompressedData`. -/
def Succeeds (m : Memory) (data : List UInt8) (initialSize : ℕ) (out : List UInt8) : Prop :=
  ∃ fuel d, (new m data).decompress m fuel initialSize = .ok d ∧ d.decompressedData = out

theorem decompress_eq_ok_iff {initialSize fuel : ℕ} (m : Memory) (data : List UInt8)
    (hpos : initialSize ≠ 0) :
    (new m data).decompress m fuel initialSize = .ok d' ↔
      HeaderAccepted data ∧ ∃ d s', (start m data initialSize).decompressBlocks m fuel fuel
        (BitStream.readBits (bitsOfBytes data) 16).2 = .ok (d, s') ∧
          d' = { d with outputSize := d.outputPointer } := by
  obtain ⟨⟨header, stream⟩, hread⟩ : ∃ r, BitStream.readBits (bitsOfBytes data) 16 = r := ⟨_, rfl⟩
  have hinput : BitStream.readBits (bitsOfBytes (start m data initialSize).inputData) 16 =
      (header, stream) := hread
  rw [decompress, if_neg hpos, ensureCapacity_new, HeaderAccepted]
  simp only [bind, Except.bind, hinput, hread]
  by_cases hmethod : header % 2 ^ 4 = 8
  · by_cases hdictionary : header / 2 ^ 13 % 2 = 1
    · rw [if_neg (not_not.mpr hmethod), if_pos hdictionary]
      exact iff_of_false (fun h => by cases h) fun h => h.1.2.1 hdictionary
    · by_cases hcheck : (header % 2 ^ 8 * 2 ^ 8 + header / 2 ^ 8) % 31 = 0
      · rw [if_neg (not_not.mpr hmethod), if_neg hdictionary, if_neg (not_not.mpr hcheck)]
        by_cases hend : stream = []
        · rw [if_pos hend]
          exact iff_of_false (fun h => by cases h) fun h => h.1.2.2.2 hend
        · rw [if_neg hend, and_iff_right ⟨hmethod, hdictionary, hcheck, hend⟩, decompressStream]
          cases hrun : (start m data initialSize).decompressBlocks m fuel fuel stream with
          | error e =>
            refine iff_of_false ?_ ?_
            · intro h
              cases e <;> cases h
            · rintro ⟨_, _, h, _⟩
              cases h
          | ok r =>
            obtain ⟨d, s'⟩ := r
            refine ⟨fun h => ⟨d, s', rfl, (Except.ok.inj h).symm⟩, ?_⟩
            rintro ⟨_, _, h, rfl⟩
            obtain ⟨rfl, -⟩ := Prod.mk.inj (Except.ok.inj h)
            rfl
      · rw [if_neg (not_not.mpr hmethod), if_neg hdictionary, if_pos hcheck]
        exact iff_of_false (fun h => by cases h) fun h => hcheck h.1.2.2.1
  · rw [if_pos hmethod]
    exact iff_of_false (fun h => by cases h) fun h => hmethod h.1.1

/-- `Decompress` succeeds exactly if the output takes all events of the stream. -/
theorem succeeds_iff {initialSize : ℕ} {out : List UInt8} {data : List UInt8}
    (hpos : initialSize ≠ 0) :
    Succeeds m data initialSize out ↔ ∃ es o, EventsOf m data es ∧
      es.foldlM (Output.write m.bytes) ⟨m.bytes, initialSize, 0, 0⟩ = some o ∧ o.data = out := by
  have hready : (start m data initialSize).Ready := ⟨rfl, rfl⟩
  constructor
  · rintro ⟨fuel, d', hrun, rfl⟩
    obtain ⟨haccepted, d, s', hblocks, rfl⟩ := (decompress_eq_ok_iff m data hpos).mp hrun
    obtain ⟨es, hevents, hfold⟩ := streamEvents_of_decompressBlocks hready hblocks
    exact ⟨es, _, ⟨haccepted, hevents⟩, hfold, rfl⟩
  · rintro ⟨es, o, ⟨haccepted, hevents⟩, hfold, rfl⟩
    obtain ⟨d, s', hblocks, rfl⟩ := decompressBlocks_of_streamEvents hevents hready rfl hfold
      le_rfl le_rfl
    exact ⟨es.length, _, (decompress_eq_ok_iff m data hpos).mpr ⟨haccepted, d, s', hblocks, rfl⟩,
      rfl⟩

end Decompressor

/-! ## The events are determined by the stream -/

section Determined

variable {m : Memory} {t : Trees} {s s₁ s₂ : BitStream} {es es₁ es₂ : List Event}

theorem Tokens.unique (h : Tokens t s es₁ s₁) (h' : Tokens t s es₂ s₂) : es₁ = es₂ ∧ s₁ = s₂ := by
  induction h generalizing es₂ with
  | last hnext =>
    cases h' with
    | last hnext' =>
      rw [hnext] at hnext'
      exact ⟨rfl, (Prod.mk.inj (Option.some.inj hnext')).2⟩
    | next hnext' hne =>
      rw [hnext] at hnext'
      exact absurd (Prod.mk.inj (Option.some.inj hnext')).1.symm hne
  | next hnext hne _ ih =>
    cases h' with
    | last hnext' =>
      rw [hnext] at hnext'
      exact absurd (Prod.mk.inj (Option.some.inj hnext')).1 hne
    | next hnext' _ hrest =>
      rw [hnext] at hnext'
      obtain ⟨rfl, rfl⟩ := Prod.mk.inj (Option.some.inj hnext')
      obtain ⟨rfl, rfl⟩ := ih hrest
      exact ⟨rfl, rfl⟩

/-- The events of a stream are determined. -/
theorem StreamEvents.unique (h : StreamEvents m t s es₁) (h' : StreamEvents m t s es₂) :
    es₁ = es₂ := by
  induction h generalizing es₂ with
  | final hfinal hparse htokens =>
    cases h' with
    | final _ hparse' htokens' =>
      rw [hparse] at hparse'
      simp only [Option.some.injEq, Prod.mk.injEq] at hparse'
      obtain ⟨rfl, rfl, rfl⟩ := hparse'
      rw [(htokens.unique htokens').1]
    | more hfinal' => exact absurd hfinal' hfinal
  | more hfinal hparse htokens _ ih =>
    cases h' with
    | final hfinal' => exact absurd hfinal hfinal'
    | more _ hparse' htokens' hrest =>
      rw [hparse] at hparse'
      simp only [Option.some.injEq, Prod.mk.injEq] at hparse'
      obtain ⟨rfl, rfl, rfl⟩ := hparse'
      obtain ⟨rfl, rfl⟩ := htokens.unique htokens'
      rw [ih hrest]

end Determined

/-! ## Which events there are -/

/-- A copy comes from before and has at least three bytes, and stored data has at most 65535. -/
def Event.Valid : Event → Prop
  | .copy distance len => 1 ≤ distance ∧ 3 ≤ len
  | .stored data => data.length < 2 ^ 16
  | _ => True

section Valid

variable {m : Memory} {t : Trees} {s s' : BitStream} {e : Event} {es : List Event}

theorem getD_le_readValue (base extraBits : List ℕ) (symbol : ℕ) (s : BitStream) :
    base.getD symbol 0 ≤ (Decompressor.readValue base extraBits symbol s).1 := by
  rw [Decompressor.readValue]
  by_cases hextra : extraBits.getD symbol 0 ≠ 0
  · simp only [if_pos hextra]
    exact Nat.le_add_right _ _
  · simp only [if_neg hextra]
    exact le_rfl

theorem Trees.valid_nextEvent (h : t.nextEvent s = some (e, s')) : e.Valid := by
  have hlengths : ∀ i < 29, 3 ≤ Decompressor.lengthBase.getD i 0 := by decide
  have hdistances : ∀ i < 30, 1 ≤ Decompressor.distBase.getD i 0 := by decide
  rw [Trees.nextEvent] at h
  split at h
  · cases h
  rename_i symbol s₁ hdecode
  by_cases hliteral : symbol < 256
  · rw [if_pos hliteral] at h
    obtain ⟨rfl, -⟩ := Prod.mk.inj (Option.some.inj h)
    trivial
  rw [if_neg hliteral] at h
  by_cases hend : symbol = 256
  · rw [if_pos hend] at h
    obtain ⟨rfl, -⟩ := Prod.mk.inj (Option.some.inj h)
    trivial
  rw [if_neg hend] at h
  by_cases hhi : symbol ≥ 286
  · rw [if_pos hhi] at h
    cases h
  rw [if_neg hhi] at h
  dsimp only at h
  split at h
  · cases h
  rename_i code s₃ hcode
  by_cases hcodehi : code ≥ 30
  · rw [if_pos hcodehi] at h
    cases h
  · rw [if_neg hcodehi] at h
    obtain ⟨rfl, -⟩ := Prod.mk.inj (Option.some.inj h)
    exact ⟨(hdistances code (by omega)).trans (getD_le_readValue _ _ _ _),
      (hlengths (symbol - 257) (by omega)).trans (getD_le_readValue _ _ _ _)⟩

theorem Tokens.valid (h : Tokens t s es s') : ∀ e ∈ es, e.Valid := by
  induction h with
  | last => exact fun e he => List.mem_singleton.mp he ▸ trivial
  | next hnext _ _ ih => exact List.forall_mem_cons.mpr ⟨t.valid_nextEvent hnext, ih⟩

theorem StreamEvents.valid (h : StreamEvents m t s es) : ∀ e ∈ es, e.Valid := by
  have hhead {t t' : Trees} {type : ℕ} {s s' : BitStream} {es : List Event}
      (hparse : t.parseBlock m s type = some (t', es, s')) : ∀ e ∈ es, e.Valid := by
    rcases Decompressor.head_events hparse with rfl | ⟨data, hdata, rfl⟩
    · exact fun e he => absurd he List.not_mem_nil
    · exact fun e he => List.mem_singleton.mp he ▸ hdata
  induction h with
  | final _ hparse htokens =>
    exact List.forall_mem_append.mpr ⟨hhead hparse, htokens.valid⟩
  | more _ hparse htokens _ ih =>
    exact List.forall_mem_append.mpr
      ⟨hhead hparse, List.forall_mem_append.mpr ⟨htokens.valid, ih⟩⟩

end Valid

end Cryptix.ZLib
