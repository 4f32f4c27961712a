import Cryptix.ZLib.Events

/-!
# Growing the output

`EnsureCapacity` does not copy the old buffer into the new one, and `DecodeBlock` goes on at
`m_OutputPointer`, which stays at the start of the block. `new u8[]` gives memory that is zeroed, so
nothing is lost only when the output grows at the start of a block behind zeros. What a stream
stands for is `Event.apply`, which knows of no buffer; an event that makes the output grow elsewhere
makes it `Lossy` for good.

The size that `Decompress` starts with therefore shows in its result, unless no event can do so
(`succeeds_size_iff_settles`).
-/

namespace Cryptix.ZLib

open Lib Decompressor

/-! ## The output without a buffer -/

namespace Event

/-- What an event adds to the output, or `none` if a copy starts in front of it. -/
def apply (out : List UInt8) : Event → Option (List UInt8)
  | .literal byte => some (out ++ [byte])
  | .copy distance len =>
    if out.length < distance then none else some (Deflate.copyBack distance len out)
  | .stored data => some (out ++ data)
  | .endOfBlock => some out

/-- The number of bytes that an event writes. -/
def size : Event → ℕ
  | .literal _ => 1
  | .copy _ len => len
  | .stored data => data.length
  | .endOfBlock => 0

/-- The number of bytes that there has to be more room than, or an event makes the output grow. -/
def need : Event → ℕ
  | .literal _ => 0
  | .copy _ len => len
  | .stored data => data.length
  | .endOfBlock => 0

/-- What `EnsureCapacity` is called with. -/
def count : Event → ℕ
  | .literal _ => 4096
  | .copy _ len => len * 2
  | .stored data => data.length * 2
  | .endOfBlock => 0

/-- The offset of `m_OutputPointer` after an event that leaves the output `out`. -/
def pointer (out : List UInt8) (p : ℕ) : Event → ℕ
  | .literal _ => p
  | .copy _ _ => p
  | .stored _ => out.length
  | .endOfBlock => out.length

/-- Whether an event leaves room behind the output, in every buffer. -/
def spare (spare : Bool) : Event → Bool
  | .literal _ => false
  | .copy _ _ => true
  | .stored data => spare || !data.isEmpty
  | .endOfBlock => spare

/-- An event may come behind `out`, in a block that starts at `p`: from every size from which the
buffer has to grow for it, `EnsureCapacity` comes back, and what is lost is nothing but zeros that
were written before the block. -/
def Harmless (out : List UInt8) (p : ℕ) (spare : Bool) (e : Event) : Prop :=
  e = .endOfBlock ∨ ∀ n > 0, out.length + spare.toNat ≤ n → n ≤ out.length + e.need →
    p = out.length ∧ (∀ b ∈ out, b = 0) ∧ (growTo (p + e.count) 65 n).isSome = true

theorem need_le_size (e : Event) : e.need ≤ e.size := by
  cases e with
  | literal byte => exact Nat.zero_le 1
  | copy distance len => exact le_rfl
  | stored data => exact le_rfl
  | endOfBlock => exact le_rfl

theorem length_apply {e : Event} {out out' : List UInt8} (h : e.apply out = some out') :
    out'.length = out.length + e.size := by
  cases e with
  | literal byte =>
    obtain rfl := Option.some.inj h
    exact List.length_append
  | copy distance len =>
    rw [apply] at h
    split at h
    · cases h
    · obtain rfl := Option.some.inj h
      exact length_copyBack distance len out
  | stored data =>
    obtain rfl := Option.some.inj h
    exact List.length_append
  | endOfBlock =>
    obtain rfl := Option.some.inj h
    rfl

theorem copyBack_prefix (distance len : ℕ) (out : List UInt8) :
    out <+: Deflate.copyBack distance len out := by
  induction len generalizing out with
  | zero => exact List.prefix_rfl
  | succ len ih => exact (List.prefix_append _ _).trans (ih _)

/-- What was written stays in front. -/
theorem prefix_apply {e : Event} {out out' : List UInt8} (h : e.apply out = some out') :
    out <+: out' := by
  cases e with
  | literal byte =>
    obtain rfl := Option.some.inj h
    exact List.prefix_append _ _
  | copy distance len =>
    rw [apply] at h
    split at h
    · cases h
    · obtain rfl := Option.some.inj h
      exact copyBack_prefix distance len out
  | stored data =>
    obtain rfl := Option.some.inj h
    exact List.prefix_append _ _
  | endOfBlock =>
    obtain rfl := Option.some.inj h
    exact List.prefix_rfl

end Event

theorem length_le_of_foldlM_apply {es : List Event} {out out' : List UInt8}
    (h : es.foldlM Event.apply out = some out') : out.length ≤ out'.length := by
  induction es generalizing out with
  | nil => exact (congrArg List.length (Option.some.inj h)).le
  | cons e es ih =>
    obtain ⟨out₁, happly, hrest⟩ := Option.bind_eq_some_iff.mp h
    have hlength := Event.length_apply happly
    have hle := ih hrest
    omega

/-- The events do not make an output grow that has `room` bytes left. -/
def FitsIn : ℕ → List Event → Prop
  | _, [] => True
  | room, e :: es => (e = .endOfBlock ∨ e.need < room) ∧ FitsIn (room - e.size) es

/-- No event that comes behind `out`, in a block that starts at `p`, loses anything, whatever the
size of the buffer is. -/
def Settles : List UInt8 → ℕ → Bool → List Event → Prop
  | _, _, _, [] => True
  | out, p, spare, e :: es =>
    e.Harmless out p spare ∧
      ∀ out', e.apply out = some out' → Settles out' (e.pointer out' p) (e.spare spare) es

/-- Everything fits into a buffer with more room than the output takes. -/
theorem fitsIn_of_foldlM_apply {es : List Event} {out out' : List UInt8} {room : ℕ}
    (h : es.foldlM Event.apply out = some out') (hroom : out'.length < out.length + room) :
    FitsIn room es := by
  induction es generalizing out room with
  | nil => trivial
  | cons e es ih =>
    obtain ⟨out₁, happly, hrest⟩ := Option.bind_eq_some_iff.mp h
    have hlength := Event.length_apply happly
    have hle := length_le_of_foldlM_apply hrest
    have hneed := e.need_le_size
    exact ⟨.inr (by omega), ih hrest (by omega)⟩

/-! ## One write -/

namespace Output

variable {fresh : ℕ → UInt8} {o o₁ o' : Output} {e : Event} {out out' : List UInt8}

/-- The output holds `out`, up to `currentPointer`. -/
structure Faithful (o : Output) (out : List UInt8) : Prop where
  current : o.current = out.length
  holds : Holds o.buffer out

/-- The pointers of an output that has taken the events of `out`, and may have lost some. -/
structure Behind (o : Output) (out : List UInt8) : Prop where
  pointer_le : o.pointer ≤ o.current
  current_le : o.current ≤ out.length

/-- An output `o` that has been made larger. -/
structure Grown (fresh : ℕ → UInt8) (o o₁ : Output) : Prop where
  buffer : o₁.buffer = fresh
  pointer : o₁.pointer = o.pointer
  current : o₁.current = o.pointer

/-- An event that has been written behind `currentPointer`. -/
structure Writes (e : Event) (o o' : Output) : Prop where
  current : o'.current = o.current + e.size
  pointer : o'.pointer = o.pointer ∨ o'.pointer = o'.current
  kept : ∀ i < o.current, o'.buffer i = o.buffer i

theorem storeBytes_of_lt (data : List UInt8) {position i : ℕ} (buffer : ℕ → UInt8)
    (hi : i < position) : storeBytes data position buffer i = buffer i := by
  induction data generalizing position buffer with
  | nil => rfl
  | cons b data ih =>
    rw [storeBytes, ih _ (Nat.lt_succ_of_lt hi), Function.update_of_ne hi.ne]

theorem copyBytes_of_lt {distance src position i : ℕ} (len : ℕ) (buffer : ℕ → UInt8)
    (hi : i < position) : copyBytes distance len src position buffer i = buffer i := by
  induction len generalizing src position buffer with
  | zero => rfl
  | succ len ih => rw [copyBytes, ih _ (Nat.lt_succ_of_lt hi), Function.update_of_ne hi.ne]

theorem storeBytes_holds (data : List UInt8) {buffer : ℕ → UInt8} (h : Holds buffer out) :
    Holds (storeBytes data out.length buffer) (out ++ data) := by
  induction data generalizing buffer out with
  | nil => rwa [List.append_nil]
  | cons b data ih =>
    have hrest := ih (h.push b)
    rw [List.append_assoc, List.singleton_append, List.length_append, List.length_singleton]
      at hrest
    exact hrest

theorem makeRoom_of_lt {len : ℕ} (count : ℕ) (h : o.current + len < o.size) :
    o.makeRoom fresh len count = some o := by
  rw [makeRoom, if_neg (Nat.not_le.mpr h)]

theorem makeRoom_cases {len count : ℕ} (h : o.makeRoom fresh len count = some o₁) :
    o.current + len < o.size ∧ o₁ = o ∨ Grown fresh o o₁ := by
  rw [makeRoom] at h
  split at h
  · obtain ⟨size, -, rfl⟩ := Option.map_eq_some_iff.mp h
    exact .inr ⟨rfl, rfl, rfl⟩
  · exact .inl ⟨Nat.lt_of_not_le ‹_›, (Option.some.inj h).symm⟩

/-- What a write does: the output grows or there is room, and the event is written. -/
theorem write_cases (h : o.write fresh e = some o') :
    ∃ o₁, ((e = .endOfBlock ∨ o.current + e.need < o.size) ∧ o₁ = o ∨ Grown fresh o o₁) ∧
      Writes e o₁ o' := by
  cases e with
  | literal byte =>
    obtain ⟨o₁, hmade, rfl⟩ := Option.map_eq_some_iff.mp h
    refine ⟨o₁, (makeRoom_cases hmade).imp_left fun h => ⟨.inr h.1, h.2⟩, rfl, .inl rfl, ?_⟩
    exact fun i hi => Function.update_of_ne hi.ne _ _
  | copy distance len =>
    rw [write] at h
    split at h
    · cases h
    · obtain ⟨o₁, hmade, rfl⟩ := Option.map_eq_some_iff.mp h
      refine ⟨o₁, (makeRoom_cases hmade).imp_left fun h => ⟨.inr h.1, h.2⟩, rfl, .inl rfl, ?_⟩
      exact fun i hi => copyBytes_of_lt len _ hi
  | stored data =>
    obtain ⟨o₁, hmade, rfl⟩ := Option.map_eq_some_iff.mp h
    refine ⟨o₁, (makeRoom_cases hmade).imp_left fun h => ⟨.inr h.1, h.2⟩, rfl, .inr rfl, ?_⟩
    exact fun i hi => storeBytes_of_lt data _ hi
  | endOfBlock =>
    obtain rfl := Option.some.inj h
    exact ⟨o, .inl ⟨.inl rfl, rfl⟩, rfl, .inr rfl, fun _ _ => rfl⟩

/-- An event in an output that has room for it. -/
def put (o : Output) : Event → Output
  | .literal byte =>
    { o with buffer := Function.update o.buffer o.current byte, current := o.current + 1 }
  | .copy distance len =>
    { o with
      buffer := copyBytes distance len (o.current - distance) o.current o.buffer
      current := o.current + len }
  | .stored data =>
    { o with
      buffer := storeBytes data o.current o.buffer
      pointer := o.current + data.length
      current := o.current + data.length }
  | .endOfBlock => { o with pointer := o.current }

/-- The room that an event asks for. -/
def room (fresh : ℕ → UInt8) (o : Output) : Event → Option Output
  | .endOfBlock => some o
  | e => o.makeRoom fresh e.need e.count

theorem size_put (o : Output) (e : Event) : (o.put e).size = o.size := by
  cases e <;> rfl

theorem room_of_lt (hfits : e = .endOfBlock ∨ o.current + e.need < o.size) :
    o.room fresh e = some o := by
  cases e with
  | endOfBlock => rfl
  | _ => exact makeRoom_of_lt _ (hfits.resolve_left fun h => by cases h)

/-- A write makes room and puts the event there. -/
theorem Faithful.write_eq (h : o.Faithful out) (happly : e.apply out = some out') :
    o.write fresh e = (o.room fresh e).map fun o => o.put e := by
  cases e with
  | copy distance len =>
    rw [Event.apply] at happly
    split at happly
    · cases happly
    · rename_i hback
      rw [Output.write, if_neg (by rw [h.current]; exact hback)]
      rfl
  | _ => rfl

theorem Faithful.put (h : o.Faithful out) (hvalid : e.Valid) (happly : e.apply out = some out') :
    (o.put e).Faithful out' ∧ (o.put e).pointer = e.pointer out' o.pointer := by
  obtain ⟨hcurrent, hholds⟩ := h
  cases e with
  | literal byte =>
    obtain rfl := Option.some.inj happly
    refine ⟨⟨?_, ?_⟩, rfl⟩
    · rw [List.length_append, List.length_singleton, ← hcurrent]
      rfl
    · rw [Output.put, hcurrent]
      exact hholds.push byte
  | copy distance len =>
    rw [Event.apply] at happly
    split at happly
    · cases happly
    · obtain rfl := Option.some.inj happly
      obtain ⟨hpos, -⟩ := hvalid
      have hback : distance ≤ out.length := Nat.le_of_not_lt ‹_›
      refine ⟨⟨?_, ?_⟩, rfl⟩
      · rw [length_copyBack, ← hcurrent]
        rfl
      · rw [Output.put, hcurrent]
        exact copyBytes_holds len hpos hback hholds (by omega) (hholds _ (by omega)) fun _ => rfl
  | stored data =>
    obtain rfl := Option.some.inj happly
    have hlength : o.current + data.length = (out ++ data).length := by
      rw [List.length_append, hcurrent]
    refine ⟨⟨hlength, ?_⟩, hlength⟩
    rw [Output.put, hcurrent]
    exact storeBytes_holds data hholds
  | endOfBlock =>
    obtain rfl := Option.some.inj happly
    exact ⟨⟨hcurrent, hholds⟩, hcurrent⟩

/-- An event that fits is written as it is. -/
theorem Faithful.write (h : o.Faithful out) (hvalid : e.Valid)
    (hfits : e = .endOfBlock ∨ e.need < o.size - o.current) (happly : e.apply out = some out') :
    ∃ o', o.write fresh e = some o' ∧ o'.Faithful out' ∧ o'.size = o.size := by
  refine ⟨o.put e, ?_, (h.put hvalid happly).1, size_put o e⟩
  rw [h.write_eq happly, room_of_lt (hfits.imp_right fun h => by omega), Option.map_some]

theorem Behind.grown (h : o.Behind out) (hgrown : Grown fresh o o₁) : o₁.Behind out := by
  obtain ⟨hpointer, hcurrent⟩ := h
  refine ⟨?_, ?_⟩
  · rw [hgrown.pointer, hgrown.current]
  · rw [hgrown.current]
    exact hpointer.trans hcurrent

theorem Behind.writes (h : o.Behind out) (hwrites : Writes e o o')
    (hlength : out'.length = out.length + e.size) : o'.Behind out' := by
  obtain ⟨hpointer, hcurrent⟩ := h
  have hcurrent' := hwrites.current
  refine ⟨?_, by omega⟩
  rcases hwrites.pointer with hsame | hend <;> omega

/-- A write keeps the output behind, and a copy that is not refused has its bytes in `out`. -/
theorem Behind.write (h : o.Behind out) (hwrite : o.write fresh e = some o') :
    ∃ out', e.apply out = some out' ∧ o'.Behind out' := by
  obtain ⟨out', happly⟩ : ∃ out', e.apply out = some out' := by
    cases e with
    | literal byte => exact ⟨_, rfl⟩
    | copy distance len =>
      rw [Output.write] at hwrite
      split at hwrite
      · cases hwrite
      · have hle := h.current_le
        rw [Event.apply, if_neg (by omega)]
        exact ⟨_, rfl⟩
    | stored data => exact ⟨_, rfl⟩
    | endOfBlock => exact ⟨_, rfl⟩
  refine ⟨out', happly, ?_⟩
  obtain ⟨o₁, rfl | hgrown, hwrites⟩ :
      ∃ o₁, (o₁ = o ∨ Grown fresh o o₁) ∧ Writes e o₁ o' := by
    obtain ⟨o₁, hmade, hwrites⟩ := write_cases hwrite
    exact ⟨o₁, hmade.imp_left And.right, hwrites⟩
  · exact h.writes hwrites (Event.length_apply happly)
  · exact (h.grown hgrown).writes hwrites (Event.length_apply happly)

/-! ## Lost bytes -/

/-- Bytes are missing at the end of the output, or there is a zero in front of the block where
something else was written. -/
def Lossy (o : Output) (out : List UInt8) : Prop :=
  o.current < out.length ∨ ∃ i < o.pointer, o.buffer i = 0 ∧ out.getD i 0 ≠ 0

/-- An output that grows loses what its block has written, and what is not zero. -/
theorem Behind.lossy_of_grown (h : o.Behind out)
    (hlost : ¬(o.pointer = out.length ∧ ∀ b ∈ out, b = 0))
    (hgrown : Grown (fun _ => 0) o o₁) : Lossy o₁ out := by
  have hle := h.pointer_le.trans h.current_le
  rw [Lossy, hgrown.current, hgrown.pointer, hgrown.buffer]
  rcases hle.lt_or_eq with hlt | heq
  · exact .inl hlt
  · refine .inr ?_
    obtain ⟨b, hmem, hb⟩ : ∃ b ∈ out, b ≠ 0 := by
      by_contra hzero
      push Not at hzero
      exact hlost ⟨heq, hzero⟩
    obtain ⟨i, hi, rfl⟩ := List.getElem_of_mem hmem
    exact ⟨i, heq ▸ hi, rfl, by rwa [List.getD_eq_getElem _ _ hi]⟩

theorem Lossy.grown (h : Lossy o out) (hbehind : o.Behind out)
    (hgrown : Grown (fun _ => 0) o o₁) : Lossy o₁ out := by
  rw [Lossy, hgrown.current, hgrown.pointer, hgrown.buffer]
  refine h.imp hbehind.pointer_le.trans_lt ?_
  rintro ⟨i, hi, -, hout⟩
  exact ⟨i, hi, rfl, hout⟩

theorem Lossy.writes (h : Lossy o out) (hbehind : o.Behind out) (hwrites : Writes e o o')
    (happly : e.apply out = some out') : Lossy o' out' := by
  have hcurrent := hwrites.current
  have hlength := Event.length_apply happly
  obtain ⟨hpointer, hle⟩ := hbehind
  rcases h with hshort | ⟨i, hi, hzero, hout⟩
  · exact .inl (by omega)
  · refine .inr ⟨i, ?_, (hwrites.kept i (by omega)).trans hzero, ?_⟩
    · rcases hwrites.pointer with hsame | hend <;> omega
    · obtain ⟨rest, rfl⟩ := Event.prefix_apply happly
      rwa [List.getD_append _ _ _ _ (by omega)]

theorem Lossy.write (h : Lossy o out) (hbehind : o.Behind out)
    (hwrite : o.write (fun _ => 0) e = some o') (happly : e.apply out = some out') :
    Lossy o' out' := by
  obtain ⟨o₁, ⟨-, rfl⟩ | hgrown, hwrites⟩ := write_cases hwrite
  · exact h.writes hbehind hwrites happly
  · exact (h.grown hbehind hgrown).writes (hbehind.grown hgrown) hwrites happly

/-! ## Runs -/

variable {es : List Event}

/-- Events that fit are written as they are. -/
theorem Faithful.foldlM_write (h : o.Faithful out) (hvalid : ∀ e ∈ es, e.Valid)
    (hfits : FitsIn (o.size - o.current) es) (happly : es.foldlM Event.apply out = some out') :
    ∃ o', es.foldlM (Output.write fresh) o = some o' ∧ o'.Faithful out' := by
  induction es generalizing o out with
  | nil =>
    obtain rfl := Option.some.inj happly
    exact ⟨o, rfl, h⟩
  | cons e es ih =>
    obtain ⟨hhead, htail⟩ := List.forall_mem_cons.mp hvalid
    obtain ⟨out₁, happly₁, hrest⟩ := Option.bind_eq_some_iff.mp happly
    obtain ⟨o₁, hwrite, hfaithful, hsize⟩ := @Faithful.write fresh _ _ _ _ h hhead hfits.1 happly₁
    have hroom : FitsIn (o₁.size - o₁.current) es := by
      rw [hsize, hfaithful.current, Event.length_apply happly₁, ← h.current, ← Nat.sub_sub]
      exact hfits.2
    obtain ⟨o', hrun, hend⟩ := ih hfaithful htail hroom hrest
    refine ⟨o', ?_, hend⟩
    rw [List.foldlM_cons, hwrite]
    exact hrun

/-- What the output takes can be taken without a buffer. -/
theorem Behind.foldlM_apply (h : o.Behind out)
    (hrun : es.foldlM (Output.write fresh) o = some o') :
    ∃ out', es.foldlM Event.apply out = some out' := by
  induction es generalizing o out with
  | nil => exact ⟨out, rfl⟩
  | cons e es ih =>
    obtain ⟨o₁, hwrite, hrest⟩ := Option.bind_eq_some_iff.mp hrun
    obtain ⟨out₁, happly, hbehind⟩ := h.write hwrite
    obtain ⟨out', hfold⟩ := ih hbehind hrest
    refine ⟨out', ?_⟩
    rw [List.foldlM_cons, happly]
    exact hfold

theorem Lossy.foldlM_write (h : Lossy o out) (hbehind : o.Behind out)
    (hrun : es.foldlM (Output.write fun _ => 0) o = some o')
    (happly : es.foldlM Event.apply out = some out') : Lossy o' out' := by
  induction es generalizing o out with
  | nil =>
    obtain rfl := Option.some.inj hrun
    obtain rfl := Option.some.inj happly
    exact h
  | cons e es ih =>
    obtain ⟨o₁, hwrite, hrun⟩ := Option.bind_eq_some_iff.mp hrun
    obtain ⟨out₁, happly₁, hrest⟩ := Option.bind_eq_some_iff.mp happly
    obtain ⟨out₂, happly₂, hbehind₁⟩ := hbehind.write hwrite
    obtain rfl : out₁ = out₂ := Option.some.inj (happly₁.symm.trans happly₂)
    exact ih (h.write hbehind hwrite happly₁) hbehind₁ hrun hrest

theorem Faithful.data_eq (h : o.Faithful out) (hend : o.current = o.pointer) : o.data = out := by
  rw [data, ← hend, h.current]
  exact h.holds.map_range

/-- Bytes that are lost show. -/
theorem Lossy.data_ne (h : Lossy o out) (hend : o.current = o.pointer) : o.data ≠ out := by
  rintro rfl
  rcases h with hshort | ⟨i, hi, hzero, hout⟩
  · rw [data, List.length_map, List.length_range] at hshort
    omega
  · refine hout ?_
    rw [← hzero, data, List.getD_eq_getElem _ _ (by simpa using hi), List.getElem_map,
      List.getElem_range]

end Output

/-! ## The sizes that a stream starts with -/

section Start

variable {o o' : Output} {e : Event} {es : List Event} {out out' : List UInt8} {p : ℕ}
  {spare : Bool}

theorem le_of_growTo {needed n newSize size : ℕ} (h : growTo needed n newSize = some size) :
    needed ≤ size := by
  induction n generalizing newSize with
  | zero => cases h
  | succ n ih =>
    rw [growTo] at h
    split at h
    · exact ih h
    · obtain rfl := Option.some.inj h
      exact Nat.le_of_not_lt ‹_›

/-- The output holds `out` in a block that starts at `p`, in one of the sizes it can have. -/
structure Output.Tracks (o : Output) (out : List UInt8) (p : ℕ) (spare : Bool) : Prop where
  faithful : o.Faithful out
  pointer : o.pointer = p
  pointer_le : p ≤ out.length
  room : out.length + spare.toNat ≤ o.size
  pos : 0 < o.size

namespace Output.Tracks

theorem behind (h : o.Tracks out p spare) : o.Behind out :=
  ⟨by rw [h.pointer, h.faithful.current]; exact h.pointer_le, h.faithful.current.le⟩

/-- At an event that is harmless there is room, or the output grows and is still what it was. -/
theorem exists_room (h : o.Tracks out p spare) (hharmless : e.Harmless out p spare) :
    ∃ o₁, o.room (fun _ => 0) e = some o₁ ∧ o₁.Faithful out ∧ o₁.pointer = p ∧
      (o₁ = o ∧ (e = .endOfBlock ∨ out.length + e.need < o.size) ∨
        o.size ≤ out.length + e.need ∧ out.length + e.count ≤ o₁.size ∧
          (out.length + e.count ≤ o.size → o₁.size = o.size)) := by
  have hcurrent := h.faithful.current
  by_cases hfits : e = .endOfBlock ∨ out.length + e.need < o.size
  · exact ⟨o, room_of_lt (by rwa [hcurrent]), h.faithful, h.pointer, .inl ⟨rfl, hfits⟩⟩
  · obtain ⟨hne, hshort⟩ := not_or.mp hfits
    have hsize : o.size ≤ out.length + e.need := Nat.le_of_not_lt hshort
    obtain ⟨rfl, hzero, hgrow⟩ := hharmless.resolve_left hne o.size h.pos h.room hsize
    obtain ⟨size, hsome⟩ := Option.isSome_iff_exists.mp hgrow
    have hroom : o.room (fun _ => 0) e = some ⟨fun _ => 0, size, out.length, out.length⟩ := by
      have hmade : o.makeRoom (fun _ => 0) e.need e.count =
          some ⟨fun _ => 0, size, out.length, out.length⟩ := by
        rw [makeRoom, if_pos (by omega), grow, h.pointer, hsome]
        rfl
      cases e with
      | endOfBlock => exact absurd rfl hne
      | _ => exact hmade
    refine ⟨_, hroom, ⟨rfl, fun i hi => ?_⟩, rfl, .inr ⟨hsize, le_of_growTo hsome, fun hle => ?_⟩⟩
    · rw [List.getD_eq_getElem _ _ hi]
      exact (hzero _ (List.getElem_mem hi)).symm
    · rw [growTo, if_neg (Nat.not_lt.mpr hle)] at hsome
      exact (Option.some.inj hsome).symm

/-- A harmless event is written, and the size stays if it is one of those behind the event. -/
theorem write (h : o.Tracks out p spare) (hvalid : e.Valid) (hharmless : e.Harmless out p spare)
    (happly : e.apply out = some out') :
    ∃ o', o.write (fun _ => 0) e = some o' ∧
      o'.Tracks out' (e.pointer out' p) (e.spare spare) ∧
      (out'.length + (e.spare spare).toNat ≤ o.size → o'.size = o.size) := by
  obtain ⟨o₁, hroom, hfaithful, hpointer, hsize⟩ := h.exists_room hharmless
  obtain ⟨hput, hpointer'⟩ := hfaithful.put hvalid happly
  have hlength := Event.length_apply happly
  have hle := h.pointer_le
  have hspare := h.room
  have hpos := h.pos
  rw [hpointer] at hpointer'
  have hbounds : e.pointer out' p ≤ out'.length ∧
      out'.length + (e.spare spare).toNat ≤ o₁.size ∧ 0 < o₁.size ∧
      (out'.length + (e.spare spare).toNat ≤ o.size → o₁.size = o.size) := by
    cases e with
    | literal byte =>
      simp only [Event.size, Event.need, Event.count, Event.pointer, Event.spare,
        Bool.toNat_false, reduceCtorEq, false_or] at hlength hsize ⊢
      rcases hsize with ⟨rfl, hfits⟩ | ⟨hshort, hgrown, hsame⟩ <;> omega
    | copy distance len =>
      have hlen : 3 ≤ len := hvalid.2
      simp only [Event.size, Event.need, Event.count, Event.pointer, Event.spare,
        Bool.toNat_true, reduceCtorEq, false_or] at hlength hsize ⊢
      rcases hsize with ⟨rfl, hfits⟩ | ⟨hshort, hgrown, hsame⟩ <;> omega
    | stored data =>
      simp only [Event.size, Event.need, Event.count, Event.pointer, Event.spare,
        reduceCtorEq, false_or] at hlength hsize ⊢
      cases data with
      | nil =>
        simp only [List.length_nil, List.isEmpty_nil, Bool.not_true, Bool.or_false] at *
        rcases hsize with ⟨rfl, hfits⟩ | ⟨hshort, hgrown, hsame⟩ <;> omega
      | cons b data =>
        simp only [List.length_cons, List.isEmpty_cons, Bool.not_false, Bool.or_true,
          Bool.toNat_true] at *
        rcases hsize with ⟨rfl, hfits⟩ | ⟨hshort, hgrown, hsame⟩ <;> omega
    | endOfBlock =>
      simp only [Event.size, Event.need, Event.count, Event.pointer, Event.spare] at hlength hsize ⊢
      rcases hsize with ⟨rfl, -⟩ | ⟨hshort, hgrown, hsame⟩ <;> omega
  obtain ⟨hp, hroom', hpos', hkept⟩ := hbounds
  refine ⟨o₁.put e, ?_, ⟨hput, hpointer', hp, ?_, ?_⟩, ?_⟩
  · rw [h.faithful.write_eq happly, hroom, Option.map_some]
  · rwa [size_put]
  · rwa [size_put]
  · rwa [size_put]

/-- Events that settle are taken from every size on. -/
theorem foldlM_write (h : o.Tracks out p spare) (hvalid : ∀ e ∈ es, e.Valid)
    (hsettles : Settles out p spare es) (happly : es.foldlM Event.apply out = some out') :
    ∃ o', es.foldlM (Output.write fun _ => 0) o = some o' ∧ o'.Faithful out' := by
  induction es generalizing o out p spare with
  | nil =>
    obtain rfl := Option.some.inj happly
    exact ⟨o, rfl, h.faithful⟩
  | cons e es ih =>
    obtain ⟨hhead, htail⟩ := List.forall_mem_cons.mp hvalid
    obtain ⟨out₁, happly₁, hrest⟩ := Option.bind_eq_some_iff.mp happly
    obtain ⟨o₁, hwrite, htracks, -⟩ := h.write hhead hsettles.1 happly₁
    obtain ⟨o', hrun, hend⟩ := ih htracks htail (hsettles.2 out₁ happly₁) hrest
    refine ⟨o', ?_, hend⟩
    rw [List.foldlM_cons, hwrite]
    exact hrun

/-- An event that is not harmless makes an output of some size lossy, if it takes the event. -/
theorem lossy_of_not_harmless (h : o.Tracks out p spare) (hne : e ≠ .endOfBlock)
    (hsize : o.size ≤ out.length + e.need)
    (hlost : ¬(p = out.length ∧ (∀ b ∈ out, b = 0) ∧
      (growTo (p + e.count) 65 o.size).isSome = true))
    (hwrite : o.write (fun _ => 0) e = some o') (happly : e.apply out = some out') :
    Lossy o' out' := by
  have hcurrent := h.faithful.current
  obtain ⟨o₁, hmade, hwrites⟩ := write_cases hwrite
  have hgrown : Grown (fun _ => 0) o o₁ := by
    refine hmade.resolve_left fun hfits => ?_
    rcases hfits.1 with heq | hlt
    · exact hne heq
    · omega
  have hgrows : (growTo (p + e.count) 65 o.size).isSome = true := by
    rw [h.faithful.write_eq happly, Option.map_eq_some_iff] at hwrite
    obtain ⟨o₂, hroom, -⟩ := hwrite
    have hmakes : o.makeRoom (fun _ => 0) e.need e.count = some o₂ := by
      cases e with
      | endOfBlock => exact absurd rfl hne
      | _ => exact hroom
    rw [makeRoom, if_pos (by omega), grow, h.pointer] at hmakes
    obtain ⟨size, hsome, -⟩ := Option.map_eq_some_iff.mp hmakes
    rw [hsome]
    rfl
  have hlossy := h.behind.lossy_of_grown
    (fun hzero => hlost ⟨h.pointer ▸ hzero.1, hzero.2, hgrows⟩) hgrown
  exact hlossy.writes (h.behind.grown hgrown) hwrites happly

/-- Events that do not settle lose bytes from some size on which they are taken up to there. -/
theorem exists_lossy (hle : p ≤ out.length) (hvalid : ∀ e ∈ es, e.Valid)
    (hsettles : ¬Settles out p spare es) (happly : es.foldlM Event.apply out = some out') :
    ∃ n > 0, out.length + spare.toNat ≤ n ∧ ∀ o o' : Output, o.Tracks out p spare → o.size = n →
      es.foldlM (Output.write fun _ => 0) o = some o' → Lossy o' out' := by
  induction es generalizing out p spare with
  | nil => exact absurd trivial hsettles
  | cons e es ih =>
    obtain ⟨hhead, htail⟩ := List.forall_mem_cons.mp hvalid
    obtain ⟨out₁, happly₁, hrest⟩ := Option.bind_eq_some_iff.mp happly
    by_cases hharmless : e.Harmless out p spare
    · have hnext : ¬Settles out₁ (e.pointer out₁ p) (e.spare spare) es := by
        refine fun hnext => hsettles ⟨hharmless, fun out₂ happly₂ => ?_⟩
        obtain rfl := Option.some.inj (happly₁.symm.trans happly₂)
        exact hnext
      have hlength := Event.length_apply happly₁
      have hpointer : e.pointer out₁ p ≤ out₁.length := by
        cases e with
        | literal byte => exact hle.trans (by omega)
        | copy distance len => exact hle.trans (by omega)
        | stored data => exact le_rfl
        | endOfBlock => exact le_rfl
      obtain ⟨n, hpos, hn, hlossy⟩ := ih hpointer htail hnext hrest
      have hn' : out.length + spare.toNat ≤ n := by
        have hspare := Bool.toNat_le spare
        cases e with
        | literal byte =>
          simp only [Event.size, Event.spare, Bool.toNat_false] at hlength hn
          omega
        | copy distance len =>
          have hlen : 3 ≤ len := hhead.2
          simp only [Event.size, Event.spare, Bool.toNat_true] at hlength hn
          omega
        | stored data =>
          cases data with
          | nil => simpa [Event.size, Event.spare, hlength] using hn
          | cons b data =>
            simp only [Event.size, List.length_cons] at hlength
            omega
        | endOfBlock => simpa [Event.size, Event.spare, hlength] using hn
      refine ⟨n, hpos, hn', fun o o' htracks hsize hrun => ?_⟩
      obtain ⟨o₁, hwrite, htracks₁, hkept⟩ := htracks.write hhead hharmless happly₁
      rw [List.foldlM_cons, hwrite] at hrun
      exact hlossy o₁ o' htracks₁ ((hkept (by rwa [hsize])).trans hsize) hrun
    · -- the smallest size at which something goes wrong
      obtain ⟨hne, hbad⟩ := not_or.mp hharmless
      push Not at hbad
      obtain ⟨n, hpos, hn, hshort, hlost⟩ := hbad
      refine ⟨n, hpos, hn, fun o o' htracks hsize hrun => ?_⟩
      obtain ⟨o₁, hwrite, hrun⟩ := Option.bind_eq_some_iff.mp hrun
      obtain ⟨out₂, happly₂, hbehind⟩ := htracks.behind.write hwrite
      obtain rfl : out₁ = out₂ := Option.some.inj (happly₁.symm.trans happly₂)
      have hlossy := htracks.lossy_of_not_harmless hne (hsize ▸ hshort)
        (fun hall => by
          rw [hsize] at hall
          exact hlost hall.1 hall.2.1 hall.2.2) hwrite happly₁
      exact hlossy.foldlM_write hbehind hrun hrest

/-- An output of `a` bytes before the first event. -/
theorem start (fresh : ℕ → UInt8) {a : ℕ} (ha : 0 < a) :
    Output.Tracks ⟨fresh, a, 0, 0⟩ [] 0 false :=
  ⟨⟨rfl, fun i hi => absurd hi (Nat.not_lt_zero i)⟩, rfl, le_rfl, Nat.zero_le _, ha⟩

end Output.Tracks

end Start

/-! ## The events do not depend on the buffers -/

section Bytes

variable {m m' : Memory} {t : Trees} {s : BitStream} {es : List Event}

theorem readCodeLengths_congr (hlength : m.codeLength = m'.codeLength) (tree : HuffmanTree)
    (total n : ℕ) (lengths : List ℕ) (s : BitStream) :
    readCodeLengths m tree total n lengths s = readCodeLengths m' tree total n lengths s := by
  induction n generalizing lengths s with
  | zero => rfl
  | succ n ih => simp only [readCodeLengths, hlength, ih]

theorem Trees.parseBlock_congr (htree : m.tree = m'.tree) (hlength : m.codeLength = m'.codeLength)
    (t : Trees) (s : BitStream) (type : ℕ) : t.parseBlock m s type = t.parseBlock m' s type := by
  rcases type with _ | _ | _ | n
  · rfl
  · rfl
  · simp only [Trees.parseBlock, decodeCanonicalCodes, htree, readCodeLengths_congr hlength]
  · rfl

theorem StreamEvents.congr
    (hparse : ∀ t s type, Trees.parseBlock m t s type = t.parseBlock m' s type)
    (h : StreamEvents m t s es) : StreamEvents m' t s es := by
  induction h with
  | final hfinal hhead htokens => exact .final hfinal (hparse .. ▸ hhead) htokens
  | more hfinal hhead htokens _ ih => exact .more hfinal (hparse .. ▸ hhead) htokens ih

theorem eventsOf_withBytes {data : List UInt8} (bytes : ℕ → UInt8) :
    EventsOf { m with bytes } data es ↔ EventsOf m data es :=
  and_congr_right fun _ =>
    ⟨StreamEvents.congr (Trees.parseBlock_congr rfl rfl),
      StreamEvents.congr (Trees.parseBlock_congr rfl rfl)⟩

end Bytes

/-! ## The result and the size -/

theorem current_eq_of_streamEvents {m : Memory} {t : Trees} {s : BitStream} {es : List Event}
    (h : StreamEvents m t s es) {fresh : ℕ → UInt8} {o o' : Output}
    (hrun : es.foldlM (Output.write fresh) o = some o') : o'.current = o'.pointer := by
  induction h generalizing o with
  | final _ _ htokens =>
    rw [List.foldlM_append] at hrun
    obtain ⟨o₁, -, hrun⟩ := Option.bind_eq_some_iff.mp hrun
    exact current_eq_of_tokens htokens hrun
  | more _ _ _ _ ih =>
    rw [← List.append_assoc, List.foldlM_append] at hrun
    obtain ⟨o₁, -, hrun⟩ := Option.bind_eq_some_iff.mp hrun
    exact ih hrun

section Sizes

variable {m : Memory} {data out : List UInt8} {es : List Event} {a : ℕ}

/-- What succeeds from some size is a stream that stands for something. -/
theorem exists_apply_of_succeeds (ha : 0 < a) (h : Succeeds m data a out) :
    ∃ es out', EventsOf m data es ∧ es.foldlM Event.apply [] = some out' := by
  obtain ⟨es, o, hevents, hrun, -⟩ := (succeeds_iff ha.ne').mp h
  have hbehind : Output.Behind ⟨m.bytes, a, 0, 0⟩ [] := ⟨le_rfl, le_rfl⟩
  obtain ⟨out', happly⟩ := hbehind.foldlM_apply hrun
  exact ⟨es, out', hevents, happly⟩

/-- A stream whose events settle gives what it stands for from every size, and nothing else. -/
theorem succeeds_iff_of_settles (hzero : m.bytes = fun _ => 0) (ha : 0 < a)
    (hevents : EventsOf m data es) (happly : es.foldlM Event.apply [] = some out)
    (hsettles : Settles [] 0 false es) (out' : List UInt8) :
    Succeeds m data a out' ↔ out' = out := by
  obtain ⟨o, hrun, hfaithful⟩ := (Output.Tracks.start m.bytes ha).foldlM_write
    hevents.2.valid hsettles happly
  rw [← hzero] at hrun
  have hdata := hfaithful.data_eq (current_eq_of_streamEvents hevents.2 hrun)
  rw [succeeds_iff ha.ne']
  constructor
  · rintro ⟨es', o', hevents', hrun', rfl⟩
    obtain rfl := hevents.2.unique hevents'.2
    obtain rfl := Option.some.inj (hrun.symm.trans hrun')
    exact hdata
  · rintro rfl
    exact ⟨es, o, hevents, hrun, hdata⟩

/-- With more room than the output takes, a stream gives what it stands for. -/
theorem succeeds_of_room (hevents : EventsOf m data es)
    (happly : es.foldlM Event.apply [] = some out) (ha : out.length < a) :
    Succeeds m data a out := by
  have hstart := Output.Tracks.start m.bytes (Nat.zero_lt_of_lt ha)
  have hfits : FitsIn a es := fitsIn_of_foldlM_apply happly (by simpa using ha)
  obtain ⟨o, hrun, hfaithful⟩ := @Output.Faithful.foldlM_write m.bytes _ _ _ _ hstart.faithful
    hevents.2.valid hfits happly
  exact (succeeds_iff (Nat.ne_zero_of_lt ha)).mpr ⟨es, o, hevents, hrun,
    hfaithful.data_eq (current_eq_of_streamEvents hevents.2 hrun)⟩

/-- With zeroed memory for every new buffer, the result does not depend on the size that the buffer
has at first if and only if the events of the stream settle. -/
theorem succeeds_size_iff_settles (m : Memory) (data : List UInt8) :
    (∀ a b : ℕ, 0 < a → 0 < b → ∀ out, Succeeds { m with bytes := fun _ => 0 } data a out →
      Succeeds { m with bytes := fun _ => 0 } data b out) ↔
    ∀ es out, EventsOf m data es → es.foldlM Event.apply [] = some out → Settles [] 0 false es := by
  constructor
  · intro h es out hevents happly
    by_contra hsettles
    obtain ⟨n, hpos, -, hlossy⟩ :=
      Output.Tracks.exists_lossy (Nat.zero_le 0) hevents.2.valid hsettles happly
    have hevents := (eventsOf_withBytes fun _ => 0).mpr hevents
    have hlarge := succeeds_of_room hevents happly (Nat.lt_succ_self out.length)
    obtain ⟨es', o, hevents', hrun, hdata⟩ :=
      (succeeds_iff hpos.ne').mp (h _ n (Nat.succ_pos _) hpos out hlarge)
    obtain rfl := hevents.2.unique hevents'.2
    exact (hlossy _ o (.start _ hpos) rfl hrun).data_ne
      (current_eq_of_streamEvents hevents.2 hrun) hdata
  · intro h a b ha hb out hsucceeds
    obtain ⟨es, out', hevents, happly⟩ := exists_apply_of_succeeds ha hsucceeds
    have hsettles := h es out' ((eventsOf_withBytes fun _ => 0).mp hevents) happly
    rw [succeeds_iff_of_settles rfl ha hevents happly hsettles] at hsucceeds
    rwa [succeeds_iff_of_settles rfl hb hevents happly hsettles]

end Sizes

/-! ## Two letters -/

section TwoLetters

variable {codes : Deflate.Codes} {d : Decompressor}

theorem Decompressor.HasTrees.nextEvent_literal (h : HasTrees codes d) {byte : UInt8}
    (hbyte : CanonicalCode.lengthOf codes.literal byte.toNat ≠ 0) (rest : BitStream) :
    d.trees.nextEvent (CanonicalCode.codeword codes.literal byte.toNat ++ rest) =
      some (.literal byte, rest) := by
  rw [Trees.nextEvent, trees]
  simp only [h.decode_literal hbyte, if_pos byte.toNat_lt, UInt8.ofNat_toNat]

theorem Decompressor.HasTrees.nextEvent_end (h : HasTrees codes d) (rest : BitStream) :
    d.trees.nextEvent (CanonicalCode.codeword codes.literal 256 ++ rest) =
      some (.endOfBlock, rest) := by
  rw [Trees.nextEvent, trees]
  simp only [h.decode_literal h.valid.endOfBlock]
  rfl

theorem Trees.parseBlock_fixed (m : Memory) (t : Trees) (s : BitStream) :
    ∃ t', t.parseBlock m s 1 = some (t', [], s) ∧ HasTrees Deflate.fixedCodes t'.carrier := by
  obtain ⟨tree, tree', hbuild, htrees⟩ :=
    t.carrier.buildTrees_of_valid Deflate.fixedCodes_valid
  have hdefault : t.carrier.buildTrees defaultLengths defaultDistances =
      t.carrier.buildTrees Deflate.fixedCodes.literal Deflate.fixedCodes.distance := rfl
  refine ⟨⟨tree, tree'⟩, ?_, htrees⟩
  unfold Trees.parseBlock
  rw [hdefault, hbuild]
  rfl

/-- The letters `a` and `b` in a block with fixed codes. -/
def twoLetters : ZLibStream where
  cmf := 0x78
  flg := 0x9c
  blocks := [.fixed [.literal 97, .literal 98]]
  body := [0x4b, 0x4c, 0x02, 0x00]
  padding := [false, false, false, false, false, false]
  deflate := Decompressor.repeatedLetter.deflate
  window_le := Decompressor.repeatedLetter.window_le
  no_dictionary := Decompressor.repeatedLetter.no_dictionary
  check := Decompressor.repeatedLetter.check
  blocks_ne := by decide
  valid := ⟨show Deflate.TokensValid _ _ _ by decide +kernel, trivial⟩
  bits_eq := by decide +kernel
  padding_lt := by decide

/-- The events of a stream that is one block with fixed codes. -/
theorem streamEvents_fixed (m : Memory) (t : Trees) (s : BitStream) :
    ∃ t', HasTrees Deflate.fixedCodes t'.carrier ∧
      ∀ es rest, Tokens t' s es rest → StreamEvents m t (true :: true :: false :: s) es := by
  obtain ⟨t', hparse, htrees⟩ := t.parseBlock_fixed m s
  exact ⟨t', htrees, fun es rest htokens =>
    @StreamEvents.final m t t' _ _ rest [] es Nat.one_ne_zero hparse htokens⟩

theorem eventsOf_twoLetters (m : Memory) :
    EventsOf m twoLetters.bytes [.literal 97, .literal 98, .endOfBlock] := by
  let word (symbol : ℕ) : List Bool := CanonicalCode.codeword Deflate.fixedCodes.literal symbol
  have hread : BitStream.readBits (bitsOfBytes twoLetters.bytes) 16 =
      (0x9c78, true :: true :: false :: (word (97 : UInt8).toNat ++ (word (98 : UInt8).toNat ++
        (word 256 ++ trailer twoLetters)))) := by
    decide +kernel
  refine ⟨by unfold HeaderAccepted; decide +kernel, ?_⟩
  rw [hread]
  obtain ⟨t', htrees, hstream⟩ := streamEvents_fixed m ⟨m.tree, m.tree⟩
    (word (97 : UInt8).toNat ++ (word (98 : UInt8).toNat ++ (word 256 ++ trailer twoLetters)))
  refine hstream _ (trailer twoLetters) ?_
  exact .next (htrees.nextEvent_literal (by decide +kernel) _) nofun
    (.next (htrees.nextEvent_literal (by decide +kernel) _) nofun
      (.last (htrees.nextEvent_end _)))

/-- With a buffer of one byte, the second letter takes the place of the first. -/
theorem not_succeeds_size : ¬∀ a b : ℕ, 0 < a → 0 < b → ∀ out,
    Succeeds zeroMemory twoLetters.bytes a out → Succeeds zeroMemory twoLetters.bytes b out := by
  intro h
  have hevents := eventsOf_twoLetters zeroMemory
  have hlarge : Succeeds zeroMemory twoLetters.bytes 3 [97, 98] :=
    succeeds_of_room hevents rfl (by decide)
  have hsmall := h 3 1 (by decide) (by decide) _ hlarge
  obtain ⟨es, o, hevents', hrun, hdata⟩ := (succeeds_iff (by decide)).mp hsmall
  obtain rfl := hevents.2.unique hevents'.2
  obtain rfl := Option.some.inj hrun
  exact absurd hdata (by decide)

end TwoLetters

end Cryptix.ZLib
