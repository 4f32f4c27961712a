import Cryptix.Memory.BitmapAllocator

/-!
# The bytes of a file in memory

`Read`, `Write`, `Truncate` and `ResizeBuffer` of `Kernel/VFS/SynthFsINode.cpp` on a regular file.
The size of the file is the size of its buffer, and `Write` doubles that until the bytes fit. Next
to it stands the file as a list of bytes (`FileCall.after`). A run of calls does what the list does
exactly when no call writes up to a size that doubling does not hit, and none reads behind the end
(`behavesAsArray_iff`).

Prism's `Buffer` is a parameter. What is relied on is that it holds a list of bytes, and that a
buffer that grows is filled with zeros. The time stamps are left out, and so are the pointers, which
the callers check.
-/

namespace Cryptix.VFS

/-- A list of bytes that has grown to a size. -/
def extendTo (l : List UInt8) (size : ℕ) : List UInt8 :=
  l ++ List.replicate (size - l.length) 0

/-- A list of bytes with new ones put over those from an offset on. -/
def splice (l : List UInt8) (offset : ℕ) (data : List UInt8) : List UInt8 :=
  l.take offset ++ data ++ l.drop (offset + data.length)

@[simp] theorem length_extendTo (l : List UInt8) (size : ℕ) :
    (extendTo l size).length = max l.length size := by
  simp only [extendTo, List.length_append, List.length_replicate]
  omega

theorem length_splice {l : List UInt8} {offset : ℕ} {data : List UInt8}
    (h : offset + data.length ≤ l.length) : (splice l offset data).length = l.length := by
  simp only [splice, List.length_append, List.length_take, List.length_drop]
  omega

theorem extendTo_max (l : List UInt8) (size : ℕ) :
    extendTo l (max l.length size) = extendTo l size := by
  rw [extendTo, extendTo, show max l.length size - l.length = size - l.length by omega]

/-- The operations of Prism's `Buffer` that an inode uses, with the bytes a buffer holds. -/
structure PrismBuffer (B : Type*) where
  contents : B → List UInt8
  size : B → ℕ
  resize : B → ℕ → B
  shrinkToFit : B → B
  read : B → ℕ → ℕ → List UInt8
  write : B → ℕ → List UInt8 → B

/-- What is relied on in a `Buffer`. -/
structure PrismBuffer.Lawful {B : Type*} (V : PrismBuffer B) : Prop where
  size_eq : ∀ b, V.size b = (V.contents b).length
  contents_resize : ∀ b n, V.contents (V.resize b n) = (extendTo (V.contents b) n).take n
  contents_shrinkToFit : ∀ b, V.contents (V.shrinkToFit b) = V.contents b
  read_eq : ∀ b offset n, offset + n ≤ V.size b →
    V.read b offset n = ((V.contents b).drop offset).take n
  read_zero : ∀ b offset, V.read b offset 0 = []
  contents_write : ∀ b offset data, offset + data.length ≤ V.size b →
    V.contents (V.write b offset data) = splice (V.contents b) offset data

/-! ## The capacity -/

/-- The loop of `Write` that doubles the capacity, for a number of rounds. -/
def growCapacity (need : ℕ) : ℕ → ℕ → Option ℕ
  | 0, _ => none
  | rounds + 1, capacity =>
    if need ≤ capacity then some capacity
    else growCapacity need rounds (capacity * 2 % wordCount)

/-- The capacity the loop ends with. After 64 rounds the capacity is zero, and stays zero: a loop
that has not ended until then does not end (`growCapacity_eq_none`). -/
def newCapacity (need capacity : ℕ) : Option ℕ := growCapacity need 65 capacity

/-- Doubling a capacity comes to `capacity`, which is the first that is enough. -/
theorem growCapacity_eq_some_iff {need rounds start capacity : ℕ} (hstart : start < wordCount) :
    growCapacity need rounds start = some capacity ↔
      ∃ j < rounds, start * 2 ^ j % wordCount = capacity ∧ need ≤ capacity ∧
        ∀ i < j, start * 2 ^ i % wordCount < need := by
  induction rounds generalizing start with
  | zero => simp [growCapacity]
  | succ rounds ih =>
    rw [growCapacity]
    by_cases hneed : need ≤ start
    · rw [if_pos hneed, Option.some.injEq]
      constructor
      · rintro rfl
        exact ⟨0, by omega, by simp [Nat.mod_eq_of_lt hstart], hneed, by simp⟩
      · rintro ⟨j, -, rfl, -, hbefore⟩
        cases j with
        | zero => simp [Nat.mod_eq_of_lt hstart]
        | succ j =>
          have := hbefore 0 (by omega)
          rw [pow_zero, Nat.mul_one, Nat.mod_eq_of_lt hstart] at this
          omega
    · have hdouble : ∀ i, start * 2 % wordCount * 2 ^ i % wordCount
          = start * 2 ^ (i + 1) % wordCount := by
        intro i
        rw [Nat.mod_mul_mod, pow_succ', Nat.mul_assoc]
      rw [if_neg hneed, ih (Nat.mod_lt _ (by decide))]
      simp only [hdouble]
      constructor
      · rintro ⟨j, hj, hcap, hle, hbefore⟩
        refine ⟨j + 1, by omega, hcap, hle, fun i hi => ?_⟩
        cases i with
        | zero => simpa [Nat.mod_eq_of_lt hstart] using hneed
        | succ i => exact hbefore i (by omega)
      · rintro ⟨j, hj, hcap, hle, hbefore⟩
        cases j with
        | zero =>
          rw [pow_zero, Nat.mul_one, Nat.mod_eq_of_lt hstart] at hcap
          omega
        | succ j => exact ⟨j, by omega, hcap, hle, fun i hi => hbefore (i + 1) (by omega)⟩

theorem doubled_eq_zero (start : ℕ) {j : ℕ} (h : 64 ≤ j) : start * 2 ^ j % wordCount = 0 := by
  rw [show j = 64 + (j - 64) by omega, pow_add, ← Nat.mul_assoc, Nat.mul_right_comm, wordCount]
  exact Nat.mul_mod_left _ _

/-- A loop that `newCapacity` gives up never ends. -/
theorem growCapacity_eq_none {need start : ℕ} (hstart : start < wordCount)
    (h : newCapacity need start = none) (rounds : ℕ) : growCapacity need rounds start = none := by
  by_contra hsome
  obtain ⟨capacity, hcap⟩ := Option.ne_none_iff_exists'.mp hsome
  obtain ⟨j, -, hj, hle, hbefore⟩ := (growCapacity_eq_some_iff hstart).mp hcap
  by_cases hlt : j < 65
  · have := (growCapacity_eq_some_iff hstart).mpr ⟨j, hlt, hj, hle, hbefore⟩
    rw [newCapacity] at h
    simp [h] at this
  · have hzero := doubled_eq_zero start (by omega : 64 ≤ j)
    have := hbefore 0 (by omega)
    omega

/-- A page is not doubled to more than half of the words. -/
example : newCapacity (2 ^ 63 + 1) 4096 = none := by decide

/-- Doubling a capacity comes to `need` and to nothing greater before. -/
def Hits (start need : ℕ) : Prop :=
  ∃ j, start * 2 ^ j % wordCount = need ∧ ∀ i < j, start * 2 ^ i % wordCount < need

theorem newCapacity_eq_self_iff {need start : ℕ} (hstart : start < wordCount) :
    newCapacity need start = some need ↔ Hits start need := by
  rw [newCapacity, growCapacity_eq_some_iff hstart]
  constructor
  · rintro ⟨j, -, hj, -, hbefore⟩
    exact ⟨j, hj, hbefore⟩
  · rintro ⟨j, hj, hbefore⟩
    refine ⟨j, ?_, hj, le_rfl, hbefore⟩
    by_contra hge
    have hlt := hbefore 64 (by omega)
    have hzero := doubled_eq_zero start (by omega : 64 ≤ j)
    omega

theorem newCapacity_of_le {need start : ℕ} (h : need ≤ start) :
    newCapacity need start = some start := by
  rw [newCapacity, growCapacity, if_pos h]

/-! ## The calls -/

/-- The fields of a `SynthFsINode` that belong to the bytes of a regular file. -/
structure SynthFsFile (B : Type*) where
  buffer : B
  size : ℕ
  blockCount : ℕ
  deriving DecidableEq, Repr

namespace SynthFsFile

variable {B : Type*} (V : PrismBuffer B) (f : SynthFsFile B)

/-- `SynthFsINode::ResizeBuffer`. -/
def resizeBuffer (newSize : ℕ) : SynthFsFile B where
  buffer := V.resize f.buffer newSize
  size := V.size (V.resize f.buffer newSize)
  blockCount := Prism.divRoundUp newSize 512

/-- `SynthFsINode::Read`: what it returns, and what it puts into the buffer of its caller. -/
def read (offset bytes : ℕ) : ℤ × List UInt8 :=
  (toISize (min bytes (wordSub (V.size f.buffer) offset)),
    V.read f.buffer offset (min bytes (wordSub (V.size f.buffer) offset)))

/-- The capacity `Write` starts with. -/
def startCapacity (size : ℕ) : ℕ := if size = 0 then Memory.PMM.pageSize else size

/-- `SynthFsINode::Write`, `none` if it does not return. -/
def write (offset : ℕ) (data : List UInt8) : Option (SynthFsFile B × ℤ) :=
  (newCapacity ((offset + data.length) % wordCount) (startCapacity (V.size f.buffer))).map
    fun capacity =>
      ({ f.resizeBuffer V capacity with
          buffer := V.write (f.resizeBuffer V capacity).buffer offset data },
        toISize data.length)

/-- `SynthFsINode::Truncate`. -/
def truncate (size : ℕ) : SynthFsFile B :=
  if size = V.size f.buffer then f
  else { f.resizeBuffer V size with buffer := V.shrinkToFit (f.resizeBuffer V size).buffer }

end SynthFsFile

/-- A call on a regular file. -/
inductive FileCall
  | read (offset bytes : ℕ)
  | write (offset : ℕ) (data : List UInt8)
  | truncate (size : ℕ)
  deriving DecidableEq, Repr

namespace FileCall

/-- The arguments are an `off_t` that is not negative and `usize`s. -/
def Fits : FileCall → Prop
  | read offset bytes => 2 * offset < wordCount ∧ bytes < wordCount
  | write offset data => 2 * offset < wordCount ∧ data.length < wordCount
  | truncate size => size < wordCount

/-- The bytes of the file after a call. -/
def after (l : List UInt8) : FileCall → List UInt8
  | read _ _ => l
  | write offset data => splice (extendTo l (offset + data.length)) offset data
  | truncate size => (extendTo l size).take size

/-- What a call has to return of the bytes of the file: a read returns those there are. -/
def Answered (l : List UInt8) (answer : ℤ × List UInt8) : FileCall → Prop
  | read offset bytes =>
    answer = ((((l.drop offset).take bytes).length : ℤ), (l.drop offset).take bytes)
  | _ => True

/-- The call does what it does to the list of bytes: it does not read behind the end, and what it
writes ends inside of the file or at a size that doubling comes to. -/
def Meets (l : List UInt8) : FileCall → Prop
  | read offset bytes =>
    bytes = 0 ∨ offset ≤ l.length ∧ 2 * min bytes (l.length - offset) < wordCount
  | write offset data => offset + data.length < wordCount ∧
    (l ≠ [] ∧ offset + data.length ≤ l.length ∨
      Hits (SynthFsFile.startCapacity l.length) (offset + data.length))
  | truncate _ => True

/-- Every call of a run meets that, with the bytes there are when it is made. -/
def EveryMeets : List UInt8 → List FileCall → Prop
  | _, [] => True
  | l, call :: rest => call.Meets l ∧ EveryMeets (call.after l) rest

end FileCall

namespace SynthFsFile

variable {B : Type*} (V : PrismBuffer B)

/-- A call, with what it returns. -/
def step (f : SynthFsFile B) : FileCall → Option (SynthFsFile B × ℤ × List UInt8)
  | .read offset bytes => some (f, f.read V offset bytes)
  | .write offset data => (f.write V offset data).map fun r => (r.1, r.2, [])
  | .truncate size => some (f.truncate V size, 0, [])

/-- The file holds the bytes `l`. `CreateNode` makes a file that holds its default size of zeros. -/
structure Holds (f : SynthFsFile B) (l : List UInt8) : Prop where
  contents : V.contents f.buffer = l
  size : f.size = l.length
  length_lt : l.length < wordCount

/-- Every call of a run returns, and the file is as large and reads as the list of bytes says. -/
def BehavesAsArray : SynthFsFile B → List UInt8 → List FileCall → Prop
  | _, _, [] => True
  | f, l, call :: rest => ∃ g answer, step V f call = some (g, answer) ∧
    g.size = (call.after l).length ∧ call.Answered l answer ∧
      BehavesAsArray g (call.after l) rest

variable {V} {f : SynthFsFile B} {l : List UInt8}

theorem Holds.size_eq (hV : V.Lawful) (h : Holds V f l) : V.size f.buffer = l.length := by
  rw [hV.size_eq, h.contents]

/-- The result of resizing the buffer holds the bytes there were, and zeros. -/
theorem Holds.resizeBuffer (hV : V.Lawful) (h : Holds V f l) {size : ℕ} (hsize : size < wordCount) :
    Holds V (f.resizeBuffer V size) ((extendTo l size).take size) := by
  have hlen : ((extendTo l size).take size).length = size := by simp
  refine ⟨?_, ?_, by omega⟩
  · rw [SynthFsFile.resizeBuffer, hV.contents_resize, h.contents]
  · rw [SynthFsFile.resizeBuffer, hV.size_eq, hV.contents_resize, h.contents]

theorem Holds.truncate (hV : V.Lawful) (h : Holds V f l) {size : ℕ} (hsize : size < wordCount) :
    Holds V (f.truncate V size) ((extendTo l size).take size) := by
  rw [SynthFsFile.truncate, h.size_eq hV]
  split
  · rename_i heq
    have hl : (extendTo l size).take size = l := by simp [extendTo, heq]
    rwa [hl]
  · have hr := h.resizeBuffer hV hsize
    exact ⟨by rw [hV.contents_shrinkToFit, hr.contents], hr.size, hr.length_lt⟩

/-- Bytes that are written into the buffer. -/
theorem Holds.put (hV : V.Lawful) (h : Holds V f l) {offset : ℕ} {data : List UInt8}
    (hin : offset + data.length ≤ l.length) :
    Holds V { f with buffer := V.write f.buffer offset data } (splice l offset data) := by
  have hlen := length_splice hin
  refine ⟨?_, by rw [hlen]; exact h.size, by rw [hlen]; exact h.length_lt⟩
  rw [hV.contents_write _ _ _ (by rwa [h.size_eq hV]), h.contents]

/-- What `Read` returns at or before the end, and behind it. -/
theorem read_eq_of_le (hV : V.Lawful) (h : Holds V f l) {offset : ℕ} (hle : offset ≤ l.length)
    (bytes : ℕ) :
    f.read V offset bytes
      = (toISize (min bytes (l.length - offset)), (l.drop offset).take bytes) := by
  have hsub : wordSub l.length offset = l.length - offset := wordSub_of_le h.length_lt hle
  rw [SynthFsFile.read, h.size_eq hV, hsub, hV.read_eq _ _ _ (by rw [h.size_eq hV]; omega),
    h.contents, ← List.take_take, List.take_of_length_le (i := l.length - offset) (by simp)]

theorem read_fst_of_lt (hV : V.Lawful) (h : Holds V f l) {offset : ℕ} (hlt : l.length < offset)
    (hoffset : offset < wordCount) (bytes : ℕ) :
    (f.read V offset bytes).1 = toISize (min bytes (wordCount - (offset - l.length))) := by
  have hsub : wordSub l.length offset = wordCount - (offset - l.length) := by
    rw [wordSub, Nat.mod_eq_of_lt hoffset, Nat.mod_eq_of_lt (by omega)]
    omega
  rw [SynthFsFile.read, h.size_eq hV, hsub]

/-- A read that is answered stays in front of the end, or asks for nothing. -/
theorem read_answered_iff (hV : V.Lawful) (h : Holds V f l) {offset bytes : ℕ}
    (hfits : (FileCall.read offset bytes).Fits) :
    (FileCall.read offset bytes).Answered l (f.read V offset bytes) ↔
      (FileCall.read offset bytes).Meets l := by
  obtain ⟨hoffset, hbytes⟩ := hfits
  have hl := h.length_lt
  by_cases hle : offset ≤ l.length
  · have hlen : ((l.drop offset).take bytes).length = min bytes (l.length - offset) := by simp
    rw [FileCall.Answered, read_eq_of_le hV h hle, hlen, FileCall.Meets]
    simp only [Prod.mk.injEq, and_true]
    rw [toISize_eq_iff (by omega) le_rfl]
    have hpos : 0 < wordCount := by decide
    omega
  · rw [FileCall.Meets, FileCall.Answered]
    have hdrop : l.drop offset = [] := List.drop_eq_nil_of_le (by omega)
    rw [hdrop, List.take_nil]
    constructor
    · intro heq
      have hfst := congrArg Prod.fst heq
      rw [read_fst_of_lt hV h (by omega) (by omega)] at hfst
      have := (toISize_eq_iff (m := 0) (by omega) (Nat.zero_le _)).mp hfst
      omega
    · rintro (rfl | ⟨hle', -⟩)
      · simp [SynthFsFile.read, hV.read_zero, toISize]
      · omega

/-- A write whose end is a word finds a capacity, or does not return. -/
theorem write_eq (hV : V.Lawful) (h : Holds V f l) {offset : ℕ} {data : List UInt8} :
    f.write V offset data =
      (newCapacity ((offset + data.length) % wordCount) (startCapacity l.length)).map
        fun capacity =>
          ({ f.resizeBuffer V capacity with
              buffer := V.write (f.resizeBuffer V capacity).buffer offset data },
            toISize data.length) := by
  rw [SynthFsFile.write, h.size_eq hV]

theorem startCapacity_lt (hl : l.length < wordCount) : startCapacity l.length < wordCount := by
  rw [startCapacity]
  split
  · decide
  · exact hl

/-- The capacity is what the size has to be exactly when the write meets its condition. -/
theorem newCapacity_eq_max_iff (hl : l.length < wordCount) (need : ℕ) :
    newCapacity need (startCapacity l.length) = some (max l.length need) ↔
      l ≠ [] ∧ need ≤ l.length ∨ Hits (startCapacity l.length) need := by
  by_cases hin : l ≠ [] ∧ need ≤ l.length
  · have hstart : startCapacity l.length = l.length := by simp [startCapacity, hin.1]
    simp only [hin, true_or, hstart, newCapacity_of_le hin.2, Nat.max_eq_left hin.2,
      ne_eq, not_false_eq_true, and_self]
  · have hmax : max l.length need = need := by
      by_cases hnil : l = []
      · simp [hnil]
      · exact Nat.max_eq_right (by by_contra hlt; exact hin ⟨hnil, by omega⟩)
    rw [hmax, newCapacity_eq_self_iff (startCapacity_lt hl)]
    simp [hin]

theorem newCapacity_lt {need capacity : ℕ} (hl : l.length < wordCount)
    (h : newCapacity need (startCapacity l.length) = some capacity) : capacity < wordCount := by
  obtain ⟨j, -, rfl, -⟩ := (growCapacity_eq_some_iff (startCapacity_lt hl)).mp h
  exact Nat.mod_lt _ (by decide)

/-- A call that meets its condition returns what it has to, and the file holds what it has to. -/
theorem step_of_meets (hV : V.Lawful) (h : Holds V f l) {call : FileCall} (hfits : call.Fits)
    (hmeets : call.Meets l) :
    ∃ g answer, step V f call = some (g, answer) ∧ call.Answered l answer ∧
      Holds V g (call.after l) := by
  cases call with
  | read offset bytes => exact ⟨f, _, rfl, (read_answered_iff hV h hfits).mpr hmeets, h⟩
  | truncate size => exact ⟨_, _, rfl, trivial, h.truncate hV hfits⟩
  | write offset data =>
    obtain ⟨hneed, hcond⟩ := hmeets
    have hcap := (newCapacity_eq_max_iff h.length_lt _).mpr hcond
    have hmod : (offset + data.length) % wordCount = offset + data.length :=
      Nat.mod_eq_of_lt hneed
    have hr := h.resizeBuffer hV (newCapacity_lt h.length_lt hcap)
    have hl : (extendTo l (max l.length (offset + data.length))).take
        (max l.length (offset + data.length)) = extendTo l (offset + data.length) := by
      rw [extendTo_max, List.take_of_length_le (by simp)]
    rw [hl] at hr
    refine ⟨_, _, by rw [step, write_eq hV h, hmod, hcap]; rfl, trivial, hr.put hV ?_⟩
    rw [length_extendTo]
    omega

/-- A call that returns what it has to, at the size it has to, meets its condition. -/
theorem meets_of_step (hV : V.Lawful) (h : Holds V f l) {call : FileCall} (hfits : call.Fits)
    {g : SynthFsFile B} {answer : ℤ × List UInt8} (hstep : step V f call = some (g, answer))
    (hsize : g.size = (call.after l).length) (hanswer : call.Answered l answer) :
    call.Meets l := by
  cases call with
  | read offset bytes =>
    obtain ⟨rfl, rfl⟩ : f = g ∧ f.read V offset bytes = answer := by simpa [step] using hstep
    exact (read_answered_iff hV h hfits).mp hanswer
  | truncate size => trivial
  | write offset data =>
    rw [step, write_eq hV h, Option.map_map, Option.map_eq_some_iff] at hstep
    obtain ⟨capacity, hcap, hg⟩ := hstep
    have hlt := newCapacity_lt h.length_lt hcap
    have hgsize : g.size = capacity := by
      rw [← (Prod.mk.inj hg).1]
      have := (h.resizeBuffer hV hlt).size
      simpa using this
    have hafter : (FileCall.after l (.write offset data)).length
        = max l.length (offset + data.length) := by
      rw [FileCall.after, length_splice (by rw [length_extendTo]; omega), length_extendTo]
    rw [hgsize, hafter] at hsize
    have hneed : offset + data.length < wordCount := by omega
    rw [Nat.mod_eq_of_lt hneed, hsize] at hcap
    exact ⟨hneed, (newCapacity_eq_max_iff h.length_lt _).mp hcap⟩

theorem behavesAsArray_cons_iff (hV : V.Lawful) (h : Holds V f l) {call : FileCall}
    {rest : List FileCall} (hfits : call.Fits)
    (ih : ∀ {g}, Holds V g (call.after l) →
      (BehavesAsArray V g (call.after l) rest ↔ FileCall.EveryMeets (call.after l) rest)) :
    BehavesAsArray V f l (call :: rest) ↔ FileCall.EveryMeets l (call :: rest) := by
  constructor
  · rintro ⟨g, answer, hstep, hsize, hanswer, hrest⟩
    have hmeets := meets_of_step hV h hfits hstep hsize hanswer
    obtain ⟨g', answer', hstep', -, hholds⟩ := step_of_meets hV h hfits hmeets
    obtain rfl : g = g' := by
      rw [hstep] at hstep'
      exact (Prod.mk.inj (Option.some.inj hstep')).1
    exact ⟨hmeets, (ih hholds).mp hrest⟩
  · rintro ⟨hmeets, hrest⟩
    obtain ⟨g, answer, hstep, hanswer, hholds⟩ := step_of_meets hV h hfits hmeets
    exact ⟨g, answer, hstep, hholds.size, hanswer, (ih hholds).mpr hrest⟩

/-- A run of calls on a regular file does what it does to a list of bytes exactly when every call
meets its condition. -/
theorem behavesAsArray_iff (hV : V.Lawful) (h : Holds V f l) {calls : List FileCall}
    (hfits : ∀ call ∈ calls, call.Fits) :
    BehavesAsArray V f l calls ↔ FileCall.EveryMeets l calls := by
  induction calls generalizing f l with
  | nil => exact Iff.rfl
  | cons call rest ih =>
    exact behavesAsArray_cons_iff hV h (hfits call (by simp))
      fun hholds => ih hholds fun c hc => hfits c (by simp [hc])

end SynthFsFile

/-- A buffer that is a list of bytes. -/
def listBuffer : PrismBuffer (List UInt8) where
  contents := id
  size := List.length
  resize b n := (extendTo b n).take n
  shrinkToFit := id
  read b offset n := (b.drop offset).take n
  write := splice

theorem listBuffer_lawful : listBuffer.Lawful where
  size_eq _ := rfl
  contents_resize _ _ := rfl
  contents_shrinkToFit _ := rfl
  read_eq _ _ _ _ := rfl
  read_zero b offset := by simp [listBuffer]
  contents_write _ _ _ _ := rfl

namespace SynthFsFile

/-- A file of three bytes that is written to its double size, read and truncated. -/
theorem behavesAsArray_doubled :
    BehavesAsArray listBuffer ⟨[1, 2, 3], 3, 1⟩ [1, 2, 3]
      [.write 3 [7, 8, 9], .read 4 9, .truncate 2, .truncate 3] :=
  (behavesAsArray_iff listBuffer_lawful ⟨rfl, rfl, by decide⟩
    (by simp [FileCall.Fits, wordCount])).mpr
    ⟨⟨by decide, .inr ⟨1, by decide, by decide⟩⟩, ⟨.inr (by decide), trivial, trivial, trivial⟩⟩

/-- One byte is written behind three, and the file has six. -/
theorem not_behavesAsArray_oneByte :
    ¬BehavesAsArray listBuffer ⟨[1, 2, 3], 3, 1⟩ [1, 2, 3] [.write 3 [7]] := by
  rintro ⟨g, answer, hstep, hsize, -⟩
  have hg : g.size = 6 := by
    have := congrArg (Option.map fun r => r.1.size) hstep
    exact (Option.some.inj this).symm
  rw [hg] at hsize
  revert hsize
  decide

end SynthFsFile

end Cryptix.VFS
