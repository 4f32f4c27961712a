import Mathlib.Algebra.BigOperators.Group.List.Basic
import Cryptix.Lib.Bytes
import Cryptix.Prism

/-!
# The first stack of a program

`ExecutableProgram::PrepareStack` of `Kernel/Library/ExecutableProgram.cpp`. The stack is written
through one mapping, at `stackTopWritable`, and used through another, at `stackTopVirt`. The
strings go first, then down from a 16-byte boundary the auxiliary vector, the two arrays of pointers
and the argument count. The pointers are computed by a second cursor that starts at `stackTopVirt`.

Every write lies right below the ones before it, so what has been written stays (`Pushed`). The
strings are values here: a new stack is freshly allocated, and they lie elsewhere.
-/

namespace Cryptix.Executable

open Lib

/-- `ELF::AuxiliaryVector`, as `PrepareStack` reads it off the image. -/
structure AuxiliaryVector where
  entryPoint : BitVec 64
  programHeaderAddress : BitVec 64
  programHeaderEntrySize : BitVec 64
  programHeaderCount : BitVec 64

/-- The memory that the stack is written to, and the cursor `stack`. -/
structure Stack where
  memory : ℕ → UInt8
  pointer : ℕ

namespace Stack

/-- Make room for a string and the byte after it, and copy the string. -/
def pushString (s : Stack) (str : List UInt8) : Stack :=
  let pointer := wordSub s.pointer (str.length + 1)
  ⟨writeBytes s.memory pointer str, pointer⟩

/-- `stack = AlignDown(stack, 16)`, and one word more where the counts say so. -/
def alignDown (s : Stack) (counts : ℕ) : Stack :=
  let pointer := s.pointer / 16 * 16
  ⟨s.memory, if (counts + 1) % 2 = 1 then wordSub pointer 8 else pointer⟩

/-- `*(--stack) = word`. -/
def push (s : Stack) (word : ℕ) : Stack :=
  let pointer := wordSub s.pointer 8
  ⟨writeLE s.memory pointer 8 word, pointer⟩

/-- `stack -= 2; stack[0] = key; stack[1] = value`. -/
def pushPair (s : Stack) (key value : ℕ) : Stack :=
  let pointer := wordSub s.pointer 16
  ⟨writeLE (writeLE s.memory pointer 8 key) (pointer + 8) 8 value, pointer⟩

/-- The loop that fills `stack[i]`, `stack[i + 1]`, ... with the addresses of the strings, moving
`stackPointer` down over them. -/
def writePointers (stack : ℕ) :
    List (List UInt8) → (i stackPointer : ℕ) → (ℕ → UInt8) → ℕ × (ℕ → UInt8)
  | [], _, stackPointer, memory => (stackPointer, memory)
  | str :: rest, i, stackPointer, memory =>
    let stackPointer := wordSub stackPointer (str.length + 1)
    writePointers stack rest (i + 1) stackPointer (writeLE memory (stack + 8 * i) 8 stackPointer)

/-- `stack -= strs.Size()`, and the addresses of the strings above the new cursor. -/
def pushPointers (s : Stack) (stackPointer : ℕ) (strs : List (List UInt8)) : ℕ × Stack :=
  let pointer := wordSub s.pointer (8 * strs.length)
  let (stackPointer, memory) := writePointers pointer strs 0 stackPointer s.memory
  (stackPointer, ⟨memory, pointer⟩)

end Stack

/-- The auxiliary vector, from its null pair down, and the word that ends the environment. -/
def pushAuxiliary (s : Stack) (aux : AuxiliaryVector) : Stack :=
  let s := (s.push 0).push 0
  let s := s.pushPair 9 aux.entryPoint.toNat
  let s := s.pushPair 3 aux.programHeaderAddress.toNat
  let s := s.pushPair 4 aux.programHeaderEntrySize.toNat
  let s := s.pushPair 5 aux.programHeaderCount.toNat
  s.push 0

/-- `ExecutableProgram::PrepareStack`: the stack pointer of the new thread, and the memory. -/
def prepareStack (memory : ℕ → UInt8) (aux : AuxiliaryVector)
    (stackTopWritable stackTopVirt : BitVec 64) (argv envp : List (List UInt8)) :
    ℕ × (ℕ → UInt8) :=
  let s : Stack := ⟨memory, stackTopWritable.toNat⟩
  let s := argv.foldl Stack.pushString (envp.foldl Stack.pushString s)
  let s := s.alignDown (argv.length + envp.length)
  let s := pushAuxiliary s aux
  let (stackPointer, s) := s.pushPointers stackTopVirt.toNat envp
  let (_, s) := (s.push 0).pushPointers stackPointer argv
  let s := s.push argv.length
  (wordSub stackTopVirt.toNat (wordSub stackTopWritable.toNat s.pointer), s.memory)

/-! ## What a program expects to find -/

/-- The words at an address. -/
def HoldsWords (m : ℕ → UInt8) : ℕ → List ℕ → Prop
  | _, [] => True
  | a, w :: ws => readLE m a 8 = w ∧ HoldsWords m (a + 8) ws

/-- The bytes of a string at an address, and no zero byte before the one that ends it. -/
def HoldsString (m : ℕ → UInt8) (a : ℕ) (str : List UInt8) : Prop :=
  (∀ (i : ℕ) (h : i < str.length), m (a + i) = str[i] ∧ str[i] ≠ 0) ∧ m (a + str.length) = 0

/-- The auxiliary vector as words, with the null pair at its end. -/
def AuxiliaryVector.words (aux : AuxiliaryVector) : List ℕ :=
  [5, aux.programHeaderCount.toNat, 4, aux.programHeaderEntrySize.toNat,
    3, aux.programHeaderAddress.toNat, 9, aux.entryPoint.toNat, 0, 0]

/-- A stack as a program expects it: the argument count, the pointers to the arguments, 0, the
pointers to the environment, 0 and the auxiliary vector, from a 16-byte boundary on; the pointers
lead to the strings, which all lie above these words. -/
def StartStack (m : ℕ → UInt8) (sp : ℕ) (aux : AuxiliaryVector)
    (argv envp : List (List UInt8)) : Prop :=
  16 ∣ sp ∧ ∃ arguments environment : List ℕ,
    let words := argv.length :: (arguments ++ 0 :: (environment ++ 0 :: aux.words))
    HoldsWords m sp words ∧ List.Forall₂ (HoldsString m) arguments argv ∧
      List.Forall₂ (HoldsString m) environment envp ∧
        ∀ p ∈ arguments ++ environment, sp + 8 * words.length ≤ p

/-- What the strings take, each with the byte that ends it. -/
def stringBytes (strs : List (List UInt8)) : ℕ := (strs.map fun str => str.length + 1).sum

/-- What `PrepareStack` takes of a stack with the given top. -/
def stackBytes (top : ℕ) (argv envp : List (List UInt8)) : ℕ :=
  let strings := stringBytes envp + stringBytes argv
  let counts := argv.length + envp.length
  strings + (top - strings) % 16 + 8 * (counts + 13 + (counts + 1) % 2)

/-- Memory as seen through the mapping of the stack. -/
def throughMapping (m : ℕ → UInt8) (stackTopWritable stackTopVirt : BitVec 64) : ℕ → UInt8 :=
  fun v => m (v + stackTopWritable.toNat - stackTopVirt.toNat)

/-! ## Writing downwards -/

variable {s s' s'' : Stack} {m m' : ℕ → UInt8} {a b n k : ℕ}

/-- The cursor moved down by `n`, and nothing was written but in the room made. -/
structure Pushed (s s' : Stack) (n : ℕ) : Prop where
  pointer : s'.pointer + n = s.pointer
  memory : ∀ a, a < s'.pointer ∨ s.pointer ≤ a → s'.memory a = s.memory a

theorem Pushed.trans (h : Pushed s s' n) (h' : Pushed s' s'' k) : Pushed s s'' (n + k) := by
  have hpointer := h.pointer
  have hpointer' := h'.pointer
  refine ⟨by omega, fun a ha => ?_⟩
  rw [h'.memory a (by omega), h.memory a (by omega)]

theorem HoldsWords.congr {ws : List ℕ} (h : ∀ i < 8 * ws.length, m (a + i) = m' (b + i))
    (hws : HoldsWords m a ws) : HoldsWords m' b ws := by
  induction ws generalizing a b with
  | nil => trivial
  | cons w ws ih =>
    rw [List.length_cons] at h
    obtain ⟨hhead, htail⟩ := hws
    refine ⟨?_, ih (fun i hi => ?_) htail⟩
    · rw [← hhead]
      exact (readLE_congr fun i hi => h i (by omega)).symm
    · have hbyte := h (8 + i) (by omega)
      rwa [← Nat.add_assoc, ← Nat.add_assoc] at hbyte

theorem holdsWords_append {ws ws' : List ℕ} :
    HoldsWords m a (ws ++ ws') ↔ HoldsWords m a ws ∧ HoldsWords m (a + 8 * ws.length) ws' := by
  induction ws generalizing a with
  | nil => exact ⟨fun h => ⟨trivial, h⟩, fun h => h.2⟩
  | cons w ws ih =>
    rw [List.cons_append, HoldsWords, HoldsWords, ih, List.length_cons, and_assoc,
      show a + 8 + 8 * ws.length = a + 8 * (ws.length + 1) by omega]

theorem HoldsWords.of_pushed (h : Pushed s s' n) (ha : s.pointer ≤ a) {ws : List ℕ}
    (hws : HoldsWords s.memory a ws) : HoldsWords s'.memory a ws :=
  hws.congr fun _ _ => (h.memory _ (.inr (by omega))).symm

theorem HoldsString.congr {str : List UInt8} (h : ∀ i < str.length + 1, m (a + i) = m' (b + i))
    (hstr : HoldsString m a str) : HoldsString m' b str := by
  refine ⟨fun i hi => ?_, ?_⟩
  · rw [← h i (by omega)]
    exact hstr.1 i hi
  · rw [← h str.length (by omega)]
    exact hstr.2

theorem HoldsString.of_pushed (h : Pushed s s' n) (ha : s.pointer ≤ a) {str : List UInt8}
    (hstr : HoldsString s.memory a str) : HoldsString s'.memory a str :=
  hstr.congr fun _ _ => (h.memory _ (.inr (by omega))).symm

/-- The cursor moved down over some words, which stand there now. -/
structure Extended (s s' : Stack) (ws : List ℕ) : Prop where
  pushed : Pushed s s' (8 * ws.length)
  words : HoldsWords s'.memory s'.pointer ws

theorem Extended.trans {ws ws' : List ℕ} (h : Extended s s' ws) (h' : Extended s' s'' ws') :
    Extended s s'' (ws' ++ ws) := by
  have hpushed := h.pushed.trans h'.pushed
  refine ⟨?_, holdsWords_append.mpr ⟨h'.words, ?_⟩⟩
  · rw [List.length_append, Nat.mul_add, Nat.add_comm]
    exact hpushed
  · rw [h'.pushed.pointer]
    exact h.words.of_pushed h'.pushed (Nat.le_refl _)

theorem push_memory (s : Stack) (w : ℕ) :
    (s.push w).memory = writeLE s.memory (s.push w).pointer 8 w := by
  simp only [Stack.push]

theorem push_extended (hlt : s.pointer < wordCount) (h : 8 ≤ s.pointer) {w : ℕ}
    (hw : w < wordCount) : Extended s (s.push w) [w] := by
  have hpointer : (s.push w).pointer = s.pointer - 8 := wordSub_of_le hlt h
  have hread : readLE (s.push w).memory (s.push w).pointer 8 = w := by
    have hsize : 256 ^ 8 = wordCount := by simp only [wordCount, Nat.reducePow]
    rw [push_memory, readLE_writeLE, hsize, Nat.mod_eq_of_lt hw]
  refine ⟨⟨?_, fun a ha => ?_⟩, hread, trivial⟩
  · rw [hpointer, List.length_singleton]
    omega
  · rw [push_memory, writeLE_of_not_mem (by omega)]

/-- A pair is two words, the second one pushed first. -/
theorem pushPair_eq (hlt : s.pointer < wordCount) (h : 16 ≤ s.pointer) (key value : ℕ) :
    s.pushPair key value = (s.push value).push key := by
  have hpair : wordSub s.pointer 16 = s.pointer - 16 := wordSub_of_le hlt h
  have hfirst : wordSub s.pointer 8 = s.pointer - 8 := wordSub_of_le hlt (by omega)
  have hsecond : wordSub (s.pointer - 8) 8 = s.pointer - 16 := by
    rw [wordSub_of_le (by omega) (by omega)]
    omega
  simp only [Stack.pushPair, Stack.push, hpair, hfirst, hsecond, Stack.mk.injEq, and_true]
  funext i
  simp only [writeLE]
  split
  · rw [if_neg (by omega), if_pos (by omega), show s.pointer - 16 + 8 = s.pointer - 8 by omega]
  · split
    · rfl
    · rw [if_neg (by omega)]

theorem pushPair_extended (hlt : s.pointer < wordCount) (h : 16 ≤ s.pointer) {key value : ℕ}
    (hkey : key < wordCount) (hvalue : value < wordCount) :
    Extended s (s.pushPair key value) [key, value] := by
  rw [pushPair_eq hlt h]
  have hfirst := push_extended hlt (by omega) hvalue
  have hpointer := hfirst.pushed.pointer
  rw [List.length_singleton] at hpointer
  exact hfirst.trans (push_extended (by omega) (by omega) hkey)

theorem Extended.pointer_eq {ws : List ℕ} (h : Extended s s' ws) :
    s'.pointer = s.pointer - 8 * ws.length := by
  have hpointer := h.pushed.pointer
  omega

theorem pushAuxiliary_extended (hlt : s.pointer < wordCount) (h : 88 ≤ s.pointer)
    (aux : AuxiliaryVector) : Extended s (pushAuxiliary s aux) (0 :: aux.words) := by
  have hzero : 0 < wordCount := by decide
  have hkey : ∀ key < 10, key < wordCount := by decide
  have h₁ := push_extended hlt (by omega) hzero
  have p₁ : _ = s.pointer - 8 := h₁.pointer_eq
  have h₂ := push_extended (s := s.push 0) (by omega) (by omega) hzero
  have p₂ : _ = _ - 8 := h₂.pointer_eq
  have h₃ := pushPair_extended (s := (s.push 0).push 0) (by omega) (by omega) (hkey 9 (by omega))
    aux.entryPoint.isLt
  have p₃ : _ = _ - 16 := h₃.pointer_eq
  have h₄ := pushPair_extended (s := ((s.push 0).push 0).pushPair 9 aux.entryPoint.toNat)
    (by omega) (by omega) (hkey 3 (by omega)) aux.programHeaderAddress.isLt
  have p₄ : _ = _ - 16 := h₄.pointer_eq
  have h₅ := pushPair_extended (by omega) (by omega) (hkey 4 (by omega))
    aux.programHeaderEntrySize.isLt (s := (((s.push 0).push 0).pushPair 9
      aux.entryPoint.toNat).pushPair 3 aux.programHeaderAddress.toNat)
  have p₅ : _ = _ - 16 := h₅.pointer_eq
  have h₆ := pushPair_extended (by omega) (by omega) (hkey 5 (by omega))
    aux.programHeaderCount.isLt (s := ((((s.push 0).push 0).pushPair 9
      aux.entryPoint.toNat).pushPair 3 aux.programHeaderAddress.toNat).pushPair 4
        aux.programHeaderEntrySize.toNat)
  have p₆ : _ = _ - 16 := h₆.pointer_eq
  exact (((((h₁.trans h₂).trans h₃).trans h₄).trans h₅).trans h₆).trans
    (push_extended (by omega) (by omega) hzero)

/-! ## Strings and their addresses -/

/-- Where the strings stand that are pushed from an address down. -/
def stringAddresses : ℕ → List (List UInt8) → List ℕ
  | _, [] => []
  | p, str :: rest => (p - (str.length + 1)) :: stringAddresses (p - (str.length + 1)) rest

variable {p q : ℕ} {strs : List (List UInt8)}

theorem stringBytes_cons (str : List UInt8) (strs : List (List UInt8)) :
    stringBytes (str :: strs) = str.length + 1 + stringBytes strs := List.sum_cons

theorem length_stringAddresses (p : ℕ) (strs : List (List UInt8)) :
    (stringAddresses p strs).length = strs.length := by
  induction strs generalizing p with
  | nil => rfl
  | cons str rest ih => rw [stringAddresses, List.length_cons, List.length_cons, ih]

theorem length_le_stringBytes (strs : List (List UInt8)) : strs.length ≤ stringBytes strs := by
  induction strs with
  | nil => exact Nat.zero_le _
  | cons str rest ih => rw [stringBytes_cons, List.length_cons]; omega

theorem le_of_mem_stringAddresses (hq : q ∈ stringAddresses p strs) :
    p - stringBytes strs ≤ q := by
  induction strs generalizing p with
  | nil => exact absurd hq List.not_mem_nil
  | cons str rest ih =>
    rw [stringBytes_cons]
    rcases List.mem_cons.mp hq with rfl | hq
    · omega
    · have hrest := ih hq
      omega

/-- The second cursor finds the addresses, and they go where they should. -/
theorem writePointers_spec {stack i : ℕ} (hlt : p < wordCount) (h : stringBytes strs ≤ p) :
    (Stack.writePointers stack strs i p m).1 = p - stringBytes strs ∧
      (∀ a, a < stack + 8 * i ∨ stack + 8 * (i + strs.length) ≤ a →
        (Stack.writePointers stack strs i p m).2 a = m a) ∧
      HoldsWords (Stack.writePointers stack strs i p m).2 (stack + 8 * i)
        (stringAddresses p strs) := by
  induction strs generalizing i p m with
  | nil => exact ⟨rfl, fun _ _ => rfl, trivial⟩
  | cons str rest ih =>
    rw [stringBytes_cons] at h ⊢
    have hsub : wordSub p (str.length + 1) = p - (str.length + 1) := wordSub_of_le hlt (by omega)
    simp only [Stack.writePointers, hsub, List.length_cons]
    obtain ⟨hlast, hframe, hwords⟩ := ih (i := i + 1) (p := p - (str.length + 1))
      (m := writeLE m (stack + 8 * i) 8 (p - (str.length + 1))) (by omega) (by omega)
    refine ⟨by omega, fun a ha => ?_, ?_, ?_⟩
    · rw [hframe a (by omega), writeLE_of_not_mem (by omega)]
    · -- the later turns write behind this word
      have hsize : 256 ^ 8 = wordCount := by simp only [wordCount, Nat.reducePow]
      rw [readLE_congr fun k hk => hframe (stack + 8 * i + k) (by omega), readLE_writeLE, hsize,
        Nat.mod_eq_of_lt (by omega)]
    · rwa [show stack + 8 * i + 8 = stack + 8 * (i + 1) by omega]

theorem pushPointers_extended (hlt : s.pointer < wordCount) (h : 8 * strs.length ≤ s.pointer)
    (hp : p < wordCount) (hstrs : stringBytes strs ≤ p) :
    (s.pushPointers p strs).1 = p - stringBytes strs ∧
      Extended s (s.pushPointers p strs).2 (stringAddresses p strs) := by
  have hsub : wordSub s.pointer (8 * strs.length) = s.pointer - 8 * strs.length :=
    wordSub_of_le hlt h
  simp only [Stack.pushPointers, hsub]
  obtain ⟨hlast, hframe, hwords⟩ := @writePointers_spec s.memory p strs
    (s.pointer - 8 * strs.length) 0 hp hstrs
  refine ⟨hlast, ⟨?_, fun a ha => ?_⟩, hwords⟩
  · rw [length_stringAddresses]
    simp only
    omega
  · exact hframe a (by simp only at ha; omega)

theorem pushString_memory (s : Stack) (str : List UInt8) :
    (s.pushString str).memory = writeBytes s.memory (s.pushString str).pointer str := by
  simp only [Stack.pushString]

theorem pushString_pushed {str : List UInt8} (hlt : s.pointer < wordCount)
    (h : str.length + 1 ≤ s.pointer) : Pushed s (s.pushString str) (str.length + 1) := by
  have hpointer : (s.pushString str).pointer = s.pointer - (str.length + 1) :=
    wordSub_of_le hlt h
  refine ⟨by omega, fun a ha => ?_⟩
  rw [pushString_memory, writeBytes_of_not_mem (by omega)]

/-- A string without a zero byte, pushed onto zeros, is ended by the byte left behind it. -/
theorem pushString_holds {str : List UInt8} (hlt : s.pointer < wordCount)
    (h : str.length + 1 ≤ s.pointer) (hstr : 0 ∉ str) (hzero : s.memory (s.pointer - 1) = 0) :
    HoldsString (s.pushString str).memory (s.pointer - (str.length + 1)) str := by
  have hpointer : (s.pushString str).pointer = s.pointer - (str.length + 1) :=
    wordSub_of_le hlt h
  rw [pushString_memory, hpointer]
  refine ⟨fun i hi => ⟨writeBytes_of_mem _ _ hi, fun h0 => hstr (h0 ▸ List.getElem_mem hi)⟩, ?_⟩
  rw [writeBytes_of_not_mem (by omega),
    show s.pointer - (str.length + 1) + str.length = s.pointer - 1 by omega, hzero]

/-- The loop over the strings leaves each at its address. -/
theorem pushStrings_spec (hlt : s.pointer < wordCount) (h : stringBytes strs ≤ s.pointer) :
    Pushed s (strs.foldl Stack.pushString s) (stringBytes strs) ∧
      ((∀ str ∈ strs, 0 ∉ str) →
        (∀ a, s.pointer - stringBytes strs ≤ a → a < s.pointer → s.memory a = 0) →
        List.Forall₂ (HoldsString (strs.foldl Stack.pushString s).memory)
          (stringAddresses s.pointer strs) strs) := by
  induction strs generalizing s with
  | nil => exact ⟨⟨rfl, fun _ _ => rfl⟩, fun _ _ => .nil⟩
  | cons str rest ih =>
    rw [stringBytes_cons] at h ⊢
    rw [List.foldl_cons]
    have hhead := @pushString_pushed s str hlt (by omega)
    have hpointer := hhead.pointer
    obtain ⟨hpushed, hholds⟩ := ih (s := s.pushString str) (by omega) (by omega)
    refine ⟨hhead.trans hpushed, fun hstrs hzero => ?_⟩
    have hnext : (s.pushString str).pointer = s.pointer - (str.length + 1) := by omega
    rw [stringAddresses, ← hnext]
    refine .cons ?_ (hholds (fun t ht => hstrs t (List.mem_cons_of_mem str ht)) fun a ha ha' => ?_)
    · refine HoldsString.of_pushed hpushed (Nat.le_refl _) ?_
      rw [hnext]
      exact pushString_holds hlt (by omega) (hstrs str List.mem_cons_self)
        (hzero _ (by omega) (by omega))
    · rw [hhead.memory a (.inl ha')]
      exact hzero a (by omega) (by omega)

/-- The same strings, seen from another address. -/
theorem forall₂_holdsString_shift (hm : ∀ i < stringBytes strs,
      m (p - stringBytes strs + i) = m' (q - stringBytes strs + i))
    (hp : stringBytes strs ≤ p) (hq : stringBytes strs ≤ q)
    (h : List.Forall₂ (HoldsString m) (stringAddresses p strs) strs) :
    List.Forall₂ (HoldsString m') (stringAddresses q strs) strs := by
  induction strs generalizing p q with
  | nil => exact .nil
  | cons str rest ih =>
    rw [stringBytes_cons] at hm hp hq
    rw [stringAddresses] at h ⊢
    obtain ⟨hhead, htail⟩ := List.forall₂_cons.mp h
    refine .cons (hhead.congr fun i hi => ?_) (ih (fun i hi => ?_) (by omega) (by omega) htail)
    · have hbyte := hm (stringBytes rest + i) (by omega)
      rwa [show p - (str.length + 1 + stringBytes rest) + (stringBytes rest + i) =
          p - (str.length + 1) + i by omega,
        show q - (str.length + 1 + stringBytes rest) + (stringBytes rest + i) =
          q - (str.length + 1) + i by omega] at hbyte
    · rw [Nat.sub_sub, Nat.sub_sub]
      exact hm i (by omega)

/-! ## The whole stack -/

theorem alignDown_pushed {counts : ℕ} (hlt : s.pointer < wordCount)
    (h : s.pointer % 16 + 8 * ((counts + 1) % 2) ≤ s.pointer) :
    Pushed s (s.alignDown counts) (s.pointer % 16 + 8 * ((counts + 1) % 2)) := by
  refine ⟨?_, fun _ _ => rfl⟩
  simp only [Stack.alignDown]
  split
  · rw [wordSub_of_le (by omega) (by omega)]
    omega
  · omega

section Layout

variable {aux : AuxiliaryVector} {argv envp : List (List UInt8)}

/-- All the words from the auxiliary vector down. -/
theorem pushWords_extended (hlt : s.pointer < wordCount)
    (h : 8 * (argv.length + envp.length + 13) ≤ s.pointer) (hp : p < wordCount)
    (hstrs : stringBytes envp + stringBytes argv ≤ p) :
    let s₁ := (pushAuxiliary s aux).pushPointers p envp
    Extended s (((s₁.2.push 0).pushPointers s₁.1 argv).2.push argv.length)
      (argv.length :: (stringAddresses (p - stringBytes envp) argv ++
        0 :: (stringAddresses p envp ++ 0 :: aux.words))) := by
  intro s₁
  have haux := pushAuxiliary_extended hlt (by omega) aux
  have haux' : _ = s.pointer - 88 := haux.pointer_eq
  obtain ⟨hlast, henvp⟩ : s₁.1 = p - stringBytes envp ∧
      Extended (pushAuxiliary s aux) s₁.2 (stringAddresses p envp) :=
    pushPointers_extended (by omega) (by omega) hp (by omega)
  clear_value s₁
  have henvp' := henvp.pointer_eq
  rw [length_stringAddresses] at henvp'
  have hnull := push_extended (s := s₁.2) (w := 0) (by omega) (by omega) (by decide)
  have hnull' : _ = _ - 8 := hnull.pointer_eq
  have hargv : Extended (s₁.2.push 0) ((s₁.2.push 0).pushPointers s₁.1 argv).2
      (stringAddresses s₁.1 argv) :=
    (pushPointers_extended (by omega) (by omega) (by omega) (by omega)).2
  have hargv' := hargv.pointer_eq
  rw [length_stringAddresses] at hargv'
  have hcount := push_extended (s := ((s₁.2.push 0).pushPointers s₁.1 argv).2) (w := argv.length)
    (by omega) (by omega) (by have := length_le_stringBytes argv; omega)
  have hall := (((haux.trans henvp).trans hnull).trans hargv).trans hcount
  rw [← hlast]
  simpa only [List.cons_append, List.nil_append, List.append_assoc] using hall

/-- The strings, each at its address, below them the words, and nothing else written. -/
theorem prepareStack_layout {memory : ℕ → UInt8} {top virt : BitVec 64}
    (htop : stackBytes top.toNat argv envp ≤ top.toNat)
    (hvirt : stackBytes top.toNat argv envp ≤ virt.toNat) :
    ∃ s₁ s₂ s₃ s₄ : Stack, Pushed ⟨memory, top.toNat⟩ s₁ (stringBytes envp) ∧
      Pushed s₁ s₂ (stringBytes argv) ∧
      Pushed s₂ s₃ (s₂.pointer % 16 + 8 * ((argv.length + envp.length + 1) % 2)) ∧
      Extended s₃ s₄ (argv.length :: (stringAddresses (virt.toNat - stringBytes envp) argv ++
        0 :: (stringAddresses virt.toNat envp ++ 0 :: aux.words))) ∧
      ((∀ str ∈ envp, 0 ∉ str) →
        (∀ a, top.toNat - stringBytes envp ≤ a → a < top.toNat → memory a = 0) →
        List.Forall₂ (HoldsString s₁.memory) (stringAddresses top.toNat envp) envp) ∧
      ((∀ str ∈ argv, 0 ∉ str) →
        (∀ a, s₁.pointer - stringBytes argv ≤ a → a < s₁.pointer → s₁.memory a = 0) →
        List.Forall₂ (HoldsString s₂.memory) (stringAddresses s₁.pointer argv) argv) ∧
      prepareStack memory aux top virt argv envp =
        (wordSub virt.toNat (wordSub top.toNat s₄.pointer), s₄.memory) := by
  have hlt : top.toNat < wordCount := top.isLt
  have hvirt' : virt.toNat < wordCount := virt.isLt
  simp only [stackBytes] at htop hvirt
  obtain ⟨henvp, henvp'⟩ := @pushStrings_spec ⟨memory, top.toNat⟩ envp hlt (by simp only; omega)
  have p₁ := henvp.pointer
  simp only at p₁
  obtain ⟨hargv, hargv'⟩ := @pushStrings_spec (envp.foldl Stack.pushString ⟨memory, top.toNat⟩) argv
    (by omega) (by omega)
  have p₂ := hargv.pointer
  have hbase : top.toNat - (stringBytes envp + stringBytes argv) =
      (argv.foldl Stack.pushString (envp.foldl Stack.pushString ⟨memory, top.toNat⟩)).pointer := by
    omega
  rw [hbase] at htop hvirt
  have halign := @alignDown_pushed (argv.foldl Stack.pushString
    (envp.foldl Stack.pushString ⟨memory, top.toNat⟩)) (argv.length + envp.length)
    (by omega) (by omega)
  have p₃ := halign.pointer
  exact ⟨_, _, _, _, henvp, hargv, halign,
    @pushWords_extended _ _ aux _ _ (by omega) (by omega) hvirt' (by omega), henvp', hargv', rfl⟩

/-- `PrepareStack` gives a program the stack it expects, on zeroed memory with room for it, under
every two mappings that agree on the 16-byte boundaries. -/
theorem prepareStack_startStack {memory : ℕ → UInt8} {stackTopWritable stackTopVirt : BitVec 64}
    (haligned : stackTopWritable.toNat % 16 = stackTopVirt.toNat % 16)
    (hwritable : stackBytes stackTopWritable.toNat argv envp ≤ stackTopWritable.toNat)
    (hvirt : stackBytes stackTopWritable.toNat argv envp ≤ stackTopVirt.toNat)
    (hzero : ∀ a, stackTopWritable.toNat - stackBytes stackTopWritable.toNat argv envp ≤ a →
      a < stackTopWritable.toNat → memory a = 0)
    (hargv : ∀ str ∈ argv, 0 ∉ str) (henvp : ∀ str ∈ envp, 0 ∉ str) :
    StartStack (throughMapping (prepareStack memory aux stackTopWritable stackTopVirt argv envp).2
        stackTopWritable stackTopVirt)
      (prepareStack memory aux stackTopWritable stackTopVirt argv envp).1 aux argv envp := by
  obtain ⟨s₁, s₂, s₃, s₄, h₁, h₂, h₃, h₄, henv, harg, heq⟩ :=
    @prepareStack_layout aux _ _ memory _ _ hwritable hvirt
  have hlt : stackTopWritable.toNat < wordCount := stackTopWritable.isLt
  have hlt' : stackTopVirt.toNat < wordCount := stackTopVirt.isLt
  have p₁ := h₁.pointer
  have p₂ := h₂.pointer
  have p₃ := h₃.pointer
  have p₄ := h₄.pushed.pointer
  have hcount : (argv.length :: (stringAddresses (stackTopVirt.toNat - stringBytes envp) argv ++
      0 :: (stringAddresses stackTopVirt.toNat envp ++ 0 :: aux.words))).length =
      argv.length + envp.length + 13 := by
    simp only [List.length_cons, List.length_append, length_stringAddresses,
      AuxiliaryVector.words, List.length_nil]
    omega
  simp only [stackBytes] at hwritable hvirt hzero p₁
  have hbase : stackTopWritable.toNat - (stringBytes envp + stringBytes argv) = s₂.pointer := by
    omega
  rw [hbase] at hwritable hvirt hzero
  rw [hcount] at p₄
  have hsp : wordSub stackTopVirt.toNat (wordSub stackTopWritable.toNat s₄.pointer) =
      stackTopVirt.toNat - (stackTopWritable.toNat - s₄.pointer) := by
    rw [wordSub_of_le hlt (by omega), wordSub_of_le hlt' (by omega)]
  rw [heq, hsp]
  simp only
  refine ⟨by omega, stringAddresses (stackTopVirt.toNat - stringBytes envp) argv,
    stringAddresses stackTopVirt.toNat envp, ?_, ?_, ?_, fun p hp => ?_⟩
  · refine h₄.words.congr fun i _ => ?_
    rw [throughMapping]
    congr 1
    omega
  · have hheld := harg hargv fun a ha ha' => by
      rw [h₁.memory a (.inl ha')]
      exact hzero a (by omega) (by omega)
    refine forall₂_holdsString_shift (fun i _ => ?_) (by omega) (by omega) hheld
    rw [throughMapping, (h₃.trans h₄.pushed).memory _ (.inr (by omega))]
    congr 1
    omega
  · have hheld := henv henvp fun a ha ha' => hzero a (by omega) ha'
    refine forall₂_holdsString_shift (fun i _ => ?_) (by omega) (by omega) hheld
    rw [throughMapping, (h₂.trans (h₃.trans h₄.pushed)).memory _ (.inr (by omega))]
    congr 1
    omega
  · rw [hcount]
    rcases List.mem_append.mp hp with hp | hp
    · have hlow := le_of_mem_stringAddresses hp
      omega
    · have hlow := le_of_mem_stringAddresses hp
      omega

/-- Two arguments and one variable of the environment on an empty page. -/
theorem prepareStack_startStack_hello :
    StartStack
      (throughMapping (prepareStack (fun _ => 0) ⟨0x401000, 0x400040, 56, 11⟩ 0x8000 0x70000
        [[0x6c, 0x73], [0x2d, 0x61]] [[0x41, 0x3d, 0x62]]).2 0x8000 0x70000)
      (prepareStack (fun _ => 0) ⟨0x401000, 0x400040, 56, 11⟩ 0x8000 0x70000
        [[0x6c, 0x73], [0x2d, 0x61]] [[0x41, 0x3d, 0x62]]).1 ⟨0x401000, 0x400040, 56, 11⟩
      [[0x6c, 0x73], [0x2d, 0x61]] [[0x41, 0x3d, 0x62]] :=
  prepareStack_startStack (by decide) (by decide) (by decide) (fun _ _ _ => rfl) (by decide)
    (by decide)

end Layout

end Cryptix.Executable
