import Mathlib.Algebra.Group.Nat.Defs
import Mathlib.Data.List.Basic
import Cryptix.Prism

/-!
# The kernel symbols

`Kernel/Library/Stacktrace.cpp`: the symbols are read from a file with a line for each of them, in
the order of their addresses, and `GetSymbol` looks an address up by comparing it with the symbol
behind each one.

A line is sixteen hexadecimal digits, the type between two blanks, and the name. Addresses below
that of the kernel are taken relative to it.
-/

namespace Cryptix

/-- `Symbol`. -/
structure Symbol where
  name : List UInt8
  address : ℕ
  deriving DecidableEq, Repr

/-- The static variables of `Stacktrace.cpp`. -/
structure Stacktrace where
  symbols : List Symbol
  lowestKernelSymbolAddress : ℕ
  highestKernelSymbolAddress : ℕ
  deriving DecidableEq, Repr

namespace Stacktrace

/-- The variables before `Initialize`. -/
def unloaded : Stacktrace := ⟨[], 0xffffffff, 0⟩

/-! ## Looking an address up -/

/-- The loop of `GetSymbol`. -/
def symbolBelow (address : ℕ) : List Symbol → Option Symbol
  | symbol :: next :: rest =>
    if address < next.address then some symbol else symbolBelow address (next :: rest)
  | _ => none

/-- `GetSymbol`. -/
def getSymbol (st : Stacktrace) (address : ℕ) : Option Symbol :=
  if address < st.lowestKernelSymbolAddress ∨ st.highestKernelSymbolAddress < address then none
  else symbolBelow address st.symbols

/-! ## Loading the file

`none` is a failed `Assert`, or a byte that is read behind the end of the file. -/

/-- `ParseHexDigit`. -/
def parseHexDigit (digit : UInt8) : Option ℕ :=
  if 0x30 ≤ digit ∧ digit ≤ 0x39 then some (digit.toNat - 0x30)
  else if 0x61 ≤ digit ∧ digit ≤ 0x66 then some (digit.toNat - 0x61 + 0xa)
  else none

/-- The loop over the digits of an address, which goes on from the address before. -/
def readAddress : ℕ → ℕ → List UInt8 → Option (ℕ × List UInt8)
  | 0, address, current => some (address, current)
  | _ + 1, _, [] => none
  | digits + 1, address, digit :: current =>
    (parseHexDigit digit).bind fun value =>
      readAddress digits ((address <<< 4) % wordCount ||| value) current

/-- The loop to the end of a name, and one byte on. -/
def skipName : List UInt8 → Option (List UInt8)
  | [] => none
  | c :: current => if c = 0 ∨ c = 0x0a then some current else skipName current

/-- A symbol is pushed back, and the bounds are kept. -/
def add (st : Stacktrace) (ksym : Symbol) : Stacktrace where
  symbols := st.symbols ++ [ksym]
  lowestKernelSymbolAddress :=
    if ksym.address < st.lowestKernelSymbolAddress then ksym.address
    else st.lowestKernelSymbolAddress
  highestKernelSymbolAddress :=
    if st.highestKernelSymbolAddress < ksym.address then ksym.address
    else st.highestKernelSymbolAddress

/-- An address of the file, relative to the kernel. -/
def rebase (kernelVirt address : ℕ) : ℕ :=
  if address < kernelVirt then offset address kernelVirt else address

/-- One turn of the loop of `Initialize`. The NUL that it puts behind the name is not read again. -/
def loadSymbol (kernelVirt : ℕ) (st : Stacktrace) (address : ℕ) (file : List UInt8) :
    Option (Stacktrace × ℕ × List UInt8) :=
  (readAddress 16 address file).bind fun ⟨address, current⟩ =>
    let name := current.drop 3
    if name.isEmpty then none
    else
      (skipName name.tail).map fun current =>
        let address := rebase kernelVirt address
        (st.add ⟨(name.takeWhile (· ≠ 0)).takeWhile (· ≠ 0x0a), address⟩, address, current)

/-- The loop of `Initialize`, for at most so many turns. -/
def loadSymbols (kernelVirt : ℕ) : ℕ → Stacktrace → ℕ → List UInt8 → Option Stacktrace
  | _, st, _, [] => some st
  | 0, _, _, _ :: _ => none
  | turns + 1, st, address, file =>
    (loadSymbol kernelVirt st address file).bind fun ⟨st, address, file⟩ =>
      loadSymbols kernelVirt turns st address file

/-- `Initialize`, for the module that `FindBootModule` has found. No turn leaves the file as it
is. -/
def loadModule (kernelVirt : ℕ) (file : Option (List UInt8)) (st : Stacktrace) :
    Option (Bool × Stacktrace) :=
  match file with
  | none | some [] => some (false, st)
  | some file => (loadSymbols kernelVirt file.length st 0 file).map fun st => (true, st)

end Stacktrace

/-! ## Symbol files -/

/-- A line of a symbol file. -/
structure SymbolLine where
  digits : List (Fin 16)
  type : UInt8
  name : List UInt8
  length_digits : digits.length = 16
  name_ne_nil : name ≠ []
  no_end : ∀ c ∈ name, c ≠ 0 ∧ c ≠ 0x0a

/-- A digit of the file. -/
def hexDigit (d : Fin 16) : UInt8 :=
  if d.val < 10 then UInt8.ofNat (0x30 + d.val) else UInt8.ofNat (0x61 + (d.val - 10))

namespace SymbolLine

def bytes (l : SymbolLine) : List UInt8 :=
  l.digits.map hexDigit ++ ([0x20, l.type, 0x20] ++ (l.name ++ [0x0a]))

/-- The address that the digits spell. -/
def address (l : SymbolLine) : ℕ := l.digits.foldl (fun n d => n * 16 + d.val) 0

/-- The symbol of a line, where the kernel is. -/
def symbol (kernelVirt : ℕ) (l : SymbolLine) : Symbol :=
  ⟨l.name, Stacktrace.rebase kernelVirt l.address⟩

end SymbolLine

namespace Stacktrace

/-! ### What is loaded -/

theorem parseHexDigit_hexDigit : ∀ d : Fin 16, parseHexDigit (hexDigit d) = some d.val := by
  decide

/-- A digit behind those before. -/
theorem shiftIn_eq (n : ℕ) (d : Fin 16) :
    (n <<< 4) % wordCount ||| d.val = (n * 16 + d.val) % wordCount := by
  have hshift : (n <<< 4) % wordCount = 2 ^ 4 * (n % 2 ^ 60) := by
    rw [Nat.shiftLeft_eq, Nat.mul_comm, ← Nat.mul_mod_mul_left]
    rfl
  have hd : d.val < 2 ^ 4 := d.isLt
  have hword : wordCount = 2 ^ 4 * 2 ^ 60 := rfl
  rw [hshift, ← Nat.two_pow_add_eq_or_of_lt hd, hword]
  omega

/-- The number that digits spell behind `n`. -/
def spell (digits : List (Fin 16)) (n : ℕ) : ℕ := digits.foldl (fun n d => n * 16 + d.val) n

theorem spell_eq (digits : List (Fin 16)) (n : ℕ) :
    spell digits n = n * 16 ^ digits.length + spell digits 0 := by
  induction digits generalizing n with
  | nil => exact (Nat.mul_one n).symm
  | cons d digits ih =>
    have hn := ih (n * 16 + d.val)
    have hzero := ih (0 * 16 + d.val)
    change spell digits (n * 16 + d.val) = _ + spell digits (0 * 16 + d.val)
    rw [hn, hzero, List.length_cons, Nat.pow_succ']
    grind

theorem spell_lt (digits : List (Fin 16)) : spell digits 0 < 16 ^ digits.length := by
  induction digits with
  | nil => exact Nat.one_pos
  | cons d digits ih =>
    have hd := d.isLt
    have hsum := spell_eq digits (0 * 16 + d.val)
    change spell digits (0 * 16 + d.val) < _
    rw [hsum, List.length_cons, Nat.pow_succ', Nat.zero_mul, Nat.zero_add]
    have hle := Nat.mul_le_mul_right (16 ^ digits.length) (Nat.le_of_lt_succ hd)
    omega

theorem spell_mod (digits : List (Fin 16)) (n : ℕ) :
    spell digits (n % wordCount) % wordCount = spell digits n % wordCount := by
  rw [spell_eq, spell_eq digits n, Nat.add_mod, Nat.mod_mul_mod, ← Nat.add_mod]

/-- Reading digits goes on from the address before. -/
theorem readAddress_digits (digits : List (Fin 16)) (address : ℕ) (current : List UInt8)
    (haddress : address < wordCount) :
    readAddress digits.length address (digits.map hexDigit ++ current) =
      some (spell digits address % wordCount, current) := by
  induction digits generalizing address with
  | nil => rw [show spell [] address = address from rfl, Nat.mod_eq_of_lt haddress]; rfl
  | cons d digits ih =>
    rw [List.length_cons, List.map_cons, List.cons_append, readAddress, parseHexDigit_hexDigit,
      Option.bind_some, shiftIn_eq, ih _ (Nat.mod_lt _ (by decide)), spell_mod]
    rfl

/-- The digits of a line shift all of the address before out. -/
theorem readAddress_line (l : SymbolLine) (address : ℕ) (current : List UInt8)
    (haddress : address < wordCount) :
    readAddress 16 address (l.digits.map hexDigit ++ current) = some (l.address, current) := by
  have hread := readAddress_digits l.digits address current haddress
  have hlt := spell_lt l.digits
  rw [spell_eq, l.length_digits] at hread
  rw [l.length_digits] at hlt
  have hword : 16 ^ 16 = wordCount := rfl
  rw [hread, hword, Nat.mul_add_mod_self_right, Nat.mod_eq_of_lt (hword ▸ hlt)]
  rfl

theorem skipName_append (name rest : List UInt8) (h : ∀ c ∈ name, c ≠ 0 ∧ c ≠ 0x0a) :
    skipName (name ++ 0x0a :: rest) = some rest := by
  induction name with
  | nil => rfl
  | cons c name ih =>
    have hc := h c List.mem_cons_self
    rw [List.cons_append, skipName, if_neg (not_or.mpr hc)]
    exact ih fun c hc => h c (List.mem_cons_of_mem _ hc)

theorem takeWhile_name {name : List UInt8} (rest : List UInt8)
    (h : ∀ c ∈ name, c ≠ 0 ∧ c ≠ 0x0a) :
    ((name ++ 0x0a :: rest).takeWhile (· ≠ 0)).takeWhile (· ≠ 0x0a) = name := by
  rw [List.takeWhile_append_of_pos fun c hc => decide_eq_true (h c hc).1,
    List.takeWhile_append_of_pos fun c hc => decide_eq_true (h c hc).2,
    List.takeWhile_cons_of_pos (by decide), List.takeWhile_cons_of_neg (by decide),
    List.append_nil]

theorem loadSymbol_line (kernelVirt : ℕ) (st : Stacktrace) {address : ℕ} (l : SymbolLine)
    (rest : List UInt8) (haddress : address < wordCount) :
    loadSymbol kernelVirt st address (l.bytes ++ rest) =
      some (st.add (l.symbol kernelVirt), rebase kernelVirt l.address, rest) := by
  obtain ⟨c, name, hname⟩ := List.exists_cons_of_ne_nil l.name_ne_nil
  have hend := l.no_end
  rw [hname] at hend
  have hskip := skipName_append name rest fun c hc => hend c (List.mem_cons_of_mem _ hc)
  have htake := takeWhile_name rest hend
  rw [loadSymbol, SymbolLine.bytes, List.append_assoc, readAddress_line l _ _ haddress,
    Option.bind_some, hname]
  simp only [List.cons_append, List.nil_append, List.append_assoc, List.drop_succ_cons,
    List.drop_zero, List.isEmpty_cons, List.tail_cons, Bool.false_eq_true, if_false] at htake ⊢
  rw [hskip, htake, ← hname]
  rfl

theorem rebase_lt (kernelVirt : ℕ) {address : ℕ} (h : address < wordCount) :
    rebase kernelVirt address < wordCount := by
  rw [rebase]
  split
  · exact Nat.mod_lt _ (by decide)
  · exact h

theorem address_lt (l : SymbolLine) : l.address < wordCount := by
  have hlt := spell_lt l.digits
  rw [l.length_digits] at hlt
  exact hlt

theorem loadSymbols_succ (kernelVirt turns : ℕ) (st : Stacktrace) (address : ℕ)
    {file : List UInt8} (h : file ≠ []) :
    loadSymbols kernelVirt (turns + 1) st address file =
      (loadSymbol kernelVirt st address file).bind fun next =>
        loadSymbols kernelVirt turns next.1 next.2.1 next.2.2 := by
  cases file with
  | nil => exact absurd rfl h
  | cons c file => rfl

theorem bytes_ne_nil (l : SymbolLine) : l.bytes ≠ [] :=
  List.append_ne_nil_of_right_ne_nil _ (List.cons_ne_nil _ _)

/-- A file gives the symbols of its lines. -/
theorem loadSymbols_lines (kernelVirt : ℕ) (lines : List SymbolLine) (st : Stacktrace)
    {turns address : ℕ} (hturns : lines.length ≤ turns) (haddress : address < wordCount) :
    loadSymbols kernelVirt turns st address (lines.flatMap SymbolLine.bytes) =
      some ((lines.map (SymbolLine.symbol kernelVirt)).foldl add st) := by
  induction lines generalizing st turns address with
  | nil => cases turns <;> rfl
  | cons l lines ih =>
    cases turns with
    | zero => exact absurd hturns (Nat.not_succ_le_zero _)
    | succ turns =>
      rw [List.flatMap_cons, loadSymbols_succ kernelVirt turns st address
        (List.append_ne_nil_of_left_ne_nil (bytes_ne_nil l) _),
        loadSymbol_line kernelVirt st l _ haddress, Option.bind_some]
      exact ih _ (Nat.le_of_succ_le_succ hturns) (rebase_lt kernelVirt (address_lt l))

theorem length_le_flatMap (lines : List SymbolLine) :
    lines.length ≤ (lines.flatMap SymbolLine.bytes).length := by
  induction lines with
  | nil => exact Nat.le_refl 0
  | cons l lines ih =>
    have hpos := List.length_pos_of_ne_nil (bytes_ne_nil l)
    rw [List.flatMap_cons, List.length_append, List.length_cons]
    omega

theorem loadModule_of_ne_nil (kernelVirt : ℕ) (st : Stacktrace) {file : List UInt8}
    (h : file ≠ []) : loadModule kernelVirt (some file) st =
      (loadSymbols kernelVirt file.length st 0 file).map fun st => (true, st) := by
  cases file with
  | nil => exact absurd rfl h
  | cons c file => rfl

/-- What `Initialize` leaves behind for a file. -/
theorem loadModule_lines (kernelVirt : ℕ) (lines : List SymbolLine) :
    ∃ loaded, loadModule kernelVirt (some (lines.flatMap SymbolLine.bytes)) unloaded =
      some (loaded, (lines.map (SymbolLine.symbol kernelVirt)).foldl add unloaded) := by
  by_cases hempty : lines.flatMap SymbolLine.bytes = []
  · have hlength := length_le_flatMap lines
    rw [hempty] at hlength ⊢
    obtain rfl := List.eq_nil_of_length_eq_zero (Nat.le_zero.mp hlength)
    exact ⟨false, rfl⟩
  · rw [loadModule_of_ne_nil kernelVirt unloaded hempty,
      loadSymbols_lines kernelVirt lines unloaded (length_le_flatMap lines) (Nat.two_pow_pos 64)]
    exact ⟨true, rfl⟩

/-! ### The bounds -/

theorem foldl_add_symbols (symbols : List Symbol) (st : Stacktrace) :
    (symbols.foldl add st).symbols = st.symbols ++ symbols := by
  induction symbols generalizing st with
  | nil => exact (List.append_nil _).symm
  | cons s symbols ih => rw [List.foldl_cons, ih, add, List.append_assoc]; rfl

theorem lt_lowest_iff (symbols : List Symbol) (st : Stacktrace) (address : ℕ) :
    address < (symbols.foldl add st).lowestKernelSymbolAddress ↔
      address < st.lowestKernelSymbolAddress ∧ ∀ s ∈ symbols, address < s.address := by
  induction symbols generalizing st with
  | nil => simp
  | cons s symbols ih =>
    have hadd : address < (st.add s).lowestKernelSymbolAddress ↔
        address < st.lowestKernelSymbolAddress ∧ address < s.address := by
      rw [add]
      dsimp only
      split <;> omega
    rw [List.foldl_cons, ih, hadd, List.forall_mem_cons, and_assoc]

theorem highest_lt_iff (symbols : List Symbol) (st : Stacktrace) (address : ℕ) :
    (symbols.foldl add st).highestKernelSymbolAddress < address ↔
      st.highestKernelSymbolAddress < address ∧ ∀ s ∈ symbols, s.address < address := by
  induction symbols generalizing st with
  | nil => simp
  | cons s symbols ih =>
    have hadd : (st.add s).highestKernelSymbolAddress < address ↔
        st.highestKernelSymbolAddress < address ∧ s.address < address := by
      rw [add]
      dsimp only
      split <;> omega
    rw [List.foldl_cons, ih, hadd, List.forall_mem_cons, and_assoc]

/-! ### The search -/

/-- The symbol with the greatest address that is not above the given one, and none below the
first. -/
def Finds (symbols : List Symbol) (address : ℕ) : Option Symbol → Prop
  | some s => s ∈ symbols ∧ s.address ≤ address ∧
      ∀ t ∈ symbols, t.address ≤ address → t.address ≤ s.address
  | none => ∀ s ∈ symbols.head?, address < s.address

theorem symbolBelow_eq_none_iff (address : ℕ) (s : Symbol) (rest : List Symbol) :
    symbolBelow address (s :: rest) = none ↔ ∀ t ∈ rest, t.address ≤ address := by
  induction rest generalizing s with
  | nil => exact iff_of_true rfl fun t ht => absurd ht List.not_mem_nil
  | cons t rest ih =>
    rw [symbolBelow, List.forall_mem_cons, ← ih t]
    by_cases hlt : address < t.address
    · rw [if_pos hlt]
      exact iff_of_false (Option.some_ne_none s) fun h => Nat.not_le_of_lt hlt h.1
    · rw [if_neg hlt, and_iff_right (Nat.le_of_not_lt hlt)]

/-- What the loop finds in sorted symbols is right, if it is not the first one by mistake. -/
theorem symbolBelow_eq_some {address : ℕ} {s r : Symbol} {rest : List Symbol}
    (hsorted : (s :: rest).Pairwise fun s t => s.address ≤ t.address)
    (h : symbolBelow address (s :: rest) = some r) :
    r ∈ s :: rest ∧ (r = s ∨ r.address ≤ address) ∧
      ∀ t ∈ s :: rest, t.address ≤ address → t.address ≤ r.address := by
  induction rest generalizing s with
  | nil => exact absurd h (by simp [symbolBelow])
  | cons t rest ih =>
    obtain ⟨hs, htail⟩ := List.pairwise_cons.mp hsorted
    have ht := (List.pairwise_cons.mp htail).1
    rw [symbolBelow] at h
    by_cases hlt : address < t.address
    · rw [if_pos hlt] at h
      obtain rfl := Option.some.inj h
      refine ⟨List.mem_cons_self, Or.inl rfl, List.forall_mem_cons.mpr ⟨fun _ => Nat.le_refl _, ?_⟩⟩
      refine List.forall_mem_cons.mpr ⟨fun hle => by omega, fun u hu hle => ?_⟩
      have := ht u hu
      omega
    · rw [if_neg hlt] at h
      obtain ⟨hmem, hor, hmax⟩ := ih htail h
      have hle : r.address ≤ address := by
        rcases hor with rfl | hle
        · exact Nat.le_of_not_lt hlt
        · exact hle
      refine ⟨List.mem_cons_of_mem s hmem, Or.inr hle, List.forall_mem_cons.mpr ⟨fun _ => ?_, hmax⟩⟩
      exact (hs t List.mem_cons_self).trans
        (hmax t List.mem_cons_self (Nat.le_of_not_lt hlt))

theorem getSymbol_eq_none_iff (address : ℕ) (s : Symbol) (rest : List Symbol) :
    ((s :: rest).foldl add unloaded).getSymbol address = none ↔
      (address < 0xffffffff ∧ ∀ t ∈ s :: rest, address < t.address) ∨
        ∀ t ∈ rest, t.address ≤ address := by
  have hlow : address < ((s :: rest).foldl add unloaded).lowestKernelSymbolAddress ↔
      address < 0xffffffff ∧ ∀ t ∈ s :: rest, address < t.address :=
    lt_lowest_iff (s :: rest) unloaded address
  have hhigh := highest_lt_iff (s :: rest) unloaded address
  rw [getSymbol, foldl_add_symbols]
  split
  · rename_i hbound
    refine iff_of_true rfl (hbound.imp hlow.mp fun h t ht => ?_)
    exact Nat.le_of_lt ((hhigh.mp h).2 t (List.mem_cons_of_mem s ht))
  · rename_i hbound
    rw [← hlow, or_iff_right fun h => hbound (Or.inl h)]
    exact symbolBelow_eq_none_iff address s rest

theorem getSymbol_eq_some {address : ℕ} {s r : Symbol} {rest : List Symbol}
    (hsorted : (s :: rest).Pairwise fun s t => s.address ≤ t.address)
    (h : ((s :: rest).foldl add unloaded).getSymbol address = some r) :
    r ∈ s :: rest ∧ (r = s ∨ r.address ≤ address) ∧
      ∀ t ∈ s :: rest, t.address ≤ address → t.address ≤ r.address := by
  rw [getSymbol, foldl_add_symbols] at h
  split at h
  · exact absurd h.symm (Option.some_ne_none r)
  · exact symbolBelow_eq_some hsorted h

theorem le_last {symbols : List Symbol} {s last : Symbol}
    (hsorted : symbols.Pairwise fun s t => s.address ≤ t.address) (hs : s ∈ symbols)
    (hlast : last ∈ symbols.getLast?) : s.address ≤ last.address := by
  rw [← List.dropLast_append_getLast? last hlast] at hsorted hs
  rcases List.mem_append.mp hs with hs | hs
  · exact (List.pairwise_append.mp hsorted).2.2 s hs last List.mem_cons_self
  · rw [List.mem_singleton.mp hs]

/-- What `GetSymbol` finds in sorted symbols. -/
theorem finds_getSymbol_iff {symbols : List Symbol} (address : ℕ)
    (hsorted : symbols.Pairwise fun s t => s.address ≤ t.address) :
    Finds symbols address ((symbols.foldl add unloaded).getSymbol address) ↔
      (∀ s ∈ symbols.getLast?, address < s.address) ∧
      ∀ s ∈ symbols.head?, address < s.address → address < 0xffffffff ∨ symbols.length = 1 := by
  cases symbols with
  | nil =>
    have hnone : unloaded.getSymbol address = none := by
      rw [getSymbol]
      split <;> rfl
    rw [List.foldl_nil, hnone]
    exact iff_of_true (fun s h => absurd h (Option.not_mem_none s))
      ⟨fun s h => absurd h (Option.not_mem_none s), fun s h => absurd h (Option.not_mem_none s)⟩
  | cons s rest =>
    obtain ⟨last, hlast⟩ : ∃ last, (s :: rest).getLast? = some last :=
      ⟨_, List.getLast?_eq_some_getLast (List.cons_ne_nil s rest)⟩
    have hle : ∀ t ∈ s :: rest, t.address ≤ last.address := fun t ht => le_last hsorted ht hlast
    have hs := (List.pairwise_cons.mp hsorted).1
    have hnone := getSymbol_eq_none_iff address s rest
    have hmem := List.mem_of_getLast? hlast
    simp only [hlast, List.head?_cons, Option.mem_def, Option.some.injEq, forall_eq',
      List.length_cons, Nat.add_eq_right, List.length_eq_zero_iff]
    cases hres : ((s :: rest).foldl add unloaded).getSymbol address with
    | none =>
      simp only [Finds, List.head?_cons, Option.mem_def, Option.some.injEq, forall_eq']
      rcases hnone.mp hres with ⟨hsmall, hall⟩ | hall
      · have hfirst := hall s List.mem_cons_self
        exact iff_of_true hfirst ⟨hall last hmem, fun _ => Or.inl hsmall⟩
      · -- all of the symbols behind the first one are at or below the address
        constructor
        · intro hfirst
          have hrest : rest = [] := by
            refine List.eq_nil_iff_forall_not_mem.mpr fun t ht => ?_
            have := hs t ht
            have := hall t ht
            omega
          subst hrest
          rw [List.mem_singleton.mp hmem]
          exact ⟨hfirst, fun _ => Or.inr rfl⟩
        · rintro ⟨hlt, -⟩
          rcases List.mem_cons.mp hmem with rfl | hmem
          · exact hlt
          · exact absurd (hall last hmem) (Nat.not_le_of_lt hlt)
    | some r =>
      obtain ⟨hr, hor, hmax⟩ := getSymbol_eq_some hsorted hres
      obtain ⟨hsmall, habove⟩ := not_or.mp (mt hnone.mpr (hres ▸ Option.some_ne_none r))
      constructor
      · rintro ⟨-, hra, -⟩
        have hfirst : s.address ≤ address := by
          rcases List.mem_cons.mp hr with rfl | hr
          · exact hra
          · exact (hs r hr).trans hra
        refine ⟨Nat.lt_of_not_le fun hge => habove fun t ht => ?_, fun h => by omega⟩
        exact (hle t (List.mem_cons_of_mem s ht)).trans hge
      · rintro ⟨-, hfirst⟩
        refine ⟨hr, hor.elim (fun heq => ?_) id, hmax⟩
        subst heq
        refine Nat.le_of_not_lt fun hlt => ?_
        rcases hfirst hlt with hbound | hrest
        · refine hsmall ⟨hbound, List.forall_mem_cons.mpr ⟨hlt, fun t ht => ?_⟩⟩
          exact Nat.lt_of_lt_of_le hlt (hs t ht)
        · exact habove fun t ht => absurd ht (hrest ▸ List.not_mem_nil)

/-- The symbols of a file are in the order of their addresses. -/
def Ascending (kernelVirt : ℕ) (lines : List SymbolLine) : Prop :=
  lines.Pairwise fun l m => rebase kernelVirt l.address ≤ rebase kernelVirt m.address

/-- The order in the file is kept where all addresses are absolute, or all are relative to the
kernel. -/
theorem ascending_of_pairwise {kernelVirt : ℕ} {lines : List SymbolLine}
    (h : lines.Pairwise fun l m => l.address ≤ m.address)
    (hside : (∀ l ∈ lines, kernelVirt ≤ l.address) ∨
      ∀ l ∈ lines, l.address < kernelVirt ∧ l.address + kernelVirt < wordCount) :
    Ascending kernelVirt lines := by
  refine h.imp_of_mem fun {l m} hl hm hle => ?_
  rcases hside with hside | hside
  · rw [rebase, rebase, if_neg (Nat.not_lt_of_le (hside l hl)),
      if_neg (Nat.not_lt_of_le (hside m hm))]
    exact hle
  · rw [rebase, rebase, if_pos (hside l hl).1, if_pos (hside m hm).1, offset_of_lt (hside l hl).2,
      offset_of_lt (hside m hm).2]
    omega

/-- **Which addresses are looked up.** An address at or above the last symbol is not found, and one
below the first symbol is taken for it from `0xffffffff` on, which the lowest address starts
with. -/
theorem getSymbol_finds_iff (kernelVirt : ℕ) (lines : List SymbolLine) (address : ℕ)
    (hascending : Ascending kernelVirt lines) :
    ∃ loaded st, loadModule kernelVirt (some (lines.flatMap SymbolLine.bytes)) unloaded =
        some (loaded, st) ∧
      st.symbols = lines.map (SymbolLine.symbol kernelVirt) ∧
      (Finds st.symbols address (st.getSymbol address) ↔
        (∀ l ∈ lines.getLast?, address < rebase kernelVirt l.address) ∧
        ∀ l ∈ lines.head?, address < rebase kernelVirt l.address →
          address < 0xffffffff ∨ lines.length = 1) := by
  obtain ⟨loaded, hload⟩ := loadModule_lines kernelVirt lines
  have hsorted : (lines.map (SymbolLine.symbol kernelVirt)).Pairwise
      fun s t => s.address ≤ t.address := List.pairwise_map.mpr hascending
  have hsymbols := foldl_add_symbols (lines.map (SymbolLine.symbol kernelVirt)) unloaded
  refine ⟨loaded, _, hload, hsymbols, ?_⟩
  rw [hsymbols]
  refine (finds_getSymbol_iff address hsorted).trans ?_
  simp only [List.getLast?_map, List.head?_map, List.length_map, Option.mem_def,
    Option.map_eq_some_iff, forall_exists_index, and_imp, forall_apply_eq_imp_iff₂]
  exact Iff.rfl

theorem length_zeros : (List.replicate 16 (0 : Fin 16)).length = 16 := List.length_replicate

theorem length_sixteen : (List.replicate 14 (0 : Fin 16) ++ [1, 0]).length = 16 := by decide

theorem name_ne_nil_main : ([0x6d] : List UInt8) ≠ [] := by decide

theorem no_end_main : ∀ c ∈ ([0x6d] : List UInt8), c ≠ 0 ∧ c ≠ 0x0a := by
  intro c hc
  rw [List.mem_singleton.mp hc]
  decide

/-- Two symbols at the begin of the kernel. -/
def twoLines : List SymbolLine :=
  [⟨List.replicate 16 0, 0x54, [0x6d], length_zeros, name_ne_nil_main, no_end_main⟩,
    ⟨List.replicate 14 0 ++ [1, 0], 0x54, [0x6d], length_sixteen, name_ne_nil_main, no_end_main⟩]

theorem getSymbol_finds_first :
    Ascending 0xffffffff80000000 twoLines ∧
    ∃ loaded st, loadModule 0xffffffff80000000 (some (twoLines.flatMap SymbolLine.bytes)) unloaded =
        some (loaded, st) ∧
      st.symbols = twoLines.map (SymbolLine.symbol 0xffffffff80000000) ∧
      (Finds st.symbols 0xffffffff80000008 (st.getSymbol 0xffffffff80000008) ↔
        (∀ l ∈ twoLines.getLast?, 0xffffffff80000008 < rebase 0xffffffff80000000 l.address) ∧
        ∀ l ∈ twoLines.head?, 0xffffffff80000008 < rebase 0xffffffff80000000 l.address →
          0xffffffff80000008 < 0xffffffff ∨ twoLines.length = 1) := by
  have hascending : Ascending 0xffffffff80000000 twoLines := by
    unfold Ascending
    decide
  exact ⟨hascending, getSymbol_finds_iff _ twoLines _ hascending⟩

/-- The last symbol is not found at its own address. -/
theorem not_finds_last :
    ∃ st, loadModule 0xffffffff80000000 (some (twoLines.flatMap SymbolLine.bytes)) unloaded =
        some (true, st) ∧
      ¬Finds st.symbols 0xffffffff80000010 (st.getSymbol 0xffffffff80000010) := by
  refine ⟨_, rfl, fun h => ?_⟩
  have hfirst := h ⟨[0x6d], 0xffffffff80000000⟩ rfl
  exact absurd hfirst (by decide)

end Stacktrace

end Cryptix
