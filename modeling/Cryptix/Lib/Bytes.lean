import Mathlib.Algebra.Order.Ring.Nat
import Mathlib.Data.List.Basic

/-!
# Numbers and strings in byte memory

Memory is a byte for each address. A number of `n` bytes is stored with its lowest byte first, a
string byte after byte. Reading depends on the bytes read and on nothing else (`readLE_congr`), so a
write elsewhere does not matter. A string may also be what is in front of the first NUL (`cString`,
`Spells`), so that it does not depend on what was written alone.
-/

namespace Cryptix.Lib

variable {m m' : ℕ → UInt8} {a b n v : ℕ}

/-- The number in the `n` bytes at `a`. -/
def readLE (m : ℕ → UInt8) (a : ℕ) : ℕ → ℕ
  | 0 => 0
  | n + 1 => (m a).toNat + 256 * readLE m (a + 1) n

/-- Memory with the `n` low bytes of a number at `a`. -/
def writeLE (m : ℕ → UInt8) (a n v : ℕ) : ℕ → UInt8 := fun i =>
  if a ≤ i ∧ i < a + n then UInt8.ofNat (v / 256 ^ (i - a)) else m i

/-- Memory with a string of bytes at `a`. -/
def writeBytes (m : ℕ → UInt8) (a : ℕ) (data : List UInt8) : ℕ → UInt8 := fun i =>
  if a ≤ i ∧ i < a + data.length then data.getD (i - a) 0 else m i

theorem readLE_congr (h : ∀ i < n, m (a + i) = m' (b + i)) : readLE m a n = readLE m' b n := by
  induction n generalizing a b with
  | zero => rfl
  | succ n ih =>
    have hhead : m a = m' b := h 0 (by omega)
    have htail : readLE m (a + 1) n = readLE m' (b + 1) n := by
      refine ih fun i hi => ?_
      have hstep := h (i + 1) (by omega)
      rwa [show a + 1 + i = a + (i + 1) by omega, show b + 1 + i = b + (i + 1) by omega]
    rw [readLE, readLE, hhead, htail]

/-- A number has the bytes it was read from. -/
theorem byte_eq_of_readLE (h : readLE m a n = readLE m' b n) {i : ℕ} (hi : i < n) :
    m (a + i) = m' (b + i) := by
  induction n generalizing a b i with
  | zero => omega
  | succ n ih =>
    rw [readLE, readLE] at h
    have hm := (m a).toNat_lt
    have hm' := (m' b).toNat_lt
    have hhead : m a = m' b := UInt8.toNat_inj.mp (by omega)
    cases i with
    | zero => exact hhead
    | succ i =>
      have htail := ih (show readLE m (a + 1) n = readLE m' (b + 1) n by omega)
        (Nat.lt_of_succ_lt_succ hi)
      rwa [Nat.add_assoc, Nat.add_assoc, Nat.add_comm 1 i] at htail

theorem readLE_lt (m : ℕ → UInt8) (a n : ℕ) : readLE m a n < 256 ^ n := by
  induction n generalizing a with
  | zero => exact Nat.one_pos
  | succ n ih =>
    have hbyte : (m a).toNat < 256 := UInt8.toNat_lt (m a)
    have htail := ih (a + 1)
    rw [readLE, Nat.pow_succ]
    omega

/-- The low and the high bytes of a number. -/
theorem readLE_add (m : ℕ → UInt8) (a n k : ℕ) :
    readLE m a (n + k) = readLE m a n + 256 ^ n * readLE m (a + n) k := by
  induction n generalizing a with
  | zero => rw [Nat.zero_add, readLE, Nat.pow_zero, Nat.one_mul, Nat.zero_add]; rfl
  | succ n ih =>
    rw [Nat.add_right_comm, readLE, ih, readLE, Nat.add_assoc a 1 n, Nat.add_comm 1 n, Nat.mul_add,
      ← Nat.add_assoc, ← Nat.mul_assoc, ← Nat.pow_succ']

theorem writeLE_of_mem (m : ℕ → UInt8) (a n v : ℕ) {i : ℕ} (hi : i < n) :
    writeLE m a n v (a + i) = UInt8.ofNat (v / 256 ^ i) := by
  rw [writeLE, if_pos (by omega), Nat.add_sub_cancel_left]

theorem writeLE_of_not_mem {i : ℕ} (h : i < a ∨ a + n ≤ i) : writeLE m a n v i = m i := by
  rw [writeLE, if_neg (by omega)]

theorem writeLE_byte (m : ℕ → UInt8) (a v : ℕ) : writeLE m a 1 v a = UInt8.ofNat v := by
  have hbyte := writeLE_of_mem m a 1 v Nat.one_pos
  rwa [Nat.pow_zero, Nat.div_one] at hbyte

theorem writeBytes_of_mem (m : ℕ → UInt8) (a : ℕ) {data : List UInt8} {i : ℕ}
    (hi : i < data.length) : writeBytes m a data (a + i) = data[i] := by
  rw [writeBytes, if_pos (by omega), Nat.add_sub_cancel_left, List.getD_eq_getElem?_getD,
    List.getElem?_eq_getElem hi, Option.getD_some]

theorem writeBytes_of_not_mem {data : List UInt8} {i : ℕ} (h : i < a ∨ a + data.length ≤ i) :
    writeBytes m a data i = m i := by
  rw [writeBytes, if_neg (by omega)]

/-- A string behind a string. -/
theorem writeBytes_append (m : ℕ → UInt8) (a : ℕ) (s t : List UInt8) :
    writeBytes (writeBytes m a s) (a + s.length) t = writeBytes m a (s ++ t) := by
  funext i
  by_cases hs : a ≤ i ∧ i < a + s.length
  · rw [writeBytes_of_not_mem (by omega)]
    obtain ⟨j, rfl⟩ := Nat.exists_eq_add_of_le hs.1
    have hj : j < s.length := by omega
    rw [writeBytes_of_mem m a hj, writeBytes_of_mem m a (by rw [List.length_append]; omega),
      List.getElem_append_left hj]
  · by_cases ht : a + s.length ≤ i ∧ i < a + s.length + t.length
    · obtain ⟨j, rfl⟩ := Nat.exists_eq_add_of_le ht.1
      have hj : j < t.length := by omega
      rw [writeBytes_of_mem _ _ hj, Nat.add_assoc,
        writeBytes_of_mem m a (by rw [List.length_append]; omega),
        List.getElem_append_right (Nat.le_add_right _ _)]
      simp only [Nat.add_sub_cancel_left]
    · rw [writeBytes_of_not_mem (by omega), writeBytes_of_not_mem (by omega),
        writeBytes_of_not_mem (by rw [List.length_append]; omega)]

/-- What is written is read back, but for what does not fit. -/
theorem readLE_writeLE (m : ℕ → UInt8) (a n v : ℕ) :
    readLE (writeLE m a n v) a n = v % 256 ^ n := by
  -- the bytes of `v` from the one at `k` on, by induction on how many are left
  have hread : ∀ j k, k + j = n → readLE (writeLE m a n v) (a + k) j = v / 256 ^ k % 256 ^ j := by
    intro j
    induction j with
    | zero => intro k _; rw [readLE, Nat.pow_zero, Nat.mod_one]
    | succ j ih =>
      intro k hk
      have htail := ih (k + 1) (by omega)
      have hbyte : (writeLE m a n v (a + k)).toNat = v / 256 ^ k % 256 := by
        rw [writeLE_of_mem m a n v (by omega), UInt8.toNat_ofNat']
      rw [readLE, hbyte, Nat.add_assoc, htail, Nat.pow_succ 256 k, ← Nat.div_div_eq_div_mul,
        Nat.pow_succ' (n := j), Nat.mod_mul]
  exact (hread n 0 (Nat.zero_add n)).trans (by rw [Nat.pow_zero, Nat.div_one])

/-! ## Strings that a NUL ends -/

/-- The string in `n` bytes at `a`: what is in front of the first NUL. -/
def cString (m : ℕ → UInt8) (a n : ℕ) : List UInt8 :=
  ((List.range' a n).map m).takeWhile (· ≠ 0)

/-- The bytes at `a` are those of a string, and a NUL. -/
def Spells (m : ℕ → UInt8) : ℕ → List UInt8 → Prop
  | a, [] => m a = 0
  | a, c :: s => m a = c ∧ Spells m (a + 1) s

instance Spells.decidable (m : ℕ → UInt8) : (a : ℕ) → (s : List UInt8) → Decidable (Spells m a s)
  | a, [] => inferInstanceAs (Decidable (m a = 0))
  | a, _ :: s =>
    have := Spells.decidable m (a + 1) s
    inferInstanceAs (Decidable (_ ∧ _))

section CStrings

variable {s t : List UInt8}

theorem Spells.congr (h : ∀ i, a ≤ i → m i = m' i) : Spells m a s ↔ Spells m' a s := by
  induction s generalizing a with
  | nil => rw [Spells, Spells, h a le_rfl]
  | cons c s ih => rw [Spells, Spells, h a le_rfl, ih fun i hi => h i (Nat.le_of_succ_le hi)]

/-- What is in front of the rest of a string has been written. -/
theorem spells_writeBytes_iff (m : ℕ → UInt8) (a : ℕ) (s t : List UInt8) :
    Spells (writeBytes m a s) a (s ++ t) ↔ Spells m (a + s.length) t := by
  induction s generalizing m a with
  | nil =>
    rw [List.nil_append, List.length_nil, Nat.add_zero]
    exact Spells.congr fun i _ => writeBytes_of_not_mem (by rw [List.length_nil]; omega)
  | cons c s ih =>
    have hhead : writeBytes m a (c :: s) a = c :=
      writeBytes_of_mem m a (show 0 < (c :: s).length from Nat.succ_pos s.length)
    have htail : ∀ i, a + 1 ≤ i → writeBytes m a (c :: s) i = writeBytes m (a + 1) s i := by
      intro i hi
      rw [writeBytes, writeBytes, List.length_cons]
      by_cases hlt : i < a + 1 + s.length
      · rw [if_pos (by omega), if_pos (by omega), show i - a = i - (a + 1) + 1 by omega,
          List.getD_cons_succ]
      · rw [if_neg (by omega), if_neg (by omega)]
    rw [List.cons_append, Spells, hhead, Spells.congr htail, ih, List.length_cons,
      Nat.add_right_comm a 1 s.length, Nat.add_assoc]
    exact and_iff_right rfl

theorem cString_succ (m : ℕ → UInt8) (a n : ℕ) :
    cString m a (n + 1) = if m a = 0 then [] else m a :: cString m (a + 1) n := by
  rw [cString, List.range'_succ, List.map_cons, List.takeWhile_cons, cString]
  by_cases hzero : m a = 0 <;> simp [hzero]

theorem cString_eq_iff (hs : (0 : UInt8) ∉ s) (hn : s.length < n) :
    cString m a n = s ↔ Spells m a s := by
  obtain ⟨n, rfl⟩ := Nat.exists_eq_add_one_of_ne_zero (Nat.ne_zero_of_lt hn)
  induction s generalizing a n with
  | nil =>
    rw [cString_succ, Spells]
    by_cases hzero : m a = 0 <;> simp [hzero]
  | cons c s ih =>
    obtain ⟨hc, hs⟩ := not_or.mp (mt List.mem_cons.mpr hs)
    rw [List.length_cons] at hn
    obtain ⟨n, rfl⟩ := Nat.exists_eq_add_one_of_ne_zero (show n ≠ 0 by omega)
    rw [cString_succ, Spells, ← ih (a := a + 1) hs n (by omega)]
    by_cases hzero : m a = 0
    · simp [hzero, hc]
    · simp [hzero]

/-- A string that begins with all of `s` is what `s` has in front of a NUL, if it has one. If not,
the next byte is to be a NUL. -/
theorem cString_eq_takeWhile_iff (hs : ∀ i, (hi : i < s.length) → m (a + i) = s[i])
    (hn : s.length < n) :
    cString m a n = s.takeWhile (· ≠ 0) ↔ 0 ∈ s ∨ m (a + s.length) = 0 := by
  obtain ⟨n, rfl⟩ := Nat.exists_eq_add_one_of_ne_zero (Nat.ne_zero_of_lt hn)
  induction s generalizing a n with
  | nil =>
    rw [cString_succ, List.takeWhile_nil]
    by_cases hzero : m a = 0 <;> simp [hzero]
  | cons c s ih =>
    have hhead : m a = c := hs 0 (Nat.succ_pos _)
    have htail : ∀ i, (hi : i < s.length) → m (a + 1 + i) = s[i] := by
      intro i hi
      rw [Nat.add_right_comm]
      exact hs (i + 1) (Nat.succ_lt_succ hi)
    rw [List.length_cons] at hn
    obtain ⟨n, rfl⟩ := Nat.exists_eq_add_one_of_ne_zero (show n ≠ 0 by omega)
    have hrest := ih (a := a + 1) htail n (by omega)
    rw [Nat.add_right_comm] at hrest
    rw [cString_succ, hhead, List.takeWhile_cons]
    by_cases hzero : c = 0
    · simp [hzero]
    · rw [if_neg hzero, if_pos (decide_eq_true hzero), List.cons_inj_right, hrest, List.mem_cons,
        or_iff_right (Ne.symm hzero), List.length_cons, Nat.add_assoc]

/-- The bytes of a string, and its NUL, are those in memory. -/
theorem getD_cString {i : ℕ} (hi : i < n) (h : ∀ j < i, (cString m a n).getD j 0 ≠ 0) :
    (cString m a n).getD i 0 = m (a + i) := by
  induction i generalizing a n with
  | zero =>
    obtain ⟨n, rfl⟩ := Nat.exists_eq_add_one_of_ne_zero (Nat.ne_zero_of_lt hi)
    rw [cString_succ]
    by_cases hzero : m a = 0
    · rw [if_pos hzero]
      exact hzero.symm
    · rw [if_neg hzero]
      rfl
  | succ i ih =>
    obtain ⟨n, rfl⟩ := Nat.exists_eq_add_one_of_ne_zero (Nat.ne_zero_of_lt hi)
    rw [cString_succ] at h ⊢
    by_cases hzero : m a = 0
    · rw [if_pos hzero] at h
      exact absurd rfl (h 0 (Nat.succ_pos i))
    · rw [if_neg hzero] at h ⊢
      rw [List.getD_cons_succ, ih (Nat.lt_of_succ_lt_succ hi) fun j hj =>
        h (j + 1) (Nat.succ_lt_succ hj), Nat.add_right_comm, Nat.add_assoc]

/-- A NUL ends a string. -/
theorem length_cString_le {i : ℕ} (hi : i < n) (hzero : m (a + i) = 0) :
    (cString m a n).length ≤ i := by
  induction i generalizing a n with
  | zero =>
    obtain ⟨n, rfl⟩ := Nat.exists_eq_add_one_of_ne_zero (Nat.ne_zero_of_lt hi)
    rw [cString_succ, if_pos (show m a = 0 from hzero), List.length_nil]
  | succ i ih =>
    obtain ⟨n, rfl⟩ := Nat.exists_eq_add_one_of_ne_zero (Nat.ne_zero_of_lt hi)
    rw [cString_succ]
    split
    · exact Nat.zero_le _
    · rw [List.length_cons]
      refine Nat.succ_le_succ (ih (Nat.lt_of_succ_lt_succ hi) ?_)
      rwa [Nat.add_assoc, Nat.add_comm 1 i]

end CStrings

/-! ## Strings of a given length -/

/-- The `n` bytes at `a`. -/
def bytesAt (m : ℕ → UInt8) (a n : ℕ) : List UInt8 := (List.range' a n).map m

/-- Memory has a string of bytes at `a`. -/
def HoldsBytes (m : ℕ → UInt8) (a : ℕ) (s : List UInt8) : Prop := bytesAt m a s.length = s

instance (m : ℕ → UInt8) (a : ℕ) (s : List UInt8) : Decidable (HoldsBytes m a s) :=
  inferInstanceAs (Decidable (_ = _))

theorem bytesAt_add (m : ℕ → UInt8) (a n k : ℕ) :
    bytesAt m a (n + k) = bytesAt m a n ++ bytesAt m (a + n) k := by
  rw [bytesAt, bytesAt, bytesAt, ← List.map_append, List.range'_append_1]

theorem holdsBytes_append {s t : List UInt8} :
    HoldsBytes m a (s ++ t) ↔ HoldsBytes m a s ∧ HoldsBytes m (a + s.length) t := by
  rw [HoldsBytes, List.length_append, bytesAt_add]
  refine ⟨fun h => List.append_inj h (by simp [bytesAt]), fun ⟨hs, ht⟩ => ?_⟩
  rw [hs, ht]

theorem holdsBytes_cons {c : UInt8} {s : List UInt8} :
    HoldsBytes m a (c :: s) ↔ m a = c ∧ HoldsBytes m (a + 1) s := by
  simp [HoldsBytes, bytesAt, List.range'_succ]

theorem holdsBytes_writeBytes (m : ℕ → UInt8) (a : ℕ) (s : List UInt8) :
    HoldsBytes (writeBytes m a s) a s := by
  refine List.ext_getElem (by simp [bytesAt]) fun i _ hi => ?_
  simp only [bytesAt, List.getElem_map, List.getElem_range', Nat.one_mul]
  exact writeBytes_of_mem m a hi

/-- A string and a NUL. -/
theorem HoldsBytes.spells {s : List UInt8} (h : HoldsBytes m a (s ++ [0])) : Spells m a s := by
  induction s generalizing a with
  | nil => exact (holdsBytes_cons.mp h).1
  | cons c s ih =>
    obtain ⟨hc, hs⟩ := holdsBytes_cons.mp h
    exact ⟨hc, ih hs⟩

end Cryptix.Lib
