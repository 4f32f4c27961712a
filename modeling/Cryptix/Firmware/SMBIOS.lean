import Cryptix.Lib.Bytes

/-!
# The SMBIOS structures

`Kernel/Firmware/DMI/SMBIOS.cpp`. A structure is a formatted area, whose second byte is its length,
and behind it strings that end with a NUL each and with one more NUL after the last one. The loop of
`Initialize` goes from structure to structure, and has to look for the two NULs to find the next
one. `DmiString` counts the strings from 1; the number 0 stands for no string.

A table that was laid out in this way is read back: every structure up to the one that ends the
table is visited at its place, and its strings are found under their numbers (`visit_tableBytes`).
The loops have a bound as first argument, `none` is a bound that was too small.
-/

namespace Cryptix.Firmware.SMBIOS

open Lib

variable (m : ℕ → UInt8)

/-! ## Reading -/

/-- `Header::Type` and `Header::Length`. -/
def headerType (header : ℕ) : UInt8 := m header
def headerLength (header : ℕ) : ℕ := (m (header + 1)).toNat

/-- `HeaderType::eEndOfTable`. -/
def endOfTable : UInt8 := 127

/-- The loop of `DmiString`, over strings of at most so many characters. -/
def dmiLoop (limit : ℕ) : ℕ → ℕ → ℕ
  | current, 0 => current
  | current, index + 1 =>
    if m current = 0 then current
    else dmiLoop limit (current + (cString m current limit).length + 1) index

/-- `DmiString`. -/
def dmiString (limit header index : ℕ) : List UInt8 :=
  if index = 0 then []
  else cString m (dmiLoop m limit (header + headerLength m header) (index - 1)) limit

/-- The loop of `CalculateStructLength`: the value of `i` after it. -/
def endOfStrings (strTab : ℕ) : ℕ → ℕ → Option ℕ
  | 0, _ => none
  | fuel + 1, i =>
    if m (strTab + i - 1) ≠ 0 ∨ m (strTab + i) ≠ 0 then endOfStrings strTab fuel (i + 1)
    else some i

/-- `CalculateStructLength`. -/
def calculateStructLength (fuel header : ℕ) : Option ℕ :=
  (endOfStrings m (header + headerLength m header) fuel 1).map fun i =>
    headerLength m header + i + 1

/-- The loop of `Initialize`: the structures it visits. -/
def visit (limit : ℕ) : ℕ → ℕ → ℕ → Option (List ℕ)
  | 0, _, _ => none
  | fuel + 1, tableStart, tableEnd =>
    if tableStart < tableEnd then
      if headerType m tableStart = endOfTable then some [tableStart]
      else
        (calculateStructLength m limit tableStart).bind fun structLength =>
          (visit limit fuel (tableStart + structLength) tableEnd).map (tableStart :: ·)
    else some []

/-! ## Tables -/

/-- A structure: the formatted area, with its header, and the strings. -/
structure Structure where
  formatted : List UInt8
  strings : List (List UInt8)
  deriving DecidableEq

namespace Structure

/-- The strings as they are stored. Without a string there are two NULs as well. -/
def stringBytes : List (List UInt8) → List UInt8
  | [] => [0, 0]
  | strings => strings.flatMap (· ++ [0]) ++ [0]

def bytes (s : Structure) : List UInt8 := s.formatted ++ stringBytes s.strings

def type (s : Structure) : UInt8 := s.formatted.headD 0

/-- The formatted area has room for a header and says how long it is, and a string is not empty and
has no NUL. -/
structure Valid (s : Structure) : Prop where
  header : 4 ≤ s.formatted.length
  length : (s.formatted.getD 1 0).toNat = s.formatted.length
  strings : ∀ t ∈ s.strings, t ≠ [] ∧ (0 : UInt8) ∉ t

/-- The string with a number. -/
def string (s : Structure) (index : ℕ) : List UInt8 :=
  if index = 0 then [] else s.strings.getD (index - 1) []

end Structure

def tableBytes (structures : List Structure) : List UInt8 := structures.flatMap Structure.bytes

/-- The structures up to the one that ends the table. -/
def upToEnd : List Structure → List Structure
  | [] => []
  | s :: structures => if s.type = endOfTable then [s] else s :: upToEnd structures

/-- The structures with their places in a table that begins at an address. -/
def placed : ℕ → List Structure → List (ℕ × Structure)
  | _, [] => []
  | a, s :: structures => (a, s) :: placed (a + s.bytes.length) structures

/-! ## The strings of a structure -/

section Strings

variable {m} {a k fuel limit : ℕ} {t : List UInt8} {strings : List (List UInt8)}

theorem endOfStrings_succ (strTab fuel k : ℕ) :
    endOfStrings m strTab (fuel + 1) (k + 1) =
      if m (strTab + k) ≠ 0 ∨ m (strTab + k + 1) ≠ 0 then endOfStrings m strTab fuel (k + 1 + 1)
      else some (k + 1) := rfl

/-- The characters of a string are stepped over. -/
theorem endOfStrings_chars {strTab : ℕ} (ht : (0 : UInt8) ∉ t)
    (hm : HoldsBytes m (strTab + k) t) :
    endOfStrings m strTab (fuel + t.length) (k + 1) =
      endOfStrings m strTab fuel (k + t.length + 1) := by
  induction t generalizing k with
  | nil => rfl
  | cons c t ih =>
    obtain ⟨hc, hrest⟩ := holdsBytes_cons.mp hm
    obtain ⟨hzero, ht⟩ := not_or.mp (mt List.mem_cons.mpr ht)
    have hne : m (strTab + k) ≠ 0 := by rw [hc]; exact Ne.symm hzero
    rw [List.length_cons, ← Nat.add_assoc, endOfStrings_succ, if_pos (.inl hne), ih ht hrest,
      Nat.add_right_comm k 1, Nat.add_assoc k t.length 1]

theorem endOfStrings_strings {strTab : ℕ} (hne : strings ≠ [])
    (hvalid : ∀ t ∈ strings, t ≠ [] ∧ (0 : UInt8) ∉ t)
    (hm : HoldsBytes m (strTab + k) (strings.flatMap (· ++ [0]) ++ [0]))
    (hfuel : (strings.flatMap (· ++ [0]) ++ [0]).length ≤ fuel) :
    endOfStrings m strTab fuel (k + 1) =
      some (k + (strings.flatMap (· ++ [0])).length) := by
  induction strings generalizing k fuel with
  | nil => exact absurd rfl hne
  | cons t strings ih =>
    obtain ⟨-, ht⟩ := hvalid t List.mem_cons_self
    rw [List.flatMap_cons, List.append_assoc, List.append_assoc] at hm
    obtain ⟨hchars, htail⟩ := holdsBytes_append.mp hm
    obtain ⟨hzero, hrest⟩ := holdsBytes_cons.mp htail
    simp only [List.flatMap_cons, List.length_append, List.length_singleton] at hfuel ⊢
    obtain ⟨fuel, rfl⟩ := Nat.exists_eq_add_of_le (show t.length + 1 ≤ fuel by omega)
    rw [show t.length + 1 + fuel = fuel + 1 + t.length by omega, endOfStrings_chars ht hchars,
      endOfStrings_succ]
    rw [Nat.add_assoc strTab k] at hzero hrest
    cases strings with
    | nil =>
      have hlast : m (strTab + (k + t.length) + 1) = 0 := (holdsBytes_cons.mp hrest).1
      rw [if_neg (by simp [hzero, hlast])]
      rfl
    | cons u strings =>
      -- the next string begins behind the NUL, so this one is not the last
      have hnext : m (strTab + (k + t.length) + 1) ≠ 0 := by
        obtain ⟨hu, hu'⟩ := hvalid u (List.mem_cons_of_mem t List.mem_cons_self)
        obtain ⟨c, u, rfl⟩ := List.exists_cons_of_ne_nil hu
        have hc : m (strTab + (k + t.length) + 1) = c := (holdsBytes_cons.mp hrest).1
        rw [hc]
        rintro rfl
        exact hu' List.mem_cons_self
      rw [if_pos (.inr hnext), ih (List.cons_ne_nil u strings)
        (fun t' h' => hvalid t' (List.mem_cons_of_mem t h')) hrest
        (by rw [List.length_append, List.length_singleton]; omega)]
      congr 1
      omega

theorem holdsBytes_of_stringBytes (hm : HoldsBytes m a (Structure.stringBytes strings)) :
    HoldsBytes m a (strings.flatMap (· ++ [0]) ++ [0]) := by
  cases strings with
  | nil => exact holdsBytes_cons.mpr ⟨(holdsBytes_cons.mp hm).1, rfl⟩
  | cons t strings => exact hm

/-- The two NULs are those behind the last string. -/
theorem endOfStrings_eq (hvalid : ∀ t ∈ strings, t ≠ [] ∧ (0 : UInt8) ∉ t)
    (hm : HoldsBytes m a (Structure.stringBytes strings))
    (hfuel : (Structure.stringBytes strings).length ≤ fuel) :
    (endOfStrings m a fuel 1).map (· + 1) = some (Structure.stringBytes strings).length := by
  cases strings with
  | nil =>
    obtain ⟨fuel, rfl⟩ := Nat.exists_eq_add_of_le (show 2 ≤ fuel from hfuel)
    obtain ⟨hfirst, hrest⟩ := holdsBytes_cons.mp hm
    have hsecond : m (a + 1) = 0 := (holdsBytes_cons.mp hrest).1
    rw [Nat.add_comm, endOfStrings, if_neg (by simp [hfirst, hsecond])]
    rfl
  | cons t strings =>
    have hscan := endOfStrings_strings (k := 0) (List.cons_ne_nil t strings) hvalid hm hfuel
    rw [Nat.zero_add] at hscan
    rw [hscan, Nat.zero_add, Structure.stringBytes, List.length_append, List.length_singleton]
    · rfl
    · exact List.cons_ne_nil t strings

/-- The string with a number. -/
theorem cString_dmiLoop (hvalid : ∀ t ∈ strings, t ≠ [] ∧ (0 : UInt8) ∉ t)
    (hlimit : ∀ t ∈ strings, t.length < limit) (hpos : 0 < limit)
    (hm : HoldsBytes m a (strings.flatMap (· ++ [0]) ++ [0])) (index : ℕ) :
    cString m (dmiLoop m limit a index) limit = strings.getD index [] := by
  induction index generalizing strings a with
  | zero =>
    cases strings with
    | nil => exact (cString_eq_iff List.not_mem_nil hpos).mpr (holdsBytes_cons.mp hm).1
    | cons t strings =>
      rw [List.flatMap_cons, List.append_assoc] at hm
      exact (cString_eq_iff (hvalid t List.mem_cons_self).2 (hlimit t List.mem_cons_self)).mpr
        (holdsBytes_append.mp hm).1.spells
  | succ index ih =>
    rw [dmiLoop]
    cases strings with
    | nil =>
      have hzero : m a = 0 := (holdsBytes_cons.mp hm).1
      rw [if_pos hzero, List.getD_nil]
      exact (cString_eq_iff List.not_mem_nil hpos).mpr hzero
    | cons t strings =>
      obtain ⟨hne, ht⟩ := hvalid t List.mem_cons_self
      rw [List.flatMap_cons, List.append_assoc] at hm
      obtain ⟨hchars, hrest⟩ := holdsBytes_append.mp hm
      have hstring : cString m a limit = t :=
        (cString_eq_iff ht (hlimit t List.mem_cons_self)).mpr hchars.spells
      have hfirst : m a ≠ 0 := by
        obtain ⟨c, t, rfl⟩ := List.exists_cons_of_ne_nil hne
        rw [(holdsBytes_cons.mp hchars).1]
        rintro rfl
        exact ht List.mem_cons_self
      rw [List.length_append, List.length_singleton, ← Nat.add_assoc] at hrest
      rw [if_neg hfirst, hstring, List.getD_cons_succ]
      exact ih (fun t' h' => hvalid t' (List.mem_cons_of_mem t h'))
        (fun t' h' => hlimit t' (List.mem_cons_of_mem t h')) hrest

end Strings

/-! ## Reading a table -/

section Tables

variable {m} {a limit fuel : ℕ} {s : Structure} {structures : List Structure}

/-- What is read of a structure at its place. -/
structure ReadBack (m : ℕ → UInt8) (limit header : ℕ) (s : Structure) : Prop where
  type : headerType m header = s.type
  length : headerLength m header = s.formatted.length
  structLength : calculateStructLength m limit header = some s.bytes.length
  strings : ∀ index, dmiString m limit header index = s.string index

theorem length_le_stringBytes {t : List UInt8} {strings : List (List UInt8)} (ht : t ∈ strings) :
    t.length < (Structure.stringBytes strings).length := by
  cases strings with
  | nil => exact absurd ht List.not_mem_nil
  | cons u strings =>
    have hmem : t ++ [0] ∈ (u :: strings).map (· ++ [0]) := List.mem_map_of_mem ht
    have hsublist := (List.sublist_flatten_of_mem hmem).length_le
    rw [Structure.stringBytes, List.length_append, List.flatMap_def]
    · rw [List.length_append, List.length_singleton] at hsublist
      exact Nat.lt_of_lt_of_le (Nat.lt_of_succ_le hsublist) (Nat.le_add_right _ _)
    · exact List.cons_ne_nil u strings

theorem Structure.Valid.readBack (hs : s.Valid) (hm : HoldsBytes m a s.bytes)
    (hlimit : s.bytes.length ≤ limit) : ReadBack m limit a s := by
  obtain ⟨hformatted, hstrings⟩ := holdsBytes_append.mp hm
  obtain ⟨type, length, rest, hcons⟩ :
      ∃ type length rest, s.formatted = type :: length :: rest := by
    have h4 := hs.header
    cases hformat : s.formatted with
    | nil => simp [hformat] at h4
    | cons type tail =>
      cases tail with
      | nil => simp [hformat] at h4
      | cons length rest => exact ⟨type, length, rest, rfl⟩
  have hlength : headerLength m a = s.formatted.length := by
    have hvalid := hs.length
    rw [hcons] at hformatted hvalid
    rw [headerLength, (holdsBytes_cons.mp (holdsBytes_cons.mp hformatted).2).1, hcons]
    exact hvalid
  rw [Structure.bytes, List.length_append] at hlimit
  refine ⟨?_, hlength, ?_, fun index => ?_⟩
  · rw [hcons] at hformatted
    rw [headerType, (holdsBytes_cons.mp hformatted).1, Structure.type, hcons]
    rfl
  · have hend := endOfStrings_eq hs.strings hstrings (show _ ≤ limit by omega)
    obtain ⟨i, hi, hlast⟩ := Option.map_eq_some_iff.mp hend
    rw [calculateStructLength, hlength, hi, Option.map_some, Structure.bytes, List.length_append,
      ← hlast, Nat.add_assoc]
  · have hpos := hs.header
    rw [dmiString, hlength, Structure.string]
    split
    · rfl
    · exact cString_dmiLoop hs.strings
        (fun t ht => by have := length_le_stringBytes ht; omega) (by omega)
        (holdsBytes_of_stringBytes hstrings) _

/-- A table is read back: the walk visits the structures up to the one that ends the table, each at
its place, and finds its type, the lengths of its formatted area and of all of it, and its strings
under their numbers. -/
theorem visit_tableBytes (hvalid : ∀ s ∈ structures, s.Valid)
    (hm : HoldsBytes m a (tableBytes structures)) (hlimit : (tableBytes structures).length ≤ limit)
    (hfuel : structures.length < fuel) :
    visit m limit fuel a (a + (tableBytes structures).length) =
        some ((placed a (upToEnd structures)).map Prod.fst) ∧
      ∀ p ∈ placed a (upToEnd structures), ReadBack m limit p.1 p.2 := by
  induction structures generalizing a fuel with
  | nil =>
    obtain ⟨fuel, rfl⟩ := Nat.exists_eq_add_one_of_ne_zero (Nat.ne_zero_of_lt hfuel)
    exact ⟨if_neg (Nat.lt_irrefl a), fun p hp => absurd hp List.not_mem_nil⟩
  | cons s structures ih =>
    obtain ⟨fuel, rfl⟩ := Nat.exists_eq_add_one_of_ne_zero (Nat.ne_zero_of_lt hfuel)
    have hs := hvalid s List.mem_cons_self
    have hsplit : tableBytes (s :: structures) = s.bytes ++ tableBytes structures :=
      List.flatMap_cons
    rw [hsplit] at hm hlimit ⊢
    rw [List.length_append] at hlimit ⊢
    obtain ⟨hhere, hrest⟩ := holdsBytes_append.mp hm
    have hread := hs.readBack hhere (show s.bytes.length ≤ limit by omega)
    have hpos : 0 < s.bytes.length := by
      have h4 := hs.header
      rw [Structure.bytes, List.length_append]
      omega
    rw [visit, if_pos (by omega), hread.type, upToEnd]
    by_cases hend : s.type = endOfTable
    · rw [if_pos hend, if_pos hend]
      exact ⟨rfl, List.forall_mem_singleton.mpr hread⟩
    · obtain ⟨hvisit, hall⟩ :=
        ih (fun s' h' => hvalid s' (List.mem_cons_of_mem s h')) hrest (by omega)
          (Nat.lt_of_succ_lt_succ hfuel)
      rw [if_neg hend, if_neg hend, hread.structLength, Option.bind_some, ← Nat.add_assoc, hvisit]
      exact ⟨rfl, List.forall_mem_cons.mpr ⟨hread, hall⟩⟩

end Tables

/-! ### A table of two structures -/

/-- A system with a maker and a name, and the end of the table. -/
def twoStructures : List Structure :=
  [⟨[1, 6, 0, 1, 1, 2], [[0x51, 0x45], [0x56]]⟩, ⟨[127, 4, 1, 1], []⟩]

theorem twoStructures_valid : ∀ s ∈ twoStructures, s.Valid := by
  intro s hs
  simp only [twoStructures, List.mem_cons, List.not_mem_nil, or_false] at hs
  obtain rfl | rfl := hs
  · exact ⟨by decide, by decide, by decide⟩
  · exact ⟨by decide, by decide, by decide⟩

theorem visit_tableBytes_two :
    visit (writeBytes (fun _ => 0) 0x100 (tableBytes twoStructures)) 64 3 0x100
        (0x100 + (tableBytes twoStructures).length) = some [0x100, 0x10c] ∧
      ReadBack (writeBytes (fun _ => 0) 0x100 (tableBytes twoStructures)) 64 0x10c
        ⟨[127, 4, 1, 1], []⟩ := by
  have hread := visit_tableBytes twoStructures_valid
    (holdsBytes_writeBytes (fun _ => 0) 0x100 _) (show _ ≤ 64 by decide)
    (show _ < 3 by decide)
  exact ⟨hread.1, hread.2 (0x10c, ⟨[127, 4, 1, 1], []⟩) (by decide)⟩

end Cryptix.Firmware.SMBIOS
