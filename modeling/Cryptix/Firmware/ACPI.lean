import Mathlib.Data.List.TakeWhile
import Mathlib.Data.Nat.Find
import Cryptix.Lib.Bytes
import Cryptix.Library.String

/-!
# The static ACPI tables

`GetTable` in `Kernel/Firmware/ACPI/ACPI.cpp`: the tables that the RSDT, or the XSDT, points to are
gone through for the one with a signature.

The entry number is narrowed to a byte, so that the list is read in turns of 256 entries. A table is
passed over if its bytes add up to zero, and the index of the table that is asked for is counted
upwards. What is left of the search is `getTable_finds_iff`.
-/

namespace Cryptix.ACPI

open KLibC

/-- `sizeof(SDTHeader)`. -/
def headerSize : ℕ := 36

/-- The memory that the tables are in, and the static variables of `ACPI.cpp` for them. `rsdt` is
`s_Rsdt`, which is 0 where it is null. -/
structure StaticTables where
  memory : ℕ → UInt8
  rsdt : ℕ
  xsdtAvailable : Bool

namespace StaticTables

variable (toHigherHalf : ℕ → ℕ) (t : StaticTables) (target : Target) (signature : CString)

/-- `header->Length`. -/
def length (header : ℕ) : ℕ := Lib.readLE t.memory (header + 4) 4

/-- The size of an entry. -/
def width : ℕ := if t.xsdtAvailable then 8 else 4

/-- `entryCount`. -/
def entryCount : ℕ := wordSub (t.length t.rsdt) headerSize / t.width

/-- `Sdts64[i].ToHigherHalf()`, or the same of `Sdts32`. -/
def entry (i : ℕ) : ℕ :=
  toHigherHalf (Lib.readLE t.memory (t.rsdt + headerSize + i * t.width) t.width)

/-- `GetTablePointer`. -/
def getTablePointer (index : UInt8) : ℕ := t.entry toHigherHalf index.toNat

/-- `ValidateChecksum`. -/
def validateChecksum (header : ℕ) : Bool :=
  (List.range (t.length header)).foldl
    (fun checksum i => checksum + (t.memory (header + i)).toUInt32) 0 != 0

theorem no_nul_signature (header : ℕ) : 0 ∉ Lib.cString t.memory header 5 := by
  intro h
  have hne := List.mem_takeWhile_imp h
  exact absurd rfl (of_decide_eq_true hne)

/-- `header->Signature` as a string, which goes on behind the four characters. No more than five
bytes of it are looked at. -/
def signatureAt (header : ℕ) : CString :=
  ⟨Lib.cString t.memory header 5, t.no_nul_signature header⟩

/-- The loop of `GetTable`, from an entry on. -/
def findTable (index : UInt64) : List ℕ → Option ℕ
  | [] => none
  | i :: rest =>
    let header := t.getTablePointer toHigherHalf (UInt8.ofNat i)
    if header = 0 then findTable index rest
    else if !t.validateChecksum header then findTable index rest
    else if (strncmp target signature (t.signatureAt header) 4).1 = 0 then
      if index = 0 then some header else findTable (index + 1) rest
    else findTable index rest

/-- `GetTable`. -/
def getTable (index : UInt64) : Option ℕ :=
  if t.rsdt = 0 then none
  else t.findTable toHigherHalf target signature index (List.range t.entryCount)

/-! ## What is looked for -/

/-- The sum of the bytes of a table. -/
def byteSum (header : ℕ) : ℕ :=
  ((List.range (t.length header)).map fun i => (t.memory (header + i)).toNat).sum

/-- There is a table with the signature, as far as the signature goes. -/
def Named (header : ℕ) : Prop :=
  header ≠ 0 ∧
    ∀ i < 4, (∀ j < i, signature.byteAt j ≠ 0) → t.memory (header + i) = signature.byteAt i

instance decidableNamed (header : ℕ) : Decidable (t.Named signature header) :=
  inferInstanceAs (Decidable (_ ∧ _))

/-- A table with the signature whose bytes add up to zero. -/
def isMatch (header : ℕ) : Bool := t.Named signature header ∧ t.byteSum header % 256 = 0

/-- The number of entries. -/
def tableCount : ℕ := (t.length t.rsdt - headerSize) / t.width

/-- The tables that are asked for, in table order. -/
def tables : List ℕ :=
  ((List.range t.tableCount).map (t.entry toHigherHalf)).filter (t.isMatch signature)

/-! ## What is found -/

/-- A table that counts in the search. -/
def counts (header : ℕ) : Bool := t.Named signature header ∧ t.validateChecksum header

/-- The tables that the search comes to. -/
def visited : List ℕ :=
  (List.range t.entryCount).map fun i => t.getTablePointer toHigherHalf (UInt8.ofNat i)

/-- A table among the first 256 entries has a sum that is zero modulo 256, but is not zero. Behind
them, no table with the signature is valid. -/
def SumsAt (f : ℕ) : Prop :=
  if f < 256 then
    t.byteSum (t.entry toHigherHalf f) % 256 = 0 ∧
      t.byteSum (t.entry toHigherHalf f) % 2 ^ 32 ≠ 0
  else ∀ i < t.tableCount, t.Named signature (t.entry toHigherHalf i) →
    t.byteSum (t.entry toHigherHalf i) % 256 ≠ 0

instance decidableSumsAt (f : ℕ) : Decidable (t.SumsAt toHigherHalf signature f) :=
  inferInstanceAs (Decidable (if f < 256 then _ else _))

/-- The first table with the signature, if there is one, has such sums. -/
def FirstSums : Prop :=
  ∀ f < t.tableCount, t.Named signature (t.entry toHigherHalf f) →
    (∀ j < f, ¬t.Named signature (t.entry toHigherHalf j)) → t.SumsAt toHigherHalf signature f

variable {toHigherHalf t target signature}

/-! ### The tests on a table -/

theorem validateChecksum_iff (header : ℕ) :
    t.validateChecksum header ↔ t.byteSum header % 2 ^ 32 ≠ 0 := by
  have hsum : ∀ (l : List ℕ) (c : UInt32), (l.foldl
      (fun checksum i => checksum + (t.memory (header + i)).toUInt32) c).toNat =
      (c.toNat + (l.map fun i => (t.memory (header + i)).toNat).sum) % 2 ^ 32 := by
    intro l
    induction l with
    | nil => exact fun c => (Nat.mod_eq_of_lt c.toNat_lt).symm
    | cons i l ih =>
      intro c
      rw [List.foldl_cons, ih, List.map_cons, List.sum_cons, UInt32.toNat_add,
        UInt8.toNat_toUInt32, Nat.mod_add_mod, Nat.add_assoc]
  have hzero := hsum (List.range (t.length header)) 0
  rw [UInt32.toNat_zero, Nat.zero_add] at hzero
  rw [validateChecksum, bne_iff_ne, ne_eq, ← UInt32.toNat_inj, hzero]
  rfl

/-- The string that is compared has the bytes in memory. -/
theorem byteAt_signatureAt {header i : ℕ} (hi : i < 4)
    (h : ∀ j < i, (t.signatureAt header).byteAt j ≠ 0) :
    (t.signatureAt header).byteAt i = t.memory (header + i) :=
  Lib.getD_cString (show i < 5 by omega) h

theorem named_iff (target : Target) {header : ℕ} : t.Named signature header ↔
    header ≠ 0 ∧ (strncmp target signature (t.signatureAt header) 4).1 = 0 := by
  refine and_congr_right fun _ => ?_
  have hpart := partAt_commonLength signature (t.signatureAt header)
  generalize commonLength signature.bytes (t.signatureAt header).bytes = k at hpart
  have hstart : ∀ {i}, i ≤ k → ∀ j < i, (t.signatureAt header).byteAt j ≠ 0 := by
    intro i hi j hj
    obtain ⟨heq, hne⟩ := hpart.before j (by omega)
    exact heq ▸ hne
  rw [strncmp_eq_zero_iff, hpart.firstBytes_eq_iff]
  have hfour : (4 : UInt64).toNat = 4 := rfl
  rw [hfour]
  constructor
  · intro h
    refine or_iff_not_imp_left.mpr fun hk => ?_
    rw [byteAt_signatureAt (by omega) (hstart le_rfl)]
    exact (h k (by omega) fun j hj => (hpart.before j hj).2).symm
  · intro h i hi hbefore
    have hik : i ≤ k := by
      -- the strings do not end together in front of this byte
      refine Nat.le_of_not_lt fun hki => ?_
      rcases h with hk | heq
      · omega
      · exact hbefore k hki (hpart.there heq)
    rw [← byteAt_signatureAt hi (hstart hik)]
    rcases Nat.lt_or_eq_of_le hik with hlt | rfl
    · exact (hpart.before i hlt).1.symm
    · rcases h with hk | heq
      · omega
      · exact heq.symm

theorem isMatch_iff {header : ℕ} :
    t.isMatch signature header ↔ t.Named signature header ∧ t.byteSum header % 256 = 0 :=
  decide_eq_true_iff

theorem counts_iff {header : ℕ} :
    t.counts signature header ↔ t.Named signature header ∧ t.byteSum header % 2 ^ 32 ≠ 0 := by
  rw [counts, decide_eq_true_iff, validateChecksum_iff]

/-! ### The loop -/

theorem toNat_neg_succ {index : UInt64} (h : index ≠ 0) :
    (-index).toNat = (-(index + 1)).toNat + 1 := by
  have hpos : index.toNat ≠ 0 := fun hzero => h (UInt64.toNat_inj.mp hzero)
  have hlt := index.toNat_lt
  rw [UInt64.toNat_neg, UInt64.toNat_neg, UInt64.toNat_add, UInt64.toNat_one,
    show UInt64.size = 2 ^ 64 from rfl]
  omega

/-- The index is counted up to where it wraps. -/
theorem findTable_eq (index : UInt64) (l : List ℕ) :
    t.findTable toHigherHalf target signature index l =
      ((l.map fun i => t.getTablePointer toHigherHalf (UInt8.ofNat i)).filter
        (t.counts signature))[(-index).toNat]? := by
  induction l generalizing index with
  | nil => rfl
  | cons i l ih =>
    simp only [findTable, List.map_cons]
    generalize t.getTablePointer toHigherHalf (UInt8.ofNat i) = header
    have hnamed : t.Named signature header ↔
        header ≠ 0 ∧ (strncmp target signature (t.signatureAt header) 4).1 = 0 := named_iff target
    by_cases hcount : t.counts signature header
    · obtain ⟨hname, hsum⟩ := of_decide_eq_true hcount
      obtain ⟨hheader, hequal⟩ := hnamed.mp hname
      rw [if_neg hheader, hsum, Bool.not_true, if_neg Bool.false_ne_true, if_pos hequal,
        List.filter_cons_of_pos hcount]
      by_cases hindex : index = 0
      · rw [if_pos hindex, hindex]
        rfl
      · rw [if_neg hindex, ih, toNat_neg_succ hindex, List.getElem?_cons_succ]
    · rw [List.filter_cons_of_neg hcount, ih]
      by_cases hheader : header = 0
      · rw [if_pos hheader]
      · rw [if_neg hheader]
        by_cases hsum : t.validateChecksum header
        · have hequal : (strncmp target signature (t.signatureAt header) 4).1 ≠ 0 :=
            fun hequal => hcount (decide_eq_true ⟨hnamed.mpr ⟨hheader, hequal⟩, hsum⟩)
          rw [hsum, Bool.not_true, if_neg Bool.false_ne_true, if_neg hequal]
        · rw [Bool.eq_false_iff.mpr hsum, Bool.not_false, if_pos rfl]

theorem getTable_eq (hrsdt : t.rsdt ≠ 0) (index : UInt64) :
    t.getTable toHigherHalf target signature index =
      ((t.visited toHigherHalf).filter (t.counts signature))[(-index).toNat]? := by
  rw [getTable, if_neg hrsdt, findTable_eq, visited]

/-- What is returned is the address of an entry. -/
theorem entry_of_getTable {index : UInt64} {header : ℕ}
    (h : t.getTable toHigherHalf target signature index = some header) :
    ∃ i, t.entry toHigherHalf i = header := by
  by_cases hrsdt : t.rsdt = 0
  · rw [getTable, if_pos hrsdt] at h
    cases h
  · rw [getTable_eq hrsdt] at h
    have hmem := List.mem_of_mem_filter (List.mem_of_getElem? h)
    obtain ⟨i, -, rfl⟩ := List.mem_map.mp hmem
    exact ⟨_, rfl⟩

/-- A search that finds nothing in front of an element. -/
theorem find?_of_first {p : ℕ → Bool} {l : List ℕ} {f a : ℕ} (hf : l[f]? = some a)
    (hbefore : ∀ j < f, ∀ b, l[j]? = some b → p b = false) :
    l.find? p = if p a then some a else (l.drop (f + 1)).find? p := by
  induction l generalizing f with
  | nil => simp at hf
  | cons b l ih =>
    cases f with
    | zero =>
      obtain rfl := Option.some.inj hf
      rw [List.find?_cons, List.drop_one, List.tail_cons]
      cases p b <;> rfl
    | succ f =>
      rw [List.find?_cons_of_neg (Bool.eq_false_iff.mp (hbefore 0 (Nat.succ_pos f) b rfl)),
        List.drop_succ_cons]
      exact ih hf fun j hj b' hb' => hbefore (j + 1) (Nat.succ_lt_succ hj) b' hb'

theorem getElem?_map_range {g : ℕ → ℕ} {n f a : ℕ} :
    ((List.range n).map g)[f]? = some a ↔ f < n ∧ g f = a := by
  rw [List.getElem?_map, Option.map_eq_some_iff]
  constructor
  · rintro ⟨i, hi, rfl⟩
    obtain ⟨hlt, rfl⟩ := List.getElem?_eq_some_iff.mp hi
    rw [List.getElem_range]
    exact ⟨by rwa [List.length_range] at hlt, rfl⟩
  · rintro ⟨hlt, rfl⟩
    exact ⟨f, List.getElem?_range hlt, rfl⟩

/-- The first entry with the signature decides. -/
theorem firstSums_iff {f : ℕ} (hf : f < t.tableCount)
    (hname : t.Named signature (t.entry toHigherHalf f))
    (hbefore : ∀ j < f, ¬t.Named signature (t.entry toHigherHalf j)) :
    FirstSums toHigherHalf t signature ↔ t.SumsAt toHigherHalf signature f := by
  refine ⟨fun h => h f hf hname hbefore, fun h f' hf' hname' hbefore' => ?_⟩
  rcases Nat.lt_trichotomy f f' with hlt | rfl | hlt
  · exact absurd hname (hbefore' f hlt)
  · exact h
  · exact absurd hname' (hbefore f' hlt)

theorem entryCount_eq (hlength : headerSize ≤ t.length t.rsdt) : t.entryCount = t.tableCount := by
  have hlt : t.length t.rsdt < wordCount :=
    Nat.lt_trans (Lib.readLE_lt _ _ _) (by decide)
  rw [entryCount, wordSub_of_le hlt hlength, tableCount]

theorem getElem?_visited (hlength : headerSize ≤ t.length t.rsdt) {f a : ℕ} :
    (t.visited toHigherHalf)[f]? = some a ↔
      f < t.tableCount ∧ t.entry toHigherHalf (f % 256) = a := by
  rw [visited, getElem?_map_range, entryCount_eq hlength]
  refine and_congr_right fun _ => ?_
  rw [getTablePointer, UInt8.toNat_ofNat']

/-- The first table that counts is the first that is asked for exactly if the sums are so. -/
theorem find?_counts_eq_iff (hlength : headerSize ≤ t.length t.rsdt) :
    (t.visited toHigherHalf).find? (t.counts signature) =
        ((List.range t.tableCount).map (t.entry toHigherHalf)).find? (t.isMatch signature) ↔
      FirstSums toHigherHalf t signature := by
  by_cases hany : ∃ f, f < t.tableCount ∧ t.Named signature (t.entry toHigherHalf f)
  · have hf := (Nat.find_spec hany).1
    have hname := (Nat.find_spec hany).2
    have hbefore : ∀ j < Nat.find hany, ¬t.Named signature (t.entry toHigherHalf j) :=
      fun j hj hj' => Nat.find_min hany hj ⟨by omega, hj'⟩
    generalize Nat.find hany = f at hf hname hbefore
    have hmatch := find?_of_first (p := t.isMatch signature) (getElem?_map_range.mpr ⟨hf, rfl⟩)
      fun j hj b hb => by
        obtain ⟨-, rfl⟩ := getElem?_map_range.mp hb
        exact Bool.eq_false_iff.mpr fun h => hbefore j hj (isMatch_iff.mp h).1
    rw [firstSums_iff hf hname hbefore, SumsAt]
    by_cases hbyte : f < 256
    · have hcounts := find?_of_first (p := t.counts signature)
        ((getElem?_visited hlength).mpr
          ⟨hf, congrArg (t.entry toHigherHalf) (Nat.mod_eq_of_lt hbyte)⟩)
        fun j hj b hb => by
          obtain ⟨-, rfl⟩ := (getElem?_visited hlength).mp hb
          rw [Nat.mod_eq_of_lt (hj.trans hbyte)]
          exact Bool.eq_false_iff.mpr fun h => hbefore j hj (counts_iff.mp h).1
      rw [if_pos hbyte, hcounts, hmatch]
      by_cases hsum : t.byteSum (t.entry toHigherHalf f) % 256 = 0
      · rw [if_pos (isMatch_iff.mpr ⟨hname, hsum⟩)]
        by_cases hzero : t.byteSum (t.entry toHigherHalf f) % 2 ^ 32 = 0
        · -- the table is passed over, and it does not count later either
          have hnot : ¬t.counts signature (t.entry toHigherHalf f) :=
            fun h => (counts_iff.mp h).2 hzero
          rw [if_neg hnot]
          exact iff_of_false (fun h => hnot (List.find?_some h)) fun h => h.2 hzero
        · rw [if_pos (counts_iff.mpr ⟨hname, hzero⟩)]
          exact iff_of_true rfl ⟨hsum, hzero⟩
      · -- the table is taken, although its sum is wrong
        have hnot : ¬t.isMatch signature (t.entry toHigherHalf f) :=
          fun h => hsum (isMatch_iff.mp h).2
        rw [if_neg hnot, if_pos (counts_iff.mpr ⟨hname, by omega⟩)]
        exact iff_of_false (fun h => hnot (List.find?_some h.symm)) fun h => hsum h.1
    · have hnone : (t.visited toHigherHalf).find? (t.counts signature) = none := by
        refine List.find?_eq_none.mpr fun a ha h => ?_
        obtain ⟨j, hj⟩ := List.getElem?_of_mem ha
        obtain ⟨-, rfl⟩ := (getElem?_visited hlength).mp hj
        have hmod := Nat.mod_lt j (show 0 < 256 by omega)
        exact hbefore (j % 256) (by omega) (counts_iff.mp h).1
      rw [if_neg hbyte, hnone, eq_comm, List.find?_eq_none, List.forall_mem_map]
      simp only [List.mem_range, isMatch_iff, not_and, ne_eq]
  · have hno : ∀ f < t.tableCount, ¬t.Named signature (t.entry toHigherHalf f) :=
      fun f hf hname => hany ⟨f, hf, hname⟩
    refine iff_of_true ?_ fun f hf hname _ => absurd hname (hno f hf)
    rw [List.find?_eq_none.mpr, List.find?_eq_none.mpr]
    · intro a ha h
      obtain ⟨j, hj⟩ := List.getElem?_of_mem ha
      obtain ⟨hlt, rfl⟩ := getElem?_map_range.mp hj
      exact hno j hlt (isMatch_iff.mp h).1
    · intro a ha h
      obtain ⟨j, hj⟩ := List.getElem?_of_mem ha
      obtain ⟨hlt, rfl⟩ := (getElem?_visited hlength).mp hj
      exact hno (j % 256) (Nat.lt_of_le_of_lt (Nat.mod_le j 256) hlt) (counts_iff.mp h).1

theorem length_filter_le_tableCount {g : ℕ → ℕ} {p : ℕ → Bool} {n : ℕ} :
    (((List.range n).map g).filter p).length ≤ n := by
  refine Nat.le_trans (List.length_filter_le _ _) ?_
  rw [List.length_map, List.length_range]

theorem tableCount_le (t : StaticTables) : t.tableCount ≤ 2 ^ 32 :=
  Nat.le_trans (Nat.div_le_self _ _)
    (Nat.le_trans (Nat.sub_le _ _) (Nat.le_of_lt (Lib.readLE_lt _ _ 4)))

/-- **When the tables are found.** The first one is found where its sum is zero modulo 256 and not
as a 32-bit number, if it is among the first 256 entries, and if it is not, where there is none. A
further one is never found, which is right where there are not so many. -/
theorem getTable_finds_iff (toHigherHalf : ℕ → ℕ) (t : StaticTables) (target : Target)
    (signature : CString) (index : UInt64) (hrsdt : t.rsdt ≠ 0)
    (hlength : headerSize ≤ t.length t.rsdt) :
    t.getTable toHigherHalf target signature index =
        (t.tables toHigherHalf signature)[index.toNat]? ↔
      (index = 0 → FirstSums toHigherHalf t signature) ∧
      (index ≠ 0 → (t.tables toHigherHalf signature).length ≤ index.toNat ∧
        ((t.visited toHigherHalf).filter (t.counts signature)).length ≤ 2 ^ 64 - index.toNat) := by
  rw [getTable_eq hrsdt]
  by_cases hindex : index = 0
  · rw [hindex]
    have hneg : (-(0 : UInt64)).toNat = 0 := rfl
    rw [hneg, UInt64.toNat_zero, tables, ← List.head?_eq_getElem?, ← List.head?_eq_getElem?,
      List.head?_filter, List.head?_filter, find?_counts_eq_iff hlength]
    exact ⟨fun h => ⟨fun _ => h, fun hne => absurd rfl hne⟩, fun h => h.1 rfl⟩
  · have hpos : index.toNat ≠ 0 := fun hzero => hindex (UInt64.toNat_inj.mp hzero)
    have hlt := index.toNat_lt
    have hneg : (-index).toNat = 2 ^ 64 - index.toNat := by
      rw [UInt64.toNat_neg, show UInt64.size = 2 ^ 64 from rfl, Nat.mod_eq_of_lt (by omega)]
    have hfew : ((t.visited toHigherHalf).filter (t.counts signature)).length ≤ 2 ^ 32 := by
      refine Nat.le_trans length_filter_le_tableCount ?_
      rw [entryCount_eq hlength]
      exact t.tableCount_le
    have htables : (t.tables toHigherHalf signature).length ≤ 2 ^ 32 :=
      Nat.le_trans length_filter_le_tableCount t.tableCount_le
    rw [hneg, ← List.getElem?_eq_none_iff, ← List.getElem?_eq_none_iff]
    constructor
    · intro heq
      refine ⟨fun h => absurd h hindex, fun _ => ?_⟩
      rcases Nat.lt_or_ge index.toNat (t.tables toHigherHalf signature).length with hlt | hle
      · -- the index does not come to zero, and there is such a table
        have hnone := List.getElem?_eq_none (l := (t.visited toHigherHalf).filter
          (t.counts signature)) (i := 2 ^ 64 - index.toNat) (by omega)
        exact ⟨heq.symm.trans hnone, hnone⟩
      · have hnone := List.getElem?_eq_none hle
        exact ⟨hnone, heq.trans hnone⟩
    · rintro ⟨-, h⟩
      exact (h hindex).2.trans (h hindex).1.symm

theorem no_nul_apic : 0 ∉ ([0x41, 0x50, 0x49, 0x43] : List UInt8) := by decide

/-- An RSDT with one entry, and behind it a table of headers only that is named `APIC` and has the
given checksum. -/
def oneTable (checksum : UInt8) : StaticTables where
  memory p := ([0x52, 0x53, 0x44, 0x54, 40] ++ List.replicate 31 0 ++ [40, 1, 0, 0] ++
    [0x41, 0x50, 0x49, 0x43, 36, 0, 0, 0, 1, checksum]).getD (p - 256) 0
  rsdt := 256
  xsdtAvailable := false

/-- The bytes of the table add up to 256. -/
theorem getTable_finds_oneTable :
    (oneTable 0xbe).rsdt ≠ 0 ∧ headerSize ≤ (oneTable 0xbe).length (oneTable 0xbe).rsdt ∧
    (oneTable 0xbe).getTable id .x86_64 ⟨[0x41, 0x50, 0x49, 0x43], no_nul_apic⟩ 0 =
      ((oneTable 0xbe).tables id ⟨[0x41, 0x50, 0x49, 0x43], no_nul_apic⟩)[(0 : UInt64).toNat]? := by
  have hsums : FirstSums id (oneTable 0xbe) ⟨[0x41, 0x50, 0x49, 0x43], no_nul_apic⟩ := by
    intro f hf _ _
    obtain rfl : f = 0 := Nat.lt_one_iff.mp hf
    decide
  refine ⟨by decide, by decide, (getTable_finds_iff id (oneTable 0xbe) .x86_64
    ⟨[0x41, 0x50, 0x49, 0x43], no_nul_apic⟩ 0 (by decide) (by decide)).mpr ⟨fun _ => hsums, ?_⟩⟩
  exact fun hne => absurd rfl hne

/-- A table is taken although its bytes add up to 257. -/
theorem not_getTable_finds_oneTable :
    (oneTable 0xbf).getTable id .x86_64 ⟨[0x41, 0x50, 0x49, 0x43], no_nul_apic⟩ 0 ≠
      ((oneTable 0xbf).tables id ⟨[0x41, 0x50, 0x49, 0x43], no_nul_apic⟩)[(0 : UInt64).toNat]? := by
  decide

end StaticTables

end Cryptix.ACPI
