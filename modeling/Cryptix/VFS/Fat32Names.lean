import Mathlib.Data.List.DropRight
import Cryptix.VFS.Fat32Children

/-!
# The names of a FAT32 directory

The name that `Populate` inserts an entry with is what its name buffer has in front of the first
NUL. A short name is written without a NUL behind it, and so is a part of a long name that has none.
What is there of the names before it is then part of the name. A long name whose entry was deleted
stays in the buffer too, and becomes the name of the entry behind it.

`populate_underOwnNames_iff` says when each entry is inserted with the name that it has of its own.
A name of its own is the same in any directory that has the entry and its parts (`names_agree`).
-/

namespace Cryptix.VFS

open Lib

namespace Fat32DirectoryEntry

variable (m : ℕ → UInt8) (i n : ℕ)

/-- The parts of the long name of an entry: there are `n` of them in front of it, in descending
order, with its checksum, and the first of them is marked. -/
structure HasParts : Prop where
  pos : 0 < n
  le : n ≤ 20
  before : n ≤ i
  longName : ∀ k < n, m (32 * (i - (k + 1)) + 11) &&& 0x3f = 0x0f
  order : ∀ k < n,
    m (32 * (i - (k + 1))) = UInt8.ofNat (k + 1) ||| if k + 1 = n then 0x40 else 0
  checksum : ∀ k < n, checksumOf m (i - (k + 1)) = Fat32Fs.getLfnChecksum (nameOf m i)

/-- The text of a long name of `n` parts. The part in front of the entry has the first 13
characters. -/
def longText : List UInt8 :=
  (List.range (13 * n)).map fun p => (textOf m (i - (p / 13 + 1))).getD (p % 13) 0

/-- A field of a short name without its padding. -/
def trim (field : List UInt8) : List UInt8 := field.rdropWhile (· = 0x20)

/-- A short name, as it is shown. -/
def shortText (name : List UInt8) : List UInt8 :=
  trim (name.take 8) ++ if trim (name.drop 8) = [] then [] else 0x2e :: trim (name.drop 8)

/-- The name that an entry has of its own: the long name up to its NUL, or the short name. -/
def IsOwnName (name : List UInt8) : Prop :=
  (∃ n, HasParts m i n ∧ name = (longText m i n).takeWhile (· ≠ 0)) ∨
    (∀ n, ¬ HasParts m i n) ∧ name = shortText (nameOf m i)

/-- The entry `i` of a directory is the entry `j` of another, with the same parts. -/
structure SameEntry (m : ℕ → UInt8) (i : ℕ) (m' : ℕ → UInt8) (j : ℕ) : Prop where
  name : nameOf m i = nameOf m' j
  parts : ∀ n, HasParts m i n ↔ HasParts m' j n
  text : ∀ n, HasParts m i n → ∀ k < n, textOf m (i - (k + 1)) = textOf m' (j - (k + 1))

end Fat32DirectoryEntry

namespace Fat32Populate

open Fat32DirectoryEntry

/-- What an entry finds in the name buffer makes its name what it is: a NUL behind a long name that
has none, the rest of a short name and a NUL behind what is written of it, or all of it if a long
name is pending that is not its own. A dot entry is not inserted if it stays one, nor is an entry if
the name that is pending is that of one. -/
structure KeepsName (strings : PrismStrings) (m : ℕ → UInt8) (s : Fat32Populate) (i : ℕ) :
    Prop where
  long : ∀ n, HasParts m i n → 0 ∈ longText m i n ∨ s.nameBuffer (13 * n) = 0
  pending : (∀ n, ¬ HasParts m i n) → s.isLfn = true →
    IsDots s.nameBuffer ∨ Spells s.nameBuffer 0 (shortText (nameOf m i))
  short : (∀ n, ¬ HasParts m i n) → s.isLfn = false → ¬ IsDotEntry m i →
    Spells s.nameBuffer (written strings (nameOf m i)).length
      ((shortText (nameOf m i)).drop (written strings (nameOf m i)).length)
  dots : (∀ n, ¬ HasParts m i n) → s.isLfn = false → IsDotEntry m i →
    LeavesDots s.nameBuffer (nameOf m i)

/-- Every entry that is inserted keeps its name. -/
def NamesOwn (strings : PrismStrings) (getChainSize : ℕ → Except ScanFault ℕ) (m : ℕ → UInt8)
    (s : Fat32Populate) (i : ℕ) : Prop :=
  IsTakenForChild m i → HasSize getChainSize (.read m (32 * i)) → s.KeepsName strings m i

end Fat32Populate

namespace Fat32Fs

open Fat32DirectoryEntry Fat32Populate

/-- Whatever `Populate` has inserted so far has the name that its entry has of its own. -/
def UnderOwnNames (fs : Fat32Fs) (strings : PrismStrings) (getChainSize : ℕ → Except ScanFault ℕ)
    (m : ℕ → UInt8) (size : ℕ) : Prop :=
  ∀ k ≤ size / 32, ∀ s, ComesTo (visit fs strings getChainSize size) (new strings m) k s →
    ∀ child ∈ s.children, ∀ i, child.directoryOffset = 32 * i → IsOwnName m i child.name

/-- `Populate` inserts the entry `i` with a name. -/
def InsertsUnder (fs : Fat32Fs) (strings : PrismStrings) (getChainSize : ℕ → Except ScanFault ℕ)
    (m : ℕ → UInt8) (size i : ℕ) (name : List UInt8) : Prop :=
  ∃ result s, fs.populateFrom strings getChainSize m size = .ok (result, s) ∧
    ∃ child ∈ s.children, child.directoryOffset = 32 * i ∧ child.name = name

end Fat32Fs

/-! ## Names -/

namespace Fat32DirectoryEntry

variable {strings : PrismStrings} {m m' : ℕ → UInt8} {i j n k : ℕ} {name name' : List UInt8}

/-- The number of parts is where the mark is. -/
theorem HasParts.unique (hn : HasParts m i n) (hk : HasParts m i k) : n = k := by
  have hmark : ∀ k < 20, UInt8.ofNat (k + 1) ||| 0x40 ≠ UInt8.ofNat (k + 1) ||| 0 := by decide
  have hle : ∀ {n k}, HasParts m i n → HasParts m i k → ¬ n < k := by
    intro n k hn hk hlt
    obtain ⟨r, rfl⟩ := Nat.exists_eq_add_one_of_ne_zero hn.pos.ne'
    have hle := hn.le
    have horder := (hn.order r (Nat.lt_succ_self r)).symm.trans (hk.order r (by omega))
    rw [if_pos rfl, if_neg (by omega)] at horder
    exact hmark r (by omega) horder
  have hnk := hle hn hk
  have hkn := hle hk hn
  omega

theorem isOwnName_of_hasParts (h : HasParts m i n) :
    IsOwnName m i name ↔ name = (longText m i n).takeWhile (· ≠ 0) := by
  constructor
  · rintro (⟨k, hk, hname⟩ | ⟨hnone, -⟩)
    · rwa [h.unique hk]
    · exact absurd h (hnone n)
  · exact fun hname => Or.inl ⟨n, h, hname⟩

theorem isOwnName_of_not_hasParts (h : ∀ n, ¬ HasParts m i n) :
    IsOwnName m i name ↔ name = shortText (nameOf m i) := by
  constructor
  · rintro (⟨k, hk, -⟩ | ⟨-, hname⟩)
    · exact absurd hk (h k)
    · exact hname
  · exact fun hname => Or.inr ⟨h, hname⟩

/-- The name that an entry has of its own does not depend on the directory. -/
theorem SameEntry.ownName_eq (h : SameEntry m i m' j) (hname : IsOwnName m i name)
    (hname' : IsOwnName m' j name') : name = name' := by
  by_cases hparts : ∃ n, HasParts m i n
  · obtain ⟨n, hparts⟩ := hparts
    rw [(isOwnName_of_hasParts hparts).mp hname,
      (isOwnName_of_hasParts ((h.parts n).mp hparts)).mp hname']
    have htext : longText m i n = longText m' j n := by
      refine List.map_congr_left fun p hp => ?_
      have hp := List.mem_range.mp hp
      rw [h.text n hparts (p / 13) (by omega)]
    rw [htext]
  · have hnone := not_exists.mp hparts
    rw [(isOwnName_of_not_hasParts hnone).mp hname,
      (isOwnName_of_not_hasParts fun n => mt (h.parts n).mpr (hnone n)).mp hname', h.name]

/-- The bits of an order that the parts of an entry have. -/
theorem order_bits {mark : UInt8} (h : mark = 0x40 ∨ mark = 0) : ∀ k < 20,
    UInt8.ofNat (k + 1) ||| mark ≠ 0 ∧ UInt8.ofNat (k + 1) ||| mark ≠ 0xe5 ∧
      ((UInt8.ofNat (k + 1) ||| mark) &&& 0x1f).toNat = k + 1 := by
  rcases h with rfl | rfl <;> decide

theorem HasParts.isTakenForPart {k : ℕ} (h : HasParts m i n) (hk : k < n) :
    IsTakenForPart m (i - (k + 1)) ∧ lfnOrder m (i - (k + 1)) = k + 1 := by
  have hle := h.le
  have hmark : (if k + 1 = n then (0x40 : UInt8) else 0) = 0x40 ∨
      (if k + 1 = n then (0x40 : UInt8) else 0) = 0 := by
    split <;> simp
  obtain ⟨hend, hdeleted, horder⟩ := order_bits hmark k (by omega)
  rw [← h.order k hk] at hend hdeleted horder
  refine ⟨⟨hend, hdeleted, ?_⟩, horder⟩
  have hbits : m (32 * (i - (k + 1)) + 11) &&& 0x0f = 0x0f := by
    have hand := congrArg (· &&& (0x0f : UInt8)) (h.longName k hk)
    rwa [UInt8.and_assoc] at hand
  rw [Fat32Attribute.meets, bne_iff_ne]
  exact fun hzero => absurd (hbits.symm.trans hzero) (by decide)

/-! ### Short names -/

/-- Padding that is counted and padding that is dropped are the same. -/
theorem trim_eq_take (field : List UInt8) : trim field =
    field.take (field.length - (field.reverse.takeWhile (· = 0x20)).length) := by
  have hsplit := congrArg List.length
    (List.takeWhile_append_dropWhile (p := (· = (0x20 : UInt8))) (l := field.reverse))
  rw [List.length_append, List.length_reverse] at hsplit
  have htake := List.prefix_iff_eq_take.mp (List.rdropWhile_prefix (· = (0x20 : UInt8)) field)
  rw [List.rdropWhile, List.length_reverse] at htake
  rw [trim, List.rdropWhile, htake]
  congr 1
  omega

theorem trim_base (hlength : name.length = 11) :
    trim (name.take 8) = name.take (8 - Fat32Fs.countSpacePadding name 8) := by
  rw [trim_eq_take, List.take_take, List.length_take, hlength, Fat32Fs.countSpacePadding]
  congr 1
  omega

theorem trim_ext (hlength : name.length = 11) :
    trim (name.drop 8) = (name.drop 8).take (3 - Fat32Fs.countSpacePadding (name.drop 8) 3) := by
  have hdrop : (name.drop 8).length = 3 := by
    rw [List.length_drop]
    omega
  rw [trim_eq_take, Fat32Fs.countSpacePadding, List.take_of_length_le hdrop.le, hdrop]

/-- What is written of a short name is its beginning. -/
theorem written_isPrefixOf (hstrings : strings.Copies) (hlength : name.length = 11) :
    written strings name <+: shortText name := by
  have hdrop : (name.drop 8).length = 3 := by
    rw [List.length_drop]
    omega
  rw [written, shortText, trim_base hlength, trim_ext hlength]
  refine (List.prefix_append_right_inj _).mpr ?_
  generalize hext : 3 - Fat32Fs.countSpacePadding (name.drop 8) 3 = extSize
  by_cases hzero : extSize = 0
  · rw [if_pos hzero]
    exact List.nil_prefix
  · have hne : (name.drop 8).take extSize ≠ [] := by
      rw [Ne, ← List.length_eq_zero_iff, List.length_take]
      omega
    rw [if_neg hzero, if_neg hne]
    exact (List.prefix_cons_inj _).mpr (List.take_prefix_take_left (hstrings.le _ _ _))

theorem length_shortText_le (hlength : name.length = 11) : (shortText name).length ≤ 12 := by
  rw [shortText, trim_base hlength, trim_ext hlength, List.length_append, List.length_take]
  split
  · rw [List.length_nil]
    omega
  · rw [List.length_cons, List.length_take]
    omega

theorem nul_not_mem_shortText (hlength : name.length = 11) (h : (0 : UInt8) ∉ name) :
    0 ∉ shortText name := by
  rw [shortText, trim_base hlength, trim_ext hlength]
  intro hmem
  rcases List.mem_append.mp hmem with hbase | hext
  · exact h (List.mem_of_mem_take hbase)
  · split at hext
    · exact absurd hext List.not_mem_nil
    · rcases List.mem_cons.mp hext with hdot | hext
      · exact absurd hdot (by decide)
      · exact h (List.mem_of_mem_drop (List.mem_of_mem_take hext))

theorem length_longText (m : ℕ → UInt8) (i n : ℕ) : (longText m i n).length = 13 * n := by
  rw [longText, List.length_map, List.length_range]

theorem longText_getD {p : ℕ} (hp : p < 13 * n) : (longText m i n).getD p 0 =
    (textOf m (i - (p / 13 + 1))).getD (p % 13) 0 := by
  rw [longText, List.getD_eq_getElem?_getD, List.getElem?_map, List.getElem?_range hp,
    Option.map_some, Option.getD_some]

end Fat32DirectoryEntry

namespace Fat32Populate

open Fat32DirectoryEntry

variable {fs : Fat32Fs} {strings : PrismStrings} {getChainSize : ℕ → Except ScanFault ℕ}
  {m : ℕ → UInt8} {s t : Fat32Populate} {i n size : ℕ}

/-- A short name is complete if its rest is left behind what is written of it. -/
theorem withName_eq_short_iff (hstrings : strings.Copies) (hname : IsShortName (nameOf m i))
    (h : Reached m i s) (hpending : s.isLfn = false) :
    cString (s.withName strings i).nameBuffer 0 256 = shortText (nameOf m i) ↔
      Spells s.nameBuffer (written strings (nameOf m i)).length
        ((shortText (nameOf m i)).drop (written strings (nameOf m i)).length) := by
  have hlength := length_nameOf m i
  have hshort := length_shortText_le hlength
  rw [cString_eq_iff (nul_not_mem_shortText hlength hname.nul) (by omega), withName]
  dsimp only
  rw [if_neg (by rw [hpending]; exact Bool.false_ne_true), h.nameOf_eq le_rfl]
  obtain ⟨rest, hrest⟩ := written_isPrefixOf hstrings hlength
  rw [← hrest, spells_writeBytes_iff, Nat.zero_add, List.drop_left]

/-- A name that is pending is that of the entry if it is the same. -/
theorem withName_eq_pending_iff (hname : IsShortName (nameOf m i)) (hpending : s.isLfn = true) :
    cString (s.withName strings i).nameBuffer 0 256 = shortText (nameOf m i) ↔
      Spells s.nameBuffer 0 (shortText (nameOf m i)) := by
  have hlength := length_nameOf m i
  have hshort := length_shortText_le hlength
  rw [cString_eq_iff (nul_not_mem_shortText hlength hname.nul) (by omega), withName]
  dsimp only
  rw [if_pos hpending]

/-- A part of a long name is written, if the loop goes on behind it. -/
theorem Reached.visit_part (h : Reached m i s) (hi : i < size / 32) (hpart : IsTakenForPart m i)
    (hturn : s.visit fs strings getChainSize size i = .ok (true, t)) :
    lfnOrder m i ≤ 19 ∧ t.isLfn = true ∧
      t.nameBuffer = writeBytes s.nameBuffer ((lfnOrder m i - 1) * 13) (textOf m i) := by
  have horder : lfnOrder s.directoryEntries i = lfnOrder m i := by
    rw [lfnOrder, lfnOrder, h.intact _ le_rfl]
  have htext : textOf s.directoryEntries i = textOf m i :=
    textOf_congr fun j _ _ => h.intact _ (by omega)
  rw [visit_of_part (by omega) (h.isTakenForPart_iff.mpr hpart), visitLongName_eq] at hturn
  split at hturn
  · cases hturn
  · split at hturn
    · next hplace =>
      cases hturn
      rw [← horder, ← htext]
      exact ⟨hplace.2.1, rfl, rfl⟩
    · cases hturn

/-- When the loop comes to an entry, all parts of its name are in the name buffer. -/
theorem comesTo_parts (hstrings : strings.Ends) (hparts : HasParts m i n) (hi : i < size / 32)
    (h : ComesTo (visit fs strings getChainSize size) (new strings m) i t) :
    n ≤ 19 ∧ t.isLfn = true ∧ ∀ p < 13 * n, t.nameBuffer p = (longText m i n).getD p 0 := by
  obtain ⟨t₀, ht₀⟩ := h.before (show i - n ≤ i by omega)
  have hpos := hparts.pos
  have hbefore := hparts.before
  have hrun := ComesTo.induct_from
    (I := fun q t => (i - n < q → n ≤ 19 ∧ t.isLfn = true) ∧
      ∀ p, 13 * (i - q) ≤ p → p < 13 * n → t.nameBuffer p = (longText m i n).getD p 0)
    ht₀ ⟨fun h => absurd h (Nat.lt_irrefl _), fun p hle hlt => by omega⟩
    (fun q t u hq hqi ht hkeeps hturn => ?_) (show i - n ≤ i by omega) h
  · exact ⟨(hrun.1 (by omega)).1, (hrun.1 (by omega)).2, fun p hp => hrun.2 p (by omega) hp⟩
  · obtain ⟨hpart, horder⟩ := hparts.isTakenForPart (show i - q - 1 < n by omega)
    rw [show i - (i - q - 1 + 1) = q by omega] at hpart horder
    obtain ⟨hle, hpending, hbuffer⟩ :=
      (reached_of_comesTo hstrings (by omega) ht).visit_part (by omega) hpart hturn
    refine ⟨fun _ => ⟨?_, hpending⟩, fun p hp hpn => ?_⟩
    · rcases Nat.lt_or_eq_of_le hq with hlt | heq
      · exact (hkeeps.1 hlt).1
      · omega
    · rw [hbuffer]
      by_cases hown : p < 13 * (i - q)
      · obtain ⟨r, rfl⟩ := Nat.exists_eq_add_of_le
          (show (lfnOrder m q - 1) * 13 ≤ p by omega)
        have hr : r < (textOf m q).length := by
          rw [length_textOf]
          omega
        rw [writeBytes_of_mem _ _ hr, longText_getD hpn,
          show i - (((lfnOrder m q - 1) * 13 + r) / 13 + 1) = q by rw [length_textOf] at hr; omega,
          show ((lfnOrder m q - 1) * 13 + r) % 13 = r by rw [length_textOf] at hr; omega,
          List.getD_eq_getElem?_getD, List.getElem?_eq_getElem hr, Option.getD_some]
      · rw [writeBytes_of_not_mem (by rw [length_textOf]; omega)]
        exact hkeeps.2 p (by omega) hpn

theorem withName_of_pending (hpending : s.isLfn = true) :
    (s.withName strings i).nameBuffer = s.nameBuffer :=
  if_pos hpending

/-- A long name is complete if it has a NUL, or one is left behind it. -/
theorem keepsName_long_iff (hparts : HasParts m i n) (hle : n ≤ 19) (hpending : s.isLfn = true)
    (htext : ∀ p < 13 * n, s.nameBuffer p = (longText m i n).getD p 0) :
    s.KeepsName strings m i ↔ IsDots (s.withName strings i).nameBuffer ∨
      IsOwnName m i (cString (s.withName strings i).nameBuffer 0 256) := by
  have hlength := length_longText m i n
  have hpos := hparts.pos
  have hbytes : ∀ p, (hp : p < (longText m i n).length) →
      s.nameBuffer (0 + p) = (longText m i n)[p] := by
    intro p hp
    rw [Nat.zero_add, htext p (by omega), List.getD_eq_getElem?_getD, List.getElem?_eq_getElem hp,
      Option.getD_some]
  have hown := cString_eq_takeWhile_iff hbytes (show (longText m i n).length < 256 by omega)
  rw [Nat.zero_add, hlength] at hown
  rw [withName_of_pending hpending, isOwnName_of_hasParts hparts, hown]
  have hnul : ∀ p < 13, s.nameBuffer p = 0 → 0 ∈ longText m i n := by
    intro p hp hzero
    have hbyte := hbytes p (by omega)
    rw [Nat.zero_add, hzero] at hbyte
    exact hbyte ▸ List.getElem_mem _
  constructor
  · exact fun h => Or.inr (h.long n hparts)
  · intro h
    refine ⟨fun k hk => ?_, fun h => absurd hparts (h n), fun h => absurd hparts (h n),
      fun h => absurd hparts (h n)⟩
    rw [← hparts.unique hk]
    rcases h with (hdot | hdots) | hown
    · exact Or.inl (hnul 1 (by decide) hdot.2)
    · exact Or.inl (hnul 2 (by decide) hdots.2.2)
    · exact hown

/-- A name that is pending at an entry without parts is none of its own. -/
theorem keepsName_pending_iff (hname : IsShortName (nameOf m i)) (hnone : ∀ n, ¬ HasParts m i n)
    (hpending : s.isLfn = true) :
    s.KeepsName strings m i ↔ IsDots (s.withName strings i).nameBuffer ∨
      IsOwnName m i (cString (s.withName strings i).nameBuffer 0 256) := by
  rw [isOwnName_of_not_hasParts hnone, withName_eq_pending_iff hname hpending,
    withName_of_pending hpending]
  refine ⟨fun h => h.pending hnone hpending, fun h => ⟨fun n hn => absurd hn (hnone n),
    fun _ _ => h, fun _ hfirst => ?_, fun _ hfirst => ?_⟩⟩
  · exact absurd (hpending.symm.trans hfirst) Bool.noConfusion
  · exact absurd (hpending.symm.trans hfirst) Bool.noConfusion

/-- A dot entry under its own name is a dot entry. -/
theorem isDots_of_cString {buffer : ℕ → UInt8} (hdot : IsDotEntry m i)
    (h : cString buffer 0 256 = shortText (nameOf m i)) : IsDots buffer := by
  rcases hdot with hname | hname
  · have htext : shortText dotName = [0x2e] := by decide
    rw [hname, htext, cString_eq_iff (by decide) (by decide)] at h
    exact Or.inl h
  · have htext : shortText dotDotName = [0x2e, 0x2e] := by decide
    rw [hname, htext, cString_eq_iff (by decide) (by decide)] at h
    exact Or.inr h

/-- A short name is complete if its rest is left behind it. -/
theorem keepsName_short_iff (hstrings : strings.Copies) (hname : IsShortName (nameOf m i))
    (h : Reached m i s) (hnone : ∀ n, ¬ HasParts m i n) (hfirst : s.isLfn = false) :
    s.KeepsName strings m i ↔ IsDots (s.withName strings i).nameBuffer ∨
      IsOwnName m i (cString (s.withName strings i).nameBuffer 0 256) := by
  have hdots := h.isDots_iff strings hname
  have hshort := withName_eq_short_iff hstrings hname h hfirst
  rw [isOwnName_of_not_hasParts hnone]
  constructor
  · intro hkeeps
    by_cases hdot : IsDotEntry m i
    · exact Or.inl ((hdots.mpr ⟨fun h => absurd (hfirst.symm.trans h) Bool.noConfusion,
        fun _ => hkeeps.dots hnone hfirst⟩).mpr hdot)
    · exact Or.inr (hshort.mpr (hkeeps.short hnone hfirst hdot))
  · intro hown
    refine ⟨fun n hn => absurd hn (hnone n),
      fun _ h => absurd (hfirst.symm.trans h) Bool.noConfusion, fun _ _ hdot => ?_,
      fun _ _ hdot => ?_⟩
    · have hnot := mt (hdots.mpr ⟨fun h => absurd (hfirst.symm.trans h) Bool.noConfusion,
        fun _ h => absurd h hdot⟩).mp hdot
      exact hshort.mp (hown.resolve_left hnot)
    · have hskip := hown.elim id fun hown => isDots_of_cString hdot hown
      exact (hdots.mp (iff_of_true hskip hdot)).2 hfirst hdot

/-- An entry keeps its name exactly if it is not inserted, or inserted under its own name. -/
theorem keepsName_iff (hstrings : strings.Ends) (hname : IsShortName (nameOf m i))
    (hi : i < size / 32)
    (h : ComesTo (visit fs strings getChainSize size) (new strings m) i s) :
    s.KeepsName strings m i ↔ IsDots (s.withName strings i).nameBuffer ∨
      IsOwnName m i (cString (s.withName strings i).nameBuffer 0 256) := by
  by_cases hparts : ∃ n, HasParts m i n
  · obtain ⟨n, hparts⟩ := hparts
    obtain ⟨hle, hpending, htext⟩ := comesTo_parts hstrings hparts hi h
    exact keepsName_long_iff hparts hle hpending htext
  · have hnone := not_exists.mp hparts
    cases hpending : s.isLfn with
    | true => exact keepsName_pending_iff hname hnone hpending
    | false =>
      exact keepsName_short_iff hstrings.toCopies hname (reached_of_comesTo hstrings hi.le h) hnone
        hpending

end Fat32Populate

/-! ## What is inserted -/

namespace Fat32Fs

open Fat32DirectoryEntry Fat32Populate

variable {fs : Fat32Fs} {strings : PrismStrings} {getChainSize : ℕ → Except ScanFault ℕ}
  {m : ℕ → UInt8} {size : ℕ}

/-- The names so far are right if each turn has inserted its entry under its own name. -/
theorem underOwnNames_iff (hstrings : strings.Ends) :
    fs.UnderOwnNames strings getChainSize m size ↔
      ∀ i < size / 32, ∀ t, ComesTo (visit fs strings getChainSize size) (new strings m) i t →
        IsTakenForChild m i → HasSize getChainSize (.read m (32 * i)) →
          IsDots (t.withName strings i).nameBuffer ∨
            IsOwnName m i (cString (t.withName strings i).nameBuffer 0 256) := by
  constructor
  · intro hnames i hi t ht hchild hsize
    by_cases hdots : IsDots (t.withName strings i).nameBuffer
    · exact Or.inl hdots
    · have hreached := reached_of_comesTo hstrings hi.le ht
      have htaken := hreached.isTakenForChild_iff.mpr hchild
      rw [← hreached.read_eq] at hsize
      have hbound : 32 * i + 32 ≤ size := by omega
      have hok : (∃ u, t.visit fs strings getChainSize size i = .ok (true, u)) ↔ _ :=
        visit_child_isOk_iff hbound hstrings.toCopies htaken hdots
      obtain ⟨u, hturn⟩ := hok.mpr ⟨length_view_le hstrings hreached, hsize⟩
      have hnew := hnames (i + 1) hi u (ht.succ hturn)
      rcases visit_continues hbound hstrings.toCopies hturn with ⟨hdeleted, -⟩ | ⟨hpart, -⟩ |
        ⟨-, hskip, -⟩ | ⟨-, -, child, rfl, hname, hoffset⟩
      · exact absurd hdeleted htaken.2.1
      · exact absurd (hpart.2.2.symm.trans htaken.2.2) Bool.noConfusion
      · exact absurd hskip hdots
      · rw [hstrings.view] at hname
        exact Or.inr (hname ▸ hnew child (List.mem_append_right _ List.mem_cons_self) i hoffset)
  · intro hturns k hk s hs
    refine ComesTo.induct
      (I := fun _ s => ∀ child ∈ s.children, ∀ i, child.directoryOffset = 32 * i →
        IsOwnName m i child.name)
      (fun child hchild => absurd hchild List.not_mem_nil) (fun j t u hj ht hbefore hturn => ?_) hs
    have hbound : 32 * j + 32 ≤ size := by omega
    have hreached := reached_of_comesTo hstrings (by omega) ht
    rcases visit_continues hbound hstrings.toCopies hturn with ⟨-, rfl⟩ | ⟨-, -, -, rfl⟩ |
      ⟨-, -, rfl⟩ | ⟨htaken, hdots, child, rfl, hname, hoffset⟩
    · exact hbefore
    · exact hbefore
    · exact hbefore
    · intro other hother i hat
      rcases List.mem_append.mp hother with hold | hlast
      · exact hbefore other hold i hat
      · obtain rfl := List.mem_singleton.mp hlast
        obtain rfl : j = i := by omega
        have hsize := ((visit_child_isOk_iff hbound hstrings.toCopies htaken hdots).mp
          ⟨_, hturn⟩).2
        rw [hreached.read_eq] at hsize
        rw [hname, hstrings.view]
        exact (hturns j (by omega) t ht (hreached.isTakenForChild_iff.mp htaken) hsize).resolve_left
          hdots

/-- An entry is inserted under its own name exactly if it keeps its name. -/
theorem underOwnNames_iff_namesOwn (hstrings : strings.Ends) (hnames : HasNames m size) :
    fs.UnderOwnNames strings getChainSize m size ↔
      EveryTurn (visit fs strings getChainSize size) (NamesOwn strings getChainSize m)
        (new strings m) (List.range (size / 32)) := by
  rw [underOwnNames_iff hstrings, everyTurn_range_iff]
  refine forall₂_congr fun i hi => forall₂_congr fun t ht => forall_congr' fun hchild =>
    imp_congr_right fun _ => (keepsName_iff hstrings ?_ hi ht).symm
  exact hnames i hi (reached_of_comesTo hstrings hi.le ht).ends (isFile_of_isTakenForChild hchild)

/-- All children are inserted before the loop ends. -/
theorem UnderOwnNames.isOwnName (hstrings : strings.Copies)
    (h : fs.UnderOwnNames strings getChainSize m size) {i : ℕ} {name : List UInt8}
    (hinserts : fs.InsertsUnder strings getChainSize m size i name) : IsOwnName m i name := by
  obtain ⟨result, s, hrun, child, hchild, hoffset, rfl⟩ := hinserts
  obtain ⟨⟨b, hrun⟩, -⟩ := populateFrom_eq_ok_iff.mp hrun
  rcases untilRejected_range_cases (visit fs strings getChainSize size) (new strings m) (size / 32)
    with ⟨t, ht⟩ | ⟨k, hk, t, ht, hnext, hend⟩
  · cases hrun.symm.trans ht
    exact h (size / 32) le_rfl s ht child hchild i hoffset
  · have hlast : t.visit fs strings getChainSize size k = .ok (b, s) := hend.symm.trans hrun
    match b, hlast with
    | true, hlast => exact absurd hlast (hnext s)
    | false, hlast =>
      rcases visit_stops (by omega) hstrings hlast with ⟨-, rfl⟩ | ⟨-, -, rfl⟩
      · exact h k hk.le _ ht child hchild i hoffset
      · exact h k hk.le _ ht child hchild i hoffset

/-- Where entries are inserted under their own names, an entry has the same name as in any other
directory. -/
theorem names_agree (hstrings : strings.Copies) {m' : ℕ → UInt8} {size' i j : ℕ}
    {name name' : List UInt8} (h : fs.UnderOwnNames strings getChainSize m size)
    (h' : fs.UnderOwnNames strings getChainSize m' size') (hsame : SameEntry m i m' j)
    (hname : fs.InsertsUnder strings getChainSize m size i name)
    (hname' : fs.InsertsUnder strings getChainSize m' size' j name') : name = name' :=
  hsame.ownName_eq (h.isOwnName hstrings hname) (h'.isOwnName hstrings hname')

/-- **Which entries are inserted under their own names.** Whatever is in a directory, `Populate`
inserts every entry with the name that it has of its own exactly if, at each entry that it inserts,
what the name buffer holds from before makes that name what it is. Two directories of which this
holds insert the same entry under the same name. -/
theorem populate_underOwnNames_iff (hstrings : strings.Ends) (hnames : HasNames m size) :
    (fs.UnderOwnNames strings getChainSize m size ↔
      EveryTurn (visit fs strings getChainSize size) (NamesOwn strings getChainSize m)
        (new strings m) (List.range (size / 32))) ∧
    ∀ m' size', HasNames m' size' →
      EveryTurn (visit fs strings getChainSize size) (NamesOwn strings getChainSize m)
        (new strings m) (List.range (size / 32)) →
      EveryTurn (visit fs strings getChainSize size') (NamesOwn strings getChainSize m')
        (new strings m') (List.range (size' / 32)) →
      ∀ i j name name', SameEntry m i m' j → fs.InsertsUnder strings getChainSize m size i name →
        fs.InsertsUnder strings getChainSize m' size' j name' → name = name' := by
  refine ⟨underOwnNames_iff_namesOwn hstrings hnames,
    fun m' size' hnames' hturns hturns' i j name name' => ?_⟩
  exact names_agree hstrings.toCopies ((underOwnNames_iff_namesOwn hstrings hnames).mpr hturns)
    ((underOwnNames_iff_namesOwn hstrings hnames').mpr hturns')

/-- The file "X". -/
def onlyX : ℕ → UInt8 := directoryOf [shortX ++ [0x20]]

/-- The file "A", and the file "X". -/
def behindA : ℕ → UInt8 := directoryOf [0x41 :: List.replicate 10 0x20 ++ [0x20], shortX ++ [0x20]]

/-- The file "LONGER", and the file "X". -/
def longerX : ℕ → UInt8 :=
  directoryOf [[0x4c, 0x4f, 0x4e, 0x47, 0x45, 0x52, 0x20, 0x20, 0x20, 0x20, 0x20, 0x20],
    shortX ++ [0x20]]

theorem not_hasParts_zero (m : ℕ → UInt8) (n : ℕ) : ¬ HasParts m 0 n := fun h => by
  have hpos := h.pos
  have hbefore := h.before
  omega

/-- Behind a file there are no parts. -/
theorem not_hasParts_one (h : m 11 &&& 0x3f ≠ 0x0f) (n : ℕ) : ¬ HasParts m 1 n := fun hparts => by
  have hpos := hparts.pos
  exact h (hparts.longName 0 hpos)

theorem nameOf_onlyX : nameOf onlyX 0 = shortX := nameOf_directoryOf (by decide)

theorem nameOf_behindA : nameOf behindA 1 = shortX := nameOf_directoryOf (by decide)

theorem nameOf_longerX : nameOf longerX 1 = shortX := nameOf_directoryOf (by decide)

theorem onlyX_hasNames : HasNames onlyX 32 := by
  intro i hi _ _
  obtain rfl : i = 0 := by omega
  exact nameOf_onlyX ▸ isShortName_X

theorem behindA_hasNames : HasNames behindA 64 := by
  intro i hi _ _
  obtain rfl | rfl : i = 0 ∨ i = 1 := by omega
  · have hname : nameOf behindA 0 = 0x41 :: List.replicate 10 0x20 := nameOf_directoryOf (by decide)
    rw [hname]
    exact ⟨by decide, Or.inr (Or.inr ⟨by decide, by decide⟩)⟩
  · exact nameOf_behindA ▸ isShortName_X

theorem longerX_hasNames : HasNames longerX 64 := by
  intro i hi _ _
  obtain rfl | rfl : i = 0 ∨ i = 1 := by omega
  · have hname : nameOf longerX 0 =
        [0x4c, 0x4f, 0x4e, 0x47, 0x45, 0x52, 0x20, 0x20, 0x20, 0x20, 0x20] :=
      nameOf_directoryOf (by decide)
    rw [hname]
    exact ⟨by decide, Or.inr (Or.inr ⟨by decide, by decide⟩)⟩
  · exact nameOf_longerX ▸ isShortName_X

/-- The entry of "X" has no parts in any of them. -/
theorem sameEntry_X {m' : ℕ → UInt8} (hname : nameOf m' 1 = shortX) (h : m' 11 &&& 0x3f ≠ 0x0f) :
    SameEntry onlyX 0 m' 1 where
  name := nameOf_onlyX.trans hname.symm
  parts n := iff_of_false (not_hasParts_zero onlyX n) (not_hasParts_one h n)
  text n hn := absurd hn (not_hasParts_zero onlyX n)

/-- A short name with its rest in front of it, and nothing pending. -/
theorem keepsName_of_spells {s : Fat32Populate} {i : ℕ} {name : List UInt8}
    (hname : nameOf m i = name) (hdot : ¬ (name = dotName ∨ name = dotDotName))
    (hnone : ∀ n, ¬ HasParts m i n) (hpending : s.isLfn = false)
    (h : Spells s.nameBuffer (written strings name).length
      ((shortText name).drop (written strings name).length)) : s.KeepsName strings m i where
  long n hn := absurd hn (hnone n)
  pending _ hpend := absurd (hpending.symm.trans hpend) Bool.noConfusion
  short _ _ _ := hname ▸ h
  dots _ _ hdots := absurd (hname ▸ hdots) hdot

theorem onlyX_namesOwn : EveryTurn (visit anyFs cStrings (fun _ => .ok 0) 32)
    (NamesOwn cStrings (fun _ => .ok 0) onlyX) (new cStrings onlyX) (List.range (32 / 32)) := by
  refine ⟨fun _ _ => ?_, fun _ _ => trivial⟩
  exact keepsName_of_spells nameOf_onlyX (by decide) (not_hasParts_zero onlyX) rfl (by decide)

theorem behindA_namesOwn : EveryTurn (visit anyFs cStrings (fun _ => .ok 0) 64)
    (NamesOwn cStrings (fun _ => .ok 0) behindA) (new cStrings behindA) (List.range (64 / 32)) := by
  refine ⟨fun _ _ => ?_, fun s hturn => ⟨fun _ _ => ?_, fun _ _ => trivial⟩⟩
  · have hname : nameOf behindA 0 = 0x41 :: List.replicate 10 0x20 := nameOf_directoryOf (by decide)
    exact keepsName_of_spells hname (by decide) (not_hasParts_zero behindA) rfl (by decide)
  · have hrun : (visit anyFs cStrings (fun _ => .ok 0) 64 (new cStrings behindA) 0).map
        (fun r => (r.2.isLfn, r.2.nameBuffer 1)) = .ok (false, 0) := by
      decide
    rw [hturn] at hrun
    obtain ⟨hpending, hnul⟩ := Prod.mk.inj (Except.ok.inj hrun)
    have hwritten : written cStrings shortX = [0x58] := by decide
    have hshort : shortText shortX = [0x58] := by decide
    refine keepsName_of_spells nameOf_behindA (by decide) (not_hasParts_one (by decide)) hpending ?_
    rw [hwritten, hshort]
    exact hnul

theorem insertsUnder_of_map {i : ℕ} {name : List UInt8} (result : List (ℕ × List UInt8))
    (h : (fs.populateFrom strings getChainSize m size).map
      (fun r => r.2.children.map fun child => (child.directoryOffset, child.name)) = .ok result)
    (hmem : (32 * i, name) ∈ result) : fs.InsertsUnder strings getChainSize m size i name := by
  match hrun : fs.populateFrom strings getChainSize m size with
  | .error e =>
    rw [hrun] at h
    cases h
  | .ok (r, s) =>
    rw [hrun] at h
    obtain rfl := Except.ok.inj h
    obtain ⟨child, hchild, heq⟩ := List.mem_map.mp hmem
    exact ⟨r, s, hrun, child, hchild, congrArg Prod.fst heq, congrArg Prod.snd heq⟩

theorem onlyX_insertsUnder :
    anyFs.InsertsUnder cStrings (fun _ => .ok 0) onlyX 32 0 [0x58] :=
  insertsUnder_of_map [(0, [0x58])] (by decide) (by decide)

/-- "X" has its own name in a directory of its own, and the same behind "A". -/
theorem populate_underOwnNames_onlyX :
    anyFs.UnderOwnNames cStrings (fun _ => .ok 0) onlyX 32 ∧
      ∀ name, anyFs.InsertsUnder cStrings (fun _ => .ok 0) behindA 64 1 name → [0x58] = name := by
  have hsame : SameEntry onlyX 0 behindA 1 := sameEntry_X nameOf_behindA (by decide)
  refine ⟨(populate_underOwnNames_iff cStrings_ends onlyX_hasNames).1.mpr onlyX_namesOwn,
    fun name hname => ?_⟩
  exact (populate_underOwnNames_iff cStrings_ends onlyX_hasNames).2 behindA 64 behindA_hasNames
    onlyX_namesOwn behindA_namesOwn 0 1 [0x58] name hsame onlyX_insertsUnder hname

/-- The rest of a longer name in front of it becomes part of a name: "XONGER". -/
theorem not_names_agree_longerX :
    ¬ ∀ m size m' size' i j name name', HasNames m size → HasNames m' size' →
      SameEntry m i m' j → anyFs.InsertsUnder cStrings (fun _ => .ok 0) m size i name →
        anyFs.InsertsUnder cStrings (fun _ => .ok 0) m' size' j name' → name = name' := by
  intro hall
  have hlonger : anyFs.InsertsUnder cStrings (fun _ => .ok 0) longerX 64 1
      [0x58, 0x4f, 0x4e, 0x47, 0x45, 0x52] :=
    insertsUnder_of_map [(0, [0x4c, 0x4f, 0x4e, 0x47, 0x45, 0x52]),
      (32, [0x58, 0x4f, 0x4e, 0x47, 0x45, 0x52])] (by decide) (by decide)
  have hsame : SameEntry onlyX 0 longerX 1 := sameEntry_X nameOf_longerX (by decide)
  exact absurd (hall _ _ _ _ _ _ _ _ onlyX_hasNames longerX_hasNames hsame
    onlyX_insertsUnder hlonger) (by decide)

end Fat32Fs

end Cryptix.VFS
