import Mathlib.Data.List.TakeWhile
import Cryptix.VFS.Fat32Directory

/-!
# The children of a FAT32 directory

`Populate` of `Kernel/VFS/Fat32Fs/Fat32Fs.cpp` is to insert a child for each file and each directory
that is in a directory, but for "." and "..". `populate_inserts_iff` says for which directories it
does: each entry that the loop comes to has to be taken for what it is, and nothing may be left of a
long name at an entry that it does not belong to.
-/

namespace Cryptix.VFS

open Lib

namespace Fat32DirectoryEntry

/-- The name of the entry for the directory itself. -/
def dotName : List UInt8 := 0x2e :: List.replicate 10 0x20

/-- The name of the entry for its parent. -/
def dotDotName : List UInt8 := 0x2e :: 0x2e :: List.replicate 9 0x20

variable (m : ℕ → UInt8) (i : ℕ)

/-- The entry for the directory itself, or for its parent. -/
def IsDotEntry : Prop := nameOf m i = dotName ∨ nameOf m i = dotDotName

/-- An entry of a file or a directory. A label, and a part of a long name, have the bit of a
label. -/
def IsFile : Prop :=
  ¬ IsEnd m i ∧ ¬ IsDeleted m i ∧ Fat32Attribute.meets (m (32 * i + 11)) .volumeID = false

/-- An entry that should have a child: a file or a directory in front of the end. -/
def IsLive : Prop := (∀ k < i, ¬ IsEnd m k) ∧ IsFile m i ∧ ¬ IsDotEntry m i

instance : DecidablePred (IsEnd m) := fun i => inferInstanceAs (Decidable (m (32 * i) = 0))

instance : DecidablePred (IsDeleted m) := fun i => inferInstanceAs (Decidable (m (32 * i) = 0xe5))

instance : DecidablePred (IsDotEntry m) := fun _ => inferInstanceAs (Decidable (_ ∨ _))

instance : DecidablePred (IsFile m) := fun _ => inferInstanceAs (Decidable (_ ∧ _ ∧ _))

instance : DecidablePred (IsLive m) := fun _ => inferInstanceAs (Decidable (_ ∧ _ ∧ _))

/-- The entries of a directory that should have a child. -/
def live (size : ℕ) : List ℕ := (List.range (size / 32)).filter (IsLive m)

/-- A short name in good order: it has no NUL, and it begins with neither a space nor a dot, if it
is not that of a dot entry. -/
structure IsShortName (name : List UInt8) : Prop where
  nul : (0 : UInt8) ∉ name
  head : name = dotName ∨ name = dotDotName ∨ name.headD 0 ≠ 0x20 ∧ name.headD 0 ≠ 0x2e

/-- The files and directories have names in good order. -/
def HasNames (size : ℕ) : Prop :=
  ∀ i < size / 32, (∀ k < i, ¬ IsEnd m k) → IsFile m i → IsShortName (nameOf m i)

end Fat32DirectoryEntry

namespace Fat32Populate

open Fat32DirectoryEntry

/-- What is left in the name buffer behind the dots of a dot entry leaves it one. -/
def LeavesDots (nameBuffer : ℕ → UInt8) (name : List UInt8) : Prop :=
  if name = dotName then nameBuffer 1 = 0 ∨ nameBuffer 1 = 0x2e ∧ nameBuffer 2 = 0
  else nameBuffer 2 = 0

/-- A turn takes its entry for what it is: what is taken for a part of a long name is no file, and
has a place or the checksum of the part before it. Where it has not, no more children should be.
A file is not taken for a dot entry, nor a dot entry for a file, and a directory has a chain. -/
structure VisitsRight (getChainSize : ℕ → Except ScanFault ℕ) (m : ℕ → UInt8) (size : ℕ)
    (s : Fat32Populate) (i : ℕ) : Prop where
  notLive : IsTakenForPart m i → ¬ IsLive m i
  place : IsTakenForPart m i → ¬ s.Mismatch i → s.HasPlace size i
  mismatch : IsTakenForPart m i → s.Mismatch i → ∀ j ∈ live m size, j < i
  pending : IsTakenForChild m i → s.isLfn = true → (IsDots s.nameBuffer ↔ IsDotEntry m i)
  dots : IsTakenForChild m i → s.isLfn = false → IsDotEntry m i →
    LeavesDots s.nameBuffer (nameOf m i)
  chain : IsTakenForChild m i → ¬ IsDotEntry m i → HasSize getChainSize (.read m (32 * i))

end Fat32Populate

namespace Fat32Fs

open Fat32DirectoryEntry

/-- `Populate` inserts a child for each entry that should have one, and no other. -/
def Inserts (fs : Fat32Fs) (strings : PrismStrings) (getChainSize : ℕ → Except ScanFault ℕ)
    (m : ℕ → UInt8) (size : ℕ) : Prop :=
  ∃ result s, fs.populateFrom strings getChainSize m size = .ok (result, s) ∧
    s.children.map (fun child => child.directoryOffset) = (live m size).map fun i => 32 * i

end Fat32Fs

/-! ## Dot entries -/

namespace Fat32Populate

open Fat32DirectoryEntry

variable {strings : PrismStrings} {m : ℕ → UInt8} {s : Fat32Populate} {i size : ℕ}
  {name : List UInt8}

theorem written_dotName (strings : PrismStrings) : written strings dotName = [0x2e] := rfl

theorem written_dotDotName (strings : PrismStrings) :
    written strings dotDotName = [0x2e, 0x2e] := rfl

theorem IsDots.head {buffer : ℕ → UInt8} (h : IsDots buffer) : buffer 0 = 0x2e :=
  h.elim And.left And.left

/-- A dot entry stays one if what is left behind its dots lets it. -/
theorem isDots_iff_of_dotEntry (h : name = dotName ∨ name = dotDotName) (buffer : ℕ → UInt8) :
    IsDots (writeBytes buffer 0 (written strings name)) ↔ LeavesDots buffer name := by
  rcases h with rfl | rfl
  · have hdot := spells_writeBytes_iff buffer 0 [0x2e] []
    have hdots := spells_writeBytes_iff buffer 0 [0x2e] [0x2e]
    rw [written_dotName, LeavesDots, if_pos rfl]
    exact or_congr hdot hdots
  · have hbyte : writeBytes buffer 0 [0x2e, 0x2e] 1 = 0x2e :=
      writeBytes_of_mem buffer 0 (show 1 < [(0x2e : UInt8), 0x2e].length by decide)
    have hdot : ¬ Spells (writeBytes buffer 0 [0x2e, 0x2e]) 0 [0x2e] := by
      rintro ⟨-, hnul⟩
      exact absurd (hbyte.symm.trans hnul) (by decide)
    have hdots := spells_writeBytes_iff buffer 0 [0x2e, 0x2e] []
    rw [written_dotDotName, LeavesDots, if_neg (by decide)]
    exact (or_iff_right hdot).trans hdots

/-- A name that does not begin with a space is not all padding. -/
theorem countSpacePadding_lt (hlength : name.length = 11) (h : name.headD 0 ≠ 0x20) :
    Fat32Fs.countSpacePadding name 8 < 8 := by
  have height : (name.take 8).reverse.length = 8 := by
    rw [List.length_reverse, List.length_take]
    omega
  have hpre := List.takeWhile_prefix (p := (· = (0x20 : UInt8))) (l := (name.take 8).reverse)
  have hle := hpre.length_le
  rw [Fat32Fs.countSpacePadding]
  refine lt_of_le_of_ne (by omega) fun hall => h ?_
  have hself := hpre.eq_of_length (hall.trans height.symm)
  match name, hlength with
  | c :: rest, _ =>
    have hspaces := List.takeWhile_eq_self_iff.mp hself c (by simp)
    exact of_decide_eq_true hspaces

/-- What is written of a name begins with its first character. -/
theorem written_head (hlength : name.length = 11) (h : name.headD 0 ≠ 0x20)
    (buffer : ℕ → UInt8) :
    writeBytes buffer 0 (written strings name) 0 = name.headD 0 := by
  have hpadding := countSpacePadding_lt hlength h
  obtain ⟨tail, htail⟩ : ∃ tail, written strings name = name.headD 0 :: tail := by
    match name, hlength with
    | c :: rest, _ =>
      rw [written, show 8 - Fat32Fs.countSpacePadding (c :: rest) 8 =
        7 - Fat32Fs.countSpacePadding (c :: rest) 8 + 1 by omega, List.take_succ_cons]
      exact ⟨_, rfl⟩
  rw [htail]
  exact writeBytes_of_mem buffer 0 (show 0 < (name.headD 0 :: tail).length from Nat.succ_pos _)

/-- A file is taken for a dot entry if the name that is left is one, and a dot entry is taken for a
file if what is left behind its dots makes it one. -/
theorem isDots_iff (strings : PrismStrings) (hname : IsShortName (nameOf s.directoryEntries i)) :
    (IsDots (s.withName strings i).nameBuffer ↔ IsDotEntry s.directoryEntries i) ↔
      (s.isLfn = true → (IsDots s.nameBuffer ↔ IsDotEntry s.directoryEntries i)) ∧
      (s.isLfn = false → IsDotEntry s.directoryEntries i →
        LeavesDots s.nameBuffer (nameOf s.directoryEntries i)) := by
  rw [withName]
  dsimp only
  cases hpending : s.isLfn with
  | true =>
    rw [if_pos rfl]
    exact ⟨fun h => ⟨fun _ => h, fun h => Bool.noConfusion h⟩, fun h => h.1 rfl⟩
  | false =>
    rw [if_neg Bool.false_ne_true]
    refine Iff.trans ?_ ⟨fun h => ⟨fun h => Bool.noConfusion h, fun _ => h⟩, fun h => h.2 rfl⟩
    by_cases hdot : IsDotEntry s.directoryEntries i
    · rw [isDots_iff_of_dotEntry hdot]
      exact ⟨fun h _ => h.mpr hdot, fun h => iff_of_true (h hdot) hdot⟩
    · refine iff_of_true (iff_of_false (fun hdots => ?_) hdot) fun h => absurd h hdot
      obtain ⟨hspace, hhead⟩ := (hname.head.resolve_left fun h => hdot (Or.inl h)).resolve_left
        fun h => hdot (Or.inr h)
      exact hhead ((written_head (length_nameOf _ i) hspace _).symm.trans hdots.head)

/-- The loop has not written to the entry it comes to. -/
theorem Reached.isDots_iff (h : Reached m i s) (strings : PrismStrings)
    (hname : IsShortName (nameOf m i)) :
    (IsDots (s.withName strings i).nameBuffer ↔ IsDotEntry m i) ↔
      (s.isLfn = true → (IsDots s.nameBuffer ↔ IsDotEntry m i)) ∧
      (s.isLfn = false → IsDotEntry m i → LeavesDots s.nameBuffer (nameOf m i)) := by
  have hnameOf := h.nameOf_eq (Nat.le_refl i)
  have hdotEntry : IsDotEntry s.directoryEntries i ↔ IsDotEntry m i := by
    rw [IsDotEntry, IsDotEntry, hnameOf]
  have hdots := Fat32Populate.isDots_iff strings (hnameOf ▸ hname)
  rwa [hdotEntry, hnameOf] at hdots

end Fat32Populate

/-! ## What a turn inserts -/

namespace Fat32DirectoryEntry

variable {m : ℕ → UInt8} {i j n : ℕ}

theorem mem_live_iff {size : ℕ} : j ∈ live m size ↔ j < size / 32 ∧ IsLive m j := by
  rw [live, List.mem_filter, List.mem_range, decide_eq_true_eq]

/-- Nothing is behind the end. -/
theorem lt_of_isEnd (hend : IsEnd m i) (hlive : IsLive m j) : j < i := by
  rcases Nat.lt_trichotomy i j with hlt | rfl | hlt
  · exact absurd hend (hlive.1 i hlt)
  · exact absurd hend hlive.2.1.1
  · exact hlt

theorem isFile_of_isTakenForChild (h : IsTakenForChild m i) : IsFile m i :=
  ⟨h.1, h.2.1, volumeID_not_meets h.2.2⟩

end Fat32DirectoryEntry

namespace Fat32Populate

open Fat32DirectoryEntry

variable {fs : Fat32Fs} {strings : PrismStrings} {getChainSize : ℕ → Except ScanFault ℕ}
  {m : ℕ → UInt8} {s t : Fat32Populate} {i size : ℕ}

/-- Where the entries are that have children. -/
def offsets (s : Fat32Populate) : List ℕ := s.children.map fun child => child.directoryOffset

/-- What a turn should do: it inserts a child if its entry should have one. When the loop ends, no
entry that should have one is left. -/
abbrev InsertsOwn (m : ℕ → UInt8) (size : ℕ) (s : Fat32Populate) (i : ℕ) :
    Except Fat32Fault (Bool × Fat32Populate) → Prop :=
  Emits (IsLive m) (fun i => 32 * i) offsets (size / 32) s i

theorem offsets_eq_iff (s : Fat32Populate) :
    s.offsets = s.offsets ++ (if IsLive m i then [32 * i] else []) ↔ ¬ IsLive m i := by
  by_cases h : IsLive m i <;> simp [h]

/-- A part of a long name inserts nothing. -/
theorem visitsRight_part_iff (h : Reached m i s) (hi : i < size / 32)
    (hpart : IsTakenForPart m i) : s.VisitsRight getChainSize m size i ↔
      InsertsOwn m size s i (s.visit fs strings getChainSize size i) := by
  have hchild : ¬ IsTakenForChild m i := fun hchild =>
    Bool.false_ne_true (hchild.2.2.symm.trans hpart.2.2)
  rw [visit_of_part (by omega) (h.isTakenForPart_iff.mpr hpart), visitLongName_eq]
  by_cases hmatch : s.Mismatch i
  · rw [if_pos hmatch]
    refine ⟨fun hright j hj hlive => hright.mismatch hpart hmatch j (mem_live_iff.mpr ⟨hj, hlive⟩),
      fun hlast => ⟨fun _ hlive => absurd (hlast i hi hlive) (Nat.lt_irrefl i),
        fun _ h => absurd hmatch h, fun _ _ j hj => ?_, fun h => absurd h hchild,
        fun h => absurd h hchild, fun h => absurd h hchild⟩⟩
    obtain ⟨hlt, hlive⟩ := mem_live_iff.mp hj
    exact hlast j hlt hlive
  · rw [if_neg hmatch]
    by_cases hplace : s.HasPlace size i
    · rw [if_pos hplace]
      refine Iff.trans ?_ s.offsets_eq_iff.symm
      exact ⟨fun hright => hright.notLive hpart, fun hown => ⟨fun _ => hown, fun _ _ => hplace,
        fun _ h => absurd h hmatch, fun h => absurd h hchild, fun h => absurd h hchild,
        fun h => absurd h hchild⟩⟩
    · rw [if_neg hplace]
      exact iff_of_false (fun hright => hplace (hright.place hpart hmatch)) not_false

/-- The name that an entry is inserted with is short enough. -/
theorem length_view_le (hstrings : strings.Ends) (h : Reached m i s) :
    (strings.view (s.withName strings i).nameBuffer).length ≤ 255 := by
  have hnul : (s.withName strings i).nameBuffer (0 + 247) = 0 :=
    (withName_of_le hstrings.toCopies s (by decide)).trans (h.terminated _ le_rfl)
  have hle := length_cString_le (show 247 < 256 by decide) hnul
  rw [hstrings.view]
  omega

/-- A file or directory has a child, unless it is a dot entry. -/
theorem visitsRight_child_iff (hstrings : strings.Ends) (h : Reached m i s) (hi : i < size / 32)
    (hname : IsShortName (nameOf m i)) (hchild : IsTakenForChild m i) :
    s.VisitsRight getChainSize m size i ↔
      InsertsOwn m size s i (s.visit fs strings getChainSize size i) := by
  have hpart : ¬ IsTakenForPart m i := fun hpart =>
    Bool.false_ne_true (hchild.2.2.symm.trans hpart.2.2)
  have hown : IsLive m i ↔ ¬ IsDotEntry m i :=
    (and_iff_right h.ends).trans (and_iff_right (isFile_of_isTakenForChild hchild))
  have hdots := h.isDots_iff strings hname
  rw [visit_of_child (by omega) hstrings.toCopies (h.isTakenForChild_iff.mpr hchild)]
  by_cases hskip : IsDots (s.withName strings i).nameBuffer
  · rw [if_pos hskip]
    refine Iff.trans ?_ s.offsets_eq_iff.symm
    rw [hown, not_not]
    refine ⟨fun hright => ?_, fun hdot => ?_⟩
    · exact (hdots.mpr ⟨hright.pending hchild, hright.dots hchild⟩).mp hskip
    · obtain ⟨hpending, hleaves⟩ := hdots.mp (iff_of_true hskip hdot)
      exact ⟨fun h => absurd h hpart, fun h => absurd h hpart, fun h => absurd h hpart,
        fun _ => hpending, fun _ => hleaves, fun _ hne => absurd hdot hne⟩
  · rw [if_neg hskip]
    have hok := insertChild_isOk_iff fs strings getChainSize (s.withName strings i)
      (.read s.directoryEntries (32 * i)) i
    rw [and_iff_right (length_view_le hstrings h), h.read_eq] at hok
    rw [h.read_eq]
    have hright : s.VisitsRight getChainSize m size i ↔ ¬ IsDotEntry m i ∧
        ∃ t, (s.withName strings i).insertChild fs strings getChainSize i (.read m (32 * i)) =
          .ok t := by
      rw [hok]
      refine ⟨fun hright => ?_, fun ⟨hdot, hchain⟩ => ?_⟩
      · have hdot := mt (hdots.mpr ⟨hright.pending hchild, hright.dots hchild⟩).mpr hskip
        exact ⟨hdot, hright.chain hchild hdot⟩
      · obtain ⟨hpending, hleaves⟩ := hdots.mp (iff_of_false hskip hdot)
        exact ⟨fun h => absurd h hpart, fun h => absurd h hpart, fun h => absurd h hpart,
          fun _ => hpending, fun _ => hleaves, fun _ _ => hchain⟩
    rw [hright]
    have hcases := insertChild_cases fs strings getChainSize (s.withName strings i)
      (.read m (32 * i)) i
    rcases hcases with ⟨child, hinsert, -, hoffset⟩ | ⟨fault, hinsert, -⟩
    · rw [hinsert, and_iff_left ⟨_, rfl⟩, ← hown]
      have hoffsets : offsets { s.withName strings i with children := s.children ++ [child] } =
          s.offsets ++ [32 * i] := by
        rw [offsets, List.map_append, List.map_singleton, hoffset]
        rfl
      refine ⟨fun hown => hoffsets.trans (by rw [if_pos hown]), fun hsame => ?_⟩
      by_contra hnot
      have hsame := hoffsets.symm.trans hsame
      rw [if_neg hnot] at hsame
      exact absurd (List.append_cancel_left hsame) (List.cons_ne_nil _ _)
    · rw [hinsert]
      exact iff_of_false (fun h => nomatch h.2) not_false

/-- A turn is right exactly if it takes its entry for what it is. -/
theorem visitsRight_iff (hstrings : strings.Ends) (h : Reached m i s) (hi : i < size / 32)
    (hnames : HasNames m size) : s.VisitsRight getChainSize m size i ↔
      InsertsOwn m size s i (s.visit fs strings getChainSize size i) := by
  have hskipped : ¬ IsTakenForPart m i → ¬ IsTakenForChild m i →
      s.VisitsRight getChainSize m size i := fun hpart hchild =>
    ⟨fun h => absurd h hpart, fun h => absurd h hpart, fun h => absurd h hpart,
      fun h => absurd h hchild, fun h => absurd h hchild, fun h => absurd h hchild⟩
  rcases kinds m i with hend | hdeleted | hpart | hchild
  · rw [visit_of_end (by omega) (h.isEnd_iff.mpr hend)]
    exact iff_of_true (hskipped (fun h => h.1 hend) fun h => h.1 hend)
      fun j _ hlive => lt_of_isEnd hend hlive
  · rw [visit_of_deleted (by omega) (h.isDeleted_iff.mpr hdeleted)]
    exact iff_of_true (hskipped (fun h => h.2.1 hdeleted) fun h => h.2.1 hdeleted)
      (s.offsets_eq_iff.mpr fun hlive => hlive.2.1.2.1 hdeleted)
  · exact visitsRight_part_iff h hi hpart
  · have hfile := isFile_of_isTakenForChild hchild
    exact visitsRight_child_iff hstrings h hi (hnames i hi h.ends hfile) hchild

theorem le_of_visit {r : Bool × Fat32Populate}
    (h : s.visit fs strings getChainSize size i = .ok r) : 32 * i + 32 ≤ size := by
  by_contra hnot
  rw [visit, entryAt_eq, if_neg hnot] at h
  cases h

/-- A turn inserts the child of its entry, or nothing. -/
theorem offsets_of_continues (hstrings : strings.Copies)
    (h : s.visit fs strings getChainSize size i = .ok (true, t)) :
    t.offsets = s.offsets ∨ t.offsets = s.offsets ++ [32 * i] := by
  rcases visit_continues (le_of_visit h) hstrings h with ⟨-, rfl⟩ | ⟨-, -, -, rfl⟩ | ⟨-, -, rfl⟩ |
    ⟨-, -, child, rfl, -, hoffset⟩
  · exact Or.inl rfl
  · exact Or.inl rfl
  · exact Or.inl rfl
  · refine Or.inr ?_
    rw [offsets, List.map_append, List.map_singleton, hoffset]
    rfl

theorem offsets_of_stops (hstrings : strings.Copies)
    (h : s.visit fs strings getChainSize size i = .ok (false, t)) : t.offsets = s.offsets := by
  rcases visit_stops (le_of_visit h) hstrings h with ⟨-, rfl⟩ | ⟨-, -, rfl⟩
  · rfl
  · rfl

end Fat32Populate

/-! ## What is inserted -/

namespace Fat32Fs

open Fat32DirectoryEntry Fat32Populate

variable {fs : Fat32Fs} {strings : PrismStrings} {getChainSize : ℕ → Except ScanFault ℕ}
  {m : ℕ → UInt8} {size : ℕ}

/-- **Which directories are populated with their files.** Whatever else is in a directory,
`Populate` inserts a child for each of its files and directories, and no other, exactly if it takes
every entry that it comes to for what it is. -/
theorem populate_inserts_iff (hstrings : strings.Ends) (hnames : HasNames m size) :
    fs.Inserts strings getChainSize m size ↔
      EveryTurn (visit fs strings getChainSize size) (VisitsRight getChainSize m size)
        (new strings m) (List.range (size / 32)) := by
  have hemits : (∃ b s, untilRejected (visit fs strings getChainSize size) (new strings m)
        (List.range (size / 32)) = .ok (b, s) ∧ s.offsets = (live m size).map fun i => 32 * i) ↔
      ∀ i < size / 32, ∀ t, ComesTo (visit fs strings getChainSize size) (new strings m) i t →
        InsertsOwn m size t i (t.visit fs strings getChainSize size i) :=
    untilRejected_emits_iff (fun _ _ h => Nat.eq_of_mul_eq_mul_left (by decide) h) rfl
      (fun _ _ _ => offsets_of_continues hstrings.toCopies)
      fun _ _ _ => offsets_of_stops hstrings.toCopies
  have hinserts : fs.Inserts strings getChainSize m size ↔
      ∃ b s, untilRejected (visit fs strings getChainSize size) (new strings m)
        (List.range (size / 32)) = .ok (b, s) ∧
          s.offsets = (live m size).map fun i => 32 * i := by
    constructor
    · rintro ⟨result, s, hrun, hoffsets⟩
      obtain ⟨⟨b, hrun⟩, -⟩ := populateFrom_eq_ok_iff.mp hrun
      exact ⟨b, s, hrun, hoffsets⟩
    · rintro ⟨b, s, hrun, hoffsets⟩
      exact ⟨_, s, populateFrom_eq_ok_iff.mpr ⟨⟨b, hrun⟩, rfl⟩, hoffsets⟩
  rw [hinserts, hemits, everyTurn_range_iff]
  refine forall₂_congr fun i hi => forall₂_congr fun t ht => ?_
  exact (visitsRight_iff hstrings (reached_of_comesTo hstrings hi.le ht) hi hnames).symm

theorem inserts_iff_map : fs.Inserts strings getChainSize m size ↔
    (fs.populateFrom strings getChainSize m size).map (fun r => r.2.offsets) =
      .ok ((live m size).map fun i => 32 * i) := by
  rw [Inserts]
  match fs.populateFrom strings getChainSize m size with
  | .error e => exact iff_of_false (fun ⟨_, _, h, _⟩ => nomatch h) nofun
  | .ok (r, s) =>
    constructor
    · rintro ⟨_, _, h, hoffsets⟩
      cases h
      exact congrArg Except.ok hoffsets
    · exact fun h => ⟨r, s, rfl, Except.ok.inj h⟩

theorem isShortName_X : IsShortName shortX :=
  ⟨by decide, Or.inr (Or.inr ⟨by decide, by decide⟩)⟩

/-- A file with a long name is inserted. -/
theorem populate_inserts_longX :
    EveryTurn (visit anyFs cStrings (fun _ => .ok 0) 64)
      (VisitsRight (fun _ => .ok 0) longX 64) (new cStrings longX) (List.range (64 / 32)) := by
  have hnames : HasNames longX 64 := by
    intro i hi _ hfile
    obtain rfl | rfl : i = 0 ∨ i = 1 := by omega
    · exact absurd hfile (by decide)
    · have hname : nameOf longX 1 = shortX := nameOf_directoryOf (by decide)
      exact hname ▸ isShortName_X
  exact (populate_inserts_iff cStrings_ends hnames).mp
    (inserts_iff_map.mpr (by decide))

/-- The read-only file "P", in a directory of one cluster. -/
def readOnlyP : ℕ → UInt8 := directoryOf [0x50 :: List.replicate 10 0x20 ++ [0x21]]

/-- A read-only file is taken for a part of a long name. -/
theorem not_populate_inserts_readOnlyP :
    ¬ ∀ m size, HasNames m size → anyFs.Inserts cStrings (fun _ => .ok 0) m size := by
  intro hall
  have hnames : HasNames readOnlyP 1024 := by
    intro i hi hends hfile
    match i with
    | 0 =>
      have hname : nameOf readOnlyP 0 = 0x50 :: List.replicate 10 0x20 :=
        nameOf_directoryOf (by decide)
      rw [hname]
      exact ⟨by decide, Or.inr (Or.inr ⟨by decide, by decide⟩)⟩
    | 1 => exact absurd hfile (by decide)
    | i + 2 => exact absurd (by decide) (hends 1 (by omega))
  exact absurd (inserts_iff_map.mp (hall readOnlyP 1024 hnames)) (by decide)

end Fat32Fs

end Cryptix.VFS
