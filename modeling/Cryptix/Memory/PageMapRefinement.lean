import Cryptix.Memory.PageMap

/-!
# A page map of 4 KiB pages is a flat map

The tables of a page map are a radix tree (`Cryptix.Lib.Radix`) over the decoding `nextPtr` of an
entry. `Wf` says so, and that no interior entry has the large-page bit. Under `Wf`

* `Virt2Pte` without allocation is `walk` along the indices of the address (`virt2Pte_eq_walk`);
* with allocation it links the tables that are missing, which changes no leaf entry
  (`virt2Pte_allocate`);
* so `InternalMap` and `InternalUnmap` write one leaf entry and nothing else (`leaf_internalMap`,
  `leaf_internalUnmap`).

What the leaf entries say about an address is therefore what a flat map from page numbers to
frames says (`FlatMap`), as long as the addresses are canonical: the indices see only the low 48 or
57 bits of an address.
-/

namespace Cryptix.Memory

open Lib

/-! ## Entries -/

namespace PTE

/-- No bit outside the address mask: a page-aligned physical address. -/
def InMask (a : Word) : Prop := a &&& ~~~addressMask = 0

instance (a : Word) : Decidable (InMask a) := inferInstanceAs (Decidable (_ = _))

theorem InMask.and_mask {a : Word} (h : InMask a) : a &&& addressMask = a := by
  have hsplit : a &&& (addressMask ||| ~~~addressMask) = a := by
    rw [show addressMask ||| ~~~addressMask = BitVec.allOnes 64 from by decide, BitVec.and_allOnes]
  rwa [BitVec.and_or_distrib_left, show a &&& ~~~addressMask = 0#64 from h, BitVec.or_zero]
    at hsplit

/-- An address has no flag bits. -/
theorem InMask.and_flag {a f : Word} (h : InMask a) (hf : addressMask &&& f = 0) : a &&& f = 0 := by
  rw [← h.and_mask, BitVec.and_assoc, hf]
  exact BitVec.and_zero

theorem or_absorb (f : Word) : present &&& f ||| present = present := by
  ext i
  simp +contextual

/-- Flag bits with the present bit among them and no address bit. -/
structure FlagWord (x : Word) : Prop where
  no_address : x &&& addressMask = 0
  present : x &&& PTE.present = PTE.present

namespace FlagWord

variable {x y f : Word}

theorem or (h : FlagWord x) (hf : f &&& addressMask = 0) : FlagWord (x ||| f) := by
  constructor
  · rw [BitVec.and_or_distrib_right, h.no_address, hf]
    exact BitVec.or_zero
  · rw [BitVec.and_or_distrib_right, h.present, BitVec.or_comm, BitVec.and_comm]
    exact or_absorb f

theorem andNot (h : FlagWord x) (hf : ~~~f &&& PTE.present = PTE.present) :
    FlagWord (x &&& ~~~f) := by
  constructor
  · rw [BitVec.and_assoc, BitVec.and_comm (~~~f), ← BitVec.and_assoc, h.no_address]
    exact BitVec.zero_and
  · rw [BitVec.and_assoc, hf, h.present]

theorem ite {c : Prop} [Decidable c] (hx : FlagWord x) (hy : FlagWord y) :
    FlagWord (if c then x else y) := by
  split
  · exact hx
  · exact hy

end FlagWord

end PTE

namespace PageAttributes

/-- The access bits alone are flag bits. -/
theorem accessFlags_flagWord (attribs : PageAttributes) : PTE.FlagWord attribs.accessFlags := by
  have h₀ : PTE.FlagWord PTE.present := ⟨by decide, by decide⟩
  have h₁ := (h₀.or (f := PTE.writeable) (by decide)).ite (c := attribs.has write) h₀
  have h₂ := (h₁.or (f := PTE.noexec) (by decide)).ite (c := !attribs.has executable) h₁
  have h₃ := (h₂.or (f := PTE.userSuper) (by decide)).ite (c := attribs.has user) h₂
  have h₄ := (h₃.or (f := PTE.globalPage) (by decide)).ite (c := attribs.has globalPage) h₃
  exact (h₄.or (f := PTE.lpage) (by decide)).ite h₄

/-- The attributes of a 4 KiB page do not set the large-page bit. -/
theorem accessFlags_lpage {attribs : PageAttributes} (h : getPageSize attribs = .page) :
    attribs.accessFlags &&& PTE.lpage = 0 := by
  have hl : attribs.has lPage = false ∧ attribs.has llPage = false := by
    unfold getPageSize at h
    split at h
    · cases h
    · split at h
      · cases h
      · rename_i hll hl
        exact ⟨by simpa using hl, by simpa using hll⟩
  unfold accessFlags
  simp only [hl.1, hl.2, Bool.or_self, Bool.false_eq_true, if_false]
  split <;> split <;> split <;> split <;> decide

/-- For a 4 KiB page the native flags are flag bits: the PAT bit is bit 7, outside the address. -/
theorem toNativeFlags_flagWord {attribs : PageAttributes} (h : getPageSize attribs = .page) :
    PTE.FlagWord attribs.toNativeFlags := by
  have h₀ := accessFlags_flagWord attribs
  have h₁ := (h₀.or (f := PTE.pcd) (by decide)).ite (c := attribs.has uncacheableStrong) h₀
  unfold toNativeFlags
  simp only [accessFlags_lpage h, bne_self_eq_false, Bool.false_eq_true, if_false]
  refine ((h₁.or (by decide)).andNot (by decide)).ite ?_
  refine (h₁.or (by decide)).ite ?_
  refine (h₁.or (by decide)).ite ?_
  refine (h₁.or (by decide)).ite ?_
  exact (h₁.or (by decide)).ite h₁

end PageAttributes

namespace PageTableEntry

/-- The word that `SetAddress` and `SetFlags` make of a cleared entry. -/
def make (a flags : Word) : PageTableEntry :=
  (setAddress 0 a).setFlags flags true

theorem make_eq (a flags : Word) : make a flags = a ||| flags := by
  unfold make setAddress setFlags
  rw [if_pos rfl, show (0 : Word) &&& ~~~PTE.addressMask = 0#64 from BitVec.zero_and,
    BitVec.zero_or]

variable {a flags : Word}

theorem address_make (ha : PTE.InMask a) (hf : PTE.FlagWord flags) :
    (make a flags).address = a := by
  rw [make_eq, address, BitVec.and_or_distrib_right, ha.and_mask, hf.no_address]
  exact BitVec.or_zero

theorem getFlag_present_make (ha : PTE.InMask a) (hf : PTE.FlagWord flags) :
    (make a flags).getFlag PTE.present = true := by
  rw [make_eq, getFlag, BitVec.and_or_distrib_right, ha.and_flag (by decide), hf.present]
  decide

end PageTableEntry

/-! ## The tree of tables -/

namespace PageMap

open PageTableEntry

/-- The table an interior entry points to. -/
def nextPtr (cfg : Paging) (e : PageTableEntry) : Option Word :=
  if e.isValid then some (cfg.toHigherHalf e.address) else none

/-- The number of levels. -/
def levels (cfg : Paging) : ℕ :=
  match cfg.mode with
  | .level4 => 4
  | .level5 => 5

/-- The indices above the table called `pml4`. -/
def topPath (cfg : Paging) (virt : Word) : List TableIndex :=
  match cfg.mode with
  | .level4 => []
  | .level5 => [pmlIndex virt 48]

/-- The indices of an address, down to its last table. -/
def path (cfg : Paging) (virt : Word) : List TableIndex :=
  topPath cfg virt ++ [pmlIndex virt 39, pmlIndex virt 30, pmlIndex virt 21]

/-- The pointer of a page table: the higher-half image of a page-aligned physical address. -/
structure IsTablePtr (cfg : Paging) (p : Word) : Prop where
  in_higherHalf : cfg.higherHalfOffset ≤ p
  phys_below : p - cfg.higherHalfOffset < cfg.higherHalfOffset
  phys_inMask : PTE.InMask (p - cfg.higherHalfOffset)

instance (cfg : Paging) (p : Word) : Decidable (IsTablePtr cfg p) :=
  decidable_of_iff
    (cfg.higherHalfOffset ≤ p ∧ p - cfg.higherHalfOffset < cfg.higherHalfOffset ∧
      PTE.InMask (p - cfg.higherHalfOffset))
    ⟨fun h => ⟨h.1, h.2.1, h.2.2⟩, fun h => ⟨h.1, h.2, h.3⟩⟩

/-- What a walk visits. -/
abbrev walkTo (cfg : Paging) (pm : PageMap) (l : List TableIndex) : Option Word :=
  Radix.walk (nextPtr cfg) pm.tables pm.topLevel l

/-- The tables form a tree, its interior entries are empty or point to a table without the
large-page bit, and the supply holds fresh table pointers. -/
structure Wf (cfg : Paging) (pm : PageMap) : Prop where
  root_ne : pm.topLevel ≠ 0
  tree : Radix.IsTree (nextPtr cfg) pm.tables pm.topLevel (levels cfg)
  interior : ∀ l p i, l.length + 1 < levels cfg → walkTo cfg pm l = some p →
    pm.entry p i = 0 ∨ (pm.entry p i).isValid = true ∧ (pm.entry p i).isLarge = false
  supply_nodup : pm.supply.Nodup
  supply_fresh : ∀ p ∈ pm.supply, pm.tables p = none ∧ IsTablePtr cfg p

variable {cfg : Paging} {pm : PageMap} {l : List TableIndex} {p q : Word} {i : TableIndex}

theorem nextPtr_zero : nextPtr cfg 0 = none := if_neg (by decide)

/-- One more step of a walk reads one entry. -/
theorem walkTo_concat (l : List TableIndex) (i : TableIndex) :
    walkTo cfg pm (l ++ [i]) = (walkTo cfg pm l).bind fun p => nextPtr cfg (pm.entry p i) := by
  unfold walkTo
  rw [Radix.walk_append]
  apply congrArg
  funext p
  unfold entry
  cases hnode : pm.tables p with
  | none => rw [Radix.walk, hnode]; exact nextPtr_zero.symm
  | some node => simp [Radix.walk, hnode]

theorem nextPtr_entry (hwalk : walkTo cfg pm l = some p) :
    nextPtr cfg (pm.entry p i) = walkTo cfg pm (l ++ [i]) := by
  rw [walkTo_concat, hwalk, Option.bind_some]

theorem Wf.isLarge_eq_false (h : Wf cfg pm) (hlen : l.length + 1 < levels cfg)
    (hwalk : walkTo cfg pm l = some p) (i : TableIndex) : (pm.entry p i).isLarge = false := by
  rcases h.interior l p i hlen hwalk with hzero | ⟨-, hlarge⟩
  · rw [hzero]
    decide
  · exact hlarge

/-! ## Growing the tree -/

/-- The entry that links the table `q`. -/
def linkWord (cfg : Paging) (q : Word) : PageTableEntry :=
  make (cfg.fromHigherHalf q) PTE.defaultFlags

theorem defaultFlags_flagWord : PTE.FlagWord PTE.defaultFlags := ⟨by decide, by decide⟩

namespace IsTablePtr

theorem fromHigherHalf_eq (h : IsTablePtr cfg q) :
    cfg.fromHigherHalf q = q - cfg.higherHalfOffset :=
  if_pos h.in_higherHalf

theorem inMask (h : IsTablePtr cfg q) : PTE.InMask (cfg.fromHigherHalf q) := by
  rw [h.fromHigherHalf_eq]
  exact h.phys_inMask

theorem isValid_linkWord (h : IsTablePtr cfg q) : (linkWord cfg q).isValid = true :=
  getFlag_present_make h.inMask defaultFlags_flagWord

theorem isLarge_linkWord (h : IsTablePtr cfg q) : (linkWord cfg q).isLarge = false := by
  rw [linkWord, make_eq, isLarge, getFlag, BitVec.and_or_distrib_right,
    h.inMask.and_flag (by decide)]
  decide

/-- The entry that links a table decodes to that table. -/
theorem nextPtr_linkWord (h : IsTablePtr cfg q) : nextPtr cfg (linkWord cfg q) = some q := by
  rw [nextPtr, if_pos h.isValid_linkWord, linkWord, address_make h.inMask defaultFlags_flagWord,
    h.fromHigherHalf_eq, Paging.toHigherHalf, if_neg (BitVec.not_le.mpr h.phys_below),
    BitVec.sub_add_cancel]

end IsTablePtr

/-- The page map after `NextLevel` has linked the table `q` of the supply. -/
def linked (cfg : Paging) (pm : PageMap) (p : Word) (i : TableIndex) (q : Word)
    (rest : List Word) : PageMap :=
  { pm with tables := Radix.link pm.tables p i q (linkWord cfg q) 0, supply := rest }

/-- An entry after linking: the new table is empty, one word of `p` is new. -/
theorem entry_linked {rest : List Word} (hpq : p ≠ q) {node : TableIndex → PageTableEntry}
    (hp : pm.tables p = some node) (p' : Word) (i' : TableIndex) :
    (linked cfg pm p i q rest).entry p' i' =
      if p' = q then 0
      else if p' = p ∧ i' = i then linkWord cfg q
      else pm.entry p' i' := by
  have hallocP : Radix.alloc pm.tables q 0 p = some node := by
    rw [← hp]
    exact Function.update_of_ne hpq _ _
  unfold linked entry Radix.link
  dsimp only
  by_cases hq : p' = q
  · subst hq
    rw [if_pos rfl, Radix.write_of_ne hpq.symm, Radix.alloc, Function.update_self]
    rfl
  · rw [if_neg hq]
    by_cases hp' : p' = p
    · subst hp'
      rw [Radix.write_self, hallocP, Option.map_some, Option.map_some, Option.getD_some,
        Function.update_apply, hp]
      simp only [true_and, Option.map_some, Option.getD_some]
    · rw [if_neg (fun h => hp' h.1), Radix.write_of_ne hp', Radix.alloc,
        Function.update_of_ne hq]

/-- What growing the tree by at most `n` tables keeps. -/
structure Grown (cfg : Paging) (pm pm' : PageMap) (n : ℕ) : Prop where
  wf : Wf cfg pm'
  leaf : ∀ path i, path.length + 1 = levels cfg →
    Radix.leafWord (nextPtr cfg) 0 pm'.tables pm'.topLevel path i =
      Radix.leafWord (nextPtr cfg) 0 pm.tables pm.topLevel path i
  supply_le : pm.supply.length ≤ pm'.supply.length + n

theorem Grown.trans {pm' pm'' : PageMap} {m n : ℕ} (h₁ : Grown cfg pm pm' m)
    (h₂ : Grown cfg pm' pm'' n) : Grown cfg pm pm'' (m + n) := by
  refine ⟨h₂.wf, fun path i hlen => (h₂.leaf path i hlen).trans (h₁.leaf path i hlen), ?_⟩
  have := h₁.supply_le
  have := h₂.supply_le
  omega

/-- Linking a table of the supply where an interior entry is empty. -/
theorem Wf.linked (h : Wf cfg pm) {rest : List Word} (hsupply : pm.supply = q :: rest)
    (hlen : l.length + 1 < levels cfg) (hwalk : walkTo cfg pm l = some p)
    (hentry : pm.entry p i = 0) :
    Grown cfg pm (linked cfg pm p i q rest) 1 ∧
      walkTo cfg (PageMap.linked cfg pm p i q rest) (l ++ [i]) = some q := by
  obtain ⟨hfresh, hptr⟩ := h.supply_fresh q (by rw [hsupply]; exact List.mem_cons_self)
  obtain ⟨node, hnode⟩ := h.tree.closed l p (by omega) hwalk
  have hpq : p ≠ q := by
    rintro rfl
    exact h.tree.walk_ne_of_fresh hfresh (by omega) hwalk
  have hlinkable : Radix.Linkable (nextPtr cfg) pm.tables pm.topLevel (levels cfg) l p i q
      (linkWord cfg q) 0 := by
    refine ⟨hlen, hwalk, fun node' hnode' => ?_, hfresh, hptr.nextPtr_linkWord, nextPtr_zero⟩
    have : node' i = 0 := by simpa [entry, hnode'] using hentry
    rw [this, nextPtr_zero]
  have hnodup := h.supply_nodup
  rw [hsupply, List.nodup_cons] at hnodup
  refine ⟨⟨⟨h.root_ne, h.tree.link hlinkable, ?_, hnodup.2, ?_⟩, ?_, ?_⟩, ?_⟩
  · intro l' p' i' hlen' hwalk'
    rw [entry_linked hpq hnode]
    have hstep : walkTo cfg (PageMap.linked cfg pm p i q rest) l' = _ :=
      h.tree.walk_link hlinkable (by omega)
    rw [hstep] at hwalk'
    split
    · exact .inl rfl
    · rename_i hq
      split
      · exact .inr ⟨hptr.isValid_linkWord, hptr.isLarge_linkWord⟩
      · split at hwalk'
        · exact absurd (Option.some.inj hwalk').symm hq
        · exact h.interior l' p' i' hlen' hwalk'
  · intro r hr
    obtain ⟨hr₁, hr₂⟩ := h.supply_fresh r (by rw [hsupply]; exact List.mem_cons_of_mem _ hr)
    have hrq : r ≠ q := by
      rintro rfl
      exact hnodup.1 hr
    have hrp : r ≠ p := by
      rintro rfl
      rw [hr₁] at hnode
      cases hnode
    refine ⟨?_, hr₂⟩
    show Radix.write (Radix.alloc pm.tables q 0) p i _ r = none
    rw [Radix.write_of_ne hrp, Radix.alloc, Function.update_of_ne hrq, hr₁]
  · intro path j hpath
    exact h.tree.leafWord_link hlinkable hpath j
  · rw [hsupply]
    exact le_rfl
  · have hlen' : (l ++ [i]).length < levels cfg := by
      rw [List.length_append, List.length_singleton]
      omega
    have hstep := h.tree.walk_link hlinkable hlen'
    rw [if_pos rfl] at hstep
    exact hstep

/-- `NextLevel` with allocation gets to the next table, linking it if needed. -/
theorem Wf.nextLevel (h : Wf cfg pm) (hsupply : 0 < pm.supply.length)
    (hlen : l.length + 1 < levels cfg) (hwalk : walkTo cfg pm l = some p) (i : TableIndex) :
    ∃ q pm', nextLevel cfg pm p i true = (some q, pm') ∧ Grown cfg pm pm' 1 ∧
      walkTo cfg pm' (l ++ [i]) = some q := by
  unfold PageMap.nextLevel
  rcases h.interior l p i hlen hwalk with hzero | ⟨hvalid, -⟩
  · obtain ⟨q, rest, hcons⟩ := List.exists_cons_of_length_pos hsupply
    obtain ⟨hgrown, hq⟩ := h.linked hcons hlen hwalk hzero
    refine ⟨q, _, ?_, hgrown, hq⟩
    rw [hzero]
    simp only [allocatePageTable, hcons]
    rfl
  · refine ⟨cfg.toHigherHalf (pm.entry p i).address, pm, by simp [hvalid], ?_, ?_⟩
    · exact ⟨h, fun _ _ _ => rfl, Nat.le_succ _⟩
    · rw [walkTo_concat, hwalk, Option.bind_some, nextPtr, if_pos hvalid]

/-- `NextLevel` without allocation only decodes the entry. -/
theorem nextLevel_false (p : Word) (i : TableIndex) :
    nextLevel cfg pm p i false = (nextPtr cfg (pm.entry p i), pm) := by
  unfold nextLevel nextPtr
  dsimp only
  split
  · rfl
  · rfl

/-! ## `Virt2Pte` -/

theorem levels_eq (cfg : Paging) (virt : Word) : levels cfg = (topPath cfg virt).length + 4 := by
  unfold levels topPath
  cases cfg.mode <;> rfl

theorem length_path (cfg : Paging) (virt : Word) : (path cfg virt).length + 1 = levels cfg := by
  rw [levels_eq cfg virt, path, List.length_append]
  rfl

/-- The entry of an address in the last table. -/
def leaf (cfg : Paging) (pm : PageMap) (virt : Word) : PageTableEntry :=
  Radix.leafWord (nextPtr cfg) 0 pm.tables pm.topLevel (path cfg virt) (pmlIndex virt 12)

theorem leaf_eq (virt : Word) :
    leaf cfg pm virt =
      ((walkTo cfg pm (path cfg virt)).map fun p => pm.entry p (pmlIndex virt 12)).getD 0 := by
  unfold leaf Radix.leafWord walkTo entry
  cases Radix.walk (nextPtr cfg) pm.tables pm.topLevel (path cfg virt) with
  | none => rfl
  | some p => rw [Option.bind_some, Option.map_some, Option.getD_some]

/-- Below `pml4`, `Virt2Pte` with allocation links what is missing and gets to the last table. -/
theorem Wf.virt2PteFrom (h : Wf cfg pm) (virt : Word) {pml4 : Word} (hsupply : 3 ≤ pm.supply.length)
    (hlen : l.length + 4 = levels cfg) (hwalk : walkTo cfg pm l = some pml4) :
    ∃ pml1 pm', virt2PteFrom cfg pm pml4 virt true .page = (some (pml1, pmlIndex virt 12), pm') ∧
      Grown cfg pm pm' 3 ∧
      walkTo cfg pm' (l ++ [pmlIndex virt 39, pmlIndex virt 30, pmlIndex virt 21]) =
        some pml1 := by
  obtain ⟨pml3, pm₁, heq₁, hgrown₁, hwalk₁⟩ :=
    h.nextLevel (by omega) (by omega) hwalk (pmlIndex virt 39)
  have hsupply₁ := hgrown₁.supply_le
  have hlen₁ : (l ++ [pmlIndex virt 39]).length = l.length + 1 := List.length_append
  have hlarge₁ := hgrown₁.wf.isLarge_eq_false (by omega) hwalk₁ (pmlIndex virt 30)
  obtain ⟨pml2, pm₂, heq₂, hgrown₂, hwalk₂⟩ :=
    hgrown₁.wf.nextLevel (by omega) (by omega) hwalk₁ (pmlIndex virt 30)
  have hsupply₂ := hgrown₂.supply_le
  have hlen₂ : ((l ++ [pmlIndex virt 39]) ++ [pmlIndex virt 30]).length = l.length + 2 := by simp
  have hlarge₂ := hgrown₂.wf.isLarge_eq_false (by omega) hwalk₂ (pmlIndex virt 21)
  obtain ⟨pml1, pm₃, heq₃, hgrown₃, hwalk₃⟩ :=
    hgrown₂.wf.nextLevel (by omega) (by omega) hwalk₂ (pmlIndex virt 21)
  refine ⟨pml1, pm₃, ?_, (hgrown₁.trans hgrown₂).trans hgrown₃, ?_⟩
  · simp [PageMap.virt2PteFrom, withTable, heq₁, heq₂, heq₃, hlarge₁, hlarge₂]
  · simpa using hwalk₃

/-- `Virt2Pte` with allocation gets to the last table of an address and changes no leaf entry. -/
theorem Wf.virt2Pte_allocate (h : Wf cfg pm) (virt : Word) (hsupply : 4 ≤ pm.supply.length) :
    ∃ pml1 pm', virt2Pte cfg pm virt true .page = (some (pml1, pmlIndex virt 12), pm') ∧
      Grown cfg pm pm' 4 ∧ walkTo cfg pm' (path cfg virt) = some pml1 := by
  have hlevels := levels_eq cfg virt
  have htop : ∃ pml4 pm₀, pml4Table cfg pm virt true = (some pml4, pm₀) ∧ Grown cfg pm pm₀ 1 ∧
      walkTo cfg pm₀ (topPath cfg virt) = some pml4 := by
    unfold pml4Table topPath
    unfold topPath at hlevels
    cases hmode : cfg.mode with
    | level4 => exact ⟨_, _, rfl, ⟨h, fun _ _ _ => rfl, Nat.le_succ _⟩, rfl⟩
    | level5 =>
      rw [hmode] at hlevels
      exact h.nextLevel (l := []) (by omega) (by rw [hlevels]; simp) rfl (pmlIndex virt 48)
  obtain ⟨pml4, pm₀, heq₀, hgrown₀, hwalk₀⟩ := htop
  have hsupply₀ := hgrown₀.supply_le
  obtain ⟨pml1, pm₁, heq₁, hgrown₁, hwalk₁⟩ :=
    hgrown₀.wf.virt2PteFrom virt (by omega) hlevels.symm hwalk₀
  refine ⟨pml1, pm₁, ?_, hgrown₀.trans hgrown₁, hwalk₁⟩
  unfold virt2Pte
  rw [if_neg h.root_ne, heq₀]
  exact heq₁

/-- Below `pml4`, `Virt2Pte` without allocation only walks. -/
theorem Wf.virt2PteFrom_eq_walk (h : Wf cfg pm) {virt pml4 : Word}
    (hlen : l.length + 4 = levels cfg) (hwalk : walkTo cfg pm l = some pml4) :
    PageMap.virt2PteFrom cfg pm pml4 virt false .page =
      ((walkTo cfg pm (l ++ [pmlIndex virt 39, pmlIndex virt 30, pmlIndex virt 21])).map
        fun p => (p, pmlIndex virt 12), pm) := by
  have hsplit : l ++ [pmlIndex virt 39, pmlIndex virt 30, pmlIndex virt 21] =
      ((l ++ [pmlIndex virt 39]) ++ [pmlIndex virt 30]) ++ [pmlIndex virt 21] := by simp
  rw [hsplit, walkTo_concat, walkTo_concat]
  unfold PageMap.virt2PteFrom
  rw [nextLevel_false, nextPtr_entry hwalk]
  cases hwalk₁ : walkTo cfg pm (l ++ [pmlIndex virt 39]) with
  | none => rfl
  | some pml3 =>
    have hlarge₁ := h.isLarge_eq_false (by simp; omega) hwalk₁ (pmlIndex virt 30)
    simp only [withTable, hlarge₁, nextLevel_false, Option.bind_some, nextPtr_entry hwalk₁]
    cases hwalk₂ : walkTo cfg pm (l ++ [pmlIndex virt 39] ++ [pmlIndex virt 30]) with
    | none => simp
    | some pml2 =>
      have hlarge₂ := h.isLarge_eq_false (by simp; omega) hwalk₂ (pmlIndex virt 21)
      simp only [hlarge₂, Option.bind_some]
      cases nextPtr cfg (pm.entry pml2 (pmlIndex virt 21)) with
      | none => simp
      | some pml1 => simp

/-- `Virt2Pte` without allocation is the walk along the indices, and changes nothing. -/
theorem Wf.virt2Pte_eq_walk (h : Wf cfg pm) (virt : Word) :
    virt2Pte cfg pm virt false .page =
      ((walkTo cfg pm (path cfg virt)).map fun p => (p, pmlIndex virt 12), pm) := by
  have hlevels := levels_eq cfg virt
  have htop : pml4Table cfg pm virt false = (walkTo cfg pm (topPath cfg virt), pm) := by
    unfold pml4Table topPath
    cases cfg.mode with
    | level4 => rfl
    | level5 => rw [nextLevel_false, ← List.nil_append [pmlIndex virt 48], walkTo_concat]; rfl
  unfold virt2Pte
  rw [if_neg h.root_ne, htop]
  cases hwalk : walkTo cfg pm (topPath cfg virt) with
  | none =>
    have hnone : walkTo cfg pm (path cfg virt) = none := by
      unfold walkTo at hwalk ⊢
      rw [path, Radix.walk_append, hwalk]
      rfl
    rw [hnone]
    rfl
  | some pml4 => exact h.virt2PteFrom_eq_walk hlevels.symm hwalk

/-! ## Leaf entries -/

/-- Two addresses with the same indices have the same entry. -/
def SameEntry (cfg : Paging) (v w : Word) : Prop :=
  path cfg v = path cfg w ∧ pmlIndex v 12 = pmlIndex w 12

instance (v w : Word) : Decidable (SameEntry cfg v w) := inferInstanceAs (Decidable (_ ∧ _))

theorem Grown.leaf_eq {pm' : PageMap} {n : ℕ} (h : Grown cfg pm pm' n) (v : Word) :
    PageMap.leaf cfg pm' v = PageMap.leaf cfg pm v :=
  h.leaf _ _ (length_path cfg v)

theorem tables_setEntry_of_ne {e : PageTableEntry} (h : q ≠ p) :
    (pm.setEntry p i e).tables q = pm.tables q :=
  Radix.write_of_ne h

/-- Writing an entry of a last table keeps the tree, and changes the leaf entry it writes only. -/
theorem Wf.setEntry (h : Wf cfg pm) {v : Word} (hwalk : walkTo cfg pm (path cfg v) = some p)
    (e : PageTableEntry) :
    Wf cfg (pm.setEntry p (pmlIndex v 12) e) ∧
      ∀ w, leaf cfg (pm.setEntry p (pmlIndex v 12) e) w =
        if SameEntry cfg w v then e else leaf cfg pm w := by
  have hlen := length_path cfg v
  refine ⟨⟨h.root_ne, h.tree.writeLeaf hlen hwalk, ?_, h.supply_nodup, ?_⟩, ?_⟩
  · intro l q i hl hq
    have hsame : walkTo cfg (pm.setEntry p (pmlIndex v 12) e) l = walkTo cfg pm l :=
      h.tree.walk_writeLeaf hlen hwalk (by omega)
    rw [hsame] at hq
    have hqp : q ≠ p := by
      rintro rfl
      have := congrArg List.length (h.tree.inj l _ q (by omega) (by omega) hq hwalk)
      omega
    have hentry : (pm.setEntry p (pmlIndex v 12) e).entry q i = pm.entry q i := by
      unfold entry
      rw [tables_setEntry_of_ne hqp]
    rw [hentry]
    exact h.interior l q i hl hq
  · intro r hr
    obtain ⟨hfresh, hptr⟩ := h.supply_fresh r hr
    have hrp : r ≠ p := by
      rintro rfl
      exact h.tree.walk_ne_of_fresh hfresh (by omega) hwalk
    refine ⟨?_, hptr⟩
    rw [tables_setEntry_of_ne hrp, hfresh]
  · intro w
    exact h.tree.leafWord_writeLeaf hlen hwalk (length_path cfg w) _

/-- `Virt2Phys` of a 4 KiB page reads the leaf entry. -/
theorem Wf.virt2Phys_eq (h : Wf cfg pm) (v : Word) {flags : PageAttributes}
    (hflags : getPageSize flags = .page) :
    virt2Phys cfg pm v flags =
      if (leaf cfg pm v).getFlag PTE.present then (leaf cfg pm v).address + v % 0x1000
      else BitVec.allOnes 64 := by
  unfold virt2Phys
  rw [hflags, h.virt2Pte_eq_walk, leaf_eq]
  cases walkTo cfg pm (path cfg v) with
  | none =>
    have hzero : ¬(0 : PageTableEntry).getFlag PTE.present = true := by decide
    exact (if_neg hzero).symm
  | some p =>
    simp only [Option.map_some, Option.getD_some]
    cases (pm.entry p (pmlIndex v 12)).getFlag PTE.present <;> rfl

/-- What a call on one page leaves behind: the leaf entry `e` there, all other entries as they
were, and a supply that at most `n` tables were taken from. -/
structure Written (cfg : Paging) (pm pm' : PageMap) (v : Word) (e : PageTableEntry) (n : ℕ) :
    Prop where
  wf : Wf cfg pm'
  leaf : ∀ w, leaf cfg pm' w = if SameEntry cfg w v then e else PageMap.leaf cfg pm w
  supply_le : pm.supply.length ≤ pm'.supply.length + n

/-- `InternalMap` of a 4 KiB page succeeds and writes its leaf entry. -/
theorem Wf.internalMap (h : Wf cfg pm) (v phys : Word) {flags : PageAttributes}
    (hflags : getPageSize flags = .page) (hsupply : 4 ≤ pm.supply.length) :
    (internalMap cfg pm v phys flags).1 = true ∧
      Written cfg pm (internalMap cfg pm v phys flags).2 v (make phys flags.toNativeFlags) 4 := by
  obtain ⟨pml1, pm', heq, hgrown, hwalk⟩ := h.virt2Pte_allocate v hsupply
  have hmap : PageMap.internalMap cfg pm v phys flags =
      (true, pm'.setEntry pml1 (pmlIndex v 12) (make phys flags.toNativeFlags)) := by
    unfold PageMap.internalMap mapOne
    rw [if_neg (by rw [hflags]; simp), hflags, heq]
    rfl
  rw [hmap]
  obtain ⟨hwf, hleaf⟩ := hgrown.wf.setEntry hwalk (make phys flags.toNativeFlags)
  refine ⟨rfl, hwf, fun w => ?_, hgrown.supply_le⟩
  rw [hleaf w, hgrown.leaf_eq w]

/-- `InternalUnmap` of a 4 KiB page clears its leaf entry; where there is no table it has nothing
to clear. -/
theorem Wf.internalUnmap (h : Wf cfg pm) (v : Word) {flags : PageAttributes}
    (hflags : getPageSize flags = .page) :
    Written cfg pm (internalUnmap cfg pm v flags).2 v 0 0 := by
  unfold PageMap.internalUnmap unmapOne
  rw [if_neg (by rw [hflags]; simp), hflags, h.virt2Pte_eq_walk]
  cases hwalk : walkTo cfg pm (path cfg v) with
  | none =>
    refine ⟨h, fun w => ?_, le_rfl⟩
    show PageMap.leaf cfg pm w = _
    split
    · rename_i hsame
      rw [leaf_eq, hsame.1, hwalk]
      rfl
    · rfl
  | some p =>
    obtain ⟨hwf, hleaf⟩ := h.setEntry hwalk 0
    exact ⟨hwf, hleaf, le_rfl⟩

/-! ## Canonical addresses -/

/-- The number of address bits the tables translate. -/
def addressBits (cfg : Paging) : ℕ :=
  match cfg.mode with
  | .level4 => 48
  | .level5 => 57

/-- An address whose upper bits repeat the topmost bit the tables translate. -/
def Canonical (cfg : Paging) (v : Word) : Prop :=
  v = (v.setWidth (addressBits cfg)).signExtend 64

instance (v : Word) : Decidable (Canonical cfg v) := inferInstanceAs (Decidable (_ = _))

/-- The page number of an address. -/
def pageOf (v : Word) : Word := v >>> 12

theorem getLsbD_pmlIndex (v : Word) (s j : ℕ) (hj : j < 9) :
    (pmlIndex v s).getLsbD j = v.getLsbD (s + j) := by
  simp [pmlIndex, hj]

/-- Equal indices are equal bits. -/
theorem getLsbD_of_pmlIndex {v w : Word} {s k : ℕ} (h : pmlIndex v s = pmlIndex w s)
    (hs : s ≤ k) (hk : k < s + 9) : v.getLsbD k = w.getLsbD k := by
  have hbit := congrArg (fun x => x.getLsbD (k - s)) h
  simp only [getLsbD_pmlIndex _ _ _ (show k - s < 9 by omega)] at hbit
  rwa [show s + (k - s) = k by omega] at hbit

/-- The indices determine the address bits that the tables translate. -/
theorem SameEntry.getLsbD_eq {v w : Word} (h : SameEntry cfg v w) {k : ℕ} (hk : 12 ≤ k)
    (hk' : k < addressBits cfg) : v.getLsbD k = w.getLsbD k := by
  obtain ⟨hpath, h12⟩ := h
  have hindices : pmlIndex v 39 = pmlIndex w 39 ∧ pmlIndex v 30 = pmlIndex w 30 ∧
      pmlIndex v 21 = pmlIndex w 21 ∧ (addressBits cfg = 48 ∨ pmlIndex v 48 = pmlIndex w 48) := by
    unfold path topPath at hpath
    unfold addressBits
    cases hmode : cfg.mode <;> simp_all
  obtain ⟨h39, h30, h21, h48⟩ := hindices
  have hbits : addressBits cfg ≤ 57 := by
    unfold addressBits
    cases cfg.mode <;> simp
  by_cases k < 21
  · exact getLsbD_of_pmlIndex h12 (by omega) (by omega)
  by_cases k < 30
  · exact getLsbD_of_pmlIndex h21 (by omega) (by omega)
  by_cases k < 39
  · exact getLsbD_of_pmlIndex h30 (by omega) (by omega)
  by_cases k < 48
  · exact getLsbD_of_pmlIndex h39 (by omega) (by omega)
  · exact getLsbD_of_pmlIndex (h48.resolve_left (by omega)) (by omega) (by omega)

/-- Canonical addresses with the same indices are on the same page. -/
theorem Canonical.getLsbD_eq {v : Word} (h : Canonical cfg v) {k : ℕ} (hk : addressBits cfg ≤ k)
    (hk' : k < 64) : v.getLsbD k = v.getLsbD (addressBits cfg - 1) := by
  have hpos : 12 < addressBits cfg := by
    unfold addressBits
    cases cfg.mode <;> simp
  conv_lhs => rw [h]
  rw [BitVec.getLsbD_signExtend, if_neg (by omega)]
  simp [hk', BitVec.msb_setWidth]
  omega

/-- For canonical addresses, sharing an entry is being on one page. -/
theorem sameEntry_iff {v w : Word} (hv : Canonical cfg v) (hw : Canonical cfg w) :
    SameEntry cfg v w ↔ pageOf v = pageOf w := by
  have hpos : 12 < addressBits cfg := by
    unfold addressBits
    cases cfg.mode <;> simp
  constructor
  · intro h
    apply BitVec.eq_of_getLsbD_eq
    intro k hk
    simp only [pageOf, BitVec.getLsbD_ushiftRight]
    by_cases hlow : 12 + k < addressBits cfg
    · exact h.getLsbD_eq (by omega) hlow
    · by_cases hhigh : 12 + k < 64
      · rw [hv.getLsbD_eq (by omega) hhigh, hw.getLsbD_eq (by omega) hhigh]
        exact h.getLsbD_eq (by omega) (by omega)
      · rw [BitVec.getLsbD_of_ge _ _ (by omega), BitVec.getLsbD_of_ge _ _ (by omega)]
  · intro h
    have hindex : ∀ s, 12 ≤ s → pmlIndex v s = pmlIndex w s := by
      intro s hs
      unfold pmlIndex
      rw [show s = 12 + (s - 12) by omega, BitVec.shiftRight_add, BitVec.shiftRight_add]
      unfold pageOf at h
      rw [h]
    refine ⟨?_, hindex 12 le_rfl⟩
    unfold path topPath
    rw [hindex 39 (by omega), hindex 30 (by omega), hindex 21 (by omega), hindex 48 (by omega)]

/-! ## The flat map -/

/-- The calls considered: `InternalMap`, `InternalUnmap`, `Virt2Phys`. -/
inductive Call
  | internalMap (virt phys : Word) (flags : PageAttributes)
  | internalUnmap (virt : Word) (flags : PageAttributes)
  | virt2Phys (virt : Word) (flags : PageAttributes)

namespace Call

/-- The address of a call. -/
def virt : Call → Word
  | internalMap virt _ _ => virt
  | internalUnmap virt _ => virt
  | virt2Phys virt _ => virt

/-- A call for a 4 KiB page, with a page-aligned physical address inside the address mask. -/
def SmallPage : Call → Prop
  | internalMap _ phys flags => getPageSize flags = .page ∧ PTE.InMask phys
  | internalUnmap _ flags => getPageSize flags = .page
  | virt2Phys _ flags => getPageSize flags = .page

end Call

/-- The page map after a call. -/
def step (cfg : Paging) (pm : PageMap) : Call → PageMap
  | .internalMap virt phys flags => (PageMap.internalMap cfg pm virt phys flags).2
  | .internalUnmap virt flags => (PageMap.internalUnmap cfg pm virt flags).2
  | .virt2Phys _ _ => pm

/-- The page map after a sequence of calls. -/
def run (cfg : Paging) (pm : PageMap) (calls : List Call) : PageMap := calls.foldl (step cfg) pm

end PageMap

/-- What a page map is for: a frame for some of the pages, by page number. -/
abbrev FlatMap := Word → Option Word

namespace FlatMap

open PageMap

/-- The flat map after a call: the last mapping installed at a page counts, until it is unmapped. -/
def step (m : FlatMap) : Call → FlatMap
  | .internalMap virt phys _ => Function.update m (pageOf virt) (some phys)
  | .internalUnmap virt _ => Function.update m (pageOf virt) none
  | .virt2Phys _ _ => m

/-- The flat map after a sequence of calls on an empty one. -/
def run (calls : List Call) : FlatMap := calls.foldl step fun _ => none

/-- The translation of an address, `-1` where its page has no mapping. -/
def translate (m : FlatMap) (v : Word) : Word :=
  match m (pageOf v) with
  | none => BitVec.allOnes 64
  | some phys => phys + v % 0x1000

end FlatMap

namespace PageMap

open PageTableEntry

variable {cfg : Paging} {pm : PageMap}

/-- The leaf entry that a mapping of the flat map stands for. -/
def Represents (e : PageTableEntry) : Option Word → Prop
  | none => e.getFlag PTE.present = false
  | some phys => e.getFlag PTE.present = true ∧ e.address = phys

theorem represents_zero : Represents 0 none := by
  unfold Represents
  decide

/-- A page map refines a flat map: the leaf entries of canonical addresses represent it. -/
structure Refines (cfg : Paging) (pm : PageMap) (m : FlatMap) : Prop where
  wf : Wf cfg pm
  leaf : ∀ v, Canonical cfg v → Represents (leaf cfg pm v) (m (pageOf v))

theorem Refines.virt2Phys {m : FlatMap} (h : Refines cfg pm m) {v : Word} (hv : Canonical cfg v)
    {flags : PageAttributes} (hflags : getPageSize flags = .page) :
    virt2Phys cfg pm v flags = m.translate v := by
  have hleaf := h.leaf v hv
  rw [h.wf.virt2Phys_eq v hflags]
  unfold FlatMap.translate
  cases hm : m (pageOf v) with
  | none =>
    rw [hm] at hleaf
    exact if_neg (by rw [show _ = false from hleaf]; simp)
  | some phys =>
    rw [hm] at hleaf
    rw [if_pos hleaf.1, hleaf.2]

/-- Writing the leaf entry of a page is an update of the flat map there. -/
theorem Refines.written {pm' : PageMap} {m : FlatMap} (h : Refines cfg pm m) {v : Word}
    (hv : Canonical cfg v) {e : PageTableEntry} {n : ℕ} (hw : Written cfg pm pm' v e n)
    {frame : Option Word} (he : Represents e frame) :
    Refines cfg pm' (Function.update m (pageOf v) frame) := by
  refine ⟨hw.wf, fun w hwc => ?_⟩
  rw [hw.leaf w, Function.update_apply]
  simp only [sameEntry_iff hwc hv]
  split
  · exact he
  · exact h.leaf w hwc

/-- One call takes both maps to related maps. -/
theorem Refines.step {m : FlatMap} (h : Refines cfg pm m) {call : Call} (hcall : call.SmallPage)
    (hv : Canonical cfg call.virt) (hsupply : 4 ≤ pm.supply.length) :
    Refines cfg (step cfg pm call) (m.step call) ∧
      pm.supply.length ≤ (PageMap.step cfg pm call).supply.length + 4 := by
  cases call with
  | internalMap v phys flags =>
    obtain ⟨-, hw⟩ := h.wf.internalMap v phys hcall.1 hsupply
    have hflags := PageAttributes.toNativeFlags_flagWord hcall.1
    exact ⟨h.written hv hw ⟨getFlag_present_make hcall.2 hflags, address_make hcall.2 hflags⟩,
      hw.supply_le⟩
  | internalUnmap v flags =>
    have hw := h.wf.internalUnmap v hcall
    exact ⟨h.written hv hw represents_zero, hw.supply_le.trans (Nat.le_add_right _ _)⟩
  | virt2Phys v flags => exact ⟨h, Nat.le_add_right _ _⟩

/-- A whole run keeps the maps related. -/
theorem Refines.run {m : FlatMap} (h : Refines cfg pm m) (calls : List Call)
    (hcalls : ∀ call ∈ calls, call.SmallPage ∧ Canonical cfg call.virt)
    (hsupply : 4 * calls.length ≤ pm.supply.length) :
    Refines cfg (run cfg pm calls) (calls.foldl FlatMap.step m) ∧
      pm.supply.length ≤ (PageMap.run cfg pm calls).supply.length + 4 * calls.length := by
  induction calls generalizing pm m with
  | nil => exact ⟨h, le_rfl⟩
  | cons call calls ih =>
    rw [List.length_cons] at hsupply ⊢
    obtain ⟨hsmall, hcanon⟩ := hcalls call List.mem_cons_self
    obtain ⟨hstep, hle⟩ := h.step hsmall hcanon (by omega)
    obtain ⟨hrun, hle'⟩ := ih hstep (fun c hc => hcalls c (List.mem_cons_of_mem _ hc)) (by omega)
    refine ⟨hrun, ?_⟩
    show _ ≤ (PageMap.run cfg (PageMap.step cfg pm call) calls).supply.length + _
    omega

/-- Distinct page-table pointers: what the allocation of page tables is assumed to return. -/
structure FreshTables (cfg : Paging) (tables : List Word) : Prop where
  nodup : tables.Nodup
  isTablePtr : ∀ p ∈ tables, IsTablePtr cfg p

theorem IsTablePtr.ne_zero {p : Word} (h : IsTablePtr cfg p) : p ≠ 0 := by
  rintro rfl
  have hle := h.in_higherHalf
  have hlt := h.phys_below
  rw [BitVec.le_zero_iff.mp hle] at hlt
  exact absurd hlt (by decide)

/-- In an empty page map only the root is reached. -/
theorem walkTo_withRoot (topLevel : Word) (supply : List Word) (l : List TableIndex) :
    walkTo cfg (withRoot topLevel supply) l = if l = [] then some topLevel else none := by
  cases l with
  | nil => rfl
  | cons i l =>
    rw [if_neg (by simp)]
    show Radix.walk _ (Radix.alloc (fun _ => none) topLevel 0) topLevel (i :: l) = none
    rw [Radix.walk, Radix.alloc, Function.update_self, Option.bind_some, nextPtr_zero]
    rfl

/-- An empty page map refines the empty flat map. -/
theorem refines_withRoot {topLevel : Word} {supply : List Word}
    (h : FreshTables cfg (topLevel :: supply)) :
    Refines cfg (withRoot topLevel supply) fun _ => none := by
  have hnodup := List.nodup_cons.mp h.nodup
  have hroot : ∀ l p, walkTo cfg (withRoot topLevel supply) l = some p → l = [] ∧ p = topLevel := by
    intro l p hwalk
    rw [walkTo_withRoot] at hwalk
    split at hwalk
    · rename_i hl
      exact ⟨hl, (Option.some.inj hwalk).symm⟩
    · cases hwalk
  have htable : ∀ p, p = topLevel → (withRoot topLevel supply).tables p = some fun _ => 0 := by
    rintro p rfl
    show Radix.alloc (fun _ => none) p 0 p = _
    rw [Radix.alloc, Function.update_self]
  refine ⟨⟨(h.isTablePtr topLevel List.mem_cons_self).ne_zero, ⟨?_, ?_⟩, ?_, hnodup.2, ?_⟩, ?_⟩
  · intro l p _ hwalk
    exact ⟨_, htable p (hroot l p hwalk).2⟩
  · intro l l' p _ _ hwalk hwalk'
    rw [(hroot l p hwalk).1, (hroot l' p hwalk').1]
  · intro l p i _ hwalk
    refine .inl ?_
    unfold entry
    rw [htable p (hroot l p hwalk).2]
    rfl
  · intro p hp
    have hne : p ≠ topLevel := by
      rintro rfl
      exact hnodup.1 hp
    refine ⟨?_, h.isTablePtr p (List.mem_cons_of_mem _ hp)⟩
    show Radix.alloc (fun _ => none) topLevel 0 p = none
    rw [Radix.alloc, Function.update_of_ne hne]
  · intro v _
    have hpath : path cfg v ≠ [] := by
      unfold path
      simp
    rw [leaf_eq, walkTo_withRoot, if_neg hpath]
    exact represents_zero

/-- Over every sequence of calls for 4 KiB pages at canonical addresses on an empty page map,
`Virt2Phys` of every canonical address is the translation of the flat map: the last mapping
installed at its page and not unmapped since, or `-1`. A further call on another page does not
change it. Four fresh tables a call are all that is ever needed. -/
theorem virt2Phys_run_eq_translate (cfg : Paging) (topLevel : Word) (supply : List Word)
    (htables : FreshTables cfg (topLevel :: supply)) (calls : List Call)
    (hcalls : ∀ call ∈ calls, call.SmallPage ∧ Canonical cfg call.virt)
    (hsupply : 4 * (calls.length + 1) ≤ supply.length) (v : Word) (hv : Canonical cfg v)
    (flags : PageAttributes) (hflags : getPageSize flags = .page) :
    virt2Phys cfg (run cfg (withRoot topLevel supply) calls) v flags =
        (FlatMap.run calls).translate v ∧
      ∀ call : Call, call.SmallPage → Canonical cfg call.virt → pageOf call.virt ≠ pageOf v →
        virt2Phys cfg (step cfg (run cfg (withRoot topLevel supply) calls) call) v flags =
          virt2Phys cfg (run cfg (withRoot topLevel supply) calls) v flags := by
  have hlen : (withRoot topLevel supply).supply.length = supply.length := rfl
  obtain ⟨hrun, hle⟩ := (refines_withRoot htables).run calls hcalls (by omega)
  refine ⟨hrun.virt2Phys hv hflags, fun call hsmall hcanon hpage => ?_⟩
  obtain ⟨hstep, -⟩ := hrun.step hsmall hcanon (by omega)
  rw [hrun.virt2Phys hv hflags, hstep.virt2Phys hv hflags]
  have hother : ∀ m : FlatMap, m.step call (pageOf v) = m (pageOf v) := by
    intro m
    cases call with
    | internalMap w phys flags => exact Function.update_of_ne hpage.symm _ _
    | internalUnmap w flags => exact Function.update_of_ne hpage.symm _ _
    | virt2Phys w flags => rfl
  unfold FlatMap.translate
  rw [hother]

/-- Four-level paging with physical memory mapped at `0xffff800000000000`. -/
def level4At : Paging := ⟨.level4, 0xffff800000000000, true⟩

/-- Twelve page tables from physical address `0x100000` on. -/
def someTables : List Word :=
  [0xffff800000100000, 0xffff800000101000, 0xffff800000102000, 0xffff800000103000,
   0xffff800000104000, 0xffff800000105000, 0xffff800000106000, 0xffff800000107000,
   0xffff800000108000, 0xffff800000109000, 0xffff80000010a000, 0xffff80000010b000]

theorem freshTables_someTables : FreshTables level4At (0xffff800000200000 :: someTables) := by
  refine ⟨by decide, ?_⟩
  unfold someTables
  simp only [List.forall_mem_cons, List.not_mem_nil, false_implies, implies_true, and_true]
  refine ⟨?_, ?_, ?_, ?_, ?_, ?_, ?_, ?_, ?_, ?_, ?_, ?_, ?_⟩ <;> decide

/-- One page mapped, its neighbour unmapped: the mapping is found. -/
theorem virt2Phys_run_map_unmap :
    virt2Phys level4At
        (run level4At (withRoot 0xffff800000200000 someTables)
          [.internalMap 0x400000 0x7000 PageAttributes.write, .internalUnmap 0x401000 0])
        0x400123 0 =
      (FlatMap.run [.internalMap 0x400000 0x7000 PageAttributes.write,
        .internalUnmap 0x401000 0]).translate 0x400123 := by
  refine (virt2Phys_run_eq_translate level4At _ _ freshTables_someTables _ ?_ (by decide) _
    (by decide) 0 (by decide)).1
  rintro call hcall
  rcases List.mem_cons.mp hcall with rfl | hcall
  · exact ⟨⟨by decide, by decide⟩, by decide⟩
  · obtain rfl := List.mem_singleton.mp hcall
    exact ⟨show getPageSize 0 = .page by decide, by decide⟩

/-- The tables do not see bit 48: a mapping at the non-canonical address `2 ^ 48` translates
address 0 as well, where no mapping was ever installed. -/
theorem virt2Phys_noncanonical_alias :
    FreshTables level4At (0xffff800000200000 :: someTables) ∧
    (Call.internalMap 0x1000000000000 0x1000 PageAttributes.write).SmallPage ∧
    Canonical level4At 0 ∧ getPageSize 0 = .page ∧
    virt2Phys level4At
        (run level4At (withRoot 0xffff800000200000 someTables)
          [.internalMap 0x1000000000000 0x1000 PageAttributes.write]) 0 0 ≠
      (FlatMap.run [.internalMap 0x1000000000000 0x1000 PageAttributes.write]).translate 0 :=
  ⟨freshTables_someTables, ⟨by decide, by decide⟩, by decide, by decide, by decide⟩

end PageMap

end Cryptix.Memory
