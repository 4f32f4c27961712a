import Cryptix.Lib.Transition
import Cryptix.Memory.AArch64PageMap

/-!
# The page maps of aarch64 share the kernel's half

The tables of all page maps are a forest (`Radix.IsForest`) over the decoding `next` of an entry,
which is the one of the CPU: a valid entry with the table bit leads on, one without it is a block.
`NextLevel` takes a block for a table, and so it goes the way of the CPU only as long as no block is
on the way (`Mapping.Clear`).

What the tables say is one mapping for the kernel's half and one for the lower half of each page map
(`Spaces`), in which every operation changes one place of one mapping, and nothing is lost or
invented when page maps are made and tables are linked.
-/

namespace Cryptix.Memory.AArch64

open Lib
open PageMap (pmlIndex withTable)

/-! ## Entries -/

/-- The bits that flags are kept in, whatever the address mask. -/
def flagBits : Word := 0x0040000000000fff

theorem addressMask_and_flagBits (cfg : Regime) : cfg.addressMask &&& flagBits = 0 := by
  unfold Regime.addressMask
  cases cfg.granule <;> cases cfg.vaWidth <;> decide

/-- No bit outside the address mask. -/
def InMask (cfg : Regime) (a : Word) : Prop := a &&& ~~~cfg.addressMask = 0

instance (cfg : Regime) (a : Word) : Decidable (InMask cfg a) := inferInstanceAs (Decidable (_ = _))

/-- Flags with the valid bit among them. -/
structure FlagWord (f : Word) : Prop where
  bits : f &&& flagBits = f
  valid : f &&& Flag.valid = Flag.valid

theorem defaultFlags_flagWord : FlagWord Flag.defaultFlags := ⟨by decide, by decide⟩

/-- The flags of a block do not have the table bit. -/
theorem toNativeFlags_table {flags : PageAttributes} (h : getPageSize flags ≠ .page) :
    toNativeFlags flags &&& Flag.table = 0 := by
  have hsize : flags.has PageAttributes.lPage = true ∨ flags.has PageAttributes.llPage = true := by
    unfold getPageSize at h
    split at h
    · rename_i hll
      exact .inr hll
    · split at h
      · rename_i hl
        exact .inl hl
      · exact absurd rfl h
  have hpage : (!flags.has PageAttributes.lPage && !flags.has PageAttributes.llPage) = false := by
    rcases hsize with hl | hll
    · rw [hl, Bool.not_true, Bool.false_and]
    · rw [hll, Bool.not_true, Bool.and_false]
  unfold toNativeFlags
  rw [hpage]
  generalize flags.has PageAttributes.write = write
  generalize flags.has PageAttributes.executable = executable
  generalize flags.has PageAttributes.user = user
  generalize flags.has PageAttributes.globalPage = globalPage
  revert write executable user globalPage
  decide

namespace InMask

variable {cfg : Regime} {a f : Word}

theorem and_mask (h : InMask cfg a) : a &&& cfg.addressMask = a := by
  have hsplit : a &&& (cfg.addressMask ||| ~~~cfg.addressMask) = a := by
    rw [BitVec.or_not_self, BitVec.and_allOnes]
  rwa [BitVec.and_or_distrib_left, show a &&& ~~~cfg.addressMask = 0#64 from h, BitVec.or_zero]
    at hsplit

/-- An address has no flag bits. -/
theorem and_flag (h : InMask cfg a) (hf : f &&& flagBits = f) : a &&& f = 0 := by
  rw [← h.and_mask, ← hf, BitVec.and_comm f, BitVec.and_assoc, ← BitVec.and_assoc cfg.addressMask,
    addressMask_and_flagBits]
  simp

theorem address_or (h : InMask cfg a) (hf : FlagWord f) : cfg.address (a ||| f) = a := by
  have hmask : f &&& cfg.addressMask = 0 := by
    rw [← hf.bits, BitVec.and_assoc, BitVec.and_comm flagBits, addressMask_and_flagBits]
    simp
  rw [Regime.address, BitVec.and_or_distrib_right, h.and_mask, hmask]
  exact BitVec.or_zero

theorem isValid_or (h : InMask cfg a) (hf : FlagWord f) : isValid (a ||| f) = true := by
  rw [isValid, PageTableEntry.getFlag, BitVec.and_or_distrib_right, h.and_flag (by decide),
    hf.valid]
  decide

theorem getFlag_table_or (h : InMask cfg a) :
    PageTableEntry.getFlag (a ||| f) Flag.table = PageTableEntry.getFlag f Flag.table := by
  rw [PageTableEntry.getFlag, BitVec.and_or_distrib_right, h.and_flag (by decide),
    PageTableEntry.getFlag]
  simp

end InMask

/-- What `SetAddress` and `SetFlags` make of a cleared entry. -/
theorem setFlags_setAddress (cfg : Regime) (a f : Word) :
    PageTableEntry.setFlags (cfg.setAddress 0 a) f true = a ||| f := by
  unfold PageTableEntry.setFlags Regime.setAddress
  rw [if_pos rfl]
  simp

theorem makeEntry_eq (cfg : Regime) (a : Word) (flags : PageAttributes) :
    makeEntry cfg a flags = a ||| toNativeFlags flags :=
  setFlags_setAddress cfg a _

theorem address_inMask (cfg : Regime) (e : PageTableEntry) : InMask cfg (cfg.address e) := by
  rw [InMask, Regime.address, BitVec.and_assoc, BitVec.and_not_self]
  simp

/-! ## The forest of tables -/

/-- Where the CPU goes on from an interior entry. -/
def next (cfg : Regime) (e : PageTableEntry) : Option Word :=
  if isValid e && e.getFlag Flag.table then some (cfg.toHigherHalf (cfg.address e)) else none

theorem next_zero (cfg : Regime) : next cfg 0 = none := if_neg (by decide)

/-- A block leads to no table. -/
theorem next_makeEntry {cfg : Regime} {a : Word} (ha : InMask cfg a) {flags : PageAttributes}
    (h : getPageSize flags ≠ .page) : next cfg (makeEntry cfg a flags) = none := by
  have htable : PageTableEntry.getFlag (a ||| toNativeFlags flags) Flag.table = false := by
    rw [ha.getFlag_table_or, PageTableEntry.getFlag, toNativeFlags_table h]
    decide
  rw [next, makeEntry_eq, htable, Bool.and_false]
  exact if_neg Bool.false_ne_true

/-- The number of levels. -/
def levels (cfg : Regime) : ℕ :=
  match cfg.mode with
  | .level4 => 4
  | .level5 => 5

/-- The pointer of a page table: the higher-half image of an address that an entry can keep. -/
structure IsTablePtr (cfg : Regime) (p : Word) : Prop where
  in_higherHalf : cfg.higherHalfOffset ≤ p
  phys_below : p - cfg.higherHalfOffset < cfg.higherHalfOffset
  phys_inMask : InMask cfg (p - cfg.higherHalfOffset)

instance (cfg : Regime) (p : Word) : Decidable (IsTablePtr cfg p) :=
  decidable_of_iff
    (cfg.higherHalfOffset ≤ p ∧ p - cfg.higherHalfOffset < cfg.higherHalfOffset ∧
      InMask cfg (p - cfg.higherHalfOffset))
    ⟨fun h => ⟨h.1, h.2.1, h.2.2⟩, fun h => ⟨h.1, h.2, h.3⟩⟩

/-- The entry that links the table `q`. -/
def linkWord (cfg : Regime) (q : Word) : PageTableEntry :=
  (cfg.setAddress 0 (cfg.fromHigherHalf q)).setFlags Flag.defaultFlags true

namespace IsTablePtr

variable {cfg : Regime} {q : Word}

theorem fromHigherHalf_eq (h : IsTablePtr cfg q) :
    cfg.fromHigherHalf q = q - cfg.higherHalfOffset :=
  if_pos h.in_higherHalf

theorem ne_zero (h : IsTablePtr cfg q) : q ≠ 0 := by
  rintro rfl
  have hlt := h.phys_below
  rw [BitVec.le_zero_iff.mp h.in_higherHalf] at hlt
  exact absurd hlt (by decide)

theorem isValid_linkWord (h : IsTablePtr cfg q) : isValid (linkWord cfg q) = true := by
  rw [linkWord, setFlags_setAddress, h.fromHigherHalf_eq]
  exact h.phys_inMask.isValid_or defaultFlags_flagWord

/-- The entry that links a table leads to that table. -/
theorem next_linkWord (h : IsTablePtr cfg q) : next cfg (linkWord cfg q) = some q := by
  have htable : (linkWord cfg q).getFlag Flag.table = true := by
    rw [linkWord, setFlags_setAddress, h.fromHigherHalf_eq, h.phys_inMask.getFlag_table_or]
    decide
  rw [next, h.isValid_linkWord, htable, Bool.and_self, if_pos rfl, linkWord, setFlags_setAddress,
    h.fromHigherHalf_eq, h.phys_inMask.address_or defaultFlags_flagWord, Paging.toHigherHalf,
    if_neg (BitVec.not_le.mpr h.phys_below), BitVec.sub_add_cancel]

end IsTablePtr

/-- What is mapped: a word for each page or block, by the indices that lead to it. -/
abbrev Mapping := List TableIndex → TableIndex → PageTableEntry

/-- No block above the table that is reached by the indices. -/
def Mapping.Clear (m : Mapping) (path : List TableIndex) : Prop :=
  ∀ l i, l ++ [i] <+: path → m l i = 0

/-- What the tables under a root say. -/
def mapping (cfg : Regime) (pm : PageMap) (root : Word) : Mapping :=
  Radix.dataWord (next cfg) 0 pm.tables root (levels cfg)

/-- What a walk of the CPU visits. -/
abbrev walkTo (cfg : Regime) (pm : PageMap) (root : Word) (l : List TableIndex) : Option Word :=
  Radix.walk (next cfg) pm.tables root l

/-- The tables are a forest, and the memory that is left holds fresh table pointers. -/
structure Wf (cfg : Regime) (roots : Set Word) (pm : PageMap) : Prop where
  root_ne : ∀ root ∈ roots, root ≠ 0
  forest : Radix.IsForest (next cfg) pm.tables roots (levels cfg)
  supply_nodup : pm.supply.Nodup
  supply_fresh : ∀ p ∈ pm.supply, pm.tables p = none ∧ IsTablePtr cfg p

section Tables

variable {cfg : Regime} {roots : Set Word} {pm : PageMap} {root p q : Word} {l : List TableIndex}
  {i : TableIndex}

theorem leafWord_eq (hwalk : walkTo cfg pm root l = some p) (i : TableIndex) :
    Radix.leafWord (next cfg) 0 pm.tables root l i = pm.entry p i := by
  unfold Radix.leafWord PageMap.entry
  rw [show Radix.walk (next cfg) pm.tables root l = some p from hwalk, Option.bind_some]

/-- One more step of a walk reads one entry. -/
theorem walkTo_concat (l : List TableIndex) (i : TableIndex) :
    walkTo cfg pm root (l ++ [i]) =
      (walkTo cfg pm root l).bind fun p => next cfg (pm.entry p i) := by
  unfold walkTo
  rw [Radix.walk_append]
  apply congrArg
  funext p
  unfold PageMap.entry
  cases hnode : pm.tables p with
  | none => rw [Radix.walk, hnode]; exact (next_zero cfg).symm
  | some node => simp [Radix.walk, hnode]

/-- Where no block is, an entry is empty or leads on. -/
theorem entry_cases (hwalk : walkTo cfg pm root l = some p)
    (hempty : mapping cfg pm root l i = 0) :
    pm.entry p i = 0 ∨
      isValid (pm.entry p i) = true ∧
        next cfg (pm.entry p i) = some (cfg.toHigherHalf (cfg.address (pm.entry p i))) := by
  rw [mapping, Radix.dataWord, leafWord_eq hwalk] at hempty
  by_cases hnext : (next cfg (pm.entry p i)).isSome
  · refine .inr ?_
    rw [next] at hnext ⊢
    split at hnext
    · rename_i hboth
      rw [if_pos hboth]
      exact ⟨(Bool.and_eq_true_iff.mp hboth).1, rfl⟩
    · cases hnext
  · rw [if_neg (fun hcond => hnext hcond.2)] at hempty
    exact .inl hempty

theorem Wf.mono {roots' : Set Word} (h : Wf cfg roots pm) (hsub : roots' ⊆ roots) :
    Wf cfg roots' pm :=
  ⟨fun r hr => h.root_ne r (hsub hr), h.forest.mono hsub, h.supply_nodup, h.supply_fresh⟩

/-- The page map after `new TTBR`. -/
def planted (pm : PageMap) (q : Word) (rest : List Word) : PageMap :=
  { pm with tables := Radix.alloc pm.tables q 0, supply := rest }

/-- A new table is a tree of its own, in which nothing is mapped. -/
theorem Wf.planted (h : Wf cfg roots pm) {rest : List Word} (hsupply : pm.supply = q :: rest) :
    Wf cfg (insert q roots) (planted pm q rest) ∧ q ∉ roots ∧
      (∀ l i, mapping cfg (AArch64.planted pm q rest) q l i = 0) ∧
      ∀ r ∈ roots, ∀ l i, l.length < levels cfg →
        mapping cfg (AArch64.planted pm q rest) r l i = mapping cfg pm r l i := by
  obtain ⟨hfresh, hptr⟩ := h.supply_fresh q (by rw [hsupply]; exact List.mem_cons_self)
  have hnodup := h.supply_nodup
  rw [hsupply, List.nodup_cons] at hnodup
  have hpos : 0 < levels cfg := by
    unfold levels
    cases cfg.mode <;> decide
  refine ⟨⟨?_, h.forest.plant hfresh (next_zero cfg), hnodup.2, fun r hr => ?_⟩, fun hq => ?_,
    fun l i => ?_, fun r hr l i hlen => ?_⟩
  · rintro r (rfl | hr)
    · exact hptr.ne_zero
    · exact h.root_ne r hr
  · obtain ⟨hr₁, hr₂⟩ := h.supply_fresh r (by rw [hsupply]; exact List.mem_cons_of_mem _ hr)
    have hrq : r ≠ q := by
      rintro rfl
      exact hnodup.1 hr
    exact ⟨(Function.update_of_ne hrq _ _).trans hr₁, hr₂⟩
  · exact (h.forest.tree q hq).walk_ne_of_fresh hfresh
      (show ([] : List TableIndex).length < _ from hpos) rfl
  · unfold mapping Radix.dataWord
    rw [show Radix.leafWord (next cfg) 0 (AArch64.planted pm q rest).tables q l i = 0 from
      Radix.IsForest.leafWord_planted (next_zero cfg) l i, ite_self]
  · have hother : Radix.IsForest.Untouched (next cfg) pm.tables
        (AArch64.planted pm q rest).tables r (levels cfg) :=
      Radix.IsForest.untouched_alloc (h.forest.tree r hr) hfresh
    unfold mapping Radix.dataWord
    rw [show Radix.leafWord (next cfg) 0 (AArch64.planted pm q rest).tables r l i = _ from
      hother.leafWord_eq hlen i]

/-! ## Growing the tables -/

/-- What linking at most `n` tables keeps. -/
structure Grown (cfg : Regime) (roots : Set Word) (pm pm' : PageMap) (n : ℕ) : Prop where
  wf : Wf cfg roots pm'
  mapping_eq : ∀ root ∈ roots, ∀ l i, l.length < levels cfg →
    mapping cfg pm' root l i = mapping cfg pm root l i
  supply_le : pm.supply.length ≤ pm'.supply.length + n

theorem Grown.refl (h : Wf cfg roots pm) : Grown cfg roots pm pm 0 :=
  ⟨h, fun _ _ _ _ _ => rfl, Nat.le_refl _⟩

theorem Grown.trans {pm' pm'' : PageMap} {m n : ℕ} (h₁ : Grown cfg roots pm pm' m)
    (h₂ : Grown cfg roots pm' pm'' n) : Grown cfg roots pm pm'' (m + n) := by
  refine ⟨h₂.wf, fun root hroot l i hlen =>
    (h₂.mapping_eq root hroot l i hlen).trans (h₁.mapping_eq root hroot l i hlen), ?_⟩
  have := h₁.supply_le
  have := h₂.supply_le
  omega

theorem Grown.clear {pm' : PageMap} {n : ℕ} (h : Grown cfg roots pm pm' n) (hroot : root ∈ roots)
    {path : List TableIndex} (hlen : path.length < levels cfg)
    (hclear : (mapping cfg pm root).Clear path) : (mapping cfg pm' root).Clear path := by
  intro l i hpre
  have hle := hpre.length_le
  rw [List.length_append, List.length_singleton] at hle
  rw [h.mapping_eq root hroot l i (by omega)]
  exact hclear l i hpre

/-- The page map after `NextLevel` has linked the table `q`. -/
def linked (cfg : Regime) (pm : PageMap) (p : Word) (i : TableIndex) (q : Word)
    (rest : List Word) : PageMap :=
  { pm with tables := Radix.link pm.tables p i q (linkWord cfg q) 0, supply := rest }

/-- Linking a table where an interior entry is empty. -/
theorem Wf.linked (h : Wf cfg roots pm) (hroot : root ∈ roots) {rest : List Word}
    (hsupply : pm.supply = q :: rest) (hlen : l.length + 1 < levels cfg)
    (hwalk : walkTo cfg pm root l = some p) (hentry : pm.entry p i = 0) :
    Grown cfg roots pm (linked cfg pm p i q rest) 1 ∧
      walkTo cfg (AArch64.linked cfg pm p i q rest) root (l ++ [i]) = some q := by
  obtain ⟨hfresh, hptr⟩ := h.supply_fresh q (by rw [hsupply]; exact List.mem_cons_self)
  have htree := h.forest.tree root hroot
  obtain ⟨node, hnode⟩ := htree.closed l p (by omega) hwalk
  have hpq : p ≠ q := by
    rintro rfl
    exact htree.walk_ne_of_fresh hfresh (by omega) hwalk
  have hlinkable : Radix.Linkable (next cfg) pm.tables root (levels cfg) l p i q
      (linkWord cfg q) 0 := by
    refine ⟨hlen, hwalk, fun node' hnode' => ?_, hfresh, hptr.next_linkWord, next_zero cfg⟩
    have hzero : node' i = 0 := by simpa [PageMap.entry, hnode'] using hentry
    rw [hzero, next_zero]
  have hnodup := h.supply_nodup
  rw [hsupply, List.nodup_cons] at hnodup
  have hwalk' : walkTo cfg (AArch64.linked cfg pm p i q rest) root (l ++ [i]) = some q := by
    have hlen : (l ++ [i]).length < levels cfg := by
      rw [List.length_append, List.length_singleton]
      omega
    have hstep := htree.walk_link hlinkable hlen
    rwa [if_pos rfl] at hstep
  refine ⟨⟨⟨h.root_ne, h.forest.link hroot hlinkable, hnodup.2, ?_⟩, ?_, ?_⟩, hwalk'⟩
  · intro r hr
    obtain ⟨hr₁, hr₂⟩ := h.supply_fresh r (by rw [hsupply]; exact List.mem_cons_of_mem _ hr)
    have hrq : r ≠ q := by
      rintro rfl
      exact hnodup.1 hr
    have hrp : r ≠ p := by
      rintro rfl
      rw [hr₁] at hnode
      cases hnode
    refine ⟨?_, hr₂⟩
    show Radix.write (Radix.alloc pm.tables q 0) p i _ r = none
    rw [Radix.write_of_ne hrp, Radix.alloc, Function.update_of_ne hrq, hr₁]
  · intro r hr l' i' hlen'
    by_cases hr' : r = root
    · subst hr'
      exact htree.dataWord_link hlinkable ((leafWord_eq hwalk i).trans hentry) hlen' i'
    · have hother := h.forest.untouched_link hroot hr hr' hlinkable
      unfold mapping Radix.dataWord
      rw [show Radix.leafWord (next cfg) 0 (AArch64.linked cfg pm p i q rest).tables r l' i' = _
        from hother.leafWord_eq hlen' i']
  · rw [hsupply]
    exact le_rfl

/-- `NextLevel` with allocation gets to the next table, linking it if needed. -/
theorem Wf.nextLevel (h : Wf cfg roots pm) (hroot : root ∈ roots) (hsupply : 0 < pm.supply.length)
    (hlen : l.length + 1 < levels cfg) (hwalk : walkTo cfg pm root l = some p)
    (hempty : mapping cfg pm root l i = 0) :
    ∃ q pm', nextLevel cfg pm p i true = (some q, pm') ∧ Grown cfg roots pm pm' 1 ∧
      walkTo cfg pm' root (l ++ [i]) = some q := by
  unfold AArch64.nextLevel
  rcases entry_cases hwalk hempty with hzero | ⟨hvalid, hnext⟩
  · obtain ⟨q, rest, hcons⟩ := List.exists_cons_of_length_pos hsupply
    obtain ⟨hgrown, hq⟩ := h.linked hroot hcons hlen hwalk hzero
    refine ⟨q, _, ?_, hgrown, hq⟩
    rw [hzero]
    simp only [PageMap.allocatePageTable, hcons]
    rfl
  · refine ⟨cfg.toHigherHalf (cfg.address (pm.entry p i)), pm, by simp [hvalid],
      ⟨h, fun _ _ _ _ _ => rfl, Nat.le_succ _⟩, ?_⟩
    rw [walkTo_concat, hwalk, Option.bind_some, hnext]

/-- `NextLevel` without allocation goes the way of the CPU. -/
theorem nextLevel_false (hwalk : walkTo cfg pm root l = some p)
    (hempty : mapping cfg pm root l i = 0) :
    nextLevel cfg pm p i false = (walkTo cfg pm root (l ++ [i]), pm) := by
  rw [walkTo_concat, hwalk, Option.bind_some]
  unfold nextLevel
  rcases entry_cases hwalk hempty with hzero | ⟨hvalid, hnext⟩
  · rw [hzero, next_zero]
    rfl
  · rw [hnext]
    simp [hvalid]

/-! ## `Virt2Pte` -/

/-- `NextLevel` for one index after the other. -/
def descend (cfg : Regime) (allocate : Bool) : List TableIndex → Word → PageMap →
    Option Word × PageMap
  | [], table, pm => (some table, pm)
  | i :: l, table, pm =>
    withTable (nextLevel cfg pm table i allocate) fun table pm => descend cfg allocate l table pm

/-- The indices above the table called `pml4`. -/
def topPath (cfg : Regime) (virt : Word) : List TableIndex :=
  match cfg.mode with
  | .level4 => []
  | .level5 => [pmlIndex virt 48]

/-- The indices that lead to the table with the entry of an address. -/
def path (cfg : Regime) (virt : Word) (size : PageSize) : List TableIndex :=
  topPath cfg virt ++
    match size with
    | .llPage => [pmlIndex virt 39]
    | .lPage => [pmlIndex virt 39, pmlIndex virt 30]
    | .page => [pmlIndex virt 39, pmlIndex virt 30, pmlIndex virt 21]

/-- The index of the entry in that table. -/
def leafIndex (virt : Word) (size : PageSize) : TableIndex :=
  match size with
  | .llPage => pmlIndex virt 30
  | .lPage => pmlIndex virt 21
  | .page => pmlIndex virt 12

theorem length_path_lt (cfg : Regime) (virt : Word) (size : PageSize) :
    (path cfg virt size).length < levels cfg := by
  unfold path topPath levels
  cases cfg.mode <;> cases size <;> simp

theorem length_path_page (cfg : Regime) (virt : Word) :
    (path cfg virt .page).length + 1 = levels cfg := by
  unfold path topPath levels
  cases cfg.mode <;> rfl

theorem length_path_le (cfg : Regime) (virt : Word) (size : PageSize) :
    (path cfg virt size).length ≤ 4 := by
  unfold path topPath
  cases cfg.mode <;> cases size <;> simp

theorem withTable_assoc {α : Type} (r : Option Word × PageMap)
    (k : Word → PageMap → Option Word × PageMap) (k' : Word → PageMap → Option α × PageMap) :
    withTable (withTable r k) k' = withTable r fun table pm => withTable (k table pm) k' := by
  obtain ⟨_ | table, pm⟩ := r
  · rfl
  · rfl

theorem virt2Pte_eq (hroot : pm.topLevel ≠ 0) (virt : Word) (allocate : Bool) (size : PageSize) :
    virt2Pte cfg pm virt allocate size =
      withTable (descend cfg allocate (path cfg virt size) pm.topLevel pm) fun table pm =>
        (some (table, leafIndex virt size), pm) := by
  unfold virt2Pte pml4Table path topPath
  rw [if_neg hroot]
  cases cfg.mode <;> cases size <;>
    simp only [List.nil_append, List.cons_append, descend, withTable_assoc] <;> rfl

/-- With allocation, the descent links what is missing and gets to the end of the path. -/
theorem Wf.descend_true (h : Wf cfg roots pm) (hroot : root ∈ roots) (rest : List TableIndex)
    (hlen : (l ++ rest).length < levels cfg) (hsupply : rest.length ≤ pm.supply.length)
    (hwalk : walkTo cfg pm root l = some p) (hclear : (mapping cfg pm root).Clear (l ++ rest)) :
    ∃ q pm', descend cfg true rest p pm = (some q, pm') ∧ Grown cfg roots pm pm' rest.length ∧
      walkTo cfg pm' root (l ++ rest) = some q := by
  induction rest generalizing pm p l with
  | nil => exact ⟨p, pm, rfl, .refl h, by rwa [List.append_nil]⟩
  | cons i rest ih =>
    rw [List.append_cons] at hlen hclear ⊢
    have hshort : l.length + 1 < levels cfg := by
      simp only [List.length_append, List.length_singleton] at hlen
      omega
    have hempty : mapping cfg pm root l i = 0 := hclear l i (List.prefix_append _ _)
    rw [List.length_cons] at hsupply ⊢
    obtain ⟨q, pm₁, heq, hgrown, hq⟩ := h.nextLevel hroot (by omega) hshort hwalk hempty
    have hle := hgrown.supply_le
    obtain ⟨r, pm₂, heq₂, hgrown₂, hr⟩ := ih hgrown.wf hlen (by omega) hq
      (hgrown.clear hroot hlen hclear)
    refine ⟨r, pm₂, ?_, ?_, hr⟩
    · rw [descend, heq]
      exact heq₂
    · rw [Nat.add_comm]
      exact hgrown.trans hgrown₂

/-- Without allocation, the descent is the walk of the CPU. -/
theorem descend_false (rest : List TableIndex) (hwalk : walkTo cfg pm root l = some p)
    (hclear : (mapping cfg pm root).Clear (l ++ rest)) :
    descend cfg false rest p pm = (walkTo cfg pm root (l ++ rest), pm) := by
  induction rest generalizing p l with
  | nil => rw [List.append_nil, hwalk, descend]
  | cons i rest ih =>
    rw [List.append_cons] at hclear ⊢
    rw [descend, nextLevel_false hwalk (hclear l i (List.prefix_append _ _))]
    cases hstep : walkTo cfg pm root (l ++ [i]) with
    | none =>
      have hnone : walkTo cfg pm root (l ++ [i] ++ rest) = none := by
        rw [walkTo, Radix.walk_append, show Radix.walk _ _ root (l ++ [i]) = none from hstep]
        rfl
      rw [hnone]
      rfl
    | some q => exact ih hstep hclear

/-! ## The operations -/

/-- A page map with one entry written. -/
theorem Wf.setEntry (h : Wf cfg roots pm) (hroot : root ∈ roots) (hlen : l.length < levels cfg)
    (hwalk : walkTo cfg pm root l = some p) {w : Word}
    (hw : l.length + 1 < levels cfg → next cfg w = none) :
    Wf cfg roots (pm.setEntry p i w) ∧
      ∀ r ∈ roots, ∀ l' i', l'.length < levels cfg →
        mapping cfg (pm.setEntry p i w) r l' i' =
          if r = root then Radix.replaceBranch 0 (mapping cfg pm root) l i w l' i'
          else mapping cfg pm r l' i' := by
  refine ⟨⟨h.root_ne, h.forest.cut hroot hlen hwalk hw, h.supply_nodup, fun r hr => ?_⟩,
    fun r hr l' i' hlen' => ?_⟩
  · obtain ⟨hfresh, hptr⟩ := h.supply_fresh r hr
    have hrp : r ≠ p := by
      rintro rfl
      exact (h.forest.tree root hroot).walk_ne_of_fresh hfresh hlen hwalk
    exact ⟨(Radix.write_of_ne hrp).trans hfresh, hptr⟩
  · split
    · rename_i heq
      subst heq
      exact (h.forest.tree r hr).dataWord_cut hlen hwalk hw hlen' i'
    · rename_i hne
      have hother := h.forest.untouched_write (i := i) (w := w) hroot hr hne hlen hwalk
      unfold mapping Radix.dataWord
      rw [show Radix.leafWord (next cfg) 0 (pm.setEntry p i w).tables r l' i' = _ from
        hother.leafWord_eq hlen' i']

/-- What the walk to an empty branch leaves out. -/
theorem mapping_eq_zero (hwalk : walkTo cfg pm root l = none)
    {path : List TableIndex} (hpre : l <+: path) (i : TableIndex) :
    mapping cfg pm root path i = 0 := by
  obtain ⟨rest, rfl⟩ := hpre
  have hnone : Radix.walk (next cfg) pm.tables root (l ++ rest) = none := by
    rw [Radix.walk_append, show Radix.walk (next cfg) pm.tables root l = none from hwalk]
    rfl
  have hzero : Radix.leafWord (next cfg) 0 pm.tables root (l ++ rest) i = 0 := by
    rw [Radix.leafWord, hnone]
    rfl
  rw [mapping, Radix.dataWord, hzero, ite_self]

/-- The entry of an address. -/
def Mapping.entryAt (m : Mapping) (cfg : Regime) (virt : Word) (flags : PageAttributes) :
    PageTableEntry :=
  m (path cfg virt (getPageSize flags)) (leafIndex virt (getPageSize flags))

/-- A mapping with the entry of an address replaced, and all that was below it. -/
def Mapping.replace (m : Mapping) (cfg : Regime) (virt : Word) (flags : PageAttributes)
    (w : PageTableEntry) : Mapping :=
  Radix.replaceBranch 0 m (path cfg virt (getPageSize flags)) (leafIndex virt (getPageSize flags)) w

/-- What an operation means. -/
def Mapping.step (m : Mapping) (cfg : Regime) (virt : Word) (flags : PageAttributes) :
    PageMaps.Operation → Mapping
  | .internalMap phys => m.replace cfg virt flags (makeEntry cfg phys flags)
  | .internalUnmap => m.replace cfg virt flags 0
  | .setFlags =>
    m.replace cfg virt flags (makeEntry cfg (cfg.address (m.entryAt cfg virt flags)) flags)

/-- The physical address, all ones where nothing is mapped. -/
def Mapping.translate (m : Mapping) (cfg : Regime) (virt : Word) (flags : PageAttributes) : Word :=
  let entry := m.entryAt cfg virt flags
  if !entry.getFlag Flag.valid then BitVec.allOnes 64
  else cfg.address entry + virt % cfg.bytes (getPageSize flags)

/-- What the callers see to: no block is on the way; a page is mapped to an address that an entry
can keep, while there is memory for the tables; and flags are only set where something is mapped. -/
def Mapping.Allows (m : Mapping) (cfg : Regime) (memory : ℕ) (virt : Word)
    (flags : PageAttributes) (op : PageMaps.Operation) : Prop :=
  m.Clear (path cfg virt (getPageSize flags)) ∧
    match op with
    | .internalMap phys => InMask cfg phys ∧ 4 ≤ memory
    | .internalUnmap => True
    | .setFlags => m.entryAt cfg virt flags ≠ 0

/-- A page map in which the entry of an address was replaced. -/
structure Replaced (cfg : Regime) (roots : Set Word) (pm pm' : PageMap) (virt : Word)
    (flags : PageAttributes) (w : PageTableEntry) : Prop where
  wf : Wf cfg roots pm'
  mapping_eq : ∀ r ∈ roots, ∀ l i, l.length < levels cfg →
    mapping cfg pm' r l i =
      if r = pm.topLevel then (mapping cfg pm pm.topLevel).replace cfg virt flags w l i
      else mapping cfg pm r l i

section Operations

variable {virt : Word} {flags : PageAttributes}

/-- An entry that the operations make leads to no table, unless it is in the last one. -/
theorem next_makeEntry_path (virt : Word) {a : Word} (ha : InMask cfg a)
    (hshort : (path cfg virt (getPageSize flags)).length + 1 < levels cfg) :
    next cfg (makeEntry cfg a flags) = none := by
  refine next_makeEntry ha fun hpage => ?_
  rw [hpage, length_path_page] at hshort
  exact Nat.lt_irrefl _ hshort

/-- The entry at the end of the walk is replaced. -/
theorem Wf.replaced (h : Wf cfg roots pm) (hroot : pm.topLevel ∈ roots)
    (hwalk : walkTo cfg pm pm.topLevel (path cfg virt (getPageSize flags)) = some q)
    {w : PageTableEntry}
    (hw : (path cfg virt (getPageSize flags)).length + 1 < levels cfg → next cfg w = none) :
    Replaced cfg roots pm (pm.setEntry q (leafIndex virt (getPageSize flags)) w) virt flags w := by
  obtain ⟨hwf, hmapping⟩ := h.setEntry hroot (length_path_lt cfg virt _) hwalk hw
  exact ⟨hwf, hmapping⟩

/-- Where no table is, nothing is replaced by nothing. -/
theorem Wf.replaced_zero (h : Wf cfg roots pm)
    (hwalk : walkTo cfg pm pm.topLevel (path cfg virt (getPageSize flags)) = none) :
    Replaced cfg roots pm pm virt flags 0 := by
  refine ⟨h, fun r _ l i _ => ?_⟩
  split
  · rename_i hr
    subst hr
    unfold Mapping.replace Radix.replaceBranch
    split
    · rename_i heq
      obtain ⟨rfl, -⟩ := List.append_inj' heq rfl
      exact mapping_eq_zero hwalk List.prefix_rfl i
    · split
      · rename_i hpre
        exact mapping_eq_zero hwalk ((List.prefix_append _ _).trans hpre) i
      · rfl
  · rfl

/-- Without allocation, `Virt2Pte` ends where the CPU does. -/
theorem Wf.virt2Pte_false (h : Wf cfg roots pm) (hroot : pm.topLevel ∈ roots) {size : PageSize}
    (hclear : (mapping cfg pm pm.topLevel).Clear (path cfg virt size)) :
    virt2Pte cfg pm virt false size =
      ((walkTo cfg pm pm.topLevel (path cfg virt size)).map fun q => (q, leafIndex virt size),
        pm) := by
  rw [virt2Pte_eq (h.root_ne _ hroot),
    descend_false (l := []) (path cfg virt size) rfl hclear, List.nil_append]
  cases walkTo cfg pm pm.topLevel (path cfg virt size) with
  | none => rfl
  | some q => rfl

theorem Wf.internalMap (h : Wf cfg roots pm) (hroot : pm.topLevel ∈ roots) {phys : Word}
    (hok : (mapping cfg pm pm.topLevel).Allows cfg pm.supply.length virt flags
      (.internalMap phys)) :
    (internalMap cfg pm virt phys flags).1 = true ∧
      Replaced cfg roots pm (internalMap cfg pm virt phys flags).2 virt flags
        (makeEntry cfg phys flags) := by
  obtain ⟨hclear, hphys, hmemory⟩ := hok
  have hle := length_path_le cfg virt (getPageSize flags)
  obtain ⟨q, pm', heq, hgrown, hq⟩ := h.descend_true (l := []) hroot
    (path cfg virt (getPageSize flags)) (length_path_lt cfg virt _) (by omega) rfl hclear
  have hpte : virt2Pte cfg pm virt true (getPageSize flags) =
      (some (q, leafIndex virt (getPageSize flags)), pm') := by
    rw [virt2Pte_eq (h.root_ne _ hroot), heq]
    rfl
  unfold AArch64.internalMap
  rw [hpte]
  refine ⟨rfl, ?_⟩
  obtain ⟨hwf, hmapping⟩ := hgrown.wf.setEntry hroot (length_path_lt cfg virt _) hq
    (fun hshort => next_makeEntry_path virt hphys hshort)
  refine ⟨hwf, fun r hr l i hlen => (hmapping r hr l i hlen).trans ?_⟩
  unfold Mapping.replace Radix.replaceBranch
  rw [hgrown.mapping_eq _ hroot l i hlen, hgrown.mapping_eq _ hr l i hlen]

theorem Wf.internalUnmap (h : Wf cfg roots pm) (hroot : pm.topLevel ∈ roots)
    (hclear : (mapping cfg pm pm.topLevel).Clear (path cfg virt (getPageSize flags))) :
    Replaced cfg roots pm (internalUnmap cfg pm virt flags).2 virt flags 0 := by
  unfold AArch64.internalUnmap
  rw [h.virt2Pte_false hroot hclear]
  cases hwalk : walkTo cfg pm pm.topLevel (path cfg virt (getPageSize flags)) with
  | none => exact h.replaced_zero hwalk
  | some q => exact h.replaced hroot hwalk fun _ => next_zero cfg

/-- The entry that is mapped is the one in the table. -/
theorem entry_eq_of_mapped (hmapped : (mapping cfg pm root).entryAt cfg virt flags ≠ 0) :
    ∃ q, walkTo cfg pm root (path cfg virt (getPageSize flags)) = some q ∧
      pm.entry q (leafIndex virt (getPageSize flags)) =
        (mapping cfg pm root).entryAt cfg virt flags := by
  cases hwalk : walkTo cfg pm root (path cfg virt (getPageSize flags)) with
  | none => exact absurd (mapping_eq_zero hwalk List.prefix_rfl _) hmapped
  | some q =>
    refine ⟨q, rfl, ?_⟩
    rw [Mapping.entryAt, mapping, Radix.dataWord] at hmapped ⊢
    split at hmapped
    · exact absurd rfl hmapped
    · rename_i hcond
      rw [if_neg hcond, leafWord_eq hwalk]

theorem Wf.setFlags (h : Wf cfg roots pm) (hroot : pm.topLevel ∈ roots)
    (hclear : (mapping cfg pm pm.topLevel).Clear (path cfg virt (getPageSize flags)))
    (hmapped : (mapping cfg pm pm.topLevel).entryAt cfg virt flags ≠ 0) :
    Replaced cfg roots pm (setFlags cfg pm virt flags).2 virt flags
      (makeEntry cfg (cfg.address ((mapping cfg pm pm.topLevel).entryAt cfg virt flags))
        flags) := by
  obtain ⟨q, hwalk, hentry⟩ := entry_eq_of_mapped hmapped
  unfold AArch64.setFlags
  rw [h.virt2Pte_false hroot hclear, hwalk, ← hentry]
  exact h.replaced hroot hwalk fun hshort =>
    next_makeEntry_path virt (address_inMask cfg _) hshort

/-- Every operation does to the tables what it means. -/
theorem Wf.run (h : Wf cfg roots pm) (op : PageMaps.Operation) (hroot : pm.topLevel ∈ roots)
    (hok : (mapping cfg pm pm.topLevel).Allows cfg pm.supply.length virt flags op) :
    Wf cfg roots (op.run cfg pm virt flags).2 ∧
      ∀ r ∈ roots, ∀ l i, l.length < levels cfg →
        mapping cfg (op.run cfg pm virt flags).2 r l i =
          if r = pm.topLevel then (mapping cfg pm pm.topLevel).step cfg virt flags op l i
          else mapping cfg pm r l i := by
  cases op with
  | internalMap phys =>
    obtain ⟨-, hreplaced⟩ := h.internalMap hroot hok
    exact ⟨hreplaced.wf, hreplaced.mapping_eq⟩
  | internalUnmap =>
    have hreplaced := h.internalUnmap hroot hok.1
    exact ⟨hreplaced.wf, hreplaced.mapping_eq⟩
  | setFlags =>
    have hreplaced := h.setFlags hroot hok.1 hok.2
    exact ⟨hreplaced.wf, hreplaced.mapping_eq⟩

end Operations

end Tables

/-! ## All page maps -/

variable {cfg : Regime}

/-- The halves of the page maps. -/
inductive Half
  | kernel
  | user (n : ℕ)
  deriving DecidableEq

/-- The half of the `n`-th page map that an address belongs to. -/
def Half.of (n : ℕ) (virt : Word) : Half := if virt.msb then .kernel else .user n

/-- A mapping for each half; the kernel's is there once. -/
abbrev Spaces := Half → Mapping

namespace Spaces

/-- What a call means. -/
def step (cfg : Regime) (a : Spaces) : PageMaps.Call → Spaces
  | .newPageMap => a
  | .operation n virt flags op =>
    Function.update a (Half.of n virt) ((a (Half.of n virt)).step cfg virt flags op)

/-- Nothing is mapped. -/
def empty : Spaces := fun _ _ _ => 0

end Spaces

namespace PageMaps

/-- The table that a half is translated from. -/
def root (s : PageMaps) : Half → Option Word
  | .kernel => s.pageMaps.head?.map PageTable.ttbr1
  | .user n => s.pageMaps[n]?.map PageTable.ttbr0

/-- The tables of all halves. -/
def roots (s : PageMaps) : Set Word := {r | ∃ half, s.root half = some r}

/-- What the callers see to in a state of the page maps. -/
def Disciplined (cfg : Regime) (s : PageMaps × Spaces) : Call → Prop
  | .newPageMap => 2 ≤ s.1.supply.length
  | .operation n virt flags op =>
    (s.2 (Half.of n virt)).Allows cfg s.1.supply.length virt flags op

/-- The page maps and what they mean, side by side. -/
def stepBoth (cfg : Regime) (s : PageMaps × Spaces) (c : Call) :
    Option (PageMaps × Spaces) :=
  (s.1.step cfg c).map fun s' => (s', s.2.step cfg c)

/-- The page maps say what they should: no half has the table of another one, all page maps have
the kernel's `ttbr1`, and each half is mapped as in `a`. -/
structure Inv (cfg : Regime) (s : PageMaps) (a : Spaces) : Prop where
  wf : Wf cfg s.roots (s.walkedFrom 0)
  inj : ∀ half half' r, s.root half = some r → s.root half' = some r → half = half'
  shared : ∀ t ∈ s.pageMaps, s.root .kernel = some t.ttbr1
  agrees : ∀ half r, s.root half = some r → ∀ l i, l.length < levels cfg →
    mapping cfg (s.walkedFrom 0) r l i = a half l i
  unused : ∀ half, s.root half = none → a half = fun _ _ => 0

theorem inv_boot {supply : List Word} (hnodup : supply.Nodup)
    (hptr : ∀ p ∈ supply, IsTablePtr cfg p) : Inv cfg (boot supply) Spaces.empty := by
  have hroot : ∀ half, (boot supply).root half = none := by
    intro half
    cases half <;> rfl
  have hnone : ∀ half r, (boot supply).root half = some r → False := by
    intro half r hr
    rw [hroot] at hr
    cases hr
  refine ⟨⟨?_, ⟨?_, ?_⟩, hnodup, fun p hp => ⟨rfl, hptr p hp⟩⟩, ?_, ?_, ?_, ?_⟩
  · rintro r ⟨half, hr⟩
    exact (hnone half r hr).elim
  · rintro r ⟨half, hr⟩
    exact (hnone half r hr).elim
  · rintro r ⟨half, hr⟩
    exact (hnone half r hr).elim
  · exact fun half _ r hr => (hnone half r hr).elim
  · exact fun t ht => absurd ht List.not_mem_nil
  · exact fun half r hr => (hnone half r hr).elim
  · exact fun half _ => rfl

namespace Inv

variable {s : PageMaps} {a : Spaces} {n : ℕ} {t : PageTable} {virt : Word}
  {flags : PageAttributes}

/-- Walks in the `n`-th page map begin at the table of the half. -/
theorem root_of (virt : Word) (h : Inv cfg s a) (ht : s.pageMaps[n]? = some t) :
    s.root (Half.of n virt) = some (t.half virt) := by
  unfold Half.of PageTable.half
  split
  · exact h.shared t (List.mem_of_getElem? ht)
  · rw [root, ht]
    rfl

theorem wf_from (h : Inv cfg s a) (half : Word) : Wf cfg s.roots (s.walkedFrom half) :=
  ⟨h.wf.root_ne, h.wf.forest, h.wf.supply_nodup, h.wf.supply_fresh⟩

/-- A page map says about a path what the half says. -/
theorem allows (h : Inv cfg s a) (ht : s.pageMaps[n]? = some t) {op : Operation}
    (hok : (a (Half.of n virt)).Allows cfg s.supply.length virt flags op) :
    (mapping cfg (s.walkedFrom (t.half virt)) (t.half virt)).Allows cfg s.supply.length virt flags
      op := by
  have hagrees := h.agrees _ _ (h.root_of virt ht)
  have hlen := length_path_lt cfg virt (getPageSize flags)
  obtain ⟨hclear, hop⟩ := hok
  refine ⟨fun l i hpre => ?_, ?_⟩
  · have hle := hpre.length_le
    rw [List.length_append, List.length_singleton] at hle
    exact (hagrees l i (by omega)).trans (hclear l i hpre)
  · cases op with
    | internalMap phys => exact hop
    | internalUnmap => trivial
    | setFlags => exact fun hzero => hop ((hagrees _ _ hlen).symm.trans hzero)

/-- An operation on a page map is one on its half. -/
theorem operation (h : Inv cfg s a) (ht : s.pageMaps[n]? = some t) {op : Operation}
    (hok : (a (Half.of n virt)).Allows cfg s.supply.length virt flags op) :
    Inv cfg (s.withTables (op.run cfg (s.walkedFrom (t.half virt)) virt flags).2)
      (a.step cfg (.operation n virt flags op)) := by
  have hroot := h.root_of virt ht
  obtain ⟨hwf, hmapping⟩ := (h.wf_from (t.half virt)).run op ⟨_, hroot⟩ (h.allows ht hok)
  refine ⟨⟨h.wf.root_ne, hwf.forest, hwf.supply_nodup, hwf.supply_fresh⟩, h.inj, h.shared, ?_, ?_⟩
  · intro half r hr l i hlen
    refine (hmapping r ⟨half, hr⟩ l i hlen).trans ?_
    rw [Spaces.step]
    by_cases hhalf : half = Half.of n virt
    · subst hhalf
      obtain rfl := Option.some.inj (hroot.symm.trans hr)
      rw [Function.update_self]
      refine (if_pos rfl).trans ?_
      have hagrees := h.agrees _ _ hroot
      have hentry : (mapping cfg (s.walkedFrom (t.half virt)) (t.half virt)).entryAt cfg virt
          flags = (a (Half.of n virt)).entryAt cfg virt flags :=
        hagrees _ _ (length_path_lt cfg virt (getPageSize flags))
      have hreplace : ∀ w, (mapping cfg (s.walkedFrom (t.half virt)) (t.half virt)).replace cfg
          virt flags w l i = (a (Half.of n virt)).replace cfg virt flags w l i := by
        intro w
        unfold Mapping.replace Radix.replaceBranch
        rw [← hagrees l i hlen]
        rfl
      cases op with
      | internalMap phys => exact hreplace _
      | internalUnmap => exact hreplace _
      | setFlags =>
        refine (hreplace _).trans ?_
        rw [Mapping.step, ← hentry]
        rfl
    · rw [Function.update_of_ne hhalf, if_neg]
      · exact h.agrees half r hr l i hlen
      · intro heq
        exact hhalf (h.inj half _ r hr (heq ▸ hroot))
  · intro half hr
    rw [Spaces.step, Function.update_of_ne, h.unused half hr]
    rintro rfl
    rw [show s.root _ = none from hr] at hroot
    cases hroot

/-- Page maps with further halves, in which nothing is mapped. -/
theorem extend (h : Inv cfg s a) {s' : PageMaps} (hwf : Wf cfg s'.roots (s'.walkedFrom 0))
    (hroot : ∀ half r, s'.root half = some r → s.root half = some r ∨
      s.root half = none ∧ r ∉ s.roots ∧
        ∀ l i, l.length < levels cfg → mapping cfg (s'.walkedFrom 0) r l i = 0)
    (hinj : ∀ half half' r, s'.root half = some r → s'.root half' = some r →
      s.root half = none → s.root half' = none → half = half')
    (hnone : ∀ half, s'.root half = none → s.root half = none)
    (hshared : ∀ t ∈ s'.pageMaps, s'.root .kernel = some t.ttbr1)
    (hmapping : ∀ r ∈ s.roots, ∀ l i, l.length < levels cfg →
      mapping cfg (s'.walkedFrom 0) r l i = mapping cfg (s.walkedFrom 0) r l i) :
    Inv cfg s' a := by
  refine ⟨hwf, fun half half' r hr hr' => ?_, hshared, fun half r hr l i hlen => ?_,
    fun half hr => h.unused half (hnone half hr)⟩
  · rcases hroot half r hr with hold | ⟨hnew, hfresh, -⟩ <;>
      rcases hroot half' r hr' with hold' | ⟨hnew', hfresh', -⟩
    · exact h.inj half half' r hold hold'
    · exact absurd ⟨half, hold⟩ hfresh'
    · exact absurd ⟨half', hold'⟩ hfresh
    · exact hinj half half' r hr hr' hnew hnew'
  · rcases hroot half r hr with hold | ⟨hnew, -, hzero⟩
    · rw [hmapping r ⟨half, hold⟩ l i hlen]
      exact h.agrees half r hold l i hlen
    · rw [hzero l i hlen, h.unused half hnew]

/-- The kernel's page map has both its halves empty. -/
theorem newPageMap_nil (h : Inv cfg s a) (hnil : s.pageMaps = [])
    (hmemory : 2 ≤ s.supply.length) : Inv cfg s.newPageMap a := by
  obtain ⟨ttbr0, supply, hsupply⟩ := List.exists_cons_of_length_pos (Nat.zero_lt_of_lt hmemory)
  rw [hsupply, List.length_cons] at hmemory
  obtain ⟨ttbr1, rest, rfl⟩ := List.exists_cons_of_length_pos (Nat.lt_of_succ_le
    (Nat.le_of_succ_le_succ hmemory))
  obtain ⟨hwf₀, -, hzero₀, -⟩ := h.wf.planted hsupply
  obtain ⟨hwf₁, hfresh, hzero₁, hold⟩ := hwf₀.planted rfl
  have hnew : s.newPageMap = ⟨(planted (planted (s.walkedFrom 0) ttbr0 (ttbr1 :: rest)) ttbr1
      rest).tables, rest, [⟨ttbr0, ttbr1⟩]⟩ := by
    simp only [newPageMap, newTTBR, hsupply, hnil, List.head?_nil]
    rfl
  rw [hnew]
  have hnone : ∀ half, s.root half = none := by
    intro half
    cases half with
    | kernel => rw [root, hnil]; rfl
    | user n => rw [root, hnil]; rfl
  have hunused : ∀ r, r ∉ s.roots := by
    rintro r ⟨half, hr⟩
    rw [hnone] at hr
    cases hr
  have hcases : ∀ half r, root ⟨(planted (planted (s.walkedFrom 0) ttbr0 (ttbr1 :: rest)) ttbr1
      rest).tables, rest, [⟨ttbr0, ttbr1⟩]⟩ half = some r →
      half = .kernel ∧ r = ttbr1 ∨ half = .user 0 ∧ r = ttbr0 := by
    intro half r hr
    rcases half with _ | _ | n
    · exact .inl ⟨rfl, (Option.some.inj hr).symm⟩
    · exact .inr ⟨rfl, (Option.some.inj hr).symm⟩
    · cases hr
  have hne : ttbr1 ≠ ttbr0 := by
    intro heq
    apply hfresh
    rw [heq]
    exact Set.mem_insert ttbr0 _
  refine h.extend (hwf₁.mono ?_) ?_ ?_ (fun half _ => hnone half) ?_
    (fun r hr => absurd hr (hunused r))
  · rintro r ⟨half, hr⟩
    rcases hcases half r hr with ⟨-, rfl⟩ | ⟨-, rfl⟩
    · exact Set.mem_insert r _
    · exact Set.mem_insert_of_mem _ (Set.mem_insert r _)
  · intro half r hr
    refine .inr ⟨hnone half, hunused r, fun l i hlen => ?_⟩
    rcases hcases half r hr with ⟨-, rfl⟩ | ⟨-, rfl⟩
    · exact hzero₁ l i
    · exact (hold r (Set.mem_insert r _) l i hlen).trans (hzero₀ l i)
  · intro half half' r hr hr' _ _
    rcases hcases half r hr with ⟨rfl, h₁⟩ | ⟨rfl, h₁⟩ <;>
      rcases hcases half' r hr' with ⟨rfl, h₂⟩ | ⟨rfl, h₂⟩
    · rfl
    · exact absurd (h₁.symm.trans h₂) hne
    · exact absurd (h₂.symm.trans h₁) hne
    · rfl
  · intro t ht
    rw [List.mem_singleton.mp ht]
    rfl

/-- A further page map has an empty lower half, and the kernel's upper one. -/
theorem newPageMap_cons (h : Inv cfg s a) {kernel : PageTable} {pageMaps : List PageTable}
    (hcons : s.pageMaps = kernel :: pageMaps) (hmemory : 1 ≤ s.supply.length) :
    Inv cfg s.newPageMap a := by
  obtain ⟨ttbr0, rest, hsupply⟩ := List.exists_cons_of_length_pos hmemory
  obtain ⟨hwf, hfresh, hzero, hold⟩ := h.wf.planted hsupply
  have hnew : s.newPageMap = ⟨(planted (s.walkedFrom 0) ttbr0 rest).tables, rest,
      s.pageMaps ++ [⟨ttbr0, kernel.ttbr1⟩]⟩ := by
    simp only [newPageMap, newTTBR, hsupply, hcons, List.head?_cons]
    rfl
  rw [hnew]
  have hkernel : s.root .kernel = some kernel.ttbr1 := by
    rw [root, hcons]
    rfl
  have hroot : ∀ half, root ⟨(planted (s.walkedFrom 0) ttbr0 rest).tables, rest,
      s.pageMaps ++ [⟨ttbr0, kernel.ttbr1⟩]⟩ half =
        if half = .user s.pageMaps.length then some ttbr0 else s.root half := by
    intro half
    cases half with
    | kernel =>
      rw [if_neg (by simp), hkernel, root, hcons]
      rfl
    | user n =>
      simp only [root, List.getElem?_append, List.getElem?_singleton, Half.user.injEq]
      split
      · rename_i hlt
        rw [if_neg (Nat.ne_of_lt hlt)]
      · rename_i hle
        by_cases heq : n = s.pageMaps.length
        · rw [if_pos heq, heq, Nat.sub_self, if_pos rfl, Option.map_some]
        · rw [if_neg heq, if_neg (by omega), List.getElem?_eq_none (by omega)]
  have hlast : s.root (.user s.pageMaps.length) = none := by
    rw [root, List.getElem?_eq_none (Nat.le_refl _)]
    rfl
  refine h.extend (hwf.mono ?_) ?_ ?_ ?_ ?_ hold
  · rintro r ⟨half, hr⟩
    rw [hroot] at hr
    split at hr
    · exact Option.some.inj hr ▸ Set.mem_insert ttbr0 _
    · exact Set.mem_insert_of_mem _ ⟨half, hr⟩
  · intro half r hr
    rw [hroot] at hr
    split at hr
    · rename_i hhalf
      obtain rfl := Option.some.inj hr
      exact .inr ⟨hhalf ▸ hlast, hfresh, fun l i _ => hzero l i⟩
    · exact .inl hr
  · intro half half' r hr hr' hnone hnone'
    rw [hroot] at hr hr'
    split at hr
    · rename_i hhalf
      split at hr'
      · rename_i hhalf'
        exact hhalf.trans hhalf'.symm
      · rw [hnone'] at hr'
        cases hr'
    · rw [hnone] at hr
      cases hr
  · intro half hr
    rw [hroot] at hr
    split at hr
    · cases hr
    · exact hr
  · intro t ht
    rw [hroot, if_neg (by simp)]
    rcases List.mem_append.mp ht with hmem | hmem
    · exact h.shared t hmem
    · rw [List.mem_singleton.mp hmem]
      exact hkernel

theorem step (h : Inv cfg s a) {c : Call} {s' : PageMaps × Spaces}
    (hok : Disciplined cfg (s, a) c) (hstep : stepBoth cfg (s, a) c = some s') :
    Inv cfg s'.1 s'.2 := by
  cases c with
  | newPageMap =>
    obtain rfl := Option.some.inj hstep
    cases hmaps : s.pageMaps with
    | nil => exact h.newPageMap_nil hmaps hok
    | cons kernel pageMaps => exact h.newPageMap_cons hmaps (Nat.le_of_succ_le hok)
  | operation n virt flags op =>
    rw [stepBoth, PageMaps.step] at hstep
    cases ht : s.pageMaps[n]? with
    | none =>
      rw [ht] at hstep
      cases hstep
    | some t =>
      rw [ht] at hstep
      obtain rfl := Option.some.inj hstep
      exact h.operation ht hok

/-- `Virt2Phys` finds what is mapped in the half of the address. -/
theorem virt2Phys (h : Inv cfg s a) (ht : s.pageMaps[n]? = some t)
    (hclear : (a (Half.of n virt)).Clear (path cfg virt (getPageSize flags)))
    (hsize : getPageSize flags = .page ∨ (a (Half.of n virt)).entryAt cfg virt flags ≠ 0) :
    AArch64.virt2Phys cfg (s.walkedFrom (t.half virt)) virt flags =
      (a (Half.of n virt)).translate cfg virt flags := by
  have hroot := h.root_of virt ht
  have hwf := h.wf_from (t.half virt)
  have hlen := length_path_lt cfg virt (getPageSize flags)
  have hentry : (mapping cfg (s.walkedFrom (t.half virt)) (t.half virt)).entryAt cfg virt flags =
      (a (Half.of n virt)).entryAt cfg virt flags := h.agrees _ _ hroot _ _ hlen
  have hclear' : (mapping cfg (s.walkedFrom (t.half virt)) (t.half virt)).Clear
      (path cfg virt (getPageSize flags)) := by
    intro l i hpre
    have hle := hpre.length_le
    rw [List.length_append, List.length_singleton] at hle
    exact (h.agrees _ _ hroot l i (by omega)).trans (hclear l i hpre)
  unfold AArch64.virt2Phys Mapping.translate
  rw [hwf.virt2Pte_false ⟨_, hroot⟩ hclear', ← hentry]
  cases hwalk : walkTo cfg (s.walkedFrom (t.half virt)) (s.walkedFrom (t.half virt)).topLevel
      (path cfg virt (getPageSize flags)) with
  | none =>
    rw [show (mapping cfg (s.walkedFrom (t.half virt)) (t.half virt)).entryAt cfg virt flags = 0
      from mapping_eq_zero hwalk List.prefix_rfl _]
    rfl
  | some q =>
    have hfound : (s.walkedFrom (t.half virt)).entry q (leafIndex virt (getPageSize flags)) =
        (mapping cfg (s.walkedFrom (t.half virt)) (t.half virt)).entryAt cfg virt flags := by
      rcases hsize with hpage | hmapped
      · rw [← leafWord_eq hwalk, Mapping.entryAt, mapping, Radix.dataWord, if_neg]
        · rfl
        · rintro ⟨hshort, -⟩
          rw [hpage, length_path_page] at hshort
          exact Nat.lt_irrefl _ hshort
      · rw [← hentry] at hmapped
        obtain ⟨q', hwalk', hq'⟩ := entry_eq_of_mapped hmapped
        obtain rfl := Option.some.inj (hwalk.symm.trans hwalk')
        exact hq'
    rw [← hfound]
    rfl

end Inv

/-- Over every run of calls, from before the kernel's page map is made, each page map translates an
address as the half says that the address is in: the upper half is the same in all page maps, and
what is done to the lower half of one is not seen in another. A call to map a page succeeds. -/
theorem pageMaps_translate {supply : List Word} (hnodup : supply.Nodup)
    (hptr : ∀ p ∈ supply, IsTablePtr cfg p) {s : PageMaps × Spaces}
    (hrun : Reaches (stepBoth cfg) (Disciplined cfg) (boot supply, Spaces.empty) s) {n : ℕ}
    {t : PageTable} (ht : s.1.pageMaps[n]? = some t) (virt : Word) (flags : PageAttributes) :
    ((s.2 (Half.of n virt)).Clear (path cfg virt (getPageSize flags)) →
      getPageSize flags = .page ∨ (s.2 (Half.of n virt)).entryAt cfg virt flags ≠ 0 →
      s.1.virt2Phys cfg n virt flags = some ((s.2 (Half.of n virt)).translate cfg virt flags)) ∧
    ∀ phys, (s.2 (Half.of n virt)).Allows cfg s.1.supply.length virt flags (.internalMap phys) →
      (AArch64.internalMap cfg (s.1.walkedFrom (t.half virt)) virt phys flags).1 = true := by
  have h : Inv cfg s.1 s.2 := hrun.invariant (P := fun s => Inv cfg s.1 s.2)
    (inv_boot hnodup hptr) fun _ _ _ h hok hstep => h.step hok hstep
  refine ⟨fun hclear hsize => ?_, fun phys hok => ?_⟩
  · rw [PageMaps.virt2Phys, ht, Option.map_some, h.virt2Phys ht hclear hsize]
  · exact ((h.wf_from (t.half virt)).internalMap ⟨_, h.root_of virt ht⟩ (h.allows ht hok)).1

/-- Where only single pages are mapped, no block is in the way. -/
theorem Mapping.Clear.replace_page {m : Mapping} {virt : Word} {flags : PageAttributes}
    {w : PageTableEntry} {l : List TableIndex} (hm : m.Clear l) (hlen : l.length < levels cfg)
    (hpage : getPageSize flags = .page) : (m.replace cfg virt flags w).Clear l := by
  intro l' i hpre
  have hle := hpre.length_le
  have hpath := length_path_page cfg virt
  rw [List.length_append, List.length_singleton] at hle
  unfold Mapping.replace Radix.replaceBranch
  rw [hpage, if_neg, if_neg]
  · exact hm l' i hpre
  · intro hbelow
    have := hbelow.length_le
    rw [List.length_append, List.length_singleton] at this
    omega
  · intro heq
    have := congrArg List.length heq
    simp only [List.length_append, List.length_singleton] at this
    omega

/-- Four levels of 4 KiB tables. -/
def level4At : Regime := ⟨⟨.level4, 0xffff800000000000, true⟩, .kib4, .bits48⟩

/-- Page tables from physical address `0x100000` on. -/
def someTables : List Word :=
  (List.range 7).map fun k => 0xffff800000100000 + 0x1000 * BitVec.ofNat 64 k

theorem isTablePtr_someTables : ∀ p ∈ someTables, IsTablePtr level4At p := by
  unfold someTables
  simp only [List.forall_mem_map, List.mem_range]
  decide

/-- `Map` in the second page map, in the upper half. -/
def mapUpper : Call :=
  .operation 1 0xffff900000000000 PageAttributes.write (.internalMap 0x7000)

/-- A page that is mapped in the upper half of the second page map is seen in the first one. -/
theorem pageMaps_translate_upper : ∃ s : PageMaps × Spaces,
    Reaches (stepBoth level4At) (Disciplined level4At) (boot someTables, Spaces.empty) s ∧
      s.1.virt2Phys level4At 0 0xffff900000000123 0 = some 0x7123 := by
  -- two page maps, with nothing in them
  have htwo : ∃ s, Reaches (stepBoth level4At) (Disciplined level4At)
      (boot someTables, Spaces.empty) s ∧ s.2 = Spaces.empty ∧ s.1.supply.length = 4 ∧
      ∃ t t', s.1.pageMaps = [t, t'] :=
    ⟨_, .tail .newPageMap (.tail .newPageMap .refl (by decide : 2 ≤ 7) rfl)
      (by decide : 2 ≤ 5) rfl, rfl, rfl, _, _, rfl⟩
  obtain ⟨s, hs, hempty, hsupply, t, t', hmaps⟩ := htwo
  have hok : Disciplined level4At s mapUpper := by
    rw [Disciplined.eq_def, mapUpper, hempty, hsupply]
    exact ⟨fun _ _ _ => rfl, by decide, by decide⟩
  obtain ⟨s', hstep, hmaps'⟩ : ∃ s', s.1.step level4At mapUpper = some s' ∧
      s'.pageMaps = [t, t'] := by
    rw [PageMaps.step.eq_def, mapUpper, hmaps]
    exact ⟨_, rfl, hmaps⟩
  have hboth : stepBoth level4At s mapUpper = some (s', Spaces.empty.step level4At mapUpper) := by
    rw [stepBoth, hstep, hempty, Option.map_some]
  have ht : s'.pageMaps[0]? = some t := by rw [hmaps', List.getElem?_cons_zero]
  have hclear : (Spaces.empty.step level4At mapUpper (Half.of 0 0xffff900000000123)).Clear
      (path level4At 0xffff900000000123 (getPageSize 0)) :=
    Mapping.Clear.replace_page (fun _ _ _ => rfl) (by decide) rfl
  have hvalue : (Spaces.empty.step level4At mapUpper (Half.of 0 0xffff900000000123)).translate
      level4At 0xffff900000000123 0 = 0x7123 := by decide
  have hrun := hs.tail mapUpper hok hboth
  refine ⟨_, hrun, ?_⟩
  rw [(pageMaps_translate (by decide) isTablePtr_someTables hrun ht _ _).1 hclear (.inl rfl),
    hvalue]

end PageMaps

end Cryptix.Memory.AArch64
