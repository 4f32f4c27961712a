import Mathlib.Data.Finset.Card
import Mathlib.Data.Finset.Union
import Cryptix.Lib.Transition
import Cryptix.Memory.PageWalk

/-!
# Mapping and unmapping one page of any size

`InternalMap` and `InternalUnmap` on a page map with pages of all sizes. They write the entry that
`Virt2Pte` gets to. That is the entry of the page itself, unless a larger page is mapped there: then
it is the entry of the larger page, and all its other addresses are changed with it.
-/

namespace Cryptix.Memory

open Lib

namespace PTE

/-- All bits of `m` are set in `x`. -/
def Has (x m : Word) : Prop := x &&& m = m

namespace Has

variable {x y f m : Word}

theorem or (h : Has x m) (f : Word) : Has (x ||| f) m := by
  unfold Has at h ⊢
  rw [BitVec.and_or_distrib_right, h]
  ext k
  simp +contextual

theorem or_self (x m : Word) : Has (x ||| m) m := by
  unfold Has
  ext k
  simp +contextual

theorem andNot (h : Has x m) (hf : ~~~f &&& m = m) : Has (x &&& ~~~f) m := by
  unfold Has at h ⊢
  rw [BitVec.and_assoc, hf, h]

theorem ite {c : Prop} [Decidable c] (hx : Has x m) (hy : Has y m) :
    Has (if c then x else y) m := by
  split
  · exact hx
  · exact hy

end Has

end PTE

namespace PageAttributes

theorem accessFlags_present (attribs : PageAttributes) :
    PTE.Has attribs.accessFlags PTE.present :=
  (accessFlags_flagWord attribs).present

theorem accessFlags_large {attribs : PageAttributes} (h : getPageSize attribs ≠ .page) :
    PTE.Has attribs.accessFlags PTE.lpage := by
  have hl : (attribs.has lPage || attribs.has llPage) = true := by
    unfold getPageSize at h
    split at h
    · rename_i hll
      rw [hll, Bool.or_true]
    · split at h
      · rename_i hl
        rw [hl, Bool.true_or]
      · exact absurd rfl h
  unfold accessFlags
  simp only [hl, if_true]
  exact .or_self _ _

/-- The native flags keep a bit that is among the access bits and is not the PAT bit. -/
theorem toNativeFlags_has {attribs : PageAttributes} {m : Word}
    (h : PTE.Has attribs.accessFlags m) (hlg : ~~~PTE.patlg &&& m = m)
    (h4k : attribs.accessFlags &&& PTE.lpage ≠ 0 ∨ ~~~PTE.pat4k &&& m = m) :
    PTE.Has attribs.toNativeFlags m := by
  have h₁ := (h.or PTE.pcd).ite (c := attribs.has uncacheableStrong) h
  have hpat : ~~~(if attribs.accessFlags &&& PTE.lpage != 0 then PTE.patlg else PTE.pat4k) &&& m =
      m := by
    split
    · exact hlg
    · rename_i hsmall
      exact h4k.resolve_left fun hne => hsmall (by simpa using hne)
  unfold toNativeFlags
  dsimp only
  refine ((h₁.or _).andNot hpat).ite ?_
  exact (h₁.or _).ite ((h₁.or _).ite ((h₁.or _).ite ((h₁.or _).ite h₁)))

theorem toNativeFlags_present (attribs : PageAttributes) :
    PTE.Has attribs.toNativeFlags PTE.present :=
  toNativeFlags_has (accessFlags_present attribs) (by decide) (.inr (by decide))

theorem toNativeFlags_large {attribs : PageAttributes} (h : getPageSize attribs ≠ .page) :
    PTE.Has attribs.toNativeFlags PTE.lpage := by
  have haccess := accessFlags_large h
  refine toNativeFlags_has haccess (by decide) (.inl ?_)
  rw [show attribs.accessFlags &&& PTE.lpage = PTE.lpage from haccess]
  decide

end PageAttributes

namespace PageMap

open PageTableEntry

variable {cfg : Paging} {pm pm' : PageMap} {l : List TableIndex} {p q v w virt phys : Word}
  {s t size : PageSize} {e : PageTableEntry} {flags : PageAttributes}

/-! ## Canonical addresses -/

/-- The indices of a page are the bits of its number that the tables translate. -/
theorem SamePage.getLsbD_eq (h : SamePage cfg s v w) {k : ℕ} (hk : s.shift ≤ k)
    (hk' : k < addressBits cfg) : v.getLsbD k = w.getLsbD k := by
  have hindices : pmlIndex v 39 = pmlIndex w 39 ∧ pmlIndex v 30 = pmlIndex w 30 ∧
      (addressBits cfg = 48 ∨ pmlIndex v 48 = pmlIndex w 48) ∧
      (s = .llPage ∨ pmlIndex v 21 = pmlIndex w 21) ∧
      (s ≠ .page ∨ pmlIndex v 12 = pmlIndex w 12) := by
    unfold SamePage entryPath tablePath topPath entryIndex at h
    unfold addressBits
    cases hmode : cfg.mode <;> cases s <;> simp_all [belowPath, PageSize.shift]
  obtain ⟨h39, h30, h48, h21, h12⟩ := hindices
  have hbits : addressBits cfg ≤ 57 := by
    unfold addressBits
    cases cfg.mode <;> simp
  by_cases h₁ : k < 21
  · have hs : s = .page := by
      cases s with
      | page => rfl
      | lPage => exact absurd hk (by simp [PageSize.shift]; omega)
      | llPage => exact absurd hk (by simp [PageSize.shift]; omega)
    have h12' := h12.resolve_left (fun hne => hne hs)
    rw [hs] at hk
    exact getLsbD_of_pmlIndex h12' hk (by omega)
  by_cases h₂ : k < 30
  · have hs : s ≠ .llPage := by
      rintro rfl
      exact absurd hk (by simp [PageSize.shift]; omega)
    exact getLsbD_of_pmlIndex (h21.resolve_left hs) (by omega) (by omega)
  by_cases h₃ : k < 39
  · exact getLsbD_of_pmlIndex h30 (by omega) (by omega)
  by_cases h₄ : k < 48
  · exact getLsbD_of_pmlIndex h39 (by omega) (by omega)
  · exact getLsbD_of_pmlIndex (h48.resolve_left (by omega)) (by omega) (by omega)

theorem samePage_of_shift (h : v >>> s.shift = w >>> s.shift) : SamePage cfg s v w := by
  have hindex : ∀ k, s.shift ≤ k → pmlIndex v k = pmlIndex w k := by
    intro k hk
    unfold pmlIndex
    rw [show k = s.shift + (k - s.shift) by omega, BitVec.shiftRight_add, BitVec.shiftRight_add, h]
  unfold SamePage entryPath tablePath topPath entryIndex
  have h39 := hindex 39 (by cases s <;> decide)
  have h30 := hindex 30 (by cases s <;> decide)
  have h48 := hindex 48 (by cases s <;> decide)
  have hself := hindex s.shift le_rfl
  have hbelow : belowPath s v = belowPath s w := by
    cases s with
    | llPage => simp [belowPath, h39]
    | lPage => simp [belowPath, h39, h30]
    | page => simp [belowPath, h39, h30, hindex 21 (by decide)]
  rw [hbelow, hself, h48]

/-- For canonical addresses, sharing an entry is being on one page. -/
theorem samePage_iff (hv : Canonical cfg v) (hw : Canonical cfg w) :
    SamePage cfg s v w ↔ v >>> s.shift = w >>> s.shift := by
  have hpos : s.shift < addressBits cfg := by
    unfold addressBits
    cases cfg.mode <;> cases s <;> decide
  refine ⟨fun h => ?_, samePage_of_shift⟩
  apply BitVec.eq_of_getLsbD_eq
  intro k hk
  rw [BitVec.getLsbD_ushiftRight, BitVec.getLsbD_ushiftRight]
  by_cases hlow : s.shift + k < addressBits cfg
  · exact h.getLsbD_eq (by omega) hlow
  · by_cases hhigh : s.shift + k < 64
    · rw [hv.getLsbD_eq (by omega) hhigh, hw.getLsbD_eq (by omega) hhigh]
      exact h.getLsbD_eq (by omega) (by omega)
    · rw [BitVec.getLsbD_of_ge _ _ (by omega), BitVec.getLsbD_of_ge _ _ (by omega)]

/-- Canonical addresses, bit by bit. -/
theorem canonical_of_getLsbD
    (h : ∀ k, addressBits cfg ≤ k → k < 64 → v.getLsbD k = v.getLsbD (addressBits cfg - 1)) :
    Canonical cfg v := by
  have hpos : 0 < addressBits cfg := by
    unfold addressBits
    cases cfg.mode <;> decide
  unfold Canonical
  apply BitVec.eq_of_getLsbD_eq
  intro k hk
  rw [BitVec.getLsbD_signExtend]
  by_cases hlow : k < addressBits cfg
  · simp [hlow, hk]
  · rw [h k (by omega) hk, if_neg hlow, BitVec.msb_setWidth]
    simp [hk, hpos]

/-- The neighbour of an address: the lowest bit of the page number is flipped. -/
def neighbour (s : PageSize) (v : Word) : Word := v ^^^ BitVec.twoPow 64 s.shift

theorem getLsbD_neighbour (s : PageSize) (v : Word) (k : ℕ) :
    (neighbour s v).getLsbD k = (v.getLsbD k ^^ decide (s.shift = k)) := by
  have hs : s.shift < 64 := by cases s <;> decide
  unfold neighbour
  rw [BitVec.getLsbD_xor, BitVec.getLsbD_twoPow]
  simp [hs]

theorem canonical_neighbour (hv : Canonical cfg v) (hs : s ≠ .llPage) :
    Canonical cfg (neighbour s v) := by
  have hlt : s.shift + 1 < addressBits cfg := by
    unfold addressBits
    cases cfg.mode <;> cases s <;> decide
  apply canonical_of_getLsbD
  intro k hk hk'
  rw [getLsbD_neighbour, getLsbD_neighbour, decide_eq_false (by omega), decide_eq_false (by omega),
    hv.getLsbD_eq hk hk']

/-- The neighbour is on another page, and on the same larger page. -/
theorem neighbour_spec (hlt : t.depth < s.depth) (v : Word) :
    neighbour s v >>> s.shift ≠ v >>> s.shift ∧ neighbour s v >>> t.shift = v >>> t.shift := by
  have hshift : s.shift < t.shift := by
    cases s <;> cases t <;> first | decide | exact absurd hlt (by decide)
  constructor
  · intro heq
    have hbit := congrArg (fun x => x.getLsbD 0) heq
    simp only [BitVec.getLsbD_ushiftRight, Nat.add_zero, getLsbD_neighbour] at hbit
    simp at hbit
  · apply BitVec.eq_of_getLsbD_eq
    intro k hk
    rw [BitVec.getLsbD_ushiftRight, BitVec.getLsbD_ushiftRight, getLsbD_neighbour,
      decide_eq_false (by omega), Bool.xor_false]

/-! ## The entry of a mapping -/

theorem getFlag_make {m : Word} (h : PTE.Has flags m) (hm : m ≠ 0) :
    (make phys flags).getFlag m = true := by
  have hhas : PTE.Has (make phys flags) m := by
    rw [make_eq, BitVec.or_comm]
    exact h.or phys
  rw [getFlag, show make phys flags &&& m = m from hhas]
  simpa using hm

/-- The entry that `InternalMap` makes maps a page of the size of the flags. -/
theorem isLeaf_make (phys : Word) (flags : PageAttributes) :
    isLeaf (getPageSize flags) (make phys flags.toNativeFlags) = true := by
  have hvalid : (make phys flags.toNativeFlags).isValid = true :=
    getFlag_make (PageAttributes.toNativeFlags_present flags) (by decide)
  by_cases hs : getPageSize flags = .page
  · rw [isLeaf, hvalid, hs]
    rfl
  · exact isLeaf_of_isLarge hvalid
      (getFlag_make (PageAttributes.toNativeFlags_large hs) (by decide))

theorem entryFor_make (hs : getPageSize flags = s) (hll : s = .llPage → cfg.has1GibPages = true) :
    EntryFor cfg s (make phys flags.toNativeFlags) :=
  .inr ⟨hs ▸ isLeaf_make phys flags, hll⟩

/-! ## The entry that is written -/

/-- The size of the page whose entry `Virt2Pte` gets to: the one asked for, or a larger one that is
mapped there. -/
def reachedSize (cfg : Paging) (pm : PageMap) (s : PageSize) (v : Word) : PageSize :=
  match leafOf cfg pm v with
  | some (t, _) => if t.depth < s.depth then t else s
  | none => s

theorem reachedSize_eq_iff : reachedSize cfg pm s v = s ↔ NotInLarger cfg pm s v := by
  unfold reachedSize NotInLarger
  cases hleaf : leafOf cfg pm v with
  | none => simp
  | some leaf =>
    obtain ⟨t, e⟩ := leaf
    by_cases hlt : t.depth < s.depth
    · simp only [if_pos hlt]
      refine ⟨fun heq => ?_, fun hnot => ?_⟩
      · rw [heq] at hlt
        omega
      · have hle := hnot t e rfl
        omega
    · simp only [if_neg hlt, true_iff]
      rintro t' e' heq
      obtain ⟨rfl, -⟩ := Prod.mk.inj (Option.some.inj heq)
      omega

/-- The page at the end of the walk is inside no larger one. -/
theorem notInLarger_reachedSize : NotInLarger cfg pm (reachedSize cfg pm s v) v := by
  intro t e hleaf
  unfold reachedSize
  rw [hleaf]
  dsimp only
  split
  · exact le_rfl
  · omega

theorem reachedSize_of_not (h : ¬NotInLarger cfg pm s v) :
    ∃ t e, leafOf cfg pm v = some (t, e) ∧ t.depth < s.depth ∧ reachedSize cfg pm s v = t := by
  unfold NotInLarger at h
  push Not at h
  obtain ⟨t, e, hleaf, hlt⟩ := h
  refine ⟨t, e, hleaf, hlt, ?_⟩
  unfold reachedSize
  rw [hleaf]
  exact if_pos hlt

/-- A walk for a page ends at the entry of the page of the reached size. -/
theorem Mixed.virt2Pte_reachedSize (h : Mixed cfg pm) (allocate : Bool) :
    virt2Pte cfg pm v allocate s = virt2Pte cfg pm v allocate (reachedSize cfg pm s v) := by
  by_cases hnot : NotInLarger cfg pm s v
  · rw [reachedSize_eq_iff.mpr hnot]
  · obtain ⟨t, e, hleaf, hlt, heq⟩ := reachedSize_of_not hnot
    obtain ⟨p, hp, -⟩ := exists_table_of_leafOf hleaf
    rw [heq, h.virt2Pte_of_leaf hleaf hlt.le hp, h.virt2Pte_of_leaf hleaf le_rfl hp]

/-- Where there is no table for a page that is inside no larger one, nothing is mapped. -/
theorem leafOf_of_tableAt_none (hnot : NotInLarger cfg pm s v)
    (hnone : tableAt cfg pm (tablePath cfg s v) = none) : leafOf cfg pm v = none := by
  cases hleaf : leafOf cfg pm v with
  | none => rfl
  | some leaf =>
    obtain ⟨t, e⟩ := leaf
    have hle := hnot t e hleaf
    obtain ⟨p, hp, -⟩ := exists_table_of_leafOf hleaf
    have hpre : tablePath cfg s v <+: tablePath cfg t v := by
      rcases Nat.eq_or_lt_of_le hle with heq | hlt
      · rw [PageSize.depth_injective heq]
      · exact (List.prefix_append _ _).trans (entryPath_le_tablePath hlt v)
    obtain ⟨q, hq⟩ := exists_tableAt_of_le hpre hp
    rw [hnone] at hq
    cases hq

theorem SamePage.leafOf_eq_none (hsame : SamePage cfg s w v) (hnot : NotInLarger cfg pm s v)
    (hnone : tableAt cfg pm (tablePath cfg s v) = none) (h : Mixed cfg pm) :
    leafOf cfg pm w = none := by
  obtain ⟨hpath, -⟩ := List.append_inj' hsame rfl
  apply leafOf_of_tableAt_none (s := s)
  · rw [h.notInLarger_iff] at hnot ⊢
    intro t hlt
    rw [hsame.word_eq hlt.le]
    exact hnot t hlt
  · rwa [hpath]

/-- `unmapOne` clears the addresses of its page and changes no others, if the page is inside no
larger one. -/
theorem Mixed.unmapOne (h : Mixed cfg pm) (hnot : NotInLarger cfg pm s v) :
    Mixed cfg (unmapOne cfg pm v s).2 ∧ (PageMap.unmapOne cfg pm v s).2.supply = pm.supply ∧
      ∀ w, leafOf cfg (PageMap.unmapOne cfg pm v s).2 w =
        if SamePage cfg s w v then none else leafOf cfg pm w := by
  unfold PageMap.unmapOne
  rw [h.virt2Pte_false hnot]
  cases hp : tableAt cfg pm (tablePath cfg s v) with
  | none =>
    refine ⟨h, rfl, fun w => ?_⟩
    show leafOf cfg pm w = _
    split
    · rename_i hsame
      exact hsame.leafOf_eq_none hnot hp h
    · rfl
  | some p =>
    refine ⟨h.setEntry hp entryFor_zero, rfl, fun w => ?_⟩
    show leafOf cfg (pm.setEntry p (entryIndex s v) 0) w = _
    rw [h.leafOf_setEntry hp entryFor_zero.inert, leafIn_zero]

theorem Mixed.unmapOne_reachedSize (h : Mixed cfg pm) :
    PageMap.unmapOne cfg pm v s = PageMap.unmapOne cfg pm v (reachedSize cfg pm s v) := by
  unfold PageMap.unmapOne
  rw [h.virt2Pte_reachedSize]

/-! ## Mapping with enough tables -/

/-- The tables that the walks for some pages need and that are not there. -/
def absent (cfg : Paging) (pm : PageMap) (s : PageSize) (pages : List Word) :
    Finset (List TableIndex) :=
  (pages.toFinset.biUnion fun v => (tablePath cfg s v).inits.toFinset).filter fun k =>
    tableAt cfg pm k = none

/-- The supply has the tables that the walks for some pages need. -/
def Enough (cfg : Paging) (pm : PageMap) (s : PageSize) (pages : List Word) : Prop :=
  (absent cfg pm s pages).card ≤ pm.supply.length

theorem mem_absent {k : List TableIndex} {pages : List Word} :
    k ∈ absent cfg pm s pages ↔
      (∃ v ∈ pages, k <+: tablePath cfg s v) ∧ tableAt cfg pm k = none := by
  simp [absent, List.mem_inits]

theorem missing_add (l path : List TableIndex) :
    missing cfg pm l path + (if tableAt cfg pm l = none then 1 else 0) =
      ((path.inits.map fun k => l ++ k).toFinset.filter fun k => tableAt cfg pm k = none).card := by
  induction path generalizing l with
  | nil =>
    rw [missing, List.inits, List.map_singleton, List.append_nil, List.toFinset_cons,
      List.toFinset_nil, insert_empty_eq, Finset.filter_singleton, Nat.zero_add]
    split <;> rfl
  | cons i path ih =>
    have hmap : ((path.inits.map fun t => i :: t).map fun k => l ++ k) =
        path.inits.map fun k => l ++ [i] ++ k := by
      simp
    have hnot : l ∉ (path.inits.map fun k => l ++ [i] ++ k).toFinset := by
      rw [List.mem_toFinset, List.mem_map]
      rintro ⟨k, -, heq⟩
      have hlen := congrArg List.length heq
      simp only [List.length_append, List.length_singleton] at hlen
      omega
    have hih := ih (l ++ [i])
    rw [missing, List.inits_cons, List.map_cons, hmap, List.append_nil, List.toFinset_cons,
      Finset.filter_insert]
    by_cases hl : tableAt cfg pm l = none
    · rw [if_pos hl, if_pos hl,
        Finset.card_insert_of_notMem fun hmem => hnot (Finset.mem_filter.mp hmem).1]
      omega
    · rw [if_neg hl, if_neg hl]
      omega

theorem card_absent_singleton (v : Word) :
    (absent cfg pm s [v]).card = missingTables cfg pm s v := by
  have hroot : tableAt cfg pm [] ≠ none := Option.some_ne_none _
  have hmissing : missing cfg pm [] (tablePath cfg s v) + _ = _ := missing_add [] _
  rw [if_neg hroot, Nat.add_zero] at hmissing
  rw [missingTables, hmissing]
  simp [absent]

/-- The tables that a walk has linked are no longer missing. -/
theorem card_absent_of_extended {pages : List Word} (hmem : v ∈ pages)
    (hsub : ∀ k, (∃ u ∈ pages, k <+: tablePath cfg s u) →
      (tableAt cfg pm' k = none ↔ tableAt cfg pm k = none ∧ ¬k <+: tablePath cfg s v)) :
    (absent cfg pm' s pages).card + missingTables cfg pm s v = (absent cfg pm s pages).card := by
  have hdisjoint : Disjoint (absent cfg pm' s pages) (absent cfg pm s [v]) := by
    rw [Finset.disjoint_left]
    intro k hk hk'
    obtain ⟨hpages, hnone⟩ := mem_absent.mp hk
    obtain ⟨⟨u, hu, hpre⟩, -⟩ := mem_absent.mp hk'
    rw [List.mem_singleton.mp hu] at hpre
    exact ((hsub k hpages).mp hnone).2 hpre
  have hunion : absent cfg pm' s pages ∪ absent cfg pm s [v] = absent cfg pm s pages := by
    ext k
    rw [Finset.mem_union, mem_absent, mem_absent, mem_absent]
    constructor
    · rintro (⟨hpages, hnone⟩ | ⟨⟨u, hu, hpre⟩, hnone⟩)
      · exact ⟨hpages, ((hsub k hpages).mp hnone).1⟩
      · rw [List.mem_singleton.mp hu] at hpre
        exact ⟨⟨v, hmem, hpre⟩, hnone⟩
    · rintro ⟨hpages, hnone⟩
      by_cases hpre : k <+: tablePath cfg s v
      · exact .inr ⟨⟨v, List.mem_singleton_self v, hpre⟩, hnone⟩
      · exact .inl ⟨hpages, (hsub k hpages).mpr ⟨hnone, hpre⟩⟩
  rw [← card_absent_singleton, ← Finset.card_union_of_disjoint hdisjoint, hunion]

/-- `pm'` is `pm` with the entry of a page written and the tables above it linked. -/
structure Wrote (cfg : Paging) (pm pm' : PageMap) (s : PageSize) (v : Word) (e : PageTableEntry) :
    Prop where
  mixed : Mixed cfg pm'
  leafOf_eq : ∀ w, leafOf cfg pm' w = if SamePage cfg s w v then some (s, e) else leafOf cfg pm w
  word_eq : ∀ w, ¬SamePage cfg s w v → word cfg pm' s w = word cfg pm s w
  tableAt_none : ∀ k, k.length ≤ (tablePath cfg s v).length →
    (tableAt cfg pm' k = none ↔ tableAt cfg pm k = none ∧ ¬k <+: tablePath cfg s v)
  enough : missingTables cfg pm s v ≤ pm.supply.length
  supply_eq : pm'.supply = pm.supply.drop (missingTables cfg pm s v)
  nullEmpty : NullEmpty cfg pm → NullEmpty cfg pm'

/-- Writing an entry links nothing. -/
theorem NullEmpty.setEntry (h : NullEmpty cfg pm) (hmixed : Mixed cfg pm)
    (hp : tableAt cfg pm (tablePath cfg s v) = some p) (he : EntryFor cfg s e) :
    NullEmpty cfg (pm.setEntry p (entryIndex s v) e) := by
  have hlen := length_tablePath_lt cfg s v
  refine ⟨?_, fun l hl hlinked => ?_, h.not_supplied⟩
  · have hne : cfg.toHigherHalf 0 ≠ p := by
      rintro rfl
      exact h.unlinked _ hlen hp
    rw [tables_setEntry_of_ne hne]
    exact h.empty
  · have hwalk : tableAt cfg (pm.setEntry p (entryIndex s v) e) l = _ :=
      hmixed.tree.walk_cut hlen hp (he.cuts v) hl
    rw [hlinked] at hwalk
    split at hwalk
    · cases hwalk
    · exact h.unlinked l hl hwalk.symm

/-- Writing an entry changes no table above the one it is in. -/
theorem Mixed.tableAt_setEntry (h : Mixed cfg pm)
    (hp : tableAt cfg pm (tablePath cfg s v) = some p) (he : EntryFor cfg s e)
    {k : List TableIndex} (hk : k.length ≤ (tablePath cfg s v).length) :
    tableAt cfg (pm.setEntry p (entryIndex s v) e) k = tableAt cfg pm k := by
  induction k using List.reverseRecOn with
  | nil => rfl
  | append_singleton k i _ =>
    rw [List.length_append, List.length_singleton] at hk
    have hlt := length_tablePath_lt cfg s v
    rw [tableAt_concat, tableAt_concat, h.wordAt_setEntry hp he.inert (by omega), if_neg,
      if_neg]
    · intro hpre
      have hlen := hpre.length_le
      rw [entryPath, List.length_append] at hlen
      omega
    · intro heq
      have hlen := congrArg List.length heq
      rw [entryPath, List.length_append, List.length_append] at hlen
      simp only [List.length_singleton] at hlen
      omega

/-- `InternalMap` of one page that is inside no larger one: the page is mapped, or the tables on the
way to its entry were not enough. -/
theorem Mixed.mapOne_cases (h : Mixed cfg pm) (hs : getPageSize flags = s)
    (hll : s = .llPage → cfg.has1GibPages = true) (hnot : NotInLarger cfg pm s v) (phys : Word) :
    (∃ pm', mapOne cfg pm v phys flags = (true, pm') ∧
      Wrote cfg pm pm' s v (make phys flags.toNativeFlags)) ∨
    ∃ k rest i p pm', mapOne cfg pm v phys flags =
        (false, pm'.setEntry p i PTE.defaultFlags) ∧
      Exhausted cfg pm [] (tablePath cfg s v) k rest i p pm' := by
  unfold PageMap.mapOne
  rw [hs]
  rcases h.virt2Pte_allocate hnot with
    ⟨p, pm₁, heq, hext, hp, henough, hsupply⟩ | ⟨k, rest, i, p, pm₁, heq, hexhausted⟩
  · have he : EntryFor cfg s (make phys flags.toNativeFlags) := entryFor_make hs hll
    refine .inl ⟨pm₁.setEntry p (entryIndex s v) (make phys flags.toNativeFlags), ?_,
      hext.mixed.setEntry hp he, fun w => ?_, fun w hother => ?_, fun k hk => ?_, henough, hsupply,
      fun hnull => (hext.nullEmpty hnull).setEntry hext.mixed hp he⟩
    · rw [heq]
      rfl
    · have hleaf : leafIn s (make phys flags.toNativeFlags) = some (s, _) :=
        if_pos (hs ▸ isLeaf_make phys flags)
      rw [hext.mixed.leafOf_setEntry hp he.inert, hext.leafOf_eq, hleaf]
    · have hpath : entryPath cfg s w ≠ entryPath cfg s v := hother
      rw [hext.mixed.word_setEntry hp he.inert, if_neg hpath, if_neg, hext.word_eq]
      exact fun hpre => Nat.lt_irrefl _ (samePage_of_le hpre).1
    · have hlt := length_tablePath_lt cfg s v
      rw [hext.mixed.tableAt_setEntry hp he hk, hext.tableAt_none k (by omega)]
  · refine .inr ⟨k, rest, i, p, pm₁, ?_, hexhausted⟩
    rw [heq]

/-- With tables enough, mapping one page is writing its entry. -/
theorem Mixed.mapOne (h : Mixed cfg pm) (hs : getPageSize flags = s)
    (hll : s = .llPage → cfg.has1GibPages = true) (hnot : NotInLarger cfg pm s v)
    (henough : missingTables cfg pm s v ≤ pm.supply.length) (phys : Word) :
    ∃ pm', PageMap.mapOne cfg pm v phys flags = (true, pm') ∧
      Wrote cfg pm pm' s v (make phys flags.toNativeFlags) := by
  rcases h.mapOne_cases hs hll hnot phys with hmapped | ⟨_, _, _, _, _, -, hexhausted⟩
  · exact hmapped
  · have hcount : missingTables cfg pm s v = _ := hexhausted.count
    omega

/-- Tables enough for some pages are still enough after one of them is mapped. -/
theorem Wrote.enough_iff {pages : List Word} (h : Wrote cfg pm pm' s v e) (hmem : v ∈ pages) :
    Enough cfg pm' s pages ↔ Enough cfg pm s pages := by
  have hcard := card_absent_of_extended hmem fun k hk => by
    obtain ⟨u, -, hpre⟩ := hk
    have hlen := hpre.length_le
    have hu := length_tablePath cfg s u
    have hv := length_tablePath cfg s v
    exact h.tableAt_none k (by omega)
  have henough := h.enough
  unfold Enough
  rw [h.supply_eq, List.length_drop]
  omega

theorem Enough.missingTables_le {pages : List Word} (h : Enough cfg pm s pages) (hmem : v ∈ pages) :
    missingTables cfg pm s v ≤ pm.supply.length := by
  rw [← card_absent_singleton]
  refine (Finset.card_le_card fun k hk => ?_).trans h
  obtain ⟨⟨u, hu, hpre⟩, hnone⟩ := mem_absent.mp hk
  rw [List.mem_singleton.mp hu] at hpre
  exact mem_absent.mpr ⟨⟨v, hmem, hpre⟩, hnone⟩

/-- A page that could not be mapped leaves the null pointer linked on the way to its entry. -/
theorem Mixed.mapOne_false (h : Mixed cfg pm) (hs : getPageSize flags = s)
    (hll : s = .llPage → cfg.has1GibPages = true) (hnot : NotInLarger cfg pm s v)
    (hnull : NullEmpty cfg pm) (hfalse : PageMap.mapOne cfg pm v phys flags = (false, pm')) :
    ∃ ghost k i, NullLinked cfg ghost k i pm' ∧ k ++ [i] <+: tablePath cfg s v ∧
      ∀ w, leafOf cfg ghost w = leafOf cfg pm w := by
  rcases h.mapOne_cases hs hll hnot phys with
    ⟨_, heq, -⟩ | ⟨k, rest, i, p, pm₁, heq, hexhausted⟩
  · rw [heq] at hfalse
    cases hfalse
  · rw [heq] at hfalse
    obtain rfl := (Prod.mk.inj hfalse).2
    refine ⟨pm₁, k, i, hexhausted.nullLinked hnull, ⟨rest, ?_⟩, hexhausted.ext.leafOf_eq⟩
    rw [hexhausted.path_eq, List.append_assoc]
    rfl

/-! ## Calls for one page -/

/-- Whether the call is for a 1 GiB page that 2 MiB pages stand in for. -/
def Split (cfg : Paging) (flags : PageAttributes) : Prop :=
  getPageSize flags = .llPage ∧ !cfg.has1GibPages

instance : Decidable (Split cfg flags) := inferInstanceAs (Decidable (_ ∧ _))

/-- The size of the pages that `InternalMap` and `InternalUnmap` write. -/
def callSize (cfg : Paging) (flags : PageAttributes) : PageSize :=
  if Split cfg flags then .lPage else getPageSize flags

/-- The addresses that `InternalMap` and `InternalUnmap` write entries for. -/
def callPages (cfg : Paging) (flags : PageAttributes) (virt : Word) : List Word :=
  if Split cfg flags then
    (List.range 512).map fun n => virt + PageSize.lPage.bytes * BitVec.ofNat 64 n
  else [virt]

/-- The entries that `InternalMap` writes. -/
def callEntries (cfg : Paging) (flags : PageAttributes) (phys : Word) : List PageTableEntry :=
  if Split cfg flags then
    (List.range 512).map fun n =>
      make (phys + PageSize.lPage.bytes * BitVec.ofNat 64 n) (splitFlags flags).toNativeFlags
  else [make phys flags.toNativeFlags]

theorem forEachLPage_eq (body : PageMap → Word → Bool × PageMap) (pm : PageMap) (l : List ℕ) :
    forEachLPage body pm l =
      untilFailure (fun pm n => body pm (PageSize.lPage.bytes * BitVec.ofNat 64 n)) pm l := by
  induction l generalizing pm with
  | nil => rfl
  | cons n rest ih =>
    rw [forEachLPage, untilFailure]
    rcases body pm (PageSize.lPage.bytes * BitVec.ofNat 64 n) with ⟨_ | _, pm₁⟩
    · rfl
    · exact ih pm₁

theorem getPageSize_splitFlags (flags : PageAttributes) :
    getPageSize (splitFlags flags) = .lPage := by
  have hll : (splitFlags flags).has PageAttributes.llPage = false := by
    unfold splitFlags PageAttributes.has PageAttributes.without
    rw [BitVec.and_or_distrib_right, BitVec.and_assoc]
    simp [PageAttributes.lPage, PageAttributes.llPage]
  have hl : (splitFlags flags).has PageAttributes.lPage = true := by
    have hhas : PTE.Has (splitFlags flags) PageAttributes.lPage := .or_self _ _
    rw [PageAttributes.has, show _ &&& _ = _ from hhas]
    decide
  unfold getPageSize
  rw [hll, hl]
  rfl

/-- Without 1 GiB pages no page is inside one. -/
theorem Mixed.notInLarger_lPage (h : Mixed cfg pm) (hno : cfg.has1GibPages = false) :
    NotInLarger cfg pm .lPage v := by
  rw [h.notInLarger_iff]
  intro t hlt
  cases t with
  | llPage => exact h.noLLPage hno v
  | lPage => exact absurd hlt (by decide)
  | page => exact absurd hlt (by decide)

theorem Mixed.notInLarger_of_split (h : Mixed cfg pm) (hsplit : Split cfg flags) :
    NotInLarger cfg pm .lPage v :=
  h.notInLarger_lPage (by simpa using hsplit.2)

/-- `pm'` sees the addresses outside some pages as `pm` does. -/
def SameOutside (cfg : Paging) (pm pm' : PageMap) (s : PageSize) (pages : List Word) : Prop :=
  ∀ w, (∀ v ∈ pages, ¬SamePage cfg s w v) → leafOf cfg pm' w = leafOf cfg pm w

theorem SameOutside.trans {pm'' : PageMap} {pages : List Word}
    (h : SameOutside cfg pm pm' s pages) (h' : SameOutside cfg pm' pm'' s pages) :
    SameOutside cfg pm pm'' s pages :=
  fun w hw => (h' w hw).trans (h w hw)

/-- The loop of a call for a 1 GiB page that is split. -/
theorem internalUnmap_of_split (hsplit : Split cfg flags) (pm : PageMap) (virt : Word) :
    internalUnmap cfg pm virt flags =
      untilFailure (fun pm n => unmapOne cfg pm (virt + PageSize.lPage.bytes * BitVec.ofNat 64 n)
        .lPage) pm (List.range 512) := by
  have hcond : getPageSize flags = .llPage ∧ !cfg.has1GibPages := hsplit
  unfold internalUnmap
  rw [if_pos hcond, forEachLPage_eq]

theorem internalUnmap_of_not_split (hsplit : ¬Split cfg flags) (pm : PageMap) (virt : Word) :
    internalUnmap cfg pm virt flags = unmapOne cfg pm virt (getPageSize flags) := by
  have hcond : ¬(getPageSize flags = .llPage ∧ !cfg.has1GibPages) := hsplit
  unfold internalUnmap
  rw [if_neg hcond]

theorem internalMap_of_split (hsplit : Split cfg flags) (pm : PageMap) (virt phys : Word) :
    internalMap cfg pm virt phys flags =
      untilFailure (fun pm n => mapOne cfg pm (virt + PageSize.lPage.bytes * BitVec.ofNat 64 n)
        (phys + PageSize.lPage.bytes * BitVec.ofNat 64 n) (splitFlags flags)) pm
        (List.range 512) := by
  have hcond : getPageSize flags = .llPage ∧ !cfg.has1GibPages := hsplit
  unfold internalMap
  rw [if_pos hcond, forEachLPage_eq]

theorem internalMap_of_not_split (hsplit : ¬Split cfg flags) (pm : PageMap) (virt phys : Word) :
    internalMap cfg pm virt phys flags = mapOne cfg pm virt phys flags := by
  have hcond : ¬(getPageSize flags = .llPage ∧ !cfg.has1GibPages) := hsplit
  unfold internalMap
  rw [if_neg hcond]

theorem callSize_of_split (hsplit : Split cfg flags) : callSize cfg flags = .lPage := if_pos hsplit

theorem callSize_of_not_split (hsplit : ¬Split cfg flags) :
    callSize cfg flags = getPageSize flags := if_neg hsplit

theorem callPages_of_not_split (hsplit : ¬Split cfg flags) : callPages cfg flags virt = [virt] :=
  if_neg hsplit

theorem mem_callPages_of_split (hsplit : Split cfg flags) :
    v ∈ callPages cfg flags virt ↔
      ∃ n ∈ List.range 512, virt + PageSize.lPage.bytes * BitVec.ofNat 64 n = v := by
  unfold callPages
  rw [if_pos hsplit, List.mem_map]

/-- 1 GiB pages are only written where the machine has them. -/
theorem has1GibPages_of_not_split (hsplit : ¬Split cfg flags) (hs : getPageSize flags = .llPage) :
    cfg.has1GibPages = true := by
  rw [Split, not_and] at hsplit
  simpa using hsplit hs

/-- `InternalUnmap` of a page inside no larger one touches no other page. -/
theorem Mixed.internalUnmap (h : Mixed cfg pm)
    (hnot : NotInLarger cfg pm (callSize cfg flags) virt) :
    Mixed cfg (internalUnmap cfg pm virt flags).2 ∧
      (PageMap.internalUnmap cfg pm virt flags).2.supply = pm.supply ∧
      SameOutside cfg pm (PageMap.internalUnmap cfg pm virt flags).2 (callSize cfg flags)
        (callPages cfg flags virt) := by
  by_cases hsplit : Split cfg flags
  · rw [internalUnmap_of_split hsplit, callSize_of_split hsplit]
    refine untilFailure_invariant (P := fun pm' => Mixed cfg pm' ∧ pm'.supply = pm.supply ∧
      SameOutside cfg pm pm' .lPage (callPages cfg flags virt)) _ ⟨h, rfl, fun _ _ => rfl⟩ ?_
    rintro n hn pm₁ ⟨hmixed, hsupply, hsame⟩
    obtain ⟨hmixed', hsupply', hview⟩ := hmixed.unmapOne
      (hmixed.notInLarger_of_split (v := virt + PageSize.lPage.bytes * BitVec.ofNat 64 n) hsplit)
    refine ⟨hmixed', hsupply'.trans hsupply, hsame.trans fun w hw => ?_⟩
    rw [hview, if_neg (hw _ ((mem_callPages_of_split hsplit).mpr ⟨n, hn, rfl⟩))]
  · rw [callSize_of_not_split hsplit] at hnot ⊢
    rw [internalUnmap_of_not_split hsplit, callPages_of_not_split hsplit]
    obtain ⟨hmixed, hsupply, hview⟩ := h.unmapOne hnot
    refine ⟨hmixed, hsupply, fun w hw => ?_⟩
    rw [hview, if_neg (hw virt (List.mem_singleton_self virt))]

theorem mem_callEntries_of_split (hsplit : Split cfg flags) {n : ℕ} (hn : n ∈ List.range 512) :
    make (phys + PageSize.lPage.bytes * BitVec.ofNat 64 n) (splitFlags flags).toNativeFlags ∈
      callEntries cfg flags phys := by
  unfold callEntries
  rw [if_pos hsplit]
  exact List.mem_map_of_mem hn

theorem callEntries_of_not_split (hsplit : ¬Split cfg flags) :
    callEntries cfg flags phys = [make phys flags.toNativeFlags] :=
  if_neg hsplit

/-- `pm'` is `pm` with the pages of a call mapped. -/
structure Mapped (cfg : Paging) (flags : PageAttributes) (virt phys : Word) (pm pm' : PageMap) :
    Prop where
  mixed : Mixed cfg pm'
  nullEmpty : NullEmpty cfg pm → NullEmpty cfg pm'
  sameOutside : SameOutside cfg pm pm' (callSize cfg flags) (callPages cfg flags virt)
  leafOf_pages : ∀ v ∈ callPages cfg flags virt, ∃ e ∈ callEntries cfg flags phys,
    leafOf cfg pm' v = some (callSize cfg flags, e)

/-- `pm'` is `pm` with some of the 2 MiB pages mapped that stand in for a 1 GiB page. -/
structure PartMapped (cfg : Paging) (flags : PageAttributes) (virt phys : Word) (pm : PageMap)
    (done : List ℕ) (pm' : PageMap) : Prop where
  mixed : Mixed cfg pm'
  nullEmpty : NullEmpty cfg pm → NullEmpty cfg pm'
  sameOutside : SameOutside cfg pm pm' .lPage (callPages cfg flags virt)
  enough_iff : Enough cfg pm' .lPage (callPages cfg flags virt) ↔
    Enough cfg pm .lPage (callPages cfg flags virt)
  leafOf_done : ∀ n ∈ done, ∃ e ∈ callEntries cfg flags phys,
    leafOf cfg pm' (virt + PageSize.lPage.bytes * BitVec.ofNat 64 n) = some (.lPage, e)

/-- One turn of the loop maps one more page. -/
theorem PartMapped.wrote {pm₁ pm₂ : PageMap} {done : List ℕ} {n : ℕ}
    (h : PartMapped cfg flags virt phys pm done pm₁)
    (hmem : virt + PageSize.lPage.bytes * BitVec.ofNat 64 n ∈ callPages cfg flags virt)
    (he : e ∈ callEntries cfg flags phys)
    (hwrote : Wrote cfg pm₁ pm₂ .lPage (virt + PageSize.lPage.bytes * BitVec.ofNat 64 n) e) :
    PartMapped cfg flags virt phys pm (done ++ [n]) pm₂ := by
  refine ⟨hwrote.mixed, fun hempty => hwrote.nullEmpty (h.nullEmpty hempty),
    h.sameOutside.trans fun w hw => ?_, (hwrote.enough_iff hmem).trans h.enough_iff,
    fun k hk => ?_⟩
  · rw [hwrote.leafOf_eq, if_neg (hw _ hmem)]
  · rw [hwrote.leafOf_eq]
    split
    · exact ⟨e, he, rfl⟩
    · rename_i hother
      rcases List.mem_append.mp hk with hk | hk
      · exact h.leafOf_done k hk
      · rw [List.mem_singleton.mp hk] at hother
        exact absurd rfl hother

/-- What is left of a call that ran out of tables: the null pointer is linked on the way to one of
its pages, and no other page is touched. -/
def GaveUp (cfg : Paging) (flags : PageAttributes) (virt : Word) (pm pm' : PageMap) : Prop :=
  ∃ ghost k i, NullLinked cfg ghost k i pm' ∧
    (∃ v ∈ callPages cfg flags virt, k ++ [i] <+: tablePath cfg (callSize cfg flags) v) ∧
    SameOutside cfg pm ghost (callSize cfg flags) (callPages cfg flags virt)

theorem GaveUp.sameOutside (h : GaveUp cfg flags virt pm pm') :
    SameOutside cfg pm pm' (callSize cfg flags) (callPages cfg flags virt) := by
  obtain ⟨ghost, k, i, hlinked, -, hsame⟩ := h
  exact fun w hw => (hlinked.leafOf_eq w).trans (hsame w hw)

/-- `InternalMap` of a page inside no larger one: the page is mapped, or the tables on the way were
not enough. In both cases no other page is touched. -/
theorem Mixed.internalMap_cases (h : Mixed cfg pm)
    (hnot : NotInLarger cfg pm (callSize cfg flags) virt) (phys : Word) :
    (∃ pm', internalMap cfg pm virt phys flags = (true, pm') ∧
      Mapped cfg flags virt phys pm pm') ∨
    ∃ pm', internalMap cfg pm virt phys flags = (false, pm') ∧
      ¬Enough cfg pm (callSize cfg flags) (callPages cfg flags virt) ∧
      (NullEmpty cfg pm → GaveUp cfg flags virt pm pm') := by
  by_cases hsplit : Split cfg flags
  · have hsize := callSize_of_split hsplit
    rw [internalMap_of_split hsplit]
    have hflags := getPageSize_splitFlags flags
    have hrange : ∀ {done rest : List ℕ} {n : ℕ}, List.range 512 = done ++ n :: rest →
        n ∈ List.range 512 := by
      intro done rest n hl
      rw [hl]
      simp
    have hmem : ∀ {done rest : List ℕ} {n : ℕ}, List.range 512 = done ++ n :: rest →
        virt + PageSize.lPage.bytes * BitVec.ofNat 64 n ∈ callPages cfg flags virt :=
      fun hl => (mem_callPages_of_split hsplit).mpr ⟨_, hrange hl, rfl⟩
    have hturn : ∀ done n rest pm₁ pm₂, List.range 512 = done ++ n :: rest →
        PartMapped cfg flags virt phys pm done pm₁ →
        PageMap.mapOne cfg pm₁ (virt + PageSize.lPage.bytes * BitVec.ofNat 64 n)
          (phys + PageSize.lPage.bytes * BitVec.ofNat 64 n) (splitFlags flags) = (true, pm₂) →
        PartMapped cfg flags virt phys pm (done ++ [n]) pm₂ := by
      intro done n rest pm₁ pm₂ hl hpart hbody
      rcases hpart.mixed.mapOne_cases hflags (by simp)
        (hpart.mixed.notInLarger_of_split hsplit) _ with
        ⟨pm₃, heq, hwrote⟩ | ⟨_, _, _, _, _, heq, -⟩
      · rw [hbody] at heq
        rw [(Prod.mk.inj heq).2]
        exact hpart.wrote (hmem hl) (mem_callEntries_of_split hsplit (hrange hl)) hwrote
      · rw [hbody] at heq
        cases heq
    rcases untilFailure_cases _ ⟨h, id, fun _ _ => rfl, Iff.rfl, by simp⟩ hturn with
      ⟨pm', heq, hpart⟩ | ⟨done, n, rest, pm₁, pm', hl, hpart, hbody, heq⟩
    · refine .inl ⟨pm', heq, hpart.mixed, hpart.nullEmpty, ?_, fun v hv => ?_⟩
      · rw [hsize]
        exact hpart.sameOutside
      · obtain ⟨n, hn, rfl⟩ := (mem_callPages_of_split hsplit).mp hv
        rw [hsize]
        exact hpart.leafOf_done n hn
    · have hnot₁ := hpart.mixed.notInLarger_of_split
        (v := virt + PageSize.lPage.bytes * BitVec.ofNat 64 n) hsplit
      refine .inr ⟨pm', heq, fun hall => ?_, fun hempty => ?_⟩
      · rw [hsize] at hall
        obtain ⟨_, htrue, -⟩ := hpart.mixed.mapOne hflags (by simp) hnot₁
          ((hpart.enough_iff.mpr hall).missingTables_le (hmem hl))
          (phys + PageSize.lPage.bytes * BitVec.ofNat 64 n)
        rw [hbody] at htrue
        cases htrue
      · obtain ⟨ghost, k, i, hlinked, hpre, hview⟩ :=
          hpart.mixed.mapOne_false hflags (by simp) hnot₁ (hpart.nullEmpty hempty) hbody
        refine ⟨ghost, k, i, hlinked, ⟨_, hmem hl, hsize ▸ hpre⟩, ?_⟩
        rw [hsize]
        exact hpart.sameOutside.trans fun w _ => hview w
  · have hsize := callSize_of_not_split hsplit
    have hpages : callPages cfg flags virt = [virt] := callPages_of_not_split hsplit
    rw [hsize] at hnot
    rw [internalMap_of_not_split hsplit]
    rcases h.mapOne_cases rfl (has1GibPages_of_not_split hsplit) hnot phys with
      ⟨pm', heq, hwrote⟩ | ⟨k, rest, i, p, pm₁, heq, hexhausted⟩
    · refine .inl ⟨pm', heq, hwrote.mixed, hwrote.nullEmpty, fun w hw => ?_, fun v hv => ?_⟩
      · rw [hpages, hsize, List.forall_mem_singleton] at hw
        rw [hwrote.leafOf_eq, if_neg hw]
      · rw [hpages] at hv
        rw [hsize, callEntries_of_not_split hsplit, hwrote.leafOf_eq, List.mem_singleton.mp hv,
          if_pos (show SamePage _ _ _ _ from rfl)]
        exact ⟨_, List.mem_singleton_self _, rfl⟩
    refine .inr ⟨_, heq, fun henough => ?_, fun hempty => ?_⟩
    · rw [hsize, hpages] at henough
      have hle := henough.missingTables_le (List.mem_singleton_self virt)
      have hcount : missingTables cfg pm _ virt = _ := hexhausted.count
      omega
    · obtain ⟨ghost, k, i, hlinked, hpre, hview⟩ :=
        h.mapOne_false rfl (has1GibPages_of_not_split hsplit) hnot hempty heq
      refine ⟨ghost, k, i, hlinked, ⟨virt, ?_, hsize ▸ hpre⟩, fun w _ => hview w⟩
      rw [hpages]
      exact List.mem_singleton_self virt

/-! ## The other addresses -/

/-- No address outside the pages of a call is translated differently after it. -/
def FrameKept (cfg : Paging) (pm pm' : PageMap) (flags : PageAttributes) (virt : Word) : Prop :=
  ∀ w, Canonical cfg w →
    (∀ v ∈ callPages cfg flags virt,
      w >>> (callSize cfg flags).shift ≠ v >>> (callSize cfg flags).shift) →
    translate cfg pm' w = translate cfg pm w

/-- A call inside a larger page writes an entry that maps the larger page where it was mapped. -/
def KeepsLarger (cfg : Paging) (pm : PageMap) (virt phys : Word) (flags : PageAttributes) : Prop :=
  ∀ t e, leafOf cfg pm virt = some (t, e) → t.depth < (callSize cfg flags).depth →
    (make phys flags.toNativeFlags).isLarge = true ∧
      frameOf t (make phys flags.toNativeFlags) = frameOf t e

theorem SameOutside.frameKept
    (h : SameOutside cfg pm pm' (callSize cfg flags) (callPages cfg flags virt))
    (hpages : ∀ v ∈ callPages cfg flags virt, Canonical cfg v) :
    FrameKept cfg pm pm' flags virt := by
  intro w hw houtside
  unfold translate
  rw [h w fun v hv hsame => houtside v hv ((samePage_iff hw (hpages v hv)).mp hsame)]

theorem SamePage.leafOf_eq (hsame : SamePage cfg t w v) (hleaf : leafOf cfg pm v = some (t, e)) :
    leafOf cfg pm w = some (t, e) := by
  rw [leafOf_eq_some_iff] at hleaf ⊢
  rwa [hsame.word_eq le_rfl]

/-- A page inside a larger one has a neighbour there. -/
theorem exists_outside (hv : Canonical cfg v) (hleaf : leafOf cfg pm v = some (t, e))
    (hlt : t.depth < s.depth) :
    ∃ w, Canonical cfg w ∧ w >>> s.shift ≠ v >>> s.shift ∧ SamePage cfg t w v ∧
      leafOf cfg pm w = some (t, e) := by
  obtain ⟨hother, hshared⟩ := neighbour_spec hlt v
  have hs : s ≠ .llPage := by
    rintro rfl
    exact Nat.not_lt_zero _ hlt
  have hsame : SamePage cfg t (neighbour s v) v := samePage_of_shift hshared
  exact ⟨neighbour s v, canonical_neighbour hv hs, hother, hsame, hsame.leafOf_eq hleaf⟩

/-- A call inside a larger page is for that page alone. -/
theorem Mixed.not_split_of_larger (h : Mixed cfg pm)
    (hnot : ¬NotInLarger cfg pm (callSize cfg flags) virt) : ¬Split cfg flags := by
  intro hsplit
  rw [callSize_of_split hsplit] at hnot
  exact hnot (h.notInLarger_of_split hsplit)

theorem Mixed.frameKept_internalUnmap_iff (h : Mixed cfg pm)
    (hpages : ∀ v ∈ callPages cfg flags virt, Canonical cfg v) :
    FrameKept cfg pm (PageMap.internalUnmap cfg pm virt flags).2 flags virt ↔
      NotInLarger cfg pm (callSize cfg flags) virt := by
  refine ⟨fun hframe => ?_, fun hnot => (h.internalUnmap hnot).2.2.frameKept hpages⟩
  by_contra hnot
  have hsplit := h.not_split_of_larger hnot
  rw [callPages_of_not_split hsplit] at hpages
  obtain ⟨t, e, hleaf, hlt, hreached⟩ := reachedSize_of_not hnot
  obtain ⟨w, hw, hother, hsame, hleaf'⟩ :=
    exists_outside (hpages virt (List.mem_singleton_self virt)) hleaf hlt
  -- the entry of the larger page is cleared
  have hnotin : NotInLarger cfg pm t virt := hreached ▸ notInLarger_reachedSize
  have hcleared : leafOf cfg (PageMap.internalUnmap cfg pm virt flags).2 w = none := by
    rw [callSize_of_not_split hsplit] at hreached
    rw [internalUnmap_of_not_split hsplit, h.unmapOne_reachedSize, hreached,
      (h.unmapOne hnotin).2.2, if_pos hsame]
  have hkept := hframe w hw (by
    rw [callPages_of_not_split hsplit]
    intro v hv
    rwa [List.mem_singleton.mp hv])
  unfold translate at hkept
  rw [hcleared, hleaf'] at hkept
  cases hkept

/-- What the addresses see after a page is mapped inside a larger one. -/
theorem Mixed.leafOf_internalMap_of_larger (h : Mixed cfg pm)
    (hleaf : leafOf cfg pm virt = some (t, e)) (hlt : t.depth < (callSize cfg flags).depth)
    (hphys : Radix.LeadsNowhere (tablePtr cfg) pm.tables (make phys flags.toNativeFlags))
    (w : Word) :
    leafOf cfg (internalMap cfg pm virt phys flags).2 w =
      if SamePage cfg t w virt then leafIn t (make phys flags.toNativeFlags)
      else leafOf cfg pm w := by
  have hsplit : ¬Split cfg flags := by
    have hinside : ¬NotInLarger cfg pm (callSize cfg flags) virt := by
      intro hnot
      have hle := hnot t e hleaf
      omega
    exact h.not_split_of_larger hinside
  obtain ⟨p, hp, -⟩ := exists_table_of_leafOf hleaf
  rw [callSize_of_not_split hsplit] at hlt
  rw [internalMap_of_not_split hsplit]
  unfold PageMap.mapOne
  rw [h.virt2Pte_of_leaf hleaf hlt.le hp]
  exact h.leafOf_setEntry hp (fun _ => hphys) w

theorem Mixed.frameKept_internalMap_of_larger (h : Mixed cfg pm)
    (hpages : ∀ v ∈ callPages cfg flags virt, Canonical cfg v)
    (hnot : ¬NotInLarger cfg pm (callSize cfg flags) virt)
    (hphys : Radix.LeadsNowhere (tablePtr cfg) pm.tables (make phys flags.toNativeFlags)) :
    FrameKept cfg pm (internalMap cfg pm virt phys flags).2 flags virt ↔
      KeepsLarger cfg pm virt phys flags := by
  have hsplit := h.not_split_of_larger hnot
  obtain ⟨t, e, hleaf, hlt, -⟩ := reachedSize_of_not hnot
  have hview := h.leafOf_internalMap_of_larger hleaf hlt hphys
  have ht : t ≠ .page := by
    rintro rfl
    cases hs : callSize cfg flags <;> exact absurd (hs ▸ hlt) (by decide)
  have hleafIn : leafIn t (make phys flags.toNativeFlags) =
      if (make phys flags.toNativeFlags).isLarge then some (t, make phys flags.toNativeFlags)
      else none := by
    have hvalid : (make phys flags.toNativeFlags).isValid = true :=
      getFlag_make (PageAttributes.toNativeFlags_present flags) (by decide)
    unfold leafIn isLeaf
    rw [hvalid]
    simp [ht]
  constructor
  · intro hframe t' e' hleaf₁ _
    rw [hleaf] at hleaf₁
    obtain ⟨rfl, rfl⟩ := Prod.mk.inj (Option.some.inj hleaf₁)
    rw [callPages_of_not_split hsplit] at hpages
    obtain ⟨w, hw, hother, hsame, hleaf'⟩ :=
      exists_outside (hpages virt (List.mem_singleton_self virt)) hleaf hlt
    have hkept := hframe w hw (by
      rw [callPages_of_not_split hsplit]
      intro v hv
      rwa [List.mem_singleton.mp hv])
    unfold translate at hkept
    rw [hview, if_pos hsame, hleaf', hleafIn] at hkept
    by_cases hlarge : (make phys flags.toNativeFlags).isLarge = true
    · rw [if_pos hlarge, Option.map_some, Option.map_some] at hkept
      exact ⟨hlarge, (BitVec.add_left_inj _).mp (Option.some.inj hkept)⟩
    · rw [if_neg hlarge] at hkept
      cases hkept
  · intro hkeeps w _ _
    obtain ⟨hlarge, hframe⟩ := hkeeps t e hleaf hlt
    unfold translate
    rw [hview]
    split
    · rename_i hsame
      rw [hleafIn, if_pos hlarge, hsame.leafOf_eq hleaf, Option.map_some, Option.map_some, hframe]
    · rfl

/-- When `InternalMap` and `InternalUnmap` of one page change the translation of no address outside
the page. `InternalUnmap` does so exactly when the page is inside no larger one. `InternalMap` does
so when the page is inside no larger one, and the tables it links are there, or the page at physical
address 0, which is linked instead, is empty. Inside a larger page, and with a physical page that is
no page table itself, it does so only if the entry it writes maps the larger page to the same
frame. -/
theorem Mixed.frameKept_iff (h : Mixed cfg pm)
    (hpages : ∀ v ∈ callPages cfg flags virt, Canonical cfg v) :
    (FrameKept cfg pm (PageMap.internalUnmap cfg pm virt flags).2 flags virt ↔
      NotInLarger cfg pm (callSize cfg flags) virt) ∧
    ∀ phys,
      (NotInLarger cfg pm (callSize cfg flags) virt →
        Enough cfg pm (callSize cfg flags) (callPages cfg flags virt) ∨ NullEmpty cfg pm →
        FrameKept cfg pm (internalMap cfg pm virt phys flags).2 flags virt) ∧
      (¬NotInLarger cfg pm (callSize cfg flags) virt →
        Radix.LeadsNowhere (tablePtr cfg) pm.tables (make phys flags.toNativeFlags) →
        (FrameKept cfg pm (internalMap cfg pm virt phys flags).2 flags virt ↔
          KeepsLarger cfg pm virt phys flags)) := by
  refine ⟨h.frameKept_internalUnmap_iff hpages, fun phys => ⟨fun hnot hsupply => ?_,
    h.frameKept_internalMap_of_larger hpages⟩⟩
  rcases h.internalMap_cases hnot phys with
    ⟨pm', heq, hmapped⟩ | ⟨pm', heq, hshort, hsame⟩
  · rw [heq]
    exact hmapped.sameOutside.frameKept hpages
  · rw [heq]
    exact (hsame (hsupply.resolve_left hshort)).sameOutside.frameKept hpages

/-- Mapping an address that was not mapped keeps the invariant. -/
theorem Mixed.internalMap_of_true (h : Mixed cfg pm) (hnone : leafOf cfg pm virt = none)
    (htrue : (internalMap cfg pm virt phys flags).1 = true) :
    Mixed cfg (internalMap cfg pm virt phys flags).2 := by
  have hnot : NotInLarger cfg pm (callSize cfg flags) virt := notInLarger_of_none hnone
  rcases h.internalMap_cases hnot phys with ⟨pm', heq, hmapped⟩ | ⟨pm', heq, -⟩
  · rw [heq]
    exact hmapped.mixed
  · rw [heq] at htrue
    cases htrue

/-- A page map with one 2 MiB page, at address `0x40000000`. -/
def oneLargePage : PageMap :=
  (internalMap level4At (withRoot 0xffff800000200000 someTables) 0x40000000 0x800000
    (PageAttributes.write ||| PageAttributes.lPage)).2

theorem mixed_oneLargePage : Mixed level4At oneLargePage :=
  (mixed_withRoot freshTables_someTables).internalMap_of_true (leafOf_withRoot _ _ _) (by decide)

/-- Unmapping the 2 MiB page itself keeps all other addresses. -/
theorem frameKept_unmap_large :
    FrameKept level4At oneLargePage
      (PageMap.internalUnmap level4At oneLargePage 0x40000000 PageAttributes.lPage).2
      PageAttributes.lPage 0x40000000 := by
  have hpages : ∀ v ∈ callPages level4At PageAttributes.lPage 0x40000000, Canonical level4At v := by
    rw [callPages_of_not_split (by decide), List.forall_mem_singleton]
    decide
  refine (mixed_oneLargePage.frameKept_iff hpages).1.mpr ?_
  intro t e hleaf
  have hsize : (leafOf level4At oneLargePage 0x40000000).map Prod.fst = some .lPage := by decide
  rw [hleaf, Option.map_some] at hsize
  obtain rfl : t = .lPage := Option.some.inj hsize
  decide

/-- Unmapping, or mapping, the 4 KiB page at `0x40001000` inside the 2 MiB page takes the
translation of `0x40000000` away. -/
theorem not_frameKept_small_in_large :
    Mixed level4At oneLargePage ∧ Canonical level4At 0x40001000 ∧
    ¬FrameKept level4At oneLargePage
      (PageMap.internalUnmap level4At oneLargePage 0x40001000 0).2 0 0x40001000 ∧
    ¬FrameKept level4At oneLargePage
      (internalMap level4At oneLargePage 0x40001000 0x7000 PageAttributes.write).2
      PageAttributes.write 0x40001000 := by
  refine ⟨mixed_oneLargePage, by decide, fun hframe => ?_, fun hframe => ?_⟩
  · have hkept := hframe 0x40000000 (by decide) (by
      rw [callPages_of_not_split (by decide), List.forall_mem_singleton]
      decide)
    exact absurd hkept (by decide)
  · have hkept := hframe 0x40000000 (by decide) (by
      rw [callPages_of_not_split (by decide), List.forall_mem_singleton]
      decide)
    exact absurd hkept (by decide)

end PageMap

end Cryptix.Memory
