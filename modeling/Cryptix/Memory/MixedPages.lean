import Cryptix.Memory.PageMapRefinement

/-!
# Page maps with pages of all sizes

An entry of `pml3` or `pml2` with the large-page bit maps a page of 1 GiB or 2 MiB, any other valid
entry there points to the next table. `Mixed` is what such a page map keeps: its tables are a radix
tree over `tablePtr`, which takes a large page for the end of a path, every word is 0 or valid, and
the supply is fresh.

The view that the hardware has of it is `leafOf`: the entry that maps an address, with its size. The
kernel's operations are described by their effect on that view. Writing an entry replaces the view
of the addresses below it and of no others (`leafOf_setEntry`).
-/

namespace Cryptix.Memory

open Lib

namespace PageSize

/-- The number of tables between `pml3` and the table that holds the entry of a page. -/
def depth : PageSize → ℕ
  | .llPage => 0
  | .lPage => 1
  | .page => 2

/-- The position of the lowest index bit of a page number. -/
def shift : PageSize → ℕ
  | .llPage => 30
  | .lPage => 21
  | .page => 12

theorem depth_injective {s t : PageSize} (h : s.depth = t.depth) : s = t := by
  cases s <;> cases t <;> first | rfl | exact absurd h (by decide)

theorem depth_lt_page {s : PageSize} (h : s ≠ .page) : s.depth < PageSize.page.depth := by
  cases s with
  | page => exact absurd rfl h
  | lPage => decide
  | llPage => decide

end PageSize

namespace PageMap

open PageTableEntry

variable {cfg : Paging} {pm pm' : PageMap} {l : List TableIndex} {p q v w : Word} {i : TableIndex}
  {s t size : PageSize} {e : PageTableEntry}

/-! ## Paths and words -/

/-- The table that an entry above the last level points to; a large page points to none. -/
def tablePtr (cfg : Paging) (e : PageTableEntry) : Option Word :=
  if e.isValid ∧ ¬e.isLarge then some (cfg.toHigherHalf e.address) else none

/-- The table at the end of a path. -/
abbrev tableAt (cfg : Paging) (pm : PageMap) (l : List TableIndex) : Option Word :=
  Radix.walk (tablePtr cfg) pm.tables pm.topLevel l

/-- The word at the end of a path, 0 where there is no table. -/
def wordAt (cfg : Paging) (pm : PageMap) (l : List TableIndex) (i : TableIndex) : PageTableEntry :=
  Radix.leafWord (tablePtr cfg) 0 pm.tables pm.topLevel l i

/-- The indices below `pml4` of the table that holds the entry of a page. -/
def belowPath : PageSize → Word → List TableIndex
  | .llPage, v => [pmlIndex v 39]
  | .lPage, v => [pmlIndex v 39, pmlIndex v 30]
  | .page, v => [pmlIndex v 39, pmlIndex v 30, pmlIndex v 21]

/-- The indices of the table that holds the entry of a page. -/
def tablePath (cfg : Paging) (s : PageSize) (v : Word) : List TableIndex :=
  topPath cfg v ++ belowPath s v

/-- The index of a page in its table. -/
def entryIndex (s : PageSize) (v : Word) : TableIndex := pmlIndex v s.shift

/-- The indices of the entry of a page. -/
def entryPath (cfg : Paging) (s : PageSize) (v : Word) : List TableIndex :=
  tablePath cfg s v ++ [entryIndex s v]

/-- The word in the place of the entry of a page. -/
def word (cfg : Paging) (pm : PageMap) (s : PageSize) (v : Word) : PageTableEntry :=
  wordAt cfg pm (tablePath cfg s v) (entryIndex s v)

/-- Two addresses have the same entry for pages of a size. -/
def SamePage (cfg : Paging) (s : PageSize) (v w : Word) : Prop :=
  entryPath cfg s v = entryPath cfg s w

instance (v w : Word) : Decidable (SamePage cfg s v w) := inferInstanceAs (Decidable (_ = _))

theorem tablePtr_zero : tablePtr cfg 0 = none := if_neg (by decide)

theorem tablePtr_of_isLarge (h : e.isLarge = true) : tablePtr cfg e = none :=
  if_neg fun hand => hand.2 h

theorem wordAt_of_tableAt (h : tableAt cfg pm l = some p) : wordAt cfg pm l i = pm.entry p i := by
  unfold tableAt at h
  unfold wordAt Radix.leafWord entry
  rw [h, Option.bind_some]

theorem wordAt_of_none (h : tableAt cfg pm l = none) : wordAt cfg pm l i = 0 := by
  unfold tableAt at h
  unfold wordAt Radix.leafWord
  rw [h]
  rfl

/-- One more step of a path decodes the word at its end. -/
theorem tableAt_concat (l : List TableIndex) (i : TableIndex) :
    tableAt cfg pm (l ++ [i]) = tablePtr cfg (wordAt cfg pm l i) := by
  cases h : tableAt cfg pm l with
  | none =>
    rw [wordAt_of_none h, tablePtr_zero]
    unfold tableAt at h ⊢
    rw [Radix.walk_append, h]
    rfl
  | some p =>
    rw [wordAt_of_tableAt h]
    unfold tableAt at h ⊢
    rw [Radix.walk_append, h, Option.bind_some, Radix.walk]
    unfold entry
    cases pm.tables p with
    | none => exact tablePtr_zero.symm
    | some node =>
      rw [Option.bind_some, Option.map_some, Option.getD_some]
      exact Option.bind_fun_some (tablePtr cfg (node i))

theorem tablePath_lPage (v : Word) : tablePath cfg .lPage v = entryPath cfg .llPage v := by
  unfold entryPath tablePath
  rw [List.append_assoc]
  rfl

theorem tablePath_page (v : Word) : tablePath cfg .page v = entryPath cfg .lPage v := by
  unfold entryPath tablePath
  rw [List.append_assoc]
  rfl

theorem tableAt_lPage (v : Word) :
    tableAt cfg pm (tablePath cfg .lPage v) = tablePtr cfg (word cfg pm .llPage v) := by
  rw [tablePath_lPage]
  exact tableAt_concat _ _

theorem tableAt_page (v : Word) :
    tableAt cfg pm (tablePath cfg .page v) = tablePtr cfg (word cfg pm .lPage v) := by
  rw [tablePath_page]
  exact tableAt_concat _ _

theorem length_tablePath (cfg : Paging) (s : PageSize) (v : Word) :
    (tablePath cfg s v).length + 3 = levels cfg + s.depth := by
  rw [levels_eq cfg v, tablePath, List.length_append]
  cases s <;> rfl

theorem length_entryPath (cfg : Paging) (s : PageSize) (v : Word) :
    (entryPath cfg s v).length + 2 = levels cfg + s.depth := by
  have h := length_tablePath cfg s v
  rw [entryPath, List.length_append, List.length_singleton]
  omega

theorem length_tablePath_lt (cfg : Paging) (s : PageSize) (v : Word) :
    (tablePath cfg s v).length < levels cfg := by
  have h := length_tablePath cfg s v
  have hs : s.depth ≤ 2 := by cases s <;> decide
  omega

/-- The entry of a larger page is on the way to the table of a smaller one. -/
theorem entryPath_le_tablePath (h : s.depth < t.depth) (v : Word) :
    entryPath cfg s v <+: tablePath cfg t v := by
  have hstep : entryPath cfg .llPage v <+: entryPath cfg .lPage v := by
    rw [← tablePath_lPage]
    exact List.prefix_append _ _
  cases s <;> cases t <;> first
    | exact absurd h (by decide)
    | exact (tablePath_lPage v).symm ▸ List.prefix_rfl
    | exact (tablePath_page v).symm ▸ List.prefix_rfl
    | exact (tablePath_page v).symm ▸ hstep

/-- What is below the entry of a page is a smaller page of the same addresses. -/
theorem samePage_of_le (h : entryPath cfg s v <+: tablePath cfg t w) :
    s.depth < t.depth ∧ SamePage cfg s w v := by
  have hlen := h.length_le
  have hs := length_entryPath cfg s v
  have hs' := length_entryPath cfg s w
  have ht := length_tablePath cfg t w
  have hlt : s.depth < t.depth := by omega
  refine ⟨hlt, ?_⟩
  have hself : entryPath cfg s w <+: tablePath cfg t w := entryPath_le_tablePath hlt w
  exact (List.prefix_of_prefix_length_le hself h (by omega)).eq_of_length (by omega)

theorem samePage_of_eq (h : entryPath cfg s v = entryPath cfg t w) : s = t := by
  have hs := length_entryPath cfg s v
  have ht := length_entryPath cfg t w
  rw [h] at hs
  exact PageSize.depth_injective (by omega)

/-- Addresses on one page are on one larger page. -/
theorem SamePage.mono (h : SamePage cfg t v w) (hle : s.depth ≤ t.depth) :
    SamePage cfg s v w := by
  rcases Nat.lt_or_eq_of_le hle with hlt | heq
  · have hle (u : Word) : entryPath cfg s u <+: entryPath cfg t u :=
      (entryPath_le_tablePath hlt u).trans (List.prefix_append _ _)
    have hs := length_entryPath cfg s v
    have hs' := length_entryPath cfg s w
    have hv := hle v
    have hw := hle w
    rw [show entryPath cfg t v = entryPath cfg t w from h] at hv
    exact (List.prefix_of_prefix_length_le hv hw (by omega)).eq_of_length (by omega)
  · rwa [PageSize.depth_injective heq]

theorem SamePage.word_eq (h : SamePage cfg t v w) (hle : s.depth ≤ t.depth) :
    word cfg pm s v = word cfg pm s w := by
  obtain ⟨hpath, hindex⟩ := List.append_inj' (h.mono hle) rfl
  unfold word
  rw [hpath, List.singleton_injective hindex]

/-! ## The view of the hardware -/

/-- A word that maps a page of the size: valid, and large where it could be a table. -/
def isLeaf (s : PageSize) (e : PageTableEntry) : Bool := e.isValid && (s == .page || e.isLarge)

/-- A word as an entry that maps a page, if it does. -/
def leafIn (s : PageSize) (e : PageTableEntry) : Option (PageSize × PageTableEntry) :=
  if isLeaf s e then some (s, e) else none

/-- The entry that maps an address, with the size of its page. -/
def leafOf (cfg : Paging) (pm : PageMap) (v : Word) : Option (PageSize × PageTableEntry) :=
  (leafIn .llPage (word cfg pm .llPage v)).or
    ((leafIn .lPage (word cfg pm .lPage v)).or (leafIn .page (word cfg pm .page v)))

/-- The frame of an entry: the address bits of a page of that size. The PAT bit of a large page is
bit 12, inside the address mask but below the frame. -/
def frameOf (s : PageSize) (e : PageTableEntry) : Word := e.address - e.address % s.bytes

/-- The physical address of an address, as the hardware computes it. -/
def translate (cfg : Paging) (pm : PageMap) (v : Word) : Option Word :=
  (leafOf cfg pm v).map fun leaf => frameOf leaf.1 leaf.2 + v % leaf.1.bytes

/-- What is mapped is where it was, what is not mapped was not. Rights may be different. -/
def SameTranslations (cfg : Paging) (pm pm' : PageMap) : Prop :=
  ∀ w, translate cfg pm' w = translate cfg pm w

@[simp] theorem leafIn_zero (s : PageSize) : leafIn s 0 = none := by
  cases s <;> rfl

theorem isLeaf_of_isLarge (hvalid : e.isValid = true) (hlarge : e.isLarge = true) :
    isLeaf s e = true := by
  rw [isLeaf, hvalid, hlarge, Bool.or_true]
  rfl

theorem isValid_of_isLeaf (h : isLeaf s e = true) : e.isValid = true := by
  rw [isLeaf, Bool.and_eq_true] at h
  exact h.1

/-- An entry that maps a page points to no table, unless it is in a last table. -/
theorem tablePtr_of_isLeaf (h : isLeaf s e = true) (hs : s ≠ .page) : tablePtr cfg e = none := by
  apply tablePtr_of_isLarge
  rw [isLeaf, Bool.and_eq_true, Bool.or_eq_true] at h
  exact h.2.resolve_left (by simpa using hs)

theorem leafIn_of_tablePtr (h : tablePtr cfg e = some p) (hs : s ≠ .page) : leafIn s e = none := by
  apply if_neg
  intro hleaf
  rw [tablePtr_of_isLeaf hleaf hs] at h
  cases h

theorem leafIn_eq_some_iff : leafIn s e = some (t, q) ↔ isLeaf s e = true ∧ s = t ∧ e = q := by
  unfold leafIn
  split <;> rename_i h
  · simp [h]
  · simp [h]

/-- Two page maps with the same entries above an address have the same view of it. -/
theorem leafOf_congr (h : ∀ s, leafIn s (word cfg pm' s v) = leafIn s (word cfg pm s w)) :
    leafOf cfg pm' v = leafOf cfg pm w := by
  unfold leafOf
  rw [h, h, h]

theorem word_lPage_eq_zero (h : tablePtr cfg (word cfg pm .llPage v) = none) :
    word cfg pm .lPage v = 0 :=
  wordAt_of_none ((tableAt_lPage v).trans h)

theorem word_page_eq_zero (h : tablePtr cfg (word cfg pm .lPage v) = none) :
    word cfg pm .page v = 0 :=
  wordAt_of_none ((tableAt_page v).trans h)

/-- Below a word that points to no table there is nothing. -/
theorem word_eq_zero_of_tablePtr (h : tablePtr cfg (word cfg pm s v) = none)
    (hlt : s.depth < t.depth) : word cfg pm t v = 0 := by
  cases t with
  | llPage => exact absurd hlt (Nat.not_lt_zero _)
  | lPage =>
    cases s with
    | llPage => exact word_lPage_eq_zero h
    | lPage => exact absurd hlt (by decide)
    | page => exact absurd hlt (by decide)
  | page =>
    cases s with
    | llPage =>
      apply word_page_eq_zero
      rw [word_lPage_eq_zero h, tablePtr_zero]
    | lPage => exact word_page_eq_zero h
    | page => exact absurd hlt (by decide)

/-- At most one entry maps an address. -/
theorem leafOf_eq_some_iff :
    leafOf cfg pm v = some (s, e) ↔ isLeaf s (word cfg pm s v) = true ∧ word cfg pm s v = e := by
  have hbelow : ∀ s t : PageSize, isLeaf s (word cfg pm s v) = true → s.depth < t.depth →
      leafIn t (word cfg pm t v) = none := by
    intro s t hleaf hlt
    have hs : s ≠ .page := by
      rintro rfl
      cases t <;> exact absurd hlt (by decide)
    rw [word_eq_zero_of_tablePtr (tablePtr_of_isLeaf hleaf hs) hlt, leafIn_zero]
  unfold leafOf
  constructor
  · intro h
    rcases Option.or_eq_some_iff.mp h with h | ⟨-, h⟩
    · obtain ⟨hleaf, rfl, he⟩ := leafIn_eq_some_iff.mp h
      exact ⟨hleaf, he⟩
    rcases Option.or_eq_some_iff.mp h with h | ⟨-, h⟩
    · obtain ⟨hleaf, rfl, he⟩ := leafIn_eq_some_iff.mp h
      exact ⟨hleaf, he⟩
    · obtain ⟨hleaf, rfl, he⟩ := leafIn_eq_some_iff.mp h
      exact ⟨hleaf, he⟩
  · rintro ⟨hleaf, rfl⟩
    have hself : leafIn s (word cfg pm s v) = some (s, word cfg pm s v) := if_pos hleaf
    have habove : ∀ t : PageSize, t.depth < s.depth → leafIn t (word cfg pm t v) = none := by
      intro t hlt
      apply if_neg
      intro hleaf'
      have hnone := hbelow t s hleaf' hlt
      rw [hself] at hnone
      cases hnone
    cases s with
    | llPage => rw [hself]; rfl
    | lPage => rw [habove .llPage (by decide), hself]; rfl
    | page => rw [habove .llPage (by decide), habove .lPage (by decide), hself]; rfl

theorem leafOf_eq_none_iff :
    leafOf cfg pm v = none ↔ ∀ s, leafIn s (word cfg pm s v) = none := by
  unfold leafOf
  rw [Option.or_eq_none_iff, Option.or_eq_none_iff]
  constructor
  · rintro ⟨hll, hl, hp⟩ s
    cases s <;> assumption
  · intro h
    exact ⟨h _, h _, h _⟩

/-- The table of the entry that maps an address. -/
theorem exists_table_of_leafOf (h : leafOf cfg pm v = some (s, e)) :
    ∃ p, tableAt cfg pm (tablePath cfg s v) = some p ∧ pm.entry p (entryIndex s v) = e := by
  obtain ⟨hleaf, he⟩ := leafOf_eq_some_iff.mp h
  cases htable : tableAt cfg pm (tablePath cfg s v) with
  | none =>
    rw [word, wordAt_of_none htable] at hleaf
    cases s <;> exact absurd hleaf (by decide)
  | some p => exact ⟨p, rfl, by rw [← wordAt_of_tableAt htable]; exact he⟩

/-! ## The invariant -/

/-- The tables form a tree whose words are 0 or valid, large pages are where the hardware has them,
and the supply holds fresh table pointers. -/
structure Mixed (cfg : Paging) (pm : PageMap) : Prop where
  root_ne : pm.topLevel ≠ 0
  tree : Radix.IsTree (tablePtr cfg) pm.tables pm.topLevel (levels cfg)
  valid : ∀ l i, l.length < levels cfg →
    wordAt cfg pm l i = 0 ∨ (wordAt cfg pm l i).isValid = true
  small : ∀ l i, l.length + 3 < levels cfg → (wordAt cfg pm l i).isLarge = false
  noLLPage : cfg.has1GibPages = false → ∀ v, (word cfg pm .llPage v).isLarge = false
  supply_nodup : pm.supply.Nodup
  supply_fresh : ∀ p ∈ pm.supply, pm.tables p = none ∧ IsTablePtr cfg p

/-- A page is inside no larger page. -/
def NotInLarger (cfg : Paging) (pm : PageMap) (s : PageSize) (v : Word) : Prop :=
  ∀ t e, leafOf cfg pm v = some (t, e) → s.depth ≤ t.depth

theorem notInLarger_of_none (h : leafOf cfg pm v = none) : NotInLarger cfg pm s v := by
  intro t e hleaf
  rw [h] at hleaf
  cases hleaf

theorem Mixed.isLeaf_of_isLarge (h : Mixed cfg pm) (hlarge : (word cfg pm s v).isLarge = true) :
    isLeaf s (word cfg pm s v) = true := by
  rcases h.valid _ (entryIndex s v) (length_tablePath_lt cfg s v) with hzero | hvalid
  · rw [word, hzero] at hlarge
    exact absurd hlarge (by decide)
  · exact PageMap.isLeaf_of_isLarge hvalid hlarge

theorem Mixed.notInLarger_iff (h : Mixed cfg pm) :
    NotInLarger cfg pm s v ↔ ∀ t : PageSize, t.depth < s.depth →
      (word cfg pm t v).isLarge = false := by
  constructor
  · intro hnot t hlt
    rw [← Bool.not_eq_true]
    intro hlarge
    have hle := hnot t _ (leafOf_eq_some_iff.mpr ⟨h.isLeaf_of_isLarge hlarge, rfl⟩)
    omega
  · intro hnot t e hleaf
    by_contra hlt
    obtain ⟨hisleaf, -⟩ := leafOf_eq_some_iff.mp hleaf
    have hlarge := hnot t (by omega)
    have ht : t ≠ .page := by
      rintro rfl
      cases s <;> exact hlt (by decide)
    rw [isLeaf, hlarge, Bool.or_false, Bool.and_eq_true] at hisleaf
    exact ht (by simpa using hisleaf.2)

/-! ## Writing an entry -/

/-- An entry that may be written for a page of the size: nothing, or one that maps the page. -/
def EntryFor (cfg : Paging) (s : PageSize) (e : PageTableEntry) : Prop :=
  e = 0 ∨ isLeaf s e = true ∧ (s = .llPage → cfg.has1GibPages = true)

theorem entryFor_zero : EntryFor cfg s 0 := .inl rfl

theorem EntryFor.tablePtr_eq_none (h : EntryFor cfg s e) (hs : s ≠ .page) :
    tablePtr cfg e = none := by
  rcases h with rfl | ⟨hleaf, -⟩
  · exact tablePtr_zero
  · exact tablePtr_of_isLeaf hleaf hs

theorem EntryFor.cuts (h : EntryFor cfg s e) (v : Word) :
    (tablePath cfg s v).length + 1 < levels cfg → tablePtr cfg e = none := by
  intro hlt
  apply h.tablePtr_eq_none
  rintro rfl
  have hlen := length_tablePath cfg .page v
  have hdepth : PageSize.page.depth = 2 := rfl
  omega

/-- Below an entry for pages of the size nothing is found. -/
def Inert (cfg : Paging) (pm : PageMap) (s : PageSize) (e : PageTableEntry) : Prop :=
  s ≠ .page → Radix.LeadsNowhere (tablePtr cfg) pm.tables e

theorem EntryFor.inert (h : EntryFor cfg s e) : Inert cfg pm s e := by
  intro hs q hq
  rw [h.tablePtr_eq_none hs] at hq
  cases hq

/-- The words after an entry is written: the entry, nothing below it, the others as before. -/
theorem Mixed.wordAt_setEntry (h : Mixed cfg pm)
    (hp : tableAt cfg pm (tablePath cfg s v) = some p) (he : Inert cfg pm s e)
    {l : List TableIndex} (hl : l.length < levels cfg) (i : TableIndex) :
    wordAt cfg (pm.setEntry p (entryIndex s v) e) l i =
      if l ++ [i] = entryPath cfg s v then e
      else if entryPath cfg s v <+: l then 0
      else wordAt cfg pm l i := by
  obtain ⟨node, hnode⟩ := h.tree.closed _ p (length_tablePath_lt cfg s v) hp
  refine h.tree.leafWord_cut (length_tablePath_lt cfg s v) hp
    (fun hlt => Radix.LeadsNowhere.leadsToEmpty (he ?_) hnode) hl i
  rintro rfl
  have hlen := length_tablePath cfg .page v
  have hdepth : PageSize.page.depth = 2 := rfl
  omega

theorem Mixed.word_setEntry (h : Mixed cfg pm) (hp : tableAt cfg pm (tablePath cfg s v) = some p)
    (he : Inert cfg pm s e) (t : PageSize) (w : Word) :
    word cfg (pm.setEntry p (entryIndex s v) e) t w =
      if entryPath cfg t w = entryPath cfg s v then e
      else if entryPath cfg s v <+: tablePath cfg t w then 0
      else word cfg pm t w :=
  h.wordAt_setEntry hp he (length_tablePath_lt cfg t w) _

/-- Writing an entry keeps the invariant. -/
theorem Mixed.setEntry (h : Mixed cfg pm) (hp : tableAt cfg pm (tablePath cfg s v) = some p)
    (he : EntryFor cfg s e) : Mixed cfg (pm.setEntry p (entryIndex s v) e) := by
  have hlen := length_tablePath cfg s v
  refine ⟨h.root_ne, h.tree.cut (length_tablePath_lt cfg s v) hp (he.cuts v), ?_, ?_, ?_,
    h.supply_nodup, ?_⟩
  · intro l i hl
    rw [h.wordAt_setEntry hp he.inert hl]
    split
    · exact he.imp_right fun hleaf => isValid_of_isLeaf hleaf.1
    · split
      · exact .inl rfl
      · exact h.valid l i hl
  · intro l i hl
    rw [h.wordAt_setEntry hp he.inert (by omega)]
    split
    · rename_i heq
      have hlen' := congrArg List.length heq
      have := length_entryPath cfg s v
      rw [List.length_append, List.length_singleton] at hlen'
      omega
    · split
      · rfl
      · exact h.small l i hl
  · intro hno w
    rw [word, h.wordAt_setEntry hp he.inert (length_tablePath_lt cfg _ w)]
    split
    · rename_i heq
      have heq' : entryPath cfg .llPage w = entryPath cfg s v := heq
      obtain rfl := samePage_of_eq heq'
      rcases he with rfl | ⟨-, hll⟩
      · decide
      · rw [hll rfl] at hno
        cases hno
    · split
      · rfl
      · exact h.noLLPage hno w
  · intro r hr
    obtain ⟨hfresh, hptr⟩ := h.supply_fresh r hr
    have hrp : r ≠ p := by
      rintro rfl
      exact h.tree.walk_ne_of_fresh hfresh (length_tablePath_lt cfg s v) hp
    exact ⟨(tables_setEntry_of_ne hrp).trans hfresh, hptr⟩

/-- The words above a table of the address point to tables. -/
theorem leafIn_eq_none_of_tableAt (hp : tableAt cfg pm (tablePath cfg s v) = some p)
    (hlt : t.depth < s.depth) : leafIn t (word cfg pm t v) = none := by
  have ht : t ≠ .page := by
    rintro rfl
    cases s <;> exact absurd hlt (by decide)
  cases hptr : tablePtr cfg (word cfg pm t v) with
  | some q => exact leafIn_of_tablePtr hptr ht
  | none =>
    -- a walk cannot go on below a word that points to no table
    have hnone : tableAt cfg pm (tablePath cfg s v) = none := by
      cases s with
      | llPage => exact absurd hlt (Nat.not_lt_zero _)
      | lPage =>
        cases t with
        | llPage => rw [tableAt_lPage, hptr]
        | lPage => exact absurd hlt (by decide)
        | page => exact absurd rfl ht
      | page =>
        cases t with
        | llPage => rw [tableAt_page, word_lPage_eq_zero hptr, tablePtr_zero]
        | lPage => rw [tableAt_page, hptr]
        | page => exact absurd rfl ht
    rw [hnone] at hp
    cases hp

/-- The view after an entry is written: the addresses of its page see the entry, all others what
they saw before. -/
theorem Mixed.leafOf_setEntry (h : Mixed cfg pm)
    (hp : tableAt cfg pm (tablePath cfg s v) = some p) (he : Inert cfg pm s e) (w : Word) :
    leafOf cfg (pm.setEntry p (entryIndex s v) e) w =
      if SamePage cfg s w v then leafIn s e else leafOf cfg pm w := by
  have hword (t : PageSize) := h.word_setEntry hp he t w
  split
  · rename_i hsame
    have hpath : entryPath cfg s w = entryPath cfg s v := hsame
    have hself : word cfg (pm.setEntry p (entryIndex s v) e) s w = e := by
      rw [hword, if_pos hpath]
    have hbelow : ∀ t : PageSize, s.depth < t.depth →
        leafIn t (word cfg (pm.setEntry p (entryIndex s v) e) t w) = none := by
      intro t hlt
      have hpre : entryPath cfg s w <+: tablePath cfg t w := entryPath_le_tablePath hlt w
      rw [hpath] at hpre
      rw [hword, if_neg, if_pos hpre, leafIn_zero]
      intro heq
      rw [samePage_of_eq heq] at hlt
      omega
    have habove : ∀ t : PageSize, t.depth < s.depth →
        leafIn t (word cfg (pm.setEntry p (entryIndex s v) e) t w) = none := by
      intro t hlt
      rw [hword, if_neg, if_neg, hsame.word_eq (Nat.le_of_lt hlt)]
      · exact leafIn_eq_none_of_tableAt hp hlt
      · intro hpre
        have := (samePage_of_le hpre).1
        omega
      · intro heq
        rw [samePage_of_eq heq] at hlt
        omega
    unfold leafOf
    cases s with
    | llPage =>
      rw [hbelow .lPage (by decide), hbelow .page (by decide), hself, Option.or_none,
        Option.or_none]
    | lPage =>
      rw [habove .llPage (by decide), hbelow .page (by decide), hself, Option.or_none]
      rfl
    | page =>
      rw [habove .llPage (by decide), habove .lPage (by decide), hself]
      rfl
  · rename_i hsame
    apply leafOf_congr
    intro t
    rw [hword, if_neg, if_neg]
    · exact fun hpre => hsame (samePage_of_le hpre).2
    · intro heq
      obtain rfl := samePage_of_eq heq
      exact hsame heq

/-! ## Empty page maps -/

theorem tableAt_withRoot (topLevel : Word) (supply : List Word) (l : List TableIndex) :
    tableAt cfg (withRoot topLevel supply) l = if l = [] then some topLevel else none := by
  cases l with
  | nil => rfl
  | cons i l =>
    rw [if_neg (by simp)]
    show Radix.walk _ (Radix.alloc (fun _ => none) topLevel 0) topLevel (i :: l) = none
    rw [Radix.walk, Radix.alloc, Function.update_self, Option.bind_some, tablePtr_zero]
    rfl

theorem wordAt_withRoot (topLevel : Word) (supply : List Word) (l : List TableIndex)
    (i : TableIndex) : wordAt cfg (withRoot topLevel supply) l i = 0 := by
  by_cases hl : l = []
  · subst hl
    rw [wordAt_of_tableAt (p := topLevel) rfl, entry]
    show ((Radix.alloc (fun _ => none) topLevel 0 topLevel).map _).getD 0 = _
    rw [Radix.alloc, Function.update_self]
    rfl
  · exact wordAt_of_none (by rw [tableAt_withRoot, if_neg hl])

theorem leafOf_withRoot (topLevel : Word) (supply : List Word) (v : Word) :
    leafOf cfg (withRoot topLevel supply) v = none := by
  rw [leafOf_eq_none_iff]
  intro s
  rw [word, wordAt_withRoot, leafIn_zero]

/-- An empty page map with fresh tables. -/
theorem mixed_withRoot {topLevel : Word} {supply : List Word}
    (h : FreshTables cfg (topLevel :: supply)) : Mixed cfg (withRoot topLevel supply) := by
  have hwf := (refines_withRoot h).wf
  have hroot : ∀ l p, tableAt cfg (withRoot topLevel supply) l = some p →
      l = [] ∧ p = topLevel := by
    intro l p hwalk
    rw [tableAt_withRoot] at hwalk
    split at hwalk
    · rename_i hl
      exact ⟨hl, (Option.some.inj hwalk).symm⟩
    · cases hwalk
  refine ⟨hwf.root_ne, ⟨fun l p hl hwalk => ?_, fun l l' p _ _ hwalk hwalk' => ?_⟩, fun l i _ => ?_,
    fun l i _ => ?_, fun _ v => ?_, hwf.supply_nodup, hwf.supply_fresh⟩
  · rw [(hroot l p hwalk).2]
    exact hwf.tree.closed [] topLevel (by rw [levels_eq cfg 0]; simp) rfl
  · rw [(hroot l p hwalk).1, (hroot l' p hwalk').1]
  · exact .inl (wordAt_withRoot topLevel supply l i)
  · rw [wordAt_withRoot]
    decide
  · rw [word, wordAt_withRoot]
    decide

end PageMap

end Cryptix.Memory
