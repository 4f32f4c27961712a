import Cryptix.Memory.PageRights

/-!
# The rollback of `MapRange`

`MapRange` and `UnmapRange` of `Kernel/Memory/PageMap.cpp`, for pages of all sizes. When a page of
the range cannot be mapped, `MapRange` unmaps the range up to `i - pageSize` again, in 4 KiB pages:
the last page that was mapped stays, of large pages all but the first stay, and if the very first
page fails the size wraps around.

A page fails when the tables run out, and then the null pointer is linked in the place of a table.
`NullLinked` is that state: a page map that keeps the invariant, its ghost, and the link. Unmapping
4 KiB pages does the same to both (`NullLinked.unmapOne_outside`), but for the pages below the link.
-/

namespace Cryptix.Memory

open Prism Lib

namespace PageMap

open PageTableEntry

/-- `PageMap::UnmapRange`. -/
def unmapRange (cfg : Paging) (pm : PageMap) (virt size : Word) (flags : PageAttributes) :
    Bool × PageMap :=
  untilFailure (fun pm i => internalUnmap cfg pm (pageAt (getPageSize flags) virt i) flags) pm
    (List.range (pageCount (getPageSize flags) size))

/-- One turn of the loop of `PageMap::MapRange`: after a failure the pages before the last one that
was mapped are unmapped, as 4 KiB pages. -/
def mapTurn (cfg : Paging) (virt phys : Word) (flags : PageAttributes) (pm : PageMap) (i : ℕ) :
    Bool × PageMap :=
  let pageSize := (getPageSize flags).bytes
  match internalMap cfg pm (pageAt (getPageSize flags) virt i)
      (pageAt (getPageSize flags) phys i) flags with
  | (true, pm) => (true, pm)
  | (false, pm) => (false, (unmapRange cfg pm virt (pageSize * BitVec.ofNat 64 i - pageSize) 0).2)

/-- `PageMap::MapRange` for pages of all sizes. -/
def mapRangeSized (cfg : Paging) (pm : PageMap) (virt phys size : Word) (flags : PageAttributes) :
    Bool × PageMap :=
  untilFailure (mapTurn cfg virt phys flags) pm (List.range (pageCount (getPageSize flags) size))

variable {cfg : Paging} {pm pm' ghost : PageMap} {l k : List TableIndex} {i : TableIndex}
  {p q v w virt phys size : Word} {s t : PageSize} {e : PageTableEntry} {flags : PageAttributes}

/-! ## Reading a page map with a null link -/

namespace NullLinked

theorem wordAt_eq (h : NullLinked cfg ghost k i pm) (hl : l.length < levels cfg)
    (j : TableIndex) :
    wordAt cfg pm l j =
      if l ++ [j] = k ++ [i] then PTE.defaultFlags
      else if k ++ [i] <+: l then 0
      else wordAt cfg ghost l j := by
  obtain ⟨p, hp, rfl⟩ := h.linked
  have hshort := h.short
  exact h.mixed.wordAt_nullLink h.nullEmpty (by omega) hp hl j

theorem tableAt_eq (h : NullLinked cfg ghost k i pm) (hl : l.length < levels cfg) :
    tableAt cfg pm l =
      if l = k ++ [i] then some (cfg.toHigherHalf 0)
      else if k ++ [i] <+: l then none
      else tableAt cfg ghost l := by
  cases l using List.reverseRecOn with
  | nil =>
    obtain ⟨p, -, rfl⟩ := h.linked
    rw [if_neg (by simp), if_neg (by simp)]
    rfl
  | append_singleton l j =>
    rw [List.length_append] at hl
    rw [tableAt_concat, h.wordAt_eq (by omega)]
    by_cases hself : l ++ [j] = k ++ [i]
    · rw [if_pos hself, if_pos hself, tablePtr_defaultFlags]
    rw [if_neg hself, if_neg hself, tableAt_concat]
    by_cases hpre : k ++ [i] <+: l
    · rw [if_pos hpre, if_pos (hpre.trans (List.prefix_append _ _)), tablePtr_zero]
    · rw [if_neg hpre, if_neg]
      intro hle
      rcases List.prefix_concat_iff.mp hle with heq | hle
      · exact hself heq.symm
      · exact hpre hle

theorem topLevel_ne (h : NullLinked cfg ghost k i pm) : pm.topLevel ≠ 0 := by
  obtain ⟨p, -, rfl⟩ := h.linked
  exact h.mixed.root_ne

theorem isLarge_top (h : NullLinked cfg ghost k i pm) (l : List TableIndex) (j : TableIndex)
    (hl : l.length + 3 < levels cfg) : (wordAt cfg pm l j).isLarge = false := by
  rw [h.wordAt_eq (by omega)]
  split
  · decide
  · split
    · decide
    · exact h.mixed.small l j hl

/-- The link is above the entries of 4 KiB pages. -/
theorem ne_entryPath_page (h : NullLinked cfg ghost k i pm) (v : Word) :
    entryPath cfg .page v ≠ k ++ [i] := by
  intro heq
  have hlen := congrArg List.length heq
  have hpage := length_entryPath cfg .page v
  have hshort := h.short
  have hdepth : PageSize.page.depth = 2 := rfl
  rw [List.length_append, List.length_singleton] at hlen
  omega

/-- On the way down from the link, no entry is large. -/
theorem isLarge_through (h : NullLinked cfg ghost k i pm)
    (hthrough : k ++ [i] <+: tablePath cfg .page v) (hs : s ≠ .page) :
    (word cfg pm s v).isLarge = false := by
  have hentry : entryPath cfg s v <+: tablePath cfg .page v :=
    entryPath_le_tablePath (PageSize.depth_lt_page hs) v
  unfold word
  rw [h.wordAt_eq (length_tablePath_lt cfg s v)]
  split
  · decide
  split
  · decide
  rename_i hself hbelow
  -- the entry is above the link, and so it points to a table
  have habove : entryPath cfg s v <+: k := by
    rcases List.prefix_or_prefix_of_prefix hentry hthrough with hle | hle
    · rcases List.prefix_concat_iff.mp hle with heq | hle
      · exact absurd heq hself
      · exact hle
    · rcases List.prefix_concat_iff.mp hle with heq | hle
      · exact absurd heq.symm hself
      · exact absurd hle hbelow
  obtain ⟨p, hp, -⟩ := h.linked
  obtain ⟨q, hq⟩ := exists_tableAt_of_le habove hp
  exact isLarge_of_tableAt hq

/-- Away from the link, the ghost has the same words and tables. -/
theorem word_outside (h : NullLinked cfg ghost k i pm)
    (hnot : ¬k ++ [i] <+: tablePath cfg .page v) (s : PageSize) :
    word cfg pm s v = word cfg ghost s v ∧
      tableAt cfg pm (tablePath cfg s v) = tableAt cfg ghost (tablePath cfg s v) := by
  have htable : ¬k ++ [i] <+: tablePath cfg s v := by
    intro hpre
    refine hnot (hpre.trans ?_)
    by_cases hs : s = .page
    · rw [hs]
    · exact (List.prefix_append _ _).trans (entryPath_le_tablePath (PageSize.depth_lt_page hs) v)
  have hentry : tablePath cfg s v ++ [entryIndex s v] ≠ k ++ [i] := by
    by_cases hs : s = .page
    · rw [hs]
      exact h.ne_entryPath_page v
    · intro heq
      exact hnot (heq ▸ entryPath_le_tablePath (PageSize.depth_lt_page hs) v)
  constructor
  · unfold word
    rw [h.wordAt_eq (length_tablePath_lt cfg s v), if_neg hentry, if_neg htable]
  · rw [h.tableAt_eq (length_tablePath_lt cfg s v), if_neg, if_neg htable]
    rintro heq
    exact htable (heq ▸ List.prefix_rfl)

/-- Unmapping a page below the link changes nothing, and stops unless the link is in the place of
the last table. -/
theorem unmapOne_through (h : NullLinked cfg ghost k i pm)
    (hthrough : k ++ [i] <+: tablePath cfg .page v) :
    unmapOne cfg pm v .page = (decide (tablePath cfg .page v = k ++ [i]), pm) := by
  have hll : (word cfg pm .llPage v).isLarge = false := h.isLarge_through hthrough (by decide)
  have hl : (word cfg pm .lPage v).isLarge = false := h.isLarge_through hthrough (by decide)
  have hpte := virt2Pte_false_page h.topLevel_ne h.isLarge_top v
  have htable := h.tableAt_eq (length_tablePath_lt cfg .page v)
  simp only [hll, hl, Bool.false_eq_true, if_false] at hpte
  unfold unmapOne
  rw [hpte, htable]
  by_cases hself : tablePath cfg .page v = k ++ [i]
  · rw [if_pos hself, decide_eq_true hself]
    -- all words of the page at physical address 0 are 0 as it is
    have hempty : ∀ node, pm.tables (cfg.toHigherHalf 0) = some node → ∀ i, node i = 0 := by
      have hshort := h.short
      obtain ⟨p, hp, rfl⟩ := h.linked
      have hne : cfg.toHigherHalf 0 ≠ p := by
        rintro rfl
        exact h.nullEmpty.unlinked k (by omega) hp
      rw [tables_setEntry_of_ne hne]
      exact h.nullEmpty.empty
    have hsame : pm.setEntry (cfg.toHigherHalf 0) (entryIndex .page v) 0 = pm := by
      have hkept : (pm.tables (cfg.toHigherHalf 0)).map
          (fun node => Function.update node (entryIndex .page v) 0) =
          pm.tables (cfg.toHigherHalf 0) := by
        cases hnode : pm.tables (cfg.toHigherHalf 0) with
        | none => rfl
        | some node =>
          rw [Option.map_some, ← hempty node hnode (entryIndex .page v), Function.update_eq_self]
      unfold PageMap.setEntry Radix.write
      rw [hkept, Function.update_eq_self]
    simp only [Option.map_some]
    rw [hsame]
  · rw [if_neg hself, if_pos hthrough, decide_eq_false hself]
    rfl

/-- Away from the link, a walk gets to the entry it gets to in the ghost. -/
theorem virt2Pte_outside (h : NullLinked cfg ghost k i pm)
    (hnot : ¬k ++ [i] <+: tablePath cfg .page v) :
    virt2Pte cfg pm v false .page = ((virt2Pte cfg ghost v false .page).1, pm) := by
  rw [virt2Pte_false_page h.topLevel_ne h.isLarge_top,
    virt2Pte_false_page h.mixed.root_ne h.mixed.small]
  simp only [(h.word_outside hnot .llPage).1, (h.word_outside hnot .lPage).1,
    (h.word_outside hnot .llPage).2, (h.word_outside hnot .lPage).2,
    (h.word_outside hnot .page).2]

/-- Away from the link, unmapping a page does the same to the ghost. -/
theorem unmapOne_outside (h : NullLinked cfg ghost k i pm)
    (hnot : ¬k ++ [i] <+: tablePath cfg .page v) :
    (unmapOne cfg pm v .page).1 = (unmapOne cfg ghost v .page).1 ∧
      NullLinked cfg (unmapOne cfg ghost v .page).2 k i (unmapOne cfg pm v .page).2 := by
  have hreached : NotInLarger cfg ghost (reachedSize cfg ghost .page v) v :=
    notInLarger_reachedSize
  unfold PageMap.unmapOne
  rw [h.virt2Pte_outside hnot, h.mixed.virt2Pte_reachedSize, h.mixed.virt2Pte_false hreached]
  generalize ht : reachedSize cfg ghost .page v = t at hreached
  cases hq : tableAt cfg ghost (tablePath cfg t v) with
  | none => exact ⟨rfl, h⟩
  | some q =>
    refine ⟨rfl, h.mixed.setEntry hq entryFor_zero, h.nullEmpty.setEntry h.mixed hq entryFor_zero,
      h.short, ?_, ?_⟩
    · have hshort := h.short
      show wordAt cfg (ghost.setEntry q (entryIndex t v) 0) k i = 0
      rw [h.mixed.wordAt_setEntry hq entryFor_zero.inert (by omega), h.vacant]
      simp
    · obtain ⟨p, hp, rfl⟩ := h.linked
      -- what is cleared maps a page, so that the tables stay
      have htables : tableAt cfg (ghost.setEntry q (entryIndex t v) 0) k = some p := by
        have hshort := h.short
        by_cases hpage : t = .page
        · subst hpage
          have hlen := length_tablePath cfg .page v
          have hdepth : PageSize.page.depth = 2 := rfl
          rw [h.mixed.tableAt_setEntry hq entryFor_zero (by omega), hp]
        · have hlarger : ¬NotInLarger cfg ghost .page v := by
            intro hno
            rw [reachedSize_eq_iff.mpr hno] at ht
            exact hpage ht.symm
          obtain ⟨t', e, hleaf, -, heq⟩ := reachedSize_of_not hlarger
          rw [ht] at heq
          subst heq
          rw [h.mixed.tableAt_setEntry_leaf hleaf hq entryFor_zero (by omega), hp]
      refine ⟨p, htables, ?_⟩
      -- the two writes are to different words
      have hne : ¬(q = p ∧ entryIndex t v = i) := by
        rintro ⟨rfl, hi⟩
        have hshort := h.short
        have hpath := h.mixed.tree.inj _ _ _ (length_tablePath_lt cfg t v) (by omega) hq hp
        have hentry : entryPath cfg t v = k ++ [i] := by rw [entryPath, hpath, hi]
        by_cases hpage : t = .page
        · exact h.ne_entryPath_page v (hpage ▸ hentry)
        · exact hnot (hentry ▸ entryPath_le_tablePath (PageSize.depth_lt_page hpage) v)
      show (ghost.setEntry p i PTE.defaultFlags).setEntry q (entryIndex t v) 0 =
        (ghost.setEntry q (entryIndex t v) 0).setEntry p i PTE.defaultFlags
      unfold PageMap.setEntry
      rw [Radix.write_comm hne]

end NullLinked

/-! ## Rolling back -/

theorem unmapRange_zero (pm : PageMap) (virt size : Word) :
    unmapRange cfg pm virt size 0 =
      untilFailure (fun pm j => unmapOne cfg pm (pageAt .page virt j) .page) pm
        (List.range (pageCount .page size)) := by
  unfold unmapRange
  have hsplit : ¬Split cfg 0 := fun h => absurd h.1 (by decide)
  simp only [internalUnmap_of_not_split hsplit]
  rfl

/-- Unmapping 4 KiB pages takes mappings away and adds none. -/
theorem Mixed.leafOf_unmapOne_page (h : Mixed cfg pm) (v w : Word) :
    leafOf cfg (PageMap.unmapOne cfg pm v .page).2 w =
      if SamePage cfg (reachedSize cfg pm .page v) w v then none else leafOf cfg pm w := by
  rw [h.unmapOne_reachedSize, (h.unmapOne notInLarger_reachedSize).2.2]

/-- Unmapping, as a 4 KiB page, an address that is mapped clears the entry that maps it. -/
theorem Mixed.unmapOne_of_leaf (h : Mixed cfg pm) (hleaf : leafOf cfg pm v = some (s, e)) :
    ∃ p, tableAt cfg pm (tablePath cfg s v) = some p ∧
      PageMap.unmapOne cfg pm v .page = (true, pm.setEntry p (entryIndex s v) 0) := by
  have hle : s.depth ≤ PageSize.page.depth := by cases s <;> decide
  obtain ⟨p, hp, -⟩ := exists_table_of_leafOf hleaf
  refine ⟨p, hp, ?_⟩
  unfold PageMap.unmapOne
  rw [h.virt2Pte_of_leaf hleaf hle hp]

/-- Writing back what is there. -/
theorem setEntry_entry (pm : PageMap) (p : Word) (i : TableIndex) :
    pm.setEntry p i (pm.entry p i) = pm := by
  unfold setEntry Radix.write entry
  cases hnode : pm.tables p with
  | none => rw [Option.map_none, ← hnode, Function.update_eq_self]
  | some node =>
    simp only [Option.map_some, Option.getD_some, Function.update_eq_self]
    rw [← hnode, Function.update_eq_self]

/-- The entry of a 4 KiB page that is not mapped is 0. -/
theorem Mixed.word_page_of_none (h : Mixed cfg pm) (hnone : leafOf cfg pm v = none) :
    word cfg pm .page v = 0 := by
  refine (h.valid _ _ (length_tablePath_lt cfg .page v)).resolve_right fun hvalid => ?_
  have hleaf := leafOf_eq_none_iff.mp hnone .page
  have hisLeaf : isLeaf .page (word cfg pm .page v) = true := by
    rw [isLeaf, show (word cfg pm .page v).isValid = true from hvalid]
    rfl
  rw [leafIn, if_pos hisLeaf] at hleaf
  cases hleaf

namespace NullLinked

/-- Unmapping a page that is not mapped changes nothing, and stops if it has no table. -/
theorem unmapOne_unmapped (h : NullLinked cfg ghost k i pm)
    (hnot : ¬k ++ [i] <+: tablePath cfg .page v) (hnone : leafOf cfg ghost v = none) :
    unmapOne cfg pm v .page = ((tableAt cfg ghost (tablePath cfg .page v)).isSome, pm) := by
  have hnotin : NotInLarger cfg ghost .page v := notInLarger_of_none hnone
  obtain ⟨hword, htable⟩ := h.word_outside hnot .page
  unfold PageMap.unmapOne
  rw [h.virt2Pte_outside hnot, h.mixed.virt2Pte_false hnotin]
  cases hq : tableAt cfg ghost (tablePath cfg .page v) with
  | none => rfl
  | some q =>
    have hentry : pm.entry q (entryIndex .page v) = 0 := by
      rw [← wordAt_of_tableAt (htable.trans hq)]
      exact hword.trans (h.mixed.word_page_of_none hnone)
    have hsame := setEntry_entry pm q (entryIndex .page v)
    rw [hentry] at hsame
    show (true, pm.setEntry q (entryIndex .page v) 0) = (true, pm)
    rw [hsame]

/-- The turns of a rollback leave a null-linked page map in which the mappings of the ghost are left
or gone. -/
theorem unmapTurns (h : NullLinked cfg ghost k i pm) (virt : Word) (turns : List ℕ) :
    ∃ ghost', NullLinked cfg ghost' k i
        (untilFailure (fun pm j => unmapOne cfg pm (pageAt .page virt j) .page) pm turns).2 ∧
      ∀ w, leafOf cfg ghost' w = none ∨ leafOf cfg ghost' w = leafOf cfg ghost w := by
  refine untilFailure_invariant (P := fun pm' => ∃ ghost', NullLinked cfg ghost' k i pm' ∧
    ∀ w, leafOf cfg ghost' w = none ∨ leafOf cfg ghost' w = leafOf cfg ghost w) _
    ⟨ghost, h, fun _ => .inr rfl⟩ ?_
  rintro j - pm₁ ⟨ghost₁, hlinked, hview⟩
  by_cases hthrough : k ++ [i] <+: tablePath cfg .page (pageAt .page virt j)
  · rw [hlinked.unmapOne_through hthrough]
    exact ⟨ghost₁, hlinked, hview⟩
  · refine ⟨_, (hlinked.unmapOne_outside hthrough).2, fun w => ?_⟩
    rw [hlinked.mixed.leafOf_unmapOne_page]
    split
    · exact .inl rfl
    · exact hview w

/-- A rollback over 4 KiB pages keeps a page that is none of them. -/
theorem leafOf_unmapRange (h : NullLinked cfg ghost k i pm)
    (hpages : ∀ j < pageCount .page size, NotInLarger cfg ghost .page (pageAt .page virt j) ∧
      ¬SamePage cfg .page v (pageAt .page virt j)) :
    leafOf cfg (PageMap.unmapRange cfg pm virt size 0).2 v = leafOf cfg ghost v := by
  rw [unmapRange_zero]
  have hrun : ∃ ghost', NullLinked cfg ghost' k i
      (untilFailure (fun pm j => unmapOne cfg pm (pageAt .page virt j) .page) pm
        (List.range (pageCount .page size))).2 ∧ leafOf cfg ghost' v = leafOf cfg ghost v ∧
      ∀ w, leafOf cfg ghost' w = none ∨ leafOf cfg ghost' w = leafOf cfg ghost w := by
    refine untilFailure_invariant (P := fun pm' => ∃ ghost', NullLinked cfg ghost' k i pm' ∧
      leafOf cfg ghost' v = leafOf cfg ghost v ∧
      ∀ w, leafOf cfg ghost' w = none ∨ leafOf cfg ghost' w = leafOf cfg ghost w) _
      ⟨ghost, h, rfl, fun _ => .inr rfl⟩ ?_
    rintro j hj pm₁ ⟨ghost₁, hlinked, hkept, hview⟩
    obtain ⟨hnot, hother⟩ := hpages j (List.mem_range.mp hj)
    by_cases hthrough : k ++ [i] <+: tablePath cfg .page (pageAt .page virt j)
    · rw [hlinked.unmapOne_through hthrough]
      exact ⟨ghost₁, hlinked, hkept, hview⟩
    -- the page is still inside no larger one, since mappings only go away
    have hreached : reachedSize cfg ghost₁ .page (pageAt .page virt j) = .page := by
      rw [reachedSize_eq_iff]
      intro t e hleaf
      rcases hview (pageAt .page virt j) with hnone | heq
      · rw [hnone] at hleaf
        cases hleaf
      · exact hnot t e (heq ▸ hleaf)
    refine ⟨_, (hlinked.unmapOne_outside hthrough).2, ?_, fun w => ?_⟩
    · rw [hlinked.mixed.leafOf_unmapOne_page, hreached, if_neg hother, hkept]
    · rw [hlinked.mixed.leafOf_unmapOne_page]
      split
      · exact .inl rfl
      · exact hview w
  obtain ⟨ghost', hlinked, hkept, -⟩ := hrun
  rw [hlinked.leafOf_eq, hkept]

/-- Below an entry of a large page that has been cleared there is no table. -/
theorem tableAt_cleared (h : NullLinked cfg ghost k i pm) (hs : s ≠ .page)
    (hp : tableAt cfg ghost (tablePath cfg s virt) = some p) (hsame : SamePage cfg s v virt) :
    tableAt cfg (ghost.setEntry p (entryIndex s virt) 0) (tablePath cfg .page v) = none := by
  cases hq : tableAt cfg (ghost.setEntry p (entryIndex s virt) 0) (tablePath cfg .page v) with
  | none => rfl
  | some q =>
    have hlt := PageSize.depth_lt_page hs
    have hpath : entryPath cfg s v = entryPath cfg s virt := hsame
    have hword : word cfg (ghost.setEntry p (entryIndex s virt) 0) s v = 0 := by
      rw [h.mixed.word_setEntry hp entryFor_zero.inert, if_pos hpath]
    obtain ⟨r, hr⟩ := exists_tableAt_of_le (entryPath_le_tablePath hlt v) hq
    have hptr : tableAt cfg (ghost.setEntry p (entryIndex s virt) 0) (entryPath cfg s v) =
        tablePtr cfg (word cfg (ghost.setEntry p (entryIndex s virt) 0) s v) := tableAt_concat _ _
    rw [hptr, hword, tablePtr_zero] at hr
    cases hr

/-- A rollback over large pages clears the first page and stops at its second 4 KiB. -/
theorem leafOf_unmapRange_large (h : NullLinked cfg ghost k i pm) (hs : s ≠ .page)
    (hlink : (k ++ [i]).length ≤ (tablePath cfg s virt).length)
    (hleaf : leafOf cfg ghost virt = some (s, e))
    (hsecond : SamePage cfg s (pageAt .page virt 1) virt) (hother : ¬SamePage cfg s v virt)
    (hcount : 2 ≤ pageCount .page size) :
    leafOf cfg (PageMap.unmapRange cfg pm virt size 0).2 v = leafOf cfg ghost v := by
  have hlt := PageSize.depth_lt_page hs
  have hlen := length_tablePath cfg s virt
  obtain ⟨p, hp, hclear⟩ := h.mixed.unmapOne_of_leaf hleaf
  -- the first entry is away from the link: it is mapped
  have hout : ¬k ++ [i] <+: tablePath cfg .page virt := by
    intro hpre
    have hle : k ++ [i] <+: tablePath cfg s virt :=
      List.prefix_of_prefix_length_le hpre
        ((List.prefix_append _ _).trans (entryPath_le_tablePath hlt virt)) hlink
    obtain ⟨q, hq⟩ := exists_tableAt_of_le hle hp
    rw [tableAt_concat, h.vacant, tablePtr_zero] at hq
    cases hq
  have hview (w : Word) := h.mixed.leafOf_setEntry hp (entryFor_zero (s := s)).inert w
  simp only [leafIn_zero] at hview
  obtain ⟨hfirst, hlinked⟩ := h.unmapOne_outside hout
  rw [hclear] at hfirst hlinked
  generalize hpm₁ : PageMap.unmapOne cfg pm virt .page = r at hfirst hlinked
  obtain ⟨ok, pm₁⟩ := r
  obtain rfl : ok = true := hfirst
  have hlinked₁ : NullLinked cfg (ghost.setEntry p (entryIndex s virt) 0) k i pm₁ := hlinked
  -- the second 4 KiB have no table
  have hstop : PageMap.unmapOne cfg pm₁ (pageAt .page virt 1) .page = (false, pm₁) := by
    by_cases hthrough : k ++ [i] <+: tablePath cfg .page (pageAt .page virt 1)
    · rw [hlinked₁.unmapOne_through hthrough, decide_eq_false]
      intro heq
      have hpath := length_tablePath cfg .page (pageAt .page virt 1)
      rw [heq] at hpath
      omega
    · rw [hlinked₁.unmapOne_unmapped hthrough (by rw [hview, if_pos hsecond]),
        h.tableAt_cleared hs hp hsecond]
      rfl
  obtain ⟨n, hn⟩ : ∃ n, pageCount .page size = n + 2 := ⟨pageCount .page size - 2, by omega⟩
  have hpage₀ : pageAt .page virt 0 = virt := by
    unfold pageAt
    simp
  have hgo : PageMap.unmapOne cfg pm (pageAt .page virt 0) .page = (true, pm₁) := by
    rw [hpage₀, hpm₁]
  rw [unmapRange_zero, hn, List.range_succ_eq_map, List.range_succ_eq_map, List.map_cons,
    untilFailure_cons_true hgo, untilFailure_cons_false hstop, hlinked₁.leafOf_eq, hview,
    if_neg hother]

end NullLinked

/-! ## A failure at the first page -/

/-- A turn of the rollback from `virt` on goes through, if the last table on the way to `virt` is
the one that is missing: there is a table, or the link is in its place. -/
def Passes (cfg : Paging) (pm : PageMap) (virt : Word) (j : ℕ) : Prop :=
  SamePage cfg .lPage (pageAt .page virt j) virt ∨
    tableAt cfg pm (tablePath cfg .page (pageAt .page virt j)) ≠ none

/-- Nothing is mapped where the rollback from `virt` on gets to. -/
def Quiet (cfg : Paging) (pm : PageMap) (virt : Word) (count : ℕ) : Prop :=
  ∀ j < count, (∀ j' < j, Passes cfg pm virt j') → leafOf cfg pm (pageAt .page virt j) = none

/-- The first entry of the range cannot be reached, and the rollback, which starts there with a size
that has wrapped around, meets nothing that is mapped. -/
def FailsAtOnce (cfg : Paging) (pm : PageMap) (virt : Word) (flags : PageAttributes) : Prop :=
  pm.supply.length < missingTables cfg pm (callSize cfg flags) virt ∧
    (callSize cfg flags = .page →
      missingTables cfg pm (callSize cfg flags) virt = pm.supply.length + 1 →
      Quiet cfg pm virt (pageCount .page (0 - (getPageSize flags).bytes)))

theorem pageAt_zero (s : PageSize) (virt : Word) : pageAt s virt 0 = virt := by
  unfold pageAt
  simp

/-- A call whose first entry cannot be reached writes nothing but the null link. -/
theorem Mixed.internalMap_of_short (h : Mixed cfg pm)
    (hnot : NotInLarger cfg pm (callSize cfg flags) virt)
    (hshort : pm.supply.length < missingTables cfg pm (callSize cfg flags) virt) (phys : Word) :
    ∃ k rest i p ghost, internalMap cfg pm virt phys flags =
        (false, ghost.setEntry p i PTE.defaultFlags) ∧
      Exhausted cfg pm [] (tablePath cfg (callSize cfg flags) virt) k rest i p ghost := by
  by_cases hsplit : Split cfg flags
  · rw [callSize_of_split hsplit] at hnot hshort ⊢
    rw [internalMap_of_split hsplit]
    rcases h.mapOne_cases (getPageSize_splitFlags flags) (by simp) hnot
      (phys + PageSize.lPage.bytes * BitVec.ofNat 64 0) with
      ⟨_, -, hwrote⟩ | ⟨k, rest, i, p, ghost, heq, hexhausted⟩
    · have henough := hwrote.enough
      omega
    · have hfirst : PageMap.mapOne cfg pm (virt + PageSize.lPage.bytes * BitVec.ofNat 64 0)
          (phys + PageSize.lPage.bytes * BitVec.ofNat 64 0) (splitFlags flags) =
          (false, ghost.setEntry p i PTE.defaultFlags) := by
        rw [← heq]
        simp
      refine ⟨k, rest, i, p, ghost, ?_, hexhausted⟩
      rw [show List.range 512 = 0 :: (List.range 511).map Nat.succ from List.range_succ_eq_map,
        untilFailure_cons_false hfirst]
  · rw [callSize_of_not_split hsplit] at hnot hshort ⊢
    rw [internalMap_of_not_split hsplit]
    rcases h.mapOne_cases rfl (has1GibPages_of_not_split hsplit) hnot phys with
      ⟨_, -, hwrote⟩ | hexhausted
    · have henough := hwrote.enough
      omega
    · exact hexhausted

/-- The tables of the 4 KiB pages that are there when the supply is used up. -/
theorem Exhausted.tableAt_page {rest : List TableIndex}
    (h : Exhausted cfg pm [] (tablePath cfg s virt) k rest i p ghost) (v : Word) :
    tableAt cfg ghost (tablePath cfg .page v) = none ↔
      tableAt cfg pm (tablePath cfg .page v) = none := by
  have hpage := length_tablePath cfg .page v
  have hs := length_tablePath cfg s virt
  have hdepth : s.depth ≤ PageSize.page.depth := by cases s <;> decide
  rw [h.path_eq, List.length_append, List.length_cons] at hs
  have hext : Extended cfg pm ghost k := h.ext
  rw [hext.tableAt_none _ (length_tablePath_lt cfg .page v)]
  refine and_iff_left fun hpre => ?_
  have hle := hpre.length_le
  omega

/-- Below the last link are the pages of its 2 MiB. -/
theorem through_last_iff {rest : List TableIndex}
    (hpath : tablePath cfg .page virt = k ++ i :: rest) (hrest : rest = []) :
    k ++ [i] <+: tablePath cfg .page v ↔ SamePage cfg .lPage v virt := by
  rw [hrest] at hpath
  have hlen := congrArg List.length hpath
  have hv := length_tablePath cfg .page v
  have hvirt := length_tablePath cfg .page virt
  unfold SamePage
  rw [← tablePath_page, ← tablePath_page, ← hpath]
  refine ⟨fun hpre => (hpre.eq_of_length (by omega)).symm, fun heq => ?_⟩
  rw [heq]

/-- A turn of the rollback where nothing is mapped changes nothing, and goes through if it
passes. -/
theorem Exhausted.unmapOne_turn {rest : List TableIndex} (hnull : NullEmpty cfg pm)
    (h : Exhausted cfg pm [] (tablePath cfg .page virt) k rest i p ghost) (hrest : rest = [])
    {j : ℕ} (hnone : leafOf cfg pm (pageAt .page virt j) = none) :
    ∃ ok : Bool, unmapOne cfg (ghost.setEntry p i PTE.defaultFlags) (pageAt .page virt j) .page =
        (ok, ghost.setEntry p i PTE.defaultFlags) ∧ (ok = true ↔ Passes cfg pm virt j) := by
  have hlinked := h.nullLinked hnull
  have hiff : k ++ [i] <+: tablePath cfg .page (pageAt .page virt j) ↔
      SamePage cfg .lPage (pageAt .page virt j) virt := through_last_iff h.path_eq hrest
  by_cases hthrough : k ++ [i] <+: tablePath cfg .page (pageAt .page virt j)
  · refine ⟨_, hlinked.unmapOne_through hthrough, ?_⟩
    have hself : tablePath cfg .page (pageAt .page virt j) = k ++ [i] := by
      have hlen := length_tablePath cfg .page (pageAt .page virt j)
      have hvirt := length_tablePath cfg .page virt
      rw [h.path_eq, hrest] at hvirt
      exact (hthrough.eq_of_length (by omega)).symm
    rw [decide_eq_true hself]
    exact iff_of_true rfl (.inl (hiff.mp hthrough))
  · refine ⟨_, hlinked.unmapOne_unmapped hthrough ((h.ext.leafOf_eq _).trans hnone), ?_⟩
    rw [Option.isSome_iff_ne_none, Ne, h.tableAt_page]
    unfold Passes
    rw [← hiff]
    tauto

/-- `MapRange` whose first page fails, up to the rollback. -/
theorem mapRangeSized_of_false {pm₁ : PageMap}
    (hpos : 0 < pageCount (getPageSize flags) size)
    (hfirst : internalMap cfg pm virt phys flags = (false, pm₁)) :
    mapRangeSized cfg pm virt phys size flags =
      (false, (unmapRange cfg pm₁ virt (0 - (getPageSize flags).bytes) 0).2) := by
  have hturn : mapTurn cfg virt phys flags pm 0 =
      (false, (unmapRange cfg pm₁ virt (0 - (getPageSize flags).bytes) 0).2) := by
    unfold mapTurn
    simp only [pageAt_zero, hfirst]
    simp
  obtain ⟨n, hn⟩ := Nat.exists_eq_succ_of_ne_zero hpos.ne'
  unfold mapRangeSized
  rw [hn, List.range_succ_eq_map, untilFailure_cons_false hturn]

/-- The rollback stops at its first page, unless the last table is the one that is missing. -/
theorem Exhausted.unmapRange_stops {rest : List TableIndex} (hnull : NullEmpty cfg pm)
    (h : Exhausted cfg pm [] (tablePath cfg s virt) k rest i p ghost)
    (hearly : ¬(s = .page ∧ rest = [])) (size : Word) :
    (unmapRange cfg (ghost.setEntry p i PTE.defaultFlags) virt size 0).2 =
      ghost.setEntry p i PTE.defaultFlags := by
  have hlinked := h.nullLinked hnull
  have hpath : tablePath cfg s virt = k ++ i :: rest := h.path_eq
  have hle : tablePath cfg s virt <+: tablePath cfg .page virt := by
    by_cases hs : s = .page
    · rw [hs]
    · exact (List.prefix_append _ _).trans (entryPath_le_tablePath (PageSize.depth_lt_page hs) virt)
  have hthrough : k ++ [i] <+: tablePath cfg .page virt := by
    refine List.IsPrefix.trans ⟨rest, ?_⟩ hle
    rw [hpath, List.append_assoc]
    rfl
  have hshort : tablePath cfg .page virt ≠ k ++ [i] := by
    intro heq
    have hlen := congrArg List.length heq
    have hlen' := congrArg List.length hpath
    have hdepth := length_tablePath cfg s virt
    have hpage := length_tablePath cfg .page virt
    rw [List.length_append, List.length_singleton] at hlen
    rw [List.length_append, List.length_cons] at hlen'
    by_cases hs : s = .page
    · subst hs
      exact hearly ⟨rfl, List.length_eq_zero_iff.mp (by omega)⟩
    · have hlt := PageSize.depth_lt_page hs
      omega
  have hstop := hlinked.unmapOne_through hthrough
  rw [decide_eq_false hshort, ← pageAt_zero .page virt] at hstop
  rw [unmapRange_zero]
  cases pageCount .page size with
  | zero => rfl
  | succ n => rw [List.range_succ_eq_map, untilFailure_cons_false hstop]

/-- A rollback that meets nothing that is mapped changes nothing. -/
theorem Exhausted.unmapRange_quiet {rest : List TableIndex} (hnull : NullEmpty cfg pm)
    (h : Exhausted cfg pm [] (tablePath cfg .page virt) k rest i p ghost) (hrest : rest = [])
    (hquiet : Quiet cfg pm virt (pageCount .page size)) :
    (unmapRange cfg (ghost.setEntry p i PTE.defaultFlags) virt size 0).2 =
      ghost.setEntry p i PTE.defaultFlags := by
  rw [unmapRange_zero]
  have hstart : ghost.setEntry p i PTE.defaultFlags = ghost.setEntry p i PTE.defaultFlags ∧
      ∀ j' < 0, Passes cfg pm virt j' := ⟨rfl, fun _ hlt => absurd hlt (Nat.not_lt_zero _)⟩
  have hturn : ∀ j pm₁ pm₂, j < pageCount .page size →
      (pm₁ = ghost.setEntry p i PTE.defaultFlags ∧ ∀ j' < j, Passes cfg pm virt j') →
      unmapOne cfg pm₁ (pageAt .page virt j) .page = (true, pm₂) →
      pm₂ = ghost.setEntry p i PTE.defaultFlags ∧ ∀ j' < j + 1, Passes cfg pm virt j' := by
    rintro j _ pm₂ hj ⟨rfl, hpasses⟩ hbody
    obtain ⟨ok, heq, hok⟩ := h.unmapOne_turn hnull hrest (hquiet j hj hpasses)
    rw [hbody] at heq
    obtain ⟨rfl, rfl⟩ := Prod.mk.inj heq
    refine ⟨rfl, fun j' hj' => ?_⟩
    rcases Nat.lt_succ_iff_lt_or_eq.mp hj' with hlt | rfl
    · exact hpasses j' hlt
    · exact hok.mp rfl
  rcases untilFailure_range_cases _ hstart hturn with
    ⟨pm', heq, hP⟩ | ⟨j, pm₁, pm', hj, ⟨rfl, hpasses⟩, hbody, heq⟩
  · rw [heq]
    exact hP.1
  · obtain ⟨ok, hturn, -⟩ := h.unmapOne_turn hnull hrest (hquiet j hj hpasses)
    rw [hbody] at hturn
    rw [heq]
    exact (Prod.mk.inj hturn).2

/-- The last table is the one that is missing if one more would have been enough. -/
theorem Exhausted.rest_eq_nil_iff {rest : List TableIndex}
    (h : Exhausted cfg pm [] (tablePath cfg s virt) k rest i p ghost) :
    rest = [] ↔ missingTables cfg pm s virt = pm.supply.length + 1 := by
  have hcount : missingTables cfg pm s virt = pm.supply.length + 1 + rest.length := h.count
  rw [← List.length_eq_zero_iff]
  omega

/-- If the first page fails and the rollback meets nothing, all translations are kept. -/
theorem Mixed.sameTranslations_of_failsAtOnce (h : Mixed cfg pm) (hnull : NullEmpty cfg pm)
    (hpos : 0 < pageCount (getPageSize flags) size) (hunmapped : leafOf cfg pm virt = none)
    (hfails : FailsAtOnce cfg pm virt flags) (phys : Word) :
    SameTranslations cfg pm (mapRangeSized cfg pm virt phys size flags).2 := by
  obtain ⟨hshort, hquiet⟩ := hfails
  have hnot : NotInLarger cfg pm (callSize cfg flags) virt := notInLarger_of_none hunmapped
  obtain ⟨k, rest, i, p, ghost, hfirst, hexhausted⟩ := h.internalMap_of_short hnot hshort phys
  have hsame : (unmapRange cfg (ghost.setEntry p i PTE.defaultFlags) virt
      (0 - (getPageSize flags).bytes) 0).2 = ghost.setEntry p i PTE.defaultFlags := by
    by_cases hlast : callSize cfg flags = .page ∧ rest = []
    · have hcount := hexhausted.rest_eq_nil_iff.mp hlast.2
      have hquiet' := hquiet hlast.1 hcount
      rw [hlast.1] at hexhausted
      exact hexhausted.unmapRange_quiet hnull hlast.2 hquiet'
    · exact hexhausted.unmapRange_stops hnull hlast _
  intro w
  rw [mapRangeSized_of_false hpos hfirst]
  unfold translate
  rw [hsame, (hexhausted.nullLinked hnull).leafOf_eq, hexhausted.ext.leafOf_eq]

/-- Nothing is mapped in the 2 MiB whose last table is the one that is missing. -/
theorem Exhausted.leafOf_of_samePage {rest : List TableIndex} (hmixed : Mixed cfg pm)
    (h : Exhausted cfg pm [] (tablePath cfg .page virt) k rest i p ghost) (hrest : rest = [])
    (hunmapped : leafOf cfg pm virt = none) (hsame : SamePage cfg .lPage v virt) :
    leafOf cfg pm v = none := by
  have hvirt : NotInLarger cfg pm .page virt := notInLarger_of_none hunmapped
  have hpath : tablePath cfg .page virt = k ++ i :: rest := h.path_eq
  have hvacant : wordAt cfg pm k i = 0 := h.vacant
  have htable : tableAt cfg pm (tablePath cfg .page virt) = none := by
    rw [hpath, hrest, tableAt_concat, hvacant, tablePtr_zero]
  apply leafOf_of_tableAt_none (s := .page)
  · rw [hmixed.notInLarger_iff] at hvirt ⊢
    intro t hlt
    have hle : t.depth ≤ PageSize.lPage.depth := Nat.le_of_lt_succ hlt
    rw [hsame.word_eq hle]
    exact hvirt t hlt
  · have heq : entryPath cfg .lPage v = entryPath cfg .lPage virt := hsame
    rw [tablePath_page, heq, ← tablePath_page, htable]

/-- A rollback that meets a mapping takes it away. -/
theorem Exhausted.unmapRange_not_quiet {rest : List TableIndex} (hmixed : Mixed cfg pm)
    (hnull : NullEmpty cfg pm)
    (h : Exhausted cfg pm [] (tablePath cfg .page virt) k rest i p ghost) (hrest : rest = [])
    (hunmapped : leafOf cfg pm virt = none)
    (hquiet : ¬Quiet cfg pm virt (pageCount .page size)) :
    ∃ v, leafOf cfg pm v ≠ none ∧
      leafOf cfg (unmapRange cfg (ghost.setEntry p i PTE.defaultFlags) virt size 0).2 v = none := by
  classical
  have hlinked := h.nullLinked hnull
  have hmeets : ∃ j, j < pageCount .page size ∧ (∀ j' < j, Passes cfg pm virt j') ∧
      leafOf cfg pm (pageAt .page virt j) ≠ none := by
    unfold Quiet at hquiet
    push Not at hquiet
    exact hquiet
  -- the first mapping it meets
  obtain ⟨hj, hpasses, hmapped⟩ := Nat.find_spec hmeets
  have hleast := fun j' (hlt : j' < Nat.find hmeets) => Nat.find_min hmeets hlt
  generalize Nat.find hmeets = j at hj hpasses hmapped hleast
  have hbefore : ∀ j' ∈ List.range j, unmapOne cfg (ghost.setEntry p i PTE.defaultFlags)
      (pageAt .page virt j') .page = (true, ghost.setEntry p i PTE.defaultFlags) := by
    intro j' hj'
    have hlt := List.mem_range.mp hj'
    have hnone : leafOf cfg pm (pageAt .page virt j') = none := by
      by_contra hne
      exact hleast j' hlt ⟨hlt.trans hj, fun n hn => hpasses n (hn.trans hlt), hne⟩
    obtain ⟨ok, heq, hok⟩ := h.unmapOne_turn hnull hrest hnone
    rw [heq, hok.mpr (hpasses j' hlt)]
  have hout : ¬k ++ [i] <+: tablePath cfg .page (pageAt .page virt j) := fun hthrough =>
    hmapped (h.leafOf_of_samePage hmixed hrest hunmapped
      ((through_last_iff h.path_eq hrest).mp hthrough))
  -- the turn that meets it clears it
  obtain ⟨⟨t, e⟩, hleaf⟩ := Option.ne_none_iff_exists'.mp hmapped
  have hghost : leafOf cfg ghost (pageAt .page virt j) = some (t, e) :=
    (h.ext.leafOf_eq _).trans hleaf
  obtain ⟨q, hq, hclear⟩ := hlinked.mixed.unmapOne_of_leaf hghost
  have hgone := hlinked.mixed.leafOf_setEntry hq (entryFor_zero (s := t)).inert
    (pageAt .page virt j)
  rw [if_pos (show SamePage cfg t _ _ from rfl), leafIn_zero] at hgone
  obtain ⟨hok, hlinked'⟩ := hlinked.unmapOne_outside hout
  rw [hclear] at hok hlinked'
  generalize hturn : unmapOne cfg (ghost.setEntry p i PTE.defaultFlags)
    (pageAt .page virt j) .page = r at hok hlinked'
  obtain ⟨ok, pm₁⟩ := r
  obtain rfl : ok = true := hok
  -- what is gone stays away
  obtain ⟨m, hm⟩ : ∃ m, pageCount .page size = j + (m + 1) :=
    ⟨pageCount .page size - j - 1, by omega⟩
  obtain ⟨ghost', hlinked'', hview⟩ := NullLinked.unmapTurns hlinked' virt
    ((List.range m).map fun n => j + (n + 1))
  refine ⟨pageAt .page virt j, hmapped, ?_⟩
  rw [unmapRange_zero, hm, List.range_add, untilFailure_append (untilFailure_of_same hbefore),
    List.range_succ_eq_map, List.map_cons, untilFailure_cons_true hturn, List.map_map]
  rw [show (fun x => j + x) ∘ Nat.succ = fun n => j + (n + 1) from rfl, hlinked''.leafOf_eq]
  rcases hview (pageAt .page virt j) with hnone | heq
  · exact hnone
  · exact heq.trans hgone

/-! ## A failure at a later page -/

theorem toNat_pageAt (s : PageSize) (virt : Word) (n : ℕ) :
    (pageAt s virt n).toNat = (virt.toNat + s.bytes.toNat * n) % 2 ^ 64 := by
  unfold pageAt
  rw [BitVec.toNat_add, BitVec.toNat_mul, BitVec.toNat_ofNat, Nat.mul_mod_mod, Nat.add_mod_mod]

theorem PageSize.toNat_bytes (s : PageSize) : s.bytes.toNat = 2 ^ s.shift := by
  cases s <;> rfl

/-- The pages of a range are different ones. -/
theorem pageAt_inj {m n : ℕ} (hm : s.bytes.toNat * m < 2 ^ 64) (hn : s.bytes.toNat * n < 2 ^ 64)
    (h : pageAt s virt m >>> s.shift = pageAt s virt n >>> s.shift) : m = n := by
  have hnat := congrArg BitVec.toNat h
  rw [BitVec.toNat_ushiftRight, BitVec.toNat_ushiftRight, toNat_pageAt, toNat_pageAt,
    Nat.shiftRight_eq_div_pow, Nat.shiftRight_eq_div_pow, PageSize.toNat_bytes] at hnat
  rw [PageSize.toNat_bytes] at hm hn
  have hvirt := virt.isLt
  cases s <;> simp only [PageSize.shift] at hm hn hnat <;> omega

theorem mod_bytes_eq_zero_iff : v % s.bytes = 0 ↔ v.toNat % 2 ^ s.shift = 0 := by
  rw [← PageSize.toNat_bytes, ← BitVec.toNat_umod]
  exact BitVec.toNat_inj.symm

/-- The pages of a range that starts at a multiple of the page size do so as well. -/
theorem pageAt_mod (halign : virt % s.bytes = 0) (n : ℕ) : pageAt s virt n % s.bytes = 0 := by
  rw [mod_bytes_eq_zero_iff] at halign ⊢
  rw [toNat_pageAt, PageSize.toNat_bytes]
  cases s <;> simp only [PageSize.shift] at halign ⊢ <;> omega

theorem not_samePage_pageAt {m n : ℕ} (hm : s.bytes.toNat * m < 2 ^ 64)
    (hn : s.bytes.toNat * n < 2 ^ 64) (hne : m ≠ n)
    (hcanonical : Canonical cfg (pageAt s virt m) ∧ Canonical cfg (pageAt s virt n)) :
    ¬SamePage cfg s (pageAt s virt m) (pageAt s virt n) :=
  fun hsame => hne (pageAt_inj hm hn ((samePage_iff hcanonical.1 hcanonical.2).mp hsame))

/-- The pages of one call are on one page of the size of the flags. -/
theorem samePage_of_mem_callPages (halign : virt % (getPageSize flags).bytes = 0)
    (hv : v ∈ callPages cfg flags virt) : SamePage cfg (getPageSize flags) v virt := by
  by_cases hsplit : Split cfg flags
  · obtain ⟨n, hn, rfl⟩ := (mem_callPages_of_split hsplit).mp hv
    have hlt := List.mem_range.mp hn
    have hsize : getPageSize flags = .llPage := hsplit.1
    rw [hsize] at halign ⊢
    apply samePage_of_shift
    rw [mod_bytes_eq_zero_iff] at halign
    apply BitVec.eq_of_toNat_eq
    have hadd := toNat_pageAt .lPage virt n
    unfold pageAt at hadd
    rw [BitVec.toNat_ushiftRight, BitVec.toNat_ushiftRight, hadd, PageSize.toNat_bytes,
      Nat.shiftRight_eq_div_pow, Nat.shiftRight_eq_div_pow]
    have hvirt := virt.isLt
    simp only [PageSize.shift] at halign ⊢
    omega
  · rw [callPages_of_not_split hsplit] at hv
    rw [List.mem_singleton.mp hv]
    rfl

theorem depth_callSize_le (cfg : Paging) (flags : PageAttributes) :
    (getPageSize flags).depth ≤ (callSize cfg flags).depth := by
  by_cases hsplit : Split cfg flags
  · rw [callSize_of_split hsplit, show getPageSize flags = .llPage from hsplit.1]
    decide
  · rw [callSize_of_not_split hsplit]

/-- Pages of different calls are different. -/
theorem not_samePage_callPages {m n : ℕ} (halign : virt % (getPageSize flags).bytes = 0)
    (hm : (getPageSize flags).bytes.toNat * m < 2 ^ 64)
    (hn : (getPageSize flags).bytes.toNat * n < 2 ^ 64) (hne : m ≠ n)
    (hcanonical : Canonical cfg (pageAt (getPageSize flags) virt m) ∧
      Canonical cfg (pageAt (getPageSize flags) virt n))
    (hv : v ∈ callPages cfg flags (pageAt (getPageSize flags) virt n)) :
    ¬SamePage cfg (callSize cfg flags) (pageAt (getPageSize flags) virt m) v := by
  intro hsame
  have hsame' : SamePage cfg (getPageSize flags) (pageAt (getPageSize flags) virt m)
      (pageAt (getPageSize flags) virt n) :=
    (hsame.mono (depth_callSize_le cfg flags)).trans
      (samePage_of_mem_callPages (pageAt_mod halign n) hv)
  exact not_samePage_pageAt hm hn hne hcanonical hsame'

/-- `pm'` is `pm` with the pages of the first `n` calls mapped. -/
structure RangeMapped (cfg : Paging) (flags : PageAttributes) (virt : Word) (pm : PageMap) (n : ℕ)
    (pm' : PageMap) : Prop where
  mixed : Mixed cfg pm'
  nullEmpty : NullEmpty cfg pm'
  start : n = 0 → pm' = pm
  same : ∀ w, (∀ m < n, ∀ v ∈ callPages cfg flags (pageAt (getPageSize flags) virt m),
    ¬SamePage cfg (callSize cfg flags) w v) → leafOf cfg pm' w = leafOf cfg pm w
  mapped : ∀ m < n, ∀ v ∈ callPages cfg flags (pageAt (getPageSize flags) virt m),
    ∃ e, leafOf cfg pm' v = some (callSize cfg flags, e)

namespace RangeMapped

variable {n : ℕ}

/-- The next page is inside no larger one. -/
theorem notInLarger (h : RangeMapped cfg flags virt pm n pm')
    (hnone : leafOf cfg pm (pageAt (getPageSize flags) virt n) = none) :
    NotInLarger cfg pm' (callSize cfg flags) (pageAt (getPageSize flags) virt n) := by
  intro t e hleaf
  by_cases hsame : ∃ m < n, ∃ v ∈ callPages cfg flags (pageAt (getPageSize flags) virt m),
      SamePage cfg (callSize cfg flags) (pageAt (getPageSize flags) virt n) v
  · obtain ⟨m, hm, v, hv, hsame⟩ := hsame
    obtain ⟨e', hleaf'⟩ := h.mapped m hm v hv
    rw [hsame.leafOf_eq hleaf'] at hleaf
    rw [(Prod.mk.inj (Option.some.inj hleaf)).1]
  · push Not at hsame
    rw [h.same _ hsame, hnone] at hleaf
    cases hleaf

/-- One more call. -/
theorem succ {pm₁ : PageMap} (h : RangeMapped cfg flags virt pm n pm')
    (hmapped : Mapped cfg flags (pageAt (getPageSize flags) virt n) phys pm' pm₁) :
    RangeMapped cfg flags virt pm (n + 1) pm₁ := by
  refine ⟨hmapped.mixed, hmapped.nullEmpty h.nullEmpty, fun hzero => absurd hzero n.succ_ne_zero,
    fun w hw => ?_, fun m hm v hv => ?_⟩
  · rw [hmapped.sameOutside w (hw n n.lt_succ_self)]
    exact h.same w fun m hm => hw m (hm.trans n.lt_succ_self)
  · by_cases hsame : ∃ u ∈ callPages cfg flags (pageAt (getPageSize flags) virt n),
        SamePage cfg (callSize cfg flags) v u
    · obtain ⟨u, hu, hsame⟩ := hsame
      obtain ⟨e, -, hleaf⟩ := hmapped.leafOf_pages u hu
      exact ⟨e, hsame.leafOf_eq hleaf⟩
    · rcases Nat.lt_succ_iff_lt_or_eq.mp hm with hlt | rfl
      · push Not at hsame
        rw [hmapped.sameOutside v hsame]
        exact h.mapped m hlt v hv
      · exact absurd ⟨v, hv, rfl⟩ hsame

end RangeMapped

/-- With the tables for the first entry at hand, the first call succeeds. -/
theorem Mixed.internalMap_first (h : Mixed cfg pm) (halign : virt % (getPageSize flags).bytes = 0)
    (hnot : NotInLarger cfg pm (callSize cfg flags) virt)
    (henough : missingTables cfg pm (callSize cfg flags) virt ≤ pm.supply.length) (phys : Word) :
    (internalMap cfg pm virt phys flags).1 = true := by
  -- all entries of the call are in one table
  have hpath : ∀ v ∈ callPages cfg flags virt,
      tablePath cfg (callSize cfg flags) v = tablePath cfg (callSize cfg flags) virt := by
    intro v hv
    have hsame := samePage_of_mem_callPages halign hv
    by_cases hsplit : Split cfg flags
    · rw [show getPageSize flags = .llPage from hsplit.1] at hsame
      rw [callSize_of_split hsplit, tablePath_lPage, tablePath_lPage]
      exact hsame
    · rw [callSize_of_not_split hsplit]
      exact (List.append_inj' hsame rfl).1
  have hall : Enough cfg pm (callSize cfg flags) (callPages cfg flags virt) := by
    have habsent : absent cfg pm (callSize cfg flags) (callPages cfg flags virt) ⊆
        absent cfg pm (callSize cfg flags) [virt] := by
      intro l hl
      obtain ⟨⟨v, hv, hpre⟩, hnone⟩ := mem_absent.mp hl
      exact mem_absent.mpr ⟨⟨virt, List.mem_singleton_self virt, hpath v hv ▸ hpre⟩, hnone⟩
    unfold Enough
    refine (Finset.card_le_card habsent).trans ?_
    rwa [card_absent_singleton]
  rcases h.internalMap_cases hnot phys with ⟨pm', heq, -⟩ | ⟨pm', heq, hshort, -⟩
  · rw [heq]
  · exact absurd hall hshort

theorem bytes_mul_lt {n : ℕ} (hn : n < pageCount s size) : s.bytes.toNat * n < size.toNat := by
  unfold pageCount divRoundUp at hn
  rw [PageSize.toNat_bytes] at hn ⊢
  cases s <;> simp only [PageSize.shift] at hn ⊢ <;> omega

/-- The size of the rollback, after `n` pages and one that failed. -/
theorem pageCount_rollback {n : ℕ} (hn : s.bytes.toNat * (n + 1) < 2 ^ 64) :
    pageCount .page (s.bytes * BitVec.ofNat 64 (n + 1) - s.bytes) =
      n * (s.bytes.toNat / PageSize.page.bytes.toNat) := by
  have hsize : s.bytes * BitVec.ofNat 64 (n + 1) - s.bytes = s.bytes * BitVec.ofNat 64 n := by
    rw [BitVec.ofNat_add, BitVec.mul_add]
    simp
  have hnat : (s.bytes * BitVec.ofNat 64 n).toNat = s.bytes.toNat * n := by
    rw [BitVec.toNat_mul, BitVec.toNat_ofNat, Nat.mul_mod_mod, Nat.mod_eq_of_lt]
    exact (Nat.mul_le_mul_left _ n.le_succ).trans_lt hn
  unfold pageCount divRoundUp
  rw [hsize, hnat, PageSize.toNat_bytes, PageSize.toNat_bytes]
  cases s <;> simp only [PageSize.shift] <;> omega

/-- Where a call of `MapRange` that returns false stopped. -/
theorem Mixed.mapRangeSized_false (h : Mixed cfg pm) (hnull : NullEmpty cfg pm)
    (hunmapped : ∀ n < pageCount (getPageSize flags) size,
      leafOf cfg pm (pageAt (getPageSize flags) virt n) = none)
    (hfalse : (mapRangeSized cfg pm virt phys size flags).1 = false) :
    ∃ n pm₁ pm₂, n < pageCount (getPageSize flags) size ∧
      RangeMapped cfg flags virt pm n pm₁ ∧
      internalMap cfg pm₁ (pageAt (getPageSize flags) virt n) (pageAt (getPageSize flags) phys n)
        flags = (false, pm₂) ∧
      GaveUp cfg flags (pageAt (getPageSize flags) virt n) pm₁ pm₂ ∧
      (mapRangeSized cfg pm virt phys size flags).2 = (unmapRange cfg pm₂ virt
        ((getPageSize flags).bytes * BitVec.ofNat 64 n - (getPageSize flags).bytes) 0).2 := by
  have hstart : RangeMapped cfg flags virt pm 0 pm :=
    ⟨h, hnull, fun _ => rfl, fun _ _ => rfl, fun m hm => absurd hm (Nat.not_lt_zero m)⟩
  have hturn : ∀ n pm₁ pm₂, n < pageCount (getPageSize flags) size →
      RangeMapped cfg flags virt pm n pm₁ →
      mapTurn cfg virt phys flags pm₁ n = (true, pm₂) →
      RangeMapped cfg flags virt pm (n + 1) pm₂ := by
    intro n pm₁ pm₂ hn hmapped hbody
    unfold mapTurn at hbody
    rcases hmapped.mixed.internalMap_cases (hmapped.notInLarger (hunmapped n hn)) _ with
      ⟨pm₃, heq, hnext⟩ | ⟨pm₃, heq, -⟩
    · rw [heq] at hbody
      obtain ⟨-, rfl⟩ := Prod.mk.inj hbody
      exact hmapped.succ hnext
    · rw [heq] at hbody
      cases hbody
  rcases untilFailure_range_cases _ hstart hturn with
    ⟨pm', heq, -⟩ | ⟨n, pm₁, pm', hn, hmapped, hbody, heq⟩
  · unfold mapRangeSized at hfalse
    rw [heq] at hfalse
    cases hfalse
  · unfold mapTurn at hbody
    rcases hmapped.mixed.internalMap_cases (hmapped.notInLarger (hunmapped n hn)) _ with
      ⟨pm₃, hcall, -⟩ | ⟨pm₃, hcall, -, hgave⟩
    · rw [hcall] at hbody
      cases hbody
    · rw [hcall] at hbody
      refine ⟨n, pm₁, pm₃, hn, hmapped, hcall, hgave hmapped.nullEmpty, ?_⟩
      unfold mapRangeSized
      rw [heq]
      exact (Prod.mk.inj hbody).2.symm

/-- The second 4 KiB of an aligned large page are inside it. -/
theorem samePage_second (halign : virt % s.bytes = 0) (hle : s.depth ≤ t.depth) (ht : t ≠ .page) :
    SamePage cfg t (pageAt .page virt 1) virt := by
  apply samePage_of_shift
  apply BitVec.eq_of_toNat_eq
  rw [mod_bytes_eq_zero_iff] at halign
  rw [BitVec.toNat_ushiftRight, BitVec.toNat_ushiftRight, toNat_pageAt, PageSize.toNat_bytes,
    Nat.shiftRight_eq_div_pow, Nat.shiftRight_eq_div_pow]
  have hvirt := virt.isLt
  cases t with
  | page => exact absurd rfl ht
  | lPage =>
    cases s with
    | page => exact absurd hle (by decide)
    | lPage => simp only [PageSize.shift] at halign ⊢; omega
    | llPage => simp only [PageSize.shift] at halign ⊢; omega
  | llPage =>
    cases s with
    | page => exact absurd hle (by decide)
    | lPage => exact absurd hle (by decide)
    | llPage => simp only [PageSize.shift] at halign ⊢; omega

/-- After a failure at a later page, the page before it stays mapped. -/
theorem RangeMapped.left_behind {n : ℕ} {pm₁ pm₂ : PageMap}
    (h : RangeMapped cfg flags virt pm (n + 1) pm₁)
    (halign : virt % (getPageSize flags).bytes = 0)
    (hcanonical : ∀ m ≤ n + 1, Canonical cfg (pageAt (getPageSize flags) virt m))
    (hn : (getPageSize flags).bytes.toNat * (n + 1) < 2 ^ 64)
    (hgave : GaveUp cfg flags (pageAt (getPageSize flags) virt (n + 1)) pm₁ pm₂) :
    leafOf cfg (unmapRange cfg pm₂ virt ((getPageSize flags).bytes * BitVec.ofNat 64 (n + 1) -
      (getPageSize flags).bytes) 0).2 (pageAt (getPageSize flags) virt n) ≠ none := by
  obtain ⟨ghost, k, i, hlinked, ⟨u, hu, hpre⟩, hsame⟩ := hgave
  have hbytes : ∀ m ≤ n + 1, (getPageSize flags).bytes.toNat * m < 2 ^ 64 :=
    fun m hm => (Nat.mul_le_mul_left _ hm).trans_lt hn
  -- the pages that were mapped still are, in the ghost
  have hghost : ∀ m < n + 1, ∃ e, leafOf cfg ghost (pageAt (getPageSize flags) virt m) =
      some (callSize cfg flags, e) := by
    intro m hm
    rw [hsame _ fun v hv => not_samePage_callPages halign (hbytes m hm.le) hn hm.ne
      ⟨hcanonical m hm.le, hcanonical _ le_rfl⟩ hv]
    exact h.mapped m hm _ (virt_mem_callPages cfg flags _)
  obtain ⟨e, hleaf⟩ := hghost n n.lt_succ_self
  suffices hkept : leafOf cfg (unmapRange cfg pm₂ virt
      ((getPageSize flags).bytes * BitVec.ofNat 64 (n + 1) - (getPageSize flags).bytes) 0).2
      (pageAt (getPageSize flags) virt n) =
      leafOf cfg ghost (pageAt (getPageSize flags) virt n) by
    rw [hkept, hleaf]
    exact Option.some_ne_none _
  have hcount := pageCount_rollback hn
  have hother : ∀ m < n, ¬SamePage cfg (callSize cfg flags) (pageAt (getPageSize flags) virt n)
      (pageAt (getPageSize flags) virt m) := by
    intro m hm
    exact not_samePage_callPages halign (hbytes n (by omega)) (hbytes m (by omega)) hm.ne'
      ⟨hcanonical n (by omega), hcanonical m (by omega)⟩ (virt_mem_callPages cfg flags _)
  by_cases hpage : getPageSize flags = .page
  · have hsize : callSize cfg flags = .page := by
      rw [callSize_of_not_split fun hsplit => absurd (hpage.symm.trans hsplit.1) (by decide), hpage]
    rw [hpage, PageSize.toNat_bytes, Nat.div_self (by decide), Nat.mul_one] at hcount
    rw [hpage] at hghost hother ⊢
    rw [hsize] at hghost hother
    refine hlinked.leafOf_unmapRange fun m hm => ?_
    rw [hcount] at hm
    refine ⟨fun t e' hleaf' => ?_, hother m hm⟩
    obtain ⟨e₁, hleaf₁⟩ := hghost m (hm.trans n.lt_succ_self)
    rw [hleaf₁] at hleaf'
    rw [← (Prod.mk.inj (Option.some.inj hleaf')).1]
  · have hlarge : callSize cfg flags ≠ .page := by
      intro hsize
      by_cases hsplit : Split cfg flags
      · rw [callSize_of_split hsplit] at hsize
        cases hsize
      · exact hpage ((callSize_of_not_split hsplit).symm.trans hsize)
    cases n with
    | zero =>
      -- there is nothing to roll back
      rw [Nat.zero_mul] at hcount
      rw [unmapRange_zero, hcount, List.range_zero]
      exact hlinked.leafOf_eq _
    | succ n =>
      obtain ⟨e₀, hleaf₀⟩ := hghost 0 (Nat.succ_pos _)
      rw [pageAt_zero] at hleaf₀
      have hlink : (k ++ [i]).length ≤ (tablePath cfg (callSize cfg flags) virt).length := by
        have hle := hpre.length_le
        have hu := length_tablePath cfg (callSize cfg flags) u
        have hvirt := length_tablePath cfg (callSize cfg flags) virt
        omega
      have hfirst := hother 0 (Nat.succ_pos n)
      rw [pageAt_zero] at hfirst
      refine hlinked.leafOf_unmapRange_large hlarge hlink hleaf₀
        (samePage_second halign (depth_callSize_le cfg flags) hlarge) hfirst ?_
      rw [hcount]
      have hratio : 2 ≤ (getPageSize flags).bytes.toNat / PageSize.page.bytes.toNat := by
        cases hsize : getPageSize flags with
        | page => exact absurd hsize hpage
        | lPage => decide
        | llPage => decide
      exact hratio.trans (Nat.le_mul_of_pos_left _ n.succ_pos)

/-! ## When nothing is left of the call -/

/-- A call whose first entry can be reached and that fails all the same leaves a page behind. -/
theorem Mixed.not_sameTranslations_of_enough (h : Mixed cfg pm) (hnull : NullEmpty cfg pm)
    (hunmapped : ∀ n < pageCount (getPageSize flags) size,
      leafOf cfg pm (pageAt (getPageSize flags) virt n) = none)
    (hfalse : (mapRangeSized cfg pm virt phys size flags).1 = false)
    (halign : virt % (getPageSize flags).bytes = 0)
    (hcanonical : ∀ n < pageCount (getPageSize flags) size,
      Canonical cfg (pageAt (getPageSize flags) virt n))
    (henough : missingTables cfg pm (callSize cfg flags) virt ≤ pm.supply.length) :
    ¬SameTranslations cfg pm (mapRangeSized cfg pm virt phys size flags).2 := by
  intro hsame
  obtain ⟨n, pm₁, pm₂, hn, hmapped, hcall, hgave, heq⟩ :=
    h.mapRangeSized_false hnull hunmapped hfalse
  cases n with
  | zero =>
    have hfirst := h.internalMap_first halign
      (hmapped.start rfl ▸ pageAt_zero (getPageSize flags) virt ▸
        hmapped.notInLarger (hunmapped 0 hn)) henough phys
    rw [hmapped.start rfl, pageAt_zero, pageAt_zero] at hcall
    rw [hcall] at hfirst
    cases hfirst
  | succ n =>
    have hleft := hmapped.left_behind halign (fun m hm => hcanonical m (hm.trans_lt hn))
      ((bytes_mul_lt hn).trans size.isLt) hgave
    have hkept := hsame (pageAt (getPageSize flags) virt n)
    unfold translate at hkept
    rw [heq, hunmapped n (n.lt_succ_self.trans hn)] at hkept
    exact hleft (Option.map_eq_none_iff.mp hkept)

/-- `MapRange` of a range that was not mapped, when it returns false: all translations are as before
if the page at physical address 0, which is linked for the table that is missing, is empty, the
entry of the first page could not be reached, and the rollback, which then runs over almost all
addresses, meets nothing that is mapped. For a range that starts at a multiple of the page size, of
canonical addresses, that is the exact condition as long as that page is empty: after a failure at a
later page the page before it stays mapped. -/
theorem Mixed.mapRange_restores_iff (h : Mixed cfg pm)
    (hunmapped : ∀ n < size.toNat, leafOf cfg pm (virt + BitVec.ofNat 64 n) = none)
    (hfalse : (mapRangeSized cfg pm virt phys size flags).1 = false) :
    (NullEmpty cfg pm ∧ FailsAtOnce cfg pm virt flags →
      SameTranslations cfg pm (mapRangeSized cfg pm virt phys size flags).2) ∧
    (NullEmpty cfg pm → virt % (getPageSize flags).bytes = 0 →
      (∀ n < pageCount (getPageSize flags) size,
        Canonical cfg (pageAt (getPageSize flags) virt n)) →
      (SameTranslations cfg pm (mapRangeSized cfg pm virt phys size flags).2 ↔
        FailsAtOnce cfg pm virt flags)) := by
  have hpages : ∀ n < pageCount (getPageSize flags) size,
      leafOf cfg pm (pageAt (getPageSize flags) virt n) = none := by
    intro n hn
    have hpage := hunmapped _ (bytes_mul_lt hn)
    rwa [BitVec.ofNat_mul, BitVec.ofNat_toNat, BitVec.setWidth_eq] at hpage
  have hpos : 0 < pageCount (getPageSize flags) size := by
    by_contra hzero
    rw [mapRangeSized, Nat.eq_zero_of_not_pos hzero] at hfalse
    cases hfalse
  have hvirt : leafOf cfg pm virt = none := by
    rw [← pageAt_zero (getPageSize flags) virt]
    exact hpages 0 hpos
  have hsufficient (hnull : NullEmpty cfg pm) (hfails : FailsAtOnce cfg pm virt flags) :=
    h.sameTranslations_of_failsAtOnce hnull hpos hvirt hfails phys
  refine ⟨fun hcondition => hsufficient hcondition.1 hcondition.2,
    fun hnull halign hcanonical => ⟨fun hsame => ?_, hsufficient hnull⟩⟩
  have hshort : pm.supply.length < missingTables cfg pm (callSize cfg flags) virt := by
    by_contra hle
    exact h.not_sameTranslations_of_enough hnull hpages hfalse halign hcanonical
      (Nat.le_of_not_lt hle) hsame
  refine ⟨hshort, fun hsize hcount => ?_⟩
  by_contra hquiet
  have hnot : NotInLarger cfg pm (callSize cfg flags) virt := notInLarger_of_none hvirt
  obtain ⟨k, rest, i, p, ghost, hfirst, hexhausted⟩ := h.internalMap_of_short hnot hshort phys
  have hrest := hexhausted.rest_eq_nil_iff.mpr hcount
  rw [hsize] at hexhausted
  obtain ⟨v, hmapped, hgone⟩ := hexhausted.unmapRange_not_quiet h hnull hrest hvirt hquiet
  have hkept := hsame v
  unfold translate at hkept
  rw [mapRangeSized_of_false hpos hfirst, hgone] at hkept
  exact hmapped (Option.map_eq_none_iff.mp hkept.symm)

/-- An empty page map with the first `n` of the twelve tables at hand. -/
def emptyWith (n : ℕ) : PageMap := withRoot 0xffff800000200000 (someTables.take n)

theorem mixed_emptyWith (n : ℕ) : Mixed level4At (emptyWith n) := by
  have hsub : (0xffff800000200000 :: someTables.take n).Sublist
      (0xffff800000200000 :: someTables) := (List.take_sublist n someTables).cons_cons _
  exact mixed_withRoot ⟨freshTables_someTables.nodup.sublist hsub,
    fun p hp => freshTables_someTables.isTablePtr p (hsub.subset hp)⟩

theorem nullEmpty_emptyWith (n : ℕ) : NullEmpty level4At (emptyWith n) := by
  have hnone : (emptyWith n).tables (level4At.toHigherHalf 0) = none :=
    (by decide : (emptyWith 0).tables (level4At.toHigherHalf 0) = none)
  refine ⟨fun node hnode => ?_, fun l hl hp => ?_, fun hmem => ?_⟩
  · rw [hnone] at hnode
    cases hnode
  · obtain ⟨node, hnode⟩ := (mixed_emptyWith n).tree.closed l _ hl hp
    rw [hnone] at hnode
    cases hnode
  · have hnot : level4At.toHigherHalf 0 ∉ someTables := by decide
    exact hnot (List.mem_of_mem_take hmem)

/-- Without tables, mapping two pages fails at once and leaves nothing. -/
theorem mapRange_restores_no_tables :
    SameTranslations level4At (emptyWith 0)
      (mapRangeSized level4At (emptyWith 0) 0x1ff000 0x7000 0x2000 PageAttributes.write).2 := by
  have hcount : pageCount (getPageSize PageAttributes.write) 0x2000 = 2 := by decide
  refine ((Mixed.mapRange_restores_iff (mixed_emptyWith 0)
    (fun n _ => leafOf_withRoot _ _ _) (by decide)).2 (nullEmpty_emptyWith 0) (by decide)
    fun n hn => ?_).mpr ⟨by decide, ?_⟩
  · rw [hcount] at hn
    obtain rfl | rfl : n = 0 ∨ n = 1 := by omega
    · decide
    · decide
  · intro _ hmissing
    exact absurd hmissing (by decide)

/-- With tables for the first of two pages only, the call returns false and the first page stays
mapped. -/
theorem not_restored_second_page :
    Mixed level4At (emptyWith 3) ∧ NullEmpty level4At (emptyWith 3) ∧
    (∀ v, leafOf level4At (emptyWith 3) v = none) ∧
    (mapRangeSized level4At (emptyWith 3) 0x1ff000 0x7000 0x2000 PageAttributes.write).1 = false ∧
    ¬SameTranslations level4At (emptyWith 3)
      (mapRangeSized level4At (emptyWith 3) 0x1ff000 0x7000 0x2000 PageAttributes.write).2 := by
  refine ⟨mixed_emptyWith 3, nullEmpty_emptyWith 3, leafOf_withRoot _ _, by decide, fun hsame => ?_⟩
  have hkept := hsame 0x1ff000
  exact absurd hkept (by decide)

end PageMap

end Cryptix.Memory
