import Cryptix.Memory.MixedPages

/-!
# `Virt2Pte` on a page map with pages of all sizes

`Virt2Pte` goes down one table after the other and stops at the first large entry, whatever size it
was asked for. So it gets to the entry that maps the address if that is no smaller than the size
asked for (`virt2Pte_of_leaf`), and otherwise to the entry of the size asked for. With allocation it
links the tables that are missing on the way, which nobody can see (`Extended.leafOf_eq`), or runs
out of them and links the null pointer (`virt2Pte_allocate`).
-/

namespace Cryptix.Memory

open Lib

namespace PageMap

open PageTableEntry

variable {cfg : Paging} {pm pm' : PageMap} {l : List TableIndex} {p q v w : Word} {i : TableIndex}
  {s t size : PageSize} {e : PageTableEntry}

/-! ## Linking tables -/

/-- `pm'` has the tables of `pm` and those that were missing on the way to `l`. -/
structure Extended (cfg : Paging) (pm pm' : PageMap) (l : List TableIndex) : Prop where
  mixed : Mixed cfg pm'
  word : ∀ k i, k.length < levels cfg → wordAt cfg pm' k i = wordAt cfg pm k i ∨
    wordAt cfg pm k i = 0 ∧ k.length + 1 < levels cfg ∧ tablePtr cfg (wordAt cfg pm' k i) ≠ none
  tableAt_none : ∀ k, k.length < levels cfg →
    (tableAt cfg pm' k = none ↔ tableAt cfg pm k = none ∧ ¬k <+: l)
  tableAt_some : ∀ k p, k.length < levels cfg → tableAt cfg pm k = some p →
    tableAt cfg pm' k = some p
  supply_subset : pm'.supply ⊆ pm.supply
  tableAt_new : ∀ k p, k.length < levels cfg → tableAt cfg pm' k = some p →
    tableAt cfg pm k = some p ∨ p ∈ pm.supply
  tables_eq : ∀ r ∉ pm.supply, (∀ k, k.length < levels cfg → tableAt cfg pm k ≠ some r) →
    pm'.tables r = pm.tables r

theorem isLarge_of_tablePtr (h : tablePtr cfg e ≠ none) : e.isLarge = false := by
  rw [← Bool.not_eq_true]
  exact fun hlarge => h (tablePtr_of_isLarge hlarge)

/-- The word that leads to a table is not large. -/
theorem isLarge_of_tableAt (h : tableAt cfg pm (l ++ [i]) = some p) :
    (wordAt cfg pm l i).isLarge = false := by
  have hptr : tablePtr cfg (wordAt cfg pm l i) ≠ none := by
    rw [← tableAt_concat, h]
    exact Option.some_ne_none p
  exact isLarge_of_tablePtr hptr

/-- A path goes through the tables on the way. -/
theorem exists_tableAt_of_le {k : List TableIndex} (hk : k <+: l)
    (hl : tableAt cfg pm l = some p) : ∃ q, tableAt cfg pm k = some q := by
  obtain ⟨rest, rfl⟩ := hk
  unfold tableAt at hl ⊢
  rw [Radix.walk_append] at hl
  obtain ⟨q, hq, -⟩ := Option.bind_eq_some_iff.mp hl
  exact ⟨q, hq⟩

namespace Extended

theorem refl (h : Mixed cfg pm) (hl : tableAt cfg pm l = some p) : Extended cfg pm pm l := by
  refine ⟨h, fun _ _ _ => .inl rfl, fun k _ => ⟨fun hnone => ⟨hnone, fun hk => ?_⟩, And.left⟩,
    fun _ _ _ hk => hk, List.Subset.refl _, fun _ _ _ => .inl, fun _ _ _ => rfl⟩
  obtain ⟨q, hq⟩ := exists_tableAt_of_le hk hl
  rw [hq] at hnone
  cases hnone

theorem trans {pm'' : PageMap} {l' : List TableIndex} (h : Extended cfg pm pm' l)
    (h' : Extended cfg pm' pm'' l') (hl : l <+: l') : Extended cfg pm pm'' l' := by
  refine ⟨h'.mixed, fun k i hk => ?_, fun k hk => ?_,
    fun k p hk hp => h'.tableAt_some k p hk (h.tableAt_some k p hk hp),
    List.Subset.trans h'.supply_subset h.supply_subset, fun k p hk hp => ?_, fun r hr hnot => ?_⟩
  · rcases h'.word k i hk with heq' | ⟨hzero', hlen, hptr'⟩
    · rw [heq']
      exact h.word k i hk
    · rcases h.word k i hk with heq | ⟨-, -, hptr⟩
      · exact .inr ⟨heq ▸ hzero', hlen, hptr'⟩
      · rw [hzero', tablePtr_zero] at hptr
        exact absurd rfl hptr
  · rw [h'.tableAt_none k hk, h.tableAt_none k hk, and_assoc]
    refine and_congr_right fun _ => ⟨And.right, fun hnot => ⟨fun hle => hnot (hle.trans hl), hnot⟩⟩
  · rcases h'.tableAt_new k p hk hp with hp | hmem
    · exact h.tableAt_new k p hk hp
    · exact .inr (h.supply_subset hmem)
  · rw [h'.tables_eq r (fun hmem => hr (h.supply_subset hmem)), h.tables_eq r hr hnot]
    intro k hk hr'
    exact (h.tableAt_new k r hk hr').elim (hnot k hk) hr

/-- A word that is not large stays so. -/
theorem isLarge_eq_false (h : Extended cfg pm pm' l) {k : List TableIndex}
    (hk : k.length < levels cfg) (hsmall : (wordAt cfg pm k i).isLarge = false) :
    (wordAt cfg pm' k i).isLarge = false := by
  rcases h.word k i hk with heq | ⟨-, -, hptr⟩
  · rw [heq, hsmall]
  · exact isLarge_of_tablePtr hptr

/-- New tables are empty, so that no address is seen differently. -/
theorem leafOf_eq (h : Extended cfg pm pm' l) (v : Word) : leafOf cfg pm' v = leafOf cfg pm v := by
  apply leafOf_congr
  intro s
  rcases h.word _ (entryIndex s v) (length_tablePath_lt cfg s v) with heq | ⟨hzero, hlen, hptr⟩
  · unfold PageMap.word
    rw [heq]
  · have hs : s ≠ .page := by
      rintro rfl
      have := length_tablePath cfg .page v
      have hdepth : PageSize.page.depth = 2 := rfl
      omega
    obtain ⟨q, hq⟩ := Option.ne_none_iff_exists'.mp hptr
    unfold PageMap.word
    rw [hzero, leafIn_zero, leafIn_of_tablePtr hq hs]

/-- The entries of the pages whose table is linked are those that were there. -/
theorem word_eq (h : Extended cfg pm pm' (tablePath cfg s v)) (w : Word) :
    PageMap.word cfg pm' s w = PageMap.word cfg pm s w := by
  rcases h.word _ (entryIndex s w) (length_tablePath_lt cfg s w) with heq | ⟨hzero, hlen, hptr⟩
  · exact heq
  · refine absurd ?_ hptr
    rw [← tableAt_concat, h.tableAt_none _ (by simpa using hlen), tableAt_concat, hzero,
      tablePtr_zero]
    refine ⟨rfl, fun hpre => ?_⟩
    have hle := hpre.length_le
    have hv := length_tablePath cfg s v
    have hw := length_tablePath cfg s w
    rw [List.length_append, List.length_singleton] at hle
    omega

end Extended

theorem tablePtr_linkWord (h : IsTablePtr cfg q) : tablePtr cfg (linkWord cfg q) = some q := by
  have hnext := h.nextPtr_linkWord
  rw [nextPtr, if_pos h.isValid_linkWord] at hnext
  rw [tablePtr, if_pos ⟨h.isValid_linkWord, by simp [h.isLarge_linkWord]⟩, hnext]

/-- Linking a table of the supply under a word that is 0. -/
theorem Mixed.linked (h : Mixed cfg pm) {rest : List Word} (hsupply : pm.supply = q :: rest)
    (hlen : l.length + 1 < levels cfg) (hp : tableAt cfg pm l = some p)
    (hword : wordAt cfg pm l i = 0) :
    Extended cfg pm (linked cfg pm p i q rest) (l ++ [i]) ∧
      tableAt cfg (PageMap.linked cfg pm p i q rest) (l ++ [i]) = some q := by
  obtain ⟨hfresh, hptr⟩ := h.supply_fresh q (by rw [hsupply]; exact List.mem_cons_self)
  obtain ⟨node, hnode⟩ := h.tree.closed l p (by omega) hp
  have hlink : Radix.Linkable (tablePtr cfg) pm.tables pm.topLevel (levels cfg) l p i q
      (linkWord cfg q) 0 := by
    refine ⟨hlen, hp, fun node' hnode' => ?_, hfresh, tablePtr_linkWord hptr, tablePtr_zero⟩
    rw [wordAt_of_tableAt hp, entry, hnode'] at hword
    rw [show node' i = 0 from hword, tablePtr_zero]
  have hwords : ∀ k j, k.length < levels cfg →
      wordAt cfg (PageMap.linked cfg pm p i q rest) k j =
        if k ++ [j] = l ++ [i] then linkWord cfg q else wordAt cfg pm k j :=
    fun k j hk => h.tree.leafWord_linked hlink hk j
  have htables : ∀ k, k.length < levels cfg →
      tableAt cfg (PageMap.linked cfg pm p i q rest) k =
        if k = l ++ [i] then some q else tableAt cfg pm k :=
    fun k hk => h.tree.walk_link hlink hk
  have hnone : tableAt cfg pm (l ++ [i]) = none := by
    rw [tableAt_concat, hword, tablePtr_zero]
  have hlen' : (l ++ [i]).length < levels cfg := by
    rw [List.length_append, List.length_singleton]
    omega
  have hnodup := h.supply_nodup
  rw [hsupply, List.nodup_cons] at hnodup
  have hmixed : Mixed cfg (PageMap.linked cfg pm p i q rest) := by
    refine ⟨h.root_ne, h.tree.link hlink, fun k j hk => ?_, fun k j hk => ?_, fun hno w => ?_,
      hnodup.2, fun r hr => ?_⟩
    · rw [hwords k j hk]
      split
      · exact .inr hptr.isValid_linkWord
      · exact h.valid k j hk
    · rw [hwords k j (by omega)]
      split
      · exact hptr.isLarge_linkWord
      · exact h.small k j hk
    · rw [word, hwords _ _ (length_tablePath_lt cfg _ w)]
      split
      · exact hptr.isLarge_linkWord
      · exact h.noLLPage hno w
    · obtain ⟨hr₁, hr₂⟩ := h.supply_fresh r (by rw [hsupply]; exact List.mem_cons_of_mem _ hr)
      have hrq : r ≠ q := by
        rintro rfl
        exact hnodup.1 hr
      have hrp : r ≠ p := by
        rintro rfl
        rw [hr₁] at hnode
        cases hnode
      refine ⟨?_, hr₂⟩
      show Radix.write (Radix.alloc pm.tables q 0) p i _ r = none
      rw [Radix.write_of_ne hrp, Radix.alloc, Function.update_of_ne hrq, hr₁]
  refine ⟨⟨hmixed, fun k j hk => ?_, fun k hk => ?_, fun k r hk hr => ?_, ?_, fun k r hk hr => ?_,
    fun r hr hnot => ?_⟩, ?_⟩
  · rw [hwords k j hk]
    split
    · rename_i heq
      obtain ⟨rfl, hj⟩ := List.append_inj' heq rfl
      obtain rfl := List.singleton_injective hj
      refine .inr ⟨hword, hlen, ?_⟩
      rw [tablePtr_linkWord hptr]
      exact Option.some_ne_none q
    · exact .inl rfl
  · rw [htables k hk]
    split
    · rename_i heq
      subst heq
      simp
    · rename_i hne
      refine ⟨fun hk' => ⟨hk', fun hle => ?_⟩, And.left⟩
      -- a shorter path on the way to the new table ends at a table
      have hlt : k <+: l := by
        rcases List.prefix_concat_iff.mp hle with heq | hle
        · exact absurd heq hne
        · exact hle
      obtain ⟨r, hr⟩ := exists_tableAt_of_le hlt hp
      rw [hr] at hk'
      cases hk'
  · rw [htables k hk, if_neg, hr]
    rintro rfl
    rw [hnone] at hr
    cases hr
  · rw [hsupply]
    exact List.subset_cons_self _ _
  · rw [htables k hk] at hr
    split at hr
    · rw [← Option.some.inj hr, hsupply]
      exact .inr List.mem_cons_self
    · exact .inl hr
  · have hrq : r ≠ q := by
      rintro rfl
      exact hr (by rw [hsupply]; exact List.mem_cons_self)
    have hrp : r ≠ p := by
      rintro rfl
      exact hnot l (by omega) hp
    show Radix.write (Radix.alloc pm.tables q 0) p i _ r = pm.tables r
    rw [Radix.write_of_ne hrp, Radix.alloc, Function.update_of_ne hrq]
  · rw [htables _ hlen', if_pos rfl]

/-! ## Going down -/

/-- `NextLevel` along a path. -/
def descend (cfg : Paging) (allocate : Bool) :
    PageMap → Word → List TableIndex → Option Word × PageMap
  | pm, p, [] => (some p, pm)
  | pm, p, i :: path =>
    withTable (nextLevel cfg pm p i allocate) fun q pm => descend cfg allocate pm q path

/-- The number of tables that are missing on the way from `l` along a path. -/
def missing (cfg : Paging) (pm : PageMap) (l : List TableIndex) : List TableIndex → ℕ
  | [] => 0
  | i :: path =>
    (if tableAt cfg pm (l ++ [i]) = none then 1 else 0) + missing cfg pm (l ++ [i]) path

/-- The way along a path ended at the entry `i` of the table `p` at `k`, where all tables of the
supply are linked and one more is missing. -/
structure Exhausted (cfg : Paging) (pm : PageMap) (l path k rest : List TableIndex)
    (i : TableIndex) (p : Word) (pm' : PageMap) : Prop where
  path_eq : path = k ++ i :: rest
  ext : Extended cfg pm pm' (l ++ k)
  at_p : tableAt cfg pm' (l ++ k) = some p
  vacant : wordAt cfg pm (l ++ k) i = 0
  count : missing cfg pm l path = pm.supply.length + 1 + rest.length
  empty : pm'.supply = []

/-- What going down along a path does: it reaches the table, linking those that are missing, or it
runs out of tables and links the null pointer in the place of the one that is missing. -/
inductive Descent (cfg : Paging) (pm : PageMap) (l path : List TableIndex) :
    Option Word × PageMap → Prop
  | reached {q : Word} {pm' : PageMap} (ext : Extended cfg pm pm' (l ++ path))
      (at_q : tableAt cfg pm' (l ++ path) = some q)
      (enough : missing cfg pm l path ≤ pm.supply.length)
      (supply_eq : pm'.supply = pm.supply.drop (missing cfg pm l path)) :
      Descent cfg pm l path (some q, pm')
  | exhausted {k rest : List TableIndex} {i : TableIndex} {p : Word} {pm' : PageMap}
      (h : Exhausted cfg pm l path k rest i p pm') :
      Descent cfg pm l path (none, pm'.setEntry p i PTE.defaultFlags)

/-- An entry that is not large leads to a table or is 0. -/
theorem Mixed.nextLevel_cases (h : Mixed cfg pm) (hlen : l.length + 1 < levels cfg)
    (hp : tableAt cfg pm l = some p) (hsmall : (wordAt cfg pm l i).isLarge = false)
    (allocate : Bool) :
    (∃ q, tableAt cfg pm (l ++ [i]) = some q ∧ nextLevel cfg pm p i allocate = (some q, pm)) ∨
    tableAt cfg pm (l ++ [i]) = none ∧ wordAt cfg pm l i = 0 := by
  rw [tableAt_concat]
  rcases h.valid l i (by omega) with hzero | hvalid
  · exact .inr ⟨by rw [hzero, tablePtr_zero], hzero⟩
  · refine .inl ⟨cfg.toHigherHalf (wordAt cfg pm l i).address, ?_, ?_⟩
    · rw [tablePtr, if_pos ⟨hvalid, by simp [hsmall]⟩]
    · rw [wordAt_of_tableAt hp] at hvalid ⊢
      unfold nextLevel
      dsimp only
      rw [if_pos hvalid]

/-- `NextLevel` at an entry that is 0. -/
theorem nextLevel_vacant (hp : tableAt cfg pm l = some p) (hword : wordAt cfg pm l i = 0) :
    nextLevel cfg pm p i true =
      match pm.supply with
      | [] => (none, pm.setEntry p i PTE.defaultFlags)
      | q :: rest => (some q, linked cfg pm p i q rest) := by
  rw [wordAt_of_tableAt hp] at hword
  have hnull : cfg.fromHigherHalf 0 = 0 := by
    unfold Paging.fromHigherHalf
    split
    · rename_i hle
      rw [BitVec.le_zero_iff.mp hle]
      rfl
    · rfl
  unfold nextLevel allocatePageTable
  rw [hword]
  cases hsupply : pm.supply with
  | nil =>
    dsimp only [Option.getD_none]
    rw [hnull]
    rfl
  | cons q rest => rfl

theorem missing_congr (path : List TableIndex)
    (h : ∀ k, l.length < k.length → k <+: l ++ path →
      (tableAt cfg pm' k = none ↔ tableAt cfg pm k = none)) :
    missing cfg pm' l path = missing cfg pm l path := by
  induction path generalizing l with
  | nil => rfl
  | cons i path ih =>
    have hself := h (l ++ [i]) (by simp) ⟨path, by simp⟩
    rw [missing, missing, ih]
    · simp only [hself]
    · intro k hk hle
      apply h k
      · rw [List.length_append] at hk
        omega
      · simpa using hle

/-- Below a table that is missing all tables are. -/
theorem missing_of_none (path : List TableIndex) (h : tableAt cfg pm l = none) :
    missing cfg pm l path = path.length := by
  induction path generalizing l with
  | nil => rfl
  | cons i path ih =>
    have hnext : tableAt cfg pm (l ++ [i]) = none := by
      rw [tableAt_concat, wordAt_of_none h, tablePtr_zero]
    rw [missing, if_pos hnext, ih hnext, List.length_cons, Nat.add_comm]

/-- The descent of `NextLevel`, by induction along the path. -/
theorem Mixed.descend_spec (h : Mixed cfg pm) (path : List TableIndex)
    (hlen : l.length + path.length < levels cfg) (hp : tableAt cfg pm l = some p)
    (hsmall : ∀ k j rest, path = k ++ j :: rest → (wordAt cfg pm (l ++ k) j).isLarge = false) :
    Descent cfg pm l path (descend cfg true pm p path) := by
  induction path generalizing pm l p with
  | nil =>
    refine .reached (.refl h (p := p) ?_) ?_ (Nat.zero_le _) rfl
    · rwa [List.append_nil]
    · rwa [List.append_nil]
  | cons i path ih =>
    rw [List.length_cons] at hlen
    have hassoc : ∀ k, l ++ [i] ++ k = l ++ i :: k := fun k => by simp
    have hfirst := hsmall [] i path rfl
    rw [List.append_nil] at hfirst
    have hlen' : (l ++ [i]).length + path.length < levels cfg := by
      rw [List.length_append, List.length_singleton]
      omega
    have hshort : ∀ k j rest, path = k ++ j :: rest → (l ++ [i] ++ k).length < levels cfg := by
      rintro k j rest rfl
      simp only [List.length_append, List.length_cons, List.length_nil] at hlen' ⊢
      omega
    have hrest : ∀ k j rest, path = k ++ j :: rest →
        (wordAt cfg pm (l ++ [i] ++ k) j).isLarge = false := by
      rintro k j rest rfl
      rw [hassoc]
      exact hsmall (i :: k) j rest rfl
    rw [descend]
    rcases h.nextLevel_cases (by omega) hp hfirst true with ⟨q, hq, hnext⟩ | ⟨hnone, hvacant⟩
    · rw [hnext]
      have hmissing : missing cfg pm l (i :: path) = missing cfg pm (l ++ [i]) path := by
        rw [missing, hq, if_neg (Option.some_ne_none q), Nat.zero_add]
      have hgo := ih h hlen' hq hrest
      show Descent cfg pm l (i :: path) (descend cfg true pm q path)
      generalize descend cfg true pm q path = result at hgo
      cases hgo with
      | reached ext at_q enough supply_eq =>
        rw [hassoc] at ext at_q
        exact .reached ext at_q (hmissing ▸ enough) (hmissing ▸ supply_eq)
      | exhausted h =>
        obtain ⟨hpath, ext, at_p, vacant, count, empty⟩ := h
        rw [hassoc] at ext at_p vacant
        exact .exhausted ⟨by rw [hpath]; rfl, ext, at_p, vacant, hmissing ▸ count, empty⟩
    · rw [nextLevel_vacant hp hvacant]
      have hmissing : missing cfg pm l (i :: path) = missing cfg pm (l ++ [i]) path + 1 := by
        rw [missing, hnone, if_pos rfl, Nat.add_comm]
      cases hsupply : pm.supply with
      | nil =>
        refine .exhausted (k := []) ⟨rfl, .refl h (p := p) ?_, ?_, ?_, ?_, hsupply⟩
        · rwa [List.append_nil]
        · rwa [List.append_nil]
        · rwa [List.append_nil]
        · rw [hsupply, hmissing, missing_of_none path hnone, List.length_nil]
          omega
      | cons q supply =>
        obtain ⟨hext, hq⟩ := h.linked hsupply (by omega) hp hvacant
        have hsame : missing cfg (PageMap.linked cfg pm p i q supply) (l ++ [i]) path =
            missing cfg pm (l ++ [i]) path := by
          apply missing_congr
          intro k hk hle
          have hle' := hle.length_le
          rw [List.length_append] at hle'
          rw [hext.tableAt_none k (by omega)]
          refine and_iff_left fun hpre => ?_
          have := hpre.length_le
          omega
        have hgo := ih hext.mixed hlen' hq fun k j rest heq =>
          hext.isLarge_eq_false (hshort k j rest heq) (hrest k j rest heq)
        show Descent cfg pm l (i :: path)
          (descend cfg true (PageMap.linked cfg pm p i q supply) q path)
        generalize descend cfg true (PageMap.linked cfg pm p i q supply) q path = result at hgo
        cases hgo with
        | reached ext at_q enough supply_eq =>
          rw [hsame] at enough supply_eq
          have htrans := hext.trans ext (List.prefix_append _ _)
          rw [hassoc] at htrans at_q
          refine .reached htrans at_q ?_ ?_
          · rw [hmissing, hsupply]
            exact Nat.succ_le_succ enough
          · rw [hmissing, hsupply, List.drop_succ_cons]
            exact supply_eq
        | @exhausted k rest j r pm'' h =>
          obtain ⟨hpath, ext, at_p, vacant, count, empty⟩ := h
          rw [hsame] at count
          have htrans := hext.trans ext (List.prefix_append _ _)
          have hzero : wordAt cfg pm (l ++ [i] ++ k) j = 0 := by
            rcases hext.word (l ++ [i] ++ k) j (hshort k j rest hpath) with heq | hzero
            · rw [← heq, vacant]
            · exact hzero.1
          rw [hassoc] at htrans at_p hzero
          refine .exhausted ⟨by rw [hpath]; rfl, htrans, at_p, hzero, ?_, empty⟩
          have hleft : (PageMap.linked cfg pm p i q supply).supply = supply := rfl
          rw [hmissing, hsupply, count, hleft, List.length_cons]
          omega

/-! ## `Virt2Pte` -/

theorem descend_append (allocate : Bool) (path path' : List TableIndex) (pm : PageMap) (p : Word) :
    descend cfg allocate pm p (path ++ path') =
      withTable (descend cfg allocate pm p path) fun q pm => descend cfg allocate pm q path' := by
  induction path generalizing pm p with
  | nil => rfl
  | cons i path ih =>
    rw [List.cons_append, descend, descend]
    rcases nextLevel cfg pm p i allocate with ⟨_ | q, pm₁⟩
    · rfl
    · exact ih pm₁ q

/-- A successful `NextLevel`. -/
theorem Mixed.nextLevel_some (h : Mixed cfg pm) (hlen : l.length + 1 < levels cfg)
    (hp : tableAt cfg pm l = some p) (hsmall : (wordAt cfg pm l i).isLarge = false)
    {allocate : Bool} (hnext : nextLevel cfg pm p i allocate = (some q, pm')) :
    Extended cfg pm pm' (l ++ [i]) ∧ tableAt cfg pm' (l ++ [i]) = some q := by
  rcases h.nextLevel_cases hlen hp hsmall allocate with ⟨r, hr, heq⟩ | ⟨-, hvacant⟩
  · rw [heq] at hnext
    obtain ⟨hq, rfl⟩ := Prod.mk.inj hnext
    obtain rfl := Option.some.inj hq
    exact ⟨.refl h hr, hr⟩
  · cases allocate with
    | false =>
      rw [nextLevel_false, ← wordAt_of_tableAt hp, hvacant, nextPtr_zero] at hnext
      cases hnext
    | true =>
      rw [nextLevel_vacant hp hvacant] at hnext
      cases hsupply : pm.supply with
      | nil =>
        rw [hsupply] at hnext
        cases hnext
      | cons r rest =>
        rw [hsupply] at hnext
        obtain ⟨hq, rfl⟩ := Prod.mk.inj hnext
        obtain rfl := Option.some.inj hq
        exact h.linked hsupply hlen hp hvacant

/-- Below `pml4`, `Virt2Pte` goes down to the table of the page, if no larger page is on the way. -/
theorem Mixed.virt2PteFrom_eq_descend (h : Mixed cfg pm) {pml4 : Word} (v : Word)
    (hl : l.length + 4 = levels cfg) (hp : tableAt cfg pm l = some pml4)
    (hsmall : ∀ t : PageSize, t.depth < size.depth →
      (wordAt cfg pm (l ++ belowPath t v) (entryIndex t v)).isLarge = false) (allocate : Bool) :
    virt2PteFrom cfg pm pml4 v allocate size =
      withTable (descend cfg allocate pm pml4 (belowPath size v)) fun p pm =>
        (some (p, entryIndex size v), pm) := by
  have hsmall₀ := h.small l (pmlIndex v 39) (by omega)
  unfold PageMap.virt2PteFrom
  rcases hnext₁ : nextLevel cfg pm pml4 (pmlIndex v 39) allocate with ⟨_ | pml3, pm₁⟩
  · cases size <;> simp [withTable, descend, belowPath, hnext₁]
  obtain ⟨hext₁, hq₁⟩ := h.nextLevel_some (by omega) hp hsmall₀ hnext₁
  have hlen₁ : (l ++ [pmlIndex v 39]).length = l.length + 1 := List.length_append
  have hlarge₁ : 0 < size.depth → (pm₁.entry pml3 (pmlIndex v 30)).isLarge = false := by
    intro hdepth
    rw [← wordAt_of_tableAt hq₁]
    exact hext₁.isLarge_eq_false (by omega) (hsmall .llPage hdepth)
  cases size with
  | llPage => simp [withTable, descend, belowPath, hnext₁, entryIndex, PageSize.shift]
  | lPage =>
    simp only [withTable, hlarge₁ (by decide), descend, belowPath, hnext₁]
    rcases hnext₂ : nextLevel cfg pm₁ pml3 (pmlIndex v 30) allocate with ⟨_ | pml2, pm₂⟩
    · simp
    · simp [entryIndex, PageSize.shift]
  | page =>
    simp only [withTable, hlarge₁ (by decide), descend, belowPath, hnext₁]
    rcases hnext₂ : nextLevel cfg pm₁ pml3 (pmlIndex v 30) allocate with ⟨_ | pml2, pm₂⟩
    · simp
    · have hfirst : (wordAt cfg pm₁ (l ++ [pmlIndex v 39]) (pmlIndex v 30)).isLarge = false :=
        hext₁.isLarge_eq_false (by omega) (hsmall .llPage (by decide))
      obtain ⟨hext₂, hq₂⟩ := hext₁.mixed.nextLevel_some (by omega) hq₁ hfirst hnext₂
      have hlen₂ : (l ++ [pmlIndex v 39] ++ [pmlIndex v 30]).length = l.length + 2 := by simp
      have hsecond := hsmall .lPage (by decide)
      rw [show l ++ belowPath .lPage v = l ++ [pmlIndex v 39] ++ [pmlIndex v 30] by
        simp [belowPath]] at hsecond
      have hlarge₂ : (pm₂.entry pml2 (pmlIndex v 21)).isLarge = false := by
        rw [← wordAt_of_tableAt hq₂]
        exact hext₂.isLarge_eq_false (by omega) (hext₁.isLarge_eq_false (by omega) hsecond)
      simp only [hlarge₂]
      rcases nextLevel cfg pm₂ pml2 (pmlIndex v 21) allocate with ⟨_ | pml1, pm₃⟩
      · simp
      · simp [entryIndex, PageSize.shift]

theorem pml4Table_eq_descend (pm : PageMap) (v : Word) (allocate : Bool) :
    pml4Table cfg pm v allocate = descend cfg allocate pm pm.topLevel (topPath cfg v) := by
  unfold pml4Table topPath
  cases cfg.mode with
  | level4 => rfl
  | level5 =>
    rw [descend]
    rcases nextLevel cfg pm pm.topLevel (pmlIndex v 48) allocate with ⟨_ | q, pm₁⟩ <;> rfl

/-- Going down to `pml4`. -/
theorem Mixed.descend_topPath (h : Mixed cfg pm) {allocate : Bool}
    (hdescend : descend cfg allocate pm pm.topLevel (topPath cfg v) = (some q, pm')) :
    Extended cfg pm pm' (topPath cfg v) ∧ tableAt cfg pm' (topPath cfg v) = some q := by
  have hlevels := levels_eq cfg v
  unfold topPath at hdescend hlevels ⊢
  cases hmode : cfg.mode with
  | level4 =>
    rw [hmode] at hdescend
    obtain ⟨hq, rfl⟩ := Prod.mk.inj hdescend
    obtain rfl := Option.some.inj hq
    exact ⟨.refl h rfl, rfl⟩
  | level5 =>
    rw [hmode] at hdescend hlevels
    simp only [List.length_singleton] at hlevels
    rw [descend] at hdescend
    rcases hnext : nextLevel cfg pm pm.topLevel (pmlIndex v 48) allocate with ⟨_ | r, pm₁⟩
    · rw [hnext] at hdescend
      cases hdescend
    · rw [hnext] at hdescend
      obtain ⟨hq, rfl⟩ := Prod.mk.inj hdescend
      obtain rfl := Option.some.inj hq
      exact h.nextLevel_some (l := []) (by rw [hlevels]; decide) rfl
        (h.small [] _ (by rw [hlevels]; decide)) hnext

/-- `Virt2Pte` goes down to the table of the page, if no larger page is on the way. -/
theorem Mixed.virt2Pte_eq_descend (h : Mixed cfg pm) (hnot : NotInLarger cfg pm size v)
    (allocate : Bool) :
    virt2Pte cfg pm v allocate size =
      withTable (descend cfg allocate pm pm.topLevel (tablePath cfg size v)) fun p pm =>
        (some (p, entryIndex size v), pm) := by
  have hlarge := h.notInLarger_iff.mp hnot
  unfold virt2Pte
  rw [if_neg h.root_ne, tablePath, descend_append, pml4Table_eq_descend]
  rcases hdescend : descend cfg allocate pm pm.topLevel (topPath cfg v) with ⟨_ | pml4, pm₀⟩
  · rfl
  obtain ⟨hext, hpml4⟩ := h.descend_topPath hdescend
  exact hext.mixed.virt2PteFrom_eq_descend v (levels_eq cfg v).symm hpml4
    (fun t ht => hext.isLarge_eq_false (length_tablePath_lt cfg t v) (hlarge t ht)) allocate

/-- On the way to a page that is inside no larger one, no word is large. -/
theorem Mixed.isLarge_on_path (h : Mixed cfg pm) (hnot : NotInLarger cfg pm size v)
    {k rest : List TableIndex} {j : TableIndex} (hpath : tablePath cfg size v = k ++ j :: rest) :
    (wordAt cfg pm k j).isLarge = false := by
  by_cases htop : k.length + 3 < levels cfg
  · exact h.small k j htop
  have hlen := length_tablePath cfg size v
  rw [hpath, List.length_append, List.length_cons] at hlen
  obtain ⟨t, ht⟩ : ∃ t : PageSize, k.length + 3 = levels cfg + t.depth := by
    have hdepth : size.depth ≤ 2 := by cases size <;> decide
    rcases (by omega : k.length + 3 = levels cfg + 0 ∨ k.length + 3 = levels cfg + 1) with hk | hk
    · exact ⟨.llPage, hk⟩
    · exact ⟨.lPage, hk⟩
  have hlt : t.depth < size.depth := by omega
  have hentry := length_entryPath cfg t v
  have hpre : k ++ [j] <+: tablePath cfg size v := ⟨rest, by rw [hpath]; simp⟩
  have hsame : (k ++ [j]).length = (entryPath cfg t v).length := by
    rw [List.length_append, List.length_singleton]
    omega
  have heq : k ++ [j] = entryPath cfg t v :=
    (List.prefix_of_prefix_length_le hpre (entryPath_le_tablePath hlt v) hsame.le).eq_of_length
      hsame
  obtain ⟨rfl, hj⟩ := List.append_inj' heq rfl
  rw [List.singleton_injective hj]
  exact h.notInLarger_iff.mp hnot t hlt

/-- Without allocation `NextLevel` at an entry that is not large goes where the path goes. -/
theorem nextLevel_false_eq (hp : tableAt cfg pm l = some p)
    (hsmall : (wordAt cfg pm l i).isLarge = false) :
    nextLevel cfg pm p i false = (tableAt cfg pm (l ++ [i]), pm) := by
  rw [nextLevel_false, tableAt_concat, wordAt_of_tableAt hp, nextPtr, tablePtr]
  rw [wordAt_of_tableAt hp] at hsmall
  simp [hsmall]

/-- Without allocation the descent only walks. -/
theorem descend_false (path : List TableIndex) (hp : tableAt cfg pm l = some p)
    (hsmall : ∀ k j rest, path = k ++ j :: rest → (wordAt cfg pm (l ++ k) j).isLarge = false) :
    descend cfg false pm p path = (tableAt cfg pm (l ++ path), pm) := by
  induction path generalizing l p with
  | nil => rw [List.append_nil, hp, descend]
  | cons i path ih =>
    have hfirst := hsmall [] i path rfl
    rw [List.append_nil] at hfirst
    have hassoc : ∀ k, l ++ [i] ++ k = l ++ i :: k := fun k => by simp
    rw [descend, nextLevel_false_eq hp hfirst, ← hassoc path]
    cases hq : tableAt cfg pm (l ++ [i]) with
    | none =>
      have hnone : tableAt cfg pm (l ++ [i] ++ path) = none := by
        unfold tableAt at hq ⊢
        rw [Radix.walk_append, hq]
        rfl
      rw [hnone]
      rfl
    | some q =>
      refine ih hq fun k j rest heq => ?_
      rw [hassoc]
      exact hsmall (i :: k) j rest (by rw [heq]; rfl)

/-- Where the tables exist, the descent finds them with or without allocation. -/
theorem Mixed.descend_of_tableAt (h : Mixed cfg pm) (path : List TableIndex) (allocate : Bool)
    (hlen : l.length + path.length < levels cfg) (hp : tableAt cfg pm l = some p)
    (hq : tableAt cfg pm (l ++ path) = some q) :
    descend cfg allocate pm p path = (some q, pm) := by
  induction path generalizing l p with
  | nil =>
    rw [List.append_nil, hp] at hq
    rw [descend, hq]
  | cons i path ih =>
    have hassoc : l ++ i :: path = l ++ [i] ++ path := by simp
    rw [List.length_cons] at hlen
    rw [hassoc] at hq
    obtain ⟨r, hr⟩ := exists_tableAt_of_le (List.prefix_append _ path) hq
    rcases h.nextLevel_cases (by omega) hp (isLarge_of_tableAt hr) allocate with
      ⟨r', hr', hnext⟩ | ⟨hnone, -⟩
    · rw [descend, hnext]
      refine ih ?_ hr' hq
      rw [List.length_append, List.length_singleton]
      omega
    · rw [hr] at hnone
      cases hnone

theorem tableAt_append_of_none (h : tableAt cfg pm l = none) (k : List TableIndex) :
    tableAt cfg pm (l ++ k) = none := by
  unfold tableAt at h ⊢
  rw [Radix.walk_append, h]
  rfl

/-- Where `Virt2Pte` without allocation gets to for a 4 KiB page, on any page map without large
entries above `pml3`: it stops at the first large entry, or where a table is missing. -/
theorem virt2Pte_false_page (hroot : pm.topLevel ≠ 0)
    (htop : ∀ l i, l.length + 3 < levels cfg → (wordAt cfg pm l i).isLarge = false) (v : Word) :
    virt2Pte cfg pm v false .page =
      (if (word cfg pm .llPage v).isLarge then
        (tableAt cfg pm (tablePath cfg .llPage v)).map fun p => (p, entryIndex .llPage v)
      else if (word cfg pm .lPage v).isLarge then
        (tableAt cfg pm (tablePath cfg .lPage v)).map fun p => (p, entryIndex .lPage v)
      else (tableAt cfg pm (tablePath cfg .page v)).map fun p => (p, entryIndex .page v), pm) := by
  have hlevels := levels_eq cfg v
  have hpml4 : pml4Table cfg pm v false = (tableAt cfg pm (topPath cfg v), pm) := by
    rw [pml4Table_eq_descend, descend_false (l := []) _ rfl, List.nil_append]
    rintro k j rest heq
    apply htop
    rw [heq] at hlevels
    simp at hlevels ⊢
    omega
  have hsmall₀ := htop (topPath cfg v) (pmlIndex v 39) (by omega)
  have hpath₂ : tablePath cfg .lPage v = tablePath cfg .llPage v ++ [pmlIndex v 30] := by
    rw [tablePath_lPage]
    rfl
  have hpath₁ : tablePath cfg .page v = tablePath cfg .lPage v ++ [pmlIndex v 21] := by
    rw [tablePath_page]
    rfl
  unfold virt2Pte
  rw [if_neg hroot, hpml4]
  cases hp₀ : tableAt cfg pm (topPath cfg v) with
  | none =>
    have hnone : ∀ s, tableAt cfg pm (tablePath cfg s v) = none :=
      fun s => tableAt_append_of_none hp₀ _
    simp [withTable, hnone]
  | some pml4 =>
    simp only [withTable, virt2PteFrom, nextLevel_false_eq hp₀ hsmall₀]
    rw [show topPath cfg v ++ [pmlIndex v 39] = tablePath cfg .llPage v from rfl]
    cases hp₁ : tableAt cfg pm (tablePath cfg .llPage v) with
    | none =>
      have hnone₂ : tableAt cfg pm (tablePath cfg .lPage v) = none :=
        hpath₂ ▸ tableAt_append_of_none hp₁ _
      have hnone₁ : tableAt cfg pm (tablePath cfg .page v) = none :=
        hpath₁ ▸ tableAt_append_of_none hnone₂ _
      simp [hnone₂, hnone₁]
    | some pml3 =>
      have hword₃ : pm.entry pml3 (pmlIndex v 30) = word cfg pm .llPage v :=
        (wordAt_of_tableAt hp₁).symm
      by_cases hlarge₃ : (word cfg pm .llPage v).isLarge = true
      · simp [hword₃, hlarge₃, entryIndex, PageSize.shift]
      rw [Bool.not_eq_true] at hlarge₃
      have hnext₂ : nextLevel cfg pm pml3 (pmlIndex v 30) false =
          (tableAt cfg pm (tablePath cfg .lPage v), pm) :=
        hpath₂ ▸ nextLevel_false_eq hp₁ hlarge₃
      simp only [hword₃, hlarge₃, hnext₂, reduceCtorEq, Bool.false_eq_true, or_self, if_false]
      cases hp₂ : tableAt cfg pm (tablePath cfg .lPage v) with
      | none =>
        have hnone₁ : tableAt cfg pm (tablePath cfg .page v) = none :=
          hpath₁ ▸ tableAt_append_of_none hp₂ _
        simp [hnone₁]
      | some pml2 =>
        have hword₂ : pm.entry pml2 (pmlIndex v 21) = word cfg pm .lPage v :=
          (wordAt_of_tableAt hp₂).symm
        by_cases hlarge₂ : (word cfg pm .lPage v).isLarge = true
        · simp [hword₂, hlarge₂, entryIndex, PageSize.shift]
        rw [Bool.not_eq_true] at hlarge₂
        have hnext₁ : nextLevel cfg pm pml2 (pmlIndex v 21) false =
            (tableAt cfg pm (tablePath cfg .page v), pm) :=
          hpath₁ ▸ nextLevel_false_eq hp₂ hlarge₂
        simp only [hword₂, hlarge₂, hnext₁, Bool.false_eq_true, or_self, if_false]
        cases tableAt cfg pm (tablePath cfg .page v) with
        | none => rfl
        | some pml1 => rfl

/-- `Virt2Pte` without allocation, for a page that is inside no larger one. -/
theorem Mixed.virt2Pte_false (h : Mixed cfg pm) (hnot : NotInLarger cfg pm size v) :
    virt2Pte cfg pm v false size =
      ((tableAt cfg pm (tablePath cfg size v)).map fun p => (p, entryIndex size v), pm) := by
  rw [h.virt2Pte_eq_descend hnot, descend_false (l := []) _ rfl fun k j rest heq =>
    h.isLarge_on_path hnot heq, List.nil_append]
  cases tableAt cfg pm (tablePath cfg size v) <;> rfl

/-- `Virt2Pte` of an address that a page of the size asked for or a larger one maps: the entry of
that page, and nothing is linked. -/
theorem Mixed.virt2Pte_of_leaf (h : Mixed cfg pm) (hleaf : leafOf cfg pm v = some (s, e))
    (hle : s.depth ≤ size.depth) (hp : tableAt cfg pm (tablePath cfg s v) = some p)
    (allocate : Bool) :
    virt2Pte cfg pm v allocate size = (some (p, entryIndex s v), pm) := by
  have hself : virt2Pte cfg pm v allocate s = (some (p, entryIndex s v), pm) := by
    have hnot : NotInLarger cfg pm s v := by
      intro t e' hleaf'
      rw [hleaf] at hleaf'
      rw [(Prod.mk.inj (Option.some.inj hleaf')).1]
    have hdescend := h.descend_of_tableAt (l := []) (tablePath cfg s v) allocate
      (by simpa using length_tablePath_lt cfg s v) rfl hp
    rw [h.virt2Pte_eq_descend hnot, hdescend]
    rfl
  rcases Nat.eq_or_lt_of_le hle with heq | hlt
  · rwa [← PageSize.depth_injective heq]
  rw [← hself]
  -- both calls stop at the large entry
  obtain ⟨hisLeaf, -⟩ := leafOf_eq_some_iff.mp hleaf
  have hs : s ≠ .page := by
    rintro rfl
    cases size <;> exact absurd hlt (by decide)
  have hlarge : (pm.entry p (entryIndex s v)).isLarge = true := by
    rw [← wordAt_of_tableAt hp]
    rw [isLeaf, Bool.and_eq_true, Bool.or_eq_true] at hisLeaf
    exact hisLeaf.2.resolve_left (by simpa using hs)
  obtain ⟨pml4, hpml4⟩ := exists_tableAt_of_le (List.prefix_append (topPath cfg v) _) hp
  have hlevels := levels_eq cfg v
  have htop : pml4Table cfg pm v allocate = (some pml4, pm) := by
    rw [pml4Table_eq_descend]
    exact h.descend_of_tableAt (l := []) _ allocate (by simp; omega) rfl hpml4
  have hstep : ∀ {k : List TableIndex} {r r' : Word} {j : TableIndex}, k.length + 1 < levels cfg →
      tableAt cfg pm k = some r → tableAt cfg pm (k ++ [j]) = some r' →
      nextLevel cfg pm r j allocate = (some r', pm) := by
    intro k r r' j hk hr hr'
    have hdescend := h.descend_of_tableAt [j] allocate (by simpa using hk) hr hr'
    rw [descend] at hdescend
    rcases hnext : nextLevel cfg pm r j allocate with ⟨_ | r'', pm₁⟩
    · rw [hnext] at hdescend
      cases hdescend
    · rw [hnext] at hdescend
      exact hdescend
  unfold virt2Pte
  rw [if_neg h.root_ne, if_neg h.root_ne, htop]
  show virt2PteFrom cfg pm pml4 v allocate size = virt2PteFrom cfg pm pml4 v allocate s
  unfold virt2PteFrom
  cases s with
  | page => exact absurd rfl hs
  | llPage =>
    have hnext := hstep (by omega) hpml4 hp
    rw [hnext]
    simp only [withTable]
    rw [if_pos (.inr hlarge), if_pos (.inl trivial)]
  | lPage =>
    obtain rfl : size = .page := by
      cases size with
      | page => rfl
      | lPage => exact absurd hlt (by decide)
      | llPage => exact absurd hlt (by decide)
    have hsplit : tablePath cfg .lPage v = topPath cfg v ++ [pmlIndex v 39] ++ [pmlIndex v 30] := by
      simp [tablePath, belowPath]
    rw [hsplit] at hp
    obtain ⟨pml3, hpml3⟩ := exists_tableAt_of_le (List.prefix_append _ [pmlIndex v 30]) hp
    have hsmall : (pm.entry pml3 (pmlIndex v 30)).isLarge = false := by
      rw [← wordAt_of_tableAt hpml3]
      exact isLarge_of_tableAt hp
    have hnext := hstep (by omega) hpml4 hpml3
    have hnext' := hstep (by simp; omega) hpml3 hp
    have hstop : (pm.entry p (pmlIndex v 21)).isLarge = true := hlarge
    simp [withTable, hnext, hsmall, hnext', hstop]

/-- The number of tables that are missing on the way to the entry of a page. -/
def missingTables (cfg : Paging) (pm : PageMap) (s : PageSize) (v : Word) : ℕ :=
  missing cfg pm [] (tablePath cfg s v)

/-- `Virt2Pte` with allocation, for a page that is inside no larger one. -/
theorem Mixed.virt2Pte_allocate (h : Mixed cfg pm) (hnot : NotInLarger cfg pm size v) :
    (∃ p pm', virt2Pte cfg pm v true size = (some (p, entryIndex size v), pm') ∧
      Extended cfg pm pm' (tablePath cfg size v) ∧
      tableAt cfg pm' (tablePath cfg size v) = some p ∧
      missingTables cfg pm size v ≤ pm.supply.length ∧
      pm'.supply = pm.supply.drop (missingTables cfg pm size v)) ∨
    ∃ k rest i p pm', virt2Pte cfg pm v true size = (none, pm'.setEntry p i PTE.defaultFlags) ∧
      Exhausted cfg pm [] (tablePath cfg size v) k rest i p pm' := by
  rw [h.virt2Pte_eq_descend hnot]
  have hgo := h.descend_spec (l := []) (tablePath cfg size v)
    (by simpa using length_tablePath_lt cfg size v) rfl fun k j rest heq =>
      h.isLarge_on_path hnot heq
  generalize descend cfg true pm pm.topLevel (tablePath cfg size v) = result at hgo
  cases hgo with
  | reached ext at_q enough supply_eq =>
    exact .inl ⟨_, _, rfl, ext, at_q, enough, supply_eq⟩
  | exhausted hexhausted => exact .inr ⟨_, _, _, _, _, rfl, hexhausted⟩

/-! ## The null link -/

/-- The page at physical address 0, which the link of a failed allocation leads to, is no table of
the page map, and all its words are 0 when it is read as one. -/
structure NullEmpty (cfg : Paging) (pm : PageMap) : Prop where
  empty : ∀ node, pm.tables (cfg.toHigherHalf 0) = some node → ∀ i, node i = 0
  unlinked : ∀ l, l.length < levels cfg → tableAt cfg pm l ≠ some (cfg.toHigherHalf 0)
  not_supplied : cfg.toHigherHalf 0 ∉ pm.supply

theorem Extended.nullEmpty (h : Extended cfg pm pm' l) (hnull : NullEmpty cfg pm) :
    NullEmpty cfg pm' where
  empty := by
    rw [h.tables_eq _ hnull.not_supplied hnull.unlinked]
    exact hnull.empty
  unlinked k hk hp := (h.tableAt_new k _ hk hp).elim (hnull.unlinked k hk) hnull.not_supplied
  not_supplied hmem := hnull.not_supplied (h.supply_subset hmem)

theorem tablePtr_defaultFlags : tablePtr cfg PTE.defaultFlags = some (cfg.toHigherHalf 0) :=
  if_pos (by decide)

/-- A word that was 0 and on no path to the tables that are new is still 0. -/
theorem Extended.wordAt_eq_zero (h : Extended cfg pm pm' l) (hlen : l.length + 1 < levels cfg)
    (hzero : wordAt cfg pm l i = 0) : wordAt cfg pm' l i = 0 := by
  rcases h.word l i (by omega) with heq | ⟨-, -, hptr⟩
  · rw [heq, hzero]
  · refine absurd ?_ hptr
    rw [← tableAt_concat, h.tableAt_none _ (by simpa using hlen), tableAt_concat, hzero,
      tablePtr_zero]
    exact ⟨rfl, Radix.IsTree.not_concat_le_self l i⟩

/-- The words after the null pointer is linked. -/
theorem Mixed.wordAt_nullLink (h : Mixed cfg pm) (hnull : NullEmpty cfg pm)
    (hlen : l.length < levels cfg) (hp : tableAt cfg pm l = some p) {k : List TableIndex}
    (hk : k.length < levels cfg) (j : TableIndex) :
    wordAt cfg (pm.setEntry p i PTE.defaultFlags) k j =
      if k ++ [j] = l ++ [i] then PTE.defaultFlags
      else if l ++ [i] <+: k then 0
      else wordAt cfg pm k j := by
  refine h.tree.leafWord_cut hlen hp (fun _ q hq => ?_) hk j
  rw [tablePtr_defaultFlags] at hq
  obtain rfl := Option.some.inj hq
  refine ⟨fun heq => hnull.unlinked l hlen (heq ▸ hp), fun node hnode j => ?_⟩
  rw [hnull.empty node hnode j]
  exact ⟨rfl, tablePtr_zero⟩

/-- Linking the null pointer under a word that is 0 changes what no address is mapped to. -/
theorem Mixed.leafOf_nullLink (h : Mixed cfg pm) (hnull : NullEmpty cfg pm)
    (hlen : l.length + 1 < levels cfg) (hp : tableAt cfg pm l = some p)
    (hzero : wordAt cfg pm l i = 0) (w : Word) :
    leafOf cfg (pm.setEntry p i PTE.defaultFlags) w = leafOf cfg pm w := by
  apply leafOf_congr
  intro t
  unfold word
  rw [h.wordAt_nullLink hnull (by omega) hp (length_tablePath_lt cfg t w)]
  split
  · rename_i heq
    have ht : t ≠ .page := by
      rintro rfl
      have hpath := congrArg List.length heq
      have hpage := length_tablePath cfg .page w
      have hdepth : PageSize.page.depth = 2 := rfl
      simp only [List.length_append, List.length_singleton] at hpath
      omega
    obtain ⟨hpath, hindex⟩ := List.append_inj' heq rfl
    rw [hpath, List.singleton_injective hindex, hzero, leafIn_zero]
    exact leafIn_of_tablePtr (tablePtr_defaultFlags : tablePtr cfg _ = _) ht
  · split
    · rename_i hpre
      -- there was no table below the word
      have hnone : tableAt cfg pm (tablePath cfg t w) = none := by
        cases hq : tableAt cfg pm (tablePath cfg t w) with
        | none => rfl
        | some q =>
          obtain ⟨r, hr⟩ := exists_tableAt_of_le hpre hq
          rw [tableAt_concat, hzero, tablePtr_zero] at hr
          cases hr
      rw [wordAt_of_none hnone]
    · rfl

/-- `pm` is `ghost` with the null pointer linked under the word `i` at `k`, which was 0. -/
structure NullLinked (cfg : Paging) (ghost : PageMap) (k : List TableIndex) (i : TableIndex)
    (pm : PageMap) : Prop where
  mixed : Mixed cfg ghost
  nullEmpty : NullEmpty cfg ghost
  short : k.length + 1 < levels cfg
  vacant : wordAt cfg ghost k i = 0
  linked : ∃ p, tableAt cfg ghost k = some p ∧ pm = ghost.setEntry p i PTE.defaultFlags

theorem NullLinked.leafOf_eq {ghost : PageMap} {k : List TableIndex}
    (h : NullLinked cfg ghost k i pm) (w : Word) : leafOf cfg pm w = leafOf cfg ghost w := by
  obtain ⟨p, hp, rfl⟩ := h.linked
  exact h.mixed.leafOf_nullLink h.nullEmpty h.short hp h.vacant w

/-- Where a walk runs out of tables the null pointer is linked. -/
theorem Exhausted.nullLinked {k rest : List TableIndex}
    (h : Exhausted cfg pm [] (tablePath cfg size v) k rest i p pm') (hnull : NullEmpty cfg pm) :
    NullLinked cfg pm' k i (pm'.setEntry p i PTE.defaultFlags) := by
  have hlen := length_tablePath_lt cfg size v
  rw [h.path_eq, List.length_append, List.length_cons] at hlen
  have hshort : k.length + 1 < levels cfg := by omega
  exact ⟨h.ext.mixed, h.ext.nullEmpty hnull, hshort, h.ext.wordAt_eq_zero hshort h.vacant, p,
    h.at_p, rfl⟩

end PageMap

end Cryptix.Memory
