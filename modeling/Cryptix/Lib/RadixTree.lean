import Mathlib.Data.List.Basic
import Mathlib.Data.Set.Insert
import Mathlib.Logic.Function.Basic

/-!
# Radix trees in a heap

A radix tree of depth `d` is a heap of nodes. A node maps an index to a word; a word in an interior
node either decodes to the pointer of a child or to nothing, a word in a node at level `d - 1` is
data. `walk` follows a path of indices from the root.

Nothing in the heap itself says that it is a tree: `IsTree` does, as closedness (every node on a
path is allocated) and injectivity (two paths never meet). It is kept by the two ways in which such
a tree is changed, linking a fresh empty node (`IsTree.link`) and writing a leaf word
(`IsTree.writeLeaf`). What the tree means is `leafWord`, the word at the end of a path, with the
empty word where the path breaks off: linking does not change it at all, and a leaf write changes it
at one path only. Where the words of interior nodes may be data as well (`dataWord`), a write
changes a whole branch (`IsTree.cut`).

Several trees in one heap are a forest (`IsForest`): a change of one of them leaves the others
untouched.
-/

namespace Cryptix.Lib.Radix

variable {P I W : Type*} [DecidableEq P] [DecidableEq I]

/-- A heap of nodes, each a word for every index. -/
abbrev Heap (P I W : Type*) := P → Option (I → W)

variable (next : W → Option P)

/-- Follow a path of indices from `p`. -/
def walk (h : Heap P I W) : P → List I → Option P
  | p, [] => some p
  | p, i :: path => (h p).bind fun node => (next (node i)).bind fun q => walk h q path

/-- Overwrite one word of a node. -/
def write (h : Heap P I W) (p : P) (i : I) (w : W) : Heap P I W :=
  Function.update h p ((h p).map fun node => Function.update node i w)

/-- Allocate a node all of whose words are `zero`. -/
def alloc (h : Heap P I W) (q : P) (zero : W) : Heap P I W :=
  Function.update h q (some fun _ => zero)

variable {next} {h : Heap P I W} {root p q : P} {i : I} {w zero : W}

/-! ## Walking -/

omit [DecidableEq P] [DecidableEq I] in
theorem walk_append (l₁ l₂ : List I) :
    walk next h root (l₁ ++ l₂) = (walk next h root l₁).bind fun p => walk next h p l₂ := by
  induction l₁ generalizing root with
  | nil => rfl
  | cons i l ih =>
    simp only [List.cons_append, walk, Option.bind_assoc]
    apply congrArg
    funext node
    apply congrArg
    funext q
    exact ih

theorem write_self : write h p i w p = (h p).map fun node => Function.update node i w :=
  Function.update_self _ _ _

theorem write_of_ne (hne : q ≠ p) : write h p i w q = h q :=
  Function.update_of_ne hne _ _

/-- Writes to different words commute. -/
theorem write_comm {j : I} {w' : W} (hne : ¬(q = p ∧ j = i)) :
    write (write h p i w) q j w' = write (write h q j w') p i w := by
  by_cases hqp : q = p
  · subst hqp
    have hji : j ≠ i := fun hji => hne ⟨rfl, hji⟩
    unfold write
    rw [Function.update_self, Function.update_self, Function.update_idem, Function.update_idem,
      Option.map_map, Option.map_map]
    congr 2
    funext node
    exact Function.update_comm hji.symm _ _ _
  · unfold write
    rw [Function.update_of_ne hqp, Function.update_of_ne (Ne.symm hqp),
      Function.update_comm (Ne.symm hqp)]

/-- A write is only seen by the paths that go through the word written. -/
theorem walk_write (path : List I)
    (hmiss : ∀ l₁ l₂, path = l₁ ++ i :: l₂ → walk next h root l₁ ≠ some p) :
    walk next (write h p i w) root path = walk next h root path := by
  induction path generalizing root with
  | nil => rfl
  | cons j path ih =>
    have hnode : ∀ node, h root = some node → ∃ node', write h p i w root = some node' ∧
        node' j = node j := by
      intro node hnode
      by_cases hroot : root = p
      · subst hroot
        refine ⟨Function.update node i w, by rw [write_self, hnode]; rfl, ?_⟩
        apply Function.update_of_ne
        rintro rfl
        exact hmiss [] path rfl rfl
      · exact ⟨node, by rw [write_of_ne hroot, hnode], rfl⟩
    have hnone : h root = none → write h p i w root = none := by
      intro hnone
      by_cases hroot : root = p
      · rw [hroot, write_self, ← hroot, hnone]
        rfl
      · rw [write_of_ne hroot, hnone]
    unfold walk
    cases hcase : h root with
    | none => rw [hnone hcase]; rfl
    | some node =>
      obtain ⟨node', hwrite, hword⟩ := hnode node hcase
      rw [hwrite, Option.bind_some, Option.bind_some, hword]
      cases hnext : next (node j) with
      | none => rfl
      | some q =>
        rw [Option.bind_some, Option.bind_some]
        apply ih
        intro l₁ l₂ hpath hwalk
        apply hmiss (j :: l₁) l₂ (by rw [hpath]; rfl)
        simp only [walk, hcase, Option.bind_some, hnext]
        exact hwalk

omit [DecidableEq I] in
/-- Allocating a pointer that no path visits changes no walk. -/
theorem walk_alloc (path : List I)
    (hroot : ∀ l₁ l₂, path = l₁ ++ l₂ → l₂ ≠ [] → walk next h root l₁ ≠ some q) :
    walk next (alloc h q zero) root path = walk next h root path := by
  induction path generalizing root with
  | nil => rfl
  | cons j path ih =>
    have hne : root ≠ q := by
      rintro rfl
      exact hroot [] (j :: path) rfl (by simp) rfl
    unfold walk
    rw [show alloc h q zero root = h root from Function.update_of_ne hne _ _]
    cases hcase : h root with
    | none => rfl
    | some node =>
      rw [Option.bind_some, Option.bind_some]
      cases hnext : next (node j) with
      | none => rfl
      | some p =>
        rw [Option.bind_some, Option.bind_some]
        apply ih
        intro l₁ l₂ hpath hl₂ hwalk
        apply hroot (j :: l₁) l₂ (by rw [hpath]; rfl) hl₂
        simp only [walk, hcase, Option.bind_some, hnext]
        exact hwalk

/-! ## Trees -/

/-- The nodes reached by paths shorter than `depth` are allocated, and by one path each. -/
structure IsTree (next : W → Option P) (h : Heap P I W) (root : P) (depth : ℕ) : Prop where
  closed : ∀ path p, path.length < depth → walk next h root path = some p → ∃ node, h p = some node
  inj : ∀ path path' p, path.length < depth → path'.length < depth →
    walk next h root path = some p → walk next h root path' = some p → path = path'

/-- The word at the end of a path, `zero` where the path breaks off. -/
def leafWord (next : W → Option P) (zero : W) (h : Heap P I W) (root : P) (path : List I)
    (i : I) : W :=
  ((walk next h root path).bind fun p => (h p).map fun node => node i).getD zero

/-- A word that leads to no node: it decodes to nothing, or to a pointer that is not allocated. -/
def LeadsNowhere (next : W → Option P) (h : Heap P I W) (w : W) : Prop :=
  ∀ q, next w = some q → h q = none

/-- A word in the node `p` below which nothing is found: what it decodes to is another node, and
empty or not allocated. -/
def LeadsToEmpty (next : W → Option P) (zero : W) (h : Heap P I W) (p : P) (w : W) : Prop :=
  ∀ q, next w = some q →
    q ≠ p ∧ ∀ node, h q = some node → ∀ j, node j = zero ∧ next (node j) = none

omit [DecidableEq P] [DecidableEq I] in
theorem LeadsNowhere.leadsToEmpty {node : I → W} (hw : LeadsNowhere next h w)
    (hp : h p = some node) : LeadsToEmpty next zero h p w := by
  intro q hq
  have hfresh := hw q hq
  refine ⟨?_, fun node' hnode' => ?_⟩
  · rintro rfl
    rw [hfresh] at hp
    cases hp
  · rw [hfresh] at hnode'
    cases hnode'

/-- Link a fresh empty node `q` under index `i` of the node `p`. -/
def link (h : Heap P I W) (p : P) (i : I) (q : P) (w zero : W) : Heap P I W :=
  write (alloc h q zero) p i w

/-- What linking needs: `p` is an interior node without a child at `i`, `q` is not allocated, and
`w` decodes to `q` while the empty word decodes to nothing. -/
structure Linkable (next : W → Option P) (h : Heap P I W) (root : P) (depth : ℕ) (l : List I)
    (p : P) (i : I) (q : P) (w zero : W) : Prop where
  short : l.length + 1 < depth
  at_p : walk next h root l = some p
  vacant : ∀ node, h p = some node → next (node i) = none
  fresh : h q = none
  next_w : next w = some q
  next_zero : next zero = none

variable {depth : ℕ} {l : List I}

namespace IsTree

omit [DecidableEq P] [DecidableEq I] in
/-- A pointer that is not allocated is on no path. -/
theorem walk_ne_of_fresh (ht : IsTree next h root depth) (hq : h q = none) {path : List I}
    (hlen : path.length < depth) : walk next h root path ≠ some q := by
  intro hwalk
  obtain ⟨node, hnode⟩ := ht.closed path q hlen hwalk
  rw [hq] at hnode
  exact absurd hnode (by simp)

omit [DecidableEq I] in
theorem alloc_walk (ht : IsTree next h root depth) (hq : h q = none) {path : List I}
    (hlen : path.length ≤ depth) :
    walk next (alloc h q zero) root path = walk next h root path := by
  apply walk_alloc
  intro l₁ l₂ hpath hl₂
  apply ht.walk_ne_of_fresh hq
  have := List.length_pos_iff.mpr hl₂
  rw [hpath, List.length_append] at hlen
  omega

/-- Linking extends exactly one path. -/
theorem walk_link (ht : IsTree next h root depth)
    (hl : Linkable next h root depth l p i q w zero) {path : List I} (hlen : path.length < depth) :
    walk next (link h p i q w zero) root path =
      if path = l ++ [i] then some q else walk next h root path := by
  have hshort := hl.short
  obtain ⟨node, hnode⟩ := ht.closed l p (by omega) hl.at_p
  have hpq : p ≠ q := by
    rintro rfl
    rw [hl.fresh] at hnode
    exact absurd hnode (by simp)
  have hallocP : alloc h q zero p = some node := by
    rw [← hnode]
    exact Function.update_of_ne hpq _ _
  have hallocQ : alloc h q zero q = some fun _ => zero := Function.update_self _ _ _
  have hwalk : ∀ path' : List I, path'.length ≤ depth →
      walk next (alloc h q zero) root path' = walk next h root path' :=
    fun path' hlen' => ht.alloc_walk hl.fresh hlen'
  -- the only way through the word written is the path of `p` itself
  have hthrough : ∀ (path' l₁ l₂ : List I), path'.length < depth → path' = l₁ ++ i :: l₂ →
      walk next (alloc h q zero) root l₁ = some p → l₁ = l := by
    intro path' l₁ l₂ hlen' hpath' hl₁
    rw [hpath', List.length_append, List.length_cons] at hlen'
    rw [hwalk l₁ (by omega)] at hl₁
    exact ht.inj l₁ l p (by omega) (by omega) hl₁ hl.at_p
  have hsame : walk next (link h p i q w zero) root l = some p := by
    rw [link, walk_write l, hwalk l (by omega), hl.at_p]
    intro l₁ l₂ heq hl₁
    have hl₁l := hthrough l l₁ l₂ (by omega) heq hl₁
    have hlen' := congrArg List.length heq
    rw [hl₁l, List.length_append, List.length_cons] at hlen'
    omega
  by_cases hpass : ∃ l₂, path = l ++ i :: l₂
  · obtain ⟨l₂, rfl⟩ := hpass
    have hold : walk next h root (l ++ i :: l₂) = none := by
      rw [walk_append, hl.at_p, Option.bind_some, walk, hnode, Option.bind_some,
        hl.vacant node hnode]
      rfl
    have hnew : walk next (link h p i q w zero) root (l ++ i :: l₂) =
        walk next (link h p i q w zero) q l₂ := by
      rw [walk_append, hsame, Option.bind_some, walk, link, write_self, hallocP, Option.map_some,
        Option.bind_some, Function.update_self, hl.next_w]
      rfl
    rw [hnew, hold]
    cases l₂ with
    | nil => rw [if_pos rfl]; rfl
    | cons j l₂ =>
      rw [if_neg (by simp), walk, link, write_of_ne hpq.symm, hallocQ, Option.bind_some,
        hl.next_zero]
      rfl
  · rw [if_neg (fun heq => hpass ⟨[], heq⟩), link, walk_write path, hwalk path (Nat.le_of_lt hlen)]
    intro l₁ l₂ heq hl₁
    exact hpass ⟨l₂, hthrough path l₁ l₂ hlen heq hl₁ ▸ heq⟩

theorem link (ht : IsTree next h root depth)
    (hl : Linkable next h root depth l p i q w zero) :
    IsTree next (link h p i q w zero) root depth := by
  have hq : ∀ path, path.length < depth → walk next h root path ≠ some q :=
    fun path hlen => ht.walk_ne_of_fresh hl.fresh hlen
  refine ⟨fun path r hlen hwalk => ?_, fun path path' r hlen hlen' hwalk hwalk' => ?_⟩
  · have halloc : ∃ node, alloc h q zero r = some node := by
      rw [ht.walk_link hl hlen] at hwalk
      split at hwalk
      · obtain rfl := Option.some.inj hwalk
        exact ⟨_, Function.update_self _ _ _⟩
      · obtain ⟨node, hnode⟩ := ht.closed path r hlen hwalk
        by_cases hrq : r = q
        · exact absurd (hrq ▸ hwalk) (hq path hlen)
        · exact ⟨node, by rw [alloc, Function.update_of_ne hrq, hnode]⟩
    obtain ⟨node, hnode⟩ := halloc
    by_cases hrp : r = p
    · subst hrp
      exact ⟨_, by rw [Radix.link, write_self, hnode]; rfl⟩
    · exact ⟨node, by rw [Radix.link, write_of_ne hrp, hnode]⟩
  · rw [ht.walk_link hl hlen] at hwalk
    rw [ht.walk_link hl hlen'] at hwalk'
    split at hwalk <;> split at hwalk'
    · rename_i h₁ h₂
      rw [h₁, h₂]
    · exact absurd (Option.some.inj hwalk ▸ hwalk') (hq path' hlen')
    · exact absurd (Option.some.inj hwalk' ▸ hwalk) (hq path hlen)
    · exact ht.inj path path' r hlen hlen' hwalk hwalk'

/-- The words after linking an empty node, at any depth: the linking word is the only new one. -/
theorem leafWord_linked (ht : IsTree next h root depth)
    (hl : Linkable next h root depth l p i q w zero) {path : List I}
    (hlen : path.length < depth) (j : I) :
    leafWord next zero (Radix.link h p i q w zero) root path j =
      if path ++ [j] = l ++ [i] then w else leafWord next zero h root path j := by
  have hshort := hl.short
  obtain ⟨node, hnode⟩ := ht.closed l p (by omega) hl.at_p
  have hqp : q ≠ p := by
    rintro rfl
    exact ht.walk_ne_of_fresh hl.fresh (by omega) hl.at_p
  unfold leafWord
  rw [ht.walk_link hl hlen]
  by_cases hnew : path = l ++ [i]
  · -- the new node is empty, and before there was no node
    have hold : walk next h root path = none := by
      rw [hnew, walk_append, hl.at_p, Option.bind_some, walk, hnode, Option.bind_some,
        hl.vacant node hnode]
      rfl
    have hne : path ++ [j] ≠ l ++ [i] := fun heq => by
      have := congrArg List.length heq
      simp [hnew] at this
    rw [if_pos hnew, if_neg hne, hold, Option.bind_some, Radix.link, write_of_ne hqp, alloc,
      Function.update_self]
    rfl
  · rw [if_neg hnew]
    cases hwalk : walk next h root path with
    | none =>
      have hne : path ++ [j] ≠ l ++ [i] := by
        intro heq
        obtain ⟨rfl, -⟩ := List.append_inj' heq rfl
        rw [hl.at_p] at hwalk
        cases hwalk
      rw [if_neg hne]
      rfl
    | some r =>
      have hrq : r ≠ q := by
        rintro rfl
        exact ht.walk_ne_of_fresh hl.fresh hlen hwalk
      rw [Option.bind_some, Option.bind_some, Radix.link]
      by_cases hrp : r = p
      · subst hrp
        obtain rfl := ht.inj path l r hlen (by omega) hwalk hl.at_p
        rw [write_self, alloc, Function.update_of_ne hrq, hnode, Option.map_some, Option.map_some,
          Option.map_some, Option.getD_some, Option.getD_some, Function.update_apply]
        simp only [List.append_cancel_left_eq, List.cons.injEq, and_true]
      · have hne : path ++ [j] ≠ l ++ [i] := by
          intro heq
          obtain ⟨rfl, -⟩ := List.append_inj' heq rfl
          exact hrp (Option.some.inj (hwalk.symm.trans hl.at_p))
        rw [write_of_ne hrp, alloc, Function.update_of_ne hrq, if_neg hne]

/-- Linking an empty node changes the word at the end of no path. -/
theorem leafWord_link (ht : IsTree next h root depth)
    (hl : Linkable next h root depth l p i q w zero) {path : List I}
    (hlen : path.length + 1 = depth) (j : I) :
    leafWord next zero (Radix.link h p i q w zero) root path j =
      leafWord next zero h root path j := by
  have hshort := hl.short
  rw [ht.leafWord_linked hl (by omega), if_neg]
  intro heq
  have := congrArg List.length (List.append_inj_left' heq rfl)
  omega

/-! ## Cutting a branch

A word anywhere in the tree may be overwritten by one that leads to no node. Whatever was below it
is cut off. A leaf write is the case where nothing is below, whatever the word. -/

omit [DecidableEq I] in
theorem not_concat_le_self (l : List I) (i : I) : ¬l ++ [i] <+: l := by
  intro hpre
  have hle := hpre.length_le
  rw [List.length_append, List.length_singleton] at hle
  omega

/-- The paths that are not through the word written do not see it. -/
theorem walk_write_outside (ht : IsTree next h root depth) (hl : l.length < depth)
    (hp : walk next h root l = some p) {path : List I} (hlen : path.length < depth)
    (hnot : ¬l ++ [i] <+: path) :
    walk next (write h p i w) root path = walk next h root path := by
  apply walk_write
  rintro l₁ l₂ rfl hl₁
  rw [List.length_append, List.length_cons] at hlen
  have heq := ht.inj l₁ l p (by omega) hl hl₁ hp
  exact hnot ⟨l₂, by rw [heq, List.append_assoc]; rfl⟩

/-- The paths through the word written go where it leads to. -/
theorem walk_write_through (ht : IsTree next h root depth) (hl : l.length < depth)
    (hp : walk next h root l = some p) (l₂ : List I) :
    walk next (write h p i w) root (l ++ [i] ++ l₂) =
      (next w).bind fun q => walk next (write h p i w) q l₂ := by
  obtain ⟨node, hnode⟩ := ht.closed l p hl hp
  have hself : walk next (write h p i w) root l = some p := by
    rw [ht.walk_write_outside hl hp hl (not_concat_le_self l i), hp]
  rw [List.append_assoc, walk_append, hself, Option.bind_some, List.singleton_append, walk,
    write_self, hnode, Option.map_some, Option.bind_some, Function.update_self]

/-- The paths through a word that decodes to nothing break off. -/
theorem walk_cut (ht : IsTree next h root depth) (hl : l.length < depth)
    (hp : walk next h root l = some p) (hw : l.length + 1 < depth → next w = none)
    {path : List I} (hlen : path.length < depth) :
    walk next (write h p i w) root path =
      if l ++ [i] <+: path then none else walk next h root path := by
  split
  · rename_i hpre
    obtain ⟨l₂, rfl⟩ := hpre
    have hshort : l.length + 1 < depth := by
      simp only [List.length_append, List.length_singleton] at hlen
      omega
    rw [ht.walk_write_through hl hp, hw hshort]
    rfl
  · rename_i hnot
    exact ht.walk_write_outside hl hp hlen hnot

theorem cut (ht : IsTree next h root depth) (hl : l.length < depth)
    (hp : walk next h root l = some p) (hw : l.length + 1 < depth → next w = none) :
    IsTree next (write h p i w) root depth := by
  have hold : ∀ (path : List I) (r : P), path.length < depth →
      walk next (write h p i w) root path = some r → walk next h root path = some r := by
    intro path r hlen hwalk
    rw [ht.walk_cut hl hp hw hlen] at hwalk
    split at hwalk
    · cases hwalk
    · exact hwalk
  refine ⟨fun path r hlen hwalk => ?_, fun path path' r hlen hlen' hwalk hwalk' => ?_⟩
  · obtain ⟨node, hnode⟩ := ht.closed path r hlen (hold path r hlen hwalk)
    by_cases hrp : r = p
    · subst hrp
      exact ⟨_, by rw [write_self, hnode]; rfl⟩
    · exact ⟨node, by rw [write_of_ne hrp, hnode]⟩
  · exact ht.inj path path' r hlen hlen' (hold path r hlen hwalk) (hold path' r hlen' hwalk')

/-- The words after the cut: the one written, nothing below it, all others as before. -/
theorem leafWord_cut (ht : IsTree next h root depth) (hl : l.length < depth)
    (hp : walk next h root l = some p) (hw : l.length + 1 < depth → LeadsToEmpty next zero h p w)
    {path : List I} (hlen : path.length < depth) (j : I) :
    leafWord next zero (write h p i w) root path j =
      if path ++ [j] = l ++ [i] then w
      else if l ++ [i] <+: path then zero
      else leafWord next zero h root path j := by
  obtain ⟨node, hnode⟩ := ht.closed l p hl hp
  unfold leafWord
  by_cases hself : path ++ [j] = l ++ [i]
  · obtain ⟨rfl, hj⟩ := List.append_inj' hself rfl
    obtain rfl := List.singleton_injective hj
    rw [if_pos rfl, ht.walk_write_outside hl hp hl (not_concat_le_self path j), hp,
      Option.bind_some, write_self, hnode, Option.map_some, Option.map_some, Option.getD_some,
      Function.update_self]
  rw [if_neg hself]
  by_cases hpre : l ++ [i] <+: path
  · rw [if_pos hpre]
    obtain ⟨l₂, rfl⟩ := hpre
    rw [ht.walk_write_through hl hp]
    cases hnext : next w with
    | none => rfl
    | some q =>
      -- the walk ends there and reads nothing
      have hshort : l.length + 1 < depth := by
        simp only [List.length_append, List.length_singleton] at hlen
        omega
      obtain ⟨hne, hempty⟩ := hw hshort q hnext
      rw [Option.bind_some]
      cases hq : h q with
      | none =>
        cases l₂ with
        | nil => rw [walk, Option.bind_some, write_of_ne hne, hq]; rfl
        | cons k l₂ => rw [walk, write_of_ne hne, hq]; rfl
      | some node' =>
        cases l₂ with
        | nil =>
          rw [walk, Option.bind_some, write_of_ne hne, hq]
          exact (hempty node' hq j).1
        | cons k l₂ =>
          rw [walk, write_of_ne hne, hq, Option.bind_some, (hempty node' hq k).2]
          rfl
  · rw [if_neg hpre, ht.walk_write_outside hl hp hlen hpre]
    cases hwalk : walk next h root path with
    | none => rfl
    | some r =>
      rw [Option.bind_some, Option.bind_some]
      by_cases hrp : r = p
      · subst hrp
        obtain rfl := ht.inj path l r hlen hl hwalk hp
        have hji : j ≠ i := fun hji => hself (by rw [hji])
        rw [write_self, hnode, Option.map_some, Option.map_some, Option.map_some,
          Function.update_of_ne hji]
      · rw [write_of_ne hrp]

/-! ## Writing a leaf -/

omit [DecidableEq P] [DecidableEq I] in
theorem not_concat_le_of_length {l path : List I} {i : I} (hl : l.length + 1 = depth)
    (hlen : path.length < depth) : ¬l ++ [i] <+: path := by
  intro hpre
  have hle := hpre.length_le
  rw [List.length_append, List.length_singleton] at hle
  omega

/-- A leaf write is on no path. -/
theorem walk_writeLeaf (ht : IsTree next h root depth) (hl : l.length + 1 = depth)
    (hp : walk next h root l = some p) {path : List I} (hlen : path.length < depth) :
    walk next (write h p i w) root path = walk next h root path := by
  rw [ht.walk_cut (by omega) hp (by omega) hlen, if_neg (not_concat_le_of_length hl hlen)]

theorem writeLeaf (ht : IsTree next h root depth) (hl : l.length + 1 = depth)
    (hp : walk next h root l = some p) : IsTree next (write h p i w) root depth :=
  ht.cut (by omega) hp (by omega)

/-- A leaf write changes the word at the end of its own path and no other. -/
theorem leafWord_writeLeaf (ht : IsTree next h root depth) (hl : l.length + 1 = depth)
    (hp : walk next h root l = some p) {path : List I} (hlen : path.length + 1 = depth) (j : I) :
    leafWord next zero (write h p i w) root path j =
      if path = l ∧ j = i then w else leafWord next zero h root path j := by
  have hiff : path ++ [j] = l ++ [i] ↔ path = l ∧ j = i := by
    constructor
    · intro heq
      obtain ⟨hpath, hj⟩ := List.append_inj' heq rfl
      exact ⟨hpath, List.singleton_injective hj⟩
    · rintro ⟨rfl, rfl⟩
      rfl
  rw [ht.leafWord_cut (by omega) hp (by omega) (by omega),
    if_neg (not_concat_le_of_length hl (by omega))]
  simp only [hiff]

/-! ## Data at every level

A word in an interior node that leads to no node is data as well: it stands for its whole branch.
`dataWord` is what a tree says without its links. Linking an empty node does not change it, and a
write replaces the data of one branch. -/

end IsTree

/-- The word at a place of the tree, `zero` where it leads to a further node. -/
def dataWord (next : W → Option P) (zero : W) (h : Heap P I W) (root : P) (depth : ℕ)
    (path : List I) (i : I) : W :=
  if path.length + 1 < depth ∧ (next (leafWord next zero h root path i)).isSome then zero
  else leafWord next zero h root path i

/-- One word for a whole branch. -/
def replaceBranch (zero : W) (m : List I → I → W) (l : List I) (i : I) (w : W) :
    List I → I → W :=
  fun path j =>
    if path ++ [j] = l ++ [i] then w else if l ++ [i] <+: path then zero else m path j

namespace IsTree

theorem dataWord_link (ht : IsTree next h root depth)
    (hl : Linkable next h root depth l p i q w zero) (hempty : leafWord next zero h root l i = zero)
    {path : List I} (hlen : path.length < depth) (j : I) :
    dataWord next zero (Radix.link h p i q w zero) root depth path j =
      dataWord next zero h root depth path j := by
  unfold dataWord
  rw [ht.leafWord_linked hl hlen]
  split
  · rename_i heq
    obtain ⟨rfl, hj⟩ := List.append_inj' heq rfl
    obtain rfl := List.singleton_injective hj
    rw [hempty, if_pos ⟨hl.short, by rw [hl.next_w]; rfl⟩, ite_self]
  · rfl

theorem dataWord_cut (ht : IsTree next h root depth) (hl : l.length < depth)
    (hp : walk next h root l = some p) (hw : l.length + 1 < depth → next w = none)
    {path : List I} (hlen : path.length < depth) (j : I) :
    dataWord next zero (write h p i w) root depth path j =
      replaceBranch zero (dataWord next zero h root depth) l i w path j := by
  have hnowhere : l.length + 1 < depth → LeadsToEmpty next zero h p w := by
    intro hshort q hq
    rw [hw hshort] at hq
    cases hq
  unfold dataWord replaceBranch
  rw [ht.leafWord_cut hl hp hnowhere hlen]
  by_cases hself : path ++ [j] = l ++ [i]
  · obtain ⟨rfl, -⟩ := List.append_inj' hself rfl
    rw [if_pos hself, if_pos hself, if_neg]
    rintro ⟨hshort, hsome⟩
    rw [hw hshort] at hsome
    cases hsome
  · rw [if_neg hself, if_neg hself]
    split
    · exact ite_self _
    · rfl

omit [DecidableEq P] [DecidableEq I] in
/-- A heap in which the nodes of the tree are the same. -/
theorem congr {h' : Heap P I W} (ht : IsTree next h root depth)
    (hwalk : ∀ path, path.length < depth → walk next h' root path = walk next h root path)
    (hnode : ∀ path p, path.length < depth → walk next h root path = some p → h' p = h p) :
    IsTree next h' root depth := by
  refine ⟨fun path r hlen hr => ?_, fun path path' r hlen hlen' hr hr' => ?_⟩
  · rw [hwalk path hlen] at hr
    rw [hnode path r hlen hr]
    exact ht.closed path r hlen hr
  · rw [hwalk path hlen] at hr
    rw [hwalk path' hlen'] at hr'
    exact ht.inj path path' r hlen hlen' hr hr'

end IsTree

/-! ## Forests

Several trees in one heap, without a node in common. Linking and cutting in one tree change no
other tree, and a new tree may be planted. -/

/-- The heap holds a tree under each root, and no node is in two of them. -/
structure IsForest (next : W → Option P) (h : Heap P I W) (roots : Set P) (depth : ℕ) : Prop where
  tree : ∀ root ∈ roots, IsTree next h root depth
  apart : ∀ root ∈ roots, ∀ root' ∈ roots, ∀ path path' p, path.length < depth →
    path'.length < depth → walk next h root path = some p → walk next h root' path' = some p →
    root = root'

namespace IsForest

variable {roots : Set P} {root' : P}

omit [DecidableEq P] [DecidableEq I] in
theorem mono {roots' : Set P} (hf : IsForest next h roots depth) (hsub : roots' ⊆ roots) :
    IsForest next h roots' depth :=
  ⟨fun r hr => hf.tree r (hsub hr), fun r hr r' hr' => hf.apart r (hsub hr) r' (hsub hr')⟩

/-- What a change leaves of a tree: its paths and its nodes. -/
structure Untouched (next : W → Option P) (h h' : Heap P I W) (root : P) (depth : ℕ) : Prop where
  walk_eq : ∀ path, path.length < depth → walk next h' root path = walk next h root path
  node_eq : ∀ path p, path.length < depth → walk next h root path = some p → h' p = h p

omit [DecidableEq P] [DecidableEq I] in
theorem Untouched.leafWord_eq {h' : Heap P I W} (hu : Untouched next h h' root depth)
    {path : List I} (hlen : path.length < depth) (j : I) :
    leafWord next zero h' root path j = leafWord next zero h root path j := by
  unfold leafWord
  rw [hu.walk_eq path hlen]
  cases hwalk : walk next h root path with
  | none => rfl
  | some p => rw [Option.bind_some, Option.bind_some, hu.node_eq path p hlen hwalk]

/-- A tree does not see a write to a node of another one. -/
theorem untouched_write (hf : IsForest next h roots depth) (hroot : root ∈ roots)
    (hroot' : root' ∈ roots) (hne : root' ≠ root) (hl : l.length < depth)
    (hp : walk next h root l = some p) : Untouched next h (write h p i w) root' depth := by
  have hoff : ∀ path, path.length < depth → walk next h root' path ≠ some p :=
    fun path hlen hpath => hne (hf.apart root' hroot' root hroot path l p hlen hl hpath hp)
  refine ⟨fun path hlen => walk_write path fun l₁ l₂ hpath => hoff l₁ ?_,
    fun path r hlen hr => write_of_ne ?_⟩
  · rw [hpath, List.length_append] at hlen
    omega
  · rintro rfl
    exact hoff path hlen hr

omit [DecidableEq I] in
/-- A tree does not see the allocation of a node. -/
theorem untouched_alloc (ht : IsTree next h root depth) (hq : h q = none) :
    Untouched next h (alloc h q zero) root depth := by
  refine ⟨fun path hlen => ht.alloc_walk hq (Nat.le_of_lt hlen), fun path r hlen hr => ?_⟩
  refine Function.update_of_ne ?_ _ _
  rintro rfl
  exact ht.walk_ne_of_fresh hq hlen hr

/-- A tree does not see that a node is linked to another one. -/
theorem untouched_link (hf : IsForest next h roots depth) (hroot : root ∈ roots)
    (hroot' : root' ∈ roots) (hne : root' ≠ root)
    (hl : Linkable next h root depth l p i q w zero) :
    Untouched next h (link h p i q w zero) root' depth := by
  have hshort := hl.short
  have halloc : Untouched next h (alloc h q zero) root' depth :=
    untouched_alloc (hf.tree root' hroot') hl.fresh
  have hoff : ∀ path, path.length < depth → walk next h root' path ≠ some p :=
    fun path hlen hpath =>
      hne (hf.apart root' hroot' root hroot path l p hlen (by omega) hpath hl.at_p)
  refine ⟨fun path hlen => ?_, fun path r hlen hr => ?_⟩
  · rw [link, walk_write path, halloc.walk_eq path hlen]
    intro l₁ l₂ hpath
    rw [hpath, List.length_append] at hlen
    rw [halloc.walk_eq l₁ (by omega)]
    exact hoff l₁ (by omega)
  · have hrp : r ≠ p := by
      rintro rfl
      exact hoff path hlen hr
    rw [link, write_of_ne hrp, halloc.node_eq path r hlen hr]

theorem link (hf : IsForest next h roots depth) (hroot : root ∈ roots)
    (hl : Linkable next h root depth l p i q w zero) :
    IsForest next (link h p i q w zero) roots depth := by
  have hother : ∀ r ∈ roots, r ≠ root → Untouched next h (Radix.link h p i q w zero) r depth :=
    fun r hr hne => hf.untouched_link hroot hr hne hl
  -- a path of the forest is an old one, or leads to the new node
  have hcases : ∀ r ∈ roots, ∀ path p', path.length < depth →
      walk next (Radix.link h p i q w zero) r path = some p' →
      walk next h r path = some p' ∨ r = root ∧ p' = q := by
    intro r hr path p' hlen hwalk
    by_cases hne : r = root
    · subst hne
      rw [(hf.tree r hr).walk_link hl hlen] at hwalk
      split at hwalk
      · exact .inr ⟨rfl, (Option.some.inj hwalk).symm⟩
      · exact .inl hwalk
    · exact .inl ((hother r hr hne).walk_eq path hlen ▸ hwalk)
  have hfresh : ∀ r ∈ roots, ∀ path, path.length < depth → walk next h r path ≠ some q :=
    fun r hr path hlen => (hf.tree r hr).walk_ne_of_fresh hl.fresh hlen
  refine ⟨fun r hr => ?_, fun r hr r' hr' path path' p' hlen hlen' hwalk hwalk' => ?_⟩
  · by_cases hne : r = root
    · exact hne ▸ (hf.tree root hroot).link hl
    · exact (hf.tree r hr).congr (hother r hr hne).walk_eq (hother r hr hne).node_eq
  · rcases hcases r hr path p' hlen hwalk with hold | ⟨rfl, rfl⟩ <;>
      rcases hcases r' hr' path' p' hlen' hwalk' with hold' | ⟨rfl, hq'⟩
    · exact hf.apart r hr r' hr' path path' p' hlen hlen' hold hold'
    · exact absurd (hq' ▸ hold) (hfresh r hr path hlen)
    · exact absurd hold' (hfresh r' hr' path' hlen')
    · rfl

theorem cut (hf : IsForest next h roots depth) (hroot : root ∈ roots) (hl : l.length < depth)
    (hp : walk next h root l = some p) (hw : l.length + 1 < depth → next w = none) :
    IsForest next (write h p i w) roots depth := by
  have hother : ∀ r ∈ roots, r ≠ root → Untouched next h (write h p i w) r depth :=
    fun r hr hne => hf.untouched_write hroot hr hne hl hp
  have hold : ∀ r ∈ roots, ∀ path p', path.length < depth →
      walk next (write h p i w) r path = some p' → walk next h r path = some p' := by
    intro r hr path p' hlen hwalk
    by_cases hne : r = root
    · subst hne
      rw [(hf.tree r hr).walk_cut hl hp hw hlen] at hwalk
      split at hwalk
      · cases hwalk
      · exact hwalk
    · exact (hother r hr hne).walk_eq path hlen ▸ hwalk
  refine ⟨fun r hr => ?_, fun r hr r' hr' path path' p' hlen hlen' hwalk hwalk' => ?_⟩
  · by_cases hne : r = root
    · exact hne ▸ (hf.tree root hroot).cut hl hp hw
    · exact (hf.tree r hr).congr (hother r hr hne).walk_eq (hother r hr hne).node_eq
  · exact hf.apart r hr r' hr' path path' p' hlen hlen' (hold r hr path p' hlen hwalk)
      (hold r' hr' path' p' hlen' hwalk')

omit [DecidableEq I] in
/-- In a tree that was just planted, only the root is reached. -/
theorem walk_planted (hzero : next zero = none) (path : List I) :
    walk next (alloc h q zero) q path = if path = [] then some q else none := by
  cases path with
  | nil => rfl
  | cons i path =>
    rw [if_neg (List.cons_ne_nil i path), walk, alloc, Function.update_self, Option.bind_some,
      hzero]
    rfl

omit [DecidableEq I] in
theorem leafWord_planted (hzero : next zero = none) (path : List I) (j : I) :
    leafWord next zero (alloc h q zero) q path j = zero := by
  unfold leafWord
  rw [walk_planted hzero]
  split
  · rw [Option.bind_some, alloc, Function.update_self]
    rfl
  · rfl

omit [DecidableEq I] in
theorem plant (hf : IsForest next h roots depth) (hq : h q = none) (hzero : next zero = none) :
    IsForest next (alloc h q zero) (insert q roots) depth := by
  have hother : ∀ r ∈ roots, Untouched next h (alloc h q zero) r depth :=
    fun r hr => untouched_alloc (hf.tree r hr) hq
  have hself : ∀ path p', walk next (alloc h q zero) q path = some p' → path = [] ∧ p' = q := by
    intro path p' hwalk
    rw [walk_planted hzero] at hwalk
    split at hwalk
    · rename_i hnil
      exact ⟨hnil, (Option.some.inj hwalk).symm⟩
    · cases hwalk
  have hoff : ∀ r ∈ roots, ∀ path, path.length < depth →
      walk next (alloc h q zero) r path ≠ some q := by
    intro r hr path hlen hwalk
    rw [(hother r hr).walk_eq path hlen] at hwalk
    exact (hf.tree r hr).walk_ne_of_fresh hq hlen hwalk
  refine ⟨?_, ?_⟩
  · rintro r (rfl | hr)
    · refine ⟨fun path p' _ hwalk => ?_, fun path path' p' _ _ hwalk hwalk' => ?_⟩
      · rw [(hself path p' hwalk).2]
        exact ⟨_, Function.update_self _ _ _⟩
      · rw [(hself path p' hwalk).1, (hself path' p' hwalk').1]
    · exact (hf.tree r hr).congr (hother r hr).walk_eq (hother r hr).node_eq
  · rintro r (rfl | hr) r' (rfl | hr') path path' p' hlen hlen' hwalk hwalk'
    · rfl
    · exact absurd ((hself path p' hwalk).2 ▸ hwalk') (hoff r' hr' path' hlen')
    · exact absurd ((hself path' p' hwalk').2 ▸ hwalk) (hoff r hr path hlen)
    · rw [(hother r hr).walk_eq path hlen] at hwalk
      rw [(hother r' hr').walk_eq path' hlen'] at hwalk'
      exact hf.apart r hr r' hr' path path' p' hlen hlen' hwalk hwalk'

end IsForest

end Cryptix.Lib.Radix
