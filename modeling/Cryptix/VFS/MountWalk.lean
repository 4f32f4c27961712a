import Mathlib.Data.List.Basic
import Cryptix.VFS.LinkLoops

/-!
# Walking over mounted file systems

What a path names in a tree of mounted file systems without links, said without the resolver of
`Kernel/VFS/PathResolver.cpp`: `reference` walks along the components over the directories that are
on top. The parent of the root of a mounted file system is the parent of the directory it is mounted
on, and so on down where mounts are stacked.

For `..` the resolver asks `GetEffectiveParent` of `Kernel/VFS/DirectoryEntry.cpp`, and that
function looks for the entry among the entries that something is mounted on. The resolver is at an
entry on top of all mounts then, so nothing is found; `Parent` of a mounted root is the directory it
is mounted on, and from there `FollowMounts` comes back to the mounted root.
`resolve_eq_reference_iff` says which walks this matters for.
-/

namespace Cryptix.VFS

open Lib Lib.Proc

universe u

/-- A tree of mounted file systems without links. `Lookup` sets the parent of an entry, `Mount` that
of a mounted root; it also puts the entry it mounts on into the list of mount points. Parents are
nearer to the root. -/
structure MountTree (E : Type u) extends DirectoryGraph E where
  parent_of_lookup : ∀ {e c name}, lookup e name = some c → parent c = e
  parent_of_gate : ∀ {h g}, mountGate h = some g → parent g = h
  lookup_ne_gate : ∀ {e c h name}, lookup e name = some c → mountGate h ≠ some c
  root_ne_gate : ∀ {h}, mountGate h ≠ some root
  mem_hosts : ∀ {h}, h ∈ hosts ↔ (mountGate h).isSome
  no_links : ∀ e, isSymlink e = false
  level : E → ℕ
  level_parent : ∀ {e}, e ≠ root → level (parent e) < level e

/-- The walk along the components of a path over the directories that are on top; `..` goes to the
entry that `up` gives. -/
def DirectoryGraph.walkBy {E : Type u} (G : DirectoryGraph E) (up : E → E) :
    E → List String → Except Errno E
  | e, [] => .ok e
  | e, name :: rest =>
    match segmentType name with
    | .eDot => walkBy G up e rest
    | .eDotDot => walkBy G up (G.followMounts (up e)) rest
    | .eRegular =>
      match G.lookup e name with
      | none => .error .ENOENT
      | some child =>
        if rest ≠ [] ∧ G.isDirectory (G.followMounts child) = false then .error .ENOTDIR
        else walkBy G up (G.followMounts child) rest

namespace MountTree

variable {E : Type u} [DecidableEq E] (T : MountTree E)

/-- The directory that the root of a mounted file system is mounted on. -/
def hostOf (e : E) : Option E := T.hosts.find? fun h => T.mountGate h = some e

/-- The parent of an entry, found through at most `n` mounts. -/
def parentThrough : ℕ → E → E
  | 0, e => e
  | n + 1, e =>
    if e = T.rootDirectoryEntry then e
    else match T.hostOf e with
      | some host => parentThrough n host
      | none => T.parent e

/-- The parent of an entry. -/
def referenceParent (e : E) : E := T.parentThrough (T.level e + 1) e

/-- The directory that the walk along a path begins at. -/
def beginning (start : E) (absolute : Bool) : E :=
  T.followMounts (if absolute then T.rootDirectoryEntry else start)

/-- What a path with the given components names. -/
def reference (start : E) (absolute : Bool) (names : List String) : Except Errno E :=
  T.walkBy T.referenceParent (T.beginning start absolute) names

/-- The walk takes no `..` at the root of a mounted file system, the global root apart. -/
def Inside : E → List String → Prop
  | _, [] => True
  | e, name :: rest =>
    match segmentType name with
    | .eDot => Inside e rest
    | .eDotDot => (T.hostOf e = none ∨ e = T.rootDirectoryEntry) ∧
        Inside (T.followMounts (T.referenceParent e)) rest
    | .eRegular => ∀ child, T.lookup e name = some child →
        (rest ≠ [] → T.isDirectory (T.followMounts child) = true) →
          Inside (T.followMounts child) rest

end MountTree

/-! ## Parents -/

namespace DirectoryGraph

variable {E : Type u} (G : DirectoryGraph E)

theorem followGates_of_le {n m : ℕ} {e : E} (hn : G.gateDepth e ≤ n) (hm : G.gateDepth e ≤ m) :
    G.followGates n e = G.followGates m e := by
  induction n generalizing m e with
  | zero =>
    have hgate := G.mountGate_followGates hn
    rw [followGates] at hgate ⊢
    cases m with
    | zero => rfl
    | succ m => rw [followGates, hgate]
  | succ n ih =>
    rw [followGates]
    cases hgate : G.mountGate e with
    | none =>
      cases m with
      | zero => rfl
      | succ m => rw [followGates, hgate]
    | some gate =>
      have hlt := G.gateDepth_lt hgate
      obtain ⟨m, rfl⟩ : ∃ k, m = k + 1 := ⟨m - 1, by omega⟩
      rw [followGates, hgate]
      exact ih (by omega) (by omega)

/-- `FollowMounts` goes on from what is mounted. -/
theorem followMounts_of_gate {h g : E} (hgate : G.mountGate h = some g) :
    G.followMounts h = G.followMounts g := by
  have hlt := G.gateDepth_lt hgate
  rw [followMounts, G.followGates_of_le le_rfl (m := G.gateDepth h - 1 + 1) (by omega), followGates,
    hgate]
  exact G.followGates_of_le (by omega) le_rfl

end DirectoryGraph

namespace MountTree

variable {E : Type u} [DecidableEq E] (T : MountTree E)

theorem hostOf_eq_some_iff {e h : E} : T.hostOf e = some h ↔ T.mountGate h = some e := by
  have hfound {h' : E} (hfind : T.hostOf e = some h') : T.mountGate h' = some e := by
    have htest := List.find?_some (p := fun h => decide (T.mountGate h = some e)) hfind
    exact decide_eq_true_iff.mp htest
  refine ⟨hfound, fun hgate => ?_⟩
  cases hfind : T.hostOf e with
  | none =>
    have hmem : h ∈ T.hosts := T.mem_hosts.mpr (by rw [hgate]; rfl)
    exact absurd (decide_eq_true hgate) (List.find?_eq_none.mp hfind h hmem)
  | some h' => rw [← T.parent_of_gate hgate, ← T.parent_of_gate (hfound hfind)]

omit [DecidableEq E] in
theorem level_host {e h : E} (hgate : T.mountGate h = some e) : T.level h < T.level e := by
  have hne : e ≠ T.root := fun heq => T.root_ne_gate (heq ▸ hgate)
  have hlt := T.level_parent hne
  rwa [T.parent_of_gate hgate] at hlt

theorem parentThrough_of_lt {n m : ℕ} {e : E} (hn : T.level e < n) (hm : T.level e < m) :
    T.parentThrough n e = T.parentThrough m e := by
  induction n generalizing m e with
  | zero => omega
  | succ n ih =>
    obtain ⟨m, rfl⟩ : ∃ k, m = k + 1 := ⟨m - 1, by omega⟩
    rw [parentThrough, parentThrough]
    cases hhost : T.hostOf e with
    | none => rfl
    | some h =>
      have hlt := T.level_host (T.hostOf_eq_some_iff.mp hhost)
      dsimp only
      rw [ih (m := m) (by omega) (by omega)]

theorem referenceParent_root : T.referenceParent T.rootDirectoryEntry = T.rootDirectoryEntry := by
  rw [referenceParent, parentThrough, if_pos rfl]

/-- The parent of a mounted root is that of the directory it is mounted on. -/
theorem referenceParent_gate {h g : E} (hgate : T.mountGate h = some g)
    (hne : g ≠ T.rootDirectoryEntry) : T.referenceParent g = T.referenceParent h := by
  have hlt := T.level_host hgate
  rw [referenceParent, parentThrough, if_neg hne, T.hostOf_eq_some_iff.mpr hgate]
  exact T.parentThrough_of_lt (by omega) (by omega)

theorem referenceParent_of_not_gate {e : E} (hhost : T.hostOf e = none)
    (hne : e ≠ T.rootDirectoryEntry) : T.referenceParent e = T.parent e := by
  rw [referenceParent, parentThrough, if_neg hne, hhost]

/-- All entries of a stack of mounts have the same parent. -/
theorem referenceParent_followMounts {e : E} (hne : T.followMounts e ≠ T.rootDirectoryEntry) :
    T.referenceParent (T.followMounts e) = T.referenceParent e := by
  induction hdepth : T.gateDepth e using Nat.strong_induction_on generalizing e with
  | _ d ih =>
    cases hgate : T.mountGate e with
    | none => rw [T.followMounts_of_mountGate hgate]
    | some g =>
      have hlt := T.gateDepth_lt hgate
      have hfollow := T.followMounts_of_gate hgate
      rw [hfollow] at hne ⊢
      rw [ih _ (by omega) hne rfl]
      refine T.referenceParent_gate hgate ?_
      rintro rfl
      exact hne T.followMounts_rootDirectoryEntry

/-- Parents are nearer to the root. -/
theorem level_referenceParent {e : E} (hne : T.followMounts e ≠ T.rootDirectoryEntry) :
    T.level (T.referenceParent e) < T.level e := by
  induction hlevel : T.level e using Nat.strong_induction_on generalizing e with
  | _ n ih =>
    have htop : e ≠ T.rootDirectoryEntry := by
      rintro rfl
      exact hne T.followMounts_rootDirectoryEntry
    cases hhost : T.hostOf e with
    | none =>
      rw [T.referenceParent_of_not_gate hhost htop, ← hlevel]
      refine T.level_parent ?_
      rintro rfl
      exact hne rfl
    | some h =>
      have hgate := T.hostOf_eq_some_iff.mp hhost
      have hlt := T.level_host hgate
      rw [T.referenceParent_gate hgate htop]
      exact (ih _ (by omega) (T.followMounts_of_gate hgate ▸ hne) rfl).trans (hlevel ▸ hlt)

/-- A directory is not on top of its parent. -/
theorem followMounts_referenceParent_ne {e : E} (hne : e ≠ T.rootDirectoryEntry) :
    T.followMounts (T.referenceParent e) ≠ e := by
  intro heq
  have hne' : T.followMounts (T.referenceParent e) ≠ T.rootDirectoryEntry := by rwa [heq]
  have hsame := T.referenceParent_followMounts hne'
  have hlt := T.level_referenceParent hne'
  rw [heq] at hsame
  rw [← hsame] at hlt
  exact lt_irrefl _ hlt

/-- The parent that the code finds of a directory on top. -/
theorem getEffectiveParent_of_top {e : E} (htop : T.mountGate e = none) :
    T.getEffectiveParent e = if e = T.rootDirectoryEntry then e else T.parent e := by
  have hfind : T.hosts.find? (· = e) = none := by
    refine List.find?_eq_none.mpr fun h hh heq => ?_
    obtain rfl := decide_eq_true_iff.mp heq
    have hsome := T.mem_hosts.mp hh
    rw [htop] at hsome
    cases hsome
  rw [DirectoryGraph.getEffectiveParent, T.followMounts_rootDirectoryEntry, hfind]
  simp only [or_self]

/-- From a mounted root, the code comes back to it. -/
theorem followMounts_getEffectiveParent_of_host {e : E} (htop : T.mountGate e = none)
    (hhost : T.hostOf e ≠ none) : T.followMounts (T.getEffectiveParent e) = e := by
  obtain ⟨h, hh⟩ := Option.ne_none_iff_exists'.mp hhost
  have hgate := T.hostOf_eq_some_iff.mp hh
  rw [T.getEffectiveParent_of_top htop]
  split
  · exact T.followMounts_of_mountGate htop
  · rw [T.parent_of_gate hgate, T.followMounts_of_gate hgate, T.followMounts_of_mountGate htop]

/-- Everywhere else it finds the parent. -/
theorem getEffectiveParent_eq_reference {e : E} (htop : T.mountGate e = none)
    (hinside : T.hostOf e = none ∨ e = T.rootDirectoryEntry) :
    T.getEffectiveParent e = T.referenceParent e := by
  rw [T.getEffectiveParent_of_top htop]
  split
  · rename_i heq
    rw [heq, T.referenceParent_root]
  · rename_i hne
    exact (T.referenceParent_of_not_gate (hinside.resolve_right hne) hne).symm

/-! ## Walks -/

/-- A walk that stays inside goes where it should. -/
theorem walkBy_eq_of_inside {e : E} {names : List String} (htop : T.mountGate e = none)
    (hinside : T.Inside e names) :
    T.walkBy T.getEffectiveParent e names = T.walkBy T.referenceParent e names := by
  induction names generalizing e with
  | nil => rfl
  | cons name rest ih =>
    rw [Inside] at hinside
    rw [DirectoryGraph.walkBy, DirectoryGraph.walkBy]
    cases htype : segmentType name with
    | eDot =>
      simp only [htype] at hinside ⊢
      exact ih htop hinside
    | eDotDot =>
      simp only [htype] at hinside ⊢
      rw [T.getEffectiveParent_eq_reference htop hinside.1]
      exact ih (T.mountGate_followMounts _) hinside.2
    | eRegular =>
      simp only [htype] at hinside ⊢
      cases hlookup : T.lookup e name with
      | none => rfl
      | some child =>
        dsimp only
        split
        · rfl
        · rename_i hdir
          refine ih (T.mountGate_followMounts _) (hinside child hlookup fun hrest => ?_)
          exact Bool.eq_true_of_not_eq_false fun hfalse => hdir ⟨hrest, hfalse⟩

variable {T} in
theorem Inside.take {e : E} {names : List String} (h : T.Inside e names) (k : ℕ) :
    T.Inside e (names.take k) := by
  induction names generalizing e k with
  | nil => rwa [List.take_nil]
  | cons name rest ih =>
    cases k with
    | zero => trivial
    | succ k =>
      rw [List.take_succ_cons]
      rw [Inside] at h ⊢
      cases htype : segmentType name with
      | eDot =>
        simp only [htype] at h ⊢
        exact ih h k
      | eDotDot =>
        simp only [htype] at h ⊢
        exact ⟨h.1, ih h.2 k⟩
      | eRegular =>
        simp only [htype] at h ⊢
        intro child hlookup hdir
        cases k with
        | zero => trivial
        | succ k =>
          refine ih (h child hlookup fun hrest => hdir ?_) (k + 1)
          obtain ⟨next, rest, rfl⟩ := List.exists_cons_of_ne_nil hrest
          simp

/-- A walk all of whose beginnings go where they should stays inside. -/
theorem inside_of_walkBy_eq {e : E} {names : List String} (htop : T.mountGate e = none)
    (heq : ∀ k, 0 < k → k ≤ names.length →
      T.walkBy T.getEffectiveParent e (names.take k) =
        T.walkBy T.referenceParent e (names.take k)) : T.Inside e names := by
  induction names generalizing e with
  | nil => trivial
  | cons name rest ih =>
    rw [Inside]
    cases htype : segmentType name with
    | eDot =>
      refine ih htop fun k _ hk => ?_
      have hnext := heq (k + 1) (by omega) (Nat.succ_le_succ hk)
      rw [List.take_succ_cons, DirectoryGraph.walkBy, DirectoryGraph.walkBy] at hnext
      simpa only [htype] using hnext
    | eDotDot =>
      have hhere : T.hostOf e = none ∨ e = T.rootDirectoryEntry := by
        by_contra hout
        obtain ⟨hhost, hne⟩ := not_or.mp hout
        have hfirst := heq 1 (by omega) (by simp)
        rw [List.take_succ_cons, List.take_zero, DirectoryGraph.walkBy,
          DirectoryGraph.walkBy] at hfirst
        simp only [htype, DirectoryGraph.walkBy] at hfirst
        rw [T.followMounts_getEffectiveParent_of_host htop hhost] at hfirst
        exact T.followMounts_referenceParent_ne hne (Except.ok.inj hfirst).symm
      refine ⟨hhere, ih (T.mountGate_followMounts _) fun k _ hk => ?_⟩
      have hnext := heq (k + 1) (by omega) (Nat.succ_le_succ hk)
      rw [List.take_succ_cons, DirectoryGraph.walkBy, DirectoryGraph.walkBy,
        T.getEffectiveParent_eq_reference htop hhere] at hnext
      simpa only [htype] using hnext
    | eRegular =>
      intro child hlookup hdir
      refine ih (T.mountGate_followMounts _) fun k hpos hk => ?_
      have hrest : rest ≠ [] := List.ne_nil_of_length_pos (by omega)
      have hnext := heq (k + 1) (by omega) (Nat.succ_le_succ hk)
      rw [List.take_succ_cons, DirectoryGraph.walkBy, DirectoryGraph.walkBy] at hnext
      simpa [htype, hlookup, hdir hrest] using hnext

end MountTree

section Resolve

variable {E : Type u} [DecidableEq E] (G : DirectoryGraph E) (P : PrismPath)

omit [DecidableEq E] in
/-- The end of `Resolve` with regular flags. -/
theorem finish_regular (path : String) (isLast : Bool) (parent entry : E) (baseName : String) :
    (finish G P path {} isLast parent entry baseName).1 = .ok (G.followMounts entry) := by
  rw [finish]
  simp only [Bool.false_and, Bool.and_false, Bool.not_false, Bool.and_true, Bool.false_eq_true,
    if_false]
  split
  · rfl
  · rename_i hpoint
    rw [DirectoryGraph.isMountPoint, Bool.not_eq_true, Option.isSome_eq_false_iff,
      Option.isNone_iff_eq_none] at hpoint
    rw [G.followMounts_of_mountGate hpoint]

/-- Without links, the loop of `Resolve` is a walk. -/
theorem walk_regular (hlinks : ∀ e, G.isSymlink e = false) {path : String}
    (hslash : endsInSlash path = false) (names : List String) (parent entry : E)
    (baseName : String) : ∃ resolver, walk G P path {} names parent entry baseName =
      pure (G.walkBy G.getEffectiveParent (G.followMounts entry) names, resolver) := by
  induction names generalizing parent entry baseName with
  | nil =>
    refine ⟨(finish G P path {} false parent entry baseName).2, ?_⟩
    rw [walk, DirectoryGraph.walkBy, ← finish_regular G P path false parent entry baseName]
  | cons name rest ih =>
    -- after the dots, the walk ends at the entry `next` or goes on from it
    have hdots (next : E) : ∃ resolver,
        (if rest.isEmpty then
          (pure (finish G P path {} true (G.getEffectiveParent next) (G.followMounts next)
            (G.name (G.followMounts next))) : Resolving E (Except Errno E × PathResolver E))
        else walk G P path {} rest parent next baseName) =
          pure (G.walkBy G.getEffectiveParent (G.followMounts next) rest, resolver) := by
      cases rest with
      | nil =>
        refine ⟨_, congrArg pure (Prod.ext ?_ rfl)⟩
        rw [finish_regular, G.followMounts_followMounts]
        rfl
      | cons _ _ => exact ih parent next baseName
    rw [walk, DirectoryGraph.walkBy]
    simp only [Bool.and_false, Bool.false_eq_true, if_false]
    cases htype : segmentType name with
    | eDot =>
      obtain ⟨resolver, hnext⟩ := hdots (G.followMounts entry)
      exact ⟨resolver, hnext.trans (by rw [G.followMounts_followMounts])⟩
    | eDotDot => exact hdots (G.getEffectiveParent (G.followMounts entry))
    | eRegular =>
      dsimp only
      rw [step]
      cases hlookup : G.lookup (G.followMounts entry) name with
      | none => exact ⟨_, rfl⟩
      | some child =>
        cases rest with
        | nil =>
          simp only [List.isEmpty_nil, if_true, hslash, Bool.false_and, Bool.false_eq_true,
            if_false, ne_eq, not_true_eq_false, false_and, Proc.pure_bind]
          exact ⟨_, congrArg pure (Prod.ext (finish_regular G P path true _ child name) rfl)⟩
        | cons next rest =>
          simp only [List.isEmpty_cons, Bool.false_eq_true, if_false, stepThrough,
            hlinks (G.followMounts child), ne_eq, reduceCtorEq, not_false_eq_true, true_and,
            Proc.pure_bind]
          cases hdir : G.isDirectory (G.followMounts child) with
          | false => exact ⟨_, rfl⟩
          | true =>
            obtain ⟨resolver, hnext⟩ := ih (G.followMounts entry) (G.followMounts child) name
            exact ⟨resolver, hnext.trans (by rw [G.followMounts_followMounts]; rfl)⟩

/-- A path that begins with a slash or not, with some components. -/
def joined (absolute : Bool) (names : List String) : String :=
  String.ofList ((if absolute then ['/'] else []) ++ ['/'].intercalate (names.map String.toList))

/-- A component: not empty and without a slash. -/
def IsComponent (name : String) : Prop := name.toList ≠ [] ∧ '/' ∉ name.toList

/-- What the resolver relies on: Prism splits a path into its components. -/
structure PrismPath.Splits (P : PrismPath) : Prop where
  split : ∀ absolute names, names ≠ [] → (∀ name ∈ names, IsComponent name) →
    P.split (joined absolute names) = names
  absolute : ∀ absolute names, names ≠ [] → (∀ name ∈ names, IsComponent name) →
    P.absolute (joined absolute names) = absolute

theorem intercalate_ends {l : List (List Char)} (hne : l ≠ [])
    (hl : ∀ name ∈ l, name ≠ [] ∧ '/' ∉ name) :
    ∃ c, (['/'].intercalate l).getLast? = some c ∧ c ≠ '/' := by
  induction l with
  | nil => exact absurd rfl hne
  | cons name rest ih =>
    obtain ⟨hname, hslash⟩ := hl name List.mem_cons_self
    cases rest with
    | nil =>
      refine ⟨name.getLast hname, ?_, fun heq => hslash (heq ▸ List.getLast_mem hname)⟩
      rw [List.intercalate_singleton, List.getLast?_eq_getLast_of_ne_nil hname]
    | cons next rest =>
      obtain ⟨c, hc, hne⟩ := ih (by simp) fun name hn => hl name (List.mem_cons_of_mem _ hn)
      refine ⟨c, ?_, hne⟩
      rw [List.intercalate_cons_cons, List.getLast?_append, hc]
      rfl

/-- A path made of components ends in one. -/
theorem joined_ends (absolute : Bool) {names : List String} (hne : names ≠ [])
    (hnames : ∀ name ∈ names, IsComponent name) :
    joined absolute names ≠ "" ∧ joined absolute names ≠ "/" ∧
      endsInSlash (joined absolute names) = false := by
  obtain ⟨c, hc, hslash⟩ := intercalate_ends (l := names.map String.toList) (by simpa using hne)
    (by simpa [IsComponent] using hnames)
  have hlast : (joined absolute names).toList.getLast? = some c := by
    rw [joined, String.toList_ofList, List.getLast?_append, hc]
    rfl
  refine ⟨fun heq => ?_, fun heq => ?_, ?_⟩
  · rw [heq] at hlast
    cases hlast
  · rw [heq] at hlast
    exact hslash (Option.some.inj hlast).symm
  · rw [endsInSlash, hlast]
    simpa using hslash

variable {G P} in
/-- `Resolve` with regular flags of a path with some components. -/
theorem resolve_regular (hP : P.Splits) (hlinks : ∀ e, G.isSymlink e = false) (start : E)
    (absolute : Bool) {names : List String} (hne : names ≠ [])
    (hnames : ∀ name ∈ names, IsComponent name) : ∃ resolver,
    resolve G P start (joined absolute names) {} = pure (G.walkBy G.getEffectiveParent
      (G.followMounts (if absolute then G.rootDirectoryEntry else start)) names, resolver) := by
  obtain ⟨hempty, hroot, hslash⟩ := joined_ends absolute hne hnames
  rw [resolve, if_neg hempty, if_neg hroot]
  simp only [Bool.false_eq_true, if_false, hP.split absolute names hne hnames, startOf,
    hP.absolute absolute names hne hnames]
  exact walk_regular G P hlinks hslash names _ _ "/"

end Resolve

namespace MountTree

variable {E : Type u} [DecidableEq E] (T : MountTree E) (P : PrismPath)

/-- `Resolve` returns what the path names. -/
def Agrees (start : E) (absolute : Bool) (names : List String) : Prop :=
  ∃ resolver, Returns (followSymlinks T.toDirectoryGraph P)
    (resolve T.toDirectoryGraph P start (joined absolute names) {})
    (T.reference start absolute names, resolver)

variable {P}

theorem agrees_iff (hP : P.Splits) (start : E) (absolute : Bool) {names : List String}
    (hne : names ≠ []) (hnames : ∀ name ∈ names, IsComponent name) :
    T.Agrees P start absolute names ↔
      T.walkBy T.getEffectiveParent (T.beginning start absolute) names =
        T.walkBy T.referenceParent (T.beginning start absolute) names := by
  obtain ⟨resolver, hresolve⟩ := resolve_regular hP T.no_links start absolute hne hnames
  rw [Agrees, hresolve]
  simp only [returns_pure, Prod.mk.injEq]
  constructor
  · rintro ⟨_, h, -⟩
    exact h
  · exact fun h => ⟨resolver, h, rfl⟩

/-- For every tree of mounted file systems without links, every start and every path made of
components: the resolver returns what the path and every beginning of it name exactly if the path
takes no `..` at the root of a mounted file system other than the global root. -/
theorem resolve_eq_reference_iff (hP : P.Splits) (start : E) (absolute : Bool)
    {names : List String} (hnames : ∀ name ∈ names, IsComponent name) :
    (∀ k, 0 < k → k ≤ names.length → T.Agrees P start absolute (names.take k)) ↔
      T.Inside (T.beginning start absolute) names := by
  have htop : T.mountGate (T.beginning start absolute) = none := T.mountGate_followMounts _
  have hagrees : ∀ k, 0 < k → k ≤ names.length → (T.Agrees P start absolute (names.take k) ↔
      T.walkBy T.getEffectiveParent (T.beginning start absolute) (names.take k) =
        T.walkBy T.referenceParent (T.beginning start absolute) (names.take k)) := by
    intro k hpos hk
    refine T.agrees_iff hP start absolute ?_ fun name hn => hnames name (List.mem_of_mem_take hn)
    exact List.ne_nil_of_length_pos (by rw [List.length_take]; omega)
  constructor
  · intro h
    exact T.inside_of_walkBy_eq htop fun k hpos hk => (hagrees k hpos hk).mp (h k hpos hk)
  · intro hinside k hpos hk
    exact (hagrees k hpos hk).mpr (T.walkBy_eq_of_inside htop (hinside.take k))

end MountTree

/-- Paths split at their slashes split into their components. -/
theorem slashPath_splits : slashPath.Splits := by
  have hmap : ∀ names : List String, (∀ name ∈ names, IsComponent name) →
      ((names.map String.toList).filter (· ≠ [])).map String.ofList = names := by
    intro names hnames
    rw [List.filter_eq_self.mpr, List.map_map]
    · exact List.map_id'' (fun _ => String.ofList_toList) names
    · simpa [IsComponent] using fun name hn => (hnames name hn).1
  refine ⟨fun absolute names hne hnames => ?_, fun absolute names hne hnames => ?_⟩
  · have hno : ∀ l ∈ names.map String.toList, '/' ∉ l := by
      simpa using fun name hn => (hnames name hn).2
    have hne' : names.map String.toList ≠ [] := by simpa using hne
    have hsplit : (joined absolute names).toList.splitOn '/' =
        (if absolute then [[]] else []) ++ names.map String.toList := by
      rw [joined, String.toList_ofList]
      cases absolute with
      | false => exact List.splitOn_intercalate '/' hno hne'
      | true =>
        have hslash : ['/'] ++ ['/'].intercalate (names.map String.toList) =
            ['/'].intercalate ([] :: names.map String.toList) := by
          obtain ⟨l, rest, hl⟩ := List.exists_cons_of_ne_nil hne'
          rw [hl, List.intercalate_cons_cons]
          rfl
        rw [if_pos rfl, hslash]
        exact List.splitOn_intercalate '/' (List.forall_mem_cons.mpr ⟨by simp, hno⟩) (by simp)
    refine Eq.trans ?_ (hmap names hnames)
    simp only [slashPath, hsplit, List.filter_append]
    cases absolute <;> rfl
  · obtain ⟨name, rest, rfl⟩ := List.exists_cons_of_ne_nil hne
    obtain ⟨hname, hslash⟩ := hnames name List.mem_cons_self
    obtain ⟨c, chars, hchars⟩ := List.exists_cons_of_ne_nil hname
    have hc : c ≠ '/' := fun heq => hslash (hchars ▸ heq ▸ List.mem_cons_self)
    cases absolute with
    | true => simp [slashPath, joined]
    | false =>
      cases rest with
      | nil => simp [slashPath, joined, hchars, hc]
      | cons next rest => simp [slashPath, joined, hchars, hc]

/-- A root file system with a directory `mnt`, and a file system mounted there that has a directory
`x`. -/
def mountedDirectory : MountTree (Fin 5) where
  root := 0
  name := fun | 2 => "mnt" | 4 => "x" | _ => "/"
  lookup := fun
    | 1, "mnt" => some 2
    | 3, "x" => some 4
    | _, _ => none
  parent := fun | 0 => 0 | 1 => 0 | 2 => 1 | 3 => 2 | 4 => 3
  mountGate := fun | 0 => some 1 | 2 => some 3 | _ => none
  hosts := [0, 2]
  isDirectory _ := true
  isSymlink _ := false
  readLink _ := .error .ENOSYS
  gateDepth := fun | 0 | 2 => 1 | _ => 0
  gateDepth_lt := by decide
  parent_of_lookup := by
    intro e c name h
    split at h <;> first | cases h; rfl | cases h
  parent_of_gate := by decide
  lookup_ne_gate := by
    intro e c h name hlookup
    split at hlookup <;> first | cases hlookup; revert h; decide | cases hlookup
  root_ne_gate := by decide
  mem_hosts := by decide
  no_links _ := rfl
  level := Fin.val
  level_parent := by decide

/-- From the root, `/mnt/x/..` is the mounted root, and `..` was not taken there. -/
theorem resolve_eq_reference_through_mount :
    mountedDirectory.Inside 1 ["mnt", "x", ".."] ∧
      mountedDirectory.Agrees slashPath 0 true ["mnt", "x", ".."] := by
  have hnames : ∀ name ∈ ["mnt", "x", ".."], IsComponent name := by
    simp [IsComponent]
  have hinside : mountedDirectory.Inside 1 ["mnt", "x", ".."] := by
    rintro child hmnt -
    obtain rfl := Option.some.inj hmnt
    rintro child hx -
    obtain rfl := Option.some.inj hx
    exact ⟨by decide, trivial⟩
  exact ⟨hinside, (mountedDirectory.resolve_eq_reference_iff slashPath_splits 0 true hnames).mpr
    hinside 3 (by decide) le_rfl⟩

/-- `/mnt/..` is the root, but the resolver stays at the mounted root. -/
theorem not_agrees_dotDot_at_mount :
    mountedDirectory.reference 0 true ["mnt", ".."] = .ok 1 ∧
      (resolve mountedDirectory.toDirectoryGraph slashPath 0 (joined true ["mnt", ".."]) {}).run
        (fun _ => none) = some (.ok 3, ⟨1, some 3, "/"⟩) ∧
      ¬mountedDirectory.Agrees slashPath 0 true ["mnt", ".."] := by
  have hnames : ∀ name ∈ ["mnt", ".."], IsComponent name := by
    simp [IsComponent]
  refine ⟨by decide, by decide, fun h => ?_⟩
  have heq := (mountedDirectory.agrees_iff slashPath_splits 0 true (by simp) hnames).mp h
  revert heq
  decide

end Cryptix.VFS
