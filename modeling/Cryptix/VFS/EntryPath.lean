import Cryptix.VFS.MountWalk

/-!
# The path of a directory entry

`DirectoryEntry::Path` of `Kernel/VFS/DirectoryEntry.cpp` walks up from an entry and puts the names
it comes by in front of each other; `PathResolver` walks down along the names of a path. The way up
leads from the root of a mounted file system to the directory it is mounted on, and that root is
named `/`, which is left out. On the way down the resolver follows the mounts. So the path of an
entry that names lead to is made of these names, and it leads back (`path_resolves`).

Prism's `StringBuilder::Insert` is taken to put a string in front of what is there.
-/

namespace Cryptix.VFS

open Lib Lib.Proc

universe u

/-- The loop of `DirectoryEntry::Path`, for at most `n` turns. The parent of the entry that the
first file system was mounted on is null. -/
def DirectoryGraph.pathLoop {E : Type u} [DecidableEq E] (G : DirectoryGraph E) :
    ℕ → E → String → Option String
  | 0, _, _ => none
  | n + 1, current, pathBuilder =>
    if current = G.rootDirectoryEntry then some pathBuilder
    else
      let segment := "/" ++ G.name current
      let pathBuilder := if G.name current ≠ "/" then segment ++ pathBuilder else pathBuilder
      if current = G.root then some pathBuilder
      else pathLoop G n (G.getEffectiveParent current) pathBuilder

/-- `DirectoryEntry::Path`. -/
def DirectoryGraph.path {E : Type u} [DecidableEq E] (G : DirectoryGraph E) (fuel : ℕ) (e : E) :
    Option String :=
  (G.pathLoop fuel e "").map fun path => if path = "" then "/" else path

/-- A tree of mounted file systems with the names the kernel gives: `Lookup` makes an entry under
the name it looks for, every file system makes its root under the name `/`, and the entry that the
first one is mounted on is in no directory. -/
structure NamedTree (E : Type u) extends MountTree E where
  name_of_lookup : ∀ {e c n}, lookup e n = some c → name c = n
  name_of_gate : ∀ {h g}, mountGate h = some g → name g = "/"
  lookup_ne_root : ∀ {e n}, lookup e n ≠ some root

/-- A name that a path can have as a component, and that is not `.` or `..`. -/
structure IsName (name : String) : Prop where
  component : IsComponent name
  regular : segmentType name = .eRegular

theorem IsName.ne_slash {name : String} (h : IsName name) : name ≠ "/" := by
  rintro rfl
  exact h.component.2 (List.mem_singleton_self '/')

namespace NamedTree

variable {E : Type u} (T : NamedTree E)

/-- The entries that names lead to from the root: those of a directory that is on top, and the roots
that are mounted on them. -/
inductive Reached : List String → E → Prop
  | root : Reached [] T.rootDirectoryEntry
  | child {names : List String} {name : String} {d c : E} (h : Reached names d)
    (htop : T.mountGate d = none) (hdir : names = [] ∨ T.isDirectory d = true)
    (hname : IsName name) (hlookup : T.lookup d name = some c) : Reached (names ++ [name]) c
  | mounted {names : List String} {e g : E} (h : Reached names e)
    (hgate : T.mountGate e = some g) : Reached names g

/-! ## Stacks of mounts -/

/-- One entry is mounted on the other, directly or not, or they are one. -/
inductive Stacked : E → E → Prop
  | refl (e : E) : Stacked e e
  | gate {e h g : E} (hstack : Stacked e h) (hgate : T.mountGate h = some g) : Stacked e g

variable {T}

theorem Stacked.head {e g t : E} (hgate : T.mountGate e = some g) (h : T.Stacked g t) :
    T.Stacked e t := by
  induction h with
  | refl => exact .gate (.refl e) hgate
  | gate _ hnext ih => exact .gate ih hnext

theorem stacked_followMounts (e : E) : T.Stacked e (T.followMounts e) := by
  induction hdepth : T.gateDepth e using Nat.strong_induction_on generalizing e with
  | _ depth ih =>
    cases hgate : T.mountGate e with
    | none =>
      rw [T.followMounts_of_mountGate hgate]
      exact .refl e
    | some g =>
      rw [T.followMounts_of_gate hgate]
      exact (ih _ (hdepth ▸ T.gateDepth_lt hgate) g rfl).head hgate

/-- An entry is mounted on one only, so that what is under it is one stack. -/
theorem Stacked.total {e e' t : E} (h : T.Stacked e t) (h' : T.Stacked e' t) :
    T.Stacked e e' ∨ T.Stacked e' e := by
  induction h with
  | refl => exact Or.inr h'
  | gate hstack hgate ih =>
    cases h' with
    | refl => exact Or.inl (.gate hstack hgate)
    | gate hstack' hgate' =>
      have hhost := (T.parent_of_gate hgate).symm.trans (T.parent_of_gate hgate')
      exact ih (hhost ▸ hstack')

theorem Stacked.eq_of_not_gate {e e' : E} (h : T.Stacked e e')
    (hnot : ∀ g, T.mountGate g ≠ some e') : e = e' := by
  cases h with
  | refl => rfl
  | gate _ hgate => exact absurd hgate (hnot _)

/-- No directory has an entry below the root that is on top. -/
theorem followMounts_ne_root {d c : E} {name : String} (hlookup : T.lookup d name = some c) :
    T.followMounts c ≠ T.rootDirectoryEntry := by
  intro heq
  have hchild : ∀ g, T.mountGate g ≠ some c := fun _ => T.lookup_ne_gate hlookup
  have hroot : ∀ g, T.mountGate g ≠ some T.root := fun _ => T.root_ne_gate
  have hstack := stacked_followMounts (T := T) c
  rw [heq] at hstack
  rcases hstack.total (stacked_followMounts T.root) with hle | hle
  · exact T.lookup_ne_root (hle.eq_of_not_gate hroot ▸ hlookup)
  · exact T.lookup_ne_root (hle.eq_of_not_gate hchild ▸ hlookup)

/-! ## Down and up again -/

variable [DecidableEq E]

omit [DecidableEq E] in
/-- Names lead to the root only if there are none. -/
theorem Reached.ne_root {names : List String} {e : E} (h : T.Reached names e) :
    names = [] ∧ e = T.rootDirectoryEntry ∨
      names ≠ [] ∧ e ≠ T.root ∧ T.followMounts e ≠ T.rootDirectoryEntry := by
  induction h with
  | root => exact Or.inl ⟨rfl, rfl⟩
  | child _ _ _ _ hlookup =>
    refine Or.inr ⟨List.append_ne_nil_of_right_ne_nil _ (List.cons_ne_nil _ _), ?_, ?_⟩
    · rintro rfl
      exact T.lookup_ne_root hlookup
    · exact followMounts_ne_root hlookup
  | mounted _ hgate ih =>
    rcases ih with ⟨-, rfl⟩ | ⟨hnames, -, htop⟩
    · have hnone := T.mountGate_followMounts T.root
      rw [← DirectoryGraph.rootDirectoryEntry, hgate] at hnone
      cases hnone
    · refine Or.inr ⟨hnames, ?_, ?_⟩
      · rintro rfl
        exact T.root_ne_gate hgate
      · rwa [← T.followMounts_of_gate hgate]

omit [DecidableEq E] in
theorem Reached.isName {names : List String} {e : E} (h : T.Reached names e) :
    ∀ name ∈ names, IsName name := by
  induction h with
  | root => exact List.forall_mem_nil _
  | child _ _ _ hname _ ih =>
    rw [List.forall_mem_append, List.forall_mem_singleton]
    exact ⟨ih, hname⟩
  | mounted _ _ ih => exact ih

omit [DecidableEq E] in
/-- A walk that comes to a directory goes on from there. -/
theorem walkBy_append (G : DirectoryGraph E) {up : E → E} {names rest : List String} {e d : E}
    (hwalk : G.walkBy up e names = .ok d) (hdir : names = [] ∨ G.isDirectory d = true) :
    G.walkBy up e (names ++ rest) = G.walkBy up d rest := by
  induction names generalizing e with
  | nil =>
    cases hwalk
    rfl
  | cons name names ih =>
    have hdirectory := hdir.resolve_left (List.cons_ne_nil _ _)
    rw [DirectoryGraph.walkBy] at hwalk
    rw [List.cons_append, DirectoryGraph.walkBy]
    cases htype : segmentType name with
    | eDot =>
      simp only [htype] at hwalk ⊢
      exact ih hwalk (Or.inr hdirectory)
    | eDotDot =>
      simp only [htype] at hwalk ⊢
      exact ih hwalk (Or.inr hdirectory)
    | eRegular =>
      simp only [htype] at hwalk ⊢
      cases hlookup : G.lookup e name with
      | none =>
        rw [hlookup] at hwalk
        cases hwalk
      | some child =>
        simp only [hlookup] at hwalk ⊢
        by_cases hstop : names ≠ [] ∧ G.isDirectory (G.followMounts child) = false
        · rw [if_pos hstop] at hwalk
          cases hwalk
        · rw [if_neg hstop] at hwalk
          rw [if_neg]
          · exact ih hwalk (Or.inr hdirectory)
          · rintro ⟨-, hfalse⟩
            cases names with
            | nil =>
              cases hwalk
              exact Bool.false_ne_true (hfalse.symm.trans hdirectory)
            | cons next names => exact hstop ⟨List.cons_ne_nil _ _, hfalse⟩

/-- The names that lead to an entry lead the resolver to what is mounted on it. -/
theorem Reached.walkBy_eq {names : List String} {e : E} (h : T.Reached names e) :
    T.walkBy T.getEffectiveParent T.rootDirectoryEntry names = .ok (T.followMounts e) := by
  induction h with
  | root => rw [T.followMounts_rootDirectoryEntry, DirectoryGraph.walkBy]
  | child _ htop hdir hname hlookup ih =>
    rw [T.followMounts_of_mountGate htop] at ih
    rw [walkBy_append T.toDirectoryGraph ih hdir, DirectoryGraph.walkBy, hname.regular, hlookup]
    simp only [ne_eq, not_true_eq_false, false_and, if_false]
    rfl
  | mounted _ hgate ih => rw [ih, T.followMounts_of_gate hgate]

/-- The names with a slash in front of each. -/
def written : List String → String
  | [] => ""
  | name :: rest => "/" ++ name ++ written rest

theorem getEffectiveParent_of_ne {e : E} (hne : e ≠ T.rootDirectoryEntry) :
    T.getEffectiveParent e = T.parent e := by
  rw [DirectoryGraph.getEffectiveParent, T.followMounts_rootDirectoryEntry, if_neg (by simpa)]
  cases hhost : T.hosts.find? (· = e) with
  | none => rfl
  | some host =>
    have hsame := List.find?_some (p := fun h => decide (h = e)) hhost
    rw [of_decide_eq_true hsame]

omit [DecidableEq E] in
theorem Reached.ne_rootDirectoryEntry {names : List String} {e : E} (h : T.Reached names e)
    (hne : names ≠ []) : e ≠ T.rootDirectoryEntry := by
  rcases h.ne_root with ⟨hnames, -⟩ | ⟨-, -, htop⟩
  · exact absurd hnames hne
  · rintro rfl
    exact htop T.followMounts_rootDirectoryEntry

theorem written_append (names rest : List String) :
    written (names ++ rest) = written names ++ written rest := by
  induction names with
  | nil => rw [List.nil_append, written, String.empty_append]
  | cons name names ih =>
    rw [List.cons_append, written, ih, written]
    simp only [String.append_assoc]

/-- The way up from an entry comes by the names that lead to it. -/
theorem Reached.pathLoop_eq {names : List String} {e : E} (h : T.Reached names e)
    (pathBuilder : String) :
    ∃ fuel, T.pathLoop fuel e pathBuilder = some (written names ++ pathBuilder) := by
  induction h generalizing pathBuilder with
  | root =>
    refine ⟨1, ?_⟩
    rw [DirectoryGraph.pathLoop, if_pos rfl, written, String.empty_append]
  | @child names name d c h htop hdir hname hlookup ih =>
    have hreached := Reached.child h htop hdir hname hlookup
    have hne := hreached.ne_rootDirectoryEntry
      (List.append_ne_nil_of_right_ne_nil _ (List.cons_ne_nil _ _))
    have hroot : c ≠ T.root := by
      rintro rfl
      exact T.lookup_ne_root hlookup
    obtain ⟨fuel, hloop⟩ := ih ("/" ++ name ++ pathBuilder)
    refine ⟨fuel + 1, ?_⟩
    rw [DirectoryGraph.pathLoop, if_neg hne, T.name_of_lookup hlookup, if_neg hroot,
      if_pos hname.ne_slash, getEffectiveParent_of_ne hne, T.parent_of_lookup hlookup, hloop,
      written_append, written, written, String.append_empty]
    simp only [String.append_assoc]
  | @mounted names e g h hgate ih =>
    have hnames : names ≠ [] := by
      rcases h.ne_root with ⟨-, rfl⟩ | ⟨hnames, -⟩
      · have hnone := T.mountGate_followMounts T.root
        rw [← DirectoryGraph.rootDirectoryEntry, hgate] at hnone
        cases hnone
      · exact hnames
    have hne := (Reached.mounted h hgate).ne_rootDirectoryEntry hnames
    have hroot : g ≠ T.root := by
      rintro rfl
      exact T.root_ne_gate hgate
    obtain ⟨fuel, hloop⟩ := ih pathBuilder
    refine ⟨fuel + 1, ?_⟩
    rw [DirectoryGraph.pathLoop, if_neg hne, T.name_of_gate hgate, if_neg hroot,
      if_neg (not_not.mpr rfl), getEffectiveParent_of_ne hne, T.parent_of_gate hgate, hloop]

theorem toList_written {names : List String} (hne : names ≠ []) :
    (written names).toList = '/' :: ['/'].intercalate (names.map String.toList) := by
  induction names with
  | nil => exact absurd rfl hne
  | cons name rest ih =>
    rw [written, String.toList_append, String.toList_append]
    cases rest with
    | nil => rfl
    | cons next rest =>
      rw [ih (List.cons_ne_nil _ _), List.map_cons, List.map_cons, List.map_cons,
        List.intercalate_cons_cons]
      simp

/-- The path is the one that has the names as its components. -/
theorem written_eq_joined {names : List String} (hne : names ≠ []) :
    written names = joined true names := by
  apply String.toList_inj.mp
  rw [toList_written hne, joined, String.toList_ofList]
  rfl

/-- **The path of an entry leads back to it.** `Path` returns for every entry that names lead to,
and the resolver comes from the root along this path to the entry, or to the root of what is mounted
on it. -/
theorem path_resolves {P : PrismPath} (hP : P.Splits) {names : List String} {e : E}
    (h : T.Reached names e) :
    ∃ fuel path resolver, T.path fuel e = some path ∧
      Returns (followSymlinks T.toDirectoryGraph P)
        (resolve T.toDirectoryGraph P T.rootDirectoryEntry path {})
        (.ok (T.followMounts e), resolver) := by
  obtain ⟨fuel, hloop⟩ := h.pathLoop_eq ""
  rw [String.append_empty] at hloop
  by_cases hnames : names = []
  · subst hnames
    have hroot : e = T.rootDirectoryEntry := by
      rcases h.ne_root with ⟨-, heq⟩ | ⟨hne, -⟩
      · exact heq
      · exact absurd rfl hne
    refine ⟨fuel, "/", ⟨T.rootDirectoryEntry, some T.rootDirectoryEntry, "/"⟩, ?_, ?_⟩
    · rw [DirectoryGraph.path, hloop, written, Option.map_some, if_pos rfl]
    · rw [resolve, if_neg (by decide), if_pos rfl, hroot, T.followMounts_rootDirectoryEntry,
        startOf, if_pos P.absolute_root]
      simp only [Bool.false_and, Bool.false_eq_true, if_false, if_true, returns_pure]
  · have hwritten := written_eq_joined hnames
    have hcomponents : ∀ name ∈ names, IsComponent name := fun name hname =>
      (h.isName name hname).component
    have hempty := (joined_ends true hnames hcomponents).1
    obtain ⟨resolver, hresolve⟩ :=
      resolve_regular hP T.no_links T.rootDirectoryEntry true hnames hcomponents
    refine ⟨fuel, joined true names, resolver, ?_, ?_⟩
    · rw [DirectoryGraph.path, hloop, hwritten, Option.map_some, if_neg hempty]
    · rw [hresolve, returns_pure, if_pos rfl, T.followMounts_rootDirectoryEntry, h.walkBy_eq]

end NamedTree

theorem mountedDirectory_name_of_lookup {e c : Fin 5} {n : String}
    (h : mountedDirectory.lookup e n = some c) : mountedDirectory.name c = n := by
  simp only [mountedDirectory] at h
  split at h <;> cases h <;> rfl

theorem mountedDirectory_name_of_gate {h g : Fin 5}
    (hgate : mountedDirectory.mountGate h = some g) : mountedDirectory.name g = "/" := by
  revert h g
  decide

theorem mountedDirectory_lookup_ne_root {e : Fin 5} {n : String} :
    mountedDirectory.lookup e n ≠ some mountedDirectory.root := by
  intro h
  simp only [mountedDirectory] at h
  split at h <;> cases h

/-- The names of the tree with a mounted directory. -/
def mountedNames : NamedTree (Fin 5) where
  toMountTree := mountedDirectory
  name_of_lookup := @mountedDirectory_name_of_lookup
  name_of_gate := @mountedDirectory_name_of_gate
  lookup_ne_root := @mountedDirectory_lookup_ne_root

/-- The path `/mnt/x`, through a mount. -/
theorem path_resolves_mounted : mountedNames.Reached ["mnt", "x"] 4 ∧
    ∃ fuel path resolver, mountedNames.path fuel 4 = some path ∧
      Returns (followSymlinks mountedNames.toDirectoryGraph slashPath)
        (resolve mountedNames.toDirectoryGraph slashPath mountedNames.rootDirectoryEntry path {})
        (.ok (mountedNames.followMounts 4), resolver) := by
  have hmnt : mountedNames.Reached ([] ++ ["mnt"]) 2 := by
    apply NamedTree.Reached.child .root (by decide) (Or.inl rfl) ⟨by simp [IsComponent], by decide⟩
    rfl
  have hx : mountedNames.Reached (["mnt"] ++ ["x"]) 4 := by
    apply NamedTree.Reached.child (.mounted hmnt (g := 3) rfl) rfl (Or.inr rfl)
      ⟨by simp [IsComponent], by decide⟩
    rfl
  exact ⟨hx, NamedTree.path_resolves slashPath_splits hx⟩

end Cryptix.VFS
