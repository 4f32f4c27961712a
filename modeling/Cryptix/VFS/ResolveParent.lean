import Cryptix.VFS.LinkLoops

/-!
# The directory a new name is put into

`ResolveParent` of `Kernel/VFS/VFS.cpp` is handed a directory and a path, as `ResolvePath` is, but
makes its resolver from the root. So a relative path leads to the directory it names only when the
names before the last one lead there from the root, too (`agreesOnParent_iff`); a path of one name
always leads to the root (`agreesOnParent_name_iff`).
-/

namespace Cryptix.VFS

open Lib Lib.Proc

universe u

namespace DirectoryGraph

variable {E : Type u} [DecidableEq E] (G : DirectoryGraph E) (P : PrismPath)

/-- `VFS::ResolveParent`. The directory it is handed is not used. -/
def resolveParent (_parent : Option E) (path : String) : Resolving E (Except Errno E) := do
  let result ← resolve G P G.rootDirectoryEntry path { parent := true }
  match result.1 with
  | .error code => pure (.error code)
  | .ok directory =>
    pure (.ok (if G.isMountPoint directory then G.followMounts directory else directory))

/-- The parent part of a path leads from `d` to `x`. The path of a single name has an empty one. -/
def ParentPart (d : E) (path : String) (x : E) : Prop :=
  if P.parentPath path = "" then x = d
  else ∃ resolution : PathResolution E,
    Returns (followSymlinks G P) (resolvePath G P (some d) (P.parentPath path) true) resolution ∧
      resolution.entry = some x

/-- From `d`, a relative path has the parent that `ResolvePath` finds for its parent part; what an
absolute path has for a parent does not depend on `d`. -/
def AgreesOnParent (d : E) (path : String) : Prop :=
  if P.absolute path then
    ∀ parent v, Returns (followSymlinks G P) (resolveParent G P parent path) v ↔
      Returns (followSymlinks G P) (resolveParent G P (some d) path) v
  else path ≠ "" → ∀ x, G.ParentPart P d path x →
    Returns (followSymlinks G P) (resolveParent G P (some d) path) (.ok x)

/-- The names of the parent part of a path lead from the root to `x`, without following a link at
their end. -/
def LeadsFromRoot (path : String) (x : E) : Prop :=
  G.Arrives P
    (.walk (endsInSlash path) G.rootDirectoryEntry (P.namesFor { parent := true } path)) x

variable {G P}

/-- A way along names ends at an entry that nothing is mounted on. -/
theorem mountGate_of_arrives {slash : Bool} {e x : E} {names : List String}
    (h : G.Arrives P (.walk slash e names) x) : G.mountGate x = none := by
  generalize ht : Trip.walk slash e names = t at h
  induction h generalizing slash e names with
  | stop | link => cases ht
  | nil => exact G.mountGate_followMounts _
  | last => exact G.mountGate_followMounts _
  | name _ _ _ _ _ _ _ ih => exact ih rfl
  | dots _ _ ih => exact ih rfl

/-- What a walk returns is the entry the resolver is left with. -/
theorem toOption_of_walk {f : LinkCall E → Option (Except Errno E)} {path : String}
    {flags : PathLookupFlags} (hm : flags.mountPoint = false)
    (hneg : flags.negativeEntry = false) {names : List String} {parent e : E}
    {baseName : String} {w : Except Errno E × PathResolver E}
    (h : (walk G P path flags names parent e baseName).run f = some w) :
    w.1.toOption = w.2.entry := by
  induction names generalizing parent e baseName with
  | nil =>
    rw [walk, finish_eq hm hneg, run_pure, Option.some.injEq] at h
    rw [← h]
    rfl
  | cons name rest ih =>
    by_cases hn : segmentType name = .eRegular
    · by_cases hr : rest = []
      · subst hr
        obtain ⟨v, hv, -⟩ := step_last (G := G) path name (G.followMounts e)
        cases v with
        | error code =>
          have hw : walk G P path flags [name] parent e baseName
              = pure (.error code, ⟨G.followMounts e, none, name⟩) := by
            simp [walk, hn, hm, hv]
            rfl
          rw [hw, run_pure, Option.some.injEq] at h
          rw [← h]
          rfl
        | ok c =>
          have hw : walk G P path flags [name] parent e baseName
              = pure (finish G P path flags true (G.followMounts e) c name) := by
            simp [walk, hn, hm, hv]
            rfl
          rw [hw, finish_eq hm hneg, run_pure, Option.some.injEq] at h
          rw [← h]
          rfl
      · rw [walk_middle hr hn, run_bind, Option.bind_eq_some_iff] at h
        obtain ⟨v, -, hw⟩ := h
        cases v with
        | error code =>
          rw [run_pure, Option.some.injEq] at hw
          rw [← hw]
          rfl
        | ok next => exact ih hw
    · by_cases hr : rest = []
      · subst hr
        rw [walk_dots_last hn, finish_eq hm hneg, run_pure, Option.some.injEq] at h
        rw [← h]
        rfl
      · rw [walk_dots hr hn] at h
        exact ih h

/-- `ResolveParent` walks along the names of the parent part from the root. -/
theorem returns_resolveParent_iff {path : String} (hne : path ≠ "")
    (habs : P.absolute path = false) (parent : Option E) (x : E) :
    Returns (followSymlinks G P) (resolveParent G P parent path) (.ok x) ↔
      G.LeadsFromRoot P path x := by
  have hstart : startOf G P G.rootDirectoryEntry path = G.rootDirectoryEntry := by
    simp [startOf, habs]
  obtain ⟨p, hp⟩ := resolve_eq (G := G) (P := P) hne G.rootDirectoryEntry { parent := true }
  rw [hstart] at hp
  rw [resolveParent, hp, returns_bind]
  constructor
  · rintro ⟨w, ⟨n, hn⟩, hx⟩
    cases hw : w.1 with
    | error code => simp [hw] at hx
    | ok y =>
      have hentry : w.2.entry = some y := by rw [← toOption_of_walk rfl rfl hn, hw]; rfl
      have harr : G.LeadsFromRoot P path y :=
        arrives_of_walk (fun _ _ => arrives_of_value) rfl rfl hn hentry
      obtain rfl : y = x := by simpa [hw, isMountPoint, mountGate_of_arrives harr] using hx
      exact harr
  · intro harr
    obtain ⟨w, ⟨n, hn⟩, hentry⟩ := reached_of_arrives harr path { parent := true } p "/" rfl rfl rfl
    refine ⟨w, ⟨n, hn⟩, ?_⟩
    have hw : w.1 = .ok x := by
      have := toOption_of_walk rfl rfl hn
      rw [hentry] at this
      cases hres : w.1 with
      | error code => simp [hres, Except.toOption] at this
      | ok y => simpa [hres, Except.toOption] using this
    simp [hw, isMountPoint, mountGate_of_arrives harr]

variable (G P)

theorem agreesOnParent_relative (d : E) {path : String} (habs : P.absolute path = false)
    (hne : path ≠ "") :
    G.AgreesOnParent P d path ↔ ∀ x, G.ParentPart P d path x → G.LeadsFromRoot P path x := by
  rw [AgreesOnParent, habs]
  simp only [Bool.false_eq_true, if_false, hne, ne_eq, not_false_eq_true, forall_const]
  apply forall_congr'
  intro x
  rw [returns_resolveParent_iff hne habs]

/-- `ResolveParent` agrees with `ResolvePath` exactly when the names of the parent part lead from
the root to where they lead from the directory that was handed in. -/
theorem agreesOnParent_iff (d : E) (path : String) :
    G.AgreesOnParent P d path ↔
      (P.absolute path = false → path ≠ "" → ∀ x, G.ParentPart P d path x →
        G.LeadsFromRoot P path x) := by
  by_cases hrel : P.absolute path = false ∧ path ≠ ""
  · rw [G.agreesOnParent_relative P d hrel.1 hrel.2]
    simp [hrel]
  · unfold AgreesOnParent
    cases habs : P.absolute path with
    | true => simp [resolveParent]
    | false => simp [show path = "" by simpa [habs] using hrel]

/-- For a path of a single name they agree in the root only. -/
theorem agreesOnParent_name_iff (hsplit : P.split "" = []) (d : E) {path : String}
    (habs : P.absolute path = false) (hne : path ≠ "") (hname : P.parentPath path = "") :
    G.AgreesOnParent P d path ↔ d = G.rootDirectoryEntry := by
  have hroot : path ≠ "/" := by
    rintro rfl
    simp [P.absolute_root] at habs
  have hnames : P.namesFor { parent := true } path = [] := by
    simp [PrismPath.namesFor, hroot, hname, hsplit]
  rw [G.agreesOnParent_relative P d habs hne]
  simp only [ParentPart, hname, LeadsFromRoot, hnames, if_true, forall_eq]
  constructor
  · intro harr
    cases harr
    exact G.followMounts_rootDirectoryEntry
  · rintro rfl
    have hnil : G.Arrives P (.walk (endsInSlash path) G.rootDirectoryEntry [])
        (G.followMounts G.rootDirectoryEntry) := .nil
    rwa [followMounts_rootDirectoryEntry] at hnil

end DirectoryGraph

/-- Below the directory `d`, the parent of the name `b` is the root. -/
theorem not_agreesOnParent_in_directory :
    ¬(linkBesideDirectory "/d").AgreesOnParent slashPath 2 "b" := by
  intro h
  have hrelative : slashPath.absolute "b" = false := by decide
  have hroot := (DirectoryGraph.agreesOnParent_name_iff _ _ (by decide) 2 hrelative
    (by decide) (by decide)).mp h
  revert hroot
  decide

end Cryptix.VFS
