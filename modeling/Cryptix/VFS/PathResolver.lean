import Cryptix.Lib.Recursion
import Cryptix.Prism

/-!
# Path resolution

`Kernel/VFS/PathResolver.cpp`, with `FollowMounts`, `FollowSymlinks` and `GetEffectiveParent` of
`Kernel/VFS/DirectoryEntry.cpp` and `ResolvePath` of `Kernel/VFS/VFS.cpp`. A resolver walks the
components of a path from a start entry; a symbolic link in the middle of the path is followed by
resolving its target with a new resolver, and so on.

The functions call each other through `VFS::ResolvePath` without a bound that is carried from one
resolver to the next, so they are modelled as recursive procedures (`Lib.Proc`): a run of them
returns or it does not. The thread's `errno` is left out: `ResolvePath` reports a failure by an
entry that is null.
-/

namespace Cryptix.VFS

open Lib Lib.Proc

/-- The operations of Prism's `Path` and `StringView` that the resolver uses. -/
structure PrismPath where
  absolute : String → Bool
  split : String → List String
  parentPath : String → String
  baseName : String → String
  absolute_root : absolute "/" = true

/-- The directory entries the kernel has: the tree of names with its links and mounts. Every entry
but the root has a parent, which `Lookup` or `Mount` set, and `Mount` puts a fresh file system root
behind an entry that has no gate yet, so that the chains of gates are finite. -/
structure DirectoryGraph (E : Type*) where
  root : E
  name : E → String
  lookup : E → String → Option E
  parent : E → E
  mountGate : E → Option E
  hosts : List E
  isDirectory : E → Bool
  isSymlink : E → Bool
  readLink : E → Except Errno String
  gateDepth : E → ℕ
  gateDepth_lt : ∀ {e g}, mountGate e = some g → gateDepth g < gateDepth e

namespace DirectoryGraph

variable {E : Type*} (G : DirectoryGraph E)

/-- The loop of `DirectoryEntry::FollowMounts`, at most `n` times. -/
def followGates : ℕ → E → E
  | 0, e => e
  | n + 1, e =>
    match G.mountGate e with
    | none => e
    | some gate => followGates n gate

/-- `DirectoryEntry::FollowMounts`. -/
def followMounts (e : E) : E := G.followGates (G.gateDepth e) e

/-- `DirectoryEntry::IsMountPoint`: `SetMountGate` sets the flag and the gate together. -/
def isMountPoint (e : E) : Bool := (G.mountGate e).isSome

/-- `VFS::RootDirectoryEntry`. -/
def rootDirectoryEntry : E := G.followMounts G.root

/-- `DirectoryEntry::GetEffectiveParent`. `MountPoint::Lookup` finds a mount point by the entry it
is mounted on. -/
def getEffectiveParent [DecidableEq E] (e : E) : E :=
  if e = G.followMounts G.rootDirectoryEntry ∨ e = G.rootDirectoryEntry then e
  else match G.hosts.find? (· = e) with
    | some host => G.parent host
    | none => G.parent e

theorem mountGate_followGates {n : ℕ} {e : E} (h : G.gateDepth e ≤ n) :
    G.mountGate (G.followGates n e) = none := by
  induction n generalizing e with
  | zero =>
    rw [followGates]
    cases hg : G.mountGate e with
    | none => rfl
    | some g =>
      have := G.gateDepth_lt hg
      omega
  | succ n ih =>
    rw [followGates]
    split
    · assumption
    · rename_i g hg
      have := G.gateDepth_lt hg
      exact ih (by omega)

/-- `FollowMounts` ends at an entry that nothing is mounted on. -/
@[simp] theorem mountGate_followMounts (e : E) : G.mountGate (G.followMounts e) = none :=
  G.mountGate_followGates le_rfl

theorem followMounts_of_mountGate {e : E} (h : G.mountGate e = none) : G.followMounts e = e := by
  rw [followMounts]
  cases G.gateDepth e with
  | zero => rfl
  | succ n => rw [followGates, h]

@[simp] theorem followMounts_followMounts (e : E) :
    G.followMounts (G.followMounts e) = G.followMounts e :=
  G.followMounts_of_mountGate (G.mountGate_followMounts e)

@[simp] theorem followMounts_rootDirectoryEntry :
    G.followMounts G.rootDirectoryEntry = G.rootDirectoryEntry :=
  G.followMounts_followMounts G.root

end DirectoryGraph

/-- `PathLookupFlags`. Nothing asks for `eRegular` or `eFollowLinks`. -/
structure PathLookupFlags where
  parent : Bool := false
  followLinks : Bool := false
  negativeEntry : Bool := false
  mountPoint : Bool := false
  deriving DecidableEq, Repr

/-- `PathSegmentType`. -/
inductive PathSegmentType
  | eRegular | eDotDot | eDot
  deriving DecidableEq, Repr

/-- The type `GetNextSegment` gives a component. -/
def segmentType (name : String) : PathSegmentType :=
  if name = "." then .eDot else if name = ".." then .eDotDot else .eRegular

/-- `SYMLOOP_MAX`. -/
def symloopMax : ℕ := 40

/-- What a `PathResolver` is left with: `ParentEntry`, `DirectoryEntry` and `BaseName`. -/
structure PathResolver (E : Type*) where
  parent : E
  entry : Option E
  baseName : String
  deriving DecidableEq, Repr

/-- `VFS::PathResolution`. -/
structure PathResolution (E : Type*) where
  parent : E
  entry : Option E
  baseName : String
  deriving DecidableEq, Repr

/-- The calls that are made recursively: `PathResolver::FollowSymlinks` with the resolver at an
entry, and `DirectoryEntry::FollowSymlinks` of an entry with the count of links followed. -/
inductive LinkCall (E : Type*)
  | resolver (e : E)
  | entry (e : E) (cnt : Fin symloopMax)
  deriving DecidableEq, Repr

universe u

/-- Code that may follow links. -/
abbrev Resolving (E W : Type u) := Proc (LinkCall E) (Except Errno E) W

section Resolve

variable {E : Type u} [DecidableEq E] (G : DirectoryGraph E) (P : PrismPath)

/-- The path ends in a slash. -/
def endsInSlash (path : String) : Bool := path.toList.getLast? == some '/'

/-- The part of `Step` that follows the entry `e` when it is a link. -/
def stepThrough (e : E) : Resolving E (Except Errno E) :=
  if G.isSymlink e then perform (.resolver e) else pure (.ok e)

/-- `PathResolver::Step` from the entry `current`: the entry it goes to. -/
def step (path : String) (current : E) (name : String) (isLast : Bool) :
    Resolving E (Except Errno E) :=
  match G.lookup current name with
  | none => pure (.error .ENOENT)
  | some child =>
    if isLast then
      if endsInSlash path && !G.isDirectory child then pure (.error .ENOENT)
      else pure (.ok child)
    else do
      match ← stepThrough G (G.followMounts child) with
      | .error _ => pure (.error .ENOLINK)
      | .ok entry =>
        if G.isDirectory entry then pure (.ok entry) else pure (.error .ENOTDIR)

/-- The end of `Resolve`, when the walk has come to `entry`. -/
def finish (path : String) (flags : PathLookupFlags) (isLast : Bool)
    (parent entry : E) (baseName : String) : Except Errno E × PathResolver E :=
  if flags.negativeEntry && (G.lookup entry (P.baseName path)).isSome then
    (.error .EEXIST, ⟨parent, some entry, baseName⟩)
  else
    let entry :=
      if G.isMountPoint entry && !(isLast && flags.mountPoint) then G.followMounts entry
      else entry
    (.ok entry, ⟨parent, some entry, baseName⟩)

/-- The entry `FollowDots` goes to. -/
def followDots (type : PathSegmentType) (current : E) : E :=
  if type = .eDotDot then G.getEffectiveParent current else current

/-- The loop of `Resolve` over the components that are left, with the parent, the entry and the base
name so far. The last component always ends the walk, so the state `eTerminated` that the code tests
after the loop is not seen there. -/
def walk (path : String) (flags : PathLookupFlags) :
    List String → E → E → String → Resolving E (Except Errno E × PathResolver E)
  | [], parent, entry, baseName => pure (finish G P path flags false parent entry baseName)
  | name :: rest, parent, entry, baseName =>
    let isLast := rest.isEmpty
    let current := if isLast && flags.mountPoint then entry else G.followMounts entry
    match segmentType name with
    | .eRegular => do
      match ← step G path current name isLast with
      | .error code => pure (.error code, ⟨current, none, name⟩)
      | .ok next =>
        if isLast then pure (finish G P path flags true current next name)
        else walk path flags rest current next name
    | dots =>
      let next := followDots G dots current
      if isLast then
        let last := if flags.mountPoint then next else G.followMounts next
        pure (finish G P path flags true (G.getEffectiveParent next) last (G.name last))
      else walk path flags rest parent next baseName

/-- The entry a path is resolved from. -/
def startOf (start : E) (path : String) : E :=
  if P.absolute path then G.rootDirectoryEntry else start

/-- `PathResolver::Resolve` of a resolver that was made from `start` and `path`. `Initialize` fails
on an empty path, and `Resolve` then stops on its assertion. -/
def resolve (start : E) (path : String) (flags : PathLookupFlags) :
    Resolving E (Except Errno E × PathResolver E) :=
  if path = "" then halt
  else
    let entry := startOf G P start path
    let parent := if entry = G.rootDirectoryEntry then entry else G.followMounts entry
    if path = "/" then
      if flags.negativeEntry && (G.lookup entry (P.baseName path)).isSome then
        pure (.error .EEXIST, ⟨parent, some entry, "/"⟩)
      else pure (.ok entry, ⟨parent, some entry, "/"⟩)
    else
      let view := if flags.parent then P.parentPath path else path
      walk G P path flags (P.split view) parent entry "/"

/-- The end of `ResolvePath`: the entry the resolver was left with, followed on request. -/
def followEntry (followLinks : Bool) (resolver : PathResolver E) :
    Resolving E (PathResolution E) :=
  match resolver.entry with
  | some entry =>
    if followLinks then do
      let followed ← perform (.entry entry ⟨0, by decide⟩)
      pure ⟨resolver.parent, followed.toOption, resolver.baseName⟩
    else pure ⟨resolver.parent, some entry, resolver.baseName⟩
  | none => pure ⟨resolver.parent, none, resolver.baseName⟩

/-- `VFS::ResolvePath`. A null `parent` stands for the root. -/
def resolvePath (parent : Option E) (path : String) (followLinks : Bool) :
    Resolving E (PathResolution E) := do
  let start := startOf G P (parent.getD G.rootDirectoryEntry) path
  let result ← resolve G P start path { followLinks }
  followEntry followLinks result.2

/-- `PathResolver::FollowSymlink` at the entry `e`, with the resolver's `m_SymlinkDepth`. -/
def followSymlink (symlinkDepth : ℕ) (e : E) : Resolving E (Except Errno E) :=
  if symlinkDepth ≥ symloopMax - 1 then pure (.error .ELOOP)
  else match G.readLink e with
    | .error code => pure (.error code)
    | .ok target =>
      if target = "" then pure (.ok e)
      else do
        let resolution ← resolvePath G P (some (G.parent e)) target false
        match resolution.entry with
        | none => pure (.error .ENOLINK)
        | some next => pure (.ok next)

/-- The two functions that follow links. Every resolver has its own `m_SymlinkDepth`, which starts
at zero and is never counted up. -/
def followSymlinks : LinkCall E → Resolving E (Except Errno E)
  | .resolver e =>
    -- one turn of the loop of `PathResolver::FollowSymlinks`; the call is the next turn
    if G.isSymlink e then do
      match ← followSymlink G P 0 e with
      | .error code => pure (.error code)
      | .ok next => perform (.resolver next)
    else pure (.ok e)
  | .entry e cnt =>
    -- `DirectoryEntry::FollowSymlinks`; the count is not handed to the resolver
    match G.readLink e with
    | .error _ => pure (.ok e)
    | .ok target =>
      if target ≠ "" ∧ G.isSymlink e then
        if h : cnt.val + 1 < symloopMax then do
          let resolution ← resolvePath G P (some (G.parent e)) target true
          match resolution.entry with
          | none => pure (.error .ENOENT)
          | some next => perform (.entry next ⟨cnt + 1, h⟩)
        else pure (.error .ELOOP)
      else pure (.ok e)

end Resolve

end Cryptix.VFS
