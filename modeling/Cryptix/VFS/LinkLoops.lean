import Mathlib.Data.Finite.Prod
import Cryptix.VFS.PathResolver

/-!
# When path resolution ends

What a path names is said here without the resolver: `Arrives` is the walk along the components of
a path, with the links in its middle replaced by the entries they lead to. `Meets` are the links a
walk comes to before its last component, and `Follows` says which links have to be followed in
order to follow a link. The resolver returns exactly when no link it comes to has to be followed in
order to follow itself (`resolve_ends_iff`, `resolvePath_ends_iff`): the functions that follow
links call each other through new resolvers, and neither the resolver's depth nor the entry's count
gets from one to the next.
-/

namespace Cryptix.VFS

open Lib Lib.Proc

universe u

variable {E : Type u} [DecidableEq E]

/-- A piece of the way a path describes: from a link to the entry it leads to, or from an entry
along the components of a path that ends in a slash or does not. -/
inductive Trip (E : Type u)
  | link (e : E)
  | walk (slash : Bool) (e : E) (names : List String)

namespace PrismPath

variable (P : PrismPath)

/-- The components of a path. -/
def names (path : String) : List String := if path = "/" then [] else P.split path

/-- The components of a path that a resolver with the given flags walks along. -/
def namesFor (flags : PathLookupFlags) (path : String) : List String :=
  if path = "/" then [] else P.split (if flags.parent then P.parentPath path else path)

end PrismPath

namespace DirectoryGraph

variable (G : DirectoryGraph E) (P : PrismPath)

/-- The way of the target of a link in the directory `parent`. -/
def targetTrip (parent : E) (target : String) : Trip E :=
  .walk (endsInSlash target) (startOf G P parent target) (P.names target)

/-- Where a way leads. -/
inductive Arrives : Trip E → E → Prop
  | stop {e : E} (he : G.isSymlink e = false) : Arrives (.link e) e
  | link {e x d : E} {target : String} (he : G.isSymlink e = true)
      (ht : G.readLink e = .ok target) (hne : target ≠ "")
      (hx : Arrives (G.targetTrip P (G.parent e) target) x) (hd : Arrives (.link x) d) :
      Arrives (.link e) d
  | nil {slash : Bool} {e : E} : Arrives (.walk slash e []) (G.followMounts e)
  | last {slash : Bool} {e c : E} {name : String} (hn : segmentType name = .eRegular)
      (hc : G.lookup (G.followMounts e) name = some c)
      (hs : slash = true → G.isDirectory c = true) :
      Arrives (.walk slash e [name]) (G.followMounts c)
  | name {slash : Bool} {e c d x : E} {name : String} {rest : List String} (hr : rest ≠ [])
      (hn : segmentType name = .eRegular) (hc : G.lookup (G.followMounts e) name = some c)
      (hd : Arrives (.link (G.followMounts c)) d) (hdir : G.isDirectory d = true)
      (hx : Arrives (.walk slash d rest) x) : Arrives (.walk slash e (name :: rest)) x
  | dots {slash : Bool} {e x : E} {name : String} {rest : List String}
      (hn : segmentType name ≠ .eRegular)
      (hx : Arrives (.walk slash (followDots G (segmentType name) (G.followMounts e)) rest) x) :
      Arrives (.walk slash e (name :: rest)) x

/-- The links that the walk from an entry along some names comes to before the last name. -/
inductive Meets : E → List String → E → Prop
  | here {e c : E} {name : String} {rest : List String} (hr : rest ≠ [])
      (hn : segmentType name = .eRegular) (hc : G.lookup (G.followMounts e) name = some c)
      (hl : G.isSymlink (G.followMounts c) = true) :
      Meets e (name :: rest) (G.followMounts c)
  | name {e c d l : E} {name : String} {rest : List String}
      (hn : segmentType name = .eRegular) (hc : G.lookup (G.followMounts e) name = some c)
      (hd : G.Arrives P (.link (G.followMounts c)) d) (hdir : G.isDirectory d = true)
      (hl : Meets d rest l) : Meets e (name :: rest) l
  | dots {e l : E} {name : String} {rest : List String} (hn : segmentType name ≠ .eRegular)
      (hl : Meets (followDots G (segmentType name) (G.followMounts e)) rest l) :
      Meets e (name :: rest) l

end DirectoryGraph

/-- A link that has to be followed: in the middle of a path, or as the entry a path ends at. -/
structure Link (E : Type u) where
  entry : E
  isLast : Bool
  deriving DecidableEq, Repr

instance [Finite E] : Finite (Link E) :=
  Finite.of_injective (fun l : Link E => (l.entry, l.isLast)) fun l l' h => by
    cases l
    cases l'
    simpa using h

namespace DirectoryGraph

variable (G : DirectoryGraph E) (P : PrismPath)

/-- In order to follow a link, the links in the middle of its target have to be followed, and then
the link its target ends at. A link without a target leads to itself, unless a path ends at it. -/
inductive Follows : Link E → Link E → Prop
  | empty {e : E} (he : G.isSymlink e = true) (ht : G.readLink e = .ok "") :
      Follows ⟨e, false⟩ ⟨e, false⟩
  | middle {e l : E} {isLast : Bool} {target : String} (he : G.isSymlink e = true)
      (ht : G.readLink e = .ok target) (hne : target ≠ "")
      (hl : G.Meets P (startOf G P (G.parent e) target) (P.names target) l) :
      Follows ⟨e, isLast⟩ ⟨l, false⟩
  | last {e x : E} {isLast : Bool} {target : String} (he : G.isSymlink e = true)
      (ht : G.readLink e = .ok target) (hne : target ≠ "")
      (hx : G.Arrives P (G.targetTrip P (G.parent e) target) x) (hxl : G.isSymlink x = true) :
      Follows ⟨e, isLast⟩ ⟨x, isLast⟩

/-- No link that has to be followed for `l` has to be followed in order to follow itself. -/
def LoopFree (l : Link E) : Prop :=
  ∀ m, Relation.ReflTransGen (G.Follows P) l m → ¬Relation.TransGen (G.Follows P) m m

/-! ## The walk of the resolver is the way of the path -/

variable {G P}

omit [DecidableEq E] in
/-- A step in the middle of a path goes to a directory that the child leads to. -/
theorem run_step_middle {f : LinkCall E → Option (Except Errno E)} {path name : String}
    {current d : E} (h : (step G path current name false).run f = some (.ok d)) :
    ∃ c, G.lookup current name = some c ∧ G.isDirectory d = true ∧
      (stepThrough G (G.followMounts c)).run f = some (.ok d) := by
  rw [step] at h
  cases hc : G.lookup current name with
  | none => simp [hc] at h
  | some c =>
    refine ⟨c, rfl, ?_⟩
    simp only [hc, Bool.false_eq_true, if_false, run_bind, Option.bind_eq_some_iff] at h
    obtain ⟨followed, hf, hd⟩ := h
    cases followed with
    | error _ => simp at hd
    | ok entry =>
      by_cases hdir : G.isDirectory entry = true
      · obtain rfl : entry = d := by simpa [hdir] using hd
        exact ⟨hdir, hf⟩
      · simp [hdir] at hd

/-- Where the resolver goes through a child, the child leads. -/
theorem arrives_of_stepThrough {f : LinkCall E → Option (Except Errno E)}
    (hf : ∀ e d, f (.resolver e) = some (.ok d) → G.Arrives P (.link e) d) {e d : E}
    (h : (stepThrough G e).run f = some (.ok d)) : G.Arrives P (.link e) d := by
  rw [stepThrough] at h
  split at h
  · exact hf e d (by simpa using h)
  · rename_i hl
    obtain rfl : e = d := by simpa using h
    exact .stop (by simpa using hl)

omit [DecidableEq E] in
/-- A resolver that is asked for nothing special ends at the root of what is mounted. -/
theorem finish_eq {path : String} {flags : PathLookupFlags} (hm : flags.mountPoint = false)
    (hneg : flags.negativeEntry = false) (isLast : Bool) (parent e : E) (baseName : String) :
    finish G P path flags isLast parent e baseName
      = (.ok (G.followMounts e), ⟨parent, some (G.followMounts e), baseName⟩) := by
  cases hg : G.mountGate e with
  | none => simp [finish, hneg, isMountPoint, hg, G.followMounts_of_mountGate hg]
  | some g => simp [finish, hneg, hm, isMountPoint, hg]

/-- In the middle of a path the flags do not matter. -/
theorem walk_middle {path : String} {flags : PathLookupFlags} {name : String} {rest : List String}
    (hr : rest ≠ []) (hn : segmentType name = .eRegular) (parent e : E) (baseName : String) :
    walk G P path flags (name :: rest) parent e baseName = (do
      match ← step G path (G.followMounts e) name false with
      | .error code => pure (.error code, ⟨G.followMounts e, none, name⟩)
      | .ok next => walk G P path flags rest (G.followMounts e) next name) := by
  have hempty : rest.isEmpty = false := by simpa using hr
  have hwalk := walk.eq_def G P path flags (name :: rest) parent e baseName
  simp only [hempty, hn, Bool.false_and, Bool.false_eq_true, if_false] at hwalk
  exact hwalk

theorem walk_dots {path : String} {flags : PathLookupFlags} {name : String} {rest : List String}
    (hr : rest ≠ []) (hn : segmentType name ≠ .eRegular) (parent e : E) (baseName : String) :
    walk G P path flags (name :: rest) parent e baseName
      = walk G P path flags rest parent
          (followDots G (segmentType name) (G.followMounts e)) baseName := by
  have hempty : rest.isEmpty = false := by simpa using hr
  cases hseg : segmentType name with
  | eRegular => exact absurd hseg hn
  | eDot => simp [walk, hempty, hseg]
  | eDotDot => simp [walk, hempty, hseg]

theorem walk_dots_last {path : String} {flags : PathLookupFlags} {name : String}
    (hn : segmentType name ≠ .eRegular) (parent e : E) (baseName : String) :
    let next := followDots G (segmentType name) (if flags.mountPoint then e else G.followMounts e)
    let last := if flags.mountPoint then next else G.followMounts next
    walk G P path flags [name] parent e baseName
      = pure (finish G P path flags true (G.getEffectiveParent next) last (G.name last)) := by
  cases hseg : segmentType name with
  | eRegular => exact absurd hseg hn
  | eDot => simp [walk, hseg]
  | eDotDot => simp [walk, hseg]

omit [DecidableEq E] in
/-- The step to the last component returns a child that is a directory if it has to be one. -/
theorem step_last (path name : String) (current : E) :
    ∃ v, step G path current name true = pure v ∧
      ∀ c, v = .ok c ↔ G.lookup current name = some c ∧
        (endsInSlash path = true → G.isDirectory c = true) := by
  cases hc : G.lookup current name with
  | none => exact ⟨.error .ENOENT, by simp [step, hc], by simp⟩
  | some c =>
    by_cases hs : endsInSlash path = true ∧ G.isDirectory c = false
    · refine ⟨.error .ENOENT, by simp [step, hc, hs], ?_⟩
      intro d
      constructor
      · exact fun h => nomatch h
      · rintro ⟨hd, hdir⟩
        obtain rfl := Option.some.inj hd
        simp [hs] at hdir
    · refine ⟨.ok c, by simp [step, hc]; tauto, ?_⟩
      intro d
      simp only [Except.ok.injEq, Option.some.injEq]
      constructor
      · rintro rfl
        exact ⟨rfl, by simpa using hs⟩
      · exact fun h => h.1

/-- The resolver returns from the last component, and when it is asked for nothing special it is
left where the way of the path leads. -/
theorem walk_last (path : String) (flags : PathLookupFlags) (name : String) (parent e : E)
    (baseName : String) :
    ∃ w, walk G P path flags [name] parent e baseName = pure w ∧
      (flags.mountPoint = false → flags.negativeEntry = false →
        ∀ x, w.2.entry = some x ↔ G.Arrives P (.walk (endsInSlash path) e [name]) x) := by
  by_cases hn : segmentType name = .eRegular
  · obtain ⟨v, hv, hc⟩ :=
      step_last (G := G) path name (if flags.mountPoint then e else G.followMounts e)
    cases v with
    | error code =>
      refine ⟨(.error code, ⟨if flags.mountPoint then e else G.followMounts e, none, name⟩),
        by simp [walk, hn, hv]; rfl, fun hm hneg x => ?_⟩
      simp only [hm, Bool.false_eq_true, if_false] at hc
      refine ⟨fun h => (nomatch h), fun h => ?_⟩
      cases h with
      | last _ hl hs => exact nomatch (hc _).mpr ⟨hl, hs⟩
      | name hr => exact absurd rfl hr
      | dots hn' => exact absurd hn hn'
    | ok c =>
      refine ⟨finish G P path flags true (if flags.mountPoint then e else G.followMounts e) c name,
        by simp [walk, hn, hv]; rfl, fun hm hneg x => ?_⟩
      simp only [hm, Bool.false_eq_true, if_false] at hc
      obtain ⟨hl, hs⟩ := (hc c).mp rfl
      rw [finish_eq hm hneg]
      refine ⟨fun h => ?_, fun h => ?_⟩
      · obtain rfl : G.followMounts c = x := Option.some.inj h
        exact .last hn hl hs
      · cases h with
        | last _ hl' hs' =>
          obtain rfl := Except.ok.inj ((hc _).mpr ⟨hl', hs'⟩)
          rfl
        | name hr => exact absurd rfl hr
        | dots hn' => exact absurd hn hn'
  · refine ⟨_, walk_dots_last hn parent e baseName, fun hm hneg x => ?_⟩
    rw [finish_eq hm hneg]
    simp only [hm, Bool.false_eq_true, if_false, followMounts_followMounts, Option.some.injEq]
    refine ⟨fun h => ?_, fun h => ?_⟩
    · rw [← h]
      exact .dots hn .nil
    · cases h with
      | last hn' => exact absurd hn' hn
      | name hr => exact absurd rfl hr
      | dots _ hx =>
        cases hx with
        | nil => rfl

/-- Where the resolver comes to, the way of the path leads. -/
theorem arrives_of_walk {f : LinkCall E → Option (Except Errno E)}
    (hf : ∀ e d, f (.resolver e) = some (.ok d) → G.Arrives P (.link e) d)
    {path : String} {flags : PathLookupFlags} (hm : flags.mountPoint = false)
    (hneg : flags.negativeEntry = false) {names : List String} {parent e x : E}
    {baseName : String} {w : Except Errno E × PathResolver E}
    (h : (walk G P path flags names parent e baseName).run f = some w)
    (hx : w.2.entry = some x) : G.Arrives P (.walk (endsInSlash path) e names) x := by
  induction names generalizing parent e baseName with
  | nil =>
    simp only [walk, finish_eq hm hneg, run_pure, Option.some.injEq] at h
    obtain rfl : G.followMounts e = x := by simpa [← h] using hx
    exact .nil
  | cons name rest ih =>
    by_cases hr : rest = []
    · subst hr
      obtain ⟨w', hw', harr⟩ := walk_last (G := G) (P := P) path flags name parent e baseName
      obtain rfl : w' = w := by simpa [hw'] using h
      exact (harr hm hneg x).mp hx
    by_cases hn : segmentType name = .eRegular
    · rw [walk_middle hr hn, run_bind, Option.bind_eq_some_iff] at h
      obtain ⟨v, hv, hw⟩ := h
      cases v with
      | error code =>
        obtain rfl : (.error code, ⟨G.followMounts e, none, name⟩) = w := by simpa using hw
        cases hx
      | ok next =>
        obtain ⟨c, hc, hdir, hthrough⟩ := run_step_middle hv
        exact .name hr hn hc (arrives_of_stepThrough hf hthrough) hdir (ih hw)
    · rw [walk_dots hr hn] at h
      exact .dots hn (ih h)

/-- A resolver walks along the names of its path from the entry the path starts at. -/
theorem resolve_eq {path : String} (hne : path ≠ "") (start : E) (flags : PathLookupFlags) :
    ∃ parent, resolve G P start path flags
      = walk G P path flags (P.namesFor flags path) parent (startOf G P start path) "/" := by
  refine ⟨if startOf G P start path = G.rootDirectoryEntry then startOf G P start path
    else G.followMounts (startOf G P start path), ?_⟩
  rw [resolve, if_neg hne]
  by_cases hroot : path = "/"
  · subst hroot
    have hgate : G.isMountPoint G.rootDirectoryEntry = false := by
      simp [isMountPoint, rootDirectoryEntry]
    simp only [PrismPath.namesFor, if_true, walk, startOf, P.absolute_root, finish, hgate,
      Bool.false_and]
    split <;> rfl
  · simp only [if_neg hroot, PrismPath.namesFor]

omit [DecidableEq E] in
theorem startOf_startOf (start : E) (path : String) :
    startOf G P (startOf G P start path) path = startOf G P start path := by
  simp only [startOf]
  split <;> rfl

/-- `ResolvePath` walks along the names of its path and then follows the entry it comes to. -/
theorem resolvePath_eq {path : String} (hne : path ≠ "") (parent : Option E)
    (followLinks : Bool) :
    ∃ p, resolvePath G P parent path followLinks = (do
      let result ← walk G P path { followLinks } (P.names path) p
        (startOf G P (parent.getD G.rootDirectoryEntry) path) "/"
      followEntry followLinks result.2) := by
  obtain ⟨p, hp⟩ := resolve_eq (G := G) (P := P) hne
    (startOf G P (parent.getD G.rootDirectoryEntry) path) { followLinks }
  refine ⟨p, ?_⟩
  rw [resolvePath, hp, startOf_startOf]
  rfl

/-- Where the resolver of the target of a link comes to, the way of the target leads. -/
theorem arrives_of_resolvePath {f : LinkCall E → Option (Except Errno E)}
    (hf : ∀ e d, f (.resolver e) = some (.ok d) → G.Arrives P (.link e) d) {parent x : E}
    {target : String} (hne : target ≠ "") {w : PathResolution E}
    (h : (resolvePath G P (some parent) target false).run f = some w) (hx : w.entry = some x) :
    G.Arrives P (G.targetTrip P parent target) x := by
  obtain ⟨p, hp⟩ := resolvePath_eq (G := G) (P := P) hne (some parent) false
  rw [hp, run_bind, Option.bind_eq_some_iff] at h
  obtain ⟨result, hresult, hw⟩ := h
  refine arrives_of_walk hf rfl rfl hresult ?_
  rw [followEntry] at hw
  cases hentry : result.2.entry with
  | none =>
    simp only [hentry, run_pure, Option.some.injEq] at hw
    simp [← hw] at hx
  | some entry =>
    simp only [hentry, Bool.false_eq_true, if_false, run_pure, Option.some.injEq] at hw
    simpa [← hw] using hx

/-- An entry that `DirectoryEntry::FollowSymlinks` returns as it is. -/
def Settled (G : DirectoryGraph E) (e : E) : Prop :=
  ∀ target, G.readLink e = .ok target → target ≠ "" → G.isSymlink e = false

/-- What the functions that follow links return. -/
def Result (G : DirectoryGraph E) (P : PrismPath) : LinkCall E → Except Errno E → Prop
  | .resolver e, v => ∀ d, v = .ok d → G.Arrives P (.link e) d
  | .entry _ _, v => ∀ d, v = .ok d → G.Settled d

theorem followSymlink_eq {e : E} {target : String} (ht : G.readLink e = .ok target)
    (hne : target ≠ "") :
    followSymlink G P 0 e = (do
      let resolution ← resolvePath G P (some (G.parent e)) target false
      match resolution.entry with
      | none => pure (.error .ENOLINK)
      | some next => pure (.ok next)) := by
  have hfollow := followSymlink.eq_def G P 0 e
  simp only [ht, if_neg hne, if_neg (show ¬0 ≥ symloopMax - 1 by decide)] at hfollow
  exact hfollow

theorem followSymlink_empty {e : E} (ht : G.readLink e = .ok "") :
    followSymlink G P 0 e = pure (.ok e) := by
  simp [followSymlink, ht, symloopMax]

/-- One link is followed to itself when it has no target, and else to where its target leads. -/
theorem run_followSymlink {f : LinkCall E → Option (Except Errno E)} {e next : E}
    (h : (followSymlink G P 0 e).run f = some (.ok next)) :
    ∃ target, G.readLink e = .ok target ∧
      ((target = "" ∧ next = e) ∨ (target ≠ "" ∧ ∃ w : PathResolution E,
        (resolvePath G P (some (G.parent e)) target false).run f = some w ∧
          w.entry = some next)) := by
  cases ht : G.readLink e with
  | error code => simp [followSymlink, ht, symloopMax] at h
  | ok target =>
    refine ⟨target, rfl, ?_⟩
    by_cases hne : target = ""
    · subst hne
      rw [followSymlink_empty ht] at h
      exact .inl ⟨rfl, by simpa [eq_comm] using h⟩
    · right
      rw [followSymlink_eq ht hne, run_bind, Option.bind_eq_some_iff] at h
      obtain ⟨w, hw, hnext⟩ := h
      refine ⟨hne, w, hw, ?_⟩
      cases hentry : w.entry with
      | none => simp [hentry] at hnext
      | some x => simpa [hentry] using hnext

theorem result_of_returns {c : LinkCall E} {v : Except Errno E}
    (h : Returns (followSymlinks G P) (followSymlinks G P c) v) : Result G P c v := by
  refine value_induction (fun f hf c v hv => ?_) h
  have hlink : ∀ e d, f (.resolver e) = some (.ok d) → G.Arrives P (.link e) d :=
    fun e d he => (hf _ _ he).2 d rfl
  cases c with
  | resolver e =>
    rintro d rfl
    rw [followSymlinks] at hv
    split at hv
    · rename_i hl
      rw [run_bind, Option.bind_eq_some_iff] at hv
      obtain ⟨step, hstep, hd⟩ := hv
      cases step with
      | error code => simp at hd
      | ok next =>
        have hnext : f (.resolver next) = some (.ok d) := by simpa using hd
        obtain ⟨target, ht, ⟨-, rfl⟩ | ⟨hne, w, hw, hx⟩⟩ := run_followSymlink hstep
        · exact hlink _ d hnext
        · exact .link hl ht hne (arrives_of_resolvePath hlink hne hw hx) (hlink next d hnext)
    · rename_i hl
      obtain rfl : e = d := by simpa using hv
      exact .stop (by simpa using hl)
  | entry e cnt =>
    rintro d rfl
    rw [followSymlinks] at hv
    cases ht : G.readLink e with
    | error code =>
      obtain rfl : e = d := by simpa [ht] using hv
      exact fun target h => nomatch ht.symm.trans h
    | ok target =>
      simp only [ht] at hv
      split at hv
      · split at hv
        · rw [run_bind, Option.bind_eq_some_iff] at hv
          obtain ⟨w, hw, hd⟩ := hv
          cases hentry : w.entry with
          | none => simp [hentry] at hd
          | some next =>
            simp only [hentry, run_perform] at hd
            exact (hf _ _ hd).2 d rfl
        · simp at hv
      · rename_i hcond
        obtain rfl : e = d := by simpa using hv
        intro t h hne
        obtain rfl : target = t := Except.ok.inj (ht.symm.trans h)
        simpa [hne] using hcond

/-- Going through an entry that is no link is following it, too. -/
theorem returns_stepThrough {e : E} {v : Except Errno E} :
    Returns (followSymlinks G P) (stepThrough G e) v
      ↔ Returns (followSymlinks G P) (followSymlinks G P (.resolver e)) v := by
  by_cases hl : G.isSymlink e = true
  · simp [stepThrough, hl]
  · simp [stepThrough, hl, followSymlinks]

/-- A step to a child that leads to a directory. -/
theorem returns_step_middle {path name : String} {current c d : E}
    (hc : G.lookup current name = some c)
    (hd : Returns (followSymlinks G P) (followSymlinks G P (.resolver (G.followMounts c))) (.ok d))
    (hdir : G.isDirectory d = true) :
    Returns (followSymlinks G P) (step G path current name false) (.ok d) := by
  rw [step, hc]
  simp only [Bool.false_eq_true, if_false, returns_bind]
  exact ⟨.ok d, returns_stepThrough.mpr hd, by simp [hdir]⟩

/-- The resolver comes to where a way leads. -/
def Reached (G : DirectoryGraph E) (P : PrismPath) : Trip E → E → Prop
  | .link e, d => Returns (followSymlinks G P) (followSymlinks G P (.resolver e)) (.ok d)
  | .walk slash e names, x =>
    ∀ path flags parent baseName, endsInSlash path = slash → flags.mountPoint = false →
      flags.negativeEntry = false →
      ∃ w, Returns (followSymlinks G P) (walk G P path flags names parent e baseName) w ∧
        w.2.entry = some x

/-- The resolver that follows one link comes to where its target leads. -/
theorem returns_followSymlink {e x : E} {target : String} (ht : G.readLink e = .ok target)
    (hne : target ≠ "") (hx : G.Reached P (G.targetTrip P (G.parent e) target) x) :
    Returns (followSymlinks G P) (followSymlink G P 0 e) (.ok x) := by
  obtain ⟨p, hp⟩ := resolvePath_eq (G := G) (P := P) hne (some (G.parent e)) false
  obtain ⟨w, hw, hentry⟩ := hx target {} p "/" rfl rfl rfl
  have hres : Returns (followSymlinks G P) (resolvePath G P (some (G.parent e)) target false)
      ⟨w.2.parent, some x, w.2.baseName⟩ := by
    rw [hp, returns_bind]
    exact ⟨w, hw, by simp [followEntry, hentry]⟩
  rw [followSymlink_eq ht hne, returns_bind]
  exact ⟨_, hres, by simp⟩

theorem reached_of_arrives {t : Trip E} {x : E} (h : G.Arrives P t x) : G.Reached P t x := by
  induction h with
  | stop he => simp [Reached, followSymlinks, he]
  | link he ht hne _ _ ihx ihd =>
    simp only [Reached, followSymlinks, he, if_true, returns_bind]
    exact ⟨_, returns_followSymlink ht hne ihx, returns_perform.mpr ihd⟩
  | nil =>
    intro path flags parent baseName _ hm hneg
    refine ⟨_, returns_pure.mpr rfl, ?_⟩
    rw [finish_eq hm hneg]
  | @last _ e _ name hn hc hs =>
    rintro path flags parent baseName rfl hm hneg
    obtain ⟨w, hw, harr⟩ := walk_last (G := G) (P := P) path flags name parent e baseName
    exact ⟨w, by simp [hw], (harr hm hneg _).mpr (.last hn hc hs)⟩
  | name hr hn hc hd hdir _ ihd ihx =>
    intro path flags parent baseName hs hm hneg
    obtain ⟨w, hw, hentry⟩ := ihx path flags _ _ hs hm hneg
    refine ⟨w, ?_, hentry⟩
    rw [walk_middle hr hn, returns_bind]
    exact ⟨_, returns_step_middle hc ihd hdir, hw⟩
  | @dots _ e x name rest hn hx ih =>
    rintro path flags parent baseName rfl hm hneg
    by_cases hr : rest = []
    · subst hr
      obtain ⟨w, hw, harr⟩ := walk_last (G := G) (P := P) path flags name parent e baseName
      exact ⟨w, by simp [hw], (harr hm hneg _).mpr (.dots hn hx)⟩
    · rw [walk_dots hr hn]
      exact ih path flags parent baseName rfl hm hneg

/-! ## A resolver that returns has followed the links it met -/

section Returned

variable {f : LinkCall E → Option (Except Errno E)}

/-- The calls that `f` answers return what `f` says. -/
def Sound (G : DirectoryGraph E) (P : PrismPath) (f : LinkCall E → Option (Except Errno E)) :
    Prop :=
  ∀ c v, f c = some v → Returns (followSymlinks G P) (followSymlinks G P c) v

theorem run_step_child (hf : Sound G P f) {path name : String} {current c : E}
    {v : Except Errno E} (hc : G.lookup current name = some c)
    (h : (step G path current name false).run f = some v) :
    (G.isSymlink (G.followMounts c) = true →
      ∃ v, f (.resolver (G.followMounts c)) = some v) ∧
    ∀ d, G.Arrives P (.link (G.followMounts c)) d → G.isDirectory d = true → v = .ok d := by
  simp only [step, hc, Bool.false_eq_true, if_false, run_bind, Option.bind_eq_some_iff] at h
  obtain ⟨followed, hthrough, hv⟩ := h
  constructor
  · intro hl
    exact ⟨followed, by simpa [stepThrough, hl] using hthrough⟩
  · intro d hd hdir
    have hret := returns_stepThrough.mp (returns_of_run hf hthrough)
    obtain rfl := hret.unique (reached_of_arrives hd)
    simpa [hdir, eq_comm] using hv

/-- Every link a walk meets has been followed when the walk returns. -/
theorem answered_of_meets (hf : Sound G P f) {path : String} {flags : PathLookupFlags} {e l : E}
    {names : List String} (hl : G.Meets P e names l) {parent : E} {baseName : String}
    {w : Except Errno E × PathResolver E}
    (h : (walk G P path flags names parent e baseName).run f = some w) :
    ∃ v, f (.resolver l) = some v := by
  induction hl generalizing parent baseName with
  | here hr hn hc hl =>
    rw [walk_middle hr hn, run_bind, Option.bind_eq_some_iff] at h
    obtain ⟨v, hv, -⟩ := h
    exact (run_step_child hf hc hv).1 hl
  | @name _ _ d _ _ rest hn hc hd hdir hl ih =>
    have hr : rest ≠ [] := by
      rintro rfl
      cases hl
    rw [walk_middle hr hn, run_bind, Option.bind_eq_some_iff] at h
    obtain ⟨v, hv, hw⟩ := h
    obtain rfl := (run_step_child hf hc hv).2 d hd hdir
    exact ih hw
  | @dots _ _ _ rest hn hl ih =>
    have hr : rest ≠ [] := by
      rintro rfl
      cases hl
    rw [walk_dots hr hn] at h
    exact ih h

/-- What `ResolvePath` has done when it returns: it followed the links it met, came to where the
path leads, and followed that entry on request. -/
theorem run_resolvePath (hf : Sound G P f) {path : String} (hne : path ≠ "") {parent : Option E}
    {followLinks : Bool} {w : PathResolution E}
    (h : (resolvePath G P parent path followLinks).run f = some w) :
    let start := startOf G P (parent.getD G.rootDirectoryEntry) path
    (∀ l, G.Meets P start (P.names path) l → ∃ v, f (.resolver l) = some v) ∧
    ∀ x, G.Arrives P (.walk (endsInSlash path) start (P.names path)) x →
      ∃ r : PathResolver E, r.entry = some x ∧ (followEntry followLinks r).run f = some w := by
  intro start
  obtain ⟨p, hp⟩ := resolvePath_eq (G := G) (P := P) hne parent followLinks
  rw [hp, run_bind, Option.bind_eq_some_iff] at h
  obtain ⟨result, hwalk, hw⟩ := h
  refine ⟨fun l hl => answered_of_meets hf hl hwalk, fun x hx => ?_⟩
  obtain ⟨result', hwalk', hentry⟩ := reached_of_arrives hx path { followLinks } p "/" rfl rfl rfl
  obtain rfl := (returns_of_run hf hwalk).unique hwalk'
  exact ⟨result.2, hentry, hw⟩

/-- The links that have to be followed for a link that was followed form no infinite chain. -/
def ChainsEnd (G : DirectoryGraph E) (P : PrismPath) : LinkCall E → Prop
  | .resolver e => Acc (flip (G.Follows P)) ⟨e, false⟩
  | .entry e cnt => cnt.val = 0 → Acc (flip (G.Follows P)) ⟨e, true⟩

theorem chainsEnd_of_returns {c : LinkCall E} {v : Except Errno E}
    (h : Returns (followSymlinks G P) (followSymlinks G P c) v) : ChainsEnd G P c := by
  refine value_induction (Q := fun c _ => ChainsEnd G P c) (fun f hf c v hv => ?_) h
  have hsound : Sound G P f := fun c v hc => (hf c v hc).1
  have hresolver : ∀ {e v}, f (.resolver e) = some v → Acc (flip (G.Follows P)) ⟨e, false⟩ :=
    fun he => (hf _ _ he).2
  cases c with
  | resolver e =>
    refine ⟨_, fun m hm => ?_⟩
    cases hm with
    | empty he ht =>
      rw [followSymlinks, if_pos he, followSymlink_empty ht] at hv
      exact hresolver (v := v) (by simpa using hv)
    | middle he ht hne hl =>
      rw [followSymlinks, if_pos he, followSymlink_eq ht hne, run_bind, run_bind] at hv
      obtain ⟨_, hstep, -⟩ := Option.bind_eq_some_iff.mp hv
      obtain ⟨w, hw, -⟩ := Option.bind_eq_some_iff.mp hstep
      obtain ⟨_, hl⟩ := (run_resolvePath hsound hne hw).1 _ hl
      exact hresolver hl
    | last he ht hne hx hxl =>
      rw [followSymlinks, if_pos he, followSymlink_eq ht hne, run_bind, run_bind] at hv
      obtain ⟨step, hstep, hd⟩ := Option.bind_eq_some_iff.mp hv
      obtain ⟨w, hw, hnext⟩ := Option.bind_eq_some_iff.mp hstep
      obtain ⟨r, hr, hentry⟩ := (run_resolvePath hsound hne hw).2 _ hx
      simp only [followEntry, hr, Bool.false_eq_true, if_false, run_pure, Option.some.injEq]
        at hentry
      subst hentry
      obtain rfl := Option.some.inj hnext
      exact hresolver (v := v) (by simpa using hd)
  | entry e cnt =>
    intro hcnt
    refine ⟨_, fun m hm => ?_⟩
    have hlt : cnt.val + 1 < symloopMax := by
      rw [hcnt]
      decide
    cases hm with
    | middle he ht hne hl =>
      simp only [followSymlinks, ht, hne, he, hlt, ne_eq, not_false_eq_true, and_self, if_true,
        dif_pos, run_bind] at hv
      obtain ⟨w, hw, -⟩ := Option.bind_eq_some_iff.mp hv
      obtain ⟨_, hl⟩ := (run_resolvePath hsound hne hw).1 _ hl
      exact hresolver hl
    | last he ht hne hx hxl =>
      simp only [followSymlinks, ht, hne, he, hlt, ne_eq, not_false_eq_true, and_self, if_true,
        dif_pos, run_bind] at hv
      obtain ⟨w, hw, -⟩ := Option.bind_eq_some_iff.mp hv
      obtain ⟨r, hr, hentry⟩ := (run_resolvePath hsound hne hw).2 _ hx
      simp only [followEntry, hr, if_true, run_bind, run_perform] at hentry
      obtain ⟨v', hv', -⟩ := Option.bind_eq_some_iff.mp hentry
      exact (hf _ _ hv').2 rfl

end Returned

/-! ## A resolver that meets no loop returns -/

theorem arrives_of_value {n : ℕ} {e d : E}
    (h : value (followSymlinks G P) n (.resolver e) = some (.ok d)) : G.Arrives P (.link e) d :=
  result_of_returns (returns_of_value h) d rfl

theorem ends_step_middle (path : String) {name : String} {current : E}
    (hl : ∀ c, G.lookup current name = some c → G.isSymlink (G.followMounts c) = true →
      Ends (followSymlinks G P) (followSymlinks G P (.resolver (G.followMounts c)))) :
    Ends (followSymlinks G P) (step G path current name false) := by
  cases hc : G.lookup current name with
  | none =>
    rw [step, hc]
    exact ends_pure
  | some c =>
    have hthrough : Ends (followSymlinks G P) (stepThrough G (G.followMounts c)) := by
      by_cases hlink : G.isSymlink (G.followMounts c) = true
      · simpa [stepThrough, hlink] using hl c hc hlink
      · simp [stepThrough, hlink]
    obtain ⟨v, hv⟩ := hthrough
    simp only [step, hc, Bool.false_eq_true, if_false, hv.ends_bind_iff]
    cases v with
    | error _ => exact ends_pure
    | ok d => by_cases hdir : G.isDirectory d = true <;> simp [hdir]

/-- A walk returns when the links it meets can be followed. -/
theorem ends_walk (path : String) (flags : PathLookupFlags) {names : List String} {e : E}
    (hl : ∀ l, G.Meets P e names l → Ends (followSymlinks G P) (followSymlinks G P (.resolver l)))
    (parent : E) (baseName : String) :
    Ends (followSymlinks G P) (walk G P path flags names parent e baseName) := by
  induction names generalizing parent e baseName with
  | nil => exact ends_pure
  | cons name rest ih =>
    by_cases hr : rest = []
    · subst hr
      obtain ⟨w, hw, -⟩ := walk_last (G := G) (P := P) path flags name parent e baseName
      rw [hw]
      exact ends_pure
    by_cases hn : segmentType name = .eRegular
    · obtain ⟨v, hv⟩ := ends_step_middle path
        fun c hc hlink => hl _ (.here hr hn hc hlink)
      rw [walk_middle hr hn, hv.ends_bind_iff]
      cases v with
      | error _ => exact ends_pure
      | ok d =>
        obtain ⟨n, hn'⟩ := hv
        obtain ⟨c, hc, hdir, hthrough⟩ := run_step_middle hn'
        have hd := arrives_of_stepThrough (fun _ _ => arrives_of_value) hthrough
        exact ih (fun l h => hl l (.name hn hc hd hdir h)) _ _
    · rw [walk_dots hr hn]
      exact ih (fun l h => hl l (.dots hn h)) parent baseName

theorem followSymlinks_of_settled {e : E} (h : G.Settled e) (cnt : Fin symloopMax) :
    followSymlinks G P (.entry e cnt) = pure (.ok e) := by
  rw [followSymlinks]
  split
  · rfl
  · rename_i target ht
    by_cases hne : target = ""
    · simp [hne]
    · simp [h target ht hne]

/-- `ResolvePath` returns when the links it meets can be followed, and so can the entry it comes
to. -/
theorem ends_resolvePath {path : String} (hne : path ≠ "") {parent : Option E}
    {followLinks : Bool}
    (hl : ∀ l, G.Meets P (startOf G P (parent.getD G.rootDirectoryEntry) path) (P.names path) l →
      Ends (followSymlinks G P) (followSymlinks G P (.resolver l)))
    (hx : followLinks = true → ∀ x, G.isSymlink x = true →
      G.Arrives P (.walk (endsInSlash path) (startOf G P (parent.getD G.rootDirectoryEntry) path)
        (P.names path)) x →
      ∀ cnt, Ends (followSymlinks G P) (followSymlinks G P (.entry x cnt))) :
    Ends (followSymlinks G P) (resolvePath G P parent path followLinks) := by
  obtain ⟨p, hp⟩ := resolvePath_eq (G := G) (P := P) hne parent followLinks
  obtain ⟨w, hw⟩ := ends_walk path { followLinks } hl p "/"
  rw [hp, hw.ends_bind_iff, followEntry]
  split
  · rename_i x hentry
    split
    · rename_i hfollow
      obtain ⟨n, hn⟩ := hw
      have harr := arrives_of_walk (fun _ _ => arrives_of_value) rfl rfl hn hentry
      have hends : Ends (followSymlinks G P) (followSymlinks G P (.entry x ⟨0, by decide⟩)) := by
        by_cases hlink : G.isSymlink x = true
        · exact hx hfollow x hlink harr _
        · rw [followSymlinks_of_settled fun _ _ _ => by simpa using hlink]
          exact ends_pure
      obtain ⟨v, hv⟩ := hends
      exact (returns_perform.mpr hv).ends_bind_iff.mpr ends_pure
    · exact ends_pure
  · exact ends_pure

/-- The entry of a path that was resolved through its last link is no link any more. -/
theorem settled_of_resolvePath {path : String} (hne : path ≠ "") {parent : Option E}
    {w : PathResolution E} {x : E}
    (h : Returns (followSymlinks G P) (resolvePath G P parent path true) w)
    (hx : w.entry = some x) : G.Settled x := by
  obtain ⟨p, hp⟩ := resolvePath_eq (G := G) (P := P) hne parent true
  rw [hp, returns_bind] at h
  obtain ⟨result, -, hw⟩ := h
  rw [followEntry] at hw
  cases hentry : result.2.entry with
  | none =>
    simp only [hentry, returns_pure] at hw
    simp [← hw] at hx
  | some entry =>
    simp only [hentry, if_true, returns_bind, returns_perform, returns_pure] at hw
    obtain ⟨v, hv, rfl⟩ := hw
    cases v with
    | error _ => cases hx
    | ok d =>
      obtain rfl : d = x := Option.some.inj hx
      exact result_of_returns hv d rfl

/-- What it means that a link can be followed. -/
def CanFollow (G : DirectoryGraph E) (P : PrismPath) : Link E → Prop
  | ⟨e, false⟩ => Ends (followSymlinks G P) (followSymlinks G P (.resolver e))
  | ⟨e, true⟩ => ∀ cnt, Ends (followSymlinks G P) (followSymlinks G P (.entry e cnt))

/-- A link can be followed in the middle of a path when the links that have to be followed for it
can be. -/
theorem ends_resolver {e : E} (h : ∀ m, G.Follows P ⟨e, false⟩ m → CanFollow G P m) :
    Ends (followSymlinks G P) (followSymlinks G P (.resolver e)) := by
  by_cases he : G.isSymlink e = true
  · rw [followSymlinks, if_pos he]
    cases ht : G.readLink e with
    | error code =>
      simp only [followSymlink, ht]
      exact ends_pure
    | ok target =>
      by_cases hne : target = ""
      · subst hne
        rw [followSymlink_empty ht]
        exact ends_perform.mpr (h _ (.empty he ht))
      · obtain ⟨w, hw⟩ : Ends (followSymlinks G P)
            (resolvePath G P (some (G.parent e)) target false) :=
          ends_resolvePath hne (fun l hl => h ⟨l, false⟩ (.middle he ht hne hl)) (by simp)
        cases hentry : w.entry with
        | none =>
          have hstep : Returns (followSymlinks G P) (followSymlink G P 0 e) (.error .ENOLINK) := by
            rw [followSymlink_eq ht hne, returns_bind]
            exact ⟨w, hw, by simp [hentry]⟩
          exact hstep.ends_bind_iff.mpr ends_pure
        | some x =>
          have hstep : Returns (followSymlinks G P) (followSymlink G P 0 e) (.ok x) := by
            rw [followSymlink_eq ht hne, returns_bind]
            exact ⟨w, hw, by simp [hentry]⟩
          refine hstep.ends_bind_iff.mpr (ends_perform.mpr ?_)
          obtain ⟨n, hn⟩ := hw
          have hx := arrives_of_resolvePath (fun _ _ => arrives_of_value) hne hn hentry
          by_cases hxl : G.isSymlink x = true
          · exact h ⟨x, false⟩ (.last he ht hne hx hxl)
          · rw [followSymlinks, if_neg hxl]
            exact ends_pure
  · rw [followSymlinks, if_neg he]
    exact ends_pure

/-- The same for a link that a path ends at. What it is followed to is settled, so that the call
that counts the link up returns at once. -/
theorem ends_entry {e : E} (h : ∀ m, G.Follows P ⟨e, true⟩ m → CanFollow G P m)
    (cnt : Fin symloopMax) : Ends (followSymlinks G P) (followSymlinks G P (.entry e cnt)) := by
  rw [followSymlinks]
  cases ht : G.readLink e with
  | error _ => exact ends_pure
  | ok target =>
    by_cases hcond : target ≠ "" ∧ G.isSymlink e = true
    · obtain ⟨hne, he⟩ := hcond
      by_cases hlt : cnt.val + 1 < symloopMax
      · obtain ⟨w, hw⟩ : Ends (followSymlinks G P)
            (resolvePath G P (some (G.parent e)) target true) :=
          ends_resolvePath hne (fun l hl => h ⟨l, false⟩ (.middle he ht hne hl))
            fun _ x hxl hx => h ⟨x, true⟩ (.last he ht hne hx hxl)
        simp only [hne, he, hlt, ne_eq, not_false_eq_true, and_self, if_true, dif_pos,
          hw.ends_bind_iff]
        cases hentry : w.entry with
        | none => exact ends_pure
        | some next =>
          rw [ends_perform, followSymlinks_of_settled (settled_of_resolvePath hne hw hentry)]
          exact ends_pure
      · simp [hne, he, hlt]
    · simp [hcond]

theorem canFollow_of_acc {l : Link E} (h : Acc (flip (G.Follows P)) l) : CanFollow G P l := by
  induction h with
  | intro l _ ih =>
    obtain ⟨e, isLast⟩ := l
    cases isLast with
    | false => exact ends_resolver ih
    | true => exact ends_entry ih

/-! ## Exactly the loops keep a resolver from returning -/

section Finite

variable [Finite E]

/-- A link in the middle of a path can be followed exactly when it is on no loop and leads to
none. -/
theorem ends_resolver_iff {e : E} :
    Ends (followSymlinks G P) (followSymlinks G P (.resolver e)) ↔ G.LoopFree P ⟨e, false⟩ := by
  constructor
  · rintro ⟨v, hv⟩
    exact acc_iff_acyclic.mp (chainsEnd_of_returns hv)
  · intro h
    exact canFollow_of_acc (l := ⟨e, false⟩) (acc_iff_acyclic.mpr h)

theorem ends_resolve_iff (start : E) (path : String) (flags : PathLookupFlags) :
    Ends (followSymlinks G P) (resolve G P start path flags) ↔
      path ≠ "" ∧ ∀ l, G.Meets P (startOf G P start path) (P.namesFor flags path) l →
        G.LoopFree P ⟨l, false⟩ := by
  by_cases hne : path = ""
  · simp [resolve, hne]
  obtain ⟨p, hp⟩ := resolve_eq (G := G) (P := P) hne start flags
  rw [hp]
  constructor
  · rintro ⟨w, n, hn⟩
    refine ⟨hne, fun l hl => ?_⟩
    obtain ⟨v, hv⟩ := answered_of_meets (fun _ _ => returns_of_value) hl hn
    exact ends_resolver_iff.mp ⟨v, returns_of_value hv⟩
  · rintro ⟨-, hl⟩
    exact ends_walk path flags (fun l h => ends_resolver_iff.mpr (hl l h)) p "/"

theorem ends_resolvePath_iff (parent : Option E) (path : String) (followLinks : Bool) :
    let start := startOf G P (parent.getD G.rootDirectoryEntry) path
    Ends (followSymlinks G P) (resolvePath G P parent path followLinks) ↔
      path ≠ "" ∧ (∀ l, G.Meets P start (P.names path) l → G.LoopFree P ⟨l, false⟩) ∧
        (followLinks = true → ∀ x,
          G.Arrives P (.walk (endsInSlash path) start (P.names path)) x →
            G.LoopFree P ⟨x, true⟩) := by
  intro start
  by_cases hne : path = ""
  · simp [resolvePath, resolve, hne, ends_bind]
  constructor
  · rintro ⟨w, n, hn⟩
    obtain ⟨hl, hx⟩ := run_resolvePath (fun _ _ => returns_of_value) hne hn
    refine ⟨hne, fun l h => ?_, ?_⟩
    · obtain ⟨v, hv⟩ := hl l h
      exact ends_resolver_iff.mp ⟨v, returns_of_value hv⟩
    · rintro rfl x harr
      obtain ⟨r, hr, hentry⟩ := hx x harr
      simp only [followEntry, hr, if_true, run_bind, run_perform] at hentry
      obtain ⟨v, hv, -⟩ := Option.bind_eq_some_iff.mp hentry
      exact acc_iff_acyclic.mp (chainsEnd_of_returns (returns_of_value hv) rfl)
  · rintro ⟨-, hl, hx⟩
    refine ends_resolvePath hne (fun l h => ends_resolver_iff.mpr (hl l h)) ?_
    intro hfollow x _ harr
    exact canFollow_of_acc (l := ⟨x, true⟩) (acc_iff_acyclic.mpr (hx hfollow x harr))

end Finite

/-- None of the links met on the way from `start` along `names` leads to a loop. -/
def MeetsNoLoop (G : DirectoryGraph E) (P : PrismPath) (start : E) (names : List String) : Prop :=
  ∀ l, G.Meets P start names l → G.LoopFree P ⟨l, false⟩

/-- Over a finite graph, `PathResolver::Resolve` and `VFS::ResolvePath` return exactly for the paths
that are not empty and whose way meets no link that leads to a loop; with `followLinks`, the entry
the path ends at must not lead to one either. -/
theorem resolution_ends_iff [Finite E] (G : DirectoryGraph E) (P : PrismPath) :
    (∀ start path flags, Ends (followSymlinks G P) (resolve G P start path flags) ↔
      path ≠ "" ∧ G.MeetsNoLoop P (startOf G P start path) (P.namesFor flags path)) ∧
    ∀ parent path followLinks,
      let start := startOf G P (parent.getD G.rootDirectoryEntry) path
      (Ends (followSymlinks G P) (resolvePath G P parent path followLinks) ↔
        path ≠ "" ∧ G.MeetsNoLoop P start (P.names path) ∧
          (followLinks = true → ∀ x,
            G.Arrives P (.walk (endsInSlash path) start (P.names path)) x →
              G.LoopFree P ⟨x, true⟩)) :=
  ⟨ends_resolve_iff, ends_resolvePath_iff⟩

end DirectoryGraph

/-- Paths split at their slashes. -/
def slashPath : PrismPath where
  absolute path := path.toList.head? == some '/'
  split path := ((path.toList.splitOn '/').filter (· ≠ [])).map String.ofList
  parentPath path := String.ofList (path.toList.reverse.dropWhile (· ≠ '/')).reverse
  baseName path := String.ofList (path.toList.reverse.takeWhile (· ≠ '/')).reverse
  absolute_root := by decide

/-- A root with a directory `d`, which holds a file `b`, and with a link `a`. -/
def linkBesideDirectory (target : String) : DirectoryGraph (Fin 4) where
  root := 0
  name := fun | 0 => "/" | 1 => "a" | 2 => "d" | 3 => "b"
  lookup := fun
    | 0, "a" => some 1
    | 0, "d" => some 2
    | 2, "b" => some 3
    | _, _ => none
  parent := fun | 3 => 2 | _ => 0
  mountGate _ := none
  hosts := []
  isDirectory := fun | 0 | 2 => true | _ => false
  isSymlink := fun | 1 => true | _ => false
  readLink := fun | 1 => .ok target | _ => .error .ENOSYS
  gateDepth _ := 0
  gateDepth_lt h := nomatch h

/-- The link `a → /d`: `a/b` is resolved, and its way meets no loop. -/
theorem resolution_ends_through_link :
    let G := linkBesideDirectory "/d"
    (resolvePath G slashPath none "a/b" true).run (value (followSymlinks G slashPath) 3)
        = some ⟨2, some 3, "b"⟩ ∧
      G.MeetsNoLoop slashPath 0 ["a", "b"] := by
  intro G
  have hrun : (resolvePath G slashPath none "a/b" true).run (value (followSymlinks G slashPath) 3)
      = some ⟨2, some 3, "b"⟩ := by decide
  have hnames : slashPath.names "a/b" = ["a", "b"] := by decide
  have hends := ((G.resolution_ends_iff slashPath).2 none "a/b" true).mp ⟨_, 3, hrun⟩
  rw [hnames] at hends
  exact ⟨hrun, hends.2.1⟩

/-- The link `a → a`: neither function returns on a path with `a` in its middle, and `ResolvePath`
does not return on `a` itself. -/
theorem not_ends_link_to_itself :
    let G := linkBesideDirectory "a"
    ¬Ends (followSymlinks G slashPath) (resolve G slashPath 0 "a/b" {}) ∧
      ¬Ends (followSymlinks G slashPath) (resolvePath G slashPath none "a/b" false) ∧
      ¬Ends (followSymlinks G slashPath) (resolvePath G slashPath none "a" true) := by
  intro G
  have hab : slashPath.names "a/b" = ["a", "b"] := by decide
  have ha : slashPath.names "a" = ["a"] := by decide
  have harr : G.Arrives slashPath (.walk (endsInSlash "a") 0 (slashPath.names "a")) 1 := by
    rw [ha]
    exact .last (by decide) rfl (by decide)
  have hmeets : G.Meets slashPath 0 (slashPath.names "a/b") 1 := by
    rw [hab]
    exact .here (by simp) (by decide) rfl rfl
  -- the target of the link ends at the link, whether it is met in the middle or at the end
  have hloop : ∀ isLast, ¬G.LoopFree slashPath ⟨1, isLast⟩ := fun isLast h =>
    h _ .refl (.single (.last rfl rfl (by decide) harr rfl))
  refine ⟨fun h => ?_, fun h => ?_, fun h => ?_⟩
  · exact hloop false (((DirectoryGraph.ends_resolve_iff _ _ _).mp h).2 1 hmeets)
  · exact hloop false (((DirectoryGraph.ends_resolvePath_iff _ _ _).mp h).2.1 1 hmeets)
  · exact hloop true (((DirectoryGraph.ends_resolvePath_iff _ _ _).mp h).2.2 rfl 1 harr)

end Cryptix.VFS
