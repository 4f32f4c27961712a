import Mathlib.Data.Set.Card
import Cryptix.Lib.Transition
import Cryptix.VFS.SynthFs

/-!
# The names of a synthetic file system

What the six operations should do to the namespace is a map from directory and name to inode
(`Names`): creating or linking adds a name, unlinking and removing take it away, renaming moves it.
`Consistent` compares the inodes with it. The operations keep the two together as long as `Link`
is refused, `Rename` is asked for the name the inode has, and a directory is only unlinked when it
is empty and its link count is 2 (`names_along_iff`).

Of an inode, the argument only needs its `view`: sizes, device numbers and the link counts of
directories do not matter to the names.
-/

namespace Cryptix.VFS

open Lib

/-- The namespace that the operations should maintain. -/
abbrev Names := ℕ × String → Option ℕ

/-! ## Views -/

/-- What the namespace depends on in an inode. -/
structure INodeView where
  isDirectory : Bool
  parent : Option ℕ
  name : String
  fileLinks : UInt64
  children : String → Option ℕ

/-- The view of a directory with one name changed. -/
def INodeView.setChild (v : INodeView) (name : String) (x : Option ℕ) : INodeView :=
  { v with children := Function.update v.children name x }

/-- The view of an inode; the link count of a directory is not part of it. -/
def SynthFsINode.view (inode : SynthFsINode) : INodeView where
  isDirectory := inode.isDirectory
  parent := inode.parent
  name := inode.name
  fileLinks := if inode.isDirectory then 0 else inode.linkCount
  children := fun name => inode.children.lookup name

/-- Views of all inodes. -/
abbrev Views := ℕ → Option INodeView

/-- Looking up a name in a directory. -/
def Views.lookup (v : Views) (dir : ℕ) (name : String) : Option ℕ :=
  (v dir).bind fun inode => inode.children name

namespace SynthFs

variable {fs : SynthFs} {x y dir : ℕ}

/-- The views of the inodes of a file system. -/
def views (fs : SynthFs) : Views := fun x => (fs.inodes x).map SynthFsINode.view

theorem lookup_views (fs : SynthFs) (dir : ℕ) (name : String) :
    fs.views.lookup dir name = fs.lookup dir name := by
  unfold Views.lookup lookup views
  cases fs.inodes dir <;> rfl

theorem views_eq_some {inode : SynthFsINode} (h : fs.inodes x = some inode) :
    fs.views x = some inode.view :=
  congrArg (Option.map SynthFsINode.view) h

theorem isDirectory_of_views {v : INodeView} {inode : SynthFsINode} (hv : fs.views x = some v)
    (h : fs.inodes x = some inode) : inode.isDirectory = v.isDirectory :=
  congrArg INodeView.isDirectory (Option.some.inj ((views_eq_some h).symm.trans hv))

theorem inodes_modify_self (f : SynthFsINode → SynthFsINode) :
    (fs.modify x f).inodes x = (fs.inodes x).map f :=
  Function.update_self _ _ _

theorem inodes_modify_of_ne (f : SynthFsINode → SynthFsINode) (h : y ≠ x) :
    (fs.modify x f).inodes y = fs.inodes y :=
  Function.update_of_ne h _ _

/-- A change that leaves the children alone is not seen by `Lookup`. -/
theorem lookup_modify (f : SynthFsINode → SynthFsINode) (h : ∀ i, (f i).children = i.children)
    (d : ℕ) (n : String) : (fs.modify x f).lookup d n = fs.lookup d n := by
  unfold lookup
  by_cases hd : d = x
  · subst hd
    rw [inodes_modify_self]
    cases fs.inodes d with
    | none => rfl
    | some inode => rw [Option.map_some, Option.bind_some, Option.bind_some, h]
  · rw [inodes_modify_of_ne _ hd]

theorem inodes_decLinkCount_of_ne (h : y ≠ x) : (fs.decLinkCount x).inodes y = fs.inodes y :=
  inodes_modify_of_ne _ h

theorem lookup_decLinkCount (d : ℕ) (n : String) :
    (fs.decLinkCount x).lookup d n = fs.lookup d n := by
  apply lookup_modify
  intro inode
  rfl

theorem lookup_shrinkSize (d : ℕ) (n : String) :
    (fs.shrinkSize x).lookup d n = fs.lookup d n := by
  apply lookup_modify
  intro inode
  rfl

theorem lookup_incLinkCount (d : ℕ) (n : String) :
    (fs.incLinkCount x).lookup d n = fs.lookup d n := by
  apply lookup_modify
  intro inode
  rfl

theorem lookup_growSize (d : ℕ) (n : String) :
    (fs.growSize x).lookup d n = fs.lookup d n := by
  apply lookup_modify
  intro inode
  rfl

/-- A change to an inode is a change to its view. -/
theorem views_modify (f : SynthFsINode → SynthFsINode) (g : INodeView → INodeView)
    (h : ∀ inode, fs.inodes x = some inode → (f inode).view = g inode.view) :
    (fs.modify x f).views = Function.update fs.views x ((fs.views x).map g) := by
  funext y
  unfold views
  by_cases hy : y = x
  · subst hy
    rw [inodes_modify_self, Function.update_self]
    cases hx : fs.inodes y with
    | none => rfl
    | some inode => exact congrArg some (h inode hx)
  · rw [inodes_modify_of_ne _ hy, Function.update_of_ne hy]

theorem views_modify_eq (f : SynthFsINode → SynthFsINode)
    (h : ∀ inode, fs.inodes x = some inode → (f inode).view = inode.view) :
    (fs.modify x f).views = fs.views := by
  rw [views_modify f id h, Option.map_id, id, Function.update_eq_self]

theorem views_growSize : (fs.growSize x).views = fs.views :=
  views_modify_eq _ fun _ _ => rfl

theorem views_shrinkSize (fs : SynthFs) (x : ℕ) : (fs.shrinkSize x).views = fs.views :=
  views_modify_eq _ fun _ _ => rfl

theorem lookup_insert_eq_update (c : AList fun _ : String => ℕ) (name : String) (x : ℕ) :
    (fun n => (c.insert name x).lookup n) =
      Function.update (fun n => c.lookup n) name (some x) := by
  funext n
  rw [Function.update_apply]
  split
  · rename_i hn
    rw [hn, AList.lookup_insert]
  · rename_i hn
    exact AList.lookup_insert_ne hn

theorem lookup_erase_eq_update (c : AList fun _ : String => ℕ) (name : String) :
    (fun n => (c.erase name).lookup n) = Function.update (fun n => c.lookup n) name none := by
  funext n
  rw [Function.update_apply]
  split
  · rename_i hn
    rw [hn, AList.lookup_erase]
  · rename_i hn
    exact AList.lookup_erase_ne hn

theorem views_insertChild (dir x : ℕ) (name : String) :
    (fs.insertChild dir x name).views =
      Function.update fs.views dir ((fs.views dir).map fun v => v.setChild name (some x)) := by
  apply views_modify
  intro inode _
  exact congrArg (INodeView.mk _ _ _ _) (lookup_insert_eq_update _ name x)

theorem views_eraseChild (dir : ℕ) (name : String) :
    (fs.eraseChild dir name).views =
      Function.update fs.views dir ((fs.views dir).map fun v => v.setChild name none) := by
  apply views_modify
  intro inode _
  exact congrArg (INodeView.mk _ _ _ _) (lookup_erase_eq_update _ name)

theorem views_freeINode (x : ℕ) : (fs.freeINode x).views = Function.update fs.views x none := by
  funext y
  unfold views freeINode
  by_cases hy : y = x
  · subst hy
    dsimp only
    rw [Function.update_self, Function.update_self]
    rfl
  · dsimp only
    rw [Function.update_of_ne hy, Function.update_of_ne hy]

/-- The link count of a directory is not part of the views. -/
theorem views_setLinkCount (f : UInt64 → UInt64)
    (hdir : ∀ inode, fs.inodes x = some inode → inode.isDirectory = true) :
    (fs.modify x fun inode => { inode with linkCount := f inode.linkCount }).views = fs.views := by
  apply views_modify_eq
  intro inode hx
  have : inode.mode.isDirectory = true := hdir inode hx
  simp [SynthFsINode.view, SynthFsINode.isDirectory, this]

theorem isDirectory_or_isgid (m : Mode) : (m ||| Mode.isgid).isDirectory = m.isDirectory := by
  unfold Mode.isDirectory
  rw [BitVec.and_or_distrib_right, show Mode.isgid &&& Mode.ifmt = 0#32 from by decide,
    BitVec.or_zero]

theorem view_setMode (inode : SynthFsINode) {m : Mode}
    (h : m.isDirectory = inode.mode.isDirectory) :
    SynthFsINode.view { inode with mode := m } = inode.view := by
  have hdir : SynthFsINode.isDirectory { inode with mode := m } = inode.isDirectory := h
  unfold SynthFsINode.view
  simp only [hdir]

theorem views_inheritSetGid (dir x : ℕ) : (fs.inheritSetGid dir x).views = fs.views := by
  unfold inheritSetGid
  split
  · split
    · apply views_modify_eq
      intro inode _
      apply view_setMode
      split
      · exact isDirectory_or_isgid _
      · rfl
    · rfl
  · rfl

/-! ## Creating -/

/-- The view of an inode that was just created in a directory. -/
def newView (dir : ℕ) (name : String) (mode : Mode) : INodeView where
  isDirectory := mode.isDirectory
  parent := some dir
  name := name
  fileLinks := if mode.isDirectory then 0 else 1
  children := fun _ => none

theorem views_setNode {fs' : SynthFs} {inode : SynthFsINode}
    (h : fs'.inodes = Function.update fs.inodes x (some inode)) :
    fs'.views = Function.update fs.views x (some inode.view) := by
  funext y
  unfold views
  rw [h]
  by_cases hy : y = x
  · subst hy
    rw [Function.update_self, Function.update_self]
    rfl
  · rw [Function.update_of_ne hy, Function.update_of_ne hy]

/-- `AllocateNode` makes a new inode. -/
theorem allocateNode_eq_ok {fs₁ : SynthFs} {heap : Bool} {name : String} {mode : Mode}
    (h : fs.allocateNode heap name mode = .ok (x, fs₁)) :
    x = fs.nextINodeIndex ∧ fs₁.nextINodeIndex = fs.nextINodeIndex + 1 ∧
      fs₁.inodes = Function.update fs.inodes x (some (.create name mode)) := by
  unfold allocateNode at h
  split at h
  · cases h
  · split at h
    · cases h
    · split at h
      · cases h
      · obtain ⟨rfl, rfl⟩ := Prod.mk.inj (Except.ok.inj h)
        exact ⟨rfl, rfl, rfl⟩

/-- The view of a new inode after `CreateNode` has set it up. -/
theorem views_setUpNode {fs₁ : SynthFs} {name : String} {mode : Mode} (dir : ℕ) (dev : UInt64)
    (h : fs₁.inodes = Function.update fs.inodes x (some (.create name mode))) :
    (fs₁.setUpNode dir x mode dev).views =
      Function.update fs.views x (some (newView dir name mode)) := by
  have hview : ∀ inode, fs₁.inodes x = some inode → inode = .create name mode := by
    intro inode hx
    rw [h, Function.update_self] at hx
    exact (Option.some.inj hx).symm
  rw [setUpNode, views_modify _ (fun _ => newView dir name mode), views_setNode h,
    Function.update_self, Function.update_idem]
  · rfl
  · intro inode hx
    rw [hview inode hx]
    unfold SynthFsINode.view newView SynthFsINode.create SynthFsINode.isDirectory
    dsimp only
    cases mode.isDirectory <;> rfl

/-- `CreateNode` fails and changes nothing, or binds a free name to a new inode. -/
theorem createNode_cases (fs : SynthFs) (heap : Bool) {dir : ℕ} (name : String) (mode : Mode)
    (dev : UInt64) (hdir : dir ≠ fs.nextINodeIndex) :
    (∃ code, fs.createNode heap dir name mode dev = (.error code, fs)) ∨
    (fs.lookup dir name = none ∧ ∃ fs',
      fs.createNode heap dir name mode dev = (.ok fs.nextINodeIndex, fs') ∧
      fs'.nextINodeIndex = fs.nextINodeIndex + 1 ∧
      fs'.views =
        Function.update (Function.update fs.views fs.nextINodeIndex (some (newView dir name mode)))
          dir ((fs.views dir).map fun v => v.setChild name (some fs.nextINodeIndex))) := by
  unfold createNode
  split
  · exact .inl ⟨_, rfl⟩
  · rename_i hfree
    cases halloc : fs.allocateNode heap name mode with
    | error code => exact .inl ⟨code, rfl⟩
    | ok r =>
      obtain ⟨x, fs₁⟩ := r
      obtain ⟨rfl, hnext, hinodes⟩ := allocateNode_eq_ok halloc
      refine .inr ⟨by simpa using hfree, _, rfl, ?_, ?_⟩
      · unfold inheritSetGid
        split
        · split
          · exact hnext
          · exact hnext
        · exact hnext
      · rw [views_inheritSetGid, views_insertChild, views_growSize,
          views_setUpNode dir dev hinodes, Function.update_of_ne hdir]

end SynthFs

/-! ## Tidy namespaces -/

/-- What the names and the views of a good run satisfy: the names are exactly the expected ones,
every named inode exists and knows its one name, and a file has no children and one link. -/
structure Tidy (v : Views) (next : ℕ) (names : Names) : Prop where
  names_eq : ∀ dir name, v.lookup dir name = names (dir, name)
  fresh : ∀ x, next ≤ x → v x = none
  home : ∀ dir name x, v.lookup dir name = some x →
    dir ≠ x ∧ ∃ inode, v x = some inode ∧ inode.parent = some dir ∧ inode.name = name
  file : ∀ x inode, v x = some inode → inode.isDirectory = false →
    inode.children = (fun _ => none) ∧ inode.fileLinks = 1 ∧
      ∃ dir name, v.lookup dir name = some x

namespace Views

variable {v : Views} {dir x : ℕ} {name : String}

theorem lookup_setChild {inode : INodeView} (hdir : v dir = some inode) (target : Option ℕ)
    (d : ℕ) (n : String) :
    Views.lookup (Function.update v dir (some (inode.setChild name target))) d n =
      if d = dir ∧ n = name then target else v.lookup d n := by
  unfold lookup
  by_cases hd : d = dir
  · subst hd
    rw [Function.update_self, hdir, Option.bind_some, Option.bind_some]
    show Function.update inode.children name target n = _
    simp only [Function.update_apply, true_and]
  · rw [Function.update_of_ne hd, if_neg (fun h => hd h.1)]

theorem lookup_update_of_childless {inode : Option INodeView}
    (h : ∀ i, inode = some i → i.children = fun _ => none) (hx : ∀ n, v.lookup x n = none)
    (d : ℕ) (n : String) : Views.lookup (Function.update v x inode) d n = v.lookup d n := by
  by_cases hd : d = x
  · subst hd
    rw [hx, lookup, Function.update_self]
    cases hinode : inode with
    | none => rfl
    | some i => rw [Option.bind_some, h i hinode]
  · rw [lookup, Function.update_of_ne hd, lookup]

end Views

namespace Tidy

variable {v : Views} {next : ℕ} {names : Names} {dir x : ℕ} {name : String} {inode : INodeView}

/-- An inode has one name. -/
theorem name_unique (h : Tidy v next names) {dir' : ℕ} {name' : String}
    (h₁ : v.lookup dir name = some x) (h₂ : v.lookup dir' name' = some x) :
    dir = dir' ∧ name = name' := by
  obtain ⟨-, i, hi, hparent, hname⟩ := h.home dir name x h₁
  obtain ⟨-, i', hi', hparent', hname'⟩ := h.home dir' name' x h₂
  obtain rfl := Option.some.inj (hi.symm.trans hi')
  exact ⟨Option.some.inj (hparent.symm.trans hparent'), hname.symm.trans hname'⟩

/-- Creating an inode under a free name. -/
theorem create (h : Tidy v next names) (hdir : v dir = some inode)
    (hisDir : inode.isDirectory = true) (hfree : v.lookup dir name = none) (mode : Mode) :
    Tidy (Function.update (Function.update v next (some (SynthFs.newView dir name mode))) dir
        (some (inode.setChild name (some next)))) (next + 1)
      (Function.update names (dir, name) (some next)) := by
  have hne : dir ≠ next := by
    rintro rfl
    rw [h.fresh dir le_rfl] at hdir
    cases hdir
  have hnone : ∀ n, v.lookup next n = none := by
    intro n
    rw [Views.lookup, h.fresh next le_rfl]
    rfl
  have hlookup : ∀ d n, Views.lookup (Function.update (Function.update v next
      (some (SynthFs.newView dir name mode))) dir (some (inode.setChild name (some next)))) d n =
      if d = dir ∧ n = name then some next else v.lookup d n := by
    intro d n
    rw [Views.lookup_setChild (by rw [Function.update_of_ne hne, hdir]),
      Views.lookup_update_of_childless _ hnone]
    rintro i hi
    obtain rfl := Option.some.inj hi
    rfl
  have hold : ∀ d n y, v.lookup d n = some y → y ≠ next := by
    rintro d n y hy rfl
    obtain ⟨-, i, hi, -⟩ := h.home d n y hy
    rw [h.fresh y le_rfl] at hi
    cases hi
  refine ⟨fun d n => ?_, fun y hy => ?_, fun d n y hy => ?_, fun y i hy hfile => ?_⟩
  · rw [hlookup, h.names_eq]
    simp only [Function.update_apply, Prod.mk.injEq]
  · rw [Function.update_of_ne, Function.update_of_ne, h.fresh y (by omega)]
    · omega
    · rintro rfl
      rw [h.fresh y (by omega)] at hdir
      cases hdir
  · rw [hlookup] at hy
    split at hy
    · rename_i hdn
      obtain rfl := Option.some.inj hy
      obtain ⟨rfl, rfl⟩ := hdn
      refine ⟨hne, SynthFs.newView d n mode, ?_, rfl, rfl⟩
      rw [Function.update_of_ne hne.symm, Function.update_self]
    · obtain ⟨hdy, i, hi, hparent, hname⟩ := h.home d n y hy
      refine ⟨hdy, ?_⟩
      by_cases hyd : y = dir
      · subst hyd
        rw [hdir] at hi
        obtain rfl := Option.some.inj hi
        exact ⟨_, Function.update_self _ _ _, hparent, hname⟩
      · exact ⟨i, by rw [Function.update_of_ne hyd, Function.update_of_ne (hold d n y hy), hi],
          hparent, hname⟩
  · by_cases hyd : y = dir
    · subst hyd
      rw [Function.update_self] at hy
      obtain rfl := Option.some.inj hy
      rw [INodeView.setChild, hisDir] at hfile
      cases hfile
    · rw [Function.update_of_ne hyd] at hy
      by_cases hyn : y = next
      · subst hyn
        rw [Function.update_self] at hy
        obtain rfl := Option.some.inj hy
        refine ⟨rfl, ?_, dir, name, by rw [hlookup, if_pos ⟨rfl, rfl⟩]⟩
        have : mode.isDirectory = false := hfile
        simp [SynthFs.newView, this]
      · rw [Function.update_of_ne hyn] at hy
        obtain ⟨hchildren, hlinks, d, n, hdn⟩ := h.file y i hy hfile
        refine ⟨hchildren, hlinks, d, n, ?_⟩
        rw [hlookup, if_neg, hdn]
        rintro ⟨rfl, rfl⟩
        rw [hfree] at hdn
        cases hdn

/-- Removing the name of an inode without children, and the inode with it. -/
theorem remove (h : Tidy v next names) (hdir : v dir = some inode)
    (hname : v.lookup dir name = some x) (hempty : ∀ n, v.lookup x n = none) :
    Tidy (Function.update (Function.update v dir (some (inode.setChild name none))) x none) next
      (Function.update names (dir, name) none) := by
  obtain ⟨hne, xi, hxi, -⟩ := h.home dir name x hname
  have hlookup : ∀ d n, Views.lookup (Function.update (Function.update v dir
      (some (inode.setChild name none))) x none) d n =
      if d = dir ∧ n = name then none else v.lookup d n := by
    intro d n
    rw [Views.lookup_update_of_childless (by simp), Views.lookup_setChild hdir]
    intro m
    rw [Views.lookup_setChild hdir, if_neg (fun hx => hne hx.1.symm), hempty]
  have hkeep : ∀ d n y, ¬(d = dir ∧ n = name) → v.lookup d n = some y → y ≠ x := by
    rintro d n y hdn hy rfl
    exact hdn (h.name_unique hy hname)
  refine ⟨fun d n => ?_, fun y hy => ?_, fun d n y hy => ?_, fun y i hy hfile => ?_⟩
  · rw [hlookup, h.names_eq]
    simp only [Function.update_apply, Prod.mk.injEq]
  · have hyx : y ≠ x := by
      rintro rfl
      rw [h.fresh y hy] at hxi
      cases hxi
    have hyd : y ≠ dir := by
      rintro rfl
      rw [h.fresh y hy] at hdir
      cases hdir
    rw [Function.update_of_ne hyx, Function.update_of_ne hyd, h.fresh y hy]
  · rw [hlookup] at hy
    split at hy
    · cases hy
    · rename_i hdn
      obtain ⟨hdy, i, hi, hparent, hiname⟩ := h.home d n y hy
      refine ⟨hdy, ?_⟩
      rw [Function.update_of_ne (hkeep d n y hdn hy)]
      by_cases hyd : y = dir
      · subst hyd
        rw [hdir] at hi
        obtain rfl := Option.some.inj hi
        exact ⟨_, Function.update_self _ _ _, hparent, hiname⟩
      · exact ⟨i, by rw [Function.update_of_ne hyd, hi], hparent, hiname⟩
  · have hyx : y ≠ x := by
      rintro rfl
      rw [Function.update_self] at hy
      cases hy
    rw [Function.update_of_ne hyx] at hy
    -- a file is not the directory the name is in
    have hold : v y = some i := by
      by_cases hyd : y = dir
      · subst hyd
        rw [Function.update_self] at hy
        obtain rfl := Option.some.inj hy
        have hchildren := (h.file y inode hdir hfile).1
        rw [Views.lookup, hdir, Option.bind_some, hchildren] at hname
        cases hname
      · rwa [Function.update_of_ne hyd] at hy
    obtain ⟨hchildren, hlinks, d, n, hdn⟩ := h.file y i hold hfile
    refine ⟨hchildren, hlinks, d, n, ?_⟩
    rw [hlookup, if_neg, hdn]
    rintro ⟨rfl, rfl⟩
    exact hyx (Option.some.inj (hdn.symm.trans hname))

end Tidy

/-! ## Unlinking -/

namespace SynthFs

variable {fs : SynthFs} {x dir : ℕ} {name : String} {inode : SynthFsINode}

theorem sub_one_eq_iff (a b : UInt64) : a - 1 = 0 + b ↔ a = 1 + b := by
  grind

/-- The inode that `Unlink` decides on: one link less than before. -/
theorem inodes_unlinked (hx : fs.inodes x = some inode) (hne : dir ≠ x) :
    ((fs.shrinkSize dir).decLinkCount x).inodes x =
      some { inode with linkCount := inode.linkCount - 1 } := by
  rw [decLinkCount, inodes_modify_self, shrinkSize, inodes_modify_of_ne _ hne.symm, hx]
  rfl

/-- `Unlink` of an inode whose link count says that this is its last name removes both. -/
theorem unlink_last (hname : fs.lookup dir name = some x) (hx : fs.inodes x = some inode)
    (hne : dir ≠ x) (hlast : inode.linkCount = 1 + inode.isDirectory.toUInt64) :
    ∃ fs', fs.unlink dir name x = some fs' ∧ fs'.nextINodeIndex = fs.nextINodeIndex ∧
      fs'.views = Function.update (Function.update fs.views dir
        ((fs.views dir).map fun v => v.setChild name none)) x none := by
  have hcount : inode.linkCount - 1 = 0 + inode.isDirectory.toUInt64 :=
    (sub_one_eq_iff _ _).mpr hlast
  refine ⟨((((fs.shrinkSize dir).decLinkCount x).eraseChild dir name).freeINode x), ?_, rfl, ?_⟩
  · rw [unlink, hname]
    show dropName _ dir name x = _
    rw [dropName, inodes_unlinked hx hne, Option.map_some]
    exact congrArg some (if_pos hcount)
  · have hdec : ∃ g, ((fs.shrinkSize dir).decLinkCount x).views = Function.update fs.views x g := by
      refine ⟨((fs.shrinkSize dir).decLinkCount x).views x, ?_⟩
      funext y
      by_cases hy : y = x
      · rw [hy, Function.update_self]
      · rw [Function.update_of_ne hy, ← congrFun (views_shrinkSize fs dir) y]
        exact congrArg (Option.map SynthFsINode.view) (inodes_modify_of_ne _ hy)
    obtain ⟨g, hg⟩ := hdec
    rw [views_freeINode, views_eraseChild, hg, Function.update_of_ne hne,
      Function.update_comm hne, Function.update_idem, Function.update_comm hne.symm]

/-- `Unlink` of an inode with another link count keeps every name. -/
theorem unlink_kept (hname : fs.lookup dir name = some x) (hx : fs.inodes x = some inode)
    (hne : dir ≠ x) (hlast : inode.linkCount ≠ 1 + inode.isDirectory.toUInt64) :
    ∃ fs', fs.unlink dir name x = some fs' ∧ ∀ d n, fs'.lookup d n = fs.lookup d n := by
  refine ⟨(fs.shrinkSize dir).decLinkCount x, ?_, fun d n => ?_⟩
  · rw [unlink, hname]
    show dropName _ dir name x = _
    rw [dropName, inodes_unlinked hx hne, Option.map_some]
    exact congrArg some (if_neg fun h => hlast ((sub_one_eq_iff _ _).mp h))
  · rw [lookup_decLinkCount, lookup_shrinkSize]

end SynthFs

namespace SynthFs

/-- `Rename` leaves every name but the new one as it was. -/
theorem lookup_rename_of_ne {fs : SynthFs} {x newParent d : ℕ} {newName n : String}
    (h : (d, n) ≠ (newParent, newName)) :
    (fs.rename x newParent newName).lookup d n = fs.lookup d n := by
  have hmodify : (fs.modify x fun inode => { inode with name := newName }).lookup d n =
      fs.lookup d n := by
    apply lookup_modify
    intro inode
    rfl
  rw [← hmodify, ← lookup_views, ← lookup_views, rename, views_insertChild]
  cases hv : (fs.modify x fun inode => { inode with name := newName }).views newParent with
  | none =>
    rw [Option.map_none, ← hv, Function.update_eq_self]
  | some v =>
    rw [Option.map_some, Views.lookup_setChild hv, if_neg]
    rintro ⟨rfl, rfl⟩
    exact h rfl

end SynthFs

/-! ## Runs -/

/-- A file system together with the names it should have. -/
structure Tracked where
  fs : SynthFs
  names : Names

namespace Tracked

/-- The operations on the namespace. `Unlink` and `RmDir` get an entry, a name with an inode bound
to it; `Rename` is called on the inode. -/
inductive Call
  | createNode (heap : Bool) (dir : ℕ) (name : String) (mode : Mode) (dev : UInt64)
  | createDirectory (heap : Bool) (dir : ℕ) (name : String) (mode : Mode)
  | link (dir source : ℕ) (name : String)
  | unlink (dir : ℕ) (name : String) (inode : ℕ)
  | rmDir (dir : ℕ) (name : String) (inode : ℕ)
  | rename (inode newParent : ℕ) (newName : String)

/-- A name is bound by a successful operation. -/
def bindName (names : Names) (dir : ℕ) (name : String) :
    Except Errno ℕ × SynthFs → Except Errno Unit × Tracked
  | (.error code, fs) => (.error code, ⟨fs, names⟩)
  | (.ok x, fs) => (.ok (), ⟨fs, Function.update names (dir, name) (some x)⟩)

/-- A name is taken away by a successful operation. -/
def unbindName (names : Names) (dir : ℕ) (name : String) :
    Except Errno Unit × SynthFs → Except Errno Unit × Tracked
  | (.error code, fs) => (.error code, ⟨fs, names⟩)
  | (.ok (), fs) => (.ok (), ⟨fs, Function.update names (dir, name) none⟩)

/-- The names after an inode has moved from its old name to a new one. -/
def moveName (names : Names) (x : ℕ) (inode : SynthFsINode) (newParent : ℕ) (newName : String) :
    Names :=
  Function.update
    (match inode.parent with
      | some dir => Function.update names (dir, inode.name) none
      | none => names) (newParent, newName) (some x)

/-- One operation: its result, the file system after it and the names there should be. -/
def exec (s : Tracked) : Call → Option (Except Errno Unit × Tracked)
  | .createNode heap dir name mode dev =>
    some (bindName s.names dir name (s.fs.createNode heap dir name mode dev))
  | .createDirectory heap dir name mode =>
    some (bindName s.names dir name (s.fs.createDirectory heap dir name mode))
  | .link dir source name => (s.fs.link dir source).map (bindName s.names dir name)
  | .unlink dir name x =>
    (s.fs.unlink dir name x).map fun fs => unbindName s.names dir name (.ok (), fs)
  | .rmDir dir name x => (s.fs.rmDir dir name x).map (unbindName s.names dir name)
  | .rename x newParent newName =>
    (s.fs.inodes x).map fun inode =>
      (.ok (), ⟨s.fs.rename x newParent newName, moveName s.names x inode newParent newName⟩)

/-- The state after an operation. -/
def step (s : Tracked) (call : Call) : Option Tracked := (s.exec call).map Prod.snd

/-- An existing directory. -/
def IsDir (fs : SynthFs) (dir : ℕ) : Prop :=
  ∃ inode, fs.inodes dir = some inode ∧ inode.isDirectory = true

/-- The operations considered: on existing directories and inodes, with entries that `Lookup` has
bound, and renaming an inode that has a name. -/
def InTree (s : Tracked) : Call → Prop
  | .createNode _ dir _ _ _ => IsDir s.fs dir
  | .createDirectory _ dir _ _ => IsDir s.fs dir
  | .link dir source _ => IsDir s.fs dir ∧ ∃ inode, s.fs.inodes source = some inode
  | .unlink dir name x => IsDir s.fs dir ∧ ∀ y, s.fs.lookup dir name = some y → y = x
  | .rmDir dir name x => IsDir s.fs dir ∧ s.fs.lookup dir name = some x
  | .rename x newParent _ => IsDir s.fs newParent ∧ ∃ dir name, s.fs.lookup dir name = some x

/-- The names of an inode. -/
def refs (fs : SynthFs) (x : ℕ) : Set (ℕ × String) := {p | fs.lookup p.1 p.2 = some x}

/-- `Lookup` finds the names there should be, and the link count of a file is the number of its
names. -/
structure Consistent (s : Tracked) : Prop where
  lookup_eq : ∀ dir name, s.fs.lookup dir name = s.names (dir, name)
  links_eq : ∀ x inode, s.fs.inodes x = some inode → inode.isDirectory = false →
    (refs s.fs x).encard = inode.linkCount.toNat

/-- The link count of an inode, if it exists. -/
def linkCount (fs : SynthFs) (x : ℕ) : Option UInt64 := (fs.inodes x).map SynthFsINode.linkCount

/-- What an operation should do: leave a consistent state, change no name and no count when it
fails, and when it renames, make the new name reach the inode and the old one no longer. -/
def Keeps (s : Tracked) (call : Call) : Prop :=
  ∀ r s', s.exec call = some (r, s') →
    s'.Consistent ∧
    (∀ code, r = .error code → (∀ dir name, s'.fs.lookup dir name = s.fs.lookup dir name) ∧
      ∀ x, linkCount s'.fs x = linkCount s.fs x) ∧
    ∀ x newParent newName, call = .rename x newParent newName → r = .ok () →
      s'.fs.lookup newParent newName = some x ∧
      ∀ dir name, s.fs.lookup dir name = some x → (dir, name) ≠ (newParent, newName) →
        s'.fs.lookup dir name ≠ some x

/-- The condition on the operations: `Link` only of a directory, which it refuses; `Unlink` of a
directory only when it is empty and has two links; `RmDir` of an empty directory only when it has
two links; `Rename` only to a name that the inode already has. -/
def Harmless (s : Tracked) : Call → Prop
  | .createNode .. => True
  | .createDirectory .. => True
  | .link _ source _ => ∀ inode, s.fs.inodes source = some inode → inode.isDirectory = true
  | .unlink dir name x => ∀ inode, s.fs.lookup dir name = some x → s.fs.inodes x = some inode →
      inode.isDirectory = true → inode.linkCount = 2 ∧ inode.children.entries = []
  | .rmDir _ _ x => ∀ inode, s.fs.inodes x = some inode → inode.isDirectory = true →
      inode.children.entries = [] → inode.linkCount = 2
  | .rename x newParent newName => s.fs.lookup newParent newName = some x

/-- The invariant of a run whose operations are all harmless. -/
def TidyState (s : Tracked) : Prop := Tidy s.fs.views s.fs.nextINodeIndex s.names

variable {s s' : Tracked}

/-- A tidy state is consistent. -/
theorem TidyState.consistent (h : s.TidyState) : s.Consistent := by
  have hlookup := SynthFs.lookup_views s.fs
  refine ⟨fun dir name => hlookup dir name ▸ h.names_eq dir name, fun x inode hx hfile => ?_⟩
  obtain ⟨-, hlinks, dir, name, hname⟩ := h.file x inode.view (SynthFs.views_eq_some hx) hfile
  have hone : inode.linkCount = 1 := by
    unfold SynthFsINode.view at hlinks
    simpa [hfile] using hlinks
  have hrefs : refs s.fs x = {(dir, name)} := by
    ext ⟨d, n⟩
    simp only [refs, Set.mem_ofPred_eq, Set.mem_singleton_iff, Prod.mk.injEq]
    rw [← hlookup d n]
    constructor
    · exact fun hd => h.name_unique hd hname
    · rintro ⟨rfl, rfl⟩
      exact hname
  rw [hrefs, hone, Set.encard_singleton]
  rfl

/-- A file of a tidy state has one link and no children. -/
theorem TidyState.file (h : s.TidyState) {x : ℕ} {inode : SynthFsINode}
    (hx : s.fs.inodes x = some inode) (hfile : inode.isDirectory = false) :
    inode.linkCount = 1 ∧ ∀ n, s.fs.lookup x n = none := by
  obtain ⟨hchildren, hlinks, -⟩ := Tidy.file h x inode.view (SynthFs.views_eq_some hx) hfile
  constructor
  · unfold SynthFsINode.view at hlinks
    simpa [hfile] using hlinks
  · intro n
    rw [SynthFs.lookup, hx]
    exact congrFun hchildren n

/-- A name of a tidy state refers to an inode that knows its directory and its name. -/
theorem TidyState.home (h : s.TidyState) {dir x : ℕ} {name : String}
    (hname : s.fs.lookup dir name = some x) :
    dir ≠ x ∧ ∃ inode, s.fs.inodes x = some inode ∧ inode.parent = some dir ∧
      inode.name = name := by
  rw [← SynthFs.lookup_views] at hname
  obtain ⟨hne, v, hv, hparent, hvname⟩ := Tidy.home h dir name x hname
  obtain ⟨inode, hinode, rfl⟩ := Option.map_eq_some_iff.mp hv
  exact ⟨hne, inode, hinode, hparent, hvname⟩

/-- The outcome of a harmless operation: tidy again, and unchanged inodes where it failed. -/
structure Outcome (s : Tracked) (r : Except Errno Unit) (s' : Tracked) : Prop where
  tidy : s'.TidyState
  failed : ∀ code, r = .error code → s'.fs = s.fs

theorem outcome_create (h : s.TidyState) (heap : Bool) {dir : ℕ} (hdir : IsDir s.fs dir)
    (name : String) (mode : Mode) (dev : UInt64) :
    Outcome s (bindName s.names dir name (s.fs.createNode heap dir name mode dev)).1
      (bindName s.names dir name (s.fs.createNode heap dir name mode dev)).2 := by
  obtain ⟨inode, hinode, hisDir⟩ := hdir
  have hview := SynthFs.views_eq_some hinode
  have hne : dir ≠ s.fs.nextINodeIndex := by
    rintro rfl
    rw [Tidy.fresh h _ le_rfl] at hview
    cases hview
  rcases SynthFs.createNode_cases s.fs heap name mode dev hne with
    ⟨code, heq⟩ | ⟨hfree, fs', heq, hnext, hviews⟩
  · rw [heq]
    exact ⟨h, fun _ _ => rfl⟩
  · rw [heq]
    refine ⟨?_, fun code hcode => by cases hcode⟩
    show Tidy fs'.views fs'.nextINodeIndex _
    rw [hnext, hviews, hview]
    exact Tidy.create h hview hisDir ((SynthFs.lookup_views s.fs dir name).trans hfree) mode

theorem outcome_createDirectory (h : s.TidyState) (heap : Bool) {dir : ℕ} (hdir : IsDir s.fs dir)
    (name : String) (mode : Mode) :
    Outcome s (bindName s.names dir name (s.fs.createDirectory heap dir name mode)).1
      (bindName s.names dir name (s.fs.createDirectory heap dir name mode)).2 := by
  obtain ⟨inode, hinode, hisDir⟩ := hdir
  have hview := SynthFs.views_eq_some hinode
  have hne : dir ≠ s.fs.nextINodeIndex := by
    rintro rfl
    rw [Tidy.fresh h _ le_rfl] at hview
    cases hview
  have hcreate := outcome_create h heap ⟨inode, hinode, hisDir⟩ name mode.asDirectory 0
  unfold SynthFs.createDirectory
  rcases SynthFs.createNode_cases s.fs heap name mode.asDirectory 0 hne with
    ⟨code, heq⟩ | ⟨hfree, fs', heq, hnext, hviews⟩
  · rw [heq] at hcreate ⊢
    exact hcreate
  · rw [heq] at hcreate ⊢
    refine ⟨?_, fun code hcode => by cases hcode⟩
    have hsame : (fs'.incLinkCount dir).views = fs'.views := by
      apply SynthFs.views_setLinkCount (fun n => n + 1)
      intro i hi
      rw [SynthFs.isDirectory_of_views (v := inode.view.setChild name (some s.fs.nextINodeIndex)) _
        hi]
      · exact hisDir
      · rw [hviews, Function.update_self, hview]
        rfl
    show Tidy (fs'.incLinkCount dir).views fs'.nextINodeIndex _
    rw [hsame]
    exact hcreate.tidy

/-- Removing the name of an inode without children whose link count is right. -/
theorem outcome_unlink {fs : SynthFs} (h : s.TidyState) (hviews : fs.views = s.fs.views)
    (hnext : fs.nextINodeIndex = s.fs.nextINodeIndex) {dir x : ℕ} {name : String}
    {inode : SynthFsINode} (hname : fs.lookup dir name = some x) (hx : fs.inodes x = some inode)
    (hlast : inode.linkCount = 1 + inode.isDirectory.toUInt64)
    (hempty : ∀ n, fs.lookup x n = none) :
    ∃ fs', fs.unlink dir name x = some fs' ∧
      TidyState ⟨fs', Function.update s.names (dir, name) none⟩ := by
  have hname' : s.fs.views.lookup dir name = some x := by
    rw [← hviews, SynthFs.lookup_views, hname]
  have hempty' : ∀ n, s.fs.views.lookup x n = none := by
    intro n
    rw [← hviews, SynthFs.lookup_views, hempty]
  have hdir : ∃ v, s.fs.views dir = some v := by
    unfold Views.lookup at hname'
    cases hv : s.fs.views dir with
    | none => rw [hv] at hname'; cases hname'
    | some v => exact ⟨v, rfl⟩
  obtain ⟨v, hv⟩ := hdir
  obtain ⟨hne, -⟩ := Tidy.home h dir name x hname'
  obtain ⟨fs', hunlink, hnext', hviews'⟩ := SynthFs.unlink_last hname hx hne hlast
  refine ⟨fs', hunlink, ?_⟩
  show Tidy fs'.views fs'.nextINodeIndex _
  rw [hviews', hnext', hnext, hviews, hv]
  exact Tidy.remove h hv hname' hempty'

theorem lookup_eq_none_of_entries {fs : SynthFs} {x : ℕ} {inode : SynthFsINode}
    (hx : fs.inodes x = some inode) (h : inode.children.entries = []) (n : String) :
    fs.lookup x n = none := by
  rw [SynthFs.lookup, hx, Option.bind_some, AList.lookup, h]
  rfl

/-- Binding a name to the inode it refers to changes nothing. -/
theorem update_setChild_self {v : Views} {dir x : ℕ} {name : String}
    (h : v.lookup dir name = some x) :
    Function.update v dir ((v dir).map fun i => i.setChild name (some x)) = v := by
  unfold Views.lookup at h
  cases hdir : v dir with
  | none => rw [hdir] at h; cases h
  | some i =>
    rw [hdir, Option.bind_some] at h
    have hi : i.setChild name (some x) = i := by
      unfold INodeView.setChild
      rw [← h, Function.update_eq_self]
    rw [Option.map_some, hi, ← hdir, Function.update_eq_self]

/-- `RmDir` of a directory that is empty and has its two links, or of a file. -/
theorem outcome_rmDir (h : s.TidyState) {dir x : ℕ} {name : String} (hdir : IsDir s.fs dir)
    (hname : s.fs.lookup dir name = some x) (hharm : s.Harmless (.rmDir dir name x))
    {r : Except Errno Unit} (hexec : s.exec (.rmDir dir name x) = some (r, s')) :
    Outcome s r s' := by
  obtain ⟨dirNode, hdirNode, hisDir⟩ := hdir
  obtain ⟨hne, inode, hinode, -⟩ := h.home hname
  rw [Tracked.exec, SynthFs.rmDir, hinode, Option.bind_some] at hexec
  split at hexec
  · rename_i hentries
    have hentries' : inode.children.entries = [] := List.isEmpty_iff.mp hentries
    have hviews : (s.fs.decLinkCount dir).views = s.fs.views := by
      apply SynthFs.views_setLinkCount (fun n => n - 1)
      intro i hi
      obtain rfl := Option.some.inj (hi.symm.trans hdirNode)
      exact hisDir
    have hlast : inode.linkCount = 1 + inode.isDirectory.toUInt64 := by
      cases hx : inode.isDirectory with
      | false => exact (h.file hinode hx).1
      | true => exact hharm inode hinode hx hentries'
    have hinode' : (s.fs.decLinkCount dir).inodes x = some inode := by
      rw [SynthFs.inodes_decLinkCount_of_ne hne.symm, hinode]
    obtain ⟨fs', hunlink, htidy⟩ := outcome_unlink h hviews rfl
      (by rw [SynthFs.lookup_decLinkCount, hname]) hinode' hlast
      (lookup_eq_none_of_entries hinode' hentries')
    rw [hunlink, Option.map_some, Option.map_some, Option.some.injEq] at hexec
    obtain ⟨rfl, rfl⟩ := Prod.mk.inj hexec
    exact ⟨htidy, fun code hcode => by cases hcode⟩
  · rw [Option.map_some, Option.some.injEq] at hexec
    obtain ⟨rfl, rfl⟩ := Prod.mk.inj hexec
    exact ⟨h, fun _ _ => rfl⟩

/-- `Rename` of an inode to the name it has. -/
theorem outcome_rename (h : s.TidyState) {x newParent : ℕ} {newName : String}
    (hname : s.fs.lookup newParent newName = some x) {r : Except Errno Unit}
    (hexec : s.exec (.rename x newParent newName) = some (r, s')) : Outcome s r s' := by
  obtain ⟨-, inode, hinode, hparent, hvname⟩ := h.home hname
  rw [← SynthFs.lookup_views] at hname
  rw [Tracked.exec, hinode, Option.map_some, Option.some.injEq] at hexec
  obtain ⟨rfl, rfl⟩ := Prod.mk.inj hexec
  refine ⟨?_, fun code hcode => by cases hcode⟩
  have hviews : (s.fs.rename x newParent newName).views = s.fs.views := by
    rw [SynthFs.rename, SynthFs.views_insertChild, SynthFs.views_modify_eq]
    · apply update_setChild_self
      exact hname
    · intro i hi
      obtain rfl := Option.some.inj (hi.symm.trans hinode)
      rw [← hvname]
  have hnames : moveName s.names x inode newParent newName = s.names := by
    unfold moveName
    rw [hparent, hvname]
    dsimp only
    rw [Function.update_idem, ← hname, Tidy.names_eq h, Function.update_eq_self]
  show Tidy (s.fs.rename x newParent newName).views s.fs.nextINodeIndex _
  rw [hviews, hnames]
  exact h

/-- A harmless operation keeps the state tidy. -/
theorem TidyState.exec (h : s.TidyState) {call : Call} (htree : s.InTree call)
    (hharm : s.Harmless call) {r : Except Errno Unit} (hexec : s.exec call = some (r, s')) :
    Outcome s r s' := by
  cases call with
  | createNode heap dir name mode dev =>
    have := outcome_create h heap htree name mode dev
    rw [Tracked.exec, Option.some.injEq] at hexec
    rwa [hexec] at this
  | createDirectory heap dir name mode =>
    have := outcome_createDirectory h heap htree name mode
    rw [Tracked.exec, Option.some.injEq] at hexec
    rwa [hexec] at this
  | link dir source name =>
    obtain ⟨-, inode, hinode⟩ := htree
    rw [Tracked.exec, SynthFs.link, hinode, Option.map_some, if_pos (hharm inode hinode),
      Option.map_some, Option.some.injEq] at hexec
    obtain ⟨rfl, rfl⟩ := Prod.mk.inj hexec
    exact ⟨h, fun _ _ => rfl⟩
  | unlink dir name x =>
    rw [Tracked.exec] at hexec
    cases hname : s.fs.lookup dir name with
    | none =>
      rw [SynthFs.unlink, hname, Option.map_some, Option.some.injEq] at hexec
      obtain ⟨rfl, rfl⟩ := Prod.mk.inj hexec
      refine ⟨?_, fun _ _ => rfl⟩
      have hsame : Function.update s.names (dir, name) none = s.names := by
        rw [← hname, ← SynthFs.lookup_views, Tidy.names_eq h, Function.update_eq_self]
      show Tidy _ _ (Function.update s.names (dir, name) none)
      rw [hsame]
      exact h
    | some y =>
      obtain rfl := htree.2 y hname
      obtain ⟨-, inode, hinode, -⟩ := h.home hname
      have hlast : inode.linkCount = 1 + inode.isDirectory.toUInt64 ∧
          ∀ n, s.fs.lookup y n = none := by
        cases hisDir : inode.isDirectory with
        | false => exact h.file hinode hisDir
        | true =>
          obtain ⟨hcount, hentries⟩ := hharm inode hname hinode hisDir
          exact ⟨hcount, lookup_eq_none_of_entries hinode hentries⟩
      obtain ⟨fs', hunlink, htidy⟩ := outcome_unlink h rfl rfl hname hinode hlast.1 hlast.2
      rw [hunlink, Option.map_some, Option.some.injEq] at hexec
      obtain ⟨rfl, rfl⟩ := Prod.mk.inj hexec
      exact ⟨htidy, fun code hcode => by cases hcode⟩
  | rmDir dir name x => exact outcome_rmDir h htree.1 htree.2 hharm hexec
  | rename x newParent newName => exact outcome_rename h hharm hexec

/-- A harmless operation does what it should. -/
theorem TidyState.keeps (h : s.TidyState) {call : Call} (htree : s.InTree call)
    (hharm : s.Harmless call) : s.Keeps call := by
  intro r s' hexec
  have hout := h.exec htree hharm hexec
  refine ⟨hout.tidy.consistent, fun code hcode => ?_, ?_⟩
  · rw [hout.failed code hcode]
    exact ⟨fun _ _ => rfl, fun _ => rfl⟩
  · rintro x newParent newName rfl -
    have hname : s.fs.lookup newParent newName = some x := hharm
    -- the inode had this one name already
    have honly : ∀ dir name, s.fs.lookup dir name = some x →
        (dir, name) = (newParent, newName) := by
      intro dir name hdir
      rw [← SynthFs.lookup_views] at hdir hname
      obtain ⟨rfl, rfl⟩ := Tidy.name_unique h hdir hname
      rfl
    refine ⟨?_, fun dir name hdir hne => absurd (honly dir name hdir) hne⟩
    rw [hout.tidy.consistent.lookup_eq]
    obtain ⟨inode, hinode, heq⟩ := Option.map_eq_some_iff.mp hexec
    obtain ⟨-, rfl⟩ := Prod.mk.inj heq
    exact Function.update_self _ _ _

/-- A name that `Lookup` still finds is not gone. -/
theorem name_kept {fs : SynthFs} {names : Names} {dir x : ℕ} {name : String}
    (h : fs.lookup dir name = some x)
    (hnone : fs.lookup dir name = Function.update names (dir, name) none (dir, name)) : False := by
  rw [h, Function.update_self] at hnone
  cases hnone

theorem lookup_of_entries_ne_nil {fs : SynthFs} {x : ℕ} {inode : SynthFsINode}
    (hx : fs.inodes x = some inode) (h : inode.children.entries ≠ []) :
    ∃ m y, fs.lookup x m = some y := by
  obtain ⟨⟨m, y⟩, rest, hcons⟩ := List.exists_cons_of_ne_nil h
  refine ⟨m, y, ?_⟩
  rw [SynthFs.lookup, hx, Option.bind_some, AList.lookup, hcons, List.dlookup_cons_eq]

/-- `Link` to a file raises its link count, but adds no name. -/
theorem TidyState.link_harmless (h : s.TidyState) {dir source : ℕ} {name : String}
    (htree : s.InTree (.link dir source name)) (hkeeps : s.Keeps (.link dir source name)) :
    s.Harmless (.link dir source name) := by
  intro inode hinode
  by_contra hfile
  rw [Bool.not_eq_true] at hfile
  have hne : source ≠ dir := by
    rintro rfl
    obtain ⟨⟨i, hi, hisDir⟩, -⟩ := htree
    obtain rfl := Option.some.inj (hi.symm.trans hinode)
    rw [hfile] at hisDir
    cases hisDir
  obtain ⟨hcons, -⟩ := hkeeps (.ok ()) _ (by
    rw [Tracked.exec, SynthFs.link, hinode, Option.map_some, if_neg (by simp [hfile])]
    rfl)
  have hrefs : refs ((s.fs.growSize dir).incLinkCount source) source = refs s.fs source := by
    unfold refs
    simp only [SynthFs.lookup_incLinkCount, SynthFs.lookup_growSize]
  have hnew := hcons.links_eq source { inode with linkCount := inode.linkCount + 1 } (by
    rw [SynthFs.incLinkCount, SynthFs.inodes_modify_self, SynthFs.growSize,
      SynthFs.inodes_modify_of_ne _ hne, hinode]
    rfl) hfile
  have hold := h.consistent.links_eq source inode hinode hfile
  have hone := (h.file hinode hfile).1
  dsimp only at hnew
  rw [hrefs, hold, hone] at hnew
  exact absurd hnew (by decide)

/-- `Unlink` of a directory leaves its name where it has more links than two, and loses the names
in it where it is not empty. -/
theorem TidyState.unlink_harmless (h : s.TidyState) {dir x : ℕ} {name : String}
    (hkeeps : s.Keeps (.unlink dir name x)) : s.Harmless (.unlink dir name x) := by
  intro inode hname hinode hisDir
  obtain ⟨hne, -⟩ := h.home hname
  have hcount : inode.linkCount = 2 := by
    by_contra hcount
    obtain ⟨fs', hunlink, hkept⟩ := SynthFs.unlink_kept hname hinode hne (by
      rw [hisDir]
      exact hcount)
    obtain ⟨hcons, -⟩ := hkeeps _ _ (by rw [Tracked.exec, hunlink]; rfl)
    exact name_kept (hkept dir name ▸ hname) (hcons.lookup_eq dir name)
  refine ⟨hcount, ?_⟩
  by_contra hentries
  obtain ⟨m, y, hchild⟩ := lookup_of_entries_ne_nil hinode hentries
  obtain ⟨fs', hunlink, -, hviews⟩ := SynthFs.unlink_last hname hinode hne (by
    rw [hisDir, hcount]
    rfl)
  obtain ⟨hcons, -⟩ := hkeeps _ _ (by rw [Tracked.exec, hunlink]; rfl)
  have hgone : fs'.lookup x m = none := by
    rw [← SynthFs.lookup_views, Views.lookup, hviews, Function.update_self]
    rfl
  have hstill : Function.update s.names (dir, name) none (x, m) = some y := by
    rw [Function.update_of_ne (fun heq => hne (congrArg Prod.fst heq).symm),
      ← h.consistent.lookup_eq, hchild]
  have := hcons.lookup_eq x m
  dsimp only [unbindName] at this
  rw [hgone, hstill] at this
  cases this

/-- An operation that does what it should was harmless. -/
theorem TidyState.harmless (h : s.TidyState) {call : Call} (htree : s.InTree call)
    (hkeeps : s.Keeps call) : s.Harmless call := by
  cases call with
  | createNode heap dir name mode dev => trivial
  | createDirectory heap dir name mode => trivial
  | link dir source name => exact h.link_harmless htree hkeeps
  | unlink dir name x => exact h.unlink_harmless hkeeps
  | rmDir dir name x =>
    obtain ⟨-, hname⟩ := htree
    intro inode hinode hisDir hentries
    obtain ⟨hne, -⟩ := h.home hname
    by_contra hcount
    have hname' : (s.fs.decLinkCount dir).lookup dir name = some x := by
      rw [SynthFs.lookup_decLinkCount, hname]
    have hinode' : (s.fs.decLinkCount dir).inodes x = some inode := by
      rw [SynthFs.inodes_decLinkCount_of_ne hne.symm, hinode]
    obtain ⟨fs', hunlink, hkept⟩ := SynthFs.unlink_kept hname' hinode' hne (by
      rw [hisDir]
      exact hcount)
    obtain ⟨hcons, -⟩ := hkeeps (.ok ()) _ (by
      rw [Tracked.exec, SynthFs.rmDir, hinode, Option.bind_some,
        if_pos (List.isEmpty_iff.mpr hentries), hunlink]
      rfl)
    exact name_kept (hkept dir name ▸ hname') (hcons.lookup_eq dir name)
  | rename x newParent newName =>
    obtain ⟨-, dir, name, hname⟩ := htree
    obtain ⟨-, inode, hinode, -⟩ := h.home hname
    obtain ⟨-, -, hmoves⟩ := hkeeps _ _ (by rw [Tracked.exec, hinode]; rfl)
    obtain ⟨-, hold⟩ := hmoves x newParent newName rfl rfl
    by_contra hharm
    have hne : (dir, name) ≠ (newParent, newName) := by
      intro heq
      obtain ⟨rfl, rfl⟩ := Prod.mk.inj heq
      exact hharm hname
    -- the old name is still there
    exact hold dir name hname hne ((SynthFs.lookup_rename_of_ne hne).trans hname)

/-- A new file system: its root directory, allocated with number 2, and no names. -/
def newTree (maxINodeCount : ℕ) : Tracked where
  fs :=
    { inodes := fun x => if x = 2 then some (.create "/" (0o644 ||| Mode.ifdir)) else none
      nextINodeIndex := 3
      maxINodeCount := maxINodeCount
      freeINodeCount := UInt64.ofNat maxINodeCount - 1 }
  names := fun _ => none

theorem tidy_newTree (maxINodeCount : ℕ) : (newTree maxINodeCount).TidyState := by
  have hviews : ∀ x inode, (newTree maxINodeCount).fs.views x = some inode →
      x = 2 ∧ inode = (SynthFsINode.create "/" (0o644 ||| Mode.ifdir)).view := by
    intro x inode hx
    obtain ⟨i, hi, rfl⟩ := Option.map_eq_some_iff.mp hx
    unfold newTree at hi
    dsimp only at hi
    split at hi
    · rename_i hx2
      obtain rfl := Option.some.inj hi
      exact ⟨hx2, rfl⟩
    · cases hi
  have hnone : ∀ dir name, (newTree maxINodeCount).fs.views.lookup dir name = none := by
    intro dir name
    unfold Views.lookup
    cases hdir : (newTree maxINodeCount).fs.views dir with
    | none => rfl
    | some inode =>
      obtain ⟨-, rfl⟩ := hviews dir inode hdir
      rfl
  refine ⟨hnone, fun x hx => ?_, fun dir name x hx => ?_, fun x inode hx hfile => ?_⟩
  · cases hcase : (newTree maxINodeCount).fs.views x with
    | none => rfl
    | some inode =>
      obtain ⟨rfl, -⟩ := hviews x inode hcase
      exact absurd hx (show ¬3 ≤ 2 by decide)
  · rw [hnone] at hx
    cases hx
  · obtain ⟨-, rfl⟩ := hviews x inode hx
    exact absurd hfile (by decide)

/-- In every run of the six operations on a new file system, every operation does what it should
(`Lookup` finds exactly the names created or linked and not taken away since, `Rename` moves the
name, file link counts are the numbers of names, a failure changes nothing) if and only if every
operation of the run is harmless. -/
theorem keeps_along_iff (maxINodeCount : ℕ) (calls : List Call)
    (htree : Along step InTree (newTree maxINodeCount) calls) :
    Along step Keeps (newTree maxINodeCount) calls ↔
      Along step Harmless (newTree maxINodeCount) calls := by
  refine Along.congr (tidy_newTree maxINodeCount) htree
    (fun s call h hcall => ⟨h.harmless hcall, h.keeps hcall⟩) ?_
  intro s call s' h hcall hharm hstep
  obtain ⟨⟨r, s''⟩, hexec, rfl⟩ := Option.map_eq_some_iff.mp hstep
  exact (h.exec hcall hharm hexec).tidy

/-- A file is created in the root and unlinked again. -/
theorem keeps_along_create_unlink :
    Along step Keeps (newTree 100)
      [.createNode true 2 "a" Mode.ifreg 0, .unlink 2 "a" 3] := by
  refine (keeps_along_iff 100 _ ?_).mpr ?_
  · refine ⟨⟨_, rfl, by decide⟩, fun s hs => ?_⟩
    obtain rfl := Option.some.inj hs
    refine ⟨⟨⟨_, rfl, by decide⟩, fun y hy => ?_⟩, fun _ _ => trivial⟩
    exact (Option.some.inj hy).symm
  · refine ⟨trivial, fun s hs => ?_⟩
    obtain rfl := Option.some.inj hs
    refine ⟨fun inode _ hinode hisDir => ?_, fun _ _ => trivial⟩
    obtain rfl := Option.some.inj hinode
    exact absurd hisDir (by decide)

/-- A file `a` that is renamed to `b` is still found as `a`. -/
theorem not_keeps_rename :
    Along step InTree (newTree 100)
      [.createNode true 2 "a" Mode.ifreg 0, .rename 3 2 "b"] ∧
    ¬Along step Keeps (newTree 100)
      [.createNode true 2 "a" Mode.ifreg 0, .rename 3 2 "b"] := by
  constructor
  · refine ⟨⟨_, rfl, by decide⟩, fun s hs => ?_⟩
    obtain rfl := Option.some.inj hs
    exact ⟨⟨⟨_, rfl, by decide⟩, 2, "a", by decide⟩, fun _ _ => trivial⟩
  · intro h
    obtain ⟨-, -, hmoves⟩ := (h.2 _ rfl).1 _ _ rfl
    obtain ⟨-, hold⟩ := hmoves 3 2 "b" rfl rfl
    exact hold 2 "a" (by decide) (by decide) (by decide)

end Tracked

end Cryptix.VFS
