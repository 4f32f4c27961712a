import Cryptix.VFS.SynthFsNames

/-!
# A second name for a file

`Link` of `Kernel/VFS/VFS.cpp` over `Lookup`, `Bind` and `InsertChild` of
`Kernel/VFS/DirectoryEntry.cpp`. A directory entry caches the entries of its names, and a name that
is not there yet is looked up in the inode. What a name leads to is `found` in either place.

`Link` asks the new parent for the old name, not for the new one. So it is right exactly when both
are there or both are not, as far as it gets to that question (`linkLaw_iff`); a name in the
directory that its file has a name in already is always turned down.
-/

namespace Cryptix.VFS

/-- `DirectoryEntryFlags::eDirectory`. -/
def eDirectory : BitVec 32 := 2

/-- The flags that `DirectoryEntry::Bind` sets for an inode of some mode. -/
def bindFlags (m : Mode) : BitVec 32 :=
  (if m.isDirectory then eDirectory else 0) ||| (if m.isRegular then 4 else 0) |||
    (if m &&& Mode.ifmt == 0o120000 then 6 else 0) |||
    (if m &&& Mode.ifmt == 0o020000 || m &&& Mode.ifmt == 0o140000 || m &&& Mode.ifmt == 0o010000
      then 5 else 0)

/-- `DirectoryEntry::IsDirectory`, of the flags of an entry. The flag of a link has the bit of a
directory, too. -/
def isDirectoryFlag (flags : BitVec 32) : Bool := flags &&& eDirectory != 0

/-- `DirectoryEntry`, as far as names are looked up with it. -/
structure DirectoryEntry where
  name : String
  flags : BitVec 32
  inode : Option ℕ
  parent : Option ℕ
  children : AList fun _ : String => ℕ

/-- The entries there are, over the inodes of a file system. -/
structure EntryCache where
  entries : ℕ → Option DirectoryEntry
  nextEntry : ℕ
  fs : SynthFs

namespace EntryCache

variable (t : EntryCache)

/-- The flags of an entry that is bound to an inode. -/
def flagsOf (x : ℕ) : BitVec 32 := (t.fs.inodes x).elim 0 fun inode => bindFlags inode.mode

/-- A new entry is bound to the inode `x` and becomes a child of `p`, whose entry is `d`. -/
def adopt (p : ℕ) (d : DirectoryEntry) (name : String) (x : ℕ) : EntryCache where
  entries := Function.update
    (Function.update t.entries t.nextEntry (some ⟨name, t.flagsOf x, some x, some p, ∅⟩)) p
    (some { d with children := d.children.insert name t.nextEntry })
  nextEntry := t.nextEntry + 1
  fs := t.fs

/-- `DirectoryEntry::Lookup`. -/
def lookup (p : ℕ) (name : String) : Option ℕ × EntryCache :=
  match t.entries p with
  | none => (none, t)
  | some d =>
    match d.children.lookup name with
    | some e => (some e, t)
    | none =>
      match d.inode.bind fun dir => t.fs.lookup dir name with
      | none => (none, t)
      | some x => (some t.nextEntry, t.adopt p d name x)

/-- The end of `Link`: the inode of the new parent is asked to link the file, and the new entry
becomes a child. `none` stands for the use of an inode that is null. -/
def linkEntry (oldEntry newParent : ℕ) (newName : String) : Option (Except Errno ℕ × EntryCache) :=
  (t.entries newParent).bind fun d => d.inode.bind fun dir =>
    ((t.entries oldEntry).bind fun old => old.inode).bind fun x =>
      (t.fs.link dir x).map fun r =>
        match r.1 with
        | .error code => (.error code, { t with fs := r.2 })
        | .ok y => (.ok t.nextEntry, { t with fs := r.2 }.adopt newParent d newName y)

/-- `VFS::Link`. -/
def link (oldParent : ℕ) (oldName : String) (newParent : ℕ) (newName : String) :
    Option (Except Errno ℕ × EntryCache) :=
  match t.lookup oldParent oldName with
  | (none, t) => some (.error .ENOENT, t)
  | (some oldEntry, t) =>
    if (t.entries oldEntry).any fun old => isDirectoryFlag old.flags then some (.error .EPERM, t)
    else
      match t.lookup newParent oldName with
      | (some _, t) => some (.error .EEXIST, t)
      | (none, t) => t.linkEntry oldEntry newParent newName

/-! ## What names lead to -/

/-- The inode and the flags of an entry. -/
def content (e : ℕ) : Option (Option ℕ × BitVec 32) :=
  (t.entries e).map fun d => (d.inode, d.flags)

/-- The inode and the flags of the entry that a name leads to. -/
def found (p : ℕ) (name : String) : Option (Option ℕ × BitVec 32) :=
  (t.entries p).bind fun d =>
    match d.children.lookup name with
    | some e => t.content e
    | none => (d.inode.bind fun dir => t.fs.lookup dir name).map fun x => (some x, t.flagsOf x)

/-- What the entries and the inodes have in common. -/
structure Sound : Prop where
  fresh : ∀ e, t.nextEntry ≤ e → t.entries e = none
  child : ∀ p d n e, t.entries p = some d → d.children.lookup n = some e →
    ∃ c x, t.entries e = some c ∧ c.inode = some x
  bound : ∀ e d x, t.entries e = some d → d.inode = some x →
    ∃ inode, t.fs.inodes x = some inode ∧
      (inode.isDirectory = true → isDirectoryFlag d.flags = true)
  node : ∀ dir n x, t.fs.lookup dir n = some x → (t.fs.inodes x).isSome = true

/-- What `Link` has to return and to leave: an error for a new name that is taken, every name that
was there, and on success the file under the new name and nothing else changed. -/
structure Links (oldParent : ℕ) (oldName : String) (newParent : ℕ) (newName : String)
    (result : Except Errno ℕ) (t' : EntryCache) : Prop where
  eexist : result = .error .EEXIST ↔ (t.found newParent newName).isSome = true
  kept : ∀ p n, (t.entries p).isSome = true → (t.found p n).isSome = true →
    t'.found p n = t.found p n
  linked : ∀ e, result = .ok e → ∃ x, (t.found oldParent oldName).map Prod.fst = some (some x) ∧
    (t'.found newParent newName).map Prod.fst = some (some x)
  others : ∀ e, result = .ok e → ∀ p n, (t.entries p).isSome = true →
    (p, n) ≠ (newParent, newName) → t'.found p n = t.found p n

/-- `Link` returns and does what it has to. -/
def LinkLaw (oldParent : ℕ) (oldName : String) (newParent : ℕ) (newName : String) : Prop :=
  ∃ result t', t.link oldParent oldName newParent newName = some (result, t') ∧
    t.Links oldParent oldName newParent newName result t'

/-- The old name leads to something that is not flagged as a directory. -/
def NamesFile (p : ℕ) (name : String) : Prop :=
  ∃ c, t.found p name = some c ∧ isDirectoryFlag c.2 = false

/-- The new name is taken if and only if the old name can be linked and is taken in the new parent,
too. -/
def LinkMeets (oldParent : ℕ) (oldName : String) (newParent : ℕ) (newName : String) : Prop :=
  (t.found newParent newName).isSome = true ↔
    t.NamesFile oldParent oldName ∧ (t.found newParent oldName).isSome = true

variable {t}

theorem lt_nextEntry (ht : t.Sound) {e : ℕ} {d : DirectoryEntry} (h : t.entries e = some d) :
    e < t.nextEntry := by
  by_contra hge
  rw [ht.fresh e (by omega)] at h
  cases h

section Adopt

variable {p : ℕ} {d : DirectoryEntry} (name : String) (x : ℕ)

theorem entries_adopt_self : (t.adopt p d name x).entries p =
    some { d with children := d.children.insert name t.nextEntry } :=
  Function.update_self ..

theorem entries_adopt_new (hp : p ≠ t.nextEntry) : (t.adopt p d name x).entries t.nextEntry =
    some ⟨name, t.flagsOf x, some x, some p, ∅⟩ :=
  (Function.update_of_ne hp.symm ..).trans (Function.update_self ..)

theorem entries_adopt_of_ne {e : ℕ} (hp : e ≠ p) (hnew : e ≠ t.nextEntry) :
    (t.adopt p d name x).entries e = t.entries e :=
  (Function.update_of_ne hp ..).trans (Function.update_of_ne hnew ..)

/-- The entries that were there keep their inodes and flags. -/
theorem content_adopt (hd : t.entries p = some d) {e : ℕ} (hnew : e ≠ t.nextEntry) :
    (t.adopt p d name x).content e = t.content e := by
  by_cases hp : e = p
  · rw [content, content, hp, entries_adopt_self, hd]
    rfl
  · rw [content, content, entries_adopt_of_ne name x hp hnew]

/-- The new child is found, and all else is found as before. -/
theorem found_adopt (ht : t.Sound) (hd : t.entries p = some d) {q : ℕ}
    (hq : (t.entries q).isSome = true) (n : String) :
    (t.adopt p d name x).found q n =
      if q = p ∧ n = name then some (some x, t.flagsOf x) else t.found q n := by
  have hnew : p ≠ t.nextEntry := (lt_nextEntry ht hd).ne
  by_cases hp : q = p
  · subst hp
    rw [found, entries_adopt_self, Option.bind_some]
    by_cases hn : n = name
    · rw [if_pos ⟨rfl, hn⟩, hn]
      simp only [AList.lookup_insert, content, entries_adopt_new name x hnew, Option.map_some]
    · rw [if_neg fun h => hn h.2, found, hd, Option.bind_some]
      simp only [AList.lookup_insert_ne hn]
      cases hchild : d.children.lookup n with
      | none => rfl
      | some e =>
        obtain ⟨c, y, hc, -⟩ := ht.child q d n e hd hchild
        exact content_adopt name x hd (lt_nextEntry ht hc).ne
  · obtain ⟨dq, hdq⟩ := Option.isSome_iff_exists.mp hq
    rw [if_neg fun h => hp h.1, found, found,
      entries_adopt_of_ne name x hp (lt_nextEntry ht hdq).ne, hdq, Option.bind_some,
      Option.bind_some]
    cases hchild : dq.children.lookup n with
    | none => rfl
    | some e =>
      obtain ⟨c, y, hc, -⟩ := ht.child q dq n e hdq hchild
      exact content_adopt name x hd (lt_nextEntry ht hc).ne

theorem isDirectoryFlag_flagsOf {inode : SynthFsINode} (hx : t.fs.inodes x = some inode)
    (hdir : inode.isDirectory = true) : isDirectoryFlag (t.flagsOf x) = true := by
  have hmode : inode.mode.isDirectory = true := hdir
  rw [flagsOf, hx]
  simp only [Option.elim_some, isDirectoryFlag, bindFlags, hmode, if_true]
  have hbit : ∀ a b c : BitVec 32,
      (eDirectory ||| a ||| b ||| c) &&& eDirectory = eDirectory := by
    intro a b c
    ext i hi
    simp only [BitVec.getElem_and, BitVec.getElem_or]
    cases eDirectory[i] <;> simp
  rw [hbit]
  decide

theorem sound_adopt (ht : t.Sound) (hd : t.entries p = some d)
    (hx : (t.fs.inodes x).isSome = true) : (t.adopt p d name x).Sound := by
  have hlt := lt_nextEntry ht hd
  have hkeep : ∀ {e c}, t.entries e = some c → ∃ c', (t.adopt p d name x).entries e = some c' ∧
      c'.inode = c.inode := by
    intro e c hc
    have hcontent := content_adopt name x hd (lt_nextEntry ht hc).ne
    rw [content, content, hc, Option.map_some, Option.map_eq_some_iff] at hcontent
    obtain ⟨c', hc', heq⟩ := hcontent
    exact ⟨c', hc', (Prod.mk.inj heq).1⟩
  refine ⟨fun e he => ?_, fun q c n e hq hchild => ?_, fun e c y he hy => ?_, ht.node⟩
  · have hge : t.nextEntry + 1 ≤ e := he
    rw [entries_adopt_of_ne name x (by omega) (by omega), ht.fresh e (by omega)]
  · -- a child is the new entry or was one before
    by_cases hnew : e = t.nextEntry
    · rw [hnew]
      exact ⟨_, x, entries_adopt_new name x hlt.ne, rfl⟩
    · have hold : ∃ dq, t.entries q = some dq ∧ dq.children.lookup n = some e := by
        by_cases hqp : q = p
        · subst hqp
          rw [entries_adopt_self, Option.some.injEq] at hq
          subst hq
          refine ⟨d, hd, ?_⟩
          by_cases hn : n = name
          · rw [hn, AList.lookup_insert, Option.some.injEq] at hchild
            exact absurd hchild.symm hnew
          · rwa [AList.lookup_insert_ne hn] at hchild
        · by_cases hqnew : q = t.nextEntry
          · rw [hqnew, entries_adopt_new name x hlt.ne, Option.some.injEq] at hq
            rw [← hq] at hchild
            cases hchild
          · rw [entries_adopt_of_ne name x hqp hqnew] at hq
            exact ⟨c, hq, hchild⟩
      obtain ⟨dq, hdq, hlookup⟩ := hold
      obtain ⟨c, y, hc, hy⟩ := ht.child q dq n e hdq hlookup
      obtain ⟨c', hc', hinode⟩ := hkeep hc
      exact ⟨c', y, hc', hinode.trans hy⟩
  · by_cases hnew : e = t.nextEntry
    · rw [hnew, entries_adopt_new name x hlt.ne, Option.some.injEq] at he
      rw [← he, Option.some.injEq] at hy
      obtain ⟨inode, hinode⟩ := Option.isSome_iff_exists.mp hx
      refine ⟨inode, hy ▸ hinode, fun hdir => ?_⟩
      rw [← he]
      exact isDirectoryFlag_flagsOf x hinode hdir
    · by_cases hp : e = p
      · subst hp
        rw [entries_adopt_self, Option.some.injEq] at he
        rw [← he] at hy ⊢
        exact ht.bound e d y hd hy
      · rw [entries_adopt_of_ne name x hp hnew] at he
        exact ht.bound e c y he hy

end Adopt

section SameNames

/-- Two file systems have inodes with the same modes and children. -/
def SameNames (fs fs' : SynthFs) : Prop :=
  ∀ x, (fs'.inodes x).map (fun i => (i.mode, i.children)) =
    (fs.inodes x).map fun i => (i.mode, i.children)

theorem sameNames_modify (fs : SynthFs) (y : ℕ) (f : SynthFsINode → SynthFsINode)
    (hf : ∀ i, (f i).mode = i.mode ∧ (f i).children = i.children) :
    SameNames fs (fs.modify y f) := by
  intro x
  by_cases hx : x = y
  · subst hx
    rw [SynthFs.inodes_modify_self, Option.map_map]
    congr 1
    funext i
    simp [hf]
  · rw [SynthFs.inodes_modify_of_ne _ hx]

variable {fs' : SynthFs} (hsame : SameNames t.fs fs')
include hsame

theorem lookup_of_sameNames (dir : ℕ) (n : String) : fs'.lookup dir n = t.fs.lookup dir n := by
  have h := hsame dir
  rw [SynthFs.lookup, SynthFs.lookup]
  cases hdir : t.fs.inodes dir with
  | none =>
    rw [hdir, Option.map_none, Option.map_eq_none_iff] at h
    rw [h]
  | some inode =>
    rw [hdir, Option.map_some, Option.map_eq_some_iff] at h
    obtain ⟨i, hi, heq⟩ := h
    rw [hi, Option.bind_some, Option.bind_some, (Prod.mk.inj heq).2]

theorem flagsOf_of_sameNames (x : ℕ) :
    { t with fs := fs' : EntryCache }.flagsOf x = t.flagsOf x := by
  have h := hsame x
  rw [flagsOf, flagsOf]
  cases hx : t.fs.inodes x with
  | none =>
    rw [hx, Option.map_none, Option.map_eq_none_iff] at h
    simp only [h, Option.elim_none]
  | some inode =>
    rw [hx, Option.map_some, Option.map_eq_some_iff] at h
    obtain ⟨i, hi, heq⟩ := h
    simp only [hi, Option.elim_some, (Prod.mk.inj heq).1]

theorem found_of_sameNames (p : ℕ) (n : String) :
    { t with fs := fs' : EntryCache }.found p n = t.found p n := by
  unfold found
  congr 1
  funext d
  cases d.children.lookup n with
  | some e => rfl
  | none => simp only [lookup_of_sameNames hsame, flagsOf_of_sameNames hsame]

theorem sound_of_sameNames (ht : t.Sound) : { t with fs := fs' : EntryCache }.Sound := by
  refine ⟨ht.fresh, ht.child, fun e d x he hx => ?_, fun dir n x hx => ?_⟩
  · obtain ⟨inode, hinode, hdir⟩ := ht.bound e d x he hx
    have h := hsame x
    rw [hinode, Option.map_some, Option.map_eq_some_iff] at h
    obtain ⟨i, hi, heq⟩ := h
    refine ⟨i, hi, fun hi' => hdir ?_⟩
    rwa [SynthFsINode.isDirectory, ← (Prod.mk.inj heq).1]
  · have hnode := ht.node dir n x ((lookup_of_sameNames hsame dir n).symm.trans hx)
    have h := congrArg Option.isSome (hsame x)
    simpa [hnode] using h

end SameNames

/-! ## Looking up -/

/-- An entry that is found is bound to an inode, and flagged as a directory if that is one. -/
theorem exists_inode_of_found (ht : t.Sound) {p : ℕ} {n : String} {c : Option ℕ × BitVec 32}
    (h : t.found p n = some c) : ∃ x inode, c.1 = some x ∧ t.fs.inodes x = some inode ∧
      (inode.isDirectory = true → isDirectoryFlag c.2 = true) := by
  rw [found, Option.bind_eq_some_iff] at h
  obtain ⟨d, hd, hc⟩ := h
  cases hchild : d.children.lookup n with
  | some e =>
    obtain ⟨ce, x, hce, hx⟩ := ht.child p d n e hd hchild
    obtain ⟨inode, hinode, hdir⟩ := ht.bound e ce x hce hx
    simp only [hchild, content, hce, Option.map_some, Option.some.injEq] at hc
    subst hc
    exact ⟨x, inode, hx, hinode, hdir⟩
  | none =>
    simp only [hchild, Option.map_eq_some_iff] at hc
    obtain ⟨x, hx, rfl⟩ := hc
    obtain ⟨dir, -, hlookup⟩ := Option.bind_eq_some_iff.mp hx
    obtain ⟨inode, hinode⟩ := Option.isSome_iff_exists.mp (ht.node dir n x hlookup)
    exact ⟨x, inode, rfl, hinode, isDirectoryFlag_flagsOf x hinode⟩

/-- What `Lookup` does: it returns the entry that is found, and changes nothing that is found. -/
structure LooksUp (t : EntryCache) (p : ℕ) (name : String) (r : Option ℕ × EntryCache) : Prop where
  sound : r.2.Sound
  content_result : r.1.bind r.2.content = t.found p name
  isSome_result : r.1.isSome = (t.found p name).isSome
  found : ∀ q n, (t.entries q).isSome = true → r.2.found q n = t.found q n
  content : ∀ e c, t.content e = some c → r.2.content e = some c

theorem LooksUp.isSome_entries {p q : ℕ} {name : String} {r : Option ℕ × EntryCache}
    (h : t.LooksUp p name r) (hq : (t.entries q).isSome = true) :
    (r.2.entries q).isSome = true := by
  obtain ⟨d, hd⟩ := Option.isSome_iff_exists.mp hq
  obtain ⟨e, he, -⟩ := Option.map_eq_some_iff.mp
    (h.content q (d.inode, d.flags) (by rw [EntryCache.content, hd]; rfl))
  rw [he]
  rfl

theorem lookup_looksUp (ht : t.Sound) {p : ℕ} (hp : (t.entries p).isSome = true) (name : String) :
    t.LooksUp p name (t.lookup p name) := by
  obtain ⟨d, hd⟩ := Option.isSome_iff_exists.mp hp
  cases hchild : d.children.lookup name with
  | some e =>
    have hlookup : t.lookup p name = (some e, t) := by rw [lookup, hd]; simp only [hchild]
    have hfound : t.found p name = t.content e := by
      rw [EntryCache.found, hd, Option.bind_some]
      simp only [hchild]
    obtain ⟨c, x, hc, -⟩ := ht.child p d name e hd hchild
    rw [hlookup]
    exact ⟨ht, hfound.symm, by simp [hfound, EntryCache.content, hc], fun _ _ _ => rfl,
      fun _ _ h => h⟩
  | none =>
    have hfound : t.found p name =
        (d.inode.bind fun dir => t.fs.lookup dir name).map fun x => (some x, t.flagsOf x) := by
      rw [EntryCache.found, hd, Option.bind_some]
      simp only [hchild]
    cases hx : d.inode.bind fun dir => t.fs.lookup dir name with
    | none =>
      have hlookup : t.lookup p name = (none, t) := by rw [lookup, hd]; simp only [hchild, hx]
      rw [hx, Option.map_none] at hfound
      rw [hlookup]
      exact ⟨ht, hfound.symm, by simp [hfound], fun _ _ _ => rfl, fun _ _ h => h⟩
    | some x =>
      have hlookup : t.lookup p name = (some t.nextEntry, t.adopt p d name x) := by
        rw [lookup, hd]
        simp only [hchild, hx]
      rw [hx, Option.map_some] at hfound
      obtain ⟨dir, -, hnode⟩ := Option.bind_eq_some_iff.mp hx
      rw [hlookup]
      refine ⟨sound_adopt name x ht hd (ht.node dir name x hnode), ?_, by simp [hfound],
        fun q n hq => ?_, fun e c hc => ?_⟩
      · rw [Option.bind_some, hfound, EntryCache.content,
          entries_adopt_new name x (lt_nextEntry ht hd).ne, Option.map_some]
      · rw [found_adopt name x ht hd hq]
        split
        · rename_i heq
          rw [heq.1, heq.2, hfound]
        · rfl
      · obtain ⟨ce, hce, -⟩ := Option.map_eq_some_iff.mp hc
        rw [content_adopt name x hd (lt_nextEntry ht hce).ne, hc]

/-! ## Linking -/

/-- `SynthFsINode::Link` only changes a size and a count of links. -/
theorem sameNames_link (fs : SynthFs) (dir x : ℕ) :
    SameNames fs ((fs.growSize dir).incLinkCount x) := by
  intro y
  have hgrow := sameNames_modify fs dir
    (fun inode => { inode with size := inode.size + SynthFsINode.directoryEntrySize })
    (fun _ => ⟨rfl, rfl⟩) y
  have hcount := sameNames_modify (fs.growSize dir) x
    (fun inode => { inode with linkCount := inode.linkCount + 1 }) (fun _ => ⟨rfl, rfl⟩) y
  exact hcount.trans hgrow

/-- The last part of `Link` succeeds for a file, and all but the new name leads to what it did. -/
theorem linkEntry_of_file (ht : t.Sound) {newParent dir x : ℕ} {d : DirectoryEntry}
    (hd : t.entries newParent = some d) (hdir : d.inode = some dir) {oldEntry : ℕ}
    {flags : BitVec 32} (hold : t.content oldEntry = some (some x, flags)) {inode : SynthFsINode}
    (hx : t.fs.inodes x = some inode) (hfile : inode.isDirectory = false) (newName : String) :
    ∃ e t' newFlags, t.linkEntry oldEntry newParent newName = some (.ok e, t') ∧
      ∀ p n, (t.entries p).isSome = true → t'.found p n =
        if p = newParent ∧ n = newName then some (some x, newFlags) else t.found p n := by
  obtain ⟨c, hc, hinode⟩ := Option.map_eq_some_iff.mp hold
  have hlink : t.fs.link dir x = some (.ok x, (t.fs.growSize dir).incLinkCount x) := by
    simp [SynthFs.link, hx, hfile]
  have hentry : t.linkEntry oldEntry newParent newName = some (.ok t.nextEntry,
      { t with fs := (t.fs.growSize dir).incLinkCount x }.adopt newParent d newName x) := by
    rw [linkEntry, hd, Option.bind_some, hdir, Option.bind_some, hc, Option.bind_some,
      (Prod.mk.inj hinode).1, Option.bind_some, hlink]
    rfl
  have hsame := sameNames_link t.fs dir x
  refine ⟨_, _, t.flagsOf x, hentry, fun p n hp => ?_⟩
  rw [found_adopt newName x (sound_of_sameNames hsame ht) hd hp, found_of_sameNames hsame,
    flagsOf_of_sameNames hsame]

/-- How `Link` ends: the names it asks for decide. -/
theorem link_cases (ht : t.Sound) {oldParent newParent dir : ℕ} {d : DirectoryEntry}
    (hold : (t.entries oldParent).isSome = true) (hd : t.entries newParent = some d)
    (hdir : d.inode = some dir) (oldName newName : String) :
    ∃ result t', t.link oldParent oldName newParent newName = some (result, t') ∧
      ((¬t.NamesFile oldParent oldName ∧ (result = .error .ENOENT ∨ result = .error .EPERM) ∧
          ∀ p n, (t.entries p).isSome = true → t'.found p n = t.found p n) ∨
        (t.NamesFile oldParent oldName ∧ (t.found newParent oldName).isSome = true ∧
          result = .error .EEXIST ∧
          ∀ p n, (t.entries p).isSome = true → t'.found p n = t.found p n) ∨
        (t.NamesFile oldParent oldName ∧ (t.found newParent oldName).isSome = false ∧
          ∃ e x flags newFlags, result = .ok e ∧
            t.found oldParent oldName = some (some x, flags) ∧
            ∀ p n, (t.entries p).isSome = true → t'.found p n =
              if p = newParent ∧ n = newName then some (some x, newFlags) else t.found p n)) := by
  have h₁ := lookup_looksUp ht hold oldName
  have hresult := h₁.content_result
  rw [link]
  rcases hr : t.lookup oldParent oldName with ⟨_ | oldEntry, t₁⟩
  · rw [hr] at h₁ hresult
    have hnone : t.found oldParent oldName = none := by rw [← hresult]; rfl
    refine ⟨_, _, rfl, .inl ⟨?_, .inl rfl, h₁.found⟩⟩
    rintro ⟨c, hc, -⟩
    rw [hnone] at hc
    cases hc
  · rw [hr] at h₁ hresult
    simp only
    rw [Option.bind_some] at hresult
    obtain ⟨c, hc⟩ := Option.isSome_iff_exists.mp (h₁.isSome_result.symm.trans rfl)
    rw [hc] at hresult
    obtain ⟨ce, hce, hcontent⟩ := Option.map_eq_some_iff.mp hresult
    have hflag : ((t₁.entries oldEntry).any fun old => isDirectoryFlag old.flags)
        = isDirectoryFlag c.2 := by
      rw [hce, ← hcontent]
      rfl
    rw [hflag]
    cases hdirectory : isDirectoryFlag c.2 with
    | true =>
      refine ⟨_, _, rfl, .inl ⟨?_, .inr rfl, h₁.found⟩⟩
      rintro ⟨c', hc', hfile⟩
      rw [hc, Option.some.injEq] at hc'
      subst hc'
      rw [hdirectory] at hfile
      cases hfile
    | false =>
      have hnames : t.NamesFile oldParent oldName := ⟨c, hc, hdirectory⟩
      have hnew : (t.entries newParent).isSome = true := by rw [hd]; rfl
      -- the new parent is still there, with its inode
      have hparent := h₁.content newParent (d.inode, d.flags) (by rw [content, hd]; rfl)
      obtain ⟨d₁, hd₁, heq₁⟩ := Option.map_eq_some_iff.mp hparent
      have h₂ := lookup_looksUp h₁.sound (p := newParent) (by rw [hd₁]; rfl) oldName
      have hfound₂ : ∀ p n, (t.entries p).isSome = true →
          (t₁.lookup newParent oldName).2.found p n = t.found p n := by
        intro p n hp
        rw [h₂.found p n (h₁.isSome_entries hp), h₁.found p n hp]
      have hisSome := h₂.isSome_result
      rw [h₁.found newParent oldName hnew] at hisSome
      simp only [Bool.false_eq_true, if_false]
      rcases hr₂ : t₁.lookup newParent oldName with ⟨_ | taken, t₂⟩
      · rw [hr₂] at h₂ hisSome hfound₂
        obtain ⟨d₂, hd₂, heq₂⟩ := Option.map_eq_some_iff.mp (h₂.content newParent _ hparent)
        obtain ⟨x, inode, hx, hinode, himp⟩ := exists_inode_of_found h₁.sound
          (p := oldParent) (n := oldName) ((h₁.found oldParent oldName hold).trans hc)
        have hfs : t₂.fs.inodes x = some inode := by
          have hsame : (t₁.lookup newParent oldName).2.fs = t₁.fs := by
            rw [lookup]
            split
            · rfl
            · split
              · rfl
              · split <;> rfl
          rw [hr₂] at hsame
          rw [hsame, hinode]
        have hfile : inode.isDirectory = false := by
          cases hi : inode.isDirectory with
          | false => rfl
          | true =>
            rw [himp hi] at hdirectory
            cases hdirectory
        have hcontent₂ : t₂.content oldEntry = some (some x, c.2) :=
          h₂.content oldEntry _ (by rw [hresult, ← hx])
        obtain ⟨e, t₃, newFlags, hlink, hfound₃⟩ := linkEntry_of_file h₂.sound hd₂
          ((Prod.mk.inj heq₂).1.trans hdir) hcontent₂ hfs hfile newName
        refine ⟨_, _, hlink, .inr (.inr ⟨hnames, hisSome.symm, e, x, c.2, newFlags, rfl,
          by rw [hc, ← hx], fun p n hp => ?_⟩)⟩
        rw [hfound₃ p n (h₂.isSome_entries (h₁.isSome_entries hp)), hfound₂ p n hp]
      · rw [hr₂] at h₂ hisSome hfound₂
        exact ⟨_, _, rfl, .inr (.inl ⟨hnames, hisSome.symm, rfl, hfound₂⟩)⟩

theorem links_refused {oldParent newParent : ℕ} {oldName newName : String}
    {result : Except Errno ℕ} {t' : EntryCache} (hfail : ∀ e, result ≠ .ok e)
    (hexist : result = .error .EEXIST ↔ (t.found newParent newName).isSome = true)
    (hkept : ∀ p n, (t.entries p).isSome = true → t'.found p n = t.found p n) :
    t.Links oldParent oldName newParent newName result t' where
  eexist := hexist
  kept p n hp _ := hkept p n hp
  linked e he := absurd he (hfail e)
  others e he := absurd he (hfail e)

/-- `Link` does what it has to exactly when the new name is taken if and only if the old name can
be linked and is taken in the new parent. -/
theorem linkLaw_iff (ht : t.Sound) {oldParent newParent dir : ℕ} {d : DirectoryEntry}
    (hold : (t.entries oldParent).isSome = true) (hd : t.entries newParent = some d)
    (hdir : d.inode = some dir) (oldName newName : String) :
    t.LinkLaw oldParent oldName newParent newName ↔
      t.LinkMeets oldParent oldName newParent newName := by
  obtain ⟨result, t', hlink, hcases⟩ := link_cases ht hold hd hdir oldName newName
  have hlaw : t.LinkLaw oldParent oldName newParent newName ↔
      t.Links oldParent oldName newParent newName result t' := by
    constructor
    · rintro ⟨result₁, t₁, hlink₁, h⟩
      rw [hlink] at hlink₁
      obtain ⟨rfl, rfl⟩ := Prod.mk.inj (Option.some.inj hlink₁)
      exact h
    · exact fun h => ⟨result, t', hlink, h⟩
  rw [hlaw, LinkMeets]
  obtain ⟨hnot, hresult, hkept⟩ | ⟨hnames, htaken, rfl, hkept⟩ |
    ⟨hnames, hfree, e, x, flags, newFlags, rfl, hfound, hafter⟩ := hcases
  · -- the old name cannot be linked
    have hne : result ≠ .error .EEXIST := by rcases hresult with rfl | rfl <;> simp
    have hfail : ∀ e, result ≠ .ok e := by rcases hresult with rfl | rfl <;> simp
    constructor
    · intro h
      exact iff_of_false (fun hsome => hne (h.eexist.mpr hsome)) fun hand => hnot hand.1
    · intro h
      exact links_refused hfail (iff_of_false hne fun hsome => hnot (h.mp hsome).1) hkept
  · -- the old name is taken in the new parent
    constructor
    · exact fun h => iff_of_true (h.eexist.mp rfl) ⟨hnames, htaken⟩
    · intro h
      exact links_refused (by simp) (iff_of_true rfl (h.mpr ⟨hnames, htaken⟩)) hkept
  · constructor
    · intro h
      refine iff_of_false (fun hsome => ?_) fun hand => by simp [hfree] at hand
      have := h.eexist.mpr hsome
      cases this
    · intro h
      have hnone : ¬(t.found newParent newName).isSome = true := by
        intro hsome
        rw [(h.mp hsome).2] at hfree
        cases hfree
      have hothers : ∀ p n, (t.entries p).isSome = true → (p, n) ≠ (newParent, newName) →
          t'.found p n = t.found p n := by
        intro p n hp hne
        rw [hafter p n hp, if_neg fun heq => hne (by rw [heq.1, heq.2])]
      refine ⟨iff_of_false (by simp) hnone, fun p n hp hsome => hothers p n hp ?_,
        fun _ _ => ⟨x, by rw [hfound]; rfl, ?_⟩, fun _ _ => hothers⟩
      · intro heq
        rw [(Prod.mk.inj heq).1, (Prod.mk.inj heq).2] at hsome
        exact hnone hsome
      · rw [hafter newParent newName (by rw [hd]; rfl), if_pos ⟨rfl, rfl⟩]
        rfl

end EntryCache

/-- A root directory with a file `a` and a directory `d`, which is empty. The entry of `d` is
cached. -/
def fileBesideDirectory : EntryCache where
  entries := fun
    | 0 => some ⟨"/", eDirectory, some 0, some 0, (∅ : AList fun _ : String => ℕ).insert "d" 1⟩
    | 1 => some ⟨"d", eDirectory, some 2, some 0, ∅⟩
    | _ => none
  nextEntry := 2
  fs :=
    { inodes := fun
        | 0 => some { SynthFsINode.create "/" Mode.ifdir with
            children := ((∅ : AList fun _ : String => ℕ).insert "a" 1).insert "d" 2 }
        | 1 => some (.create "a" Mode.ifreg)
        | 2 => some (.create "d" Mode.ifdir)
        | _ => none
      nextINodeIndex := 3
      maxINodeCount := 8
      freeINodeCount := 5 }

namespace EntryCache

theorem sound_fileBesideDirectory : fileBesideDirectory.Sound where
  fresh e he := by
    have hle : 2 ≤ e := he
    obtain ⟨n, rfl⟩ := Nat.exists_eq_add_of_le' hle
    rfl
  child p d n e hp hchild := by
    rcases p with _ | _ | p
    · obtain rfl := Option.some.inj hp
      by_cases hn : n = "d"
      · rw [hn, AList.lookup_insert, Option.some.injEq] at hchild
        rw [← hchild]
        exact ⟨_, 2, rfl, rfl⟩
      · rw [AList.lookup_insert_ne hn] at hchild
        cases hchild
    · obtain rfl := Option.some.inj hp
      cases hchild
    · cases hp
  bound e d x he hx := by
    rcases e with _ | _ | e
    · obtain rfl := Option.some.inj he
      obtain rfl := Option.some.inj hx
      exact ⟨_, rfl, fun _ => by decide⟩
    · obtain rfl := Option.some.inj he
      obtain rfl := Option.some.inj hx
      exact ⟨_, rfl, fun _ => by decide⟩
    · cases he
  node dir n x h := by
    rcases dir with _ | _ | _ | dir
    · by_cases hd : n = "d"
      · rw [hd] at h
        obtain rfl : 2 = x := Option.some.inj h
        rfl
      · by_cases ha : n = "a"
        · rw [ha] at h
          obtain rfl : 1 = x := Option.some.inj h
          rfl
        · have hnone : fileBesideDirectory.fs.lookup 0 n = none := by
            change AList.lookup n (((∅ : AList fun _ : String => ℕ).insert "a" 1).insert "d" 2)
              = none
            rw [AList.lookup_insert_ne hd, AList.lookup_insert_ne ha]
            rfl
          rw [hnone] at h
          cases h
    · cases h
    · cases h
    · cases h

/-- The file gets a name in the other directory. -/
theorem linkLaw_otherDirectory : fileBesideDirectory.LinkLaw 0 "a" 1 "b" := by
  have hold : (fileBesideDirectory.entries 0).isSome = true := rfl
  have hnew : fileBesideDirectory.entries 1 = some ⟨"d", eDirectory, some 2, some 0, ∅⟩ := rfl
  apply (linkLaw_iff sound_fileBesideDirectory hold hnew rfl "a" "b").mpr
  refine iff_of_false (by decide) fun h => ?_
  exact absurd h.2 (by decide)

/-- In its own directory the file does not get a second name. -/
theorem not_linkLaw_sameDirectory : ¬fileBesideDirectory.LinkLaw 0 "a" 0 "b" := by
  rintro ⟨result, t', hlink, h⟩
  have hresult : some result = some (.error .EEXIST) :=
    (congrArg (Option.map Prod.fst) hlink).symm.trans rfl
  have hfound := h.eexist.mp (Option.some.inj hresult)
  revert hfound
  decide

end EntryCache

end Cryptix.VFS
