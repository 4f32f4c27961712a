import Mathlib.Data.List.Nodup
import Cryptix.Firmware.AmlBlock

/-!
# The work list of an AML table

The blocks of `ExecuteTable` are parsed until the work list is empty. The invariant says which
definitions have their nodes and which are in the blocks that are still on the list. What the table
must be like for every definition in it to get a node, whatever is in the memory of the keys, is
`executes_iff`.
-/

namespace Cryptix.ACPI

/-! ## Nodes and their places -/

/-- Nodes that are put below one another, from the root on, with the place and the type of each. -/
inductive Grown : List NameSpace → List (Path × ObjectType) → Prop
  | root : Grown [⟨[0x5c], [], .eUndefined, none⟩] [([], .eUndefined)]
  | add {nodes : List NameSpace} {labels : List (Path × ObjectType)} {parent : ℕ}
    {label : Path × ObjectType} {node : NameSpace} (h : Grown nodes labels)
    (hlabel : labels[parent]? = some label) (hchildren : node.children = []) :
    Grown (addNode nodes parent node) (labels ++ [(label.1 ++ [node.name], node.type)])

namespace Grown

variable {nodes : List NameSpace} {labels : List (Path × ObjectType)} {k c : ℕ} {p : Path}
  {t : ObjectType}

theorem length_eq (h : Grown nodes labels) : labels.length = nodes.length := by
  induction h with
  | root => rfl
  | add h hlabel hchildren ih => rw [length_addNode, List.length_append, ih]; rfl

theorem lt_of_getElem? (h : Grown nodes labels) {label : Path × ObjectType}
    (hlabel : labels[k]? = some label) : k < nodes.length :=
  h.length_eq ▸ (List.getElem?_eq_some_iff.mp hlabel).1

theorem head_eq (h : Grown nodes labels) : ∃ tail, labels = ([], .eUndefined) :: tail := by
  induction h with
  | root => exact ⟨[], rfl⟩
  | add h hlabel hchildren ih =>
    obtain ⟨tail, rfl⟩ := ih
    exact ⟨_, List.cons_append⟩

theorem lt_of_mem (h : Grown nodes labels) (hc : c ∈ childrenOf nodes k) : c < nodes.length := by
  induction h generalizing k with
  | root =>
    cases k with
    | zero => exact absurd hc List.not_mem_nil
    | succ k => exact absurd hc List.not_mem_nil
  | add h hlabel hchildren ih =>
    rw [childrenOf_addNode (h.lt_of_getElem? hlabel) hchildren] at hc
    rw [length_addNode]
    split at hc
    · rcases List.mem_append.mp hc with hc | hc
      · exact Nat.lt_succ_of_lt (ih hc)
      · exact List.mem_singleton.mp hc ▸ Nat.lt_succ_self _
    · exact Nat.lt_succ_of_lt (ih hc)

theorem type_eq (h : Grown nodes labels) (hlabel : labels[k]? = some (p, t)) :
    nodes[k]?.map NameSpace.type = some t := by
  induction h with
  | root =>
    cases k with
    | zero => exact congrArg (·.map Prod.snd) hlabel
    | succ k => exact absurd hlabel (by simp)
  | @add nodes labels parent label node h hparent hchildren ih =>
    by_cases hk : k < labels.length
    · rw [List.getElem?_append_left hk] at hlabel
      rw [getElem?_addNode_of_lt (h.length_eq ▸ hk), Option.map_map, ← ih hlabel]
      congr 1
      funext ns
      rw [Function.comp_apply]
      split <;> rfl
    · have hlt := (List.getElem?_eq_some_iff.mp hlabel).1
      rw [List.length_append, List.length_singleton] at hlt
      obtain rfl : k = labels.length := by omega
      rw [List.getElem?_concat_length] at hlabel
      rw [h.length_eq, getElem?_addNode_self]
      exact congrArg (·.map Prod.snd) hlabel

end Grown

/-- A new node has a place below its parent, and the others have those that they had. -/
theorem at_addNode_iff {nodes : List NameSpace} {parent k : ℕ} {node : NameSpace} {p : Path}
    (hparent : parent < nodes.length) (hchildren : node.children = [])
    (hlt : ∀ k c, c ∈ childrenOf nodes k → c < nodes.length) :
    At (addNode nodes parent node) p k ↔
      At nodes p k ∨ k = nodes.length ∧ ∃ q, p = q ++ [node.name] ∧ At nodes q parent := by
  have hold : ∀ {p k}, At nodes p k → k < nodes.length := by
    rintro p k (_ | ⟨-, hmem, -⟩)
    · exact Nat.zero_lt_of_lt hparent
    · exact hlt _ _ hmem
  have hchild : ∀ {k c}, c ∈ childrenOf (addNode nodes parent node) k ↔
      c ∈ childrenOf nodes k ∨ k = parent ∧ c = nodes.length := by
    intro k c
    rw [childrenOf_addNode hparent hchildren]
    by_cases hk : k = parent <;> simp [hk]
  have hname : ∀ {c ns}, (addNode nodes parent node)[c]? = some ns → c < nodes.length →
      ∃ ns', nodes[c]? = some ns' ∧ ns'.name = ns.name := by
    intro c ns hns hc
    rw [getElem?_addNode_of_lt hc] at hns
    obtain ⟨ns', hns', rfl⟩ := Option.map_eq_some_iff.mp hns
    exact ⟨ns', hns', by split <;> rfl⟩
  constructor
  · intro h
    induction h with
    | root => exact Or.inl .root
    | @child p k c ns hat hmem hns ih =>
      rcases hchild.mp hmem with hmem | ⟨rfl, rfl⟩
      · -- a node with a child is not the new one
        obtain ⟨ns', hns', hsame⟩ := hname hns (hlt _ _ hmem)
        refine Or.inl (hsame ▸ .child (ih.resolve_right ?_) hmem hns')
        rintro ⟨rfl, -⟩
        rw [childrenOf_of_le (Nat.le_refl _)] at hmem
        exact absurd hmem List.not_mem_nil
      · rw [getElem?_addNode_self] at hns
        obtain rfl := Option.some.inj hns
        exact Or.inr ⟨rfl, p, rfl, ih.resolve_right fun heq => hparent.ne heq.1⟩
  · have hup : ∀ {p k}, At nodes p k → At (addNode nodes parent node) p k := by
      intro p k h
      induction h with
      | root => exact .root
      | @child p k c ns hat hmem hns ih =>
        have hns' : (addNode nodes parent node)[c]? = _ := getElem?_addNode_of_lt (hlt _ _ hmem)
        rw [hns, Option.map_some] at hns'
        have hat' := At.child ih (hchild.mpr (Or.inl hmem)) hns'
        split at hat' <;> exact hat'
    rintro (h | ⟨rfl, q, rfl, hat⟩)
    · exact hup h
    · exact .child (hup hat) (hchild.mpr (Or.inr ⟨rfl, rfl⟩)) getElem?_addNode_self

/-- Each node is where its label says, and nowhere else. -/
theorem Grown.at_iff {nodes : List NameSpace} {labels : List (Path × ObjectType)}
    (h : Grown nodes labels) {p : Path} {k : ℕ} : At nodes p k ↔ ∃ t, labels[k]? = some (p, t) := by
  induction h generalizing p k with
  | root =>
    constructor
    · rintro (_ | @⟨_, k, _, _, -, hmem, -⟩)
      · exact ⟨_, rfl⟩
      · cases k <;> exact absurd hmem List.not_mem_nil
    · rintro ⟨t, hlabel⟩
      cases k with
      | zero => exact (Prod.mk.inj (Option.some.inj hlabel)).1 ▸ .root
      | succ k => exact absurd hlabel (by simp)
  | @add nodes labels parent label node h hparent hchildren ih =>
    rw [at_addNode_iff (h.lt_of_getElem? hparent) hchildren fun k c => h.lt_of_mem, ih,
      ← h.length_eq]
    rcases Nat.lt_trichotomy k labels.length with hk | rfl | hk
    · rw [List.getElem?_append_left hk]
      exact or_iff_left fun heq => hk.ne heq.1
    · rw [List.getElem?_concat_length, List.getElem?_eq_none (Nat.le_refl _)]
      constructor
      · rintro (⟨t, ht⟩ | ⟨-, q, rfl, hat⟩)
        · exact absurd ht.symm (Option.some_ne_none _)
        · obtain ⟨t, ht⟩ := ih.mp hat
          obtain rfl := Option.some.inj (hparent.symm.trans ht)
          exact ⟨_, rfl⟩
      · rintro ⟨t, ht⟩
        exact Or.inr ⟨rfl, label.1, (Prod.mk.inj (Option.some.inj ht)).1.symm,
          ih.mpr ⟨label.2, hparent⟩⟩
    · rw [List.getElem?_eq_none hk.le, List.getElem?_eq_none (by rwa [List.length_append])]
      simp [hk.ne']

/-! ## The definitions of a block, one by one -/

theorem defines_ne_nil {defs : List Definition} {p : Path} {t : ObjectType}
    (h : Defines defs p t) : p ≠ [] := by
  cases h <;> exact List.cons_ne_nil _ _

theorem Within.mono {defs defs' : List Definition} (h : ∀ d ∈ defs, d ∈ defs') {d : Definition}
    (hd : Within defs d) : Within defs' d := by
  cases hd with
  | here hmem => exact Within.here (h _ hmem)
  | inside hmem hd => exact Within.inside (h _ hmem) hd

theorem Defines.mono {defs defs' : List Definition} (h : ∀ d ∈ defs, d ∈ defs') {p : Path}
    {t : ObjectType} (hp : Defines defs p t) : Defines defs' p t := by
  cases hp with
  | here hmem => exact Defines.here (h _ hmem)
  | inside hmem hp => exact Defines.inside (h _ hmem) hp

mutual

/-- What definitions below a place define, one entry for each of them. -/
def Definition.listing (path : Path) : Definition → List (Path × ObjectType)
  | .name label _ => [(path ++ [label.name], .eName)]
  | .package kind _ label body =>
    (path ++ [label.name], kind.type) :: listing (path ++ [label.name]) body
  | .method _ label _ _ => [(path ++ [label.name], .eMethod)]

def listing (path : Path) : List Definition → List (Path × ObjectType)
  | [] => []
  | d :: defs => d.listing path ++ listing path defs

end

theorem listing_eq (path : Path) (defs : List Definition) :
    listing path defs = defs.flatMap (Definition.listing path) := by
  induction defs with
  | nil => rfl
  | cons d defs ih => rw [listing, List.flatMap_cons, ih]

theorem Defines.mem_listing {defs : List Definition} {p : Path} {t : ObjectType}
    (h : Defines defs p t) (path : Path) : (path ++ p, t) ∈ listing path defs := by
  induction h generalizing path with
  | @here defs d hd =>
    rw [listing_eq]
    refine List.mem_flatMap_of_mem hd ?_
    cases d <;> exact List.mem_cons_self
  | @inside defs body kind following label p t hmem h ih =>
    rw [listing_eq]
    refine List.mem_flatMap_of_mem hmem (List.mem_cons_of_mem _ ?_)
    have hp := ih (path ++ [label.name])
    rwa [List.append_assoc] at hp

mutual

theorem Definition.defines_of_mem {p : Path} {t : ObjectType} {path : Path} :
    ∀ d : Definition, (p, t) ∈ d.listing path → ∃ q, p = path ++ q ∧ Defines [d] q t
  | .name label value, h => by
    obtain ⟨rfl, rfl⟩ := Prod.mk.inj (List.mem_singleton.mp h)
    exact ⟨_, rfl, .here List.mem_cons_self⟩
  | .package kind following label body, h => by
    rcases List.mem_cons.mp h with h | h
    · obtain ⟨rfl, rfl⟩ := Prod.mk.inj h
      exact ⟨_, rfl, Defines.here List.mem_cons_self⟩
    · obtain ⟨q, rfl, hq⟩ := defines_of_mem_listing body h
      exact ⟨_, List.append_assoc _ _ _, .inside List.mem_cons_self hq⟩
  | .method following label flags code, h => by
    obtain ⟨rfl, rfl⟩ := Prod.mk.inj (List.mem_singleton.mp h)
    exact ⟨_, rfl, .here List.mem_cons_self⟩

theorem defines_of_mem_listing {p : Path} {t : ObjectType} {path : Path} :
    ∀ defs : List Definition, (p, t) ∈ listing path defs → ∃ q, p = path ++ q ∧ Defines defs q t
  | [], h => absurd h List.not_mem_nil
  | d :: defs, h => by
    rcases List.mem_append.mp h with h | h
    · obtain ⟨q, hp, hq⟩ := Definition.defines_of_mem d h
      exact ⟨q, hp, hq.mono fun d' hd' => List.mem_cons.mpr (Or.inl (List.mem_singleton.mp hd'))⟩
    · obtain ⟨q, hp, hq⟩ := defines_of_mem_listing defs h
      exact ⟨q, hp, hq.mono fun d' hd' => List.mem_cons_of_mem _ hd'⟩

end

theorem mem_listing_iff {top : List Definition} {p : Path} {t : ObjectType} :
    (p, t) ∈ listing [] top ↔ Defines top p t :=
  ⟨fun h => (defines_of_mem_listing top h).elim fun _ hq => hq.1 ▸ hq.2, fun h => h.mem_listing []⟩

/-- The definitions in a package are among all of them. -/
theorem Within.listing_sublist {defs : List Definition} {d : Definition} (h : Within defs d)
    {kind : PackageKind} {following : ℕ} {label : NameString} {body : List Definition}
    (hd : d = .package kind following label body) (path : Path) :
    ∃ p, (listing p body).Sublist (listing path defs) := by
  have hbody : ∀ {kind following label} {body defs : List Definition} (path : Path),
      Definition.package kind following label body ∈ defs →
      (listing (path ++ [label.name]) body).Sublist (listing path defs) := by
    intro kind following label body defs path hmem
    rw [listing_eq path]
    exact (List.sublist_cons_self _ _).trans
      (List.sublist_flatten_of_mem (List.mem_map_of_mem hmem))
  induction h generalizing path with
  | here hmem => exact ⟨_, hbody path (hd ▸ hmem)⟩
  | inside hmem h ih =>
    obtain ⟨p, hp⟩ := ih hd _
    exact ⟨p, hp.trans (hbody path hmem)⟩

/-! ### Places are different -/

theorem Within.trans {defs body : List Definition} {d d' : Definition} {kind : PackageKind}
    {following : ℕ} {label : NameString} (h : Within defs d)
    (hd : d = .package kind following label body) (h' : Within body d') : Within defs d' := by
  induction h with
  | here hmem => exact .inside (hd ▸ hmem) h'
  | inside hmem h ih => exact .inside hmem (ih hd)

theorem Varied.inside {defs body : List Definition} {kind : PackageKind} {following : ℕ}
    {label : NameString} (h : Varied defs) (hd : Within defs (.package kind following label body)) :
    Varied body :=
  ⟨h.2 _ _ _ _ hd, fun _ _ _ _ hbody => h.2 _ _ _ _ (hd.trans rfl hbody)⟩

theorem Varied.mono {defs defs' : List Definition} (h : Varied defs) (hsub : defs'.Sublist defs) :
    Varied defs' :=
  ⟨h.1.sublist (hsub.map _), fun _ _ _ _ hd => h.2 _ _ _ _ (hd.mono fun _ hmem => hsub.subset hmem)⟩

theorem Defines.exists_cons {defs : List Definition} {p : Path} {t : ObjectType}
    (h : Defines defs p t) : ∃ d ∈ defs, ∃ q, p = d.label.name :: q := by
  cases h with
  | here hd => exact ⟨_, hd, [], rfl⟩
  | @inside _ body kind following label q _ hmem h => exact ⟨_, hmem, q, rfl⟩

mutual

theorem Definition.nodup_listing (path : Path) :
    ∀ d : Definition, Varied [d] → ((d.listing path).map Prod.fst).Nodup
  | .name label value, _ => List.nodup_singleton _
  | .package kind following label body, h => by
    refine List.nodup_cons.mpr ⟨fun hmem => ?_, ?_⟩
    · obtain ⟨⟨p, t⟩, hp, hpath⟩ := List.mem_map.mp hmem
      obtain ⟨q, rfl, hq⟩ := defines_of_mem_listing body hp
      exact defines_ne_nil hq (List.append_right_eq_self.mp hpath)
    · exact nodup_listing _ body (h.inside (.here List.mem_cons_self))
  | .method following label flags code, _ => List.nodup_singleton _

/-- Names of different lengths have different places. -/
theorem nodup_listing (path : Path) :
    ∀ defs : List Definition, Varied defs → ((listing path defs).map Prod.fst).Nodup
  | [], _ => List.nodup_nil
  | d :: defs, h => by
    rw [listing, List.map_append]
    refine List.nodup_append'.mpr ⟨d.nodup_listing path (h.mono (by simp)),
      nodup_listing path defs (h.mono (List.sublist_cons_self d defs)), ?_⟩
    intro p hd hdefs
    obtain ⟨⟨p, t⟩, hp, rfl⟩ := List.mem_map.mp hd
    obtain ⟨⟨p', t'⟩, hp', hpath⟩ := List.mem_map.mp hdefs
    obtain ⟨q, rfl, hq⟩ := d.defines_of_mem hp
    obtain ⟨q', rfl, hq'⟩ := defines_of_mem_listing defs hp'
    obtain ⟨d₁, hd₁, r, rfl⟩ := hq.exists_cons
    obtain rfl := List.mem_singleton.mp hd₁
    obtain ⟨d', hd', r', rfl⟩ := hq'.exists_cons
    have hname := (List.cons.inj (List.append_cancel_left hpath)).1
    exact (List.nodup_cons.mp h.1).1 (List.mem_map.mpr ⟨d', hd', congrArg List.length hname⟩)

end

/-- Where all places are different, and names of one length in one place are the same, names have
different lengths. -/
theorem varied_of_nodup {top : List Definition} (hnodup : ((listing [] top).map Prod.fst).Nodup)
    (hsame : ∀ p n n' t t', Defines top (p ++ [n]) t → Defines top (p ++ [n']) t' →
      n.length = n'.length → n = n') : Varied top := by
  have hlengths : ∀ {path : Path} {defs : List Definition},
      (listing path defs).Sublist (listing [] top) → (nameLengths defs).Nodup := by
    intro path defs hsub
    have hown : (defs.map fun d => (path ++ [d.label.name], d.type)).Sublist
        (listing path defs) := by
      rw [listing_eq]
      clear hsub
      induction defs with
      | nil => exact List.Sublist.refl _
      | cons d defs ih =>
        have hd : [(path ++ [d.label.name], d.type)].Sublist (d.listing path) := by
          cases d <;> exact List.singleton_sublist.mpr List.mem_cons_self
        exact hd.append ih
    have hdefines : ∀ d ∈ defs, Defines top (path ++ [d.label.name]) d.type := fun d hd =>
      mem_listing_iff.mp (hsub.subset (hown.subset (List.mem_map_of_mem hd)))
    have hpaths := hnodup.sublist ((hown.trans hsub).map Prod.fst)
    rw [List.map_map] at hpaths
    refine (List.nodup_map_iff_inj_on (hpaths.of_map _)).mpr fun d hd d' hd' heq => ?_
    have hname := hsame _ _ _ _ _ (hdefines d hd) (hdefines d' hd') heq
    exact List.inj_on_of_nodup_map hpaths hd hd' (by simp [hname])
  refine ⟨hlengths (List.Sublist.refl _), fun kind following label body hd => ?_⟩
  obtain ⟨p, hp⟩ := hd.listing_sublist rfl []
  exact hlengths hp

/-! ## The work list -/

/-- The bytes of a block are in the table, and its definitions start in front of its end. -/
structure Spans (data : List UInt8) (w : Pending) : Prop where
  next : w.content.bytes <+: data.drop w.block.start
  le_length : w.block.start ≤ data.length
  end_le : w.block.endOffset ≤ w.block.start + w.content.bytes.length
  all : ∀ body, w.content = .definitions body →
    startingBefore w.block.endOffset w.block.start body = body

/-- Two parts of a table, one behind the other. -/
theorem behind_of_append {a b data : List UInt8} {pos : ℕ} (h : a ++ b <+: data.drop pos)
    (hpos : pos ≤ data.length) :
    b <+: data.drop (pos + a.length) ∧ pos + a.length ≤ data.length := by
  have hlength := h.length_le
  rw [List.length_append, List.length_drop] at hlength
  exact ⟨(ByteStream.isPrefix_of_append h).2, by omega⟩

/-- The inside of a package. -/
theorem spans_of_package (op : List UInt8) {content data : List UInt8} {following pos : ℕ}
    (k : ℕ) (path : Path) (c : Content)
    (h : op ++ packageBytes following (content ++ c.bytes) <+: data.drop pos)
    (hpos : pos ≤ data.length) :
    Spans data ⟨⟨k, pos + (op.length + (following + 1 + content.length)),
      pos + (op ++ packageBytes following (content ++ c.bytes)).length⟩, path, c⟩ := by
  obtain ⟨hpackage, hpos⟩ := behind_of_append h hpos
  obtain ⟨hcontent, hpos⟩ := behind_of_append hpackage hpos
  obtain ⟨hrest, hpos⟩ := behind_of_append hcontent hpos
  rw [length_encodePkgLength] at hrest hpos
  have hstart : pos + op.length + (following + 1) + content.length =
      pos + (op.length + (following + 1 + content.length)) := by omega
  rw [hstart] at hrest hpos
  have hend : pos + (op ++ packageBytes following (content ++ c.bytes)).length =
      pos + (op.length + (following + 1 + content.length)) + c.bytes.length := by
    simp only [packageBytes, List.length_append, length_encodePkgLength]
    omega
  refine ⟨hrest, hpos, hend.le, fun body hbody => startingBefore_eq body ?_⟩
  obtain rfl : c = .definitions body := hbody
  exact hend.ge

/-- The content of a block belongs to the definitions of the table. -/
def Content.Inside (discardMethods : Bool) (top : List Definition) : Content → Prop
  | .definitions body => (∀ d, Within body d → Within top d) ∧ (Varied top → Varied body)
  | .code bytes => discardMethods ∨ ∀ b ∈ bytes, Inert b

/-- What is still to be defined by a block. -/
def Pending.listing (w : Pending) : List (Path × ObjectType) :=
  match w.content with
  | .definitions body => ACPI.listing w.path body
  | .code _ => []

/-- The node of a block is where the block is, and a method where it has code. -/
def Pending.Known (labels : List (Path × ObjectType)) (w : Pending) : Prop :=
  ∃ t, labels[w.block.nameSpace]? = some (w.path, t) ∧
    (t = .eMethod ↔ ∃ bytes, w.content = .code bytes)

/-- Turns that the work list is good for. -/
def turnsFor (pending : List Pending) : ℕ :=
  (pending.map fun w => 1 + w.content.bytes.length).sum

theorem turnsFor_append (l l' : List Pending) :
    turnsFor (l ++ l') = turnsFor l + turnsFor l' := by
  rw [turnsFor, List.map_append, List.sum_append]
  rfl

/-- What a definition puts on the work list. -/
structure Deferred (data : List UInt8) (discardMethods : Bool) (top : List Definition)
    (labels : List (Path × ObjectType)) (w : Pending) : Prop where
  spans : Spans data w
  known : w.Known labels
  inside : w.content.Inside discardMethods top

section Deferred

variable {discardMethods : Bool} {top : List Definition} {data : List UInt8} (path : Path)
  {labels : List (Path × ObjectType)} (k pos : ℕ)

theorem deferred_spec {path : Path} {k pos : ℕ} (d : Definition) (hd : Within top d)
    (hquiet : d.Quiet discardMethods) (h : d.bytes <+: data.drop pos) (hpos : pos ≤ data.length)
    (hlabel : labels[k]? = some (path, d.type)) :
    ∀ w ∈ d.deferred path k pos, Deferred data discardMethods top labels w := by
  cases d with
  | name label value => exact fun w hw => absurd hw List.not_mem_nil
  | package kind following label body =>
    rw [Definition.bytes] at h
    refine List.forall_mem_singleton.mpr ⟨?_, ⟨_, hlabel, ?_⟩,
      fun d' hd' => hd.trans rfl hd', fun hvaried => hvaried.inside hd⟩
    · rw [Definition.bytes]
      exact spans_of_package kind.op k path (.definitions body) h hpos
    · cases kind <;> simp [Definition.type, PackageKind.type]
  | method following label flags code =>
    rw [Definition.bytes] at h
    refine List.forall_mem_singleton.mpr ⟨?_, ⟨_, hlabel, ?_⟩, hquiet⟩
    · rw [Definition.bytes]
      exact spans_of_package [0x14] k path (.code (flags :: code)) h hpos
    · simp [Definition.type]

theorem deferredAll_spec {k pos : ℕ} (defs : List Definition) (hdefs : ∀ d ∈ defs, Within top d)
    (hquiet : ∀ d, Within top d → d.Quiet discardMethods) (h : bytesOf defs <+: data.drop pos)
    (hpos : pos ≤ data.length) (hk : k = labels.length) :
    ∀ w ∈ deferredAll path k pos defs, Deferred data discardMethods top
      (labels ++ defs.map fun d => (path ++ [d.label.name], d.type)) w := by
  induction defs generalizing k pos labels with
  | nil => exact fun w hw => absurd hw List.not_mem_nil
  | cons d defs ih =>
    obtain ⟨hd, hdefs⟩ := List.forall_mem_cons.mp hdefs
    obtain ⟨hrest, hpos'⟩ := behind_of_append h hpos
    rw [List.map_cons, List.append_cons]
    intro w hw
    rcases List.mem_append.mp hw with hw | hw
    · exact ih hdefs hrest hpos' (by rw [List.length_append, hk]; rfl) w hw
    · refine deferred_spec d hd (hquiet d hd) (ByteStream.isPrefix_of_append h).1 hpos ?_ w hw
      rw [List.getElem?_append_left (by simp [hk]), hk, List.getElem?_concat_length]

theorem turnsFor_deferred (d : Definition) : turnsFor (d.deferred path k pos) ≤ d.bytes.length := by
  cases d with
  | name label value => exact Nat.zero_le _
  | package kind following label body =>
    simp only [turnsFor, Definition.deferred, List.map_cons, List.map_nil, List.sum_cons,
      List.sum_nil, Content.bytes, Definition.bytes, packageBytes, List.length_append,
      length_encodePkgLength]
    omega
  | method following label flags code =>
    simp only [turnsFor, Definition.deferred, List.map_cons, List.map_nil, List.sum_cons,
      List.sum_nil, Content.bytes, Definition.bytes, packageBytes, List.length_append,
      length_encodePkgLength, List.length_cons]
    omega

theorem turnsFor_deferredAll (defs : List Definition) :
    turnsFor (deferredAll path k pos defs) ≤ (bytesOf defs).length := by
  induction defs generalizing k pos with
  | nil => exact Nat.le_refl 0
  | cons d defs ih =>
    have hd := turnsFor_deferred (path ++ [d.label.name]) k pos d
    have hdefs := ih (k + 1) (pos + d.bytes.length)
    rw [deferredAll, turnsFor_append, bytesOf, List.length_append]
    omega

/-- The definitions of a block have their nodes, or are in the blocks that it leaves. -/
theorem listing_perm (defs : List Definition) :
    (defs.map (fun d => (path ++ [d.label.name], d.type)) ++
      (deferredAll path k pos defs).flatMap Pending.listing).Perm (listing path defs) := by
  induction defs generalizing k pos with
  | nil => exact List.Perm.refl _
  | cons d defs ih =>
    have hd : d.listing path = (path ++ [d.label.name], d.type) ::
        (d.deferred (path ++ [d.label.name]) k pos).flatMap Pending.listing := by
      cases d with
      | name label value => rfl
      | package kind following label body => simp [Definition.deferred, Definition.listing,
          Pending.listing, Definition.label, Definition.type]
      | method following label flags code => rfl
    rw [deferredAll, List.map_cons, List.flatMap_append, listing, hd, List.cons_append,
      List.cons_append, ← List.append_assoc]
    exact ((ih _ _).append_right _).trans List.perm_append_comm |>.cons _

/-- Blocks have nodes of their own. -/
theorem deferredAll_nodes (defs : List Definition) :
    ((deferredAll path k pos defs).map fun w => w.block.nameSpace).Sublist
      (List.range' k defs.length).reverse := by
  induction defs generalizing k pos with
  | nil => exact List.Sublist.refl _
  | cons d defs ih =>
    rw [deferredAll, List.map_append, List.length_cons, List.range'_succ, List.reverse_cons]
    refine (ih _ _).append ?_
    cases d with
    | name label value => exact List.nil_sublist _
    | package kind following label body => exact List.Sublist.refl _
    | method following label flags code => exact List.Sublist.refl _

end Deferred

namespace Interpreter

section Added

variable {parent : ℕ} {defs : List Definition} {nodes nodes' : List NameSpace}

theorem Added.grown (h : Added parent defs nodes nodes') {labels : List (Path × ObjectType)}
    {label : Path × ObjectType} (hgrown : Grown nodes labels)
    (hlabel : labels[parent]? = some label) :
    Grown nodes' (labels ++ defs.map fun d => (label.1 ++ [d.label.name], d.type)) := by
  induction h generalizing labels with
  | nil nodes => rwa [List.map_nil, List.append_nil]
  | cons object rest ih =>
    have hlt := (List.getElem?_eq_some_iff.mp hlabel).1
    rw [List.map_cons, List.append_cons]
    exact ih (hgrown.add hlabel rfl) ((List.getElem?_append_left hlt).trans hlabel)

/-- Only the node around the definitions gets children. -/
theorem Added.childrenOf_eq (h : Added parent defs nodes nodes') (hparent : parent < nodes.length)
    {k : ℕ} (hk : k ≠ parent) : childrenOf nodes' k = childrenOf nodes k := by
  induction h with
  | nil nodes => rfl
  | cons object rest ih =>
    rw [ih (by rw [length_addNode]; exact Nat.lt_succ_of_lt hparent),
      childrenOf_addNode hparent rfl, if_neg hk]

end Added

variable {σ : Type} {S : ByteStream σ} {stale : Stale σ} {i i' : Interpreter σ}
  {data : List UInt8} {discardMethods : Bool} {top : List Definition}
  {labels : List (Path × ObjectType)} {pending rest : List Pending} {w : Pending}

/-- Between two blocks: the nodes are those of definitions, and what has no node yet is in a block
that is left. Where a key may be taken for a name, nothing is below the nodes of these blocks. -/
structure Inv (S : ByteStream σ) (data : List UInt8) (stale : Stale σ) (discardMethods : Bool)
    (top : List Definition) (i : Interpreter σ) (labels : List (Path × ObjectType))
    (pending : List Pending) : Prop where
  scopes_eq : i.scopesToParse = pending.map Pending.block
  data_eq : S.data i.stream = data
  grown : Grown i.nameSpaces labels
  perm : (labels.tail ++ pending.flatMap Pending.listing).Perm (listing [] top)
  known : ∀ w ∈ pending, w.Known labels
  inside : ∀ w ∈ pending, w.content.Inside discardMethods top
  apart : stale = .never ∨ Varied top ∧ (pending.map fun w => w.block.nameSpace).Nodup ∧
    ∀ w ∈ pending, childrenOf i.nameSpaces w.block.nameSpace = []

/-- The next block is taken from the work list. -/
def popped (i : Interpreter σ) (w : Pending) (rest : List Pending) (s : σ) : Interpreter σ :=
  { i with
    scopesToParse := rest.map Pending.block
    currentBlock := w.block
    stream := s }

/-- The definitions of a block have been executed. -/
theorem Inv.of_ran {body : List Definition} {s : σ}
    (hinv : Inv S data stale discardMethods top i labels (w :: rest))
    (hw : w.content = .definitions body)
    (hran : Ran S data (i.popped w rest s) body w.block.start i')
    (hspec : ∀ w' ∈ deferredAll w.path i.nameSpaces.length w.block.start body,
      Deferred data discardMethods top
        (labels ++ body.map fun d => (w.path ++ [d.label.name], d.type)) w') :
    Inv S data stale discardMethods top i'
      (labels ++ body.map fun d => (w.path ++ [d.label.name], d.type))
      (deferredAll w.path i.nameSpaces.length w.block.start body ++ rest) := by
  obtain ⟨⟨t, hlabel, -⟩, hknown⟩ := List.forall_mem_cons.mp hinv.known
  have hparent := hinv.grown.lt_of_getElem? hlabel
  refine ⟨?_, hran.data_eq, hran.added.grown hinv.grown hlabel, ?_,
    List.forall_mem_append.mpr ⟨fun w' hw' => (hspec w' hw').known, fun w' hw' => ?_⟩,
    List.forall_mem_append.mpr ⟨fun w' hw' => (hspec w' hw').inside,
      (List.forall_mem_cons.mp hinv.inside).2⟩, hinv.apart.imp_right ?_⟩
  · rw [hran.scopes_eq w.path, List.map_append]
    rfl
  · have hown := listing_perm w.path i.nameSpaces.length w.block.start body
    have hlisting : w.listing = listing w.path body := by rw [Pending.listing, hw]
    have hperm := hinv.perm
    obtain ⟨tail, rfl⟩ := hinv.grown.head_eq
    rw [List.flatMap_cons, hlisting] at hperm
    rw [List.flatMap_append, List.cons_append, List.tail_cons, List.append_assoc,
      ← List.append_assoc (body.map _)]
    exact ((hown.append_right _).append_left _).trans hperm
  · obtain ⟨t', hlabel', hcode⟩ := hknown w' hw'
    exact ⟨t', (List.getElem?_append_left (List.getElem?_eq_some_iff.mp hlabel').1).trans hlabel',
      hcode⟩
  · rintro ⟨hvaried, hnodup, hchildless⟩
    rw [List.map_cons, List.nodup_cons] at hnodup
    have hnodes := deferredAll_nodes w.path i.nameSpaces.length w.block.start body
    have hge : ∀ w' ∈ deferredAll w.path i.nameSpaces.length w.block.start body,
        i.nameSpaces.length ≤ w'.block.nameSpace := fun w' hw' =>
      (List.mem_range'_1.mp (List.mem_reverse.mp
        (hnodes.subset (List.mem_map_of_mem hw')))).1
    have hlt : ∀ w' ∈ rest, w'.block.nameSpace < i.nameSpaces.length := fun w' hw' =>
      (hknown w' hw').elim fun _ hlabel' => hinv.grown.lt_of_getElem? hlabel'.1
    refine ⟨hvaried, ?_, List.forall_mem_append.mpr ⟨fun w' hw' => ?_, fun w' hw' => ?_⟩⟩
    · rw [List.map_append]
      refine List.nodup_append'.mpr ⟨(List.nodup_reverse.mpr List.nodup_range').sublist hnodes,
        hnodup.2, fun k hk hk' => ?_⟩
      obtain ⟨w₁, hw₁, rfl⟩ := List.mem_map.mp hk
      obtain ⟨w₂, hw₂, hsame⟩ := List.mem_map.mp hk'
      have hge₁ := hge w₁ hw₁
      have hlt₂ := hlt w₂ hw₂
      omega
    · have hge' := hge w' hw'
      rw [hran.added.childrenOf_eq hparent (hparent.trans_le hge').ne']
      exact childrenOf_of_le hge'
    · rw [hran.added.childrenOf_eq hparent
        fun heq => hnodup.1 (List.mem_map.mpr ⟨w', hw', heq⟩)]
      exact hchildless w' (List.mem_cons_of_mem _ hw')

/-- The code of a method leaves everything as it is. -/
theorem Inv.of_code {bytes : List UInt8} {s : σ}
    (hinv : Inv S data stale discardMethods top i labels (w :: rest))
    (hw : w.content = .code bytes) (hs : S.data s = data) :
    Inv S data stale discardMethods top (i.popped w rest s) labels rest := by
  have hlisting : w.listing = [] := by rw [Pending.listing, hw]
  have hperm := hinv.perm
  rw [List.flatMap_cons, hlisting, List.nil_append] at hperm
  refine ⟨rfl, hs, hinv.grown, hperm, (List.forall_mem_cons.mp hinv.known).2,
    (List.forall_mem_cons.mp hinv.inside).2, hinv.apart.imp_right ?_⟩
  rintro ⟨hvaried, hnodup, hchildless⟩
  exact ⟨hvaried, (List.nodup_cons.mp hnodup).2, (List.forall_mem_cons.mp hchildless).2⟩

/-- The names of a block are told apart. -/
theorem Inv.unlike {body : List Definition}
    (hinv : Inv S data stale discardMethods top i labels (w :: rest))
    (hw : w.content = .definitions body) :
    stale = .never ∨ Unlike i.nameSpaces w.block.nameSpace body := by
  refine hinv.apart.imp_right ?_
  rintro ⟨hvaried, -, hchildless⟩
  have hnone := hchildless w List.mem_cons_self
  have hinside := hinv.inside w List.mem_cons_self
  rw [hw] at hinside
  obtain ⟨t, hlabel, -⟩ := hinv.known w List.mem_cons_self
  exact ⟨hinv.grown.lt_of_getElem? hlabel, hnone ▸ fun c hc => absurd hc List.not_mem_nil,
    hnone ▸ fun c hc => absurd hc List.not_mem_nil, (hinside.2 hvaried).1⟩

/-- **The run lemma.** The blocks of the work list are executed one by one, by induction on the
turns that are left. -/
theorem executeScopes_of_inv (hS : S.Lawful) {turns : ℕ} (hturns : data.length ≤ turns)
    (hfits : ∀ d, Within top d → d.Fits) (hquiet : ∀ d, Within top d → d.Quiet discardMethods)
    (n : ℕ) (hinv : Inv S data stale discardMethods top i labels pending)
    (hspans : ∀ w ∈ pending, Spans data w) (hn : turnsFor pending ≤ n) :
    ∃ i' labels', executeScopes S stale discardMethods turns n i = some i' ∧
      Inv S data stale discardMethods top i' labels' [] := by
  induction n generalizing i labels pending with
  | zero =>
    cases pending with
    | nil => exact ⟨i, labels, if_pos hinv.scopes_eq, hinv⟩
    | cons w rest =>
      rw [turnsFor, List.map_cons, List.sum_cons] at hn
      omega
  | succ n ih =>
    cases pending with
    | nil =>
      refine ⟨i, labels, ?_, hinv⟩
      rw [executeScopes, hinv.scopes_eq]
      rfl
    | cons w rest =>
      obtain ⟨hspan, hspans⟩ := List.forall_mem_cons.mp hspans
      have hend : w.block.endOffset ≤ data.length := by
        have hlength := hspan.next.length_le
        have hle := hspan.le_length
        rw [List.length_drop] at hlength
        have hend := hspan.end_le
        omega
      have hat : S.At (S.seek i.stream w.block.start) data w.block.start := by
        have hroom : w.block.start ≤ (S.data i.stream).length := hinv.data_eq ▸ hspan.le_length
        exact ⟨(hS.data_seek _ _ hroom).trans hinv.data_eq, hS.offset_seek _ _ hroom,
          hspan.le_length⟩
      have hcost : turnsFor (w :: rest) = 1 + w.content.bytes.length + turnsFor rest := rfl
      obtain ⟨t, hlabel, hmethod⟩ := hinv.known w List.mem_cons_self
      have htype := hinv.grown.type_eq hlabel
      have hfuel : w.block.endOffset ≤ w.block.start + turns := by omega
      rw [executeScopes, hinv.scopes_eq, List.map_cons]
      simp only [htype, Option.some.injEq]
      cases hcontent : w.content with
      | definitions body =>
        obtain ⟨hwithin, -⟩ : (Content.definitions body).Inside discardMethods top :=
          hcontent ▸ hinv.inside w List.mem_cons_self
        have hbytes : w.content.bytes = bytesOf body := by rw [hcontent]; rfl
        have hnext := hbytes ▸ hspan.next
        obtain ⟨i₁, hrun, hran⟩ := executeBlock_definitions
          (i := i.popped w rest (S.seek i.stream w.block.start))
          hS turns w.block.endOffset body (fun d hd => hfits d (hwithin d (Within.here hd)))
          (fun d hd => hquiet d (hwithin d (Within.here hd))) hat hnext
          (hbytes ▸ hspan.end_le) (hspan.all body hcontent) (hinv.unlike hcontent) hturns hfuel
        have hspec := deferredAll_spec w.path body
          (fun d hd => hwithin d (Within.here hd)) hquiet hnext hspan.le_length
          hinv.grown.length_eq.symm
        have hleft : turnsFor
            (deferredAll w.path i.nameSpaces.length w.block.start body ++ rest) ≤ n := by
          have hinside := turnsFor_deferredAll w.path i.nameSpaces.length w.block.start body
          rw [turnsFor_append]
          rw [hcost, hbytes] at hn
          omega
        obtain ⟨i₂, labels₂, hscopes, hinv₂⟩ := ih (hinv.of_ran hcontent hran hspec)
          (List.forall_mem_append.mpr ⟨fun w' hw' => (hspec w' hw').spans, hspans⟩) hleft
        have hdefinitions : t ≠ .eMethod := fun heq => by
          obtain ⟨bytes, hcode⟩ := hmethod.mp heq
          exact Content.noConfusion (hcontent.symm.trans hcode)
        refine ⟨i₂, labels₂, ?_, hinv₂⟩
        rw [if_neg fun h => hdefinitions h.1]
        exact (congrArg (·.bind (executeScopes S stale discardMethods turns n)) hrun).trans hscopes
      | code bytes =>
        have hinert : (Content.code bytes).Inside discardMethods top :=
          hcontent ▸ hinv.inside w List.mem_cons_self
        have hleft : turnsFor rest ≤ n := by omega
        by_cases hdiscard : discardMethods = true
        · rw [if_pos ⟨hmethod.mpr ⟨bytes, hcontent⟩, hdiscard⟩]
          exact ih (hinv.of_code hcontent hat.data_eq) hspans hleft
        · have hbytes : w.content.bytes = bytes := by rw [hcontent]; rfl
          obtain ⟨n', s', pos', hrun, hat', -, -, hcase⟩ := executeBlock_inert stale
            (i := i.popped w rest (S.seek i.stream w.block.start)) hS turns w.block.endOffset
            (hinert.resolve_left hdiscard) hat (hbytes ▸ hspan.next) hfuel
          have hbehind : w.block.endOffset ≤ pos' := by
            rcases hcase with rfl | hle
            · exact hbytes ▸ hspan.end_le
            · exact hle
          have hrun := hrun.trans (executeBlock_of_le (hbehind.trans_eq hat'.offset_eq.symm))
          obtain ⟨i₂, labels₂, hscopes, hinv₂⟩ :=
            ih (hinv.of_code hcontent hat'.data_eq) hspans hleft
          refine ⟨i₂, labels₂, ?_, hinv₂⟩
          rw [if_neg fun h => hdiscard h.2]
          exact (congrArg (·.bind (executeScopes S stale discardMethods turns n)) hrun).trans
            hscopes

end Interpreter

/-! ### Keys that are taken for every name of their length -/

/-- The children of a node have names of different lengths. -/
structure Spread (nodes : List NameSpace) : Prop where
  lt : ∀ k c, c ∈ childrenOf nodes k → c < nodes.length
  nodup : ∀ k, ((childrenOf nodes k).map fun c => (nameAt nodes c).length).Nodup

namespace Spread

variable {nodes : List NameSpace} {node : NameSpace} {parent : ℕ}

theorem addNode (h : Spread nodes) (hchildren : node.children = [])
    (hlength : ∀ c ∈ childrenOf nodes parent, (nameAt nodes c).length ≠ node.name.length) :
    Spread (addNode nodes parent node) := by
  have hold : ∀ k, (childrenOf nodes k).map
        (fun c => (nameAt (ACPI.addNode nodes parent node) c).length) =
      (childrenOf nodes k).map fun c => (nameAt nodes c).length := fun k =>
    List.map_congr_left fun c hc => by rw [nameAt_addNode_of_lt (h.lt k c hc)]
  have hcase : ∀ k, childrenOf (ACPI.addNode nodes parent node) k = childrenOf nodes k ∨
      k = parent ∧
        childrenOf (ACPI.addNode nodes parent node) k = childrenOf nodes k ++ [nodes.length] := by
    intro k
    by_cases hparent : parent < nodes.length
    · rw [childrenOf_addNode hparent hchildren]
      by_cases hk : k = parent
      · exact Or.inr ⟨hk, if_pos hk⟩
      · exact Or.inl (if_neg hk)
    · -- no node is there to have children
      refine Or.inl ?_
      rw [childrenOf, ACPI.addNode, List.modify_eq_self (Nat.le_of_not_lt hparent)]
      rcases Nat.lt_trichotomy k nodes.length with hk | rfl | hk
      · rw [List.getElem?_append_left hk]
        rfl
      · rw [List.getElem?_concat_length, childrenOf_of_le (Nat.le_refl _)]
        exact hchildren
      · rw [List.getElem?_eq_none (by rwa [List.length_append]), childrenOf_of_le hk.le]
        rfl
  refine ⟨fun k c hc => ?_, fun k => ?_⟩
  · rw [length_addNode]
    rcases hcase k with hsame | ⟨-, hnew⟩
    · exact Nat.lt_succ_of_lt (h.lt k c (hsame ▸ hc))
    · rcases List.mem_append.mp (hnew ▸ hc) with hc | hc
      · exact Nat.lt_succ_of_lt (h.lt k c hc)
      · exact List.mem_singleton.mp hc ▸ Nat.lt_succ_self _
  · rcases hcase k with hsame | ⟨rfl, hnew⟩
    · rw [hsame, hold]
      exact h.nodup k
    · rw [hnew, List.map_append, hold, List.map_singleton, nameAt_addNode_self]
      refine List.nodup_append'.mpr ⟨h.nodup k, List.nodup_singleton _, ?_⟩
      intro n hn hn'
      obtain ⟨c, hc, rfl⟩ := List.mem_map.mp hn
      exact hlength c hc (List.mem_singleton.mp hn')

/-- Types and objects do not matter. -/
theorem modify (h : Spread nodes) (k : ℕ) {f : NameSpace → NameSpace}
    (hf : ∀ ns, (f ns).name = ns.name ∧ (f ns).children = ns.children) :
    Spread (nodes.modify k f) := by
  have hsame : ∀ {α : Type} (g : NameSpace → α) (j : ℕ), (∀ ns, g (f ns) = g ns) →
      (nodes.modify k f)[j]?.map g = nodes[j]?.map g := by
    intro α g j hg
    rw [List.getElem?_modify, Option.map_eq_map, Option.map_map]
    congr 1
    funext ns
    rw [Function.comp_apply]
    split
    · exact hg ns
    · rfl
  have hchildren : ∀ j, childrenOf (nodes.modify k f) j = childrenOf nodes j := fun j => by
    rw [childrenOf, hsame _ j fun ns => (hf ns).2, childrenOf]
  have hname : ∀ j, nameAt (nodes.modify k f) j = nameAt nodes j := fun j => by
    rw [nameAt, hsame _ j fun ns => (hf ns).1, nameAt]
  refine ⟨fun j c hc => ?_, fun j => ?_⟩
  · rw [List.length_modify]
    exact h.lt j c (hchildren j ▸ hc)
  · simp only [hchildren, hname]
    exact h.nodup j

end Spread

theorem keyOf_always {nodes : List NameSpace} {k : ℕ} {name : List UInt8}
    (h : (nameAt nodes k).length = name.length) :
    keyOf (fun _ j => name.getD j 0) nodes k = name := by
  refine List.ext_getElem (by rw [keyOf, List.length_map, List.length_range, h]) fun j hj hj' => ?_
  simp only [keyOf, List.getElem_map, List.getElem_range, List.getD_eq_getElem _ _ hj']

/-- Names of one length below a node are the same. -/
theorem Spread.eq_of_length {nodes : List NameSpace} (h : Spread nodes) {p : Path}
    (hunique : ∀ k k', At nodes p k → At nodes p k' → k = k') {n n' : List UInt8} {c c' : ℕ}
    (hat : At nodes (p ++ [n]) c) (hat' : At nodes (p ++ [n']) c')
    (hlength : n.length = n'.length) : n = n' := by
  have hchild : ∀ {n c}, At nodes (p ++ [n]) c →
      ∃ k, At nodes p k ∧ c ∈ childrenOf nodes k ∧ nameAt nodes c = n := by
    intro n c hat
    generalize hq : p ++ [n] = q at hat
    cases hat with
    | root => exact absurd hq (by simp)
    | @child p' j _ ns hparent hmem hns =>
      obtain ⟨rfl, hn⟩ := List.append_inj' hq rfl
      exact ⟨j, hparent, hmem, by rw [nameAt, hns]; exact (List.cons.inj hn).1.symm⟩
  obtain ⟨k, hparent, hmem, rfl⟩ := hchild hat
  obtain ⟨k', hparent', hmem', rfl⟩ := hchild hat'
  obtain rfl := hunique k k' hparent hparent'
  rw [List.inj_on_of_nodup_map (h.nodup k) hmem hmem' hlength]

namespace Interpreter

section Always

variable {σ : Type} {S : ByteStream σ} {i i' : Interpreter σ} {turns : ℕ}

theorem createNameSpace_spread (h : Spread i.nameSpaces) (name : List UInt8) :
    Spread (i.createNameSpace .always name).2.nameSpaces := by
  by_cases hlength : ∀ c ∈ childrenOf i.nameSpaces i.currentBlock.nameSpace,
      (nameAt i.nameSpaces c).length ≠ name.length
  · rw [createNameSpace_eq (Or.inr hlength)]
    exact h.addNode rfl hlength
  · simp only [not_forall, ne_eq, not_not] at hlength
    obtain ⟨c, hc, hsame⟩ := hlength
    obtain ⟨found, hfound⟩ : ∃ found, (childrenOf i.nameSpaces i.currentBlock.nameSpace).find?
        (keyOf (Stale.always.find i name) i.nameSpaces · = name) = some found :=
      Option.isSome_iff_exists.mp
        (List.find?_isSome.mpr ⟨c, hc, decide_eq_true (keyOf_always hsame)⟩)
    rw [createNameSpace, hfound]
    exact h

theorem deferBlock_spread {type : ObjectType} {decode : σ → Option (List UInt8 × σ)}
    (h : i.deferBlock S .always type decode = some i') (hi : Spread i.nameSpaces) :
    Spread i'.nameSpaces := by
  obtain ⟨⟨name, s⟩, -, rfl⟩ := Option.map_eq_some_iff.mp h
  exact (createNameSpace_spread hi name).modify _ fun ns => ⟨rfl, rfl⟩

theorem executeOpCode_spread (h : executeOpCode S .always turns i = some i')
    (hi : Spread i.nameSpaces) : Spread i'.nameSpaces := by
  rw [executeOpCode] at h
  generalize S.getNextOp i.stream = next at h
  obtain ⟨op, s⟩ := next
  dsimp only at h
  rcases ite_eq_iff.mp h with ⟨-, h⟩ | ⟨-, h⟩
  · obtain ⟨⟨name, s₁⟩, -, h⟩ := Option.bind_eq_some_iff.mp h
    obtain ⟨⟨object, s₂⟩, -, rfl⟩ := Option.map_eq_some_iff.mp h
    exact (createNameSpace_spread (i := { i with stream := s }) hi name).modify _
      fun ns => ⟨rfl, rfl⟩
  rcases ite_eq_iff.mp h with ⟨-, h⟩ | ⟨-, h⟩
  · exact deferBlock_spread h hi
  rcases ite_eq_iff.mp h with ⟨-, h⟩ | ⟨-, h⟩
  · exact deferBlock_spread h hi
  rcases ite_eq_iff.mp h with ⟨-, h⟩ | ⟨-, h⟩
  · obtain ⟨-, -, rfl⟩ := Option.map_eq_some_iff.mp h
    exact hi
  rcases ite_eq_iff.mp h with ⟨-, h⟩ | ⟨-, h⟩
  · obtain ⟨-, -, rfl⟩ := Option.map_eq_some_iff.mp h
    exact hi
  rcases ite_eq_iff.mp h with ⟨-, h⟩ | ⟨-, h⟩
  · obtain ⟨⟨name, s₁⟩, -, h⟩ := Option.bind_eq_some_iff.mp h
    obtain ⟨s₂, -, rfl⟩ := Option.map_eq_some_iff.mp h
    exact createNameSpace_spread (i := { i with stream := s }) hi name
  rcases ite_eq_iff.mp h with ⟨-, h⟩ | ⟨-, h⟩
  · exact deferBlock_spread h hi
  rcases ite_eq_iff.mp h with ⟨-, h⟩ | ⟨-, h⟩
  · obtain ⟨⟨first, s₁⟩, -, h⟩ := Option.bind_eq_some_iff.mp h
    obtain ⟨-, -, rfl⟩ := Option.map_eq_some_iff.mp h
    exact hi
  rcases ite_eq_iff.mp h with ⟨-, h⟩ | ⟨-, h⟩
  · exact deferBlock_spread h hi
  rcases ite_eq_iff.mp h with ⟨-, h⟩ | ⟨-, h⟩
  · obtain ⟨-, -, rfl⟩ := Option.map_eq_some_iff.mp h
    exact hi
  · exact Option.some.inj h ▸ hi

theorem executeBlock_spread {endOffset n : ℕ}
    (h : executeBlock S .always turns endOffset n i = some i') (hi : Spread i.nameSpaces) :
    Spread i'.nameSpaces := by
  induction n generalizing i with
  | zero =>
    rw [executeBlock] at h
    split at h
    · exact absurd h.symm (Option.some_ne_none _)
    · exact Option.some.inj h ▸ hi
  | succ n ih =>
    rw [executeBlock] at h
    split at h
    · obtain ⟨i₁, hstep, h⟩ := Option.bind_eq_some_iff.mp h
      exact ih h (executeOpCode_spread hstep hi)
    · exact Option.some.inj h ▸ hi

/-- Whatever is executed, by induction on the turns that are left. -/
theorem executeScopes_spread {discardMethods : Bool} {n : ℕ}
    (h : executeScopes S .always discardMethods turns n i = some i') (hi : Spread i.nameSpaces) :
    Spread i'.nameSpaces := by
  induction n generalizing i with
  | zero =>
    rw [executeScopes] at h
    split at h
    · exact Option.some.inj h ▸ hi
    · exact absurd h.symm (Option.some_ne_none _)
  | succ n ih =>
    rw [executeScopes] at h
    split at h
    · exact Option.some.inj h ▸ hi
    · dsimp only at h
      split at h
      · exact ih h hi
      · obtain ⟨i₁, hblock, h⟩ := Option.bind_eq_some_iff.mp h
        exact ih h (executeBlock_spread hblock hi)

end Always

end Interpreter

/-! ## The table -/

namespace Interpreter

variable {σ : Type} {S : ByteStream σ} {stale : Stale σ} {i : Interpreter σ}
  {discardMethods : Bool}

/-- The first table is about to be executed. -/
structure Fresh (i : Interpreter σ) : Prop where
  nameSpaces_eq : i.nameSpaces = []
  scopesToParse_eq : i.scopesToParse = []

/-- What `ExecuteTable` leaves behind: the nodes of the definitions that start in front of the last
bytes of the table, as many as its header has. -/
theorem executeTable_inv (stale : Stale σ) (hS : S.Lawful) {turns : ℕ} {header : List UInt8}
    {defs : List Definition} (hheader : header.length = headerSize)
    (hsize : (header ++ bytesOf defs).length < 2 ^ 32)
    (hturns : (header ++ bytesOf defs).length ≤ turns)
    (hfits : ∀ d, Within defs d → d.Fits) (hquiet : ∀ d, Within defs d → d.Quiet discardMethods)
    (hfresh : i.Fresh)
    (hapart : stale = .never ∨ Varied (startingBefore (bytesOf defs).length headerSize defs)) :
    ∃ i' labels, executeTable S stale discardMethods turns i (header ++ bytesOf defs) = some i' ∧
      Inv S (header ++ bytesOf defs) stale discardMethods
        (startingBefore (bytesOf defs).length headerSize defs) i' labels [] := by
  have hlength : (header ++ bytesOf defs).length = headerSize + (bytesOf defs).length := by
    rw [List.length_append, hheader]
  have hend : wordSub (header ++ bytesOf defs).length headerSize = (bytesOf defs).length := by
    rw [wordSub_of_le (hsize.trans (by decide)) (by omega), hlength, Nat.add_sub_cancel_left]
  have hbody : (header ++ bytesOf defs).drop headerSize = bytesOf defs := by
    rw [← hheader, List.drop_left]
  obtain ⟨after, hafter⟩ := startingBefore_isPrefix (bytesOf defs).length headerSize defs
  have hreach := @le_startingBefore defs (bytesOf defs).length headerSize (Nat.le_add_left _ _)
  have hidem := startingBefore_idem (bytesOf defs).length headerSize defs
  generalize startingBefore (bytesOf defs).length headerSize defs = top
    at hafter hreach hidem hapart ⊢
  have hmem : ∀ d ∈ top, d ∈ defs := fun d hd => hafter ▸ List.mem_append_left _ hd
  have hbytes : bytesOf defs = bytesOf top ++ bytesOf after := by rw [← hafter, bytesOf_append]
  -- the root, with its block on the work list
  let block : Pending := ⟨⟨0, headerSize, (bytesOf defs).length⟩, [], .definitions top⟩
  let root : Interpreter σ := { i with
    nameSpaces := [⟨[0x5c], [], .eUndefined, none⟩]
    scopesToParse := [block.block]
    stream := S.make (header ++ bytesOf defs) }
  have hroot : Inv S (header ++ bytesOf defs) stale discardMethods top root [([], .eUndefined)]
      [block] := by
    refine ⟨rfl, hS.data_make _, .root, ?_, ?_, ?_, hapart.imp_right fun hvaried => ?_⟩
    · rw [List.tail_cons, List.nil_append, List.flatMap_singleton]
      exact List.Perm.refl _
    · refine List.forall_mem_singleton.mpr ⟨_, rfl, iff_of_false (by decide) ?_⟩
      rintro ⟨bytes, hbytes⟩
      exact Content.noConfusion hbytes
    · exact List.forall_mem_singleton.mpr ⟨fun d hd => hd, fun h => h⟩
    · exact ⟨hvaried, List.nodup_singleton _, List.forall_mem_singleton.mpr rfl⟩
  have hspan : Spans (header ++ bytesOf defs) block := by
    refine ⟨?_, ?_, hreach, fun body hbody => ?_⟩
    · show bytesOf top <+: (header ++ bytesOf defs).drop headerSize
      rw [hbody, hbytes]
      exact List.prefix_append _ _
    · show headerSize ≤ (header ++ bytesOf defs).length
      omega
    · obtain rfl := Content.definitions.inj hbody
      exact hidem
  have hcost : turnsFor [block] ≤ turns := by
    have hblock : turnsFor [block] = 1 + (bytesOf top).length := rfl
    rw [hlength, headerSize, hbytes, List.length_append] at hturns
    omega
  obtain ⟨i', labels, hscopes, hinv⟩ := executeScopes_of_inv hS hturns
    (fun d hd => hfits d (hd.mono hmem)) (fun d hd => hquiet d (hd.mono hmem)) turns hroot
    (List.forall_mem_singleton.mpr hspan) hcost
  refine ⟨i', labels, ?_, hinv⟩
  rw [executeTable, if_pos hfresh.nameSpaces_eq, hfresh.scopesToParse_eq, hend]
  exact hscopes

/-- In the end the nodes are those of the definitions. -/
theorem Inv.mem_labels {data : List UInt8} {top : List Definition}
    {labels : List (Path × ObjectType)} (h : Inv S data stale discardMethods top i labels [])
    {p : Path} (hp : p ≠ []) {t : ObjectType} : (p, t) ∈ labels ↔ Defines top p t := by
  have hperm := h.perm
  obtain ⟨tail, rfl⟩ := h.grown.head_eq
  rw [List.flatMap_nil, List.append_nil, List.tail_cons] at hperm
  rw [List.mem_cons, ← mem_listing_iff, ← hperm.mem_iff]
  exact or_iff_right fun heq => hp (Prod.mk.inj heq).1

theorem executeTable_spread {turns : ℕ} {table : List UInt8} {i' : Interpreter σ}
    (hfresh : i.Fresh)
    (h : executeTable S .always discardMethods turns i table = some i') : Spread i'.nameSpaces := by
  rw [executeTable, if_pos hfresh.nameSpaces_eq] at h
  have hchildren : ∀ k, childrenOf [⟨[0x5c], [], .eUndefined, none⟩] k = [] := fun k => by
    cases k <;> rfl
  refine executeScopes_spread h ⟨fun k c hc => ?_, fun k => ?_⟩
  · exact absurd (hchildren k ▸ hc) List.not_mem_nil
  · rw [hchildren]
    exact List.nodup_nil

end Interpreter

/-- Each place has one node. -/
theorem Interpreter.Inv.nodup_labels {σ : Type} {S : ByteStream σ} {data : List UInt8}
    {stale : Stale σ} {discardMethods : Bool} {top : List Definition} {i : Interpreter σ}
    {labels : List (Path × ObjectType)} (h : Inv S data stale discardMethods top i labels [])
    (hvaried : Varied top) : (labels.map Prod.fst).Nodup := by
  have hperm := h.perm
  have hmem := fun {p} hp {t} => h.mem_labels (p := p) hp (t := t)
  obtain ⟨tail, rfl⟩ := h.grown.head_eq
  rw [List.flatMap_nil, List.append_nil, List.tail_cons] at hperm
  refine List.nodup_cons.mpr ⟨fun hroot => ?_,
    (hperm.map Prod.fst).nodup_iff.mpr (nodup_listing [] top hvaried)⟩
  obtain ⟨⟨p, t⟩, htail, rfl⟩ := List.mem_map.mp hroot
  exact defines_ne_nil (mem_listing_iff.mp (hperm.mem_iff.mp htail)) rfl

theorem At.eq_zero {nodes : List NameSpace} {k : ℕ} (h : At nodes [] k) : k = 0 := by
  generalize hp : ([] : Path) = p at h
  cases h with
  | root => rfl
  | child _ _ _ => exact absurd hp (by simp)

/-- Where each place has one node, the labels are different. -/
theorem Grown.nodup_labels {nodes : List NameSpace} {labels : List (Path × ObjectType)}
    (h : Grown nodes labels) (hunique : ∀ {p} k k', At nodes p k → At nodes p k' → k = k') :
    (labels.map Prod.fst).Nodup := by
  rw [List.nodup_iff_getElem?_ne_getElem?]
  intro j j' hlt hlength heq
  rw [List.length_map] at hlength
  have hj := List.getElem?_eq_getElem (hlt.trans hlength)
  have hj' := List.getElem?_eq_getElem hlength
  rw [List.getElem?_map, List.getElem?_map, hj, hj'] at heq
  have hpath : labels[j].1 = labels[j'].1 := Option.some.inj heq
  have hat : At nodes labels[j'].1 j' := h.at_iff.mpr ⟨_, hj'⟩
  rw [← hpath] at hat
  exact hlt.ne (hunique j j' (h.at_iff.mpr ⟨_, hj⟩) hat)

/-- A place that has a node has one. -/
theorem Matches.unique {defs : List Definition} {nodes : List NameSpace} (h : Matches defs nodes)
    {p : Path} {k k' : ℕ} (hat : At nodes p k) (hat' : At nodes p k') : k = k' := by
  by_cases hp : p = []
  · subst hp
    exact hat.eq_zero.trans hat'.eq_zero.symm
  · obtain ⟨t, ht⟩ := (h p hp).2 k hat
    obtain ⟨k₁, -, -, hunique⟩ := (h p hp).1 t ht
    exact (hunique k hat).trans (hunique k' hat').symm

/-- **Which tables are executed in full**, whatever is in the memory of the keys. Names of one
length in one place may be taken for each other or not. The first block ends as many bytes in front
of the end of the table as its header has, so what starts in these bytes has to be defined by what
is in front of them. -/
theorem executes_iff {σ : Type} {S : ByteStream σ} (hS : S.Lawful) (discardMethods : Bool)
    {turns : ℕ} {header : List UInt8} {defs : List Definition} {i : Interpreter σ}
    (hheader : header.length = headerSize)
    (hsize : (header ++ bytesOf defs).length < 2 ^ 32)
    (hturns : (header ++ bytesOf defs).length ≤ turns)
    (hfits : ∀ d, Within defs d → d.Fits) (hquiet : ∀ d, Within defs d → d.Quiet discardMethods)
    (hfresh : i.Fresh) :
    (∀ stale, ∃ i', i.executeTable S stale discardMethods turns (header ++ bytesOf defs) =
        some i' ∧ Matches defs i'.nameSpaces) ↔
      Varied (startingBefore (bytesOf defs).length headerSize defs) ∧ Consistent defs ∧
        ∀ p t, Defines defs p t →
          ∃ t', Defines (startingBefore (bytesOf defs).length headerSize defs) p t' := by
  have hmem : ∀ d ∈ startingBefore (bytesOf defs).length headerSize defs, d ∈ defs :=
    fun d hd => (startingBefore_isPrefix _ _ defs).subset hd
  have hrun := fun stale => Interpreter.executeTable_inv stale hS hheader hsize hturns hfits hquiet
    hfresh
  generalize startingBefore (bytesOf defs).length headerSize defs = top at hmem hrun ⊢
  constructor
  · intro h
    -- every definition has a node of its own, so that there is one for each place only
    obtain ⟨i', hexecute, hmatch⟩ := h .never
    obtain ⟨i₁, labels, hexecute₁, hinv⟩ := hrun .never (Or.inl rfl)
    obtain rfl := Option.some.inj (hexecute.symm.trans hexecute₁)
    have hperm := hinv.perm
    have hgrown := hinv.grown
    have hlabels := fun {p} hp {t} => hinv.mem_labels (p := p) hp (t := t)
    refine ⟨varied_of_nodup ?_ ?_, ?_, fun p t ht => ?_⟩
    · have hnodup := hgrown.nodup_labels fun k k' => hmatch.unique
      obtain ⟨tail, rfl⟩ := hgrown.head_eq
      rw [List.flatMap_nil, List.append_nil, List.tail_cons] at hperm
      exact (hperm.map Prod.fst).nodup_iff.mp (List.nodup_cons.mp hnodup).2
    · -- where names of one length are taken for each other, there is one child for each length
      obtain ⟨i₂, hexecute₂, hmatch₂⟩ := h .always
      intro p n n' t t' ht ht' hlength
      obtain ⟨c, hat, -⟩ := (hmatch₂ (p ++ [n]) (by simp)).1 t (ht.mono hmem)
      obtain ⟨c', hat', -⟩ := (hmatch₂ (p ++ [n']) (by simp)).1 t' (ht'.mono hmem)
      exact (Interpreter.executeTable_spread hfresh hexecute₂).eq_of_length
        (fun k k' => hmatch₂.unique) hat hat' hlength
    · intro p t t' ht ht'
      obtain ⟨k, -, htype, hunique⟩ := (hmatch p (defines_ne_nil ht)).1 t ht
      obtain ⟨k', hat', htype', -⟩ := (hmatch p (defines_ne_nil ht)).1 t' ht'
      obtain rfl := hunique k' hat'
      exact Option.some.inj (htype.symm.trans htype')
    · obtain ⟨k, hat, -⟩ := (hmatch p (defines_ne_nil ht)).1 t ht
      obtain ⟨t', hlabel⟩ := hgrown.at_iff.mp hat
      exact ⟨t', (hlabels (defines_ne_nil ht)).mp (List.mem_of_getElem? hlabel)⟩
  · rintro ⟨hvaried, hconsistent, hbefore⟩ stale
    obtain ⟨i', labels, hexecute, hinv⟩ := hrun stale (Or.inr hvaried)
    refine ⟨i', hexecute, fun p hp => ⟨fun t ht => ?_, fun k hat => ?_⟩⟩
    · obtain ⟨t', ht'⟩ := hbefore p t ht
      obtain rfl := hconsistent p t t' ht (ht'.mono hmem)
      obtain ⟨k, hlabel⟩ := List.mem_iff_getElem?.mp ((hinv.mem_labels hp).mpr ht')
      refine ⟨k, hinv.grown.at_iff.mpr ⟨_, hlabel⟩, hinv.grown.type_eq hlabel, fun k' hat => ?_⟩
      obtain ⟨t', hlabel'⟩ := hinv.grown.at_iff.mp hat
      have hlt := (List.getElem?_eq_some_iff.mp hlabel').1
      refine (List.getElem?_inj (by rwa [List.length_map]) (hinv.nodup_labels hvaried)).mp ?_
      rw [List.getElem?_map, List.getElem?_map, hlabel, hlabel']
      rfl
    · obtain ⟨t, hlabel⟩ := hinv.grown.at_iff.mp hat
      exact ⟨t, ((hinv.mem_labels hp).mp (List.mem_of_getElem? hlabel)).mono hmem⟩

/-! ## Small tables -/

theorem isLead_s : isLeadNameChar 0x53 := by decide

theorem isLead_n : isLeadNameChar 0x4e := by decide

theorem isName_underscores : isNameChar 0x5f ∧ isNameChar 0x5f ∧ isNameChar 0x5f := by decide

/-- `S___`. -/
def scopeLabel : NameString where
  root := false
  parents := 0
  path := .segment ⟨0x53, 0x5f, 0x5f, 0x5f, isLead_s, isName_underscores⟩
  named := Or.inr (Or.inr (List.cons_ne_nil _ _))

/-- `N___`. -/
def nameLabel : NameString where
  root := false
  parents := 0
  path := .segment ⟨0x4e, 0x5f, 0x5f, 0x5f, isLead_n, isName_underscores⟩
  named := Or.inr (Or.inr (List.cons_ne_nil _ _))

/-- `Scope (S___) { Name (N___, One) }`. -/
def smallBlock : List Definition := [.package .scope 0 scopeLabel [.name nameLabel .eOne]]

theorem smallBlock_within {d : Definition} (h : Within smallBlock d) :
    d = .package .scope 0 scopeLabel [.name nameLabel .eOne] ∨ d = .name nameLabel .eOne := by
  cases h with
  | here h => exact Or.inl (List.mem_singleton.mp h)
  | inside hmem h =>
    cases List.mem_singleton.mp hmem
    cases h with
    | here h => exact Or.inr (List.mem_singleton.mp h)
    | inside hmem _ => cases List.mem_singleton.mp hmem

/-- The interpreter before the first table. -/
def idle : Interpreter (List UInt8 × ℕ) := ⟨[], [], ⟨0, 0, 0⟩, ([], 0)⟩

theorem executes_smallBlock :
    listStream.Lawful ∧ idle.Fresh ∧
    ((∀ stale, ∃ i', idle.executeTable listStream stale true 48
        (List.replicate 36 0 ++ bytesOf smallBlock) = some i' ∧ Matches smallBlock i'.nameSpaces) ↔
      Varied (startingBefore (bytesOf smallBlock).length headerSize smallBlock) ∧
        Consistent smallBlock ∧ ∀ p t, Defines smallBlock p t → ∃ t',
          Defines (startingBefore (bytesOf smallBlock).length headerSize smallBlock) p t') := by
  have hfresh : idle.Fresh := ⟨rfl, rfl⟩
  refine ⟨listStream_lawful, hfresh, ?_⟩
  refine executes_iff listStream_lawful true List.length_replicate (by decide) (by decide) ?_ ?_
    hfresh
  · intro d hd
    rcases smallBlock_within hd with rfl | rfl
    · have hfits : PkgLengthFits 0 (0 + 1 +
          (scopeLabel.bytes ++ bytesOf [.name nameLabel .eOne]).length) := by decide
      exact hfits
    · trivial
  · intro d hd
    rcases smallBlock_within hd with rfl | rfl
    · trivial
    · exact fun b hb => absurd hb List.not_mem_nil

/-- Nothing in a table of less than twice the size of a header is executed. -/
theorem not_executes_smallBlock :
    ¬∀ stale, ∃ i', idle.executeTable listStream stale true 48
      (List.replicate 36 0 ++ bytesOf smallBlock) = some i' ∧
      Matches smallBlock i'.nameSpaces := by
  intro h
  obtain ⟨i', hexecute, hmatch⟩ := h .never
  have hnone : (idle.executeTable listStream .never true 48
      (List.replicate 36 0 ++ bytesOf smallBlock)).map (·.nameSpaces) =
        some [⟨[0x5c], [], .eUndefined, none⟩] := rfl
  rw [hexecute] at hnone
  have hnodes : i'.nameSpaces = _ := Option.some.inj hnone
  obtain ⟨k, hat, -⟩ := (hmatch [scopeLabel.name] (List.cons_ne_nil _ _)).1 .eScope
    (Defines.here List.mem_cons_self)
  rw [hnodes, Grown.root.at_iff] at hat
  obtain ⟨t, hlabel⟩ := hat
  cases k with
  | zero => exact absurd hlabel (by simp)
  | succ k => exact absurd hlabel (by simp)

end Cryptix.ACPI
