import Mathlib.Data.List.Perm.Basic
import Cryptix.Prism
import Cryptix.Lib.Bytes

/-!
# The flattened device tree

`ParseFDT` in `Kernel/Firmware/DeviceTree/DeviceTree.cpp`, and the nodes of `Node.hpp`: the tokens
of the structure block are read one after the other, with the node that is open and a root that is
set on the way.

`new` puts a node behind the others, so that a node is denoted by its index. The root is set when
the second node begins, to the node that is open there, and that second node is not put among the
children of the first. A tree of one node has no root at the end. So no tree is built as it is
(`parseFDT_returns_not_builds`).
-/

namespace Cryptix.DeviceTree

/-- `BigEndian<u32>::Load`. -/
def load (m : ℕ → UInt8) (a : ℕ) : ℕ :=
  (List.range 4).foldl (fun value i => 256 * value + (m (a + i)).toNat) 0

/-- The `StringView` of a C string, which is not longer than the address space. -/
def stringView (m : ℕ → UInt8) (a : ℕ) : List UInt8 := Lib.cString m a wordCount

/-- `FDT_TokenType`. -/
inductive FDTTokenType
  | eBeginNode | eEndNode | eProperty | eNop | eEnd
  deriving DecidableEq, Repr

def FDTTokenType.ofValue : ℕ → Option FDTTokenType
  | 0x01 => some .eBeginNode
  | 0x02 => some .eEndNode
  | 0x03 => some .eProperty
  | 0x04 => some .eNop
  | 0x09 => some .eEnd
  | _ => none

structure Property where
  parent : ℕ
  name : List UInt8
  data : ℕ
  dataSize : ℕ
  deriving DecidableEq, Repr

structure Node where
  parent : Option ℕ
  name : List UInt8
  children : List (List UInt8 × ℕ)
  properties : List (List UInt8 × Property)
  deriving DecidableEq, Repr

/-- `map[name] = value` of an `UnorderedMap`. -/
def assign {β : Type} (map : List (List UInt8 × β)) (name : List UInt8) (value : β) :
    List (List UInt8 × β) :=
  map.filter (·.1 ≠ name) ++ [(name, value)]

/-- `Node::InsertNode`. -/
def Node.insertNode (n : Node) (name : List UInt8) (node : ℕ) : Node :=
  { n with children := assign n.children name node }

/-- `Node::InsertProperty`. -/
def Node.insertProperty (n : Node) (name : List UInt8) (property : Property) : Node :=
  { n with properties := assign n.properties name property }

/-- The nodes that exist, and the local variables of `ParseFDT`. -/
structure Parser where
  nodes : List Node
  root : Option ℕ
  current : Option ℕ
  offset : ℕ
  deriving DecidableEq, Repr

/-- The return value, `s_RootNode`, and the nodes. -/
structure Result where
  success : Bool
  rootNode : Option ℕ
  nodes : List Node
  deriving DecidableEq, Repr

/-- `Parent` of a node. -/
def Parser.parentOf (p : Parser) (node : ℕ) : Option ℕ := p.nodes[node]?.bind Node.parent

/-- The name that a node without a root gets. -/
def rootName : List UInt8 := [0x2f]

section Parse

variable (m : ℕ → UInt8) (header : ℕ)

def structureBlock : ℕ := header + load m (header + 8)

def stringBlock : ℕ := header + load m (header + 12)

def structureBlockSize : ℕ := load m (header + 36)

/-- A token that begins a node. The name is behind it. A node cannot be put among the children of
no node. -/
def beginNode (p : Parser) (offset : ℕ) : Option Parser :=
  let name := stringView m (structureBlock m header + offset)
  let offset := Prism.alignUp (offset + name.length + 1) 4
  let newNode := p.nodes.length
  match p.root, p.current with
  | none, current =>
    some ⟨p.nodes ++ [⟨current, rootName, [], []⟩], current, some newNode, offset⟩
  | some root, some current =>
    let nodes := p.nodes.modify current (·.insertNode name newNode)
    some ⟨nodes ++ [⟨some current, name, [], []⟩], some root, some newNode, offset⟩
  | some _, none => none

/-- A token that ends a node. -/
def endNode (p : Parser) (offset : ℕ) : Parser :=
  { p with current := (p.current.bind p.parentOf).or p.root, offset }

/-- A property, which has its header behind the token, and then its data. -/
def property (p : Parser) (offset : ℕ) : Parser :=
  let length := load m (structureBlock m header + offset)
  let name := stringView m
    (stringBlock m header + load m (structureBlock m header + offset + 4))
  let data := structureBlock m header + offset + 8
  let offset := Prism.alignUp (offset + (8 + length)) 4
  match p.current with
  | none => { p with offset }
  | some current =>
    { p with
      nodes := p.nodes.modify current (·.insertProperty name ⟨current, name, data, length⟩)
      offset }

/-- A turn of the loop, where there is no result if a null pointer is used. -/
def turn (p : Parser) : Option (Parser ⊕ Result) :=
  let offset := p.offset + 4
  match FDTTokenType.ofValue (load m (structureBlock m header + p.offset)) with
  | some .eBeginNode => (beginNode m header p offset).map .inl
  | some .eEndNode => some (.inl (endNode p offset))
  | some .eProperty => some (.inl (property m header p offset))
  | some .eNop => some (.inl { p with offset })
  | some .eEnd => some (.inr ⟨true, p.root, p.nodes⟩)
  | none => some (.inr ⟨false, none, p.nodes⟩)

/-- The loop, for a number of turns at most. -/
def loop : ℕ → Parser → Option Result
  | 0, _ => none
  | turns + 1, p =>
    if p.offset < structureBlockSize m header then
      match turn m header p with
      | none => none
      | some (.inl p) => loop turns p
      | some (.inr r) => some r
    else some ⟨true, p.root, p.nodes⟩

/-- `ParseFDT`, for a number of turns at most. -/
def parseFDT (turns : ℕ) : Option Result := loop m header turns ⟨[], none, none, 0⟩

end Parse

/-! ## Well-formed trees -/

/-- What is in a node. -/
inductive Item
  | nop
  | property (name data : List UInt8)
  | node (name : List UInt8) (items : List Item)

/-- The nodes in a node, each with its name and what is in it. -/
def childrenOf (items : List Item) : List (List UInt8 × List Item) :=
  items.filterMap fun
    | .node name items => some (name, items)
    | _ => none

/-- The properties of a node, each with its name and its data. -/
def propertiesOf (items : List Item) : List (List UInt8 × List UInt8) :=
  items.filterMap fun
    | .property name data => some (name, data)
    | _ => none

/-- The string at an address, and a NUL behind it. -/
def Named (m : ℕ → UInt8) (a : ℕ) (name : List UInt8) : Prop :=
  0 ∉ name ∧ name.length < wordCount ∧ Lib.Spells m a name

section WellFormed

variable (m : ℕ → UInt8) (header : ℕ)

mutual

/-- What stands for an item from one offset to another. -/
def Item.At : Item → ℕ → ℕ → Prop
  | .nop, offset, stop => load m (structureBlock m header + offset) = 0x04 ∧ stop = offset + 4
  | .property name data, offset, stop =>
    load m (structureBlock m header + offset) = 0x03 ∧
    load m (structureBlock m header + offset + 4) = data.length ∧
    Named m (stringBlock m header + load m (structureBlock m header + offset + 8)) name ∧
    (∀ i, (h : i < data.length) → m (structureBlock m header + offset + 12 + i) = data[i]) ∧
    stop = Prism.roundUp (offset + 12 + data.length) 4
  | .node name items, offset, stop =>
    load m (structureBlock m header + offset) = 0x01 ∧
    Named m (structureBlock m header + offset + 4) name ∧
    ∃ last, AllAt items (Prism.roundUp (offset + 4 + name.length + 1) 4) last ∧
      load m (structureBlock m header + last) = 0x02 ∧ stop = last + 4

/-- What stands for items one after the other. -/
def AllAt : List Item → ℕ → ℕ → Prop
  | [], offset, stop => stop = offset
  | i :: items, offset, stop => ∃ middle, i.At offset middle ∧ AllAt items middle stop

end

/-- The structure block has a node, with no more than NOPs around it, and its end behind it. -/
def WellFormed (name : List UInt8) (items : List Item) : Prop :=
  ∃ before after last,
    AllAt m header
      (List.replicate before .nop ++ .node name items :: List.replicate after .nop) 0 last ∧
    load m (structureBlock m header + last) = 0x09 ∧ last + 4 ≤ structureBlockSize m header

end WellFormed

/-- A property of a node that has a name and data. -/
structure Shows (m : ℕ → UInt8) (id : ℕ) (entry : List UInt8 × Property)
    (property : List UInt8 × List UInt8) : Prop where
  key_eq : entry.1 = property.1
  name_eq : entry.2.name = property.1
  parent_eq : entry.2.parent = id
  size_eq : entry.2.dataSize = property.2.length
  data_eq : ∀ i, (h : i < property.2.length) → m (entry.2.data + i) = property.2[i]

/-- A node, by its index, has the properties and the children that are in it, and its parent. The
maps of a node have no order. -/
inductive Represents (m : ℕ → UInt8) (nodes : List Node) : Option ℕ → ℕ → List Item → Prop
  | intro {parent : Option ℕ} {id : ℕ} {items : List Item} {node : Node}
      {properties : List (List UInt8 × Property)} {children : List (List UInt8 × ℕ)}
      (hnode : nodes[id]? = some node) (hparent : node.parent = parent)
      (hproperties : properties.Perm node.properties)
      (hshows : List.Forall₂ (Shows m id) properties (propertiesOf items))
      (hchildren : children.Perm node.children)
      (hlength : children.length = (childrenOf items).length)
      (hname : ∀ (i : ℕ) key child name inner, children[i]? = some (key, child) →
        (childrenOf items)[i]? = some (name, inner) →
        key = name ∧ nodes[child]?.map Node.name = some name)
      (hitems : ∀ (i : ℕ) key child name inner, children[i]? = some (key, child) →
        (childrenOf items)[i]? = some (name, inner) → Represents m nodes (some id) child inner) :
      Represents m nodes parent id items

/-- The tree is parsed, and its root represents it. -/
def Builds (m : ℕ → UInt8) (header : ℕ) (items : List Item) : Prop :=
  ∃ turns r root, parseFDT m header turns = some r ∧ r.success ∧ r.rootNode = some root ∧
    Represents m r.nodes none root items

/-! ## The loop -/

section Loop

variable {m : ℕ → UInt8} {header : ℕ} {p p' p'' : Parser} {turns : ℕ}

/-- The loop comes from one state to another. -/
def Reaches (m : ℕ → UInt8) (header : ℕ) (p p' : Parser) : Prop :=
  ∃ k, ∀ turns, loop m header (turns + k) p = loop m header turns p'

theorem Reaches.refl (p : Parser) : Reaches m header p p := ⟨0, fun _ => rfl⟩

theorem Reaches.trans (h : Reaches m header p p') (h' : Reaches m header p' p'') :
    Reaches m header p p'' := by
  obtain ⟨k, hk⟩ := h
  obtain ⟨k', hk'⟩ := h'
  refine ⟨k' + k, fun turns => ?_⟩
  rw [← Nat.add_assoc, hk, hk']

theorem Reaches.of_turn (hoffset : p.offset < structureBlockSize m header)
    (hturn : turn m header p = some (.inl p')) : Reaches m header p p' := by
  refine ⟨1, fun turns => ?_⟩
  rw [loop, if_pos hoffset, hturn]

/-- More turns do not change what is returned. -/
theorem loop_add {r : Result} (h : loop m header turns p = some r) (k : ℕ) :
    loop m header (turns + k) p = some r := by
  induction turns generalizing p with
  | zero => cases h
  | succ turns ih =>
    rw [Nat.succ_add, loop]
    rw [loop] at h
    split at h
    · rename_i hoffset
      rw [if_pos hoffset]
      cases hturn : turn m header p with
      | none =>
        rw [hturn] at h
        cases h
      | some result =>
        rw [hturn] at h
        cases result with
        | inl p' => exact ih h
        | inr r' => exact h
    · rename_i hoffset
      rw [if_neg hoffset]
      exact h

theorem loop_unique {turns' : ℕ} {r r' : Result} (h : loop m header turns p = some r)
    (h' : loop m header turns' p = some r') : r = r' := by
  have hmore := loop_add h turns'
  rw [Nat.add_comm, loop_add h' turns] at hmore
  exact (Option.some.inj hmore).symm

end Loop

/-! ## The tokens -/

section Tokens

variable {m : ℕ → UInt8} {header stop : ℕ} {p : Parser} {name data : List UInt8}

theorem load_lt (m : ℕ → UInt8) (a : ℕ) : load m a < 2 ^ 32 := by
  have hbyte : ∀ i, (m (a + i)).toNat < 256 := fun i => UInt8.toNat_lt _
  have h0 := hbyte 0
  have h1 := hbyte 1
  have h2 := hbyte 2
  have h3 := hbyte 3
  simp only [load, List.range_succ, List.range_zero, List.nil_append, List.cons_append,
    List.foldl_cons, List.foldl_nil]
  omega

theorem stringView_eq {a : ℕ} (h : Named m a name) : stringView m a = name :=
  (Lib.cString_eq_iff h.1 h.2.1).mpr h.2.2

theorem le_roundUp (n : ℕ) : n ≤ Prism.roundUp n 4 := Prism.le_roundUp (by decide) n

theorem alignUp_eq {n : ℕ} (h : Prism.roundUp n 4 < structureBlockSize m header) :
    Prism.alignUp n 4 = Prism.roundUp n 4 := by
  have hsize : structureBlockSize m header < wordCount :=
    Nat.lt_trans (load_lt m _) (by decide)
  exact Nat.mod_eq_of_lt (Nat.lt_trans h hsize)

theorem turn_nop (h : load m (structureBlock m header + p.offset) = 0x04) :
    turn m header p = some (.inl { p with offset := p.offset + 4 }) := by
  rw [turn, h]
  rfl

theorem turn_endNode (h : load m (structureBlock m header + p.offset) = 0x02) :
    turn m header p = some (.inl (endNode p (p.offset + 4))) := by
  rw [turn, h]
  rfl

theorem turn_end (h : load m (structureBlock m header + p.offset) = 0x09) :
    turn m header p = some (.inr ⟨true, p.root, p.nodes⟩) := by
  rw [turn, h]
  rfl

/-- A property goes to the node that is open. -/
theorem turn_property (h : (Item.property name data).At m header p.offset stop)
    (hstop : stop < structureBlockSize m header) {current : ℕ}
    (hcurrent : p.current = some current) :
    ∃ property, turn m header p = some (.inl
      ⟨p.nodes.modify current (·.insertProperty name property), p.root, p.current, stop⟩) := by
  obtain ⟨htoken, hlength, hname, -, hend⟩ := h
  refine ⟨⟨current, name, structureBlock m header + (p.offset + 4) + 8, data.length⟩, ?_⟩
  have hround : p.offset + 4 + (8 + data.length) = p.offset + 12 + data.length := by omega
  rw [turn, htoken]
  simp only [FDTTokenType.ofValue, property, hcurrent]
  rw [← Nat.add_assoc, hlength, Nat.add_assoc _ 4 4, stringView_eq hname, hround,
    alignUp_eq (hend ▸ hstop), hend]

/-- The first node, and the one behind it, do not get their names. -/
theorem turn_beginNode_of_none (hroot : p.root = none)
    (h : load m (structureBlock m header + p.offset) = 0x01)
    (hname : Named m (structureBlock m header + p.offset + 4) name)
    (hstop : Prism.roundUp (p.offset + 4 + name.length + 1) 4 < structureBlockSize m header) :
    turn m header p = some (.inl ⟨p.nodes ++ [⟨p.current, rootName, [], []⟩], p.current,
      some p.nodes.length, Prism.roundUp (p.offset + 4 + name.length + 1) 4⟩) := by
  rw [turn, h]
  simp only [FDTTokenType.ofValue, beginNode, hroot]
  rw [← Nat.add_assoc, stringView_eq hname, alignUp_eq hstop]
  rfl

/-- A further node is a child of the one that is open. -/
theorem turn_beginNode_of_some {root current : ℕ} (hroot : p.root = some root)
    (hcurrent : p.current = some current)
    (h : load m (structureBlock m header + p.offset) = 0x01)
    (hname : Named m (structureBlock m header + p.offset + 4) name)
    (hstop : Prism.roundUp (p.offset + 4 + name.length + 1) 4 < structureBlockSize m header) :
    turn m header p = some (.inl ⟨p.nodes.modify current (·.insertNode name p.nodes.length) ++
        [⟨some current, name, [], []⟩], some root,
      some p.nodes.length, Prism.roundUp (p.offset + 4 + name.length + 1) 4⟩) := by
  rw [turn, h]
  simp only [FDTTokenType.ofValue, beginNode, hroot, hcurrent]
  rw [← Nat.add_assoc, stringView_eq hname, alignUp_eq hstop]
  rfl

end Tokens

section Order

variable {m : ℕ → UInt8} {header : ℕ}

/-- Induction on what is in a node, with a hypothesis for each node in it. -/
@[elab_as_elim]
theorem items_induction {P : List Item → Prop} (nil : P [])
    (nop : ∀ items, P items → P (.nop :: items))
    (property : ∀ name data items, P items → P (.property name data :: items))
    (node : ∀ name inner items, P inner → P items → P (.node name inner :: items))
    (items : List Item) : P items :=
  @Item.rec_1 (fun i => ∀ items, P items → P (i :: items)) P nop
    (fun name data items h => property name data items h)
    (fun name inner hinner items h => node name inner items hinner h) nil
    (fun _ items hi h => hi items h) items

theorem le_of_allAt {items : List Item} {offset stop : ℕ} (h : AllAt m header items offset stop) :
    offset ≤ stop := by
  induction items using items_induction generalizing offset stop with
  | nil =>
    rw [AllAt] at h
    exact Nat.le_of_eq h.symm
  | nop items ih =>
    rw [AllAt] at h
    obtain ⟨middle, ⟨-, rfl⟩, hrest⟩ := h
    exact Nat.le_trans (Nat.le_add_right _ _) (ih hrest)
  | property name data items ih =>
    rw [AllAt] at h
    obtain ⟨middle, ⟨-, -, -, -, rfl⟩, hrest⟩ := h
    have hround := le_roundUp (offset + 12 + data.length)
    have hle := ih hrest
    omega
  | node name inner items ihInner ih =>
    rw [AllAt] at h
    obtain ⟨middle, ⟨-, -, last, hinner, -, rfl⟩, hrest⟩ := h
    have hround := le_roundUp (offset + 4 + name.length + 1)
    have hle := ihInner hinner
    have hle' := ih hrest
    omega

theorem lt_of_property {offset stop : ℕ} {name data : List UInt8}
    (h : (Item.property name data).At m header offset stop) : offset < stop := by
  obtain ⟨-, -, -, -, rfl⟩ := h
  have hround := le_roundUp (offset + 12 + data.length)
  omega

end Order

/-! ## What is in a node -/

section Nodes

variable {m : ℕ → UInt8} {header : ℕ} {p p' p'' : Parser} {current added added' : ℕ}

/-- What stands in a node leaves the other nodes as they were, and adds a number of children to it
at most. -/
structure Inside (current added : ℕ) (p p' : Parser) : Prop where
  root_eq : p'.root = p.root
  current_eq : p'.current = p.current
  length_le : p.nodes.length ≤ p'.nodes.length
  kept : ∀ j < p.nodes.length, j ≠ current → p'.nodes[j]? = p.nodes[j]?
  node : ∀ n, p.nodes[current]? = some n → ∃ n', p'.nodes[current]? = some n' ∧
    n'.parent = n.parent ∧ n'.children.length ≤ n.children.length + added

theorem Inside.trans (h : Inside current added p p') (h' : Inside current added' p' p'') :
    Inside current (added + added') p p'' where
  root_eq := h'.root_eq.trans h.root_eq
  current_eq := h'.current_eq.trans h.current_eq
  length_le := Nat.le_trans h.length_le h'.length_le
  kept j hj hne := (h'.kept j (Nat.lt_of_lt_of_le hj h.length_le) hne).trans (h.kept j hj hne)
  node n hn := by
    obtain ⟨n', hn', hparent, hle⟩ := h.node n hn
    obtain ⟨n'', hn'', hparent', hle'⟩ := h'.node n' hn'
    exact ⟨n'', hn'', hparent'.trans hparent, by omega⟩

/-- Only the offset goes on. -/
theorem inside_offset (current : ℕ) (p : Parser) (offset : ℕ) :
    Inside current 0 p { p with offset } :=
  ⟨rfl, rfl, Nat.le_refl _, fun _ _ _ => rfl, fun n hn => ⟨n, hn, rfl, Nat.le_refl _⟩⟩

theorem inside_property (p : Parser) (name : List UInt8) (property : Property) (offset : ℕ) :
    Inside current 0 p
      ⟨p.nodes.modify current (·.insertProperty name property), p.root, p.current, offset⟩ where
  root_eq := rfl
  current_eq := rfl
  length_le := Nat.le_of_eq (List.length_modify _ _ _).symm
  kept j _ hne := List.getElem?_modify_ne _ _ (Ne.symm hne)
  node n hn := by
    refine ⟨n.insertProperty name property, ?_, rfl, Nat.le_refl _⟩
    rw [List.getElem?_modify_eq, hn]
    rfl

theorem length_assign_le {β : Type} (map : List (List UInt8 × β)) (name : List UInt8) (value : β) :
    (assign map name value).length ≤ map.length + 1 := by
  rw [assign, List.length_append, List.length_singleton]
  exact Nat.succ_le_succ (List.length_filter_le _ _)

theorem getElem?_append_one {α : Type} {l : List α} {a : α} {k : ℕ} (h : l.length = k) :
    (l ++ [a])[k]? = some a :=
  h ▸ List.getElem?_concat_length

/-- A node is ended behind what is in it, which leaves the nodes around it as they were. -/
theorem reaches_close {opened : Parser} {id last : ℕ} {n : Node}
    (hrun : ∃ p', Reaches m header opened p' ∧ p'.offset = last ∧ Inside id added opened p')
    (hlast : last < structureBlockSize m header)
    (hclose : load m (structureBlock m header + last) = 0x02)
    (hcurrent : opened.current = some id) (hn : opened.nodes[id]? = some n)
    (hparent : n.parent = some current) :
    ∃ p', Reaches m header opened p' ∧ p'.offset = last + 4 ∧ p'.current = some current ∧
      p'.root = opened.root ∧ opened.nodes.length ≤ p'.nodes.length ∧
      ∀ j < opened.nodes.length, j ≠ id → p'.nodes[j]? = opened.nodes[j]? := by
  obtain ⟨p', hreaches, rfl, hinside⟩ := hrun
  obtain ⟨n', hn', hparent', -⟩ := hinside.node n hn
  have hended : (endNode p' (p'.offset + 4)).current = some current := by
    rw [endNode, hinside.current_eq, hcurrent, Option.bind_some, Parser.parentOf, hn',
      Option.bind_some, hparent', hparent]
    rfl
  exact ⟨_, hreaches.trans (.of_turn hlast (turn_endNode hclose)), rfl, hended, hinside.root_eq,
    hinside.length_le, hinside.kept⟩

/-- The items in a node are parsed, while there is a root. -/
theorem reaches_items {items : List Item} {root stop : ℕ} (h : AllAt m header items p.offset stop)
    (hstop : stop < structureBlockSize m header) (hroot : p.root = some root)
    (hcurrent : p.current = some current) (hlt : current < p.nodes.length) :
    ∃ p', Reaches m header p p' ∧ p'.offset = stop ∧
      Inside current (childrenOf items).length p p' := by
  induction items using items_induction generalizing p stop current with
  | nil =>
    rw [AllAt] at h
    exact ⟨p, .refl p, h.symm, inside_offset current p p.offset⟩
  | nop items ih =>
    rw [AllAt] at h
    obtain ⟨middle, ⟨htoken, rfl⟩, hrest⟩ := h
    have hle := le_of_allAt hrest
    have hfirst := inside_offset current p (p.offset + 4)
    obtain ⟨p', hreaches, hoffset, hinside⟩ :=
      ih (p := { p with offset := p.offset + 4 }) hrest hstop hroot hcurrent hlt
    refine ⟨p', (Reaches.of_turn (by omega) (turn_nop htoken)).trans hreaches, hoffset, ?_⟩
    have hboth := hfirst.trans hinside
    rwa [Nat.zero_add] at hboth
  | property name data items ih =>
    rw [AllAt] at h
    obtain ⟨middle, hproperty, hrest⟩ := h
    have hle := le_of_allAt hrest
    have hbefore := lt_of_property hproperty
    obtain ⟨property, hturn⟩ := turn_property hproperty (by omega) hcurrent
    generalize hnext : (⟨p.nodes.modify current (·.insertProperty name property), p.root, p.current,
      middle⟩ : Parser) = next at hturn
    have hfirst : Inside current 0 p next := hnext ▸ inside_property p name property middle
    have hmiddle : next.offset = middle := hnext ▸ rfl
    rw [← hmiddle] at hrest
    obtain ⟨p', hreaches, hoffset, hinside⟩ := ih hrest hstop (hfirst.root_eq.trans hroot)
      (hfirst.current_eq.trans hcurrent) (Nat.lt_of_lt_of_le hlt hfirst.length_le)
    refine ⟨p', (Reaches.of_turn (by omega) hturn).trans hreaches, hoffset, ?_⟩
    have hboth := hfirst.trans hinside
    rwa [Nat.zero_add] at hboth
  | node name inner items ihInner ih =>
    rw [AllAt] at h
    obtain ⟨middle, ⟨htoken, hname, last, hinner, hclose, rfl⟩, hrest⟩ := h
    have hround := le_roundUp (p.offset + 4 + name.length + 1)
    have hle := le_of_allAt hinner
    have hle' := le_of_allAt hrest
    have hturn := turn_beginNode_of_some hroot hcurrent htoken hname (by omega)
    have hlength : (p.nodes.modify current (·.insertNode name p.nodes.length)).length =
        p.nodes.length := List.length_modify _ _ _
    have hnew : (p.nodes.modify current (·.insertNode name p.nodes.length) ++
        [⟨some current, name, [], []⟩])[p.nodes.length]? =
        some ⟨some current, name, [], []⟩ := getElem?_append_one hlength
    have hrun := ihInner (p := ⟨_, some root, some p.nodes.length, _⟩) hinner (by omega) rfl rfl
      (List.getElem?_eq_some_iff.mp hnew).1
    obtain ⟨p', hreaches, hoffset, hcurrent', hroot', hlength', hkept⟩ :=
      reaches_close hrun (by omega) hclose rfl hnew rfl
    rw [List.length_append, hlength, List.length_singleton] at hlength'
    have hold : ∀ j < p.nodes.length, p'.nodes[j]? =
        (p.nodes.modify current (·.insertNode name p.nodes.length))[j]? := by
      intro j hj
      rw [hkept j (by rw [List.length_append, hlength]; omega) (by omega)]
      exact List.getElem?_append_left (by rwa [hlength])
    have hfirst : Inside current 1 p p' := by
      refine ⟨hroot'.trans hroot.symm, hcurrent'.trans hcurrent.symm, by omega, ?_, ?_⟩
      · intro j hj hne
        rw [hold j hj]
        exact List.getElem?_modify_ne _ _ (Ne.symm hne)
      · intro n hn
        refine ⟨n.insertNode name p.nodes.length, ?_, rfl, length_assign_le _ _ _⟩
        rw [hold current hlt, List.getElem?_modify_eq, hn]
        rfl
    rw [← hoffset] at hrest
    obtain ⟨p'', hreaches', hoffset', hinside⟩ := ih hrest hstop hroot' hcurrent' (by omega)
    refine ⟨p'', ((Reaches.of_turn (by omega) hturn).trans hreaches).trans hreaches', hoffset', ?_⟩
    have hboth := hfirst.trans hinside
    rwa [Nat.add_comm] at hboth

end Nodes

/-! ## The whole tree -/

section Tree

variable {m : ℕ → UInt8} {header stop : ℕ} {p : Parser} {items : List Item} {name : List UInt8}

/-- The items of the first node are parsed. Where there is a node among them, the first node has
become the root, and one of its children is missing. -/
theorem reaches_root_items {n : Node} (h : AllAt m header items p.offset stop)
    (hstop : stop < structureBlockSize m header) (hroot : p.root = none)
    (hcurrent : p.current = some 0) (hnodes : p.nodes = [n]) (hparent : n.parent = none)
    (hchildren : n.children = []) :
    ∃ p' n', Reaches m header p p' ∧ p'.offset = stop ∧ p'.current = some 0 ∧
      p'.nodes[0]? = some n' ∧ n'.parent = none ∧
      (p'.root = none ∨ p'.root = some 0 ∧ n'.children.length < (childrenOf items).length) := by
  induction items using items_induction generalizing p n stop with
  | nil =>
    rw [AllAt] at h
    exact ⟨p, n, .refl p, h.symm, hcurrent, hnodes ▸ rfl, hparent, .inl hroot⟩
  | nop items ih =>
    rw [AllAt] at h
    obtain ⟨middle, ⟨htoken, rfl⟩, hrest⟩ := h
    have hle := le_of_allAt hrest
    obtain ⟨p', n', hreaches, hresult⟩ := ih (p := { p with offset := p.offset + 4 }) hrest hstop
      hroot hcurrent hnodes hparent hchildren
    exact ⟨p', n', (Reaches.of_turn (by omega) (turn_nop htoken)).trans hreaches, hresult⟩
  | property name data items ih =>
    rw [AllAt] at h
    obtain ⟨middle, hproperty, hrest⟩ := h
    have hle := le_of_allAt hrest
    have hbefore := lt_of_property hproperty
    obtain ⟨property, hturn⟩ := turn_property hproperty (by omega) hcurrent
    have hmodify : p.nodes.modify 0 (·.insertProperty name property) =
        [n.insertProperty name property] := by
      rw [hnodes]
      rfl
    obtain ⟨p', n', hreaches, hresult⟩ := ih (p := ⟨_, p.root, p.current, middle⟩) hrest hstop
      hroot hcurrent hmodify hparent hchildren
    exact ⟨p', n', (Reaches.of_turn (by omega) hturn).trans hreaches, hresult⟩
  | node name inner items ihInner ih =>
    -- the first child: the open node becomes the root, and the child is not inserted
    rw [AllAt] at h
    obtain ⟨middle, ⟨htoken, hname, last, hinner, hclose, rfl⟩, hrest⟩ := h
    have hround := le_roundUp (p.offset + 4 + name.length + 1)
    have hle := le_of_allAt hinner
    have hle' := le_of_allAt hrest
    have hturn := turn_beginNode_of_none hroot htoken hname (by omega)
    rw [hnodes, hcurrent] at hturn
    generalize hopened : (⟨[n] ++ [⟨some 0, rootName, [], []⟩], some 0, some [n].length,
      Prism.roundUp (p.offset + 4 + name.length + 1) 4⟩ : Parser) = opened at hturn
    have hopen : opened.nodes = [n, ⟨some 0, rootName, [], []⟩] := hopened ▸ rfl
    have hstart : opened.offset = Prism.roundUp (p.offset + 4 + name.length + 1) 4 := hopened ▸ rfl
    have hcurrent : opened.current = some 1 := hopened ▸ rfl
    have hnew : opened.nodes[1]? = some ⟨some 0, rootName, [], []⟩ := hopen ▸ rfl
    have hroot : opened.root = some 0 := hopened ▸ rfl
    rw [← hstart] at hinner
    have hrun := reaches_items hinner (by omega) hroot hcurrent (hopen ▸ Nat.lt_succ_self 1)
    obtain ⟨p', hreaches, hoffset, hcurrent', hroot', hlength, hkept⟩ :=
      reaches_close hrun (by omega) hclose hcurrent hnew rfl
    have hfirst : p'.nodes[0]? = some n := by
      rw [hkept 0 (hopen ▸ Nat.succ_pos 1) Nat.zero_ne_one, hopen]
      rfl
    rw [← hoffset] at hrest
    obtain ⟨p'', hreaches', hoffset', hinside⟩ := reaches_items hrest hstop
      (hroot'.trans hroot) hcurrent' (List.getElem?_eq_some_iff.mp hfirst).1
    obtain ⟨n', hn', hparent', hcount⟩ := hinside.node n hfirst
    refine ⟨p'', n', ((Reaches.of_turn (by omega) hturn).trans hreaches).trans hreaches', hoffset',
      hinside.current_eq.trans hcurrent', hn', hparent'.trans hparent, .inr ⟨?_, ?_⟩⟩
    · exact hinside.root_eq.trans (hroot'.trans hroot)
    · rw [hchildren, List.length_nil, Nat.zero_add] at hcount
      exact Nat.lt_succ_of_le hcount

theorem allAt_append {offset : ℕ} {items' : List Item} :
    AllAt m header (items ++ items') offset stop ↔
      ∃ middle, AllAt m header items offset middle ∧ AllAt m header items' middle stop := by
  induction items generalizing offset with
  | nil =>
    simp only [List.nil_append, AllAt, exists_eq_left]
  | cons i items ih =>
    simp only [List.cons_append, AllAt, ih]
    grind

/-- NOPs are passed over. -/
theorem reaches_nops {count : ℕ} (h : AllAt m header (List.replicate count .nop) p.offset stop)
    (hstop : stop < structureBlockSize m header) :
    Reaches m header p { p with offset := stop } := by
  induction count generalizing p with
  | zero =>
    rw [List.replicate_zero, AllAt] at h
    rw [h]
    exact .refl p
  | succ count ih =>
    rw [List.replicate_succ, AllAt] at h
    obtain ⟨middle, ⟨htoken, rfl⟩, hrest⟩ := h
    have hle := le_of_allAt hrest
    exact (Reaches.of_turn (by omega) (turn_nop htoken)).trans
      (ih (p := { p with offset := p.offset + 4 }) hrest)

/-- A well-formed tree is parsed to its end. Then there is no root, or a child of the root is
missing. -/
theorem parseFDT_of_wellFormed (h : WellFormed m header name items) :
    ∃ turns r, parseFDT m header turns = some r ∧ r.success = true ∧
      ∀ root, r.rootNode = some root → ∃ n, r.nodes[root]? = some n ∧
        n.children.length < (childrenOf items).length := by
  obtain ⟨before, after, last, hitems, htoken, hlast⟩ := h
  rw [allAt_append] at hitems
  obtain ⟨first, hbefore, hitems⟩ := hitems
  rw [AllAt] at hitems
  obtain ⟨middle, ⟨hbegin, hname, close, hinner, hclose, rfl⟩, hafter⟩ := hitems
  have hle := le_of_allAt hafter
  have hle' := le_of_allAt hinner
  have hround := le_roundUp (first + 4 + name.length + 1)
  have hnops : Reaches m header ⟨[], none, none, 0⟩ ⟨[], none, none, first⟩ :=
    reaches_nops hbefore (by omega)
  have hopen : Reaches m header ⟨[], none, none, first⟩
      ⟨[⟨none, rootName, [], []⟩], none, some 0,
        Prism.roundUp (first + 4 + name.length + 1) 4⟩ :=
    .of_turn (show first < structureBlockSize m header by omega)
      (turn_beginNode_of_none rfl hbegin hname
        (show Prism.roundUp (first + 4 + name.length + 1) 4 < _ by omega))
  obtain ⟨p, n, hreaches, rfl, hcurrent, hn, hparent, hroot⟩ := reaches_root_items
    (p := ⟨[⟨none, rootName, [], []⟩], none, some 0, _⟩) hinner (by omega) rfl rfl rfl rfl rfl
  have hclosed : Reaches m header p (endNode p (p.offset + 4)) :=
    .of_turn (by omega) (turn_endNode hclose)
  have hroot' : (endNode p (p.offset + 4)).root = p.root := rfl
  have hnodes' : (endNode p (p.offset + 4)).nodes = p.nodes := rfl
  have hoffset' : (endNode p (p.offset + 4)).offset = p.offset + 4 := rfl
  generalize endNode p (p.offset + 4) = closed at hclosed hroot' hnodes' hoffset'
  rw [← hoffset'] at hafter
  obtain ⟨k, hk⟩ := (((hnops.trans hopen).trans hreaches).trans hclosed).trans
    (reaches_nops hafter (by omega))
  refine ⟨1 + k, ⟨true, closed.root, closed.nodes⟩, (hk 1).trans ?_, rfl, fun root hr => ?_⟩
  · rw [loop, if_pos (show last < structureBlockSize m header by omega),
      turn_end (p := { closed with offset := last }) htoken]
  · rcases hroot with hnone | ⟨hsome, hcount⟩
    · cases (hroot'.trans hnone).symm.trans hr
    · cases (hroot'.trans hsome).symm.trans hr
      exact ⟨n, hnodes' ▸ hn, hcount⟩

/-- All the children of a node are among those of what represents it. -/
theorem Represents.length_children {nodes : List Node} {parent : Option ℕ} {id : ℕ} {n : Node}
    (h : Represents m nodes parent id items) (hn : nodes[id]? = some n) :
    n.children.length = (childrenOf items).length := by
  cases h with
  | intro hnode hparent hproperties hshows hchildren hlength hname hitems =>
    cases hnode.symm.trans hn
    exact hchildren.length_eq.symm.trans hlength

end Tree

/-- **No tree is built.** A well-formed tree is parsed and `ParseFDT` returns true, but what it
leaves does not represent the tree: there is no root if the tree has one node only, and if it has
more, the first child of the root is not among its children. -/
theorem parseFDT_returns_not_builds (m : ℕ → UInt8) (header : ℕ) (name : List UInt8)
    (items : List Item) (h : WellFormed m header name items) :
    (∃ turns r, parseFDT m header turns = some r ∧ r.success = true) ∧ ¬Builds m header items := by
  obtain ⟨turns, r, hturns, hsuccess, hroot⟩ := parseFDT_of_wellFormed h
  refine ⟨⟨turns, r, hturns, hsuccess⟩, ?_⟩
  rintro ⟨turns', r', root, hturns', -, hroot', hrepresents⟩
  obtain rfl := loop_unique hturns hturns'
  obtain ⟨n, hn, hlt⟩ := hroot root hroot'
  exact absurd (hrepresents.length_children hn) (Nat.ne_of_lt hlt)

/-- A blob with the given tokens in its structure block, and the name `a` in its string block. -/
def blob (tokens : List UInt8) (p : ℕ) : UInt8 :=
  (List.replicate 11 0 ++ [44, 0, 0, 0, 40] ++ List.replicate 23 0 ++
    [UInt8.ofNat tokens.length, 0x61, 0, 0, 0] ++ tokens).getD p 0

/-- The tokens of a node with a property `a` of four bytes and a child `a` that has a NOP in it. -/
def familyTokens : List UInt8 :=
  [0, 0, 0, 1, 0, 0, 0, 0, 0, 0, 0, 3, 0, 0, 0, 4, 0, 0, 0, 0, 1, 2, 3, 4,
    0, 0, 0, 1, 0x61, 0, 0, 0, 0, 0, 0, 4, 0, 0, 0, 2, 0, 0, 0, 2, 0, 0, 0, 9]

theorem parseFDT_returns_not_builds_family :
    WellFormed (blob familyTokens) 0 [] [.property [0x61] [1, 2, 3, 4], .node [0x61] [.nop]] ∧
    (∃ turns r, parseFDT (blob familyTokens) 0 turns = some r ∧ r.success = true) ∧
    ¬Builds (blob familyTokens) 0 [.property [0x61] [1, 2, 3, 4], .node [0x61] [.nop]] := by
  have hroot : Named (blob familyTokens) 48 [] := ⟨by decide, by decide, by decide⟩
  have hproperty : Named (blob familyTokens) 40 [0x61] := ⟨by decide, by decide, by decide⟩
  have hchild : Named (blob familyTokens) 72 [0x61] := ⟨by decide, by decide, by decide⟩
  have h : WellFormed (blob familyTokens) 0 []
      [.property [0x61] [1, 2, 3, 4], .node [0x61] [.nop]] :=
    ⟨0, 0, 44, ⟨44, ⟨by decide, hroot, 40,
      ⟨24, ⟨by decide, by decide, hproperty, by decide, rfl⟩, 40,
        ⟨by decide, hchild, 36, ⟨36, ⟨by decide, rfl⟩, rfl⟩, by decide, rfl⟩, rfl⟩,
      by decide, rfl⟩, rfl⟩, by decide, by decide⟩
  exact ⟨h, parseFDT_returns_not_builds _ 0 [] _ h⟩

/-- The tokens of a node with a child named `a`. -/
def childTokens : List UInt8 :=
  [0, 0, 0, 1, 0, 0, 0, 0, 0, 0, 0, 1, 0x61, 0, 0, 0, 0, 0, 0, 2, 0, 0, 0, 2, 0, 0, 0, 9]

/-- The child is not among the children of the root, and has no name. -/
theorem not_builds_child :
    WellFormed (blob childTokens) 0 [] [.node [0x61] []] ∧
    ¬Builds (blob childTokens) 0 [.node [0x61] []] := by
  have hname : Named (blob childTokens) 48 [] := ⟨by decide, by decide, by decide⟩
  have hname' : Named (blob childTokens) 56 [0x61] := ⟨by decide, by decide, by decide⟩
  have hparsed : parseFDT (blob childTokens) 0 5 = some ⟨true, some 0,
      [⟨none, rootName, [], []⟩, ⟨some 0, rootName, [], []⟩]⟩ := by decide
  refine ⟨⟨0, 0, 24, ⟨24, ⟨by decide, hname, 20, ⟨20, ⟨by decide, hname', 16, rfl, by decide, rfl⟩,
    rfl⟩, by decide, rfl⟩, rfl⟩, by decide, by decide⟩, ?_⟩
  rintro ⟨turns, r, root, hturns, -, hroot, hrepresents⟩
  obtain rfl := loop_unique hparsed hturns
  obtain rfl := Option.some.inj hroot
  exact absurd (hrepresents.length_children rfl) (by decide)

end Cryptix.DeviceTree
