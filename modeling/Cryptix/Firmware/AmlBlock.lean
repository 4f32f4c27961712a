import Mathlib.Data.List.TakeWhile
import Cryptix.Firmware.ACPI
import Cryptix.Firmware.Aml

/-!
# The definition blocks of an AML table

`ExecuteTable` in `Kernel/Firmware/ACPI/Interpreter/Interpreter.cpp`: the table is parsed block by
block. What opens a block of its own (`Scope`, `Device`, `Method`) is put on a work list with the
range of its bytes, and the stream goes on behind it.

A `NameSpace` is an index of the list of all nodes, in the order in which they are created. Its map
of children is keyed by views of names that are gone by the next definition, so that what is in the
memory of the keys is a parameter (`Stale`). Here the definitions are encoded, and what the
interpreter does with one operator, and with the bytes of one block, is read off them.
-/

namespace Cryptix.ACPI

/-- `ObjectType`, as far as the interpreter uses it. -/
inductive ObjectType
  | eScope | eDevice | eMethod | eName | eWhile | eUndefined
  deriving DecidableEq, Repr

/-- `m_Name`, the values of `m_Children`, `m_Type`, and the value of the `IntegerObject` in
`m_Object`. -/
structure NameSpace where
  name : List UInt8
  children : List ℕ
  type : ObjectType
  object : Option ℕ
  deriving DecidableEq, Repr

/-- `CodeBlock`, without what is written to the log only. -/
structure CodeBlock where
  nameSpace : ℕ
  start : ℕ
  endOffset : ℕ
  deriving DecidableEq, Repr

/-- The static variables of `Interpreter.cpp`. The root, where there is one, is the first node, and
the back of `s_ScopesToParse` comes first. -/
structure Interpreter (σ : Type) where
  nameSpaces : List NameSpace
  scopesToParse : List CodeBlock
  currentBlock : CodeBlock
  stream : σ

/-- What is in the memory of the keys of `m_Children` when a name is looked for, and when it is put
there: by the node of the key, the byte at each place. A key is a view of a `String` that
`ExecuteOpCode` decodes a name into, which is destroyed before the map is looked at again. (That of
`while` is a literal.) -/
structure Stale (σ : Type) where
  find : Interpreter σ → List UInt8 → ℕ → ℕ → UInt8
  entry : Interpreter σ → List UInt8 → ℕ → ℕ → UInt8

/-- The memory holds other bytes than those of the name. -/
def Stale.never {σ : Type} : Stale σ :=
  ⟨fun _ name _ j => name.getD j 0 + 1, fun _ name _ j => name.getD j 0 + 1⟩

/-- The name has been decoded into the memory of all names before it. -/
def Stale.always {σ : Type} : Stale σ :=
  ⟨fun _ name _ j => name.getD j 0, fun _ name _ j => name.getD j 0⟩

/-- The children of a node. -/
def childrenOf (nodes : List NameSpace) (k : ℕ) : List ℕ :=
  (nodes[k]?.map NameSpace.children).getD []

def nameAt (nodes : List NameSpace) (k : ℕ) : List UInt8 :=
  (nodes[k]?.map NameSpace.name).getD []

/-- The key of a node: a view has the length of the name. -/
def keyOf (memory : ℕ → ℕ → UInt8) (nodes : List NameSpace) (k : ℕ) : List UInt8 :=
  (List.range (nameAt nodes k).length).map (memory k)

/-- `m_Children[name] = current`, where a key can be taken for the name. -/
def putChild (isName : ℕ → Bool) (children : List ℕ) (current : ℕ) : List ℕ :=
  match children.findIdx? isName with
  | some entry => children.set entry current
  | none => children ++ [current]

namespace Interpreter

variable {σ : Type} (S : ByteStream σ) (stale : Stale σ)

/-- `CreateNameSpace`. -/
def createNameSpace (i : Interpreter σ) (name : List UInt8) : ℕ × Interpreter σ :=
  let parent := i.currentBlock.nameSpace
  let found := (keyOf (stale.find i name) i.nameSpaces · = name)
  match (childrenOf i.nameSpaces parent).find? found with
  | some current => (current, i)
  | none =>
    let current := i.nameSpaces.length
    let isName := (keyOf (stale.entry i name) i.nameSpaces · = name)
    let nodes := i.nameSpaces.modify parent fun ns =>
      { ns with children := putChild isName ns.children current }
    (current, { i with nameSpaces := nodes ++ [⟨name, [], .eUndefined, none⟩] })

/-- A node is written to. -/
def modify (i : Interpreter σ) (k : ℕ) (f : NameSpace → NameSpace) : Interpreter σ :=
  { i with nameSpaces := i.nameSpaces.modify k f }

/-- The cases of `Scope`, `Method`, `Device` and, with a name of its own, `While`. -/
def deferBlock (i : Interpreter σ) (type : ObjectType) (decode : σ → Option (List UInt8 × σ)) :
    Option (Interpreter σ) :=
  let start := S.offset i.stream
  let (pkgLength, s) := decodePkgLength S i.stream
  (decode s).map fun (name, s) =>
    let (current, i) := i.createNameSpace stale name
    let codeBlock : CodeBlock := ⟨current, S.offset s, start + pkgLength⟩
    { i.modify current fun ns => { ns with type } with
      scopesToParse := codeBlock :: i.scopesToParse
      stream := S.seek s codeBlock.endOffset }

/-- `ParseField`. -/
def parseField (turns : ℕ) (s : σ) : Option σ :=
  let (next, s) := S.readU8 s
  if isNameSegment next then
    (decodeName S turns (S.seek s (S.offset s - 1))).map fun (_, s) => (decodePkgLength S s).2
  else some s

/-- `ExecuteOpCode`. -/
def executeOpCode (turns : ℕ) (i : Interpreter σ) : Option (Interpreter σ) :=
  let (op, s) := S.getNextOp i.stream
  let i := { i with stream := s }
  if op = 0x08 then
    -- `Name`
    (decodeName S turns s).bind fun (name, s) =>
      let (nameSpace, i) := i.createNameSpace stale name
      (createNamedObject S turns s).map fun (object, s) =>
        { i.modify nameSpace fun ns => { ns with type := .eName, object } with stream := s }
  else if op = 0x10 then i.deferBlock S stale .eScope (decodeName S turns)
  else if op = 0x14 then i.deferBlock S stale .eMethod (decodeName S turns)
  else if op = 0x5b23 then
    -- `Acquire`
    (decodeName S turns s).map fun (_, s) => { i with stream := (S.readNext s 2).2 }
  else if op = 0x5b27 ∨ op = 0x5b80 then
    -- `Release`, `OpRegion`
    (decodeName S turns s).map fun (_, s) => { i with stream := s }
  else if op = 0x5b81 then
    -- `Field`
    let (_, s) := decodePkgLength S s
    (decodeName S turns s).bind fun (name, s) =>
      let (_, s) := S.readU8 s
      (parseField S turns s).map fun s => { (i.createNameSpace stale name).2 with stream := s }
  else if op = 0x5b82 then i.deferBlock S stale .eDevice (decodeName S turns)
  else if op = 0x98 then
    -- `ToHexString`
    (parseTermArg S turns s).bind fun (_, s) =>
      (parseTermArg S turns s).map fun (_, s) => { i with stream := s }
  else if op = 0xa2 then
    i.deferBlock S stale .eWhile fun s =>
      some (("while".toList.map fun c => UInt8.ofNat c.toNat), s)
  else if isNameSegment (UInt8.ofNat op) ∧ op ≠ 0 then
    (decodeName S turns (S.seek s (S.offset s - 1))).map fun (_, s) => { i with stream := s }
  else some i

/-- `while (s_Context.Stream.Offset() < end) ExecuteOpCode()`. -/
def executeBlock (turns endOffset : ℕ) : ℕ → Interpreter σ → Option (Interpreter σ)
  | 0, i => if S.offset i.stream < endOffset then none else some i
  | n + 1, i =>
    if S.offset i.stream < endOffset then
      (executeOpCode S stale turns i).bind (executeBlock turns endOffset n)
    else some i

/-- `while (!s_ScopesToParse.Empty())`. -/
def executeScopes (discardMethods : Bool) (turns : ℕ) : ℕ → Interpreter σ → Option (Interpreter σ)
  | 0, i => if i.scopesToParse = [] then some i else none
  | n + 1, i =>
    match i.scopesToParse with
    | [] => some i
    | scope :: scopes =>
      let i := { i with
        scopesToParse := scopes
        currentBlock := scope
        stream := S.seek i.stream scope.start }
      let type := i.nameSpaces[scope.nameSpace]?.map NameSpace.type
      if type = some .eMethod ∧ discardMethods then executeScopes discardMethods turns n i
      else
        (executeBlock S stale turns scope.endOffset turns i).bind
          (executeScopes discardMethods turns n)

/-- `ExecuteTable`, for the bytes of a table. Its `Length` is the number of them. -/
def executeTable (discardMethods : Bool) (turns : ℕ) (i : Interpreter σ) (table : List UInt8) :
    Option (Interpreter σ) :=
  let i :=
    if i.nameSpaces = [] then
      let block : CodeBlock := ⟨0, headerSize, wordSub table.length headerSize⟩
      { i with
        nameSpaces := [⟨[0x5c], [], .eUndefined, none⟩]
        scopesToParse := block :: i.scopesToParse }
    else i
  executeScopes S stale discardMethods turns turns { i with stream := S.make table }

end Interpreter

/-! ## Definitions -/

/-- The characters of a name, and those that it can start with. -/
def isLeadNameChar (c : UInt8) : Bool := (0x41 ≤ c ∧ c ≤ 0x5a) ∨ c = 0x5f

def isNameChar (c : UInt8) : Bool := isLeadNameChar c ∨ (0x30 ≤ c ∧ c ≤ 0x39)

/-- A segment of a name. -/
structure NameSeg where
  lead : UInt8
  second : UInt8
  third : UInt8
  fourth : UInt8
  isLead : isLeadNameChar lead
  isName : isNameChar second ∧ isNameChar third ∧ isNameChar fourth

def NameSeg.bytes (s : NameSeg) : List UInt8 := [s.lead, s.second, s.third, s.fourth]

/-- The part of a name behind the root and the parents. -/
inductive NamePath
  | null
  | segment (s : NameSeg)
  | dual (s t : NameSeg)
  | multi (segs : List NameSeg) (length_lt : segs.length < 256)

namespace NamePath

def bytes : NamePath → List UInt8
  | null => [0x00]
  | segment s => s.bytes
  | dual s t => 0x2e :: (s.bytes ++ t.bytes)
  | multi segs _ => 0x2f :: UInt8.ofNat segs.length :: segs.flatMap NameSeg.bytes

def segments : NamePath → List NameSeg
  | null => []
  | segment s => [s]
  | dual s t => [s, t]
  | multi segs _ => segs

end NamePath

/-- A name in a stream. It has a character at least. -/
structure NameString where
  root : Bool
  parents : ℕ
  path : NamePath
  named : root = true ∨ 0 < parents ∨ path.segments ≠ []

namespace NameString

def bytes (n : NameString) : List UInt8 :=
  (if n.root then [0x5c] else []) ++ (List.replicate n.parents 0x5e ++ n.path.bytes)

/-- The name that is decoded. -/
def name (n : NameString) : List UInt8 :=
  (if n.root then [0x5c] else []) ++
    (List.replicate n.parents 0x5e ++ n.path.segments.flatMap NameSeg.bytes)

theorem name_ne_nil (n : NameString) : n.name ≠ [] := by
  obtain ⟨root, parents, p, hroot | hparents | hsegments⟩ := n
  · simp [name, hroot]
  · simp [name, hparents.ne']
  · obtain ⟨s, segs, hcons⟩ := List.exists_cons_of_ne_nil hsegments
    simp [name, hcons, NameSeg.bytes]

end NameString

/-- The definitions that have definitions in them. -/
inductive PackageKind
  | scope | device
  deriving DecidableEq, Repr

namespace PackageKind

def op : PackageKind → List UInt8
  | scope => [0x10]
  | device => [0x5b, 0x82]

def type : PackageKind → ObjectType
  | scope => .eScope
  | device => .eDevice

end PackageKind

/-- A definition. `following` are the bytes behind the first one of its package length. -/
inductive Definition
  | name (label : NameString) (value : IntegerEncoding)
  | package (kind : PackageKind) (following : ℕ) (label : NameString) (body : List Definition)
  | method (following : ℕ) (label : NameString) (flags : UInt8) (code : List UInt8)

/-- A package: its length, which counts itself, and what is in it. -/
def packageBytes (following : ℕ) (content : List UInt8) : List UInt8 :=
  encodePkgLength following (following + 1 + content.length) ++ content

mutual

def Definition.bytes : Definition → List UInt8
  | .name label value => 0x08 :: (label.bytes ++ value.bytes)
  | .package kind following label body =>
    kind.op ++ packageBytes following (label.bytes ++ bytesOf body)
  | .method following label flags code =>
    0x14 :: packageBytes following (label.bytes ++ flags :: code)

/-- The bytes of definitions one after the other. -/
def bytesOf : List Definition → List UInt8
  | [] => []
  | d :: defs => d.bytes ++ bytesOf defs

end

/-! ## Names are decoded -/

theorem isNameChar_of_isLead {c : UInt8} (h : isLeadNameChar c) : isNameChar c := by
  rw [isNameChar, decide_eq_true_eq]
  exact Or.inl h

theorem ne_zero_of_isNameChar {c : UInt8} (h : isNameChar c) : c ≠ 0 := by
  rintro rfl
  exact absurd h (by decide)

/-- Nothing that the interpreter looks for in front of a segment starts one. -/
theorem ne_of_isLeadNameChar {c d : UInt8} (h : isLeadNameChar c) (hd : isLeadNameChar d = false) :
    c ≠ d := by
  rintro rfl
  exact absurd (h.symm.trans hd) (by decide)

/-- The first byte of a path is neither the root nor a parent. -/
theorem NamePath.bytes_eq_cons (p : NamePath) :
    ∃ c tail, p.bytes = c :: tail ∧ c ≠ 0x5c ∧ c ≠ 0x5e := by
  cases p with
  | null => exact ⟨_, _, rfl, by decide, by decide⟩
  | segment s =>
    exact ⟨_, _, rfl, ne_of_isLeadNameChar s.isLead (by decide),
      ne_of_isLeadNameChar s.isLead (by decide)⟩
  | dual s t => exact ⟨_, _, rfl, by decide, by decide⟩
  | multi segs h => exact ⟨_, _, rfl, by decide, by decide⟩

section Names

variable {σ : Type} {S : ByteStream σ} {s : σ} {data : List UInt8} {pos turns : ℕ}

theorem decodeNameSegment_at (hS : S.Lawful) (h : S.At s data pos) (seg : NameSeg)
    (hnext : seg.bytes <+: data.drop pos) :
    ∃ s', decodeNameSegment S s = (seg.bytes, s') ∧ S.At s' data (pos + 4) := by
  obtain ⟨hlead, hnext⟩ := ByteStream.isPrefix_of_cons hnext
  obtain ⟨hsecond, hnext⟩ := ByteStream.isPrefix_of_cons hnext
  obtain ⟨hthird, hfourth⟩ := ByteStream.isPrefix_of_cons hnext
  obtain ⟨s₁, hread₁, hat₁⟩ := h.readU8 hS hlead
  obtain ⟨s₂, hread₂, hat₂⟩ := hat₁.readU8 hS hsecond
  obtain ⟨s₃, hread₃, hat₃⟩ := hat₂.readU8 hS hthird
  obtain ⟨s₄, hread₄, hat₄⟩ := hat₃.readU8 hS hfourth
  have hall : ∀ c ∈ [seg.lead, seg.second, seg.third, seg.fourth], decide (c ≠ 0) = true := by
    intro c hc
    refine decide_eq_true (ne_zero_of_isNameChar ?_)
    simp only [List.mem_cons, List.not_mem_nil, or_false] at hc
    rcases hc with rfl | rfl | rfl | rfl
    · exact isNameChar_of_isLead seg.isLead
    · exact seg.isName.1
    · exact seg.isName.2.1
    · exact seg.isName.2.2
  refine ⟨s₄, ?_, hat₄⟩
  simp only [decodeNameSegment, hread₁, hread₂, hread₃, hread₄]
  rw [List.takeWhile_eq_self_iff.mpr hall]
  rfl

/-- The last loop of `DecodeName`, by induction on the segments. -/
theorem addSegment_loop (hS : S.Lawful) (h : S.At s data pos) (segs : List NameSeg)
    (hnext : segs.flatMap NameSeg.bytes <+: data.drop pos) (name : List UInt8) (l : List ℕ)
    (hl : l.length = segs.length) :
    ∃ s', l.foldl (addSegment S) (name, s) = (name ++ segs.flatMap NameSeg.bytes, s') ∧
      S.At s' data (pos + (segs.flatMap NameSeg.bytes).length) := by
  induction segs generalizing s pos name l with
  | nil =>
    obtain rfl := List.eq_nil_of_length_eq_zero hl
    exact ⟨s, by rw [List.flatMap_nil, List.append_nil]; rfl, h⟩
  | cons seg segs ih =>
    cases l with
    | nil => exact absurd hl.symm (Nat.succ_ne_zero _)
    | cons _ l =>
      rw [List.flatMap_cons] at hnext
      obtain ⟨hfirst, hrest⟩ := ByteStream.isPrefix_of_append hnext
      obtain ⟨s', hdecode, hat⟩ := decodeNameSegment_at hS h seg hfirst
      obtain ⟨s'', hloop, hat⟩ := ih hat hrest (name ++ seg.bytes) l (Nat.succ.inj hl)
      refine ⟨s'', ?_, ?_⟩
      · rw [List.foldl_cons, addSegment, hdecode]
        dsimp only
        rw [hloop, List.flatMap_cons, List.append_assoc]
      · rw [List.flatMap_cons, List.length_append, ← Nat.add_assoc]
        exact hat

theorem decodeParents_at (hS : S.Lawful) (h : S.At s data pos) {parents : ℕ} {c : UInt8}
    {tail : List UInt8} (hc : c ≠ 0x5e)
    (hnext : List.replicate parents 0x5e ++ c :: tail <+: data.drop pos)
    (hturns : parents < turns) (name : List UInt8) :
    ∃ s', decodeParents S turns name s = some (name ++ List.replicate parents 0x5e, s') ∧
      S.At s' data (pos + parents) := by
  induction parents generalizing s pos turns name with
  | zero =>
    cases turns with
    | zero => exact absurd hturns (Nat.not_lt_zero 0)
    | succ turns =>
      obtain ⟨s', hpeek, hat⟩ := h.peekNextByte hS (ByteStream.isPrefix_of_cons hnext).1
      refine ⟨s', ?_, hat⟩
      rw [decodeParents, hpeek]
      dsimp only
      rw [if_neg hc]
      exact congrArg (fun n => some (n, s')) (List.append_nil name).symm
  | succ parents ih =>
    cases turns with
    | zero => exact absurd hturns (Nat.not_lt_zero _)
    | succ turns =>
      rw [List.replicate_succ, List.cons_append] at hnext
      obtain ⟨hfirst, hrest⟩ := ByteStream.isPrefix_of_cons hnext
      obtain ⟨s₁, hpeek, hat⟩ := h.peekNextByte hS hfirst
      obtain ⟨s₂, hread, hat⟩ := hat.readU8 hS hfirst
      obtain ⟨s₃, hloop, hat⟩ := ih hat hrest (Nat.lt_of_succ_lt_succ hturns) (name ++ [0x5e])
      refine ⟨s₃, ?_, by rwa [Nat.add_assoc, Nat.add_comm 1] at hat⟩
      rw [decodeParents, hpeek]
      dsimp only
      rw [if_pos rfl, hread]
      dsimp only
      rw [hloop, List.append_assoc, List.singleton_append, ← List.replicate_succ]

/-- The bytes of a path are those in front of its segments, and the segments. -/
theorem decodeSegmentCount_at (hS : S.Lawful) (h : S.At s data pos) (p : NamePath)
    (hnext : p.bytes <+: data.drop pos) :
    ∃ s' front, decodeSegmentCount S s = (p.segments.length, s') ∧ S.At s' data (pos + front) ∧
      p.segments.flatMap NameSeg.bytes <+: data.drop (pos + front) ∧
      front + (p.segments.flatMap NameSeg.bytes).length = p.bytes.length := by
  cases p with
  | null =>
    obtain ⟨s₁, hpeek, hat₁⟩ := h.peekNextByte hS hnext
    obtain ⟨s₂, hread, hat₂⟩ := hat₁.readU8 hS hnext
    refine ⟨s₂, 1, ?_, hat₂, List.nil_prefix, rfl⟩
    rw [decodeSegmentCount, hpeek]
    dsimp only
    rw [if_pos rfl, hread]
    rfl
  | segment seg =>
    have hlead : [seg.lead] <+: data.drop pos := (ByteStream.isPrefix_of_cons hnext).1
    have hne : ∀ d : UInt8, isLeadNameChar d = false → seg.lead ≠ d :=
      fun d hd => ne_of_isLeadNameChar seg.isLead hd
    obtain ⟨s₁, hpeek₁, hat₁⟩ := h.peekNextByte hS hlead
    obtain ⟨s₂, hpeek₂, hat₂⟩ := hat₁.peekNextByte hS hlead
    obtain ⟨s₃, hpeek₃, hat₃⟩ := hat₂.peekNextByte hS hlead
    refine ⟨s₃, 0, ?_, hat₃, ?_, ?_⟩
    · simp only [decodeSegmentCount, hpeek₁, hpeek₂, hpeek₃, if_neg (hne 0x00 (by decide)),
        if_neg (hne 0x2e (by decide)), if_neg (hne 0x2f (by decide))]
      rfl
    · exact hnext
    · exact Nat.zero_add _
  | dual seg seg' =>
    obtain ⟨hfirst, hrest⟩ := ByteStream.isPrefix_of_cons hnext
    obtain ⟨s₁, hpeek₁, hat₁⟩ := h.peekNextByte hS hfirst
    obtain ⟨s₂, hpeek₂, hat₂⟩ := hat₁.peekNextByte hS hfirst
    obtain ⟨s₃, hread, hat₃⟩ := hat₂.readU8 hS hfirst
    refine ⟨s₃, 1, ?_, hat₃, ?_, rfl⟩
    · simp only [decodeSegmentCount, hpeek₁, hpeek₂, hread]
      rfl
    · exact hrest
  | multi segs hlength =>
    obtain ⟨hfirst, hrest⟩ := ByteStream.isPrefix_of_cons hnext
    obtain ⟨hcount, hsegs⟩ := ByteStream.isPrefix_of_cons hrest
    obtain ⟨s₁, hpeek₁, hat₁⟩ := h.peekNextByte hS hfirst
    obtain ⟨s₂, hpeek₂, hat₂⟩ := hat₁.peekNextByte hS hfirst
    obtain ⟨s₃, hpeek₃, hat₃⟩ := hat₂.peekNextByte hS hfirst
    obtain ⟨s₄, hread₄, hat₄⟩ := hat₃.readU8 hS hfirst
    obtain ⟨s₅, hread₅, hat₅⟩ := hat₄.readU8 hS hcount
    refine ⟨s₅, 2, ?_, hat₅, hsegs, ?_⟩
    · have hnat : (UInt8.ofNat segs.length).toNat = segs.length := by
        rw [UInt8.toNat_ofNat', Nat.mod_eq_of_lt hlength]
      simp only [decodeSegmentCount, hpeek₁, hpeek₂, hpeek₃, hread₄, hread₅, hnat]
      rfl
    · simp only [NamePath.segments, NamePath.bytes, List.length_cons]
      omega

/-- The loops of `DecodeName`, behind the root. -/
theorem decodePath_at (hS : S.Lawful) (h : S.At s data pos) (parents : ℕ) (p : NamePath)
    (hnext : List.replicate parents 0x5e ++ p.bytes <+: data.drop pos) (hturns : parents < turns)
    (name : List UInt8) :
    ∃ s₁ n s₂ s₃, decodeParents S turns name s =
        some (name ++ List.replicate parents 0x5e, s₁) ∧
      decodeSegmentCount S s₁ = (n, s₂) ∧
      (List.range n).foldl (addSegment S) (name ++ List.replicate parents 0x5e, s₂) =
        (name ++ List.replicate parents 0x5e ++ p.segments.flatMap NameSeg.bytes, s₃) ∧
      S.At s₃ data (pos + (parents + p.bytes.length)) := by
  obtain ⟨c, tail, hcons, -, hc⟩ := p.bytes_eq_cons
  have hparents := hnext
  rw [hcons] at hparents
  obtain ⟨s₁, hparents, hat⟩ := decodeParents_at hS h hc hparents hturns name
  have hpath := (ByteStream.isPrefix_of_append hnext).2
  rw [List.length_replicate] at hpath
  obtain ⟨s₂, front, hcount, hat, hsegs, hlength⟩ := decodeSegmentCount_at hS hat p hpath
  obtain ⟨s₃, hloop, hat⟩ := addSegment_loop hS hat p.segments hsegs
    (name ++ List.replicate parents 0x5e) (List.range p.segments.length) List.length_range
  refine ⟨s₁, _, s₂, s₃, hparents, hcount, hloop, ?_⟩
  rwa [Nat.add_assoc, hlength, Nat.add_assoc] at hat

/-- A name is decoded into its characters. -/
theorem decodeName_at (hS : S.Lawful) (h : S.At s data pos) (n : NameString)
    (hnext : n.bytes <+: data.drop pos) (hturns : n.bytes.length ≤ turns) :
    ∃ s', decodeName S turns s = some (n.name, s') ∧ S.At s' data (pos + n.bytes.length) := by
  obtain ⟨root, parents, p, named⟩ := n
  obtain ⟨c, tail, hcons, hroot, hparent⟩ := p.bytes_eq_cons
  have hfuel : parents < turns := by
    simp only [NameString.bytes, List.length_append, List.length_replicate, hcons,
      List.length_cons] at hturns
    omega
  cases root with
  | true =>
    simp only [NameString.bytes, if_true, List.singleton_append] at hnext
    obtain ⟨hfirst, hrest⟩ := ByteStream.isPrefix_of_cons hnext
    obtain ⟨s₁, hpeek, hat⟩ := h.peekNextByte hS hfirst
    obtain ⟨s₂, hread, hat⟩ := hat.readU8 hS hfirst
    obtain ⟨s₃, count, s₄, s₅, hparents, hcount, hloop, hat⟩ :=
      decodePath_at hS hat parents p hrest hfuel [0x5c]
    refine ⟨s₅, ?_, ?_⟩
    · simp only [decodeName, hpeek, if_true, hread, hparents, Option.map_some, hcount, hloop]
      rfl
    · have hlength : (NameString.mk true parents p named).bytes.length =
          1 + (parents + p.bytes.length) := by
        simp only [NameString.bytes, if_true, List.length_append, List.length_replicate,
          List.length_singleton]
      rwa [hlength, ← Nat.add_assoc]
  | false =>
    simp only [NameString.bytes, Bool.false_eq_true, if_false, List.nil_append] at hnext
    obtain ⟨first, rest, hfirst, hne⟩ : ∃ first rest,
        List.replicate parents 0x5e ++ p.bytes = first :: rest ∧ first ≠ 0x5c := by
      cases parents with
      | zero => exact ⟨c, tail, hcons, hroot⟩
      | succ parents => exact ⟨0x5e, _, rfl, by decide⟩
    obtain ⟨s₁, hpeek, hat⟩ :=
      h.peekNextByte hS (ByteStream.isPrefix_of_cons (hfirst ▸ hnext)).1
    obtain ⟨s₃, count, s₄, s₅, hparents, hcount, hloop, hat⟩ :=
      decodePath_at hS hat parents p hnext hfuel []
    refine ⟨s₅, ?_, ?_⟩
    · simp only [decodeName, hpeek, if_neg hne, hparents, Option.map_some, hcount, hloop]
      rfl
    · have hlength : (NameString.mk false parents p named).bytes.length =
          parents + p.bytes.length := by
        simp only [NameString.bytes, Bool.false_eq_true, if_false, List.nil_append,
          List.length_append, List.length_replicate]
      rwa [hlength]

end Names

/-! ## What a definition block defines -/

namespace Definition

def label : Definition → NameString
  | name label _ => label
  | package _ _ label _ => label
  | method _ label _ _ => label

/-- The type of the object that is defined. -/
def type : Definition → ObjectType
  | name _ _ => .eName
  | package kind _ _ _ => kind.type
  | method _ _ _ _ => .eMethod

/-- The package length of a definition can be encoded. -/
def Fits : Definition → Prop
  | name _ _ => True
  | package _ following label body =>
    PkgLengthFits following (following + 1 + (label.bytes ++ bytesOf body).length)
  | method following label flags code =>
    PkgLengthFits following (following + 1 + (label.bytes ++ flags :: code).length)

end Definition

/-- The definitions at any depth. -/
inductive Within : List Definition → Definition → Prop
  | here {defs : List Definition} {d : Definition} (h : d ∈ defs) : Within defs d
  | inside {defs body : List Definition} {kind : PackageKind} {following : ℕ} {label : NameString}
    {d : Definition} (hmem : .package kind following label body ∈ defs) (h : Within body d) :
    Within defs d

/-- The names on the way from the root to a node. -/
abbrev Path := List (List UInt8)

/-- A definition block defines a name with a type. -/
inductive Defines : List Definition → Path → ObjectType → Prop
  | here {defs : List Definition} {d : Definition} (h : d ∈ defs) :
    Defines defs [d.label.name] d.type
  | inside {defs body : List Definition} {kind : PackageKind} {following : ℕ} {label : NameString}
    {p : Path} {t : ObjectType} (hmem : .package kind following label body ∈ defs)
    (h : Defines body p t) : Defines defs (label.name :: p) t

/-- Where a node is. -/
inductive At (nodes : List NameSpace) : Path → ℕ → Prop
  | root : At nodes [] 0
  | child {p : Path} {k c : ℕ} {node : NameSpace} (parent : At nodes p k)
    (mem : c ∈ childrenOf nodes k) (there : nodes[c]? = some node) :
    At nodes (p ++ [node.name]) c

/-- Every name that is defined has one node, with its type, below the node of the definition around
it, and there are no other nodes. -/
def Matches (defs : List Definition) (nodes : List NameSpace) : Prop :=
  ∀ p ≠ [],
    (∀ t, Defines defs p t → ∃ k, At nodes p k ∧ nodes[k]?.map NameSpace.type = some t ∧
      ∀ k', At nodes p k' → k' = k) ∧
    ∀ k, At nodes p k → ∃ t, Defines defs p t

/-- The lengths of the names of definitions. -/
def nameLengths (defs : List Definition) : List ℕ := defs.map fun d => d.label.name.length

/-- In every place the names have different lengths. -/
def Varied (defs : List Definition) : Prop :=
  (nameLengths defs).Nodup ∧ ∀ kind following label body,
    Within defs (.package kind following label body) → (nameLengths body).Nodup

/-- No name is defined with two types in one place. -/
def Consistent (defs : List Definition) : Prop :=
  ∀ p t t', Defines defs p t → Defines defs p t' → t = t'

/-- A byte that the interpreter passes over where an operator should be. -/
def Inert (b : UInt8) : Prop :=
  b ∉ [0x08, 0x10, 0x14, 0x5b, 0x98, 0xa2] ∧ ¬(isNameSegment b ∧ b ≠ 0)

/-- What is left of a definition after its operator has been executed does nothing: the bytes that
`CreateNamedObject` leaves of an integer, and a method that is not discarded. -/
def Definition.Quiet (discardMethods : Bool) : Definition → Prop
  | .name _ value => ∀ b ∈ value.bytes.drop value.taken, Inert b
  | .package _ _ _ _ => True
  | .method _ _ flags code => discardMethods ∨ ∀ b ∈ flags :: code, Inert b

/-- The definitions that start in front of `limit`, from `pos` on. -/
def startingBefore (limit : ℕ) : ℕ → List Definition → List Definition
  | _, [] => []
  | pos, d :: defs =>
    if pos < limit then d :: startingBefore limit (pos + d.bytes.length) defs else []

/-! ### Nodes -/

/-- A node is put below another one, as its last child. -/
def addNode (nodes : List NameSpace) (parent : ℕ) (node : NameSpace) : List NameSpace :=
  nodes.modify parent (fun ns => { ns with children := ns.children ++ [nodes.length] }) ++ [node]

section Nodes

variable {nodes : List NameSpace} {node : NameSpace} {parent k : ℕ}

theorem modify_congr {f g : NameSpace → NameSpace}
    (h : ∀ ns, nodes[k]? = some ns → f ns = g ns) : nodes.modify k f = nodes.modify k g := by
  refine List.ext_getElem? fun j => ?_
  rw [List.getElem?_modify, List.getElem?_modify]
  by_cases hj : k = j
  · subst hj
    simp only [if_true]
    exact Option.map_congr fun ns hns => h ns hns
  · simp only [if_neg hj]

@[simp] theorem length_addNode : (addNode nodes parent node).length = nodes.length + 1 := by
  simp [addNode]

theorem modify_addNode (nodes : List NameSpace) (parent : ℕ) (node : NameSpace)
    (f : NameSpace → NameSpace) :
    (addNode nodes parent node).modify nodes.length f = addNode nodes parent (f node) := by
  refine List.ext_getElem? fun j => ?_
  rw [List.getElem?_modify, addNode, addNode, List.getElem?_append, List.getElem?_append,
    List.length_modify]
  by_cases hj : nodes.length = j
  · subst hj
    simp
  · simp only [if_neg hj, Option.map_eq_map, Option.map_id']
    split
    · rfl
    · rw [List.getElem?_eq_none, List.getElem?_eq_none] <;> simp <;> omega

theorem getElem?_addNode_self : (addNode nodes parent node)[nodes.length]? = some node := by
  rw [addNode, List.getElem?_append_right (by simp)]
  simp

theorem getElem?_addNode_of_lt (hk : k < nodes.length) :
    (addNode nodes parent node)[k]? = nodes[k]?.map fun ns =>
      if parent = k then { ns with children := ns.children ++ [nodes.length] } else ns := by
  rw [addNode, List.getElem?_append_left (by simpa using hk), List.getElem?_modify]
  split <;> rfl

theorem childrenOf_of_le (hk : nodes.length ≤ k) : childrenOf nodes k = [] := by
  rw [childrenOf, List.getElem?_eq_none hk]
  rfl

theorem childrenOf_addNode (hparent : parent < nodes.length) (hnode : node.children = []) :
    childrenOf (addNode nodes parent node) k =
      if k = parent then childrenOf nodes k ++ [nodes.length] else childrenOf nodes k := by
  rcases Nat.lt_trichotomy k nodes.length with hk | rfl | hk
  · rw [childrenOf, childrenOf, getElem?_addNode_of_lt hk, List.getElem?_eq_getElem hk]
    by_cases hp : k = parent
    · rw [if_pos hp, Option.map_some, if_pos hp.symm]
      rfl
    · rw [if_neg hp, Option.map_some, if_neg (Ne.symm hp)]
  · rw [if_neg hparent.ne', childrenOf_of_le (Nat.le_refl _), childrenOf, getElem?_addNode_self]
    exact hnode
  · rw [if_neg (hparent.trans hk).ne', childrenOf_of_le hk.le, childrenOf_of_le]
    rw [length_addNode]
    omega

theorem nameAt_addNode_self : nameAt (addNode nodes parent node) nodes.length = node.name := by
  rw [nameAt, getElem?_addNode_self]
  rfl

theorem nameAt_addNode_of_lt (hk : k < nodes.length) :
    nameAt (addNode nodes parent node) k = nameAt nodes k := by
  rw [nameAt, nameAt, getElem?_addNode_of_lt hk, Option.map_map]
  congr 2
  funext ns
  rw [Function.comp_apply]
  split <;> rfl

/-! ### Keys -/

/-- A key is not taken for a name of another length. -/
theorem keyOf_ne_of_length {memory : ℕ → ℕ → UInt8} {name : List UInt8}
    (h : (nameAt nodes k).length ≠ name.length) : keyOf memory nodes k ≠ name := by
  rintro rfl
  exact h (by rw [keyOf, List.length_map, List.length_range])

theorem keyOf_never {name : List UInt8} (h : name ≠ []) :
    keyOf (fun _ j => name.getD j 0 + 1) nodes k ≠ name := by
  obtain ⟨a, l, rfl⟩ := List.exists_cons_of_ne_nil h
  rw [keyOf]
  intro heq
  cases hlength : (nameAt nodes k).length with
  | zero => simp [hlength] at heq
  | succ n =>
    rw [hlength, List.range_succ_eq_map, List.map_cons] at heq
    exact absurd (List.cons.inj heq).1 (by simp)

/-- Names of other lengths than those of definitions are below a node. -/
structure Unlike (nodes : List NameSpace) (parent : ℕ) (defs : List Definition) : Prop where
  parent_lt : parent < nodes.length
  lt : ∀ c ∈ childrenOf nodes parent, c < nodes.length
  unlike : ∀ c ∈ childrenOf nodes parent, (nameAt nodes c).length ∉ nameLengths defs
  nodup : (nameLengths defs).Nodup

theorem Unlike.addNode {d : Definition} {defs : List Definition}
    (h : Unlike nodes parent (d :: defs)) {node : NameSpace} (hname : node.name = d.label.name)
    (hnode : node.children = []) :
    Unlike (addNode nodes parent node) parent defs := by
  have hnodup := List.nodup_cons.mp h.nodup
  have hchildren : ∀ c ∈ childrenOf (ACPI.addNode nodes parent node) parent,
      c ∈ childrenOf nodes parent ∨ c = nodes.length := fun c hc => by
    rw [childrenOf_addNode h.parent_lt hnode, if_pos rfl] at hc
    simpa using hc
  refine ⟨?_, fun c hc => ?_, fun c hc => ?_, hnodup.2⟩
  · rw [length_addNode]
    exact Nat.lt_succ_of_lt h.parent_lt
  · rw [length_addNode]
    rcases hchildren c hc with hc | rfl
    · exact Nat.lt_succ_of_lt (h.lt c hc)
    · exact Nat.lt_succ_self _
  · rcases hchildren c hc with hc | rfl
    · rw [nameAt_addNode_of_lt (h.lt c hc)]
      exact fun hmem => h.unlike c hc (List.mem_cons_of_mem _ hmem)
    · rw [nameAt_addNode_self, hname]
      exact hnodup.1

end Nodes

namespace Interpreter

variable {σ : Type} {S : ByteStream σ} {stale : Stale σ} {i : Interpreter σ} {data : List UInt8}
  {pos turns : ℕ}

/-! ### One operator -/

/-- No key in the current block is taken for a name. -/
def Apart (stale : Stale σ) (i : Interpreter σ) (name : List UInt8) : Prop :=
  stale = .never ∧ name ≠ [] ∨ ∀ c ∈ childrenOf i.nameSpaces i.currentBlock.nameSpace,
    (nameAt i.nameSpaces c).length ≠ name.length

theorem getNextOp_at {s : σ} {b : UInt8} (hS : S.Lawful) (h : S.At s data pos)
    (hnext : [b] <+: data.drop pos) (hb : b ≠ 0x5b) :
    ∃ s', S.getNextOp s = (b.toNat, s') ∧ S.At s' data (pos + 1) := by
  obtain ⟨s', hread, hat⟩ := h.readU8 hS hnext
  exact ⟨s', by rw [ByteStream.getNextOp, hread]; exact if_neg hb, hat⟩

/-- The interpreter has a new node in the current block, and is otherwise as before. -/
structure Recorded (i i' : Interpreter σ) (name : List UInt8) (type : ObjectType) : Prop where
  nodes_eq : ∃ object, i'.nameSpaces =
    addNode i.nameSpaces i.currentBlock.nameSpace ⟨name, [], type, object⟩
  currentBlock_eq : i'.currentBlock = i.currentBlock

theorem createNameSpace_eq {name : List UInt8} (h : Apart stale i name) :
    i.createNameSpace stale name = (i.nameSpaces.length, { i with
      nameSpaces := addNode i.nameSpaces i.currentBlock.nameSpace ⟨name, [], .eUndefined, none⟩ })
    := by
  have hkey : ∀ c ∈ childrenOf i.nameSpaces i.currentBlock.nameSpace,
      keyOf (stale.find i name) i.nameSpaces c ≠ name ∧
        keyOf (stale.entry i name) i.nameSpaces c ≠ name := by
    rcases h with ⟨rfl, hname⟩ | hlength
    · exact fun c _ => ⟨keyOf_never hname, keyOf_never hname⟩
    · exact fun c hc => ⟨keyOf_ne_of_length (hlength c hc), keyOf_ne_of_length (hlength c hc)⟩
  have hfind : (childrenOf i.nameSpaces i.currentBlock.nameSpace).find?
      (keyOf (stale.find i name) i.nameSpaces · = name) = none :=
    List.find?_eq_none.mpr fun c hc => by simpa using (hkey c hc).1
  rw [createNameSpace, hfind]
  simp only [addNode]
  rw [modify_congr fun ns hns => ?_]
  have hchildren : childrenOf i.nameSpaces i.currentBlock.nameSpace = ns.children := by
    rw [childrenOf, hns]
    rfl
  have hentry : ns.children.findIdx? (keyOf (stale.entry i name) i.nameSpaces · = name) = none :=
    List.findIdx?_eq_none_iff.mpr fun c hc => by simpa using (hkey c (hchildren ▸ hc)).2
  rw [putChild, hentry]

/-- A node that is written to behind `CreateNameSpace`. -/
theorem recorded_createNameSpace {name : List UInt8} (h : Apart stale i name)
    {f : NameSpace → NameSpace} {type : ObjectType} {object : Option ℕ}
    (hf : f ⟨name, [], .eUndefined, none⟩ = ⟨name, [], type, object⟩) :
    Recorded i ((i.createNameSpace stale name).2.modify (i.createNameSpace stale name).1 f)
      name type := by
  rw [createNameSpace_eq h]
  refine ⟨⟨object, ?_⟩, rfl⟩
  rw [← hf]
  exact modify_addNode _ _ _ f

theorem executeOpCode_inert (hS : S.Lawful) (h : S.At i.stream data pos) {b : UInt8}
    (hb : Inert b) (hnext : [b] <+: data.drop pos) (turns : ℕ) :
    ∃ s', executeOpCode S stale turns i = some { i with stream := s' } ∧
      S.At s' data (pos + 1) := by
  obtain ⟨hop, hname⟩ := hb
  simp only [List.mem_cons, List.not_mem_nil, or_false, not_or] at hop
  obtain ⟨h₁, h₂, h₃, h₄, h₅, h₆⟩ := hop
  obtain ⟨s', hread, hat⟩ := getNextOp_at hS h hnext h₄
  have hlt := b.toNat_lt
  have hne : ∀ {c : UInt8}, b ≠ c → b.toNat ≠ c.toNat := fun hc heq => hc (UInt8.toNat_inj.mp heq)
  have hnameOp : b.toNat ≠ 0x08 := hne h₁
  have hscope : b.toNat ≠ 0x10 := hne h₂
  have hmethod : b.toNat ≠ 0x14 := hne h₃
  have hhex : b.toNat ≠ 0x98 := hne h₅
  have hwhile : b.toNat ≠ 0xa2 := hne h₆
  have hlarge : ∀ op, 256 ≤ op → b.toNat ≠ op := fun op hop => by omega
  have hzero : ¬(isNameSegment (UInt8.ofNat b.toNat) ∧ b.toNat ≠ 0) := by
    rw [UInt8.ofNat_toNat]
    exact fun hn => hname ⟨hn.1, fun hb => hn.2 (by rw [hb]; rfl)⟩
  refine ⟨s', ?_, hat⟩
  rw [executeOpCode, hread]
  dsimp only
  rw [if_neg hnameOp, if_neg hscope, if_neg hmethod, if_neg (hlarge _ (by decide)),
    if_neg (not_or.mpr ⟨hlarge _ (by decide), hlarge _ (by decide)⟩), if_neg (hlarge _ (by decide)),
    if_neg (hlarge _ (by decide)), if_neg hhex, if_neg hwhile, if_neg hzero]

/-- A block is put on the work list. -/
theorem deferBlock_at (hS : S.Lawful) (h : S.At i.stream data pos) (type : ObjectType)
    (following : ℕ) (label : NameString) (content : List UInt8)
    (hapart : Apart stale i label.name)
    (hfits : PkgLengthFits following (following + 1 + (label.bytes ++ content).length))
    (hnext : packageBytes following (label.bytes ++ content) <+: data.drop pos)
    (hturns : data.length ≤ turns) :
    ∃ i', i.deferBlock S stale type (decodeName S turns) = some i' ∧
      Recorded i i' label.name type ∧
      i'.scopesToParse = ⟨i.nameSpaces.length,
        pos + (following + 1 + label.bytes.length),
        pos + (packageBytes following (label.bytes ++ content)).length⟩ :: i.scopesToParse ∧
      S.At i'.stream data (pos + (packageBytes following (label.bytes ++ content)).length) := by
  have hend := h.length_le hnext
  obtain ⟨hlength, hcontent⟩ := ByteStream.isPrefix_of_append hnext
  obtain ⟨s₁, hpkg, hat⟩ := decodePkgLength_at hS h following _ hfits hlength
  obtain ⟨hlabel, -⟩ := ByteStream.isPrefix_of_append hcontent
  have hroom := hat.length_le hlabel
  have hfuel : label.bytes.length ≤ turns := by omega
  obtain ⟨s₂, hname, hat⟩ := decodeName_at hS hat label hlabel hfuel
  have hbytes : (packageBytes following (label.bytes ++ content)).length =
      following + 1 + (label.bytes ++ content).length := by
    rw [packageBytes, List.length_append, length_encodePkgLength]
  rw [hbytes] at hend ⊢
  rw [length_encodePkgLength] at hat
  refine ⟨_, by simp only [deferBlock, hpkg, hname, Option.map_some]; rfl, ?_, ?_, ?_⟩
  · have hrecorded := recorded_createNameSpace hapart
      (f := fun ns => { ns with type }) rfl
    exact ⟨hrecorded.nodes_eq, hrecorded.currentBlock_eq⟩
  · rw [createNameSpace_eq hapart, h.offset_eq, hat.offset_eq, Nat.add_assoc]
  · rw [h.offset_eq]
    exact hat.seek hS hend

end Interpreter

/-- What is in a block: definitions, or a method. -/
inductive Content
  | definitions (defs : List Definition)
  | code (bytes : List UInt8)

def Content.bytes : Content → List UInt8
  | .definitions defs => bytesOf defs
  | .code bytes => bytes

/-- A block of the work list, with its place and what is in it. -/
structure Pending where
  block : CodeBlock
  path : Path
  content : Content

namespace Definition

/-- The bytes that the operator of a definition goes over. -/
def taken : Definition → ℕ
  | name label value => 1 + label.bytes.length + value.taken
  | d@(package _ _ _ _) => d.bytes.length
  | d@(method _ _ _ _) => d.bytes.length

theorem bytes_ne_nil (d : Definition) : d.bytes ≠ [] := by
  cases d with
  | name label value => exact List.cons_ne_nil _ _
  | package kind following label body => cases kind <;> exact List.cons_ne_nil _ _
  | method following label flags code => exact List.cons_ne_nil _ _

theorem taken_pos (d : Definition) : 0 < d.taken := by
  have hbytes := List.length_pos_of_ne_nil d.bytes_ne_nil
  cases d with
  | name label value =>
    rw [taken]
    omega
  | package kind following label body => exact hbytes
  | method following label flags code => exact hbytes

/-- The block that a definition at `pos` with the node `k` puts on the work list. -/
def deferred (path : Path) (k pos : ℕ) : Definition → List Pending
  | name _ _ => []
  | d@(package kind following label body) =>
    [⟨⟨k, pos + (kind.op.length + (following + 1 + label.bytes.length)), pos + d.bytes.length⟩,
      path, .definitions body⟩]
  | d@(method following label flags code) =>
    [⟨⟨k, pos + (1 + (following + 1 + label.bytes.length)), pos + d.bytes.length⟩,
      path, .code (flags :: code)⟩]

end Definition

/-- The blocks that definitions from `pos` on, with nodes from `k` on, put on the work list, the
last one first. -/
def deferredAll (path : Path) : (k pos : ℕ) → List Definition → List Pending
  | _, _, [] => []
  | k, pos, d :: defs =>
    deferredAll path (k + 1) (pos + d.bytes.length) defs ++
      d.deferred (path ++ [d.label.name]) k pos

namespace Interpreter

variable {σ : Type} {S : ByteStream σ} {stale : Stale σ} {i : Interpreter σ} {data : List UInt8}
  {path : Path} {pos turns : ℕ}

/-- The operator of a definition has been executed. -/
structure Executed (S : ByteStream σ) (data : List UInt8) (i : Interpreter σ) (d : Definition)
    (pos : ℕ) (i' : Interpreter σ) : Prop where
  recorded : Recorded i i' d.label.name d.type
  scopes_eq : ∀ path, i'.scopesToParse =
    (d.deferred path i.nameSpaces.length pos).map Pending.block ++ i.scopesToParse
  stream_at : S.At i'.stream data (pos + d.taken)

theorem executeOpCode_name (hS : S.Lawful) (h : S.At i.stream data pos)
    (label : NameString) (hapart : Apart stale i label.name)
    (value : IntegerEncoding) (hnext : (Definition.name label value).bytes <+: data.drop pos)
    (hturns : data.length ≤ turns) :
    ∃ i', executeOpCode S stale turns i = some i' ∧
      Executed S data i (.name label value) pos i' := by
  rw [Definition.bytes] at hnext
  obtain ⟨hop, hrest⟩ := ByteStream.isPrefix_of_cons hnext
  obtain ⟨hlabel, hvalue⟩ := ByteStream.isPrefix_of_append hrest
  obtain ⟨s₁, hread, hat⟩ := getNextOp_at hS h hop (by decide)
  have hroom := hat.length_le hlabel
  have hfuel : label.bytes.length ≤ turns := by omega
  obtain ⟨s₂, hname, hat⟩ := decodeName_at hS hat label hlabel hfuel
  obtain ⟨s₃, hobject, hat⟩ := createNamedObject_integer hS hat value hvalue turns
  have hexecute : executeOpCode S stale turns i = some
      { ({ i with stream := s₁ }.createNameSpace stale label.name).2.modify
          ({ i with stream := s₁ }.createNameSpace stale label.name).1
          (fun ns => { ns with type := .eName, object := some value.object }) with
        stream := s₃ } := by
    rw [executeOpCode, hread]
    simp only [hname, Option.bind_some, hobject, Option.map_some]
    rfl
  have hapart₁ : Apart stale { i with stream := s₁ } label.name := hapart
  refine ⟨_, hexecute, ?_, fun _ => ?_, ?_⟩
  · have hrecorded := recorded_createNameSpace hapart₁
      (f := fun ns => { ns with type := .eName, object := some value.object }) rfl
    exact ⟨hrecorded.nodes_eq, hrecorded.currentBlock_eq⟩
  · rw [createNameSpace_eq hapart₁]
    rfl
  · rwa [Nat.add_assoc, Nat.add_assoc, ← Nat.add_assoc 1] at hat

theorem executeOpCode_package (hS : S.Lawful) (h : S.At i.stream data pos)
    (kind : PackageKind) (following : ℕ) (label : NameString)
    (hapart : Apart stale i label.name) (body : List Definition)
    (hfits : (Definition.package kind following label body).Fits)
    (hnext : (Definition.package kind following label body).bytes <+: data.drop pos)
    (hturns : data.length ≤ turns) :
    ∃ i', executeOpCode S stale turns i = some i' ∧
      Executed S data i (.package kind following label body) pos i' := by
  rw [Definition.bytes] at hnext
  obtain ⟨hop, hrest⟩ := ByteStream.isPrefix_of_append hnext
  obtain ⟨s₁, hexecute, hat⟩ : ∃ s₁, executeOpCode S stale turns i =
      { i with stream := s₁ }.deferBlock S stale kind.type (decodeName S turns) ∧
      S.At s₁ data (pos + kind.op.length) := by
    cases kind with
    | scope =>
      obtain ⟨s₁, hread, hat⟩ := getNextOp_at hS h hop (by decide)
      exact ⟨s₁, by rw [executeOpCode, hread]; rfl, hat⟩
    | device =>
      obtain ⟨hfirst, hsecond⟩ := ByteStream.isPrefix_of_cons hop
      obtain ⟨s₁, hread₁, hat⟩ := h.readU8 hS hfirst
      obtain ⟨s₂, hread₂, hat⟩ := hat.readU8 hS hsecond
      refine ⟨s₂, ?_, hat⟩
      rw [executeOpCode, ByteStream.getNextOp, hread₁]
      simp only [if_true, hread₂]
      rfl
  obtain ⟨i', hdefer, hrecorded, hscopes, hat⟩ :=
    deferBlock_at (i := { i with stream := s₁ }) hS hat kind.type following label _ hapart
      hfits hrest hturns
  have hlength : (Definition.package kind following label body).bytes.length =
      kind.op.length + (packageBytes following (label.bytes ++ bytesOf body)).length := by
    rw [Definition.bytes, List.length_append]
  refine ⟨i', hexecute.trans hdefer, ⟨hrecorded.nodes_eq, hrecorded.currentBlock_eq⟩,
    fun _ => ?_, by rwa [Definition.taken, hlength, ← Nat.add_assoc]⟩
  rw [hscopes]
  simp only [Definition.deferred, hlength, Nat.add_assoc]
  rfl

theorem executeOpCode_method (hS : S.Lawful) (h : S.At i.stream data pos)
    (following : ℕ) (label : NameString) (hapart : Apart stale i label.name) (flags : UInt8)
    (code : List UInt8)
    (hfits : (Definition.method following label flags code).Fits)
    (hnext : (Definition.method following label flags code).bytes <+: data.drop pos)
    (hturns : data.length ≤ turns) :
    ∃ i', executeOpCode S stale turns i = some i' ∧
      Executed S data i (.method following label flags code) pos i' := by
  rw [Definition.bytes] at hnext
  obtain ⟨hop, hrest⟩ := ByteStream.isPrefix_of_cons hnext
  obtain ⟨s₁, hread, hat⟩ := getNextOp_at hS h hop (by decide)
  have hexecute : executeOpCode S stale turns i =
      { i with stream := s₁ }.deferBlock S stale .eMethod (decodeName S turns) := by
    rw [executeOpCode, hread]
    rfl
  obtain ⟨i', hdefer, hrecorded, hscopes, hat⟩ :=
    deferBlock_at (i := { i with stream := s₁ }) hS hat .eMethod following label _ hapart
      hfits hrest hturns
  have hlength : (Definition.method following label flags code).bytes.length =
      1 + (packageBytes following (label.bytes ++ flags :: code)).length := by
    rw [Definition.bytes, List.length_cons, Nat.add_comm]
  refine ⟨i', hexecute.trans hdefer, ⟨hrecorded.nodes_eq, hrecorded.currentBlock_eq⟩,
    fun _ => ?_, by rwa [Definition.taken, hlength, ← Nat.add_assoc]⟩
  rw [hscopes]
  simp only [Definition.deferred, hlength, Nat.add_assoc]
  rfl

/-- One operator of a definition block. -/
theorem executeOpCode_definition (hS : S.Lawful) (h : S.At i.stream data pos)
    (d : Definition) (hapart : Apart stale i d.label.name) (hfits : d.Fits)
    (hnext : d.bytes <+: data.drop pos) (hturns : data.length ≤ turns) :
    ∃ i', executeOpCode S stale turns i = some i' ∧ Executed S data i d pos i' := by
  cases d with
  | name label value => exact executeOpCode_name hS h label hapart value hnext hturns
  | package kind following label body =>
    exact executeOpCode_package hS h kind following label hapart body hfits hnext hturns
  | method following label flags code =>
    exact executeOpCode_method hS h following label hapart flags code hfits hnext hturns

/-! ### One block -/

/-- Bytes that do nothing, by induction on them. The loop ends behind them, or among them. -/
theorem executeBlock_inert (stale : Stale σ) (hS : S.Lawful) (turns endOffset : ℕ)
    {bytes : List UInt8} (hinert : ∀ b ∈ bytes, Inert b) (h : S.At i.stream data pos)
    (hnext : bytes <+: data.drop pos) {n : ℕ} (hn : endOffset ≤ pos + n) :
    ∃ n' s' pos', executeBlock S stale turns endOffset n i =
        executeBlock S stale turns endOffset n' { i with stream := s' } ∧
      S.At s' data pos' ∧ pos' ≤ pos + bytes.length ∧ endOffset ≤ pos' + n' ∧
      (pos' = pos + bytes.length ∨ endOffset ≤ pos') := by
  induction bytes generalizing i pos n with
  | nil => exact ⟨n, i.stream, pos, rfl, h, Nat.le_refl _, hn, Or.inl rfl⟩
  | cons b bytes ih =>
    by_cases hend : endOffset ≤ pos
    · exact ⟨n, i.stream, pos, rfl, h, Nat.le_add_right _ _, hn, Or.inr hend⟩
    · obtain ⟨n, rfl⟩ := Nat.exists_eq_succ_of_ne_zero (show n ≠ 0 by omega)
      obtain ⟨hfirst, hrest⟩ := ByteStream.isPrefix_of_cons hnext
      obtain ⟨s₁, hexecute, hat⟩ :=
        executeOpCode_inert hS h (hinert b List.mem_cons_self) hfirst turns
      obtain ⟨n', s', pos', hloop, hat, hle, hn', hcase⟩ :=
        ih (i := { i with stream := s₁ }) (fun c hc => hinert c (List.mem_cons_of_mem b hc)) hat
          hrest (show endOffset ≤ pos + 1 + n by omega)
      refine ⟨n', s', pos', ?_, hat, ?_, hn', ?_⟩
      · rw [executeBlock, if_pos (by rw [h.offset_eq]; omega), hexecute, Option.bind_some, hloop]
      · rw [List.length_cons]
        omega
      · rw [List.length_cons]
        omega

/-- The loop ends where the stream is behind the block. -/
theorem executeBlock_of_le {endOffset n : ℕ} (h : endOffset ≤ S.offset i.stream) :
    executeBlock S stale turns endOffset n i = some i := by
  cases n with
  | zero => exact if_neg (Nat.not_lt_of_le h)
  | succ n => exact if_neg (Nat.not_lt_of_le h)

/-- Definitions get nodes below a node. -/
inductive Added (parent : ℕ) : List Definition → List NameSpace → List NameSpace → Prop
  | nil (nodes : List NameSpace) : Added parent [] nodes nodes
  | cons {d : Definition} {defs : List Definition} {nodes nodes' : List NameSpace}
    (object : Option ℕ)
    (rest : Added parent defs (addNode nodes parent ⟨d.label.name, [], d.type, object⟩) nodes') :
    Added parent (d :: defs) nodes nodes'

/-- Definitions have been executed. -/
structure Ran (S : ByteStream σ) (data : List UInt8) (i : Interpreter σ) (defs : List Definition)
    (pos : ℕ) (i' : Interpreter σ) : Prop where
  added : Added i.currentBlock.nameSpace defs i.nameSpaces i'.nameSpaces
  scopes_eq : ∀ path, i'.scopesToParse =
    (deferredAll path i.nameSpaces.length pos defs).map Pending.block ++ i.scopesToParse
  data_eq : S.data i'.stream = data

/-- A definition in front of others. -/
theorem Executed.cons {d : Definition} {defs : List Definition} {i₁ i₂ : Interpreter σ}
    (h : Executed S data i d pos i₁) {s : σ}
    (hdefs : Ran S data { i₁ with stream := s } defs (pos + d.bytes.length) i₂) :
    Ran S data i (d :: defs) pos i₂ := by
  obtain ⟨object, hnodes⟩ := h.recorded.nodes_eq
  have hcurrent : ({ i₁ with stream := s } : Interpreter σ).currentBlock = i.currentBlock :=
    h.recorded.currentBlock_eq
  obtain ⟨hadded, hscopes, hdata⟩ := hdefs
  rw [hcurrent] at hadded
  dsimp only at hadded hscopes
  rw [hnodes] at hadded hscopes
  refine ⟨.cons object hadded, fun path => ?_, hdata⟩
  rw [hscopes path, length_addNode, deferredAll, List.map_append, List.append_assoc,
    ← h.scopes_eq]

theorem Ran.nil (h : S.data i.stream = data) : Ran S data i [] pos i where
  added := .nil _
  scopes_eq _ := rfl
  data_eq := h

end Interpreter

theorem startingBefore_of_le {limit pos : ℕ} (h : limit ≤ pos) (defs : List Definition) :
    startingBefore limit pos defs = [] := by
  cases defs with
  | nil => rfl
  | cons d defs => exact if_neg (Nat.not_lt_of_le h)

theorem startingBefore_eq (defs : List Definition) {limit pos : ℕ}
    (h : pos + (bytesOf defs).length ≤ limit) : startingBefore limit pos defs = defs := by
  induction defs generalizing pos with
  | nil => rfl
  | cons d defs ih =>
    have hpos := List.length_pos_of_ne_nil d.bytes_ne_nil
    rw [bytesOf, List.length_append] at h
    rw [startingBefore, if_pos (by omega), ih (by omega)]

theorem startingBefore_isPrefix (limit pos : ℕ) (defs : List Definition) :
    startingBefore limit pos defs <+: defs := by
  induction defs generalizing pos with
  | nil => exact List.prefix_rfl
  | cons d defs ih =>
    rw [startingBefore]
    split
    · exact (List.prefix_cons_inj d).mpr (ih _)
    · exact List.nil_prefix

/-- The definitions that start in front of the limit reach it where all of them do. -/
theorem le_startingBefore (defs : List Definition) {limit pos : ℕ}
    (h : limit ≤ pos + (bytesOf defs).length) :
    limit ≤ pos + (bytesOf (startingBefore limit pos defs)).length := by
  induction defs generalizing pos with
  | nil => exact h
  | cons d defs ih =>
    rw [startingBefore]
    split
    · rw [bytesOf, List.length_append, ← Nat.add_assoc] at h ⊢
      exact ih h
    · omega

theorem startingBefore_idem (limit pos : ℕ) (defs : List Definition) :
    startingBefore limit pos (startingBefore limit pos defs) = startingBefore limit pos defs := by
  induction defs generalizing pos with
  | nil => rfl
  | cons d defs ih =>
    rw [startingBefore]
    split
    · rename_i hlt
      rw [startingBefore, if_pos hlt, ih]
    · rfl

theorem bytesOf_append (defs defs' : List Definition) :
    bytesOf (defs ++ defs') = bytesOf defs ++ bytesOf defs' := by
  induction defs with
  | nil => rfl
  | cons d defs ih => rw [List.cons_append, bytesOf, bytesOf, ih, List.append_assoc]

/-- The operator of a definition leaves nothing of it but bytes that do nothing. -/
theorem Definition.Quiet.inert {discardMethods : Bool} {d : Definition}
    (h : d.Quiet discardMethods) :
    d.taken ≤ d.bytes.length ∧ ∀ b ∈ d.bytes.drop d.taken, Inert b := by
  cases d with
  | name label value =>
    have hlength : (Definition.name label value).bytes =
        (0x08 :: label.bytes) ++ value.bytes := by
      rw [Definition.bytes, List.cons_append]
    have hfront : (0x08 :: label.bytes).length = 1 + label.bytes.length := by
      rw [List.length_cons, Nat.add_comm]
    rw [hlength, Definition.taken, ← hfront, List.drop_append, List.length_append]
    refine ⟨Nat.add_le_add_left value.taken_le _, ?_⟩
    rw [List.drop_eq_nil_of_le (Nat.le_add_right _ _), Nat.add_sub_cancel_left, List.nil_append]
    exact h
  | package kind following label body =>
    rw [Definition.taken, List.drop_length]
    exact ⟨Nat.le_refl _, fun b hb => absurd hb List.not_mem_nil⟩
  | method following label flags code =>
    rw [Definition.taken, List.drop_length]
    exact ⟨Nat.le_refl _, fun b hb => absurd hb List.not_mem_nil⟩

namespace Interpreter

variable {σ : Type} {S : ByteStream σ} {stale : Stale σ} {i : Interpreter σ} {data : List UInt8}
  {pos turns : ℕ}

/-- Definitions are executed as far as the block goes. -/
theorem executeBlock_definitions (hS : S.Lawful) {discardMethods : Bool} (turns endOffset : ℕ)
    (defs : List Definition) (hfits : ∀ d ∈ defs, d.Fits)
    (hquiet : ∀ d ∈ defs, d.Quiet discardMethods) (h : S.At i.stream data pos)
    (hnext : bytesOf defs <+: data.drop pos) (hend : endOffset ≤ pos + (bytesOf defs).length)
    (hall : startingBefore endOffset pos defs = defs)
    (hapart : stale = .never ∨ Unlike i.nameSpaces i.currentBlock.nameSpace defs)
    (hturns : data.length ≤ turns) {n : ℕ} (hn : endOffset ≤ pos + n) :
    ∃ i', executeBlock S stale turns endOffset n i = some i' ∧ Ran S data i defs pos i' := by
  induction defs generalizing i pos n with
  | nil =>
    have hle : endOffset ≤ pos := hend
    exact ⟨i, executeBlock_of_le (h.offset_eq ▸ hle), Ran.nil h.data_eq⟩
  | cons d defs ih =>
    rw [startingBefore] at hall
    rcases ite_eq_iff.mp hall with ⟨hpos, hall⟩ | ⟨-, hnone⟩
    · replace hall := (List.cons.inj hall).2
      obtain ⟨n, rfl⟩ := Nat.exists_eq_succ_of_ne_zero (show n ≠ 0 by omega)
      obtain ⟨hfirst, hrest⟩ := ByteStream.isPrefix_of_append hnext
      obtain ⟨hfit, hfits⟩ := List.forall_mem_cons.mp hfits
      obtain ⟨hquiet, hquiets⟩ := List.forall_mem_cons.mp hquiet
      obtain ⟨i₁, hexecute, hexecuted⟩ := executeOpCode_definition hS h d
        (hapart.imp (⟨·, d.label.name_ne_nil⟩) fun hunlike c hc heq =>
          hunlike.unlike c hc (heq ▸ List.mem_cons_self)) hfit hfirst hturns
      obtain ⟨htaken, hinert⟩ := hquiet.inert
      have hleft : d.bytes.drop d.taken <+: data.drop (pos + d.taken) := by
        rw [← List.take_append_drop d.taken d.bytes] at hfirst
        have hbehind := (ByteStream.isPrefix_of_append hfirst).2
        rwa [List.length_take_of_le htaken] at hbehind
      have hpositive : 0 < d.taken := d.taken_pos
      obtain ⟨n', s', pos', hloop, hat, hle, hn', hcase⟩ := executeBlock_inert stale hS turns
        endOffset hinert hexecuted.stream_at hleft (show endOffset ≤ pos + d.taken + n by omega)
      have hstep : executeBlock S stale turns endOffset (n + 1) i =
          executeBlock S stale turns endOffset n' { i₁ with stream := s' } := by
        rw [executeBlock, if_pos (by rw [h.offset_eq]; omega), hexecute, Option.bind_some, hloop]
      rw [List.length_drop] at hle hcase
      rw [hstep]
      rcases hcase with hbehind | hbehind
      · -- the next definition follows
        have heq : pos' = pos + d.bytes.length := by omega
        rw [heq] at hat hn'
        rw [bytesOf, List.length_append] at hend
        have hapart₁ : stale = .never ∨
            Unlike i₁.nameSpaces i₁.currentBlock.nameSpace defs := by
          obtain ⟨object, hnodes⟩ := hexecuted.recorded.nodes_eq
          rw [hnodes, hexecuted.recorded.currentBlock_eq]
          exact hapart.imp_right fun hunlike => hunlike.addNode rfl rfl
        obtain ⟨i₂, hrun, hran⟩ := ih (i := { i₁ with stream := s' }) hfits hquiets hat hrest
          (by omega) hall hapart₁ hn'
        exact ⟨i₂, hrun, hexecuted.cons hran⟩
      · rw [startingBefore_of_le (by omega)] at hall
        obtain rfl := hall
        refine ⟨_, executeBlock_of_le (hat.offset_eq.symm ▸ hbehind), ?_⟩
        exact hexecuted.cons (s := s') (Ran.nil hat.data_eq)
    · cases hnone

end Interpreter

end Cryptix.ACPI
