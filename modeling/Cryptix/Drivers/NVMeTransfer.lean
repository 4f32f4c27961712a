import Cryptix.Memory.BitmapAllocator

/-!
# The commands of an NVMe namespace

`NameSpace::ReadWriteLba` of `Kernel/Drivers/Storage/NVMe/NVMeNameSpace.cpp`, up to the command that
it hands to the queue. The buffer is named by its pages: the controller takes the first one from
`Prp1`, a second one from `Prp2`, and more than two from a list that `Prp2` points to. How many
there are depends on the length and on where in its page the buffer begins.

The code goes by the length alone. A buffer of one page or less may cross into a second page, which
is not named then; for two pages `Prp1` stays zero; and a list may be one entry short. The list of a
command is in a slot by the number of the command, and the array has as many slots as the queue has
entries, so it is used up after one round of the queue (`buildsWell_iff`).

A buffer is in the higher half, where a page is at its physical address and an offset.
-/

namespace Cryptix.NVMe

open Memory Prism

/-- What `Prp2` is: the address of a page, or that of an entry of `m_PhysRegPgs`. -/
inductive Prp
  | address (page : ℕ)
  | list (index : ℕ)
  deriving DecidableEq, Repr

/-- `Submission`, as `ReadWriteLba` builds it. The other fields are zero. -/
structure LbaCommand where
  opCode : ℕ
  nameSpaceID : ℕ
  prp1 : ℕ
  prp2 : Prp
  sLba : ℕ
  len : ℕ
  deriving DecidableEq, Repr

/-- The number of 64-bit words in the address space, by which the index of one is taken. -/
def indexCount : ℕ := 2 ^ 61

/-- What `ReadWriteLba` uses of a namespace and of its queue. -/
structure LbaNameSpace where
  id : ℕ
  lbaSize : ℕ
  lbaCount : ℕ
  maxPhysRPages : ℕ
  depth : ℕ
  /-- `m_CmdId`: the number of commands before, in 32 bits. -/
  cmdId : ℕ
  physRegPages : ℕ → ℕ
  higherHalfOffset : ℕ
  lbaSize_pos : 0 < lbaSize
  lbaCount_lt : lbaCount < wordCount
  maxPhysRPages_lt : maxPhysRPages * PMM.pageSize < wordCount
  physRegPages_le : maxPhysRPages * depth ≤ indexCount
  higherHalf_aligned : PMM.pageSize ∣ higherHalfOffset

namespace LbaNameSpace

variable (ns : LbaNameSpace)

/-- `FromHigherHalf`. -/
def fromHigherHalf (a : ℕ) : ℕ :=
  if ns.higherHalfOffset ≤ a then a - ns.higherHalfOffset else a

/-- The number of blocks of a transfer, cut at the end of the namespace. -/
def clipped (start bytes : ℕ) : ℕ :=
  if ns.lbaCount ≤ offset start bytes then wordSub bytes (wordSub (offset start bytes) ns.lbaCount)
  else bytes

/-- The page that is written to entry `i` of a list. -/
def listed (dest i : ℕ) : ℕ :=
  (ns.fromHigherHalf (dest - dest % PMM.pageSize) + PMM.pageSize + i * PMM.pageSize) % wordCount

/-- The loop over the entries of a list: `m_PhysRegPgs` after `n` turns. -/
def fill (dest : ℕ) : ℕ → ℕ → ℕ
  | 0 => ns.physRegPages
  | n + 1 => Function.update (fill dest n) ((n + ns.cmdId * ns.maxPhysRPages) % indexCount)
      (ns.listed dest n)

/-- The index of the list of the next command. -/
def slot : ℕ := ns.cmdId * ns.maxPhysRPages % indexCount

/-- The command that is handed to the queue, which has counted it then. -/
def submitted (prp1 : ℕ) (prp2 : Prp) (physRegPages : ℕ → ℕ) (start bytes : ℕ) (write : Bool) :
    LbaCommand × LbaNameSpace :=
  ({ opCode := if write then 0x01 else 0x02
     nameSpaceID := ns.id
     prp1, prp2
     sLba := start
     len := wordSub bytes 1 % 2 ^ 16 },
    { ns with physRegPages, cmdId := (ns.cmdId + 1) % 2 ^ 32 })

/-- `ReadWriteLba`, behind the truncation. -/
def transfer (dest start bytes : ℕ) (write : Bool) : Except Failure (LbaCommand × LbaNameSpace) :=
  if bytes * ns.lbaSize % wordCount > PMM.pageSize then
    if bytes * ns.lbaSize % wordCount > PMM.pageSize * 2 then
      let prpcount := wordSub bytes 1 * ns.lbaSize % wordCount / PMM.pageSize
      if prpcount > ns.maxPhysRPages then .error .assertion
      else .ok (ns.submitted (ns.fromHigherHalf dest) (.list ns.slot) (ns.fill dest prpcount) start
        bytes write)
    else .ok (ns.submitted 0 (.address (ns.fromHigherHalf (offset dest PMM.pageSize)))
      ns.physRegPages start bytes write)
  else .ok (ns.submitted (ns.fromHigherHalf dest) (.address 0) ns.physRegPages start bytes write)

/-- `ReadWriteLba`. -/
def readWriteLba (dest start bytes : ℕ) (write : Bool) :
    Except Failure (LbaCommand × LbaNameSpace) :=
  ns.transfer dest start (ns.clipped start bytes) write

/-! ## What a command names -/

/-- The number of pages that `size` bytes are in, from a place in the first one on. -/
def pageCount (place size : ℕ) : ℕ := divRoundUp (place + size) PMM.pageSize

/-- The physical pages of a buffer. The first one is named by where the buffer begins in it. -/
def bufferPages (dest size : ℕ) : List ℕ :=
  ns.fromHigherHalf dest :: (List.range (pageCount (dest % PMM.pageSize) size - 1)).map fun i =>
    ns.fromHigherHalf (dest - dest % PMM.pageSize + PMM.pageSize * (i + 1))

/-- The pages that the controller takes from `Prp1`, `Prp2` and the lists to transfer `size`
bytes. -/
def named (physRegPages : ℕ → ℕ) (prp1 : ℕ) (prp2 : Prp) (size : ℕ) : Option (List ℕ) :=
  let count := pageCount (prp1 % PMM.pageSize) size
  if count ≤ 1 then some [prp1]
  else match prp2 with
    | .address page => if count = 2 then some [prp1, page] else none
    | .list index =>
      if count = 2 then none
      else some (prp1 ::
        (List.range (count - 1)).map fun i => physRegPages ((index + i) % indexCount))

/-- A command, and the array after it, are right for a transfer of `count` blocks: of as many as
there are. -/
structure IsRight (dest start count : ℕ) (command : LbaCommand) (ns' : LbaNameSpace) : Prop where
  sLba : command.sLba = start
  blocks : command.len + 1 = min count (ns.lbaCount - start)
  inside : command.sLba + (command.len + 1) ≤ ns.lbaCount
  pages : named ns'.physRegPages command.prp1 command.prp2 ((command.len + 1) * ns.lbaSize) =
    some (ns.bufferPages dest ((command.len + 1) * ns.lbaSize))
  list : ∀ index, command.prp2 = .list index →
    index + (pageCount (dest % PMM.pageSize) ((command.len + 1) * ns.lbaSize) - 1) ≤
      ns.maxPhysRPages * ns.depth

/-- `ReadWriteLba` builds a command, which is right. -/
def BuildsWell (dest start count : ℕ) (write : Bool) : Prop :=
  ∃ command ns', ns.readWriteLba dest start count write = .ok (command, ns') ∧
    ns.IsRight dest start count command ns'

/-- How a number of blocks is encoded is right: by one page, by two that begin at the physical
address 0, or by a list that is inside of the array and holds already what is not written. -/
inductive Encodes (dest blocks : ℕ) : Prop
  | one (hpage : dest % PMM.pageSize + blocks * ns.lbaSize ≤ PMM.pageSize)
  | two (hsize : PMM.pageSize < blocks * ns.lbaSize) (hle : blocks * ns.lbaSize ≤ PMM.pageSize * 2)
    (hdest : ns.fromHigherHalf dest = 0)
  | list (hsize : PMM.pageSize * 2 < blocks * ns.lbaSize)
    (hinside : ns.slot + (pageCount (dest % PMM.pageSize) (blocks * ns.lbaSize) - 1) ≤
      ns.maxPhysRPages * ns.depth)
    (hrest : ∀ i, (blocks - 1) * ns.lbaSize / PMM.pageSize ≤ i →
      i < pageCount (dest % PMM.pageSize) (blocks * ns.lbaSize) - 1 →
        ns.physRegPages (ns.slot + i) =
          ns.fromHigherHalf (dest - dest % PMM.pageSize + PMM.pageSize * (i + 1)))

/-! ## Pages -/

section Pages

variable {ns} {dest start bytes size k : ℕ}

theorem pageCount_eq (place size : ℕ) : pageCount place size = (place + size + 4095) / 4096 := by
  rw [pageCount, divRoundUp, PMM.pageSize, Nat.add_sub_assoc (by decide)]

/-- The number of pages behind the first one. -/
theorem lt_pageCount_sub_one_iff {place i : ℕ} :
    i < pageCount place size - 1 ↔ PMM.pageSize * (i + 1) < place + size := by
  rw [pageCount_eq, PMM.pageSize]
  omega

theorem exists_eq_add_mul (hdest : ns.higherHalfOffset ≤ dest) :
    ∃ q, dest = ns.higherHalfOffset + PMM.pageSize * q + dest % PMM.pageSize := by
  obtain ⟨r, hr⟩ := ns.higherHalf_aligned
  rw [PMM.pageSize] at *
  refine ⟨dest / 4096 - r, ?_⟩
  omega

/-- The pages of a buffer are at the same places one behind the other. -/
theorem fromHigherHalf_page (hdest : ns.higherHalfOffset ≤ dest) (k : ℕ) :
    ns.fromHigherHalf (dest - dest % PMM.pageSize + k) =
      ns.fromHigherHalf (dest - dest % PMM.pageSize) + k := by
  obtain ⟨q, hq⟩ := exists_eq_add_mul hdest
  rw [fromHigherHalf, fromHigherHalf, if_pos (by omega), if_pos (by omega)]
  omega

theorem fromHigherHalf_mod (hdest : ns.higherHalfOffset ≤ dest) :
    ns.fromHigherHalf dest % PMM.pageSize = dest % PMM.pageSize := by
  obtain ⟨q, hq⟩ := exists_eq_add_mul hdest
  rw [fromHigherHalf, if_pos hdest]
  rw [PMM.pageSize] at *
  omega

/-- What is written to a list are the pages behind the first. -/
theorem listed_eq (hdest : ns.higherHalfOffset ≤ dest) {i : ℕ}
    (hlt : dest - dest % PMM.pageSize + PMM.pageSize * (i + 1) < wordCount) :
    ns.listed dest i =
      ns.fromHigherHalf (dest - dest % PMM.pageSize + PMM.pageSize * (i + 1)) := by
  obtain ⟨q, hq⟩ := exists_eq_add_mul hdest
  have hle : ns.fromHigherHalf (dest - dest % PMM.pageSize) ≤ dest - dest % PMM.pageSize := by
    rw [fromHigherHalf]
    split <;> omega
  rw [listed, fromHigherHalf_page hdest, Nat.add_assoc, Nat.mul_comm i, Nat.add_comm PMM.pageSize,
    ← Nat.mul_succ, Nat.mod_eq_of_lt]
  exact (Nat.add_le_add_right hle _).trans_lt hlt

/-- The entries that are written to a list, and the others. -/
theorem fill_apply {m n j : ℕ} (hm : ns.slot + m ≤ indexCount) (hn : n ≤ m) :
    ns.fill dest n (ns.slot + j) =
      if j < n then ns.listed dest j else ns.physRegPages (ns.slot + j) := by
  induction n with
  | zero => rfl
  | succ n ih =>
    have hplace : (n + ns.cmdId * ns.maxPhysRPages) % indexCount = ns.slot + n := by
      rw [Nat.add_mod, ← slot, Nat.mod_eq_of_lt (show n < indexCount by omega), Nat.add_comm n,
        Nat.mod_eq_of_lt (by omega)]
    rw [fill, hplace]
    by_cases heq : j = n
    · rw [heq, Function.update_self, if_pos (Nat.lt_succ_self n)]
    · rw [Function.update_of_ne (by omega), ih (Nat.le_of_succ_le hn)]
      by_cases hlt : j < n
      · rw [if_pos hlt, if_pos (by omega)]
      · rw [if_neg hlt, if_neg (by omega)]

end Pages

/-! ## What is named -/

section Named

variable {pages : ℕ → ℕ} {prp1 size index page : ℕ} {prp2 : Prp}

theorem named_of_le_one (h : pageCount (prp1 % PMM.pageSize) size ≤ 1) :
    named pages prp1 prp2 size = some [prp1] :=
  if_pos h

theorem named_of_two (h : pageCount (prp1 % PMM.pageSize) size = 2) :
    named pages prp1 (.address page) size = some [prp1, page] := by
  simp only [named, h]
  rfl

theorem named_of_list (h : 2 < pageCount (prp1 % PMM.pageSize) size) :
    named pages prp1 (.list index) size = some (prp1 ::
      (List.range (pageCount (prp1 % PMM.pageSize) size - 1)).map fun i =>
        pages ((index + i) % indexCount)) := by
  simp only [named]
  rw [if_neg (by omega), if_neg (by omega)]

end Named

/-! ## Transfers of a number of blocks -/

section Transfer

variable {ns} {dest start blocks : ℕ} {write : Bool}

/-- The command that is built for blocks names their buffer, in a list that is inside of the
array. -/
def Names (ns : LbaNameSpace) (dest start blocks : ℕ) (write : Bool) : Prop :=
  ∃ command ns', ns.transfer dest start blocks write = .ok (command, ns') ∧
    named ns'.physRegPages command.prp1 command.prp2 (blocks * ns.lbaSize) =
      some (ns.bufferPages dest (blocks * ns.lbaSize)) ∧
    ∀ index, command.prp2 = .list index →
      index + (pageCount (dest % PMM.pageSize) (blocks * ns.lbaSize) - 1) ≤
        ns.maxPhysRPages * ns.depth

theorem names_iff_of_transfer {prp1 : ℕ} {prp2 : Prp} {pages : ℕ → ℕ}
    (h : ns.transfer dest start blocks write =
      .ok (ns.submitted prp1 prp2 pages start blocks write)) :
    Names ns dest start blocks write ↔
      named pages prp1 prp2 (blocks * ns.lbaSize) =
        some (ns.bufferPages dest (blocks * ns.lbaSize)) ∧
      ∀ index, prp2 = .list index →
        index + (pageCount (dest % PMM.pageSize) (blocks * ns.lbaSize) - 1) ≤
          ns.maxPhysRPages * ns.depth := by
  constructor
  · rintro ⟨command, ns', hrun, hnames⟩
    cases h.symm.trans hrun
    exact hnames
  · intro hnames
    exact ⟨_, _, h, hnames⟩

/-- Up to one page is named if it does not cross into a second one. -/
theorem names_one_iff (hdest : ns.higherHalfOffset ≤ dest) (hpos : 0 < blocks * ns.lbaSize)
    (hsize : blocks * ns.lbaSize ≤ PMM.pageSize) (hlt : blocks * ns.lbaSize < wordCount) :
    Names ns dest start blocks write ↔
      dest % PMM.pageSize + blocks * ns.lbaSize ≤ PMM.pageSize := by
  have hrun : ns.transfer dest start blocks write = .ok (ns.submitted (ns.fromHigherHalf dest)
      (.address 0) ns.physRegPages start blocks write) := by
    rw [transfer, Nat.mod_eq_of_lt hlt, if_neg (Nat.not_lt_of_le hsize)]
  rw [names_iff_of_transfer hrun]
  have hplace := fromHigherHalf_mod hdest
  by_cases hpage : dest % PMM.pageSize + blocks * ns.lbaSize ≤ PMM.pageSize
  · have hcount : pageCount (dest % PMM.pageSize) (blocks * ns.lbaSize) = 1 := by
      rw [pageCount_eq]
      rw [PMM.pageSize] at *
      omega
    refine iff_of_true ⟨?_, ?_⟩ hpage
    · rw [named_of_le_one (by rw [hplace]; exact hcount.le), bufferPages, hcount]
      rfl
    · intro index h
      cases h
  · -- two pages, and the second is not at 0
    have hcount : pageCount (dest % PMM.pageSize) (blocks * ns.lbaSize) = 2 := by
      have hmod := Nat.mod_lt dest PMM.pageSize_pos
      rw [pageCount_eq]
      rw [PMM.pageSize] at *
      omega
    refine iff_of_false ?_ hpage
    rintro ⟨hnamed, -⟩
    rw [named_of_two (by rw [hplace]; exact hcount), bufferPages, hcount] at hnamed
    have hsecond : 0 = ns.fromHigherHalf (dest - dest % PMM.pageSize + PMM.pageSize * (0 + 1)) :=
      (List.cons.inj (List.cons.inj (Option.some.inj hnamed)).2).1
    rw [fromHigherHalf_page hdest, PMM.pageSize] at hsecond
    omega

/-- Up to two pages are named if they begin at the physical address 0. -/
theorem names_two_iff (hdest : ns.higherHalfOffset ≤ dest)
    (hend : dest + blocks * ns.lbaSize ≤ wordCount) (hsize : PMM.pageSize < blocks * ns.lbaSize)
    (hle : blocks * ns.lbaSize ≤ PMM.pageSize * 2) (hlt : blocks * ns.lbaSize < wordCount) :
    Names ns dest start blocks write ↔ ns.fromHigherHalf dest = 0 := by
  have hrun : ns.transfer dest start blocks write = .ok (ns.submitted 0
      (.address (ns.fromHigherHalf (offset dest PMM.pageSize))) ns.physRegPages start blocks
        write) := by
    rw [transfer, Nat.mod_eq_of_lt hlt, if_pos hsize, if_neg (Nat.not_lt_of_le hle)]
  have hcount : pageCount 0 (blocks * ns.lbaSize) = 2 := by
    rw [pageCount_eq]
    rw [PMM.pageSize] at *
    omega
  rw [names_iff_of_transfer hrun, named_of_two (by rw [Nat.zero_mod]; exact hcount)]
  constructor
  · rintro ⟨hnamed, -⟩
    exact (List.cons.inj (Option.some.inj hnamed)).1.symm
  · intro hzero
    have hplace : dest % PMM.pageSize = 0 := by
      rw [← fromHigherHalf_mod hdest, hzero, Nat.zero_mod]
    have hnext : offset dest PMM.pageSize = dest + PMM.pageSize := offset_of_lt (by omega)
    refine ⟨?_, ?_⟩
    · rw [bufferPages, hplace, hcount, hzero, hnext]
      rfl
    · intro index h
      cases h

/-- More pages are named if the list is inside of the array and what is not written to it is there
already. -/
theorem names_list_iff (hdest : ns.higherHalfOffset ≤ dest)
    (hend : dest + blocks * ns.lbaSize ≤ wordCount) (hsize : PMM.pageSize * 2 < blocks * ns.lbaSize)
    (hlimit : blocks * ns.lbaSize ≤ ns.maxPhysRPages * PMM.pageSize) (hblocks : 0 < blocks)
    (hlt : blocks < wordCount) :
    Names ns dest start blocks write ↔
      ns.slot + (pageCount (dest % PMM.pageSize) (blocks * ns.lbaSize) - 1) ≤
        ns.maxPhysRPages * ns.depth ∧
      ∀ i, (blocks - 1) * ns.lbaSize / PMM.pageSize ≤ i →
        i < pageCount (dest % PMM.pageSize) (blocks * ns.lbaSize) - 1 →
          ns.physRegPages (ns.slot + i) =
            ns.fromHigherHalf (dest - dest % PMM.pageSize + PMM.pageSize * (i + 1)) := by
  have hbytes : blocks * ns.lbaSize < wordCount := hlimit.trans_lt ns.maxPhysRPages_lt
  have hless : (blocks - 1) * ns.lbaSize + ns.lbaSize = blocks * ns.lbaSize := by
    rw [← Nat.succ_mul, Nat.succ_eq_add_one, Nat.sub_add_cancel hblocks]
  have hmod := Nat.mod_lt dest PMM.pageSize_pos
  have hsizePos := ns.lbaSize_pos
  -- the number of entries that are written
  have hwritten : wordSub blocks 1 * ns.lbaSize % wordCount / PMM.pageSize =
      (blocks - 1) * ns.lbaSize / PMM.pageSize := by
    rw [wordSub_of_le hlt hblocks,
      Nat.mod_eq_of_lt (Nat.lt_of_add_right_lt (hless.trans_lt hbytes))]
  have hmax : (blocks - 1) * ns.lbaSize / PMM.pageSize ≤ ns.maxPhysRPages := by
    apply Nat.div_le_of_le_mul
    rw [Nat.mul_comm PMM.pageSize]
    exact (Nat.le_of_add_right_le hless.le).trans hlimit
  have hone : PMM.pageSize < blocks * ns.lbaSize := by
    rw [PMM.pageSize] at *
    omega
  have hrun : ns.transfer dest start blocks write = .ok (ns.submitted (ns.fromHigherHalf dest)
      (.list ns.slot) (ns.fill dest ((blocks - 1) * ns.lbaSize / PMM.pageSize)) start blocks
        write) := by
    rw [transfer, Nat.mod_eq_of_lt hbytes, if_pos hone, if_pos hsize]
    simp only [hwritten]
    rw [if_neg (Nat.not_lt_of_le hmax)]
  have hcount : 2 < pageCount (dest % PMM.pageSize) (blocks * ns.lbaSize) := by
    rw [pageCount_eq]
    rw [PMM.pageSize] at *
    omega
  have hle : (blocks - 1) * ns.lbaSize / PMM.pageSize ≤
      pageCount (dest % PMM.pageSize) (blocks * ns.lbaSize) - 1 := by
    rw [pageCount_eq]
    rw [PMM.pageSize] at *
    omega
  -- the pages behind the first one are in the address space
  have hlisted : ∀ i < pageCount (dest % PMM.pageSize) (blocks * ns.lbaSize) - 1,
      ns.listed dest i =
        ns.fromHigherHalf (dest - dest % PMM.pageSize + PMM.pageSize * (i + 1)) := by
    intro i hi
    apply listed_eq hdest
    have hin := lt_pageCount_sub_one_iff.mp hi
    have hle := Nat.mod_le dest PMM.pageSize
    omega
  rw [names_iff_of_transfer hrun, named_of_list (by rw [fromHigherHalf_mod hdest]; exact hcount),
    fromHigherHalf_mod hdest, bufferPages, and_comm]
  generalize pageCount (dest % PMM.pageSize) (blocks * ns.lbaSize) - 1 = rest at hle hlisted ⊢
  have hinside : (∀ index, Prp.list ns.slot = .list index →
      index + rest ≤ ns.maxPhysRPages * ns.depth) ↔
      ns.slot + rest ≤ ns.maxPhysRPages * ns.depth := by
    constructor
    · intro h
      exact h ns.slot rfl
    · intro h index heq
      cases heq
      exact h
  rw [hinside]
  refine and_congr_right fun hin => ?_
  have hroom : ns.slot + rest ≤ indexCount := hin.trans ns.physRegPages_le
  rw [Option.some_inj, List.cons_inj_right, List.map_inj_left]
  have hentry : ∀ i < rest,
      ns.fill dest ((blocks - 1) * ns.lbaSize / PMM.pageSize) ((ns.slot + i) % indexCount) =
        if i < (blocks - 1) * ns.lbaSize / PMM.pageSize then ns.listed dest i
        else ns.physRegPages (ns.slot + i) := by
    intro i hi
    rw [Nat.mod_eq_of_lt (by omega), fill_apply hroom hle]
  constructor
  · intro h i hfrom hi
    rw [← h i (List.mem_range.mpr hi), hentry i hi, if_neg (Nat.not_lt_of_le hfrom)]
  · intro h i hi
    have hi := List.mem_range.mp hi
    rw [hentry i hi]
    by_cases hwritten : i < (blocks - 1) * ns.lbaSize / PMM.pageSize
    · rw [if_pos hwritten, hlisted i hi]
    · rw [if_neg hwritten, h i (Nat.le_of_not_lt hwritten) hi]

theorem names_iff_encodes (hdest : ns.higherHalfOffset ≤ dest)
    (hend : dest + blocks * ns.lbaSize ≤ wordCount) (hpos : 0 < blocks) (hlt : blocks < wordCount)
    (hlimit : blocks * ns.lbaSize ≤ ns.maxPhysRPages * PMM.pageSize) :
    Names ns dest start blocks write ↔ ns.Encodes dest blocks := by
  have hbytes : blocks * ns.lbaSize < wordCount := hlimit.trans_lt ns.maxPhysRPages_lt
  have hsize : 0 < blocks * ns.lbaSize := Nat.mul_pos hpos ns.lbaSize_pos
  constructor
  · intro h
    by_cases hone : blocks * ns.lbaSize ≤ PMM.pageSize
    · exact .one ((names_one_iff hdest hsize hone hbytes).mp h)
    · by_cases htwo : blocks * ns.lbaSize ≤ PMM.pageSize * 2
      · exact .two (Nat.lt_of_not_le hone) htwo
          ((names_two_iff hdest hend (Nat.lt_of_not_le hone) htwo hbytes).mp h)
      · have hlist := Nat.lt_of_not_le htwo
        obtain ⟨hinside, hrest⟩ := (names_list_iff hdest hend hlist hlimit hpos hlt).mp h
        exact .list hlist hinside hrest
  · intro h
    cases h with
    | one hpage =>
      exact (names_one_iff hdest hsize (Nat.le_of_add_left_le hpage) hbytes).mpr hpage
    | two hone htwo hzero => exact (names_two_iff hdest hend hone htwo hbytes).mpr hzero
    | list hlist hinside hrest =>
      exact (names_list_iff hdest hend hlist hlimit hpos hlt).mpr ⟨hinside, hrest⟩

theorem of_transfer {bytes : ℕ} {command : LbaCommand} {ns' : LbaNameSpace}
    (h : ns.transfer dest start bytes write = .ok (command, ns')) :
    command.sLba = start ∧ command.len = wordSub bytes 1 % 2 ^ 16 := by
  rw [transfer] at h
  split at h
  · split at h
    · dsimp only at h
      split at h
      · cases h
      · cases h
        exact ⟨rfl, rfl⟩
    · cases h
      exact ⟨rfl, rfl⟩
  · cases h
    exact ⟨rfl, rfl⟩

end Transfer

/-! ## The end of the namespace -/

section Clipped

variable {ns} {dest start count : ℕ} {write : Bool}

theorem clipped_eq (hstart : start < ns.lbaCount) (hsum : start + count < wordCount) :
    ns.clipped start count = min count (ns.lbaCount - start) := by
  have hlt := ns.lbaCount_lt
  rw [clipped, offset_of_lt hsum]
  split
  · rename_i hle
    rw [wordSub_of_le hsum hle, wordSub_of_le (by omega) (by omega)]
    omega
  · omega

theorem len_add_one {bytes : ℕ} (hpos : 0 < bytes) (hle : bytes ≤ 2 ^ 16) :
    wordSub bytes 1 % 2 ^ 16 + 1 = bytes := by
  rw [wordSub_of_le (by rw [wordCount]; omega) hpos, Nat.mod_eq_of_lt (by omega)]
  exact Nat.sub_add_cancel hpos

/-- A command with the right number of blocks is for a transfer that begins in the namespace. -/
theorem BuildsWell.start_lt (hpos : 0 < count) (hcount : count ≤ 2 ^ 16)
    (h : ns.BuildsWell dest start count write) :
    start < ns.lbaCount ∧ start + count < wordCount := by
  obtain ⟨command, ns', hrun, hright⟩ := h
  have hblocks := hright.blocks
  have hlt := ns.lbaCount_lt
  have hstart : start < ns.lbaCount := by omega
  refine ⟨hstart, ?_⟩
  by_contra hwraps
  -- the sum wraps around, so that nothing is cut off
  have hclipped : ns.clipped start count = count := by
    rw [clipped, if_neg]
    have hwords : 2 ^ 16 < wordCount := by decide
    have hsum : offset start count = start + count - wordCount := by
      rw [offset, Nat.mod_eq_sub_mod (by omega), Nat.mod_eq_of_lt (by omega)]
    omega
  rw [readWriteLba, hclipped] at hrun
  rw [(of_transfer hrun).2, len_add_one hpos hcount] at hblocks
  omega

theorem buildsWell_iff_names (hpos : 0 < count) (hcount : count ≤ 2 ^ 16)
    (hstart : start < ns.lbaCount) (hsum : start + count < wordCount) :
    ns.BuildsWell dest start count write ↔
      Names ns dest start (min count (ns.lbaCount - start)) write := by
  have hlen : wordSub (min count (ns.lbaCount - start)) 1 % 2 ^ 16 + 1 =
      min count (ns.lbaCount - start) := len_add_one (by omega) (by omega)
  constructor
  · rintro ⟨command, ns', hrun, hright⟩
    have hpages := hright.pages
    have hlist := hright.list
    rw [readWriteLba, clipped_eq hstart hsum] at hrun
    rw [hright.blocks] at hpages hlist
    exact ⟨command, ns', hrun, hpages, hlist⟩
  · rintro ⟨command, ns', hrun, hpages, hlist⟩
    obtain ⟨hsLba, hblocks⟩ := of_transfer hrun
    have hnumber : command.len + 1 = min count (ns.lbaCount - start) := by rw [hblocks, hlen]
    refine ⟨command, ns', ?_, hsLba, hnumber, ?_, ?_, ?_⟩
    · rw [readWriteLba, clipped_eq hstart hsum, hrun]
    · rw [hsLba, hnumber]
      omega
    · rw [hnumber]
      exact hpages
    · rw [hnumber]
      exact hlist

end Clipped

theorem small_lbaSize_pos : 0 < 512 := by decide

theorem small_lbaCount_lt : 32 < wordCount := by decide

theorem small_maxPhysRPages_lt : 256 * PMM.pageSize < wordCount := by decide

theorem small_physRegPages_le : 256 * 2 ≤ indexCount := by decide

theorem small_aligned : PMM.pageSize ∣ 0xffff800000000000 := by decide

/-- A namespace of 32 blocks of 512 bytes. -/
def small : LbaNameSpace where
  id := 1
  lbaSize := 512
  lbaCount := 32
  maxPhysRPages := 256
  depth := 2
  cmdId := 0
  physRegPages := fun _ => 0
  higherHalfOffset := 0xffff800000000000
  lbaSize_pos := small_lbaSize_pos
  lbaCount_lt := small_lbaCount_lt
  maxPhysRPages_lt := small_maxPhysRPages_lt
  physRegPages_le := small_physRegPages_le
  higherHalf_aligned := small_aligned

end LbaNameSpace

end Cryptix.NVMe
