import Cryptix.Drivers.Device
import Cryptix.Lib.Bytes
import Cryptix.Prism
import Mathlib.Data.List.Flatten

/-!
# The initial ramdisk

`Kernel/VFS/Initrd/Ustar.cpp`. `Load` walks a tar archive in memory: a header block for each file,
the content of the file behind it, up to the first block without the signature. The size of the
archive is a parameter that `Load` does not use, and it does not read the field `FilenamePrefix`.

The virtual file system is a parameter, `Vfs`; so are the text conversions of Prism. Loading an
archive runs the operations of its files, one after another, and nothing else; but for a hard link
the two paths of `VFS::Link` are exchanged (`load_archive`).
-/

namespace Cryptix.VFS.Ustar

open Lib Drivers

/-! ## What `Load` uses -/

/-- `PathView` of an array of so many characters, and `StringUtils::ToNumber` to a type of so many
bits. -/
structure Text where
  view : (ℕ → UInt8) → ℕ → ℕ → List UInt8
  toNumber : ℕ → List UInt8 → ℕ → ℕ

/-- The number that a string of digits spells. -/
def ofDigits (base : ℕ) (digits : List UInt8) : ℕ :=
  digits.foldl (fun n c => n * base + (c.toNat - 48)) 0

/-- A string ends at its NUL, and a string of digits is read as the number it spells if that fits
the type. The digits of the bases up to ten are consecutive. -/
structure Text.Reads (T : Text) : Prop where
  view : ∀ m a count s, s.length < count → Spells m a s → (0 : UInt8) ∉ s → T.view m a count = s
  toNumber : ∀ bits s base, base ≤ 10 → (∀ c ∈ s, 48 ≤ c.toNat ∧ c.toNat < 48 + base) →
    ofDigits base s < 2 ^ bits → T.toNumber bits s base = ofDigits base s

/-- The functions of the virtual file system, over its state. `Link` takes the path of a file and a
new path for it. It, `Symlink` and `CreateNode` are only asked whether they failed, and `ToDo` is
what the kernel does about a missing feature. -/
structure Vfs (σ δ : Type) where
  createFile : List UInt8 → ℕ → EStateM Errno σ (Option δ)
  createDirectory : List UInt8 → ℕ → EStateM Errno σ (Option δ)
  createNode : List UInt8 → ℕ → ℕ → σ → Bool × σ
  link : List UInt8 → List UInt8 → σ → Bool × σ
  symlink : List UInt8 → List UInt8 → σ → Bool × σ
  write : δ → List UInt8 → σ → ℤ × σ
  toDo : EStateM Errno σ Unit

/-- A file system whose `Link` takes its two paths the other way round. -/
def Vfs.exchanged {σ δ : Type} (V : Vfs σ δ) : Vfs σ δ :=
  { V with link := fun newPath oldPath => V.link oldPath newPath }

/-! ## Loading -/

/-- `S_IFREG`, and so on. -/
def sIfchr : ℕ := 0x2000
def sIfdir : ℕ := 0x4000
def sIfblk : ℕ := 0x6000
def sIfreg : ℕ := 0x8000

/-- `MAGIC`. -/
def magic : List UInt8 := [0x75, 0x73, 0x74, 0x61, 0x72]

/-- `Validate`. -/
def validate (m : ℕ → UInt8) (address : ℕ) : Bool := bytesAt m (address + 257) 5 == magic

/-- `getNextFile`. -/
def getNextFile (current fileSize : ℕ) : ℕ :=
  offset current (512 + Prism.alignUp fileSize 512)

variable {σ δ : Type} (T : Text) (V : Vfs σ δ) (m : ℕ → UInt8)

/-- A field of the header that holds a number. -/
def number (bits current field count : ℕ) : ℕ :=
  T.toNumber bits (T.view m (current + field) count) 8

/-- What `Load` does about one file: the body of its loop but for the step to the next file. -/
def loadFile (current : ℕ) : EStateM Errno σ Unit :=
  let filename := T.view m current 100
  let linkName := T.view m (current + 157) 100
  let mode := number T m 32 current 100 8
  let size := number T m 64 current 124 12
  let type := m (current + 156)
  if filename = [0x2e, 0x2f] then
    pure ()
  else if type = 0x00 ∨ type = 0x30 then do
    match ← V.createFile filename (mode ||| sIfreg) with
    | none => pure ()
    | some dentry => do
      let _ ← modifyGet (V.write dentry (bytesAt m (current + 512) size))
  else if type = 0x31 then do
    let _ ← modifyGet (V.link filename linkName)
  else if type = 0x32 then do
    let _ ← modifyGet (V.symlink filename linkName)
  else if type = 0x33 ∨ type = 0x34 then do
    let deviceMajor := number T m 32 current 329 8
    let deviceMinor := number T m 32 current 337 8
    let mode := if type = 0x33 then mode ||| sIfchr else mode ||| sIfblk
    let _ ← modifyGet (V.createNode filename mode (makeDevice deviceMajor deviceMinor))
  else if type = 0x35 then do
    let _ ← V.createDirectory filename (mode ||| sIfdir)
  else if type = 0x36 then
    V.toDo
  else
    pure ()

/-- `Load`. The first argument bounds the number of blocks, and `none` means that it was too small;
a result is an error or none, and the state of the file system then. -/
def load : ℕ → ℕ → σ → Option (EStateM.Result Errno σ Unit)
  | 0, _, _ => none
  | fuel + 1, current, s =>
    if validate m current then
      match loadFile T V m current s with
      | .error e s => some (.error e s)
      | .ok _ s => load fuel (getNextFile current (number T m 64 current 124 12)) s
    else
      some (.ok () s)

/-! ## Archives -/

/-- `FileHeader`. -/
structure FileHeader where
  fileName : List UInt8
  mode : List UInt8
  uid : List UInt8
  gid : List UInt8
  fileSize : List UInt8
  mTime : List UInt8
  checksum : List UInt8
  type : UInt8
  linkName : List UInt8
  signature : List UInt8
  version : List UInt8
  userName : List UInt8
  groupName : List UInt8
  deviceMajor : List UInt8
  deviceMinor : List UInt8
  filenamePrefix : List UInt8

def FileHeader.bytes (h : FileHeader) : List UInt8 :=
  h.fileName ++ (h.mode ++ (h.uid ++ (h.gid ++ (h.fileSize ++ (h.mTime ++ (h.checksum ++
    ([h.type] ++ (h.linkName ++ (h.signature ++ (h.version ++ (h.userName ++ (h.groupName ++
      (h.deviceMajor ++ (h.deviceMinor ++ h.filenamePrefix))))))))))))))

/-- Each field has the length that the source declares. -/
structure FileHeader.Sized (h : FileHeader) : Prop where
  fileName : h.fileName.length = 100
  mode : h.mode.length = 8
  uid : h.uid.length = 8
  gid : h.gid.length = 8
  fileSize : h.fileSize.length = 12
  mTime : h.mTime.length = 12
  checksum : h.checksum.length = 8
  linkName : h.linkName.length = 100
  signature : h.signature.length = 6
  version : h.version.length = 2
  userName : h.userName.length = 32
  groupName : h.groupName.length = 32
  deviceMajor : h.deviceMajor.length = 8
  deviceMinor : h.deviceMinor.length = 8
  filenamePrefix : h.filenamePrefix.length = 155

/-- What a file of an archive is. A regular file has one of two types. -/
inductive Node
  | file (nul : Bool) (data : List UInt8)
  | hardLink (target : List UInt8)
  | symlink (target : List UInt8)
  | device (block : Bool) (major minor : ℕ)
  | directory
  | fifo
  | other (type : UInt8)

/-- A file of an archive. The fields of the header that `Load` does not read are those of `rest`. -/
structure FileEntry where
  path : List UInt8
  mode : ℕ
  node : Node
  rest : FileHeader

/-- The last digits of a number in base 8. -/
def octalDigits : ℕ → ℕ → List UInt8
  | 0, _ => []
  | k + 1, n => octalDigits k (n / 8) ++ [UInt8.ofNat (48 + n % 8)]

/-- A number in a field of so many bytes, the last of them a NUL. -/
def octal (count n : ℕ) : List UInt8 := octalDigits (count - 1) n ++ [0]

/-- A string in a field of so many bytes. -/
def padded (count : ℕ) (s : List UInt8) : List UInt8 := s ++ List.replicate (count - s.length) 0

namespace Node

def type : Node → UInt8
  | file nul _ => if nul then 0x00 else 0x30
  | hardLink _ => 0x31
  | symlink _ => 0x32
  | device block _ _ => if block then 0x34 else 0x33
  | directory => 0x35
  | fifo => 0x36
  | other type => type

def target : Node → List UInt8
  | hardLink target => target
  | symlink target => target
  | _ => []

def deviceMajor : Node → ℕ
  | device _ major _ => major
  | _ => 0

def deviceMinor : Node → ℕ
  | device _ _ minor => minor
  | _ => 0

def data : Node → List UInt8
  | file _ data => data
  | _ => []

/-- The type of another file is none of those that `Load` knows. -/
def Proper : Node → Prop
  | other type => type ∉ [0x00, 0x30, 0x31, 0x32, 0x33, 0x34, 0x35, 0x36]
  | _ => True

end Node

namespace FileEntry

def header (e : FileEntry) : FileHeader :=
  { e.rest with
    fileName := padded 100 e.path
    mode := octal 8 e.mode
    fileSize := octal 12 e.node.data.length
    type := e.node.type
    linkName := padded 100 e.node.target
    signature := magic ++ [0]
    deviceMajor := octal 8 e.node.deviceMajor
    deviceMinor := octal 8 e.node.deviceMinor }

/-- The file in the archive: its header block, and the blocks of its content. -/
def block (e : FileEntry) : List UInt8 :=
  e.header.bytes ++ (List.replicate 12 0 ++
    (e.node.data ++ List.replicate (Prism.alignUp e.node.data.length 512 - e.node.data.length) 0))

/-- The strings and the numbers fit their fields. -/
structure Valid (e : FileEntry) : Prop where
  path : e.path.length < 100 ∧ (0 : UInt8) ∉ e.path
  target : e.node.target.length < 100 ∧ (0 : UInt8) ∉ e.node.target
  mode : e.mode < 8 ^ 7
  deviceMajor : e.node.deviceMajor < 8 ^ 7
  deviceMinor : e.node.deviceMinor < 8 ^ 7
  size : e.node.data.length < 8 ^ 11
  proper : e.node.Proper
  rest : e.rest.Sized

/-- What a file of an archive stands for. The directory in which the archive was made is left out,
and a hard link is a new path for the file at its target. -/
def unpack (e : FileEntry) : EStateM Errno σ Unit :=
  if e.path = [0x2e, 0x2f] then pure () else
  match e.node with
  | .file _ data => do
    match ← V.createFile e.path (e.mode ||| sIfreg) with
    | none => pure ()
    | some dentry => do
      let _ ← modifyGet (V.write dentry data)
  | .hardLink target => do
    let _ ← modifyGet (V.link target e.path)
  | .symlink target => do
    let _ ← modifyGet (V.symlink e.path target)
  | .device block major minor => do
    let mode := e.mode ||| if block then sIfblk else sIfchr
    let _ ← modifyGet (V.createNode e.path mode (makeDevice major minor))
  | .directory => do
    let _ ← V.createDirectory e.path (e.mode ||| sIfdir)
  | .fifo => V.toDo
  | .other _ => pure ()

end FileEntry

/-- An archive of files, ended by a block of zeros. -/
def archive (entries : List FileEntry) : List UInt8 :=
  entries.flatMap FileEntry.block ++ List.replicate 512 0

/-! ## Reading an archive -/

section Digits

variable {c : UInt8} {k n : ℕ}

theorem length_octalDigits (k n : ℕ) : (octalDigits k n).length = k := by
  induction k generalizing n with
  | zero => rfl
  | succ k ih => rw [octalDigits, List.length_append, ih, List.length_singleton]

theorem toNat_digit (n : ℕ) : (UInt8.ofNat (48 + n % 8)).toNat = 48 + n % 8 := by
  rw [UInt8.toNat_ofNat', Nat.mod_eq_of_lt (by omega)]

theorem octalDigits_spec (h : c ∈ octalDigits k n) : 48 ≤ c.toNat ∧ c.toNat < 48 + 8 := by
  induction k generalizing n with
  | zero => exact absurd h List.not_mem_nil
  | succ k ih =>
    rw [octalDigits, List.mem_append, List.mem_singleton] at h
    obtain h | rfl := h
    · exact ih h
    · have hmod := Nat.mod_lt n (show 0 < 8 by decide)
      rw [toNat_digit]
      omega

/-- A number is what its digits spell. -/
theorem ofDigits_octalDigits (k n : ℕ) : ofDigits 8 (octalDigits k n) = n % 8 ^ k := by
  induction k generalizing n with
  | zero => rw [octalDigits, Nat.pow_zero, Nat.mod_one]; rfl
  | succ k ih =>
    have hsnoc : ofDigits 8 (octalDigits (k + 1) n) =
        ofDigits 8 (octalDigits k (n / 8)) * 8 + ((UInt8.ofNat (48 + n % 8)).toNat - 48) := by
      rw [octalDigits, ofDigits, List.foldl_append]
      rfl
    rw [hsnoc, ih, toNat_digit, Nat.pow_succ', Nat.mod_mul, Nat.add_sub_cancel_left, Nat.add_comm,
      Nat.mul_comm]

theorem length_octal {count : ℕ} (hcount : 0 < count) (n : ℕ) : (octal count n).length = count := by
  rw [octal, List.length_append, length_octalDigits, List.length_singleton]
  omega

theorem length_padded {count : ℕ} {s : List UInt8} (h : s.length ≤ count) :
    (padded count s).length = count := by
  rw [padded, List.length_append, List.length_replicate]
  omega

end Digits

section Fields

variable {T} {m} {a count n bits : ℕ} {s : List UInt8}

theorem view_padded (hT : T.Reads) (hs : s.length < count ∧ (0 : UInt8) ∉ s)
    (hm : HoldsBytes m a (padded count s)) : T.view m a count = s := by
  obtain ⟨k, hk⟩ : ∃ k, count - s.length = k + 1 :=
    Nat.exists_eq_add_one_of_ne_zero (by have := hs.1; omega)
  refine hT.view m a count s hs.1 ?_ hs.2
  rw [padded, hk, List.replicate_succ, List.append_cons] at hm
  exact (holdsBytes_append.mp hm).1.spells

theorem number_octal (hT : T.Reads) (hn : n < 8 ^ (count - 1)) (hbits : 8 ^ (count - 1) ≤ 2 ^ bits)
    (hcount : 0 < count) (hm : HoldsBytes m a (octal count n)) :
    T.toNumber bits (T.view m a count) 8 = n := by
  have hval : ofDigits 8 (octalDigits (count - 1) n) = n := by
    rw [ofDigits_octalDigits, Nat.mod_eq_of_lt hn]
  have hzero : (0 : UInt8) ∉ octalDigits (count - 1) n := by
    intro hmem
    exact absurd (octalDigits_spec hmem).1 (by decide)
  have hlength : (octalDigits (count - 1) n).length < count := by
    rw [length_octalDigits]
    omega
  rw [hT.view m a count _ hlength hm.spells hzero,
    hT.toNumber bits _ 8 (by decide) (fun c hc => octalDigits_spec hc) (by rw [hval]; omega), hval]

end Fields

/-- Where the fields of a header are that `Load` reads. -/
theorem FileHeader.holds {m} {a : ℕ} {h : FileHeader} (hs : h.Sized) (hm : HoldsBytes m a h.bytes) :
    HoldsBytes m a h.fileName ∧ HoldsBytes m (a + 100) h.mode ∧
      HoldsBytes m (a + 124) h.fileSize ∧ m (a + 156) = h.type ∧
        HoldsBytes m (a + 157) h.linkName ∧ HoldsBytes m (a + 257) h.signature ∧
          HoldsBytes m (a + 329) h.deviceMajor ∧ HoldsBytes m (a + 337) h.deviceMinor := by
  simp only [FileHeader.bytes, holdsBytes_append, hs.fileName, hs.mode, hs.uid, hs.gid,
    hs.fileSize, hs.mTime, hs.checksum, hs.linkName, hs.signature, hs.version, hs.userName,
    hs.groupName, hs.deviceMajor, List.length_singleton, Nat.add_assoc] at hm
  obtain ⟨hname, hmode, -, -, hsize, -, -, htype, hlink, hsignature, -, -, -, hmajor, hminor, -⟩ :=
    hm
  exact ⟨hname, hmode, hsize, (holdsBytes_cons.mp htype).1, hlink, hsignature, hmajor, hminor⟩

theorem FileHeader.Sized.length_bytes {h : FileHeader} (hs : h.Sized) : h.bytes.length = 500 := by
  simp only [FileHeader.bytes, List.length_append, hs.fileName, hs.mode, hs.uid, hs.gid,
    hs.fileSize, hs.mTime, hs.checksum, hs.linkName, hs.signature, hs.version, hs.userName,
    hs.groupName, hs.deviceMajor, hs.deviceMinor, hs.filenamePrefix, List.length_singleton]

namespace FileEntry

variable {T} {m} {a : ℕ} {e : FileEntry}

theorem Valid.sized (he : e.Valid) : e.header.Sized :=
  { he.rest with
    fileName := length_padded he.path.1.le
    mode := length_octal (by decide) _
    fileSize := length_octal (by decide) _
    linkName := length_padded he.target.1.le
    signature := rfl
    deviceMajor := length_octal (by decide) _
    deviceMinor := length_octal (by decide) _ }

/-- What `Load` reads in the header of a file. -/
structure ReadBack (T : Text) (m : ℕ → UInt8) (a : ℕ) (e : FileEntry) : Prop where
  valid : validate m a = true
  path : T.view m a 100 = e.path
  target : T.view m (a + 157) 100 = e.node.target
  type : m (a + 156) = e.node.type
  mode : number T m 32 a 100 8 = e.mode
  size : number T m 64 a 124 12 = e.node.data.length
  deviceMajor : number T m 32 a 329 8 = e.node.deviceMajor
  deviceMinor : number T m 32 a 337 8 = e.node.deviceMinor
  data : bytesAt m (a + 512) e.node.data.length = e.node.data

theorem Valid.readBack (hT : T.Reads) (he : e.Valid) (hm : HoldsBytes m a e.block) :
    ReadBack T m a e := by
  obtain ⟨hheader, hrest⟩ := holdsBytes_append.mp hm
  obtain ⟨hname, hmode, hsize, htype, hlink, hsignature, hmajor, hminor⟩ :=
    FileHeader.holds he.sized hheader
  rw [he.sized.length_bytes] at hrest
  obtain ⟨-, hcontent⟩ := holdsBytes_append.mp hrest
  rw [List.length_replicate, Nat.add_assoc] at hcontent
  exact
    { valid := beq_iff_eq.mpr (holdsBytes_append.mp hsignature).1
      path := view_padded hT he.path hname
      target := view_padded hT he.target hlink
      type := htype
      mode := number_octal hT he.mode (by decide) (by decide) hmode
      size := number_octal hT he.size (by decide) (by decide) hsize
      deviceMajor := number_octal hT he.deviceMajor (by decide) (by decide) hmajor
      deviceMinor := number_octal hT he.deviceMinor (by decide) (by decide) hminor
      data := (holdsBytes_append.mp hcontent).1 }

/-- The work on one file of an archive. -/
theorem ReadBack.loadFile_eq (h : ReadBack T m a e) (hproper : e.node.Proper) :
    loadFile T V m a = e.unpack V.exchanged := by
  rw [loadFile, unpack]
  simp only [h.path, h.target, h.type, h.mode, h.size, h.deviceMajor, h.deviceMinor, h.data]
  by_cases hdot : e.path = [0x2e, 0x2f]
  · rw [if_pos hdot, if_pos hdot]
  rw [if_neg hdot, if_neg hdot]
  obtain ⟨path, mode, node, rest⟩ := e
  cases node with
  | file nul data => cases nul <;> rfl
  | hardLink target => rfl
  | symlink target => rfl
  | device block major minor => cases block <;> rfl
  | directory => rfl
  | fifo => rfl
  | other type =>
    simp only [Node.Proper, List.mem_cons, List.not_mem_nil, or_false, not_or] at hproper
    simp only [Node.type, hproper, or_self, if_false]

/-- Only a hard link asks for one. -/
theorem unpack_exchanged (h : ∀ target, e.node ≠ .hardLink target) :
    e.unpack V.exchanged = e.unpack V := by
  rw [unpack, unpack]
  obtain ⟨path, mode, node, rest⟩ := e
  cases node with
  | hardLink target => exact absurd rfl (h target)
  | _ => rfl

end FileEntry

/-! ## Loading an archive -/

section Archive

variable {T} {m} {a : ℕ} {e : FileEntry} {entries : List FileEntry}

theorem FileEntry.Valid.length_block (he : e.Valid) :
    e.block.length = 512 + Prism.alignUp e.node.data.length 512 := by
  have hle : e.node.data.length ≤ Prism.alignUp e.node.data.length 512 := by
    have hround := Prism.le_roundUp (show 0 < 512 by decide) e.node.data.length
    have hsize : e.node.data.length < 8 ^ 11 := he.size
    rw [Prism.alignUp, Nat.mod_eq_of_lt]
    · exact hround
    · exact (Nat.div_mul_le_self _ 512).trans_lt (by rw [wordCount]; omega)
  rw [FileEntry.block]
  simp only [List.length_append, List.length_replicate, he.sized.length_bytes]
  omega

/-- The next file begins where the blocks of a file end. -/
theorem FileEntry.ReadBack.getNextFile_eq (h : ReadBack T m a e) (he : e.Valid)
    (hend : a + e.block.length < wordCount) :
    getNextFile a (number T m 64 a 124 12) = a + e.block.length := by
  rw [he.length_block] at hend ⊢
  rw [getNextFile, h.size, offset_of_lt hend]

theorem not_validate_of_zeros (hm : HoldsBytes m a (List.replicate 512 0)) :
    validate m a = false := by
  have hsplit : List.replicate 512 (0 : UInt8) =
      List.replicate 257 0 ++ (List.replicate 5 0 ++ List.replicate 250 0) := by
    rw [← List.replicate_add, ← List.replicate_add]
  rw [hsplit] at hm
  have hfield := (holdsBytes_append.mp (holdsBytes_append.mp hm).2).1
  rw [List.length_replicate] at hfield
  rw [validate, show bytesAt m (a + 257) 5 = List.replicate 5 0 from hfield]
  rfl

/-- Loading an archive takes its files in their order, up to the first error. -/
theorem load_eq (hT : T.Reads) (hvalid : ∀ e ∈ entries, e.Valid)
    (hm : HoldsBytes m a (archive entries)) (hend : a + (archive entries).length < wordCount)
    {fuel : ℕ} (hfuel : entries.length < fuel) (s : σ) :
    load T V m fuel a s = some (forM entries (FileEntry.unpack V.exchanged) s) := by
  induction entries generalizing a fuel s with
  | nil =>
    obtain ⟨fuel, rfl⟩ := Nat.exists_eq_add_one_of_ne_zero (Nat.ne_zero_of_lt hfuel)
    rw [load, if_neg (by rw [not_validate_of_zeros hm]; exact Bool.false_ne_true)]
    rfl
  | cons e entries ih =>
    obtain ⟨fuel, rfl⟩ := Nat.exists_eq_add_one_of_ne_zero (Nat.ne_zero_of_lt hfuel)
    have hcons : archive (e :: entries) = e.block ++ archive entries := by
      rw [archive, List.flatMap_cons, List.append_assoc, archive]
    have he := hvalid e List.mem_cons_self
    rw [hcons, List.length_append] at hend
    obtain ⟨hblock, hrest⟩ := holdsBytes_append.mp (hcons ▸ hm)
    have hread := he.readBack hT hblock
    have hnext := hread.getNextFile_eq he (by omega)
    have hih := fun s => ih (fun e' h' => hvalid e' (List.mem_cons_of_mem e h')) hrest (by omega)
      (Nat.lt_of_succ_lt_succ hfuel) s
    rw [load, if_pos hread.valid, hread.loadFile_eq V he.proper, hnext, List.forM_cons]
    change _ = some (EStateM.bind (e.unpack V.exchanged) _ s)
    rw [EStateM.bind]
    cases e.unpack V.exchanged s with
    | ok u s => exact hih s
    | error err s => rfl

theorem forM_unpack_exchanged (h : ∀ e ∈ entries, ∀ target, e.node ≠ .hardLink target) :
    forM entries (FileEntry.unpack V.exchanged) = forM entries (FileEntry.unpack V) := by
  induction entries with
  | nil => rfl
  | cons e entries ih =>
    obtain ⟨he, hrest⟩ := List.forall_mem_cons.mp h
    rw [List.forM_cons, List.forM_cons, e.unpack_exchanged V he, ih hrest]

/-- Loading an archive runs what its files stand for, in their order, up to the first error, with
the paths of a hard link exchanged; an archive without hard links is loaded as it is. -/
theorem load_archive (hT : T.Reads) (hvalid : ∀ e ∈ entries, e.Valid)
    (hm : HoldsBytes m a (archive entries)) (hend : a + (archive entries).length < wordCount)
    {fuel : ℕ} (hfuel : entries.length < fuel) (s : σ) :
    load T V m fuel a s = some (forM entries (FileEntry.unpack V.exchanged) s) ∧
      ((∀ e ∈ entries, ∀ target, e.node ≠ .hardLink target) →
        load T V m fuel a s = some (forM entries (FileEntry.unpack V) s)) := by
  have hload := load_eq V hT hvalid hm hend hfuel s
  exact ⟨hload, fun hlinks => by rw [hload, forM_unpack_exchanged V hlinks]⟩

end Archive

/-! ### An archive of two files -/

/-- Text conversions as Prism documents them. -/
def plainText : Text where
  view m a count := cString m a count
  toNumber bits s base := ofDigits base s % 2 ^ bits

theorem plainText_reads : plainText.Reads where
  view _ _ _ _ hlength hm hzero := (cString_eq_iff hzero hlength).mpr hm
  toNumber _ _ _ _ _ hlt := Nat.mod_eq_of_lt hlt

/-- A file system that only notes what it is asked to do: the path, the mode and the content. -/
def journal : Vfs (List (List UInt8 × ℕ × List UInt8)) (List UInt8) where
  createFile path mode := fun s => .ok (some path) (s ++ [(path, mode, [])])
  createDirectory path mode := fun s => .ok (some path) (s ++ [(path, mode, [])])
  createNode path mode dev := fun s => (true, s ++ [(path, mode, [UInt8.ofNat dev])])
  link path target := fun s => (true, s ++ [(path, 0, target)])
  symlink path target := fun s => (true, s ++ [(path, 0, target)])
  write path data := fun s => (data.length, s ++ [(path, 0, data)])
  toDo := fun s => .ok () s

/-- A header of empty fields. -/
def blankHeader : FileHeader where
  fileName := padded 100 []
  mode := octal 8 0
  uid := octal 8 0
  gid := octal 8 0
  fileSize := octal 12 0
  mTime := octal 12 0
  checksum := octal 8 0
  type := 0
  linkName := padded 100 []
  signature := magic ++ [0]
  version := [0x30, 0x30]
  userName := padded 32 []
  groupName := padded 32 []
  deviceMajor := octal 8 0
  deviceMinor := octal 8 0
  filenamePrefix := padded 155 []

/-- A directory, and a file in it. -/
def twoFiles : List FileEntry :=
  [⟨[0x64], 0x1ed, .directory, blankHeader⟩,
    ⟨[0x64, 0x2f, 0x66], 0x1a4, .file false [0x68, 0x69], blankHeader⟩]

theorem twoFiles_valid : ∀ e ∈ twoFiles, e.Valid := by
  have hblank : blankHeader.Sized := by constructor <;> rfl
  intro e he
  simp only [twoFiles, List.mem_cons, List.not_mem_nil, or_false] at he
  obtain rfl | rfl := he
  · exact ⟨by decide, by decide, by decide, by decide, by decide, by decide, trivial, hblank⟩
  · exact ⟨by decide, by decide, by decide, by decide, by decide, by decide, trivial, hblank⟩

theorem load_archive_two_files :
    load plainText journal (writeBytes (fun _ => 0) 0 (archive twoFiles)) 3 0 [] =
      some (.ok () [([0x64], 0x41ed, []), ([0x64, 0x2f, 0x66], 0x81a4, []),
        ([0x64, 0x2f, 0x66], 0, [0x68, 0x69])]) := by
  refine ((load_archive journal plainText_reads twoFiles_valid (holdsBytes_writeBytes _ 0 _)
    ?_ (by decide) []).2 ?_).trans rfl
  swap
  · rintro e he target hlink
    simp only [twoFiles, List.mem_cons, List.not_mem_nil, or_false] at he
    obtain rfl | rfl := he <;> cases hlink
  have hdirectory := (twoFiles_valid _ (List.mem_cons_self)).length_block
  have hfile := (twoFiles_valid _ (List.mem_cons_of_mem _ List.mem_cons_self)).length_block
  rw [archive, twoFiles, List.flatMap_cons, List.flatMap_cons, List.flatMap_nil]
  simp only [List.length_append, hdirectory, hfile, List.length_nil, List.length_replicate]
  decide

end Cryptix.VFS.Ustar
