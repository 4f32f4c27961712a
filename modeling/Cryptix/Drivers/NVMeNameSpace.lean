import Mathlib.Data.List.FinRange
import Mathlib.Data.Fintype.Basic
import Mathlib.Logic.Function.Basic
import Cryptix.Lib.Transition

/-!
# The block cache of an NVMe namespace

`Kernel/Drivers/Storage/NVMe/NVMeNameSpace.cpp`: `Read` and `Write` work on byte ranges through a
cache of 512 blocks, each of four logical blocks of the disk. A block that is not cached is read
into a free slot, or in place of another block; a write goes to the cached block and, with the whole
block, to the disk.

The device behind `ReadWriteLba` transfers the blocks it is asked for, clipped at the end of the
namespace. It never reports a failure to its callers, so the branches for `-1` are left out.

A run of reads and writes is compared with the same run on a flat array of bytes
(`read_eq_flat`).
-/

namespace Cryptix.NVMe

open Lib

/-- `CacheWait`, `CacheReady` and `CacheDirty`. -/
inductive CacheStatus
  | wait | ready | dirty
  deriving DecidableEq, Repr

structure CachedBlock where
  cache : ℕ → UInt8
  block : ℕ
  status : CacheStatus

/-- The size and the number of the logical blocks, which `Initialize` reads from the device. -/
structure Geometry where
  lbaSize : ℕ
  lbaCount : ℕ
  lbaSize_pos : 0 < lbaSize

namespace Geometry

variable (g : Geometry)

/-- `m_CacheBlockSize`. -/
def cacheBlockSize : ℕ := g.lbaSize * 4

/-- The bytes of the namespace. -/
def size : ℕ := g.lbaCount * g.lbaSize

theorem cacheBlockSize_pos : 0 < g.cacheBlockSize :=
  Nat.mul_pos g.lbaSize_pos (by decide)

theorem cacheBlockSize_div_lbaSize : g.cacheBlockSize / g.lbaSize = 4 :=
  Nat.mul_div_cancel_left 4 g.lbaSize_pos

/-- The number of logical blocks that `ReadWriteLba` transfers when it is asked for `count`. -/
def clip (start count : ℕ) : ℕ :=
  if start + count ≥ g.lbaCount then count - (start + count - g.lbaCount) else count

end Geometry

/-- The first slot that has a property. -/
@[irreducible] def firstSlot {n : ℕ} (p : Fin n → Bool) : Option (Fin n) :=
  (List.finRange n).find? p

theorem firstSlot_eq_some {n : ℕ} {p : Fin n → Bool} {i : Fin n} (h : firstSlot p = some i) :
    p i = true := by
  rw [firstSlot] at h
  exact List.find?_some h

theorem firstSlot_eq_none {n : ℕ} {p : Fin n → Bool} (h : firstSlot p = none) (i : Fin n) :
    p i = false := by
  rw [firstSlot] at h
  simpa using List.find?_eq_none.mp h i (List.mem_finRange i)

/-- A namespace: the cache, the next slot to be overwritten, and the bytes of the disk. -/
structure NameSpace where
  cache : Fin 512 → CachedBlock
  overwritten : Fin 513
  disk : ℕ → UInt8

namespace NameSpace

variable (g : Geometry)

/-- `ReadWriteLba` as a read into a buffer. -/
def readLba (ns : NameSpace) (buffer : ℕ → UInt8) (start count : ℕ) : ℕ → UInt8 :=
  fun i => if i < g.clip start count * g.lbaSize then ns.disk (start * g.lbaSize + i) else buffer i

/-- `ReadWriteLba` as a write from a buffer. -/
def writeLba (ns : NameSpace) (buffer : ℕ → UInt8) (start count : ℕ) : NameSpace :=
  { ns with
    disk := fun j =>
      if start * g.lbaSize ≤ j ∧ j < start * g.lbaSize + g.clip start count * g.lbaSize then
        buffer (j - start * g.lbaSize)
      else ns.disk j }

/-- `FindBlock`. -/
def findBlock (ns : NameSpace) (block : ℕ) : Option (Fin 512) :=
  firstSlot fun i => (ns.cache i).block = block ∧ (ns.cache i).status ≠ .wait

/-- The slot `CacheBlock` reads into, its buffer and the next slot to be overwritten. A free slot
gets a new buffer. -/
def target (ns : NameSpace) : Fin 512 × (ℕ → UInt8) × Fin 513 :=
  match firstSlot fun i => (ns.cache i).status = .wait with
  | some i => (i, fun _ => 0, ns.overwritten)
  | none =>
    if h : ns.overwritten.val < 512 then
      (⟨ns.overwritten, h⟩, (ns.cache ⟨ns.overwritten, h⟩).cache, ⟨ns.overwritten + 1, by omega⟩)
    else (0, (ns.cache 0).cache, 0)

/-- `CacheBlock`. -/
def cacheBlock (ns : NameSpace) (block : ℕ) : Fin 512 × NameSpace :=
  let (target, buffer, overwritten) := ns.target
  let buffer := ns.readLba g buffer (g.cacheBlockSize / g.lbaSize * block)
    (g.cacheBlockSize / g.lbaSize)
  (target, { ns with
    cache := Function.update ns.cache target ⟨buffer, block, .ready⟩
    overwritten })

/-- The slot of a block, which is read if it is not cached. -/
def slotOf (ns : NameSpace) (sector : ℕ) : Fin 512 × NameSpace :=
  match ns.findBlock sector with
  | some slot => (slot, ns)
  | none => ns.cacheBlock g sector

/-- The bytes of the next chunk of a transfer: up to the end of the block or of the transfer. -/
def chunk (offset bytes progress : ℕ) : ℕ :=
  let rest := bytes - progress
  let off := (offset + progress) % g.cacheBlockSize
  if rest > g.cacheBlockSize - off then g.cacheBlockSize - off else rest

/-- The loop of `Read`, for at most `n` turns: the bytes that are appended to the buffer. -/
def readLoop (offset bytes : ℕ) : ℕ → ℕ → NameSpace → NameSpace × List UInt8
  | 0, _, ns => (ns, [])
  | n + 1, progress, ns =>
    if progress < bytes then
      let (slot, ns) := ns.slotOf g ((offset + progress) / g.cacheBlockSize)
      let off := (offset + progress) % g.cacheBlockSize
      let chunk := chunk g offset bytes progress
      let copied := (List.range chunk).map fun i => (ns.cache slot).cache (off + i)
      let (ns, rest) := readLoop offset bytes n (progress + chunk) ns
      (ns, copied ++ rest)
    else (ns, [])

/-- `NameSpace::Read`. Every turn of the loop makes progress. -/
def read (ns : NameSpace) (offset bytes : ℕ) : NameSpace × List UInt8 :=
  readLoop g offset bytes bytes 0 ns

/-- The loop of `Write`, for at most `n` turns. -/
def writeLoop (src : List UInt8) (offset : ℕ) : ℕ → ℕ → NameSpace → NameSpace
  | 0, _, ns => ns
  | n + 1, progress, ns =>
    if progress < src.length then
      let (slot, ns) := ns.slotOf g ((offset + progress) / g.cacheBlockSize)
      let off := (offset + progress) % g.cacheBlockSize
      let chunk := chunk g offset src.length progress
      let buffer := fun i =>
        if off ≤ i ∧ i < off + chunk then src.getD (progress + (i - off)) 0
        else (ns.cache slot).cache i
      let block := (ns.cache slot).block
      let ns := { ns with cache := Function.update ns.cache slot ⟨buffer, block, .ready⟩ }
      let ns := ns.writeLba g buffer (g.cacheBlockSize / g.lbaSize * block)
        (g.cacheBlockSize / g.lbaSize)
      writeLoop src offset n (progress + chunk) ns
    else ns

/-- `NameSpace::Write`. -/
def write (ns : NameSpace) (src : List UInt8) (offset : ℕ) : NameSpace :=
  writeLoop g src offset src.length 0 ns

/-- The cache and the disk hold the bytes of the flat array, and no block is cached twice. -/
structure Inv (ns : NameSpace) (flat : ℕ → UInt8) : Prop where
  disk : ∀ j < g.size, ns.disk j = flat j
  cached : ∀ slot, (ns.cache slot).status ≠ .wait → ∀ i < g.cacheBlockSize,
    (ns.cache slot).block * g.cacheBlockSize + i < g.size →
      (ns.cache slot).cache i = flat ((ns.cache slot).block * g.cacheBlockSize + i)
  distinct : ∀ slot slot', (ns.cache slot).status ≠ .wait → (ns.cache slot').status ≠ .wait →
    (ns.cache slot).block = (ns.cache slot').block → slot = slot'

variable {g}

theorem start_mul_lbaSize (block : ℕ) :
    g.cacheBlockSize / g.lbaSize * block * g.lbaSize = block * g.cacheBlockSize := by
  rw [g.cacheBlockSize_div_lbaSize, Geometry.cacheBlockSize, Nat.mul_comm 4 block, Nat.mul_assoc,
    Nat.mul_comm 4]

/-- A transfer of a block of the namespace moves the bytes that lie inside of it. -/
theorem lt_clip_mul_iff {block i : ℕ} (h : block * g.cacheBlockSize < g.size) :
    i < g.clip (g.cacheBlockSize / g.lbaSize * block) (g.cacheBlockSize / g.lbaSize) * g.lbaSize ↔
      i < g.cacheBlockSize ∧ block * g.cacheBlockSize + i < g.size := by
  have hstart : 4 * block * g.lbaSize = block * g.cacheBlockSize := by
    rw [← start_mul_lbaSize, g.cacheBlockSize_div_lbaSize]
  have hblock : 4 * block < g.lbaCount := by
    rw [← hstart, Geometry.size] at h
    exact Nat.lt_of_mul_lt_mul_right h
  rw [g.cacheBlockSize_div_lbaSize, Geometry.clip]
  split
  · rename_i hend
    have hclip : 4 - (4 * block + 4 - g.lbaCount) = g.lbaCount - 4 * block := by omega
    have hle : (g.lbaCount - 4 * block) * g.lbaSize ≤ 4 * g.lbaSize :=
      Nat.mul_le_mul_right _ (by omega)
    rw [hclip, Nat.sub_mul, hstart] at *
    rw [Geometry.cacheBlockSize, Geometry.size] at *
    omega
  · rename_i hend
    have hle : (4 * block + 4) * g.lbaSize ≤ g.lbaCount * g.lbaSize :=
      Nat.mul_le_mul_right _ (by omega)
    rw [Nat.add_mul, hstart] at hle
    rw [Geometry.cacheBlockSize, Geometry.size] at *
    omega

/-! ## Finding a block -/

theorem Inv.cacheBlock {ns : NameSpace} {flat : ℕ → UInt8} {sector : ℕ} (h : Inv g ns flat)
    (hsector : sector * g.cacheBlockSize < g.size) (hfind : ns.findBlock sector = none) :
    Inv g (ns.cacheBlock g sector).2 flat := by
  rcases htarget : ns.target with ⟨slot, buffer, overwritten⟩
  have hfresh : ∀ slot, (ns.cache slot).status ≠ .wait → (ns.cache slot).block ≠ sector := by
    intro slot hslot hblock
    have hnot := firstSlot_eq_none hfind slot
    simp [hslot, hblock] at hnot
  simp only [NameSpace.cacheBlock, htarget]
  refine ⟨h.disk, fun slot' hstatus i hi hin => ?_, fun slot₁ slot₂ h₁ h₂ heq => ?_⟩
  · by_cases hs : slot' = slot
    · subst hs
      simp only [Function.update_self] at hin ⊢
      rw [readLba, if_pos ((lt_clip_mul_iff hsector).mpr ⟨hi, hin⟩), start_mul_lbaSize]
      exact h.disk _ hin
    · simp only [Function.update_of_ne hs] at hstatus hin ⊢
      exact h.cached slot' hstatus i hi hin
  · by_cases hs₁ : slot₁ = slot
    · by_cases hs₂ : slot₂ = slot
      · rw [hs₁, hs₂]
      · simp only [hs₁, Function.update_self, Function.update_of_ne hs₂] at heq h₂
        exact absurd heq.symm (hfresh slot₂ h₂)
    · by_cases hs₂ : slot₂ = slot
      · simp only [hs₂, Function.update_self, Function.update_of_ne hs₁] at heq h₁
        exact absurd heq (hfresh slot₁ h₁)
      · simp only [Function.update_of_ne hs₁, Function.update_of_ne hs₂] at h₁ h₂ heq
        exact h.distinct slot₁ slot₂ h₁ h₂ heq

theorem findBlock_eq_some {ns : NameSpace} {sector : ℕ} {slot : Fin 512}
    (h : ns.findBlock sector = some slot) :
    (ns.cache slot).block = sector ∧ (ns.cache slot).status ≠ .wait := by
  simpa using firstSlot_eq_some h

/-- What `Read` and `Write` know about the slot they work on. -/
theorem Inv.slotOf {ns : NameSpace} {flat : ℕ → UInt8} {sector : ℕ} (h : Inv g ns flat)
    (hsector : sector * g.cacheBlockSize < g.size) :
    Inv g (ns.slotOf g sector).2 flat ∧
      ((ns.slotOf g sector).2.cache (ns.slotOf g sector).1).block = sector ∧
      ((ns.slotOf g sector).2.cache (ns.slotOf g sector).1).status ≠ .wait := by
  rw [NameSpace.slotOf]
  cases hfind : ns.findBlock sector with
  | some slot => exact ⟨h, findBlock_eq_some hfind⟩
  | none =>
    refine ⟨h.cacheBlock hsector hfind, ?_⟩
    simp [NameSpace.cacheBlock]

/-! ## The chunks of a transfer -/

theorem chunk_le (offset bytes progress : ℕ) :
    chunk g offset bytes progress ≤ bytes - progress := by
  simp only [chunk]
  split <;> omega

theorem mod_add_chunk_le (offset bytes progress : ℕ) :
    (offset + progress) % g.cacheBlockSize + chunk g offset bytes progress ≤ g.cacheBlockSize := by
  have hmod := Nat.mod_lt (offset + progress) g.cacheBlockSize_pos
  simp only [chunk]
  split <;> omega

theorem chunk_pos (offset : ℕ) {bytes progress : ℕ} (h : progress < bytes) :
    0 < chunk g offset bytes progress := by
  have hmod := Nat.mod_lt (offset + progress) g.cacheBlockSize_pos
  simp only [chunk]
  split <;> omega

/-- A position, as its block and its place in the block. -/
theorem sector_mul_add_mod (position : ℕ) :
    position / g.cacheBlockSize * g.cacheBlockSize + position % g.cacheBlockSize = position := by
  rw [Nat.mul_comm, Nat.div_add_mod]

theorem sector_mul_lt {position : ℕ} (h : position < g.size) :
    position / g.cacheBlockSize * g.cacheBlockSize < g.size :=
  lt_of_le_of_lt (Nat.div_mul_le_self _ _) h

/-! ## Reading -/

/-- What a turn of `Read` copies out of the slot it found. -/
theorem Inv.copied {ns : NameSpace} {flat : ℕ → UInt8} {slot : Fin 512} {offset bytes progress : ℕ}
    (h : Inv g ns flat) (hin : offset + bytes ≤ g.size)
    (hblock : (ns.cache slot).block = (offset + progress) / g.cacheBlockSize)
    (hstatus : (ns.cache slot).status ≠ .wait) :
    ((List.range (chunk g offset bytes progress)).map fun i =>
        (ns.cache slot).cache ((offset + progress) % g.cacheBlockSize + i)) =
      (List.range (chunk g offset bytes progress)).map fun i => flat (offset + progress + i) := by
  refine List.map_congr_left fun i hi => ?_
  have hchunk := chunk_le (g := g) offset bytes progress
  have hend := mod_add_chunk_le (g := g) offset bytes progress
  have hposition := sector_mul_add_mod (g := g) (offset + progress)
  have hi := List.mem_range.mp hi
  have hcached := h.cached slot hstatus ((offset + progress) % g.cacheBlockSize + i) (by omega)
  rw [hblock, ← Nat.add_assoc, hposition] at hcached
  exact hcached (by omega)

/-- The loop of `Read` keeps the invariant, whatever it has to evict, and copies the bytes of the
flat array. -/
theorem Inv.readLoop {flat : ℕ → UInt8} {offset bytes : ℕ} (hin : offset + bytes ≤ g.size) (n : ℕ) :
    ∀ (progress : ℕ) {ns : NameSpace}, Inv g ns flat → bytes ≤ progress + n →
      Inv g (readLoop g offset bytes n progress ns).1 flat ∧
      (readLoop g offset bytes n progress ns).2 =
        (List.range (bytes - progress)).map fun i => flat (offset + progress + i) := by
  induction n with
  | zero =>
    intro progress ns h hn
    have hdone : bytes - progress = 0 := by omega
    simp [NameSpace.readLoop, hdone, h]
  | succ n ih =>
    intro progress ns h hn
    by_cases hlt : progress < bytes
    · have hsector : (offset + progress) / g.cacheBlockSize * g.cacheBlockSize < g.size :=
        sector_mul_lt (by omega)
      obtain ⟨hinv, hblock, hstatus⟩ := h.slotOf hsector
      have hpos := chunk_pos (g := g) offset hlt
      have hchunk := chunk_le (g := g) offset bytes progress
      obtain ⟨hinv', hrest⟩ := ih (progress + chunk g offset bytes progress) hinv (by omega)
      have hlen : bytes - progress = chunk g offset bytes progress +
          (bytes - (progress + chunk g offset bytes progress)) := by omega
      rw [NameSpace.readLoop, if_pos hlt]
      refine ⟨hinv', ?_⟩
      simp only
      rw [hinv.copied hin hblock hstatus, hrest, hlen, List.range_add, List.map_append,
        List.map_map]
      simp only [Function.comp_def, Nat.add_assoc]
    · have hdone : bytes - progress = 0 := by omega
      simp [NameSpace.readLoop, hlt, hdone, h]

/-! ## Writing -/

/-- A flat array with `src` written at `offset`. -/
def writeFlat (flat : ℕ → UInt8) (src : List UInt8) (offset : ℕ) : ℕ → UInt8 :=
  fun j => if offset ≤ j ∧ j < offset + src.length then src.getD (j - offset) 0 else flat j

/-- Two writes one after the other, as one. -/
theorem writeFlat_writeFlat (flat : ℕ → UInt8) (a b : List UInt8) (offset : ℕ) :
    writeFlat (writeFlat flat a offset) b (offset + a.length) = writeFlat flat (a ++ b) offset := by
  funext j
  simp only [writeFlat, List.length_append, List.getD_eq_getElem?_getD, List.getElem?_append]
  by_cases hb : offset + a.length ≤ j ∧ j < offset + a.length + b.length
  · rw [if_pos hb, if_pos (by omega), if_neg (by omega), Nat.sub_sub]
  · rw [if_neg hb]
    by_cases ha : offset ≤ j ∧ j < offset + a.length
    · rw [if_pos ha, if_pos (by omega), if_pos (by omega)]
    · rw [if_neg ha, if_neg (by omega)]

/-- A turn of `Write`: the bytes go to the place `off` of the cached block, and the block to the
disk. -/
def writeChunk (g : Geometry) (ns : NameSpace) (slot : Fin 512) (off : ℕ) (data : List UInt8) :
    NameSpace :=
  let buffer := writeFlat (ns.cache slot).cache data off
  let block := (ns.cache slot).block
  writeLba g { ns with cache := Function.update ns.cache slot ⟨buffer, block, .ready⟩ } buffer
    (g.cacheBlockSize / g.lbaSize * block) (g.cacheBlockSize / g.lbaSize)

theorem writeLoop_succ {src : List UInt8} {offset n progress : ℕ} {ns : NameSpace}
    (h : progress < src.length) :
    writeLoop g src offset (n + 1) progress ns =
      writeLoop g src offset n (progress + chunk g offset src.length progress)
        (writeChunk g (ns.slotOf g ((offset + progress) / g.cacheBlockSize)).2
          (ns.slotOf g ((offset + progress) / g.cacheBlockSize)).1
          ((offset + progress) % g.cacheBlockSize)
          ((src.drop progress).take (chunk g offset src.length progress))) := by
  have hchunk := chunk_le (g := g) offset src.length progress
  have hlen : ((src.drop progress).take (chunk g offset src.length progress)).length =
      chunk g offset src.length progress := by
    rw [List.length_take, List.length_drop, Nat.min_eq_left hchunk]
  rw [writeLoop, if_pos h]
  simp only
  congr 1
  rw [writeChunk]
  generalize ns.slotOf g ((offset + progress) / g.cacheBlockSize) = found
  have hbuffer : (fun i =>
      if (offset + progress) % g.cacheBlockSize ≤ i ∧
          i < (offset + progress) % g.cacheBlockSize + chunk g offset src.length progress then
        src.getD (progress + (i - (offset + progress) % g.cacheBlockSize)) 0
      else (found.2.cache found.1).cache i) =
      writeFlat (found.2.cache found.1).cache
        ((src.drop progress).take (chunk g offset src.length progress))
        ((offset + progress) % g.cacheBlockSize) := by
    funext i
    rw [writeFlat, hlen]
    refine if_ctx_congr Iff.rfl (fun hi => ?_) fun _ => rfl
    rw [List.getD_eq_getElem?_getD, List.getD_eq_getElem?_getD, List.getElem?_take,
      if_pos (by omega), List.getElem?_drop]
  rw [hbuffer]

/-- A place in one block is in no other. -/
theorem block_eq_of_mem {block block' i : ℕ} (off : ℕ) (hoff : off < g.cacheBlockSize)
    (hi : i < g.cacheBlockSize)
    (h : block' * g.cacheBlockSize + i = block * g.cacheBlockSize + off) : block' = block := by
  have hdiv (b k : ℕ) (hk : k < g.cacheBlockSize) :
      (b * g.cacheBlockSize + k) / g.cacheBlockSize = b := by
    rw [Nat.mul_comm, Nat.mul_add_div g.cacheBlockSize_pos, Nat.div_eq_of_lt hk, Nat.add_zero]
  rw [← hdiv block' i hi, h, hdiv block off hoff]

/-- The buffer of a cached block and the flat array agree after the write as before it. -/
theorem writeFlat_block {flat cache : ℕ → UInt8} {data : List UInt8} {block off i : ℕ}
    (h : cache i = flat (block * g.cacheBlockSize + i)) :
    writeFlat cache data off i =
      writeFlat flat data (block * g.cacheBlockSize + off) (block * g.cacheBlockSize + i) := by
  simp only [writeFlat, Nat.add_sub_add_left, Nat.add_assoc, Nat.add_le_add_iff_left,
    Nat.add_lt_add_iff_left, h]

/-- The other blocks are not touched by a write. -/
theorem writeFlat_other_block {flat : ℕ → UInt8} {data : List UInt8} {block block' off i : ℕ}
    (hoff : off + data.length ≤ g.cacheBlockSize) (hi : i < g.cacheBlockSize)
    (hne : block' ≠ block) :
    writeFlat flat data (block * g.cacheBlockSize + off) (block' * g.cacheBlockSize + i) =
      flat (block' * g.cacheBlockSize + i) := by
  refine if_neg fun hmem => hne ?_
  refine block_eq_of_mem (block' * g.cacheBlockSize + i - block * g.cacheBlockSize) ?_ hi ?_
  all_goals omega

theorem Inv.writeChunk {ns : NameSpace} {flat : ℕ → UInt8} {slot : Fin 512} (off : ℕ)
    (data : List UInt8) (h : Inv g ns flat) (hstatus : (ns.cache slot).status ≠ .wait)
    (hin : (ns.cache slot).block * g.cacheBlockSize < g.size)
    (hoff : off + data.length ≤ g.cacheBlockSize) :
    Inv g (writeChunk g ns slot off data)
      (writeFlat flat data ((ns.cache slot).block * g.cacheBlockSize + off)) := by
  refine ⟨fun j hj => ?_, fun slot' hstatus' i hi hin' => ?_, fun slot₁ slot₂ h₁ h₂ heq => ?_⟩
  · -- a byte of the disk is written when its block is the one of the slot
    simp only [NameSpace.writeChunk, writeLba]
    rw [start_mul_lbaSize]
    have hclip := lt_clip_mul_iff (i := j - (ns.cache slot).block * g.cacheBlockSize) hin
    split
    · rename_i hmem
      obtain ⟨hle, hlt⟩ := hmem
      obtain ⟨i, rfl⟩ := Nat.exists_eq_add_of_le hle
      rw [Nat.add_sub_cancel_left] at hclip ⊢
      obtain ⟨hi, -⟩ := hclip.mp (by omega)
      exact writeFlat_block (h.cached slot hstatus i hi hj)
    · rename_i hmem
      rw [h.disk j hj, writeFlat, if_neg]
      intro hwritten
      refine hmem ⟨by omega, ?_⟩
      omega
  · by_cases hs : slot' = slot
    · subst hs
      simp only [NameSpace.writeChunk, writeLba, Function.update_self] at hin' ⊢
      exact writeFlat_block (h.cached slot' hstatus i hi hin')
    · simp only [NameSpace.writeChunk, writeLba, Function.update_of_ne hs] at hstatus' hin' ⊢
      have hne : (ns.cache slot').block ≠ (ns.cache slot).block :=
        fun heq => hs (h.distinct slot' slot hstatus' hstatus heq)
      rw [writeFlat_other_block hoff hi hne]
      exact h.cached slot' hstatus' i hi hin'
  · -- the slots hold the same blocks as before
    have hsame (slot' : Fin 512) :
        ((NameSpace.writeChunk g ns slot off data).cache slot').block = (ns.cache slot').block ∧
        (((NameSpace.writeChunk g ns slot off data).cache slot').status ≠ .wait →
          (ns.cache slot').status ≠ .wait) := by
      by_cases hs : slot' = slot
      · subst hs
        simp [NameSpace.writeChunk, writeLba, hstatus]
      · simp [NameSpace.writeChunk, writeLba, Function.update_of_ne hs]
    rw [(hsame slot₁).1, (hsame slot₂).1] at heq
    exact h.distinct slot₁ slot₂ ((hsame slot₁).2 h₁) ((hsame slot₂).2 h₂) heq

/-- The loop of `Write` brings the bytes of `src` into the flat array, chunk after chunk. -/
theorem Inv.writeLoop {flat : ℕ → UInt8} {src : List UInt8} {offset : ℕ}
    (hin : offset + src.length ≤ g.size) (n : ℕ) :
    ∀ (progress : ℕ) {ns : NameSpace}, Inv g ns (writeFlat flat (src.take progress) offset) →
      src.length ≤ progress + n → Inv g (writeLoop g src offset n progress ns)
        (writeFlat flat src offset) := by
  induction n with
  | zero =>
    intro progress ns h hn
    rw [List.take_of_length_le (by omega)] at h
    exact h
  | succ n ih =>
    intro progress ns h hn
    by_cases hlt : progress < src.length
    · have hsector : (offset + progress) / g.cacheBlockSize * g.cacheBlockSize < g.size :=
        sector_mul_lt (by omega)
      obtain ⟨hinv, hblock, hstatus⟩ := h.slotOf hsector
      have hpos := chunk_pos (g := g) offset hlt
      have hend := mod_add_chunk_le (g := g) offset src.length progress
      have hlen : (src.take progress).length = progress := by
        rw [List.length_take, Nat.min_eq_left (by omega)]
      rw [writeLoop_succ hlt]
      refine ih _ ?_ (by omega)
      have hwritten := hinv.writeChunk ((offset + progress) % g.cacheBlockSize)
        ((src.drop progress).take (chunk g offset src.length progress)) hstatus
        (by rwa [hblock]) (by rw [List.length_take]; omega)
      have hmerge := writeFlat_writeFlat flat (src.take progress)
        ((src.drop progress).take (chunk g offset src.length progress)) offset
      rw [hlen, ← List.take_add] at hmerge
      rwa [hblock, sector_mul_add_mod, hmerge] at hwritten
    · rw [List.take_of_length_le (by omega)] at h
      rw [NameSpace.writeLoop, if_neg hlt]
      exact h

/-! ## Runs of calls -/

/-- A call of `Read` or `Write`. -/
inductive Call
  | read (offset bytes : ℕ)
  | write (src : List UInt8) (offset : ℕ)

/-- The range of a call lies inside the namespace. -/
def Call.InRange (g : Geometry) : Call → Prop
  | read offset bytes => offset + bytes ≤ g.size
  | write src offset => offset + src.length ≤ g.size

instance (g : Geometry) : ∀ call : Call, Decidable (call.InRange g)
  | .read offset bytes => inferInstanceAs (Decidable (offset + bytes ≤ g.size))
  | .write src offset => inferInstanceAs (Decidable (offset + src.length ≤ g.size))

/-- A namespace after `Initialize`: the cache is allocated with zeros, so every slot is free. -/
def boot (disk : ℕ → UInt8) : NameSpace where
  cache _ := ⟨fun _ => 0, 0, .wait⟩
  overwritten := 0
  disk

/-- A call on the namespace and on the flat array. -/
def step (g : Geometry) : NameSpace × (ℕ → UInt8) → Call → Option (NameSpace × (ℕ → UInt8))
  | (ns, flat), .read offset bytes => some ((ns.read g offset bytes).1, flat)
  | (ns, flat), .write src offset => some (ns.write g src offset, writeFlat flat src offset)

theorem inv_boot (disk : ℕ → UInt8) : Inv g (boot disk) disk where
  disk _ _ := rfl
  cached _ hstatus := absurd rfl hstatus
  distinct _ _ hstatus := absurd rfl hstatus

theorem Inv.read {ns : NameSpace} {flat : ℕ → UInt8} {offset bytes : ℕ} (h : Inv g ns flat)
    (hin : offset + bytes ≤ g.size) :
    Inv g (ns.read g offset bytes).1 flat ∧
      (ns.read g offset bytes).2 = (List.range bytes).map fun i => flat (offset + i) := by
  have hloop := Inv.readLoop hin bytes 0 h (by omega)
  rwa [Nat.sub_zero, Nat.add_zero] at hloop

theorem Inv.write {ns : NameSpace} {flat : ℕ → UInt8} {src : List UInt8} {offset : ℕ}
    (h : Inv g ns flat) (hin : offset + src.length ≤ g.size) :
    Inv g (ns.write g src offset) (writeFlat flat src offset) := by
  have hnone : writeFlat flat (src.take 0) offset = flat := by
    funext j
    exact if_neg (by simp)
  exact Inv.writeLoop hin src.length 0 (by rwa [hnone]) (by omega)

theorem Inv.step {s s' : NameSpace × (ℕ → UInt8)} {call : Call} (h : Inv g s.1 s.2)
    (hin : call.InRange g) (hstep : step g s call = some s') : Inv g s'.1 s'.2 := by
  cases call with
  | read offset bytes =>
    obtain rfl := Option.some.inj hstep
    exact (h.read hin).1
  | write src offset =>
    obtain rfl := Option.some.inj hstep
    exact h.write hin

/-- After every run of calls inside the namespace the cached blocks are the blocks of the flat array
the writes of the run give, and a read returns the bytes of that array. -/
theorem read_eq_flat (g : Geometry) (disk : ℕ → UInt8) {s : NameSpace × (ℕ → UInt8)}
    (h : Reaches (step g) (fun _ call => call.InRange g) (boot disk, disk) s) :
    (∀ slot, (s.1.cache slot).status ≠ .wait → ∀ i < g.cacheBlockSize,
      (s.1.cache slot).block * g.cacheBlockSize + i < g.size →
        (s.1.cache slot).cache i = s.2 ((s.1.cache slot).block * g.cacheBlockSize + i)) ∧
    ∀ offset bytes, offset + bytes ≤ g.size →
      (s.1.read g offset bytes).2 = (List.range bytes).map fun i => s.2 (offset + i) := by
  have hinv : Inv g s.1 s.2 := h.invariant (P := fun s => Inv g s.1 s.2) (inv_boot disk)
    fun _ _ _ hs hin hstep => Inv.step hs hin hstep
  exact ⟨hinv.cached, fun _ _ hin => (hinv.read hin).2⟩

/-- A write over the end of a cached block, read back with its neighbours. -/
theorem read_after_unaligned_write :
    ∃ s, Reaches (step ⟨1, 8, by decide⟩) (fun _ call => call.InRange ⟨1, 8, by decide⟩)
        (boot UInt8.ofNat, UInt8.ofNat) s ∧
      (s.1.read ⟨1, 8, by decide⟩ 2 5).2 = [2, 20, 21, 22, 6] := by
  have hread : Reaches (step ⟨1, 8, by decide⟩) (fun _ call => call.InRange ⟨1, 8, by decide⟩)
      (boot UInt8.ofNat, UInt8.ofNat) (((boot UInt8.ofNat).read ⟨1, 8, by decide⟩ 0 2).1,
        UInt8.ofNat) :=
    .tail (.read 0 2) .refl (by decide) (by rw [step])
  generalize ((boot UInt8.ofNat).read ⟨1, 8, by decide⟩ 0 2).1 = ns at hread
  have hwrite := hread.tail (.write [20, 21, 22] 3) (by decide) (by rw [step])
  refine ⟨_, hwrite, ?_⟩
  rw [(read_eq_flat ⟨1, 8, by decide⟩ UInt8.ofNat hwrite).2 2 5 (by decide)]
  rfl

end NameSpace

end Cryptix.NVMe
