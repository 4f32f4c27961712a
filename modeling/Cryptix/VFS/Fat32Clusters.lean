import Cryptix.Lib.Bytes
import Cryptix.Lib.Checked
import Cryptix.Lib.CopyLoop
import Cryptix.Lib.Links
import Cryptix.Prism

/-!
# Cluster chains of a FAT32 volume

The members of `Fat32Fs` that `Mount` computes from the boot record, and the functions of
`Kernel/VFS/Fat32Fs/Fat32Fs.cpp` that follow a chain: `GetChainSize`, `SkipCluster`,
`ReadWriteClusters`. The clusters of a volume are numbered from 2 on. The entry of a cluster in the
table has the next one of its chain in its low 28 bits.

`GetNextCluster` does not mask the other four, so that an entry in which they are set is taken for
the end of the chain. `GetChainSize` counts the links up to the first number that is large enough,
over free entries and round and round a cycle (`getChainSize_counts_iff`). And `ReadWriteClusters`
asserts that the cluster is less than `m_ClusterCount`, which the last two of a volume are not
(`readWriteClusters_moves_iff`).

The device does not fail: it is a byte for each offset.
-/

namespace Cryptix.VFS

open Lib

/-- `Fat32BootRecord`, as far as the geometry goes. -/
structure Fat32BootRecord where
  bytesPerSector : UInt16
  sectorsPerCluster : UInt8
  reservedSectorCount : UInt16
  fatCount : UInt8
  largeSectorCount : UInt32
  sectorsPerFat : UInt32

/-- `Fat32Fs`: the geometry of a volume. -/
structure Fat32Fs where
  bootRecord : Fat32BootRecord
  clusterSize : ℕ
  clusterCount : ℕ
  fatOffset : ℕ
  dataOffset : ℕ

/-- The device, and the memory that is read to or written from. -/
structure Fat32State where
  device : ℕ → UInt8
  memory : ℕ → UInt8

namespace Fat32BootRecord

variable (boot : Fat32BootRecord)

/-- `dataSector` of `Mount`. -/
def dataSector : ℕ :=
  (boot.reservedSectorCount.toNat + boot.fatCount.toNat * boot.sectorsPerFat.toNat) % 2 ^ 32

/-- The members that `Mount` sets, for a device with `st_blocks` blocks. -/
def mount (blocks : ℕ) : Fat32Fs where
  bootRecord := boot
  clusterSize := boot.sectorsPerCluster.toNat * boot.bytesPerSector.toNat
  clusterCount :=
    (((blocks : ℤ) - boot.dataSector).tdiv boot.sectorsPerCluster.toNat % wordCount).toNat
  fatOffset := boot.reservedSectorCount.toNat * boot.bytesPerSector.toNat
  dataOffset := boot.dataSector * boot.bytesPerSector.toNat

end Fat32BootRecord

namespace Fat32BootRecord

/-- A boot record in good order, of a volume with `count` clusters. A sector has as many bytes as
FAT allows, so that no product of `Mount` overflows an `int`. -/
structure WellFormed (boot : Fat32BootRecord) (count : ℕ) : Prop where
  bytesPerSector_pos : 0 < boot.bytesPerSector.toNat
  bytesPerSector_le : boot.bytesPerSector.toNat ≤ 4096
  sectorsPerCluster_pos : 0 < boot.sectorsPerCluster.toNat
  fatCount_pos : 0 < boot.fatCount.toNat
  fat : (count + 2) * 4 ≤ boot.sectorsPerFat.toNat * boot.bytesPerSector.toNat
  sectors : boot.reservedSectorCount.toNat + boot.fatCount.toNat * boot.sectorsPerFat.toNat +
    boot.sectorsPerCluster.toNat * count ≤ boot.largeSectorCount.toNat
  count_le : count + 2 ≤ 0xffffff7

end Fat32BootRecord

namespace Fat32Fs

/-- `IsFinalCluster`. -/
def IsFinalCluster (cluster : ℕ) : Prop := 0xffffff8 ≤ cluster

instance : DecidablePred IsFinalCluster := fun cluster =>
  inferInstanceAs (Decidable (0xffffff8 ≤ cluster))

variable (fs : Fat32Fs) (device : ℕ → UInt8)

/-- The bytes of one table. -/
def fatSize : ℕ := fs.bootRecord.sectorsPerFat.toNat * fs.bootRecord.bytesPerSector.toNat

/-- `GetNextCluster`. -/
def getNextCluster (cluster : ℕ) : ℕ := readLE device (fs.fatOffset + cluster * 4 % 2 ^ 32) 4

/-- `GetNextCluster` reads inside of the table. -/
def InsideFat (cluster : ℕ) : Prop := cluster * 4 % 2 ^ 32 + 4 ≤ fs.fatSize

instance : DecidablePred fs.InsideFat := fun _ => inferInstanceAs (Decidable (_ ≤ _))

/-- The loop of `GetChainSize`. -/
def getChainSizeLoop : ℕ → ℕ → ℕ → Except ScanFault ℕ
  | 0, cluster, count => if IsFinalCluster cluster then .ok count else .error .endless
  | fuel + 1, cluster, count =>
    if IsFinalCluster cluster then .ok count
    else if fs.InsideFat cluster then
      getChainSizeLoop fuel (fs.getNextCluster device cluster) (count + 1)
    else .error .outside

/-- `GetChainSize`. -/
def getChainSize (fuel cluster : ℕ) : Except ScanFault ℕ :=
  fs.getChainSizeLoop device fuel cluster 0

/-- `SkipCluster`, with `end`. -/
def skipCluster : ℕ → ℕ → ℕ × Bool
  | 0, cluster => (cluster, false)
  | count + 1, cluster =>
    let next := fs.getNextCluster device cluster
    if IsFinalCluster next then (cluster, true) else skipCluster count next

/-- `GetClusterOffset`, of a 32-bit cluster number. -/
def getClusterOffset (cluster : ℕ) : ℕ :=
  (fs.dataOffset + fs.clusterSize * ((cluster + 2 ^ 32 - 2) % 2 ^ 32)) % wordCount

end Fat32Fs

/-- `m_Device->Write` and `m_Device->Read`: bytes go between the memory and the device. -/
def Fat32State.transfer (s : Fat32State) (dest address bytes : ℕ) (write : Bool) : Fat32State :=
  if write then
    { s with device := overlay address bytes (fun i => s.memory (dest + i)) s.device }
  else { s with memory := overlay dest bytes (fun i => s.device (address + i)) s.memory }

theorem Fat32State.transfer_write (s : Fat32State) (dest address bytes : ℕ) :
    s.transfer dest address bytes true =
      ⟨overlay address bytes (fun i => s.memory (dest + i)) s.device, s.memory⟩ :=
  rfl

theorem Fat32State.transfer_read (s : Fat32State) (dest address bytes : ℕ) :
    s.transfer dest address bytes false =
      ⟨s.device, overlay dest bytes (fun i => s.device (address + i)) s.memory⟩ :=
  rfl

namespace Fat32Fs

variable (fs : Fat32Fs)

/-- `ReadWriteCluster`. -/
def readWriteCluster (dest cluster offset bytes : ℕ) (write : Bool) (s : Fat32State) :
    Fat32State :=
  s.transfer dest ((fs.getClusterOffset cluster + offset) % wordCount) bytes write

/-- The loop of `ReadWriteClusters` from turn `i` on, with what it returns and `*endCluster`. -/
def readWriteClustersLoop (dest : ℕ) (write : Bool) :
    ℕ → ℕ → ℕ → Fat32State → Except Failure (ℕ × ℕ × Fat32State)
  | 0, i, cluster, s => .ok (i, cluster, s)
  | count + 1, i, cluster, s =>
    if cluster = 0 then .error .assertion
    else if IsFinalCluster cluster then .ok (i, cluster, s)
    else if cluster < fs.clusterCount then
      let s := s.transfer (dest + fs.clusterSize * i) (fs.getClusterOffset cluster) fs.clusterSize
        write
      readWriteClustersLoop dest write count (i + 1) (fs.getNextCluster s.device cluster) s
    else .error .assertion

/-- `ReadWriteClusters`. -/
def readWriteClusters (dest cluster count : ℕ) (write : Bool) (s : Fat32State) :
    Except Failure (ℕ × ℕ × Fat32State) :=
  fs.readWriteClustersLoop dest write count 0 cluster s

end Fat32Fs

/-! ## The chains of a volume -/

namespace Fat32Fs

variable (fs : Fat32Fs) (device : ℕ → UInt8)

/-- The clusters of a volume that has `count` of them. -/
def IsCluster (count cluster : ℕ) : Prop := 2 ≤ cluster ∧ cluster < count + 2

/-- The number that an entry of the table has: its upper four bits are reserved. -/
def number (entry : ℕ) : ℕ := entry % 2 ^ 28

/-- What the entry of a cluster links it to. -/
def link (cluster : ℕ) : ℕ := number (fs.getNextCluster device cluster)

/-- The number at a place of the chain. -/
def chain (cluster place : ℕ) : ℕ := (fs.link device)^[place] (number cluster)

/-- What `GetNextCluster` comes to, place by place. -/
def followed (cluster place : ℕ) : ℕ := (fs.getNextCluster device)^[place] cluster

/-- The chain of a cluster has a length. One that goes round in a cycle has none. -/
def HasLength (count cluster : ℕ) : ℕ → Prop :=
  Links (IsCluster count) (fs.link device) (number cluster)

/-- The members of a volume with `count` clusters. There are less than `0xffffff6` of them, each
with an entry in the table, and the table is in front of the data. -/
structure IsVolume (count : ℕ) : Prop where
  count_le : count + 2 ≤ 0xffffff7
  clusterSize_pos : 0 < fs.clusterSize
  fat : (count + 2) * 4 ≤ fs.fatSize
  fat_le : fs.fatOffset + fs.fatSize ≤ fs.dataOffset
  data_le : fs.dataOffset + fs.clusterSize * 2 ^ 32 ≤ wordCount

/-- `GetChainSize` returns, reads inside of the table, and counts the clusters of a chain that has
a length. -/
def CountsChain (count cluster : ℕ) : Prop :=
  ∃ fuel size, fs.getChainSize device fuel cluster = .ok size ∧
    ∀ n, fs.HasLength device count cluster n → size = n

/-- The entries lead to an end mark in `k` steps, inside of the table. -/
structure LeadsToEnd (cluster k : ℕ) : Prop where
  inside : ∀ i < k, ¬ IsFinalCluster (fs.followed device cluster i) ∧
    fs.InsideFat (fs.followed device cluster i)
  final : IsFinalCluster (fs.followed device cluster k)

end Fat32Fs

/-! ## The size of a chain -/

namespace Fat32Fs

variable {fs : Fat32Fs} {device : ℕ → UInt8} {count cluster k n : ℕ}

theorem getNextCluster_lt (cluster : ℕ) : fs.getNextCluster device cluster < 2 ^ 32 :=
  readLE_lt device _ 4

theorem followed_succ (cluster k : ℕ) : fs.followed device cluster (k + 1) =
    fs.followed device (fs.getNextCluster device cluster) k :=
  Function.iterate_succ_apply _ _ _

theorem followed_succ' (cluster k : ℕ) : fs.followed device cluster (k + 1) =
    fs.getNextCluster device (fs.followed device cluster k) :=
  Function.iterate_succ_apply' _ _ _

theorem chain_succ (cluster k : ℕ) :
    fs.chain device cluster (k + 1) = fs.link device (fs.chain device cluster k) :=
  Function.iterate_succ_apply' _ _ _

theorem number_of_not_final (h : ¬ IsFinalCluster cluster) : number cluster = cluster := by
  rw [IsFinalCluster] at h
  exact Nat.mod_eq_of_lt (by omega)

/-- As long as no entry is final, the numbers are what the entries are. -/
theorem chain_eq_number (h : ∀ i < k, ¬ IsFinalCluster (fs.followed device cluster i)) :
    fs.chain device cluster k = number (fs.followed device cluster k) := by
  induction k with
  | zero => rfl
  | succ k ih =>
    rw [chain_succ, ih fun i hi => h i (Nat.lt_succ_of_lt hi),
      number_of_not_final (h k (Nat.lt_succ_self k)), followed_succ', link]

theorem leadsToEnd_zero_iff : fs.LeadsToEnd device cluster 0 ↔ IsFinalCluster cluster :=
  ⟨LeadsToEnd.final, fun h => ⟨fun i hi => absurd hi (Nat.not_lt_zero i), h⟩⟩

theorem leadsToEnd_succ_iff : fs.LeadsToEnd device cluster (k + 1) ↔
    (¬ IsFinalCluster cluster ∧ fs.InsideFat cluster) ∧
      fs.LeadsToEnd device (fs.getNextCluster device cluster) k := by
  constructor
  · intro h
    refine ⟨h.inside 0 (Nat.succ_pos k), fun i hi => ?_, ?_⟩
    · have hnext := h.inside (i + 1) (Nat.succ_lt_succ hi)
      rwa [followed_succ] at hnext
    · have hfinal := h.final
      rwa [followed_succ] at hfinal
  · rintro ⟨hfirst, hrest⟩
    refine ⟨fun i hi => ?_, by rw [followed_succ]; exact hrest.final⟩
    cases i with
    | zero => exact hfirst
    | succ i =>
      rw [followed_succ]
      exact hrest.inside i (Nat.lt_of_succ_lt_succ hi)

theorem getChainSizeLoop_isOk_iff {size start : ℕ} :
    (∃ fuel, fs.getChainSizeLoop device fuel cluster start = .ok size) ↔
      ∃ k, fs.LeadsToEnd device cluster k ∧ size = start + k := by
  constructor
  · rintro ⟨fuel, hrun⟩
    induction fuel generalizing cluster start with
    | zero =>
      rw [getChainSizeLoop] at hrun
      split at hrun
      · rename_i hfinal
        exact ⟨0, leadsToEnd_zero_iff.mpr hfinal, (Except.ok.inj hrun).symm⟩
      · cases hrun
    | succ fuel ih =>
      rw [getChainSizeLoop] at hrun
      split at hrun
      · rename_i hfinal
        exact ⟨0, leadsToEnd_zero_iff.mpr hfinal, (Except.ok.inj hrun).symm⟩
      · rename_i hnext
        split at hrun
        · rename_i hinside
          obtain ⟨k, hrest, hsize⟩ := ih hrun
          exact ⟨k + 1, leadsToEnd_succ_iff.mpr ⟨⟨hnext, hinside⟩, hrest⟩, by omega⟩
        · cases hrun
  · rintro ⟨k, hends, rfl⟩
    refine ⟨k, ?_⟩
    induction k generalizing cluster start with
    | zero => rw [getChainSizeLoop, if_pos (leadsToEnd_zero_iff.mp hends), Nat.add_zero]
    | succ k ih =>
      obtain ⟨⟨hnext, hinside⟩, hrest⟩ := leadsToEnd_succ_iff.mp hends
      rw [getChainSizeLoop, if_neg hnext, if_pos hinside, ih hrest, Nat.add_assoc, Nat.add_comm 1 k]

theorem not_isCluster_of_final (hfs : fs.IsVolume count) (h : IsFinalCluster cluster)  :
    ¬ IsCluster count cluster := by
  rintro ⟨-, hlt⟩
  have := hfs.count_le
  rw [IsFinalCluster] at h
  omega

theorem IsCluster.not_final (hfs : fs.IsVolume count) (h : IsCluster count cluster) :
    ¬ IsFinalCluster cluster := fun hfinal => not_isCluster_of_final hfs hfinal h

/-- **Which chains are counted.** `GetChainSize` returns the length of a chain exactly when the
entries lead to an end mark, and, unless the chain goes round in a cycle, over clusters only and to
one whose low 28 bits are not the number of a cluster. -/
theorem getChainSize_counts_iff (cluster : ℕ) :
    fs.CountsChain device count cluster ↔
      ∃ k, fs.LeadsToEnd device cluster k ∧
        ((∃ n, fs.HasLength device count cluster n) →
          (∀ i < k, IsCluster count (fs.followed device cluster i)) ∧
            ¬ IsCluster count (number (fs.followed device cluster k))) := by
  constructor
  · rintro ⟨fuel, size, hrun, hcounts⟩
    obtain ⟨k, hends, hsize⟩ := getChainSizeLoop_isOk_iff.mp ⟨fuel, hrun⟩
    refine ⟨k, hends, fun ⟨n, hlength⟩ => ?_⟩
    obtain rfl : k = n := by
      have := hcounts n hlength
      omega
    refine ⟨fun i hi => ?_, ?_⟩
    · have hmem : IsCluster count (fs.chain device cluster i) := hlength.mem i hi
      rwa [chain_eq_number fun j hj => (hends.inside j (hj.trans hi)).1,
        number_of_not_final (hends.inside i hi).1] at hmem
    · have hstop : ¬ IsCluster count (fs.chain device cluster k) := hlength.stop
      rwa [chain_eq_number fun j hj => (hends.inside j hj).1] at hstop
  · rintro ⟨k, hends, hclusters⟩
    obtain ⟨fuel, hrun⟩ := getChainSizeLoop_isOk_iff.mpr ⟨k, hends, rfl⟩
    refine ⟨fuel, 0 + k, hrun, fun n hlength => ?_⟩
    obtain ⟨hmem, hstop⟩ := hclusters ⟨n, hlength⟩
    have hchain : fs.HasLength device count cluster k := by
      refine ⟨fun i hi => ?_, ?_⟩
      · change IsCluster count (fs.chain device cluster i)
        rw [chain_eq_number fun j hj => (hends.inside j (hj.trans hi)).1,
          number_of_not_final (hends.inside i hi).1]
        exact hmem i hi
      · change ¬ IsCluster count (fs.chain device cluster k)
        rwa [chain_eq_number fun j hj => (hends.inside j hj).1]
    rw [Nat.zero_add]
    exact hchain.unique hlength

/-- A volume of 8 clusters on 10 sectors. -/
def smallBoot : Fat32BootRecord where
  bytesPerSector := 512
  sectorsPerCluster := 1
  reservedSectorCount := 1
  fatCount := 1
  largeSectorCount := 10
  sectorsPerFat := 1

/-- The table of the small volume: the chain of 2 and 3, the one of 4 that goes round, that of 5 and
7, and that of the last cluster. -/
def smallDevice (address : ℕ) : UInt8 :=
  if address < 512 ∨ 1024 ≤ address then UInt8.ofNat (address / 512)
  else UInt8.ofNat ([0xffffff8, 0xfffffff, 3, 0xfffffff, 4, 7, 0, 0xfffffff, 0, 0xfffffff].getD
    ((address - 512) / 4) 0 / 256 ^ (address % 4))

/-- A chain that goes round is counted without end. -/
theorem not_countsChain_four : ¬ (smallBoot.mount 10).CountsChain smallDevice 8 4 := by
  rintro ⟨fuel, size, hrun, -⟩
  obtain ⟨k, hends, -⟩ := getChainSizeLoop_isOk_iff.mp ⟨fuel, hrun⟩
  have hround : (smallBoot.mount 10).getNextCluster smallDevice 4 = 4 := by decide
  have hfinal := hends.final
  rw [followed, Function.iterate_fixed hround] at hfinal
  exact absurd hfinal (by decide)

end Fat32Fs

/-! ## Reading and writing clusters -/

namespace Fat32Fs

variable (fs : Fat32Fs)

/-- The address of a byte of a chain. -/
def address (device : ℕ → UInt8) (cluster position : ℕ) : ℕ :=
  fs.dataOffset + fs.clusterSize * (fs.chain device cluster (position / fs.clusterSize) - 2) +
    position % fs.clusterSize

/-- The address of a byte of the clusters that `GetNextCluster` comes to. -/
def followedAddress (device : ℕ → UInt8) (cluster position : ℕ) : ℕ :=
  fs.getClusterOffset (fs.followed device cluster (position / fs.clusterSize)) +
    position % fs.clusterSize

/-- The chain of a file: it has a length, and an end mark behind its last cluster. -/
structure IsAllocated (device : ℕ → UInt8) (count cluster n : ℕ) : Prop where
  length : fs.HasLength device count cluster n
  final : IsFinalCluster (fs.chain device cluster n)

/-- `ReadWriteClusters` reads the bytes of `n` clusters and nothing else. -/
def ReadsClusters (s : Fat32State) (dest cluster amount n : ℕ) : Prop :=
  ∃ last s', fs.readWriteClusters dest cluster amount false s = .ok (n, last, s') ∧
    s'.device = s.device ∧ s'.memory = overlay dest (fs.clusterSize * n)
      (fun p => s.device (fs.address s.device cluster p)) s.memory

/-- `ReadWriteClusters` writes the bytes of `n` clusters and nothing else. -/
def WritesClusters (s : Fat32State) (dest cluster amount n : ℕ) : Prop :=
  ∃ last s', fs.readWriteClusters dest cluster amount true s = .ok (n, last, s') ∧
    s'.memory = s.memory ∧
    (∀ p < fs.clusterSize * n,
      s'.device (fs.address s.device cluster p) = s.memory (dest + p)) ∧
    ∀ a, (∀ p < fs.clusterSize * n, a ≠ fs.address s.device cluster p) → s'.device a = s.device a

end Fat32Fs

theorem Fat32BootRecord.WellFormed.isVolume {boot : Fat32BootRecord} {count : ℕ}
    (h : boot.WellFormed count) (blocks : ℕ) : (boot.mount blocks).IsVolume count := by
  have hsectors := h.sectors
  have htotal := boot.largeSectorCount.toNat_lt
  have hbytes := boot.bytesPerSector.toNat_lt
  have hdata : boot.dataSector =
      boot.reservedSectorCount.toNat + boot.fatCount.toNat * boot.sectorsPerFat.toNat :=
    Nat.mod_eq_of_lt (by omega)
  have hfats : boot.sectorsPerFat.toNat ≤ boot.fatCount.toNat * boot.sectorsPerFat.toNat :=
    Nat.le_mul_of_pos_left _ h.fatCount_pos
  refine ⟨h.count_le, Nat.mul_pos h.sectorsPerCluster_pos h.bytesPerSector_pos, h.fat, ?_, ?_⟩
  · change boot.reservedSectorCount.toNat * boot.bytesPerSector.toNat +
      boot.sectorsPerFat.toNat * boot.bytesPerSector.toNat ≤
        boot.dataSector * boot.bytesPerSector.toNat
    rw [← Nat.add_mul, hdata]
    exact Nat.mul_le_mul_right _ (by omega)
  · have hcluster := boot.sectorsPerCluster.toNat_lt
    calc (boot.mount blocks).dataOffset + (boot.mount blocks).clusterSize * 2 ^ 32
        = boot.dataSector * boot.bytesPerSector.toNat +
          boot.sectorsPerCluster.toNat * boot.bytesPerSector.toNat * 2 ^ 32 := rfl
      _ ≤ 2 ^ 32 * 2 ^ 16 + 2 ^ 8 * 2 ^ 16 * 2 ^ 32 :=
          Nat.add_le_add (Nat.mul_le_mul (by omega) hbytes.le)
            (Nat.mul_le_mul_right _ (Nat.mul_le_mul hcluster.le hbytes.le))
      _ ≤ wordCount := by decide

namespace Fat32Fs

variable {fs : Fat32Fs} {device : ℕ → UInt8} {s : Fat32State} {write : Bool}
  {count cluster dest amount rest i m n : ℕ}

theorem getClusterOffset_eq (hfs : fs.IsVolume count) (hle : 2 ≤ cluster)
    (hlt : cluster < 2 ^ 32) :
    fs.getClusterOffset cluster = fs.dataOffset + fs.clusterSize * (cluster - 2) := by
  have hdata := hfs.data_le
  have hsub : (cluster + 2 ^ 32 - 2) % 2 ^ 32 = cluster - 2 := by omega
  have hend : fs.clusterSize * (cluster - 2 + 1) ≤ fs.clusterSize * 2 ^ 32 :=
    Nat.mul_le_mul_left _ (by omega)
  rw [Nat.mul_succ] at hend
  have hpos := hfs.clusterSize_pos
  rw [getClusterOffset, hsub, Nat.mod_eq_of_lt (by omega)]

theorem IsCluster.lt (hfs : fs.IsVolume count) (h : IsCluster count cluster) :
    cluster < 2 ^ 28 := by
  have hcount := hfs.count_le
  have hlt := h.2
  omega

theorem IsCluster.getClusterOffset (hfs : fs.IsVolume count) (h : IsCluster count cluster) :
    fs.getClusterOffset cluster = fs.dataOffset + fs.clusterSize * (cluster - 2) :=
  getClusterOffset_eq hfs h.1 ((h.lt hfs).trans (by decide))

/-- A turn of the loop. -/
theorem readWriteClustersLoop_turn (hfree : cluster ≠ 0) (hfinal : ¬ IsFinalCluster cluster)
    (hlt : cluster < fs.clusterCount) :
    fs.readWriteClustersLoop dest write (rest + 1) i cluster s =
      fs.readWriteClustersLoop dest write rest (i + 1)
        (fs.getNextCluster (s.transfer (dest + fs.clusterSize * i) (fs.getClusterOffset cluster)
          fs.clusterSize write).device cluster)
        (s.transfer (dest + fs.clusterSize * i) (fs.getClusterOffset cluster) fs.clusterSize
          write) := by
  rw [readWriteClustersLoop, if_neg hfree, if_neg hfinal, if_pos hlt]

/-- The clusters that can be moved. -/
def Movable (fs : Fat32Fs) (device : ℕ → UInt8) (count cluster m : ℕ) : Prop :=
  ∀ k < m, IsCluster count (fs.followed device cluster k) ∧
    fs.followed device cluster k < fs.clusterCount

theorem followedAddress_add (hfs : fs.IsVolume count) {j : ℕ} (hj : j < fs.clusterSize) :
    fs.followedAddress device cluster (fs.clusterSize * m + j) =
      fs.getClusterOffset (fs.followed device cluster m) + j := by
  rw [followedAddress, Nat.mul_add_div hfs.clusterSize_pos, Nat.div_eq_of_lt hj, Nat.add_zero,
    Nat.mul_add_mod, Nat.mod_eq_of_lt hj]

/-- What has been read is read on. -/
theorem transfer_read_followed (hfs : fs.IsVolume count) (first : ℕ) (memory : ℕ → UInt8) :
    (⟨device, overlay first (fs.clusterSize * m)
        (fun p => device (fs.followedAddress device cluster p)) memory⟩ : Fat32State).transfer
      (first + fs.clusterSize * m) (fs.getClusterOffset (fs.followed device cluster m))
      fs.clusterSize false =
    ⟨device, overlay first (fs.clusterSize * (m + 1))
      (fun p => device (fs.followedAddress device cluster p)) memory⟩ := by
  rw [Nat.mul_succ, ← overlay_append]
  refine congrArg (Fat32State.mk device) (overlay_congr (fun j hj => ?_) fun _ _ => rfl)
  rw [followedAddress_add hfs hj]

theorem readWriteClustersLoop_read (hfs : fs.IsVolume count)
    (h : fs.Movable s.device count cluster m) (dest rest : ℕ) :
    fs.readWriteClustersLoop dest false (m + rest) 0 cluster s =
      fs.readWriteClustersLoop dest false rest m (fs.followed s.device cluster m)
        ⟨s.device, overlay dest (fs.clusterSize * m)
          (fun p => s.device (fs.followedAddress s.device cluster p)) s.memory⟩ := by
  induction m generalizing rest with
  | zero =>
    rw [Nat.mul_zero, overlay_zero, Nat.zero_add]
    rfl
  | succ m ih =>
    obtain ⟨hcluster, hlt⟩ := h m (Nat.lt_succ_self m)
    have hfree := hcluster.1
    rw [Nat.add_right_comm, Nat.add_assoc, ih fun k hk => h k (Nat.lt_succ_of_lt hk),
      readWriteClustersLoop_turn (by omega) (hcluster.not_final hfs) hlt,
      transfer_read_followed hfs, followed_succ']

/-- What a loop that reads has done when it ends: the clusters that it came to were read. -/
theorem readWriteClustersLoop_ok (hfs : fs.IsVolume count) {first : ℕ} {memory : ℕ → UInt8}
    {result : ℕ × ℕ × Fat32State}
    (h : fs.readWriteClustersLoop first false amount m (fs.followed device cluster m)
      ⟨device, overlay first (fs.clusterSize * m)
        (fun p => device (fs.followedAddress device cluster p)) memory⟩ = .ok result) :
    ∃ r, m ≤ r ∧ r ≤ m + amount ∧
      (∀ k, m ≤ k → k < r → ¬ IsFinalCluster (fs.followed device cluster k) ∧
        fs.followed device cluster k < fs.clusterCount) ∧
      (r < m + amount → IsFinalCluster (fs.followed device cluster r)) ∧
      result = (r, fs.followed device cluster r, ⟨device, overlay first (fs.clusterSize * r)
        (fun p => device (fs.followedAddress device cluster p)) memory⟩) := by
  induction amount generalizing m with
  | zero =>
    exact ⟨m, le_rfl, le_rfl, fun k hle hlt => absurd hle (Nat.not_le.mpr hlt),
      fun hlt => absurd hlt (lt_irrefl m), (Except.ok.inj h).symm⟩
  | succ amount ih =>
    rw [readWriteClustersLoop] at h
    split at h
    · cases h
    · split at h
      · rename_i hfinal
        exact ⟨m, le_rfl, Nat.le_add_right _ _, fun k hle hlt => absurd hle (Nat.not_le.mpr hlt),
          fun _ => hfinal, (Except.ok.inj h).symm⟩
      · rename_i hfinal
        split at h
        · rename_i hcount
          dsimp only at h
          rw [transfer_read_followed hfs, ← followed_succ'] at h
          obtain ⟨r, hle, hamount, hturns, hend, hresult⟩ := ih h
          refine ⟨r, by omega, by omega, fun k hk hlt => ?_, fun hlt => hend (by omega), hresult⟩
          rcases Nat.eq_or_lt_of_le hk with rfl | hk
          · exact ⟨hfinal, hcount⟩
          · exact hturns k hk hlt
        · cases h

theorem readWriteClusters_ok (hfs : fs.IsVolume count) {result : ℕ × ℕ × Fat32State}
    (h : fs.readWriteClusters dest cluster amount false s = .ok result) :
    ∃ r ≤ amount, (∀ k < r, ¬ IsFinalCluster (fs.followed s.device cluster k) ∧
        fs.followed s.device cluster k < fs.clusterCount) ∧
      (r < amount → IsFinalCluster (fs.followed s.device cluster r)) ∧
      result = (r, fs.followed s.device cluster r,
        ⟨s.device, overlay dest (fs.clusterSize * r)
          (fun p => s.device (fs.followedAddress s.device cluster p)) s.memory⟩) := by
  have hloop : fs.readWriteClustersLoop dest false amount 0 (fs.followed s.device cluster 0)
      ⟨s.device, overlay dest (fs.clusterSize * 0)
        (fun p => s.device (fs.followedAddress s.device cluster p)) s.memory⟩ = .ok result := by
    rw [Nat.mul_zero, overlay_zero]
    exact h
  obtain ⟨r, -, hle, hturns, hend, hresult⟩ := readWriteClustersLoop_ok hfs hloop
  rw [Nat.zero_add] at hle hend
  exact ⟨r, hle, fun k hk => hturns k (Nat.zero_le k) hk, hend, hresult⟩

/-- The entry of a cluster is in front of the data. -/
theorem getNextCluster_congr (hfs : fs.IsVolume count) (h : IsCluster count cluster)
    {device' : ℕ → UInt8} (hdevice : ∀ a, fs.fatOffset ≤ a → a < fs.fatOffset + fs.fatSize →
      device' a = device a) :
    fs.getNextCluster device' cluster = fs.getNextCluster device cluster := by
  have hcount := hfs.count_le
  have hfat := hfs.fat
  have hlt := h.2
  have hsmall : cluster * 4 % 2 ^ 32 = cluster * 4 := Nat.mod_eq_of_lt (by omega)
  rw [getNextCluster, getNextCluster, hsmall]
  exact readLE_congr fun i hi => hdevice _ (by omega) (by omega)

/-- A byte of a cluster is in front of another cluster or behind it. -/
theorem cluster_disjoint {a b j : ℕ} (ha : 2 ≤ a) (hb : 2 ≤ b) (hne : a ≠ b)
    (hj : j < fs.clusterSize) :
    fs.clusterSize * (a - 2) + j < fs.clusterSize * (b - 2) ∨
      fs.clusterSize * (b - 2) + fs.clusterSize ≤ fs.clusterSize * (a - 2) + j := by
  rcases Nat.lt_or_gt_of_ne hne with hlt | hlt
  · have hle := Nat.mul_le_mul_left fs.clusterSize (show a - 2 + 1 ≤ b - 2 by omega)
    rw [Nat.mul_succ] at hle
    omega
  · have hle := Nat.mul_le_mul_left fs.clusterSize (show b - 2 + 1 ≤ a - 2 by omega)
    rw [Nat.mul_succ] at hle
    omega

/-- The bytes of the first `m` clusters were written, and nothing else. -/
structure Wrote (fs : Fat32Fs) (s s' : Fat32State) (dest cluster m : ℕ) : Prop where
  memory : s'.memory = s.memory
  data : ∀ p < fs.clusterSize * m,
    s'.device (fs.followedAddress s.device cluster p) = s.memory (dest + p)
  frame : ∀ a, (∀ p < fs.clusterSize * m, a ≠ fs.followedAddress s.device cluster p) →
    s'.device a = s.device a

/-- The table is as it was. -/
theorem Wrote.getNextCluster (hfs : fs.IsVolume count) {s' : Fat32State} {c : ℕ}
    (h : fs.Wrote s s' dest cluster m)
    (hclusters : ∀ k < m, IsCluster count (fs.followed s.device cluster k))
    (hc : IsCluster count c) :
    fs.getNextCluster s'.device c = fs.getNextCluster s.device c := by
  refine getNextCluster_congr hfs hc fun a hle hlt => h.frame a fun p hp => ?_
  have hfat := hfs.fat_le
  rw [followedAddress, (hclusters _ (Nat.div_lt_of_lt_mul hp)).getClusterOffset hfs]
  omega

theorem Wrote.transfer (hfs : fs.IsVolume count) {s' : Fat32State}
    (h : fs.Wrote s s' dest cluster m)
    (hclusters : ∀ k < m + 1, IsCluster count (fs.followed s.device cluster k))
    (hne : ∀ k < m, fs.followed s.device cluster k ≠ fs.followed s.device cluster m) :
    fs.Wrote s (s'.transfer (dest + fs.clusterSize * m)
      (fs.getClusterOffset (fs.followed s.device cluster m)) fs.clusterSize true)
      dest cluster (m + 1) := by
  have hlast := hclusters m (Nat.lt_succ_self m)
  rw [Fat32State.transfer_write]
  refine ⟨h.memory, fun p hp => ?_, fun a ha => ?_⟩ <;> dsimp only
  · by_cases hbefore : p < fs.clusterSize * m
    · have hk : p / fs.clusterSize < m := Nat.div_lt_of_lt_mul hbefore
      have hcluster := hclusters _ (Nat.lt_succ_of_lt hk)
      have hapart := cluster_disjoint hcluster.1 hlast.1 (hne _ hk)
        (Nat.mod_lt p hfs.clusterSize_pos)
      rw [overlay_of_not_mem, h.data p hbefore]
      rw [followedAddress, hcluster.getClusterOffset hfs, hlast.getClusterOffset hfs]
      omega
    · obtain ⟨j, rfl⟩ := Nat.exists_eq_add_of_le (Nat.le_of_not_lt hbefore)
      rw [Nat.mul_succ] at hp
      rw [followedAddress_add hfs (by omega), overlay_of_mem _ _ _ (by omega), h.memory,
        Nat.add_assoc]
  · rw [Nat.mul_succ] at ha
    rw [overlay_of_not_mem, h.frame a fun p hp => ha p (by omega)]
    by_contra hin
    refine ha (fs.clusterSize * m +
      (a - fs.getClusterOffset (fs.followed s.device cluster m))) (by omega) ?_
    rw [followedAddress_add hfs (by omega)]
    omega

theorem readWriteClustersLoop_write (hfs : fs.IsVolume count)
    (h : fs.Movable s.device count cluster m)
    (hne : ∀ j k, j < k → k < m →
      fs.followed s.device cluster j ≠ fs.followed s.device cluster k) (dest rest : ℕ) :
    ∃ s', fs.readWriteClustersLoop dest true (m + rest) 0 cluster s =
        fs.readWriteClustersLoop dest true rest m (fs.followed s.device cluster m) s' ∧
      fs.Wrote s s' dest cluster m := by
  induction m generalizing rest with
  | zero =>
    refine ⟨s, by rw [Nat.zero_add]; rfl, rfl, fun p hp => ?_, fun a ha => rfl⟩
    rw [Nat.mul_zero] at hp
    omega
  | succ m ih =>
    obtain ⟨hcluster, hlt⟩ := h m (Nat.lt_succ_self m)
    have hfree := hcluster.1
    obtain ⟨s', hrun, hwrote⟩ := ih (fun k hk => h k (Nat.lt_succ_of_lt hk))
      (fun j k hj hk => hne j k hj (Nat.lt_succ_of_lt hk)) (rest + 1)
    have hclusters : ∀ k < m + 1, IsCluster count (fs.followed s.device cluster k) :=
      fun k hk => (h k hk).1
    have hnext := hwrote.transfer hfs hclusters fun k hk => hne k m hk (Nat.lt_succ_self m)
    refine ⟨_, ?_, hnext⟩
    rw [Nat.add_right_comm, Nat.add_assoc, hrun,
      readWriteClustersLoop_turn (by omega) (hcluster.not_final hfs) hlt,
      hnext.getNextCluster hfs hclusters hcluster, followed_succ']

/-- Where the entries that are followed have no other bits, the chain is what is followed. -/
theorem address_eq (hfs : fs.IsVolume count) (hclusters : fs.Movable device count cluster m)
    (h : ∀ k < m, fs.followed device cluster k = fs.chain device cluster k) {p : ℕ}
    (hp : p < fs.clusterSize * m) :
    fs.address device cluster p = fs.followedAddress device cluster p := by
  have hk : p / fs.clusterSize < m := Nat.div_lt_of_lt_mul hp
  rw [followedAddress, (hclusters _ hk).1.getClusterOffset hfs, h _ hk, address]

/-- The entry of the last cluster is an end mark as it is. -/
theorem IsAllocated.followed_final (hfs : fs.IsVolume count)
    (h : fs.IsAllocated device count cluster n)
    (hlinks : ∀ k < n, fs.followed device cluster k = fs.chain device cluster k) :
    IsFinalCluster (fs.followed device cluster n) := by
  have hnumber := chain_eq_number fun k hk => by
    rw [hlinks k hk]
    exact IsCluster.not_final hfs (h.length.mem k hk)
  have hfinal := h.final
  rw [hnumber] at hfinal
  exact hfinal.trans (Nat.mod_le _ _)

/-- Where as many clusters were moved as were asked for, or as the chain has, the loop ends. -/
theorem readWriteClustersLoop_end (hfs : fs.IsVolume count)
    (h : fs.IsAllocated device count cluster n)
    (hlinks : ∀ k < min amount n, fs.followed device cluster k = fs.chain device cluster k) :
    fs.readWriteClustersLoop dest write (amount - min amount n) i
        (fs.followed device cluster (min amount n)) s =
      .ok (i, fs.followed device cluster (min amount n), s) := by
  rcases Nat.le_total amount n with hle | hle
  · rw [Nat.min_eq_left hle, Nat.sub_self]
    rfl
  · rw [Nat.min_eq_right hle] at hlinks ⊢
    have hfinal := h.followed_final hfs hlinks
    cases amount - n with
    | zero => rfl
    | succ rest =>
      have hfree : fs.followed device cluster n ≠ 0 := by
        rw [IsFinalCluster] at hfinal
        omega
      rw [readWriteClustersLoop, if_neg hfree, if_pos hfinal]

/-- The clusters that are followed are moved. -/
theorem moves_of_movable (hfs : fs.IsVolume count)
    (hchain : fs.IsAllocated s.device count cluster n)
    (hlinks : ∀ k < min amount n, fs.followed s.device cluster k = fs.chain s.device cluster k)
    (hmovable : fs.Movable s.device count cluster (min amount n)) (dest : ℕ) :
    fs.ReadsClusters s dest cluster amount (min amount n) ∧
      fs.WritesClusters s dest cluster amount (min amount n) := by
  have hamount : amount = min amount n + (amount - min amount n) := by omega
  constructor
  · have hrun := readWriteClustersLoop_read hfs hmovable dest (amount - min amount n)
    rw [← hamount, readWriteClustersLoop_end hfs hchain hlinks] at hrun
    have hbytes : overlay dest (fs.clusterSize * min amount n)
        (fun p => s.device (fs.followedAddress s.device cluster p)) s.memory =
          overlay dest (fs.clusterSize * min amount n)
            (fun p => s.device (fs.address s.device cluster p)) s.memory :=
      overlay_congr (fun p hp => by rw [address_eq hfs hmovable hlinks hp]) fun _ _ => rfl
    exact ⟨_, _, hrun, rfl, hbytes⟩
  · have hne : ∀ j k, j < k → k < min amount n →
        fs.followed s.device cluster j ≠ fs.followed s.device cluster k := by
      intro j k hj hk
      rw [hlinks j (hj.trans hk), hlinks k hk]
      exact hchain.length.ne_of_lt hj (by omega)
    obtain ⟨s', hrun, hwrote⟩ :=
      readWriteClustersLoop_write hfs hmovable hne dest (amount - min amount n)
    rw [← hamount, readWriteClustersLoop_end hfs hchain hlinks] at hrun
    refine ⟨_, s', hrun, hwrote.memory, fun p hp => ?_, fun a ha => hwrote.frame a fun p hp => ?_⟩
    · rw [address_eq hfs hmovable hlinks hp]
      exact hwrote.data p hp
    · rw [← address_eq hfs hmovable hlinks hp]
      exact ha p hp

/-- **Which chains can be read and written.** Reading and writing the clusters of a chain moves
their bytes and no others exactly when each of the clusters is less than `m_ClusterCount`, and the
upper four bits of the entries that lead there are not set. -/
theorem readWriteClusters_moves_iff {boot : Fat32BootRecord} {blocks : ℕ}
    (hboot : boot.WellFormed count)
    (hchain : (boot.mount blocks).IsAllocated s.device count cluster n) (dest amount : ℕ) :
    (boot.mount blocks).ReadsClusters s dest cluster amount (min amount n) ∧
        (boot.mount blocks).WritesClusters s dest cluster amount (min amount n) ↔
      ∀ i < min amount n, (boot.mount blocks).followed s.device cluster i =
          (boot.mount blocks).chain s.device cluster i ∧
        (boot.mount blocks).chain s.device cluster i < (boot.mount blocks).clusterCount := by
  have hfs := hboot.isVolume blocks
  constructor
  · rintro ⟨⟨last, s', hrun, -⟩, -⟩ i hi
    obtain ⟨r, -, hturns, -, hresult⟩ := readWriteClusters_ok hfs hrun
    obtain rfl : min amount n = r := congrArg Prod.fst hresult
    have hnumber := chain_eq_number fun k hk => (hturns k (hk.trans hi)).1
    rw [number_of_not_final (hturns i hi).1] at hnumber
    rw [hnumber]
    exact ⟨rfl, (hturns i hi).2⟩
  · intro hall
    refine moves_of_movable hfs hchain (fun k hk => (hall k hk).1) (fun k hk => ?_) dest
    rw [(hall k hk).1]
    exact ⟨hchain.length.mem k (by omega), (hall k hk).2⟩

theorem smallBoot_wellFormed : smallBoot.WellFormed 8 :=
  ⟨by decide, by decide, by decide, by decide, by decide, by decide, by decide⟩

theorem smallDevice_isAllocated_two : (smallBoot.mount 10).IsAllocated smallDevice 8 2 2 := by
  refine ⟨⟨fun i hi => ?_, fun h => ?_⟩, ?_⟩
  · have hmem : ∀ i < 2, 2 ≤ (smallBoot.mount 10).chain smallDevice 2 i ∧
        (smallBoot.mount 10).chain smallDevice 2 i < 8 + 2 := by
      decide
    exact hmem i hi
  · have hstop : ¬ (smallBoot.mount 10).chain smallDevice 2 2 < 8 + 2 := by decide
    exact hstop h.2
  · decide

/-- The first clusters can be moved. -/
theorem readWriteClusters_moves_two :
    (smallBoot.mount 10).ReadsClusters ⟨smallDevice, fun _ => 0⟩ 0 2 2 (min 2 2) ∧
      (smallBoot.mount 10).WritesClusters ⟨smallDevice, fun _ => 0⟩ 0 2 2 (min 2 2) :=
  (readWriteClusters_moves_iff smallBoot_wellFormed smallDevice_isAllocated_two 0 2).mpr
    (by decide)

/-- The last one cannot. -/
theorem not_moves_nine :
    ¬ ((smallBoot.mount 10).ReadsClusters ⟨smallDevice, fun _ => 0⟩ 0 9 1 (min 1 1) ∧
      (smallBoot.mount 10).WritesClusters ⟨smallDevice, fun _ => 0⟩ 0 9 1 (min 1 1)) := by
  rintro ⟨⟨last, s', hrun, -⟩, -⟩
  have hcount : ¬ 9 < (smallBoot.mount 10).clusterCount := by decide
  rw [readWriteClusters, readWriteClustersLoop, if_neg (by decide), if_neg (by decide),
    if_neg hcount] at hrun
  cases hrun

end Fat32Fs

end Cryptix.VFS
