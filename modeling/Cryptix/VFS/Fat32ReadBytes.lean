import Cryptix.VFS.Fat32Clusters

/-!
# Reading bytes of a FAT32 file

`Fat32Fs::ReadBytes`: the end of a first cluster, whole clusters, and the beginning of a last one.
Where the read begins within a cluster, its first part is cut off at the end of the cluster only if
the whole read is longer than a cluster. A shorter one that goes over the end of the cluster takes
what is behind it on the device.

For whatever there is in the data area, the bytes of the chain are read exactly when the entries
that are followed have no reserved bits, the clusters that are read whole are less than
`m_ClusterCount`, and such a short read finds the next cluster of the chain behind the first one
(`readBytes_reads_iff`).
-/

namespace Cryptix.VFS

open Lib

namespace Fat32Fs

variable (fs : Fat32Fs)

/-- `ReadBytes` behind the first cluster: whole clusters, and what is left. -/
def readRest (cluster out bytes : ℕ) (s : Fat32State) : Except Failure Fat32State :=
  let clustersRemaining := bytes / fs.clusterSize
  let clusters :=
    if clustersRemaining = 0 then .ok (cluster, s)
    else (fs.readWriteClusters out cluster clustersRemaining false s).map Prod.snd
  clusters.map fun (cluster, s) =>
    let bytes := bytes - clustersRemaining * fs.clusterSize
    if bytes > 0 then
      fs.readWriteCluster (out + clustersRemaining * fs.clusterSize) cluster 0 bytes false s
    else s

/-- `ReadBytes`, which returns `true` unless an assert fails. -/
def readBytes (cluster out offset bytes : ℕ) (s : Fat32State) : Except Failure Fat32State :=
  let cluster := (fs.skipCluster s.device (offset / fs.clusterSize) cluster).1
  let clusterOffset := offset % fs.clusterSize
  if clusterOffset > 0 then
    let count := if bytes > fs.clusterSize then fs.clusterSize - clusterOffset else bytes
    let s := fs.readWriteCluster out cluster clusterOffset count false s
    fs.readRest (fs.getNextCluster s.device cluster) (out + count) (bytes - count) s
  else fs.readRest cluster out bytes s

/-- The bytes of a chain are read, and nothing else is changed. -/
def ReadsBytes (s : Fat32State) (cluster out offset bytes : ℕ) : Prop :=
  fs.readBytes cluster out offset bytes s = .ok ⟨s.device, overlay out bytes
    (fun j => s.device (fs.address s.device cluster (offset + j))) s.memory⟩

/-- A device with the table of another. -/
def SameTable (device device' : ℕ → UInt8) : Prop :=
  ∀ a, fs.fatOffset ≤ a → a < fs.fatOffset + fs.fatSize → device' a = device a

/-- A read that begins within a cluster and is not longer than one. -/
def IsShort (offset bytes : ℕ) : Prop := 0 < offset % fs.clusterSize ∧ bytes ≤ fs.clusterSize

/-- What a read of a chain takes: the entries it follows have no other bits than the number, the
clusters it reads whole are less than `m_ClusterCount`, and a short one that goes over the end of
its cluster finds the next cluster of the chain there. -/
structure CanRead (device : ℕ → UInt8) (cluster offset bytes : ℕ) : Prop where
  links : ∀ k, k * fs.clusterSize ≤ offset ∨
    ¬ fs.IsShort offset bytes ∧ k * fs.clusterSize < offset + bytes →
      fs.followed device cluster k = fs.chain device cluster k
  whole : ∀ k, offset ≤ k * fs.clusterSize → (k + 1) * fs.clusterSize ≤ offset + bytes →
    fs.chain device cluster k < fs.clusterCount
  next : fs.IsShort offset bytes → fs.clusterSize < offset % fs.clusterSize + bytes →
    fs.chain device cluster (offset / fs.clusterSize + 1) =
      fs.chain device cluster (offset / fs.clusterSize) + 1

end Fat32Fs

/-! ## The parts of a read -/

namespace Fat32Fs

variable {fs : Fat32Fs} {device device' : ℕ → UInt8} {s s' : Fat32State}
  {count cluster out offset bytes k m n : ℕ}

theorem getClusterOffset_lt (cluster : ℕ) : fs.getClusterOffset cluster < wordCount :=
  Nat.mod_lt _ (by decide)

theorem readWriteCluster_read (hoffset : fs.getClusterOffset cluster + offset < wordCount) :
    fs.readWriteCluster out cluster offset bytes false s =
      ⟨s.device, overlay out bytes (fun i => s.device (fs.getClusterOffset cluster + offset + i))
        s.memory⟩ := by
  rw [readWriteCluster, Nat.mod_eq_of_lt hoffset, Fat32State.transfer_read]

/-- What is left behind the whole clusters, which may be nothing. -/
theorem readRest_eq (cluster out bytes : ℕ) (s : Fat32State) :
    fs.readRest cluster out bytes s =
      (fs.readWriteClusters out cluster (bytes / fs.clusterSize) false s).map
        fun (_, last, s) => ⟨s.device,
          overlay (out + bytes / fs.clusterSize * fs.clusterSize) (bytes % fs.clusterSize)
            (fun i => s.device (fs.getClusterOffset last + i)) s.memory⟩ := by
  have hleft : bytes - bytes / fs.clusterSize * fs.clusterSize = bytes % fs.clusterSize := by
    have := Nat.div_add_mod' bytes fs.clusterSize
    omega
  have htail : ∀ (last : ℕ) (s : Fat32State),
      (if bytes % fs.clusterSize > 0 then
        fs.readWriteCluster (out + bytes / fs.clusterSize * fs.clusterSize) last 0
          (bytes % fs.clusterSize) false s
      else s) = ⟨s.device,
        overlay (out + bytes / fs.clusterSize * fs.clusterSize) (bytes % fs.clusterSize)
          (fun i => s.device (fs.getClusterOffset last + i)) s.memory⟩ := by
    intro last s
    split
    · have hoffset : fs.getClusterOffset last + 0 < wordCount := by
        rw [Nat.add_zero]
        exact getClusterOffset_lt last
      rw [readWriteCluster_read hoffset, Nat.add_zero]
    · rename_i hnone
      rw [Nat.eq_zero_of_not_pos hnone, overlay_zero]
  simp only [readRest, hleft, htail]
  split
  · rename_i hnone
    rw [hnone, readWriteClusters]
    rfl
  · cases fs.readWriteClusters out cluster (bytes / fs.clusterSize) false s <;> rfl

theorem readRest_of_movable (hfs : fs.IsVolume count)
    (h : fs.Movable device count cluster (bytes / fs.clusterSize)) (out : ℕ)
    (memory : ℕ → UInt8) :
    fs.readRest cluster out bytes ⟨device, memory⟩ = .ok ⟨device, overlay out bytes
      (fun p => device (fs.followedAddress device cluster p)) memory⟩ := by
  have hrun := readWriteClustersLoop_read (s := ⟨device, memory⟩) hfs h out 0
  rw [readRest_eq, readWriteClusters]
  rw [Nat.add_zero] at hrun
  rw [hrun, readWriteClustersLoop, Except.map]
  refine congrArg (fun memory => Except.ok (Fat32State.mk device memory)) ?_
  have hbytes := Nat.div_add_mod bytes fs.clusterSize
  conv_rhs => rw [← hbytes, ← overlay_append]
  rw [Nat.mul_comm (bytes / fs.clusterSize)]
  refine overlay_congr (fun i hi => ?_) fun _ _ => rfl
  rw [followedAddress_add hfs (hi.trans (Nat.mod_lt _ hfs.clusterSize_pos))]

theorem readRest_zero (hfs : fs.IsVolume count) (cluster out : ℕ) (s : Fat32State) :
    fs.readRest cluster out 0 s = .ok s := by
  have hnone : fs.Movable s.device count cluster (0 / fs.clusterSize) := fun k hk => by
    rw [Nat.zero_div] at hk
    omega
  have hrun := readRest_of_movable hfs hnone out s.memory
  rwa [overlay_zero] at hrun

/-- What has been read when the read ends: clusters up to one that is final, and what is left. -/
theorem readRest_ok (hfs : fs.IsVolume count) (h : fs.readRest cluster out bytes s = .ok s') :
    ∃ r ≤ bytes / fs.clusterSize, (∀ k < r, ¬ IsFinalCluster (fs.followed s.device cluster k) ∧
        fs.followed s.device cluster k < fs.clusterCount) ∧
      (r < bytes / fs.clusterSize → IsFinalCluster (fs.followed s.device cluster r)) ∧
      s' = ⟨s.device, overlay (out + bytes / fs.clusterSize * fs.clusterSize)
        (bytes % fs.clusterSize)
        (fun i => s.device (fs.getClusterOffset (fs.followed s.device cluster r) + i))
        (overlay out (fs.clusterSize * r)
          (fun p => s.device (fs.followedAddress s.device cluster p)) s.memory)⟩ := by
  rw [readRest_eq] at h
  cases hrun : fs.readWriteClusters out cluster (bytes / fs.clusterSize) false s with
  | error failure =>
    rw [hrun] at h
    cases h
  | ok result =>
    obtain ⟨r, hle, hturns, hend, rfl⟩ := readWriteClusters_ok hfs hrun
    rw [hrun] at h
    exact ⟨r, hle, hturns, hend, (Except.ok.inj h).symm⟩

theorem skipCluster_of_links (h : ∀ i < m, ¬ IsFinalCluster (fs.followed device cluster (i + 1))) :
    fs.skipCluster device m cluster = (fs.followed device cluster m, false) := by
  induction m generalizing cluster with
  | zero => rfl
  | succ m ih =>
    have hnext : ¬ IsFinalCluster (fs.getNextCluster device cluster) := h 0 (Nat.succ_pos m)
    rw [skipCluster, if_neg hnext, ih fun i hi => ?_, followed_succ]
    · have hlater := h (i + 1) (Nat.succ_lt_succ hi)
      rwa [followed_succ] at hlater

/-- `SkipCluster` stops in front of an entry that is final. -/
theorem skipCluster_stop (h : ∀ i < k, ¬ IsFinalCluster (fs.followed device cluster (i + 1)))
    (hfinal : IsFinalCluster (fs.followed device cluster (k + 1))) (hk : k < m) :
    fs.skipCluster device m cluster = (fs.followed device cluster k, true) := by
  induction k generalizing cluster m with
  | zero =>
    obtain ⟨m, rfl⟩ : ∃ j, m = j + 1 := Nat.exists_eq_succ_of_ne_zero (by omega)
    rw [followed_succ] at hfinal
    rw [skipCluster]
    exact if_pos hfinal
  | succ k ih =>
    obtain ⟨m, rfl⟩ : ∃ j, m = j + 1 := Nat.exists_eq_succ_of_ne_zero (by omega)
    have hnext : ¬ IsFinalCluster (fs.getNextCluster device cluster) := h 0 (Nat.succ_pos k)
    rw [followed_succ] at hfinal
    rw [skipCluster, if_neg hnext, ih (fun i hi => ?_) hfinal (Nat.lt_of_succ_lt_succ hk),
      followed_succ]
    · have hlater := h (i + 1) (Nat.succ_lt_succ hi)
      rwa [followed_succ] at hlater

theorem followed_add (cluster k m : ℕ) : fs.followed device cluster (k + m) =
    fs.followed device (fs.followed device cluster k) m := by
  rw [Nat.add_comm]
  exact Function.iterate_add_apply _ _ _ _

theorem address_mul_add (hfs : fs.IsVolume count) (cluster k : ℕ) {j : ℕ}
    (hj : j < fs.clusterSize) : fs.address device cluster (k * fs.clusterSize + j) =
      fs.dataOffset + fs.clusterSize * (fs.chain device cluster k - 2) + j := by
  have hpos := hfs.clusterSize_pos
  rw [address, Nat.mul_comm k, Nat.mul_add_div hpos, Nat.mul_add_mod, Nat.div_eq_of_lt hj,
    Nat.mod_eq_of_lt hj, Nat.add_zero]

/-- A read from the beginning of a cluster of the chain. -/
theorem readRest_reads (hfs : fs.IsVolume count) (hchain : fs.HasLength device count cluster n)
    (out bytes k : ℕ) (memory : ℕ → UInt8) (hsize : k * fs.clusterSize + bytes ≤ n * fs.clusterSize)
    (hlinks : ∀ i, k ≤ i → i * fs.clusterSize < k * fs.clusterSize + bytes →
      fs.followed device cluster i = fs.chain device cluster i)
    (hwhole : ∀ i, k ≤ i → (i + 1) * fs.clusterSize ≤ k * fs.clusterSize + bytes →
      fs.chain device cluster i < fs.clusterCount) :
    fs.readRest (fs.followed device cluster k) out bytes ⟨device, memory⟩ = .ok ⟨device,
      overlay out bytes
        (fun p => device (fs.address device cluster (k * fs.clusterSize + p))) memory⟩ := by
  have hpos := hfs.clusterSize_pos
  -- the clusters that have bytes of the read
  have hplace : ∀ i, i * fs.clusterSize < bytes →
      fs.followed device (fs.followed device cluster k) i = fs.chain device cluster (k + i) ∧
        IsCluster count (fs.chain device cluster (k + i)) := by
    intro i hi
    have hlt : (k + i) * fs.clusterSize < k * fs.clusterSize + bytes := by
      rw [Nat.add_mul]
      omega
    rw [← followed_add, hlinks (k + i) (Nat.le_add_right k i) hlt]
    exact ⟨rfl, hchain.mem _ (lt_of_mul_lt_mul_right (hlt.trans_le hsize) (Nat.zero_le _))⟩
  have hmovable : fs.Movable device count (fs.followed device cluster k)
      (bytes / fs.clusterSize) := by
    intro i hi
    have hle : (i + 1) * fs.clusterSize ≤ bytes := (Nat.le_div_iff_mul_le hpos).mp hi
    rw [Nat.succ_mul] at hle
    obtain ⟨heq, hcluster⟩ := hplace i (by omega)
    rw [heq]
    refine ⟨hcluster, hwhole (k + i) (Nat.le_add_right k i) ?_⟩
    rw [Nat.succ_mul, Nat.add_mul]
    omega
  rw [readRest_of_movable hfs hmovable]
  refine congrArg (fun memory => Except.ok (Fat32State.mk device memory))
    (overlay_congr (fun p hp => ?_) fun _ _ => rfl)
  have hdiv := Nat.div_add_mod' p fs.clusterSize
  obtain ⟨heq, hcluster⟩ := hplace (p / fs.clusterSize) (by omega)
  have hsplit : k * fs.clusterSize + p =
      (k + p / fs.clusterSize) * fs.clusterSize + p % fs.clusterSize := by
    rw [Nat.add_mul]
    omega
  rw [followedAddress, heq, hcluster.getClusterOffset hfs, hsplit,
    address_mul_add hfs cluster _ (Nat.mod_lt p hpos)]

theorem IsCluster.getClusterOffset_add_lt (hfs : fs.IsVolume count) (h : IsCluster count cluster)
    (hoffset : offset < fs.clusterSize) : fs.getClusterOffset cluster + offset < wordCount := by
  have hdata := hfs.data_le
  have hlt := h.lt hfs
  have hend : fs.clusterSize * (cluster - 2 + 1) ≤ fs.clusterSize * 2 ^ 32 :=
    Nat.mul_le_mul_left _ (by omega)
  rw [Nat.mul_succ] at hend
  rw [h.getClusterOffset hfs]
  omega

/-- The first cluster of a read. -/
structure FirstCluster (fs : Fat32Fs) (device : ℕ → UInt8) (count cluster offset : ℕ) : Prop where
  skip : fs.skipCluster device (offset / fs.clusterSize) cluster =
    (fs.followed device cluster (offset / fs.clusterSize), false)
  links : fs.followed device cluster (offset / fs.clusterSize) =
    fs.chain device cluster (offset / fs.clusterSize)
  cluster : IsCluster count (fs.chain device cluster (offset / fs.clusterSize))

theorem firstCluster_of_links (hfs : fs.IsVolume count)
    (hchain : fs.HasLength device count cluster n) (hsize : offset < n * fs.clusterSize)
    (hlinks : ∀ k, k * fs.clusterSize ≤ offset →
      fs.followed device cluster k = fs.chain device cluster k) :
    fs.FirstCluster device count cluster offset := by
  have hpos := hfs.clusterSize_pos
  have hclusters : ∀ k, k * fs.clusterSize ≤ offset → IsCluster count (fs.chain device cluster k) :=
    fun k hk => hchain.mem k (lt_of_mul_lt_mul_right (hk.trans_lt hsize) (Nat.zero_le _))
  have hlast := Nat.div_mul_le_self offset fs.clusterSize
  refine ⟨skipCluster_of_links fun i hi => ?_, hlinks _ hlast, hclusters _ hlast⟩
  have hle : (i + 1) * fs.clusterSize ≤ offset := (Nat.le_div_iff_mul_le hpos).mp hi
  rw [hlinks _ hle]
  exact (hclusters _ hle).not_final hfs

/-- The bytes of the first cluster. -/
theorem FirstCluster.address (hfs : fs.IsVolume count)
    (h : fs.FirstCluster device count cluster offset) {i : ℕ}
    (hi : offset % fs.clusterSize + i < fs.clusterSize) :
    fs.address device cluster (offset + i) = fs.getClusterOffset
      (fs.chain device cluster (offset / fs.clusterSize)) + offset % fs.clusterSize + i := by
  have hdiv := Nat.div_add_mod' offset fs.clusterSize
  have hsplit : offset + i =
      offset / fs.clusterSize * fs.clusterSize + (offset % fs.clusterSize + i) := by omega
  rw [hsplit, address_mul_add hfs cluster _ hi, h.cluster.getClusterOffset hfs]
  omega

/-- The bytes of the cluster behind it in the chain. -/
theorem address_next (hfs : fs.IsVolume count) {i : ℕ}
    (hle : fs.clusterSize ≤ offset % fs.clusterSize + i)
    (hlt : offset % fs.clusterSize + i < fs.clusterSize + fs.clusterSize) :
    fs.address device cluster (offset + i) = fs.dataOffset + fs.clusterSize *
      (fs.chain device cluster (offset / fs.clusterSize + 1) - 2) +
        (offset % fs.clusterSize + i - fs.clusterSize) := by
  have hdiv := Nat.div_add_mod' offset fs.clusterSize
  have hsplit : offset + i = (offset / fs.clusterSize + 1) * fs.clusterSize +
      (offset % fs.clusterSize + i - fs.clusterSize) := by
    rw [Nat.succ_mul]
    omega
  rw [hsplit, address_mul_add hfs cluster _ (by omega)]

/-- A short read. -/
theorem readBytes_of_short (hfs : fs.IsVolume count)
    (hfirst : fs.FirstCluster s.device count cluster offset) (hshort : fs.IsShort offset bytes)
    (out : ℕ) : fs.readBytes cluster out offset bytes s =
      .ok ⟨s.device, overlay out bytes (fun i => s.device (fs.getClusterOffset
        (fs.chain s.device cluster (offset / fs.clusterSize)) + offset % fs.clusterSize + i))
        s.memory⟩ := by
  have hlt := hfirst.cluster.getClusterOffset_add_lt hfs (Nat.mod_lt offset hfs.clusterSize_pos)
  rw [readBytes, hfirst.skip]
  dsimp only
  rw [if_pos hshort.1, if_neg (Nat.not_lt.mpr hshort.2), Nat.sub_self, readRest_zero hfs,
    hfirst.links, readWriteCluster_read hlt]

/-- What a read takes of a cluster that it does not begin with. -/
def firstPart (fs : Fat32Fs) (offset : ℕ) : ℕ :=
  (fs.clusterSize - offset % fs.clusterSize) % fs.clusterSize

/-- The first cluster that a read begins with. -/
def firstWhole (fs : Fat32Fs) (offset : ℕ) : ℕ := (offset + fs.firstPart offset) / fs.clusterSize

/-- The parts of a read that is not short. -/
structure Parts (fs : Fat32Fs) (offset bytes first index : ℕ) : Prop where
  begins : index * fs.clusterSize = offset + first
  lt : first < fs.clusterSize
  le : first ≤ bytes
  next : index ≤ offset / fs.clusterSize + 1

theorem parts_of_long (hfs : fs.IsVolume count) (hlong : ¬ fs.IsShort offset bytes) :
    fs.Parts offset bytes (fs.firstPart offset) (fs.firstWhole offset) := by
  have hpos := hfs.clusterSize_pos
  have hmod := Nat.mod_lt offset hpos
  have hdiv := Nat.div_add_mod' offset fs.clusterSize
  rcases Nat.eq_zero_or_pos (offset % fs.clusterSize) with hzero | hwithin
  · have hfirst : fs.firstPart offset = 0 := by
      rw [firstPart, hzero, Nat.sub_zero, Nat.mod_self]
    rw [firstWhole, hfirst, Nat.add_zero]
    exact ⟨by omega, hpos, Nat.zero_le _, Nat.le_succ _⟩
  · have hfirst : fs.firstPart offset = fs.clusterSize - offset % fs.clusterSize :=
      Nat.mod_eq_of_lt (by omega)
    have hend : offset + fs.firstPart offset =
        (offset / fs.clusterSize + 1) * fs.clusterSize := by
      rw [Nat.succ_mul]
      omega
    have hlonger : ¬ bytes ≤ fs.clusterSize := fun hle => hlong ⟨hwithin, hle⟩
    rw [firstWhole, hend, Nat.mul_div_cancel _ hpos]
    exact ⟨hend.symm, by omega, by omega, le_rfl⟩

/-- A read that is not short. -/
theorem readBytes_of_long (hfs : fs.IsVolume count)
    (hfirst : fs.FirstCluster s.device count cluster offset)
    (hlong : ¬ fs.IsShort offset bytes) (out : ℕ) : fs.readBytes cluster out offset bytes s =
      fs.readRest (fs.followed s.device cluster (fs.firstWhole offset))
        (out + fs.firstPart offset) (bytes - fs.firstPart offset)
        ⟨s.device, overlay out (fs.firstPart offset)
          (fun i => s.device (fs.address s.device cluster (offset + i))) s.memory⟩ := by
  have hpos := hfs.clusterSize_pos
  have hmod := Nat.mod_lt offset hpos
  have hparts := parts_of_long hfs hlong
  rw [readBytes, hfirst.skip]
  dsimp only
  rcases Nat.eq_zero_or_pos (offset % fs.clusterSize) with hzero | hwithin
  · have hnone : fs.firstPart offset = 0 := by
      rw [firstPart, hzero, Nat.sub_zero, Nat.mod_self]
    rw [if_neg (by omega), firstWhole, hnone, Nat.add_zero, Nat.add_zero, Nat.sub_zero,
      overlay_zero]
  · have hsome : fs.firstPart offset = fs.clusterSize - offset % fs.clusterSize :=
      Nat.mod_eq_of_lt (by omega)
    have hlonger : bytes > fs.clusterSize := Nat.lt_of_not_le fun hle => hlong ⟨hwithin, hle⟩
    have hwhole : fs.firstWhole offset = offset / fs.clusterSize + 1 := by
      have hdiv := Nat.div_add_mod' offset fs.clusterSize
      refine Nat.eq_of_mul_eq_mul_right hpos ?_
      rw [hparts.begins, Nat.succ_mul]
      omega
    have hlt := hfirst.cluster.getClusterOffset_add_lt hfs hmod
    have hbegin : overlay out (fs.firstPart offset) (fun i => s.device (fs.getClusterOffset
          (fs.chain s.device cluster (offset / fs.clusterSize)) + offset % fs.clusterSize + i))
        s.memory = overlay out (fs.firstPart offset)
          (fun i => s.device (fs.address s.device cluster (offset + i))) s.memory :=
      overlay_congr (fun i hi => by rw [hfirst.address hfs (by omega)]) fun _ _ => rfl
    rw [if_pos hwithin, if_pos hlonger, ← hsome, hwhole, followed_succ', hfirst.links,
      readWriteCluster_read hlt, hbegin]

/-- A read does what it should. -/
theorem readsBytes_of_canRead (hfs : fs.IsVolume count)
    (hchain : fs.HasLength s.device count cluster n) (hsize : offset + bytes ≤ n * fs.clusterSize)
    (hpos : 0 < bytes) (hcan : fs.CanRead s.device cluster offset bytes) (out : ℕ) :
    fs.ReadsBytes s cluster out offset bytes := by
  have hfirst := firstCluster_of_links hfs hchain (by omega) fun k hk => hcan.links k (Or.inl hk)
  have hmod := Nat.mod_lt offset hfs.clusterSize_pos
  by_cases hshort : fs.IsShort offset bytes
  · -- one part, which may go over the end of the cluster
    have hle := hshort.2
    have hbytes : ∀ i < bytes, fs.address s.device cluster (offset + i) = fs.getClusterOffset
        (fs.chain s.device cluster (offset / fs.clusterSize)) + offset % fs.clusterSize + i := by
      intro i hi
      by_cases hin : offset % fs.clusterSize + i < fs.clusterSize
      · exact hfirst.address hfs hin
      · have hnext := hcan.next hshort (by omega)
        have htwo := hfirst.cluster.1
        rw [address_next hfs (by omega) (by omega), hnext, hfirst.cluster.getClusterOffset hfs,
          Nat.sub_add_comm htwo, Nat.mul_succ]
        omega
    rw [ReadsBytes, readBytes_of_short hfs hfirst hshort]
    refine congrArg (fun memory => Except.ok (Fat32State.mk s.device memory))
      (overlay_congr (fun i hi => ?_) fun _ _ => rfl)
    rw [hbytes i hi]
  · -- the end of the first cluster, and the others
    obtain ⟨hwhole, -, hle, -⟩ := parts_of_long hfs hshort
    rw [ReadsBytes, readBytes_of_long hfs hfirst hshort]
    set first := fs.firstPart offset with hfirstPart
    rw [readRest_reads hfs hchain (out + first) (bytes - first) (fs.firstWhole offset) _ (by omega)
      (fun i _ hi => hcan.links i (Or.inr ⟨hshort, by omega⟩))
      (fun i hi hend => hcan.whole i ?_ (by omega))]
    · refine congrArg (fun memory => Except.ok (Fat32State.mk s.device memory)) ?_
      have hsplit := overlay_append out first (bytes - first)
        (fun j => s.device (fs.address s.device cluster (offset + j))) s.memory
      rw [Nat.add_sub_cancel' hle] at hsplit
      rw [← hsplit, hwhole]
      exact overlay_congr (fun i _ => by rw [Nat.add_assoc]) fun _ _ => rfl
    · have hmul := Nat.mul_le_mul_right fs.clusterSize hi
      omega

/-! ## What a read takes -/

/-- The chain is in the table. -/
theorem chain_congr (hfs : fs.IsVolume count) (hchain : fs.HasLength device count cluster n)
    (htable : fs.SameTable device device') (hk : k ≤ n) :
    fs.chain device' cluster k = fs.chain device cluster k :=
  iterate_congr fun i hi => congrArg number
    (getNextCluster_congr hfs (hchain.mem i (hi.trans_le hk)) htable)

theorem followed_congr (hfs : fs.IsVolume count) (htable : fs.SameTable device device')
    (hclusters : ∀ i < k, IsCluster count (fs.followed device cluster i)) :
    fs.followed device' cluster k = fs.followed device cluster k :=
  iterate_congr fun i hi => getNextCluster_congr hfs (hclusters i hi) htable

theorem hasLength_congr (hfs : fs.IsVolume count) (hchain : fs.HasLength device count cluster n)
    (htable : fs.SameTable device device') : fs.HasLength device' count cluster n := by
  refine ⟨fun i hi => ?_, ?_⟩
  · change IsCluster count (fs.chain device' cluster i)
    rw [chain_congr hfs hchain htable hi.le]
    exact hchain.mem i hi
  · change ¬ IsCluster count (fs.chain device' cluster n)
    rw [chain_congr hfs hchain htable le_rfl]
    exact hchain.stop

/-- The places of the bytes of a read. -/
theorem place_lt (hsize : offset + bytes ≤ n * fs.clusterSize) {j : ℕ} (hj : j < bytes) :
    (offset + j) / fs.clusterSize < n := by
  refine Nat.div_lt_of_lt_mul ?_
  rw [Nat.mul_comm]
  omega

theorem byte_of_overlay {x : Except Failure Fat32State} {t memory : ℕ → UInt8}
    (h : x = .ok ⟨device, overlay out bytes t memory⟩) (hrun : x = .ok s') {j : ℕ}
    (hj : j < bytes) : s'.memory (out + j) = t j := by
  obtain rfl := Except.ok.inj (hrun.symm.trans h)
  exact overlay_of_mem out t memory hj

theorem ReadsBytes.byte (h : fs.ReadsBytes s cluster out offset bytes)
    (hrun : fs.readBytes cluster out offset bytes s = .ok s') {j : ℕ} (hj : j < bytes) :
    s'.memory (out + j) = s.device (fs.address s.device cluster (offset + j)) :=
  byte_of_overlay h hrun hj

theorem add_one_ne (byte : UInt8) : byte + 1 ≠ byte := by
  intro heq
  have hsum := congrArg UInt8.toNat heq
  have hlt := byte.toNat_lt
  rw [UInt8.toNat_add] at hsum
  change (_ + 1) % 256 = _ at hsum
  omega

/-- A read of the right bytes, whatever the data are, is one from the right address. -/
theorem address_eq_of_reads (hfs : fs.IsVolume count)
    (hchain : fs.HasLength device count cluster n) (hsize : offset + bytes ≤ n * fs.clusterSize)
    (hall : ∀ s, fs.SameTable device s.device → fs.ReadsBytes s cluster out offset bytes) {j a : ℕ}
    (hj : j < bytes) (hread : ∀ s s', fs.SameTable device s.device →
      fs.readBytes cluster out offset bytes s = .ok s' → s'.memory (out + j) = s.device a) :
    a = fs.address device cluster (offset + j) := by
  by_contra hne
  set b := fs.address device cluster (offset + j) with hb
  have hdata : fs.fatOffset + fs.fatSize ≤ b := by
    have := hfs.fat_le
    rw [hb, address]
    omega
  -- the right byte differs from the one that is read
  obtain ⟨device', htable, hright, hother⟩ : ∃ device', fs.SameTable device device' ∧
      device' b = device a + 1 ∧ device' a = device a :=
    ⟨Function.update device b (device a + 1),
      fun a' _ hlt => Function.update_of_ne (by omega) _ _, Function.update_self ..,
      Function.update_of_ne hne _ _⟩
  have hreads := hall ⟨device', fun _ => 0⟩ htable
  have hbyte := (hreads.byte hreads hj).symm.trans (hread _ _ htable hreads)
  dsimp only at hbyte
  rw [address, chain_congr hfs hchain htable (place_lt hsize hj).le, ← address, ← hb, hright,
    hother] at hbyte
  exact add_one_ne _ hbyte

/-- A read of the right bytes writes all of them. -/
theorem written_of_reads
    (hall : ∀ s, fs.SameTable device s.device → fs.ReadsBytes s cluster out offset bytes) {j : ℕ}
    (hj : j < bytes) : ∃ memory s',
      fs.readBytes cluster out offset bytes ⟨device, memory⟩ = .ok s' ∧
        s'.memory (out + j) ≠ memory (out + j) := by
  have hreads := hall ⟨device, fun _ => device (fs.address device cluster (offset + j)) + 1⟩
    fun _ _ _ => rfl
  refine ⟨_, _, hreads, ?_⟩
  rw [hreads.byte hreads hj]
  exact (add_one_ne _).symm

/-- The first byte that is read is one of the cluster that `SkipCluster` comes to. -/
theorem first_byte (hfs : fs.IsVolume count) {c : ℕ}
    (hskip : (fs.skipCluster s.device (offset / fs.clusterSize) cluster).1 = c)
    (hc : IsCluster count c) (hpos : 0 < bytes)
    (hrun : fs.readBytes cluster out offset bytes s = .ok s') :
    s'.memory (out + 0) = s.device (fs.getClusterOffset c + offset % fs.clusterSize) := by
  have hsize := hfs.clusterSize_pos
  have hmod := Nat.mod_lt offset hsize
  rw [readBytes, hskip] at hrun
  dsimp only at hrun
  split at hrun
  · -- the part of the first cluster, and the rest behind it
    rename_i hwithin
    rw [readWriteCluster_read (hc.getClusterOffset_add_lt hfs hmod)] at hrun
    obtain ⟨r, -, -, -, rfl⟩ := readRest_ok hfs hrun
    set first := if bytes > fs.clusterSize then fs.clusterSize - offset % fs.clusterSize
      else bytes with hfirst
    have hsome : 0 < first := by
      rw [hfirst]
      split <;> omega
    dsimp only
    rw [overlay_of_not_mem _ _ (by omega), overlay_of_not_mem _ _ (by omega),
      overlay_of_mem _ _ _ hsome, Nat.add_zero]
  · rename_i hzero
    have haligned : offset % fs.clusterSize = 0 := by omega
    obtain ⟨r, hle, hturns, hend, rfl⟩ := readRest_ok hfs hrun
    dsimp only
    rw [haligned, Nat.add_zero (fs.getClusterOffset c)]
    by_cases hnone : bytes / fs.clusterSize = 0
    · have hshort : bytes < fs.clusterSize :=
        (Nat.div_eq_zero_iff_lt hsize).mp hnone
      obtain rfl : r = 0 := by omega
      rw [hnone, overlay, if_pos (by rw [Nat.mod_eq_of_lt hshort]; omega),
        show out + 0 - (out + 0 * fs.clusterSize) = 0 by omega, Nat.add_zero]
      rfl
    · have hread : 0 < fs.clusterSize * r := by
        refine Nat.mul_pos hsize (Nat.pos_of_ne_zero ?_)
        rintro rfl
        exact hc.not_final hfs (hend (Nat.pos_of_ne_zero hnone))
      have hlater : 0 < bytes / fs.clusterSize * fs.clusterSize :=
        Nat.mul_pos (Nat.pos_of_ne_zero hnone) hsize
      have hbyte : fs.followedAddress s.device c (fs.clusterSize * 0 + 0) = _ :=
        followedAddress_add hfs hsize
      rw [Nat.mul_zero, Nat.add_zero, Nat.add_zero] at hbyte
      rw [overlay_of_not_mem _ _ (by omega), overlay_of_mem _ _ _ hread, hbyte]
      rfl

/-- Different clusters begin at different addresses. -/
theorem IsCluster.eq_of_getClusterOffset (hfs : fs.IsVolume count) {a b : ℕ}
    (ha : IsCluster count a) (hb : IsCluster count b)
    (h : fs.getClusterOffset a = fs.getClusterOffset b) : a = b := by
  rw [ha.getClusterOffset hfs, hb.getClusterOffset hfs] at h
  have hplace := Nat.eq_of_mul_eq_mul_left hfs.clusterSize_pos (Nat.add_left_cancel h)
  have hle := ha.1
  have hle' := hb.1
  omega

/-- The turns of a longer read: none is left out. -/
theorem turns_of_reads (hfs : fs.IsVolume count)
    (hall : ∀ s, fs.SameTable device s.device → fs.ReadsBytes s cluster out offset bytes)
    (hfirst : ∀ s : Fat32State, fs.SameTable device s.device →
      fs.FirstCluster s.device count cluster offset)
    (hlong : ¬ fs.IsShort offset bytes) :
    ∀ k < (bytes - fs.firstPart offset) / fs.clusterSize,
      ¬ IsFinalCluster (fs.followed device cluster (fs.firstWhole offset + k)) ∧
        fs.followed device cluster (fs.firstWhole offset + k) < fs.clusterCount := by
  obtain ⟨-, -, hle, -⟩ := parts_of_long hfs hlong
  have hrefl : fs.SameTable device device := fun _ _ _ => rfl
  have hrun : ∀ memory s', fs.readBytes cluster out offset bytes ⟨device, memory⟩ = .ok s' → _ :=
    fun memory s' h => readRest_ok hfs
      ((readBytes_of_long (s := ⟨device, memory⟩) hfs (hfirst _ hrefl) hlong out).symm.trans h)
  obtain ⟨r, hr, hturns, hend, -⟩ := hrun (fun _ => 0) _ (hall ⟨device, _⟩ hrefl)
  by_cases hall' : r = (bytes - fs.firstPart offset) / fs.clusterSize
  · intro k hk
    rw [followed_add]
    exact hturns k (by omega)
  · -- a cluster that is left out is not written
    exfalso
    have hlt : r < (bytes - fs.firstPart offset) / fs.clusterSize := by omega
    have hmul := Nat.mul_le_mul_left fs.clusterSize (Nat.succ_le_of_lt hlt)
    have hwhole := Nat.mul_div_le (bytes - fs.firstPart offset) fs.clusterSize
    have hpos := hfs.clusterSize_pos
    rw [Nat.mul_succ] at hmul
    obtain ⟨memory, s', hread, hne⟩ := written_of_reads hall
      (show fs.firstPart offset + fs.clusterSize * r < bytes by omega)
    obtain ⟨r', hr', hturns', hend', rfl⟩ := hrun memory s' hread
    obtain rfl : r' = r := by
      rcases Nat.lt_trichotomy r' r with hbefore | heq | hafter
      · exact absurd (hend' (by omega)) (hturns r' hbefore).1
      · exact heq
      · exact absurd (hend hlt) (hturns' r hafter).1
    refine hne ?_
    dsimp only
    rw [Nat.mul_comm (_ / _), overlay_of_not_mem _ _ (by omega), overlay_of_not_mem _ _ (by omega),
      overlay_of_not_mem _ _ (by omega)]

theorem followed_lt (hstart : cluster < 2 ^ 32) (k : ℕ) :
    fs.followed device cluster k < 2 ^ 32 := by
  cases k with
  | zero => exact hstart
  | succ k =>
    rw [followed_succ']
    exact getNextCluster_lt _

section Needed

variable (hfs : fs.IsVolume count) (hchain : fs.HasLength device count cluster n)
  (hsize : offset + bytes ≤ n * fs.clusterSize)
  (hall : ∀ s, fs.SameTable device s.device → fs.ReadsBytes s cluster out offset bytes)
include hfs hchain hsize hall

/-- The entries up to the first cluster have no other bits. -/
theorem links_of_reads (hstart : cluster < 2 ^ 28) (hpos : 0 < bytes) {k : ℕ}
    (hk : k * fs.clusterSize ≤ offset) :
    fs.followed device cluster k = fs.chain device cluster k := by
  induction k using Nat.strong_induction_on with
  | h k ih =>
    cases k with
    | zero => exact (Nat.mod_eq_of_lt hstart).symm
    | succ k =>
      by_contra hne
      have hle : k + 1 ≤ offset / fs.clusterSize :=
        (Nat.le_div_iff_mul_le hfs.clusterSize_pos).mpr hk
      have hq : offset / fs.clusterSize < n := by
        have hplace := place_lt hsize hpos
        rwa [Nat.add_zero] at hplace
      have hlinks : ∀ i ≤ k, fs.followed device cluster i = fs.chain device cluster i := fun i hi =>
        ih i (Nat.lt_succ_of_le hi)
          ((Nat.mul_le_mul_right _ (by omega : i ≤ k + 1)).trans hk)
      have hclusters : ∀ i ≤ k, IsCluster count (fs.followed device cluster i) := fun i hi => by
        rw [hlinks i hi]
        exact hchain.mem i (by omega)
      -- the entry is taken for the end of the chain
      have hfinal : IsFinalCluster (fs.followed device cluster (k + 1)) := by
        by_contra hnext
        have hnumber := chain_eq_number fun i hi =>
          (hclusters i (Nat.lt_succ_iff.mp hi)).not_final hfs
        rw [number_of_not_final hnext] at hnumber
        exact hne hnumber.symm
      have haddress : fs.getClusterOffset (fs.followed device cluster k) +
          offset % fs.clusterSize = fs.address device cluster (offset + 0) := by
        refine address_eq_of_reads hfs hchain hsize hall hpos fun s s' htable hrun => ?_
        have hsame : ∀ i ≤ k + 1,
            fs.followed s.device cluster i = fs.followed device cluster i := fun i hi =>
          followed_congr hfs htable fun j hj => hclusters j (by omega)
        have hskip : fs.skipCluster s.device (offset / fs.clusterSize) cluster =
            (fs.followed s.device cluster k, true) := by
          refine skipCluster_stop (fun i hi => ?_) ?_ hle
          · rw [hsame _ (by omega)]
            exact (hclusters _ hi).not_final hfs
          · rwa [hsame _ le_rfl]
        rw [hsame k (Nat.le_succ k)] at hskip
        exact first_byte hfs (congrArg Prod.fst hskip) (hclusters k le_rfl) hpos hrun
      have hfirst : IsCluster count (fs.chain device cluster (offset / fs.clusterSize)) :=
        hchain.mem _ hq
      have hbegin : fs.address device cluster (offset / fs.clusterSize * fs.clusterSize +
          offset % fs.clusterSize) = _ :=
        address_mul_add hfs cluster _ (Nat.mod_lt offset hfs.clusterSize_pos)
      rw [Nat.div_add_mod', ← hfirst.getClusterOffset hfs] at hbegin
      rw [Nat.add_zero, hbegin] at haddress
      have hsame := (hclusters k le_rfl).eq_of_getClusterOffset hfs hfirst
        (Nat.add_right_cancel haddress)
      rw [hlinks k le_rfl] at hsame
      exact hchain.ne_of_lt hle hq.le hsame

/-- A short read finds the next cluster of the chain behind its first one. -/
theorem next_of_reads (hfirst : ∀ s : Fat32State, fs.SameTable device s.device →
      fs.FirstCluster s.device count cluster offset)
    (hshort : fs.IsShort offset bytes)
    (hover : fs.clusterSize < offset % fs.clusterSize + bytes) :
    fs.chain device cluster (offset / fs.clusterSize + 1) =
      fs.chain device cluster (offset / fs.clusterSize) + 1 := by
  have hmod := Nat.mod_lt offset hfs.clusterSize_pos
  set j := fs.clusterSize - offset % fs.clusterSize with hj
  have hjlt : j < bytes := by omega
  have hdiv := Nat.div_add_mod' offset fs.clusterSize
  have hnext : offset / fs.clusterSize + 1 < n := by
    refine lt_of_mul_lt_mul_right (a := fs.clusterSize) ?_ (Nat.zero_le _)
    rw [Nat.succ_mul]
    omega
  have haddress : fs.getClusterOffset (fs.chain device cluster (offset / fs.clusterSize)) +
      offset % fs.clusterSize + j = fs.address device cluster (offset + j) := by
    refine address_eq_of_reads hfs hchain hsize hall hjlt fun s s' htable hrun => ?_
    have hread := readBytes_of_short hfs (hfirst s htable) hshort out
    rw [chain_congr hfs hchain htable (by omega)] at hread
    exact byte_of_overlay hread hrun hjlt
  have hc : IsCluster count (fs.chain device cluster (offset / fs.clusterSize)) :=
    hchain.mem _ (by omega)
  have hc' : IsCluster count (fs.chain device cluster (offset / fs.clusterSize + 1)) :=
    hchain.mem _ hnext
  rw [address_next hfs (by omega) (by omega), hc.getClusterOffset hfs] at haddress
  have hmul : fs.clusterSize * (fs.chain device cluster (offset / fs.clusterSize) - 2 + 1) =
      fs.clusterSize * (fs.chain device cluster (offset / fs.clusterSize + 1) - 2) := by
    rw [Nat.mul_succ]
    omega
  have hplace := Nat.eq_of_mul_eq_mul_left hfs.clusterSize_pos hmul
  have hle := hc.1
  have hle' := hc'.1
  omega

/-- The cluster that a longer read ends with. -/
theorem last_of_reads (hstart : cluster < 2 ^ 28)
    (hfirst : ∀ s : Fat32State, fs.SameTable device s.device →
      fs.FirstCluster s.device count cluster offset)
    (hlong : ¬ fs.IsShort offset bytes)
    (hclusters : ∀ k < m, IsCluster count (fs.followed device cluster k) ∧
      (fs.firstWhole offset ≤ k → fs.followed device cluster k < fs.clusterCount))
    (hm : m = fs.firstWhole offset + (bytes - fs.firstPart offset) / fs.clusterSize)
    (hleft : m * fs.clusterSize < offset + bytes) :
    fs.followed device cluster m = fs.chain device cluster m := by
  have hpos := hfs.clusterSize_pos
  obtain ⟨hbegins, -, hle, -⟩ := parts_of_long hfs hlong
  have hplace : offset + (fs.firstPart offset +
      fs.clusterSize * ((bytes - fs.firstPart offset) / fs.clusterSize)) =
        m * fs.clusterSize + 0 := by
    rw [hm, Nat.add_mul, Nat.mul_comm fs.clusterSize]
    omega
  set j := fs.firstPart offset +
    fs.clusterSize * ((bytes - fs.firstPart offset) / fs.clusterSize) with hj
  have haddress : fs.getClusterOffset (fs.followed device cluster m) =
      fs.address device cluster (offset + j) := by
    refine address_eq_of_reads hfs hchain hsize hall (by omega) fun s s' htable hrun => ?_
    have hsame : ∀ i ≤ m, fs.followed s.device cluster i = fs.followed device cluster i :=
      fun i hi => followed_congr hfs htable fun k hk => (hclusters k (by omega)).1
    have hmovable : fs.Movable s.device count
        (fs.followed s.device cluster (fs.firstWhole offset))
        ((bytes - fs.firstPart offset) / fs.clusterSize) := by
      intro k hk
      rw [← followed_add, hsame _ (by omega)]
      exact ⟨(hclusters _ (by omega)).1, (hclusters _ (by omega)).2 (Nat.le_add_right _ _)⟩
    have hread := readBytes_of_long hfs (hfirst s htable) hlong out
    rw [readRest_of_movable hfs hmovable] at hread
    have hbyte := byte_of_overlay hread hrun (j := fs.clusterSize *
      ((bytes - fs.firstPart offset) / fs.clusterSize)) (by omega)
    have hlast : fs.followedAddress s.device (fs.followed s.device cluster (fs.firstWhole offset))
        (fs.clusterSize * ((bytes - fs.firstPart offset) / fs.clusterSize) + 0) = _ :=
      followedAddress_add hfs hpos
    rw [← followed_add, ← hm, hsame m le_rfl, Nat.add_zero, Nat.add_zero] at hlast
    rw [Nat.add_assoc, ← hj, hlast] at hbyte
    exact hbyte
  have hnumber : fs.chain device cluster m = number (fs.followed device cluster m) :=
    chain_eq_number fun k hk => (hclusters k hk).1.not_final hfs
  rw [hplace, address_mul_add hfs cluster m hpos, Nat.add_zero] at haddress
  by_cases hfinal : IsFinalCluster (fs.followed device cluster m)
  · have hcluster : IsCluster count (fs.chain device cluster m) :=
      hchain.mem m (lt_of_mul_lt_mul_right (hleft.trans_le hsize) (Nat.zero_le _))
    have htwo := hcluster.1
    rw [IsFinalCluster] at hfinal
    rw [getClusterOffset_eq hfs (by omega) (followed_lt (hstart.trans (by decide)) m)] at haddress
    have hsame := Nat.eq_of_mul_eq_mul_left hpos (Nat.add_left_cancel haddress)
    omega
  · rw [hnumber, number_of_not_final hfinal]

end Needed

/-- What a read of the right bytes takes is there. -/
theorem canRead_of_reads (hfs : fs.IsVolume count) (hstart : cluster < 2 ^ 28)
    (hchain : fs.HasLength device count cluster n) (hsize : offset + bytes ≤ n * fs.clusterSize)
    (hpos : 0 < bytes)
    (hall : ∀ s, fs.SameTable device s.device → fs.ReadsBytes s cluster out offset bytes) :
    fs.CanRead device cluster offset bytes := by
  have hclusterSize := hfs.clusterSize_pos
  have hlinks := fun k (hk : k * fs.clusterSize ≤ offset) =>
    links_of_reads hfs hchain hsize hall hstart hpos hk
  have hfirst : ∀ s : Fat32State, fs.SameTable device s.device →
      fs.FirstCluster s.device count cluster offset := by
    intro s htable
    have hchain' := hasLength_congr hfs hchain htable
    refine firstCluster_of_links hfs hchain' (by omega) fun k hk => ?_
    exact links_of_reads hfs hchain' hsize (fun s' htable' => hall s' fun a hle hlt =>
      (htable' a hle hlt).trans (htable a hle hlt)) hstart hpos hk
  by_cases hshort : fs.IsShort offset bytes
  · refine ⟨fun k hk => hlinks k (hk.resolve_right fun h => h.1 hshort), fun k hle hend => ?_,
      fun _ => next_of_reads hfs hchain hsize hall hfirst hshort⟩
    -- a short read has no whole cluster
    obtain ⟨hwithin, hbytes⟩ := hshort
    have hlt : offset < k * fs.clusterSize := by
      refine lt_of_le_of_ne hle fun heq => ?_
      rw [heq, Nat.mul_mod_left] at hwithin
      exact absurd hwithin (lt_irrefl 0)
    rw [Nat.succ_mul] at hend
    omega
  · have hturns := turns_of_reads hfs hall hfirst hshort
    obtain ⟨hbegins, hlt, hle, hnext⟩ := parts_of_long hfs hshort
    set f := fs.firstWhole offset with hf
    set w := (bytes - fs.firstPart offset) / fs.clusterSize with hw
    have hmul : w * fs.clusterSize ≤ bytes - fs.firstPart offset := Nat.div_mul_le_self _ _
    have hbelow : ∀ k < f + w, ¬ IsFinalCluster (fs.followed device cluster k) := by
      intro k hk
      by_cases hbefore : k < f
      · have hkq := Nat.mul_le_mul_right fs.clusterSize (show k ≤ offset / fs.clusterSize by omega)
        have hkle := hkq.trans (Nat.div_mul_le_self _ _)
        rw [hlinks k hkle]
        exact IsCluster.not_final hfs
          (hchain.mem k (lt_of_mul_lt_mul_right (by omega : _ < n * fs.clusterSize)
            (Nat.zero_le _)))
      · obtain ⟨i, rfl⟩ := Nat.exists_eq_add_of_le (Nat.le_of_not_lt hbefore)
        exact (hturns i (by omega)).1
    have hchainlinks : ∀ k < f + w, fs.followed device cluster k = fs.chain device cluster k := by
      intro k hk
      rw [chain_eq_number fun i hi => hbelow i (hi.trans hk), number_of_not_final (hbelow k hk)]
    have hend : (f + w) * fs.clusterSize ≤ offset + bytes := by
      rw [Nat.add_mul]
      omega
    have hover : bytes - fs.firstPart offset < w * fs.clusterSize + fs.clusterSize :=
      Nat.lt_div_mul_add hclusterSize
    have hclusters : ∀ k < f + w, IsCluster count (fs.followed device cluster k) ∧
        (f ≤ k → fs.followed device cluster k < fs.clusterCount) := by
      intro k hk
      refine ⟨?_, fun hfk => ?_⟩
      · have hmulk := Nat.mul_lt_mul_of_pos_right hk hclusterSize
        rw [hchainlinks k hk]
        exact hchain.mem k (lt_of_mul_lt_mul_right (by omega : _ < n * fs.clusterSize)
          (Nat.zero_le _))
      · obtain ⟨i, rfl⟩ := Nat.exists_eq_add_of_le hfk
        exact (hturns i (by omega)).2
    refine ⟨fun k hk => ?_, fun k hle' hk => ?_, fun h => absurd h hshort⟩
    · rcases hk with hk | ⟨-, hk⟩
      · exact hlinks k hk
      · rcases Nat.lt_trichotomy k (f + w) with hbefore | rfl | hafter
        · exact hchainlinks k hbefore
        · exact last_of_reads hfs hchain hsize hall hstart hfirst hshort hclusters rfl hk
        · have hmulk := Nat.mul_le_mul_right fs.clusterSize (Nat.succ_le_of_lt hafter)
          rw [Nat.succ_mul, Nat.add_mul] at hmulk
          omega
    · have hfk : f ≤ k := by
        refine Nat.lt_succ_iff.mp (lt_of_mul_lt_mul_right (a := fs.clusterSize) ?_ (Nat.zero_le _))
        rw [Nat.succ_mul]
        omega
      have hkw : k < f + w := by
        refine lt_of_mul_lt_mul_right (a := fs.clusterSize) ?_ (Nat.zero_le _)
        rw [Nat.add_mul]
        rw [Nat.succ_mul] at hk
        omega
      rw [← hchainlinks k hkw]
      exact (hclusters k hkw).2 hfk

theorem readsBytes_zero (hfs : fs.IsVolume count) (s : Fat32State) (cluster out offset : ℕ) :
    fs.ReadsBytes s cluster out offset 0 := by
  rw [ReadsBytes, overlay_zero, readBytes]
  dsimp only
  split
  · rw [if_neg (by omega), Nat.sub_self, readRest_zero hfs, readWriteCluster,
      Fat32State.transfer_read, overlay_zero]
  · exact readRest_zero hfs _ _ s

/-- The table has what a read takes. -/
theorem CanRead.congr (hfs : fs.IsVolume count) (hchain : fs.HasLength device count cluster n)
    (hsize : offset + bytes ≤ n * fs.clusterSize) (hpos : 0 < bytes)
    (htable : fs.SameTable device device') (h : fs.CanRead device cluster offset bytes) :
    fs.CanRead device' cluster offset bytes := by
  have hsmall : ∀ k, k * fs.clusterSize < offset + bytes → k < n := fun k hk =>
    lt_of_mul_lt_mul_right (hk.trans_le hsize) (Nat.zero_le _)
  have hfirst : offset / fs.clusterSize < n :=
    hsmall _ ((Nat.div_mul_le_self _ _).trans_lt (by omega))
  refine ⟨fun k hk => ?_, fun k hle hk => ?_, fun hshort hover => ?_⟩
  · have hkn : k < n := hsmall k (by omega)
    -- what is needed for an entry is needed for those in front of it
    have hclusters : ∀ i < k, IsCluster count (fs.followed device cluster i) := by
      intro i hi
      have hmul := Nat.mul_le_mul_right fs.clusterSize hi.le
      rw [h.links i (hk.imp hmul.trans fun hk => ⟨hk.1, hmul.trans_lt hk.2⟩)]
      exact hchain.mem i (hi.trans hkn)
    rw [followed_congr hfs htable hclusters, chain_congr hfs hchain htable hkn.le, h.links k hk]
  · have hkn : k < n := hsmall k (by
      have hlt := Nat.mul_lt_mul_of_pos_right (show k < k + 1 by omega) hfs.clusterSize_pos
      omega)
    rw [chain_congr hfs hchain htable hkn.le]
    exact h.whole k hle hk
  · rw [chain_congr hfs hchain htable hfirst, chain_congr hfs hchain htable hfirst.le]
    exact h.next hshort hover

/-- **Which reads of a chain are right.** Whatever the data are, `ReadBytes` reads the bytes of the
chain exactly when nothing is read, or what the read takes is there. -/
theorem readBytes_reads_iff (hfs : fs.IsVolume count) (hstart : cluster < 2 ^ 28)
    (hchain : fs.HasLength device count cluster n) (hsize : offset + bytes ≤ n * fs.clusterSize)
    (out : ℕ) :
    (∀ s, fs.SameTable device s.device → fs.ReadsBytes s cluster out offset bytes) ↔
      bytes = 0 ∨ fs.CanRead device cluster offset bytes := by
  constructor
  · intro hall
    rcases Nat.eq_zero_or_pos bytes with hzero | hpos
    · exact Or.inl hzero
    · exact Or.inr (canRead_of_reads hfs hstart hchain hsize hpos hall)
  · rintro hcan s htable
    rcases Nat.eq_zero_or_pos bytes with rfl | hpos
    · exact readsBytes_zero hfs s cluster out offset
    · exact readsBytes_of_canRead hfs (hasLength_congr hfs hchain htable) hsize hpos
        ((hcan.resolve_left hpos.ne').congr hfs hchain hsize hpos htable) out

theorem smallDevice_hasLength_two : (smallBoot.mount 10).HasLength smallDevice 8 2 2 :=
  smallDevice_isAllocated_two.length

/-- The end of the first cluster of a chain, and the beginning of the second. -/
theorem readBytes_reads_two :
    (smallBoot.mount 10).ReadsBytes ⟨smallDevice, fun _ => 0⟩ 2 0 100 600 := by
  have hsize : (smallBoot.mount 10).clusterSize = 512 := by decide
  have hlinks : ∀ k < 2, (smallBoot.mount 10).followed smallDevice 2 k =
      (smallBoot.mount 10).chain smallDevice 2 k := by
    decide
  refine (readBytes_reads_iff (smallBoot_wellFormed.isVolume 10) (by decide)
    smallDevice_hasLength_two (by decide) 0).mpr (Or.inr ⟨fun k hk => hlinks k ?_,
      fun k hle hk => ?_, fun hshort => ?_⟩) _ fun _ _ _ => rfl
  · rw [hsize] at hk
    omega
  · rw [hsize] at hle hk
    omega
  · have hle := hshort.2
    rw [hsize] at hle
    omega

/-- A short read over the end of a cluster, of a chain that does not go on with the next one. -/
theorem not_readsBytes_five : ¬ ∀ s, (smallBoot.mount 10).SameTable smallDevice s.device →
    (smallBoot.mount 10).ReadsBytes s 5 0 500 100 := by
  intro hall
  have hread := hall ⟨smallDevice, fun _ => 0⟩ fun _ _ _ => rfl
  have hbyte : ((smallBoot.mount 10).readBytes 5 0 500 100 ⟨smallDevice, fun _ => 0⟩).map
      (fun s => s.memory 12) = .ok 6 := by
    decide
  rw [ReadsBytes] at hread
  rw [hread] at hbyte
  have hsix : smallDevice ((smallBoot.mount 10).address smallDevice 5 (500 + 12)) = 6 :=
    Except.ok.inj hbyte
  exact absurd hsix (by decide)

end Fat32Fs

/-! ## Reading a file -/

/-- `Fat32FsINode`: the first cluster of a file, and its size. -/
structure Fat32FsINode where
  cluster : ℕ
  size : ℕ

namespace Fat32FsINode

variable (fs : Fat32Fs) (node : Fat32FsINode)

/-- `Read`. The part behind the end of the file is cut off. -/
def read (buffer offset bytes : ℕ) (s : Fat32State) : Except Failure (ℕ × Fat32State) :=
  let endOffset := (offset + bytes) % wordCount
  let bytes :=
    if endOffset > node.size then if offset ≥ node.size then 0 else node.size - offset else bytes
  if bytes = 0 then .ok (0, s)
  else (fs.readBytes node.cluster buffer offset bytes s).map fun s => (bytes, s)

variable {fs node} {s : Fat32State} {buffer offset bytes count n : ℕ}

/-- A file reads as far as it goes where its chain can be read. -/
theorem read_of_canRead (hfs : fs.IsVolume count)
    (hchain : fs.HasLength s.device count node.cluster n) (hsize : node.size ≤ n * fs.clusterSize)
    (hword : offset + bytes < wordCount)
    (hcan : 0 < min bytes (node.size - offset) →
      fs.CanRead s.device node.cluster offset (min bytes (node.size - offset))) :
    node.read fs buffer offset bytes s = .ok (min bytes (node.size - offset), ⟨s.device,
      overlay buffer (min bytes (node.size - offset))
        (fun j => s.device (fs.address s.device node.cluster (offset + j))) s.memory⟩) := by
  have hcut : (if offset + bytes > node.size then
      if offset ≥ node.size then 0 else node.size - offset else bytes) =
        min bytes (node.size - offset) := by
    split
    · split <;> omega
    · omega
  rw [read, Nat.mod_eq_of_lt hword, hcut]
  rcases Nat.eq_zero_or_pos (min bytes (node.size - offset)) with hzero | hpos
  · rw [if_pos hzero, hzero, overlay_zero]
  · have hread : fs.ReadsBytes s node.cluster buffer offset (min bytes (node.size - offset)) :=
      Fat32Fs.readsBytes_of_canRead hfs hchain (by omega) hpos (hcan hpos) buffer
    rw [Fat32Fs.ReadsBytes] at hread
    rw [if_neg hpos.ne', hread]
    rfl

end Fat32FsINode

end Cryptix.VFS
