import Mathlib.Data.Finset.Lattice.Basic
import Mathlib.Order.Interval.Finset.Nat
import Cryptix.Memory.FramePool

/-!
# The free memory the allocator reports

`FreeMemorySize` is the difference of two counters. `Initialize` sets them in its first loop, from
the lengths of the memory map's entries, and clears bits in its second loop, which leaves out frame
0. `AllocatePages` and `FreePages` then move counter and bitmap by the same number of pages.

So the two agree for ever exactly when they agree at the start, and there the counter is larger by
every page that two usable entries share, and by page 0 when a usable entry begins there.
-/

namespace Cryptix.Memory

open Prism Lib

namespace BitmapAllocator

/-- `BitmapAllocator::FreeMemorySize`. -/
def freeMemorySize (a : BitmapAllocator) : ℕ := wordSub a.totalMemory a.usedMemory

/-- The clear bits of the bitmap. -/
def clearBits (a : BitmapAllocator) : Finset ℕ :=
  (Finset.range a.pageBitmap.size).filter fun i => a.used i = false

/-- The free memory reported is what the clear bits stand for. -/
def FreeMemoryExact (a : BitmapAllocator) : Prop :=
  a.freeMemorySize = a.pageSize * a.clearBits.card

instance (a : BitmapAllocator) : Decidable a.FreeMemoryExact :=
  inferInstanceAs (Decidable (_ = _))

theorem mem_clearBits {a : BitmapAllocator} {i : ℕ} : i ∈ a.clearBits ↔ a.used i = false := by
  rw [clearBits, Finset.mem_filter, Finset.mem_range]
  exact ⟨And.right, fun h => ⟨lt_size_of_free h, h⟩⟩

theorem Wf.clearBits_lt {a : BitmapAllocator} (hwf : a.Wf) :
    PMM.pageSize * a.clearBits.card < wordCount := by
  have hcard : a.clearBits.card ≤ a.pageBitmap.size :=
    (Finset.card_filter_le _ _).trans_eq (Finset.card_range _)
  rw [Nat.mul_comm]
  exact hwf.frame_mul_lt hcard

/-! ## One call -/

/-- What `AllocatePages` does to the counters. -/
theorem allocatePages_counters (a : BitmapAllocator) (count : ℕ) :
    (a.allocatePages count).2.totalMemory = a.totalMemory ∧
    (a.allocatePages count).2.usedMemory =
      if (a.allocatePages count).1 = 0 then a.usedMemory
      else offset a.usedMemory (count * a.pageSize) := by
  have hcommit : ∀ (b : BitmapAllocator) (found : Search),
      (b.commit count found).2.totalMemory = b.totalMemory ∧
      (b.commit count found).2.usedMemory =
        if (b.commit count found).1 = 0 then b.usedMemory
        else offset b.usedMemory (count * b.pageSize) := by
    intro b found
    rw [commit]
    by_cases h : found.pages = 0 <;> simp [h]
  rw [allocatePages]
  by_cases hcount : count = 0
  · simp [hcount]
  · rw [if_neg hcount]
    dsimp only
    split
    · exact hcommit _ _
    · exact hcommit _ _

/-- The frames `AllocatePages` marks leave the clear bits. -/
theorem Allocated.card_clearBits {a a' : BitmapAllocator} {page count : ℕ}
    (h : Allocated a a' page count) : a'.clearBits.card + count = a.clearBits.card := by
  have hsub : Finset.Ico page (page + count) ⊆ a.clearBits := by
    intro i hi
    rw [Finset.mem_Ico] at hi
    exact mem_clearBits.mpr (h.free i hi.1 hi.2)
  have hdiff : a'.clearBits = a.clearBits \ Finset.Ico page (page + count) := by
    ext i
    rw [Finset.mem_sdiff, mem_clearBits, mem_clearBits, Finset.mem_Ico, ← Bool.not_eq_true,
      h.used_iff, not_or, Bool.not_eq_true]
  have hcard := Finset.card_sdiff_add_card_eq_card hsub
  rw [Nat.card_Ico] at hcard
  rw [hdiff]
  omega

/-- The frames `FreePages` gives back join the clear bits. -/
theorem card_clearBits_freePages {a : BitmapAllocator} (hwf : a.Wf) {page count : ℕ}
    (hpage : 0 < page) (hfit : page + count ≤ a.pageBitmap.size)
    (hused : ∀ i, page ≤ i → i < page + count → a.used i = true) :
    (a.freePages (page * PMM.pageSize) count).clearBits.card = a.clearBits.card + count := by
  have hdisj : Disjoint a.clearBits (Finset.Ico page (page + count)) := by
    rw [Finset.disjoint_left]
    intro i hi hin
    rw [Finset.mem_Ico] at hin
    rw [mem_clearBits, hused i hin.1 hin.2] at hi
    exact absurd hi (by decide)
  have hunion : (a.freePages (page * PMM.pageSize) count).clearBits =
      a.clearBits ∪ Finset.Ico page (page + count) := by
    ext i
    rw [Finset.mem_union, mem_clearBits, mem_clearBits, Finset.mem_Ico, ← Bool.not_eq_true,
      used_freePages hwf hpage hfit, not_and_not_right, ← Bool.not_eq_true]
    tauto
  rw [hunion, Finset.card_union_of_disjoint hdisj, Nat.card_Ico]
  omega

end BitmapAllocator

namespace FramePool

variable {usable : ℕ → Prop} {s s' : FramePool}

/-- Every disciplined call moves the counter and the clear bits by the same number of pages. -/
theorem Accounted.freeMemoryExact_step (h : Accounted usable s)
    (hexact : s.allocator.FreeMemoryExact) {call : Call} (hok : FreesLiveBlocks s call)
    (hs : s.step call = some s') : s'.allocator.FreeMemoryExact := by
  have hwf := h.wf
  have hlt := hwf.clearBits_lt
  have hsize := hwf.pageSize_eq
  rw [BitmapAllocator.FreeMemoryExact, BitmapAllocator.freeMemorySize] at hexact ⊢
  rw [hsize] at hexact
  cases call with
  | allocatePages count =>
    obtain ⟨htotal, hcounter⟩ := s.allocator.allocatePages_counters count
    rw [FramePool.step] at hs
    rcases BitmapAllocator.allocatePages_spec hwf count with
      ⟨first, a', hcount, hcall, halloc⟩ | ⟨a', hcall, hwf', hbitmap⟩
    · have hne : first * PMM.pageSize ≠ 0 := Nat.mul_ne_zero halloc.frame_pos.ne' (by decide)
      rw [hcall] at hs htotal hcounter
      simp only [if_neg hne, Option.some.injEq] at hs hcounter
      subst hs
      have hcard := halloc.card_clearBits
      rw [htotal, hcounter, halloc.wf.pageSize_eq, hsize]
      rw [← hcard] at hexact hlt
      simp only [wordSub, offset, wordCount, PMM.pageSize] at hexact hlt ⊢
      omega
    · rw [hcall] at hs htotal hcounter
      simp only [if_true, Option.some.injEq] at hs hcounter
      subst hs
      have hclear : a'.clearBits = s.allocator.clearBits := by
        ext i
        rw [BitmapAllocator.mem_clearBits, BitmapAllocator.mem_clearBits, BitmapAllocator.used,
          BitmapAllocator.used, hbitmap]
      rw [htotal, hcounter, hexact, hwf'.pageSize_eq, hclear]
  | freePages page count =>
    obtain rfl : _ = s' := by simpa [FramePool.step] using hs
    obtain ⟨first, hfirst, hpage, hcount : 0 < count⟩ := h.aligned _ hok
    obtain rfl : page = first * PMM.pageSize := hpage
    have hfit := h.fits hcount hok
    have hused : ∀ i, first ≤ i → i < first + count → s.allocator.used i = true := fun i hi hi' =>
      (h.used_iff i).mpr (.inl ⟨_, hok, Block.mem_frames.mpr ⟨hi, hi'⟩⟩)
    have hcard := BitmapAllocator.card_clearBits_freePages hwf hfirst hfit hused
    have hwf' := hwf.freePages hfirst hfit
    have hlt' := hwf'.clearBits_lt
    have hcounter : (s.allocator.freePages (first * PMM.pageSize) count).usedMemory =
          wordSub s.allocator.usedMemory (count * PMM.pageSize) ∧
        (s.allocator.freePages (first * PMM.pageSize) count).totalMemory =
          s.allocator.totalMemory := by
      have hne : first * PMM.pageSize ≠ 0 := Nat.mul_ne_zero hfirst.ne' (by decide)
      rw [BitmapAllocator.freePages, if_neg (by omega)]
      exact ⟨by rw [← hsize], rfl⟩
    dsimp only
    rw [hcounter.1, hcounter.2, hwf'.pageSize_eq]
    rw [hcard] at hlt' ⊢
    simp only [wordSub, wordCount, PMM.pageSize] at hexact hlt' ⊢
    omega

end FramePool

/-! ## The counter after `Initialize` -/

/-- The addresses of a zone. -/
def MemoryZone.addresses (z : MemoryZone) : Set ℕ := Set.Ico z.base (z.base + z.length)

/-- The numbers of the pages of a zone. -/
def MemoryZone.pages (z : MemoryZone) : Finset ℕ :=
  Finset.Ico (z.base / PMM.pageSize) ((z.base + z.length) / PMM.pageSize)

namespace MemoryMap

/-- The lengths of the usable entries added up. -/
def usableLength : MemoryMap → ℕ
  | [] => 0
  | z :: zs => (if z.type = .usable then z.length else 0) + usableLength zs

/-- The pages of the usable entries. -/
def usablePages : MemoryMap → Finset ℕ
  | [] => ∅
  | z :: zs => (if z.type = .usable then z.pages else ∅) ∪ usablePages zs

/-- No usable byte is counted that is not free as well: usable entries do not overlap, and none
holds address 0. -/
structure CountedOnce (memoryMap : MemoryMap) : Prop where
  disjoint : memoryMap.Pairwise fun y z =>
    y.type = .usable → z.type = .usable → Disjoint y.addresses z.addresses
  zero_notMem : ∀ z ∈ memoryMap, z.type = .usable → 0 ∉ z.addresses

variable {memoryMap : MemoryMap}

theorem mem_usablePages {i : ℕ} :
    i ∈ usablePages memoryMap ↔ ∃ z ∈ memoryMap, z.type = .usable ∧ i ∈ z.pages := by
  induction memoryMap with
  | nil => simp [usablePages]
  | cons z zs ih =>
    rw [usablePages, Finset.mem_union, ih]
    by_cases h : z.type = .usable <;> simp [h]

/-- A usable frame is a page of a usable entry other than page 0. -/
theorem usableFrame_iff_mem_usablePages (haligned : UsableAligned memoryMap) {i : ℕ} :
    UsableFrame memoryMap i ↔ i ∈ (usablePages memoryMap).erase 0 := by
  rw [UsableFrame, Finset.mem_erase, mem_usablePages]
  refine and_congr_right fun _ => exists_congr fun z => and_congr_right fun hz =>
    and_congr_right fun husable => ?_
  obtain ⟨⟨b, hb⟩, ⟨l, hl⟩⟩ := haligned z hz husable
  rw [MemoryZone.pages, Finset.mem_Ico, hb, hl]
  simp only [PMM.pageSize]
  omega

/-- For aligned zones, sharing no address and sharing no page are the same. -/
theorem disjoint_addresses_iff {y z : MemoryZone}
    (hy : PMM.pageSize ∣ y.base ∧ PMM.pageSize ∣ y.length)
    (hz : PMM.pageSize ∣ z.base ∧ PMM.pageSize ∣ z.length) :
    Disjoint y.addresses z.addresses ↔ Disjoint y.pages z.pages := by
  obtain ⟨⟨b, hb⟩, ⟨l, hl⟩⟩ := hy
  obtain ⟨⟨c, hc⟩, ⟨m, hm⟩⟩ := hz
  simp only [MemoryZone.addresses, MemoryZone.pages, Set.disjoint_left, Finset.disjoint_left,
    Set.mem_Ico, Finset.mem_Ico, hb, hc, hl, hm, PMM.pageSize]
  constructor
  · intro h i hi hi'
    exact h (a := i * 4096) (by omega) (by omega)
  · intro h i hi hi'
    exact h (a := i / 4096) (by omega) (by omega)

theorem zero_mem_addresses_iff {z : MemoryZone}
    (hz : PMM.pageSize ∣ z.base ∧ PMM.pageSize ∣ z.length) :
    0 ∈ z.addresses ↔ 0 ∈ z.pages := by
  obtain ⟨⟨b, hb⟩, ⟨l, hl⟩⟩ := hz
  simp only [MemoryZone.addresses, MemoryZone.pages, Set.mem_Ico, Finset.mem_Ico, hb, hl,
    PMM.pageSize]
  omega

theorem card_pages {z : MemoryZone} (hz : PMM.pageSize ∣ z.base ∧ PMM.pageSize ∣ z.length) :
    PMM.pageSize * z.pages.card = z.length := by
  obtain ⟨⟨b, hb⟩, ⟨l, hl⟩⟩ := hz
  rw [MemoryZone.pages, Nat.card_Ico, hb, hl, ← Nat.mul_add, Nat.mul_div_cancel_left _ (by decide),
    Nat.mul_div_cancel_left _ (by decide), Nat.add_sub_cancel_left]

/-- The usable entries cover at most as many pages as their lengths add up to, and exactly as many
when they do not overlap. -/
theorem card_usablePages (haligned : UsableAligned memoryMap) :
    PMM.pageSize * (usablePages memoryMap).card ≤ usableLength memoryMap ∧
    (PMM.pageSize * (usablePages memoryMap).card = usableLength memoryMap ↔
      memoryMap.Pairwise fun y z =>
        y.type = .usable → z.type = .usable → Disjoint y.addresses z.addresses) := by
  induction memoryMap with
  | nil => simp [usablePages, usableLength]
  | cons z zs ih =>
    have hzs : UsableAligned zs := fun w hw => haligned w (List.mem_cons_of_mem _ hw)
    obtain ⟨hle, heq⟩ := ih hzs
    rw [List.pairwise_cons, usablePages, usableLength, ← heq]
    by_cases husable : z.type = .usable
    · have hz := haligned z List.mem_cons_self husable
      -- entry by entry, disjointness from the rest is disjointness from all its pages
      have hrest : (∀ w ∈ zs, z.type = .usable → w.type = .usable →
          Disjoint z.addresses w.addresses) ↔ Disjoint z.pages (usablePages zs) := by
        rw [Finset.disjoint_right]
        constructor
        · intro h i hi
          obtain ⟨w, hw, hwu, hiw⟩ := mem_usablePages.mp hi
          exact Finset.disjoint_right.mp
            ((disjoint_addresses_iff hz (hzs w hw hwu)).mp (h w hw husable hwu)) hiw
        · intro h w hw _ hwu
          rw [disjoint_addresses_iff hz (hzs w hw hwu), Finset.disjoint_right]
          exact fun i hi => h (mem_usablePages.mpr ⟨w, hw, hwu, hi⟩)
      have hcard := Finset.card_union_add_card_inter z.pages (usablePages zs)
      have hpages := card_pages hz
      rw [hrest, if_pos husable, if_pos husable, Finset.disjoint_iff_inter_eq_empty,
        ← Finset.card_eq_zero]
      simp only [PMM.pageSize] at hle hpages ⊢
      omega
    · simp only [if_neg husable, Finset.empty_union, Nat.zero_add]
      exact ⟨hle, ⟨fun h => ⟨fun _ _ hu => absurd hu husable, h⟩, And.right⟩⟩

/-- The usable entries count each free page once exactly when their lengths add up to the usable
pages other than page 0. -/
theorem countedOnce_iff (haligned : UsableAligned memoryMap) :
    CountedOnce memoryMap ↔
      PMM.pageSize * ((usablePages memoryMap).erase 0).card = usableLength memoryMap := by
  obtain ⟨hle, heq⟩ := card_usablePages haligned
  have hzero : (∀ z ∈ memoryMap, z.type = .usable → 0 ∉ z.addresses) ↔
      0 ∉ usablePages memoryMap := by
    rw [mem_usablePages]
    push Not
    exact forall₂_congr fun z hz => forall_congr' fun husable =>
      not_congr (zero_mem_addresses_iff (haligned z hz husable))
  have hsplit : CountedOnce memoryMap ↔
      PMM.pageSize * (usablePages memoryMap).card = usableLength memoryMap ∧
        0 ∉ usablePages memoryMap := by
    rw [heq, ← hzero]
    exact ⟨fun h => ⟨h.disjoint, h.zero_notMem⟩, fun h => ⟨h.1, h.2⟩⟩
  rw [hsplit]
  by_cases h0 : 0 ∈ usablePages memoryMap
  · have hcard := Finset.card_erase_add_one h0
    simp only [h0, not_true_eq_false, and_false, false_iff]
    simp only [PMM.pageSize] at hle ⊢
    omega
  · rw [Finset.erase_eq_of_notMem h0]
    simp [h0]

end MemoryMap

namespace BitmapAllocator

/-- One entry of the memory map moves the free memory by its length if it is usable. -/
theorem freeMemorySize_accountZone (a : BitmapAllocator) (z : MemoryZone) :
    (a.accountZone z).freeMemorySize =
      offset a.freeMemorySize (if z.type = .usable then z.length else 0) := by
  rw [accountZone, freeMemorySize, freeMemorySize]
  cases z.type <;> simp [offset, wordSub, wordCount] <;> omega

theorem freeMemorySize_foldl_accountZone (memoryMap : MemoryMap) (a : BitmapAllocator) :
    (memoryMap.foldl accountZone a).freeMemorySize =
      offset a.freeMemorySize (MemoryMap.usableLength memoryMap) := by
  induction memoryMap generalizing a with
  | nil => exact (Nat.mod_mod _ _).symm
  | cons z zs ih =>
    rw [List.foldl_cons, ih, freeMemorySize_accountZone, MemoryMap.usableLength]
    simp only [offset]
    rw [Nat.mod_add_mod, Nat.add_assoc]

/-- The free memory after `Initialize`, before any call. -/
theorem freeMemorySize_initializeWith {memoryMap : MemoryMap} {a : BitmapAllocator}
    (hinit : initializeWith memoryMap PMM.pageSize = .ok a) :
    a.freeMemorySize = MemoryMap.usableLength memoryMap % wordCount := by
  have hfold := freeMemorySize_foldl_accountZone memoryMap (uninitialized PMM.pageSize)
  rw [initializeWith, if_neg (by decide)] at hinit
  dsimp only at hinit
  split at hinit
  · cases hinit
  split at hinit
  · cases hinit
  injection hinit with hinit
  subst hinit
  refine hfold.trans ?_
  rw [offset, show (uninitialized PMM.pageSize).freeMemorySize = 0 from by decide, Nat.zero_add]

/-- The clear bits after `Initialize`. -/
theorem clearBits_initializeWith {memoryMap : MemoryMap}
    (haligned : MemoryMap.UsableAligned memoryMap) {a : BitmapAllocator}
    (hinit : initializeWith memoryMap PMM.pageSize = .ok a) :
    a.clearBits = (MemoryMap.usablePages memoryMap).erase 0 := by
  have h := accounted_initializeWith haligned hinit
  ext i
  rw [mem_clearBits, ← MemoryMap.usableFrame_iff_mem_usablePages haligned, ← Bool.not_eq_true]
  have hused := h.used_iff i
  simp only [List.not_mem_nil, false_and, exists_false, false_or] at hused
  rw [hused, not_not]

end BitmapAllocator

/-- When usable entries neither overlap nor hold address 0, the free memory reported is the page
size times the number of clear bits in every state that a run of disciplined calls reaches. When
they do either, and their lengths do not wrap around, it is wrong from the start. -/
theorem freeMemorySize_exact_of_countedOnce {memoryMap : MemoryMap}
    (haligned : MemoryMap.UsableAligned memoryMap) {a : BitmapAllocator}
    (hinit : BitmapAllocator.initializeWith memoryMap PMM.pageSize = .ok a) :
    (MemoryMap.CountedOnce memoryMap →
      ∀ s, Reaches FramePool.step FramePool.FreesLiveBlocks ⟨a, []⟩ s →
        s.allocator.FreeMemoryExact) ∧
    (¬MemoryMap.CountedOnce memoryMap → MemoryMap.usableLength memoryMap < wordCount →
      ¬a.FreeMemoryExact) := by
  have hacc := BitmapAllocator.accounted_initializeWith haligned hinit
  have hlt := hacc.wf.clearBits_lt
  have hfree := BitmapAllocator.freeMemorySize_initializeWith hinit
  rw [MemoryMap.countedOnce_iff haligned]
  dsimp only at hlt
  rw [BitmapAllocator.clearBits_initializeWith haligned hinit] at hlt
  have hexact : a.FreeMemoryExact ↔ MemoryMap.usableLength memoryMap % wordCount =
      PMM.pageSize * ((MemoryMap.usablePages memoryMap).erase 0).card := by
    rw [BitmapAllocator.FreeMemoryExact, hfree, hacc.wf.pageSize_eq,
      BitmapAllocator.clearBits_initializeWith haligned hinit]
  refine ⟨fun hcounted s hrun => ?_, fun hne hwrap h => ?_⟩
  · rw [hcounted] at hlt hexact
    have hstart := hexact.mpr (Nat.mod_eq_of_lt hlt)
    exact (hrun.invariant
      (P := fun s => FramePool.Accounted (MemoryMap.UsableFrame memoryMap) s ∧
        s.allocator.FreeMemoryExact)
      ⟨hacc, hstart⟩
      fun s call s' hs hok hstep =>
        ⟨hs.1.step hok hstep, hs.1.freeMemoryExact_step hs.2 hok hstep⟩).2
  · rw [hexact, Nat.mod_eq_of_lt hwrap] at h
    exact hne h.symm

/-- Two usable entries with a reserved one between them, none at address 0. -/
def twoUsable : MemoryMap :=
  [⟨0x1000, 0x2000, .usable, by decide⟩, ⟨0x3000, 0x1000, .reserved, by decide⟩,
    ⟨0x4000, 0x1000, .usable, by decide⟩]

theorem freeMemorySize_exact_twoUsable : ∃ a s,
    BitmapAllocator.initializeWith twoUsable PMM.pageSize = .ok a ∧
    Reaches.runList FramePool.step FramePool.FreesLiveBlocks ⟨a, []⟩
      [.allocatePages 2, .allocatePages 1, .freePages 0x1000 2] = some s ∧
    s.allocator.freeMemorySize = 0x2000 ∧ s.allocator.FreeMemoryExact := by
  have haligned : MemoryMap.UsableAligned twoUsable := by
    unfold MemoryMap.UsableAligned
    decide
  have hcounted : MemoryMap.CountedOnce twoUsable := by
    rw [MemoryMap.countedOnce_iff haligned]
    decide
  refine ⟨_, _, rfl, rfl, by decide, ?_⟩
  exact (freeMemorySize_exact_of_countedOnce haligned rfl).1 hcounted _
    (.of_list [.allocatePages 2, .allocatePages 1, .freePages 0x1000 2] rfl)

/-- A usable entry at address 0: of its four frames three are free, and all four are counted. -/
theorem not_freeMemoryExact_fourFrames : ∃ a,
    BitmapAllocator.initializeWith fourFrames PMM.pageSize = .ok a ∧
    a.freeMemorySize = 0x4000 ∧ a.clearBits.card = 3 ∧ ¬a.FreeMemoryExact := by
  refine ⟨_, rfl, by decide, by decide, by decide⟩

end Cryptix.Memory
