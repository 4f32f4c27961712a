import Cryptix.Memory.BitmapAllocator

/-!
# Which free runs `AllocatePages` finds

A search of `FindFreeRegions` starts with no frames counted, so it finds the first free run that
begins at or after its start and ends below its limit. `AllocatePages` makes two of them: one from
the cursor up to the top of memory, and when that returns null one from frame 0 up to the cursor. A
run with frames on both sides of the cursor belongs to neither.

The pointer a search returns is null as well when the run begins at frame 0.
-/

namespace Cryptix.Memory.BitmapAllocator

open Prism

/-! ## The two searches of `AllocatePages` -/

/-- What `Initialize` fixes once and no call changes: the page size, the top of memory, and one bit
a frame below it. Nothing is said about the bits or the cursor. -/
structure Sized (a : BitmapAllocator) : Prop where
  pageSize_pos : 0 < a.pageSize
  top_lt : a.usableMemoryTop < wordCount
  size_eq : a.pageBitmap.size = a.usableMemoryTop / a.pageSize

theorem Wf.sized {a : BitmapAllocator} (hwf : a.Wf) : a.Sized :=
  ⟨by rw [hwf.pageSize_eq]; decide, hwf.top_lt, hwf.size_eq⟩

/-- The number of frames below `m_UsableMemoryTop`, the limit of the first search. -/
def frameLimit (a : BitmapAllocator) : ℕ := a.usableMemoryTop / a.pageSize

/-- Some free run of `count` frames lies at or above the cursor. -/
def RunAbove (a : BitmapAllocator) (count : ℕ) : Prop :=
  FreeBetween a.pageBitmap count a.lastIndex a.frameLimit

/-- Some free run of `count` frames lies below the cursor. -/
def RunBelow (a : BitmapAllocator) (count : ℕ) : Prop :=
  FreeBetween a.pageBitmap count 0 a.lastIndex

/-- The searches meet a run at frame 0 first: from a cursor at 0, or in the second search. -/
def ZeroFirst (a : BitmapAllocator) (count : ℕ) : Prop :=
  FreeRun a.pageBitmap count a.frameLimit 0 ∧
    (a.lastIndex = 0 ∨ count ≤ a.lastIndex ∧ ¬a.RunAbove count)

/-- A free run lies inside the bitmap, whatever limit it was searched under. -/
theorem Sized.run_le {a : BitmapAllocator} (hs : a.Sized) {count limit page : ℕ}
    (hcount : 0 < count) (hrun : FreeRun a.pageBitmap count limit page) :
    page + count ≤ a.frameLimit := by
  have hlast := lt_size_of_free (a := a) (hrun.free (page + count - 1) (by omega) (by omega))
  rw [hs.size_eq] at hlast
  exact Nat.le_of_pred_lt hlast

/-- The address of a free run is null only for a run at frame 0. -/
theorem Sized.address_eq_zero {a : BitmapAllocator} (hs : a.Sized) {count limit page : ℕ}
    (hcount : 0 < count) (hrun : FreeRun a.pageBitmap count limit page) :
    page * a.pageSize % wordCount = 0 ↔ page = 0 := by
  have hle : page * a.pageSize ≤ a.usableMemoryTop := by
    have hend := hs.run_le hcount hrun
    exact (Nat.le_div_iff_mul_le hs.pageSize_pos).mp (by rw [frameLimit] at hend; omega)
  rw [Nat.mod_eq_of_lt (lt_of_le_of_lt hle hs.top_lt), Nat.mul_eq_zero]
  exact or_iff_left hs.pageSize_pos.ne'

theorem commit_fst (a : BitmapAllocator) (count : ℕ) (found : Search) :
    (a.commit count found).1 = found.pages := by
  rw [commit]
  dsimp only
  split <;> rename_i h <;> simp [h]

/-- The second search returns null when no run lies below the cursor, or the first one there begins
at frame 0. -/
theorem wrapped_pages {a : BitmapAllocator} (hs : a.Sized) {count : ℕ} (hcount : 0 < count) :
    (a.findFreeRegions 0 count a.lastIndex).pages = 0 ↔
      ¬a.RunBelow count ∨ FreeRun a.pageBitmap count a.lastIndex 0 := by
  rcases findFreeRegions_first a 0 a.lastIndex hcount with ⟨page, hfirst, hfind⟩ | ⟨hnone, hfind⟩
  · have hbelow : a.RunBelow count := ⟨page, hfirst.first_le, hfirst.run⟩
    rw [hfind, hs.address_eq_zero hcount hfirst.run, or_iff_right (not_not.mpr hbelow)]
    constructor
    · rintro rfl
      exact hfirst.run
    · intro hzero
      by_contra hpos
      exact hfirst.least 0 le_rfl (Nat.pos_of_ne_zero hpos) hzero
  · simp [hfind, RunBelow, hnone]

/-- A run at frame 0 below the cursor is one that ends there. -/
theorem Sized.zero_run_iff {a : BitmapAllocator} (hs : a.Sized) {count : ℕ} (hcount : 0 < count) :
    FreeRun a.pageBitmap count a.lastIndex 0 ↔
      FreeRun a.pageBitmap count a.frameLimit 0 ∧ count ≤ a.lastIndex := by
  constructor
  · intro h
    exact ⟨⟨hs.run_le hcount h, h.free⟩, by simpa using h.le_limit⟩
  · rintro ⟨h, hle⟩
    exact ⟨by simpa using hle, h.free⟩

/-- When `AllocatePages` returns null. -/
theorem allocatePages_null_iff {a : BitmapAllocator} (hs : a.Sized) {count : ℕ}
    (hcount : 0 < count) :
    (a.allocatePages count).1 = 0 ↔
      ¬(a.RunAbove count ∨ a.RunBelow count) ∨ a.ZeroFirst count := by
  rw [allocatePages, if_neg hcount.ne']
  dsimp only
  rcases findFreeRegions_first a a.lastIndex (a.usableMemoryTop / a.pageSize) hcount with
    ⟨page, hfirst, hfind⟩ | ⟨hnone, hfind⟩
  · have habove : a.RunAbove count := ⟨page, hfirst.first_le, hfirst.run⟩
    have haddr := hs.address_eq_zero hcount hfirst.run
    rw [or_iff_right (by simp [habove])]
    by_cases hpage : page = 0
    · -- the frames are marked, the pointer is null, and the second search is empty
      subst hpage
      have hcursor : a.lastIndex = 0 := by simpa using hfirst.first_le
      have hzero : a.ZeroFirst count := ⟨hfirst.run, .inl hcursor⟩
      rw [hfind, if_pos (by simp), commit_fst]
      simp [findFreeRegions, hcursor, findLoop, hzero]
    · rw [hfind, if_neg (mt haddr.mp hpage), commit_fst]
      refine iff_of_false (mt haddr.mp hpage) ?_
      rintro ⟨hrun, hcursor | ⟨-, hmiss⟩⟩
      · exact hfirst.least 0 (by omega) (Nat.pos_of_ne_zero hpage) hrun
      · exact hmiss habove
  · have hmiss : ¬a.RunAbove count := hnone
    rw [hfind, if_pos rfl, commit_fst]
    refine (wrapped_pages hs hcount).trans ?_
    rw [hs.zero_run_iff hcount, ZeroFirst]
    constructor
    · rintro (hbelow | ⟨hrun, hle⟩)
      · exact .inl (by simp [hmiss, hbelow])
      · exact .inr ⟨hrun, .inr ⟨hle, hmiss⟩⟩
    · rintro (hboth | ⟨hrun, hcursor | ⟨hle, -⟩⟩)
      · exact .inl fun h => hboth (.inr h)
      · -- from a cursor at 0 the first search would have found it
        exact absurd ⟨0, hcursor.le, hrun⟩ hnone
      · exact .inr ⟨hrun, hle⟩

/-- `AllocatePages` returns null only when memory has no free run of that length exactly as long as
some such run keeps to one side of the cursor, and the one it meets first is not at frame 0. -/
theorem null_only_if_no_run {a : BitmapAllocator} (hs : a.Sized) {count : ℕ} (hcount : 0 < count) :
    ((a.allocatePages count).1 = 0 → ¬FreeBetween a.pageBitmap count 0 a.frameLimit) ↔
      (FreeBetween a.pageBitmap count 0 a.frameLimit →
        (a.RunAbove count ∨ a.RunBelow count) ∧ ¬a.ZeroFirst count) := by
  rw [allocatePages_null_iff hs hcount]
  constructor
  · intro h hfree
    have hfound := mt h (not_not.mpr hfree)
    exact ⟨not_not.mp fun hmiss => hfound (.inl hmiss), fun hzero => hfound (.inr hzero)⟩
  · rintro h (hmiss | hzero) hfree
    · exact hmiss (h hfree).1
    · exact (h hfree).2 hzero

/-- Three frames, of which all but frame 0 are free. -/
def twoFreeFrames : BitmapAllocator :=
  { uninitialized 4096 with
    pageBitmap := ⟨#[true, false, false]⟩
    memoryTop := 12288
    usableMemoryTop := 12288 }

theorem twoFreeFrames_sized : twoFreeFrames.Sized :=
  ⟨by decide, by decide, by decide⟩

/-- From a cursor at 0 the two free frames are found. -/
theorem null_only_if_no_run_twoFreeFrames :
    FreeBetween twoFreeFrames.pageBitmap 2 0 twoFreeFrames.frameLimit ∧
      (twoFreeFrames.allocatePages 2).1 ≠ 0 := by
  have hfree : FreeBetween twoFreeFrames.pageBitmap 2 0 twoFreeFrames.frameLimit :=
    ⟨1, by decide, by decide, by decide⟩
  have hnull := (null_only_if_no_run twoFreeFrames_sized (show 0 < 2 by decide)).mpr fun _ =>
    ⟨.inl ⟨1, by decide, by decide, by decide⟩,
      fun hzero => absurd (hzero.1.free 0 le_rfl (by decide)) (by decide)⟩
  exact ⟨hfree, fun h => hnull h hfree⟩

/-- After one frame has been allocated and freed again the cursor stands between the two free
frames, and a request for both of them returns null. -/
theorem allocatePages_misses_run :
    let a := (twoFreeFrames.allocatePages 1).2.freePages 4096 1
    (a.allocatePages 2).1 = 0 ∧ FreeBetween a.pageBitmap 2 0 a.frameLimit :=
  ⟨by decide, 1, by decide, by decide, by decide⟩

end Cryptix.Memory.BitmapAllocator
