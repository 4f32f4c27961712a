import Cryptix.VFS.FileDescriptorTable

/-!
# Descriptors that are duplicated and inherited

`Process::DupFd` of `Kernel/Scheduler/Process.cpp`, with the calls `Dup` and `Dup2` that are made of
it, and the part of `Process::Fork` that fills the table of the child. `DupFd` never takes a number
that is open: it counts on from the number it is asked for until one is free, and leaves the rest
to `Insert`. `Fork` puts the descriptors into a table that has its own standard streams.

Descriptor numbers come in as `isize`, and the table takes them as `i32`.
-/

namespace Cryptix.VFS.FileDescriptorTable

variable {δ : Type*}

/-! ## Numbers -/

theorem wrap32_of_fits {n : ℤ} (hlow : -2 ^ 31 ≤ n) (hhigh : n < 2 ^ 31) : wrap32 n = n :=
  Int.bmod_eq_of_le_mul_two (by omega) (by omega)

theorem wrap32_bounds (n : ℤ) : -2 ^ 31 ≤ wrap32 n ∧ wrap32 n < 2 ^ 31 := by
  have hlow := Int.le_bmod (x := n) (m := 2 ^ 32) (by decide)
  have hhigh := Int.bmod_lt (x := n) (m := 2 ^ 32) (by decide)
  rw [wrap32]
  omega

/-- All numbers of the table, and its counter, are `i32`. -/
structure Fits (t : FileDescriptorTable δ) : Prop where
  nextIndex : wrap32 t.nextIndex = t.nextIndex
  number : ∀ n, t.isValid n = true → wrap32 n = n

theorem isValid_of_getFd {t : FileDescriptorTable δ} {n : ℤ} {d : δ} (h : t.getFd n = some d) :
    t.isValid n = true := by
  rw [isValid, h, Option.isSome_some]

theorem fits_empty : (empty : FileDescriptorTable δ).Fits where
  nextIndex := (by decide : wrap32 3 = 3)
  number n h := by cases h

/-- The number `Insert` picks is an `i32` if the number it is given is one. -/
theorem Fits.pick {t : FileDescriptorTable δ} (ht : t.Fits) {desired : ℤ}
    (hdesired : wrap32 desired = desired) : wrap32 (t.pick desired) = t.pick desired := by
  rw [FileDescriptorTable.pick]
  split
  · exact hdesired
  · exact ht.nextIndex

theorem Fits.insert {t : FileDescriptorTable δ} (ht : t.Fits) (fd : δ) {desired : ℤ}
    (hdesired : wrap32 desired = desired) : (t.insert fd desired).2.Fits where
  nextIndex := by simp [FileDescriptorTable.insert, wrap32]
  number n hn := by
    by_cases hpick : n = t.pick desired
    · rw [hpick]
      exact ht.pick hdesired
    · rw [isValid, getFd_insert_of_ne t fd hpick] at hn
      exact ht.number n hn

/-! ## Duplicating -/

/-- The loop of `DupFd` for a number that is not negative and not open, for a number of rounds. -/
def searchFree (t : FileDescriptorTable δ) : ℕ → ℤ → Option ℤ
  | 0, _ => none
  | rounds + 1, n =>
    if n < 0 ∨ t.isValid (wrap32 n) = true then searchFree t rounds (n + 1) else some n

/-- `Process::DupFd`, `none` if its loop takes longer. The flags are not looked at. -/
def dupFd (t : FileDescriptorTable δ) (rounds : ℕ) (oldFdNum newFdNum : ℤ) :
    Option (Except Errno ℤ × FileDescriptorTable δ) :=
  if oldFdNum = newFdNum then some (.error .EINVAL, t)
  else match t.getFd (wrap32 oldFdNum) with
    | none => some (.error .EBADF, t)
    | some oldFd => (t.searchFree rounds newFdNum).map fun n =>
      -- the number is not open, so that nothing is closed
      let closed := if t.isValid (wrap32 n) then (t.erase (wrap32 n)).2 else t
      let inserted := closed.insert oldFd (wrap32 n)
      (if inserted.1 < 0 then .error .EBADF else .ok inserted.1, inserted.2)

/-- `API::VFS::Dup`. -/
def dup (t : FileDescriptorTable δ) (rounds : ℕ) (oldFdNum : ℤ) :
    Option (Except Errno ℤ × FileDescriptorTable δ) :=
  t.dupFd rounds oldFdNum (-1)

/-- `API::VFS::Dup2`. -/
def dup2 (t : FileDescriptorTable δ) (rounds : ℕ) (oldFdNum newFdNum : ℤ) :
    Option (Except Errno ℤ × FileDescriptorTable δ) :=
  t.dupFd rounds oldFdNum newFdNum

/-- The result of duplicating `oldFd` to `newFd`: that number is returned and has the description
of `oldFd`, and the others have what they had. -/
structure Duplicated (t : FileDescriptorTable δ) (oldFd newFd : ℤ)
    (result : Except Errno ℤ × FileDescriptorTable δ) : Prop where
  returned : result.1 = .ok newFd
  getFd_new : result.2.getFd newFd = t.getFd oldFd
  getFd_of_ne : ∀ n, n ≠ newFd → result.2.getFd n = t.getFd n

/-- `Dup2` duplicates to the number it is given. -/
def Dup2Law (t : FileDescriptorTable δ) (oldFd newFd : ℤ) : Prop :=
  ∃ rounds result, t.dup2 rounds oldFd newFd = some result ∧ t.Duplicated oldFd newFd result

/-- `n` is the lowest number that is not open. -/
structure LowestFree (t : FileDescriptorTable δ) (n : ℤ) : Prop where
  nonneg : 0 ≤ n
  fits : n < 2 ^ 31
  free : t.isValid n = false
  below : ∀ m, 0 ≤ m → m < n → t.isValid m = true

/-- `Dup` duplicates to the lowest number that is free. -/
def DupLaw (t : FileDescriptorTable δ) (oldFd : ℤ) : Prop :=
  ∀ n, t.LowestFree n →
    ∃ rounds result, t.dup rounds oldFd = some result ∧ t.Duplicated oldFd n result

/-- The search comes to the first number that is free. -/
theorem searchFree_eq_some_iff {t : FileDescriptorTable δ} {rounds : ℕ} {n m : ℤ} :
    t.searchFree rounds n = some m ↔
      n ≤ m ∧ m < n + rounds ∧ 0 ≤ m ∧ t.isValid (wrap32 m) = false ∧
        ∀ k, n ≤ k → k < m → k < 0 ∨ t.isValid (wrap32 k) = true := by
  induction rounds generalizing n with
  | zero =>
    rw [searchFree]
    constructor
    · intro h
      cases h
    · rintro ⟨hle, hlt, -⟩
      omega
  | succ rounds ih =>
    rw [searchFree]
    by_cases htaken : n < 0 ∨ t.isValid (wrap32 n) = true
    · rw [if_pos htaken, ih]
      constructor
      · rintro ⟨hle, hlt, hpos, hfree, hbefore⟩
        refine ⟨by omega, by push_cast; omega, hpos, hfree, fun k hk hkm => ?_⟩
        by_cases hkn : k = n
        · rw [hkn]
          exact htaken
        · exact hbefore k (by omega) hkm
      · rintro ⟨hle, hlt, hpos, hfree, hbefore⟩
        have hne : n ≠ m := by
          rintro rfl
          rcases htaken with hneg | hopen
          · omega
          · simp [hfree] at hopen
        push_cast at hlt
        exact ⟨by omega, by omega, hpos, hfree, fun k hk hkm => hbefore k (by omega) hkm⟩
    · rw [if_neg htaken, Option.some.injEq]
      obtain ⟨hpos, hfree⟩ := not_or.mp htaken
      constructor
      · rintro rfl
        exact ⟨le_rfl, by push_cast; omega, by omega, by simpa using hfree, fun k _ _ => by omega⟩
      · rintro ⟨hle, -, -, -, hbefore⟩
        by_contra hne
        exact htaken (hbefore n le_rfl (by omega))

/-- A search that has a free number ahead ends. -/
theorem exists_searchFree {t : FileDescriptorTable δ} (ahead : ℕ) {n : ℤ} (hpos : 0 ≤ n + ahead)
    (hfree : t.isValid (wrap32 (n + ahead)) = false) :
    ∃ rounds m, t.searchFree rounds n = some m := by
  induction ahead generalizing n with
  | zero =>
    rw [show n + ((0 : ℕ) : ℤ) = n by omega] at hfree
    exact ⟨1, n, by simp [searchFree, hfree]; omega⟩
  | succ ahead ih =>
    obtain ⟨rounds, m, hm⟩ := ih (n := n + 1) (by push_cast at hpos; omega)
      (by rwa [show n + 1 + (ahead : ℤ) = n + ((ahead + 1 : ℕ) : ℤ) by push_cast; omega])
    by_cases htaken : n < 0 ∨ t.isValid (wrap32 n) = true
    · exact ⟨rounds + 1, m, by rw [searchFree, if_pos htaken, hm]⟩
    · exact ⟨1, n, by rw [searchFree, if_neg htaken]⟩

/-- What `DupFd` does when its loop has come to `n`. -/
theorem dupFd_of_search {t : FileDescriptorTable δ} {rounds : ℕ} {oldFd newFd n : ℤ} {d : δ}
    (hne : oldFd ≠ newFd) (hold : t.getFd (wrap32 oldFd) = some d)
    (hn : t.searchFree rounds newFd = some n) :
    t.dupFd rounds oldFd newFd =
      some (if t.pick (wrap32 n) < 0 then .error .EBADF else .ok (t.pick (wrap32 n)),
        (t.insert d (wrap32 n)).2) := by
  have hfree : t.isValid (wrap32 n) = false := (searchFree_eq_some_iff.mp hn).2.2.2.1
  simp [dupFd, hne, hold, hn, hfree, insert]

/-- A number that `DupFd` returns is the one that `Insert` picks, and then everything is as it
should be. -/
theorem duplicated_of_pick {t : FileDescriptorTable δ} {rounds : ℕ} {oldFd newFd n m : ℤ} {d : δ}
    (hne : oldFd ≠ newFd) (hfits : wrap32 oldFd = oldFd) (hold : t.getFd oldFd = some d)
    (hn : t.searchFree rounds newFd = some n) (hpick : t.pick (wrap32 n) = m) (hpos : 0 ≤ m) :
    ∃ result, t.dupFd rounds oldFd newFd = some result ∧ t.Duplicated oldFd m result := by
  refine ⟨_, dupFd_of_search hne (by rwa [hfits]) hn, ?_, ?_, fun k hk => ?_⟩
  · rw [hpick, if_neg (by omega)]
  · rw [← hpick, getFd_insert_pick, hold]
  · exact getFd_insert_of_ne t d (by rwa [hpick])

/-- The number is free, or the search leaves the numbers of the table behind and the counter of the
table stands at it. -/
def Dup2Meets (t : FileDescriptorTable δ) (oldFd newFd : ℤ) : Prop :=
  oldFd ≠ newFd ∧ newFd < 2 ^ 31 ∧
    (t.isValid newFd = false ∨
      (∀ n, newFd ≤ n → n < 2 ^ 31 → t.isValid n = true) ∧
        (∃ n, -2 ^ 31 ≤ n ∧ n < 0 ∧ t.isValid n = false) ∧ t.nextIndex = newFd)

theorem meets_of_dup2Law {t : FileDescriptorTable δ} (ht : t.Fits) {oldFd newFd : ℤ}
    (hpos : 0 ≤ newFd) (h : t.Dup2Law oldFd newFd) : t.Dup2Meets oldFd newFd := by
  obtain ⟨rounds, result, hdup, hdone⟩ := h
  have hret := hdone.returned
  rw [dup2] at hdup
  have hne : oldFd ≠ newFd := by
    rintro rfl
    rw [dupFd, if_pos rfl, Option.some.injEq] at hdup
    simp [← hdup] at hret
  cases hold : t.getFd (wrap32 oldFd) with
  | none =>
    simp only [dupFd, hne, if_false, hold, Option.some.injEq] at hdup
    simp [← hdup] at hret
  | some d =>
    cases hsearch : t.searchFree rounds newFd with
    | none => simp [dupFd, hne, hold, hsearch] at hdup
    | some n =>
      rw [dupFd_of_search hne hold hsearch, Option.some.injEq] at hdup
      obtain ⟨hle, -, hnpos, hfree, hbefore⟩ := searchFree_eq_some_iff.mp hsearch
      have hpick : t.pick (wrap32 n) = newFd := by
        rw [← hdup] at hret
        simp only at hret
        split at hret
        · cases hret
        · exact Except.ok.inj hret
      have hnew := ht.pick (show wrap32 (wrap32 n) = wrap32 n by simp [wrap32])
      rw [hpick] at hnew
      have hbounds := wrap32_bounds newFd
      rw [hnew] at hbounds
      refine ⟨hne, hbounds.2, ?_⟩
      by_cases hpicked : 0 ≤ wrap32 n
      · rw [pick, if_pos ⟨hpicked, hfree⟩] at hpick
        exact .inl (hpick ▸ hfree)
      · rw [pick, if_neg fun hand => hpicked hand.1] at hpick
        refine .inr ⟨fun m hm hlt => ?_, ⟨wrap32 n, (wrap32_bounds n).1, by omega, hfree⟩, hpick⟩
        have hbehind : 2 ^ 31 ≤ n := by
          by_contra hin
          rw [wrap32_of_fits (by omega) (by omega)] at hpicked
          omega
        rcases hbefore m hm (by omega) with hneg | hopen
        · omega
        · rwa [wrap32_of_fits (by omega) hlt] at hopen

theorem dup2Law_of_meets {t : FileDescriptorTable δ} {oldFd newFd : ℤ} {d : δ}
    (hpos : 0 ≤ newFd) (hfits : wrap32 oldFd = oldFd) (hold : t.getFd oldFd = some d)
    (h : t.Dup2Meets oldFd newFd) : t.Dup2Law oldFd newFd := by
  obtain ⟨hne, hlt, hfree | ⟨hopen, ⟨free, hlow, hneg, hfree⟩, hnext⟩⟩ := h
  · have hwrap : wrap32 newFd = newFd := wrap32_of_fits (by omega) hlt
    have hsearch : t.searchFree 1 newFd = some newFd := by
      rw [searchFree, if_neg]
      simp [hwrap, hfree, hpos]
    refine ⟨1, duplicated_of_pick hne hfits hold hsearch ?_ hpos⟩
    rw [hwrap, pick, if_pos ⟨hpos, hfree⟩]
  · -- the negative number is met behind the last that is not
    have hwrap : wrap32 (free + 2 ^ 32) = free := by
      have hmod : wrap32 (free + 2 ^ 32) = wrap32 free := by
        simp only [wrap32]
        exact Int.add_bmod_right free (2 ^ 32)
      rw [hmod, wrap32_of_fits hlow (by omega)]
    have hahead : newFd + ((free + 2 ^ 32 - newFd).toNat : ℤ) = free + 2 ^ 32 := by omega
    obtain ⟨rounds, n, hsearch⟩ := exists_searchFree (t := t) (n := newFd)
      (free + 2 ^ 32 - newFd).toNat (by omega) (by rwa [hahead, hwrap])
    obtain ⟨hle, -, hnpos, hnfree, hbefore⟩ := searchFree_eq_some_iff.mp hsearch
    have hbehind : 2 ^ 31 ≤ n := by
      by_contra hin
      rw [wrap32_of_fits (by omega) (by omega), hopen n hle (by omega)] at hnfree
      cases hnfree
    have hbound : n ≤ free + 2 ^ 32 := by
      by_contra hgt
      rcases hbefore (free + 2 ^ 32) (by omega) (by omega) with hneg' | hopen'
      · omega
      · rw [hwrap, hfree] at hopen'
        cases hopen'
    have hwrapn : wrap32 n = n - 2 ^ 32 := by
      have hmod : wrap32 (n - 2 ^ 32) = wrap32 n := by
        simp only [wrap32]
        exact Int.sub_bmod_right n (2 ^ 32)
      rw [← hmod, wrap32_of_fits (by omega) (by omega)]
    refine ⟨rounds, duplicated_of_pick hne hfits hold hsearch ?_ hpos⟩
    rw [pick, if_neg fun hand => by omega, hnext]

/-- The lowest free number is what the search from below comes to. -/
theorem dupLaw_of_ne {t : FileDescriptorTable δ} {oldFd : ℤ} {d : δ} (hne : oldFd ≠ -1)
    (hfits : wrap32 oldFd = oldFd) (hold : t.getFd oldFd = some d) : t.DupLaw oldFd := by
  intro n hn
  have hwrap : ∀ m, 0 ≤ m → m ≤ n → wrap32 m = m := fun m hm hle =>
    wrap32_of_fits (by omega) (by have := hn.fits; omega)
  have hsearch : t.searchFree (n + 2).toNat (-1) = some n := by
    have := hn.nonneg
    refine searchFree_eq_some_iff.mpr ⟨by omega, by omega, hn.nonneg, ?_, fun k hk hkn => ?_⟩
    · rw [hwrap n hn.nonneg le_rfl, hn.free]
    · by_cases hneg : k < 0
      · exact .inl hneg
      · rw [hwrap k (by omega) (by omega)]
        exact .inr (hn.below k (by omega) hkn)
  refine ⟨_, duplicated_of_pick hne hfits hold hsearch ?_ hn.nonneg⟩
  rw [hwrap n hn.nonneg le_rfl, pick, if_pos ⟨hn.nonneg, hn.free⟩]

theorem not_dupLaw_neg_one {t : FileDescriptorTable δ} {n : ℤ} (hn : t.LowestFree n) :
    ¬t.DupLaw (-1) := by
  intro h
  obtain ⟨rounds, result, hdup, hdone⟩ := h n hn
  have hret := hdone.returned
  rw [dup, dupFd, if_pos rfl, Option.some.injEq] at hdup
  simp [← hdup] at hret

/-- `Dup2` duplicates an open descriptor to the number it is given exactly when that is another
number, and free, but for a search that leaves the table; `Dup` duplicates to the lowest free
number unless the descriptor is the number -1 that it asks `DupFd` for. -/
theorem dup_laws_iff {t : FileDescriptorTable δ} (ht : t.Fits) {oldFd newFd : ℤ} {d : δ}
    (hold : t.getFd oldFd = some d) (hpos : 0 ≤ newFd) :
    (t.Dup2Law oldFd newFd ↔ t.Dup2Meets oldFd newFd) ∧
      (t.DupLaw oldFd ↔ (oldFd = -1 → ∀ n, ¬t.LowestFree n)) := by
  have hfits := ht.number oldFd (isValid_of_getFd hold)
  refine ⟨⟨meets_of_dup2Law ht hpos, dup2Law_of_meets hpos hfits hold⟩, fun h hneg n hn => ?_,
    fun h => ?_⟩
  · subst hneg
    exact not_dupLaw_neg_one hn h
  · by_cases hneg : oldFd = -1
    · exact fun n hn => absurd hn (h hneg n)
    · exact dupLaw_of_ne hneg hfits hold

/-- Two open descriptors. -/
def twoOpen : FileDescriptorTable Bool := ((empty.insert false 0).2.insert true 1).2

theorem fits_twoOpen : twoOpen.Fits :=
  (fits_empty.insert false (by decide)).insert true (by decide)

/-- A descriptor is duplicated to a number that is free. -/
theorem dup_laws_twoOpen : twoOpen.Dup2Law 0 7 ∧ twoOpen.DupLaw 0 := by
  have hold : twoOpen.getFd 0 = some false := rfl
  have h := dup_laws_iff fits_twoOpen hold (by decide : (0 : ℤ) ≤ 7)
  exact ⟨h.1.mpr ⟨by decide, by decide, .inl rfl⟩, h.2.mpr fun hneg => by cases hneg⟩

/-- It is not duplicated to one that is open, nor to itself. -/
theorem not_dup2Law_twoOpen : ¬twoOpen.Dup2Law 0 1 ∧ ¬twoOpen.Dup2Law 0 0 := by
  constructor
  · intro h
    obtain ⟨-, -, hfree | ⟨hopen, -⟩⟩ := meets_of_dup2Law fits_twoOpen (by decide) h
    · cases hfree
    · have := hopen 2 (by decide) (by decide)
      cases this
  · intro h
    exact (meets_of_dup2Law fits_twoOpen le_rfl h).1 rfl

/-! ## Inheriting -/

/-- The table that `Process::Fork` leaves the child with. Its constructor opens the standard
streams, and the loop goes through the descriptors of the parent in the order of the map. -/
def forkTable (order : List (ℤ × FileDescriptor)) (ttyNode nextObject : ℕ) :
    FileDescriptorTable FileDescriptor :=
  order.foldl (fun child e => (child.insert e.2 (wrap32 e.1)).2)
    (empty.openStdioStreams ttyNode nextObject).1

/-- The descriptors of a table in some order. -/
def Lists (t : FileDescriptorTable δ) (order : List (ℤ × δ)) : Prop :=
  order.Perm (t.table.entries.map fun e => (e.1, e.2))

/-- Two tables have the same open numbers, with the same descriptions. -/
def SameDescriptors (t child : FileDescriptorTable δ) : Prop :=
  ∀ n, child.getFd n = t.getFd n

/-- A number that is open keeps its descriptor until the counter comes to it. -/
theorem getFd_foldl_insert {order : List (ℤ × δ)} {child : FileDescriptorTable δ} {c n : ℤ}
    {d : δ} (hnext : child.nextIndex = wrap32 c) (hopen : child.getFd n = some d)
    (hcounter : ∀ j : ℕ, j < order.length → wrap32 (c + j) ≠ n) :
    (order.foldl (fun child e => (child.insert e.2 (wrap32 e.1)).2) child).getFd n = some d := by
  induction order generalizing child c with
  | nil => exact hopen
  | cons e order ih =>
    have hne : n ≠ child.pick (wrap32 e.1) := by
      rw [pick]
      split
      · rintro rfl
        rename_i hfree
        rw [isValid_of_getFd hopen] at hfree
        cases hfree.2
      · have := hcounter 0 (by simp)
        rw [show c + ((0 : ℕ) : ℤ) = c by omega] at this
        rw [hnext]
        exact this.symm
    refine ih (c := c + 1) ?_ ?_ fun j hj => ?_
    · simp only [insert, hnext, wrap32]
      exact Int.bmod_add_bmod ..
    · rw [getFd_insert_of_ne _ _ hne, hopen]
    · have := hcounter (j + 1) (by simpa using hj)
      rwa [show c + ((j + 1 : ℕ) : ℤ) = c + 1 + j by push_cast; omega] at this

/-- The standard input of the child is its own, up to a number of descriptors that makes the counter
come around. -/
theorem getFd_forkTable_zero {order : List (ℤ × FileDescriptor)}
    (hlen : order.length < 2 ^ 32 - 6) (ttyNode nextObject : ℕ) :
    (forkTable order ttyNode nextObject).getFd 0 = some (.create nextObject ttyNode 0 .read) := by
  have hstd := getFd_openStdioStreams ttyNode nextObject 0
  refine getFd_foldl_insert (c := 6) rfl hstd fun j hj => ?_
  rw [wrap32, Int.bmod]
  split <;> omega

/-- A child never has the descriptors of its parent: its standard input is a new object. -/
theorem not_sameDescriptors_fork {t : FileDescriptorTable FileDescriptor}
    (hsize : t.table.entries.length < 2 ^ 32 - 6) {order : List (ℤ × FileDescriptor)}
    (horder : t.Lists order) (ttyNode : ℕ) {nextObject : ℕ}
    (hnew : ∀ n d, t.getFd n = some d → d.object < nextObject) :
    ¬t.SameDescriptors (forkTable order ttyNode nextObject) := by
  intro h
  have hlen : order.length = t.table.entries.length := by
    rw [horder.length_eq, List.length_map]
  have hzero := (h 0).symm.trans (getFd_forkTable_zero (by rwa [hlen]) ttyNode nextObject)
  have := hnew 0 _ hzero
  simp [FileDescriptor.create] at this

/-- A parent with the standard streams has six descriptors for its child. -/
def standardParent : FileDescriptorTable FileDescriptor := (empty.openStdioStreams 0 0).1

/-- Its descriptors, in the order of their numbers. -/
def standardOrder : List (ℤ × FileDescriptor) :=
  [(0, .create 0 0 0 .read), (1, .create 1 0 0 .write), (2, .create 2 0 0 .write)]

theorem lists_standardOrder : standardParent.Lists standardOrder := by
  rw [Lists]
  decide

theorem object_standardParent (n : ℤ) (d : FileDescriptor)
    (h : standardParent.getFd n = some d) : d.object < 3 := by
  rw [standardParent, getFd_openStdioStreams, stdioStream] at h
  split at h
  · cases h
    decide
  · split at h
    · cases h
      decide
    · split at h <;> cases h
      decide

theorem not_sameDescriptors_standardParent :
    ¬standardParent.SameDescriptors (forkTable standardOrder 0 3) :=
  not_sameDescriptors_fork (by decide) lists_standardOrder 0 object_standardParent

/-- The parent's standard input is the child's descriptor 6, a number that the parent has not. -/
theorem not_sameDescriptors_six :
    (forkTable standardOrder 0 3).getFd 6 = some (.create 0 0 0 .read) ∧
      ¬standardParent.SameDescriptors (forkTable standardOrder 0 3) := by
  refine ⟨rfl, fun h => ?_⟩
  have := h 6
  cases this

end Cryptix.VFS.FileDescriptorTable
