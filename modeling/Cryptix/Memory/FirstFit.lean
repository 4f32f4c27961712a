import Cryptix.Memory.AddressSpace

/-!
# Where `AllocateRegion` places a region

`AllocateRegion` tries the base of `m_TotalRange` first and then the end of every region, each
rounded up to the alignment, and takes the first of these places that ends before the next region
and that `IsAvailable` accepts. After the last region nothing but `IsAvailable` bounds it.

So it returns the least gap from where its search really starts. That is the base of the range only
if the new region fits between there and the first region of the tree. Otherwise it is the end of
the first region, which lies below the range when the tree holds a program image. Nor does the
search look at the end of the range.
-/

namespace Cryptix.Memory

open Prism Lib

/-- `AddressRange`, one that ends below the top of the address space. -/
structure AddressRange where
  base : ℕ
  size : ℕ
  top_lt : base + size < wordCount

namespace AddressSpace

/-- The regions lie one after the other in tree order and end below the top. -/
structure Ordered (s : AddressSpace) : Prop where
  apart : s.regions.Pairwise fun r r' => r.virtualBase + r.size ≤ r'.virtualBase
  fits : ∀ r ∈ s.regions, r.Fits

/-- Disjoint regions that hold at least one byte are in order. -/
theorem Inv.ordered {s : AddressSpace} (h : s.Inv) (hpos : ∀ r ∈ s.regions, 0 < r.size) :
    s.Ordered := by
  refine ⟨?_, fun r hr => ?_⟩
  · rw [regions, List.pairwise_map]
    refine List.Pairwise.imp_of_mem ?_ s.regionTree.ascend
    intro p q hp hq hlt
    have hkey := h.own_key p.1 p.2 hp
    have hkey' := h.own_key q.1 q.2 hq
    have hdisj := h.disjoint p.1 p.2 q.1 q.2 hp hq hlt.ne
    have hsize := hpos q.2 (mem_regions.mpr ⟨q.1, hq⟩)
    have hin : q.2.virtualBase ∈ q.2.range := by
      simp only [Region.range, Set.mem_Ico]
      omega
    have hout := Set.disjoint_right.mp hdisj hin
    simp only [Region.range, Set.mem_Ico] at hout
    omega
  · obtain ⟨k, hk⟩ := mem_regions.mp hr
    exact h.fits k r hk

/-- An aligned stretch of `length` bytes at `base` that holds no region. -/
structure Gap (s : AddressSpace) (length alignment base : ℕ) : Prop where
  aligned : alignment ∣ base
  below : base + length < wordCount
  free : ∀ r ∈ s.regions, base + length ≤ r.virtualBase ∨ r.virtualBase + r.size ≤ base

/-- `IsAvailable` decides whether a stretch that ends below the top is free. -/
theorem Ordered.isAvailable_iff {s : AddressSpace} (h : s.Ordered) {base length : ℕ}
    (hfit : base + length < wordCount) :
    s.isAvailable base length = true ↔
      ∀ r ∈ s.regions, base + length ≤ r.virtualBase ∨ r.virtualBase + r.size ≤ base := by
  rw [isAvailable, List.all_eq_true]
  refine forall₂_congr fun r hr => ?_
  rw [offset_of_lt hfit, (h.fits r hr).endAddress_eq, Bool.or_eq_true, decide_eq_true_iff,
    decide_eq_true_iff]

/-! ## The places tried -/

/-- The places the search tries from the cursor `current`: each rounded up, with the region it has
to end before. -/
def places (alignment : ℕ) : List Region → (current : ℕ) → List (ℕ × Option Region)
  | [], current => [(alignUp current alignment, none)]
  | region :: rest, current =>
    (alignUp current alignment, some region) :: places alignment rest region.endAddress

/-- The places `AllocateRegion` tries. -/
def tried (s : AddressSpace) (alignment : ℕ) : List (ℕ × Option Region) :=
  places alignment s.regions (alignUp s.totalBase alignment)

/-- The test of `AllocateRegion` at a place. -/
def admits (s : AddressSpace) (length : ℕ) (place : ℕ × Option Region) : Bool :=
  place.2.all (fun region => offset place.1 length ≤ region.virtualBase) &&
    s.isAvailable place.1 length

/-- The search returns the first place that passes the test. -/
theorem firstFit_eq (s : AddressSpace) (length alignment : ℕ) (rest : List Region) (current : ℕ) :
    s.firstFit length alignment rest current =
      ((places alignment rest current).find? (s.admits length)).map Prod.fst := by
  induction rest generalizing current with
  | nil =>
    rw [firstFit, places, List.find?_singleton]
    dsimp only [admits]
    split <;> rename_i h <;> simp [h]
  | cons region rest ih =>
    rw [firstFit, places, List.find?_cons]
    dsimp only [admits]
    split <;> rename_i h
    · simp [h.1, h.2]
    · have htest : (decide (offset (alignUp current alignment) length ≤ region.virtualBase) &&
          s.isAvailable (alignUp current alignment) length) = false := by
        rw [Bool.eq_false_iff, Ne, Bool.and_eq_true, decide_eq_true_iff]
        exact h
      rw [Option.all_some, htest]
      exact ih _

theorem chooseBase_eq (s : AddressSpace) (length alignment : ℕ) :
    s.chooseBase length alignment =
      ((s.tried alignment).find? (s.admits length)).map Prod.fst :=
  firstFit_eq s length alignment _ _

/-- Nothing is chosen exactly when every place fails the test. -/
theorem chooseBase_eq_none_iff (s : AddressSpace) (length alignment : ℕ) :
    s.chooseBase length alignment = none ↔
      ∀ place ∈ s.tried alignment, s.admits length place = false := by
  rw [chooseBase_eq, Option.map_eq_none_iff, List.find?_eq_none]
  simp only [Bool.not_eq_true]

/-! ## The least gap -/

variable {s : AddressSpace} {length alignment : ℕ}

theorem roundUp_le {n base : ℕ} (hpos : 0 < alignment) (hdvd : alignment ∣ base) (hle : n ≤ base) :
    roundUp n alignment ≤ base := by
  obtain ⟨m, rfl⟩ := hdvd
  have hdiv : (n + alignment - 1) / alignment ≤ m := by
    rw [Nat.div_le_iff_le_mul_add_pred hpos]
    omega
  rw [roundUp, divRoundUp, Nat.mul_comm]
  exact Nat.mul_le_mul_left alignment hdiv

/-- A cursor at or below a gap is rounded up to a place at or below it. -/
theorem Gap.alignUp_eq {n base : ℕ} (hpos : 0 < alignment) (h : s.Gap length alignment base)
    (hle : n ≤ base) : alignUp n alignment = roundUp n alignment := by
  have hround := roundUp_le hpos h.aligned hle
  have hbelow := h.below
  exact Nat.mod_eq_of_lt (by omega)

/-- The search from a cursor that no region reaches beyond returns the least gap from there. The
induction carries that the regions left begin at or after the cursor. -/
theorem Ordered.firstFit_of_gap (h : s.Ordered) (hpos : 0 < alignment) {rest : List Region}
    {current : ℕ} (hrest : rest.Pairwise fun r r' => r.virtualBase + r.size ≤ r'.virtualBase)
    (hfits : ∀ r ∈ rest, r.Fits)
    (hafter : ∀ r ∈ rest, current ≤ r.virtualBase)
    (hbefore : ∀ r ∈ s.regions, r ∈ rest ∨ r.virtualBase + r.size ≤ current)
    (hmem : ∀ r ∈ rest, r ∈ s.regions)
    (hgap : ∃ base, s.Gap length alignment base ∧ current ≤ base) :
    ∃ base, s.firstFit length alignment rest current = some base ∧
      s.Gap length alignment base ∧ current ≤ base ∧
      ∀ b, s.Gap length alignment b → current ≤ b → base ≤ b := by
  induction rest generalizing current with
  | nil =>
    obtain ⟨b, hb, hle⟩ := hgap
    have halign := hb.alignUp_eq hpos hle
    have hround := roundUp_le hpos hb.aligned hle
    have hself := le_roundUp hpos current
    have hbelow := hb.below
    have hplace : s.Gap length alignment (roundUp current alignment) :=
      ⟨Nat.dvd_mul_left _ _, by omega, fun r hr =>
        .inr (((hbefore r hr).resolve_left (by simp)).trans hself)⟩
    refine ⟨roundUp current alignment, ?_, hplace, hself, fun b' hb' hle' =>
      roundUp_le hpos hb'.aligned hle'⟩
    rw [firstFit, halign, if_pos ((h.isAvailable_iff hplace.below).mpr hplace.free)]
  | cons r rest ih =>
    obtain ⟨b, hb, hle⟩ := hgap
    have halign := hb.alignUp_eq hpos hle
    have hround := roundUp_le hpos hb.aligned hle
    have hself := le_roundUp hpos current
    have hbelow := hb.below
    have hafter' := hafter r List.mem_cons_self
    rw [List.pairwise_cons] at hrest
    have hend : r.endAddress = r.virtualBase + r.size :=
      (hfits r List.mem_cons_self).endAddress_eq
    have hoffset : offset (roundUp current alignment) length =
        roundUp current alignment + length := offset_of_lt (by omega)
    rw [firstFit, halign, hoffset]
    by_cases hfit : roundUp current alignment + length ≤ r.virtualBase
    · have hplace : s.Gap length alignment (roundUp current alignment) := by
        refine ⟨Nat.dvd_mul_left _ _, by omega, fun q hq => ?_⟩
        rcases hbefore q hq with hq | hq
        · rcases List.mem_cons.mp hq with rfl | hq
          · exact .inl hfit
          · have := hrest.1 q hq
            exact .inl (by omega)
        · exact .inr (hq.trans hself)
      rw [if_pos ⟨hfit, (h.isAvailable_iff hplace.below).mpr hplace.free⟩]
      exact ⟨_, rfl, hplace, hself, fun b' hb' hle' => roundUp_le hpos hb'.aligned hle'⟩
    · rw [if_neg (fun hand => hfit hand.1), hend]
      -- a gap from the cursor on cannot end before this region, so it begins after it
      have hskip : ∀ b', s.Gap length alignment b' → current ≤ b' →
          r.virtualBase + r.size ≤ b' := by
        intro b' hb' hle'
        have hround' := roundUp_le hpos hb'.aligned hle'
        exact (hb'.free r (hmem r List.mem_cons_self)).resolve_left (by omega)
      obtain ⟨base, hfound, hplace, hbase, hleast⟩ := ih hrest.2
        (fun q hq => hfits q (List.mem_cons_of_mem _ hq)) hrest.1
        (fun q hq => by
          rcases hbefore q hq with hq | hq
          · rcases List.mem_cons.mp hq with rfl | hq
            · exact .inr le_rfl
            · exact .inl hq
          · exact .inr (by omega))
        (fun q hq => hmem q (List.mem_cons_of_mem _ hq)) ⟨b, hb, hskip b hb hle⟩
      exact ⟨base, hfound, hplace, by omega,
        fun b' hb' hle' => hleast b' hb' (hskip b' hb' hle')⟩

/-- Where the search of `AllocateRegion` really starts: at the rounded base of the range if the new
region fits between it and the first region of the tree, else at the end of the first region. -/
def searchStart (s : AddressSpace) (length alignment : ℕ) : ℕ :=
  match s.regions with
  | [] => roundUp s.totalBase alignment
  | first :: _ =>
    if roundUp s.totalBase alignment + length ≤ first.virtualBase then
      roundUp s.totalBase alignment
    else first.virtualBase + first.size

/-- When the rounded base leaves room for the region below the top and some gap begins where the
search starts or later, `AllocateRegion` takes the least such gap. -/
theorem Ordered.chooseBase_of_gap (h : s.Ordered) (hpos : 0 < alignment)
    (hroom : roundUp s.totalBase alignment + length < wordCount)
    (hgap : ∃ base, s.Gap length alignment base ∧ s.searchStart length alignment ≤ base) :
    ∃ base, s.chooseBase length alignment = some base ∧ s.Gap length alignment base ∧
      s.searchStart length alignment ≤ base ∧
      ∀ b, s.Gap length alignment b → s.searchStart length alignment ≤ b → base ≤ b := by
  have hbase : alignUp s.totalBase alignment = roundUp s.totalBase alignment :=
    Nat.mod_eq_of_lt (by omega)
  have hapart := h.apart
  have hfits := h.fits
  rw [chooseBase, hbase]
  unfold searchStart at hgap ⊢
  cases hregions : s.regions with
  | nil =>
    rw [hregions] at hgap
    exact h.firstFit_of_gap hpos List.Pairwise.nil (by simp) (by simp) (by simp [hregions])
      (by simp) hgap
  | cons first rest =>
    rw [hregions] at hgap hapart hfits
    have hmem : ∀ r ∈ first :: rest, r ∈ s.regions := fun r hr => hregions ▸ hr
    dsimp only at hgap ⊢
    by_cases hfit : roundUp s.totalBase alignment + length ≤ first.virtualBase
    · rw [if_pos hfit] at hgap ⊢
      refine h.firstFit_of_gap hpos hapart hfits (fun r hr => ?_)
        (fun r hr => .inl (hregions ▸ hr)) hmem hgap
      rcases List.mem_cons.mp hr with rfl | hr
      · omega
      · have := (List.pairwise_cons.mp hapart).1 r hr
        omega
    · rw [if_neg hfit] at hgap ⊢
      have halign : alignUp (roundUp s.totalBase alignment) alignment =
          roundUp s.totalBase alignment := by
        have hle : roundUp (roundUp s.totalBase alignment) alignment ≤
            roundUp s.totalBase alignment := roundUp_le hpos (Nat.dvd_mul_left _ _) le_rfl
        have hge := le_roundUp hpos (roundUp s.totalBase alignment)
        rw [alignUp, Nat.le_antisymm hle hge]
        exact Nat.mod_eq_of_lt (by omega)
      rw [firstFit, halign, offset_of_lt hroom, if_neg (fun hand => hfit hand.1),
        (hfits first List.mem_cons_self).endAddress_eq]
      rw [List.pairwise_cons] at hapart
      refine h.firstFit_of_gap hpos hapart.2 (fun r hr => hfits r (List.mem_cons_of_mem _ hr))
        hapart.1 (fun r hr => ?_) (fun r hr => hmem r (List.mem_cons_of_mem _ hr)) hgap
      rw [hregions] at hr
      rcases List.mem_cons.mp hr with rfl | hr
      · exact .inr le_rfl
      · exact .inl hr

/-! ## Regions inside the total range -/

/-- An aligned gap inside a range. -/
def GapInside (s : AddressSpace) (range : AddressRange) (length alignment base : ℕ) : Prop :=
  s.Gap length alignment base ∧ range.base ≤ base ∧ base + length ≤ range.base + range.size

/-- What `AllocateRegion` should do: return an aligned region inside the range, and null only when
the range has no aligned gap. -/
structure AllocatesInside (s : AddressSpace) (range : AddressRange) (length alignment : ℕ) :
    Prop where
  inside : ∀ r, (s.allocateRegion length alignment).1 = some r →
    r.size = length ∧ alignment ∣ r.virtualBase ∧ range.base ≤ r.virtualBase ∧
      r.virtualBase + r.size ≤ range.base + range.size
  null : (s.allocateRegion length alignment).1 = none →
    ¬∃ base, s.GapInside range length alignment base

theorem allocatesInside_iff_chooseBase {range : AddressRange} (hdvd : alignment ∣ wordCount) :
    s.AllocatesInside range length alignment ↔
      (∀ base, s.chooseBase length alignment = some base →
        range.base ≤ base ∧ base + length ≤ range.base + range.size) ∧
      (s.chooseBase length alignment = none →
        ¬∃ base, s.GapInside range length alignment base) := by
  have hregion : (s.allocateRegion length alignment).1 =
      (s.chooseBase length alignment).map fun base => { virtualBase := base, size := length } := by
    rw [allocateRegion]
    split <;> rename_i heq <;> rw [heq] <;> rfl
  constructor
  · intro h
    refine ⟨fun base hbase => ?_, fun hnone => h.null (by rw [hregion, hnone]; rfl)⟩
    exact (h.inside { virtualBase := base, size := length } (by rw [hregion, hbase]; rfl)).2.2
  · rintro ⟨hinside, hnull⟩
    refine ⟨fun r hr => ?_, fun hnone => hnull (by simpa [hregion] using hnone)⟩
    rw [hregion, Option.map_eq_some_iff] at hr
    obtain ⟨base, hbase, rfl⟩ := hr
    exact ⟨rfl, dvd_of_firstFit (Nat.dvd_refl _) hdvd _ _ hbase, hinside base hbase⟩

/-- `AllocateRegion` returns an aligned region inside the range, and null only when the range has
no aligned gap, in exactly two cases: the range has such a gap and none begins between the start of
the search and the base of the range; or the range has none, and every place tried is rejected. -/
theorem allocatesInside_iff {range : AddressRange} (h : s.Ordered)
    (hbase : s.totalBase = range.base) (k : ℕ) (hk : k < 64) :
    s.AllocatesInside range length (2 ^ k) ↔
      ((∃ base, s.GapInside range length (2 ^ k) base) ∧
        ∀ base, s.Gap length (2 ^ k) base → s.searchStart length (2 ^ k) ≤ base →
          range.base ≤ base) ∨
      ((¬∃ base, s.GapInside range length (2 ^ k) base) ∧
        ∀ place ∈ s.tried (2 ^ k), s.admits length place = false) := by
  have hpos : 0 < 2 ^ k := Nat.pow_pos (by decide)
  have hdvd : 2 ^ k ∣ wordCount := Nat.pow_dvd_pow 2 (by omega)
  have htop := range.top_lt
  rw [allocatesInside_iff_chooseBase hdvd]
  by_cases hgap : ∃ base, s.GapInside range length (2 ^ k) base
  · obtain ⟨b, hb, hle, hend⟩ := id hgap
    have hround : roundUp s.totalBase (2 ^ k) ≤ b := roundUp_le hpos hb.aligned (hbase ▸ hle)
    have hroom : roundUp s.totalBase (2 ^ k) + length < wordCount := by
      have := hb.below
      omega
    have hstart : s.searchStart length (2 ^ k) ≤ b := by
      unfold searchStart
      split
      · exact hround
      · rename_i first rest hregions
        split
        · exact hround
        · exact (hb.free first (hregions ▸ List.mem_cons_self)).resolve_left (by omega)
    obtain ⟨base, hchosen, hplace, hafter, hleast⟩ := h.chooseBase_of_gap hpos hroom ⟨b, hb, hstart⟩
    have hbound := hleast b hb hstart
    simp only [hchosen, hgap, true_and, not_true_eq_false, false_and, or_false]
    constructor
    · rintro ⟨hinside, -⟩ b' hb' hstart'
      exact (hinside base rfl).1.trans (hleast b' hb' hstart')
    · intro hall
      refine ⟨fun base' heq => ?_, fun hnone => by cases hnone⟩
      obtain rfl := Option.some.inj heq
      exact ⟨hall base hplace hafter, by omega⟩
  · simp only [hgap, false_and, not_false_eq_true, true_and, implies_true, and_true, false_or]
    rw [← chooseBase_eq_none_iff]
    constructor
    · -- a base inside the range would be a gap of the range
      intro hinside
      cases hchosen : s.chooseBase length (2 ^ k) with
      | none => rfl
      | some base =>
        obtain ⟨hle, hend⟩ := hinside base hchosen
        have hbelow : base + length < wordCount := by omega
        have havail := isAvailable_of_firstFit _ _ hchosen
        exact absurd ⟨base, ⟨dvd_of_firstFit (Nat.dvd_refl _) hdvd _ _ hchosen, hbelow,
          (h.isAvailable_iff hbelow).mp havail⟩, hle, hend⟩ hgap
    · intro hnone base hchosen
      rw [hnone] at hchosen
      cases hchosen

/-- A range above the usual place of a program image. -/
def imageRange : AddressRange := ⟨0x100000, 0x10000, by decide⟩

/-- An address space with one region. -/
def withRegion (totalBase : ℕ) (r : Region) : AddressSpace :=
  (withBase totalBase).insert r.virtualBase r

/-- A region inside the range: the next one is placed after it. -/
theorem allocatesInside_after_region :
    (withRegion 0x100000 { virtualBase := 0x100000, size := 0x2000 }).AllocatesInside imageRange
      0x1000 (2 ^ 12) := by
  have hordered : (withRegion 0x100000 { virtualBase := 0x100000, size := 0x2000 }).Ordered :=
    ⟨by decide, by unfold Region.Fits; decide⟩
  refine (allocatesInside_iff hordered rfl 12 (by decide)).mpr (.inl ⟨⟨0x102000, ?_⟩, ?_⟩)
  · exact ⟨⟨by decide, by decide, by decide⟩, by decide, by decide⟩
  · have hfrom : (withRegion 0x100000 { virtualBase := 0x100000, size := 0x2000 }).searchStart
        0x1000 (2 ^ 12) = 0x102000 := by decide
    intro base _ hstart
    rw [hfrom] at hstart
    exact le_trans (by decide) hstart

/-- A program image below the range: the next region is placed right after it, below the range. -/
theorem not_allocatesInside_below_image :
    ((withRegion 0x100000 { virtualBase := 0x1000, size := 0x1000 }).allocateRegion
      0x1000 (2 ^ 12)).1 = some { virtualBase := 0x2000, size := 0x1000 } ∧
    ¬(withRegion 0x100000 { virtualBase := 0x1000, size := 0x1000 }).AllocatesInside imageRange
      0x1000 (2 ^ 12) := by
  refine ⟨by decide, fun h => ?_⟩
  have hinside := (h.inside { virtualBase := 0x2000, size := 0x1000 } (by decide)).2.2.1
  exact absurd hinside (by decide)

end AddressSpace

end Cryptix.Memory
