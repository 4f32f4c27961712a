import Mathlib.Algebra.Order.Ring.Nat
import Mathlib.Data.List.Basic

/-!
# Records one after the other

Records of different widths, each of which says how wide it is, tile an interval. `read` is the
record at an offset, and `fits` what a record must be like to stand there. Where the records are
read alike, the tiles are the same (`Tiles.congr`), so that a write within a few of them leaves
those before and behind it.
-/

namespace Cryptix.Lib

variable {α : Type*}

/-- The records from `offset` to `stop`. -/
inductive Tiles (read : ℕ → α) (width : α → ℕ) (fits : ℕ → α → Prop) : ℕ → ℕ → List α → Prop
  | nil (stop : ℕ) : Tiles read width fits stop stop []
  | cons {offset stop : ℕ} {l : List α} (hpos : 0 < width (read offset))
      (hfits : fits offset (read offset))
      (hrest : Tiles read width fits (offset + width (read offset)) stop l) :
      Tiles read width fits offset stop (read offset :: l)

namespace Tiles

variable {read read' : ℕ → α} {width : α → ℕ} {fits : ℕ → α → Prop} {offset stop : ℕ}
  {l l₁ l₂ : List α} {r : α}

theorem le (h : Tiles read width fits offset stop l) : offset ≤ stop := by
  induction h with
  | nil => exact le_rfl
  | cons hpos hfits hrest ih => omega

theorem eq_of_nil (h : Tiles read width fits offset stop []) : offset = stop := by
  cases h
  rfl

theorem cons_iff : Tiles read width fits offset stop (r :: l) ↔
    read offset = r ∧ 0 < width r ∧ fits offset r ∧
      Tiles read width fits (offset + width r) stop l := by
  constructor
  · intro h
    cases h with
    | cons hpos hfits hrest => exact ⟨rfl, hpos, hfits, hrest⟩
  · rintro ⟨rfl, hpos, hfits, hrest⟩
    exact .cons hpos hfits hrest

/-- The first records end where the others begin. -/
theorem append_iff : Tiles read width fits offset stop (l₁ ++ l₂) ↔
    ∃ middle, Tiles read width fits offset middle l₁ ∧ Tiles read width fits middle stop l₂ := by
  induction l₁ generalizing offset with
  | nil =>
    constructor
    · exact fun h => ⟨offset, .nil offset, h⟩
    · rintro ⟨middle, hnil, h⟩
      rwa [hnil.eq_of_nil]
  | cons r l₁ ih =>
    simp only [List.cons_append, cons_iff, ih]
    constructor
    · rintro ⟨hread, hpos, hfits, middle, hfirst, hlast⟩
      exact ⟨middle, ⟨hread, hpos, hfits, hfirst⟩, hlast⟩
    · rintro ⟨middle, ⟨hread, hpos, hfits, hfirst⟩, hlast⟩
      exact ⟨hread, hpos, hfits, middle, hfirst, hlast⟩

/-- The end of a list of records. -/
theorem stop_eq (h : Tiles read width fits offset stop l) :
    stop = offset + (l.map width).sum := by
  induction h with
  | nil => rfl
  | cons hpos hfits hrest ih => rw [ih, List.map_cons, List.sum_cons, Nat.add_assoc]

theorem length_le (h : Tiles read width fits offset stop l) : offset + l.length ≤ stop := by
  induction h with
  | nil => exact le_rfl
  | cons hpos hfits hrest ih =>
    rw [List.length_cons]
    omega

theorem stop_le {limit : ℕ} (h : Tiles read width fits offset stop l) (hoffset : offset ≤ limit)
    (hfits : ∀ o, fits o (read o) → o + width (read o) ≤ limit) : stop ≤ limit := by
  induction h with
  | nil => exact hoffset
  | cons hpos hfit hrest ih => exact ih (hfits _ hfit)

theorem exists_read (h : Tiles read width fits offset stop l) (hr : r ∈ l) :
    ∃ o, read o = r := by
  induction h with
  | nil => exact absurd hr List.not_mem_nil
  | cons hpos hfits hrest ih =>
    rcases List.mem_cons.mp hr with rfl | hr
    · exact ⟨_, rfl⟩
    · exact ih hr

/-- Records that are read alike tile alike. -/
theorem congr (h : Tiles read width fits offset stop l)
    (hread : ∀ o, offset ≤ o → fits o (read o) → o + width (read o) ≤ stop →
      read' o = read o) : Tiles read' width fits offset stop l := by
  induction h with
  | nil => exact .nil _
  | cons hpos hfits hrest ih =>
    have hsame := hread _ le_rfl hfits hrest.le
    rw [← hsame] at hpos hfits ⊢
    refine .cons hpos hfits ?_
    rw [hsame]
    exact ih fun o ho => hread o (by omega)

/-- The records of an interval go on where those of a shorter one end. -/
theorem exists_append {middle : ℕ} (h₁ : Tiles read width fits offset middle l₁)
    (h : Tiles read width fits offset stop l) (hle : middle ≤ stop) :
    ∃ l₂, l = l₁ ++ l₂ ∧ Tiles read width fits middle stop l₂ := by
  induction h₁ generalizing l with
  | nil => exact ⟨l, rfl, h⟩
  | cons hpos hfits hrest ih =>
    have hmiddle := hrest.le
    cases h with
    | nil => omega
    | cons hpos' hfits' hrest' =>
      obtain ⟨l₂, rfl, htail⟩ := ih hrest' hle
      exact ⟨l₂, rfl, htail⟩

/-- An interval is tiled in one way. -/
theorem unique (h₁ : Tiles read width fits offset stop l₁)
    (h₂ : Tiles read width fits offset stop l₂) : l₁ = l₂ := by
  obtain ⟨l, rfl, hrest⟩ := h₁.exists_append h₂ le_rfl
  have hlength := hrest.length_le
  rw [List.length_eq_zero_iff.mp (by omega : l.length = 0), List.append_nil]

theorem imp {fits' : ℕ → α → Prop} (h : Tiles read width fits offset stop l)
    (himp : ∀ o, fits o (read o) → fits' o (read o)) : Tiles read width fits' offset stop l := by
  induction h with
  | nil => exact .nil _
  | cons hpos hfits hrest ih => exact .cons hpos (himp _ hfits) ih

theorem congr_width {width' : α → ℕ} (h : Tiles read width fits offset stop l)
    (hwidth : ∀ o, fits o (read o) → width' (read o) = width (read o)) :
    Tiles read width' fits offset stop l := by
  induction h with
  | nil => exact .nil _
  | cons hpos hfits hrest ih =>
    rw [← hwidth _ hfits] at hpos ih
    exact .cons hpos hfits ih

/-- Records of two kinds that both go up to a limit are of both kinds. -/
theorem and_of {fits' : ℕ → α → Prop} {stop' limit : ℕ} {l' : List α}
    (h : Tiles read width fits offset stop l) (h' : Tiles read width fits' offset stop' l')
    (hbefore : ∀ o, fits o (read o) → o < limit) (hstop : limit ≤ stop)
    (hstop' : limit ≤ stop') :
    Tiles read width (fun o r => fits o r ∧ fits' o r) offset stop l := by
  induction h generalizing l' with
  | nil => exact .nil _
  | cons hpos hfits hrest ih =>
    cases h' with
    | nil => exact absurd (hbefore _ hfits) (Nat.not_lt.mpr hstop')
    | cons hpos' hfits' hrest' => exact .cons hpos ⟨hfits, hfits'⟩ (ih hrest' hstop)

/-- The records that a loop goes through until it is behind a limit. `runs n o` stands for a run of
`n` turns at most that begins at `o`. -/
theorem exists_of_runs (runs : ℕ → ℕ → Prop) {limit : ℕ}
    (hturn : ∀ n o, runs n o → o < limit →
      fits o (read o) ∧ ∃ m < n, runs m (o + width (read o))) {n : ℕ} (h : runs n offset) :
    ∃ stop l, limit ≤ stop ∧ Tiles read width fits offset stop l := by
  induction n using Nat.strong_induction_on generalizing offset with
  | h n ih =>
    by_cases hlt : offset < limit
    · obtain ⟨hfits, m, hm, hnext⟩ := hturn n offset h hlt
      obtain ⟨stop, l, hstop, htiles⟩ := ih m hm hnext
      by_cases hpos : 0 < width (read offset)
      · exact ⟨stop, _, hstop, .cons hpos hfits htiles⟩
      · -- the same record again, with less turns
        rw [Nat.eq_zero_of_not_pos hpos, Nat.add_zero] at htiles
        exact ⟨stop, l, hstop, htiles⟩
    · exact ⟨offset, [], Nat.le_of_not_lt hlt, .nil offset⟩

end Tiles

end Cryptix.Lib
