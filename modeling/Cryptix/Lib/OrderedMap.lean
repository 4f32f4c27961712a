import Mathlib.Order.Lattice
import Mathlib.Data.List.Basic

/-!
# Ordered maps

A finite map from a linear order, kept as the list of its entries in ascending key order, which is
the order in which a search tree iterates. The order is a field of the structure, so that the
membership lemmas `mem_insert` and `mem_erase` need no side condition.
-/

namespace Cryptix.Lib

variable {K V : Type*} [LinearOrder K]

/-- The keys of the entries ascend strictly. -/
def KeysAscend (l : List (K × V)) : Prop := l.Pairwise fun a b => a.1 < b.1

/-- A finite map, as its entries in ascending key order. -/
structure OrderedMap (K V : Type*) [LinearOrder K] where
  entries : List (K × V)
  ascend : KeysAscend entries

/-- Insertion into an ascending list; an entry with the same key is replaced. -/
def insertEntry (k : K) (v : V) : List (K × V) → List (K × V)
  | [] => [(k, v)]
  | e :: l =>
    if k < e.1 then (k, v) :: e :: l
    else if k = e.1 then (k, v) :: l
    else e :: insertEntry k v l

theorem mem_insertEntry {k : K} {v : V} {l : List (K × V)} (h : KeysAscend l) (a : K) (b : V) :
    (a, b) ∈ insertEntry k v l ↔ (a = k ∧ b = v) ∨ (a ≠ k ∧ (a, b) ∈ l) := by
  induction l with
  | nil => simp [insertEntry]
  | cons e l ih =>
    obtain ⟨hhead, htail⟩ := List.pairwise_cons.mp h
    rw [insertEntry]
    split
    · rename_i hlt
      -- every key of the list is above `k`
      have hne : (a, b) ∈ e :: l → a ≠ k := by
        rintro hmem rfl
        rcases List.mem_cons.mp hmem with rfl | hmem
        · exact lt_irrefl _ hlt
        · exact lt_asymm hlt (hhead _ hmem)
      rw [List.mem_cons, Prod.mk.injEq]
      exact or_congr_right ⟨fun hmem => ⟨hne hmem, hmem⟩, And.right⟩
    · split
      · rename_i heq
        have hne : (a, b) ∈ l → a ≠ k := by
          rintro hmem rfl
          exact (hhead _ hmem).ne heq.symm
        rw [List.mem_cons, Prod.mk.injEq]
        refine or_congr_right ⟨fun hmem => ⟨hne hmem, List.mem_cons_of_mem _ hmem⟩, ?_⟩
        rintro ⟨hak, hmem⟩
        rcases List.mem_cons.mp hmem with rfl | hmem
        · exact absurd heq.symm hak
        · exact hmem
      · rename_i hlt hne
        rw [List.mem_cons, List.mem_cons, ih htail]
        constructor
        · rintro (rfl | ⟨rfl, rfl⟩ | ⟨hak, hmem⟩)
          · exact .inr ⟨Ne.symm hne, .inl rfl⟩
          · exact .inl ⟨rfl, rfl⟩
          · exact .inr ⟨hak, .inr hmem⟩
        · rintro (⟨rfl, rfl⟩ | ⟨hak, rfl | hmem⟩)
          · exact .inr (.inl ⟨rfl, rfl⟩)
          · exact .inl rfl
          · exact .inr (.inr ⟨hak, hmem⟩)

theorem keysAscend_insertEntry {l : List (K × V)} (h : KeysAscend l) (k : K) (v : V) :
    KeysAscend (insertEntry k v l) := by
  induction l with
  | nil => exact List.pairwise_singleton _ _
  | cons e l ih =>
    obtain ⟨hhead, htail⟩ := List.pairwise_cons.mp h
    rw [insertEntry]
    split
    · rename_i hlt
      refine List.pairwise_cons.mpr ⟨fun e' he' => ?_, h⟩
      rcases List.mem_cons.mp he' with rfl | he'
      · exact hlt
      · exact lt_trans hlt (hhead _ he')
    · split
      · rename_i heq
        exact List.pairwise_cons.mpr ⟨fun e' he' => heq ▸ hhead e' he', htail⟩
      · rename_i hlt hne
        refine List.pairwise_cons.mpr ⟨fun e' he' => ?_, ih htail⟩
        rcases (mem_insertEntry htail e'.1 e'.2).mp he' with ⟨hk, -⟩ | ⟨-, hmem⟩
        · rw [hk]
          exact lt_of_le_of_ne (not_lt.mp hlt) (Ne.symm hne)
        · exact hhead _ hmem

theorem KeysAscend.value_unique {l : List (K × V)} (h : KeysAscend l) {k : K} {v v' : V}
    (hv : (k, v) ∈ l) (hv' : (k, v') ∈ l) : v = v' := by
  induction l with
  | nil => exact absurd hv List.not_mem_nil
  | cons e l ih =>
    obtain ⟨hhead, htail⟩ := List.pairwise_cons.mp h
    rcases List.mem_cons.mp hv with rfl | hmem <;> rcases List.mem_cons.mp hv' with heq | hmem'
    · exact (Prod.mk.inj heq).2.symm
    · exact absurd (hhead _ hmem') (lt_irrefl _)
    · subst heq
      exact absurd (hhead _ hmem) (lt_irrefl _)
    · exact ih htail hmem hmem'

namespace OrderedMap

/-- The map without entries. -/
def empty : OrderedMap K V := ⟨[], List.Pairwise.nil⟩

instance : Membership (K × V) (OrderedMap K V) := ⟨fun m e => e ∈ m.entries⟩

theorem mem_def {m : OrderedMap K V} {e : K × V} : e ∈ m ↔ e ∈ m.entries := Iff.rfl

@[simp] theorem not_mem_empty (e : K × V) : e ∉ (empty : OrderedMap K V) :=
  List.not_mem_nil

/-- The value stored under a key. -/
def lookup (m : OrderedMap K V) (k : K) : Option V :=
  (m.entries.find? fun e => e.1 = k).map Prod.snd

/-- Store a value under a key, in place of the one stored there. -/
def insert (m : OrderedMap K V) (k : K) (v : V) : OrderedMap K V :=
  ⟨insertEntry k v m.entries, keysAscend_insertEntry m.ascend k v⟩

/-- Remove a key. -/
def erase (m : OrderedMap K V) (k : K) : OrderedMap K V :=
  ⟨m.entries.filter fun e => e.1 ≠ k, m.ascend.filter _⟩

theorem mem_insert {m : OrderedMap K V} {k a : K} {v b : V} :
    (a, b) ∈ m.insert k v ↔ (a = k ∧ b = v) ∨ (a ≠ k ∧ (a, b) ∈ m) :=
  mem_insertEntry m.ascend a b

theorem mem_erase {m : OrderedMap K V} {k a : K} {b : V} :
    (a, b) ∈ m.erase k ↔ a ≠ k ∧ (a, b) ∈ m := by
  rw [mem_def, erase, List.mem_filter, decide_eq_true_iff, and_comm]
  rfl

/-- A key has one value. -/
theorem value_unique {m : OrderedMap K V} {k : K} {v v' : V} (h : (k, v) ∈ m)
    (h' : (k, v') ∈ m) : v = v' :=
  m.ascend.value_unique h h'

theorem lookup_eq_some {m : OrderedMap K V} {k : K} {v : V} :
    m.lookup k = some v ↔ (k, v) ∈ m := by
  rw [lookup, Option.map_eq_some_iff]
  constructor
  · rintro ⟨⟨k', v'⟩, hfind, rfl⟩
    obtain rfl : k' = k := by simpa using List.find?_some hfind
    exact List.mem_of_find?_eq_some hfind
  · intro hmem
    have hsome : (m.entries.find? fun e => decide (e.1 = k)).isSome :=
      List.find?_isSome.mpr ⟨(k, v), hmem, by simp⟩
    obtain ⟨⟨k', v'⟩, hfind⟩ := Option.isSome_iff_exists.mp hsome
    obtain rfl : k' = k := by simpa using List.find?_some hfind
    exact ⟨_, hfind, value_unique (List.mem_of_find?_eq_some hfind) hmem⟩

theorem lookup_insert (m : OrderedMap K V) (k a : K) (v : V) :
    (m.insert k v).lookup a = if a = k then some v else m.lookup a := by
  split
  · rename_i h
    exact lookup_eq_some.mpr (mem_insert.mpr (.inl ⟨h, rfl⟩))
  · rename_i h
    apply Option.ext
    intro b
    rw [lookup_eq_some, lookup_eq_some, mem_insert]
    simp [h]

theorem lookup_erase_self (m : OrderedMap K V) (k : K) : (m.erase k).lookup k = none := by
  rw [Option.eq_none_iff_forall_ne_some]
  intro v hv
  exact (mem_erase.mp (lookup_eq_some.mp hv)).1 rfl

theorem lookup_erase_of_ne {m : OrderedMap K V} {k a : K} (h : a ≠ k) :
    (m.erase k).lookup a = m.lookup a := by
  apply Option.ext
  intro b
  rw [lookup_eq_some, lookup_eq_some, mem_erase]
  simp [h]

end OrderedMap

end Cryptix.Lib
