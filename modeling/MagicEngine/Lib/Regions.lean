import Mathlib.Data.Nat.Basic
import Mathlib.Logic.Function.Basic

/-!
# Regions of an address space

Records of varying size placed in one address space. A `Heap` maps an offset to the record that starts there;
`Heap.write` places a record and destroys whatever else it overlaps, so nothing is assumed about who owns what.

A *layout* is a family of regions, one for each holder (an allocated object, an entry of a free list), that are
pairwise apart and end below a cursor. Three rules build layouts: a region may change hands (`Layout.transfer`),
a holder may take the space behind the cursor (`Layout.extend`), and a write into one region leaves the records in
all others alone (`Layout.write_other`). A *tiling* is a layout without gaps; a list of `Consecutive` regions tiles the
space between its ends.
-/

namespace Regions

structure Region where
  start : Nat
  size : Nat
deriving DecidableEq, Repr

namespace Region

/-- The end of one comes before the start of the other. -/
def Apart (a b : Region) : Prop := a.start + a.size ≤ b.start ∨ b.start + b.size ≤ a.start

instance (a b : Region) : Decidable (Apart a b) := inferInstanceAs (Decidable (_ ∨ _))

theorem Apart.symm {a b : Region} (h : Apart a b) : Apart b a := Or.symm h

def Has (r : Region) (u : Nat) : Prop := r.start ≤ u ∧ u < r.start + r.size

theorem Apart.not_has {a b : Region} (h : Apart a b) {u : Nat} (ha : a.Has u) : ¬b.Has u := by
  rintro ⟨hb, hb'⟩
  obtain ⟨ha, ha'⟩ := ha
  rcases h with h | h <;> omega

theorem apart_of_not_has {a b : Region} (ha : 0 < a.size) (hb : 0 < b.size) (h : ∀ u, a.Has u → ¬b.Has u) :
    Apart a b := by
  have hfirst := h a.start
  have hsecond := h b.start
  unfold Has at hfirst hsecond
  unfold Apart
  omega

theorem Apart.start_ne {a b : Region} (h : Apart a b) (ha : 0 < a.size) (hb : 0 < b.size) : a.start ≠ b.start := by
  rcases h with h | h <;> omega

end Region

open Region (Apart)

abbrev Heap (α : Type) := Nat → Option α

section Heap

variable {α : Type} (size : α → Nat)

/-- Place a record; records it overlaps are destroyed. -/
def Heap.write (h : Heap α) (o : Nat) (a : α) : Heap α := fun o' =>
  if o' = o then some a else (h o').filter fun b => decide (Apart ⟨o', size b⟩ ⟨o, size a⟩)

def Heap.modify (h : Heap α) (o : Nat) (f : α → α) : Heap α := fun o' => if o' = o then (h o).map f else h o'

variable {size}

@[simp]
theorem Heap.write_self (h : Heap α) (o : Nat) (a : α) : h.write size o a o = some a := by
  simp [write]

theorem Heap.write_of_apart {h : Heap α} {o o' : Nat} {a b : α} (hb : h o' = some b) (hne : o' ≠ o)
    (hapart : Apart ⟨o', size b⟩ ⟨o, size a⟩) : h.write size o a o' = some b := by
  simp [write, hne, hb, hapart]

@[simp]
theorem Heap.modify_self (h : Heap α) (o : Nat) (f : α → α) : h.modify o f o = (h o).map f := by
  simp [modify]

theorem Heap.modify_of_ne (h : Heap α) {o o' : Nat} (f : α → α) (hne : o' ≠ o) : h.modify o f o' = h o' := by
  simp [modify, hne]

end Heap

/-- The regions of all holders are nonempty, pairwise apart and end below the cursor. -/
structure Layout {ι : Type} (held : ι → Option Region) (cursor : Nat) : Prop where
  nonempty : ∀ i a, held i = some a → 0 < a.size
  apart : ∀ i j a b, held i = some a → held j = some b → i ≠ j → Apart a b
  below : ∀ i a, held i = some a → a.start + a.size ≤ cursor

namespace Layout

variable {ι : Type} {held held' : ι → Option Region} {cursor : Nat}

section

variable (h : Layout held cursor)

include h

theorem start_ne {i j : ι} {a b : Region} (hi : held i = some a) (hj : held j = some b)
    (hne : i ≠ j) : a.start ≠ b.start :=
  (h.apart i j a b hi hj hne).start_ne (h.nonempty i a hi) (h.nonempty j b hj)

theorem eq_of_start_eq {i j : ι} {a b : Region} (hi : held i = some a)
    (hj : held j = some b) (heq : a.start = b.start) : i = j := by
  by_contra hne
  exact h.start_ne hi hj hne heq

/-- Regions change hands, no two of them into the same one, and some may be given up. -/
theorem transfer (source : ι → ι)
    (hheld : ∀ i a, held' i = some a → held (source i) = some a)
    (hinj : ∀ i j a b, held' i = some a → held' j = some b → i ≠ j → source i ≠ source j) :
    Layout held' cursor where
  nonempty i a hi := h.nonempty _ a (hheld i a hi)
  apart i j a b hi hj hne := h.apart _ _ a b (hheld i a hi) (hheld j b hj) (hinj i j a b hi hj hne)
  below i a hi := h.below _ a (hheld i a hi)

theorem mono {cursor' : Nat} (hle : cursor ≤ cursor') : Layout held cursor' :=
  ⟨h.nonempty, h.apart, fun i a hi => Nat.le_trans (h.below i a hi) hle⟩

/-- A holder without a region takes the space behind the cursor. -/
theorem extend [DecidableEq ι] {i : ι} {size : Nat} (hsize : 0 < size)
    (hheld : ∀ j, held' j = if j = i then some ⟨cursor, size⟩ else held j) : Layout held' (cursor + size) where
  nonempty j a hj := by
    rw [hheld] at hj
    split at hj
    · cases hj
      exact hsize
    · exact h.nonempty j a hj
  apart j k a b hj hk hne := by
    rw [hheld] at hj hk
    split at hj <;> split at hk
    · next hji hki => exact absurd (hji.trans hki.symm) hne
    · cases hj
      exact .inr (h.below k b hk)
    · cases hk
      exact .inl (h.below j a hj)
    · exact h.apart j k a b hj hk hne
  below j a hj := by
    rw [hheld] at hj
    split at hj
    · cases hj
      exact Nat.le_refl _
    · have := h.below j a hj
      omega

theorem write_other {α : Type} {size : α → Nat} {heap : Heap α} {i j : ι} {o o' : Nat}
    {a b : α} (hi : held i = some ⟨o, size a⟩) (hj : held j = some ⟨o', size b⟩) (hne : i ≠ j)
    (hb : heap o' = some b) : heap.write size o a o' = some b :=
  Heap.write_of_apart hb (Ne.symm (h.start_ne hi hj hne)) (h.apart i j _ _ hi hj hne).symm

theorem holder_unique {i j : ι} {a b : Region} {u : Nat} (hi : held i = some a)
    (hj : held j = some b) (ha : a.Has u) (hb : b.Has u) : i = j := by
  by_contra hne
  exact (h.apart i j a b hi hj hne).not_has ha hb

end

theorem of_holder_unique (hnonempty : ∀ i a, held i = some a → 0 < a.size)
    (hunique : ∀ i j a b u, held i = some a → held j = some b → a.Has u → b.Has u → i = j)
    (hbelow : ∀ i a, held i = some a → a.start + a.size ≤ cursor) : Layout held cursor where
  nonempty := hnonempty
  apart i j a b hi hj hne := Region.apart_of_not_has (hnonempty i a hi) (hnonempty j b hj) fun u ha hb =>
    hne (hunique i j a b u hi hj ha hb)
  below := hbelow

end Layout

/-- A layout without gaps: every address below the cursor has a holder. -/
structure Tiling {ι : Type} (held : ι → Option Region) (cursor : Nat) : Prop extends Layout held cursor where
  covered : ∀ u < cursor, ∃ i a, held i = some a ∧ a.Has u

namespace Tiling

variable {ι : Type} {held held' : ι → Option Region} {cursor : Nat}

/-- Regions change hands and none is given up. -/
theorem transfer (h : Tiling held cursor) (hlayout : Layout held' cursor)
    (hkept : ∀ i a, held i = some a → ∃ j, held' j = some a) : Tiling held' cursor where
  toLayout := hlayout
  covered u hu := by
    obtain ⟨i, a, hi, ha⟩ := h.covered u hu
    obtain ⟨j, hj⟩ := hkept i a hi
    exact ⟨j, a, hj, ha⟩

theorem extend [DecidableEq ι] (h : Tiling held cursor) {i : ι} {size : Nat} (hsize : 0 < size) (hi : held i = none)
    (hheld : ∀ j, held' j = if j = i then some ⟨cursor, size⟩ else held j) : Tiling held' (cursor + size) where
  toLayout := h.toLayout.extend hsize hheld
  covered u hu := by
    by_cases hnew : u < cursor
    · obtain ⟨j, a, hj, ha⟩ := h.covered u hnew
      have hne : j ≠ i := by
        rintro rfl
        rw [hi] at hj
        cases hj
      exact ⟨j, a, by rw [hheld, if_neg hne, hj], ha⟩
    · exact ⟨i, ⟨cursor, size⟩, by rw [hheld, if_pos rfl], Nat.le_of_not_lt hnew, hu⟩

end Tiling

/-! ### Consecutive regions -/

def Consecutive : List Region → Nat → Nat → Prop
  | [], i, j => i = j
  | r :: rs, i, j => r.start = i ∧ Consecutive rs (i + r.size) j

namespace Consecutive

variable {r : Region} {rs rs' : List Region} {i j k : Nat}

theorem append (h : Consecutive rs i j) (h' : Consecutive rs' j k) : Consecutive (rs ++ rs') i k := by
  induction rs generalizing i with
  | nil =>
    obtain rfl : i = j := h
    exact h'
  | cons r rs ih => exact ⟨h.1, ih h.2⟩

theorem le (h : Consecutive rs i j) : i ≤ j := by
  induction rs generalizing i with
  | nil => exact Nat.le_of_eq h
  | cons r rs ih => exact Nat.le_trans (Nat.le_add_right _ _) (ih h.2)

theorem le_start (h : Consecutive rs i j) (hr : r ∈ rs) : i ≤ r.start := by
  induction rs generalizing i with
  | nil => cases hr
  | cons r' rs ih =>
    rcases List.mem_cons.mp hr with rfl | hr
    · exact Nat.le_of_eq h.1.symm
    · exact Nat.le_trans (Nat.le_add_right _ _) (ih h.2 hr)

theorem exists_has_iff (h : Consecutive rs i j) {u : Nat} : (∃ r ∈ rs, r.Has u) ↔ i ≤ u ∧ u < j := by
  induction rs generalizing i with
  | nil =>
    obtain rfl : i = j := h
    simp only [List.not_mem_nil, false_and, exists_false, false_iff]
    omega
  | cons r rs ih =>
    obtain ⟨hstart, hrest⟩ := h
    have hle := hrest.le
    simp only [List.mem_cons, or_and_right, exists_or, exists_eq_left, ih hrest]
    unfold Region.Has
    omega

theorem pairwise_apart (h : Consecutive rs i j) : rs.Pairwise Apart := by
  induction rs generalizing i with
  | nil => exact .nil
  | cons r rs ih =>
    obtain ⟨rfl, hrest⟩ := h
    exact .cons (fun r' hr' => .inl (hrest.le_start hr')) (ih hrest)

end Consecutive

end Regions
