import Mathlib.Data.List.Sort

/-!
# Duplicate-sorted tables

A table of key–value pairs in which a key may have many values, each at most once; the values of one key are kept
in the order of a rank. This is the interface of a duplicate-sorted LMDB database.
-/

abbrev DupTable (κ ν : Type) := List (κ × ν)

namespace DupTable

variable {κ ν : Type} [DecidableEq κ] {t : DupTable κ ν} {k : κ} {v : ν} {p : κ × ν}

def get (t : DupTable κ ν) (k : κ) : Option ν := (t.find? (·.1 = k)).map Prod.snd

def getDuplicates (t : DupTable κ ν) (k : κ) : List ν := (t.filter (·.1 = k)).map Prod.snd

theorem mem_of_get (h : t.get k = some v) : (k, v) ∈ t := by
  obtain ⟨⟨k', v'⟩, hfind, rfl⟩ := Option.map_eq_some_iff.mp h
  have hk : k' = k := by simpa using List.find?_some hfind
  exact hk ▸ List.mem_of_find?_eq_some hfind

@[simp]
theorem mem_getDuplicates : v ∈ t.getDuplicates k ↔ (k, v) ∈ t := by
  simp [getDuplicates]

variable [DecidableEq ν] {rank : ν → Nat}

/-- Add a pair, in order; nothing happens if it is there. -/
def put (rank : ν → Nat) (t : DupTable κ ν) (k : κ) (v : ν) : DupTable κ ν :=
  if (k, v) ∈ t then t else t.orderedInsert (fun p q => rank p.2 ≤ rank q.2) (k, v)

def delete (t : DupTable κ ν) (k : κ) (v : ν) : DupTable κ ν := t.filter (· ≠ (k, v))

@[simp]
theorem mem_put : p ∈ t.put rank k v ↔ p = (k, v) ∨ p ∈ t := by
  unfold put
  split
  · next h => exact ⟨.inr, fun hp => hp.elim (fun heq => heq ▸ h) id⟩
  · exact List.mem_orderedInsert _

@[simp]
theorem mem_delete : p ∈ t.delete k v ↔ p ∈ t ∧ p ≠ (k, v) := by
  simp [delete]

theorem nodup_put (h : t.Nodup) : (t.put rank k v).Nodup := by
  unfold put
  split
  · exact h
  · next hnew => exact (List.perm_orderedInsert _ _ _).nodup_iff.mpr (List.nodup_cons.mpr ⟨hnew, h⟩)

theorem nodup_delete (h : t.Nodup) : (t.delete k v).Nodup := h.filter _

end DupTable
