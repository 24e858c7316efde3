import MagicEngine.Lib.Codec

/-!
# Storage with bounds

Reads and writes of a fixed number of bytes at an offset, which fail outside the storage. Nothing is said about who owns
which part: a storage that is known to consist of parts is an appended list, and what is read or written inside a part
is read or written inside the whole (`read_within`, `write_within`).
-/

namespace Storage

open Codec

variable {β : Type} {s s' before part part' after new : List β} {offset n : Nat}

def read (s : List β) (offset n : Nat) : Option (List β) :=
  if offset + n ≤ s.length then some (slice s offset n) else none

def write (s : List β) (offset : Nat) (new : List β) : Option (List β) :=
  if offset + new.length ≤ s.length then some (s.take offset ++ new ++ s.drop (offset + new.length)) else none

theorem read_append (before part after : List β) :
    read (before ++ part ++ after) before.length part.length = some part := by
  unfold read slice
  rw [if_pos (by simp), List.append_assoc, List.drop_left, List.take_left]

theorem write_append (before old new after : List β) (h : new.length = old.length) :
    write (before ++ old ++ after) before.length new = some (before ++ new ++ after) := by
  unfold write
  rw [if_pos (by simp [h]), h, ← List.length_append, List.drop_left, List.append_assoc before old, List.take_left]

def writeAll (s : List β) (offset : Nat) : List (List β) → Option (List β)
  | [] => some s
  | part :: parts => (write s offset part).bind fun s => writeAll s (offset + part.length) parts

theorem writeAll_append (before rest : List β) {parts : List (List β)} (h : parts.flatten.length ≤ rest.length) :
    writeAll (before ++ rest) before.length parts =
      some (before ++ parts.flatten ++ rest.drop parts.flatten.length) := by
  induction parts generalizing before rest with
  | nil => simp [writeAll]
  | cons part parts ih =>
    rw [List.flatten_cons, List.length_append] at h
    have hrest : before ++ rest = before ++ rest.take part.length ++ rest.drop part.length := by
      rw [List.append_assoc, List.take_append_drop]
    have hwrite := write_append before (rest.take part.length) part (rest.drop part.length)
      (by rw [List.length_take, Nat.min_eq_left (by omega)])
    have hnext := ih (before ++ part) (rest.drop part.length) (by rw [List.length_drop]; omega)
    rw [List.length_append] at hnext
    rw [writeAll, hrest, hwrite, Option.bind_some, hnext]
    simp [List.drop_drop]

theorem read_within (h : read part offset n = some s') :
    read (before ++ part ++ after) (before.length + offset) n = some s' := by
  unfold read at h
  split at h
  · next hle =>
    obtain rfl := Option.some.inj h
    unfold read slice
    rw [if_pos (by simp only [List.length_append]; omega), List.append_assoc, ← List.drop_drop, List.drop_left,
      List.drop_append_of_le_length (by omega), List.take_append_of_le_length (by simp; omega)]
  · cases h

/-- What is written in a part is written in the whole, and the rest stays. -/
theorem write_within (h : write part offset new = some part') :
    write (before ++ part ++ after) (before.length + offset) new = some (before ++ part' ++ after) := by
  unfold write at h
  split at h
  · next hle =>
    obtain rfl := Option.some.inj h
    unfold write
    rw [if_pos (by simp only [List.length_append]; omega), List.append_assoc before part after, List.take_append,
      List.take_of_length_le (Nat.le_add_right _ _), Nat.add_sub_cancel_left,
      List.take_append_of_le_length (by omega), Nat.add_assoc, ← List.drop_drop, List.drop_left,
      List.drop_append_of_le_length hle]
    simp only [List.append_assoc]
  · cases h

end Storage
