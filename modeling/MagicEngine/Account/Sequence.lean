import MagicEngine.Account.Shared

/-!
# Patch sequences

`AccountFieldPatch::sequence` (`solana/account/src/patch.rs`) takes an account apart into patches: the scalar fields, the
length of the data and then the data in chunks. Applied in order to any account whose lifecycle permits it, they rebuild
everything but the flags; what the account held before plays no part, since the length is fixed before the chunks are
written.
-/

namespace MagicEngine

/-- `MAX_DATA_CHUNK_SIZE`: `u16::MAX - 256`. -/
def maxDataChunkSize : Nat := 65279

/-- `chunks`: consecutive pieces of `size` elements, the last one possibly shorter. -/
def chunks {α : Type} (size : Nat) (xs : List α) : List (List α) :=
  (List.range ((xs.length + size - 1) / size)).map fun index => (xs.drop (index * size)).take size

namespace AccountFieldPatch

def dataSequence (data : List UInt8) : List AccountFieldPatch :=
  (chunks maxDataChunkSize data).zipIdx.map fun (chunk, index) => .dataAt (index * maxDataChunkSize) chunk

def sequence (account : OwnedAccount) : List AccountFieldPatch :=
  [.lamports account.core.lamports, .lifecycle account.core.mode account.core.slot, .commitSeq account.core.commitSeq,
    .owner account.core.owner, .dataLen account.data.length] ++ dataSequence account.data

end AccountFieldPatch

/-! ### Values after a mutator -/

namespace AccountSharedData

variable (a : AccountSharedData)

theorem account_setLamports (lamports : UInt64) :
    (a.setLamports lamports).account = { core := { a.core with lamports }, data := a.data } := by
  unfold setLamports
  split
  · next h => rw [← h]; rfl
  · rfl

theorem account_setOwner (owner : Pubkey) :
    (a.setOwner owner).account = { core := { a.core with owner }, data := a.data } := by
  unfold setOwner
  split
  · next h => rw [← h]; rfl
  · rfl

theorem account_setFlags (flags : StateFlags) :
    (a.setFlags flags).account = { core := { a.core with flags }, data := a.data } := by
  unfold setFlags
  split
  · next h => rw [← h]; rfl
  · rfl

theorem account_setCommitSeq (commitSeq : UInt32) :
    (a.setCommitSeq commitSeq).account = { core := { a.core with commitSeq }, data := a.data } := by
  unfold setCommitSeq
  split
  · next h => rw [← h]; rfl
  · rfl

theorem setLifecycle_ok (mode : AccountMode) (slot : Nat)
    (h : a.mode.validateTransition mode a.core.slot slot = .ok ()) :
    ∃ a', a.setLifecycle mode slot = .ok a' ∧ a'.account = { core := { a.core with mode, slot }, data := a.data } := by
  unfold setLifecycle
  rw [h]
  exact ⟨_, rfl, rfl⟩

theorem length_resize (len : Nat) (val : UInt8) : (a.resize len val).data.length = len := by
  simp only [resize, withData, data, List.length_append, List.length_take, List.length_replicate]
  omega

theorem account_setDataAt {offset : Nat} (bytes : List UInt8) (h : offset ≤ a.data.length) :
    (a.setDataAt offset bytes).account =
      { core := a.core, data := a.data.take offset ++ bytes ++ a.data.drop (offset + bytes.length) } := by
  simp [setDataAt, withData, core, Nat.sub_eq_zero_of_le h]

end AccountSharedData

/-! ### Chunks -/

namespace AccountFieldPatch

variable {a : AccountSharedData} {data : List UInt8}

def chunkPatch (data : List UInt8) (index : Nat) : AccountFieldPatch :=
  .dataAt (index * maxDataChunkSize) ((data.drop (index * maxDataChunkSize)).take maxDataChunkSize)

def chunkCount (data : List UInt8) : Nat := (data.length + maxDataChunkSize - 1) / maxDataChunkSize

theorem dataSequence_eq (data : List UInt8) : dataSequence data = (List.range (chunkCount data)).map (chunkPatch data) := by
  apply List.ext_getElem
  · simp [dataSequence, chunks, chunkCount]
  · intro index _ _
    simp [dataSequence, chunks, chunkPatch]

theorem lamports_mem_sequence {source : OwnedAccount} {value : UInt64} :
    .lamports value ∈ sequence source ↔ value = source.core.lamports := by
  simp [sequence, dataSequence]

theorem lifecycle_mem_sequence {source : OwnedAccount} {mode : AccountMode} {slot : Nat} :
    .lifecycle mode slot ∈ sequence source ↔ mode = source.core.mode ∧ slot = source.core.slot := by
  simp [sequence, dataSequence]

theorem length_le_chunkCount (data : List UInt8) : data.length ≤ chunkCount data * maxDataChunkSize := by
  unfold chunkCount maxDataChunkSize
  omega

theorem offset_lt_of_lt_chunkCount {index : Nat} (h : index < chunkCount data) :
    index * maxDataChunkSize < data.length := by
  unfold chunkCount maxDataChunkSize at *
  omega

/-- What is there once some chunks are written: the new data up to there, then the old. -/
theorem chunkPatch_apply {index : Nat} {old : List UInt8} (hindex : index < chunkCount data)
    (hold : old.length = data.length)
    (hdata : a.data = data.take (index * maxDataChunkSize) ++ old.drop (index * maxDataChunkSize)) :
    ∃ a', (chunkPatch data index).apply a = .ok a' ∧ a'.account =
      { core := a.core
        data := data.take ((index + 1) * maxDataChunkSize) ++ old.drop ((index + 1) * maxDataChunkSize) } := by
  have hoffset := Nat.le_of_lt (offset_lt_of_lt_chunkCount hindex)
  generalize hat : index * maxDataChunkSize = offset at *
  have hsucc : (index + 1) * maxDataChunkSize = offset + maxDataChunkSize := by rw [Nat.add_mul, hat, Nat.one_mul]
  have hlength : a.data.length = data.length := by
    rw [hdata, List.length_append, List.length_take, List.length_drop, hold]
    omega
  have hfront : a.data.take offset = data.take offset := by
    rw [hdata, List.take_append_of_le_length (by rw [List.length_take]; omega), List.take_take, Nat.min_self]
  have hback (n : Nat) : a.data.drop (offset + n) = old.drop (offset + n) := by
    rw [hdata, ← List.drop_drop, List.drop_left' (by rw [List.length_take, Nat.min_eq_left hoffset]), List.drop_drop]
  have hrest : old.drop (offset + ((data.drop offset).take maxDataChunkSize).length) =
      old.drop (offset + maxDataChunkSize) := by
    rw [List.length_take, List.length_drop]
    rcases Nat.le_total maxDataChunkSize (data.length - offset) with hfull | hlast
    · rw [Nat.min_eq_left hfull]
    · rw [List.drop_eq_nil_of_le (by omega), List.drop_eq_nil_of_le (by omega)]
  have hwritten := a.account_setDataAt ((data.drop offset).take maxDataChunkSize) (hlength ▸ hoffset)
  rw [hfront, hback, hrest, ← List.take_add, ← hsucc] at hwritten
  refine ⟨_, rfl, ?_⟩
  rw [← hwritten, hat]

end AccountFieldPatch

end MagicEngine
