import Mathlib.Data.List.Nodup
import MagicEngine.Base

/-!
# Resolved transactions

The view of a transaction the sequencer and the executors work on (`solana/transaction-view`). Sanitization
has already rejected duplicate static keys, address table lookups and more than 256 keys, so the view
carries its distinct keys and the cached writability bit of each account index.
-/

namespace MagicEngine

/-- A top-level instruction: its program and its accounts as indices into the static keys. -/
structure CompiledInstruction where
  programIdIndex : Nat
  accounts : List Nat
  data : List UInt8
deriving DecidableEq, Repr

/-- A sanitized transaction whose writable accounts are cached, one bit per account index. -/
structure ResolvedTransaction where
  signatures : List Signature
  numRequiredSignatures : Nat
  staticAccountKeys : List Pubkey
  instructions : List CompiledInstruction
  writableCache : BitVec 256
  keys_nodup : staticAccountKeys.Nodup
deriving DecidableEq, Repr

namespace ResolvedTransaction

/-- `is_writable`: the cached bit of account `index`; an index past the cache is not writable. -/
def isWritable (tx : ResolvedTransaction) (index : Nat) : Bool :=
  tx.writableCache.getLsbD index

/-- `is_signer`: the signers come first among the static keys. -/
def isSigner (tx : ResolvedTransaction) (index : Nat) : Bool :=
  index < tx.numRequiredSignatures

/-- The static keys in message order, each with its writability. -/
def accesses (tx : ResolvedTransaction) : List (Pubkey × Bool) :=
  tx.staticAccountKeys.zipIdx.map fun (key, index) => (key, tx.isWritable index)

def writableKeys (tx : ResolvedTransaction) : List Pubkey :=
  (tx.accesses.filter (·.2)).map (·.1)

theorem accesses_map_fst (tx : ResolvedTransaction) : tx.accesses.map (·.1) = tx.staticAccountKeys := by
  unfold accesses
  rw [List.map_map]
  exact List.zipIdx_map_fst 0 tx.staticAccountKeys

theorem accesses_nodup (tx : ResolvedTransaction) : (tx.accesses.map (·.1)).Nodup := by
  rw [accesses_map_fst]
  exact tx.keys_nodup

theorem mem_staticAccountKeys {tx : ResolvedTransaction} {key : Pubkey} :
    key ∈ tx.staticAccountKeys ↔ ∃ w, (key, w) ∈ tx.accesses := by
  rw [← accesses_map_fst]
  simp

theorem mem_writableKeys {tx : ResolvedTransaction} {key : Pubkey} :
    key ∈ tx.writableKeys ↔ (key, true) ∈ tx.accesses := by
  simp [writableKeys]

theorem writableKeys_subset (tx : ResolvedTransaction) : tx.writableKeys ⊆ tx.staticAccountKeys := fun _ h =>
  mem_staticAccountKeys.mpr ⟨true, mem_writableKeys.mp h⟩

end ResolvedTransaction

/-- What ingress hands to the sequencer. The response channel plays no part in scheduling. -/
structure ExecutionRequest where
  transaction : ResolvedTransaction
deriving DecidableEq, Repr

end MagicEngine
