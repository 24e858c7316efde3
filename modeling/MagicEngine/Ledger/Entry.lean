import MagicEngine.Transaction

/-!
# Entries of the ledger stream

The blockstore is a stream of transactions in execution order. Block entries delimit the transactions of each
block, a superblock seal ends a group of blocks, and resets and checkpoints stand at their ordered positions
(`nucleus/src/ledger.rs`, `ledger/src/schema.rs`). Producer signatures are left out; they are checked before an
entry reaches the engine and are carried along unchanged.

The types of block hashes and of account checksums are parameters, so that a hash can be modelled as an injective
function.
-/

namespace MagicEngine

/-- Bytes of a signature that identify a transaction in the index and in the caches: the first sixteen. -/
abbrev SignaturePrefix : Type := BitVec 128

def Signature.signaturePrefix (s : Signature) : SignaturePrefix := s.bytes.extractLsb' 384 128

/-- A transaction as ingress hands it to the sequencer, with the block hash its message names. -/
structure LedgerTransaction (η : Type) where
  view : ResolvedTransaction
  recentBlockhash : η
deriving DecidableEq, Repr

/-- The first signature; sanitization has rejected transactions without one. -/
def LedgerTransaction.signature {η : Type} (t : LedgerTransaction η) : Signature := t.view.signatures.headD default

structure Block (η : Type) where
  slot : Nat
  hash : η
  time : Int
  parent : η
deriving DecidableEq, Repr

structure SuperblockSeal (δ : Type) where
  id : Nat
  checksum : δ
  transactions : Nat
deriving DecidableEq, Repr

/-- Discards volatile state and fixes rent and features from here on. -/
structure Reset where
  slot : Nat
  rent : Nat
  features : List Pubkey
deriving DecidableEq, Repr

inductive BlockstoreEntry (η δ : Type) where
  | block (block : Block η)
  | transaction (txn : LedgerTransaction η)
  | superblock (sealed : SuperblockSeal δ)
  | reset (reset : Reset)
  | checkpoint (checksum : δ)
deriving DecidableEq, Repr

def BlockstoreEntry.isTransaction {η δ : Type} : BlockstoreEntry η δ → Bool
  | .transaction _ => true
  | _ => false

end MagicEngine
