import Mathlib.Logic.Function.Iterate
import MagicEngine.Node.Recovery

/-!
# After a state mismatch

A replay that does not reproduce a sealed checksum, a checkpoint or the ledger's transaction count refuses to start
with `StateMismatch`. The refusal is not recorded anywhere: the next attempt decides afresh from the files the failed
one left behind. It comes to the same end when the tree left behind is rejected again, because the same archive is
then restored and the same entries are replayed.

* A mismatch at a seal leaves the tree at the superblock before it, behind the ledger's head.
* A mismatch at a checkpoint leaves a tree that was not flushed since the last seal, so its checksum is stale as soon as
  a block has moved the slot.
* The final count comparison comes after a flush. A tree with too few transactions is behind the ledger, but one with
  too many passes every check of the next attempt, unless its superblock is behind (`Forgotten`).
-/

namespace MagicEngine

variable {η δ : Type}

/-- A point of the stream a ledger is replayed as: the state there, what the header of the tree says, and the slot of
the last flush. -/
structure Position (η : Type) where
  state : AccountState η
  superblock : Nat
  slot : Nat
  flushed : Nat
  transactions : Nat

namespace Position

def next (env : NodeEnv η δ) (x : Position η) (entry : BlockstoreEntry η δ) : Position η :=
  let x := { x with state := x.state.apply env entry }
  match entry with
  | .transaction _ => { x with transactions := x.transactions + 1 }
  | .block b => { x with slot := b.slot }
  | .superblock sealed => { x with superblock := sealed.id, flushed := x.slot }
  | .reset _ | .checkpoint _ => x

def after (env : NodeEnv η δ) (x : Position η) (entries : List (BlockstoreEntry η δ)) : Position η :=
  entries.foldl (next env) x

/-- Every entry satisfies `P` where it is reached. -/
def Throughout (env : NodeEnv η δ) (P : Position η → BlockstoreEntry η δ → Prop) :
    Position η → List (BlockstoreEntry η δ) → Prop
  | _, [] => True
  | x, entry :: rest => P x entry ∧ Throughout env P (x.next env entry) rest

/-- The order of a well-formed ledger: seals climb below the head, and a checkpoint stands after a block of its
superblock. -/
def Paced (head : Nat) (x : Position η) : BlockstoreEntry η δ → Prop
  | .superblock sealed => x.superblock < sealed.id ∧ sealed.id < head
  | .checkpoint _ => x.flushed < x.slot
  | .transaction _ | .block _ | .reset _ => True

/-- A seal and a checkpoint record the state they stand after. -/
def Records (env : NodeEnv η δ) (x : Position η) : BlockstoreEntry η δ → Prop
  | .superblock sealed =>
    sealed = { id := sealed.id, checksum := env.checksum x.slot sealed.id x.state.accounts.persisted,
               transactions := x.transactions }
  | .checkpoint checksum => env.checksum x.slot x.superblock x.state.accounts.persisted = checksum
  | .transaction _ | .block _ | .reset _ => True

end Position

/-- Where the replay of a tree starts; `none` when a sysvar is missing. -/
def Tree.position [Inhabited η] (env : NodeEnv η δ) (t : Tree η δ) : Option (Position η) :=
  let m := env.populated t
  match m.rent, m.slotHashes, m.clock with
  | some rent, some hashes, some clock =>
    some
      { state := { accounts := m, features := m.features, rent, latest := persistedLatest hashes clock }
        superblock := t.superblock, slot := t.slot, flushed := t.slot, transactions := t.transactions }
  | _, _, _ => none

namespace NodeEnv

/-- The files a keeper would leave if it stopped here are those of the position. -/
structure Stands (env : NodeEnv η δ) (k : Keeper η δ) (x : Position η) : Prop where
  state : k.state = x.state
  accounts : k.tree.accounts = k.accounts.persisted
  superblock : k.tree.superblock = x.superblock
  slot : k.tree.slot = x.slot
  transactions : k.tree.transactions = x.transactions
  flushed : ∃ superblock accounts, k.tree.checksum = env.checksum x.flushed superblock accounts
  notNew : k.tree.isNew = false
  opened : k.tree.volatileDb = none

variable {env : NodeEnv η δ} {head : Nat} {x : Position η} {r r' : Replayer η δ} {entry : BlockstoreEntry η δ}
  {entries : List (BlockstoreEntry η δ)} {ledger : NodeLedger η δ}

/-! ### Replaying one entry -/

/-- The checksum of the tree is that of the position. -/
theorem Stands.computeChecksum {k : Keeper η δ} (h : env.Stands k x) (superblock : Nat) :
    env.checksum k.tree.slot superblock k.tree.accounts =
      env.checksum x.slot superblock x.state.accounts.persisted := by
  have hstate : k.accounts = x.state.accounts := congrArg AccountState.accounts h.state
  rw [h.slot, h.accounts, hstate]

variable [DecidableEq η]

variable [DecidableEq δ]

variable [Inhabited η]

end NodeEnv

end MagicEngine
