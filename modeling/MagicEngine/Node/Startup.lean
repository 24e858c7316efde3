import MagicEngine.Node.Accounts

/-!
# Starting a node

What a node leaves on disk and what `Engine::new` makes of it (`keeper/src/builder.rs`, `keeper/src/lib.rs`,
`engine/src/lib.rs`): open the ledger, accept the active account tree or restore the newest archived one, seed missing
accounts, read the runtime state back, and replay the retained ledger when the tree trails it.

Account images and the header of the tree are memory-mapped: what a process wrote survives its crash, whether or not it
was flushed. The cached checksum is refreshed by synchronous flushes only, and a tree whose checksum is stale is taken
for corrupt. A replay that fails leaves the tree where it stopped.
-/

namespace MagicEngine

/-- The active account tree, or an archived copy of one. -/
structure Tree (η δ : Type) where
  accounts : AccountMap η
  slot : Nat := 1
  superblock : Nat := 0
  transactions : Nat := 0
  checksum : δ
  /-- No account image was ever allocated. -/
  isNew : Bool := false
  /-- The volatile accounts dumped into the tree; the next open consumes them. -/
  volatileDb : Option (AccountMap η) := none

/-- The published part of the ledger: the entries and the last slot of each superblock, and what the ledger's header
says. -/
structure NodeLedger (η δ : Type) where
  head : Nat := 1
  oldest : Nat := 1
  entries : Nat → List (BlockstoreEntry η δ)
  last : Nat → Nat := fun _ => 0
  transactions : Nat := 0

/-- What survives a process. The archive made at the seal of superblock `id` lies in the directory of `id + 1`. -/
structure Disk (η δ : Type) where
  tree : Tree η δ
  ledger : NodeLedger η δ
  archives : Nat → Option (Tree η δ)

/-- The opened account store and the runtime state in memory. -/
structure Keeper (η δ : Type) where
  tree : Tree η δ
  volatile : AccountMap η
  features : Pubkey → Bool
  rent : Nat
  caches : Caches η Unit

structure BlockHasher (η : Type) where
  parent : η
  signatures : List Signature := []
deriving DecidableEq, Repr

inductive StartupError where
  | snapshotMissing
  | missingSysvar (id : Pubkey)
  /-- A replayed block does not match the local hash chain. -/
  | chainMismatch (slot : Nat)
  | stateMismatch
deriving DecidableEq, Repr

namespace BlockHasher

variable {η δ : Type}

def update (hasher : BlockHasher η) (signature : Signature) : BlockHasher η :=
  { hasher with signatures := hasher.signatures ++ [signature] }

def finalize (env : NodeEnv η δ) (hasher : BlockHasher η) : η := env.blockHash hasher.parent hasher.signatures

end BlockHasher

namespace NodeLedger

variable {η δ : Type}

/-- The entries of the superblocks after `superblock`, through the active head. -/
def entriesAfter (ledger : NodeLedger η δ) (superblock : Nat) : List (BlockstoreEntry η δ) :=
  (List.range' (superblock + 1) (ledger.head - superblock)).flatMap fun id =>
    if ledger.oldest ≤ id then ledger.entries id else []

/-- The last slot of any retained superblock. -/
def tip (ledger : NodeLedger η δ) : Nat :=
  ((List.range' ledger.oldest (ledger.head + 1 - ledger.oldest)).map ledger.last).foldr max 0

/-- `unarchive`: the first archive found from the newest retained superblock to the oldest. -/
def newestArchive (ledger : NodeLedger η δ) (archives : Nat → Option (Tree η δ)) : Option (Tree η δ) :=
  (List.range' ledger.oldest (ledger.head + 1 - ledger.oldest)).reverse.findSome? archives

end NodeLedger

namespace Tree

variable {η δ : Type}

def computeChecksum (env : NodeEnv η δ) (t : Tree η δ) : δ := env.checksum t.slot t.superblock t.accounts

def flush (env : NodeEnv η δ) (t : Tree η δ) : Tree η δ := { t with checksum := t.computeChecksum env }

/-- The seal of a snapshot. -/
def sealed (t : Tree η δ) : SuperblockSeal δ :=
  { id := t.superblock, checksum := t.checksum, transactions := t.transactions }

/-- `AccountsDB::new` takes the dumped volatile accounts off the tree. -/
def opened (t : Tree η δ) : Tree η δ := { t with volatileDb := none }

def volatile (t : Tree η δ) : AccountMap η := t.volatileDb.getD .empty

def allAccounts (t : Tree η δ) : AccountMap η := .loader t.volatile t.accounts

variable [DecidableEq δ]

def validate (env : NodeEnv η δ) (t : Tree η δ) : Bool := t.isNew || t.checksum == t.computeChecksum env

/-- The active tree is accepted without a restore: it validates and trails the ledger neither by superblock nor by
transaction count. -/
def current (env : NodeEnv η δ) (ledger : NodeLedger η δ) (t : Tree η δ) : Bool :=
  t.validate env && decide (ledger.head - 1 ≤ t.superblock) && decide (ledger.transactions ≤ t.transactions)

end Tree

namespace Keeper

variable {η δ : Type}

def accounts (k : Keeper η δ) : AccountMap η := .loader k.volatile k.tree.accounts

/-- Replace the accounts; each goes to the store its mode asks for. -/
def setAccounts (k : Keeper η δ) (m : AccountMap η) : Keeper η δ :=
  { k with tree := { k.tree with accounts := m.persisted }, volatile := m.volatile }

def latest (k : Keeper η δ) : Block η := k.caches.latest

def context (k : Keeper η δ) : ExecContext η := { latest := k.latest, rent := k.rent, features := k.features }

/-- Execute a transaction and commit what it changed; the transaction is counted afterwards. -/
def executeTransaction (env : NodeEnv η δ) (k : Keeper η δ) (t : LedgerTransaction η) : Keeper η δ :=
  k.setAccounts (env.execute k.context t k.accounts)

def countTransaction (k : Keeper η δ) : Keeper η δ :=
  { k with tree := { k.tree with transactions := k.tree.transactions + 1 } }

/-- `commit_replay`: the re-executed transaction's signature goes into the cache with its status. -/
def commitReplay (env : NodeEnv η δ) (k : Keeper η δ) (t : LedgerTransaction η) : Keeper η δ :=
  let k := (k.executeTransaction env t).countTransaction
  { k with
    caches := { k.caches with
      signatures := (k.caches.signatures.push t.signature.signaturePrefix (some ()) (k.latest.slot + 1)).1 } }

def applyReset (env : NodeEnv η δ) (k : Keeper η δ) (reset : Reset) : Keeper η δ :=
  { k.setAccounts (env.resetAccounts k.features reset k.accounts) with
    features := fun key => decide (key ∈ reset.features)
    rent := reset.rent }

def setSlot (k : Keeper η δ) (slot : Nat) : Keeper η δ := { k with tree := { k.tree with slot } }

def setSuperblock (k : Keeper η δ) (superblock : Nat) : Keeper η δ := { k with tree := { k.tree with superblock } }

def flush (env : NodeEnv η δ) (k : Keeper η δ) : Keeper η δ := { k with tree := k.tree.flush env }

def sealed (k : Keeper η δ) : SuperblockSeal δ := k.tree.sealed

/-- `Keeper::replay`: nothing when the tree is current by slot and transaction count. -/
def replay (ledger : NodeLedger η δ) (k : Keeper η δ) : Option (List (BlockstoreEntry η δ)) :=
  if ledger.tip ≤ k.tree.slot ∧ ledger.transactions ≤ k.tree.transactions then none
  else some (ledger.entriesAfter k.tree.superblock)

variable [DecidableEq η]

/-- `BlocksAccessor::append` without the ledger: the block enters the caches, then the sysvars and the slot. -/
def appendBlock (env : NodeEnv η δ) (k : Keeper η δ) (block : Block η) : Except StartupError (Keeper η δ) :=
  let k := { k with caches := k.caches.pushBlock block }
  match env.updateSysvars k.accounts block with
  | none => .error (.missingSysvar slotHashesId)
  | some m => .ok ((k.setAccounts m).setSlot block.slot)

end Keeper

/-! ### Caches at startup -/

section Caches

variable {η δ : Type}

/-- The blocks of one superblock in a range of slots, each with the signatures before it. -/
def blockHistory (start last : Nat) :
    List (BlockstoreEntry η δ) → List SignaturePrefix → List (BlockHistoryEntry η)
  | [], _ => []
  | .transaction t :: rest, signatures =>
    blockHistory start last rest (signatures ++ [t.signature.signaturePrefix])
  | .block b :: rest, signatures =>
    if start ≤ b.slot ∧ b.slot ≤ last then { block := b, signatures } :: blockHistory start last rest []
    else blockHistory start last rest []
  | _ :: rest, signatures => blockHistory start last rest signatures

def NodeLedger.blockRange (ledger : NodeLedger η δ) (start last : Nat) : List (BlockHistoryEntry η) :=
  (List.range' ledger.oldest (ledger.head + 1 - ledger.oldest)).flatMap fun id =>
    blockHistory start last (ledger.entries id) []

variable [DecidableEq η]

/-- Merge the persisted slot hashes into the streamed blocks, both oldest first; a streamed block wins. -/
def mergeHistory : List (Nat × η) → List (BlockHistoryEntry η) → Caches η Unit → Caches η Unit
  | hashes, [], caches => hashes.foldl (fun caches (slot, hash) => caches.restoreHash slot hash) caches
  | hashes, entry :: rest, caches =>
    let older := hashes.takeWhile fun (slot, _) => decide (slot < entry.block.slot)
    let hashes := hashes.drop older.length
    let hashes := if (hashes.head?.map (·.1)) = some entry.block.slot then hashes.tail else hashes
    let caches := older.foldl (fun caches (slot, hash) => caches.restoreHash slot hash) caches
    mergeHistory hashes rest (caches.restore entry)

def followerCaches (env : NodeEnv η δ) (ledger : NodeLedger η δ) (slot : Nat) (hashes : List (Nat × η))
    (latest : Block η) : Caches η Unit :=
  let retained := max (max env.blockTtl env.signatureTtl) slothashEntries
  mergeHistory hashes.reverse (ledger.blockRange (slot - (retained - 1)) slot)
    (.new latest env.blockTtl env.signatureTtl)

/-- `leader_caches`: the latest block only. -/
def leaderCaches (env : NodeEnv η δ) (latest : Block η) : Caches η Unit :=
  .start latest env.blockTtl env.signatureTtl [{ block := latest, signatures := [] }]

theorem latest_restoreHashes (hashes : List (Nat × η)) (caches : Caches η Unit) :
    (hashes.foldl (fun caches (slot, hash) => caches.restoreHash slot hash) caches).latest = caches.latest := by
  induction hashes generalizing caches with
  | nil => rfl
  | cons entry rest ih => exact ih _

theorem latest_mergeHistory (hashes : List (Nat × η)) (history : List (BlockHistoryEntry η)) (caches : Caches η Unit) :
    (mergeHistory hashes history caches).latest = caches.latest := by
  induction history generalizing hashes caches with
  | nil => exact latest_restoreHashes hashes caches
  | cons entry rest ih =>
    rw [mergeHistory, ih]
    exact latest_restoreHashes _ caches

end Caches

namespace NodeEnv

variable {η δ : Type}

/-! ### Opening the account store -/

section Open

variable [DecidableEq δ]

/-- `unarchive` and the second round of `accountsdb`: a restored tree only has to validate. -/
def restore (env : NodeEnv η δ) (disk : Disk η δ) : Tree η δ × Except StartupError (Tree η δ) :=
  match disk.ledger.newestArchive disk.archives with
  | none => (disk.tree.opened, .error .snapshotMissing)
  | some archive =>
    if archive.validate env then (archive.opened, .ok archive) else (disk.tree.opened, .error .snapshotMissing)

/-- `KeeperBuilder::accountsdb`: the tree left active, and the tree to go on with. -/
def accountsdb (env : NodeEnv η δ) (disk : Disk η δ) : Tree η δ × Except StartupError (Tree η δ) :=
  if disk.tree.current env disk.ledger then (disk.tree.opened, .ok disk.tree) else env.restore disk

end Open

section Build

variable [Inhabited η]

/-- `prepopulate`: what a startup stores into the tree it opened. -/
def missing (env : NodeEnv η δ) (t : Tree η δ) : List (Pubkey × NodeAccount η) :=
  (if t.isNew then env.genesis else []) ++
    (if (t.allAccounts env.authority).isNone then
      [(env.authority, { core := { lamports := sponsorInitBalance, mode := .magic }, data := .bytes [] })]
    else []) ++
    env.seeds.filter fun (key, _) => (t.allAccounts key).isNone

def populated (env : NodeEnv η δ) (t : Tree η δ) : AccountMap η := t.allAccounts.store (env.missing t)

variable [DecidableEq η]

def startCaches (env : NodeEnv η δ) (ledger : NodeLedger η δ) (slot : Nat) (hashes : List (Nat × η))
    (latest : Block η) : Caches η Unit :=
  if env.remote then followerCaches env ledger slot hashes latest else leaderCaches env latest

omit [Inhabited η] in
theorem latest_startCaches (env : NodeEnv η δ) (ledger : NodeLedger η δ) (slot : Nat) (hashes : List (Nat × η))
    (latest : Block η) : (env.startCaches ledger slot hashes latest).latest = latest := by
  unfold startCaches
  split
  · exact latest_mergeHistory ..
  · rfl

/-- The rest of `KeeperBuilder::build`: seed what is missing and read the runtime state back. -/
def build (env : NodeEnv η δ) (ledger : NodeLedger η δ) (t : Tree η δ) :
    Tree η δ × Except StartupError (Keeper η δ) :=
  let m := env.populated t
  let tree := { t.opened with accounts := m.persisted, isNew := false }
  match m.rent, m.slotHashes, m.clock with
  | none, _, _ => (tree, .error (.missingSysvar rentId))
  | _, none, _ => (tree, .error (.missingSysvar slotHashesId))
  | _, _, none => (tree, .error (.missingSysvar clockId))
  | some rent, some hashes, some clock =>
    (tree, .ok
      { tree, volatile := m.volatile, features := m.features, rent
        caches := env.startCaches ledger tree.slot hashes (persistedLatest hashes clock) })

end Build

/-! ### Replay -/

section Replay

variable [DecidableEq η] [DecidableEq δ]

/-- A process that replays its ledger: the keeper and the hash chain of the temporary sequencer. -/
structure Replayer (η δ : Type) where
  keeper : Keeper η δ
  hasher : BlockHasher η

/-- `Engine::replay` of one entry, in stream order, with the error that ends the replay. -/
def replayEntry (env : NodeEnv η δ) (r : Replayer η δ) :
    BlockstoreEntry η δ → Replayer η δ × Except StartupError Unit
  | .transaction t =>
    ({ keeper := r.keeper.commitReplay env t, hasher := r.hasher.update t.signature }, .ok ())
  | .block b =>
    if b.parent ≠ r.hasher.parent ∨ b.hash ≠ r.hasher.finalize env then (r, .error (.chainMismatch b.slot))
    else
      match r.keeper.appendBlock env b with
      | .error e => (r, .error e)
      | .ok keeper => ({ keeper, hasher := { parent := b.hash } }, .ok ())
  | .superblock expected =>
    let previous := r.keeper.tree.superblock
    let keeper := (r.keeper.setSuperblock expected.id).flush env
    if keeper.sealed = expected then ({ r with keeper }, .ok ())
    else ({ r with keeper := (keeper.setSuperblock previous).flush env }, .error .stateMismatch)
  | .reset reset => ({ r with keeper := r.keeper.applyReset env reset }, .ok ())
  | .checkpoint checksum =>
    if r.keeper.tree.computeChecksum env = checksum then (r, .ok ()) else (r, .error .stateMismatch)

def replayEntries (env : NodeEnv η δ) : Replayer η δ → List (BlockstoreEntry η δ) →
    Replayer η δ × Except StartupError Unit
  | r, [] => (r, .ok ())
  | r, entry :: rest =>
    match env.replayEntry r entry with
    | (r, .error e) => (r, .error e)
    | (r, .ok ()) => env.replayEntries r rest

/-- `Engine::try_replay`. The final flush comes before the transaction counts are compared. -/
def tryReplay (env : NodeEnv η δ) (ledger : NodeLedger η δ) (k : Keeper η δ) :
    Keeper η δ × Except StartupError Unit :=
  match k.replay ledger with
  | none => (k, .ok ())
  | some entries =>
    match env.replayEntries { keeper := k, hasher := { parent := k.latest.hash } } entries with
    | (r, .error e) => (r.keeper, .error e)
    | (r, .ok ()) =>
      let k := r.keeper.flush env
      (k, if k.tree.transactions = ledger.transactions then .ok () else .error .stateMismatch)

variable [Inhabited η]

/-- Build the keeper on the opened tree and replay the ledger: the tree left behind, and the keeper to run on. -/
def launch (env : NodeEnv η δ) (ledger : NodeLedger η δ) (opened : Tree η δ) :
    Tree η δ × Except StartupError (Keeper η δ) :=
  match env.build ledger opened with
  | (tree, .error e) => (tree, .error e)
  | (_, .ok k) =>
    match env.tryReplay ledger k with
    | (k, .error e) => (k.tree, .error e)
    | (k, .ok ()) => (k.tree, .ok k)

/-- `Engine::new` up to the live sequencer: the disk it leaves, and the keeper to run on. -/
def startup (env : NodeEnv η δ) (disk : Disk η δ) : Disk η δ × Except StartupError (Keeper η δ) :=
  match env.accountsdb disk with
  | (tree, .error e) => ({ disk with tree }, .error e)
  | (_, .ok opened) => ({ disk with tree := (env.launch disk.ledger opened).1 }, (env.launch disk.ledger opened).2)

/-- The tree that a crash during a start leaves. First it is opened or restored; the next step seeds it, and each one
after that replays an entry. -/
def startupCut (env : NodeEnv η δ) (disk : Disk η δ) (steps : Nat) : Tree η δ :=
  match env.accountsdb disk, steps with
  | (tree, .error _), _ => tree
  | (tree, .ok _), 0 => tree
  | (_, .ok opened), n + 1 =>
    match env.build disk.ledger opened with
    | (tree, .error _) => tree
    | (_, .ok k) =>
      let entries := (k.replay disk.ledger).getD []
      (env.replayEntries { keeper := k, hasher := { parent := k.latest.hash } } (entries.take n)).1.keeper.tree

end Replay

/-! ### A small node -/

theorem payer_nodup : [(default : Pubkey)].Nodup := List.nodup_singleton _

def transfer : LedgerTransaction Nat where
  view := { signatures := [default], numRequiredSignatures := 1, staticAccountKeys := [default], instructions := []
            writableCache := 1, keys_nodup := payer_nodup }
  recentBlockhash := 7

end NodeEnv

end MagicEngine
