import MagicEngine.Svm.Processing

/-!
# Executors and the simulator

Both workers drive the same batch processor (`processor/src/executor.rs`, `processor/src/simulator.rs`,
`load_and_execute_sanitized_transaction` in `solana/svm/src/transaction_processor.rs`): load the accounts,
replenish the batch-local program cache from the shared one, execute, and merge modified entries back when the
result passes the access check. Executors then commit the changed accounts; the simulator drops its copies.

A program is a deterministic function of what it can read, so the schedule of actions is a function of the
transaction, the loaded accounts and the replenished programs.
-/

namespace MagicEngine

inductive TransactionError where
  | invalidDetails (code : Nat)
  | maxLoadedAccountsDataSizeExceeded
  | programAccountNotFound
  | invalidProgramForExecution
deriving DecidableEq, Repr

def ProgramCacheEntry.getEnvironment : ProgramCacheEntry → Option Nat
  | .loaded environment _ | .failedVerification environment | .unloaded environment => some environment
  | _ => none

/-- What a merged entry leaves in the shared cache: a closed program is removed. -/
def ProgramCacheEntry.merged : ProgramCacheEntry → Option ProgramCacheEntry
  | .closed => none
  | entry => some entry

@[ext]
structure ProgramCache where
  index : Pubkey → Option ProgramCacheEntry

namespace ProgramCache

def get (cache : ProgramCache) (key : Pubkey) : Option ProgramCacheEntry := cache.index key

def assignProgram (cache : ProgramCache) (key : Pubkey) (entry : ProgramCacheEntry) : ProgramCache :=
  { index := Function.update cache.index key (some entry) }

/-- Drops the programs that were loaded or verified under an environment. -/
def invalidate (cache : ProgramCache) : ProgramCache where
  index key := (cache.index key).filter (·.getEnvironment.isNone)

def merge (cache : ProgramCache) (modified : Pubkey → Option ProgramCacheEntry) : ProgramCache where
  index key :=
    match modified key with
    | none => cache.index key
    | some entry => entry.merged

end ProgramCache

/-- The limits `parse_details` derives from a transaction. -/
structure TransactionDetails where
  maxInstructionStackDepth : Nat
  maxInstructionTraceLength : Nat
  loadedAccountsBytesLimit : Nat
deriving DecidableEq, Repr

/-- The worker's environment: the SVM's, the limits of a transaction, the Instructions sysvar data built for it,
and the code of all programs. -/
structure Runtime extends SvmEnv where
  parseDetails : ResolvedTransaction → Except TransactionError TransactionDetails
  constructInstructionsData : ResolvedTransaction → Option (List UInt8)
  schedule : ResolvedTransaction → List OwnedAccount → ProgramCacheForTxBatch → List Action

/-- What executors and simulator share: the account store and the program cache. -/
@[ext]
structure EngineState where
  accounts : Pubkey → Option OwnedAccount
  programCache : ProgramCache

/-- What an execution reports: the programs it ran with and where it ended. -/
structure ExecutedTransaction where
  programs : ProgramCacheForTxBatch
  processing : Processing
  accessIsValid : Bool

namespace Runtime

def transactionAccountBaseSize : Nat := 64

def loadTransactionAccount (rt : Runtime) (e : EngineState) (tx : ResolvedTransaction) (key : Pubkey) :
    Except TransactionError OwnedAccount :=
  if key = instructionsSysvarId then
    match rt.constructInstructionsData tx with
    | none => .error .maxLoadedAccountsDataSizeExceeded
    | some data => .ok { core := { owner := sysvarOwnerId }, data }
  else .ok ((e.accounts key).getD {})

/-- The size charged for the loaded accounts; the Instructions sysvar is free. -/
def loadedSize (tx : ResolvedTransaction) (accounts : List OwnedAccount) : Nat :=
  ((tx.staticAccountKeys.zip accounts).map fun (key, a) =>
    if key = instructionsSysvarId then 0 else transactionAccountBaseSize + a.data.length).sum

/-- Every invoked program must exist and be owned by a loader. -/
def checkPrograms (e : EngineState) (tx : ResolvedTransaction) : List CompiledInstruction → Except TransactionError Unit
  | [] => .ok ()
  | instruction :: rest =>
    match (tx.staticAccountKeys[instruction.programIdIndex]?).bind e.accounts with
    | none => .error .programAccountNotFound
    | some program =>
      if programOwners.contains program.core.owner then checkPrograms e tx rest else .error .invalidProgramForExecution

def loadTransaction (rt : Runtime) (e : EngineState) (tx : ResolvedTransaction) (details : TransactionDetails) :
    Except TransactionError (List OwnedAccount) := do
  let accounts ← tx.staticAccountKeys.mapM (rt.loadTransactionAccount e tx)
  if details.loadedAccountsBytesLimit < loadedSize tx accounts then .error .maxLoadedAccountsDataSizeExceeded
  else
    checkPrograms e tx tx.instructions
    return accounts

/-- Whether a loaded account is a program the SVM can run. -/
def isProgram (a : OwnedAccount) : Bool := a.core.flags.executable && programOwners.contains a.core.owner

/-- `load_program`: data that fails verification is kept as such. -/
def loadProgram (rt : Runtime) (a : OwnedAccount) : ProgramCacheEntry :=
  (rt.newEntry a.data).getD (.failedVerification rt.environment)

/-- `replenish_program_cache`: programs missing from the shared cache are loaded and assigned to it. -/
def replenishProgramCache (rt : Runtime) : List (Pubkey × OwnedAccount) → ProgramCache → ProgramCacheForTxBatch →
    ProgramCache × ProgramCacheForTxBatch
  | [], cache, batch => (cache, batch)
  | (key, a) :: rest, cache, batch =>
    if isProgram a then
      match cache.get key with
      | some entry => replenishProgramCache rt rest cache (batch.replenish key entry)
      | none =>
        let entry := rt.loadProgram a
        replenishProgramCache rt rest (cache.assignProgram key entry) (batch.replenish key entry)
    else replenishProgramCache rt rest cache batch

def startProcessing (tx : ResolvedTransaction) (details : TransactionDetails) (accounts : List OwnedAccount)
    (batch : ProgramCacheForTxBatch) : Processing :=
  .init tx accounts (details.maxInstructionStackDepth, details.maxInstructionTraceLength) batch

/-- The rest of `load_and_execute_sanitized_transaction`, once the accounts are loaded. -/
def executeLoaded (rt : Runtime) (cache : ProgramCache) (tx : ResolvedTransaction) (details : TransactionDetails)
    (accounts : List OwnedAccount) : ProgramCache × ExecutedTransaction :=
  let (cache, batch) := rt.replenishProgramCache (tx.staticAccountKeys.zip accounts) cache ⟨fun _ => none, fun _ => none⟩
  let start := startProcessing tx details accounts batch
  let processing := start.run rt.toSvmEnv tx (rt.schedule tx accounts batch)
  let accessIsValid := processing.accessIsValid rt.toSvmEnv tx start.ctx.accounts
  let cache := if accessIsValid then cache.merge processing.ctx.programCache.modifiedEntries else cache
  (cache, { programs := batch, processing, accessIsValid })

def process (rt : Runtime) (e : EngineState) (tx : ResolvedTransaction) :
    ProgramCache × Except TransactionError ExecutedTransaction :=
  match rt.parseDetails tx with
  | .error err => (e.programCache, .error err)
  | .ok details =>
    match rt.loadTransaction e tx details with
    | .error err => (e.programCache, .error err)
    | .ok accounts =>
      let (cache, executed) := rt.executeLoaded e.programCache tx details accounts
      (cache, .ok executed)

/-- The store after `AccountsDB::commit`: closed accounts are removed. -/
def commitAccounts (tx : ResolvedTransaction) (db : Pubkey → Option OwnedAccount) :
    List (Nat × AccountSharedData) → Pubkey → Option OwnedAccount
  | [] => db
  | (i, a) :: rest =>
    match tx.staticAccountKeys[i]? with
    | none => commitAccounts tx db rest
    | some key =>
      commitAccounts tx (Function.update db key (if a.mode = .closed then none else some a.account)) rest

/-- `TransactionSimulator::process` leaves the store alone. -/
def simulate (rt : Runtime) (e : EngineState) (tx : ResolvedTransaction) : EngineState :=
  { e with programCache := (rt.process e tx).1 }

/-- `TransactionExecutor::process`: commit the changed accounts of a successful result. -/
def execute (rt : Runtime) (e : EngineState) (tx : ResolvedTransaction) :
    EngineState × Except TransactionError ExecutedTransaction :=
  let (programCache, result) := rt.process e tx
  let accounts := match result with
    | .error _ => e.accounts
    | .ok executed =>
      if executed.accessIsValid then
        commitAccounts tx e.accounts (tx.committed executed.processing.ctx.accounts)
      else e.accounts
  ({ accounts, programCache }, result)

def executeAll (rt : Runtime) : EngineState → List ResolvedTransaction →
    EngineState × List (Except TransactionError ExecutedTransaction)
  | e, [] => (e, [])
  | e, tx :: rest =>
    let (e, result) := rt.execute e tx
    let (e, results) := rt.executeAll e rest
    (e, result :: results)

end Runtime

end MagicEngine
