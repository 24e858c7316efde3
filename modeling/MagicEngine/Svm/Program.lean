import MagicEngine.Svm.InvokeContext

/-!
# What programs can do

The actions an executing program can take on the invocation context: the setters of
`BorrowedInstructionAccount` (`solana/transaction-context/src/instruction_accounts.rs`), stores of its virtual
machine into mapped account data, invocations and its return; and the MagicRoot builtin
(`programs/magic-root-program`), which reaches the transaction's accounts without those setters.

A program is arbitrary code, so an execution of a transaction is a sequence of actions. Each action is carried
out with the checks of the source; a failed action leaves what the source leaves. Account borrows are taken and released
within one action, so the borrow counters matter only where one action borrows two accounts.
-/

namespace MagicEngine

inductive MagicRootInstruction where
  | patch (patch : AccountFieldPatch)
  | finalize (flags : StateFlags)
  | delete
  | postFinalize (sourceProgram : Pubkey) (actions : List Instruction)
  | nonce (value : UInt64)
  | compareAndPatch (expected : OwnedAccount) (patch : AccountFieldPatch)
deriving DecidableEq, Repr

/-- What execution takes from outside the repository: the authority of the node, the current runtime
environment with the ELF loader and verifier, the instruction decoder, and the rent exemption rule. -/
structure SvmEnv where
  authority : Pubkey
  environment : Nat
  verify : Nat → List UInt8 → Bool
  decode : List UInt8 → Option MagicRootInstruction
  isExempt : UInt64 → Nat → Bool
  /-- `TransactionAccountStateInfo::verify_changes` on the accounts before and after. -/
  rentStateVerified : List AccountSharedData → List AccountSharedData → Bool
  isPrecompile : Pubkey → Bool
  processPrecompile : Pubkey → List UInt8 → List (List UInt8) → Bool

def SvmEnv.newEntry (env : SvmEnv) (elf : List UInt8) : Option ProgramCacheEntry :=
  if env.verify env.environment elf then some (.loaded env.environment elf) else none

namespace InvokeContext

/-! ### Instruction accounts -/

structure Borrowed where
  index : Nat
  account : AccountSharedData
  isWritable : Bool
  ownedByProgram : Bool

/-- `try_borrow_instruction_account` on the current instruction. -/
def borrow (ctx : InvokeContext) (i : Nat) : Except InstructionError Borrowed :=
  match ctx.currentIndex with
  | none => .error .callDepth
  | some current =>
    match (ctx.accountsAt current)[i]? with
    | none => .error .missingAccount
    | some ia =>
      match ctx.accounts[ia.indexInTransaction]? with
      | none => .error .missingAccount
      | some account =>
        .ok { index := ia.indexInTransaction, account, isWritable := ia.isWritable
              ownedByProgram := ctx.programKeyAt current == some account.owner }

namespace Borrowed

/-- Current write access, regardless of the markers. -/
def checkMutable (b : Borrowed) : Except InstructionError Unit :=
  require b.account.mode.isWritable .immutable

def canDataBeChanged (b : Borrowed) : Except InstructionError Unit := do
  require b.isWritable .readonlyDataModified
  require b.ownedByProgram .externalAccountDataModified
  b.checkMutable

def fitsGrowth (ctx : InvokeContext) (oldLen newLen : Nat) : Except InstructionError Unit := do
  require (newLen ≤ maxAccountDataLen) .invalidRealloc
  require (ctx.resizeDelta + ((newLen : Int) - oldLen) ≤ maxAccountDataGrowthPerTransaction)
    .maxAccountsDataAllocationsExceeded

/-- Only the owner resizes; `Magic` accounts are resized by MagicRoot alone. -/
def canDataBeResized (ctx : InvokeContext) (b : Borrowed) (newLen : Nat) : Except InstructionError Unit := do
  let oldLen := b.account.data.length
  require (newLen = oldLen ∨ b.ownedByProgram) .accountDataSizeChanged
  require (newLen = oldLen ∨ b.account.mode ≠ .magic) .invalidRealloc
  fitsGrowth ctx oldLen newLen
  b.canDataBeChanged

end Borrowed

/-- What a program may do with one of its instruction accounts. -/
inductive AccountAction where
  | setOwner (owner : Pubkey)
  | setLamports (lamports : UInt64)
  | getDataMut (data : List UInt8)
  | setDataFromSlice (data : List UInt8)
  | setDataLength (len : Nat)
  | extendFromSlice (data : List UInt8)
  | setExecutable (executable : Bool)
deriving DecidableEq, Repr

/-- The checks of a setter and the account it leaves; `none` when the account stays untouched. `getDataMut`
hands out the bytes in place, so what the program writes there has the same length. -/
def AccountAction.attempt (env : SvmEnv) (ctx : InvokeContext) (b : Borrowed) :
    AccountAction → Except InstructionError (Option AccountSharedData)
  | .setOwner owner => do
    require (b.ownedByProgram ∧ b.isWritable) .modifiedProgramId
    require (b.account.data.all (· == 0)) .modifiedProgramId
    if b.account.owner = owner then return none
    else
      b.checkMutable
      return some (b.account.copyIntoOwner owner)
  | .setLamports lamports => do
    require (b.ownedByProgram ∨ b.account.lamports ≤ lamports) .externalAccountLamportSpend
    require b.isWritable .readonlyLamportChange
    if b.account.lamports = lamports then return none
    else
      b.checkMutable
      return some (b.account.setLamports lamports)
  | .getDataMut data => do
    b.canDataBeChanged
    return some (b.account.withData (data.take b.account.data.length ++ b.account.data.drop data.length))
  | .setDataFromSlice data => do
    b.canDataBeResized ctx data.length
    return some (b.account.setDataFromSlice data)
  | .setDataLength len => do
    b.canDataBeResized ctx len
    return if b.account.data.length = len then none else some (b.account.resize len 0)
  | .extendFromSlice data => do
    b.canDataBeResized ctx (b.account.data.length + data.length)
    return if data.isEmpty then none else some (b.account.extendFromSlice data)
  | .setExecutable executable => do
    require (env.isExempt b.account.lamports b.account.data.length) .executableAccountNotRentExempt
    require (b.ownedByProgram ∧ b.isWritable) .executableModified
    if b.account.executable = executable then return none
    else
      b.checkMutable
      return some (b.account.setExecutable executable)

/-- Store a changed account and account for its lamport and size changes. -/
def commitChange (ctx : InvokeContext) (b : Borrowed) (a : AccountSharedData) : InvokeContext :=
  { ctx.setAccount b.index a with
    lamportsDelta := ctx.lamportsDelta + ((a.lamports.toNat : Int) - b.account.lamports.toNat)
    resizeDelta := ctx.resizeDelta + ((a.data.length : Int) - b.account.data.length) }

/-- A setter call of the current program on its instruction account `i`. -/
def accountAction (env : SvmEnv) (i : Nat) (action : AccountAction) (ctx : InvokeContext) : CallResult :=
  match ctx.borrow i with
  | .error e => (ctx, .error e)
  | .ok b =>
    match action.attempt env ctx b with
    | .error e => (ctx, .error e)
    | .ok none => (ctx, .ok ())
    | .ok (some a) => (ctx.commitChange b a, .ok ())

/-! ### Stores of the virtual machine -/

/-- `create_memory_region_of_account`, at the start of a program and after each of its CPIs: the region of an
account the program may change carries the account's index. An unshared account is also borrowed with
`get_data_mut` at this point, which is an action of its own here. -/
def mapRegion (i : Nat) (ctx : InvokeContext) (mapped : List Nat) : List Nat :=
  match ctx.borrow i with
  | .error _ => mapped
  | .ok b => if b.canDataBeChanged.isOk then b.index :: mapped else mapped.filter (· ≠ b.index)

/-- A store into the data region of account `index`, as the access violation handler resolves it: only the
payload of the region is consulted, and a store past the end resizes the account first. -/
def storeRegion (mapped : List Nat) (index offset : Nat) (bytes : List UInt8) (ctx : InvokeContext) : CallResult :=
  match ctx.accounts[index]? with
  | some a =>
    let requested := offset + bytes.length
    if index ∉ mapped then (ctx, .error .readonlyDataModified)
    else if a.data.length < requested ∧
        (¬(Borrowed.fitsGrowth ctx a.data.length requested).isOk ∨ a.mode = .magic) then
      (ctx, .error .invalidRealloc)
    else
      ({ ctx.setAccount index (a.setDataAt offset bytes) with
         resizeDelta := ctx.resizeDelta + ((requested - a.data.length : Nat) : Int) }, .ok ())
  | none => (ctx, .error .missingAccount)

/-! ### MagicRoot -/

/-- `authorize`: top level, or a builtin's explicitly authorized child; account 0 is the authority. -/
def authorize (env : SvmEnv) (ctx : InvokeContext) : Except InstructionError Unit := do
  let current := ctx.currentIndex
  let caller := current.bind fun index => ctx.programKeyAt (ctx.frameAt index).callerIndex
  let topLevel := ctx.stackHeight = 1
  require (topLevel ∨ caller ≠ some magicRootId) .callDepth
  require (topLevel ∨ caller.bind ctx.programCache.find = some .builtin) .callDepth
  require (topLevel ∨ (ctx.magicRoot.isSome ∧ ctx.magicRoot = current)) .missingRequiredSignature
  require (ctx.keys.head? = some env.authority) .missingRequiredSignature

/-- The data length a patch leaves behind, when it names one. -/
def patchedLength (a : AccountSharedData) : AccountFieldPatch → Option Nat
  | .dataAt offset data => some (max a.data.length (offset + data.length))
  | .dataLen len => some len
  | _ => none

/-- The balancing entry on account 0 after the target's lamports went from `old` to `new`. -/
def balance (authority : AccountSharedData) (old new : UInt64) : Option AccountSharedData :=
  if old < new then authority.checkedSubLamports (new - old)
  else if new < old then authority.checkedAddLamports (old - new)
  else some authority

/-- The end of `account::patch`: balance the target's lamports against account 0. The target is still borrowed, so
patching account 0 itself fails after the patch has been applied. -/
def settle (target : Nat) (old new : UInt64) (ctx : InvokeContext) : CallResult :=
  if target = 0 then (ctx, .error .accountBorrowFailed)
  else
    match ctx.accounts[0]? with
    | none => (ctx, .error .missingAccount)
    | some authority =>
      match balance authority old new with
      | none => (ctx, .error .arithmeticOverflow)
      | some authority => (ctx.setAccount 0 authority, .ok ())

def patch (target : Nat) (p : AccountFieldPatch) (ctx : InvokeContext) : CallResult :=
  match ctx.accounts[target]? with
  | none => (ctx, .error .missingAccount)
  | some a =>
    if (patchedLength a p).any (maxAccountDataLen < ·) then (ctx, .error .invalidRealloc)
    else
      match p.apply a with
      | .error _ => (ctx, .error .invalidArgument)
      | .ok a' => (ctx.setAccount target a').settle target a.lamports a'.lamports

/-- `account::finalize`: set the flags and load an executable target into the transaction's program cache. -/
def finalize (env : SvmEnv) (target : Nat) (flags : StateFlags) (ctx : InvokeContext) : CallResult :=
  match ctx.accounts[target]?, ctx.keys[target]? with
  | some a, some key =>
    let a := a.setFlags flags
    let ctx := ctx.setAccount target a
    if !a.executable then (ctx, .ok ())
    else
      match env.newEntry a.data with
      | none => (ctx, .error .programEnvironmentSetupFailure)
      | some entry => ({ ctx with programCache := ctx.programCache.storeModifiedEntry key entry }, .ok ())
  | _, _ => (ctx, .error .missingAccount)

/-- `account::delete`: close the target in place, at its own slot. -/
def delete (target : Nat) (ctx : InvokeContext) : CallResult :=
  match ctx.accounts[target]?, ctx.keys[target]? with
  | some a, some key =>
    match a.setLifecycle .closed a.core.slot with
    | .error _ => (ctx, .error .invalidArgument)
    | .ok a' =>
      let ctx := ctx.setAccount target a'
      if a'.executable then
        ({ ctx with programCache := ctx.programCache.storeModifiedEntry key .closed }, .ok ())
      else (ctx, .ok ())
  | _, _ => (ctx, .error .missingAccount)

/-- The final check of `post_finalize`: writable instruction accounts must be writable back. -/
def writableAccountsCanWriteback (ctx : InvokeContext) : Except InstructionError Unit :=
  let accounts := (ctx.currentIndex.map ctx.accountsAt).getD []
  if accounts.any fun ia => ia.isWritable && !((ctx.accounts[ia.indexInTransaction]?).any (·.canWriteback)) then
    .error .immutable
  else .ok ()

def magicRootTarget (ctx : InvokeContext) : Option Nat :=
  (ctx.currentIndex.bind fun current => (ctx.accountsAt current)[0]?).map (·.indexInTransaction)

/-- What a MagicRoot instruction decodes to once it is authorized. -/
def magicRootInstruction (env : SvmEnv) (ctx : InvokeContext) : Except InstructionError MagicRootInstruction := do
  ctx.authorize env
  match ctx.currentIndex.bind fun current => env.decode (ctx.dataAt current) with
  | none => .error .invalidInstructionData
  | some instruction => .ok instruction

/-- `dispatch`, for the instructions that invoke nothing; `post_finalize` runs through its actions. -/
def dispatch (env : SvmEnv) (target : Nat) (instruction : MagicRootInstruction) (ctx : InvokeContext) : CallResult :=
  match instruction with
  | .patch p => ctx.patch target p
  | .finalize flags => ctx.finalize env target flags
  | .delete => ctx.delete target
  | .postFinalize _ _ => (ctx, .ok ())
  | .nonce _ => (ctx, .ok ())
  | .compareAndPatch expected p =>
    match ctx.accounts[target]? with
    | none => (ctx, .error .missingAccount)
    | some a => if a.account ≠ expected then (ctx, .error (.custom 0)) else ctx.patch target p

end InvokeContext

end MagicEngine
