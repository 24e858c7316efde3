import MagicEngine.Account.Shared
import MagicEngine.Svm.Preparation

/-!
# The invocation context

The transaction context and the invocation context the programs of one transaction run in
(`solana/transaction-context` and `solana/program-runtime/src/invoke_context.rs`): the loaded accounts, the
instruction trace and stack, the batch-local program cache, and how an instruction is configured, pushed and popped.

Instruction accounts, deduplication maps, data and frames are separate vectors, as in the source: an instruction reads
the entries at its index in the trace. A push records its frame before the depth check, and the stack has grown when the
Instructions sysvar is updated, so a push that fails may leave either behind.
-/

namespace MagicEngine

def maxAccountDataLen : Nat := 10 * 1024 * 1024

def maxAccountDataGrowthPerTransaction : Int := 2 * maxAccountDataLen

def maxCpiTraceLength : Nat := 64

/-- A cached program. A loaded executable is determined by its ELF bytes and the runtime environment it was
verified for. -/
inductive ProgramCacheEntry where
  | failedVerification (environment : Nat)
  | closed
  | unloaded (environment : Nat)
  | loaded (environment : Nat) (elf : List UInt8)
  | builtin
deriving DecidableEq, Repr

def ProgramCacheEntry.isExecutable : ProgramCacheEntry → Bool
  | .builtin | .loaded _ _ => true
  | _ => false

structure ProgramCacheForTxBatch where
  entries : Pubkey → Option ProgramCacheEntry
  modifiedEntries : Pubkey → Option ProgramCacheEntry

namespace ProgramCacheForTxBatch

def replenish (cache : ProgramCacheForTxBatch) (key : Pubkey) (entry : ProgramCacheEntry) : ProgramCacheForTxBatch :=
  { cache with entries := Function.update cache.entries key (some entry) }

def storeModifiedEntry (cache : ProgramCacheForTxBatch) (key : Pubkey) (entry : ProgramCacheEntry) :
    ProgramCacheForTxBatch :=
  { cache with modifiedEntries := Function.update cache.modifiedEntries key (some entry) }

def find (cache : ProgramCacheForTxBatch) (key : Pubkey) : Option ProgramCacheEntry :=
  (cache.modifiedEntries key).or (cache.entries key)

end ProgramCacheForTxBatch

/-- A frame of the instruction trace; `u16::MAX` is the caller of a top-level instruction. -/
structure InstructionFrame where
  programIndex : Nat := 0
  nestingLevel : Nat := 0
  callerIndex : Nat := 65535
deriving DecidableEq, Repr

/-- The caller that `native_invoke_as` attributes the frame at this height to. -/
structure NativeCaller where
  programId : Pubkey
  stackHeight : Nat
deriving DecidableEq, Repr

/-- What `configure_instruction_at_index` is given. -/
structure Configuration where
  programIndex : Nat
  accounts : List InstructionAccount
  dedupMap : List Nat
  data : List UInt8
  caller : Option Nat
deriving DecidableEq, Repr

structure InvokeContext where
  keys : List Pubkey
  accounts : List AccountSharedData
  stackCapacity : Nat
  traceCapacity : Nat
  /-- Indices into the trace, innermost instruction first. -/
  stack : List Nat
  trace : List InstructionFrame
  instructionAccounts : List (List InstructionAccount)
  deduplicationMaps : List (List Nat)
  instructionData : List (List UInt8)
  totalInstructions : Nat
  cpis : Nat
  nextTopLevel : Nat
  resizeDelta : Int
  lamportsDelta : Int
  programCache : ProgramCacheForTxBatch
  magicRoot : Option Nat
  nativeCaller : Option NativeCaller
  /-- The accounts that running programs hold borrowed. -/
  borrowed : List Nat
  /-- The heights of the runtime's stacks of syscall and of memory contexts. -/
  syscallContexts : Nat
  memoryContexts : Nat

/-- The context after a call and the call's result; a failed call may leave partial effects. -/
abbrev CallResult := InvokeContext × Except InstructionError Unit

namespace InvokeContext

/-- `TransactionContext::new` followed by `InvokeContext::new`. -/
def new (keys : List Pubkey) (accounts : List AccountSharedData) (stackCapacity traceCapacity topLevel : Nat)
    (programCache : ProgramCacheForTxBatch) : InvokeContext :=
  { keys, accounts, stackCapacity, traceCapacity, stack := [], trace := [{}], instructionAccounts := []
    deduplicationMaps := [], instructionData := [], totalInstructions := topLevel, cpis := 0, nextTopLevel := 0
    resizeDelta := 0, lamportsDelta := 0, programCache, magicRoot := none, nativeCaller := none, borrowed := []
    syscallContexts := 0, memoryContexts := 0 }

def stackHeight (ctx : InvokeContext) : Nat := ctx.stack.length

/-- The trace length does not count the frame reserved for the next instruction. -/
def traceLength (ctx : InvokeContext) : Nat := ctx.trace.length - 1

def currentIndex (ctx : InvokeContext) : Option Nat := ctx.stack.head?

def frameAt (ctx : InvokeContext) (index : Nat) : InstructionFrame := ctx.trace.getD index {}

/-- The instruction accounts of the instruction at `index`; empty when not configured yet. -/
def accountsAt (ctx : InvokeContext) (index : Nat) : List InstructionAccount := ctx.instructionAccounts.getD index []

def dataAt (ctx : InvokeContext) (index : Nat) : List UInt8 := ctx.instructionData.getD index []

def preparedAt (ctx : InvokeContext) (index : Nat) : PreparedInstruction :=
  ⟨ctx.accountsAt index, ctx.deduplicationMaps.getD index []⟩

def programKeyAt (ctx : InvokeContext) (index : Nat) : Option Pubkey := ctx.keys[(ctx.frameAt index).programIndex]?

def findIndexOfAccount (ctx : InvokeContext) (key : Pubkey) : Option Nat := ctx.keys.findIdx? (· == key)

def setAccount (ctx : InvokeContext) (index : Nat) (a : AccountSharedData) : InvokeContext :=
  { ctx with accounts := ctx.accounts.set index a }

/-! ### Preparing an instruction -/

/-- `configure_instruction_at_index` at the reserved frame. -/
def configureNext (ctx : InvokeContext) (conf : Configuration) : InvokeContext :=
  { ctx with
    trace := ctx.trace.modify ctx.traceLength fun frame =>
      { frame with programIndex := conf.programIndex, callerIndex := conf.caller.getD frame.callerIndex }
    instructionAccounts := ctx.instructionAccounts ++ [conf.accounts]
    deduplicationMaps := ctx.deduplicationMaps ++ [conf.dedupMap]
    instructionData := ctx.instructionData ++ [conf.data] }

/-- `prepare_next_top_level_instruction` up to the configuration of the frame: a top-level instruction takes its flags
from the message. -/
def prepareNextTopLevelInstruction (tx : ResolvedTransaction) (instruction : CompiledInstruction) :
    Except PreparationError Configuration := do
  let p ← PreparedInstruction.prepareTopLevel tx instruction
  .ok ⟨instruction.programIdIndex, p.accounts, p.dedupMap, instruction.data, none⟩

/-- `prepare_next_cpi_instruction` up to the configuration of the frame: the callee gets at most the privileges of its
caller, plus the signers the caller vouches for. -/
def prepareNextCpiInstruction (ctx : InvokeContext) (instruction : Instruction) (signers : List Pubkey) :
    Except PreparationError Configuration :=
  match ctx.currentIndex with
  | none => .error (.error .callDepth)
  | some current => do
    let p ← PreparedInstruction.prepareCpi ctx.keys (ctx.preparedAt current) instruction signers
    match ctx.findIndexOfAccount instruction.programId with
    | none => .error (.error .missingAccount)
    | some programIndex => .ok ⟨programIndex, p.accounts, p.dedupMap, instruction.data, some current⟩

/-! ### Starting and ending an instruction -/

/-- `store_current_index_checked` on the Instructions sysvar: the last two bytes hold the index of the current
top-level instruction, little-endian. Borrowing the bytes marks the data before the length check. -/
def storeCurrentIndex (a : AccountSharedData) (index : Nat) : AccountSharedData × Except InstructionError Unit :=
  if a.data.length < 2 then (a.withData a.data, .error .accountDataTooSmall)
  else
    let bytes := [UInt8.ofNat index, UInt8.ofNat (index / 256)]
    (a.withData (a.data.take (a.data.length - 2) ++ bytes), .ok ())

/-- The end of `TransactionContext::push`: note the current instruction in the Instructions sysvar, when the
transaction lists it. -/
def noteCurrentInstruction (ctx : InvokeContext) (topLevel : Nat) : CallResult :=
  match ctx.findIndexOfAccount instructionsSysvarId with
  | none => (ctx, .ok ())
  | some index =>
    match ctx.accounts[index]? with
    | none => (ctx, .error .missingAccount)
    | some a =>
      if ctx.borrowed.contains index then (ctx, .error .accountBorrowFailed)
      else if a.owner ≠ sysvarOwnerId then (ctx, .error .invalidAccountOwner)
      else
        let (a, result) := storeCurrentIndex a topLevel
        (ctx.setAccount index a, result)

/-- `TransactionContext::push`. The trace grows before the depth check. -/
def pushFrame (ctx : InvokeContext) : CallResult :=
  let isCpi := !ctx.stack.isEmpty
  let index := ctx.traceLength
  if isCpi && ctx.lamportsDelta ≠ 0 then (ctx, .error .unbalancedInstruction)
  else if ctx.traceCapacity ≤ index then (ctx, .error .maxInstructionTraceLengthExceeded)
  else if isCpi && (maxCpiTraceLength ≤ ctx.cpis || ctx.traceCapacity ≤ ctx.totalInstructions) then
    (ctx, .error .maxInstructionTraceLengthExceeded)
  else
    let level := ctx.stackHeight
    let topLevel := if isCpi then ctx.nextTopLevel - 1 else ctx.nextTopLevel
    let ctx :=
      { ctx with
        trace := (ctx.trace.modify index fun frame => { frame with nestingLevel := level }) ++ [{}]
        totalInstructions := if isCpi then ctx.totalInstructions + 1 else ctx.totalInstructions
        cpis := if isCpi then ctx.cpis + 1 else ctx.cpis
        nextTopLevel := if isCpi then ctx.nextTopLevel else ctx.nextTopLevel + 1 }
    if ctx.stackCapacity ≤ level then (ctx, .error .callDepth)
    else noteCurrentInstruction { ctx with stack := index :: ctx.stack } topLevel

/-- `InvokeContext::push`: no reentrancy except a program calling itself directly. The stacks of the runtime grow after
the transaction context has accepted the frame. -/
def push (ctx : InvokeContext) : CallResult :=
  match ctx.programKeyAt ctx.traceLength with
  | none => (ctx, .error .unsupportedProgramId)
  | some program =>
    let running := ctx.stack.map ctx.programKeyAt
    if running.contains (some program) && running.head? ≠ some (some program) then
      (ctx, .error .reentrancyNotAllowed)
    else
      match ctx.pushFrame with
      | (ctx, .error e) => (ctx, .error e)
      | (ctx, .ok ()) =>
        ({ ctx with syscallContexts := ctx.syscallContexts + 1, memoryContexts := ctx.memoryContexts + 1 }, .ok ())

/-- What `TransactionContext::pop` finds wrong with the frame it leaves: its program account is still borrowed, or its
lamport changes do not cancel out. -/
def popResult (ctx : InvokeContext) (index : Nat) : Except InstructionError Unit :=
  let programIndex := (ctx.frameAt index).programIndex
  if ctx.accounts.length ≤ programIndex then .error .missingAccount
  else if ctx.borrowed.contains programIndex then .error .accountBorrowOutstanding
  else if ctx.lamportsDelta ≠ 0 then .error .unbalancedInstruction
  else .ok ()

/-- `InvokeContext::pop`: always leaves the frame. -/
def pop (ctx : InvokeContext) : CallResult :=
  ({ ctx with
      stack := ctx.stack.tail
      syscallContexts := ctx.syscallContexts - 1
      memoryContexts := ctx.memoryContexts - 1 },
    match ctx.stack with
    | [] => .error .callDepth
    | index :: _ => ctx.popResult index)

end InvokeContext

/-- How a program invokes another one; a CPI of an SBF program is `signed`. -/
inductive CallKind where
  | signed (signers : List Pubkey)
  | magicRoot
  | as (sourceProgram : Pubkey) (signers : List Pubkey)
deriving DecidableEq, Repr

def CallKind.signers : CallKind → List Pubkey
  | .signed signers | .as _ signers => signers
  | .magicRoot => []

namespace InvokeContext

/-- MagicRoot's authorization and the attributed caller. -/
def scopes (ctx : InvokeContext) : Option Nat × Option NativeCaller := (ctx.magicRoot, ctx.nativeCaller)

/-- The scope that an invocation opens for its child. Preparing the child does not change the height. -/
def enterScope (ctx : InvokeContext) (kind : CallKind) : InvokeContext :=
  match kind with
  | .signed _ => ctx
  | .magicRoot => { ctx with magicRoot := some ctx.traceLength }
  | .as sourceProgram _ => { ctx with nativeCaller := some ⟨sourceProgram, ctx.stackHeight + 1⟩ }

/-- After the child, the field that was replaced is put back. -/
def leaveScope (ctx : InvokeContext) (kind : CallKind) (saved : Option Nat × Option NativeCaller) : InvokeContext :=
  match kind with
  | .signed _ => ctx
  | .magicRoot => { ctx with magicRoot := saved.1 }
  | .as _ _ => { ctx with nativeCaller := saved.2 }

/-- `effective_caller`: scoped provenance applies only to the direct child frame. -/
def effectiveCaller (ctx : InvokeContext) : Except InstructionError (Option Pubkey) :=
  match ctx.nativeCaller.filter (·.stackHeight = ctx.stackHeight) with
  | some caller => .ok (some caller.programId)
  | none =>
    if ctx.stackHeight < 2 then .ok none
    else
      -- nesting level `stackHeight - 2`, counted from the innermost frame
      match ctx.stack[1]?.bind ctx.programKeyAt with
      | some key => .ok (some key)
      | none => .error .callDepth

end InvokeContext

end MagicEngine
