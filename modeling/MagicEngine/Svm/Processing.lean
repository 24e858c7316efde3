import MagicEngine.Svm.Program

/-!
# Processing a transaction

`process_message` over an arbitrary schedule of program actions, the verdict on the result
(`execute_loaded_transaction`, `access_is_valid`) and the accounts a successful result commits
(`commit_state_transitions` in `keeper/src/accessor.rs`).

Programs are arbitrary code: which action comes next is not constrained, except that a MagicRoot frame only
runs the MagicRoot processor and every other frame only the actions open to programs. Actions that do not fit
the current state do nothing.
-/

namespace MagicEngine

/-- One step of the transaction: the next top-level instruction, or an action of the running program. -/
inductive Action where
  | topLevel
  | account (index : Nat) (action : InvokeContext.AccountAction)
  | mapRegion (index : Nat)
  | storeRegion (index offset : Nat) (bytes : List UInt8)
  | invoke (kind : CallKind) (instruction : Instruction)
  | exit (result : Except InstructionError Unit)
  | magicRoot
deriving DecidableEq, Repr

/-- A running program: its code, the account data regions its VM may write, the follow-up actions a MagicRoot instruction
has yet to invoke and the program they are attributed to (none before it is dispatched), and how it was invoked, with the
scopes to put back when it returns. -/
structure ProgramState where
  program : Pubkey
  entry : ProgramCacheEntry
  mapped : List Nat := []
  actions : Option (Pubkey × List Instruction) := none
  kind : CallKind := .signed []
  saved : Option Nat × Option NativeCaller := (none, none)
deriving DecidableEq, Repr

def ProgramState.isMagicRoot (p : ProgramState) : Bool := p.program == magicRootId && p.entry == .builtin

/-- A transaction being processed: the running programs, the innermost first, how many top-level instructions were
started, and the error that ended it. A frame that a failed push has left on the stack belongs to no running program. -/
structure Processing where
  ctx : InvokeContext
  programs : List ProgramState := []
  started : Nat := 0
  error : Option InstructionError := none

namespace InvokeContext

/-- The checks `process_executable_chain` makes before it runs the program of the current instruction: a loader owns its
account and the cache holds code for it. -/
def executable (ctx : InvokeContext) : Option (Pubkey × ProgramCacheEntry) := do
  let index ← ctx.currentIndex
  let a ← ctx.accounts[(ctx.frameAt index).programIndex]?
  let key ← ctx.programKeyAt index
  let entry ← ctx.programCache.find key
  if programOwners.contains a.owner ∧ entry.isExecutable then some (key, entry) else none

/-- The signers of a follow-up action are those its metas name. -/
def actionSigners (instruction : Instruction) : List Pubkey :=
  instruction.accounts.filterMap fun m => if m.isSigner then some m.pubkey else none

end InvokeContext

namespace Processing

/-- The running program returns with `result.and(pop)`, and the scope of its invocation is left. A failed child ends the
MagicRoot instruction that called it, and an error that no program is left to handle ends the transaction. -/
def leave (s : Processing) : List ProgramState → InvokeContext → Except InstructionError Unit → Processing
  | [], ctx, result =>
    { s with
      ctx, programs := []
      error := match result with
        | .error e => some e
        | .ok () => none }
  | p :: callers, ctx, result =>
    let left := ctx.pop.1.leaveScope p.kind p.saved
    match result.bind fun _ => ctx.pop.2 with
    | .ok () => { s with ctx := left, programs := callers }
    | .error e =>
      if callers.head?.all (·.isMagicRoot) then s.leave callers left (.error e)
      else { s with ctx := left, programs := callers }

/-- What popping frames and leaving scopes keep, returning programs keep. -/
theorem leave_keeps {α : Type} (s : Processing) (f : InvokeContext → α) (hpop : ∀ ctx : InvokeContext, f ctx.pop.1 = f ctx)
    (hscope : ∀ (ctx : InvokeContext) (kind : CallKind) (saved : Option Nat × Option NativeCaller),
      f (ctx.leaveScope kind saved) = f ctx) (programs : List ProgramState) (ctx : InvokeContext)
    (result : Except InstructionError Unit) : f (s.leave programs ctx result).ctx = f ctx := by
  induction programs generalizing ctx result with
  | nil => rfl
  | cons p callers ih =>
    have hleft : f (ctx.pop.1.leaveScope p.kind p.saved) = f ctx := (hscope _ _ _).trans (hpop ctx)
    unfold leave
    dsimp only
    repeat' split
    · exact hleft
    · exact (ih _ _).trans hleft
    · exact hleft

/-- `process_instruction` up to the first action of the program: push the configured frame; a program that cannot run is
popped again. -/
def start (s : Processing) (ctx : InvokeContext) (kind : CallKind) (saved : Option Nat × Option NativeCaller) :
    Processing × Except InstructionError Unit :=
  match ctx.push with
  | (ctx, .error e) => ({ s with ctx := ctx.leaveScope kind saved }, .error e)
  | (ctx, .ok ()) =>
    match ctx.executable with
    | none => ({ s with ctx := ctx.pop.1.leaveScope kind saved }, .error .unsupportedProgramId)
    | some (program, entry) =>
      ({ s with ctx, programs := { program, entry, kind, saved } :: s.programs }, .ok ())

/-- `native_invoke_signed`, a program's CPI, `native_invoke_magic_root` and `native_invoke_as`: prepare the callee and
start it in its scope. -/
def invoke (s : Processing) (kind : CallKind) (instruction : Instruction) :
    Processing × Except InstructionError Unit :=
  match s.ctx.prepareNextCpiInstruction instruction kind.signers with
  | .error e => (s, .error e.failure)
  | .ok conf =>
    let prepared := s.ctx.configureNext conf
    s.start (prepared.enterScope kind) kind prepared.scopes

/-- The next stretch of the MagicRoot processor: authorize, decode and dispatch, or, for `post_finalize`, the next of its
actions and at last the check of its writable accounts. -/
def magicRootStep (env : SvmEnv) (s : Processing) (p : ProgramState) (callers : List ProgramState) : Processing :=
  match p.actions with
  | some (source, action :: rest) =>
    let s := { s with programs := { p with actions := some (source, rest) } :: callers }
    match s.invoke (.as source (InvokeContext.actionSigners action)) action with
    | (s, .ok ()) => s
    | (s, .error e) => s.leave s.programs s.ctx (.error e)
  | some (_, []) => s.leave s.programs s.ctx s.ctx.writableAccountsCanWriteback
  | none =>
    match s.ctx.magicRootInstruction env, s.ctx.magicRootTarget with
    | .error e, _ => s.leave s.programs s.ctx (.error e)
    | .ok _, none => s.leave s.programs s.ctx (.error .missingAccount)
    | .ok (.postFinalize source actions), some _ =>
      { s with programs := { p with actions := some (source, actions) } :: callers }
    | .ok instruction, some target =>
      let (ctx, result) := s.ctx.dispatch env target instruction
      s.leave s.programs ctx result

/-- What a running program does; errors of its actions are its own business. -/
def programStep (env : SvmEnv) (s : Processing) (p : ProgramState) (callers : List ProgramState) :
    Action → Processing
  | .account i action => { s with ctx := (s.ctx.accountAction env i action).1 }
  | .mapRegion i => { s with programs := { p with mapped := s.ctx.mapRegion i p.mapped } :: callers }
  | .storeRegion i offset bytes => { s with ctx := (s.ctx.storeRegion p.mapped i offset bytes).1 }
  | .invoke kind instruction => (s.invoke kind instruction).1
  | .exit result => s.leave s.programs s.ctx result
  | .topLevel | .magicRoot => s

/-- A precompile is pushed, verified and popped again. -/
def precompile (env : SvmEnv) (tx : ResolvedTransaction) (s : Processing) (ctx : InvokeContext) (program : Pubkey)
    (data : List UInt8) : Processing × Except InstructionError Unit :=
  match ctx.push with
  | (ctx, .error e) => ({ s with ctx }, .error e)
  | (ctx, .ok ()) =>
    let verified := env.processPrecompile program data (tx.instructions.map (·.data))
    ({ s with ctx := ctx.pop.1 }, if verified then ctx.pop.2 else .error .programFailed)

/-- One round of `process_message`, up to the first action of the instruction's program. -/
def startTopLevel (env : SvmEnv) (tx : ResolvedTransaction) (s : Processing) (instruction : CompiledInstruction) :
    Processing × Except InstructionError Unit :=
  match InvokeContext.prepareNextTopLevelInstruction tx instruction with
  | .error e => (s, .error e.failure)
  | .ok conf =>
    let ctx := s.ctx.configureNext conf
    match ctx.keys[instruction.programIdIndex]? with
    | none => ({ s with ctx }, .error .unsupportedProgramId)
    | some program =>
      if env.isPrecompile program then s.precompile env tx ctx program instruction.data
      else s.start ctx (.signed []) (none, none)

def step (env : SvmEnv) (tx : ResolvedTransaction) (s : Processing) (action : Action) : Processing :=
  if s.error.isSome then s
  else
    match s.programs with
    | [] =>
      match action, tx.instructions[s.started]? with
      | .topLevel, some instruction =>
        let (s', result) := s.startTopLevel env tx instruction
        { s' with
          started := s.started + 1
          error := match result with
            | .error e => some e
            | .ok () => none }
      | _, _ => s
    | p :: callers =>
      if p.isMagicRoot then if action = .magicRoot then s.magicRootStep env p callers else s
      else s.programStep env p callers action

/-- The loaded accounts carry no markers; `budget` is the compute budget's stack depth and trace length. -/
def init (tx : ResolvedTransaction) (loaded : List OwnedAccount) (budget : Nat × Nat)
    (cache : ProgramCacheForTxBatch) : Processing :=
  { ctx := .new tx.staticAccountKeys (loaded.map fun account => { account }) budget.1 budget.2
      tx.instructions.length cache }

def run (env : SvmEnv) (tx : ResolvedTransaction) (s : Processing) (actions : List Action) : Processing :=
  actions.foldl (step env tx) s

/-- Every step of the run satisfies `P`. -/
def Along (env : SvmEnv) (tx : ResolvedTransaction) (P : Processing → Action → Prop) : Processing → List Action → Prop
  | _, [] => True
  | s, action :: rest => P s action ∧ Along env tx P (s.step env tx action) rest

def finished (tx : ResolvedTransaction) (s : Processing) : Bool :=
  s.error.isNone && s.programs.isEmpty && s.started == tx.instructions.length

def lamportsSum (accounts : List AccountSharedData) : Nat := (accounts.map (·.lamports.toNat)).sum

/-- The status of `execute_loaded_transaction`. -/
def wasSuccessful (env : SvmEnv) (tx : ResolvedTransaction) (before : List AccountSharedData) (s : Processing) :
    Bool :=
  s.finished tx && env.rentStateVerified before s.ctx.accounts &&
    lamportsSum before == lamportsSum s.ctx.accounts

end Processing

/-- `is_privileged`: every instruction is handled by the MagicRoot authority path. -/
def ResolvedTransaction.isPrivileged (tx : ResolvedTransaction) : Bool :=
  tx.instructions.all fun instruction => tx.staticAccountKeys[instruction.programIdIndex]? == some magicRootId

/-- `access_is_valid` after a successful execution: a writable account other than the payer must be writable back
unless the transaction is privileged, and the payer if it was changed. -/
def Processing.accessIsValid (env : SvmEnv) (tx : ResolvedTransaction) (before : List AccountSharedData)
    (s : Processing) : Bool :=
  s.wasSuccessful env tx before &&
    match s.ctx.accounts with
    | [] => false
    | payer :: rest =>
      (rest.zipIdx 1).all (fun (a, i) => !tx.isWritable i || a.canWriteback || tx.isPrivileged) &&
        !(payer.dirty && !payer.canWriteback)

/-- The accounts `commit_state_transitions` stores, by index: the dirty ones except the Instructions sysvar. -/
def ResolvedTransaction.committed (tx : ResolvedTransaction) (accounts : List AccountSharedData) :
    List (Nat × AccountSharedData) :=
  (accounts.zipIdx.map Prod.swap).filter fun (i, a) =>
    a.dirty && tx.staticAccountKeys[i]? != some instructionsSysvarId

end MagicEngine
