import MagicEngine.Svm.InvokeContext

/-!
# Runs of a transaction

`process_message` over arbitrary programs, with everything that happens to the frames of the instructions
(`process_instruction` and the native invocations in `solana/program-runtime/src/invoke_context.rs`). A running program is
any tree of actions and invocations (`Behaviour`), each invocation with what the callee does if it gets to run. A run
leaves a list of events, so that statements can speak about every moment of every frame.

A push that is refused changes nothing; otherwise it records the frame, and then it may still be rejected: for its depth,
or while the Instructions sysvar is updated, when the frame is on the stack already (`Pushes`).
-/

namespace MagicEngine

inductive Started where
  | topLevel
  | child (kind : CallKind) (caller : Pubkey)
deriving DecidableEq, Repr

/-- A program that is started, and what was configured for it. -/
structure Activation where
  program : Pubkey
  started : Started
  conf : Configuration
deriving DecidableEq, Repr

/-- What a program leaves of the context between two invocations. -/
structure Effects where
  accounts : List AccountSharedData
  resizeDelta : Int
  lamportsDelta : Int
  programCache : ProgramCacheForTxBatch
  borrowed : List Nat

/-- A program's actions and invocations; `callee` is what the invoked program does, if it is started. A program goes on
after an invocation whether it failed or not, and its result may depend on anything. -/
inductive Behaviour where
  | exit (result : Except InstructionError Unit)
  | act (effects : Effects) (rest : Behaviour)
  | call (kind : CallKind) (instruction : Instruction) (callee rest : Behaviour)

namespace InvokeContext

inductive Event where
  /-- An instruction is configured. -/
  | configured (conf : Configuration)
  /-- A configured instruction is about to be pushed. -/
  | pushing (a : Activation) (c : InvokeContext)
  /-- A program starts, or goes on after an action or an invocation. -/
  | running (a : Activation) (c : InvokeContext)
  /-- `process_instruction` returns. -/
  | returned (before after : InvokeContext)

structure Outcome where
  context : InvokeContext
  result : Except InstructionError Unit
  events : List Event

def apply (c : InvokeContext) (effects : Effects) : InvokeContext :=
  { c with
    accounts := effects.accounts
    resizeDelta := effects.resizeDelta
    lamportsDelta := effects.lamportsDelta
    programCache := effects.programCache
    borrowed := effects.borrowed }

/-- `process_instruction`: pops if and only if `push` succeeded. -/
def processInstruction (a : Activation) (program : InvokeContext → Outcome) (c : InvokeContext) : Outcome :=
  match c.push with
  | (pushed, .error e) => ⟨pushed, .error e, [.pushing a c, .returned c pushed]⟩
  | (pushed, .ok ()) =>
    let o := program pushed
    ⟨o.context.pop.1, o.result.bind fun _ => o.context.pop.2,
      .pushing a c :: .running a pushed :: (o.events ++ [.returned c o.context.pop.1])⟩

/-- `native_invoke_signed`, `native_invoke_magic_root` and `native_invoke_as`. -/
def invoke (kind : CallKind) (instruction : Instruction) (caller : Pubkey)
    (program : Activation → InvokeContext → Outcome) (c : InvokeContext) : Outcome :=
  match c.prepareNextCpiInstruction instruction kind.signers with
  | .error e => ⟨c, .error e.failure, []⟩
  | .ok conf =>
    let a : Activation := ⟨instruction.programId, .child kind caller, conf⟩
    let prepared := c.configureNext conf
    let o := processInstruction a (program a) (prepared.enterScope kind)
    { o with
      context := o.context.leaveScope kind prepared.scopes
      events := .configured conf :: o.events }

end InvokeContext

open InvokeContext

def Behaviour.run : Behaviour → Activation → InvokeContext → Outcome
  | .exit result, _, c => ⟨c, result, []⟩
  | .act effects rest, a, c =>
    let o := rest.run a (c.apply effects)
    { o with events := .running a (c.apply effects) :: o.events }
  | .call kind instruction callee rest, a, c =>
    let invoked := c.invoke kind instruction a.program callee.run
    let o := rest.run a invoked.context
    { o with events := invoked.events ++ .running a invoked.context :: o.events }

namespace InvokeContext

/-- A top-level instruction and the frame that was configured for it; `push` refuses a program that is not a key of the
transaction. -/
def topLevelActivation (keys : List Pubkey) (instruction : CompiledInstruction) (conf : Configuration) :
    Activation where
  program := (keys[instruction.programIdIndex]?).getD default
  started := .topLevel
  conf := conf

/-- `process_message`: the top-level instructions in order, up to the first that fails. -/
def processMessage (tx : ResolvedTransaction) : List (CompiledInstruction × Behaviour) → InvokeContext → Outcome
  | [], c => ⟨c, .ok (), []⟩
  | (instruction, program) :: rest, c =>
    match prepareNextTopLevelInstruction tx instruction with
    | .error e => ⟨c, .error e.failure, []⟩
    | .ok conf =>
      let a := topLevelActivation c.keys instruction conf
      let o := processInstruction a (program.run a) (c.configureNext conf)
      match o.result with
      | .error _ => { o with events := .configured conf :: o.events }
      | .ok () =>
        let o' := processMessage tx rest o.context
        { o' with events := .configured conf :: (o.events ++ o'.events) }

def initial (tx : ResolvedTransaction) (accounts : List AccountSharedData) (stackCapacity traceCapacity : Nat)
    (programCache : ProgramCacheForTxBatch) : InvokeContext :=
  .new tx.staticAccountKeys accounts stackCapacity traceCapacity tx.instructions.length programCache

/-! ### What configuring an instruction changes -/

/-- Everything below the reserved frame of the trace stays. -/
structure Keeps (ctx ctx' : InvokeContext) : Prop where
  keys : ctx'.keys = ctx.keys
  length : ctx.trace.length ≤ ctx'.trace.length
  frames : ∀ i < ctx.traceLength, ctx'.frameAt i = ctx.frameAt i

variable {ctx ctx' : InvokeContext} {conf : Configuration}

theorem Keeps.of_trace_eq (hkeys : ctx'.keys = ctx.keys) (htrace : ctx'.trace = ctx.trace) : Keeps ctx ctx' where
  keys := hkeys
  length := htrace ▸ Nat.le_refl _
  frames i _ := by unfold frameAt; rw [htrace]

theorem Keeps.programKeyAt (h : Keeps ctx ctx') {i : Nat} (hi : i < ctx.traceLength) :
    ctx'.programKeyAt i = ctx.programKeyAt i := by
  unfold InvokeContext.programKeyAt
  rw [h.keys, h.frames i hi]

theorem length_configureNext (ctx : InvokeContext) (conf : Configuration) :
    (ctx.configureNext conf).trace.length = ctx.trace.length := by
  simp [configureNext]

theorem traceLength_configureNext (ctx : InvokeContext) (conf : Configuration) :
    (ctx.configureNext conf).traceLength = ctx.traceLength :=
  congrArg (· - 1) (length_configureNext ctx conf)

theorem configureNext_keeps (ctx : InvokeContext) (conf : Configuration) : Keeps ctx (ctx.configureNext conf) where
  keys := rfl
  length := (length_configureNext ctx conf).ge
  frames i hi := by
    simp only [frameAt, configureNext, List.getD_eq_getElem?_getD]
    rw [List.getElem?_modify_ne _ _ (by omega)]

theorem frameAt_configureNext (hreserved : ctx.trace ≠ []) (conf : Configuration) :
    (ctx.configureNext conf).frameAt ctx.traceLength =
      { ctx.frameAt ctx.traceLength with
        programIndex := conf.programIndex
        callerIndex := conf.caller.getD (ctx.frameAt ctx.traceLength).callerIndex } := by
  have hlt : ctx.traceLength < ctx.trace.length :=
    Nat.sub_lt (List.length_pos_iff.mpr hreserved) Nat.one_pos
  simp [frameAt, configureNext, List.getD_eq_getElem?_getD, hlt]

/-- The reserved frame is that of the configured program. -/
theorem programKeyAt_configureNext (hreserved : ctx.trace ≠ []) (conf : Configuration) :
    (ctx.configureNext conf).programKeyAt (ctx.configureNext conf).traceLength = ctx.keys[conf.programIndex]? := by
  unfold programKeyAt
  rw [traceLength_configureNext, frameAt_configureNext hreserved]
  rfl

/-- A prepared invocation is one of the current instruction, and names the program by its key. -/
theorem prepareNextCpiInstruction_eq {instruction : Instruction} {signers : List Pubkey}
    (hok : ctx.prepareNextCpiInstruction instruction signers = .ok conf) :
    ∃ current, ctx.currentIndex = some current ∧ conf.caller = some current ∧
      ctx.keys[conf.programIndex]? = some instruction.programId := by
  unfold prepareNextCpiInstruction at hok
  split at hok
  · cases hok
  next current hcurrent =>
  obtain ⟨p, -, hok⟩ := bind_eq_ok.mp hok
  split at hok
  · cases hok
  next programIndex hprogram =>
  cases hok
  obtain ⟨hlt, hkey, -⟩ := List.findIdx?_eq_some_iff_getElem.mp hprogram
  exact ⟨current, hcurrent, rfl, by rw [List.getElem?_eq_getElem hlt, beq_iff_eq.mp hkey]⟩

theorem prepareNextTopLevelInstruction_eq {tx : ResolvedTransaction} {instruction : CompiledInstruction}
    (hok : prepareNextTopLevelInstruction tx instruction = .ok conf) :
    conf.programIndex = instruction.programIdIndex ∧ conf.caller = none := by
  obtain ⟨p, -, hconf⟩ := bind_eq_ok.mp hok
  cases hconf
  exact ⟨rfl, rfl⟩

/-! ### What a push does -/

/-- The Instructions sysvar, when the transaction lists it, can take the index of the current instruction: no program has
it borrowed, it belongs to the sysvar owner and it holds an index. -/
def Ready (ctx : InvokeContext) : Prop :=
  ∀ index, ctx.findIndexOfAccount instructionsSysvarId = some index →
    index ∉ ctx.borrowed ∧ ∃ a, ctx.accounts[index]? = some a ∧ a.owner = sysvarOwnerId ∧ 2 ≤ a.data.length

theorem noteCurrentInstruction_eq (ctx : InvokeContext) (topLevel : Nat) :
    ∃ accounts, (ctx.noteCurrentInstruction topLevel).1 = { ctx with accounts } ∧
      (ctx.Ready → (ctx.noteCurrentInstruction topLevel).2 = .ok ()) := by
  unfold noteCurrentInstruction
  split
  · exact ⟨ctx.accounts, rfl, fun _ => rfl⟩
  next index hindex =>
  split
  · next hnone =>
    refine ⟨ctx.accounts, rfl, fun h => ?_⟩
    obtain ⟨-, a, ha, -⟩ := h index hindex
    simp [hnone] at ha
  next a ha =>
  split
  · next hborrowed =>
    exact ⟨ctx.accounts, rfl, fun h => absurd (List.contains_iff_mem.mp hborrowed) (h index hindex).1⟩
  split
  · next howner =>
    refine ⟨ctx.accounts, rfl, fun h => ?_⟩
    obtain ⟨-, b, hb, hbo, -⟩ := h index hindex
    cases ha.symm.trans hb
    exact absurd hbo howner
  · refine ⟨_, rfl, fun h => ?_⟩
    obtain ⟨-, b, hb, -, hlen⟩ := h index hindex
    cases ha.symm.trans hb
    simp [storeCurrentIndex, Nat.not_lt.mpr hlen]

/-- The reserved frame is recorded and the next one reserved. -/
def grown (ctx : InvokeContext) : InvokeContext :=
  { ctx with
    trace := (ctx.trace.modify ctx.traceLength fun frame => { frame with nestingLevel := ctx.stackHeight }) ++ [{}]
    totalInstructions := if !ctx.stack.isEmpty then ctx.totalInstructions + 1 else ctx.totalInstructions
    cpis := if !ctx.stack.isEmpty then ctx.cpis + 1 else ctx.cpis
    nextTopLevel := if !ctx.stack.isEmpty then ctx.nextTopLevel else ctx.nextTopLevel + 1 }

/-- The recorded frame is entered, and `accounts` are those with the instruction noted in the sysvar. -/
def entered (ctx : InvokeContext) (accounts : List AccountSharedData) : InvokeContext :=
  { ctx.grown with stack := ctx.traceLength :: ctx.stack, accounts }

def opened (ctx : InvokeContext) (accounts : List AccountSharedData) : InvokeContext :=
  { ctx.entered accounts with
    syscallContexts := ctx.syscallContexts + 1
    memoryContexts := ctx.memoryContexts + 1 }

/-- The trace has a slot for the configured instruction, and the lamports of its caller are balanced. -/
structure Room (ctx : InvokeContext) : Prop where
  slot : ctx.traceLength < ctx.traceCapacity
  invocation : ctx.stack ≠ [] →
    ctx.lamportsDelta = 0 ∧ ctx.cpis < maxCpiTraceLength ∧ ctx.totalInstructions < ctx.traceCapacity

/-- The program of the configured instruction is known, and not running unless it invokes itself. -/
def Enterable (ctx : InvokeContext) : Prop :=
  ∃ program, ctx.programKeyAt ctx.traceLength = some program ∧
    (some program ∈ ctx.stack.map ctx.programKeyAt → (ctx.stack.map ctx.programKeyAt).head? = some (some program))

/-- The transaction context records the frame of the configured instruction. -/
def Records (ctx : InvokeContext) : Prop := ctx.Enterable ∧ ctx.Room

/-- What a push does: it is refused for its program or for want of room and changes nothing, or it records the frame;
then it is rejected for its depth, it is stranded on the Instructions sysvar with its frame on the stack, or it is
accepted. -/
inductive Pushes (ctx : InvokeContext) : CallResult → Prop
  | foreign {e : InstructionError} (hnot : ¬ctx.Enterable) (he : e ≠ .maxInstructionTraceLengthExceeded) :
      Pushes ctx (ctx, .error e)
  | full {e : InstructionError} (hnot : ¬ctx.Room) : Pushes ctx (ctx, .error e)
  | tooDeep (h : ctx.Records) : Pushes ctx (ctx.grown, .error .callDepth)
  | stranded {e : InstructionError} (h : ctx.Records) (hnot : ¬ctx.Ready) (accounts : List AccountSharedData) :
      Pushes ctx (ctx.entered accounts, .error e)
  | accepted (h : ctx.Records) (accounts : List AccountSharedData) : Pushes ctx (ctx.opened accounts, .ok ())

/-- `TransactionContext::push` is refused, rejected for its depth, or ends with the Instructions sysvar. -/
theorem pushFrame_eq (ctx : InvokeContext) :
    (¬ctx.Room ∧ ∃ e, ctx.pushFrame = (ctx, .error e)) ∨ ctx.Room ∧ (ctx.pushFrame = (ctx.grown, .error .callDepth) ∨
      ∃ topLevel, ctx.pushFrame = (ctx.entered ctx.accounts).noteCurrentInstruction topLevel) := by
  unfold pushFrame
  dsimp only
  split
  · next hbalance =>
    simp only [Bool.and_eq_true, Bool.not_eq_true', List.isEmpty_eq_false_iff, decide_eq_true_iff] at hbalance
    exact .inl ⟨fun hroom => hbalance.2 (hroom.invocation hbalance.1).1, _, rfl⟩
  next hbalance =>
  split
  · next hslot => exact .inl ⟨fun hroom => absurd hroom.slot (Nat.not_lt.mpr hslot), _, rfl⟩
  next hslot =>
  split
  · next hcpi =>
    simp only [Bool.and_eq_true, Bool.not_eq_true', List.isEmpty_eq_false_iff, Bool.or_eq_true,
      decide_eq_true_iff] at hcpi
    refine .inl ⟨fun hroom => ?_, _, rfl⟩
    obtain ⟨-, hcpis, htotal⟩ := hroom.invocation hcpi.1
    omega
  next hcpi =>
  have hroom : ctx.Room := by
    refine ⟨Nat.lt_of_not_le hslot, fun hstack => ?_⟩
    simp only [Bool.and_eq_true, Bool.not_eq_true', List.isEmpty_eq_false_iff, decide_eq_true_iff, Bool.or_eq_true,
      not_and, not_or, not_le, ne_eq, Decidable.not_not] at hbalance hcpi
    exact ⟨hbalance hstack, hcpi hstack⟩
  refine .inr ⟨hroom, ?_⟩
  split
  · exact .inl rfl
  · exact .inr ⟨_, rfl⟩

theorem push_pushes (ctx : InvokeContext) : Pushes ctx ctx.push := by
  unfold push
  split
  · next hprogram =>
    refine .foreign (fun ⟨program, hsome, _⟩ => ?_) nofun
    rw [hprogram] at hsome
    cases hsome
  next program hprogram =>
  dsimp only
  split
  · next hreentrant =>
    simp only [Bool.and_eq_true, List.contains_iff_mem, decide_eq_true_iff] at hreentrant
    refine .foreign (fun ⟨other, hsome, hrunning⟩ => ?_) nofun
    cases hprogram.symm.trans hsome
    exact hreentrant.2 (hrunning hreentrant.1)
  next hreentrant =>
  have henterable : ctx.Enterable := by
    refine ⟨program, hprogram, fun hrunning => ?_⟩
    by_contra hhead
    exact hreentrant (Bool.and_eq_true_iff.mpr ⟨List.contains_iff_mem.mpr hrunning, decide_eq_true hhead⟩)
  rcases pushFrame_eq ctx with ⟨hroom, e, heq⟩ | ⟨hroom, heq | ⟨topLevel, heq⟩⟩
  · rw [heq]
    exact .full hroom
  · rw [heq]
    exact .tooDeep ⟨henterable, hroom⟩
  · obtain ⟨accounts, hcontext, hresult⟩ := noteCurrentInstruction_eq (ctx.entered ctx.accounts) topLevel
    rw [heq]
    generalize (ctx.entered ctx.accounts).noteCurrentInstruction topLevel = noted at hcontext hresult
    obtain ⟨context, result⟩ := noted
    obtain rfl : context = ctx.entered accounts := hcontext
    cases result with
    | error e => exact .stranded ⟨henterable, hroom⟩ (fun hready => nomatch hresult hready) accounts
    | ok _ => exact .accepted ⟨henterable, hroom⟩ accounts

theorem length_grown (ctx : InvokeContext) : ctx.grown.trace.length = ctx.trace.length + 1 := by
  simp [grown]

theorem traceLength_grown (h : ctx.trace ≠ []) : ctx.grown.traceLength = ctx.traceLength + 1 := by
  have hlength := length_grown ctx
  have hpos := List.length_pos_iff.mpr h
  unfold traceLength
  omega

theorem grown_keeps (ctx : InvokeContext) : Keeps ctx ctx.grown := by
  refine ⟨rfl, length_grown ctx ▸ Nat.le_succ _, fun i hi => ?_⟩
  unfold traceLength at hi
  simp only [grown, frameAt, traceLength, List.getD_eq_getElem?_getD]
  rw [List.getElem?_append_left (by rw [List.length_modify]; omega), List.getElem?_modify_ne _ _ (by omega)]

theorem grown_reserved (ctx : InvokeContext) :
    (ctx.grown.frameAt ctx.traceLength).programIndex = (ctx.frameAt ctx.traceLength).programIndex ∧
    (ctx.grown.frameAt ctx.traceLength).callerIndex = (ctx.frameAt ctx.traceLength).callerIndex := by
  unfold grown frameAt
  cases htrace : ctx.trace with
  | nil => simp [traceLength, htrace]
  | cons frame frames =>
    have hlt : ctx.traceLength < (frame :: frames).length := by simp [traceLength, htrace]
    simp only [List.getD_eq_getElem?_getD]
    rw [List.getElem?_append_left (by rwa [List.length_modify]), List.getElem?_modify_eq, List.getElem?_eq_getElem hlt]
    exact ⟨rfl, rfl⟩

/-! ### Runs that the Instructions sysvar does not disturb -/

/-- Every instruction the events see starting can be noted. -/
def StartsReady (events : List Event) : Prop := ∀ a c, .pushing a c ∈ events → c.Ready

instance (c : InvokeContext) : Decidable c.Ready :=
  inferInstanceAs (Decidable (∀ index ∈ c.findIndexOfAccount instructionsSysvarId,
    index ∉ c.borrowed ∧ ∃ a ∈ c.accounts[index]?, a.owner = sysvarOwnerId ∧ 2 ≤ a.data.length))

def Event.start : Event → Option (Activation × InvokeContext)
  | .pushing a c => some (a, c)
  | _ => none

theorem Event.start_eq_some {event : Event} {a : Activation} {c : InvokeContext} :
    event.start = some (a, c) ↔ event = .pushing a c := by
  constructor
  · intro h
    cases event with
    | pushing a' c' => cases h; rfl
    | configured conf => cases h
    | running a' c' => cases h
    | returned before after => cases h
  · rintro rfl
    rfl

theorem Event.mem_filterMap_start {events : List Event} {a : Activation} {c : InvokeContext} :
    (a, c) ∈ events.filterMap Event.start ↔ .pushing a c ∈ events := by
  simp only [List.mem_filterMap, Event.start_eq_some, exists_eq_right]

instance (events : List Event) : Decidable (StartsReady events) :=
  decidable_of_iff (∀ e ∈ events.filterMap Event.start, e.2.Ready) <| by
    simp only [Prod.forall, Event.mem_filterMap_start, StartsReady]

/-! ### What every operation keeps -/

/-- The contexts that an event shows. -/
def Event.contexts : Event → List InvokeContext
  | .configured _ => []
  | .pushing _ c | .running _ c => [c]
  | .returned before after => [before, after]

/-- Every operation on the context keeps `I`, also one that fails. -/
structure Invariant (I : InvokeContext → Prop) : Prop where
  apply : ∀ c effects, I c → I (c.apply effects)
  configureNext : ∀ c conf, I c → I (c.configureNext conf)
  push : ∀ c, I c → I c.push.1
  pop : ∀ c, I c → I c.pop.1
  enterScope : ∀ c kind, I c → I (c.enterScope kind)
  leaveScope : ∀ c kind saved, I c → I (c.leaveScope kind saved)

/-- An outcome satisfies `I` at its end and at every moment on the way. -/
structure Outcome.Throughout (I : InvokeContext → Prop) (o : Outcome) : Prop where
  context : I o.context
  events : ∀ e ∈ o.events, ∀ c ∈ e.contexts, I c

section Invariant

variable {I : InvokeContext → Prop} {c : InvokeContext}

theorem Invariant.processInstruction (h : Invariant I) {program : Activation → InvokeContext → Outcome}
    (hprogram : ∀ a c, I c → (program a c).Throughout I) (a : Activation) (hc : I c) :
    (processInstruction a (program a) c).Throughout I := by
  have hpush := h.push c hc
  unfold InvokeContext.processInstruction
  split
  · next pushed e heq =>
    rw [heq] at hpush
    refine ⟨hpush, fun e he => ?_⟩
    simp only [List.mem_cons, List.not_mem_nil, or_false] at he
    rcases he with rfl | rfl
    · simpa [Event.contexts] using hc
    · simpa [Event.contexts] using ⟨hc, hpush⟩
  · next pushed heq =>
    rw [heq] at hpush
    obtain ⟨hcontext, hevents⟩ := hprogram a pushed hpush
    have hpopped := h.pop _ hcontext
    refine ⟨hpopped, fun e he => ?_⟩
    simp only [List.mem_cons, List.mem_append, List.not_mem_nil, or_false] at he
    rcases he with rfl | rfl | he | rfl
    · simpa [Event.contexts] using hc
    · simpa [Event.contexts] using hpush
    · exact hevents e he
    · simpa [Event.contexts] using ⟨hc, hpopped⟩

theorem Outcome.Throughout.configured {o : Outcome} (h : o.Throughout I) {context : InvokeContext} (hcontext : I context)
    (conf : Configuration) (result : Except InstructionError Unit) :
    Outcome.Throughout I ⟨context, result, .configured conf :: o.events⟩ :=
  ⟨hcontext, List.forall_mem_cons.mpr ⟨(fun _ hc => nomatch hc), h.events⟩⟩

theorem Invariant.run (h : Invariant I) (program : Behaviour) (a : Activation) (c : InvokeContext) (hc : I c) :
    (program.run a c).Throughout I := by
  induction program generalizing a c with
  | exit result => exact ⟨hc, fun e he => nomatch he⟩
  | act effects rest ih =>
    have hacted := h.apply c effects hc
    obtain ⟨hcontext, hevents⟩ := ih a (c.apply effects) hacted
    refine ⟨hcontext, List.forall_mem_cons.mpr ⟨?_, hevents⟩⟩
    simpa [Event.contexts] using hacted
  | call kind instruction callee rest ihCallee ihRest =>
    have hinvoked : (c.invoke kind instruction a.program callee.run).Throughout I := by
      unfold invoke
      split
      · exact ⟨hc, fun e he => nomatch he⟩
      · next conf _ =>
        have hprocessed := h.processInstruction ihCallee ⟨instruction.programId, .child kind a.program, conf⟩
          (h.enterScope _ kind (h.configureNext c conf hc))
        exact hprocessed.configured (h.leaveScope _ _ _ hprocessed.context) conf _
    obtain ⟨hcontext, hevents⟩ := ihRest a _ hinvoked.context
    refine ⟨hcontext, List.forall_mem_append.mpr ⟨hinvoked.events, List.forall_mem_cons.mpr ⟨?_, hevents⟩⟩⟩
    simpa [Event.contexts] using hinvoked.context

theorem Invariant.processMessage (h : Invariant I) (tx : ResolvedTransaction)
    (instructions : List (CompiledInstruction × Behaviour)) (hc : I c) :
    (c.processMessage tx instructions).Throughout I := by
  induction instructions generalizing c with
  | nil => exact ⟨hc, fun e he => nomatch he⟩
  | cons head tail ih =>
    obtain ⟨instruction, program⟩ := head
    unfold InvokeContext.processMessage
    split
    · exact ⟨hc, fun e he => nomatch he⟩
    next conf _ =>
    have hfirst := h.processInstruction (h.run program) (topLevelActivation c.keys instruction conf)
      (h.configureNext c conf hc)
    dsimp only
    split
    · exact hfirst.configured hfirst.context conf _
    · obtain ⟨hcontext, hevents⟩ := ih hfirst.context
      exact ⟨hcontext, List.forall_mem_cons.mpr
        ⟨(fun _ hc => nomatch hc), List.forall_mem_append.mpr ⟨hfirst.events, hevents⟩⟩⟩

end Invariant

end InvokeContext

end MagicEngine
