import MagicEngine.Svm.Invocation
import MagicEngine.Svm.Program

/-!
# Scoped authority

A builtin can start an instruction with MagicRoot's authorization (`native_invoke_magic_root`) or in the name of another
program (`native_invoke_as`). Both are fields of the invocation context that are set for one call and put back after
it: the first names the child by its index in the trace, the second by its height on the stack.

Rejected frames are part of a run: a frame rejected while the Instructions sysvar is updated stays on the stack, and what
runs on top of it is taken for something else (`rejected_frame_stays`).
-/

namespace MagicEngine

def Activation.attributed (a : Activation) : Option Pubkey :=
  match a.started with
  | .topLevel => none
  | .child (.as sourceProgram _) _ => some sourceProgram
  | .child _ caller => some caller

namespace Scopes

open InvokeContext

/-! ### The scopes are put back -/

variable {c : InvokeContext} {a : Activation} {kind : CallKind} {instruction : Instruction}

theorem scopes_push (c : InvokeContext) : c.push.1.scopes = c.scopes := by
  have hpushes := push_pushes c
  generalize c.push = result at hpushes
  cases hpushes <;> rfl

theorem scopes_pop (c : InvokeContext) : c.pop.1.scopes = c.scopes := rfl

variable {program : InvokeContext → Outcome}

theorem scopes_processInstruction
    (hprogram : ∀ c, (program c).context.scopes = c.scopes) (c : InvokeContext) :
    (processInstruction a program c).context.scopes = c.scopes := by
  have hpush := scopes_push c
  unfold processInstruction
  split
  · next pushed e heq => rwa [heq] at hpush
  · next pushed heq =>
    rw [heq] at hpush
    dsimp only
    rw [scopes_pop, hprogram, hpush]

theorem scopes_leaveScope {after : InvokeContext} (h : after.scopes = (c.enterScope kind).scopes) :
    (after.leaveScope kind c.scopes).scopes = c.scopes := by
  cases kind with
  | signed signers => exact h
  | magicRoot =>
    have hnative : after.nativeCaller = c.nativeCaller := congrArg Prod.snd h
    exact Prod.ext rfl hnative
  | as sourceProgram signers =>
    have hmagicRoot : after.magicRoot = c.magicRoot := congrArg Prod.fst h
    exact Prod.ext hmagicRoot rfl

theorem scopes_invoke {program : Activation → InvokeContext → Outcome}
    (hprogram : ∀ a c, (program a c).context.scopes = c.scopes) (kind : CallKind) (instruction : Instruction)
    (caller : Pubkey) (c : InvokeContext) : (c.invoke kind instruction caller program).context.scopes = c.scopes := by
  unfold invoke
  split
  · rfl
  · exact scopes_leaveScope (scopes_processInstruction (hprogram _) _)

theorem scopes_run (program : Behaviour) (a : Activation) (c : InvokeContext) :
    (program.run a c).context.scopes = c.scopes := by
  induction program generalizing a c with
  | exit result => rfl
  | act effects rest ih => exact ih a (c.apply effects)
  | call kind instruction callee rest ihCallee ihRest =>
    exact (ihRest a _).trans (scopes_invoke ihCallee kind instruction _ c)

/-! ### The frames of a run -/

structure Entry where
  index : Nat
  activation : Activation

/-- The frame that MagicRoot's authorization names, the innermost one that was started with it. -/
def authorizedIndex : List Entry → Option Nat
  | [] => none
  | e :: rest =>
    match e.activation.started with
    | .child .magicRoot _ => some e.index
    | _ => authorizedIndex rest

/-- The attribution of the innermost frame that was started with one. -/
def attribution : List Entry → Option NativeCaller
  | [] => none
  | e :: rest =>
    match e.activation.started with
    | .child (.as sourceProgram _) _ => some ⟨sourceProgram, rest.length + 1⟩
    | _ => attribution rest

/-- The trace records every frame of the stack with the frame that started it. -/
inductive Linked (ctx : InvokeContext) : List Entry → Prop
  | nil : Linked ctx []
  | topLevel {e : Entry} (hindex : e.index < ctx.traceLength)
      (hprogram : ctx.programKeyAt e.index = some e.activation.program)
      (hstarted : e.activation.started = .topLevel) : Linked ctx [e]
  | child {e caller : Entry} {rest : List Entry} {kind : CallKind} (hindex : e.index < ctx.traceLength)
      (hprogram : ctx.programKeyAt e.index = some e.activation.program)
      (hstarted : e.activation.started = .child kind caller.activation.program)
      (hcaller : (ctx.frameAt e.index).callerIndex = caller.index) (habove : caller.index < e.index)
      (hrest : Linked ctx (caller :: rest)) : Linked ctx (e :: caller :: rest)

variable {entries rest : List Entry} {e : Entry}

theorem Linked.keeps {ctx ctx' : InvokeContext} (h : Linked ctx entries) (hkeeps : ctx.Keeps ctx') :
    Linked ctx' entries := by
  have hlength : ctx.traceLength ≤ ctx'.traceLength := Nat.sub_le_sub_right hkeeps.length 1
  induction h with
  | nil => exact .nil
  | topLevel hindex hprogram hstarted =>
    exact .topLevel (by omega) (by rwa [hkeeps.programKeyAt hindex]) hstarted
  | child hindex hprogram hstarted hcaller habove _ ih =>
    exact .child (by omega) (by rwa [hkeeps.programKeyAt hindex]) hstarted (by rwa [hkeeps.frames _ hindex]) habove ih

theorem Linked.index_lt {ctx : InvokeContext} (h : Linked ctx entries) : ∀ e ∈ entries, e.index < ctx.traceLength := by
  induction h with
  | nil => simp
  | topLevel hindex => simpa using hindex
  | child hindex _ _ _ _ _ ih => exact List.forall_mem_cons.mpr ⟨hindex, ih⟩

theorem Linked.lt_head {ctx : InvokeContext} (h : Linked ctx (e :: rest)) : ∀ e' ∈ rest, e'.index < e.index := by
  induction rest generalizing e with
  | nil => simp
  | cons caller rest ih =>
    cases h with
    | child hindex hprogram hstarted hcaller habove hrest =>
      exact List.forall_mem_cons.mpr ⟨habove, fun e' he' => Nat.lt_trans (ih hrest e' he') habove⟩

theorem exists_of_authorizedIndex {index : Nat} (h : authorizedIndex entries = some index) :
    ∃ e ∈ entries, e.index = index := by
  induction entries with
  | nil => cases h
  | cons e rest ih =>
    unfold authorizedIndex at h
    split at h
    · exact ⟨e, List.mem_cons_self, Option.some.inj h⟩
    · obtain ⟨e', he', heq⟩ := ih h
      exact ⟨e', List.mem_cons_of_mem e he', heq⟩

theorem stackHeight_le_of_attribution {caller : NativeCaller} (h : attribution entries = some caller) :
    caller.stackHeight ≤ entries.length := by
  induction entries with
  | nil => cases h
  | cons e rest ih =>
    unfold attribution at h
    split at h
    · obtain rfl := Option.some.inj h
      exact Nat.le_refl _
    · exact Nat.le_succ_of_le (ih h)

/-- The stack of the context is `entries`, the innermost frame first. -/
structure Stacked (entries : List Entry) (c : InvokeContext) : Prop where
  reserved : c.trace ≠ []
  stack : c.stack = entries.map (·.index)
  linked : Linked c entries

theorem Stacked.height (h : Stacked entries c) : c.stackHeight = entries.length := by
  simpa [InvokeContext.stackHeight] using congrArg List.length h.stack

theorem Stacked.currentIndex (h : Stacked (e :: rest) c) : c.currentIndex = some e.index := by
  rw [InvokeContext.currentIndex, h.stack]
  rfl

/-- Besides, both scopes are those of the frames. -/
structure Tied (entries : List Entry) (c : InvokeContext) : Prop extends Stacked entries c where
  scopes : c.scopes = (authorizedIndex entries, attribution entries)

/-- Who the code takes a running program's caller for. -/
structure Provenance (env : SvmEnv) (a : Activation) (c : InvokeContext) : Prop where
  /-- Below the transaction level MagicRoot is authorized as an authorized child of a builtin. -/
  authorized : a.program = magicRootId → ∀ kind caller, a.started = .child kind caller →
    (c.authorize env = .ok () ↔ kind = .magicRoot ∧ c.programCache.find caller = some .builtin ∧ caller ≠ magicRootId ∧
      c.keys.head? = some env.authority)
  effective : c.effectiveCaller = .ok a.attributed

theorem Tied.effectiveCaller (h : Tied (e :: rest) c) : c.effectiveCaller = .ok e.activation.attributed := by
  have hheight : c.stackHeight = rest.length + 1 := h.height
  have hnative : c.nativeCaller = attribution (e :: rest) := congrArg Prod.snd h.scopes
  have houter : (attribution rest).filter (·.stackHeight = c.stackHeight) = none := by
    cases hattr : attribution rest with
    | none => rfl
    | some caller =>
      have := stackHeight_le_of_attribution hattr
      simp only [Option.filter, hheight]
      rw [if_neg (by simp; omega)]
  unfold InvokeContext.effectiveCaller Activation.attributed
  rw [hnative]
  unfold attribution
  cases h.linked with
  | topLevel hindex hprogram hstarted =>
    rw [hstarted]
    dsimp only
    rw [houter, if_pos (by rw [hheight]; decide)]
  | @child _ caller rest kind hindex hprogram hstarted hcaller habove hrest =>
    rw [hstarted]
    have hparent : c.stack[1]?.bind c.programKeyAt = some caller.activation.program := by
      have hget : c.stack[1]? = some caller.index := by rw [h.stack]; rfl
      rw [hget, Option.bind_some]
      cases hrest <;> assumption
    have hnot : ¬ c.stackHeight < 2 := by rw [hheight]; simp
    cases kind with
    | as sourceProgram signers => simp [hheight, Option.filter]
    | signed signers => simp only [houter, hparent, if_neg hnot]
    | magicRoot => simp only [houter, hparent, if_neg hnot]

variable {caller : Pubkey}

/-- Below the transaction level, the frame is authorized exactly if it was started so. -/
theorem Tied.magicRoot_eq_current {kind : CallKind} (h : Tied (e :: rest) c)
    (hstarted : e.activation.started = .child kind caller) :
    c.magicRoot.isSome ∧ c.magicRoot = c.currentIndex ↔ kind = .magicRoot := by
  have hcurrent := h.currentIndex
  have hmagicRoot : c.magicRoot = authorizedIndex (e :: rest) := congrArg Prod.fst h.scopes
  rw [hcurrent, hmagicRoot]
  unfold authorizedIndex
  rw [hstarted]
  -- an outer frame that was authorized has a smaller index
  have houter : authorizedIndex rest ≠ some e.index := by
    intro heq
    obtain ⟨e', he', hidx⟩ := exists_of_authorizedIndex heq
    have := h.linked.lt_head e' he'
    omega
  cases kind with
  | magicRoot => simp
  | signed signers => simpa using fun _ => houter
  | as sourceProgram signers => simpa using fun _ => houter

variable {env : SvmEnv}

theorem Tied.authorize {kind : CallKind} (h : Tied (e :: rest) c)
    (hstarted : e.activation.started = .child kind caller) :
    c.authorize env = .ok () ↔ kind = .magicRoot ∧ c.programCache.find caller = some .builtin ∧ caller ≠ magicRootId ∧
      c.keys.head? = some env.authority := by
  have hheight : c.stackHeight = rest.length + 1 := h.height
  have hcurrent := h.currentIndex
  have hmagicRoot := h.magicRoot_eq_current hstarted
  cases h.linked with
  | topLevel hindex hprogram htop => simp [htop] at hstarted
  | @child _ outer rest' _ hindex hprogram hchild hcaller habove hrest =>
    obtain ⟨rfl, rfl⟩ : _ ∧ outer.activation.program = caller := by simpa [hchild] using hstarted
    have hkey : c.programKeyAt outer.index = some outer.activation.program := by cases hrest <;> assumption
    have hbelow : ¬ c.stackHeight = 1 := by rw [hheight]; simp
    unfold InvokeContext.authorize
    simp only [hcurrent, Option.bind_some, hcaller, hkey, hbelow, false_or, bind_eq_ok, require_eq_ok]
    rw [← hmagicRoot, hcurrent]
    simp only [ne_eq, Option.some.injEq, exists_const]
    tauto

theorem Tied.provenance (env : SvmEnv) (h : Tied (e :: rest) c) : Provenance env e.activation c where
  authorized _ _ _ hstarted := h.authorize hstarted
  effective := h.effectiveCaller

/-! ### Frames that start and end -/

theorem Stacked.keeps {c' : InvokeContext} (h : Stacked entries c) (hkeeps : c.Keeps c') (hstack : c'.stack = c.stack) :
    Stacked entries c' where
  reserved := List.length_pos_iff.mp (Nat.lt_of_lt_of_le (List.length_pos_iff.mpr h.reserved) hkeeps.length)
  stack := hstack ▸ h.stack
  linked := h.linked.keeps hkeeps

/-- The reserved frame holds the program to start and the frame that starts it. -/
structure Primed (entries : List Entry) (a : Activation) (c : InvokeContext) : Prop extends Stacked entries c where
  program : c.programKeyAt c.traceLength = some a.program
  started : (a.started = .topLevel ∧ entries = []) ∨ ∃ kind caller rest, entries = caller :: rest ∧
    a.started = .child kind caller.activation.program ∧ (c.frameAt c.traceLength).callerIndex = caller.index

theorem Primed.opened (h : Primed entries a c) (accounts : List AccountSharedData) :
    Stacked (⟨c.traceLength, a⟩ :: entries) (c.opened accounts) := by
  have hkeeps : c.Keeps (c.opened accounts) := ⟨rfl, (grown_keeps c).length, (grown_keeps c).frames⟩
  have hindex : c.traceLength < (c.opened accounts).traceLength :=
    Nat.lt_of_lt_of_eq (Nat.lt_succ_self _) (traceLength_grown h.reserved).symm
  have hprogram : (c.opened accounts).programKeyAt c.traceLength = some a.program := by
    rw [← h.program]
    exact congrArg (c.keys[·]?) (grown_reserved c).1
  refine ⟨?_, congrArg (c.traceLength :: ·) h.stack, ?_⟩
  · exact List.length_pos_iff.mp (length_grown c ▸ Nat.succ_pos _)
  have hlinked := h.linked.keeps hkeeps
  rcases h.started with ⟨htop, rfl⟩ | ⟨kind, caller, rest, rfl, hchild, hcaller⟩
  · exact .topLevel hindex hprogram htop
  · have habove := h.linked.index_lt caller List.mem_cons_self
    exact .child hindex hprogram hchild ((grown_reserved c).2.trans hcaller) habove hlinked

theorem Stacked.pop (h : Stacked (e :: rest) c) : Stacked rest c.pop.1 := by
  have hlinked : Linked c rest := by
    cases h.linked with
    | topLevel => exact .nil
    | child _ _ _ _ _ hrest => exact hrest
  have hstack : c.stack.tail = rest.map (·.index) := by rw [h.stack]; rfl
  exact ⟨h.reserved, hstack, hlinked.keeps (.of_trace_eq rfl rfl)⟩

/-- Every program the events see running has its provenance. -/
def Sees (env : SvmEnv) (events : List Event) : Prop := ∀ a c, .running a c ∈ events → Provenance env a c

theorem Sees.append {events events' : List Event} (h : Sees env events) (h' : Sees env events') :
    Sees env (events ++ events') :=
  fun a c hmem => (List.mem_append.mp hmem).elim (h a c) (h' a c)

theorem Sees.running {events : List Event} (hrunning : Provenance env a c) (h : Sees env events) :
    Sees env (.running a c :: events) := by
  intro a' c' hmem
  rcases List.mem_cons.mp hmem with heq | hmem
  · cases heq
    exact hrunning
  · exact h a' c' hmem

theorem Sees.configured {conf : Configuration} {events : List Event} (h : Sees env events) : Sees env (.configured conf :: events) := by
  intro a c hmem
  rcases List.mem_cons.mp hmem with heq | hmem
  · cases heq
  · exact h a c hmem

/-- What a program does under its frame: it keeps the stack, and it runs with its provenance. -/
def Sound (env : SvmEnv) (entries : List Entry) (program : InvokeContext → Outcome) : Prop :=
  ∀ c, Tied entries c → StartsReady (program c).events →
    Tied entries (program c).context ∧ Sees env (program c).events

theorem Primed.processInstruction (env : SvmEnv) (h : Primed entries a c)
    (hscopes : c.scopes =
      (authorizedIndex (⟨c.traceLength, a⟩ :: entries), attribution (⟨c.traceLength, a⟩ :: entries)))
    (hprogram : Sound env (⟨c.traceLength, a⟩ :: entries) program)
    (hready : StartsReady (processInstruction a program c).events) :
    Stacked entries (processInstruction a program c).context ∧ Sees env (processInstruction a program c).events := by
  have hstarts : c.Ready := by
    unfold InvokeContext.processInstruction at hready
    split at hready <;> exact hready a c List.mem_cons_self
  unfold InvokeContext.processInstruction at hready ⊢
  have hpushes := push_pushes c
  generalize c.push = result at hpushes hready ⊢
  cases hpushes with
  | foreign | full => exact ⟨h.toStacked, by simp [Sees]⟩
  | tooDeep => exact ⟨h.toStacked.keeps (grown_keeps c) rfl, by simp [Sees]⟩
  | stranded _ hnot => exact absurd hstarts hnot
  | accepted _ accounts =>
    have htied : Tied (⟨c.traceLength, a⟩ :: entries) (c.opened accounts) := ⟨h.opened accounts, hscopes⟩
    obtain ⟨hafter, hsees⟩ := hprogram _ htied fun a' c' hc' => hready a' c' (by simp [hc'])
    refine ⟨hafter.toStacked.pop, ?_⟩
    intro a' c' hmem
    rcases List.mem_cons.mp hmem with heq | hmem
    · cases heq
    · exact (hsees.append (by simp [Sees])).running (htied.provenance env) a' c' hmem

theorem enterScope_fields (c : InvokeContext) (kind : CallKind) : (c.enterScope kind).keys = c.keys ∧
    (c.enterScope kind).trace = c.trace ∧ (c.enterScope kind).stack = c.stack := by
  cases kind <;> exact ⟨rfl, rfl, rfl⟩

theorem leaveScope_fields (c : InvokeContext) (kind : CallKind) (saved : Option Nat × Option NativeCaller) :
    (c.leaveScope kind saved).keys = c.keys ∧ (c.leaveScope kind saved).trace = c.trace ∧
      (c.leaveScope kind saved).stack = c.stack := by
  cases kind <;> exact ⟨rfl, rfl, rfl⟩

theorem scopes_enterScope (h : Tied entries c) (hstarted : a.started = .child kind caller) :
    (c.enterScope kind).scopes =
      (authorizedIndex (⟨c.traceLength, a⟩ :: entries), attribution (⟨c.traceLength, a⟩ :: entries)) := by
  have hscopes := h.scopes
  unfold authorizedIndex attribution
  rw [hstarted]
  cases kind with
  | signed signers => exact hscopes
  | magicRoot => exact Prod.ext rfl (congrArg Prod.snd hscopes :)
  | as sourceProgram signers =>
    refine Prod.ext (congrArg Prod.fst hscopes :) ?_
    rw [← h.height]
    rfl

variable {conf : Configuration}

theorem Tied.configureNext (h : Tied entries c) (conf : Configuration) : Tied entries (c.configureNext conf) :=
  ⟨h.toStacked.keeps (configureNext_keeps c conf) rfl, h.scopes⟩

/-- A configured invocation is primed, in whatever scope it is to run. -/
theorem Tied.primed {signers : List Pubkey} (h : Tied (e :: rest) c)
    (hconf : c.prepareNextCpiInstruction instruction signers = .ok conf) (hprogram : a.program = instruction.programId)
    (hstarted : a.started = .child kind e.activation.program) :
    Primed (e :: rest) a ((c.configureNext conf).enterScope kind) := by
  obtain ⟨current, hcurrent, hcaller, hkey⟩ := prepareNextCpiInstruction_eq hconf
  cases h.currentIndex.symm.trans hcurrent
  obtain ⟨hkeys, htrace, hstack⟩ := enterScope_fields (c.configureNext conf) kind
  have hlength : ((c.configureNext conf).enterScope kind).traceLength = (c.configureNext conf).traceLength :=
    congrArg (·.length - 1) htrace
  have hframe (i : Nat) : ((c.configureNext conf).enterScope kind).frameAt i = (c.configureNext conf).frameAt i := by
    unfold frameAt
    rw [htrace]
  refine ⟨(h.configureNext conf).toStacked.keeps (.of_trace_eq hkeys htrace) hstack, ?_,
    .inr ⟨kind, e, rest, rfl, hstarted, ?_⟩⟩
  · have hconfigured := programKeyAt_configureNext h.reserved conf
    rw [hkey, ← hprogram] at hconfigured
    rw [hlength, ← hconfigured, programKeyAt, programKeyAt, hframe, hkeys]
  · rw [hlength, hframe, traceLength_configureNext, frameAt_configureNext h.reserved, hcaller]
    rfl

/-- An invocation keeps the stack and the scopes, and what runs below it runs with its provenance. -/
theorem Tied.invoke {program : Activation → InvokeContext → Outcome} (h : Tied (e :: rest) c)
    (hscopes : ∀ a c, (program a c).context.scopes = c.scopes)
    (hprogram : ∀ index a, Sound env (⟨index, a⟩ :: e :: rest) (program a))
    (hready : StartsReady (c.invoke kind instruction e.activation.program program).events) :
    Tied (e :: rest) (c.invoke kind instruction e.activation.program program).context ∧
      Sees env (c.invoke kind instruction e.activation.program program).events := by
  suffices hstacked : Stacked (e :: rest) (c.invoke kind instruction e.activation.program program).context ∧
      Sees env (c.invoke kind instruction e.activation.program program).events from
    ⟨⟨hstacked.1, (scopes_invoke hscopes kind instruction _ c).trans h.scopes⟩, hstacked.2⟩
  unfold InvokeContext.invoke at hready ⊢
  split at hready
  · exact ⟨h.toStacked, by simp [Sees]⟩
  next conf hconf =>
  dsimp only at hready ⊢
  have hprimed := h.primed hconf (a := ⟨instruction.programId, .child kind e.activation.program, conf⟩) rfl rfl
  have hlength : ((c.configureNext conf).enterScope kind).traceLength = (c.configureNext conf).traceLength :=
    congrArg (·.length - 1) (enterScope_fields _ kind).2.1
  obtain ⟨hafter, hsees⟩ := hprimed.processInstruction env
    (by rw [hlength]; exact scopes_enterScope (h.configureNext conf) rfl) (hprogram _ _)
    fun a c hc => hready a c (List.mem_cons_of_mem _ hc)
  obtain ⟨hkeys, htrace, hstack⟩ := leaveScope_fields
    (processInstruction _ (program ⟨instruction.programId, .child kind e.activation.program, conf⟩)
      ((c.configureNext conf).enterScope kind)).context kind (c.configureNext conf).scopes
  exact ⟨hafter.keeps (.of_trace_eq hkeys htrace) hstack, hsees.configured⟩

theorem sound_run (env : SvmEnv) (program : Behaviour) (e : Entry) (rest : List Entry) :
    Sound env (e :: rest) (program.run e.activation) := by
  induction program generalizing e rest with
  | exit result => exact fun c h _ => ⟨h, by simp [Behaviour.run, Sees]⟩
  | act effects tail ih =>
    intro c h hready
    have hacted : Tied (e :: rest) (c.apply effects) :=
      ⟨h.toStacked.keeps (.of_trace_eq rfl rfl) rfl, h.scopes⟩
    obtain ⟨hafter, hsees⟩ := ih e rest (c.apply effects) hacted
      fun a' c' hc' => hready a' c' (List.mem_cons_of_mem _ hc')
    exact ⟨hafter, hsees.running (hacted.provenance env)⟩
  | call kind instruction callee tail ihCallee ihTail =>
    intro c h hready
    obtain ⟨hinvoked, hsees⟩ := h.invoke (scopes_run callee) (fun index a => ihCallee ⟨index, a⟩ (e :: rest))
      fun a' c' hc' => hready a' c' (List.mem_append_left _ hc')
    obtain ⟨hafter, hsees'⟩ := ihTail e rest _ hinvoked
      fun a' c' hc' => hready a' c' (List.mem_append_right _ (List.mem_cons_of_mem _ hc'))
    exact ⟨hafter, hsees.append (hsees'.running (hinvoked.provenance env))⟩

/-- A top-level instruction keeps the stack empty and the scopes as they were. -/
theorem Tied.topLevel {compiled : CompiledInstruction} (h : Tied [] c) (hindex : conf.programIndex = compiled.programIdIndex)
    (ha : a = topLevelActivation c.keys compiled conf) (program : Behaviour)
    (hready : StartsReady (processInstruction a (program.run a) (c.configureNext conf)).events) :
    Tied [] (processInstruction a (program.run a) (c.configureNext conf)).context ∧
      Sees env (processInstruction a (program.run a) (c.configureNext conf)).events := by
  suffices hstacked : Stacked [] (processInstruction a (program.run a) (c.configureNext conf)).context ∧
      Sees env (processInstruction a (program.run a) (c.configureNext conf)).events from
    ⟨⟨hstacked.1, (scopes_processInstruction (scopes_run program a) _).trans h.scopes⟩, hstacked.2⟩
  have hconfigured := programKeyAt_configureNext h.reserved conf
  rw [hindex] at hconfigured
  cases hkey : c.keys[compiled.programIdIndex]? with
  | none =>
    -- `push` refuses a program that is not a key
    rw [hkey] at hconfigured
    unfold processInstruction push
    rw [hconfigured]
    exact ⟨(h.configureNext conf).toStacked, by simp [Sees]⟩
  | some key =>
    have hprimed : Primed [] a (c.configureNext conf) := by
      refine ⟨(h.configureNext conf).toStacked, ?_, .inl ⟨by rw [ha]; rfl, rfl⟩⟩
      rw [hconfigured, ha, topLevelActivation, hkey]
      rfl
    refine hprimed.processInstruction env ?_ (sound_run env program ⟨_, a⟩ []) hready
    rw [ha]
    exact h.scopes

theorem sees_processMessage {tx : ResolvedTransaction}
    {instructions : List (CompiledInstruction × Behaviour)} (h : Tied [] c)
    (hready : StartsReady (c.processMessage tx instructions).events) :
    Sees env (c.processMessage tx instructions).events := by
  induction instructions generalizing c with
  | nil => simp [processMessage, Sees]
  | cons head tail ih =>
    obtain ⟨instruction, program⟩ := head
    unfold processMessage at hready ⊢
    split at hready
    · simp [Sees]
    next conf hconf =>
    dsimp only at hready ⊢
    obtain ⟨hindex, -⟩ := prepareNextTopLevelInstruction_eq hconf
    split at hready
    · exact (h.topLevel hindex rfl program fun a' c' hc' => hready a' c' (List.mem_cons_of_mem _ hc')).2.configured
    · obtain ⟨hafter, (hsees : Sees env _)⟩ := h.topLevel hindex rfl program fun a' c' hc' =>
        hready a' c' (List.mem_cons_of_mem _ (List.mem_append_left _ hc'))
      have hnext := ih hafter fun a' c' hc' =>
        hready a' c' (List.mem_cons_of_mem _ (List.mem_append_right _ hc'))
      exact (hsees.append hnext).configured

/-- In every run of a transaction whose instructions start with a usable Instructions sysvar, MagicRoot is authorized
below the transaction level exactly as the authorized child of another builtin in a transaction of the authority, the
effective caller is the attributed source in a direct child and the physical parent elsewhere; and every invocation
puts both scopes back. -/
theorem native_authority_scoped (env : SvmEnv) (tx : ResolvedTransaction) (accounts : List AccountSharedData)
    (stackCapacity traceCapacity : Nat) (programCache : ProgramCacheForTxBatch)
    (instructions : List (CompiledInstruction × Behaviour))
    (hready : StartsReady
      ((initial tx accounts stackCapacity traceCapacity programCache).processMessage tx instructions).events) :
    Sees env ((initial tx accounts stackCapacity traceCapacity programCache).processMessage tx instructions).events ∧
      ∀ (c : InvokeContext) (kind : CallKind) (instruction : Instruction) (caller : Pubkey) (callee : Behaviour),
        (c.invoke kind instruction caller callee.run).context.scopes = c.scopes :=
  ⟨sees_processMessage ⟨⟨by simp [initial, InvokeContext.new], rfl, .nil⟩, rfl⟩ hready,
    fun c kind instruction caller callee => scopes_invoke (scopes_run callee) kind instruction caller c⟩

/-! ### A run that starts MagicRoot from a builtin -/

def authorityEnv : SvmEnv where
  authority := ⟨1⟩
  environment := 0
  verify _ _ := true
  decode _ := none
  isExempt _ _ := true
  rentStateVerified _ _ := true
  isPrecompile _ := false
  processPrecompile _ _ _ := false

/-- The transaction of the authority 1 that calls the builtin 2. -/
def builtinTransaction : ResolvedTransaction where
  signatures := [⟨0⟩]
  numRequiredSignatures := 1
  staticAccountKeys := [⟨1⟩, ⟨2⟩, magicRootId, instructionsSysvarId]
  instructions := [⟨1, [0, 1, 2, 3], []⟩]
  writableCache := 1
  keys_nodup := by decide

def builtinAccounts : List AccountSharedData :=
  [default, default, default, { account := { core := { owner := sysvarOwnerId }, data := [0, 0] } }]

def builtinCache : ProgramCacheForTxBatch where
  entries key := if key = ⟨2⟩ ∨ key = magicRootId then some .builtin else none
  modifiedEntries _ := none

def borrowing (borrowed : List Nat) : Effects := ⟨builtinAccounts, 0, 0, builtinCache, borrowed⟩

def callMagicRoot (kind : CallKind) (rest : Behaviour) : Behaviour :=
  .call kind ⟨magicRootId, [⟨magicRootId, false, false⟩], []⟩ (.exit (.ok ())) rest

def builtinEvents (program : Behaviour) : List Event :=
  ((initial builtinTransaction builtinAccounts 5 64 builtinCache).processMessage builtinTransaction
    [(⟨1, [0, 1, 2, 3], []⟩, program)]).events

/-- Started by the builtin through `native_invoke_magic_root`, MagicRoot is authorized. -/
theorem native_authority_scoped_builtin :
    StartsReady (builtinEvents (callMagicRoot .magicRoot (.exit (.ok ())))) ∧
    ∃ conf c, .running ⟨magicRootId, .child .magicRoot ⟨2⟩, conf⟩ c ∈
        builtinEvents (callMagicRoot .magicRoot (.exit (.ok ()))) ∧
      c.authorize authorityEnv = .ok () := by
  have hready : StartsReady (builtinEvents (callMagicRoot .magicRoot (.exit (.ok ())))) := by decide +kernel
  obtain ⟨hsees, -⟩ := native_authority_scoped authorityEnv builtinTransaction builtinAccounts 5 64 builtinCache
    [(⟨1, [0, 1, 2, 3], []⟩, callMagicRoot .magicRoot (.exit (.ok ())))] hready
  refine ⟨hready, _, _, List.mem_of_getElem? (i := 5) rfl, ?_⟩
  exact ((hsees _ _ (List.mem_of_getElem? (i := 5) rfl)).authorized rfl _ _ rfl).mpr (by decide)

/-- The builtin invokes MagicRoot with the Instructions sysvar borrowed, and then again, authorized. -/
def retryMagicRoot : Behaviour :=
  .act (borrowing [3]) (callMagicRoot (.signed []) (.act (borrowing []) (callMagicRoot .magicRoot (.exit (.ok ())))))

/-- The builtin invokes MagicRoot while it has the Instructions sysvar borrowed: the rejected frame stays on the stack.
The builtin takes itself for its caller, and the authorized invocation that follows is rejected as a recursive one. -/
theorem rejected_frame_stays :
    (∃ conf c, .running ⟨⟨2⟩, .topLevel, conf⟩ c ∈ builtinEvents retryMagicRoot ∧
      c.effectiveCaller = .ok (some ⟨2⟩)) ∧
    ∃ conf c, .running ⟨magicRootId, .child .magicRoot ⟨2⟩, conf⟩ c ∈ builtinEvents retryMagicRoot ∧
      c.programCache.find ⟨2⟩ = some .builtin ∧ c.keys.head? = some authorityEnv.authority ∧
      c.authorize authorityEnv = .error .callDepth :=
  ⟨⟨_, _, List.mem_of_getElem? (i := 7) rfl, by decide⟩,
    ⟨_, _, List.mem_of_getElem? (i := 11) rfl, by decide, by decide, by decide⟩⟩

end Scopes

end MagicEngine
