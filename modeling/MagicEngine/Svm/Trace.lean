import MagicEngine.Svm.Scopes
import MagicEngine.View.Content

/-!
# Slots of the instruction trace

Every instruction of a transaction is recorded in its trace, which has a fixed capacity. The slots of the top-level
instructions are counted from the start (`total_number_of_instructions_in_trace`), so that invocations can only take
what is left. Three counters are involved, and a frame that is rejected for its depth has been recorded before.

A push takes itself for an invocation when the stack is not empty. A frame that was rejected on the Instructions sysvar
is popped by its caller, whose own frame stays, so the next top-level instruction is counted as an invocation and may be
refused (`rejected_frame_takes_slot`).
-/

namespace MagicEngine

open View

/-- `parse_details`: the trace capacity of a transaction. -/
def instructionTraceCapacity : TransactionVersion → Nat
  | .magicblock => magicblockInstructionTraceLength
  | .legacy | .v0 | .v1 => maxInstructionTraceLength

namespace InvokeContext

def recorded (c : InvokeContext) : List InstructionFrame := c.trace.dropLast

def recordedCpis (c : InvokeContext) : Nat := c.recorded.countP (0 < ·.nestingLevel)

/-- The trace fits its capacity, and the counter of the invocations agrees with it. -/
structure Counted (n : Nat) (c : InvokeContext) : Prop where
  reserved : c.trace ≠ []
  capacity : c.traceCapacity = n
  length : c.recorded.length ≤ n
  cpis_le : c.cpis ≤ maxCpiTraceLength
  cpis : c.recordedCpis = c.cpis

variable {c c' : InvokeContext} {capacity topLevel pushed : Nat}

theorem length_recorded (c : InvokeContext) : c.recorded.length = c.traceLength := List.length_dropLast

theorem modify_reserved (h : c.trace ≠ []) (f : InstructionFrame → InstructionFrame) :
    c.trace.modify c.traceLength f = c.recorded ++ [f (c.trace.getLast h)] := by
  have hmodify := modify_concat c.recorded (c.trace.getLast h) f
  rwa [recorded, List.dropLast_append_getLast h, List.length_dropLast] at hmodify

theorem recorded_configureNext (h : c.trace ≠ []) (conf : Configuration) :
    (c.configureNext conf).trace ≠ [] ∧ (c.configureNext conf).recorded = c.recorded := by
  have htrace : (c.configureNext conf).trace = c.recorded ++ [_] := modify_reserved h _
  refine ⟨htrace ▸ List.concat_ne_nil _ _, ?_⟩
  exact (congrArg List.dropLast htrace).trans List.dropLast_concat

/-- A recorded frame takes one slot; it is one of an invocation when the stack was not empty. -/
theorem recorded_grown (h : c.trace ≠ []) : c.grown.trace ≠ [] ∧ c.grown.recorded.length = c.recorded.length + 1 ∧
    c.grown.recordedCpis = c.recordedCpis + if c.stack.isEmpty then 0 else 1 := by
  have htrace : c.grown.trace =
      c.recorded ++ [{ c.trace.getLast h with nestingLevel := c.stackHeight }] ++ [({} : InstructionFrame)] :=
    congrArg (· ++ [({} : InstructionFrame)]) (modify_reserved h _)
  have hframes : c.grown.recorded = c.recorded ++ [{ c.trace.getLast h with nestingLevel := c.stackHeight }] := by
    rw [recorded, htrace, List.dropLast_concat]
  refine ⟨htrace ▸ List.concat_ne_nil _ _, ?_, ?_⟩
  · rw [hframes, List.length_append, List.length_singleton]
  · rw [recordedCpis, hframes, List.countP_append, List.countP_singleton]
    cases hstack : c.stack <;> simp [recordedCpis, stackHeight, hstack]

theorem cpis_grown (c : InvokeContext) : c.grown.cpis = c.cpis + if c.stack.isEmpty then 0 else 1 := by
  cases hstack : c.stack <;> simp [grown, hstack]

theorem Counted.grown (h : Counted capacity c) (hroom : c.Room) : Counted capacity c.grown := by
  obtain ⟨hreserved, hlength, hcpis⟩ := recorded_grown h.reserved
  have hslot := hroom.slot
  rw [h.capacity, ← length_recorded] at hslot
  refine ⟨hreserved, h.capacity, by omega, ?_, by rw [hcpis, cpis_grown, h.cpis]⟩
  rw [cpis_grown]
  split
  · exact h.cpis_le
  · next hstack => exact (hroom.invocation (by simpa using hstack)).2.1

/-- Whatever happens to a transaction, its trace is counted. -/
theorem counted_invariant (capacity : Nat) : Invariant (Counted capacity) where
  apply c effects h := ⟨h.reserved, h.capacity, h.length, h.cpis_le, h.cpis⟩
  configureNext c conf h := by
    obtain ⟨hreserved, hrecorded⟩ := recorded_configureNext h.reserved conf
    refine ⟨hreserved, h.capacity, hrecorded ▸ h.length, h.cpis_le, ?_⟩
    rw [recordedCpis, hrecorded]
    exact h.cpis
  push c h := by
    have hpushes := push_pushes c
    generalize c.push = result at hpushes
    cases hpushes with
    | foreign | full => exact h
    | tooDeep hrecords => exact h.grown hrecords.2
    | stranded hrecords | accepted hrecords =>
      have hgrown := h.grown hrecords.2
      exact ⟨hgrown.reserved, hgrown.capacity, hgrown.length, hgrown.cpis_le, hgrown.cpis⟩
  pop c h := ⟨h.reserved, h.capacity, h.length, h.cpis_le, h.cpis⟩
  enterScope c kind h := by cases kind <;> exact ⟨h.reserved, h.capacity, h.length, h.cpis_le, h.cpis⟩
  leaveScope c kind saved h := by cases kind <;> exact ⟨h.reserved, h.capacity, h.length, h.cpis_le, h.cpis⟩

/-! ### The slots of the top-level instructions -/

/-- Of `topLevel` top-level instructions `pushed` have been pushed, and the slots of the others are free. -/
structure Reserved (topLevel pushed : Nat) (c : InvokeContext) : Prop where
  reserved : c.trace ≠ []
  total : c.totalInstructions = topLevel + c.cpis
  total_le : c.totalInstructions ≤ c.traceCapacity
  length : c.recorded.length ≤ pushed + c.cpis

theorem Reserved.configureNext (h : Reserved topLevel pushed c) (conf : Configuration) :
    Reserved topLevel pushed (c.configureNext conf) := by
  obtain ⟨hreserved, hrecorded⟩ := recorded_configureNext h.reserved conf
  exact ⟨hreserved, h.total, h.total_le, hrecorded ▸ h.length⟩

theorem Reserved.enterScope (h : Reserved topLevel pushed c) (kind : CallKind) :
    Reserved topLevel pushed (c.enterScope kind) := by
  cases kind <;> exact ⟨h.reserved, h.total, h.total_le, h.length⟩

theorem Reserved.leaveScope (h : Reserved topLevel pushed c) (kind : CallKind)
    (saved : Option Nat × Option NativeCaller) : Reserved topLevel pushed (c.leaveScope kind saved) := by
  cases kind <;> exact ⟨h.reserved, h.total, h.total_le, h.length⟩

theorem Reserved.mono (h : Reserved topLevel pushed c) {pushed' : Nat} (hle : pushed ≤ pushed') :
    Reserved topLevel pushed' c :=
  ⟨h.reserved, h.total, h.total_le, h.length.trans (Nat.add_le_add_right hle _)⟩

/-- An instruction on the empty stack fills a slot of its own, any other one counts as an invocation. -/
theorem Reserved.grown (h : Reserved topLevel pushed c) (hroom : c.Room) :
    Reserved topLevel (pushed + c.stack.isEmpty.toNat) c.grown := by
  obtain ⟨hreserved, hlength, -⟩ := recorded_grown h.reserved
  have hcpis := cpis_grown c
  have htotal : c.grown.totalInstructions = c.totalInstructions + if c.stack.isEmpty then 0 else 1 := by
    cases hstack : c.stack <;> simp [InvokeContext.grown, hstack]
  have hbefore := h.length
  have hbefore' := h.total
  cases hstack : c.stack with
  | nil =>
    simp only [hstack, List.isEmpty_nil, if_true, Nat.add_zero] at hcpis htotal
    refine ⟨hreserved, by rw [htotal, hcpis, hbefore'], htotal ▸ h.total_le, ?_⟩
    rw [hlength, hcpis, List.isEmpty_nil, Bool.toNat_true]
    omega
  | cons index rest =>
    obtain ⟨-, -, htotalLt⟩ := hroom.invocation (by rw [hstack]; simp)
    simp only [hstack, List.isEmpty_cons, Bool.false_eq_true, if_false] at hcpis htotal
    refine ⟨hreserved, by rw [htotal, hcpis, hbefore', Nat.add_assoc], htotal ▸ htotalLt, ?_⟩
    rw [hlength, hcpis, List.isEmpty_cons, Bool.toNat_false]
    omega

theorem Reserved.room (h : Reserved topLevel pushed c) (hstack : c.stack = []) (hlt : pushed < topLevel) : c.Room := by
  have hlength := h.length
  have htotal := h.total
  have htotalLe := h.total_le
  rw [length_recorded] at hlength
  exact ⟨by omega, fun hne => absurd hstack hne⟩

/-- With a usable Instructions sysvar an instruction that returns leaves the stack as it was, and takes one slot. -/
theorem Reserved.processInstruction {a : Activation} {program : InvokeContext → Outcome}
    (h : Reserved topLevel pushed c) (hready : StartsReady (processInstruction a program c).events)
    (hprogram : ∀ c', c'.stack = c.traceLength :: c.stack → StartsReady (program c').events →
      Reserved topLevel (pushed + c.stack.isEmpty.toNat) c' → (program c').context.stack = c'.stack ∧
        Reserved topLevel (pushed + c.stack.isEmpty.toNat) (program c').context) :
    (processInstruction a program c).context.stack = c.stack ∧
      Reserved topLevel (pushed + c.stack.isEmpty.toNat) (processInstruction a program c).context := by
  have hstarts : c.Ready := by
    unfold InvokeContext.processInstruction at hready
    split at hready <;> exact hready a c List.mem_cons_self
  unfold InvokeContext.processInstruction at hready ⊢
  have hpushes := push_pushes c
  generalize c.push = result at hpushes hready ⊢
  cases hpushes with
  | foreign | full => exact ⟨rfl, h.mono (Nat.le_add_right _ _)⟩
  | tooDeep hrecords => exact ⟨rfl, h.grown hrecords.2⟩
  | stranded _ hnot => exact absurd hstarts hnot
  | accepted hrecords accounts =>
    have hgrown := h.grown hrecords.2
    obtain ⟨hstack, hafter⟩ := hprogram (c.opened accounts) rfl
      (fun a' c' hc' => hready a' c' (by simp [hc'])) ⟨hgrown.reserved, hgrown.total, hgrown.total_le, hgrown.length⟩
    refine ⟨?_, hafter.reserved, hafter.total, hafter.total_le, hafter.length⟩
    exact congrArg List.tail hstack

theorem Reserved.run (program : Behaviour) {a : Activation} (h : Reserved topLevel pushed c) (hstack : c.stack ≠ [])
    (hready : StartsReady (program.run a c).events) :
    (program.run a c).context.stack = c.stack ∧ Reserved topLevel pushed (program.run a c).context := by
  induction program generalizing a c with
  | exit result => exact ⟨rfl, h⟩
  | act effects rest ih =>
    exact ih (c := c.apply effects) ⟨h.reserved, h.total, h.total_le, h.length⟩ hstack
      fun a' c' hc' => hready a' c' (List.mem_cons_of_mem _ hc')
  | call kind instruction callee rest ihCallee ihRest =>
    have hinvoked : (c.invoke kind instruction a.program callee.run).context.stack = c.stack ∧
        Reserved topLevel pushed (c.invoke kind instruction a.program callee.run).context := by
      have hready' : StartsReady (c.invoke kind instruction a.program callee.run).events :=
        fun a' c' hc' => hready a' c' (List.mem_append_left _ hc')
      unfold invoke at hready' ⊢
      split at hready'
      · exact ⟨rfl, h⟩
      next conf _ =>
      dsimp only at hready' ⊢
      have hscope : ((c.configureNext conf).enterScope kind).stack = c.stack := (Scopes.enterScope_fields _ kind).2.2
      have hempty : c.stack.isEmpty = false := List.isEmpty_eq_false_iff.mpr hstack
      have hcount : pushed + ((c.configureNext conf).enterScope kind).stack.isEmpty.toNat = pushed := by
        rw [hscope, hempty, Bool.toNat_false, Nat.add_zero]
      obtain ⟨hsame, hafter⟩ := ((h.configureNext conf).enterScope kind).processInstruction
        (a := ⟨instruction.programId, .child kind a.program, conf⟩)
        (fun a' c' hc' => hready' a' c' (List.mem_cons_of_mem _ hc')) fun c' hc' hstarts hreserved => by
          rw [hcount] at hreserved ⊢
          exact ihCallee hreserved (by rw [hc']; simp) hstarts
      rw [hcount] at hafter
      refine ⟨?_, hafter.leaveScope kind _⟩
      rw [(Scopes.leaveScope_fields _ kind _).2.2, hsame, hscope]
    obtain ⟨hsame, hafter⟩ := ihRest hinvoked.2 (by rw [hinvoked.1]; exact hstack)
      fun a' c' hc' => hready a' c' (List.mem_append_right _ (List.mem_cons_of_mem _ hc'))
    exact ⟨hsame.trans hinvoked.1, hafter⟩

/-- No instruction below the top level is started as one. -/
def Below (events : List Event) : Prop := ∀ a c, .pushing a c ∈ events → a.started ≠ .topLevel

theorem below_processInstruction {a : Activation} {program : InvokeContext → Outcome}
    (hprogram : ∀ c, Below (program c).events) {a' : Activation}
    (hmem : .pushing a' c' ∈ (processInstruction a program c).events) (htop : a'.started = .topLevel) :
    a' = a ∧ c' = c := by
  unfold processInstruction at hmem
  split at hmem
  · simpa using hmem
  · simp only [List.mem_cons, List.mem_append, Event.pushing.injEq, reduceCtorEq, List.not_mem_nil, false_or,
      or_false] at hmem
    rcases hmem with heq | hmem
    · exact heq
    · exact absurd htop (hprogram _ a' c' hmem)

theorem below_run (program : Behaviour) (a : Activation) (c : InvokeContext) : Below (program.run a c).events := by
  induction program generalizing a c with
  | exit result => exact fun a' c' hmem => nomatch hmem
  | act effects rest ih =>
    intro a' c' hmem
    rcases List.mem_cons.mp hmem with heq | hmem
    · cases heq
    · exact ih a _ a' c' hmem
  | call kind instruction callee rest ihCallee ihRest =>
    intro a' c' hmem
    rcases List.mem_append.mp hmem with hmem | hmem
    · unfold invoke at hmem
      split at hmem
      · cases hmem
      rcases List.mem_cons.mp hmem with heq | hmem
      · cases heq
      · intro htop
        obtain ⟨rfl, -⟩ := below_processInstruction (ihCallee _) hmem htop
        cases htop
    · rcases List.mem_cons.mp hmem with heq | hmem
      · cases heq
      · exact ihRest a _ a' c' hmem

/-- A top-level instruction that is left to push finds its slot. -/
theorem Reserved.push_ne (h : Reserved topLevel pushed c) (hstack : c.stack = []) (hlt : pushed < topLevel)
    (hready : c.Ready) : c.push.2 ≠ .error .maxInstructionTraceLengthExceeded := by
  have hroom := h.room hstack hlt
  have hpushes := push_pushes c
  generalize c.push = result at hpushes
  cases hpushes with
  | foreign _ he => exact fun heq => he (Except.error.inj heq)
  | full hnot => exact absurd hroom hnot
  | tooDeep => exact nofun
  | stranded _ hnot => exact absurd hready hnot
  | accepted => exact nofun

/-- Every top-level instruction the events see starting finds its slot. -/
def SlotsFree (events : List Event) : Prop :=
  ∀ a c, .pushing a c ∈ events → a.started = .topLevel → c.push.2 ≠ .error .maxInstructionTraceLengthExceeded

theorem Reserved.started {conf : Configuration} {a : Activation} (h : Reserved topLevel pushed c) (hstack : c.stack = [])
    (hlt : pushed < topLevel) (program : Behaviour)
    (hready : StartsReady (InvokeContext.processInstruction a (program.run a) (c.configureNext conf)).events) :
    (InvokeContext.processInstruction a (program.run a) (c.configureNext conf)).context.stack = [] ∧
      Reserved topLevel (pushed + 1) (InvokeContext.processInstruction a (program.run a) (c.configureNext conf)).context ∧
      SlotsFree (InvokeContext.processInstruction a (program.run a) (c.configureNext conf)).events := by
  have hconfigured := h.configureNext conf
  have hempty : (c.configureNext conf).stack.isEmpty = true := List.isEmpty_iff.mpr hstack
  obtain ⟨hsame, hafter⟩ := hconfigured.processInstruction hready fun c' hc' hstarts hreserved =>
    hreserved.run program (by rw [hc']; simp) hstarts
  rw [hempty, Bool.toNat_true] at hafter
  refine ⟨hsame.trans hstack, hafter, fun a' c' hmem htop => ?_⟩
  have hstarts := hready a' c' hmem
  obtain ⟨-, rfl⟩ := below_processInstruction (below_run program a) hmem htop
  exact hconfigured.push_ne hstack hlt hstarts

theorem SlotsFree.configured {conf : Configuration} {events : List Event} (h : SlotsFree events) :
    SlotsFree (.configured conf :: events) := by
  intro a c hmem
  rcases List.mem_cons.mp hmem with heq | hmem
  · cases heq
  · exact h a c hmem

theorem Reserved.processMessage {tx : ResolvedTransaction} {instructions : List (CompiledInstruction × Behaviour)}
    (h : Reserved topLevel pushed c) (hstack : c.stack = []) (hle : pushed + instructions.length ≤ topLevel)
    (hready : StartsReady (c.processMessage tx instructions).events) :
    SlotsFree (c.processMessage tx instructions).events := by
  induction instructions generalizing c pushed with
  | nil => exact fun a c hmem => nomatch hmem
  | cons head tail ih =>
    obtain ⟨instruction, program⟩ := head
    rw [List.length_cons] at hle
    unfold InvokeContext.processMessage at hready ⊢
    split at hready
    · exact fun a c hmem => nomatch hmem
    dsimp only at hready ⊢
    split at hready
    · obtain ⟨-, -, hfree⟩ := h.started hstack (by omega) program
        fun a' c' hc' => hready a' c' (List.mem_cons_of_mem _ hc')
      exact hfree.configured
    · obtain ⟨hstack', hafter, hfree⟩ := h.started hstack (by omega) program
        fun a' c' hc' => hready a' c' (List.mem_cons_of_mem _ (List.mem_append_left _ hc'))
      have hnext := ih hafter hstack' (by omega)
        fun a' c' hc' => hready a' c' (List.mem_cons_of_mem _ (List.mem_append_right _ hc'))
      exact SlotsFree.configured fun a' c' hmem => (List.mem_append.mp hmem).elim (hfree a' c') (hnext a' c')

/-- In every run of a transaction at most `maxCpiTraceLength` invocations are recorded and all recorded frames fit the
trace, at every moment. If the instructions start with a usable Instructions sysvar, every top-level instruction finds
its slot. -/
theorem top_level_slots_reserved (version : TransactionVersion) (tx : ResolvedTransaction)
    (accounts : List AccountSharedData) (stackCapacity : Nat) (programCache : ProgramCacheForTxBatch)
    (instructions : List (CompiledInstruction × Behaviour)) (hmessage : instructions.map Prod.fst = tx.instructions)
    (hle : tx.instructions.length ≤ instructionTraceCapacity version) :
    (∀ e ∈ ((initial tx accounts stackCapacity (instructionTraceCapacity version) programCache).processMessage tx
        instructions).events, ∀ c ∈ e.contexts,
      c.recordedCpis ≤ maxCpiTraceLength ∧ c.recorded.length ≤ instructionTraceCapacity version) ∧
    (StartsReady ((initial tx accounts stackCapacity (instructionTraceCapacity version) programCache).processMessage tx
        instructions).events →
      SlotsFree ((initial tx accounts stackCapacity (instructionTraceCapacity version) programCache).processMessage tx
        instructions).events) := by
  constructor
  · have hcounted : Counted (instructionTraceCapacity version)
        (initial tx accounts stackCapacity (instructionTraceCapacity version) programCache) :=
      ⟨List.cons_ne_nil _ _, rfl, Nat.zero_le _, Nat.zero_le _, rfl⟩
    intro e he c hc
    have hat := ((counted_invariant _).processMessage tx instructions hcounted).events e he c hc
    exact ⟨hat.cpis ▸ hat.cpis_le, hat.length⟩
  · have hreserved : Reserved tx.instructions.length 0
        (initial tx accounts stackCapacity (instructionTraceCapacity version) programCache) :=
      ⟨List.cons_ne_nil _ _, rfl, hle, Nat.zero_le _⟩
    intro hready
    refine hreserved.processMessage rfl ?_ hready
    rw [← hmessage, List.length_map, Nat.zero_add]

/-! ### A rejected frame and the top-level instruction after it -/

/-- Two calls of the builtin 2. -/
def twoCalls : ResolvedTransaction :=
  { Scopes.builtinTransaction with instructions := [⟨1, [0, 1, 2, 3], []⟩, ⟨1, [0, 1, 2, 3], []⟩] }

/-- A number of invocations one after the other. -/
def callTimes : Nat → Behaviour → Behaviour
  | 0, rest => rest
  | n + 1, rest => Scopes.callMagicRoot (.signed []) (callTimes n rest)

def twoCallsEvents (first : Behaviour) : List Event :=
  ((initial twoCalls Scopes.builtinAccounts 5 (instructionTraceCapacity .v1) Scopes.builtinCache).processMessage twoCalls
    [(⟨1, [0, 1, 2, 3], []⟩, first), (⟨1, [0, 1, 2, 3], []⟩, .exit (.ok ()))]).events

/-- After a top-level instruction and two invocations of it, the second top-level instruction has its slot. -/
theorem top_level_slots_reserved_twoCalls :
    ∃ a c, .pushing a c ∈ twoCallsEvents (callTimes 2 (.exit (.ok ()))) ∧ a.started = .topLevel ∧ c.recordedCpis = 2 ∧
      c.push.2 ≠ .error .maxInstructionTraceLengthExceeded := by
  have hready : StartsReady (twoCallsEvents (callTimes 2 (.exit (.ok ())))) := by decide +kernel
  have h := top_level_slots_reserved .v1 twoCalls Scopes.builtinAccounts 5 Scopes.builtinCache
    [(⟨1, [0, 1, 2, 3], []⟩, callTimes 2 (.exit (.ok ()))), (⟨1, [0, 1, 2, 3], []⟩, .exit (.ok ()))] rfl (by decide)
  have hmem := List.mem_of_getElem? (l := twoCallsEvents (callTimes 2 (.exit (.ok ())))) (i := 15) rfl
  exact ⟨_, _, hmem, rfl, by decide +kernel, h.2 hready _ _ hmem rfl⟩

/-- The first call makes 61 invocations, and one that is rejected on the borrowed Instructions sysvar. -/
def rejectedLast : Behaviour :=
  callTimes 61 (.act (Scopes.borrowing [3]) (Scopes.callMagicRoot (.signed []) (.act (Scopes.borrowing [])
    (.exit (.ok ())))))

/-- The frame of the first call stays on the stack, the second call counts as an invocation and finds no slot. -/
theorem rejected_frame_takes_slot :
    twoCalls.instructions.length ≤ instructionTraceCapacity .v1 ∧
    ∃ a c, .pushing a c ∈ twoCallsEvents rejectedLast ∧ a.started = .topLevel ∧
      c.push.2 = .error .maxInstructionTraceLengthExceeded := by
  refine ⟨by decide, ?_⟩
  have hany : ((twoCallsEvents rejectedLast).filterMap Event.start).any (fun e =>
      e.1.started == .topLevel && decide (e.2.push.2 = .error .maxInstructionTraceLengthExceeded)) = true := by
    decide +kernel
  obtain ⟨⟨a, c⟩, hmem, hevent⟩ := List.any_eq_true.mp hany
  rw [Bool.and_eq_true, beq_iff_eq, decide_eq_true_iff] at hevent
  exact ⟨a, c, Event.mem_filterMap_start.mp hmem, hevent⟩

end InvokeContext

end MagicEngine
