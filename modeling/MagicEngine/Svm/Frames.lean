import MagicEngine.Svm.Scopes

/-!
# Configured instructions and their frames

An instruction is configured before it is pushed: its accounts, deduplication map and data are appended to three
vectors, and its program and its caller are written into the reserved frame of the trace. A running instruction reads
the entries of the vectors at its index in the trace. Behind the instruction stack there are two more stacks, of syscall
and of memory contexts.

A push that is refused before the frame is recorded leaves the appended entries behind, and a push that fails on the
Instructions sysvar leaves its frame on the stack. Runs in which neither has consequences are `Undisturbed`; in these
every instruction runs with what was configured for it, and every instruction that returns leaves the three stacks as
high as they were.
-/

namespace MagicEngine

structure InstructionView where
  programIndex : Nat
  accounts : List InstructionAccount
  dedupMap : List Nat
  data : List UInt8
  callerIndex : Nat
deriving DecidableEq, Repr

def Configuration.view (conf : Configuration) : InstructionView :=
  ⟨conf.programIndex, conf.accounts, conf.dedupMap, conf.data, conf.caller.getD noPosition⟩

namespace InvokeContext

def viewAt (c : InvokeContext) (index : Nat) : InstructionView :=
  ⟨(c.frameAt index).programIndex, c.accountsAt index, c.deduplicationMaps.getD index [], c.dataAt index,
    (c.frameAt index).callerIndex⟩

def currentView (c : InvokeContext) : Option InstructionView := c.currentIndex.map c.viewAt

def heights (c : InvokeContext) : Nat × Nat × Nat := (c.stackHeight, c.syscallContexts, c.memoryContexts)

/-- A running instruction sees its configuration; one that has returned has left the stacks as they were. -/
def Event.Aligned : Event → Prop
  | .configured _ | .pushing _ _ => True
  | .running a c => c.currentView = some a.conf.view
  | .returned before after => after.heights = before.heights

instance : ∀ e : Event, Decidable e.Aligned
  | .configured _ | .pushing _ _ => inferInstanceAs (Decidable True)
  | .running a c => inferInstanceAs (Decidable (c.currentView = some a.conf.view))
  | .returned before after => inferInstanceAs (Decidable (after.heights = before.heights))

/-! ### Runs without consequences of a rejected frame -/

def Event.isConfigured : Event → Bool
  | .configured _ => true
  | _ => false

def NoneConfigured (events : List Event) : Prop := ∀ e ∈ events, ¬e.isConfigured

/-- An instruction that is pushed can be noted in the Instructions sysvar, and if its frame is not recorded, no
instruction is configured `after` it. -/
def Event.Harmless (after : List Event) : Event → Prop
  | .pushing _ c => c.Ready ∧ (¬c.Records → NoneConfigured after)
  | _ => True

def Undisturbed : List Event → Prop
  | [] => True
  | e :: after => e.Harmless after ∧ Undisturbed after

def Spoiled (events : List Event) : Prop := ∃ a c, .pushing a c ∈ events ∧ ¬c.Records

variable {events events' : List Event}

theorem Spoiled.mono (h : Spoiled events) (hsubset : events ⊆ events') : Spoiled events' := by
  obtain ⟨a, c, hc, hrecords⟩ := h
  exact ⟨a, c, hsubset hc, hrecords⟩

theorem NoneConfigured.left (h : NoneConfigured (events ++ events')) : NoneConfigured events :=
  fun e he => h e (List.mem_append_left _ he)

theorem NoneConfigured.right (h : NoneConfigured (events ++ events')) : NoneConfigured events' :=
  fun e he => h e (List.mem_append_right _ he)

theorem Undisturbed.left (h : Undisturbed (events ++ events')) : Undisturbed events := by
  induction events with
  | nil => trivial
  | cons e after ih =>
    refine ⟨?_, ih h.2⟩
    cases e with
    | pushing a c => exact ⟨h.1.1, fun hrecords => (h.1.2 hrecords).left⟩
    | configured conf => trivial
    | running a c => trivial
    | returned before after => trivial

theorem Undisturbed.right (h : Undisturbed (events ++ events')) : Undisturbed events' := by
  induction events with
  | nil => exact h
  | cons e after ih => exact ih h.2

theorem Undisturbed.noneConfigured (h : Undisturbed (events ++ events')) (hspoiled : Spoiled events) :
    NoneConfigured events' := by
  obtain ⟨a, c, hc, hrecords⟩ := hspoiled
  obtain ⟨before, after, rfl⟩ := List.append_of_mem hc
  rw [List.append_assoc] at h
  exact (h.right.1.2 hrecords).right

end InvokeContext

namespace Frames

open InvokeContext

/-! ### What starting and ending an instruction does to the frames -/

/-- All that the frames of the instructions are made of. -/
def frames (c : InvokeContext) :
    List InstructionFrame × List Nat × List (List InstructionAccount) × List (List Nat) × List (List UInt8) ×
      Nat × Nat :=
  (c.trace, c.stack, c.instructionAccounts, c.deduplicationMaps, c.instructionData, c.syscallContexts, c.memoryContexts)

/-- An instruction on the stack: its index in the trace, and what was configured for it. -/
structure Slot where
  index : Nat
  conf : Configuration

/-- The stack is `entries`, the innermost instruction first, and each of them reads its own configuration. -/
structure Framed (entries : List Slot) (c : InvokeContext) : Prop where
  reserved : c.trace ≠ []
  stack : c.stack = entries.map (·.index)
  recorded : ∀ e ∈ entries, e.index < c.traceLength
  views : ∀ e ∈ entries, c.viewAt e.index = e.conf.view
  accounts : c.traceLength ≤ c.instructionAccounts.length
  maps : c.traceLength ≤ c.deduplicationMaps.length
  data : c.traceLength ≤ c.instructionData.length

structure Sized (n : Nat) (c : InvokeContext) : Prop where
  accounts : c.instructionAccounts.length = n
  maps : c.deduplicationMaps.length = n
  data : c.instructionData.length = n

/-- The vectors hold the recorded instructions and no other, and the reserved frame has no caller. -/
structure Level (c : InvokeContext) : Prop extends Sized c.traceLength c where
  caller : (c.frameAt c.traceLength).callerIndex = noPosition

/-- The reserved frame is that of `conf`. -/
structure Configured (conf : Configuration) (c : InvokeContext) : Prop extends Sized (c.traceLength + 1) c where
  view : c.viewAt c.traceLength = conf.view

variable {events events' : List Event} {entries rest : List Slot} {e : Slot} {c c' : InvokeContext} {conf : Configuration}

theorem Framed.congr (h : Framed entries c) (hframes : frames c' = frames c) : Framed entries c' := by
  obtain ⟨reserved, stack, recorded, views, accounts, maps, data⟩ := h
  simp only [frames, Prod.mk.injEq] at hframes
  obtain ⟨htrace, hstack, haccounts, hmaps, hdata, -, -⟩ := hframes
  simp only [viewAt, InvokeContext.frameAt, InvokeContext.accountsAt, InvokeContext.dataAt,
    InvokeContext.traceLength] at recorded views accounts maps data
  constructor <;> simpa only [viewAt, InvokeContext.frameAt, InvokeContext.accountsAt, InvokeContext.dataAt,
    InvokeContext.traceLength, htrace, hstack, haccounts, hmaps, hdata]

theorem Level.congr (h : Level c) (hframes : frames c' = frames c) : Level c' := by
  obtain ⟨⟨accounts, maps, data⟩, caller⟩ := h
  simp only [frames, Prod.mk.injEq] at hframes
  obtain ⟨htrace, -, haccounts, hmaps, hdata, -, -⟩ := hframes
  simp only [InvokeContext.frameAt, InvokeContext.traceLength] at accounts maps data caller
  refine ⟨⟨?_, ?_, ?_⟩, ?_⟩ <;>
    simpa only [InvokeContext.frameAt, InvokeContext.traceLength, htrace, haccounts, hmaps, hdata]

theorem Configured.congr (h : Configured conf c) (hframes : frames c' = frames c) : Configured conf c' := by
  obtain ⟨⟨accounts, maps, data⟩, view⟩ := h
  simp only [frames, Prod.mk.injEq] at hframes
  obtain ⟨htrace, -, haccounts, hmaps, hdata, -, -⟩ := hframes
  simp only [viewAt, InvokeContext.frameAt, InvokeContext.accountsAt, InvokeContext.dataAt,
    InvokeContext.traceLength] at accounts maps data view
  refine ⟨⟨?_, ?_, ?_⟩, ?_⟩ <;> simpa only [viewAt, InvokeContext.frameAt, InvokeContext.accountsAt,
    InvokeContext.dataAt, InvokeContext.traceLength, htrace, haccounts, hmaps, hdata]

theorem heights_congr (hframes : frames c' = frames c) : c'.heights = c.heights :=
  congrArg (fun f => (f.2.1.length, f.2.2.2.2.2.1, f.2.2.2.2.2.2)) hframes

theorem Framed.currentView (h : Framed (e :: rest) c) : c.currentView = some e.conf.view := by
  rw [InvokeContext.currentView, currentIndex, h.stack, List.map_cons, List.head?_cons, Option.map_some,
    h.views e List.mem_cons_self]

private theorem getD_concat_of_lt {α : Type} {xs : List α} {i : Nat} (hi : i < xs.length) (x d : α) :
    (xs ++ [x]).getD i d = xs.getD i d := by
  rw [List.getD_eq_getElem?_getD, List.getD_eq_getElem?_getD, List.getElem?_append_left hi]

private theorem getD_concat_length {α : Type} (xs : List α) (x d : α) : (xs ++ [x]).getD xs.length d = x := by
  simp [List.getD_eq_getElem?_getD]

private theorem getD_concat_last {α : Type} (xs : List α) (x d : α) :
    (xs ++ [x]).getD ((xs ++ [x]).length - 1) d = x := by
  rw [List.length_append, List.length_singleton, Nat.add_sub_cancel, getD_concat_length]

theorem Framed.configureNext (h : Framed entries c) (conf : Configuration) : Framed entries (c.configureNext conf) := by
  have hkeeps := configureNext_keeps c conf
  have hlength := traceLength_configureNext c conf
  have hgrow : ∀ {α : Type} (xs : List α) (x : α), c.traceLength ≤ xs.length → c.traceLength ≤ (xs ++ [x]).length :=
    fun xs x hle => hle.trans (by simp)
  refine ⟨?_, h.stack, fun e he => hlength ▸ h.recorded e he, fun e he => ?_, hlength ▸ hgrow _ _ h.accounts,
    hlength ▸ hgrow _ _ h.maps, hlength ▸ hgrow _ _ h.data⟩
  · exact List.length_pos_iff.mp (length_configureNext c conf ▸ List.length_pos_iff.mpr h.reserved)
  · have hlt := h.recorded e he
    rw [← h.views e he]
    unfold viewAt
    congr 1
    · exact congrArg (·.programIndex) (hkeeps.frames e.index hlt)
    · exact getD_concat_of_lt (Nat.lt_of_lt_of_le hlt h.accounts) _ _
    · exact getD_concat_of_lt (Nat.lt_of_lt_of_le hlt h.maps) _ _
    · exact getD_concat_of_lt (Nat.lt_of_lt_of_le hlt h.data) _ _
    · exact congrArg (·.callerIndex) (hkeeps.frames e.index hlt)

theorem Level.configureNext (h : Level c) (hreserved : c.trace ≠ []) (conf : Configuration) :
    Configured conf (c.configureNext conf) := by
  have hlength := traceLength_configureNext c conf
  have hframe := frameAt_configureNext hreserved conf
  refine ⟨⟨?_, ?_, ?_⟩, ?_⟩
  · rw [hlength, ← h.accounts]; exact List.length_append
  · rw [hlength, ← h.maps]; exact List.length_append
  · rw [hlength, ← h.data]; exact List.length_append
  · rw [hlength]
    unfold viewAt Configuration.view
    congr 1
    · exact congrArg (·.programIndex) hframe
    · exact h.accounts ▸ getD_concat_length _ _ _
    · exact h.maps ▸ getD_concat_length _ _ _
    · exact h.data ▸ getD_concat_length _ _ _
    · exact (congrArg (·.callerIndex) hframe).trans (congrArg conf.caller.getD h.caller)

theorem viewAt_grown (c : InvokeContext) {i : Nat} (hi : i ≤ c.traceLength) : c.grown.viewAt i = c.viewAt i := by
  have hframe : (c.grown.frameAt i).programIndex = (c.frameAt i).programIndex ∧
      (c.grown.frameAt i).callerIndex = (c.frameAt i).callerIndex := by
    rcases Nat.lt_or_eq_of_le hi with hlt | rfl
    · exact ⟨congrArg (·.programIndex) ((grown_keeps c).frames i hlt),
        congrArg (·.callerIndex) ((grown_keeps c).frames i hlt)⟩
    · exact grown_reserved c
  unfold viewAt
  rw [hframe.1, hframe.2]
  rfl

theorem Framed.grown (h : Framed entries c) (hconf : Configured conf c) : Framed entries c.grown := by
  have hlength := traceLength_grown h.reserved
  refine ⟨?_, h.stack, fun e he => ?_, fun e he => ?_, ?_, ?_, ?_⟩
  · exact List.length_pos_iff.mp (length_grown c ▸ Nat.succ_pos _)
  · exact hlength ▸ Nat.lt_succ_of_lt (h.recorded e he)
  · rw [viewAt_grown c (h.recorded e he).le, h.views e he]
  · exact hlength ▸ hconf.accounts.ge
  · exact hlength ▸ hconf.maps.ge
  · exact hlength ▸ hconf.data.ge

theorem Configured.grown (h : Configured conf c) (hframed : Framed entries c) : Level c.grown := by
  have hlength := traceLength_grown hframed.reserved
  refine ⟨⟨hlength ▸ h.accounts, hlength ▸ h.maps, hlength ▸ h.data⟩, ?_⟩
  exact congrArg (·.callerIndex) (getD_concat_last _ ({} : InstructionFrame) {})

theorem Framed.opened (h : Framed entries c) (hconf : Configured conf c) (accounts : List AccountSharedData) :
    Framed (⟨c.traceLength, conf⟩ :: entries) (c.opened accounts) := by
  have hgrown := h.grown hconf
  refine ⟨hgrown.reserved, congrArg (c.traceLength :: ·) h.stack, ?_, ?_, hgrown.accounts, hgrown.maps, hgrown.data⟩
  · exact List.forall_mem_cons.mpr ⟨(traceLength_grown h.reserved).symm ▸ Nat.lt_succ_self _, hgrown.recorded⟩
  · exact List.forall_mem_cons.mpr ⟨(viewAt_grown c le_rfl).trans hconf.view, hgrown.views⟩

theorem Configured.opened (h : Configured conf c) (hframed : Framed entries c) (accounts : List AccountSharedData) :
    Level (c.opened accounts) := by
  obtain ⟨⟨haccounts, hmaps, hdata⟩, hcaller⟩ := h.grown hframed
  exact ⟨⟨haccounts, hmaps, hdata⟩, hcaller⟩

theorem Framed.pop (h : Framed (e :: rest) c) : Framed rest c.pop.1 := by
  have hstack : c.stack.tail = rest.map (·.index) := by rw [h.stack]; rfl
  exact ⟨h.reserved, hstack, (List.forall_mem_cons.mp h.recorded).2, (List.forall_mem_cons.mp h.views).2, h.accounts,
    h.maps, h.data⟩

theorem Level.pop (h : Level c) : Level c.pop.1 := ⟨⟨h.accounts, h.maps, h.data⟩, h.caller⟩

theorem heights_pop_opened {accounts : List AccountSharedData} (h : c'.heights = (c.opened accounts).heights) :
    c'.pop.1.heights = c.heights := by
  simp only [heights, Prod.mk.injEq] at h
  obtain ⟨hstack, hsyscalls, hmemory⟩ := h
  have hopened : (c.opened accounts).stackHeight = c.stackHeight + 1 := rfl
  unfold heights
  refine Prod.ext ?_ (Prod.ext ?_ ?_)
  · calc c'.stack.tail.length = c'.stackHeight - 1 := List.length_tail
      _ = c.stackHeight := by rw [hstack, hopened, Nat.add_sub_cancel]
  · exact Nat.sub_eq_of_eq_add hsyscalls
  · exact Nat.sub_eq_of_eq_add hmemory

/-! ### Runs of programs -/

/-- What `events` between `c` and `c'` leave: every moment is aligned, the stacks are those of before, and without a
frame that was not recorded the context stays level. -/
structure Kept (entries : List Slot) (c : InvokeContext) (events : List Event) (c' : InvokeContext) : Prop where
  aligned : ∀ e ∈ events, e.Aligned
  framed : Framed entries c'
  heights : c'.heights = c.heights
  level : Level c → Level c' ∨ Spoiled events

/-- An undisturbed run keeps the frames if it starts level or configures nothing. -/
def Sound (entries : List Slot) (c : InvokeContext) (events : List Event) (c' : InvokeContext) : Prop :=
  Framed entries c → Undisturbed events → Level c ∨ NoneConfigured events → Kept entries c events c'

theorem Sound.append {c'' : InvokeContext} (h : Sound entries c events c') (h' : Sound entries c' events' c'') :
    Sound entries c (events ++ events') c'' := by
  intro hframed hundisturbed hlevel
  have hfirst := h hframed hundisturbed.left (hlevel.imp_right NoneConfigured.left)
  have hbetween : Level c' ∨ NoneConfigured events' := by
    rcases hlevel with hlevel | hnone
    · exact (hfirst.level hlevel).imp_right hundisturbed.noneConfigured
    · exact .inr hnone.right
  have hsecond := h' hfirst.framed hundisturbed.right hbetween
  refine ⟨?_, hsecond.framed, hsecond.heights.trans hfirst.heights, fun hstart => ?_⟩
  · exact List.forall_mem_append.mpr ⟨hfirst.aligned, hsecond.aligned⟩
  · rcases hfirst.level hstart with hmiddle | hspoiled
    · exact (hsecond.level hmiddle).imp_right fun h => h.mono (List.subset_append_right events events')
    · exact .inr (hspoiled.mono (List.subset_append_left events events'))

theorem Sound.running {a : Activation} {index : Nat} (hframes : frames c' = frames c) :
    Sound (⟨index, a.conf⟩ :: rest) c [.running a c'] c' := by
  intro hframed _ _
  have hframed' := hframed.congr hframes
  refine ⟨?_, hframed', heights_congr hframes, fun hlevel => .inl (hlevel.congr hframes)⟩
  exact List.forall_mem_singleton.mpr hframed'.currentView

theorem Configured.processInstruction {a : Activation} {program : InvokeContext → Outcome} (h : Configured a.conf c)
    (hframed : Framed entries c)
    (hprogram : ∀ c', Sound (⟨c.traceLength, a.conf⟩ :: entries) c' (program c').events (program c').context)
    (hundisturbed : Undisturbed (processInstruction a program c).events) :
    (∀ e ∈ (processInstruction a program c).events, e.Aligned) ∧
      Framed entries (processInstruction a program c).context ∧
      (processInstruction a program c).context.heights = c.heights ∧
      (Level (processInstruction a program c).context ∨ Spoiled (processInstruction a program c).events) := by
  have hready : c.Ready := by
    unfold InvokeContext.processInstruction at hundisturbed
    split at hundisturbed <;> exact hundisturbed.1.1
  unfold InvokeContext.processInstruction at hundisturbed ⊢
  have hpushes := push_pushes c
  generalize c.push = result at hpushes hundisturbed ⊢
  cases hpushes with
  | foreign hnot => exact ⟨by simp [Event.Aligned], hframed, rfl, .inr ⟨a, c, List.mem_cons_self, fun h => hnot h.1⟩⟩
  | full hnot => exact ⟨by simp [Event.Aligned], hframed, rfl, .inr ⟨a, c, List.mem_cons_self, fun h => hnot h.2⟩⟩
  | tooDeep =>
    have hheights : c.grown.heights = c.heights := rfl
    exact ⟨by simp [Event.Aligned, hheights], hframed.grown h, hheights, .inl (h.grown hframed)⟩
  | stranded _ hnot => exact absurd hready hnot
  | accepted _ accounts =>
    dsimp only at hundisturbed ⊢
    have hopened := hframed.opened h accounts
    have hlevel := h.opened hframed accounts
    obtain ⟨-, -, hinner⟩ := hundisturbed
    have hkept := hprogram _ hopened hinner.left (.inl hlevel)
    have hheights := heights_pop_opened hkept.heights
    refine ⟨?_, hkept.framed.pop, hheights, ?_⟩
    · intro event hevent
      simp only [List.mem_cons, List.mem_append, List.not_mem_nil, or_false] at hevent
      rcases hevent with rfl | rfl | hevent | rfl
      · trivial
      · exact hopened.currentView
      · exact hkept.aligned event hevent
      · exact hheights
    · rcases hkept.level hlevel with hafter | hspoiled
      · exact .inl hafter.pop
      · exact .inr (hspoiled.mono fun e he => by simp [he])

theorem Sound.nil (entries : List Slot) (c : InvokeContext) : Sound entries c [] c :=
  fun hframed _ _ => ⟨by simp, hframed, rfl, .inl⟩

/-- An instruction is configured and processed; its caller changes nothing of the frames before or after it. -/
theorem sound_started {a : Activation} {program : InvokeContext → Outcome} {before after : InvokeContext}
    (hbefore : frames before = frames (c.configureNext a.conf))
    (hafter : frames after = frames (processInstruction a program before).context)
    (hprogram : ∀ index c', Sound (⟨index, a.conf⟩ :: entries) c' (program c').events (program c').context) :
    Sound entries c (.configured a.conf :: (processInstruction a program before).events) after := by
  intro hframed hundisturbed hlevel
  have hstart : Level c := hlevel.resolve_right fun hnone => hnone _ List.mem_cons_self rfl
  have hconfigured : Configured a.conf before := (hstart.configureNext hframed.reserved a.conf).congr hbefore
  obtain ⟨haligned, hframed', hheights, hlevel'⟩ :=
    hconfigured.processInstruction ((hframed.configureNext a.conf).congr hbefore) (hprogram _) hundisturbed.2
  refine ⟨List.forall_mem_cons.mpr ⟨trivial, haligned⟩, hframed'.congr hafter, ?_, fun _ => ?_⟩
  · rw [heights_congr hafter, hheights, heights_congr hbefore]
    rfl
  · rcases hlevel' with hlevel' | hspoiled
    · exact .inl (hlevel'.congr hafter)
    · exact .inr (hspoiled.mono (List.subset_cons_self _ _))

theorem frames_enterScope (c : InvokeContext) (kind : CallKind) : frames (c.enterScope kind) = frames c := by
  cases kind <;> rfl

theorem frames_leaveScope (c : InvokeContext) (kind : CallKind) (saved : Option Nat × Option NativeCaller) :
    frames (c.leaveScope kind saved) = frames c := by
  cases kind <;> rfl

theorem sound_run (program : Behaviour) (index : Nat) (a : Activation) (rest : List Slot) (c : InvokeContext) :
    Sound (⟨index, a.conf⟩ :: rest) c (program.run a c).events (program.run a c).context := by
  induction program generalizing index a rest c with
  | exit result => exact .nil _ c
  | act effects tail ih =>
    have hacted : Sound (⟨index, a.conf⟩ :: rest) c [.running a (c.apply effects)] (c.apply effects) := .running rfl
    exact hacted.append (ih index a rest _)
  | call kind instruction callee tail ihCallee ihTail =>
    have hinvoked : Sound (⟨index, a.conf⟩ :: rest) c (c.invoke kind instruction a.program callee.run).events
        (c.invoke kind instruction a.program callee.run).context := by
      unfold InvokeContext.invoke
      split
      · exact .nil _ c
      · next conf hconf =>
        exact sound_started (a := ⟨instruction.programId, .child kind a.program, conf⟩) (frames_enterScope _ kind)
          (frames_leaveScope _ kind _) fun index' => ihCallee index' _ (⟨index, a.conf⟩ :: rest)
    exact hinvoked.append (Sound.append (.running rfl) (ihTail index a rest _))

theorem sound_processMessage (tx : ResolvedTransaction) (instructions : List (CompiledInstruction × Behaviour))
    (c : InvokeContext) :
    Sound [] c (c.processMessage tx instructions).events (c.processMessage tx instructions).context := by
  induction instructions generalizing c with
  | nil => exact .nil [] c
  | cons head tail ih =>
    obtain ⟨instruction, program⟩ := head
    unfold InvokeContext.processMessage
    split
    · exact .nil [] c
    next conf hconf =>
    dsimp only
    have hfirst := sound_started (c := c) (a := topLevelActivation c.keys instruction conf) rfl rfl
      fun index => sound_run program index (topLevelActivation c.keys instruction conf) []
    split
    · exact hfirst
    · exact hfirst.append (ih _)

/-- In an undisturbed run every instruction sees what was configured for it, at every moment it runs, and every
instruction that returns leaves the three stacks as high as they were. -/
theorem frames_aligned (tx : ResolvedTransaction) (accounts : List AccountSharedData) (stackCapacity traceCapacity : Nat)
    (programCache : ProgramCacheForTxBatch) (instructions : List (CompiledInstruction × Behaviour))
    (hundisturbed : Undisturbed
      ((initial tx accounts stackCapacity traceCapacity programCache).processMessage tx instructions).events) :
    ∀ e ∈ ((initial tx accounts stackCapacity traceCapacity programCache).processMessage tx instructions).events,
      e.Aligned := by
  have hframed : Framed [] (initial tx accounts stackCapacity traceCapacity programCache) :=
    ⟨by simp [initial, InvokeContext.new], rfl, by simp, by simp, Nat.le_refl _, Nat.le_refl _, Nat.le_refl _⟩
  have hlevel : Level (initial tx accounts stackCapacity traceCapacity programCache) := ⟨⟨rfl, rfl, rfl⟩, rfl⟩
  exact (sound_processMessage tx instructions _ hframed hundisturbed (.inl hlevel)).aligned

/-! ### A refused frame and the instruction after it -/

instance (c : InvokeContext) : Decidable c.Enterable :=
  inferInstanceAs (Decidable (∃ program ∈ c.programKeyAt c.traceLength,
    some program ∈ c.stack.map c.programKeyAt → (c.stack.map c.programKeyAt).head? = some (some program)))

instance (c : InvokeContext) : Decidable c.Room :=
  decidable_of_iff (c.traceLength < c.traceCapacity ∧ (c.stack ≠ [] →
    c.lamportsDelta = 0 ∧ c.cpis < maxCpiTraceLength ∧ c.totalInstructions < c.traceCapacity))
    ⟨fun h => ⟨h.1, h.2⟩, fun h => ⟨h.slot, h.invocation⟩⟩

instance (c : InvokeContext) : Decidable c.Records := inferInstanceAs (Decidable (c.Enterable ∧ c.Room))

instance (events : List Event) : Decidable (NoneConfigured events) :=
  inferInstanceAs (Decidable (∀ e ∈ events, ¬e.isConfigured))

instance (after : List Event) : ∀ e : Event, Decidable (e.Harmless after)
  | .pushing _ c => inferInstanceAs (Decidable (c.Ready ∧ (¬c.Records → NoneConfigured after)))
  | .configured _ | .running _ _ | .returned _ _ => inferInstanceAs (Decidable True)

instance decidableUndisturbed : ∀ events : List Event, Decidable (Undisturbed events)
  | [] => inferInstanceAs (Decidable True)
  | e :: after =>
    have := decidableUndisturbed after
    inferInstanceAs (Decidable (e.Harmless after ∧ Undisturbed after))

private theorem programs_nodup : [(⟨1⟩ : Pubkey), ⟨2⟩, ⟨3⟩, ⟨4⟩].Nodup := by decide

def programsTransaction : ResolvedTransaction where
  signatures := [⟨0⟩]
  numRequiredSignatures := 1
  staticAccountKeys := [⟨1⟩, ⟨2⟩, ⟨3⟩, ⟨4⟩]
  instructions := [⟨1, [0, 1, 2, 3], []⟩]
  writableCache := 1
  keys_nodup := programs_nodup

/-- An invocation of `program` with the accounts of all programs. -/
def callProgram (program : Pubkey) (data : List UInt8) (callee rest : Behaviour) : Behaviour :=
  .call (.signed []) ⟨program, [⟨⟨2⟩, false, false⟩, ⟨⟨3⟩, false, false⟩, ⟨⟨4⟩, false, false⟩], data⟩ callee rest

/-- Program 2 invokes program 3, which calls back into program 2 and goes on with `rest`. -/
def callBack (rest : Behaviour) : Behaviour :=
  callProgram ⟨3⟩ [1] (callProgram ⟨2⟩ [2] (.exit (.ok ())) rest) (.exit (.ok ()))

def programsEvents (program : Behaviour) : List Event :=
  ((initial programsTransaction [] 5 64 Scopes.builtinCache).processMessage programsTransaction
    [(⟨1, [0, 1, 2, 3], []⟩, program)]).events

/-- A refused call back that is the last invocation has no consequences. -/
theorem frames_aligned_callBack :
    Undisturbed (programsEvents (callBack (.exit (.ok ())))) ∧
      ∀ e ∈ programsEvents (callBack (.exit (.ok ()))), e.Aligned := by
  have hundisturbed : Undisturbed (programsEvents (callBack (.exit (.ok ())))) := by decide +kernel
  exact ⟨hundisturbed, frames_aligned programsTransaction [] 5 64 Scopes.builtinCache _ hundisturbed⟩

/-- After the refused call back program 3 invokes program 4, which reads the data of the refused instruction. -/
theorem refused_frame_is_read :
    ∃ a c, .running a c ∈ programsEvents (callBack (callProgram ⟨4⟩ [3] (.exit (.ok ())) (.exit (.ok ())))) ∧
      a.conf.data = [3] ∧ c.currentView.map (·.data) = some [2] := by
  refine ⟨_, _, List.mem_of_getElem? (i := 12) rfl, ?_⟩
  decide +kernel

end Frames

end MagicEngine
