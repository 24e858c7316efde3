import MagicEngine.Processor.Coherence
import MagicEngine.Svm.Simulation

/-!
# The simulator beside the pool

The pacemaker sends each block boundary to the simulator and then to the sequencer (`engine/src/pacemaker.rs`). The
simulator moves its own environment forward when it takes the boundary from its inbox, and simulates transactions on
copies of the stored accounts (`processor/src/simulator.rs`). Simulator and executors share the program cache: whoever
processes a transaction leaves the programs it loaded there, and those it finalized or deleted.

When everything sent has been handled, the environments of the simulator and of the executors are the same but for the
blockhash. A produced boundary has no hash yet when it is sent, so the simulator of a leader works with the hash the
boundary came with, while the executors receive the block with its hash (`simulation_predicts_iff`). A replayed boundary
carries its hash. A transaction that stores program entries changes the code its own execution runs after the
simulation, unless the entries are harmless.
-/

namespace MagicEngine

open Codec ConflictOrder

namespace Processor

open SysvarCodec

/-! ### Boundaries -/

/-- A boundary as the pacemaker takes it: a block that has yet to be chained, or a recorded one. -/
inductive BlockInput where
  | production (block : Block Hash)
  | replay (block : Block Hash)
deriving DecidableEq, Repr

namespace BlockInput

def payload : BlockInput → Block Hash
  | production block | replay block => block

/-- What the sequencer makes of it: a produced boundary gets its place in the hash chain. -/
def Finalizes : BlockInput → Block Hash → Prop
  | production produced, block => block.slot = produced.slot ∧ block.time = produced.time
  | replay recorded, block => block = recorded

variable {input : BlockInput} {block : Block Hash}

theorem Finalizes.slot (h : input.Finalizes block) : block.slot = input.payload.slot := by
  cases input with
  | production produced => exact h.1
  | replay recorded => rw [h, payload]

theorem Finalizes.clock (h : input.Finalizes block) (c : Config) (schedule : Bytes) :
    c.clock schedule block = c.clock schedule input.payload := by
  cases input with
  | production produced =>
    obtain ⟨hslot, htime⟩ := h
    simp only [Config.clock, payload, hslot, htime]
  | replay recorded => rw [h, payload]

end BlockInput

/-! ### Programs and the cache they are kept in -/

/-- What processing a transaction returns: its status and accounts, and `ρ`, its logs and return data. -/
abbrev Outcome (ρ : Type) := Except TransactionError (ExecutedTransaction × ρ)

/-- The programs and the SVM they run on, as functions of the environment. -/
structure Machine (ρ : Type) where
  runtime : SvmContext → Runtime
  report : SvmContext → ResolvedTransaction → Accounts → ProgramCacheForTxBatch → ρ

namespace Machine

variable {ρ : Type}

/-- What the pool sees of the programs while the cache is as it is. -/
def programs (n : Machine ρ) (cache : ProgramCache) : Programs (Outcome ρ) where
  exec ctx r m := ((n.runtime ctx).execute ⟨m, cache⟩ r.transaction).1.accounts
  result ctx r m := ((n.runtime ctx).process ⟨m, cache⟩ r.transaction).2.map fun executed =>
    (executed, n.report ctx r.transaction m executed.programs)

/-- The shared cache after a transaction was processed. -/
def cached (n : Machine ρ) (cache : ProgramCache) (ctx : SvmContext) (r : ExecutionRequest) (m : Accounts) :
    ProgramCache :=
  ((n.runtime ctx).process ⟨m, cache⟩ r.transaction).1

/-- A transaction of which each step that stores a program entry stores code that is already seen. -/
def Harmless (n : Machine ρ) (cache : ProgramCache) (ctx : SvmContext) (r : ExecutionRequest) (m : Accounts) : Prop :=
  (n.runtime ctx).StepsHarmless ⟨m, cache⟩ r.transaction

/-- Processing a harmless transaction once more gives what it gave. -/
theorem Harmless.again {n : Machine ρ} {cache : ProgramCache} {ctx : SvmContext} {r : ExecutionRequest} {m : Accounts}
    (h : n.Harmless cache ctx r m) :
    (n.programs (n.cached cache ctx r m)).result ctx r m = (n.programs cache).result ctx r m ∧
      (n.programs (n.cached cache ctx r m)).exec ctx r m = (n.programs cache).exec ctx r m := by
  obtain ⟨hresult, hview⟩ := h.sameView.execute r.transaction
  have hmap := congrArg
    (Except.map fun executed : ExecutedTransaction => (executed, n.report ctx r.transaction m executed.programs)) hresult
  exact ⟨hmap, hview.accounts⟩

end Machine

section Codec

variable [SysvarCodec]

/-! ### Pool and simulator -/

inductive SimulatorMessage where
  | transaction (request : ExecutionRequest)
  | block (block : Block Hash)
deriving DecidableEq, Repr

structure Workers (ρ : Type) where
  world : World (Outcome ρ)
  programs : ProgramCache
  svm : SvmContext
  inbox : List SimulatorMessage := []
  pending : List BlockInput := []
  /-- All boundaries the pacemaker has sent. -/
  paced : List BlockInput := []

namespace Workers

variable {ρ : Type}

/-- `Sequencer::new` drops what an earlier environment left in the cache. -/
def spawn (c : Config) (k : Keeper) (count : Nat) (programs : ProgramCache) : Workers ρ :=
  { world := .spawn c k count, programs := programs.invalidate, svm := .new c k }

def simulating (c : Config) (s : Workers ρ) : SvmContext := s.svm.refresh (c.rentOf s.world.rent) s.world.features

/-- `TransactionSimulator::process`: the result, and the copies of the accounts as the transaction leaves them. -/
def simulate (c : Config) (n : Machine ρ) (r : ExecutionRequest) (s : Workers ρ) : Outcome ρ × Accounts :=
  ((n.programs s.programs).result (s.simulating c) r s.world.accounts,
    (n.programs s.programs).exec (s.simulating c) r s.world.accounts)

/-- What the simulation leaves: its environment, and its programs in the shared cache. -/
def simulated (c : Config) (n : Machine ρ) (r : ExecutionRequest) (s : Workers ρ) : Workers ρ :=
  { s with svm := s.simulating c, programs := n.cached s.programs (s.simulating c) r s.world.accounts }

/-- One event. The sequencer finalizes the boundaries it was sent, in their order; a pause in which features changed
ends with the cache invalidated. Steps of the pool in which no program runs are steps for all programs. -/
inductive Step (c : Config) (n : Machine ρ) : Workers ρ → Workers ρ → Prop
  | pace (s : Workers ρ) (input : BlockInput) :
    Step c n s
      { s with
        inbox := s.inbox ++ [.block input.payload], pending := s.pending ++ [input], paced := s.paced ++ [input] }
  | request (s : Workers ρ) (r : ExecutionRequest) : Step c n s { s with inbox := s.inbox ++ [.transaction r] }
  | transition (s : Workers ρ) (block : Block Hash) (rest : List SimulatorMessage) (hinbox : s.inbox = .block block :: rest)
    (hheld : s.world.phase ≠ .paused) :
    Step c n s { s with svm := s.svm.transition block.hash (c.clock s.world.epochSchedule block), inbox := rest }
  | simulate (s : Workers ρ) (r : ExecutionRequest) (rest : List SimulatorMessage) (hinbox : s.inbox = .transaction r :: rest)
    (hheld : s.world.phase ≠ .paused) : Step c n s { s.simulated c n r with inbox := rest }
  | finalize (s : Workers ρ) (input : BlockInput) (rest : List BlockInput) (block : Block Hash)
    (hpending : s.pending = input :: rest) (hblock : input.Finalizes block)
    (hstep : ∀ q, Processor.Step c q s.world (s.world.finalize block)) :
    Step c n s { s with world := s.world.finalize block, pending := rest }
  | pool (s : Workers ρ) (w : World (Outcome ρ)) (programs : ProgramCache) (hstep : ∀ q, Processor.Step c q s.world w)
    (hother : s.world.phase = .running → ∀ block next, w.phase ≠ .transition block next)
    (hprograms : programs = s.programs ∨ s.world.phase = .paused ∧ programs = s.programs.invalidate) :
    Step c n s { s with world := w, programs }
  | commit (s : Workers ρ) (i t : Nat) (r : ExecutionRequest) (m : Accounts)
    (hstep : Processor.Step c (n.programs s.programs) s.world (s.world.commit (n.programs s.programs) i t r m)) :
    Step c n s
      { s with
        world := s.world.commit (n.programs s.programs) i t r m
        programs := n.cached s.programs (s.world.executors i).svm r m }

/-- The states of all runs, over any number of processes. -/
inductive Reachable (c : Config) (n : Machine ρ) : Workers ρ → Prop
  | genesis (k : Keeper) (hk : openKeeper (c.populated true fun _ => none) = some k) (resets : List Reset)
    (hresets : ∀ reset ∈ resets, NamesNoSysvar reset) (count : Nat) (programs : ProgramCache) :
    Reachable c n (.spawn c (resets.foldl (·.applyReset c) k) count programs)
  | restart (s : Workers ρ) (h : Reachable c n s) (m : Accounts) (hm : m.persisted = s.world.accounts.persisted)
    (k : Keeper) (hk : openKeeper (c.populated false m) = some k) (resets : List Reset)
    (hresets : ∀ reset ∈ resets, NamesNoSysvar reset) (count : Nat) (programs : ProgramCache) :
    Reachable c n (.spawn c (resets.foldl (·.applyReset c) k) count programs)
  | step (s s' : Workers ρ) (h : Reachable c n s) (hstep : Step c n s s') : Reachable c n s'

/-- All submitted work is finished, and every boundary has been handled by everybody. -/
structure Quiescent (s : Workers ρ) : Prop where
  running : s.world.phase = .running
  finished : s.world.execution.epoch.table.isEmpty = true
  executors : ∀ i < s.world.count, (s.world.executors i).inbox = []
  sequenced : s.pending = []
  simulator : s.inbox = []

variable {c : Config} {n : Machine ρ} {s s' : Workers ρ}

theorem Step.world (hstep : Step c n s s') :
    s'.world = s.world ∨ Processor.Step c (n.programs s.programs) s.world s'.world := by
  cases hstep with
  | pace | request | transition | simulate => exact .inl rfl
  | finalize input rest block hpending hblock hstep => exact .inr (hstep _)
  | pool w programs hstep => exact .inr (hstep _)
  | commit i t r m hstep => exact .inr hstep

theorem Reachable.coherent (hc : c.Valid) (hn : ∀ cache, (n.programs cache).LeavesSysvars) (h : s.Reachable c n) :
    (∃ held, Assigned s.world held) ∧ s.world.Coherent c := by
  induction h with
  | genesis k hk resets hresets count =>
    exact ⟨⟨_, .spawn c _ count⟩, .spawn ((Keeper.Coherent.openKeeper hc.seeded hk).applyResets hresets) count⟩
  | restart s h m hm k hk resets hresets count programs ih =>
    have hseeded := ih.2.keeper.seeded.of_persisted hm
    have hopen := Keeper.Coherent.openKeeper (hseeded.congr hseeded.populated) hk
    exact ⟨⟨_, .spawn c _ count⟩, .spawn (hopen.applyResets hresets) count⟩
  | step s s' h hstep ih =>
    rcases hstep.world with heq | hworld
    · rwa [heq]
    · obtain ⟨⟨held, hassigned⟩, hcoherent⟩ := ih
      exact ⟨hassigned.step hworld, hcoherent.step (hn _) hassigned hworld⟩

end Workers

/-! ### What a step of the pool does to the boundary -/

namespace World

variable {ρ : Type} (c : Config) (w : World ρ)

/-- The block the sequencer finalized last or is finalizing. -/
def current : Block Hash :=
  match w.phase with
  | .transition block _ => block
  | _ => w.latest

def currentClock : Option Bytes :=
  match w.phase with
  | .transition block _ | .storing block => some (encodeClock (c.clock w.epochSchedule block))
  | _ => w.accounts.sysvarData .clock

end World

variable {ρ : Type} {c : Config} {p : Programs ρ} {w w' : World ρ}

theorem Step.fixed (hstep : Step c p w w') :
    w'.epochSchedule = w.epochSchedule ∧ w'.opened = w.opened ∧ w'.count = w.count := by
  cases hstep <;> exact ⟨rfl, rfl, rfl⟩

private theorem commit_sysvarData (hp : p.LeavesSysvars) (h : w.Coherent c) {i t : Nat} {r : ExecutionRequest}
    {m : Accounts} (hm : w.execution.progress.snapshot t = some m) (s : Sysvar) :
    (w.commit p i t r m).accounts.sysvarData s = w.accounts.sysvarData s := by
  have hstate : (w.commit p i t r m).accounts s.id =
      if s.id ∈ ExecutionRequest.access.written r then p.exec (w.executors i).svm r m s.id else w.accounts s.id := rfl
  rw [Accounts.sysvarData, hstate, hp, h.snapshots t m hm s, ite_self]
  rfl

theorem Step.sysvarData_of_fixed (hp : p.LeavesSysvars) (h : w.Coherent c) (hstep : Step c p w w') {s : Sysvar}
    (hs : s.fixed = true) : w'.accounts.sysvarData s = w.accounts.sysvarData s := by
  cases hstep with
  | commit i t r m hi hcurrent hr hm => exact commit_sysvarData hp h hm s
  | store block m hphase hm =>
    obtain ⟨-, m', -, hm', -, hother, -, -⟩ := h.keeper.seeded.updateSysvars w.epochSchedule block
    cases hm.symm.trans hm'
    have hne : s.id ≠ slotHashesId ∧ s.id ≠ clockId := by
      cases s <;> cases hs <;> decide
    show m.sysvarData s = _
    rw [Accounts.sysvarData, hother s.id hne.1 hne.2]
    rfl
  | reset r hphase hr =>
    have hne : s ≠ .rent := by rintro rfl; cases hs
    exact ((h.keeper.seeded.resetAccounts h.keeper.features hr).2 s).trans (if_neg hne)
  | _ => rfl

theorem Step.current_eq (hp : p.LeavesSysvars) (h : w.Coherent c) (hstep : Step c p w w')
    (hother : w.phase = .running → ∀ block next, w'.phase ≠ .transition block next) :
    w'.current = w.current ∧ w'.currentClock c = w.currentClock c := by
  cases hstep with
  | commit i t r m hi hcurrent hr hm =>
    refine ⟨rfl, ?_⟩
    have hclock := commit_sysvarData hp h (i := i) (r := r) hm .clock
    simp only [World.currentClock, hclock]
    rfl
  | finalize block hrunning hempty => exact absurd rfl (hother hrunning block 0)
  | send block i hphase hi => simp [World.current, World.currentClock, World.send, World.setExecutor, hphase]
  | push block hphase => simp [World.current, World.currentClock, World.push, hphase]
  | store block m hphase hm =>
    obtain ⟨-, m', -, hm', -, -, hclock, -⟩ := h.keeper.seeded.updateSysvars w.epochSchedule block
    cases hm.symm.trans hm'
    refine ⟨by simp [World.current, World.store, World.setAccounts, hphase], ?_⟩
    simp only [World.currentClock, World.store, World.setAccounts, hphase]
    exact hclock
  | pause hrunning hempty =>
    refine ⟨by simp [World.current, World.pause, World.drained, hrunning], ?_⟩
    simp only [World.currentClock, World.pause, World.drained, hrunning]
    rfl
  | reset r hphase hr =>
    have hclock := ((h.keeper.seeded.resetAccounts h.keeper.features hr).2 .clock).trans (if_neg (by decide))
    refine ⟨by simp [World.current, World.reset, World.setAccounts, hphase], ?_⟩
    simp only [World.currentClock, World.reset, World.setAccounts, hphase]
    exact hclock
  | resume hphase =>
    refine ⟨by simp [World.current, World.resume, hphase], ?_⟩
    simp only [World.currentClock, World.resume, hphase]
    rfl
  | _ => exact ⟨rfl, rfl⟩

/-! ### What the simulator will have seen -/

namespace Workers

variable {n : Machine ρ} {s s' : Workers ρ}

/-- The environment after the boundaries still in the inbox. -/
def caughtUp (c : Config) (schedule : Bytes) (ctx : SvmContext) : List SimulatorMessage → SvmContext
  | [] => ctx
  | .transaction _ :: rest => caughtUp c schedule ctx rest
  | .block block :: rest => caughtUp c schedule (ctx.transition block.hash (c.clock schedule block)) rest

theorem caughtUp_append (schedule : Bytes) (ctx : SvmContext) (inbox inbox' : List SimulatorMessage) :
    caughtUp c schedule ctx (inbox ++ inbox') = caughtUp c schedule (caughtUp c schedule ctx inbox) inbox' := by
  induction inbox generalizing ctx with
  | nil => rfl
  | cons message inbox ih => cases message <;> exact ih _

private def SameBoundary (ctx ctx' : SvmContext) : Prop :=
  ctx.slot = ctx'.slot ∧ ctx.blockhash = ctx'.blockhash ∧ ctx.sysvars.clock = ctx'.sysvars.clock

private theorem SameBoundary.caughtUp {ctx ctx' : SvmContext} (h : SameBoundary ctx ctx') (schedule : Bytes)
    (inbox : List SimulatorMessage) :
    SameBoundary (caughtUp c schedule ctx inbox) (caughtUp c schedule ctx' inbox) := by
  induction inbox generalizing ctx ctx' with
  | nil => exact h
  | cons message inbox ih =>
    cases message with
    | transaction r => exact ih h
    | block block => exact ih ⟨rfl, rfl, rfl⟩

private theorem sameBoundary_refresh (ctx : SvmContext) (rent : Rent) (features : Pubkey → Bool) :
    SameBoundary (ctx.refresh rent features) ctx := by
  unfold SvmContext.refresh
  dsimp only
  split <;> exact ⟨rfl, rfl, rfl⟩

def boundary (s : Workers ρ) : Block Hash := (s.paced.getLast?.map BlockInput.payload).getD s.world.opened.latest

def boundaryClock (c : Config) (s : Workers ρ) : Option Bytes :=
  match s.paced.getLast? with
  | none => s.world.opened.accounts.sysvarData .clock
  | some input => some (encodeClock (c.clock s.world.epochSchedule input.payload))

/-- The simulator's environment against what it was sent. -/
structure Follows (c : Config) (s : Workers ρ) : Prop where
  slot : (caughtUp c s.world.epochSchedule s.svm s.inbox).slot = s.boundary.slot + 1
  blockhash : (caughtUp c s.world.epochSchedule s.svm s.inbox).blockhash = s.boundary.hash
  clock : (caughtUp c s.world.epochSchedule s.svm s.inbox).sysvars.clock = s.boundaryClock c
  rent : s.svm.sysvars.rent = some (encodeRent s.svm.rent)
  slotHashes : s.svm.sysvars.slotHashes = s.world.opened.accounts.sysvarData .slotHashes
  fixed : ∀ t : Sysvar, t.fixed = true → s.svm.sysvars.buffer t = s.world.accounts.sysvarData t

structure Sequenced (c : Config) (w : World ρ) (done : List BlockInput) : Prop where
  opened : done = [] → w.current = w.opened.latest ∧ w.currentClock c = w.opened.accounts.sysvarData .clock
  finalized : ∀ input ∈ done.getLast?, input.Finalizes w.current ∧
    w.currentClock c = some (encodeClock (c.clock w.epochSchedule input.payload))

structure Paced (c : Config) (s : Workers ρ) : Prop where
  follows : s.Follows c
  sequenced : ∃ done, s.paced = done ++ s.pending ∧ Sequenced c s.world done

private theorem rent_refresh {ctx : SvmContext} (h : ctx.sysvars.rent = some (encodeRent ctx.rent)) (rent : Rent)
    (features : Pubkey → Bool) :
    (ctx.refresh rent features).rent = rent ∧ (ctx.refresh rent features).features = features ∧
      (ctx.refresh rent features).sysvars.rent = some (encodeRent rent) := by
  unfold SvmContext.refresh
  dsimp only
  split
  · exact ⟨rfl, rfl, rfl⟩
  · next hrent =>
    obtain rfl := not_not.mp hrent
    exact ⟨rfl, rfl, h⟩

private theorem slotHashes_refresh (ctx : SvmContext) (rent : Rent) (features : Pubkey → Bool) :
    (ctx.refresh rent features).sysvars.slotHashes = ctx.sysvars.slotHashes := by
  unfold SvmContext.refresh
  dsimp only
  split <;> rfl

private theorem buffer_refresh (ctx : SvmContext) (rent : Rent) (features : Pubkey → Bool) {t : Sysvar}
    (ht : t.fixed = true) : (ctx.refresh rent features).sysvars.buffer t = ctx.sysvars.buffer t := by
  unfold SvmContext.refresh
  dsimp only
  split
  · exact ctx.sysvars.buffer_setRent rent ht
  · rfl

namespace Follows

private theorem pool (h : s.Follows c) {p : Programs (Outcome ρ)} (hp : p.LeavesSysvars)
    (hcoherent : s.world.Coherent c) {w : World (Outcome ρ)} {pending : List BlockInput} {programs : ProgramCache}
    (hstep : Processor.Step c p s.world w) : Follows c { s with world := w, pending, programs } := by
  obtain ⟨hschedule, hopened, -⟩ := hstep.fixed
  have hboundary : boundary { s with world := w, pending, programs } = s.boundary := by
    simp only [boundary, hopened]
  have hclock : boundaryClock c { s with world := w, pending, programs } = s.boundaryClock c := by
    simp only [boundaryClock, hopened, hschedule]
  exact {
    slot := by rw [hboundary]; simpa only [hschedule] using h.slot
    blockhash := by rw [hboundary]; simpa only [hschedule] using h.blockhash
    clock := by rw [hclock]; simpa only [hschedule] using h.clock
    rent := h.rent
    slotHashes := by simpa only [hopened] using h.slotHashes
    fixed := fun t ht => (h.fixed t ht).trans (hstep.sysvarData_of_fixed hp hcoherent ht).symm }

private theorem pace (h : s.Follows c) (input : BlockInput) :
    Follows c
      { s with
        inbox := s.inbox ++ [.block input.payload], pending := s.pending ++ [input], paced := s.paced ++ [input] } := by
  have hcaughtUp := caughtUp_append (c := c) s.world.epochSchedule s.svm s.inbox [.block input.payload]
  exact {
    slot := by simp [hcaughtUp, caughtUp, boundary, SvmContext.transition, Config.clock]
    blockhash := by simp [hcaughtUp, caughtUp, boundary, SvmContext.transition]
    clock := by simp [hcaughtUp, caughtUp, boundaryClock, SvmContext.transition, SysvarCache.setClock]
    rent := h.rent
    slotHashes := h.slotHashes
    fixed := h.fixed }

private theorem request (h : s.Follows c) (r : ExecutionRequest) :
    Follows c { s with inbox := s.inbox ++ [.transaction r] } := by
  have hcaughtUp : caughtUp c s.world.epochSchedule s.svm (s.inbox ++ [.transaction r]) =
      caughtUp c s.world.epochSchedule s.svm s.inbox := caughtUp_append ..
  exact { h with slot := hcaughtUp ▸ h.slot, blockhash := hcaughtUp ▸ h.blockhash, clock := hcaughtUp ▸ h.clock }

private theorem transition (h : s.Follows c) {block : Block Hash} {rest : List SimulatorMessage}
    (hinbox : s.inbox = .block block :: rest) :
    Follows c { s with svm := s.svm.transition block.hash (c.clock s.world.epochSchedule block), inbox := rest } := by
  have hslot := h.slot
  have hblockhash := h.blockhash
  have hclock := h.clock
  rw [hinbox] at hslot hblockhash hclock
  exact {
    slot := hslot
    blockhash := hblockhash
    clock := hclock
    rent := h.rent
    slotHashes := h.slotHashes
    fixed := fun t ht => (s.svm.sysvars.buffer_setClock _ ht).trans (h.fixed t ht) }

private theorem simulate (h : s.Follows c) {r : ExecutionRequest} {rest : List SimulatorMessage}
    (hinbox : s.inbox = .transaction r :: rest) (n : Machine ρ) : Follows c { s.simulated c n r with inbox := rest } := by
  have hslot := h.slot
  have hblockhash := h.blockhash
  have hclock := h.clock
  rw [hinbox] at hslot hblockhash hclock
  obtain ⟨hslot', hblockhash', hclock'⟩ := (sameBoundary_refresh s.svm (c.rentOf s.world.rent) s.world.features).caughtUp
    (c := c) s.world.epochSchedule rest
  obtain ⟨hrent, -, hbuffer⟩ := rent_refresh h.rent (c.rentOf s.world.rent) s.world.features
  exact {
    slot := hslot'.trans hslot
    blockhash := hblockhash'.trans hblockhash
    clock := hclock'.trans hclock
    rent := hbuffer.trans (congrArg (some <| encodeRent ·) hrent.symm)
    slotHashes := (slotHashes_refresh ..).trans h.slotHashes
    fixed := fun t ht => (buffer_refresh _ _ _ ht).trans (h.fixed t ht) }

end Follows

private theorem Paced.spawn {k : Keeper} (h : k.Coherent c) (count : Nat) (programs : ProgramCache) :
    (spawn c k count programs : Workers ρ).Paced c where
  follows := by
    have hfill (t : Sysvar) : SysvarCache.fillEntry k.accounts t none = k.accounts.sysvarData t := by
      obtain ⟨data, hdata, hshape⟩ := h.seeded.sysvarData t
      simp [SysvarCache.fillEntry, hdata, hshape.decodes]
    exact {
      slot := rfl
      blockhash := rfl
      clock := hfill .clock
      rent := (hfill .rent).trans h.rent
      slotHashes := hfill .slotHashes
      fixed := fun t _ => by cases t <;> exact hfill _ }
  sequenced := ⟨[], rfl, fun _ => ⟨rfl, rfl⟩, by simp⟩

private theorem Paced.pool (h : s.Paced c) {p : Programs (Outcome ρ)} (hp : p.LeavesSysvars)
    (hcoherent : s.world.Coherent c) {w : World (Outcome ρ)} (programs : ProgramCache)
    (hstep : Processor.Step c p s.world w)
    (hother : s.world.phase = .running → ∀ block next, w.phase ≠ .transition block next) :
    Paced c { s with world := w, programs } := by
  obtain ⟨hfollows, done, hpaced, hsequenced⟩ := h
  obtain ⟨hcurrent, hclock⟩ := hstep.current_eq hp hcoherent hother
  obtain ⟨hschedule, hopened, -⟩ := hstep.fixed
  refine ⟨hfollows.pool hp hcoherent hstep, done, hpaced, ?_, ?_⟩
  · rw [hcurrent, hclock, hopened]
    exact hsequenced.opened
  · rw [hcurrent, hclock, hschedule]
    exact hsequenced.finalized

private theorem Paced.step (hn : ∀ cache, (n.programs cache).LeavesSysvars) (hcoherent : s.world.Coherent c)
    (h : s.Paced c) (hstep : Step c n s s') : s'.Paced c := by
  obtain ⟨hfollows, done, hpaced, hsequenced⟩ := id h
  cases hstep with
  | pace input => exact ⟨hfollows.pace input, done, by rw [hpaced, List.append_assoc], hsequenced⟩
  | request r => exact ⟨hfollows.request r, done, hpaced, hsequenced⟩
  | transition block rest hinbox hheld => exact ⟨hfollows.transition hinbox, done, hpaced, hsequenced⟩
  | simulate r rest hinbox hheld => exact ⟨hfollows.simulate hinbox n, done, hpaced, hsequenced⟩
  | finalize input rest block hpending hblock hstep =>
    refine ⟨hfollows.pool (hn s.programs) hcoherent (hstep _), done ++ [input],
      by rw [hpaced, hpending, List.append_assoc]; rfl, ?_⟩
    refine ⟨by simp, fun last hlast => ?_⟩
    rw [List.getLast?_concat, Option.mem_some_iff] at hlast
    subst hlast
    refine ⟨hblock, ?_⟩
    rw [← hblock.clock c]
    rfl
  | pool w programs hstep hother hprograms => exact h.pool (hn s.programs) hcoherent programs (hstep _) hother
  | commit i t r m hstep =>
    refine h.pool (hn s.programs) hcoherent _ hstep fun hrunning block next htransition => ?_
    have hphase : (s.world.commit (n.programs s.programs) i t r m).phase = s.world.phase := rfl
    rw [hphase, hrunning] at htransition
    cases htransition

theorem Reachable.paced (hc : c.Valid) (hn : ∀ cache, (n.programs cache).LeavesSysvars) (h : s.Reachable c n) :
    s.Paced c := by
  induction h with
  | genesis k hk resets hresets count programs =>
    exact .spawn ((Keeper.Coherent.openKeeper hc.seeded hk).applyResets hresets) count programs
  | restart s h m hm k hk resets hresets count programs ih =>
    have hseeded := (h.coherent hc hn).2.keeper.seeded.of_persisted hm
    exact .spawn ((Keeper.Coherent.openKeeper (hseeded.congr hseeded.populated) hk).applyResets hresets) count programs
  | step s s' h hstep ih => exact ih.step hn (h.coherent hc hn).2 hstep

end Workers

/-! ### Executing a transaction next -/

namespace World

def executing (c : Config) (i : Nat) (w : World ρ) : SvmContext :=
  (w.executors i).svm.refresh (c.rentOf w.rent) w.features

/-- What executor `i` makes of a transaction: its result, and the accounts as the transaction leaves them. -/
def execute (c : Config) (p : Programs ρ) (i : Nat) (r : ExecutionRequest) (w : World ρ) : ρ × Accounts :=
  (p.result (w.executing c i) r w.accounts, p.exec (w.executing c i) r w.accounts)

/-- A transaction is submitted, handed to executor `i` and loaded. -/
def startNext (c : Config) (i : Nat) (r : ExecutionRequest) (w : World ρ) : World ρ :=
  ((w.register r).dispatch i w.execution.epoch.requests.length).begin c i w.execution.epoch.requests.length []

/-- It is executed and committed. -/
def executeNext (c : Config) (p : Programs ρ) (i : Nat) (r : ExecutionRequest) (w : World ρ) : World ρ :=
  (w.startNext c i r).commit p i w.execution.epoch.requests.length r w.accounts

theorem results_executeNext (i : Nat) (r : ExecutionRequest) :
    (w.executeNext c p i r).results (w.settled + w.execution.epoch.requests.length) = some (w.execute c p i r).1 := by
  simp [executeNext, startNext, execute, executing, commit, begin, dispatch, register, setExecutor]

theorem accounts_executeNext (i : Nat) (r : ExecutionRequest) (key : Pubkey) :
    (w.executeNext c p i r).accounts key =
      if key ∈ ExecutionRequest.access.written r then (w.execute c p i r).2 key else w.accounts key := by
  simp only [executeNext, startNext, execute, executing, commit, begin, dispatch, register, setExecutor,
    Function.update_self, accounts, Execution.accounts, Progress.commit]
  rfl

/-- With nothing outstanding these are steps of the pool, and programs run in the last one only. -/
theorem executeNext_steps {held : Nat → Option Nat} (h : Assigned w held) (hrunning : w.phase = .running)
    (hfinished : w.execution.epoch.table.isEmpty = true) {i : Nat} (hi : i < w.count)
    (hinbox : (w.executors i).inbox = []) (r : ExecutionRequest) (q : Programs ρ) :
    Step c q w (w.register r) ∧ Step c q (w.register r) ((w.register r).dispatch i w.execution.epoch.requests.length) ∧
      Step c q ((w.register r).dispatch i w.execution.epoch.requests.length) (w.startNext c i r) ∧
      Step c q (w.startNext c i r) (w.executeNext c q i r) := by
  have hheld := h.idle_of_quiet (h.consistent.counted.not_inFlight_of_isEmpty hfinished) hi
  have hholding := hheld ▸ h.holding i hi
  obtain ⟨havailable, hcurrent⟩ : (w.executors i).available = true ∧ (w.executors i).current = none := by
    cases hholding with
    | idle havailable hcurrent => exact ⟨havailable, hcurrent⟩
  have hnext := h.consistent.takeReady_register hfinished r
  refine ⟨.register w r hrunning, .dispatch _ i { ticket := _, request := r } hrunning hi havailable hnext, ?_, ?_⟩
  · refine .begin _ i _ [] hi ?_ ?_
    · simpa [dispatch, setExecutor, register] using hcurrent
    · simp [dispatch, setExecutor, register, hinbox]
  · refine .commit _ i _ r w.accounts hi ?_ List.getElem?_concat_length ?_
    · simp [startNext, begin, setExecutor]
    · exact Progress.load_snapshot_self _ _

end World

/-! ### Simulation and execution -/

omit [SysvarCodec] in
theorem SysvarCache.ext_buffer {cache cache' : SysvarCache} (h : ∀ t, cache.buffer t = cache'.buffer t) :
    cache = cache' := by
  cases cache
  cases cache'
  have hclock := h .clock
  have hschedule := h .epochSchedule
  have hrewards := h .epochRewards
  have hrent := h .rent
  have hhashes := h .slotHashes
  have hrestart := h .lastRestartSlot
  simp only [SysvarCache.buffer] at *
  simp [*]

omit [SysvarCodec] in
theorem SvmContext.eq_of_fields {ctx ctx' : SvmContext} (hslot : ctx.slot = ctx'.slot)
    (hblockhash : ctx.blockhash = ctx'.blockhash) (hrent : ctx.rent = ctx'.rent) (hfeatures : ctx.features = ctx'.features)
    (hsysvars : ctx.sysvars = ctx'.sysvars) : ctx = ctx' := by
  cases ctx
  cases ctx'
  congr

/-- The programs make the same of two environments that differ in the blockhash only. -/
def Machine.IgnoreBlockhash (n : Machine ρ) : Prop :=
  ∀ ctx hash, n.runtime { ctx with blockhash := hash } = n.runtime ctx ∧
    n.report { ctx with blockhash := hash } = n.report ctx

namespace Workers

variable {n : Machine ρ} {s : Workers ρ} {i : Nat}

/-- The boundary came with the hash of the latest block: it was a recorded one, or a produced one whose hash was not
changed. -/
def KnowsHash (s : Workers ρ) : Prop :=
  ∀ input ∈ s.paced.getLast?, input.payload.hash = s.world.latest.hash

/-- At a quiescent point the sequencer has finalized everything it was sent. -/
private theorem Paced.settled (h : s.Paced c) (hq : s.Quiescent) :
    s.world.latest.slot = s.boundary.slot ∧ s.world.accounts.sysvarData .clock = s.boundaryClock c ∧
      (s.boundary.hash = s.world.latest.hash ↔ s.KnowsHash) := by
  obtain ⟨-, done, hpaced, hopened, hfinalized⟩ := h
  rw [hq.sequenced, List.append_nil] at hpaced
  have hcurrent : s.world.current = s.world.latest := by simp [World.current, hq.running]
  have hclock : s.world.currentClock c = s.world.accounts.sysvarData .clock := by
    simp [World.currentClock, hq.running]
  rw [hcurrent, hclock] at hopened hfinalized
  simp only [boundary, boundaryClock, KnowsHash, hpaced]
  cases hlast : done.getLast? with
  | none =>
    obtain ⟨hlatest, hstored⟩ := hopened (List.getLast?_eq_none_iff.mp hlast)
    exact ⟨by rw [hlatest]; rfl, hstored, by simp [hlatest]⟩
  | some input =>
    obtain ⟨hinput, hstored⟩ := hfinalized input hlast
    exact ⟨hinput.slot, hstored, by simp⟩

/-- At a quiescent point the two environments differ in the blockhash at most. -/
private theorem simulating_eq (hc : c.Valid) (hn : ∀ cache, (n.programs cache).LeavesSysvars) (h : s.Reachable c n)
    (hq : s.Quiescent) (hi : i < s.world.count) :
    (s.world.executing c i).blockhash = s.world.latest.hash ∧
      s.simulating c = { s.world.executing c i with blockhash := s.boundary.hash } := by
  have hpaced := h.paced hc hn
  have hfollows := hpaced.follows
  obtain ⟨hlatest, hboundary, -⟩ := hpaced.settled hq
  have he := (h.coherent hc hn).2.executors i hi
  have hslot := he.slot
  have hblockhash := he.blockhash
  have hclock := he.clock
  rw [hq.executors i hi] at hslot hblockhash hclock
  simp only [SvmContext.caughtUp, World.expected, World.expectedClock, hq.running] at hslot hblockhash hclock
  have hslot' := hfollows.slot
  have hblockhash' := hfollows.blockhash
  have hclock' := hfollows.clock
  rw [hq.simulator] at hslot' hblockhash' hclock'
  obtain ⟨hes, heh, hec⟩ := sameBoundary_refresh (s.world.executors i).svm (c.rentOf s.world.rent) s.world.features
  obtain ⟨hss, hsh, hsc⟩ := sameBoundary_refresh s.svm (c.rentOf s.world.rent) s.world.features
  obtain ⟨her, hef, heb⟩ := rent_refresh he.rent (c.rentOf s.world.rent) s.world.features
  obtain ⟨hsr, hsf, hsb⟩ := rent_refresh hfollows.rent (c.rentOf s.world.rent) s.world.features
  have hfixed (t : Sysvar) (ht : t.fixed = true) :
      (s.simulating c).sysvars.buffer t = (s.world.executing c i).sysvars.buffer t := by
    rw [simulating, World.executing, buffer_refresh _ _ _ ht, buffer_refresh _ _ _ ht, hfollows.fixed t ht, he.fixed t ht]
  have hsysvars : (s.simulating c).sysvars = (s.world.executing c i).sysvars := by
    refine SysvarCache.ext_buffer fun t => ?_
    cases t with
    | clock => exact hsc.trans (hclock'.trans (hboundary.symm.trans (hclock.symm.trans hec.symm)))
    | rent => exact hsb.trans heb.symm
    | slotHashes =>
      exact (slotHashes_refresh ..).trans (hfollows.slotHashes.trans (he.slotHashes.symm.trans (slotHashes_refresh ..).symm))
    | epochSchedule => exact hfixed .epochSchedule rfl
    | epochRewards => exact hfixed .epochRewards rfl
    | lastRestartSlot => exact hfixed .lastRestartSlot rfl
  refine ⟨heh.trans hblockhash, ?_⟩
  have hslots : (s.simulating c).slot = (s.world.executing c i).slot :=
    hss.trans (hslot'.trans ((congrArg (· + 1) hlatest.symm).trans (hslot.symm.trans hes.symm)))
  exact SvmContext.eq_of_fields hslots (hsh.trans hblockhash') (hsr.trans her.symm) (hsf.trans hef.symm) hsysvars

/-- The transaction is simulated and then executed by executor `i`. -/
def simulatedNext (c : Config) (n : Machine ρ) (i : Nat) (r : ExecutionRequest) (s : Workers ρ) : Workers ρ :=
  { s.simulated c n r with
    world := s.world.executeNext c (n.programs (s.simulated c n r).programs) i r
    programs := n.cached (s.simulated c n r).programs ((s.world.startNext c i r).executors i).svm r s.world.accounts
    inbox := [] }

theorem simulatedNext_steps {held : Nat → Option Nat} (hassigned : Assigned s.world held) (hq : s.Quiescent)
    (hi : i < s.world.count) (n : Machine ρ) (r : ExecutionRequest) :
    Relation.ReflTransGen (Step c n) s (s.simulatedNext c n i r) := by
  have hsteps := World.executeNext_steps (c := c) hassigned hq.running hq.finished hi (hq.executors i hi) r
  have hrunning : ∀ block next, s.world.phase ≠ .transition block next := by
    intro block next h
    rw [hq.running] at h
    cases h
  have hinbox : s.inbox ++ [.transaction r] = .transaction r :: [] := by
    rw [hq.simulator]
    rfl
  let s₁ : Workers ρ := { s with inbox := s.inbox ++ [.transaction r] }
  let s₂ : Workers ρ := { s.simulated c n r with inbox := [] }
  let s₃ : Workers ρ := { s₂ with world := s.world.register r }
  let s₄ : Workers ρ := { s₂ with world := (s.world.register r).dispatch i s.world.execution.epoch.requests.length }
  let s₅ : Workers ρ := { s₂ with world := s.world.startNext c i r }
  have h₁ : Step c n s s₁ := .request s r
  have h₂ : Step c n s₁ s₂ := .simulate s₁ r [] hinbox (by simp [s₁, hq.running])
  have h₃ : Step c n s₂ s₃ := .pool s₂ _ _ (fun q => (hsteps q).1) (fun _ => hrunning) (.inl rfl)
  have h₄ : Step c n s₃ s₄ := .pool s₃ _ _ (fun q => (hsteps q).2.1) (fun _ => hrunning) (.inl rfl)
  have h₅ : Step c n s₄ s₅ := .pool s₄ _ _ (fun q => (hsteps q).2.2.1) (fun _ => hrunning) (.inl rfl)
  have h₆ : Step c n s₅ (s.simulatedNext c n i r) := .commit s₅ i _ r s.world.accounts (hsteps _).2.2.2
  exact (((((Relation.ReflTransGen.single h₁).tail h₂).tail h₃).tail h₄).tail h₅).tail h₆

/-- At a quiescent point a transaction can be simulated and then executed by any executor. For all programs and all
transactions that store no other program code than executors see, the execution gives the result and the accounts of the
simulation if and only if the simulator knows the hash of the latest block; for programs that do not read the blockhash
it always does. -/
theorem simulation_predicts_iff (hc : c.Valid) (hn : ∀ cache, (n.programs cache).LeavesSysvars) (h : s.Reachable c n)
    (hq : s.Quiescent) (hi : i < s.world.count) :
    (∀ (q : Machine ρ) (r : ExecutionRequest),
      Relation.ReflTransGen (Step c q) s (s.simulatedNext c q i r) ∧
      (s.simulatedNext c q i r).world.results (s.world.settled + s.world.execution.epoch.requests.length) =
        some (s.world.execute c (q.programs (s.simulated c q r).programs) i r).1 ∧
      ∀ key, (s.simulatedNext c q i r).world.accounts key =
        if key ∈ ExecutionRequest.access.written r then
          (s.world.execute c (q.programs (s.simulated c q r).programs) i r).2 key
        else s.world.accounts key) ∧
    ((∀ (q : Machine ρ) (r : ExecutionRequest), q.Harmless s.programs (s.simulating c) r s.world.accounts →
      s.simulate c q r = s.world.execute c (q.programs (s.simulated c q r).programs) i r) ↔ s.KnowsHash) ∧
    ∀ q : Machine ρ, q.IgnoreBlockhash → ∀ r, q.Harmless s.programs (s.simulating c) r s.world.accounts →
      s.simulate c q r = s.world.execute c (q.programs (s.simulated c q r).programs) i r := by
  obtain ⟨⟨held, hassigned⟩, -⟩ := h.coherent hc hn
  obtain ⟨hhash, hsimulating⟩ := simulating_eq hc hn h hq hi
  -- under the simulator's environment the execution repeats the simulation
  have hagain : ∀ (q : Machine ρ) (r : ExecutionRequest), q.Harmless s.programs (s.simulating c) r s.world.accounts →
      s.simulate c q r = ((q.programs (s.simulated c q r).programs).result (s.simulating c) r s.world.accounts,
        (q.programs (s.simulated c q r).programs).exec (s.simulating c) r s.world.accounts) := by
    intro q r hharmless
    obtain ⟨hresult, hexec⟩ := hharmless.again
    exact Prod.ext hresult.symm hexec.symm
  refine ⟨fun q r => ⟨simulatedNext_steps hassigned hq hi q r, World.results_executeNext i r,
    World.accounts_executeNext i r⟩, ?_, fun q hignore r hharmless => ?_⟩
  · rw [← ((h.paced hc hn).settled hq).2.2]
    constructor
    · intro hall
      -- a machine that rejects every transaction, with a code that tells whether the hash is the executors' one
      let q : Machine ρ :=
        { n with
          runtime := fun ctx =>
            { n.runtime ctx with
              parseDetails := fun _ =>
                .error (.invalidDetails (if ctx.blockhash = s.world.latest.hash then 1 else 0)) } }
      have hharmless : q.Harmless s.programs (s.simulating c) (Epoch.writeRequest default) s.world.accounts := by
        intro details accounts hparse
        cases hparse
      have hresult := congrArg Prod.fst (hall q (Epoch.writeRequest default) hharmless)
      by_contra hne
      simp [q, simulate, World.execute, Machine.programs, Runtime.process, hsimulating, hhash, hne, Except.map] at hresult
    · intro hknown q r hharmless
      rw [hagain q r hharmless, World.execute, hsimulating, hknown, ← hhash]
  · obtain ⟨hruntime, hreport⟩ := hignore (s.world.executing c i) s.boundary.hash
    rw [hagain q r hharmless, World.execute, hsimulating]
    simp only [Machine.programs, hruntime, hreport]

end Workers

end Codec

/-! ### One block -/

/-- A machine that rejects every transaction; its error tells whether the hash is that of the first block. -/
def echoMachine : Machine Unit where
  runtime ctx :=
    { Runtime.replacingRuntime with
      parseDetails := fun _ => .error (.invalidDetails (if ctx.blockhash = firstBlock.hash then 1 else 0)) }
  report _ _ _ _ := ()

theorem echoMachine_leavesSysvars (cache : ProgramCache) : (echoMachine.programs cache).LeavesSysvars :=
  fun _ _ _ _ => rfl

theorem exists_quiescent (input : BlockInput) (hinput : input.Finalizes firstBlock) :
    ∃ s : Workers Unit, s.Reachable plainConfig echoMachine ∧ s.Quiescent ∧ 0 < s.world.count ∧ s.paced = [input] ∧
      s.world.latest = firstBlock := by
  have hseeded := plainConfig_valid.seeded
  obtain ⟨k, hk⟩ := hseeded.openKeeper
  obtain ⟨-, -, -, -, -, -, haccounts, -, -⟩ := openKeeper_eq_some hk
  obtain ⟨-, m, -, hm, -⟩ :=
    (haccounts ▸ hseeded : Seeded plainConfig k.accounts).updateSysvars k.epochSchedule firstBlock
  let s₀ : Workers Unit := .spawn plainConfig k 1 ⟨fun _ => none⟩
  let w₁ := s₀.world.finalize firstBlock
  let w₂ := w₁.send firstBlock 0
  let w₃ := w₂.push firstBlock
  let w₄ := w₃.store firstBlock m
  let w₅ := w₄.receiveBlock plainConfig 0 firstBlock []
  have h₀ : s₀.Reachable plainConfig echoMachine := .genesis k hk [] (by simp) 1 _
  have hpaced := Workers.Reachable.step _ _ h₀ (.pace s₀ input)
  have hmoved := Workers.Reachable.step _ _ hpaced (.transition _ input.payload [] rfl nofun)
  have h₁ := Workers.Reachable.step _ _ hmoved
    (.finalize _ input [] firstBlock rfl hinput fun _ => .finalize _ firstBlock rfl rfl)
  have h₂ := Workers.Reachable.step _ _ h₁
    (.pool _ w₂ _ (fun _ => .send _ firstBlock 0 rfl Nat.one_pos) nofun (.inl rfl))
  have h₃ := Workers.Reachable.step _ _ h₂ (.pool _ w₃ _ (fun _ => .push _ firstBlock rfl) nofun (.inl rfl))
  have h₄ := Workers.Reachable.step _ _ h₃ (.pool _ w₄ _ (fun _ => .store _ firstBlock m rfl hm) nofun (.inl rfl))
  have h₅ := Workers.Reachable.step _ _ h₄
    (.pool _ w₅ _ (fun _ => .receiveBlock _ 0 firstBlock [] Nat.one_pos rfl rfl) (fun _ _ _ => nofun) (.inl rfl))
  refine ⟨_, h₅, ⟨rfl, rfl, fun i hi => ?_, rfl, rfl⟩, Nat.one_pos, rfl, rfl⟩
  obtain rfl : i = 0 := Nat.lt_one_iff.mp hi
  rfl

/-- After a replayed block the simulator returns what an executor returns. -/
theorem simulation_predicts_iff_replayed : ∃ s : Workers Unit, s.Reachable plainConfig echoMachine ∧ s.Quiescent ∧
    s.paced = [.replay firstBlock] ∧
    ∀ r, s.simulate plainConfig echoMachine r = s.world.execute plainConfig
      (echoMachine.programs (s.simulated plainConfig echoMachine r).programs) 0 r := by
  obtain ⟨s, hs, hq, hcount, hpaced, hlatest⟩ := exists_quiescent (.replay firstBlock) rfl
  have h := Workers.simulation_predicts_iff plainConfig_valid echoMachine_leavesSysvars hs hq hcount
  refine ⟨s, hs, hq, hpaced, fun r => h.2.1.mpr ?_ echoMachine r ?_⟩
  · simp [Workers.KnowsHash, hpaced, hlatest, BlockInput.payload]
  · intro details accounts hparse
    cases hparse

/-- After a produced block the simulator sees the hash the boundary came with, and an executor that of the block. -/
theorem produced_hash_unknown : ∃ s : Workers Unit, s.Reachable plainConfig echoMachine ∧ s.Quiescent ∧
    s.paced = [.production { slot := 1, hash := default, time := 1000, parent := default }] ∧
    ∀ r, (s.simulate plainConfig echoMachine r).1 = .error (.invalidDetails 0) ∧
      (s.world.execute plainConfig (echoMachine.programs (s.simulated plainConfig echoMachine r).programs) 0 r).1 =
        .error (.invalidDetails 1) := by
  obtain ⟨s, hs, hq, hcount, hpaced, hlatest⟩ := exists_quiescent
    (.production { slot := 1, hash := default, time := 1000, parent := default }) ⟨rfl, rfl⟩
  obtain ⟨hhash, hsimulating⟩ := Workers.simulating_eq plainConfig_valid echoMachine_leavesSysvars hs hq hcount
  have hboundary : s.boundary.hash = default := by simp [Workers.boundary, hpaced, BlockInput.payload]
  have hne : (default : Hash) ≠ firstBlock.hash := by decide
  refine ⟨s, hs, hq, hpaced, fun r => ⟨?_, ?_⟩⟩
  · simp [Workers.simulate, Machine.programs, echoMachine, Runtime.process, Except.map, hsimulating, hboundary, hne]
  · simp [World.execute, Machine.programs, echoMachine, Runtime.process, Except.map, hhash, hlatest]

end Processor

end MagicEngine
