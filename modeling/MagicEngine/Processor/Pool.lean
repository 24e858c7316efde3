import MagicEngine.Processor.Sysvars
import MagicEngine.Sequencer.Execution

/-!
# The executor pool

The sequencer and its executors as one transition system (`processor/src/sequencer`, `processor/src/executor.rs`,
`processor/src/svm.rs`). The sequencer registers transactions, hands ready ones to available executors, finalizes blocks
and holds still while resets are applied; each executor works through its inbox with an environment of its own, filled
when it was spawned and refreshed by later messages. A process starts from the accounts an earlier one left, with a pool
of any size.

Executors and sequencer interleave freely. Block boundaries are sent to the executors one by one, then the block enters
the caches, then the sysvars are stored. Completions may reach the sequencer in any order.

`Assigned` says who holds which transaction: an executor that is not available holds exactly one transaction that is in
flight, in its inbox, in execution or reported, and while it executes its inbox is empty.
-/

namespace MagicEngine

open Codec ConflictOrder

namespace Processor

open SysvarCodec

section Codec

variable [SysvarCodec]

/-! ### The environment of an executor -/

structure SysvarCache where
  clock : Option Bytes := none
  epochSchedule : Option Bytes := none
  epochRewards : Option Bytes := none
  rent : Option Bytes := none
  slotHashes : Option Bytes := none
  lastRestartSlot : Option Bytes := none
deriving DecidableEq, Repr

namespace SysvarCache

def sysvarIdToBuffer (cache : SysvarCache) (id : Pubkey) : Option Bytes :=
  if id = clockId then cache.clock
  else if id = epochScheduleId then cache.epochSchedule
  else if id = epochRewardsId then cache.epochRewards
  else if id = rentId then cache.rent
  else if id = slotHashesId then cache.slotHashes
  else if id = lastRestartSlotId then cache.lastRestartSlot
  else none

def setClock (cache : SysvarCache) (clock : Clock) : SysvarCache := { cache with clock := some (encodeClock clock) }

def setRent (cache : SysvarCache) (rent : Rent) : SysvarCache := { cache with rent := some (encodeRent rent) }

/-- A missing entry takes the account's data if it deserializes. -/
def fillEntry (m : Accounts) (s : Sysvar) : Option Bytes → Option Bytes
  | some entry => some entry
  | none => (m.sysvarData s).filter s.decodes

def fillMissingEntries (m : Accounts) (cache : SysvarCache) : SysvarCache where
  clock := fillEntry m .clock cache.clock
  epochSchedule := fillEntry m .epochSchedule cache.epochSchedule
  epochRewards := fillEntry m .epochRewards cache.epochRewards
  rent := fillEntry m .rent cache.rent
  slotHashes := fillEntry m .slotHashes cache.slotHashes
  lastRestartSlot := fillEntry m .lastRestartSlot cache.lastRestartSlot

end SysvarCache

structure Keeper where
  accounts : Accounts
  latest : Block Hash
  rent : Nat
  features : Pubkey → Bool
  /-- Data of the schedule read at startup. -/
  epochSchedule : Bytes

/-- `KeeperBuilder::build` on populated accounts; a sysvar that is missing or does not decode ends the start. -/
def openKeeper (m : Accounts) : Option Keeper := do
  let rent ← (m.sysvarData .rent).bind readRent
  let epochSchedule ← (m.sysvarData .epochSchedule).filter Sysvar.epochSchedule.decodes
  let hashes ← (m.sysvarData .slotHashes).bind readSlotHashes
  let clock ← (m.sysvarData .clock).bind readClock
  some { accounts := m, latest := persistedLatest hashes clock, rent, features := m.features, epochSchedule }

def Keeper.applyReset (c : Config) (k : Keeper) (reset : Reset) : Keeper :=
  { k with
    accounts := c.resetAccounts k.features reset k.accounts
    features := fun key => decide (key ∈ reset.features)
    rent := reset.rent }

structure SvmContext where
  slot : Nat
  blockhash : Hash
  rent : Rent
  features : Pubkey → Bool
  sysvars : SysvarCache

namespace SvmContext

def new (c : Config) (k : Keeper) : SvmContext where
  slot := (c.clock k.epochSchedule k.latest).slot
  blockhash := k.latest.hash
  rent := c.rentOf k.rent
  features := k.features
  sysvars := ({} : SysvarCache).fillMissingEntries k.accounts

/-- The start of `execute`: rent and features follow the keeper. -/
def refresh (ctx : SvmContext) (rent : Rent) (features : Pubkey → Bool) : SvmContext :=
  let ctx := if ctx.rent ≠ rent then { ctx with sysvars := ctx.sysvars.setRent rent, rent } else ctx
  { ctx with features }

def transition (ctx : SvmContext) (blockhash : Hash) (clock : Clock) : SvmContext :=
  { ctx with slot := clock.slot, blockhash, sysvars := ctx.sysvars.setClock clock }

end SvmContext

/-- The code of all programs: what a transaction makes of the accounts, and its result. -/
structure Programs (ρ : Type) where
  exec : SvmContext → ExecutionRequest → Accounts → Accounts
  result : SvmContext → ExecutionRequest → Accounts → ρ

/-! ### The pool -/

inductive ExecutorMessage where
  | transaction (ticket : Nat)
  | block (block : Block Hash)
deriving DecidableEq, Repr

def ExecutorMessage.isBlock : ExecutorMessage → Bool
  | transaction _ => false
  | block _ => true

structure Executor where
  svm : SvmContext
  inbox : List ExecutorMessage := []
  /-- The transaction being executed. -/
  current : Option Nat := none
  /-- A completion the sequencer has not received yet. -/
  reported : Option Nat := none
  /-- The sequencer's availability bit. -/
  available : Bool := true

inductive Phase where
  | running
  /-- The boundary has been sent to the executors before `next`. -/
  | transition (block : Block Hash) (next : Nat)
  /-- The block is in the caches, its sysvars are not stored yet. -/
  | storing (block : Block Hash)
  /-- Drained and held; resets are applied here. -/
  | paused
deriving DecidableEq, Repr

/-- What the ledger records, in order. -/
inductive LedgerEvent where
  | transaction (request : ExecutionRequest)
  | block (block : Block Hash)
  | reset (reset : Reset)
deriving DecidableEq, Repr

/-- A process. The accounts are the store of `execution`, which starts afresh whenever the sequencer has drained. -/
structure World (ρ : Type) where
  latest : Block Hash
  rent : Nat
  features : Pubkey → Bool
  epochSchedule : Bytes
  execution : Execution (Option OwnedAccount)
  count : Nat
  executors : Nat → Executor
  phase : Phase := .running
  /-- The keeper the pool was spawned from. -/
  opened : Keeper
  /-- Transactions of earlier epochs. -/
  settled : Nat := 0
  log : List LedgerEvent := []
  /-- Results by position of the transaction in the log. -/
  results : Nat → Option ρ := fun _ => none

namespace World

variable {ρ : Type} (w : World ρ)

def accounts : Accounts := w.execution.accounts

def keeper : Keeper :=
  { accounts := w.accounts, latest := w.latest, rent := w.rent, features := w.features, epochSchedule := w.epochSchedule }

/-- `Sequencer::new` with executors spawned from the keeper. -/
def spawn (c : Config) (k : Keeper) (count : Nat) : World ρ where
  latest := k.latest
  rent := k.rent
  features := k.features
  epochSchedule := k.epochSchedule
  execution := .start k.accounts
  count
  executors _ := { svm := .new c k }
  opened := k

def setExecutor (i : Nat) (e : Executor) : World ρ := { w with executors := Function.update w.executors i e }

def setAccounts (m : Accounts) : World ρ := { w with execution := .start m }

def drained : World ρ :=
  { w with execution := .start w.accounts, settled := w.settled + w.execution.epoch.requests.length }

def register (r : ExecutionRequest) : World ρ :=
  { w with
    execution := { w.execution with epoch := w.execution.epoch.register r, progress := w.execution.progress.submit r }
    log := w.log ++ [.transaction r] }

def dispatch (i ticket : Nat) : World ρ :=
  let e := w.executors i
  { w with execution := { w.execution with epoch := w.execution.epoch.takeReady } }.setExecutor i
    { e with inbox := e.inbox ++ [ExecutorMessage.transaction ticket], available := false }

def receiveBlock (c : Config) (i : Nat) (block : Block Hash) (rest : List ExecutorMessage) : World ρ :=
  let e := w.executors i
  w.setExecutor i { e with svm := e.svm.transition block.hash (c.clock w.epochSchedule block), inbox := rest }

def begin (c : Config) (i ticket : Nat) (rest : List ExecutorMessage) : World ρ :=
  let e := w.executors i
  { w with execution := { w.execution with progress := w.execution.progress.load ticket } }.setExecutor i
    { e with svm := e.svm.refresh (c.rentOf w.rent) w.features, inbox := rest, current := some ticket }

def commit (p : Programs ρ) (i ticket : Nat) (r : ExecutionRequest) (s : Accounts) : World ρ :=
  let e := w.executors i
  { w with
    execution := { w.execution with
      progress := w.execution.progress.commit ExecutionRequest.access (p.exec e.svm) ticket r s }
    results := Function.update w.results (w.settled + ticket) (some (p.result e.svm r s)) }.setExecutor i
    { e with current := none, reported := some ticket }

def complete (i ticket : Nat) : World ρ :=
  let e := w.executors i
  { w with execution := { w.execution with epoch := w.execution.epoch.complete ticket } }.setExecutor i
    { e with reported := none, available := true }

def finalize (block : Block Hash) : World ρ := { w.drained with phase := .transition block 0 }

def send (block : Block Hash) (i : Nat) : World ρ :=
  let e := w.executors i
  { w with phase := .transition block (i + 1) }.setExecutor i { e with inbox := e.inbox ++ [ExecutorMessage.block block] }

def push (block : Block Hash) : World ρ := { w with latest := block, phase := .storing block }

def store (block : Block Hash) (m : Accounts) : World ρ :=
  { w.setAccounts m with phase := .running, log := w.log ++ [.block block] }

def pause : World ρ := { w.drained with phase := .paused }

def reset (c : Config) (r : Reset) : World ρ :=
  { w.setAccounts (c.resetAccounts w.features r w.accounts) with
    features := fun key => decide (key ∈ r.features), rent := r.rent, log := w.log ++ [.reset r] }

def resume : World ρ := { w with phase := .running }

end World

/-- One event of a process. A reset names features, no sysvars. -/
inductive Step {ρ : Type} (c : Config) (p : Programs ρ) : World ρ → World ρ → Prop
  | register (w : World ρ) (r : ExecutionRequest) (h : w.phase = .running) : Step c p w (w.register r)
  | dispatch (w : World ρ) (i : Nat) (next : ReadyTransaction) (h : w.phase = .running) (hi : i < w.count)
    (havailable : (w.executors i).available = true) (hnext : w.execution.epoch.table.takeReady.1 = some next) :
    Step c p w (w.dispatch i next.ticket)
  | receiveBlock (w : World ρ) (i : Nat) (block : Block Hash) (rest : List ExecutorMessage) (hi : i < w.count)
    (hidle : (w.executors i).current = none) (hinbox : (w.executors i).inbox = .block block :: rest) :
    Step c p w (w.receiveBlock c i block rest)
  | begin (w : World ρ) (i ticket : Nat) (rest : List ExecutorMessage) (hi : i < w.count)
    (hidle : (w.executors i).current = none) (hinbox : (w.executors i).inbox = .transaction ticket :: rest) :
    Step c p w (w.begin c i ticket rest)
  | commit (w : World ρ) (i ticket : Nat) (r : ExecutionRequest) (s : Accounts) (hi : i < w.count)
    (hcurrent : (w.executors i).current = some ticket) (hr : w.execution.epoch.requests[ticket]? = some r)
    (hs : w.execution.progress.snapshot ticket = some s) : Step c p w (w.commit p i ticket r s)
  | complete (w : World ρ) (i ticket : Nat) (h : w.phase = .running) (hi : i < w.count)
    (hreported : (w.executors i).reported = some ticket) : Step c p w (w.complete i ticket)
  | finalize (w : World ρ) (block : Block Hash) (h : w.phase = .running)
    (hempty : w.execution.epoch.table.isEmpty = true) : Step c p w (w.finalize block)
  | send (w : World ρ) (block : Block Hash) (i : Nat) (h : w.phase = .transition block i) (hi : i < w.count) :
    Step c p w (w.send block i)
  | push (w : World ρ) (block : Block Hash) (h : w.phase = .transition block w.count) : Step c p w (w.push block)
  | store (w : World ρ) (block : Block Hash) (m : Accounts) (h : w.phase = .storing block)
    (hm : c.updateSysvars w.epochSchedule w.accounts block = some m) : Step c p w (w.store block m)
  | pause (w : World ρ) (h : w.phase = .running) (hempty : w.execution.epoch.table.isEmpty = true) :
    Step c p w w.pause
  | reset (w : World ρ) (r : Reset) (h : w.phase = .paused) (hr : NamesNoSysvar r) : Step c p w (w.reset c r)
  | resume (w : World ρ) (h : w.phase = .paused) : Step c p w w.resume

end Codec

/-! ### Who holds which transaction -/

/-- The transaction an executor that is not available is busy with. -/
inductive Holding (e : Executor) : Option Nat → Prop
  | idle (havailable : e.available = true) (hcurrent : e.current = none) (hreported : e.reported = none)
    (hinbox : ∀ message ∈ e.inbox, message.isBlock = true) : Holding e none
  | waiting (blocks : List ExecutorMessage) (ticket : Nat) (havailable : e.available = false)
    (hcurrent : e.current = none) (hreported : e.reported = none) (hblocks : ∀ message ∈ blocks, message.isBlock = true)
    (hinbox : e.inbox = blocks ++ [.transaction ticket]) : Holding e (some ticket)
  | executing (ticket : Nat) (havailable : e.available = false) (hcurrent : e.current = some ticket)
    (hreported : e.reported = none) (hinbox : e.inbox = []) : Holding e (some ticket)
  | reported (ticket : Nat) (havailable : e.available = false) (hcurrent : e.current = none)
    (hreported : e.reported = some ticket) (hinbox : e.inbox = []) : Holding e (some ticket)

variable {t : Nat}

namespace Holding

variable {e : Executor} {held : Option Nat}

theorem of_available (h : Holding e held) (havailable : e.available = true) : held = none := by
  cases h <;> simp_all

theorem of_current (h : Holding e held) (hcurrent : e.current = some t) : held = some t ∧ e.inbox = [] := by
  cases h <;> simp_all

theorem of_reported (h : Holding e held) (hreported : e.reported = some t) :
    held = some t ∧ e.inbox = [] ∧ e.current = none := by
  cases h <;> simp_all

/-- A transaction at the head of the inbox is the one held, and nothing follows it. -/
theorem of_head (h : Holding e held) {rest : List ExecutorMessage}
    (hinbox : e.inbox = .transaction t :: rest) :
    held = some t ∧ rest = [] ∧ e.available = false ∧ e.reported = none := by
  cases h with
  | idle havailable hcurrent hreported hall =>
    have := hall (.transaction t) (hinbox ▸ List.mem_cons_self)
    cases this
  | waiting blocks ticket havailable hcurrent hreported hblocks hinbox' =>
    rw [hinbox'] at hinbox
    cases blocks with
    | nil =>
      obtain ⟨hmessage, hrest⟩ := List.cons.inj hinbox
      cases hmessage
      exact ⟨rfl, hrest.symm, havailable, hreported⟩
    | cons message blocks =>
      obtain ⟨rfl, -⟩ := List.cons.inj hinbox
      have := hblocks (.transaction t) List.mem_cons_self
      cases this
  | executing ticket havailable hcurrent hreported hnil => simp [hnil] at hinbox
  | reported ticket havailable hcurrent hreported hnil => simp [hnil] at hinbox

theorem tail (h : Holding e held) {block : Block Hash} {rest : List ExecutorMessage}
    (hinbox : e.inbox = .block block :: rest) (svm : SvmContext) : Holding { e with svm, inbox := rest } held := by
  cases h with
  | idle havailable hcurrent hreported hall =>
    exact .idle havailable hcurrent hreported fun message hmem => hall message (hinbox ▸ List.mem_cons_of_mem _ hmem)
  | waiting blocks ticket havailable hcurrent hreported hblocks hinbox' =>
    rw [hinbox'] at hinbox
    cases blocks with
    | nil => cases (List.cons.inj hinbox).1
    | cons message blocks =>
      exact .waiting blocks ticket havailable hcurrent hreported
        (fun message hmem => hblocks message (List.mem_cons_of_mem _ hmem)) (List.cons.inj hinbox).2.symm
  | executing ticket havailable hcurrent hreported hnil => simp [hnil] at hinbox
  | reported ticket havailable hcurrent hreported hnil => simp [hnil] at hinbox

end Holding

/-- Transactions in flight are with the executors, and with none of them when the sequencer is not running. -/
structure Assigned {ρ : Type} (w : World ρ) (held : Nat → Option Nat) : Prop where
  consistent : w.execution.epoch.Consistent
  holding : ∀ i < w.count, Holding (w.executors i) (held i)
  inFlight : ∀ i < w.count, ∀ t, held i = some t → w.execution.epoch.InFlight t
  distinct : ∀ i < w.count, ∀ j < w.count, ∀ t, held i = some t → held j = some t → i = j
  quiet : w.phase ≠ .running → ∀ t, ¬ w.execution.epoch.InFlight t

namespace Assigned

variable {ρ : Type} {c : Config} {p : Programs ρ} {w w' : World ρ} {held : Nat → Option Nat}

section

variable (h : Assigned w held)

include h

variable {i : Nat}

theorem idle_of_quiet (hquiet : ∀ t, ¬ w.execution.epoch.InFlight t) (hi : i < w.count) :
    held i = none := by
  cases hheld : held i with
  | none => rfl
  | some t => exact absurd (h.inFlight i hi t hheld) (hquiet t)

theorem running_of_held (hi : i < w.count) (hheld : held i = some t) :
    w.phase = .running := by
  by_contra hphase
  exact h.quiet hphase t (h.inFlight i hi t hheld)

private theorem setExecutor {e : Executor} (hepoch : w'.execution.epoch = w.execution.epoch)
    (hcount : w'.count = w.count) (hphase : w'.phase = w.phase)
    (hexecutors : w'.executors = Function.update w.executors i e) (he : i < w.count → Holding e (held i)) :
    Assigned w' held where
  consistent := hepoch ▸ h.consistent
  holding j hj := by
    rw [hcount] at hj
    rw [hexecutors]
    by_cases hji : j = i
    · subst hji
      rw [Function.update_self]
      exact he hj
    · rw [Function.update_of_ne hji]
      exact h.holding j hj
  inFlight j hj t ht := by
    rw [hcount] at hj
    rw [hepoch]
    exact h.inFlight j hj t ht
  distinct j hj k hk := by
    rw [hcount] at hj hk
    exact h.distinct j hj k hk
  quiet hne := by
    rw [hphase] at hne
    rw [hepoch]
    exact h.quiet hne

omit h in
theorem spawn [SysvarCodec] (c : Config) (k : Keeper) (count : Nat) :
    Assigned (World.spawn c k count : World ρ) fun _ => none where
  consistent := .start
  holding i _ := .idle rfl rfl rfl (by simp [World.spawn])
  inFlight := by simp
  distinct := by simp
  quiet := by simp [World.spawn]

/-- A drained sequencer has nothing in flight, before and after it starts a new epoch. -/
private theorem drained (hempty : w.execution.epoch.table.isEmpty = true) {phase : Phase} :
    Assigned { w.drained with phase } held := by
  have hnone : ∀ t, ¬ w.execution.epoch.InFlight t := h.consistent.counted.not_inFlight_of_isEmpty hempty
  have hidle (i : Nat) (hi : i < w.count) : held i = none := h.idle_of_quiet hnone hi
  exact {
    consistent := .start
    holding := h.holding
    inFlight := fun i hi t ht => by simp [hidle i hi] at ht
    distinct := fun i hi j _ t ht => by simp [hidle i hi] at ht
    quiet := fun _ t ht => by simp [World.drained, Execution.start, Epoch.start, Epoch.InFlight] at ht }

private theorem of_quiet (hquiet : ∀ t, ¬ w.execution.epoch.InFlight t)
    (hconsistent : w'.execution.epoch.Consistent) (hquiet' : ∀ t, ¬ w'.execution.epoch.InFlight t)
    (hcount : w'.count = w.count) (hexecutors : w'.executors = w.executors) : Assigned w' held := by
  have hidle (i : Nat) (hi : i < w.count) : held i = none := h.idle_of_quiet hquiet hi
  exact {
    consistent := hconsistent
    holding := fun i hi => by rw [hexecutors]; exact h.holding i (hcount ▸ hi)
    inFlight := fun i hi t ht => by simp [hidle i (hcount ▸ hi)] at ht
    distinct := fun i hi j _ t ht => by simp [hidle i (hcount ▸ hi)] at ht
    quiet := fun _ => hquiet' }

private theorem dispatch {next : ReadyTransaction} (hi : i < w.count)
    (havailable : (w.executors i).available = true) (hrunning : w.phase = .running)
    (hnext : w.execution.epoch.table.takeReady.1 = some next) :
    Assigned (w.dispatch i next.ticket) (Function.update held i (some next.ticket)) := by
  have hcounted := h.consistent.counted
  obtain ⟨-, hfresh⟩ := hcounted.takeReady_returns hnext
  have htaken : w.execution.epoch.takeReady.taken = w.execution.epoch.taken ++ [next.ticket] := by
    simp [Epoch.takeReady, hnext]
  have hflight : w.execution.epoch.takeReady.InFlight next.ticket :=
    ⟨by simp [htaken], fun hdone => hfresh (hcounted.completed_subset hdone)⟩
  have hkeep (t : Nat) (ht : w.execution.epoch.InFlight t) : w.execution.epoch.takeReady.InFlight t :=
    ⟨by rw [htaken]; exact List.mem_append_left _ ht.1, ht.2⟩
  have hnotHeld (j : Nat) (hj : j < w.count) : held j ≠ some next.ticket := fun hheld =>
    hfresh (h.inFlight j hj _ hheld).1
  refine
    { consistent := h.consistent.takeReady
      holding := fun j hj => ?_
      inFlight := fun j hj t ht => ?_
      distinct := fun j hj k hk t hjt hkt => ?_
      quiet := fun hphase => absurd hrunning hphase }
  · by_cases hji : j = i
    · subst hji
      have hheld := (h.holding j hj).of_available havailable
      have hholding := hheld ▸ h.holding j hj
      cases hholding with
      | idle _ hcurrent hreported hinbox =>
        simp only [World.dispatch, World.setExecutor, Function.update_self]
        exact .waiting _ next.ticket rfl hcurrent hreported hinbox rfl
    · simp only [World.dispatch, World.setExecutor, Function.update_of_ne hji]
      exact h.holding j hj
  · by_cases hji : j = i
    · subst hji
      rw [Function.update_self, Option.some.injEq] at ht
      exact ht ▸ hflight
    · rw [Function.update_of_ne hji] at ht
      exact hkeep t (h.inFlight j hj t ht)
  · by_cases hji : j = i <;> by_cases hki : k = i
    · rw [hji, hki]
    · subst hji
      rw [Function.update_self, Option.some.injEq] at hjt
      rw [Function.update_of_ne hki, ← hjt] at hkt
      exact absurd hkt (hnotHeld k hk)
    · subst hki
      rw [Function.update_self, Option.some.injEq] at hkt
      rw [Function.update_of_ne hji, ← hkt] at hjt
      exact absurd hjt (hnotHeld j hj)
    · rw [Function.update_of_ne hji] at hjt
      rw [Function.update_of_ne hki] at hkt
      exact h.distinct j hj k hk t hjt hkt

private theorem complete (hi : i < w.count)
    (hreported : (w.executors i).reported = some t) (hrunning : w.phase = .running) :
    Assigned (w.complete i t) (Function.update held i none) := by
  obtain ⟨hheld, hinbox, hcurrent⟩ := (h.holding i hi).of_reported hreported
  have hflight := h.inFlight i hi t hheld
  refine
    { consistent := h.consistent.complete hflight
      holding := fun j hj => ?_
      inFlight := fun j hj u hu => ?_
      distinct := fun j hj k hk u hju hku => ?_
      quiet := fun hphase => absurd hrunning hphase }
  · by_cases hji : j = i
    · subst hji
      simp only [World.complete, World.setExecutor, Function.update_self]
      exact .idle rfl hcurrent rfl (by simp [hinbox])
    · simp only [World.complete, World.setExecutor, Function.update_of_ne hji]
      exact h.holding j hj
  · by_cases hji : j = i
    · subst hji
      simp at hu
    · rw [Function.update_of_ne hji] at hu
      have hne : u ≠ t := fun heq => hji (h.distinct j hj i hi u hu (heq ▸ hheld))
      obtain ⟨htaken, hlive⟩ := h.inFlight j hj u hu
      exact ⟨htaken, by simpa [World.complete, World.setExecutor, hne] using hlive⟩
  · by_cases hji : j = i
    · subst hji
      simp at hju
    · by_cases hki : k = i
      · subst hki
        simp at hku
      · rw [Function.update_of_ne hji] at hju
        rw [Function.update_of_ne hki] at hku
        exact h.distinct j hj k hk u hju hku

private theorem send {block : Block Hash} (hphase : w.phase = .transition block i) :
    Assigned (w.send block i) held := by
  have hquiet := h.quiet (by simp [hphase])
  have hidle (j : Nat) (hj : j < w.count) : held j = none := h.idle_of_quiet hquiet hj
  refine
    { consistent := h.consistent
      holding := fun j hj => ?_
      inFlight := h.inFlight
      distinct := h.distinct
      quiet := fun _ => hquiet }
  have hholding := hidle j hj ▸ h.holding j hj
  rw [hidle j hj]
  by_cases hji : j = i
  · subst hji
    simp only [World.send, World.setExecutor, Function.update_self]
    cases hholding with
    | idle havailable hcurrent hreported hinbox =>
      refine .idle havailable hcurrent hreported fun message hmem => ?_
      rcases List.mem_append.mp hmem with hmem | hmem
      · exact hinbox message hmem
      · rw [List.mem_singleton.mp hmem]
        rfl
  · simp only [World.send, World.setExecutor, Function.update_of_ne hji]
    exact hholding

theorem step [SysvarCodec] (hstep : Step c p w w') : ∃ held', Assigned w' held' := by
  cases hstep with
  | register r hrunning =>
    exact ⟨held,
      { consistent := h.consistent.register r
        holding := h.holding
        inFlight := h.inFlight
        distinct := h.distinct
        quiet := fun hphase => absurd hrunning hphase }⟩
  | dispatch i next hrunning hi havailable hnext => exact ⟨_, h.dispatch hi havailable hrunning hnext⟩
  | receiveBlock i block rest hi hidle hinbox =>
    exact ⟨held, h.setExecutor rfl rfl rfl rfl fun hi => (h.holding i hi).tail hinbox _⟩
  | begin i t rest hi hidle hinbox =>
    refine ⟨held, h.setExecutor rfl rfl rfl rfl fun hi => ?_⟩
    obtain ⟨hheld, rfl, havailable, hreported⟩ := (h.holding i hi).of_head hinbox
    rw [hheld]
    exact .executing t havailable rfl hreported rfl
  | commit i t r s hi hcurrent hr hs =>
    refine ⟨held, h.setExecutor rfl rfl rfl rfl fun hi => ?_⟩
    obtain ⟨hheld, hinbox⟩ := (h.holding i hi).of_current hcurrent
    have havailable : (w.executors i).available = false := by
      have := h.holding i hi
      rw [hheld] at this
      cases this <;> assumption
    rw [hheld]
    exact .reported t havailable rfl rfl hinbox
  | complete i t hrunning hi hreported => exact ⟨_, h.complete hi hreported hrunning⟩
  | finalize block hrunning hempty => exact ⟨held, h.drained hempty⟩
  | send block i hphase hi => exact ⟨held, h.send hphase⟩
  | push block hphase =>
    have hquiet := h.quiet (by simp [hphase])
    exact ⟨held, h.of_quiet hquiet h.consistent hquiet rfl rfl⟩
  | store block m hphase hm =>
    have hquiet := h.quiet (by simp [hphase])
    exact ⟨held, h.of_quiet hquiet .start (by simp [World.store, World.setAccounts, Execution.start, Epoch.start,
      Epoch.InFlight]) rfl rfl⟩
  | pause hrunning hempty => exact ⟨held, h.drained hempty⟩
  | reset r hphase hr =>
    have hquiet := h.quiet (by simp [hphase])
    exact ⟨held, h.of_quiet hquiet .start (by simp [World.reset, World.setAccounts, Execution.start, Epoch.start,
      Epoch.InFlight]) rfl rfl⟩
  | resume hphase =>
    have hquiet := h.quiet (by simp [hphase])
    exact ⟨held, h.of_quiet hquiet h.consistent hquiet rfl rfl⟩

end

end Assigned

end Processor

end MagicEngine
