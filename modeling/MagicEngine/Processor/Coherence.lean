import MagicEngine.Processor.Pool

/-!
# Cached and stored sysvars

Whether the environment an executor shows to a program agrees with the stored sysvars, in every run of any number of
processes over one account store.

Clock, Rent and the three sysvars that never change agree whenever a transaction executes, and slot, blockhash and rent
are those of the latest block and the latest reset. `SlotHashes` is filled when the executor is spawned and never again,
while every block is added to the stored account: the buffer is the stored data as of the start of the process
(`sysvars_coherent`, `stale_slotHashes`).

An executor's environment is compared with the sequencer's side through the boundaries still in its inbox (`caughtUp`);
while it executes the inbox is empty, so the two are the same.
-/

namespace MagicEngine

open Codec ConflictOrder

namespace Processor

open SysvarCodec

section Codec

variable [SysvarCodec]

/-! ### Keepers -/

structure Keeper.Coherent (c : Config) (k : Keeper) : Prop where
  seeded : Seeded c k.accounts
  features : ∀ s : Sysvar, k.features s.id = false
  rent : k.accounts.sysvarData .rent = some (encodeRent (c.rentOf k.rent))

variable {m : Accounts}

theorem openKeeper_eq_some {k : Keeper} (h : openKeeper m = some k) :
    ∃ hashes clock, (m.sysvarData .slotHashes).bind readSlotHashes = some hashes ∧
      (m.sysvarData .clock).bind readClock = some clock ∧ (m.sysvarData .rent).bind readRent = some k.rent ∧
      m.sysvarData .epochSchedule = some k.epochSchedule ∧ k.accounts = m ∧ k.features = m.features ∧
      k.latest = persistedLatest hashes clock := by
  obtain ⟨rent, hrent, h⟩ := Option.bind_eq_some_iff.mp h
  obtain ⟨schedule, hschedule, h⟩ := Option.bind_eq_some_iff.mp h
  obtain ⟨hashes, hhashes, h⟩ := Option.bind_eq_some_iff.mp h
  obtain ⟨clock, hclock, h⟩ := Option.bind_eq_some_iff.mp h
  cases h
  exact ⟨hashes, clock, hhashes, hclock, hrent, (Option.filter_eq_some_iff.mp hschedule).1, rfl, rfl, rfl⟩

namespace Keeper.Coherent

variable {c : Config} {k : Keeper}

theorem openKeeper (h : Seeded c m) (hk : openKeeper m = some k) : k.Coherent c := by
  obtain ⟨hashes, clock, -, -, hrent, -, rfl, hfeatures, -⟩ := openKeeper_eq_some hk
  obtain ⟨data, hdata, rate, rfl⟩ := h.sysvarData .rent
  refine ⟨h, fun s => hfeatures ▸ h.features s, ?_⟩
  rw [hdata, Option.bind_some, readRent_encodeRent, Option.some.injEq] at hrent
  rw [hdata, ← hrent]
  exact congrArg some (encodeRent_mod (c.rentOf rate)).symm

theorem applyReset (h : k.Coherent c) {reset : Reset} (hreset : NamesNoSysvar reset) :
    (k.applyReset c reset).Coherent c := by
  obtain ⟨hseeded, hdata⟩ := h.seeded.resetAccounts h.features hreset
  exact {
    seeded := hseeded
    features := fun s => decide_eq_false (hreset s)
    rent := hdata .rent }

theorem applyResets (h : k.Coherent c) {resets : List Reset} (hresets : ∀ reset ∈ resets, NamesNoSysvar reset) :
    (resets.foldl (·.applyReset c) k).Coherent c := by
  induction resets generalizing k with
  | nil => exact h
  | cons reset resets ih =>
    obtain ⟨hreset, hresets⟩ := List.forall_mem_cons.mp hresets
    exact ih (h.applyReset hreset) hresets

end Keeper.Coherent

/-! ### What an executor will have seen -/

/-- The environment after the boundaries still in the inbox. -/
def SvmContext.caughtUp (c : Config) (schedule : Bytes) (ctx : SvmContext) : List ExecutorMessage → SvmContext
  | [] => ctx
  | .transaction _ :: rest => ctx.caughtUp c schedule rest
  | .block block :: rest => (ctx.transition block.hash (c.clock schedule block)).caughtUp c schedule rest

theorem SvmContext.caughtUp_append (c : Config) (schedule : Bytes) (ctx : SvmContext) (inbox inbox' : List ExecutorMessage) :
    ctx.caughtUp c schedule (inbox ++ inbox') = (ctx.caughtUp c schedule inbox).caughtUp c schedule inbox' := by
  induction inbox generalizing ctx with
  | nil => rfl
  | cons message inbox ih => cases message <;> exact ih _

namespace World

variable {ρ : Type} (c : Config) (w : World ρ)

/-- The block whose boundary the executor has been sent last. -/
def expected (i : Nat) : Block Hash :=
  match w.phase with
  | .transition block next => if i < next then block else w.latest
  | _ => w.latest

def expectedClock (i : Nat) : Option Bytes :=
  match w.phase with
  | .transition block next =>
    if i < next then some (encodeClock (c.clock w.epochSchedule block)) else w.accounts.sysvarData .clock
  | .storing block => some (encodeClock (c.clock w.epochSchedule block))
  | _ => w.accounts.sysvarData .clock

end World

/-- The sysvars that nothing writes after the store was created. -/
def Sysvar.fixed : Sysvar → Bool
  | epochSchedule | epochRewards | lastRestartSlot => true
  | clock | rent | slotHashes => false

def SysvarCache.buffer (cache : SysvarCache) : Sysvar → Option Bytes
  | .clock => cache.clock
  | .epochSchedule => cache.epochSchedule
  | .epochRewards => cache.epochRewards
  | .rent => cache.rent
  | .slotHashes => cache.slotHashes
  | .lastRestartSlot => cache.lastRestartSlot

omit [SysvarCodec] in
theorem SysvarCache.sysvarIdToBuffer_id (cache : SysvarCache) (s : Sysvar) :
    cache.sysvarIdToBuffer s.id = cache.buffer s := by
  cases s <;> rfl

theorem SysvarCache.buffer_setClock (cache : SysvarCache) (clock : Clock) {s : Sysvar} (hs : s.fixed = true) :
    (cache.setClock clock).buffer s = cache.buffer s := by
  cases s <;> first | rfl | cases hs

theorem SysvarCache.buffer_setRent (cache : SysvarCache) (rent : Rent) {s : Sysvar} (hs : s.fixed = true) :
    (cache.setRent rent).buffer s = cache.buffer s := by
  cases s <;> first | rfl | cases hs

structure Executor.Coherent {ρ : Type} (c : Config) (w : World ρ) (i : Nat) (e : Executor) : Prop where
  slot : (e.svm.caughtUp c w.epochSchedule e.inbox).slot = (w.expected i).slot + 1
  blockhash : (e.svm.caughtUp c w.epochSchedule e.inbox).blockhash = (w.expected i).hash
  clock : (e.svm.caughtUp c w.epochSchedule e.inbox).sysvars.clock = w.expectedClock c i
  rent : e.svm.sysvars.rent = some (encodeRent e.svm.rent)
  slotHashes : e.svm.sysvars.slotHashes = w.opened.accounts.sysvarData .slotHashes
  fixed : ∀ s : Sysvar, s.fixed = true → e.svm.sysvars.buffer s = w.accounts.sysvarData s
  refreshed : e.current.isSome → e.svm.rent = c.rentOf w.rent ∧ e.svm.features = w.features

def lastBlock (block : Block Hash) : List LedgerEvent → Block Hash
  | [] => block
  | .block block :: log => lastBlock block log
  | _ :: log => lastBlock block log

def lastRent (rent : Nat) : List LedgerEvent → Nat
  | [] => rent
  | .reset reset :: log => lastRent reset.rent log
  | _ :: log => lastRent rent log

omit [SysvarCodec] in
theorem lastBlock_append (block : Block Hash) (log log' : List LedgerEvent) :
    lastBlock block (log ++ log') = lastBlock (lastBlock block log) log' := by
  induction log generalizing block with
  | nil => rfl
  | cons event log ih => cases event <;> exact ih _

omit [SysvarCodec] in
theorem lastRent_append (rent : Nat) (log log' : List LedgerEvent) :
    lastRent rent (log ++ log') = lastRent (lastRent rent log) log' := by
  induction log generalizing rent with
  | nil => rfl
  | cons event log ih => cases event <;> exact ih _

structure World.Coherent {ρ : Type} (c : Config) (w : World ρ) : Prop where
  keeper : w.keeper.Coherent c
  executors : ∀ i < w.count, (w.executors i).Coherent c w i
  /-- What was loaded has the sysvars of the store. -/
  snapshots : ∀ t m, w.execution.progress.snapshot t = some m → ∀ s : Sysvar, m s.id = w.accounts s.id
  latest : (∀ block, w.phase ≠ .storing block) → w.latest = lastBlock w.opened.latest w.log
  storing : ∀ block, w.phase = .storing block → w.latest = block
  rent : w.rent = lastRent w.opened.rent w.log
  slotHashes : (∀ block, .block block ∉ w.log) →
    w.accounts.sysvarData .slotHashes = w.opened.accounts.sysvarData .slotHashes

variable {block : Block Hash}

namespace Executor.Coherent

variable {ρ : Type} {c : Config} {w w' : World ρ} {i : Nat} {e : Executor}

theorem frame (h : e.Coherent c w i) (hschedule : w'.epochSchedule = w.epochSchedule)
    (hexpected : w'.expected i = w.expected i) (hclock : w'.expectedClock c i = w.expectedClock c i)
    (hopened : w'.opened = w.opened)
    (hfixed : ∀ s : Sysvar, s.fixed = true → w'.accounts.sysvarData s = w.accounts.sysvarData s)
    (hkept : e.current.isSome → w'.rent = w.rent ∧ w'.features = w.features) : e.Coherent c w' i where
  slot := by rw [hschedule, hexpected]; exact h.slot
  blockhash := by rw [hschedule, hexpected]; exact h.blockhash
  clock := by rw [hschedule, hclock]; exact h.clock
  rent := h.rent
  slotHashes := hopened ▸ h.slotHashes
  fixed s hs := (h.fixed s hs).trans (hfixed s hs).symm
  refreshed hcurrent := by
    obtain ⟨hrent, hfeatures⟩ := hkept hcurrent
    rw [hrent, hfeatures]
    exact h.refreshed hcurrent

theorem dispatch (h : e.Coherent c w i) (ticket : Nat) :
    Executor.Coherent c w i { e with inbox := e.inbox ++ [.transaction ticket], available := false } := by
  have hcaughtUp : e.svm.caughtUp c w.epochSchedule (e.inbox ++ [.transaction ticket]) =
      e.svm.caughtUp c w.epochSchedule e.inbox := SvmContext.caughtUp_append ..
  exact { h with slot := hcaughtUp ▸ h.slot, blockhash := hcaughtUp ▸ h.blockhash, clock := hcaughtUp ▸ h.clock }

theorem receiveBlock (h : e.Coherent c w i) {rest : List ExecutorMessage}
    (hidle : e.current = none) (hinbox : e.inbox = .block block :: rest) :
    Executor.Coherent c w i
      { e with svm := e.svm.transition block.hash (c.clock w.epochSchedule block), inbox := rest } := by
  have hslot := h.slot
  have hblockhash := h.blockhash
  have hclock := h.clock
  rw [hinbox] at hslot hblockhash hclock
  exact { h with
    slot := hslot
    blockhash := hblockhash
    clock := hclock
    fixed := fun s hs => (e.svm.sysvars.buffer_setClock _ hs).trans (h.fixed s hs)
    refreshed := fun hcurrent => by simp [hidle] at hcurrent }

theorem begin (h : e.Coherent c w i) {ticket : Nat} (hinbox : e.inbox = [.transaction ticket]) :
    Executor.Coherent c w i
      { e with svm := e.svm.refresh (c.rentOf w.rent) w.features, inbox := [], current := some ticket } := by
  have hslot := h.slot
  have hblockhash := h.blockhash
  have hclock := h.clock
  rw [hinbox] at hslot hblockhash hclock
  by_cases hrent : e.svm.rent = c.rentOf w.rent
  · have hsvm : e.svm.refresh (c.rentOf w.rent) w.features = { e.svm with features := w.features } := by
      simp [SvmContext.refresh, hrent]
    rw [hsvm]
    exact { h with slot := hslot, blockhash := hblockhash, clock := hclock, refreshed := fun _ => ⟨hrent, rfl⟩ }
  · have hsvm : e.svm.refresh (c.rentOf w.rent) w.features =
        { e.svm with
          sysvars := e.svm.sysvars.setRent (c.rentOf w.rent), rent := c.rentOf w.rent, features := w.features } := by
      simp [SvmContext.refresh, hrent]
    rw [hsvm]
    exact { h with
      slot := hslot
      blockhash := hblockhash
      clock := hclock
      rent := rfl
      fixed := fun s hs => (e.svm.sysvars.buffer_setRent _ hs).trans (h.fixed s hs)
      refreshed := fun _ => ⟨rfl, rfl⟩ }

end Executor.Coherent

def Programs.LeavesSysvars {ρ : Type} (p : Programs ρ) : Prop := ∀ ctx r m (s : Sysvar), p.exec ctx r m s.id = m s.id

namespace World.Coherent

variable {ρ : Type} {c : Config} {p : Programs ρ} {w w' : World ρ}

theorem spawn {k : Keeper} (h : k.Coherent c) (count : Nat) : (World.spawn c k count : World ρ).Coherent c where
  keeper := h
  executors i _ := by
    have hfill (s : Sysvar) : SysvarCache.fillEntry k.accounts s none = k.accounts.sysvarData s := by
      obtain ⟨data, hdata, hshape⟩ := h.seeded.sysvarData s
      simp [SysvarCache.fillEntry, hdata, hshape.decodes]
    exact {
      slot := rfl
      blockhash := rfl
      clock := hfill .clock
      rent := (hfill .rent).trans h.rent
      slotHashes := hfill .slotHashes
      fixed := fun s _ => by cases s <;> exact hfill _
      refreshed := fun hcurrent => by simp [World.spawn] at hcurrent }
  snapshots := by simp [World.spawn, Execution.start, Progress.init]
  latest _ := rfl
  storing block h := by cases h
  rent := rfl
  slotHashes _ := rfl

/-- The worlds differ in one executor and in accounts that are not sysvars. -/
private structure Local (w w' : World ρ) : Prop where
  phase : w'.phase = w.phase
  latest : w'.latest = w.latest
  epochSchedule : w'.epochSchedule = w.epochSchedule
  opened : w'.opened = w.opened
  count : w'.count = w.count
  rent : w'.rent = w.rent
  features : w'.features = w.features
  log : w'.log = w.log
  accounts : ∀ s : Sysvar, w'.accounts s.id = w.accounts s.id

omit [SysvarCodec] in
private theorem Local.sysvarData (h : Local w w') (s : Sysvar) : w'.accounts.sysvarData s = w.accounts.sysvarData s := by
  rw [Accounts.sysvarData, h.accounts s, Accounts.sysvarData]

private theorem Local.frame (h : Local w w') {i : Nat} {e : Executor} (he : e.Coherent c w i) : e.Coherent c w' i := by
  refine he.frame h.epochSchedule ?_ ?_ h.opened (fun s _ => h.sysvarData s) fun _ => ⟨h.rent, h.features⟩
  · simp only [World.expected, h.phase, h.latest]
  · simp only [World.expectedClock, h.phase, h.epochSchedule, h.sysvarData]

section

variable (h : w.Coherent c)

include h

private theorem of_local (hlocal : Local w w') {i : Nat} {e : Executor}
    (hexecutors : w'.executors = Function.update w.executors i e) (he : i < w.count → e.Coherent c w i)
    (hsnapshots : ∀ t m, w'.execution.progress.snapshot t = some m → ∀ s : Sysvar, m s.id = w.accounts s.id) :
    w'.Coherent c where
  keeper :=
    { seeded := h.keeper.seeded.congr hlocal.accounts
      features := fun s => (congrFun hlocal.features s.id).trans (h.keeper.features s)
      rent := by
        have hrent : w'.keeper.rent = w.keeper.rent := hlocal.rent
        rw [hrent]
        exact (hlocal.sysvarData .rent).trans h.keeper.rent }
  executors j hj := by
    rw [hlocal.count] at hj
    rw [hexecutors]
    by_cases hji : j = i
    · subst hji
      rw [Function.update_self]
      exact hlocal.frame (he hj)
    · rw [Function.update_of_ne hji]
      exact hlocal.frame (h.executors j hj)
  snapshots t m hm s := (hsnapshots t m hm s).trans (hlocal.accounts s).symm
  latest hphase := by
    rw [hlocal.phase] at hphase
    rw [hlocal.latest, hlocal.opened, hlocal.log]
    exact h.latest hphase
  storing block hphase := by
    rw [hlocal.phase] at hphase
    rw [hlocal.latest]
    exact h.storing block hphase
  rent := by rw [hlocal.rent, hlocal.opened, hlocal.log]; exact h.rent
  slotHashes hlog := by
    rw [hlocal.log] at hlog
    rw [hlocal.sysvarData, hlocal.opened]
    exact h.slotHashes hlog

private theorem drained (hrunning : w.phase = .running) {phase : Phase}
    (hphase : phase = .paused ∨ ∃ block, phase = .transition block 0) : ({ w.drained with phase } : World ρ).Coherent c where
  keeper := h.keeper
  executors i hi := by
    refine (h.executors i hi).frame rfl ?_ ?_ rfl (fun _ _ => rfl) fun _ => ⟨rfl, rfl⟩
    · rcases hphase with rfl | ⟨block, rfl⟩ <;> simp [World.expected, hrunning, World.drained]
    · rcases hphase with rfl | ⟨block, rfl⟩ <;> simp [World.expectedClock, hrunning, World.drained, World.accounts] <;> rfl
  snapshots := by simp [World.drained, Execution.start, Progress.init]
  latest _ := h.latest (by simp [hrunning])
  storing block hstoring := by rcases hphase with rfl | ⟨_, rfl⟩ <;> cases hstoring
  rent := h.rent
  slotHashes := h.slotHashes

private theorem register (r : ExecutionRequest) : (w.register r).Coherent c :=
  { h with
    executors := fun i hi => (h.executors i hi).frame rfl rfl rfl rfl (fun _ _ => rfl) fun _ => ⟨rfl, rfl⟩
    latest := fun hphase => by
      rw [World.register, lastBlock_append]
      exact h.latest hphase
    rent := by
      rw [World.register, lastRent_append]
      exact h.rent
    slotHashes := fun hlog => h.slotHashes fun block hmem => hlog block (List.mem_append_left _ hmem) }

private theorem send {i : Nat} (hphase : w.phase = .transition block i) :
    (w.send block i).Coherent c where
  keeper := h.keeper
  executors j hj := by
    by_cases hji : j = i
    · subst hji
      have hcaughtUp := SvmContext.caughtUp_append c w.epochSchedule (w.executors j).svm (w.executors j).inbox
        [.block block]
      have he := h.executors j hj
      simp only [World.send, World.setExecutor, Function.update_self]
      exact { he with
        slot := by simp [hcaughtUp, SvmContext.caughtUp, SvmContext.transition, World.expected, Config.clock]
        blockhash := by simp [hcaughtUp, SvmContext.caughtUp, SvmContext.transition, World.expected]
        clock := by
          simp [hcaughtUp, SvmContext.caughtUp, SvmContext.transition, World.expectedClock, SysvarCache.setClock] }
    · have hlt : j < i + 1 ↔ j < i := by omega
      simp only [World.send, World.setExecutor, Function.update_of_ne hji]
      refine (h.executors j hj).frame rfl ?_ ?_ rfl (fun _ _ => rfl) fun _ => ⟨rfl, rfl⟩
      · simp only [World.expected, hphase, hlt]
      · simp only [World.expectedClock, hphase, hlt]
        rfl
  snapshots := h.snapshots
  latest _ := h.latest (by simp [hphase])
  storing block hstoring := by cases hstoring
  rent := h.rent
  slotHashes := h.slotHashes

private theorem push (hphase : w.phase = .transition block w.count) :
    (w.push block).Coherent c where
  keeper := { h.keeper with }
  executors i hi := by
    have hlt : i < w.count := hi
    refine (h.executors i hi).frame rfl ?_ ?_ rfl (fun _ _ => rfl) fun _ => ⟨rfl, rfl⟩
    · simp [World.expected, World.push, hphase, hlt]
    · simp [World.expectedClock, World.push, hphase, hlt]
  snapshots := h.snapshots
  latest hne := absurd rfl (hne block)
  storing _ hstoring := by cases hstoring; rfl
  rent := h.rent
  slotHashes := h.slotHashes

private theorem store (hphase : w.phase = .storing block)
    (hm : c.updateSysvars w.epochSchedule w.accounts block = some m) : (w.store block m).Coherent c := by
  obtain ⟨hashes, m', -, hm', hseeded, hother, hclock, -⟩ := h.keeper.seeded.updateSysvars w.epochSchedule block
  cases hm.symm.trans hm'
  have hlatest := h.storing block hphase
  have hkept (s : Sysvar) (hs : s ≠ .slotHashes) (hs' : s ≠ .clock) : m.sysvarData s = w.accounts.sysvarData s := by
    rw [Accounts.sysvarData, hother s.id (fun heq => hs (Sysvar.id_injective heq))
      (fun heq => hs' (Sysvar.id_injective heq))]
    rfl
  exact {
    keeper :=
      { seeded := hseeded
        features := h.keeper.features
        rent := (hkept .rent (by decide) (by decide)).trans h.keeper.rent }
    executors := fun i hi => by
      refine (h.executors i hi).frame rfl ?_ ?_ rfl (fun s hs => hkept s ?_ ?_) fun _ => ⟨rfl, rfl⟩
      · simp [World.expected, World.store, World.setAccounts, hphase]
      · simp only [World.expectedClock, World.store, World.setAccounts, hphase]
        exact hclock
      · rintro rfl
        cases hs
      · rintro rfl
        cases hs
    snapshots := by simp [World.store, World.setAccounts, Execution.start, Progress.init]
    latest := fun _ => by
      rw [World.store, lastBlock_append]
      exact hlatest
    storing := fun _ hstoring => by cases hstoring
    rent := by
      rw [World.store, lastRent_append]
      exact h.rent
    slotHashes := fun hlog => absurd (List.mem_append_right _ List.mem_cons_self) (hlog block) }

private theorem reset {reset : Reset} (hphase : w.phase = .paused) (hreset : NamesNoSysvar reset)
    (hidle : ∀ i < w.count, (w.executors i).current = none) : (w.reset c reset).Coherent c := by
  obtain ⟨hseeded, hdata⟩ := h.keeper.seeded.resetAccounts h.keeper.features hreset
  have hkept (s : Sysvar) (hs : s ≠ .rent) : (w.reset c reset).accounts.sysvarData s = w.accounts.sysvarData s :=
    (hdata s).trans (if_neg hs)
  exact {
    keeper := h.keeper.applyReset hreset
    executors := fun i hi => by
      refine (h.executors i hi).frame rfl ?_ ?_ rfl (fun s hs => hkept s ?_) fun hcurrent => ?_
      · simp [World.expected, World.reset, World.setAccounts, hphase]
      · simp only [World.expectedClock, World.reset, World.setAccounts, hphase]
        exact hkept .clock (by decide)
      · rintro rfl
        cases hs
      · simp [hidle i hi] at hcurrent
    snapshots := by simp [World.reset, World.setAccounts, Execution.start, Progress.init]
    latest := fun _ => by
      rw [World.reset, lastBlock_append]
      exact h.latest (by simp [hphase])
    storing := fun block hstoring => by simp [World.reset, World.setAccounts, hphase] at hstoring
    rent := by
      rw [World.reset, lastRent_append]
      rfl
    slotHashes := fun hlog => by
      rw [hkept .slotHashes (by decide)]
      exact h.slotHashes fun block hmem => hlog block (List.mem_append_left _ hmem) }

private theorem resume (hphase : w.phase = .paused) : w.resume.Coherent c where
  keeper := h.keeper
  executors i hi := by
    refine (h.executors i hi).frame rfl ?_ ?_ rfl (fun _ _ => rfl) fun _ => ⟨rfl, rfl⟩
    · simp [World.expected, World.resume, hphase]
    · simp only [World.expectedClock, World.resume, hphase]
      rfl
  snapshots := h.snapshots
  latest _ := h.latest (by simp [hphase])
  storing _ hstoring := by cases hstoring
  rent := h.rent
  slotHashes := h.slotHashes

end

theorem step (hp : p.LeavesSysvars) {held : Nat → Option Nat} (hassigned : Assigned w held) (h : w.Coherent c)
    (hstep : Step c p w w') : w'.Coherent c := by
  cases hstep with
  | register r hrunning => exact h.register r
  | dispatch i next hrunning hi havailable hnext =>
    exact h.of_local ⟨rfl, rfl, rfl, rfl, rfl, rfl, rfl, rfl, fun _ => rfl⟩ rfl
      (fun hi => (h.executors i hi).dispatch next.ticket) h.snapshots
  | receiveBlock i block rest hi hidle hinbox =>
    exact h.of_local ⟨rfl, rfl, rfl, rfl, rfl, rfl, rfl, rfl, fun _ => rfl⟩ rfl
      (fun hi => (h.executors i hi).receiveBlock hidle hinbox) h.snapshots
  | begin i t rest hi hidle hinbox =>
    obtain ⟨-, rfl, -, -⟩ := (hassigned.holding i hi).of_head hinbox
    refine h.of_local ⟨rfl, rfl, rfl, rfl, rfl, rfl, rfl, rfl, fun _ => rfl⟩ rfl
      (fun hi => (h.executors i hi).begin hinbox) fun u m hm s => ?_
    by_cases hut : u = t
    · subst hut
      have hload := w.execution.progress.load_snapshot_self u
      cases hload.symm.trans hm
      rfl
    · have hload := w.execution.progress.load_snapshot_of_ne hut
      exact h.snapshots u m (hload.symm.trans hm) s
  | commit i t r m hi hcurrent hr hm =>
    refine h.of_local ⟨rfl, rfl, rfl, rfl, rfl, rfl, rfl, rfl, fun s => ?_⟩ rfl (fun hi => ?_) h.snapshots
    · have hstate : (w.commit p i t r m).accounts s.id =
          if s.id ∈ ExecutionRequest.access.written r then p.exec (w.executors i).svm r m s.id else w.accounts s.id := rfl
      rw [hstate, hp, h.snapshots t m hm s]
      split <;> rfl
    · exact { h.executors i hi with refreshed := fun hnone => by simp at hnone }
  | complete i t hrunning hi hreported =>
    exact h.of_local ⟨rfl, rfl, rfl, rfl, rfl, rfl, rfl, rfl, fun _ => rfl⟩ rfl
      (fun hi => { h.executors i hi with }) h.snapshots
  | finalize block hrunning hempty => exact h.drained hrunning (.inr ⟨block, rfl⟩)
  | send block i hphase hi => exact h.send hphase
  | push block hphase => exact h.push hphase
  | store block m hphase hm => exact h.store hphase hm
  | pause hrunning hempty => exact h.drained hrunning (.inl rfl)
  | reset r hphase hr =>
    refine h.reset hphase hr fun i hi => ?_
    have hheld := hassigned.idle_of_quiet (hassigned.quiet (by simp [hphase])) hi
    have hholding := hheld ▸ hassigned.holding i hi
    cases hholding
    assumption
  | resume hphase => exact h.resume hphase

end World.Coherent

/-! ### Runs over several processes -/

/-- The states of all runs: a process starts on a fresh store or on the persisted accounts of any earlier state, with
some volatile accounts, and applies resets before it spawns a pool of any size. -/
inductive Reachable {ρ : Type} (c : Config) (p : Programs ρ) : World ρ → Prop
  | genesis (k : Keeper) (hk : openKeeper (c.populated true fun _ => none) = some k) (resets : List Reset)
    (hresets : ∀ reset ∈ resets, NamesNoSysvar reset) (count : Nat) :
    Reachable c p (.spawn c (resets.foldl (·.applyReset c) k) count)
  | restart (w : World ρ) (h : Reachable c p w) (m : Accounts) (hm : m.persisted = w.accounts.persisted) (k : Keeper)
    (hk : openKeeper (c.populated false m) = some k) (resets : List Reset)
    (hresets : ∀ reset ∈ resets, NamesNoSysvar reset) (count : Nat) :
    Reachable c p (.spawn c (resets.foldl (·.applyReset c) k) count)
  | step (w w' : World ρ) (h : Reachable c p w) (hstep : Step c p w w') : Reachable c p w'

variable {ρ : Type} {c : Config} {p : Programs ρ} {w : World ρ}

theorem Seeded.of_persisted {m' : Accounts} (h : Seeded c m) (hm : m'.persisted = m.persisted) : Seeded c m' := by
  intro s
  obtain ⟨a, ha, hsysvar⟩ := h s
  have hkept : m'.persisted s.id = some a := by
    rw [hm, Accounts.persisted, ha, Option.filter_some, hsysvar.mode]
    rfl
  exact ⟨a, (Option.filter_eq_some_iff.mp hkept).1, hsysvar⟩

theorem Reachable.coherent (hc : c.Valid) (hp : p.LeavesSysvars) (h : Reachable c p w) :
    (∃ held, Assigned w held) ∧ w.Coherent c := by
  induction h with
  | genesis k hk resets hresets count =>
    exact ⟨⟨_, .spawn c _ count⟩, .spawn ((Keeper.Coherent.openKeeper hc.seeded hk).applyResets hresets) count⟩
  | restart w h m hm k hk resets hresets count ih =>
    have hseeded := ih.2.keeper.seeded.of_persisted hm
    have hopen := Keeper.Coherent.openKeeper (hseeded.congr hseeded.populated) hk
    exact ⟨⟨_, .spawn c _ count⟩, .spawn (hopen.applyResets hresets) count⟩
  | step w w' h hstep ih =>
    obtain ⟨⟨held, hassigned⟩, hcoherent⟩ := ih
    exact ⟨hassigned.step hstep, hcoherent.step hp hassigned hstep⟩

/-- Whenever an executor executes, the buffers it exposes are the data of the stored sysvars, `SlotHashes` only as of
the start of the process, and its slot, blockhash and rent are those of the latest block and reset. -/
theorem sysvars_coherent (hc : c.Valid) (hp : p.LeavesSysvars) (h : Reachable c p w) {i t : Nat} (hi : i < w.count)
    (hcurrent : (w.executors i).current = some t) :
    (∀ s : Sysvar, (s = .slotHashes → ∀ block, .block block ∉ w.log) →
      ∃ data, (w.executors i).svm.sysvars.sysvarIdToBuffer s.id = some data ∧ w.accounts.sysvarData s = some data) ∧
    (w.executors i).svm.sysvars.sysvarIdToBuffer slotHashesId = w.opened.accounts.sysvarData .slotHashes ∧
    (w.executors i).svm.slot = (lastBlock w.opened.latest w.log).slot + 1 ∧
    (w.executors i).svm.blockhash = (lastBlock w.opened.latest w.log).hash ∧
    (w.executors i).svm.rent = c.rentOf (lastRent w.opened.rent w.log) := by
  obtain ⟨⟨held, hassigned⟩, hcoherent⟩ := h.coherent hc hp
  obtain ⟨hheld, hinbox⟩ := (hassigned.holding i hi).of_current hcurrent
  have hrunning := hassigned.running_of_held hi hheld
  have he := hcoherent.executors i hi
  -- with nothing in the inbox the executor is where the sequencer is
  have hslot := he.slot
  have hblockhash := he.blockhash
  have hclock := he.clock
  rw [hinbox] at hslot hblockhash hclock
  obtain ⟨hrent, -⟩ := he.refreshed (by simp [hcurrent])
  have hlatest := hcoherent.latest (by simp [hrunning])
  simp only [SvmContext.caughtUp, World.expected, World.expectedClock, hrunning] at hslot hblockhash hclock
  refine ⟨fun s hs => ?_, he.slotHashes, ?_, ?_, ?_⟩
  · obtain ⟨data, hdata, -⟩ := hcoherent.keeper.seeded.sysvarData s
    refine ⟨data, ?_, hdata⟩
    rw [SysvarCache.sysvarIdToBuffer_id, ← hdata]
    cases s with
    | clock => exact hclock
    | rent => exact he.rent.trans (hrent ▸ hcoherent.keeper.rent.symm)
    | slotHashes => exact he.slotHashes.trans (hcoherent.slotHashes (hs rfl)).symm
    | epochSchedule | epochRewards | lastRestartSlot => exact he.fixed _ rfl
  · rw [hslot, hlatest]
  · rw [hblockhash, hlatest]
  · rw [hrent, hcoherent.rent]

/-! ### A process that finalized a block -/

theorem Seeded.openKeeper (h : Seeded c m) : ∃ k, openKeeper m = some k := by
  have hread (s : Sysvar) : ∃ data, m.sysvarData s = some data ∧ s.decodes data = true := by
    obtain ⟨data, hdata, hshape⟩ := h.sysvarData s
    exact ⟨data, hdata, hshape.decodes⟩
  obtain ⟨rent, hrent, hrentDecodes⟩ := hread .rent
  obtain ⟨schedule, hschedule, hscheduleDecodes⟩ := hread .epochSchedule
  obtain ⟨hashes, hhashes, hhashesDecode⟩ := hread .slotHashes
  obtain ⟨clock, hclock, hclockDecodes⟩ := hread .clock
  obtain ⟨rate, hrate⟩ := Option.isSome_iff_exists.mp hrentDecodes
  obtain ⟨entries, hentries⟩ := Option.isSome_iff_exists.mp hhashesDecode
  obtain ⟨time, htime⟩ := Option.isSome_iff_exists.mp hclockDecodes
  simp [Processor.openKeeper, hrent, hschedule, hhashes, hclock, hrate, hentries, htime, hscheduleDecodes,
    Option.filter]

end Codec

def plainConfig : Config where
  authority := default
  defaultRent := { lamportsPerByte := 6960, exemptionThreshold := 0x3ff0000000000000, burnPercent := 50 }
  rent := { lamportsPerByte := 6960, exemptionThreshold := 0x3ff0000000000000, burnPercent := 50 }
  superblock := 0
  epochs _ slot := (slot / 432000, slot / 432000 + 1)
  minimumBalance _ := 1
  defaultFeatures := []
  seeds := []

theorem plainConfig_valid : plainConfig.Valid where
  rent := rfl
  authority s := by cases s <;> decide
  defaultFeatures _ := List.not_mem_nil
  seeds _ _ h := by cases h

def idlePrograms : Programs Unit where
  exec _ _ m := m
  result _ _ _ := ()

theorem idlePrograms_leavesSysvars : idlePrograms.LeavesSysvars := fun _ _ _ _ => rfl

def firstBlock : Block Hash := { slot := 1, hash := ⟨7⟩, time := 1000, parent := default }

theorem exists_executing : ∃ w : World Unit, Reachable plainConfig idlePrograms w ∧ 0 < w.count ∧
    (w.executors 0).current = some 0 ∧ w.log = [.block firstBlock, .transaction (Epoch.writeRequest default)] ∧
    w.opened.accounts.sysvarData .slotHashes = some (plainConfig.genesisData .slotHashes) ∧
    w.accounts.sysvarData .slotHashes =
      some (encodeSlotHashes (addSlotHash (List.replicate slothashEntries (0, default)) 1 ⟨7⟩)) := by
  have hseeded := plainConfig_valid.seeded
  obtain ⟨k, hk⟩ := hseeded.openKeeper
  obtain ⟨-, -, -, -, -, -, haccounts, -, -⟩ := openKeeper_eq_some hk
  have hgenesis : k.accounts.sysvarData .slotHashes = some (plainConfig.genesisData .slotHashes) := by
    rw [haccounts, Accounts.sysvarData, plainConfig_valid.populated]
    rfl
  obtain ⟨hashes, m, hhashes, hm, -, -, -, hdata⟩ :=
    (haccounts ▸ hseeded : Seeded plainConfig k.accounts).updateSysvars k.epochSchedule firstBlock
  have hread : readSlotHashes (plainConfig.genesisData .slotHashes) =
      some (List.replicate slothashEntries (0, default)) := by
    rw [Config.genesisData, readSlotHashes_encodeSlotHashes _ List.length_replicate.le, List.map_replicate, Nat.zero_mod]
  rw [hgenesis, Option.bind_some, hread, Option.some.injEq] at hhashes
  let r := Epoch.writeRequest default
  have hready : (Epoch.start.register r).table.takeReady.1 = some { ticket := 0, request := r } := by decide +kernel
  let w₀ : World Unit := .spawn plainConfig k 1
  let w₄ := (((w₀.finalize firstBlock).send firstBlock 0).push firstBlock).store firstBlock m
  let w₇ := ((w₄.receiveBlock plainConfig 0 firstBlock []).register r).dispatch 0 0
  have h₀ : Reachable plainConfig idlePrograms w₀ := .genesis k hk [] (by simp) 1
  have h₄ : Reachable plainConfig idlePrograms w₄ :=
    .step _ _ (.step _ _ (.step _ _ (.step _ _ h₀ (.finalize _ firstBlock rfl rfl)) (.send _ firstBlock 0 rfl Nat.one_pos))
      (.push _ firstBlock rfl)) (.store _ firstBlock m rfl hm)
  have h₇ : Reachable plainConfig idlePrograms w₇ :=
    .step _ _ (.step _ _ (.step _ _ h₄ (.receiveBlock _ 0 firstBlock [] Nat.one_pos rfl rfl)) (.register _ r rfl))
      (.dispatch _ 0 { ticket := 0, request := r } rfl Nat.one_pos rfl hready)
  exact ⟨w₇.begin plainConfig 0 0 [], .step _ _ h₇ (.begin _ 0 0 [] Nat.one_pos rfl rfl), Nat.one_pos, rfl, rfl, hgenesis,
    hhashes ▸ hdata⟩

/-- After the block the clock is current and the buffer of `SlotHashes` is that of the fresh store. -/
theorem sysvars_coherent_afterBlock : ∃ w : World Unit, Reachable plainConfig idlePrograms w ∧
    (∃ data, (w.executors 0).svm.sysvars.sysvarIdToBuffer clockId = some data ∧
      w.accounts.sysvarData .clock = some data) ∧ (w.executors 0).svm.slot = 2 ∧
      (w.executors 0).svm.blockhash = ⟨7⟩ := by
  obtain ⟨w, hw, hcount, hcurrent, hlog, -, -⟩ := exists_executing
  have h := sysvars_coherent plainConfig_valid idlePrograms_leavesSysvars hw hcount hcurrent
  rw [hlog] at h
  exact ⟨w, hw, h.1 .clock nofun, h.2.2.1, h.2.2.2.1⟩

/-- A transaction after the first block sees other slot hashes than are stored. -/
theorem stale_slotHashes : ∃ w : World Unit, Reachable plainConfig idlePrograms w ∧
    (w.executors 0).current = some 0 ∧
    (w.executors 0).svm.sysvars.sysvarIdToBuffer slotHashesId ≠ w.accounts.sysvarData .slotHashes := by
  obtain ⟨w, hw, hcount, hcurrent, -, hopened, hstored⟩ := exists_executing
  refine ⟨w, hw, hcurrent, ?_⟩
  have hbuffer : (w.executors 0).svm.sysvars.sysvarIdToBuffer slotHashesId = some (plainConfig.genesisData .slotHashes) :=
    ((hw.coherent plainConfig_valid idlePrograms_leavesSysvars).2.executors 0 hcount).slotHashes.trans hopened
  rw [hbuffer, hstored]
  intro heq
  have hfresh : ∀ entry ∈ List.replicate slothashEntries ((0, default) : Nat × Hash), entry.1 < 1 := fun entry hentry => by
    rw [List.eq_of_mem_replicate hentry]
    decide
  -- read back, the lists differ in their first slot
  have hread := congrArg readSlotHashes (Option.some.inj heq)
  rw [Config.genesisData, addSlotHash_of_lt ⟨7⟩ hfresh, readSlotHashes_encodeSlotHashes _ List.length_replicate.le,
    readSlotHashes_encodeSlotHashes _ (List.length_take_le ..), Option.some.injEq] at hread
  rw [show slothashEntries = 511 + 1 from rfl, List.replicate_succ, List.take_succ_cons, List.map_cons, List.map_cons,
    List.cons.injEq] at hread
  exact absurd (congrArg Prod.fst hread.1) (by decide)

end Processor

end MagicEngine
