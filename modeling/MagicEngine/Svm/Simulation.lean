import MagicEngine.Svm.Engine
import MagicEngine.Svm.Invocation

/-!
# Simulation and the shared program cache

A simulation drops its account copies, so all it can leave behind is in the shared program cache: the programs it loaded
and, when its result passes the access check, the entries MagicRoot stored for finalized and deleted programs.

What executors see of the cache is the code of a program: the cached entry, or what loading the stored account gives
(`seen`). Two states in which they see the same give the same results, commits and programs for every later sequence of
transactions (`SameView`), and the programs a simulation loads are not seen. A simulation whose MagicRoot steps store
only code that is already seen is thus harmless (`simulation_nonInterfering`). Signatures are not checked before a
simulation, so anybody can name the authority as the payer and finalize a patched program; the executors then run the
simulated code (`simulated_finalize_runs`).
-/

namespace MagicEngine

namespace InvokeContext

/-! ### What stores a program cache entry -/

/-- The parts of the context that only MagicRoot changes: the account keys, which nobody does, and the programs. -/
def tables (ctx : InvokeContext) : List Pubkey × ProgramCacheForTxBatch := (ctx.keys, ctx.programCache)

section Tables

variable {ctx : InvokeContext}

theorem tables_push : ctx.push.1.tables = ctx.tables := by
  have hpush := push_pushes ctx
  generalize ctx.push = pushed at hpush
  cases hpush <;> rfl

theorem tables_leaveScope (kind : CallKind) (saved : Option Nat × Option NativeCaller) :
    (ctx.leaveScope kind saved).tables = ctx.tables := by cases kind <;> rfl

/-- The program cache entry a MagicRoot instruction stores: a verified program when it finalizes an executable account, a
tombstone when it deletes one. -/
def dispatchStore (env : SvmEnv) (ctx : InvokeContext) (target : Nat) :
    MagicRootInstruction → Option (Pubkey × ProgramCacheEntry)
  | .finalize flags =>
    match ctx.accounts[target]?, ctx.keys[target]? with
    | some a, some key => if flags.executable then (env.newEntry a.data).map (key, ·) else none
    | _, _ => none
  | .delete =>
    match ctx.accounts[target]?, ctx.keys[target]? with
    | some a, some key =>
      if (a.mode.validateTransition .closed a.core.slot a.core.slot).isOk && a.executable then some (key, .closed)
      else none
    | _, _ => none
  | _ => none

def storeEntry : Option (Pubkey × ProgramCacheEntry) → List Pubkey × ProgramCacheForTxBatch →
    List Pubkey × ProgramCacheForTxBatch
  | none, tables => tables
  | some (key, entry), (keys, cache) => (keys, cache.storeModifiedEntry key entry)

theorem tables_patch (target : Nat) (p : AccountFieldPatch) : (ctx.patch target p).1.tables = ctx.tables := by
  simp only [patch, settle]
  repeat' split
  all_goals rfl

theorem tables_finalize (env : SvmEnv) (target : Nat) (flags : StateFlags) :
    (ctx.finalize env target flags).1.tables =
      storeEntry (ctx.dispatchStore env target (.finalize flags)) ctx.tables := by
  unfold finalize dispatchStore
  cases ctx.accounts[target]? with
  | none => rfl
  | some a =>
    cases ctx.keys[target]? with
    | none => rfl
    | some key =>
      have hexec : (a.setFlags flags).executable = flags.executable := by
        unfold AccountSharedData.setFlags
        split
        · next h => rw [AccountSharedData.executable, h]
        · rfl
      have hdata : (a.setFlags flags).data = a.data := by
        unfold AccountSharedData.setFlags
        split <;> rfl
      simp only [hexec, hdata]
      cases flags.executable with
      | false => rfl
      | true => cases env.newEntry a.data <;> rfl

theorem tables_delete (env : SvmEnv) (target : Nat) :
    (ctx.delete target).1.tables = storeEntry (ctx.dispatchStore env target .delete) ctx.tables := by
  unfold delete dispatchStore AccountSharedData.setLifecycle
  cases ctx.accounts[target]? with
  | none => rfl
  | some a =>
    cases ctx.keys[target]? with
    | none => rfl
    | some key =>
      cases hval : a.mode.validateTransition .closed a.core.slot a.core.slot with
      | error e => simp [hval, Except.isOk, Except.toBool, storeEntry]
      | ok u =>
        simp only [hval, Except.isOk, Except.toBool, Bool.true_and]
        -- closing an account keeps its flags
        have hexec : ∀ markers, AccountSharedData.executable
            { account := { a.account with core := { a.core with mode := .closed, slot := a.core.slot } }
              markers } = a.executable := fun _ => rfl
        rw [hexec]
        cases a.executable <;> rfl

theorem tables_dispatch (env : SvmEnv) (target : Nat) (instruction : MagicRootInstruction) :
    (ctx.dispatch env target instruction).1.tables =
      storeEntry (ctx.dispatchStore env target instruction) ctx.tables := by
  cases instruction with
  | patch p => exact tables_patch target p
  | finalize flags => exact tables_finalize env target flags
  | delete => exact tables_delete env target
  | postFinalize source actions => rfl
  | nonce value => rfl
  | compareAndPatch expected p =>
    unfold dispatch
    cases ctx.accounts[target]? with
    | none => rfl
    | some a =>
      dsimp only
      split
      · rfl
      · exact tables_patch target p

/-- The stored entry is that of an account of the transaction. -/
theorem mem_keys_of_dispatchStore {env : SvmEnv} {target : Nat} {instruction : MagicRootInstruction} {key : Pubkey}
    {entry : ProgramCacheEntry} (h : ctx.dispatchStore env target instruction = some (key, entry)) : key ∈ ctx.keys := by
  unfold dispatchStore at h
  split at h
  · split at h
    · next hkey =>
      split at h
      · obtain ⟨_, _, ⟨⟩⟩ := Option.map_eq_some_iff.mp h
        exact List.mem_of_getElem? hkey
      · cases h
    · cases h
  · split at h
    · next hkey =>
      split at h
      · cases h
        exact List.mem_of_getElem? hkey
      · cases h
    · cases h
  · cases h

end Tables

end InvokeContext

namespace Processing

section Run

variable {env : SvmEnv} {tx : ResolvedTransaction} {s : Processing} {p : ProgramState} {callers : List ProgramState}

theorem tables_leave (s : Processing) (programs : List ProgramState) (ctx : InvokeContext)
    (result : Except InstructionError Unit) : (s.leave programs ctx result).ctx.tables = ctx.tables :=
  s.leave_keeps InvokeContext.tables (fun _ => rfl) (fun _ => InvokeContext.tables_leaveScope) programs ctx result

theorem tables_start (s : Processing) (ctx : InvokeContext) (kind : CallKind) (saved : Option Nat × Option NativeCaller) :
    (s.start ctx kind saved).1.ctx.tables = ctx.tables := by
  have hpush := @InvokeContext.tables_push ctx
  unfold start
  split
  · next h =>
    rw [h] at hpush
    exact (InvokeContext.tables_leaveScope _ _).trans hpush
  · next h =>
    rw [h] at hpush
    split
    · exact (InvokeContext.tables_leaveScope _ _).trans hpush
    · exact hpush

theorem tables_invoke (s : Processing) (kind : CallKind) (instruction : Instruction) :
    (s.invoke kind instruction).1.ctx.tables = s.ctx.tables := by
  unfold invoke
  split
  · rfl
  · refine (tables_start _ _ _ _).trans ?_
    cases kind <;> rfl

theorem tables_programStep (action : Action) : (s.programStep env p callers action).ctx.tables = s.ctx.tables := by
  cases action with
  | topLevel => rfl
  | account i action =>
    simp only [programStep, InvokeContext.accountAction]
    repeat' split
    all_goals rfl
  | mapRegion i => rfl
  | storeRegion i offset bytes =>
    simp only [programStep, InvokeContext.storeRegion]
    repeat' split
    all_goals rfl
  | invoke kind instruction => exact tables_invoke s kind instruction
  | exit result => exact tables_leave _ _ _ _
  | magicRoot => rfl

theorem tables_startTopLevel (instruction : CompiledInstruction) :
    (s.startTopLevel env tx instruction).1.ctx.tables = s.ctx.tables := by
  unfold startTopLevel
  split
  · rfl
  · next conf _ =>
    dsimp only
    split
    · rfl
    · split
      · have hpush := @InvokeContext.tables_push (s.ctx.configureNext conf)
        unfold precompile
        split
        all_goals
          next h =>
            rw [h] at hpush
            exact hpush
      · exact tables_start _ _ _ _

/-- The entry MagicRoot stores when it is dispatched. -/
def magicRootStore (env : SvmEnv) (s : Processing) (p : ProgramState) : Option (Pubkey × ProgramCacheEntry) :=
  match p.actions, s.ctx.magicRootInstruction env, s.ctx.magicRootTarget with
  | none, .ok instruction, some target => s.ctx.dispatchStore env target instruction
  | _, _, _ => none

theorem tables_magicRootStep :
    (s.magicRootStep env p callers).ctx.tables =
      InvokeContext.storeEntry (s.magicRootStore env p) s.ctx.tables := by
  unfold magicRootStep magicRootStore
  cases p.actions with
  | some pending =>
    obtain ⟨source, actions⟩ := pending
    cases actions with
    | nil => exact tables_leave _ _ _ _
    | cons action rest =>
      have hinvoke := tables_invoke { s with programs := { p with actions := some (source, rest) } :: callers }
        (.as source (InvokeContext.actionSigners action)) action
      dsimp only
      split
      · next h =>
        rw [h] at hinvoke
        exact hinvoke
      · next h =>
        rw [h] at hinvoke
        exact (tables_leave _ _ _ _).trans hinvoke
  | none =>
    cases s.ctx.magicRootInstruction env with
    | error e => exact tables_leave _ _ _ _
    | ok instruction =>
      cases s.ctx.magicRootTarget with
      | none => cases instruction <;> exact tables_leave _ _ _ _
      | some target =>
        cases instruction with
        | postFinalize source actions => rfl
        | _ => simp only [tables_leave, InvokeContext.tables_dispatch]

/-- The program cache entry a step stores. -/
def store (env : SvmEnv) (s : Processing) (action : Action) : Option (Pubkey × ProgramCacheEntry) :=
  match s.error, s.programs, action with
  | none, p :: _, .magicRoot => if p.isMagicRoot then s.magicRootStore env p else none
  | _, _, _ => none

theorem tables_step (s : Processing) (action : Action) :
    (s.step env tx action).ctx.tables = InvokeContext.storeEntry (s.store env action) s.ctx.tables := by
  unfold step store
  cases s.error with
  | some e => rfl
  | none =>
    cases s.programs with
    | nil =>
      dsimp only
      rw [if_neg (by simp)]
      split
      · exact tables_startTopLevel _
      · rfl
    | cons p callers =>
      dsimp only
      rw [if_neg (by simp)]
      by_cases hp : p.isMagicRoot
      · rw [if_pos hp]
        by_cases haction : action = .magicRoot
        · subst haction
          rw [if_pos rfl]
          simp only [hp, if_true]
          exact tables_magicRootStep
        · rw [if_neg haction]
          cases action <;> first | rfl | exact absurd rfl haction
      · rw [if_neg hp]
        rw [tables_programStep]
        cases action <;> simp [hp, InvokeContext.storeEntry]

theorem mem_keys_of_store {action : Action} {key : Pubkey} {entry : ProgramCacheEntry}
    (h : s.store env action = some (key, entry)) : key ∈ s.ctx.keys := by
  unfold store magicRootStore at h
  split at h
  · split at h
    · split at h
      · exact InvokeContext.mem_keys_of_dispatchStore h
      · cases h
    · cases h
  · cases h

theorem keys_step (s : Processing) (action : Action) : (s.step env tx action).ctx.keys = s.ctx.keys := by
  have h := congrArg Prod.fst (@tables_step env tx s action)
  cases hstore : s.store env action <;> rw [hstore] at h <;> exact h

/-- The last entry stored for each program along a run. -/
def lastStore (env : SvmEnv) (tx : ResolvedTransaction) : Processing → List Action → Pubkey → Option ProgramCacheEntry
  | _, [], _ => none
  | s, action :: rest, key =>
    (lastStore env tx (s.step env tx action) rest key).or
      ((s.store env action).bind fun stored => if stored.1 = key then some stored.2 else none)

theorem modifiedEntries_run (s : Processing) (actions : List Action) (key : Pubkey) :
    (s.run env tx actions).ctx.programCache.modifiedEntries key =
      (lastStore env tx s actions key).or (s.ctx.programCache.modifiedEntries key) := by
  induction actions generalizing s with
  | nil => rfl
  | cons action rest ih =>
    refine (ih (s.step env tx action)).trans ?_
    have hstep := congrArg Prod.snd (@tables_step env tx s action)
    rw [show (s.step env tx action).ctx.programCache = _ from hstep, lastStore, Option.or_assoc]
    congr 1
    cases s.store env action with
    | none => rfl
    | some stored =>
      obtain ⟨key', entry⟩ := stored
      by_cases h : key' = key
      · subst h
        simp [InvokeContext.storeEntry, ProgramCacheForTxBatch.storeModifiedEntry]
      · simp [InvokeContext.storeEntry, InvokeContext.tables, ProgramCacheForTxBatch.storeModifiedEntry, h, Ne.symm h]

theorem lastStore_cons {action : Action} {rest : List Action} {key : Pubkey} {entry : ProgramCacheEntry}
    (h : lastStore env tx s (action :: rest) key = some entry) :
    lastStore env tx (s.step env tx action) rest key = some entry ∨ s.store env action = some (key, entry) := by
  rcases Option.or_eq_some_iff.mp h with hrest | ⟨-, hhere⟩
  · exact .inl hrest
  · obtain ⟨⟨key', entry'⟩, hstore, hsome⟩ := Option.bind_eq_some_iff.mp hhere
    by_cases hk : key' = key
    · subst hk
      rw [if_pos rfl] at hsome
      cases hsome
      exact .inr hstore
    · rw [if_neg hk] at hsome
      cases hsome

/-- Entries are stored for accounts of the transaction. -/
theorem mem_keys_of_lastStore {actions : List Action} {key : Pubkey} {entry : ProgramCacheEntry}
    (h : lastStore env tx s actions key = some entry) : key ∈ s.ctx.keys := by
  induction actions generalizing s with
  | nil => cases h
  | cons action rest ih =>
    rcases lastStore_cons h with hrest | hstore
    · have hkey := ih hrest
      rwa [keys_step] at hkey
    · exact mem_keys_of_store hstore

/-- The last stored entry was stored by a step. -/
theorem Along.lastStore {P : Processing → Action → Prop} {actions : List Action} {key : Pubkey}
    {entry : ProgramCacheEntry} (h : Along env tx P s actions)
    (hlast : Processing.lastStore env tx s actions key = some entry) :
    ∃ s' action, P s' action ∧ s'.store env action = some (key, entry) := by
  induction actions generalizing s with
  | nil => cases hlast
  | cons action rest ih =>
    rcases lastStore_cons hlast with hrest | hstore
    · exact ih h.2 hrest
    · exact ⟨s, action, h.1, hstore⟩

end Run

end Processing

namespace Runtime

variable {rt : Runtime} {e e' : EngineState} {tx : ResolvedTransaction}

/-! ### What executors see of the program cache -/

/-- The entry that loading a program from the store gives. The Instructions sysvar is not loaded from the store. -/
def loadable (rt : Runtime) (accounts : Pubkey → Option OwnedAccount) (key : Pubkey) : Option ProgramCacheEntry :=
  if key = instructionsSysvarId then none
  else (accounts key).bind fun a => if isProgram a then some (rt.loadProgram a) else none

/-- The code executors see for a program: the cached entry, or else the one that loading it gives. -/
def seen (rt : Runtime) (e : EngineState) (key : Pubkey) : Option ProgramCacheEntry :=
  (e.programCache.get key).or (rt.loadable e.accounts key)

/-- Two states that no executor tells apart. -/
structure SameView (rt : Runtime) (e e' : EngineState) : Prop where
  accounts : e.accounts = e'.accounts
  seen : ∀ key, rt.seen e key = rt.seen e' key

/-- The programs among loaded accounts, as loading gives them. -/
def listed (rt : Runtime) (l : List (Pubkey × OwnedAccount)) (key : Pubkey) : Option ProgramCacheEntry :=
  (l.find? fun p => p.1 == key && isProgram p.2).map fun p => rt.loadProgram p.2

theorem listed_cons (key' key : Pubkey) (a : OwnedAccount) (rest : List (Pubkey × OwnedAccount)) :
    rt.listed ((key', a) :: rest) key =
      if key' = key ∧ isProgram a then some (rt.loadProgram a) else rt.listed rest key := by
  unfold listed
  rw [List.find?_cons]
  by_cases hk : key' = key
  · by_cases ha : isProgram a <;> simp [hk, ha]
  · simp [hk, beq_false_of_ne hk]

/-- Replenishing adds the listed programs that were missing, and gives the batch the listed programs. -/
theorem replenishProgramCache_get (l : List (Pubkey × OwnedAccount)) (cache : ProgramCache)
    (batch : ProgramCacheForTxBatch) (key : Pubkey) :
    (rt.replenishProgramCache l cache batch).1.get key = (cache.get key).or (rt.listed l key) ∧
    (rt.replenishProgramCache l cache batch).2.entries key =
      ((rt.listed l key).map fun entry => (cache.get key).getD entry).or (batch.entries key) := by
  induction l generalizing cache batch with
  | nil => simp [replenishProgramCache, listed]
  | cons p rest ih =>
    obtain ⟨key', a⟩ := p
    rw [listed_cons]
    unfold replenishProgramCache
    by_cases hp : isProgram a
    · rw [if_pos hp]
      by_cases hk : key' = key
      · subst hk
        rw [if_pos ⟨rfl, hp⟩]
        cases hget : cache.get key' with
        | some entry =>
          obtain ⟨hcache, hbatch⟩ := ih cache (batch.replenish key' entry)
          refine ⟨by rw [hcache, hget]; rfl, ?_⟩
          rw [hbatch, hget]
          cases rt.listed rest key' <;> simp [ProgramCacheForTxBatch.replenish]
        | none =>
          have hassigned : (cache.assignProgram key' (rt.loadProgram a)).get key' = some (rt.loadProgram a) := by
            simp [ProgramCache.get, ProgramCache.assignProgram]
          obtain ⟨hcache, hbatch⟩ := ih (cache.assignProgram key' (rt.loadProgram a))
            (batch.replenish key' (rt.loadProgram a))
          refine ⟨by rw [hcache, hassigned]; rfl, ?_⟩
          rw [hbatch, hassigned]
          cases rt.listed rest key' <;> simp [ProgramCacheForTxBatch.replenish]
      · rw [if_neg (fun h => hk h.1)]
        have hassigned : (cache.assignProgram key' (rt.loadProgram a)).get key = cache.get key := by
          simp [ProgramCache.get, ProgramCache.assignProgram, Ne.symm hk]
        have hentries : ∀ entry, (batch.replenish key' entry).entries key = batch.entries key := by
          intro entry
          simp [ProgramCacheForTxBatch.replenish, Ne.symm hk]
        cases cache.get key' with
        | some entry =>
          obtain ⟨hcache, hbatch⟩ := ih cache (batch.replenish key' entry)
          exact ⟨hcache, by rw [hbatch, hentries]⟩
        | none =>
          obtain ⟨hcache, hbatch⟩ := ih (cache.assignProgram key' (rt.loadProgram a))
            (batch.replenish key' (rt.loadProgram a))
          exact ⟨by rw [hcache, hassigned], by rw [hbatch, hassigned, hentries]⟩
    · rw [if_neg hp, if_neg (fun h => hp h.2)]
      exact ih cache batch

theorem modifiedEntries_replenishProgramCache (l : List (Pubkey × OwnedAccount)) (cache : ProgramCache)
    (batch : ProgramCacheForTxBatch) :
    (rt.replenishProgramCache l cache batch).2.modifiedEntries = batch.modifiedEntries := by
  induction l generalizing cache batch with
  | nil => rfl
  | cons p rest ih =>
    unfold replenishProgramCache
    repeat' split
    all_goals exact ih _ _

/-- An account is a listed program if it is one in the store. -/
theorem listed_zip {keys : List Pubkey} {accounts : List OwnedAccount}
    (h : keys.mapM (rt.loadTransactionAccount e tx) = .ok accounts) (key : Pubkey) :
    rt.listed (keys.zip accounts) key = if key ∈ keys then rt.loadable e.accounts key else none := by
  induction keys generalizing accounts with
  | nil => simp [listed]
  | cons key' keys ih =>
    rw [List.mapM_cons] at h
    cases ha : rt.loadTransactionAccount e tx key' with
    | error err =>
      rw [ha] at h
      cases h
    | ok a =>
      cases hrest : keys.mapM (rt.loadTransactionAccount e tx) with
      | error err =>
        rw [ha, hrest] at h
        cases h
      | ok rest =>
        rw [ha, hrest] at h
        cases h
        have hloadable : rt.loadable e.accounts key' = if isProgram a then some (rt.loadProgram a) else none := by
          unfold loadTransactionAccount at ha
          unfold loadable
          split at ha
          · next hsysvar =>
            rw [if_pos hsysvar]
            split at ha
            · cases ha
            · cases ha
              simp [isProgram, StateFlags.executable]
          · next hsysvar =>
            rw [if_neg hsysvar]
            cases ha
            cases e.accounts key' <;> rfl
        rw [List.zip_cons_cons, listed_cons, ih hrest]
        by_cases hk : key' = key
        · subst hk
          simp only [true_and, List.mem_cons, true_or, if_true]
          rw [hloadable]
          by_cases hp : isProgram a
          · rw [if_pos hp, if_pos hp]
          · simp [hp]
        · simp [hk, Ne.symm hk]

theorem loadTransaction_mapM {details : TransactionDetails} {accounts : List OwnedAccount}
    (h : rt.loadTransaction e tx details = .ok accounts) :
    tx.staticAccountKeys.mapM (rt.loadTransactionAccount e tx) = .ok accounts := by
  unfold loadTransaction at h
  cases hm : tx.staticAccountKeys.mapM (rt.loadTransactionAccount e tx) with
  | error err =>
    rw [hm] at h
    cases h
  | ok loaded =>
    rw [hm] at h
    simp only [bind, Except.bind] at h
    split at h
    · cases h
    · split at h
      · cases h
      · exact h

/-! ### One transaction -/

def replenished (rt : Runtime) (cache : ProgramCache) (tx : ResolvedTransaction) (accounts : List OwnedAccount) :
    ProgramCacheForTxBatch :=
  (rt.replenishProgramCache (tx.staticAccountKeys.zip accounts) cache ⟨fun _ => none, fun _ => none⟩).2

/-- The state in which a loaded transaction starts. -/
def startOf (rt : Runtime) (cache : ProgramCache) (tx : ResolvedTransaction) (details : TransactionDetails)
    (accounts : List OwnedAccount) : Processing :=
  startProcessing tx details accounts (rt.replenished cache tx accounts)

/-- The actions of its programs. -/
def actionsOf (rt : Runtime) (cache : ProgramCache) (tx : ResolvedTransaction) (accounts : List OwnedAccount) :
    List Action :=
  rt.schedule tx accounts (rt.replenished cache tx accounts)

theorem modifiedEntries_startOf (cache : ProgramCache) (details : TransactionDetails) (accounts : List OwnedAccount)
    (key : Pubkey) : (rt.startOf cache tx details accounts).ctx.programCache.modifiedEntries key = none := by
  show (rt.replenished cache tx accounts).modifiedEntries key = none
  rw [replenished, modifiedEntries_replenishProgramCache]

/-- The entry an executed transaction hands over for a program: the last one MagicRoot stored, provided the result passes
the access check. -/
def handedOver (rt : Runtime) (cache : ProgramCache) (tx : ResolvedTransaction) (details : TransactionDetails)
    (accounts : List OwnedAccount) (key : Pubkey) : Option ProgramCacheEntry :=
  if (rt.executeLoaded cache tx details accounts).2.accessIsValid then
    (rt.startOf cache tx details accounts).lastStore rt.toSvmEnv tx (rt.actionsOf cache tx accounts) key
  else none

theorem executeLoaded_fst (cache : ProgramCache) (details : TransactionDetails) (accounts : List OwnedAccount) :
    (rt.executeLoaded cache tx details accounts).1 =
      let loaded := (rt.replenishProgramCache (tx.staticAccountKeys.zip accounts) cache
        ⟨fun _ => none, fun _ => none⟩).1
      if (rt.executeLoaded cache tx details accounts).2.accessIsValid then
        loaded.merge ((rt.startOf cache tx details accounts).run rt.toSvmEnv tx
          (rt.actionsOf cache tx accounts)).ctx.programCache.modifiedEntries
      else loaded := rfl

/-- One program in the cache after a transaction. -/
theorem get_executeLoaded (cache : ProgramCache) (details : TransactionDetails) (accounts : List OwnedAccount)
    (key : Pubkey) :
    (rt.executeLoaded cache tx details accounts).1.get key =
      match rt.handedOver cache tx details accounts key with
      | some entry => entry.merged
      | none => (cache.get key).or (rt.listed (tx.staticAccountKeys.zip accounts) key) := by
  obtain ⟨hloaded, -⟩ := @replenishProgramCache_get rt (tx.staticAccountKeys.zip accounts) cache
    ⟨fun _ => none, fun _ => none⟩ key
  rw [executeLoaded_fst, handedOver]
  by_cases hpass : (rt.executeLoaded cache tx details accounts).2.accessIsValid
  · simp only [if_pos hpass, ProgramCache.get, ProgramCache.merge, Processing.modifiedEntries_run,
      modifiedEntries_startOf, Option.or_none]
    split
    · next h =>
      rw [h]
      exact hloaded
    · next entry h => rw [h]
  · simp only [if_neg hpass]
    exact hloaded

/-- What an executed transaction reports depends on the programs of its batch only. -/
theorem executeLoaded_snd {cache cache' : ProgramCache} {accounts : List OwnedAccount}
    (h : rt.replenished cache tx accounts = rt.replenished cache' tx accounts) (details : TransactionDetails) :
    (rt.executeLoaded cache tx details accounts).2 = (rt.executeLoaded cache' tx details accounts).2 ∧
      rt.handedOver cache tx details accounts = rt.handedOver cache' tx details accounts := by
  have hexecuted : (rt.executeLoaded cache tx details accounts).2 =
      (rt.executeLoaded cache' tx details accounts).2 := by
    unfold replenished at h
    unfold executeLoaded
    dsimp only
    rw [h]
  refine ⟨hexecuted, funext fun key => ?_⟩
  unfold handedOver startOf actionsOf
  rw [hexecuted, h]

/-- The programs of a batch are the stored programs among the accounts, as executors see them. -/
theorem entries_replenished {accounts : List OwnedAccount}
    (h : tx.staticAccountKeys.mapM (rt.loadTransactionAccount e tx) = .ok accounts) (key : Pubkey) :
    (rt.replenished e.programCache tx accounts).entries key =
      if key ∈ tx.staticAccountKeys ∧ rt.loadable e.accounts key ≠ none then rt.seen e key else none := by
  obtain ⟨-, hbatch⟩ := @replenishProgramCache_get rt (tx.staticAccountKeys.zip accounts) e.programCache
    ⟨fun _ => none, fun _ => none⟩ key
  rw [listed_zip h, Option.or_none] at hbatch
  refine hbatch.trans ?_
  by_cases hkey : key ∈ tx.staticAccountKeys
  · rw [if_pos hkey]
    unfold seen
    cases rt.loadable e.accounts key with
    | none => simp
    | some entry =>
      rw [if_pos ⟨hkey, nofun⟩]
      cases e.programCache.get key <;> rfl
  · rw [if_neg hkey, if_neg fun h => hkey h.1]
    rfl

theorem SameView.replenished (h : rt.SameView e e') {accounts : List OwnedAccount}
    (hload : tx.staticAccountKeys.mapM (rt.loadTransactionAccount e tx) = .ok accounts)
    (hload' : tx.staticAccountKeys.mapM (rt.loadTransactionAccount e' tx) = .ok accounts) :
    rt.replenished e.programCache tx accounts = rt.replenished e'.programCache tx accounts := by
  have hentries : (rt.replenished e.programCache tx accounts).entries =
      (rt.replenished e'.programCache tx accounts).entries := by
    funext key
    rw [entries_replenished hload, entries_replenished hload', h.accounts, h.seen]
  have hmodified : ∀ cache, (rt.replenished cache tx accounts).modifiedEntries = fun _ => none :=
    fun _ => modifiedEntries_replenishProgramCache _ _ _
  calc rt.replenished e.programCache tx accounts
      = ⟨(rt.replenished e.programCache tx accounts).entries, fun _ => none⟩ := by rw [← hmodified e.programCache]
    _ = rt.replenished e'.programCache tx accounts := by rw [hentries, ← hmodified e'.programCache]

/-! ### Later transactions -/

/-- A commit changes accounts of the transaction only. -/
theorem commitAccounts_of_notMem {key : Pubkey} (hkey : key ∉ tx.staticAccountKeys)
    (changed : List (Nat × AccountSharedData)) (db : Pubkey → Option OwnedAccount) :
    commitAccounts tx db changed key = db key := by
  induction changed generalizing db with
  | nil => rfl
  | cons change rest ih =>
    obtain ⟨i, a⟩ := change
    unfold commitAccounts
    cases hi : tx.staticAccountKeys[i]? with
    | none => exact ih db
    | some key' =>
      have hne : key ≠ key' := by
        rintro rfl
        exact hkey (List.mem_of_getElem? hi)
      dsimp only
      rw [ih, Function.update_of_ne hne]

theorem loadTransaction_congr (h : e.accounts = e'.accounts) (details : TransactionDetails) :
    rt.loadTransaction e tx details = rt.loadTransaction e' tx details := by
  have haccount : rt.loadTransactionAccount e tx = rt.loadTransactionAccount e' tx := by
    funext key
    unfold loadTransactionAccount
    rw [h]
  have hprograms : ∀ instructions, checkPrograms e tx instructions = checkPrograms e' tx instructions := by
    intro instructions
    induction instructions with
    | nil => rfl
    | cons instruction rest ih =>
      unfold checkPrograms
      rw [h, ih]
  unfold loadTransaction
  rw [haccount, hprograms]

/-- A program that a transaction does not hand over is seen as before, provided its account is stored as before or
the transaction lists it. -/
theorem seen_executed {accounts : List OwnedAccount} {details : TransactionDetails} {key : Pubkey}
    (hload : tx.staticAccountKeys.mapM (rt.loadTransactionAccount e tx) = .ok accounts)
    (hnone : rt.handedOver e.programCache tx details accounts key = none)
    (store : Pubkey → Option OwnedAccount) (hstore : key ∉ tx.staticAccountKeys → store key = e.accounts key) :
    rt.seen ⟨store, (rt.executeLoaded e.programCache tx details accounts).1⟩ key =
      if key ∈ tx.staticAccountKeys then (rt.seen e key).or (rt.loadable store key) else rt.seen e key := by
  have hcache := @get_executeLoaded rt tx e.programCache details accounts key
  rw [hnone, listed_zip hload] at hcache
  show ((rt.executeLoaded e.programCache tx details accounts).1.get key).or (rt.loadable store key) = _
  rw [hcache]
  by_cases hkey : key ∈ tx.staticAccountKeys
  · rw [if_pos hkey, if_pos hkey]
    rfl
  · rw [if_neg hkey, if_neg hkey]
    have hloadable : rt.loadable store key = rt.loadable e.accounts key := by
      unfold loadable
      rw [hstore hkey]
    rw [hloadable]
    simp [seen]

theorem SameView.execute (h : rt.SameView e e') (tx : ResolvedTransaction) :
    (rt.execute e tx).2 = (rt.execute e' tx).2 ∧ rt.SameView (rt.execute e tx).1 (rt.execute e' tx).1 := by
  unfold Runtime.execute process
  cases rt.parseDetails tx with
  | error err => exact ⟨rfl, h⟩
  | ok details =>
    dsimp only
    rw [← loadTransaction_congr h.accounts]
    cases hload : rt.loadTransaction e tx details with
    | error err => exact ⟨rfl, h⟩
    | ok accounts =>
      have hmap := loadTransaction_mapM hload
      have hmap' := loadTransaction_mapM ((loadTransaction_congr h.accounts details).symm.trans hload)
      obtain ⟨hexecuted, hhanded⟩ := executeLoaded_snd (h.replenished hmap hmap') details
      dsimp only
      refine ⟨congrArg Except.ok hexecuted, by rw [hexecuted, h.accounts], fun key => ?_⟩
      rw [← hexecuted, ← h.accounts]
      -- the commit leaves the accounts alone that the transaction does not list
      have hother : key ∉ tx.staticAccountKeys →
          (if (rt.executeLoaded e.programCache tx details accounts).2.accessIsValid then commitAccounts tx e.accounts
            (tx.committed (rt.executeLoaded e.programCache tx details accounts).2.processing.ctx.accounts)
          else e.accounts) key = e.accounts key := by
        intro hkey
        split
        · exact commitAccounts_of_notMem hkey _ _
        · rfl
      cases hentry : rt.handedOver e.programCache tx details accounts key with
      | some entry =>
        have hcache := @get_executeLoaded rt tx e.programCache details accounts key
        have hcache' := @get_executeLoaded rt tx e'.programCache details accounts key
        rw [hentry] at hcache
        rw [← hhanded, hentry] at hcache'
        show Option.or _ _ = Option.or _ _
        rw [hcache, hcache']
      | none =>
        rw [seen_executed hmap hentry _ hother,
          seen_executed hmap' (by rwa [← hhanded]) _ (by rwa [← h.accounts]), h.seen]

theorem SameView.executeAll (h : rt.SameView e e') (later : List ResolvedTransaction) :
    (rt.executeAll e later).2 = (rt.executeAll e' later).2 ∧
      rt.SameView (rt.executeAll e later).1 (rt.executeAll e' later).1 := by
  induction later generalizing e e' with
  | nil => exact ⟨rfl, h⟩
  | cons tx rest ih =>
    obtain ⟨hresult, hview⟩ := h.execute tx
    obtain ⟨hresults, hfinal⟩ := ih hview
    exact ⟨congrArg₂ List.cons hresult hresults, hfinal⟩

/-! ### The simulation -/

/-- No later sequence of executed transactions can tell whether the simulation took place: not by its results, which
include the code it ran, and not by the accounts it commits. -/
def NonInterfering (rt : Runtime) (e : EngineState) (tx : ResolvedTransaction) : Prop :=
  ∀ later, (rt.executeAll (rt.simulate e tx) later).2 = (rt.executeAll e later).2 ∧
    (rt.executeAll (rt.simulate e tx) later).1.accounts = (rt.executeAll e later).1.accounts

/-- An entry whose merge leaves executors with the code they already see. -/
def Harmless (rt : Runtime) (e : EngineState) (stored : Pubkey × ProgramCacheEntry) : Prop :=
  stored.2.merged.or (rt.loadable e.accounts stored.1) = rt.seen e stored.1

/-- Each step of the simulated transaction that stores a program entry (a Finalize or Delete of an executable account)
stores a harmless one. -/
def StepsHarmless (rt : Runtime) (e : EngineState) (tx : ResolvedTransaction) : Prop :=
  ∀ details accounts, rt.parseDetails tx = .ok details → rt.loadTransaction e tx details = .ok accounts →
    Processing.Along rt.toSvmEnv tx (fun s action => ∀ stored ∈ s.store rt.toSvmEnv action, rt.Harmless e stored)
      (rt.startOf e.programCache tx details accounts) (rt.actionsOf e.programCache tx accounts)

theorem simulate_of_loaded {details : TransactionDetails} {accounts : List OwnedAccount}
    (hparse : rt.parseDetails tx = .ok details) (hload : rt.loadTransaction e tx details = .ok accounts) :
    rt.simulate e tx = ⟨e.accounts, (rt.executeLoaded e.programCache tx details accounts).1⟩ := by
  simp only [simulate, process, hparse, hload]

/-- What executors see of a program after a simulation. -/
theorem seen_simulate {details : TransactionDetails} {accounts : List OwnedAccount}
    (hparse : rt.parseDetails tx = .ok details) (hload : rt.loadTransaction e tx details = .ok accounts) (key : Pubkey) :
    rt.seen (rt.simulate e tx) key =
      match rt.handedOver e.programCache tx details accounts key with
      | some entry => entry.merged.or (rt.loadable e.accounts key)
      | none => rt.seen e key := by
  rw [simulate_of_loaded hparse hload]
  cases hentry : rt.handedOver e.programCache tx details accounts key with
  | some entry =>
    have hcache := @get_executeLoaded rt tx e.programCache details accounts key
    rw [hentry] at hcache
    show Option.or _ _ = Option.or _ _
    rw [hcache]
  | none =>
    rw [seen_executed (loadTransaction_mapM hload) hentry e.accounts fun _ => rfl]
    simp [seen, Option.or_assoc]

theorem StepsHarmless.sameView (h : rt.StepsHarmless e tx) : rt.SameView (rt.simulate e tx) e := by
  refine ⟨rfl, fun key => ?_⟩
  cases hparse : rt.parseDetails tx with
  | error err => simp only [simulate, process, hparse]
  | ok details =>
    cases hload : rt.loadTransaction e tx details with
    | error err => simp only [simulate, process, hparse, hload]
    | ok accounts =>
      rw [seen_simulate hparse hload]
      split
      · next entry hentry =>
        unfold handedOver at hentry
        split at hentry
        · obtain ⟨s, action, hstep, hstore⟩ := (h details accounts hparse hload).lastStore hentry
          exact hstep (key, entry) hstore
        · cases hentry
      · rfl

/-- A simulation whose steps store only harmless entries interferes with no later execution. Conversely, when the result
passes the access check and the last entry stored for a program of the store is not harmless, executing the transaction
itself shows it. -/
theorem simulation_nonInterfering (rt : Runtime) (e : EngineState) (tx : ResolvedTransaction) :
    (rt.StepsHarmless e tx → rt.NonInterfering e tx) ∧
    ∀ details accounts key entry, rt.parseDetails tx = .ok details → rt.loadTransaction e tx details = .ok accounts →
      (rt.executeLoaded e.programCache tx details accounts).2.accessIsValid →
      (rt.startOf e.programCache tx details accounts).lastStore rt.toSvmEnv tx
        (rt.actionsOf e.programCache tx accounts) key = some entry →
      rt.loadable e.accounts key ≠ none → ¬rt.Harmless e (key, entry) → ¬rt.NonInterfering e tx := by
  constructor
  · intro h later
    obtain ⟨hresults, hview⟩ := h.sameView.executeAll later
    exact ⟨hresults, hview.accounts⟩
  · intro details accounts key entry hparse hload hpass hlast hprogram hharm hnon
    have hmap := loadTransaction_mapM hload
    have hkey : key ∈ tx.staticAccountKeys := Processing.mem_keys_of_lastStore hlast
    -- the transaction itself, executed later, runs with what the simulation handed over
    have hresult : ∀ e : EngineState, rt.loadTransaction e tx details = .ok accounts →
        (rt.executeAll e [tx]).2 = [.ok (rt.executeLoaded e.programCache tx details accounts).2] := by
      intro e hload
      simp only [executeAll, execute, process, hparse, hload]
    have hload' : rt.loadTransaction (rt.simulate e tx) tx details = .ok accounts := by
      rwa [loadTransaction_congr (show (rt.simulate e tx).accounts = e.accounts from rfl)]
    have hsame := (hnon [tx]).1
    rw [hresult _ hload', hresult _ hload] at hsame
    have hprograms : rt.replenished (rt.simulate e tx).programCache tx accounts =
        rt.replenished e.programCache tx accounts :=
      congrArg ExecutedTransaction.programs (Except.ok.inj (List.cons.inj hsame).1)
    have hentries := congrArg (fun batch => batch.entries key) hprograms
    rw [entries_replenished (loadTransaction_mapM hload'), entries_replenished hmap, if_pos ⟨hkey, hprogram⟩,
      if_pos ⟨hkey, hprogram⟩, seen_simulate hparse hload, handedOver, if_pos hpass, hlast] at hentries
    exact hharm hentries

/-! ### An unsigned simulation that replaces a program -/

/-- The program `⟨5⟩` copies its own code into its account; MagicRoot instructions patch and finalize it. -/
def replacingRuntime : Runtime where
  authority := ⟨1⟩
  environment := 0
  verify _ _ := true
  decode data := if data = [0] then some (.patch (.dataAt 0 [2])) else some (.finalize ⟨1⟩)
  isExempt _ _ := true
  rentStateVerified _ _ := true
  isPrecompile _ := false
  processPrecompile _ _ _ := false
  parseDetails _ := .ok ⟨5, 64, 1000000⟩
  constructInstructionsData _ := none
  schedule tx _ batch :=
    if tx.instructions.length = 2 then [.topLevel, .magicRoot, .topLevel, .magicRoot]
    else
      match batch.find ⟨5⟩ with
      | some (.loaded _ elf) => [.topLevel, .account 0 (.setDataFromSlice elf), .exit (.ok ())]
      | _ => []

def replacingState : EngineState where
  accounts key :=
    if key = ⟨1⟩ then some { core := { lamports := 10, mode := .delegated } }
    else if key = ⟨5⟩ then some { core := { owner := bpfLoaderId, mode := .delegated, flags := ⟨1⟩ }, data := [1] }
    else if key = ⟨6⟩ then some { core := { owner := ⟨5⟩, mode := .delegated } }
    else if key = magicRootId then some { core := { owner := nativeLoaderId, mode := .runtime, flags := ⟨1⟩ } }
    else none
  programCache :=
    { index := fun key =>
        if key = magicRootId then some .builtin else if key = ⟨5⟩ then some (.loaded 0 [1]) else none }

/-- Names the authority as the payer without its signature, patches program `⟨5⟩` and finalizes it. -/
def replacingTransaction : ResolvedTransaction where
  signatures := [⟨0⟩]
  numRequiredSignatures := 1
  staticAccountKeys := [⟨1⟩, ⟨5⟩, magicRootId]
  instructions := [{ programIdIndex := 2, accounts := [1], data := [0] },
    { programIdIndex := 2, accounts := [1], data := [1] }]
  writableCache := 3
  keys_nodup := by decide

def laterTransaction : ResolvedTransaction where
  signatures := [⟨7⟩]
  numRequiredSignatures := 1
  staticAccountKeys := [⟨9⟩, ⟨6⟩, ⟨5⟩]
  instructions := [{ programIdIndex := 2, accounts := [1], data := [] }]
  writableCache := 3
  keys_nodup := by decide

/-- The executor runs the simulated code and commits what it wrote. -/
theorem simulated_finalize_runs :
    ((replacingRuntime.executeAll replacingState [laterTransaction]).1.accounts ⟨6⟩).map (·.data) = some [1] ∧
    ((replacingRuntime.executeAll (replacingRuntime.simulate replacingState replacingTransaction)
      [laterTransaction]).1.accounts ⟨6⟩).map (·.data) = some [2] ∧
    ¬replacingRuntime.NonInterfering replacingState replacingTransaction := by
  have hwithout : ((replacingRuntime.executeAll replacingState [laterTransaction]).1.accounts ⟨6⟩).map (·.data)
      = some [1] := by decide
  have hwith : ((replacingRuntime.executeAll (replacingRuntime.simulate replacingState replacingTransaction)
      [laterTransaction]).1.accounts ⟨6⟩).map (·.data) = some [2] := by decide
  refine ⟨hwithout, hwith, fun h => ?_⟩
  rw [(h [laterTransaction]).2, hwithout] at hwith
  exact absurd hwith (by decide)

/-- Finalizes the program twice as it is. -/
def refinalizingTransaction : ResolvedTransaction :=
  { replacingTransaction with
    instructions := [{ programIdIndex := 2, accounts := [1], data := [1] },
      { programIdIndex := 2, accounts := [1], data := [1] }] }

/-- The program is stored but not cached: the simulation loads it, and stores it again unchanged. -/
def uncachedState : EngineState :=
  { replacingState with programCache := { index := fun key => if key = magicRootId then some .builtin else none } }

theorem refinalized_nonInterfering :
    (replacingRuntime.simulate uncachedState refinalizingTransaction).programCache.get ⟨5⟩ = some (.loaded 0 [1]) ∧
      replacingRuntime.NonInterfering uncachedState refinalizingTransaction := by
  refine ⟨by decide, (simulation_nonInterfering _ _ _).1 ?_⟩
  rintro details accounts ⟨⟩ hload
  obtain rfl : [{ core := { lamports := 10, mode := .delegated } },
    { core := { owner := bpfLoaderId, mode := .delegated, flags := ⟨1⟩ }, data := [1] },
    { core := { owner := nativeLoaderId, mode := .runtime, flags := ⟨1⟩ } }] = accounts := Except.ok.inj hload
  have hfirst : ∀ stored, stored = (⟨5⟩, ProgramCacheEntry.loaded 0 [1]) →
      replacingRuntime.Harmless uncachedState stored := by
    rintro _ rfl
    rfl
  refine ⟨nofun, fun stored h => hfirst stored ?_, nofun, fun stored h => hfirst stored ?_, trivial⟩
  · exact (Option.some.inj h).symm
  · exact (Option.some.inj h).symm

end Runtime

end MagicEngine
