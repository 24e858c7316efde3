import MagicEngine.Svm.Effect

/-!
# Declared writes

MagicRoot takes its target from the instruction's accounts without looking at their flags, so it dirties exactly
the accounts `magicRootWrites` names (`dispatch_dirtyAt`), declared or not. A successful execution therefore
commits declared accounts only if those are declared in every one of its steps (`committed_declared_iff`); a
patch of an account the message declares read-only is committed (`readonly_target_committed`). The flags of the other
instructions can be relied on while none of them lists more accounts than its deduplication map has positions for.
-/

namespace MagicEngine

variable {i : Nat} {tx : ResolvedTransaction}

namespace InvokeContext

/-! ### MagicRoot -/

/-- The length limit and the lifecycle rules, all a patch has to pass. -/
def patchAccepted (a : AccountSharedData) (p : AccountFieldPatch) : Bool :=
  !(patchedLength a p).any (maxAccountDataLen < ·) && (p.apply a).isOk

/-- Whether account 0 balances a lamport change of the target. -/
def settles (ctx : InvokeContext) (target : Nat) (old new : UInt64) : Bool :=
  target != 0 && old != new && ((ctx.accounts[0]?).bind (balance · old new)).isSome

/-- The accounts a patch changes: its target, and account 0 when the target's lamports move. -/
def patchWrites (ctx : InvokeContext) (target : Nat) (p : AccountFieldPatch) : List Nat :=
  match ctx.accounts[target]? with
  | none => []
  | some a =>
    if patchAccepted a p then
      (if p.marks a then [target] else []) ++
        if ctx.settles target a.lamports (p.lamportsAfter a) then [0] else []
    else []

def dispatchWrites (ctx : InvokeContext) (target : Nat) : MagicRootInstruction → List Nat
  | .patch p => ctx.patchWrites target p
  | .finalize flags =>
    if target < ctx.keys.length ∧ (ctx.accounts[target]?).any (·.core.flags != flags) then [target] else []
  | .delete =>
    if target < ctx.keys.length ∧ (ctx.accounts[target]?).any fun a =>
        (a.mode.validateTransition .closed a.core.slot a.core.slot).isOk then [target] else []
  | .compareAndPatch expected p =>
    if (ctx.accounts[target]?).any (·.account == expected) then ctx.patchWrites target p else []
  | .postFinalize _ _ | .nonce _ => []

theorem dirty_balance {authority authority' : AccountSharedData} {old new : UInt64}
    (h : balance authority old new = some authority') :
    (old = new ∧ authority' = authority) ∨ (old ≠ new ∧ authority'.dirty) := by
  unfold balance at h
  split at h
  · next hlt =>
    have hne : old ≠ new := fun heq => by simp [heq] at hlt
    right
    refine ⟨hne, ?_⟩
    unfold AccountSharedData.checkedSubLamports at h
    split at h
    · cases h
      rw [AccountSharedData.dirty_setLamports]
      have hsub : authority.lamports ≠ authority.lamports - (new - old) := by grind
      simp [hsub]
    · cases h
  · split at h
    · next hlt =>
      have hne : old ≠ new := fun heq => by simp [heq] at hlt
      right
      refine ⟨hne, ?_⟩
      unfold AccountSharedData.checkedAddLamports at h
      split at h
      · cases h
        rw [AccountSharedData.dirty_setLamports]
        have hadd : authority.lamports ≠ authority.lamports + (old - new) := by grind
        simp [hadd]
      · cases h
    · next hle hge =>
      left
      cases h
      exact ⟨UInt64.le_antisymm (UInt64.not_lt.mp hge) (UInt64.not_lt.mp hle), rfl⟩

section MagicRoot

variable {ctx : InvokeContext}

theorem settle_dirtyAt (target : Nat) (old new : UInt64) (i : Nat) :
    (ctx.settle target old new).1.dirtyAt i = (ctx.dirtyAt i || (ctx.settles target old new && decide (i = 0))) := by
  unfold settle settles
  split
  · next h => simp [h]
  · next h =>
    cases ha : ctx.accounts[0]? with
    | none => simp
    | some authority =>
      cases hbal : balance authority old new with
      | none => simp [hbal]
      | some authority' =>
        have h0 : ctx.dirtyAt 0 = authority.dirty := by simp [dirtyAt, ha]
        simp only [Option.bind_some, hbal, Option.isSome_some, Bool.and_true, dirtyAt_setAccount ha]
        rcases dirty_balance hbal with ⟨rfl, rfl⟩ | ⟨hne, hdirty⟩
        · by_cases hi : i = 0 <;> simp [hi, h0]
        · by_cases hi : i = 0 <;> simp [hi, hne, h, hdirty]

theorem patch_dirtyAt (target : Nat) (p : AccountFieldPatch) (i : Nat) :
    (ctx.patch target p).1.dirtyAt i = (ctx.dirtyAt i || (ctx.patchWrites target p).contains i) := by
  unfold patch patchWrites
  cases ha : ctx.accounts[target]? with
  | none => simp
  | some a =>
    dsimp only
    split
    · next hlen => simp [patchAccepted, hlen]
    · next hlen =>
      cases happ : p.apply a with
      | error e => simp [patchAccepted, happ, Except.isOk, Except.toBool]
      | ok a' =>
        have hacc : patchAccepted a p := by simp [patchAccepted, hlen, happ, Except.isOk, Except.toBool]
        -- account 0 as `settle` finds it is the one from before the patch, unless it is the target
        have hsettles : (ctx.setAccount target a').settles target a.lamports a'.lamports =
            ctx.settles target a.lamports (p.lamportsAfter a) := by
          rw [← AccountFieldPatch.lamports_apply happ]
          by_cases ht : target = 0
          · simp [settles, ht]
          · simp [settles, setAccount, List.getElem?_set_ne ht]
        have hset : (ctx.setAccount target a').dirtyAt i = (ctx.dirtyAt i || (p.marks a && decide (i = target))) := by
          rw [dirtyAt_setAccount ha]
          split
          · next hi =>
            subst hi
            simp [AccountFieldPatch.dirty_apply happ, dirtyAt, ha]
          · next hi => simp [hi]
        rw [settle_dirtyAt, hset, hsettles, if_pos hacc]
        cases p.marks a <;> cases ctx.settles target a.lamports (p.lamportsAfter a) <;> simp [Bool.or_assoc]

theorem finalize_dirtyAt (env : SvmEnv) (target : Nat) (flags : StateFlags) (i : Nat) :
    (ctx.finalize env target flags).1.dirtyAt i =
      (ctx.dirtyAt i || (ctx.dispatchWrites target (.finalize flags)).contains i) := by
  unfold finalize dispatchWrites
  rcases Nat.lt_or_ge target ctx.keys.length with hlt | hge
  · rw [List.getElem?_eq_getElem hlt]
    cases ha : ctx.accounts[target]? with
    | none => simp
    | some a =>
      have hset : (ctx.setAccount target (a.setFlags flags)).dirtyAt i =
          (ctx.dirtyAt i || (if target < ctx.keys.length ∧ (some a).any (·.core.flags != flags) then [target]
            else []).contains i) := by
        rw [dirtyAt_setAccount ha]
        split
        · next hi =>
          subst hi
          by_cases hf : a.core.flags = flags <;> simp [AccountSharedData.dirty_setFlags, dirtyAt, ha, hlt, hf]
        · next hi => by_cases hf : a.core.flags = flags <;> simp [hi, hlt, hf]
      dsimp only
      split
      · exact hset
      · split <;> exact hset
  · rw [List.getElem?_eq_none hge]
    simp [Nat.not_lt.mpr hge]

theorem delete_dirtyAt (target : Nat) (i : Nat) :
    (ctx.delete target).1.dirtyAt i = (ctx.dirtyAt i || (ctx.dispatchWrites target .delete).contains i) := by
  unfold delete dispatchWrites
  rcases Nat.lt_or_ge target ctx.keys.length with hlt | hge
  · rw [List.getElem?_eq_getElem hlt]
    cases ha : ctx.accounts[target]? with
    | none => simp
    | some a =>
      unfold AccountSharedData.setLifecycle
      cases hval : a.mode.validateTransition .closed a.core.slot a.core.slot with
      | error e => simp [hval, Except.isOk, Except.toBool]
      | ok u =>
        simp only [Option.any_some, hval, Except.isOk, Except.toBool, hlt, and_self, if_true]
        split <;>
        · refine (dirtyAt_setAccount ha i).trans ?_
          by_cases hi : i = target <;> simp [hi, AccountSharedData.dirty, DirtyMarkers.any]
  · rw [List.getElem?_eq_none hge]
    simp [Nat.not_lt.mpr hge]

/-- A MagicRoot instruction dirties exactly the accounts it is said to change. -/
theorem dispatch_dirtyAt (env : SvmEnv) (target : Nat) (instruction : MagicRootInstruction) (i : Nat) :
    (ctx.dispatch env target instruction).1.dirtyAt i =
      (ctx.dirtyAt i || (ctx.dispatchWrites target instruction).contains i) := by
  cases instruction with
  | patch p => exact patch_dirtyAt target p i
  | finalize flags => exact finalize_dirtyAt env target flags i
  | delete => exact delete_dirtyAt target i
  | postFinalize source actions => simp [dispatch, dispatchWrites]
  | nonce value => simp [dispatch, dispatchWrites]
  | compareAndPatch expected p =>
    unfold dispatch dispatchWrites
    cases ha : ctx.accounts[target]? with
    | none => simp
    | some a =>
      dsimp only
      split
      · next hne => simp [hne]
      · next heq =>
        rw [patch_dirtyAt]
        simp [not_not.mp heq]

private theorem dispatch_frames (env : SvmEnv) (target : Nat) (instruction : MagicRootInstruction) :
    (ctx.dispatch env target instruction).1.keys = ctx.keys ∧
      (ctx.dispatch env target instruction).1.instructionAccounts = ctx.instructionAccounts ∧
      (ctx.dispatch env target instruction).1.deduplicationMaps = ctx.deduplicationMaps := by
  simp only [dispatch, patch, settle, finalize, delete]
  repeat' split
  all_goals exact ⟨rfl, rfl, rfl⟩

theorem dispatch_effect (tx : ResolvedTransaction) (env : SvmEnv) (target : Nat)
    (instruction : MagicRootInstruction) :
    Effect tx (· ∈ ctx.dispatchWrites target instruction) ctx (ctx.dispatch env target instruction).1 := by
  obtain ⟨hkeys, haccounts, hmaps⟩ := @dispatch_frames ctx env target instruction
  refine ⟨fun hb => ⟨hkeys.trans hb.keys, ?_, ?_⟩, ?_, ?_⟩
  · rw [haccounts, hmaps]
    exact hb.sizes
  · rw [InvokeContext.prepared, haccounts, hmaps]
    exact hb.prepared
  · intro i hi
    simp [dispatch_dirtyAt, hi]
  · intro _ i hi
    simpa [dispatch_dirtyAt] using hi

end MagicRoot

end InvokeContext

namespace Processing

open InvokeContext (Declared)

variable {s : Processing} {p : ProgramState} {callers : List ProgramState} {env : SvmEnv}

/-- The accounts the next stretch of the MagicRoot processor changes: those of an instruction that is authorized
and decodes. -/
def magicRootWrites (env : SvmEnv) (ctx : InvokeContext) (p : ProgramState) : List Nat :=
  match p.actions, ctx.magicRootInstruction env, ctx.magicRootTarget with
  | none, .ok instruction, some target => ctx.dispatchWrites target instruction
  | _, _, _ => []

/-- How many accounts the instruction lists that a step prepares. -/
def listed (tx : ResolvedTransaction) (s : Processing) (action : Action) : Nat :=
  match s.programs with
  | [] =>
    match action, tx.instructions[s.started]? with
    | .topLevel, some instruction => instruction.accounts.length
    | _, _ => 0
  | p :: _ =>
    if p.isMagicRoot then
      match p.actions with
      | some (_, followUp :: _) => followUp.accounts.length
      | _ => 0
    else
      match action with
      | .invoke _ instruction => instruction.accounts.length
      | _ => 0

theorem magicRootStep_effect (tx : ResolvedTransaction) (env : SvmEnv) (hs : s.programs = p :: callers)
    (hlen : ∀ source followUp rest, p.actions = some (source, followUp :: rest) →
      followUp.accounts.length ≤ noPosition) :
    Effect tx (fun i => Declared tx i ∨ i ∈ magicRootWrites env s.ctx p) s (s.magicRootStep env p callers) := by
  have hleave (result : Except InstructionError Unit) : Effect tx
      (fun i => Declared tx i ∨ i ∈ magicRootWrites env s.ctx p) s (s.leave s.programs s.ctx result) :=
    leave_effect (.refl s.ctx) (fun _ => .inl) result
  have hset (actions : Option (Pubkey × List Instruction)) :
      Effect tx (Declared tx) s { s with programs := { p with actions } :: callers } :=
    effect_setProgram hs fun hb => hb.mapped p (by rw [hs]; exact List.mem_cons_self)
  unfold magicRootStep
  split
  · next source followUp rest hactions =>
    have hinvoke := (hset (some (source, rest))).trans
      (invoke_effect (.as source (InvokeContext.actionSigners followUp)) (hlen source followUp rest hactions))
    dsimp only
    split
    · next s' hok =>
      rw [hok] at hinvoke
      exact hinvoke.weaken fun _ => .inl
    · next s' e herr =>
      rw [herr] at hinvoke
      exact (hinvoke.trans (leave_effect (.refl s'.ctx) (fun _ h => h) _)).weaken fun _ => .inl
  · exact hleave _
  · next hnone =>
    split
    · exact hleave _
    · exact hleave _
    · exact (hset _).weaken fun _ => .inl
    · next instruction target _ hinstr htarget =>
      have hwrites : magicRootWrites env s.ctx p = s.ctx.dispatchWrites target instruction := by
        simp [magicRootWrites, hnone, hinstr, htarget]
      have hdispatch := @InvokeContext.dispatch_effect s.ctx tx env target instruction
      rw [← hwrites] at hdispatch
      exact leave_effect (hdispatch.weaken fun _ => .inr) (fun _ => .inl) _

theorem accounts_leave (s : Processing) (programs : List ProgramState) (ctx : InvokeContext)
    (result : Except InstructionError Unit) : (s.leave programs ctx result).ctx.accounts = ctx.accounts :=
  s.leave_keeps InvokeContext.accounts (fun _ => rfl) (fun _ kind _ => by cases kind <;> rfl) programs ctx result

theorem magicRootStep_dirties (hi : i ∈ magicRootWrites env s.ctx p) :
    (s.magicRootStep env p callers).ctx.dirtyAt i := by
  unfold magicRootWrites at hi
  split at hi
  · next instruction target hnone hinstr htarget =>
    have hdirty : (s.ctx.dispatch env target instruction).1.dirtyAt i := by
      simp [InvokeContext.dispatch_dirtyAt, hi]
    unfold magicRootStep
    rw [hnone]
    simp only [hinstr, htarget]
    cases instruction with
    | postFinalize source actions => simp [InvokeContext.dispatchWrites] at hi
    | _ => rwa [InvokeContext.dirtyAt, accounts_leave]
  · simp at hi

theorem startTopLevel_effect (env : SvmEnv) {instruction : CompiledInstruction}
    (hlen : instruction.accounts.length ≤ noPosition) :
    Effect tx (Declared tx) s (s.startTopLevel env tx instruction).1 := by
  unfold startTopLevel
  split
  · exact .refl s
  next conf hconf =>
  have hprepare : s.ctx.Effect tx (Declared tx) (s.ctx.configureNext conf) :=
    .of_accounts_eq rfl fun hb => hb.configureNext (InvokeContext.prepareNextTopLevelInstruction_within hlen hconf)
  dsimp only
  split
  · exact .of_ctx hprepare (fun _ _ h => h) fun hb => hb.mapped
  · split
    · have hpush := hprepare.trans InvokeContext.push_effect
      unfold precompile
      split
      · next pushed e h =>
        rw [h] at hpush
        exact .of_ctx hpush (fun _ _ h => h) fun hb => hb.mapped
      · next pushed h =>
        rw [h] at hpush
        exact .of_ctx (hpush.trans (InvokeContext.pop_effect _)) (fun _ _ h => h) fun hb => hb.mapped
    · exact start_effect hprepare _ _

/-- The accounts a step of MagicRoot changes. -/
def writes (env : SvmEnv) (s : Processing) (action : Action) : List Nat :=
  match s.programs with
  | [] => []
  | p :: _ => if s.error.isNone ∧ p.isMagicRoot ∧ action = .magicRoot then magicRootWrites env s.ctx p else []

section Run

variable {tx : ResolvedTransaction}

theorem step_effect {action : Action} (hlen : s.listed tx action ≤ noPosition) :
    Effect tx (fun i => Declared tx i ∨ i ∈ s.writes env action) s (s.step env tx action) := by
  unfold step
  split
  · exact .refl _
  · next herror =>
    split
    · next hs =>
      split
      · next instruction hinstr =>
        have hstart : Effect tx (Declared tx) s (s.startTopLevel env tx instruction).1 := by
          refine startTopLevel_effect env ?_
          simpa only [listed, hs, hinstr] using hlen
        exact (hstart.weaken fun _ => .inl).of_fields rfl rfl
      · exact .refl _
    · next p callers hs =>
      split
      · next hroot =>
        split
        · next haction =>
          have hwrites : s.writes env action = magicRootWrites env s.ctx p := by
            unfold writes
            simp_all
          rw [hwrites]
          refine magicRootStep_effect tx env hs fun source followUp rest hactions => ?_
          simpa only [listed, hs, hroot, hactions, if_true] using hlen
        · exact .refl _
      · next hroot =>
        refine (programStep_effect env hs fun kind instruction haction => ?_).weaken fun _ => .inl
        subst haction
        simpa only [listed, hs, hroot, Bool.false_eq_true, if_false] using hlen

theorem step_dirties {action : Action} (hi : i ∈ s.writes env action) :
    (s.step env tx action).ctx.dirtyAt i := by
  unfold writes at hi
  split at hi
  · cases hi
  next p callers hs =>
  split at hi
  · next h =>
    obtain ⟨herror, hroot, haction⟩ := h
    have hstep : s.step env tx action = s.magicRootStep env p callers := by
      unfold step
      simp_all
    rw [hstep]
    exact magicRootStep_dirties hi
  · cases hi

/-- No instruction that the run prepares lists more accounts than its deduplication map has positions for. -/
def Mappable (env : SvmEnv) (tx : ResolvedTransaction) : Processing → List Action → Prop :=
  Along env tx fun s action => s.listed tx action ≤ noPosition

/-- Along the run, MagicRoot changes only accounts execution may dirty. -/
def TargetsDeclared (env : SvmEnv) (tx : ResolvedTransaction) : Processing → List Action → Prop :=
  Along env tx fun s action => ∀ i ∈ s.writes env action, Declared tx i

theorem run_mono {actions : List Action} (h : Mappable env tx s actions) (hi : s.ctx.dirtyAt i) :
    (s.run env tx actions).ctx.dirtyAt i := by
  induction actions generalizing s with
  | nil => exact hi
  | cons action rest ih =>
    have hstep : Effect tx _ s (s.step env tx action) := step_effect h.1
    exact ih h.2 (hstep.mono i hi)

theorem run_only {actions : List Action} (hb : s.Bounded tx) (hmappable : Mappable env tx s actions)
    (h : TargetsDeclared env tx s actions) (hi : (s.run env tx actions).ctx.dirtyAt i) :
    s.ctx.dirtyAt i ∨ Declared tx i := by
  induction actions generalizing s with
  | nil => exact .inl hi
  | cons action rest ih =>
    obtain ⟨hwrites, hrest⟩ := h
    have hstep : Effect tx _ s (s.step env tx action) := step_effect hmappable.1
    rcases ih (hstep.bounded hb) hmappable.2 hrest hi with hi' | hi'
    · rcases hstep.only hb i hi' with h' | h' | h'
      · exact .inl h'
      · exact .inr h'
      · exact .inr (hwrites i h')
    · exact .inr hi'

theorem targetsDeclared_of_run {actions : List Action} (hmappable : Mappable env tx s actions)
    (h : ∀ i, (s.run env tx actions).ctx.dirtyAt i → Declared tx i) : TargetsDeclared env tx s actions := by
  induction actions generalizing s with
  | nil => trivial
  | cons action rest ih =>
    exact ⟨fun i hi => h i (run_mono (s := s.step env tx action) hmappable.2 (step_dirties hi)), ih hmappable.2 h⟩

theorem init_bounded (tx : ResolvedTransaction) (loaded : List OwnedAccount) (budget : Nat × Nat)
    (cache : ProgramCacheForTxBatch) : (init tx loaded budget cache).Bounded tx :=
  ⟨⟨rfl, rfl, fun _ hp => nomatch hp⟩, fun _ hp => nomatch hp⟩

theorem init_clean (tx : ResolvedTransaction) (loaded : List OwnedAccount) (budget : Nat × Nat)
    (cache : ProgramCacheForTxBatch) (i : Nat) : (init tx loaded budget cache).ctx.dirtyAt i = false := by
  simp only [InvokeContext.dirtyAt, init, InvokeContext.new, List.getElem?_map]
  cases loaded[i]? <;> simp [AccountSharedData.dirty, DirtyMarkers.any]

end Run

theorem mem_committed {accounts : List AccountSharedData}
    {a : AccountSharedData} : (i, a) ∈ tx.committed accounts ↔
      accounts[i]? = some a ∧ a.dirty ∧ tx.staticAccountKeys[i]? ≠ some instructionsSysvarId := by
  simp only [ResolvedTransaction.committed, List.mem_filter, List.mem_map, Prod.exists, Prod.swap_prod_mk,
    Prod.mk.injEq, List.mk_mem_zipIdx_iff_getElem?]
  constructor
  · rintro ⟨⟨a', i', hget, rfl, rfl⟩, h⟩
    simpa [hget] using h
  · rintro ⟨hget, h⟩
    exact ⟨⟨a, i, hget, rfl, rfl⟩, by simpa using h⟩

/-- The access check, read for a changed account that the message declares writable. -/
theorem canWriteback_of_accessIsValid {env : SvmEnv} {before : List AccountSharedData}
    (h : s.accessIsValid env tx before) {a : AccountSharedData}
    (hget : s.ctx.accounts[i]? = some a) (hdirty : a.dirty) (hw : tx.isWritable i) (hp : ¬tx.isPrivileged) :
    a.canWriteback := by
  unfold accessIsValid at h
  cases haccounts : s.ctx.accounts with
  | nil => simp [haccounts] at h
  | cons payer rest =>
    simp only [haccounts, Bool.and_eq_true, List.all_eq_true] at h
    obtain ⟨-, hrest, hpayer⟩ := h
    rw [haccounts] at hget
    cases i with
    | zero =>
      obtain rfl : payer = a := by simpa using hget
      simpa [hdirty] using hpayer
    | succ i =>
      have hmem : (a, i + 1) ∈ rest.zipIdx 1 := by
        rw [List.mk_mem_zipIdx_iff_le_and_getElem?_sub]
        simpa using hget
      simpa [hw, hp] using hrest _ hmem

/-- A valid execution that prepares no instruction with more than 65535 accounts commits declared accounts only, each
writable back unless the transaction is privileged, exactly when MagicRoot never changes an account outside the declared
ones. -/
theorem committed_declared_iff (env : SvmEnv) (tx : ResolvedTransaction) (loaded : List OwnedAccount)
    (budget : Nat × Nat) (cache : ProgramCacheForTxBatch) (actions : List Action)
    (hmappable : Mappable env tx (init tx loaded budget cache) actions)
    (hvalid : ((init tx loaded budget cache).run env tx actions).accessIsValid env tx
      (init tx loaded budget cache).ctx.accounts) :
    (∀ i a, (i, a) ∈ tx.committed ((init tx loaded budget cache).run env tx actions).ctx.accounts →
      tx.isWritable i ∧ (¬tx.isPrivileged → a.canWriteback)) ↔
    TargetsDeclared env tx (init tx loaded budget cache) actions := by
  constructor
  · intro h
    refine targetsDeclared_of_run hmappable fun i hi => ?_
    by_contra hnot
    obtain ⟨hw, hsysvar⟩ := not_or.mp hnot
    cases hget : ((init tx loaded budget cache).run env tx actions).ctx.accounts[i]? with
    | none => simp [InvokeContext.dirtyAt, hget] at hi
    | some a =>
      have hdirty : a.dirty := by simpa [InvokeContext.dirtyAt, hget] using hi
      exact hw (h i a (mem_committed.mpr ⟨hget, hdirty, hsysvar⟩)).1
  · intro h i a hmem
    obtain ⟨hget, hdirty, hsysvar⟩ := mem_committed.mp hmem
    have hi : ((init tx loaded budget cache).run env tx actions).ctx.dirtyAt i := by
      simp [InvokeContext.dirtyAt, hget, hdirty]
    have hw : tx.isWritable i := by
      rcases run_only (init_bounded tx loaded budget cache) hmappable h hi with hclean | hw | hw
      · rw [init_clean] at hclean
        cases hclean
      · exact hw
      · exact absurd hw hsysvar
    exact ⟨hw, canWriteback_of_accessIsValid hvalid hget hdirty hw⟩

/-! ### A MagicRoot patch of an account the message declares read-only -/

def patchEnv : SvmEnv where
  authority := ⟨1⟩
  environment := 0
  verify _ _ := true
  decode _ := some (.patch (.dataAt 0 [7]))
  isExempt _ _ := true
  rentStateVerified _ _ := true
  isPrecompile _ := false
  processPrecompile _ _ _ := false

/-- The authority patches account 1 at the top level; `writable` are the message's writable accounts. -/
def patchTransaction (writable : BitVec 256) : ResolvedTransaction where
  signatures := [⟨0⟩]
  numRequiredSignatures := 1
  staticAccountKeys := [⟨1⟩, ⟨2⟩, magicRootId]
  instructions := [{ programIdIndex := 2, accounts := [1], data := [] }]
  writableCache := writable
  keys_nodup := by decide

def patchLoaded : List OwnedAccount :=
  [{ core := { lamports := 10, mode := .delegated } }, { core := { lamports := 10, mode := .delegated } },
   { core := { owner := nativeLoaderId, mode := .runtime, flags := ⟨1⟩ } }]

def patchCache : ProgramCacheForTxBatch where
  entries key := if key = magicRootId then some .builtin else none
  modifiedEntries _ := none

def patchStart (writable : BitVec 256) : Processing := init (patchTransaction writable) patchLoaded (5, 64) patchCache

/-- With only the payer declared writable, the patch succeeds and the target is committed. -/
theorem readonly_target_committed :
    ((patchStart 1).run patchEnv (patchTransaction 1) [.topLevel, .magicRoot]).accessIsValid patchEnv
      (patchTransaction 1) (patchStart 1).ctx.accounts ∧
    ∃ a, (1, a) ∈ (patchTransaction 1).committed
      ((patchStart 1).run patchEnv (patchTransaction 1) [.topLevel, .magicRoot]).ctx.accounts ∧
      ¬(patchTransaction 1).isWritable 1 := by
  refine ⟨by decide, _, mem_committed.mpr ⟨rfl, by decide, by decide⟩, by decide⟩

/-- With the target declared writable as well, everything committed is declared. -/
theorem writable_target_declared :
    ((patchStart 3).run patchEnv (patchTransaction 3) [.topLevel, .magicRoot]).accessIsValid patchEnv
      (patchTransaction 3) (patchStart 3).ctx.accounts ∧
    ∀ i a, (i, a) ∈ (patchTransaction 3).committed
      ((patchStart 3).run patchEnv (patchTransaction 3) [.topLevel, .magicRoot]).ctx.accounts →
      (patchTransaction 3).isWritable i ∧ (¬(patchTransaction 3).isPrivileged → a.canWriteback) := by
  have haccess : ((patchStart 3).run patchEnv (patchTransaction 3) [.topLevel, .magicRoot]).accessIsValid patchEnv
      (patchTransaction 3) (patchStart 3).ctx.accounts := by decide
  refine ⟨haccess, ?_⟩
  have hmappable : Mappable patchEnv (patchTransaction 3) (patchStart 3) [.topLevel, .magicRoot] :=
    ⟨by decide, by decide, trivial⟩
  refine (committed_declared_iff patchEnv (patchTransaction 3) patchLoaded (5, 64) patchCache _ hmappable haccess).mpr ?_
  exact ⟨by decide, by decide, trivial⟩

end Processing

end MagicEngine
