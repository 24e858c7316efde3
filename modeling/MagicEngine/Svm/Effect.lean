import MagicEngine.Svm.Processing

/-!
# Effects of program actions

The sequencer runs transactions side by side when the accounts they declare writable do not meet, so a
transaction must not leave any other account changed. What carries the argument:

* `Bounded`: an instruction account is writable only if the message declares it so, in the frame of every
  instruction prepared so far, and a program's stores reach only such accounts;
* `Effect`: from one state to the next, which accounts can become dirty; a dirty account stays dirty.

Every action of an ordinary program keeps the bounds and dirties declared accounts only (`programStep_effect`), provided
that no instruction it invokes lists more accounts than a deduplication map has positions for.
-/

namespace MagicEngine

/-- The map of a prepared instruction can be relied on, and its accounts are writable only if the message declares them
so. -/
structure PreparedInstruction.Within (tx : ResolvedTransaction) (p : PreparedInstruction) : Prop where
  tracks : p.Tracks
  length : p.accounts.length ≤ noPosition
  writable : ∀ index, p.Has index .writable → tx.isWritable index

namespace InvokeContext

def dirtyAt (ctx : InvokeContext) (i : Nat) : Bool := (ctx.accounts[i]?).any (·.dirty)

/-- All instructions that were configured. -/
def prepared (ctx : InvokeContext) : List PreparedInstruction :=
  List.zipWith PreparedInstruction.mk ctx.instructionAccounts ctx.deduplicationMaps

structure Bounded (tx : ResolvedTransaction) (ctx : InvokeContext) : Prop where
  keys : ctx.keys = tx.staticAccountKeys
  sizes : ctx.instructionAccounts.length = ctx.deduplicationMaps.length
  prepared : ∀ p ∈ ctx.prepared, p.Within tx

/-- From `ctx` to `ctx'` the bounds are kept, no account gets clean, and only accounts in `W` get dirty. -/
structure Effect (tx : ResolvedTransaction) (W : Nat → Prop) (ctx ctx' : InvokeContext) : Prop where
  bounded : Bounded tx ctx → Bounded tx ctx'
  mono : ∀ i, ctx.dirtyAt i → ctx'.dirtyAt i
  only : Bounded tx ctx → ∀ i, ctx'.dirtyAt i → ctx.dirtyAt i ∨ W i

/-- The accounts execution may dirty: those declared writable, and the Instructions sysvar. -/
def Declared (tx : ResolvedTransaction) (i : Nat) : Prop :=
  tx.isWritable i ∨ tx.staticAccountKeys[i]? = some instructionsSysvarId

instance (tx : ResolvedTransaction) (i : Nat) : Decidable (Declared tx i) :=
  inferInstanceAs (Decidable (_ ∨ _))

section Effect

variable {tx : ResolvedTransaction} {W V : Nat → Prop} {ctx ctx' ctx'' : InvokeContext}

theorem Effect.refl (ctx : InvokeContext) : Effect tx W ctx ctx :=
  ⟨id, fun _ h => h, fun _ _ h => .inl h⟩

theorem Effect.trans (h : Effect tx W ctx ctx') (h' : Effect tx W ctx' ctx'') : Effect tx W ctx ctx'' where
  bounded hb := h'.bounded (h.bounded hb)
  mono i hi := h'.mono i (h.mono i hi)
  only hb i hi := (h'.only (h.bounded hb) i hi).elim (h.only hb i) .inr

theorem Effect.weaken (h : Effect tx W ctx ctx') (hWV : ∀ i, W i → V i) : Effect tx V ctx ctx' :=
  ⟨h.bounded, h.mono, fun hb i hi => (h.only hb i hi).imp_right (hWV i)⟩

theorem Effect.of_accounts_eq (ha : ctx'.accounts = ctx.accounts) (hb : Bounded tx ctx → Bounded tx ctx') :
    Effect tx W ctx ctx' := by
  have hd : ∀ i, ctx'.dirtyAt i = ctx.dirtyAt i := fun i => by simp [dirtyAt, ha]
  exact ⟨hb, fun i hi => by rwa [hd], fun _ i hi => .inl (by rwa [hd] at hi)⟩

theorem dirtyAt_setAccount {index : Nat} {a a' : AccountSharedData} (ha : ctx.accounts[index]? = some a) (i : Nat) :
    (ctx.setAccount index a').dirtyAt i = if i = index then a'.dirty else ctx.dirtyAt i := by
  have hlt : index < ctx.accounts.length := (List.getElem?_eq_some_iff.mp ha).1
  unfold dirtyAt setAccount
  by_cases h : index = i
  · subst h
    simp [hlt]
  · simp [List.getElem?_set_ne h, Ne.symm h]

theorem effect_setAccount {index : Nat} {a a' : AccountSharedData} (ha : ctx.accounts[index]? = some a)
    (hmono : a.dirty → a'.dirty) (honly : Bounded tx ctx → a'.dirty → a.dirty ∨ W index) :
    Effect tx W ctx (ctx.setAccount index a') := by
  have hd : ctx.dirtyAt index = a.dirty := by simp [dirtyAt, ha]
  refine ⟨fun hb => ⟨hb.keys, hb.sizes, hb.prepared⟩, ?_, ?_⟩
  · intro i hi
    rw [dirtyAt_setAccount ha]
    split
    · next h => subst h; exact hmono (hd ▸ hi)
    · exact hi
  · intro hb i hi
    rw [dirtyAt_setAccount ha] at hi
    split at hi
    · next h => subst h; exact hd ▸ honly hb hi
    · exact .inl hi

end Effect

variable {tx : ResolvedTransaction} {ctx : InvokeContext}

/-- An instruction reads what was configured at its index, or nothing at all. -/
theorem preparedAt_cases (h : Bounded tx ctx) (index : Nat) :
    (ctx.preparedAt index).Within tx ∨ ctx.preparedAt index = ⟨[], []⟩ := by
  rcases Nat.lt_or_ge index ctx.instructionAccounts.length with hlt | hge
  · have hlt' : index < ctx.deduplicationMaps.length := h.sizes ▸ hlt
    refine .inl (h.prepared _ ?_)
    have heq : ctx.preparedAt index = ⟨ctx.instructionAccounts[index], ctx.deduplicationMaps[index]⟩ := by
      simp [preparedAt, accountsAt, hlt, hlt']
    rw [heq, InvokeContext.prepared, List.mem_iff_getElem?]
    exact ⟨index, by simp [hlt, hlt']⟩
  · have hge' : ctx.deduplicationMaps.length ≤ index := h.sizes ▸ hge
    exact .inr (by simp [preparedAt, accountsAt, hge, hge'])

theorem accountsAt_bounded (h : Bounded tx ctx) {index : Nat}
    {ia : InstructionAccount} (hia : ia ∈ ctx.accountsAt index) (hw : ia.isWritable) :
    tx.isWritable ia.indexInTransaction := by
  rcases preparedAt_cases h index with hwithin | hempty
  · exact hwithin.writable _ ⟨ia, hia, rfl, hw⟩
  · have hnil : ctx.accountsAt index = [] := congrArg PreparedInstruction.accounts hempty
    rw [hnil] at hia
    cases hia

/-! ### Preparing instructions -/

theorem Bounded.configureNext (h : Bounded tx ctx) {conf : Configuration}
    (hwithin : PreparedInstruction.Within tx ⟨conf.accounts, conf.dedupMap⟩) : Bounded tx (ctx.configureNext conf) where
  keys := h.keys
  sizes := by simp [InvokeContext.configureNext, h.sizes]
  prepared p hp := by
    have happend : (ctx.configureNext conf).prepared = ctx.prepared ++ [⟨conf.accounts, conf.dedupMap⟩] :=
      List.zipWith_append h.sizes
    rw [happend] at hp
    rcases List.mem_append.mp hp with hp | hp
    · exact h.prepared p hp
    · rw [List.mem_singleton.mp hp]
      exact hwithin

theorem prepareNextTopLevelInstruction_within {instruction : CompiledInstruction} {conf : Configuration}
    (hlen : instruction.accounts.length ≤ noPosition)
    (hok : prepareNextTopLevelInstruction tx instruction = .ok conf) :
    PreparedInstruction.Within tx ⟨conf.accounts, conf.dedupMap⟩ := by
  obtain ⟨p, hp, hconf⟩ := bind_eq_ok.mp hok
  cases hconf
  obtain ⟨htracks, haccounts⟩ := PreparedInstruction.prepareTopLevel_spec hlen hp
  refine ⟨htracks, ?_, ?_⟩
  · dsimp only
    rwa [haccounts, List.length_map]
  · rintro index ⟨a, ha, rfl, hw⟩
    dsimp only at ha
    rw [haccounts] at ha
    obtain ⟨index, -, rfl⟩ := List.mem_map.mp ha
    exact hw

/-- A caller with no instruction configured at its index has no program to invoke. -/
theorem prepareCpi_nil (keys : List Pubkey) (instruction : Instruction) (signers : List Pubkey) (p : PreparedInstruction) :
    PreparedInstruction.prepareCpi keys ⟨[], []⟩ instruction signers ≠ .ok p := by
  intro hok
  unfold PreparedInstruction.prepareCpi at hok
  obtain ⟨q, -, hok⟩ := bind_eq_ok.mp hok
  obtain ⟨q', -, hok⟩ := bind_eq_ok.mp hok
  split at hok
  · cases hok
  · have hnone (index : Nat) : PreparedInstruction.positionOf ⟨[], []⟩ index = none := rfl
    simp [hnone] at hok

theorem prepareNextCpiInstruction_within (h : Bounded tx ctx) {instruction : Instruction} {signers : List Pubkey}
    {conf : Configuration} (hlen : instruction.accounts.length ≤ noPosition)
    (hok : ctx.prepareNextCpiInstruction instruction signers = .ok conf) :
    PreparedInstruction.Within tx ⟨conf.accounts, conf.dedupMap⟩ := by
  unfold prepareNextCpiInstruction at hok
  split at hok
  · cases hok
  next current hcurrent =>
  obtain ⟨p, hp, hok⟩ := bind_eq_ok.mp hok
  split at hok
  · cases hok
  cases hok
  rcases preparedAt_cases h current with hcaller | hempty
  · obtain ⟨⟨htracks, hlength⟩, -, hgranted⟩ :=
      PreparedInstruction.prepareCpi_spec hcaller.tracks hcaller.length hlen hp
    exact ⟨htracks, hlength ▸ hlen, fun index hw => hcaller.writable index (hgranted index .writable hw)⟩
  · rw [hempty] at hp
    exact absurd hp (prepareCpi_nil _ _ _ _)

/-! ### Starting and ending instructions -/

section Frames

theorem noteCurrentInstruction_effect (topLevel : Nat) :
    Effect tx (Declared tx) ctx (ctx.noteCurrentInstruction topLevel).1 := by
  unfold noteCurrentInstruction
  split
  · exact .refl ctx
  · next index hindex =>
    split
    · exact .refl ctx
    · next a ha =>
      split
      · exact .refl ctx
      · split
        · exact .refl ctx
        · have hdirty : (storeCurrentIndex a topLevel).1.dirty = true := by
            unfold storeCurrentIndex
            split <;> simp
          refine effect_setAccount ha (fun _ => hdirty) (fun hb _ => .inr (.inr ?_))
          obtain ⟨hlt, heq, -⟩ := List.findIdx?_eq_some_iff_getElem.mp hindex
          rw [← hb.keys, List.getElem?_eq_getElem hlt]
          simpa using heq

theorem pushFrame_effect : Effect tx (Declared tx) ctx ctx.pushFrame.1 := by
  unfold pushFrame
  dsimp only
  split
  · exact .refl ctx
  · split
    · exact .refl ctx
    · split
      · exact .refl ctx
      · split
        · exact .of_accounts_eq rfl fun hb => ⟨hb.keys, hb.sizes, hb.prepared⟩
        · refine Effect.trans ?_ (noteCurrentInstruction_effect _)
          exact .of_accounts_eq rfl fun hb => ⟨hb.keys, hb.sizes, hb.prepared⟩

theorem push_effect : Effect tx (Declared tx) ctx ctx.push.1 := by
  have hframe := @pushFrame_effect tx ctx
  unfold push
  dsimp only
  split
  · exact .refl ctx
  · split
    · exact .refl ctx
    · split
      · next h => rwa [h] at hframe
      · next h =>
        rw [h] at hframe
        exact hframe.trans (.of_accounts_eq rfl fun hb => ⟨hb.keys, hb.sizes, hb.prepared⟩)

theorem pop_effect (W : Nat → Prop) : Effect tx W ctx ctx.pop.1 :=
  .of_accounts_eq rfl fun hb => ⟨hb.keys, hb.sizes, hb.prepared⟩

theorem enterScope_effect (W : Nat → Prop) (kind : CallKind) : Effect tx W ctx (ctx.enterScope kind) := by
  cases kind <;> exact .of_accounts_eq rfl fun hb => ⟨hb.keys, hb.sizes, hb.prepared⟩

theorem leaveScope_effect (W : Nat → Prop) (kind : CallKind) (saved : Option Nat × Option NativeCaller) :
    Effect tx W ctx (ctx.leaveScope kind saved) := by
  cases kind <;> exact .of_accounts_eq rfl fun hb => ⟨hb.keys, hb.sizes, hb.prepared⟩

end Frames

/-! ### Actions of programs -/

variable {b : Borrowed}

theorem borrow_spec {i : Nat} (h : ctx.borrow i = .ok b) :
    ctx.accounts[b.index]? = some b.account ∧
      ∀ tx, Bounded tx ctx → b.isWritable → tx.isWritable b.index := by
  unfold borrow at h
  split at h
  · cases h
  · next current _ =>
    split at h
    · cases h
    · next ia hia =>
      split at h
      · cases h
      · next a ha =>
        cases h
        exact ⟨ha, fun tx hb hw => accountsAt_bounded hb (List.mem_of_getElem? hia) hw⟩

theorem Borrowed.isWritable_of_canDataBeChanged (h : b.canDataBeChanged = .ok ()) : b.isWritable := by
  simp only [canDataBeChanged, bind_eq_ok, require_eq_ok] at h
  obtain ⟨-, hw, -⟩ := h
  exact hw

theorem Borrowed.isWritable_of_canDataBeResized {len : Nat}
    (h : b.canDataBeResized ctx len = .ok ()) : b.isWritable := by
  simp only [canDataBeResized, bind_eq_ok] at h
  obtain ⟨-, -, -, -, -, -, h⟩ := h
  exact isWritable_of_canDataBeChanged h

/-- A setter that changes the account had a writable instruction account, and leaves the account dirty. -/
theorem AccountAction.attempt_some {env : SvmEnv} {action : AccountAction}
    {a : AccountSharedData} (h : action.attempt env ctx b = .ok (some a)) : b.isWritable ∧ a.dirty := by
  cases action with
  | setOwner owner =>
    simp only [attempt, bind_eq_ok, require_eq_ok] at h
    obtain ⟨-, ⟨-, hw⟩, -, -, h⟩ := h
    split at h
    · cases h
    · obtain ⟨-, -, h⟩ := bind_eq_ok.mp h
      cases h
      exact ⟨hw, by simp⟩
  | setLamports lamports =>
    simp only [attempt, bind_eq_ok, require_eq_ok] at h
    obtain ⟨-, -, -, hw, h⟩ := h
    split at h
    · cases h
    · next hne =>
      obtain ⟨-, -, h⟩ := bind_eq_ok.mp h
      cases h
      exact ⟨hw, by simp [AccountSharedData.dirty_setLamports, hne]⟩
  | getDataMut data =>
    obtain ⟨_, hc, h⟩ := bind_eq_ok.mp h
    cases h
    exact ⟨Borrowed.isWritable_of_canDataBeChanged hc, by simp⟩
  | setDataFromSlice data =>
    obtain ⟨_, hc, h⟩ := bind_eq_ok.mp h
    cases h
    exact ⟨Borrowed.isWritable_of_canDataBeResized hc, by simp [AccountSharedData.setDataFromSlice]⟩
  | setDataLength len =>
    obtain ⟨_, hc, h⟩ := bind_eq_ok.mp h
    split at h
    · cases h
    · cases h
      exact ⟨Borrowed.isWritable_of_canDataBeResized hc, by simp [AccountSharedData.resize]⟩
  | extendFromSlice data =>
    obtain ⟨_, hc, h⟩ := bind_eq_ok.mp h
    split at h
    · cases h
    · cases h
      exact ⟨Borrowed.isWritable_of_canDataBeResized hc, by simp [AccountSharedData.extendFromSlice]⟩
  | setExecutable executable =>
    simp only [attempt, bind_eq_ok, require_eq_ok] at h
    obtain ⟨-, -, -, ⟨-, hw⟩, h⟩ := h
    split at h
    · cases h
    · next hne =>
      obtain ⟨-, -, h⟩ := bind_eq_ok.mp h
      cases h
      exact ⟨hw, AccountSharedData.dirty_setExecutable hne⟩

section Actions

theorem accountAction_effect (env : SvmEnv) (i : Nat) (action : AccountAction) :
    Effect tx (Declared tx) ctx (ctx.accountAction env i action).1 := by
  unfold accountAction
  split
  · exact .refl ctx
  · next b hborrow =>
    obtain ⟨hget, hwritable⟩ := borrow_spec hborrow
    split
    · exact .refl ctx
    · exact .refl ctx
    · next a hattempt =>
      obtain ⟨hw, hdirty⟩ := AccountAction.attempt_some hattempt
      refine (effect_setAccount hget (fun _ => hdirty) fun hb _ => .inr (.inl (hwritable tx hb hw))).trans ?_
      exact .of_accounts_eq rfl fun hb => ⟨hb.keys, hb.sizes, hb.prepared⟩

theorem mapRegion_writable (h : Bounded tx ctx) {i j : Nat} {mapped : List Nat} (hmapped : ∀ j ∈ mapped, tx.isWritable j)
    (hj : j ∈ ctx.mapRegion i mapped) : tx.isWritable j := by
  unfold mapRegion at hj
  split at hj
  · exact hmapped j hj
  · next b hborrow =>
    obtain ⟨-, hwritable⟩ := borrow_spec hborrow
    split at hj
    · next hc =>
      rcases List.mem_cons.mp hj with rfl | hj
      · apply hwritable tx h
        cases hcan : b.canDataBeChanged with
        | error e => simp [hcan, Except.isOk, Except.toBool] at hc
        | ok u => exact Borrowed.isWritable_of_canDataBeChanged hcan
      · exact hmapped j hj
    · exact hmapped j (List.mem_of_mem_filter hj)

theorem storeRegion_effect (mapped : List Nat) (index offset : Nat) (bytes : List UInt8) :
    Effect tx (· ∈ mapped) ctx (ctx.storeRegion mapped index offset bytes).1 := by
  unfold storeRegion
  split
  · next a ha =>
    dsimp only
    split
    · exact .refl ctx
    · next hmapped =>
      split
      · exact .refl ctx
      · have hset : Effect tx (· ∈ mapped) ctx (ctx.setAccount index (a.setDataAt offset bytes)) :=
          effect_setAccount ha (fun _ => by simp [AccountSharedData.setDataAt]) fun _ _ => .inr (not_not.mp hmapped)
        exact hset.trans (.of_accounts_eq rfl fun hb => ⟨hb.keys, hb.sizes, hb.prepared⟩)
  · exact .refl ctx

end Actions

end InvokeContext

namespace Processing

open InvokeContext (Declared)

/-- Instruction flags and mapped regions stay within what the message declares. -/
structure Bounded (tx : ResolvedTransaction) (s : Processing) : Prop where
  ctx : s.ctx.Bounded tx
  mapped : ∀ p ∈ s.programs, ∀ i ∈ p.mapped, tx.isWritable i

/-- The same from one state of the transaction to another. -/
structure Effect (tx : ResolvedTransaction) (W : Nat → Prop) (s s' : Processing) : Prop where
  bounded : s.Bounded tx → s'.Bounded tx
  mono : ∀ i, s.ctx.dirtyAt i → s'.ctx.dirtyAt i
  only : s.Bounded tx → ∀ i, s'.ctx.dirtyAt i → s.ctx.dirtyAt i ∨ W i

variable {tx : ResolvedTransaction} {W V : Nat → Prop} {s s' s'' : Processing} {p : ProgramState}
  {callers : List ProgramState}

theorem Effect.refl (s : Processing) : Effect tx W s s :=
  ⟨id, fun _ h => h, fun _ _ h => .inl h⟩

theorem Effect.trans (h : Effect tx W s s') (h' : Effect tx W s' s'') : Effect tx W s s'' where
  bounded hb := h'.bounded (h.bounded hb)
  mono i hi := h'.mono i (h.mono i hi)
  only hb i hi := (h'.only (h.bounded hb) i hi).elim (h.only hb i) .inr

theorem Effect.weaken (h : Effect tx W s s') (hWV : ∀ i, W i → V i) : Effect tx V s s' :=
  ⟨h.bounded, h.mono, fun hb i hi => (h.only hb i hi).imp_right (hWV i)⟩

/-- The progress and the error of the transaction play no part. -/
theorem Effect.of_fields (h : Effect tx W s s') (hctx : s''.ctx = s'.ctx) (hprograms : s''.programs = s'.programs) :
    Effect tx W s s'' where
  bounded hb := ⟨hctx ▸ (h.bounded hb).ctx, hprograms ▸ (h.bounded hb).mapped⟩
  mono i hi := hctx ▸ h.mono i hi
  only hb i hi := h.only hb i (hctx ▸ hi)

theorem Effect.of_ctx (h : s.ctx.Effect tx V s'.ctx) (hV : s.Bounded tx → ∀ i, V i → W i)
    (hmapped : s.Bounded tx → ∀ p ∈ s'.programs, ∀ i ∈ p.mapped, tx.isWritable i) : Effect tx W s s' where
  bounded hb := ⟨h.bounded hb.ctx, hmapped hb⟩
  mono := h.mono
  only hb i hi := (h.only hb.ctx i hi).imp_right (hV hb i)

/-- A returning program dirties nothing, and leaves no other programs than those that were running. -/
theorem leave_spec (s : Processing) (programs : List ProgramState) (ctx : InvokeContext)
    (result : Except InstructionError Unit) :
    ctx.Effect tx (Declared tx) (s.leave programs ctx result).ctx ∧ (s.leave programs ctx result).programs ⊆ programs := by
  induction programs generalizing ctx result with
  | nil => exact ⟨.refl ctx, List.Subset.refl _⟩
  | cons p callers ih =>
    have hleft : ctx.Effect tx (Declared tx) (ctx.pop.1.leaveScope p.kind p.saved) :=
      (InvokeContext.pop_effect _).trans (InvokeContext.leaveScope_effect _ _ _)
    unfold leave
    dsimp only
    split
    · exact ⟨hleft, List.subset_cons_self p callers⟩
    · next e _ =>
      split
      · obtain ⟨heffect, hsubset⟩ := ih (ctx.pop.1.leaveScope p.kind p.saved) (.error e)
        exact ⟨hleft.trans heffect, List.Subset.trans hsubset (List.subset_cons_self p callers)⟩
      · exact ⟨hleft, List.subset_cons_self p callers⟩

theorem leave_effect {ctx : InvokeContext} (hctx : s.ctx.Effect tx W ctx) (hW : ∀ i, Declared tx i → W i)
    (result : Except InstructionError Unit) : Effect tx W s (s.leave s.programs ctx result) := by
  obtain ⟨hleft, hsubset⟩ := @leave_spec tx s s.programs ctx result
  exact .of_ctx (hctx.trans (hleft.weaken hW)) (fun _ _ h => h) fun hb p hp => hb.mapped p (hsubset hp)

theorem start_spec (s : Processing) (ctx : InvokeContext) (kind : CallKind) (saved : Option Nat × Option NativeCaller) :
    ctx.Effect tx (Declared tx) (s.start ctx kind saved).1.ctx ∧
      ∀ p ∈ (s.start ctx kind saved).1.programs, p ∈ s.programs ∨ p.mapped = [] := by
  have hpush := @InvokeContext.push_effect tx ctx
  unfold start
  split
  · next pushed e h =>
    rw [h] at hpush
    exact ⟨hpush.trans (InvokeContext.leaveScope_effect _ _ _), fun p hp => .inl hp⟩
  · next pushed h =>
    rw [h] at hpush
    split
    · exact ⟨hpush.trans ((InvokeContext.pop_effect _).trans (InvokeContext.leaveScope_effect _ _ _)),
        fun p hp => .inl hp⟩
    · refine ⟨hpush, fun p hp => ?_⟩
      rcases List.mem_cons.mp hp with rfl | hp
      · exact .inr rfl
      · exact .inl hp

theorem start_effect {ctx : InvokeContext} (hctx : s.ctx.Effect tx (Declared tx) ctx) (kind : CallKind)
    (saved : Option Nat × Option NativeCaller) : Effect tx (Declared tx) s (s.start ctx kind saved).1 := by
  obtain ⟨hstart, hprograms⟩ := @start_spec tx s ctx kind saved
  refine .of_ctx (hctx.trans hstart) (fun _ _ h => h) fun hb p hp i hi => ?_
  rcases hprograms p hp with hp | hmapped
  · exact hb.mapped p hp i hi
  · rw [hmapped] at hi
    cases hi

theorem invoke_effect (kind : CallKind) {instruction : Instruction} (hlen : instruction.accounts.length ≤ noPosition) :
    Effect tx (Declared tx) s (s.invoke kind instruction).1 := by
  unfold invoke
  split
  · exact .refl s
  · next conf hconf =>
    refine start_effect ?_ _ _
    refine InvokeContext.Effect.trans ?_ (InvokeContext.enterScope_effect _ kind)
    exact .of_accounts_eq rfl fun hb =>
      hb.configureNext (InvokeContext.prepareNextCpiInstruction_within hb hlen hconf)

/-- The running program's own state changes, within the declared accounts. -/
theorem effect_setProgram {p' : ProgramState} (hs : s.programs = p :: callers)
    (hmapped : s.Bounded tx → ∀ i ∈ p'.mapped, tx.isWritable i) :
    Effect tx W s { s with programs := p' :: callers } := by
  refine .of_ctx (.refl s.ctx) (fun _ _ h => h) fun hb q hq => ?_
  rcases List.mem_cons.mp hq with rfl | hq
  · exact hmapped hb
  · exact hb.mapped q (by rw [hs]; exact List.mem_cons_of_mem p hq)

theorem programStep_effect (env : SvmEnv) (hs : s.programs = p :: callers) {action : Action}
    (hlen : ∀ kind instruction, action = .invoke kind instruction → instruction.accounts.length ≤ noPosition) :
    Effect tx (Declared tx) s (s.programStep env p callers action) := by
  have hunchanged (ctx : InvokeContext) (hb : s.Bounded tx) :
      ∀ q ∈ ({ s with ctx } : Processing).programs, ∀ i ∈ q.mapped, tx.isWritable i := hb.mapped
  have hp (hb : s.Bounded tx) : ∀ i ∈ p.mapped, tx.isWritable i := hb.mapped p (by rw [hs]; exact List.mem_cons_self)
  cases action with
  | topLevel => exact .refl s
  | account i action =>
    exact .of_ctx (InvokeContext.accountAction_effect env i action) (fun _ _ h => h) (hunchanged _)
  | mapRegion i =>
    exact effect_setProgram hs fun hb j hj => InvokeContext.mapRegion_writable hb.ctx (hp hb) hj
  | storeRegion i offset bytes =>
    exact .of_ctx (InvokeContext.storeRegion_effect p.mapped i offset bytes) (fun hb i hi => .inl (hp hb i hi))
      (hunchanged _)
  | invoke kind instruction => exact invoke_effect kind (hlen kind instruction rfl)
  | exit result => exact leave_effect (.refl s.ctx) (fun _ h => h) result
  | magicRoot => exact .refl s

end Processing

end MagicEngine
