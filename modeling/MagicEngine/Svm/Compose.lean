import MagicEngine.Account.Sequence
import MagicEngine.Image.Rounds
import MagicEngine.Svm.Engine
import MagicEngine.Svm.Invocation
import MagicEngine.View.Content

/-!
# Composed accounts

`MagicRootInstruction::compose_account` (`programs/magic-root-interface`) turns an account into MagicRoot instructions, one
for each patch of its sequence and one for the flags, which the authority runs in one transaction. Each patch of the target
is balanced against the authority.

The run is followed instruction by instruction: between two of them the stack is empty and the trace has grown by the
instructions so far (`Between`), and what an instruction changes is the accounts and the program cache.
-/

namespace MagicEngine

/-! ### Composition -/

namespace MagicRootInstruction

/-- `extend_metas`: the accounts of the follow-up actions, none of them as a signer. -/
def extendMetas (instruction : MagicRootInstruction) (accounts : List AccountMeta) : List AccountMeta :=
  match instruction with
  | .postFinalize _ actions =>
    accounts ++ actions.flatMap fun ix =>
      { pubkey := ix.programId, isSigner := false, isWritable := false } ::
        ix.accounts.map fun account => { account with isSigner := false }
  | _ => accounts

variable (serialize : MagicRootInstruction → Option (List UInt8))

/-- `compose`; `none` is an error of the serializer. -/
def compose (instruction : MagicRootInstruction) (account : Pubkey) : Option Instruction := do
  let accounts := instruction.extendMetas [{ pubkey := account, isSigner := false, isWritable := true }]
  return { programId := magicRootId, accounts, data := ← serialize instruction }

/-- The instructions of `compose_account` before they are serialized. -/
def forAccount (account : OwnedAccount) : List MagicRootInstruction :=
  (AccountFieldPatch.sequence account).map .patch ++ [.finalize account.core.flags]

def composeAccount (target : Pubkey) (account : OwnedAccount) : Option (List Instruction) :=
  (forAccount account).mapM fun instruction => instruction.compose serialize target

end MagicRootInstruction

def Instruction.compile (keys : List Pubkey) (instruction : Instruction) : CompiledInstruction where
  programIdIndex := keys.idxOf instruction.programId
  accounts := instruction.accounts.map fun account => keys.idxOf account.pubkey
  data := instruction.data

/-! ### Patches in order -/

open AccountFieldPatch InvokeContext in
/-- Patches apply one after the other, with data that fits into an account. -/
inductive Rewrites : AccountSharedData → List AccountFieldPatch → AccountSharedData → Prop
  | done (a : AccountSharedData) : Rewrites a [] a
  | step {a a' a'' : AccountSharedData} {patch : AccountFieldPatch} {rest : List AccountFieldPatch}
      (hfits : ∀ len, patchedLength a patch = some len → len ≤ maxAccountDataLen) (happly : patch.apply a = .ok a')
      (hrest : Rewrites a' rest a'') : Rewrites a (patch :: rest) a''

namespace AccountFieldPatch

open InvokeContext

variable {a : AccountSharedData} {data : List UInt8}

theorem rewrites_chunks (hmax : data.length ≤ maxAccountDataLen) {old : List UInt8} (hold : old.length = data.length)
    (count index : Nat) (hcount : index + count = chunkCount data)
    (hdata : a.data = data.take (index * maxDataChunkSize) ++ old.drop (index * maxDataChunkSize)) :
    ∃ a', Rewrites a ((List.range' index count).map (chunkPatch data)) a' ∧ a'.account = { core := a.core, data } := by
  induction count generalizing index a with
  | zero =>
    rw [Nat.add_zero] at hcount
    have hall := length_le_chunkCount data
    rw [← hcount] at hall
    rw [List.take_of_length_le hall, List.drop_eq_nil_of_le (hold ▸ hall), List.append_nil] at hdata
    exact ⟨a, .done a, by rw [← hdata]; rfl⟩
  | succ count ih =>
    have hindex : index < chunkCount data := by omega
    obtain ⟨a₁, happly, haccount⟩ := chunkPatch_apply hindex hold hdata
    have hcore : a₁.core = a.core := by rw [AccountSharedData.core, haccount]
    obtain ⟨a₂, hrest, haccount₂⟩ := ih (a := a₁) (index + 1) (by omega) (by rw [AccountSharedData.data, haccount])
    refine ⟨a₂, .step (fun len hlen => ?_) happly hrest, by rw [haccount₂, hcore]⟩
    obtain rfl := Option.some.inj hlen
    have hoffset := offset_lt_of_lt_chunkCount hindex
    have hlength : a.data.length ≤ maxAccountDataLen := by
      rw [hdata, List.length_append, List.length_take, List.length_drop, hold]
      omega
    rw [List.length_take, List.length_drop]
    exact Nat.max_le.mpr ⟨hlength, by omega⟩

/-- The patches of an account rebuild it on any other, up to the flags. -/
theorem rewrites_sequence (source : OwnedAccount) (hmax : source.data.length ≤ maxAccountDataLen)
    (hlifecycle : a.mode.validateTransition source.core.mode a.core.slot source.core.slot = .ok ()) :
    ∃ a', Rewrites a (sequence source) a' ∧
      a'.account = { core := { source.core with flags := a.core.flags }, data := source.data } := by
  have hcore₀ : (a.setLamports source.core.lamports).core = { a.core with lamports := source.core.lamports } :=
    congrArg OwnedAccount.core (a.account_setLamports _)
  generalize hlamports : a.setLamports source.core.lamports = a₀ at hcore₀
  obtain ⟨a₁, happly, haccount₁⟩ := a₀.setLifecycle_ok source.core.mode source.core.slot
    (by rw [AccountSharedData.mode, hcore₀]; exact hlifecycle)
  have hcore₁ : a₁.core = { a₀.core with mode := source.core.mode, slot := source.core.slot } :=
    congrArg OwnedAccount.core haccount₁
  have hcore₂ : (a₁.setCommitSeq source.core.commitSeq).core = { a₁.core with commitSeq := source.core.commitSeq } :=
    congrArg OwnedAccount.core (a₁.account_setCommitSeq _)
  generalize hcommitSeq : a₁.setCommitSeq source.core.commitSeq = a₂ at hcore₂
  have hcore₃ : (a₂.setOwner source.core.owner).core = { a₂.core with owner := source.core.owner } :=
    congrArg OwnedAccount.core (a₂.account_setOwner _)
  generalize howner : a₂.setOwner source.core.owner = a₃ at hcore₃
  have hlength := a₃.length_resize source.data.length 0
  obtain ⟨a₄, hchunks, haccount₄⟩ := rewrites_chunks (a := a₃.resize source.data.length 0) hmax hlength
    (chunkCount source.data) 0 (Nat.zero_add _) (by simp)
  have hcore : (a₃.resize source.data.length 0).core = { source.core with flags := a.core.flags } := by
    change a₃.core = _
    rw [hcore₃, hcore₂, hcore₁, hcore₀]
  rw [← List.range_eq_range', ← dataSequence_eq] at hchunks
  refine ⟨a₄, ?_, by rw [haccount₄, hcore]⟩
  refine .step (by simp [patchedLength]) (congrArg Except.ok hlamports) ?_
  refine .step (by simp [patchedLength]) happly ?_
  refine .step (by simp [patchedLength]) (congrArg Except.ok hcommitSeq) ?_
  refine .step (by simp [patchedLength]) (congrArg Except.ok howner) ?_
  refine .step (fun len hlen => ?_) rfl hchunks
  obtain rfl := Option.some.inj hlen
  exact hmax

end AccountFieldPatch

/-! ### One instruction -/

namespace InvokeContext

variable {ctx : InvokeContext} {authority authority' a a' root : AccountSharedData}

theorem patch_accounts {patch : AccountFieldPatch} (haccounts : ctx.accounts = [authority, a, root])
    (hfits : ∀ len, patchedLength a patch = some len → len ≤ maxAccountDataLen) (happly : patch.apply a = .ok a')
    (hbalance : balance authority a.lamports a'.lamports = some authority') :
    ctx.patch 1 patch = ({ ctx with accounts := [authority', a', root] }, .ok ()) := by
  have hany : (patchedLength a patch).any (maxAccountDataLen < ·) = false := by
    cases hlen : patchedLength a patch with
    | none => rfl
    | some len => simpa using hfits len hlen
  simp [InvokeContext.patch, settle, setAccount, haccounts, hany, happly, hbalance]

/-- The authority pays for an increase it can cover, and takes a decrease it can hold. -/
theorem balance_covered (authority : AccountSharedData) {old new : UInt64} (hcovers : new.toNat ≤ authority.lamports.toNat + old.toNat)
    (hholds : authority.lamports.toNat + old.toNat < 2 ^ 64) :
    ∃ authority', balance authority old new = some authority' ∧
      authority'.lamports.toNat + new.toNat = authority.lamports.toNat + old.toNat := by
  have hset (lamports : UInt64) : (authority.setLamports lamports).lamports = lamports :=
    congrArg (fun account : OwnedAccount => account.core.lamports) (authority.account_setLamports lamports)
  unfold balance
  split
  · next hlt =>
    have hlt' := UInt64.lt_iff_toNat_lt.mp hlt
    have hdifference : (new - old).toNat = new.toNat - old.toNat := UInt64.toNat_sub_of_le _ _ (UInt64.le_of_lt hlt)
    have hle : new - old ≤ authority.lamports := by
      rw [UInt64.le_iff_toNat_le, hdifference]
      omega
    refine ⟨_, if_pos hle, ?_⟩
    rw [hset, UInt64.toNat_sub_of_le _ _ hle, hdifference]
    rw [UInt64.le_iff_toNat_le, hdifference] at hle
    omega
  · next hge =>
    split
    · next hlt =>
      have hlt' := UInt64.lt_iff_toNat_lt.mp hlt
      have hdifference : (old - new).toNat = old.toNat - new.toNat := UInt64.toNat_sub_of_le _ _ (UInt64.le_of_lt hlt)
      have hfits : authority.lamports.toNat + (old - new).toNat < 2 ^ 64 := by omega
      refine ⟨_, if_pos hfits, ?_⟩
      rw [hset, UInt64.toNat_add, Nat.mod_eq_of_lt hfits, hdifference]
      omega
    · next hle =>
      have hsame : old = new := UInt64.le_antisymm (UInt64.not_lt.mp hle) (UInt64.not_lt.mp hge)
      exact ⟨authority, rfl, by rw [hsame]⟩

theorem finalize_accounts {env : SvmEnv} {target : Pubkey} {flags : StateFlags}
    (haccounts : ctx.accounts = [authority, a, root]) (hkey : ctx.keys[1]? = some target)
    (hload : flags.executable = true → (env.newEntry a.data).isSome) :
    ∃ cache, ctx.finalize env 1 flags =
        ({ ctx with accounts := [authority, a.setFlags flags, root], programCache := cache }, .ok ()) ∧
      ∀ key ≠ target, cache.find key = ctx.programCache.find key := by
  have haccount := a.account_setFlags flags
  have hexecutable : (a.setFlags flags).executable = flags.executable :=
    congrArg (fun account : OwnedAccount => account.core.flags.executable) haccount
  have hdata : (a.setFlags flags).data = a.data := by rw [AccountSharedData.data, haccount]
  simp only [finalize, haccounts, hkey, setAccount, hexecutable, hdata, List.getElem?_cons_succ, List.getElem?_cons_zero,
    List.set_cons_succ, List.set_cons_zero]
  cases hflag : flags.executable with
  | false => exact ⟨ctx.programCache, rfl, fun _ _ => rfl⟩
  | true =>
    obtain ⟨entry, hentry⟩ := Option.isSome_iff_exists.mp (hload hflag)
    rw [hentry]
    refine ⟨ctx.programCache.storeModifiedEntry target entry, rfl, fun key hne => ?_⟩
    simp [ProgramCacheForTxBatch.find, ProgramCacheForTxBatch.storeModifiedEntry, Function.update_of_ne hne]

/-- A top-level frame is entered when there is room for it; without the Instructions sysvar there is nothing to note. -/
theorem push_topLevel {program : Pubkey} (hstack : ctx.stack = [])
    (hprogram : ctx.programKeyAt ctx.traceLength = some program) (hroom : ctx.traceLength < ctx.traceCapacity)
    (hdepth : 0 < ctx.stackCapacity) (hsysvar : ctx.findIndexOfAccount instructionsSysvarId = none) :
    ctx.push = (ctx.opened ctx.accounts, .ok ()) := by
  have hnote (topLevel : Nat) :
      (ctx.entered ctx.accounts).noteCurrentInstruction topLevel = (ctx.entered ctx.accounts, .ok ()) := by
    unfold noteCurrentInstruction
    rw [show (ctx.entered ctx.accounts).findIndexOfAccount instructionsSysvarId = none from hsysvar]
  have hframe : ctx.pushFrame = (ctx.entered ctx.accounts, .ok ()) := by
    unfold pushFrame
    simp only [hstack, List.isEmpty_nil, Bool.not_true, Bool.false_and, Bool.false_eq_true, if_false,
      Nat.not_le.mpr hroom, stackHeight, List.length_nil, Nat.not_le.mpr hdepth]
    refine Eq.trans ?_ (hnote ctx.nextTopLevel)
    simp [entered, grown, hstack, stackHeight]
  simp only [push, hprogram, hstack, List.map_nil, List.contains_nil, Bool.false_and, Bool.false_eq_true, if_false, hframe]
  rfl

/-- An instruction of the message is configured and its frame entered. -/
def called (conf : Configuration) (ctx : InvokeContext) : InvokeContext := (ctx.configureNext conf).opened ctx.accounts

end InvokeContext

namespace Processing

/-- Before the instruction `count` of a transaction that has the authority, the target and MagicRoot for its accounts. -/
structure Between (tx : ResolvedTransaction) (root : AccountSharedData) (count : Nat) (authority a : AccountSharedData)
    (s : Processing) : Prop where
  error : s.error = none
  started : s.started = count
  keys : s.ctx.keys = tx.staticAccountKeys
  accounts : s.ctx.accounts = [authority, a, root]
  programs : s.programs = []
  stack : s.ctx.stack = []
  borrowed : s.ctx.borrowed = []
  trace : s.ctx.trace.length = count + 1
  instructionAccounts : s.ctx.instructionAccounts.length = count
  instructionData : s.ctx.instructionData.length = count
  depth : 0 < s.ctx.stackCapacity
  room : tx.instructions.length ≤ s.ctx.traceCapacity
  balanced : s.ctx.lamportsDelta = 0
  builtin : s.ctx.programCache.find magicRootId = some .builtin

variable {env : SvmEnv} {tx : ResolvedTransaction} {target : Pubkey} {root authority a a' authority' : AccountSharedData}
  {s : Processing} {count : Nat} {data : List UInt8} {cache : ProgramCacheForTxBatch}

section Instruction

variable (hkeys : tx.staticAccountKeys = [env.authority, target, magicRootId])
  (hsysvar : instructionsSysvarId ∉ tx.staticAccountKeys) (hprecompile : env.isPrecompile magicRootId = false)
  (hroot : root.owner ∈ programOwners)

def call (data : List UInt8) : CompiledInstruction := { programIdIndex := 2, accounts := [1], data }

def callConfiguration (tx : ResolvedTransaction) (data : List UInt8) : Configuration where
  programIndex := 2
  accounts := [⟨1, tx.isSigner 1, tx.isWritable 1⟩]
  dedupMap := (List.replicate maxAccountsPerTransaction noPosition).set 1 0
  data := data
  caller := none

theorem prepare_call (tx : ResolvedTransaction) (data : List UInt8) :
    InvokeContext.prepareNextTopLevelInstruction tx (call data) = .ok (callConfiguration tx data) := rfl

/-- MagicRoot as it runs a top-level instruction. -/
def rootState : ProgramState where
  program := magicRootId
  entry := .builtin

theorem Between.traceLength (h : Between tx root count authority a s) : s.ctx.traceLength = count := by
  rw [InvokeContext.traceLength, h.trace, Nat.add_sub_cancel]

theorem Between.reserved (h : Between tx root count authority a s) : s.ctx.trace ≠ [] :=
  List.length_pos_iff.mp (by rw [h.trace]; omega)

theorem Between.programIndex (h : Between tx root count authority a s) (data : List UInt8) :
    ((s.ctx.called (callConfiguration tx data)).frameAt count).programIndex = 2 := by
  have hgrown := (InvokeContext.grown_reserved (s.ctx.configureNext (callConfiguration tx data))).1
  rw [InvokeContext.traceLength_configureNext, InvokeContext.frameAt_configureNext h.reserved, h.traceLength] at hgrown
  exact hgrown

include hkeys in
theorem Between.programKeyAt (h : Between tx root count authority a s) (data : List UInt8) :
    (s.ctx.called (callConfiguration tx data)).programKeyAt count = some magicRootId := by
  have hcalled : (s.ctx.called (callConfiguration tx data)).keys = s.ctx.keys := rfl
  rw [InvokeContext.programKeyAt, h.programIndex, hcalled, h.keys, hkeys]
  rfl

include hkeys hsysvar in
theorem Between.push (h : Between tx root count authority a s) (hroom : count < s.ctx.traceCapacity) :
    (s.ctx.configureNext (callConfiguration tx data)).push = (s.ctx.called (callConfiguration tx data), .ok ()) := by
  have hprogram : (s.ctx.configureNext (callConfiguration tx data)).programKeyAt _ = some magicRootId :=
    (InvokeContext.programKeyAt_configureNext h.reserved _).trans (by rw [h.keys, hkeys]; rfl)
  refine InvokeContext.push_topLevel h.stack hprogram ?_ h.depth ?_
  · rw [InvokeContext.traceLength_configureNext, h.traceLength]
    exact hroom
  · have hnone : s.ctx.findIndexOfAccount instructionsSysvarId = none := by
      rw [InvokeContext.findIndexOfAccount, h.keys, List.findIdx?_eq_none_iff]
      intro key hkey
      exact beq_eq_false_iff_ne.mpr fun heq => hsysvar (heq ▸ hkey)
    exact hnone

theorem Between.currentIndex (h : Between tx root count authority a s) (data : List UInt8) :
    (s.ctx.called (callConfiguration tx data)).currentIndex = some count := by
  have hcurrent : (s.ctx.called (callConfiguration tx data)).currentIndex =
      some (s.ctx.configureNext (callConfiguration tx data)).traceLength := rfl
  rw [hcurrent, InvokeContext.traceLength_configureNext, h.traceLength]

include hkeys hsysvar hprecompile hroot in
theorem Between.start (h : Between tx root count authority a s) (hroom : count < s.ctx.traceCapacity) :
    s.startTopLevel env tx (call data) =
      ({ s with ctx := s.ctx.called (callConfiguration tx data), programs := [rootState] }, .ok ()) := by
  have hkey : (s.ctx.configureNext (callConfiguration tx data)).keys[(call data).programIdIndex]? =
      some magicRootId := by
    rw [show (s.ctx.configureNext (callConfiguration tx data)).keys = s.ctx.keys from rfl, h.keys, hkeys]
    rfl
  have hexecutable : (s.ctx.called (callConfiguration tx data)).executable = some (magicRootId, .builtin) := by
    have haccounts : (s.ctx.called (callConfiguration tx data)).accounts = [authority, a, root] := h.accounts
    have hcache : (s.ctx.called (callConfiguration tx data)).programCache.find magicRootId = some .builtin := h.builtin
    simp [InvokeContext.executable, h.currentIndex, h.programIndex, h.programKeyAt hkeys, haccounts, hcache, hroot,
      ProgramCacheEntry.isExecutable]
  simp only [startTopLevel, prepare_call, hkey, hprecompile, Processing.start, h.push hkeys hsysvar hroom, hexecutable,
    Bool.false_eq_true, if_false, h.programs]
  rfl

theorem Between.frame (h : Between tx root count authority a s) (data : List UInt8) :
    (s.ctx.called (callConfiguration tx data)).dataAt count = data ∧
      (s.ctx.called (callConfiguration tx data)).magicRootTarget = some 1 := by
  have haccounts : (s.ctx.called (callConfiguration tx data)).instructionAccounts = s.ctx.instructionAccounts ++
      [[{ indexInTransaction := 1, isSigner := tx.isSigner 1, isWritable := tx.isWritable 1 }]] := rfl
  have hdata : (s.ctx.called (callConfiguration tx data)).instructionData = s.ctx.instructionData ++ [data] := rfl
  refine ⟨?_, ?_⟩
  · rw [InvokeContext.dataAt, hdata, List.getD_eq_getElem?_getD, ← h.instructionData, List.getElem?_concat_length]
    rfl
  · rw [InvokeContext.magicRootTarget, h.currentIndex, Option.bind_some, InvokeContext.accountsAt, haccounts,
      List.getD_eq_getElem?_getD, ← h.instructionAccounts, List.getElem?_concat_length]
    rfl

include hkeys in
theorem Between.instruction {instruction : MagicRootInstruction} (h : Between tx root count authority a s)
    (hdecode : env.decode data = some instruction) :
    (s.ctx.called (callConfiguration tx data)).magicRootInstruction env = .ok instruction := by
  have hheight : (s.ctx.called (callConfiguration tx data)).stackHeight = 1 := by
    change s.ctx.stack.length + 1 = 1
    rw [h.stack]
    rfl
  have hhead : (s.ctx.called (callConfiguration tx data)).keys.head? = some env.authority := by
    change s.ctx.keys.head? = _
    rw [h.keys, hkeys]
    rfl
  simp [InvokeContext.magicRootInstruction, InvokeContext.authorize, hheight, hhead, h.currentIndex, h.frame, hdecode,
    require, bind, Except.bind]

/-- The instruction has been carried out, and its frame is left. -/
def carriedOut (s : Processing) (tx : ResolvedTransaction) (data : List UInt8) (accounts : List AccountSharedData)
    (cache : ProgramCacheForTxBatch) : InvokeContext :=
  { s.ctx.called (callConfiguration tx data) with accounts, programCache := cache }.pop.1

include hkeys in
/-- MagicRoot carries out the instruction and leaves its frame. -/
theorem Between.magicRootStep {instruction : MagicRootInstruction} {started : Nat}
    (h : Between tx root count authority a s)
    (hdecode : env.decode data = some instruction) (hplain : ∀ program actions, instruction ≠ .postFinalize program actions)
    (hdispatch : (s.ctx.called (callConfiguration tx data)).dispatch env 1 instruction =
      ({ s.ctx.called (callConfiguration tx data) with accounts := [authority', a', root], programCache := cache }, .ok ())) :
    Processing.magicRootStep env { ctx := s.ctx.called (callConfiguration tx data), programs := [rootState], started }
        rootState [] =
      { ctx := s.carriedOut tx data [authority', a', root] cache, started } := by
  have hstack : (s.ctx.called (callConfiguration tx data)).stack = [count] := by
    change _ :: s.ctx.stack = _
    rw [h.stack, InvokeContext.traceLength_configureNext, h.traceLength]
  have hpop : ({ s.ctx.called (callConfiguration tx data) with
      accounts := [authority', a', root], programCache := cache } : InvokeContext).pop.2 = .ok () := by
    have hbalanced : (s.ctx.called (callConfiguration tx data)).lamportsDelta = 0 := h.balanced
    have hborrowed : (s.ctx.called (callConfiguration tx data)).borrowed = [] := h.borrowed
    have hindex := h.programIndex data
    simp only [InvokeContext.pop, hstack, InvokeContext.popResult, InvokeContext.frameAt, hborrowed, hbalanced]
    rw [InvokeContext.frameAt] at hindex
    rw [hindex]
    rfl
  unfold Processing.magicRootStep
  simp only [rootState, h.instruction hkeys hdecode, (h.frame data).2]
  cases instruction with
  | postFinalize program actions => exact absurd rfl (hplain program actions)
  | _ =>
    simp only [hdispatch, leave, hpop]
    rfl

include hkeys hsysvar hprecompile hroot in
theorem Between.run {instruction : MagicRootInstruction} (h : Between tx root count authority a s)
    (hinstruction : tx.instructions[count]? = some (call data))
    (hdecode : env.decode data = some instruction) (hplain : ∀ program actions, instruction ≠ .postFinalize program actions)
    (hdispatch : (s.ctx.called (callConfiguration tx data)).dispatch env 1 instruction =
      ({ s.ctx.called (callConfiguration tx data) with accounts := [authority', a', root], programCache := cache }, .ok ()))
    (hcache : cache.find magicRootId = some .builtin) :
    Between tx root (count + 1) authority' a' (s.run env tx [.topLevel, .magicRoot]) := by
  have hroom := Nat.lt_of_lt_of_le (List.getElem?_eq_some_iff.mp hinstruction).1 h.room
  have hfirst : s.step env tx .topLevel =
      { ctx := s.ctx.called (callConfiguration tx data), programs := [rootState], started := count + 1 } := by
    unfold step
    simp only [h.error, h.programs, h.started, hinstruction, Option.isSome_none, Bool.false_eq_true, if_false,
      h.start hkeys hsysvar hprecompile hroot hroom]
  have hrun : s.run env tx [.topLevel, .magicRoot] =
      { ctx := s.carriedOut tx data [authority', a', root] cache, started := count + 1 } := by
    have hroot : rootState.isMagicRoot = true := rfl
    rw [Processing.run, List.foldl_cons, List.foldl_cons, List.foldl_nil, hfirst]
    unfold step
    simp only [Option.isSome_none, Bool.false_eq_true, if_false, hroot, if_true,
      h.magicRootStep hkeys hdecode hplain hdispatch]
  have hstack : (s.ctx.called (callConfiguration tx data)).stack.tail = [] := h.stack
  rw [hrun]
  refine ⟨rfl, rfl, h.keys, rfl, rfl, hstack, h.borrowed, ?_, ?_, ?_, h.depth, h.room, h.balanced, hcache⟩
  · have hgrown := (s.ctx.configureNext (callConfiguration tx data)).length_grown
    rw [InvokeContext.length_configureNext, h.trace] at hgrown
    exact hgrown
  · exact List.length_append.trans (by rw [h.instructionAccounts]; rfl)
  · exact List.length_append.trans (by rw [h.instructionData]; rfl)

def steps (count : Nat) : List Action := (List.replicate count [.topLevel, .magicRoot]).flatten

theorem run_steps_succ (count : Nat) :
    s.run env tx (steps (count + 1)) = (s.run env tx [.topLevel, .magicRoot]).run env tx (steps count) := by
  rw [steps, List.replicate_succ, List.flatten_cons, Processing.run, List.foldl_append]
  rfl

theorem steps_succ_eq (count : Nat) :
    s.run env tx (steps (count + 1)) = (s.run env tx (steps count)).run env tx [.topLevel, .magicRoot] := by
  rw [steps, List.replicate_succ', List.flatten_append, Processing.run, List.foldl_append]
  rfl

/-- Instruction `count` of the message calls MagicRoot with this. -/
def Calls (env : SvmEnv) (tx : ResolvedTransaction) (count : Nat) (instruction : MagicRootInstruction) : Prop :=
  ∃ data, tx.instructions[count]? = some (call data) ∧ env.decode data = some instruction

include hkeys hsysvar hprecompile hroot in
theorem Between.patch {patch : AccountFieldPatch} (h : Between tx root count authority a s)
    (hcall : Calls env tx count (.patch patch))
    (hfits : ∀ len, InvokeContext.patchedLength a patch = some len → len ≤ maxAccountDataLen)
    (happly : patch.apply a = .ok a')
    (hbalance : InvokeContext.balance authority a.lamports a'.lamports = some authority') :
    Between tx root (count + 1) authority' a' (s.run env tx [.topLevel, .magicRoot]) := by
  obtain ⟨data, hinstruction, hdecode⟩ := hcall
  have haccounts : (s.ctx.called (callConfiguration tx data)).accounts = [authority, a, root] := h.accounts
  exact h.run hkeys hsysvar hprecompile hroot hinstruction hdecode (by simp)
    (InvokeContext.patch_accounts haccounts hfits happly hbalance) h.builtin

include hkeys hsysvar hprecompile hroot in
/-- The patches are carried out one by one, and each keeps the lamports of authority and target together. -/
theorem Between.rewrites {patches : List AccountFieldPatch} {total : Nat} (hrewrites : Rewrites a patches a')
    (h : Between tx root count authority a s)
    (hcalls : ∀ i patch, patches[i]? = some patch → Calls env tx (count + i) (.patch patch))
    (htotal : authority.lamports.toNat + a.lamports.toNat = total) (hlt : total < 2 ^ 64)
    (hcovers : ∀ value, .lamports value ∈ patches → value.toNat ≤ total) :
    ∀ k ≤ patches.length, ∃ authority' b, Between tx root (count + k) authority' b (s.run env tx (steps k)) ∧
      authority'.lamports.toNat + b.lamports.toNat = total ∧ (k = patches.length → b = a') := by
  induction hrewrites generalizing count authority s with
  | done a =>
    intro k hk
    obtain rfl := Nat.le_zero.mp hk
    exact ⟨authority, a, h, htotal, fun _ => rfl⟩
  | @step a a₁ a' patch rest hfits happly hrest ih =>
    intro k hk
    cases k with
    | zero => exact ⟨authority, a, h, htotal, fun hzero => nomatch hzero⟩
    | succ k =>
      have hnew : a₁.lamports.toNat ≤ total := by
        rw [AccountFieldPatch.lamports_apply happly]
        cases patch with
        | lamports value => exact hcovers value List.mem_cons_self
        | _ => exact htotal ▸ Nat.le_add_left _ _
      obtain ⟨authority₁, hbalance, hsum⟩ := InvokeContext.balance_covered authority (htotal ▸ hnew) (htotal ▸ hlt)
      have h₁ := h.patch hkeys hsysvar hprecompile hroot (hcalls 0 patch rfl) hfits happly hbalance
      obtain ⟨authority₂, b, h₂, hsum₂, hlast⟩ := ih h₁
        (fun i patch hi => by have := hcalls (i + 1) patch hi; rwa [show count + (i + 1) = count + 1 + i by omega] at this)
        (hsum.trans htotal) (fun value hvalue => hcovers value (List.mem_cons_of_mem _ hvalue)) k (Nat.le_of_succ_le_succ hk)
      refine ⟨authority₂, b, ?_, hsum₂, fun hlength => hlast (Nat.succ.inj hlength)⟩
      rw [run_steps_succ, show count + (k + 1) = count + 1 + k by omega]
      exact h₂

include hkeys hsysvar hprecompile hroot in
theorem Between.finalize {flags : StateFlags} (h : Between tx root count authority a s)
    (hcall : Calls env tx count (.finalize flags)) (hload : flags.executable = true → (env.newEntry a.data).isSome) :
    Between tx root (count + 1) authority (a.setFlags flags) (s.run env tx [.topLevel, .magicRoot]) := by
  obtain ⟨data, hinstruction, hdecode⟩ := hcall
  have haccounts : (s.ctx.called (callConfiguration tx data)).accounts = [authority, a, root] := h.accounts
  have hkey : (s.ctx.called (callConfiguration tx data)).keys[1]? = some target := by
    change s.ctx.keys[1]? = _
    rw [h.keys, hkeys]
    rfl
  obtain ⟨cache, hfinalize, hcache⟩ := InvokeContext.finalize_accounts haccounts hkey hload
  have hne : magicRootId ≠ target := by
    have hnodup := tx.keys_nodup
    rw [hkeys] at hnodup
    intro heq
    simp [heq] at hnodup
  exact h.run hkeys hsysvar hprecompile hroot hinstruction hdecode (by simp) hfinalize ((hcache _ hne).trans h.builtin)

end Instruction

/-! ### The whole composition -/

theorem between_init (authority prior program : OwnedAccount) {depth limit : Nat}
    (hbuiltin : cache.find magicRootId = some .builtin) (hdepth : 0 < depth) (hroom : tx.instructions.length ≤ limit) :
    Between tx { account := program } 0 { account := authority } { account := prior }
      (init tx [authority, prior, program] (depth, limit) cache) where
  error := rfl
  started := rfl
  keys := rfl
  accounts := rfl
  programs := rfl
  stack := rfl
  borrowed := rfl
  trace := rfl
  instructionAccounts := rfl
  instructionData := rfl
  depth := hdepth
  room := hroom
  balanced := rfl
  builtin := hbuiltin

end Processing

namespace MagicRootInstruction

variable {serialize : MagicRootInstruction → Option (List UInt8)} {env : SvmEnv} {target : Pubkey} {source : OwnedAccount}
  {composed : List Instruction}

private theorem forall₂_of_mapM {α β : Type} {f : α → Option β} {xs : List α} {ys : List β} (h : xs.mapM f = some ys) :
    List.Forall₂ (fun x y => f x = some y) xs ys := by
  induction xs generalizing ys with
  | nil =>
    obtain rfl := Option.some.inj h
    exact .nil
  | cons x rest ih =>
    rw [List.mapM_cons] at h
    obtain ⟨y, hy, h⟩ := Option.bind_eq_some_iff.mp h
    obtain ⟨zs, hzs, h⟩ := Option.bind_eq_some_iff.mp h
    obtain rfl := Option.some.inj h
    exact .cons hy (ih hzs)

theorem forAccount_patch {i : Nat} {patch : AccountFieldPatch} (hi : (AccountFieldPatch.sequence source)[i]? = some patch) :
    (forAccount source)[i]? = some (.patch patch) := by
  have hlt := (List.getElem?_eq_some_iff.mp hi).1
  rw [forAccount, List.getElem?_append_left (by simpa using hlt), List.getElem?_map, hi, Option.map_some]

theorem forAccount_last (source : OwnedAccount) :
    (forAccount source)[(AccountFieldPatch.sequence source).length]? = some (.finalize source.core.flags) := by
  simp [forAccount]

theorem length_forAccount (h : source.data.length ≤ maxAccountDataLen) :
    (forAccount source).length ≤ View.magicblockInstructionTraceLength := by
  have hlength : (forAccount source).length = AccountFieldPatch.chunkCount source.data + 6 := by
    simp [forAccount, AccountFieldPatch.sequence, AccountFieldPatch.dataSequence_eq]
  unfold AccountFieldPatch.chunkCount maxDataChunkSize at hlength
  unfold maxAccountDataLen at h
  unfold View.magicblockInstructionTraceLength
  omega

theorem compile_composed {instruction : MagicRootInstruction} {composed : Instruction} {authority : Pubkey}
    (hnodup : [authority, target, magicRootId].Nodup) (hplain : ∀ program actions, instruction ≠ .postFinalize program actions)
    (hcompose : instruction.compose serialize target = some composed) :
    ∃ data, serialize instruction = some data ∧
      composed.compile [authority, target, magicRootId] = Processing.call data := by
  obtain ⟨data, hdata, heq⟩ := Option.bind_eq_some_iff.mp hcompose
  obtain rfl := Option.some.inj heq
  have hmetas (accounts : List AccountMeta) : instruction.extendMetas accounts = accounts := by
    cases instruction with
    | postFinalize program actions => exact absurd rfl (hplain program actions)
    | _ => rfl
  refine ⟨data, hdata, ?_⟩
  simp only [List.nodup_cons, List.mem_cons, List.not_mem_nil, or_false, not_or] at hnodup
  obtain ⟨⟨hauthority, hroot⟩, htarget, -⟩ := hnodup
  have hauthority' : (authority == target) = false := beq_eq_false_iff_ne.mpr hauthority
  simp [Instruction.compile, hmetas, Processing.call, List.idxOf_cons, hauthority', hroot, htarget]

theorem calls_of_composeAccount {tx : ResolvedTransaction}
    (hserializer : ∀ instruction data, serialize instruction = some data → env.decode data = some instruction)
    (hkeys : tx.staticAccountKeys = [env.authority, target, magicRootId])
    (hcompose : composeAccount serialize target source = some composed)
    (hinstructions : tx.instructions = composed.map (·.compile tx.staticAccountKeys)) {i : Nat}
    {instruction : MagicRootInstruction} (hi : (forAccount source)[i]? = some instruction) :
    Processing.Calls env tx i instruction := by
  obtain ⟨hlt, rfl⟩ := List.getElem?_eq_some_iff.mp hi
  have hall := forall₂_of_mapM hcompose
  have hlt' : i < composed.length := hall.length_eq ▸ hlt
  have hplain : ∀ program actions, (forAccount source)[i] ≠ .postFinalize program actions := by
    intro program actions heq
    have hmem := List.getElem_mem hlt
    rw [heq] at hmem
    simp [forAccount] at hmem
  obtain ⟨data, hdata, hcompile⟩ := compile_composed (hkeys ▸ tx.keys_nodup) hplain (hall.get hlt hlt')
  refine ⟨data, ?_, hserializer _ _ hdata⟩
  rw [hinstructions, List.getElem?_map, List.getElem?_eq_getElem hlt', Option.map_some, hkeys]
  exact congrArg some hcompile

end MagicRootInstruction

/-! ### Storage forms -/

def AccountFieldPatch.mutator : AccountFieldPatch → Raw.Mutator
  | .lamports value => .setLamports value
  | .owner value => .setOwner value
  | .dataAt offset data => .setDataAt offset data
  | .lifecycle mode slot => .setLifecycle mode (UInt64.ofNat slot)
  | .dataLen len => .resize len 0
  | .commitSeq value => .setCommitSeq value

/-- The mutators that the composed instructions call on the target. -/
def MagicRootInstruction.mutators (source : OwnedAccount) : List Raw.Mutator :=
  (AccountFieldPatch.sequence source).map AccountFieldPatch.mutator ++ [.setFlags source.core.flags]

theorem AccountFieldPatch.value_mutator {patch : AccountFieldPatch} {a a' : AccountSharedData} (happly : patch.apply a = .ok a')
    (hslot : ∀ mode slot, patch = .lifecycle mode slot → slot < 2 ^ 64) : (patch.mutator.value a).1 = a' := by
  cases patch with
  | lifecycle mode slot =>
    have hmod : slot % 2 ^ 64 = slot := Nat.mod_eq_of_lt (hslot mode slot rfl)
    have happly' : a.setLifecycle mode slot = .ok a' := happly
    simp only [mutator, Raw.Mutator.value, UInt64.toNat_ofNat', hmod, happly']
  | _ => exact Except.ok.inj happly

open Raw in
/-- In whatever form an account is stored, the mutators leave it with the rewritten value. -/
theorem Rewrites.represents {p : Parts} {buf : Buffer} {account : Account} {a a' : AccountSharedData}
    {patches : List AccountFieldPatch} (h : Rewrites a patches a') (hrepresents : Represents p buf account a)
    (hslot : ∀ mode slot, .lifecycle mode slot ∈ patches → slot < 2 ^ 64) (rest : List Mutator) :
    ∃ buf' account', Represents p buf' account' a' ∧
      applyAll buf account (patches.map AccountFieldPatch.mutator ++ rest) = applyAll buf' account' rest := by
  induction h generalizing buf account with
  | done a => exact ⟨buf, account, hrepresents, rfl⟩
  | @step a a₁ a' patch patches hfits happly hrest ih =>
    obtain ⟨buf₁, account₁, hmutator, h₁⟩ := hrepresents.apply patch.mutator
    rw [AccountFieldPatch.value_mutator happly fun mode slot heq => hslot mode slot (heq ▸ List.mem_cons_self)] at h₁
    obtain ⟨buf₂, account₂, h₂, hrest⟩ := ih h₁ fun mode slot hmem => hslot mode slot (List.mem_cons_of_mem _ hmem)
    refine ⟨buf₂, account₂, h₂, ?_⟩
    rw [← hrest, List.map_cons, List.cons_append, applyAll, hmutator]
    rfl

namespace Runtime

open Processing

theorem error_eq_none_of_accessIsValid {rt : Runtime} {e : EngineState} {tx : ResolvedTransaction}
    {executed : ExecutedTransaction} (h : (rt.process e tx).2 = .ok executed) (hvalid : executed.accessIsValid = true) :
    executed.processing.error = none := by
  unfold process at h
  split at h
  · cases h
  next details hdetails =>
  split at h
  · cases h
  next accounts hload =>
  obtain rfl := Except.ok.inj h
  simp only [executeLoaded, accessIsValid, wasSuccessful, finished, Bool.and_eq_true, Option.isNone_iff_eq_none] at hvalid
  exact hvalid.1.1.1.1.1

theorem accounts_execute_of_error {rt : Runtime} {e : EngineState} {tx : ResolvedTransaction}
    (h : ∀ executed, (rt.process e tx).2 = .ok executed → executed.processing.error.isSome) :
    (rt.execute e tx).1.accounts = e.accounts := by
  have hvalid := @error_eq_none_of_accessIsValid rt e tx
  unfold execute
  generalize rt.process e tx = processed at h hvalid
  obtain ⟨cache, result⟩ := processed
  cases result with
  | error err => rfl
  | ok executed =>
    refine if_neg fun haccess => ?_
    have herror := h executed rfl
    rw [hvalid rfl haccess] at herror
    cases herror

end Runtime

/-! ### Reconstruction -/

section Reconstruction

open Processing MagicRootInstruction

variable {env : SvmEnv} {tx : ResolvedTransaction} {serialize : MagicRootInstruction → Option (List UInt8)} {target : Pubkey}
  {source program : OwnedAccount} {cache : ProgramCacheForTxBatch}

/-- A transaction of the authority with the instructions that rebuild `source` on the target, and what it runs with. -/
structure Composes (env : SvmEnv) (serialize : MagicRootInstruction → Option (List UInt8)) (tx : ResolvedTransaction)
    (target : Pubkey) (source program : OwnedAccount) (cache : ProgramCacheForTxBatch) : Prop where
  keys : tx.staticAccountKeys = [env.authority, target, magicRootId]
  instructions : ∃ composed, composeAccount serialize target source = some composed ∧
    tx.instructions = composed.map (·.compile tx.staticAccountKeys)
  sysvar : instructionsSysvarId ∉ tx.staticAccountKeys
  owner : program.core.owner ∈ programOwners
  builtin : cache.find magicRootId = some .builtin

/-- The instructions that compose an account succeed one after the other and rebuild it, with nothing left of what the
target held before; after each of them authority and target have the lamports they had together. The same mutators rebuild
the account in any form of storage. When an instruction fails, the transaction commits nothing. -/
theorem compose_account_reconstructs (authority prior : OwnedAccount) (depth : Nat)
    (hserializer : ∀ instruction data, serialize instruction = some data → env.decode data = some instruction)
    (hprecompile : env.isPrecompile magicRootId = false) (hcomposes : Composes env serialize tx target source program cache)
    (hdepth : 0 < depth) (hmax : source.data.length ≤ maxAccountDataLen) (hslot : source.core.slot < 2 ^ 64)
    (hlifecycle : prior.core.mode.validateTransition source.core.mode prior.core.slot source.core.slot = .ok ())
    (hcovers : source.core.lamports.toNat ≤ authority.core.lamports.toNat + prior.core.lamports.toNat)
    (hholds : authority.core.lamports.toNat + prior.core.lamports.toNat < 2 ^ 64)
    (hload : source.core.flags.executable = true → (env.newEntry source.data).isSome) :
    (∀ k ≤ tx.instructions.length, ∃ authority' a, Between tx { account := program } k authority' a
        ((init tx [authority, prior, program] (depth, View.magicblockInstructionTraceLength) cache).run env tx (steps k)) ∧
      authority'.lamports.toNat + a.lamports.toNat = authority.core.lamports.toNat + prior.core.lamports.toNat ∧
      (k = tx.instructions.length → a.account = source)) ∧
    (∀ p buf account, Raw.Represents p buf account { account := prior } → ∃ buf' account' a,
      Raw.applyAll buf account (mutators source) = some (buf', account') ∧ Raw.Represents p buf' account' a ∧
        a.account = source) ∧
    ∀ (rt : Runtime) (e : EngineState),
      (∀ executed, (rt.process e tx).2 = .ok executed → executed.processing.error.isSome) →
        (rt.execute e tx).1.accounts = e.accounts := by
  obtain ⟨hkeys, ⟨composed, hcompose, hinstructions⟩, hsysvar, howner, hbuiltin⟩ := hcomposes
  obtain ⟨a, hrewrites, haccount⟩ := AccountFieldPatch.rewrites_sequence (a := { account := prior }) source hmax hlifecycle
  have hfinal : (a.setFlags source.core.flags).account = source := by
    rw [a.account_setFlags, AccountSharedData.core, AccountSharedData.data, haccount]
  refine ⟨?_, ?_, fun rt e => Runtime.accounts_execute_of_error⟩
  · have hlength := (forall₂_of_mapM hcompose).length_eq
    have hcount : tx.instructions.length = (forAccount source).length := by
      rw [hinstructions, List.length_map, hlength]
    have hsucc : (forAccount source).length = (AccountFieldPatch.sequence source).length + 1 := by simp [forAccount]
    have hcalls {i : Nat} {instruction : MagicRootInstruction} (hi : (forAccount source)[i]? = some instruction) :=
      calls_of_composeAccount hserializer hkeys hcompose hinstructions hi
    have hroom : tx.instructions.length ≤ View.magicblockInstructionTraceLength := hcount ▸ length_forAccount hmax
    have hstart := between_init authority prior program hbuiltin hdepth hroom
    have howner' : AccountSharedData.owner { account := program } ∈ programOwners := howner
    have hpatches := hstart.rewrites hkeys hsysvar hprecompile howner' hrewrites
      (fun i patch hi => (Nat.zero_add i).symm ▸ hcalls (forAccount_patch hi)) rfl hholds
      (fun value hvalue => AccountFieldPatch.lamports_mem_sequence.mp hvalue ▸ hcovers)
    intro k hk
    rcases Nat.lt_or_eq_of_le (hk.trans (Nat.le_of_eq (hcount.trans hsucc))) with hlt | rfl
    · obtain ⟨authority', b, hbetween, hsum, -⟩ := hpatches k (Nat.le_of_lt_succ hlt)
      rw [Nat.zero_add] at hbetween
      exact ⟨authority', b, hbetween, hsum, fun heq => by omega⟩
    · obtain ⟨authority', b, hbetween, hsum, hlast⟩ := hpatches _ (Nat.le_refl _)
      obtain rfl := hlast rfl
      rw [Nat.zero_add] at hbetween
      have hdata : b.data = source.data := by rw [AccountSharedData.data, haccount]
      have hlamports : (b.setFlags source.core.flags).lamports = b.lamports := by
        rw [AccountSharedData.lamports, AccountSharedData.core, b.account_setFlags]
        rfl
      have hfinalize := hbetween.finalize hkeys hsysvar hprecompile howner' (hcalls (forAccount_last source))
        (hdata ▸ hload)
      rw [← steps_succ_eq] at hfinalize
      exact ⟨authority', _, hfinalize, hlamports ▸ hsum, fun _ => hfinal⟩
  · intro p buf account hrepresents
    obtain ⟨buf₁, account₁, h₁, happly₁⟩ := hrewrites.represents hrepresents
      (fun mode slot hmem => (AccountFieldPatch.lifecycle_mem_sequence.mp hmem).2 ▸ hslot) [.setFlags source.core.flags]
    obtain ⟨buf₂, account₂, hflags, h₂⟩ := h₁.apply (.setFlags source.core.flags)
    refine ⟨buf₂, account₂, a.setFlags source.core.flags, ?_, h₂, hfinal⟩
    rw [mutators, happly₁, Raw.applyAll, hflags]
    rfl

/-- An account that is moved from its mirror to the delegated state, with fewer lamports and less data. -/
def delegatedAccount : OwnedAccount where
  core := { lamports := 3, owner := ⟨9⟩, slot := 4, commitSeq := 5, mode := .delegated, flags := ⟨2⟩ }
  data := [7, 8]

def mirroredAccount : OwnedAccount where
  core := { lamports := 10, owner := ⟨8⟩, slot := 2, mode := .mirrored }
  data := [1, 2, 3]

/-- A serializer of the instructions that compose the account. -/
def delegatedSerialize (instruction : MagicRootInstruction) : Option (List UInt8) :=
  if instruction ∈ forAccount delegatedAccount then
    some (List.replicate ((forAccount delegatedAccount).idxOf instruction) 0)
  else none

def delegatedEnv : SvmEnv where
  authority := ⟨1⟩
  environment := 0
  verify _ _ := true
  decode data := (forAccount delegatedAccount)[data.length]?
  isExempt _ _ := true
  rentStateVerified _ _ := true
  isPrecompile _ := false
  processPrecompile _ _ _ := false

theorem delegatedEnv_decode (instruction : MagicRootInstruction) (data : List UInt8)
    (h : delegatedSerialize instruction = some data) : delegatedEnv.decode data = some instruction := by
  unfold delegatedSerialize at h
  split at h
  · next hmem =>
    obtain rfl := Option.some.inj h
    change (forAccount delegatedAccount)[(List.replicate _ _).length]? = _
    rw [List.length_replicate, List.getElem?_eq_getElem (List.idxOf_lt_length_of_mem hmem), List.getElem_idxOf]
  · cases h

private theorem delegated_nodup : [⟨1⟩, ⟨2⟩, magicRootId].Nodup := by decide

def delegatedTransaction : ResolvedTransaction where
  signatures := [⟨0⟩]
  numRequiredSignatures := 1
  staticAccountKeys := [⟨1⟩, ⟨2⟩, magicRootId]
  instructions := ((composeAccount delegatedSerialize ⟨2⟩ delegatedAccount).getD []).map
    (·.compile [⟨1⟩, ⟨2⟩, magicRootId])
  writableCache := 3
  keys_nodup := delegated_nodup

def nativeProgram : OwnedAccount where
  core := { owner := nativeLoaderId, mode := .runtime, flags := ⟨1⟩ }

def builtinCache : ProgramCacheForTxBatch where
  entries key := if key = magicRootId then some .builtin else none
  modifiedEntries _ := none

theorem delegatedTransaction_composes :
    Composes delegatedEnv delegatedSerialize delegatedTransaction ⟨2⟩ delegatedAccount nativeProgram builtinCache where
  keys := rfl
  instructions := ⟨(composeAccount delegatedSerialize ⟨2⟩ delegatedAccount).getD [], by decide, rfl⟩
  sysvar := by decide
  owner := by decide
  builtin := by decide

/-- The authority takes back seven lamports. -/
theorem compose_account_reconstructs_delegated : ∃ s a,
    s = (init delegatedTransaction [{ core := { lamports := 50 } }, mirroredAccount, nativeProgram]
      (5, View.magicblockInstructionTraceLength) builtinCache).run delegatedEnv delegatedTransaction (steps 7) ∧
    s.finished delegatedTransaction ∧ s.ctx.accounts[1]? = some a ∧ a.account = delegatedAccount := by
  have hcount : delegatedTransaction.instructions.length = 7 := by decide
  have h := compose_account_reconstructs { core := { lamports := 50 } } mirroredAccount 5 delegatedEnv_decode rfl
    delegatedTransaction_composes (by decide) (by decide) (by decide) (by decide) (by decide) (by decide) (by decide)
  obtain ⟨authority', a, hbetween, -, haccount⟩ := h.1 7 (Nat.le_of_eq hcount.symm)
  refine ⟨_, a, rfl, ?_, ?_, haccount hcount.symm⟩
  · rw [finished, hbetween.error, hbetween.programs, hbetween.started, hcount]
    rfl
  · rw [hbetween.accounts]
    rfl

/-- An authority that already has all lamports there can be does not take any back: the first instruction fails. -/
theorem full_authority_fails :
    mirroredAccount.core.mode.validateTransition delegatedAccount.core.mode mirroredAccount.core.slot
      delegatedAccount.core.slot = .ok () ∧
    delegatedAccount.core.lamports ≤ mirroredAccount.core.lamports ∧
    Composes delegatedEnv delegatedSerialize delegatedTransaction ⟨2⟩ delegatedAccount nativeProgram builtinCache ∧
    ((init delegatedTransaction [{ core := { lamports := 18446744073709551615 } }, mirroredAccount, nativeProgram]
      (5, View.magicblockInstructionTraceLength) builtinCache).run delegatedEnv delegatedTransaction (steps 1)).error =
        some .arithmeticOverflow :=
  ⟨by decide, by decide, delegatedTransaction_composes, by decide⟩

end Reconstruction

end MagicEngine
