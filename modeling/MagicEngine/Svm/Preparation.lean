import MagicEngine.Transaction

/-!
# Prepared instructions

Before an instruction is pushed, `prepare_next_top_level_instruction` or `prepare_next_cpi_instruction`
(`solana/program-runtime/src/invoke_context.rs`) lists its accounts and builds a map next to them: one 16-bit entry per
transaction account, which holds the position of the account's first occurrence. Repetitions, the caller's flags and the
program account are all looked up through these maps, so what a chain of invocations grants depends on them (`Confined`).

An entry that was never set holds `u16::MAX`, and whether it is set is decided by comparing it with the number of
accounts so far. Beyond 65535 accounts an account that is not listed yet is taken for a repetition.
-/

namespace MagicEngine

inductive InstructionError where
  | missingAccount
  | callDepth
  | unsupportedProgramId
  | reentrancyNotAllowed
  | unbalancedInstruction
  | maxInstructionTraceLengthExceeded
  | invalidAccountOwner
  | accountDataTooSmall
  | privilegeEscalation
  | modifiedProgramId
  | externalAccountLamportSpend
  | readonlyLamportChange
  | readonlyDataModified
  | externalAccountDataModified
  | accountDataSizeChanged
  | invalidRealloc
  | maxAccountsDataAllocationsExceeded
  | executableAccountNotRentExempt
  | executableModified
  | immutable
  | arithmeticOverflow
  | accountBorrowFailed
  | accountBorrowOutstanding
  | invalidArgument
  | missingRequiredSignature
  | invalidInstructionData
  | programEnvironmentSetupFailure
  | programFailed
  | custom (code : Nat)
deriving DecidableEq, Repr

structure InstructionAccount where
  indexInTransaction : Nat
  isSigner : Bool
  isWritable : Bool
deriving DecidableEq, Repr

def InstructionAccount.widen (a : InstructionAccount) (isSigner isWritable : Bool) : InstructionAccount :=
  { a with isSigner := a.isSigner || isSigner, isWritable := a.isWritable || isWritable }

structure AccountMeta where
  pubkey : Pubkey
  isSigner : Bool
  isWritable : Bool
deriving DecidableEq, Repr

/-- An instruction as a program composes it for an invocation. -/
structure Instruction where
  programId : Pubkey
  accounts : List AccountMeta
  data : List UInt8
deriving DecidableEq, Repr

/-- The first occurrence of an account among the accounts of an instruction. -/
def indexInInstruction (accounts : List InstructionAccount) (indexInTransaction : Nat) : Option Nat :=
  accounts.findIdx? (·.indexInTransaction == indexInTransaction)

theorem modify_concat {α : Type} (l : List α) (a : α) (f : α → α) : (l ++ [a]).modify l.length f = l ++ [f a] := by
  simp [List.modify_eq_take_drop]

section IndexInInstruction

variable {accounts : List InstructionAccount} {index first : Nat}

theorem indexInInstruction_eq_map (accounts : List InstructionAccount) (index : Nat) :
    indexInInstruction accounts index = (accounts.map (·.indexInTransaction)).findIdx? (· == index) := by
  simp [indexInInstruction, List.findIdx?_map, Function.comp_def]

theorem indices_widen (accounts : List InstructionAccount) (n : Nat) (s w : Bool) :
    (accounts.modify n (·.widen s w)).map (·.indexInTransaction) = accounts.map (·.indexInTransaction) := by
  apply List.ext_getElem?
  intro j
  simp only [List.getElem?_map, List.getElem?_modify, Option.map_eq_map, Option.map_map]
  congr 1
  funext a
  simp only [Function.comp_apply]
  split <;> rfl

theorem indexInInstruction_widen (accounts : List InstructionAccount) (n : Nat) (s w : Bool) (index : Nat) :
    indexInInstruction (accounts.modify n (·.widen s w)) index = indexInInstruction accounts index := by
  rw [indexInInstruction_eq_map, indices_widen, ← indexInInstruction_eq_map]

theorem indexInInstruction_some (h : indexInInstruction accounts index = some first) :
    ∃ a, accounts[first]? = some a ∧ a.indexInTransaction = index := by
  obtain ⟨hlt, heq, -⟩ := List.findIdx?_eq_some_iff_getElem.mp h
  exact ⟨accounts[first], List.getElem?_eq_getElem hlt, by simpa using heq⟩

theorem indexInInstruction_lt (h : indexInInstruction accounts index = some first) : first < accounts.length :=
  (List.findIdx?_eq_some_iff_getElem.mp h).1

theorem indexInInstruction_append (accounts : List InstructionAccount) (a : InstructionAccount) (index : Nat) :
    indexInInstruction (accounts ++ [a]) index =
      (indexInInstruction accounts index).or (if a.indexInTransaction = index then some accounts.length else none) := by
  unfold indexInInstruction
  rw [List.findIdx?_append]
  by_cases h : a.indexInTransaction = index <;> simp [h]

theorem exists_first {i : Nat} {a : InstructionAccount} (ha : accounts[i]? = some a) :
    ∃ first ≤ i, indexInInstruction accounts a.indexInTransaction = some first := by
  obtain ⟨hi, rfl⟩ := List.getElem?_eq_some_iff.mp ha
  cases h : indexInInstruction accounts accounts[i].indexInTransaction with
  | none => simpa using List.findIdx?_eq_none_iff.mp h accounts[i] (List.getElem_mem hi)
  | some first =>
    refine ⟨first, ?_, rfl⟩
    obtain ⟨hfirst, heq, hbefore⟩ := List.findIdx?_eq_some_iff_getElem.mp h
    by_contra hlt
    simpa using hbefore i (Nat.lt_of_not_le hlt)

end IndexInInstruction

def maxAccountsPerTransaction : Nat := 256

/-- `u16::MAX`, the entry of an account that has no position. -/
def noPosition : Nat := 65535

inductive PreparationError where
  /-- An index past the deduplication map. -/
  | panic
  | error (e : InstructionError)
deriving DecidableEq, Repr

/-- What the caller of a preparation sees; a panic ends the program. -/
def PreparationError.failure : PreparationError → InstructionError
  | .panic => .programFailed
  | .error e => e

inductive Privilege where
  | signer
  | writable
deriving DecidableEq, Repr

def InstructionAccount.flag (a : InstructionAccount) : Privilege → Bool
  | .signer => a.isSigner
  | .writable => a.isWritable

def AccountMeta.flag (m : AccountMeta) : Privilege → Bool
  | .signer => m.isSigner
  | .writable => m.isWritable

structure PreparedInstruction where
  accounts : List InstructionAccount := []
  dedupMap : List Nat := List.replicate maxAccountsPerTransaction noPosition
deriving DecidableEq, Repr

namespace PreparedInstruction

def positionOf (p : PreparedInstruction) (index : Nat) : Option Nat :=
  (p.dedupMap[index]?).filter (· < p.accounts.length)

/-- The loop body of `prepare_next_top_level_instruction`. -/
def addIndex (tx : ResolvedTransaction) (p : PreparedInstruction) (index : Nat) :
    Except PreparationError PreparedInstruction :=
  match p.dedupMap[index]? with
  | none => .error .panic
  | some position =>
    .ok
      { accounts := p.accounts ++ [⟨index, tx.isSigner index, tx.isWritable index⟩]
        dedupMap :=
          if position > p.accounts.length then p.dedupMap.set index (p.accounts.length % 2 ^ 16) else p.dedupMap }

def prepareTopLevel (tx : ResolvedTransaction) (instruction : CompiledInstruction) :
    Except PreparationError PreparedInstruction :=
  instruction.accounts.foldlM (addIndex tx) {}

/-- The first loop of `prepare_next_cpi_instruction`: a repetition widens the first occurrence and is a copy of it. -/
def addMeta (keys : List Pubkey) (p : PreparedInstruction) (m : AccountMeta) :
    Except PreparationError PreparedInstruction :=
  match keys.findIdx? (· == m.pubkey) with
  | none => .error (.error .missingAccount)
  | some index =>
    match p.dedupMap[index]? with
    | none => .error .panic
    | some position =>
      if position < p.accounts.length then
        let accounts := p.accounts.modify position (·.widen m.isSigner m.isWritable)
        .ok { p with accounts := accounts ++ (accounts[position]?).toList }
      else
        .ok
          { accounts := p.accounts ++ [⟨index, m.isSigner, m.isWritable⟩]
            dedupMap := p.dedupMap.set index (p.accounts.length % 2 ^ 16) }

/-- The second loop, at position `current`: a repetition takes over the flags of the first occurrence, which is
checked against the caller. -/
def checkAccount (caller : PreparedInstruction) (metas : List AccountMeta) (signers : List Pubkey)
    (p : PreparedInstruction) (current : Nat) : Except PreparationError PreparedInstruction :=
  match p.accounts[current]? with
  | none => .error .panic
  | some a =>
    match p.dedupMap[a.indexInTransaction]? with
    | none => .error .panic
    | some position =>
      if current ≠ position then
        match p.accounts[position]? with
        | none => .error (.error .missingAccount)
        | some reference =>
          .ok { p with accounts := p.accounts.set current (a.widen reference.isSigner reference.isWritable) }
      else
        match caller.positionOf a.indexInTransaction with
        | none => .error (.error .missingAccount)
        | some inCaller =>
          match caller.accounts[inCaller]?, metas[current]? with
          | some c, some m =>
            if a.isWritable && !c.isWritable then .error (.error .privilegeEscalation)
            else if a.isSigner && !(c.isSigner || signers.contains m.pubkey) then
              .error (.error .privilegeEscalation)
            else .ok p
          | _, _ => .error .panic

def prepareCpi (keys : List Pubkey) (caller : PreparedInstruction) (instruction : Instruction)
    (signers : List Pubkey) : Except PreparationError PreparedInstruction := do
  let p ← instruction.accounts.foldlM (addMeta keys) {}
  let p ← (List.range p.accounts.length).foldlM (checkAccount caller instruction.accounts signers) p
  match keys.findIdx? (· == instruction.programId) with
  | none => .error (.error .missingAccount)
  | some programIndex =>
    if (caller.positionOf programIndex).isNone then .error (.error .missingAccount) else .ok p

/-! ### The map holds first positions -/

/-- The entry of every account is the position of its first occurrence. -/
structure Tracks (p : PreparedInstruction) : Prop where
  size : p.dedupMap.length = maxAccountsPerTransaction
  entry : ∀ index < maxAccountsPerTransaction,
    p.dedupMap[index]? = some ((indexInInstruction p.accounts index).getD noPosition)
  bounded : ∀ a ∈ p.accounts, a.indexInTransaction < maxAccountsPerTransaction

variable {p q : PreparedInstruction} {index first : Nat}

variable {i : Nat} {a : InstructionAccount}

theorem Tracks.empty : Tracks {} where
  size := List.length_replicate
  entry index h := by simp [h, indexInInstruction]
  bounded a ha := absurd ha List.not_mem_nil

theorem Tracks.positionOf_eq (h : p.Tracks) (hlen : p.accounts.length ≤ noPosition) (index : Nat) :
    p.positionOf index = indexInInstruction p.accounts index := by
  unfold positionOf
  rcases Nat.lt_or_ge index maxAccountsPerTransaction with hlt | hge
  · rw [h.entry index hlt]
    cases hfirst : indexInInstruction p.accounts index with
    | none => simpa [Option.filter] using hlen
    | some first => simpa [Option.filter] using indexInInstruction_lt hfirst
  · rw [List.getElem?_eq_none (by rw [h.size]; exact hge)]
    refine (List.findIdx?_eq_none_iff.mpr fun a ha => ?_).symm
    have := h.bounded a ha
    simp only [beq_eq_false_iff_ne]
    omega

theorem Tracks.of_map_eq (h : p.Tracks) (hmap : q.dedupMap = p.dedupMap)
    (hindices : q.accounts.map (·.indexInTransaction) = p.accounts.map (·.indexInTransaction)) : q.Tracks where
  size := hmap ▸ h.size
  entry index hlt := by
    rw [hmap, h.entry index hlt, indexInInstruction_eq_map, indexInInstruction_eq_map, hindices]
  bounded a ha := by
    obtain ⟨b, hb, heq⟩ := List.mem_map.mp (hindices ▸ List.mem_map_of_mem ha)
    exact heq ▸ h.bounded b hb

theorem Tracks.append_listed (h : p.Tracks)
    (hlisted : indexInInstruction p.accounts a.indexInTransaction = some first) :
    Tracks { p with accounts := p.accounts ++ [a] } where
  size := h.size
  entry index hlt := by
    rw [h.entry index hlt, indexInInstruction_append]
    by_cases heq : a.indexInTransaction = index
    · rw [← heq, hlisted, Option.some_or]
    · rw [if_neg heq, Option.or_none]
  bounded b hb := by
    rcases List.mem_append.mp hb with hb | hb
    · exact h.bounded b hb
    · obtain ⟨c, hc, heq⟩ := indexInInstruction_some hlisted
      rw [List.mem_singleton.mp hb, ← heq]
      exact h.bounded c (List.mem_of_getElem? hc)

theorem Tracks.append_new (h : p.Tracks) (hlen : p.accounts.length < noPosition)
    (hbound : a.indexInTransaction < maxAccountsPerTransaction)
    (hnew : indexInInstruction p.accounts a.indexInTransaction = none) :
    Tracks { accounts := p.accounts ++ [a]
             dedupMap := p.dedupMap.set a.indexInTransaction (p.accounts.length % 2 ^ 16) } where
  size := by simpa using h.size
  entry index hlt := by
    have hmod : p.accounts.length % 2 ^ 16 = p.accounts.length := Nat.mod_eq_of_lt (Nat.lt_of_lt_of_le hlen (by decide))
    rw [indexInInstruction_append, hmod]
    by_cases heq : a.indexInTransaction = index
    · subst heq
      rw [hnew, if_pos rfl, List.getElem?_set_self (by rw [h.size]; exact hlt)]
      rfl
    · rw [if_neg heq, Option.or_none, List.getElem?_set_ne heq, h.entry index hlt]
  bounded b hb := by
    rcases List.mem_append.mp hb with hb | hb
    · exact h.bounded b hb
    · rw [List.mem_singleton.mp hb]
      exact hbound

/-! ### The flags of an instruction's accounts -/

/-- Some meta asks for the privilege on the account at `index`. -/
def asked (keys : List Pubkey) (metas : List AccountMeta) (index : Nat) (r : Privilege) : Bool :=
  metas.any fun m => keys.findIdx? (· == m.pubkey) == some index && m.flag r

theorem asked_append (keys : List Pubkey) (metas : List AccountMeta) (m : AccountMeta) (index : Nat) (r : Privilege) :
    asked keys (metas ++ [m]) index r =
      (asked keys metas index r || (keys.findIdx? (· == m.pubkey) == some index && m.flag r)) := by
  simp [asked]

theorem flag_widen (a : InstructionAccount) (m : AccountMeta) (r : Privilege) :
    (a.widen m.isSigner m.isWritable).flag r = (a.flag r || m.flag r) := by
  cases r <;> rfl

/-- After the first loop has seen `metas`: first occurrences have the flags that were asked for, repetitions at
most those. -/
structure Collected (keys : List Pubkey) (metas : List AccountMeta) (p : PreparedInstruction) : Prop where
  tracks : p.Tracks
  indices : p.accounts.map (fun a => some a.indexInTransaction) = metas.map fun m => keys.findIdx? (· == m.pubkey)
  exact : ∀ (index first : Nat) (a : InstructionAccount), indexInInstruction p.accounts index = some first →
    p.accounts[first]? = some a → ∀ r, a.flag r = asked keys metas index r
  below : ∀ a ∈ p.accounts, ∀ r, a.flag r → asked keys metas a.indexInTransaction r

variable {keys : List Pubkey} {metas : List AccountMeta} {m : AccountMeta}

theorem Collected.empty : Collected keys [] {} where
  tracks := .empty
  indices := rfl
  exact index first a h := by simp [indexInInstruction] at h
  below a ha := absurd ha List.not_mem_nil

section

variable (h : Collected keys metas p)

include h

theorem Collected.length : p.accounts.length = metas.length := by
  simpa using congrArg List.length h.indices

theorem Collected.asked_eq_false (hnew : indexInInstruction p.accounts index = none)
    (r : Privilege) : asked keys metas index r = false := by
  by_contra hasked
  obtain ⟨m, hm, hboth⟩ := List.any_eq_true.mp (Bool.eq_true_of_not_eq_false hasked)
  rw [Bool.and_eq_true, beq_iff_eq] at hboth
  have hmem : some index ∈ p.accounts.map (fun a => some a.indexInTransaction) := by
    rw [h.indices, ← hboth.1]
    exact List.mem_map_of_mem hm
  obtain ⟨a, ha, heq⟩ := List.mem_map.mp hmem
  simpa [Option.some.inj heq] using List.findIdx?_eq_none_iff.mp hnew a ha

theorem Collected.append_new (hlen : metas.length < noPosition)
    (hkey : keys.findIdx? (· == m.pubkey) = some index) (hbound : index < maxAccountsPerTransaction)
    (hnew : indexInInstruction p.accounts index = none) :
    Collected keys (metas ++ [m])
      { accounts := p.accounts ++ [⟨index, m.isSigner, m.isWritable⟩]
        dedupMap := p.dedupMap.set index (p.accounts.length % 2 ^ 16) } where
  tracks := h.tracks.append_new (h.length ▸ hlen) hbound hnew
  indices := by simp [h.indices, hkey]
  exact j first a hfirst ha r := by
    rw [asked_append, hkey]
    rw [indexInInstruction_append] at hfirst
    by_cases hj : index = j
    · subst hj
      rw [hnew, if_pos rfl, Option.none_or] at hfirst
      obtain rfl := Option.some.inj hfirst
      obtain rfl : ⟨index, m.isSigner, m.isWritable⟩ = a := by simpa using ha
      rw [h.asked_eq_false hnew]
      cases r <;> simp [InstructionAccount.flag, AccountMeta.flag]
    · rw [if_neg hj, Option.or_none] at hfirst
      rw [List.getElem?_append_left (indexInInstruction_lt hfirst)] at ha
      rw [h.exact j first a hfirst ha r]
      simp [hj]
  below a ha r hr := by
    rw [asked_append]
    rcases List.mem_append.mp ha with ha | ha
    · rw [h.below a ha r hr, Bool.true_or]
    · obtain rfl := List.mem_singleton.mp ha
      have hm : m.flag r = true := by cases r <;> exact hr
      simp [hkey, hm]

theorem Collected.append_listed (hkey : keys.findIdx? (· == m.pubkey) = some index)
    {b : InstructionAccount} (hb : p.accounts[first]? = some b)
    (hfirst : indexInInstruction p.accounts index = some first) :
    Collected keys (metas ++ [m])
      { p with accounts :=
          p.accounts.modify first (·.widen m.isSigner m.isWritable) ++ [b.widen m.isSigner m.isWritable] } := by
  obtain ⟨b', hb', hindex⟩ := indexInInstruction_some hfirst
  cases hb.symm.trans hb'
  have hwidened : ∀ r, (b.widen m.isSigner m.isWritable).flag r = asked keys (metas ++ [m]) index r := by
    intro r
    rw [flag_widen, asked_append, hkey, h.exact index first b hfirst hb]
    simp
  refine ⟨?_, ?_, ?_, ?_⟩
  · have htracks : Tracks { p with accounts := p.accounts.modify first (·.widen m.isSigner m.isWritable) } :=
      h.tracks.of_map_eq rfl (indices_widen ..)
    have hlisted : indexInInstruction (p.accounts.modify first (·.widen m.isSigner m.isWritable))
        (b.widen m.isSigner m.isWritable).indexInTransaction = some first := by
      rw [indexInInstruction_widen, InstructionAccount.widen, hindex, hfirst]
    exact htracks.append_listed hlisted
  · have hsome := congrArg (List.map some) (indices_widen p.accounts first m.isSigner m.isWritable)
    rw [List.map_map, List.map_map] at hsome
    rw [List.map_append, List.map_append, ← h.indices, List.map_singleton, List.map_singleton, hkey, ← hindex]
    exact congrArg (· ++ _) hsome
  · intro j f a hf ha r
    dsimp only at hf ha
    rw [indexInInstruction_append, indexInInstruction_widen] at hf
    by_cases hj : index = j
    · subst hj
      rw [hfirst, Option.some_or, Option.some_inj] at hf
      subst hf
      obtain rfl : b.widen m.isSigner m.isWritable = a := by
        rw [List.getElem?_append_left (by simpa using indexInInstruction_lt hfirst)] at ha
        simpa [hb] using ha
      exact hwidened r
    · have hne : (b.widen m.isSigner m.isWritable).indexInTransaction ≠ j := fun heq => hj (hindex.symm.trans heq)
      rw [if_neg hne, Option.or_none] at hf
      have hfne : first ≠ f := by
        rintro rfl
        obtain ⟨c, hc, hcj⟩ := indexInInstruction_some hf
        rw [hb] at hc
        cases hc
        exact hj (hindex.symm.trans hcj)
      rw [List.getElem?_append_left (by simpa using indexInInstruction_lt hf), List.getElem?_modify_ne _ _ hfne] at ha
      rw [h.exact j f a hf ha r, asked_append, hkey]
      simp [hj]
  · intro a ha r hr
    rcases List.mem_append.mp ha with ha | ha
    · obtain ⟨i, hi⟩ := List.mem_iff_getElem?.mp ha
      by_cases hi' : first = i
      · subst hi'
        obtain rfl : b.widen m.isSigner m.isWritable = a := by simpa [hb] using hi
        rw [InstructionAccount.widen, hindex, ← hwidened r]
        exact hr
      · rw [List.getElem?_modify_ne _ _ hi'] at hi
        rw [asked_append, h.below a (List.mem_of_getElem? hi) r hr, Bool.true_or]
    · obtain rfl := List.mem_singleton.mp ha
      rw [InstructionAccount.widen, hindex, ← hwidened r]
      exact hr

theorem Collected.addMeta (hlen : metas.length < noPosition)
    (hok : p.addMeta keys m = .ok q) : Collected keys (metas ++ [m]) q := by
  unfold PreparedInstruction.addMeta at hok
  split at hok
  · cases hok
  next index hkey =>
  split at hok
  · cases hok
  next position hposition =>
  have hbound : index < maxAccountsPerTransaction := h.tracks.size ▸ (List.getElem?_eq_some_iff.mp hposition).1
  have hentry := h.tracks.entry index hbound
  rw [hposition, Option.some_inj] at hentry
  cases hfirst : indexInInstruction p.accounts index with
  | none =>
    rw [hfirst, Option.getD_none] at hentry
    rw [if_neg (by have := h.length; omega)] at hok
    cases hok
    exact h.append_new hlen hkey hbound hfirst
  | some first =>
    rw [hfirst, Option.getD_some] at hentry
    subst hentry
    obtain ⟨b, hb, -⟩ := indexInInstruction_some hfirst
    rw [if_pos (indexInInstruction_lt hfirst)] at hok
    simp only [List.getElem?_modify_eq, hb] at hok
    cases hok
    exact h.append_listed hkey hb hfirst

theorem collected_of_foldlM {rest : List AccountMeta}
    (hlen : (metas ++ rest).length ≤ noPosition) (hok : rest.foldlM (addMeta keys) p = .ok q) :
    Collected keys (metas ++ rest) q := by
  induction rest generalizing metas p with
  | nil =>
    cases hok
    rwa [List.append_nil]
  | cons m rest ih =>
    rw [List.foldlM_cons] at hok
    obtain ⟨p', hp', hrest⟩ := bind_eq_ok.mp hok
    have hlt : metas.length < noPosition := by
      simp only [List.length_append, List.length_cons] at hlen
      omega
    rw [List.append_cons] at hlen ⊢
    exact ih (h.addMeta hlt hp') hlen hrest

end

/-- The account at `index` is listed with the privilege. -/
def Has (p : PreparedInstruction) (index : Nat) (r : Privilege) : Prop :=
  ∃ a ∈ p.accounts, a.indexInTransaction = index ∧ a.flag r

/-- What the caller allows: a privilege it has itself, or its word for a signer. -/
def Granted (caller : PreparedInstruction) (keys signers : List Pubkey) (index : Nat) : Privilege → Prop
  | .writable => caller.Has index .writable
  | .signer => caller.Has index .signer ∨ ∃ key ∈ signers, keys[index]? = some key

/-- After the second loop has seen the first `n` positions of `p`. -/
structure Checked (keys : List Pubkey) (metas : List AccountMeta) (caller : PreparedInstruction) (signers : List Pubkey)
    (p : PreparedInstruction) (n : Nat) (q : PreparedInstruction) : Prop where
  dedupMap : q.dedupMap = p.dedupMap
  indices : q.accounts.map (·.indexInTransaction) = p.accounts.map (·.indexInTransaction)
  settled : ∀ i < n, ∀ a, q.accounts[i]? = some a → ∀ r, a.flag r = asked keys metas a.indexInTransaction r
  untouched : ∀ i, n ≤ i → q.accounts[i]? = p.accounts[i]?
  granted : ∀ index first, indexInInstruction p.accounts index = some first → first < n →
    ∀ r, asked keys metas index r → Granted caller keys signers index r

theorem Collected.key_of_meta (h : Collected keys metas p)
    (ha : p.accounts[i]? = some a) (hm : metas[i]? = some m) : keys[a.indexInTransaction]? = some m.pubkey := by
  have hindex : keys.findIdx? (· == m.pubkey) = some a.indexInTransaction := by
    have hget := congrArg (·[i]?) h.indices
    simp only [List.getElem?_map, ha, hm, Option.map_some, Option.some.injEq] at hget
    exact hget.symm
  obtain ⟨hlt, heq, -⟩ := List.findIdx?_eq_some_iff_getElem.mp hindex
  rw [List.getElem?_eq_getElem hlt, beq_iff_eq.mp heq]

section Check

variable {caller : PreparedInstruction} {signers : List Pubkey} {n : Nat}

theorem granted_of_check (hcaller : caller.Tracks) (hlen : caller.accounts.length ≤ noPosition) {inCaller : Nat}
    {c : InstructionAccount}
    (hposition : caller.positionOf a.indexInTransaction = some inCaller) (hc : caller.accounts[inCaller]? = some c)
    (hkey : keys[a.indexInTransaction]? = some m.pubkey) (hwritable : ¬ (a.isWritable && !c.isWritable))
    (hsigner : ¬ (a.isSigner && !(c.isSigner || signers.contains m.pubkey))) {r : Privilege} (hr : a.flag r) :
    Granted caller keys signers a.indexInTransaction r := by
  rw [hcaller.positionOf_eq hlen] at hposition
  obtain ⟨c', hc', hindex⟩ := indexInInstruction_some hposition
  cases hc.symm.trans hc'
  have hmem := List.mem_of_getElem? hc
  cases r with
  | writable =>
    have hr : a.isWritable = true := hr
    have hcaller : c.isWritable = true := by simpa [hr] using hwritable
    exact ⟨c, hmem, hindex, hcaller⟩
  | signer =>
    have hr : a.isSigner = true := hr
    have heither : c.isSigner = true ∨ m.pubkey ∈ signers := by
      rw [or_iff_not_imp_left, Bool.not_eq_true]
      simpa [hr] using hsigner
    exact heither.imp (fun h => ⟨c, hmem, hindex, h⟩) fun h => ⟨m.pubkey, h, hkey⟩

theorem Checked.checkAccount (hcollected : Collected keys metas p) (hcaller : caller.Tracks)
    (hlen : caller.accounts.length ≤ noPosition) {q' : PreparedInstruction}
    (h : Checked keys metas caller signers p n q)
    (hok : PreparedInstruction.checkAccount caller metas signers q n = .ok q') :
    Checked keys metas caller signers p (n + 1) q' := by
  unfold PreparedInstruction.checkAccount at hok
  split at hok
  · cases hok
  next a ha =>
  have hap : p.accounts[n]? = some a := h.untouched n (Nat.le_refl n) ▸ ha
  obtain ⟨first, hle, hfirst⟩ := exists_first hap
  -- the entry of the map is the first occurrence
  have hentry : q.dedupMap[a.indexInTransaction]? = some first := by
    rw [h.dedupMap, hcollected.tracks.entry _ (hcollected.tracks.bounded a (List.mem_of_getElem? hap)), hfirst]
    rfl
  rw [hentry] at hok
  dsimp only at hok
  split at hok
  · next hne =>
    have hlt : first < n := by omega
    obtain ⟨reference, href, hindex⟩ :
        ∃ b, q.accounts[first]? = some b ∧ b.indexInTransaction = a.indexInTransaction := by
      obtain ⟨b, hb, hbi⟩ := indexInInstruction_some hfirst
      have hget := congrArg (·[first]?) h.indices
      simp only [List.getElem?_map, hb, Option.map_some, Option.map_eq_some_iff] at hget
      obtain ⟨b', hb', heq⟩ := hget
      exact ⟨b', hb', heq.trans hbi⟩
    rw [href] at hok
    cases hok
    have hwide : ∀ r, (a.widen reference.isSigner reference.isWritable).flag r =
        asked keys metas a.indexInTransaction r := by
      intro r
      have hsettled := h.settled first hlt reference href r
      have hbelow := hcollected.below a (List.mem_of_getElem? hap) r
      rw [hindex] at hsettled
      have hor : (a.widen reference.isSigner reference.isWritable).flag r = (a.flag r || reference.flag r) := by
        cases r <;> rfl
      rw [hor, hsettled]
      cases hf : a.flag r with
      | false => rfl
      | true => simp [hbelow hf]
    refine ⟨h.dedupMap, ?_, ?_, ?_, ?_⟩
    · rw [← h.indices, List.map_set]
      obtain ⟨hn, rfl⟩ := List.getElem?_eq_some_iff.mp ha
      have hn' : n < (q.accounts.map (·.indexInTransaction)).length := by simpa using hn
      conv_rhs => rw [← List.set_getElem_self hn', List.getElem_map]
      rfl
    · intro i hi b hb
      rcases Nat.lt_or_ge i n with hin | hin
      · rw [List.getElem?_set_ne (by omega)] at hb
        exact h.settled i hin b hb
      · obtain rfl : i = n := by omega
        rw [List.getElem?_set_self (List.getElem?_eq_some_iff.mp ha).1] at hb
        cases hb
        exact hwide
    · intro i hi
      rw [List.getElem?_set_ne (by omega)]
      exact h.untouched i (by omega)
    · intro index f hf hfn r hr
      rcases Nat.lt_or_ge f n with hlt' | hge
      · exact h.granted index f hf hlt' r hr
      · obtain rfl : f = n := by omega
        obtain ⟨b, hb, hbi⟩ := indexInInstruction_some hf
        rw [hap] at hb
        cases hb
        rw [hbi] at hfirst
        exact absurd (Option.some.inj (hf.symm.trans hfirst)) hne
  · next heq =>
    obtain rfl : n = first := not_not.mp heq
    split at hok
    · cases hok
    next inCaller hinCaller =>
    split at hok
    · next c m hc hm =>
      split at hok
      · cases hok
      next hwritable =>
      split at hok
      · cases hok
      next hsigner =>
      cases hok
      refine ⟨h.dedupMap, h.indices, ?_, fun i hi => h.untouched i (by omega), ?_⟩
      · intro i hi b hb
        rcases Nat.lt_or_ge i n with hin | hin
        · exact h.settled i hin b hb
        · obtain rfl : i = n := by omega
          rw [ha] at hb
          cases hb
          exact hcollected.exact _ _ _ hfirst hap
      · intro index f hf hfn r hr
        rcases Nat.lt_or_ge f n with hlt | hge
        · exact h.granted index f hf hlt r hr
        · obtain rfl : f = n := by omega
          obtain ⟨b, hb, hbi⟩ := indexInInstruction_some hf
          rw [hap] at hb
          cases hb
          subst hbi
          rw [← hcollected.exact _ _ _ hfirst hap r] at hr
          exact granted_of_check hcaller hlen hinCaller hc (hcollected.key_of_meta hap hm) hwritable hsigner hr
    · cases hok

theorem checked_of_foldlM (hcollected : Collected keys metas p) (hcaller : caller.Tracks)
    (hlen : caller.accounts.length ≤ noPosition)
    (hok : (List.range n).foldlM (checkAccount caller metas signers) p = .ok q) :
    Checked keys metas caller signers p n q := by
  induction n generalizing q with
  | zero =>
    cases hok
    exact ⟨rfl, rfl, fun i hi => absurd hi (Nat.not_lt_zero i), fun i _ => rfl,
      fun _ first _ hlt => absurd hlt (Nat.not_lt_zero first)⟩
  | succ n ih =>
    rw [List.range_succ, List.foldlM_append] at hok
    obtain ⟨q', hq', hlast⟩ := bind_eq_ok.mp hok
    rw [List.foldlM_cons] at hlast
    obtain ⟨q'', hq'', hnil⟩ := bind_eq_ok.mp hlast
    cases hnil
    exact (ih hq').checkAccount hcollected hcaller hlen hq''

/-- What a prepared invocation may do with its accounts. -/
theorem prepareCpi_spec {instruction : Instruction} (hcaller : caller.Tracks)
    (hlen : caller.accounts.length ≤ noPosition) (hmetas : instruction.accounts.length ≤ noPosition)
    (hok : prepareCpi keys caller instruction signers = .ok q) :
    (q.Tracks ∧ q.accounts.length = instruction.accounts.length) ∧
      (∀ a ∈ q.accounts, ∀ r, a.flag r = asked keys instruction.accounts a.indexInTransaction r) ∧
      ∀ index r, q.Has index r → Granted caller keys signers index r := by
  unfold prepareCpi at hok
  obtain ⟨p, hp, hok⟩ := bind_eq_ok.mp hok
  obtain ⟨q', hq', hok⟩ := bind_eq_ok.mp hok
  obtain rfl : q' = q := by
    split at hok
    · cases hok
    · split at hok
      · cases hok
      · exact Except.ok.inj hok
  have hcollected : Collected keys instruction.accounts p := collected_of_foldlM .empty hmetas hp
  have hchecked := checked_of_foldlM hcollected hcaller hlen hq'
  have hlength : q'.accounts.length = p.accounts.length := by simpa using congrArg List.length hchecked.indices
  have hflags : ∀ a ∈ q'.accounts, ∀ r, a.flag r = asked keys instruction.accounts a.indexInTransaction r := by
    intro a ha
    obtain ⟨i, hi, rfl⟩ := List.getElem_of_mem ha
    exact hchecked.settled i (hlength ▸ hi) _ (List.getElem?_eq_getElem hi)
  refine ⟨⟨hcollected.tracks.of_map_eq hchecked.dedupMap hchecked.indices, hlength.trans hcollected.length⟩, hflags, ?_⟩
  rintro index r ⟨a, ha, rfl, hr⟩
  obtain ⟨i, hi⟩ := List.mem_iff_getElem?.mp ha
  obtain ⟨first, -, hfirst⟩ := exists_first hi
  rw [indexInInstruction_eq_map, hchecked.indices, ← indexInInstruction_eq_map] at hfirst
  exact hchecked.granted _ first hfirst (indexInInstruction_lt hfirst) r (hflags a ha r ▸ hr)

end Check

/-! ### Top-level instructions -/

def messageFlag (tx : ResolvedTransaction) (index : Nat) : Privilege → Bool
  | .signer => tx.isSigner index
  | .writable => tx.isWritable index

variable {tx : ResolvedTransaction}

theorem Tracks.addIndex (h : p.Tracks) (hlen : p.accounts.length < noPosition) (hok : p.addIndex tx index = .ok q) :
    q.Tracks ∧ q.accounts = p.accounts ++ [⟨index, tx.isSigner index, tx.isWritable index⟩] := by
  unfold PreparedInstruction.addIndex at hok
  split at hok
  · cases hok
  next position hposition =>
  cases hok
  refine ⟨?_, rfl⟩
  have hbound : index < maxAccountsPerTransaction := h.size ▸ (List.getElem?_eq_some_iff.mp hposition).1
  have hentry := h.entry index hbound
  rw [hposition, Option.some_inj] at hentry
  cases hfirst : indexInInstruction p.accounts index with
  | none =>
    rw [hfirst, Option.getD_none] at hentry
    rw [if_pos (by omega)]
    exact h.append_new hlen hbound hfirst
  | some first =>
    rw [hfirst, Option.getD_some] at hentry
    have hlt := indexInInstruction_lt hfirst
    rw [if_neg (by omega)]
    exact h.append_listed hfirst

theorem prepareTopLevel_spec {instruction : CompiledInstruction} (hlen : instruction.accounts.length ≤ noPosition)
    (hok : prepareTopLevel tx instruction = .ok p) :
    p.Tracks ∧ p.accounts = instruction.accounts.map fun index => ⟨index, tx.isSigner index, tx.isWritable index⟩ := by
  -- the invariant of the loop, after `seen` of the indices
  suffices hloop : ∀ (rest seen : List Nat) (p q : PreparedInstruction), (seen ++ rest).length ≤ noPosition →
      p.Tracks → p.accounts = seen.map (fun index => ⟨index, tx.isSigner index, tx.isWritable index⟩) →
      rest.foldlM (PreparedInstruction.addIndex tx) p = .ok q →
      q.Tracks ∧ q.accounts = (seen ++ rest).map fun index => ⟨index, tx.isSigner index, tx.isWritable index⟩ from
    hloop instruction.accounts [] {} p hlen .empty rfl hok
  intro rest
  induction rest with
  | nil =>
    intro seen p q _ htracks haccounts hok
    cases hok
    rw [List.append_nil]
    exact ⟨htracks, haccounts⟩
  | cons index rest ih =>
    intro seen p q hlen htracks haccounts hok
    rw [List.foldlM_cons] at hok
    obtain ⟨p', hp', hrest⟩ := bind_eq_ok.mp hok
    have hlt : p.accounts.length < noPosition := by
      rw [haccounts, List.length_map]
      simp only [List.length_append, List.length_cons] at hlen
      omega
    obtain ⟨htracks', haccounts'⟩ := htracks.addIndex hlt hp'
    rw [List.append_cons] at hlen ⊢
    exact ih _ p' q hlen htracks' (by rw [haccounts', haccounts, List.map_append, List.map_singleton]) hrest

/-! ### Chains of invocations -/

structure Invocation where
  instruction : Instruction
  signers : List Pubkey
deriving DecidableEq, Repr

/-- The invocations `calls`, the innermost first, below a top-level instruction: the innermost instruction and those
that enclose it. -/
def prepareChain (tx : ResolvedTransaction) (top : CompiledInstruction) :
    List Invocation → Except PreparationError (PreparedInstruction × List PreparedInstruction)
  | [] => do
    let p ← prepareTopLevel tx top
    .ok (p, [])
  | call :: calls => do
    let (caller, enclosing) ← prepareChain tx top calls
    let p ← prepareCpi tx.staticAccountKeys caller call.instruction call.signers
    .ok (p, caller :: enclosing)

def requested (tx : ResolvedTransaction) (calls : List Invocation) (index : Nat) (r : Privilege) : Bool :=
  match calls with
  | [] => messageFlag tx index r
  | call :: _ => asked tx.staticAccountKeys call.instruction.accounts index r

/-- Where the innermost instruction of a chain has a signer from. -/
def SignerFrom (tx : ResolvedTransaction) (index : Nat) : List Invocation → List PreparedInstruction → Prop
  | call :: _, caller :: _ => caller.Has index .signer ∨ ∃ key ∈ call.signers, tx.staticAccountKeys[index]? = some key
  | _, _ => tx.isSigner index

/-- The innermost instruction of a chain has no privilege of its own. -/
structure Confined (tx : ResolvedTransaction) (calls : List Invocation) (p : PreparedInstruction)
    (enclosing : List PreparedInstruction) : Prop where
  writable : ∀ index, p.Has index .writable → tx.isWritable index ∧ ∀ q ∈ enclosing, q.Has index .writable
  signer : ∀ index, p.Has index .signer → SignerFrom tx index calls enclosing
  flags : ∀ a ∈ p.accounts, ∀ r, a.flag r = requested tx calls a.indexInTransaction r
  positions : ∀ index, p.positionOf index = indexInInstruction p.accounts index

variable {top : CompiledInstruction} {calls : List Invocation} {enclosing : List PreparedInstruction}

private theorem confined_topLevel (hlen : top.accounts.length ≤ noPosition) (hok : prepareTopLevel tx top = .ok p) :
    Confined tx [] p [] ∧ p.Tracks ∧ p.accounts.length ≤ noPosition := by
  obtain ⟨htracks, haccounts⟩ := prepareTopLevel_spec hlen hok
  have hlength : p.accounts.length ≤ noPosition := by rwa [haccounts, List.length_map]
  have hflags : ∀ a ∈ p.accounts, ∀ r, a.flag r = messageFlag tx a.indexInTransaction r := by
    intro a ha r
    rw [haccounts] at ha
    obtain ⟨index, -, rfl⟩ := List.mem_map.mp ha
    cases r <;> rfl
  refine ⟨⟨?_, ?_, hflags, htracks.positionOf_eq hlength⟩, htracks, hlength⟩
  · rintro index ⟨a, ha, rfl, hr⟩
    exact ⟨(hflags a ha .writable).symm.trans hr, fun q hq => absurd hq List.not_mem_nil⟩
  · rintro index ⟨a, ha, rfl, hr⟩
    exact (hflags a ha .signer).symm.trans hr

private theorem confined_of_chain (htop : top.accounts.length ≤ noPosition)
    (hcalls : ∀ call ∈ calls, call.instruction.accounts.length ≤ noPosition)
    (hok : prepareChain tx top calls = .ok (p, enclosing)) :
    Confined tx calls p enclosing ∧ p.Tracks ∧ p.accounts.length ≤ noPosition := by
  induction calls generalizing p enclosing with
  | nil =>
    obtain ⟨q, hq, hpair⟩ := bind_eq_ok.mp hok
    cases hpair
    exact confined_topLevel htop hq
  | cons call calls ih =>
    obtain ⟨⟨caller, outer⟩, hcaller, hok⟩ := bind_eq_ok.mp hok
    obtain ⟨q, hq, hpair⟩ := bind_eq_ok.mp hok
    cases hpair
    obtain ⟨hconfined, htracks, hlength⟩ := ih (fun c hc => hcalls c (List.mem_cons_of_mem _ hc)) hcaller
    have hmetas := hcalls call List.mem_cons_self
    obtain ⟨⟨htracks', hlength'⟩, hflags, hgranted⟩ := prepareCpi_spec htracks hlength hmetas hq
    refine ⟨⟨?_, ?_, hflags, htracks'.positionOf_eq (by omega)⟩, htracks', by omega⟩
    · intro index hw
      have hin : caller.Has index .writable := hgranted index .writable hw
      obtain ⟨hmessage, houter⟩ := hconfined.writable index hin
      exact ⟨hmessage, List.forall_mem_cons.mpr ⟨hin, houter⟩⟩
    · intro index hs
      exact hgranted index .signer hs

/-- In every chain of invocations with at most 65535 accounts each, no instruction has a privilege that the message
and its callers did not give it, repetitions agree, and the maps send each account to its first position. -/
theorem chain_confined (htop : top.accounts.length ≤ noPosition)
    (hcalls : ∀ call ∈ calls, call.instruction.accounts.length ≤ noPosition)
    (hok : prepareChain tx top calls = .ok (p, enclosing)) : Confined tx calls p enclosing :=
  (confined_of_chain htop hcalls hok).1

def fourKeyTransaction : ResolvedTransaction where
  signatures := []
  numRequiredSignatures := 1
  staticAccountKeys := [⟨1⟩, ⟨2⟩, ⟨3⟩, ⟨4⟩]
  instructions := []
  writableCache := 0b0101
  keys_nodup := by decide

def fourKeyInstruction : CompiledInstruction := ⟨3, [0, 1, 2, 3], []⟩

/-- Two invocations, one below the other, that list an account twice with different flags. -/
def repeatingInvocations : List Invocation :=
  [⟨⟨⟨4⟩, [⟨⟨3⟩, true, false⟩, ⟨⟨3⟩, false, true⟩], []⟩, [⟨3⟩]⟩,
   ⟨⟨⟨4⟩, [⟨⟨3⟩, false, false⟩, ⟨⟨4⟩, false, false⟩, ⟨⟨3⟩, false, true⟩], []⟩, []⟩]

theorem chain_confined_repeating : ∃ p enclosing,
    prepareChain fourKeyTransaction fourKeyInstruction repeatingInvocations = .ok (p, enclosing) ∧
    Confined fourKeyTransaction repeatingInvocations p enclosing ∧ p.Has 2 .writable ∧ enclosing.length = 2 := by
  have hrun : ((prepareChain fourKeyTransaction fourKeyInstruction repeatingInvocations).map
      fun result => (result.1.accounts, result.2.length)) = .ok ([⟨2, true, true⟩, ⟨2, true, true⟩], 2) := by
    decide +kernel
  cases hok : prepareChain fourKeyTransaction fourKeyInstruction repeatingInvocations with
  | error e => simp [hok, Except.map] at hrun
  | ok result =>
    obtain ⟨p, enclosing⟩ := result
    simp only [hok, Except.map, Except.ok.injEq, Prod.mk.injEq] at hrun
    exact ⟨p, enclosing, rfl, chain_confined (by decide) (by decide) hok,
      ⟨⟨2, true, true⟩, hrun.1 ▸ List.mem_cons_self, rfl, rfl⟩, hrun.2⟩

/-! ### More accounts than positions -/

/-- An invocation that lists the read-only account 2 `n + 1` times, and then the writable account 3. -/
def crowdedInvocation (n : Nat) : Invocation where
  instruction := ⟨⟨4⟩, List.replicate (n + 1) ⟨⟨2⟩, false, false⟩ ++ [⟨⟨3⟩, false, true⟩], []⟩
  signers := []

private theorem foldlM_addMeta_replicate (hkey : keys.findIdx? (· == m.pubkey) = some index)
    (hindex : index < maxAccountsPerTransaction) (n : Nat) :
    (List.replicate (n + 1) m).foldlM (addMeta keys) {} =
      .ok { accounts := List.replicate (n + 1) ⟨index, m.isSigner, m.isWritable⟩
            dedupMap := (List.replicate maxAccountsPerTransaction noPosition).set index 0 } := by
  induction n with
  | zero =>
    have hentry : (List.replicate maxAccountsPerTransaction noPosition)[index]? = some noPosition := by simp [hindex]
    simp [addMeta, hkey, hentry, bind, Except.bind, pure, Except.pure]
  | succ n ih =>
    rw [List.replicate_succ', List.foldlM_append, ih]
    have hentry : ((List.replicate maxAccountsPerTransaction noPosition).set index 0)[index]? = some 0 := by
      simp [hindex]
    have hwiden : (List.replicate (n + 1) (⟨index, m.isSigner, m.isWritable⟩ : InstructionAccount)).modify 0
        (·.widen m.isSigner m.isWritable) = List.replicate (n + 1) ⟨index, m.isSigner, m.isWritable⟩ := by
      simp [List.replicate_succ, InstructionAccount.widen]
    have hcopy : ((List.replicate (n + 1) (⟨index, m.isSigner, m.isWritable⟩ : InstructionAccount))[0]?).toList =
        [⟨index, m.isSigner, m.isWritable⟩] := by
      simp
    simp only [bind, Except.bind, List.foldlM_cons, List.foldlM_nil, addMeta, hkey, hentry, hwiden, hcopy,
      List.length_replicate, Nat.zero_lt_succ, if_true, pure, Except.pure, ← List.replicate_succ']

private theorem foldlM_eq_self {α β ε : Type} {f : β → α → Except ε β} {l : List α} {b : β}
    (h : ∀ a ∈ l, f b a = .ok b) : l.foldlM f b = .ok b := by
  induction l with
  | nil => rfl
  | cons a l ih =>
    rw [List.foldlM_cons, h a List.mem_cons_self]
    exact ih fun a' ha' => h a' (List.mem_cons_of_mem a ha')

/-- What the first loop makes of the crowded invocation: account 3 is taken for a repetition of the last account 2. -/
private def crowded (n : Nat) : PreparedInstruction where
  accounts := List.replicate n ⟨1, false, false⟩ ++ [⟨1, false, true⟩, ⟨1, false, true⟩]
  dedupMap := (List.replicate maxAccountsPerTransaction noPosition).set 1 0

section Crowded

variable {n : Nat}

-- `n` stays a variable in these lemmas, so that no list of its length is ever built
private theorem crowded_collected (hn : n = noPosition) : (crowdedInvocation n).instruction.accounts.foldlM
    (addMeta fourKeyTransaction.staticAccountKeys) {} = .ok (crowded n) := by
  have hread : fourKeyTransaction.staticAccountKeys.findIdx? (· == ⟨2⟩) = some 1 := by decide
  have hwritten : fourKeyTransaction.staticAccountKeys.findIdx? (· == ⟨3⟩) = some 2 := by decide
  have hunset : ((List.replicate maxAccountsPerTransaction noPosition).set 1 0)[2]? = some n := by
    rw [hn]
    decide +kernel
  unfold crowdedInvocation
  rw [List.foldlM_append, foldlM_addMeta_replicate hread (by decide)]
  have hwiden : (List.replicate (n + 1) (⟨1, false, false⟩ : InstructionAccount)).modify n (·.widen false true) =
      List.replicate n ⟨1, false, false⟩ ++ [⟨1, false, true⟩] := by
    have hlast := modify_concat (List.replicate n (⟨1, false, false⟩ : InstructionAccount)) ⟨1, false, false⟩
      (·.widen false true)
    rw [List.length_replicate] at hlast
    rw [List.replicate_succ']
    exact hlast
  have hcopy : (List.replicate n (⟨1, false, false⟩ : InstructionAccount) ++ [⟨1, false, true⟩])[n]? =
      some ⟨1, false, true⟩ := by
    simp
  simp only [bind, Except.bind, List.foldlM_cons, List.foldlM_nil, addMeta, hwritten, hunset, List.length_replicate,
    Nat.lt_succ_self, if_true, hwiden, hcopy, pure, Except.pure]
  simp [crowded]

private theorem crowded_accounts (hn : n = noPosition) (hi : i < (crowded n).accounts.length) :
    ∃ w, (crowded n).accounts[i]? = some ⟨1, false, w⟩ ∧ (i = 0 → w = false) := by
  have hpos : 0 < n := hn ▸ (by decide)
  simp only [crowded, List.length_append, List.length_replicate, List.length_cons, List.length_nil] at hi
  rcases Nat.lt_or_ge i n with hlt | hge
  · exact ⟨false, by simp [crowded, List.getElem?_append_left, hlt], fun _ => rfl⟩
  · refine ⟨true, ?_, fun h0 => absurd hge (by omega)⟩
    obtain rfl | rfl : i = n ∨ i = n + 1 := by omega
    all_goals simp [crowded]

/-- Only the first position is compared with the caller, and there account 2 is still read-only. -/
private theorem crowded_checked {caller : PreparedInstruction} (hn : n = noPosition)
    (hcaller : prepareTopLevel fourKeyTransaction fourKeyInstruction = .ok caller)
    (hi : i < (crowded n).accounts.length) :
    checkAccount caller (crowdedInvocation n).instruction.accounts (crowdedInvocation n).signers (crowded n) i =
      .ok (crowded n) := by
  obtain ⟨w, ha, hw⟩ := crowded_accounts hn hi
  have hentry : (crowded n).dedupMap[1]? = some 0 := by
    simp only [crowded]
    decide +kernel
  unfold checkAccount
  rw [ha]
  dsimp only
  rw [hentry]
  dsimp only
  split
  · obtain ⟨w₀, hfirst, hw₀⟩ := crowded_accounts (i := 0) hn (by omega)
    obtain rfl := hw₀ rfl
    rw [hfirst]
    have hset : (crowded n).accounts.set i (InstructionAccount.widen ⟨1, false, w⟩ false false) =
        (crowded n).accounts := by
      obtain ⟨hlt, hget⟩ := List.getElem?_eq_some_iff.mp ha
      conv_rhs => rw [← List.set_getElem_self hlt, hget]
      simp [InstructionAccount.widen]
    simp [hset]
  · next hzero =>
    obtain rfl : i = 0 := not_not.mp hzero
    obtain rfl := hw rfl
    have hposition : caller.positionOf 1 = some 1 ∧ caller.accounts[1]? = some ⟨1, false, false⟩ := by
      have hrun : (prepareTopLevel fourKeyTransaction fourKeyInstruction).map
          (fun p => (p.positionOf 1, p.accounts[1]?)) = .ok (some 1, some ⟨1, false, false⟩) := by
        decide +kernel
      rw [hcaller] at hrun
      simpa [Except.map] using hrun
    have hmeta : (crowdedInvocation n).instruction.accounts[0]? = some ⟨⟨2⟩, false, false⟩ := by
      simp [crowdedInvocation]
    simp [hposition.1, hposition.2, hmeta]

private theorem crowded_chain (hn : n = noPosition) : ∃ p caller,
    prepareChain fourKeyTransaction fourKeyInstruction [crowdedInvocation n] = .ok (p, [caller]) ∧
    p.Has 1 .writable ∧ fourKeyTransaction.isWritable 1 = false ∧ ¬ caller.Has 1 .writable := by
  cases hcaller : prepareTopLevel fourKeyTransaction fourKeyInstruction with
  | error e =>
    have hrun : (prepareTopLevel fourKeyTransaction fourKeyInstruction).toBool = true := by decide +kernel
    simp [hcaller, Except.toBool] at hrun
  | ok caller =>
    have hrun : (prepareTopLevel fourKeyTransaction fourKeyInstruction).map
        (fun p => (p.positionOf 3, p.accounts.any fun a => a.indexInTransaction == 1 && a.isWritable)) =
          .ok (some 3, false) := by
      decide +kernel
    rw [hcaller] at hrun
    simp only [Except.map, Except.ok.injEq, Prod.mk.injEq] at hrun
    obtain ⟨hprogram, hreadonly⟩ := hrun
    have hchecks : (List.range (crowded n).accounts.length).foldlM
        (checkAccount caller (crowdedInvocation n).instruction.accounts (crowdedInvocation n).signers) (crowded n) =
        .ok (crowded n) :=
      foldlM_eq_self fun i hi => crowded_checked hn hcaller (List.mem_range.mp hi)
    have hprepared : prepareCpi fourKeyTransaction.staticAccountKeys caller (crowdedInvocation n).instruction
        (crowdedInvocation n).signers = .ok (crowded n) := by
      have hfind : fourKeyTransaction.staticAccountKeys.findIdx? (· == (crowdedInvocation n).instruction.programId) =
          some 3 := by
        simp only [crowdedInvocation]
        decide
      simp only [prepareCpi, bind, Except.bind, crowded_collected hn, hchecks, hfind, hprogram, Option.isNone_some,
        Bool.false_eq_true, if_false]
    refine ⟨crowded n, caller, ?_, ⟨⟨1, false, true⟩, by simp [crowded], rfl, rfl⟩, by decide, ?_⟩
    · simp only [prepareChain, hcaller, hprepared, bind, Except.bind]
    · rintro ⟨a, ha, hindex, hw⟩
      have hnot := List.any_eq_false.mp hreadonly a ha
      simp only [hindex, beq_self_eq_true, Bool.true_and] at hnot
      exact hnot hw

end Crowded

/-- With 65536 accounts before it, an account that is not listed yet has the sentinel for its position: the invocation
of account 3 makes account 2 writable, which neither the caller nor the message allow. -/
theorem crowded_invocation_escalates : ∃ p caller,
    prepareChain fourKeyTransaction fourKeyInstruction [crowdedInvocation noPosition] = .ok (p, [caller]) ∧
    p.Has 1 .writable ∧ fourKeyTransaction.isWritable 1 = false ∧ ¬ caller.Has 1 .writable :=
  crowded_chain rfl

end PreparedInstruction

end MagicEngine
