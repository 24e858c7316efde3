import MagicEngine.Account.Shared
import MagicEngine.Keeper.Admission

/-!
# The account state of a node

The accounts a node holds, persisted and volatile together, and the changes the engine itself makes to them: the
sysvars it updates at every block (`AccountsAccessor::update_sysvars`), resets (`Keeper::apply_reset`) and what a
starting process reads back from them (`keeper/src/builder.rs`).

Sysvar and feature accounts are kept with their data decoded; every other account keeps its bytes. An account belongs
to the persisted store exactly when its mode requires it, so the two stores are the two halves of one map.
-/

namespace MagicEngine

def slotHashesId : Pubkey := ⟨0x06a7d517192f0aafc6f265e3fb77cc7ada82c529d0be3b136e2d005520000000#256⟩

def clockId : Pubkey := ⟨0x06a7d51718c774c928566398691d5eb68b5eb8a39b4b6d5c73555b2100000000#256⟩

def rentId : Pubkey := ⟨0x06a7d517192c5c51218cc94c3d4af17f58daee089ba1fd44e3dbd98a00000000#256⟩

def featureGateId : Pubkey := ⟨0x03c0a0cdcb06d2daefae82d16fee7acf61ec737b23481b21946a767000000000#256⟩

def slothashEntries : Nat := 512

def sponsorInitBalance : UInt64 := 9223372036854775807

structure Clock where
  slot : Nat
  epoch : Nat
  leaderScheduleEpoch : Nat
  unixTimestamp : Int
deriving DecidableEq, Repr

inductive AccountData (η : Type) where
  | bytes (bytes : List UInt8)
  | slotHashes (hashes : List (Nat × η))
  | clock (clock : Clock)
  | rent (lamportsPerByte : Nat)
  | feature
deriving DecidableEq, Repr

structure NodeAccount (η : Type) where
  core : AccountCore := {}
  data : AccountData η
deriving DecidableEq, Repr

namespace NodeAccount

variable {η : Type}

def requiresPersistence (a : NodeAccount η) : Bool := a.core.mode.requiresPersistence

def isFeature (a : NodeAccount η) : Bool := a.core.owner == featureGateId && a.core.mode == .runtime

end NodeAccount

abbrev AccountMap (η : Type) : Type := Pubkey → Option (NodeAccount η)

namespace AccountMap

variable {η : Type}

def empty : AccountMap η := fun _ => none

def persisted (m : AccountMap η) : AccountMap η := fun key => (m key).filter (·.requiresPersistence)

def volatile (m : AccountMap η) : AccountMap η := fun key => (m key).filter (!·.requiresPersistence)

/-- What a loader sees: volatile accounts take precedence. -/
def loader (volatile persisted : AccountMap η) : AccountMap η := fun key => (volatile key).or (persisted key)

@[simp]
theorem loader_halves (m : AccountMap η) : loader m.volatile m.persisted = m := by
  funext key
  simp only [loader, volatile, persisted]
  cases m key with
  | none => rfl
  | some a => cases h : a.requiresPersistence <;> simp [Option.filter, h]

/-- `AccountsDB::store`; a closed account is removed from both stores. -/
def store (m : AccountMap η) : List (Pubkey × NodeAccount η) → AccountMap η
  | [] => m
  | (key, a) :: rest => store (Function.update m key (if a.core.mode = .closed then none else some a)) rest

@[simp]
theorem store_nil (m : AccountMap η) : m.store [] = m := rfl

def features (m : AccountMap η) (key : Pubkey) : Bool := (m key).any (·.isFeature)

/-- The sysvars a process reads back; `none` when one is missing or does not decode. -/
def rent (m : AccountMap η) : Option Nat :=
  match m rentId with
  | some { data := .rent lamportsPerByte, .. } => some lamportsPerByte
  | _ => none

def slotHashes (m : AccountMap η) : Option (List (Nat × η)) :=
  match m slotHashesId with
  | some { data := .slotHashes hashes, .. } => some hashes
  | _ => none

def clock (m : AccountMap η) : Option Clock :=
  match m clockId with
  | some { data := .clock clock, .. } => some clock
  | _ => none

end AccountMap

/-- `SlotHashes::add`: newest first, the entry of the same slot replaced, oldest entries dropped. -/
def addSlotHash {η : Type} (hashes : List (Nat × η)) (slot : Nat) (hash : η) : List (Nat × η) :=
  let newer := hashes.takeWhile fun entry => decide (slot < entry.1)
  let rest := hashes.dropWhile fun entry => decide (slot < entry.1)
  let older := match rest with
    | [] => []
    | entry :: tail => if entry.1 = slot then tail else rest
  (newer ++ (slot, hash) :: older).take slothashEntries

/-- `persisted_latest`: the block on top of the slot hashes. -/
def persistedLatest {η : Type} [Inhabited η] (hashes : List (Nat × η)) (clock : Clock) : Block η :=
  match hashes with
  | [] => { slot := 0, hash := default, time := 0, parent := default }
  | (slot, hash) :: rest => { slot, hash, time := clock.unixTimestamp, parent := (rest.head?.map (·.2)).getD default }

/-! ### Resets -/

/-- The accounts that `apply_reset` writes, of whatever kind the accounts of the model are. -/
structure ResetWriter (α : Type) where
  authority : Pubkey
  /-- The Rent sysvar with a rate. -/
  rentAccount : Nat → α
  featureAccount : α
  requiresPersistence : α → Bool
  /-- The account with the initial balance of the sponsor. -/
  sponsored : α → α

namespace ResetWriter

variable {α : Type} (w : ResetWriter α)

/-- The batch: features the reset does not name are closed and those it adds are created, and the rent. -/
def stored (features : Pubkey → Bool) (reset : Reset) (m : Pubkey → Option α) : Pubkey → Option α := fun key =>
  if key = rentId then some (w.rentAccount reset.rent)
  else if key ∈ reset.features then
    if features key then m key else some w.featureAccount
  else if features key then none
  else m key

def restoreSponsor (m : Pubkey → Option α) : Pubkey → Option α :=
  match m w.authority with
  | none => m
  | some a => Function.update m w.authority (some (w.sponsored a))

theorem restoreSponsor_apply (m : Pubkey → Option α) (key : Pubkey) :
    w.restoreSponsor m key = if key = w.authority then (m key).map w.sponsored else m key := by
  unfold restoreSponsor
  cases hm : m w.authority with
  | none =>
    dsimp only
    split
    · next heq => rw [heq, hm, Option.map_none]
    · rfl
  | some account =>
    dsimp only
    rw [Function.update_apply]
    split
    · next heq => rw [heq, hm, Option.map_some]
    · rfl

/-- `apply_reset` on the accounts: the batch, without the volatile accounts, and the sponsor's balance. -/
def apply (features : Pubkey → Bool) (reset : Reset) (m : Pubkey → Option α) : Pubkey → Option α :=
  w.restoreSponsor fun key => (w.stored features reset m key).filter w.requiresPersistence

end ResetWriter

/-- What a transaction executes in, besides the accounts. -/
structure ExecContext (η : Type) where
  latest : Block η
  rent : Nat
  features : Pubkey → Bool

/-- What a node takes from outside: its configuration, the hash of a block and the checksum of the persisted
accounts, and what executing a transaction makes of the accounts. -/
structure NodeEnv (η δ : Type) where
  authority : Pubkey
  /-- The node represents a remote authority: it follows another node. -/
  remote : Bool
  /-- Blocks come from an external pacer; otherwise the node paces itself and resets at every start. -/
  external : Bool
  /-- blake3 over the parent hash and the signatures of the block. -/
  blockHash : η → List Signature → η
  /-- xxhash over the slot, the superblock and the persisted accounts. -/
  checksum : Nat → Nat → AccountMap η → δ
  execute : ExecContext η → LedgerTransaction η → AccountMap η → AccountMap η
  /-- Epoch and leader schedule epoch of a slot. -/
  schedule : Nat → Nat × Nat
  /-- Lamports of an account the engine creates. -/
  minimumBalance : AccountData η → UInt64
  /-- Programs and accounts stored at startup if they are missing. -/
  seeds : List (Pubkey × NodeAccount η)
  /-- Sysvars of a fresh store that the engine never reads again. -/
  otherSysvars : List (Pubkey × NodeAccount η)
  defaultFeatures : List Pubkey
  defaultRent : Nat
  blockTtl : Nat
  signatureTtl : Nat

namespace NodeEnv

variable {η δ : Type}

/-- `clock`: the clock of the slot that follows `block`. -/
def clock (env : NodeEnv η δ) (block : Block η) : Clock :=
  let slot := block.slot + 1
  { slot, epoch := (env.schedule slot).1, leaderScheduleEpoch := (env.schedule slot).2, unixTimestamp := block.time }

def runtimeAccount (env : NodeEnv η δ) (data : AccountData η) (owner : Pubkey) : NodeAccount η :=
  { core := { lamports := env.minimumBalance data, owner, mode := .runtime }, data }

def featureAccount (env : NodeEnv η δ) : NodeAccount η := env.runtimeAccount .feature featureGateId

def sysvarAccount (env : NodeEnv η δ) (data : AccountData η) : NodeAccount η := env.runtimeAccount data sysvarOwnerId

/-- `seed_sysvars` and the default features: what a fresh store starts with. -/
def genesis [Inhabited η] (env : NodeEnv η δ) : List (Pubkey × NodeAccount η) :=
  env.defaultFeatures.map (fun id => (id, env.featureAccount)) ++
    [(slotHashesId, env.sysvarAccount (.slotHashes (List.replicate slothashEntries (0, default)))),
      (clockId, env.sysvarAccount (.clock (env.clock { slot := 0, hash := default, time := 0, parent := default }))),
      (rentId, env.sysvarAccount (.rent env.defaultRent))] ++
    env.otherSysvars

/-- `update_sysvars`; both sysvars must exist. -/
def updateSysvars (env : NodeEnv η δ) (m : AccountMap η) (block : Block η) : Option (AccountMap η) :=
  match m slotHashesId, m clockId with
  | some h, some c =>
    match h.data with
    | .slotHashes hashes =>
      some (m.store [(slotHashesId, { h with data := .slotHashes (addSlotHash hashes block.slot block.hash) }),
        (clockId, { c with data := .clock (env.clock block) })])
    | _ => none
  | _, _ => none

def resetWriter (env : NodeEnv η δ) : ResetWriter (NodeAccount η) where
  authority := env.authority
  rentAccount rate := env.sysvarAccount (.rent rate)
  featureAccount := env.featureAccount
  requiresPersistence a := a.requiresPersistence
  sponsored a := { a with core := { a.core with lamports := sponsorInitBalance } }

def resetAccounts (env : NodeEnv η δ) (features : Pubkey → Bool) (reset : Reset) (m : AccountMap η) : AccountMap η :=
  env.resetWriter.apply features reset m

end NodeEnv

end MagicEngine
