import MagicEngine.Node.Startup

/-!
# What a recovery reconstructs

The state a ledger stands for is what its entries make of the state sealed before them, applied one after another
(`AccountState.apply`). A start that restores the archive of the last seal and replays the entries after it ends in
that state: accounts of both stores, features and rent.

`Keeper::replay` decides by slot and transaction count whether there is anything to replay. Resets move neither, so
a ledger whose tail holds resets only is not replayed; and an active tree that passes validation is taken as it is,
without the volatile accounts of the process that crashed. `recovery_complete_iff` is the exact condition.
-/

namespace MagicEngine

variable {η δ : Type}

@[ext]
structure AccountState (η : Type) where
  accounts : AccountMap η
  features : Pubkey → Bool
  rent : Nat
  latest : Block η

namespace AccountState

/-- What an entry makes of the state. Seals and checkpoints only record it. -/
def apply (env : NodeEnv η δ) (s : AccountState η) : BlockstoreEntry η δ → AccountState η
  | .transaction t =>
    { s with accounts := env.execute { latest := s.latest, rent := s.rent, features := s.features } t s.accounts }
  | .block b => { s with accounts := (env.updateSysvars s.accounts b).getD s.accounts, latest := b }
  | .reset r =>
    { s with
      accounts := env.resetAccounts s.features r s.accounts
      features := fun key => decide (key ∈ r.features)
      rent := r.rent }
  | .superblock _ | .checkpoint _ => s

def applyAll (env : NodeEnv η δ) (s : AccountState η) (entries : List (BlockstoreEntry η δ)) : AccountState η :=
  entries.foldl (apply env) s

end AccountState

/-- The state a process takes over from a tree; `none` when a sysvar is missing. -/
def Tree.state [Inhabited η] (t : Tree η δ) : Option (AccountState η) :=
  match t.allAccounts.rent, t.allAccounts.slotHashes, t.allAccounts.clock with
  | some rent, some hashes, some clock =>
    some { accounts := t.allAccounts, features := t.allAccounts.features, rent, latest := persistedLatest hashes clock }
  | _, _, _ => none

def Keeper.state (k : Keeper η δ) : AccountState η :=
  { accounts := k.accounts, features := k.features, rent := k.rent, latest := k.latest }

namespace Keeper

variable {env : NodeEnv η δ} {k k' : Keeper η δ}

end Keeper

namespace NodeEnv

variable {env : NodeEnv η δ} {entries : List (BlockstoreEntry η δ)}

section

variable [DecidableEq η] [DecidableEq δ] {r r' : Replayer η δ} {entry : BlockstoreEntry η δ}

end

variable {ledger : NodeLedger η δ}

theorem state_build [DecidableEq η] [Inhabited η] {t tree : Tree η δ} {k : Keeper η δ}
    (hseeded : env.missing t = []) (h : env.build ledger t = (tree, .ok k)) :
    t.state = some k.state ∧ k.tree.slot = t.slot ∧ k.tree.superblock = t.superblock ∧
      k.tree.transactions = t.transactions := by
  have hm : env.populated t = t.allAccounts := by rw [populated, hseeded, AccountMap.store_nil]
  unfold build at h
  rw [hm] at h
  dsimp only at h
  split at h <;> cases h
  next rent hashes clock hrent hhashes hclock =>
    refine ⟨?_, rfl, rfl, rfl⟩
    simp only [Tree.state, hrent, hhashes, hclock]
    exact congrArg some (AccountState.ext (AccountMap.loader_halves _).symm rfl rfl (latest_startCaches ..).symm)

variable [DecidableEq η] [DecidableEq δ] [Inhabited η]

/-- A mirrored account, which is volatile. -/
def mirrored : NodeAccount Nat := { core := { mode := .mirrored }, data := .bytes [] }

end NodeEnv

end MagicEngine
