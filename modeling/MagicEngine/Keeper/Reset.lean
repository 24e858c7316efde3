import MagicEngine.Processor.Sysvars
import MagicEngine.Store.Programs

/-!
# Resets

`apply_reset` (`keeper/src/lib.rs`) over the account database: close the features the reset does not name, create those
it adds, write the Rent sysvar, drop the volatile accounts and give the authority its initial balance again. All that
is stored are accounts built for the purpose, in a persistent mode or closed.

The effect on the persisted accounts is exact for every reset (`KeeperAccounts.applyReset_eq_ok`). A feature with the
address of the Rent sysvar is overwritten by the rent in the same batch, and one with the address of the authority
replaces the account of the authority. A reset that names neither converges (`KeeperAccounts.reset_converges`).
-/

namespace MagicEngine

open Codec
open Processor (Accounts Config SysvarCodec sponsored)
open VolatileStore (Rejects)

/-! ### Storing new accounts -/

/-- Accounts that fit are stored as they are. -/
private theorem store_eq_foldl {m : Accounts} {accounts : List (Pubkey × OwnedAccount)}
    (hfits : ∀ entry ∈ accounts, entry.2.Fits) : m.store accounts = accounts.foldl storing m := by
  induction accounts generalizing m with
  | nil => rfl
  | cons entry rest ih =>
    obtain ⟨hentry, hrest⟩ := List.forall_mem_cons.mp hfits
    rw [Accounts.store, ih hrest, List.foldl_cons, storing, OwnedAccount.stored_eq_iff.mpr hentry]

namespace AccountsDb

variable {b : Backend} {db db' : AccountsDb} {accounts : List (Pubkey × OwnedAccount)}

/-- What goes to the volatile backend is only taken out of it. -/
private theorem Built.volatile_empty (h : Built db accounts db') (hvolatile : db.volatile = {}) : db'.volatile = {} := by
  rw [h.volatile, hvolatile]
  have hrejects := h.rejects
  clear h
  generalize db'.mem = m
  induction accounts with
  | nil => rfl
  | cons entry rest ih =>
    obtain ⟨hentry, hrest⟩ := List.forall_mem_cons.mp hrejects
    have hdeleted : VolatileStore.upsertEntry entry.1 entry.2 {} = {} := by
      rcases hentry with hmode | hmode <;> simp [VolatileStore.upsertEntry, hmode, VolatileStore.delete]
    rw [builtEntries, List.map_cons, VolatileStore.upsert, List.foldl_cons]
    simp only [StoredAccount.image, hdeleted]
    exact ih hrest

private theorem store_built_of_fits (hwf : db.persisted.WellFormed) (hrejects : ∀ entry ∈ accounts, Rejects entry.2)
    (hfits : ∀ entry ∈ accounts, entry.2.Fits) (h : db.store b (builtEntries accounts) = (.ok (), db')) :
    db'.persisted.WellFormed ∧ db'.persisted.find = Accounts.store db.persisted.find accounts ∧
      (db.volatile = {} → db'.volatile = {}) := by
  obtain ⟨hbuilt, -⟩ := store_built (I := fun _ => True) (fun _ _ _ _ _ _ => id) trivial hwf hrejects h
  exact ⟨hbuilt.persisted, hbuilt.find.trans (store_eq_foldl hfits).symm, hbuilt.volatile_empty⟩

def HasFeature (db : AccountsDb) (id : Pubkey) : Prop :=
  ∃ account, db.Stores id account ∧ account.core.owner = featureGateId ∧ account.core.mode = .runtime

theorem hasFeature_iff_find (hwf : db.WellFormed) {id : Pubkey} : db.HasFeature id ↔
    ∃ account, db.persisted.find id = some account ∧ account.core.owner = featureGateId ∧
      account.core.mode = .runtime := by
  refine exists_congr fun account => and_congr_left fun ⟨_, hmode⟩ => ⟨fun h => ?_, .inl⟩
  rcases h with h | h
  · exact h
  · have := (hwf.exclusive id account h).2.1
    rw [hmode] at this
    cases this

theorem mem_restoreFeatures (hwf : db.persisted.WellFormed) (hvolatile : db.volatile = {})
    (htail : db.TailUnique featureGateId) {id : Pubkey} : id ∈ db.restoreFeatures ↔
      ∃ account, db.persisted.find id = some account ∧ account.core.owner = featureGateId ∧
        account.core.mode = .runtime := by
  have hnone : db.volatile.program featureGateId = [] := by
    rw [hvolatile]
    simp [VolatileStore.program]
  simp only [restoreFeatures, program, hnone, List.append_nil, List.mem_toFinset, List.mem_map, List.mem_filter,
    beq_iff_eq, Prod.exists, exists_and_right, exists_eq_right]
  refine exists_congr fun account => ?_
  rw [PersistedStore.mem_program_iff_find hwf]
  constructor
  · rintro ⟨⟨hfind, htail'⟩, hmode⟩
    exact ⟨hfind, htail id account hfind htail', hmode⟩
  · rintro ⟨hfind, howner, hmode⟩
    exact ⟨⟨hfind, congrArg Pubkey.tail howner⟩, hmode⟩

end AccountsDb

/-! ### Applying a reset -/

/-- The order in which a hash map yields its keys. -/
structure HashOrder where
  keys : Finset Pubkey → List Pubkey
  mem_keys : ∀ set key, key ∈ keys set ↔ key ∈ set

structure KeeperAccounts where
  accountsdb : AccountsDb
  featureset : Finset Pubkey
  rent : Nat

namespace KeeperAccounts

section Codec

variable [SysvarCodec]

def closedAccount : OwnedAccount := { core := { mode := .closed } }

def rentAccount (c : Config) (reset : Reset) : OwnedAccount :=
  c.runtimeAccount (SysvarCodec.encodeRent (c.rentOf reset.rent)) sysvarOwnerId

/-- The accounts `apply_reset` stores first. -/
def resetBatch (c : Config) (order : HashOrder) (previous : Finset Pubkey) (reset : Reset) :
    List (Pubkey × OwnedAccount) :=
  let features := reset.features.toFinset
  ((order.keys previous).filter (· ∉ features)).map (·, closedAccount) ++
    ((order.keys features).filter (· ∉ previous)).map (·, c.featureAccount) ++ [(rentId, rentAccount c reset)]

/-- `apply_reset`; `b` and `b'` serve its two batches. -/
def applyReset (c : Config) (order : HashOrder) (b b' : Backend) (reset : Reset) (k : KeeperAccounts) :
    Except AccountsDBError Unit × KeeperAccounts :=
  let features := reset.features.toFinset
  match k.accountsdb.store b (builtEntries (resetBatch c order k.featureset reset)) with
  | (.error e, accountsdb) => (.error e, { k with accountsdb })
  | (.ok (), accountsdb) =>
    let k : KeeperAccounts :=
      { accountsdb := accountsdb.reset
        featureset := if k.featureset ≠ features then features else k.featureset
        rent := reset.rent }
    match k.accountsdb.read c.authority with
    | none => (.ok (), k)
    | some account =>
      match k.accountsdb.store b' (builtEntries [(c.authority, sponsored account)]) with
      | (result, accountsdb) => (result, { k with accountsdb })

variable {c : Config} {order : HashOrder} {b b' : Backend} {reset : Reset} {k k' : KeeperAccounts}

omit [SysvarCodec] in
private theorem store_map_const {m : Accounts} {keys : List Pubkey} {account : OwnedAccount} (key : Pubkey) :
    Accounts.store m (keys.map (·, account)) key =
      if key ∈ keys then (if account.core.mode = .closed then none else some account) else m key := by
  induction keys generalizing m with
  | nil => rfl
  | cons first rest ih =>
    rw [List.map_cons, Accounts.store, ih, Function.update_apply]
    by_cases hrest : key ∈ rest
    · simp [hrest]
    · simp [hrest]

private theorem store_resetBatch (m : Accounts) :
    Accounts.store m (resetBatch c order k.featureset reset) = c.resetWriter.stored (· ∈ k.featureset) reset m := by
  funext key
  have hrent : (rentAccount c reset).core.mode ≠ .closed := nofun
  have hfeature : c.featureAccount.core.mode ≠ .closed := nofun
  simp only [resetBatch, Accounts.store_append, store_map_const, Accounts.store, Function.update_apply, if_neg hrent,
    List.mem_filter, order.mem_keys, List.mem_toFinset, decide_eq_true_eq, if_neg hfeature]
  rw [ResetWriter.stored]
  by_cases hkey : key = rentId
  · simp only [hkey, if_true, rentAccount, Config.resetWriter]
  · by_cases hnamed : key ∈ reset.features <;> by_cases hactive : key ∈ k.featureset <;>
      simp [hkey, hnamed, hactive, closedAccount, Config.resetWriter]

private theorem rejects_resetBatch : ∀ entry ∈ resetBatch c order k.featureset reset, Rejects entry.2 := by
  intro entry hentry
  simp only [resetBatch, List.mem_append, List.mem_map, List.mem_singleton] at hentry
  rcases hentry with (⟨key, -, rfl⟩ | ⟨key, -, rfl⟩) | rfl
  · exact .inr rfl
  · exact .inl rfl
  · exact .inl rfl

private theorem fits_resetBatch : ∀ entry ∈ resetBatch c order k.featureset reset, entry.2.Fits := by
  intro entry hentry
  simp only [resetBatch, List.mem_append, List.mem_map, List.mem_singleton] at hentry
  rcases hentry with (⟨key, -, rfl⟩ | ⟨key, -, rfl⟩) | rfl
  · exact show ([] : Bytes).length < 2 ^ 32 by decide
  · exact show (1 :: encodeU64 0).length < 2 ^ 32 by decide
  · show (SysvarCodec.encodeRent (c.rentOf reset.rent)).length < 2 ^ 32
    rw [SysvarCodec.length_encodeRent]
    decide

/-- All that a reset stores is persisted. -/
private theorem resetAccounts_eq (hwf : k.accountsdb.persisted.WellFormed) :
    c.resetAccounts (· ∈ k.featureset) reset k.accountsdb.persisted.find =
      c.resetWriter.restoreSponsor (c.resetWriter.stored (· ∈ k.featureset) reset k.accountsdb.persisted.find) := by
  rw [Config.resetAccounts, ResetWriter.apply]
  refine congrArg c.resetWriter.restoreSponsor (funext fun key => ?_)
  have hfind : (k.accountsdb.persisted.find key).filter c.resetWriter.requiresPersistence =
      k.accountsdb.persisted.find key := by
    cases hk : k.accountsdb.persisted.find key with
    | none => rfl
    | some account =>
      obtain ⟨data, hlookup, hs⟩ := Option.bind_eq_some_iff.mp hk
      obtain ⟨s, hs', -, hmode, -⟩ := hwf.indexed _ _ hlookup
      rw [hs', Option.map_some] at hs
      obtain rfl := Option.some.inj hs
      exact Option.filter_some_pos hmode
  unfold ResetWriter.stored
  split
  · rfl
  · split
    · split
      · exact hfind
      · rfl
    · split
      · rfl
      · exact hfind

private theorem restoreSponsor_apply (m : Accounts) (key : Pubkey) :
    c.resetWriter.restoreSponsor m key = if key = c.authority then (m key).map sponsored else m key :=
  c.resetWriter.restoreSponsor_apply m key

/-- What a successful reset does, whatever it names. -/
theorem applyReset_eq_ok (hwf : k.accountsdb.persisted.WellFormed)
    (h : k.applyReset c order b b' reset = (.ok (), k')) : k'.accountsdb.persisted.WellFormed ∧
      k'.accountsdb.volatile = {} ∧ k'.featureset = reset.features.toFinset ∧ k'.rent = reset.rent ∧
      k'.accountsdb.persisted.find = c.resetAccounts (· ∈ k.featureset) reset k.accountsdb.persisted.find := by
  rw [resetAccounts_eq hwf]
  have hset : (if k.featureset ≠ reset.features.toFinset then reset.features.toFinset else k.featureset) =
      reset.features.toFinset := by
    by_cases heq : k.featureset = reset.features.toFinset <;> simp [heq]
  unfold applyReset at h
  split at h
  · cases h
  · next db hstore =>
    obtain ⟨hdb, hfind, -⟩ := AccountsDb.store_built_of_fits hwf rejects_resetBatch fits_resetBatch hstore
    rw [store_resetBatch] at hfind
    have hread : db.reset.read c.authority = db.persisted.find c.authority := by
      have hreset : db.reset.WellFormed := ⟨hdb, fun key a hk => by cases hk⟩
      rw [AccountsDb.read_eq hreset]
      rfl
    simp only [hset, hread] at h
    have hsponsor : ∀ account, db.persisted.find c.authority = some account →
        c.resetWriter.restoreSponsor (c.resetWriter.stored (· ∈ k.featureset) reset k.accountsdb.persisted.find) =
          Function.update db.persisted.find c.authority (some (sponsored account)) := by
      intro account haccount
      funext key
      rw [← hfind, restoreSponsor_apply, Function.update_apply]
      split
      · next heq => rw [heq, haccount, Option.map_some]
      · rfl
    split at h
    · next hnone =>
      cases h
      refine ⟨hdb, rfl, rfl, rfl, ?_⟩
      funext key
      rw [← hfind, restoreSponsor_apply]
      split
      · next heq =>
        rw [heq]
        exact hnone.trans (congrArg (Option.map sponsored) hnone).symm
      · rfl
    · next account haccount =>
      generalize hsecond : db.reset.store b' (builtEntries [(c.authority, sponsored account)]) = second at h
      obtain ⟨result, db'⟩ := second
      cases h
      obtain ⟨hmode, hfits⟩ : account.core.mode.requiresPersistence ∧ account.Fits := by
        obtain ⟨data, hk, hs⟩ := Option.bind_eq_some_iff.mp haccount
        obtain ⟨s, hs', -, hmode, -⟩ := hdb.indexed _ _ hk
        rw [hs', Option.map_some] at hs
        obtain rfl := Option.some.inj hs
        exact ⟨hmode, hdb.fits _ _ s hk hs'⟩
      have hopen : (sponsored account).core.mode ≠ .closed := fun (heq : account.core.mode = .closed) => by
        rw [heq] at hmode
        cases hmode
      have hsponsored : ∀ entry ∈ [(c.authority, sponsored account)], Rejects entry.2 := by
        simpa using .inl hmode
      have hsponsoredFits : ∀ entry ∈ [(c.authority, sponsored account)], entry.2.Fits := by
        simpa using show (sponsored account).Fits from hfits
      obtain ⟨hdb', hfind', hvolatile⟩ :=
        @AccountsDb.store_built_of_fits b' db.reset db' _ hdb hsponsored hsponsoredFits hsecond
      refine ⟨hdb', hvolatile rfl, rfl, rfl, ?_⟩
      rw [hsponsor account haccount, hfind']
      simp only [Accounts.store, if_neg hopen]
      rfl

/-! ### Convergence -/

def FeaturesMatch (k : KeeperAccounts) : Prop := ∀ id, id ∈ k.featureset ↔ k.accountsdb.HasFeature id

/-- The state after a reset of `k`. -/
structure Converged (c : Config) (reset : Reset) (k k' : KeeperAccounts) : Prop where
  hasFeature : ∀ id, k'.accountsdb.HasFeature id ↔ id ∈ reset.features
  featureset : k'.featureset = reset.features.toFinset
  restored : k'.accountsdb.restoreFeatures = reset.features.toFinset
  rentAccount : k'.accountsdb.persisted.find rentId = some (rentAccount c reset)
  rent : k'.rent = reset.rent
  volatile : k'.accountsdb.volatile = {}
  /-- An authority that was an active feature is closed. -/
  authority : k'.accountsdb.persisted.find c.authority =
    if c.authority ∈ k.featureset then none else (k.accountsdb.persisted.find c.authority).map sponsored
  /-- Active features that the reset names are left alone. -/
  features : ∀ id ∈ reset.features, k'.accountsdb.persisted.find id =
    if id ∈ k.featureset then k.accountsdb.persisted.find id else some c.featureAccount
  frame : ∀ key, key ≠ rentId → key ≠ c.authority → key ∉ k.featureset → key ∉ reset.features →
    k'.accountsdb.persisted.find key = k.accountsdb.persisted.find key

section Reset

variable (hwf : k.accountsdb.WellFormed) (hmatch : k.FeaturesMatch) (hrent : rentId ∉ reset.features)
  (hauthority : c.authority ∉ reset.features) (hne : c.authority ≠ rentId)
  (h : k.applyReset c order b b' reset = (.ok (), k'))

include hwf h

private theorem find_applyReset (key : Pubkey) : k'.accountsdb.persisted.find key =
    if key = c.authority then
      (c.resetWriter.stored (· ∈ k.featureset) reset k.accountsdb.persisted.find key).map sponsored
    else c.resetWriter.stored (· ∈ k.featureset) reset k.accountsdb.persisted.find key := by
  have hfind := congrFun (applyReset_eq_ok hwf.persisted h).2.2.2.2 key
  rw [resetAccounts_eq hwf.persisted] at hfind
  exact hfind.trans (restoreSponsor_apply _ key)

private theorem wellFormed_applyReset : k'.accountsdb.WellFormed := by
  obtain ⟨hwf', hvolatile, -⟩ := applyReset_eq_ok hwf.persisted h
  refine ⟨hwf', fun key a hk => ?_⟩
  rw [hvolatile] at hk
  cases hk

/-- Every account after the reset is a feature, the rent, or an account from before with its owner and mode. -/
private theorem origin {key : Pubkey} {account : OwnedAccount} (hfind : k'.accountsdb.persisted.find key = some account) :
    account.core.owner = sysvarOwnerId ∧ key = rentId ∨ account.core.owner = featureGateId ∧ key ∈ reset.features ∨
      ∃ old, k.accountsdb.persisted.find key = some old ∧ account.core.owner = old.core.owner ∧
        account.core.mode = old.core.mode ∧ (key ∈ k.featureset → key ∈ reset.features) := by
  rw [find_applyReset hwf h key] at hfind
  generalize hstored : c.resetWriter.stored (· ∈ k.featureset) reset k.accountsdb.persisted.find key = stored at hfind
  obtain ⟨old, rfl, howner, hmode⟩ : ∃ old, stored = some old ∧ account.core.owner = old.core.owner ∧
      account.core.mode = old.core.mode := by
    split at hfind
    · obtain ⟨old, hold, rfl⟩ := Option.map_eq_some_iff.mp hfind
      exact ⟨old, hold, rfl, rfl⟩
    · exact ⟨account, hfind, rfl, rfl⟩
  unfold ResetWriter.stored at hstored
  split at hstored
  · next hkey =>
    obtain rfl := Option.some.inj hstored
    exact .inl ⟨howner, hkey⟩
  · split at hstored
    · next hnamed =>
      split at hstored
      · exact .inr (.inr ⟨old, hstored, howner, hmode, fun _ => hnamed⟩)
      · obtain rfl := Option.some.inj hstored
        exact .inr (.inl ⟨howner, hnamed⟩)
    · split at hstored
      · cases hstored
      · next hactive =>
        exact .inr (.inr ⟨old, hstored, howner, hmode, fun hmem => absurd (by simpa using hmem) hactive⟩)

private theorem tailUnique_applyReset (htail : k.accountsdb.TailUnique featureGateId) :
    k'.accountsdb.TailUnique featureGateId := by
  intro key account hfind heq
  rcases origin hwf h hfind with ⟨howner, -⟩ | ⟨howner, -⟩ | ⟨old, hold, howner, -⟩
  · rw [howner] at heq
    exact absurd heq (by decide)
  · exact howner
  · rw [howner] at heq ⊢
    exact htail key old hold heq

include hmatch hrent

private theorem find_feature_iff (id : Pubkey) : (∃ account, k'.accountsdb.persisted.find id = some account ∧
    account.core.owner = featureGateId ∧ account.core.mode = .runtime) ↔ id ∈ reset.features := by
  have hold := fun id => (hmatch id).trans (AccountsDb.hasFeature_iff_find hwf)
  constructor
  · rintro ⟨account, hfind, howner, hmode⟩
    rcases origin hwf h hfind with ⟨howner', -⟩ | ⟨-, hnamed⟩ | ⟨old, hfind', howner', hmode', himp⟩
    · exact absurd (howner'.symm.trans howner) (by decide)
    · exact hnamed
    · exact himp ((hold id).mpr ⟨old, hfind', howner'.symm.trans howner, hmode'.symm.trans hmode⟩)
  · intro hnamed
    have hkey : id ≠ rentId := fun heq => hrent (heq ▸ hnamed)
    obtain ⟨stored, hstored, howner, hmode⟩ : ∃ stored,
        c.resetWriter.stored (· ∈ k.featureset) reset k.accountsdb.persisted.find id = some stored ∧
          stored.core.owner = featureGateId ∧ stored.core.mode = .runtime := by
      by_cases hactive : id ∈ k.featureset
      · obtain ⟨old, hfind', hrest⟩ := (hold id).mp hactive
        exact ⟨old, by simpa [ResetWriter.stored, hkey, hnamed, hactive] using hfind', hrest⟩
      · exact ⟨c.featureAccount, by simp [ResetWriter.stored, Config.resetWriter, hkey, hnamed, hactive], rfl, rfl⟩
    refine ⟨if id = c.authority then sponsored stored else stored, ?_, by split <;> exact howner,
      by split <;> exact hmode⟩
    rw [find_applyReset hwf h id, hstored]
    split <;> rfl

include hauthority hne

private theorem converged (htail : k.accountsdb.TailUnique featureGateId) : Converged c reset k k' := by
  obtain ⟨hwf', hvolatile, hfeatureset, hrate, -⟩ := applyReset_eq_ok hwf.persisted h
  have hfind := find_applyReset hwf h
  have hgates := find_feature_iff hwf hmatch hrent h
  refine ⟨fun id => ?_, hfeatureset, ?_, ?_, hrate, hvolatile, ?_, fun id hid => ?_, fun key hkey hkey' hold hnew => ?_⟩
  · exact (AccountsDb.hasFeature_iff_find (wellFormed_applyReset hwf h)).trans (hgates id)
  · ext id
    rw [AccountsDb.mem_restoreFeatures hwf' hvolatile (tailUnique_applyReset hwf h htail), List.mem_toFinset]
    exact hgates id
  · rw [hfind, if_neg (Ne.symm hne)]
    simp [ResetWriter.stored, Config.resetWriter, rentAccount]
  · rw [hfind, if_pos rfl]
    by_cases hactive : c.authority ∈ k.featureset <;> simp [ResetWriter.stored, hne, hauthority, hactive]
  · have hkey : id ≠ rentId := fun heq => hrent (heq ▸ hid)
    have hkey' : id ≠ c.authority := fun heq => hauthority (heq ▸ hid)
    rw [hfind, if_neg hkey']
    simp [ResetWriter.stored, Config.resetWriter, hkey, hid]
  · rw [hfind, if_neg hkey']
    simp [ResetWriter.stored, hkey, hnew, hold]

end Reset

/-- The persisted accounts are those of `base` and the accounts of the active features. -/
def OnTop (c : Config) (base : Accounts) (k : KeeperAccounts) : Prop :=
  ∀ key, k.accountsdb.persisted.find key = if key ∈ k.featureset then some c.featureAccount else base key

private theorem resetStored_onTop {base : Accounts} (htop : k.OnTop c base) (hbase : ∀ key ∈ k.featureset, base key = none) :
    c.resetWriter.stored (· ∈ k.featureset) reset k.accountsdb.persisted.find = fun key =>
      if key = rentId then some (rentAccount c reset)
      else if key ∈ reset.features then some c.featureAccount else base key := by
  funext key
  rw [ResetWriter.stored, htop key]
  by_cases hactive : key ∈ k.featureset
  · simp [hactive, hbase key hactive, rentAccount, Config.resetWriter]
  · simp [hactive, rentAccount, Config.resetWriter]

/-- A reset that names neither the Rent sysvar nor the authority makes its features the active ones, in memory, in the
accounts and for a restart, sets the rent and drops the volatile accounts; of the other accounts it changes the balance
of the authority only. Two nodes agree after it, and a second application changes nothing. -/
theorem reset_converges (hwf : k.accountsdb.WellFormed) (hmatch : k.FeaturesMatch)
    (htail : k.accountsdb.TailUnique featureGateId) (hrent : rentId ∉ reset.features)
    (hauthority : c.authority ∉ reset.features) (hne : c.authority ≠ rentId)
    (h : k.applyReset c order b b' reset = (.ok (), k')) :
    Converged c reset k k' ∧
      (∀ (order₂ : HashOrder) (b₂ b₂' : Backend) (k₂ k₂' : KeeperAccounts), k₂.accountsdb.WellFormed →
        k₂.FeaturesMatch → k₂.accountsdb.TailUnique featureGateId → k₂.applyReset c order₂ b₂ b₂' reset = (.ok (), k₂') →
        ((∀ id, k'.accountsdb.HasFeature id ↔ k₂'.accountsdb.HasFeature id) ∧ k'.featureset = k₂'.featureset ∧
          k'.accountsdb.restoreFeatures = k₂'.accountsdb.restoreFeatures ∧ k'.rent = k₂'.rent ∧
          k'.accountsdb.persisted.find rentId = k₂'.accountsdb.persisted.find rentId ∧
          k'.accountsdb.volatile = k₂'.accountsdb.volatile) ∧
        ∀ base : Accounts, (∀ key ∈ k.featureset ∪ k₂.featureset, base key = none) → k.OnTop c base → k₂.OnTop c base →
          k'.accountsdb.persisted.find = k₂'.accountsdb.persisted.find) ∧
      ∀ (order₂ : HashOrder) (b₂ b₂' : Backend) (k'' : KeeperAccounts), k'.applyReset c order₂ b₂ b₂' reset = (.ok (), k'') →
        k''.accountsdb.persisted.find = k'.accountsdb.persisted.find ∧ k''.featureset = k'.featureset ∧
          k''.rent = k'.rent ∧ k''.accountsdb.volatile = k'.accountsdb.volatile := by
  have hconverged := converged hwf hmatch hrent hauthority hne h htail
  refine ⟨hconverged, fun order₂ b₂ b₂' k₂ k₂' hwf₂ hmatch₂ htail₂ h₂ => ⟨?_, fun base hbase htop htop₂ => ?_⟩,
    fun order₂ b₂ b₂' k'' h₂ => ?_⟩
  · have hconverged₂ := converged hwf₂ hmatch₂ hrent hauthority hne h₂ htail₂
    exact ⟨fun id => (hconverged.hasFeature id).trans (hconverged₂.hasFeature id).symm,
      hconverged.featureset.trans hconverged₂.featureset.symm, hconverged.restored.trans hconverged₂.restored.symm,
      hconverged.rent.trans hconverged₂.rent.symm, hconverged.rentAccount.trans hconverged₂.rentAccount.symm,
      hconverged.volatile.trans hconverged₂.volatile.symm⟩
  · rw [(applyReset_eq_ok hwf.persisted h).2.2.2.2, (applyReset_eq_ok hwf₂.persisted h₂).2.2.2.2,
      resetAccounts_eq hwf.persisted, resetAccounts_eq hwf₂.persisted,
      resetStored_onTop htop fun key hkey => hbase key (Finset.mem_union_left _ hkey),
      resetStored_onTop htop₂ fun key hkey => hbase key (Finset.mem_union_right _ hkey)]
  · -- the first application left the accounts as the second one writes them
    have hwf' := wellFormed_applyReset hwf h
    obtain ⟨-, hvolatile, hfeatureset, hrate, hfind⟩ := applyReset_eq_ok hwf'.persisted h₂
    refine ⟨?_, hfeatureset.trans hconverged.featureset.symm, hrate.trans hconverged.rent.symm,
      hvolatile.trans hconverged.volatile.symm⟩
    have hsame : c.resetWriter.stored (· ∈ k'.featureset) reset k'.accountsdb.persisted.find =
        k'.accountsdb.persisted.find := by
      funext key
      simp only [ResetWriter.stored, hconverged.featureset, List.mem_toFinset, decide_eq_true_eq]
      split
      · next hkey =>
        rw [hkey, hconverged.rentAccount]
        rfl
      · split <;> rfl
    rw [hfind, resetAccounts_eq hwf'.persisted, hsame]
    funext key
    rw [restoreSponsor_apply]
    split
    · next hkey =>
      rw [hkey, hconverged.authority]
      split
      · rfl
      · rw [Option.map_map]
        rfl
    · rfl

end Codec

def sortedOrder : HashOrder := ⟨fun set => set.sort (· ≤ ·), fun _ _ => Finset.mem_sort (· ≤ ·)⟩

def resetConfig : Config where
  authority := ⟨2⟩
  defaultRent := { lamportsPerByte := 6960, exemptionThreshold := 0x3ff0000000000000, burnPercent := 50 }
  rent := { lamportsPerByte := 6960, exemptionThreshold := 0x3ff0000000000000, burnPercent := 50 }
  superblock := 0
  epochs _ slot := (slot, slot)
  minimumBalance _ := 1
  defaultFeatures := []
  seeds := []

/-- The feature `1` and an authority that spent its balance. -/
def spentAccounts : List (Pubkey × OwnedAccount) :=
  [(⟨1⟩, resetConfig.featureAccount), (⟨2⟩, { core := { lamports := 3, mode := .magic } })]

def spentKeeper : KeeperAccounts where
  accountsdb := ((AccountsDb.new .release).store .release (builtEntries spentAccounts)).2
  featureset := {⟨1⟩}
  rent := 6960

private theorem spentKeeper_spec : spentKeeper.accountsdb.WellFormed ∧
    spentKeeper.accountsdb.persisted.find = Accounts.store (fun _ => none) spentAccounts := by
  have hnew : (AccountsDb.new .release).WellFormed := .new .release
  obtain ⟨hwf, hfind, hvolatile⟩ := @AccountsDb.store_built_of_fits .release (.new .release) spentKeeper.accountsdb
    spentAccounts hnew.persisted (by decide) (by decide) (Prod.ext rfl rfl)
  refine ⟨⟨hwf, fun key a hk => ?_⟩, hfind⟩
  rw [hvolatile rfl] at hk
  cases hk

private theorem spentKeeper_find (key : Pubkey) (account : OwnedAccount) :
    spentKeeper.accountsdb.persisted.find key = some account ↔
      key = ⟨1⟩ ∧ account = resetConfig.featureAccount ∨
        key = ⟨2⟩ ∧ account = { core := { lamports := 3, mode := .magic } } := by
  rw [congrFun spentKeeper_spec.2 key]
  have hfeature : resetConfig.featureAccount.core.mode ≠ .closed := by decide
  simp only [spentAccounts, Accounts.store, Function.update_apply, if_neg hfeature]
  by_cases h₂ : key = ⟨2⟩
  · simp [h₂, eq_comm]
  · by_cases h₁ : key = ⟨1⟩
    · simp [h₁, eq_comm]
    · rw [if_neg h₂, if_neg h₁]
      exact ⟨fun h => (by cases h), fun h => (h.elim (fun h => h₁ h.1) fun h => h₂ h.1).elim⟩

theorem reset_converges_spent : ∃ k', spentKeeper.applyReset resetConfig sortedOrder .release .release
    ⟨9, 7, [⟨3⟩]⟩ = (.ok (), k') ∧ Converged resetConfig ⟨9, 7, [⟨3⟩]⟩ spentKeeper k' := by
  have hok : (spentKeeper.applyReset resetConfig sortedOrder .release .release ⟨9, 7, [⟨3⟩]⟩).1 = .ok () := by
    decide +kernel
  refine ⟨_, Prod.ext hok rfl, (reset_converges spentKeeper_spec.1 (fun id => ?_) (fun key account hfind htail => ?_)
    (by decide) (by decide) (by decide) (Prod.ext hok rfl)).1⟩
  · rw [AccountsDb.hasFeature_iff_find spentKeeper_spec.1]
    simp only [spentKeeper_find]
    constructor
    · intro hid
      exact ⟨_, .inl ⟨Finset.mem_singleton.mp hid, rfl⟩, rfl, rfl⟩
    · rintro ⟨account, ⟨rfl, -⟩ | ⟨rfl, rfl⟩, howner, hmode⟩
      · exact Finset.mem_singleton_self _
      · cases hmode
  · rcases (spentKeeper_find key account).mp hfind with ⟨-, rfl⟩ | ⟨-, rfl⟩
    · rfl
    · exact absurd htail (by decide)

def blankKeeper : KeeperAccounts := { accountsdb := .new .release, featureset := ∅, rent := 6960 }

/-- A reset that names the Rent sysvar as a feature: the batch creates the feature and overwrites it with the rent, so
the feature is active in memory and its account is not there. -/
theorem reset_names_rent : blankKeeper.accountsdb.WellFormed ∧ blankKeeper.FeaturesMatch ∧
    ∃ k', blankKeeper.applyReset resetConfig sortedOrder .release .release ⟨9, 7, [rentId]⟩ = (.ok (), k') ∧
      rentId ∈ k'.featureset ∧ ¬k'.accountsdb.HasFeature rentId := by
  have hwf : blankKeeper.accountsdb.WellFormed := .new .release
  have hnone : ∀ key, blankKeeper.accountsdb.persisted.find key = none := fun _ => rfl
  have hok : (blankKeeper.applyReset resetConfig sortedOrder .release .release ⟨9, 7, [rentId]⟩).1 = .ok () := by
    decide +kernel
  obtain ⟨k', hreset⟩ : ∃ k', blankKeeper.applyReset resetConfig sortedOrder .release .release ⟨9, 7, [rentId]⟩ =
      (.ok (), k') := ⟨_, Prod.ext hok rfl⟩
  refine ⟨hwf, fun id => ?_, k', hreset, ?_, ?_⟩
  · rw [AccountsDb.hasFeature_iff_find hwf]
    simp only [hnone]
    exact ⟨fun hid => absurd hid (Finset.notMem_empty id), nofun⟩
  · rw [(applyReset_eq_ok hwf.persisted hreset).2.2.1]
    decide
  · rw [AccountsDb.hasFeature_iff_find (wellFormed_applyReset hwf hreset), find_applyReset hwf hreset]
    rintro ⟨account, hfind, howner, -⟩
    have haccount : account = rentAccount resetConfig ⟨9, 7, [rentId]⟩ := by
      rw [if_neg (by decide)] at hfind
      simpa [ResetWriter.stored, Config.resetWriter, rentAccount, eq_comm] using hfind
    rw [haccount] at howner
    exact absurd howner (by decide)

end KeeperAccounts

end MagicEngine
