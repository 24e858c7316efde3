import MagicEngine.Node.Accounts
import MagicEngine.Store.Atomicity
import MagicEngine.Store.Backends

/-!
# Program iteration

`AccountsDB::program` lists the persisted accounts of an owner, then the volatile ones. The programs table of the
persisted index is keyed by the tail half of the owner, and the iterator takes every offset under that key; it does not
compare the owner in the image. So a listing is exact unless a persisted account has another owner with the same tail
(`AccountsDb.program_exact_iff`).

Failed batches count here as well, as long as they reuse no span of an account; they leave the listings alone, but the
space they allocated is lost.
-/

namespace MagicEngine

/-! ### Batches and the tables -/

namespace PersistedStore

variable {b : Backend} {fault : Option Fault} {p q : PersistedStore} {entry : AccountEntry} {entries : List AccountEntry}

/-- What an entry keeps even in a store with lost space. -/
private theorem grows_applied (hwf : p.WellFormed) (h : Applied b fault entry p q) :
    p.storage.cursor ≤ q.storage.cursor ∧ (p.index.programs.Nodup → q.index.programs.Nodup) := by
  cases h with
  | released hmode hfault => exact ⟨by rw [storage_release], programs_nodup_release⟩
  | updated view hcow hmode hfault =>
    refine ⟨le_rfl, fun hnodup => ?_⟩
    dsimp only
    split
    · exact programs_nodup_updateOwner hnodup
    · exact hnodup
  | inserted acc offset q hcow hmode hfault hq =>
    obtain ⟨-, -, hprograms, -, -, hcursor, -⟩ := allocate_granted hwf.layout acc.units_pos hq
    have hstorage : (q.place entry.1 acc offset).storage = q.storage := storage_release
    refine ⟨by rwa [hstorage], fun hnodup => DupTable.nodup_put (programs_nodup_release ?_)⟩
    rwa [hprograms]

theorem cursor_le_upsert (hwf : p.WellFormed) (hprepared : ∀ entry ∈ entries, Prepared p entry)
    (hnodup : (entries.map Prod.fst).Nodup) : p.storage.cursor ≤ (p.upsert b entries).2.storage.cursor := by
  obtain ⟨-, -, q, -, -, hq, hcursor, -⟩ := upsert_progress (b := b) (I := (p.storage.cursor ≤ ·.storage.cursor))
    (fun _ _ _ _ hwf happlied h => h.trans (grows_applied hwf happlied).1) le_rfl hwf hprepared hnodup
  exact hq.trans hcursor

theorem programs_nodup_upsert (h : p.index.programs.Nodup) (hwf : p.WellFormed)
    (hprepared : ∀ entry ∈ entries, Prepared p entry) (hnodup : (entries.map Prod.fst).Nodup) :
    (p.upsert b entries).2.index.programs.Nodup := by
  obtain ⟨-, -, q, -, -, hq, -, ⟨hok, -⟩ | ⟨-, hindex, -⟩⟩ := upsert_progress (b := b) (I := (·.index.programs.Nodup))
    (fun _ _ _ _ hwf happlied => (grows_applied hwf happlied).2) h hwf hprepared hnodup
  · rwa [hok]
  · rwa [hindex]

/-- The listing of an owner has the accounts whose owner has its tail. -/
theorem mem_program_iff_find {key owner : Pubkey} {account : OwnedAccount} (h : p.WellFormed) :
    (key, account) ∈ p.program owner ↔ p.find key = some account ∧ account.core.owner.tail = owner.tail := by
  rw [mem_program h.mapped h.exact]
  constructor
  · rintro ⟨data, s, hk, howner, hs, rfl⟩
    obtain ⟨s', hs', -, -, htail⟩ := h.indexed key data hk
    cases hs.symm.trans hs'
    exact ⟨find_of_lookup hk hs, htail.trans howner⟩
  · rintro ⟨hfind, htail⟩
    cases hk : p.index.accounts.lookup key with
    | none =>
      rw [(find_eq_none h).mpr hk] at hfind
      cases hfind
    | some data =>
      obtain ⟨s, hs, -, -, howner⟩ := h.indexed key data hk
      rw [find_of_lookup hk hs] at hfind
      obtain rfl := Option.some.inj hfind
      exact ⟨data, s, rfl, howner.symm.trans htail, hs, rfl⟩

end PersistedStore

namespace AccountsDb

variable {b : Backend} {db db' : AccountsDb} {entries : List AccountEntry} {owner key : Pubkey} {account : OwnedAccount}

/-! ### States of a database -/

def Spares (b : Backend) (db : AccountsDb) (entries : List AccountEntry) : Prop :=
  ∀ key data, db.persisted.index.accounts.lookup key = some data →
    data.offset ∉ db.persisted.reuses b (entries.filter (AccountEntry.isPersisted db.mem))

/-- States of a database with batches that succeed, or fail and spare the spans of all accounts. Compaction is any
relocation that keeps the accounts and lists nothing twice. -/
inductive History : AccountsDb → Prop where
  | new (b : Backend) : History (AccountsDb.new b)
  | change {db : AccountsDb} (h : History db) {m : Memory} (hm : ShadowOnly db.mem m) :
      History { db with persisted.mem := m }
  | store {db : AccountsDb} (h : History db) (b : Backend) (entries : List AccountEntry)
      (hprepared : ∀ entry ∈ entries, Prepared db.persisted entry) (hnodup : (entries.map Prod.fst).Nodup)
      (hspares : (db.store b entries).1 = .ok () ∨ Spares b db entries) : History (db.store b entries).2
  | build {db : AccountsDb} (h : History db) (b : Backend) (accounts : List (Pubkey × OwnedAccount))
      (hrejects : ∀ entry ∈ accounts, VolatileStore.Rejects entry.2)
      (hok : (db.store b (builtEntries accounts)).1 = .ok ()) : History (db.store b (builtEntries accounts)).2
  | reset {db : AccountsDb} (h : History db) : History db.reset
  | reopen {db : AccountsDb} (h : History db) (dumped : Bool) : History (db.reopen dumped)
  | relocate {db db' : AccountsDb} (h : History db) (hmoved : Relocated db db')
      (hnodup : db'.persisted.index.programs.Nodup) : History db'

theorem Relocated.trans {db'' : AccountsDb} (h : Relocated db db') (h' : Relocated db' db'') : Relocated db db'' :=
  ⟨h'.wf, h'.volatile.trans h.volatile, fun key => (h'.find key).trans (h.find key)⟩

private theorem relocated_compact {fuel : Nat} {q : PersistedStore} (h : db.Sound)
    (hq : db.persisted.compact fuel = some q) : Relocated db { db with persisted := q } := by
  have hself : Relocated db db := ⟨h.1.persisted, rfl, fun _ => rfl⟩
  refine (PersistedStore.compact_induction
    (motive := fun q => Sound { db with persisted := q } ∧ Relocated db { db with persisted := q }) ?_ ⟨h, hself⟩ hq).2
  rintro p ⟨hsound, hmoved⟩
  exact ⟨hsound.defragment, hmoved.trans (relocated_defragment hsound.1 hsound.2)⟩

/-- The passes of the defragmenter are relocations. -/
theorem Run.history (h : Run db) : History db := by
  induction h with
  | new b => exact .new b
  | change _ hm ih => exact .change ih hm
  | store _ b hblock entries hprepared hnodup hok ih => exact .store ih b entries hprepared hnodup (.inl hok)
  | build _ b hblock accounts hrejects hok ih => exact .build ih b accounts hrejects hok
  | reset _ ih => exact .reset ih
  | reopen _ dumped ih => exact .reopen ih dumped
  | defragment h ih => exact .relocate ih (relocated_defragment h.sound.1 h.sound.2) h.defragment.sound.2.programs_nodup
  | compact h hq ih => exact .relocate ih (relocated_compact h.sound hq) (h.compact hq).sound.2.programs_nodup

private theorem persisted_store : (db.store b entries).2.persisted =
    (db.persisted.upsert b (entries.filter (AccountEntry.isPersisted db.mem))).2 := by
  unfold store
  split <;> next heq => rw [heq]

private theorem WellFormed.failed {e : AccountsDBError} (h : db.WellFormed)
    (hprepared : ∀ entry ∈ entries, Prepared db.persisted entry) (hnodup : (entries.map Prod.fst).Nodup)
    (hspares : Spares b db entries) (herr : db.store b entries = (.error e, db')) : db'.WellFormed := by
  obtain ⟨hvolatile, hindex, done, q, hdone, hmem, hprogress⟩ := store_eq_error h hprepared hnodup herr
  have hkept : ∀ key data, db.persisted.index.accounts.lookup key = some data →
      db'.persisted.mem data.offset = db.persisted.mem data.offset := by
    intro key data hk
    rw [← hprogress.rollback_kept hdone hk (hspares key data hk), ← hmem]
    rfl
  have hcursor : db.persisted.storage.cursor ≤ db'.persisted.storage.cursor := by
    rw [show db' = (db.store b entries).2 by rw [herr], persisted_store]
    exact PersistedStore.cursor_le_upsert h.persisted (fun e he => hprepared e (List.mem_of_mem_filter he))
      (nodup_filter hnodup _)
  refine ⟨⟨fun key data hk => ?_, ?_, ?_, fun key data s hk hs => ?_⟩, fun key a hk => ?_⟩
  · rw [hindex] at hk
    rw [hkept key data hk]
    exact h.persisted.indexed key data hk
  · rw [hindex]
    exact h.persisted.exact
  · have hheld : db'.persisted.held = db.persisted.held := by
      refine PersistedStore.held_congr_of_indexed (fun k => by rw [hindex]) (fun f => by rw [hindex]) fun k d hk => ?_
      rw [Memory.span, Memory.span, hkept k d hk]
    rw [hheld]
    exact h.persisted.layout.mono hcursor
  · rw [hindex] at hk
    exact h.persisted.fits key data s hk ((hkept key data hk).symm.trans hs)
  · rw [hvolatile] at hk
    rw [hindex]
    exact h.exclusive key a hk

private structure Kept (db : AccountsDb) : Prop where
  wf : db.WellFormed
  programs_nodup : db.persisted.index.programs.Nodup
  linked : db.volatile.Linked

private theorem Kept.store (h : Kept db) (hprepared : ∀ entry ∈ entries, Prepared db.persisted entry)
    (hnodup : (entries.map Prod.fst).Nodup) (hspares : (db.store b entries).1 = .ok () ∨ Spares b db entries) :
    Kept (db.store b entries).2 := by
  have hprograms : (db.store b entries).2.persisted.index.programs.Nodup := by
    rw [persisted_store]
    exact PersistedStore.programs_nodup_upsert h.programs_nodup h.wf.persisted
      (fun e he => hprepared e (List.mem_of_mem_filter he)) (nodup_filter hnodup _)
  cases hstore : db.store b entries with
  | mk result db' =>
    rw [hstore] at hspares hprograms
    cases result with
    | ok u =>
      have hok := store_eq_ok h.wf hprepared hnodup (show (db.store b entries).1 = .ok () by rw [hstore])
      rw [hstore] at hok
      refine ⟨hok.wellFormed, hprograms, ?_⟩
      rw [hok.volatile]
      exact h.linked.upsert _ _
    | error e =>
      refine ⟨h.wf.failed hprepared hnodup (hspares.resolve_left nofun) hstore, hprograms, ?_⟩
      rw [(store_eq_error h.wf hprepared hnodup hstore).1]
      exact h.linked

private theorem Kept.build (h : Kept db) {accounts : List (Pubkey × OwnedAccount)}
    (hrejects : ∀ entry ∈ accounts, VolatileStore.Rejects entry.2) (hok : (db.store b (builtEntries accounts)).1 = .ok ()) :
    Kept (db.store b (builtEntries accounts)).2 := by
  obtain ⟨hbuilt, hprograms⟩ := store_built (I := (·.index.programs.Nodup))
    (fun _ _ _ _ hwf happlied => (PersistedStore.grows_applied hwf happlied).2) h.programs_nodup h.wf.persisted hrejects
    (Prod.ext hok rfl)
  refine ⟨hbuilt.wellFormed h.wf, hprograms, ?_⟩
  rw [hbuilt.volatile]
  exact h.linked.upsert _ _

private theorem History.kept (h : History db) : Kept db := by
  induction h with
  | new b => exact ⟨.new b, List.nodup_nil, .empty⟩
  | change _ hm ih => exact ⟨ih.wf.shadowOnly hm, ih.programs_nodup, ih.linked⟩
  | store _ b entries hprepared hnodup hspares ih => exact ih.store hprepared hnodup hspares
  | build _ b accounts hrejects hok ih => exact ih.build hrejects hok
  | reset _ ih => exact ⟨⟨ih.wf.persisted, fun key a hk => by cases hk⟩, ih.programs_nodup, .empty⟩
  | reopen _ dumped ih =>
    refine ⟨⟨ih.wf.persisted, fun key a hk => ?_⟩, ih.programs_nodup, .restore _⟩
    cases dumped with
    | true => exact ih.wf.exclusive key a hk
    | false => cases hk
  | relocate _ hmoved hnodup ih =>
    refine ⟨ih.wf.relocated hmoved, hnodup, ?_⟩
    rw [hmoved.volatile]
    exact ih.linked

/-! ### Listings -/

def Stores (db : AccountsDb) (key : Pubkey) (account : OwnedAccount) : Prop :=
  db.persisted.find key = some account ∨ db.volatile.accounts.lookup key = some account

/-- A listing without repetition that has the accounts of the owner and no others. -/
def Lists (db : AccountsDb) (owner : Pubkey) (listing : List (Pubkey × OwnedAccount)) : Prop :=
  (listing.map Prod.fst).Nodup ∧ ∀ key account, (key, account) ∈ listing ↔ db.Stores key account ∧ account.core.owner = owner

/-- `restore_features`: the accounts of the feature gate program that have runtime mode. -/
def restoreFeatures (db : AccountsDb) : Finset Pubkey :=
  (((db.program featureGateId).filter (·.2.core.mode == .runtime)).map Prod.fst).toFinset

private theorem mem_persisted_program (h : Kept db) : (key, account) ∈ db.persisted.program owner ↔
    db.persisted.find key = some account ∧ account.core.owner.tail = owner.tail :=
  PersistedStore.mem_program_iff_find h.wf.persisted

private theorem mem_volatile_program (h : Kept db) : (key, account) ∈ db.volatile.program owner ↔
    db.volatile.accounts.lookup key = some account ∧ account.core.owner = owner := by
  have hmembers := h.linked.members owner key
  rw [VolatileStore.members] at hmembers
  simp only [VolatileStore.program, List.mem_filterMap, Finset.mem_sort, Option.map_eq_some_iff, Prod.mk.injEq]
  constructor
  · rintro ⟨k, hk, a, ha, rfl, rfl⟩
    obtain ⟨a', ha', howner⟩ := hmembers.mp hk
    cases ha.symm.trans ha'
    exact ⟨ha, howner⟩
  · rintro ⟨ha, howner⟩
    exact ⟨key, hmembers.mpr ⟨account, ha, howner⟩, account, ha, rfl, rfl⟩

private theorem nodup_keys_volatile (owner : Pubkey) : ((db.volatile.program owner).map Prod.fst).Nodup := by
  rw [VolatileStore.program, List.map_filterMap]
  refine (Finset.sort_nodup _ _).filterMap fun k k' key hk hk' => ?_
  -- the listed key is the one looked up
  simp only [Option.map_map, Function.comp_def, Option.mem_def, Option.map_eq_some_iff] at hk hk'
  obtain ⟨_, -, rfl⟩ := hk
  obtain ⟨_, -, rfl⟩ := hk'
  rfl

private theorem nodup_keys_program (h : Kept db) (owner : Pubkey) : ((db.program owner).map Prod.fst).Nodup := by
  have hpersisted := PersistedStore.nodup_keys_program h.wf.persisted.mapped h.wf.persisted.exact h.programs_nodup owner
  rw [program, List.map_append]
  refine hpersisted.append (nodup_keys_volatile owner) fun key hmem hmem' => ?_
  obtain ⟨⟨_, a⟩, ha, rfl⟩ := List.mem_map.mp hmem
  obtain ⟨⟨_, a'⟩, ha', rfl⟩ := List.mem_map.mp hmem'
  have hnone := (h.wf.exclusive _ _ ((mem_volatile_program h).mp ha').1).1
  have hfind := ((mem_persisted_program h).mp ha).1
  rw [(PersistedStore.find_eq_none h.wf.persisted).mpr hnone] at hfind
  cases hfind

private theorem mem_program (h : Kept db) : (key, account) ∈ db.program owner ↔
    db.persisted.find key = some account ∧ account.core.owner.tail = owner.tail ∨
      db.volatile.accounts.lookup key = some account ∧ account.core.owner = owner := by
  rw [program, List.mem_append, mem_persisted_program h, mem_volatile_program h]

/-- No persisted account has another owner with the tail of this one. -/
def TailUnique (db : AccountsDb) (owner : Pubkey) : Prop :=
  ∀ key account, db.persisted.find key = some account → account.core.owner.tail = owner.tail → account.core.owner = owner

private theorem tailUnique_iff : db.TailUnique owner ↔ ∀ key ∈ db.persisted.index.accounts.keys,
    ∀ account ∈ db.persisted.find key, account.core.owner.tail = owner.tail → account.core.owner = owner := by
  refine ⟨fun h key _ => h key, fun h key account hfind => h key ?_ account hfind⟩
  obtain ⟨data, hk, -⟩ := Option.bind_eq_some_iff.mp hfind
  exact Finmap.mem_keys.mpr (Finmap.mem_iff.mpr ⟨data, hk⟩)

instance : Decidable (db.TailUnique owner) := decidable_of_iff' _ tailUnique_iff

/-- The listing of an owner is exact if and only if no persisted account has another owner with the same tail. The
features are restored from the accounts of the feature gate program alone if that holds for this program. -/
theorem program_exact_iff (h : History db) :
    (∀ owner, db.Lists owner (db.program owner) ↔ db.TailUnique owner) ∧
      (db.TailUnique featureGateId → ∀ id, id ∈ db.restoreFeatures ↔
        ∃ account, db.Stores id account ∧ account.core.owner = featureGateId ∧ account.core.mode = .runtime) := by
  have hkept := h.kept
  have hexact : ∀ owner, db.TailUnique owner → db.Lists owner (db.program owner) := by
    intro owner hunique
    refine ⟨nodup_keys_program hkept owner, fun key account => ?_⟩
    rw [mem_program hkept]
    constructor
    · rintro (⟨hfind, htail⟩ | ⟨hlookup, howner⟩)
      · exact ⟨.inl hfind, hunique key account hfind htail⟩
      · exact ⟨.inr hlookup, howner⟩
    · rintro ⟨hfind | hlookup, rfl⟩
      · exact .inl ⟨hfind, rfl⟩
      · exact .inr ⟨hlookup, rfl⟩
  refine ⟨fun owner => ⟨fun hlists key account hfind htail => ?_, hexact owner⟩, fun hunique id => ?_⟩
  · exact ((hlists.2 key account).mp ((mem_program hkept).mpr (.inl ⟨hfind, htail⟩))).2
  · have hlisted := (hexact featureGateId hunique).2 id
    simp only [restoreFeatures, List.mem_toFinset, List.mem_map, List.mem_filter, beq_iff_eq, Prod.exists,
      exists_and_right, exists_eq_right]
    constructor
    · rintro ⟨account, hmem, hmode⟩
      obtain ⟨hstores, howner⟩ := (hlisted account).mp hmem
      exact ⟨account, hstores, howner, hmode⟩
    · rintro ⟨account, hstores, howner, hmode⟩
      exact ⟨account, (hlisted account).mpr ⟨hstores, howner⟩, hmode⟩

def gateTwin : Pubkey := ⟨0x13c0a0cdcb06d2daefae82d16fee7acf61ec737b23481b21946a767000000000#256⟩

/-- A feature account, a mirrored account of the same owner, and a delegated account of an owner of its own. -/
def featureDb : AccountsDb :=
  ((AccountsDb.new .release).storeBatch .release
    [(⟨1⟩, [.setLifecycle .runtime 1, .setOwner featureGateId]),
      (⟨2⟩, [.setLifecycle .mirrored 1, .setOwner featureGateId]),
      (⟨3⟩, [.setLifecycle .delegated 1, .setOwner ⟨9⟩])]).2

private theorem featureDb_history : History featureDb :=
  Run.history (.storeBatch (.new .release) (by decide) (by decide) rfl)

theorem program_exact_iff_feature : featureDb.TailUnique featureGateId ∧
    featureDb.Lists featureGateId (featureDb.program featureGateId) ∧
    (featureDb.program featureGateId).map Prod.fst = [⟨1⟩, ⟨2⟩] ∧ (⟨1⟩ : Pubkey) ∈ featureDb.restoreFeatures := by
  have hunique : featureDb.TailUnique featureGateId := by decide +kernel
  have h := program_exact_iff featureDb_history
  exact ⟨hunique, (h.1 featureGateId).mpr hunique, by decide +kernel, by decide +kernel⟩

/-- Two accounts of an owner that has the tail of the feature gate program. -/
def twinDb : AccountsDb :=
  ((AccountsDb.new .release).storeBatch .release
    [(⟨1⟩, [.setLifecycle .runtime 1, .setOwner gateTwin]), (⟨2⟩, [.setLifecycle .delegated 1, .setOwner gateTwin])]).2

/-- Both are listed for the feature gate program, which owns none, and one is restored as a feature. -/
theorem twin_listed : Run twinDb ∧ gateTwin ≠ featureGateId ∧
    (twinDb.program featureGateId).map (fun x => (x.1, x.2.core.owner)) = [(⟨1⟩, gateTwin), (⟨2⟩, gateTwin)] ∧
    twinDb.restoreFeatures = {⟨1⟩} := by
  refine ⟨.storeBatch (.new .release) (by decide) (by decide) rfl, by decide, by decide +kernel, by decide +kernel⟩

end AccountsDb

end MagicEngine
