import MagicEngine.Store.Allocator

/-!
# Batches of built accounts

Most batches hold accounts that were loaded and changed. A keeper also stores accounts it has built: those of a genesis
and those of a reset. They are on the heap, in modes that the volatile backend refuses, and nothing keeps such a batch
from naming a key twice: a reset that names the address of the rent as a feature stores that account and then the rent.

Every entry is inserted or deletes its account, so that the last entry of a key counts (`AccountsDb.Built`).
-/

namespace MagicEngine

open Regions

/-! ### Volatile accounts -/

namespace VolatileStore

variable {v : VolatileStore} {m : Memory} {key key' : Pubkey} {account : OwnedAccount} {entries : List AccountEntry}

/-- Modes that keep an account out of the volatile backend. -/
def Rejects (account : OwnedAccount) : Prop := account.core.mode.requiresPersistence ∨ account.core.mode = .closed

instance (account : OwnedAccount) : Decidable (Rejects account) := inferInstanceAs (Decidable (_ ∨ _))

theorem lookup_delete : (v.delete key).accounts.lookup key' = if key' = key then none else v.accounts.lookup key' := by
  unfold delete
  split
  · next hnone =>
    split
    · next h => rw [h, hnone]
    · rfl
  · split
    · next h => rw [h, Finmap.lookup_erase]
    · next h => exact Finmap.lookup_erase_ne h

theorem lookup_upsertEntry : (v.upsertEntry key account).accounts.lookup key' =
    if key' = key then (if Rejects account then none else some account) else v.accounts.lookup key' := by
  have hrejects : (account.core.mode.requiresPersistence || account.core.mode == .closed) = true ↔ Rejects account := by
    simp [Rejects]
  unfold upsertEntry
  split
  · next h => rw [lookup_delete, if_pos (hrejects.mp h)]
  · next h =>
    rw [if_neg (hrejects.not.mp h)]
    show (v.accounts.insert key account).lookup key' = _
    split
    · next hk => rw [hk, Finmap.lookup_insert]
    · next hk => exact Finmap.lookup_insert_of_ne _ hk

theorem lookup_upsert_of_notMem (h : key ∉ entries.map Prod.fst) :
    (v.upsert m entries).accounts.lookup key = v.accounts.lookup key := by
  induction entries generalizing v with
  | nil => rfl
  | cons entry rest ih =>
    simp only [List.map_cons, List.mem_cons, not_or] at h
    rw [upsert, List.foldl_cons]
    rw [← upsert, ih h.2, lookup_upsertEntry, if_neg h.1]

theorem lookup_upsert_of_mem {entry : AccountEntry} (hnodup : (entries.map Prod.fst).Nodup) (h : entry ∈ entries) :
    (v.upsert m entries).accounts.lookup entry.1 =
      if Rejects (entry.2.image m) then none else some (entry.2.image m) := by
  induction entries generalizing v with
  | nil => cases h
  | cons e rest ih =>
    obtain ⟨hnew, hrest⟩ := List.nodup_cons.mp hnodup
    rw [upsert, List.foldl_cons, ← upsert]
    rcases List.mem_cons.mp h with rfl | h
    · rw [lookup_upsert_of_notMem hnew, lookup_upsertEntry, if_pos rfl]
    · exact ih hrest h

end VolatileStore

def builtEntries (accounts : List (Pubkey × OwnedAccount)) : List AccountEntry :=
  accounts.map fun (key, account) => (key, { cow := .owned account })

/-- Accounts after one is stored; a closed one is gone. -/
def storing (m : Pubkey → Option OwnedAccount) (entry : Pubkey × OwnedAccount) : Pubkey → Option OwnedAccount :=
  Function.update m entry.1 (if entry.2.core.mode = .closed then none else some entry.2.stored)

theorem foldl_storing_of_notMem {m : Pubkey → Option OwnedAccount} {accounts : List (Pubkey × OwnedAccount)}
    {key : Pubkey} (h : key ∉ accounts.map Prod.fst) : accounts.foldl storing m key = m key := by
  induction accounts generalizing m with
  | nil => rfl
  | cons entry rest ih =>
    rw [List.map_cons, List.mem_cons, not_or] at h
    rw [List.foldl_cons, ih h.2, storing, Function.update_of_ne h.1]

open VolatileStore (Rejects)

namespace PersistedStore

variable {b : Backend} {fault : Option Fault} {p q : PersistedStore} {key key' : Pubkey} {account : OwnedAccount}
  {accounts : List (Pubkey × OwnedAccount)}

theorem find_release : (p.release key).find key' = if key' = key then none else p.find key' := by
  rw [find, lookup_release, mem_release]
  split <;> rfl

theorem find_place {offset : Nat} (h : p.WellFormed) (hg : Granted account.units offset p) :
    (p.place key account offset).find key' = if key' = key then some account.stored else p.find key' := by
  rw [find, lookup_place]
  split
  · simp only [Option.bind_some, mem_place_self, Option.map_some, Memory.active_fresh]
  · cases hk : p.index.accounts.lookup key' with
    | none => simp [find, hk]
    | some data =>
      obtain ⟨s, hs, -⟩ := h.indexed key' data hk
      rw [find_of_lookup hk hs, Option.bind_some, mem_place_of_held hg (held_account hk hs) hs]
      rfl

private theorem applied_built (hwf : p.WellFormed) (hrejects : Rejects account)
    (h : Applied b fault (key, { cow := .owned account }) p q) :
    q.WellFormed ∧ q.find = storing p.find (key, account) := by
  cases h with
  | released hmode hfault =>
    have hclosed : account.core.mode = .closed := hrejects.resolve_left (Bool.eq_false_iff.mp hmode)
    have hstore : { p.release key with mem := p.mem.publishAt (AccountEntry.publishes (key, { cow := .owned account })) } =
        p.release key := by
      rw [AccountEntry.publishes, Memory.publishAt, ← @mem_release p key]
    rw [hstore]
    refine ⟨hwf.release, ?_⟩
    funext key'
    rw [find_release, storing, if_pos hclosed, Function.update_apply]
  | updated view hcow hmode hfault => cases hcow
  | inserted acc offset q hcow hmode hfault hq =>
    cases hcow
    have hopen : account.core.mode ≠ .closed := fun heq => by rw [heq] at hmode; cases hmode
    have halloc := allocate_eq_ok hwf account.units_pos hq
    refine ⟨halloc.wf.place halloc.granted hmode, ?_⟩
    funext key'
    rw [find_place halloc.wf halloc.granted, storing, if_neg hopen, Function.update_apply]
    simp only [find, halloc.accounts, halloc.mem]

private theorem applyAll_built {I : PersistedStore → Prop}
    (hinv : ∀ fault entry q q', q.WellFormed → Applied b fault entry q q' → I q → I q') {t t' : Txn}
    {applied applied' : Nat} (hwf : t.WellFormed) (ht : I t.toPersistedStore)
    (hrejects : ∀ entry ∈ accounts, Rejects entry.2)
    (h : Txn.applyAll b applied t (builtEntries accounts) = (applied', none, t')) :
    t'.WellFormed ∧ I t'.toPersistedStore ∧ t'.find = accounts.foldl storing t.find := by
  induction accounts generalizing t applied with
  | nil =>
    cases h
    exact ⟨hwf, ht, rfl⟩
  | cons entry rest ih =>
    obtain ⟨hentry, hrest⟩ := List.forall_mem_cons.mp hrejects
    rw [builtEntries, List.map_cons, Txn.applyAll] at h
    split at h
    · next t₁ happly =>
      have happlied := Txn.apply_owned_eq_ok rfl happly
      obtain ⟨hwf₁, hfind₁⟩ := applied_built hwf hentry happlied
      obtain ⟨hwf', hinv', hfind'⟩ := ih hwf₁ (hinv _ _ _ _ hwf happlied ht) hrest h
      exact ⟨hwf', hinv', by rw [hfind', hfind₁]; rfl⟩
    · cases h

/-- A successful batch of built accounts, and what every entry keeps. -/
theorem upsert_built {I : PersistedStore → Prop}
    (hinv : ∀ fault entry q q', q.WellFormed → Applied b fault entry q q' → I q → I q') (hp : I p) (hwf : p.WellFormed)
    (hrejects : ∀ entry ∈ accounts, Rejects entry.2) (h : p.upsert b (builtEntries accounts) = (.ok (), q)) :
    q.WellFormed ∧ I q ∧ q.find = accounts.foldl storing p.find := by
  unfold upsert at h
  generalize hall : Txn.applyAll b 0 { p with } (builtEntries accounts) = run at h
  obtain ⟨applied, failed, t⟩ := run
  cases failed with
  | some e => cases h
  | none =>
    have hbuilt := applyAll_built hinv (t := { p with }) hwf hp hrejects hall
    dsimp only at h
    split at h
    · cases h
      exact hbuilt
    · cases h

end PersistedStore

namespace AccountsDb

variable {b : Backend} {db db' : AccountsDb} {accounts : List (Pubkey × OwnedAccount)} {key : Pubkey}

/-- Built accounts were stored in `db`, which led to `db'`. -/
structure Built (db : AccountsDb) (accounts : List (Pubkey × OwnedAccount)) (db' : AccountsDb) : Prop where
  rejects : ∀ entry ∈ accounts, Rejects entry.2
  persisted : db'.persisted.WellFormed
  find : db'.persisted.find = accounts.foldl storing db.persisted.find
  volatile : db'.volatile = db.volatile.upsert db'.mem (builtEntries accounts)

theorem store_built {I : PersistedStore → Prop}
    (hinv : ∀ fault entry q q', q.WellFormed → Applied b fault entry q q' → I q → I q') (hp : I db.persisted)
    (hwf : db.persisted.WellFormed) (hrejects : ∀ entry ∈ accounts, Rejects entry.2)
    (h : db.store b (builtEntries accounts) = (.ok (), db')) : Built db accounts db' ∧ I db'.persisted := by
  have hpersisted : (builtEntries accounts).filter (AccountEntry.isPersisted db.mem) = builtEntries accounts := by
    refine List.filter_eq_self.mpr fun entry hentry => ?_
    obtain ⟨⟨key, account⟩, hmem, rfl⟩ := List.mem_map.mp hentry
    have hrejects : account.core.mode.requiresPersistence ∨ account.core.mode = .closed := hrejects _ hmem
    simp [AccountEntry.isPersisted, StoredAccount.mode, StoredAccount.image, hrejects]
  have hvolatile (m : Memory) : (builtEntries accounts).filter (AccountEntry.isVolatile m) = builtEntries accounts := by
    refine List.filter_eq_self.mpr fun entry hentry => ?_
    obtain ⟨⟨key, account⟩, -, rfl⟩ := List.mem_map.mp hentry
    simp [AccountEntry.isVolatile]
  unfold store at h
  rw [hpersisted] at h
  split at h
  · cases h
  · next q hupsert =>
    obtain ⟨hq, hinv', hfind⟩ := PersistedStore.upsert_built hinv hp hwf hrejects hupsert
    cases h
    exact ⟨⟨hrejects, hq, hfind, congrArg (db.volatile.upsert q.mem) (hvolatile q.mem)⟩, hinv'⟩

namespace Built

variable (h : Built db accounts db')

include h

theorem lookup_volatile : db'.volatile.accounts.lookup key =
    if key ∈ accounts.map Prod.fst then none else db.volatile.accounts.lookup key := by
  rw [h.volatile]
  have hrejects := h.rejects
  clear h
  generalize db'.mem = m
  generalize db.volatile = v
  induction accounts generalizing v with
  | nil => rfl
  | cons entry rest ih =>
    obtain ⟨hentry, hrest⟩ := List.forall_mem_cons.mp hrejects
    rw [builtEntries, List.map_cons, VolatileStore.upsert, List.foldl_cons, ← VolatileStore.upsert, ← builtEntries, ih hrest,
      VolatileStore.lookup_upsertEntry, List.map_cons]
    by_cases hmem : key ∈ rest.map Prod.fst
    · rw [if_pos hmem, if_pos (List.mem_cons_of_mem _ hmem)]
    · rw [if_neg hmem]
      by_cases hkey : key = entry.1
      · rw [if_pos hkey, if_pos (List.mem_cons.mpr (.inl hkey))]
        exact if_pos hentry
      · rw [if_neg hkey, if_neg (List.mem_cons.not.mpr (not_or.mpr ⟨hkey, hmem⟩))]

/-- The keys of the batch leave the volatile backend, the others stay where they are. -/
theorem wellFormed (hwf : db.WellFormed) : db'.WellFormed where
  persisted := h.persisted
  exclusive key a hk := by
    rw [h.lookup_volatile] at hk
    split at hk
    · cases hk
    · next hkey =>
      obtain ⟨hnone, hrest⟩ := hwf.exclusive key a hk
      refine ⟨?_, hrest⟩
      have hfind : db'.persisted.find key = db.persisted.find key :=
        (congrFun h.find key).trans (foldl_storing_of_notMem hkey)
      rw [← PersistedStore.find_eq_none h.persisted, hfind, PersistedStore.find_eq_none hwf.persisted]
      exact hnone

end Built

end AccountsDb

end MagicEngine
