import MagicEngine.Store.Space

/-!
# Two backends

Every account is in the backend its mode asks for and in no other one, and the program sets of the volatile backend are
exactly the owners of its accounts. The sets are changed along with each account; `Linked` says what they are.
-/

namespace MagicEngine

namespace VolatileStore

variable {v : VolatileStore} {programs : Finmap (fun _ : Pubkey => Finset Pubkey)} {owner owner' key key' : Pubkey}

def members (programs : Finmap (fun _ : Pubkey => Finset Pubkey)) (owner : Pubkey) : Finset Pubkey :=
  (programs.lookup owner).getD ∅

def NoEmpty (programs : Finmap (fun _ : Pubkey => Finset Pubkey)) : Prop :=
  ∀ owner set, programs.lookup owner = some set → set ≠ ∅

theorem mem_members_link : key' ∈ members (link owner key programs) owner' ↔
    key' = key ∧ owner' = owner ∨ key' ∈ members programs owner' := by
  unfold members link
  by_cases ho : owner' = owner
  · rw [ho, Finmap.lookup_insert]
    simp
  · rw [Finmap.lookup_insert_of_ne _ ho]
    simp [ho]

theorem mem_members_unlink : key' ∈ members (unlink owner key programs) owner' ↔
    ¬(key' = key ∧ owner' = owner) ∧ key' ∈ members programs owner' := by
  unfold members unlink
  by_cases ho : owner' = owner
  · rw [ho]
    split
    · next hnone => simp [hnone]
    · next set hset =>
      have hmem : key' ∈ set.erase key ↔ key' ≠ key ∧ key' ∈ set := Finset.mem_erase
      split
      · next hempty =>
        rw [hempty] at hmem
        simpa [hset, Finmap.lookup_erase] using hmem
      · simp [hset, Finmap.lookup_insert]
  · split
    · simp [ho]
    · split
      · simp [ho, Finmap.lookup_erase_ne]
      · simp [ho, Finmap.lookup_insert_of_ne]

theorem NoEmpty.link (h : NoEmpty programs) : NoEmpty (link owner key programs) := by
  intro o set hset
  unfold VolatileStore.link at hset
  by_cases ho : o = owner
  · rw [ho, Finmap.lookup_insert] at hset
    rw [← Option.some.inj hset]
    exact Finset.insert_ne_empty _ _
  · rw [Finmap.lookup_insert_of_ne _ ho] at hset
    exact h o set hset

theorem NoEmpty.unlink (h : NoEmpty programs) : NoEmpty (unlink owner key programs) := by
  unfold VolatileStore.unlink
  split
  · exact h
  · next set hset =>
    split
    · intro o set' hset'
      by_cases ho : o = owner
      · rw [ho, Finmap.lookup_erase] at hset'
        cases hset'
      · rw [Finmap.lookup_erase_ne ho] at hset'
        exact h o set' hset'
    · next hne =>
      intro o set' hset'
      by_cases ho : o = owner
      · rw [ho, Finmap.lookup_insert] at hset'
        rw [← Option.some.inj hset']
        exact hne
      · rw [Finmap.lookup_insert_of_ne _ ho] at hset'
        exact h o set' hset'

/-! ### Accounts of an owner -/

def Owns (accounts : Finmap (fun _ : Pubkey => OwnedAccount)) (owner key : Pubkey) : Prop :=
  ∃ account, accounts.lookup key = some account ∧ account.core.owner = owner

section Owns

variable {accounts accounts' : Finmap (fun _ : Pubkey => OwnedAccount)} {account : OwnedAccount}

theorem owns_iff (h : accounts.lookup key = some account) : Owns accounts owner key ↔ account.core.owner = owner := by
  simp [Owns, h]

theorem not_owns (h : accounts.lookup key = none) : ¬Owns accounts owner key := by simp [Owns, h]

theorem owns_congr (h : accounts.lookup key = accounts'.lookup key) :
    Owns accounts owner key ↔ Owns accounts' owner key := by rw [Owns, Owns, h]

end Owns

/-- The set of each owner holds its accounts and nothing else, and no set is empty. -/
structure Linked (v : VolatileStore) : Prop where
  members : ∀ owner key, key ∈ members v.programs owner ↔ Owns v.accounts owner key
  noEmpty : NoEmpty v.programs

theorem Linked.empty : Linked {} where
  members owner key := iff_of_false (fun h => by cases h) (not_owns rfl)
  noEmpty owner set h := by cases h

theorem Linked.delete (h : v.Linked) : (v.delete key).Linked := by
  unfold VolatileStore.delete
  split
  · exact h
  · next prev hprev =>
    refine ⟨fun o k => ?_, h.noEmpty.unlink⟩
    rw [mem_members_unlink, h.members]
    by_cases hk : k = key
    · subst hk
      have hgone := @not_owns o k (v.accounts.erase k) (Finmap.lookup_erase _ _)
      rw [owns_iff hprev]
      tauto
    · rw [owns_congr (Finmap.lookup_erase_ne hk)]
      tauto

theorem Linked.upsertEntry (h : v.Linked) (account : OwnedAccount) : (v.upsertEntry key account).Linked := by
  unfold VolatileStore.upsertEntry
  split
  · exact h.delete
  have hother : ∀ o k, k ≠ key → (Owns (v.accounts.insert key account) o k ↔ Owns v.accounts o k) :=
    fun o k hk => owns_congr (Finmap.lookup_insert_of_ne _ hk)
  have hself : ∀ o, Owns (v.accounts.insert key account) o key ↔ account.core.owner = o :=
    fun o => owns_iff (Finmap.lookup_insert _)
  dsimp only
  -- The new owner's set takes the account before the previous owner's set gives it up.
  split
  · next hnone =>
    refine ⟨fun o k => ?_, h.noEmpty.link⟩
    rw [mem_members_link, h.members]
    by_cases hk : k = key
    · subst hk
      have := @not_owns o k _ hnone
      rw [hself]
      tauto
    · rw [hother o k hk]
      tauto
  · next prev hprev =>
    split
    · next heq =>
      refine ⟨fun o k => ?_, h.noEmpty.link⟩
      rw [mem_members_link, h.members]
      by_cases hk : k = key
      · subst hk
        rw [hself, owns_iff hprev, heq]
        tauto
      · rw [hother o k hk]
        tauto
    · next hne =>
      refine ⟨fun o k => ?_, h.noEmpty.link.unlink⟩
      rw [mem_members_unlink, mem_members_link, h.members]
      by_cases hk : k = key
      · subst hk
        rw [hself, owns_iff hprev]
        grind
      · rw [hother o k hk]
        tauto

theorem Linked.upsert (h : v.Linked) (m : Memory) (entries : List AccountEntry) : (v.upsert m entries).Linked := by
  induction entries generalizing v with
  | nil => exact h
  | cons entry rest ih => exact ih (h.upsertEntry _)

private theorem linkAll_spec (accounts : Finmap (fun _ : Pubkey => OwnedAccount)) (keys : List Pubkey)
    (h : NoEmpty programs) : NoEmpty (linkAll accounts keys programs) ∧
      ∀ owner key, key ∈ members (linkAll accounts keys programs) owner ↔
        key ∈ members programs owner ∨ key ∈ keys ∧ Owns accounts owner key := by
  induction keys generalizing programs with
  | nil => exact ⟨h, by simp [linkAll]⟩
  | cons k rest ih =>
    rw [linkAll]
    cases hk : accounts.lookup k with
    | none =>
      refine ⟨(ih h).1, fun owner key => ?_⟩
      rw [(ih h).2, List.mem_cons]
      by_cases heq : key = k
      · subst heq
        have := @not_owns owner key _ hk
        tauto
      · tauto
    | some account =>
      refine ⟨(ih h.link).1, fun owner key => ?_⟩
      rw [(ih h.link).2, mem_members_link, List.mem_cons]
      by_cases heq : key = k
      · subst heq
        rw [owns_iff hk]
        tauto
      · tauto

/-- Opening rebuilds the sets from the accounts, whatever the order they come in. -/
theorem Linked.restore (accounts : Finmap (fun _ : Pubkey => OwnedAccount)) : (restore accounts).Linked := by
  obtain ⟨hne, hmem⟩ := @linkAll_spec ∅ accounts (accounts.keys.sort (· ≤ ·)) (fun owner set h => by cases h)
  refine ⟨fun owner key => (hmem owner key).trans ⟨?_, ?_⟩, hne⟩
  · rintro (h | h)
    · cases h
    · exact h.2
  · rintro ⟨account, hlookup, howner⟩
    have hkey : key ∈ accounts.keys.sort (· ≤ ·) := by
      rw [Finset.mem_sort, Finmap.mem_keys]
      exact Finmap.mem_iff.mpr ⟨account, hlookup⟩
    exact .inr ⟨hkey, account, hlookup, howner⟩

def ownedBy (owner : Pubkey) (v : VolatileStore) : Finset Pubkey :=
  v.accounts.keys.filter fun key => (v.accounts.lookup key).any (·.core.owner == owner)

theorem mem_ownedBy : key ∈ v.ownedBy owner ↔ Owns v.accounts owner key := by
  simp only [ownedBy, Finset.mem_filter, Finmap.mem_keys, Option.any_eq_true, beq_iff_eq, Owns]
  exact and_iff_right_of_imp fun ⟨account, h, _⟩ => Finmap.mem_iff.mpr ⟨account, h⟩

theorem Linked.lookup_programs (h : v.Linked) (owner : Pubkey) :
    v.programs.lookup owner = if v.ownedBy owner = ∅ then none else some (v.ownedBy owner) := by
  have hset : VolatileStore.members v.programs owner = v.ownedBy owner := by
    ext key
    rw [h.members, mem_ownedBy]
  rw [← hset, VolatileStore.members]
  cases hlookup : v.programs.lookup owner with
  | none => rfl
  | some set => exact (if_neg (h.noEmpty owner set hlookup)).symm

end VolatileStore

/-! ### Whole runs -/

namespace AccountsDb

variable {db : AccountsDb}

theorem Run.linked (h : Run db) : db.volatile.Linked := by
  induction h with
  | new b => exact .empty
  | change _ hm ih => exact ih
  | @store db h b hblock entries hprepared hnodup hok ih =>
    rw [(store_eq_ok h.sound.1 hprepared hnodup hok).volatile]
    exact ih.upsert _ _
  | build h b hblock accounts hrejects hok ih =>
    have hbuilt := store_built (I := fun _ => True) (fun _ _ _ _ _ _ => id) trivial h.sound.1.persisted hrejects
      (Prod.ext hok rfl)
    rw [hbuilt.1.volatile]
    exact ih.upsert _ _
  | reset _ ih => exact .empty
  | reopen _ dumped ih => exact .restore _
  | defragment _ ih => exact ih
  | compact _ hq ih => exact ih

/-- Every account is in one backend at most, the one its mode asks for, and the program sets of the volatile backend are
the accounts of each owner that has some. -/
theorem backends_exclusive (h : Run db) :
    (∀ key, db.persisted.index.accounts.lookup key = none ∨ db.volatile.accounts.lookup key = none) ∧
      (∀ key data, db.persisted.index.accounts.lookup key = some data →
        ∃ account, db.persisted.find key = some account ∧ account.core.mode.requiresPersistence = true) ∧
      (∀ key account, db.volatile.accounts.lookup key = some account →
        account.core.mode.requiresPersistence = false ∧ account.core.mode ≠ .closed) ∧
      ∀ owner, db.volatile.programs.lookup owner =
        if db.volatile.ownedBy owner = ∅ then none else some (db.volatile.ownedBy owner) := by
  have hwf := h.sound.1
  refine ⟨fun key => ?_, fun key data hk => ?_, fun key account hk => (hwf.exclusive key account hk).2,
    h.linked.lookup_programs⟩
  · cases hk : db.volatile.accounts.lookup key with
    | none => exact .inr rfl
    | some account => exact .inl (hwf.exclusive key account hk).1
  · obtain ⟨s, hs, -, hmode, -⟩ := hwf.persisted.indexed key data hk
    exact ⟨s.active, PersistedStore.find_of_lookup hk hs, hmode⟩

/-- A mirrored and a delegated account; the mirrored one changes its owner, and the database is dumped and opened
again. -/
def reopenedDb : AccountsDb :=
  let db := ((AccountsDb.new .release).storeBatch .release
    [(⟨1⟩, [.setLifecycle .mirrored 1, .setOwner ⟨8⟩]), (⟨2⟩, [.setLifecycle .delegated 1])]).2
  (db.storeBatch .release [(⟨1⟩, [.setOwner ⟨9⟩])]).2.reopen true

theorem backends_exclusive_reopened : reopenedDb.volatile.ownedBy ⟨9⟩ = {⟨1⟩} ∧
    reopenedDb.volatile.programs.lookup ⟨9⟩ = some {⟨1⟩} ∧ reopenedDb.volatile.programs.lookup ⟨8⟩ = none ∧
    reopenedDb.persisted.index.accounts.lookup ⟨1⟩ = none := by
  have hrun : Run reopenedDb :=
    .reopen (.storeBatch (.storeBatch (.new .release) (by decide) (by decide) rfl) (by decide) (by decide) rfl) true
  have h := backends_exclusive hrun
  have h9 : reopenedDb.volatile.ownedBy ⟨9⟩ = {⟨1⟩} := by decide +kernel
  have h8 : reopenedDb.volatile.ownedBy ⟨8⟩ = ∅ := by decide +kernel
  have h1 : reopenedDb.volatile.accounts.lookup ⟨1⟩ ≠ none := by decide +kernel
  refine ⟨h9, ?_, ?_, (h.1 ⟨1⟩).resolve_right h1⟩
  · rw [h.2.2.2, h9]
    rfl
  · rw [h.2.2.2, h8]
    rfl

end AccountsDb

end MagicEngine
