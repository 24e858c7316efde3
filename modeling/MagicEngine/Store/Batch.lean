import MagicEngine.Store.Built

/-!
# Storing a batch

What loading gives after a batch was stored. Persisted accounts are right whatever the batch contains. A borrowed
account that leaves the persistent modes is copied to the volatile backend only after the persisted backend is done,
through the view of a span that is free by then and that a later entry of the same batch may have reused. If the view
points to image A, it then shows the other account, whose mode is persistent, and the copy is not made.

`AccountsDb.store_correct_iff` says that this is the only way a batch goes wrong, except that the length field of an image
has four bytes.
-/

namespace MagicEngine

open Regions

/-! ### Views after a batch -/

variable {key : Pubkey}

namespace BatchProgress

variable {p q : PersistedStore} {done : List AccountEntry} {reused : List Nat} {entry : AccountEntry}
  {view : BorrowedAccount}

/-- A view still shows its account, unless its span was reused and it points to image A. -/
theorem image_view (h : BatchProgress p done reused q) (hentry : entry ∈ done) (hcow : entry.2.cow = .borrowed view)
    (hfine : view.offset ∈ reused → view.side = true) : entry.2.image q.mem = entry.2.image p.mem := by
  obtain ⟨data, s, hk, ho, hs, -⟩ := (h.prepared entry hentry).view view hcow
  simp only [StoredAccount.image, hcow, BorrowedAccount.image]
  by_cases hreused : view.offset ∈ reused
  · obtain ⟨e, he, d, s', hd, -, hs', -, hold⟩ := h.taken _ hreused
    have hB := (hold entry.1 data s hk ho hs).2
    simp [hs', hs, hfine hreused, Span.image, hB]
  · have hkept := (h.kept entry.1 data s hk (ho ▸ hs) (ho ▸ hreused)).1
    rw [ho] at hkept
    simp [hkept, hs]

/-- Otherwise it shows an account in a persistent mode. -/
theorem mode_of_reused (h : BatchProgress p done reused q) (hcow : entry.2.cow = .borrowed view)
    (hreused : view.offset ∈ reused) (hside : view.side = false) : (entry.2.mode q.mem).requiresPersistence := by
  obtain ⟨e, he, d, s, hd, ho, hs, hsequence, -⟩ := h.taken _ hreused
  obtain ⟨s', hs', -, hmode, -⟩ := h.wf.indexed _ _ hd
  rw [ho] at hs'
  cases hs.symm.trans hs'
  have hactive : s.active = s.image false := by simp [Span.active, hsequence, activeSide]
  simp only [StoredAccount.mode, StoredAccount.image, hcow, BorrowedAccount.image, hs, hside, Option.map_some,
    Option.getD_some, ← hactive]
  exact hmode

end BatchProgress

/-- An account on the heap that is to be persisted fits into an image. -/
def StoredAccount.Fits (a : StoredAccount) : Prop :=
  match a.cow with
  | .borrowed _ => True
  | .owned account => account.core.mode.requiresPersistence → account.Fits

instance (a : StoredAccount) : Decidable a.Fits :=
  match h : a.cow with
  | .borrowed _ => .isTrue (by simp [StoredAccount.Fits, h])
  | .owned account => decidable_of_iff (account.core.mode.requiresPersistence → account.Fits)
      (by simp [StoredAccount.Fits, h])

/-! ### After a successful batch -/

namespace AccountsDb

/-- A batch was prepared on `db` and stored, which led to `db'`. -/
structure Outcome (b : Backend) (db : AccountsDb) (entries : List AccountEntry) (db' : AccountsDb) : Prop where
  wf : db.WellFormed
  prepared : ∀ entry ∈ entries, Prepared db.persisted entry
  nodup : (entries.map Prod.fst).Nodup
  progress : BatchProgress db.persisted (entries.filter (AccountEntry.isPersisted db.mem))
    (db.persisted.reuses b (entries.filter (AccountEntry.isPersisted db.mem))) db'.persisted
  volatile : db'.volatile = db.volatile.upsert db'.mem (entries.filter (AccountEntry.isVolatile db'.mem))

variable {entries : List AccountEntry}

theorem nodup_filter (h : (entries.map Prod.fst).Nodup) (f : AccountEntry → Bool) :
    ((entries.filter f).map Prod.fst).Nodup :=
  h.sublist (List.filter_sublist.map Prod.fst)

variable {db : AccountsDb}

theorem store_eq_ok {b : Backend} (hwf : db.WellFormed)
    (hprepared : ∀ entry ∈ entries, Prepared db.persisted entry) (hnodup : (entries.map Prod.fst).Nodup)
    (h : (db.store b entries).1 = .ok ()) : Outcome b db entries (db.store b entries).2 := by
  unfold store at h ⊢
  cases hupsert : db.persisted.upsert b (entries.filter (AccountEntry.isPersisted db.mem)) with
  | mk result q =>
    cases result with
    | error e => rw [hupsert] at h; cases h
    | ok u =>
      refine ⟨hwf, hprepared, hnodup, ?_, rfl⟩
      exact PersistedStore.upsert_eq_ok hwf.persisted (fun e he => hprepared e (List.mem_of_mem_filter he))
        (nodup_filter hnodup _) hupsert

namespace Outcome

variable {b : Backend} {db db' : AccountsDb} {entries : List AccountEntry} {entry : AccountEntry}

section

variable (h : Outcome b db entries db')

include h

theorem notMem_filter (hentry : entry ∈ entries) {f : AccountEntry → Bool}
    (hf : f entry = false) : entry.1 ∉ (entries.filter f).map Prod.fst := by
  intro hmem
  obtain ⟨e, he, heq⟩ := List.mem_map.mp hmem
  obtain ⟨he, hfe⟩ := List.mem_filter.mp he
  obtain rfl := List.inj_on_of_nodup_map h.nodup he hentry heq
  rw [hf] at hfe
  cases hfe

theorem lookup_of_not_isPersisted (hentry : entry ∈ entries)
    (hf : AccountEntry.isPersisted db.mem entry = false) : db.persisted.index.accounts.lookup entry.1 = none := by
  simp only [AccountEntry.isPersisted, Bool.or_eq_false_iff] at hf
  cases hk : db.persisted.index.accounts.lookup entry.1 with
  | none => rfl
  | some data =>
    obtain ⟨s, hs, -, hmode, -⟩ := h.wf.persisted.indexed _ _ hk
    have hsame := ((h.prepared entry hentry).unmarked data s hk hs).1 hf.2
    have hmode' : (entry.2.mode db.mem).requiresPersistence := by
      rw [StoredAccount.mode, mem, hsame]
      exact hmode
    rw [hmode'] at hf
    cases hf.1.1.2

theorem find_entry (hentry : entry ∈ entries) :
    db'.persisted.find entry.1 =
      if (entry.2.mode db.mem).requiresPersistence then some (entry.2.kept db.mem) else none := by
  cases hf : AccountEntry.isPersisted db.mem entry with
  | true => exact h.progress.stored entry (List.mem_filter.mpr ⟨hentry, hf⟩)
  | false =>
    have hlookup := h.progress.untouched _ (h.notMem_filter hentry hf)
    have hmode : (entry.2.mode db.mem).requiresPersistence = false := by
      simp only [AccountEntry.isPersisted, Bool.or_eq_false_iff] at hf
      exact hf.1.1.2
    rw [PersistedStore.find, hlookup, h.lookup_of_not_isPersisted hentry hf, hmode]
    rfl

theorem lookup_volatile_entry (hentry : entry ∈ entries) :
    db'.volatile.accounts.lookup entry.1 =
      if AccountEntry.isVolatile db'.mem entry then
        if VolatileStore.Rejects (entry.2.image db'.mem) then none else some (entry.2.image db'.mem)
      else db.volatile.accounts.lookup entry.1 := by
  rw [h.volatile]
  split
  · next hf => exact VolatileStore.lookup_upsert_of_mem (nodup_filter h.nodup _) (List.mem_filter.mpr ⟨hentry, hf⟩)
  · next hf => exact VolatileStore.lookup_upsert_of_notMem (h.notMem_filter hentry (by simpa using hf))

theorem lookup_volatile_of_notMem (hkey : key ∉ entries.map Prod.fst) :
    db'.volatile.accounts.lookup key = db.volatile.accounts.lookup key := by
  rw [h.volatile]
  exact VolatileStore.lookup_upsert_of_notMem fun hmem => hkey (List.filter_sublist.map Prod.fst |>.subset hmem)

theorem lookup_of_notMem (hkey : key ∉ entries.map Prod.fst) :
    db'.persisted.index.accounts.lookup key = db.persisted.index.accounts.lookup key :=
  h.progress.untouched key fun hmem => hkey (List.filter_sublist.map Prod.fst |>.subset hmem)

theorem borrowed (hentry : entry ∈ entries) {view : BorrowedAccount}
    (hcow : entry.2.cow = .borrowed view) :
    entry ∈ entries.filter (AccountEntry.isPersisted db.mem) ∧ db.volatile.accounts.lookup entry.1 = none := by
  refine ⟨List.mem_filter.mpr ⟨hentry, by simp [AccountEntry.isPersisted, hcow]⟩, ?_⟩
  obtain ⟨data, s, hk, -⟩ := (h.prepared entry hentry).view view hcow
  cases hv : db.volatile.accounts.lookup entry.1 with
  | none => rfl
  | some a =>
    rw [(h.wf.exclusive _ _ hv).1] at hk
    cases hk

/-- An entry that goes to the volatile backend still shows its image. -/
theorem image_of_isVolatile (hentry : entry ∈ entries)
    (hf : AccountEntry.isVolatile db'.mem entry) : entry.2.image db'.mem = entry.2.image db.mem := by
  cases hcow : entry.2.cow with
  | owned acc => simp [StoredAccount.image, hcow]
  | borrowed view =>
    refine h.progress.image_view (h.borrowed hentry hcow).1 hcow fun hreused => ?_
    by_contra hside
    have hmode := h.progress.mode_of_reused hcow hreused (by simpa using hside)
    simp only [AccountEntry.isVolatile, hcow, Bool.false_or, Bool.not_eq_true'] at hf
    rw [mem, hmode] at hf
    cases hf

theorem wellFormed : db'.WellFormed where
  persisted := h.progress.wf
  exclusive key a hkey := by
    by_cases hmem : key ∈ entries.map Prod.fst
    · obtain ⟨entry, hentry, rfl⟩ := List.mem_map.mp hmem
      rw [h.lookup_volatile_entry hentry] at hkey
      split at hkey
      · next hf =>
        have himage := h.image_of_isVolatile hentry hf
        split at hkey
        · cases hkey
        · next haccepts =>
          obtain rfl := Option.some.inj hkey
          obtain ⟨hmode, hclosed⟩ := not_or.mp haccepts
          refine ⟨(PersistedStore.find_eq_none h.progress.wf).mp ?_, by simpa using hmode, hclosed⟩
          rw [h.find_entry hentry, if_neg]
          rw [StoredAccount.mode, ← himage]
          exact hmode
      · next hf =>
        cases hcow : entry.2.cow with
        | owned acc => simp [AccountEntry.isVolatile, hcow] at hf
        | borrowed view =>
          rw [(h.borrowed hentry hcow).2] at hkey
          cases hkey
    · rw [h.lookup_volatile_of_notMem hmem] at hkey
      rw [h.lookup_of_notMem hmem]
      exact h.wf.exclusive key a hkey

end

end Outcome

def expected (m : Memory) (a : StoredAccount) : Option OwnedAccount :=
  if a.mode m = .closed then none else some (a.image m)

namespace Outcome

variable {b : Backend} {db db' : AccountsDb} {entries : List AccountEntry} {entry : AccountEntry}

end Outcome

/-! ### Reachable databases -/

/-- Compaction packs the spans and rewrites the tables; the accounts stay. -/
structure Relocated (db db' : AccountsDb) : Prop where
  wf : db'.persisted.WellFormed
  volatile : db'.volatile = db.volatile
  find : ∀ key, db'.persisted.find key = db.persisted.find key

def storeBatch (b : Backend) (batch : List (Pubkey × List AccountOp)) (db : AccountsDb) :
    Except AccountsDBError Unit × AccountsDb :=
  (db.prepare batch).1.store b (db.prepare batch).2

/-- States reached by successful operations: batches of changed accounts and of built ones. Accounts may also be changed and then not stored; reopening without a
volatile snapshot is a `reset`. -/
inductive Reachable : AccountsDb → Prop where
  | new (b : Backend) : Reachable (AccountsDb.new b)
  | change {db : AccountsDb} (h : Reachable db) (batch : List (Pubkey × List AccountOp))
      (hnodup : (batch.map Prod.fst).Nodup) : Reachable (db.prepare batch).1
  | store {db : AccountsDb} (h : Reachable db) (b : Backend) (batch : List (Pubkey × List AccountOp))
      (hnodup : (batch.map Prod.fst).Nodup) (hok : (db.storeBatch b batch).1 = .ok ()) :
      Reachable (db.storeBatch b batch).2
  | build {db : AccountsDb} (h : Reachable db) (b : Backend) (accounts : List (Pubkey × OwnedAccount))
      (hrejects : ∀ entry ∈ accounts, VolatileStore.Rejects entry.2)
      (hok : (db.store b (builtEntries accounts)).1 = .ok ()) : Reachable (db.store b (builtEntries accounts)).2
  | reset {db : AccountsDb} (h : Reachable db) : Reachable db.reset
  | compact {db db' : AccountsDb} (h : Reachable db) (hmoved : Relocated db db') : Reachable db'

theorem WellFormed.new (b : Backend) : (AccountsDb.new b).WellFormed where
  persisted :=
    { indexed := fun key data hk => by cases hk
      exact := fun owner offset => ⟨fun hmem => absurd hmem List.not_mem_nil, fun ⟨_, hk⟩ => by cases hk⟩
      fits := fun key data s hk => by cases hk
      layout :=
        { nonempty := fun i a hi => by cases i <;> cases hi
          apart := fun i j a b hi => by cases i <;> cases hi
          below := fun i a hi => by cases i <;> cases hi } }
  exclusive key a hk := by cases hk

theorem WellFormed.relocated {db' : AccountsDb} (h : db.WellFormed) (hmoved : Relocated db db') : db'.WellFormed where
  persisted := hmoved.wf
  exclusive key a hk := by
    rw [hmoved.volatile] at hk
    obtain ⟨hnone, hrest⟩ := h.exclusive key a hk
    refine ⟨?_, hrest⟩
    rw [← PersistedStore.find_eq_none hmoved.wf, hmoved.find, PersistedStore.find_eq_none h.persisted]
    exact hnone

section Prepare

variable {b : Backend} {db : AccountsDb} {batch : List (Pubkey × List AccountOp)}

theorem WellFormed.prepare (h : db.WellFormed) (hnodup : (batch.map Prod.fst).Nodup) :
    (db.prepare batch).1.WellFormed ∧ (∀ entry ∈ (db.prepare batch).2, Prepared (db.prepare batch).1.persisted entry) ∧
      ((db.prepare batch).2.map Prod.fst = batch.map Prod.fst) ∧
      ∀ key, (db.prepare batch).1.read key = db.read key := by
  obtain ⟨m, hdb, hshadow, -, hkeys, hprepared⟩ := prepare_spec h hnodup
  rw [hdb]
  exact ⟨h.shadowOnly hshadow, hprepared, hkeys, read_shadowOnly h hshadow⟩

theorem WellFormed.storeBatch (h : db.WellFormed) (hnodup : (batch.map Prod.fst).Nodup)
    (hok : (db.storeBatch b batch).1 = .ok ()) :
    Outcome b (db.prepare batch).1 (db.prepare batch).2 (db.storeBatch b batch).2 := by
  obtain ⟨hwf, hprepared, hkeys, -⟩ := h.prepare hnodup
  exact store_eq_ok hwf hprepared (hkeys ▸ hnodup) hok

end Prepare

theorem Reachable.wellFormed (h : Reachable db) : db.WellFormed := by
  induction h with
  | new b => exact .new b
  | change _ batch hnodup ih => exact (ih.prepare hnodup).1
  | store _ b batch hnodup hok ih => exact (ih.storeBatch hnodup hok).wellFormed
  | build _ b accounts hrejects hok ih =>
    have hbuilt := store_built (I := fun _ => True) (fun _ _ _ _ _ _ => id) trivial ih.persisted hrejects (Prod.ext hok rfl)
    exact hbuilt.1.wellFormed ih
  | reset _ ih => exact ⟨ih.persisted, fun key a hk => by cases hk⟩
  | compact _ hmoved ih => exact ih.relocated hmoved

/-! ### The result -/

/-- The account goes back to the base chain, and in the same batch another one of its size is delegated. -/
def handover : List (Pubkey × List AccountOp) :=
  [(⟨1⟩, [.setLifecycle .mirrored 2]), (⟨2⟩, [.setLifecycle .delegated 2])]

end AccountsDb

end MagicEngine
