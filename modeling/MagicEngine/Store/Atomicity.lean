import MagicEngine.Store.Batch

/-!
# Failed batches

What a batch leaves behind when an entry or the commit fails. The index is the old one, and every image that an entry
published is withdrawn. A span that one entry freed and a later one reused is not restored: the old index still points
to it, but it holds the other account.

`AccountsDb.store_atomic_iff` says that a failed batch is without effect exactly if it reused no span of an account.
-/

namespace MagicEngine

open Regions

/-! ### Rolling back -/

namespace PersistedStore

variable {p : PersistedStore} {m : Memory} {entries : List AccountEntry} {o : Nat}

theorem rollbackEntry_of_ne {entry : AccountEntry} (h : entry.publishes ≠ some o) : rollbackEntry m entry o = m o := by
  unfold rollbackEntry
  cases hcow : entry.2.cow with
  | owned acc => rfl
  | borrowed view =>
    dsimp only
    split
    · next hdirty =>
      refine Heap.modify_of_ne m _ fun heq => h ?_
      simp [AccountEntry.publishes, hcow, hdirty, heq]
    · rfl

theorem rollbackEntry_self {entry : AccountEntry} (h : entry.publishes = some o) :
    rollbackEntry m entry o = (m o).map Span.withdraw := by
  unfold AccountEntry.publishes at h
  split at h
  · next view hcow =>
    split at h
    · next hdirty =>
      cases h
      simp [rollbackEntry, hcow, hdirty, BorrowedAccount.rollback]
    · cases h
  · cases h

theorem rollback_of_notMem (h : some o ∉ entries.map AccountEntry.publishes) : rollback m entries o = m o := by
  induction entries generalizing m with
  | nil => rfl
  | cons entry rest ih =>
    simp only [List.map_cons, List.mem_cons, not_or] at h
    rw [rollback, List.foldl_cons, ← rollback, ih h.2, rollbackEntry_of_ne (Ne.symm h.1)]

theorem rollback_of_mem (hwf : p.WellFormed) (hprepared : ∀ entry ∈ entries, Prepared p entry)
    (hnodup : (entries.map Prod.fst).Nodup) (h : some o ∈ entries.map AccountEntry.publishes) :
    rollback m entries o = (m o).map Span.withdraw := by
  induction entries generalizing m with
  | nil => cases h
  | cons entry rest ih =>
    obtain ⟨hnew, hrest⟩ := List.nodup_cons.mp hnodup
    have hprepared' : ∀ e ∈ rest, Prepared p e := fun e he => hprepared e (List.mem_cons_of_mem _ he)
    rw [rollback, List.foldl_cons, ← rollback]
    by_cases ho : entry.publishes = some o
    · have hothers : some o ∉ rest.map AccountEntry.publishes := by
        intro hmem
        obtain ⟨e, he, hpublishes⟩ := List.mem_map.mp hmem
        obtain ⟨data, hk, rfl⟩ := (hprepared entry List.mem_cons_self).lookup_of_publishes ho
        refine (hprepared' e he).publishes_ne hwf.distinct ?_ hk hpublishes
        exact fun heq => hnew (heq ▸ List.mem_map_of_mem he)
      rw [rollback_of_notMem hothers, rollbackEntry_self ho]
    · have hmem : some o ∈ rest.map AccountEntry.publishes := by
        rw [List.map_cons, List.mem_cons] at h
        exact h.resolve_left (Ne.symm ho)
      rw [ih hprepared' hrest hmem, rollbackEntry_of_ne ho]

end PersistedStore

namespace BatchProgress

variable {p q : PersistedStore} {done : List AccountEntry} {reused : List Nat} {key : Pubkey} {data : OwnerAndOffset}

theorem rollback_kept (h : BatchProgress p done reused q) (hnodup : (done.map Prod.fst).Nodup)
    (hk : p.index.accounts.lookup key = some data) (ho : data.offset ∉ reused) :
    PersistedStore.rollback q.mem done data.offset = p.mem data.offset := by
  obtain ⟨s, hs, -⟩ := h.start.indexed key data hk
  have hq := (h.kept key data s hk hs ho).1
  by_cases hmem : some data.offset ∈ done.map AccountEntry.publishes
  · rw [PersistedStore.rollback_of_mem h.start h.prepared hnodup hmem, hq, published, if_pos hmem, hs]
    simp [Span.withdraw_publish]
  · rw [PersistedStore.rollback_of_notMem hmem, hq, published, if_neg hmem, hs]

/-- A span that was reused keeps the pubkey of its new account. -/
theorem rollback_taken (h : BatchProgress p done reused q) (hnodup : (done.map Prod.fst).Nodup)
    (hk : p.index.accounts.lookup key = some data) (ho : data.offset ∈ reused) :
    ∃ s, PersistedStore.rollback q.mem done data.offset = some s ∧ s.pubkey ≠ key := by
  obtain ⟨s₀, hs₀, -⟩ := h.start.indexed key data hk
  obtain ⟨entry, -, d, s, hd, hoffset, hs, -, hold⟩ := h.taken _ ho
  obtain ⟨s', hs', hpubkey, -⟩ := h.wf.indexed _ _ hd
  rw [hoffset] at hs'
  cases hs.symm.trans hs'
  have hne : s.pubkey ≠ key := hpubkey ▸ Ne.symm (hold key data s₀ hk rfl hs₀).1
  by_cases hmem : some data.offset ∈ done.map AccountEntry.publishes
  · exact ⟨s.withdraw, by rw [PersistedStore.rollback_of_mem h.start h.prepared hnodup hmem, hs]; rfl, hne⟩
  · exact ⟨s, by rw [PersistedStore.rollback_of_notMem hmem, hs], hne⟩

end BatchProgress

/-! ### The result -/

namespace AccountsDb

variable {b : Backend} {db db' : AccountsDb} {entries : List AccountEntry}

theorem store_eq_error {e : AccountsDBError} (hwf : db.WellFormed)
    (hprepared : ∀ entry ∈ entries, Prepared db.persisted entry) (hnodup : (entries.map Prod.fst).Nodup)
    (h : db.store b entries = (.error e, db')) :
    db'.volatile = db.volatile ∧ db'.persisted.index = db.persisted.index ∧
      ∃ done q, (done.map Prod.fst).Nodup ∧ db'.mem = PersistedStore.rollback q.mem done ∧
        BatchProgress db.persisted done (db.persisted.reuses b (entries.filter (AccountEntry.isPersisted db.mem))) q := by
  unfold store at h
  cases hupsert : db.persisted.upsert b (entries.filter (AccountEntry.isPersisted db.mem)) with
  | mk result p =>
    cases result with
    | ok u => rw [hupsert] at h; cases h
    | error e' =>
      rw [hupsert] at h
      cases h
      have hnodup' := nodup_filter hnodup (AccountEntry.isPersisted db.mem)
      obtain ⟨done, rest, q, hsplit, hprogress, hindex, hmem⟩ := PersistedStore.upsert_eq_error hwf.persisted
        (fun e he => hprepared e (List.mem_of_mem_filter he)) hnodup' hupsert
      rw [hsplit, List.map_append] at hnodup'
      exact ⟨rfl, hindex, done, q, (List.nodup_append.mp hnodup').1, hmem, hprogress⟩

/-- Every loaded account, every program listing and the index are the same. -/
def SameView (db db' : AccountsDb) : Prop :=
  (∀ key, db'.read key = db.read key) ∧ (∀ owner, db'.program owner = db.program owner) ∧
    db'.persisted.index = db.persisted.index

theorem SameView.of_item (hwf : db.WellFormed) (hvolatile : db'.volatile = db.volatile)
    (hindex : db'.persisted.index = db.persisted.index)
    (hmem : ∀ key data, db.persisted.index.accounts.lookup key = some data →
      (db'.mem data.offset).map (fun s => (s.pubkey, s.active)) =
        (db.mem data.offset).map fun s => (s.pubkey, s.active)) : SameView db db' := by
  refine ⟨fun key => ?_, fun owner => ?_, hindex⟩
  · have hfind : db'.persisted.find key = db.persisted.find key := by
      rw [PersistedStore.find, PersistedStore.find, hindex]
      cases hk : db.persisted.index.accounts.lookup key with
      | none => rfl
      | some data =>
        have hactive := congrArg (Option.map Prod.snd) (hmem key data hk)
        rw [Option.map_map, Option.map_map] at hactive
        exact hactive
    rw [read_eq hwf, read_eq_of_span, hvolatile, hfind]
    intro data hk
    rw [hindex] at hk
    obtain ⟨s, hs, -⟩ := hwf.persisted.indexed key data hk
    have hsome := congrArg Option.isSome (hmem key data hk)
    simpa [mem, hs] using hsome
  · rw [program, program, hvolatile, PersistedStore.program, PersistedStore.program, hindex]
    refine congrArg (· ++ _) (List.map_congr_left fun o ho => ?_)
    obtain ⟨key, hk⟩ := (hwf.persisted.exact _ _).mp (DupTable.mem_getDuplicates.mp ho)
    rw [PersistedStore.item, PersistedStore.item]
    exact congrArg (Option.getD · default) (hmem key _ hk)

/-- A failed batch is without effect exactly if none of the spans it reused belongs to an account of the database. -/
theorem store_atomic_iff {e : AccountsDBError} {batch : List (Pubkey × List AccountOp)} (hdb : Reachable db)
    (hnodup : (batch.map Prod.fst).Nodup) (herr : (db.storeBatch b batch).1 = .error e) :
    SameView db (db.storeBatch b batch).2 ↔
      ∀ key data, db.persisted.index.accounts.lookup key = some data →
        data.offset ∉ (db.prepare batch).1.persisted.reuses b
          ((db.prepare batch).2.filter (AccountEntry.isPersisted (db.prepare batch).1.mem)) := by
  have hwf := hdb.wellFormed
  obtain ⟨m, hprepare, hshadow, -, hkeys, hprepared⟩ := prepare_spec hwf hnodup
  have hstore : (db.prepare batch).1.store b (db.prepare batch).2 = (.error e, (db.storeBatch b batch).2) :=
    Prod.ext herr rfl
  rw [hprepare] at hstore ⊢
  generalize (db.storeBatch b batch).2 = db' at hstore ⊢
  generalize (db.prepare batch).2 = entries at hstore hkeys hprepared ⊢
  obtain ⟨hvolatile, hindex, done, q, hdone, hmem, hprogress⟩ :=
    store_eq_error (hwf.shadowOnly hshadow) hprepared (hkeys ▸ hnodup) hstore
  constructor
  · rintro ⟨-, hprogram, -⟩ key data hk hreused
    -- the listing of its owner shows another pubkey for the account
    obtain ⟨s, hs, hpubkey, -, howner⟩ := hwf.persisted.indexed key data hk
    obtain ⟨s', hs', hpubkey'⟩ := hprogress.rollback_taken hdone hk hreused
    have hlist := hprogram s.active.core.owner
    rw [program, program, hvolatile, PersistedStore.program, PersistedStore.program, hindex, howner] at hlist
    have hitem := List.map_inj_left.mp (List.append_cancel_right hlist) data.offset
      (DupTable.mem_getDuplicates.mpr ((hwf.persisted.exact _ _).mpr ⟨key, hk⟩))
    have hs' : db'.persisted.mem data.offset = some s' := by rw [← hs', ← hmem]; rfl
    rw [PersistedStore.item, PersistedStore.item, hs', hs] at hitem
    exact hpubkey' ((congrArg Prod.fst hitem).trans hpubkey)
  · intro hnone
    refine .of_item hwf hvolatile hindex fun key data hk => ?_
    have hrestored := hprogress.rollback_kept hdone hk (hnone key data hk)
    rw [hmem, hrestored]
    refine hshadow.map_eq (fun s img => ?_) data.offset
    rw [Span.pubkey_setImage, Span.active_setImage_shadow]

def magicDb : AccountsDb := ((AccountsDb.new .release).storeBatch .release [(⟨1⟩, [.setLifecycle .magic 1])]).2

theorem magicDb_reachable : Reachable magicDb := .store (.new .release) .release _ (by decide) rfl

def failingCommit : Backend := { Backend.release with commitFails := true }

/-- The account is closed, and in the same batch another one of its size is delegated. -/
def replacement : List (Pubkey × List AccountOp) :=
  [(⟨1⟩, [.setLifecycle .closed 1]), (⟨2⟩, [.setLifecycle .delegated 1])]

/-- The failed batch has closed the account. -/
theorem failed_replacement_shows :
    Reachable magicDb ∧ (magicDb.storeBatch failingCommit replacement).1 = .error .index ∧
      (magicDb.read ⟨1⟩).map (·.core.mode) = some .magic ∧
      ((magicDb.storeBatch failingCommit replacement).2.read ⟨1⟩).map (·.core.mode) = some .closed :=
  ⟨magicDb_reachable, rfl, by decide, by decide⟩

/-- Without a span to reuse the same failure leaves no trace. -/
theorem failed_delegation_hidden :
    SameView magicDb (magicDb.storeBatch failingCommit [(⟨2⟩, [.setLifecycle .delegated 1])]).2 :=
  (store_atomic_iff magicDb_reachable (by decide) rfl).mpr fun _ _ _ => List.not_mem_nil

end AccountsDb

end MagicEngine
