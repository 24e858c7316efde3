import MagicEngine.Store.Progress

/-!
# What a batch asks of the allocator

An abstract view of a batch: each entry may need a span of some size and may give one back, and which free spans are
reused follows from the freelist, the cursor and these demands alone. `Allocator.reuses` computes it from the state
before the batch; the store refines it (`Txn.applyAll_progress`): the spans its entries reuse are the ones computed.
-/

namespace MagicEngine

open Regions

structure Allocator where
  freelist : DupTable Nat Nat
  storage : MappedStorage

/-- What one entry asks for: whether it calls the index, the size of the span it needs, and the span (size and
offset) it gives back. -/
structure Demand where
  guarded : Bool
  units : Option Nat
  frees : Option (Nat × Nat)
deriving DecidableEq, Repr

namespace Allocator

def release (a : Allocator) : Option (Nat × Nat) → Allocator
  | none => a
  | some (units, offset) => { a with freelist := a.freelist.put offsetRank units offset }

/-- The free span an entry reuses, if any, and the allocator after it; nothing if the entry fails. -/
def serve (b : Backend) (fault : Option Fault) (demand : Demand) (a : Allocator) : Option (Option Nat × Allocator) :=
  if demand.guarded ∧ fault = some .index then none
  else
    match demand.units with
    | none => some (none, a.release demand.frees)
    | some units =>
      if fault = some .record then none
      else
        match a.freelist.get units with
        | some o => some (some o, release { a with freelist := a.freelist.delete units o } demand.frees)
        | none =>
          match a.storage.allocate b fault units with
          | .ok (_, storage) => some (none, release { a with storage } demand.frees)
          | .error _ => none

/-- The free spans reused until the first entry that fails. -/
def reuses (b : Backend) (applied : Nat) (a : Allocator) : List Demand → List Nat
  | [] => []
  | demand :: rest =>
    match a.serve b (b.fault applied) demand with
    | none => []
    | some (taken, a) => taken.toList ++ a.reuses b (applied + 1) rest

end Allocator

namespace PersistedStore

def allocator (p : PersistedStore) : Allocator := { freelist := p.index.freelist, storage := p.storage }

def spanOf (p : PersistedStore) (key : Pubkey) : Option (Nat × Nat) :=
  (p.index.accounts.lookup key).map fun data => (p.mem.span data.offset, data.offset)

def demand (p : PersistedStore) (entry : AccountEntry) : Demand :=
  if !(entry.2.mode p.mem).requiresPersistence then { guarded := true, units := none, frees := p.spanOf entry.1 }
  else
    match entry.2.cow with
    | .borrowed _ => { guarded := entry.2.markers.owner, units := none, frees := none }
    | .owned acc => { guarded := true, units := some acc.units, frees := p.spanOf entry.1 }

variable {p q : PersistedStore} {key : Pubkey} {entry : AccountEntry}

theorem allocator_release : (p.release key).allocator = p.allocator.release (p.spanOf key) := by
  cases hk : p.index.accounts.lookup key with
  | none => simp [release_of_none hk, spanOf, hk, Allocator.release]
  | some data => simp [release_of_some hk, spanOf, hk, Allocator.release, allocator, free]

theorem allocator_place {acc : OwnedAccount} {offset : Nat} :
    (p.place key acc offset).allocator = (p.release key).allocator := rfl

end PersistedStore

/-! ### Refinement -/

namespace BatchProgress

variable {b : Backend} {fault : Option Fault} {p q q' : PersistedStore} {done : List AccountEntry} {reused : List Nat}
  {entry : AccountEntry}

theorem demand_eq (h : BatchProgress p done reused q) (hnew : entry.1 ∉ done.map Prod.fst) (hentry : Prepared p entry) :
    q.demand entry = p.demand entry := by
  have himage := (h.pending_prepared hnew hentry).2
  have hspan : q.spanOf entry.1 = p.spanOf entry.1 := by
    rw [PersistedStore.spanOf, PersistedStore.spanOf, h.untouched _ hnew]
    cases hk : p.index.accounts.lookup entry.1 with
    | none => rfl
    | some data => simp [Memory.span, h.pending hnew hk]
  rw [PersistedStore.demand, PersistedStore.demand, StoredAccount.mode, StoredAccount.mode, himage, hspan]

theorem apply (h : BatchProgress p done reused q) (hnew : entry.1 ∉ done.map Prod.fst) (hentry : Prepared p entry)
    (happlied : Applied b fault entry q q') :
    ∃ taken, q.allocator.serve b fault (p.demand entry) = some (taken, q'.allocator) ∧
      BatchProgress p (done ++ [entry]) (reused ++ taken.toList) q' := by
  have himage := (h.pending_prepared hnew hentry).2
  have hmode_eq : entry.2.mode q.mem = entry.2.mode p.mem := by rw [StoredAccount.mode, StoredAccount.mode, himage]
  rw [← h.demand_eq hnew hentry]
  cases happlied with
  | released hmode hfault =>
    refine ⟨none, ?_, ?_⟩
    · have hdemand : q.demand entry = { guarded := true, units := none, frees := q.spanOf entry.1 } := by
        simp [PersistedStore.demand, hmode]
      rw [hdemand, Allocator.serve, if_neg fun hg => hfault hg.2]
      dsimp only
      rw [← PersistedStore.allocator_release]
      rfl
    · simpa using h.released hnew hentry (hmode_eq ▸ hmode)
  | updated view hcow hmode hfault =>
    refine ⟨none, ?_, ?_⟩
    · have hdemand : q.demand entry = { guarded := entry.2.markers.owner, units := none, frees := none } := by
        simp [PersistedStore.demand, hmode, hcow]
      rw [hdemand, Allocator.serve, if_neg fun hg => hfault hg.1 hg.2]
      have hfreelist : (if entry.2.markers.owner then q.index.updateOwner entry.1 (entry.2.image q.mem).core.owner.tail
          else q.index).freelist = q.index.freelist := by
        split
        · exact Index.freelist_updateOwner
        · rfl
      simp only [Allocator.release, PersistedStore.allocator, hfreelist]
    · simpa using h.updated hnew hentry hcow (hmode_eq ▸ hmode)
  | inserted acc offset r hcow hmode hfault hr =>
    have halloc := PersistedStore.allocate_eq_ok h.wf acc.units_pos hr
    refine ⟨q.index.freelist.get acc.units, ?_, h.inserted hnew hentry hcow hmode halloc⟩
    have hdemand : q.demand entry = { guarded := true, units := some acc.units, frees := q.spanOf entry.1 } := by
      simp [PersistedStore.demand, StoredAccount.mode, StoredAccount.image, hmode, hcow]
    have hspan : r.spanOf entry.1 = q.spanOf entry.1 := by
      rw [PersistedStore.spanOf, PersistedStore.spanOf, halloc.accounts, halloc.mem]
    rw [hdemand, Allocator.serve, if_neg fun hg => hfault.1 hg.2, PersistedStore.allocator_place,
      PersistedStore.allocator_release, hspan]
    dsimp only
    rw [if_neg hfault.2]
    unfold PersistedStore.allocate at hr
    split at hr
    · next o ho =>
      cases hr
      simp only [PersistedStore.allocator, ho]
    · next hnone =>
      split at hr
      · next o storage hstorage =>
        cases hr
        simp only [PersistedStore.allocator, hnone, hstorage]
      · cases hr

end BatchProgress

namespace Txn

variable {b : Backend} {fault : Option Fault} {entry : AccountEntry} {t t' : Txn} {e : AccountsDBError}

private theorem serve_guarded {demand : Demand} {a : Allocator} (hguarded : demand.guarded)
    (hfault : fault = some .index) : a.serve b fault demand = none := by
  rw [Allocator.serve, if_pos ⟨hguarded, hfault⟩]

private theorem insert_eq_error {acc : OwnedAccount} {frees : Option (Nat × Nat)}
    (h : t.insert b fault entry.1 acc = .error (e, t')) :
    t'.mem = t.mem ∧ t.allocator.serve b fault { guarded := true, units := some acc.units, frees } = none ∧
      t.storage.cursor ≤ t'.storage.cursor := by
  simp only [insert, bind_eq_error, require_eq_error, require_eq_ok, mapError_eq_error, mapError_eq_ok] at h
  rcases h with ⟨hfault, h⟩ | ⟨-, hfault, ⟨e', halloc, h⟩ | ⟨⟨offset, q⟩, halloc, h⟩⟩
  · cases h
    exact ⟨rfl, serve_guarded rfl (not_not.mp hfault), le_rfl⟩
  · cases h
    refine ⟨rfl, ?_, le_rfl⟩
    rw [Allocator.serve, if_neg fun hg => hfault hg.2]
    dsimp only
    split
    · rfl
    · unfold PersistedStore.allocate at halloc
      split at halloc
      · cases halloc
      · next hnone =>
        split at halloc
        · cases halloc
        · next e'' hstorage => simp only [PersistedStore.allocator, hnone, hstorage]
  · rcases h with ⟨hrecord, h⟩ | ⟨-, -, h⟩
    · cases h
      have hq : q.mem = t.mem ∧ t.storage.cursor ≤ q.storage.cursor := by
        unfold PersistedStore.allocate at halloc
        split at halloc
        · cases halloc
          exact ⟨rfl, le_rfl⟩
        · split at halloc
          · next o storage hstorage =>
            cases halloc
            exact ⟨rfl, by rw [(MappedStorage.allocate_eq_ok hstorage).2]; omega⟩
          · cases halloc
      refine ⟨hq.1, ?_, hq.2⟩
      rw [Allocator.serve, if_neg fun hg => hfault hg.2]
      dsimp only
      rw [if_pos (not_not.mp hrecord)]
    · cases h

/-- A failed entry has written no image; space it allocated is lost. -/
theorem apply_eq_error (h : t.apply b fault entry = .error (e, t')) :
    t'.mem = t.mem ∧ t.allocator.serve b fault (t.demand entry) = none ∧ t.storage.cursor ≤ t'.storage.cursor := by
  unfold apply at h
  dsimp only at h
  unfold PersistedStore.demand
  split at h
  · next hmode =>
    rw [if_pos hmode]
    simp only [bind_eq_error, delete, require_eq_error] at h
    rcases h with (⟨hfault, h⟩ | ⟨-, -, h⟩) | ⟨t₁, -, h⟩
    · cases h
      exact ⟨rfl, serve_guarded rfl (not_not.mp hfault), le_rfl⟩
    · cases h
    · split at h <;> cases h
  · next hmode =>
    rw [if_neg hmode]
    cases hcow : entry.2.cow with
    | borrowed view =>
      simp only [hcow, update, bind_eq_error] at h
      rcases h with h | ⟨t₁, -, h⟩
      · unfold updateOwner at h
        split at h
        · cases h
        · next howner =>
          simp only [bind_eq_error, require_eq_error] at h
          rcases h with ⟨hfault, h⟩ | ⟨-, -, h⟩
          · cases h
            exact ⟨rfl, serve_guarded (by simpa using howner) (not_not.mp hfault), le_rfl⟩
          · cases h
      · cases h
    | owned acc =>
      simp only [hcow] at h
      exact insert_eq_error h

/-- The run: how far the entries got, what the store looks like then, and which free spans were reused. If an entry
fails, the images are those after the entries before it. What every successful entry keeps holds up to there. -/
theorem applyAll_progress {I : PersistedStore → Prop} {p : PersistedStore} {done entries : List AccountEntry}
    {reused : List Nat} {applied : Nat}
    (hinv : ∀ fault entry q q', q.WellFormed → Applied b fault entry q q' → I q → I q')
    (h : BatchProgress p done reused t.toPersistedStore) (ht : I t.toPersistedStore)
    (hprepared : ∀ entry ∈ entries, Prepared p entry) (hnodup : ((done ++ entries).map Prod.fst).Nodup) :
    ∃ done' rest q, entries = done' ++ rest ∧ (applyAll b applied t entries).1 = applied + done'.length ∧
      BatchProgress p (done ++ done') (reused ++ t.allocator.reuses b applied (entries.map p.demand)) q ∧ I q ∧
      (applyAll b applied t entries).2.2.mem = q.mem ∧
      q.storage.cursor ≤ (applyAll b applied t entries).2.2.storage.cursor ∧
      ((applyAll b applied t entries).2.1 = none →
        rest = [] ∧ (applyAll b applied t entries).2.2.toPersistedStore = q) := by
  induction entries generalizing t done reused applied with
  | nil =>
    refine ⟨[], [], t.toPersistedStore, rfl, rfl, ?_, ht, rfl, le_rfl, fun _ => ⟨rfl, rfl⟩⟩
    simpa [Allocator.reuses] using h
  | cons entry rest ih =>
    have hentry := hprepared entry List.mem_cons_self
    have hnew : entry.1 ∉ done.map Prod.fst := by
      rw [List.map_append, List.map_cons, List.nodup_append] at hnodup
      exact fun hmem => hnodup.2.2 _ hmem _ List.mem_cons_self rfl
    have hcurrent := (h.pending_prepared hnew hentry).1
    rw [applyAll, List.map_cons, Allocator.reuses]
    cases happly : t.apply b (b.fault applied) entry with
    | ok t' =>
      have happlied := apply_eq_ok (h.wf.persists _) hcurrent happly
      obtain ⟨taken, hserve, hprogress⟩ := h.apply hnew hentry happlied
      obtain ⟨done', rest', q, hsplit, hlength, hprogress', hrest⟩ :=
        @ih t' (done ++ [entry]) _ (applied + 1) hprogress (hinv _ _ _ _ h.wf happlied ht)
          (fun e he => hprepared e (List.mem_cons_of_mem _ he)) (by simpa using hnodup)
      rw [hserve]
      refine ⟨entry :: done', rest', q, by rw [hsplit]; rfl, ?_, ?_, hrest⟩
      · rw [hlength, List.length_cons]
        omega
      · simpa using hprogress'
    | error failed =>
      obtain ⟨e, t'⟩ := failed
      obtain ⟨hmem, hserve, hcursor⟩ := apply_eq_error happly
      rw [h.demand_eq hnew hentry] at hserve
      rw [hserve]
      refine ⟨[], entry :: rest, t.toPersistedStore, rfl, rfl, ?_, ht, hmem, hcursor, nofun⟩
      simpa using h

end Txn

namespace PersistedStore

variable {b : Backend} {p q : PersistedStore} {entries : List AccountEntry}

def reuses (b : Backend) (p : PersistedStore) (entries : List AccountEntry) : List Nat :=
  p.allocator.reuses b 0 (entries.map p.demand)

/-- A batch that succeeds has applied all its entries. After a failure the index is the old one, and the images of the
entries applied are rolled back. -/
theorem upsert_progress {I : PersistedStore → Prop}
    (hinv : ∀ fault entry q q', q.WellFormed → Applied b fault entry q q' → I q → I q') (hp : I p)
    (hwf : p.WellFormed) (hprepared : ∀ entry ∈ entries, Prepared p entry) (hnodup : (entries.map Prod.fst).Nodup) :
    ∃ done rest q, entries = done ++ rest ∧ BatchProgress p done (p.reuses b entries) q ∧ I q ∧
      q.storage.cursor ≤ (p.upsert b entries).2.storage.cursor ∧
      (p.upsert b entries = (.ok (), q) ∧ rest = [] ∨ (p.upsert b entries).1 ≠ .ok () ∧
        (p.upsert b entries).2.index = p.index ∧ (p.upsert b entries).2.mem = rollback q.mem done) := by
  obtain ⟨done, rest, q, hsplit, hlength, hprogress, hq, hmem, hcursor, hok⟩ :=
    @Txn.applyAll_progress b { p with } I p [] entries [] 0 hinv (.init hwf) hp hprepared (by simpa using hnodup)
  refine ⟨done, rest, q, hsplit, by simpa [reuses] using hprogress, hq, ?_⟩
  unfold upsert
  generalize Txn.applyAll b 0 { p with } entries = run at *
  obtain ⟨applied, failed, t⟩ := run
  dsimp only at *
  split
  · cases failed with
    | some e => contradiction
    | none =>
      obtain ⟨rfl, rfl⟩ := hok rfl
      exact ⟨hcursor, .inl ⟨rfl, rfl⟩⟩
  · refine ⟨hcursor, .inr ⟨nofun, rfl, ?_⟩⟩
    rw [hmem, hlength, hsplit, Nat.zero_add, List.take_left]

theorem upsert_eq_ok (hwf : p.WellFormed) (hprepared : ∀ entry ∈ entries, Prepared p entry)
    (hnodup : (entries.map Prod.fst).Nodup) (h : p.upsert b entries = (.ok (), q)) :
    BatchProgress p entries (p.reuses b entries) q := by
  obtain ⟨done, rest, q', hsplit, hprogress, -, -, hend⟩ :=
    upsert_progress (b := b) (I := fun _ => True) (fun _ _ _ _ _ _ => id) trivial hwf hprepared hnodup
  obtain ⟨hok, rfl⟩ := hend.resolve_right fun herror => herror.1 (by rw [h])
  obtain rfl := (Prod.mk.inj (hok.symm.trans h)).2
  rw [List.append_nil] at hsplit
  exact hsplit ▸ hprogress

theorem upsert_eq_error (hwf : p.WellFormed) (hprepared : ∀ entry ∈ entries, Prepared p entry)
    (hnodup : (entries.map Prod.fst).Nodup) {e : AccountsDBError} (h : p.upsert b entries = (.error e, q)) :
    ∃ done rest q', entries = done ++ rest ∧ BatchProgress p done (p.reuses b entries) q' ∧ q.index = p.index ∧
      q.mem = rollback q'.mem done := by
  obtain ⟨done, rest, q', hsplit, hprogress, -, -, hend⟩ :=
    upsert_progress (b := b) (I := fun _ => True) (fun _ _ _ _ _ _ => id) trivial hwf hprepared hnodup
  rw [h] at hend
  exact ⟨done, rest, q', hsplit, hprogress, (hend.resolve_left fun hok => by cases hok.1).2⟩

end PersistedStore

end MagicEngine
