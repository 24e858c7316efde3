import Mathlib.Algebra.Order.BigOperators.Group.Finset
import MagicEngine.Store.Compaction

/-!
# Space and contents over whole runs

A packing pass changes nothing but offsets (`PersistedStore.defragment_preserves`), so it is one of the relocations that
the database tolerates, and compaction, which repeats passes, comes to an end. Together with the batches this keeps the
space partition in every state of a database (`AccountsDb.space_partition`).
-/

namespace MagicEngine

open Regions Region Defrag

namespace PersistedStore

variable {p q : PersistedStore} {u : Nat}

/-! ### Contents -/

namespace Executed

theorem find_eq (e : Executed p q) (key : Pubkey) : q.find key = p.find key := by
  rw [find, find, e.accounts]
  cases hk : p.index.accounts.lookup key with
  | none => rfl
  | some data => simp [e.mem key data hk]

theorem fingerprint_eq (e : Executed p q) : q.fingerprint = p.fingerprint := by
  have hkeys : q.index.accounts.keys = p.index.accounts.keys := by
    ext key
    simp only [Finmap.mem_keys, ← Finmap.lookup_isSome, e.accounts, Option.isSome_map]
  rw [fingerprint, fingerprint, hkeys]
  refine List.filterMap_congr fun key _ => ?_
  rw [e.accounts]
  cases hk : p.index.accounts.lookup key with
  | none => rfl
  | some data => simp [e.mem key data hk]

end Executed

theorem mem_program (h : p.Mapped) (hexact : p.index.Exact) {owner : Pubkey} {x : Pubkey × OwnedAccount} :
    x ∈ p.program owner ↔ ∃ data s, p.index.accounts.lookup x.1 = some data ∧ data.owner = owner.tail ∧
      p.mem data.offset = some s ∧ s.active = x.2 := by
  simp only [program, List.mem_map, DupTable.mem_getDuplicates]
  constructor
  · rintro ⟨o, ho, rfl⟩
    obtain ⟨key, hk⟩ := (hexact _ _).mp ho
    obtain ⟨s, hs, hpubkey⟩ := h.indexed key _ hk
    have hitem : p.item o = (key, s.active) := by simp [item, show p.mem o = some s from hs, hpubkey]
    rw [hitem]
    exact ⟨_, s, hk, rfl, hs, rfl⟩
  · rintro ⟨data, s, hk, howner, hs, hactive⟩
    obtain ⟨s', hs', hpubkey⟩ := h.indexed _ data hk
    cases hs.symm.trans hs'
    refine ⟨data.offset, (hexact _ _).mpr ⟨x.1, by rw [hk, ← howner]⟩, ?_⟩
    simp [item, hs, hpubkey, hactive]

theorem nodup_keys_program (h : p.Mapped) (hexact : p.index.Exact) (hnodup : p.index.programs.Nodup) (owner : Pubkey) :
    ((p.program owner).map Prod.fst).Nodup := by
  have hoffsets : (p.index.programs.getDuplicates owner.tail).Nodup := by
    refine (hnodup.filter _).map_on fun x hx y hy heq => ?_
    have hx' := of_decide_eq_true (List.mem_filter.mp hx).2
    have hy' := of_decide_eq_true (List.mem_filter.mp hy).2
    exact Prod.ext (hx'.trans hy'.symm) heq
  rw [program, List.map_map]
  refine hoffsets.map_on fun o ho o' ho' heq => ?_
  obtain ⟨key, hk⟩ := (hexact _ _).mp (DupTable.mem_getDuplicates.mp ho)
  obtain ⟨key', hk'⟩ := (hexact _ _).mp (DupTable.mem_getDuplicates.mp ho')
  obtain ⟨s, hs, hpubkey⟩ := h.indexed key _ hk
  obtain ⟨s', hs', hpubkey'⟩ := h.indexed key' _ hk'
  have hkey : key = key' := by
    simpa [item, show p.mem o = some s from hs, show p.mem o' = some s' from hs', hpubkey, hpubkey'] using heq
  rw [hkey, hk'] at hk
  exact (congrArg OwnerAndOffset.offset (Option.some.inj hk)).symm

theorem SpacePartition.mapped_spans (h : p.SpacePartition) : p.Mapped where
  indexed key data hk := by
    obtain ⟨s, hs, hpubkey, -⟩ := h.indexed key data hk
    exact ⟨s, hs, hpubkey⟩
  layout := h.tiling.toLayout

theorem Executed.program_perm (e : Executed p q) (h : p.SpacePartition) (owner : Pubkey) :
    (q.program owner).Perm (p.program owner) := by
  have hq := e.spacePartition h
  have hkeys := nodup_keys_program h.mapped_spans h.programs h.programs_nodup owner
  have hkeys' := nodup_keys_program hq.mapped_spans hq.programs hq.programs_nodup owner
  refine (List.perm_ext_iff_of_nodup hkeys'.of_map hkeys.of_map).mpr fun x => ?_
  rw [mem_program hq.mapped_spans hq.programs, mem_program h.mapped_spans h.programs, e.accounts]
  cases hk : p.index.accounts.lookup x.1 with
  | none => simp
  | some data => simp [e.mem x.1 data hk]

/-! ### One pass -/

def Live (p : PersistedStore) (u : Nat) : Prop := ∃ key r, p.held (.inl key) = some r ∧ r.Has u

/-- A pass keeps every account, every program listing and the checksum. Its targets were free, are apart and lie below
their sources. It cuts the file at the first unit from which on nothing is live, and its freelist is what is not live
below. -/
theorem defragment_preserves (h : p.SpacePartition) :
    (∀ key, p.defragment.2.find key = p.find key) ∧
      (∀ owner, (p.defragment.2.program owner).Perm (p.program owner)) ∧
      (∀ (δ : Type) (hash : Nat → Nat → List (Pubkey × Nat × OwnedAccount) → δ) (slot superblock : Nat),
        p.defragment.2.checksum hash slot superblock = p.checksum hash slot superblock) ∧
      (∀ move ∈ p.plan.moves, move.dst < move.src ∧ move.dst + move.units ≤ move.src ∧
        ∀ key r, p.held (.inl key) = some r → Apart (target move) r) ∧
      p.plan.moves.Pairwise (fun a b => Apart (target a) (target b)) ∧
      IsLeast {t | ∀ u, t ≤ u → u < p.storage.cursor → ¬p.defragment.2.Live u} p.defragment.2.storage.cursor ∧
      ∀ u, (∃ f ∈ p.defragment.2.index.freelist, (⟨f.2, f.1⟩ : Region).Has u) ↔
        u < p.defragment.2.storage.cursor ∧ ¬p.defragment.2.Live u := by
  have e := executed h
  have hq := e.spacePartition h
  have hsuffix := plan_suffix h
  refine ⟨e.find_eq, e.program_perm h, fun δ hash slot superblock => ?_, fun move hmove => ?_, (plan_spec h).1.apart, ?_,
    fun u => ?_⟩
  · rw [checksum, checksum, e.fingerprint_eq]
  · obtain ⟨-, r, -, -, hoffset, hstop⟩ := (plan_spec h).1.targets move hmove
    have hpos : 0 < move.units := target_pos h hmove
    have hend : r.offset ≤ r.stop := Nat.le_add_right _ _
    exact ⟨by omega, by omega, fun key r hkey => (live_apart_target h hmove hkey).symm⟩
  · rw [e.cursor]
    refine ⟨fun u hu hcursor hlive => ?_, fun t ht => ?_⟩
    · exact (e.live_iff h hcursor).mp hlive (vacant_reverse.mp (hsuffix.vacant u hu hcursor))
    · by_contra hlt
      have hle := hsuffix.le
      -- the unit before the tail is live
      refine ht (p.tail - 1) (by omega) (by omega) ((e.live_iff h (by omega)).mpr fun hvacant => ?_)
      exact hsuffix.least (by omega) (vacant_reverse.mpr hvacant)
  · constructor
    · rintro ⟨f, hf, hin⟩
      refine ⟨hin.2.trans_le (hq.tiling.below _ _ (held_free hf)), ?_⟩
      rintro ⟨key, r, hkey, hin'⟩
      exact not_live_of_free hq hkey hin' (held_free hf) hin
    · rintro ⟨hu, hlive⟩
      obtain ⟨i, r, hi, hin⟩ := hq.tiling.covered u hu
      cases i with
      | inl key => exact (hlive ⟨key, r, hi, hin⟩).elim
      | inr f =>
        obtain ⟨hf, rfl⟩ := mem_of_held_free hi
        exact ⟨f, hf, hin⟩

/-! ### Compaction comes to an end -/

private def offsets (p : PersistedStore) : Nat :=
  ∑ key ∈ p.index.accounts.keys, ((p.index.accounts.lookup key).map (·.offset)).getD 0

private theorem destination_le (h : p.SpacePartition) (o : Nat) : destination p.plan.moves o ≤ o := by
  by_cases hmoved : ∃ move ∈ p.plan.moves, move.src = o
  · obtain ⟨move, hmove, rfl⟩ := hmoved
    rw [destination_of_mem (src_ne h) hmove]
    obtain ⟨-, r, -, -, hoffset, hstop⟩ := (plan_spec h).1.targets move hmove
    have hend : r.offset ≤ r.stop := Nat.le_add_right _ _
    omega
  · exact (destination_of_notMem fun move hmove hsrc => hmoved ⟨move, hmove, hsrc⟩).le

private theorem Executed.offsets_le (e : Executed p q) (h : p.SpacePartition) :
    q.offsets ≤ p.offsets ∧ (p.plan.moves ≠ [] → q.offsets < p.offsets) := by
  have hkeys : q.index.accounts.keys = p.index.accounts.keys := by
    ext key
    simp only [Finmap.mem_keys, ← Finmap.lookup_isSome, e.accounts, Option.isSome_map]
  have hle : ∀ key ∈ p.index.accounts.keys, ((q.index.accounts.lookup key).map (·.offset)).getD 0 ≤
      ((p.index.accounts.lookup key).map (·.offset)).getD 0 := fun key _ => by
    rw [e.accounts]
    cases p.index.accounts.lookup key with
    | none => exact le_rfl
    | some data => exact destination_le h data.offset
  rw [offsets, offsets, hkeys]
  refine ⟨Finset.sum_le_sum hle, fun hne => Finset.sum_lt_sum hle ?_⟩
  obtain ⟨move, hmove⟩ := List.exists_mem_of_ne_nil _ hne
  obtain ⟨key, data, -, hk, ho, -⟩ := plan_source h hmove
  refine ⟨key, Finmap.mem_keys.mpr (Finmap.mem_iff.mpr ⟨data, hk⟩), ?_⟩
  obtain ⟨-, r, -, -, hoffset, hstop⟩ := (plan_spec h).1.targets move hmove
  have hpos : 0 < move.units := target_pos h hmove
  have hend : r.offset ≤ r.stop := Nat.le_add_right _ _
  rw [e.accounts, hk]
  simp only [Option.map_some, Option.getD_some, ho, destination_of_mem (src_ne h) hmove]
  omega

private theorem reclaimed_add_cursor (h : p.SpacePartition) :
    p.defragment.1.reclaimed + p.defragment.2.storage.cursor = p.storage.cursor := by
  have htail := (plan_suffix h).le
  rw [(executed h).cursor]
  simp only [defragment, tail] at htail ⊢
  omega

/-- A pass that changes something lowers the cursor or an offset, and raises none. -/
private theorem measure_lt (h : p.SpacePartition) (hchanged : p.defragment.1.changed) :
    p.defragment.2.storage.cursor + p.defragment.2.offsets < p.storage.cursor + p.offsets := by
  have hcursor := reclaimed_add_cursor h
  obtain ⟨hle, hlt⟩ := (executed h).offsets_le h
  simp only [Defragged.changed, Bool.or_eq_true, decide_eq_true_eq] at hchanged
  rcases hchanged with hmoved | hreclaimed
  · have := hlt (List.ne_nil_of_length_pos hmoved)
    omega
  · omega

/-- A pass that changes nothing leaves a store in which it would change nothing again. -/
private theorem fixpoint_of_not_changed (hchanged : ¬p.defragment.1.changed) :
    p.defragment = ({ moved := 0, reclaimed := 0 }, p) ∧ p.plan.moves = [] := by
  have hstore : p.defragment.2 = p := if_neg hchanged
  simp only [Defragged.changed, Bool.or_eq_true, decide_eq_true_eq, not_or, Nat.not_lt, Nat.le_zero] at hchanged
  obtain ⟨hmoved, hreclaimed⟩ := hchanged
  have houtcome : p.defragment.1 = { moved := 0, reclaimed := 0 } := congrArg₂ Defragged.mk hmoved hreclaimed
  exact ⟨Prod.ext houtcome hstore, List.length_eq_zero_iff.mp hmoved⟩

/-- What every pass keeps, compaction keeps. -/
theorem compact_induction {motive : PersistedStore → Prop} (hpass : ∀ p : PersistedStore, motive p → motive p.defragment.2)
    (hp : motive p) {fuel : Nat} (hq : p.compact fuel = some q) : motive q := by
  suffices hloop : ∀ reclaimed result, p.compactFrom reclaimed fuel = some result → motive result.2 by
    obtain ⟨result, hresult, rfl⟩ := Option.map_eq_some_iff.mp hq
    exact hloop 0 result hresult
  clear hq
  induction fuel generalizing p with
  | zero => exact fun _ _ hresult => by cases hresult
  | succ fuel ih =>
    intro reclaimed result hresult
    rw [compactFrom] at hresult
    split at hresult
    · exact ih (hpass p hp) _ _ hresult
    · obtain rfl := Option.some.inj hresult
      exact hpass p hp

/-- Compaction comes to an end after finitely many passes, with any number of passes allowed from there on. What it
returns is what the cursor lost, and another pass would move nothing and reclaim nothing. -/
theorem compact_fixpoint (h : p.SpacePartition) : ∃ passes reclaimed q,
    (∀ fuel, passes ≤ fuel → p.compactFrom 0 fuel = some (reclaimed, q) ∧ p.compact fuel = some q) ∧
      reclaimed + q.storage.cursor = p.storage.cursor ∧ q.SpacePartition ∧ q.plan.moves = [] ∧
      q.defragment = ({ moved := 0, reclaimed := 0 }, q) := by
  suffices hloop : ∀ r, ∃ passes reclaimed q, (∀ fuel, passes ≤ fuel → p.compactFrom r fuel = some (r + reclaimed, q)) ∧
      reclaimed + q.storage.cursor = p.storage.cursor ∧ q.SpacePartition ∧ ¬q.defragment.1.changed by
    obtain ⟨passes, reclaimed, q, hall, hcursor, hq, hchanged⟩ := hloop 0
    obtain ⟨hfix, hmoves⟩ := fixpoint_of_not_changed hchanged
    refine ⟨passes, reclaimed, q, fun fuel hfuel => ?_, hcursor, hq, hmoves, hfix⟩
    have hfrom := hall fuel hfuel
    rw [Nat.zero_add] at hfrom
    exact ⟨hfrom, by rw [compact, hfrom, Option.map_some]⟩
  -- the cursor and the offsets of the accounts together drop with every pass that changes something
  induction hn : p.storage.cursor + p.offsets using Nat.strongRecOn generalizing p with
  | ind n ih =>
    subst hn
    intro r
    have hcursor := reclaimed_add_cursor h
    by_cases hchanged : p.defragment.1.changed
    · obtain ⟨passes, reclaimed, q, hall, hq, hrest⟩ :=
        ih _ (measure_lt h hchanged) ((executed h).spacePartition h) rfl (r + p.defragment.1.reclaimed)
      refine ⟨passes + 1, p.defragment.1.reclaimed + reclaimed, q, fun fuel hfuel => ?_, by omega, hrest⟩
      obtain ⟨fuel, rfl⟩ := Nat.exists_eq_add_of_le hfuel
      rw [Nat.add_right_comm, compactFrom, if_pos hchanged, hall _ (Nat.le_add_right _ _), Nat.add_assoc]
    · obtain ⟨hfix, -⟩ := fixpoint_of_not_changed hchanged
      refine ⟨1, 0, p, fun fuel hfuel => ?_, Nat.zero_add _, h, hchanged⟩
      obtain ⟨fuel, rfl⟩ := Nat.exists_eq_add_of_le hfuel
      rw [Nat.add_comm, compactFrom, if_neg hchanged, hfix]

end PersistedStore

/-! ### Whole runs -/

namespace AccountsDb

variable {db : AccountsDb}

theorem relocated_defragment (h : db.WellFormed) (ht : db.persisted.Tight) :
    Relocated db { db with persisted := db.persisted.defragment.2 } := by
  have hp := ht.spacePartition h.persisted
  have e := PersistedStore.executed hp
  refine ⟨⟨fun key data' hk' => ?_, e.exact, (e.spacePartition hp).tiling.toLayout, fun key data' s' hk' hs' => ?_⟩, rfl,
    e.find_eq⟩
  · rw [e.accounts] at hk'
    obtain ⟨data, hk, rfl⟩ := Option.map_eq_some_iff.mp hk'
    obtain ⟨s, hs, hrest⟩ := h.persisted.indexed key data hk
    exact ⟨s, by rw [e.mem key data hk, hs], hrest⟩
  · rw [e.accounts] at hk'
    obtain ⟨data, hk, rfl⟩ := Option.map_eq_some_iff.mp hk'
    rw [e.mem key data hk] at hs'
    exact h.persisted.fits key data s' hk hs'

/-- States of a database that is only used successfully. The entries of a batch have distinct keys and are views of
their own keys, current when the batch is stored, or accounts on the heap; or they are built accounts, whose keys may be
named more than once. Accounts may be changed without being stored at any time. -/
inductive Run : AccountsDb → Prop where
  | new (b : Backend) : Run (AccountsDb.new b)
  | change {db : AccountsDb} (h : Run db) {m : Memory} (hm : ShadowOnly db.mem m) :
      Run { db with persisted.mem := m }
  | store {db : AccountsDb} (h : Run db) (b : Backend) (hblock : 0 < b.storageBlock) (entries : List AccountEntry)
      (hprepared : ∀ entry ∈ entries, Prepared db.persisted entry) (hnodup : (entries.map Prod.fst).Nodup)
      (hok : (db.store b entries).1 = .ok ()) : Run (db.store b entries).2
  | build {db : AccountsDb} (h : Run db) (b : Backend) (hblock : 0 < b.storageBlock)
      (accounts : List (Pubkey × OwnedAccount)) (hrejects : ∀ entry ∈ accounts, VolatileStore.Rejects entry.2)
      (hok : (db.store b (builtEntries accounts)).1 = .ok ()) : Run (db.store b (builtEntries accounts)).2
  | reset {db : AccountsDb} (h : Run db) : Run db.reset
  | reopen {db : AccountsDb} (h : Run db) (dumped : Bool) : Run (db.reopen dumped)
  | defragment {db : AccountsDb} (h : Run db) : Run { db with persisted := db.persisted.defragment.2 }
  | compact {db : AccountsDb} (h : Run db) {fuel : Nat} {q : PersistedStore}
      (hq : db.persisted.compact fuel = some q) : Run { db with persisted := q }

def Sound (db : AccountsDb) : Prop := db.WellFormed ∧ db.persisted.Tight

private theorem Sound.store {b : Backend} {entries : List AccountEntry} (h : db.Sound) (hblock : 0 < b.storageBlock)
    (hprepared : ∀ entry ∈ entries, Prepared db.persisted entry) (hnodup : (entries.map Prod.fst).Nodup)
    (hok : (db.store b entries).1 = .ok ()) : (db.store b entries).2.Sound := by
  refine ⟨(store_eq_ok h.1 hprepared hnodup hok).wellFormed, ?_⟩
  unfold AccountsDb.store at hok ⊢
  cases hupsert : db.persisted.upsert b (entries.filter (AccountEntry.isPersisted db.mem)) with
  | mk result q =>
    cases result with
    | error e => rw [hupsert] at hok; cases hok
    | ok u =>
      exact h.2.upsert h.1.persisted hblock (fun e he => hprepared e (List.mem_of_mem_filter he))
        (nodup_filter hnodup _) hupsert

private theorem Sound.build {b : Backend} {accounts : List (Pubkey × OwnedAccount)} (h : db.Sound)
    (hblock : 0 < b.storageBlock) (hrejects : ∀ entry ∈ accounts, VolatileStore.Rejects entry.2)
    (hok : (db.store b (builtEntries accounts)).1 = .ok ()) : (db.store b (builtEntries accounts)).2.Sound := by
  obtain ⟨hbuilt, htight⟩ := store_built (I := PersistedStore.Tight)
    (fun _ _ _ _ hwf happlied h => h.applied hwf hblock happlied) h.2 h.1.persisted hrejects (Prod.ext hok rfl)
  exact ⟨hbuilt.wellFormed h.1, htight⟩

theorem Sound.defragment (h : db.Sound) : Sound { db with persisted := db.persisted.defragment.2 } := by
  have hp := h.2.spacePartition h.1.persisted
  exact ⟨h.1.relocated (relocated_defragment h.1 h.2), ((PersistedStore.executed hp).spacePartition hp).toTight⟩

private theorem Sound.compact (h : db.Sound) {fuel : Nat} {q : PersistedStore} (hq : db.persisted.compact fuel = some q) :
    Sound { db with persisted := q } :=
  PersistedStore.compact_induction (motive := fun q => Sound { db with persisted := q }) (fun _ hp => hp.defragment) h hq

theorem Run.sound (h : Run db) : db.Sound := by
  induction h with
  | new b =>
    refine ⟨.new b, List.nodup_nil, List.nodup_nil, ⟨(WellFormed.new b).persisted.layout, ?_⟩, ?_⟩
    · exact fun u hu => absurd hu (Nat.not_lt_zero u)
    · simp [AccountsDb.new, MappedStorage.new, MappedStorage.bytes]
  | @change db _ m hm ih =>
    have hheld := @PersistedStore.held_congr db.persisted { db.persisted with mem := m } (fun _ => rfl)
      (fun _ => Iff.rfl) hm.units
    exact ⟨ih.1.shadowOnly hm, ih.2.programs_nodup, ih.2.freelist_nodup, hheld ▸ ih.2.tiling, ih.2.mapped⟩
  | store _ b hblock entries hprepared hnodup hok ih => exact ih.store hblock hprepared hnodup hok
  | build _ b hblock accounts hrejects hok ih => exact ih.build hblock hrejects hok
  | reset _ ih => exact ⟨⟨ih.1.persisted, fun key a hk => by cases hk⟩, ih.2⟩
  | reopen _ dumped ih =>
    refine ⟨⟨ih.1.persisted, fun key a hk => ?_⟩, ih.2⟩
    cases dumped with
    | true => exact ih.1.exclusive key a hk
    | false => cases hk
  | defragment _ ih => exact ih.defragment
  | compact _ hq ih => exact ih.compact hq

theorem Run.storeBatch (h : Run db) {b : Backend} (hblock : 0 < b.storageBlock) {batch : List (Pubkey × List AccountOp)}
    (hnodup : (batch.map Prod.fst).Nodup) (hok : (db.storeBatch b batch).1 = .ok ()) : Run (db.storeBatch b batch).2 := by
  obtain ⟨m, hdb, hshadow, -, hkeys, hprepared⟩ := prepare_spec h.sound.1 hnodup
  unfold AccountsDb.storeBatch at hok ⊢
  rw [hdb] at hok ⊢
  exact .store (h.change hshadow) b hblock _ hprepared (hkeys ▸ hnodup) hok

def fragmentedDb : AccountsDb :=
  let db := ((AccountsDb.new .release).storeBatch .release
    [(⟨1⟩, [.setLifecycle .magic 1]), (⟨2⟩, [.setLifecycle .magic 1])]).2
  (db.storeBatch .release [(⟨1⟩, [.setLifecycle .closed 1])]).2

theorem fragmentedDb_run : Run fragmentedDb :=
  .storeBatch (.storeBatch (.new .release) (by decide) (by decide) rfl) (by decide) (by decide) rfl

/-- In every state of a run the accounts and the freelist partition the units below the cursor, every indexed offset
holds the span of its key, the programs table lists each account once under its owner, and the cursor is mapped. -/
theorem space_partition (h : Run db) : db.persisted.SpacePartition := h.sound.2.spacePartition h.sound.1.persisted

theorem space_partition_fragmented : fragmentedDb.persisted.SpacePartition ∧
    fragmentedDb.persisted.index.freelist = [(21, 0)] ∧ fragmentedDb.persisted.storage.cursor = 42 :=
  ⟨space_partition fragmentedDb_run, by decide, by decide⟩

/-- The second account moves to the front, and the file is cut behind it. -/
theorem defragment_fragmented :
    fragmentedDb.persisted.SpacePartition ∧ fragmentedDb.persisted.plan.moves = [⟨21, 0, 21⟩] ∧
      fragmentedDb.persisted.defragment.2.storage.cursor = 21 ∧
      ∀ key, fragmentedDb.persisted.defragment.2.find key = fragmentedDb.persisted.find key := by
  have h := fragmentedDb_run.sound.2.spacePartition fragmentedDb_run.sound.1.persisted
  exact ⟨h, by decide +kernel, by decide +kernel, (PersistedStore.defragment_preserves h).1⟩

/-- Two passes are enough here: the first one reclaims the span of the closed account. -/
theorem compact_fixpoint_fragmented : fragmentedDb.persisted.SpacePartition ∧
    (∃ passes reclaimed q, fragmentedDb.persisted.compactFrom 0 passes = some (reclaimed, q) ∧
      reclaimed + q.storage.cursor = 42 ∧ q.plan.moves = []) ∧
    (fragmentedDb.persisted.compactFrom 0 2).map (fun x => (x.1, x.2.storage.cursor)) = some (21, 21) := by
  have h := fragmentedDb_run.sound.2.spacePartition fragmentedDb_run.sound.1.persisted
  obtain ⟨passes, reclaimed, q, hall, hcursor, -, hmoves, -⟩ := PersistedStore.compact_fixpoint h
  exact ⟨h, ⟨passes, reclaimed, q, (hall passes le_rfl).1, hcursor, hmoves⟩, by decide +kernel⟩

end AccountsDb

end MagicEngine
