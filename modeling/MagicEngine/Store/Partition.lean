import MagicEngine.Store.Batch

/-!
# The space partition

The spans of the indexed accounts and of the freelist tile the mapped file up to the cursor: no two overlap and no
unit between zero and the cursor is lost. A batch keeps this, since a span only ever moves between an account, the
freelist and the allocation of an entry, and the cursor advances over exactly what an entry takes.
-/

namespace MagicEngine

open Regions

namespace PersistedStore

/-- Every unit below the cursor is accounted for, the tables list nothing twice, and the file is long enough. -/
structure Tight (p : PersistedStore) : Prop where
  programs_nodup : p.index.programs.Nodup
  freelist_nodup : p.index.freelist.Nodup
  tiling : Tiling p.held p.storage.cursor
  mapped : MappedStorage.bytes p.storage.cursor ≤ p.storage.len

/-- The whole partition: every indexed offset holds the span of its key, and the programs table lists exactly the
indexed accounts, under the owner in the active image. -/
structure SpacePartition (p : PersistedStore) : Prop extends Tight p where
  indexed : ∀ key data, p.index.accounts.lookup key = some data → ∃ s, p.mem data.offset = some s ∧ s.pubkey = key ∧
    s.active.core.owner.tail = data.owner
  programs : p.index.Exact

theorem Tight.spacePartition {p : PersistedStore} (h : p.Tight) (hwf : p.WellFormed) : p.SpacePartition where
  toTight := h
  indexed key data hk := by
    obtain ⟨s, hs, hpubkey, -, howner⟩ := hwf.indexed key data hk
    exact ⟨s, hs, hpubkey, howner⟩
  programs := hwf.exact

variable {b : Backend} {fault : Option Fault} {p q : PersistedStore} {key : Pubkey} {units offset : Nat}

/-! ### Tables -/

theorem programs_nodup_delete {index : Index} (h : index.programs.Nodup) : (index.delete key).2.programs.Nodup := by
  unfold Index.delete
  split
  · exact h
  · exact DupTable.nodup_delete h

theorem programs_nodup_release (h : p.index.programs.Nodup) : (p.release key).index.programs.Nodup := by
  cases hk : p.index.accounts.lookup key with
  | none => rwa [release_of_none hk]
  | some data =>
    rw [release_of_some hk]
    exact programs_nodup_delete h

theorem programs_nodup_updateOwner {index : Index} {owner : KeyTail} (h : index.programs.Nodup) :
    (index.updateOwner key owner).programs.Nodup := by
  unfold Index.updateOwner
  split
  · exact h
  · exact DupTable.nodup_put (DupTable.nodup_delete h)

theorem offset_updateOwner {index : Index} {owner : KeyTail} (k : Pubkey) :
    ((index.updateOwner key owner).accounts.lookup k).map (·.offset) = (index.accounts.lookup k).map (·.offset) := by
  unfold Index.updateOwner
  split
  · rfl
  · next data hdata =>
    by_cases hk : k = key
    · rw [hk, Finmap.lookup_insert, hdata]
      rfl
    · rw [Finmap.lookup_insert_of_ne _ hk]

/-! ### Releasing and placing -/

theorem Tight.release (h : p.Tight) : (p.release key).Tight := by
  cases hk : p.index.accounts.lookup key with
  | none => rwa [release_of_none hk]
  | some data =>
    have htiling : Tiling (p.release key).held p.storage.cursor := by
      refine h.tiling.transfer (layout_release h.tiling.toLayout) fun i a hi => ?_
      cases i with
      | inl k =>
        by_cases hkey : k = key
        · -- the span of the account is now free
          subst hkey
          refine ⟨.inr (p.mem.span data.offset, data.offset), ?_⟩
          rw [held_free ((mem_freelist_release hk).mpr (.inl rfl)), ← hi, held, hk, Option.map_some]
        · refine ⟨.inl k, ?_⟩
          rw [← hi, held, held, lookup_release, if_neg hkey, mem_release]
      | inr f =>
        obtain ⟨hf, rfl⟩ := mem_of_held_free hi
        exact ⟨.inr f, held_free (mem_freelist_release_of_mem hf)⟩
    rw [release_of_some hk] at htiling ⊢
    refine ⟨programs_nodup_delete h.programs_nodup, DupTable.nodup_put ?_, htiling, h.mapped⟩
    rw [Index.freelist_delete]
    exact h.freelist_nodup

theorem Tight.place {acc : OwnedAccount} (h : (p.reserving acc.units offset).Tight) (hfree : p.index.freelist.Nodup)
    (hwf : p.WellFormed) (hg : Granted acc.units offset p) (hmode : acc.core.mode.requiresPersistence) :
    (p.place key acc offset).Tight := by
  have hreleased := @Tight.release _ key h
  have hstorage : (p.place key acc offset).storage = p.storage := storage_release
  refine ⟨?_, ?_, ?_, by rw [hstorage]; exact h.mapped⟩
  · exact DupTable.nodup_put (programs_nodup_release h.programs_nodup)
  · rw [freelist_place]
    cases hk : p.index.accounts.lookup key with
    | none => rwa [release_of_none hk]
    | some data =>
      rw [release_of_some hk]
      refine DupTable.nodup_put ?_
      rwa [Index.freelist_delete]
  · have hlayout := (@WellFormed.place p key acc offset hwf hg hmode).layout
    have htiling := hreleased.tiling
    rw [storage_release] at htiling
    rw [hstorage] at hlayout ⊢
    refine htiling.transfer hlayout fun i a hi => ?_
    cases i with
    | inl k =>
      obtain ⟨data, hk, rfl⟩ := Option.map_eq_some_iff.mp hi
      rw [lookup_release] at hk
      split at hk
      · cases hk
      · next hne =>
        obtain ⟨s, hs, -⟩ := hwf.indexed k data hk
        have hs' := @mem_place_of_held p key s data.offset acc offset hg (.inl k) (held_account hk hs) hs
        refine ⟨.inl k, ?_⟩
        rw [held_account (by rw [lookup_place, if_neg hne]; exact hk) hs', mem_release, Memory.span,
          show (p.reserving acc.units offset).mem data.offset = some s from hs]
        rfl
    | inr f =>
      obtain ⟨hf, rfl⟩ := mem_of_held_free hi
      by_cases hgranted : f = (acc.units, offset)
      · subst hgranted
        have hheld := @held_account _ key ⟨acc.core.owner.tail, offset⟩ _
          (by rw [lookup_place, if_pos rfl]) (@mem_place_self p key acc offset)
        rw [Memory.units_fresh] at hheld
        exact ⟨.inl key, hheld⟩
      · refine ⟨.inr f, held_free ?_⟩
        rw [freelist_place]
        cases hk : p.index.accounts.lookup key with
        | none =>
          rw [release_of_none (show (p.reserving acc.units offset).index.accounts.lookup key = none from hk)] at hf
          rw [release_of_none hk]
          exact (DupTable.mem_put.mp hf).resolve_left hgranted
        | some data =>
          rw [mem_freelist_release hk]
          rcases (@mem_freelist_release (p.reserving acc.units offset) key data f.2 f.1 hk).mp hf with heq | hf
          · exact .inl heq
          · exact .inr ((DupTable.mem_put.mp hf).resolve_left hgranted)

/-! ### Allocating -/

theorem MappedStorage.mapped_allocate {s s' : MappedStorage} (hblock : 0 < b.storageBlock)
    (h : s.allocate b fault units = .ok (offset, s')) : MappedStorage.bytes s'.cursor ≤ s'.len := by
  simp only [MappedStorage.allocate, bind_eq_ok] at h
  obtain ⟨-, -, len, hlen, h⟩ := h
  cases h
  unfold MappedStorage.ensure at hlen
  split at hlen
  · simp only [MappedStorage.grow, bind_eq_ok] at hlen
    obtain ⟨-, -, -, -, hlen⟩ := hlen
    cases hlen
    have hround := Nat.lt_div_mul_add (a := MappedStorage.bytes (s.cursor + units) + b.storageBlock - 1) hblock
    dsimp only
    omega
  · cases hlen
    dsimp only
    omega

theorem Tight.allocate (h : p.Tight) (hblock : 0 < b.storageBlock) (hunits : 0 < units)
    (hq : p.allocate b fault units = .ok (offset, q)) : (q.reserving units offset).Tight ∧ q.index.freelist.Nodup := by
  unfold PersistedStore.allocate at hq
  split at hq
  · next o ho =>
    cases hq
    have hmem := DupTable.mem_of_get ho
    have hdelete := DupTable.nodup_delete (k := units) (v := offset) h.freelist_nodup
    refine ⟨⟨h.programs_nodup, DupTable.nodup_put hdelete, ?_, h.mapped⟩, hdelete⟩
    have hheld := @held_congr p
      (reserving units offset { p with index.freelist := p.index.freelist.delete units offset })
      (fun _ => rfl) (fun f => by by_cases hf : f = (units, offset) <;> simp [reserving, hf, hmem]) fun _ => rfl
    exact hheld ▸ h.tiling
  · split at hq
    · next o storage hstorage =>
      cases hq
      obtain ⟨rfl, hcursor⟩ := MappedStorage.allocate_eq_ok hstorage
      have hfresh : (units, p.storage.cursor) ∉ p.index.freelist := by
        intro hf
        have := h.tiling.below _ _ (held_free hf)
        simp only at this
        omega
      refine ⟨⟨h.programs_nodup, DupTable.nodup_put h.freelist_nodup, ?_, ?_⟩, h.freelist_nodup⟩
      · show Tiling _ storage.cursor
        rw [hcursor]
        refine h.tiling.extend (i := .inr (units, p.storage.cursor)) hunits (by simp [held, hfresh]) fun j => ?_
        cases j with
        | inl k => simp [held, reserving]
        | inr f => by_cases hf : f = (units, p.storage.cursor) <;> simp [held, reserving, hf]
      · exact MappedStorage.mapped_allocate hblock hstorage
    · cases hq

/-! ### A batch -/

theorem Tight.applied {entry : AccountEntry} (h : p.Tight) (hwf : p.WellFormed) (hblock : 0 < b.storageBlock)
    (happlied : Applied b fault entry p q) : q.Tight := by
  have hspan := p.mem.span_publishAt entry.publishes
  cases happlied with
  | released hmode hfault =>
    obtain ⟨hp, hf, ht, hm⟩ := @Tight.release p entry.1 h
    refine ⟨hp, hf, ?_, hm⟩
    have hheld := @held_congr (p.release entry.1)
      { p.release entry.1 with mem := p.mem.publishAt entry.publishes } (fun _ => rfl) (fun _ => Iff.rfl)
      (fun o => by rw [mem_release]; exact hspan o)
    exact hheld ▸ ht
  | updated view hcow hmode hfault =>
    split
    · refine ⟨programs_nodup_updateOwner h.programs_nodup, ?_, ?_, h.mapped⟩
      · rw [Index.freelist_updateOwner]
        exact h.freelist_nodup
      · have hheld := @held_congr p
          { p with
            index := p.index.updateOwner entry.1 (entry.2.image p.mem).core.owner.tail
            mem := p.mem.publishAt entry.publishes }
          offset_updateOwner (fun f => by rw [Index.freelist_updateOwner]) hspan
        exact hheld ▸ h.tiling
    · refine ⟨h.programs_nodup, h.freelist_nodup, ?_, h.mapped⟩
      have hheld := @held_congr p { p with mem := p.mem.publishAt entry.publishes } (fun _ => rfl)
        (fun _ => Iff.rfl) hspan
      exact hheld ▸ h.tiling
  | inserted acc offset q hcow hmode hfault hq =>
    have halloc := allocate_eq_ok hwf acc.units_pos hq
    obtain ⟨hreserved, hfree⟩ := h.allocate hblock acc.units_pos hq
    exact hreserved.place hfree halloc.wf halloc.granted hmode

end PersistedStore

theorem PersistedStore.Tight.upsert {b : Backend} {p q : PersistedStore} {entries : List AccountEntry} (h : p.Tight)
    (hwf : p.WellFormed) (hblock : 0 < b.storageBlock) (hprepared : ∀ entry ∈ entries, Prepared p entry)
    (hnodup : (entries.map Prod.fst).Nodup) (hok : p.upsert b entries = (.ok (), q)) : q.Tight := by
  obtain ⟨_, _, q', -, -, htight, -, hend⟩ := PersistedStore.upsert_progress (I := PersistedStore.Tight)
    (fun _ _ _ _ hwf happlied h => h.applied hwf hblock happlied) h hwf hprepared hnodup
  obtain ⟨hok', -⟩ := hend.resolve_right fun herror => herror.1 (by rw [hok])
  exact (Prod.mk.inj (hok'.symm.trans hok)).2 ▸ htight

end MagicEngine
