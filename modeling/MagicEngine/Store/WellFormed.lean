import MagicEngine.Store.AccountsDb

/-!
# Well-formed stores

The invariant of the persisted store between the entries of a batch: every indexed offset holds the span of its key,
with an active image in a persistent mode and the owner the index records; the programs table lists exactly the
indexed accounts; and the spans of the accounts and of the freelist are apart and end below the cursor.

The three ways an entry changes the store keep it: an account is released (`WellFormed.release`), its image is
published (`WellFormed.publish`), or it is placed in a span it was granted (`WellFormed.place`).
-/

namespace MagicEngine

open Regions

/-! ### The index -/

namespace Index

variable {index : Index} {key key' : Pubkey} {data : OwnerAndOffset}

/-- The programs table lists exactly the indexed accounts. -/
def Exact (index : Index) : Prop :=
  ∀ owner offset, (owner, offset) ∈ index.programs ↔ ∃ key, index.accounts.lookup key = some ⟨owner, offset⟩

def Distinct (index : Index) : Prop :=
  ∀ k k' d d', index.accounts.lookup k = some d → index.accounts.lookup k' = some d' → d.offset = d'.offset → k = k'

theorem lookup_insert : (index.insert key data).accounts.lookup key' =
    if key' = key then some data else index.accounts.lookup key' := by
  unfold insert
  split
  · next h => rw [h, Finmap.lookup_insert]
  · next h => exact Finmap.lookup_insert_of_ne _ h

theorem lookup_delete : (index.delete key).2.accounts.lookup key' =
    if key' = key then none else index.accounts.lookup key' := by
  unfold delete
  split
  · next hnone =>
    split
    · next h => rw [h, hnone]
    · rfl
  · split
    · next h => rw [h, Finmap.lookup_erase]
    · next h => exact Finmap.lookup_erase_ne h

theorem fst_delete : (index.delete key).1 = (index.accounts.lookup key).map (·.offset) := by
  unfold delete
  cases index.accounts.lookup key <;> rfl

@[simp]
theorem freelist_insert : (index.insert key data).freelist = index.freelist := rfl

@[simp]
theorem freelist_delete : (index.delete key).2.freelist = index.freelist := by
  unfold delete
  split <;> rfl

variable {new : KeyTail}

@[simp]
theorem freelist_updateOwner : (index.updateOwner key new).freelist = index.freelist := by
  unfold updateOwner
  split <;> rfl

theorem accounts_insert (index : Index) (key : Pubkey) (data : OwnerAndOffset) :
    index.accounts.insert key data = (index.accounts.erase key).insert key data := by
  refine Finmap.ext_lookup fun k => ?_
  by_cases hk : k = key
  · rw [hk, Finmap.lookup_insert, Finmap.lookup_insert]
  · rw [Finmap.lookup_insert_of_ne _ hk, Finmap.lookup_insert_of_ne _ hk, Finmap.lookup_erase_ne hk]

/-- A change of owner is a removal and an insertion at the same offset. -/
theorem updateOwner_eq (h : index.accounts.lookup key = some data) :
    index.updateOwner key new = (index.delete key).2.insert key ⟨new, data.offset⟩ := by
  simp only [updateOwner, delete, insert, h, index.accounts_insert key ⟨new, data.offset⟩]

theorem Exact.delete (h : index.Exact) (hd : index.Distinct) : (index.delete key).2.Exact := by
  intro owner offset
  simp only [lookup_delete]
  unfold Index.delete
  split
  · next hnone =>
    rw [h owner offset]
    refine exists_congr fun k => ?_
    split
    · next hk =>
      subst hk
      rw [hnone]
    · rfl
  · next data hdata =>
    rw [DupTable.mem_delete, h owner offset]
    constructor
    · rintro ⟨⟨k, hk⟩, hne⟩
      refine ⟨k, ?_⟩
      have hkne : k ≠ key := by
        rintro rfl
        cases hdata.symm.trans hk
        exact hne rfl
      rw [if_neg hkne]
      exact hk
    · rintro ⟨k, hk⟩
      split at hk
      · cases hk
      · next hkne =>
        refine ⟨⟨k, hk⟩, fun heq => hkne (hd k key _ _ hk hdata ?_)⟩
        exact congrArg Prod.snd heq

theorem Exact.insert (h : index.Exact) (hfresh : index.accounts.lookup key = none) : (index.insert key data).Exact := by
  intro owner offset
  simp only [lookup_insert]
  rw [Index.insert, DupTable.mem_put, h owner offset]
  constructor
  · rintro (heq | ⟨k, hk⟩)
    · exact ⟨key, by simp_all⟩
    · have hkne : k ≠ key := by
        rintro rfl
        rw [hfresh] at hk
        cases hk
      exact ⟨k, by rw [if_neg hkne]; exact hk⟩
  · rintro ⟨k, hk⟩
    split at hk
    · cases hk
      exact .inl rfl
    · exact .inr ⟨k, hk⟩

end Index

/-! ### The store -/

/-- Who holds a region of the mapped file: an account, or an entry of the freelist. -/
abbrev Holder := Pubkey ⊕ (Nat × Nat)

namespace PersistedStore

def held (p : PersistedStore) : Holder → Option Region
  | .inl key => (p.index.accounts.lookup key).map fun data => ⟨data.offset, p.mem.span data.offset⟩
  | .inr (units, offset) => if (units, offset) ∈ p.index.freelist then some ⟨offset, units⟩ else none

structure WellFormed (p : PersistedStore) : Prop where
  indexed : ∀ key data, p.index.accounts.lookup key = some data → ∃ s, p.mem data.offset = some s ∧ s.pubkey = key ∧
    s.active.core.mode.requiresPersistence ∧ s.active.core.owner.tail = data.owner
  exact : p.index.Exact
  layout : Layout p.held p.storage.cursor
  fits : ∀ key data s, p.index.accounts.lookup key = some data → p.mem data.offset = some s → s.active.Fits

variable {p : PersistedStore} {key key' : Pubkey} {data data' : OwnerAndOffset} {s : Span} {o : Nat}

theorem held_account (h : p.index.accounts.lookup key = some data) (hs : p.mem data.offset = some s) :
    p.held (.inl key) = some ⟨data.offset, s.units⟩ := by
  simp [held, h, Memory.span, hs]

theorem held_free {units : Nat} (h : (units, o) ∈ p.index.freelist) : p.held (.inr (units, o)) = some ⟨o, units⟩ := by
  simp [held, h]

variable {r : Region}

theorem mem_of_held_free {f : Nat × Nat} (h : p.held (.inr f) = some r) :
    f ∈ p.index.freelist ∧ r = ⟨f.2, f.1⟩ := by
  obtain ⟨units, o⟩ := f
  simp only [held] at h
  split at h
  · next hmem => exact ⟨hmem, (Option.some.inj h).symm⟩
  · cases h

variable {q : PersistedStore}

theorem held_congr_of_indexed
    (haccounts : ∀ k, (q.index.accounts.lookup k).map (·.offset) = (p.index.accounts.lookup k).map (·.offset))
    (hfreelist : ∀ f, f ∈ q.index.freelist ↔ f ∈ p.index.freelist)
    (hspan : ∀ k d, p.index.accounts.lookup k = some d → q.mem.span d.offset = p.mem.span d.offset) :
    q.held = p.held := by
  have hinl : ∀ (r : PersistedStore) k,
      r.held (.inl k) = ((r.index.accounts.lookup k).map (·.offset)).map fun o => ⟨o, r.mem.span o⟩ := by
    intro r k
    simp [held, Function.comp_def]
  funext i
  cases i with
  | inl k =>
    rw [hinl, hinl, haccounts]
    cases hk : p.index.accounts.lookup k with
    | none => rfl
    | some d => simp [hspan k d hk]
  | inr f => simp [held, hfreelist]

theorem held_congr
    (haccounts : ∀ k, (q.index.accounts.lookup k).map (·.offset) = (p.index.accounts.lookup k).map (·.offset))
    (hfreelist : ∀ f, f ∈ q.index.freelist ↔ f ∈ p.index.freelist) (hspan : ∀ o, q.mem.span o = p.mem.span o) :
    q.held = p.held :=
  held_congr_of_indexed haccounts hfreelist fun _ d _ => hspan d.offset

/-- Every indexed offset holds the span of its key, and what is held is laid out without overlaps. -/
structure Mapped (p : PersistedStore) : Prop where
  indexed : ∀ key data, p.index.accounts.lookup key = some data → ∃ s, p.mem data.offset = some s ∧ s.pubkey = key
  layout : Layout p.held p.storage.cursor

/-- The account of the key, if there is one, shows a persistent mode. -/
def Persists (p : PersistedStore) (key : Pubkey) : Prop :=
  ∀ data s, p.index.accounts.lookup key = some data → p.mem data.offset = some s →
    s.active.core.mode.requiresPersistence

theorem Mapped.distinct (h : p.Mapped) : p.index.Distinct := by
  intro k k' d d' hk hk' ho
  obtain ⟨s, hs, -⟩ := h.indexed k d hk
  obtain ⟨s', hs', -⟩ := h.indexed k' d' hk'
  exact Sum.inl.inj (h.layout.eq_of_start_eq (held_account hk hs) (held_account hk' hs') ho)

namespace WellFormed

theorem mapped (h : p.WellFormed) : p.Mapped where
  indexed key data hk := by
    obtain ⟨s, hs, hpubkey, -⟩ := h.indexed key data hk
    exact ⟨s, hs, hpubkey⟩
  layout := h.layout

theorem persists (h : p.WellFormed) (key : Pubkey) : p.Persists key := by
  intro data s hk hs
  obtain ⟨s', hs', -, hmode, -⟩ := h.indexed key data hk
  cases hs.symm.trans hs'
  exact hmode

theorem distinct (h : p.WellFormed) : p.index.Distinct := h.mapped.distinct

end WellFormed

/-! ### Releasing an account -/

theorem lookup_release : (p.release key).index.accounts.lookup key' =
    if key' = key then none else p.index.accounts.lookup key' := by
  rw [← Index.lookup_delete]
  unfold release
  split
  · next index heq =>
    have hfst := @Index.fst_delete p.index key
    have hnone : p.index.accounts.lookup key = none := by simpa [heq] using hfst
    simp [Index.delete, hnone]
  · next offset index heq => simp [free, heq]

@[simp]
theorem mem_release : (p.release key).mem = p.mem := by
  unfold release
  split <;> rfl

@[simp]
theorem storage_release : (p.release key).storage = p.storage := by
  unfold release
  split <;> rfl

theorem release_of_none (h : p.index.accounts.lookup key = none) : p.release key = p := by
  simp [release, Index.delete, h]

theorem release_of_some (h : p.index.accounts.lookup key = some data) :
    p.release key = free data.offset { p with index := (p.index.delete key).2 } := by
  simp [release, Index.delete, h]

theorem mem_freelist_release {units : Nat} (h : p.index.accounts.lookup key = some data) :
    (units, o) ∈ (p.release key).index.freelist ↔
      (units, o) = (p.mem.span data.offset, data.offset) ∨ (units, o) ∈ p.index.freelist := by
  rw [release_of_some h, free, DupTable.mem_put, Index.freelist_delete]

theorem mem_freelist_release_of_mem {f : Nat × Nat} (h : f ∈ p.index.freelist) :
    f ∈ (p.release key).index.freelist := by
  cases hk : p.index.accounts.lookup key with
  | none => rwa [release_of_none hk]
  | some data => exact (mem_freelist_release hk).mpr (.inr h)

private theorem held_release (h : p.index.accounts.lookup key = some data) {i : Holder}
    (hi : (p.release key).held i = some r) : i ≠ .inl key ∧
      p.held (if i = .inr (p.mem.span data.offset, data.offset) then .inl key else i) = some r := by
  cases i with
  | inl k =>
    simp only [held, lookup_release, mem_release] at hi
    split at hi
    · cases hi
    · next hk => exact ⟨fun heq => hk (Sum.inl.inj heq), by simpa [held] using hi⟩
  | inr free =>
    obtain ⟨hmem, rfl⟩ := mem_of_held_free hi
    refine ⟨nofun, ?_⟩
    split
    · next heq =>
      cases heq
      simp [held, h]
    · next hne =>
      exact held_free (((mem_freelist_release h).mp hmem).resolve_left fun heq => hne (congrArg Sum.inr heq))

theorem layout_release (h : Layout p.held p.storage.cursor) : Layout (p.release key).held p.storage.cursor := by
  cases hk : p.index.accounts.lookup key with
  | none => rwa [release_of_none hk]
  | some data =>
    refine h.transfer (fun i => if i = .inr (p.mem.span data.offset, data.offset) then .inl key else i)
      (fun i a hi => (held_release hk hi).2) ?_
    intro i j a b hi hj hne
    have hi' := (held_release hk hi).1
    have hj' := (held_release hk hj).1
    split <;> split
    · next h₁ h₂ => exact absurd (h₁.trans h₂.symm) hne
    · exact Ne.symm hj'
    · exact hi'
    · exact hne

theorem WellFormed.release (h : p.WellFormed) : (p.release key).WellFormed where
  indexed k d hk := by
    rw [lookup_release] at hk
    split at hk
    · cases hk
    · simpa using h.indexed k d hk
  exact := by
    cases hk : p.index.accounts.lookup key with
    | none => rw [release_of_none hk]; exact h.exact
    | some data => rw [release_of_some hk]; exact h.exact.delete h.distinct
  layout := by
    rw [storage_release]
    exact layout_release h.layout
  fits k d s hk hs := by
    rw [lookup_release] at hk
    split at hk
    · cases hk
    · exact h.fits k d s hk (by simpa using hs)

/-! ### Publishing an image -/

theorem WellFormed.mem_congr (h : p.WellFormed) {m : Memory} (hspan : ∀ o, m.span o = p.mem.span o)
    (hmem : ∀ k d, p.index.accounts.lookup k = some d → m d.offset = p.mem d.offset) :
    WellFormed { p with mem := m } where
  indexed k d hk := by simpa [hmem k d hk] using h.indexed k d hk
  exact := h.exact
  layout := by
    have hheld := @held_congr p { p with mem := m } (fun _ => rfl) (fun _ => Iff.rfl) hspan
    exact hheld ▸ h.layout
  fits k d s hk hs := h.fits k d s hk ((hmem k d hk).symm.trans hs)

/-- An account shows another image in its span, and the index records the owner in that image. -/
theorem WellFormed.publish (h : p.WellFormed) {index : Index} {m : Memory}
    (hk : p.index.accounts.lookup key = some data) (hs : m data.offset = some s) (hpubkey : s.pubkey = key)
    (hmode : s.active.core.mode.requiresPersistence) (hfits : s.active.Fits)
    (hindex : ∀ k, index.accounts.lookup k =
      if k = key then some ⟨s.active.core.owner.tail, data.offset⟩ else p.index.accounts.lookup k)
    (hexact : index.Exact) (hfreelist : index.freelist = p.index.freelist)
    (hspan : ∀ o, m.span o = p.mem.span o)
    (hmem : ∀ k d, k ≠ key → p.index.accounts.lookup k = some d → m d.offset = p.mem d.offset) :
    WellFormed { p with index, mem := m } where
  indexed k d hkd := by
    rw [hindex] at hkd
    split at hkd
    · next heq =>
      cases hkd
      exact ⟨s, hs, hpubkey.trans heq.symm, hmode, rfl⟩
    · next hne => simpa [hmem k d hne hkd] using h.indexed k d hkd
  exact := hexact
  layout := by
    have hheld : held { p with index, mem := m } = p.held := by
      refine held_congr (fun k => ?_) (fun f => by rw [hfreelist]) hspan
      show (index.accounts.lookup k).map _ = _
      rw [hindex]
      split
      · next heq => rw [heq, hk]; rfl
      · rfl
    rw [hheld]
    exact h.layout
  fits k d s' hkd hs' := by
    rw [hindex] at hkd
    split at hkd
    · cases hkd
      cases hs.symm.trans hs'
      exact hfits
    · next hne => exact h.fits k d s' hkd ((hmem k d hne hkd).symm.trans hs')

/-! ### Placing an account -/

/-- The store with the span at `offset` counted as free. -/
def reserving (units offset : Nat) (p : PersistedStore) : PersistedStore :=
  { p with index.freelist := p.index.freelist.put offsetRank units offset }

/-- The span at `offset` belongs to nobody, and to no freelist entry either. -/
structure Granted (units offset : Nat) (p : PersistedStore) : Prop where
  layout : Layout (p.reserving units offset).held p.storage.cursor
  fresh : (units, offset) ∉ p.index.freelist

namespace Granted

variable {units offset : Nat}

theorem held_reserving (h : Granted units offset p) {i : Holder} (hi : p.held i = some r) :
    i ≠ .inr (units, offset) ∧ (p.reserving units offset).held i = some r := by
  cases i with
  | inl k => exact ⟨nofun, hi⟩
  | inr f =>
    obtain ⟨hmem, rfl⟩ := mem_of_held_free hi
    exact ⟨fun heq => h.fresh (Sum.inr.inj heq ▸ hmem), held_free (DupTable.mem_put.mpr (.inr hmem))⟩

theorem held_self : (p.reserving units offset).held (.inr (units, offset)) = some ⟨offset, units⟩ :=
  held_free (DupTable.mem_put.mpr (.inl rfl))

/-- A write into the granted span leaves the records of all holders alone. -/
theorem write_other (h : Granted units offset p) {i : Holder} {new : Span} (hnew : new.units = units)
    (hi : p.held i = some ⟨o, s.units⟩) (hs : p.mem o = some s) : p.mem.write Span.units offset new o = some s := by
  obtain ⟨hne, hi'⟩ := h.held_reserving hi
  refine h.layout.write_other ?_ hi' (Ne.symm hne) hs
  rw [hnew]
  exact held_self

theorem start_ne (h : Granted units offset p) {i : Holder} (hi : p.held i = some r) : r.start ≠ offset := by
  obtain ⟨hne, hi'⟩ := h.held_reserving hi
  exact h.layout.start_ne hi' held_self hne

theorem layout_self (h : Granted units offset p) : Layout p.held p.storage.cursor :=
  h.layout.transfer id (fun _ _ hi => (h.held_reserving hi).2) fun _ _ _ _ _ _ hne => hne

end Granted

variable {acc : OwnedAccount} {offset : Nat}

theorem lookup_place : (p.place key acc offset).index.accounts.lookup key' =
    if key' = key then some ⟨acc.core.owner.tail, offset⟩ else p.index.accounts.lookup key' := by
  rw [place, Index.lookup_insert]
  split
  · rfl
  · next hne => rw [lookup_release, if_neg hne]

theorem freelist_place : (p.place key acc offset).index.freelist = (p.release key).index.freelist := rfl

theorem mem_place : (p.place key acc offset).mem = p.mem.serialize offset key acc := by
  simp [place]

theorem mem_place_self : (p.place key acc offset).mem offset = some (p.mem.fresh offset key acc) := by
  rw [mem_place, Memory.serialize, Heap.write_self]

theorem mem_place_of_held (hg : Granted acc.units offset p) {i : Holder} (hi : p.held i = some ⟨o, s.units⟩)
    (hs : p.mem o = some s) : (p.place key acc offset).mem o = some s := by
  rw [mem_place, Memory.serialize]
  exact hg.write_other rfl hi hs

private theorem not_free_place (h : p.Mapped) (hg : Granted acc.units offset p) :
    (acc.units, offset) ∉ (p.release key).index.freelist := by
  intro hmem
  cases hk : p.index.accounts.lookup key with
  | none =>
    rw [release_of_none hk] at hmem
    exact hg.fresh hmem
  | some data =>
    rcases (mem_freelist_release hk).mp hmem with heq | hmem
    · obtain ⟨s, hs, -⟩ := h.indexed key data hk
      exact hg.start_ne (held_account hk hs) (congrArg Prod.snd heq).symm
    · exact hg.fresh hmem

private theorem held_place (h : p.Mapped) (hg : Granted acc.units offset p) {i : Holder}
    (hi : (p.place key acc offset).held i = some r) :
    ((p.reserving acc.units offset).release key).held (if i = .inl key then .inr (acc.units, offset) else i) =
      some r := by
  cases i with
  | inl k =>
    simp only [held, lookup_place] at hi
    split at hi
    · next hk =>
      have hspan : (p.place key acc offset).mem.span offset = acc.units := by
        simp [Memory.span, mem_place_self]
      rw [if_pos (congrArg Sum.inl hk)]
      simp only [Option.map_some, hspan] at hi
      rw [← hi]
      exact held_free (mem_freelist_release_of_mem (DupTable.mem_put.mpr (.inl rfl)))
    · next hk =>
      rw [if_neg fun heq => hk (Sum.inl.inj heq)]
      obtain ⟨d, hd, rfl⟩ := Option.map_eq_some_iff.mp hi
      obtain ⟨s, hs, -⟩ := h.indexed k d hd
      have hs' := @mem_place_of_held p key s d.offset acc offset hg (.inl k) (held_account hd hs) hs
      have hlookup : ((p.reserving acc.units offset).release key).index.accounts.lookup k = some d := by
        rw [lookup_release, if_neg hk]
        exact hd
      rw [held_account hlookup (by rw [mem_release]; exact hs), Memory.span, hs']
      rfl
  | inr f =>
    obtain ⟨hmem, rfl⟩ := mem_of_held_free hi
    rw [freelist_place] at hmem
    rw [if_neg nofun]
    refine held_free ?_
    cases hk : p.index.accounts.lookup key with
    | none =>
      rw [release_of_none hk] at hmem
      exact mem_freelist_release_of_mem (DupTable.mem_put.mpr (.inr hmem))
    | some data =>
      refine (@mem_freelist_release (p.reserving acc.units offset) key data f.2 f.1 hk).mpr ?_
      exact ((mem_freelist_release hk).mp hmem).imp_right fun hmem => DupTable.mem_put.mpr (.inr hmem)

theorem Mapped.place (h : p.Mapped) (hg : Granted acc.units offset p) : (p.place key acc offset).Mapped where
  indexed k d hk := by
    rw [lookup_place] at hk
    split at hk
    · next heq =>
      cases hk
      exact ⟨_, mem_place_self, heq.symm⟩
    · obtain ⟨s, hs, hpubkey⟩ := h.indexed k d hk
      exact ⟨s, mem_place_of_held hg (held_account hk hs) hs, hpubkey⟩
  layout := by
    have hstorage : (p.place key acc offset).storage = p.storage := storage_release
    rw [hstorage]
    refine (layout_release hg.layout).transfer _ (fun i r hi => held_place h hg hi) ?_
    -- two holders could only meet in the granted span, which is not free any more
    have hother : ∀ j r, (p.place key acc offset).held j = some r → .inr (acc.units, offset) ≠ j := by
      rintro j r hj rfl
      exact not_free_place h hg (mem_of_held_free hj).1
    intro i j a b hi hj hne
    split <;> split
    · next hik hjk => exact absurd (hik.trans hjk.symm) hne
    · exact hother j b hj
    · exact (hother i a hi).symm
    · exact hne

/-- An account in a persistent mode moves to a span it was granted. -/
theorem WellFormed.place (h : p.WellFormed) (hg : Granted acc.units offset p)
    (hmode : acc.core.mode.requiresPersistence) : (p.place key acc offset).WellFormed where
  indexed k d hk := by
    rw [lookup_place] at hk
    split at hk
    · next heq =>
      cases hk
      exact ⟨_, mem_place_self, heq.symm, hmode, rfl⟩
    · obtain ⟨s, hs, hrest⟩ := h.indexed k d hk
      exact ⟨s, mem_place_of_held hg (held_account hk hs) hs, hrest⟩
  exact := by
    refine h.release.exact.insert ?_
    rw [lookup_release, if_pos rfl]
  layout := (h.mapped.place hg).layout
  fits k d s hk hs := by
    rw [lookup_place] at hk
    split at hk
    · cases hk
      cases hs.symm.trans mem_place_self
      exact acc.fits_stored
    · obtain ⟨s', hs', -⟩ := h.indexed k d hk
      cases hs.symm.trans (mem_place_of_held hg (held_account hk hs') hs')
      exact h.fits k d s hk hs'

end PersistedStore

/-! ### Allocating a span -/

namespace MappedStorage

theorem allocate_eq_ok {b : Backend} {fault : Option Fault} {s s' : MappedStorage} {units offset : Nat}
    (h : s.allocate b fault units = .ok (offset, s')) : offset = s.cursor ∧ s'.cursor = s.cursor + units := by
  simp only [allocate, bind_eq_ok] at h
  obtain ⟨-, -, len, -, h⟩ := h
  cases h
  exact ⟨rfl, rfl⟩

end MappedStorage

namespace PersistedStore

variable {b : Backend} {fault : Option Fault} {units offset : Nat} {p q : PersistedStore}

/-- A span was taken out of the store `p`: only the freelist and the cursor changed, and a free span of the right
size is preferred. -/
structure Allocation (p q : PersistedStore) (units offset : Nat) : Prop where
  wf : q.WellFormed
  granted : Granted units offset q
  accounts : q.index.accounts = p.index.accounts
  mem : q.mem = p.mem
  freelist : ∀ f, f ∈ q.index.freelist ↔ f ∈ p.index.freelist ∧ f ≠ (units, offset)
  reused : ∀ o, p.index.freelist.get units = some o → o = offset
  fresh : p.index.freelist.get units = none → (units, offset) ∉ p.index.freelist

/-- The span handed out is a free one of the right size, or lies behind the cursor if there is none. -/
theorem allocate_granted (hlayout : Layout p.held p.storage.cursor) (hunits : 0 < units)
    (h : p.allocate b fault units = .ok (offset, q)) :
    Granted units offset q ∧ q.index.accounts = p.index.accounts ∧ q.index.programs = p.index.programs ∧
      q.mem = p.mem ∧ (∀ f, f ∈ q.index.freelist ↔ f ∈ p.index.freelist ∧ f ≠ (units, offset)) ∧
      p.storage.cursor ≤ q.storage.cursor ∧
      (p.index.freelist.get units = some offset ∨ p.index.freelist.get units = none ∧ offset = p.storage.cursor) := by
  unfold allocate at h
  split at h
  · next o ho =>
    cases h
    have hmem := DupTable.mem_of_get ho
    refine ⟨⟨?_, fun hf => (DupTable.mem_delete.mp hf).2 rfl⟩, rfl, rfl, rfl, fun f => DupTable.mem_delete, le_rfl,
      .inl ho⟩
    -- taking the span from the freelist and giving it back changes nothing
    have hheld := @held_congr p
      (reserving units offset { p with index.freelist := p.index.freelist.delete units offset })
      (fun _ => rfl) (fun f => by by_cases hf : f = (units, offset) <;> simp [reserving, hf, hmem]) fun _ => rfl
    exact hheld ▸ hlayout
  · next hnone =>
    split at h
    · next o storage hstorage =>
      cases h
      obtain ⟨rfl, hcursor⟩ := MappedStorage.allocate_eq_ok hstorage
      have hfresh : (units, p.storage.cursor) ∉ p.index.freelist := by
        intro hf
        have := hlayout.below _ _ (held_free hf)
        simp only at this
        omega
      refine ⟨⟨?_, hfresh⟩, rfl, rfl, rfl, fun f => ⟨fun hf => ⟨hf, fun heq => hfresh (heq ▸ hf)⟩, And.left⟩, ?_,
        .inr ⟨hnone, rfl⟩⟩
      · show Layout _ storage.cursor
        rw [hcursor]
        refine hlayout.extend (i := .inr (units, p.storage.cursor)) hunits fun j => ?_
        cases j with
        | inl k => simp [held, reserving]
        | inr f =>
          by_cases hf : f = (units, p.storage.cursor) <;> simp [held, reserving, hf]
      · show p.storage.cursor ≤ storage.cursor
        omega
    · cases h

theorem allocate_eq_ok (hwf : p.WellFormed) (hunits : 0 < units) (h : p.allocate b fault units = .ok (offset, q)) :
    Allocation p q units offset := by
  obtain ⟨hgranted, haccounts, hprograms, hmem, hfreelist, -, htaken⟩ := allocate_granted hwf.layout hunits h
  have hexact : q.index.Exact := by
    intro owner o
    rw [hprograms, haccounts]
    exact hwf.exact owner o
  refine ⟨⟨fun key data hk => ?_, hexact, hgranted.layout_self, fun key data s hk hs => ?_⟩, hgranted, haccounts, hmem,
    hfreelist, ?_, ?_⟩
  · rw [hmem]
    exact hwf.indexed key data (haccounts ▸ hk)
  · exact hwf.fits key data s (haccounts ▸ hk) (hmem ▸ hs)
  · rintro o ho
    rcases htaken with htaken | ⟨hnone, -⟩
    · exact Option.some.inj (ho.symm.trans htaken)
    · rw [hnone] at ho
      cases ho
  · intro hnone hf
    rcases htaken with htaken | ⟨-, rfl⟩
    · rw [hnone] at htaken
      cases htaken
    · have := hwf.layout.below _ _ (held_free hf)
      simp only at this
      omega

end PersistedStore

end MagicEngine
