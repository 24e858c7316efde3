import MagicEngine.Store.Prepared

/-!
# The loop of a batch

How the persisted store changes while the entries of a prepared batch are applied. One entry releases its account,
publishes its image or places it in a newly allocated span (`Applied`); all that decides which spans are handed out
is the allocator, which sees sizes and offsets only (`Allocator`).

`BatchProgress` says where a batch stands: which accounts are still as they were, what became of the spans that were
indexed before, and which of them were reused.
-/

namespace MagicEngine

open Regions

/-! ### One entry -/

def AccountEntry.publishes (entry : AccountEntry) : Option Nat :=
  match entry.2.cow with
  | .borrowed view => if entry.2.dirty then some view.offset else none
  | .owned _ => none

def Memory.publishAt (m : Memory) : Option Nat → Memory
  | none => m
  | some o => m.modify o Span.publish

inductive Applied (b : Backend) (fault : Option Fault) (entry : AccountEntry) (p : PersistedStore) :
    PersistedStore → Prop where
  | released (hmode : (entry.2.mode p.mem).requiresPersistence = false) (hfault : fault ≠ some .index) :
      Applied b fault entry p { p.release entry.1 with mem := p.mem.publishAt entry.publishes }
  | updated (view : BorrowedAccount) (hcow : entry.2.cow = .borrowed view)
      (hmode : (entry.2.mode p.mem).requiresPersistence) (hfault : entry.2.markers.owner → fault ≠ some .index) :
      Applied b fault entry p
        { p with
          index := if entry.2.markers.owner then p.index.updateOwner entry.1 (entry.2.image p.mem).core.owner.tail
            else p.index
          mem := p.mem.publishAt entry.publishes }
  | inserted (acc : OwnedAccount) (offset : Nat) (q : PersistedStore) (hcow : entry.2.cow = .owned acc)
      (hmode : acc.core.mode.requiresPersistence) (hfault : fault ≠ some .index ∧ fault ≠ some .record)
      (hq : p.allocate b fault acc.units = .ok (offset, q)) :
      Applied b fault entry p (q.place entry.1 acc offset)

section Apply

variable {b : Backend} {fault : Option Fault} {entry : AccountEntry} {t t' : Txn} {p : PersistedStore}
  {view : BorrowedAccount}

theorem Prepared.commit (h : Prepared p entry) (hcow : entry.2.cow = .borrowed view)
    (hdirty : entry.2.dirty) : view.commit p.mem = p.mem.publishAt entry.publishes := by
  obtain ⟨data, s, -, -, hs, hv, hside⟩ := h.view view hcow
  have hshadow : view.side = !activeSide view.version := by rw [hside, hv, hdirty, Bool.bne_true]
  have hpublishes : entry.publishes = some view.offset := by simp [AccountEntry.publishes, hcow, hdirty]
  rw [hpublishes, BorrowedAccount.commit, if_neg (not_not.mpr hshadow), Memory.publishAt]
  funext o
  by_cases ho : o = view.offset
  · simp [ho, hs, hv, Span.publish]
  · rw [Heap.modify_of_ne _ _ ho, Heap.modify_of_ne _ _ ho]

/-- A persisted account that left the persistent modes has been written to. -/
theorem Prepared.dirty_of_mode (h : Prepared p entry) (hpersists : p.Persists entry.1)
    (hcow : entry.2.cow = .borrowed view) (hmode : (entry.2.mode p.mem).requiresPersistence = false) :
    entry.2.dirty := by
  obtain ⟨data, s, hk, ho, hs, -⟩ := h.view view hcow
  have hactive := hpersists data s hk (ho ▸ hs)
  by_contra hclean
  have hmarker : entry.2.markers.mode = false := by
    simp only [StoredAccount.dirty, DirtyMarkers.any, Bool.or_eq_true, not_or, Bool.not_eq_true] at hclean
    exact hclean.1.1.1.1.2
  have := (h.unmarked data s hk (ho ▸ hs)).1 hmarker
  rw [StoredAccount.mode, this, hactive] at hmode
  cases hmode

private theorem clean_markers (hclean : ¬entry.2.markers.any) : entry.2.markers.owner = false := by
  simp only [DirtyMarkers.any, Bool.or_eq_true, not_or, Bool.not_eq_true] at hclean
  exact hclean.1.1.1.1.1.1

theorem Txn.update_eq_ok (hp : Prepared t.toPersistedStore entry)
    (hcow : entry.2.cow = .borrowed view) (hmode : (entry.2.mode t.mem).requiresPersistence)
    (h : t.update fault entry.1 view entry.2.markers = .ok t') :
    Applied b fault entry t.toPersistedStore t'.toPersistedStore := by
  have happlied := @Applied.updated b fault entry t.toPersistedStore view hcow hmode
  have himage : entry.2.image t.mem = view.image t.mem := by simp [StoredAccount.image, hcow]
  simp only [Txn.update, bind_eq_ok] at h
  obtain ⟨t₁, ht₁, h⟩ := h
  cases h
  by_cases hdirty : entry.2.dirty
  · rw [← hp.commit hcow hdirty] at happlied
    rw [show entry.2.markers.any = true from hdirty]
    unfold Txn.updateOwner at ht₁
    split at ht₁
    · next howner =>
      have howner : entry.2.markers.owner = false := by simpa using howner
      cases ht₁
      rw [howner] at happlied
      exact happlied (by simp)
    · next howner =>
      have howner : entry.2.markers.owner = true := by simpa using howner
      simp only [bind_eq_ok, require_eq_ok] at ht₁
      obtain ⟨-, hfault, ht₁⟩ := ht₁
      cases ht₁
      rw [howner, himage] at happlied
      exact happlied fun _ => hfault
  · have howner := clean_markers hdirty
    have hpublishes : entry.publishes = none := by simp [AccountEntry.publishes, hcow, hdirty]
    simp only [Txn.updateOwner, howner] at ht₁
    cases ht₁
    rw [if_pos (by simpa [StoredAccount.dirty] using hdirty)]
    rw [howner, hpublishes] at happlied
    exact happlied (by simp)

/-- An account on the heap needs no preparation. -/
theorem Txn.apply_owned_eq_ok {acc : OwnedAccount} (hcow : entry.2.cow = .owned acc)
    (h : t.apply b fault entry = .ok t') : Applied b fault entry t.toPersistedStore t'.toPersistedStore := by
  unfold Txn.apply at h
  dsimp only at h
  split at h
  · next hmode =>
    have hmode : (entry.2.mode t.mem).requiresPersistence = false := by simpa using hmode
    simp only [Txn.delete, bind_eq_ok, require_eq_ok] at h
    obtain ⟨t₁, ⟨-, hfault, ht₁⟩, h⟩ := h
    cases ht₁
    have happlied := @Applied.released b fault entry t.toPersistedStore hmode hfault
    have hpublishes : entry.publishes = none := by simp [AccountEntry.publishes, hcow]
    simp only [hcow] at h
    cases h
    rw [hpublishes, Memory.publishAt, ← @PersistedStore.mem_release t.toPersistedStore entry.1] at happlied
    exact happlied
  · next hmode =>
    have hmode : (entry.2.mode t.mem).requiresPersistence := by simpa using hmode
    simp only [hcow, Txn.insert, bind_eq_ok, require_eq_ok] at h
    obtain ⟨-, hindex, ⟨offset, q⟩, hq, -, hrecord, h⟩ := h
    cases h
    have hacc : acc.core.mode.requiresPersistence := by simpa [StoredAccount.mode, StoredAccount.image, hcow] using hmode
    exact Applied.inserted acc offset q hcow hacc ⟨hindex, hrecord⟩ (mapError_eq_ok.mp hq)

theorem Txn.apply_eq_ok (hpersists : t.Persists entry.1) (hp : Prepared t.toPersistedStore entry)
    (h : t.apply b fault entry = .ok t') : Applied b fault entry t.toPersistedStore t'.toPersistedStore := by
  cases hcow : entry.2.cow with
  | owned acc => exact Txn.apply_owned_eq_ok hcow h
  | borrowed view =>
    unfold Txn.apply at h
    dsimp only at h
    split at h
    · next hmode =>
      have hmode : (entry.2.mode t.mem).requiresPersistence = false := by simpa using hmode
      simp only [Txn.delete, bind_eq_ok, require_eq_ok] at h
      obtain ⟨t₁, ⟨-, hfault, ht₁⟩, h⟩ := h
      cases ht₁
      have happlied := @Applied.released b fault entry t.toPersistedStore hmode hfault
      rw [← hp.commit hcow (hp.dirty_of_mode hpersists hcow hmode)] at happlied
      simp only [hcow] at h
      cases h
      simpa using happlied
    · next hmode =>
      have hmode : (entry.2.mode t.mem).requiresPersistence := by simpa using hmode
      simp only [hcow] at h
      exact Txn.update_eq_ok hp hcow hmode h

end Apply

/-! ### What an entry publishes -/

section Publish

variable {entry : AccountEntry} {p : PersistedStore} {key : Pubkey} {data : OwnerAndOffset} {o : Nat}

theorem Memory.publishAt_of_ne {m : Memory} {x : Option Nat} (h : x ≠ some o) : m.publishAt x o = m o := by
  cases x with
  | none => rfl
  | some o' => exact Heap.modify_of_ne m _ fun heq => h (congrArg some heq.symm)

theorem Memory.span_publishAt (m : Memory) (x : Option Nat) (o : Nat) : (m.publishAt x).span o = m.span o := by
  cases x with
  | none => rfl
  | some o' => exact Memory.span_modify Span.units_publish o

theorem Prepared.lookup_of_publishes (h : Prepared p entry) (ho : entry.publishes = some o) :
    ∃ data, p.index.accounts.lookup entry.1 = some data ∧ data.offset = o := by
  unfold AccountEntry.publishes at ho
  split at ho
  · next view hcow =>
    obtain ⟨data, s, hk, hoffset, -⟩ := h.view view hcow
    split at ho
    · exact ⟨data, hk, hoffset.trans (Option.some.inj ho)⟩
    · cases ho
  · cases ho

theorem Prepared.publishes_ne (h : Prepared p entry) (hdistinct : p.index.Distinct) (hne : key ≠ entry.1)
    (hk : p.index.accounts.lookup key = some data) : entry.publishes ≠ some data.offset := by
  intro ho
  obtain ⟨d, hd, heq⟩ := h.lookup_of_publishes ho
  exact hne (hdistinct _ _ _ _ hk hd heq.symm)

theorem Prepared.active_publishAt (h : Prepared p entry) {view : BorrowedAccount}
    (hcow : entry.2.cow = .borrowed view) (hk : p.index.accounts.lookup entry.1 = some data) :
    ∃ s s', p.mem data.offset = some s ∧ p.mem.publishAt entry.publishes data.offset = some s' ∧
      s' = (if entry.2.dirty then s.publish else s) ∧ s'.active = entry.2.image p.mem := by
  obtain ⟨d, s, hd, ho, hs, hv, hside⟩ := h.view view hcow
  cases hk.symm.trans hd
  have himage : entry.2.image p.mem = s.image view.side := by
    simp [StoredAccount.image, hcow, BorrowedAccount.image, hs]
  rw [ho, himage]
  by_cases hdirty : entry.2.dirty
  · refine ⟨s, s.publish, hs, ?_, by rw [if_pos hdirty], ?_⟩
    · simp [AccountEntry.publishes, hcow, hdirty, Memory.publishAt, hs]
    · rw [Span.active_publish, hside, hdirty, Bool.bne_true]
  · refine ⟨s, s, hs, ?_, by rw [if_neg hdirty], ?_⟩
    · simp [AccountEntry.publishes, hcow, hdirty, Memory.publishAt, hs]
    · rw [hside, Bool.eq_false_iff.mpr hdirty, Bool.bne_false]
      rfl

end Publish

/-! ### Where a batch stands -/

/-- The span of an account as the entries done so far left it. -/
def published (done : List AccountEntry) (o : Nat) (s : Span) : Span :=
  if some o ∈ done.map AccountEntry.publishes then s.publish else s

section Published

variable {done : List AccountEntry} {entry : AccountEntry} {o : Nat} {s : Span}

@[simp]
theorem units_published : (published done o s).units = s.units := by
  unfold published
  split <;> rfl

@[simp]
theorem image_published (side : Side) : (published done o s).image side = s.image side := by
  unfold published
  split <;> rfl

theorem published_of_ne (h : entry.publishes ≠ some o) : published (done ++ [entry]) o s = published done o s := by
  have hiff : some o ∈ (done ++ [entry]).map AccountEntry.publishes ↔ some o ∈ done.map AccountEntry.publishes := by
    rw [List.map_append, List.mem_append, List.map_singleton, List.mem_singleton, or_iff_left (Ne.symm h)]
  simp only [published, hiff]

end Published

/-- The account of `key` was placed in a span that was free: nothing is left of the account that was there before,
except for its image B. -/
def Taken (p q : PersistedStore) (key : Pubkey) (o : Nat) : Prop :=
  ∃ data s, q.index.accounts.lookup key = some data ∧ data.offset = o ∧ q.mem o = some s ∧ s.sequence = 0 ∧
    ∀ key' data' s', p.index.accounts.lookup key' = some data' → data'.offset = o → p.mem o = some s' →
      key' ≠ key ∧ s.imageB = s'.imageB

/-- The store `q` after the entries `done` of a batch that started at `p`, with the free spans they reused. -/
structure BatchProgress (p : PersistedStore) (done : List AccountEntry) (reused : List Nat) (q : PersistedStore) : Prop where
  start : p.WellFormed
  wf : q.WellFormed
  prepared : ∀ entry ∈ done, Prepared p entry
  untouched : ∀ key, key ∉ done.map Prod.fst → q.index.accounts.lookup key = p.index.accounts.lookup key
  kept : ∀ key data s, p.index.accounts.lookup key = some data → p.mem data.offset = some s → data.offset ∉ reused →
    q.mem data.offset = some (published done data.offset s) ∧
      ((∃ data', q.index.accounts.lookup key = some data' ∧ data'.offset = data.offset) ∨
        (s.units, data.offset) ∈ q.index.freelist)
  taken : ∀ o ∈ reused, ∃ entry ∈ done, Taken p q entry.1 o
  stored : ∀ entry ∈ done, q.find entry.1 =
    if (entry.2.mode p.mem).requiresPersistence then some (entry.2.kept p.mem) else none

namespace BatchProgress

variable {p q : PersistedStore} {done : List AccountEntry} {reused : List Nat} {entry : AccountEntry} {key : Pubkey}
  {data : OwnerAndOffset} {s : Span}

theorem init (h : p.WellFormed) : BatchProgress p [] [] p where
  start := h
  wf := h
  prepared _ he := absurd he List.not_mem_nil
  untouched _ _ := rfl
  kept _ data _ hk hs _ := ⟨hs, .inl ⟨data, hk, rfl⟩⟩
  taken _ ho := absurd ho List.not_mem_nil
  stored _ he := absurd he List.not_mem_nil

theorem not_published (h : BatchProgress p done reused q) (hnew : key ∉ done.map Prod.fst)
    (hk : p.index.accounts.lookup key = some data) : some data.offset ∉ done.map AccountEntry.publishes := by
  intro hmem
  obtain ⟨entry, hentry, ho⟩ := List.mem_map.mp hmem
  refine (h.prepared entry hentry).publishes_ne h.start.distinct ?_ hk ho
  rintro rfl
  exact hnew (List.mem_map_of_mem hentry)

theorem not_reused (h : BatchProgress p done reused q) (hnew : key ∉ done.map Prod.fst)
    (hk : p.index.accounts.lookup key = some data) : data.offset ∉ reused := by
  intro hmem
  obtain ⟨entry, hentry, d, s, hd, ho, -⟩ := h.taken _ hmem
  rw [← h.untouched key hnew] at hk
  obtain rfl := h.wf.distinct _ _ _ _ hk hd ho.symm
  exact hnew (List.mem_map_of_mem hentry)

theorem pending (h : BatchProgress p done reused q) (hnew : key ∉ done.map Prod.fst)
    (hk : p.index.accounts.lookup key = some data) : q.mem data.offset = p.mem data.offset := by
  obtain ⟨s, hs, -⟩ := h.start.indexed key data hk
  rw [(h.kept key data s hk hs (h.not_reused hnew hk)).1, published, if_neg (h.not_published hnew hk), hs]

theorem pending_prepared (h : BatchProgress p done reused q) (hnew : entry.1 ∉ done.map Prod.fst)
    (hentry : Prepared p entry) : Prepared q entry ∧ entry.2.image q.mem = entry.2.image p.mem := by
  refine hentry.transfer (h.untouched _ hnew) fun data hk => ?_
  exact h.pending hnew hk

def Frame (key : Pubkey) (q q' : PersistedStore) : Prop :=
  ∀ k, k ≠ key → q'.index.accounts.lookup k = q.index.accounts.lookup k ∧
    ∀ data, q.index.accounts.lookup k = some data → q'.mem data.offset = q.mem data.offset

section

variable (h : BatchProgress p done reused q)

include h

/-- A step adds its entry: other accounts are framed, and the entry's own is what it should be. -/
private theorem add (hnew : entry.1 ∉ done.map Prod.fst) (hentry : Prepared p entry)
    {q' : PersistedStore} {reused' : List Nat} (hwf : q'.WellFormed) (hframe : Frame entry.1 q q')
    (hkept : ∀ key data s, p.index.accounts.lookup key = some data → p.mem data.offset = some s →
      data.offset ∉ reused' → q'.mem data.offset = some (published (done ++ [entry]) data.offset s) ∧
        ((∃ data', q'.index.accounts.lookup key = some data' ∧ data'.offset = data.offset) ∨
          (s.units, data.offset) ∈ q'.index.freelist))
    (htaken : ∀ o ∈ reused', o ∈ reused ∨ Taken p q' entry.1 o)
    (hstored : q'.find entry.1 =
      if (entry.2.mode p.mem).requiresPersistence then some (entry.2.kept p.mem) else none) :
    BatchProgress p (done ++ [entry]) reused' q' where
  start := h.start
  wf := hwf
  prepared e he := by
    rcases List.mem_append.mp he with he | he
    · exact h.prepared e he
    · rw [List.mem_singleton.mp he]
      exact hentry
  untouched key hkey := by
    simp only [List.map_append, List.mem_append, List.map_cons, List.map_nil, List.mem_singleton, not_or] at hkey
    rw [(hframe key hkey.2).1]
    exact h.untouched key hkey.1
  kept := hkept
  taken o ho := by
    rcases htaken o ho with ho | ho
    · obtain ⟨e, he, data, s, hk, hoffset, hs, hrest⟩ := h.taken o ho
      have hne : e.1 ≠ entry.1 := fun heq => hnew (heq ▸ List.mem_map_of_mem he)
      obtain ⟨hlookup, hmem⟩ := hframe e.1 hne
      refine ⟨e, List.mem_append_left _ he, data, s, hlookup.trans hk, hoffset, ?_, hrest⟩
      rw [← hoffset, hmem data hk, hoffset]
      exact hs
    · exact ⟨entry, List.mem_append_right _ (List.mem_singleton.mpr rfl), ho⟩
  stored e he := by
    rcases List.mem_append.mp he with he | he
    · have hne : e.1 ≠ entry.1 := fun heq => hnew (heq ▸ List.mem_map_of_mem he)
      obtain ⟨hlookup, hmem⟩ := hframe e.1 hne
      rw [← h.stored e he, PersistedStore.find, PersistedStore.find, hlookup]
      cases hk : q.index.accounts.lookup e.1 with
      | none => rfl
      | some data => simp [hmem data hk]
    · rw [List.mem_singleton.mp he]
      exact hstored

private theorem kept_publishAt (hnew : entry.1 ∉ done.map Prod.fst)
    (hentry : Prepared p entry) (hk : p.index.accounts.lookup key = some data) (hs : p.mem data.offset = some s)
    (ho : data.offset ∉ reused) :
    q.mem.publishAt entry.publishes data.offset = some (published (done ++ [entry]) data.offset s) := by
  have hq := (h.kept key data s hk hs ho).1
  by_cases hpub : entry.publishes = some data.offset
  · -- the span of the entry's own key, which nobody published before
    have hkey : key = entry.1 := by
      by_contra hne
      exact hentry.publishes_ne h.start.distinct hne hk hpub
    rw [published, if_neg (h.not_published (hkey ▸ hnew) hk)] at hq
    simp [hpub, Memory.publishAt, hq, published]
  · rw [Memory.publishAt_of_ne hpub, hq, published_of_ne hpub]

private theorem frame_publishAt (hnew : entry.1 ∉ done.map Prod.fst)
    (hentry : Prepared p entry) (hne : key ≠ entry.1) (hk : q.index.accounts.lookup key = some data) :
    q.mem.publishAt entry.publishes data.offset = q.mem data.offset := by
  have hcurrent := (h.pending_prepared hnew hentry).1
  exact Memory.publishAt_of_ne (hcurrent.publishes_ne h.wf.distinct hne hk)

theorem released (hnew : entry.1 ∉ done.map Prod.fst) (hentry : Prepared p entry)
    (hmode : (entry.2.mode p.mem).requiresPersistence = false) :
    BatchProgress p (done ++ [entry]) reused
      { q.release entry.1 with mem := q.mem.publishAt entry.publishes } := by
  refine h.add hnew hentry ?_ ?_ ?_ (fun o ho => .inl ho) ?_
  · refine h.wf.release.mem_congr (fun o => by rw [Memory.span_publishAt, PersistedStore.mem_release]) fun k d hk => ?_
    rw [PersistedStore.lookup_release] at hk
    split at hk
    · cases hk
    · next hne => rw [h.frame_publishAt hnew hentry hne hk, PersistedStore.mem_release]
  · intro k hne
    refine ⟨by rw [PersistedStore.lookup_release, if_neg hne], fun data hk => h.frame_publishAt hnew hentry hne hk⟩
  · intro key data s hk hs ho
    refine ⟨h.kept_publishAt hnew hentry hk hs ho, ?_⟩
    by_cases hkey : key = entry.1
    · -- its span is free now
      right
      have hq : q.index.accounts.lookup entry.1 = some data := by rw [h.untouched _ hnew, ← hkey, hk]
      refine (PersistedStore.mem_freelist_release hq).mpr (.inl ?_)
      rw [Memory.span, h.pending (hkey ▸ hnew) hk, hs]
      rfl
    · refine (h.kept key data s hk hs ho).2.imp ?_ PersistedStore.mem_freelist_release_of_mem
      rintro ⟨d, hd, hoffset⟩
      exact ⟨d, by rw [PersistedStore.lookup_release, if_neg hkey]; exact hd, hoffset⟩
  · rw [hmode, PersistedStore.find, PersistedStore.lookup_release]
    simp

/-- The index after `update`: the entry records the owner in the published image. -/
private theorem lookup_update (hnew : entry.1 ∉ done.map Prod.fst)
    (hentry : Prepared p entry) (hk : q.index.accounts.lookup entry.1 = some data) {index : Index}
    (hindex : index = if entry.2.markers.owner then q.index.updateOwner entry.1 (entry.2.image q.mem).core.owner.tail
      else q.index) :
    index.Exact ∧ index.freelist = q.index.freelist ∧ ∀ k, index.accounts.lookup k =
      if k = entry.1 then some ⟨(entry.2.image q.mem).core.owner.tail, data.offset⟩
      else q.index.accounts.lookup k := by
  obtain ⟨hcurrent, -⟩ := h.pending_prepared hnew hentry
  split at hindex
  · rw [Index.updateOwner_eq hk] at hindex
    subst hindex
    refine ⟨?_, by rw [Index.freelist_insert, Index.freelist_delete], fun k => ?_⟩
    · refine (h.wf.exact.delete h.wf.distinct).insert ?_
      rw [Index.lookup_delete, if_pos rfl]
    · rw [Index.lookup_insert]
      split
      · rfl
      · next hne => rw [Index.lookup_delete, if_neg hne]
  · next howner =>
    subst hindex
    refine ⟨h.wf.exact, rfl, fun k => ?_⟩
    split
    · next heq =>
      -- the owner did not change
      obtain ⟨s, hs, -, -, htail⟩ := h.wf.indexed _ _ hk
      have hsame := (hcurrent.unmarked data s hk hs).2 (by simpa using howner)
      rw [heq, hk, hsame, htail]
    · rfl

theorem updated (hnew : entry.1 ∉ done.map Prod.fst) (hentry : Prepared p entry)
    {view : BorrowedAccount} (hcow : entry.2.cow = .borrowed view)
    (hmode : (entry.2.mode p.mem).requiresPersistence) :
    BatchProgress p (done ++ [entry]) reused
      { q with
        index := if entry.2.markers.owner then q.index.updateOwner entry.1 (entry.2.image q.mem).core.owner.tail
          else q.index
        mem := q.mem.publishAt entry.publishes } := by
  obtain ⟨hcurrent, himage⟩ := h.pending_prepared hnew hentry
  obtain ⟨data, -, hk, -⟩ := hcurrent.view view hcow
  obtain ⟨s, s', hs, hs', hpublish, hactive⟩ := hcurrent.active_publishAt hcow hk
  generalize hindex : (if entry.2.markers.owner then
    q.index.updateOwner entry.1 (entry.2.image q.mem).core.owner.tail else q.index) = index
  obtain ⟨hexact, hfreelist, hlookup⟩ := h.lookup_update hnew hentry hk hindex.symm
  have hmode' : s'.active.core.mode.requiresPersistence := by
    rw [hactive, himage]
    exact hmode
  refine h.add hnew hentry ?_ ?_ ?_ (fun o ho => .inl ho) ?_
  · have hpubkey : s'.pubkey = entry.1 := by
      obtain ⟨s₀, hs₀, hpubkey, -⟩ := h.wf.indexed _ _ hk
      cases hs.symm.trans hs₀
      rw [hpublish]
      split <;> exact hpubkey
    have hfits : s'.active.Fits := by
      rw [hactive]
      exact hcurrent.fits view hcow
    exact h.wf.publish hk hs' hpubkey hmode' hfits (fun k => by rw [hlookup, hactive]) hexact hfreelist
      (Memory.span_publishAt _ _) fun k d hne hd => h.frame_publishAt hnew hentry hne hd
  · intro k hne
    exact ⟨by rw [hlookup, if_neg hne], fun d hd => h.frame_publishAt hnew hentry hne hd⟩
  · intro key d s₀ hd hs₀ ho
    refine ⟨h.kept_publishAt hnew hentry hd hs₀ ho, ?_⟩
    refine (h.kept key d s₀ hd hs₀ ho).2.imp ?_ fun hfree => by rw [hfreelist]; exact hfree
    rintro ⟨d', hd', hoffset⟩
    by_cases hkey : key = entry.1
    · cases hk.symm.trans (hkey ▸ hd')
      exact ⟨_, (hlookup key).trans (if_pos hkey), hoffset⟩
    · exact ⟨d', by rw [hlookup, if_neg hkey]; exact hd', hoffset⟩
  · have hkept : entry.2.kept p.mem = entry.2.image p.mem := by simp [StoredAccount.kept, StoredAccount.image, hcow]
    rw [if_pos hmode, hkept, ← himage, ← hactive]
    exact PersistedStore.find_of_lookup ((hlookup _).trans (if_pos rfl)) hs'

variable {r : PersistedStore}

/-- The span of an old account, and the region it lies in, survive the allocation unless it was the span taken. -/
private theorem held_of_kept {units offset : Nat}
    (hr : PersistedStore.Allocation q r units offset) (hk : p.index.accounts.lookup key = some data)
    (hs : p.mem data.offset = some s) (ho : data.offset ∉ reused)
    (hoffset : (units, offset) ∈ q.index.freelist → data.offset ≠ offset) :
    r.mem data.offset = some (published done data.offset s) ∧
      ∃ i, r.held i = some ⟨data.offset, (published done data.offset s).units⟩ := by
  obtain ⟨hmem, hlive | hfree⟩ := h.kept key data s hk hs ho
  · obtain ⟨d, hd, heq⟩ := hlive
    rw [hr.mem]
    refine ⟨hmem, .inl key, ?_⟩
    have hd' : r.index.accounts.lookup key = some d := by rw [hr.accounts]; exact hd
    rw [PersistedStore.held_account hd' (by rw [hr.mem, heq]; exact hmem), heq]
  · rw [hr.mem]
    refine ⟨hmem, .inr (s.units, data.offset), ?_⟩
    rw [units_published]
    refine PersistedStore.held_free ((hr.freelist _).mpr ⟨hfree, fun heq => ?_⟩)
    exact hoffset (heq ▸ hfree) (congrArg Prod.snd heq)

omit h in
private theorem offset_ne_of_live {units offset : Nat}
    (hr : PersistedStore.Allocation q r units offset) (hwf : q.WellFormed)
    (hk : q.index.accounts.lookup key = some data) : data.offset ≠ offset := by
  obtain ⟨s, hs, -⟩ := hwf.indexed key data hk
  have hk' : r.index.accounts.lookup key = some data := by rw [hr.accounts]; exact hk
  exact hr.granted.start_ne (PersistedStore.held_account hk' (by rw [hr.mem]; exact hs))

private theorem taken_place (hnew : entry.1 ∉ done.map Prod.fst) {acc : OwnedAccount} {offset : Nat}
    (hr : PersistedStore.Allocation q r acc.units offset)
    (hfree : (acc.units, offset) ∈ q.index.freelist) : Taken p (r.place entry.1 acc offset) entry.1 offset := by
  refine ⟨_, _, by rw [PersistedStore.lookup_place, if_pos rfl], rfl, PersistedStore.mem_place_self, rfl, ?_⟩
  intro key' data' s' hk' ho hs'
  have hkey : key' ≠ entry.1 := by
    rintro rfl
    rw [← h.untouched _ hnew] at hk'
    exact offset_ne_of_live hr h.wf hk' ho
  refine ⟨hkey, ?_⟩
  have hnot : data'.offset ∉ reused := by
    intro hmem
    obtain ⟨e, -, d, -, hd, hoffset, -⟩ := h.taken _ hmem
    exact offset_ne_of_live hr h.wf hd (hoffset.trans ho)
  obtain ⟨hmem, hlive | hfree'⟩ := h.kept key' data' s' hk' (ho ▸ hs') hnot
  · obtain ⟨d, hd, heq⟩ := hlive
    exact absurd (heq.trans ho) (offset_ne_of_live hr h.wf hd)
  · -- both freelist entries are the same, so the sizes agree
    rw [ho] at hmem hfree'
    have hsame := h.wf.layout.eq_of_start_eq (PersistedStore.held_free hfree') (PersistedStore.held_free hfree) rfl
    have hunits : s'.units = acc.units := congrArg Prod.fst (Sum.inr.inj hsame)
    have hB := @Memory.imageB_fresh r.mem offset entry.1 acc _ (by rw [hr.mem]; exact hmem)
      (by rw [units_published, hunits])
    rw [hB]
    exact image_published true

theorem inserted (hnew : entry.1 ∉ done.map Prod.fst) (hentry : Prepared p entry)
    {acc : OwnedAccount} {offset : Nat} (hcow : entry.2.cow = .owned acc)
    (hmode : acc.core.mode.requiresPersistence) (hr : PersistedStore.Allocation q r acc.units offset) :
    BatchProgress p (done ++ [entry]) (reused ++ (q.index.freelist.get acc.units).toList) (r.place entry.1 acc offset) := by
  have himage : entry.2.image p.mem = acc := by simp [StoredAccount.image, hcow]
  refine h.add hnew hentry (hr.wf.place hr.granted hmode) ?_ ?_ ?_ ?_
  · intro k hne
    refine ⟨by rw [PersistedStore.lookup_place, if_neg hne, hr.accounts], fun data hk => ?_⟩
    obtain ⟨s, hs, -⟩ := h.wf.indexed k data hk
    have hk' : r.index.accounts.lookup k = some data := by rw [hr.accounts]; exact hk
    have hs' : r.mem data.offset = some s := by rw [hr.mem]; exact hs
    rw [hs]
    exact PersistedStore.mem_place_of_held hr.granted (PersistedStore.held_account hk' hs') hs'
  · intro key data s hk hs ho
    obtain ⟨ho, htaken⟩ := List.mem_append.not.mp ho |> not_or.mp
    have hoffset : (acc.units, offset) ∈ q.index.freelist → data.offset ≠ offset := by
      rintro hfree rfl
      cases hget : q.index.freelist.get acc.units with
      | none => exact hr.fresh hget hfree
      | some o =>
        rw [hget, hr.reused o hget] at htaken
        exact htaken (List.mem_singleton.mpr rfl)
    obtain ⟨hmem, i, hi⟩ := h.held_of_kept hr hk hs ho hoffset
    have hpublishes : entry.publishes ≠ some data.offset := by simp [AccountEntry.publishes, hcow]
    rw [published_of_ne hpublishes]
    refine ⟨PersistedStore.mem_place_of_held hr.granted hi hmem, ?_⟩
    rcases (h.kept key data s hk hs ho).2 with ⟨d, hd, heq⟩ | hfree
    · by_cases hkey : key = entry.1
      · -- the old span of the account becomes free
        right
        rw [PersistedStore.freelist_place]
        have hd' : r.index.accounts.lookup entry.1 = some d := by rw [hr.accounts, ← hkey]; exact hd
        refine (PersistedStore.mem_freelist_release hd').mpr (.inl ?_)
        rw [heq, Memory.span, hmem, Option.map_some, units_published]
        rfl
      · left
        exact ⟨d, by rw [PersistedStore.lookup_place, if_neg hkey, hr.accounts]; exact hd, heq⟩
    · right
      rw [PersistedStore.freelist_place]
      refine PersistedStore.mem_freelist_release_of_mem ((hr.freelist _).mpr ⟨hfree, fun heq => ?_⟩)
      exact hoffset (heq ▸ hfree) (congrArg Prod.snd heq)
  · intro o ho
    rcases List.mem_append.mp ho with ho | ho
    · exact .inl ho
    · right
      have hget := Option.mem_toList.mp ho
      obtain rfl := hr.reused o hget
      exact h.taken_place hnew hr (DupTable.mem_of_get hget)
  · have hpersist : (entry.2.mode p.mem).requiresPersistence := by rw [StoredAccount.mode, himage]; exact hmode
    have hlookup : (r.place entry.1 acc offset).index.accounts.lookup entry.1 =
        some ⟨acc.core.owner.tail, offset⟩ := by rw [PersistedStore.lookup_place, if_pos rfl]
    have hkept : entry.2.kept p.mem = acc.stored := by simp [StoredAccount.kept, hcow]
    rw [if_pos hpersist, hkept, PersistedStore.find_of_lookup hlookup PersistedStore.mem_place_self,
      Memory.active_fresh]

end

end BatchProgress

end MagicEngine
