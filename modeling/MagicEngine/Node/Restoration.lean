import Mathlib.Data.List.TakeWhile
import MagicEngine.Node.Startup

/-!
# Restoring the caches of a follower

A starting follower fills its caches from two histories: the blocks its ledger retains, streamed oldest first, and the
slot hashes of the account tree, which are kept newest first (`follower_caches` in `keeper/src/builder.rs`). An
`ExpiringCache` takes expired records off the front of its queue, so it depends on pushes whose slots never go back.

`mergePushes` lists the pushes of the merge. They come in the order of slots (`pairwise_mergePushes`). At a slot that
both histories have, the streamed hash is pushed and the first persisted one is not (`hash_of_mem_mergePushes`), so the
restored history has the streamed hash there (`restored_history`).
-/

namespace MagicEngine

inductive CachePush (η : Type) where
  | hash (slot : Nat) (hash : η)
  | signature (slot : Nat) (key : SignaturePrefix)
deriving DecidableEq, Repr

namespace CachePush

variable {η : Type}

def slot : CachePush η → Nat
  | .hash slot _ => slot
  | .signature slot _ => slot

def apply [DecidableEq η] (caches : Caches η Unit) : CachePush η → Caches η Unit
  | .hash slot h => caches.restoreHash slot h
  | .signature slot key => caches.restoreSignatures slot [key]

def historyOp? : CachePush η → Option (ExpiringCache.Op η Nat)
  | .hash slot h => some (.push h slot slot)
  | .signature _ _ => none

def ofHash (entry : Nat × η) : CachePush η := .hash entry.1 entry.2

def ofBlock (entry : BlockHistoryEntry η) : List (CachePush η) :=
  .hash entry.block.slot entry.block.hash :: entry.signatures.map (.signature entry.block.slot)

theorem ofHash_eq_hash {e : Nat × η} {s : Nat} {h : η} : ofHash e = .hash s h ↔ e = (s, h) := by
  rw [ofHash, hash.injEq, Prod.ext_iff]

theorem slot_of_mem_ofBlock {entry : BlockHistoryEntry η} {p : CachePush η} (h : p ∈ ofBlock entry) :
    p.slot = entry.block.slot := by
  rcases List.mem_cons.mp h with rfl | h
  · rfl
  · obtain ⟨key, -, rfl⟩ := List.mem_map.mp h
    rfl

@[simp]
theorem hash_mem_ofBlock {entry : BlockHistoryEntry η} {s : Nat} {h : η} :
    .hash s h ∈ ofBlock entry ↔ s = entry.block.slot ∧ h = entry.block.hash := by
  simp [ofBlock]

variable [DecidableEq η]

theorem foldl_ofHash (hashes : List (Nat × η)) (caches : Caches η Unit) :
    (hashes.map ofHash).foldl apply caches =
      hashes.foldl (fun caches (slot, h) => caches.restoreHash slot h) caches := by
  rw [List.foldl_map]
  rfl

theorem foldl_ofBlock (entry : BlockHistoryEntry η) (caches : Caches η Unit) :
    (ofBlock entry).foldl apply caches = caches.restore entry := by
  have hsignatures (slot : Nat) (keys : List SignaturePrefix) (caches : Caches η Unit) :
      (keys.map (signature slot)).foldl apply caches = caches.restoreSignatures slot keys := by
    induction keys generalizing caches with
    | nil => rfl
    | cons key keys ih => exact ih _
  exact hsignatures _ _ _

end CachePush

variable {η δ : Type}

private def olderThan (entry : BlockHistoryEntry η) (hashes : List (Nat × η)) : List (Nat × η) :=
  hashes.takeWhile fun (slot, _) => decide (slot < entry.block.slot)

/-- The persisted hashes left after a streamed block: those after its slot. -/
private def leftAfter (entry : BlockHistoryEntry η) (hashes : List (Nat × η)) : List (Nat × η) :=
  let hashes := hashes.drop (olderThan entry hashes).length
  if (hashes.head?.map (·.1)) = some entry.block.slot then hashes.tail else hashes

def mergePushes : List (Nat × η) → List (BlockHistoryEntry η) → List (CachePush η)
  | hashes, [] => hashes.map .ofHash
  | hashes, entry :: rest =>
    (olderThan entry hashes).map .ofHash ++ CachePush.ofBlock entry ++ mergePushes (leftAfter entry hashes) rest

theorem mergeHistory_eq [DecidableEq η] (hashes : List (Nat × η)) (stream : List (BlockHistoryEntry η))
    (caches : Caches η Unit) :
    mergeHistory hashes stream caches = (mergePushes hashes stream).foldl CachePush.apply caches := by
  induction stream generalizing hashes caches with
  | nil => exact (CachePush.foldl_ofHash hashes caches).symm
  | cons entry rest ih =>
    rw [mergePushes, List.foldl_append, List.foldl_append, CachePush.foldl_ofHash, CachePush.foldl_ofBlock, ← ih]
    rfl

/-! ### What is left of the persisted hashes -/

variable {hashes : List (Nat × η)} {stream : List (BlockHistoryEntry η)} {entry : BlockHistoryEntry η}

private theorem sublist_leftAfter : (leftAfter entry hashes).Sublist hashes := by
  unfold leftAfter
  dsimp only
  split
  · exact (List.tail_sublist _).trans (List.drop_sublist _ _)
  · exact List.drop_sublist _ _

private theorem drop_olderThan : hashes.drop (olderThan entry hashes).length =
    hashes.dropWhile fun (slot, _) => decide (slot < entry.block.slot) := by
  unfold olderThan
  generalize (fun (x : Nat × η) => _) = p
  calc hashes.drop (hashes.takeWhile p).length
      = (hashes.takeWhile p ++ hashes.dropWhile p).drop (hashes.takeWhile p).length := by
        rw [List.takeWhile_append_dropWhile]
    _ = hashes.dropWhile p := List.drop_left

private theorem le_of_mem_leftAfter (hsorted : hashes.Pairwise (·.1 ≤ ·.1)) {e : Nat × η}
    (he : e ∈ leftAfter entry hashes) : entry.block.slot ≤ e.1 := by
  have hdrop : e ∈ hashes.dropWhile fun (slot, _) => decide (slot < entry.block.slot) := by
    rw [← drop_olderThan]
    unfold leftAfter at he
    dsimp only at he
    split at he
    · exact List.mem_of_mem_tail he
    · exact he
  cases hleft : hashes.dropWhile fun (slot, _) => decide (slot < entry.block.slot) with
  | nil => simp [hleft] at hdrop
  | cons first rest =>
    have hfirst : entry.block.slot ≤ first.1 := by
      have := List.head?_dropWhile_not (fun (slot, _) => decide (slot < entry.block.slot)) hashes
      simpa [hleft] using this
    have hrest := hsorted.sublist (List.dropWhile_sublist fun (slot, _) => decide (slot < entry.block.slot))
    rw [hleft] at hrest hdrop
    rcases List.mem_cons.mp hdrop with rfl | hmem
    · exact hfirst
    · exact hfirst.trans ((List.pairwise_cons.mp hrest).1 e hmem)

/-- Of the persisted hashes at the slot of a streamed block, the first one is dropped. -/
private theorem mem_tail_of_mem_leftAfter (hsorted : hashes.Pairwise (·.1 ≤ ·.1)) {h : η}
    (hmem : (entry.block.slot, h) ∈ leftAfter entry hashes) :
    (entry.block.slot, h) ∈ (hashes.filter fun e => e.1 = entry.block.slot).tail := by
  have hge : ∀ e ∈ leftAfter entry hashes, entry.block.slot ≤ e.1 := fun e => le_of_mem_leftAfter hsorted
  set left := hashes.drop (olderThan entry hashes).length with hleft
  have hsub : left.Sublist hashes := List.drop_sublist _ _
  cases hl : left with
  | nil => simp [leftAfter, ← hleft, hl] at hmem
  | cons first rest =>
    by_cases hfirst : first.1 = entry.block.slot
    · have hrest : (entry.block.slot, h) ∈ rest := by simpa [leftAfter, ← hleft, hl, hfirst] using hmem
      have htail : (entry.block.slot, h) ∈ (left.filter fun e => e.1 = entry.block.slot).tail := by
        rw [hl, List.filter_cons_of_pos (by simpa using hfirst)]
        exact List.mem_filter.mpr ⟨hrest, by simp⟩
      exact (hsub.filter _).tail.subset htail
    · -- everything left is after the slot
      have hmem' : (entry.block.slot, h) ∈ first :: rest := by simpa [leftAfter, ← hleft, hl, hfirst] using hmem
      have hself : first ∈ leftAfter entry hashes := by simp [leftAfter, ← hleft, hl, hfirst]
      have hlt : entry.block.slot < first.1 := lt_of_le_of_ne (hge first hself) (Ne.symm hfirst)
      have hsorted' : (first :: rest).Pairwise (·.1 ≤ ·.1) := hl ▸ hsorted.sublist hsub
      rcases List.mem_cons.mp hmem' with heq | hrest
      · rw [← heq] at hlt
        exact absurd hlt (lt_irrefl _)
      · exact absurd ((List.pairwise_cons.mp hsorted').1 _ hrest) (not_le_of_gt hlt)

/-! ### The pushes of a merge -/

theorem slot_of_mem_mergePushes {p : CachePush η} (h : p ∈ mergePushes hashes stream) :
    (∃ e ∈ hashes, p = .ofHash e) ∨ ∃ entry ∈ stream, p ∈ CachePush.ofBlock entry := by
  induction stream generalizing hashes with
  | nil =>
    obtain ⟨e, he, rfl⟩ := List.mem_map.mp h
    exact .inl ⟨e, he, rfl⟩
  | cons entry rest ih =>
    rw [mergePushes, List.append_assoc, List.mem_append, List.mem_append] at h
    rcases h with h | h | h
    · obtain ⟨e, he, rfl⟩ := List.mem_map.mp h
      exact .inl ⟨e, (List.takeWhile_sublist _).subset he, rfl⟩
    · exact .inr ⟨entry, List.mem_cons_self, h⟩
    · rcases ih h with ⟨e, he, rfl⟩ | ⟨other, hother, hp⟩
      · exact .inl ⟨e, sublist_leftAfter.subset he, rfl⟩
      · exact .inr ⟨other, List.mem_cons_of_mem _ hother, hp⟩

private theorem lt_of_mem_olderThan {e : Nat × η} (he : e ∈ olderThan entry hashes) : e.1 < entry.block.slot := by
  simpa using List.mem_takeWhile_imp he

/-- Two ascending histories are merged into pushes whose slots never go back. -/
theorem pairwise_mergePushes (hhashes : hashes.Pairwise (·.1 ≤ ·.1))
    (hstream : stream.Pairwise (·.block.slot ≤ ·.block.slot)) :
    ((mergePushes hashes stream).map CachePush.slot).Pairwise (· ≤ ·) := by
  induction stream generalizing hashes with
  | nil =>
    rw [mergePushes, List.map_map, List.pairwise_map]
    exact hhashes
  | cons entry rest ih =>
    obtain ⟨hentry, hrest⟩ := List.pairwise_cons.mp hstream
    -- everything after the block is at its slot or later
    have hafter : ∀ p ∈ mergePushes (leftAfter entry hashes) rest, entry.block.slot ≤ p.slot := by
      intro p hp
      rcases slot_of_mem_mergePushes hp with ⟨e, he, rfl⟩ | ⟨other, hother, hp⟩
      · exact le_of_mem_leftAfter hhashes he
      · exact (hentry other hother).trans_eq (CachePush.slot_of_mem_ofBlock hp).symm
    have hbefore : ∀ p ∈ (olderThan entry hashes).map CachePush.ofHash, p.slot ≤ entry.block.slot := by
      intro p hp
      obtain ⟨e, he, rfl⟩ := List.mem_map.mp hp
      exact (lt_of_mem_olderThan he).le
    rw [List.pairwise_map, mergePushes, List.append_assoc, List.pairwise_append, List.pairwise_append]
    refine ⟨?_, ⟨?_, List.pairwise_map.mp (ih (hhashes.sublist sublist_leftAfter) hrest), ?_⟩, ?_⟩
    · exact List.pairwise_map.mpr (hhashes.sublist (List.takeWhile_sublist _))
    · exact List.pairwise_of_forall_mem_list fun p hp p' hp' =>
        ((CachePush.slot_of_mem_ofBlock hp).trans (CachePush.slot_of_mem_ofBlock hp').symm).le
    · exact fun p hp p' hp' => (CachePush.slot_of_mem_ofBlock hp).trans_le (hafter p' hp')
    · intro p hp p' hp'
      rcases List.mem_append.mp hp' with hp' | hp'
      · exact (hbefore p hp).trans_eq (CachePush.slot_of_mem_ofBlock hp').symm
      · exact (hbefore p hp).trans (hafter p' hp')

theorem ofBlock_subset_mergePushes (h : entry ∈ stream) : CachePush.ofBlock entry ⊆ mergePushes hashes stream := by
  induction stream generalizing hashes with
  | nil => cases h
  | cons first rest ih =>
    intro p hp
    rw [mergePushes, List.append_assoc, List.mem_append, List.mem_append]
    rcases List.mem_cons.mp h with rfl | h
    · exact .inr (.inl hp)
    · exact .inr (.inr (ih h hp))

/-- What is pushed at the slot of a streamed block: its hash, and of the persisted hashes at this slot those behind the
first one. Persisted slots that go down strictly have no such hash. -/
theorem hash_of_mem_mergePushes (hhashes : hashes.Pairwise (·.1 ≤ ·.1))
    (hstream : stream.Pairwise (·.block.slot < ·.block.slot)) (hentry : entry ∈ stream) {h : η}
    (hp : .hash entry.block.slot h ∈ mergePushes hashes stream) :
    h = entry.block.hash ∨ (entry.block.slot, h) ∈ (hashes.filter fun e => e.1 = entry.block.slot).tail := by
  induction stream generalizing hashes with
  | nil => cases hentry
  | cons first rest ih =>
    obtain ⟨hfirst, hrest⟩ := List.pairwise_cons.mp hstream
    rw [mergePushes, List.append_assoc, List.mem_append, List.mem_append] at hp
    have hle : first.block.slot ≤ entry.block.slot := by
      rcases List.mem_cons.mp hentry with rfl | hmem
      · exact le_rfl
      · exact (hfirst entry hmem).le
    rcases hp with hp | hp | hp
    · obtain ⟨e, he, heq⟩ := List.mem_map.mp hp
      rw [CachePush.ofHash_eq_hash.mp heq] at he
      exact absurd hle (not_le_of_gt (lt_of_mem_olderThan he))
    · obtain ⟨hslot, rfl⟩ := CachePush.hash_mem_ofBlock.mp hp
      rcases List.mem_cons.mp hentry with rfl | hmem
      · exact .inl rfl
      · exact absurd hslot (hfirst entry hmem).ne'
    · rcases List.mem_cons.mp hentry with rfl | hmem
      · rcases slot_of_mem_mergePushes hp with ⟨e, he, heq⟩ | ⟨other, hother, hp⟩
        · rw [CachePush.ofHash_eq_hash.mp heq.symm] at he
          exact .inr (mem_tail_of_mem_leftAfter hhashes he)
        · exact absurd (CachePush.hash_mem_ofBlock.mp hp).1 (hfirst other hother).ne
      · have hsub : (leftAfter first hashes).Sublist hashes := sublist_leftAfter
        exact (ih (hhashes.sublist hsub) hrest hmem hp).imp_right fun ht => (hsub.filter _).tail.subset ht

/-! ### The restored history -/

def historyOps (pushes : List (CachePush η)) : List (ExpiringCache.Op η Nat) := pushes.filterMap CachePush.historyOp?

theorem mem_historyOps {pushes : List (CachePush η)} {op : ExpiringCache.Op η Nat} :
    op ∈ historyOps pushes ↔ ∃ s h, op = .push h s s ∧ .hash s h ∈ pushes := by
  constructor
  · intro hop
    obtain ⟨p, hp, heq⟩ := List.mem_filterMap.mp hop
    cases p with
    | hash s h => exact ⟨s, h, (Option.some.inj heq).symm, hp⟩
    | signature s key => cases heq
  · rintro ⟨s, h, rfl, hp⟩
    exact List.mem_filterMap.mpr ⟨_, hp, rfl⟩

private theorem mem_slots_historyOps {pushes : List (CachePush η)} {s : Nat}
    (hs : s ∈ (historyOps pushes).filterMap ExpiringCache.Op.slot?) : ∃ p ∈ pushes, p.slot = s := by
  obtain ⟨op, hop, heq⟩ := List.mem_filterMap.mp hs
  obtain ⟨s', h, rfl, hp⟩ := mem_historyOps.mp hop
  exact ⟨_, hp, Option.some.inj heq⟩

variable [DecidableEq η]

theorem history_foldl_apply (pushes : List (CachePush η)) (caches : Caches η Unit) :
    (pushes.foldl CachePush.apply caches).history = caches.history.run (historyOps pushes) := by
  induction pushes generalizing caches with
  | nil => rfl
  | cons p pushes ih =>
    rw [List.foldl_cons, ih]
    cases p <;> rfl

private theorem index_run_historyOps {c : ExpiringCache η Nat} {pushes : List (CachePush η)} {h : η} {s : Nat}
    (hget : (c.run (historyOps pushes)).index h = some s) : c.index h = some s ∨ .hash s h ∈ pushes := by
  induction pushes generalizing c with
  | nil => exact .inl hget
  | cons p pushes ih =>
    cases p with
    | hash s' h' =>
      have hget' : ((c.push h' s' s').1.run (historyOps pushes)).index h = some s := hget
      rcases ih hget' with hpush | hmem
      · rcases ExpiringCache.index_of_push hpush with hold | ⟨rfl, rfl⟩
        · exact .inl hold
        · exact .inr List.mem_cons_self
      · exact .inr (List.mem_cons_of_mem _ hmem)
    | signature s' key =>
      have hget' : (c.run (historyOps pushes)).index h = some s := hget
      exact (ih hget').imp_right (List.mem_cons_of_mem _)

/-- A hash that is pushed is in the restored history, unless a push reaches its expiry. -/
theorem restored_history {blockTtl : Nat} {pushes : List (CachePush η)}
    (hfits : ∀ p ∈ pushes, p.slot + blockTtl < 2 ^ 64) {s : Nat} {h : η} (hp : .hash s h ∈ pushes)
    (hlive : ∀ s, .hash s h ∈ pushes → ∀ p ∈ pushes, p.slot < s + blockTtl) :
    ∃ s, ((ExpiringCache.new blockTtl).run (historyOps pushes)).get h = some s ∧ .hash s h ∈ pushes := by
  set new : ExpiringCache η Nat := .new blockTtl with hnew
  obtain ⟨before, after, hsplit⟩ := List.append_of_mem (mem_historyOps.mpr ⟨s, h, rfl, hp⟩)
  have hconsistent : ∀ ops, (new.run ops).Consistent := (ExpiringCache.Consistent.new blockTtl).run
  -- the record of the hash right after its push
  have hthere : (new.run (before ++ [.push h s s])).contains h := by
    rw [ExpiringCache.run_append]
    exact ExpiringCache.contains_push
  obtain ⟨r, hr, rfl⟩ := List.mem_map.mp (((hconsistent _).mem h).mp hthere)
  have hexpires : ∀ p ∈ pushes, p.slot < r.expires := by
    rcases ExpiringCache.mem_of_mem_run hr with hr' | ⟨value, slot, hop, hexp⟩
    · cases hr'
    · have hop' : .push r.key value slot ∈ historyOps pushes := by
        rw [hsplit]
        rcases List.mem_append.mp hop with hop | hop
        · exact List.mem_append_left _ hop
        · rw [List.mem_singleton.mp hop]
          simp
      obtain ⟨s', h', heq, hp'⟩ := mem_historyOps.mp hop'
      obtain ⟨rfl, rfl, rfl⟩ := ExpiringCache.Op.push.inj heq
      rw [hexp, ExpiringCache.expiry_eq (hfits _ hp')]
      exact hlive _ hp'
  have hkept : r ∈ (new.run (historyOps pushes)).queue := by
    rw [hsplit, List.append_cons, ExpiringCache.run_append]
    refine ExpiringCache.mem_run_of_live hr fun later hlater => ?_
    have hmem : later ∈ (historyOps pushes).filterMap ExpiringCache.Op.slot? := by
      obtain ⟨op, hop, hslot⟩ := List.mem_filterMap.mp hlater
      rw [hsplit]
      exact List.mem_filterMap.mpr ⟨op, List.mem_append_right _ (List.mem_cons_of_mem _ hop), hslot⟩
    obtain ⟨p, hp, rfl⟩ := mem_slots_historyOps hmem
    exact hexpires p hp
  have hcontains := ((hconsistent (historyOps pushes)).mem r.key).mpr (List.mem_map_of_mem hkept)
  obtain ⟨v, hv⟩ := Option.isSome_iff_exists.mp hcontains
  rcases index_run_historyOps hv with hnone | hmem
  · cases hnone
  · exact ⟨v, hv, hmem⟩

/-- A cache that is pushed at slots that never go back has the keys of its queue, each once and in the order of expiry;
it keeps a key for its time to live and refuses one that its bounded sweep left. The restoration of a follower pushes
in that order. Its history keeps the hash of every streamed block that has not expired, and has at the slot of the block
no other hash, unless the persisted hashes repeat the slot. -/
theorem cache_restoration {κ ν : Type} [DecidableEq κ] (ttl : Nat) (ops : List (ExpiringCache.Op κ ν))
    (hops : (ops.filterMap ExpiringCache.Op.slot?).Pairwise (· ≤ ·))
    (hfits : ∀ slot ∈ ops.filterMap ExpiringCache.Op.slot?, slot + ttl < 2 ^ 64) (hashes : List (Nat × η))
    (hhashes : hashes.Pairwise (·.1 ≥ ·.1)) (stream : List (BlockHistoryEntry η))
    (hstream : stream.Pairwise (·.block.slot < ·.block.slot)) (latest : Block η) (blockTtl signatureTtl : Nat)
    (hrestored : (∀ e ∈ hashes, e.1 + blockTtl < 2 ^ 64) ∧ ∀ e ∈ stream, e.block.slot + blockTtl < 2 ^ 64) :
    let new : ExpiringCache κ ν := .new ttl
    let c := new.run ops
    let pushes := mergePushes hashes.reverse stream
    let fresh : Caches η Unit := .new latest blockTtl signatureTtl
    let caches := mergeHistory hashes.reverse stream fresh
    ((∀ key, c.contains key ↔ key ∈ c.queue.map (·.key)) ∧ (c.queue.map (·.key)).Nodup ∧
        c.queue.Pairwise (·.expires ≤ ·.expires) ∧
        (∀ before key value slot after, ops = before ++ .push key value slot :: after →
          ((new.run before).push key value slot).2 = true →
          (∀ later ∈ after.filterMap ExpiringCache.Op.slot?, later < slot + ttl) → c.contains key) ∧
        ∀ key value slot, (c.push key value slot).2 = false ↔
          key ∈ (c.queue.drop ((c.queue.takeWhile fun r => decide (r.expires ≤ slot)).take evictionLimit).length).map
            (·.key)) ∧
      caches = pushes.foldl CachePush.apply fresh ∧ (pushes.map CachePush.slot).Pairwise (· ≤ ·) ∧
      ∀ entry ∈ stream,
        ((∀ s, .hash s entry.block.hash ∈ pushes → ∀ p ∈ pushes, p.slot < s + blockTtl) →
          ∃ s, caches.history.get entry.block.hash = some s ∧ .hash s entry.block.hash ∈ pushes) ∧
        ∀ h, caches.history.get h = some entry.block.slot → h = entry.block.hash ∨
          (entry.block.slot, h) ∈ (hashes.reverse.filter fun e => e.1 = entry.block.slot).tail := by
  intro new c pushes fresh caches
  have hconsistent : c.Consistent := (ExpiringCache.Consistent.new ttl).run ops
  have hnew : new.Ordered 0 := ⟨List.Pairwise.nil, fun r hr => nomatch hr⟩
  obtain ⟨_, hordered⟩ := hnew.run (List.pairwise_cons.mpr ⟨fun _ _ => Nat.zero_le _, hops⟩) hfits
  have hascending : hashes.reverse.Pairwise (·.1 ≤ ·.1) := List.pairwise_reverse.mpr hhashes
  have hcaches : caches = pushes.foldl CachePush.apply fresh := mergeHistory_eq ..
  have hhistory : caches.history = (ExpiringCache.new blockTtl).run (historyOps pushes) := by
    rw [hcaches, history_foldl_apply]
    rfl
  have hpushes : ∀ p ∈ pushes, p.slot + blockTtl < 2 ^ 64 := by
    intro p hp
    rcases slot_of_mem_mergePushes hp with ⟨e, he, rfl⟩ | ⟨entry, hentry, hp⟩
    · exact hrestored.1 e (List.mem_reverse.mp he)
    · rw [CachePush.slot_of_mem_ofBlock hp]
      exact hrestored.2 entry hentry
  refine ⟨⟨hconsistent.mem, hconsistent.nodup, hordered.sorted, ?_, fun key value slot =>
    ExpiringCache.push_eq_false_iff hconsistent⟩, hcaches, ?_, fun entry hentry => ⟨fun hlive => ?_, fun h hget => ?_⟩⟩
  · intro before key value slot after heq haccepted hlive
    -- the record made by the push lives as long as no later push reaches its expiry
    have hslot : slot + ttl < 2 ^ 64 := hfits slot (by simp [heq, ExpiringCache.Op.slot?])
    have hrecord : ⟨key, slot + ttl⟩ ∈ ((new.run before).push key value slot).1.queue := by
      have httl : (new.run before).ttl = ttl := ExpiringCache.run_ttl before
      rw [ExpiringCache.push_queue, haccepted, if_pos rfl, ExpiringCache.expiry_eq (httl ▸ hslot), httl]
      exact List.mem_append_right _ List.mem_cons_self
    have hc : c = ((new.run before).push key value slot).1.run after := by
      simp only [c, heq, ExpiringCache.run_append]
      rfl
    rw [hconsistent.mem, hc]
    exact List.mem_map.mpr ⟨_, ExpiringCache.mem_run_of_live hrecord hlive, rfl⟩
  · exact pairwise_mergePushes hascending (hstream.imp le_of_lt)
  · rw [hhistory]
    exact restored_history hpushes (ofBlock_subset_mergePushes hentry List.mem_cons_self) hlive
  · rw [hhistory] at hget
    rcases index_run_historyOps hget with hnone | hp
    · cases hnone
    · exact hash_of_mem_mergePushes hascending hstream hentry hp

/-- Slots 4 to 6 persisted, slot 5 streamed with another hash. -/
theorem cache_restoration_overlap :
    ((ExpiringCache.new 4 : ExpiringCache Nat Nat).run [.push 7 0 3, .update 7 1, .push 8 0 6]).contains 7 = true ∧
      (mergeHistory [(4, 40), (5, 50), (6, 60)] [⟨⟨5, 51, 0, 40⟩, []⟩]
        (Caches.new ⟨6, 60, 0, 51⟩ 150 300)).history.get 50 ≠ some 5 := by
  have h := cache_restoration 4 [.push 7 0 3, .update 7 1, .push 8 0 6] (by decide) (by decide)
    [(6, 60), (5, 50), (4, 40)] (by decide) [⟨⟨5, 51, 0, 40⟩, []⟩] (by decide) ⟨6, 60, 0, 51⟩ 150 300 (by decide)
  obtain ⟨⟨-, -, -, hkept, -⟩, -, -, hstream⟩ := h
  refine ⟨hkept [] 7 0 3 [.update 7 1, .push 8 0 6] rfl (by decide) (by decide), fun hget => ?_⟩
  exact absurd ((hstream _ List.mem_cons_self).2 50 hget) (by decide)

/-- With a time to live of `2 ^ 64 - 1` a key pushed at slot 1 is swept by another push at slot 1. -/
theorem wrapped_key_swept :
    let new : ExpiringCache Nat Nat := .new (2 ^ 64 - 1)
    (new.push 7 0 1).2 = true ∧ 1 < 1 + (2 ^ 64 - 1) ∧ (new.run [.push 7 0 1, .push 8 0 1]).contains 7 = false := by
  decide

end MagicEngine
