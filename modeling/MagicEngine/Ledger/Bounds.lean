import Mathlib.Data.List.Chain
import Mathlib.Order.Bounds.Basic
import MagicEngine.Ledger.Appender

/-!
# Retained slot bounds

`Ledger::retained_range` (`ledger/src/lib.rs`) takes its lower bound from the first block of the oldest retained
superblock and its upper bound from the ledger header. Blocks with increasing slots go to superblocks with increasing
ids, so these are the bounds of the retained blocks whenever the oldest retained superblock has a block. A superblock
that was sealed without one, as by the seal of a bootstrap snapshot on an empty ledger, has no first slot, and while it
is the oldest one the ledger reports no range at all.
-/

namespace MagicEngine

variable {η δ : Type}

/-! ### Runs of events -/

def LedgerEvent.blockSlot? : LedgerEvent η δ → Option Nat
  | .block b _ => some b.slot
  | _ => none

def LedgerEvent.sealId? : LedgerEvent η δ → Option Nat
  | .superblock s => some s.id
  | _ => none

def BlockstoreEntry.slot? : BlockstoreEntry η δ → Option Nat
  | .block b => some b.slot
  | _ => none

/-- The blocks of a superblock have positive, increasing slots, and its header has the first one. -/
structure SuperblockFiles.Ranged (d : SuperblockFiles η δ) : Prop where
  pos : ∀ slot ∈ d.blockstore.filterMap BlockstoreEntry.slot?, 0 < slot
  increasing : (d.blockstore.filterMap BlockstoreEntry.slot?).Pairwise (· < ·)
  start : d.range.start = (d.blockstore.filterMap BlockstoreEntry.slot?).headD 0

private theorem SuperblockFiles.Ranged.start_eq_zero {d : SuperblockFiles η δ} (h : d.Ranged) :
    d.range.start = 0 ↔ d.blockstore.filterMap BlockstoreEntry.slot? = [] := by
  rw [h.start]
  cases hslots : d.blockstore.filterMap BlockstoreEntry.slot? with
  | nil => simp
  | cons slot rest => simpa using (h.pos slot (hslots ▸ List.mem_cons_self)).ne'

private theorem SuperblockFiles.Ranged.concat {d d' : SuperblockFiles η δ} (h : d.Ranged) (slot : Nat)
    (hslots : d'.blockstore.filterMap BlockstoreEntry.slot? = d.blockstore.filterMap BlockstoreEntry.slot? ++ [slot])
    (hstart : d'.range.start = if d.range.start = 0 then slot else d.range.start) (hpos : 0 < slot)
    (hlt : ∀ prior ∈ d.blockstore.filterMap BlockstoreEntry.slot?, prior < slot) : d'.Ranged := by
  constructor <;> rw [hslots]
  · exact List.forall_mem_append.mpr ⟨h.pos, List.forall_mem_singleton.mpr hpos⟩
  · exact List.pairwise_append.mpr ⟨h.increasing, List.pairwise_singleton _ _, by simpa using hlt⟩
  · have hzero := h.start_eq_zero
    rw [hstart]
    cases hprior : d.blockstore.filterMap BlockstoreEntry.slot? with
    | nil => simp [hzero.mpr hprior]
    | cons first rest =>
      rw [if_neg (by simp [hzero, hprior]), h.start, hprior]
      rfl

namespace LedgerState

def handle (w : LedgerState η δ) (e : LedgerEvent η δ) : LedgerState η δ := e.ops.foldl exec w

def handleAll (events : List (LedgerEvent η δ)) : LedgerState η δ := events.foldl handle initial

/-! ### What is retained -/

def slotsOf (w : LedgerState η δ) (id : Nat) : List Nat := ((w.dirs id).getD {}).blockstore.filterMap BlockstoreEntry.slot?

def retainedSlots (w : LedgerState η δ) : Set Nat := { slot | ∃ id ∈ w.superblocks, slot ∈ w.slotsOf id }

def retainedRange (w : LedgerState η δ) : Option (Nat × Nat) :=
  (oldest w.superblocks).bind fun first =>
    let start := ((w.dirs first).getD {}).range.start
    if start ≠ 0 ∧ start ≤ w.header.range.last then some (start, w.header.range.last) else none

/-- The range is there exactly when a block is retained, and has the smallest and the largest slot. -/
def RangeExact (w : LedgerState η δ) : Prop :=
  ∀ lo hi, w.retainedRange = some (lo, hi) ↔ IsLeast w.retainedSlots lo ∧ IsGreatest w.retainedSlots hi

def OldestHasBlock (w : LedgerState η δ) : Prop :=
  w.retainedSlots.Nonempty → ∃ first, oldest w.superblocks = some first ∧ w.slotsOf first ≠ []

/-! ### The invariant between events -/

structure Bounded (w : LedgerState η δ) : Prop where
  head_mem : w.header.head ∈ w.superblocks
  le_head : ∀ id ∈ w.superblocks, id ≤ w.header.head
  writer : w.writer = w.header.head
  buffer : ∀ entry ∈ w.buffer, entry.slot? = none
  victim : w.victim = none
  ranged : ∀ id ∈ w.superblocks, ∃ d, w.dirs id = some d ∧ d.Ranged
  fresh : ∀ id, w.header.head < id → w.dirs id = none
  ordered : ∀ id ∈ w.superblocks, ∀ id' ∈ w.superblocks, id < id' →
    ∀ slot ∈ w.slotsOf id, ∀ slot' ∈ w.slotsOf id', slot < slot'
  le_last : ∀ slot ∈ w.retainedSlots, slot ≤ w.header.range.last
  last_mem : w.retainedSlots.Nonempty → w.header.range.last ∈ w.retainedSlots

theorem bounded_initial : (initial : LedgerState η δ).Bounded where
  head_mem := by simp [initial]
  le_head id hid := by simpa [initial] using (Finset.mem_singleton.mp hid).le
  writer := rfl
  buffer entry hentry := absurd hentry List.not_mem_nil
  victim := rfl
  ranged id hid := by
    rw [Finset.mem_singleton.mp hid]
    exact ⟨{}, rfl, by simp, by simp, rfl⟩
  fresh id hid := by
    have : id ≠ 1 := Nat.ne_of_gt hid
    simp [initial, Function.update_of_ne this]
  ordered id hid id' hid' hlt := by
    rw [Finset.mem_singleton.mp hid, Finset.mem_singleton.mp hid'] at hlt
    exact absurd hlt (Nat.lt_irrefl 1)
  le_last := by simp [retainedSlots, slotsOf, initial]
  last_mem := by simp [retainedSlots, slotsOf, initial]

variable {w w' : LedgerState η δ}

private theorem slotsOf_of_some {id : Nat} {d : SuperblockFiles η δ} (h : w.dirs id = some d) :
    w.slotsOf id = d.blockstore.filterMap BlockstoreEntry.slot? := by
  rw [slotsOf, h]
  rfl

private theorem Bounded.congr (h : w.Bounded) (hsuperblocks : w'.superblocks = w.superblocks)
    (hhead : w'.header.head = w.header.head) (hlast : w'.header.range.last = w.header.range.last)
    (hwriter : w'.writer = w.writer) (hbuffer : ∀ entry ∈ w'.buffer, entry.slot? = none) (hvictim : w'.victim = none)
    (hranged : ∀ id ∈ w.superblocks, ∃ d, w'.dirs id = some d ∧ d.Ranged)
    (hfresh : ∀ id, w.header.head < id → w'.dirs id = none) (hslots : w'.slotsOf = w.slotsOf) : w'.Bounded := by
  have hretained : w'.retainedSlots = w.retainedSlots := by simp only [retainedSlots, hsuperblocks, hslots]
  constructor <;> try simp only [hretained, hsuperblocks, hhead, hlast, hwriter, hslots]
  exacts [h.head_mem, h.le_head, h.writer, hbuffer, hvictim, hranged, hfresh, h.ordered, h.le_last, h.last_mem]

private theorem Bounded.write (h : w.Bounded) (entry : BlockstoreEntry η δ) (hentry : entry.slot? = none) :
    (w.exec (.write entry)).Bounded := by
  refine h.congr rfl rfl rfl rfl ?_ h.victim h.ranged h.fresh rfl
  exact List.forall_mem_append.mpr ⟨h.buffer, List.forall_mem_singleton.mpr hentry⟩

private theorem filterMap_slot?_eq_nil {entries : List (BlockstoreEntry η δ)} (h : ∀ entry ∈ entries, entry.slot? = none) :
    entries.filterMap BlockstoreEntry.slot? = [] :=
  List.filterMap_eq_nil_iff.mpr h

private theorem Bounded.publish (h : w.Bounded) : ((LedgerOp.publish none).foldl exec w).Bounded := by
  have hdirs : ((LedgerOp.publish none).foldl exec w).dirs =
      Function.update w.dirs w.header.head ((w.dirs w.header.head).map fun d =>
        { d with blockstore := d.blockstore ++ w.buffer }) := by
    rw [← h.writer]
    rfl
  have hslots : ((LedgerOp.publish none).foldl exec w).slotsOf = w.slotsOf := by
    funext id
    rw [slotsOf, slotsOf, hdirs, Function.update_apply]
    split
    · next hid =>
      subst hid
      cases w.dirs w.header.head with
      | none => rfl
      | some d => simp [List.filterMap_append, filterMap_slot?_eq_nil h.buffer]
    · rfl
  refine h.congr rfl rfl rfl rfl (fun _ he => absurd he List.not_mem_nil) h.victim (fun id hid => ?_) (fun id hid => ?_)
    hslots
  · obtain ⟨d, hd, hranged⟩ := h.ranged id hid
    rw [hdirs, Function.update_apply]
    split
    · next heq =>
      rw [← heq, hd]
      refine ⟨_, rfl, ?_⟩
      constructor <;> simp only [List.filterMap_append, filterMap_slot?_eq_nil h.buffer, List.append_nil]
      exacts [hranged.pos, hranged.increasing, hranged.start]
    · exact ⟨d, hd, hranged⟩
  · rw [hdirs, Function.update_of_ne (Nat.ne_of_gt hid)]
    exact h.fresh id hid

private theorem Bounded.block (h : w.Bounded) (b : Block η) (hpos : 0 < b.slot) (hlast : w.header.range.last < b.slot) :
    ((.write (.block b) :: LedgerOp.publish (some b.slot)).foldl exec w).Bounded := by
  set w' := (.write (.block b) :: LedgerOp.publish (some b.slot)).foldl exec w with hw'
  obtain ⟨d, hd, hranged⟩ := h.ranged _ h.head_mem
  have hdirs : w'.dirs = Function.update w.dirs w.header.head (some
      (if d.range.start = 0 then
        { d with blockstore := d.blockstore ++ (w.buffer ++ [.block b]), range := ⟨b.slot, b.slot⟩ }
      else { d with blockstore := d.blockstore ++ (w.buffer ++ [.block b]), range.last := b.slot })) := by
    simp only [hw', LedgerOp.publish, List.foldl_cons, List.foldl_nil, exec, modify, h.writer, Function.update_idem,
      Function.update_self, hd, Option.map_some]
  have hblocks : (d.blockstore ++ (w.buffer ++ [BlockstoreEntry.block b])).filterMap BlockstoreEntry.slot? =
      d.blockstore.filterMap BlockstoreEntry.slot? ++ [b.slot] := by
    rw [List.filterMap_append, List.filterMap_append, filterMap_slot?_eq_nil h.buffer, List.nil_append]
    rfl
  have hslots : ∀ id, w'.slotsOf id = if id = w.header.head then w.slotsOf id ++ [b.slot] else w.slotsOf id := by
    intro id
    rw [slotsOf, hdirs, Function.update_apply]
    split
    · next hid =>
      subst hid
      rw [slotsOf_of_some hd, Option.getD_some]
      split <;> exact hblocks
    · rfl
  have hold : ∀ id ∈ w.superblocks, ∀ slot ∈ w.slotsOf id, slot < b.slot :=
    fun id hid slot hslot => (h.le_last slot ⟨id, hid, hslot⟩).trans_lt hlast
  have hnew : b.slot ∈ w'.slotsOf w.header.head := by simp only [hslots, if_true, List.mem_append_right, List.mem_singleton]
  refine ⟨h.head_mem, h.le_head, h.writer, fun _ he => absurd he List.not_mem_nil, h.victim, fun id hid => ?_,
    fun id (hid : w.header.head < id) => ?_, fun id hid id' hid' hlt slot hslot slot' hslot' => ?_, ?_,
    fun _ => ⟨_, h.head_mem, hnew⟩⟩
  · rw [hdirs, Function.update_apply]
    split
    · refine ⟨_, rfl, hranged.concat b.slot ?_ ?_ hpos (slotsOf_of_some hd ▸ hold _ h.head_mem)⟩
      · split <;> exact hblocks
      · split <;> rfl
    · exact h.ranged id hid
  · rw [hdirs, Function.update_of_ne hid.ne']
    exact h.fresh id hid
  · have hne : id ≠ w.header.head := (hlt.trans_le (h.le_head id' hid')).ne
    rw [hslots, if_neg hne] at hslot
    rw [hslots] at hslot'
    have hordered := h.ordered id hid id' hid' hlt slot hslot slot'
    have hbefore := hold id hid slot hslot
    grind
  · rintro slot ⟨id, hid, hslot⟩
    change slot ≤ b.slot
    rw [hslots] at hslot
    have hbefore := hold id hid slot
    grind

private theorem oldest_eq_some {superblocks : Finset Nat} {id : Nat} (h : oldest superblocks = some id) :
    id ∈ superblocks ∧ ∀ id' ∈ superblocks, id ≤ id' := by
  unfold oldest at h
  split at h
  · obtain rfl := Option.some.inj h
    exact ⟨Finset.min'_mem _ _, fun id' hid' => Finset.min'_le _ _ hid'⟩
  · cases h

private theorem Bounded.exists_oldest (h : w.Bounded) : ∃ id, oldest w.superblocks = some id :=
  ⟨_, dif_pos ⟨_, h.head_mem⟩⟩

private theorem Bounded.truncate (h : w.Bounded) : (LedgerOp.truncate.foldl exec w).Bounded ∧
    (LedgerOp.truncate.foldl exec w).header.head = w.header.head ∧
    (LedgerOp.truncate.foldl exec w).header.range.last = w.header.range.last := by
  obtain ⟨first, hfirst⟩ := h.exists_oldest
  obtain ⟨hmem, hmin⟩ := oldest_eq_some hfirst
  by_cases hhead : first ≥ w.header.head
  · have hsame : LedgerOp.truncate.foldl exec w = w := by
      simp [LedgerOp.truncate, exec, hfirst, hhead, h.victim]
    rw [hsame]
    exact ⟨h, rfl, rfl⟩
  · have hstate : LedgerOp.truncate.foldl exec w =
        { w with
          header := { w.header with
            superblocks := w.header.superblocks - 1
            range.start := ((w.dirs first).getD {}).range.last + 1 }
          superblocks := w.superblocks.erase first
          victim := none
          purged := insert first w.purged } := by
      simp only [LedgerOp.truncate, List.foldl_cons, List.foldl_nil, exec, hfirst, if_neg hhead, Option.isSome_some,
        if_true]
    rw [hstate]
    refine ⟨?_, rfl, rfl⟩
    have hsub : ∀ id ∈ w.superblocks.erase first, id ∈ w.superblocks := fun id hid => Finset.mem_of_mem_erase hid
    have hne : w.header.head ≠ first := by omega
    refine ⟨Finset.mem_erase.mpr ⟨hne, h.head_mem⟩, fun id hid => h.le_head id (hsub id hid), h.writer, h.buffer, rfl,
      fun id hid => h.ranged id (hsub id hid), h.fresh, fun id hid id' hid' => h.ordered id (hsub id hid) id' (hsub id' hid'),
      ?_, ?_⟩
    · rintro slot ⟨id, hid, hslot⟩
      exact h.le_last slot ⟨id, hsub id hid, hslot⟩
    · rintro ⟨slot, id, hid, hslot⟩
      obtain ⟨id', hid', hlast⟩ := h.last_mem ⟨slot, id, hsub id hid, hslot⟩
      refine ⟨id', Finset.mem_erase.mpr ⟨?_, hid'⟩, hlast⟩
      -- The last block is past a retained one, so it is not in the oldest superblock.
      rintro rfl
      have hlt : id' < id := lt_of_le_of_ne (hmin id (hsub id hid)) (Finset.ne_of_mem_erase hid).symm
      have := h.ordered id' hid' id (hsub id hid) hlt _ hlast slot hslot
      exact absurd (h.le_last slot ⟨id, hsub id hid, hslot⟩) (Nat.not_le_of_lt this)

private theorem Bounded.rotate (h : w.Bounded) (s : SuperblockSeal δ) (hs : w.header.head ≤ s.id) :
    ((LedgerOp.rotate s).foldl exec w).Bounded := by
  have hnone : w.dirs (s.id + 1) = none := h.fresh _ (by omega)
  set w' := (LedgerOp.rotate s).foldl exec w with hw'
  have hdirs : w'.dirs = Function.update w.dirs (s.id + 1)
      (some { checksum := some s.checksum, transactions := s.transactions }) := by
    simp only [hw', LedgerOp.rotate, List.foldl_cons, List.foldl_nil, exec, hnone, Option.getD_none]
  have hne : ∀ id ∈ w.superblocks, id ≠ s.id + 1 := fun id hid => by
    have := h.le_head id hid
    omega
  have hslots : ∀ id, w'.slotsOf id = if id = s.id + 1 then [] else w.slotsOf id := by
    intro id
    rw [slotsOf, hdirs, Function.update_apply]
    split <;> rfl
  have hmem : ∀ id, id ∈ w'.superblocks ↔ id = s.id + 1 ∨ id ∈ w.superblocks := fun id => Finset.mem_insert
  have hretained : w'.retainedSlots = w.retainedSlots := by
    ext slot
    refine exists_congr fun id => ?_
    rw [hmem, hslots]
    grind
  refine ⟨(hmem _).mpr (.inl rfl), fun id hid => ?_, rfl, h.buffer, h.victim, fun id hid => ?_,
    fun id (hid : s.id + 1 < id) => ?_, fun id hid id' hid' hlt slot hslot slot' hslot' => ?_, hretained ▸ h.le_last,
    hretained ▸ h.last_mem⟩
  · change id ≤ s.id + 1
    rcases (hmem id).mp hid with rfl | hid
    · exact le_rfl
    · have := h.le_head id hid
      omega
  · rcases (hmem id).mp hid with rfl | hid
    · rw [hdirs, Function.update_self]
      exact ⟨_, rfl, by simp, by simp, rfl⟩
    · rw [hdirs, Function.update_of_ne (hne id hid)]
      exact h.ranged id hid
  · rw [hdirs, Function.update_of_ne hid.ne']
    exact h.fresh id (by omega)
  · have hordered := h.ordered id
    rw [hslots] at hslot hslot'
    grind

private theorem Bounded.handle (h : w.Bounded) (e : LedgerEvent η δ)
    (hblock : ∀ slot, e.blockSlot? = some slot → 0 < slot ∧ w.header.range.last < slot)
    (hseal : ∀ id, e.sealId? = some id → w.header.head ≤ id) :
    (w.handle e).Bounded ∧ (w.handle e).header.range.last = e.blockSlot?.getD w.header.range.last ∧
      (w.handle e).header.head = (e.sealId?.map (· + 1)).getD w.header.head := by
  cases e with
  | transaction t => exact ⟨h.write _ rfl, rfl, rfl⟩
  | reset r => exact ⟨(h.write (.reset r) rfl).publish, rfl, rfl⟩
  | checkpoint c => exact ⟨(h.write (.checkpoint c) rfl).publish, rfl, rfl⟩
  | sync => exact ⟨h.publish, rfl, rfl⟩
  | superblock s =>
    have hpublished := (h.write (.superblock s) rfl).publish
    have hadopted : ((((LedgerOp.publish none).foldl exec (w.exec (.write (.superblock s)))).exec
        (.adoptTransactions s.transactions))).Bounded :=
      hpublished.congr rfl rfl rfl rfl hpublished.buffer hpublished.victim hpublished.ranged hpublished.fresh rfl
    exact ⟨hadopted.rotate s (hseal s.id rfl), rfl, rfl⟩
  | block b sizeExceeded =>
    obtain ⟨hpos, hlast⟩ := hblock b.slot rfl
    have hpublished := h.block b hpos hlast
    rw [LedgerState.handle, LedgerEvent.ops]
    split
    · rw [List.foldl_append, List.foldl_append]
      obtain ⟨htruncated, hhead, hrange⟩ := hpublished.publish.truncate
      exact ⟨htruncated, hrange, hhead⟩
    · rw [List.append_nil]
      exact ⟨hpublished, rfl, rfl⟩

/-- The slots of blocks are positive and follow each other. -/
def ConsecutiveBlocks (events : List (LedgerEvent η δ)) : Prop :=
  (events.filterMap LedgerEvent.blockSlot?).IsChain (fun slot next => next = slot + 1) ∧
    ∀ slot ∈ events.filterMap LedgerEvent.blockSlot?, 0 < slot

/-- Seals name the superblock that is active or, for a bootstrap, a later one. -/
def AscendingSeals (events : List (LedgerEvent η δ)) : Prop :=
  (events.filterMap LedgerEvent.sealId?).IsChain (· < ·) ∧ ∀ id ∈ events.filterMap LedgerEvent.sealId?, 1 ≤ id

theorem bounded_handleAll {events : List (LedgerEvent η δ)} (hblocks : ConsecutiveBlocks events)
    (hseals : AscendingSeals events) : (handleAll events).Bounded ∧
      (handleAll events).header.range.last = (events.filterMap LedgerEvent.blockSlot?).getLast?.getD 0 ∧
      (handleAll events).header.head = ((events.filterMap LedgerEvent.sealId?).getLast?.map (· + 1)).getD 1 := by
  induction events using List.reverseRecOn with
  | nil => exact ⟨bounded_initial, rfl, rfl⟩
  | append_singleton events e ih =>
    unfold ConsecutiveBlocks at hblocks
    unfold AscendingSeals at hseals
    rw [List.filterMap_append, List.isChain_append] at hblocks hseals
    obtain ⟨⟨hchain, -, hnext⟩, hpos⟩ := hblocks
    obtain ⟨⟨hchain', -, hnext'⟩, hone⟩ := hseals
    obtain ⟨hbounded, hlast, hhead⟩ := ih ⟨hchain, fun slot hslot => hpos slot (List.mem_append_left _ hslot)⟩
      ⟨hchain', fun id hid => hone id (List.mem_append_left _ hid)⟩
    have hstep := hbounded.handle e (fun slot hslot => ?_) fun id hid => ?_
    · rw [handleAll, List.foldl_append]
      refine ⟨hstep.1, hstep.2.1.trans ?_, hstep.2.2.trans ?_⟩
      · rw [List.filterMap_append, List.getLast?_append]
        cases hslot : e.blockSlot? with
        | none => simp [hslot, hlast]
        | some slot => simp [hslot]
      · rw [List.filterMap_append, List.getLast?_append]
        cases hid : e.sealId? with
        | none => simp [hid, hhead]
        | some id => simp [hid]
    · have hmem : slot ∈ [e].filterMap LedgerEvent.blockSlot? := by simp [hslot]
      refine ⟨hpos slot (List.mem_append_right _ hmem), ?_⟩
      rw [hlast]
      cases hprev : (events.filterMap LedgerEvent.blockSlot?).getLast? with
      | none => exact hpos slot (List.mem_append_right _ hmem)
      | some prev =>
        have := hnext prev hprev slot (by simp [hslot])
        simp only [Option.getD_some]
        omega
    · have hmem : id ∈ [e].filterMap LedgerEvent.sealId? := by simp [hid]
      rw [hhead]
      cases hprev : (events.filterMap LedgerEvent.sealId?).getLast? with
      | none => exact hone id (List.mem_append_right _ hmem)
      | some prev =>
        have := hnext' prev hprev id (by simp [hid])
        simp only [Option.map_some, Option.getD_some]
        omega

/-! ### The bounds -/

private theorem Bounded.isLeast_start (h : w.Bounded) {first : Nat} (hfirst : oldest w.superblocks = some first)
    (hblock : w.slotsOf first ≠ []) : IsLeast w.retainedSlots ((w.dirs first).getD {}).range.start := by
  obtain ⟨hmem, hmin⟩ := oldest_eq_some hfirst
  obtain ⟨d, hd, hranged⟩ := h.ranged first hmem
  rw [slotsOf_of_some hd] at hblock
  obtain ⟨slot, rest, hlist⟩ := List.exists_cons_of_ne_nil hblock
  have hstart : ((w.dirs first).getD {}).range.start = slot := by
    rw [hd, Option.getD_some, hranged.start, hlist]
    rfl
  have hincreasing := hranged.increasing
  rw [hlist] at hincreasing
  have hfirstSlots : w.slotsOf first = slot :: rest := (slotsOf_of_some hd).trans hlist
  rw [hstart]
  refine ⟨⟨first, hmem, hfirstSlots ▸ List.mem_cons_self⟩, ?_⟩
  rintro slot' ⟨id, hid, hslot'⟩
  rcases Nat.lt_or_eq_of_le (hmin id hid) with hlt | heq
  · exact (h.ordered first hmem id hid hlt slot (hfirstSlots ▸ List.mem_cons_self) slot' hslot').le
  · rw [← heq, hfirstSlots] at hslot'
    rcases List.mem_cons.mp hslot' with rfl | hslot'
    · exact le_rfl
    · exact (List.rel_of_pairwise_cons hincreasing hslot').le

private theorem Bounded.rangeExact_iff (h : w.Bounded) : w.RangeExact ↔ w.OldestHasBlock := by
  obtain ⟨first, hfirst⟩ := h.exists_oldest
  obtain ⟨hmem, -⟩ := oldest_eq_some hfirst
  obtain ⟨d, hd, hranged⟩ := h.ranged first hmem
  have hrange : w.retainedRange = if ((w.dirs first).getD {}).range.start ≠ 0 ∧
      ((w.dirs first).getD {}).range.start ≤ w.header.range.last then
        some (((w.dirs first).getD {}).range.start, w.header.range.last) else none := by
    rw [retainedRange, hfirst]
    rfl
  have hzero : w.slotsOf first = [] → ((w.dirs first).getD {}).range.start = 0 := by
    rw [slotsOf_of_some hd, hd]
    exact hranged.start_eq_zero.mpr
  constructor
  · rintro hexact hne
    by_contra hnot
    have hempty : w.slotsOf first = [] := by
      by_contra hblock
      exact hnot ⟨first, hfirst, hblock⟩
    -- The oldest superblock has no first slot, so there is no range, although there are blocks.
    have hnone : w.retainedRange = none := by rw [hrange, hzero hempty, if_neg (by simp)]
    have hlast := h.last_mem hne
    obtain ⟨lo, hlo⟩ : ∃ lo, IsLeast w.retainedSlots lo := by
      classical
      exact ⟨Nat.find hne, Nat.find_spec hne, fun slot hslot => Nat.find_min' hne hslot⟩
    have := (hexact lo w.header.range.last).mpr ⟨hlo, hlast, fun slot hslot => h.le_last slot hslot⟩
    rw [hnone] at this
    cases this
  · intro hoccupied lo hi
    by_cases hne : w.retainedSlots.Nonempty
    · obtain ⟨first', hfirst', hblock⟩ := hoccupied hne
      cases hfirst.symm.trans hfirst'
      have hleast := h.isLeast_start hfirst hblock
      have hgreatest : IsGreatest w.retainedSlots w.header.range.last :=
        ⟨h.last_mem hne, fun slot hslot => h.le_last slot hslot⟩
      have hstart : ((w.dirs first).getD {}).range.start ≠ 0 := by
        obtain ⟨id, hid, hslot⟩ := hleast.1
        obtain ⟨d', hd', hranged'⟩ := h.ranged id hid
        exact (hranged'.pos _ (slotsOf_of_some hd' ▸ hslot)).ne'
      rw [hrange, if_pos ⟨hstart, hgreatest.2 hleast.1⟩]
      constructor
      · intro heq
        cases heq
        exact ⟨hleast, hgreatest⟩
      · rintro ⟨hlo, hhi⟩
        rw [hleast.unique hlo, hgreatest.unique hhi]
    · have hempty : w.slotsOf first = [] := by
        by_contra hblock
        obtain ⟨slot, hslot⟩ := List.exists_mem_of_ne_nil _ hblock
        exact hne ⟨slot, first, hmem, hslot⟩
      rw [hrange, hzero hempty, if_neg (by simp)]
      exact ⟨nofun, fun hlo => absurd ⟨lo, hlo.1.1⟩ hne⟩

/-- Between events the retained range is exact precisely when the oldest retained superblock has a block or none has. -/
theorem retainedRange_exact_iff (events : List (LedgerEvent η δ)) (hblocks : ConsecutiveBlocks events)
    (hseals : AscendingSeals events) : (handleAll events).RangeExact ↔ (handleAll events).OldestHasBlock :=
  (bounded_handleAll hblocks hseals).1.rangeExact_iff

def twoSuperblocks : List (LedgerEvent Nat Nat) :=
  [.block ⟨1, 0, 0, 0⟩ false, .superblock ⟨1, 0, 0⟩, .block ⟨2, 0, 0, 0⟩ false]

theorem retainedRange_exact_two : (handleAll twoSuperblocks).RangeExact := by
  refine (retainedRange_exact_iff twoSuperblocks ⟨?_, ?_⟩ ⟨?_, ?_⟩).mpr fun _ => ⟨1, by decide, by decide⟩
  · exact List.isChain_pair.mpr rfl
  · decide
  · exact List.isChain_singleton _
  · decide

/-- A snapshot of superblock 5 is staged on an empty ledger, and the first block after it is stored. -/
def bootstrapped : List (LedgerEvent Nat Nat) := [.superblock ⟨5, 0, 0⟩, .block ⟨101, 0, 0, 0⟩ false]

/-- Block 101 is retained, but the oldest superblock is the empty one that the bootstrap seal closed. -/
theorem bootstrap_hides_range : ConsecutiveBlocks bootstrapped ∧ AscendingSeals bootstrapped ∧
    (handleAll bootstrapped).retainedRange = none ∧ 101 ∈ (handleAll bootstrapped).retainedSlots ∧
    ¬(handleAll bootstrapped).RangeExact := by
  have hnone : (handleAll bootstrapped).retainedRange = none := by decide
  have hmem : 101 ∈ (handleAll bootstrapped).retainedSlots := ⟨6, by decide, by decide⟩
  have honly : ∀ slot ∈ (handleAll bootstrapped).retainedSlots, slot = 101 := by
    rintro slot ⟨id, hid, hslot⟩
    have hids : ∀ id ∈ (handleAll bootstrapped).superblocks, ∀ slot ∈ (handleAll bootstrapped).slotsOf id,
        slot = 101 := by decide
    exact hids id hid slot hslot
  refine ⟨⟨List.isChain_singleton _, by decide⟩, ⟨List.isChain_singleton _, by decide⟩, hnone, hmem, fun hexact => ?_⟩
  have hrange := (hexact 101 101).mpr ⟨⟨hmem, fun slot h => (honly slot h).ge⟩, hmem, fun slot h => (honly slot h).le⟩
  rw [hnone] at hrange
  cases hrange

end LedgerState

end MagicEngine
