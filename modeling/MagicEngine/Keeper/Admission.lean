import Mathlib.Data.List.Chain
import MagicEngine.Keeper.Cache
import MagicEngine.Lib.Transition

/-!
# Admission of transactions

The keeper's read-side caches (`keeper/src/cache.rs`) and the admission of a transaction by
`TransactionsAccessor::append` (`keeper/src/accessor.rs`): its signature must not be among the processed ones, which
reserves it, and its recent block hash must be in the block history.

Both caches sweep lazily. A signature reserved at slot `s` can be swept from slot `s + signatureTtl` on. The block the
transaction names is older than `s`, so by then it has left the history, which is swept completely once per slot.

All this is about slots whose expiry fits a `u64` (`Fits`). A time to live near `2 ^ 64`, as the builder computes it for
a block time of zero, makes every entry expire on arrival (`append_twice_admitted`).
-/

namespace MagicEngine

/-- A retained block and the signatures of its transactions. -/
structure BlockHistoryEntry (η : Type) where
  block : Block η
  signatures : List SignaturePrefix
deriving DecidableEq, Repr

inductive AdmissionError where
  | alreadyProcessed
  | blockhashNotFound
deriving DecidableEq, Repr

/-- Block history, latest block and processed signatures with the statuses known of them. -/
structure Caches (η σ : Type) where
  latest : Block η
  history : ExpiringCache η Nat
  signatures : ExpiringCache SignaturePrefix (Option σ)

namespace Caches

variable {η σ : Type}

def new (latest : Block η) (blockTtl signatureTtl : Nat) : Caches η σ :=
  { latest, history := .new blockTtl, signatures := .new signatureTtl }

/-- The admission half of `TransactionsAccessor::append`. A rejected signature stays reserved. -/
def append (c : Caches η σ) (t : LedgerTransaction η) : Caches η σ × Except AdmissionError Unit :=
  let slot := (c.latest.slot + 1) % 2 ^ 64
  let (signatures, fresh) := c.signatures.push t.signature.signaturePrefix none slot
  let c := { c with signatures }
  if !fresh then (c, .error .alreadyProcessed)
  else if !c.history.contains t.recentBlockhash then (c, .error .blockhashNotFound)
  else (c, .ok ())

def recordStatus (c : Caches η σ) (t : LedgerTransaction η) (status : σ) : Caches η σ :=
  { c with signatures := c.signatures.update t.signature.signaturePrefix (some status) }

section Append

variable {c : Caches η σ} {t : LedgerTransaction η}

@[simp]
theorem append_latest : (c.append t).1.latest = c.latest := by
  unfold append
  dsimp only
  split
  · rfl
  · split <;> rfl

@[simp]
theorem append_history : (c.append t).1.history = c.history := by
  unfold append
  dsimp only
  split
  · rfl
  · split <;> rfl

@[simp]
theorem append_signatures : (c.append t).1.signatures =
    (c.signatures.push t.signature.signaturePrefix none ((c.latest.slot + 1) % 2 ^ 64)).1 := by
  unfold append
  dsimp only
  split
  · rfl
  · split <;> rfl

theorem append_ok : (c.append t).2 = .ok () ↔
    (c.signatures.push t.signature.signaturePrefix none ((c.latest.slot + 1) % 2 ^ 64)).2 = true ∧
      c.history.contains t.recentBlockhash = true := by
  unfold append
  dsimp only
  split
  · next h => simpa using fun h' => absurd h' (by simpa using h)
  · next h =>
    split
    · next h' => simpa using fun _ => by simpa using h'
    · next h' => simpa using ⟨by simpa using h, by simpa using h'⟩

end Append

variable [DecidableEq η]

def restoreHash (c : Caches η σ) (slot : Nat) (hash : η) : Caches η σ :=
  { c with history := (c.history.push hash slot slot).1 }

def restoreSignatures (c : Caches η σ) (slot : Nat) (signatures : List SignaturePrefix) : Caches η σ :=
  { c with signatures := signatures.foldl (fun cache key => (cache.push key none slot).1) c.signatures }

def restore (c : Caches η σ) (entry : BlockHistoryEntry η) : Caches η σ :=
  (c.restoreHash entry.block.slot entry.block.hash).restoreSignatures entry.block.slot entry.signatures

/-- The caches a process starts with: those of its latest block, filled from retained history. A leader restores the
latest block only, without signatures. -/
def start (latest : Block η) (blockTtl signatureTtl : Nat) (history : List (BlockHistoryEntry η)) : Caches η σ :=
  history.foldl restore (new latest blockTtl signatureTtl)

def pushBlock (c : Caches η σ) (block : Block η) : Caches η σ :=
  { c with latest := block, history := (c.history.push block.hash block.slot block.slot).1 }

end Caches

/-! ### A history pushed once per slot -/

/-- What a block history looks like after pushes at consecutive slots, the last one at `slot`. -/
structure History {η : Type} (blockTtl : Nat) (blocks : List (Block η)) (slot : Nat) (c : ExpiringCache η Nat) :
    Prop where
  ttl : c.ttl = blockTtl
  consistent : c.Consistent
  slots : ∀ b ∈ blocks, b.slot ≤ slot
  record : ∀ r ∈ c.queue, slot < r.expires ∧ ∃ b ∈ blocks, r = ⟨b.hash, b.slot + blockTtl⟩
  sorted : c.queue.Pairwise (·.expires < ·.expires)

namespace History

variable {η : Type} {blockTtl slot : Nat} {blocks : List (Block η)} {c : ExpiringCache η Nat}

theorem of_contains (h : History blockTtl blocks slot c) {hash : η} (hmem : c.contains hash) :
    ∃ b ∈ blocks, b.hash = hash ∧ slot < b.slot + blockTtl := by
  obtain ⟨r, hr, rfl⟩ := List.mem_map.mp ((h.consistent.mem hash).mp hmem)
  obtain ⟨hexp, b, hb, rfl⟩ := h.record r hr
  exact ⟨b, hb, rfl, hexp⟩

variable [DecidableEq η]

private theorem of_sweep {b : Block η} (hpos : 0 < blockTtl) (httl : c.ttl = blockTtl) (hc : c.Consistent)
    (hfits : b.slot + blockTtl < 2 ^ 64) (hslots : ∀ a ∈ blocks, a.slot < b.slot)
    (hlive : ∀ r ∈ (c.sweep b.slot evictionLimit).queue, b.slot < r.expires ∧ ∃ a ∈ blocks, r = ⟨a.hash, a.slot + blockTtl⟩)
    (hsorted : (c.sweep b.slot evictionLimit).queue.Pairwise (·.expires < ·.expires)) :
    History blockTtl (blocks ++ [b]) b.slot (c.push b.hash b.slot b.slot).1 where
  ttl := by rw [ExpiringCache.push_ttl, httl]
  consistent := hc.push
  slots a ha := by
    rcases List.mem_append.mp ha with ha | ha
    · exact Nat.le_of_lt (hslots a ha)
    · rw [List.mem_singleton.mp ha]
  record r hr := by
    rw [ExpiringCache.push_queue, List.mem_append] at hr
    rcases hr with hr | hr
    · obtain ⟨hexp, a, ha, rfl⟩ := hlive r hr
      exact ⟨hexp, a, List.mem_append_left _ ha, rfl⟩
    · split at hr
      · rw [List.mem_singleton.mp hr, ExpiringCache.expiry_eq (httl ▸ hfits), httl]
        exact ⟨Nat.lt_add_of_pos_right hpos, b, by simp, rfl⟩
      · cases hr
  sorted := by
    rw [ExpiringCache.push_queue, List.pairwise_append]
    refine ⟨hsorted, by split <;> simp, ?_⟩
    intro r hr r' hr'
    obtain ⟨-, a, ha, rfl⟩ := hlive r hr
    split at hr'
    · rw [List.mem_singleton.mp hr', ExpiringCache.expiry_eq (httl ▸ hfits), httl]
      exact Nat.add_lt_add_right (hslots a ha) blockTtl
    · cases hr'

theorem first {b : Block η} (hpos : 0 < blockTtl) (hfits : b.slot + blockTtl < 2 ^ 64) :
    History blockTtl [b] b.slot ((ExpiringCache.new blockTtl).push b.hash b.slot b.slot).1 := by
  have hq : (ExpiringCache.sweep b.slot evictionLimit (ExpiringCache.new blockTtl : ExpiringCache η Nat)).queue = [] :=
    List.sublist_nil.mp ExpiringCache.sweep_queue_sublist
  exact @of_sweep η blockTtl [] (.new blockTtl) _ b hpos rfl (.new blockTtl) hfits (by simp) (by simp [hq])
    (by simp [hq])

/-- One block per slot: the sweep before the push removes what expires then, so the history never falls behind. -/
theorem push (h : History blockTtl blocks slot c) (hpos : 0 < blockTtl) {b : Block η} (hb : b.slot = slot + 1)
    (hfits : b.slot + blockTtl < 2 ^ 64) :
    History blockTtl (blocks ++ [b]) b.slot (c.push b.hash b.slot b.slot).1 := by
  have hsub : ∀ r ∈ (c.sweep b.slot evictionLimit).queue, r ∈ c.queue := fun r hr =>
    ExpiringCache.sweep_queue_sublist.subset hr
  refine of_sweep hpos h.ttl h.consistent hfits ?_ ?_ (h.sorted.sublist ExpiringCache.sweep_queue_sublist)
  · intro a ha
    have := h.slots a ha
    omega
  · intro r hr
    refine ⟨ExpiringCache.sweep_complete h.sorted ?_ hr, (h.record r (hsub r hr)).2⟩
    intro r hr
    have := (h.record r hr).1
    omega

end History

/-! ### Runs of one process -/

/-- The caches of a process, the blocks pushed to its history and the transactions it admitted. -/
structure Admissions (η σ : Type) where
  caches : Caches η σ
  blocks : List (Block η)
  admitted : List (LedgerTransaction η)

namespace Admissions

section

variable {η σ : Type} [DecidableEq η]

def start (latest : Block η) (blockTtl signatureTtl : Nat) (history : List (BlockHistoryEntry η)) : Admissions η σ :=
  { caches := .start latest blockTtl signatureTtl history, blocks := history.map (·.block), admitted := [] }

def append (w : Admissions η σ) (t : LedgerTransaction η) : Admissions η σ :=
  { w with
    caches := (w.caches.append t).1
    admitted := if (w.caches.append t).2 = .ok () then w.admitted ++ [t] else w.admitted }

/-- What happens to the caches while the process runs. Blocks come at consecutive slots and with new hashes. -/
inductive Step : Admissions η σ → Admissions η σ → Prop
  | append (w : Admissions η σ) (t : LedgerTransaction η) : Step w (w.append t)
  | block (w : Admissions η σ) (b : Block η) (hslot : b.slot = w.caches.latest.slot + 1)
    (hnew : b.hash ∉ w.blocks.map (·.hash)) :
    Step w { w with caches := w.caches.pushBlock b, blocks := w.blocks ++ [b] }
  | status (w : Admissions η σ) (t : LedgerTransaction η) (status : σ) :
    Step w { w with caches := w.caches.recordStatus t status }

end

variable {η σ : Type}

/-- Retained history a process can start from: consecutive slots up to its latest block, and distinct hashes. -/
structure Consecutive (latest : Block η) (history : List (BlockHistoryEntry η)) : Prop where
  chain : (history.map (·.block.slot)).IsChain fun s s' => s' = s + 1
  last : (history.map (·.block)).getLast? = some latest
  nodup : (history.map (·.block.hash)).Nodup

/-- The block a transaction names is older than the slot `s` it was admitted at, and its signature stays reserved
until `s + signatureTtl`. -/
def Reserved (signatureTtl : Nat) (w : Admissions η σ) (t : LedgerTransaction η) : Prop :=
  ∃ s, (∃ b ∈ w.blocks, b.hash = t.recentBlockhash ∧ b.slot < s) ∧
    (⟨t.signature.signaturePrefix, s + signatureTtl⟩ ∈ w.caches.signatures.queue ∨
      s + signatureTtl ≤ w.caches.latest.slot + 1)

/-- The expiry of what is pushed next fits a `u64`. Slots only grow, so this bounds a whole run at its end. -/
def Fits (signatureTtl : Nat) (w : Admissions η σ) : Prop := w.caches.latest.slot + 1 + signatureTtl < 2 ^ 64

structure Sound (blockTtl signatureTtl : Nat) (w : Admissions η σ) : Prop where
  history : History blockTtl w.blocks w.caches.latest.slot w.caches.history
  hashes : (w.blocks.map (·.hash)).Nodup
  signatures : w.caches.signatures.Consistent
  ttl : w.caches.signatures.ttl = signatureTtl
  reserved : ∀ t ∈ w.admitted, Reserved signatureTtl w t
  nodup : w.admitted.Nodup

variable {blockTtl signatureTtl : Nat} {w w' : Admissions η σ}

private theorem Fits.slot (h : w.Fits signatureTtl) : (w.caches.latest.slot + 1) % 2 ^ 64 = w.caches.latest.slot + 1 :=
  Nat.mod_eq_of_lt (Nat.lt_of_le_of_lt (Nat.le_add_right _ _) h)

/-- An admitted transaction cannot be admitted again: once its signature is swept, its block has expired. -/
theorem Sound.notMem_of_append_ok (hle : blockTtl ≤ signatureTtl) (h : w.Sound blockTtl signatureTtl)
    (hfits : w.Fits signatureTtl) {t : LedgerTransaction η} (hok : (w.caches.append t).2 = .ok ()) : t ∉ w.admitted := by
  intro hmem
  obtain ⟨hfresh, hcontains⟩ := Caches.append_ok.mp hok
  rw [hfits.slot] at hfresh
  obtain ⟨s, ⟨b, hb, hhash, hbs⟩, hs⟩ := h.reserved t hmem
  have hexpired : s + signatureTtl ≤ w.caches.latest.slot + 1 := by
    refine hs.elim (fun hrecord => ?_) id
    by_contra hlive
    have hkept : _ ∈ (w.caches.signatures.sweep (w.caches.latest.slot + 1) evictionLimit).queue :=
      ExpiringCache.mem_sweep_of_live hrecord (Nat.lt_of_not_le hlive)
    exact ExpiringCache.push_result.mp hfresh ((h.signatures.sweep.mem _).mpr (List.mem_map.mpr ⟨_, hkept, rfl⟩))
  obtain ⟨b', hb', hhash', hlive⟩ := h.history.of_contains hcontains
  have : b' = b := List.inj_on_of_nodup_map h.hashes hb' hb (hhash'.trans hhash.symm)
  subst this
  omega

theorem Sound.status (h : w.Sound blockTtl signatureTtl) (t : LedgerTransaction η) (status : σ) :
    Sound blockTtl signatureTtl { w with caches := w.caches.recordStatus t status } where
  history := h.history
  hashes := h.hashes
  signatures := h.signatures.update
  ttl := by simpa [Caches.recordStatus] using h.ttl
  reserved u hu := by simpa [Reserved, Caches.recordStatus] using h.reserved u hu
  nodup := h.nodup

theorem Sound.append (hle : blockTtl ≤ signatureTtl) (h : w.Sound blockTtl signatureTtl) (hfits : w.Fits signatureTtl)
    (t : LedgerTransaction η) : (w.append t).Sound blockTtl signatureTtl := by
  have hkeep : ∀ u, Reserved signatureTtl w u →
      Reserved signatureTtl { w with caches := (w.caches.append t).1 } u := by
    rintro u ⟨s, hb, hs⟩
    refine ⟨s, hb, ?_⟩
    rw [Caches.append_latest, Caches.append_signatures, hfits.slot]
    rcases hs with hs | hs
    · by_cases hlive : w.caches.latest.slot + 1 < s + signatureTtl
      · exact .inl (ExpiringCache.mem_push_of_live hs hlive)
      · exact .inr (Nat.le_of_not_lt hlive)
    · exact .inr hs
  have hnew : (w.caches.append t).2 = .ok () → Reserved signatureTtl { w with caches := (w.caches.append t).1 } t := by
    intro hok
    obtain ⟨hfresh, hcontains⟩ := Caches.append_ok.mp hok
    obtain ⟨b, hb, hhash, -⟩ := h.history.of_contains hcontains
    refine ⟨w.caches.latest.slot + 1, ⟨b, hb, hhash, Nat.lt_succ_of_le (h.history.slots b hb)⟩, .inl ?_⟩
    rw [hfits.slot] at hfresh
    have hexpiry : w.caches.signatures.expiry (w.caches.latest.slot + 1) = w.caches.latest.slot + 1 + signatureTtl := by
      rw [← h.ttl]
      exact ExpiringCache.expiry_eq (h.ttl ▸ hfits)
    rw [Caches.append_signatures, hfits.slot, ← hexpiry]
    exact ExpiringCache.mem_push_of_new hfresh
  refine ⟨by simpa [Admissions.append] using h.history, h.hashes, by simpa [Admissions.append] using h.signatures.push,
    by simpa [Admissions.append] using h.ttl, ?_, ?_⟩
  · intro u hu
    dsimp only [Admissions.append] at hu
    split at hu
    · next hok =>
      rcases List.mem_append.mp hu with hu | hu
      · exact hkeep u (h.reserved u hu)
      · rw [List.mem_singleton.mp hu]
        exact hnew hok
    · exact hkeep u (h.reserved u hu)
  · dsimp only [Admissions.append]
    split
    · next hok =>
      exact List.nodup_append.mpr ⟨h.nodup, by simp, by
        rintro a ha b hb rfl
        rw [List.mem_singleton.mp hb] at ha
        exact h.notMem_of_append_ok hle hfits hok ha⟩
    · exact h.nodup

private theorem Consecutive.last_slot {latest : Block η} {history : List (BlockHistoryEntry η)}
    (h : Consecutive latest history) : (history.map (·.block.slot)).getLast? = some latest.slot := by
  have := congrArg (Option.map (·.slot)) h.last
  rwa [← List.getLast?_map, List.map_map] at this

private theorem Consecutive.slot_le {latest : Block η} {history : List (BlockHistoryEntry η)}
    (h : Consecutive latest history) {entry : BlockHistoryEntry η} (hentry : entry ∈ history) :
    entry.block.slot ≤ latest.slot := by
  have hsorted : (history.map (·.block.slot)).Pairwise (· < ·) :=
    (h.chain.imp fun s s' hs => by omega).pairwise
  obtain ⟨before, hsplit⟩ := List.getLast?_eq_some_iff.mp h.last_slot
  have hmem : entry.block.slot ∈ before ++ [latest.slot] := hsplit ▸ List.mem_map_of_mem hentry
  rw [hsplit, List.pairwise_append] at hsorted
  rcases List.mem_append.mp hmem with hbefore | hself
  · exact Nat.le_of_lt (hsorted.2.2 _ hbefore _ List.mem_cons_self)
  · exact (List.mem_singleton.mp hself).le

variable [DecidableEq η]

theorem Sound.block (hpos : 0 < blockTtl) (hle : blockTtl ≤ signatureTtl) (h : w.Sound blockTtl signatureTtl)
    (hfits : w.Fits signatureTtl) {b : Block η} (hslot : b.slot = w.caches.latest.slot + 1) (hnew : b.hash ∉ w.blocks.map (·.hash)) :
    Sound blockTtl signatureTtl { w with caches := w.caches.pushBlock b, blocks := w.blocks ++ [b] } where
  history := by
    refine h.history.push hpos hslot ?_
    rw [hslot]
    exact Nat.lt_of_le_of_lt (Nat.add_le_add_left hle _) hfits
  hashes := by
    rw [List.map_append, List.nodup_append]
    refine ⟨h.hashes, by simp, ?_⟩
    rintro a ha _ hb rfl
    obtain rfl : a = b.hash := by simpa using hb
    exact hnew ha
  signatures := h.signatures
  ttl := h.ttl
  reserved t ht := by
    obtain ⟨s, ⟨a, ha, hhash, has⟩, hs⟩ := h.reserved t ht
    refine ⟨s, ⟨a, List.mem_append_left _ ha, hhash, has⟩, hs.imp_right fun hs => ?_⟩
    simp only [Caches.pushBlock]
    omega
  nodup := h.nodup

theorem Step.fits (hstep : Step w w') (h : w'.Fits signatureTtl) : w.Fits signatureTtl := by
  cases hstep with
  | append t => simpa [Fits, Admissions.append] using h
  | block b hslot hnew =>
    simp only [Fits, Caches.pushBlock] at h ⊢
    omega
  | status t status => exact h

theorem Sound.step (hpos : 0 < blockTtl) (hle : blockTtl ≤ signatureTtl) (h : w.Sound blockTtl signatureTtl)
    (hfits : w.Fits signatureTtl) (hstep : Step w w') : w'.Sound blockTtl signatureTtl := by
  cases hstep with
  | append t => exact h.append hle hfits t
  | block b hslot hnew => exact h.block hpos hle hfits hslot hnew
  | status t status => exact h.status t status

/-! ### Starting a process -/

private theorem restore_history {c : Caches η σ} {blocks : List (Block η)} {slot : Nat} (hpos : 0 < blockTtl)
    (h : History blockTtl blocks slot c.history) {history : List (BlockHistoryEntry η)}
    (hchain : (slot :: history.map (·.block.slot)).IsChain fun s s' => s' = s + 1)
    (hfits : ∀ entry ∈ history, entry.block.slot + blockTtl < 2 ^ 64) :
    ∃ slot', ((slot :: history.map (·.block.slot)).getLast? = some slot') ∧
      History blockTtl (blocks ++ history.map (·.block)) slot' (history.foldl Caches.restore c).history := by
  induction history generalizing c blocks slot with
  | nil => exact ⟨slot, rfl, by simpa using h⟩
  | cons entry rest ih =>
    rw [List.map_cons, List.isChain_cons_cons] at hchain
    obtain ⟨slot', hlast, hhistory⟩ := @ih (c.restore entry) (blocks ++ [entry.block]) entry.block.slot
      (h.push hpos hchain.1 (hfits entry List.mem_cons_self)) hchain.2 fun e he => hfits e (List.mem_cons_of_mem _ he)
    refine ⟨slot', by simpa using hlast, ?_⟩
    simpa using hhistory

private theorem pushAll_signatures {cache : ExpiringCache SignaturePrefix (Option σ)} (h : cache.Consistent)
    (slot : Nat) (keys : List SignaturePrefix) :
    (keys.foldl (fun cache key => (cache.push key none slot).1) cache).Consistent ∧
      (keys.foldl (fun cache key => (cache.push key none slot).1) cache).ttl = cache.ttl := by
  induction keys generalizing cache with
  | nil => exact ⟨h, rfl⟩
  | cons key keys ih =>
    obtain ⟨hcons, httl⟩ := @ih (cache.push key none slot).1 h.push
    exact ⟨hcons, httl.trans ExpiringCache.push_ttl⟩

private theorem restore_signatures {c : Caches η σ} (hc : c.signatures.Consistent)
    (history : List (BlockHistoryEntry η)) :
    (history.foldl Caches.restore c).signatures.Consistent ∧
      (history.foldl Caches.restore c).signatures.ttl = c.signatures.ttl ∧
      (history.foldl Caches.restore c).latest = c.latest := by
  induction history generalizing c with
  | nil => exact ⟨hc, rfl, rfl⟩
  | cons entry rest ih =>
    obtain ⟨hcons, httl⟩ := pushAll_signatures hc entry.block.slot entry.signatures
    obtain ⟨h₁, h₂, h₃⟩ := @ih (c.restore entry) hcons
    exact ⟨h₁, h₂.trans httl, h₃⟩

theorem Sound.start (hpos : 0 < blockTtl) (hle : blockTtl ≤ signatureTtl) {latest : Block η}
    {history : List (BlockHistoryEntry η)} (h : Consecutive latest history)
    (hfits : (Admissions.start latest blockTtl signatureTtl history : Admissions η σ).Fits signatureTtl) :
    (Admissions.start latest blockTtl signatureTtl history : Admissions η σ).Sound blockTtl signatureTtl := by
  obtain ⟨hsig, httl, hlatest⟩ :=
    @restore_signatures η σ _ (Caches.new latest blockTtl signatureTtl) (.new signatureTtl) history
  have hhashes : ((history.map (·.block)).map (·.hash)).Nodup := by
    rw [List.map_map]
    exact h.nodup
  have hfits' : ∀ entry ∈ history, entry.block.slot + blockTtl < 2 ^ 64 := by
    intro entry hentry
    have hslot := h.slot_le hentry
    have hbound : latest.slot + 1 + signatureTtl < 2 ^ 64 := by
      rw [Fits, Admissions.start, Caches.start, hlatest] at hfits
      exact hfits
    omega
  refine ⟨?_, hhashes, hsig, httl, by simp [Admissions.start], by simp [Admissions.start]⟩
  cases history with
  | nil => simpa using h.last
  | cons entry rest =>
    obtain ⟨hfirst, hrest⟩ := List.forall_mem_cons.mp hfits'
    obtain ⟨slot, hslot, hhistory⟩ := @restore_history η σ blockTtl _
      ((Caches.new latest blockTtl signatureTtl).restore entry) [entry.block] entry.block.slot hpos (.first hpos hfirst)
      rest (by simpa using h.chain) hrest
    obtain rfl : slot = latest.slot := Option.some.inj (hslot.symm.trans h.last_slot)
    show History _ _ (Caches.start latest blockTtl signatureTtl (entry :: rest) : Caches η σ).latest.slot _
    rw [show (Caches.start latest blockTtl signatureTtl (entry :: rest) : Caches η σ).latest = latest from hlatest]
    exact hhistory

/-- Within one process no transaction is admitted twice, although every push sweeps a bounded number of expired
entries only. -/
theorem admitted_nodup (hpos : 0 < blockTtl) (hle : blockTtl ≤ signatureTtl) {latest : Block η}
    {history : List (BlockHistoryEntry η)} (hstart : Consecutive latest history)
    (hrun : Relation.ReflTransGen Step (start latest blockTtl signatureTtl history) w) (hfits : w.Fits signatureTtl) :
    w.admitted.Nodup := by
  have hsound : w.Fits signatureTtl → w.Sound blockTtl signatureTtl := by
    -- a bound on the last slot bounds every slot before it
    clear hfits
    induction hrun with
    | refl => exact Sound.start hpos hle hstart
    | tail _ hstep ih =>
      intro hfits
      have hbefore := hstep.fits hfits
      exact (ih hbefore).step hpos hle hbefore hstep
  exact (hsound hfits).nodup

private def genesis : Block Nat := { slot := 0, hash := 0, time := 0, parent := 0 }

private def signedWith (signature : Signature) : LedgerTransaction Nat where
  view := { signatures := [signature], numRequiredSignatures := 1, staticAccountKeys := [default], instructions := []
            writableCache := 1, keys_nodup := by decide }
  recentBlockhash := 0

private def payment : LedgerTransaction Nat := signedWith default

/-- A payment is submitted, and again two blocks later, when its signature has been swept. -/
def resubmitted : Admissions Nat Unit :=
  let w : Admissions Nat Unit := start genesis 1 2 [⟨genesis, []⟩]
  let c := (((w.caches.append payment).1.pushBlock ⟨1, 1, 0, 0⟩).pushBlock ⟨2, 2, 0, 1⟩).append payment
  { caches := c.1, blocks := [genesis, ⟨1, 1, 0, 0⟩, ⟨2, 2, 0, 1⟩], admitted := [payment] }

private theorem genesis_consecutive : Consecutive genesis [⟨genesis, []⟩] := ⟨by decide, rfl, by decide⟩

theorem resubmitted_once : resubmitted.admitted = [payment] ∧ resubmitted.admitted.Nodup := by
  refine ⟨rfl, admitted_nodup (Nat.le_refl 1) (Nat.le_succ 1) genesis_consecutive ?_ ?_⟩
  · exact .tail (.tail (.tail (.tail .refl (.append _ payment)) (.block _ ⟨1, 1, 0, 0⟩ rfl (by decide)))
      (.block _ ⟨2, 2, 0, 1⟩ rfl (by decide))) (.append _ payment)
  · show 2 + 1 + 2 < 2 ^ 64
    decide

/-- The time to live the builder computes for a block time of zero. -/
private def wideTtl : Nat := 2 ^ 64 - 1

private def otherPayment : LedgerTransaction Nat := signedWith ⟨.twoPow 512 500⟩

/-- A payment, another one and the first one again, all within one slot. -/
def crowded : Admissions Nat Unit :=
  (((start genesis wideTtl wideTtl [⟨genesis, []⟩]).append payment).append otherPayment).append payment

/-- With a time to live of `2 ^ 64 - 1` a signature pushed at slot 1 expires at slot 0, so the next push sweeps it. -/
theorem append_twice_admitted : 0 < wideTtl ∧ wideTtl < 2 ^ 64 ∧ Consecutive genesis [⟨genesis, []⟩] ∧
    Relation.ReflTransGen Step (start genesis wideTtl wideTtl [⟨genesis, []⟩]) crowded ∧ ¬ crowded.admitted.Nodup := by
  refine ⟨by decide, by decide, genesis_consecutive, ?_, by decide +kernel⟩
  exact .tail (.tail (.tail .refl (.append _ payment)) (.append _ otherPayment)) (.append _ payment)

end Admissions

end MagicEngine
