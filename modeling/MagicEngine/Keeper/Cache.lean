import Mathlib.Logic.Function.Basic
import MagicEngine.Ledger.Entry

/-!
# Caches that expire by slot

`ExpiringCache` (`keeper/src/cache.rs`) is a map with a queue of expiry slots. A push first takes at most
`evictionLimit` expired records off the front of the queue and then inserts the key unless it is still there; nothing
else removes a key. The block history and the processed signatures are two such caches, filled at different rates.

* `Consistent`: a key is in the map exactly when it has a record in the queue, and then it has only one;
* `History`: a history pushed once per slot is always swept completely, so it holds no expired hash;
* a record that has not expired survives every push (`mem_push_of_live`);
* `Ordered`: pushes at slots that never go back keep the queue in the order of expiry (`Ordered.run`).

The expiry slot is a `u64` sum, which wraps around in a release build. The last two facts are about pushes whose sum
stays below `2 ^ 64`.
-/

namespace MagicEngine

structure ExpiringRecord (κ : Type) where
  key : κ
  expires : Nat
deriving DecidableEq, Repr

def evictionLimit : Nat := 16

structure ExpiringCache (κ ν : Type) where
  index : κ → Option ν
  queue : List (ExpiringRecord κ)
  ttl : Nat

namespace ExpiringCache

variable {κ ν : Type}

def new (ttl : Nat) : ExpiringCache κ ν := { index := fun _ => none, queue := [], ttl }

def contains (c : ExpiringCache κ ν) (key : κ) : Bool := (c.index key).isSome

def get (c : ExpiringCache κ ν) (key : κ) : Option ν := c.index key

/-- The expiry slot of an entry pushed at `slot`. -/
def expiry (c : ExpiringCache κ ν) (slot : Nat) : Nat := (slot + c.ttl) % 2 ^ 64

theorem expiry_eq {c : ExpiringCache κ ν} {slot : Nat} (h : slot + c.ttl < 2 ^ 64) : c.expiry slot = slot + c.ttl :=
  Nat.mod_eq_of_lt h

/-- The queue has one record for every key of the map. -/
structure Consistent (c : ExpiringCache κ ν) : Prop where
  mem : ∀ key, c.contains key ↔ key ∈ c.queue.map (·.key)
  nodup : (c.queue.map (·.key)).Nodup

theorem Consistent.new (ttl : Nat) : (ExpiringCache.new ttl : ExpiringCache κ ν).Consistent where
  mem key := by simp [ExpiringCache.new, contains]
  nodup := by simp [ExpiringCache.new]

variable [DecidableEq κ]

/-- Take records expired at `slot` off the queue, at most as many as the limit allows. -/
def sweep (slot : Nat) : Nat → ExpiringCache κ ν → ExpiringCache κ ν
  | 0, c => c
  | limit + 1, c =>
    match c.queue with
    | [] => c
    | record :: rest =>
      if record.expires ≤ slot then
        sweep slot limit { c with index := Function.update c.index record.key none, queue := rest }
      else c

/-- Sweep, then insert; `false` if the key is still there, whose value and expiry are left alone. -/
def push (c : ExpiringCache κ ν) (key : κ) (value : ν) (slot : Nat) : ExpiringCache κ ν × Bool :=
  let c := c.sweep slot evictionLimit
  match c.index key with
  | some _ => (c, false)
  | none =>
    ({ c with index := Function.update c.index key (some value), queue := c.queue ++ [⟨key, c.expiry slot⟩] }, true)

/-- Replace the value of a key that is there; its expiry stays. -/
def update (c : ExpiringCache κ ν) (key : κ) (value : ν) : ExpiringCache κ ν :=
  if c.contains key then { c with index := Function.update c.index key (some value) } else c

variable {c : ExpiringCache κ ν} {key : κ} {value : ν} {slot limit : Nat} {r : ExpiringRecord κ}

/-! ### Sweeping -/

private theorem Consistent.pop (h : c.Consistent) {rest : List (ExpiringRecord κ)} (hq : c.queue = r :: rest) :
    ({ c with index := Function.update c.index r.key none, queue := rest } : ExpiringCache κ ν).Consistent := by
  have hnodup := h.nodup
  rw [hq, List.map_cons, List.nodup_cons] at hnodup
  refine ⟨fun key => ?_, hnodup.2⟩
  have hmem := h.mem key
  rw [hq, List.map_cons, List.mem_cons] at hmem
  by_cases hkey : key = r.key
  · subst hkey
    simpa [contains] using hnodup.1
  · simpa [contains, Function.update_of_ne hkey, hkey] using hmem

theorem Consistent.sweep (h : c.Consistent) : (c.sweep slot limit).Consistent := by
  induction limit generalizing c with
  | zero => exact h
  | succ limit ih =>
    unfold ExpiringCache.sweep
    split
    · exact h
    · next record rest hq =>
      split
      · exact ih (h.pop hq)
      · exact h

@[simp]
theorem sweep_ttl : (c.sweep slot limit).ttl = c.ttl := by
  induction limit generalizing c with
  | zero => rfl
  | succ limit ih =>
    unfold sweep
    split
    · rfl
    · split
      · rw [ih]
      · rfl

theorem sweep_queue (slot limit : Nat) (c : ExpiringCache κ ν) :
    ∃ swept, c.queue = swept ++ (c.sweep slot limit).queue ∧ ∀ r ∈ swept, r.expires ≤ slot := by
  induction limit generalizing c with
  | zero => exact ⟨[], rfl, by simp⟩
  | succ limit ih =>
    unfold sweep
    split
    · exact ⟨[], rfl, by simp⟩
    · next record rest hq =>
      split
      · next hexp =>
        obtain ⟨swept, hrest, hswept⟩ := ih { c with index := Function.update c.index record.key none, queue := rest }
        refine ⟨record :: swept, by rw [hq, List.cons_append, ← hrest], ?_⟩
        intro r hr
        rcases List.mem_cons.mp hr with rfl | hr
        · exact hexp
        · exact hswept r hr
      · exact ⟨[], rfl, by simp⟩

theorem mem_sweep_of_live (hr : r ∈ c.queue) (hlive : slot < r.expires) : r ∈ (c.sweep slot limit).queue := by
  obtain ⟨swept, hq, hswept⟩ := sweep_queue slot limit c
  rw [hq] at hr
  rcases List.mem_append.mp hr with hr | hr
  · have := hswept r hr
    omega
  · exact hr

theorem sweep_queue_sublist : (c.sweep slot limit).queue.Sublist c.queue := by
  obtain ⟨swept, hq, -⟩ := sweep_queue slot limit c
  rw [hq]
  exact List.sublist_append_right swept _

/-- With one record per slot and nothing overdue, a sweep leaves nothing expired. -/
theorem sweep_complete (hsorted : c.queue.Pairwise (·.expires < ·.expires)) (hdue : ∀ r ∈ c.queue, slot ≤ r.expires)
    (hr : r ∈ (c.sweep slot (limit + 1)).queue) : slot < r.expires := by
  cases hq : c.queue with
  | nil => simp [sweep, hq] at hr
  | cons record rest =>
    rw [hq, List.pairwise_cons] at hsorted
    have hfirst := hdue record (by simp [hq])
    have hrest : ∀ r ∈ rest, slot < r.expires := fun r hr => Nat.lt_of_le_of_lt hfirst (hsorted.1 r hr)
    unfold sweep at hr
    simp only [hq] at hr
    split at hr
    · exact hrest r (sweep_queue_sublist.subset hr)
    · rw [hq] at hr
      rcases List.mem_cons.mp hr with rfl | hr
      · omega
      · exact hrest r hr

/-! ### Pushing -/

theorem push_of_contains (h : (c.sweep slot evictionLimit).contains key) :
    c.push key value slot = (c.sweep slot evictionLimit, false) := by
  obtain ⟨v, hv⟩ := Option.isSome_iff_exists.mp h
  simp only [push, hv]

theorem push_of_not_contains (h : ¬ (c.sweep slot evictionLimit).contains key) : c.push key value slot =
    ({ c.sweep slot evictionLimit with
        index := Function.update (c.sweep slot evictionLimit).index key (some value)
        queue := (c.sweep slot evictionLimit).queue ++ [⟨key, c.expiry slot⟩] }, true) := by
  have hnone : (c.sweep slot evictionLimit).index key = none := by simpa [contains] using h
  simp only [push, hnone, expiry, sweep_ttl]

/-- A push succeeds exactly for a key the sweep left no record of. -/
theorem push_result : (c.push key value slot).2 = true ↔ ¬ (c.sweep slot evictionLimit).contains key := by
  by_cases h : (c.sweep slot evictionLimit).contains key
  · simp [push_of_contains h, h]
  · simp [push_of_not_contains h, h]

@[simp]
theorem push_ttl : (c.push key value slot).1.ttl = c.ttl := by
  by_cases h : (c.sweep slot evictionLimit).contains key
  · rw [push_of_contains h, sweep_ttl]
  · rw [push_of_not_contains h, sweep_ttl]

theorem push_queue : (c.push key value slot).1.queue = (c.sweep slot evictionLimit).queue ++
    if (c.push key value slot).2 then [⟨key, c.expiry slot⟩] else [] := by
  by_cases h : (c.sweep slot evictionLimit).contains key
  · simp [push_of_contains h]
  · simp [push_of_not_contains h]

theorem Consistent.push (h : c.Consistent) : (c.push key value slot).1.Consistent := by
  have hs : (c.sweep slot evictionLimit).Consistent := h.sweep
  by_cases hkey : (c.sweep slot evictionLimit).contains key
  · rwa [push_of_contains hkey]
  · have hnew := (hs.mem key).not.mp hkey
    rw [push_of_not_contains hkey]
    refine ⟨fun k => ?_, ?_⟩
    · rw [List.map_append, List.mem_append, ← hs.mem k]
      by_cases hk : k = key
      · simp [contains, hk]
      · simp [contains, hk]
    · rw [List.map_append, List.nodup_append]
      refine ⟨hs.nodup, by simp, ?_⟩
      rintro k hk k' hk' rfl
      obtain rfl : k = key := by simpa using hk'
      exact hnew hk

theorem mem_push_of_live (hr : r ∈ c.queue) (hlive : slot < r.expires) : r ∈ (c.push key value slot).1.queue := by
  rw [push_queue]
  exact List.mem_append_left _ (mem_sweep_of_live hr hlive)

theorem mem_of_mem_push (hr : r ∈ (c.push key value slot).1.queue) : r ∈ c.queue ∨ r = ⟨key, c.expiry slot⟩ := by
  rw [push_queue, List.mem_append] at hr
  rcases hr with hr | hr
  · exact .inl (sweep_queue_sublist.subset hr)
  · split at hr
    · exact .inr (List.mem_singleton.mp hr)
    · cases hr

theorem mem_push_of_new (h : (c.push key value slot).2 = true) :
    ⟨key, c.expiry slot⟩ ∈ (c.push key value slot).1.queue := by
  rw [push_queue, if_pos h]
  simp

/-- After a push the key is there, as a new one or as the old one. -/
theorem contains_push : (c.push key value slot).1.contains key := by
  by_cases h : (c.sweep slot evictionLimit).contains key
  · rwa [push_of_contains h]
  · simp [push_of_not_contains h, contains]

theorem index_of_sweep {k : κ} {v : ν} (h : (c.sweep slot limit).index k = some v) : c.index k = some v := by
  induction limit generalizing c with
  | zero => exact h
  | succ limit ih =>
    unfold sweep at h
    split at h
    · exact h
    · next record rest hq =>
      split at h
      · rcases update_eq_some (ih h) with ⟨-, hnone⟩ | ⟨-, hold⟩
        · cases hnone
        · exact hold
      · exact h

theorem index_of_push {k : κ} {v : ν} (h : (c.push key value slot).1.index k = some v) :
    c.index k = some v ∨ k = key ∧ v = value := by
  by_cases hkey : (c.sweep slot evictionLimit).contains key
  · rw [push_of_contains hkey] at h
    exact .inl (index_of_sweep h)
  · rw [push_of_not_contains hkey] at h
    rcases update_eq_some h with ⟨hk, hv⟩ | ⟨-, hold⟩
    · exact .inr ⟨hk, (Option.some.inj hv).symm⟩
    · exact .inl (index_of_sweep hold)

/-! ### Updating -/

@[simp]
theorem update_queue : (c.update key value).queue = c.queue := by
  unfold update
  split <;> rfl

@[simp]
theorem update_ttl : (c.update key value).ttl = c.ttl := by
  unfold update
  split <;> rfl

theorem Consistent.update (h : c.Consistent) : (c.update key value).Consistent := by
  refine ⟨fun k => ?_, by simpa using h.nodup⟩
  rw [update_queue, ← h.mem k]
  unfold ExpiringCache.update
  split
  · next hkey =>
    by_cases hk : k = key
    · subst hk
      simpa [contains] using hkey
    · simp [contains, Function.update_of_ne hk]
  · rfl

/-! ### Runs -/

inductive Op (κ ν : Type) where
  | push (key : κ) (value : ν) (slot : Nat)
  | update (key : κ) (value : ν)
deriving DecidableEq, Repr

def Op.slot? : Op κ ν → Option Nat
  | .push _ _ slot => some slot
  | .update _ _ => none

def apply (c : ExpiringCache κ ν) : Op κ ν → ExpiringCache κ ν
  | .push key value slot => (c.push key value slot).1
  | .update key value => c.update key value

def run (c : ExpiringCache κ ν) (ops : List (Op κ ν)) : ExpiringCache κ ν := ops.foldl apply c

theorem run_append (c : ExpiringCache κ ν) (ops ops' : List (Op κ ν)) : c.run (ops ++ ops') = (c.run ops).run ops' :=
  List.foldl_append

theorem apply_ttl (op : Op κ ν) : (c.apply op).ttl = c.ttl := by
  cases op with
  | push key value slot => exact push_ttl
  | update key value => exact update_ttl

theorem run_ttl (ops : List (Op κ ν)) : (c.run ops).ttl = c.ttl := by
  induction ops generalizing c with
  | nil => rfl
  | cons op ops ih => exact (ih).trans (apply_ttl op)

theorem Consistent.run (h : c.Consistent) (ops : List (Op κ ν)) : (c.run ops).Consistent := by
  induction ops generalizing c with
  | nil => exact h
  | cons op ops ih =>
    cases op with
    | push key value slot => exact ih h.push
    | update key value => exact ih h.update

/-- The queue is in the order of expiry, and nothing in it was pushed after `slot`. -/
structure Ordered (slot : Nat) (c : ExpiringCache κ ν) : Prop where
  sorted : c.queue.Pairwise (·.expires ≤ ·.expires)
  bound : ∀ r ∈ c.queue, r.expires ≤ slot + c.ttl

theorem Ordered.push {last : Nat} (h : c.Ordered last) (hslot : last ≤ slot) (hfits : slot + c.ttl < 2 ^ 64) :
    (c.push key value slot).1.Ordered slot := by
  have hkept : ∀ r ∈ (c.sweep slot evictionLimit).queue, r.expires ≤ slot + c.ttl := fun r hr =>
    (h.bound r (sweep_queue_sublist.subset hr)).trans (Nat.add_le_add_right hslot _)
  refine ⟨?_, fun r hr => ?_⟩
  · rw [push_queue, List.pairwise_append]
    refine ⟨h.sorted.sublist sweep_queue_sublist, by split <;> simp, fun r hr r' hr' => ?_⟩
    split at hr'
    · rw [List.mem_singleton.mp hr', expiry_eq hfits]
      exact hkept r hr
    · cases hr'
  · rw [push_ttl]
    rcases mem_of_mem_push hr with hr | rfl
    · exact (h.bound r hr).trans (Nat.add_le_add_right hslot _)
    · exact (expiry_eq hfits).le

theorem Ordered.run {last : Nat} (h : c.Ordered last) {ops : List (Op κ ν)}
    (hslots : (last :: ops.filterMap Op.slot?).Pairwise (· ≤ ·))
    (hfits : ∀ slot ∈ ops.filterMap Op.slot?, slot + c.ttl < 2 ^ 64) : ∃ slot, (c.run ops).Ordered slot := by
  induction ops generalizing c last with
  | nil => exact ⟨last, h⟩
  | cons op ops ih =>
    cases op with
    | push key value slot =>
      obtain ⟨hlast, hrest⟩ := List.pairwise_cons.mp hslots
      have hpush : (c.push key value slot).1.Ordered slot :=
        h.push (hlast slot List.mem_cons_self) (hfits slot List.mem_cons_self)
      refine ih hpush hrest fun s hs => ?_
      rw [apply_ttl]
      exact hfits s (List.mem_cons_of_mem _ hs)
    | update key value =>
      refine ih ⟨by simpa [ExpiringCache.apply] using h.sorted, by simpa [ExpiringCache.apply] using h.bound⟩ hslots ?_
      rw [apply_ttl]
      exact hfits

/-- A record survives everything that comes before it expires. -/
theorem mem_run_of_live (hr : r ∈ c.queue) {ops : List (Op κ ν)}
    (hlive : ∀ slot ∈ ops.filterMap Op.slot?, slot < r.expires) : r ∈ (c.run ops).queue := by
  induction ops generalizing c with
  | nil => exact hr
  | cons op ops ih =>
    cases op with
    | push key value slot =>
      have hslots : ∀ s ∈ slot :: ops.filterMap Op.slot?, s < r.expires := hlive
      obtain ⟨hslot, hrest⟩ := List.forall_mem_cons.mp hslots
      exact ih (mem_push_of_live hr hslot) hrest
    | update key value => exact ih (by simpa [ExpiringCache.apply] using hr) hlive

/-- Every record stands for a push of its key. -/
theorem mem_of_mem_run {ops : List (Op κ ν)} (hr : r ∈ (c.run ops).queue) :
    r ∈ c.queue ∨ ∃ value slot, .push r.key value slot ∈ ops ∧ r.expires = c.expiry slot := by
  induction ops generalizing c with
  | nil => exact .inl hr
  | cons op ops ih =>
    rcases ih hr with hr | ⟨value, slot, hop, hexpires⟩
    · cases op with
      | push key value slot =>
        rcases mem_of_mem_push hr with hr | rfl
        · exact .inl hr
        · exact .inr ⟨value, slot, List.mem_cons_self, rfl⟩
      | update key value => exact .inl (by simpa [ExpiringCache.apply] using hr)
    · refine .inr ⟨value, slot, List.mem_cons_of_mem _ hop, ?_⟩
      rw [hexpires, expiry, apply_ttl, expiry]

/-- A sweep takes the expired records at the front, as far as the limit goes. -/
theorem sweep_queue_eq (slot limit : Nat) (c : ExpiringCache κ ν) :
    (c.sweep slot limit).queue =
      c.queue.drop ((c.queue.takeWhile fun r => decide (r.expires ≤ slot)).take limit).length := by
  induction limit generalizing c with
  | zero => simp [sweep]
  | succ limit ih =>
    unfold sweep
    split
    · next hq => simp [hq]
    · next record rest hq =>
      split
      · next hexp => rw [ih, hq, List.takeWhile_cons_of_pos (by simpa using hexp)]; rfl
      · next hexp => rw [hq, List.takeWhile_cons_of_neg (by simpa using hexp)]; rfl

/-- A push is refused for a key that the sweep leaves in the queue. -/
theorem push_eq_false_iff (h : c.Consistent) : (c.push key value slot).2 = false ↔
    key ∈ (c.queue.drop ((c.queue.takeWhile fun r => decide (r.expires ≤ slot)).take evictionLimit).length).map
      (·.key) := by
  rw [← sweep_queue_eq, ← h.sweep.mem key, ← not_iff_not, Bool.not_eq_false, push_result]

end ExpiringCache

end MagicEngine
