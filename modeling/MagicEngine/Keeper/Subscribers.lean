import Mathlib.Data.Finmap

/-!
# Subscribers

`Subscribers` (`keeper/src/subscriptions.rs`) maps keys to lists of senders and counts its keys. The counter is read
without a lock, so every change of it is a step of its own: a registration counts its key and pushes the sender
afterwards, and meanwhile it holds the bucket lock; `remove` takes a list out of the map first and lowers the counter
when the lock is gone, so the counter also has the lists that were detached meanwhile. It is zero only when the map is
empty (`Counted.entries_eq_empty`), and then `remove` does not look at the map.
-/

namespace MagicEngine

structure Subscribers (κ σ : Type) where
  entries : Finmap (fun _ : κ => List σ) := ∅
  keys : Nat := 0
  /-- The keys whose buckets are locked by a registration. -/
  held : List κ := []

namespace Subscribers

variable {κ σ : Type} [DecidableEq κ]

def isEmpty (s : Subscribers κ σ) : Bool := s.keys == 0

def senders (s : Subscribers κ σ) (key : κ) : List σ := (s.entries.lookup key).getD []

/-- The first half of `insert`: `entry_sync` locks the bucket, `or_default` makes an empty list. -/
def count (s : Subscribers κ σ) (key : κ) : Subscribers κ σ where
  entries := s.entries.insert key (s.senders key)
  keys := if (s.senders key).isEmpty then s.keys + 1 else s.keys
  held := key :: s.held

/-- The second half of `insert`. -/
def push (s : Subscribers κ σ) (key : κ) (sender : σ) : Subscribers κ σ :=
  { s with entries := s.entries.insert key (s.senders key ++ [sender]), held := s.held.erase key }

def insert (s : Subscribers κ σ) (key : κ) (sender : σ) : Subscribers κ σ := (s.count key).push key sender

def prune (s : Subscribers κ σ) (key : κ) (keep : σ → Bool) : Subscribers κ σ :=
  match s.entries.lookup key with
  | none => s
  | some senders =>
    if (senders.filter keep).isEmpty then { s with entries := s.entries.erase key, keys := s.keys - 1 }
    else { s with entries := s.entries.insert key (senders.filter keep) }

/-- The first half of `remove`. -/
def detach (s : Subscribers κ σ) (key : κ) : Option (List σ × Subscribers κ σ) :=
  (s.entries.lookup key).map fun senders => (senders, { s with entries := s.entries.erase key })

/-- The second half of `remove`. -/
def subtract (s : Subscribers κ σ) : Subscribers κ σ := { s with keys := s.keys - 1 }

/-- States of the map, with the number of lists that were detached and not yet subtracted. A bucket that a registration
holds is not pruned, and no list is taken from it. -/
inductive Reachable : Subscribers κ σ → Nat → Prop where
  | new : Reachable {} 0
  | count {s : Subscribers κ σ} {n : Nat} (h : Reachable s n) (key : κ) (hfree : key ∉ s.held) : Reachable (s.count key) n
  | push {s : Subscribers κ σ} {n : Nat} (h : Reachable s n) (key : κ) (sender : σ) (hheld : key ∈ s.held) :
      Reachable (s.push key sender) n
  | prune {s : Subscribers κ σ} {n : Nat} (h : Reachable s n) (key : κ) (keep : σ → Bool) (hfree : key ∉ s.held) :
      Reachable (s.prune key keep) n
  | detach {s s' : Subscribers κ σ} {n : Nat} {senders : List σ} (h : Reachable s n) (key : κ) (hfree : key ∉ s.held)
      (hdetach : s.detach key = some (senders, s')) : Reachable s' (n + 1)
  | subtract {s : Subscribers κ σ} {n : Nat} (h : Reachable s (n + 1)) : Reachable s.subtract n

variable {s s' : Subscribers κ σ} {n : Nat} {key key' : κ} {sender : σ} {senders : List σ} {keep : σ → Bool}

@[simp] theorem senders_count : (s.count key).senders = s.senders := by
  funext key'
  rcases eq_or_ne key' key with rfl | h
  · rw [Subscribers.senders, count, Finmap.lookup_insert]
    rfl
  · rw [Subscribers.senders, count, Finmap.lookup_insert_of_ne _ h]
    rfl

theorem senders_push :
    (s.push key sender).senders = Function.update s.senders key (s.senders key ++ [sender]) := by
  funext key'
  rcases eq_or_ne key' key with rfl | h
  · rw [Function.update_self, Subscribers.senders, push, Finmap.lookup_insert]
    rfl
  · rw [Function.update_of_ne h, Subscribers.senders, push, Finmap.lookup_insert_of_ne _ h]
    rfl

theorem senders_insert :
    (s.insert key sender).senders = Function.update s.senders key (s.senders key ++ [sender]) := by
  rw [insert, senders_push, senders_count]

@[simp] theorem held_insert : (s.insert key sender).held = s.held := List.erase_cons_head key s.held

@[simp] theorem held_prune : (s.prune key keep).held = s.held := by
  unfold prune
  split
  · rfl
  · split <;> rfl

theorem held_of_detach (h : s.detach key = some (senders, s')) : s'.held = s.held := by
  obtain ⟨l, -, heq⟩ := Option.map_eq_some_iff.mp h
  cases heq
  rfl

theorem senders_prune :
    (s.prune key keep).senders = Function.update s.senders key ((s.senders key).filter keep) := by
  funext key'
  cases hkey : s.entries.lookup key with
  | none =>
    have hprune : s.prune key keep = s := by simp only [prune, hkey]
    rcases eq_or_ne key' key with rfl | h
    · simp [hprune, Subscribers.senders, hkey]
    · rw [hprune, Function.update_of_ne h]
  | some senders =>
    simp only [prune, hkey]
    rcases eq_or_ne key' key with rfl | h
    · split
      · next hempty => simp [Subscribers.senders, hkey, List.isEmpty_iff.mp hempty]
      · simp [Subscribers.senders, hkey]
    · rw [Function.update_of_ne h]
      split
      · rw [Subscribers.senders, Finmap.lookup_erase_ne h]
        rfl
      · rw [Subscribers.senders, Finmap.lookup_insert_of_ne _ h]
        rfl

theorem detach_eq_some (h : s.detach key = some (senders, s')) :
    s.senders key = senders ∧ s'.senders = Function.update s.senders key [] := by
  obtain ⟨l, hkey, heq⟩ := Option.map_eq_some_iff.mp h
  cases heq
  refine ⟨by simp [Subscribers.senders, hkey], funext fun key' => ?_⟩
  rcases eq_or_ne key' key with rfl | h
  · simp [Subscribers.senders]
  · rw [Function.update_of_ne h, Subscribers.senders, Finmap.lookup_erase_ne h]
    rfl

theorem senders_of_detach_eq_none (h : s.detach key = none) : s.senders key = [] := by
  rw [Subscribers.senders, Option.map_eq_none_iff.mp h]
  rfl

/-- Only a registration leaves a list empty, and the counter has the keys and the detached lists. -/
structure Counted (s : Subscribers κ σ) (n : Nat) : Prop where
  nonempty : ∀ key ∉ s.held, s.entries.lookup key ≠ some []
  held : ∀ key ∈ s.held, key ∈ s.entries
  keys : s.keys = s.entries.keys.card + n

private theorem card_keys_insert (entries : Finmap (fun _ : κ => List σ)) (key : κ) (senders : List σ) :
    (entries.insert key senders).keys.card = if key ∈ entries then entries.keys.card else entries.keys.card + 1 := by
  have hkeys : (entries.insert key senders).keys = Insert.insert key entries.keys := by
    ext k
    simp [Finmap.mem_keys]
  rw [hkeys]
  split
  · next h => rw [Finset.insert_eq_of_mem (Finmap.mem_keys.mpr h)]
  · next h => rw [Finset.card_insert_of_notMem fun hk => h (Finmap.mem_keys.mp hk)]

private theorem card_keys_erase (entries : Finmap (fun _ : κ => List σ)) {key : κ} (h : key ∈ entries) :
    (entries.erase key).keys.card + 1 = entries.keys.card := by
  have hkeys : (entries.erase key).keys = entries.keys.erase key := by
    ext k
    simp [Finmap.mem_keys]
  rw [hkeys, Finset.card_erase_add_one (Finmap.mem_keys.mpr h)]

namespace Counted

theorem mem_iff (h : s.Counted n) (hfree : key ∉ s.held) : key ∈ s.entries ↔ (s.senders key).isEmpty = false := by
  rw [Finmap.mem_iff, Subscribers.senders]
  cases hkey : s.entries.lookup key with
  | none => simp
  | some senders =>
    have hne : senders ≠ [] := fun heq => h.nonempty key hfree (heq ▸ hkey)
    simpa using hne

theorem count (h : s.Counted n) (hfree : key ∉ s.held) : (s.count key).Counted n where
  nonempty key' hkey' := by
    have hne := List.ne_of_not_mem_cons hkey'
    rw [Subscribers.count, Finmap.lookup_insert_of_ne _ hne]
    exact h.nonempty key' (List.not_mem_of_not_mem_cons hkey')
  held key' hkey' := by
    rw [Subscribers.count, Finmap.mem_insert]
    rcases List.mem_cons.mp hkey' with heq | hheld
    · exact .inl heq
    · exact .inr (h.held key' hheld)
  keys := by
    have hkeys := h.keys
    have hmem := h.mem_iff hfree
    simp only [Subscribers.count, card_keys_insert, hmem]
    cases (s.senders key).isEmpty <;> simp <;> omega

theorem push (h : s.Counted n) (hheld : key ∈ s.held) : (s.push key sender).Counted n where
  nonempty key' hkey' := by
    rw [Subscribers.push]
    by_cases hkey : key' = key
    · rw [hkey, Finmap.lookup_insert]
      simp
    · rw [Finmap.lookup_insert_of_ne _ hkey]
      exact h.nonempty key' fun hmem => hkey' ((List.mem_erase_of_ne hkey).mpr hmem)
  held key' hkey' := by
    rw [Subscribers.push, Finmap.mem_insert]
    exact .inr (h.held key' (List.mem_of_mem_erase hkey'))
  keys := by
    simp only [Subscribers.push, card_keys_insert, h.held key hheld, if_true]
    exact h.keys

private theorem mem_erase_of_free {key' : κ} (h : s.Counted n) (hfree : key ∉ s.held) (hheld : key' ∈ s.held) :
    key' ∈ s.entries.erase key := by
  rw [Finmap.mem_erase]
  refine ⟨?_, h.held key' hheld⟩
  rintro rfl
  exact hfree hheld

private theorem lookup_erase_ne_nil {key' : κ} (h : s.Counted n) (hkey' : key' ∉ s.held) :
    (s.entries.erase key).lookup key' ≠ some [] := by
  by_cases heq : key' = key
  · rw [heq, Finmap.lookup_erase]
    nofun
  · rw [Finmap.lookup_erase_ne heq]
    exact h.nonempty key' hkey'

theorem prune (h : s.Counted n) (hfree : key ∉ s.held) : (s.prune key keep).Counted n := by
  cases hkey : s.entries.lookup key with
  | none =>
    have hprune : s.prune key keep = s := by simp only [Subscribers.prune, hkey]
    rwa [hprune]
  | some senders =>
    have hmem : key ∈ s.entries := Finmap.mem_iff.mpr ⟨senders, hkey⟩
    have hkeys := h.keys
    simp only [Subscribers.prune, hkey]
    split
    · refine ⟨fun key' => h.lookup_erase_ne_nil, fun key' => h.mem_erase_of_free hfree, ?_⟩
      have := card_keys_erase s.entries hmem
      dsimp only
      omega
    · next hsome =>
      refine ⟨fun key' hkey' => ?_, fun key' hheld => ?_, ?_⟩
      · by_cases heq : key' = key
        · rw [heq, Finmap.lookup_insert]
          exact fun heq => hsome (by rw [Option.some.inj heq]; rfl)
        · rw [Finmap.lookup_insert_of_ne _ heq]
          exact h.nonempty key' hkey'
      · exact Finmap.mem_insert.mpr (.inr (h.held key' hheld))
      · dsimp only
        rw [card_keys_insert, if_pos hmem]
        exact hkeys

theorem detach (h : s.Counted n) (hfree : key ∉ s.held) (hdetach : s.detach key = some (senders, s')) :
    s'.Counted (n + 1) := by
  obtain ⟨l, hkey, heq⟩ := Option.map_eq_some_iff.mp hdetach
  cases heq
  have hkeys := h.keys
  have := card_keys_erase s.entries (Finmap.mem_iff.mpr ⟨_, hkey⟩)
  exact ⟨fun key' => h.lookup_erase_ne_nil, fun key' => h.mem_erase_of_free hfree, by dsimp only; omega⟩

theorem subtract (h : s.Counted (n + 1)) : s.subtract.Counted n := by
  have hkeys := h.keys
  exact ⟨h.nonempty, h.held, by simp only [Subscribers.subtract]; omega⟩

theorem entries_eq_empty (h : s.Counted n) (hempty : s.isEmpty) : s.entries = ∅ := by
  have hzero : s.keys = 0 := by simpa [isEmpty] using hempty
  have hkeys := h.keys
  have hcard : s.entries.keys = ∅ := Finset.card_eq_zero.mp (by omega)
  refine Finmap.ext_lookup fun key => ?_
  rw [Finmap.lookup_empty, Finmap.lookup_eq_none]
  exact fun hmem => Finset.notMem_empty key (hcard ▸ Finmap.mem_keys.mpr hmem)

end Counted

theorem Reachable.counted (h : Reachable s n) : s.Counted n := by
  induction h with
  | new => exact ⟨fun _ _ => by simp, nofun, rfl⟩
  | count _ key hfree ih => exact ih.count hfree
  | push _ key sender hheld ih => exact ih.push hheld
  | prune _ key keep hfree ih => exact ih.prune hfree
  | detach _ key hfree hdetach ih => exact ih.detach hfree hdetach
  | subtract _ ih => exact ih.subtract

theorem Reachable.senders_of_isEmpty (h : Reachable s n) (hempty : s.isEmpty) (key : κ) : s.senders key = [] := by
  rw [Subscribers.senders, h.counted.entries_eq_empty hempty]
  rfl

end Subscribers

end MagicEngine
