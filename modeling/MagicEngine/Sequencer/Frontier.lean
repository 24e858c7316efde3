import Mathlib.Data.Nat.Find
import MagicEngine.Lib.ConflictOrder
import MagicEngine.Lib.Transition
import MagicEngine.Sequencer.Epoch

/-!
# Conflicts follow the input order

The table records only the direct predecessors it finds at the account frontiers: the latest writer of each
account and, for a write, the readers since. `Epoch.Fronted` says why this is enough. The frontier of an
account holds its latest writer unless that writer has completed, and every reader since; and an unfinished
ticket that conflicts with a later one is always covered by a pending predecessor of the later one, either
directly or because it conflicts with that predecessor in turn.

* `Epoch.Reachable.consistent`: both invariants hold in every state of every run;
* `Epoch.Consistent.completed_of_released`: a released ticket has no unfinished earlier conflict;
* `Epoch.Consistent.exclusive`: two transactions in flight never conflict.
-/

namespace MagicEngine

/-- The accounts a request declares: its static keys, and those among them the message may write. -/
def ExecutionRequest.access : ConflictOrder.Access Pubkey ExecutionRequest where
  touched r := r.transaction.staticAccountKeys
  written r := r.transaction.writableKeys
  written_subset r := r.transaction.writableKeys_subset

open ExecutionRequest (access)

namespace Epoch

def Touches (e : Epoch) (t : Nat) (k : Pubkey) : Prop := ∃ r, e.requests[t]? = some r ∧ k ∈ access.touched r

def Writes (e : Epoch) (t : Nat) (k : Pubkey) : Prop := ∃ r, e.requests[t]? = some r ∧ k ∈ access.written r

def Conflicting (e : Epoch) (u t : Nat) : Prop :=
  ∃ a b, e.requests[u]? = some a ∧ e.requests[t]? = some b ∧ access.Conflict a b

/-- The frontiers and the pending predecessors cover every unfinished conflict. -/
structure Fronted (e : Epoch) : Prop where
  writer_registered : ∀ k w, (e.table.accounts k).lastWriter = some w → w < e.requests.length
  reader_registered : ∀ k, ∀ t ∈ (e.table.accounts k).readers, t < e.requests.length
  last_writer : ∀ k w, e.Writes w k → (∀ j, e.Writes j k → j ≤ w) →
    (e.table.accounts k).lastWriter = some w ∨ w ∈ e.completed
  readers_since : ∀ k t, e.Touches t k → (∀ j, e.Writes j k → j < t) → t ∈ (e.table.accounts k).readers
  ordered : ∀ u t, u < t → e.Conflicting u t →
    u ∈ e.completed ∨ ∃ p ∈ e.pending t, u = p ∨ (u < p ∧ e.Conflicting u p)

structure Consistent (e : Epoch) : Prop where
  counted : e.Counted
  fronted : e.Fronted

variable {e : Epoch} {u t : Nat} {k : Pubkey}

theorem conflicting_iff :
    e.Conflicting u t ↔ ∃ k, (e.Touches u k ∧ e.Writes t k) ∨ (e.Writes u k ∧ e.Touches t k) := by
  constructor
  · rintro ⟨a, b, ha, hb, k, h | h⟩
    · exact ⟨k, Or.inl ⟨⟨a, ha, h.1⟩, ⟨b, hb, h.2⟩⟩⟩
    · exact ⟨k, Or.inr ⟨⟨a, ha, h.1⟩, ⟨b, hb, h.2⟩⟩⟩
  · rintro ⟨k, ⟨⟨a, ha, h⟩, ⟨b, hb, h'⟩⟩ | ⟨⟨a, ha, h⟩, ⟨b, hb, h'⟩⟩⟩
    · exact ⟨a, b, ha, hb, k, Or.inl ⟨h, h'⟩⟩
    · exact ⟨a, b, ha, hb, k, Or.inr ⟨h, h'⟩⟩

theorem Conflicting.symm (h : e.Conflicting u t) : e.Conflicting t u := by
  obtain ⟨a, b, ha, hb, hab⟩ := h
  exact ⟨b, a, hb, ha, hab.symm⟩

theorem Writes.touches (h : e.Writes t k) : e.Touches t k := by
  obtain ⟨r, hr, hk⟩ := h
  exact ⟨r, hr, access.written_subset r hk⟩

theorem Touches.lt (h : e.Touches t k) : t < e.requests.length := by
  obtain ⟨r, hr, _⟩ := h
  exact (List.getElem?_eq_some_iff.mp hr).1

theorem Writes.exists_latest (h : e.Writes u k) :
    ∃ w, e.Writes w k ∧ u ≤ w ∧ ∀ j, e.Writes j k → j ≤ w := by
  classical
  have hle : ∀ j, e.Writes j k → j ≤ e.requests.length := fun j hj => Nat.le_of_lt hj.touches.lt
  refine ⟨Nat.findGreatest (e.Writes · k) e.requests.length, ?_, ?_, ?_⟩
  · exact Nat.findGreatest_spec (P := (e.Writes · k)) (hle u h) h
  · exact Nat.le_findGreatest (hle u h) h
  · exact fun j hj => Nat.le_findGreatest (hle j hj) hj

namespace Consistent

/-- A released ticket has outlived every earlier conflicting ticket. -/
theorem completed_of_released (h : e.Consistent) (ht : e.pending t = []) (hut : u < t)
    (hc : e.Conflicting u t) : u ∈ e.completed := by
  rcases h.fronted.ordered u t hut hc with hu | ⟨p, hp, _⟩
  · exact hu
  · rw [ht] at hp
    cases hp

theorem completed_of_completed (h : e.Consistent) (ht : t ∈ e.completed) (hut : u < t)
    (hc : e.Conflicting u t) : u ∈ e.completed :=
  h.completed_of_released (h.counted.pending_of_completed ht) hut hc

/-- Two transactions in flight never conflict. -/
theorem exclusive (h : e.Consistent) (hu : e.InFlight u) (ht : e.InFlight t) (hne : u ≠ t) :
    ¬ e.Conflicting u t := by
  have hpending : ∀ {s}, e.InFlight s → e.pending s = [] := fun hs =>
    ((h.counted.mem_released _).mp (List.mem_append_right _ hs.1)).2
  intro hc
  rcases Nat.lt_or_gt_of_ne hne with hlt | hgt
  · exact hu.2 (h.completed_of_released (hpending ht) hlt hc)
  · exact ht.2 (h.completed_of_released (hpending hu) hgt hc.symm)

/-! ### Registering -/

section Register

variable (h : e.Consistent) (r : ExecutionRequest)
include h

theorem fresh : Counted.Fresh e r := by
  intro p hp
  obtain ⟨k, w, _, hp⟩ := OrderingTable.mem_predecessorsOf.mp hp
  obtain ⟨hlive, hp⟩ := OrderingTable.mem_observe.mp hp
  refine ⟨?_, fun hc => ?_⟩
  · rcases hp with hp | ⟨_, hp⟩
    · exact h.fronted.writer_registered k p hp
    · exact h.fronted.reader_registered k p hp
  · rw [h.counted.isComplete_iff.mpr hc] at hlive
    cases hlive

omit h in
private theorem getElem?_register {a : ExecutionRequest} :
    (e.register r).requests[t]? = some a ↔ e.requests[t]? = some a ∨ (t = e.requests.length ∧ r = a) := by
  rw [register_requests, List.getElem?_append]
  split
  · rename_i hlt
    simp [Nat.ne_of_lt hlt]
  · rename_i hge
    rw [List.getElem?_eq_none (Nat.not_lt.mp hge), List.getElem?_singleton]
    have : t - e.requests.length = 0 ↔ t = e.requests.length := by omega
    simp [this]

omit h in
private theorem touches_register :
    (e.register r).Touches t k ↔ e.Touches t k ∨ (t = e.requests.length ∧ k ∈ access.touched r) := by
  simp only [Touches, getElem?_register, or_and_right, exists_or, and_assoc, exists_and_left, exists_eq_left']

omit h in
private theorem writes_register :
    (e.register r).Writes t k ↔ e.Writes t k ∨ (t = e.requests.length ∧ k ∈ access.written r) := by
  simp only [Writes, getElem?_register, or_and_right, exists_or, and_assoc, exists_and_left, exists_eq_left']

omit h in
private theorem conflicting_register (hc : e.Conflicting u t) : (e.register r).Conflicting u t := by
  simp only [conflicting_iff, touches_register, writes_register] at hc ⊢
  exact hc.imp fun k hk => hk.imp (And.imp Or.inl Or.inl) (And.imp Or.inl Or.inl)

/-- The latest writer of an account, if unfinished, is found there by whoever touches the account. -/
private theorem latest_writer_recorded {w : Nat} (hk : k ∈ access.touched r) (hw : e.Writes w k)
    (hlatest : ∀ j, e.Writes j k → j ≤ w) : w ∈ e.completed ∨ w ∈ e.table.predecessorsOf r := by
  rw [or_iff_not_imp_left]
  intro hlive
  obtain ⟨writable, hk⟩ := ResolvedTransaction.mem_staticAccountKeys.mp hk
  refine OrderingTable.mem_predecessorsOf.mpr ⟨k, writable, hk, OrderingTable.mem_observe.mpr ⟨?_, Or.inl ?_⟩⟩
  · exact Bool.eq_false_iff.mpr (mt h.counted.isComplete_iff.mp hlive)
  · exact (h.fronted.last_writer k w hw hlatest).resolve_right hlive

/-- An unfinished reader since the latest writer is found by whoever writes the account. -/
private theorem reader_recorded (hk : k ∈ access.written r) (hu : e.Touches u k)
    (hsince : ∀ j, e.Writes j k → j < u) : u ∈ e.completed ∨ u ∈ e.table.predecessorsOf r := by
  rw [or_iff_not_imp_left]
  intro hlive
  have hk := ResolvedTransaction.mem_writableKeys.mp hk
  refine OrderingTable.mem_predecessorsOf.mpr ⟨k, true, hk, OrderingTable.mem_observe.mpr ⟨?_, Or.inr ⟨rfl, ?_⟩⟩⟩
  · exact Bool.eq_false_iff.mpr (mt h.counted.isComplete_iff.mp hlive)
  · exact h.fronted.readers_since k u hu hsince

/-- A ticket `u` behind the latest writer `w` of a touched account is covered through `w`. -/
private theorem covered_by_writer {u w : Nat} (hk : k ∈ access.touched r) (hu : e.Touches u k)
    (hw : e.Writes w k) (huw : u ≤ w) (hlatest : ∀ j, e.Writes j k → j ≤ w) :
    u ∈ e.completed ∨ ∃ p ∈ e.table.predecessorsOf r, u = p ∨ (u < p ∧ e.Conflicting u p) := by
  rcases Nat.eq_or_lt_of_le huw with rfl | hlt
  · exact (latest_writer_recorded h r hk hw hlatest).imp_right fun hp => ⟨u, hp, Or.inl rfl⟩
  · have hconf : e.Conflicting u w := conflicting_iff.mpr ⟨k, Or.inl ⟨hu, hw⟩⟩
    rcases latest_writer_recorded h r hk hw hlatest with hdone | hp
    · exact Or.inl (h.completed_of_completed hdone hlt hconf)
    · exact Or.inr ⟨w, hp, Or.inr ⟨hlt, hconf⟩⟩

/-- Every unfinished conflict of the new request is covered by what registration records. -/
private theorem covered
    (hconf : (e.Touches u k ∧ k ∈ access.written r) ∨ (e.Writes u k ∧ k ∈ access.touched r)) :
    u ∈ e.completed ∨ ∃ p ∈ e.table.predecessorsOf r, u = p ∨ (u < p ∧ e.Conflicting u p) := by
  have hk : k ∈ access.touched r := hconf.elim (fun hc => access.written_subset r hc.2) And.right
  have hu : e.Touches u k := hconf.elim And.left fun hc => hc.1.touches
  by_cases hlater : ∃ j, u ≤ j ∧ e.Writes j k
  · obtain ⟨j, huj, hj⟩ := hlater
    obtain ⟨w, hw, hjw, hlatest⟩ := hj.exists_latest
    exact covered_by_writer h r hk hu hw (huj.trans hjw) hlatest
  · -- no writer from `u` on, so `u` only reads and the new request writes
    have hsince : ∀ j, e.Writes j k → j < u := fun j hj =>
      Nat.lt_of_not_le fun hle => hlater ⟨j, hle, hj⟩
    rcases hconf with ⟨_, hwrite⟩ | ⟨hwrite, _⟩
    · exact (reader_recorded h r hwrite hu hsince).imp_right fun hp => ⟨u, hp, Or.inl rfl⟩
    · exact absurd (hsince u hwrite) (Nat.lt_irrefl u)

/-- The frontier of each account after registration, by how the new request accesses it. -/
private theorem frontier_cases (k : Pubkey) :
    (k ∈ access.written r ∧ (e.register r).table.accounts k = { lastWriter := some e.requests.length, readers := [] }) ∨
    (k ∉ access.written r ∧ k ∈ access.touched r ∧ (e.register r).table.accounts k =
      { lastWriter := (e.table.accounts k).lastWriter.filter (· ∉ e.completed),
        readers := (e.table.accounts k).readers ++ [e.requests.length] }) ∨
    (k ∉ access.touched r ∧ (e.register r).table.accounts k = e.table.accounts k) := by
  have hlive : (fun p => !OrderingTable.isComplete e.table.nodes p) = fun p => decide (p ∉ e.completed) := by
    funext p
    rw [Bool.eq_iff_iff]
    simp [← h.counted.isComplete_iff]
  by_cases hk : k ∈ access.touched r
  · by_cases hw : k ∈ access.written r
    · refine Or.inl ⟨hw, ?_⟩
      rw [register_table, OrderingTable.register_frontier (ResolvedTransaction.mem_writableKeys.mp hw),
        h.counted.nodes_length]
      rfl
    · refine Or.inr (Or.inl ⟨hw, hk, ?_⟩)
      obtain ⟨w, hw'⟩ := ResolvedTransaction.mem_staticAccountKeys.mp hk
      have hread : w = false := Bool.eq_false_iff.mpr fun heq =>
        hw (ResolvedTransaction.mem_writableKeys.mpr (heq ▸ hw'))
      subst hread
      rw [register_table, OrderingTable.register_frontier hw', h.counted.nodes_length]
      simp [AccountFrontier.observe, hlive]
  · exact Or.inr (Or.inr ⟨hk, OrderingTable.register_frontier_of_not_mem hk⟩)

private theorem fronted_register : (e.register r).Fronted where
  writer_registered k w hw := by
    rw [register_requests, List.length_append, List.length_singleton]
    rcases frontier_cases h r k with ⟨_, heq⟩ | ⟨_, _, heq⟩ | ⟨_, heq⟩ <;> rw [heq] at hw
    · cases hw
      omega
    · have := h.fronted.writer_registered k w (Option.filter_eq_some_iff.mp hw).1
      omega
    · have := h.fronted.writer_registered k w hw
      omega
  reader_registered k t ht := by
    rw [register_requests, List.length_append, List.length_singleton]
    rcases frontier_cases h r k with ⟨_, heq⟩ | ⟨_, _, heq⟩ | ⟨_, heq⟩ <;> rw [heq] at ht
    · cases ht
    · rcases List.mem_append.mp ht with ht | ht
      · have := h.fronted.reader_registered k t ht
        omega
      · rw [List.mem_singleton.mp ht]
        omega
    · have := h.fronted.reader_registered k t ht
      omega
  last_writer k w hw hlatest := by
    rw [writes_register] at hw
    simp only [writes_register] at hlatest
    rcases frontier_cases h r k with ⟨hk, heq⟩ | ⟨hk, _, heq⟩ | ⟨hk, heq⟩ <;> rw [heq]
    · -- the new ticket is now the latest writer
      have hle := hlatest _ (Or.inr ⟨rfl, hk⟩)
      rcases hw with hw | ⟨rfl, _⟩
      · exact absurd hw.touches.lt (Nat.not_lt.mpr hle)
      · exact Or.inl rfl
    · have hw := hw.resolve_right fun hc => hk hc.2
      rcases h.fronted.last_writer k w hw fun j hj => hlatest j (Or.inl hj) with hlast | hdone
      · by_cases hdone : w ∈ e.completed
        · exact Or.inr hdone
        · exact Or.inl (by simp [hlast, hdone])
      · exact Or.inr hdone
    · have hw := hw.resolve_right fun hc => hk (access.written_subset r hc.2)
      exact h.fronted.last_writer k w hw fun j hj => hlatest j (Or.inl hj)
  readers_since k t ht hsince := by
    rw [touches_register] at ht
    simp only [writes_register] at hsince
    rcases frontier_cases h r k with ⟨hk, heq⟩ | ⟨hk, _, heq⟩ | ⟨hk, heq⟩ <;> rw [heq]
    · have hlt := hsince _ (Or.inr ⟨rfl, hk⟩)
      rcases ht with ht | ⟨rfl, _⟩
      · exact absurd ht.lt (Nat.not_lt.mpr (Nat.le_of_lt hlt))
      · exact absurd hlt (Nat.lt_irrefl _)
    · rcases ht with ht | ⟨rfl, _⟩
      · exact List.mem_append_left _ (h.fronted.readers_since k t ht fun j hj => hsince j (Or.inl hj))
      · simp
    · have ht := ht.resolve_right fun hc => hk hc.2
      exact h.fronted.readers_since k t ht fun j hj => hsince j (Or.inl hj)
  ordered u t hut hconf := by
    obtain ⟨k, hk⟩ := conflicting_iff.mp hconf
    have ht : (e.register r).Touches t k := hk.elim (fun hc => hc.2.touches) And.right
    have hle : t ≤ e.requests.length := Nat.le_of_lt_succ (by simpa using ht.lt)
    have hu : u ≠ e.requests.length := Nat.ne_of_lt (Nat.lt_of_lt_of_le hut hle)
    simp only [touches_register, writes_register, hu, false_and, or_false] at hk
    rcases eq_or_ne t e.requests.length with rfl | hne
    · -- the new ticket: what it conflicts with is covered by the frontiers
      have hold : ∀ {k}, ¬ e.Touches e.requests.length k := fun ht => Nat.lt_irrefl _ ht.lt
      have hk : (e.Touches u k ∧ k ∈ access.written r) ∨ (e.Writes u k ∧ k ∈ access.touched r) :=
        hk.imp (And.imp_right fun hc => hc.elim (fun hw => absurd hw.touches hold) And.right)
          (And.imp_right fun hc => hc.elim (fun ht => absurd ht hold) And.right)
      rw [h.counted.pending_register_self r (h.fresh r), register_completed]
      exact (covered h r hk).imp_right
        fun ⟨p, hp, hcov⟩ => ⟨p, hp, hcov.imp_right (And.imp_right (conflicting_register r))⟩
    · simp only [hne, false_and, or_false] at hk
      rw [h.counted.pending_register_of_ne r hne, register_completed]
      exact (h.fronted.ordered u t hut (conflicting_iff.mpr ⟨k, hk⟩)).imp_right
        fun ⟨p, hp, hcov⟩ => ⟨p, hp, hcov.imp_right (And.imp_right (conflicting_register r))⟩

theorem register : (e.register r).Consistent :=
  ⟨h.counted.register r (h.fresh r), fronted_register h r⟩

end Register

/-! ### Taking, completing, resetting -/

private theorem accounts_takeReady (e : Epoch) : e.takeReady.table.accounts = e.table.accounts := by
  unfold Epoch.takeReady OrderingTable.takeReady
  cases e.table.ready <;> rfl

theorem takeReady (h : e.Consistent) : e.takeReady.Consistent := by
  refine ⟨h.counted.takeReady, ?_⟩
  have haccounts := accounts_takeReady e
  exact {
    writer_registered := fun k => haccounts ▸ h.fronted.writer_registered k
    reader_registered := fun k => haccounts ▸ h.fronted.reader_registered k
    last_writer := fun k => haccounts ▸ h.fronted.last_writer k
    readers_since := fun k => haccounts ▸ h.fronted.readers_since k
    ordered := h.fronted.ordered }

/-- Completing `c` keeps every conflict covered: what `c` covered had to complete before `c` was taken. -/
theorem complete (h : e.Consistent) {c : Nat} (hc : e.InFlight c) : (e.complete c).Consistent := by
  refine ⟨h.counted.complete hc, ?_⟩
  have haccounts : (e.complete c).table.accounts = e.table.accounts := OrderingTable.complete_accounts _ _
  exact {
    writer_registered := fun k => haccounts ▸ h.fronted.writer_registered k
    reader_registered := fun k => haccounts ▸ h.fronted.reader_registered k
    last_writer := fun k w hw hlatest =>
      haccounts ▸ (h.fronted.last_writer k w hw hlatest).imp_right (List.mem_append_left _)
    readers_since := fun k => haccounts ▸ h.fronted.readers_since k
    ordered := by
      intro u t hut hconf
      rw [complete_completed, Counted.pending_complete]
      rcases h.fronted.ordered u t hut hconf with hu | ⟨p, hp, hcov⟩
      · exact Or.inl (List.mem_append_left _ hu)
      · rcases eq_or_ne p c with rfl | hne
        · left
          rcases hcov with rfl | ⟨hlt, hconf⟩
          · simp
          · have hpending := ((h.counted.mem_released p).mp (List.mem_append_right _ hc.1)).2
            exact List.mem_append_left _ (h.completed_of_released hpending hlt hconf)
        · exact Or.inr ⟨p, by simp [hp, hne], hcov⟩ }

theorem start : Epoch.start.Consistent where
  counted := .start
  fronted := by
    constructor <;> simp [Epoch.start, OrderingTable.new, Writes, Touches, Conflicting]

theorem step {e' : Epoch} (h : e.Consistent) (hstep : Step e e') : e'.Consistent := by
  cases hstep with
  | register r => exact h.register r
  | takeReady => exact h.takeReady
  | complete t ht => exact h.complete ht
  | reset hempty => exact Counted.reset hempty ▸ start

end Consistent

theorem Reachable.consistent (h : e.Reachable) : e.Consistent :=
  Transition.invariant (fun _ _ h hstep => h.step hstep) Consistent.start h

end Epoch

end MagicEngine
