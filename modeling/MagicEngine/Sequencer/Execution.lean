import MagicEngine.Sequencer.Drain

/-!
# Execution on the executor pool is serial execution

The executors around the ordering table: a transaction taken from the ready queue loads its accounts, executes
on the loaded copies and commits the accounts it writes, and only then does the executor report completion
(`processor/src/executor.rs`). Loads and commits of different executors interleave freely. What a transaction
does is a parameter `exec`; the only assumption is that it reads its static keys and writes its writable keys.

The ordering table guarantees the side condition of `ConflictOrder.Progress.Ordered.load`, so after all
completions the accounts are those of executing the requests one by one in input order, across any number of
drain epochs.
-/

namespace MagicEngine

open ConflictOrder
open ExecutionRequest (access)

/-- The sequencer's epoch and the accounts the executors work on. Tickets restart in each epoch: ticket `t` of
the current one is request `base + t` of the input stream. -/
structure Execution (V : Type*) where
  epoch : Epoch
  base : Nat
  progress : Progress Pubkey V ExecutionRequest

namespace Execution

variable {V : Type*}

def accounts (w : Execution V) : Pubkey → V := w.progress.state

def input (w : Execution V) : List ExecutionRequest := w.progress.ops

def start (s₀ : Pubkey → V) : Execution V :=
  { epoch := .start, base := 0, progress := .init s₀ }

/-- One event: a call on the ordering table, or an executor loading or committing its transaction. -/
inductive Step (exec : ExecutionRequest → (Pubkey → V) → Pubkey → V) : Execution V → Execution V → Prop
  | register (w : Execution V) (r : ExecutionRequest) :
    Step exec w { w with epoch := w.epoch.register r, progress := w.progress.submit r }
  | takeReady (w : Execution V) : Step exec w { w with epoch := w.epoch.takeReady }
  | load (w : Execution V) (t : Nat) (ht : w.epoch.InFlight t) (hnew : w.progress.snapshot (w.base + t) = none) :
    Step exec w { w with progress := w.progress.load (w.base + t) }
  | commit (w : Execution V) (t : Nat) (r : ExecutionRequest) (s : Pubkey → V) (ht : w.epoch.InFlight t)
    (hr : w.epoch.requests[t]? = some r) (hs : w.progress.snapshot (w.base + t) = some s)
    (hnew : w.base + t ∉ w.progress.committed) :
    Step exec w { w with progress := w.progress.commit access exec (w.base + t) r s }
  | complete (w : Execution V) (t : Nat) (ht : w.epoch.InFlight t) (hdone : w.base + t ∈ w.progress.committed) :
    Step exec w { w with epoch := w.epoch.complete t }
  | reset (w : Execution V) (h : w.epoch.table.isEmpty = true) :
    Step exec w { w with epoch := w.epoch.reset, base := w.progress.ops.length }

def Reachable (exec : ExecutionRequest → (Pubkey → V) → Pubkey → V) (s₀ : Pubkey → V) (w : Execution V) : Prop :=
  Relation.ReflTransGen (Step exec) (start s₀) w

/-- The table's history and the store's progress describe the same stream. -/
structure Sound (exec : ExecutionRequest → (Pubkey → V) → Pubkey → V) (s₀ : Pubkey → V) (w : Execution V) : Prop where
  consistent : w.epoch.Consistent
  ordered : w.progress.Ordered access exec s₀
  length : w.progress.ops.length = w.base + w.epoch.requests.length
  request : ∀ t, w.progress.ops[w.base + t]? = w.epoch.requests[t]?
  past : ∀ i < w.base, i ∈ w.progress.committed
  completed : ∀ t ∈ w.epoch.completed, w.base + t ∈ w.progress.committed

namespace Sound

variable {exec : ExecutionRequest → (Pubkey → V) → Pubkey → V} {s₀ : Pubkey → V} {w w' : Execution V}

/-- Everything an in-flight transaction conflicts with and that precedes it in the stream has committed. -/
theorem prior_committed (h : w.Sound exec s₀) {t : Nat} (ht : w.epoch.InFlight t) :
    ∀ j < w.base + t, w.progress.Conflicting access j (w.base + t) → j ∈ w.progress.committed := by
  intro j hj hconf
  rcases Nat.lt_or_ge j w.base with hlt | hge
  · exact h.past j hlt
  · obtain ⟨u, rfl⟩ := Nat.exists_eq_add_of_le hge
    obtain ⟨a, b, ha, hb, hab⟩ := hconf
    rw [h.request] at ha hb
    have hnil := ((h.consistent.counted.mem_released t).mp (List.mem_append_right _ ht.1)).2
    exact h.completed u (h.consistent.completed_of_released hnil (by omega) ⟨a, b, ha, hb, hab⟩)

theorem all_committed (h : w.Sound exec s₀) (hall : ∀ t < w.epoch.requests.length, t ∈ w.epoch.completed) :
    ∀ i < w.progress.ops.length, i ∈ w.progress.committed := by
  intro i hi
  rcases Nat.lt_or_ge i w.base with hlt | hge
  · exact h.past i hlt
  · obtain ⟨t, rfl⟩ := Nat.exists_eq_add_of_le hge
    have := h.length
    exact h.completed t (hall t (by omega))

theorem start (exec : ExecutionRequest → (Pubkey → V) → Pubkey → V) (s₀ : Pubkey → V) :
    (Execution.start s₀).Sound exec s₀ where
  consistent := .start
  ordered := .start s₀
  length := rfl
  request _ := by simp [Execution.start, Progress.init, Epoch.start]
  past := by simp [Execution.start]
  completed := by simp [Execution.start, Epoch.start]

theorem step (hexec : Respects access exec) (h : w.Sound exec s₀) (hstep : Step exec w w') : w'.Sound exec s₀ := by
  have hlength := h.length
  cases hstep with
  | register r =>
    exact {
      consistent := h.consistent.register r
      ordered := h.ordered.submit hexec r
      length := by simp only [Progress.submit_ops, List.length_append, Epoch.register_requests]; omega
      request := fun t => by
        simp only [Progress.submit_ops, Epoch.register_requests, List.getElem?_append, h.request, hlength,
          Nat.add_lt_add_iff_left, Nat.add_sub_add_left]
      past := h.past
      completed := h.completed }
  | takeReady => exact { h with consistent := h.consistent.takeReady }
  | load t ht hnew =>
    have hlt := h.consistent.counted.lt_of_mem_taken ht.1
    have hop := (h.request t).trans (List.getElem?_eq_getElem hlt)
    exact { h with ordered := h.ordered.load hop hnew (h.prior_committed ht) }
  | commit t r s ht hr hs hnew =>
    exact { h with
      ordered := h.ordered.commit hexec ((h.request t).trans hr) hs hnew
      past := fun i hi => List.mem_append_left _ (h.past i hi)
      completed := fun u hu => List.mem_append_left _ (h.completed u hu) }
  | complete t ht hdone =>
    exact { h with
      consistent := h.consistent.complete ht
      completed := fun u hu => by
        rcases List.mem_append.mp hu with hu | hu
        · exact h.completed u hu
        · rw [List.mem_singleton.mp hu]
          exact hdone }
  | reset hempty =>
    rw [Epoch.Counted.reset hempty]
    exact {
      consistent := .start
      ordered := h.ordered
      length := rfl
      request := fun t => by simp [Epoch.start]
      past := h.all_committed (h.consistent.counted.completed_of_isEmpty hempty)
      completed := by simp [Epoch.start] }

end Sound

variable {exec : ExecutionRequest → (Pubkey → V) → Pubkey → V} {s₀ : Pubkey → V} {w : Execution V}

theorem Reachable.sound (hexec : Respects access exec) (h : w.Reachable exec s₀) : w.Sound exec s₀ :=
  Transition.invariant (fun _ _ h hstep => h.step hexec hstep) (.start exec s₀) h

/-- In every run two conflicting requests are never in flight together, and when all registered requests have
completed the accounts are those of executing the input one by one. -/
theorem serializable (hexec : Respects access exec) (h : w.Reachable exec s₀) :
    (∀ u t, w.epoch.InFlight u → w.epoch.InFlight t → u ≠ t → ¬ w.epoch.Conflicting u t) ∧
    ((∀ t < w.epoch.requests.length, t ∈ w.epoch.completed) → w.accounts = serial exec s₀ w.input) := by
  have hsound := h.sound hexec
  exact ⟨fun u t hu ht hne => hsound.consistent.exclusive hu ht hne,
    fun hall => hsound.ordered.state_eq_serial (hsound.all_committed hall)⟩

/-- A transaction that counts up the accounts it writes. -/
def countUp (r : ExecutionRequest) (s : Pubkey → Nat) (k : Pubkey) : Nat :=
  if k ∈ r.transaction.writableKeys then s k + 1 else s k

theorem countUp_respects : Respects access countUp where
  frame r s k hk := if_neg hk
  local_reads r s s' hs k hk := by
    have hw : k ∈ r.transaction.writableKeys := hk
    simp only [countUp, hw, if_true, hs k (access.written_subset r hk)]

def executed : Execution Nat :=
  let r := Epoch.writeRequest default
  let p : Progress Pubkey Nat ExecutionRequest := (((Progress.init fun _ => 0).submit r).submit r).load 0
  let p := (p.commit access countUp 0 r fun _ => 0).load 1
  { epoch := (((Epoch.contended.complete 0).takeReady).complete 1)
    base := 0
    progress := p.commit access countUp 1 r p.state }

theorem executed_reachable : executed.Reachable countUp fun _ => 0 := by
  refine .tail (.tail (.tail (.tail (.tail (.tail (.tail (.tail (.tail (.tail .refl
    (.register _ (Epoch.writeRequest default))) (.register _ (Epoch.writeRequest default))) (.takeReady _))
    (.load _ 0 ?_ rfl)) (.commit _ 0 (Epoch.writeRequest default) (fun _ => 0) ?_ rfl rfl ?_))
    (.complete _ 0 ?_ ?_)) (.takeReady _)) (.load _ 1 ?_ rfl))
    (.commit _ 1 (Epoch.writeRequest default) _ ?_ rfl rfl ?_)) (.complete _ 1 ?_ ?_)
  all_goals first | exact ⟨by decide, by decide⟩ | decide

/-- Both writers ran, one after the other. -/
theorem executed_serializable : executed.input.length = 2 ∧ executed.accounts default = 2 ∧
    executed.accounts = serial countUp (fun _ => 0) executed.input :=
  ⟨rfl, rfl, (serializable countUp_respects executed_reachable).2 (by decide)⟩

end Execution

end MagicEngine
