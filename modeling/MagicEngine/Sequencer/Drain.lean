import MagicEngine.Sequencer.Frontier

/-!
# The ordering table loses nothing and always drains

Every registered request is in exactly one place, a node's counter is the number of its distinct recorded
predecessors that are not complete, and as long as something is unfinished the table has a ready transaction
or an executor holds one. Hence a drain, which only takes and completes, cannot get stuck before the table is
empty, whatever the order of the completions.
-/

namespace MagicEngine

inductive Status where
  | blocked
  | ready
  | taken
  | completed
deriving DecidableEq, Repr

namespace Epoch

/-- The place of ticket `t`; the queues that hold a payload hold the registered request. -/
def HasStatus (e : Epoch) (t : Nat) : Status → Prop
  | .blocked => ∃ r, e.requests[t]? = some r ∧ e.table.blocked t = some r
  | .ready => ∃ r, e.requests[t]? = some r ∧ { ticket := t, request := r } ∈ e.table.ready
  | .taken => e.InFlight t
  | .completed => t ∈ e.completed

/-- The calls of a drain: take a ready transaction, or complete one that is in flight. -/
inductive DrainStep : Epoch → Epoch → Prop
  | takeReady (e : Epoch) (h : e.table.ready ≠ []) : DrainStep e e.takeReady
  | complete (e : Epoch) (t : Nat) (h : e.InFlight t) : DrainStep e (e.complete t)

/-- Nothing is left: every request was taken once and completed once, and resetting starts a fresh epoch. -/
structure Drained (e : Epoch) : Prop where
  isEmpty : e.table.isEmpty = true
  blocked : ∀ t, e.table.blocked t = none
  ready : e.table.ready = []
  taken : e.taken.Perm (List.range e.requests.length)
  completed : e.completed.Perm (List.range e.requests.length)
  reset : e.reset = start

def work (e : Epoch) : Nat :=
  (e.requests.length - e.taken.length) + (e.requests.length - e.completed.length)

variable {e e' : Epoch} {t : Nat}

namespace Counted

section

variable (h : e.Counted)

include h

theorem mem_ready_iff :
    (∃ r, e.requests[t]? = some r ∧ { ticket := t, request := r } ∈ e.table.ready) ↔
      t ∈ e.table.ready.map (·.ticket) := by
  constructor
  · rintro ⟨r, _, hr⟩
    exact List.mem_map.mpr ⟨_, hr, rfl⟩
  · intro ht
    obtain ⟨next, hnext, rfl⟩ := List.mem_map.mp ht
    exact ⟨next.request, h.ready_request next hnext, hnext⟩

theorem exists_status (ht : t < e.requests.length) : ∃ s, e.HasStatus t s := by
  by_cases hnil : e.pending t = []
  · rcases List.mem_append.mp ((h.mem_released t).mpr ⟨ht, hnil⟩) with hr | htaken
    · exact ⟨.ready, h.mem_ready_iff.mpr hr⟩
    · by_cases hdone : t ∈ e.completed
      · exact ⟨.completed, hdone⟩
      · exact ⟨.taken, htaken, hdone⟩
  · have hreq := List.getElem?_eq_getElem ht
    exact ⟨.blocked, _, hreq, (h.blocked_iff t _).mpr ⟨hreq, hnil⟩⟩

theorem status_unique {s s' : Status} (hs : e.HasStatus t s) (hs' : e.HasStatus t s') :
    s = s' := by
  have hblocked : e.HasStatus t .blocked → t ∉ e.released := by
    rintro ⟨r, _, hr⟩ hmem
    exact ((h.blocked_iff t r).mp hr).2 ((h.mem_released t).mp hmem).2
  have hready : e.HasStatus t .ready → t ∈ e.released ∧ t ∉ e.taken := by
    intro hr
    have hmem := h.mem_ready_iff.mp hr
    exact ⟨List.mem_append_left _ hmem, fun ht => (List.nodup_append.mp h.released_nodup).2.2 t hmem t ht rfl⟩
  have htaken : e.HasStatus t .taken → t ∈ e.released ∧ t ∈ e.taken ∧ t ∉ e.completed :=
    fun ht => ⟨List.mem_append_right _ ht.1, ht⟩
  have hdone : e.HasStatus t .completed → t ∈ e.released ∧ t ∈ e.taken ∧ t ∈ e.completed :=
    fun hc => ⟨List.mem_append_right _ (h.completed_subset hc), h.completed_subset hc, hc⟩
  cases s <;> cases s' <;> grind

/-- The earliest unfinished ticket has nothing left to wait for. -/
theorem progress (ht : t < e.requests.length) (hlive : t ∉ e.completed) :
    e.table.ready ≠ [] ∨ ∃ u, e.InFlight u := by
  classical
  have hex : ∃ u, u < e.requests.length ∧ u ∉ e.completed := ⟨t, ht, hlive⟩
  obtain ⟨hlt, hnot⟩ := Nat.find_spec hex
  have hnil : e.pending (Nat.find hex) = [] := by
    refine List.eq_nil_iff_forall_not_mem.mpr fun p hp => ?_
    obtain ⟨hp, hplive⟩ := mem_pending.mp hp
    have hplt := h.predecessors_lt _ p hp
    exact Nat.find_min hex hplt ⟨by omega, hplive⟩
  rcases List.mem_append.mp ((h.mem_released _).mpr ⟨hlt, hnil⟩) with hr | htaken
  · left
    intro hempty
    rw [hempty] at hr
    cases hr
  · exact Or.inr ⟨_, htaken, hnot⟩

omit h in
private theorem length_le {l : List Nat} {n : Nat} (hnodup : l.Nodup) (hlt : ∀ t ∈ l, t < n) : l.length ≤ n := by
  have hsub : l ⊆ List.range n := fun t ht => List.mem_range.mpr (hlt t ht)
  have hle := (List.subperm_of_subset hnodup hsub).length_le
  rwa [List.length_range] at hle

theorem taken_nodup : e.taken.Nodup :=
  (List.nodup_append.mp h.released_nodup).2.1

omit h in
/-- A drained run has one completion and one take per request. -/
private theorem perm_range {l : List Nat} {n : Nat} (hnodup : l.Nodup) (hlt : ∀ t ∈ l, t < n)
    (hall : ∀ t < n, t ∈ l) : l.Perm (List.range n) :=
  (List.perm_ext_iff_of_nodup hnodup List.nodup_range).mpr fun t => ⟨fun ht => List.mem_range.mpr (hlt t ht),
    fun ht => hall t (List.mem_range.mp ht)⟩

theorem completed_of_isEmpty (hempty : e.table.isEmpty = true) :
    ∀ t < e.requests.length, t ∈ e.completed := by
  have hcount := h.outstanding
  have hzero : e.table.outstanding = 0 := by simpa [OrderingTable.isEmpty] using hempty
  have hsub : e.completed ⊆ List.range e.requests.length := fun t ht => List.mem_range.mpr (h.lt_of_mem_completed ht)
  have hperm := (List.subperm_of_subset h.completed_nodup hsub).perm_of_length_le (by
    rw [List.length_range]
    omega)
  exact fun t ht => hperm.mem_iff.mpr (List.mem_range.mpr ht)

theorem not_inFlight_of_isEmpty (hempty : e.table.isEmpty = true) (t : Nat) : ¬ e.InFlight t :=
  fun ht => ht.2 (h.completed_of_isEmpty hempty t (h.lt_of_mem_taken ht.1))

theorem drained (hstuck : ∀ e', ¬ DrainStep e e') : e.Drained := by
  have hall : ∀ t < e.requests.length, t ∈ e.completed := by
    intro t ht
    by_contra hlive
    rcases h.progress ht hlive with hready | ⟨u, hu⟩
    · exact hstuck _ (.takeReady e hready)
    · exact hstuck _ (.complete e u hu)
  have hready : e.table.ready = [] := by
    by_contra hne
    exact hstuck _ (.takeReady e hne)
  have hcompleted := perm_range h.completed_nodup (fun t ht => h.lt_of_mem_completed ht) hall
  have hempty : e.table.isEmpty = true := by
    have hcount := h.outstanding
    rw [hcompleted.length_eq, List.length_range] at hcount
    simp only [OrderingTable.isEmpty, beq_iff_eq]
    omega
  exact {
    isEmpty := hempty
    blocked := fun t => Option.eq_none_iff_forall_not_mem.mpr fun r hr => by
      obtain ⟨hreq, hne⟩ := (h.blocked_iff t r).mp hr
      exact hne (h.pending_of_completed (hall t (List.getElem?_eq_some_iff.mp hreq).1))
    ready := hready
    taken := perm_range h.taken_nodup (fun t ht => h.lt_of_mem_taken ht) fun t ht => h.completed_subset (hall t ht)
    completed := hcompleted
    reset := Counted.reset hempty }

theorem drainStep (hstep : DrainStep e e') : e'.Counted := by
  cases hstep with
  | takeReady _ => exact h.takeReady
  | complete t ht => exact h.complete ht

theorem work_lt (hstep : DrainStep e e') : e'.work < e.work := by
  have hcounted := h.drainStep hstep
  have htaken := length_le hcounted.taken_nodup fun t ht => hcounted.lt_of_mem_taken ht
  have hdone := length_le hcounted.completed_nodup fun t ht => hcounted.lt_of_mem_completed ht
  cases hstep with
  | takeReady hne =>
    obtain ⟨next, ready, hready⟩ := List.exists_cons_of_ne_nil hne
    simp only [Epoch.takeReady, OrderingTable.takeReady, hready, Option.map_some, Option.toList_some,
      List.length_append, List.length_singleton, work] at htaken hdone ⊢
    omega
  | complete t ht =>
    simp only [complete_requests, complete_taken, complete_completed, List.length_append, List.length_singleton,
      work] at htaken hdone ⊢
    omega

/-- The counter of an unfinished node, read as a set of recorded predecessors. -/
theorem node_of_live (ht : t < e.requests.length) (hlive : t ∉ e.completed) :
    ∃ node, e.table.nodes[t]? = some node ∧
      node.predecessors = .unfinished ((e.predecessors t).toFinset \ e.completed.toFinset).card := by
  have hnode := List.getElem?_eq_getElem (h.nodes_length ▸ ht)
  have hset : (e.predecessors t).toFinset \ e.completed.toFinset = (e.pending t).toFinset := by
    ext p
    simp [mem_pending]
  have hnodup : (e.pending t).Nodup := (h.predecessors_nodup t).filter _
  refine ⟨_, hnode, ?_⟩
  rw [h.node_count t _ hnode, if_neg hlive, hset, List.toFinset_card_of_nodup hnodup]

/-- What `takeReady` returns is a registered request that was not returned before. -/
theorem takeReady_returns {next : ReadyTransaction} (hnext : e.table.takeReady.1 = some next) :
    e.requests[next.ticket]? = some next.request ∧ next.ticket ∉ e.taken := by
  cases hready : e.table.ready with
  | nil => simp [OrderingTable.takeReady, hready] at hnext
  | cons head ready =>
    have heq : head = next := by simpa [OrderingTable.takeReady, hready] using hnext
    subst heq
    have hmem : head ∈ e.table.ready := hready ▸ List.mem_cons_self
    refine ⟨h.ready_request head hmem, fun htaken => ?_⟩
    exact (List.nodup_append.mp h.released_nodup).2.2 _ (List.mem_map_of_mem hmem) _ htaken rfl

end

end Counted

theorem Consistent.takeReady_register (h : e.Consistent) (hempty : e.table.isEmpty = true) (r : ExecutionRequest) :
    (e.register r).table.takeReady.1 = some { ticket := e.requests.length, request := r } := by
  have hdone := h.counted.completed_of_isEmpty hempty
  have hcounted := (h.register r).counted
  have hpending : (e.register r).pending e.requests.length = [] := by
    rw [List.eq_nil_iff_forall_not_mem]
    intro u hu
    obtain ⟨hpred, hlive⟩ := mem_pending.mp hu
    exact hlive (hdone u (hcounted.predecessors_lt _ u hpred))
  have hready : ∀ next ∈ (e.register r).table.ready, next.ticket = e.requests.length := by
    intro next hnext
    by_contra hne
    have hlt := (List.getElem?_eq_some_iff.mp (hcounted.ready_request next hnext)).1
    rw [register_requests, List.length_append, List.length_singleton] at hlt
    have htaken := h.counted.completed_subset (hdone next.ticket (by omega))
    exact (List.nodup_append.mp hcounted.released_nodup).2.2 _ (List.mem_map_of_mem hnext) _ htaken rfl
  have hmem : e.requests.length ∈ (e.register r).table.ready.map (·.ticket) := by
    have hreleased := (hcounted.mem_released e.requests.length).mpr ⟨by simp, hpending⟩
    refine (List.mem_append.mp hreleased).resolve_right fun htaken => ?_
    exact absurd (h.counted.lt_of_mem_taken htaken) (Nat.lt_irrefl _)
  cases hlist : (e.register r).table.ready with
  | nil =>
    rw [hlist] at hmem
    cases hmem
  | cons next rest =>
    have hnext : next ∈ (e.register r).table.ready := hlist ▸ List.mem_cons_self
    have hrequest := hcounted.ready_request next hnext
    rw [hready next hnext, register_requests, List.getElem?_concat_length] at hrequest
    simp only [OrderingTable.takeReady, hlist]
    obtain ⟨ticket, request⟩ := next
    rw [← hready _ hnext, Option.some.inj hrequest]

/-- In every state of every run: each registered request is in exactly one place; an unfinished node counts its
distinct recorded predecessors that are not complete; `takeReady` never returns a request twice; unfinished work
means ready or running work; and every drain ends, with each request taken and completed exactly once. -/
theorem no_loss_no_deadlock (h : e.Reachable) :
    (∀ t < e.requests.length, ∃! s, e.HasStatus t s) ∧
    (∀ t < e.requests.length, t ∉ e.completed → ∃ node, e.table.nodes[t]? = some node ∧
      node.predecessors = .unfinished ((e.predecessors t).toFinset \ e.completed.toFinset).card) ∧
    (e.taken.Nodup ∧ ∀ next, e.table.takeReady.1 = some next →
      e.requests[next.ticket]? = some next.request ∧ next.ticket ∉ e.taken) ∧
    ((∃ t < e.requests.length, t ∉ e.completed) → e.table.ready ≠ [] ∨ ∃ u, e.InFlight u) ∧
    Acc (fun a b => DrainStep b a) e ∧
    (∀ e', Relation.ReflTransGen DrainStep e e' → (∀ e'', ¬ DrainStep e' e'') → e'.Drained) := by
  have hc := h.consistent.counted
  refine ⟨fun t ht => ?_, fun t => hc.node_of_live, ⟨hc.taken_nodup, fun next => hc.takeReady_returns⟩, ?_, ?_, ?_⟩
  · obtain ⟨s, hs⟩ := hc.exists_status ht
    exact ⟨s, hs, fun s' hs' => hc.status_unique hs' hs⟩
  · rintro ⟨t, ht, hlive⟩
    exact hc.progress ht hlive
  · exact Transition.acc_of_decreasing (fun _ _ h => h.drainStep) (fun _ _ h => h.work_lt) hc
  · intro e' hrun hstuck
    exact (Transition.invariant (fun _ _ h => h.drainStep) hc hrun).drained hstuck

def writeRequest (key : Pubkey) : ExecutionRequest :=
  { transaction :=
      { signatures := [default], numRequiredSignatures := 1, staticAccountKeys := [key], instructions := []
        writableCache := 1, keys_nodup := List.nodup_singleton key } }

/-- Two writers of one account, the first of them in flight. -/
def contended : Epoch :=
  ((start.register (writeRequest default)).register (writeRequest default)).takeReady

theorem contended_reachable : contended.Reachable :=
  ((Relation.ReflTransGen.refl.tail (.register _ _)).tail (.register _ _)).tail (.takeReady _)

/-- The second writer waits for the first one, and draining ends. -/
theorem contended_no_loss : contended.HasStatus 1 .blocked ∧ (∃! s, contended.HasStatus 1 s) ∧
    Acc (fun a b => DrainStep b a) contended := by
  have h := no_loss_no_deadlock contended_reachable
  exact ⟨⟨_, rfl, rfl⟩, h.1 1 (by decide), h.2.2.2.2.1⟩

end Epoch

end MagicEngine
