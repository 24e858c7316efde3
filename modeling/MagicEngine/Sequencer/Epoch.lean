import Mathlib.Logic.Relation
import MagicEngine.Sequencer.OrderingTable

/-!
# Runs of the ordering table

An epoch is the ordering table together with the history of its use since the last reset: the registered
requests, the predecessors each registration recorded, and the tickets taken and completed so far. A run
interleaves registrations, takes, completions and resets; `complete` is called once for each taken ticket,
and `reset` on a drained table only.

The bookkeeping invariant `Epoch.Counted` ties the table to that history: a node counts exactly its recorded
predecessors that are not complete, a request is blocked while one of them is unfinished, and every other
request sits in the ready queue or has been taken.
-/

namespace MagicEngine

/-- The ordering table and the history of the current epoch. Tickets index `requests` and `recorded`. -/
structure Epoch where
  table : OrderingTable
  requests : List ExecutionRequest
  recorded : List (List Nat)
  taken : List Nat
  completed : List Nat

namespace Epoch

def start : Epoch :=
  { table := .new, requests := [], recorded := [], taken := [], completed := [] }

def register (e : Epoch) (request : ExecutionRequest) : Epoch :=
  { e with
    table := (e.table.register request).2
    requests := e.requests ++ [request]
    recorded := e.recorded ++ [e.table.predecessorsOf request] }

def takeReady (e : Epoch) : Epoch :=
  { e with table := e.table.takeReady.2, taken := e.taken ++ (e.table.takeReady.1.map (·.ticket)).toList }

def complete (e : Epoch) (ticket : Nat) : Epoch :=
  { e with table := (e.table.complete ticket).2, completed := e.completed ++ [ticket] }

def reset (e : Epoch) : Epoch :=
  { start with table := e.table.reset }

section Fields

variable (e : Epoch) (r : ExecutionRequest) (t : Nat)

@[simp] theorem register_table : (e.register r).table = (e.table.register r).2 := rfl
@[simp] theorem register_requests : (e.register r).requests = e.requests ++ [r] := rfl
@[simp] theorem register_taken : (e.register r).taken = e.taken := rfl
@[simp] theorem register_completed : (e.register r).completed = e.completed := rfl
@[simp] theorem complete_table : (e.complete t).table = (e.table.complete t).2 := rfl
@[simp] theorem complete_requests : (e.complete t).requests = e.requests := rfl
@[simp] theorem complete_recorded : (e.complete t).recorded = e.recorded := rfl
@[simp] theorem complete_taken : (e.complete t).taken = e.taken := rfl
@[simp] theorem complete_completed : (e.complete t).completed = e.completed ++ [t] := rfl

end Fields

def InFlight (e : Epoch) (ticket : Nat) : Prop := ticket ∈ e.taken ∧ ticket ∉ e.completed

inductive Step : Epoch → Epoch → Prop
  | register (e : Epoch) (request : ExecutionRequest) : Step e (e.register request)
  | takeReady (e : Epoch) : Step e e.takeReady
  | complete (e : Epoch) (ticket : Nat) (h : e.InFlight ticket) : Step e (e.complete ticket)
  | reset (e : Epoch) (h : e.table.isEmpty = true) : Step e e.reset

def Reachable (e : Epoch) : Prop := Relation.ReflTransGen Step start e

def predecessors (e : Epoch) (ticket : Nat) : List Nat := e.recorded[ticket]?.getD []

/-- The recorded predecessors of a ticket that have not completed. -/
def pending (e : Epoch) (ticket : Nat) : List Nat := (e.predecessors ticket).filter (· ∉ e.completed)

/-- The tickets that left the graph: queued as ready or already taken. -/
def released (e : Epoch) : List Nat := e.table.ready.map (·.ticket) ++ e.taken

/-- The table agrees with the history of the epoch. -/
structure Counted (e : Epoch) : Prop where
  nodes_length : e.table.nodes.length = e.requests.length
  recorded_length : e.recorded.length = e.requests.length
  predecessors_lt : ∀ t, ∀ p ∈ e.predecessors t, p < t
  predecessors_nodup : ∀ t, (e.predecessors t).Nodup
  node_count : ∀ (t : Nat) node, e.table.nodes[t]? = some node →
    node.predecessors = if t ∈ e.completed then .complete else .unfinished (e.pending t).length
  dependents_nodup : ∀ (t : Nat) node, e.table.nodes[t]? = some node → node.dependents.Nodup
  mem_dependents : ∀ (t : Nat) node, e.table.nodes[t]? = some node →
    ∀ d, d ∈ node.dependents ↔ t ∉ e.completed ∧ t ∈ e.predecessors d
  blocked_iff : ∀ t r, e.table.blocked t = some r ↔ e.requests[t]? = some r ∧ e.pending t ≠ []
  mem_released : ∀ t, t ∈ e.released ↔ t < e.requests.length ∧ e.pending t = []
  released_nodup : e.released.Nodup
  ready_request : ∀ next ∈ e.table.ready, e.requests[next.ticket]? = some next.request
  completed_subset : e.completed ⊆ e.taken
  completed_nodup : e.completed.Nodup
  outstanding : e.table.outstanding + e.completed.length = e.requests.length

variable {t : Nat}

theorem mem_pending {e : Epoch} {p : Nat} : p ∈ e.pending t ↔ p ∈ e.predecessors t ∧ p ∉ e.completed := by
  simp [pending]

namespace Counted

variable {e : Epoch}

theorem lt_of_mem_taken (h : e.Counted) (ht : t ∈ e.taken) : t < e.requests.length :=
  ((h.mem_released t).mp (List.mem_append_right _ ht)).1

theorem lt_of_mem_completed (h : e.Counted) (ht : t ∈ e.completed) : t < e.requests.length :=
  h.lt_of_mem_taken (h.completed_subset ht)

theorem pending_of_completed (h : e.Counted) (ht : t ∈ e.completed) : e.pending t = [] :=
  ((h.mem_released t).mp (List.mem_append_right _ (h.completed_subset ht))).2

theorem predecessors_of_le (h : e.Counted) (ht : e.requests.length ≤ t) : e.predecessors t = [] := by
  rw [predecessors, List.getElem?_eq_none (by rw [h.recorded_length]; exact ht), Option.getD_none]

theorem lt_of_mem_predecessors (h : e.Counted) {p : Nat} (hp : p ∈ e.predecessors t) : t < e.requests.length := by
  by_contra hge
  rw [h.predecessors_of_le (Nat.not_lt.mp hge)] at hp
  cases hp

theorem isComplete_iff (h : e.Counted) :
    OrderingTable.isComplete e.table.nodes t = true ↔ t ∈ e.completed := by
  unfold OrderingTable.isComplete
  cases hnode : e.table.nodes[t]? with
  | none =>
    have hle : e.requests.length ≤ t := h.nodes_length ▸ List.getElem?_eq_none_iff.mp hnode
    simp only [Option.any_none, Bool.false_eq_true, false_iff]
    exact fun ht => Nat.not_lt.mpr hle (h.lt_of_mem_completed ht)
  | some node =>
    rw [Option.any_some, h.node_count t node hnode]
    split <;> simp [*]

theorem start : Epoch.start.Counted := by
  constructor <;> simp [Epoch.start, OrderingTable.new, Epoch.predecessors, Epoch.pending, Epoch.released]

/-! ### Registering -/

section Register

variable (h : e.Counted) (r : ExecutionRequest)
include h

/-- What registration finds at the frontiers: earlier tickets that have not completed. -/
def Fresh (e : Epoch) (r : ExecutionRequest) : Prop :=
  ∀ p ∈ e.table.predecessorsOf r, p < e.requests.length ∧ p ∉ e.completed

private theorem predecessors_register_of_ne (ht : t ≠ e.requests.length) :
    (e.register r).predecessors t = e.predecessors t := by
  rcases Nat.lt_or_gt_of_ne ht with hlt | hgt
  · simp only [Epoch.predecessors, Epoch.register]
    rw [List.getElem?_append_left (by rw [h.recorded_length]; exact hlt)]
  · rw [h.predecessors_of_le (Nat.le_of_lt hgt)]
    simp only [Epoch.predecessors, Epoch.register]
    rw [List.getElem?_eq_none (by simp [h.recorded_length]; omega), Option.getD_none]

private theorem predecessors_register_self :
    (e.register r).predecessors e.requests.length = e.table.predecessorsOf r := by
  simp [Epoch.predecessors, Epoch.register, ← h.recorded_length]

theorem pending_register_of_ne (ht : t ≠ e.requests.length) :
    (e.register r).pending t = e.pending t := by
  simp only [Epoch.pending, predecessors_register_of_ne h r ht]
  rfl

theorem pending_register_self (hfresh : Fresh e r) :
    (e.register r).pending e.requests.length = e.table.predecessorsOf r := by
  rw [Epoch.pending, predecessors_register_self h r, List.filter_eq_self]
  intro p hp
  exact decide_eq_true (hfresh p hp).2

/-- The node of an old ticket gains at most a dependent; the new node stands alone at the end. -/
private theorem register_node {node : TransactionNode}
    (ht : (e.register r).table.nodes[t]? = some node) :
    (t < e.requests.length ∧ ∃ old, e.table.nodes[t]? = some old ∧ node =
      if t ∈ e.table.predecessorsOf r then { old with dependents := old.dependents ++ [e.requests.length] }
      else old) ∨
    (t = e.requests.length ∧
      node = { predecessors := .unfinished (e.table.predecessorsOf r).length, dependents := [] }) := by
  have hnodes := h.nodes_length
  rw [register_table] at ht
  have hlt : t < e.requests.length + 1 := by
    have := (List.getElem?_eq_some_iff.mp ht).1
    rw [OrderingTable.register_nodes_length] at this
    omega
  rcases Nat.lt_succ_iff_lt_or_eq.mp hlt with hlt | rfl
  · left
    rw [OrderingTable.register_nodes_of_lt (hnodes ▸ hlt), Option.map_eq_some_iff] at ht
    obtain ⟨old, hold, rfl⟩ := ht
    exact ⟨hlt, old, hold, by rw [hnodes]⟩
  · right
    rw [← hnodes, OrderingTable.register_nodes_self] at ht
    exact ⟨rfl, (Option.some.inj ht).symm⟩

omit h in
private theorem getElem?_requests_register_of_ne (ht : t ≠ e.requests.length) :
    (e.register r).requests[t]? = e.requests[t]? := by
  rcases Nat.lt_or_gt_of_ne ht with hlt | hgt
  · exact List.getElem?_append_left hlt
  · rw [List.getElem?_eq_none (Nat.le_of_lt hgt), List.getElem?_eq_none (by simp [Epoch.register]; omega)]

private theorem mem_released_register :
    t ∈ (e.register r).released ↔ t ∈ e.released ∨ (t = e.requests.length ∧ e.table.predecessorsOf r = []) := by
  unfold Epoch.released
  rw [register_table, OrderingTable.register_ready, h.nodes_length]
  by_cases hnil : e.table.predecessorsOf r = []
  · simp only [hnil, if_true, List.map_append, List.map_cons, List.map_nil, List.mem_append, List.mem_singleton,
      and_true]
    exact or_right_comm
  · simp [hnil, Epoch.register]

theorem register (hfresh : Fresh e r) : (e.register r).Counted where
  nodes_length := by simp [Epoch.register, OrderingTable.register_nodes_length, h.nodes_length]
  recorded_length := by simp [Epoch.register, h.recorded_length]
  predecessors_lt t p hp := by
    rcases eq_or_ne t e.requests.length with rfl | hne
    · rw [predecessors_register_self h r] at hp
      exact (hfresh p hp).1
    · exact h.predecessors_lt t p (predecessors_register_of_ne h r hne ▸ hp)
  predecessors_nodup t := by
    rcases eq_or_ne t e.requests.length with rfl | hne
    · rw [predecessors_register_self h r]
      exact OrderingTable.predecessorsOf_nodup
    · rw [predecessors_register_of_ne h r hne]
      exact h.predecessors_nodup t
  node_count t node ht := by
    rcases register_node h r ht with ⟨hlt, old, hold, rfl⟩ | ⟨rfl, rfl⟩
    · rw [pending_register_of_ne h r (Nat.ne_of_lt hlt)]
      have := h.node_count t old hold
      split <;> exact this
    · rw [pending_register_self h r hfresh, if_neg]
      exact fun hc => Nat.lt_irrefl _ (h.lt_of_mem_completed hc)
  dependents_nodup t node ht := by
    rcases register_node h r ht with ⟨hlt, old, hold, rfl⟩ | ⟨rfl, rfl⟩
    · have hold_nodup := h.dependents_nodup t old hold
      split
      · refine List.nodup_append.mpr ⟨hold_nodup, List.nodup_singleton _, ?_⟩
        intro a ha b hb
        rw [List.mem_singleton.mp hb]
        rintro rfl
        have := ((h.mem_dependents t old hold _).mp ha).2
        rw [h.predecessors_of_le (Nat.le_refl _)] at this
        cases this
      · exact hold_nodup
    · exact List.nodup_nil
  mem_dependents t node ht d := by
    rcases register_node h r ht with ⟨hlt, old, hold, rfl⟩ | ⟨rfl, rfl⟩
    · have hmem := h.mem_dependents t old hold d
      rcases eq_or_ne d e.requests.length with rfl | hne
      · rw [predecessors_register_self h r]
        have hnot : e.requests.length ∉ old.dependents := by
          rw [hmem, h.predecessors_of_le (Nat.le_refl _)]
          simp
        split
        · rename_i hp
          simpa [hp] using (hfresh t hp).2
        · rename_i hp
          simp [hp, hnot]
      · rw [predecessors_register_of_ne h r hne]
        split <;> simpa [hne] using hmem
    · -- nothing can wait for the new ticket yet
      constructor
      · exact fun hd => absurd hd List.not_mem_nil
      · rintro ⟨_, hd⟩
        rcases eq_or_ne d e.requests.length with rfl | hne
        · rw [predecessors_register_self h r] at hd
          exact absurd (hfresh _ hd).1 (Nat.lt_irrefl _)
        · rw [predecessors_register_of_ne h r hne] at hd
          have hlt := h.predecessors_lt d _ hd
          rw [h.predecessors_of_le (Nat.le_of_lt hlt)] at hd
          cases hd
  blocked_iff t request := by
    rw [register_table, OrderingTable.register_blocked, h.nodes_length]
    rcases eq_or_ne t e.requests.length with rfl | hne
    · rw [pending_register_self h r hfresh]
      have hold : e.table.blocked e.requests.length = none :=
        Option.eq_none_iff_forall_not_mem.mpr fun a ha => by simpa using ((h.blocked_iff _ a).mp ha).1
      by_cases hnil : e.table.predecessorsOf r = [] <;> simp [hold, hnil]
    · rw [pending_register_of_ne h r hne, getElem?_requests_register_of_ne r hne]
      simpa [hne] using h.blocked_iff t request
  mem_released t := by
    rw [mem_released_register h r, h.mem_released]
    rcases eq_or_ne t e.requests.length with rfl | hne
    · simp [pending_register_self h r hfresh]
    · rw [pending_register_of_ne h r hne]
      simp only [hne, false_and, or_false, register_requests, List.length_append, List.length_singleton]
      have : t < e.requests.length + 1 ↔ t < e.requests.length := by omega
      rw [this]
  released_nodup := by
    have hnot : e.requests.length ∉ e.released := by simp [h.mem_released]
    have hnodup := h.released_nodup
    unfold Epoch.released at hnodup hnot ⊢
    rw [register_table, OrderingTable.register_ready, h.nodes_length]
    split
    · simp only [List.map_append, List.map_cons, List.map_nil, List.append_assoc, List.singleton_append]
      exact (List.perm_middle.nodup_iff).mpr (List.nodup_cons.mpr ⟨hnot, hnodup⟩)
    · simpa using hnodup
  ready_request next hnext := by
    rw [register_table, OrderingTable.register_ready, h.nodes_length] at hnext
    rcases List.mem_append.mp hnext with hnext | hnext
    · have hold := h.ready_request next hnext
      rw [getElem?_requests_register_of_ne r]
      · exact hold
      · exact Nat.ne_of_lt (List.getElem?_eq_some_iff.mp hold).1
    · split at hnext
      · rw [List.mem_singleton.mp hnext]
        simp [Epoch.register]
      · cases hnext
  completed_subset := h.completed_subset
  completed_nodup := h.completed_nodup
  outstanding := by
    have := h.outstanding
    simp only [Epoch.register, OrderingTable.register, List.length_append, List.length_singleton]
    omega

end Register

/-! ### Taking -/

theorem takeReady (h : e.Counted) : e.takeReady.Counted := by
  cases hready : e.table.ready with
  | nil =>
    have hsame : e.takeReady = e := by simp [Epoch.takeReady, OrderingTable.takeReady, hready]
    rw [hsame]
    exact h
  | cons next ready =>
    have heq : e.takeReady = { e with table := { e.table with ready }, taken := e.taken ++ [next.ticket] } := by
      simp [Epoch.takeReady, OrderingTable.takeReady, hready]
    have hperm : e.takeReady.released.Perm e.released := by
      rw [heq]
      unfold Epoch.released
      rw [hready, ← List.append_assoc, List.map_cons, List.cons_append]
      exact List.perm_append_singleton _ _
    have hreleased := h.mem_released
    have hnodup := h.released_nodup
    simp only [← hperm.mem_iff] at hreleased
    rw [← hperm.nodup_iff] at hnodup
    rw [heq] at hreleased hnodup ⊢
    exact { h with
      mem_released := hreleased
      released_nodup := hnodup
      ready_request := fun a ha => h.ready_request a (hready ▸ List.mem_cons_of_mem _ ha)
      completed_subset := fun a ha => List.mem_append_left _ (h.completed_subset ha) }

/-! ### Completing -/

section Complete

variable {c : Nat} (h : e.Counted) (hc : e.InFlight c)
include h hc

private theorem node_of_inFlight : ∃ node, e.table.nodes[c]? = some node ∧ node.dependents.Nodup ∧
    c ∉ node.dependents ∧ ∀ d, d ∈ node.dependents ↔ c ∈ e.predecessors d := by
  have hlt : c < e.table.nodes.length := h.nodes_length ▸ h.lt_of_mem_taken hc.1
  have hnode := List.getElem?_eq_getElem hlt
  have hmem := h.mem_dependents c _ hnode
  simp only [hc.2, not_false_eq_true, true_and] at hmem
  refine ⟨_, hnode, h.dependents_nodup c _ hnode, ?_, hmem⟩
  rw [hmem]
  exact fun hself => Nat.lt_irrefl _ (h.predecessors_lt c c hself)

omit h hc in
/-- Completing `c` removes it from what each ticket waits for. -/
theorem pending_complete (t : Nat) : (e.complete c).pending t = (e.pending t).filter (· != c) := by
  simp only [Epoch.pending, List.filter_filter]
  refine List.filter_congr fun p _ => ?_
  rw [Bool.eq_iff_iff]
  simp [and_comm]

private theorem length_pending_complete (ht : c ∈ e.predecessors t) :
    ((e.complete c).pending t).length + 1 = (e.pending t).length := by
  have hmem : c ∈ e.pending t := mem_pending.mpr ⟨ht, hc.2⟩
  have hnodup : (e.pending t).Nodup := (h.predecessors_nodup t).filter _
  rw [pending_complete, ← hnodup.erase_eq_filter, List.length_erase_of_mem hmem]
  have := List.length_pos_of_mem hmem
  omega

omit h hc in
private theorem pending_complete_of_not_mem (ht : c ∉ e.predecessors t) :
    (e.complete c).pending t = e.pending t := by
  rw [pending_complete, List.filter_eq_self]
  intro p hp
  rw [bne_iff_ne]
  rintro rfl
  exact ht (mem_pending.mp hp).1

/-- Completing `c` releases a dependent exactly when nothing else is pending for it. -/
private theorem released_dependent (ht : c ∈ e.predecessors t) :
    e.table.released t =
      if (e.complete c).pending t = [] then e.requests[t]?.map fun request => { ticket := t, request } else none := by
  have hlt := h.lt_of_mem_predecessors ht
  have hlen := length_pending_complete h hc ht
  have hne : e.pending t ≠ [] := List.ne_nil_of_length_pos (by omega)
  have hblocked : e.table.blocked t = e.requests[t]? :=
    Option.ext fun r => by rw [h.blocked_iff t r]; simp [hne]
  have hnode := List.getElem?_eq_getElem (h.nodes_length ▸ hlt)
  have hcount := h.node_count t _ hnode
  rw [if_neg fun hcomp => hne (h.pending_of_completed hcomp)] at hcount
  unfold OrderingTable.released
  rw [hblocked, hnode, Option.any_some, hcount]
  have hzero : (Predecessors.unfinished ((e.pending t).length - 1) == .unfinished 0) = true ↔
      (e.complete c).pending t = [] := by
    rw [← List.length_eq_zero_iff, beq_iff_eq, Predecessors.unfinished.injEq]
    omega
  simp only [Predecessors.pred, hzero]

/-- The dependents that completing `c` moves to the ready queue, in the order of the dependents list. -/
private theorem released_complete {node : TransactionNode} (hnode : e.table.nodes[c]? = some node)
    (hnodup : node.dependents.Nodup) (hself : c ∉ node.dependents)
    (hdeps : ∀ d, d ∈ node.dependents ↔ c ∈ e.predecessors d) :
    (e.complete c).released = e.table.ready.map (·.ticket) ++
      (node.dependents.filter fun d => (e.complete c).pending d = []) ++ e.taken := by
  have hmoved : (node.dependents.filterMap e.table.released).map (·.ticket) =
      node.dependents.filter fun d => (e.complete c).pending d = [] := by
    rw [List.map_filterMap, ← List.filterMap_eq_filter]
    refine List.filterMap_congr fun d hd => ?_
    have hlt := h.lt_of_mem_predecessors ((hdeps d).mp hd)
    rw [released_dependent h hc ((hdeps d).mp hd), List.getElem?_eq_getElem hlt]
    by_cases hnil : (e.complete c).pending d = [] <;> simp [hnil, Option.guard]
  unfold Epoch.released
  rw [complete_table, OrderingTable.complete_ready hnode hnodup hself, List.map_append, hmoved]
  rfl

/-- A ticket that waits for `c` alone is released by completing `c`; the others stay as they are. -/
private theorem pending_complete_eq_nil :
    (e.complete c).pending t = [] ↔
      e.pending t = [] ∨ (c ∈ e.predecessors t ∧ (e.complete c).pending t = []) := by
  by_cases ht : c ∈ e.predecessors t
  · have hlen := length_pending_complete h hc ht
    have hne : e.pending t ≠ [] := List.ne_nil_of_length_pos (by omega)
    simp [ht, hne]
  · simp [ht, pending_complete_of_not_mem ht]

private theorem completed_length_lt : e.completed.length < e.requests.length := by
  have hnodup : (c :: e.completed).Nodup := List.nodup_cons.mpr ⟨hc.2, h.completed_nodup⟩
  have hsub : c :: e.completed ⊆ List.range e.requests.length := by
    intro t ht
    rw [List.mem_range]
    rcases List.mem_cons.mp ht with rfl | ht
    · exact h.lt_of_mem_taken hc.1
    · exact h.lt_of_mem_completed ht
  have hle := (List.subperm_of_subset hnodup hsub).length_le
  rw [List.length_cons, List.length_range] at hle
  exact hle

theorem complete : (e.complete c).Counted := by
  obtain ⟨node, hnode, hnodup, hself, hdeps⟩ := node_of_inFlight h hc
  have hpred : ∀ t, (e.complete c).predecessors t = e.predecessors t := fun _ => rfl
  have hreleased := released_complete h hc hnode hnodup hself hdeps
  -- every other node keeps its dependents and loses one predecessor when it waits for `c`
  have hother : ∀ (t : Nat) n, t ≠ c → (e.complete c).table.nodes[t]? = some n → ∃ old,
      e.table.nodes[t]? = some old ∧ n = if c ∈ e.predecessors t then old.decrement else old := by
    intro t n hne ht
    rw [complete_table, OrderingTable.complete_nodes_of_ne hnode hnodup hne, Option.map_eq_some_iff] at ht
    obtain ⟨old, hold, rfl⟩ := ht
    exact ⟨old, hold, by simp only [hdeps]⟩
  have hsame : ∀ n, (e.complete c).table.nodes[c]? = some n → n = { predecessors := .complete, dependents := [] } := by
    intro n ht
    rw [complete_table, OrderingTable.complete_nodes_self hnode hnodup hself] at ht
    exact (Option.some.inj ht).symm
  exact {
    nodes_length := by simp [h.nodes_length]
    recorded_length := h.recorded_length
    predecessors_lt := h.predecessors_lt
    predecessors_nodup := h.predecessors_nodup
    node_count := by
      intro t n ht
      rcases eq_or_ne t c with rfl | hne
      · simp [hsame n ht]
      · obtain ⟨old, hold, rfl⟩ := hother t n hne ht
        have hcount := h.node_count t old hold
        have hcompleted : t ∈ (e.complete c).completed ↔ t ∈ e.completed := by simp [hne]
        simp only [hcompleted]
        by_cases hp : c ∈ e.predecessors t
        · have hlen := length_pending_complete h hc hp
          have hnot : t ∉ e.completed := fun hcomp => by simp [h.pending_of_completed hcomp] at hlen
          rw [if_neg hnot] at hcount
          simp [hp, hnot, TransactionNode.decrement, hcount, Predecessors.pred, ← hlen]
        · rw [if_neg hp, hcount, pending_complete_of_not_mem hp]
    dependents_nodup := by
      intro t n ht
      rcases eq_or_ne t c with rfl | hne
      · simp [hsame n ht]
      · obtain ⟨old, hold, rfl⟩ := hother t n hne ht
        have := h.dependents_nodup t old hold
        split <;> exact this
    mem_dependents := by
      intro t n ht d
      rcases eq_or_ne t c with rfl | hne
      · simp [hsame n ht]
      · obtain ⟨old, hold, rfl⟩ := hother t n hne ht
        have hmem := h.mem_dependents t old hold d
        rw [hpred]
        split <;> simpa [hne, TransactionNode.decrement] using hmem
    blocked_iff := by
      intro t r
      rw [complete_table, OrderingTable.complete_blocked hnode hnodup hself, complete_requests]
      simp only [hdeps]
      by_cases hp : c ∈ e.predecessors t
      · have hlen := length_pending_complete h hc hp
        have hne : e.pending t ≠ [] := List.ne_nil_of_length_pos (by omega)
        have hold := h.blocked_iff t r
        rw [released_dependent h hc hp]
        by_cases hnil : (e.complete c).pending t = []
        · simp [hp, hnil, List.getElem?_eq_getElem (h.lt_of_mem_predecessors hp)]
        · simpa [hnil, hne] using hold
      · simpa [hp, pending_complete_of_not_mem hp] using h.blocked_iff t r
    mem_released := by
      intro t
      have hold := h.mem_released t
      have hlt := fun hp : c ∈ e.predecessors t => h.lt_of_mem_predecessors hp
      rw [hreleased, complete_requests, pending_complete_eq_nil h hc]
      simp only [Epoch.released, List.mem_append, List.mem_filter, hdeps, decide_eq_true_eq] at hold ⊢
      rw [or_right_comm, hold, and_or_left]
      exact or_congr_right ⟨fun hm => ⟨hlt hm.1, hm⟩, And.right⟩
    released_nodup := by
      -- what moves was blocked before, so it was neither queued nor taken
      rw [hreleased, List.append_assoc, (List.perm_append_comm_assoc _ _ _).nodup_iff, List.nodup_append]
      refine ⟨hnodup.filter _, h.released_nodup, fun a ha b hb => ?_⟩
      rintro rfl
      have hp := (hdeps a).mp (List.mem_filter.mp ha).1
      have hlen := length_pending_complete h hc hp
      rw [((h.mem_released a).mp hb).2] at hlen
      simp at hlen
    ready_request := by
      intro next hnext
      rw [complete_table, OrderingTable.complete_ready hnode hnodup hself] at hnext
      rcases List.mem_append.mp hnext with hnext | hnext
      · exact h.ready_request next hnext
      · obtain ⟨d, hd, heq⟩ := List.mem_filterMap.mp hnext
        rw [released_dependent h hc ((hdeps d).mp hd)] at heq
        split at heq
        · obtain ⟨r, hr, rfl⟩ := Option.map_eq_some_iff.mp heq
          exact hr
        · cases heq
    completed_subset := by
      intro t ht
      rcases List.mem_append.mp ht with ht | ht
      · exact h.completed_subset ht
      · rw [List.mem_singleton.mp ht]
        exact hc.1
    completed_nodup := by
      rw [complete_completed, List.nodup_append]
      exact ⟨h.completed_nodup, List.nodup_singleton _, fun a ha b hb => by
        rw [List.mem_singleton.mp hb]
        exact ne_of_mem_of_not_mem ha hc.2⟩
    outstanding := by
      have := h.outstanding
      have hlt := completed_length_lt h hc
      simp only [complete_table, OrderingTable.complete_outstanding, complete_completed, List.length_append,
        List.length_singleton, complete_requests]
      omega }

end Complete

/-! ### Resetting -/

theorem reset (hempty : e.table.isEmpty = true) : e.reset = Epoch.start := by
  have hzero : e.table.outstanding = 0 := by simpa [OrderingTable.isEmpty] using hempty
  simp [Epoch.reset, Epoch.start, OrderingTable.reset, OrderingTable.new, hzero]

end Counted

end Epoch

end MagicEngine
