import Mathlib.Data.List.Destutter
import Mathlib.Data.List.Sort
import Mathlib.Logic.Function.Basic
import MagicEngine.Transaction

/-!
# The ordering table

The sequencer's dependency graph (`processor/src/sequencer/order.rs`). Requests are registered in stream
order and numbered by tickets, the indices of their nodes. Per account the table remembers the latest unfinished writer and the readers
since; a read follows that writer, a write follows the writer and those readers. A node counts its
unfinished predecessors, and the request becomes ready when the count reaches zero.

* `OrderingTable.register`, `takeReady`, `complete`, `reset` are the source's methods;
* `predecessorsOf` is the sorted, deduplicated predecessor list that `register` records;
* `mem_predecessorsOf` and `observeAll_frontier` describe one registration over distinct keys.
-/

namespace MagicEngine

/-- A node's `predecessors` field: the unfinished count, or the `COMPLETE` sentinel. -/
inductive Predecessors where
  | unfinished (count : Nat)
  | complete
deriving DecidableEq, Repr

/-- Unfinished transactions relevant to the next access of an account. -/
structure AccountFrontier where
  lastWriter : Option Nat := none
  readers : List Nat := []
deriving DecidableEq, Repr

structure TransactionNode where
  predecessors : Predecessors
  dependents : List Nat
deriving DecidableEq, Repr

/-- `predecessors - 1`; the sentinel is never decremented. -/
def Predecessors.pred : Predecessors → Predecessors
  | .unfinished count => .unfinished (count - 1)
  | .complete => .complete

def TransactionNode.decrement (node : TransactionNode) : TransactionNode :=
  { node with predecessors := node.predecessors.pred }

structure ReadyTransaction where
  ticket : Nat
  request : ExecutionRequest
deriving DecidableEq, Repr

/-- The arena and the per-account frontiers. An account without an entry has the default frontier, as
`entry(..).or_default()` reads it. -/
structure OrderingTable where
  accounts : Pubkey → AccountFrontier
  nodes : List TransactionNode
  blocked : Nat → Option ExecutionRequest
  ready : List ReadyTransaction
  outstanding : Nat

namespace OrderingTable

def new : OrderingTable :=
  { accounts := fun _ => {}, nodes := [], blocked := fun _ => none, ready := [], outstanding := 0 }

/-- `nodes[prior].predecessors == COMPLETE`. -/
def isComplete (nodes : List TransactionNode) (prior : Nat) : Bool :=
  nodes[prior]?.any (·.predecessors == .complete)

end OrderingTable

open OrderingTable in
/-- The body of the registration loop for one account: the new frontier and the predecessors found there. -/
def AccountFrontier.observe (nodes : List TransactionNode) (ticket : Nat) (writable : Bool)
    (frontier : AccountFrontier) : AccountFrontier × List Nat :=
  let lastWriter := frontier.lastWriter.filter (!isComplete nodes ·)
  if writable then
    let readers := frontier.readers.filter (!isComplete nodes ·)
    ({ lastWriter := some ticket, readers := [] }, lastWriter.toList ++ readers)
  else
    ({ lastWriter, readers := frontier.readers ++ [ticket] }, lastWriter.toList)

namespace OrderingTable

def observeOne (nodes : List TransactionNode) (ticket : Nat)
    (acc : (Pubkey → AccountFrontier) × List Nat) (access : Pubkey × Bool) :
    (Pubkey → AccountFrontier) × List Nat :=
  let (frontier, found) := (acc.1 access.1).observe nodes ticket access.2
  (Function.update acc.1 access.1 frontier, acc.2 ++ found)

def observeAll (nodes : List TransactionNode) (ticket : Nat) (accounts : Pubkey → AccountFrontier)
    (accesses : List (Pubkey × Bool)) : (Pubkey → AccountFrontier) × List Nat :=
  accesses.foldl (observeOne nodes ticket) (accounts, [])

/-- `sort_unstable` followed by `dedup`, which drops adjacent repetitions. -/
def sortDedup (tickets : List Nat) : List Nat :=
  (tickets.insertionSort (· ≤ ·)).destutter (· ≠ ·)

/-- The direct predecessors `register` records for `request`. -/
def predecessorsOf (table : OrderingTable) (request : ExecutionRequest) : List Nat :=
  sortDedup (observeAll table.nodes table.nodes.length table.accounts request.transaction.accesses).2

/-- `nodes[predecessor].dependents.push(ticket)`. -/
def pushDependent (ticket : Nat) (nodes : List TransactionNode) (predecessor : Nat) : List TransactionNode :=
  nodes.modify predecessor fun node => { node with dependents := node.dependents ++ [ticket] }

/-- Register a request after every earlier one; the flag says whether it has unfinished predecessors. -/
def register (table : OrderingTable) (request : ExecutionRequest) : Bool × OrderingTable :=
  let ticket := table.nodes.length
  let accounts := (observeAll table.nodes ticket table.accounts request.transaction.accesses).1
  let predecessors := table.predecessorsOf request
  let nodes := predecessors.foldl (pushDependent ticket) table.nodes
  let blocked := !predecessors.isEmpty
  (blocked,
    { accounts
      nodes := nodes ++ [{ predecessors := .unfinished predecessors.length, dependents := [] }]
      blocked := if blocked then Function.update table.blocked ticket (some request) else table.blocked
      ready := if blocked then table.ready else table.ready ++ [{ ticket, request }]
      outstanding := table.outstanding + 1 })

def takeReady (table : OrderingTable) : Option ReadyTransaction × OrderingTable :=
  match table.ready with
  | [] => (none, table)
  | next :: ready => (some next, { table with ready })

/-- One iteration of the completion loop: decrement a dependent and, at zero, move its request to the ready
queue. -/
def releaseOne (acc : OrderingTable × Nat) (dependent : Nat) : OrderingTable × Nat :=
  let (table, ready) := acc
  let nodes := table.nodes.modify dependent TransactionNode.decrement
  if nodes[dependent]?.any (·.predecessors == .unfinished 0) then
    match table.blocked dependent with
    | some request =>
      ({ table with
          nodes
          blocked := Function.update table.blocked dependent none
          ready := table.ready ++ [{ ticket := dependent, request }] }, ready + 1)
    | none => ({ table with nodes }, ready)
  else ({ table with nodes }, ready)

/-- The first half of `complete`: mark the node, empty its dependents, and count the transaction off. -/
def markComplete (table : OrderingTable) (ticket : Nat) : OrderingTable :=
  { table with
    nodes := table.nodes.modify ticket fun _ => { predecessors := .complete, dependents := [] }
    outstanding := table.outstanding - 1 }

/-- Complete a ticket; the number says how many dependents became ready. -/
def complete (table : OrderingTable) (ticket : Nat) : Nat × OrderingTable :=
  let dependents := (table.nodes[ticket]?.map (·.dependents)).getD []
  (dependents.foldl releaseOne (table.markComplete ticket, 0)).swap

def isEmpty (table : OrderingTable) : Bool := table.outstanding == 0

/-- Clear the arena and the frontiers. The source leaves `outstanding` alone; it asserts that it is zero. -/
def reset (table : OrderingTable) : OrderingTable :=
  { new with outstanding := table.outstanding }

/-! ### Sorting and deduplicating -/

private theorem mem_destutter'_ne {l : List Nat} {a p : Nat} :
    p ∈ l.destutter' (· ≠ ·) a ↔ p ∈ a :: l := by
  induction l generalizing a with
  | nil => simp
  | cons b l ih =>
    rw [List.destutter'_cons]
    split
    · simp only [List.mem_cons, ih]
    · rename_i h
      obtain rfl : a = b := not_not.mp h
      rw [ih]
      simp

@[simp]
theorem mem_sortDedup {l : List Nat} {p : Nat} : p ∈ sortDedup l ↔ p ∈ l := by
  have hsort : p ∈ l.insertionSort (· ≤ ·) ↔ p ∈ l := List.mem_insertionSort _
  rw [← hsort, sortDedup]
  cases l.insertionSort (· ≤ ·) with
  | nil => simp
  | cons a l => exact mem_destutter'_ne

/-- In a sorted list equal entries are adjacent, so dropping adjacent repetitions leaves no duplicate. -/
theorem sortDedup_nodup (l : List Nat) : (sortDedup l).Nodup := by
  unfold sortDedup
  have hle := (List.pairwise_insertionSort (· ≤ ·) l).sublist (List.destutter_sublist (· ≠ ·) _)
  have hne := List.isChain_destutter (· ≠ ·) (l.insertionSort (· ≤ ·))
  have hlt : ((l.insertionSort (· ≤ ·)).destutter (· ≠ ·)).IsChain (· < ·) := by
    rw [List.isChain_iff_getElem] at hne ⊢
    intro i hi
    exact lt_of_le_of_ne (hle.rel_get_of_lt (a := ⟨i, by omega⟩) (b := ⟨i + 1, hi⟩) (by simp)) (hne i hi)
  exact hlt.pairwise.imp fun h => Nat.ne_of_lt h

/-! ### One registration -/

private theorem observeAll_spec (nodes : List TransactionNode) (ticket : Nat)
    {accesses : List (Pubkey × Bool)} (hnodup : (accesses.map (·.1)).Nodup)
    (acc : (Pubkey → AccountFrontier) × List Nat) :
    (∀ k w, (k, w) ∈ accesses →
      (accesses.foldl (observeOne nodes ticket) acc).1 k = ((acc.1 k).observe nodes ticket w).1) ∧
    (∀ k, k ∉ accesses.map (·.1) → (accesses.foldl (observeOne nodes ticket) acc).1 k = acc.1 k) ∧
    (∀ p, p ∈ (accesses.foldl (observeOne nodes ticket) acc).2 ↔
      p ∈ acc.2 ∨ ∃ k w, (k, w) ∈ accesses ∧ p ∈ ((acc.1 k).observe nodes ticket w).2) := by
  induction accesses generalizing acc with
  | nil => simp
  | cons a accesses ih =>
    obtain ⟨key, writable⟩ := a
    obtain ⟨hkey, hnodup⟩ := List.nodup_cons.mp hnodup
    obtain ⟨hmem, hother, hfound⟩ := ih hnodup (observeOne nodes ticket acc (key, writable))
    -- the keys still to come are different from `key`, so their frontiers are the initial ones
    have hne : ∀ k w, (k, w) ∈ accesses → (observeOne nodes ticket acc (key, writable)).1 k = acc.1 k := by
      intro k w hk
      refine Function.update_of_ne ?_ ..
      rintro rfl
      exact hkey (List.mem_map_of_mem (f := (·.1)) hk)
    refine ⟨?_, ?_, ?_⟩
    · intro k w hk
      rcases List.mem_cons.mp hk with hk | hk
      · cases hk
        rw [List.foldl_cons, hother key hkey]
        exact Function.update_self ..
      · rw [List.foldl_cons, hmem k w hk, hne k w hk]
    · intro k hk
      simp only [List.map_cons, List.mem_cons, not_or] at hk
      rw [List.foldl_cons, hother k hk.2]
      exact Function.update_of_ne hk.1 ..
    · intro p
      rw [List.foldl_cons, hfound]
      have hthis : p ∈ (observeOne nodes ticket acc (key, writable)).2 ↔
          p ∈ acc.2 ∨ p ∈ ((acc.1 key).observe nodes ticket writable).2 := by
        simp [observeOne]
      rw [hthis, or_assoc]
      refine or_congr_right ⟨?_, ?_⟩
      · rintro (h | ⟨k, w, hk, h⟩)
        · exact ⟨key, writable, List.mem_cons_self, h⟩
        · exact ⟨k, w, List.mem_cons_of_mem _ hk, hne k w hk ▸ h⟩
      · rintro ⟨k, w, hk, h⟩
        rcases List.mem_cons.mp hk with hk | hk
        · cases hk
          exact Or.inl h
        · exact Or.inr ⟨k, w, hk, (hne k w hk).symm ▸ h⟩

variable {table : OrderingTable} {request : ExecutionRequest}

theorem register_frontier {k : Pubkey} {w : Bool} (h : (k, w) ∈ request.transaction.accesses) :
    (table.register request).2.accounts k = ((table.accounts k).observe table.nodes table.nodes.length w).1 :=
  (observeAll_spec _ _ request.transaction.accesses_nodup (table.accounts, [])).1 k w h

theorem register_frontier_of_not_mem {k : Pubkey} (h : k ∉ request.transaction.staticAccountKeys) :
    (table.register request).2.accounts k = table.accounts k := by
  rw [← request.transaction.accesses_map_fst] at h
  exact (observeAll_spec _ _ request.transaction.accesses_nodup (table.accounts, [])).2.1 k h

theorem mem_predecessorsOf {p : Nat} :
    p ∈ table.predecessorsOf request ↔ ∃ k w, (k, w) ∈ request.transaction.accesses ∧
      p ∈ ((table.accounts k).observe table.nodes table.nodes.length w).2 := by
  have h := (observeAll_spec table.nodes table.nodes.length request.transaction.accesses_nodup
    (table.accounts, [])).2.2 p
  unfold predecessorsOf
  rw [mem_sortDedup]
  simpa [observeAll] using h

theorem predecessorsOf_nodup : (table.predecessorsOf request).Nodup := sortDedup_nodup _

theorem mem_observe {nodes : List TransactionNode} {ticket p : Nat} {w : Bool} {frontier : AccountFrontier} :
    p ∈ (frontier.observe nodes ticket w).2 ↔ isComplete nodes p = false ∧
      (frontier.lastWriter = some p ∨ (w = true ∧ p ∈ frontier.readers)) := by
  cases w <;> simp [AccountFrontier.observe, and_comm, or_and_right]

private theorem length_foldl_pushDependent (ticket : Nat) (predecessors : List Nat)
    (nodes : List TransactionNode) : (predecessors.foldl (pushDependent ticket) nodes).length = nodes.length := by
  induction predecessors generalizing nodes with
  | nil => rfl
  | cons a predecessors ih => rw [List.foldl_cons, ih, pushDependent, List.length_modify]

private theorem getElem?_foldl_pushDependent (ticket : Nat) {predecessors : List Nat}
    (hnodup : predecessors.Nodup) (nodes : List TransactionNode) (i : Nat) :
    (predecessors.foldl (pushDependent ticket) nodes)[i]? = nodes[i]?.map fun node =>
      if i ∈ predecessors then { node with dependents := node.dependents ++ [ticket] } else node := by
  induction predecessors generalizing nodes with
  | nil => simp
  | cons a predecessors ih =>
    obtain ⟨ha, hnodup⟩ := List.nodup_cons.mp hnodup
    rw [List.foldl_cons, ih hnodup, pushDependent, List.getElem?_modify, Option.map_eq_map, Option.map_map]
    congr 1
    funext node
    rcases eq_or_ne a i with rfl | hne
    · simp [ha]
    · simp [hne, hne.symm]

theorem register_nodes_length : (table.register request).2.nodes.length = table.nodes.length + 1 := by
  simp [register, length_foldl_pushDependent]

variable {i : Nat}

/-- Registration only adds the new ticket to the dependents of its predecessors. -/
theorem register_nodes_of_lt (h : i < table.nodes.length) :
    (table.register request).2.nodes[i]? = table.nodes[i]?.map fun node =>
      if i ∈ table.predecessorsOf request then
        { node with dependents := node.dependents ++ [table.nodes.length] }
      else node := by
  have hlen := length_foldl_pushDependent table.nodes.length (table.predecessorsOf request) table.nodes
  simp only [register]
  rw [List.getElem?_append_left (by rw [hlen]; exact h), getElem?_foldl_pushDependent _ predecessorsOf_nodup]

theorem register_nodes_self :
    (table.register request).2.nodes[table.nodes.length]? =
      some { predecessors := .unfinished (table.predecessorsOf request).length, dependents := [] } := by
  have hlen := length_foldl_pushDependent table.nodes.length (table.predecessorsOf request) table.nodes
  simp only [register]
  rw [List.getElem?_append_right (by omega)]
  simp [hlen]

theorem register_blocked (i : Nat) :
    (table.register request).2.blocked i =
      if i = table.nodes.length ∧ table.predecessorsOf request ≠ [] then some request else table.blocked i := by
  by_cases hnil : table.predecessorsOf request = []
  · simp [register, hnil]
  · rcases eq_or_ne i table.nodes.length with rfl | hne
    · simp [register, hnil]
    · simp [register, hnil, hne]

theorem register_ready :
    (table.register request).2.ready = table.ready ++
      if table.predecessorsOf request = [] then [{ ticket := table.nodes.length, request }] else [] := by
  by_cases hnil : table.predecessorsOf request = [] <;> simp [register, hnil]

/-! ### One completion -/

/-- The transaction that `releaseOne` moves to the ready queue for a dependent, if any. -/
def released (table : OrderingTable) (dependent : Nat) : Option ReadyTransaction :=
  if table.nodes[dependent]?.any (·.predecessors.pred == .unfinished 0) then
    (table.blocked dependent).map fun request => { ticket := dependent, request }
  else none

private theorem releaseOne_eq (acc : OrderingTable × Nat) (d : Nat) :
    (releaseOne acc d).1 =
      { acc.1 with
        nodes := acc.1.nodes.modify d TransactionNode.decrement
        blocked := if (acc.1.released d).isSome then Function.update acc.1.blocked d none else acc.1.blocked
        ready := acc.1.ready ++ (acc.1.released d).toList } := by
  have hany : (acc.1.nodes.modify d TransactionNode.decrement)[d]?.any (·.predecessors == .unfinished 0) =
      acc.1.nodes[d]?.any (·.predecessors.pred == .unfinished 0) := by
    rw [List.getElem?_modify]
    cases acc.1.nodes[d]? <;> simp [TransactionNode.decrement]
  simp only [releaseOne, hany, released]
  split
  · cases acc.1.blocked d <;> simp
  · simp

private theorem released_releaseOne_of_ne (acc : OrderingTable × Nat) {d : Nat} (h : i ≠ d) :
    released (releaseOne acc d).1 i = acc.1.released i := by
  have hnode : (acc.1.nodes.modify d TransactionNode.decrement)[i]? = acc.1.nodes[i]? := by
    rw [List.getElem?_modify]
    simp [h.symm]
  have hblocked : (if (acc.1.released d).isSome then Function.update acc.1.blocked d none else acc.1.blocked) i =
      acc.1.blocked i := by
    split
    · exact Function.update_of_ne h ..
    · rfl
  rw [releaseOne_eq]
  unfold released at hblocked ⊢
  simp only [hnode, hblocked]

private theorem foldl_releaseOne_frame (dependents : List Nat) (acc : OrderingTable × Nat) :
    (dependents.foldl releaseOne acc).1.accounts = acc.1.accounts ∧
    (dependents.foldl releaseOne acc).1.outstanding = acc.1.outstanding ∧
    (dependents.foldl releaseOne acc).1.nodes.length = acc.1.nodes.length := by
  induction dependents generalizing acc with
  | nil => simp
  | cons d dependents ih =>
    obtain ⟨haccounts, hout, hlen⟩ := ih (releaseOne acc d)
    rw [List.foldl_cons, haccounts, hout, hlen, releaseOne_eq]
    simp

variable {dependents : List Nat}

private theorem foldl_releaseOne_nodes (hnodup : dependents.Nodup)
    (acc : OrderingTable × Nat) (i : Nat) :
    (dependents.foldl releaseOne acc).1.nodes[i]? =
      acc.1.nodes[i]?.map fun node => if i ∈ dependents then node.decrement else node := by
  induction dependents generalizing acc with
  | nil => simp
  | cons d dependents ih =>
    obtain ⟨hd, hnodup⟩ := List.nodup_cons.mp hnodup
    rw [List.foldl_cons, ih hnodup, releaseOne_eq, List.getElem?_modify, Option.map_eq_map, Option.map_map]
    congr 1
    funext node
    rcases eq_or_ne d i with rfl | hne
    · simp [hd]
    · simp [hne, hne.symm]

private theorem foldl_releaseOne_blocked (hnodup : dependents.Nodup)
    (acc : OrderingTable × Nat) (i : Nat) :
    (dependents.foldl releaseOne acc).1.blocked i =
      if i ∈ dependents ∧ (acc.1.released i).isSome then none else acc.1.blocked i := by
  induction dependents generalizing acc with
  | nil => simp
  | cons d dependents ih =>
    obtain ⟨hd, hnodup⟩ := List.nodup_cons.mp hnodup
    rw [List.foldl_cons, ih hnodup]
    rcases eq_or_ne i d with rfl | hne
    · simp only [hd, false_and, if_false, List.mem_cons_self, true_and, releaseOne_eq]
      split <;> simp
    · rw [released_releaseOne_of_ne acc hne]
      simp only [List.mem_cons, hne, false_or]
      congr 1
      rw [releaseOne_eq]
      simp only
      split
      · exact Function.update_of_ne hne ..
      · rfl

private theorem foldl_releaseOne_ready (hnodup : dependents.Nodup)
    (acc : OrderingTable × Nat) :
    (dependents.foldl releaseOne acc).1.ready = acc.1.ready ++ dependents.filterMap acc.1.released := by
  induction dependents generalizing acc with
  | nil => simp
  | cons d dependents ih =>
    obtain ⟨hd, hnodup⟩ := List.nodup_cons.mp hnodup
    have hrest : dependents.filterMap (releaseOne acc d).1.released = dependents.filterMap acc.1.released :=
      List.filterMap_congr fun i hi => released_releaseOne_of_ne acc (ne_of_mem_of_not_mem hi hd)
    rw [List.foldl_cons, ih hnodup, hrest, releaseOne_eq]
    cases h : acc.1.released d <;> simp [h]

section Complete

variable {ticket : Nat} {node : TransactionNode}

private theorem complete_eq (h : table.nodes[ticket]? = some node) :
    (table.complete ticket).2 = (node.dependents.foldl releaseOne (table.markComplete ticket, 0)).1 := by
  simp [complete, h]

private theorem markComplete_nodes_of_ne (h : i ≠ ticket) :
    (table.markComplete ticket).nodes[i]? = table.nodes[i]? := by
  rw [markComplete, List.getElem?_modify]
  simp [h.symm]

private theorem released_markComplete (h : i ≠ ticket) :
    (table.markComplete ticket).released i = table.released i := by
  unfold released
  rw [markComplete_nodes_of_ne h]
  rfl

@[simp]
theorem complete_accounts (table : OrderingTable) (ticket : Nat) :
    (table.complete ticket).2.accounts = table.accounts :=
  (foldl_releaseOne_frame _ _).1

@[simp]
theorem complete_outstanding (table : OrderingTable) (ticket : Nat) :
    (table.complete ticket).2.outstanding = table.outstanding - 1 :=
  (foldl_releaseOne_frame _ _).2.1

@[simp]
theorem complete_nodes_length (table : OrderingTable) (ticket : Nat) :
    (table.complete ticket).2.nodes.length = table.nodes.length :=
  (foldl_releaseOne_frame _ _).2.2.trans (List.length_modify ..)

theorem complete_nodes_self (h : table.nodes[ticket]? = some node) (hnodup : node.dependents.Nodup)
    (hself : ticket ∉ node.dependents) :
    (table.complete ticket).2.nodes[ticket]? = some { predecessors := .complete, dependents := [] } := by
  rw [complete_eq h, foldl_releaseOne_nodes hnodup, markComplete, List.getElem?_modify, h]
  simp [hself]

/-- The other nodes only lose one predecessor, if they were waiting for `ticket`. -/
theorem complete_nodes_of_ne (h : table.nodes[ticket]? = some node) (hnodup : node.dependents.Nodup)
    (hne : i ≠ ticket) :
    (table.complete ticket).2.nodes[i]? =
      table.nodes[i]?.map fun n => if i ∈ node.dependents then n.decrement else n := by
  rw [complete_eq h, foldl_releaseOne_nodes hnodup, markComplete_nodes_of_ne hne]

theorem complete_blocked (h : table.nodes[ticket]? = some node) (hnodup : node.dependents.Nodup)
    (hself : ticket ∉ node.dependents) (i : Nat) :
    (table.complete ticket).2.blocked i =
      if i ∈ node.dependents ∧ (table.released i).isSome then none else table.blocked i := by
  rw [complete_eq h, foldl_releaseOne_blocked hnodup]
  by_cases hi : i ∈ node.dependents
  · rw [released_markComplete (ne_of_mem_of_not_mem hi hself)]
    rfl
  · simp only [hi, false_and, if_false]
    rfl

theorem complete_ready (h : table.nodes[ticket]? = some node) (hnodup : node.dependents.Nodup)
    (hself : ticket ∉ node.dependents) :
    (table.complete ticket).2.ready = table.ready ++ node.dependents.filterMap table.released := by
  rw [complete_eq h, foldl_releaseOne_ready hnodup]
  congr 1
  exact List.filterMap_congr fun i hi => released_markComplete (ne_of_mem_of_not_mem hi hself)

end Complete

end OrderingTable

end MagicEngine
