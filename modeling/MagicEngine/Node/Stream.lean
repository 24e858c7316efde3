import MagicEngine.Lib.Transition
import MagicEngine.Node.Lifecycle

/-!
# The stream of a node

What the steps of a node do to its stream. A seal is on its way from the moment the tree carries the new superblock id
until the appender rotates; at most one is, and it seals the head of the ledger or, with a staged snapshot, a later
superblock of the leader (`Paced`). So the appender only moves entries of the stream into the ledger (`stream_append`),
and every other step extends the stream or, when the process ends, cuts it back to what is published.
-/

namespace MagicEngine

variable {η δ : Type}

/-! ### The stores of the appender -/

/-- Nothing is published behind the head. -/
structure NodeLedger.Fresh (ledger : NodeLedger η δ) : Prop where
  head_pos : 1 ≤ ledger.head
  entries : ∀ id, ledger.head < id → ledger.entries id = []

theorem NodeLedger.published_update {ledger : NodeLedger η δ} (ledger' : NodeLedger η δ)
    {entries : List (BlockstoreEntry η δ)} (hpos : 1 ≤ ledger.head) (hhead : ledger'.head = ledger.head)
    (hentries : ledger'.entries =
      Function.update ledger.entries ledger.head (ledger.entries ledger.head ++ entries)) :
    ledger'.published = ledger.published ++ entries := by
  obtain ⟨n, hn⟩ : ∃ n, ledger.head = n + 1 := ⟨ledger.head - 1, by omega⟩
  have hold : (List.range' 1 n).flatMap (Function.update ledger.entries (n + 1) (ledger.entries (n + 1) ++ entries)) =
      (List.range' 1 n).flatMap ledger.entries := by
    refine List.flatMap_congr fun id hid => ?_
    have hne : id ≠ n + 1 := by
      rw [List.mem_range'_1] at hid
      omega
    rw [Function.update_of_ne hne]
  simp only [published, hhead, hentries, hn, List.range'_concat, List.flatMap_append, hold]
  simp [Nat.add_comm 1 n]

theorem NodeLedger.Fresh.published_rotate {ledger : NodeLedger η δ} (ledger' : NodeLedger η δ) (h : ledger.Fresh)
    (hhead : ledger.head ≤ ledger'.head) (hentries : ledger'.entries = ledger.entries) :
    ledger'.published = ledger.published := by
  obtain ⟨n, hn⟩ := Nat.exists_eq_add_of_le hhead
  have hnew : (List.range' (1 + ledger.head) n).flatMap ledger.entries = [] := by
    rw [List.flatMap_eq_nil_iff]
    intro id hid
    rw [List.mem_range'_1] at hid
    exact h.entries id (by omega)
  have hsplit := List.range'_append_1 (s := 1) (m := ledger.head) (n := n)
  unfold published
  rw [hn, hentries, ← hsplit, List.flatMap_append, hnew, List.append_nil]

def LedgerOp.entry : LedgerOp η δ → Option (BlockstoreEntry η δ)
  | .write entry => some entry
  | _ => none

namespace NodeAppender

variable {a : NodeAppender η δ} {op : LedgerOp η δ} {ops : List (LedgerOp η δ)}

/-- What is published and what is written. -/
def stream (a : NodeAppender η δ) : List (BlockstoreEntry η δ) := a.ledger.published ++ a.buffer

/-- Every store moves entries along the stream, and only `write` adds one. -/
theorem exec_spec (op : LedgerOp η δ) (h : a.ledger.Fresh) (hhead : ∀ id, op = .storeHead id → a.ledger.head ≤ id) :
    (a.exec op).ledger.Fresh ∧ (a.exec op).stream = a.stream ++ op.entry.toList := by
  cases op with
  | write entry => exact ⟨h, (List.append_assoc ..).symm⟩
  | storeCursor =>
    have hpublished := NodeLedger.published_update (a.exec .storeCursor).ledger h.head_pos rfl rfl
    refine ⟨⟨h.head_pos, fun id hid => ?_⟩, ?_⟩
    · rw [← h.entries id hid]
      exact Function.update_of_ne (Nat.ne_of_gt hid) ..
    · rw [stream, hpublished]
      rfl
  | storeHead id =>
    have hle := hhead id rfl
    have hpublished := h.published_rotate (a.exec (.storeHead id)).ledger hle rfl
    refine ⟨⟨h.head_pos.trans hle, fun id' hid' => h.entries id' (hle.trans_lt hid')⟩, ?_⟩
    rw [stream, hpublished]
    exact (List.append_nil _).symm
  | popOldest | dropSuperblock | purgeOldest =>
    simp only [exec]
    split
    all_goals exact ⟨{ h with }, (List.append_nil _).symm⟩
  | _ => exact ⟨{ h with }, (List.append_nil _).symm⟩

theorem head_exec (hhead : ∀ id, op ≠ .storeHead id) : (a.exec op).ledger.head = a.ledger.head := by
  cases op with
  | storeHead id => exact absurd rfl (hhead id)
  | popOldest | dropSuperblock | purgeOldest =>
    simp only [exec]
    split <;> rfl
  | _ => rfl

/-- Any stores of an event, all of them or those before a crash. -/
theorem foldl_spec (top : Nat) (h : a.ledger.Fresh) (hle : a.ledger.head ≤ top) (htop : ∀ id, .storeHead id ∈ ops → id = top) :
    (ops.foldl exec a).ledger.Fresh ∧ (ops.foldl exec a).stream = a.stream ++ ops.filterMap LedgerOp.entry := by
  induction ops generalizing a with
  | nil => exact ⟨h, (List.append_nil _).symm⟩
  | cons op ops ih =>
    have hrest : ∀ id, .storeHead id ∈ ops → id = top := fun id hid => htop id (List.mem_cons_of_mem op hid)
    obtain ⟨hfresh, hstream⟩ := exec_spec op h fun id hid => by
      rw [htop id (hid ▸ List.mem_cons_self)]
      exact hle
    have hle' : (a.exec op).ledger.head ≤ top := by
      by_cases hhead : ∃ id, op = .storeHead id
      · obtain ⟨id, rfl⟩ := hhead
        exact (htop id List.mem_cons_self).le
      · rw [head_exec fun id hid => hhead ⟨id, hid⟩]
        exact hle
    obtain ⟨hfresh', hstream'⟩ := ih hfresh hle' hrest
    refine ⟨hfresh', ?_⟩
    rw [List.foldl_cons, hstream', hstream, List.append_assoc]
    cases hentry : op.entry <;> simp [hentry]

theorem head_foldl (hops : ∀ id, .storeHead id ∉ ops) : (ops.foldl exec a).ledger.head = a.ledger.head := by
  induction ops generalizing a with
  | nil => rfl
  | cons op ops ih =>
    rw [List.foldl_cons, ih fun id hid => hops id (List.mem_cons_of_mem op hid),
      head_exec fun id hid => hops id (hid ▸ List.mem_cons_self)]

end NodeAppender

namespace LedgerEvent

variable {event : LedgerEvent η δ}

theorem filterMap_entry_ops : event.ops.filterMap LedgerOp.entry = event.entry.toList := by
  cases event with
  | block b sizeExceeded =>
    simp only [ops]
    split <;> rfl
  | _ => rfl

theorem storeHead_mem_ops {id : Nat} (h : .storeHead id ∈ event.ops) : ∃ s, event = .superblock s ∧ id = s.id + 1 := by
  cases event with
  | superblock s =>
    refine ⟨s, rfl, ?_⟩
    simpa [ops, LedgerOp.publish, LedgerOp.rotate] using h
  | block b sizeExceeded =>
    simp only [ops] at h
    split at h <;> simp [LedgerOp.publish, LedgerOp.truncate] at h
  | _ => simp [ops, LedgerOp.publish] at h

end LedgerEvent

namespace NodeLedger

variable {ledger : NodeLedger η δ} {event : LedgerEvent η δ}

private theorem foldl_take (buffer : List (BlockstoreEntry η δ)) (stores : Nat) (h : ledger.Fresh)
    (hseal : ∀ s, event = .superblock s → ledger.head ≤ s.id) :
    ((event.ops.take stores).foldl NodeAppender.exec (ledger.appender buffer)).ledger.Fresh ∧
      ((event.ops.take stores).foldl NodeAppender.exec (ledger.appender buffer)).stream =
        ledger.published ++ buffer ++ (event.ops.take stores).filterMap LedgerOp.entry := by
  by_cases hevent : ∃ s, event = .superblock s
  · obtain ⟨s, rfl⟩ := hevent
    refine NodeAppender.foldl_spec (s.id + 1) h ((hseal s rfl).trans (Nat.le_succ _)) fun id hid => ?_
    obtain ⟨s', hs', rfl⟩ := LedgerEvent.storeHead_mem_ops (List.mem_of_mem_take hid)
    cases hs'
    rfl
  · refine NodeAppender.foldl_spec ledger.head h le_rfl fun id hid => ?_
    obtain ⟨s, hs, -⟩ := LedgerEvent.storeHead_mem_ops (List.mem_of_mem_take hid)
    exact absurd ⟨s, hs⟩ hevent

/-- The appender moves what it wrote from the buffer to the ledger. -/
theorem Fresh.append (buffer : List (BlockstoreEntry η δ)) (event : LedgerEvent η δ) (h : ledger.Fresh)
    (hseal : ∀ s, event = .superblock s → ledger.head ≤ s.id) :
    (ledger.append buffer event).1.Fresh ∧
      (ledger.append buffer event).1.published ++ (ledger.append buffer event).2 =
        ledger.published ++ buffer ++ event.entry.toList := by
  have hall := foldl_take buffer event.ops.length h hseal
  rwa [List.take_length, LedgerEvent.filterMap_entry_ops] at hall

/-- A crash in the middle of an event leaves a part of the stream. -/
theorem Fresh.appendCut (buffer : List (BlockstoreEntry η δ)) (stores : Nat) (event : LedgerEvent η δ) (h : ledger.Fresh)
    (hseal : ∀ s, event = .superblock s → ledger.head ≤ s.id) :
    (ledger.appendCut buffer stores event).Fresh ∧
      (ledger.appendCut buffer stores event).published <+: ledger.published ++ buffer ++ event.entry.toList := by
  obtain ⟨hfresh, hstream⟩ := foldl_take buffer stores h hseal
  have hwritten : (event.ops.take stores).filterMap LedgerOp.entry <+: event.entry.toList := by
    rw [← LedgerEvent.filterMap_entry_ops]
    exact (List.take_prefix stores event.ops).filterMap _
  refine ⟨hfresh, ?_⟩
  calc (ledger.appendCut buffer stores event).published
    _ <+: ((event.ops.take stores).foldl NodeAppender.exec (ledger.appender buffer)).stream := List.prefix_append _ _
    _ = ledger.published ++ buffer ++ (event.ops.take stores).filterMap LedgerOp.entry := hstream
    _ <+: ledger.published ++ buffer ++ event.entry.toList := (List.prefix_append_right_inj _).mpr hwritten

theorem head_append (ledger : NodeLedger η δ) (buffer : List (BlockstoreEntry η δ))
    (hevent : ∀ s, event ≠ .superblock s) : (ledger.append buffer event).1.head = ledger.head := by
  refine NodeAppender.head_foldl (a := ledger.appender buffer) fun id hid => ?_
  obtain ⟨s, hs, -⟩ := LedgerEvent.storeHead_mem_ops hid
  exact hevent s hs

theorem head_appendCut (ledger : NodeLedger η δ) (buffer : List (BlockstoreEntry η δ)) (stores : Nat)
    (hevent : ∀ s, event ≠ .superblock s) : (ledger.appendCut buffer stores event).head = ledger.head := by
  refine NodeAppender.head_foldl (a := ledger.appender buffer) fun id hid => ?_
  obtain ⟨s, hs, -⟩ := LedgerEvent.storeHead_mem_ops (List.mem_of_mem_take hid)
  exact hevent s hs

end NodeLedger

/-! ### Seals on their way -/

variable {event : LedgerEvent η δ}

theorem LedgerEvent.sealId_eq_none (hevent : ∀ s, event ≠ .superblock s) :
    event.sealId = none := by
  cases event with
  | superblock s => exact absurd rfl (hevent s)
  | _ => rfl

namespace NodeProcess

def announced (p : NodeProcess η δ) : List Nat :=
  p.seals ++
    match p.phase with
    | .sealing | .sealFlushed => [p.keeper.tree.superblock]
    | _ => []

theorem seals_send (p : NodeProcess η δ) (hevent : ∀ s, event ≠ .superblock s) :
    (p.send event).seals = p.seals := by
  simp [send, seals, List.filterMap_append, LedgerEvent.sealId_eq_none hevent]

theorem seals_send_superblock (p : NodeProcess η δ) (s : SuperblockSeal δ) :
    (p.send (.superblock s)).seals = p.seals ++ [s.id] := by
  simp [send, seals, List.filterMap_append, LedgerEvent.sealId]

variable {p p' : NodeProcess η δ}

theorem announced_of_idle (hseals : p'.seals = p.seals)
    (hphase : p.phase ≠ .sealing ∧ p.phase ≠ .sealFlushed) (hphase' : p'.phase ≠ .sealing ∧ p'.phase ≠ .sealFlushed) :
    p'.announced = p.announced := by
  have hnone : ∀ q : NodeProcess η δ, q.phase ≠ .sealing ∧ q.phase ≠ .sealFlushed → q.announced = q.seals := by
    intro q hq
    unfold announced
    split <;> simp_all
  rw [hnone p hphase, hnone p' hphase', hseals]

theorem announced_congr (hseals : p'.seals = p.seals) (hphase : p'.phase = p.phase)
    (hsuperblock : p'.keeper.tree.superblock = p.keeper.tree.superblock) : p'.announced = p.announced := by
  unfold announced
  rw [hseals, hphase, hsuperblock]

theorem idle_of_atBarrier [DecidableEq η] {p : NodeProcess η δ} (h : p.atBarrier = true) : p.phase = .idle := by
  simp only [atBarrier, Bool.and_eq_true, beq_iff_eq] at h
  exact h.1

/-- A submission leaves everything but the caches alone, or sends the transaction. -/
theorem submit_cases (p : NodeProcess η δ) (t : LedgerTransaction η) :
    let caches := (p.keeper.caches.append t).1
    (∃ e, (p.keeper.caches.append t).2 = .error e ∧ p.submit t = { p with keeper := { p.keeper with caches } }) ∨
      (p.keeper.caches.append t).2 = .ok () ∧
        p.submit t = { p with
          keeper := { p.keeper with caches }, queue := p.queue ++ [.transaction t]
          hasher := p.hasher.update t.signature, pending := p.pending ++ [t], boundary := false } := by
  dsimp only [submit]
  cases hresult : (p.keeper.caches.append t).2 with
  | error e => exact .inl ⟨e, rfl, rfl⟩
  | ok u => exact .inr ⟨rfl, rfl⟩

theorem execute_eq_some {env : NodeEnv η δ} {index : Nat}
    (h : p.execute env index = some p') : ∃ keeper pending uncounted, p' = { p with keeper, pending, uncounted } ∧
      keeper.tree.superblock = p.keeper.tree.superblock := by
  unfold execute at h
  split at h
  · cases h
  · dsimp only at h
    split at h <;> cases h
    exact ⟨_, _, _, rfl, rfl⟩

end NodeProcess

namespace Node

variable {env : NodeEnv η δ} {w w' : Node η δ} {p p' : NodeProcess η δ} {action : NodeAction η δ}

theorem stream_of_process (hp : w.process = some p) :
    w.stream = w.disk.ledger.published ++ p.buffer ++ p.queue.filterMap (·.entry) := by
  simp [stream, hp]

theorem stream_of_stopped (hp : w.process = none) : w.stream = w.disk.ledger.published := by
  simp [stream, hp]

theorem stream_send {events : List (LedgerEvent η δ)} (hp : w.process = some p)
    (hledger : w'.disk.ledger = w.disk.ledger) (hp' : w'.process = some p') (hbuffer : p'.buffer = p.buffer)
    (hqueue : p'.queue = p.queue ++ events) : w'.stream = w.stream ++ events.filterMap (·.entry) := by
  rw [stream_of_process hp, stream_of_process hp', hledger, hbuffer, hqueue, List.filterMap_append, ← List.append_assoc]

/-- Nothing is published behind the head, and at most one seal is on its way, one of the head or a later superblock. -/
structure Paced (w : Node η δ) : Prop where
  fresh : w.disk.ledger.Fresh
  announced : ∀ p, w.process = some p → p.announced = [] ∨ ∃ id, w.disk.ledger.head ≤ id ∧ p.announced = [id]

theorem paced_initial (checksum : δ) : (initial checksum : Node η δ).Paced where
  fresh := ⟨le_refl 1, fun _ _ => rfl⟩
  announced _ hp := by cases hp

theorem Paced.of_announced (hw : w.Paced) (hp : w.process = some p)
    (hledger : w'.disk.ledger = w.disk.ledger) (hp' : w'.process = some p')
    (hannounced : p'.announced = p.announced) : w'.Paced where
  fresh := hledger ▸ hw.fresh
  announced q hq := by
    cases hp'.symm.trans hq
    rw [hannounced, hledger]
    exact hw.announced p hp

theorem Paced.of_stopped (hfresh : w'.disk.ledger.Fresh) (hp' : w'.process = none) : w'.Paced where
  fresh := hfresh
  announced q hq := by
    rw [hp'] at hq
    cases hq

variable {queue : List (LedgerEvent η δ)}

/-- The seal that the appender comes to is the one that was announced. -/
theorem Paced.seal_head {s : SuperblockSeal δ} (hw : w.Paced) (hp : w.process = some p)
    (hqueue : p.queue = .superblock s :: queue) : w.disk.ledger.head ≤ s.id ∧ p.announced = [s.id] := by
  have hmem : s.id ∈ p.announced :=
    List.mem_append_left _ (by simp [NodeProcess.seals, hqueue, LedgerEvent.sealId])
  rcases hw.announced p hp with h | ⟨id, hle, h⟩ <;> rw [h] at hmem
  · exact absurd hmem List.not_mem_nil
  · rw [h, List.mem_singleton.mp hmem]
    exact ⟨hle, rfl⟩

/-- The appender rotates at the one seal that was announced. -/
theorem Paced.append (hw : w.Paced)
    (hp : w.process = some p) (hqueue : p.queue = event :: queue) :
    Paced { w with
      disk := { w.disk with ledger := (w.disk.ledger.append p.buffer event).1 }
      process := some { p with queue, buffer := (w.disk.ledger.append p.buffer event).2 } } := by
  refine ⟨(hw.fresh.append p.buffer event fun s hs => (hw.seal_head hp (hs ▸ hqueue)).1).1, fun q hq => ?_⟩
  cases hq
  by_cases hevent : ∀ s, event ≠ .superblock s
  · have hannounced := hw.announced p hp
    have hseals : p.seals = queue.filterMap (·.sealId) := by
      rw [NodeProcess.seals, hqueue, List.filterMap_cons_none (LedgerEvent.sealId_eq_none hevent)]
    rw [NodeProcess.announced, hseals] at hannounced
    rw [w.disk.ledger.head_append p.buffer hevent]
    exact hannounced
  · push Not at hevent
    obtain ⟨s, rfl⟩ := hevent
    have hannounced := (hw.seal_head hp hqueue).2
    simp only [NodeProcess.announced, NodeProcess.seals, hqueue, List.filterMap_cons, LedgerEvent.sealId,
      List.cons_append, List.cons.injEq, true_and] at hannounced
    exact .inl hannounced

theorem Paced.sealFlushed (hw : w.Paced) (hp : w.process = some p)
    (hphase : p.phase = .sealFlushed) : p.seals = [] ∧ w.disk.ledger.head ≤ p.keeper.tree.superblock := by
  have hannounced := hw.announced p hp
  simp only [NodeProcess.announced, hphase] at hannounced
  rcases hannounced with h | ⟨id, hle, h⟩
  · exact absurd (List.append_eq_nil_iff.mp h).2 (List.cons_ne_nil _ _)
  · rw [List.append_eq_singleton_iff] at h
    simp only [List.cons_ne_nil, and_false, or_false, List.cons.injEq, and_true] at h
    exact ⟨h.1, h.2 ▸ hle⟩

theorem Paced.stream_append
    (hw : w.Paced) (hp : w.process = some p) (hqueue : p.queue = event :: queue) :
    stream { w with
      disk := { w.disk with ledger := (w.disk.ledger.append p.buffer event).1 }
      process := some { p with queue, buffer := (w.disk.ledger.append p.buffer event).2 } } = w.stream := by
  obtain ⟨-, hmoved⟩ := hw.fresh.append p.buffer event fun s hs => (hw.seal_head hp (hs ▸ hqueue)).1
  rw [stream_of_process hp, stream_of_process rfl, hqueue]
  dsimp only
  rw [hmoved, List.append_assoc]
  cases h : event.entry <;> simp [h]

theorem published_prefix (w : Node η δ) : w.disk.ledger.published <+: w.stream := by
  cases hp : w.process with
  | none => rw [stream_of_stopped hp]
  | some p => exact ⟨p.buffer ++ p.queue.filterMap (·.entry), by rw [stream_of_process hp, List.append_assoc]⟩

variable [DecidableEq η]

/-- What a running process can do, and under which guard. -/
inductive ProcessStep (env : NodeEnv η δ) (w : Node η δ) (p : NodeProcess η δ) :
    NodeAction η δ → Node η δ → Prop
  | goLive : p.phase = .opened → ProcessStep env w p .goLive { w with process := p.goLive env }
  | submit (t : LedgerTransaction η) : p.phase = .idle → ProcessStep env w p (.submit t) { w with process := p.submit t }
  | execute (index : Nat) (p' : NodeProcess η δ) : p.execute env index = some p' →
      ProcessStep env w p (.execute index) { w with process := some p' }
  | count : p.uncounted ≠ 0 → ProcessStep env w p .count
      { w with process := some { p with keeper := p.keeper.countTransaction, uncounted := p.uncounted - 1 } }
  | sendBlock (time : Int) (sizeExceeded : Bool) : p.atBarrier →
      ProcessStep env w p (.sendBlock time sizeExceeded) { w with process := p.sendBlock env time sizeExceeded }
  | updateSysvars (block : Block η) (m : AccountMap η) : p.phase = .blockSent block →
      env.updateSysvars p.keeper.accounts block = some m → ProcessStep env w p .updateSysvars
        { w with process := some { p with keeper := p.keeper.setAccounts m, phase := .sysvarsUpdated block } }
  | setSlot (block : Block η) : p.phase = .sysvarsUpdated block → ProcessStep env w p .setSlot
      { w with process := some { p with
        keeper := p.keeper.setSlot block.slot, hasher := { parent := block.hash }, phase := .idle, boundary := true } }
  | checkpoint : p.atBarrier →
      ProcessStep env w p .checkpoint { w with process := p.send (.checkpoint (p.keeper.tree.computeChecksum env)) }
  | beginSeal : p.atBarrier ∧ p.seals = [] ∧ (p.boundary ∨ env.external ∧ p.hasher.signatures = []) →
      ProcessStep env w p .beginSeal
        { w with process := some { p with keeper := p.keeper.setSuperblock w.disk.ledger.head, phase := .sealing } }
  | flushSeal : p.phase = .sealing → ProcessStep env w p .flushSeal
      { w with process := some { p with keeper := p.keeper.flush env, phase := .sealFlushed } }
  | sendSeal : p.phase = .sealFlushed → ProcessStep env w p .sendSeal
      { w with
        process := some { p.send (.superblock p.keeper.sealed) with
          snapshots := p.snapshots ++ [(p.keeper.tree.superblock + 1, p.snapshot)], phase := .idle }
        sealedAt := Function.update w.sealedAt p.keeper.tree.superblock (some p.snapshot) }
  | reset (r : Reset) : p.atBarrier ∧ env.external → ProcessStep env w p (.reset r) { w with process := p.reset env r }
  | sync : p.atBarrier → ProcessStep env w p .sync { w with process := p.send .sync }
  | append (event : LedgerEvent η δ) (queue : List (LedgerEvent η δ)) : p.queue = event :: queue →
      ProcessStep env w p .append { w with
        disk := { w.disk with ledger := (w.disk.ledger.append p.buffer event).1 }
        process := some { p with queue, buffer := (w.disk.ledger.append p.buffer event).2 } }
  | archive (index id : Nat) (tree : Tree η δ) : p.snapshots[index]? = some (id, tree) →
      ProcessStep env w p (.archive index) { w with
        disk := { w.disk with archives := Function.update w.disk.archives id (some tree) }
        process := some { p with snapshots := p.snapshots.eraseIdx index } }
  | stageSnapshot (tree : Tree η δ) :
      p.atBarrier ∧ env.external ∧ p.queue = [] ∧ w.disk.ledger.head ≤ tree.superblock →
      ProcessStep env w p (.stageSnapshot tree) { w with
        disk := { w.disk with archives := Function.update w.disk.archives (tree.superblock + 1) (some tree) }
        process := some (p.send (.superblock tree.sealed))
        sealedAt := Function.update w.sealedAt tree.superblock (some tree) }
  | shutdown : p.atBarrier → ProcessStep env w p .shutdown
      { w with process := some { p.send .sync with
        keeper := { p.keeper with tree := if env.external then p.snapshot else p.keeper.tree }, phase := .stopping } }
  | stop : p.phase = .stopping ∧ p.queue = [] → ProcessStep env w p .stop
      { w with disk := { w.disk with tree := p.keeper.tree.flush env }, process := none }
  | crash : ProcessStep env w p .crash { w with disk := { w.disk with tree := p.keeper.tree }, process := none }
  | crashAppending (stores : Nat) (event : LedgerEvent η δ) : p.queue.head? = some event →
      ProcessStep env w p (.crashAppending stores) { w with
        disk := { w.disk with tree := p.keeper.tree, ledger := w.disk.ledger.appendCut p.buffer stores event }
        process := none }

theorem processStep_cases (h : w.processStep env p action = some w') :
    ProcessStep env w p action w' := by
  cases action with
  | openDisk | crashOpening => cases h
  | updateSysvars | setSlot | append =>
    simp only [processStep] at h
    split at h
    all_goals first | cases h | obtain ⟨m, hm, rfl⟩ := Option.map_eq_some_iff.mp h
    all_goals constructor <;> assumption
  | execute | archive | crashAppending =>
    obtain ⟨_, hsome, rfl⟩ := Option.map_eq_some_iff.mp h
    constructor
    exact hsome
  | crash =>
    cases h
    exact .crash
  | _ =>
    simp only [processStep, Option.ite_none_right_eq_some, Option.ite_none_left_eq_some, Option.some.injEq] at h
    obtain ⟨hguard, rfl⟩ := h
    constructor
    exact hguard

variable [DecidableEq δ] [Inhabited η]

theorem step_cases (h : w.step env action = some w') :
    (w.process = none ∧ action = .openDisk ∧ w' = w.openDisk env) ∨
      (w.process = none ∧ ∃ tree, w' = { w with disk := { w.disk with tree } }) ∨
      ∃ p, w.process = some p ∧ ProcessStep env w p action w' := by
  unfold step at h
  split at h
  · next hnone => exact .inl ⟨hnone, rfl, (Option.some.inj h).symm⟩
  · next hnone => exact .inr (.inl ⟨hnone, _, (Option.some.inj h).symm⟩)
  · cases h
  · next p hp => exact .inr (.inr ⟨p, hp, processStep_cases h⟩)

theorem openDisk_cases (env : NodeEnv η δ) (w : Node η δ) :
    (∃ e, (env.startup w.disk).2 = .error e ∧ w.openDisk env = { w with disk := (env.startup w.disk).1 }) ∨
      ∃ keeper, (env.startup w.disk).2 = .ok keeper ∧
        w.openDisk env = { w with
          disk := (env.startup w.disk).1
          process := some { keeper, hasher := { parent := keeper.latest.hash }, phase := .opened } } := by
  unfold openDisk
  split
  · next disk e hstart =>
    rw [hstart]
    exact .inl ⟨e, rfl, rfl⟩
  · next disk keeper hstart =>
    rw [hstart]
    exact .inr ⟨keeper, rfl, rfl⟩

/-- Starting up changes neither the ledger nor the archives. -/
theorem startup_disk (env : NodeEnv η δ) (disk : Disk η δ) :
    ∃ tree, (env.startup disk).1 = { disk with tree } := by
  unfold NodeEnv.startup
  split <;> exact ⟨_, rfl⟩

theorem Paced.openDisk (hw : w.Paced) : (w.openDisk env).Paced := by
  obtain ⟨tree, htree⟩ := startup_disk env w.disk
  rcases openDisk_cases env w with ⟨e, -, heq⟩ | ⟨keeper, -, heq⟩
  all_goals rw [heq, htree]
  · exact { hw with }
  · refine ⟨hw.fresh, fun p hp => .inl ?_⟩
    cases hp
    rfl

theorem Paced.step (hw : w.Paced) (h : w.step env action = some w') : w'.Paced := by
  rcases step_cases h with ⟨-, -, rfl⟩ | ⟨-, tree, rfl⟩ | ⟨p, hp, h⟩
  · exact hw.openDisk
  · exact { hw with }
  cases h with
  | goLive hphase =>
    refine hw.of_announced hp rfl rfl (NodeProcess.announced_of_idle ?_ (by simp [hphase]) ?_)
    all_goals
      dsimp only [NodeProcess.goLive]
      split
    · rfl
    · exact NodeProcess.seals_send _ nofun
    · simp
    · simp [NodeProcess.reset, NodeProcess.send]
  | submit t =>
    refine hw.of_announced hp rfl rfl ?_
    rcases p.submit_cases t with ⟨e, -, heq⟩ | ⟨-, heq⟩
    all_goals rw [heq]
    · exact NodeProcess.announced_congr rfl rfl rfl
    · exact NodeProcess.announced_congr (p.seals_send nofun) rfl rfl
  | execute index p' hp' =>
    obtain ⟨keeper, pending, uncounted, rfl, hsuperblock⟩ := NodeProcess.execute_eq_some hp'
    exact hw.of_announced hp rfl rfl (NodeProcess.announced_congr rfl rfl hsuperblock)
  | count | archive => exact hw.of_announced hp rfl rfl (NodeProcess.announced_congr rfl rfl rfl)
  | sendBlock _ _ hbarrier | shutdown hbarrier =>
    have hphase := NodeProcess.idle_of_atBarrier hbarrier
    exact hw.of_announced hp rfl rfl
      (NodeProcess.announced_of_idle (p.seals_send nofun) (by simp [hphase]) (by simp [NodeProcess.sendBlock]))
  | updateSysvars block _ hphase | setSlot block hphase =>
    exact hw.of_announced hp rfl rfl (NodeProcess.announced_of_idle rfl (by simp [hphase]) (by simp))
  | checkpoint | sync | reset =>
    exact hw.of_announced hp rfl rfl (NodeProcess.announced_congr (p.seals_send nofun) rfl rfl)
  | beginSeal hguard =>
    refine ⟨hw.fresh, fun q hq => .inr ⟨_, le_rfl, ?_⟩⟩
    cases hq
    change p.seals ++ [w.disk.ledger.head] = [w.disk.ledger.head]
    rw [hguard.2.1, List.nil_append]
  | flushSeal hphase =>
    refine hw.of_announced hp rfl rfl ?_
    simp only [NodeProcess.announced, hphase]
    rfl
  | sendSeal hphase =>
    refine hw.of_announced hp rfl rfl ?_
    simp [NodeProcess.announced, hphase, NodeProcess.send, NodeProcess.seals, LedgerEvent.sealId, Keeper.sealed,
      Tree.sealed]
  | append event queue hqueue => exact hw.append hp hqueue
  | stageSnapshot tree hguard =>
    have hphase := NodeProcess.idle_of_atBarrier hguard.1
    refine ⟨hw.fresh, fun q hq => .inr ⟨tree.superblock, hguard.2.2.2, ?_⟩⟩
    cases hq
    simp [NodeProcess.announced, NodeProcess.send, NodeProcess.seals, hphase, hguard.2.2.1, LedgerEvent.sealId,
      Tree.sealed]
  | stop | crash => exact .of_stopped hw.fresh rfl
  | crashAppending stores event hevent =>
    obtain ⟨queue, hqueue⟩ := List.head?_eq_some_iff.mp hevent
    exact .of_stopped (hw.fresh.appendCut p.buffer stores event fun s hs => (hw.seal_head hp (hs ▸ hqueue)).1).1 rfl

end Node

end MagicEngine
