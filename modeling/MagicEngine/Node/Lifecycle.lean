import MagicEngine.Ledger.Appender
import MagicEngine.Node.Startup
import MagicEngine.Sequencer.OrderingTable

/-!
# The life of a node

A node over any number of process lifetimes. A process opens the disk, recovers and goes live; the sequencer admits
transactions, executors commit them, blocks are finalized, superblocks are sealed and archived; meanwhile the appender
publishes what was sent to it. The process ends by a coordinated shutdown, which drains and flushes everything, or by
a crash, which may stand between any two steps and leaves the mapped account tree and the published ledger as they are.

The steps of finalizing a block (`BlocksAccessor::append`) and of sealing a superblock
(`Keeper::finalize_superblock`) are separate, since a crash between them is what recovery has to cope with. The
appender's stores for one event are one step, and so is a start; a crash may fall into either. A follower that the leader
cannot serve from its own position stages the leader's snapshot (`ReplicationClient::stage_snapshot`) and is started
again.
-/

namespace MagicEngine

/-- What the sequencer and the keeper are in the middle of. -/
inductive NodePhase (η : Type) where
  | opened
  | idle
  /-- The block was sent to the appender and entered the caches; sysvars and slot are still old. -/
  | blockSent (block : Block η)
  | sysvarsUpdated (block : Block η)
  /-- The tree carries the new superblock id and is not flushed yet. -/
  | sealing
  | sealFlushed
  /-- Drained for shutdown; the ledger is being synced. -/
  | stopping
deriving DecidableEq, Repr

structure NodeProcess (η δ : Type) where
  keeper : Keeper η δ
  hasher : BlockHasher η
  phase : NodePhase η
  /-- Admitted and not executed yet, in input order. -/
  pending : List (LedgerTransaction η) := []
  /-- Executed and not counted yet. -/
  uncounted : Nat := 0
  /-- Sent to the appender. -/
  queue : List (LedgerEvent η δ) := []
  /-- Written by the appender and not published yet. -/
  buffer : List (BlockstoreEntry η δ) := []
  /-- Snapshots on their way into an archive. -/
  snapshots : List (Nat × Tree η δ) := []
  /-- No transaction was admitted since this process finalized a block. -/
  boundary : Bool := false

/-- A node: its disk, its process if one runs, and a record of the snapshot taken for each seal that was sent. While a
process runs, the active tree is the one its keeper has mapped. -/
structure Node (η δ : Type) where
  disk : Disk η δ
  process : Option (NodeProcess η δ)
  sealedAt : Nat → Option (Tree η δ)

inductive NodeAction (η δ : Type) where
  | openDisk
  /-- The process dies while it starts. -/
  | crashOpening (steps : Nat)
  | goLive
  | submit (txn : LedgerTransaction η)
  | execute (index : Nat)
  | count
  | sendBlock (time : Int) (sizeExceeded : Bool)
  | updateSysvars
  | setSlot
  | checkpoint
  | beginSeal
  | flushSeal
  | sendSeal
  | reset (reset : Reset)
  | sync
  | append
  | archive (index : Nat)
  | stageSnapshot (tree : Tree η δ)
  | shutdown
  | stop
  | crash
  /-- The process dies after the appender has made some stores for an event. -/
  | crashAppending (stores : Nat)

def LedgerEvent.entry {η δ : Type} : LedgerEvent η δ → Option (BlockstoreEntry η δ)
  | .transaction t => some (.transaction t)
  | .block b _ => some (.block b)
  | .superblock s => some (.superblock s)
  | .reset r => some (.reset r)
  | .checkpoint c => some (.checkpoint c)
  | .sync => none

def LedgerEvent.sealId {η δ : Type} : LedgerEvent η δ → Option Nat
  | .superblock s => some s.id
  | _ => none

/-- The appender at work: the published ledger, the entries and transactions that are written and not published or
counted yet, and the superblock it is dropping. -/
structure NodeAppender (η δ : Type) where
  ledger : NodeLedger η δ
  buffer : List (BlockstoreEntry η δ)
  transactions : Nat
  victim : Option Nat := none

/-- What a store of the appender does to the published ledger. The retained superblocks are as many as the header
counts, up to the head, so that a new head moves the oldest one along. -/
def NodeAppender.exec {η δ : Type} (a : NodeAppender η δ) : LedgerOp η δ → NodeAppender η δ
  | .write entry =>
    { a with
      buffer := a.buffer ++ [entry], transactions := if entry.isTransaction then a.transactions + 1 else a.transactions }
  | .storeCursor =>
    { a with
      ledger.entries := Function.update a.ledger.entries a.ledger.head (a.ledger.entries a.ledger.head ++ a.buffer)
      buffer := [] }
  | .storeSegmentEnd slot => { a with ledger.last := Function.update a.ledger.last a.ledger.head slot }
  | .addTransactions => { a with ledger.transactions := a.ledger.transactions + a.transactions, transactions := 0 }
  | .adoptTransactions count => { a with ledger.transactions := count }
  | .storeHead id => { a with ledger.head := id, ledger.oldest := a.ledger.oldest + id - a.ledger.head }
  | .addSuperblock => { a with ledger.oldest := a.ledger.oldest - 1 }
  | .popOldest => if a.ledger.oldest < a.ledger.head then { a with victim := some a.ledger.oldest } else a
  | .dropSuperblock => if a.victim.isSome then { a with ledger.oldest := a.ledger.oldest + 1 } else a
  | .purgeOldest => if a.victim.isSome then { a with victim := none } else a
  | .storeSegmentStart _ | .addBlock | .storeRangeEnd _ | .openSuccessor _ | .insertSuperblock _ | .switchWriter _
  | .storeRangeStart => a

namespace NodeLedger

variable {η δ : Type}

/-- The appender between two events. -/
def appender (ledger : NodeLedger η δ) (buffer : List (BlockstoreEntry η δ)) : NodeAppender η δ :=
  { ledger, buffer, transactions := buffer.countP (·.isTransaction) }

/-- The appender handles an event: the ledger and the buffer afterwards. -/
def append (ledger : NodeLedger η δ) (buffer : List (BlockstoreEntry η δ)) (event : LedgerEvent η δ) :
    NodeLedger η δ × List (BlockstoreEntry η δ) :=
  let a := event.ops.foldl NodeAppender.exec (ledger.appender buffer)
  (a.ledger, a.buffer)

/-- What a crash leaves of an event. -/
def appendCut (ledger : NodeLedger η δ) (buffer : List (BlockstoreEntry η δ)) (stores : Nat) (event : LedgerEvent η δ) :
    NodeLedger η δ :=
  ((event.ops.take stores).foldl NodeAppender.exec (ledger.appender buffer)).ledger

def published (ledger : NodeLedger η δ) : List (BlockstoreEntry η δ) :=
  (List.range' 1 ledger.head).flatMap ledger.entries

end NodeLedger

namespace NodeProcess

variable {η δ : Type}

def drained (p : NodeProcess η δ) : Bool := p.pending.isEmpty && p.uncounted == 0

/-- The sequencer holds at a barrier, with nothing in flight. -/
def atBarrier [DecidableEq η] (p : NodeProcess η δ) : Bool := p.phase == .idle && p.drained

def send (p : NodeProcess η δ) (event : LedgerEvent η δ) : NodeProcess η δ := { p with queue := p.queue ++ [event] }

/-- The seals that were sent and are not published yet. -/
def seals (p : NodeProcess η δ) : List Nat := p.queue.filterMap (·.sealId)

/-- The snapshot of a seal: the flushed tree with the volatile accounts dumped beside it. -/
def snapshot (p : NodeProcess η δ) : Tree η δ := { p.keeper.tree with volatileDb := some p.keeper.volatile }

section Admission

variable [DecidableEq η]

def submit (p : NodeProcess η δ) (t : LedgerTransaction η) : NodeProcess η δ :=
  let (caches, result) := p.keeper.caches.append t
  let p := { p with keeper := { p.keeper with caches } }
  match result with
  | .error _ => p
  | .ok () =>
    { p.send (.transaction t) with
      hasher := p.hasher.update t.signature, pending := p.pending ++ [t], boundary := false }

/-- An executor runs a transaction that conflicts with no earlier unfinished one. -/
def execute (env : NodeEnv η δ) (p : NodeProcess η δ) (index : Nat) : Option (NodeProcess η δ) :=
  match p.pending[index]? with
  | none => none
  | some t =>
    let blocked := (p.pending.take index).any fun u =>
      u.view.accesses.any fun (key, w) => t.view.accesses.any fun (key', w') => key == key' && (w || w')
    if blocked then none
    else
      let keeper := p.keeper.executeTransaction env t
      some { p with
        keeper := { keeper with caches := keeper.caches.recordStatus t () }
        pending := p.pending.eraseIdx index
        uncounted := p.uncounted + 1 }

/-- `Sequencer::finalize` up to the cache push: hash the block and send it. -/
def sendBlock (env : NodeEnv η δ) (p : NodeProcess η δ) (time : Int) (sizeExceeded : Bool) : NodeProcess η δ :=
  let block : Block η :=
    { slot := p.keeper.latest.slot + 1, hash := p.hasher.finalize env, time, parent := p.hasher.parent }
  { p.send (.block block sizeExceeded) with
    keeper := { p.keeper with caches := p.keeper.caches.pushBlock block }
    phase := .blockSent block }

end Admission

def reset (env : NodeEnv η δ) (p : NodeProcess η δ) (r : Reset) : NodeProcess η δ :=
  { p.send (.reset r) with keeper := p.keeper.applyReset env r }

/-- The rest of `Engine::new`: a node that paces itself resets, and the live sequencer starts its hash chain at the
latest block. -/
def goLive (env : NodeEnv η δ) (p : NodeProcess η δ) : NodeProcess η δ :=
  let p := { p with hasher := { parent := p.keeper.latest.hash }, phase := .idle }
  if env.external then p
  else p.reset env { slot := p.keeper.latest.slot + 1, rent := env.defaultRent, features := env.defaultFeatures }

end NodeProcess

namespace Node

variable {η δ : Type}

/-- A node on an empty directory; `checksum` is what a fresh header holds. -/
def initial (checksum : δ) : Node η δ :=
  { disk :=
      { tree := { accounts := .empty, checksum, isNew := true }, ledger := { entries := fun _ => [] }
        archives := fun _ => none }
    process := none
    sealedAt := fun _ => none }

variable [DecidableEq η] [DecidableEq δ] [Inhabited η]

/-- `Engine::new` up to the end of `try_replay`. -/
def openDisk (env : NodeEnv η δ) (w : Node η δ) : Node η δ :=
  match env.startup w.disk with
  | (disk, .error _) => { w with disk }
  | (disk, .ok keeper) =>
    { w with disk, process := some { keeper, hasher := { parent := keeper.latest.hash }, phase := .opened } }

def processStep (env : NodeEnv η δ) (w : Node η δ) (p : NodeProcess η δ) : NodeAction η δ → Option (Node η δ)
  | .openDisk | .crashOpening _ => none
  | .goLive => if p.phase = .opened then some { w with process := p.goLive env } else none
  | .submit t => if p.phase = .idle then some { w with process := p.submit t } else none
  | .execute index => (p.execute env index).map fun p => { w with process := some p }
  | .count =>
    if p.uncounted = 0 then none
    else some { w with process := some { p with keeper := p.keeper.countTransaction, uncounted := p.uncounted - 1 } }
  | .sendBlock time sizeExceeded =>
    if p.atBarrier then some { w with process := p.sendBlock env time sizeExceeded } else none
  | .updateSysvars =>
    match p.phase with
    | .blockSent block =>
      (env.updateSysvars p.keeper.accounts block).map fun m =>
        { w with process := some { p with keeper := p.keeper.setAccounts m, phase := .sysvarsUpdated block } }
    | _ => none
  | .setSlot =>
    match p.phase with
    | .sysvarsUpdated block =>
      some { w with
        process := some { p with
          keeper := p.keeper.setSlot block.slot, hasher := { parent := block.hash }, phase := .idle, boundary := true } }
    | _ => none
  | .checkpoint =>
    if p.atBarrier then some { w with process := p.send (.checkpoint (p.keeper.tree.computeChecksum env)) } else none
  | .beginSeal =>
    -- the previous seal is durable, and a node seals right behind a block
    if p.atBarrier ∧ p.seals = [] ∧ (p.boundary ∨ env.external ∧ p.hasher.signatures = []) then
      some { w with process := some { p with keeper := p.keeper.setSuperblock w.disk.ledger.head, phase := .sealing } }
    else none
  | .flushSeal =>
    if p.phase = .sealing then
      some { w with process := some { p with keeper := p.keeper.flush env, phase := .sealFlushed } }
    else none
  | .sendSeal =>
    if p.phase = .sealFlushed then
      some { w with
        process := some { p.send (.superblock p.keeper.sealed) with
          snapshots := p.snapshots ++ [(p.keeper.tree.superblock + 1, p.snapshot)], phase := .idle }
        sealedAt := Function.update w.sealedAt p.keeper.tree.superblock (some p.snapshot) }
    else none
  | .reset r => if p.atBarrier ∧ env.external then some { w with process := p.reset env r } else none
  | .sync => if p.atBarrier then some { w with process := p.send .sync } else none
  | .append =>
    match p.queue with
    | [] => none
    | event :: queue =>
      let (ledger, buffer) := w.disk.ledger.append p.buffer event
      some { w with disk := { w.disk with ledger }, process := some { p with queue, buffer } }
  | .archive index =>
    (p.snapshots[index]?).map fun (id, tree) =>
      { w with
        disk := { w.disk with archives := Function.update w.disk.archives id (some tree) }
        process := some { p with snapshots := p.snapshots.eraseIdx index } }
  | .stageSnapshot tree =>
    -- the leader has dropped what lies behind the head here; its archive is in place before the seal is recorded
    if p.atBarrier ∧ env.external ∧ p.queue = [] ∧ w.disk.ledger.head ≤ tree.superblock then
      some { w with
        disk := { w.disk with archives := Function.update w.disk.archives (tree.superblock + 1) (some tree) }
        process := some (p.send (.superblock tree.sealed))
        sealedAt := Function.update w.sealedAt tree.superblock (some tree) }
    else none
  | .shutdown =>
    if p.atBarrier then
      let tree := if env.external then p.snapshot else p.keeper.tree
      some { w with process := some { p.send .sync with keeper := { p.keeper with tree }, phase := .stopping } }
    else none
  | .stop =>
    if p.phase = .stopping ∧ p.queue = [] then
      some { w with disk := { w.disk with tree := p.keeper.tree.flush env }, process := none }
    else none
  | .crash => some { w with disk := { w.disk with tree := p.keeper.tree }, process := none }
  | .crashAppending stores =>
    p.queue.head?.map fun event =>
      { w with
        disk := { w.disk with tree := p.keeper.tree, ledger := w.disk.ledger.appendCut p.buffer stores event }
        process := none }

def step (env : NodeEnv η δ) (w : Node η δ) (action : NodeAction η δ) : Option (Node η δ) :=
  match w.process, action with
  | none, .openDisk => some (w.openDisk env)
  | none, .crashOpening steps => some { w with disk := { w.disk with tree := env.startupCut w.disk steps } }
  | none, _ => none
  | some p, action => w.processStep env p action

/-- States reached from a fresh node by steps that meet the condition `ok` in the state they start from. -/
def ReachableIf (env : NodeEnv η δ) (checksum : δ) (ok : Node η δ → NodeAction η δ → Prop) : Node η δ → Prop :=
  Relation.ReflTransGen (fun w w' => ∃ action, ok w action ∧ w.step env action = some w') (initial checksum)

/-- The stream as it will be published: what is published, written and sent. -/
def stream (w : Node η δ) : List (BlockstoreEntry η δ) :=
  match w.process with
  | none => w.disk.ledger.published
  | some p => w.disk.ledger.published ++ p.buffer ++ p.queue.filterMap (·.entry)

def runIf (env : NodeEnv η δ) (ok : Node η δ → NodeAction η δ → Prop) [∀ w action, Decidable (ok w action)] :
    List (NodeAction η δ) → Node η δ → Option (Node η δ)
  | [], w => some w
  | action :: rest, w => if ok w action then (w.step env action).bind (runIf env ok rest) else none

theorem reachableIf_of_runIf {env : NodeEnv η δ} {checksum : δ} {ok : Node η δ → NodeAction η δ → Prop}
    [∀ w action, Decidable (ok w action)] {actions : List (NodeAction η δ)} {w w' : Node η δ}
    (hw : ReachableIf env checksum ok w) (h : runIf env ok actions w = some w') : ReachableIf env checksum ok w' := by
  induction actions generalizing w with
  | nil => exact Option.some.inj h ▸ hw
  | cons action rest ih =>
    unfold runIf at h
    split at h
    · next hok =>
      obtain ⟨w₁, hstep, hrest⟩ := Option.bind_eq_some_iff.mp h
      exact ih (hw.tail ⟨action, hok, hstep⟩) hrest
    · cases h

abbrev Reachable (env : NodeEnv η δ) (checksum : δ) : Node η δ → Prop := ReachableIf env checksum fun _ _ => True

abbrev run (env : NodeEnv η δ) : List (NodeAction η δ) → Node η δ → Option (Node η δ) := runIf env fun _ _ => True

end Node

/-! ### A small leader -/

/-- Block hashes that name what they were made of. -/
inductive FreeHash where
  | genesis
  | block (parent : FreeHash) (signatures : List Signature)
deriving DecidableEq, Repr

instance : Inhabited FreeHash := ⟨.genesis⟩

/-- The account in which the leader's transactions count themselves. -/
def tallyId : Pubkey := ⟨1⟩

/-- A checksum that names what it was made of. -/
structure FreeChecksum where
  slot : Nat
  superblock : Nat
  accounts : List (Option (NodeAccount FreeHash))
deriving DecidableEq, Repr

/-- A leader whose transactions each add a lamport to one account. Its checksum covers all accounts it has. -/
def leaderEnv : NodeEnv FreeHash FreeChecksum where
  authority := default
  remote := false
  external := false
  blockHash := .block
  checksum slot superblock m := ⟨slot, superblock, [slotHashesId, clockId, rentId, default, tallyId].map m⟩
  execute _ _ m :=
    let lamports := ((m tallyId).map (·.core.lamports)).getD 0 + 1
    m.store [(tallyId, { core := { lamports, mode := .magic }, data := .bytes [] })]
  schedule _ := (0, 0)
  minimumBalance _ := 1
  seeds := []
  otherSysvars := []
  defaultFeatures := []
  defaultRent := 1
  blockTtl := 60
  signatureTtl := 75

def leaderStart : Node FreeHash FreeChecksum := .initial ⟨0, 0, []⟩

def transferAt (recent : FreeHash) (signature : Signature) : LedgerTransaction FreeHash where
  view := { signatures := [signature], numRequiredSignatures := 1, staticAccountKeys := [default], instructions := []
            writableCache := 1, keys_nodup := NodeEnv.payer_nodup }
  recentBlockhash := recent

namespace NodeAction

variable {η δ : Type}

def started : List (NodeAction η δ) := [.openDisk, .goLive, .append]

/-- A transaction admitted, executed, counted and written. -/
def executed (t : LedgerTransaction η) : List (NodeAction η δ) := [.submit t, .execute 0, .count, .append]

def finalized : List (NodeAction η δ) := [.sendBlock 0 false, .updateSysvars, .setSlot, .append]

def sealSent : List (NodeAction η δ) := [.beginSeal, .flushSeal, .sendSeal]

def stopped : List (NodeAction η δ) := [.shutdown, .append, .stop]

end NodeAction

end MagicEngine
