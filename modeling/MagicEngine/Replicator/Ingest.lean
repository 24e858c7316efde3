import MagicEngine.Lib.Reader
import MagicEngine.Replicator.Signing
import MagicEngine.View.Canonical

/-!
# Ingest of the replicated stream

`replicator/src/client.rs`: a thread decodes the stream of one connection and hands the entries to the client loop
through a channel without capacity. Transactions are collected into batches. A batch goes out as it is when the client
loop waits for a message, and is verified first when the client loop is busy; every boundary record is verified, and
goes out after the batch before it. The decoder of one entry (`blockstore::decode`, which is library code) is a parameter;
all that is used of it is that it reads something and does not change its mind when more bytes arrive (`Incremental`).

The decoder and the client loop take steps in any order. What the client has received, what it was handed, and what the
decoder still holds are together the entries decoded so far (`Inv`).
-/

namespace MagicEngine.Replicator

open Codec StreamReader View

structure Signed (α : Type) where
  payload : α
  signature : Signature
deriving DecidableEq, Repr

inductive OwnedBlockstoreEntry where
  | block (block : Signed (Block Hash))
  | transaction (bytes : Bytes)
  | superblock (superblockSeal : Signed (SuperblockSeal Nat))
  | reset (reset : Signed Reset)
  | checkpoint (checkpoint : Signed Nat)
deriving DecidableEq, Repr

def OwnedBlockstoreEntry.isTransaction : OwnedBlockstoreEntry → Bool
  | transaction _ => true
  | _ => false

/-! ### Verification -/

/-- Signature checks, which are outside the engine, and the key of the producer. -/
structure Authority where
  verify : Signature → Pubkey → Bytes → Bool
  /-- `Signature::batch_verify` on signatures, keys and messages. -/
  batchVerify : List (Bytes × Bytes × Bytes) → Bool
  authority : Pubkey

def Authority.verifies (a : Authority) : OwnedBlockstoreEntry → Bool
  | .block b => a.verify b.signature a.authority (Signing.SignedMessage.block b.payload).message
  | .superblock s => a.verify s.signature a.authority (Signing.SignedMessage.superblockSeal s.payload).message
  | .reset r => a.verify r.signature a.authority (Signing.SignedMessage.reset r.payload).message
  | .checkpoint c => a.verify c.signature a.authority (Signing.SignedMessage.checkpoint c.payload).message
  | .transaction _ => false

structure VerifiedTransaction where
  bytes : Bytes
  frame : TransactionFrame
deriving DecidableEq

inductive EngineError where
  | view (error : TransactionViewError)
  | signatureVerification
deriving DecidableEq, Repr

def tryNewSanitized (bytes : Bytes) (enableInstructionAccountsLimit : Bool) : ViewResult TransactionFrame := do
  let frame ← TransactionFrame.tryNew bytes
  frame.sanitize bytes enableInstructionAccountsLimit
  pure frame

def validateAuthority (t : VerifiedTransaction) (authority : Pubkey) : Except EngineError Unit :=
  if t.frame.version = .magicblock ∧ (t.frame.keys t.bytes)[0]? ≠ some authority.toBytes then
    .error .signatureVerification
  else .ok ()

def signatureData (t : VerifiedTransaction) : List (Bytes × Bytes × Bytes) :=
  (List.zip (t.frame.signatures t.bytes) (t.frame.keys t.bytes)).map fun (signature, key) =>
    (signature, key, t.frame.messageData t.bytes)

def verifyOne (a : Authority) (bytes : Bytes) : Except EngineError VerifiedTransaction := do
  let frame ← (tryNewSanitized bytes true).mapError .view
  validateAuthority ⟨bytes, frame⟩ a.authority
  pure ⟨bytes, frame⟩

def verify (a : Authority) (transactions : List Bytes) : Except EngineError (List VerifiedTransaction) := do
  let verified ← transactions.mapM (verifyOne a)
  if a.batchVerify (verified.flatMap signatureData) then .ok verified else .error .signatureVerification

variable {a : Authority}

theorem verifyOne_bytes {bytes : Bytes} {t : VerifiedTransaction} (h : verifyOne a bytes = .ok t) :
    t.bytes = bytes := by
  obtain ⟨frame, -, h⟩ := bind_eq_ok.mp h
  obtain ⟨-, -, ⟨⟩⟩ := bind_eq_ok.mp h
  rfl

theorem map_bytes_of_verify {batch : List Bytes} {verified : List VerifiedTransaction}
    (h : verify a batch = .ok verified) : verified.map (·.bytes) = batch := by
  have hmap : batch.mapM (verifyOne a) = .ok verified := by
    obtain ⟨checked, hmap, h⟩ := bind_eq_ok.mp h
    split at h <;> cases h
    exact hmap
  clear h
  induction batch generalizing verified with
  | nil =>
    cases hmap
    rfl
  | cons bytes batch ih =>
    rw [List.mapM_cons] at hmap
    obtain ⟨t, ht, hmap⟩ := bind_eq_ok.mp hmap
    obtain ⟨ts, hts, ⟨⟩⟩ := bind_eq_ok.mp hmap
    rw [List.map_cons, verifyOne_bytes ht, ih hts]

/-! ### Messages -/

/-- Consecutive transactions without a boundary between them. -/
structure TransactionsBatch where
  transactions : List Bytes := []
  bytes : Nat := 0

namespace TransactionsBatch

def maxBatchTransactions : Nat := 128

def maxBatchBytes : Nat := 128 * 1024

def push (batch : TransactionsBatch) (transaction : Bytes) : TransactionsBatch where
  transactions := batch.transactions ++ [transaction]
  bytes := min (batch.bytes + transaction.length) (2 ^ 64 - 1)

def isFull (batch : TransactionsBatch) : Bool :=
  decide (maxBatchTransactions ≤ batch.transactions.length ∨ maxBatchBytes ≤ batch.bytes)

end TransactionsBatch

inductive ReplicationMessage where
  | unverified (batch : List Bytes)
  | verified (batch : List VerifiedTransaction)
  /-- `Block`, `Superblock`, `Reset` or `Checkpoint`. -/
  | boundary (entry : OwnedBlockstoreEntry)

def ReplicationMessage.entries : ReplicationMessage → List OwnedBlockstoreEntry
  | unverified batch => batch.map .transaction
  | verified batch => batch.map fun t => .transaction t.bytes
  | boundary entry => [entry]

def ReplicationMessage.isBatch : ReplicationMessage → Bool
  | boundary _ => false
  | _ => true

/-! ### The decoder -/

inductive IngestError where
  | decode
  | invalidSignature (record : String)
  | engine (error : EngineError)

inductive IngestExit where
  | stopped
  | disconnected
  | failed (error : IngestError)

inductive After where
  | decode
  | deliver (entry : OwnedBlockstoreEntry)
  | exit (exit : IngestExit)

inductive Phase where
  | decoding
  | flushing (after : After)
  /-- The batch was verified here; `send` waits for the client loop. -/
  | handing (verified : List VerifiedTransaction) (after : After)
  | sending (entry : OwnedBlockstoreEntry)
  | exited (exit : IngestExit)

structure Ingest where
  stream : Bytes
  batch : TransactionsBatch := {}
  phase : Phase := .decoding

inductive Work where
  | transaction (t : VerifiedTransaction)
  | boundary (entry : OwnedBlockstoreEntry)

/-- The client loop: at work on a message, waiting for one, about to find one it was handed, or out of the loop,
because the channel was closed or for a reason of its own. -/
inductive Client where
  | working (work : List Work)
  | receiving
  | handed (message : ReplicationMessage)
  | closed
  | gone

def Phase.proceed : After → Phase
  | .decode => .decoding
  | .deliver entry => .sending entry
  | .exit exit => .exited exit

/-- A message for the channel, and where the decoder is when the client loop has it. A receiver that waits takes it;
the send fails when the receiver was dropped. -/
def Ingest.send (g : Ingest) (message : ReplicationMessage) (next : Phase) : Client → Option (Ingest × Client)
  | .receiving => some ({ g with phase := next }, .handed message)
  | .closed => some ({ g with phase := .exited .stopped }, .closed)
  | .gone => some ({ g with phase := .exited .stopped }, .gone)
  | .working _ => none
  | .handed _ => none

/-- `flush` of a batch with transactions: the attempt, and the verification when the client loop is busy. -/
def Ingest.flush (a : Authority) (g : Ingest) (after : After) (c : Client) : Option (Ingest × Client) :=
  match ({ g with batch := {} } : Ingest).send (.unverified g.batch.transactions) (.proceed after) c with
  | some result => some result
  | none =>
    match verify a g.batch.transactions with
    | .ok verified => some ({ g with batch := {}, phase := .handing verified after }, c)
    | .error error => some ({ g with batch := {}, phase := .exited (.failed (.engine error)) }, c)

def record : OwnedBlockstoreEntry → String
  | .block _ => "block"
  | .superblock _ => "superblock"
  | .reset _ => "reset"
  | .checkpoint _ => "checkpoint"
  | .transaction _ => "transaction"

def Ingest.accept (a : Authority) (g : Ingest) (entry : OwnedBlockstoreEntry) (rest : Bytes) : Ingest :=
  match entry with
  | .transaction bytes =>
    let batch := g.batch.push bytes
    { stream := rest, batch, phase := if batch.isFull then .flushing .decode else .decoding }
  | entry =>
    if a.verifies entry then { g with stream := rest, phase := .flushing (.deliver entry) }
    else { g with stream := rest, phase := .exited (.failed (.invalidSignature (record entry))) }

section Decoder

variable (decode : Reader UInt8 OwnedBlockstoreEntry)

/-- One step of `Ingest::run`; none when the thread is blocked or has ended. -/
def Ingest.step (a : Authority) (g : Ingest) (c : Client) : Option (Ingest × Client) :=
  match g.phase with
  | .decoding =>
    match decode g.stream with
    | .error .io => some ({ g with phase := .flushing (.exit .disconnected) }, c)
    | .error .invalid => some ({ g with phase := .flushing (.exit (.failed .decode)) }, c)
    | .ok (entry, rest) => some (g.accept a entry rest, c)
  | .flushing after =>
    if g.batch.transactions.isEmpty then some ({ g with phase := .proceed after }, c) else g.flush a after c
  | .handing verified after => g.send (.verified verified) (.proceed after) c
  | .sending entry => g.send (.boundary entry) .decoding c
  | .exited _ => none

/-! ### Both together -/

structure Replication where
  ingest : Ingest
  client : Client := .working []
  received : List ReplicationMessage := []
  scheduled : List Work := []

/-- What the client loop makes of a message; a raw batch that does not verify ends it. -/
def Client.consume (a : Authority) : ReplicationMessage → Client
  | .unverified batch =>
    match verify a batch with
    | .ok verified => .working (verified.map .transaction)
    | .error _ => .gone
  | .verified batch => .working (batch.map .transaction)
  | .boundary entry => .working [.boundary entry]

inductive Step (a : Authority) : Replication → Replication → Prop where
  | ingest {r : Replication} {g : Ingest} {c : Client} (h : r.ingest.step decode a r.client = some (g, c)) :
      Step a r { r with ingest := g, client := c }
  | receive {r : Replication} (message : ReplicationMessage) (h : r.client = .handed message) :
      Step a r { r with client := .consume a message, received := r.received ++ [message] }
  | schedule {r : Replication} (work : Work) (rest : List Work) (h : r.client = .working (work :: rest)) :
      Step a r { r with client := .working rest, scheduled := r.scheduled ++ [work] }
  | wait {r : Replication} (h : r.client = .working []) : Step a r { r with client := .receiving }
  /-- The decoder has dropped its sender, and the channel is empty. -/
  | close {r : Replication} (exit : IngestExit) (h : r.client = .receiving) (hexit : r.ingest.phase = .exited exit) :
      Step a r { r with client := .closed }
  /-- The client loop ends with an error, at a boundary, or by force. -/
  | leave {r : Replication} (h : r.client ≠ .closed) : Step a r { r with client := .gone }

inductive Reachable (a : Authority) (stream : Bytes) : Replication → Prop where
  | initial : Reachable a stream { ingest := { stream } }
  | step {r r' : Replication} (h : Reachable a stream r) (hstep : Step decode a r r') : Reachable a stream r'

/-! ### What a step of the decoder does -/

inductive IngestStep (a : Authority) (g : Ingest) : Client → Ingest → Client → Prop where
  | lost (c : Client) (hphase : g.phase = .decoding) (h : decode g.stream = .error .io) :
      IngestStep a g c { g with phase := .flushing (.exit .disconnected) } c
  | refused (c : Client) (hphase : g.phase = .decoding) :
      IngestStep a g c { g with phase := .flushing (.exit (.failed .decode)) } c
  | transaction (c : Client) (bytes rest : Bytes) (phase : Phase) (hphase : g.phase = .decoding)
      (h : decode g.stream = .ok (.transaction bytes, rest))
      (hnext : phase = .decoding ∨ phase = .flushing .decode) :
      IngestStep a g c { stream := rest, batch := g.batch.push bytes, phase } c
  | boundary (c : Client) (entry : OwnedBlockstoreEntry) (rest : Bytes) (hphase : g.phase = .decoding)
      (h : decode g.stream = .ok (entry, rest)) (hverifies : a.verifies entry = true) :
      IngestStep a g c { g with stream := rest, phase := .flushing (.deliver entry) } c
  | rejected (c : Client) (entry : OwnedBlockstoreEntry) (rest : Bytes) (hphase : g.phase = .decoding)
      (h : decode g.stream = .ok (entry, rest)) :
      IngestStep a g c { g with stream := rest, phase := .exited (.failed (.invalidSignature (record entry))) } c
  | flushed (c : Client) (after : After) (hphase : g.phase = .flushing after) (h : g.batch.transactions = []) :
      IngestStep a g c { g with phase := .proceed after } c
  | raw (after : After) (hphase : g.phase = .flushing after) :
      IngestStep a g .receiving { g with batch := {}, phase := .proceed after } (.handed (.unverified g.batch.transactions))
  | verified (c : Client) (after : After) (verified : List VerifiedTransaction) (hphase : g.phase = .flushing after)
      (h : verify a g.batch.transactions = .ok verified) :
      IngestStep a g c { g with batch := {}, phase := .handing verified after } c
  | failed (c : Client) (error : EngineError) :
      IngestStep a g c { g with batch := {}, phase := .exited (.failed (.engine error)) } c
  | handed (after : After) (verified : List VerifiedTransaction) (hphase : g.phase = .handing verified after) :
      IngestStep a g .receiving { g with phase := .proceed after } (.handed (.verified verified))
  | delivered (entry : OwnedBlockstoreEntry) (hphase : g.phase = .sending entry) :
      IngestStep a g .receiving { g with phase := .decoding } (.handed (.boundary entry))
  | stopped (c : Client) (batch : TransactionsBatch) :
      IngestStep a g c { g with batch, phase := .exited .stopped } c

end Decoder

variable {decode : Reader UInt8 OwnedBlockstoreEntry} {message : ReplicationMessage}

private theorem send_cases {g g' : Ingest} {next : Phase} {c c' : Client}
    (h : g.send message next c = some (g', c')) :
    (c = .receiving ∧ g' = { g with phase := next } ∧ c' = .handed message) ∨
      (g' = { g with phase := .exited .stopped } ∧ c' = c) := by
  cases c with
  | receiving =>
    cases h
    exact .inl ⟨rfl, rfl, rfl⟩
  | closed | gone =>
    cases h
    exact .inr ⟨rfl, rfl⟩
  | working _ | handed _ => cases h

private theorem accept_cases (a : Authority) {g : Ingest} (c : Client) {entry : OwnedBlockstoreEntry} {rest : Bytes}
    (hphase : g.phase = .decoding) (h : decode g.stream = .ok (entry, rest)) :
    IngestStep decode a g c (g.accept a entry rest) c := by
  unfold Ingest.accept
  split
  · next bytes =>
    refine .transaction c bytes rest _ hphase h ?_
    split
    · exact .inr rfl
    · exact .inl rfl
  · split
    · next hverifies => exact .boundary c entry rest hphase h hverifies
    · exact .rejected c entry rest hphase h

theorem step_cases {g g' : Ingest} {c c' : Client} (h : g.step decode a c = some (g', c')) :
    IngestStep decode a g c g' c' := by
  unfold Ingest.step at h
  split at h
  · next hphase =>
    split at h
    · next hread =>
      cases h
      exact .lost c hphase hread
    · cases h
      exact .refused c hphase
    · next entry rest hread =>
      cases h
      exact accept_cases a c hphase hread
  · next after hphase =>
    split at h
    · next hempty =>
      cases h
      exact .flushed c after hphase (List.isEmpty_iff.mp hempty)
    · unfold Ingest.flush at h
      split at h
      · next result hsend =>
        cases h
        rcases send_cases hsend with ⟨rfl, rfl, rfl⟩ | ⟨rfl, rfl⟩
        · exact .raw after hphase
        · exact .stopped _ {}
      · split at h
        · next verified hverify =>
          cases h
          exact .verified c after verified hphase hverify
        · next error _ =>
          cases h
          exact .failed c error
  · next verified after hphase =>
    rcases send_cases h with ⟨rfl, rfl, rfl⟩ | ⟨rfl, rfl⟩
    · exact .handed after verified hphase
    · exact .stopped _ _
  · next entry hphase =>
    rcases send_cases h with ⟨rfl, rfl, rfl⟩ | ⟨rfl, rfl⟩
    · exact .delivered entry hphase
    · exact .stopped _ _
  · cases h

/-! ### The invariant -/

/-- What the client loop was handed and has not received. -/
def Client.entries : Client → List OwnedBlockstoreEntry
  | .handed message => message.entries
  | _ => []

def After.entries : After → List OwnedBlockstoreEntry
  | .deliver entry => [entry]
  | _ => []

/-- What the decoder still has to send besides its batch. -/
def Phase.entries : Phase → List OwnedBlockstoreEntry
  | .flushing after => after.entries
  | .handing verified after => verified.map (fun t => .transaction t.bytes) ++ after.entries
  | .sending entry => [entry]
  | _ => []

def Ingest.entries (g : Ingest) : List OwnedBlockstoreEntry := g.batch.transactions.map .transaction ++ g.phase.entries

def Replication.entries (r : Replication) : List OwnedBlockstoreEntry := r.received.flatMap (·.entries)

def Phase.Aborted : Phase → Prop
  | .exited .stopped => True
  | .exited (.failed _) => True
  | _ => False

def Phase.Drained : Phase → Prop
  | .handing _ _ => True
  | .sending _ => True
  | .exited .disconnected => True
  | _ => False

def After.AtEnd (decode : Reader UInt8 OwnedBlockstoreEntry) (stream : Bytes) : After → Prop
  | .exit .disconnected => decode stream = .error .io
  | _ => True

def Phase.AtEnd (decode : Reader UInt8 OwnedBlockstoreEntry) (stream : Bytes) : Phase → Prop
  | .flushing after => after.AtEnd decode stream
  | .handing _ after => after.AtEnd decode stream
  | .exited exit => (After.exit exit).AtEnd decode stream
  | _ => True

def After.Verified (a : Authority) : After → Prop
  | .deliver entry => a.verifies entry = true
  | _ => True

def Phase.Verified (a : Authority) : Phase → Prop
  | .flushing after => after.Verified a
  | .handing verified after => (∃ batch, verify a batch = .ok verified) ∧ after.Verified a
  | .sending entry => a.verifies entry = true
  | _ => True

def ReplicationMessage.Verified (a : Authority) : ReplicationMessage → Prop
  | unverified _ => True
  | verified batch => ∃ raw, verify a raw = .ok batch
  | boundary entry => a.verifies entry = true

/-- A transaction of a batch that was verified, or a record whose signature was. -/
def Work.Verified (a : Authority) : Work → Prop
  | transaction t => ∃ batch verified, verify a batch = .ok verified ∧ t ∈ verified
  | boundary entry => a.verifies entry = true

def Client.Verified (a : Authority) : Client → Prop
  | .handed message => message.Verified a
  | .working work => ∀ w ∈ work, w.Verified a
  | _ => True

def Work.entry : Work → OwnedBlockstoreEntry
  | transaction t => .transaction t.bytes
  | boundary entry => entry

def Client.work : Client → List Work
  | .working work => work
  | _ => []

/-- With the entries decoded so far. -/
structure Inv (decode : Reader UInt8 OwnedBlockstoreEntry) (a : Authority) (stream : Bytes) (decoded : List OwnedBlockstoreEntry) (r : Replication) : Prop where
  reads : Reads decode stream decoded r.ingest.stream
  /-- All that was decoded is somewhere, unless one side gave up. -/
  whole : r.client ≠ .gone → ¬r.ingest.phase.Aborted → r.entries ++ r.client.entries ++ r.ingest.entries = decoded
  ordered : r.entries ++ r.client.entries <+: decoded
  drained : r.ingest.phase.Drained → r.ingest.batch.transactions = []
  atEnd : r.ingest.phase.AtEnd decode r.ingest.stream
  phase : r.ingest.phase.Verified a
  client : r.client.Verified a
  scheduled : ∀ w ∈ r.scheduled, w.Verified a
  /-- Work is done in the order of the messages. -/
  done : r.scheduled.map (·.entry) <+: r.entries
  working : r.client ≠ .gone → (r.scheduled ++ r.client.work).map (·.entry) = r.entries

section Steps

variable {a : Authority} {stream : Bytes} {decoded : List OwnedBlockstoreEntry} {r : Replication} {g : Ingest} {c : Client}

private theorem proceed_entries (after : After) : (Phase.proceed after).entries = after.entries := by
  cases after <;> rfl

private theorem proceed_atEnd (after : After) (stream : Bytes) (h : after.AtEnd decode stream) :
    (Phase.proceed after).AtEnd decode stream := by
  cases after with
  | decode | deliver => trivial
  | exit exit => exact h

private theorem proceed_verified (after : After) (h : after.Verified a) : (Phase.proceed after).Verified a := by
  cases after with
  | decode | exit => trivial
  | deliver entry => exact h

section

variable (h : Inv decode a stream decoded r)

include h

private theorem Inv.internal (hstream : g.stream = r.ingest.stream)
    (haborted : ¬g.phase.Aborted → ¬r.ingest.phase.Aborted ∧ g.entries = r.ingest.entries)
    (hdrained : g.phase.Drained → g.batch.transactions = []) (hatEnd : g.phase.AtEnd decode g.stream)
    (hphase : g.phase.Verified a) : Inv decode a stream decoded { r with ingest := g } where
  reads := by
    change Reads _ _ _ g.stream
    rw [hstream]
    exact h.reads
  whole hgone hnot := by
    obtain ⟨hnot', hentries⟩ := haborted hnot
    change r.entries ++ r.client.entries ++ g.entries = decoded
    rw [hentries]
    exact h.whole hgone hnot'
  ordered := h.ordered
  drained := hdrained
  atEnd := hatEnd
  phase := hphase
  client := h.client
  scheduled := h.scheduled
  done := h.done
  working := h.working

private theorem Inv.read {entry : OwnedBlockstoreEntry}
    (hread : decode r.ingest.stream = .ok (entry, g.stream))
    (haborted : ¬r.ingest.phase.Aborted) (hentries : ¬g.phase.Aborted → g.entries = r.ingest.entries ++ [entry])
    (hdrained : g.phase.Drained → g.batch.transactions = []) (hatEnd : g.phase.AtEnd decode g.stream)
    (hphase : g.phase.Verified a) : Inv decode a stream (decoded ++ [entry]) { r with ingest := g } where
  reads := h.reads.snoc hread
  whole hgone hnot := by
    change r.entries ++ r.client.entries ++ g.entries = decoded ++ [entry]
    rw [hentries hnot, ← h.whole hgone haborted, List.append_assoc _ _ [entry]]
  ordered := h.ordered.trans (List.prefix_append decoded [entry])
  drained := hdrained
  atEnd := hatEnd
  phase := hphase
  client := h.client
  scheduled := h.scheduled
  done := h.done
  working := h.working

private theorem Inv.hand (hclient : r.client = .receiving)
    (hstream : g.stream = r.ingest.stream) (haborted : ¬r.ingest.phase.Aborted)
    (hentries : r.ingest.entries = message.entries ++ g.entries)
    (hdrained : g.phase.Drained → g.batch.transactions = []) (hatEnd : g.phase.AtEnd decode g.stream)
    (hphase : g.phase.Verified a) (hmessage : message.Verified a) :
    Inv decode a stream decoded { r with ingest := g, client := .handed message } := by
  have hgone : r.client ≠ .gone := by rw [hclient]; nofun
  have hwhole : r.entries ++ message.entries ++ g.entries = decoded := by
    have := h.whole hgone haborted
    rw [hclient, hentries] at this
    simpa [Client.entries] using this
  refine ⟨?_, fun _ _ => hwhole, ?_, hdrained, hatEnd, hphase, hmessage, h.scheduled, h.done, fun _ => ?_⟩
  · change Reads _ _ _ g.stream
    rw [hstream]
    exact h.reads
  · exact hwhole ▸ List.prefix_append _ _
  · have := h.working hgone
    rwa [hclient] at this

theorem Inv.ingest (hstep : IngestStep decode a r.ingest r.client g c) :
    ∃ decoded, Inv decode a stream decoded { r with ingest := g, client := c } := by
  obtain ⟨⟨_, batch, phase⟩, client, received, scheduled⟩ := r
  have hverified := h.phase
  have hatEnd := h.atEnd
  have hdrained := h.drained
  cases hstep with
  | lost _ hphase hread =>
    cases hphase
    exact ⟨decoded, h.internal rfl (fun _ => ⟨nofun, rfl⟩) nofun hread trivial⟩
  | refused _ hphase =>
    cases hphase
    exact ⟨decoded, h.internal rfl (fun _ => ⟨nofun, rfl⟩) nofun trivial trivial⟩
  | transaction _ bytes rest phase hphase hread hnext =>
    cases hphase
    refine ⟨decoded ++ [.transaction bytes], h.read hread nofun (fun _ => ?_) ?_ ?_ ?_⟩ <;>
      rcases hnext with rfl | rfl <;>
      simp [Ingest.entries, Phase.entries, After.entries, TransactionsBatch.push, Phase.Drained, Phase.AtEnd, After.AtEnd,
        Phase.Verified, After.Verified]
  | boundary _ entry rest hphase hread hverifies =>
    cases hphase
    refine ⟨decoded ++ [entry], h.read hread nofun (fun _ => ?_) nofun trivial hverifies⟩
    simp [Ingest.entries, Phase.entries, After.entries]
  | rejected _ entry rest hphase hread =>
    cases hphase
    exact ⟨decoded ++ [entry], h.read hread nofun (fun hnot => absurd trivial hnot) nofun trivial trivial⟩
  | flushed _ after hphase hempty =>
    cases hphase
    exact ⟨decoded, h.internal rfl (fun _ => ⟨nofun, by rw [Ingest.entries, proceed_entries]; rfl⟩) (fun _ => hempty)
      (proceed_atEnd after _ hatEnd) (proceed_verified after hverified)⟩
  | raw after hphase =>
    cases hphase
    exact ⟨decoded, h.hand rfl rfl nofun (by rw [Ingest.entries, Ingest.entries, proceed_entries]; rfl) (fun _ => rfl)
      (proceed_atEnd after _ hatEnd) (proceed_verified after hverified) trivial⟩
  | verified _ after verified hphase hverify =>
    cases hphase
    have hbytes : _ = batch.transactions := map_bytes_of_verify hverify
    refine ⟨decoded, h.internal rfl (fun _ => ⟨nofun, ?_⟩) (fun _ => rfl) hatEnd ⟨⟨_, hverify⟩, hverified⟩⟩
    simp [Ingest.entries, Phase.entries, ← hbytes]
  | handed after verified hphase =>
    cases hphase
    have hempty : batch.transactions = [] := hdrained trivial
    exact ⟨decoded, h.hand rfl rfl nofun (by simp only [Ingest.entries, hempty, proceed_entries]; rfl) (fun _ => hempty)
      (proceed_atEnd after _ hatEnd) (proceed_verified after hverified.2) hverified.1⟩
  | delivered entry hphase =>
    cases hphase
    have hempty : batch.transactions = [] := hdrained trivial
    exact ⟨decoded, h.hand rfl rfl nofun (by simp only [Ingest.entries, hempty]; rfl) nofun trivial trivial hverified⟩
  | failed | stopped =>
    exact ⟨decoded, h.internal rfl (fun hnot => absurd trivial hnot) nofun trivial trivial⟩

theorem Inv.receive (hclient : r.client = .handed message) :
    Inv decode a stream decoded { r with client := .consume a message, received := r.received ++ [message] } := by
  have hgone : r.client ≠ .gone := by rw [hclient]; nofun
  have hmessage : message.Verified a := by
    have := h.client
    rwa [hclient] at this
  have hentries : (r.received ++ [message]).flatMap (·.entries) = r.entries ++ r.client.entries := by
    rw [hclient, List.flatMap_append, List.flatMap_singleton]
    rfl
  have hscheduled : r.scheduled.map (·.entry) = r.entries := by
    have := h.working hgone
    simpa [hclient, Client.work] using this
  -- The work of a message are its entries.
  have hconsume : (Client.consume a message).entries = [] ∧ (Client.consume a message).Verified a ∧
      (Client.consume a message ≠ .gone → (Client.consume a message).work.map (·.entry) = message.entries) := by
    cases message with
    | unverified batch =>
      unfold Client.consume
      dsimp only
      split
      · next verified hverify =>
        refine ⟨rfl, fun w hw => ?_, fun _ => ?_⟩
        · obtain ⟨t, ht, rfl⟩ := List.mem_map.mp hw
          exact ⟨batch, verified, hverify, ht⟩
        · rw [ReplicationMessage.entries, ← map_bytes_of_verify hverify, List.map_map]
          simp [Client.work, Work.entry]
      · exact ⟨rfl, trivial, fun hne => absurd rfl hne⟩
    | verified batch =>
      obtain ⟨raw, hverify⟩ := hmessage
      refine ⟨rfl, fun w hw => ?_, fun _ => ?_⟩
      · obtain ⟨t, ht, rfl⟩ := List.mem_map.mp hw
        exact ⟨raw, batch, hverify, ht⟩
      · simp [Client.consume, Client.work, Work.entry, ReplicationMessage.entries]
    | boundary entry =>
      refine ⟨rfl, fun w hw => ?_, fun _ => rfl⟩
      rw [List.mem_singleton.mp hw]
      exact hmessage
  obtain ⟨hnone, hverified, hwork⟩ := hconsume
  refine ⟨h.reads, fun _ hnot => ?_, ?_, h.drained, h.atEnd, h.phase, hverified, h.scheduled, ?_, fun hne => ?_⟩
  · change (r.received ++ [message]).flatMap (·.entries) ++ _ ++ _ = _
    rw [hentries, hnone, List.append_nil]
    exact h.whole hgone hnot
  · change (r.received ++ [message]).flatMap (·.entries) ++ _ <+: _
    rw [hentries, hnone, List.append_nil]
    exact h.ordered
  · change _ <+: (r.received ++ [message]).flatMap (·.entries)
    rw [hentries, hscheduled]
    exact List.prefix_append _ _
  · change _ = (r.received ++ [message]).flatMap (·.entries)
    rw [hentries, List.map_append, hscheduled, hwork hne, hclient]
    rfl

private theorem Inv.move {scheduled : List Work} (hentries : c.entries = [])
    (hgone : c ≠ .gone → r.client ≠ .gone ∧ r.client.entries = []) (hclient : c.Verified a)
    (hscheduled : ∀ w ∈ scheduled, w.Verified a) (hdone : scheduled.map (·.entry) <+: r.entries)
    (hworking : c ≠ .gone → scheduled ++ c.work = r.scheduled ++ r.client.work) :
    Inv decode a stream decoded { r with client := c, scheduled } where
  reads := h.reads
  whole hne hnot := by
    obtain ⟨hgone, hnone⟩ := hgone hne
    have := h.whole hgone hnot
    rw [hnone] at this
    change r.entries ++ c.entries ++ r.ingest.entries = decoded
    rw [hentries, this]
  ordered := by
    change r.entries ++ c.entries <+: decoded
    rw [hentries, List.append_nil]
    exact (List.prefix_append _ _).trans h.ordered
  drained := h.drained
  atEnd := h.atEnd
  phase := h.phase
  client := hclient
  scheduled := hscheduled
  done := hdone
  working hne := by
    change (scheduled ++ c.work).map (·.entry) = r.entries
    rw [hworking hne]
    exact h.working (hgone hne).1

theorem Inv.step {r' : Replication} (hstep : Step decode a r r') :
    ∃ decoded, Inv decode a stream decoded r' := by
  have hverified := h.client
  have hworking := h.working
  cases hstep with
  | ingest hingest => exact h.ingest (step_cases hingest)
  | receive message hclient => exact ⟨decoded, h.receive hclient⟩
  | schedule work rest hclient =>
    rw [hclient] at hverified hworking
    refine ⟨decoded, h.move rfl (fun _ => by rw [hclient]; exact ⟨nofun, rfl⟩)
      (fun w hw => hverified w (List.mem_cons_of_mem work hw)) (fun w hw => ?_) ?_ fun _ => ?_⟩
    · rcases List.mem_append.mp hw with hold | hnew
      · exact h.scheduled w hold
      · rw [List.mem_singleton.mp hnew]
        exact hverified work List.mem_cons_self
    · have hsplit : r.scheduled ++ work :: rest = r.scheduled ++ [work] ++ rest := by simp
      rw [← hworking nofun, Client.work, hsplit]
      exact (List.prefix_append _ rest).map _
    · rw [hclient]
      simp [Client.work]
  | wait hclient | close _ hclient =>
    exact ⟨decoded, h.move rfl (fun _ => by rw [hclient]; exact ⟨nofun, rfl⟩) trivial h.scheduled h.done
      fun _ => by rw [hclient]; rfl⟩
  | leave =>
    exact ⟨decoded, h.move rfl (fun hne => absurd rfl hne) trivial h.scheduled h.done fun hne => absurd rfl hne⟩

end

theorem Reachable.inv (h : Reachable decode a stream r) : ∃ decoded, Inv decode a stream decoded r := by
  induction h with
  | initial =>
    exact ⟨[], .nil stream, fun _ _ => rfl, List.nil_prefix, False.elim, trivial, trivial,
      fun _ hw => absurd hw List.not_mem_nil, fun _ hw => absurd hw List.not_mem_nil, List.nil_prefix, fun _ => rfl⟩
  | step _ hstep ih =>
    obtain ⟨decoded, hinv⟩ := ih
    exact hinv.step hstep

end Steps

/-- The entries the client loop receives are the first ones of the stream, and the work it schedules those of the
messages, in order; of a stream that is cut they are the first ones of the whole. A batch is a piece of the stream
without a boundary in it. When the client loop learns that the connection was lost it has received every entry that
could be decoded. What is scheduled was verified. -/
theorem ingest_preserves_stream (hdecode : Incremental 1 decode) (a : Authority) (stream : Bytes) (cut : Nat)
    (r : Replication) (h : Reachable decode a (stream.take cut) r) :
    (r.scheduled.map (·.entry) <+: r.entries ∧ r.entries <+: all decode (stream.take cut) ∧
      all decode (stream.take cut) <+: all decode stream) ∧
    (∀ before message after, r.received = before ++ message :: after → message.isBatch = true →
      (∃ rest, all decode (stream.take cut) = before.flatMap (·.entries) ++ message.entries ++ rest) ∧
      ∀ entry ∈ message.entries, entry.isTransaction = true) ∧
    (r.client = .closed → r.ingest.phase = .exited .disconnected → r.entries = all decode (stream.take cut)) ∧
    ∀ w ∈ r.scheduled, w.Verified a := by
  obtain ⟨decoded, hinv⟩ := h.inv
  have hall : all decode (stream.take cut) = decoded ++ all decode r.ingest.stream := hinv.reads.all_eq hdecode
  have hreceived : r.entries <+: all decode (stream.take cut) := by
    rw [hall]
    exact ((List.prefix_append _ _).trans hinv.ordered).trans (List.prefix_append _ _)
  refine ⟨⟨hinv.done, hreceived, all_take_isPrefix hdecode cut⟩, ?_, ?_, hinv.scheduled⟩
  · intro before message after hsplit hbatch
    refine ⟨?_, fun entry hentry => ?_⟩
    · obtain ⟨rest, hrest⟩ := hreceived
      rw [Replication.entries, hsplit, List.flatMap_append, List.flatMap_cons] at hrest
      exact ⟨after.flatMap (·.entries) ++ rest, by rw [← hrest]; simp only [List.append_assoc]⟩
    · cases message with
      | unverified batch =>
        obtain ⟨bytes, -, rfl⟩ := List.mem_map.mp hentry
        rfl
      | verified batch =>
        obtain ⟨t, -, rfl⟩ := List.mem_map.mp hentry
        rfl
      | boundary entry => cases hbatch
  · intro hclosed hexit
    have hwhole := hinv.whole (by rw [hclosed]; nofun) (by rw [hexit]; nofun)
    have hend := hinv.atEnd
    have hdrained := hinv.drained
    rw [hexit] at hend hdrained
    rw [hall, all_of_error hend, List.append_nil, ← hwhole, hclosed, Ingest.entries, hdrained trivial, hexit]
    simp [Client.entries, Phase.entries]

def plainCheckpoint : OwnedBlockstoreEntry := .checkpoint { payload := 5, signature := ⟨16#512⟩ }

/-- A byte zero is a checkpoint; any other byte is the length of the transaction after it. -/
def plainDecode : Reader UInt8 OwnedBlockstoreEntry := do
  let header ← take 1
  if header = [0] then pure plainCheckpoint
  else .transaction <$> take (header.headD 0).toNat

theorem incremental_plainDecode : Incremental 1 plainDecode := by
  refine (incremental_take 1).bind (m := 0) fun header => ?_
  split
  · exact incremental_pure _
  · exact ((incremental_take _).map _).of_zero

/-- A key signs a transaction with its first byte, and a record is signed with the length of its message. -/
def plainAuthority : Authority where
  verify signature _ message := signature == ⟨BitVec.ofNat 512 message.length⟩
  batchVerify data := data.all fun (signature, key, _) => signature == List.replicate 64 (key.headD 0)
  authority := .ofBytes (List.replicate 32 1)

def plainTransaction : VerifiedTransaction := ⟨privateTransaction 1, privateFrame⟩

/-- A transaction, a checkpoint and a transaction. -/
def plainStream : Bytes := 181 :: (plainTransaction.bytes ++ 0 :: 181 :: (plainTransaction.bytes ++ [181]))

private theorem step_plainTransaction (rest : Bytes) (c : Client) :
    Ingest.step plainDecode plainAuthority { stream := 181 :: (plainTransaction.bytes ++ rest) } c =
      some ({ stream := rest, batch := ⟨[plainTransaction.bytes], 181⟩ }, c) := by
  have hlength : plainTransaction.bytes.length = 181 := by decide +kernel
  have hread : plainDecode (181 :: (plainTransaction.bytes ++ rest)) = .ok (.transaction plainTransaction.bytes, rest) := by
    simp [plainDecode, take, Bind.bind, StateT.bind, Except.bind, Functor.map, StateT.map, pure, Except.pure, hlength]
  simp [Ingest.step, hread, Ingest.accept, TransactionsBatch.push, TransactionsBatch.isFull, hlength,
    TransactionsBatch.maxBatchTransactions, TransactionsBatch.maxBatchBytes]

private theorem step_plainCheckpoint (batch : TransactionsBatch) (rest : Bytes) (c : Client) :
    Ingest.step plainDecode plainAuthority { stream := 0 :: rest, batch } c =
      some ({ stream := rest, batch, phase := .flushing (.deliver plainCheckpoint) }, c) := by
  have hread : plainDecode (0 :: rest) = .ok (plainCheckpoint, rest) := rfl
  have hverifies : plainAuthority.verifies plainCheckpoint = true := by decide +kernel
  rw [plainCheckpoint] at hread hverifies ⊢
  simp [Ingest.step, hread, Ingest.accept, hverifies]

private theorem verify_plainTransaction :
    verify plainAuthority [plainTransaction.bytes] = .ok [plainTransaction] := by
  decide +kernel

/-- The client loop waits for the first batch and verifies it itself. It is busy when the connection is lost, so the
second batch is verified before it is handed over. -/
theorem reachable_plain : Reachable plainDecode plainAuthority (plainStream.take 365)
    { ingest := { stream := [], phase := .exited .disconnected }, client := .closed
      received := [.unverified [plainTransaction.bytes], .boundary plainCheckpoint, .verified [plainTransaction]]
      scheduled := [.transaction plainTransaction, .boundary plainCheckpoint, .transaction plainTransaction] } := by
  have hcut : plainStream.take 365 =
      181 :: (plainTransaction.bytes ++ 0 :: 181 :: (plainTransaction.bytes ++ [])) := by
    decide +kernel
  have hflush (stream : Bytes) (message : ReplicationMessage) : Ingest.step plainDecode plainAuthority
      { stream, batch := ⟨[plainTransaction.bytes], 181⟩, phase := .flushing (.exit .disconnected) } (.handed message) =
      some ({ stream, phase := .handing [plainTransaction] (.exit .disconnected) }, .handed message) := by
    simp [Ingest.step, Ingest.flush, Ingest.send, verify_plainTransaction]
  have hconsume : Client.consume plainAuthority (.unverified [plainTransaction.bytes]) =
      .working [.transaction plainTransaction] := by
    simp [Client.consume, verify_plainTransaction]
  have h₀ : Reachable plainDecode plainAuthority (plainStream.take 365) _ := .initial
  rw [hcut] at h₀ ⊢
  have h₁ := h₀.step (.wait rfl)
  have h₂ := h₁.step (.ingest (step_plainTransaction ..))
  have h₃ := h₂.step (.ingest (step_plainCheckpoint ..))
  have h₄ := h₃.step (.ingest rfl)
  have h₅ := h₄.step (.receive (.unverified [plainTransaction.bytes]) rfl)
  rw [hconsume] at h₅
  have h₆ := h₅.step (.schedule _ _ rfl)
  have h₇ := h₆.step (.wait rfl)
  have h₈ := h₇.step (.ingest rfl)
  have h₉ := h₈.step (.ingest (step_plainTransaction ..))
  have h₁₀ := h₉.step (.ingest rfl)
  have h₁₁ := h₁₀.step (.ingest (hflush ..))
  have h₁₂ := h₁₁.step (.receive (.boundary plainCheckpoint) rfl)
  have h₁₃ := h₁₂.step (.schedule _ _ rfl)
  have h₁₄ := h₁₃.step (.wait rfl)
  have h₁₅ := h₁₄.step (.ingest rfl)
  have h₁₆ := h₁₅.step (.receive (.verified [plainTransaction]) rfl)
  have h₁₇ := h₁₆.step (.schedule _ _ rfl)
  have h₁₈ := h₁₇.step (.wait rfl)
  exact h₁₈.step (.close .disconnected rfl rfl)

/-- Both batches and the checkpoint between them are received, and all that is scheduled was verified. -/
theorem ingest_preserves_stream_batches :
    all plainDecode (plainStream.take 365) =
      [.transaction plainTransaction.bytes, plainCheckpoint, .transaction plainTransaction.bytes] ∧
    (Work.transaction plainTransaction).Verified plainAuthority := by
  have h := ingest_preserves_stream incremental_plainDecode plainAuthority plainStream 365 _ reachable_plain
  exact ⟨(h.2.2.1 rfl rfl).symm, h.2.2.2 _ List.mem_cons_self⟩

end MagicEngine.Replicator
