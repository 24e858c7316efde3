import MagicEngine.Node.Stream

/-!
# The block hash chain

A block hash covers the hash of the block before it and the first signatures of the transactions between the two. The
rolling hasher lives in the sequencer; a start seeds it anew with the hash of the latest block. A published stream is
chained when every block of it continues the stream before it (`Chained`): that is what a replaying or following
sequencer checks.

Within one lifetime the hasher stands at the end of the stream (`Linked`), whatever the appender has published of it.
A start keeps this up only when the stream ends at the block the node takes for its latest one; transactions that were
published behind that block are missing from the hash of the next.
-/

namespace MagicEngine

variable {η δ : Type}

def BlockHasher.follow (hasher : BlockHasher η) : BlockstoreEntry η δ → BlockHasher η
  | .transaction t => hasher.update t.signature
  | .block b => { parent := b.hash }
  | .superblock _ | .reset _ | .checkpoint _ => hasher

/-- The event adds neither a transaction nor a block to the stream. -/
def LedgerEvent.quiet : LedgerEvent η δ → Bool
  | .transaction _ | .block .. => false
  | _ => true

section Stream

variable [Inhabited η]

/-- Where the hash chain stands behind a stream: the hash of its last block and the signatures since. -/
def chainTip (stream : List (BlockstoreEntry η δ)) : BlockHasher η :=
  stream.foldl BlockHasher.follow { parent := default }

/-- The block's parent is the previous block of the stream, and its hash covers the transactions between the two. -/
def Block.Continues (b : Block η) (env : NodeEnv η δ) (stream : List (BlockstoreEntry η δ)) : Prop :=
  b.parent = (chainTip stream).parent ∧ b.hash = (chainTip stream).finalize env

/-- Every block of the stream continues the stream before it. -/
def Chained (env : NodeEnv η δ) (stream : List (BlockstoreEntry η δ)) : Prop :=
  ∀ before b after, stream = before ++ .block b :: after → b.Continues env before

variable {env : NodeEnv η δ} {stream : List (BlockstoreEntry η δ)} {entry : BlockstoreEntry η δ}

theorem chainTip_append : chainTip (stream ++ [entry]) = (chainTip stream).follow entry := by
  simp [chainTip]

theorem Chained.nil : Chained env ([] : List (BlockstoreEntry η δ)) := by
  intro before b after h
  simp at h

theorem Chained.of_prefix {stream' : List (BlockstoreEntry η δ)} (h : Chained env stream') (hle : stream <+: stream') :
    Chained env stream := by
  obtain ⟨rest, rfl⟩ := hle
  rintro before b after rfl
  exact h before b (after ++ rest) (by simp)

theorem chained_append_iff :
    Chained env (stream ++ [entry]) ↔ Chained env stream ∧ ∀ b, entry = .block b → b.Continues env stream := by
  constructor
  · intro h
    refine ⟨h.of_prefix (List.prefix_append ..), ?_⟩
    rintro b rfl
    exact h stream b [] rfl
  · rintro ⟨hstream, hentry⟩ before b after heq
    -- the block is the new entry, or it stands in the old stream
    rcases List.eq_nil_or_concat after with rfl | ⟨rest, last, rfl⟩
    · obtain ⟨rfl, hlast⟩ := List.append_inj' heq rfl
      exact hentry b (List.cons.inj hlast).1
    · rw [List.concat_eq_append, ← List.cons_append, ← List.append_assoc] at heq
      exact hstream before b rest (List.append_inj' heq rfl).1

end Stream

namespace NodeProcess

/-- The hasher as it stands once the block in the making is finalized. -/
def nextHasher (p : NodeProcess η δ) : BlockHasher η :=
  match p.phase with
  | .blockSent block | .sysvarsUpdated block => { parent := block.hash }
  | _ => p.hasher

end NodeProcess

namespace Node

variable [Inhabited η] {env : NodeEnv η δ} {w w' : Node η δ} {p p' : NodeProcess η δ}

/-- The stream is chained, and the hasher of a live process stands at its end. -/
structure Linked (env : NodeEnv η δ) (w : Node η δ) : Prop where
  chained : Chained env w.stream
  hasher : ∀ p, w.process = some p → p.phase ≠ .opened → p.nextHasher = chainTip w.stream

/-- The stream ends at the block the node takes for its latest one. -/
def Aligned (w : Node η δ) : Prop :=
  ∀ p, w.process = some p → chainTip w.stream = { parent := p.keeper.latest.hash }

instance [DecidableEq η] (w : Node η δ) : Decidable w.Aligned :=
  inferInstanceAs (Decidable (∀ p ∈ w.process, _))

def GoesLiveAligned (w : Node η δ) (action : NodeAction η δ) : Prop := action = .goLive → w.Aligned

instance [DecidableEq η] (w : Node η δ) (action : NodeAction η δ) : Decidable (GoesLiveAligned w action) :=
  match action with
  | .goLive => decidable_of_iff w.Aligned ⟨fun h _ => h, fun h => h rfl⟩
  | .openDisk | .crashOpening _ | .submit _ | .execute _ | .count | .sendBlock .. | .updateSysvars | .setSlot
  | .checkpoint | .beginSeal | .flushSeal | .sendSeal | .reset _ | .sync | .append | .archive _ | .stageSnapshot _
  | .shutdown | .stop | .crash | .crashAppending _ => isTrue nofun

theorem Linked.of_prefix (hw : Linked env w) (hle : w'.stream <+: w.stream) (hp' : w'.process = none) :
    Linked env w' where
  chained := hw.chained.of_prefix hle
  hasher q hq := by simp [hp'] at hq

theorem Linked.of_quiet {events : List (LedgerEvent η δ)} (hw : Linked env w) (hp : w.process = some p)
    (hledger : w'.disk.ledger = w.disk.ledger) (hp' : w'.process = some p') (hbuffer : p'.buffer = p.buffer)
    (hqueue : p'.queue = p.queue ++ events)
    (hevents : events = [] ∨ ∃ event : LedgerEvent η δ, events = [event] ∧ event.quiet)
    (hphase : p'.phase ≠ .opened → p.phase ≠ .opened) (hnext : p'.nextHasher = p.nextHasher) : Linked env w' := by
  have hstream := stream_send hp hledger hp' hbuffer hqueue
  have hboth : chainTip w'.stream = chainTip w.stream ∧ Chained env w'.stream := by
    rw [hstream]
    rcases hevents with rfl | ⟨event, rfl, hevent⟩
    · simpa using hw.chained
    · cases event with
      | transaction t | block b => cases hevent
      | sync => simpa [LedgerEvent.entry] using hw.chained
      | _ => exact ⟨chainTip_append, chained_append_iff.mpr ⟨hw.chained, fun _ h => by cases h⟩⟩
  refine ⟨hboth.2, fun q hq hopened => ?_⟩
  cases hp'.symm.trans hq
  rw [hnext, hboth.1]
  exact hw.hasher p hp (hphase hopened)

theorem Linked.of_transaction {t : LedgerTransaction η} (hw : Linked env w) (hp : w.process = some p)
    (hledger : w'.disk.ledger = w.disk.ledger) (hp' : w'.process = some p') (hbuffer : p'.buffer = p.buffer)
    (hqueue : p'.queue = p.queue ++ [.transaction t]) (hphase : p.phase = .idle) (hphase' : p'.phase = .idle)
    (hhasher : p'.hasher = p.hasher.update t.signature) : Linked env w' := by
  have hstream := stream_send hp hledger hp' hbuffer hqueue
  have hold := hw.hasher p hp (by simp [hphase])
  refine ⟨hstream ▸ chained_append_iff.mpr ⟨hw.chained, nofun⟩, fun q hq _ => ?_⟩
  cases hp'.symm.trans hq
  rw [NodeProcess.nextHasher, hphase] at hold
  rw [NodeProcess.nextHasher, hphase', hstream]
  exact (hhasher.trans (congrArg (·.update t.signature) hold)).trans chainTip_append.symm

variable [DecidableEq η]

omit [Inhabited η] in
theorem stream_sendBlock {time : Int} {sizeExceeded : Bool} (hp : w.process = some p) :
    stream { w with process := p.sendBlock env time sizeExceeded } =
      w.stream ++ [.block
        { slot := p.keeper.latest.slot + 1, hash := p.hasher.finalize env, time, parent := p.hasher.parent }] := by
  rw [stream_of_process hp, stream_of_process rfl]
  simp [NodeProcess.sendBlock, NodeProcess.send, LedgerEvent.entry]

theorem Linked.sendBlock {time : Int} {sizeExceeded : Bool} (hw : Linked env w) (hp : w.process = some p)
    (hphase : p.phase = .idle) : Linked env { w with process := p.sendBlock env time sizeExceeded } := by
  have htip : p.hasher = chainTip w.stream := by
    have hold := hw.hasher p hp (by simp [hphase])
    rwa [NodeProcess.nextHasher, hphase] at hold
  refine ⟨?_, fun q hq _ => ?_⟩
  · rw [stream_sendBlock hp]
    refine chained_append_iff.mpr ⟨hw.chained, fun b hb => ?_⟩
    cases hb
    exact ⟨congrArg (·.parent) htip, congrArg (·.finalize env) htip⟩
  · cases hq
    rw [stream_sendBlock hp, chainTip_append]
    rfl

variable [DecidableEq δ] {action : NodeAction η δ}

theorem Linked.openDisk (hw : Linked env w) (hp : w.process = none) : Linked env (w.openDisk env) := by
  obtain ⟨tree, htree⟩ := startup_disk env w.disk
  have hstream : (w.openDisk env).stream = w.stream := by
    rw [stream_of_stopped hp]
    rcases openDisk_cases env w with ⟨e, -, heq⟩ | ⟨keeper, -, heq⟩
    all_goals rw [heq, htree]
    · exact stream_of_stopped hp
    · simp [stream]
  refine ⟨hstream ▸ hw.chained, fun q hq hopened => ?_⟩
  rcases openDisk_cases env w with ⟨e, -, heq⟩ | ⟨keeper, -, heq⟩
  all_goals rw [heq] at hq
  · simp [hp] at hq
  · cases hq
    exact absurd rfl hopened

omit [DecidableEq η] [DecidableEq δ] in
theorem Linked.goLive (hw : Linked env w) (hp : w.process = some p) (haligned : w.Aligned) :
    Linked env { w with process := p.goLive env } := by
  -- once the hasher is seeded, the reset of a leader is one more quiet event
  have hseeded : Linked env
      { w with process := some { p with hasher := { parent := p.keeper.latest.hash }, phase := .idle } } := by
    have hstream : stream
        { w with process := some { p with hasher := { parent := p.keeper.latest.hash }, phase := .idle } } =
          w.stream := by
      rw [stream_of_process hp, stream_of_process rfl]
    refine ⟨hstream ▸ hw.chained, fun q hq _ => ?_⟩
    cases hq
    rw [hstream, haligned p hp]
    rfl
  unfold NodeProcess.goLive
  dsimp only
  split
  · exact hseeded
  · exact hseeded.of_quiet rfl rfl rfl rfl rfl (.inr ⟨_, rfl, rfl⟩) id rfl

theorem Linked.step (hw : Linked env w) (hpaced : w.Paced) (hok : GoesLiveAligned w action)
    (h : w.step env action = some w') : Linked env w' := by
  rcases step_cases h with ⟨hp, -, rfl⟩ | ⟨hp, tree, rfl⟩ | ⟨p, hp, h⟩
  · exact hw.openDisk hp
  · exact { hw with }
  have hnil : ∀ q : NodeProcess η δ, q.queue = q.queue ++ [] := fun q => (List.append_nil _).symm
  cases h with
  | goLive => exact hw.goLive hp (hok rfl)
  | submit t hphase =>
    rcases p.submit_cases t with ⟨e, -, heq⟩ | ⟨-, heq⟩
    all_goals rw [heq]
    · exact hw.of_quiet hp rfl rfl rfl (hnil p) (.inl rfl) id rfl
    · exact hw.of_transaction hp rfl rfl rfl rfl hphase hphase rfl
  | execute index p' hp' =>
    obtain ⟨keeper, pending, uncounted, rfl, -⟩ := NodeProcess.execute_eq_some hp'
    exact hw.of_quiet hp rfl rfl rfl (hnil p) (.inl rfl) id rfl
  | count | archive => exact hw.of_quiet hp rfl rfl rfl (hnil p) (.inl rfl) id rfl
  | sendBlock _ _ hbarrier => exact hw.sendBlock hp (NodeProcess.idle_of_atBarrier hbarrier)
  | updateSysvars _ _ hphase | setSlot _ hphase | flushSeal hphase =>
    exact hw.of_quiet hp rfl rfl rfl (hnil p) (.inl rfl) (by simp [hphase]) (by simp [NodeProcess.nextHasher, hphase])
  | checkpoint | sync | reset => exact hw.of_quiet hp rfl rfl rfl rfl (.inr ⟨_, rfl, rfl⟩) id rfl
  | beginSeal hguard =>
    have hphase := NodeProcess.idle_of_atBarrier hguard.1
    exact hw.of_quiet hp rfl rfl rfl (hnil p) (.inl rfl) (by simp [hphase]) (by simp [NodeProcess.nextHasher, hphase])
  | sendSeal hphase =>
    exact hw.of_quiet hp rfl rfl rfl rfl (.inr ⟨_, rfl, rfl⟩) (by simp [hphase])
      (by simp [NodeProcess.nextHasher, hphase, NodeProcess.send])
  | append event queue hqueue =>
    have hstream := hpaced.stream_append hp hqueue
    refine ⟨hstream ▸ hw.chained, fun q hq hopened => ?_⟩
    cases hq
    rw [hstream]
    exact hw.hasher p hp hopened
  | stageSnapshot => exact hw.of_quiet hp rfl rfl rfl rfl (.inr ⟨_, rfl, rfl⟩) id rfl
  | shutdown hbarrier =>
    have hphase := NodeProcess.idle_of_atBarrier hbarrier
    exact hw.of_quiet hp rfl rfl rfl rfl (.inr ⟨_, rfl, rfl⟩) (by simp [hphase])
      (by simp [NodeProcess.nextHasher, hphase, NodeProcess.send])
  | stop | crash => exact hw.of_prefix w.published_prefix rfl
  | crashAppending stores event hevent =>
    obtain ⟨queue, hqueue⟩ := List.head?_eq_some_iff.mp hevent
    obtain ⟨-, hpublished⟩ := hpaced.fresh.appendCut p.buffer stores event fun s hs =>
      (hpaced.seal_head hp (hs ▸ hqueue)).1
    refine hw.of_prefix (hpublished.trans ?_) rfl
    refine ⟨queue.filterMap (·.entry), ?_⟩
    rw [stream_of_process hp, hqueue]
    cases h : event.entry <;> simp [h]

theorem linked_of_reachable {checksum : δ} (h : ReachableIf env checksum GoesLiveAligned w) :
    w.Paced ∧ Linked env w :=
  @Transition.invariant _ _ (fun w => w.Paced ∧ Linked env w)
    (fun _ _ hw ⟨_, hok, hstep⟩ => ⟨hw.1.step hstep, hw.2.step hw.1 hok hstep⟩) _ _
    ⟨paced_initial checksum, .nil, fun _ h => by cases h⟩ h

/-- In every run whose starts go live at the end of the stream, every block ever published names the block before it
and hashes the transactions between the two. A block extends a chained stream to a chained one exactly when the
hasher of the process stands at its end. -/
theorem blocks_chained (hhash : ∀ parent signatures parent' signatures',
    env.blockHash parent signatures = env.blockHash parent' signatures' → parent = parent' ∧ signatures = signatures') :
    (∀ checksum w, ReachableIf env checksum GoesLiveAligned w → Chained env w.disk.ledger.published) ∧
    ∀ (w w' : Node η δ) p time sizeExceeded, w.process = some p → Chained env w.stream →
      w.step env (.sendBlock time sizeExceeded) = some w' → (Chained env w'.stream ↔ p.hasher = chainTip w.stream) := by
  constructor
  · intro checksum w h
    exact (linked_of_reachable h).2.chained.of_prefix w.published_prefix
  · intro w w' p time sizeExceeded hp hchained h
    simp only [step, hp, processStep, Option.ite_none_right_eq_some, Option.some.injEq] at h
    obtain ⟨-, rfl⟩ := h
    rw [stream_sendBlock hp, chained_append_iff]
    constructor
    · rintro ⟨-, hblock⟩
      obtain ⟨-, hsignatures⟩ := hhash _ _ _ _ (hblock _ rfl).2
      have hparent := (hblock _ rfl).1
      cases hasher : p.hasher
      simp_all
    · intro htip
      refine ⟨hchained, fun b hb => ?_⟩
      cases hb
      exact ⟨congrArg (·.parent) htip, congrArg (·.finalize env) htip⟩

open NodeAction in
/-- Two lifetimes, each with a block; the stream is chained across the restart. -/
theorem blocks_chained_restart :
    ∃ w, ReachableIf leaderEnv ⟨0, 0, []⟩ GoesLiveAligned w ∧ Chained leaderEnv w.disk.ledger.published ∧
      w.disk.ledger.published.countP (fun | .block _ => true | _ => false) = 2 := by
  have hrun : (runIf leaderEnv GoesLiveAligned
      [started, finalized, stopped, started, executed (transferAt (.block .genesis []) default), finalized].flatten
      leaderStart).map (fun w => w.disk.ledger.published.countP (fun | .block _ => true | _ => false)) = some 2 := by
    decide +kernel
  obtain ⟨w, hw, hcount⟩ := Option.map_eq_some_iff.mp hrun
  have hreachable := reachableIf_of_runIf .refl hw
  exact ⟨w, hreachable, (blocks_chained (fun _ _ _ _ h => by cases h; exact ⟨rfl, rfl⟩)).1 _ w hreachable, hcount⟩

open NodeAction in
/-- A leader finalizes its last block, and a transaction is admitted before the shutdown drains. The next start seeds its
hasher with that block, and the first block it publishes leaves the transaction out. -/
theorem shutdown_breaks_chain :
    ∃ w, Reachable leaderEnv ⟨0, 0, []⟩ w ∧ ¬ Chained leaderEnv w.disk.ledger.published := by
  have hrun : (run leaderEnv
      [started, finalized, executed (transferAt (.block .genesis []) default), stopped, started, finalized].flatten
      leaderStart).map (·.disk.ledger.published) =
        some [.reset ⟨1, 1, []⟩, .block ⟨1, .block .genesis [], 0, .genesis⟩,
          .transaction (transferAt (.block .genesis []) default), .reset ⟨2, 1, []⟩,
          .block ⟨2, .block (.block .genesis []) [], 0, .block .genesis []⟩] := by
    decide +kernel
  obtain ⟨w, hw, hpublished⟩ := Option.map_eq_some_iff.mp hrun
  refine ⟨w, reachableIf_of_runIf .refl hw, fun hchained => ?_⟩
  rw [hpublished] at hchained
  exact absurd (hchained [_, _, _, _] _ [] rfl).2 (by decide)

end Node

end MagicEngine
