import MagicEngine.Node.Recovery
import MagicEngine.Node.Stream

/-!
# What a replay starts from

The replay stream begins behind a seal, so the state it is applied to has to be the state of that seal. A restored
archive is such a state as long as every archive belongs to the seal that was published (`Archived`). An active tree
is not: once accepted, it is whatever the last process left, and it is replayed onto when its slot trails the tip.

A seal whose snapshot was archived and which a crash kept from the ledger leaves an archive behind that the next seal
of the same superblock inherits.
-/

namespace MagicEngine

variable {η δ : Type}

/-- The state a start replays onto and the stream it replays. -/
def NodeEnv.replayBase [DecidableEq η] [DecidableEq δ] [Inhabited η] (env : NodeEnv η δ) (disk : Disk η δ) : Option (Keeper η δ × List (BlockstoreEntry η δ)) :=
  match env.accountsdb disk with
  | (_, .error _) => none
  | (_, .ok opened) =>
    match env.build disk.ledger opened with
    | (_, .error _) => none
    | (_, .ok k) => (k.replay disk.ledger).map (k, ·)

theorem NodeEnv.header_build [DecidableEq η] [Inhabited η] {env : NodeEnv η δ} {ledger : NodeLedger η δ}
    {t tree : Tree η δ} {k : Keeper η δ} (h : env.build ledger t = (tree, .ok k)) :
    k.tree.slot = t.slot ∧ k.tree.superblock = t.superblock ∧ k.tree.transactions = t.transactions := by
  unfold build at h
  dsimp only at h
  split at h <;> cases h
  exact ⟨rfl, rfl, rfl⟩

theorem Tree.accounts_of_state [Inhabited η] {t : Tree η δ} {s : AccountState η} (h : t.state = some s) :
    s.accounts = t.allAccounts := by
  unfold state at h
  split at h <;> cases h
  rfl

theorem Keeper.replay_eq_some {ledger : NodeLedger η δ} {k : Keeper η δ} {entries : List (BlockstoreEntry η δ)}
    (h : k.replay ledger = some entries) : ¬ (ledger.tip ≤ k.tree.slot ∧ ledger.transactions ≤ k.tree.transactions) ∧
      entries = ledger.entriesAfter k.tree.superblock := by
  unfold replay at h
  split at h
  · cases h
  · next hbehind => exact ⟨hbehind, (Option.some.inj h).symm⟩

theorem NodeLedger.newestArchive_eq_some {disk : Disk η δ} {archive : Tree η δ}
    (h : disk.ledger.newestArchive disk.archives = some archive) : ∃ d, disk.archives d = some archive := by
  obtain ⟨d, -, hd⟩ := List.exists_of_findSome?_eq_some h
  exact ⟨d, hd⟩

namespace Node

/-- No crash cuts a sent seal off. When a process starts, an accepted tree has reached the tip of the ledger, and an
archive lacks no seeded account. -/
def SealsSettled [DecidableEq δ] [Inhabited η] (env : NodeEnv η δ) (w : Node η δ) : NodeAction η δ → Prop
  | .crash | .crashAppending _ => ∀ p, w.process = some p → p.seals = []
  | .openDisk =>
    (w.disk.tree.current env w.disk.ledger → w.disk.ledger.tip ≤ w.disk.tree.slot) ∧
      ∀ archive, w.disk.ledger.newestArchive w.disk.archives = some archive → env.missing archive = []
  | _ => True

instance [DecidableEq δ] [Inhabited η] (env : NodeEnv η δ) (w : Node η δ) (action : NodeAction η δ) :
    Decidable (SealsSettled env w action) :=
  match action with
  | .crash | .crashAppending _ => inferInstanceAs (Decidable (∀ p ∈ w.process, p.seals = []))
  | .openDisk =>
    have (archive : Tree η δ) : Decidable (env.missing archive = []) := decidable_of_iff _ List.isEmpty_iff
    inferInstanceAs (Decidable ((_ → _) ∧ ∀ archive ∈ w.disk.ledger.newestArchive w.disk.archives, _))
  | .crashOpening _ | .goLive | .submit _ | .execute _ | .count | .sendBlock .. | .updateSysvars | .setSlot | .checkpoint
  | .beginSeal | .flushSeal | .sendSeal | .reset _ | .sync | .append | .archive _ | .stageSnapshot _ | .shutdown
  | .stop => isTrue trivial

/-- Every archive, finished or not, is the snapshot of the one seal that was sent for its superblock. -/
structure Archived (w : Node η δ) : Prop where
  archives : ∀ d tree, w.disk.archives d = some tree → tree.superblock + 1 = d ∧ w.sealedAt tree.superblock = some tree
  snapshots : ∀ p, w.process = some p → ∀ d tree, (d, tree) ∈ p.snapshots →
    tree.superblock + 1 = d ∧ w.sealedAt tree.superblock = some tree
  /-- A sent seal is published or waits for the appender. -/
  sent : ∀ s, w.sealedAt s ≠ none → s < w.disk.ledger.head ∨ ∃ p, w.process = some p ∧ s ∈ p.seals

variable {env : NodeEnv η δ} {w w' : Node η δ} {p p' : NodeProcess η δ} {action : NodeAction η δ}

theorem Archived.of_same (hw : w.Archived) (hp : w.process = some p) (hp' : w'.process = some p')
    (harchives : w'.disk.archives = w.disk.archives) (hsealed : w'.sealedAt = w.sealedAt)
    (hhead : w'.disk.ledger.head = w.disk.ledger.head) (hsnapshots : p'.snapshots = p.snapshots)
    (hseals : p'.seals = p.seals) : w'.Archived where
  archives := by rw [harchives, hsealed]; exact hw.archives
  snapshots q hq := by
    cases hp'.symm.trans hq
    rw [hsnapshots, hsealed]
    exact hw.snapshots p hp
  sent s hs := by
    rw [hsealed] at hs
    rw [hhead]
    refine (hw.sent s hs).imp id ?_
    rintro ⟨q, hq, hmem⟩
    cases hp.symm.trans hq
    exact ⟨p', hp', hseals ▸ hmem⟩

theorem Archived.of_stopped (hw : w.Archived) (hp : w.process = some p) (hseals : p.seals = [])
    (hp' : w'.process = none) (harchives : w'.disk.archives = w.disk.archives) (hsealed : w'.sealedAt = w.sealedAt)
    (hhead : w'.disk.ledger.head = w.disk.ledger.head) : w'.Archived where
  archives := by rw [harchives, hsealed]; exact hw.archives
  snapshots q hq := by simp [hp'] at hq
  sent s hs := by
    rw [hsealed] at hs
    rw [hhead]
    rcases hw.sent s hs with hlt | ⟨q, hq, hmem⟩
    · exact .inl hlt
    · cases hp.symm.trans hq
      simp [hseals] at hmem

section

variable [DecidableEq η] [DecidableEq δ] [Inhabited η]

theorem Archived.openDisk (hw : w.Archived) (hp : w.process = none) : (w.openDisk env).Archived := by
  obtain ⟨tree, htree⟩ := startup_disk env w.disk
  have hlt : ∀ s, w.sealedAt s ≠ none → s < w.disk.ledger.head := fun s hs => by simpa [hp] using hw.sent s hs
  rcases openDisk_cases env w with ⟨e, -, heq⟩ | ⟨keeper, -, heq⟩
  all_goals
    rw [heq, htree]
    refine ⟨hw.archives, fun q hq => ?_, fun s hs => .inl (hlt s hs)⟩
  · simp [hp] at hq
  · cases hq
    exact fun _ _ h => absurd h List.not_mem_nil

end

theorem Archived.append {event : LedgerEvent η δ} {queue : List (LedgerEvent η δ)} (hw : w.Archived) (hpaced : w.Paced)
    (hp : w.process = some p) (hqueue : p.queue = event :: queue) :
    Archived { w with
      disk := { w.disk with ledger := (w.disk.ledger.append p.buffer event).1 }
      process := some { p with queue, buffer := (w.disk.ledger.append p.buffer event).2 } } := by
  by_cases hevent : ∀ s, event ≠ .superblock s
  · refine hw.of_same hp rfl rfl rfl (w.disk.ledger.head_append p.buffer hevent) rfl ?_
    simp [NodeProcess.seals, hqueue, LedgerEvent.sealId_eq_none hevent]
  · push Not at hevent
    obtain ⟨s, rfl⟩ := hevent
    refine ⟨hw.archives, fun q hq => ?_, fun id hid => .inl ?_⟩
    · cases hq
      exact hw.snapshots p hp
    · obtain ⟨hhead, hannounced⟩ := hpaced.seal_head hp hqueue
      have hle : id ≤ s.id := by
        rcases hw.sent id hid with hlt | ⟨q, hq, hmem⟩
        · exact hlt.le.trans hhead
        · cases hp.symm.trans hq
          have hmem : id ∈ p.announced := List.mem_append_left _ hmem
          rw [hannounced] at hmem
          exact (List.mem_singleton.mp hmem).le
      exact Nat.lt_succ_of_le hle

/-- A snapshot becomes the one of its superblock, which was not sealed before. -/
theorem Archived.record (hw : w.Archived) (hp : w.process = some p) (hp' : w'.process = some p') (tree : Tree η δ)
    (hseals : p.seals = []) (hhead : w.disk.ledger.head ≤ tree.superblock)
    (hsealed : w'.sealedAt = Function.update w.sealedAt tree.superblock (some tree))
    (hledger : w'.disk.ledger = w.disk.ledger) (hseals' : p'.seals = [tree.superblock])
    (harchives : ∀ d t, w'.disk.archives d = some t → w.disk.archives d = some t ∨ d = tree.superblock + 1 ∧ t = tree)
    (hsnapshots : ∀ d t, (d, t) ∈ p'.snapshots → (d, t) ∈ p.snapshots ∨ d = tree.superblock + 1 ∧ t = tree) :
    w'.Archived := by
  have hlt : ∀ s, w.sealedAt s ≠ none → s < w.disk.ledger.head := by
    intro s hs
    refine (hw.sent s hs).resolve_right ?_
    rintro ⟨q, hq, hmem⟩
    cases hp.symm.trans hq
    simp [hseals] at hmem
  have hkeep : ∀ t : Tree η δ, w.sealedAt t.superblock = some t → w'.sealedAt t.superblock = some t := by
    intro t ht
    have hne : t.superblock ≠ tree.superblock := by
      have := hlt t.superblock (by simp [ht])
      omega
    rw [hsealed, Function.update_of_ne hne, ht]
  have hnew : w'.sealedAt tree.superblock = some tree := by rw [hsealed, Function.update_self]
  refine ⟨fun d t hd => ?_, fun q hq d t hmem => ?_, fun s hs => ?_⟩
  · rcases harchives d t hd with hold | ⟨rfl, rfl⟩
    · exact (hw.archives d t hold).imp_right (hkeep t)
    · exact ⟨rfl, hnew⟩
  · cases hp'.symm.trans hq
    rcases hsnapshots d t hmem with hold | ⟨rfl, rfl⟩
    · exact (hw.snapshots p hp d t hold).imp_right (hkeep t)
    · exact ⟨rfl, hnew⟩
  · by_cases heq : s = tree.superblock
    · exact .inr ⟨p', hp', by simp [hseals', heq]⟩
    · rw [hsealed, Function.update_of_ne heq] at hs
      exact .inl (hledger ▸ hlt s hs)

variable [DecidableEq η] [DecidableEq δ] [Inhabited η]

theorem Archived.step (hw : w.Archived) (hpaced : w.Paced) (hok : SealsSettled env w action)
    (h : w.step env action = some w') : w'.Archived := by
  rcases step_cases h with ⟨hp, -, rfl⟩ | ⟨hp, tree, rfl⟩ | ⟨p, hp, h⟩
  · exact hw.openDisk hp
  · exact { hw with }
  cases h with
  | goLive =>
    refine hw.of_same hp rfl rfl rfl rfl ?_ ?_
    all_goals
      dsimp only [NodeProcess.goLive]
      split
    · rfl
    · rfl
    · rfl
    · exact NodeProcess.seals_send _ nofun
  | submit t =>
    rcases p.submit_cases t with ⟨e, -, heq⟩ | ⟨-, heq⟩
    all_goals rw [heq]
    · exact hw.of_same hp rfl rfl rfl rfl rfl rfl
    · exact hw.of_same hp rfl rfl rfl rfl rfl (p.seals_send nofun)
  | execute index p' hp' =>
    obtain ⟨keeper, pending, uncounted, rfl, -⟩ := NodeProcess.execute_eq_some hp'
    exact hw.of_same hp rfl rfl rfl rfl rfl rfl
  | count | updateSysvars | setSlot | beginSeal | flushSeal => exact hw.of_same hp rfl rfl rfl rfl rfl rfl
  | sendBlock | checkpoint | reset | sync | shutdown =>
    exact hw.of_same hp rfl rfl rfl rfl rfl (p.seals_send nofun)
  | sendSeal hphase =>
    obtain ⟨hseals, hhead⟩ := hpaced.sealFlushed hp hphase
    refine hw.record hp rfl p.snapshot hseals hhead rfl rfl ?_ (fun d t hd => .inl hd) fun d t hmem => ?_
    · change (p.send (.superblock p.keeper.sealed)).seals = _
      rw [NodeProcess.seals_send_superblock, hseals]
      rfl
    · simpa [NodeProcess.snapshot] using hmem
  | stageSnapshot tree hguard =>
    have hseals : p.seals = [] := by simp [NodeProcess.seals, hguard.2.2.1]
    refine hw.record hp rfl tree hseals hguard.2.2.2 rfl rfl ?_ (fun d t hd => ?_) fun d t hmem => .inl hmem
    · rw [NodeProcess.seals_send_superblock, hseals]
      rfl
    · by_cases heq : d = tree.superblock + 1
      · subst heq
        cases (Function.update_self ..).symm.trans hd
        exact .inr ⟨rfl, rfl⟩
      · exact .inl ((Function.update_of_ne heq ..).symm.trans hd)
  | append event queue hqueue => exact hw.append hpaced hp hqueue
  | archive index id tree hindex =>
    refine ⟨fun d tree' hd => ?_, fun q hq d tree' hmem => ?_, fun s hs => ?_⟩
    · by_cases heq : d = id
      · subst heq
        cases (Function.update_self ..).symm.trans hd
        exact hw.snapshots p hp d tree (List.mem_of_getElem? hindex)
      · exact hw.archives d tree' ((Function.update_of_ne heq ..).symm.trans hd)
    · cases hq
      exact hw.snapshots p hp d tree' (List.mem_of_mem_eraseIdx hmem)
    · refine (hw.sent s hs).imp_right ?_
      rintro ⟨q, hq, hmem⟩
      cases hp.symm.trans hq
      exact ⟨_, rfl, hmem⟩
  | stop hguard => exact hw.of_stopped hp (by simp [NodeProcess.seals, hguard.2]) rfl rfl rfl rfl
  | crash => exact hw.of_stopped hp (hok p hp) rfl rfl rfl rfl
  | crashAppending stores event hevent =>
    refine hw.of_stopped hp (hok p hp) rfl rfl rfl (w.disk.ledger.head_appendCut p.buffer stores fun s hs => ?_)
    obtain ⟨queue, hqueue⟩ := List.head?_eq_some_iff.mp hevent
    have hseals := hok p hp
    simp [NodeProcess.seals, hqueue, hs, LedgerEvent.sealId] at hseals

theorem archived_of_reachable {checksum : δ} (h : ReachableIf env checksum (SealsSettled env) w) :
    w.Paced ∧ w.Archived :=
  @Transition.invariant _ _ (fun w => w.Paced ∧ w.Archived)
    (fun _ _ hw ⟨_, hok, hstep⟩ => ⟨hw.1.step hstep, hw.2.step hw.1 hok hstep⟩) _ _
    ⟨paced_initial checksum, fun _ _ h => (by cases h), fun _ h => (by cases h), fun _ h => absurd rfl h⟩ h

/-- In every run that meets the condition, a start that replays anything replays the superblocks behind a seal onto the
state of that seal. -/
theorem replay_onto_sealed {checksum : δ} {k : Keeper η δ} {entries : List (BlockstoreEntry η δ)}
    (h : ReachableIf env checksum (SealsSettled env) w) (hok : SealsSettled env w .openDisk)
    (hbase : env.replayBase w.disk = some (k, entries)) :
    ∃ sealed, w.sealedAt k.tree.superblock = some sealed ∧ k.accounts = sealed.allAccounts ∧
      k.tree.slot = sealed.slot ∧ k.tree.transactions = sealed.transactions ∧
      entries = w.disk.ledger.entriesAfter k.tree.superblock := by
  obtain ⟨-, harchived⟩ := archived_of_reachable h
  unfold NodeEnv.replayBase at hbase
  split at hbase
  · cases hbase
  next active opened hopen =>
  split at hbase
  · cases hbase
  next tree k₀ hbuild =>
  obtain ⟨stream, hreplay, hk⟩ := Option.map_eq_some_iff.mp hbase
  cases hk
  obtain ⟨hbehind, hentries⟩ := Keeper.replay_eq_some hreplay
  obtain ⟨hslot, hsuperblock, htransactions⟩ := NodeEnv.header_build hbuild
  unfold NodeEnv.accountsdb at hopen
  split at hopen
  · -- an accepted tree has nothing to replay
    next hcurrent =>
    cases hopen
    have htip := hok.1 hcurrent
    simp only [Tree.current, Bool.and_eq_true, decide_eq_true_eq] at hcurrent
    exact absurd ⟨hslot ▸ htip, htransactions ▸ hcurrent.2⟩ hbehind
  · unfold NodeEnv.restore at hopen
    split at hopen
    · cases hopen
    next archive hnewest =>
    split at hopen <;> cases hopen
    obtain ⟨d, hd⟩ := NodeLedger.newestArchive_eq_some hnewest
    obtain ⟨-, hsealed⟩ := harchived.archives d _ hd
    obtain ⟨hstate, -⟩ := NodeEnv.state_build (hok.2 _ hnewest) hbuild
    exact ⟨_, hsuperblock ▸ hsealed, Tree.accounts_of_state hstate, hslot, htransactions, hentries⟩

/-! ### Scenarios -/

/-- What the leader would replay onto: the tally it finds, the tally of the seal, and whether a given transaction is in
the stream. -/
structure ReplayedTally where
  found : Option UInt64
  sealed : Option UInt64
  streamed : Bool
deriving DecidableEq, Repr

def replayedTally (t : LedgerTransaction FreeHash) (w : Node FreeHash FreeChecksum) : Option ReplayedTally :=
  match leaderEnv.replayBase w.disk with
  | none => none
  | some (k, entries) =>
    (w.sealedAt k.tree.superblock).map fun sealed =>
      { found := (k.accounts tallyId).map (·.core.lamports)
        sealed := (sealed.allAccounts tallyId).map (·.core.lamports)
        streamed := decide (.transaction t ∈ entries) }

def firstTransfer : LedgerTransaction FreeHash := transferAt (.block .genesis []) default

open NodeAction in
/-- A seal, its archive, a transaction, and a crash that leaves the tree unflushed: the transaction is replayed onto the
sealed state. -/
theorem replay_onto_archive :
    ∃ w k entries sealed, ReachableIf leaderEnv ⟨0, 0, []⟩ (SealsSettled leaderEnv) w ∧
      leaderEnv.replayBase w.disk = some (k, entries) ∧ .transaction firstTransfer ∈ entries ∧
      w.sealedAt k.tree.superblock = some sealed ∧ k.accounts = sealed.allAccounts := by
  have hrun : (runIf leaderEnv (SealsSettled leaderEnv)
      [started, finalized, sealSent, [.append, .archive 0], executed firstTransfer, [.sync, .append, .crash]].flatten
      leaderStart).bind (fun w => if SealsSettled leaderEnv w .openDisk then replayedTally firstTransfer w else none) =
        some ⟨none, none, true⟩ := by
    decide +kernel
  obtain ⟨w, hw, htally⟩ := Option.bind_eq_some_iff.mp hrun
  have hreachable := reachableIf_of_runIf .refl hw
  split at htally
  · next hok =>
    unfold replayedTally at htally
    split at htally
    · cases htally
    next k entries hbase =>
    obtain ⟨sealed, hsealed, heq⟩ := Option.map_eq_some_iff.mp htally
    obtain ⟨sealed', hsealed', haccounts, -⟩ := replay_onto_sealed hreachable hok hbase
    exact ⟨w, k, entries, sealed', hreachable, hbase, by simpa using congrArg (·.streamed) heq, hsealed', haccounts⟩
  · cases htally

open NodeAction in
/-- Two runs after which a start replays onto a state other than the sealed one. A tree that was flushed at a
coordinated shutdown in the middle of a superblock, when the next process crashes between publishing a block and
setting the slot: the transaction is replayed a second time. An archive whose seal a crash kept from the ledger, when
the superblock is sealed again and the new snapshot is not archived yet: the transaction is lost. -/
theorem replay_onto_other_state :
    (∃ w, Reachable leaderEnv ⟨0, 0, []⟩ w ∧ w.process.isNone ∧
      replayedTally firstTransfer w = some ⟨some 1, none, true⟩) ∧
    ∃ w, Reachable leaderEnv ⟨0, 0, []⟩ w ∧ w.process.isNone ∧
      replayedTally firstTransfer w = some ⟨none, some 1, false⟩ := by
  have hrun : ∀ actions result,
      (run leaderEnv actions leaderStart).map (fun w => (w.process.isNone, replayedTally firstTransfer w)) =
        some (true, some result) →
      ∃ w, Reachable leaderEnv ⟨0, 0, []⟩ w ∧ w.process.isNone ∧ replayedTally firstTransfer w = some result := by
    intro actions result h
    obtain ⟨w, hw, heq⟩ := Option.map_eq_some_iff.mp h
    exact ⟨w, reachableIf_of_runIf .refl hw, congrArg Prod.fst heq, congrArg Prod.snd heq⟩
  constructor
  · refine hrun [started, finalized, sealSent, [.append, .archive 0], executed firstTransfer, finalized, stopped, started,
      [.sendBlock 0 false, .append, .crash]].flatten _ ?_
    decide +kernel
  · refine hrun [started, finalized, sealSent, [.archive 0, .crash], started, executed firstTransfer, finalized,
      sealSent, [.append], executed (transferAt (.block (.block .genesis []) [default]) ⟨1 <<< 384⟩),
      [.sync, .append, .crash]].flatten _ ?_
    decide +kernel

end Node

end MagicEngine
