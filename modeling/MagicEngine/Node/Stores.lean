import MagicEngine.Node.Stream

/-!
# The stores behind the ledger of a node

The ledger of a node is what the headers and files of `LedgerState` say about the retained superblocks. Between two
events the appender of the node works on the same state as the appender of the ledger (`Works`); in the middle of an
event their disks still agree (`Shows`), and this is all that a crash leaves of the one and of the other. So the node
handles an event as the ledger does (`Works.append`), and every cut of an event is a state in which the ledger is opened
again (`Works.appendCut`).
-/

namespace MagicEngine

variable {η δ : Type}

namespace LedgerState

def files (w : LedgerState η δ) (id : Nat) : SuperblockFiles η δ := (w.dirs id).getD {}

/-- The header and the files of the retained superblocks. -/
structure Shows (w : LedgerState η δ) (ledger : NodeLedger η δ) : Prop where
  head : ledger.head = w.header.head
  oldest : ledger.oldest + w.header.superblocks = w.header.head + 1
  superblocks : 1 ≤ w.header.superblocks
  transactions : ledger.transactions = w.header.transactions
  files : ∀ id, ledger.oldest ≤ id →
    ledger.entries id = (w.files id).blockstore ∧ ledger.last id = (w.files id).range.last

/-- The appender writes to the head, and the map has the retained superblocks. -/
structure Works (w : LedgerState η δ) (a : NodeAppender η δ) : Prop where
  shows : w.Shows a.ledger
  writer : w.writer = w.header.head
  opened : (w.dirs w.header.head).isSome
  buffer : a.buffer = w.buffer
  uncounted : a.transactions = w.transactions
  kept : a.victim = none ∧ w.victim = none
  map : w.superblocks = Finset.Icc a.ledger.oldest w.header.head

theorem works_initial : (initial : LedgerState η δ).Works (({ entries := fun _ => [] } : NodeLedger η δ).appender []) where
  shows := by
    refine ⟨rfl, rfl, le_rfl, rfl, fun id _ => ?_⟩
    by_cases hid : id = 1
    · simp [files, initial, NodeLedger.appender, hid]
    · simp [files, initial, NodeLedger.appender, hid]
  writer := rfl
  opened := rfl
  buffer := rfl
  uncounted := rfl
  kept := ⟨rfl, rfl⟩
  map := by simp [initial, NodeLedger.appender]

variable {w : LedgerState η δ} {a : NodeAppender η δ} {ledger : NodeLedger η δ}

/-- Opening the ledger again makes an appender for what the disk shows. -/
theorem Shows.reopen (h : w.Shows ledger) : w.reopen.Works (ledger.appender []) := by
  have hhead := h.head
  have holdest := h.oldest
  have hcount := h.superblocks
  have hretained : w.header.retained = Finset.Icc ledger.oldest w.header.head := by
    ext id
    rw [LedgerMeta.retained, Finset.mem_Ico, Finset.mem_Icc]
    omega
  have hfiles : ∀ id, w.reopen.files id = w.files id := by
    intro id
    simp only [LedgerState.files, LedgerState.reopen]
    split <;> simp
  refine ⟨⟨hhead, holdest, hcount, h.transactions, fun id hid => ?_⟩, rfl, ?_, rfl, rfl, ⟨rfl, rfl⟩, hretained⟩
  · rw [hfiles]
    exact h.files id hid
  · have hmem : w.header.head ∈ w.header.retained := by
      rw [hretained, Finset.mem_Icc]
      omega
    simp [LedgerState.reopen, hmem]

/-! ### Stores before a truncation or a rotation -/

end LedgerState

/-- Neither the head nor the number of superblocks changes. -/
def LedgerOp.isSteady : LedgerOp η δ → Bool
  | .write _ | .storeCursor | .storeSegmentEnd _ | .storeSegmentStart _ | .addTransactions | .addBlock | .storeRangeEnd _
  | .adoptTransactions _ => true
  | _ => false

namespace LedgerState

variable {w : LedgerState η δ} {a : NodeAppender η δ}

private theorem files_modify {f : SuperblockFiles η δ → SuperblockFiles η δ} (h : (w.dirs w.writer).isSome) (id : Nat) :
    (w.modify w.writer f).files id = if id = w.writer then f (w.files id) else w.files id := by
  obtain ⟨d, hd⟩ := Option.isSome_iff_exists.mp h
  simp only [files, modify, Function.update_apply]
  split
  · next heq => rw [heq, hd]; rfl
  · rfl

/-- A store to the files of the head that the ledger of the node follows. -/
private theorem Works.modify (h : w.Works a) {f : SuperblockFiles η δ → SuperblockFiles η δ} {a' : NodeAppender η δ}
    {buffer : List (BlockstoreEntry η δ)} (hhead : a'.ledger.head = a.ledger.head)
    (holdest : a'.ledger.oldest = a.ledger.oldest) (hcount : a'.ledger.transactions = a.ledger.transactions)
    (hbuffer : a'.buffer = buffer) (huncounted : a'.transactions = a.transactions) (hvictim : a'.victim = a.victim)
    (hsame : ∀ id ≠ w.header.head,
      a'.ledger.entries id = a.ledger.entries id ∧ a'.ledger.last id = a.ledger.last id)
    (hfiles : a'.ledger.entries w.header.head = (f (w.files w.header.head)).blockstore ∧
      a'.ledger.last w.header.head = (f (w.files w.header.head)).range.last) :
    Works { w.modify w.writer f with buffer } a' := by
  have hopened : (w.dirs w.writer).isSome := h.writer ▸ h.opened
  refine ⟨⟨hhead.trans h.shows.head, holdest ▸ h.shows.oldest, h.shows.superblocks, hcount.trans h.shows.transactions,
    fun id hid => ?_⟩, h.writer, ?_, hbuffer, huncounted.trans h.uncounted, ⟨hvictim.trans h.kept.1, h.kept.2⟩,
    holdest ▸ h.map⟩
  · change _ = ((w.modify w.writer f).files id).blockstore ∧ _ = ((w.modify w.writer f).files id).range.last
    rw [files_modify hopened, h.writer]
    split
    · next heq =>
      rw [heq]
      exact hfiles
    · next hne =>
      rw [(hsame id hne).1, (hsame id hne).2]
      exact h.shows.files id (holdest ▸ hid)
  · simpa [LedgerState.modify, h.writer] using h.opened

theorem Works.store (h : w.Works a) {op : LedgerOp η δ} (hop : op.isSteady) : (w.exec op).Works (a.exec op) := by
  have hhead := h.shows.head
  have hmem : a.ledger.oldest ≤ w.header.head := by
    have := h.shows.oldest
    have := h.shows.superblocks
    omega
  obtain ⟨hentries, hlast⟩ := h.shows.files w.header.head hmem
  have hne : ∀ {β : Type} (f : Nat → β) (x : β) (id : Nat), id ≠ w.header.head →
      Function.update f a.ledger.head x id = f id := fun f x id hid => Function.update_of_ne (hhead ▸ hid) ..
  cases op with
  | write entry =>
    refine ⟨{ h.shows with }, h.writer, h.opened, congrArg (· ++ [entry]) h.buffer, ?_, h.kept, h.map⟩
    have huncounted := h.uncounted
    cases entry <;> simp [NodeAppender.exec, LedgerState.exec, BlockstoreEntry.isTransaction, huncounted]
  | storeCursor =>
    refine h.modify rfl rfl rfl rfl rfl rfl (fun id hid => ⟨hne _ _ id hid, rfl⟩) ⟨?_, hlast⟩
    simp only [NodeAppender.exec, ← hhead, Function.update_self]
    rw [hhead, hentries, h.buffer]
  | storeSegmentEnd slot =>
    refine h.modify rfl rfl rfl h.buffer rfl rfl (fun id hid => ⟨rfl, hne _ _ id hid⟩) ⟨hentries, ?_⟩
    simp only [NodeAppender.exec, ← hhead, Function.update_self]
  | storeSegmentStart slot =>
    refine h.modify rfl rfl rfl h.buffer rfl rfl (fun id _ => ⟨rfl, rfl⟩) ?_
    split
    · exact ⟨hentries, hlast⟩
    · exact ⟨hentries, hlast⟩
  | addTransactions =>
    have hcount : a.ledger.transactions + a.transactions = w.header.transactions + w.transactions := by
      rw [h.shows.transactions, h.uncounted]
    exact { h with shows := { h.shows with transactions := hcount }, uncounted := rfl }
  | adoptTransactions count => exact { h with shows := { h.shows with transactions := rfl } }
  | addBlock | storeRangeEnd => exact { h with shows := { h.shows with } }
  | _ => cases hop

theorem Works.foldl {ops : List (LedgerOp η δ)} (h : w.Works a) (hops : ∀ op ∈ ops, op.isSteady) :
    (ops.foldl exec w).Works (ops.foldl NodeAppender.exec a) := by
  induction ops generalizing w a with
  | nil => exact h
  | cons op ops ih =>
    exact ih (h.store (hops op List.mem_cons_self)) fun op' hop' => hops op' (List.mem_cons_of_mem op hop')

/-! ### Truncation and rotation -/

/-- The oldest superblock leaves the header; its files stay until they are removed. -/
private theorem Shows.drop {ledger : NodeLedger η δ} (h : w.Shows ledger) (hone : ledger.oldest < w.header.head)
    (w' : LedgerState η δ) (hhead : w'.header.head = w.header.head)
    (hcount : w'.header.superblocks = w.header.superblocks - 1)
    (htransactions : w'.header.transactions = w.header.transactions) (hdirs : w'.dirs = w.dirs) :
    w'.Shows { ledger with oldest := ledger.oldest + 1 } := by
  have holdest := h.oldest
  refine ⟨h.head.trans hhead.symm, ?_, ?_, h.transactions.trans htransactions.symm, fun id hid => ?_⟩
  · rw [hcount, hhead]
    dsimp only
    omega
  · omega
  · simp only [LedgerState.files, hdirs]
    exact h.files id (Nat.le_of_succ_le hid)

theorem Works.oldest_superblocks (h : w.Works a) : LedgerState.oldest w.superblocks = some a.ledger.oldest := by
  have holdest := h.shows.oldest
  have hcount := h.shows.superblocks
  rw [h.map, oldest_Icc (by omega)]

/-- The only superblock is the head, which is never dropped. -/
private theorem truncate_single (h : w.Works a) (hone : ¬ a.ledger.oldest < w.header.head) (n : Nat) :
    (LedgerOp.truncate.take n).foldl LedgerState.exec w = w ∧
      (LedgerOp.truncate.take n).foldl NodeAppender.exec a = a := by
  have hge : ¬ a.ledger.oldest < a.ledger.head := h.shows.head ▸ hone
  have hmin := h.oldest_superblocks
  rcases n with _ | _ | _ | _ | n
  all_goals
    simp [LedgerOp.truncate, LedgerState.exec, NodeAppender.exec, hmin, hge, Nat.le_of_not_lt hone, h.kept]

theorem Works.truncate (h : w.Works a) :
    (LedgerOp.truncate.foldl exec w).Works (LedgerOp.truncate.foldl NodeAppender.exec a) ∧
      ∀ n, ((LedgerOp.truncate.take n).foldl exec w).Shows ((LedgerOp.truncate.take n).foldl NodeAppender.exec a).ledger := by
  have hhead := h.shows.head
  have hmin := h.oldest_superblocks
  by_cases hone : a.ledger.oldest < w.header.head
  · have hshows := h.shows.drop hone
    have hpop : w.exec .popOldest =
        { w with superblocks := w.superblocks.erase a.ledger.oldest, victim := some a.ledger.oldest } := by
      simp only [LedgerState.exec, hmin, if_neg (Nat.not_le.mpr hone)]
    have hpop' : a.exec .popOldest = { a with victim := some a.ledger.oldest } := by
      simp only [NodeAppender.exec, if_pos (hhead ▸ hone)]
    refine ⟨?_, fun n => ?_⟩
    · simp only [LedgerOp.truncate, List.foldl_cons, List.foldl_nil, hpop, hpop']
      refine ⟨hshows _ rfl rfl rfl rfl, h.writer, h.opened, h.buffer, h.uncounted, ⟨rfl, rfl⟩, ?_⟩
      change w.superblocks.erase a.ledger.oldest = Finset.Icc (a.ledger.oldest + 1) w.header.head
      ext id
      simp only [h.map, Finset.mem_erase, Finset.mem_Icc]
      omega
    · rcases n with _ | _ | n
      · exact h.shows
      · simp only [LedgerOp.truncate, List.take_succ_cons, List.take_zero, List.foldl_cons, List.foldl_nil, hpop, hpop']
        exact { h.shows with }
      · rcases n with _ | _ | n
        all_goals
          simp only [LedgerOp.truncate, List.take_succ_cons, List.take_nil, List.take_zero, List.foldl_cons,
            List.foldl_nil, hpop, hpop']
          exact hshows _ rfl rfl rfl rfl
  · have hstill := truncate_single h hone
    refine ⟨?_, fun n => ?_⟩
    · -- all four stores
      have hall := hstill 4
      change LedgerOp.truncate.foldl exec w = w ∧ LedgerOp.truncate.foldl NodeAppender.exec a = a at hall
      rw [hall.1, hall.2]
      exact h
    · rw [(hstill n).1, (hstill n).2]
      exact h.shows

/-- The directory of the successor gets a checksum and a count, and keeps its entries and its range. -/
private theorem files_openSuccessor (w : LedgerState η δ) (s : SuperblockSeal δ) (id : Nat) :
    ((w.exec (.openSuccessor s)).files id).blockstore = (w.files id).blockstore ∧
      ((w.exec (.openSuccessor s)).files id).range = (w.files id).range := by
  simp only [LedgerState.exec, files, Function.update_apply]
  split
  · next heq =>
    rw [heq]
    exact ⟨rfl, rfl⟩
  · exact ⟨rfl, rfl⟩

theorem Works.rotate (h : w.Works a) {s : SuperblockSeal δ} (hs : s.id = w.header.head) :
    ((LedgerOp.rotate s).foldl exec w).Works ((LedgerOp.rotate s).foldl NodeAppender.exec a) ∧
      ∀ n, (((LedgerOp.rotate s).take n).foldl exec w).Shows
        (((LedgerOp.rotate s).take n).foldl NodeAppender.exec a).ledger := by
  have hhead := h.shows.head
  have holdest := h.shows.oldest
  have hcount := h.shows.superblocks
  have hshows : ∀ (w' : LedgerState η δ) (ledger : NodeLedger η δ), w'.dirs = (w.exec (.openSuccessor s)).dirs →
      w'.header.transactions = w.header.transactions → ledger.entries = a.ledger.entries →
      ledger.last = a.ledger.last → ledger.transactions = a.ledger.transactions → ledger.head = w'.header.head →
      ledger.oldest + w'.header.superblocks = w'.header.head + 1 → 1 ≤ w'.header.superblocks →
      a.ledger.oldest ≤ ledger.oldest → w'.Shows ledger := by
    intro w' ledger hdirs htransactions hentries hlast hcount' hhead' holdest' hpos hle
    refine ⟨hhead', holdest', hpos, ?_, fun id hid => ?_⟩
    · rw [hcount', htransactions, h.shows.transactions]
    · have hsame : w'.files id = (w.exec (.openSuccessor s)).files id := by simp only [files, hdirs]
      rw [hentries, hlast, hsame, (files_openSuccessor w s id).1, (files_openSuccessor w s id).2]
      exact h.shows.files id (hle.trans hid)
  refine ⟨⟨?_, rfl, ?_, h.buffer, h.uncounted, h.kept, ?_⟩, fun n => ?_⟩
  · refine hshows _ _ rfl rfl rfl rfl rfl rfl ?_ ?_ ?_
    all_goals simp only [LedgerOp.rotate, List.foldl_cons, List.foldl_nil, LedgerState.exec, NodeAppender.exec]
    all_goals omega
  · simp [LedgerOp.rotate, LedgerState.exec]
  · ext id
    simp only [LedgerOp.rotate, List.foldl_cons, List.foldl_nil, LedgerState.exec, NodeAppender.exec, h.map,
      Finset.mem_insert, Finset.mem_Icc]
    omega
  · rcases n with _ | _ | _ | _ | _ | n
    · exact h.shows
    all_goals
      simp only [LedgerOp.rotate, List.take_succ_cons, List.take_nil, List.take_zero, List.foldl_cons, List.foldl_nil]
      refine hshows _ _ rfl rfl rfl rfl rfl ?_ ?_ ?_ ?_
    all_goals simp only [LedgerState.exec, NodeAppender.exec]
    all_goals omega

/-! ### Events -/

private theorem ops_split (event : LedgerEvent η δ) : ∃ steady rest : List (LedgerOp η δ), event.ops = steady ++ rest ∧
    (∀ op ∈ steady, op.isSteady) ∧
    (rest = [] ∨ rest = LedgerOp.truncate ∨ ∃ s, event = .superblock s ∧ rest = LedgerOp.rotate s) := by
  cases event with
  | block b sizeExceeded =>
    simp only [LedgerEvent.ops]
    split
    · exact ⟨.write (.block b) :: LedgerOp.publish (some b.slot) ++ LedgerOp.publish none, LedgerOp.truncate, rfl,
        by simp [LedgerOp.publish, LedgerOp.isSteady], .inr (.inl rfl)⟩
    · exact ⟨.write (.block b) :: LedgerOp.publish (some b.slot), [], rfl,
        by simp [LedgerOp.publish, LedgerOp.isSteady], .inl rfl⟩
  | superblock s =>
    exact ⟨.write (.superblock s) :: LedgerOp.publish none ++ [.adoptTransactions s.transactions], LedgerOp.rotate s, rfl,
      by simp [LedgerOp.publish, LedgerOp.isSteady], .inr (.inr ⟨s, rfl, rfl⟩)⟩
  | transaction | reset | checkpoint | sync =>
    exact ⟨_, [], (List.append_nil _).symm, by simp [LedgerEvent.ops, LedgerOp.publish, LedgerOp.isSteady], .inl rfl⟩

private theorem header_head_foldl {ops : List (LedgerOp η δ)} (hops : ∀ op ∈ ops, op.isSteady) :
    (ops.foldl exec w).header.head = w.header.head := by
  induction ops generalizing w with
  | nil => rfl
  | cons op ops ih =>
    rw [List.foldl_cons, ih fun op' hop' => hops op' (List.mem_cons_of_mem op hop')]
    have hop := hops op List.mem_cons_self
    cases op <;> first | rfl | cases hop

private theorem works_event (h : w.Works a) (event : LedgerEvent η δ)
    (hseal : ∀ s, event = .superblock s → s.id = w.header.head) :
    (event.ops.foldl exec w).Works (event.ops.foldl NodeAppender.exec a) ∧
      ∀ n, ((event.ops.take n).foldl exec w).Shows ((event.ops.take n).foldl NodeAppender.exec a).ledger := by
  obtain ⟨steady, rest, hops, hsteady, hrest⟩ := ops_split event
  have hfront := h.foldl hsteady
  -- What follows starts from a state in which the appender works.
  have htail : (rest.foldl exec (steady.foldl exec w)).Works
        (rest.foldl NodeAppender.exec (steady.foldl NodeAppender.exec a)) ∧
      ∀ n, ((rest.take n).foldl exec (steady.foldl exec w)).Shows
        ((rest.take n).foldl NodeAppender.exec (steady.foldl NodeAppender.exec a)).ledger := by
    rcases hrest with rfl | rfl | ⟨s, hs, rfl⟩
    · exact ⟨hfront, fun n => by simpa using hfront.shows⟩
    · exact hfront.truncate
    · exact hfront.rotate ((hseal s hs).trans (header_head_foldl hsteady).symm)
  rw [hops]
  refine ⟨by simpa [List.foldl_append] using htail.1, fun n => ?_⟩
  rw [List.take_append, List.foldl_append, List.foldl_append]
  by_cases hn : n ≤ steady.length
  · rw [Nat.sub_eq_zero_of_le hn, List.take_zero]
    exact (h.foldl fun op hop => hsteady op (List.mem_of_mem_take hop)).shows
  · rw [List.take_of_length_le (Nat.le_of_not_le hn)]
    exact htail.2 _

variable {ledger : NodeLedger η δ} {buffer : List (BlockstoreEntry η δ)} {event : LedgerEvent η δ}

/-- The node handles an event as the ledger does. -/
theorem Works.append (h : w.Works (ledger.appender buffer)) (hseal : ∀ s, event = .superblock s → s.id = w.header.head) :
    (event.ops.foldl exec w).Works (event.ops.foldl NodeAppender.exec (ledger.appender buffer)) ∧
      (ledger.append buffer event).1 = (event.ops.foldl NodeAppender.exec (ledger.appender buffer)).ledger :=
  ⟨(works_event h event hseal).1, rfl⟩

/-- Whatever store of an event a crash follows, the ledger that is opened again is the one of the node. -/
theorem Works.appendCut (h : w.Works (ledger.appender buffer)) (stores : Nat)
    (hseal : ∀ s, event = .superblock s → s.id = w.header.head) :
    ((event.ops.take stores).foldl exec w).reopen.Works ((ledger.appendCut buffer stores event).appender []) :=
  ((works_event h event hseal).2 stores).reopen

end LedgerState

end MagicEngine
