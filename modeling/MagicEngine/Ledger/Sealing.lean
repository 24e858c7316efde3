import MagicEngine.Ledger.Appender

/-!
# Sealing a superblock

A seal is written into the active superblock and published there; the successor directory and the new head follow
in later stores. A superblock seal therefore ends its superblock, and the head holds none, unless the process
crashes after the seal is published and before the head moves: reopening then goes on appending behind the seal.

The invariant follows the appender through its event. Outside a seal no store touches the head or writes a seal; a
seal goes through writing, publication and the move of the head.
-/

namespace MagicEngine

variable {η δ : Type}

def NoSeal (entries : List (BlockstoreEntry η δ)) : Prop := ∀ s, .superblock s ∉ entries

/-- A seal stands only at the end of the entries, and at most once. -/
def SealEnds (entries : List (BlockstoreEntry η δ)) : Prop :=
  ∀ before s after, entries = before ++ .superblock s :: after → after = [] ∧ NoSeal before

private theorem NoSeal.nil : NoSeal ([] : List (BlockstoreEntry η δ)) := fun _ => List.not_mem_nil

variable {l : List (BlockstoreEntry η δ)}

private theorem NoSeal.append {r : List (BlockstoreEntry η δ)} (hl : NoSeal l) (hr : NoSeal r) : NoSeal (l ++ r) :=
  fun s hs => (List.mem_append.mp hs).elim (hl s) (hr s)

private theorem NoSeal.sealEnds (hl : NoSeal l) : SealEnds l := by
  rintro before s after rfl
  exact (hl s (by simp)).elim

private theorem NoSeal.sealEnds_concat (hl : NoSeal l) (s : SuperblockSeal δ) :
    SealEnds (l ++ [.superblock s]) := by
  intro before s' after heq
  rcases List.append_eq_append_iff.mp heq with ⟨mid, hbefore, hmid⟩ | ⟨mid, hl', hmid⟩
  · cases mid with
    | nil =>
      obtain ⟨-, rfl⟩ : _ ∧ after = [] := by simpa [eq_comm] using hmid
      refine ⟨rfl, ?_⟩
      simpa [hbefore] using hl
    | cons e rest => simp at hmid
  · cases mid with
    | nil =>
      obtain ⟨-, rfl⟩ : _ ∧ after = [] := by simpa using hmid
      refine ⟨rfl, ?_⟩
      rw [hl'] at hl
      simpa using hl
    | cons e rest =>
      obtain ⟨rfl, -⟩ : .superblock s' = e ∧ _ := by simpa using hmid
      exact (hl s' (by simp [hl'])).elim

/-- Stores that no seal makes on its own: they leave the head where it is and write no seal. -/
def LedgerOp.Plain : LedgerOp η δ → Prop
  | .write (.superblock _) | .openSuccessor _ | .insertSuperblock _ | .storeHead _ | .addSuperblock
  | .switchWriter _ => False
  | _ => True

def LedgerOp.isStoreHead : LedgerOp η δ → Bool
  | .storeHead _ => true
  | _ => false

namespace LedgerState

def HeadOpen (w : LedgerState η δ) : Prop := ∀ d, w.dirs w.header.head = some d → NoSeal d.blockstore

/-- What holds after every store: seals end their superblock, and directories past the head are empty. -/
structure Layout (w : LedgerState η δ) : Prop where
  sealEnds : ∀ id d, w.dirs id = some d → SealEnds d.blockstore
  beyond : ∀ id d, w.header.head < id → w.dirs id = some d → d.blockstore = []

/-- The state between events and along every event that is no seal. -/
structure Appending (w : LedgerState η δ) : Prop extends Layout w where
  buffer : NoSeal w.buffer
  writer : w.writer = w.header.head
  headOpen : w.HeadOpen

inductive Phase (w : LedgerState η δ) : Prop
  | plain (h : w.Appending) (htodo : ∀ op ∈ w.todo, op.Plain)
  | writing (h : w.Appending) (s : SuperblockSeal δ) (hid : w.header.head ≤ s.id)
      (htodo : w.todo = (LedgerEvent.superblock s).ops)
  | written (h : w.Layout) (hopen : w.HeadOpen) (hwriter : w.writer = w.header.head) (s : SuperblockSeal δ)
      (hid : w.header.head ≤ s.id) (before : List (BlockstoreEntry η δ)) (hbefore : NoSeal before)
      (hbuffer : w.buffer = before ++ [.superblock s])
      (htodo : w.todo = .storeCursor :: .addTransactions :: .adoptTransactions s.transactions :: LedgerOp.rotate s)
  | published (h : w.Layout) (hbuffer : w.buffer = []) (s : SuperblockSeal δ) (hid : w.header.head ≤ s.id)
      (htodo : w.todo = .addTransactions :: .adoptTransactions s.transactions :: LedgerOp.rotate s ∨
        w.todo = .adoptTransactions s.transactions :: LedgerOp.rotate s ∨ w.todo = LedgerOp.rotate s ∨
        w.todo = (LedgerOp.rotate s).drop 1 ∨ w.todo = (LedgerOp.rotate s).drop 2)
  | moved (h : w.Layout) (hopen : w.HeadOpen) (hbuffer : w.buffer = [])
      (htodo : w.todo = [.addSuperblock, .switchWriter w.header.head] ∨ w.todo = [.switchWriter w.header.head])

/-- A seal is published and the head has not moved past it yet. -/
def SealPending (w : LedgerState η δ) : Prop := (∃ op ∈ w.todo, op.isStoreHead) ∧ .storeCursor ∉ w.todo

/-- Seals name the active head or a later superblock, and the process does not crash between the publication of a
seal and the move of the head. -/
def SealSafe (w : LedgerState η δ) : LedgerAction η δ → Prop
  | .event (.superblock sealed) => w.header.head ≤ sealed.id
  | .crash => ¬ w.SealPending
  | _ => True

instance [DecidableEq η] [DecidableEq δ] (w : LedgerState η δ) : Decidable w.SealPending :=
  inferInstanceAs (Decidable (_ ∧ _))

instance [DecidableEq η] [DecidableEq δ] (w : LedgerState η δ) : DecidablePred w.SealSafe
  | .event (.superblock sealed) => inferInstanceAs (Decidable (w.header.head ≤ sealed.id))
  | .crash => inferInstanceAs (Decidable (¬ w.SealPending))
  | .event (.transaction _) | .event (.block _ _) | .event (.reset _) | .event (.checkpoint _) | .event .sync
  | .store | .cleanup _ => isTrue trivial

variable {w w' : LedgerState η δ}

/-! ### Stores outside a seal -/

variable {f : SuperblockFiles η δ → SuperblockFiles η δ} {op : LedgerOp η δ} {s : SuperblockSeal δ} {id : Nat}

private theorem dirs_modify {k : Nat}
    {d : SuperblockFiles η δ} (h : (w.modify id f).dirs k = some d) :
    w.dirs k = some d ∨ k = id ∧ ∃ d', w.dirs id = some d' ∧ d = f d' := by
  simp only [modify, Function.update_apply] at h
  split_ifs at h with hk
  · obtain ⟨d', hd', rfl⟩ := Option.map_eq_some_iff.mp h
    exact Or.inr ⟨hk, d', hd', rfl⟩
  · exact Or.inl h

private theorem Layout.modify_head (hl : w.Layout)
    (hf : ∀ d, w.dirs w.header.head = some d → SealEnds (f d).blockstore) : (w.modify w.header.head f).Layout where
  sealEnds id d hd := by
    rcases dirs_modify hd with hd | ⟨-, d', hd', rfl⟩
    · exact hl.sealEnds id d hd
    · exact hf d' hd'
  beyond id d hid hd := by
    rcases dirs_modify hd with hd | ⟨rfl, -⟩
    · exact hl.beyond id d hid hd
    · exact (lt_irrefl _ hid).elim

private theorem HeadOpen.modify_head
    (hf : ∀ d, w.dirs w.header.head = some d → NoSeal (f d).blockstore) : (w.modify w.header.head f).HeadOpen := by
  intro d hd
  simp only [modify, Function.update_self] at hd
  obtain ⟨d', hd', rfl⟩ := Option.map_eq_some_iff.mp hd
  exact hf d' hd'

private theorem Appending.modify (h : w.Appending)
    (hf : ∀ d, (f d).blockstore = d.blockstore) : (w.modify w.writer f).Appending := by
  rw [h.writer]
  refine ⟨h.toLayout.modify_head fun d hd => ?_, h.buffer, h.writer, HeadOpen.modify_head fun d hd => ?_⟩
  · rw [hf]
    exact (h.headOpen d hd).sealEnds
  · rw [hf]
    exact h.headOpen d hd

private theorem Appending.storeCursor (h : w.Appending) : (w.exec .storeCursor).Appending := by
  have hseal : ∀ d, w.dirs w.header.head = some d → NoSeal (d.blockstore ++ w.buffer) :=
    fun d hd => (h.headOpen d hd).append h.buffer
  simp only [exec, h.writer]
  have hl := h.toLayout.modify_head (f := fun d => { d with blockstore := d.blockstore ++ w.buffer })
    fun d hd => (hseal d hd).sealEnds
  have ho := HeadOpen.modify_head (f := fun d => { d with blockstore := d.blockstore ++ w.buffer }) hseal
  exact ⟨⟨hl.sealEnds, hl.beyond⟩, .nil, h.writer, ho⟩

private theorem Appending.exec (h : w.Appending) (hop : op.Plain) : (w.exec op).Appending := by
  have hl := h.toLayout
  cases op with
  | write entry =>
    refine ⟨⟨hl.sealEnds, hl.beyond⟩, h.buffer.append ?_, h.writer, h.headOpen⟩
    intro s hs
    obtain rfl := List.mem_singleton.mp hs
    exact hop
  | storeCursor => exact h.storeCursor
  | storeSegmentEnd slot => exact h.modify fun _ => rfl
  | storeSegmentStart slot =>
    refine h.modify fun d => ?_
    dsimp only
    split_ifs <;> rfl
  | addTransactions | addBlock | storeRangeEnd | adoptTransactions =>
    exact ⟨⟨hl.sealEnds, hl.beyond⟩, h.buffer, h.writer, h.headOpen⟩
  | popOldest =>
    simp only [LedgerState.exec]
    cases oldest w.superblocks with
    | none => exact h
    | some id =>
      dsimp only
      split_ifs
      · exact h
      · exact ⟨⟨hl.sealEnds, hl.beyond⟩, h.buffer, h.writer, h.headOpen⟩
  | dropSuperblock =>
    simp only [LedgerState.exec]
    split_ifs
    · exact ⟨⟨hl.sealEnds, hl.beyond⟩, h.buffer, h.writer, h.headOpen⟩
    · exact h
  | storeRangeStart | purgeOldest =>
    cases hv : w.victim with
    | none => simpa only [LedgerState.exec, hv] using h
    | some id =>
      simp only [LedgerState.exec, hv]
      exact ⟨⟨hl.sealEnds, hl.beyond⟩, h.buffer, h.writer, h.headOpen⟩
  | openSuccessor | insertSuperblock | storeHead | addSuperblock | switchWriter => exact hop.elim

/-! ### Stores of a seal -/

private theorem Layout.publishSeal (h : w.Layout) (hopen : w.HeadOpen) (hwriter : w.writer = w.header.head)
    {before : List (BlockstoreEntry η δ)} (hbefore : NoSeal before)
    (hbuffer : w.buffer = before ++ [.superblock s]) : (w.exec .storeCursor).Layout := by
  simp only [exec, hwriter]
  have hl := h.modify_head (f := fun d => { d with blockstore := d.blockstore ++ w.buffer }) fun d hd => by
    rw [hbuffer, ← List.append_assoc]
    exact ((hopen d hd).append hbefore).sealEnds_concat s
  exact ⟨hl.sealEnds, hl.beyond⟩

private theorem Layout.openSuccessor (h : w.Layout) (hid : w.header.head ≤ s.id) :
    (w.exec (.openSuccessor s)).Layout := by
  have hempty : ((w.dirs (s.id + 1)).getD {}).blockstore = [] := by
    cases hd : w.dirs (s.id + 1) with
    | none => rfl
    | some d => exact h.beyond _ d (Nat.lt_succ_of_le hid) hd
  refine ⟨fun id d hd => ?_, fun id d hlt hd => ?_⟩ <;>
    simp only [exec, Function.update_apply] at hd <;> split_ifs at hd
  · obtain rfl := Option.some.inj hd
    intro before s' after heq
    exact (List.append_ne_nil_of_right_ne_nil _ (List.cons_ne_nil _ _) (hempty.symm.trans heq).symm).elim
  · exact h.sealEnds id d hd
  · obtain rfl := Option.some.inj hd
    exact hempty
  · exact h.beyond id d hlt hd

private theorem Layout.storeHead (h : w.Layout) (hid : w.header.head < id) :
    (w.exec (.storeHead id)).Layout ∧ (w.exec (.storeHead id)).HeadOpen := by
  refine ⟨⟨h.sealEnds, fun k d hk => h.beyond k d (hid.trans hk)⟩, fun d hd => ?_⟩
  rw [h.beyond id d hid hd]
  exact .nil

/-! ### Whole runs -/

private theorem Layout.withTodo (h : w.Layout) (todo : List (LedgerOp η δ)) : Layout { w with todo := todo } :=
  ⟨h.sealEnds, h.beyond⟩

private theorem Appending.withTodo (h : w.Appending) (todo : List (LedgerOp η δ)) :
    Appending { w with todo := todo } :=
  ⟨h.toLayout.withTodo todo, h.buffer, h.writer, h.headOpen⟩

/-- The stores between the publication of a seal and the move of the head. -/
private theorem Phase.store_published (h : w.Layout) (hbuffer : w.buffer = [])
    (hid : w.header.head ≤ s.id) {rest : List (LedgerOp η δ)}
    (htodo : op :: rest = .addTransactions :: .adoptTransactions s.transactions :: LedgerOp.rotate s ∨
      op :: rest = .adoptTransactions s.transactions :: LedgerOp.rotate s ∨ op :: rest = LedgerOp.rotate s ∨
      op :: rest = (LedgerOp.rotate s).drop 1 ∨ op :: rest = (LedgerOp.rotate s).drop 2) :
    Phase (exec { w with todo := rest } op) := by
  rcases htodo with heq | heq | heq | heq | heq <;> obtain ⟨rfl, rfl⟩ := List.cons.inj heq
  · exact .published ⟨h.sealEnds, h.beyond⟩ hbuffer s hid (.inr (.inl rfl))
  · exact .published ⟨h.sealEnds, h.beyond⟩ hbuffer s hid (.inr (.inr (.inl rfl)))
  · exact .published ((h.withTodo _).openSuccessor hid) hbuffer s hid (.inr (.inr (.inr (.inl rfl))))
  · exact .published ⟨h.sealEnds, h.beyond⟩ hbuffer s hid (.inr (.inr (.inr (.inr rfl))))
  · obtain ⟨hl, hopen⟩ := (h.withTodo [.addSuperblock, .switchWriter (s.id + 1)]).storeHead (Nat.lt_succ_of_le hid)
    exact .moved hl hopen hbuffer (.inl rfl)

private theorem Phase.store (h : w.Phase) {rest : List (LedgerOp η δ)}
    (heq : w.todo = op :: rest) : Phase (exec { w with todo := rest } op) := by
  cases h with
  | plain h htodo =>
    rw [heq] at htodo
    refine .plain ((h.withTodo rest).exec (htodo op List.mem_cons_self)) ?_
    rw [todo_exec]
    exact fun op' hop' => htodo op' (List.mem_cons_of_mem _ hop')
  | writing h s hid htodo =>
    obtain ⟨rfl, rfl⟩ := List.cons.inj (heq.symm.trans htodo)
    have hl := h.toLayout
    exact .written ⟨hl.sealEnds, hl.beyond⟩ h.headOpen h.writer s hid w.buffer h.buffer rfl rfl
  | written h hopen hwriter s hid before hbefore hbuffer htodo =>
    obtain ⟨rfl, rfl⟩ := List.cons.inj (heq.symm.trans htodo)
    exact .published ((h.withTodo _).publishSeal hopen hwriter hbefore hbuffer) rfl s hid (.inl rfl)
  | published h hbuffer s hid htodo =>
    rw [heq] at htodo
    exact .store_published h hbuffer hid htodo
  | moved h hopen hbuffer htodo =>
    rw [heq] at htodo
    rcases htodo with heq | heq <;> obtain ⟨rfl, rfl⟩ := List.cons.inj heq
    · exact .moved ⟨h.sealEnds, h.beyond⟩ hopen hbuffer (.inr rfl)
    · refine .plain ⟨⟨h.sealEnds, h.beyond⟩, ?_, rfl, hopen⟩ nofun
      change NoSeal w.buffer
      rw [hbuffer]
      exact .nil

private theorem plain_ops {e : LedgerEvent η δ} (he : ∀ s, e ≠ .superblock s) : ∀ op ∈ e.ops, op.Plain := by
  cases e with
  | superblock s => exact (he s rfl).elim
  | block b sizeExceeded =>
    simp only [LedgerEvent.ops]
    split_ifs <;> simp [LedgerOp.publish, LedgerOp.truncate, LedgerOp.Plain]
  | transaction | reset | checkpoint | sync => simp [LedgerEvent.ops, LedgerOp.publish, LedgerOp.Plain]

private theorem Phase.event (h : w.Phase) (hidle : w.todo = []) {e : LedgerEvent η δ}
    (he : ∀ s, e = .superblock s → w.header.head ≤ s.id) : Phase { w with todo := e.ops } := by
  have ha : w.Appending := by
    cases h with
    | plain h => exact h
    | writing _ _ _ htodo => exact (List.cons_ne_nil _ _ (htodo.symm.trans hidle)).elim
    | written _ _ _ _ _ _ _ _ htodo => exact (List.cons_ne_nil _ _ (htodo.symm.trans hidle)).elim
    | published _ _ _ _ htodo => simp [hidle, LedgerOp.rotate] at htodo
    | moved _ _ _ htodo => simp [hidle] at htodo
  by_cases hs : ∃ s, e = .superblock s
  · obtain ⟨s, rfl⟩ := hs
    exact .writing (ha.withTodo _) s (he s rfl) rfl
  · exact .plain (ha.withTodo _) (plain_ops fun s hes => hs ⟨s, hes⟩)

private theorem Phase.cleanup (h : w.Phase) (id : Nat) :
    Phase { w with dirs := Function.update w.dirs id none } := by
  have hdirs : ∀ k d, Function.update w.dirs id none k = some d → w.dirs k = some d := by
    intro k d hd
    rw [Function.update_apply] at hd
    split_ifs at hd
    exact hd
  have hlayout : w.Layout → Layout { w with dirs := Function.update w.dirs id none } := fun h =>
    ⟨fun k d hd => h.sealEnds k d (hdirs k d hd), fun k d hk hd => h.beyond k d hk (hdirs k d hd)⟩
  have hopen : w.HeadOpen → HeadOpen { w with dirs := Function.update w.dirs id none } := fun h d hd =>
    h d (hdirs _ d hd)
  cases h with
  | plain h htodo => exact .plain ⟨hlayout h.toLayout, h.buffer, h.writer, hopen h.headOpen⟩ htodo
  | writing h s hs htodo => exact .writing ⟨hlayout h.toLayout, h.buffer, h.writer, hopen h.headOpen⟩ s hs htodo
  | written h ho hwriter s hs before hbefore hbuffer htodo =>
    exact .written (hlayout h) (hopen ho) hwriter s hs before hbefore hbuffer htodo
  | published h hbuffer s hs htodo => exact .published (hlayout h) hbuffer s hs htodo
  | moved h ho hbuffer htodo => exact .moved (hlayout h) (hopen ho) hbuffer htodo

private theorem Phase.layout (h : w.Phase) : w.Layout := by
  cases h with
  | plain h | writing h => exact h.toLayout
  | written h | published h | moved h => exact h

private theorem Phase.headOpen (h : w.Phase) (hw : ¬ w.SealPending) : w.HeadOpen := by
  cases h with
  | plain h | writing h => exact h.headOpen
  | written _ hopen | moved _ hopen => exact hopen
  | published _ _ s _ htodo =>
    refine (hw ⟨⟨.storeHead (s.id + 1), ?_, rfl⟩, ?_⟩).elim <;> rcases htodo with h | h | h | h | h <;>
      simp [h, LedgerOp.rotate]

private theorem dirs_reopen {d : SuperblockFiles η δ} (h : w.reopen.dirs id = some d) :
    w.dirs id = some d ∨ d = {} := by
  simp only [reopen] at h
  split_ifs at h
  · cases hd : w.dirs id with
    | none => exact Or.inr (by simpa [hd, eq_comm] using h)
    | some d' => exact Or.inl (by simpa [hd] using h)
  · exact Or.inl h

private theorem Phase.reopen (h : w.Phase) (hw : ¬ w.SealPending) : w.reopen.Phase := by
  have hl := h.layout
  refine .plain ⟨⟨fun id d hd => ?_, fun id d hid hd => ?_⟩, .nil, rfl, fun d hd => ?_⟩ nofun
  · rcases dirs_reopen hd with hd | rfl
    · exact hl.sealEnds id d hd
    · exact NoSeal.nil.sealEnds
  · rcases dirs_reopen hd with hd | rfl
    · exact hl.beyond id d hid hd
    · rfl
  · rcases dirs_reopen hd with hd | rfl
    · exact h.headOpen hw d hd
    · exact .nil

private theorem Phase.step (h : w.Phase) (hstep : StepIf SealSafe w w') : w'.Phase := by
  obtain ⟨e, hok, hidle, rfl⟩ | ⟨op, rest, htodo, rfl⟩ | ⟨id, rfl⟩ | ⟨hok, rfl⟩ := step_cases hstep
  · refine h.event hidle ?_
    rintro s rfl
    exact hok
  · exact h.store htodo
  · exact h.cleanup id
  · exact h.reopen hok

private theorem Phase.initial : (initial : LedgerState η δ).Phase := by
  have hdirs : ∀ id d, (LedgerState.initial : LedgerState η δ).dirs id = some d → d.blockstore = [] := by
    intro id d hd
    simp only [LedgerState.initial, Function.update_apply] at hd
    split_ifs at hd
    obtain rfl := Option.some.inj hd
    rfl
  refine .plain ⟨⟨fun id d hd => ?_, fun id d _ => hdirs id d⟩, .nil, rfl, fun d hd => ?_⟩ nofun
  · rw [hdirs id d hd]
    exact NoSeal.nil.sealEnds
  · rw [hdirs _ d hd]
    exact .nil

/-- In every run in which seals name the head or a later superblock and no crash falls between the publication of a
seal and the move of the head, a seal is the last entry of its superblock, and between events the head has none. -/
theorem seal_ends_superblock {w : LedgerState η δ} (hw : ReachableIf SealSafe w) :
    (∀ id d, w.dirs id = some d → SealEnds d.blockstore) ∧ (w.todo = [] → w.HeadOpen) := by
  have hphase : w.Phase := Transition.invariant (fun _ _ h hstep => h.step hstep) Phase.initial hw
  refine ⟨hphase.layout.sealEnds, fun hidle => hphase.headOpen ?_⟩
  rintro ⟨⟨op, hop, -⟩, -⟩
  rw [hidle] at hop
  exact List.not_mem_nil hop

/-- A crash before the seal is published and another one after the head moved. -/
theorem seal_ends_after_crashes :
    ∃ w : LedgerState Nat Nat, ReachableIf SealSafe w ∧ w.header.head = 2 ∧
      w.dirs 1 = some { blockstore := [.superblock ⟨1, 7, 0⟩] } ∧ w.HeadOpen := by
  have hrun := @reachableIf_runIf Nat Nat SealSafe _ ([.event (.superblock ⟨1, 7, 0⟩), .store, .crash,
    .event (.superblock ⟨1, 7, 0⟩)] ++ List.replicate 7 .store ++ [.crash]) rfl
  exact ⟨_, hrun, rfl, rfl, (seal_ends_superblock hrun).2 rfl⟩

/-- A crash right after the seal of superblock 1 is published: the next block is appended behind the seal, in a
superblock that is still the head. -/
theorem crash_appends_behind_seal :
    ∃ w : LedgerState Nat Nat, ReachableIf (fun _ _ => True) w ∧ w.todo = [] ∧ w.header.head = 1 ∧
      ∃ d, w.dirs 1 = some d ∧ d.blockstore = [.superblock ⟨1, 7, 0⟩, .block ⟨1, 5, 0, 4⟩] :=
  ⟨_, reachableIf_runIf ([.event (.superblock ⟨1, 7, 0⟩), .store, .store, .crash,
    .event (.block ⟨1, 5, 0, 4⟩ false)] ++ List.replicate 7 .store) rfl, rfl, rfl, _, rfl, rfl⟩

end LedgerState

end MagicEngine
