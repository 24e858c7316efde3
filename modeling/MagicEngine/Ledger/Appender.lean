import Mathlib.Data.Finset.Max
import Mathlib.Order.Interval.Finset.Nat
import MagicEngine.Ledger.Entry
import MagicEngine.Lib.Transition

/-!
# The ledger appender

One thread appends ledger events to the files of the active superblock (`ledger/src/appender.rs`). Entries are
buffered and become visible when the superblock's published cursor moves over them; the ledger's own header keeps
the head, the number of retained superblocks and the totals (`ledger/src/storage.rs`). Handling an event is a
sequence of separate stores to mapped headers, which survive a process crash one by one in program order, so an
event is modelled as the list of its stores and a crash may stand between any two of them. Opening the ledger
again (`Ledger::new`) reads back what the headers say.

Files are modelled by their entries up to the published cursor: bytes past it are overwritten by the next append.
Execution records and the secondary index take no part in the stream and are left out.
-/

namespace MagicEngine

def sizeCheckFrequency : Nat := 512

/-- Inclusive slot range; zero stands for a range that no block has fixed yet. -/
structure BlockRange where
  start : Nat := 0
  last : Nat := 0
deriving DecidableEq, Repr

structure LedgerMeta where
  transactions : Nat := 0
  superblocks : Nat := 1
  head : Nat := 1
  range : BlockRange := {}
  blocks : Nat := 0
deriving DecidableEq, Repr

/-- The retained superblock ids, including the active head (`LedgerMeta::superblocks`). -/
def LedgerMeta.retained (m : LedgerMeta) : Finset Nat := Finset.Ico (m.head - (m.superblocks - 1)) (m.head + 1)

/-- A superblock directory: the published part of its blockstore and its metadata header. The checksum and the
count are those of the seal that opened it. -/
structure SuperblockFiles (η δ : Type) where
  blockstore : List (BlockstoreEntry η δ) := []
  range : BlockRange := {}
  checksum : Option δ := none
  transactions : Nat := 0
deriving DecidableEq, Repr

/-- One store, in the order in which the appender makes them. -/
inductive LedgerOp (η δ : Type) where
  /-- `SuperblockWriter::write_blockstore`: encode an entry into the buffer. -/
  | write (entry : BlockstoreEntry η δ)
  /-- Flush the buffer and move the superblock's published cursor over it. -/
  | storeCursor
  | storeSegmentEnd (slot : Nat)
  | storeSegmentStart (slot : Nat)
  | addTransactions
  | addBlock
  | storeRangeEnd (slot : Nat)
  | adoptTransactions (count : Nat)
  /-- Create the directory that follows a seal and record the seal in its header. -/
  | openSuccessor (sealed : SuperblockSeal δ)
  | insertSuperblock (id : Nat)
  | storeHead (id : Nat)
  | addSuperblock
  | switchWriter (id : Nat)
  /-- Pop the oldest superblock from the map unless it is the active head. -/
  | popOldest
  | dropSuperblock
  | storeRangeStart
  /-- Hand the popped superblock to the cleanup worker. -/
  | purgeOldest
deriving DecidableEq, Repr

/-- Events of the append queue. A block carries the answer of the size check that may follow it. -/
inductive LedgerEvent (η δ : Type) where
  | transaction (txn : LedgerTransaction η)
  | block (block : Block η) (sizeExceeded : Bool)
  | superblock (sealed : SuperblockSeal δ)
  | reset (reset : Reset)
  | checkpoint (checksum : δ)
  | sync
deriving DecidableEq, Repr

/-- The ledger on disk, the appender that serves it and the stores its current event still has to make. The last
two fields record which directories were ever opened and which were handed to cleanup. -/
structure LedgerState (η δ : Type) where
  header : LedgerMeta := {}
  dirs : Nat → Option (SuperblockFiles η δ)
  superblocks : Finset Nat
  writer : Nat
  buffer : List (BlockstoreEntry η δ) := []
  transactions : Nat := 0
  victim : Option Nat := none
  todo : List (LedgerOp η δ) := []
  opened : Finset Nat := ∅
  purged : Finset Nat := ∅

namespace LedgerOp

variable {η δ : Type}

def publish (slot : Option Nat) : List (LedgerOp η δ) :=
  match slot with
  | none => [storeCursor, addTransactions]
  | some slot =>
    [storeCursor, storeSegmentEnd slot, storeSegmentStart slot, addTransactions, addBlock, storeRangeEnd slot]

def truncate : List (LedgerOp η δ) := [popOldest, dropSuperblock, storeRangeStart, purgeOldest]

def rotate (sealed : SuperblockSeal δ) : List (LedgerOp η δ) :=
  [openSuccessor sealed, insertSuperblock (sealed.id + 1), storeHead (sealed.id + 1), addSuperblock,
    switchWriter (sealed.id + 1)]

end LedgerOp

open LedgerOp in
def LedgerEvent.ops {η δ : Type} : LedgerEvent η δ → List (LedgerOp η δ)
  | .transaction t => [write (.transaction t)]
  | .block b sizeExceeded =>
    write (.block b) :: publish (some b.slot) ++
      if b.slot % sizeCheckFrequency = 0 ∧ sizeExceeded then publish none ++ truncate else []
  | .superblock s => write (.superblock s) :: publish none ++ adoptTransactions s.transactions :: rotate s
  | .reset r => write (.reset r) :: publish none
  | .checkpoint c => write (.checkpoint c) :: publish none
  | .sync => publish none

namespace LedgerState

variable {η δ : Type}

/-- `Ledger::new` over an empty directory. -/
def initial : LedgerState η δ :=
  { dirs := Function.update (fun _ => none) 1 (some {}), superblocks := {1}, writer := 1, opened := {1} }

/-- The process dies, and the ledger is opened again from its headers: every retained superblock is opened, with an
empty directory where there is none, and appending goes on at the head's published cursor. -/
def reopen (w : LedgerState η δ) : LedgerState η δ :=
  { header := w.header
    dirs := fun id => if id ∈ w.header.retained then some ((w.dirs id).getD {}) else w.dirs id
    superblocks := w.header.retained
    writer := w.header.head
    opened := w.header.retained ∪ w.opened
    purged := w.purged }

def modify (w : LedgerState η δ) (id : Nat) (f : SuperblockFiles η δ → SuperblockFiles η δ) : LedgerState η δ :=
  { w with dirs := Function.update w.dirs id ((w.dirs id).map f) }

def oldest (superblocks : Finset Nat) : Option Nat :=
  if h : superblocks.Nonempty then some (superblocks.min' h) else none

theorem oldest_Icc {first last : Nat} (h : first ≤ last) : oldest (Finset.Icc first last) = some first := by
  rw [oldest, dif_pos (Finset.nonempty_Icc.mpr h), Option.some.injEq]
  refine le_antisymm (Finset.min'_le _ _ (Finset.left_mem_Icc.mpr h)) ?_
  exact Finset.le_min' _ _ _ fun id hid => (Finset.mem_Icc.mp hid).1

def exec (w : LedgerState η δ) : LedgerOp η δ → LedgerState η δ
  | .write entry =>
    { w with
      buffer := w.buffer ++ [entry]
      transactions := match entry with
        | .transaction _ => w.transactions + 1
        | _ => w.transactions }
  | .storeCursor =>
    { w.modify w.writer fun d => { d with blockstore := d.blockstore ++ w.buffer } with buffer := [] }
  | .storeSegmentEnd slot => w.modify w.writer fun d => { d with range.last := slot }
  | .storeSegmentStart slot =>
    w.modify w.writer fun d => if d.range.start = 0 then { d with range.start := slot } else d
  | .addTransactions =>
    { w with header.transactions := w.header.transactions + w.transactions, transactions := 0 }
  | .addBlock => { w with header.blocks := w.header.blocks + 1 }
  | .storeRangeEnd slot => { w with header.range.last := slot }
  | .adoptTransactions count => { w with header.transactions := count }
  | .openSuccessor sealed =>
    { w with
      dirs := Function.update w.dirs (sealed.id + 1)
        (some { (w.dirs (sealed.id + 1)).getD {} with
          checksum := some sealed.checksum, transactions := sealed.transactions })
      opened := insert (sealed.id + 1) w.opened }
  | .insertSuperblock id => { w with superblocks := insert id w.superblocks }
  | .storeHead id => { w with header.head := id }
  | .addSuperblock => { w with header.superblocks := w.header.superblocks + 1 }
  | .switchWriter id => { w with writer := id }
  | .popOldest =>
    match oldest w.superblocks with
    | some id => if id ≥ w.header.head then w else { w with superblocks := w.superblocks.erase id, victim := some id }
    | none => w
  | .dropSuperblock =>
    if w.victim.isSome then { w with header.superblocks := w.header.superblocks - 1 } else w
  | .storeRangeStart =>
    match w.victim with
    | some id => { w with header.range.start := ((w.dirs id).getD {}).range.last + 1 }
    | none => w
  | .purgeOldest =>
    match w.victim with
    | some id => { w with victim := none, purged := insert id w.purged }
    | none => w

theorem exec_todo (w : LedgerState η δ) (todo : List (LedgerOp η δ)) (op : LedgerOp η δ) :
    exec { w with todo } op = { exec w op with todo } := by
  obtain ⟨header, dirs, superblocks, writer, buffer, transactions, victim, todo', opened, purged⟩ := w
  cases op with
  | popOldest =>
    simp only [exec]
    cases oldest superblocks with
    | none => rfl
    | some id => by_cases hhead : id ≥ header.head <;> simp only [hhead, if_true, if_false]
  | dropSuperblock | storeRangeStart | purgeOldest => cases victim <;> rfl
  | _ => rfl

theorem todo_exec (w : LedgerState η δ) (op : LedgerOp η δ) : (w.exec op).todo = w.todo :=
  (congrArg LedgerState.todo (w.exec_todo w.todo op) :)

end LedgerState

/-- What can happen next: the appender takes an event, makes its next store, the cleanup worker removes a
directory, or the process crashes and the ledger is opened again. -/
inductive LedgerAction (η δ : Type) where
  | event (event : LedgerEvent η δ)
  | store
  | cleanup (id : Nat)
  | crash
deriving DecidableEq, Repr

namespace LedgerState

variable {η δ : Type}

def step (w : LedgerState η δ) : LedgerAction η δ → Option (LedgerState η δ)
  | .event event => if w.todo = [] then some { w with todo := event.ops } else none
  | .store =>
    match w.todo with
    | [] => none
    | op :: rest => some (exec { w with todo := rest } op)
  | .cleanup id => if id ∈ w.purged then some { w with dirs := Function.update w.dirs id none } else none
  | .crash => some w.reopen

/-- A step whose action meets the condition `ok` in the state it starts from. -/
def StepIf (ok : LedgerState η δ → LedgerAction η δ → Prop) (w w' : LedgerState η δ) : Prop :=
  ∃ action, ok w action ∧ w.step action = some w'

variable {ok : LedgerState η δ → LedgerAction η δ → Prop}

theorem step_cases {w w' : LedgerState η δ} (h : StepIf ok w w') :
    (∃ e, ok w (.event e) ∧ w.todo = [] ∧ w' = { w with todo := e.ops }) ∨
    (∃ op rest, w.todo = op :: rest ∧ w' = exec { w with todo := rest } op) ∨
    (∃ id, w' = { w with dirs := Function.update w.dirs id none }) ∨ ok w .crash ∧ w' = w.reopen := by
  obtain ⟨action, hok, hstep⟩ := h
  cases action with
  | event e =>
    simp only [step, Option.ite_none_right_eq_some, Option.some.injEq] at hstep
    exact .inl ⟨e, hok, hstep.1, hstep.2.symm⟩
  | store =>
    simp only [step] at hstep
    split at hstep <;> cases hstep
    exact .inr (.inl ⟨_, _, ‹_›, rfl⟩)
  | cleanup id =>
    simp only [step, Option.ite_none_right_eq_some, Option.some.injEq] at hstep
    exact .inr (.inr (.inl ⟨id, hstep.2.symm⟩))
  | crash =>
    cases hstep
    exact .inr (.inr (.inr ⟨hok, rfl⟩))

/-- States reached from an empty ledger by steps that meet `ok`. -/
def ReachableIf (ok : LedgerState η δ → LedgerAction η δ → Prop) : LedgerState η δ → Prop :=
  Relation.ReflTransGen (StepIf ok) initial

def runIf (ok : LedgerState η δ → LedgerAction η δ → Prop) [∀ w action, Decidable (ok w action)]
    (w : LedgerState η δ) (actions : List (LedgerAction η δ)) : Option (LedgerState η δ) :=
  actions.foldlM (fun w action => if ok w action then w.step action else none) w

private theorem reflTransGen_runIf
    [∀ w action, Decidable (ok w action)] (actions : List (LedgerAction η δ)) {w w' : LedgerState η δ}
    (h : runIf ok w actions = some w') : Relation.ReflTransGen (StepIf ok) w w' := by
  induction actions generalizing w with
  | nil =>
    obtain rfl : w = w' := by simpa [runIf] using h
    exact .refl
  | cons action rest ih =>
    obtain ⟨next, hnext, hrest⟩ := Option.bind_eq_some_iff.mp h
    obtain ⟨hok, hstep⟩ : ok w action ∧ w.step action = some next := by
      simpa [Option.ite_none_right_eq_some] using hnext
    exact .head ⟨action, hok, hstep⟩ (ih hrest)

theorem reachableIf_runIf [∀ w action, Decidable (ok w action)]
    (actions : List (LedgerAction η δ)) (h : (runIf ok initial actions).isSome) :
    ReachableIf ok ((runIf ok initial actions).get h) :=
  reflTransGen_runIf actions (Option.some_get h).symm

end LedgerState

end MagicEngine
