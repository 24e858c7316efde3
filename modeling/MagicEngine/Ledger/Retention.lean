import MagicEngine.Ledger.Appender

/-!
# Retained superblocks

The ledger header keeps only the head and the number of retained superblocks, and reopening reads the retained ids
back as the interval of that length below the head. Rotation moves the head to one past the sealed id but always
adds one to the count, and truncation removes the oldest id of the map, so the interval is the map's key set as long
as every seal names the active head. The seal that records a bootstrap snapshot carries the id of the leader's
superblock instead.
-/

namespace MagicEngine

/-- What the retained range depends on: the head and count of the header, the keys of the in-memory map, and the
ids opened and handed to cleanup. -/
structure Retention where
  head : Nat
  count : Nat
  superblocks : Finset Nat
  victim : Option Nat
  opened : Finset Nat
  purged : Finset Nat

namespace Retention

variable {η δ : Type}

def exec (r : Retention) : LedgerOp η δ → Retention
  | .openSuccessor sealed => { r with opened := insert (sealed.id + 1) r.opened }
  | .insertSuperblock id => { r with superblocks := insert id r.superblocks }
  | .storeHead id => { r with head := id }
  | .addSuperblock => { r with count := r.count + 1 }
  | .popOldest =>
    match LedgerState.oldest r.superblocks with
    | some id => if id ≥ r.head then r else { r with superblocks := r.superblocks.erase id, victim := some id }
    | none => r
  | .dropSuperblock => if r.victim.isSome then { r with count := r.count - 1 } else r
  | .purgeOldest =>
    match r.victim with
    | some id => { r with victim := none, purged := insert id r.purged }
    | none => r
  | _ => r

/-- The retained ids are the `count` ids up to the head, and every directory ever opened is retained or was handed
to cleanup. -/
structure Contiguous (r : Retention) : Prop where
  count_pos : 1 ≤ r.count
  count_le : r.count ≤ r.head
  superblocks : r.superblocks = Finset.Icc (r.head + 1 - r.count) r.head
  victim : r.victim = none
  opened : r.opened ⊆ r.superblocks ∪ r.purged

variable {r : Retention}

private theorem Contiguous.mem_iff (hr : r.Contiguous) (id : Nat) :
    id ∈ r.superblocks ↔ r.head + 1 - r.count ≤ id ∧ id ≤ r.head := by
  rw [hr.superblocks, Finset.mem_Icc]

theorem Contiguous.rotate (hr : r.Contiguous) (s : SuperblockSeal δ) (hs : s.id = r.head) :
    ((LedgerOp.rotate (η := η) s).foldl exec r).Contiguous := by
  have hpos := hr.count_pos
  have hle := hr.count_le
  refine ⟨by simp [LedgerOp.rotate, exec], ?_, ?_, hr.victim, ?_⟩
  · simp only [LedgerOp.rotate, exec, List.foldl_cons, List.foldl_nil]
    omega
  · ext id
    simp only [LedgerOp.rotate, exec, List.foldl_cons, List.foldl_nil, Finset.mem_insert, hr.mem_iff, Finset.mem_Icc]
    omega
  · intro id hid
    simp only [LedgerOp.rotate, exec, List.foldl_cons, List.foldl_nil, Finset.mem_insert, Finset.mem_union] at hid ⊢
    rcases hid with rfl | hid
    · exact Or.inl (Or.inl rfl)
    · rcases Finset.mem_union.mp (hr.opened hid) with h | h
      · exact Or.inl (Or.inr h)
      · exact Or.inr h

private theorem Contiguous.popOldest (hr : r.Contiguous) :
    r.exec (.popOldest : LedgerOp η δ) =
      if r.count = 1 then r
      else { r with superblocks := Finset.Icc (r.head + 2 - r.count) r.head, victim := some (r.head + 1 - r.count) } := by
  have hpos := hr.count_pos
  have hle := hr.count_le
  have hmin : LedgerState.oldest r.superblocks = some (r.head + 1 - r.count) := by
    rw [hr.superblocks, LedgerState.oldest_Icc (by omega)]
  simp only [exec, hmin]
  by_cases hone : r.count = 1
  · rw [if_pos (by omega), if_pos hone]
  · rw [if_neg (by omega), if_neg hone]
    congr 1
    ext id
    simp only [Finset.mem_erase, hr.mem_iff, Finset.mem_Icc]
    omega

theorem Contiguous.truncate (hr : r.Contiguous) :
    ((LedgerOp.truncate (η := η) (δ := δ)).foldl exec r).Contiguous := by
  have hpos := hr.count_pos
  have hle := hr.count_le
  by_cases hone : r.count = 1
  · have hsame : (LedgerOp.truncate (η := η) (δ := δ)).foldl exec r = r := by
      simp only [LedgerOp.truncate, List.foldl_cons, List.foldl_nil, hr.popOldest, if_pos hone]
      simp [exec, hr.victim]
    rwa [hsame]
  · simp only [LedgerOp.truncate, List.foldl_cons, List.foldl_nil, hr.popOldest, if_neg hone]
    refine ⟨by simp [exec]; omega, by simp [exec]; omega, ?_, rfl, ?_⟩
    · simp only [exec, Option.isSome_some, if_true]
      congr 1
      omega
    · intro id hid
      simp only [exec, Option.isSome_some, if_true, Finset.mem_union, Finset.mem_insert, Finset.mem_Icc] at hid ⊢
      rcases Finset.mem_union.mp (hr.opened hid) with h | h
      · have := (hr.mem_iff id).mp h
        omega
      · exact Or.inr (Or.inr h)

private theorem foldl_publish (r : Retention) (slot : Option Nat) :
    (LedgerOp.publish (η := η) (δ := δ) slot).foldl exec r = r := by
  cases slot <;> rfl

/-- Every event keeps the retained range contiguous, seals of another id than the head apart. -/
theorem Contiguous.event (hr : r.Contiguous) (e : LedgerEvent η δ)
    (he : ∀ s, e = .superblock s → s.id = r.head) : (e.ops.foldl exec r).Contiguous := by
  cases e with
  | superblock s =>
    simp only [LedgerEvent.ops, List.cons_append, List.foldl_cons, List.foldl_append, foldl_publish]
    exact Contiguous.rotate (r := r) hr s (he s rfl)
  | block b sizeExceeded =>
    simp only [LedgerEvent.ops, List.cons_append, List.foldl_cons, List.foldl_append, foldl_publish]
    split
    · simp only [List.foldl_append, foldl_publish]
      exact Contiguous.truncate (r := r) hr
    · exact hr
  | transaction | reset | checkpoint | sync =>
    simp only [LedgerEvent.ops, List.foldl_cons, foldl_publish, List.foldl_nil]
    exact hr

end Retention

namespace LedgerState

variable {η δ : Type}

def retention (w : LedgerState η δ) : Retention where
  head := w.header.head
  count := w.header.superblocks
  superblocks := w.superblocks
  victim := w.victim
  opened := w.opened
  purged := w.purged

theorem retention_exec (w : LedgerState η δ) (op : LedgerOp η δ) :
    (w.exec op).retention = w.retention.exec op := by
  obtain ⟨header, dirs, superblocks, writer, buffer, transactions, victim, todo, opened, purged⟩ := w
  cases op with
  | popOldest =>
    simp only [exec, Retention.exec, retention]
    cases oldest superblocks with
    | none => rfl
    | some id => by_cases hhead : id ≥ header.head <;> simp only [hhead, if_true, if_false]
  | dropSuperblock | storeRangeStart | purgeOldest => cases victim <;> rfl
  | _ => rfl

/-- Seals name the active head, and the process stops only between events. -/
def SealsHead (w : LedgerState η δ) : LedgerAction η δ → Prop
  | .event (.superblock sealed) => sealed.id = w.header.head
  | .crash => w.todo = []
  | _ => True

instance (w : LedgerState η δ) : DecidablePred w.SealsHead
  | .event (.superblock sealed) => inferInstanceAs (Decidable (sealed.id = w.header.head))
  | .crash => inferInstanceAs (Decidable (w.todo = []))
  | .event (.transaction _) | .event (.block _ _) | .event (.reset _) | .event (.checkpoint _) | .event .sync
  | .store | .cleanup _ => isTrue trivial

variable {w : LedgerState η δ}

private theorem retained_eq (hw : w.retention.Contiguous) :
    w.header.retained = w.superblocks := by
  have hpos : 1 ≤ w.header.superblocks := hw.count_pos
  have hle : w.header.superblocks ≤ w.header.head := hw.count_le
  have hsb : w.superblocks = Finset.Icc (w.header.head + 1 - w.header.superblocks) w.header.head := hw.superblocks
  ext id
  rw [hsb, LedgerMeta.retained, Finset.mem_Ico, Finset.mem_Icc]
  omega

private theorem retention_reopen (hw : w.retention.Contiguous) :
    w.reopen.retention.Contiguous where
  count_pos := hw.count_pos
  count_le := hw.count_le
  superblocks := (retained_eq hw).trans hw.superblocks
  victim := rfl
  opened := by
    change w.header.retained ∪ w.opened ⊆ w.header.retained ∪ w.purged
    rw [retained_eq hw]
    exact Finset.union_subset Finset.subset_union_left hw.opened

/-- The range the ledger has once the stores of the current event are made. -/
private def settled (w : LedgerState η δ) : Retention := w.todo.foldl Retention.exec w.retention

private theorem settled_of_idle (hidle : w.todo = []) : w.settled = w.retention := by
  rw [settled, hidle, List.foldl_nil]

private theorem settled_step {w w' : LedgerState η δ} (hw : w.settled.Contiguous) (h : StepIf SealsHead w w') :
    w'.settled.Contiguous := by
  obtain ⟨e, hok, hidle, rfl⟩ | ⟨op, rest, htodo, rfl⟩ | ⟨id, rfl⟩ | ⟨hok, rfl⟩ := step_cases h
  · rw [settled_of_idle hidle] at hw
    refine hw.event e ?_
    rintro s rfl
    exact hok
  · -- the store moves from what is still to be done to what is done
    have hsame : (exec { w with todo := rest } op).settled = w.settled := by
      simp only [settled, retention_exec, todo_exec, htodo, List.foldl_cons]
      rfl
    rwa [hsame]
  · exact hw
  · rw [settled_of_idle hok] at hw
    exact retention_reopen hw

private theorem settled_initial : (initial : LedgerState η δ).settled.Contiguous where
  count_pos := le_rfl
  count_le := le_rfl
  superblocks := show {1} = Finset.Icc 1 1 by decide
  victim := rfl
  opened := Finset.subset_union_left

/-- Between events the ids read back from the header are the keys of the map, so that reopening restores exactly the
retained superblocks, and every directory ever opened is retained or was handed to cleanup. -/
theorem retained_eq_superblocks {w : LedgerState η δ} (hw : ReachableIf SealsHead w) (hidle : w.todo = []) :
    w.header.retained = w.superblocks ∧ w.reopen.superblocks = w.superblocks ∧
      ∀ id ∈ w.opened, id ∈ w.superblocks ∨ id ∈ w.purged := by
  have hstep : ∀ w w' : LedgerState η δ, w.settled.Contiguous → StepIf SealsHead w w' → w'.settled.Contiguous :=
    fun _ _ => settled_step
  have hc := Transition.invariant hstep settled_initial hw
  rw [settled_of_idle hidle] at hc
  exact ⟨retained_eq hc, retained_eq hc, fun id hid => Finset.mem_union.mp (hc.opened hid)⟩

theorem retained_after_seal :
    ∃ w : LedgerState Nat Nat, ReachableIf SealsHead w ∧ w.todo = [] ∧ w.superblocks = {1, 2} ∧
      w.header.retained = w.superblocks := by
  have hrun := @reachableIf_runIf Nat Nat SealsHead _
    (.event (.superblock ⟨1, 0, 0⟩) :: List.replicate 9 .store) rfl
  exact ⟨_, hrun, rfl, by decide, (retained_eq_superblocks hrun rfl).1⟩

/-- A bootstrap seal of superblock 5 on an empty ledger: the header then retains 5 and 6, the map holds 1 and 6, and
after reopening directory 1 is neither retained nor handed to cleanup. -/
theorem bootstrap_orphans_first :
    ∃ w : LedgerState Nat Nat, ReachableIf (fun _ _ => True) w ∧ w.todo = [] ∧ w.superblocks = {1, 6} ∧
      w.header.retained = {5, 6} ∧ 1 ∈ w.reopen.opened ∧ 1 ∉ w.reopen.superblocks ∧ 1 ∉ w.reopen.purged :=
  ⟨_, reachableIf_runIf (.event (.superblock ⟨5, 0, 0⟩) :: List.replicate 9 .store) rfl, rfl, by decide, by decide,
    by decide, by decide, by decide⟩

end LedgerState

end MagicEngine
