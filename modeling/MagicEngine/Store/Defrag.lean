import MagicEngine.Store.AccountsDb

/-!
# Defragmentation

One packing pass (`accountsdb/src/store/defrag.rs`): accounts are taken from the tail of the mapped file, in descending
order of their offsets, and moved into runs of free spans that existed when the pass began. An account goes to a run
that fits exactly or to the smallest one that keeps a useful remainder. After the moves the free suffix of the file is
cut off, and the remaining free spans are published.

The set of runs to choose from is an ordered set in the source and a sorted list here.
-/

namespace MagicEngine

open Regions

def minRemainder : Nat := 43

structure Hole where
  offset : Nat
  units : Nat
deriving DecidableEq, Repr

namespace Hole

def stop (h : Hole) : Nat := h.offset + h.units

def Le (a b : Hole) : Prop := a.offset < b.offset ∨ a.offset = b.offset ∧ a.units ≤ b.units

instance : DecidableRel Le := fun _ _ => inferInstanceAs (Decidable (_ ∨ _))

end Hole

/-- Adjacent holes, combined as one destination; the offset advances as accounts are placed. -/
structure Run where
  parts : List Hole
  offset : Nat
  units : Nat
deriving DecidableEq, Repr

namespace Run

def stop (r : Run) : Nat := r.offset + r.units

def single (h : Hole) : Run := { parts := [h], offset := h.offset, units := h.units }

def take (r : Run) (units : Nat) : Run := { r with offset := r.offset + units, units := r.units - units }

end Run

structure Move where
  src : Nat
  dst : Nat
  units : Nat
deriving DecidableEq, Repr

def Move.stop (m : Move) : Nat := m.src + m.units

abbrev Fit := Nat × Nat × Nat

def Fit.Le (a b : Fit) : Prop := a.1 < b.1 ∨ a.1 = b.1 ∧ (a.2.1 < b.2.1 ∨ a.2.1 = b.2.1 ∧ a.2.2 ≤ b.2.2)

instance : DecidableRel Fit.Le := fun _ _ => inferInstanceAs (Decidable (_ ∨ _))

def Run.fit (r : Run) (i : Nat) : Fit := (r.units, r.offset, i)

namespace Defrag

/-! ### The starting layout -/

def holes (index : Index) : List Hole :=
  (index.freelist.map fun f => { offset := f.2, units := f.1 : Hole }).insertionSort Hole.Le

def accounts (index : Index) : List Nat :=
  (index.accounts.keys.image fun key => ((index.accounts.lookup key).map (·.offset)).getD 0).sort (· ≥ ·)

def runsFrom (run : Run) : List Hole → List Run
  | [] => [run]
  | h :: rest =>
    if h.offset = run.stop then
      runsFrom { parts := run.parts ++ [h], offset := run.offset, units := h.stop - run.offset } rest
    else run :: runsFrom (.single h) rest

def runs : List Hole → List Run
  | [] => []
  | h :: rest => runsFrom (.single h) rest

/-! ### Packing -/

/-- Selects the best exact fit or the best fit with a useful remainder. -/
def fit (set : List Fit) (units : Nat) : Option Fit :=
  match set.getLast? with
  | none => none
  | some (largest, _, _) =>
    if units > largest then none
    else
      match set.find? (·.1 = units) with
      | some found => some found
      | none =>
        if units + minRemainder > largest then none else set.find? (units + minRemainder ≤ ·.1)

def remove (set : List Fit) (f : Fit) : List Fit := set.filter (· ≠ f)

/-- The state of the packing loop. Runs from position `eligible` on end behind the current source. -/
structure Packing where
  runs : List Run
  eligible : Nat
  set : List Fit
  moves : List Move := []

def start (runs : List Run) : Packing :=
  { runs, eligible := runs.length, set := (runs.mapIdx fun i run => run.fit i).insertionSort Fit.Le }

/-- Runs that end behind the source are no destinations any more. -/
def retire (src : Nat) (runs : List Run) : Nat → List Fit → Nat × List Fit
  | 0, set => (0, set)
  | i + 1, set =>
    match runs[i]? with
    | none => (i + 1, set)
    | some run => if run.stop > src then retire src runs i (remove set (run.fit i)) else (i + 1, set)

def place (src units : Nat) (s : Packing) : Packing :=
  match fit s.set units with
  | none => s
  | some found =>
    match s.runs[found.2.2]? with
    | none => s
    | some run =>
      let rest := run.take units
      let set := remove s.set found
      { s with
        runs := s.runs.set found.2.2 rest
        set := if rest.units > 0 then set.orderedInsert Fit.Le (rest.fit found.2.2) else set
        moves := s.moves ++ [{ src, dst := run.offset, units }] }

/-- Packs accounts in descending source order into eligible runs. -/
def pack (m : Memory) (s : Packing) : List Nat → Packing
  | [] => s
  | src :: rest =>
    let (eligible, set) := retire src s.runs s.eligible s.set
    let s := { s with eligible, set }
    if set = [] then s else pack m (place src (m.span src) s) rest

/-! ### The free suffix -/

/-- Scans remaining runs and vacated sources, both in descending order, down from the tail. -/
def scan : List Run → List Move → Nat → Nat
  | run :: runs, moves, tail =>
    if run.units = 0 then scan runs moves tail
    else
      match moves with
      | [] => if run.stop ≠ tail then tail else scan runs [] run.offset
      | move :: rest =>
        if run.offset ≥ move.src then if run.stop ≠ tail then tail else scan runs (move :: rest) run.offset
        else if move.stop ≠ tail then tail else scan (run :: runs) rest move.src
  | [], move :: rest, tail => if move.stop ≠ tail then tail else scan [] rest move.src
  | [], [], tail => tail
termination_by runs moves => runs.length + moves.length

def compactedTail (s : Packing) (tail : Nat) : Nat := scan s.runs.reverse s.moves tail

/-! ### Executing the plan -/

def copy (m : Memory) (move : Move) : Memory :=
  match m move.src with
  | none => m
  | some s => m.write Span.units move.dst s

end Defrag

def Index.relocate (index : Index) (key : Pubkey) (old : Nat) (new : OwnerAndOffset) : Index :=
  { index with
    accounts := index.accounts.insert key new
    programs := (index.programs.delete new.owner old).put offsetRank new.owner new.offset }

def MappedStorage.shrink (units : Nat) (s : MappedStorage) : MappedStorage :=
  { cursor := units, len := if s.len ≤ bytes units then s.len else bytes units }

namespace Defrag

/-- Key and owner are read from the source, which is still intact. -/
def relocate (m : Memory) (index : Index) (move : Move) : Index :=
  match m move.src with
  | none => index
  | some s => index.relocate s.pubkey move.src { owner := s.active.core.owner.tail, offset := move.dst }

/-- What is left of a hole: the part behind the placed accounts and before the tail. -/
def publishHole (run : Run) (tail : Nat) (freelist : DupTable Nat Nat) (h : Hole) : DupTable Nat Nat :=
  let offset := max h.offset run.offset
  let stop := min h.stop tail
  if offset = h.offset ∧ stop = h.stop then freelist
  else
    let freelist := freelist.delete h.units h.offset
    if offset < stop then freelist.put offsetRank (stop - offset) offset else freelist

def publishRun (tail : Nat) (freelist : DupTable Nat Nat) (run : Run) : DupTable Nat Nat :=
  run.parts.foldl (publishHole run tail) freelist

def publishMove (tail : Nat) (freelist : DupTable Nat Nat) (move : Move) : DupTable Nat Nat :=
  if move.src < tail then freelist.put offsetRank (min move.stop tail - move.src) move.src else freelist

/-- Publishes final free spans while retaining untouched component sizes. -/
def publish (s : Packing) (tail : Nat) (freelist : DupTable Nat Nat) : DupTable Nat Nat :=
  s.moves.foldl (publishMove tail) (s.runs.foldl (publishRun tail) freelist)

end Defrag

structure Defragged where
  moved : Nat
  reclaimed : Nat
deriving DecidableEq, Repr

def Defragged.changed (d : Defragged) : Bool := d.moved > 0 || d.reclaimed > 0

namespace PersistedStore

def plan (p : PersistedStore) : Defrag.Packing :=
  let holes := Defrag.holes p.index
  Defrag.pack p.mem (Defrag.start (Defrag.runs holes)) (if holes = [] then [] else Defrag.accounts p.index)

/-- Copies the plan and publishes all index and freelist changes. -/
def execute (s : Defrag.Packing) (tail : Nat) (p : PersistedStore) : PersistedStore :=
  let mem := s.moves.foldl Defrag.copy p.mem
  let index := s.moves.foldl (Defrag.relocate mem) p.index
  { index := { index with freelist := Defrag.publish s tail index.freelist }
    storage := if p.storage.cursor - tail > 0 then p.storage.shrink tail else p.storage
    mem }

/-- Packs tail accounts into holes that existed at the start of this pass. -/
def defragment (p : PersistedStore) : Defragged × PersistedStore :=
  let tail := Defrag.compactedTail p.plan p.storage.cursor
  let outcome : Defragged := { moved := p.plan.moves.length, reclaimed := p.storage.cursor - tail }
  (outcome, if outcome.changed then p.execute p.plan tail else p)

/-- The loop of `AccountsDB::compact`, with the units reclaimed so far: pass after pass until one changes nothing.
Returns nothing if `fuel` passes are not enough. -/
def compactFrom (reclaimed : Nat) (p : PersistedStore) : Nat → Option (Nat × PersistedStore)
  | 0 => none
  | fuel + 1 =>
    let pass := p.defragment
    if pass.1.changed then pass.2.compactFrom (reclaimed + pass.1.reclaimed) fuel
    else some (reclaimed + pass.1.reclaimed, pass.2)

/-- The store that `AccountsDB::compact` leaves. -/
def compact (p : PersistedStore) (fuel : Nat) : Option PersistedStore := (p.compactFrom 0 fuel).map Prod.snd

/-- The input of the checksum besides slot and superblock: the accounts in the order of their keys, with the size of
their image and its contents. -/
def fingerprint (p : PersistedStore) : List (Pubkey × Nat × OwnedAccount) :=
  (p.index.accounts.keys.sort (· ≤ ·)).filterMap fun key =>
    (p.index.accounts.lookup key).bind fun data => (p.mem data.offset).map fun s => (key, s.space, s.active)

def checksum {δ : Type} (hash : Nat → Nat → List (Pubkey × Nat × OwnedAccount) → δ) (slot superblock : Nat)
    (p : PersistedStore) : δ := hash slot superblock p.fingerprint

end PersistedStore

end MagicEngine
