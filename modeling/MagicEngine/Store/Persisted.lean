import Mathlib.Data.Finmap
import MagicEngine.Lib.DupTable
import MagicEngine.Store.Cow

/-!
# The persisted store

The write path of `accountsdb/src/store`: an LMDB index of account offsets, program ownership and free spans over
the mapped file that holds the images. A batch applies its entries one by one inside one index transaction. Images
are written to the mapped file as the batch goes; the index changes only if the transaction commits. On an error
the transaction is dropped and the images published so far are rolled back.

The environment of a batch says which of its index and file operations fail.
-/

namespace MagicEngine

open Regions

/-! ### The index -/

/-- The tail half of a pubkey, the key of the programs table. -/
abbrev KeyTail := BitVec 128

def Pubkey.tail (key : Pubkey) : KeyTail := key.bytes.setWidth 128

/-- Duplicates are ordered by the little-endian bytes of the offset. -/
def offsetRank (offset : Nat) : Nat := (List.range 8).foldl (fun rank i => rank * 256 + offset / 256 ^ i % 256) 0

structure OwnerAndOffset where
  owner : KeyTail
  offset : Nat
deriving DecidableEq, Repr

/-- The tables: accounts, offsets by owner, and free offsets by their size. -/
structure Index where
  accounts : Finmap (fun _ : Pubkey => OwnerAndOffset) := ∅
  programs : DupTable KeyTail Nat := []
  freelist : DupTable Nat Nat := []

namespace Index

def insert (index : Index) (key : Pubkey) (data : OwnerAndOffset) : Index :=
  { index with
    accounts := index.accounts.insert key data
    programs := index.programs.put offsetRank data.owner data.offset }

def delete (index : Index) (key : Pubkey) : Option Nat × Index :=
  match index.accounts.lookup key with
  | none => (none, index)
  | some data =>
    (some data.offset, { index with
      accounts := index.accounts.erase key
      programs := index.programs.delete data.owner data.offset })

def updateOwner (index : Index) (key : Pubkey) (new : KeyTail) : Index :=
  match index.accounts.lookup key with
  | none => index
  | some data =>
    { index with
      accounts := index.accounts.insert key { owner := new, offset := data.offset }
      programs := (index.programs.delete data.owner data.offset).put offsetRank new data.offset }

end Index

/-! ### Failures -/

inductive AccountsDBError where
  | index
  | io
  | allocation
deriving DecidableEq, Repr

/-- A failure inside one entry of a batch. Index changes of a failed batch are dropped, so the calls to the index
are told apart only by whether the entry has allocated its span. -/
inductive Fault where
  | index
  | grow
  | record
deriving DecidableEq, Repr

/-- Limits of the mapped file, and what fails while a batch runs: at most one operation of each entry, and the
commit. -/
structure Backend where
  storageBlock : Nat
  mmapSize : Nat
  fault : Nat → Option Fault := fun _ => none
  commitFails : Bool := false

/-- The limits of a release build. -/
def Backend.release : Backend := { storageBlock := 256 * 1024 ^ 2, mmapSize := 1024 * 1024 ^ 3 }

/-! ### The mapped file -/

def databaseMetaReservation : Nat := 256

/-- Account-image capacity of the mapped region, in storage units. -/
def Backend.storageCapacity (b : Backend) : Nat := (b.mmapSize - databaseMetaReservation) / storageUnit

structure MappedStorage where
  cursor : Nat
  len : Nat
deriving DecidableEq, Repr

namespace MappedStorage

/-- A new file holds one storage block and the metadata. -/
def new (b : Backend) : MappedStorage := { cursor := 0, len := b.storageBlock + databaseMetaReservation }

def bytes (units : Nat) : Nat := units * storageUnit + databaseMetaReservation

def grow (b : Backend) (fault : Option Fault) (needed : Nat) : Except AccountsDBError Nat := do
  let len := (needed + b.storageBlock - 1) / b.storageBlock * b.storageBlock
  require (len ≤ b.mmapSize) .allocation
  require (fault ≠ some .grow) .io
  return len

/-- The file length once `needed` bytes are there. -/
def ensure (b : Backend) (fault : Option Fault) (s : MappedStorage) (needed : Nat) : Except AccountsDBError Nat :=
  if s.len < needed then grow b fault needed else .ok s.len

def allocate (b : Backend) (fault : Option Fault) (s : MappedStorage) (units : Nat) :
    Except AccountsDBError (Nat × MappedStorage) := do
  let stop := s.cursor + units
  require (stop ≤ b.storageCapacity) .allocation
  let len ← s.ensure b fault (bytes stop)
  return (s.cursor, { cursor := stop, len })

end MappedStorage

/-! ### Applying a batch -/

abbrev AccountEntry := Pubkey × StoredAccount

structure PersistedStore where
  index : Index
  storage : MappedStorage
  mem : Memory

/-- A batch in progress; `opened` once it has an index transaction. -/
structure Txn extends PersistedStore where
  opened : Bool := false

namespace PersistedStore

/-- A free span of exactly `units`, or fresh units. -/
def allocate (b : Backend) (fault : Option Fault) (units : Nat) (p : PersistedStore) :
    Except AccountsDBError (Nat × PersistedStore) :=
  match p.index.freelist.get units with
  | some offset => .ok (offset, { p with index.freelist := p.index.freelist.delete units offset })
  | none =>
    match p.storage.allocate b fault units with
    | .ok (offset, storage) => .ok (offset, { p with storage })
    | .error e => .error e

/-- `free`: the size of the span is read from its header. -/
def free (offset : Nat) (p : PersistedStore) : PersistedStore :=
  { p with index.freelist := p.index.freelist.put offsetRank (p.mem.span offset) offset }

def release (pubkey : Pubkey) (p : PersistedStore) : PersistedStore :=
  match p.index.delete pubkey with
  | (none, _) => p
  | (some offset, index) => free offset { p with index }

/-- Record the new span of an account and write its image there. -/
def place (pubkey : Pubkey) (acc : OwnedAccount) (offset : Nat) (p : PersistedStore) : PersistedStore :=
  let p := p.release pubkey
  { p with
    index := p.index.insert pubkey { owner := acc.core.owner.tail, offset }
    mem := p.mem.serialize offset pubkey acc }

end PersistedStore

namespace Txn

/-- `insert`: the image is written after everything that can fail. -/
def insert (b : Backend) (fault : Option Fault) (pubkey : Pubkey) (acc : OwnedAccount) (t : Txn) :
    Except (AccountsDBError × Txn) Txn := do
  let t := { t with opened := true }
  require (fault ≠ some .index) (.index, t)
  let (offset, p) ← (t.toPersistedStore.allocate b fault acc.units).mapError (·, t)
  require (fault ≠ some .record) (.index, { t with toPersistedStore := p })
  return { t with toPersistedStore := p.place pubkey acc offset }

def delete (fault : Option Fault) (pubkey : Pubkey) (t : Txn) : Except (AccountsDBError × Txn) Txn := do
  let t := { t with opened := true }
  require (fault ≠ some .index) (.index, t)
  return { t with toPersistedStore := t.release pubkey }

/-- The owner mapping changes when the owner is marked. -/
def updateOwner (fault : Option Fault) (pubkey owner : Pubkey) (markers : DirtyMarkers) (t : Txn) :
    Except (AccountsDBError × Txn) Txn :=
  if !markers.owner then .ok t
  else do
    let t := { t with opened := true }
    require (fault ≠ some .index) (.index, t)
    return { t with index := t.index.updateOwner pubkey owner.tail }

/-- `update`: publish a borrowed image after updating its owner mapping if needed. -/
def update (fault : Option Fault) (pubkey : Pubkey) (acc : BorrowedAccount) (markers : DirtyMarkers) (t : Txn) :
    Except (AccountsDBError × Txn) Txn := do
  let t ← t.updateOwner fault pubkey (acc.image t.mem).core.owner markers
  return if !markers.any then t else { t with mem := acc.commit t.mem }

def apply (b : Backend) (fault : Option Fault) (entry : AccountEntry) (t : Txn) : Except (AccountsDBError × Txn) Txn :=
  let (pubkey, account) := entry
  if !(account.mode t.mem).requiresPersistence then do
    let t ← t.delete fault pubkey
    match account.cow with
    | .borrowed acc => return { t with mem := acc.commit t.mem }
    | .owned _ => return t
  else
    match account.cow with
    | .borrowed acc => t.update fault pubkey acc account.markers
    | .owned acc => t.insert b fault pubkey acc

/-- The loop of `upsert`: how many entries were applied, and the error that stopped it. -/
def applyAll (b : Backend) (applied : Nat) (t : Txn) : List AccountEntry → Nat × Option AccountsDBError × Txn
  | [] => (applied, none, t)
  | entry :: rest =>
    match t.apply b (b.fault applied) entry with
    | .ok t => applyAll b (applied + 1) t rest
    | .error (e, t) => (applied, some e, t)

end Txn

namespace PersistedStore

def rollbackEntry (m : Memory) (entry : AccountEntry) : Memory :=
  match entry.2.cow with
  | .borrowed acc => if entry.2.dirty then acc.rollback m else m
  | .owned _ => m

def rollback (m : Memory) (entries : List AccountEntry) : Memory := entries.foldl rollbackEntry m

def upsert (b : Backend) (entries : List AccountEntry) (p : PersistedStore) :
    Except AccountsDBError Unit × PersistedStore :=
  let (applied, failed, t) := Txn.applyAll b 0 { p with } entries
  let failed := match failed with
    | none => if t.opened && b.commitFails then some .index else none
    | some e => some e
  match failed with
  | none => (.ok (), t.toPersistedStore)
  | some e => (.error e, { t.toPersistedStore with index := p.index, mem := rollback t.mem (entries.take applied) })

/-- The pubkey and account of the span at `offset`, as program iteration reads them. -/
def item (p : PersistedStore) (offset : Nat) : Pubkey × OwnedAccount :=
  ((p.mem offset).map fun s => (s.pubkey, s.active)).getD default

def program (owner : Pubkey) (p : PersistedStore) : List (Pubkey × OwnedAccount) :=
  (p.index.programs.getDuplicates owner.tail).map p.item

end PersistedStore

end MagicEngine
