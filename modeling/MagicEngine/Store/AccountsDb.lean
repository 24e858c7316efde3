import Mathlib.Data.Finset.Sort
import MagicEngine.Store.Persisted

/-!
# The account database

`AccountsDB` (`accountsdb/src/lib.rs`, `volatile.rs`): the persisted store for the modes the rollup is the authority
of, and an in-memory store for mirrors of the base chain. A load prefers the volatile copy. `store` sends each entry
of a batch to the backends its mode, storage form and markers ask for.

A batch is prepared as its callers do it: every key is loaded, or starts as the default account, and is then changed
through the writable interface only.
-/

namespace MagicEngine

instance : LinearOrder Pubkey :=
  LinearOrder.lift' (fun key => key.bytes.toNat) fun a b h => by
    cases a
    cases b
    exact congrArg Pubkey.mk (BitVec.eq_of_toNat_eq h)

instance : IsTrans Pubkey (· ≤ ·) := ⟨fun _ _ _ => le_trans⟩

instance : Std.Antisymm fun a b : Pubkey => a ≤ b := ⟨fun _ _ => le_antisymm⟩

/-! ### Volatile accounts -/

structure VolatileStore where
  accounts : Finmap (fun _ : Pubkey => OwnedAccount) := ∅
  programs : Finmap (fun _ : Pubkey => Finset Pubkey) := ∅

namespace VolatileStore

/-- Take an account out of an owner's set, and drop the set if it is empty then. -/
def unlink (owner pubkey : Pubkey) (programs : Finmap (fun _ : Pubkey => Finset Pubkey)) :
    Finmap (fun _ : Pubkey => Finset Pubkey) :=
  match programs.lookup owner with
  | none => programs
  | some set => if set.erase pubkey = ∅ then programs.erase owner else programs.insert owner (set.erase pubkey)

def link (owner pubkey : Pubkey) (programs : Finmap (fun _ : Pubkey => Finset Pubkey)) :
    Finmap (fun _ : Pubkey => Finset Pubkey) :=
  programs.insert owner (insert pubkey ((programs.lookup owner).getD ∅))

def delete (pubkey : Pubkey) (v : VolatileStore) : VolatileStore :=
  match v.accounts.lookup pubkey with
  | none => v
  | some prev => { accounts := v.accounts.erase pubkey, programs := unlink prev.core.owner pubkey v.programs }

def upsertEntry (pubkey : Pubkey) (account : OwnedAccount) (v : VolatileStore) : VolatileStore :=
  if account.core.mode.requiresPersistence || account.core.mode == .closed then v.delete pubkey
  else
    let owner := account.core.owner
    let programs := link owner pubkey v.programs
    { accounts := v.accounts.insert pubkey account
      programs := match v.accounts.lookup pubkey with
        | none => programs
        | some prev => if prev.core.owner = owner then programs else unlink prev.core.owner pubkey programs }

/-- `upsert`, with borrowed images read from `m`. -/
def upsert (m : Memory) (entries : List AccountEntry) (v : VolatileStore) : VolatileStore :=
  entries.foldl (fun v entry => v.upsertEntry entry.1 (entry.2.image m)) v

def linkAll (accounts : Finmap (fun _ : Pubkey => OwnedAccount)) :
    List Pubkey → Finmap (fun _ : Pubkey => Finset Pubkey) → Finmap (fun _ : Pubkey => Finset Pubkey)
  | [], programs => programs
  | pubkey :: rest, programs =>
    match accounts.lookup pubkey with
    | none => linkAll accounts rest programs
    | some account => linkAll accounts rest (link account.core.owner pubkey programs)

/-- `new` over the accounts of a dump: the program sets are rebuilt. -/
def restore (accounts : Finmap (fun _ : Pubkey => OwnedAccount)) : VolatileStore :=
  { accounts, programs := linkAll accounts (accounts.keys.sort (· ≤ ·)) ∅ }

def program (owner : Pubkey) (v : VolatileStore) : List (Pubkey × OwnedAccount) :=
  (((v.programs.lookup owner).getD ∅).sort (· ≤ ·)).filterMap fun key => (v.accounts.lookup key).map (key, ·)

end VolatileStore

/-! ### Both backends -/

structure AccountsDb where
  persisted : PersistedStore
  volatile : VolatileStore

def AccountEntry.isPersisted (m : Memory) (entry : AccountEntry) : Bool :=
  let account := entry.2
  (match account.cow with
    | .borrowed _ => true
    | .owned _ => false) ||
    (account.mode m).requiresPersistence || account.mode m == .closed || account.markers.mode

def AccountEntry.isVolatile (m : Memory) (entry : AccountEntry) : Bool :=
  let account := entry.2
  (match account.cow with
    | .borrowed _ => false
    | .owned _ => true) ||
    !(account.mode m).requiresPersistence

namespace AccountsDb

def mem (db : AccountsDb) : Memory := db.persisted.mem

def new (b : Backend) : AccountsDb :=
  { persisted := { index := {}, storage := MappedStorage.new b, mem := fun _ => none }, volatile := {} }

def load (pubkey : Pubkey) (db : AccountsDb) : Option StoredAccount :=
  match db.volatile.accounts.lookup pubkey with
  | some account => some { cow := .owned account }
  | none => (db.persisted.index.accounts.lookup pubkey).map fun data =>
    { cow := .borrowed (BorrowedAccount.init db.mem data.offset) }

def read (pubkey : Pubkey) (db : AccountsDb) : Option OwnedAccount := (db.load pubkey).map (·.image db.mem)

def program (owner : Pubkey) (db : AccountsDb) : List (Pubkey × OwnedAccount) :=
  db.persisted.program owner ++ db.volatile.program owner

/-- `store`: the persisted backend decides whether the batch succeeds. The entries for the volatile backend are
chosen, and their images read, after the persisted backend is done. -/
def store (b : Backend) (entries : List AccountEntry) (db : AccountsDb) : Except AccountsDBError Unit × AccountsDb :=
  match db.persisted.upsert b (entries.filter (AccountEntry.isPersisted db.mem)) with
  | (.error e, persisted) => (.error e, { db with persisted })
  | (.ok (), persisted) =>
    (.ok (), { persisted
               volatile := db.volatile.upsert persisted.mem (entries.filter (AccountEntry.isVolatile persisted.mem)) })

def reset (db : AccountsDb) : AccountsDb := { db with volatile := {} }

/-- Close the database and open it again. The volatile accounts come back if they were dumped before. -/
def reopen (dumped : Bool) (db : AccountsDb) : AccountsDb :=
  { db with volatile := .restore (if dumped then db.volatile.accounts else ∅) }

/-! ### Preparing a batch -/

def change (pubkey : Pubkey) (ops : List AccountOp) (db : AccountsDb) : AccountsDb × AccountEntry :=
  let account := (db.load pubkey).getD { cow := .owned {} }
  let (mem, account) := AccountOp.applyAll db.mem account ops
  ({ db with persisted.mem := mem }, (pubkey, account))

def prepare (db : AccountsDb) : List (Pubkey × List AccountOp) → AccountsDb × List AccountEntry
  | [] => (db, [])
  | (pubkey, ops) :: rest =>
    let (db, entry) := db.change pubkey ops
    let (db, entries) := db.prepare rest
    (db, entry :: entries)

end AccountsDb

end MagicEngine
