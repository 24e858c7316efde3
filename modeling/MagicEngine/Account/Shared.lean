import MagicEngine.Account.Mode

/-!
# Account values and their mutators

What a holder of an `AccountSharedData` reads and changes (`solana/account/src/cow/mod.rs`, `traits.rs` and
`patch.rs`): the core fields, the data bytes and the markers of the fields changed so far. Whether the image
lives in mapped storage or on the heap plays no part here; the storage forms are modelled with the store.

Scalar setters leave the account alone when the value does not change; data mutators always mark the data. The
`dirty_*` lemmas say exactly when each mutator leaves the account dirty; none of them clears a marker.
-/

namespace MagicEngine

/-- The `StateFlags` byte; bit 0 is `EXECUTABLE`, bit 1 is `RENT_FUNDED`. -/
structure StateFlags where
  bits : BitVec 8
deriving DecidableEq, Repr, Inhabited

def StateFlags.executable (flags : StateFlags) : Bool := flags.bits.getLsbD 0

def StateFlags.setExecutable (flags : StateFlags) (executable : Bool) : StateFlags :=
  { bits := if executable then flags.bits ||| 1 else flags.bits &&& ~~~1 }

@[simp]
theorem StateFlags.executable_setExecutable (flags : StateFlags) (executable : Bool) :
    (flags.setExecutable executable).executable = executable := by
  cases executable <;> simp [setExecutable, StateFlags.executable]

/-- Core account fields; a fresh account is `Missing` at slot zero. -/
structure AccountCore where
  lamports : UInt64 := 0
  owner : Pubkey := default
  slot : Nat := 0
  commitSeq : UInt32 := 0
  mode : AccountMode := .missing
  flags : StateFlags := ⟨0⟩
deriving DecidableEq, Repr, Inhabited

structure OwnedAccount where
  core : AccountCore := {}
  data : List UInt8 := []
deriving DecidableEq, Repr, Inhabited

structure DirtyMarkers where
  owner : Bool := false
  lamports : Bool := false
  mode : Bool := false
  flags : Bool := false
  slot : Bool := false
  data : Bool := false
  commitSeq : Bool := false
deriving DecidableEq, Repr, Inhabited

def DirtyMarkers.any (m : DirtyMarkers) : Bool :=
  m.owner || m.lamports || m.mode || m.flags || m.slot || m.data || m.commitSeq

/-- An account value with the markers of what changed since it was loaded. -/
structure AccountSharedData where
  account : OwnedAccount
  markers : DirtyMarkers := {}
deriving DecidableEq, Repr, Inhabited

namespace AccountSharedData

def core (a : AccountSharedData) : AccountCore := a.account.core

def data (a : AccountSharedData) : List UInt8 := a.account.data

def mode (a : AccountSharedData) : AccountMode := a.core.mode

def lamports (a : AccountSharedData) : UInt64 := a.core.lamports

def owner (a : AccountSharedData) : Pubkey := a.core.owner

def executable (a : AccountSharedData) : Bool := a.core.flags.executable

def dirty (a : AccountSharedData) : Bool := a.markers.any

/-- Whether the transaction may leave the account modified: a writable mode, or a transition into
`Undelegating` or `Closed` made by this transaction. -/
def canWriteback (a : AccountSharedData) : Bool :=
  a.mode.isWritable || ((a.mode == .undelegating || a.mode == .closed) && a.markers.mode)

/-! ### Mutators -/

def setLamports (a : AccountSharedData) (lamports : UInt64) : AccountSharedData :=
  if a.lamports = lamports then a
  else { account := { a.account with core := { a.core with lamports } }, markers := { a.markers with lamports := true } }

def checkedAddLamports (a : AccountSharedData) (lamports : UInt64) : Option AccountSharedData :=
  if a.lamports.toNat + lamports.toNat < 2 ^ 64 then some (a.setLamports (a.lamports + lamports)) else none

def checkedSubLamports (a : AccountSharedData) (lamports : UInt64) : Option AccountSharedData :=
  if lamports ≤ a.lamports then some (a.setLamports (a.lamports - lamports)) else none

def setOwner (a : AccountSharedData) (owner : Pubkey) : AccountSharedData :=
  if a.owner = owner then a
  else { account := { a.account with core := { a.core with owner } }, markers := { a.markers with owner := true } }

/-- `copy_into_owner_from_slice`: marks the owner even when it stays the same. -/
def copyIntoOwner (a : AccountSharedData) (owner : Pubkey) : AccountSharedData :=
  { account := { a.account with core := { a.core with owner } }, markers := { a.markers with owner := true } }

def setFlags (a : AccountSharedData) (flags : StateFlags) : AccountSharedData :=
  if a.core.flags = flags then a
  else { account := { a.account with core := { a.core with flags } }, markers := { a.markers with flags := true } }

def setExecutable (a : AccountSharedData) (executable : Bool) : AccountSharedData :=
  a.setFlags (a.core.flags.setExecutable executable)

def setCommitSeq (a : AccountSharedData) (commitSeq : UInt32) : AccountSharedData :=
  if a.core.commitSeq = commitSeq then a
  else
    { account := { a.account with core := { a.core with commitSeq } }
      markers := { a.markers with commitSeq := true } }

/-- Mode and slot as one validated transition; an error leaves the account unchanged. -/
def setLifecycle (a : AccountSharedData) (mode : AccountMode) (slot : Nat) :
    Except AccountPatchError AccountSharedData :=
  match a.mode.validateTransition mode a.core.slot slot with
  | .error e => .error e
  | .ok () =>
    .ok { account := { a.account with core := { a.core with mode, slot } }
          markers := { a.markers with slot := true, mode := a.markers.mode || a.mode != mode } }

/-- Every data mutator: replace the bytes and mark them. -/
def withData (a : AccountSharedData) (data : List UInt8) : AccountSharedData :=
  { account := { a.account with data }, markers := { a.markers with data := true } }

def resize (a : AccountSharedData) (len : Nat) (val : UInt8) : AccountSharedData :=
  a.withData (a.data.take len ++ List.replicate (len - a.data.length) val)

def extendFromSlice (a : AccountSharedData) (data : List UInt8) : AccountSharedData :=
  a.withData (a.data ++ data)

def setDataFromSlice (a : AccountSharedData) (data : List UInt8) : AccountSharedData :=
  a.withData data

/-- Writes bytes at `offset`, zero-filling a gap and extending as needed. -/
def setDataAt (a : AccountSharedData) (offset : Nat) (data : List UInt8) : AccountSharedData :=
  let grown := a.data ++ List.replicate (offset - a.data.length) 0
  a.withData (grown.take offset ++ data ++ grown.drop (offset + data.length))

/-! ### When a mutator leaves the account dirty -/

theorem dirty_setLamports (a : AccountSharedData) (lamports : UInt64) :
    (a.setLamports lamports).dirty = (a.dirty || a.lamports != lamports) := by
  unfold setLamports
  split <;> simp_all [dirty, DirtyMarkers.any]

theorem dirty_setOwner (a : AccountSharedData) (owner : Pubkey) :
    (a.setOwner owner).dirty = (a.dirty || a.owner != owner) := by
  unfold setOwner
  split <;> simp_all [dirty, DirtyMarkers.any]

theorem dirty_setFlags (a : AccountSharedData) (flags : StateFlags) :
    (a.setFlags flags).dirty = (a.dirty || a.core.flags != flags) := by
  unfold setFlags
  split <;> simp_all [dirty, DirtyMarkers.any]

theorem dirty_setExecutable {a : AccountSharedData} {executable : Bool} (h : a.executable ≠ executable) :
    (a.setExecutable executable).dirty = true := by
  have hflags : a.core.flags ≠ a.core.flags.setExecutable executable := by
    intro heq
    apply h
    rw [AccountSharedData.executable, heq, StateFlags.executable_setExecutable]
  simp [setExecutable, dirty_setFlags, hflags]

theorem dirty_setCommitSeq (a : AccountSharedData) (commitSeq : UInt32) :
    (a.setCommitSeq commitSeq).dirty = (a.dirty || a.core.commitSeq != commitSeq) := by
  unfold setCommitSeq
  split <;> simp_all [dirty, DirtyMarkers.any]

@[simp]
theorem dirty_copyIntoOwner (a : AccountSharedData) (owner : Pubkey) : (a.copyIntoOwner owner).dirty = true := by
  simp [copyIntoOwner, dirty, DirtyMarkers.any]

@[simp]
theorem dirty_withData (a : AccountSharedData) (data : List UInt8) : (a.withData data).dirty = true := by
  simp [withData, dirty, DirtyMarkers.any]

theorem dirty_setLifecycle {a a' : AccountSharedData} {mode : AccountMode} {slot : Nat}
    (h : a.setLifecycle mode slot = .ok a') : a'.dirty = true := by
  unfold setLifecycle at h
  split at h
  · cases h
  · cases h
    simp [dirty, DirtyMarkers.any]

end AccountSharedData

inductive AccountFieldPatch where
  | lamports (value : UInt64)
  | owner (value : Pubkey)
  | dataAt (offset : Nat) (data : List UInt8)
  | lifecycle (mode : AccountMode) (slot : Nat)
  | dataLen (len : Nat)
  | commitSeq (value : UInt32)
deriving DecidableEq, Repr

/-- Applies the patch; it checks neither the caller nor any write permission. -/
def AccountFieldPatch.apply (patch : AccountFieldPatch) (a : AccountSharedData) :
    Except AccountPatchError AccountSharedData :=
  match patch with
  | .lamports value => .ok (a.setLamports value)
  | .owner value => .ok (a.setOwner value)
  | .lifecycle mode slot => a.setLifecycle mode slot
  | .dataAt offset data => .ok (a.setDataAt offset data)
  | .dataLen len => .ok (a.resize len 0)
  | .commitSeq value => .ok (a.setCommitSeq value)

/-- Whether the patch, once it applies, marks a field of the account. -/
def AccountFieldPatch.marks (patch : AccountFieldPatch) (a : AccountSharedData) : Bool :=
  match patch with
  | .lamports value => a.lamports != value
  | .owner value => a.owner != value
  | .commitSeq value => a.core.commitSeq != value
  | .lifecycle _ _ | .dataAt _ _ | .dataLen _ => true

def AccountFieldPatch.lamportsAfter (patch : AccountFieldPatch) (a : AccountSharedData) : UInt64 :=
  match patch with
  | .lamports value => value
  | _ => a.lamports

theorem AccountFieldPatch.lamports_apply {patch : AccountFieldPatch} {a a' : AccountSharedData}
    (h : patch.apply a = .ok a') : a'.lamports = patch.lamportsAfter a := by
  cases patch with
  | lamports value =>
    cases h
    unfold AccountSharedData.setLamports
    split <;> simp_all [lamportsAfter, AccountSharedData.lamports, AccountSharedData.core]
  | owner value => cases h; unfold AccountSharedData.setOwner; split <;> rfl
  | commitSeq value => cases h; unfold AccountSharedData.setCommitSeq; split <;> rfl
  | lifecycle mode slot =>
    simp only [apply, AccountSharedData.setLifecycle] at h
    split at h
    · cases h
    · cases h; rfl
  | dataAt offset data => cases h; rfl
  | dataLen len => cases h; rfl

theorem AccountFieldPatch.dirty_apply {patch : AccountFieldPatch} {a a' : AccountSharedData}
    (h : patch.apply a = .ok a') : a'.dirty = (a.dirty || patch.marks a) := by
  cases patch with
  | lamports value => cases h; exact a.dirty_setLamports value
  | owner value => cases h; exact a.dirty_setOwner value
  | commitSeq value => cases h; exact a.dirty_setCommitSeq value
  | lifecycle mode slot => simp [AccountSharedData.dirty_setLifecycle h, marks]
  | dataAt offset data => cases h; simp [AccountSharedData.setDataAt, marks]
  | dataLen len => cases h; simp [AccountSharedData.resize, marks]

end MagicEngine
