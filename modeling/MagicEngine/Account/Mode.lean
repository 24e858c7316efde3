import MagicEngine.Base

/-!
# Account modes

Classification, local access and synchronization policy of an account (`solana/account/src/mode.rs`). The
source packs kind, access and flow into the mode's discriminant; here a mode is an inductive type and the
three components are read off it.
-/

namespace MagicEngine

inductive AccountKind where
  | missing
  | regular
  | closed
deriving DecidableEq, Repr

inductive DataFlow where
  | noSync
  | baseToEr
  | erToBase
deriving DecidableEq, Repr

inductive StateAuthority where
  | base
  | er
deriving DecidableEq, Repr

inductive AccountMode where
  | missing
  | mirrored
  | delegated
  | undelegating
  | magic
  | runtime
  | closed
deriving DecidableEq, Repr, Inhabited

inductive AccountPatchError where
  | invalidModeTransition (src dst : AccountMode)
  | invalidSlotTransition (src dst : Nat)
deriving DecidableEq, Repr

namespace AccountMode

def kind : AccountMode → AccountKind
  | .missing => .missing
  | .closed => .closed
  | _ => .regular

def isWritable : AccountMode → Bool
  | .delegated | .magic => true
  | _ => false

def dataFlow : AccountMode → DataFlow
  | .missing | .mirrored => .baseToEr
  | .delegated | .undelegating => .erToBase
  | .magic | .runtime | .closed => .noSync

/-- Who maintains the account image; nobody for missing and closed accounts. -/
def authority (mode : AccountMode) : Option StateAuthority :=
  match mode.kind, mode.dataFlow with
  | .missing, _ | .closed, _ => none
  | _, .baseToEr => some .base
  | _, .noSync | _, .erToBase => some .er

def requiresPersistence (mode : AccountMode) : Bool :=
  mode.authority == some .er

/-- Lifecycle eligibility first, then slot freshness: some pairs need a strictly newer slot. -/
def validateTransition (src dst : AccountMode) (srcSlot dstSlot : Nat) : Except AccountPatchError Unit :=
  let valid : Option Bool :=
    match src, dst with
    | .missing, .missing | .mirrored, .missing | .mirrored, .mirrored | .runtime, .runtime
    | .undelegating, .delegated => some (srcSlot < dstSlot)
    | .missing, .mirrored | .missing, .runtime | .missing, .delegated | .missing, .magic | .missing, .closed
    | .mirrored, .delegated | .mirrored, .magic | .mirrored, .closed
    | .delegated, .undelegating
    | .magic, .delegated | .magic, .closed
    | .undelegating, .missing | .undelegating, .mirrored | .undelegating, .closed => some (srcSlot ≤ dstSlot)
    | _, _ => none
  match valid with
  | none => .error (.invalidModeTransition src dst)
  | some false => .error (.invalidSlotTransition srcSlot dstSlot)
  | some true => .ok ()

end AccountMode

end MagicEngine
