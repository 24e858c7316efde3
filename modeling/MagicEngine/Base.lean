import Mathlib.Data.BitVec

/-!
# Identifiers shared by the engine's components

Account addresses, blake3 hashes and transaction signatures are fixed-width byte strings. Each one is
kept as the bit vector of its bytes read big-endian, so equality is byte equality and the unsigned order
is the lexicographic order of the bytes.
-/

namespace MagicEngine

structure Pubkey where
  bytes : BitVec 256
deriving DecidableEq, Repr, Inhabited

/-- A 32-byte blake3 digest. -/
structure Hash where
  bytes : BitVec 256
deriving DecidableEq, Repr, Inhabited

structure Signature where
  bytes : BitVec 512
deriving DecidableEq, Repr, Inhabited

/-! ### Fallible code -/

/-- A check of the source, `if !p { return Err(e) }`. -/
def require {ε : Type} (p : Prop) [Decidable p] (e : ε) : Except ε Unit := if p then .ok () else .error e

@[simp]
theorem require_eq_ok {ε : Type} {p : Prop} [Decidable p] {e : ε} {u : Unit} : require p e = .ok u ↔ p := by
  unfold require
  split <;> simp [*]

@[simp]
theorem require_eq_error {ε : Type} {p : Prop} [Decidable p] {e e' : ε} : require p e = .error e' ↔ ¬p ∧ e = e' := by
  unfold require
  split <;> simp [*]

theorem bind_eq_ok {ε α β : Type} {x : Except ε α} {f : α → Except ε β} {r : β} :
    (x >>= f) = .ok r ↔ ∃ a, x = .ok a ∧ f a = .ok r := by
  cases x <;> simp [bind, Except.bind]

theorem bind_eq_error {ε α β : Type} {x : Except ε α} {f : α → Except ε β} {e : ε} :
    (x >>= f) = .error e ↔ x = .error e ∨ ∃ a, x = .ok a ∧ f a = .error e := by
  cases x <;> simp [bind, Except.bind]

theorem mapError_eq_ok {ε ε' α : Type} {f : ε → ε'} {x : Except ε α} {a : α} : x.mapError f = .ok a ↔ x = .ok a := by
  cases x <;> simp [Except.mapError]

theorem mapError_eq_error {ε ε' α : Type} {f : ε → ε'} {x : Except ε α} {e' : ε'} :
    x.mapError f = .error e' ↔ ∃ e, x = .error e ∧ f e = e' := by
  cases x <;> simp [Except.mapError]

theorem update_eq_some {α β : Type} [DecidableEq α] {f : α → Option β} {key key' : α} {new : Option β} {b : β}
    (h : Function.update f key new key' = some b) : key' = key ∧ new = some b ∨ key' ≠ key ∧ f key' = some b := by
  by_cases heq : key' = key
  · rw [heq, Function.update_self] at h
    exact .inl ⟨heq, h⟩
  · rw [Function.update_of_ne heq] at h
    exact .inr ⟨heq, h⟩

/-! ### Well-known addresses -/

def magicRootId : Pubkey := ⟨0x0545b424da70136784640479abfc94a50200fc391f3046a929fb4af789510b0a#256⟩

def instructionsSysvarId : Pubkey := ⟨0x06a7d517187bd16635dad40455fdc2c0c124c68f215675a5dbbacb5f08000000#256⟩

def sysvarOwnerId : Pubkey := ⟨0x06a7d5171875f729c73d93408f216120067ed88c76e08c287fc1946000000000#256⟩

def nativeLoaderId : Pubkey := ⟨0x058784bf148ba4282fb012574888a9f153a07dadf765c0455c9a970380000000#256⟩

def bpfLoaderUpgradeableId : Pubkey := ⟨0x02a8f6914e88a1b0e210153ef763ae2b00c2b93d16c124d2c0537a1004800000#256⟩

def bpfLoaderId : Pubkey := ⟨0x02a8f6914e88a16e395ae128948ffa695693376818dd47435221f3c600000000#256⟩

def bpfLoaderDeprecatedId : Pubkey := ⟨0x02a8f6914e88a16bbd2395855f6404d9b4f456b7821bb0145749428c00000000#256⟩

def loaderV4Id : Pubkey := ⟨0x0512b4115151e37aad0a8bc5d3882e7b7fda4cf3d2c028c8cf83361800000000#256⟩

/-- Owners that imply the account contains a loaded program. -/
def programOwners : List Pubkey :=
  [nativeLoaderId, bpfLoaderUpgradeableId, bpfLoaderId, bpfLoaderDeprecatedId, loaderV4Id]

end MagicEngine
