import MagicEngine.Account.Shared
import MagicEngine.Lib.Regions

/-!
# Account spans in mapped storage

The layout of a persisted account (`solana/account/src/cow/borrowed.rs` and `owned.rs`): a header with a sequence
counter, the account's pubkey and two images of equal size. An even sequence makes image A the active one, an odd
sequence image B; the other one is the shadow, which writers prepare and publish by advancing the sequence.

Offsets and sizes are in storage units of 8 bytes. A span is one record of the mapped file; writing a span destroys
other records it overlaps.
-/

namespace MagicEngine

open Regions

/-- Bytes of an image before its data: `AccountCore` and `DataHeader`. -/
def staticSize : Nat := 64

def imageOffset : Nat := 5

def storageUnit : Nat := 8

def allocation (len : Nat) : Nat := (staticSize + len + (storageUnit - 1)) / storageUnit

def spanUnits (space : Nat) : Nat := space * 2 + imageOffset

def OwnedAccount.units (a : OwnedAccount) : Nat := spanUnits (allocation a.data.length)

theorem OwnedAccount.units_pos (a : OwnedAccount) : 0 < a.units := by
  unfold units spanUnits imageOffset
  omega

/-- The length of the data fits into its field of `DataHeader`. -/
def OwnedAccount.Fits (a : OwnedAccount) : Prop := a.data.length < 2 ^ 32

instance (a : OwnedAccount) : Decidable a.Fits := inferInstanceAs (Decidable (_ < _))

/-- What an image shows of the account: the length is written as `u32`. -/
def OwnedAccount.stored (a : OwnedAccount) : OwnedAccount := { a with data := a.data.take (a.data.length % 2 ^ 32) }

theorem OwnedAccount.fits_stored (a : OwnedAccount) : a.stored.Fits := by
  have hmod : a.data.length % 2 ^ 32 < 2 ^ 32 := Nat.mod_lt _ (by decide)
  exact lt_of_le_of_lt (List.length_take_le ..) hmod

theorem OwnedAccount.stored_eq_iff {a : OwnedAccount} : a.stored = a ↔ a.Fits := by
  constructor
  · intro h
    rw [← h]
    exact a.fits_stored
  · intro h
    rw [stored, Nat.mod_eq_of_lt h, List.take_length]

structure Span where
  space : Nat
  sequence : UInt32
  pubkey : Pubkey
  imageA : OwnedAccount
  imageB : OwnedAccount
deriving DecidableEq, Repr, Inhabited

/-- Which of the two images: `true` for image B. -/
abbrev Side := Bool

def activeSide (sequence : UInt32) : Side := sequence % 2 == 1

namespace Span

def units (s : Span) : Nat := spanUnits s.space

def capacity (s : Span) : Nat := (s.space * storageUnit - staticSize) % 2 ^ 32

def image (s : Span) (side : Side) : OwnedAccount := if side then s.imageB else s.imageA

def setImage (s : Span) (side : Side) (a : OwnedAccount) : Span :=
  if side then { s with imageB := a } else { s with imageA := a }

def active (s : Span) : OwnedAccount := s.image (activeSide s.sequence)

@[simp]
theorem units_setImage (s : Span) (side : Side) (a : OwnedAccount) : (s.setImage side a).units = s.units := by
  unfold setImage
  split <;> rfl

@[simp]
theorem sequence_setImage (s : Span) (side : Side) (a : OwnedAccount) : (s.setImage side a).sequence = s.sequence := by
  unfold setImage
  split <;> rfl

@[simp]
theorem pubkey_setImage (s : Span) (side : Side) (a : OwnedAccount) : (s.setImage side a).pubkey = s.pubkey := by
  unfold setImage
  split <;> rfl

@[simp]
theorem image_setImage (s : Span) (side side' : Side) (a : OwnedAccount) :
    (s.setImage side a).image side' = if side' = side then a else s.image side' := by
  cases side <;> cases side' <;> simp [setImage, image]

theorem setImage_image (s : Span) (side : Side) : s.setImage side (s.image side) = s := by
  cases side <;> rfl

theorem setImage_setImage (s : Span) (side : Side) (a b : OwnedAccount) :
    (s.setImage side a).setImage side b = s.setImage side b := by
  cases side <;> rfl

theorem active_setImage_shadow (s : Span) (a : OwnedAccount) :
    (s.setImage (!activeSide s.sequence) a).active = s.active := by
  simp [active]

/-- Advance the sequence, which makes the shadow image the active one. -/
def publish (s : Span) : Span := { s with sequence := s.sequence + 1 }

def withdraw (s : Span) : Span := { s with sequence := s.sequence - 1 }

end Span

/-- Consecutive sequences select different images, also across the wrap. -/
theorem activeSide_succ (sequence : UInt32) : activeSide (sequence + 1) = !activeSide sequence := by
  unfold activeSide
  have h : (sequence + 1) % 2 = 1 ↔ ¬sequence % 2 = 1 := by
    rw [← UInt32.toNat_inj, ← UInt32.toNat_inj]
    simp only [UInt32.toNat_mod, UInt32.toNat_add, UInt32.toNat_one, UInt32.reduceToNat]
    omega
  rw [Bool.eq_iff_iff, beq_iff_eq, h, Bool.not_eq_true', beq_eq_false_iff_ne]

namespace Span

@[simp]
theorem units_publish (s : Span) : s.publish.units = s.units := rfl

theorem withdraw_publish (s : Span) : s.publish.withdraw = s := by
  have hsequence : s.sequence + 1 - 1 = s.sequence := by grind
  simp only [publish, withdraw, hsequence]

theorem active_publish (s : Span) : s.publish.active = s.image (!activeSide s.sequence) := by
  rw [← activeSide_succ]
  rfl

end Span

abbrev Memory := Heap Span

/-- What `OwnedAccount::serialize` makes of the bytes at `offset`: a fresh header, the pubkey and image A. The bytes
of image B stay what they were. -/
def Memory.fresh (m : Memory) (offset : Nat) (pubkey : Pubkey) (a : OwnedAccount) : Span :=
  let space := allocation a.data.length
  let imageB := match m offset with
    | some s => if s.space = space then s.imageB else {}
    | none => {}
  { space, sequence := 0, pubkey, imageA := a.stored, imageB }

def Memory.serialize (m : Memory) (offset : Nat) (pubkey : Pubkey) (a : OwnedAccount) : Memory :=
  Heap.write Span.units m offset (m.fresh offset pubkey a)

@[simp]
theorem Memory.units_fresh (m : Memory) (offset : Nat) (pubkey : Pubkey) (a : OwnedAccount) :
    (m.fresh offset pubkey a).units = a.units := rfl

@[simp]
theorem Memory.active_fresh (m : Memory) (offset : Nat) (pubkey : Pubkey) (a : OwnedAccount) :
    (m.fresh offset pubkey a).active = a.stored := rfl

theorem Memory.imageB_fresh {m : Memory} {offset : Nat} {pubkey : Pubkey} {a : OwnedAccount} {s : Span}
    (hs : m offset = some s) (hunits : s.units = a.units) : (m.fresh offset pubkey a).imageB = s.imageB := by
  have hspace : s.space = allocation a.data.length := by
    simp only [Span.units, OwnedAccount.units, spanUnits] at hunits
    omega
  simp [fresh, hs, hspace]

def Memory.span (m : Memory) (offset : Nat) : Nat := ((m offset).map Span.units).getD 0

theorem Memory.span_modify {m : Memory} {o : Nat} {f : Span → Span} (hf : ∀ s, (f s).units = s.units) (o' : Nat) :
    Memory.span (m.modify o f) o' = m.span o' := by
  unfold span
  by_cases h : o' = o
  · rw [h, Heap.modify_self, Option.map_map]
    exact congrArg (Option.getD · 0) (congrArg (Option.map · (m o)) (funext hf))
  · rw [Heap.modify_of_ne m f h]

/-- A view of a span: the sequence it was taken at and the image it points to. -/
structure BorrowedAccount where
  offset : Nat
  version : UInt32
  side : Side
deriving DecidableEq, Repr

namespace BorrowedAccount

/-- `init`: a view of the active image. -/
def init (m : Memory) (offset : Nat) : BorrowedAccount :=
  let sequence := ((m offset).map Span.sequence).getD 0
  { offset, version := sequence, side := activeSide sequence }

def image (m : Memory) (b : BorrowedAccount) : OwnedAccount := ((m b.offset).map (·.image b.side)).getD {}

def capacity (m : Memory) (b : BorrowedAccount) : Nat := ((m b.offset).map Span.capacity).getD 0

theorem capacity_lt (m : Memory) (b : BorrowedAccount) : b.capacity m < 2 ^ 32 := by
  unfold capacity
  cases m b.offset with
  | none => decide
  | some s => exact Nat.mod_lt _ (by decide)

def write (m : Memory) (b : BorrowedAccount) (a : OwnedAccount) : Memory := m.modify b.offset (·.setImage b.side a)

/-- `translate`: copy the viewed image into the shadow and point to it. -/
def translate (m : Memory) (b : BorrowedAccount) : Memory × BorrowedAccount :=
  let shadow := !activeSide b.version
  if b.side = shadow then (m, b)
  else
    let b' := { b with side := shadow }
    (b'.write m (b.image m), b')

/-- `commit`: publish the shadow if the view points to it and nobody else published since. -/
def commit (m : Memory) (b : BorrowedAccount) : Memory :=
  if b.side ≠ !activeSide b.version then m
  else m.modify b.offset fun s => if s.sequence = b.version then { s with sequence := b.version + 1 } else s

/-- `rollback`: the sequence before. -/
def rollback (m : Memory) (b : BorrowedAccount) : Memory := m.modify b.offset Span.withdraw

end BorrowedAccount

end MagicEngine
