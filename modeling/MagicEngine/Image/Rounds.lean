import MagicEngine.Image.Mutators

/-!
# Rounds over two images

A round takes a fresh view of the active image, mutates it and ends: the shadow is published, published and withdrawn
again, or given up. Which image is active changes with every publication, and the shadow holds whatever an earlier round
left there.

A storage `Stores` an account when its active image holds it. Rounds keep this for the account of the last round that was
committed and not rolled back.
-/

namespace MagicEngine.Raw

open Codec

inductive Ending where
  | commit
  /-- `rollback` may be called only after the view has published. -/
  | rollback
  | reset
  | abandon
deriving DecidableEq, Repr

structure Round where
  mutators : List Mutator
  ending : Ending

/-- Apply the mutators in order; a mutator that fails does not stop the round. -/
def applyAll (buf : Buffer) (a : Account) : List Mutator → Option (Buffer × Account)
  | [] => some (buf, a)
  | mutator :: rest => do
    let (buf, a, _) ← mutator.apply buf a
    applyAll buf a rest

/-- What a view does at the end of a round: the storage it leaves, and the account if it committed one. -/
def BorrowedAccount.finish (b : BorrowedAccount) (buf : Buffer) (ending : Ending) :
    Option (Buffer × Option OwnedAccount) :=
  match ending with
  | .commit => do return (← b.commit buf, some (← b.toOwned buf))
  | .rollback => do
    let committed ← b.commit buf
    if (← committed.sequence) = (← buf.sequence) then return (committed, none) else return (← b.rollback committed, none)
  | .reset => do
    let _ ← b.reset buf
    return (buf, none)
  | .abandon => some (buf, none)

/-- An account that was moved to the heap has nothing to publish in this storage. -/
def Round.run (round : Round) (buf : Buffer) : Option (Buffer × Option OwnedAccount) := do
  let view ← BorrowedAccount.init buf
  let (buf, a) ← applyAll buf { cow := .borrowed view } round.mutators
  match a.cow with
  | .borrowed b => b.finish buf round.ending
  | .owned _ => return (buf, none)

/-- The storage after some rounds, and the account of the last one that was committed and not rolled back. -/
def runRounds (buf : Buffer) (last : OwnedAccount) : List Round → Option (Buffer × OwnedAccount)
  | [] => some (buf, last)
  | round :: rest => do
    let (buf, committed) ← round.run buf
    runRounds buf (committed.getD last) rest

def Stores (p : Parts) (account : OwnedAccount) : Prop := ∃ img : Image, p.image p.active = img.bytes ∧ img.account = account

def SameSpan (p p' : Parts) : Prop := p'.pubkey = p.pubkey ∧ p'.space = p.space

variable {p : Parts} {buf : Buffer} {a : Account} {v : AccountSharedData} {account : OwnedAccount}

theorem Represents.applyAll (h : Represents p buf a v) (mutators : List Mutator) :
    ∃ buf' a' v', Raw.applyAll buf a mutators = some (buf', a') ∧ Represents p buf' a' v' := by
  induction mutators generalizing buf a v with
  | nil => exact ⟨buf, a, v, rfl, h⟩
  | cons mutator rest ih =>
    obtain ⟨buf₁, a₁, happly, h₁⟩ := h.apply mutator
    obtain ⟨buf₂, a₂, v₂, hrest, h₂⟩ := ih h₁
    exact ⟨buf₂, a₂, v₂, by simp only [Raw.applyAll, happly, bind, Option.bind_some, hrest], h₂⟩

/-! ### Endings -/

theorem Stores.withShadow (h : Stores p account) {shadow : Bytes} (hlength : shadow.length = p.space * storageUnit) :
    Stores (p.withImage (!p.active) shadow hlength) account := by
  obtain ⟨img, himage, haccount⟩ := h
  exact ⟨img, (p.image_active hlength).trans himage, haccount⟩

/-- A view commits what it holds: nothing new if it is clean, and the shadow otherwise. -/
theorem Represents.commit {b : BorrowedAccount} {markers : DirtyMarkers} (h : Represents p buf ⟨.borrowed b, markers⟩ v) :
    b.toOwned buf = some v.account ∧
      ((buf = p.bytes ∧ Stores p v.account ∧ b.commit buf = some p.bytes) ∨
        ∃ shadow hlength, buf = (p.withImage (!p.active) shadow hlength).bytes ∧
          b.commit buf = some ((p.withImage (!p.active) shadow hlength).withSequence (p.sequence + 1)).bytes ∧
          Stores ((p.withImage (!p.active) shadow hlength).withSequence (p.sequence + 1)) v.account) := by
  obtain ⟨account, vmarkers⟩ := v
  have hholds := h.holds
  dsimp only at hholds
  cases hholds with
  | @borrowed _ img hviewed hclean =>
    obtain ⟨fits, rfl, hcore, hversion⟩ := hviewed
    refine ⟨BorrowedAccount.toOwned_filled hcore fits, ?_⟩
    by_cases hdirty : vmarkers.any
    · rw [hdirty, Bool.xor_true] at hcore ⊢
      refine .inr ⟨img.bytes, _, rfl, BorrowedAccount.commit_shadow hcore hversion, img, ?_, rfl⟩
      -- the next sequence selects the other side
      have hflips : activeSide (p.sequence + 1) = !p.active := activeSide_succ p.sequence
      change Function.update p.image (!p.active) img.bytes (activeSide (p.sequence + 1)) = img.bytes
      rw [hflips, Function.update_self]
    · rw [Bool.not_eq_true] at hdirty
      have himage := hclean hdirty
      rw [hdirty, Bool.xor_false] at hcore ⊢
      rw [p.filled_eq_self fits himage]
      exact .inl ⟨rfl, ⟨img, himage, rfl⟩, BorrowedAccount.commit_active hcore hversion⟩

variable {last : OwnedAccount}

theorem Stores.finish {b : BorrowedAccount} {markers : DirtyMarkers} (hlast : Stores p last)
    (h : Represents p buf ⟨.borrowed b, markers⟩ v) (ending : Ending) :
    ∃ p' committed, b.finish buf ending = some (Parts.bytes p', committed) ∧ SameSpan p p' ∧
      Stores p' (committed.getD last) := by
  obtain ⟨howned, hcommit⟩ := h.commit
  cases ending with
  | commit =>
    simp only [BorrowedAccount.finish, howned, bind, Option.bind_some, pure]
    rcases hcommit with ⟨-, hstores, hcommit⟩ | ⟨shadow, hlength, -, hcommit, hstores⟩
    · exact ⟨p, some v.account, by rw [hcommit, Option.bind_some], ⟨rfl, rfl⟩, hstores⟩
    · exact ⟨(p.withImage (!p.active) shadow hlength).withSequence (p.sequence + 1), some v.account,
        by rw [hcommit, Option.bind_some], ⟨rfl, rfl⟩, hstores⟩
  | rollback =>
    simp only [BorrowedAccount.finish, bind, pure]
    rcases hcommit with ⟨rfl, -, hcommit⟩ | ⟨shadow, hlength, rfl, hcommit, -⟩
    · exact ⟨p, none, by simp [hcommit, p.sequence_bytes], ⟨rfl, rfl⟩, hlast⟩
    · have hne : p.sequence + 1 ≠ p.sequence := by grind
      have hback : p.sequence + 1 - 1 = p.sequence := by grind
      have hbefore : Buffer.sequence (p.withImage (!p.active) shadow hlength).bytes = some p.sequence :=
        Parts.sequence_bytes _
      have hafter := ((p.withImage (!p.active) shadow hlength).withSequence (p.sequence + 1)).sequence_bytes
      have hrollback := b.rollback_bytes ((p.withImage (!p.active) shadow hlength).withSequence (p.sequence + 1))
      refine ⟨p.withImage (!p.active) shadow hlength, none, ?_, ⟨rfl, rfl⟩, hlast.withShadow hlength⟩
      simp only [hcommit, hbefore, hafter, hrollback, Option.bind_some]
      refine (if_neg hne).trans ?_
      have hsame : ((p.withImage (!p.active) shadow hlength).withSequence (p.sequence + 1)).withSequence
          (p.sequence + 1 - 1) = p.withImage (!p.active) shadow hlength := by
        rw [hback]
        rfl
      exact congrArg (fun q => some (Parts.bytes q, none)) hsame
  | reset =>
    obtain ⟨shadow, hlength, rfl⟩ := h.bytes
    refine ⟨p.withImage (!p.active) shadow hlength, none, ?_, ⟨rfl, rfl⟩, hlast.withShadow hlength⟩
    simp only [BorrowedAccount.finish, BorrowedAccount.reset, BorrowedAccount.init_bytes, bind, Option.bind_some, pure]
  | abandon =>
    obtain ⟨shadow, hlength, rfl⟩ := h.bytes
    exact ⟨p.withImage (!p.active) shadow hlength, none, rfl, ⟨rfl, rfl⟩, hlast.withShadow hlength⟩

/-! ### Rounds -/

theorem Stores.run (hlast : Stores p last) (round : Round) :
    ∃ p' committed, round.run p.bytes = some (Parts.bytes p', committed) ∧ SameSpan p p' ∧
      Stores p' (committed.getD last) := by
  obtain ⟨img, himage, -⟩ := id hlast
  obtain ⟨buf, ⟨cow, markers⟩, v, happly, h⟩ := (Represents.init himage).applyAll round.mutators
  simp only [Round.run, BorrowedAccount.init_bytes, happly, bind, Option.bind_some]
  cases cow with
  | borrowed b => exact hlast.finish h round.ending
  | owned a =>
    obtain ⟨shadow, hlength, rfl⟩ := h.bytes
    exact ⟨p.withImage (!p.active) shadow hlength, none, rfl, ⟨rfl, rfl⟩, hlast.withShadow hlength⟩

theorem Stores.runRounds (hlast : Stores p last) (rounds : List Round) :
    ∃ p' last', Raw.runRounds p.bytes last rounds = some (Parts.bytes p', last') ∧ SameSpan p p' ∧ Stores p' last' := by
  induction rounds generalizing p last with
  | nil => exact ⟨p, last, rfl, ⟨rfl, rfl⟩, hlast⟩
  | cons round rest ih =>
    obtain ⟨p₁, committed, hrun, hspan₁, hstores₁⟩ := hlast.run round
    obtain ⟨p₂, last₂, hrest, hspan₂, hstores₂⟩ := ih hstores₁
    refine ⟨p₂, last₂, ?_, ⟨hspan₂.1.trans hspan₁.1, hspan₂.2.trans hspan₁.2⟩, hstores₂⟩
    simp only [Raw.runRounds, hrun, bind, Option.bind_some, hrest]

/-- The storage has the size, the pubkey and the span that were serialized. -/
structure Intact (buf : Buffer) (pubkey : Pubkey) (units : Nat) : Prop where
  length : buf.length = units * storageUnit
  stored : buf.pubkey = some pubkey
  span : buf.span = some units

theorem Parts.intact (p : Parts) : Intact p.bytes p.pubkey (p.space * 2 + imageOffset) where
  length := by
    rw [p.bytes_eq true, List.length_append, List.length_append, p.length_before, p.length_image]
    simp only [start, after, storageUnit, if_true, List.length_nil, Bool.toNat_true]
    omega
  stored := p.pubkey_bytes
  span := by
    have := p.maximum
    unfold storageUnit staticSize at this
    rw [Buffer.span, p.space_bytes, Option.map_some, Nat.mod_eq_of_lt (by unfold imageOffset; omega)]

/-- A fresh view is of the account, and no mutator changes a byte of the image it shows, which is the active one. -/
structure Shows (buf : Buffer) (account : OwnedAccount) (pubkey : Pubkey) (units : Nat) : Prop
    extends Intact buf pubkey units where
  view : ∃ view space, BorrowedAccount.init buf = some view ∧ buf.space = some space ∧ view.toOwned buf = some account ∧
    ∀ mutators, ∃ buf' a, applyAll buf { cow := .borrowed view } mutators = some (buf', a) ∧ Intact buf' pubkey units ∧
      Storage.read buf' view.core (space * storageUnit) = Storage.read buf view.core (space * storageUnit)

theorem Stores.shows (h : Stores p account) : Shows p.bytes account p.pubkey (p.space * 2 + imageOffset) := by
  obtain ⟨img, himage, rfl⟩ := h
  have hfresh := Represents.init himage
  refine ⟨p.intact, _, p.space, BorrowedAccount.init_bytes p, p.space_bytes, hfresh.commit.1, fun mutators => ?_⟩
  obtain ⟨buf', a, v, happly, hafter⟩ := hfresh.applyAll mutators
  obtain ⟨shadow, hlength, rfl⟩ := hafter.bytes
  refine ⟨_, a, happly, (p.withImage (!p.active) shadow hlength).intact, ?_⟩
  exact ((p.withImage (!p.active) shadow hlength).read_whole p.active).trans
    ((congrArg some (p.image_active hlength)).trans (p.read_whole p.active).symm)

/-- After any rounds over a serialized account, a fresh view shows the account of the last round that was committed and
not rolled back, no access was outside the storage, and nothing but a commit reaches what the view shows. -/
theorem active_image_isolated (account : OwnedAccount) (pubkey : Pubkey) (buf : Buffer) (rounds : List Round)
    (haccount : Serializable account) (hbuf : buf.length = unitsOf account * storageUnit) :
    ∃ stored after last, serialize account buf pubkey = some stored ∧ runRounds stored account rounds = some (after, last) ∧
      Shows after last pubkey (unitsOf account) := by
  obtain ⟨p, img, hserialize, -, rfl, hunits, himage, haccount⟩ := serialize_parts pubkey haccount hbuf
  have hstores : Stores p account := ⟨img, himage, haccount⟩
  obtain ⟨p', last, hrun, ⟨hpubkey, hspace⟩, hlast⟩ := hstores.runRounds rounds
  have hshows := hlast.shows
  rw [hpubkey, hspace, hunits] at hshows
  exact ⟨p.bytes, p'.bytes, last, hserialize, hrun, hshows⟩

/-- A round that is withdrawn, one that commits and one that outgrows the storage. -/
theorem active_image_isolated_rounds :
    Serializable { data := [1, 2, 3] } ∧
    ∃ stored after last, serialize { data := [1, 2, 3] } (List.replicate 184 0) ⟨7⟩ = some stored ∧
      runRounds stored { data := [1, 2, 3] } [⟨[.setLamports 5], .rollback⟩, ⟨[.setDataAt 1 [9]], .commit⟩,
        ⟨[.extendFromSlice [4, 5, 6, 7, 8, 9]], .commit⟩] = some (after, last) ∧
      Shows after last ⟨7⟩ (unitsOf { data := [1, 2, 3] }) := by
  have haccount : Serializable { data := [1, 2, 3] } := by decide
  exact ⟨haccount, active_image_isolated _ ⟨7⟩ _ _ haccount (by rw [List.length_replicate]; decide)⟩

/-- With 4 GiB of data a fresh view of the serialized account is of an empty one. -/
theorem long_account_not_shown : ∃ account : OwnedAccount, account.data.length = 2 ^ 32 ∧ ∃ stored view,
    serialize account (List.replicate (unitsOf account * storageUnit) 0) ⟨7⟩ = some stored ∧
    runRounds stored account [] = some (stored, account) ∧ BorrowedAccount.init stored = some view ∧
    view.data stored = some [] := by
  obtain ⟨account, hlength⟩ := exists_long_account
  obtain ⟨stored, view, hserialize, hinit, hdata, -⟩ := data_lost hlength ⟨7⟩
  exact ⟨account, hlength, stored, view, hserialize, rfl, hinit, hdata⟩

end MagicEngine.Raw
