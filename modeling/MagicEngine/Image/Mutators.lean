import MagicEngine.Image.Borrowed

/-!
# Borrowed and owned accounts

The mutators of `AccountSharedData` (`solana/account/src/cow/mod.rs` and `traits.rs`) over raw storage. A borrowed
account copies the active image into the shadow before its first change and writes there; data that outgrows the image
moves the account to the heap.

A raw account `Represents` an account value when it reads as that value and has touched nothing but the shadow image.
Every mutator takes a representation of a value to one of the mutated value, whatever form it is in, so borrowed and owned
accounts cannot be told apart.
-/

namespace MagicEngine.Raw

open Codec

inductive CoWAccount where
  | borrowed (b : BorrowedAccount)
  | owned (a : OwnedAccount)

structure Account where
  cow : CoWAccount
  markers : DirtyMarkers := {}

inductive MutatorError where
  /-- A slice that is too long. -/
  | panic
  | patch (e : AccountPatchError)
deriving DecidableEq, Repr

namespace Account

def core (a : Account) (buf : Buffer) : Option AccountCore :=
  match a.cow with
  | .borrowed b => b.readCore buf
  | .owned o => some o.core

def data (a : Account) (buf : Buffer) : Option Bytes :=
  match a.cow with
  | .borrowed b => b.data buf
  | .owned o => some o.data

/-- `translate`: before the first change. -/
def translate (a : Account) (buf : Buffer) : Option (Buffer × Account) :=
  if a.markers.any then some (buf, a)
  else
    match a.cow with
    | .borrowed b => do
      let (buf, b) ← b.translate buf
      return (buf, { a with cow := .borrowed b })
    | .owned _ => some (buf, a)

def mark (a : Account) (f : DirtyMarkers → DirtyMarkers) : Account := { a with markers := f a.markers }

/-- `translate` and set markers. -/
def touch (a : Account) (f : DirtyMarkers → DirtyMarkers) (buf : Buffer) : Option (Buffer × Account) := do
  let (buf, a) ← a.translate buf
  return (buf, a.mark f)

def writeField {α : Type} (a : Account) (field : CoreField α) (value : α) (buf : Buffer) : Option (Buffer × Account) :=
  match a.cow with
  | .borrowed b => do
    let buf ← b.writeField field value buf
    return (buf, a)
  | .owned o => some (buf, { a with cow := .owned { o with core := field.set value o.core } })

/-! ### Storage of the data -/

def promote (a : Account) (buf : Buffer) : Option Account :=
  match a.cow with
  | .borrowed b => do return { a with cow := .owned (← b.toOwned buf) }
  | .owned _ => some a

/-- `CoWAccount::reserve`; spare room on the heap does not show. -/
def reserve (a : Account) (additional : Nat) (buf : Buffer) : Option Account :=
  match a.cow with
  | .borrowed b => do
    if additional ≤ (← b.capacity buf) - (← b.len buf) then return a else a.promote buf
  | .owned _ => some a

def change (a : Account) (inStorage : BorrowedAccount → Buffer → Option Buffer) (onHeap : Bytes → Bytes) (buf : Buffer) :
    Option (Buffer × Account) :=
  match a.cow with
  | .borrowed b => do
    let buf ← inStorage b buf
    return (buf, a)
  | .owned o => some (buf, { a with cow := .owned { o with data := onHeap o.data } })

/-- Stay in storage only while `len` bytes fit. -/
def fit (a : Account) (len : Nat) (buf : Buffer) : Option Account :=
  match a.cow with
  | .borrowed b => do
    if len ≤ (← b.capacity buf) then return a else a.promote buf
  | .owned _ => some a

def resizeData (a : Account) (len : Nat) (val : UInt8) (buf : Buffer) : Option (Buffer × Account) := do
  let a ← a.fit len buf
  a.change (·.resize len val) (fun data => data.take len ++ List.replicate (len - data.length) val) buf

def extendData (a : Account) (bytes : Bytes) (buf : Buffer) : Option (Buffer × Account) := do
  let a ← a.reserve bytes.length buf
  a.change (·.extend bytes) (· ++ bytes) buf

def setData (a : Account) (bytes : Bytes) (buf : Buffer) : Option (Buffer × Account) := do
  let a ← a.reserve (bytes.length - (← a.data buf).length) buf
  a.change (·.set bytes) (fun _ => bytes) buf

/-! ### Mutators -/

def markData (markers : DirtyMarkers) : DirtyMarkers := { markers with data := true }

/-- The setter of a field does nothing if the value is there already. -/
def setField {α : Type} [DecidableEq α] (a : Account) (field : CoreField α) (f : DirtyMarkers → DirtyMarkers)
    (value : α) (buf : Buffer) : Option (Buffer × Account) := do
  if field.get (← a.core buf) = value then return (buf, a)
  let (buf, a) ← a.touch f buf
  a.writeField field value buf

def setLamports (a : Account) (lamports : UInt64) (buf : Buffer) : Option (Buffer × Account) :=
  a.setField .lamports ({ · with lamports := true }) lamports buf

def setOwner (a : Account) (owner : Pubkey) (buf : Buffer) : Option (Buffer × Account) :=
  a.setField .owner ({ · with owner := true }) owner buf

def setFlags (a : Account) (flags : StateFlags) (buf : Buffer) : Option (Buffer × Account) :=
  a.setField .flags ({ · with flags := true }) flags buf

def setExecutable (a : Account) (executable : Bool) (buf : Buffer) : Option (Buffer × Account) := do
  a.setFlags ((← a.core buf).flags.setExecutable executable) buf

def setCommitSeq (a : Account) (commitSeq : UInt32) (buf : Buffer) : Option (Buffer × Account) :=
  a.setField .commitSeq ({ · with commitSeq := true }) commitSeq buf

/-- `copy_into_owner_from_slice` marks the owner and panics on a slice of another length. -/
def copyIntoOwnerFromSlice (a : Account) (source : Bytes) (buf : Buffer) :
    Option (Buffer × Account × Except MutatorError Unit) := do
  let (buf, a) ← a.touch ({ · with owner := true }) buf
  if source.length = 32 then
    let (buf, a) ← a.writeField .owner (Pubkey.ofBytes source) buf
    return (buf, a, .ok ())
  else return (buf, a, .error .panic)

def assignMode (a : Account) (current mode : AccountMode) (buf : Buffer) : Option (Buffer × Account) :=
  if current ≠ mode then (a.mark ({ · with mode := true })).writeField .mode mode buf else some (buf, a)

/-- `set_lifecycle`: validated before anything is touched. -/
def setLifecycle (a : Account) (mode : AccountMode) (slot : UInt64) (buf : Buffer) :
    Option (Buffer × Account × Except MutatorError Unit) := do
  let core ← a.core buf
  match core.mode.validateTransition mode core.slot slot.toNat with
  | .error e => return (buf, a, .error (.patch e))
  | .ok () =>
    let (buf, a) ← a.translate buf
    let (buf, a) ← a.assignMode core.mode mode buf
    let (buf, a) ← (a.mark ({ · with slot := true })).writeField .slot slot.toNat buf
    return (buf, a, .ok ())

def resize (a : Account) (len : Nat) (val : UInt8) (buf : Buffer) : Option (Buffer × Account) := do
  let (buf, a) ← a.touch markData buf
  a.resizeData len val buf

def extendFromSlice (a : Account) (bytes : Bytes) (buf : Buffer) : Option (Buffer × Account) := do
  let (buf, a) ← a.touch markData buf
  a.extendData bytes buf

def setDataFromSlice (a : Account) (bytes : Bytes) (buf : Buffer) : Option (Buffer × Account) := do
  let (buf, a) ← a.touch markData buf
  a.setData bytes buf

/-- `data_as_mut_slice()[offset..offset + bytes.len()].copy_from_slice(bytes)`. -/
def copyIntoSlice (a : Account) (offset : Nat) (bytes : Bytes) (buf : Buffer) :
    Option (Buffer × Account × Except MutatorError Unit) := do
  let (buf, a) ← a.touch markData buf
  if offset + bytes.length ≤ (← a.data buf).length then
    let (buf, a) ← a.change (·.storeData offset bytes)
      (fun data => data.take offset ++ bytes ++ data.drop (offset + bytes.length)) buf
    return (buf, a, .ok ())
  else return (buf, a, .error .panic)

def fillGap (a : Account) (offset : Nat) (buf : Buffer) : Option (Buffer × Account) := do
  if (← a.data buf).length < offset then a.resize offset 0 buf else some (buf, a)

/-- `set_data_at`: fill the gap, write the overlap in place and append the rest. -/
def setDataAt (a : Account) (offset : Nat) (bytes : Bytes) (buf : Buffer) :
    Option (Buffer × Account × Except MutatorError Unit) := do
  let (buf, a) ← a.touch markData buf
  let (buf, a) ← a.fillGap offset buf
  let n := min ((← a.data buf).length - offset) bytes.length
  let (buf, a, result) ← a.copyIntoSlice offset (bytes.take n) buf
  match result with
  | .error e => return (buf, a, .error e)
  | .ok () =>
    let (buf, a) ← a.extendFromSlice (bytes.drop n) buf
    return (buf, a, .ok ())

end Account

inductive Mutator where
  | setLamports (lamports : UInt64)
  | setOwner (owner : Pubkey)
  | copyIntoOwnerFromSlice (source : Bytes)
  | setFlags (flags : StateFlags)
  | setExecutable (executable : Bool)
  | setCommitSeq (commitSeq : UInt32)
  | setLifecycle (mode : AccountMode) (slot : UInt64)
  | resize (len : Nat) (val : UInt8)
  | extendFromSlice (bytes : Bytes)
  | setDataFromSlice (bytes : Bytes)
  | setDataAt (offset : Nat) (bytes : Bytes)
  | copyIntoSlice (offset : Nat) (bytes : Bytes)
  | reserve (additional : Nat)
deriving DecidableEq, Repr

namespace Mutator

private def succeeds (step : Option (Buffer × Account)) : Option (Buffer × Account × Except MutatorError Unit) :=
  step.map fun (buf, a) => (buf, a, .ok ())

def apply (mutator : Mutator) (buf : Buffer) (a : Account) : Option (Buffer × Account × Except MutatorError Unit) :=
  match mutator with
  | .setLamports lamports => succeeds (a.setLamports lamports buf)
  | .setOwner owner => succeeds (a.setOwner owner buf)
  | .copyIntoOwnerFromSlice source => a.copyIntoOwnerFromSlice source buf
  | .setFlags flags => succeeds (a.setFlags flags buf)
  | .setExecutable executable => succeeds (a.setExecutable executable buf)
  | .setCommitSeq commitSeq => succeeds (a.setCommitSeq commitSeq buf)
  | .setLifecycle mode slot => a.setLifecycle mode slot buf
  | .resize len val => succeeds (a.resize len val buf)
  | .extendFromSlice bytes => succeeds (a.extendFromSlice bytes buf)
  | .setDataFromSlice bytes => succeeds (a.setDataFromSlice bytes buf)
  | .setDataAt offset bytes => a.setDataAt offset bytes buf
  | .copyIntoSlice offset bytes => a.copyIntoSlice offset bytes buf
  | .reserve additional => succeeds ((a.reserve additional buf).map (buf, ·))

def value (mutator : Mutator) (v : AccountSharedData) : AccountSharedData × Except MutatorError Unit :=
  match mutator with
  | .setLamports lamports => (v.setLamports lamports, .ok ())
  | .setOwner owner => (v.setOwner owner, .ok ())
  | .copyIntoOwnerFromSlice source =>
    if source.length = 32 then (v.copyIntoOwner (Pubkey.ofBytes source), .ok ())
    else ({ v with markers := { v.markers with owner := true } }, .error .panic)
  | .setFlags flags => (v.setFlags flags, .ok ())
  | .setExecutable executable => (v.setExecutable executable, .ok ())
  | .setCommitSeq commitSeq => (v.setCommitSeq commitSeq, .ok ())
  | .setLifecycle mode slot =>
    match v.setLifecycle mode slot.toNat with
    | .error e => (v, .error (.patch e))
    | .ok v' => (v', .ok ())
  | .resize len val => (v.resize len val, .ok ())
  | .extendFromSlice bytes => (v.extendFromSlice bytes, .ok ())
  | .setDataFromSlice bytes => (v.setDataFromSlice bytes, .ok ())
  | .setDataAt offset bytes => (v.setDataAt offset bytes, .ok ())
  | .copyIntoSlice offset bytes =>
    if offset + bytes.length ≤ v.data.length then
      (v.withData (v.data.take offset ++ bytes ++ v.data.drop (offset + bytes.length)), .ok ())
    else (v.withData v.data, .error .panic)
  | .reserve _ => (v, .ok ())

end Mutator

/-! ### Representations -/

/-- A view of the image at `side`, in a storage that differs from `p` only there. -/
structure Viewed (p : Parts) (side : Bool) (buf : Buffer) (b : BorrowedAccount) (img : Image) : Prop where
  fits : img.room.length = p.capacity
  bytes : buf = (p.filled side img fits).bytes
  core : b.core = p.start side
  version : b.version = p.sequence

/-- The storage differs from `p` at most in the shadow. An account of the heap is the value; a view is one of the shadow
if the account is dirty, and of the active image, which nothing has changed, if it is clean. -/
inductive Holds (p : Parts) (buf : Buffer) (dirty : Bool) : CoWAccount → OwnedAccount → Prop
  | owned {a : OwnedAccount} (shadow : Bytes) (hlength : shadow.length = p.space * storageUnit)
      (hbytes : buf = (p.withImage (!p.active) shadow hlength).bytes) : Holds p buf dirty (.owned a) a
  | borrowed {b : BorrowedAccount} {img : Image} (hviewed : Viewed p (p.active ^^ dirty) buf b img)
      (hclean : dirty = false → p.image p.active = img.bytes) : Holds p buf dirty (.borrowed b) img.account

/-- `a` reads as `v`. -/
structure Represents (p : Parts) (buf : Buffer) (a : Account) (v : AccountSharedData) : Prop where
  markers : a.markers = v.markers
  holds : Holds p buf v.markers.any a.cow v.account

variable {p : Parts} {buf : Buffer} {a : Account} {v : AccountSharedData}

namespace Represents

section

variable (h : Represents p buf a v)

include h

theorem core : a.core buf = some v.core := by
  obtain ⟨cow, markers⟩ := a
  obtain ⟨account, vmarkers⟩ := v
  cases h.holds with
  | owned => rfl
  | borrowed hviewed =>
    obtain ⟨fits, rfl, hcore, -⟩ := hviewed
    exact BorrowedAccount.readCore_filled hcore fits

theorem data : a.data buf = some v.data := by
  obtain ⟨cow, markers⟩ := a
  obtain ⟨account, vmarkers⟩ := v
  cases h.holds with
  | owned => rfl
  | borrowed hviewed =>
    obtain ⟨fits, rfl, hcore, -⟩ := hviewed
    exact BorrowedAccount.data_filled hcore fits

omit h in
theorem of_shadow {b : BorrowedAccount} {markers : DirtyMarkers} {account : OwnedAccount} (img : Image)
    (fits : img.room.length = p.capacity) (hcore : b.core = p.start (!p.active)) (hversion : b.version = p.sequence)
    (hdirty : markers.any) (haccount : img.account = account) :
    Represents p (p.filled (!p.active) img fits).bytes ⟨.borrowed b, markers⟩ ⟨account, markers⟩ := by
  refine ⟨rfl, ?_⟩
  dsimp only
  rw [hdirty, ← haccount]
  exact .borrowed ⟨fits, by rw [Bool.xor_true], by rwa [Bool.xor_true], hversion⟩ nofun

theorem translate : ∃ buf' a', a.translate buf = some (buf', a') ∧
    ∀ f : DirtyMarkers → DirtyMarkers, (f v.markers).any →
      Represents p buf' (a'.mark f) { v with markers := f v.markers } := by
  obtain ⟨cow, markers⟩ := a
  obtain ⟨account, vmarkers⟩ := v
  obtain ⟨hmarkers, hholds⟩ := h
  dsimp only at hmarkers hholds ⊢
  subst hmarkers
  unfold Account.translate
  by_cases hdirty : markers.any
  · rw [if_pos hdirty]
    refine ⟨buf, _, rfl, fun f hf => ⟨rfl, ?_⟩⟩
    rw [hdirty] at hholds
    exact hf ▸ hholds
  · rw [if_neg hdirty]
    rw [Bool.not_eq_true] at hdirty
    rw [hdirty] at hholds
    cases hholds with
    | owned shadow hlength hbytes => exact ⟨buf, _, rfl, fun f hf => ⟨rfl, .owned shadow hlength hbytes⟩⟩
    | @borrowed b img hviewed hclean =>
      -- the active image is copied
      obtain ⟨fits, rfl, hcore, hversion⟩ := hviewed
      have himage := hclean rfl
      rw [Bool.xor_false] at hcore ⊢
      rw [p.filled_eq_self fits himage]
      have htranslate := BorrowedAccount.translate_bytes hcore hversion
      refine ⟨(p.filled (!p.active) img fits).bytes, ⟨.borrowed { b with core := p.start (!p.active) }, markers⟩, ?_, ?_⟩
      · simp only [htranslate, bind, Option.bind_some, pure, Parts.filled, himage]
      · intro f hf
        exact of_shadow img fits rfl hversion hf rfl

theorem touch (f : DirtyMarkers → DirtyMarkers) (hf : (f v.markers).any) :
    ∃ buf' a', a.touch f buf = some (buf', a') ∧ Represents p buf' a' { v with markers := f v.markers } := by
  obtain ⟨buf', a', htranslate, hmarked⟩ := h.translate
  exact ⟨buf', a'.mark f, by simp [Account.touch, htranslate], hmarked f hf⟩

theorem mark (hdirty : v.markers.any) (f : DirtyMarkers → DirtyMarkers)
    (hf : (f v.markers).any) : Represents p buf (a.mark f) { v with markers := f v.markers } := by
  refine ⟨congrArg f h.markers, ?_⟩
  have hholds := h.holds
  rw [hdirty] at hholds
  exact hf ▸ hholds

theorem writeField {α : Type} (hdirty : v.markers.any) (field : CoreField α) (value : α)
    (hslot : v.core.slot < 2 ^ 64 → (field.set value v.core).slot < 2 ^ 64) :
    ∃ buf' a', a.writeField field value buf = some (buf', a') ∧
      Represents p buf' a' { v with account := { v.account with core := field.set value v.core } } := by
  obtain ⟨cow, markers⟩ := a
  obtain ⟨account, vmarkers⟩ := v
  obtain ⟨hmarkers, hholds⟩ := h
  dsimp only at hmarkers hholds hdirty ⊢
  rw [hdirty] at hholds
  cases hholds with
  | @owned o shadow hlength hbytes =>
    exact ⟨buf, _, rfl, hmarkers, .owned shadow hlength hbytes⟩
  | @borrowed b img hviewed hclean =>
    rw [Bool.xor_true] at hviewed
    obtain ⟨fits, rfl, hcore, hversion⟩ := hviewed
    have hwrite := BorrowedAccount.writeField_filled hcore fits field value (hslot img.slot_lt)
    refine ⟨_, ⟨.borrowed b, markers⟩, by simp only [Account.writeField, hwrite, bind, Option.bind_some, pure]; rfl, ?_⟩
    subst hmarkers
    exact of_shadow (img.withCore _ (hslot img.slot_lt)) fits hcore hversion hdirty rfl

theorem bytes :
    ∃ shadow hlength, buf = (p.withImage (!p.active) shadow hlength).bytes := by
  obtain ⟨cow, markers⟩ := a
  obtain ⟨account, vmarkers⟩ := v
  have hholds := h.holds
  dsimp only at hholds
  cases hholds with
  | owned shadow hlength hbytes => exact ⟨shadow, hlength, hbytes⟩
  | @borrowed b img hviewed hclean =>
    obtain ⟨fits, rfl, hcore, hversion⟩ := hviewed
    by_cases hdirty : vmarkers.any
    · rw [hdirty, Bool.xor_true]
      exact ⟨img.bytes, _, rfl⟩
    · rw [Bool.not_eq_true] at hdirty
      rw [hdirty, Bool.xor_false, p.filled_eq_self fits (hclean hdirty)]
      exact ⟨p.image (!p.active), p.length_image _, by rw [p.withImage_self]⟩

theorem promote :
    ∃ a', a.promote buf = some a' ∧ Represents p buf a' v ∧ ∀ b, a'.cow ≠ .borrowed b := by
  obtain ⟨shadow, hlength, hbytes⟩ := h.bytes
  obtain ⟨cow, markers⟩ := a
  obtain ⟨account, vmarkers⟩ := v
  obtain ⟨hmarkers, hholds⟩ := h
  dsimp only at hmarkers hholds ⊢
  cases hholds with
  | owned => exact ⟨_, rfl, ⟨hmarkers, .owned shadow hlength hbytes⟩, nofun⟩
  | @borrowed b img hviewed hclean =>
    obtain ⟨fits, rfl, hcore, hversion⟩ := hviewed
    refine ⟨⟨.owned img.account, markers⟩, ?_, ⟨hmarkers, .owned shadow hlength hbytes⟩, nofun⟩
    simp [Account.promote, BorrowedAccount.toOwned_filled hcore fits]

theorem fit (len : Nat) :
    ∃ a', a.fit len buf = some a' ∧ Represents p buf a' v ∧ ∀ b, a'.cow = .borrowed b → len ≤ p.capacity := by
  have hpromote := h.promote
  obtain ⟨cow, markers⟩ := a
  obtain ⟨account, vmarkers⟩ := v
  have hholds := h.holds
  dsimp only at hholds
  cases hholds with
  | owned => exact ⟨_, rfl, h, nofun⟩
  | @borrowed b img hviewed hclean =>
    obtain ⟨fits, rfl, hcore, hversion⟩ := hviewed
    simp only [Account.fit, BorrowedAccount.capacity_filled hcore fits, bind, Option.bind_some]
    by_cases hle : len ≤ p.capacity
    · exact ⟨_, if_pos hle, h, fun _ _ => hle⟩
    · obtain ⟨a', hsome, hrepresents, hheap⟩ := hpromote
      exact ⟨a', (if_neg hle).trans hsome, hrepresents, fun b hb => absurd hb (hheap b)⟩

theorem reserve (additional : Nat) :
    ∃ a', a.reserve additional buf = some a' ∧ Represents p buf a' v ∧
      ∀ b, a'.cow = .borrowed b → v.data.length + additional ≤ p.capacity := by
  have hpromote := h.promote
  obtain ⟨cow, markers⟩ := a
  obtain ⟨account, vmarkers⟩ := v
  have hholds := h.holds
  dsimp only at hholds
  cases hholds with
  | owned => exact ⟨_, rfl, h, nofun⟩
  | @borrowed b img hviewed hclean =>
    obtain ⟨fits, rfl, hcore, hversion⟩ := hviewed
    have hlen : img.len ≤ p.capacity := fits ▸ img.len_le
    have hdata : img.account.data.length = img.len := img.length_data
    simp only [Account.reserve, BorrowedAccount.capacity_filled hcore fits, BorrowedAccount.len_filled hcore fits, bind,
      Option.bind_some, AccountSharedData.data]
    by_cases hle : additional ≤ p.capacity - img.len
    · exact ⟨_, if_pos hle, h, fun _ _ => by omega⟩
    · obtain ⟨a', hsome, hrepresents, hheap⟩ := hpromote
      exact ⟨a', (if_neg hle).trans hsome, hrepresents, fun b hb => absurd hb (hheap b)⟩

theorem change (hdirty : v.markers.any)
    (inStorage : BorrowedAccount → Buffer → Option Buffer) (onHeap : Bytes → Bytes)
    (hstorage : ∀ b img fits, a.cow = .borrowed b → v.account = img.account → b.core = p.start (!p.active) →
      ∃ img' fits', inStorage b (p.filled (!p.active) img fits).bytes = some (p.filled (!p.active) img' fits').bytes ∧
        img'.account = { img.account with data := onHeap img.account.data }) :
    ∃ buf' a', a.change inStorage onHeap buf = some (buf', a') ∧
      Represents p buf' a' { v with account := { v.account with data := onHeap v.data } } := by
  obtain ⟨cow, markers⟩ := a
  obtain ⟨account, vmarkers⟩ := v
  obtain ⟨hmarkers, hholds⟩ := h
  dsimp only at hmarkers hholds hdirty hstorage ⊢
  rw [hdirty] at hholds
  cases hholds with
  | owned shadow hlength hbytes => exact ⟨buf, _, rfl, hmarkers, .owned shadow hlength hbytes⟩
  | @borrowed b img hviewed hclean =>
    rw [Bool.xor_true] at hviewed
    obtain ⟨fits, rfl, hcore, hversion⟩ := hviewed
    obtain ⟨img', fits', hchange, haccount⟩ := hstorage b img fits rfl rfl hcore
    refine ⟨_, ⟨.borrowed b, markers⟩, by simp only [Account.change, hchange, bind, Option.bind_some, pure]; rfl, ?_⟩
    subst hmarkers
    exact of_shadow img' fits' hcore hversion hdirty haccount

/-! ### Every mutator keeps the representation -/

theorem resizeData (hdirty : v.markers.any) (len : Nat) (val : UInt8) :
    ∃ buf' a', a.resizeData len val buf = some (buf', a') ∧ Represents p buf' a'
      { v with account := { v.account with data := v.data.take len ++ List.replicate (len - v.data.length) val } } := by
  obtain ⟨a', hfit, hrepresents, hcapacity⟩ := h.fit len
  obtain ⟨buf', a'', hchange, hafter⟩ := hrepresents.change hdirty (·.resize len val)
    (fun data => data.take len ++ List.replicate (len - data.length) val)
    fun b img fits hcow _ hcore => BorrowedAccount.resize_filled hcore fits val (hcapacity b hcow)
  exact ⟨buf', a'', by simpa only [Account.resizeData, hfit, bind, Option.bind_some] using hchange, hafter⟩

theorem extendData (hdirty : v.markers.any) (bytes : Bytes) :
    ∃ buf' a', a.extendData bytes buf = some (buf', a') ∧
      Represents p buf' a' { v with account := { v.account with data := v.data ++ bytes } } := by
  obtain ⟨a', hreserve, hrepresents, hcapacity⟩ := h.reserve bytes.length
  obtain ⟨buf', a'', hchange, hafter⟩ := hrepresents.change hdirty (·.extend bytes) (· ++ bytes)
    fun b img fits hcow haccount hcore => BorrowedAccount.extend_filled hcore fits (haccount ▸ hcapacity b hcow)
  exact ⟨buf', a'', by simpa only [Account.extendData, hreserve, bind, Option.bind_some] using hchange, hafter⟩

theorem setData (hdirty : v.markers.any) (bytes : Bytes) :
    ∃ buf' a', a.setData bytes buf = some (buf', a') ∧
      Represents p buf' a' { v with account := { v.account with data := bytes } } := by
  obtain ⟨a', hreserve, hrepresents, hcapacity⟩ := h.reserve (bytes.length - v.data.length)
  obtain ⟨buf', a'', hchange, hafter⟩ := hrepresents.change hdirty (·.set bytes) (fun _ => bytes)
    fun b img fits hcow _ hcore => BorrowedAccount.set_filled hcore fits (by have := hcapacity b hcow; omega)
  exact ⟨buf', a'', by simpa only [Account.setData, h.data, hreserve, bind, Option.bind_some] using hchange, hafter⟩

theorem touchData :
    ∃ buf' a', a.touch Account.markData buf = some (buf', a') ∧ Represents p buf' a' (v.withData v.data) :=
  h.touch Account.markData (by simp [Account.markData, DirtyMarkers.any])

omit h in
private theorem any_withData (v : AccountSharedData) (data : Bytes) : (v.withData data).markers.any := by
  simp [AccountSharedData.withData, DirtyMarkers.any]

theorem resize (len : Nat) (val : UInt8) :
    ∃ buf' a', a.resize len val buf = some (buf', a') ∧ Represents p buf' a' (v.resize len val) := by
  obtain ⟨buf₁, a₁, htouch, h₁⟩ := h.touchData
  obtain ⟨buf₂, a₂, hresize, h₂⟩ := h₁.resizeData (any_withData v _) len val
  exact ⟨buf₂, a₂, by simpa only [Account.resize, htouch, bind, Option.bind_some] using hresize, h₂⟩

theorem extendFromSlice (bytes : Bytes) :
    ∃ buf' a', a.extendFromSlice bytes buf = some (buf', a') ∧ Represents p buf' a' (v.extendFromSlice bytes) := by
  obtain ⟨buf₁, a₁, htouch, h₁⟩ := h.touchData
  obtain ⟨buf₂, a₂, hextend, h₂⟩ := h₁.extendData (any_withData v _) bytes
  exact ⟨buf₂, a₂, by simpa only [Account.extendFromSlice, htouch, bind, Option.bind_some] using hextend, h₂⟩

theorem setDataFromSlice (bytes : Bytes) :
    ∃ buf' a', a.setDataFromSlice bytes buf = some (buf', a') ∧ Represents p buf' a' (v.setDataFromSlice bytes) := by
  obtain ⟨buf₁, a₁, htouch, h₁⟩ := h.touchData
  obtain ⟨buf₂, a₂, hset, h₂⟩ := h₁.setData (any_withData v _) bytes
  exact ⟨buf₂, a₂, by simpa only [Account.setDataFromSlice, htouch, bind, Option.bind_some] using hset, h₂⟩

theorem copyIntoSlice (offset : Nat) (bytes : Bytes) :
    ∃ buf' a', a.copyIntoSlice offset bytes buf =
        some (buf', a', ((Mutator.copyIntoSlice offset bytes).value v).2) ∧
      Represents p buf' a' ((Mutator.copyIntoSlice offset bytes).value v).1 := by
  obtain ⟨buf₁, a₁, htouch, h₁⟩ := h.touchData
  have hdata : a₁.data buf₁ = some v.data := h₁.data
  by_cases hfits : offset + bytes.length ≤ v.data.length
  · obtain ⟨buf₂, a₂, hchange, h₂⟩ := h₁.change (any_withData v _) (·.storeData offset bytes)
      (fun data => data.take offset ++ bytes ++ data.drop (offset + bytes.length))
      fun b img fits _ haccount hcore => BorrowedAccount.storeData_account hcore fits (by rwa [← haccount])
    refine ⟨buf₂, a₂, ?_, ?_⟩
    · simp only [Account.copyIntoSlice, htouch, hdata, hchange, bind, Option.bind_some, if_pos hfits, pure, Mutator.value]
    · simp only [Mutator.value, if_pos hfits]
      exact h₂
  · refine ⟨buf₁, a₁, ?_, ?_⟩
    · simp only [Account.copyIntoSlice, htouch, hdata, bind, Option.bind_some, if_neg hfits, pure, Mutator.value]
    · simp only [Mutator.value, if_neg hfits]
      exact h₁

private theorem fillGap (offset : Nat) :
    ∃ buf' a', a.fillGap offset buf = some (buf', a') ∧
      Represents p buf' a' (if v.data.length < offset then v.resize offset 0 else v) := by
  simp only [Account.fillGap, h.data, bind, Option.bind_some]
  by_cases hgap : v.data.length < offset
  · rw [if_pos hgap, if_pos hgap]
    exact h.resize offset 0
  · rw [if_neg hgap, if_neg hgap]
    exact ⟨buf, a, rfl, h⟩

omit h in
private theorem overlap_append {grown bytes : Bytes} {offset n : Nat} (hoffset : offset ≤ grown.length)
    (hn : min (grown.length - offset) bytes.length = n) :
    offset + (bytes.take n).length ≤ grown.length ∧
      grown.take offset ++ bytes.take n ++ grown.drop (offset + (bytes.take n).length) ++ bytes.drop n =
        grown.take offset ++ bytes ++ grown.drop (offset + bytes.length) := by
  have hlength : (bytes.take n).length = n := by
    rw [List.length_take]
    omega
  rw [hlength]
  refine ⟨by omega, ?_⟩
  rcases Nat.le_total bytes.length (grown.length - offset) with hall | hpart
  · have heq : n = bytes.length := by omega
    rw [heq, List.take_length, List.drop_length, List.append_nil]
  · -- the overlap reaches the end of the data
    have hend : grown.length ≤ offset + n := by omega
    have hend' : grown.length ≤ offset + bytes.length := by omega
    rw [List.drop_eq_nil_of_le hend, List.drop_eq_nil_of_le hend', List.append_nil, List.append_nil, List.append_assoc,
      List.take_append_drop]

theorem setDataAt (offset : Nat) (bytes : Bytes) :
    ∃ buf' a', a.setDataAt offset bytes buf = some (buf', a', .ok ()) ∧
      Represents p buf' a' (v.setDataAt offset bytes) := by
  obtain ⟨buf₁, a₁, htouch, h₁⟩ := h.touchData
  obtain ⟨buf₂, a₂, hfill, h₂⟩ := h₁.fillGap offset
  have hgrown : (if (v.withData v.data).data.length < offset then (v.withData v.data).resize offset 0
      else v.withData v.data) = v.withData (v.data ++ List.replicate (offset - v.data.length) 0) := by
    have hdata : (v.withData v.data).data = v.data := rfl
    rw [hdata]
    split
    · next hgap =>
      unfold AccountSharedData.resize
      rw [hdata, List.take_of_length_le hgap.le]
      rfl
    · next hgap =>
      rw [Nat.sub_eq_zero_of_le (Nat.le_of_not_lt hgap), List.replicate_zero, List.append_nil]
  rw [hgrown] at h₂
  generalize hg : v.data ++ List.replicate (offset - v.data.length) 0 = grown at h₂
  have hoffset : offset ≤ grown.length := by
    rw [← hg, List.length_append, List.length_replicate]
    omega
  have hdata : a₂.data buf₂ = some grown := h₂.data
  generalize hn : min (grown.length - offset) bytes.length = n
  obtain ⟨hfits, heq⟩ := overlap_append hoffset hn
  have hvalue : (Mutator.copyIntoSlice offset (bytes.take n)).value (v.withData grown) =
      (v.withData (grown.take offset ++ bytes.take n ++ grown.drop (offset + (bytes.take n).length)), .ok ()) :=
    if_pos hfits
  obtain ⟨buf₃, a₃, hcopy, h₃⟩ := h₂.copyIntoSlice offset (bytes.take n)
  rw [hvalue] at hcopy h₃
  obtain ⟨buf₄, a₄, hextend, h₄⟩ := h₃.extendFromSlice (bytes.drop n)
  refine ⟨buf₄, a₄, ?_, ?_⟩
  · simp only [Account.setDataAt, htouch, hfill, hdata, hn, hcopy, hextend, bind, Option.bind_some, pure]
  · have hafter : v.setDataAt offset bytes = v.withData (grown.take offset ++ bytes ++ grown.drop (offset + bytes.length)) := by
      rw [← hg]
      rfl
    rw [hafter, ← heq]
    exact h₄

theorem setField {α : Type} [DecidableEq α] (field : CoreField α)
    (f : DirtyMarkers → DirtyMarkers) (value : α) (hf : (f v.markers).any)
    (hslot : v.core.slot < 2 ^ 64 → (field.set value v.core).slot < 2 ^ 64) :
    ∃ buf' a', a.setField field f value buf = some (buf', a') ∧ Represents p buf' a'
      (if field.get v.core = value then v
        else { account := { v.account with core := field.set value v.core }, markers := f v.markers }) := by
  unfold Account.setField
  simp only [h.core, bind, Option.bind_some, pure]
  by_cases hsame : field.get v.core = value
  · rw [if_pos hsame, if_pos hsame]
    exact ⟨buf, a, rfl, h⟩
  · obtain ⟨buf₁, a₁, htouch, h₁⟩ := h.touch f hf
    obtain ⟨buf₂, a₂, hwrite, h₂⟩ := h₁.writeField hf field value hslot
    rw [if_neg hsame, if_neg hsame]
    exact ⟨buf₂, a₂, by simp only [htouch, Option.bind_some, hwrite], h₂⟩

theorem setLifecycle (mode : AccountMode) (slot : UInt64) :
    ∃ buf' a', a.setLifecycle mode slot buf = some (buf', a', ((Mutator.setLifecycle mode slot).value v).2) ∧
      Represents p buf' a' ((Mutator.setLifecycle mode slot).value v).1 := by
  simp only [Account.setLifecycle, Mutator.value, AccountSharedData.setLifecycle, AccountSharedData.mode, h.core, bind,
    Option.bind_some]
  cases hvalid : v.core.mode.validateTransition mode v.core.slot slot.toNat with
  | error e => exact ⟨buf, a, rfl, h⟩
  | ok _ =>
    obtain ⟨buf₁, a₁, htranslate, hmarked⟩ := h.translate
    have hslot : slot.toNat < 2 ^ 64 := slot.toNat_lt
    dsimp only
    by_cases hmode : v.core.mode = mode
    · -- only the slot is assigned
      have h₁ := hmarked ({ · with slot := true }) (by simp [DirtyMarkers.any])
      obtain ⟨buf₂, a₂, hwrite, h₂⟩ := h₁.writeField (by simp [DirtyMarkers.any]) .slot slot.toNat fun _ => hslot
      refine ⟨buf₂, a₂, ?_, ?_⟩
      · simp [htranslate, Account.assignMode, hmode, hwrite]
      · subst hmode
        have hsame : (v.markers.mode || v.core.mode != v.core.mode) = v.markers.mode := by simp
        rw [hsame]
        exact h₂
    · have h₁ := hmarked ({ · with mode := true }) (by simp [DirtyMarkers.any])
      obtain ⟨buf₂, a₂, hwrite, h₂⟩ := h₁.writeField (by simp [DirtyMarkers.any]) .mode mode id
      have h₃ := h₂.mark (by simp [DirtyMarkers.any]) ({ · with slot := true }) (by simp [DirtyMarkers.any])
      obtain ⟨buf₄, a₄, hwrite', h₄⟩ := h₃.writeField (by simp [DirtyMarkers.any]) .slot slot.toNat fun _ => hslot
      refine ⟨buf₄, a₄, ?_, ?_⟩
      · simp [htranslate, Account.assignMode, hmode, hwrite, hwrite']
      · have hchanges : (v.markers.mode || v.core.mode != mode) = true := by simp [hmode]
        rw [hchanges]
        exact h₄

theorem copyIntoOwnerFromSlice (source : Bytes) :
    ∃ buf' a', a.copyIntoOwnerFromSlice source buf =
        some (buf', a', ((Mutator.copyIntoOwnerFromSlice source).value v).2) ∧
      Represents p buf' a' ((Mutator.copyIntoOwnerFromSlice source).value v).1 := by
  obtain ⟨buf₁, a₁, htouch, h₁⟩ := h.touch ({ · with owner := true }) (by simp [DirtyMarkers.any])
  simp only [Account.copyIntoOwnerFromSlice, htouch, bind, Option.bind_some, Mutator.value]
  by_cases hlength : source.length = 32
  · obtain ⟨buf₂, a₂, hwrite, h₂⟩ := h₁.writeField (by simp [DirtyMarkers.any]) .owner (Pubkey.ofBytes source) id
    simp only [if_pos hlength, hwrite, Option.bind_some]
    exact ⟨buf₂, a₂, rfl, h₂⟩
  · simp only [if_neg hlength]
    exact ⟨buf₁, a₁, rfl, h₁⟩

/-- A step of the simulation: whatever the form of the account, the mutator does what it does to the value. -/
theorem apply (mutator : Mutator) :
    ∃ buf' a', mutator.apply buf a = some (buf', a', (mutator.value v).2) ∧
      Represents p buf' a' (mutator.value v).1 := by
  have hok : ∀ {step : Option (Buffer × Account)} {v' : AccountSharedData},
      (∃ buf' a', step = some (buf', a') ∧ Represents p buf' a' v') →
      ∃ buf' a', Mutator.succeeds step = some (buf', a', .ok ()) ∧ Represents p buf' a' v' := by
    rintro _ v' ⟨buf', a', rfl, h'⟩
    exact ⟨buf', a', rfl, h'⟩
  cases mutator with
  | setLamports lamports => exact hok (h.setField .lamports _ lamports (by simp [DirtyMarkers.any]) id)
  | setOwner owner => exact hok (h.setField .owner _ owner (by simp [DirtyMarkers.any]) id)
  | copyIntoOwnerFromSlice source => exact h.copyIntoOwnerFromSlice source
  | setFlags flags => exact hok (h.setField .flags _ flags (by simp [DirtyMarkers.any]) id)
  | setExecutable executable =>
    have hflags := h.setField .flags ({ · with flags := true }) (v.core.flags.setExecutable executable)
      (by simp [DirtyMarkers.any]) id
    refine hok ?_
    simp only [Account.setExecutable, h.core, bind, Option.bind_some]
    exact hflags
  | setCommitSeq commitSeq => exact hok (h.setField .commitSeq _ commitSeq (by simp [DirtyMarkers.any]) id)
  | setLifecycle mode slot => exact h.setLifecycle mode slot
  | resize len val => exact hok (h.resize len val)
  | extendFromSlice bytes => exact hok (h.extendFromSlice bytes)
  | setDataFromSlice bytes => exact hok (h.setDataFromSlice bytes)
  | setDataAt offset bytes => exact h.setDataAt offset bytes
  | copyIntoSlice offset bytes => exact h.copyIntoSlice offset bytes
  | reserve additional =>
    obtain ⟨a', hreserve, h', -⟩ := h.reserve additional
    exact hok ⟨buf, a', by rw [hreserve]; rfl, h'⟩

end

end Represents

/-! ### Borrowed and owned -/

/-- What can be read of an account after a mutator, and the mutator's result. -/
structure Observation where
  core : AccountCore
  data : Bytes
  markers : DirtyMarkers
  result : Except MutatorError Unit

/-- Apply the mutators in order and observe the account after each one. -/
def observe (buf : Buffer) (a : Account) : List Mutator → Option (List Observation)
  | [] => some []
  | mutator :: rest => do
    let (buf, a, result) ← mutator.apply buf a
    let observation : Observation := { core := ← a.core buf, data := ← a.data buf, markers := a.markers, result }
    return observation :: (← observe buf a rest)

def observeValue (v : AccountSharedData) : List Mutator → List Observation
  | [] => []
  | mutator :: rest =>
    let (v, result) := mutator.value v
    { core := v.core, data := v.data, markers := v.markers, result } :: observeValue v rest

theorem Represents.observe (h : Represents p buf a v) (mutators : List Mutator) :
    Raw.observe buf a mutators = some (observeValue v mutators) := by
  induction mutators generalizing buf a v with
  | nil => rfl
  | cons mutator rest ih =>
    obtain ⟨buf', a', happly, h'⟩ := h.apply mutator
    simp only [Raw.observe, happly, h'.core, h'.data, ih h', h'.markers, observeValue, bind, Option.bind_some, pure]

theorem Represents.init {img : Image} (himage : p.image p.active = img.bytes) :
    Represents p p.bytes { cow := .borrowed { core := p.start p.active, version := p.sequence } }
      { account := img.account } := by
  have fits : img.room.length = p.capacity := by
    have hlength := p.length_image p.active
    rw [himage, img.length_bytes] at hlength
    unfold Parts.capacity
    omega
  have hviewed : Viewed p (p.active ^^ false) p.bytes { core := p.start p.active, version := p.sequence } img := by
    rw [Bool.xor_false]
    exact ⟨fits, by rw [p.filled_eq_self fits himage], rfl, rfl⟩
  exact ⟨rfl, .borrowed hviewed fun _ => himage⟩

/-- Every sequence of mutators shows the same of a borrowed view over a serialized account and of an owned copy of the
account: fields, data, markers and results after each step. -/
theorem borrowed_owned_agree (account : OwnedAccount) (pubkey : Pubkey) (buf : Buffer) (mutators : List Mutator)
    (haccount : Serializable account) (hbuf : buf.length = unitsOf account * storageUnit) :
    ∃ stored view observations, serialize account buf pubkey = some stored ∧ BorrowedAccount.init stored = some view ∧
      observe stored { cow := .borrowed view } mutators = some observations ∧
      observe stored { cow := .owned account } mutators = some observations := by
  obtain ⟨p, img, hserialize, -, -, -, himage, rfl⟩ := serialize_parts _ haccount hbuf
  have howned : Represents p p.bytes { cow := .owned img.account } { account := img.account } :=
    ⟨rfl, .owned (p.image (!p.active)) (p.length_image _) (by rw [p.withImage_self])⟩
  exact ⟨p.bytes, _, _, hserialize, BorrowedAccount.init_bytes p, (Represents.init himage).observe mutators,
    howned.observe mutators⟩

/-- A small account whose data outgrows its image. -/
theorem borrowed_owned_agree_grows :
    Serializable { data := [1, 2, 3] } ∧
    ∃ stored view observations,
      serialize { data := [1, 2, 3] } (List.replicate 184 0) ⟨7⟩ = some stored ∧
      BorrowedAccount.init stored = some view ∧
      observe stored { cow := .borrowed view } [.setLamports 5, .extendFromSlice [4, 5, 6], .setDataAt 1 [9]] =
        some observations ∧
      observe stored { cow := .owned { data := [1, 2, 3] } }
        [.setLamports 5, .extendFromSlice [4, 5, 6], .setDataAt 1 [9]] = some observations := by
  have haccount : Serializable { data := [1, 2, 3] } := by decide
  exact ⟨haccount, borrowed_owned_agree _ ⟨7⟩ _ _ haccount (by rw [List.length_replicate]; decide)⟩

/-- With 4 GiB of data the length does not fit its field, and the view is of an empty account. -/
theorem data_lost {account : OwnedAccount} (hlength : account.data.length = 2 ^ 32) (pubkey : Pubkey) :
    ∃ stored view,
      serialize account (List.replicate (unitsOf account * storageUnit) 0) pubkey = some stored ∧
      BorrowedAccount.init stored = some view ∧ Account.data { cow := .borrowed view } stored = some [] ∧
      Account.data { cow := .owned account } stored = some account.data := by
  have hunits : unitsOf account = 1073741845 := by
    unfold unitsOf allocationOf allocation
    rw [hlength]
    decide
  have hfits : storageUnit * imageOffset + staticSize + account.data.length ≤
      (List.replicate (unitsOf account * storageUnit) (0 : UInt8)).length := by
    rw [List.length_replicate, hunits, hlength]
    decide
  obtain ⟨stored, hserialize⟩ : ∃ stored,
      serialize account (List.replicate (unitsOf account * storageUnit) 0) pubkey = some stored := ⟨_, serialize_eq hfits⟩
  obtain ⟨view, hinit, hdata⟩ := data_serialized hfits hserialize
  rw [hlength, Nat.mod_self, Nat.zero_min, List.take_zero] at hdata
  exact ⟨stored, view, hserialize, hinit, hdata, rfl⟩

theorem exists_long_account : ∃ account : OwnedAccount, account.data.length = 2 ^ 32 := by
  obtain ⟨data, hlength⟩ : ∃ data : Bytes, data.length = 2 ^ 32 :=
    ⟨List.replicate (2 ^ 32) 1, by rw [List.length_replicate]⟩
  exact ⟨{ data }, hlength⟩

/-- Some account reads as an empty one through the view, and with its data when it is owned. -/
theorem long_data_is_lost : ∃ account : OwnedAccount, account.data.length = 2 ^ 32 ∧ ∃ stored view,
    serialize account (List.replicate (unitsOf account * storageUnit) 0) ⟨7⟩ = some stored ∧
    BorrowedAccount.init stored = some view ∧ Account.data { cow := .borrowed view } stored = some [] ∧
    Account.data { cow := .owned account } stored = some account.data := by
  obtain ⟨account, hlength⟩ := exists_long_account
  exact ⟨account, hlength, data_lost hlength ⟨7⟩⟩

end MagicEngine.Raw
