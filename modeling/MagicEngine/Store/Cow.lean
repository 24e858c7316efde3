import MagicEngine.Store.Span

/-!
# Copy-on-write accounts

`AccountSharedData` over mapped storage (`solana/account/src/cow/mod.rs`, `traits.rs`): a view of a span or an
account on the heap, with the markers of what changed. The first change of a viewed account copies the active
image into the shadow; data that outgrows the image moves the account to the heap.

`Loaded` is what every sequence of mutators keeps: an account obtained by loading its key has touched nothing but
the shadow image of its own span.
-/

namespace MagicEngine

open Regions

inductive CoWAccount where
  | borrowed (view : BorrowedAccount)
  | owned (account : OwnedAccount)
deriving DecidableEq, Repr

/-- `AccountSharedData`, with the image of a borrowed account in mapped storage. -/
structure StoredAccount where
  cow : CoWAccount
  markers : DirtyMarkers := {}
deriving DecidableEq, Repr

namespace StoredAccount

def image (m : Memory) (a : StoredAccount) : OwnedAccount :=
  match a.cow with
  | .borrowed view => view.image m
  | .owned account => account

def mode (m : Memory) (a : StoredAccount) : AccountMode := (a.image m).core.mode

/-- What an image shows of the account once it is stored. -/
def kept (m : Memory) (a : StoredAccount) : OwnedAccount :=
  match a.cow with
  | .borrowed view => view.image m
  | .owned account => account.stored

def dirty (a : StoredAccount) : Bool := a.markers.any

/-! ### Mutators -/

/-- Copies a clean borrowed image into the shadow before a mutation. -/
def translate (m : Memory) (a : StoredAccount) : Memory × StoredAccount :=
  if a.dirty then (m, a)
  else
    match a.cow with
    | .borrowed view => ((view.translate m).1, { a with cow := .borrowed (view.translate m).2 })
    | .owned _ => (m, a)

/-- `translate` and set markers, the start of every mutation. -/
def touch (mark : DirtyMarkers → DirtyMarkers) (m : Memory) (a : StoredAccount) : Memory × StoredAccount :=
  let (m, a) := a.translate m
  (m, { a with markers := mark a.markers })

def write (image : OwnedAccount) (m : Memory) (a : StoredAccount) : Memory × StoredAccount :=
  match a.cow with
  | .borrowed view => (view.write m image, a)
  | .owned _ => (m, { a with cow := .owned image })

def writeCore (f : AccountCore → AccountCore) (m : Memory) (a : StoredAccount) : Memory × StoredAccount :=
  a.write { a.image m with core := f (a.image m).core } m

def writeData (data : List UInt8) (m : Memory) (a : StoredAccount) : Memory × StoredAccount :=
  a.write { a.image m with data } m

def promote (m : Memory) (a : StoredAccount) : StoredAccount := { a with cow := .owned (a.image m) }

/-- Stay in the borrowed image only while `len` bytes fit. -/
def fit (len : Nat) (m : Memory) (a : StoredAccount) : StoredAccount :=
  match a.cow with
  | .borrowed view => if len ≤ view.capacity m then a else a.promote m
  | .owned _ => a

theorem fit_lt {len : Nat} {m : Memory} {a : StoredAccount} {view : BorrowedAccount}
    (h : (a.fit len m).cow = .borrowed view) : len < 2 ^ 32 := by
  unfold fit at h
  split at h
  · next view' hcow =>
    split at h
    · next hlen => exact lt_of_le_of_lt hlen (view'.capacity_lt m)
    · cases h
  · next hcow =>
    rw [hcow] at h
    cases h

/-- `reserve`: the spare capacity of a borrowed image counts from its current length. -/
def reserve (additional : Nat) (m : Memory) (a : StoredAccount) : StoredAccount :=
  a.fit ((a.image m).data.length + additional) m

/-- A scalar setter: nothing happens when the value is there already. -/
def setScalar (same : Bool) (mark : DirtyMarkers → DirtyMarkers) (f : AccountCore → AccountCore) (m : Memory)
    (a : StoredAccount) : Memory × StoredAccount :=
  if same then (m, a)
  else
    let (m, a) := a.touch mark m
    a.writeCore f m

def setLamports (lamports : UInt64) (m : Memory) (a : StoredAccount) : Memory × StoredAccount :=
  a.setScalar ((a.image m).core.lamports == lamports) ({ · with lamports := true }) ({ · with lamports }) m

def setOwner (owner : Pubkey) (m : Memory) (a : StoredAccount) : Memory × StoredAccount :=
  a.setScalar ((a.image m).core.owner == owner) ({ · with owner := true }) ({ · with owner }) m

/-- `copy_into_owner_from_slice` has no check. -/
def copyIntoOwner (owner : Pubkey) (m : Memory) (a : StoredAccount) : Memory × StoredAccount :=
  a.setScalar false ({ · with owner := true }) ({ · with owner }) m

def setFlags (flags : StateFlags) (m : Memory) (a : StoredAccount) : Memory × StoredAccount :=
  a.setScalar ((a.image m).core.flags == flags) ({ · with flags := true }) ({ · with flags }) m

def setExecutable (executable : Bool) (m : Memory) (a : StoredAccount) : Memory × StoredAccount :=
  a.setFlags ((a.image m).core.flags.setExecutable executable) m

def setCommitSeq (commitSeq : UInt32) (m : Memory) (a : StoredAccount) : Memory × StoredAccount :=
  a.setScalar ((a.image m).core.commitSeq == commitSeq) ({ · with commitSeq := true }) ({ · with commitSeq }) m

/-- `set_lifecycle`: validated before anything is touched. -/
def setLifecycle (mode : AccountMode) (slot : Nat) (m : Memory) (a : StoredAccount) : Memory × StoredAccount :=
  let core := (a.image m).core
  match core.mode.validateTransition mode core.slot slot with
  | .error _ => (m, a)
  | .ok () =>
    let (m, a) := a.touch (fun markers => { markers with slot := true, mode := markers.mode || core.mode != mode }) m
    a.writeCore (fun core => { core with mode, slot }) m

def markData (markers : DirtyMarkers) : DirtyMarkers := { markers with data := true }

def resizeData (len : Nat) (val : UInt8) (m : Memory) (a : StoredAccount) : Memory × StoredAccount :=
  let a := a.fit len m
  let data := (a.image m).data
  a.writeData (data.take len ++ List.replicate (len - data.length) val) m

def extendData (data : List UInt8) (m : Memory) (a : StoredAccount) : Memory × StoredAccount :=
  let a := a.reserve data.length m
  a.writeData ((a.image m).data ++ data) m

def resize (len : Nat) (val : UInt8) (m : Memory) (a : StoredAccount) : Memory × StoredAccount :=
  let (m, a) := a.touch markData m
  a.resizeData len val m

def extendFromSlice (data : List UInt8) (m : Memory) (a : StoredAccount) : Memory × StoredAccount :=
  let (m, a) := a.touch markData m
  a.extendData data m

def setDataFromSlice (data : List UInt8) (m : Memory) (a : StoredAccount) : Memory × StoredAccount :=
  let (m, a) := a.touch markData m
  let a := a.reserve (data.length - (a.image m).data.length) m
  a.writeData data m

/-- What a caller of `data_as_mut_slice` writes at `offset`, within the current length. -/
def dataAsMutSlice (offset : Nat) (bytes : List UInt8) (m : Memory) (a : StoredAccount) : Memory × StoredAccount :=
  let (m, a) := a.touch markData m
  let data := (a.image m).data
  let bytes := bytes.take (data.length - offset)
  a.writeData (data.take offset ++ bytes ++ data.drop (offset + bytes.length)) m

/-- `set_data_at`: fill the gap, write the overlap in place and append the rest. -/
def setDataAt (offset : Nat) (bytes : List UInt8) (m : Memory) (a : StoredAccount) : Memory × StoredAccount :=
  let (m, a) := a.touch markData m
  let (m, a) := if (a.image m).data.length < offset then a.resizeData offset 0 m else (m, a)
  let overlap := min ((a.image m).data.length - offset) bytes.length
  let (m, a) := a.dataAsMutSlice offset (bytes.take overlap) m
  a.extendData (bytes.drop overlap) m

end StoredAccount

inductive AccountOp where
  | setLamports (lamports : UInt64)
  | setOwner (owner : Pubkey)
  | copyIntoOwner (owner : Pubkey)
  | setFlags (flags : StateFlags)
  | setExecutable (executable : Bool)
  | setCommitSeq (commitSeq : UInt32)
  | setLifecycle (mode : AccountMode) (slot : Nat)
  | resize (len : Nat) (val : UInt8)
  | extendFromSlice (data : List UInt8)
  | setDataFromSlice (data : List UInt8)
  | dataAsMutSlice (offset : Nat) (bytes : List UInt8)
  | setDataAt (offset : Nat) (bytes : List UInt8)
  | reserve (additional : Nat)
deriving DecidableEq, Repr

def AccountOp.apply (m : Memory) (a : StoredAccount) : AccountOp → Memory × StoredAccount
  | .setLamports lamports => a.setLamports lamports m
  | .setOwner owner => a.setOwner owner m
  | .copyIntoOwner owner => a.copyIntoOwner owner m
  | .setFlags flags => a.setFlags flags m
  | .setExecutable executable => a.setExecutable executable m
  | .setCommitSeq commitSeq => a.setCommitSeq commitSeq m
  | .setLifecycle mode slot => a.setLifecycle mode slot m
  | .resize len val => a.resize len val m
  | .extendFromSlice data => a.extendFromSlice data m
  | .setDataFromSlice data => a.setDataFromSlice data m
  | .dataAsMutSlice offset bytes => a.dataAsMutSlice offset bytes m
  | .setDataAt offset bytes => a.setDataAt offset bytes m
  | .reserve additional => (m, a.reserve additional m)

def AccountOp.applyAll (m : Memory) (a : StoredAccount) : List AccountOp → Memory × StoredAccount
  | [] => (m, a)
  | op :: rest => applyAll (op.apply m a).1 (op.apply m a).2 rest

/-! ### What mutators leave alone -/

/-- Mode and owner are the same unless their markers say otherwise. -/
def Unmarked (base : AccountCore) (markers : DirtyMarkers) (core : AccountCore) : Prop :=
  (markers.mode = false → core.mode = base.mode) ∧ (markers.owner = false → core.owner = base.owner)

/-- An account loaded from memory `m₀` with the core `base`, from the span at `home` if it is persisted, and changed
through the writable interface since. -/
structure Loaded (m₀ : Memory) (base : AccountCore) (home : Option Nat) (m : Memory) (a : StoredAccount) : Prop where
  view : ∀ b, a.cow = .borrowed b → home = some b.offset ∧ ∃ s, m₀ b.offset = some s ∧ b.version = s.sequence ∧
    b.side = (activeSide s.sequence != a.dirty)
  elsewhere : ∀ o, home ≠ some o → m o = m₀ o
  shadow : ∀ o, home = some o → ∃ s img, m₀ o = some s ∧ m o = some (s.setImage (!activeSide s.sequence) img)
  unmarked : Unmarked base a.markers (a.image m).core
  fits : ∀ b, a.cow = .borrowed b → (a.image m).Fits

namespace Loaded

variable {m₀ m : Memory} {base : AccountCore} {home : Option Nat} {a : StoredAccount}

section

variable (h : Loaded m₀ base home m a)

include h

theorem span_at {b : BorrowedAccount} (hb : a.cow = .borrowed b) :
    ∃ s img, m₀ b.offset = some s ∧ m b.offset = some (s.setImage (!activeSide s.sequence) img) ∧
      b.version = s.sequence ∧ b.side = (activeSide s.sequence != a.dirty) := by
  obtain ⟨hhome, s, hs, hv, hside⟩ := h.view b hb
  obtain ⟨s', img, hs', himg⟩ := h.shadow b.offset hhome
  cases hs.symm.trans hs'
  exact ⟨s, img, hs, himg, hv, hside⟩

private theorem fill_shadow {b : BorrowedAccount} (image : OwnedAccount)
    {markers : DirtyMarkers} (hb : a.cow = .borrowed b) (hdirty : markers.any)
    (hunmarked : Unmarked base markers image.core) (hfits : image.Fits) :
    let b' := { b with side := !activeSide b.version }
    Loaded m₀ base home (b'.write m image) { cow := .borrowed b', markers } ∧ b'.image (b'.write m image) = image := by
  intro b'
  obtain ⟨s, img, hs, himg, hv, -⟩ := h.span_at hb
  obtain ⟨hhome, -⟩ := h.view b hb
  have hside : b'.side = !activeSide s.sequence := by rw [← hv]
  have hwritten : b'.write m image b.offset = some (s.setImage (!activeSide s.sequence) image) := by
    have hat : m b'.offset = some (s.setImage (!activeSide s.sequence) img) := himg
    rw [BorrowedAccount.write, show b.offset = b'.offset from rfl, Heap.modify_self, hat, hside]
    simp [Span.setImage_setImage]
  have hread : b'.image (b'.write m image) = image := by
    rw [BorrowedAccount.image, show b'.offset = b.offset from rfl, hwritten, hside]
    simp
  refine ⟨⟨?_, ?_, ?_, ?_, ?_⟩, hread⟩
  · intro c hc
    obtain rfl : b' = c := CoWAccount.borrowed.inj hc
    refine ⟨hhome, s, hs, hv, ?_⟩
    rw [hside, StoredAccount.dirty, hdirty, Bool.bne_true]
  · intro o ho
    have hne : o ≠ b'.offset := fun heq => ho (hhome.trans (congrArg some heq.symm))
    rw [BorrowedAccount.write, Heap.modify_of_ne m _ hne]
    exact h.elsewhere o ho
  · intro o ho
    cases hhome.symm.trans ho
    exact ⟨s, image, hs, hwritten⟩
  · show Unmarked base markers (b'.image (b'.write m image)).core
    rw [hread]
    exact hunmarked
  · rintro c ⟨rfl⟩
    show (b'.image (b'.write m image)).Fits
    rw [hread]
    exact hfits

private theorem on_heap {account : OwnedAccount} {markers : DirtyMarkers}
    (hunmarked : Unmarked base markers account.core) :
    Loaded m₀ base home m { cow := .owned account, markers } where
  view _ hb := nomatch hb
  elsewhere := h.elsewhere
  shadow := h.shadow
  unmarked := hunmarked
  fits _ hb := nomatch hb

theorem fit (len : Nat) :
    Loaded m₀ base home m (a.fit len m) ∧ (a.fit len m).image m = a.image m ∧ (a.fit len m).markers = a.markers := by
  unfold StoredAccount.fit
  split
  · split
    · exact ⟨h, rfl, rfl⟩
    · exact ⟨h.on_heap h.unmarked, rfl, rfl⟩
  · exact ⟨h, rfl, rfl⟩

theorem write (hdirty : a.dirty) (image : OwnedAccount)
    (hunmarked : Unmarked base a.markers image.core) (hfits : ∀ b, a.cow = .borrowed b → image.Fits) :
    Loaded m₀ base home (a.write image m).1 (a.write image m).2 ∧ (a.write image m).2.markers = a.markers := by
  obtain ⟨cow, markers⟩ := a
  cases cow with
  | owned account => exact ⟨h.on_heap hunmarked, rfl⟩
  | borrowed b =>
    -- the view of a dirty account points to the shadow
    obtain ⟨-, s, -, hv, hside⟩ := h.view b rfl
    have hb : b = { b with side := !activeSide b.version } := by
      rw [hdirty, Bool.bne_true] at hside
      rw [hv, ← hside, ← hv]
    have hfill := (h.fill_shadow image rfl hdirty hunmarked (hfits b rfl)).1
    rw [← hb] at hfill
    exact ⟨hfill, rfl⟩

theorem writeCore (hdirty : a.dirty) {f : AccountCore → AccountCore}
    (hunmarked : Unmarked base a.markers (f (a.image m).core)) :
    Loaded m₀ base home (a.writeCore f m).1 (a.writeCore f m).2 :=
  (h.write hdirty { a.image m with core := f (a.image m).core } hunmarked h.fits).1

theorem touch (mark : DirtyMarkers → DirtyMarkers) (hany : (mark a.markers).any)
    (hmark : Unmarked base a.markers (a.image m).core → Unmarked base (mark a.markers) (a.image m).core) :
    Loaded m₀ base home (a.touch mark m).1 (a.touch mark m).2 ∧
      (a.touch mark m).2.image (a.touch mark m).1 = a.image m ∧ (a.touch mark m).2.markers = mark a.markers := by
  have hunmarked := hmark h.unmarked
  have hfits := h.fits
  obtain ⟨cow, markers⟩ := a
  cases cow with
  | owned account =>
    have htouch : StoredAccount.touch mark m ⟨.owned account, markers⟩ = (m, ⟨.owned account, mark markers⟩) := by
      simp [StoredAccount.touch, StoredAccount.translate]
    rw [htouch]
    exact ⟨h.on_heap hunmarked, rfl, rfl⟩
  | borrowed b =>
    obtain ⟨hhome, s, hs, hv, hside⟩ := h.view b rfl
    by_cases hdirty : markers.any
    · have htouch : StoredAccount.touch mark m ⟨.borrowed b, markers⟩ = (m, ⟨.borrowed b, mark markers⟩) := by
        simp [StoredAccount.touch, StoredAccount.translate, StoredAccount.dirty, hdirty]
      rw [htouch]
      refine ⟨⟨?_, h.elsewhere, h.shadow, hunmarked, hfits⟩, rfl, rfl⟩
      rintro c ⟨rfl⟩
      refine ⟨hhome, s, hs, hv, ?_⟩
      rw [hside, StoredAccount.dirty, StoredAccount.dirty, hdirty, hany]
    · -- a clean view points to the active image, so it is copied
      have hactive : b.side ≠ !activeSide b.version := by
        simp [hside, StoredAccount.dirty, hdirty, hv]
      have htouch : StoredAccount.touch mark m ⟨.borrowed b, markers⟩ =
          (BorrowedAccount.write m { b with side := !activeSide b.version } (b.image m),
            ⟨.borrowed { b with side := !activeSide b.version }, mark markers⟩) := by
        simp [StoredAccount.touch, StoredAccount.translate, StoredAccount.dirty, hdirty, BorrowedAccount.translate,
          hactive]
      obtain ⟨hfill, hread⟩ := h.fill_shadow (b.image m) rfl hany hunmarked (hfits b rfl)
      rw [htouch]
      exact ⟨hfill, hread, rfl⟩

end

end Loaded

def Touched (m₀ : Memory) (base : AccountCore) (home : Option Nat) (r : Memory × StoredAccount) : Prop :=
  Loaded m₀ base home r.1 r.2 ∧ r.2.dirty

section Mutators

variable {m₀ m : Memory} {base : AccountCore} {home : Option Nat} {a : StoredAccount}

theorem Touched.writeData (h : Touched m₀ base home (m, a)) {data : List UInt8}
    (hdata : ∀ b, a.cow = .borrowed b → data.length < 2 ^ 32) : Touched m₀ base home (a.writeData data m) := by
  obtain ⟨hw, hmarkers⟩ := h.1.write h.2 { a.image m with data } h.1.unmarked hdata
  exact ⟨hw, by rw [StoredAccount.dirty, StoredAccount.writeData, hmarkers]; exact h.2⟩

theorem Touched.fit (h : Touched m₀ base home (m, a)) (len : Nat) : Touched m₀ base home (m, a.fit len m) := by
  obtain ⟨hfit, -, hmarkers⟩ := h.1.fit len
  exact ⟨hfit, by rw [StoredAccount.dirty, hmarkers]; exact h.2⟩

theorem Touched.resizeData (h : Touched m₀ base home (m, a)) (len : Nat) (val : UInt8) :
    Touched m₀ base home (a.resizeData len val m) := by
  refine (h.fit len).writeData fun b hb => ?_
  have hlen := StoredAccount.fit_lt hb
  simp only [List.length_append, List.length_take, List.length_replicate]
  omega

theorem Touched.extendData (h : Touched m₀ base home (m, a)) (data : List UInt8) :
    Touched m₀ base home (a.extendData data m) := by
  refine (h.fit _).writeData fun b hb => ?_
  have himage : (a.reserve data.length m).image m = a.image m := (h.1.fit _).2.1
  rw [List.length_append, himage]
  exact StoredAccount.fit_lt hb

theorem Touched.replaceData (h : Touched m₀ base home (m, a)) (data : List UInt8) :
    Touched m₀ base home ((a.reserve (data.length - (a.image m).data.length) m).writeData data m) := by
  refine (h.fit _).writeData fun b hb => ?_
  have hlen := StoredAccount.fit_lt hb
  omega

theorem Touched.overwriteData (h : Touched m₀ base home (m, a)) (offset : Nat) (bytes : List UInt8) :
    let data := (a.image m).data
    let bytes := bytes.take (data.length - offset)
    Touched m₀ base home (a.writeData (data.take offset ++ bytes ++ data.drop (offset + bytes.length)) m) := by
  refine h.writeData fun b hb => ?_
  have hfits : (a.image m).data.length < 2 ^ 32 := h.1.fits b hb
  simp only [List.length_append, List.length_take, List.length_drop]
  omega

section

variable (h : Loaded m₀ base home m a)

include h

theorem Loaded.touchData :
    Touched m₀ base home (a.touch StoredAccount.markData m) := by
  have hany : (StoredAccount.markData a.markers).any := by simp [StoredAccount.markData, DirtyMarkers.any]
  obtain ⟨htouch, -, hmarkers⟩ := h.touch _ hany id
  exact ⟨htouch, by rw [StoredAccount.dirty, hmarkers]; exact hany⟩

theorem Loaded.dataAsMutSlice (offset : Nat) (bytes : List UInt8) :
    Touched m₀ base home (a.dataAsMutSlice offset bytes m) := h.touchData.overwriteData offset bytes

theorem Loaded.setDataAt (offset : Nat) (bytes : List UInt8) :
    Touched m₀ base home (a.setDataAt offset bytes m) := by
  simp only [StoredAccount.setDataAt]
  refine Touched.extendData (Loaded.dataAsMutSlice ?_ _ _) _
  split
  · exact (h.touchData.resizeData offset 0).1
  · exact h.touchData.1

theorem Loaded.setScalar (same : Bool) {mark : DirtyMarkers → DirtyMarkers}
    {f : AccountCore → AccountCore} (hany : (mark a.markers).any)
    (hmark : ∀ core, Unmarked base a.markers core →
      Unmarked base (mark a.markers) core ∧ Unmarked base (mark a.markers) (f core)) :
    Loaded m₀ base home (a.setScalar same mark f m).1 (a.setScalar same mark f m).2 := by
  unfold StoredAccount.setScalar
  split
  · exact h
  · obtain ⟨htouch, himage, hmarkers⟩ := h.touch mark hany fun hu => (hmark _ hu).1
    exact htouch.writeCore (by rw [StoredAccount.dirty, hmarkers]; exact hany)
      (by rw [hmarkers, himage]; exact (hmark _ h.unmarked).2)

theorem Loaded.setLifecycle (mode : AccountMode) (slot : Nat) :
    Loaded m₀ base home (a.setLifecycle mode slot m).1 (a.setLifecycle mode slot m).2 := by
  simp only [StoredAccount.setLifecycle]
  split
  · exact h
  · obtain ⟨htouch, himage, hmarkers⟩ :=
      h.touch (fun markers => { markers with slot := true, mode := markers.mode || (a.image m).core.mode != mode })
        (by simp [DirtyMarkers.any]) fun hu => ⟨fun hm => hu.1 (Bool.or_eq_false_iff.mp hm).1, hu.2⟩
    refine htouch.writeCore (by simp [StoredAccount.dirty, hmarkers, DirtyMarkers.any]) ?_
    rw [hmarkers, himage]
    -- an unmarked mode is the one that was there
    refine ⟨fun hm => ?_, h.unmarked.2⟩
    simp only [Bool.or_eq_false_iff, bne_eq_false_iff_eq] at hm
    exact hm.2.symm.trans (h.unmarked.1 hm.1)

theorem Loaded.apply (op : AccountOp) :
    Loaded m₀ base home (op.apply m a).1 (op.apply m a).2 := by
  cases op with
  | setLamports lamports => exact h.setScalar _ (by simp [DirtyMarkers.any]) fun _ hu => ⟨hu, hu⟩
  | setOwner owner => exact h.setScalar _ (by simp [DirtyMarkers.any]) fun _ hu => ⟨⟨hu.1, by simp⟩, hu.1, by simp⟩
  | copyIntoOwner owner => exact h.setScalar _ (by simp [DirtyMarkers.any]) fun _ hu => ⟨⟨hu.1, by simp⟩, hu.1, by simp⟩
  | setFlags flags => exact h.setScalar _ (by simp [DirtyMarkers.any]) fun _ hu => ⟨hu, hu⟩
  | setExecutable executable => exact h.setScalar _ (by simp [DirtyMarkers.any]) fun _ hu => ⟨hu, hu⟩
  | setCommitSeq commitSeq => exact h.setScalar _ (by simp [DirtyMarkers.any]) fun _ hu => ⟨hu, hu⟩
  | setLifecycle mode slot => exact h.setLifecycle mode slot
  | resize len val => exact (h.touchData.resizeData len val).1
  | extendFromSlice data => exact (h.touchData.extendData data).1
  | setDataFromSlice data => exact (h.touchData.replaceData data).1
  | dataAsMutSlice offset bytes => exact (h.dataAsMutSlice offset bytes).1
  | setDataAt offset bytes => exact (h.setDataAt offset bytes).1
  | reserve additional => exact (h.fit _).1

theorem Loaded.applyAll (ops : List AccountOp) :
    Loaded m₀ base home (AccountOp.applyAll m a ops).1 (AccountOp.applyAll m a ops).2 := by
  induction ops generalizing m a with
  | nil => exact h
  | cons op rest ih => exact ih (h.apply op)

end

end Mutators

end MagicEngine
