import MagicEngine.Image.Rounds
import MagicEngine.Lib.Transition

/-!
# Reads under a sequence lock

`AccountSeqLock::read` beside a writer, on one storage. The reader loads the sequence for its view, the bytes its callback
asks for, and the sequence again, each in a step of its own; after a changed sequence it points the view to the image that
is active then and runs the callback once more. The writer points a view to the shadow, stores bytes into it one at a time
and publishes it. Between any two steps of one the other may take steps.

A reader that finds its own sequence again has seen no publication, so nothing was stored into its image.
-/

namespace MagicEngine.Raw

open Codec

/-- What a reader's callback does with an image: it loads bytes, each at a position that may depend on those before. -/
inductive Callback (R : Type) where
  | done (result : R)
  | load (position : Nat) (next : UInt8 → Callback R)

/-- The result on an image that does not change; `none` for a position outside. -/
def Callback.eval {R : Type} (image : Bytes) : Callback R → Option R
  | .done result => some result
  | .load position next => image[position]?.bind fun byte => (next byte).eval image

/-- `AccountSeqLock` over a borrowed account. -/
structure AccountSeqLock where
  account : BorrowedAccount
  sequence : Option UInt32
deriving DecidableEq, Repr

def AccountSeqLock.new (account : BorrowedAccount) : AccountSeqLock := { account, sequence := some account.version }

/-- Where the reader is: without a view, between calls of `read`, in the callback with `rest` still to do, before the
`reset` after a changed sequence, or back from the call. -/
inductive Reader (R : Type) where
  | start
  | idle (lock : AccountSeqLock)
  | reading (lock : AccountSeqLock) (callback rest : Callback R)
  | repoint (lock : AccountSeqLock) (callback : Callback R)
  | returned (lock : AccountSeqLock) (callback : Callback R) (result : R)

/-- The storage and both parties. `committed` is the image of the last publication, `rounds` counts the publications. -/
structure World (R : Type) where
  buf : Buffer
  writer : Option BorrowedAccount := none
  reader : Reader R := .start
  committed : Bytes
  rounds : Nat := 0

inductive Action (R : Type) where
  | translate
  | store (position : Nat) (byte : UInt8)
  | commit
  | init
  | call (callback : Callback R)
  | go

def Buffer.image (buf : Buffer) (core : Nat) : Option Bytes := do Storage.read buf core ((← buf.space) * storageUnit)

def Buffer.active (buf : Buffer) : Option Bytes := do buf.image (← BorrowedAccount.init buf).core

def Buffer.load (buf : Buffer) (core position : Nat) : Option UInt8 := do (← buf.image core)[position]?

def Buffer.store (buf : Buffer) (core position : Nat) (byte : UInt8) : Option Buffer := do
  if position < (← buf.space) * storageUnit then Storage.write buf (core + position) [byte] else none

variable {R : Type}

def Reader.init (buf : Buffer) : Reader R → Option (Reader R)
  | .start => do return .idle (.new (← BorrowedAccount.init buf))
  | _ => none

def Reader.go (buf : Buffer) : Reader R → Option (Reader R)
  | .reading lock callback (.load position next) => do
    return .reading lock callback (next (← buf.load lock.account.core position))
  | .reading lock callback (.done result) => do
    let pre := lock.sequence.getD 0
    let post ← buf.sequence
    return if pre = post then .returned lock callback result else .repoint lock callback
  | .repoint lock callback => do
    let account ← lock.account.reset buf
    return .reading { account, sequence := some account.version } callback callback
  | _ => none

/-- `read` is called, with the view of the lock as it is. -/
def Reader.call (callback : Callback R) : Reader R → Option (Reader R)
  | .idle lock => some (.reading lock callback callback)
  | .returned lock _ _ => some (.reading lock callback callback)
  | _ => none

def World.step (w : World R) : Action R → Option (World R)
  | .translate => do
    let view ← BorrowedAccount.init w.buf
    return { w with writer := some { view with core := view.shadow (← w.buf.space) } }
  | .store position byte => do
    let view ← w.writer
    return { w with buf := ← w.buf.store view.core position byte }
  | .commit => do
    let view ← w.writer
    let buf ← view.commit w.buf
    return { w with buf, writer := none, committed := ← buf.image view.core, rounds := w.rounds + 1 }
  | .init => do return { w with reader := ← w.reader.init w.buf }
  | .call callback => do return { w with reader := ← w.reader.call callback }
  | .go => do return { w with reader := ← w.reader.go w.buf }

def Action.isCall : Action R → Bool
  | .call _ => true
  | _ => false

def World.start (p : Parts) : World R := { buf := p.bytes, committed := p.image p.active }

def World.Step (w w' : World R) : Prop := ∃ action, w.step action = some w'

def World.run (w : World R) (actions : List (Action R)) : Option (World R) := actions.foldlM World.step w

theorem World.steps_of_run {w w' : World R} {actions : List (Action R)} (h : w.run actions = some w') :
    Relation.ReflTransGen World.Step w w' := by
  induction actions generalizing w with
  | nil =>
    obtain rfl := Option.some.inj h
    exact .refl
  | cons action rest ih =>
    obtain ⟨w₁, hstep, hrest⟩ := Option.bind_eq_some_iff.mp h
    exact .head ⟨action, hstep⟩ (ih hrest)

/-- A step in which `read` is not called. -/
def World.Continues (w w' : World R) : Prop := ∃ action : Action R, action.isCall = false ∧ w.step action = some w'

/-! ### Bytes of an image -/

section Bytes

variable (p : Parts) (side : Bool)

theorem Parts.image_bytes : Buffer.image p.bytes (p.start side) = some (p.image side) := by
  simp only [Buffer.image, p.space_bytes, bind, Option.bind_some, p.read_whole]

theorem Parts.active_bytes : Buffer.active p.bytes = some (p.image p.active) := by
  simp only [Buffer.active, BorrowedAccount.init_bytes, bind, Option.bind_some, p.image_bytes]

theorem Parts.load_bytes (position : Nat) : Buffer.load p.bytes (p.start side) position = (p.image side)[position]? := by
  simp only [Buffer.load, p.image_bytes, bind, Option.bind_some]

theorem Parts.store_bytes {buf : Buffer} {position : Nat} {byte : UInt8}
    (h : Buffer.store p.bytes (p.start side) position byte = some buf) :
    ∃ image hlength, buf = (p.withImage side image hlength).bytes := by
  simp only [Buffer.store, p.space_bytes, bind, Option.bind_some] at h
  split at h
  · next hlt =>
    rw [← p.length_image side] at hlt
    have hsplit : p.image side = (p.image side).take position ++ [(p.image side)[position]] ++
        (p.image side).drop (position + 1) := by simp
    obtain ⟨hsize, hwrite⟩ := p.write_image hsplit (rfl : [byte].length = [(p.image side)[position]].length)
    rw [List.length_take, Nat.min_eq_left (Nat.le_of_lt hlt), h] at hwrite
    exact ⟨_, hsize, Option.some.inj hwrite⟩
  · cases h

end Bytes

/-! ### What a run keeps -/

/-- A lock of a view that was taken after some number of publications so far. -/
structure Pointed (p : Parts) (base : UInt32) (rounds : Nat) (lock : AccountSeqLock) : Prop where
  sequence : lock.sequence = some lock.account.version
  core : lock.account.core = p.start (activeSide lock.account.version)
  version : ∃ k ≤ rounds, lock.account.version = base + UInt32.ofNat k

/-- As long as the sequence is the reader's, what it has loaded is from the active image. -/
def Reader.Sound (p : Parts) (base : UInt32) (rounds : Nat) : Reader R → Prop
  | .start => True
  | .idle lock => Pointed p base rounds lock
  | .reading lock callback rest => Pointed p base rounds lock ∧
    (p.sequence = lock.account.version → callback.eval (p.image p.active) = rest.eval (p.image p.active))
  | .repoint lock _ => Pointed p base rounds lock
  | .returned lock _ _ => Pointed p base rounds lock

structure World.Inv (base : UInt32) (w : World R) (p : Parts) : Prop where
  buf : w.buf = p.bytes
  committed : w.committed = p.image p.active
  sequence : p.sequence = base + UInt32.ofNat w.rounds
  writer : ∀ view, w.writer = some view → view.core = p.start (!p.active) ∧ view.version = p.sequence
  reader : w.reader.Sound p base w.rounds

variable {p p' : Parts} {base : UInt32} {rounds rounds' : Nat} {lock : AccountSeqLock} {w w' : World R}

theorem Pointed.mono (h : Pointed p base rounds lock) (hspace : p'.space = p.space) (hrounds : rounds ≤ rounds') :
    Pointed p' base rounds' lock where
  sequence := h.sequence
  core := by rw [h.core, Parts.start, Parts.start, hspace]
  version := h.version.imp fun _ hk => ⟨Nat.le_trans hk.1 hrounds, hk.2⟩

theorem Reader.Sound.mono {reader : Reader R} (h : reader.Sound p base rounds) (hspace : p'.space = p.space)
    (hrounds : rounds ≤ rounds')
    (hsame : ∀ k ≤ rounds, p'.sequence = base + UInt32.ofNat k →
      p.sequence = p'.sequence ∧ p'.image p'.active = p.image p.active) :
    reader.Sound p' base rounds' := by
  cases reader with
  | start => trivial
  | idle lock => exact Pointed.mono h hspace hrounds
  | reading lock callback rest =>
    refine ⟨h.1.mono hspace hrounds, fun hsequence => ?_⟩
    obtain ⟨k, hk, hversion⟩ := h.1.version
    obtain ⟨hbefore, himage⟩ := hsame k hk (hsequence.trans hversion)
    rw [himage]
    exact h.2 (hbefore.trans hsequence)
  | repoint lock callback => exact Pointed.mono h hspace hrounds
  | returned lock callback result => exact Pointed.mono h hspace hrounds

theorem sequence_ne {k n : Nat} (hk : k < n) (hn : n < 2 ^ 32) : base + UInt32.ofNat n ≠ base + UInt32.ofNat k := by
  intro h
  have hofNat : UInt32.ofNat n = UInt32.ofNat k := by grind
  have htoNat := congrArg UInt32.toNat hofNat
  rw [UInt32.toNat_ofNat_of_lt' hn, UInt32.toNat_ofNat_of_lt' (Nat.lt_trans hk hn)] at htoNat
  omega

theorem pointed_new (p : Parts) (hsequence : p.sequence = base + UInt32.ofNat rounds) :
    Pointed p base rounds (.new { core := p.start p.active, version := p.sequence }) :=
  ⟨rfl, rfl, rounds, Nat.le_refl _, hsequence⟩

variable {reader reader' : Reader R} {callback : Callback R} {action : Action R}

theorem Reader.sound_init (hsequence : p.sequence = base + UInt32.ofNat rounds)
    (hinit : reader.init p.bytes = some reader') : reader'.Sound p base rounds := by
  unfold Reader.init at hinit
  split at hinit
  · simp only [BorrowedAccount.init_bytes, bind, Option.bind_some, pure] at hinit
    obtain rfl := Option.some.inj hinit
    exact pointed_new p hsequence
  · cases hinit

theorem Reader.Sound.call (h : reader.Sound p base rounds)
    (hcall : reader.call callback = some reader') : reader'.Sound p base rounds := by
  unfold Reader.call at hcall
  split at hcall
  · obtain rfl := Option.some.inj hcall
    exact ⟨h, fun _ => rfl⟩
  · obtain rfl := Option.some.inj hcall
    exact ⟨h, fun _ => rfl⟩
  · cases hcall

theorem Reader.Sound.go (h : reader.Sound p base rounds)
    (hsequence : p.sequence = base + UInt32.ofNat rounds) (hgo : reader.go p.bytes = some reader') :
    reader'.Sound p base rounds := by
  cases reader with
  | start => cases hgo
  | idle lock => cases hgo
  | returned lock callback result => cases hgo
  | repoint lock callback =>
    simp only [Reader.go, BorrowedAccount.reset, BorrowedAccount.init_bytes, bind, Option.bind_some, pure] at hgo
    obtain rfl := Option.some.inj hgo
    exact ⟨pointed_new p hsequence, fun _ => rfl⟩
  | reading lock callback rest =>
    cases rest with
    | done result =>
      simp only [Reader.go, p.sequence_bytes, bind, Option.bind_some, pure] at hgo
      obtain rfl := Option.some.inj hgo
      split
      · exact h.1
      · exact h.1
    | load position next =>
      simp only [Reader.go, h.1.core, p.load_bytes, bind, pure, Option.bind_eq_some_iff] at hgo
      obtain ⟨byte, hbyte, heq⟩ := hgo
      obtain rfl := Option.some.inj heq
      refine ⟨h.1, fun hcurrent => ?_⟩
      rw [← hcurrent] at hbyte
      have hload : (p.image p.active)[position]? = some byte := hbyte
      rw [h.2 hcurrent, Callback.eval, hload, Option.bind_some]

theorem World.Inv.step (h : w.Inv base p) (hstep : w.step action = some w')
    (hrounds : w'.rounds < 2 ^ 32) : ∃ p', w'.Inv base p' := by
  obtain ⟨buf, writer, reader, committed, rounds⟩ := w
  obtain ⟨rfl, rfl, hsequence, hwriter, hreader⟩ := h
  dsimp only at hsequence hwriter hreader
  cases action with
  | translate =>
    simp only [World.step, BorrowedAccount.init_bytes, p.space_bytes, bind, Option.bind_some, pure] at hstep
    obtain rfl := Option.some.inj hstep
    refine ⟨p, rfl, rfl, hsequence, ?_, hreader⟩
    rintro _ ⟨⟩
    exact ⟨BorrowedAccount.shadow_eq rfl, rfl⟩
  | store position byte =>
    simp only [World.step, bind, pure, Option.bind_eq_some_iff] at hstep
    obtain ⟨view, rfl, buf, hstore, heq⟩ := hstep
    obtain rfl := Option.some.inj heq
    rw [(hwriter view rfl).1] at hstore
    obtain ⟨shadow, hlength, rfl⟩ := p.store_bytes _ hstore
    exact ⟨p.withImage (!p.active) shadow hlength, rfl, (p.image_active hlength).symm, hsequence, hwriter,
      hreader.mono rfl (Nat.le_refl _) fun _ _ _ => ⟨rfl, p.image_active hlength⟩⟩
  | commit =>
    simp only [World.step, bind, pure, Option.bind_eq_some_iff] at hstep
    obtain ⟨view, rfl, buf, hcommit, image, himage, heq⟩ := hstep
    obtain rfl := Option.some.inj heq
    obtain ⟨hcore, hversion⟩ := hwriter view rfl
    rw [BorrowedAccount.commit_shadow hcore hversion] at hcommit
    obtain rfl := Option.some.inj hcommit
    have hflips : (p.withSequence (p.sequence + 1)).active = !p.active := activeSide_succ p.sequence
    have hshadow := (p.withSequence (p.sequence + 1)).image_bytes (!p.active)
    have hnext : p.sequence + 1 = base + UInt32.ofNat (rounds + 1) := by
      rw [hsequence, UInt32.ofNat_add, UInt32.add_assoc]
      rfl
    refine ⟨p.withSequence (p.sequence + 1), rfl, ?_, hnext, fun _ hnone => (nomatch hnone), ?_⟩
    · rw [hflips]
      rw [hcore] at himage
      exact Option.some.inj (himage.symm.trans hshadow)
    · refine hreader.mono rfl (Nat.le_succ _) fun k hk hback => ?_
      exact absurd (hnext.symm.trans hback) (sequence_ne (Nat.lt_succ_of_le hk) hrounds)
  | init =>
    simp only [World.step, bind, pure, Option.bind_eq_some_iff] at hstep
    obtain ⟨reader', hinit, heq⟩ := hstep
    obtain rfl := Option.some.inj heq
    exact ⟨p, rfl, rfl, hsequence, hwriter, Reader.sound_init hsequence hinit⟩
  | call callback =>
    simp only [World.step, bind, pure, Option.bind_eq_some_iff] at hstep
    obtain ⟨reader', hcall, heq⟩ := hstep
    obtain rfl := Option.some.inj heq
    exact ⟨p, rfl, rfl, hsequence, hwriter, hreader.call hcall⟩
  | go =>
    simp only [World.step, bind, pure, Option.bind_eq_some_iff] at hstep
    obtain ⟨reader', hgo, heq⟩ := hstep
    obtain rfl := Option.some.inj heq
    exact ⟨p, rfl, rfl, hsequence, hwriter, hreader.go hsequence hgo⟩

/-- A step is the writer's and leaves the reader, or the reader's and leaves the rest. -/
theorem World.step_cases (hstep : w.step action = some w') :
    (action.isCall = false ∧ w'.reader = w.reader ∧ w.rounds ≤ w'.rounds) ∨
    ∃ reader, w' = { w with reader } ∧
      ((action = .init ∧ w.reader.init w.buf = some reader) ∨
        (∃ callback, action = .call callback ∧ w.reader.call callback = some reader) ∨
        (action = .go ∧ w.reader.go w.buf = some reader)) := by
  cases action <;> simp only [World.step, bind, pure, Option.bind_eq_some_iff] at hstep
  case translate =>
    obtain ⟨view, -, space, -, heq⟩ := hstep
    obtain rfl := Option.some.inj heq
    exact .inl ⟨rfl, rfl, Nat.le_refl _⟩
  case store position byte =>
    obtain ⟨view, -, buf, -, heq⟩ := hstep
    obtain rfl := Option.some.inj heq
    exact .inl ⟨rfl, rfl, Nat.le_refl _⟩
  case commit =>
    obtain ⟨view, -, buf, -, image, -, heq⟩ := hstep
    obtain rfl := Option.some.inj heq
    exact .inl ⟨rfl, rfl, Nat.le_succ _⟩
  case init =>
    obtain ⟨reader, hinit, heq⟩ := hstep
    exact .inr ⟨reader, (Option.some.inj heq).symm, .inl ⟨rfl, hinit⟩⟩
  case call callback =>
    obtain ⟨reader, hcall, heq⟩ := hstep
    exact .inr ⟨reader, (Option.some.inj heq).symm, .inr (.inl ⟨callback, rfl, hcall⟩)⟩
  case go =>
    obtain ⟨reader, hgo, heq⟩ := hstep
    exact .inr ⟨reader, (Option.some.inj heq).symm, .inr (.inr ⟨rfl, hgo⟩)⟩

theorem World.rounds_mono (hstep : w.step action = some w') : w.rounds ≤ w'.rounds := by
  obtain ⟨-, -, hle⟩ | ⟨reader, rfl, -⟩ := World.step_cases hstep
  · exact hle
  · exact Nat.le_refl _

theorem World.Inv.run (hrun : Relation.ReflTransGen World.Step (World.start p) w) (hrounds : w.rounds < 2 ^ 32) :
    ∃ p', w.Inv p.sequence p' := by
  induction hrun with
  | refl => exact ⟨p, rfl, rfl, (UInt32.add_zero _).symm, fun _ hnone => (nomatch hnone), trivial⟩
  | tail _ hlast ih =>
    obtain ⟨action, hstep⟩ := hlast
    obtain ⟨p₁, hinv⟩ := ih (Nat.lt_of_le_of_lt (World.rounds_mono hstep) hrounds)
    exact hinv.step hstep hrounds

/-! ### Rounds as steps -/

theorem World.stores {view : BorrowedAccount} (hview : w.writer = some view) (hbuf : w.buf = p.bytes)
    (hcore : view.core = p.start (!p.active)) {x old new y : Bytes} (himage : p.image (!p.active) = x ++ old ++ y)
    (hlength : new.length = old.length) :
    ∃ hsize, Relation.ReflTransGen World.Step w
      { w with buf := (p.withImage (!p.active) (x ++ new ++ y) hsize).bytes } := by
  induction new generalizing x old p w with
  | nil =>
    obtain rfl : old = [] := List.eq_nil_of_length_eq_zero hlength.symm
    refine ⟨himage ▸ p.length_image _, ?_⟩
    simp only [← himage, p.withImage_self, ← hbuf]
    exact .refl
  | cons byte new ih =>
    obtain ⟨first, old, rfl⟩ := List.exists_cons_of_length_pos (by rw [← hlength]; simp)
    have hfirst : p.image (!p.active) = x ++ [first] ++ (old ++ y) := by rw [himage]; simp
    obtain ⟨hsize, hwrite⟩ := p.write_image hfirst (rfl : [byte].length = [first].length)
    have hlt : x.length < p.space * storageUnit := by
      rw [← p.length_image (!p.active), himage]
      simp
    have hstore : w.step (.store x.length byte) =
        some { w with buf := (p.withImage (!p.active) (x ++ [byte] ++ (old ++ y)) hsize).bytes } := by
      simp only [World.step, hview, bind, Option.bind_some, hbuf, Buffer.store, p.space_bytes, if_pos hlt, hcore, hwrite,
        pure]
    have hnext : (p.withImage (!p.active) (x ++ [byte] ++ (old ++ y)) hsize).image (!p.active) = x ++ [byte] ++ old ++ y := by
      simp [Parts.withImage]
    obtain ⟨hsize', hrest⟩ := ih (p := p.withImage (!p.active) (x ++ [byte] ++ (old ++ y)) hsize)
      (w := { w with buf := (p.withImage (!p.active) (x ++ [byte] ++ (old ++ y)) hsize).bytes }) hview rfl hcore hnext
      (Nat.succ.inj hlength)
    have hsame : x ++ [byte] ++ new ++ y = x ++ (byte :: new) ++ y := by simp
    simp only [hsame] at hsize' hrest
    have hbytes := congrArg Parts.bytes (p.withImage_withImage (!p.active) hsize hsize')
    exact ⟨hsize', .head ⟨_, hstore⟩ (hbytes ▸ hrest)⟩

theorem World.fills (hbuf : w.buf = p.bytes) {shadow : Bytes} (hlength : shadow.length = p.space * storageUnit) :
    Relation.ReflTransGen World.Step w { w with
      buf := (p.withImage (!p.active) shadow hlength).bytes
      writer := some { core := p.start (!p.active), version := p.sequence } } := by
  have htranslate : w.step .translate =
      some { w with writer := some { core := p.start (!p.active), version := p.sequence } } := by
    have hshadow := BorrowedAccount.shadow_eq (b := { core := p.start p.active, version := p.sequence }) (p := p) rfl
    simp only [World.step, hbuf, BorrowedAccount.init_bytes, p.space_bytes, bind, Option.bind_some, pure, hshadow]
  obtain ⟨hsize, hstores⟩ := World.stores (p := p) (x := []) (y := [])
    (w := { w with writer := some { core := p.start (!p.active), version := p.sequence } }) rfl hbuf rfl
    (List.append_nil _).symm (hlength.trans (p.length_image _).symm)
  simp only [List.nil_append, List.append_nil] at hstores
  exact .head ⟨_, htranslate⟩ hstores

theorem World.publishes (hbuf : w.buf = p.bytes)
    (hwriter : w.writer = some { core := p.start (!p.active), version := p.sequence }) :
    w.Step { w with
      buf := (p.withSequence (p.sequence + 1)).bytes
      writer := none, committed := p.image (!p.active), rounds := w.rounds + 1 } := by
  have himage := (p.withSequence (p.sequence + 1)).image_bytes (!p.active)
  have hcommit := BorrowedAccount.commit_shadow (b := { core := p.start (!p.active), version := p.sequence }) (p := p)
    rfl rfl
  refine ⟨.commit, ?_⟩
  simp only [World.step, hwriter, hbuf, hcommit, bind, Option.bind_some, pure]
  exact congrArg (Option.bind · _) himage

/-- A round that is not rolled back, as a whole, is a run of the writer's steps. -/
theorem Stores.run_steps {last : OwnedAccount} {round : Round} {buf : Buffer} {committed : Option OwnedAccount}
    (hlast : Stores p last) (hending : round.ending ≠ .rollback) (hrun : round.run p.bytes = some (buf, committed))
    (hbuf : w.buf = p.bytes) :
    ∃ w', Relation.ReflTransGen World.Step w w' ∧ w'.buf = buf ∧ w'.reader = w.reader := by
  obtain ⟨img, himage, -⟩ := hlast
  obtain ⟨buf₁, ⟨cow, markers⟩, v, happly, h⟩ := (Represents.init himage).applyAll round.mutators
  simp only [Round.run, BorrowedAccount.init_bytes, happly, bind, Option.bind_some] at hrun
  obtain ⟨shadow, hlength, hshadow⟩ := h.bytes
  have hfills := World.fills hbuf hlength
  rw [← hshadow] at hfills
  cases cow with
  | owned a =>
    obtain ⟨rfl, -⟩ := Prod.mk.inj (Option.some.inj hrun)
    exact ⟨_, hfills, rfl, rfl⟩
  | borrowed b =>
    cases hround : round.ending with
    | rollback => exact absurd hround hending
    | abandon =>
      rw [hround] at hrun
      obtain ⟨rfl, -⟩ := Prod.mk.inj (Option.some.inj hrun)
      exact ⟨_, hfills, rfl, rfl⟩
    | reset =>
      simp only [hround, BorrowedAccount.finish, bind, pure, Option.bind_eq_some_iff] at hrun
      obtain ⟨_, -, heq⟩ := hrun
      obtain ⟨rfl, -⟩ := Prod.mk.inj (Option.some.inj heq)
      exact ⟨_, hfills, rfl, rfl⟩
    | commit =>
      simp only [hround, BorrowedAccount.finish, bind, pure, Option.bind_eq_some_iff] at hrun
      obtain ⟨buf₂, hcommit, account, -, heq⟩ := hrun
      obtain ⟨rfl, -⟩ := Prod.mk.inj (Option.some.inj heq)
      rcases h.commit.2 with ⟨rfl, -, hclean⟩ | ⟨shadow, hlength, rfl, hpublish, -⟩
      · exact ⟨w, .refl, hbuf.trans (Option.some.inj (hclean.symm.trans hcommit)), rfl⟩
      · cases hpublish.symm.trans hcommit
        have hstep := World.publishes (p := p.withImage (!p.active) shadow hlength)
          (w := { w with
            buf := (p.withImage (!p.active) shadow hlength).bytes
            writer := some { core := p.start (!p.active), version := p.sequence } }) rfl rfl
        exact ⟨_, (World.fills hbuf hlength).tail hstep, rfl, rfl⟩

/-- Rounds of mutations that are not rolled back are runs of the writer beside its readers. -/
theorem rounds_are_steps {last : OwnedAccount} (hlast : Stores p last) (rounds : List Round)
    (hendings : ∀ round ∈ rounds, round.ending ≠ .rollback) (hbuf : w.buf = p.bytes) :
    ∃ buf last' w', runRounds p.bytes last rounds = some (buf, last') ∧ Relation.ReflTransGen World.Step w w' ∧
      w'.buf = buf ∧ w'.reader = w.reader := by
  induction rounds generalizing p last w with
  | nil => exact ⟨p.bytes, last, w, rfl, .refl, hbuf, rfl⟩
  | cons round rest ih =>
    obtain ⟨hending, hendings⟩ := List.forall_mem_cons.mp hendings
    obtain ⟨p₁, committed, hrun, -, hstores⟩ := hlast.run round
    obtain ⟨w₁, hsteps, hbuf₁, hreader₁⟩ := hlast.run_steps hending hrun hbuf
    obtain ⟨buf, last', w', hrest, hsteps', hbuf', hreader'⟩ := ih hstores hendings hbuf₁
    refine ⟨buf, last', w', ?_, hsteps.trans hsteps', hbuf', hreader'.trans hreader₁⟩
    simp only [runRounds, hrun, bind, Option.bind_some, hrest]

/-- One round that commits and one that is abandoned, over a serialized account. -/
theorem rounds_are_steps_two : ∃ (p : Parts) (buf : Buffer) (last : OwnedAccount) (w : World UInt8),
    runRounds p.bytes { data := [1, 2, 3] } [⟨[.setDataAt 1 [9]], .commit⟩, ⟨[.setLamports 5], .abandon⟩] =
      some (buf, last) ∧ Relation.ReflTransGen World.Step (World.start p) w ∧ w.buf = buf := by
  have haccount : Serializable { data := [1, 2, 3] } := by decide
  obtain ⟨p, img, -, -, -, -, himage, hstored⟩ := serialize_parts ⟨7⟩ haccount (List.length_replicate (a := (0 : UInt8)))
  obtain ⟨buf, last, w, hrun, hsteps, hbuf, -⟩ := rounds_are_steps (w := World.start p) ⟨img, himage, hstored⟩
    [⟨[.setDataAt 1 [9]], .commit⟩, ⟨[.setLamports 5], .abandon⟩] (by simp) rfl
  exact ⟨p, buf, last, w, hrun, hsteps, hbuf⟩

/-! ### Results -/

/-- A call returns at the check of a callback that is done, and only there. -/
theorem Reader.go_returned {reader : Reader R} {buf : Buffer} {result : R}
    (h : reader.go buf = some (.returned lock callback result)) :
    reader = .reading lock callback (.done result) ∧ buf.sequence = some (lock.sequence.getD 0) := by
  unfold Reader.go at h
  split at h
  · simp [Option.bind_eq_some_iff] at h
  · simp only [bind, pure, Option.bind_eq_some_iff, Option.some.injEq] at h
    obtain ⟨post, hpost, heq⟩ := h
    split at heq
    · next hsame =>
      cases heq
      exact ⟨rfl, hsame ▸ hpost⟩
    · cases heq
  · simp [Option.bind_eq_some_iff] at h
  · cases h

/-- A step after which a call has returned does not call, and either it had returned before or this is its check. -/
theorem World.step_returned {result : R} (hstep : w.step action = some w')
    (hreader : w'.reader = .returned lock callback result) :
    action.isCall = false ∧ (w.reader = .returned lock callback result ∨
      w.reader = .reading lock callback (.done result) ∧ w.buf.sequence = some (lock.sequence.getD 0)) := by
  obtain ⟨hcall, hsame, -⟩ | ⟨reader, rfl, ⟨rfl, hinit⟩ | ⟨callback', rfl, hcall⟩ | ⟨rfl, hgo⟩⟩ := World.step_cases hstep
  · exact ⟨hcall, .inl (hsame ▸ hreader)⟩
  · obtain rfl : reader = _ := hreader
    unfold Reader.init at hinit
    split at hinit
    · simp [Option.bind_eq_some_iff] at hinit
    · cases hinit
  · obtain rfl : reader = _ := hreader
    unfold Reader.call at hcall
    split at hcall <;> cases hcall
  · obtain rfl : reader = _ := hreader
    exact ⟨rfl, .inr (Reader.go_returned hgo)⟩

/-- Whatever a call of `read` returns beside fewer than 2^32 publications is the result of its callback on one committed
image, the one that was active when the call checked the sequence for the last time. -/
theorem seqlock_read_consistent {callback : Callback R} {result : R}
    (hrun : Relation.ReflTransGen World.Step (World.start p) w) (hrounds : w.rounds < 2 ^ 32)
    (hreader : w.reader = .returned lock callback result) :
    ∃ w₁ lock₁ rest, Relation.ReflTransGen World.Step (World.start p) w₁ ∧ Relation.ReflTransGen World.Continues w₁ w ∧
      w₁.reader = .reading lock₁ callback rest ∧ w₁.buf.active = some w₁.committed ∧
      callback.eval w₁.committed = some result := by
  induction hrun with
  | refl => cases hreader
  | @tail w' w hbefore hlast ih =>
    obtain ⟨action, hstep⟩ := hlast
    have hrounds' := Nat.lt_of_le_of_lt (World.rounds_mono hstep) hrounds
    obtain ⟨hcall, hreturned | ⟨hreading, hsequence⟩⟩ := World.step_returned hstep hreader
    · obtain ⟨w₁, lock₁, rest, hrun₁, hcontinues, hw₁⟩ := ih hrounds' hreturned
      exact ⟨w₁, lock₁, rest, hrun₁, hcontinues.tail ⟨action, hcall, hstep⟩, hw₁⟩
    · refine ⟨w', lock, .done result, hbefore, .single ⟨action, hcall, hstep⟩, hreading, ?_⟩
      -- the sequence is the lock's, so everything the callback has loaded is from the active image
      obtain ⟨p', hinv⟩ := World.Inv.run hbefore hrounds'
      have hsound := hinv.reader
      rw [hreading] at hsound
      rw [hinv.buf, p'.sequence_bytes, hsound.1.sequence] at hsequence
      rw [hinv.buf, hinv.committed, p'.active_bytes, hsound.2 (Option.some.inj hsequence)]
      exact ⟨rfl, rfl⟩

def zeroed : Parts where
  sequence := 0
  space := 8
  pubkey := ⟨7⟩
  image := fun _ => List.replicate 64 0
  length_image := fun _ => List.length_replicate
  minimum := by decide
  maximum := by decide

def firstByte : Callback UInt8 := .load 0 .done

/-- A publication between the load of a byte and the check. -/
def overtaken : List (Action UInt8) :=
  [.init, .call firstByte, .go, .translate, .store 0 9, .commit, .go, .go, .go, .go]

set_option maxRecDepth 40000 in
theorem run_overtaken : ∃ w lock, (World.start zeroed).run overtaken = some w ∧ w.rounds = 1 ∧
    w.reader = .returned lock firstByte 9 := by
  exact ⟨_, _, rfl, rfl, rfl⟩

/-- The reader loads the byte again and returns what was published. -/
theorem seqlock_read_consistent_retry : ∃ (w : World UInt8) (lock : AccountSeqLock),
    Relation.ReflTransGen World.Step (World.start zeroed) w ∧ w.rounds = 1 ∧ w.reader = .returned lock firstByte 9 ∧
    ∃ w₁ lock₁ rest, Relation.ReflTransGen World.Step (World.start zeroed) w₁ ∧
      Relation.ReflTransGen World.Continues w₁ w ∧ w₁.reader = .reading lock₁ firstByte rest ∧
      w₁.buf.active = some w₁.committed ∧ firstByte.eval w₁.committed = some 9 := by
  obtain ⟨w, lock, hrun, hrounds, hreader⟩ := run_overtaken
  have hsteps := World.steps_of_run hrun
  exact ⟨w, lock, hsteps, hrounds, hreader, seqlock_read_consistent hsteps (by rw [hrounds]; decide) hreader⟩

end MagicEngine.Raw
