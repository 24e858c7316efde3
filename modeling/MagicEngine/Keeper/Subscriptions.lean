import Mathlib.Algebra.BigOperators.Group.Finset.Basic
import MagicEngine.Keeper.Subscribers
import MagicEngine.Ledger.Entry
import MagicEngine.Lib.Schedule

/-!
# Signature subscriptions

`subscribe_signature` (`keeper/src/accessor.rs`) registers its sender, reads the status, and if there is one sends it to
everybody registered. A commit writes the status to the cache and then does the same. The cache entry of the transaction
`tx` is taken to stay, and so the status is there for whoever registers too late for the commit (`Inv.served`). Other
entries of the cache come and go freely, and a call that finds no entry asks the ledger.
-/

namespace MagicEngine.Signatures

/-! ### Calls -/

structure Channel (St : Type) where
  signature : Signature
  dropped : Bool := false
  received : List St := []

inductive Progress where
  | pending
  /-- The execution was sent to the appender. -/
  | appended
  | cached
  | fannedOut
deriving DecidableEq, Repr

structure Shared (St : Type) where
  senders : Subscribers Signature Nat := {}
  /-- The live entries of `caches.signatures`. -/
  cache : SignaturePrefix → Option (Option St) := fun _ => none
  channels : Nat → Channel St := fun _ => { signature := default }
  next : Nat := 0
  progress : Progress := .pending

/-- Where a thread is. The fan-out is made by a subscriber, for the receiver it registered, or by the commit. -/
inductive Phase (St : Type) where
  | idle
  | registering (signature : Signature) (receiver : Nat)
  | reading (signature : Signature) (receiver : Nat)
  /-- The cache had no entry and the ledger is asked. -/
  | asking (signature : Signature) (receiver : Nat)
  | committing
  /-- In `Signatures::send`, before the look at the counter. -/
  | checking (signature : Signature) (status : St) (receiver : Option Nat)
  | removing (signature : Signature) (status : St) (receiver : Option Nat)
  | subtracting (status : St) (senders : List Nat)
  | delivering (status : St) (senders : List Nat)
deriving DecidableEq, Repr

inductive Choice (St : Type) where
  | subscribe (signature : Signature)
  | append
  | commit
  | clean (signature : Signature) (keep : Nat → Bool)
  | forget (receiver : Nat)
  /-- Another entry of the cache appears, changes or expires. -/
  | change (key : SignaturePrefix) (value : Option (Option St))
  | answer (value : Option St)
  /-- The request to the ledger fails, or the caller gives up. -/
  | cancel
  | go

namespace Shared

variable {St : Type}

def create (s : Shared St) (signature : Signature) : Shared St :=
  { s with channels := Function.update s.channels s.next { signature }, next := s.next + 1 }

def setCache (s : Shared St) (key : SignaturePrefix) (value : Option (Option St)) : Shared St :=
  { s with cache := Function.update s.cache key value }

def setSenders (s : Shared St) (senders : Subscribers Signature Nat) : Shared St := { s with senders }

def drop (s : Shared St) (receiver : Nat) : Shared St :=
  { s with channels := Function.update s.channels receiver { s.channels receiver with dropped := true } }

/-- `oneshot::Sender::send`: a dropped receiver gets nothing. -/
def send (s : Shared St) (receiver : Nat) (status : St) : Shared St :=
  if (s.channels receiver).dropped then s
  else
    { s with
      channels := Function.update s.channels receiver
        { s.channels receiver with received := (s.channels receiver).received ++ [status] } }

def advance (s : Shared St) (progress : Progress) : Shared St := { s with progress }

/-- The lists are taken; the commit has then nothing more to add. -/
def taken (s : Shared St) (receiver : Option Nat) : Shared St :=
  match receiver with
  | none => s.advance .fannedOut
  | some _ => s

/-- `cleanup` removes the senders of dropped receivers only. -/
def Closed (s : Shared St) (signature : Signature) (keep : Nat → Bool) : Prop :=
  ∀ r ∈ s.senders.senders signature, keep r = false → (s.channels r).dropped = true

instance (s : Shared St) (signature : Signature) (keep : Nat → Bool) : Decidable (s.Closed signature keep) :=
  inferInstanceAs (Decidable (∀ r ∈ _, _))

end Shared

section Model

variable {St : Type} [DecidableEq St] (tx : Signature) (status : St)

/-- What the ledger may answer: for the transaction nothing, or its status once the execution was appended. -/
def Answers (s : Shared St) (signature : Signature) (value : Option St) : Prop :=
  signature = tx → value = none ∨ (value = some status ∧ s.progress ≠ .pending)

instance (s : Shared St) (signature : Signature) (value : Option St) : Decidable (Answers tx status s signature value) :=
  inferInstanceAs (Decidable (_ → _))

/-- One step of `subscribe_signature`, of the end of `commit_execution`, of a cleanup pass or of the surroundings. -/
def step (c : Choice St) (p : Phase St) (s : Shared St) : Option (Phase St × Shared St) :=
  match p, c with
  | .idle, .subscribe signature => some (.registering signature s.next, s.create signature)
  | .idle, .append =>
    if s.cache tx.signaturePrefix = none then some (.idle, s.setCache tx.signaturePrefix (some none)) else none
  | .idle, .commit =>
    if s.progress = .pending ∧ s.cache tx.signaturePrefix = some none then some (.committing, s.advance .appended)
    else none
  | .idle, .clean signature keep =>
    if s.Closed signature keep then some (.idle, s.setSenders (s.senders.prune signature keep)) else none
  | .idle, .forget receiver => some (.idle, s.drop receiver)
  | .idle, .change key value => if key = tx.signaturePrefix then none else some (.idle, s.setCache key value)
  -- Both halves of the registration: nobody else gets at the list in between, and a counter that is read there is not
  -- zero, as it is afterwards.
  | .registering signature r, .go => some (.reading signature r, s.setSenders (s.senders.insert signature r))
  | .reading signature r, .go =>
    match s.cache signature.signaturePrefix with
    | none => some (.asking signature r, s)
    | some none => some (.idle, s)
    | some (some st) => some (.checking signature st (some r), s)
  | .asking signature r, .answer value =>
    if Answers tx status s signature value then
      match value with
      | none => some (.idle, s)
      | some st => some (.checking signature st (some r), s)
    else none
  | .asking _ r, .cancel => some (.idle, s.drop r)
  | .committing, .go =>
    some (.checking tx status none, (s.setCache tx.signaturePrefix (some (some status))).advance .cached)
  | .checking signature st r, .go =>
    if s.senders.isEmpty then some (.idle, s.taken r) else some (.removing signature st r, s)
  | .removing signature st r, .go =>
    match s.senders.detach signature with
    | none => some (.idle, s.taken r)
    | some (senders, rest) => some (.subtracting st senders, (s.taken r).setSenders rest)
  | .subtracting st senders, .go => some (.delivering st senders, s.setSenders s.senders.subtract)
  | .delivering _ [], .go => some (.idle, s)
  | .delivering st (r :: senders), .go => some (.delivering st senders, s.send r st)
  | _, _ => none

def system (Thread : Type) : Schedule.System Thread (Phase St) (Shared St) (Choice St) where
  step _ := step tx status
  busy p := p ≠ .idle

end Model

abbrev World (Thread St : Type) := Schedule.World Thread (Phase St) (Shared St)

def initial (Thread St : Type) : World Thread St := ⟨fun _ => .idle, {}⟩

inductive Reachable {Thread St : Type} [DecidableEq Thread] [DecidableEq St] (tx : Signature) (status : St) :
    World Thread St → Prop where
  | initial : Reachable tx status (initial Thread St)
  | move {w w' : World Thread St} (h : Reachable tx status w) (t : Thread) (c : Choice St)
      (hmove : (system tx status Thread).move t c w = some w') : Reachable tx status w'

/-! ### What a step does -/

variable {St : Type}

inductive Step (tx : Signature) (status : St) (s : Shared St) : Phase St → Phase St → Shared St → Prop where
  | subscribe (sig : Signature) : Step tx status s .idle (.registering sig s.next) (s.create sig)
  | append (h : s.cache tx.signaturePrefix = none) :
      Step tx status s .idle .idle (s.setCache tx.signaturePrefix (some none))
  | commit (hpending : s.progress = .pending) (h : s.cache tx.signaturePrefix = some none) :
      Step tx status s .idle .committing (s.advance .appended)
  | clean (sig : Signature) (keep : Nat → Bool) (h : s.Closed sig keep) :
      Step tx status s .idle .idle (s.setSenders (s.senders.prune sig keep))
  | forget (r : Nat) : Step tx status s .idle .idle (s.drop r)
  | change (key : SignaturePrefix) (value : Option (Option St)) (h : key ≠ tx.signaturePrefix) :
      Step tx status s .idle .idle (s.setCache key value)
  | register (sig : Signature) (r : Nat) :
      Step tx status s (.registering sig r) (.reading sig r) (s.setSenders (s.senders.insert sig r))
  | miss (sig : Signature) (r : Nat) (h : s.cache sig.signaturePrefix = none) :
      Step tx status s (.reading sig r) (.asking sig r) s
  | reserved (sig : Signature) (r : Nat) (h : s.cache sig.signaturePrefix = some none) :
      Step tx status s (.reading sig r) .idle s
  | hit (sig : Signature) (r : Nat) (st : St) (h : s.cache sig.signaturePrefix = some (some st)) :
      Step tx status s (.reading sig r) (.checking sig st (some r)) s
  | absent (sig : Signature) (r : Nat) : Step tx status s (.asking sig r) .idle s
  | answer (sig : Signature) (r : Nat) (st : St) (h : sig = tx → st = status) :
      Step tx status s (.asking sig r) (.checking sig st (some r)) s
  | cancel (sig : Signature) (r : Nat) : Step tx status s (.asking sig r) .idle (s.drop r)
  | publish : Step tx status s .committing (.checking tx status none)
      ((s.setCache tx.signaturePrefix (some (some status))).advance .cached)
  | skip (sig : Signature) (st : St) (r : Option Nat) (h : s.senders.isEmpty = true) :
      Step tx status s (.checking sig st r) .idle (s.taken r)
  | look (sig : Signature) (st : St) (r : Option Nat) (h : s.senders.isEmpty = false) :
      Step tx status s (.checking sig st r) (.removing sig st r) s
  | gone (sig : Signature) (st : St) (r : Option Nat) (h : s.senders.detach sig = none) :
      Step tx status s (.removing sig st r) .idle (s.taken r)
  | detach (sig : Signature) (st : St) (r : Option Nat) (senders : List Nat) (rest : Subscribers Signature Nat)
      (h : s.senders.detach sig = some (senders, rest)) :
      Step tx status s (.removing sig st r) (.subtracting st senders) ((s.taken r).setSenders rest)
  | subtract (st : St) (senders : List Nat) :
      Step tx status s (.subtracting st senders) (.delivering st senders) (s.setSenders s.senders.subtract)
  | finish (st : St) : Step tx status s (.delivering st []) .idle s
  | deliver (st : St) (r : Nat) (senders : List Nat) :
      Step tx status s (.delivering st (r :: senders)) (.delivering st senders) (s.send r st)

theorem step_cases [DecidableEq St] {tx : Signature} {status : St} {c : Choice St} {p p' : Phase St} {s s' : Shared St}
    (h : step tx status c p s = some (p', s')) : Step tx status s p p' s' := by
  unfold step at h
  split at h
  · cases h
    exact .subscribe _
  · split at h
    · cases h
      exact .append ‹_›
    · cases h
  · split at h
    · next hguard =>
      cases h
      exact .commit hguard.1 hguard.2
    · cases h
  · split at h
    · cases h
      exact .clean _ _ ‹_›
    · cases h
  · cases h
    exact .forget _
  · split at h
    · cases h
    · cases h
      exact .change _ _ ‹_›
  · cases h
    exact .register _ _
  · split at h
    · cases h
      exact .miss _ _ ‹_›
    · cases h
      exact .reserved _ _ ‹_›
    · cases h
      exact .hit _ _ _ ‹_›
  · split at h
    · next hanswer =>
      split at h
      · cases h
        exact .absent _ _
      · cases h
        refine .answer _ _ _ fun heq => ?_
        rcases hanswer heq with hnone | ⟨hsome, -⟩
        · cases hnone
        · exact Option.some.inj hsome
    · cases h
  · cases h
    exact .cancel _ _
  · cases h
    exact .publish
  · split at h
    · cases h
      exact .skip _ _ _ ‹_›
    · next hempty =>
      cases h
      exact .look _ _ _ (Bool.eq_false_of_not_eq_true hempty)
  · split at h
    · cases h
      exact .gone _ _ _ ‹_›
    · cases h
      exact .detach _ _ _ _ _ ‹_›
  · cases h
    exact .subtract _ _
  · cases h
    exact .finish _
  · cases h
    exact .deliver _ _ _
  · cases h

/-! ### Channels on their way -/

def Phase.hands : Phase St → List Nat
  | .registering _ r => [r]
  | .subtracting _ senders => senders
  | .delivering _ senders => senders
  | _ => []

/-- Every sender is in one place, the hands of a thread or the list of its signature, until it is used or closed. -/
structure Routed {Thread : Type} (places : Thread ⊕ Signature → List Nat) (channels : Nat → Channel St) (next : Nat) :
    Prop where
  nodup : ∀ p, (places p).Nodup
  apart : ∀ p q r, r ∈ places p → r ∈ places q → p = q
  signed : ∀ sig, ∀ r ∈ places (.inr sig), (channels r).signature = sig
  fresh : ∀ p, ∀ r ∈ places p, r < next
  unsent : ∀ p, ∀ r ∈ places p, (channels r).received = []
  kept : ∀ r < next, (channels r).received = [] → (channels r).dropped = false → ∃ p, r ∈ places p
  once : ∀ r, (channels r).received.length ≤ 1

namespace Routed

variable {Thread : Type} [DecidableEq Thread] {places : Thread ⊕ Signature → List Nat} {channels : Nat → Channel St}
  {next : Nat} {t : Thread} {sig : Signature} {r : Nat} {senders : List Nat}

theorem create (sig : Signature) (h : Routed places channels next) (hhands : places (.inl t) = []) :
    Routed (Function.update places (.inl t) [next]) (Function.update channels next { signature := sig }) (next + 1) where
  nodup p := by
    have := h.nodup p
    grind
  apart p q r := by
    have := h.apart p q r
    have := h.fresh p r
    have := h.fresh q r
    grind
  signed sig' r := by
    have := h.signed sig' r
    have := h.fresh (.inr sig') r
    grind
  fresh p r := by
    have := h.fresh p r
    grind
  unsent p r := by
    have := h.unsent p r
    have := h.fresh p r
    grind
  kept r hr hunsent hopen := by
    by_cases hnew : r = next
    · exact ⟨.inl t, by simp [hnew]⟩
    · rw [Function.update_of_ne hnew] at hunsent hopen
      obtain ⟨p, hp⟩ := h.kept r (by omega) hunsent hopen
      have hne : p ≠ .inl t := by
        rintro rfl
        rw [hhands] at hp
        cases hp
      exact ⟨p, by rwa [Function.update_of_ne hne]⟩
  once r := by
    have := h.once r
    grind

omit [DecidableEq Thread] in
/-- Senders change their places, and only closed ones are lost. -/
theorem rearrange (h : Routed places channels next) {places' : Thread ⊕ Signature → List Nat}
    (hnodup : ∀ p, (places' p).Nodup) (hapart : ∀ p q r, r ∈ places' p → r ∈ places' q → p = q)
    (hsigned : ∀ sig, ∀ r ∈ places' (.inr sig), (channels r).signature = sig)
    (hold : ∀ p, ∀ r ∈ places' p, ∃ q, r ∈ places q)
    (hkept : ∀ q, ∀ r ∈ places q, (channels r).dropped = false → ∃ p, r ∈ places' p) :
    Routed places' channels next where
  nodup := hnodup
  apart := hapart
  signed := hsigned
  fresh p r hr := (hold p r hr).elim fun q hq => h.fresh q r hq
  unsent p r hr := (hold p r hr).elim fun q hq => h.unsent q r hq
  kept r hr hunsent hopen := (h.kept r hr hunsent hopen).elim fun q hq => hkept q r hq hopen
  once := h.once

theorem register (h : Routed places channels next) (hhands : places (.inl t) = [r])
    (hsig : (channels r).signature = sig) :
    Routed (Function.update (Function.update places (.inl t) []) (.inr sig) (places (.inr sig) ++ [r])) channels next := by
  have hr : r ∈ places (.inl t) := by simp [hhands]
  have hnew : ∀ p, p ≠ .inl t → r ∉ places p := fun p hp hmem => hp (h.apart p _ r hmem hr)
  refine h.rearrange (fun p => ?_) (fun p q x => ?_) (fun sig' x => ?_) (fun p x => ?_) fun q x hx _ => ?_
  · have := h.nodup p
    have := hnew p
    grind
  · have := h.apart p q x
    have := hnew p
    have := hnew q
    grind
  · have := h.signed sig' x
    grind
  · grind
  · by_cases hq : q = .inl t
    · refine ⟨.inr sig, ?_⟩
      grind
    · refine ⟨q, ?_⟩
      grind

theorem prune (sig : Signature) (h : Routed places channels next) {keep : Nat → Bool}
    (hclosed : ∀ r ∈ places (.inr sig), keep r = false → (channels r).dropped = true) :
    Routed (Function.update places (.inr sig) ((places (.inr sig)).filter keep)) channels next := by
  refine h.rearrange (fun p => ?_) (fun p q x => ?_) (fun sig' x => ?_) (fun p x => ?_) fun q x hx hopen => ⟨q, ?_⟩
  · have := h.nodup p
    grind
  · have := h.apart p q x
    grind
  · have := h.signed sig' x
    grind
  · grind
  · grind

theorem detach (sig : Signature) (h : Routed places channels next) (hhands : places (.inl t) = []) :
    Routed (Function.update (Function.update places (.inl t) (places (.inr sig))) (.inr sig) []) channels next := by
  refine h.rearrange (fun p => ?_) (fun p q x => ?_) (fun sig' x => ?_) (fun p x => ?_) fun q x hx _ => ?_
  · have := h.nodup p
    have := h.nodup (.inr sig)
    grind
  · have := h.apart p q x
    have := h.apart (.inr sig) q x
    have := h.apart p (.inr sig) x
    grind
  · have := h.signed sig' x
    grind
  · grind
  · by_cases hq : q = .inr sig
    · refine ⟨.inl t, ?_⟩
      grind
    · refine ⟨q, ?_⟩
      grind

omit [DecidableEq Thread] in
theorem drop (h : Routed places channels next) (r : Nat) :
    Routed places (Function.update channels r { channels r with dropped := true }) next where
  nodup := h.nodup
  apart := h.apart
  signed sig x := by
    have := h.signed sig x
    grind
  fresh := h.fresh
  unsent p x := by
    have := h.unsent p x
    grind
  kept x := by
    have := h.kept x
    grind
  once x := by
    have := h.once x
    grind

theorem deliver (h : Routed places channels next) (hhands : places (.inl t) = r :: senders) {st : St}
    {channels' : Nat → Channel St} (hothers : ∀ x, x ≠ r → channels' x = channels x)
    (hsignature : (channels' r).signature = (channels r).signature)
    (hsent : channels' r = channels r ∧ (channels r).dropped = true ∨ (channels' r).received = [st]) :
    Routed (Function.update places (.inl t) senders) channels' next := by
  have hr : r ∈ places (.inl t) := by simp [hhands]
  have hgone : ∀ p, r ∉ Function.update places (.inl t) senders p := by
    intro p
    have := h.nodup (.inl t)
    have := h.apart p (.inl t) r
    grind
  have hold : ∀ p x, x ∈ Function.update places (.inl t) senders p → x ∈ places p := by
    intro p x
    grind
  refine ⟨fun p => ?_, fun p q x hp hq => h.apart p q x (hold p x hp) (hold q x hq), fun sig' x hx => ?_,
    fun p x hx => h.fresh p x (hold p x hx), fun p x hx => ?_, fun x hx hunsent hopen => ?_, fun x => ?_⟩
  · have := h.nodup p
    grind
  · rw [hothers x fun heq => hgone _ (heq ▸ hx)]
    exact h.signed sig' x (hold _ x hx)
  · rw [hothers x fun heq => hgone _ (heq ▸ hx)]
    exact h.unsent p x (hold p x hx)
  · have hne : x ≠ r := by
      rintro rfl
      rcases hsent with ⟨heq, hdropped⟩ | hsent
      · rw [heq, hdropped] at hopen
        cases hopen
      · rw [hsent] at hunsent
        cases hunsent
    rw [hothers x hne] at hunsent hopen
    obtain ⟨p, hp⟩ := h.kept x hx hunsent hopen
    refine ⟨p, ?_⟩
    grind
  · have := h.once x
    grind

end Routed

/-! ### The invariant -/

namespace Shared

@[simp] theorem taken_senders (s : Shared St) (r : Option Nat) : (s.taken r).senders = s.senders := by cases r <;> rfl

@[simp] theorem taken_cache (s : Shared St) (r : Option Nat) : (s.taken r).cache = s.cache := by cases r <;> rfl

@[simp] theorem taken_channels (s : Shared St) (r : Option Nat) : (s.taken r).channels = s.channels := by
  cases r <;> rfl

@[simp] theorem taken_next (s : Shared St) (r : Option Nat) : (s.taken r).next = s.next := by cases r <;> rfl

@[simp] theorem send_senders (s : Shared St) (r : Nat) (st : St) : (s.send r st).senders = s.senders := by
  unfold send
  split <;> rfl

@[simp] theorem send_cache (s : Shared St) (r : Nat) (st : St) : (s.send r st).cache = s.cache := by
  unfold send
  split <;> rfl

@[simp] theorem send_next (s : Shared St) (r : Nat) (st : St) : (s.send r st).next = s.next := by
  unfold send
  split <;> rfl

@[simp] theorem send_progress (s : Shared St) (r : Nat) (st : St) : (s.send r st).progress = s.progress := by
  unfold send
  split <;> rfl

theorem send_eq (s : Shared St) (r : Nat) (st : St) : ∃ channels, s.send r st = { s with channels } ∧
    (∀ x, x ≠ r → channels x = s.channels x) ∧ (channels r).signature = (s.channels r).signature ∧
    (channels r = s.channels r ∧ (s.channels r).dropped = true ∨
      (channels r).received = (s.channels r).received ++ [st]) := by
  unfold send
  split
  · next hdropped => exact ⟨s.channels, rfl, fun _ _ => rfl, rfl, .inl ⟨rfl, hdropped⟩⟩
  · exact ⟨_, rfl, fun x hx => Function.update_of_ne hx .., by simp, .inr (by simp)⟩

end Shared

def Progress.isCached : Progress → Bool
  | .cached | .fannedOut => true
  | _ => false

namespace Phase

def detached : Phase St → Nat
  | .subtracting _ _ => 1
  | _ => 0

/-- What a thread carries is right for the transaction. -/
def Carries (tx : Signature) (status : St) (s : Shared St) : Phase St → Prop
  | .registering sig r => (s.channels r).signature = sig
  | .checking sig st r => (sig = tx → st = status) ∧ (r = none → sig = tx ∧ s.progress.isCached = true)
  | .removing sig st r => (sig = tx → st = status) ∧ (r = none → sig = tx ∧ s.progress.isCached = true)
  | .subtracting st senders => ∀ r ∈ senders, (s.channels r).signature = tx → st = status
  | .delivering st senders => ∀ r ∈ senders, (s.channels r).signature = tx → st = status
  | _ => True

/-- A subscriber that registered its sender and has not looked for a result, or is to take the list. -/
def Serves (tx : Signature) (r : Nat) : Phase St → Prop
  | .reading sig x => sig = tx ∧ x = r
  | .checking sig _ x => sig = tx ∧ x = some r
  | .removing sig _ x => sig = tx ∧ x = some r
  | _ => False

def Commits : Phase St → Prop
  | .committing => True
  | .checking _ _ r => r = none
  | .removing _ _ r => r = none
  | _ => False

end Phase

section Steps

variable {tx : Signature} {status : St} {s s' : Shared St} {p p' q : Phase St} {n r : Nat}

theorem Step.counted (h : Step tx status s p p' s') (hfree : s.senders.held = [])
    (hcounted : s.senders.Reachable (n + p.detached)) :
    s'.senders.held = [] ∧ s'.senders.Reachable (n + p'.detached) := by
  have hnot : ∀ sig, sig ∉ s.senders.held := fun sig => by simp [hfree]
  cases h with
  | clean sig keep => exact ⟨Subscribers.held_prune.trans hfree, hcounted.prune sig keep (hnot sig)⟩
  | register sig r =>
    have hcount := hcounted.count sig (hnot sig)
    exact ⟨Subscribers.held_insert.trans hfree, hcount.push sig r List.mem_cons_self⟩
  | detach sig st r senders rest h =>
    exact ⟨(Subscribers.held_of_detach h).trans hfree, hcounted.detach sig (hnot sig) h⟩
  | subtract => exact ⟨hfree, hcounted.subtract⟩
  | skip | gone | deliver =>
    simp only [Shared.taken_senders, Shared.send_senders]
    exact ⟨hfree, hcounted⟩
  | _ => exact ⟨hfree, hcounted⟩

theorem Step.routed {Thread : Type} [DecidableEq Thread] {hands : Thread → List Nat} {t : Thread}
    (h : Step tx status s p p' s') (hhands : hands t = p.hands) (hcarry : p.Carries tx status s)
    (hrouted : Routed (Sum.elim hands s.senders.senders) s.channels s.next) :
    Routed (Sum.elim (Function.update hands t p'.hands) s'.senders.senders) s'.channels s'.next := by
  -- Most steps leave all senders where they are.
  have hsame : p'.hands = p.hands → Function.update hands t p'.hands = hands := fun heq => by
    rw [heq, ← hhands, Function.update_eq_self]
  cases h with
  | subscribe sig =>
    have := hrouted.create (t := t) sig hhands
    rwa [Sum.update_elim_inl] at this
  | clean sig keep hclosed =>
    have := hrouted.prune sig hclosed
    rw [Sum.update_elim_inr] at this
    rw [hsame rfl, Shared.setSenders, Subscribers.senders_prune]
    exact this
  | forget r =>
    rw [hsame rfl]
    exact hrouted.drop r
  | cancel sig r =>
    rw [hsame rfl]
    exact hrouted.drop r
  | register sig r =>
    have := hrouted.register (t := t) hhands hcarry
    rw [Sum.update_elim_inl, Sum.update_elim_inr] at this
    rw [Shared.setSenders, Subscribers.senders_insert]
    exact this
  | skip | gone =>
    rw [hsame rfl]
    simpa using hrouted
  | detach sig st r senders rest h =>
    obtain ⟨hlist, hrest⟩ := Subscribers.detach_eq_some h
    have := hrouted.detach (t := t) sig hhands
    rw [Sum.update_elim_inl, Sum.update_elim_inr, Sum.elim_inr, hlist] at this
    simp only [Shared.setSenders, Shared.taken_channels, Shared.taken_next, hrest]
    exact this
  | deliver st r senders =>
    obtain ⟨channels, heq, hothers, hsignature, hsent⟩ := s.send_eq r st
    have hunsent := hrouted.unsent (.inl t) r (by simp [hhands, Phase.hands])
    rw [hunsent] at hsent
    have := hrouted.deliver (t := t) hhands hothers hsignature hsent
    rw [Sum.update_elim_inl] at this
    rw [heq]
    exact this
  | _ =>
    rw [hsame rfl]
    exact hrouted

theorem Step.signature_eq (h : Step tx status s p p' s') (hr : r < s.next) :
    (s'.channels r).signature = (s.channels r).signature := by
  have hdrop : ∀ x, ((s.drop x).channels r).signature = (s.channels r).signature := by
    intro x
    simp only [Shared.drop, Function.update_apply]
    split
    · next heq => rw [heq]
    · rfl
  cases h with
  | subscribe sig => exact congrArg Channel.signature (Function.update_of_ne (Nat.ne_of_lt hr) ..)
  | forget x => exact hdrop x
  | cancel sig x => exact hdrop x
  | deliver st x senders =>
    obtain ⟨channels, heq, hothers, hsignature, -⟩ := s.send_eq x st
    rw [heq]
    by_cases hx : r = x
    · rw [hx]
      exact hsignature
    · exact congrArg Channel.signature (hothers r hx)
  | skip | gone | detach => simp [Shared.setSenders]
  | _ => rfl

theorem Step.isCached (h : Step tx status s p p' s') (hcached : s.progress.isCached = true) :
    s'.progress.isCached = true := by
  have htaken : ∀ r, (s.taken r).progress.isCached = true := fun r => by
    cases r
    · rfl
    · exact hcached
  cases h with
  | commit hpending =>
    rw [hpending] at hcached
    cases hcached
  | skip sig st r => exact htaken r
  | gone sig st r => exact htaken r
  | detach sig st r => exact htaken r
  | publish => rfl
  | deliver => simpa using hcached
  | _ => exact hcached

theorem Step.carries_other (h : Step tx status s p p' s') (hcarry : q.Carries tx status s) (hfresh : ∀ r ∈ q.hands, r < s.next) :
    q.Carries tx status s' := by
  cases q with
  | registering sig r => exact (h.signature_eq (hfresh r (by simp [Phase.hands]))).trans hcarry
  | checking sig st r => exact ⟨hcarry.1, fun hr => ⟨(hcarry.2 hr).1, h.isCached (hcarry.2 hr).2⟩⟩
  | removing sig st r => exact ⟨hcarry.1, fun hr => ⟨(hcarry.2 hr).1, h.isCached (hcarry.2 hr).2⟩⟩
  | subtracting st senders => exact fun r hr heq => hcarry r hr ((h.signature_eq (hfresh r hr)).symm.trans heq)
  | delivering st senders => exact fun r hr heq => hcarry r hr ((h.signature_eq (hfresh r hr)).symm.trans heq)
  | _ => trivial

/-- The cache has the status of the transaction from the moment the commit writes it. -/
def Shared.Caches (tx : Signature) (status : St) (s : Shared St) : Prop :=
  (s.progress.isCached = true → s.cache tx.signaturePrefix = some (some status)) ∧
    (s.progress.isCached = false → ∀ st, s.cache tx.signaturePrefix ≠ some (some st))

theorem Step.caches (h : Step tx status s p p' s') (hcarry : p.Carries tx status s) (hcaches : s.Caches tx status) :
    s'.Caches tx status := by
  have htaken : ∀ (sig : Signature) (r : Option Nat), (r = none → sig = tx ∧ s.progress.isCached = true) →
      (s.taken r).Caches tx status := by
    intro sig r hr
    cases r with
    | none => exact ⟨fun _ => hcaches.1 (hr rfl).2, nofun⟩
    | some r => exact hcaches
  cases h with
  | append hnone =>
    refine ⟨fun hcached => ?_, fun _ st => by simp [Shared.setCache]⟩
    rw [hcaches.1 hcached] at hnone
    cases hnone
  | commit hpending hnone => exact ⟨nofun, fun _ st => by simp [Shared.advance, hnone]⟩
  | change key value hne => simpa only [Shared.Caches, Shared.setCache, Function.update_of_ne hne.symm] using hcaches
  | publish => exact ⟨fun _ => by simp [Shared.setCache, Shared.advance], nofun⟩
  | skip sig st r => exact htaken sig r hcarry.2
  | gone sig st r => exact htaken sig r hcarry.2
  | detach sig st r => exact htaken sig r hcarry.2
  | deliver => simpa [Shared.Caches] using hcaches
  | _ => exact hcaches

theorem Step.carries_own (h : Step tx status s p p' s') (hcarry : p.Carries tx status s) (hcaches : s.Caches tx status)
    (hsigned : ∀ sig, ∀ r ∈ s.senders.senders sig, (s.channels r).signature = sig) : p'.Carries tx status s' := by
  cases h with
  | subscribe sig => simp [Phase.Carries, Shared.create]
  | hit sig r st hget =>
    refine ⟨fun heq => ?_, nofun⟩
    cases hcached : s.progress.isCached with
    | true =>
      rw [heq, hcaches.1 hcached] at hget
      exact (Option.some.inj (Option.some.inj hget)).symm
    | false => exact absurd (heq ▸ hget) (hcaches.2 hcached st)
  | answer sig r st heq => exact ⟨heq, nofun⟩
  | publish => exact ⟨fun _ => rfl, fun _ => ⟨rfl, rfl⟩⟩
  | look => exact hcarry
  | detach sig st r senders rest hdetach =>
    intro x hx hsignature
    rw [← (Subscribers.detach_eq_some hdetach).1] at hx
    simp only [Shared.setSenders, Shared.taken_channels] at hsignature
    exact hcarry.1 ((hsigned sig x hx).symm.trans hsignature)
  | subtract => exact hcarry
  | deliver st r senders =>
    obtain ⟨channels, heq, hothers, hsignature, -⟩ := s.send_eq r st
    intro x hx htx
    rw [heq] at htx
    refine hcarry x (List.mem_cons_of_mem r hx) ?_
    by_cases hxr : x = r
    · rw [hxr] at htx ⊢
      exact hsignature.symm.trans htx
    · rw [← hothers x hxr]
      exact htx
  | _ => trivial

/-- Receivers of the transaction got its status, if anything. -/
def Shared.Told (tx : Signature) (status : St) (s : Shared St) : Prop :=
  ∀ r, (s.channels r).signature = tx → ∀ st ∈ (s.channels r).received, st = status

theorem Step.told (h : Step tx status s p p' s') (hcarry : p.Carries tx status s) (htold : s.Told tx status) :
    s'.Told tx status := by
  have hdrop : ∀ x, (s.drop x).Told tx status := by
    intro x r
    have := htold r
    simp only [Shared.drop, Function.update_apply]
    grind
  cases h with
  | subscribe sig =>
    intro r
    have := htold r
    simp only [Shared.create, Function.update_apply]
    grind
  | forget x => exact hdrop x
  | cancel sig x => exact hdrop x
  | skip | gone | detach => simpa [Shared.Told, Shared.setSenders] using htold
  | deliver st x senders =>
    obtain ⟨channels, heq, hothers, hsignature, hsent⟩ := s.send_eq x st
    intro r hr st' hst'
    rw [heq] at hr hst'
    dsimp only at hr hst'
    have hr' := htold r
    have hx := hcarry x List.mem_cons_self
    grind
  | _ => exact htold

theorem Step.commits (h : Step tx status s p p' s') (hpending : s'.progress ≠ .pending)
    (hfanned : s'.progress ≠ .fannedOut) : p'.Commits ∨ (¬p.Commits ∧ s'.progress = s.progress) := by
  have htaken : ∀ r, (s.taken r).progress ≠ .fannedOut → r ≠ none ∧ (s.taken r).progress = s.progress := by
    intro r hr
    cases r with
    | none => exact absurd rfl hr
    | some r => exact ⟨nofun, rfl⟩
  cases h with
  | commit => exact .inl trivial
  | publish => exact .inl rfl
  | skip sig st r => exact .inr (htaken r hfanned)
  | gone sig st r => exact .inr (htaken r hfanned)
  | detach sig st r => exact .inr (htaken r hfanned)
  | look sig st r =>
    by_cases hr : r = none
    · exact .inl hr
    · exact .inr ⟨hr, rfl⟩
  | deliver => exact .inr ⟨nofun, by simp⟩
  | _ => exact .inr ⟨nofun, rfl⟩

theorem Step.served (h : Step tx status s p p' s') (hcarry : p.Carries tx status s) (hcaches : s.Caches tx status)
    (hcounted : s.senders.Reachable n) (hfanned : s'.progress = .fannedOut) (hr : r ∈ s'.senders.senders tx) :
    p'.Serves tx r ∨ (¬p.Serves tx r ∧ s.progress = .fannedOut ∧ r ∈ s.senders.senders tx) := by
  -- After the fan-out of the commit a subscriber finds the status in the cache.
  have hhit : s.progress = .fannedOut → s.cache tx.signaturePrefix = some (some status) :=
    fun heq => hcaches.1 (by rw [heq]; rfl)
  have htaken : ∀ (sig : Signature) (x : Option Nat), (x = none → sig = tx ∧ s.progress.isCached = true) →
      (s.taken x).progress = .fannedOut → sig = tx ∨ x ≠ none ∧ s.progress = .fannedOut := by
    intro sig x hx hprogress
    cases x with
    | none => exact .inl (hx rfl).1
    | some x => exact .inr ⟨Option.some_ne_none x, hprogress⟩
  cases h with
  | commit => cases hfanned
  | publish => cases hfanned
  | clean sig keep =>
    simp only [Shared.setSenders, Subscribers.senders_prune, Function.update_apply] at hr
    refine .inr ⟨id, hfanned, ?_⟩
    grind
  | register sig x =>
    simp only [Shared.setSenders, Subscribers.senders_insert, Function.update_apply] at hr
    split at hr
    · next heq =>
      rcases List.mem_append.mp hr with hold | hnew
      · exact .inr ⟨id, hfanned, heq ▸ hold⟩
      · exact .inl ⟨heq.symm, (List.mem_singleton.mp hnew).symm⟩
    · exact .inr ⟨id, hfanned, hr⟩
  | miss sig x hget =>
    refine .inr ⟨fun hserves => ?_, hfanned, hr⟩
    rw [hserves.1, hhit hfanned] at hget
    cases hget
  | reserved sig x hget =>
    refine .inr ⟨fun hserves => ?_, hfanned, hr⟩
    rw [hserves.1, hhit hfanned] at hget
    cases hget
  | hit sig x st =>
    by_cases hserves : sig = tx ∧ x = r
    · exact .inl ⟨hserves.1, congrArg some hserves.2⟩
    · exact .inr ⟨hserves, hfanned, hr⟩
  | look sig st x =>
    by_cases hserves : sig = tx ∧ x = some r
    · exact .inl hserves
    · exact .inr ⟨hserves, hfanned, hr⟩
  | skip sig st x hempty =>
    rw [Shared.taken_senders, hcounted.senders_of_isEmpty hempty] at hr
    cases hr
  | gone sig st x hdetach =>
    rw [Shared.taken_senders] at hr
    have hsig : sig ≠ tx := by
      rintro rfl
      rw [Subscribers.senders_of_detach_eq_none hdetach] at hr
      cases hr
    exact .inr ⟨fun hserves => hsig hserves.1, ((htaken sig x hcarry.2 hfanned).resolve_left hsig).2, hr⟩
  | detach sig st x senders rest hdetach =>
    simp only [Shared.setSenders, (Subscribers.detach_eq_some hdetach).2, Function.update_apply] at hr
    split at hr
    · cases hr
    · next hsig =>
      have hsig := Ne.symm hsig
      exact .inr ⟨fun hserves => hsig hserves.1, ((htaken sig x hcarry.2 hfanned).resolve_left hsig).2, hr⟩
  | deliver => exact .inr ⟨id, by simpa using hfanned, by simpa using hr⟩
  | _ => exact .inr ⟨id, hfanned, hr⟩

end Steps

section Worlds

variable {Thread : Type} [DecidableEq Thread] [Fintype Thread] [DecidableEq St] {tx : Signature} {status : St}
  {w w' : World Thread St}

def places (w : World Thread St) : Thread ⊕ Signature → List Nat :=
  Sum.elim (fun t => (w.threads t).hands) w.shared.senders.senders

structure Inv (tx : Signature) (status : St) (w : World Thread St) : Prop where
  counted : w.shared.senders.held = [] ∧ w.shared.senders.Reachable (∑ t, (w.threads t).detached)
  routed : Routed (places w) w.shared.channels w.shared.next
  caches : w.shared.Caches tx status
  carries : ∀ t, (w.threads t).Carries tx status w.shared
  told : w.shared.Told tx status
  commits : w.shared.progress ≠ .pending → w.shared.progress ≠ .fannedOut → ∃ t, (w.threads t).Commits
  served : w.shared.progress = .fannedOut → ∀ r ∈ w.shared.senders.senders tx, ∃ t, (w.threads t).Serves tx r

omit [DecidableEq St] in
theorem Inv.step {t : Thread} (h : Inv tx status w)
    (hstep : Step tx status w.shared (w.threads t) (w'.threads t) w'.shared)
    (hothers : ∀ u, u ≠ t → w'.threads u = w.threads u) : Inv tx status w' where
  counted := by
    have hsum : ∑ u ∈ Finset.univ.erase t, (w'.threads u).detached = ∑ u ∈ Finset.univ.erase t, (w.threads u).detached :=
      Finset.sum_congr rfl fun u hu => by rw [hothers u (Finset.ne_of_mem_erase hu)]
    obtain ⟨hfree, hcounted⟩ := h.counted
    rw [← Finset.sum_erase_add _ _ (Finset.mem_univ t)] at hcounted ⊢
    rw [hsum]
    exact hstep.counted hfree hcounted
  routed := by
    have hhands : (fun u => (w'.threads u).hands) =
        Function.update (fun u => (w.threads u).hands) t (w'.threads t).hands := by
      funext u
      rcases eq_or_ne u t with rfl | hu
      · rw [Function.update_self]
      · rw [Function.update_of_ne hu, hothers u hu]
    rw [places, hhands]
    exact hstep.routed rfl (h.carries t) h.routed
  caches := hstep.caches (h.carries t) h.caches
  carries u := by
    rcases eq_or_ne u t with rfl | hu
    · exact hstep.carries_own (h.carries u) h.caches h.routed.signed
    · rw [hothers u hu]
      exact hstep.carries_other (h.carries u) fun r hr => h.routed.fresh (.inl u) r hr
  told := hstep.told (h.carries t) h.told
  commits hpending hfanned := by
    rcases hstep.commits hpending hfanned with hown | ⟨hnot, hprogress⟩
    · exact ⟨t, hown⟩
    · obtain ⟨u, hu⟩ := h.commits (hprogress ▸ hpending) (hprogress ▸ hfanned)
      exact ⟨u, by rwa [hothers u fun heq => hnot (heq ▸ hu)]⟩
  served hfanned r hr := by
    rcases hstep.served (h.carries t) h.caches h.counted.2 hfanned hr with hown | ⟨hnot, hprogress, hold⟩
    · exact ⟨t, hown⟩
    · obtain ⟨u, hu⟩ := h.served hprogress r hold
      exact ⟨u, by rwa [hothers u fun heq => hnot (heq ▸ hu)]⟩

theorem Reachable.inv (h : Reachable tx status w) : Inv tx status w := by
  induction h with
  | initial =>
    have hempty : ∀ p, places (Signatures.initial Thread St) p = [] := by
      rintro (t | sig)
      · rfl
      · rfl
    refine ⟨?_, ⟨fun p => ?_, fun p q r hr => ?_, fun sig r hr => ?_, fun p r hr => ?_, fun p r hr => ?_,
      fun r hr => absurd hr (Nat.not_lt_zero r), fun r => Nat.zero_le 1⟩, ⟨nofun, fun _ st => nofun⟩, fun t => trivial,
      fun r _ st hst => (nomatch hst), fun hne => absurd rfl hne, nofun⟩
    · exact ⟨rfl, by simpa [Signatures.initial, Phase.detached] using Subscribers.Reachable.new⟩
    · rw [hempty]
      exact List.nodup_nil
    all_goals
      rw [hempty] at hr
      cases hr
  | move _ t c hmove ih =>
    obtain ⟨hstep, hothers⟩ := Schedule.System.move_eq_some hmove
    exact ih.step (step_cases hstep) hothers

end Worlds

end MagicEngine.Signatures
