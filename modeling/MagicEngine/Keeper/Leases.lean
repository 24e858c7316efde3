import Mathlib.Data.List.Nodup
import MagicEngine.Base
import MagicEngine.Ledger.Entry
import MagicEngine.Lib.Schedule

/-!
# Account leases

The mutation reservations of `AccountCache` (`keeper/src/cache.rs`) and the one-shot notifier they release their waiters
with (`nucleus/src/notifier.rs`). `claim` puts a new notifier into the map or returns the one that is there; a caller of
`lock` that finds the account busy waits for the notifier and claims again. Dropping a lease takes the entry of its
account out of the map and then completes the notifier in two steps: it sets the flag, and it wakes the waiters there
are. A waiter creates its `Notified` future before it reads the flag. A future counts the calls of `notify_waiters` made
before it was created, and is ready once there is one more.

A lease can be dropped by any task, not only by the one that acquired it.
-/

namespace MagicEngine.Leases

/-- `EventNotifier`: its flag, and the calls of `notify_waiters`. -/
structure EventNotifier where
  done : Bool := false
  calls : Nat := 0
deriving DecidableEq, Repr

structure AccountLease where
  pubkey : Pubkey
  released : Nat
deriving DecidableEq, Repr

/-- The reservations, the notifiers made so far, and the leases that were not dropped. -/
structure Shared where
  reservations : Pubkey → Option Nat := fun _ => none
  notifiers : Nat → EventNotifier := fun _ => {}
  next : Nat := 0
  leases : List AccountLease := []

inductive AccountClaim where
  | acquired (lease : AccountLease)
  | busy (wait : Nat)

/-- Where a task is in the code of `lock`, or of dropping a lease. -/
inductive Phase where
  | idle
  /-- At the head of the loop of `lock`. -/
  | claiming (pubkey : Pubkey)
  /-- At the head of the loop of `notified`. -/
  | waiting (pubkey : Pubkey) (wait : Nat)
  /-- The future was created; the flag is read next. -/
  | created (pubkey : Pubkey) (wait calls : Nat)
  | asleep (pubkey : Pubkey) (wait calls : Nat)
  /-- The reservation is gone; the flag is set next. -/
  | releasing (released : Nat)
  | notifying (released : Nat)
deriving DecidableEq, Repr

inductive Choice where
  | lock (pubkey : Pubkey)
  | drop (lease : AccountLease)
  | go
deriving DecidableEq, Repr

namespace Shared

def claim (s : Shared) (pubkey : Pubkey) : AccountClaim × Shared :=
  match s.reservations pubkey with
  | some wait => (.busy wait, s)
  | none =>
    let lease := { pubkey, released := s.next }
    (.acquired lease,
      { reservations := Function.update s.reservations pubkey (some s.next)
        notifiers := Function.update s.notifiers s.next {}
        next := s.next + 1
        leases := s.leases ++ [lease] })

def remove (s : Shared) (lease : AccountLease) : Shared :=
  { s with reservations := Function.update s.reservations lease.pubkey none, leases := s.leases.erase lease }

def complete (s : Shared) (n : Nat) : Shared :=
  { s with notifiers := Function.update s.notifiers n { s.notifiers n with done := true } }

def notifyWaiters (s : Shared) (n : Nat) : Shared :=
  { s with notifiers := Function.update s.notifiers n { s.notifiers n with calls := (s.notifiers n).calls + 1 } }

end Shared

def step (c : Choice) (p : Phase) (s : Shared) : Option (Phase × Shared) :=
  match p, c with
  | .idle, .lock pubkey => some (.claiming pubkey, s)
  | .idle, .drop lease => if lease ∈ s.leases then some (.releasing lease.released, s.remove lease) else none
  | .claiming pubkey, .go =>
    match s.claim pubkey with
    | (.acquired _, s) => some (.idle, s)
    | (.busy wait, s) => some (.waiting pubkey wait, s)
  | .waiting pubkey wait, .go => some (.created pubkey wait (s.notifiers wait).calls, s)
  | .created pubkey wait calls, .go =>
    if (s.notifiers wait).done then some (.claiming pubkey, s) else some (.asleep pubkey wait calls, s)
  | .asleep pubkey wait calls, .go =>
    if calls < (s.notifiers wait).calls then some (.waiting pubkey wait, s) else none
  | .releasing n, .go => some (.notifying n, s.complete n)
  | .notifying n, .go => some (.idle, s.notifyWaiters n)
  | _, _ => none

def system (Task : Type) : Schedule.System Task Phase Shared Choice where
  step _ := step
  busy p := p ≠ .idle

abbrev World (Task : Type) := Schedule.World Task Phase Shared

def initial (Task : Type) : World Task := ⟨fun _ => .idle, {}⟩

inductive Reachable {Task : Type} [DecidableEq Task] : World Task → Prop where
  | initial : Reachable (initial Task)
  | move {w w' : World Task} (h : Reachable w) (t : Task) (c : Choice) (hmove : (system Task).move t c w = some w') :
      Reachable w'

/-! ### What a step does -/

inductive Step (s : Shared) : Phase → Phase → Shared → Prop where
  | lock (pubkey : Pubkey) : Step s .idle (.claiming pubkey) s
  | drop (lease : AccountLease) (h : lease ∈ s.leases) : Step s .idle (.releasing lease.released) (s.remove lease)
  | acquire (pubkey : Pubkey) (h : s.reservations pubkey = none) : Step s (.claiming pubkey) .idle (s.claim pubkey).2
  | busy (pubkey : Pubkey) (wait : Nat) (h : s.reservations pubkey = some wait) :
      Step s (.claiming pubkey) (.waiting pubkey wait) s
  | create (pubkey : Pubkey) (wait : Nat) :
      Step s (.waiting pubkey wait) (.created pubkey wait (s.notifiers wait).calls) s
  | retry (pubkey : Pubkey) (wait calls : Nat) (h : (s.notifiers wait).done = true) :
      Step s (.created pubkey wait calls) (.claiming pubkey) s
  | sleep (pubkey : Pubkey) (wait calls : Nat) (h : (s.notifiers wait).done = false) :
      Step s (.created pubkey wait calls) (.asleep pubkey wait calls) s
  | wake (pubkey : Pubkey) (wait calls : Nat) (h : calls < (s.notifiers wait).calls) :
      Step s (.asleep pubkey wait calls) (.waiting pubkey wait) s
  | complete (n : Nat) : Step s (.releasing n) (.notifying n) (s.complete n)
  | notify (n : Nat) : Step s (.notifying n) .idle (s.notifyWaiters n)

theorem step_cases {c : Choice} {p p' : Phase} {s s' : Shared} (h : step c p s = some (p', s')) : Step s p p' s' := by
  unfold step at h
  split at h
  · cases h
    exact .lock _
  · split at h
    · cases h
      exact .drop _ ‹_›
    · cases h
  · next pubkey =>
    cases hkey : s.reservations pubkey with
    | none =>
      have hclaim : s' = (s.claim pubkey).2 ∧ p' = .idle := by
        simp only [Shared.claim, hkey] at h ⊢
        cases h
        exact ⟨rfl, rfl⟩
      obtain ⟨rfl, rfl⟩ := hclaim
      exact .acquire pubkey hkey
    | some wait =>
      simp only [Shared.claim, hkey] at h
      cases h
      exact .busy pubkey wait hkey
  · cases h
    exact .create _ _
  · split at h
    · cases h
      exact .retry _ _ _ ‹_›
    · next hdone =>
      cases h
      exact .sleep _ _ _ (Bool.eq_false_of_not_eq_true hdone)
  · split at h
    · cases h
      exact .wake _ _ _ ‹_›
    · cases h
  · cases h
    exact .complete _
  · cases h
    exact .notify _
  · cases h

/-! ### The invariant -/

def Phase.owes : Phase → Option Nat
  | .releasing n => some n
  | .notifying n => some n
  | _ => none

def Phase.awaits : Phase → Option (Pubkey × Nat)
  | .waiting pubkey wait => some (pubkey, wait)
  | .created pubkey wait _ => some (pubkey, wait)
  | .asleep pubkey wait _ => some (pubkey, wait)
  | _ => none

def Shared.MadeFor (s : Shared) (pubkey : Pubkey) (n : Nat) : Prop :=
  n < s.next ∧ ∀ lease ∈ s.leases, lease.released = n → lease.pubkey = pubkey

/-- The state of a task fits the notifiers. A future that counted a call was created when the flag was set, so it is
never slept on. -/
def Phase.Fits (s : Shared) : Phase → Prop
  | .idle => True
  | .claiming _ => True
  | .waiting pubkey wait => s.MadeFor pubkey wait
  | .created pubkey wait calls => s.MadeFor pubkey wait ∧ (calls = 0 ∨ (s.notifiers wait).done = true)
  | .asleep pubkey wait calls => s.MadeFor pubkey wait ∧ calls = 0
  | .releasing n => n < s.next ∧ s.notifiers n = {} ∧ n ∉ s.leases.map (·.released)
  | .notifying n => n < s.next ∧ s.notifiers n = { done := true }

/-- Leases and reservations are the same, and every notifier belongs to one lease, is owed by one task, or is
complete. -/
structure Inv {Task : Type} (w : World Task) : Prop where
  reserved : ∀ pubkey n, w.shared.reservations pubkey = some n ↔ ⟨pubkey, n⟩ ∈ w.shared.leases
  nodup : (w.shared.leases.map (·.released)).Nodup
  leased : ∀ lease ∈ w.shared.leases, lease.released < w.shared.next ∧ w.shared.notifiers lease.released = {}
  fits : ∀ t, (w.threads t).Fits w.shared
  owed : ∀ t u n, (w.threads t).owes = some n → (w.threads u).owes = some n → t = u
  settled : ∀ n < w.shared.next, n ∈ w.shared.leases.map (·.released) ∨ (∃ t, (w.threads t).owes = some n) ∨
    w.shared.notifiers n = { done := true, calls := 1 }

variable {Task : Type}

theorem Inv.initial : Inv (Leases.initial Task) where
  reserved _ _ := ⟨nofun, nofun⟩
  nodup := List.nodup_nil
  leased _ h := nomatch h
  fits _ := trivial
  owed _ _ _ h := nomatch h
  settled _ h := nomatch h

namespace Inv

variable {w : World Task} {t : Task} {n : Nat} {lease lease' : AccountLease}

theorem notifier_of_reserved (h : Inv w) {pubkey : Pubkey} (hn : w.shared.reservations pubkey = some n) :
    n < w.shared.next ∧ w.shared.notifiers n = {} :=
  h.leased _ ((h.reserved pubkey n).mp hn)

theorem eq_of_pubkey (h : Inv w) (hl : lease ∈ w.shared.leases) (hl' : lease' ∈ w.shared.leases)
    (heq : lease.pubkey = lease'.pubkey) : lease = lease' := by
  have hr := (h.reserved lease.pubkey lease.released).mpr hl
  have hr' := (h.reserved lease'.pubkey lease'.released).mpr hl'
  rw [heq, hr'] at hr
  cases lease
  cases lease'
  cases heq
  cases hr
  rfl

theorem nodup_pubkey (h : Inv w) : (w.shared.leases.map (·.pubkey)).Nodup :=
  h.nodup.of_map _ |>.map_on fun _ hl _ hl' heq => h.eq_of_pubkey hl hl' heq

theorem calls_le (h : Inv w) (hn : n < w.shared.next) :
    (w.shared.notifiers n).calls = 0 ∨ w.shared.notifiers n = { done := true, calls := 1 } := by
  rcases h.settled n hn with hleased | ⟨t, ht⟩ | hdone
  · obtain ⟨lease, hl, rfl⟩ := List.mem_map.mp hleased
    exact .inl (by rw [(h.leased lease hl).2])
  · have hfits := h.fits t
    cases hphase : w.threads t <;> rw [hphase] at ht hfits <;> cases ht
    · exact .inl (by rw [hfits.2.1])
    · exact .inl (by rw [hfits.2])
  · exact .inr hdone

end Inv

/-- Another task keeps fitting when notifiers are only completed and its own one is left alone. -/
theorem Phase.Fits.transfer {p : Phase} {s s' : Shared} (h : p.Fits s) (hnext : s.next ≤ s'.next)
    (hdone : ∀ n < s.next, (s.notifiers n).done = true → (s'.notifiers n).done = true)
    (hleases : ∀ lease ∈ s'.leases, lease.released < s.next → lease ∈ s.leases)
    (howes : ∀ n < s.next, p.owes = some n → s'.notifiers n = s.notifiers n) : p.Fits s' := by
  have hmade {pubkey : Pubkey} {n : Nat} (h : s.MadeFor pubkey n) : s'.MadeFor pubkey n :=
    ⟨h.1.trans_le hnext, fun lease hl heq => h.2 lease (hleases lease hl (heq ▸ h.1)) heq⟩
  cases p with
  | idle => trivial
  | claiming pubkey => trivial
  | waiting pubkey wait => exact hmade h
  | created pubkey wait calls => exact ⟨hmade h.1, h.2.imp_right (hdone wait h.1.1)⟩
  | asleep pubkey wait calls => exact ⟨hmade h.1, h.2⟩
  | releasing n =>
    refine ⟨h.1.trans_le hnext, (howes n h.1 rfl).trans h.2.1, fun hmem => h.2.2 ?_⟩
    obtain ⟨lease, hl, rfl⟩ := List.mem_map.mp hmem
    exact List.mem_map_of_mem (hleases lease hl h.1)
  | notifying n => exact ⟨h.1.trans_le hnext, (howes n h.1 rfl).trans h.2⟩

namespace Inv

variable [DecidableEq Task] {w : World Task} {t : Task} {n : Nat} {lease : AccountLease} {p : Phase} {s : Shared}

private theorem local_step (h : Inv w) (howes : p.owes = (w.threads t).owes) (hfits : p.Fits w.shared) :
    Inv ⟨Function.update w.threads t p, w.shared⟩ := by
  have hsame : ∀ u, (Function.update w.threads t p u).owes = (w.threads u).owes := by grind
  refine ⟨h.reserved, h.nodup, h.leased, fun u => ?_, fun u v n hu hv => ?_, fun n hn => ?_⟩
  · have := h.fits u
    grind
  · exact h.owed u v n ((hsame u).symm.trans hu) ((hsame v).symm.trans hv)
  · simpa only [hsame] using h.settled n hn

private theorem acquire (h : Inv w) {pubkey : Pubkey} (hfree : w.shared.reservations pubkey = none)
    (hphase : w.threads t = .claiming pubkey) : Inv ⟨Function.update w.threads t .idle, (w.shared.claim pubkey).2⟩ := by
  have hsame : ∀ u, (Function.update w.threads t .idle u).owes = (w.threads u).owes := by
    grind [Phase.owes]
  have hlt : ∀ n ∈ w.shared.leases.map (·.released), n < w.shared.next := fun n hn => by
    obtain ⟨lease, hl, rfl⟩ := List.mem_map.mp hn
    exact (h.leased lease hl).1
  simp only [Shared.claim, hfree]
  refine ⟨fun key n => ?_, ?_, fun lease => ?_, ?_, fun u v n hu hv => ?_, fun n hn => ?_⟩
  · have := h.reserved key n
    grind
  · rw [List.map_append, List.nodup_append]
    exact ⟨h.nodup, List.nodup_singleton _, by grind⟩
  · have := h.leased lease
    grind
  · refine (Function.forall_update_iff _ fun u (q : Phase) => q.Fits _).mpr ⟨trivial, fun u _ => ?_⟩
    refine (h.fits u).transfer (Nat.le_succ _) (fun n hn => ?_) (fun lease => ?_) fun n hn _ => ?_
    all_goals grind
  · exact h.owed u v n ((hsame u).symm.trans hu) ((hsame v).symm.trans hv)
  · have := h.settled n
    simp only [hsame]
    grind

private theorem drop (h : Inv w) (hl : lease ∈ w.shared.leases) (hphase : w.threads t = .idle) :
    Inv ⟨Function.update w.threads t (.releasing lease.released), w.shared.remove lease⟩ := by
  have hmem : ∀ l, l ∈ w.shared.leases.erase lease ↔ l ≠ lease ∧ l ∈ w.shared.leases :=
    fun l => (h.nodup.of_map _).mem_erase_iff
  have hreleased : ∀ n, n ∈ (w.shared.leases.erase lease).map (·.released) ↔
      n ≠ lease.released ∧ n ∈ w.shared.leases.map (·.released) := fun n => by
    have := fun l hl' => List.inj_on_of_nodup_map h.nodup (x := l) hl' hl
    grind
  -- nobody else owes the notifier of a lease
  have hfresh : ∀ u, (w.threads u).owes ≠ some lease.released := fun u hu => by
    have hfits := h.fits u
    cases hp : w.threads u <;> rw [hp] at hu hfits <;> cases hu
    · exact hfits.2.2 (List.mem_map_of_mem hl)
    · cases (h.leased lease hl).2.symm.trans hfits.2
  have howes : ∀ u, (Function.update w.threads t (.releasing lease.released) u).owes =
      if u = t then some lease.released else (w.threads u).owes := by grind [Phase.owes]
  refine ⟨fun key n => ?_, h.nodup.sublist (List.erase_sublist.map _), fun l hl' => ?_, ?_, fun u v n => ?_,
    fun n hn => ?_⟩
  · have := h.reserved key n
    have hunique := fun (hn : ⟨key, n⟩ ∈ w.shared.leases) => h.eq_of_pubkey hn hl
    simp only [Shared.remove, hmem]
    grind
  · exact h.leased l ((hmem l).mp hl').2
  · refine (Function.forall_update_iff _ fun u (q : Phase) => q.Fits _).mpr ⟨⟨(h.leased lease hl).1, (h.leased lease hl).2,
      fun hn => ((hreleased _).mp hn).1 rfl⟩, fun u _ => ?_⟩
    exact (h.fits u).transfer le_rfl (fun _ _ hd => hd) (fun l hl' _ => ((hmem l).mp hl').2) fun _ _ _ => rfl
  · have := h.owed u v n
    simp only [howes]
    grind
  · have hsettled := h.settled n hn
    simp only [howes, Shared.remove, hreleased]
    by_cases hne : n = lease.released
    · exact .inr (.inl ⟨t, by simp [hne]⟩)
    · have hidle : (w.threads t).owes = none := by rw [hphase]; rfl
      grind

private theorem finish (h : Inv w) {value : EventNotifier} (hphase : (w.threads t).owes = some n)
    (hleased : n ∉ w.shared.leases.map (·.released)) (hdone : value.done = true)
    (hnow : p = .notifying n ∧ value.calls = 0 ∨ p = .idle ∧ value.calls = 1) :
    Inv ⟨Function.update w.threads t p, { w.shared with notifiers := Function.update w.shared.notifiers n value }⟩ := by
  have hn : n < w.shared.next := by
    have hfits := h.fits t
    cases hp : w.threads t <;> rw [hp] at hphase hfits <;> cases hphase
    · exact hfits.1
    · exact hfits.1
  have howes : ∀ u m, (Function.update w.threads t p u).owes = some m → (w.threads u).owes = some m := by
    grind [Phase.owes]
  refine ⟨h.reserved, h.nodup, fun l hl => ?_, ?_, fun u v m hu hv => h.owed u v m (howes u m hu) (howes v m hv),
    fun m hm => ?_⟩
  · have := h.leased l hl
    grind
  · refine (Function.forall_update_iff _ fun u (q : Phase) => q.Fits _).mpr ⟨?_, fun u hu => ?_⟩
    · rcases hnow with ⟨rfl, hcalls⟩ | ⟨rfl, -⟩
      · refine ⟨hn, ?_⟩
        cases value
        simp_all
      · trivial
    · refine (h.fits u).transfer le_rfl (fun m _ hd => ?_) (fun l hl _ => hl) fun m _ hm => ?_
      · grind
      · have := h.owed u t n
        grind
  · have := h.settled m hm
    by_cases hmn : m = n
    · rcases hnow with ⟨rfl, -⟩ | ⟨-, hcalls⟩
      · exact .inr (.inl ⟨t, by simp [hmn, Phase.owes]⟩)
      · refine .inr (.inr ?_)
        cases value
        simp_all
    · grind

theorem step (h : Inv w) (hstep : Step w.shared (w.threads t) p s) : Inv ⟨Function.update w.threads t p, s⟩ := by
  have hfits := h.fits t
  generalize hp : w.threads t = q at hstep hfits
  cases hstep with
  | lock | retry => exact h.local_step (by rw [hp]; rfl) trivial
  | drop lease hl => exact h.drop hl hp
  | acquire pubkey hfree => exact h.acquire hfree hp
  | busy pubkey wait hwait =>
    refine h.local_step (by rw [hp]; rfl) ⟨(h.notifier_of_reserved hwait).1, fun lease hl heq => ?_⟩
    rw [List.inj_on_of_nodup_map h.nodup hl ((h.reserved pubkey wait).mp hwait) heq]
  | create pubkey wait =>
    refine h.local_step (by rw [hp]; rfl) ⟨hfits, (h.calls_le hfits.1).imp_right fun hd => ?_⟩
    rw [hd]
  | sleep pubkey wait calls hd =>
    refine h.local_step (by rw [hp]; rfl) ⟨hfits.1, hfits.2.resolve_right ?_⟩
    rw [hd]
    nofun
  | wake => exact h.local_step (by rw [hp]; rfl) hfits.1
  | complete n => exact h.finish (by rw [hp]; rfl) hfits.2.2 rfl (.inl ⟨rfl, by rw [hfits.2.1]⟩)
  | notify n =>
    obtain ⟨hlt, hnotifier⟩ := hfits
    refine h.finish (by rw [hp]; rfl) (fun hmem => ?_) (by rw [hnotifier]) (.inr ⟨rfl, by rw [hnotifier]⟩)
    obtain ⟨lease, hl, heq⟩ := List.mem_map.mp hmem
    have := (h.leased lease hl).2
    rw [heq, hnotifier] at this
    cases this

end Inv

section Reachable

variable [DecidableEq Task] {w w' : World Task}

theorem Inv.move (h : Inv w) {t : Task} {c : Choice} (hmove : (system Task).move t c w = some w') : Inv w' := by
  obtain ⟨⟨p, s⟩, hstep, rfl⟩ := Option.map_eq_some_iff.mp hmove
  exact h.step (step_cases hstep)

theorem Reachable.inv (h : Reachable w) : Inv w := by
  induction h with
  | initial => exact .initial
  | move _ t c hmove ih => exact ih.move hmove

end Reachable

/-! ### No lost wakeup -/

abbrev Run (Task : Type) [DecidableEq Task] := Schedule.Run (system Task)

section Wakeup

variable [DecidableEq Task] {r : Run Task} {t : Task} {pubkey : Pubkey} {i n : Nat}

private theorem run_inv (hinit : r.state 0 = Leases.initial Task) (i : Nat) : Inv (r.state i) :=
  r.stable (fun _ _ _ _ hmove h => h.move hmove) (Nat.zero_le i) (hinit ▸ .initial)

private def Completed (s : Shared) (n : Nat) : Prop := n < s.next ∧ s.notifiers n = { done := true, calls := 1 }

omit [DecidableEq Task] in
private theorem completed_step {w : World Task} {p : Phase} {s : Shared} (h : Inv w) (hcomplete : Completed w.shared n)
    (hstep : Step w.shared (w.threads t) p s) : Completed s n := by
  obtain ⟨hn, hnotifier⟩ := hcomplete
  have hfits := h.fits t
  generalize w.threads t = q at hstep hfits
  cases hstep with
  | acquire pubkey hfree =>
    simp only [Completed, Shared.claim, hfree]
    exact ⟨Nat.lt_succ_of_lt hn, by rw [Function.update_of_ne hn.ne, hnotifier]⟩
  | complete n' =>
    have hne : n ≠ n' := fun heq => by
      rw [heq, hfits.2.1] at hnotifier
      cases hnotifier
    exact ⟨hn, (Function.update_of_ne hne ..).trans hnotifier⟩
  | notify n' =>
    have hne : n ≠ n' := fun heq => by
      rw [heq, hfits.2] at hnotifier
      cases hnotifier
    exact ⟨hn, (Function.update_of_ne hne ..).trans hnotifier⟩
  | _ => exact ⟨hn, hnotifier⟩

private theorem completed_mono (hinit : r.state 0 = Leases.initial Task) (h : Completed (r.state i).shared n) {m : Nat}
    (hm : i ≤ m) : Completed (r.state m).shared n :=
  (r.stable (P := fun w => Inv w ∧ Completed w.shared n) (fun _ _ _ _ hmove h =>
    ⟨h.1.move hmove, completed_step h.1 h.2 (step_cases (Schedule.System.move_eq_some hmove).1)⟩) hm
    ⟨run_inv hinit i, h⟩).2

private theorem owing_moves (hfair : r.WeaklyFair) (howes : ((r.state i).threads t).owes = some n) : ∃ m, i ≤ m ∧
    (r.state m).threads t = (r.state i).threads t ∧ ∃ c, r.move m = some (t, c) := by
  obtain ⟨m, hm, hmove, hsame⟩ := hfair.moves (t := t) (n := i) fun m hm hstill => by
    have hphase := r.threads_eq hm hstill
    cases hp : (r.state i).threads t <;> rw [hp] at howes hphase <;> cases howes
    · exact ⟨by rw [hphase]; nofun, .go, by rw [hphase]; rfl⟩
    · exact ⟨by rw [hphase]; nofun, .go, by rw [hphase]; rfl⟩
  exact ⟨m, hm, hsame, hmove⟩

private theorem step_of_move {m : Nat} {c : Choice} (hmove : r.move m = some (t, c)) :
    Step (r.state m).shared ((r.state m).threads t) ((r.state (m + 1)).threads t) (r.state (m + 1)).shared :=
  step_cases (Schedule.System.move_eq_some (r.next m t c hmove)).1

private theorem exists_completed (hinit : r.state 0 = Leases.initial Task) (hfair : r.WeaklyFair)
    (hn : n < (r.state i).shared.next) (hdropped : n ∉ (r.state i).shared.leases.map (·.released)) :
    ∃ m, i ≤ m ∧ Completed (r.state m).shared n := by
  have hnotifying : ∀ j t, (r.state j).threads t = .notifying n → ∃ m, j ≤ m ∧ Completed (r.state m).shared n := by
    intro j t hphase
    obtain ⟨m, hm, hsame, c, hmove⟩ := owing_moves hfair (t := t) (i := j) (n := n) (by rw [hphase]; rfl)
    have hstep := step_of_move hmove
    have hfits := (run_inv hinit m).fits t
    rw [hsame, hphase] at hstep hfits
    refine ⟨m + 1, by omega, ?_⟩
    generalize (r.state (m + 1)).threads t = p' at hstep
    generalize (r.state (m + 1)).shared = s' at hstep ⊢
    cases hstep
    refine ⟨hfits.1, ?_⟩
    exact (Function.update_self ..).trans (by rw [hfits.2])
  rcases (run_inv hinit i).settled n hn with hleased | ⟨t, ht⟩ | hdone
  · exact absurd hleased hdropped
  · cases hp : (r.state i).threads t <;> rw [hp] at ht <;> cases ht
    · obtain ⟨m, hm, hsame, c, hmove⟩ := owing_moves hfair (t := t) (i := i) (n := n) (by rw [hp]; rfl)
      have hstep := step_of_move hmove
      rw [hsame, hp] at hstep
      have hphase : (r.state (m + 1)).threads t = .notifying n := by
        generalize (r.state (m + 1)).threads t = p' at hstep ⊢
        generalize (r.state (m + 1)).shared = s' at hstep
        cases hstep
        rfl
      obtain ⟨m', hm', hcomplete⟩ := hnotifying (m + 1) t hphase
      exact ⟨m', by omega, hcomplete⟩
    · exact hnotifying i t hp
  · exact ⟨i, le_rfl, hn, hdone⟩

theorem awaits_step {s s' : Shared} {p p' : Phase} (h : p.awaits = some (pubkey, n)) (hstep : Step s p p' s') :
    p'.awaits = some (pubkey, n) ∨ p' = .claiming pubkey := by
  cases hstep <;> cases h
  · exact .inl rfl
  · exact .inr rfl
  · exact .inl rfl
  · exact .inl rfl

private def awaitRank : Phase → Nat
  | .asleep .. => 3
  | .waiting .. => 2
  | .created .. => 1
  | _ => 0

/-- Once its notifier is complete, a waiter comes closer to its next claim. -/
private theorem awaits_step_completed {s s' : Shared} {p p' : Phase} (h : p.awaits = some (pubkey, n))
    (hcomplete : Completed s n) (hstep : Step s p p' s') :
    p' = .claiming pubkey ∨ p'.awaits = some (pubkey, n) ∧ awaitRank p' < awaitRank p := by
  cases hstep <;> cases h
  · exact .inr ⟨rfl, Nat.lt_succ_self _⟩
  · exact .inl rfl
  · next hdone =>
    rw [hcomplete.2] at hdone
    cases hdone
  · exact .inr ⟨rfl, Nat.lt_succ_self _⟩

/-- A waiter claims again once the lease it waits for was dropped. -/
theorem exists_claiming (hinit : r.state 0 = Leases.initial Task) (hfair : r.WeaklyFair)
    (hawaits : ((r.state i).threads t).awaits = some (pubkey, n))
    (hdropped : n ∉ (r.state i).shared.leases.map (·.released)) :
    ∃ m, i ≤ m ∧ (r.state m).threads t = .claiming pubkey := by
  by_contra hnever
  have hstays : ∀ m, i ≤ m → ((r.state m).threads t).awaits = some (pubkey, n) := by
    intro m hm
    induction m, hm using Nat.le_induction with
    | base => exact hawaits
    | succ m hm ih =>
      by_cases hmove : ∃ c, r.move m = some (t, c)
      · obtain ⟨c, hmove⟩ := hmove
        exact (awaits_step ih (step_of_move hmove)).resolve_right fun hclaim => hnever ⟨m + 1, by omega, hclaim⟩
      · rwa [r.threads_succ fun c hc => hmove ⟨c, hc⟩]
  have hfits : ∀ m, i ≤ m → n < (r.state m).shared.next := fun m hm => by
    have hphase := (run_inv hinit m).fits t
    have h := hstays m hm
    cases hp : (r.state m).threads t <;> rw [hp] at h hphase <;> cases h
    · exact hphase.1
    · exact hphase.1.1
    · exact hphase.1.1
  obtain ⟨j, hj, hcomplete⟩ := exists_completed hinit hfair (hfits i le_rfl) hdropped
  -- the waiter is enabled until it moves, and its move brings it closer
  have hcloser : ∀ m, j ≤ m → ∃ m', m ≤ m' ∧ ((r.state m').threads t = .claiming pubkey ∨
      j ≤ m' ∧ awaitRank ((r.state m').threads t) < awaitRank ((r.state m).threads t)) := by
    intro m hm
    obtain ⟨k, hk, ⟨c, hmove⟩, hsame⟩ := hfair.moves (t := t) (n := m) fun k hk hstill => by
      have hphase := r.threads_eq hk hstill
      have hcalls := (completed_mono hinit hcomplete (hm.trans hk)).2
      have h := hstays m (hj.trans hm)
      have hzero := (run_inv hinit m).fits t
      cases hp : (r.state m).threads t <;> rw [hp] at h hphase hzero <;> cases h
      · exact ⟨by rw [hphase]; nofun, .go, by rw [hphase]; rfl⟩
      · refine ⟨by rw [hphase]; nofun, .go, ?_⟩
        rw [hphase]
        simp [system, Leases.step, hcalls]
      · refine ⟨by rw [hphase]; nofun, .go, ?_⟩
        rw [hphase]
        simp [system, Leases.step, hcalls, hzero.2]
    rcases awaits_step_completed (hstays k (by omega)) (completed_mono hinit hcomplete (by omega))
      (step_of_move hmove) with hclaim | ⟨-, hlt⟩
    · exact ⟨k + 1, by omega, .inl hclaim⟩
    · exact ⟨k + 1, by omega, .inr ⟨by omega, by rwa [hsame] at hlt⟩⟩
  obtain ⟨m, hm, hclaim⟩ := Schedule.Run.leads (fun m => awaitRank ((r.state m).threads t)) hcloser (le_refl j)
  exact hnever ⟨m, hj.trans hm, hclaim⟩

end Wakeup

end MagicEngine.Leases
