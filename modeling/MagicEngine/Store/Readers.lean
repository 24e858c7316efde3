import MagicEngine.Lib.Schedule
import MagicEngine.Lib.Transition

/-!
# Reader admission

`Readers::enter`, `ReadGuard::drop`, `Readers::pause` and `Pause::drop` (`accountsdb/src/readers.rs`), one load, store or
lock operation per step. A thread announces itself in its own slot and then looks at the gate; a pause closes the gate
and then looks at the slots, one after the other. A reader that meets a closed gate withdraws and waits for the
maintenance mutex; a pause that meets an active slot waits for a notification.

Every interleaving is a run of `system`. Guards have names, so that a thread may drop them in any order.
-/

namespace MagicEngine

namespace Readers

/-- How `ReadGuard::drop` was reached: `enter` withdraws a reader that met a closed gate, or a guard is dropped. -/
inductive Exit where
  | withdraw (guard : Nat)
  | drop (guard : Nat)
deriving DecidableEq, Repr

/-- What a thread is at: in its own code (`ready`), or before the named step of a call. -/
inductive Phase (Thread : Type) where
  | ready
  -- `enter`
  | lookup (guard : Nat)
  | lockRegister (guard : Nat)
  | addSlot (guard : Nat)
  | unlockRegister (guard : Nat)
  | loadDepth (guard : Nat)
  | storeDepth (guard depth : Nat)
  | checkGate (guard : Nat)
  | lockRetry (guard : Nat)
  | unlockRetry (guard : Nat)
  -- `ReadGuard::drop`, of a held guard or of one that is withdrawn
  | loadExit (exit : Exit)
  | storeExit (exit : Exit) (depth : Nat)
  | checkExit (exit : Exit)
  | lockIdle (exit : Exit)
  | notify (exit : Exit)
  | unlockIdle (exit : Exit)
  -- `pause`
  | checkScope
  | lockPause
  | close
  | barrier
  | lockDrain
  | scan (rest : List Thread)
  | startWait
  | waiting
  | unlockDrain
  -- `Pause::drop`
  | reopen
  | unlockPause
deriving DecidableEq, Repr

/-- A thread: the guards and the pause it has been given. -/
structure Local (Thread : Type) where
  phase : Phase Thread := .ready
  held : List Nat := []
  paused : Bool := false
deriving DecidableEq, Repr

/-- The slots in registration order, the depth each thread announces, the gate, both mutexes and the queue of the
condition variable. -/
structure Shared (Thread : Type) where
  depth : Thread → Nat
  slots : List Thread
  closed : Bool
  maintenance : Option Thread
  idle : Option Thread
  waiters : List Thread

/-- What a thread may do: call a function when it is in its own code, or go on with the call it is in. A barrier may
fail. -/
inductive Choice where
  | enter (guard : Nat)
  | drop (guard : Nat)
  | pause
  | dropPause
  | go (barrierOk : Bool)
deriving DecidableEq, Repr

variable {Thread : Type} [DecidableEq Thread]

def Local.at (l : Local Thread) (phase : Phase Thread) : Local Thread := { l with phase }

def Local.granted (l : Local Thread) (guard : Nat) : Local Thread := { l with phase := .ready, held := guard :: l.held }

def Shared.store (s : Shared Thread) (t : Thread) (depth : Nat) : Shared Thread :=
  { s with depth := Function.update s.depth t depth }

/-- After an exit: a withdrawn reader waits for maintenance, a dropped guard is gone. -/
def Exit.after : Exit → Phase Thread
  | .withdraw guard => .lockRetry guard
  | .drop _ => .ready

def Exit.remaining (held : List Nat) : Exit → List Nat
  | .withdraw _ => held
  | .drop guard => held.erase guard

/-- The next step of the call a thread is in; `none` while it has to wait for a mutex or a notification. -/
def advance (t : Thread) (barrierOk : Bool) (l : Local Thread) (s : Shared Thread) :
    Option (Local Thread × Shared Thread) :=
  match l.phase with
  | .ready => none
  | .lookup guard => some (l.at (if t ∈ s.slots then .loadDepth guard else .lockRegister guard), s)
  | .lockRegister guard =>
    if s.maintenance = none then some (l.at (.addSlot guard), { s with maintenance := some t }) else none
  | .addSlot guard => some (l.at (.unlockRegister guard), { s with slots := s.slots ++ [t] })
  | .unlockRegister guard => some (l.at (.loadDepth guard), { s with maintenance := none })
  | .loadDepth guard => some (l.at (.storeDepth guard (s.depth t)), s)
  | .storeDepth guard depth =>
    some (if depth ≠ 0 then l.granted guard else l.at (.checkGate guard), s.store t (depth + 1))
  | .checkGate guard => some (if s.closed then l.at (.loadExit (.withdraw guard)) else l.granted guard, s)
  | .loadExit exit => some (l.at (.storeExit exit (s.depth t)), s)
  | .storeExit exit depth =>
    some ({ l with phase := if depth ≠ 1 then exit.after else .checkExit exit, held := exit.remaining l.held },
      s.store t (depth - 1))
  | .checkExit exit => some (l.at (if s.closed then .lockIdle exit else exit.after), s)
  | .lockIdle exit => if s.idle = none then some (l.at (.notify exit), { s with idle := some t }) else none
  | .notify exit => some (l.at (.unlockIdle exit), { s with waiters := s.waiters.tail })
  | .unlockIdle exit => some (l.at exit.after, { s with idle := none })
  | .lockRetry guard =>
    if s.maintenance = none then some (l.at (.unlockRetry guard), { s with maintenance := some t }) else none
  | .unlockRetry guard => some (l.at (.loadDepth guard), { s with maintenance := none })
  | .checkScope => some (l.at (if t ∈ s.slots ∧ s.depth t ≠ 0 then .ready else .lockPause), s)
  | .lockPause => if s.maintenance = none then some (l.at .close, { s with maintenance := some t }) else none
  | .close => some (l.at .barrier, { s with closed := true })
  | .barrier => some (l.at (if barrierOk then .lockDrain else .reopen), s)
  | .lockDrain => if s.idle = none then some (l.at (.scan s.slots), { s with idle := some t }) else none
  | .scan [] => some (l.at .unlockDrain, s)
  | .scan (u :: rest) => some (l.at (if s.depth u ≠ 0 then .startWait else .scan rest), s)
  | .startWait => some (l.at .waiting, { s with idle := none, waiters := s.waiters ++ [t] })
  | .waiting =>
    if t ∉ s.waiters ∧ s.idle = none then some (l.at (.scan s.slots), { s with idle := some t }) else none
  | .unlockDrain => some ({ l with phase := .ready, paused := true }, { s with idle := none })
  | .reopen => some ({ l with phase := .unlockPause, paused := false }, { s with closed := false })
  | .unlockPause => some (l.at .ready, { s with maintenance := none })

def step (t : Thread) (c : Choice) (l : Local Thread) (s : Shared Thread) : Option (Local Thread × Shared Thread) :=
  match c with
  | .go barrierOk => advance t barrierOk l s
  | .enter guard => if l.phase = .ready ∧ guard ∉ l.held then some (l.at (.lookup guard), s) else none
  | .drop guard => if l.phase = .ready ∧ guard ∈ l.held then some (l.at (.loadExit (.drop guard)), s) else none
  | .pause => if l.phase = .ready then some (l.at .checkScope, s) else none
  | .dropPause => if l.phase = .ready ∧ l.paused then some (l.at .reopen, s) else none

/-- All interleavings; a thread in its own code need not do anything. -/
def system (Thread : Type) [DecidableEq Thread] : Schedule.System Thread (Local Thread) (Shared Thread) Choice where
  step := step
  busy l := l.phase ≠ .ready

abbrev World (Thread : Type) := Schedule.World Thread (Local Thread) (Shared Thread)

def initial (Thread : Type) : World Thread where
  threads _ := {}
  shared := { depth := fun _ => 0, slots := [], closed := false, maintenance := none, idle := none, waiters := [] }

def Reachable (w : World Thread) : Prop :=
  Relation.ReflTransGen (fun w w' => ∃ t c, (system Thread).move t c w = some w') (initial Thread) w

/-! ### The steps, one by one -/

/-- The steps of a thread `t`. -/
inductive Moves (t : Thread) : Local Thread → Shared Thread → Local Thread → Shared Thread → Prop
  | callEnter {l s} (guard : Nat) (hphase : l.phase = .ready) (hnew : guard ∉ l.held) :
      Moves t l s (l.at (.lookup guard)) s
  | callDrop {l s} (guard : Nat) (hphase : l.phase = .ready) (hheld : guard ∈ l.held) :
      Moves t l s (l.at (.loadExit (.drop guard))) s
  | callPause {l s} (hphase : l.phase = .ready) : Moves t l s (l.at .checkScope) s
  | callDropPause {l s} (hphase : l.phase = .ready) (hpaused : l.paused) : Moves t l s (l.at .reopen) s
  | lookupKnown {l s guard} (hphase : l.phase = .lookup guard) (hslot : t ∈ s.slots) :
      Moves t l s (l.at (.loadDepth guard)) s
  | lookupNew {l s guard} (hphase : l.phase = .lookup guard) (hslot : t ∉ s.slots) :
      Moves t l s (l.at (.lockRegister guard)) s
  | lockRegister {l s guard} (hphase : l.phase = .lockRegister guard) (hfree : s.maintenance = none) :
      Moves t l s (l.at (.addSlot guard)) { s with maintenance := some t }
  | addSlot {l s guard} (hphase : l.phase = .addSlot guard) :
      Moves t l s (l.at (.unlockRegister guard)) { s with slots := s.slots ++ [t] }
  | unlockRegister {l s guard} (hphase : l.phase = .unlockRegister guard) :
      Moves t l s (l.at (.loadDepth guard)) { s with maintenance := none }
  | loadDepth {l s guard} (hphase : l.phase = .loadDepth guard) :
      Moves t l s (l.at (.storeDepth guard (s.depth t))) s
  | nest {l s guard depth} (hphase : l.phase = .storeDepth guard depth) (hdepth : depth ≠ 0) :
      Moves t l s (l.granted guard) (s.store t (depth + 1))
  | announce {l s guard} (hphase : l.phase = .storeDepth guard 0) :
      Moves t l s (l.at (.checkGate guard)) (s.store t 1)
  | admitted {l s guard} (hphase : l.phase = .checkGate guard) (hopen : s.closed = false) :
      Moves t l s (l.granted guard) s
  | refused {l s guard} (hphase : l.phase = .checkGate guard) (hclosed : s.closed = true) :
      Moves t l s (l.at (.loadExit (.withdraw guard))) s
  | loadExit {l s exit} (hphase : l.phase = .loadExit exit) : Moves t l s (l.at (.storeExit exit (s.depth t))) s
  | leaveNested {l s exit depth} (hphase : l.phase = .storeExit exit depth) (hdepth : depth ≠ 1) :
      Moves t l s { l with phase := exit.after, held := exit.remaining l.held } (s.store t (depth - 1))
  | leave {l s exit} (hphase : l.phase = .storeExit exit 1) :
      Moves t l s { l with phase := .checkExit exit, held := exit.remaining l.held } (s.store t 0)
  | leaveQuiet {l s exit} (hphase : l.phase = .checkExit exit) (hopen : s.closed = false) : Moves t l s (l.at exit.after) s
  | leaveAlert {l s exit} (hphase : l.phase = .checkExit exit) (hclosed : s.closed = true) :
      Moves t l s (l.at (.lockIdle exit)) s
  | lockIdle {l s exit} (hphase : l.phase = .lockIdle exit) (hfree : s.idle = none) :
      Moves t l s (l.at (.notify exit)) { s with idle := some t }
  | notify {l s exit} (hphase : l.phase = .notify exit) :
      Moves t l s (l.at (.unlockIdle exit)) { s with waiters := s.waiters.tail }
  | unlockIdle {l s exit} (hphase : l.phase = .unlockIdle exit) : Moves t l s (l.at exit.after) { s with idle := none }
  | lockRetry {l s guard} (hphase : l.phase = .lockRetry guard) (hfree : s.maintenance = none) :
      Moves t l s (l.at (.unlockRetry guard)) { s with maintenance := some t }
  | unlockRetry {l s guard} (hphase : l.phase = .unlockRetry guard) :
      Moves t l s (l.at (.loadDepth guard)) { s with maintenance := none }
  | inScope {l s} (hphase : l.phase = .checkScope) (hslot : t ∈ s.slots) (hdepth : s.depth t ≠ 0) :
      Moves t l s (l.at .ready) s
  | outOfScope {l s} (hphase : l.phase = .checkScope) (hout : ¬(t ∈ s.slots ∧ s.depth t ≠ 0)) :
      Moves t l s (l.at .lockPause) s
  | lockPause {l s} (hphase : l.phase = .lockPause) (hfree : s.maintenance = none) :
      Moves t l s (l.at .close) { s with maintenance := some t }
  | close {l s} (hphase : l.phase = .close) : Moves t l s (l.at .barrier) { s with closed := true }
  | barrier {l s} (hphase : l.phase = .barrier) : Moves t l s (l.at .lockDrain) s
  | barrierFailed {l s} (hphase : l.phase = .barrier) : Moves t l s (l.at .reopen) s
  | lockDrain {l s} (hphase : l.phase = .lockDrain) (hfree : s.idle = none) :
      Moves t l s (l.at (.scan s.slots)) { s with idle := some t }
  | scanned {l s} (hphase : l.phase = .scan []) : Moves t l s (l.at .unlockDrain) s
  | inactive {l s u rest} (hphase : l.phase = .scan (u :: rest)) (hdepth : s.depth u = 0) :
      Moves t l s (l.at (.scan rest)) s
  | active {l s u rest} (hphase : l.phase = .scan (u :: rest)) (hdepth : s.depth u ≠ 0) :
      Moves t l s (l.at .startWait) s
  | startWait {l s} (hphase : l.phase = .startWait) :
      Moves t l s (l.at .waiting) { s with idle := none, waiters := s.waiters ++ [t] }
  | wake {l s} (hphase : l.phase = .waiting) (hwoken : t ∉ s.waiters) (hfree : s.idle = none) :
      Moves t l s (l.at (.scan s.slots)) { s with idle := some t }
  | unlockDrain {l s} (hphase : l.phase = .unlockDrain) :
      Moves t l s { l with phase := .ready, paused := true } { s with idle := none }
  | reopen {l s} (hphase : l.phase = .reopen) :
      Moves t l s { l with phase := .unlockPause, paused := false } { s with closed := false }
  | unlockPause {l s} (hphase : l.phase = .unlockPause) : Moves t l s (l.at .ready) { s with maintenance := none }

variable {t : Thread} {c : Choice} {l l' : Local Thread} {s s' : Shared Thread}

theorem advance_moves {barrierOk : Bool} (h : advance t barrierOk l s = some (l', s')) : Moves t l s l' s' := by
  unfold advance at h
  split at h
  · cases h
  · next guard hphase =>
    cases h
    split
    · exact .lookupKnown hphase ‹_›
    · exact .lookupNew hphase ‹_›
  · next guard hphase =>
    split at h
    · cases h
      exact .lockRegister hphase ‹_›
    · cases h
  · next guard hphase => cases h; exact .addSlot hphase
  · next guard hphase => cases h; exact .unlockRegister hphase
  · next guard hphase => cases h; exact .loadDepth hphase
  · next guard depth hphase =>
    cases h
    split
    · exact .nest hphase ‹_›
    · next hzero =>
      obtain rfl : depth = 0 := not_not.mp hzero
      exact .announce hphase
  · next guard hphase =>
    cases h
    split
    · exact .refused hphase ‹_›
    · exact .admitted hphase (by simpa using ‹¬s.closed = true›)
  · next exit hphase => cases h; exact .loadExit hphase
  · next exit depth hphase =>
    cases h
    split
    · exact .leaveNested hphase ‹_›
    · next hone =>
      obtain rfl : depth = 1 := not_not.mp hone
      exact .leave hphase
  · next exit hphase =>
    cases h
    split
    · exact .leaveAlert hphase ‹_›
    · exact .leaveQuiet hphase (by simpa using ‹¬s.closed = true›)
  · next exit hphase =>
    split at h
    · cases h
      exact .lockIdle hphase ‹_›
    · cases h
  · next exit hphase => cases h; exact .notify hphase
  · next exit hphase => cases h; exact .unlockIdle hphase
  · next guard hphase =>
    split at h
    · cases h
      exact .lockRetry hphase ‹_›
    · cases h
  · next guard hphase => cases h; exact .unlockRetry hphase
  · next hphase =>
    cases h
    split
    · next hscope => exact .inScope hphase hscope.1 hscope.2
    · exact .outOfScope hphase ‹_›
  · next hphase =>
    split at h
    · cases h
      exact .lockPause hphase ‹_›
    · cases h
  · next hphase => cases h; exact .close hphase
  · next hphase =>
    cases h
    split
    · exact .barrier hphase
    · exact .barrierFailed hphase
  · next hphase =>
    split at h
    · cases h
      exact .lockDrain hphase ‹_›
    · cases h
  · next hphase => cases h; exact .scanned hphase
  · next u rest hphase =>
    cases h
    split
    · exact .active hphase ‹_›
    · exact .inactive hphase (by simpa using ‹¬s.depth u ≠ 0›)
  · next hphase => cases h; exact .startWait hphase
  · next hphase =>
    split at h
    · next hwake =>
      cases h
      exact .wake hphase hwake.1 hwake.2
    · cases h
  · next hphase => cases h; exact .unlockDrain hphase
  · next hphase => cases h; exact .reopen hphase
  · next hphase => cases h; exact .unlockPause hphase

theorem step_moves (h : step t c l s = some (l', s')) : Moves t l s l' s' := by
  unfold step at h
  split at h
  · exact advance_moves h
  · next guard =>
    split at h
    · next hcall => cases h; exact .callEnter guard hcall.1 hcall.2
    · cases h
  · next guard =>
    split at h
    · next hcall => cases h; exact .callDrop guard hcall.1 hcall.2
    · cases h
  · split at h
    · cases h
      exact .callPause ‹_›
    · cases h
  · split at h
    · next hcall => cases h; exact .callDropPause hcall.1 hcall.2
    · cases h

/-! ### The mutexes and the gate -/

/-- Between taking and releasing `maintenance`. -/
def Phase.inMaintenance : Phase Thread → Bool
  | .addSlot _ | .unlockRegister _ | .unlockRetry _ | .close | .barrier | .lockDrain | .scan _ | .startWait | .waiting
  | .unlockDrain | .reopen | .unlockPause => true
  | _ => false

/-- Between taking and releasing `idle`. -/
def Phase.inIdle : Phase Thread → Bool
  | .notify _ | .unlockIdle _ | .scan _ | .startWait | .unlockDrain => true
  | _ => false

def Phase.inGate : Phase Thread → Bool
  | .barrier | .lockDrain | .scan _ | .startWait | .waiting | .unlockDrain | .reopen => true
  | _ => false

/-- A pause keeps `maintenance` and the closed gate until it is dropped. -/
def Local.ownsMaintenance (l : Local Thread) : Bool := l.paused || l.phase.inMaintenance

def Local.ownsGate (l : Local Thread) : Bool := l.paused || l.phase.inGate

/-- Each mutex belongs to the thread that is between its operations on it, and the gate is closed while some thread is
between closing and opening it. -/
structure Locks (w : World Thread) : Prop where
  maintenance : ∀ t, w.shared.maintenance = some t ↔ (w.threads t).ownsMaintenance
  idle : ∀ t, w.shared.idle = some t ↔ (w.threads t).phase.inIdle
  closed : w.shared.closed ↔ ∃ t, (w.threads t).ownsGate
  exclusive : ∀ t, (w.threads t).paused → (w.threads t).phase.inMaintenance → (w.threads t).phase = .reopen

theorem Moves.maintenance (h : Moves t l s l' s') (hown : l.ownsMaintenance → s.maintenance = some t)
    (hexclusive : l.paused → l.phase.inMaintenance → l.phase = .reopen) :
    (s'.maintenance = s.maintenance ∧ l'.ownsMaintenance = l.ownsMaintenance) ∨
    (s.maintenance = none ∧ s'.maintenance = some t ∧ l'.ownsMaintenance) ∨
    (l.ownsMaintenance ∧ s'.maintenance = none ∧ ¬l'.ownsMaintenance) := by
  cases h <;> (try cases ‹Exit›) <;>
    simp_all [Exit.after, Local.ownsMaintenance, Phase.inMaintenance, Local.at, Local.granted, Shared.store]

theorem Moves.idle (h : Moves t l s l' s') :
    (s'.idle = s.idle ∧ l'.phase.inIdle = l.phase.inIdle) ∨
    (s.idle = none ∧ s'.idle = some t ∧ l'.phase.inIdle) ∨
    (l.phase.inIdle ∧ s'.idle = none ∧ ¬l'.phase.inIdle) := by
  cases h <;> (try cases ‹Exit›) <;> simp_all [Exit.after, Phase.inIdle, Local.at, Local.granted, Shared.store]

theorem Moves.closed (h : Moves t l s l' s') :
    (s'.closed = s.closed ∧ l'.ownsGate = l.ownsGate) ∨ (s'.closed ∧ l'.ownsGate) ∨
      (l.ownsGate ∧ s'.closed = false ∧ ¬l'.ownsGate) := by
  cases h <;> (try cases ‹Exit›) <;> simp_all [Exit.after, Local.ownsGate, Phase.inGate, Local.at, Local.granted, Shared.store]

theorem Moves.exclusive (h : Moves t l s l' s') (hown : l.ownsMaintenance → s.maintenance = some t)
    (hexclusive : l.paused → l.phase.inMaintenance → l.phase = .reopen) :
    l'.paused → l'.phase.inMaintenance → l'.phase = .reopen := by
  cases h <;> (try cases ‹Exit›) <;>
    simp_all [Exit.after, Local.ownsMaintenance, Phase.inMaintenance, Local.at, Local.granted]

omit [DecidableEq Thread] in
theorem Local.ownsMaintenance_of_ownsGate (h : l.ownsGate) : l.ownsMaintenance := by
  unfold ownsGate ownsMaintenance at *
  cases hphase : l.phase <;> simp_all [Phase.inGate, Phase.inMaintenance]

variable {w w' : World Thread} {u v : Thread}

omit [DecidableEq Thread] in
theorem Locks.owner_unique (h : Locks w) (hu : (w.threads u).ownsMaintenance) (hv : (w.threads v).ownsMaintenance) :
    u = v :=
  Option.some.inj (((h.maintenance u).mpr hu).symm.trans ((h.maintenance v).mpr hv))

omit [DecidableEq Thread] in
theorem Locks.initial : Locks (initial Thread) := by
  constructor <;> simp [Readers.initial, Local.ownsMaintenance, Local.ownsGate, Phase.inMaintenance, Phase.inIdle, Phase.inGate]

/-- A step of `t` as the invariants need it. -/
structure Stepped (t : Thread) (w w' : World Thread) : Prop where
  moves : Moves t (w.threads t) w.shared (w'.threads t) w'.shared
  others : ∀ u, u ≠ t → w'.threads u = w.threads u

theorem stepped_of_move (h : (system Thread).move t c w = some w') : Stepped t w w' :=
  have hmove := Schedule.System.move_eq_some h
  ⟨step_moves hmove.1, hmove.2⟩

theorem Locks.step (h : Locks w) (hstep : Stepped t w w') : Locks w' where
  maintenance := by
    refine Schedule.owner_step h.maintenance (t := t) (fun u hu => by rw [hstep.others u hu]) ?_
    have hcases := hstep.moves.maintenance (h.maintenance t).mpr (h.exclusive t)
    exact hcases.imp_left fun ⟨hlock, hown⟩ => ⟨hlock, by rw [hown]⟩
  idle := by
    refine Schedule.owner_step h.idle (t := t) (fun u hu => by rw [hstep.others u hu]) ?_
    exact hstep.moves.idle.imp_left fun ⟨hlock, hown⟩ => ⟨hlock, by rw [hown]⟩
  closed := by
    rcases hstep.moves.closed with ⟨hclosed, hgate⟩ | ⟨hclosed, hgate⟩ | ⟨hgate, hclosed, hopen⟩
    · rw [hclosed, h.closed]
      refine exists_congr fun u => ?_
      by_cases hu : u = t
      · rw [hu, hgate]
      · rw [hstep.others u hu]
    · exact iff_of_true hclosed ⟨t, hgate⟩
    · refine iff_of_false (by simp [hclosed]) ?_
      rintro ⟨u, hu⟩
      by_cases hut : u = t
      · exact hopen (hut ▸ hu)
      · rw [hstep.others u hut] at hu
        exact hut (h.owner_unique (Local.ownsMaintenance_of_ownsGate hu) (Local.ownsMaintenance_of_ownsGate hgate))
  exclusive u := by
    by_cases hu : u = t
    · subst hu
      exact hstep.moves.exclusive (h.maintenance u).mpr (h.exclusive u)
    · rw [hstep.others u hu]
      exact h.exclusive u

/-! ### The announced depths -/

/-- A reader that has announced itself and not been admitted. -/
def Phase.announced : Phase Thread → Nat
  | .checkGate _ | .loadExit (.withdraw _) | .storeExit (.withdraw _) _ => 1
  | _ => 0

def Phase.registered : Phase Thread → Bool
  | .unlockRegister _ | .loadDepth _ | .storeDepth _ _ | .checkGate _ | .lockRetry _ | .unlockRetry _ | .loadExit _
  | .storeExit _ _ | .checkExit _ | .lockIdle _ | .notify _ | .unlockIdle _ => true
  | _ => false

/-- The slot counts the guards, and one more for a reader that has not been admitted yet. -/
structure Counted (l : Local Thread) (depth : Nat) : Prop where
  count : depth = l.held.length + l.phase.announced
  entering : ∀ guard loaded, l.phase = .storeDepth guard loaded → loaded = depth
  leaving : ∀ exit loaded, l.phase = .storeExit exit loaded → loaded = depth
  dropping : ∀ guard, l.phase = .loadExit (.drop guard) ∨ (∃ loaded, l.phase = .storeExit (.drop guard) loaded) →
    guard ∈ l.held

def Phase.plain : Phase Thread → Bool
  | .storeDepth _ _ | .loadExit _ | .storeExit _ _ => false
  | _ => true

omit [DecidableEq Thread] in
theorem Counted.of_plain {depth : Nat} (hcount : depth = l.held.length + l.phase.announced) (hplain : l.phase.plain) :
    Counted l depth := by
  refine ⟨hcount, ?_, ?_, ?_⟩
  · intro guard loaded hphase
    simp [hphase, Phase.plain] at hplain
  · intro exit loaded hphase
    simp [hphase, Phase.plain] at hplain
  · rintro guard (hphase | ⟨loaded, hphase⟩) <;> simp [hphase, Phase.plain] at hplain

omit [DecidableEq Thread] in
theorem Exit.announced_after (e : Exit) : (e.after : Phase Thread).announced = 0 := by cases e <;> rfl

omit [DecidableEq Thread] in
theorem Exit.plain_after (e : Exit) : (e.after : Phase Thread).plain = true := by cases e <;> rfl

omit [DecidableEq Thread] in
theorem Counted.leave {exit : Exit} {depth loaded : Nat} (h : Counted l depth) (hphase : l.phase = .storeExit exit loaded) :
    loaded = depth ∧ loaded - 1 = (exit.remaining l.held).length := by
  have hcount := h.count
  have hloaded := h.leaving exit loaded hphase
  refine ⟨hloaded, ?_⟩
  cases exit with
  | withdraw guard =>
    simp only [hphase, Phase.announced] at hcount
    simp only [Exit.remaining]
    omega
  | drop guard =>
    simp only [hphase, Phase.announced] at hcount
    simp only [Exit.remaining, List.length_erase_of_mem (h.dropping guard (.inr ⟨loaded, hphase⟩))]
    omega

theorem Moves.counted (h : Moves t l s l' s') (hcounted : Counted l (s.depth t)) : Counted l' (s'.depth t) := by
  have hcount := hcounted.count
  cases h
  case callDrop guard hphase hheld =>
    rw [hphase] at hcount
    refine ⟨hcount, ?_, ?_, ?_⟩ <;> simp [Local.at, hheld]
  case loadDepth guard hphase =>
    rw [hphase] at hcount
    refine ⟨hcount, ?_, ?_, ?_⟩ <;> simp [Local.at]
  case nest guard depth hphase hdepth =>
    obtain rfl := hcounted.entering guard depth hphase
    rw [hphase] at hcount
    refine .of_plain ?_ rfl
    simpa [Local.granted, Shared.store, Phase.announced] using hcount
  case announce guard hphase =>
    have hloaded := hcounted.entering guard 0 hphase
    rw [hphase, ← hloaded] at hcount
    have hnil : l.held = [] := List.length_eq_zero_iff.mp hcount.symm
    refine .of_plain ?_ rfl
    simp [Local.at, Shared.store, Phase.announced, hnil]
  case admitted guard hphase hopen =>
    rw [hphase] at hcount
    exact .of_plain hcount rfl
  case refused guard hphase hclosed =>
    rw [hphase] at hcount
    refine ⟨hcount, ?_, ?_, ?_⟩ <;> simp [Local.at]
  case loadExit exit hphase =>
    refine ⟨?_, by simp [Local.at], by simp [Local.at], ?_⟩
    · rw [hphase] at hcount
      cases exit <;> exact hcount
    · intro guard hexit
      obtain ⟨loaded, hexit⟩ := hexit.resolve_left (by simp [Local.at])
      obtain ⟨rfl, -⟩ : exit = .drop guard ∧ _ := by simpa [Local.at] using hexit
      exact hcounted.dropping guard (.inl hphase)
  case leaveNested exit depth hphase hdepth =>
    obtain ⟨-, hleft⟩ := hcounted.leave hphase
    refine .of_plain ?_ exit.plain_after
    simp [Shared.store, exit.announced_after, hleft]
  case leave exit hphase =>
    obtain ⟨-, hleft⟩ := hcounted.leave hphase
    refine .of_plain ?_ rfl
    simp only [Shared.store, Function.update_self, Phase.announced]
    omega
  case leaveQuiet exit hphase hopen =>
    rw [hphase] at hcount
    cases exit <;> exact .of_plain hcount rfl
  case unlockIdle exit hphase =>
    rw [hphase] at hcount
    cases exit <;> exact .of_plain hcount rfl
  -- the other steps go from a plain phase to a plain phase and change neither the guards nor the slot
  all_goals
    rw [‹l.phase = _›] at hcount
    exact .of_plain hcount rfl

theorem Moves.depth_of_ne (h : Moves t l s l' s') (hu : u ≠ t) : s'.depth u = s.depth u := by
  cases h <;> simp [Shared.store, hu]

theorem Moves.slots (h : Moves t l s l' s') :
    s'.slots = s.slots ∨
      (∃ guard, l.phase = .addSlot guard ∧ l'.phase = .unlockRegister guard) ∧ s'.slots = s.slots ++ [t] := by
  cases h
  case addSlot guard hphase => exact .inr ⟨⟨guard, hphase, rfl⟩, rfl⟩
  all_goals exact .inl rfl

theorem Moves.mem_slots (h : Moves t l s l' s') (hu : u ∈ s.slots) : u ∈ s'.slots := by
  rcases h.slots with heq | ⟨-, heq⟩ <;> simp [heq, hu]

theorem Moves.registered (h : Moves t l s l' s') (hregistered : l.phase.registered ∨ l.held ≠ [] → t ∈ s.slots)
    (hl' : l'.phase.registered ∨ l'.held ≠ []) : t ∈ s'.slots := by
  cases h
  case addSlot guard hphase => simp
  case lookupKnown guard hphase hslot => exact hslot
  case callDrop guard hphase hheld => exact hregistered (.inr (List.ne_nil_of_mem hheld))
  all_goals refine hregistered ?_
  all_goals simp_all [Phase.registered, Local.at, Local.granted]

structure Counts (w : World Thread) : Prop where
  counted : ∀ t, Counted (w.threads t) (w.shared.depth t)
  registered : ∀ t, (w.threads t).phase.registered ∨ (w.threads t).held ≠ [] → t ∈ w.shared.slots

omit [DecidableEq Thread] in
theorem Counts.initial : Counts (initial Thread) where
  counted t := .of_plain rfl rfl
  registered t h := by simp [Readers.initial, Phase.registered] at h

theorem Counts.step (h : Counts w) (hstep : Stepped t w w') : Counts w' where
  counted u := by
    by_cases hu : u = t
    · subst hu
      exact hstep.moves.counted (h.counted u)
    · rw [hstep.others u hu, hstep.moves.depth_of_ne hu]
      exact h.counted u
  registered u hl := by
    by_cases hu : u = t
    · subst hu
      exact hstep.moves.registered (h.registered u) hl
    · rw [hstep.others u hu] at hl
      exact hstep.moves.mem_slots (h.registered u hl)

omit [DecidableEq Thread] in
theorem Counts.mem_slots (h : Counts w) (hdepth : w.shared.depth u ≠ 0) : u ∈ w.shared.slots := by
  apply h.registered u
  by_contra hneither
  obtain ⟨hphase, hheld⟩ := not_or.mp hneither
  have hcount := (h.counted u).count
  rw [not_not.mp hheld] at hcount
  apply hdepth
  cases hp : (w.threads u).phase <;> simp_all [Phase.registered, Phase.announced]

omit [DecidableEq Thread] in
theorem Counts.held_eq_nil (h : Counts w) (hdepth : w.shared.depth u = 0) : (w.threads u).held = [] := by
  have hcount := (h.counted u).count
  exact List.length_eq_zero_iff.mp (by omega)

/-! ### A pause has seen the slots -/

/-- A pause has seen the slot of `u` empty. -/
def Local.Cleared (l : Local Thread) (u : Thread) : Prop :=
  l.paused ∨ l.phase = .unlockDrain ∨ ∃ rest, l.phase = .scan rest ∧ u ∉ rest

omit [DecidableEq Thread] in
theorem Local.Cleared.ownsGate (h : l.Cleared u) : l.ownsGate := by
  unfold Local.ownsGate
  rcases h with h | h | ⟨rest, h, -⟩ <;> simp [h, Phase.inGate]

theorem Moves.cleared (h : Moves t l s l' s') (hcleared : l'.Cleared u) (hu : u ∈ s.slots) :
    l.Cleared u ∨ s.depth u = 0 := by
  unfold Local.Cleared at *
  cases h
  case inactive v rest hphase hdepth =>
    by_cases hv : u = v
    · exact .inr (hv ▸ hdepth)
    · refine .inl (hcleared.imp_right fun h => .inr ⟨v :: rest, hphase, ?_⟩)
      simpa [Local.at, hv] using h
  all_goals simp_all [Local.at, Local.granted]
  all_goals cases ‹Exit› <;> simp_all [Exit.after]

theorem Moves.held_nil (h : Moves t l s l' s') (hcounted : Counted l (s.depth t)) (hheld : l.held = []) :
    l'.held = [] ∨ s'.closed = false := by
  cases h
  case admitted guard hphase hopen => exact .inr hopen
  case nest guard depth hphase hdepth =>
    have hcount := hcounted.count
    rw [hphase, hheld, ← hcounted.entering guard depth hphase] at hcount
    exact absurd hcount hdepth
  case leave exit hphase => cases exit <;> simp [Exit.remaining, hheld]
  case leaveNested exit depth hphase hdepth => cases exit <;> simp [Exit.remaining, hheld]
  all_goals exact .inl hheld

def Drained (w : World Thread) : Prop :=
  ∀ p, ∀ u ∈ w.shared.slots, (w.threads p).Cleared u → (w.threads u).held = []

omit [DecidableEq Thread] in
theorem Drained.initial : Drained (initial Thread) := by
  intro p u hu
  simp [Readers.initial] at hu

theorem Drained.step (h : Drained w) (hlocks : Locks w) (hcounts : Counts w) (hstep : Stepped t w w') : Drained w' := by
  intro p u hu hcleared
  have hlocks' := hlocks.step hstep
  -- no thread registers while a pause has the maintenance mutex
  have hslot : u ∈ w.shared.slots := by
    rcases hstep.moves.slots with heq | ⟨⟨guard, -, hphase⟩, -⟩
    · rwa [heq] at hu
    · exfalso
      have howner : (w'.threads t).ownsMaintenance := by simp [Local.ownsMaintenance, hphase, Phase.inMaintenance]
      obtain rfl := hlocks'.owner_unique (Local.ownsMaintenance_of_ownsGate hcleared.ownsGate) howner
      rcases hcleared with hpaused | hdrain | ⟨rest, hscan, -⟩
      · have := hlocks'.exclusive p hpaused (by simp [hphase, Phase.inMaintenance])
        simp [hphase] at this
      · simp [hphase] at hdrain
      · simp [hphase] at hscan
  have hbefore : (w.threads p).Cleared u ∨ w.shared.depth u = 0 := by
    by_cases hp : p = t
    · subst hp
      exact hstep.moves.cleared hcleared hslot
    · exact .inl (hstep.others p hp ▸ hcleared)
  have hheld : (w.threads u).held = [] := hbefore.elim (h p u hslot) hcounts.held_eq_nil
  by_cases hut : u = t
  · subst hut
    have hclosed : w'.shared.closed = true := hlocks'.closed.mpr ⟨p, hcleared.ownsGate⟩
    rcases hstep.moves.held_nil (hcounts.counted u) hheld with hnil | hopen
    · exact hnil
    · rw [hclosed] at hopen
      cases hopen
  · rw [hstep.others u hut]
    exact hheld

/-! ### No notification is lost -/

/-- The slot is active, or its thread is about to notify. -/
def Alerting (l : Local Thread) (depth : Nat) : Prop :=
  depth ≠ 0 ∨ ∃ exit, l.phase = .checkExit exit ∨ l.phase = .lockIdle exit ∨ l.phase = .notify exit

theorem Moves.alerting (h : Moves t l s l' s') (hcounted : Counted l (s.depth t)) (hclosed : s.closed = true)
    (halerting : Alerting l (s.depth t)) :
    Alerting l' (s'.depth t) ∨ (∃ exit, l.phase = .notify exit) ∧ s'.waiters = s.waiters.tail := by
  rcases halerting with hdepth | ⟨exit, hphase⟩
  · refine .inl ?_
    cases h
    case leave exit hphase => exact .inr ⟨exit, .inl rfl⟩
    case leaveNested exit depth hphase hne =>
      have hloaded := hcounted.leaving exit depth hphase
      have hleft : depth - 1 ≠ 0 := by omega
      exact .inl (by simpa [Shared.store] using hleft)
    case nest guard depth hphase hne => exact .inl (by simp [Shared.store])
    case announce guard hphase => exact .inl (by simp [Shared.store])
    all_goals exact .inl hdepth
  · rcases hphase with hphase | hphase | hphase <;> cases h <;> simp_all [Alerting, Local.at]

/-- A pause that waits, or is about to, has somebody to notify it. -/
structure Wakes (w : World Thread) : Prop where
  waiting : ∀ u ∈ w.shared.waiters, (w.threads u).phase = .waiting
  single : w.shared.waiters.length ≤ 1
  alerted : ∀ p, (w.threads p).phase = .startWait ∨ p ∈ w.shared.waiters →
    ∃ u ∈ w.shared.slots, Alerting (w.threads u) (w.shared.depth u)

theorem Moves.waiters (h : Moves t l s l' s') :
    (s'.waiters = s.waiters ∧ (l.phase = .waiting → t ∉ s.waiters)) ∨
    ((∃ exit, l.phase = .notify exit) ∧ s'.waiters = s.waiters.tail) ∨
    (l.phase = .startWait ∧ l'.phase = .waiting ∧ s'.waiters = s.waiters ++ [t]) := by
  cases h
  case notify exit hphase => exact .inr (.inl ⟨⟨exit, hphase⟩, rfl⟩)
  case startWait hphase => exact .inr (.inr ⟨hphase, rfl, rfl⟩)
  case wake hphase hwoken hfree => exact .inl ⟨rfl, fun _ => hwoken⟩
  all_goals exact .inl ⟨rfl, by simp [‹l.phase = _›]⟩

theorem Moves.startWait_cases (h : Moves t l s l' s') (hphase : l'.phase = .startWait) :
    ∃ u, s.depth u ≠ 0 ∧ s' = s := by
  cases h
  case active u rest hphase hdepth => exact ⟨u, hdepth, rfl⟩
  all_goals simp [Local.at, Local.granted] at hphase
  all_goals cases ‹Exit› <;> simp [Exit.after] at hphase

omit [DecidableEq Thread] in
theorem Wakes.closed (h : Wakes w) (hlocks : Locks w)
    (hp : (w.threads u).phase = .startWait ∨ u ∈ w.shared.waiters) : w.shared.closed = true := by
  refine hlocks.closed.mpr ⟨u, ?_⟩
  rcases hp with hphase | hmem
  · simp [Local.ownsGate, hphase, Phase.inGate]
  · simp [Local.ownsGate, h.waiting u hmem, Phase.inGate]

omit [DecidableEq Thread] in
theorem Wakes.initial : Wakes (initial Thread) := by
  constructor <;> simp [Readers.initial]

omit [DecidableEq Thread] in
theorem Wakes.waiters_eq_nil (h : Wakes w) (hlocks : Locks w) (hphase : (w.threads t).phase = .startWait) :
    w.shared.waiters = [] := by
  refine List.eq_nil_iff_forall_not_mem.mpr fun u hu => ?_
  have hwaiting := h.waiting u hu
  have heq : u = t := hlocks.owner_unique (by simp [Local.ownsMaintenance, hwaiting, Phase.inMaintenance])
    (by simp [Local.ownsMaintenance, hphase, Phase.inMaintenance])
  rw [heq, hphase] at hwaiting
  cases hwaiting

theorem Wakes.step (h : Wakes w) (hlocks : Locks w) (hcounts : Counts w) (hstep : Stepped t w w') : Wakes w' where
  waiting u hu := by
    rcases hstep.moves.waiters with ⟨heq, hwoken⟩ | ⟨⟨exit, hphase⟩, heq⟩ | ⟨hphase, hphase', heq⟩
    · rw [heq] at hu
      have hwaiting := h.waiting u hu
      rw [hstep.others u fun hut => hwoken (hut ▸ hwaiting) (hut ▸ hu)]
      exact hwaiting
    · rw [heq] at hu
      have hwaiting := h.waiting u (List.mem_of_mem_tail hu)
      rw [hstep.others u fun hut => by rw [hut, hphase] at hwaiting; cases hwaiting]
      exact hwaiting
    · rw [heq, h.waiters_eq_nil hlocks hphase, List.nil_append, List.mem_singleton] at hu
      rw [hu, hphase']
  single := by
    have hsingle := h.single
    rcases hstep.moves.waiters with ⟨heq, -⟩ | ⟨-, heq⟩ | ⟨hphase, -, heq⟩
    · rwa [heq]
    · rw [heq, List.length_tail]
      omega
    · rw [heq, h.waiters_eq_nil hlocks hphase]
      simp
  alerted p hp := by
    have hprior : ((w.threads p).phase = .startWait ∨ p ∈ w.shared.waiters) ∨
        ∃ u, w.shared.depth u ≠ 0 ∧ w'.shared = w.shared := by
      rcases hp with hphase | hmem
      · by_cases hpt : p = t
        · exact .inr (hstep.moves.startWait_cases (hpt ▸ hphase))
        · exact .inl (.inl (hstep.others p hpt ▸ hphase))
      · rcases hstep.moves.waiters with ⟨heq, -⟩ | ⟨-, heq⟩ | ⟨hphase, -, heq⟩
        · exact .inl (.inr (heq ▸ hmem))
        · exact .inl (.inr (List.mem_of_mem_tail (heq ▸ hmem)))
        · rw [heq, List.mem_append, List.mem_singleton] at hmem
          exact .inl (hmem.symm.imp (fun hpt : p = t => hpt ▸ hphase) id)
    rcases hprior with hprior | ⟨u, hdepth, hsame⟩
    · obtain ⟨u, hu, halerting⟩ := h.alerted p hprior
      have hmem := hstep.moves.mem_slots hu
      by_cases hut : u = t
      · subst hut
        rcases hstep.moves.alerting (hcounts.counted u) (h.closed hlocks hprior) halerting with
          halerting | ⟨⟨exit, hnotify⟩, heq⟩
        · exact ⟨u, hmem, halerting⟩
        · -- a notification takes the only waiting pause, and none is about to wait while `idle` is taken
          exfalso
          rcases hp with hphase | hwaiting
          · have hpu : p ≠ u := by
              rintro rfl
              rcases hprior with hphase | hwaiting
              · rw [hnotify] at hphase
                cases hphase
              · rw [h.waiting p hwaiting] at hnotify
                cases hnotify
            rw [hstep.others p hpu] at hphase
            have hidle := (hlocks.idle u).mpr (by simp [hnotify, Phase.inIdle])
            exact hpu (Option.some.inj (((hlocks.idle p).mpr (by simp [hphase, Phase.inIdle])).symm.trans hidle))
          · have hsingle := h.single
            have hnone : w.shared.waiters.tail = [] := by
              rw [← List.length_eq_zero_iff, List.length_tail]
              omega
            rw [heq, hnone] at hwaiting
            cases hwaiting
      · exact ⟨u, hmem, by rwa [hstep.others u hut, hstep.moves.depth_of_ne hut]⟩
    · exact ⟨u, hsame ▸ hcounts.mem_slots hdepth, .inl (hsame ▸ hdepth)⟩

/-! ### Safety -/

structure Sound (w : World Thread) : Prop where
  locks : Locks w
  counts : Counts w
  drained : Drained w
  wakes : Wakes w

theorem Sound.step (h : Sound w) (hstep : Stepped t w w') : Sound w' where
  locks := h.locks.step hstep
  counts := h.counts.step hstep
  drained := h.drained.step h.locks h.counts hstep
  wakes := h.wakes.step h.locks h.counts hstep

theorem sound_of_reachable (h : Reachable w) : Sound w :=
  Transition.invariant (fun _ _ hw ⟨_, _, hmove⟩ => Sound.step hw (stepped_of_move hmove))
    ⟨.initial, .initial, .initial, .initial⟩ h

omit [DecidableEq Thread] in
theorem Sound.held_eq_nil (h : Sound w) (hpaused : (w.threads u).paused) (v : Thread) : (w.threads v).held = [] := by
  by_contra hheld
  exact hheld (h.drained u v (h.counts.registered v (.inr hheld)) (.inl hpaused))

omit [DecidableEq Thread] in
theorem Sound.paused_unique (h : Sound w) (hu : (w.threads u).paused) (hv : (w.threads v).paused) : u = v :=
  h.locks.owner_unique (by simp [Local.ownsMaintenance, hu]) (by simp [Local.ownsMaintenance, hv])

/-- An `enter` call of thread `t` makes its three steps whatever the other threads and the shared state do. -/
structure EntersAtOnce (t : Thread) (w : World Thread) : Prop where
  lookup : ∀ guard b, (w.threads t).phase = .lookup guard →
    advance t b (w.threads t) w.shared = some ((w.threads t).at (.loadDepth guard), w.shared)
  load : ∀ guard b, (w.threads t).phase = .loadDepth guard →
    advance t b (w.threads t) w.shared = some ((w.threads t).at (.storeDepth guard (w.shared.depth t)), w.shared)
  store : ∀ guard depth b, (w.threads t).phase = .storeDepth guard depth →
    advance t b (w.threads t) w.shared = some ((w.threads t).granted guard, w.shared.store t (depth + 1))

/-- A thread that has a guard never waits for another one. -/
theorem Sound.entersAtOnce (h : Sound w) (hheld : (w.threads t).held ≠ []) : EntersAtOnce t w where
  lookup guard b hphase := by simp [advance, hphase, h.counts.registered t (.inr hheld)]
  load guard b hphase := by simp [advance, hphase]
  store guard depth b hphase := by
    have hcounted := h.counts.counted t
    have hcount := hcounted.count
    rw [hphase, ← hcounted.entering guard depth hphase] at hcount
    have hdepth : depth ≠ 0 := fun hzero => hheld (List.length_eq_zero_iff.mp (hcount.symm.trans hzero))
    simp [advance, hphase, hdepth]

end Readers

end MagicEngine
