import Mathlib.Data.Fintype.Basic
import MagicEngine.Store.Readers

/-!
# Pauses and readers get through

Liveness of reader admission under a strongly fair schedule. A pause that waits is notified, because the threads it
waits for withdraw or end their scopes and then notify (`Wakes`); and once the gate is closed every thread comes to
rest with an empty slot, so that a pause does not wait forever (`drains`). The maintenance mutex is free again and again
then (`maintenance_free`), which gets every pause through, and every reader once no more pauses are started.

It takes that whole scopes end: a thread that takes a new guard before it drops the old one keeps a pause waiting
although each of its guards is dropped (`overlapping_guards_starve_pause`).
-/

namespace MagicEngine

namespace Readers

variable {Thread : Type} [DecidableEq Thread]

abbrev Run (Thread : Type) [DecidableEq Thread] := Schedule.Run (system Thread)

/-- A fair schedule in which reader scopes end and pauses are dropped. -/
structure Served (r : Run Thread) : Prop where
  starts : r.state 0 = initial Thread
  fair : r.StronglyFair
  /-- A thread that has guards has none at some later instant. -/
  scopes : ∀ n t, ∃ m, n ≤ m ∧ ((r.state m).threads t).held = []
  pauses : ∀ n t, ((r.state n).threads t).paused → ∃ m, n ≤ m ∧ ¬((r.state m).threads t).paused

def Phase.pausing : Phase Thread → Bool
  | .checkScope | .lockPause | .close | .barrier | .lockDrain | .scan _ | .startWait | .waiting | .unlockDrain | .reopen
  | .unlockPause => true
  | _ => false

/-- A thread has a pause, or is about to get one or to drop it. -/
def Local.pauses (l : Local Thread) : Bool := l.paused || l.phase.pausing

def Phase.entering : Phase Thread → Bool
  | .lookup _ | .lockRegister _ | .addSlot _ | .unlockRegister _ | .loadDepth _ | .storeDepth _ _ | .checkGate _
  | .lockRetry _ | .unlockRetry _ | .loadExit (.withdraw _) | .storeExit (.withdraw _) _ | .checkExit (.withdraw _)
  | .lockIdle (.withdraw _) | .notify (.withdraw _) | .unlockIdle (.withdraw _) => true
  | _ => false

def Phase.free : Phase Thread → Bool
  | .ready | .lockRegister _ | .lockRetry _ | .lockIdle _ | .lockPause | .lockDrain | .waiting => false
  | _ => true

/-- A pause looks at the slots or waits to do so. -/
def Phase.draining : Phase Thread → Bool
  | .scan _ | .startWait | .waiting => true
  | _ => false

theorem advance_of_free {t : Thread} {l : Local Thread} (s : Shared Thread) (h : l.phase.free) :
    (advance t true l s).isSome := by
  unfold advance
  split <;> simp_all [Phase.free]

/-- Thread `t` takes its next step after instant `n` at instant `m`. -/
structure Acts (r : Run Thread) (t : Thread) (n m : Nat) : Prop where
  le : n ≤ m
  same : (r.state m).threads t = (r.state n).threads t
  move : ∃ c, r.move m = some (t, c)
  stepped : Stepped t (r.state m) (r.state (m + 1))

namespace Served

variable {r : Run Thread} {t u p : Thread} {n m k : Nat} {l l' : Local Thread} {s s' : Shared Thread}

theorem reachable (h : r.state 0 = initial Thread) (n : Nat) : Reachable (r.state n) :=
  r.stable (fun _ _ t c hmove hw => hw.tail ⟨t, c, hmove⟩) (Nat.zero_le n) (h ▸ .refl)

theorem sound (h : Served r) (n : Nat) : Sound (r.state n) := sound_of_reachable (reachable h.starts n)

theorem stepped_cases (r : Run Thread) (n : Nat) :
    (∃ t c, r.move n = some (t, c) ∧ Stepped t (r.state n) (r.state (n + 1))) ∨ r.state (n + 1) = r.state n := by
  rcases r.next_cases n with ⟨t, c, hmove, hstep, hothers⟩ | hidle
  · exact .inl ⟨t, c, hmove, step_moves hstep, hothers⟩
  · exact .inr hidle

/-- A thread moves if it can do so again and again. -/
theorem moves (h : Served r) (hbusy : ((r.state n).threads t).phase ≠ .ready)
    (henabled : ∀ m, n ≤ m → ∃ k, m ≤ k ∧ ((∀ j, n ≤ j → j < k → ∀ c, r.move j ≠ some (t, c)) →
      (advance t true ((r.state n).threads t) (r.state k).shared).isSome)) :
    ∃ m, Acts r t n m := by
  obtain ⟨m, hm, ⟨c, hc⟩, hsame, -⟩ := h.fair.moves (n := n) (t := t) fun m hm => by
    obtain ⟨k, hk, hstill⟩ := henabled m hm
    refine ⟨k, hk, fun hj => ?_⟩
    have hsame := r.threads_eq (hm.trans hk) hj
    exact ⟨by rw [hsame]; exact hbusy, .go true, by rw [hsame]; exact hstill hj⟩
  exact ⟨m, hm, hsame, ⟨c, hc⟩, stepped_of_move (r.next m t c hc)⟩

theorem free_moves (h : Served r) (hfree : ((r.state n).threads t).phase.free) :
    ∃ m, Acts r t n m := by
  refine h.moves (fun hready => by simp [hready, Phase.free] at hfree) fun m _ => ⟨m, Nat.le_refl m, fun _ => ?_⟩
  exact advance_of_free _ hfree

/-! ### The mutex of the condition variable -/

/-- How long a thread keeps `idle`. -/
def idleRank : Phase Thread → Nat
  | .notify _ => 2
  | .scan rest => rest.length + 2
  | _ => 1

theorem idleRank_lt (h : Moves t l s l' s') (hl : l.phase.inIdle) :
    s'.idle = none ∨ l'.phase.inIdle ∧ idleRank l'.phase < idleRank l.phase := by
  cases h <;> simp_all [Phase.inIdle, Local.at, idleRank]

theorem idle_free (h : Served r) (n : Nat) : ∃ m, n ≤ m ∧ (r.state m).shared.idle = none := by
  cases hidle : (r.state n).shared.idle with
  | none => exact ⟨n, Nat.le_refl n, hidle⟩
  | some t =>
    have hstart : ((r.state n).threads t).phase.inIdle := ((h.sound n).locks.idle t).mp hidle
    refine Schedule.Run.leads (fun n => idleRank ((r.state n).threads t).phase)
      (P := fun n => ((r.state n).threads t).phase.inIdle) ?_ hstart
    intro n hn
    have hfree : ((r.state n).threads t).phase.free := by
      cases hphase : ((r.state n).threads t).phase <;> simp_all [Phase.inIdle, Phase.free]
    obtain ⟨m, hm⟩ := h.free_moves hfree
    refine ⟨m + 1, Nat.le_succ_of_le hm.le, ?_⟩
    rw [← hm.same]
    exact idleRank_lt hm.stepped.moves (by rw [hm.same]; exact hn)

/-! ### The slots empty while a pause waits -/

theorem draining_step (h : Moves t l s l' s') (hl : l.phase.draining) :
    l'.phase.draining ∨ l'.phase = .unlockDrain := by
  cases h <;> simp_all [Phase.draining, Local.at]

theorem draining_of_never (hn : ((r.state n).threads p).phase.draining)
    (hnever : ∀ m, n ≤ m → ((r.state m).threads p).phase ≠ .unlockDrain) (hm : n ≤ m) :
    ((r.state m).threads p).phase.draining :=
  r.thread_stable (P := (·.phase.draining)) hm hn fun k _ _ _ hstep hk =>
    (draining_step (step_moves hstep) hk).resolve_right (hnever (k + 1) (by omega))

/-- The moves a thread without guards has left while the gate is closed and the maintenance mutex is taken. -/
def restRank : Phase Thread → Nat
  | .checkExit (.drop _) => 20
  | .lockIdle (.drop _) => 19
  | .notify (.drop _) => 18
  | .unlockIdle (.drop _) => 17
  | .ready => 16
  | .lookup _ => 15
  | .loadDepth _ => 14
  | .storeDepth _ _ => 13
  | .checkGate _ => 12
  | .loadExit _ => 11
  | .storeExit _ _ => 10
  | .checkExit (.withdraw _) => 9
  | .lockIdle (.withdraw _) => 8
  | .notify (.withdraw _) => 7
  | .unlockIdle (.withdraw _) => 6
  | .checkScope => 5
  | _ => 1

theorem restRank_lt (h : Moves t l s l' s') (hclosed : s.closed = true)
    (htaken : s.maintenance ≠ none) (howner : ¬l.ownsMaintenance) (hheld : l.held = [])
    (hcounted : Counted l (s.depth t)) : restRank l'.phase < restRank l.phase := by
  have hcount := hcounted.count
  have hdropping := hcounted.dropping
  rw [hheld] at hcount
  simp only [hheld, List.not_mem_nil, imp_false, not_or, not_exists] at hdropping
  cases h
  case nest guard depth hphase hdepth =>
    rw [hphase, ← hcounted.entering guard depth hphase] at hcount
    exact absurd hcount hdepth
  case inScope hphase hslot hdepth =>
    rw [hphase] at hcount
    exact absurd hcount hdepth
  all_goals try cases ‹Exit›
  all_goals simp_all [Local.ownsMaintenance, Phase.inMaintenance, Local.at, restRank, Exit.after]

theorem owner_of_draining (h : Served r) (hp : ((r.state n).threads p).phase.draining) :
    (r.state n).shared.closed = true ∧ (r.state n).shared.maintenance = some p ∧
      ∀ u, u ≠ p → ¬((r.state n).threads u).ownsMaintenance := by
  have hlocks := (h.sound n).locks
  have hgate : ((r.state n).threads p).ownsGate := by
    unfold Local.ownsGate
    cases hphase : ((r.state n).threads p).phase <;> simp_all [Phase.draining, Phase.inGate]
  have howner := Local.ownsMaintenance_of_ownsGate hgate
  exact ⟨hlocks.closed.mpr ⟨p, hgate⟩, (hlocks.maintenance p).mpr howner,
    fun u hu hu' => hu (hlocks.owner_unique hu' howner)⟩

theorem held_stays_nil (h : Served r) (hdraining : ∀ m, n ≤ m → ((r.state m).threads p).phase.draining)
    (hn : ((r.state n).threads u).held = []) (hm : n ≤ m) : ((r.state m).threads u).held = [] := by
  refine r.thread_stable (P := (·.held = [])) hm hn fun k _ _ _ hstep hk => ?_
  have hclosed := (h.owner_of_draining (hdraining (k + 1) (by omega))).1
  exact ((step_moves hstep).held_nil ((h.sound k).counts.counted u) hk).resolve_right (by simp [hclosed])

/-- A thread that is about to notify, or has announced itself, moves on. -/
theorem alerting_moves (h : Served r) (hheld : ((r.state n).threads t).held = [])
    (halerting : Alerting ((r.state n).threads t) ((r.state n).shared.depth t)) :
    ∃ m, Acts r t n m := by
  rcases halerting with hdepth | ⟨exit, hphase | hphase | hphase⟩
  · apply h.free_moves
    have hcount := ((h.sound n).counts.counted t).count
    rw [hheld] at hcount
    cases hphase : ((r.state n).threads t).phase <;> simp_all [Phase.announced, Phase.free]
  · exact h.free_moves (by simp [hphase, Phase.free])
  · refine h.moves (by simp [hphase]) fun m _ => ?_
    obtain ⟨k, hk, hidle⟩ := h.idle_free m
    exact ⟨k, hk, fun _ => by simp [advance, hphase, hidle]⟩
  · exact h.free_moves (by simp [hphase, Phase.free])

/-- While a pause drains, every thread comes to rest with an empty slot. -/
theorem comes_to_rest (h : Served r) (hdraining : ∀ m, n ≤ m → ((r.state m).threads p).phase.draining) (u : Thread) :
    ∃ m, n ≤ m ∧ ∀ k, m ≤ k → ¬Alerting ((r.state k).threads u) ((r.state k).shared.depth u) := by
  obtain ⟨m₁, hm₁, hheld₁⟩ := h.scopes n u
  have hheld : ∀ k, m₁ ≤ k → ((r.state k).threads u).held = [] :=
    fun k hk => h.held_stays_nil (fun m hm => hdraining m (by omega)) hheld₁ hk
  by_cases hup : u = p
  · subst hup
    refine ⟨m₁, hm₁, fun k hk halerting => ?_⟩
    have hphase := hdraining k (by omega)
    have hcount := ((h.sound k).counts.counted u).count
    rw [hheld k hk] at hcount
    rcases halerting with hdepth | ⟨exit, hexit | hexit | hexit⟩
    · cases hp : ((r.state k).threads u).phase <;> simp_all [Phase.draining, Phase.announced]
    all_goals simp [hexit, Phase.draining] at hphase
  · obtain ⟨m₂, hm₂, hrest⟩ := r.exists_rest (fun l => restRank l.phase) (n := m₁) (t := u) fun k hk c hc => by
      have hstep := stepped_of_move (r.next k u c hc)
      obtain ⟨hclosed, howner, hothers⟩ := h.owner_of_draining (hdraining k (by omega))
      exact restRank_lt hstep.moves hclosed (by simp [howner]) (hothers u hup) (hheld k hk)
        ((h.sound k).counts.counted u)
    refine ⟨m₂, by omega, fun k hk halerting => ?_⟩
    obtain ⟨m, hm⟩ := h.alerting_moves (hheld k (by omega)) halerting
    obtain ⟨c, hc⟩ := hm.move
    exact (hrest m (hk.trans hm.le)).2 c hc

/-- The phase of a pause once every slot is empty for good. -/
theorem scan_or_woken (h : Served r) (hdraining : ((r.state n).threads p).phase.draining)
    (hempty : ∀ u ∈ (r.state n).shared.slots, ¬Alerting ((r.state n).threads u) ((r.state n).shared.depth u)) :
    (∃ rest, ((r.state n).threads p).phase = .scan rest) ∨
      ((r.state n).threads p).phase = .waiting ∧ p ∉ (r.state n).shared.waiters := by
  have hwakes := (h.sound n).wakes.alerted p
  have hnot : ¬(((r.state n).threads p).phase = .startWait ∨ p ∈ (r.state n).shared.waiters) := fun hwaits => by
    obtain ⟨u, hu, halerting⟩ := hwakes hwaits
    exact hempty u hu halerting
  cases hphase : ((r.state n).threads p).phase <;> simp_all [Phase.draining]

theorem slots_stay (h : Served r) (hdraining : ∀ m, n ≤ m → ((r.state m).threads p).phase.draining) (hm : n ≤ m) :
    (r.state m).shared.slots = (r.state n).shared.slots := by
  induction m, hm using Nat.le_induction with
  | base => rfl
  | succ m hm ih =>
    rw [← ih]
    rcases stepped_cases r m with ⟨t, c, -, hstep⟩ | hidle
    · rcases hstep.moves.slots with heq | ⟨⟨guard, hphase, -⟩, -⟩
      · exact heq
      · exfalso
        by_cases htp : t = p
        · have hp := hdraining m hm
          simp [← htp, hphase, Phase.draining] at hp
        · refine (h.owner_of_draining (hdraining m hm)).2.2 t htp ?_
          simp [Local.ownsMaintenance, hphase, Phase.inMaintenance]
    · rw [hidle]

theorem not_mem_waiters (r : Run Thread) (hn : p ∉ (r.state n).shared.waiters) (hm : n ≤ m)
    (hstill : ∀ j, n ≤ j → j < m → ∀ c, r.move j ≠ some (p, c)) : p ∉ (r.state m).shared.waiters := by
  induction m, hm using Nat.le_induction with
  | base => exact hn
  | succ m hm ih =>
    have ih := ih fun j hj hlt => hstill j hj (by omega)
    rcases stepped_cases r m with ⟨t, c, hmove, hstep⟩ | hidle
    · have htp : p ≠ t := fun heq => hstill m hm (Nat.lt_succ_self m) c (heq ▸ hmove)
      rcases hstep.moves.waiters with ⟨heq, -⟩ | ⟨-, heq⟩ | ⟨-, -, heq⟩
      · rwa [heq]
      · exact fun hmem => ih (List.mem_of_mem_tail (heq ▸ hmem))
      · simp [heq, ih, htp]
    · rwa [hidle]

theorem scan_step {rest : List Thread} (h : Moves t l s l' s')
    (hphase : l.phase = .scan rest) : l'.phase = .unlockDrain ∨ (∃ u, s.depth u ≠ 0) ∨
      ∃ rest', l'.phase = .scan rest' ∧ rest'.length < rest.length := by
  cases h <;> simp_all [Local.at]
  case active u rest hdepth hactive => exact ⟨u, hactive⟩
  case inactive => simp [← hphase]

theorem wake_step (h : Moves t l s l' s') (hphase : l.phase = .waiting) :
    l'.phase = .scan s'.slots := by
  cases h <;> simp_all [Local.at]

def scanRank (slots : Nat) : Phase Thread → Nat
  | .scan rest => rest.length
  | _ => slots + 1

/-- A pause that has closed the gate sees every slot empty in the end. -/
theorem drains (h : Served r) (hn : ((r.state n).threads p).phase.draining) :
    ∃ m, n ≤ m ∧ ((r.state m).threads p).phase = .unlockDrain := by
  by_contra hnone
  have hdraining : ∀ m, n ≤ m → ((r.state m).threads p).phase.draining :=
    fun m hm => draining_of_never hn (fun m hm heq => hnone ⟨m, hm, heq⟩) hm
  have hslots : ∀ m, n ≤ m → (r.state m).shared.slots = (r.state n).shared.slots := fun m => h.slots_stay hdraining
  obtain ⟨N, hN, hrest⟩ := Schedule.Run.eventually_forall (r.state n).shared.slots n fun u _ => h.comes_to_rest hdraining u
  have hempty : ∀ k, N ≤ k → ∀ u ∈ (r.state k).shared.slots,
      ¬Alerting ((r.state k).threads u) ((r.state k).shared.depth u) := by
    intro k hk u hu
    rw [hslots k (by omega)] at hu
    exact hrest k hk u hu
  obtain ⟨m, hm, hdone⟩ := Schedule.Run.leads (n := N) (P := fun k => N ≤ k)
    (Q := fun k => ((r.state k).threads p).phase = .unlockDrain)
    (fun k => scanRank (r.state n).shared.slots.length ((r.state k).threads p).phase) (fun k hk => by
      rcases h.scan_or_woken (hdraining k (by omega)) (hempty k hk) with ⟨rest, hphase⟩ | ⟨hphase, hwoken⟩
      · obtain ⟨m, hm⟩ := h.free_moves (n := k) (t := p) (by simp [hphase, Phase.free])
        have hle := hm.le
        refine ⟨m + 1, by omega, ?_⟩
        rcases scan_step hm.stepped.moves (hm.same ▸ hphase) with hdone | ⟨u, hdepth⟩ | ⟨rest', hphase', hlt⟩
        · exact .inl hdone
        · exact absurd (.inl hdepth) (hempty m (by omega) u ((h.sound m).counts.mem_slots hdepth))
        · exact .inr ⟨by omega, by simpa [hphase, hphase', scanRank] using hlt⟩
      · obtain ⟨m, hm⟩ := h.moves (n := k) (t := p) (by simp [hphase]) fun m hm => by
          obtain ⟨j, hj, hidle⟩ := h.idle_free m
          refine ⟨j, hj, fun hstill => ?_⟩
          simp [advance, hphase, hidle, not_mem_waiters r hwoken (hm.trans hj) hstill]
        have hle := hm.le
        refine ⟨m + 1, by omega, .inr ⟨by omega, ?_⟩⟩
        rw [wake_step hm.stepped.moves (hm.same ▸ hphase), hphase, hslots (m + 1) (by omega)]
        exact Nat.lt_succ_self _) (Nat.le_refl N)
  exact hnone ⟨m, by omega, hdone⟩

/-! ### The maintenance mutex is free again and again -/

/-- How far a pause has come, and how long a thread keeps the maintenance mutex. -/
def pauseRank : Phase Thread → Nat
  | .checkScope => 10
  | .lockPause => 9
  | .close => 8
  | .barrier => 7
  | .lockDrain => 6
  | .scan _ | .startWait | .waiting => 5
  | .unlockDrain => 4
  | .reopen | .addSlot _ => 2
  | .unlockPause | .unlockRegister _ | .unlockRetry _ => 1
  | _ => 3

theorem owner_step (h : Moves t l s l' s') (hl : l.phase.inMaintenance)
    (hnot : ¬l.phase.draining) :
    s'.maintenance = none ∨ l'.ownsMaintenance ∧ pauseRank l'.phase < pauseRank l.phase := by
  cases h <;> simp_all [Local.ownsMaintenance, Phase.inMaintenance, Phase.draining, Local.at, pauseRank]

theorem unpause_step (h : Moves t l s l' s') (hl : l.paused)
    (hl' : ¬l'.paused) : l'.phase = .unlockPause := by
  cases h <;> simp_all [Local.at, Local.granted]

theorem unpauses (h : Served r) (hn : ((r.state n).threads t).paused) :
    ∃ m, n ≤ m ∧ ((r.state m).threads t).phase = .unlockPause ∧ ¬((r.state m).threads t).paused := by
  classical
  have hends := h.pauses n t hn
  obtain ⟨hle, hnot⟩ := Nat.find_spec hends
  obtain ⟨m, hm⟩ : ∃ m, Nat.find hends = m + 1 := by
    cases hfind : Nat.find hends with
    | zero =>
      rw [hfind] at hle hnot
      exact absurd (Nat.le_zero.mp hle ▸ hn) hnot
    | succ m => exact ⟨m, rfl⟩
  rw [hm] at hle hnot
  have hpaused : ((r.state m).threads t).paused := by
    by_cases hnm : n ≤ m
    · exact not_not.mp fun hnot' => Nat.find_min hends (by omega) ⟨hnm, hnot'⟩
    · obtain rfl : n = m + 1 := by omega
      exact absurd hn hnot
  refine ⟨m + 1, hle, ?_, hnot⟩
  rcases stepped_cases r m with ⟨u, c, -, hstep⟩ | hidle
  · by_cases htu : t = u
    · exact unpause_step (htu ▸ hstep.moves) hpaused hnot
    · exact absurd (hstep.others t htu ▸ hpaused) hnot
  · exact absurd (hidle ▸ hpaused) hnot

theorem lockDrain_moves (h : Served r) (hphase : ((r.state n).threads t).phase = .lockDrain) : ∃ m, Acts r t n m := by
  refine h.moves (by simp [hphase]) fun m _ => ?_
  obtain ⟨k, hk, hidle⟩ := h.idle_free m
  exact ⟨k, hk, fun _ => by simp [advance, hphase, hidle]⟩

theorem inMaintenance_moves (h : Served r) (hphase : ((r.state n).threads t).phase.inMaintenance)
    (hnot : ¬((r.state n).threads t).phase.draining) : ∃ m, Acts r t n m := by
  by_cases hlock : ((r.state n).threads t).phase = .lockDrain
  · exact h.lockDrain_moves hlock
  · apply h.free_moves
    cases hp : ((r.state n).threads t).phase <;> simp_all [Phase.inMaintenance, Phase.draining, Phase.free]

theorem maintenance_free (h : Served r) (n : Nat) : ∃ m, n ≤ m ∧ (r.state m).shared.maintenance = none := by
  cases howner : (r.state n).shared.maintenance with
  | none => exact ⟨n, Nat.le_refl n, howner⟩
  | some t =>
    refine Schedule.Run.leads (fun n => pauseRank ((r.state n).threads t).phase)
      (P := fun n => ((r.state n).threads t).ownsMaintenance) ?_ (((h.sound n).locks.maintenance t).mp howner)
    intro n hn
    by_cases hphase : ((r.state n).threads t).phase.inMaintenance
    · by_cases hdraining : ((r.state n).threads t).phase.draining
      · obtain ⟨m, hm, hdone⟩ := h.drains hdraining
        refine ⟨m, hm, .inr ⟨by simp [Local.ownsMaintenance, hdone, Phase.inMaintenance], ?_⟩⟩
        cases hp : ((r.state n).threads t).phase <;> simp_all [Phase.draining, pauseRank]
      · obtain ⟨m, hm⟩ := h.inMaintenance_moves hphase hdraining
        refine ⟨m + 1, Nat.le_succ_of_le hm.le, ?_⟩
        rw [← hm.same]
        exact owner_step hm.stepped.moves (by rwa [hm.same]) (by rwa [hm.same])
    · -- a pause that has been given out: its owner drops it
      have hpaused : ((r.state n).threads t).paused := by simpa [Local.ownsMaintenance, hphase] using hn
      obtain ⟨m, hm, hunlock, -⟩ := h.unpauses hpaused
      refine ⟨m, hm, .inr ⟨by simp [Local.ownsMaintenance, hunlock, Phase.inMaintenance], ?_⟩⟩
      cases hp : ((r.state n).threads t).phase <;> simp_all [Phase.inMaintenance, pauseRank]

/-! ### Calls return -/

theorem pausing_step (h : Moves t l s l' s') (hl : l.phase.pausing)
    (hnot : ¬l.phase.draining) :
    l'.phase = .ready ∨ l'.phase.pausing ∧ pauseRank l'.phase < pauseRank l.phase := by
  cases h <;> simp_all [Phase.pausing, Phase.draining, Local.at, pauseRank]

theorem pause_returns (h : Served r) (hn : ((r.state n).threads t).phase.pausing) :
    ∃ m, n ≤ m ∧ ((r.state m).threads t).phase = .ready := by
  refine Schedule.Run.leads (fun n => pauseRank ((r.state n).threads t).phase)
    (P := fun n => ((r.state n).threads t).phase.pausing) ?_ hn
  intro n hn
  by_cases hdraining : ((r.state n).threads t).phase.draining
  · obtain ⟨m, hm, hdone⟩ := h.drains hdraining
    refine ⟨m, hm, .inr ⟨by simp [hdone, Phase.pausing], ?_⟩⟩
    cases hp : ((r.state n).threads t).phase <;> simp_all [Phase.draining, pauseRank]
  · obtain ⟨m, hm⟩ : ∃ m, Acts r t n m := by
      by_cases hlock : ((r.state n).threads t).phase = .lockPause
      · refine h.moves (by simp [hlock]) fun m _ => ?_
        obtain ⟨k, hk, hfree⟩ := h.maintenance_free m
        exact ⟨k, hk, fun _ => by simp [advance, hlock, hfree]⟩
      · by_cases hscope : ((r.state n).threads t).phase = .checkScope
        · exact h.free_moves (by simp [hscope, Phase.free])
        · refine h.inMaintenance_moves ?_ hdraining
          cases hp : ((r.state n).threads t).phase <;> simp_all [Phase.pausing, Phase.inMaintenance]
    refine ⟨m + 1, Nat.le_succ_of_le hm.le, ?_⟩
    rw [← hm.same]
    exact pausing_step hm.stepped.moves (by rwa [hm.same]) (by rwa [hm.same])

/-- How far `enter` has come, with the gate open. -/
def enterRank : Phase Thread → Nat
  | .lookup _ => 15
  | .lockRegister _ => 14
  | .addSlot _ => 13
  | .unlockRegister _ => 12
  | .loadExit _ => 11
  | .storeExit _ _ => 10
  | .checkExit _ => 9
  | .lockIdle _ => 8
  | .notify _ => 7
  | .unlockIdle _ => 6
  | .lockRetry _ => 5
  | .unlockRetry _ => 4
  | .loadDepth _ => 3
  | .storeDepth _ _ => 2
  | .checkGate _ => 1
  | _ => 0

theorem entering_step (h : Moves t l s l' s') (hl : l.phase.entering) :
    l'.phase = .ready ∨ l'.phase.entering ∧ (s.closed = false → enterRank l'.phase < enterRank l.phase) := by
  cases h <;> (try cases ‹Exit›) <;>
    simp_all [Phase.entering, Local.at, Local.granted, Exit.after, enterRank]

theorem entering_stays (hn : ((r.state n).threads t).phase.entering) (hm : n ≤ m) :
    (∃ k, n ≤ k ∧ ((r.state k).threads t).phase = .ready) ∨ ((r.state m).threads t).phase.entering := by
  refine or_iff_not_imp_left.mpr fun hnever => r.thread_stable (P := (·.phase.entering)) hm hn fun k _ _ _ hstep hk => ?_
  exact ((entering_step (step_moves hstep) hk).resolve_left fun hready => hnever ⟨k + 1, by omega, hready⟩).1

theorem entering_moves (h : Served r) (hn : ((r.state n).threads t).phase.entering) : ∃ m, Acts r t n m := by
  by_cases hfree : ((r.state n).threads t).phase.free
  · exact h.free_moves hfree
  · refine h.moves (fun hready => by simp [hready, Phase.entering] at hn) fun m _ => ?_
    by_cases hidle : ∃ exit, ((r.state n).threads t).phase = .lockIdle exit
    · obtain ⟨exit, hphase⟩ := hidle
      obtain ⟨k, hk, hunlocked⟩ := h.idle_free m
      exact ⟨k, hk, fun _ => by simp [advance, hphase, hunlocked]⟩
    · obtain ⟨k, hk, hunlocked⟩ := h.maintenance_free m
      refine ⟨k, hk, fun _ => ?_⟩
      cases hp : ((r.state n).threads t).phase <;> simp_all [advance, Phase.entering, Phase.free]

/-- With the gate open from some instant on, every `enter` returns. -/
theorem enter_returns_of_open (h : Served r) (hn : ((r.state n).threads t).phase.entering) {N : Nat}
    (hopen : ∀ k, N ≤ k → (r.state k).shared.closed = false) : ∃ m, n ≤ m ∧ ((r.state m).threads t).phase = .ready := by
  rcases entering_stays hn (Nat.le_max_left n N) with hdone | hstart
  · exact hdone
  · obtain ⟨m, hm, hready⟩ := Schedule.Run.leads (fun n => enterRank ((r.state n).threads t).phase)
      (P := fun k => N ≤ k ∧ ((r.state k).threads t).phase.entering)
      (Q := fun k => ((r.state k).threads t).phase = .ready) (fun k ⟨hk, hentering⟩ => by
        obtain ⟨m, hm⟩ := h.entering_moves hentering
        have hle := hm.le
        refine ⟨m + 1, by omega, ?_⟩
        rw [← hm.same]
        rcases entering_step hm.stepped.moves (by rwa [hm.same]) with hready | ⟨hentering', hlt⟩
        · exact .inl hready
        · exact .inr ⟨⟨by omega, hentering'⟩, hlt (hopen m (by omega))⟩) ⟨Nat.le_max_right n N, hstart⟩
    exact ⟨m, by omega, hready⟩

theorem step_checkScope {c : Choice} (h : step t c l s = some (l', s'))
    (hphase : l'.phase = .checkScope) : c = .pause := by
  cases c with
  | pause => rfl
  | go barrierOk =>
    exfalso
    have hmoves := advance_moves h
    cases hmoves <;> (try cases ‹Exit›) <;> simp_all [Local.at, Local.granted, Exit.after, step, advance]
  | enter guard | drop guard | dropPause =>
    simp only [step, Option.ite_none_right_eq_some, Option.some.injEq, Prod.mk.injEq] at h
    simp [← h.2.1, Local.at] at hphase

theorem pauses_step (h : Moves t l s l' s') (hl : ¬l.pauses)
    (hl' : l'.pauses) : l'.phase = .checkScope := by
  cases h <;> (try cases ‹Exit›) <;> simp_all [Local.pauses, Phase.pausing, Local.at, Local.granted, Exit.after]

theorem unlockPause_step (h : Moves t l s l' s')
    (hphase : l.phase = .unlockPause) : l' = l.at .ready := by
  cases h <;> simp_all [Local.at]

theorem stops_pausing (h : Served r) (n : Nat) (t : Thread) : ∃ m, n ≤ m ∧ ¬((r.state m).threads t).pauses := by
  obtain ⟨m₁, hm₁, hout⟩ : ∃ m, n ≤ m ∧ ¬((r.state m).threads t).phase.pausing := by
    by_cases hpausing : ((r.state n).threads t).phase.pausing
    · obtain ⟨m, hm, hready⟩ := h.pause_returns hpausing
      exact ⟨m, hm, by simp [hready, Phase.pausing]⟩
    · exact ⟨n, Nat.le_refl n, hpausing⟩
  by_cases hpaused : ((r.state m₁).threads t).paused
  · obtain ⟨m₂, hm₂, hunlock, hnot⟩ := h.unpauses hpaused
    obtain ⟨m₃, hm₃⟩ := h.free_moves (n := m₂) (t := t) (by simp [hunlock, Phase.free])
    refine ⟨m₃ + 1, by have := hm₃.le; omega, ?_⟩
    rw [unlockPause_step hm₃.stepped.moves (hm₃.same ▸ hunlock), hm₃.same]
    simpa [Local.pauses, Local.at, Phase.pausing] using hnot
  · exact ⟨m₁, hm₁, by simp [Local.pauses, hout, hpaused]⟩

theorem not_pauses_stays (hnone : ∀ k, n ≤ k → r.move k ≠ some (t, .pause))
    (hn : ¬((r.state n).threads t).pauses) (hm : n ≤ m) : ¬((r.state m).threads t).pauses := by
  refine r.thread_stable (P := (¬·.pauses)) hm hn fun k hle c hmove hstep hk hpauses => ?_
  have hcall := step_checkScope hstep (pauses_step (step_moves hstep) hk hpauses)
  exact hnone k hle (hcall ▸ hmove)

/-- The threads that have moved before instant `n`. -/
def movers (r : Run Thread) (n : Nat) : List Thread := (List.range n).filterMap fun k => (r.move k).map Prod.fst

theorem mem_movers (h : r.state 0 = initial Thread) (hn : (r.state n).threads t ≠ {}) : t ∈ movers r n := by
  by_contra hmem
  have hstill : ∀ k, 0 ≤ k → k < n → ∀ c, r.move k ≠ some (t, c) := by
    intro k _ hk c hc
    exact hmem (List.mem_filterMap.mpr ⟨k, List.mem_range.mpr hk, by simp [hc]⟩)
  refine hn ?_
  rw [r.threads_eq (Nat.zero_le n) hstill, h]
  rfl

/-- Once no more pauses are started the gate stays open. -/
theorem gate_opens (h : Served r) (hnone : ∀ k, n ≤ k → ∀ t, r.move k ≠ some (t, .pause)) :
    ∃ m, n ≤ m ∧ ∀ k, m ≤ k → (r.state k).shared.closed = false := by
  obtain ⟨m, hm, hstopped⟩ := Schedule.Run.eventually_forall (P := fun t k => ¬((r.state k).threads t).pauses)
    (movers r n) n fun t _ => by
      obtain ⟨m, hm, hnot⟩ := h.stops_pausing n t
      exact ⟨m, hm, fun k => not_pauses_stays (fun j hj => hnone j (by omega) t) hnot⟩
  refine ⟨m, hm, fun k hk => ?_⟩
  by_contra hclosed
  obtain ⟨t, ht⟩ := (h.sound k).locks.closed.mp (by simpa using hclosed)
  have hpauses : ((r.state k).threads t).pauses := by
    unfold Local.ownsGate at ht
    unfold Local.pauses
    cases hphase : ((r.state k).threads t).phase <;> simp_all [Phase.inGate, Phase.pausing]
  by_cases hmoved : t ∈ movers r n
  · exact hstopped k hk t hmoved hpauses
  · have hfresh : (r.state n).threads t = {} := not_not.mp fun hne => hmoved (mem_movers h.starts hne)
    refine not_pauses_stays (fun j hj => hnone j hj t) ?_ (hm.trans hk) hpauses
    simp [hfresh, Local.pauses, Phase.pausing]

theorem enter_returns (h : Served r) {N : Nat} (hnone : ∀ k, N ≤ k → ∀ t, r.move k ≠ some (t, .pause))
    (hn : ((r.state n).threads t).phase.entering) : ∃ m, n ≤ m ∧ ((r.state m).threads t).phase = .ready := by
  obtain ⟨M, -, hopen⟩ := h.gate_opens hnone
  exact h.enter_returns_of_open hn hopen

end Served

/-- Relocation is exclusive: while a pause is alive no thread has a guard, and there is one pause at most. Nobody waits
for good: a thread that has a guard gets another one at once, every pause returns, and every reader does unless pauses
are started without end. -/
theorem reader_admission :
    (∀ w : World Thread, Reachable w →
      (∀ p, (w.threads p).paused → ∀ t, (w.threads t).held = []) ∧
      (∀ p q, (w.threads p).paused → (w.threads q).paused → p = q) ∧
      (∀ t, (w.threads t).held ≠ [] → EntersAtOnce t w)) ∧
    (∀ r : Run Thread, Served r →
      (∀ n t, ((r.state n).threads t).phase.pausing → ∃ m, n ≤ m ∧ ((r.state m).threads t).phase = .ready) ∧
      ((∃ N, ∀ k, N ≤ k → ∀ t, r.move k ≠ some (t, .pause)) →
        ∀ n t, ((r.state n).threads t).phase.entering → ∃ m, n ≤ m ∧ ((r.state m).threads t).phase = .ready)) := by
  refine ⟨fun w hw => ?_, fun r h => ⟨fun n t => h.pause_returns, fun ⟨N, hnone⟩ n t => h.enter_returns hnone⟩⟩
  have hsound := sound_of_reachable hw
  exact ⟨fun p => hsound.held_eq_nil, fun p q => hsound.paused_unique, fun t => hsound.entersAtOnce⟩

/-! ### Runs that end in a loop -/

instance [Fintype Thread] : DecidableEq (Shared Thread) := fun s s' =>
  decidable_of_iff (s.depth = s'.depth ∧ s.slots = s'.slots ∧ s.closed = s'.closed ∧ s.maintenance = s'.maintenance ∧
      s.idle = s'.idle ∧ s.waiters = s'.waiters)
    ⟨fun h => by cases s; cases s'; simp_all, fun h => by simp [h]⟩

def worldAfter (moves : List (Thread × Choice)) (i : Nat) : World Thread :=
  ((system Thread).follow (initial Thread) (moves.take i)).getD (initial Thread)

/-- The moves can all be made, and end where they were after the first `stem` of them. -/
def Loops (moves : List (Thread × Choice)) (stem : Nat) (default : Thread × Choice) : Prop :=
  stem < moves.length ∧ ∀ i < moves.length,
    (system Thread).move (moves.getD i default).1 (moves.getD i default).2 (worldAfter moves i) =
      some (worldAfter moves (if i + 1 < moves.length then i + 1 else stem))

instance [Fintype Thread] (moves : List (Thread × Choice)) (stem : Nat) (default : Thread × Choice) :
    Decidable (Loops moves stem default) :=
  inferInstanceAs (Decidable (_ ∧ _))

def loopRun {moves : List (Thread × Choice)} {stem : Nat} {default : Thread × Choice} (h : Loops moves stem default) :
    Run Thread :=
  .lasso stem moves.length h.1 (worldAfter moves) (fun i => moves.getD i default) h.2

/-- Calls `enter`, `pause` or `drop` of a thread and lets it go on alone for some steps. -/
def call (t : Thread) (c : Choice) (steps : Nat) : List (Thread × Choice) := (t, c) :: List.replicate steps (t, .go true)

/-- A pause meets a reader and waits for it. The reader leaves and comes back to a closed gate, withdraws and waits for
the pause, which is then dropped. -/
def contended : List (Bool × Choice) :=
  call false (.enter 0) 7 ++ call true .pause 7 ++ call false (.drop 0) 6 ++ call false (.enter 1) 10 ++
    List.replicate 4 (true, .go true) ++ call true .dropPause 2 ++ List.replicate 5 (false, .go true) ++
    call false (.drop 1) 3

theorem contended_follows : ((system Bool).follow (initial Bool) contended).isSome := by
  decide +kernel

def contendedRun : Run Bool := .replay (system Bool) (initial Bool) contended contended_follows

theorem contendedRun_served : Served contendedRun := by
  have hrest : ∀ t, ((((system Bool).follow (initial Bool) contended).getD (initial Bool)).threads t) = {} := by
    decide +kernel
  have hlast (n : Nat) (t : Bool) : ∃ m, n ≤ m ∧ (contendedRun.state m).threads t = {} :=
    ⟨max n contended.length, Nat.le_max_left _ _, by
      rw [contendedRun, Schedule.Run.state_replay _ (Nat.le_max_right _ _), hrest]⟩
  refine ⟨rfl, Schedule.Run.stronglyFair_replay _ fun t => ?_, fun n t => ?_, fun n t _ => ?_⟩
  · rw [hrest]
    exact fun hbusy => hbusy rfl
  · obtain ⟨m, hm, heq⟩ := hlast n t
    exact ⟨m, hm, by rw [heq]⟩
  · obtain ⟨m, hm, heq⟩ := hlast n t
    exact ⟨m, hm, by rw [heq]; decide⟩

/-- The pause that waits for the reader returns, and so does the reader that waits for the pause. -/
theorem reader_admission_contended :
    ((contendedRun.state 16).threads true).phase = .waiting ∧
    (∃ m, 16 ≤ m ∧ ((contendedRun.state m).threads true).phase = .ready) ∧
    ((contendedRun.state 34).threads false).phase = .lockRetry 1 ∧
    ∃ m, 34 ≤ m ∧ ((contendedRun.state m).threads false).phase = .ready := by
  obtain ⟨hpause, henter⟩ := reader_admission.2 contendedRun contendedRun_served
  have hnone : ∀ k, contended.length ≤ k → ∀ t, contendedRun.move k ≠ some (t, .pause) := by
    intro k hk t hmove
    rw [show contendedRun.move k = contended[k]? from rfl, List.getElem?_eq_none hk] at hmove
    cases hmove
  exact ⟨by decide +kernel, hpause 16 true (by decide +kernel), by decide +kernel,
    henter ⟨_, hnone⟩ 34 false (by decide +kernel)⟩

/-- A thread takes guards hand over hand while another one pauses. -/
def handOverHand : List (Bool × Choice) :=
  call false (.enter 0) 7 ++ call true .pause 7 ++
    (call false (.enter 1) 3 ++ call false (.drop 0) 2 ++ call false (.enter 0) 3 ++ call false (.drop 1) 2)

theorem handOverHand_loops : Loops handOverHand 16 (false, .pause) := by
  decide +kernel

def handOverHandRun : Run Bool := loopRun handOverHand_loops

theorem not_enabled_of_waiting {t : Thread} {w : World Thread} (hphase : (w.threads t).phase = .waiting)
    (hwaits : t ∈ w.shared.waiters) : ¬(system Thread).Enabled t w := by
  rintro ⟨-, c, hstep⟩
  cases c <;> simp [system, step, advance, hphase, hwaits] at hstep

/-- Although each guard is dropped, a pause waits forever for a thread that takes the next guard first. -/
theorem overlapping_guards_starve_pause :
    ∃ r : Run Bool, r.state 0 = initial Bool ∧ r.StronglyFair ∧
      (∀ n t guard, guard ∈ ((r.state n).threads t).held → ∃ m, n ≤ m ∧ guard ∉ ((r.state m).threads t).held) ∧
      (∀ n t, r.move n = some (t, .pause) → ((r.state n).threads t).held = []) ∧
      ∃ n t, ((r.state n).threads t).phase.pausing ∧ ∀ m, n ≤ m → ((r.state m).threads t).phase ≠ .ready := by
  have hloop : ∀ i < 30, 16 ≤ i → ((worldAfter handOverHand i).threads true).phase = .waiting ∧
      true ∈ (worldAfter handOverHand i).shared.waiters := by decide +kernel
  refine ⟨handOverHandRun, by decide +kernel, fun t henabled n => ?_, fun n t guard _ => ?_, fun n t hmove => ?_,
    16, true, by decide +kernel, fun m hm => ?_⟩
  · cases t with
    | true =>
      obtain ⟨m, hm, henabled⟩ := henabled 16
      obtain ⟨i, hlt, hstem, hstate, -⟩ := Schedule.Run.lasso_position handOverHand_loops.1 handOverHand_loops.2 m
      obtain ⟨hphase, hwaits⟩ := hloop i hlt (hstem hm)
      rw [handOverHandRun, loopRun, hstate] at henabled
      exact absurd henabled (not_enabled_of_waiting hphase hwaits)
    | false =>
      obtain ⟨m, hm, -, hmove⟩ := Schedule.Run.lasso_recurs handOverHand_loops.1 handOverHand_loops.2 16 (by decide) (by decide) n
      exact ⟨m, hm, .enter 1, hmove⟩
  · -- after its drop the other guard is held
    by_cases hguard : guard = 0
    · obtain ⟨m, hm, hstate, -⟩ := Schedule.Run.lasso_recurs handOverHand_loops.1 handOverHand_loops.2 23 (by decide) (by decide) n
      have hheld : 0 ∉ ((worldAfter handOverHand 23).threads t).held := by cases t <;> decide +kernel
      exact ⟨m, hm, by rw [handOverHandRun, loopRun, hstate, hguard]; exact hheld⟩
    · obtain ⟨m, hm, hstate, -⟩ := Schedule.Run.lasso_recurs handOverHand_loops.1 handOverHand_loops.2 16 (by decide) (by decide) n
      have hheld : ∀ g ∈ ((worldAfter handOverHand 16).threads t).held, g = 0 := by cases t <;> decide +kernel
      exact ⟨m, hm, by rw [handOverHandRun, loopRun, hstate]; exact fun hmem => hguard (hheld guard hmem)⟩
  · have hpause : ∀ i < 30, handOverHand.getD i (false, .pause) = (t, .pause) →
        ((worldAfter handOverHand i).threads t).held = [] := by cases t <;> decide +kernel
    obtain ⟨i, hlt, -, hstate, hmove'⟩ := Schedule.Run.lasso_position handOverHand_loops.1 handOverHand_loops.2 n
    rw [handOverHandRun, loopRun, hmove'] at hmove
    rw [handOverHandRun, loopRun, hstate]
    exact hpause i hlt (Option.some.inj hmove)
  · obtain ⟨i, hlt, hstem, hstate, -⟩ := Schedule.Run.lasso_position handOverHand_loops.1 handOverHand_loops.2 m
    rw [handOverHandRun, loopRun, hstate, (hloop i hlt (hstem hm)).1]
    simp

end Readers

end MagicEngine
