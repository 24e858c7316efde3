import Mathlib.Data.List.Count
import Mathlib.Logic.Function.Basic

/-!
# Cooperative shutdown

The shutdown manager (`nucleus/src/shutdown.rs`) cancels the services of a node tier by tier and waits for the reports
of each tier, up to a timeout, before it goes on. Services may report at any time, so what the manager sees while it
terminates is an arbitrary list of reports and timeouts.
-/

namespace MagicEngine.Shutdown

inductive ShutdownTier where
  | one | two | three | four
deriving DecidableEq, Repr

def ShutdownTier.order : List ShutdownTier := [one, two, three, four]

inductive Service where
  | chainSyncWorker | chainSyncWebSocket | chainSyncGrpc (index : Nat) | rpc | metrics | onchainSetup | taskScheduler
  | intentExecution | undelegationRequests | feeClaim | ledgerAppender | ledgerIndexer | ledgerReader | ledgerReplayer
  | sequencer | transactionExecutor (index : Nat) | transactionSimulator | subscriptionsCleanup | paceMaker
  | replicationDispatcher | replicationClient
deriving DecidableEq, Repr

def Service.tier : Service → ShutdownTier
  | rpc | chainSyncWorker | chainSyncWebSocket | chainSyncGrpc _ | onchainSetup | taskScheduler | intentExecution
  | undelegationRequests | feeClaim | replicationClient => .one
  | paceMaker => .two
  | sequencer | ledgerAppender | ledgerIndexer => .three
  | _ => .four

inductive ShutdownReason where
  | unexpected | signalled | error (description : String) | restartRequired
deriving DecidableEq, Repr

namespace ShutdownReason

def exitCode : ShutdownReason → Nat
  | signalled => 0
  | restartRequired => 1
  | unexpected => 2
  | error _ => 3

def combine (self next : ShutdownReason) : ShutdownReason := if self.exitCode < next.exitCode then next else self

theorem exitCode_combine {self next : ShutdownReason} :
    (self.combine next).exitCode = 3 ↔ self.exitCode = 3 ∨ next.exitCode = 3 := by
  cases self <;> cases next <;> simp [combine, exitCode]

end ShutdownReason

/-- What the manager waits for: a service that terminates or drops its handle, or the end of the tier's time. -/
inductive Arrival where
  | report (service : Service) (reason : ShutdownReason)
  | timeout

/-- The manager. Recorded are the tiers it has cancelled, each with the services that had not reported by then, and
those that timed out. -/
structure ShutdownManager where
  handles : List Service := []
  pending : ShutdownTier → Int := fun _ => 0
  outcome : ShutdownReason := .signalled
  cancelled : List (ShutdownTier × List Service) := []
  timedOut : List ShutdownTier := []

namespace ShutdownManager

def addPending (m : ShutdownManager) (tier : ShutdownTier) (op : Int) : ShutdownManager :=
  { m with pending := Function.update m.pending tier (m.pending tier + op) }

def handle (m : ShutdownManager) (service : Service) : ShutdownManager :=
  { m.addPending service.tier 1 with handles := service :: m.handles }

/-- A report is taken from the handles. -/
def report (m : ShutdownManager) (service : Service) (reason : ShutdownReason) : ShutdownManager :=
  if service ∈ m.handles then
    { m.addPending service.tier (-1) with handles := m.handles.erase service, outcome := m.outcome.combine reason }
  else m

def cancel (m : ShutdownManager) (tier : ShutdownTier) : ShutdownManager :=
  { m with cancelled := m.cancelled ++ [(tier, m.handles)] }

/-- `wait` ends with a signal or with the first report, whose reason is no part of the outcome of `terminate`. -/
def wait (m : ShutdownManager) : Option (Service × ShutdownReason) → ShutdownManager
  | some (service, reason) => { m.report service reason with outcome := m.outcome }
  | none => m

/-- `drain` under its timeout; it does not return while reports are missing. -/
def drain (tier : ShutdownTier) : List Arrival → ShutdownManager → Option (ShutdownManager × List Arrival)
  | arrivals, m =>
    if m.pending tier = 0 ∨ m.handles = [] then some (m, arrivals)
    else
      match arrivals with
      | [] => none
      | .timeout :: rest =>
        let outcome := m.outcome.combine (.error "timed out")
        some ({ m with outcome, timedOut := tier :: m.timedOut }, rest)
      | .report service reason :: rest => drain tier rest (m.report service reason)

def terminate : List ShutdownTier → List Arrival → ShutdownManager → Option ShutdownManager
  | [], _, m => some m
  | tier :: tiers, arrivals, m =>
    match (m.cancel tier).drain tier arrivals with
    | none => none
    | some (m, arrivals) => terminate tiers arrivals m

/-- The life of a node's manager: services are registered, it waits, and it terminates them. -/
def run (services : List Service) (early : Option (Service × ShutdownReason)) (arrivals : List Arrival) :
    Option ShutdownManager :=
  terminate ShutdownTier.order arrivals ((services.foldl handle {}).wait early)

/-! ### Counts and order -/

/-- The counts are exact, and a timeout shows in the outcome. -/
structure Counted (m : ShutdownManager) : Prop where
  pending : ∀ tier, m.pending tier = (m.handles.countP (·.tier = tier) : Nat)
  timedOut : m.timedOut ≠ [] → m.outcome.exitCode = 3

variable {m m' : ShutdownManager} {tier : ShutdownTier} {arrivals : List Arrival}

theorem Counted.handle (h : m.Counted) (service : Service) : (m.handle service).Counted where
  pending tier := by
    by_cases htier : tier = service.tier <;>
      simp [ShutdownManager.handle, addPending, h.pending, htier, Ne.symm]
  timedOut := h.timedOut

theorem Counted.report (h : m.Counted) (service : Service) (reason : ShutdownReason) :
    (m.report service reason).Counted := by
  unfold ShutdownManager.report
  split
  · next hservice =>
    refine ⟨fun tier => ?_, fun hout => ShutdownReason.exitCode_combine.mpr (.inl (h.timedOut hout))⟩
    by_cases htier : tier = service.tier
    · subst htier
      have hpos : 0 < m.handles.countP (·.tier = service.tier) := List.countP_pos_iff.mpr ⟨service, hservice, by simp⟩
      simp [addPending, h.pending, List.countP_erase, hservice]
      omega
    · simp [addPending, h.pending, List.countP_erase, htier, Ne.symm htier]
  · exact h

/-- A report changes no record. -/
theorem report_frame (m : ShutdownManager) (service : Service) (reason : ShutdownReason) :
    (m.report service reason).handles ⊆ m.handles ∧ (m.report service reason).timedOut = m.timedOut ∧
      (m.report service reason).cancelled = m.cancelled := by
  unfold ShutdownManager.report
  split
  · exact ⟨List.erase_subset, rfl, rfl⟩
  · exact ⟨fun _ => id, rfl, rfl⟩

/-- No service of the tier is left, or it timed out. -/
def Passed (m : ShutdownManager) (tier : ShutdownTier) : Prop :=
  tier ∈ m.timedOut ∨ ∀ service ∈ m.handles, service.tier ≠ tier

theorem Passed.mono (h : m.Passed tier) (hhandles : m'.handles ⊆ m.handles) (htimedOut : m.timedOut ⊆ m'.timedOut) :
    m'.Passed tier := h.imp (@htimedOut _) fun h _ hs => h _ (hhandles hs)

def timeouts : List Arrival → Nat
  | [] => 0
  | .report _ _ :: rest => timeouts rest
  | .timeout :: rest => timeouts rest + 1

/-- What `drain` leaves: a tier is passed when its reports are in, or with the next timeout. -/
def Drained (m : ShutdownManager) (tier : ShutdownTier) (arrivals : List Arrival) :
    Option (ShutdownManager × List Arrival) → Prop
  | none => timeouts arrivals = 0
  | some (m', rest) => timeouts arrivals ≤ timeouts rest + 1 ∧ m'.Counted ∧
      m'.handles ⊆ m.handles ∧ m.timedOut ⊆ m'.timedOut ∧ m'.cancelled = m.cancelled ∧ m'.Passed tier

theorem drained_drain (hm : m.Counted) : m.Drained tier arrivals (m.drain tier arrivals) := by
  fun_induction ShutdownManager.drain tier arrivals m with
  | case1 arrivals m hdone =>
    refine ⟨Nat.le_succ _, hm, fun _ => id, fun _ => id, rfl, .inr fun service hservice htier => ?_⟩
    rcases hdone with hzero | hnil
    · rw [hm.pending, Int.natCast_eq_zero, List.countP_eq_zero] at hzero
      exact hzero service hservice (by simpa using htier)
    · simp [hnil] at hservice
  | case2 => rfl
  | case3 m _ rest outcome =>
    exact ⟨Nat.le_refl _, ⟨hm.pending, fun _ => ShutdownReason.exitCode_combine.mpr (.inr rfl)⟩, fun _ => id,
      List.subset_cons_self .., rfl, .inl List.mem_cons_self⟩
  | case4 m _ service reason rest ih =>
    obtain ⟨hhandles, htimedOut, hcancelled⟩ := m.report_frame service reason
    specialize ih (hm.report service reason)
    revert ih
    cases ShutdownManager.drain tier rest _ with
    | none => exact id
    | some result =>
      exact fun ⟨hcount, hcounted, hsubset, hout, hsame, hpassed⟩ =>
        ⟨hcount, hcounted, List.Subset.trans hsubset hhandles, htimedOut ▸ hout, hsame.trans hcancelled, hpassed⟩

/-- The services left when a tier is cancelled are of no tier before, unless that one timed out. -/
structure Ordered (m : ShutdownManager) : Prop where
  counted : m.Counted
  pairwise : m.cancelled.Pairwise fun u v => u.1 ∈ m.timedOut ∨ ∀ service ∈ v.2, service.tier ≠ u.1
  passed : ∀ u ∈ m.cancelled, m.Passed u.1

theorem Ordered.drain {rest : List Arrival} (h : m.Ordered) (hdrained : (m.cancel tier).Drained tier arrivals (m', rest)) :
    m'.Ordered := by
  obtain ⟨-, hcounted, hhandles, htimedOut, hcancelled, hpassed⟩ := hdrained
  have hold : ∀ u ∈ m.cancelled, m'.Passed u.1 := fun u hu => (h.passed u hu).mono hhandles htimedOut
  refine ⟨hcounted, ?_, ?_⟩ <;> rw [hcancelled]
  · refine List.pairwise_append.mpr ⟨h.pairwise.imp (.imp_left (@htimedOut _)), List.pairwise_singleton .., ?_⟩
    simp only [List.mem_singleton, forall_eq]
    exact fun u hu => (h.passed u hu).imp_left (@htimedOut _)
  · simpa [cancel, or_imp, forall_and] using ⟨fun t left hu => hold (t, left) hu, hpassed⟩

theorem terminate_spec {tiers : List ShutdownTier} (h : m.Ordered) :
    match m.terminate tiers arrivals with
    | none => timeouts arrivals < tiers.length
    | some m' => m'.Ordered ∧ m'.cancelled.map Prod.fst = m.cancelled.map Prod.fst ++ tiers := by
  induction tiers generalizing m arrivals with
  | nil => exact ⟨h, (List.append_nil _).symm⟩
  | cons tier tiers ih =>
    have hdrained : (m.cancel tier).Drained tier arrivals _ := drained_drain { h.counted with }
    unfold ShutdownManager.terminate
    cases hdrain : (m.cancel tier).drain tier arrivals with
    | none =>
      rw [hdrain] at hdrained
      exact hdrained.symm ▸ Nat.succ_pos _
    | some result =>
      obtain ⟨m₁, rest⟩ := result
      rw [hdrain] at hdrained
      have hterminate := @ih _ rest (h.drain hdrained)
      dsimp only
      split at hterminate
      · exact Nat.lt_of_le_of_lt hdrained.1 (Nat.succ_lt_succ hterminate)
      · refine ⟨hterminate.1, hterminate.2.trans ?_⟩
        rw [hdrained.2.2.2.2.1]
        simp [cancel]

theorem ordered_start (services : List Service) (early : Option (Service × ShutdownReason)) :
    ((services.foldl ShutdownManager.handle {}).wait early).Ordered ∧
      ((services.foldl ShutdownManager.handle {}).wait early).cancelled = [] := by
  have hregistered : ∀ m : ShutdownManager, m.Counted → m.cancelled = [] →
      (services.foldl ShutdownManager.handle m).Counted ∧ (services.foldl ShutdownManager.handle m).cancelled = [] := by
    induction services with
    | nil => exact fun m => .intro
    | cons service services ih => exact fun m hm hnil => ih _ (hm.handle service) hnil
  obtain ⟨hcounted, hnil⟩ := hregistered {} ⟨fun _ => rfl, (absurd rfl ·)⟩ rfl
  generalize services.foldl ShutdownManager.handle {} = m at hcounted hnil
  have hwaited : (m.wait early).Counted ∧ (m.wait early).cancelled = [] := by
    match early with
    | none => exact ⟨hcounted, hnil⟩
    | some (service, reason) =>
      obtain ⟨-, htimedOut, hcancelled⟩ := m.report_frame service reason
      exact ⟨⟨(hcounted.report service reason).pending, fun hout => hcounted.timedOut (htimedOut ▸ hout)⟩,
        hcancelled.trans hnil⟩
  exact ⟨⟨hwaited.1, hwaited.2 ▸ .nil, by simp [hwaited.2]⟩, hwaited.2⟩

/-- Whatever the services report and whenever: the tiers are cancelled in order, each when all services of the tiers
before it have reported, unless one of those timed out, which ends the node with an error code. With a smaller code
every service has reported. Four timeouts end any shutdown. -/
theorem shutdown_in_tiers (services : List Service) (early : Option (Service × ShutdownReason)) (arrivals : List Arrival) :
    match run services early arrivals with
    | none => timeouts arrivals < 4
    | some m => m.cancelled.map Prod.fst = ShutdownTier.order ∧
        (m.cancelled.Pairwise fun u v => u.1 ∈ m.timedOut ∨ ∀ service ∈ v.2, service.tier ≠ u.1) ∧
        (m.timedOut ≠ [] → m.outcome.exitCode = 3) ∧ (m.outcome.exitCode < 3 → m.handles = []) := by
  obtain ⟨hstart, hnil⟩ := ordered_start services early
  have hspec := @terminate_spec _ arrivals ShutdownTier.order hstart
  rw [hnil] at hspec
  unfold run
  split at hspec
  · exact hspec
  · next m _ =>
    obtain ⟨hordered, htiers⟩ := hspec
    refine ⟨htiers, hordered.pairwise, hordered.counted.timedOut, fun hcode => List.eq_nil_iff_forall_not_mem.mpr ?_⟩
    intro service hservice
    have htier : service.tier ∈ m.cancelled.map Prod.fst := htiers ▸ by cases service.tier <;> decide
    obtain ⟨u, hu, hut⟩ := List.mem_map.mp htier
    rcases hordered.passed u hu with htimedOut | hreported
    · exact Nat.ne_of_lt hcode (hordered.counted.timedOut (List.ne_nil_of_mem htimedOut))
    · exact hreported service hservice hut.symm

end ShutdownManager

end MagicEngine.Shutdown
