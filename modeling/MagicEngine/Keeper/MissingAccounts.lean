import Mathlib.Algebra.BigOperators.Group.Finset.Basic
import Mathlib.Algebra.Order.BigOperators.Group.Finset
import Mathlib.Data.List.Destutter
import Mathlib.Data.List.Sort
import Mathlib.Data.Set.Finite.Range
import Mathlib.Order.Preorder.Finite
import MagicEngine.Keeper.Leases
import MagicEngine.Lib.Transition
import MagicEngine.Store.AccountsDb

/-!
# Locking missing accounts

`Engine::missing_accounts` (`engine/src/lib.rs`) scans the requested keys, locks those it did not find in the order of
pubkeys, and keeps the leases of the accounts that are still absent. A call waits for a lease while it holds others, all
of smaller keys. So a call that waits for the greatest key anybody waits for is not blocked by a call that waits
(`exists_move`), and since a waiter claims again only when a notifier was completed, and there are no more notifiers
than keys, calls come to an end (`measure_lt`).

What a lookup finds is free; a lookup can fail, and then what the call holds is dropped. The caller drops the returned
accessors in any order.
-/

namespace MagicEngine.MissingAccounts

open Leases (AccountLease Phase Shared Inv)

inductive Stage where
  | scanning (pubkeys missing : List Pubkey)
  | acquiring (missing : List Pubkey)
  /-- Inside `lock`. -/
  | locking (missing : List Pubkey)
  /-- The lease was acquired; the presence of the account is checked next. -/
  | holding (missing : List Pubkey) (lease : AccountLease)
  /-- The call returned; its accessors are dropped. -/
  | dropping
deriving DecidableEq, Repr

structure Call where
  stage : Stage
  phase : Phase := .idle
  accessors : List AccountLease := []
  /-- The keys of the returned accessors. -/
  result : Option (List Pubkey) := none
deriving DecidableEq, Repr

inductive Choice where
  | go
  | found (present : Bool)
  | fail
  | drop (lease : AccountLease)
deriving DecidableEq, Repr

/-- `sort_unstable` and `dedup`. -/
def sortDedup (missing : List Pubkey) : List Pubkey := (missing.insertionSort (· ≤ ·)).destutter (· ≠ ·)

def Call.release (l : Call) (stage : Stage) (accessors : List AccountLease) (lease : AccountLease) (s : Shared) :
    Option (Call × Shared) :=
  (Leases.step (.drop lease) .idle s).map fun (phase, s) => ({ l with stage, phase, accessors }, s)

def step (c : Choice) (l : Call) (s : Shared) : Option (Call × Shared) :=
  match l.phase, l.stage, c with
  | .idle, .scanning (pubkey :: pubkeys) missing, .found present =>
    some ({ l with stage := .scanning pubkeys (if present then missing else missing ++ [pubkey]) }, s)
  | .idle, .scanning (_ :: _) _, .fail => some ({ l with stage := .dropping }, s)
  | .idle, .scanning [] missing, .go => some ({ l with stage := .acquiring (sortDedup missing) }, s)
  | .idle, .acquiring [], .go =>
    some ({ l with stage := .dropping, result := some (l.accessors.map (·.pubkey)) }, s)
  | .idle, .acquiring (pubkey :: missing), .go =>
    some ({ l with stage := .locking missing, phase := .claiming pubkey }, s)
  | .claiming pubkey, .locking missing, .go =>
    match s.claim pubkey with
    | (.acquired lease, s) => some ({ l with stage := .holding missing lease, phase := .idle }, s)
    | (.busy wait, s) => some ({ l with phase := .waiting pubkey wait }, s)
  | .idle, .holding missing lease, .found true => l.release (.acquiring missing) l.accessors lease s
  | .idle, .holding missing lease, .found false =>
    some ({ l with stage := .acquiring missing, accessors := l.accessors ++ [lease] }, s)
  | .idle, .holding _ lease, .fail => l.release .dropping l.accessors lease s
  | .idle, .dropping, .drop lease =>
    if lease ∈ l.accessors then l.release .dropping (l.accessors.erase lease) lease s else none
  | phase, _, .go => (Leases.step .go phase s).map fun (phase, s) => ({ l with phase }, s)
  | _, _, _ => none

def Call.Finished (l : Call) : Prop := l.stage = .dropping ∧ l.phase = .idle ∧ l.accessors = []

/-- Calls of `missing_accounts`, each with the task that makes it. -/
def system (Task : Type) : Schedule.System Task Call Shared Choice where
  step _ := step
  busy l := ¬l.Finished

abbrev World (Task : Type) := Schedule.World Task Call Shared

def initial {Task : Type} (requested : Task → List Pubkey) : World Task :=
  ⟨fun t => { stage := .scanning (requested t) [] }, {}⟩

inductive Reachable {Task : Type} [DecidableEq Task] (requested : Task → List Pubkey) : World Task → Prop where
  | initial : Reachable requested (initial requested)
  | move {w w' : World Task} (h : Reachable requested w) (t : Task) (c : Choice)
      (hmove : (system Task).move t c w = some w') : Reachable requested w'

/-! ### What a step does -/

inductive Step (s : Shared) : Call → Call → Shared → Prop where
  | scan (l : Call) (pubkey : Pubkey) (pubkeys missing : List Pubkey) (present : Bool) (hphase : l.phase = .idle)
      (hstage : l.stage = .scanning (pubkey :: pubkeys) missing) :
      Step s l { l with stage := .scanning pubkeys (if present then missing else missing ++ [pubkey]) } s
  | scanFail (l : Call) (pubkey : Pubkey) (pubkeys missing : List Pubkey) (hphase : l.phase = .idle)
      (hstage : l.stage = .scanning (pubkey :: pubkeys) missing) : Step s l { l with stage := .dropping } s
  | scanned (l : Call) (missing : List Pubkey) (hphase : l.phase = .idle) (hstage : l.stage = .scanning [] missing) :
      Step s l { l with stage := .acquiring (sortDedup missing) } s
  | returned (l : Call) (hphase : l.phase = .idle) (hstage : l.stage = .acquiring []) :
      Step s l { l with stage := .dropping, result := some (l.accessors.map (·.pubkey)) } s
  | lock (l : Call) (pubkey : Pubkey) (missing : List Pubkey) (hphase : l.phase = .idle)
      (hstage : l.stage = .acquiring (pubkey :: missing)) :
      Step s l { l with stage := .locking missing, phase := .claiming pubkey } s
  | acquire (l : Call) (pubkey : Pubkey) (missing : List Pubkey) (hphase : l.phase = .claiming pubkey)
      (hstage : l.stage = .locking missing) (hfree : s.reservations pubkey = none) :
      Step s l { l with stage := .holding missing ⟨pubkey, s.next⟩, phase := .idle } (s.claim pubkey).2
  | present (l : Call) (missing : List Pubkey) (lease : AccountLease) (hphase : l.phase = .idle)
      (hstage : l.stage = .holding missing lease) (hl : lease ∈ s.leases) :
      Step s l { l with stage := .acquiring missing, phase := .releasing lease.released } (s.remove lease)
  | absent (l : Call) (missing : List Pubkey) (lease : AccountLease) (hphase : l.phase = .idle)
      (hstage : l.stage = .holding missing lease) :
      Step s l { l with stage := .acquiring missing, accessors := l.accessors ++ [lease] } s
  | holdFail (l : Call) (missing : List Pubkey) (lease : AccountLease) (hphase : l.phase = .idle)
      (hstage : l.stage = .holding missing lease) (hl : lease ∈ s.leases) :
      Step s l { l with stage := .dropping, phase := .releasing lease.released } (s.remove lease)
  | drop (l : Call) (lease : AccountLease) (hphase : l.phase = .idle) (hstage : l.stage = .dropping)
      (hmem : lease ∈ l.accessors) (hl : lease ∈ s.leases) :
      Step s l { l with phase := .releasing lease.released, accessors := l.accessors.erase lease } (s.remove lease)
  /-- A step inside `lock`, or of dropping a lease, that does not end `lock`. -/
  | inner (l : Call) (phase : Phase) (s' : Shared) (hbusy : l.phase ≠ .idle)
      (hgoes : ∀ pubkey missing, l.phase = .claiming pubkey → l.stage = .locking missing →
        s.reservations pubkey ≠ none)
      (hstep : Leases.Step s l.phase phase s') : Step s l { l with phase } s'

variable {l l' : Call} {s s' : Shared} {requested : List Pubkey}

private theorem release_cases {stage : Stage} {accessors : List AccountLease} {lease : AccountLease}
    (h : l.release stage accessors lease s = some (l', s')) : lease ∈ s.leases ∧
      l' = { l with stage, phase := .releasing lease.released, accessors } ∧ s' = s.remove lease := by
  simp only [Call.release, Leases.step] at h
  split at h
  · next hl =>
    cases h
    exact ⟨hl, rfl, rfl⟩
  · cases h

theorem step_cases {c : Choice} (h : step c l s = some (l', s')) : Step s l l' s' := by
  unfold step at h
  split at h
  · next hphase hstage =>
    cases h
    exact .scan l _ _ _ _ hphase hstage
  · next hphase hstage =>
    cases h
    exact .scanFail l _ _ _ hphase hstage
  · next hphase hstage =>
    cases h
    exact .scanned l _ hphase hstage
  · next hphase hstage =>
    cases h
    exact .returned l hphase hstage
  · next hphase hstage =>
    cases h
    exact .lock l _ _ hphase hstage
  · next pubkey missing hphase hstage =>
    cases hkey : s.reservations pubkey with
    | none =>
      have hclaim : l' = { l with stage := .holding missing ⟨pubkey, s.next⟩, phase := .idle } ∧
          s' = (s.claim pubkey).2 := by
        simp only [Shared.claim, hkey] at h ⊢
        cases h
        exact ⟨rfl, rfl⟩
      obtain ⟨rfl, rfl⟩ := hclaim
      exact .acquire l pubkey missing hphase hstage hkey
    | some wait =>
      simp only [Shared.claim, hkey] at h
      cases h
      refine .inner l _ s (by simp [hphase]) (fun key missing' hphase' _ => ?_) ?_
      · cases hphase.symm.trans hphase'
        simp [hkey]
      · rw [hphase]
        exact .busy pubkey wait hkey
  · next hphase hstage =>
    obtain ⟨hl, rfl, rfl⟩ := release_cases h
    exact .present l _ _ hphase hstage hl
  · next hphase hstage =>
    cases h
    exact .absent l _ _ hphase hstage
  · next hphase hstage =>
    obtain ⟨hl, rfl, rfl⟩ := release_cases h
    exact .holdFail l _ _ hphase hstage hl
  · next hphase hstage =>
    split at h
    · next hmem =>
      obtain ⟨hl, rfl, rfl⟩ := release_cases h
      have := Step.drop (s := s) l _ hphase hstage hmem hl
      rwa [← hstage]
    · cases h
  · next hnot =>
    obtain ⟨⟨phase, s''⟩, hstep, heq⟩ := Option.map_eq_some_iff.mp h
    cases heq
    refine .inner l phase s' (fun hidle => ?_) (fun pubkey missing hphase hstage => ?_) (Leases.step_cases hstep)
    · rw [hidle] at hstep
      cases hstep
    · exact (hnot pubkey missing hphase hstage).elim
  · cases h

/-! ### The invariant -/

variable {Task : Type}

def Call.held (l : Call) : List AccountLease :=
  match l.stage with
  | .holding _ lease => l.accessors ++ [lease]
  | _ => l.accessors

def leases (w : World Task) : Leases.World Task := ⟨fun t => (w.threads t).phase, w.shared⟩

def Outside (p : Phase) : Prop := p = .idle ∨ ∃ n, p.owes = some n

def Wants (p : Phase) (pubkey : Pubkey) : Prop := p = .claiming pubkey ∨ ∃ n, p.awaits = some (pubkey, n)

def Sorted (requested keys : List Pubkey) : Prop := keys.Pairwise (· < ·) ∧ keys ⊆ requested

/-- The keys a call holds, wants and has still to lock are in ascending order. -/
def Call.Ascending (requested : List Pubkey) (l : Call) : Prop :=
  (∀ keys, l.result = some keys → Sorted requested keys) ∧
  match l.stage with
  | .scanning pubkeys missing => l.phase = .idle ∧ l.accessors = [] ∧ pubkeys ⊆ requested ∧ missing ⊆ requested
  | .acquiring missing => Outside l.phase ∧ Sorted requested (l.accessors.map (·.pubkey) ++ missing)
  | .locking missing => ∃ pubkey, Wants l.phase pubkey ∧
      Sorted requested (l.accessors.map (·.pubkey) ++ pubkey :: missing)
  | .holding missing lease => l.phase = .idle ∧
      Sorted requested (l.accessors.map (·.pubkey) ++ lease.pubkey :: missing)
  | .dropping => Outside l.phase

theorem Sorted.sublist {requested keys keys' : List Pubkey} (h : Sorted requested keys) (hsub : keys'.Sublist keys) :
    Sorted requested keys' :=
  ⟨h.1.sublist hsub, fun _ hkey => h.2 (hsub.subset hkey)⟩

theorem sorted_sortDedup {requested missing : List Pubkey} (h : missing ⊆ requested) :
    Sorted requested (sortDedup missing) := by
  have hsub : (sortDedup missing).Sublist (missing.insertionSort (· ≤ ·)) := List.destutter_sublist _ _
  have hle : (sortDedup missing).Pairwise (· ≤ ·) := (List.pairwise_insertionSort _ _).sublist hsub
  have hchain : (sortDedup missing).IsChain (· ≠ ·) := List.isChain_destutter _ _
  refine ⟨?_, fun key hkey => h ((List.mem_insertionSort _).mp (hsub.subset hkey))⟩
  -- in a list in order, neighbours that differ ascend
  rw [← List.isChain_iff_pairwise] at hle ⊢
  rw [List.isChain_iff_getElem] at hle hchain ⊢
  exact fun i hi => lt_of_le_of_ne (hle i hi) (hchain i hi)

theorem length_sortDedup_le (missing : List Pubkey) : (sortDedup missing).length ≤ missing.length :=
  (List.destutter_sublist _ _).length_le.trans (List.length_insertionSort ..).le

private theorem wants_step {p p' : Phase} {pubkey : Pubkey} (h : Wants p pubkey)
    (hkept : p = .claiming pubkey → s.reservations pubkey ≠ none) (hstep : Leases.Step s p p' s') : Wants p' pubkey := by
  rcases h with rfl | ⟨n, h⟩
  · cases hstep with
    | acquire _ hfree => exact absurd hfree (hkept rfl)
    | busy _ wait _ => exact .inr ⟨wait, rfl⟩
  · rcases Leases.awaits_step h hstep with h | h
    · exact .inr ⟨n, h⟩
    · exact .inl h

private theorem outside_step {p p' : Phase} (h : Outside p) (hbusy : p ≠ .idle)
    (hstep : Leases.Step s p p' s') : Outside p' := by
  obtain ⟨n, h⟩ := h.resolve_left hbusy
  cases hstep <;> cases h
  · exact .inr ⟨n, rfl⟩
  · exact .inl rfl

theorem Call.Ascending.step (h : l.Ascending requested)
    (hstep : Step s l l' s') : l'.Ascending requested := by
  obtain ⟨hresult, h⟩ := h
  cases hstep with
  | scan pubkey pubkeys missing present hphase hstage =>
    rw [hstage] at h
    obtain ⟨-, haccessors, hpubkeys, hmissing⟩ := h
    obtain ⟨hpubkey, hpubkeys⟩ := List.cons_subset.mp hpubkeys
    refine ⟨hresult, hphase, haccessors, hpubkeys, ?_⟩
    split
    · exact hmissing
    · exact List.append_subset.mpr ⟨hmissing, List.cons_subset.mpr ⟨hpubkey, List.nil_subset _⟩⟩
  | scanFail pubkey pubkeys missing hphase hstage => exact ⟨hresult, .inl hphase⟩
  | scanned missing hphase hstage =>
    rw [hstage] at h
    obtain ⟨-, haccessors, -, hmissing⟩ := h
    refine ⟨hresult, .inl hphase, ?_⟩
    rw [haccessors]
    exact sorted_sortDedup hmissing
  | returned hphase hstage =>
    rw [hstage] at h
    refine ⟨fun keys hkeys => ?_, .inl hphase⟩
    cases hkeys
    simpa using h.2
  | lock pubkey missing hphase hstage =>
    rw [hstage] at h
    exact ⟨hresult, pubkey, .inl rfl, h.2⟩
  | acquire pubkey missing hphase hstage hfree =>
    rw [hstage] at h
    obtain ⟨key, hwants, hsorted⟩ := h
    obtain rfl : key = pubkey := by
      rw [hphase] at hwants
      rcases hwants with hwants | ⟨n, hwants⟩
      · cases hwants
        rfl
      · cases hwants
    exact ⟨hresult, rfl, hsorted⟩
  | present missing lease hphase hstage hl =>
    rw [hstage] at h
    exact ⟨hresult, .inr ⟨_, rfl⟩, h.2.sublist ((List.sublist_cons_self _ _).append_left _)⟩
  | absent missing lease hphase hstage =>
    rw [hstage] at h
    refine ⟨hresult, .inl hphase, ?_⟩
    simpa using h.2
  | holdFail missing lease hphase hstage hl => exact ⟨hresult, .inr ⟨_, rfl⟩⟩
  | drop lease hphase hstage hmem hl =>
    refine ⟨hresult, ?_⟩
    simp only [hstage]
    exact .inr ⟨_, rfl⟩
  | inner phase _ hbusy hgoes hinner =>
    refine ⟨hresult, ?_⟩
    cases hstage : l.stage with
    | scanning pubkeys missing =>
      rw [hstage] at h
      exact absurd h.1 hbusy
    | acquiring missing =>
      rw [hstage] at h
      exact ⟨outside_step h.1 hbusy hinner, h.2⟩
    | locking missing =>
      rw [hstage] at h
      obtain ⟨pubkey, hwants, hsorted⟩ := h
      exact ⟨pubkey, wants_step hwants (fun hphase => hgoes pubkey missing hphase hstage) hinner, hsorted⟩
    | holding missing lease =>
      rw [hstage] at h
      exact absurd h.1 hbusy
    | dropping =>
      rw [hstage] at h
      exact outside_step h hbusy hinner

private theorem Call.Ascending.locking {l : Call} {pubkey : Pubkey} (h : l.Ascending requested)
    (hwants : Wants l.phase pubkey) : ∃ missing, l.stage = .locking missing := by
  obtain ⟨-, h⟩ := h
  have hinside : ¬Outside l.phase := by
    rcases hwants with hclaiming | ⟨n, hawaits⟩
    · simp [Outside, hclaiming, Phase.owes]
    · cases hphase : l.phase <;> rw [hphase] at hawaits <;> cases hawaits <;> simp [Outside, Phase.owes]
  cases hstage : l.stage <;> rw [hstage] at h
  case locking missing => exact ⟨missing, rfl⟩
  case scanning | holding => exact absurd (.inl h.1) hinside
  case acquiring => exact absurd h.1 hinside
  case dropping => exact absurd h hinside

theorem Step.leases (h : Step s l l' s') :
    l'.phase = l.phase ∧ s' = s ∨ Leases.Step s l.phase l'.phase s' := by
  cases h with
  | lock pubkey missing hphase hstage => exact .inr (by rw [hphase]; exact .lock pubkey)
  | acquire pubkey missing hphase hstage hfree => exact .inr (by rw [hphase]; exact .acquire pubkey hfree)
  | present missing lease hphase hstage hl => exact .inr (by rw [hphase]; exact .drop lease hl)
  | holdFail missing lease hphase hstage hl => exact .inr (by rw [hphase]; exact .drop lease hl)
  | drop lease hphase hstage hmem hl => exact .inr (by rw [hphase]; exact .drop lease hl)
  | inner phase _ hbusy hgoes hinner => exact .inr hinner
  | _ => exact .inl ⟨rfl, rfl⟩

theorem Step.held (h : Step s l l' s')
    (hascending : l.Ascending requested) (hnodup : l.held.Nodup) :
    (l'.held = l.held ∧ s'.leases = s.leases) ∨
    (∃ lease, lease.released = s.next ∧ l'.held = l.held ++ [lease] ∧ s'.leases = s.leases ++ [lease]) ∨
    ∃ lease ∈ l.held, l'.held = l.held.erase lease ∧ s'.leases = s.leases.erase lease := by
  -- the lease that is being checked is the last one
  have hlast {missing : List Pubkey} {lease : AccountLease} (hstage : l.stage = .holding missing lease) :
      lease ∈ l.held ∧ l.accessors = l.held.erase lease := by
    have hheld : l.held = l.accessors ++ [lease] := by simp only [Call.held, hstage]
    rw [hheld] at hnodup ⊢
    have hnew : lease ∉ l.accessors := fun hmem =>
      (List.nodup_append.mp hnodup).2.2 lease hmem lease List.mem_cons_self rfl
    refine ⟨by simp, ?_⟩
    rw [List.erase_append_right _ hnew, List.erase_cons_head, List.append_nil]
  cases h with
  | acquire pubkey missing hphase hstage hfree =>
    refine .inr (.inl ⟨⟨pubkey, s.next⟩, rfl, ?_, ?_⟩)
    · simp only [Call.held, hstage]
    · simp only [Shared.claim, hfree]
  | present missing lease hphase hstage hl =>
    exact .inr (.inr ⟨lease, (hlast hstage).1, (hlast hstage).2, rfl⟩)
  | absent missing lease hphase hstage => exact .inl ⟨by simp only [Call.held, hstage], rfl⟩
  | holdFail missing lease hphase hstage hl =>
    exact .inr (.inr ⟨lease, (hlast hstage).1, (hlast hstage).2, rfl⟩)
  | drop lease hphase hstage hmem hl =>
    have hheld : l.held = l.accessors := by simp only [Call.held, hstage]
    exact .inr (.inr ⟨lease, hheld ▸ hmem, by rw [hheld]; simp only [Call.held, hstage], rfl⟩)
  | inner phase _ hbusy hgoes hinner =>
    refine .inl ⟨rfl, ?_⟩
    -- a claim that succeeds is not an inner step
    generalize hp : l.phase = p at hinner
    cases hinner with
    | drop lease hl => exact absurd hp hbusy
    | acquire pubkey hfree =>
      obtain ⟨missing, hstage⟩ := hascending.locking (.inl hp)
      exact absurd hfree (hgoes pubkey missing hp hstage)
    | _ => rfl
  | lock pubkey missing hphase hstage => exact .inl ⟨by simp only [Call.held, hstage], rfl⟩
  | scan pubkey pubkeys missing present hphase hstage => exact .inl ⟨by simp only [Call.held, hstage], rfl⟩
  | scanFail pubkey pubkeys missing hphase hstage => exact .inl ⟨by simp only [Call.held, hstage], rfl⟩
  | scanned missing hphase hstage => exact .inl ⟨by simp only [Call.held, hstage], rfl⟩
  | returned hphase hstage => exact .inl ⟨by simp only [Call.held, hstage], rfl⟩

structure CallInv (requested : Task → List Pubkey) (w : World Task) : Prop where
  inv : Inv (leases w)
  ascending : ∀ t, (w.threads t).Ascending (requested t)
  nodup : ∀ t, (w.threads t).held.Nodup
  held : ∀ t, ∀ lease ∈ (w.threads t).held, lease ∈ w.shared.leases
  owner : ∀ lease ∈ w.shared.leases, ∃ t, lease ∈ (w.threads t).held
  apart : ∀ t u lease, lease ∈ (w.threads t).held → lease ∈ (w.threads u).held → t = u

namespace CallInv

variable {requested : Task → List Pubkey} {w w' : World Task} {t : Task}

theorem initial : CallInv requested (MissingAccounts.initial requested) where
  inv := .initial
  ascending _ := ⟨nofun, rfl, rfl, List.Subset.refl _, List.nil_subset _⟩
  nodup _ := List.nodup_nil
  held _ _ h := nomatch h
  owner _ h := nomatch h
  apart _ _ _ h := nomatch h

theorem step [DecidableEq Task] {l' : Call} {s' : Shared} (h : CallInv requested w)
    (hstep : Step w.shared (w.threads t) l' s') : CallInv requested ⟨Function.update w.threads t l', s'⟩ := by
  have hinv : Inv (leases ⟨Function.update w.threads t l', s'⟩) := by
    have hphases : (fun u => (Function.update w.threads t l' u).phase) =
        Function.update (fun u => (w.threads u).phase) t l'.phase := Function.comp_update Call.phase w.threads t l'
    rw [leases, hphases]
    rcases hstep.leases with ⟨hphase, rfl⟩ | hinner
    · rw [hphase, Function.update_eq_self]
      exact h.inv
    · exact h.inv.step hinner
  have hascending : ∀ u, (Function.update w.threads t l' u).Ascending (requested u) :=
    (Function.forall_update_iff _ fun u (l : Call) => l.Ascending (requested u)).mpr
      ⟨(h.ascending t).step hstep, fun u _ => h.ascending u⟩
  have hall : w.shared.leases.Nodup := h.inv.nodup.of_map _
  have hmine : ∀ u, (Function.update w.threads t l' u).held = if u = t then l'.held else (w.threads u).held := by
    grind
  rcases hstep.held (h.ascending t) (h.nodup t) with ⟨hheld, hleases⟩ | ⟨lease, hnew, hheld, hleases⟩ |
    ⟨lease, hmem, hheld, hleases⟩
  · have hsame : ∀ u, (Function.update w.threads t l' u).held = (w.threads u).held := by grind
    refine ⟨hinv, hascending, fun u => ?_, fun u l => ?_, fun l => ?_, fun u v l => ?_⟩ <;> simp only [hsame, hleases]
    · exact h.nodup u
    · exact h.held u l
    · exact h.owner l
    · exact h.apart u v l
  · have hfresh : lease ∉ w.shared.leases := fun hl => (h.inv.leased lease hl).1.ne hnew
    have hold := h.held
    refine ⟨hinv, hascending, fun u => ?_, fun u l => ?_, fun l => ?_, fun u v l => ?_⟩ <;> simp only [hmine, hheld, hleases]
    · have := h.nodup u
      grind
    · grind
    · have := h.owner l
      grind
    · have := h.apart u v l
      grind
  · have hother : ∀ u, u ≠ t → lease ∉ (w.threads u).held := fun u hu hl => hu (h.apart u t lease hl hmem)
    have hmine' : ∀ l, l ∈ (w.threads t).held.erase lease ↔ l ≠ lease ∧ l ∈ (w.threads t).held :=
      fun l => (h.nodup t).mem_erase_iff
    have hrest : ∀ l, l ∈ w.shared.leases.erase lease ↔ l ≠ lease ∧ l ∈ w.shared.leases := fun l => hall.mem_erase_iff
    refine ⟨hinv, hascending, fun u => ?_, fun u l => ?_, fun l => ?_, fun u v l => ?_⟩ <;> simp only [hmine, hheld, hleases]
    · have := h.nodup u
      grind
    · have := h.held u l
      grind
    · have := h.owner l
      grind
    · have := h.apart u v l
      grind

/-! ### Somebody can go on -/

/-- The call sleeps and its notifier was not completed. -/
private def Blocked (w : World Task) (t : Task) (pubkey : Pubkey) (n : Nat) : Prop :=
  (∃ missing, (w.threads t).stage = .locking missing) ∧ (w.threads t).phase = .asleep pubkey n 0 ∧
    (w.shared.notifiers n).calls = 0

private theorem finished_or_enabled_or_blocked (h : CallInv requested w) (t : Task) :
    (w.threads t).Finished ∨ (∃ c, (MissingAccounts.step c (w.threads t) w.shared).isSome) ∨
      ∃ pubkey n, Blocked w t pubkey n := by
  have hfits : (w.threads t).phase.Fits w.shared := h.inv.fits t
  obtain ⟨-, hstage⟩ := h.ascending t
  cases hphase : (w.threads t).phase with
  | idle =>
    cases hst : (w.threads t).stage with
    | scanning pubkeys missing =>
      cases pubkeys with
      | nil => exact .inr (.inl ⟨.go, by simp [MissingAccounts.step, hphase, hst]⟩)
      | cons pubkey pubkeys => exact .inr (.inl ⟨.fail, by simp [MissingAccounts.step, hphase, hst]⟩)
    | acquiring missing =>
      cases missing with
      | nil => exact .inr (.inl ⟨.go, by simp [MissingAccounts.step, hphase, hst]⟩)
      | cons pubkey missing => exact .inr (.inl ⟨.go, by simp [MissingAccounts.step, hphase, hst]⟩)
    | locking missing =>
      rw [hst, hphase] at hstage
      obtain ⟨pubkey, hwants | ⟨n, hwants⟩, -⟩ := hstage <;> cases hwants
    | holding missing lease => exact .inr (.inl ⟨.found false, by simp [MissingAccounts.step, hphase, hst]⟩)
    | dropping =>
      cases haccessors : (w.threads t).accessors with
      | nil => exact .inl ⟨hst, hphase, haccessors⟩
      | cons lease rest =>
        have hl : lease ∈ w.shared.leases := h.held t lease (by simp [Call.held, hst, haccessors])
        exact .inr (.inl ⟨.drop lease, by simp [MissingAccounts.step, hphase, hst, haccessors, Call.release, Leases.step, hl]⟩)
  | claiming pubkey =>
    refine .inr (.inl ⟨.go, ?_⟩)
    cases hst : (w.threads t).stage <;> cases hkey : w.shared.reservations pubkey <;>
      simp [MissingAccounts.step, hphase, hst, Leases.step, Shared.claim, hkey]
  | waiting pubkey wait => exact .inr (.inl ⟨.go, by simp [MissingAccounts.step, hphase, Leases.step]⟩)
  | created pubkey wait calls =>
    refine .inr (.inl ⟨.go, ?_⟩)
    cases hdone : (w.shared.notifiers wait).done <;> simp [MissingAccounts.step, hphase, Leases.step, hdone]
  | asleep pubkey wait calls =>
    rw [hphase] at hfits
    obtain ⟨-, rfl⟩ := hfits
    by_cases hcalls : (w.shared.notifiers wait).calls = 0
    · exact .inr (.inr ⟨pubkey, wait, (h.ascending t).locking (.inr ⟨wait, by rw [hphase]; rfl⟩), hphase, hcalls⟩)
    · exact .inr (.inl ⟨.go, by simp [MissingAccounts.step, hphase, Leases.step, Nat.pos_of_ne_zero hcalls]⟩)
  | releasing n => exact .inr (.inl ⟨.go, by simp [MissingAccounts.step, hphase, Leases.step]⟩)
  | notifying n => exact .inr (.inl ⟨.go, by simp [MissingAccounts.step, hphase, Leases.step]⟩)

/-- A blocked call is blocked by the holder of a lease, and that call wants a greater key if it is blocked as well. -/
private theorem blocked_by (h : CallInv requested w) {pubkey : Pubkey} {n : Nat} (hblocked : Blocked w t pubkey n) :
    (∃ u m, ((w.threads u).phase).owes = some m) ∨
      ∃ u, ¬(w.threads u).Finished ∧ ∀ pubkey' n', Blocked w u pubkey' n' → pubkey < pubkey' := by
  obtain ⟨-, hphase, hcalls⟩ := hblocked
  have hfits : (w.threads t).phase.Fits w.shared := h.inv.fits t
  rw [hphase] at hfits
  rcases h.inv.settled n hfits.1.1 with hleased | ⟨u, hu⟩ | hdone
  · obtain ⟨lease, hl, rfl⟩ := List.mem_map.mp hleased
    obtain ⟨u, hu⟩ := h.owner lease hl
    refine .inr ⟨u, fun hfinished => ?_, fun pubkey' n' ⟨⟨missing, hstage⟩, hphase', _⟩ => ?_⟩
    · rw [Call.held, hfinished.1, hfinished.2.2] at hu
      cases hu
    · -- the lease is among the accessors of that call, which are all before the key it wants
      obtain ⟨-, hascending⟩ := h.ascending u
      rw [Call.held, hstage] at hu
      rw [hstage, hphase'] at hascending
      obtain ⟨key, hwants, hsorted⟩ := hascending
      obtain rfl : key = pubkey' := by
        rcases hwants with hwants | ⟨m, hwants⟩ <;> cases hwants
        rfl
      rw [← hfits.1.2 lease hl rfl]
      exact (List.pairwise_append.mp hsorted.1).2.2 _ (List.mem_map_of_mem hu) _ List.mem_cons_self
  · exact .inl ⟨u, n, hu⟩
  · have hdone : (w.shared.notifiers n).calls = 1 := congrArg (·.calls) hdone
    omega

theorem exists_step [Finite Task] (h : CallInv requested w) (hunfinished : ¬(w.threads t).Finished) :
    ∃ u c, (MissingAccounts.step c (w.threads u) w.shared).isSome := by
  by_contra hnone
  have hblocked : ∀ u, (w.threads u).Finished ∨ ∃ pubkey n, Blocked w u pubkey n := fun u => by
    rcases h.finished_or_enabled_or_blocked u with hfinished | ⟨c, hc⟩ | hblocked
    · exact .inl hfinished
    · exact absurd ⟨u, c, hc⟩ hnone
    · exact .inr hblocked
  -- the blocked call that wants the greatest key
  let wanted : Set Pubkey := {pubkey | ∃ u n, Blocked w u pubkey n}
  have hfinite : wanted.Finite := by
    refine (Set.finite_range fun u => ((w.threads u).phase.awaits.map (·.1)).getD default).subset ?_
    rintro pubkey ⟨u, n, -, hphase, -⟩
    exact ⟨u, by simp only [hphase]; rfl⟩
  obtain ⟨pubkey, n, hwanted⟩ := (hblocked t).resolve_left hunfinished
  obtain ⟨top, ⟨u, m, htop⟩, hgreatest⟩ := hfinite.exists_maximal ⟨pubkey, t, n, hwanted⟩
  rcases h.blocked_by htop with ⟨v, m', howes⟩ | ⟨v, hv, hless⟩
  · -- a call that completes a notifier is never blocked
    refine hnone ⟨v, .go, ?_⟩
    cases hphase : (w.threads v).phase <;> rw [hphase] at howes <;> cases howes <;>
      simp [MissingAccounts.step, hphase, Leases.step]
  · obtain ⟨pubkey', n', hblocked'⟩ := (hblocked v).resolve_left hv
    have hlt := hless pubkey' n' hblocked'
    exact absurd (hgreatest ⟨v, n', hblocked'⟩ hlt.le) (not_le_of_gt hlt)

end CallInv

/-! ### Calls come to an end -/

def Stage.remaining : Stage → Nat
  | .scanning pubkeys missing => pubkeys.length + missing.length
  | .acquiring missing => missing.length
  | .locking missing => missing.length + 1
  | .holding missing _ => missing.length
  | .dropping => 0

def Call.notifiers (l : Call) : Nat :=
  l.stage.remaining + l.held.length + match l.phase with
    | .releasing _ => 1
    | _ => 0

def Stage.rank : Stage → Nat
  | .scanning pubkeys missing => 21 * pubkeys.length + 20 * missing.length + 3
  | .acquiring missing => 20 * missing.length + 2
  | .locking missing => 20 * missing.length + 11
  | .holding missing _ => 20 * missing.length + 10
  | .dropping => 0

/-- How far a task is from leaving `lock` or the drop of a lease; a completed notifier sends a waiter back to its
claim. -/
def phaseRank (s : Shared) : Phase → Nat
  | .idle => 0
  | .claiming _ => 3
  | .waiting _ wait => if (s.notifiers wait).done then 5 else 2
  | .created _ wait _ => if (s.notifiers wait).done then 4 else 1
  | .asleep _ wait _ => if (s.notifiers wait).done then 6 else 0
  | .releasing _ => 2
  | .notifying _ => 1

def Call.rank (s : Shared) (l : Call) : Nat := l.stage.rank + 4 * l.accessors.length + phaseRank s l.phase

private theorem phaseRank_lt {w : Leases.World Task} (h : Inv w) {t : Task} {p : Phase} {s' : Shared}
    (hbusy : w.threads t ≠ .idle) (hstep : Leases.Step w.shared (w.threads t) p s') :
    phaseRank s' p < phaseRank w.shared (w.threads t) := by
  have hfits := h.fits t
  generalize w.threads t = q at hstep hfits hbusy
  cases hstep with
  | lock pubkey => exact absurd rfl hbusy
  | drop lease hl => exact absurd rfl hbusy
  | acquire pubkey hfree => exact Nat.zero_lt_succ 2
  | busy pubkey wait hwait => simp [phaseRank, (h.notifier_of_reserved hwait).2]
  | create pubkey wait =>
    simp only [phaseRank]
    split <;> decide
  | retry pubkey wait calls hdone => simp [phaseRank, hdone]
  | sleep pubkey wait calls hdone => simp [phaseRank, hdone]
  | wake pubkey wait calls hcalls =>
    have hdone : w.shared.notifiers wait = { done := true, calls := 1 } :=
      (h.calls_le hfits.1.1).resolve_left (by omega)
    simp [phaseRank, hdone]
  | complete n => exact Nat.lt_succ_self 1
  | notify n => exact Nat.zero_lt_one

section Rank

variable {requested : Task → List Pubkey} {w : World Task} {t : Task} {l' : Call} {s' : Shared}

/-- Every step comes closer to the end of the call, and none adds a notifier to complete. -/
private theorem rank_lt (h : CallInv requested w) (hstep : Step w.shared (w.threads t) l' s') :
    l'.rank s' < (w.threads t).rank w.shared ∧ l'.notifiers ≤ (w.threads t).notifiers := by
  generalize hl : w.threads t = l at hstep
  cases hstep with
  | inner phase _ hbusy hgoes hinner =>
    have hphase : (leases w).threads t = l.phase := congrArg Call.phase hl
    have hlt := phaseRank_lt h.inv (t := t) (hphase ▸ hbusy) (hphase ▸ hinner)
    rw [hphase] at hlt
    refine ⟨Nat.add_lt_add_left hlt _, ?_⟩
    generalize hp : l.phase = p at hinner
    simp only [Call.notifiers, Call.held, hp]
    cases hinner <;> first | exact le_rfl | exact Nat.le_succ _ | exact absurd hp hbusy
  | scanned missing hphase hstage =>
    have hle := length_sortDedup_le missing
    simp only [Call.rank, Call.notifiers, Call.held, hstage, hphase, Stage.rank, Stage.remaining, List.length_nil]
    omega
  | scan pubkey pubkeys missing present hphase hstage =>
    have hle : (if present then missing else missing ++ [pubkey]).length ≤ missing.length + 1 := by
      split <;> simp
    simp only [Call.rank, Call.notifiers, Call.held, hstage, hphase, Stage.rank, Stage.remaining, List.length_cons]
    omega
  | drop lease hphase hstage hmem hl =>
    have hpos := List.length_pos_of_mem hmem
    simp only [Call.rank, Call.notifiers, Call.held, hstage, hphase, Stage.rank, Stage.remaining,
      List.length_erase_of_mem hmem, phaseRank]
    omega
  | _ =>
    simp only [Call.rank, Call.notifiers, Call.held, *, Stage.rank, Stage.remaining, List.length_cons,
      List.length_append, List.length_nil, phaseRank]
    omega

private theorem notifiers_lt_or_done (hstep : Step w.shared (w.threads t) l' s') :
    l'.notifiers < (w.threads t).notifiers ∨
      ∀ n < w.shared.next, (s'.notifiers n).done = (w.shared.notifiers n).done := by
  have hclaim {pubkey : Pubkey} (hfree : w.shared.reservations pubkey = none) : ∀ n < w.shared.next,
      ((w.shared.claim pubkey).2.notifiers n).done = (w.shared.notifiers n).done := fun n hn => by
    simp only [Shared.claim, hfree, Function.update_of_ne hn.ne]
  generalize w.threads t = l at hstep
  cases hstep with
  | inner phase _ hbusy hgoes hinner =>
    generalize hp : l.phase = p at hinner
    cases hinner with
    | acquire pubkey hfree => exact .inr (hclaim hfree)
    | complete n => exact .inl (by simp only [Call.notifiers, Call.held, hp]; exact Nat.lt_succ_self _)
    | notify n =>
      refine .inr fun m _ => ?_
      by_cases hmn : m = n <;> simp [Shared.notifyWaiters, hmn]
    | _ => exact .inr fun _ _ => rfl
  | acquire pubkey missing hphase hstage hfree => exact .inr (hclaim hfree)
  | _ => exact .inr fun _ _ => rfl

/-- Completing a notifier takes the waiters back to their claims, which costs each at most six steps. -/
private theorem phaseRank_le {p : Phase} {s : Shared} (hfits : p.Fits s) :
    phaseRank s' p ≤ phaseRank s p + 6 ∧
      ((∀ n < s.next, (s'.notifiers n).done = (s.notifiers n).done) → phaseRank s' p = phaseRank s p) := by
  cases p with
  | waiting pubkey wait =>
    refine ⟨?_, fun hdone => by simp only [phaseRank, hdone wait hfits.1]⟩
    simp only [phaseRank]
    split <;> split <;> omega
  | created pubkey wait calls =>
    refine ⟨?_, fun hdone => by simp only [phaseRank, hdone wait hfits.1.1]⟩
    simp only [phaseRank]
    split <;> split <;> omega
  | asleep pubkey wait calls =>
    refine ⟨?_, fun hdone => by simp only [phaseRank, hdone wait hfits.1.1]⟩
    simp only [phaseRank]
    split <;> split <;> omega
  | _ => exact ⟨Nat.le_add_right _ _, fun _ => rfl⟩

end Rank

section Measure

variable [Fintype Task]

/-- The notifiers still to complete outweigh what completing one costs all calls. -/
def measure (w : World Task) : Nat :=
  (6 * Fintype.card Task + 1) * ∑ t, (w.threads t).notifiers + ∑ t, (w.threads t).rank w.shared

/-- A sum in which one term is replaced and the others grow by a constant at most. -/
private theorem sum_replace (f f' : Task → Nat) (t : Task) (k : Nat) (h : ∀ u, u ≠ t → f' u ≤ f u + k) :
    ∑ u, f' u + f t ≤ ∑ u, f u + f' t + k * Fintype.card Task := by
  classical
  have hf := Finset.add_sum_erase Finset.univ f (Finset.mem_univ t)
  have hf' := Finset.add_sum_erase Finset.univ f' (Finset.mem_univ t)
  have hle : ∑ u ∈ Finset.univ.erase t, f' u ≤ ∑ u ∈ Finset.univ.erase t, f u + k * (Finset.univ.erase t).card := by
    calc ∑ u ∈ Finset.univ.erase t, f' u
        ≤ ∑ u ∈ Finset.univ.erase t, (f u + k) := Finset.sum_le_sum fun u hu => h u (Finset.ne_of_mem_erase hu)
      _ = ∑ u ∈ Finset.univ.erase t, f u + k * (Finset.univ.erase t).card := by
        rw [Finset.sum_add_distrib, Finset.sum_const_nat fun _ _ => rfl, mul_comm]
  have hcard : (Finset.univ.erase t).card ≤ Fintype.card Task := Finset.card_le_univ _
  have := Nat.mul_le_mul_left k hcard
  omega

theorem measure_lt {requested : Task → List Pubkey} {w w' : World Task} {t : Task} (h : CallInv requested w)
    (hstep : Step w.shared (w.threads t) (w'.threads t) w'.shared)
    (hothers : ∀ u, u ≠ t → w'.threads u = w.threads u) : measure w' < measure w := by
  obtain ⟨hrank, hle⟩ := rank_lt h hstep
  have hnotifiers : ∑ u, (w'.threads u).notifiers + (w.threads t).notifiers ≤
      ∑ u, (w.threads u).notifiers + (w'.threads t).notifiers + 0 * Fintype.card Task :=
    sum_replace (fun u => (w.threads u).notifiers) (fun u => (w'.threads u).notifiers) t 0 fun u hu => by
      rw [hothers u hu]
      exact le_rfl
  have hfits : ∀ u, (w.threads u).phase.Fits w.shared := h.inv.fits
  unfold measure
  rcases notifiers_lt_or_done hstep with hless | hdone
  · have hranks : ∑ u, (w'.threads u).rank w'.shared + (w.threads t).rank w.shared ≤
        ∑ u, (w.threads u).rank w.shared + (w'.threads t).rank w'.shared + 6 * Fintype.card Task :=
      sum_replace (fun u => (w.threads u).rank w.shared) (fun u => (w'.threads u).rank w'.shared) t 6 fun u hu => by
        rw [hothers u hu]
        exact Nat.add_le_add_left (phaseRank_le (hfits u)).1 _
    have hsum : ∑ u, (w'.threads u).notifiers + 1 ≤ ∑ u, (w.threads u).notifiers := by omega
    have := Nat.mul_le_mul_left (6 * Fintype.card Task + 1) hsum
    rw [Nat.mul_add] at this
    omega
  · have hranks : ∑ u, (w'.threads u).rank w'.shared + (w.threads t).rank w.shared ≤
        ∑ u, (w.threads u).rank w.shared + (w'.threads t).rank w'.shared + 0 * Fintype.card Task :=
      sum_replace (fun u => (w.threads u).rank w.shared) (fun u => (w'.threads u).rank w'.shared) t 0 fun u hu => by
        rw [hothers u hu]
        exact (congrArg _ ((phaseRank_le (hfits u)).2 hdone)).le
    have hsum : ∑ u, (w'.threads u).notifiers ≤ ∑ u, (w.threads u).notifiers := by omega
    have := Nat.mul_le_mul_left (6 * Fintype.card Task + 1) hsum
    omega

end Measure

theorem Reachable.callInv [DecidableEq Task] {requested : Task → List Pubkey} {w : World Task}
    (h : Reachable requested w) : CallInv requested w := by
  induction h with
  | initial => exact .initial
  | move _ t c hmove ih =>
    obtain ⟨⟨l', s'⟩, hstep, rfl⟩ := Option.map_eq_some_iff.mp hmove
    exact ih.step (step_cases hstep)

/-- An account has at most one lease; a task that waits for a lease claims again once it was dropped; and calls of
`missing_accounts` return at most one accessor for a key and all come to an end, whatever they ask for: there is no
infinite run, and calls that cannot go on have finished. -/
theorem account_leases (Task : Type) [DecidableEq Task] :
    (∀ w : Leases.World Task, Leases.Reachable w → (w.shared.leases.map (·.pubkey)).Nodup) ∧
    (∀ r : Leases.Run Task, r.state 0 = Leases.initial Task → r.WeaklyFair →
      ∀ i t pubkey n, ((r.state i).threads t).awaits = some (pubkey, n) →
        n ∉ (r.state i).shared.leases.map (·.released) → ∃ m, i ≤ m ∧ (r.state m).threads t = .claiming pubkey) ∧
    ∀ (_ : Fintype Task) (requested : Task → List Pubkey) (w : World Task), Reachable requested w →
      (w.shared.leases.map (·.pubkey)).Nodup ∧
      (∀ t keys, (w.threads t).result = some keys → keys.Nodup ∧ keys ⊆ requested t) ∧
      ((∀ t c, (system Task).move t c w = none) → ∀ t, (w.threads t).Finished) ∧
      Acc (fun w'' w' => ∃ t c, (system Task).move t c w' = some w'') w := by
  refine ⟨fun w h => h.inv.nodup_pubkey, fun r hinit hfair i t pubkey n => Leases.exists_claiming hinit hfair,
    fun _ requested w h => ⟨h.callInv.inv.nodup_pubkey, fun t keys hkeys => ?_, fun hstuck t => ?_, ?_⟩⟩
  · obtain ⟨hsorted, hsub⟩ := (h.callInv.ascending t).1 keys hkeys
    exact ⟨hsorted.imp fun hlt => hlt.ne, hsub⟩
  · by_contra hunfinished
    obtain ⟨u, c, hstep⟩ := h.callInv.exists_step hunfinished
    have := hstuck u c
    rw [Schedule.System.move, Option.map_eq_none_iff] at this
    rw [show MissingAccounts.step c (w.threads u) w.shared = none from this] at hstep
    cases hstep
  · refine @Transition.acc_of_decreasing _ (fun w w' => ∃ t c, (system Task).move t c w = some w')
      (CallInv requested) measure ?_ ?_ w h.callInv
    · rintro w w' hinv ⟨t, c, hmove⟩
      obtain ⟨⟨l', s'⟩, hstep, rfl⟩ := Option.map_eq_some_iff.mp hmove
      exact hinv.step (step_cases hstep)
    · rintro w w' hinv ⟨t, c, hmove⟩
      obtain ⟨hstep, hothers⟩ := Schedule.System.move_eq_some hmove
      exact measure_lt hinv (step_cases hstep) hothers

/-- One task takes and drops the lease of an account, another one waits for it in between. -/
def handover : List (Bool × Leases.Choice) :=
  [(true, .lock ⟨1⟩), (true, .go), (false, .lock ⟨1⟩), (false, .go), (true, .drop ⟨⟨1⟩, 0⟩), (true, .go), (true, .go),
    (false, .go), (false, .go), (false, .go)]

theorem reachable_follow {Task : Type} [DecidableEq Task] {requested : Task → List Pubkey}
    {moves : List (Task × Choice)} {w w' : World Task} (h : Reachable requested w)
    (hfollow : (system Task).follow w moves = some w') : Reachable requested w' := by
  induction moves generalizing w with
  | nil => exact Option.some.inj hfollow ▸ h
  | cons move moves ih =>
    obtain ⟨next, hmove, hrest⟩ := Option.bind_eq_some_iff.mp hfollow
    exact ih (h.move move.1 move.2 hmove) hrest

/-- Two calls ask for the same accounts. One gets both leases and returns, the other one waits for the first of them. -/
def contendedCalls : List (Bool × Choice) :=
  List.replicate 3 (true, .found false) ++ List.replicate 3 (true, .go) ++ [(true, .found false), (true, .go), (true, .go),
    (true, .found false)] ++ List.replicate 3 (false, .found false) ++ List.replicate 3 (false, .go) ++ [(true, .go)]

def contendedWorld : World Bool :=
  ((system Bool).follow (initial fun _ => [⟨2⟩, ⟨1⟩, ⟨2⟩]) contendedCalls).getD (initial fun _ => [])

/-- The task that waits claims again; of the two calls one has returned each account once, and both come to an end. -/
theorem account_leases_handover :
    (∃ m, 5 ≤ m ∧ ((Schedule.Run.replay (Leases.system Bool) (Leases.initial Bool) handover rfl).state m).threads false =
      .claiming ⟨1⟩) ∧
    (contendedWorld.threads false).phase = .waiting ⟨1⟩ 0 ∧ (contendedWorld.threads true).result = some [⟨1⟩, ⟨2⟩] ∧
    [(⟨1⟩ : Pubkey), ⟨2⟩].Nodup ∧ Acc (fun w' w => ∃ t c, (system Bool).move t c w = some w') contendedWorld := by
  obtain ⟨-, hwakes, hcalls⟩ := account_leases Bool
  have hfollows : ((system Bool).follow (initial fun _ => [⟨2⟩, ⟨1⟩, ⟨2⟩]) contendedCalls).isSome := by decide +kernel
  have hreachable : Reachable (fun _ => [⟨2⟩, ⟨1⟩, ⟨2⟩]) contendedWorld := by
    obtain ⟨w, hw⟩ := Option.isSome_iff_exists.mp hfollows
    rw [contendedWorld, hw]
    exact reachable_follow .initial hw
  have hresult : (contendedWorld.threads true).result = some [⟨1⟩, ⟨2⟩] := by decide +kernel
  obtain ⟨-, hkeys, -, hends⟩ := hcalls inferInstance _ contendedWorld hreachable
  refine ⟨hwakes _ rfl (Schedule.Run.weaklyFair_replay rfl fun t => ?_) 5 false ⟨1⟩ 0 rfl List.not_mem_nil,
    by decide +kernel, hresult, (hkeys true _ hresult).1, hends⟩
  cases t <;> exact fun hbusy => hbusy rfl

end MagicEngine.MissingAccounts
