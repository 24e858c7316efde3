import MagicEngine.Keeper.Subscriptions

/-!
# Delivery of committed results

A sender goes from the call that made it into the list of its signature, from there into the hands of the thread that
takes the list, and is used. In a fair run each of these steps is made: the list is taken by the commit, or, when the
commit was there before, by the call that registered the sender, which then finds the status in the cache.
-/

namespace MagicEngine.Signatures

variable {St : Type}

section Delivery

variable {Thread : Type} [DecidableEq Thread] [DecidableEq St] {tx : Signature} {status : St}
  {w w' : World Thread St} {s s' : Shared St} {p p' : Phase St} {x n : Nat} {t : Thread}

def Shared.Settled (s : Shared St) (x : Nat) : Prop :=
  x < s.next ∧ ((s.channels x).received ≠ [] ∨ (s.channels x).dropped = true)

def Registered (x : Nat) (w : World Thread St) : Prop :=
  x < w.shared.next ∧ ∀ t sig, w.threads t ≠ .registering sig x

omit [DecidableEq St] in
theorem Step.next_le (h : Step tx status s p p' s') : s.next ≤ s'.next := by
  cases h with
  | subscribe => exact Nat.le_succ _
  | skip | gone | detach | deliver => simp [Shared.setSenders]
  | _ => exact le_rfl

omit [DecidableEq St] in
theorem Step.settled (h : Step tx status s p p' s') (hx : s.Settled x) : s'.Settled x := by
  refine ⟨hx.1.trans_le h.next_le, ?_⟩
  have hsettled := hx.2
  have hdrop : ∀ r, ((s.drop r).channels x).received ≠ [] ∨ ((s.drop r).channels x).dropped = true := by
    intro r
    simp only [Shared.drop, Function.update_apply]
    grind
  cases h with
  | subscribe sig =>
    rw [Shared.create]
    dsimp only
    rwa [Function.update_of_ne hx.1.ne]
  | forget r => exact hdrop r
  | cancel sig r => exact hdrop r
  | skip | gone | detach => simpa [Shared.setSenders] using hsettled
  | deliver st r senders =>
    obtain ⟨channels, heq, hothers, -, hsent⟩ := s.send_eq r st
    rw [heq]
    dsimp only
    by_cases hxr : x = r
    · subst hxr
      rcases hsent with ⟨hsame, -⟩ | hsent
      · rwa [hsame]
      · exact .inl (by simp [hsent])
    · rwa [hothers x hxr]
  | _ => exact hsettled

omit [DecidableEq St] in
theorem Step.progress_ne_pending (h : Step tx status s p p' s') (hs : s.progress ≠ .pending) :
    s'.progress ≠ .pending := by
  have htaken : ∀ r, (s.taken r).progress ≠ .pending := fun r => by
    cases r
    · nofun
    · exact hs
  cases h with
  | commit => nofun
  | publish => nofun
  | skip sig st r => exact htaken r
  | gone sig st r => exact htaken r
  | detach sig st r => exact htaken r
  | deliver => simpa using hs
  | _ => exact hs

theorem Registered.move {c : Choice St} (hmove : (system tx status Thread).move t c w = some w')
    (h : Registered x w) : Registered x w' := by
  obtain ⟨hstep, hothers⟩ := Schedule.System.move_eq_some hmove
  have hstep := step_cases hstep
  refine ⟨h.1.trans_le hstep.next_le, fun u sig heq => ?_⟩
  rcases eq_or_ne u t with rfl | hu
  · have hbefore := h.2 u sig
    rw [heq] at hstep
    generalize w.threads u = p at hstep hbefore
    generalize w'.shared = s' at hstep
    cases hstep
    exact absurd h.1 (Nat.lt_irrefl _)
  · exact h.2 u sig (hothers u hu ▸ heq)

theorem exists_step (hp : p ≠ .idle) : ∃ c, (step tx status c p s).isSome := by
  cases p with
  | idle => exact absurd rfl hp
  | asking sig r => exact ⟨.cancel, rfl⟩
  | reading | checking | removing =>
    refine ⟨.go, ?_⟩
    simp only [step]
    split <;> rfl
  | delivering st senders => cases senders <;> exact ⟨.go, rfl⟩
  | _ => exact ⟨.go, rfl⟩

variable {run : Schedule.Run (system tx status Thread)}

omit [DecidableEq Thread] [DecidableEq St] in
theorem Inv.located [Fintype Thread] (h : Inv tx status w) (hx : x < w.shared.next) (hsig : (w.shared.channels x).signature = tx) :
    w.shared.Settled x ∨ (∃ t, x ∈ (w.threads t).hands) ∨ x ∈ w.shared.senders.senders tx := by
  by_cases hsettled : w.shared.Settled x
  · exact .inl hsettled
  · have hopen : (w.shared.channels x).received = [] ∧ (w.shared.channels x).dropped = false := by
      simpa [Shared.Settled, hx] using hsettled
    obtain ⟨t | sig, hp⟩ := h.routed.kept x hx hopen.1 hopen.2
    · exact .inr (.inl ⟨t, hp⟩)
    · have heq := (h.routed.signed sig x hp).symm.trans hsig
      exact .inr (.inr (heq ▸ hp))

theorem shared_stable {P : Shared St → Prop} {m : Nat}
    (hP : ∀ {p p' : Phase St} {s s' : Shared St}, Step tx status s p p' s' → P s → P s') (hm : n ≤ m)
    (h : P (run.state n).shared) : P (run.state m).shared :=
  run.stable (P := fun w => P w.shared) (fun _ _ _ _ hmove => hP (step_cases (Schedule.System.move_eq_some hmove).1)) hm h

theorem reachable_state (hinit : run.state 0 = initial Thread St) (n : Nat) : Reachable tx status (run.state n) :=
  run.stable (fun _ _ t c hmove h => h.move t c hmove) (Nat.zero_le n) (hinit ▸ .initial)

theorem moves_of_busy (hfair : run.WeaklyFair) (hbusy : (run.state n).threads t ≠ .idle) : ∃ m, n ≤ m ∧
    Step tx status (run.state m).shared ((run.state n).threads t) ((run.state (m + 1)).threads t)
      (run.state (m + 1)).shared := by
  obtain ⟨m, hm, ⟨c, hmove⟩, hsame⟩ := hfair.moves (n := n) (t := t) fun m hm hstill => by
    have hsame := run.threads_eq hm fun k hk hlt => hstill k hk hlt
    refine ⟨?_, ?_⟩
    · change (run.state m).threads t ≠ .idle
      rwa [hsame]
    · rw [hsame]
      exact exists_step hbusy
  have hstep := step_cases (Schedule.System.move_eq_some (run.next m t c hmove)).1
  rw [hsame] at hstep
  exact ⟨m, hm, hstep⟩

def Phase.detachedList : Phase St → List Nat
  | .subtracting _ senders => senders
  | .delivering _ senders => senders
  | _ => []

theorem settled_of_detached (hfair : run.WeaklyFair) (hnext : x < (run.state n).shared.next)
    (hx : x ∈ ((run.state n).threads t).detachedList) : ∃ m, n ≤ m ∧ (run.state m).shared.Settled x := by
  refine Schedule.Run.leads (P := fun k => n ≤ k ∧ x ∈ ((run.state k).threads t).detachedList)
    (fun k => ((run.state k).threads t).detachedList.length + ((run.state k).threads t).detached) ?_ ⟨le_rfl, hx⟩
  rintro k ⟨hk, hx⟩
  have hbusy : (run.state k).threads t ≠ .idle := fun heq => by
    rw [heq] at hx
    cases hx
  obtain ⟨m, hm, hstep⟩ := moves_of_busy hfair hbusy
  have hnext' : x < (run.state (m + 1)).shared.next :=
    shared_stable (P := (x < ·.next)) (fun hstep hlt => hlt.trans_le hstep.next_le) (by omega) hnext
  refine ⟨m + 1, by omega, ?_⟩
  generalize (run.state k).threads t = p at hx hstep ⊢
  generalize (run.state (m + 1)).threads t = p' at hstep ⊢
  generalize (run.state (m + 1)).shared = s' at hstep hnext' ⊢
  cases hstep with
  | subtract st senders => exact .inr ⟨⟨by omega, hx⟩, by simp [Phase.detachedList, Phase.detached]⟩
  | deliver st r senders =>
    rcases List.mem_cons.mp hx with rfl | hx
    · obtain ⟨channels, heq, -, -, hsent⟩ := (run.state m).shared.send_eq x st
      rw [heq] at hnext' ⊢
      refine .inl ⟨hnext', ?_⟩
      rcases hsent with ⟨hsame, hdropped⟩ | hsent
      · exact .inr ((congrArg Channel.dropped hsame).trans hdropped)
      · exact .inl (by simp [hsent])
    · exact .inr ⟨⟨by omega, hx⟩, by simp [Phase.detachedList, Phase.detached]⟩
  | _ => cases hx

variable [Fintype Thread]

def Phase.Takes (tx : Signature) : Phase St → Prop
  | .committing => True
  | .checking sig _ _ => sig = tx
  | .removing sig _ _ => sig = tx
  | _ => False

def Phase.distance : Phase St → Nat
  | .committing => 2
  | .checking _ _ _ => 1
  | _ => 0

theorem settled_or_detached (hinit : run.state 0 = initial Thread St) (hx : Registered x (run.state n))
    (hsig : ((run.state n).shared.channels x).signature = tx) :
    (run.state n).shared.Settled x ∨ (∃ t, x ∈ ((run.state n).threads t).detachedList) ∨
      x ∈ (run.state n).shared.senders.senders tx := by
  rcases (reachable_state hinit n).inv.located hx.1 hsig with hsettled | ⟨t, ht⟩ | hlist
  · exact .inl hsettled
  · refine .inr (.inl ⟨t, ?_⟩)
    have hnot := hx.2 t
    cases hp : (run.state n).threads t with
    | registering sig r =>
      rw [hp] at ht hnot
      exact absurd rfl (List.mem_singleton.mp ht ▸ hnot sig)
    | subtracting | delivering => rwa [hp] at ht
    | _ =>
      rw [hp] at ht
      cases ht
  · exact .inr (.inr hlist)

omit [Fintype Thread] in
private theorem signature_state {m : Nat} (hnext : x < (run.state n).shared.next)
    (hsig : ((run.state n).shared.channels x).signature = tx) (hm : n ≤ m) :
    ((run.state m).shared.channels x).signature = tx :=
  (shared_stable (P := fun s => x < s.next ∧ (s.channels x).signature = tx)
    (fun hstep h => ⟨h.1.trans_le hstep.next_le, (hstep.signature_eq h.1).trans h.2⟩) hm ⟨hnext, hsig⟩).2

theorem settled_of_takes (hinit : run.state 0 = initial Thread St) (hfair : run.WeaklyFair)
    (hx : Registered x (run.state n)) (hsig : ((run.state n).shared.channels x).signature = tx)
    (htakes : ((run.state n).threads t).Takes tx) : ∃ m, n ≤ m ∧ (run.state m).shared.Settled x := by
  have hlater : ∀ m, n ≤ m → Registered x (run.state m) := fun m hm =>
    run.stable (fun w w' u c hmove h => h.move hmove) hm hx
  have hdetached : ∀ k u, n ≤ k → x ∈ ((run.state k).threads u).detachedList →
      ∃ m, k ≤ m ∧ (run.state m).shared.Settled x :=
    fun k u hk hu => settled_of_detached hfair (hlater k hk).1 hu
  refine Schedule.Run.leads (P := fun k => n ≤ k ∧ ((run.state k).threads t).Takes tx)
    (fun k => ((run.state k).threads t).distance) ?_ ⟨le_rfl, htakes⟩
  rintro k ⟨hk, htakes⟩
  have hbusy : (run.state k).threads t ≠ .idle := fun heq => by
    rw [heq] at htakes
    cases htakes
  obtain ⟨m, hm, hstep⟩ := moves_of_busy hfair hbusy
  rcases settled_or_detached hinit (hlater m (by omega)) (signature_state hx.1 hsig (by omega)) with
    hsettled | ⟨u, hu⟩ | hlist
  · exact ⟨m, hm, .inl hsettled⟩
  · obtain ⟨m', hm', hsettled⟩ := hdetached m u (by omega) hu
    exact ⟨m', hm.trans hm', .inl hsettled⟩
  -- The list still has the sender; the thread finds it there.
  have hcounted := (reachable_state hinit m).inv.counted.2
  have htaken : x ∈ ((run.state (m + 1)).threads t).detachedList ∨
      ((run.state (m + 1)).threads t).Takes tx ∧
        ((run.state (m + 1)).threads t).distance < ((run.state k).threads t).distance := by
    generalize (run.state k).threads t = p at htakes hstep ⊢
    generalize (run.state (m + 1)).threads t = p' at hstep ⊢
    generalize (run.state (m + 1)).shared = s' at hstep
    cases hstep with
    | publish => exact .inr ⟨rfl, by simp [Phase.distance]⟩
    | look => exact .inr ⟨htakes, by simp [Phase.distance]⟩
    | skip sig st r hempty =>
      rw [hcounted.senders_of_isEmpty hempty] at hlist
      cases hlist
    | gone sig st r hdetach =>
      rw [show sig = tx from htakes] at hdetach
      rw [Subscribers.senders_of_detach_eq_none hdetach] at hlist
      cases hlist
    | detach sig st r senders rest hdetach =>
      rw [show sig = tx from htakes] at hdetach
      exact .inl ((Subscribers.detach_eq_some hdetach).1 ▸ hlist)
    | _ => cases htakes
  rcases htaken with hlist | ⟨htakes', hlt⟩
  · obtain ⟨m', hm', hsettled⟩ := hdetached (m + 1) t (by omega) hlist
    exact ⟨m', by omega, .inl hsettled⟩
  · exact ⟨m + 1, by omega, .inr ⟨⟨by omega, htakes'⟩, hlt⟩⟩

theorem settled_of_registered (hinit : run.state 0 = initial Thread St) (hfair : run.WeaklyFair)
    (hx : Registered x (run.state n)) (hsig : ((run.state n).shared.channels x).signature = tx)
    (hprogress : (run.state n).shared.progress ≠ .pending) : ∃ m, n ≤ m ∧ (run.state m).shared.Settled x := by
  have hinv := (reachable_state hinit n).inv
  rcases settled_or_detached hinit hx hsig with hsettled | ⟨t, ht⟩ | hlist
  · exact ⟨n, le_rfl, hsettled⟩
  · exact settled_of_detached hfair hx.1 ht
  by_cases hfanned : (run.state n).shared.progress = .fannedOut
  · -- Registered after the commit had taken the list: its own call finds the status.
    obtain ⟨t, hserves⟩ := hinv.served hfanned x hlist
    by_cases htakes : ((run.state n).threads t).Takes tx
    · exact settled_of_takes hinit hfair hx hsig htakes
    have hbusy : (run.state n).threads t ≠ .idle := fun heq => by
      rw [heq] at hserves
      cases hserves
    obtain ⟨m, hm, hstep⟩ := moves_of_busy hfair hbusy
    have hcached : (run.state m).shared.progress.isCached = true :=
      shared_stable (P := fun s => s.progress.isCached = true) Step.isCached hm (by rw [hfanned]; rfl)
    have hhit := (reachable_state hinit m).inv.caches.1 hcached
    have htakes' : ((run.state (m + 1)).threads t).Takes tx := by
      generalize (run.state n).threads t = p at hserves htakes hstep
      generalize (run.state (m + 1)).threads t = p' at hstep ⊢
      generalize (run.state (m + 1)).shared = s' at hstep
      cases hstep with
      | miss _ _ hget | reserved _ _ hget =>
        rw [hserves.1, hhit] at hget
        cases hget
      | hit sig r st => exact hserves.1
      | skip | look | gone | detach => exact absurd hserves.1 htakes
      | _ => cases hserves
    have hx' : Registered x (run.state (m + 1)) :=
      run.stable (fun w w' u c hmove h => h.move hmove) (by omega) hx
    obtain ⟨m', hm', hsettled⟩ := settled_of_takes hinit hfair hx' (signature_state hx.1 hsig (by omega)) htakes'
    exact ⟨m', by omega, hsettled⟩
  · obtain ⟨t, hcommits⟩ := hinv.commits hprogress hfanned
    have hcarries := hinv.carries t
    refine settled_of_takes hinit hfair hx hsig (t := t) ?_
    cases hp : (run.state n).threads t with
    | committing => trivial
    | checking | removing =>
      rw [hp] at hcommits hcarries
      exact (hcarries.2 hcommits).1
    | _ =>
      rw [hp] at hcommits
      cases hcommits

theorem settled_of_created (hinit : run.state 0 = initial Thread St) (hfair : run.WeaklyFair)
    (hx : x < (run.state n).shared.next) (hsig : ((run.state n).shared.channels x).signature = tx)
    (hprogress : (run.state n).shared.progress ≠ .pending) : ∃ m, n ≤ m ∧ (run.state m).shared.Settled x := by
  by_cases hregistered : ∀ t sig, (run.state n).threads t ≠ .registering sig x
  · exact settled_of_registered hinit hfair ⟨hx, hregistered⟩ hsig hprogress
  push Not at hregistered
  obtain ⟨t, sig, hphase⟩ := hregistered
  obtain ⟨m, hm, hstep⟩ := moves_of_busy (t := t) hfair (by rw [hphase]; nofun)
  rw [hphase] at hstep
  have hlist : x ∈ (run.state (m + 1)).shared.senders.senders sig := by
    generalize (run.state (m + 1)).threads t = p' at hstep
    generalize (run.state (m + 1)).shared = s' at hstep ⊢
    cases hstep
    simp [Shared.setSenders, Subscribers.senders_insert]
  have hrouted := (reachable_state hinit (m + 1)).inv.routed
  have hx' : Registered x (run.state (m + 1)) := by
    refine ⟨hrouted.fresh (.inr sig) x hlist, fun u sig' hu => ?_⟩
    cases hrouted.apart (.inr sig) (.inl u) x hlist (by simp [places, hu, Phase.hands])
  have hprogress' : (run.state (m + 1)).shared.progress ≠ .pending :=
    shared_stable (P := fun s => s.progress ≠ .pending) Step.progress_ne_pending (by omega) hprogress
  obtain ⟨m', hm', hsettled⟩ :=
    settled_of_registered hinit hfair hx' (signature_state hx hsig (by omega)) hprogress'
  exact ⟨m', by omega, hsettled⟩

/-- The counter of subscribers is zero only when nobody is registered, whatever is being removed. A receiver of the
transaction never gets more than one result, and that is the committed status; and once the transaction is committed
each receiver that was not dropped gets it, whatever else the threads do. -/
theorem signature_subscriptions (Thread St : Type) [DecidableEq Thread] [Fintype Thread] [DecidableEq St]
    (tx : Signature) (status : St) :
    (∀ (κ σ : Type) (_ : DecidableEq κ) (s : Subscribers κ σ) (n : Nat), Subscribers.Reachable s n → s.isEmpty →
      ∀ key, s.senders key = []) ∧
    (∀ w : World Thread St, Reachable tx status w → ∃ n, Subscribers.Reachable w.shared.senders n) ∧
    (∀ (w : World Thread St) (x : Nat), Reachable tx status w → (w.shared.channels x).signature = tx →
      (w.shared.channels x).received = [] ∨ (w.shared.channels x).received = [status]) ∧
    ∀ run : Schedule.Run (system tx status Thread), run.state 0 = initial Thread St → run.WeaklyFair →
      (∃ n, (run.state n).shared.progress ≠ .pending) →
      ∀ n x, x < (run.state n).shared.next → ((run.state n).shared.channels x).signature = tx →
        ∃ m, n ≤ m ∧ ∀ k, m ≤ k → ((run.state k).shared.channels x).dropped = false →
          ((run.state k).shared.channels x).received = [status] := by
  have hreceived : ∀ (w : World Thread St) (x : Nat), Reachable tx status w → (w.shared.channels x).signature = tx →
      (w.shared.channels x).received = [] ∨ (w.shared.channels x).received = [status] := by
    intro w x hw hsig
    have honce := hw.inv.routed.once x
    have htold := hw.inv.told x hsig
    match hlist : (w.shared.channels x).received with
    | [] => exact .inl rfl
    | [st] => exact .inr (by rw [htold st (by simp [hlist])])
    | _ :: _ :: _ =>
      rw [hlist] at honce
      simp at honce
  refine ⟨fun κ σ _ s n h hempty key => h.senders_of_isEmpty hempty key, fun w hw => ⟨_, hw.inv.counted.2⟩, hreceived,
    fun run hinit hfair ⟨i, hi⟩ n x hx hsig => ?_⟩
  have hprogress : (run.state (max n i)).shared.progress ≠ .pending :=
    shared_stable (P := fun s => s.progress ≠ .pending) Step.progress_ne_pending (Nat.le_max_right n i) hi
  have hx' : x < (run.state (max n i)).shared.next :=
    shared_stable (P := (x < ·.next)) (fun hstep hlt => hlt.trans_le hstep.next_le) (Nat.le_max_left n i) hx
  obtain ⟨m, hm, hsettled⟩ :=
    settled_of_created hinit hfair hx' (signature_state hx hsig (Nat.le_max_left n i)) hprogress
  refine ⟨m, by omega, fun k hk hopen => ?_⟩
  have hlater : (run.state k).shared.Settled x := shared_stable Step.settled hk hsettled
  have hsome : ((run.state k).shared.channels x).received ≠ [] :=
    hlater.2.resolve_right fun hdropped => by simp [hopen] at hdropped
  exact (hreceived _ x (reachable_state hinit k) (signature_state hx hsig (by omega))).resolve_left hsome

end Delivery

/-- A thread subscribes before the commit and registers when the commit has found nobody. -/
def lateSubscription : List (Bool × Choice Nat) :=
  [(true, .append), (false, .subscribe ⟨5⟩), (true, .commit), (true, .go), (true, .go), (false, .go), (false, .go),
    (false, .go), (false, .go), (false, .go), (false, .go), (false, .go)]

theorem isSome_lateSubscription :
    ((system ⟨5⟩ 7 Bool).follow (initial Bool Nat) lateSubscription).isSome := by decide +kernel

theorem signature_subscriptions_late :
    ∃ m, 3 ≤ m ∧ ∀ k, m ≤ k →
      (((Schedule.Run.replay _ _ _ isSome_lateSubscription).state k).shared.channels 0).dropped = false →
      (((Schedule.Run.replay _ _ _ isSome_lateSubscription).state k).shared.channels 0).received = [7] := by
  obtain ⟨-, -, -, hdelivered⟩ := signature_subscriptions Bool Nat ⟨5⟩ 7
  have hidle : ∀ t, (((system ⟨5⟩ 7 Bool).follow (initial Bool Nat) lateSubscription).getD
      (initial Bool Nat)).threads t = .idle := by decide +kernel
  have hprogress : ((Schedule.Run.replay _ _ _ isSome_lateSubscription).state 3).shared.progress ≠ .pending := by
    decide +kernel
  have hcreated : 0 < ((Schedule.Run.replay _ _ _ isSome_lateSubscription).state 3).shared.next ∧
      (((Schedule.Run.replay _ _ _ isSome_lateSubscription).state 3).shared.channels 0).signature = ⟨5⟩ := by
    decide +kernel
  exact hdelivered _ rfl (Schedule.Run.weaklyFair_replay _ fun t hbusy => hbusy (hidle t)) ⟨3, hprogress⟩ 3 0 hcreated.1
    hcreated.2

end MagicEngine.Signatures
