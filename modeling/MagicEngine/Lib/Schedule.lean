import Mathlib.Logic.Function.Basic
import Mathlib.Data.Fintype.Defs
import Mathlib.Data.Nat.Find
import Mathlib.Order.Basic

/-!
# Schedules of threads

Threads with a local state each share a memory and step one at a time; a thread is busy in the middle of a call and
free to do nothing otherwise. In a strongly fair run a busy thread that can step again and again does step. Rules:
a busy thread that is always about to be enabled moves (`StronglyFair.moves`), and a thread whose moves lower a number
comes to rest (`Run.exists_rest`).

A run that ends in a loop is given by finitely many states (`Run.lasso`).
-/

attribute [grind =] Function.update_apply

namespace Schedule

structure System (Thread Local Shared Choice : Type) where
  step : Thread → Choice → Local → Shared → Option (Local × Shared)
  busy : Local → Prop

structure World (Thread Local Shared : Type) where
  threads : Thread → Local
  shared : Shared

variable {Thread Local Shared Choice : Type} [DecidableEq Thread]

namespace System

def move (S : System Thread Local Shared Choice) (t : Thread) (c : Choice) (w : World Thread Local Shared) :
    Option (World Thread Local Shared) :=
  (S.step t c (w.threads t) w.shared).map fun result => ⟨Function.update w.threads t result.1, result.2⟩

def Enabled (S : System Thread Local Shared Choice) (t : Thread) (w : World Thread Local Shared) : Prop :=
  S.busy (w.threads t) ∧ ∃ c, (S.step t c (w.threads t) w.shared).isSome

theorem move_eq_some {S : System Thread Local Shared Choice} {t : Thread} {c : Choice}
    {w w' : World Thread Local Shared} (h : S.move t c w = some w') :
    S.step t c (w.threads t) w.shared = some (w'.threads t, w'.shared) ∧ ∀ u, u ≠ t → w'.threads u = w.threads u := by
  obtain ⟨⟨l, s⟩, hstep, rfl⟩ := Option.map_eq_some_iff.mp h
  exact ⟨by simpa using hstep, fun u hu => Function.update_of_ne hu ..⟩

end System

/-- An infinite run; at some instants nobody moves. -/
structure Run (S : System Thread Local Shared Choice) where
  state : Nat → World Thread Local Shared
  move : Nat → Option (Thread × Choice)
  idle : ∀ n, move n = none → state (n + 1) = state n
  next : ∀ n t c, move n = some (t, c) → S.move t c (state n) = some (state (n + 1))

namespace Run

variable {S : System Thread Local Shared Choice} (r : Run S) {t : Thread} {n m : Nat}

theorem next_cases (n : Nat) :
    (∃ t c, r.move n = some (t, c) ∧ S.step t c ((r.state n).threads t) (r.state n).shared =
      some ((r.state (n + 1)).threads t, (r.state (n + 1)).shared) ∧
      ∀ u, u ≠ t → (r.state (n + 1)).threads u = (r.state n).threads u) ∨
    r.state (n + 1) = r.state n := by
  cases hmove : r.move n with
  | none => exact .inr (r.idle n hmove)
  | some p =>
    obtain ⟨t, c⟩ := p
    exact .inl ⟨t, c, rfl, System.move_eq_some (r.next n t c hmove)⟩

/-- What no step ends holds from some instant on. -/
theorem stable {P : World Thread Local Shared → Prop} (h : ∀ w w' t c, S.move t c w = some w' → P w → P w')
    (hle : n ≤ m) (hn : P (r.state n)) : P (r.state m) := by
  induction m, hle using Nat.le_induction with
  | base => exact hn
  | succ m _ ih =>
    cases hmove : r.move m with
    | none => rwa [r.idle m hmove]
    | some p => exact h _ _ p.1 p.2 (r.next m p.1 p.2 hmove) ih

theorem threads_succ (h : ∀ c, r.move n ≠ some (t, c)) : (r.state (n + 1)).threads t = (r.state n).threads t := by
  rcases r.next_cases n with ⟨u, c, hmove, -, hothers⟩ | heq
  · exact hothers t fun htu => h c (htu ▸ hmove)
  · rw [heq]

/-- What the moves of a thread keep of it stays. -/
theorem thread_stable {P : Local → Prop} (hle : n ≤ m) (hn : P ((r.state n).threads t))
    (h : ∀ k, n ≤ k → ∀ c, r.move k = some (t, c) → S.step t c ((r.state k).threads t) (r.state k).shared =
      some ((r.state (k + 1)).threads t, (r.state (k + 1)).shared) →
      P ((r.state k).threads t) → P ((r.state (k + 1)).threads t)) : P ((r.state m).threads t) := by
  induction m, hle using Nat.le_induction with
  | base => exact hn
  | succ m hm ih =>
    by_cases hmoves : ∃ c, r.move m = some (t, c)
    · obtain ⟨c, hc⟩ := hmoves
      exact h m hm c hc (System.move_eq_some (r.next m t c hc)).1 ih
    · rwa [r.threads_succ fun c hc => hmoves ⟨c, hc⟩]

theorem threads_eq (hle : n ≤ m) (h : ∀ k, n ≤ k → k < m → ∀ c, r.move k ≠ some (t, c)) :
    (r.state m).threads t = (r.state n).threads t := by
  induction m, hle using Nat.le_induction with
  | base => rfl
  | succ m hle ih =>
    rw [r.threads_succ (h m hle (Nat.lt_succ_self m)), ih fun k hk hlt => h k hk (Nat.lt_succ_of_lt hlt)]

theorem exists_first_move (h : ∃ m, n ≤ m ∧ ∃ c, r.move m = some (t, c)) :
    ∃ m, n ≤ m ∧ (∃ c, r.move m = some (t, c)) ∧ (r.state m).threads t = (r.state n).threads t ∧
      ∀ k, n ≤ k → k < m → ∀ c, r.move k ≠ some (t, c) := by
  classical
  obtain ⟨hle, hmove⟩ := Nat.find_spec h
  have hbefore : ∀ k, n ≤ k → k < Nat.find h → ∀ c, r.move k ≠ some (t, c) :=
    fun k hk hlt c hc => Nat.find_min h hlt ⟨hk, c, hc⟩
  exact ⟨Nat.find h, hle, hmove, r.threads_eq hle hbefore, hbefore⟩

/-- A thread whose moves lower a number comes to rest. -/
theorem exists_rest (rank : Local → Nat) (h : ∀ k, n ≤ k → ∀ c, r.move k = some (t, c) →
    rank ((r.state (k + 1)).threads t) < rank ((r.state k).threads t)) :
    ∃ m, n ≤ m ∧ ∀ k, m ≤ k → (r.state k).threads t = (r.state m).threads t ∧ ∀ c, r.move k ≠ some (t, c) := by
  induction hr : rank ((r.state n).threads t) using Nat.strongRecOn generalizing n with
  | ind value ih =>
    by_cases hmoves : ∃ m, n ≤ m ∧ ∃ c, r.move m = some (t, c)
    · obtain ⟨m, hm, ⟨c, hc⟩, hsame, -⟩ := r.exists_first_move hmoves
      have hlt := h m hm c hc
      rw [hsame, hr] at hlt
      obtain ⟨m', hm', hrest⟩ := ih _ hlt (fun k hk => h k (by omega)) rfl
      exact ⟨m', by omega, hrest⟩
    · have hstill : ∀ k, n ≤ k → ∀ c, r.move k ≠ some (t, c) := fun k hk c hc => hmoves ⟨k, hk, c, hc⟩
      exact ⟨n, Nat.le_refl n, fun k hk => ⟨r.threads_eq hk fun j hj _ => hstill j hj, hstill k hk⟩⟩

/-- A busy thread that can step infinitely often steps. -/
def StronglyFair : Prop :=
  ∀ t, (∀ n, ∃ m, n ≤ m ∧ S.Enabled t (r.state m)) → ∀ n, ∃ m, n ≤ m ∧ ∃ c, r.move m = some (t, c)

/-- A thread that is enabled again and again as long as it does not move, moves. -/
theorem StronglyFair.moves {r : Run S} (hfair : r.StronglyFair)
    (h : ∀ m, n ≤ m → ∃ k, m ≤ k ∧
      ((∀ j, n ≤ j → j < k → ∀ c, r.move j ≠ some (t, c)) → S.Enabled t (r.state k))) :
    ∃ m, n ≤ m ∧ (∃ c, r.move m = some (t, c)) ∧ (r.state m).threads t = (r.state n).threads t ∧
      ∀ k, n ≤ k → k < m → ∀ c, r.move k ≠ some (t, c) := by
  apply r.exists_first_move
  by_contra hnone
  have hstill : ∀ k, n ≤ k → ∀ c, r.move k ≠ some (t, c) := fun k hk c hc => hnone ⟨k, hk, c, hc⟩
  have henabled : ∀ i, ∃ m, i ≤ m ∧ S.Enabled t (r.state m) := by
    intro i
    obtain ⟨k, hk, himp⟩ := h (max i n) (Nat.le_max_right i n)
    exact ⟨k, by omega, himp fun j hj _ => hstill j hj⟩
  obtain ⟨m, hm, hmove⟩ := hfair t henabled n
  exact hnone ⟨m, hm, hmove⟩

/-- A busy thread that can step from some instant on steps. -/
def WeaklyFair : Prop :=
  ∀ t n, (∀ m, n ≤ m → S.Enabled t (r.state m)) → ∃ m, n ≤ m ∧ ∃ c, r.move m = some (t, c)

/-- A thread that stays enabled as long as it does not move, moves. -/
theorem WeaklyFair.moves {r : Run S} (hfair : r.WeaklyFair)
    (h : ∀ m, n ≤ m → (∀ j, n ≤ j → j < m → ∀ c, r.move j ≠ some (t, c)) → S.Enabled t (r.state m)) :
    ∃ m, n ≤ m ∧ (∃ c, r.move m = some (t, c)) ∧ (r.state m).threads t = (r.state n).threads t := by
  have hmoves : ∃ m, n ≤ m ∧ ∃ c, r.move m = some (t, c) := by
    by_contra hnone
    have hstill : ∀ k, n ≤ k → ∀ c, r.move k ≠ some (t, c) := fun k hk c hc => hnone ⟨k, hk, c, hc⟩
    exact hnone (hfair t n fun m hm => h m hm fun j hj _ => hstill j hj)
  obtain ⟨m, hm, hmove, hsame, -⟩ := r.exists_first_move hmoves
  exact ⟨m, hm, hmove, hsame⟩

/-- What leads on, or closer to it by a rank, leads there in the end. -/
theorem leads {P Q : Nat → Prop} (rank : Nat → Nat)
    (h : ∀ n, P n → ∃ m, n ≤ m ∧ (Q m ∨ P m ∧ rank m < rank n)) (hn : P n) : ∃ m, n ≤ m ∧ Q m := by
  induction hr : rank n using Nat.strongRecOn generalizing n with
  | ind value ih =>
    obtain ⟨m, hm, hQ | ⟨hP, hlt⟩⟩ := h n hn
    · exact ⟨m, hm, hQ⟩
    · obtain ⟨k, hk, hQ⟩ := ih (rank m) (hr ▸ hlt) hP rfl
      exact ⟨k, hm.trans hk, hQ⟩

/-- What holds from some instant on, of each of finitely many things, holds of all from some instant on. -/
theorem eventually_forall {α : Type} {P : α → Nat → Prop} (l : List α) (n : Nat)
    (h : ∀ a ∈ l, ∃ m, n ≤ m ∧ ∀ k, m ≤ k → P a k) : ∃ m, n ≤ m ∧ ∀ k, m ≤ k → ∀ a ∈ l, P a k := by
  induction l with
  | nil => exact ⟨n, Nat.le_refl n, fun _ _ a ha => absurd ha List.not_mem_nil⟩
  | cons a l ih =>
    obtain ⟨m₁, hm₁, h₁⟩ := h a List.mem_cons_self
    obtain ⟨m₂, hm₂, h₂⟩ := ih fun b hb => h b (List.mem_cons_of_mem a hb)
    refine ⟨max m₁ m₂, by omega, fun k hk => ?_⟩
    exact List.forall_mem_cons.mpr ⟨h₁ k (by omega), h₂ k (by omega)⟩

end Run

/-- A mutex keeps to the thread that owns it when a step of `t` leaves it alone, takes it or releases it. -/
theorem owner_step {lock lock' : Option Thread} {own own' : Thread → Prop} {t : Thread}
    (h : ∀ u, lock = some u ↔ own u) (hothers : ∀ u, u ≠ t → (own' u ↔ own u))
    (hcases : (lock' = lock ∧ (own' t ↔ own t)) ∨ (lock = none ∧ lock' = some t ∧ own' t) ∨
      (own t ∧ lock' = none ∧ ¬own' t)) (u : Thread) : lock' = some u ↔ own' u := by
  by_cases hu : u = t
  · subst hu
    rcases hcases with ⟨hlock, hown⟩ | ⟨-, hlock, hown⟩ | ⟨-, hlock, hown⟩
    · rw [hlock, hown, h u]
    · simp [hlock, hown]
    · simp [hlock, hown]
  · rw [hothers u hu, ← h u]
    rcases hcases with ⟨hlock, -⟩ | ⟨hfree, hlock, -⟩ | ⟨hown, hlock, -⟩
    · rw [hlock]
    · simp [hfree, hlock, Ne.symm hu]
    · simp [(h t).mpr hown, hlock, Ne.symm hu]

/-! ### Runs that end in a loop -/

def System.follow (S : System Thread Local Shared Choice) (w : World Thread Local Shared) :
    List (Thread × Choice) → Option (World Thread Local Shared)
  | [] => some w
  | (t, c) :: moves => (S.move t c w).bind fun w' => follow S w' moves

theorem System.follow_append (S : System Thread Local Shared Choice) (w : World Thread Local Shared)
    (moves moves' : List (Thread × Choice)) :
    S.follow w (moves ++ moves') = (S.follow w moves).bind fun w' => S.follow w' moves' := by
  induction moves generalizing w with
  | nil => rfl
  | cons p moves ih =>
    simp only [List.cons_append, follow, Option.bind_assoc]
    exact congrArg _ (funext fun w' => ih w')

/-- The run that makes the given moves and then rests. -/
def Run.replay (S : System Thread Local Shared Choice) (w : World Thread Local Shared) (moves : List (Thread × Choice))
    (h : (S.follow w moves).isSome) : Run S where
  state n := (S.follow w (moves.take n)).getD w
  move n := moves[n]?
  idle n hn := by
    have hlength : moves.length ≤ n := List.getElem?_eq_none_iff.mp hn
    rw [List.take_of_length_le hlength, List.take_of_length_le (Nat.le_succ_of_le hlength)]
  next n t c hn := by
    have hbefore : (S.follow w (moves.take n)).isSome := by
      rw [← List.take_append_drop n moves, System.follow_append] at h
      exact Option.isSome_of_isSome_bind h
    have hafter : (S.follow w (moves.take (n + 1))).isSome := by
      rw [← List.take_append_drop (n + 1) moves, System.follow_append] at h
      exact Option.isSome_of_isSome_bind h
    obtain ⟨w₁, hw₁⟩ := Option.isSome_iff_exists.mp hbefore
    obtain ⟨w₂, hw₂⟩ := Option.isSome_iff_exists.mp hafter
    have htake : moves.take (n + 1) = moves.take n ++ [(t, c)] := by rw [List.take_add_one, hn]; rfl
    rw [hw₁, hw₂, Option.getD_some, Option.getD_some]
    rw [htake, System.follow_append, hw₁] at hw₂
    simpa [System.follow] using hw₂

section Replay

variable {S : System Thread Local Shared Choice} {w : World Thread Local Shared} {moves : List (Thread × Choice)}
  (h : (S.follow w moves).isSome)

theorem Run.state_replay {n : Nat} (hn : moves.length ≤ n) :
    (Run.replay S w moves h).state n = (S.follow w moves).getD w := by
  simp only [replay, List.take_of_length_le hn]

/-- A run that rests when nobody is busy is fair. -/
theorem Run.weaklyFair_replay (hrest : ∀ t, ¬S.busy (((S.follow w moves).getD w).threads t)) :
    (Run.replay S w moves h).WeaklyFair := by
  intro t n henabled
  have hlast := (henabled (max n moves.length) (Nat.le_max_left _ _)).1
  rw [state_replay h (Nat.le_max_right _ _)] at hlast
  exact absurd hlast (hrest t)

theorem Run.stronglyFair_replay (hrest : ∀ t, ¬S.busy (((S.follow w moves).getD w).threads t)) :
    (Run.replay S w moves h).StronglyFair := by
  intro t henabled
  obtain ⟨m, hm, hbusy, -⟩ := henabled moves.length
  rw [state_replay h hm] at hbusy
  exact absurd hbusy (hrest t)

end Replay

instance [Fintype Thread] [DecidableEq Local] [DecidableEq Shared] : DecidableEq (World Thread Local Shared) :=
  fun w w' => decidable_of_iff (w.threads = w'.threads ∧ w.shared = w'.shared)
    ⟨fun h => by cases w; cases w'; simp_all, fun h => by simp [h]⟩

/-- Positions `0, …, total - 1`, and then again from `stem` on. -/
def lassoIndex (stem total : Nat) : Nat → Nat
  | 0 => 0
  | n + 1 => if lassoIndex stem total n + 1 < total then lassoIndex stem total n + 1 else stem

variable {stem total : Nat}

theorem lassoIndex_lt (h : stem < total) (n : Nat) : lassoIndex stem total n < total := by
  induction n with
  | zero => exact Nat.zero_lt_of_lt h
  | succ n ih =>
    unfold lassoIndex
    split <;> assumption

theorem le_lassoIndex {n : Nat} (hn : stem ≤ n) : stem ≤ lassoIndex stem total n := by
  have hcases : lassoIndex stem total n = n ∨ stem ≤ lassoIndex stem total n := by
    clear hn
    induction n with
    | zero => exact .inl rfl
    | succ n ih =>
      unfold lassoIndex
      split
      · omega
      · exact .inr (Nat.le_refl stem)
  omega

theorem lassoIndex_recurs {i : Nat} (hi : stem ≤ i) (hlt : i < total) (n : Nat) :
    ∃ m, n ≤ m ∧ lassoIndex stem total m = i := by
  have hforward : ∀ d n, lassoIndex stem total n + d = i → lassoIndex stem total (n + d) = i := by
    intro d
    induction d with
    | zero => exact fun n h => h
    | succ d ih =>
      intro n h
      have hsucc : lassoIndex stem total (n + 1) = lassoIndex stem total n + 1 := by
        rw [lassoIndex, if_pos (by omega)]
      rw [Nat.add_comm d 1, ← Nat.add_assoc]
      exact ih (n + 1) (by omega)
  have hback : ∀ d n, lassoIndex stem total n + d + 1 = total → lassoIndex stem total (n + d + 1) = stem := by
    intro d
    induction d with
    | zero =>
      intro n h
      rw [Nat.add_zero, lassoIndex, if_neg (by omega)]
    | succ d ih =>
      intro n h
      have hsucc : lassoIndex stem total (n + 1) = lassoIndex stem total n + 1 := by
        rw [lassoIndex, if_pos (by omega)]
      have := ih (n + 1) (by omega)
      rwa [show n + 1 + d + 1 = n + (d + 1) + 1 by omega] at this
  have hlast := lassoIndex_lt (Nat.lt_of_le_of_lt hi hlt) n
  have hstem := hback (total - 1 - lassoIndex stem total n) n (by omega)
  exact ⟨n + (total - 1 - lassoIndex stem total n) + 1 + (i - stem), by omega,
    hforward (i - stem) _ (by rw [hstem]; omega)⟩

/-- The run through finitely many states, the last of which leads back to the state at `stem`. -/
def Run.lasso {S : System Thread Local Shared Choice} (stem total : Nat) (hstem : stem < total)
    (state : Nat → World Thread Local Shared) (move : Nat → Thread × Choice)
    (hnext : ∀ i < total, S.move (move i).1 (move i).2 (state i) =
      some (state (if i + 1 < total then i + 1 else stem))) : Run S where
  state n := state (lassoIndex stem total n)
  move n := some (move (lassoIndex stem total n))
  idle n h := by cases h
  next n t c h := by
    have hmove := Option.some.inj h
    have := hnext _ (lassoIndex_lt hstem n)
    rwa [hmove] at this

section Lasso

variable {S : System Thread Local Shared Choice} (hstem : stem < total) {state : Nat → World Thread Local Shared}
  {move : Nat → Thread × Choice} (hnext : ∀ i < total, S.move (move i).1 (move i).2 (state i) =
    some (state (if i + 1 < total then i + 1 else stem)))

theorem Run.lasso_position (n : Nat) : ∃ i < total, (stem ≤ n → stem ≤ i) ∧
    (Run.lasso stem total hstem state move hnext).state n = state i ∧
      (Run.lasso stem total hstem state move hnext).move n = some (move i) :=
  ⟨lassoIndex stem total n, lassoIndex_lt hstem n, le_lassoIndex, rfl, rfl⟩

theorem Run.lasso_recurs (i : Nat) (hi : stem ≤ i) (hlt : i < total) (n : Nat) : ∃ m, n ≤ m ∧
    (Run.lasso stem total hstem state move hnext).state m = state i ∧
      (Run.lasso stem total hstem state move hnext).move m = some (move i) := by
  obtain ⟨m, hm, hindex⟩ := lassoIndex_recurs hi hlt n
  exact ⟨m, hm, congrArg state hindex, congrArg (fun i => some (move i)) hindex⟩

end Lasso

end Schedule
