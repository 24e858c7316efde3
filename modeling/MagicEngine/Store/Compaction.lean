import MagicEngine.Store.Relocation

/-!
# A packing pass

What a pass of defragmentation does to a store whose space is partitioned: accounts are found as before, the plan is
sound, the cursor is the first unit of the free suffix, and the space below it is partitioned again.
-/

namespace MagicEngine

open Regions Region Defrag

namespace PersistedStore

variable {p q : PersistedStore} {key : Pubkey} {data : OwnerAndOffset} {u : Nat} {r : Region} {move : Move}

/-- The result `q` of a pass over `p`. -/
structure Executed (p q : PersistedStore) : Prop where
  accounts : ∀ key, q.index.accounts.lookup key = (p.index.accounts.lookup key).map fun data =>
    { data with offset := destination p.plan.moves data.offset }
  exact : q.index.Exact
  programs_nodup : q.index.programs.Nodup
  freelist_nodup : q.index.freelist.Nodup
  free : ∀ f, f ∈ q.index.freelist ↔
    (∃ r ∈ p.plan.runs, ∃ h ∈ r.parts, max h.offset r.offset < min h.stop p.tail ∧ f = remainder r p.tail h) ∨
      ∃ move ∈ p.plan.moves, move.src < p.tail ∧ f = (min move.stop p.tail - move.src, move.src)
  mem : ∀ key data, p.index.accounts.lookup key = some data →
    q.mem (destination p.plan.moves data.offset) = p.mem data.offset
  cursor : q.storage.cursor = p.tail
  mapped : MappedStorage.bytes q.storage.cursor ≤ q.storage.len

/-! ### The pass follows its plan -/

section

variable (h : p.SpacePartition)

include h

theorem target_pos (hmove : move ∈ p.plan.moves) : 0 < (target move).size := by
  obtain ⟨key, data, -, -, hheld⟩ := held_source h hmove
  have hpos := h.tiling.nonempty _ _ hheld
  exact hpos

theorem live_apart_target (hmove : move ∈ p.plan.moves) (hkey : p.held (.inl key) = some r) :
    Apart r (target move) := by
  refine apart_of_not_has (h.tiling.nonempty _ _ hkey) (target_pos h hmove) fun u hu hu' => ?_
  obtain ⟨f, a, hf, ha⟩ := free_of_target h hmove hu'
  exact not_live_of_free h hkey hu hf ha

theorem live_region (hk : p.index.accounts.lookup key = some data) :
    ∃ s, p.mem data.offset = some s ∧ p.held (.inl key) = some ⟨data.offset, s.units⟩ := by
  obtain ⟨s, hs, -⟩ := h.indexed key data hk
  exact ⟨s, hs, held_account hk hs⟩

theorem src_ne : p.plan.moves.Pairwise fun a b => a.src ≠ b.src := by
  refine (plan_moves_desc h).imp_of_mem fun {a b} _ hb hab => ?_
  have := target_pos h hb
  simp only [target, Move.stop] at this hab
  omega

private theorem copies :
    (∀ move ∈ p.plan.moves, p.plan.moves.foldl copy p.mem move.dst = p.mem move.src) ∧
      ∀ o s, p.mem o = some s → (∀ move ∈ p.plan.moves, Apart ⟨o, s.units⟩ (target move)) →
        p.plan.moves.foldl copy p.mem o = some s := by
  refine foldl_copy (fun move hmove => ?_) (plan_spec h).1.apart fun a ha b hb => ?_
  · obtain ⟨-, -, s, -, -, hs, hunits, -⟩ := plan_source h hmove
    exact ⟨s, hs, hunits⟩
  · obtain ⟨key, -, -, -, hheld⟩ := held_source h ha
    exact live_apart_target h hb hheld

private theorem copies_live (hk : p.index.accounts.lookup key = some data) :
    p.plan.moves.foldl copy p.mem data.offset = p.mem data.offset := by
  obtain ⟨s, hs, hheld⟩ := live_region h hk
  rw [hs]
  exact (copies h).2 _ s hs fun move hmove => live_apart_target h hmove hheld

private theorem relocatable :
    Relocatable (p.plan.moves.foldl copy p.mem) p.index p.plan.moves where
  exact := h.programs
  nodup := h.programs_nodup
  distinct k k' d d' hk hk' ho := by
    obtain ⟨s, hs, hheld⟩ := live_region h hk
    obtain ⟨s', hs', hheld'⟩ := live_region h hk'
    exact Sum.inl.inj (h.tiling.toLayout.eq_of_start_eq hheld hheld' ho)
  sources move hmove := by
    obtain ⟨key, data, s, hk, ho, hs, -, hpubkey, howner⟩ := plan_source h hmove
    refine ⟨s, by rw [← ho, copies_live h hk, ho, hs], ?_⟩
    rw [hpubkey, hk, howner, ← ho]
  fresh move hmove key data hk := by
    obtain ⟨s, hs, hheld⟩ := live_region h hk
    exact (live_apart_target h hmove hheld).start_ne (units_pos s) (target_pos h hmove)
  src_ne := src_ne h
  dst_ne := (plan_spec h).1.apart.imp_of_mem fun {a b} ha hb hab => hab.start_ne (target_pos h ha) (target_pos h hb)

private theorem copies_destination (hk : p.index.accounts.lookup key = some data) :
    p.plan.moves.foldl copy p.mem (destination p.plan.moves data.offset) = p.mem data.offset := by
  by_cases hmoved : ∃ move ∈ p.plan.moves, move.src = data.offset
  · obtain ⟨move, hmove, hsrc⟩ := hmoved
    rw [← hsrc, destination_of_mem (src_ne h) hmove]
    exact (copies h).1 move hmove
  · rw [destination_of_notMem fun move hmove hsrc => hmoved ⟨move, hmove, hsrc⟩]
    exact copies_live h hk

omit h in
private theorem mapped_shrink {s : MappedStorage} {t : Nat} (h : MappedStorage.bytes s.cursor ≤ s.len) (ht : t ≤ s.cursor) :
    MappedStorage.bytes (s.shrink t).cursor ≤ (s.shrink t).len := by
  have hbytes : MappedStorage.bytes t ≤ MappedStorage.bytes s.cursor :=
    Nat.add_le_add_right (Nat.mul_le_mul_right storageUnit ht) _
  unfold MappedStorage.shrink
  dsimp only
  split <;> omega

private theorem executed_execute : Executed p (p.execute p.plan p.tail) := by
  obtain ⟨hexact, hprograms, hfreelist, hlookup⟩ := (relocatable h).foldl
  obtain ⟨hnodup, hfree⟩ := @mem_publish p.tail p.index.freelist p.plan h.freelist_nodup (fun _ => mem_parts h)
    (fun f hf => h.tiling.nonempty _ _ (held_free hf)) (by rw [plan_parts h]; exact ascending_holes h)
  have htail := (plan_suffix h).le
  refine ⟨hlookup, hexact, hprograms, ?_, ?_, fun key data hk => copies_destination h hk, ?_, ?_⟩
  · simp only [execute, hfreelist]
    exact hnodup
  · simp only [execute, hfreelist]
    exact hfree
  · simp only [execute]
    split
    · rfl
    · omega
  · simp only [execute]
    split
    · exact mapped_shrink h.mapped htail
    · exact h.mapped

private theorem executed_unchanged (hmoves : p.plan.moves = []) (htail : p.tail = p.storage.cursor) :
    Executed p p := by
  have hplan := (plan_spec h).1
  refine ⟨fun key => ?_, h.programs, h.programs_nodup, h.freelist_nodup, fun f => ?_, fun key data hk => ?_, htail.symm,
    h.mapped⟩
  · simp [hmoves, destination]
  · have hrem : ∀ r ∈ p.plan.runs, ∀ hole ∈ r.parts,
        max hole.offset r.offset < min hole.stop p.tail ∧ remainder r p.tail hole = (hole.units, hole.offset) := by
      intro r hr hole hhole
      -- nothing was placed in the run, and the hole ends before the cursor
      have hbase : r.offset ≤ r.base := by
        by_contra hlt
        obtain ⟨move, hmove, -⟩ := hplan.filled r hr r.base le_rfl (Nat.lt_of_not_le hlt)
        rw [hmoves] at hmove
        cases hmove
      have hheld := held_free ((mem_parts h).mp ⟨r, hr, hhole⟩)
      have hwithin := (plan_run h hr).1 hole hhole
      have hpos := h.tiling.nonempty _ _ hheld
      have hbelow := h.tiling.below _ _ hheld
      simp only [Hole.stop, remainder] at *
      rw [htail, Nat.max_eq_left (by omega), Nat.min_eq_left hbelow]
      exact ⟨by omega, by rw [Nat.add_sub_cancel_left]⟩
    rw [hmoves]
    constructor
    · intro hf
      obtain ⟨r, hr, hhole⟩ := (@mem_parts p h ⟨f.2, f.1⟩).mpr hf
      obtain ⟨hlt, heq⟩ := hrem r hr _ hhole
      exact .inl ⟨r, hr, _, hhole, hlt, heq.symm⟩
    · rintro (⟨r, hr, hole, hhole, -, rfl⟩ | ⟨move, hmove, -⟩)
      · rw [(hrem r hr hole hhole).2]
        exact (mem_parts h).mp ⟨r, hr, hhole⟩
      · cases hmove
  · simp [hmoves, destination]

theorem executed : Executed p p.defragment.2 := by
  have htail := (plan_suffix h).le
  unfold defragment
  dsimp only
  split
  · exact executed_execute h
  · next hchanged =>
    simp only [Defragged.changed, Bool.or_eq_true, decide_eq_true_eq, not_or, Nat.not_lt, Nat.le_zero] at hchanged
    refine executed_unchanged h (List.length_eq_zero_iff.mp hchanged.1) ?_
    have := hchanged.2
    simp only [tail] at htail this ⊢
    omega

end

/-! ### The space after a pass -/

namespace Executed

section

variable (e : Executed p q)

include e

/-- The span of an account after the pass: the target of a move from it, or where it was. -/
theorem live_cases (h : p.SpacePartition) (hkey : q.held (.inl key) = some r) :
    ∃ data, p.index.accounts.lookup key = some data ∧
      ((∃ move ∈ p.plan.moves, move.src = data.offset ∧ r = target move) ∨
        (∀ move ∈ p.plan.moves, move.src ≠ data.offset) ∧ p.held (.inl key) = some r) := by
  obtain ⟨data', hk', rfl⟩ := Option.map_eq_some_iff.mp hkey
  rw [e.accounts] at hk'
  obtain ⟨data, hk, rfl⟩ := Option.map_eq_some_iff.mp hk'
  obtain ⟨s, hs, hheld⟩ := live_region h hk
  have hspan : q.mem.span (destination p.plan.moves data.offset) = s.units := by
    rw [Memory.span, e.mem key data hk, hs]
    rfl
  refine ⟨data, hk, ?_⟩
  dsimp only
  rw [hspan]
  by_cases hmoved : ∃ move ∈ p.plan.moves, move.src = data.offset
  · obtain ⟨move, hmove, hsrc⟩ := hmoved
    refine .inl ⟨move, hmove, hsrc, ?_⟩
    obtain ⟨-, -, s', -, -, hs', hunits, -⟩ := plan_source h hmove
    rw [hsrc, hs] at hs'
    rw [← hsrc, destination_of_mem (src_ne h) hmove, target, ← hunits, Option.some.inj hs']
  · have hstay : ∀ move ∈ p.plan.moves, move.src ≠ data.offset := fun move hmove hsrc => hmoved ⟨move, hmove, hsrc⟩
    refine .inr ⟨hstay, ?_⟩
    rw [destination_of_notMem hstay]
    exact hheld

theorem held_moved (h : p.SpacePartition) (hmove : move ∈ p.plan.moves) :
    ∃ key, q.held (.inl key) = some (target move) := by
  obtain ⟨key, data, s, hk, ho, hs, hunits, -⟩ := plan_source h hmove
  refine ⟨key, ?_⟩
  have hk' := e.accounts key
  rw [hk, Option.map_some, ho, destination_of_mem (src_ne h) hmove] at hk'
  have hs' := e.mem key data hk
  rw [ho, destination_of_mem (src_ne h) hmove, hs] at hs'
  rw [held_account hk' hs', hunits]
  rfl

theorem held_stayed (h : p.SpacePartition) (hk : p.index.accounts.lookup key = some data)
    (hstay : ∀ move ∈ p.plan.moves, move.src ≠ data.offset) : q.held (.inl key) = p.held (.inl key) := by
  obtain ⟨s, hs, hheld⟩ := live_region h hk
  have hk' := e.accounts key
  rw [hk, Option.map_some, destination_of_notMem hstay] at hk'
  have hs' := e.mem key data hk
  rw [destination_of_notMem hstay, hs] at hs'
  rw [hheld, held_account hk' hs']

/-- A free span after the pass: the rest of a hole behind the front of its run, or a vacated source. -/
theorem free_cases (h : p.SpacePartition) {f : Nat × Nat} (hf : q.held (.inr f) = some r) :
    (∃ run ∈ p.plan.runs, ∃ hole ∈ run.parts, f = remainder run p.tail hole ∧ 0 < r.size ∧
      ∀ u, r.Has u ↔ hole.offset ≤ u ∧ u < hole.stop ∧ run.offset ≤ u ∧ u < p.tail) ∨
      ∃ move ∈ p.plan.moves, move.src < p.tail ∧ f = (move.units, move.src) ∧ r = ⟨move.src, move.units⟩ := by
  obtain ⟨hmem, rfl⟩ := mem_of_held_free hf
  rcases (e.free f).mp hmem with ⟨run, hrun, hole, hhole, hlt, rfl⟩ | ⟨move, hmove, hlt, rfl⟩
  · refine .inl ⟨run, hrun, hole, hhole, rfl, Nat.sub_pos_of_lt hlt, fun u => ?_⟩
    simp only [Has, remainder]
    omega
  · -- the tail does not cut through a source
    have hcut : min move.stop p.tail - move.src = move.units := by
      have := (plan_suffix h).moves_cut move hmove
      simp only [Move.stop] at *
      omega
    rw [hcut]
    exact .inr ⟨move, hmove, hlt, rfl, rfl⟩

omit e in
theorem not_vacant_target (h : p.SpacePartition) (hmove : move ∈ p.plan.moves) (hu : (target move).Has u) :
    ¬p.Vacant u := by
  obtain ⟨run, hrun, hlow, hhigh⟩ := plan_target h hmove hu
  have hoffset : run.offset ≤ run.stop := Nat.le_add_right _ _
  rintro (⟨other, hother, hin⟩ | ⟨other, hother, hin⟩)
  · have hstarted := (plan_spec h).1.started other hother
    rcases plan_runs_apart h hrun hother with rfl | hapart | hapart <;> omega
  · obtain ⟨key, -, -, -, hheld⟩ := held_source h hother
    obtain ⟨f, a, hf, ha⟩ := free_of_target h hmove hu
    exact not_live_of_free h hheld hin hf ha

/-- After the pass every unit below the old cursor is either live or vacant. -/
theorem live_iff (h : p.SpacePartition) (hu : u < p.storage.cursor) :
    (∃ key r, q.held (.inl key) = some r ∧ r.Has u) ↔ ¬p.Vacant u := by
  constructor
  · rintro ⟨key, r, hkey, hin⟩
    obtain ⟨data, hk, ⟨move, hmove, -, rfl⟩ | ⟨hstay, hheld⟩⟩ := e.live_cases h hkey
    · exact not_vacant_target h hmove hin
    · rintro (⟨run, hrun, hrunin⟩ | ⟨move, hmove, hmovein⟩)
      · obtain ⟨f, a, hf, ha⟩ := free_of_run h hrun (((plan_spec h).1.started run hrun).trans hrunin.1) hrunin.2
        exact not_live_of_free h hheld hin hf ha
      · obtain ⟨key', data', hk', ho', hheld'⟩ := held_source h hmove
        cases h.tiling.toLayout.holder_unique hheld hheld' hin hmovein
        cases hk.symm.trans hk'
        exact hstay move hmove ho'.symm
  · intro hvacant
    obtain ⟨i, r, hi, hin⟩ := h.tiling.covered u hu
    cases i with
    | inl key =>
      obtain ⟨data, hk, hr⟩ := Option.map_eq_some_iff.mp hi
      have hstay : ∀ move ∈ p.plan.moves, move.src ≠ data.offset := by
        intro move hmove hsrc
        obtain ⟨-, -, s, -, -, hs, hunits, -⟩ := plan_source h hmove
        refine hvacant (.inr ⟨move, hmove, ?_⟩)
        rw [← hr, ← hsrc, Memory.span, hs] at hin
        rw [Move.stop, ← hunits]
        exact hin
      exact ⟨key, r, by rw [e.held_stayed h hk hstay, hi], hin⟩
    | inr f =>
      obtain ⟨hf, rfl⟩ := mem_of_held_free hi
      obtain ⟨run, hrun, hhole⟩ := (@mem_parts p h ⟨f.2, f.1⟩).mpr hf
      obtain ⟨hlow, hhigh⟩ := (plan_run h hrun).1 _ hhole
      simp only [Has, Hole.stop] at hin hlow hhigh
      -- a hole unit behind the front would be vacant
      have hfront : u < run.offset := by
        by_contra hge
        exact hvacant (.inl ⟨run, hrun, by omega, by omega⟩)
      obtain ⟨move, hmove, hmovein⟩ := (plan_spec h).1.filled run hrun u (by omega) hfront
      obtain ⟨key, hkey⟩ := e.held_moved h hmove
      exact ⟨key, _, hkey, hmovein⟩

theorem live_below (h : p.SpacePartition) (hkey : q.held (.inl key) = some r) (hin : r.Has u) :
    u < p.storage.cursor := by
  obtain ⟨data, -, ⟨move, hmove, -, rfl⟩ | ⟨-, hheld⟩⟩ := e.live_cases h hkey
  · obtain ⟨f, a, hf, ha⟩ := free_of_target h hmove hin
    exact ha.2.trans_le (h.tiling.below _ _ hf)
  · exact hin.2.trans_le (h.tiling.below _ _ hheld)

theorem vacant_of_free (h : p.SpacePartition) {f : Nat × Nat} (hf : q.held (.inr f) = some r)
    (hin : r.Has u) : p.Vacant u := by
  rcases e.free_cases h hf with ⟨run, hrun, hole, hhole, -, -, hhas⟩ | ⟨move, hmove, -, -, rfl⟩
  · obtain ⟨-, hstop, hoffset, -⟩ := (hhas u).mp hin
    exact .inl ⟨run, hrun, hoffset, hstop.trans_le ((plan_run h hrun).1 hole hhole).2⟩
  · exact .inr ⟨move, hmove, hin⟩

private theorem below_tail (h : p.SpacePartition) {i : Holder} (hi : q.held i = some r) :
    r.start + r.size ≤ p.tail := by
  cases i with
  | inl key =>
    by_contra hlt
    have hpos : 0 < r.size := by
      obtain ⟨data, -, ⟨move, hmove, -, rfl⟩ | ⟨-, hheld⟩⟩ := e.live_cases h hi
      · exact target_pos h hmove
      · exact h.tiling.nonempty _ _ hheld
    -- the last unit of the span would be in the free suffix
    have hin : r.Has (r.start + r.size - 1) := ⟨by omega, by omega⟩
    have hcursor := e.live_below h hi hin
    refine (e.live_iff h hcursor).mp ⟨key, r, hi, hin⟩ ?_
    exact vacant_reverse.mp ((plan_suffix h).vacant _ (by omega) hcursor)
  | inr f =>
    rcases e.free_cases h hi with ⟨run, -, hole, -, -, hpos, hhas⟩ | ⟨move, hmove, hlt, -, rfl⟩
    · have := ((hhas (r.start + r.size - 1)).mp ⟨by omega, by omega⟩).2.2.2
      omega
    · rcases (plan_suffix h).moves_cut move hmove with hcut | hcut
      · exact hcut
      · omega

private theorem live_unique (h : p.SpacePartition) {key' : Pubkey} {r' : Region}
    (hkey : q.held (.inl key) = some r) (hkey' : q.held (.inl key') = some r') (hin : r.Has u) (hin' : r'.Has u) :
    key = key' := by
  have hfree : ∀ {key₀ : Pubkey} {r₀ : Region} {move : Move}, p.held (.inl key₀) = some r₀ → r₀.Has u →
      move ∈ p.plan.moves → (target move).Has u → False := fun hheld hin₀ hmove htarget => by
    obtain ⟨f, a, hf, ha⟩ := free_of_target h hmove htarget
    exact not_live_of_free h hheld hin₀ hf ha
  obtain ⟨data, hk, ⟨move, hmove, hsrc, rfl⟩ | ⟨-, hheld⟩⟩ := e.live_cases h hkey <;>
    obtain ⟨data', hk', ⟨move', hmove', hsrc', rfl⟩ | ⟨-, hheld'⟩⟩ := e.live_cases h hkey'
  · have hsymm : Std.Symm fun a b : Move => Apart (target a) (target b) := ⟨fun _ _ => Apart.symm⟩
    have hsame : move = move' := by
      by_contra hne
      exact ((plan_spec h).1.apart.forall hmove hmove' hne).not_has hin hin'
    exact (relocatable h).distinct key key' data data' hk hk' (by rw [← hsrc, ← hsrc', hsame])
  · exact (hfree hheld' hin' hmove hin).elim
  · exact (hfree hheld hin hmove' hin').elim
  · exact Sum.inl.inj (h.tiling.toLayout.holder_unique hheld hheld' hin hin')

private theorem free_unique (h : p.SpacePartition) {f f' : Nat × Nat} {r' : Region}
    (hf : q.held (.inr f) = some r) (hf' : q.held (.inr f') = some r') (hin : r.Has u) (hin' : r'.Has u) : f = f' := by
  have hmixed : ∀ {run : Run} {hole : Hole} {move : Move}, run ∈ p.plan.runs → hole ∈ run.parts →
      hole.offset ≤ u → u < hole.stop → move ∈ p.plan.moves → (⟨move.src, move.units⟩ : Region).Has u → False :=
    fun hrun hhole hlow hhigh hmove hsource => by
      obtain ⟨key, -, -, -, hheld⟩ := held_source h hmove
      exact not_live_of_free h hheld hsource (held_free ((mem_parts h).mp ⟨_, hrun, hhole⟩)) ⟨hlow, hhigh⟩
  rcases e.free_cases h hf with ⟨run, hrun, hole, hhole, rfl, -, hhas⟩ | ⟨move, hmove, -, rfl, rfl⟩ <;>
    rcases e.free_cases h hf' with ⟨run', hrun', hole', hhole', rfl, -, hhas'⟩ | ⟨move', hmove', -, rfl, rfl⟩
  · obtain ⟨hlow, hhigh, -⟩ := (hhas u).mp hin
    obtain ⟨hlow', hhigh', -⟩ := (hhas' u).mp hin'
    -- the unit is in one hole only, and a hole in one run only
    obtain ⟨hunits, hoffset⟩ : hole.units = hole'.units ∧ hole.offset = hole'.offset := by
      have := h.tiling.toLayout.holder_unique (held_free ((mem_parts h).mp ⟨run, hrun, hhole⟩))
        (held_free ((mem_parts h).mp ⟨run', hrun', hhole'⟩)) ⟨hlow, hhigh⟩ ⟨hlow', hhigh'⟩
      simpa using this
    have hin₁ := (plan_run h hrun).1 hole hhole
    have hin₂ := (plan_run h hrun').1 hole' hhole'
    rcases plan_runs_apart h hrun hrun' with rfl | hapart | hapart
    · simp only [remainder, Hole.stop, hunits, hoffset]
    · omega
    · omega
  · obtain ⟨hlow, hhigh, -⟩ := (hhas u).mp hin
    exact (hmixed hrun hhole hlow hhigh hmove' hin').elim
  · obtain ⟨hlow', hhigh', -⟩ := (hhas' u).mp hin'
    exact (hmixed hrun' hhole' hlow' hhigh' hmove hin).elim
  · obtain ⟨key, -, -, -, hheld⟩ := held_source h hmove
    obtain ⟨key', -, -, -, hheld'⟩ := held_source h hmove'
    cases h.tiling.toLayout.holder_unique hheld hheld' hin hin'
    have hregion := Option.some.inj (hheld.symm.trans hheld')
    simp only [Region.mk.injEq] at hregion
    rw [hregion.1, hregion.2]

private theorem covered (h : p.SpacePartition) (hu : u < p.tail) :
    ∃ i r, q.held i = some r ∧ r.Has u := by
  by_cases hvacant : p.Vacant u
  · rcases hvacant with ⟨run, hrun, hlow, hhigh⟩ | ⟨move, hmove, hlow, hhigh⟩
    · obtain ⟨hole, hhole, hin⟩ := (plan_run h hrun).2 u (((plan_spec h).1.started run hrun).trans hlow) hhigh
      have hfree := (e.free (remainder run p.tail hole)).mpr (.inl ⟨run, hrun, hole, hhole, by omega, rfl⟩)
      refine ⟨_, _, held_free hfree, ?_⟩
      simp only [Has]
      omega
    · have hfree := (e.free (min move.stop p.tail - move.src, move.src)).mpr (.inr ⟨move, hmove, by omega, rfl⟩)
      refine ⟨_, _, held_free hfree, ?_⟩
      simp only [Has]
      omega
  · obtain ⟨key, r, hkey, hin⟩ := (e.live_iff h (hu.trans_le (plan_suffix h).le)).mpr hvacant
    exact ⟨.inl key, r, hkey, hin⟩

/-- The space below the new cursor is partitioned. -/
theorem spacePartition (h : p.SpacePartition) : q.SpacePartition where
  programs_nodup := e.programs_nodup
  freelist_nodup := e.freelist_nodup
  mapped := e.mapped
  programs := e.exact
  indexed key data' hk' := by
    rw [e.accounts] at hk'
    obtain ⟨data, hk, rfl⟩ := Option.map_eq_some_iff.mp hk'
    obtain ⟨s, hs, hrest⟩ := h.indexed key data hk
    exact ⟨s, by rw [e.mem key data hk, hs], hrest⟩
  tiling := by
    rw [e.cursor]
    refine ⟨Layout.of_holder_unique (fun i r hi => ?_) (fun i j a b u hi hj ha hb => ?_) fun i r hi => e.below_tail h hi,
      fun u hu => e.covered h hu⟩
    · cases i with
      | inl key =>
        obtain ⟨data, -, ⟨move, hmove, -, rfl⟩ | ⟨-, hheld⟩⟩ := e.live_cases h hi
        · exact target_pos h hmove
        · exact h.tiling.nonempty _ _ hheld
      | inr f =>
        rcases e.free_cases h hi with ⟨-, -, -, -, -, hpos, -⟩ | ⟨move, hmove, -, -, rfl⟩
        · exact hpos
        · exact target_pos h hmove
    · have hdisjoint : ∀ {key : Pubkey} {f : Nat × Nat} {a b : Region}, q.held (.inl key) = some a →
          q.held (.inr f) = some b → a.Has u → b.Has u → False := fun hkey hf ha hb =>
        (e.live_iff h (e.live_below h hkey ha)).mp ⟨_, _, hkey, ha⟩ (e.vacant_of_free h hf hb)
      cases i with
      | inl key =>
        cases j with
        | inl key' => rw [e.live_unique h hi hj ha hb]
        | inr f => exact (hdisjoint hi hj ha hb).elim
      | inr f =>
        cases j with
        | inl key => exact (hdisjoint hj hi hb ha).elim
        | inr f' => rw [e.free_unique h hi hj ha hb]

end

end Executed

end PersistedStore

end MagicEngine
