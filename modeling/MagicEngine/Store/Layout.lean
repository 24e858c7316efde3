import MagicEngine.Store.Packing
import MagicEngine.Store.Partition

/-!
# The plan of a store

The plan that a pass makes for a store whose space is partitioned. Every source is the span of an account, every unit
of a target was free, and a unit that was free stays vacant exactly if no target covers it.
-/

namespace MagicEngine

open Regions Region Defrag

instance : Std.Total Hole.Le where
  total a b := by
    unfold Hole.Le
    omega

instance : IsTrans Hole Hole.Le where
  trans a b c hab hbc := by
    unfold Hole.Le at *
    omega

namespace Defrag

theorem mem_holes {index : Index} {h : Hole} : h ∈ holes index ↔ (h.units, h.offset) ∈ index.freelist := by
  simp only [holes, List.mem_insertionSort, List.mem_map, Prod.exists]
  constructor
  · rintro ⟨units, offset, hmem, rfl⟩
    exact hmem
  · intro hmem
    exact ⟨_, _, hmem, rfl⟩

theorem mem_accounts {index : Index} {o : Nat} :
    o ∈ accounts index ↔ ∃ key data, index.accounts.lookup key = some data ∧ data.offset = o := by
  simp only [accounts, Finset.mem_sort, Finset.mem_image, Finmap.mem_keys]
  constructor
  · rintro ⟨key, hkey, rfl⟩
    obtain ⟨data, hdata⟩ := Finmap.mem_iff.mp hkey
    exact ⟨key, data, hdata, by rw [hdata]; rfl⟩
  · rintro ⟨key, data, hdata, rfl⟩
    exact ⟨key, Finmap.mem_iff.mpr ⟨data, hdata⟩, by rw [hdata]; rfl⟩

theorem accounts_desc (index : Index) : (accounts index).Pairwise (· > ·) := (Finset.sortedGT_sort _).pairwise

end Defrag

namespace PersistedStore

variable {p : PersistedStore} {u : Nat}

section

variable (h : p.SpacePartition)

include h

theorem ascending_holes : Ascending (holes p.index) := by
  have hnodup : (holes p.index).Nodup := by
    refine (List.perm_insertionSort _ _).nodup_iff.mpr (h.freelist_nodup.map ?_)
    rintro ⟨a, b⟩ ⟨c, d⟩ heq
    simpa [and_comm] using heq
  refine ((List.pairwise_insertionSort Hole.Le _).and hnodup).imp_of_mem fun {a b} ha hb ⟨hle, hne⟩ => ?_
  have ha' := held_free (mem_holes.mp ha)
  have hb' := held_free (mem_holes.mp hb)
  have hapart := h.tiling.apart _ _ _ _ ha' hb' fun heq => hne (by
    obtain ⟨hunits, hoffset⟩ := Prod.mk.inj (Sum.inr.inj heq)
    cases a
    cases b
    simp_all)
  have hpos := h.tiling.nonempty _ _ ha'
  have hpos' := h.tiling.nonempty _ _ hb'
  unfold Hole.Le at hle
  unfold Apart at hapart
  simp only [Hole.stop] at *
  omega

theorem plan_spec :
    Plan p.mem (runs (holes p.index)) p.plan ∧ ∃ picked, picked.Sublist (accounts p.index) ∧
      p.plan.moves.map Move.src = picked := by
  obtain ⟨hchain, hord, -⟩ := runs_spec (ascending_holes h)
  have hstart : Plan p.mem (runs (holes p.index)) (Defrag.start (runs (holes p.index))) := Plan.start hchain
  obtain ⟨hplan, picked, hsub, hmoves⟩ :=
    hstart.pack hord (if holes p.index = [] then [] else accounts p.index)
  refine ⟨hplan, picked, ?_, hmoves⟩
  split at hsub
  · exact hsub.trans (List.nil_sublist _)
  · exact hsub

/-- A run of the plan: its holes lie in it and cover it. -/
theorem plan_run {r : Run} (hr : r ∈ p.plan.runs) :
    (∀ hole ∈ r.parts, r.base ≤ hole.offset ∧ hole.stop ≤ r.stop) ∧
      ∀ u, r.base ≤ u → u < r.stop → ∃ hole ∈ r.parts, hole.offset ≤ u ∧ u < hole.stop := by
  obtain ⟨hchain, -, -⟩ := runs_spec (ascending_holes h)
  have hmem := List.mem_map_of_mem (f := shape) hr
  rw [(plan_spec h).1.shape] at hmem
  obtain ⟨r₀, hr₀, heq⟩ := List.mem_map.mp hmem
  obtain ⟨hparts, hstop⟩ := Prod.mk.inj heq
  have hc := hchain r₀ hr₀
  have hbase : r.base = r₀.offset := by rw [← hc.base, Run.base, Run.base, hparts]
  rw [hbase, ← hparts, ← hstop]
  exact ⟨hc.within, hc.cover⟩

/-- The holes of the runs are all the holes, in order. -/
theorem plan_parts : p.plan.runs.flatMap Run.parts = holes p.index := by
  have hshape := congrArg (List.flatMap Prod.fst) (plan_spec h).1.shape
  rw [← (runs_spec (ascending_holes h)).2.2]
  simpa [List.flatMap_map, shape] using hshape

theorem mem_parts {hole : Hole} :
    (∃ r ∈ p.plan.runs, hole ∈ r.parts) ↔ (hole.units, hole.offset) ∈ p.index.freelist := by
  rw [← mem_holes, ← plan_parts h, List.mem_flatMap]

theorem plan_runs_apart {a b : Run} (ha : a ∈ p.plan.runs) (hb : b ∈ p.plan.runs) :
    a = b ∨ a.stop ≤ b.base ∨ b.stop ≤ a.base :=
  (plan_spec h).1.eq_or_apart (runs_spec (ascending_holes h)).2.1 ha hb

theorem free_of_run {r : Run} (hr : r ∈ p.plan.runs) (hu : r.base ≤ u) (hu' : u < r.stop) :
    ∃ f a, p.held (.inr f) = some a ∧ a.Has u := by
  obtain ⟨hole, hhole, hin⟩ := (plan_run h hr).2 u hu hu'
  exact ⟨_, _, held_free ((mem_parts h).mp ⟨r, hr, hhole⟩), hin⟩

variable {move : Move}

theorem plan_source (hmove : move ∈ p.plan.moves) :
    ∃ key data s, p.index.accounts.lookup key = some data ∧ data.offset = move.src ∧ p.mem move.src = some s ∧
      s.units = move.units ∧ s.pubkey = key ∧ s.active.core.owner.tail = data.owner := by
  obtain ⟨hplan, picked, hsub, hmoves⟩ := plan_spec h
  have hsrc : move.src ∈ picked := hmoves ▸ List.mem_map_of_mem hmove
  obtain ⟨key, data, hk, ho⟩ := mem_accounts.mp (hsub.subset hsrc)
  obtain ⟨s, hs, hpubkey, howner⟩ := h.indexed key data hk
  rw [ho] at hs
  refine ⟨key, data, s, hk, ho, hs, ?_, hpubkey, howner⟩
  rw [(hplan.targets move hmove).1, Memory.span, hs]
  rfl

theorem held_source (hmove : move ∈ p.plan.moves) :
    ∃ key data, p.index.accounts.lookup key = some data ∧ data.offset = move.src ∧
      p.held (.inl key) = some ⟨move.src, move.units⟩ := by
  obtain ⟨key, data, s, hk, ho, hs, hunits, -⟩ := plan_source h hmove
  exact ⟨key, data, hk, ho, by rw [held_account hk (ho ▸ hs), ho, hunits]⟩

theorem plan_moves_desc : p.plan.moves.Pairwise fun a b => b.stop ≤ a.src := by
  obtain ⟨-, picked, hsub, hmoves⟩ := plan_spec h
  have hpair : (p.plan.moves.map Move.src).Pairwise (· > ·) := hmoves ▸ (accounts_desc p.index).sublist hsub
  refine (List.pairwise_map.mp hpair).imp_of_mem fun {a b} ha hb hgt => ?_
  obtain ⟨key, data, hk, ho, hheld⟩ := held_source h ha
  obtain ⟨key', data', hk', ho', hheld'⟩ := held_source h hb
  have hne : Sum.inl key ≠ (Sum.inl key' : Holder) := by
    rintro heq
    obtain rfl := Sum.inl.inj heq
    cases hk.symm.trans hk'
    omega
  have hapart := h.tiling.apart _ _ _ _ hheld hheld' hne
  have hpos := h.tiling.nonempty _ _ hheld
  simp only [Apart, Move.stop] at *
  omega

/-- A unit of a target lies in the consumed front of a run. -/
theorem plan_target (hmove : move ∈ p.plan.moves) (hu : (target move).Has u) :
    ∃ r ∈ p.plan.runs, r.base ≤ u ∧ u < r.offset := by
  obtain ⟨-, r, hr, hlow, hhigh, -⟩ := (plan_spec h).1.targets move hmove
  exact ⟨r, hr, hlow.trans hu.1, hu.2.trans_le hhigh⟩

theorem free_of_target (hmove : move ∈ p.plan.moves) (hu : (target move).Has u) :
    ∃ f a, p.held (.inr f) = some a ∧ a.Has u := by
  obtain ⟨r, hr, hlow, hhigh⟩ := plan_target h hmove hu
  exact free_of_run h hr hlow (hhigh.trans_le (Nat.le_add_right _ _))

theorem not_live_of_free {key : Pubkey} {r : Region} (hkey : p.held (.inl key) = some r)
    (hin : r.Has u) {f : Nat × Nat} {a : Region} (hf : p.held (.inr f) = some a) (hu : a.Has u) : False :=
  nomatch h.tiling.toLayout.holder_unique hkey hf hin hu

/-! ### The scan -/

theorem plan_descending :
    Descending p.plan.runs.reverse p.plan.moves p.storage.cursor := by
  have hplan := (plan_spec h).1
  have hord := (runs_spec (ascending_holes h)).2.1
  have hpos : ∀ move ∈ p.plan.moves, 0 < move.units := fun move hmove => by
    obtain ⟨key, data, -, -, hheld⟩ := held_source h hmove
    exact h.tiling.nonempty _ _ hheld
  refine ⟨?_, plan_moves_desc h, hpos, ?_, ?_, ?_⟩
  · rw [List.pairwise_reverse]
    refine (pairwise_of_shape hplan.shape hord).imp_of_mem fun {a b} _ hb hab => hab.trans (hplan.started b hb)
  · intro r hr move hmove
    have hr := List.mem_reverse.mp hr
    by_cases hempty : r.units = 0
    · exact .inr (.inr hempty)
    obtain ⟨key, data, -, -, hheld⟩ := held_source h hmove
    have hapart : Apart ⟨r.offset, r.units⟩ ⟨move.src, move.units⟩ := by
      refine apart_of_not_has (Nat.pos_of_ne_zero hempty) (hpos move hmove) fun u hu hu' => ?_
      obtain ⟨f, a, hf, ha⟩ := free_of_run h hr ((hplan.started r hr).trans hu.1) hu.2
      exact not_live_of_free h hheld hu' hf ha
    rcases hapart with hapart | hapart
    · exact .inl hapart
    · exact .inr (.inl hapart)
  · intro r hr
    have hr := List.mem_reverse.mp hr
    have hstarted := hplan.started r hr
    obtain ⟨hwithin, hcover⟩ := plan_run h hr
    by_cases hnonempty : r.base < r.stop
    · obtain ⟨f, a, hf, ha⟩ := free_of_run h hr (show r.base ≤ r.stop - 1 by omega) (by omega)
      have := h.tiling.below _ _ hf
      have := ha.2
      omega
    · -- a run without units has no holes, and starts at zero
      cases hparts : r.parts with
      | nil =>
        have hbase : r.base = 0 := by rw [Run.base, hparts]; rfl
        omega
      | cons hole rest =>
        have hin := hwithin hole (hparts ▸ List.mem_cons_self)
        have hheld := held_free ((mem_parts h).mp ⟨r, hr, hparts ▸ List.mem_cons_self⟩)
        have := h.tiling.nonempty _ _ hheld
        simp only [Hole.stop] at *
        omega
  · intro move hmove
    obtain ⟨key, data, -, -, hheld⟩ := held_source h hmove
    exact h.tiling.below _ _ hheld

end

def tail (p : PersistedStore) : Nat := compactedTail p.plan p.storage.cursor

def Vacant (p : PersistedStore) (u : Nat) : Prop := Defrag.Vacant p.plan.runs p.plan.moves u

theorem plan_suffix (h : p.SpacePartition) :
    Suffix p.plan.runs.reverse p.plan.moves p.storage.cursor p.tail := scan_spec (plan_descending h)

theorem vacant_reverse : Defrag.Vacant p.plan.runs.reverse p.plan.moves u ↔ p.Vacant u := by
  simp [Vacant, Defrag.Vacant]

end PersistedStore

end MagicEngine
