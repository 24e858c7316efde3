import MagicEngine.Store.Defrag

/-!
# Planning a packing pass

What the plan of a pass looks like. The runs are the free spans in order, joined where they touch
(`runs_spec`). Packing only advances the offset of a run, over exactly the destinations it hands out, and only for
sources behind the run (`Plan`). The scan for the tail finds the first unit of the free suffix (`scan_spec`).
-/

namespace MagicEngine

open Regions Region

namespace Run

/-- Where the run began: the offset of its first hole. -/
def base (r : Run) : Nat := (r.parts.head?.map (·.offset)).getD 0

/-- A run as it is at the start: its holes are its units. -/
structure Chain (r : Run) : Prop where
  base : r.base = r.offset
  within : ∀ h ∈ r.parts, r.offset ≤ h.offset ∧ h.stop ≤ r.stop
  cover : ∀ u, r.offset ≤ u → u < r.stop → ∃ h ∈ r.parts, h.offset ≤ u ∧ u < h.stop

theorem Chain.single (h : Hole) : (single h).Chain where
  base := rfl
  within h' hh' := by
    obtain rfl := List.mem_singleton.mp hh'
    exact ⟨le_rfl, le_rfl⟩
  cover u hu hu' := ⟨h, List.mem_singleton.mpr rfl, hu, hu'⟩

theorem Chain.join {r : Run} (hr : r.Chain) (hne : r.parts ≠ []) {h : Hole} (hadj : h.offset = r.stop) :
    Chain { parts := r.parts ++ [h], offset := r.offset, units := h.stop - r.offset } where
  base := by
    rw [← hr.base, Run.base, Run.base, List.head?_append_of_ne_nil _ hne]
  within h' hh' := by
    have hstop : r.offset + (h.stop - r.offset) = h.stop := by
      have : r.offset ≤ r.stop := Nat.le_add_right _ _
      simp only [Hole.stop]
      omega
    simp only [Run.stop, hstop]
    rcases List.mem_append.mp hh' with hh' | hh'
    · have := hr.within h' hh'
      simp only [Hole.stop, Run.stop] at this hadj ⊢
      omega
    · obtain rfl := List.mem_singleton.mp hh'
      simp only [Hole.stop, Run.stop] at hadj ⊢
      omega
  cover u hu hu' := by
    by_cases hold : u < r.stop
    · obtain ⟨h', hh', hin⟩ := hr.cover u hu hold
      exact ⟨h', List.mem_append_left _ hh', hin⟩
    · refine ⟨h, List.mem_append_right _ (List.mem_singleton.mpr rfl), by omega, ?_⟩
      simp only [Run.stop, Hole.stop] at hu hu' hold hadj ⊢
      omega

end Run

namespace Defrag

/-! ### Runs -/

def Ascending (holes : List Hole) : Prop := holes.Pairwise fun a b => a.stop ≤ b.offset

private theorem runsFrom_spec {run : Run} {rest : List Hole} (hrun : run.Chain) (hne : run.parts ≠ [])
    (hrest : Ascending rest) (hbehind : ∀ h ∈ rest, run.stop ≤ h.offset) :
    (∀ r ∈ runsFrom run rest, r.Chain ∧ run.offset ≤ r.offset) ∧
      (runsFrom run rest).Pairwise (fun a b => a.stop ≤ b.base) ∧
      (runsFrom run rest).flatMap Run.parts = run.parts ++ rest := by
  induction rest generalizing run with
  | nil => simp [runsFrom, hrun]
  | cons h rest ih =>
    obtain ⟨hfirst, hrest⟩ := List.pairwise_cons.mp hrest
    unfold runsFrom
    split
    · next hadj =>
      obtain ⟨hall, hpair, hparts⟩ := ih (hrun.join hne hadj) (by simp) hrest fun h' hh' => by
        have := hfirst h' hh'
        have := hbehind h (List.mem_cons_self)
        simp only [Run.stop, Hole.stop] at *
        omega
      exact ⟨hall, hpair, by simpa using hparts⟩
    · obtain ⟨hall, hpair, hparts⟩ := ih (Run.Chain.single h) (by simp [Run.single]) hrest hfirst
      have hlater : ∀ r ∈ runsFrom (.single h) rest, run.stop ≤ r.offset := fun r hr =>
        (hbehind h List.mem_cons_self).trans (hall r hr).2
      refine ⟨?_, ?_, ?_⟩
      · intro r hr
        rcases List.mem_cons.mp hr with rfl | hr
        · exact ⟨hrun, le_rfl⟩
        · exact ⟨(hall r hr).1, (Nat.le_add_right _ _).trans (hlater r hr)⟩
      · refine List.pairwise_cons.mpr ⟨fun r hr => ?_, hpair⟩
        rw [(hall r hr).1.base]
        exact hlater r hr
      · rw [List.flatMap_cons, hparts]
        rfl

/-- The runs in order, and their holes are all the holes. -/
theorem runs_spec {holes : List Hole} (h : Ascending holes) :
    (∀ r ∈ runs holes, r.Chain) ∧ (runs holes).Pairwise (fun a b => a.stop ≤ b.base) ∧
      (runs holes).flatMap Run.parts = holes := by
  cases holes with
  | nil => simp [runs]
  | cons hole rest =>
    obtain ⟨hfirst, hrest⟩ := List.pairwise_cons.mp h
    obtain ⟨hall, hpair, hparts⟩ := runsFrom_spec (Run.Chain.single hole) (by simp [Run.single]) hrest hfirst
    exact ⟨fun r hr => (hall r hr).1, hpair, hparts⟩

/-! ### Packing -/

def target (move : Move) : Region := ⟨move.dst, move.units⟩

/-- The parts and the end of the runs, which packing does not change. -/
def shape (r : Run) : List Hole × Nat := (r.parts, r.stop)

/-- What holds throughout the packing of the runs `initial`: the consumed front of each run is exactly the targets in
it, and the set lists runs in front of `eligible` as they are. -/
structure Plan (m : Memory) (initial : List Run) (s : Packing) : Prop where
  shape : s.runs.map Defrag.shape = initial.map Defrag.shape
  started : ∀ r ∈ s.runs, r.base ≤ r.offset
  targets : ∀ move ∈ s.moves, move.units = m.span move.src ∧
    ∃ r ∈ s.runs, r.base ≤ move.dst ∧ move.dst + move.units ≤ r.offset ∧ r.stop ≤ move.src
  filled : ∀ r ∈ s.runs, ∀ u, r.base ≤ u → u < r.offset → ∃ move ∈ s.moves, (target move).Has u
  apart : s.moves.Pairwise fun a b => Apart (target a) (target b)
  eligible : s.eligible ≤ s.runs.length
  fits : ∀ f ∈ s.set, f.2.2 < s.eligible ∧ ∃ r, s.runs[f.2.2]? = some r ∧ f = r.fit f.2.2

variable {m : Memory} {initial : List Run} {s : Packing} {src units : Nat} {runs : List Run}

theorem pairwise_of_shape (h : runs.map shape = initial.map shape)
    (hord : initial.Pairwise fun a b => a.stop ≤ b.base) : runs.Pairwise fun a b => a.stop ≤ b.base := by
  have hpair : (initial.map shape).Pairwise fun a b => a.2 ≤ (b.1.head?.map (·.offset)).getD 0 :=
    List.pairwise_map.mpr hord
  rw [← h] at hpair
  exact List.pairwise_map.mp hpair

theorem Plan.start (hchain : ∀ r ∈ initial, r.Chain) : Plan m initial (start initial) where
  shape := rfl
  started r hr := (hchain r hr).base.le
  targets _ h := (List.not_mem_nil h).elim
  filled r hr u hu hu' := by
    rw [(hchain r hr).base] at hu
    exact (Nat.not_lt_of_le hu hu').elim
  apart := .nil
  eligible := le_rfl
  fits f hf := by
    obtain ⟨i, hi, rfl⟩ := List.mem_mapIdx.mp ((List.mem_insertionSort _).mp hf)
    exact ⟨hi, initial[i], List.getElem?_eq_getElem hi, rfl⟩

private theorem retire_spec {e : Nat} {set : List Fit} (he : e ≤ runs.length)
    (hset : ∀ f ∈ set, f.2.2 < e ∧ ∃ r, runs[f.2.2]? = some r ∧ f = r.fit f.2.2) :
    (retire src runs e set).1 ≤ e ∧
      (∀ f ∈ (retire src runs e set).2, f ∈ set ∧ f.2.2 < (retire src runs e set).1) ∧
      ∀ r, runs[(retire src runs e set).1 - 1]? = some r → 0 < (retire src runs e set).1 → r.stop ≤ src := by
  induction e generalizing set with
  | zero => exact ⟨le_rfl, fun f hf => ⟨hf, (hset f hf).1⟩, fun r _ h => absurd h (Nat.lt_irrefl 0)⟩
  | succ i ih =>
    have hi : runs[i]? = some runs[i] := List.getElem?_eq_getElem he
    unfold retire
    rw [hi]
    dsimp only
    split
    · -- the run at `i` leaves the set, and it is the only one at this position
      obtain ⟨hle, hsub, hstop⟩ := @ih (remove set (runs[i].fit i)) (Nat.le_of_succ_le he) fun f hf => by
        obtain ⟨hmem, hne⟩ := List.mem_filter.mp hf
        obtain ⟨hlt, r, hr, hfit⟩ := hset f hmem
        refine ⟨?_, r, hr, hfit⟩
        rcases Nat.lt_succ_iff_lt_or_eq.mp hlt with hlt | heq
        · exact hlt
        · rw [heq, hi] at hr
          rw [← Option.some.inj hr, heq] at hfit
          simp [← hfit] at hne
      exact ⟨hle.trans (Nat.le_succ i), fun f hf => ⟨List.mem_of_mem_filter (hsub f hf).1, (hsub f hf).2⟩, hstop⟩
    · next hstop =>
      refine ⟨le_rfl, fun f hf => ⟨hf, (hset f hf).1⟩, fun r hr _ => ?_⟩
      rw [Nat.add_sub_cancel, hi] at hr
      rw [← Option.some.inj hr]
      exact Nat.le_of_not_lt hstop

private theorem fit_spec {set : List Fit} {f : Fit} (h : fit set units = some f) : f ∈ set ∧ units ≤ f.1 := by
  unfold fit at h
  split at h
  · cases h
  · split at h
    · cases h
    · split at h
      · next found hfound =>
        cases h
        have := List.find?_some hfound
        exact ⟨List.mem_of_find?_eq_some hfound, by simpa [eq_comm] using Nat.le_of_eq (of_decide_eq_true this).symm⟩
      · split at h
        · cases h
        · have := List.find?_some h
          exact ⟨List.mem_of_find?_eq_some h, (Nat.le_add_right _ _).trans (of_decide_eq_true this)⟩

theorem Plan.eq_or_apart (h : Plan m initial s) (hord : initial.Pairwise fun a b => a.stop ≤ b.base) {a b : Run}
    (ha : a ∈ s.runs) (hb : b ∈ s.runs) : a = b ∨ a.stop ≤ b.base ∨ b.stop ≤ a.base := by
  have hpair : s.runs.Pairwise fun a b => a.stop ≤ b.base ∨ b.stop ≤ a.base :=
    (pairwise_of_shape h.shape hord).imp Or.inl
  have hsymm : Std.Symm fun a b : Run => a.stop ≤ b.base ∨ b.stop ≤ a.base := ⟨fun _ _ => Or.symm⟩
  by_cases heq : a = b
  · exact .inl heq
  · exact .inr (hpair.forall ha hb heq)

private theorem mem_set_of_ne {i : Nat} {run rest r : Run} (hi : runs[i]? = some run) (hr : r ∈ runs)
    (hne : r ≠ run) : r ∈ runs.set i rest := by
  obtain ⟨j, hj⟩ := List.mem_iff_getElem?.mp hr
  refine List.mem_iff_getElem?.mpr ⟨j, ?_⟩
  rw [List.getElem?_set_ne, hj]
  rintro rfl
  rw [hi] at hj
  exact hne (Option.some.inj hj).symm

private theorem Plan.take (h : Plan m initial s) (hord : initial.Pairwise fun a b => a.stop ≤ b.base) {i : Nat} {run : Run}
    (hi : s.runs[i]? = some run) (hunits : m.span src ≤ run.units) (hstop : run.stop ≤ src) {set : List Fit}
    (hset : ∀ f ∈ set, f = (run.take (m.span src)).fit i ∧ i < s.eligible ∨ f ∈ s.set ∧ f ≠ run.fit i) :
    Plan m initial { s with
      runs := s.runs.set i (run.take (m.span src))
      set
      moves := s.moves ++ [{ src, dst := run.offset, units := m.span src }] } := by
  have hrun : run ∈ s.runs := List.mem_of_getElem? hi
  have hlt : i < s.runs.length := (List.getElem?_eq_some_iff.mp hi).1
  have hrest : (run.take (m.span src)).stop = run.stop := by
    simp only [Run.stop, Run.take]
    omega
  have hnew : run.take (m.span src) ∈ s.runs.set i (run.take (m.span src)) := List.mem_set hlt _
  have hbase := h.started run hrun
  refine ⟨?_, ?_, ?_, ?_, ?_, by rw [List.length_set]; exact h.eligible, ?_⟩
  · rw [← h.shape, List.map_set]
    refine List.ext_getElem? fun j => ?_
    rw [List.getElem?_set]
    split
    · next hj =>
      subst hj
      rw [List.length_map, if_pos hlt, List.getElem?_map, hi]
      have hshape : Defrag.shape (run.take (m.span src)) = Defrag.shape run := Prod.ext rfl hrest
      exact congrArg some hshape
    · rfl
  · intro r hr
    rcases List.mem_or_eq_of_mem_set hr with hr | rfl
    · exact h.started r hr
    · exact hbase.trans (Nat.le_add_right _ _)
  · intro move hmove
    rcases List.mem_append.mp hmove with hmove | hmove
    · obtain ⟨hspan, r, hr, hlow, hhigh, hsrc⟩ := h.targets move hmove
      refine ⟨hspan, ?_⟩
      by_cases heq : r = run
      · subst heq
        exact ⟨_, hnew, hlow, hhigh.trans (Nat.le_add_right _ _), hrest ▸ hsrc⟩
      · exact ⟨r, mem_set_of_ne hi hr heq, hlow, hhigh, hsrc⟩
    · obtain rfl := List.mem_singleton.mp hmove
      exact ⟨rfl, _, hnew, hbase, le_rfl, hrest ▸ hstop⟩
  · intro r hr u hu hu'
    rcases List.mem_or_eq_of_mem_set hr with hr | rfl
    · obtain ⟨move, hmove, hin⟩ := h.filled r hr u hu hu'
      exact ⟨move, List.mem_append_left _ hmove, hin⟩
    · by_cases hold : u < run.offset
      · obtain ⟨move, hmove, hin⟩ := h.filled run hrun u hu hold
        exact ⟨move, List.mem_append_left _ hmove, hin⟩
      · exact ⟨_, List.mem_append_right _ (List.mem_singleton.mpr rfl), Nat.le_of_not_lt hold, hu'⟩
  · refine List.pairwise_append.mpr ⟨h.apart, List.pairwise_singleton _ _, fun move hmove new hnew => ?_⟩
    obtain rfl := List.mem_singleton.mp hnew
    obtain ⟨-, r, hr, hlow, hhigh, -⟩ := h.targets move hmove
    have hrbase := h.started r hr
    have hroffset : r.offset ≤ r.stop := Nat.le_add_right _ _
    have hend : run.offset + m.span src ≤ run.stop := Nat.add_le_add_left hunits _
    simp only [Apart, target]
    rcases h.eq_or_apart hord hr hrun with rfl | hrr | hrr <;> omega
  · intro f hf
    rcases hset f hf with ⟨rfl, he⟩ | ⟨hf, hne⟩
    · exact ⟨he, _, List.getElem?_set_self hlt, rfl⟩
    · obtain ⟨he, r, hr, hfit⟩ := h.fits f hf
      refine ⟨he, r, ?_, hfit⟩
      rw [List.getElem?_set_ne, hr]
      rintro rfl
      rw [hi] at hr
      exact hne (Option.some.inj hr ▸ hfit)

theorem Plan.place (h : Plan m initial s) (hord : initial.Pairwise fun a b => a.stop ≤ b.base)
    (hsrc : ∀ f ∈ s.set, ∀ r, s.runs[f.2.2]? = some r → r.stop ≤ src) :
    Plan m initial (place src (m.span src) s) ∧ ∃ picked, picked.Sublist [src] ∧
      (place src (m.span src) s).moves.map Move.src = s.moves.map Move.src ++ picked := by
  unfold Defrag.place
  split
  · exact ⟨h, [], List.nil_sublist _, by simp⟩
  · next found hfound =>
    obtain ⟨hmem, hunits⟩ := fit_spec hfound
    obtain ⟨helig, run, hi, hfit⟩ := h.fits found hmem
    have hstop := hsrc found hmem run hi
    rw [hi]
    dsimp only
    refine ⟨h.take hord hi ?_ hstop fun f hf => ?_, [src], List.Sublist.refl _, by simp⟩
    · rw [hfit] at hunits
      exact hunits
    · have hremoved : ∀ f ∈ remove s.set found, f ∈ s.set ∧ f ≠ run.fit found.2.2 := fun f hf => by
        rw [← hfit]
        simpa [remove] using hf
      split at hf
      · rcases (List.mem_orderedInsert _).mp hf with rfl | hf
        · exact .inl ⟨rfl, helig⟩
        · exact .inr (hremoved f hf)
      · exact .inr (hremoved f hf)

/-- Packing keeps the plan, and takes its sources from the accounts in their order. -/
theorem Plan.pack (h : Plan m initial s) (hord : initial.Pairwise fun a b => a.stop ≤ b.base) (accounts : List Nat) :
    Plan m initial (pack m s accounts) ∧ ∃ picked, picked.Sublist accounts ∧
      (pack m s accounts).moves.map Move.src = s.moves.map Move.src ++ picked := by
  induction accounts generalizing s with
  | nil => exact ⟨h, [], List.Sublist.refl _, by simp [Defrag.pack]⟩
  | cons src rest ih =>
    obtain ⟨hle, hsub, hstop⟩ := @retire_spec src s.runs s.eligible s.set h.eligible h.fits
    unfold Defrag.pack
    generalize retire src s.runs s.eligible s.set = retired at hle hsub hstop ⊢
    obtain ⟨eligible, set⟩ := retired
    dsimp only at hle hsub hstop ⊢
    have hplan : Plan m initial { s with eligible, set } :=
      ⟨h.shape, h.started, h.targets, h.filled, h.apart, hle.trans h.eligible,
        fun f hf => ⟨(hsub f hf).2, (h.fits f (hsub f hf).1).2⟩⟩
    split
    · exact ⟨hplan, [], List.nil_sublist _, by simp⟩
    · have hbefore : ∀ f ∈ set, ∀ r, s.runs[f.2.2]? = some r → r.stop ≤ src := by
        intro f hf r hr
        have hlt := (hsub f hf).2
        have hbound := h.eligible
        have hvalid : eligible - 1 < s.runs.length := by omega
        have hlast : s.runs[eligible - 1]? = some s.runs[eligible - 1] := List.getElem?_eq_getElem hvalid
        have hend := hstop _ hlast (by omega)
        -- the runs are in order, so the last eligible one ends last
        rcases Nat.lt_or_ge f.2.2 (eligible - 1) with hfirst | hfirst
        · have hpair := List.pairwise_iff_getElem.mp (pairwise_of_shape h.shape hord) f.2.2 (eligible - 1)
            (by omega) hvalid hfirst
          obtain ⟨-, rfl⟩ := List.getElem?_eq_some_iff.mp hr
          have hstarted := h.started _ (List.mem_of_getElem? hlast)
          have : s.runs[eligible - 1].offset ≤ s.runs[eligible - 1].stop := Nat.le_add_right _ _
          omega
        · rw [show f.2.2 = eligible - 1 by omega, hlast] at hr
          rw [← Option.some.inj hr]
          exact hend
      obtain ⟨hplaced, picked, hpicked, hmoves⟩ := hplan.place hord hbefore
      obtain ⟨hpacked, picked', hpicked', hmoves'⟩ := ih hplaced
      exact ⟨hpacked, picked ++ picked', hpicked.append hpicked', by rw [hmoves', hmoves, List.append_assoc]⟩

/-! ### The free suffix -/

/-- What is free after the moves: the remainders of the runs and the sources. -/
def Vacant (runs : List Run) (moves : List Move) (u : Nat) : Prop :=
  (∃ r ∈ runs, r.offset ≤ u ∧ u < r.stop) ∨ ∃ move ∈ moves, move.src ≤ u ∧ u < move.stop

/-- Remainders and sources in descending order, apart from each other and below the tail. -/
structure Descending (runs : List Run) (moves : List Move) (tail : Nat) : Prop where
  runs_desc : runs.Pairwise fun a b => b.stop ≤ a.offset
  moves_desc : moves.Pairwise fun a b => b.stop ≤ a.src
  nonempty : ∀ move ∈ moves, 0 < move.units
  apart : ∀ r ∈ runs, ∀ move ∈ moves, r.stop ≤ move.src ∨ move.stop ≤ r.offset ∨ r.units = 0
  runs_below : ∀ r ∈ runs, r.stop ≤ tail
  moves_below : ∀ move ∈ moves, move.stop ≤ tail

/-- `t` is the first unit of the free suffix before `tail`, and cuts through no remainder and no source. -/
structure Suffix (runs : List Run) (moves : List Move) (tail t : Nat) : Prop where
  le : t ≤ tail
  vacant : ∀ u, t ≤ u → u < tail → Vacant runs moves u
  least : 0 < t → ¬Vacant runs moves (t - 1)
  runs_cut : ∀ r ∈ runs, 0 < r.units → r.stop ≤ t ∨ t ≤ r.offset
  moves_cut : ∀ move ∈ moves, move.stop ≤ t ∨ t ≤ move.src

variable {run : Run} {runs : List Run} {move : Move} {moves : List Move} {tail t : Nat}

private theorem Suffix.cons_empty (h : Suffix runs moves tail t) (hempty : run.units = 0) :
    Suffix (run :: runs) moves tail t where
  le := h.le
  vacant u hu hu' := (h.vacant u hu hu').imp_left fun ⟨r, hr, hin⟩ => ⟨r, List.mem_cons_of_mem _ hr, hin⟩
  least ht hv := by
    rcases hv with ⟨r, hr, hin⟩ | hv
    · rcases List.mem_cons.mp hr with rfl | hr
      · simp only [Run.stop] at hin
        omega
      · exact h.least ht (.inl ⟨r, hr, hin⟩)
    · exact h.least ht (.inr hv)
  runs_cut r hr hpos := by
    rcases List.mem_cons.mp hr with rfl | hr
    · omega
    · exact h.runs_cut r hr hpos
  moves_cut := h.moves_cut

/-- The suffix goes on through a remainder that ends at the tail. -/
private theorem Suffix.cons_run (h : Suffix runs moves run.offset t) : Suffix (run :: runs) moves run.stop t where
  le := h.le.trans (Nat.le_add_right _ _)
  vacant u hu hu' := by
    by_cases hin : run.offset ≤ u
    · exact .inl ⟨run, List.mem_cons_self, hin, hu'⟩
    · exact (h.vacant u hu (by omega)).imp_left fun ⟨r, hr, hin⟩ => ⟨r, List.mem_cons_of_mem _ hr, hin⟩
  least ht hv := by
    rcases hv with ⟨r, hr, hin⟩ | hv
    · rcases List.mem_cons.mp hr with rfl | hr
      · have := h.le
        omega
      · exact h.least ht (.inl ⟨r, hr, hin⟩)
    · exact h.least ht (.inr hv)
  runs_cut r hr hpos := by
    rcases List.mem_cons.mp hr with rfl | hr
    · exact .inr h.le
    · exact h.runs_cut r hr hpos
  moves_cut := h.moves_cut

private theorem Suffix.cons_move (h : Suffix runs moves move.src t) : Suffix runs (move :: moves) move.stop t where
  le := h.le.trans (Nat.le_add_right _ _)
  vacant u hu hu' := by
    by_cases hin : move.src ≤ u
    · exact .inr ⟨move, List.mem_cons_self, hin, hu'⟩
    · exact (h.vacant u hu (by omega)).imp_right fun ⟨r, hr, hin⟩ => ⟨r, List.mem_cons_of_mem _ hr, hin⟩
  least ht hv := by
    rcases hv with hv | ⟨r, hr, hin⟩
    · exact h.least ht (.inl hv)
    · rcases List.mem_cons.mp hr with rfl | hr
      · have := h.le
        omega
      · exact h.least ht (.inr ⟨r, hr, hin⟩)
  runs_cut := h.runs_cut
  moves_cut r hr := by
    rcases List.mem_cons.mp hr with rfl | hr
    · exact .inr h.le
    · exact h.moves_cut r hr

private theorem Suffix.stop (h : Descending runs moves tail) (hruns : ∀ r ∈ runs, 0 < r.units → r.stop < tail)
    (hmoves : ∀ move ∈ moves, move.stop < tail) : Suffix runs moves tail tail where
  le := le_rfl
  vacant u hu hu' := (Nat.not_lt_of_le hu hu').elim
  least ht hv := by
    rcases hv with ⟨r, hr, hin⟩ | ⟨move, hmove, hin⟩
    · have hpos : 0 < r.units := by
        simp only [Run.stop] at hin
        omega
      have := hruns r hr hpos
      omega
    · have := hmoves move hmove
      omega
  runs_cut r hr _ := .inl (h.runs_below r hr)
  moves_cut move hmove := .inl (h.moves_below move hmove)

private theorem Descending.tail_runs (h : Descending (run :: runs) moves tail) : Descending runs moves tail where
  runs_desc := (List.pairwise_cons.mp h.runs_desc).2
  moves_desc := h.moves_desc
  nonempty := h.nonempty
  apart r hr := h.apart r (List.mem_cons_of_mem _ hr)
  runs_below r hr := h.runs_below r (List.mem_cons_of_mem _ hr)
  moves_below := h.moves_below

/-- A remainder that is not before the next source is behind all sources. -/
private theorem Descending.moves_before (h : Descending (run :: runs) moves tail) (hpos : 0 < run.units)
    (hfirst : ∀ move ∈ moves.head?, move.src ≤ run.offset) : ∀ move ∈ moves, move.stop ≤ run.offset := by
  cases moves with
  | nil => nofun
  | cons first rest =>
    have hsrc : first.src ≤ run.offset := hfirst first rfl
    intro move hmove
    rcases List.mem_cons.mp hmove with rfl | hlater
    · rcases h.apart run List.mem_cons_self move hmove with hapart | hapart | hapart
      · simp only [Run.stop] at hapart
        omega
      · exact hapart
      · omega
    · exact ((List.pairwise_cons.mp h.moves_desc).1 move hlater).trans hsrc

private theorem Descending.before_run (h : Descending (run :: runs) moves tail)
    (hmoves : ∀ move ∈ moves, move.stop ≤ run.offset) : Descending runs moves run.offset :=
  { h.tail_runs with
    runs_below := (List.pairwise_cons.mp h.runs_desc).1
    moves_below := hmoves }

/-- A source that is behind the next remainder is behind all remainders. -/
private theorem Descending.runs_before (h : Descending runs (move :: moves) tail)
    (hfirst : ∀ run ∈ runs.head?, run.offset < move.src ∧ 0 < run.units) : ∀ r ∈ runs, r.stop ≤ move.src := by
  cases runs with
  | nil => nofun
  | cons first rest =>
    obtain ⟨hsrc, hpos⟩ := hfirst first rfl
    have hmove := h.nonempty move List.mem_cons_self
    intro r hr
    rcases List.mem_cons.mp hr with rfl | hlater
    · rcases h.apart r hr move List.mem_cons_self with hapart | hapart | hapart
      · exact hapart
      · simp only [Move.stop] at hapart
        omega
      · omega
    · exact ((List.pairwise_cons.mp h.runs_desc).1 r hlater).trans hsrc.le

private theorem Descending.before_move (h : Descending runs (move :: moves) tail)
    (hruns : ∀ r ∈ runs, r.stop ≤ move.src) : Descending runs moves move.src where
  runs_desc := h.runs_desc
  moves_desc := (List.pairwise_cons.mp h.moves_desc).2
  nonempty m hm := h.nonempty m (List.mem_cons_of_mem _ hm)
  apart r hr m hm := h.apart r hr m (List.mem_cons_of_mem _ hm)
  runs_below := hruns
  moves_below := (List.pairwise_cons.mp h.moves_desc).1

private theorem Descending.stop_run (h : Descending (run :: runs) moves tail) (hpos : 0 < run.units)
    (hmoves : ∀ move ∈ moves, move.stop ≤ run.offset) (hstop : run.stop ≠ tail) : Suffix (run :: runs) moves tail tail := by
  have hlt := lt_of_le_of_ne (h.runs_below run List.mem_cons_self) hstop
  have hoffset : run.offset < run.stop := Nat.lt_add_of_pos_right hpos
  refine Suffix.stop h (fun r hr _ => ?_) fun m hm => ((hmoves m hm).trans_lt hoffset).trans hlt
  rcases List.mem_cons.mp hr with rfl | hr
  · exact hlt
  · exact (((List.pairwise_cons.mp h.runs_desc).1 r hr).trans_lt hoffset).trans hlt

private theorem Descending.stop_move (h : Descending runs (move :: moves) tail)
    (hruns : ∀ r ∈ runs, r.stop ≤ move.src) (hstop : move.stop ≠ tail) : Suffix runs (move :: moves) tail tail := by
  have hlt := lt_of_le_of_ne (h.moves_below move List.mem_cons_self) hstop
  have hsrc : move.src < move.stop := Nat.lt_add_of_pos_right (h.nonempty move List.mem_cons_self)
  refine Suffix.stop h (fun r hr _ => ((hruns r hr).trans_lt hsrc).trans hlt) fun m hm => ?_
  rcases List.mem_cons.mp hm with rfl | hm
  · exact hlt
  · exact (((List.pairwise_cons.mp h.moves_desc).1 m hm).trans_lt hsrc).trans hlt

/-- The scan finds the free suffix. -/
theorem scan_spec (h : Descending runs moves tail) : Suffix runs moves tail (scan runs moves tail) := by
  fun_induction scan runs moves tail with
  | case1 run runs moves tail hempty ih => exact (ih h.tail_runs).cons_empty hempty
  | case2 run runs tail hne hstop =>
    exact h.stop_run (Nat.pos_of_ne_zero hne) nofun hstop
  | case3 run runs tail hne hstop ih =>
    obtain rfl := not_not.mp hstop
    exact (ih (h.before_run nofun)).cons_run
  | case4 run runs tail hne move rest hge hstop =>
    exact h.stop_run (Nat.pos_of_ne_zero hne) (h.moves_before (Nat.pos_of_ne_zero hne) (by simpa using hge)) hstop
  | case5 run runs tail hne move rest hge hstop ih =>
    obtain rfl := not_not.mp hstop
    exact (ih (h.before_run (h.moves_before (Nat.pos_of_ne_zero hne) (by simpa using hge)))).cons_run
  | case6 run runs tail hne move rest hlt hstop =>
    exact h.stop_move (h.runs_before (by simp; omega)) hstop
  | case7 run runs tail hne move rest hlt hstop ih =>
    obtain rfl := not_not.mp hstop
    exact (ih (h.before_move (h.runs_before (by simp; omega)))).cons_move
  | case8 tail move rest hstop => exact h.stop_move nofun hstop
  | case9 tail move rest hstop ih =>
    obtain rfl := not_not.mp hstop
    exact (ih (h.before_move nofun)).cons_move
  | case10 tail => exact Suffix.stop h nofun nofun

end Defrag

end MagicEngine
