import MagicEngine.Store.Layout

/-!
# Executing a plan

The three parts of the execution of a plan, each over a list of moves or holes: the copies (`foldl_copy`), the index
entries (`Relocatable.foldl`) and the freelist (`mem_publish`).
-/

namespace MagicEngine

open Regions Region

namespace Defrag

/-! ### Copies -/

section Copies

variable {m : Memory} {move : Move} {moves : List Move} {o : Nat} {s : Span}

theorem units_pos (s : Span) : 0 < s.units := by
  unfold Span.units spanUnits imageOffset
  omega

private theorem copy_target (hs : m move.src = some s) : copy m move move.dst = some s := by
  simp [copy, hs]

private theorem copy_of_apart {s' : Span} (hsrc : m move.src = some s') (hunits : s'.units = move.units)
    (ho : m o = some s) (hapart : Apart ⟨o, s.units⟩ (target move)) : copy m move o = some s := by
  rw [target, ← hunits] at hapart
  have hne : o ≠ move.dst := hapart.start_ne (units_pos s) (units_pos s')
  simp only [copy, hsrc]
  exact Heap.write_of_apart ho hne hapart

/-- Every target holds the span of its source, and a span apart from the targets stays. -/
theorem foldl_copy (hsrc : ∀ move ∈ moves, ∃ s, m move.src = some s ∧ s.units = move.units)
    (hdst : moves.Pairwise fun a b => Apart (target a) (target b))
    (hcross : ∀ a ∈ moves, ∀ b ∈ moves, Apart ⟨a.src, a.units⟩ (target b)) :
    (∀ move ∈ moves, moves.foldl copy m move.dst = m move.src) ∧
      ∀ o s, m o = some s → (∀ move ∈ moves, Apart ⟨o, s.units⟩ (target move)) → moves.foldl copy m o = some s := by
  induction moves generalizing m with
  | nil => exact ⟨nofun, fun o s ho _ => ho⟩
  | cons first rest ih =>
    obtain ⟨s, hs, hunits⟩ := hsrc first List.mem_cons_self
    obtain ⟨hfirst, hrest⟩ := List.pairwise_cons.mp hdst
    have hkeep : ∀ move ∈ rest, copy m first move.src = m move.src := fun move hmove => by
      obtain ⟨s', hs', hunits'⟩ := hsrc move (List.mem_cons_of_mem _ hmove)
      rw [hs']
      refine copy_of_apart hs hunits hs' ?_
      rw [hunits']
      exact hcross move (List.mem_cons_of_mem _ hmove) first List.mem_cons_self
    obtain ⟨htargets, hothers⟩ := @ih (copy m first)
      (fun move hmove => by rw [hkeep move hmove]; exact hsrc move (List.mem_cons_of_mem _ hmove)) hrest
      fun a ha b hb => hcross a (List.mem_cons_of_mem _ ha) b (List.mem_cons_of_mem _ hb)
    refine ⟨fun move hmove => ?_, fun o s' ho hapart => ?_⟩
    · rw [List.foldl_cons]
      rcases List.mem_cons.mp hmove with rfl | hmove
      · rw [hs]
        refine hothers _ _ (copy_target hs) fun b hb => ?_
        rw [hunits]
        exact hfirst b hb
      · rw [htargets move hmove, hkeep move hmove]
    · rw [List.foldl_cons]
      refine hothers o s' (copy_of_apart hs hunits ho (hapart first List.mem_cons_self)) fun b hb => ?_
      exact hapart b (List.mem_cons_of_mem _ hb)

end Copies

/-! ### Index entries -/

def destination (moves : List Move) (o : Nat) : Nat := ((moves.find? (·.src = o)).map Move.dst).getD o

theorem destination_of_notMem {moves : List Move} {o : Nat} (h : ∀ move ∈ moves, move.src ≠ o) :
    destination moves o = o := by
  have : moves.find? (·.src = o) = none := List.find?_eq_none.mpr fun move hmove => by simpa using h move hmove
  rw [destination, this]
  rfl

theorem destination_of_mem {moves : List Move} (hsrc : moves.Pairwise fun a b => a.src ≠ b.src) {move : Move}
    (h : move ∈ moves) : destination moves move.src = move.dst := by
  induction moves with
  | nil => cases h
  | cons first rest ih =>
    obtain ⟨hfirst, hrest⟩ := List.pairwise_cons.mp hsrc
    rcases List.mem_cons.mp h with rfl | h
    · simp [destination]
    · have := ih hrest h
      simpa [destination, List.find?_cons, hfirst move h] using this

/-- Every move can be made: its source is the entry of the key stored there, and nothing is at any target. -/
structure Relocatable (m : Memory) (index : Index) (moves : List Move) : Prop where
  exact : index.Exact
  nodup : index.programs.Nodup
  distinct : index.Distinct
  sources : ∀ move ∈ moves, ∃ s, m move.src = some s ∧
    index.accounts.lookup s.pubkey = some ⟨s.active.core.owner.tail, move.src⟩
  fresh : ∀ move ∈ moves, ∀ key data, index.accounts.lookup key = some data → data.offset ≠ move.dst
  src_ne : moves.Pairwise fun a b => a.src ≠ b.src
  dst_ne : moves.Pairwise fun a b => a.dst ≠ b.dst

namespace Relocatable

variable {m : Memory} {index : Index} {move : Move} {moves : List Move}

private theorem relocate_eq {key : Pubkey} {owner : KeyTail} {old new : Nat}
    (h : index.accounts.lookup key = some ⟨owner, old⟩) :
    index.relocate key old ⟨owner, new⟩ = (index.delete key).2.insert key ⟨owner, new⟩ := by
  simp only [Index.relocate, Index.delete, Index.insert, h, index.accounts_insert key ⟨owner, new⟩]

private theorem step (h : Relocatable m index (move :: moves)) :
    Relocatable m (relocate m index move) moves ∧ (relocate m index move).freelist = index.freelist ∧
      ∀ key, (relocate m index move).accounts.lookup key = (index.accounts.lookup key).map fun data =>
        { data with offset := if data.offset = move.src then move.dst else data.offset } := by
  obtain ⟨s, hs, hk⟩ := h.sources move List.mem_cons_self
  obtain ⟨hsrc, hsrcs⟩ := List.pairwise_cons.mp h.src_ne
  obtain ⟨hdst, hdsts⟩ := List.pairwise_cons.mp h.dst_ne
  have hrelocate : relocate m index move =
      (index.delete s.pubkey).2.insert s.pubkey ⟨s.active.core.owner.tail, move.dst⟩ := by
    simp only [relocate, hs]
    exact relocate_eq hk
  have hlookup : ∀ key, (relocate m index move).accounts.lookup key =
      if key = s.pubkey then some ⟨s.active.core.owner.tail, move.dst⟩ else index.accounts.lookup key := fun key => by
    rw [hrelocate, Index.lookup_insert]
    split
    · rfl
    · next hne => rw [Index.lookup_delete, if_neg hne]
  refine ⟨⟨?_, ?_, ?_, ?_, ?_, hsrcs, hdsts⟩, by rw [hrelocate]; simp, ?_⟩
  · rw [hrelocate]
    refine (h.exact.delete h.distinct).insert ?_
    rw [Index.lookup_delete, if_pos rfl]
  · rw [hrelocate]
    exact DupTable.nodup_put (PersistedStore.programs_nodup_delete h.nodup)
  · intro k k' d d' hkd hkd' ho
    rw [hlookup] at hkd hkd'
    split at hkd <;> split at hkd'
    · next heq heq' => exact heq.trans heq'.symm
    · cases hkd
      exact (h.fresh move List.mem_cons_self k' d' hkd' ho.symm).elim
    · cases hkd'
      exact (h.fresh move List.mem_cons_self k d hkd ho).elim
    · exact h.distinct k k' d d' hkd hkd' ho
  · intro move' hmove'
    obtain ⟨s', hs', hk'⟩ := h.sources move' (List.mem_cons_of_mem _ hmove')
    refine ⟨s', hs', ?_⟩
    rw [hlookup, if_neg, hk']
    intro heq
    rw [heq, hk] at hk'
    exact hsrc move' hmove' (congrArg OwnerAndOffset.offset (Option.some.inj hk'))
  · intro move' hmove' key data hdata
    rw [hlookup] at hdata
    split at hdata
    · cases hdata
      exact hdst move' hmove'
    · exact h.fresh move' (List.mem_cons_of_mem _ hmove') key data hdata
  · intro key
    rw [hlookup]
    split
    · next heq => rw [heq, hk]; simp
    · next hne =>
      cases hdata : index.accounts.lookup key with
      | none => rfl
      | some data =>
        have hother : data.offset ≠ move.src := fun heq => hne (h.distinct key s.pubkey _ _ hdata hk heq)
        simp [hother]

/-- All moves: every entry is at its destination, and the programs table follows. -/
theorem foldl (h : Relocatable m index moves) :
    (moves.foldl (relocate m) index).Exact ∧ (moves.foldl (relocate m) index).programs.Nodup ∧
      (moves.foldl (relocate m) index).freelist = index.freelist ∧
      ∀ key, (moves.foldl (relocate m) index).accounts.lookup key = (index.accounts.lookup key).map fun data =>
        { data with offset := destination moves data.offset } := by
  induction moves generalizing index with
  | nil =>
    refine ⟨h.exact, h.nodup, rfl, fun key => ?_⟩
    simp [destination]
  | cons first rest ih =>
    obtain ⟨hstep, hfree, hlookup⟩ := h.step
    obtain ⟨hexact, hnodup, hfreelist, hrest⟩ := ih hstep
    refine ⟨hexact, hnodup, hfreelist.trans hfree, fun key => ?_⟩
    rw [List.foldl_cons, hrest, hlookup, Option.map_map]
    refine congrArg (Option.map · _) (funext fun data => ?_)
    simp only [Function.comp_apply]
    by_cases heq : data.offset = first.src
    · -- no later source is the target of this move
      have hlast : destination rest first.dst = first.dst := destination_of_notMem fun move hmove => by
        obtain ⟨s, -, hk⟩ := h.sources move (List.mem_cons_of_mem _ hmove)
        exact h.fresh first List.mem_cons_self _ _ hk
      rw [if_pos heq, hlast, heq, destination_of_mem h.src_ne List.mem_cons_self]
    · have hsrc : first.src ≠ data.offset := Ne.symm heq
      simp [destination, heq, hsrc]

end Relocatable

/-! ### The freelist -/

def remainder (run : Run) (tail : Nat) (h : Hole) : Nat × Nat :=
  (min h.stop tail - max h.offset run.offset, max h.offset run.offset)

variable {tail : Nat} {freelist : DupTable Nat Nat} {f : Nat × Nat}

private theorem mem_publishHole {run : Run} {h : Hole} (hmem : (h.units, h.offset) ∈ freelist) (hpos : 0 < h.units) :
    f ∈ publishHole run tail freelist h ↔ f ∈ freelist ∧ f ≠ (h.units, h.offset) ∨
      max h.offset run.offset < min h.stop tail ∧ f = remainder run tail h := by
  unfold publishHole
  dsimp only
  split
  · next heq =>
    have hrem : remainder run tail h = (h.units, h.offset) := by
      rw [remainder, heq.1, heq.2, Hole.stop, Nat.add_sub_cancel_left]
    have hlt : max h.offset run.offset < min h.stop tail := by
      rw [heq.1, heq.2]
      exact Nat.lt_add_of_pos_right hpos
    by_cases hf : f = (h.units, h.offset) <;> simp [hf, hmem, hrem, hlt]
  · split
    · next hlt =>
      rw [DupTable.mem_put, DupTable.mem_delete]
      simp [hlt, remainder, or_comm]
    · next hlt => simp [hlt]

private theorem nodup_publishHole {run : Run} {h : Hole} (hnodup : freelist.Nodup) :
    (publishHole run tail freelist h).Nodup := by
  unfold publishHole
  dsimp only
  split
  · exact hnodup
  · split
    · exact DupTable.nodup_put (DupTable.nodup_delete hnodup)
    · exact DupTable.nodup_delete hnodup

private theorem foldl_publishHole {parts : List (Run × Hole)} (hnodup : freelist.Nodup)
    (hmem : ∀ x ∈ parts, (x.2.units, x.2.offset) ∈ freelist) (hpos : ∀ x ∈ parts, 0 < x.2.units)
    (hapart : parts.Pairwise fun x y => x.2.stop ≤ y.2.offset ∨ y.2.stop ≤ x.2.offset) :
    (parts.foldl (fun freelist x => publishHole x.1 tail freelist x.2) freelist).Nodup ∧
      ∀ f, f ∈ parts.foldl (fun freelist x => publishHole x.1 tail freelist x.2) freelist ↔
        (f ∈ freelist ∧ ∀ x ∈ parts, f ≠ (x.2.units, x.2.offset)) ∨
          ∃ x ∈ parts, max x.2.offset x.1.offset < min x.2.stop tail ∧ f = remainder x.1 tail x.2 := by
  induction parts generalizing freelist with
  | nil => simp [hnodup]
  | cons first rest ih =>
    obtain ⟨hfirst, hrest⟩ := List.pairwise_cons.mp hapart
    have hfirstmem := hmem first List.mem_cons_self
    have hfirstpos := hpos first List.mem_cons_self
    obtain ⟨hnodup', hiff⟩ := ih (@nodup_publishHole tail freelist first.1 first.2 hnodup)
      (fun x hx => by
        refine (mem_publishHole hfirstmem hfirstpos).mpr (.inl ⟨hmem x (List.mem_cons_of_mem _ hx), fun heq => ?_⟩)
        have hx' := hfirst x hx
        have hxpos := hpos x (List.mem_cons_of_mem _ hx)
        obtain ⟨hunits, hoffset⟩ := Prod.mk.inj heq
        simp only [Hole.stop] at hx'
        omega)
      (fun x hx => hpos x (List.mem_cons_of_mem _ hx)) hrest
    refine ⟨hnodup', fun f => ?_⟩
    rw [List.foldl_cons, hiff f, mem_publishHole hfirstmem hfirstpos]
    -- what is left of the first hole lies in it, so it is none of the others
    have hother : max first.2.offset first.1.offset < min first.2.stop tail → f = remainder first.1 tail first.2 →
        ∀ x ∈ rest, f ≠ (x.2.units, x.2.offset) := by
      rintro hlt rfl x hx heq
      have hx' := hfirst x hx
      have hxpos := hpos x (List.mem_cons_of_mem _ hx)
      obtain ⟨hunits, hoffset⟩ := Prod.mk.inj heq
      simp only [Hole.stop] at hx' hlt
      omega
    simp only [List.forall_mem_cons, List.exists_mem_cons_iff]
    constructor
    · rintro (⟨⟨hf, hne⟩ | ⟨hlt, heq⟩, hall⟩ | hf)
      · exact .inl ⟨hf, hne, hall⟩
      · exact .inr (.inl ⟨hlt, heq⟩)
      · exact .inr (.inr hf)
    · rintro (⟨hf, hne, hall⟩ | ⟨hlt, heq⟩ | hf)
      · exact .inl ⟨.inl ⟨hf, hne⟩, hall⟩
      · exact .inl ⟨.inr ⟨hlt, heq⟩, hother hlt heq⟩
      · exact .inr hf

private theorem foldl_publishMove {moves : List Move} (hnodup : freelist.Nodup) :
    (moves.foldl (publishMove tail) freelist).Nodup ∧ ∀ f, f ∈ moves.foldl (publishMove tail) freelist ↔
      f ∈ freelist ∨ ∃ move ∈ moves, move.src < tail ∧ f = (min move.stop tail - move.src, move.src) := by
  induction moves generalizing freelist with
  | nil => simp [hnodup]
  | cons first rest ih =>
    by_cases hlt : first.src < tail
    · have hput : publishMove tail freelist first =
          freelist.put offsetRank (min first.stop tail - first.src) first.src := if_pos hlt
      rw [List.foldl_cons, hput]
      obtain ⟨hnodup', hiff⟩ := @ih (freelist.put offsetRank (min first.stop tail - first.src) first.src)
        (DupTable.nodup_put hnodup)
      refine ⟨hnodup', fun f => ?_⟩
      rw [hiff f, DupTable.mem_put, List.exists_mem_cons_iff]
      simp only [hlt, true_and]
      tauto
    · have hskip : publishMove tail freelist first = freelist := if_neg hlt
      rw [List.foldl_cons, hskip]
      obtain ⟨hnodup', hiff⟩ := ih hnodup
      refine ⟨hnodup', fun f => ?_⟩
      rw [hiff f, List.exists_mem_cons_iff]
      simp [hlt]

/-- The freelist after publication: what is left of the holes, and the sources before the tail. -/
theorem mem_publish {s : Packing} (hnodup : freelist.Nodup)
    (hmem : ∀ h, (∃ r ∈ s.runs, h ∈ r.parts) ↔ (h.units, h.offset) ∈ freelist)
    (hpos : ∀ f ∈ freelist, 0 < f.1) (hapart : Ascending (s.runs.flatMap Run.parts)) :
    (publish s tail freelist).Nodup ∧ ∀ f, f ∈ publish s tail freelist ↔
      (∃ r ∈ s.runs, ∃ h ∈ r.parts, max h.offset r.offset < min h.stop tail ∧ f = remainder r tail h) ∨
        ∃ move ∈ s.moves, move.src < tail ∧ f = (min move.stop tail - move.src, move.src) := by
  let parts := s.runs.flatMap fun r => r.parts.map fun h => (r, h)
  have hparts : ∀ x : Run × Hole, x ∈ parts ↔ x.1 ∈ s.runs ∧ x.2 ∈ x.1.parts := by
    rintro ⟨r, h⟩
    simp only [parts, List.mem_flatMap, List.mem_map, Prod.mk.injEq]
    exact ⟨fun ⟨r', hr', h', hh', hr, hh⟩ => by subst hr hh; exact ⟨hr', hh'⟩, fun ⟨hr, hh⟩ => ⟨r, hr, h, hh, rfl, rfl⟩⟩
  have hfold : s.runs.foldl (publishRun tail) freelist =
      parts.foldl (fun freelist x => publishHole x.1 tail freelist x.2) freelist := by
    simp only [parts, List.foldl_flatMap, List.foldl_map]
    rfl
  have hpair : parts.Pairwise fun x y => x.2.stop ≤ y.2.offset ∨ y.2.stop ≤ x.2.offset := by
    have hsnd : parts.map Prod.snd = s.runs.flatMap Run.parts := by
      simp [parts, List.map_flatMap, Function.comp_def]
    rw [Ascending, ← hsnd] at hapart
    exact (List.pairwise_map.mp hapart).imp Or.inl
  have hin : ∀ x ∈ parts, (x.2.units, x.2.offset) ∈ freelist := fun x hx =>
    (hmem x.2).mp ⟨x.1, (hparts x).mp hx⟩
  obtain ⟨hnodup', hholes⟩ := @foldl_publishHole tail freelist parts hnodup hin (fun x hx => hpos _ (hin x hx)) hpair
  rw [← hfold] at hnodup' hholes
  obtain ⟨hnodup'', hmoves⟩ := @foldl_publishMove tail _ s.moves hnodup'
  refine ⟨hnodup'', fun f => ?_⟩
  rw [publish, hmoves f, hholes f]
  refine or_congr ?_ Iff.rfl
  constructor
  · rintro (⟨hf, hall⟩ | ⟨x, hx, hlt, heq⟩)
    · obtain ⟨r, hr, hh⟩ := (hmem ⟨f.2, f.1⟩).mpr hf
      exact (hall (r, ⟨f.2, f.1⟩) ((hparts _).mpr ⟨hr, hh⟩) rfl).elim
    · exact ⟨x.1, ((hparts x).mp hx).1, x.2, ((hparts x).mp hx).2, hlt, heq⟩
  · rintro ⟨r, hr, h, hh, hlt, heq⟩
    exact .inr ⟨(r, h), (hparts _).mpr ⟨hr, hh⟩, hlt, heq⟩

end Defrag

end MagicEngine
