import MagicEngine.Image.Borrowed

/-!
# Spans and their bytes

The store works on spans, whose images are accounts; here every operation on a span is the one on its bytes. The parts
of a storage hold a span if they agree on the header and the active image shows its account (`Span.Held`). The shadow
may be left over from anything; it matters from the moment a view points to it (`BorrowedAccount.Held`).
-/

namespace MagicEngine

open Raw

theorem activeSide_pred (sequence : UInt32) : activeSide (sequence - 1) = !activeSide sequence := by
  have hsucc := activeSide_succ (sequence - 1)
  rw [show sequence - 1 + 1 = sequence by grind] at hsucc
  rw [hsucc, Bool.not_not]

namespace Span

/-- The bytes of a side are an image of the account that the span has there. -/
def Shown (s : Span) (p : Parts) (side : Side) : Prop :=
  ∃ img : Image, p.image side = img.bytes ∧ img.account = s.image side

structure Held (s : Span) (p : Parts) : Prop where
  space : p.space = s.space
  sequence : p.sequence = s.sequence
  pubkey : p.pubkey = s.pubkey
  shown : s.Shown p p.active

end Span

/-- Both views point to the same side, which shows the account. -/
structure BorrowedAccount.Held (b : BorrowedAccount) (q : Raw.BorrowedAccount) (s : Span) (p : Parts) : Prop where
  core : q.core = p.start b.side
  version : q.version = b.version
  shown : s.Shown p b.side

variable {m : Memory} {b : BorrowedAccount} {q : Raw.BorrowedAccount} {s : Span} {p : Parts} {offset : Nat}

/-- An account that fits is serialized as the span that the store writes. -/
theorem Span.held_fresh {a : OwnedAccount} {buf : Buffer} (m : Memory) (offset : Nat) (pubkey : Pubkey)
    (ha : Serializable a) (hbuf : buf.length = unitsOf a * storageUnit) :
    ∃ p : Parts, serialize a buf pubkey = some p.bytes ∧ (m.fresh offset pubkey a).Held p := by
  obtain ⟨p, img, hserialize, hsequence, hpubkey, hspace, himage, haccount⟩ := serialize_parts pubkey ha hbuf
  have hfits : a.stored = a := by
    have hcapacity := ha.2
    unfold allocation storageUnit staticSize at hcapacity
    exact OwnedAccount.stored_eq_iff.mpr (by unfold OwnedAccount.Fits; omega)
  refine ⟨p, hserialize, ?_, hsequence, hpubkey, img, himage, ?_⟩
  · rw [unitsOf_eq ha] at hspace
    change p.space = allocation a.data.length
    omega
  · have hside : p.active = false := by rw [Parts.active, hsequence]; rfl
    rw [haccount, hside]
    exact hfits.symm

theorem Span.Held.init (h : s.Held p) (hm : m offset = some s) :
    ∃ q, Raw.BorrowedAccount.init p.bytes = some q ∧ (BorrowedAccount.init m offset).Held q s p := by
  have hside : (BorrowedAccount.init m offset).side = p.active := by
    simp [BorrowedAccount.init, hm, Parts.active, h.sequence]
  refine ⟨_, Raw.BorrowedAccount.init_bytes p, congrArg p.start hside.symm, ?_, hside ▸ h.shown⟩
  simp [BorrowedAccount.init, hm, h.sequence]

private theorem length_room {side : Side} {img : Image} (himage : p.image side = img.bytes) :
    img.room.length = p.capacity := by
  have hlength := p.length_image side
  have hminimum := p.minimum
  rw [himage, img.length_bytes] at hlength
  unfold Parts.capacity
  omega

namespace BorrowedAccount.Held

theorem toOwned (hb : b.Held q s p) (hm : m b.offset = some s) : q.toOwned p.bytes = some (b.image m) := by
  obtain ⟨img, himage, haccount⟩ := hb.shown
  have hroom := length_room himage
  have hread := Raw.BorrowedAccount.toOwned_filled hb.core hroom
  rw [p.filled_eq_self hroom himage, haccount] at hread
  simpa [BorrowedAccount.image, hm] using hread

theorem capacity (h : s.Held p) (hb : b.Held q s p) (hm : m b.offset = some s) :
    q.capacity p.bytes = some (b.capacity m) := by
  obtain ⟨img, himage, -⟩ := hb.shown
  have hroom := length_room himage
  have hread := Raw.BorrowedAccount.capacity_filled hb.core hroom
  have hlt := p.capacity_lt
  rw [p.filled_eq_self hroom himage] at hread
  rw [Parts.capacity, h.space] at hread hlt
  rw [hread, BorrowedAccount.capacity, hm, ← Nat.mod_eq_of_lt hlt]
  rfl

/-- A view of the current version copies the active image into the shadow, if it does not point there yet. -/
theorem translate (h : s.Held p) (hb : b.Held q s p) (hversion : b.version = s.sequence) (hm : m b.offset = some s) :
    ∃ p' q' s', q.translate p.bytes = some (p'.bytes, q') ∧ (b.translate m).1 b.offset = some s' ∧ s'.Held p' ∧
      (b.translate m).2.Held q' s' p' := by
  have hactive : activeSide b.version = p.active := by rw [hversion, ← h.sequence]; rfl
  have hsequence : q.version = p.sequence := by rw [hb.version, hversion, h.sequence]
  by_cases hside : b.side = !p.active
  · have hsame : b.translate m = (m, b) := by simp [BorrowedAccount.translate, hactive, hside]
    refine ⟨p, q, s, ?_, hsame ▸ hm, h, hsame ▸ hb⟩
    simp [Raw.BorrowedAccount.translate, p.space_bytes, Raw.BorrowedAccount.shadow_eq hsequence, hb.core, hside]
  · have hside : b.side = p.active := by simpa using hside
    have hcopied : b.translate m = ({ b with side := !p.active }.write m (b.image m), { b with side := !p.active }) := by
      simp [BorrowedAccount.translate, hactive, hside]
    have hspan : (b.translate m).1 b.offset = some (s.setImage (!p.active) (s.image p.active)) := by
      simp [hcopied, BorrowedAccount.write, Regions.Heap.modify_self, BorrowedAccount.image, hm, hside]
    obtain ⟨img, himage, haccount⟩ := h.shown
    refine ⟨_, _, _, Raw.BorrowedAccount.translate_bytes (hside ▸ hb.core) hsequence, hspan, ⟨?_, ?_, ?_, img, ?_, ?_⟩,
      ?_⟩
    · exact h.space.trans (by unfold Span.setImage; split <;> rfl)
    · exact h.sequence.trans (s.sequence_setImage ..).symm
    · exact h.pubkey.trans (s.pubkey_setImage ..).symm
    · exact (p.image_active _).trans himage
    · change img.account = (s.setImage (!p.active) (s.image p.active)).image p.active
      exact haccount.trans (by simp)
    · rw [hcopied]
      exact ⟨rfl, hb.version, img, (Function.update_self ..).trans himage, haccount.trans (by simp)⟩

theorem commit (h : s.Held p) (hb : b.Held q s p) (hversion : b.version = s.sequence) (hm : m b.offset = some s) :
    ∃ p' s', q.commit p.bytes = some p'.bytes ∧ b.commit m b.offset = some s' ∧ s'.Held p' := by
  have hactive : activeSide b.version = p.active := by rw [hversion, ← h.sequence]; rfl
  have hsequence : q.version = p.sequence := by rw [hb.version, hversion, h.sequence]
  by_cases hside : b.side = !p.active
  · refine ⟨_, s.publish, Raw.BorrowedAccount.commit_shadow (hside ▸ hb.core) hsequence, ?_, h.space, ?_, h.pubkey, ?_⟩
    · rw [BorrowedAccount.commit, if_neg (by simp [hactive, hside]), Regions.Heap.modify_self, hm]
      simp [hversion, Span.publish]
    · exact congrArg (· + 1) h.sequence
    · change s.Shown p (activeSide (p.sequence + 1))
      rw [activeSide_succ, show (!activeSide p.sequence) = b.side from hside.symm]
      exact hb.shown
  · have hside' : b.side = p.active := by simpa using hside
    refine ⟨p, s, Raw.BorrowedAccount.commit_active (hside' ▸ hb.core) hsequence, ?_, h⟩
    simp [BorrowedAccount.commit, hactive, hside', hm]

/-- The sequence before selects the shadow, so it has to show an account. -/
theorem rollback (h : s.Held p) (hshadow : s.Shown p (!p.active)) (hm : m b.offset = some s) :
    ∃ p', q.rollback p.bytes = some p'.bytes ∧ b.rollback m b.offset = some s.withdraw ∧ s.withdraw.Held p' := by
  refine ⟨_, Raw.BorrowedAccount.rollback_bytes q p, ?_, h.space, congrArg (· - 1) h.sequence, h.pubkey, ?_⟩
  · simp [BorrowedAccount.rollback, Regions.Heap.modify_self, hm]
  · change s.Shown p (activeSide (p.sequence - 1))
    rw [activeSide_pred]
    exact hshadow

end BorrowedAccount.Held

end MagicEngine
