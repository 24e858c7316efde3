import MagicEngine.View.Content

/-!
# The layouts of serialized transactions

The four layouts, written from the content of a transaction (`TransactionContent.encode`), and that a framed byte string
is the layout of its own content (`laid_of_framed`). A view accepts no second spelling of a transaction: compressed
integers are minimal, nothing follows the last part, and the config words are those the mask names. Each reader is
described by the chunk it passes over, and a frame by the chunks of its readers put together.
-/

namespace MagicEngine

open Codec

namespace View

/-! ### Layouts -/

/-- A compressed `u16`: seven bits a byte, least significant first. -/
def encodeCompressedU16 (n : Nat) : Bytes :=
  if n < 128 then [UInt8.ofNat n]
  else if n < 16384 then [UInt8.ofNat (n % 128 + 128), UInt8.ofNat (n / 128)]
  else [UInt8.ofNat (n % 128 + 128), UInt8.ofNat (n / 128 % 128 + 128), UInt8.ofNat (n / 16384)]

def encodeCounted (bytes : Bytes) : Bytes := encodeCompressedU16 bytes.length ++ bytes

def Instruction.encode (i : Instruction) : Bytes :=
  i.programIdIndex :: (encodeCounted i.accounts ++ encodeCounted i.data)

def Instruction.header (i : Instruction) : Bytes :=
  i.programIdIndex :: UInt8.ofNat i.accounts.length :: littleEndian 2 i.data.length

def Instruction.payload (i : Instruction) : Bytes := i.accounts ++ i.data

def AddressTableLookup.encode (l : AddressTableLookup) : Bytes :=
  l.accountKey ++ (encodeCounted l.writableIndexes ++ encodeCounted l.readonlyIndexes)

namespace TransactionConfig

def mask (c : TransactionConfig) : Nat :=
  (if c.priorityFeeLamports.isSome then 3 else 0) + (if c.computeUnitLimit.isSome then 4 else 0) +
    (if c.loadedAccountsDataSizeLimit.isSome then 8 else 0) + (if c.requestedHeapSize.isSome then 16 else 0)

def encodeValue (width : Nat) : Option Nat → Bytes
  | none => []
  | some value => littleEndian width value

def values (c : TransactionConfig) : Bytes :=
  encodeValue 8 c.priorityFeeLamports ++ (encodeValue 4 c.computeUnitLimit ++
    (encodeValue 4 c.loadedAccountsDataSizeLimit ++ encodeValue 4 c.requestedHeapSize))

end TransactionConfig

namespace TransactionContent

variable (c : TransactionContent)

def header : Bytes := [c.numRequiredSignatures, c.numReadonlySignedAccounts, c.numReadonlyUnsignedAccounts]

/-- A legacy message, and a V0 message between its prefix and its lookups. -/
def legacyBody : Bytes :=
  c.header ++ (UInt8.ofNat c.staticAccountKeys.length :: c.staticAccountKeys.flatten ++ (c.recentBlockhash ++
    (encodeCompressedU16 c.instructions.length ++ c.instructions.flatMap Instruction.encode)))

def lookups : Bytes :=
  UInt8.ofNat c.addressTableLookups.length :: c.addressTableLookups.flatMap AddressTableLookup.encode

def v1Body : Bytes :=
  let config := c.config.getD {}
  c.header ++ (littleEndian 4 config.mask ++ (c.recentBlockhash ++ (UInt8.ofNat c.instructions.length ::
    UInt8.ofNat c.staticAccountKeys.length :: c.staticAccountKeys.flatten ++ (config.values ++
      (c.instructions.flatMap Instruction.header ++ c.instructions.flatMap Instruction.payload)))))

def message : Bytes :=
  match c.version with
  | .legacy => c.legacyBody
  | .v0 => messageVersionPrefix :: (c.legacyBody ++ c.lookups)
  | .v1 => v1Prefix :: c.v1Body
  | .magicblock => magicblockPrefix :: c.v1Body

def encode : Bytes :=
  match c.version with
  | .legacy | .v0 => UInt8.ofNat c.signatures.length :: c.signatures.flatten ++ c.message
  | .v1 | .magicblock => c.message ++ c.signatures.flatten

end TransactionContent

/-! ### Compressed integers -/

theorem toNat_and_low (b : UInt8) : (b &&& 0x7f).toNat = b.toNat % 128 := by
  rw [UInt8.toNat_and]
  exact Nat.and_two_pow_sub_one_eq_mod b.toNat 7

variable {b : UInt8}

theorem and_high_eq_zero : b &&& 0x80 = 0 ↔ b.toNat < 128 := by
  have hall : ∀ v : BitVec 8, v &&& 0x80#8 = 0#8 ↔ v.toNat < 128 := by decide
  rw [← UInt8.toBitVec_inj]
  exact hall b.toBitVec

theorem eq_messageVersionPrefix (hhigh : b &&& messageVersionPrefix ≠ 0)
    (hlow : b &&& ~~~messageVersionPrefix = 0) : b = messageVersionPrefix := by
  have hall : ∀ v : BitVec 8, v &&& 0x80#8 ≠ 0#8 → v &&& ~~~0x80#8 = 0#8 → v = 0x80#8 := by decide
  rw [ne_eq, ← UInt8.toBitVec_inj] at hhigh
  rw [← UInt8.toBitVec_inj] at hlow ⊢
  exact hall b.toBitVec hhigh hlow

variable {bytes : Bytes}

theorem readByte_chunk {o o' : Nat} (h : readByte bytes o = .ok (b, o')) :
    Chunk bytes o o' [b] := by
  unfold readByte at h
  split at h
  · cases h
  · next byte hbyte =>
    cases h
    exact .singleton hbyte

theorem readByte_eq {o o' : Nat} (h : readByte bytes o = .ok (b, o')) :
    uncheckedReadByte bytes o = b := by
  unfold readByte at h
  split at h
  · cases h
  · next byte hbyte =>
    cases h
    simp [uncheckedReadByte, hbyte]

/-- One round of the loop: the value ends here, or goes on with the next byte. -/
theorem readCompressedU16From_succ {o rounds i result : Nat} {r : Nat × Nat}
    (h : readCompressedU16From bytes o (rounds + 1) i result = .ok r) :
    ∃ b : UInt8, Chunk bytes (o + i) (o + i + 1) [b] ∧ ¬(0 < i ∧ b = 0 ∨ i = 2 ∧ 3 < b) ∧
      (b.toNat < 128 ∧ r = (result + b.toNat * 2 ^ (7 * i), o + i + 1) ∨
        128 ≤ b.toNat ∧
          readCompressedU16From bytes o rounds (i + 1) (result + (b.toNat - 128) * 2 ^ (7 * i)) = .ok r) := by
  rw [readCompressedU16From, bind_eq_ok] at h
  obtain ⟨⟨b, next⟩, hread, h⟩ := h
  have hchunk := readByte_chunk hread
  obtain rfl : next = o + i + 1 := hchunk.stop
  obtain ⟨u, hminimal, h⟩ := bind_eq_ok.mp h
  rw [require_eq_ok] at hminimal
  have hbyte := b.toNat_lt
  refine ⟨b, hchunk, hminimal, ?_⟩
  simp only [toNat_and_low, and_high_eq_zero] at h
  split at h
  · next hlow =>
    cases h
    exact .inl ⟨hlow, by rw [Nat.mod_eq_of_lt hlow]⟩
  · next hhigh =>
    have hmod : b.toNat % 128 = b.toNat - 128 := by omega
    exact .inr ⟨by omega, by rwa [hmod] at h⟩

theorem readCompressedU16_chunk {o o' n : Nat} (h : readCompressedU16 bytes o = .ok (n, o')) :
    n < 2 ^ 16 ∧ Chunk bytes o o' (encodeCompressedU16 n) := by
  obtain ⟨b₀, hchunk₀, -, ⟨hlow₀, hr⟩ | ⟨hhigh₀, h⟩⟩ := readCompressedU16From_succ h
  · simp only [Nat.zero_add, Nat.mul_zero, Nat.pow_zero, Nat.mul_one, Prod.mk.injEq] at hr
    obtain ⟨rfl, rfl⟩ := hr
    exact ⟨by omega, by simpa [encodeCompressedU16, hlow₀] using hchunk₀⟩
  have hlt₀ := b₀.toNat_lt
  obtain ⟨b₁, hchunk₁, hb₁, ⟨hlow₁, hr⟩ | ⟨hhigh₁, h⟩⟩ := readCompressedU16From_succ h
  · have hpos : b₁.toNat ≠ 0 := fun hzero => hb₁ (.inl ⟨by omega, UInt8.toNat_inj.mp hzero⟩)
    simp only [Nat.zero_add, Nat.mul_zero, Nat.pow_zero, Nat.mul_one, Prod.mk.injEq] at hr
    obtain ⟨rfl, rfl⟩ := hr
    have hcode : encodeCompressedU16 (b₀.toNat - 128 + b₁.toNat * 2 ^ 7) = [b₀] ++ [b₁] := by
      have h₀ : (b₀.toNat - 128 + b₁.toNat * 2 ^ 7) % 128 + 128 = b₀.toNat := by omega
      have h₁ : (b₀.toNat - 128 + b₁.toNat * 2 ^ 7) / 128 = b₁.toNat := by omega
      rw [encodeCompressedU16, if_neg (by omega), if_pos (by omega), h₀, h₁, UInt8.ofNat_toNat, UInt8.ofNat_toNat]
      rfl
    exact ⟨by omega, hcode ▸ hchunk₀.append hchunk₁⟩
  have hlt₁ := b₁.toNat_lt
  obtain ⟨b₂, hchunk₂, hb₂, ⟨hlow₂, hr⟩ | ⟨hhigh₂, -⟩⟩ := readCompressedU16From_succ h
  · have hpos : b₂.toNat ≠ 0 := fun hzero => hb₂ (.inl ⟨by omega, UInt8.toNat_inj.mp hzero⟩)
    have hmax : b₂.toNat ≤ 3 := Nat.not_lt.mp fun hlt => hb₂ (.inr ⟨rfl, UInt8.lt_iff_toNat_lt.mpr hlt⟩)
    simp only [Nat.zero_add, Nat.mul_zero, Nat.pow_zero, Nat.mul_one, Prod.mk.injEq] at hr
    obtain ⟨rfl, rfl⟩ := hr
    have hcode : encodeCompressedU16 (b₀.toNat - 128 + (b₁.toNat - 128) * 2 ^ 7 + b₂.toNat * 2 ^ 14) =
        [b₀] ++ ([b₁] ++ [b₂]) := by
      have h₀ : (b₀.toNat - 128 + (b₁.toNat - 128) * 2 ^ 7 + b₂.toNat * 2 ^ 14) % 128 + 128 = b₀.toNat := by omega
      have h₁ : (b₀.toNat - 128 + (b₁.toNat - 128) * 2 ^ 7 + b₂.toNat * 2 ^ 14) / 128 % 128 + 128 = b₁.toNat := by omega
      have h₂ : (b₀.toNat - 128 + (b₁.toNat - 128) * 2 ^ 7 + b₂.toNat * 2 ^ 14) / 16384 = b₂.toNat := by omega
      rw [encodeCompressedU16, if_neg (by omega), if_neg (by omega), h₀, h₁, h₂]
      simp
    exact ⟨by omega, hcode ▸ hchunk₀.append (hchunk₁.append hchunk₂)⟩
  · have hmax : b₂.toNat ≤ 3 := Nat.not_lt.mp fun hlt => hb₂ (.inr ⟨rfl, UInt8.lt_iff_toNat_lt.mpr hlt⟩)
    omega

theorem encodeCompressedU16_code : PrefixCode (· < 2 ^ 16) encodeCompressedU16 := by
  intro n m x y hn hm h
  simp only [encodeCompressedU16] at h
  -- the high bits of the first bytes tell the three lengths apart
  split_ifs at h <;>
    simp only [List.cons_append, List.nil_append, List.cons.injEq, ← UInt8.toNat_inj, UInt8.toNat_ofNat'] at h <;>
    first
      | exact ⟨by omega, h.2⟩
      | exact ⟨by omega, h.2.2⟩
      | exact ⟨by omega, h.2.2.2⟩
      | omega

/-! ### What the readers pass over -/

section Readers

variable {bytes : Bytes} {o o' n : Nat}

theorem tryU32Offset_eq {m : Nat} (h : tryU32Offset n = .ok m) : m = n := by
  obtain ⟨u, -, h⟩ := bind_eq_ok.mp h
  cases h
  rfl

theorem advance_chunk {size : Nat} (h : advanceOffsetForArray size bytes o n = .ok o') :
    o' = o + n * size ∧ o' ≤ bytes.length ∧ Chunk bytes o o' (slice bytes o (n * size)) := by
  obtain ⟨u, hremaining, h⟩ := bind_eq_ok.mp h
  cases h
  rw [checkRemaining, require_eq_ok] at hremaining
  exact ⟨rfl, hremaining, .slice hremaining⟩

theorem flatten_groups_slice {size : Nat} (h : o + n * size ≤ bytes.length) :
    (groups size n (slice bytes o (n * size))).flatten = slice bytes o (n * size) :=
  flatten_groups (length_slice h)

theorem skipCounted_chunk {count len : Nat} (h : skipCounted bytes o = .ok ((count, len), o')) :
    o' = o + len + count ∧ o' ≤ bytes.length ∧ count < 2 ^ 16 ∧ (slice bytes (o + len) count).length = count ∧
      Chunk bytes o o' (encodeCounted (slice bytes (o + len) count)) := by
  simp only [skipCounted, bind_eq_ok, Prod.exists] at h
  obtain ⟨count', next, hcount, len', hlen, stop, hadvance, ⟨⟩⟩ := h
  obtain ⟨hlt, hchunk⟩ := readCompressedU16_chunk hcount
  obtain ⟨rfl, hle, hbody⟩ := advance_chunk hadvance
  obtain ⟨u, -, hlen⟩ := bind_eq_ok.mp hlen
  cases hlen
  have hstop := hchunk.stop
  have hnext : o + (next - o) = next := by omega
  rw [Nat.mul_one] at hle hbody ⊢
  rw [hnext]
  refine ⟨rfl, hle, hlt, length_slice hle, ?_⟩
  rw [encodeCounted, length_slice hle]
  exact hchunk.append hbody

theorem instructionFrames_chunk {frames : List LegacyAndV0InstructionFrame}
    (h : instructionFrames bytes n o = .ok (frames, o')) :
    (legacyAndV0Instructions bytes frames o).length = n ∧
      (∀ i ∈ legacyAndV0Instructions bytes frames o, i.accounts.length < 2 ^ 16 ∧ i.data.length < 2 ^ 16) ∧
      Chunk bytes o o' ((legacyAndV0Instructions bytes frames o).flatMap Instruction.encode) := by
  induction n generalizing o frames with
  | zero =>
    cases h
    exact ⟨rfl, by simp [legacyAndV0Instructions], .nil bytes _⟩
  | succ n ih =>
    simp only [instructionFrames, bind_eq_ok, Prod.exists] at h
    obtain ⟨programIdIndex, o₁, hbyte, numAccounts, numAccountsLen, o₂, haccounts, dataLen, dataLenLen, o₃, hdata, rest,
      o₄, hrest, ⟨⟩⟩ := h
    have hprogram := readByte_chunk hbyte
    obtain rfl : o₁ = o + 1 := hprogram.stop
    obtain ⟨rfl, -, haccountsLt, haccountsLen, haccountsChunk⟩ := skipCounted_chunk haccounts
    obtain ⟨rfl, -, hdataLt, hdataLength, hdataChunk⟩ := skipCounted_chunk hdata
    obtain ⟨hlength, hvalid, hchunk⟩ := ih hrest
    simp only [legacyAndV0Instructions, List.length_cons, List.forall_mem_cons, List.flatMap_cons]
    refine ⟨by rw [hlength], ⟨⟨by omega, by omega⟩, hvalid⟩, ?_⟩
    rw [readByte_eq hbyte]
    exact (hprogram.append (haccountsChunk.append hdataChunk)).append hchunk

theorem lookupFrames_succ {writable readonly : Nat} {totals : Nat × Nat}
    (h : lookupFrames bytes (n + 1) writable readonly o = .ok (totals, o')) :
    ∃ lookup o₁ writable' readonly', readLookup bytes o = .ok (lookup, o₁) ∧ Chunk bytes o o₁ lookup.encode ∧
      lookupFrames bytes n writable' readonly' o₁ = .ok (totals, o') := by
  simp only [lookupFrames, bind_eq_ok, Prod.exists] at h
  obtain ⟨o₁, hkey, numWriteAccounts, o₂, hwriteCount, o₃, hwrite, numReadAccounts, o₄, hreadCount, o₅, hread, h⟩ := h
  have hlookup : readLookup bytes o = .ok
      ({ accountKey := slice bytes o pubkeySize, writableIndexes := slice bytes o₂ numWriteAccounts
         readonlyIndexes := slice bytes o₄ numReadAccounts }, o₅) := by
    simp only [readLookup, hkey, hwriteCount, hwrite, hreadCount, hread, bind, Except.bind]
    rfl
  refine ⟨_, _, _, _, hlookup, ?_, h⟩
  obtain ⟨-, -, hkeyChunk⟩ := advance_chunk hkey
  obtain ⟨-, hwriteCountChunk⟩ := readCompressedU16_chunk hwriteCount
  obtain ⟨rfl, hwriteLe, hwriteChunk⟩ := advance_chunk hwrite
  obtain ⟨-, hreadCountChunk⟩ := readCompressedU16_chunk hreadCount
  obtain ⟨rfl, hreadLe, hreadChunk⟩ := advance_chunk hread
  simp only [Nat.one_mul, Nat.mul_one] at *
  simp only [AddressTableLookup.encode, encodeCounted, length_slice hwriteLe, length_slice hreadLe]
  exact hkeyChunk.append ((hwriteCountChunk.append hwriteChunk).append (hreadCountChunk.append hreadChunk))

theorem lookupFrames_chunk {writable readonly : Nat} {totals : Nat × Nat}
    (h : lookupFrames bytes n writable readonly o = .ok (totals, o')) :
    (lookupsFrom bytes n o).length = n ∧
      Chunk bytes o o' ((lookupsFrom bytes n o).flatMap AddressTableLookup.encode) := by
  induction n generalizing o writable readonly with
  | zero =>
    cases h
    exact ⟨rfl, .nil bytes _⟩
  | succ n ih =>
    obtain ⟨lookup, o₁, writable', readonly', hlookup, hchunk, hrest⟩ := lookupFrames_succ h
    obtain ⟨hlength, hrestChunk⟩ := ih hrest
    simp only [lookupsFrom, hlookup, List.length_cons, List.flatMap_cons]
    exact ⟨by rw [hlength], hchunk.append hrestChunk⟩

/-! ### V1 -/

theorem uncheckedReadByte_chunk (h : o < bytes.length) : Chunk bytes o (o + 1) [uncheckedReadByte bytes o] := by
  refine .singleton ?_
  rw [uncheckedReadByte, List.getD_eq_getElem?_getD, List.getElem?_eq_getElem h]
  rfl

theorem littleEndian_slice (h : o + n ≤ bytes.length) :
    littleEndian n (ofLittleEndian (slice bytes o n)) = slice bytes o n := by
  have hbytes := littleEndian_ofLittleEndian (slice bytes o n)
  rwa [length_slice h] at hbytes

theorem ofLittleEndian_slice_lt (h : o + n ≤ bytes.length) : ofLittleEndian (slice bytes o n) < 256 ^ n := by
  have hlt := ofLittleEndian_lt (slice bytes o n)
  rwa [length_slice h] at hlt

theorem readV1Header_chunk (bytes : Bytes) (o : Nat) (h : o + v1HeaderSize ≤ bytes.length) :
    (readV1Header bytes o).dataLen < 2 ^ 16 ∧ Chunk bytes o (o + v1HeaderSize) ((readV1Header bytes o).programIdIndex ::
      (readV1Header bytes o).numAccounts :: littleEndian 2 (readV1Header bytes o).dataLen) := by
  unfold v1HeaderSize at *
  refine ⟨ofLittleEndian_slice_lt (by omega), ?_⟩
  have hlen : Chunk bytes (o + 1 + 1) (o + 1 + 1 + 2) (slice bytes (o + 2) 2) := .slice (by omega)
  rw [readV1Header, littleEndian_slice (by omega)]
  exact (uncheckedReadByte_chunk (by omega)).append ((uncheckedReadByte_chunk (by omega)).append hlen)

theorem v1Instructions_chunk {p : Nat} (hheaders : o + v1HeaderSize * n ≤ bytes.length)
    (hpayloads : p + totalPayloadLen bytes n o ≤ bytes.length) :
    (v1Instructions bytes n o p).length = n ∧
      (∀ i ∈ v1Instructions bytes n o p, i.accounts.length < 2 ^ 8 ∧ i.data.length < 2 ^ 16) ∧
      Chunk bytes o (o + v1HeaderSize * n) ((v1Instructions bytes n o p).flatMap Instruction.header) ∧
      Chunk bytes p (p + totalPayloadLen bytes n o) ((v1Instructions bytes n o p).flatMap Instruction.payload) := by
  induction n generalizing o p with
  | zero => exact ⟨rfl, by simp [v1Instructions], .nil bytes o, .nil bytes p⟩
  | succ n ih =>
    rw [Nat.mul_succ] at hheaders
    rw [totalPayloadLen] at hpayloads
    obtain ⟨hdataLt, hheader⟩ := readV1Header_chunk bytes o (by omega)
    have haccountsLt := (readV1Header bytes o).numAccounts.toNat_lt
    simp only [v1Instructions, totalPayloadLen]
    generalize readV1Header bytes o = header at *
    obtain ⟨hlength, hvalid, hheadersChunk, hpayloadsChunk⟩ :=
      ih (o := o + v1HeaderSize) (p := p + header.numAccounts.toNat + header.dataLen) (by omega) (by omega)
    have haccounts : p + header.numAccounts.toNat ≤ bytes.length := by omega
    have hdata : p + header.numAccounts.toNat + header.dataLen ≤ bytes.length := by omega
    simp only [List.length_cons, List.forall_mem_cons, List.flatMap_cons, Instruction.header, Instruction.payload,
      length_slice haccounts, length_slice hdata, UInt8.ofNat_toNat]
    refine ⟨by rw [hlength], ⟨⟨haccountsLt, hdataLt⟩, hvalid⟩, ?_, ?_⟩
    · have hstop : o + v1HeaderSize * (n + 1) = o + v1HeaderSize + v1HeaderSize * n := by
        rw [Nat.mul_succ]
        omega
      rw [hstop]
      exact hheader.append hheadersChunk
    · have hstop : p + (header.numAccounts.toNat + header.dataLen + totalPayloadLen bytes n (o + v1HeaderSize)) =
          p + header.numAccounts.toNat + header.dataLen + totalPayloadLen bytes n (o + v1HeaderSize) := by omega
      rw [hstop]
      exact ((Chunk.slice haccounts).append (.slice hdata)).append hpayloadsChunk

/-! ### The config section -/

/-- The words of the fields in front of each field, for the masks that pass. -/
theorem mask_words : ∀ mask < 2 ^ 5, hasBit mask 0 = hasBit mask 1 →
    countOnes (mask % 2 ^ 0) = 0 ∧ countOnes (mask % 2 ^ 2) = 2 * (hasBit mask 0).toNat ∧
    countOnes (mask % 2 ^ 3) = 2 * (hasBit mask 0).toNat + (hasBit mask 2).toNat ∧
    countOnes (mask % 2 ^ 4) = 2 * (hasBit mask 0).toNat + (hasBit mask 2).toNat + (hasBit mask 3).toNat ∧
    countOnes mask =
      2 * (hasBit mask 0).toNat + (hasBit mask 2).toNat + (hasBit mask 3).toNat + (hasBit mask 4).toNat ∧
    mask = 3 * (hasBit mask 0).toNat + 4 * (hasBit mask 2).toNat + 8 * (hasBit mask 3).toNat +
      16 * (hasBit mask 4).toNat := by
  decide

def readValue (bytes : Bytes) (present : Bool) (offset width : Nat) : Option Nat :=
  if present then some (ofLittleEndian (slice bytes offset width)) else none

theorem readValue_chunk (bytes : Bytes) (o n : Nat) (present : Bool) (h : o + n * present.toNat ≤ bytes.length) :
    (∀ value ∈ readValue bytes present o n, value < 256 ^ n) ∧
      Chunk bytes o (o + n * present.toNat) (TransactionConfig.encodeValue n (readValue bytes present o n)) := by
  cases present with
  | false => exact ⟨by simp [readValue], .nil bytes o⟩
  | true =>
    simp only [Bool.toNat_true, Nat.mul_one] at h ⊢
    refine ⟨by simpa [readValue] using ofLittleEndian_slice_lt h, ?_⟩
    simp only [readValue, if_true, TransactionConfig.encodeValue, littleEndian_slice h]
    exact .slice h

theorem wordOffset_map (frame : TransactionConfigFrame) (hpresent : frame.maskOffset ≠ 0) (bit width : Nat) :
    ((frame.wordOffset bit).map fun offset => ofLittleEndian (slice bytes offset width)) =
      readValue bytes (hasBit frame.mask bit) (frame.valuesOffset + countOnes (frame.mask % 2 ^ bit) * 4) width := by
  simp only [TransactionConfigFrame.wordOffset, TransactionConfigFrame.wordIndexForBit, readValue, hpresent, false_or]
  cases hasBit frame.mask bit <;> simp

structure TransactionConfig.Bounded (c : TransactionConfig) : Prop where
  priorityFeeLamports : ∀ value ∈ c.priorityFeeLamports, value < 256 ^ 8
  computeUnitLimit : ∀ value ∈ c.computeUnitLimit, value < 256 ^ 4
  loadedAccountsDataSizeLimit : ∀ value ∈ c.loadedAccountsDataSizeLimit, value < 256 ^ 4
  requestedHeapSize : ∀ value ∈ c.requestedHeapSize, value < 256 ^ 4

theorem isSome_readValue (present : Bool) (offset width : Nat) :
    (readValue bytes present offset width).isSome = present := by
  cases present <;> rfl

theorem config_chunk {maskOffset mask : Nat} {frame : TransactionConfigFrame} (hpresent : maskOffset ≠ 0)
    (h : TransactionConfigFrame.tryNew bytes maskOffset mask o = .ok (frame, o')) :
    ∃ config, frame.config bytes = some config ∧ config.mask = mask ∧ config.Bounded ∧
      Chunk bytes o o' config.values := by
  simp only [TransactionConfigFrame.tryNew, bind_eq_ok] at h
  obtain ⟨u, hmask, maskOffset', hmaskOffset, valuesOffset, hvaluesOffset, stop, hadvance, ⟨⟩⟩ := h
  obtain rfl := tryU32Offset_eq hmaskOffset
  obtain rfl := tryU32Offset_eq hvaluesOffset
  obtain ⟨u, hlt, hbits⟩ := bind_eq_ok.mp hmask
  rw [require_eq_ok] at hlt hbits
  obtain ⟨hword₀, hword₂, hword₃, hword₄, hones, hmask⟩ := mask_words mask hlt hbits
  obtain ⟨rfl, hle, -⟩ := advance_chunk hadvance
  rw [TransactionConfigFrame.config, if_neg hpresent]
  simp only [wordOffset_map ⟨maskOffset', mask, valuesOffset, countOnes mask⟩ hpresent, hword₀, hword₂, hword₃,
    hword₄]
  generalize hasBit mask 0 = fee, hasBit mask 2 = units, hasBit mask 3 = size, hasBit mask 4 = heap at *
  rw [hones] at hle ⊢
  have hfee := readValue_chunk bytes (valuesOffset + 0 * 4) 8 fee (by omega)
  have hunits := readValue_chunk bytes (valuesOffset + 2 * fee.toNat * 4) 4 units (by omega)
  have hsize := readValue_chunk bytes (valuesOffset + (2 * fee.toNat + units.toNat) * 4) 4 size (by omega)
  have hheap := readValue_chunk bytes (valuesOffset + (2 * fee.toNat + units.toNat + size.toNat) * 4) 4 heap (by omega)
  refine ⟨_, rfl, ?_, ⟨hfee.1, hunits.1, hsize.1, hheap.1⟩, ?_⟩
  · simp only [TransactionConfig.mask, isSome_readValue]
    rw [hmask]
    cases fee <;> cases units <;> cases size <;> cases heap <;> rfl
  · have hfeeStop : valuesOffset + 0 * 4 + 8 * fee.toNat = valuesOffset + 2 * fee.toNat * 4 := by omega
    have hunitsStop : valuesOffset + 2 * fee.toNat * 4 + 4 * units.toNat =
        valuesOffset + (2 * fee.toNat + units.toNat) * 4 := by omega
    have hsizeStop : valuesOffset + (2 * fee.toNat + units.toNat) * 4 + 4 * size.toNat =
        valuesOffset + (2 * fee.toNat + units.toNat + size.toNat) * 4 := by omega
    have hheapStop : valuesOffset + (2 * fee.toNat + units.toNat + size.toNat) * 4 + 4 * heap.toNat =
        valuesOffset + (2 * fee.toNat + units.toNat + size.toNat + heap.toNat) * 4 := by omega
    rw [hfeeStop] at hfee
    rw [hunitsStop] at hunits
    rw [hsizeStop] at hsize
    rw [hheapStop] at hheap
    have hall := hfee.2.append (hunits.2.append (hsize.2.append hheap.2))
    rwa [Nat.zero_mul, Nat.add_zero] at hall

end Readers

/-! ### The layout of a framed transaction -/

def lengthBound : TransactionVersion → Nat
  | .legacy | .v0 => 2 ^ 16
  | .v1 | .magicblock => 2 ^ 8

/-- The content fits the layout of its version. -/
structure TransactionContent.WellFormed (c : TransactionContent) : Prop where
  keys_count : c.staticAccountKeys.length < 2 ^ 8
  keys : ∀ key ∈ c.staticAccountKeys, key.length = pubkeySize
  blockhash : c.recentBlockhash.length = hashSize
  instructions_count : c.instructions.length < lengthBound c.version
  instructions : ∀ i ∈ c.instructions, i.accounts.length < lengthBound c.version ∧ i.data.length < 2 ^ 16
  config : match c.version with
    | .legacy | .v0 => c.config = none
    | .v1 | .magicblock => ∃ config, c.config = some config ∧ config.Bounded
  /-- Otherwise the first byte would be a version. -/
  legacy : c.version = .legacy → c.numRequiredSignatures.toNat < 128

/-- The byte string is the layout of the content of its frame. -/
structure Laid (bytes : Bytes) (frame : TransactionFrame) : Prop where
  wellFormed : (frame.content bytes).WellFormed
  encode : (frame.content bytes).encode = bytes
  message : frame.messageData bytes = (frame.content bytes).message

section Laid

variable {bytes : Bytes} {frame : TransactionFrame} {o o' : Nat}

theorem signatures_chunk {f : SignatureFrame} (h : SignatureFrame.tryNew bytes o = .ok (f, o')) :
    f.offset = o + 1 ∧ o' = f.offset + f.numSignatures.toNat * signatureSize ∧ o' ≤ bytes.length ∧
    Chunk bytes o o' (f.numSignatures :: (groups signatureSize f.numSignatures.toNat
      (slice bytes f.offset (f.numSignatures.toNat * signatureSize))).flatten) := by
  simp only [SignatureFrame.tryNew, bind_eq_ok, Prod.exists] at h
  obtain ⟨numSignatures, next, hbyte, u, -, offset, hoffset, stop, hadvance, ⟨⟩⟩ := h
  obtain rfl := tryU32Offset_eq hoffset
  obtain ⟨hstop, hle, hchunk⟩ := advance_chunk hadvance
  refine ⟨(readByte_chunk hbyte).stop, hstop, hle, ?_⟩
  rw [flatten_groups_slice (hstop ▸ hle)]
  exact (readByte_chunk hbyte).append hchunk

theorem keys_chunk {f : StaticAccountKeysFrame} (h : StaticAccountKeysFrame.tryNew bytes o = .ok (f, o')) :
    f.offset = o + 1 ∧ o' = f.offset + f.numStaticAccounts.toNat * pubkeySize ∧ o' ≤ bytes.length ∧
    Chunk bytes o o' (f.numStaticAccounts :: (groups pubkeySize f.numStaticAccounts.toNat
      (slice bytes f.offset (f.numStaticAccounts.toNat * pubkeySize))).flatten) := by
  simp only [StaticAccountKeysFrame.tryNew, bind_eq_ok, Prod.exists] at h
  obtain ⟨numStaticAccounts, next, hbyte, u, -, offset, hoffset, stop, hadvance, ⟨⟩⟩ := h
  obtain rfl := tryU32Offset_eq hoffset
  obtain ⟨hstop, hle, hchunk⟩ := advance_chunk hadvance
  refine ⟨(readByte_chunk hbyte).stop, hstop, hle, ?_⟩
  rw [flatten_groups_slice (hstop ▸ hle)]
  exact (readByte_chunk hbyte).append hchunk

theorem header_chunk {f : MessageHeaderFrame} (h : MessageHeaderFrame.tryNewLegacyOrV0 bytes o = .ok (f, o')) :
    f.offset = o ∧
      ((f.version = .legacy ∧ f.numRequiredSignatures.toNat < 128 ∧ Chunk bytes o o'
        [f.numRequiredSignatures, f.numReadonlySignedAccounts, f.numReadonlyUnsignedAccounts]) ∨
      (f.version = .v0 ∧ ∃ o₁, Chunk bytes o o₁ [messageVersionPrefix] ∧ Chunk bytes o₁ o'
        [f.numRequiredSignatures, f.numReadonlySignedAccounts, f.numReadonlyUnsignedAccounts])) := by
  simp only [MessageHeaderFrame.tryNewLegacyOrV0, bind_eq_ok, Prod.exists] at h
  obtain ⟨offset, hoffset, version, required, o₁, hversion, signed, o₂, hsigned, unsigned, o₃, hunsigned, ⟨⟩⟩ := h
  refine ⟨tryU32Offset_eq hoffset, ?_⟩
  have hrest := (readByte_chunk hsigned).append (readByte_chunk hunsigned)
  obtain ⟨⟨lead, next⟩, hlead, hversion⟩ := bind_eq_ok.mp hversion
  have hleadChunk := readByte_chunk hlead
  dsimp only at hversion
  split at hversion
  · next hbit =>
    obtain ⟨u, hzero, hversion⟩ := bind_eq_ok.mp hversion
    obtain ⟨⟨required', next'⟩, hrequired, hversion⟩ := bind_eq_ok.mp hversion
    cases hversion
    rw [require_eq_ok] at hzero
    obtain rfl := eq_messageVersionPrefix hbit hzero
    exact .inr ⟨rfl, next, hleadChunk, (readByte_chunk hrequired).append hrest⟩
  · next hbit =>
    cases hversion
    exact .inl ⟨rfl, and_high_eq_zero.mp (not_not.mp hbit), hleadChunk.append hrest⟩

theorem instructions_chunk {f : InstructionsFrame} (h : InstructionsFrame.tryNewForLegacyAndV0 bytes o = .ok (f, o')) :
    (f.iter bytes).length < 2 ^ 16 ∧
      (∀ i ∈ f.iter bytes, i.accounts.length < 2 ^ 16 ∧ i.data.length < 2 ^ 16) ∧
      Chunk bytes o o' (encodeCompressedU16 (f.iter bytes).length ++ (f.iter bytes).flatMap Instruction.encode) := by
  simp only [InstructionsFrame.tryNewForLegacyAndV0, bind_eq_ok, Prod.exists] at h
  obtain ⟨numInstructions, o₁, hcount, u, -, offset, hoffset, frames, o₂, hframes, ⟨⟩⟩ := h
  obtain rfl := tryU32Offset_eq hoffset
  obtain ⟨hlt, hcountChunk⟩ := readCompressedU16_chunk hcount
  obtain ⟨hlength, hvalid, hchunk⟩ := instructionFrames_chunk hframes
  simp only [InstructionsFrame.iter, hlength]
  exact ⟨hlt, hvalid, hcountChunk.append hchunk⟩

theorem lookups_chunk {f : AddressTableLookupFrame} (h : AddressTableLookupFrame.tryNew bytes o = .ok (f, o')) :
    Chunk bytes o o' (UInt8.ofNat (lookupsFrom bytes f.numAddressTableLookups.toNat f.offset).length ::
      (lookupsFrom bytes f.numAddressTableLookups.toNat f.offset).flatMap AddressTableLookup.encode) := by
  simp only [AddressTableLookupFrame.tryNew, bind_eq_ok, Prod.exists] at h
  obtain ⟨numLookups, o₁, hbyte, u, -, u, -, offset, hoffset, _, _, o₂, hframes, writable, -, readonly, -, ⟨⟩⟩ := h
  obtain rfl := tryU32Offset_eq hoffset
  obtain ⟨hlength, hchunk⟩ := lookupFrames_chunk hframes
  rw [hlength, UInt8.ofNat_toNat]
  exact (readByte_chunk hbyte).append hchunk

/-- The parts of a legacy or V0 message, from its header on. -/
theorem legacyBody_chunk {c : TransactionContent} {keys : StaticAccountKeysFrame} {instructions : InstructionsFrame}
    {o₁ o₂ o₃ o₄ : Nat} (hheader : Chunk bytes o o₁ c.header)
    (hkeys : StaticAccountKeysFrame.tryNew bytes o₁ = .ok (keys, o₂))
    (hblockhash : advanceOffsetForType hashSize bytes o₂ = .ok o₃)
    (hinstructions : InstructionsFrame.tryNewForLegacyAndV0 bytes o₃ = .ok (instructions, o₄))
    (hckeys : c.staticAccountKeys = groups pubkeySize keys.numStaticAccounts.toNat
      (slice bytes keys.offset (keys.numStaticAccounts.toNat * pubkeySize)))
    (hcblockhash : c.recentBlockhash = slice bytes o₂ hashSize)
    (hcinstructions : c.instructions = instructions.iter bytes) :
    Chunk bytes o o₄ c.legacyBody := by
  obtain ⟨-, -, -, hkeysChunk⟩ := keys_chunk hkeys
  obtain ⟨-, -, hblockhashChunk⟩ := advance_chunk hblockhash
  obtain ⟨-, -, hinstructionsChunk⟩ := instructions_chunk hinstructions
  rw [Nat.one_mul] at hblockhashChunk
  rw [TransactionContent.legacyBody, hckeys, hcblockhash, hcinstructions, length_groups, UInt8.ofNat_toNat]
  exact hheader.append (hkeysChunk.append (hblockhashChunk.append hinstructionsChunk))

theorem laid_of_legacyOrV0 (h : TransactionFrame.tryNewAsLegacyOrV0 bytes = .ok frame) : Laid bytes frame := by
  simp only [TransactionFrame.tryNewAsLegacyOrV0, bind_eq_ok, Prod.exists] at h
  obtain ⟨signature, o₁, hsignature, header, o₂, hheader, keys, o₃, hkeys, blockhashOffset, hblockhashOffset, o₄,
    hblockhash, instructions, o₅, hinstructions, lookup, o₆, hlookup, u, hend, dataLen, hdataLen, h⟩ := h
  have hframe := (Except.ok.inj h).symm
  obtain rfl := tryU32Offset_eq hblockhashOffset
  obtain rfl := tryU32Offset_eq hdataLen
  rw [require_eq_ok] at hend
  obtain ⟨-, hkeysStop, hkeysLe, -⟩ := keys_chunk hkeys
  obtain ⟨hblockhashStop, hblockhashLe, -⟩ := advance_chunk hblockhash
  obtain ⟨hcount, hvalid, -⟩ := instructions_chunk hinstructions
  obtain ⟨hoffset, hversion⟩ := header_chunk hheader
  have hbody : ∀ o, Chunk bytes o o₂ (frame.content bytes).header → Chunk bytes o o₅ (frame.content bytes).legacyBody :=
    fun o hchunk => legacyBody_chunk hchunk hkeys hblockhash hinstructions (by rw [hframe]; rfl) (by rw [hframe]; rfl)
      (by rw [hframe]; rfl)
  -- the message reaches from behind the signatures to the end
  have hmessage : Chunk bytes o₁ dataLen (frame.content bytes).message := by
    rcases hversion with ⟨hlegacy, -, hheaderChunk⟩ | ⟨hv0, start, htag, hheaderChunk⟩
    · have hcontent : (frame.content bytes).version = .legacy := by rw [hframe]; exact hlegacy
      rw [hlegacy] at hlookup
      cases hlookup
      simp only [TransactionContent.message, hcontent]
      exact hbody o₁ (by rw [hframe]; exact hheaderChunk)
    · have hcontent : (frame.content bytes).version = .v0 := by rw [hframe]; exact hv0
      rw [hv0] at hlookup
      simp only [TransactionContent.message, hcontent]
      refine htag.append ((hbody start (by rw [hframe]; exact hheaderChunk)).append ?_)
      rw [TransactionContent.lookups, hframe]
      exact lookups_chunk hlookup
  have hsignatures : Chunk bytes 0 o₁ (UInt8.ofNat (frame.content bytes).signatures.length ::
      (frame.content bytes).signatures.flatten) := by
    have hlength : (frame.content bytes).signatures.length = signature.numSignatures.toNat := by
      rw [hframe]
      exact length_groups ..
    rw [hlength, UInt8.ofNat_toNat, hframe]
    exact (signatures_chunk hsignature).2.2.2
  have hlegacyOrV0 : (frame.content bytes).version = .legacy ∨ (frame.content bytes).version = .v0 := by
    rw [hframe]
    exact hversion.imp (·.1) (·.1)
  have hbound : lengthBound (frame.content bytes).version = 2 ^ 16 := by
    rcases hlegacyOrV0 with hv | hv <;> rw [hv] <;> rfl
  refine ⟨⟨?_, ?_, ?_, ?_, ?_, ?_, ?_⟩, ?_, ?_⟩
  · rw [hframe]
    exact (length_groups ..).trans_lt keys.numStaticAccounts.toNat_lt
  · rw [hframe]
    exact fun key => length_of_mem_groups (length_slice (hkeysStop ▸ hkeysLe))
  · rw [hframe]
    exact length_slice (hblockhashStop ▸ hblockhashLe)
  · rw [hbound, hframe]
    exact hcount
  · rw [hbound, hframe]
    exact hvalid
  · have hconfig : (frame.content bytes).config = none := by
      rw [hframe]
      rfl
    rcases hlegacyOrV0 with hv | hv <;> simp only [hv, hconfig]
  · intro hv
    rw [hframe] at hv ⊢
    rcases hversion with ⟨-, hrequired, -⟩ | ⟨hv0, -⟩
    · exact hrequired
    · exact absurd (hv0.symm.trans hv) (by decide)
  · have hencode : (frame.content bytes).encode = UInt8.ofNat (frame.content bytes).signatures.length ::
        (frame.content bytes).signatures.flatten ++ (frame.content bytes).message := by
      rcases hlegacyOrV0 with hv | hv <;> simp only [TransactionContent.encode, hv]
    have hall := hsignatures.append hmessage
    rw [hend] at hall
    rw [hencode]
    exact hall.whole.symm
  · have hrange : frame.messageRange = (o₁, dataLen) := by
      have hstart : frame.messageHeader.offset = o₁ := by rw [hframe]; exact hoffset
      have hstop : frame.dataLen = dataLen := by rw [hframe]
      rw [TransactionFrame.messageRange]
      rcases hlegacyOrV0 with hv | hv <;> simp only [show frame.version = _ from hv, hstart, hstop]
    rw [TransactionFrame.messageData, hrange]
    exact hmessage.eq_slice.symm

theorem v1Frame_chunk {f : InstructionsFrame} {n : Nat} (h : InstructionsFrame.tryNewForV1 bytes o n = .ok (f, o')) :
    (f.iter bytes).length = n ∧ (∀ i ∈ f.iter bytes, i.accounts.length < 2 ^ 8 ∧ i.data.length < 2 ^ 16) ∧
      Chunk bytes o o' ((f.iter bytes).flatMap Instruction.header ++ (f.iter bytes).flatMap Instruction.payload) := by
  simp only [InstructionsFrame.tryNewForV1, bind_eq_ok] at h
  obtain ⟨headersOffset, hheadersOffset, u, hheaders, payloadsOffset, hpayloadsOffset, u, hpayloads, ⟨⟩⟩ := h
  obtain rfl := tryU32Offset_eq hheadersOffset
  obtain rfl := tryU32Offset_eq hpayloadsOffset
  rw [checkRemaining, require_eq_ok] at hheaders hpayloads
  obtain ⟨hlength, hvalid, hheadersChunk, hpayloadsChunk⟩ := v1Instructions_chunk hheaders hpayloads
  exact ⟨hlength, hvalid, hheadersChunk.append hpayloadsChunk⟩

theorem versionOfPrefix_eq {byte : UInt8} {version : TransactionVersion} (h : versionOfPrefix byte = .ok version) :
    (version = .v1 ∧ byte = v1Prefix) ∨ (version = .magicblock ∧ byte = magicblockPrefix) := by
  unfold versionOfPrefix at h
  split_ifs at h with hv1 hmagicblock
  · cases h
    exact .inl ⟨rfl, hv1⟩
  · cases h
    exact .inr ⟨rfl, hmagicblock⟩

theorem laid_of_v1 (h : TransactionFrame.tryNewAsV1 bytes = .ok frame) : Laid bytes frame := by
  simp only [TransactionFrame.tryNewAsV1, bind_eq_ok, Prod.exists] at h
  obtain ⟨u, hfixed, version, hversion, o₁, hkeys, configFrame, o₂, hconfig, instructions, o₃, hinstructions,
    signaturesOffset, hsignaturesOffset, o₄, hsignatures, u, hend, dataLen, hdataLen, h⟩ := h
  have hframe := (Except.ok.inj h).symm
  obtain rfl := tryU32Offset_eq hsignaturesOffset
  rw [require_eq_ok] at hend
  rw [checkRemaining, require_eq_ok] at hfixed
  replace hfixed : 42 ≤ bytes.length := hfixed
  have hblockhashLe : 8 + 32 ≤ bytes.length := by omega
  obtain ⟨hkeysStop, hkeysLe, hkeysChunk⟩ := advance_chunk hkeys
  obtain ⟨config, hcontentConfig, hmask, hbounded, hvaluesChunk⟩ := config_chunk (by decide) hconfig
  obtain ⟨hcount, hvalid, hinstructionsChunk⟩ := v1Frame_chunk hinstructions
  obtain ⟨hsignaturesStop, hsignaturesLe, hsignaturesChunk⟩ := advance_chunk hsignatures
  have hkeysLength : (frame.content bytes).staticAccountKeys.length = (uncheckedReadByte bytes 41).toNat := by
    rw [hframe]
    exact length_groups ..
  have hkeysFlatten : (frame.content bytes).staticAccountKeys.flatten =
      slice bytes 42 ((uncheckedReadByte bytes 41).toNat * pubkeySize) := by
    rw [hframe]
    exact flatten_groups_slice (hkeysStop ▸ hkeysLe)
  have hcontent : (frame.content bytes).config = some config := by rw [hframe]; exact hcontentConfig
  have hinstructionsEq : (frame.content bytes).instructions = instructions.iter bytes := by rw [hframe]; rfl
  have hbody : Chunk bytes 1 signaturesOffset (frame.content bytes).v1Body := by
    have hheader : Chunk bytes 1 4 (frame.content bytes).header := by
      rw [hframe]
      exact (uncheckedReadByte_chunk (by omega)).append
        ((uncheckedReadByte_chunk (by omega)).append (uncheckedReadByte_chunk (by omega)))
    have hmaskChunk : Chunk bytes 4 8 (littleEndian 4 config.mask) := by
      have hle : 4 + 4 ≤ bytes.length := by omega
      rw [hmask, littleEndian_slice hle]
      exact .slice hle
    have hblockhash : Chunk bytes 8 40 (frame.content bytes).recentBlockhash := by
      rw [hframe]
      exact .slice hblockhashLe
    simp only [TransactionContent.v1Body, hcontent, Option.getD_some, hinstructionsEq, hcount, hkeysLength,
      hkeysFlatten, UInt8.ofNat_toNat]
    exact hheader.append (hmaskChunk.append (hblockhash.append
      (((uncheckedReadByte_chunk (by omega)).append ((uncheckedReadByte_chunk (by omega)).append hkeysChunk)).append
        (hvaluesChunk.append hinstructionsChunk))))
  have hmessage : Chunk bytes 0 signaturesOffset (frame.content bytes).message := by
    have hlead : Chunk bytes 0 1 [uncheckedReadByte bytes 0] := uncheckedReadByte_chunk (by omega)
    have hcontentVersion : (frame.content bytes).version = version := by rw [hframe]; rfl
    rcases versionOfPrefix_eq hversion with ⟨hv, hbyte⟩ | ⟨hv, hbyte⟩
    all_goals
      simp only [TransactionContent.message, hcontentVersion, hv]
      exact (hbyte ▸ hlead).append hbody
  have hv1 : (frame.content bytes).version = .v1 ∨ (frame.content bytes).version = .magicblock := by
    rw [hframe]
    exact (versionOfPrefix_eq hversion).imp (·.1) (·.1)
  have hbound : lengthBound (frame.content bytes).version = 2 ^ 8 := by
    rcases hv1 with hv | hv <;> rw [hv] <;> rfl
  refine ⟨⟨?_, ?_, ?_, ?_, ?_, ?_, ?_⟩, ?_, ?_⟩
  · rw [hkeysLength]
    exact UInt8.toNat_lt _
  · rw [hframe]
    exact fun key => length_of_mem_groups (length_slice (hkeysStop ▸ hkeysLe))
  · rw [hframe]
    exact length_slice hblockhashLe
  · rw [hbound, hinstructionsEq, hcount]
    exact UInt8.toNat_lt _
  · rw [hbound, hinstructionsEq]
    exact hvalid
  · rcases hv1 with hv | hv <;> simp only [hv, hcontent] <;> exact ⟨config, rfl, hbounded⟩
  · intro hlegacy
    rcases hv1 with hv | hv <;> rw [hv] at hlegacy <;> cases hlegacy
  · have hflatten : (frame.content bytes).signatures.flatten =
        slice bytes signaturesOffset ((uncheckedReadByte bytes 1).toNat * signatureSize) := by
      rw [hframe]
      exact flatten_groups_slice (hsignaturesStop ▸ hsignaturesLe)
    have hencode : (frame.content bytes).encode =
        (frame.content bytes).message ++ (frame.content bytes).signatures.flatten := by
      rcases hv1 with hv | hv <;> simp only [TransactionContent.encode, hv]
    have hall := hmessage.append hsignaturesChunk
    rw [hend] at hall
    rw [hencode, hflatten]
    exact hall.whole.symm
  · have hrange : frame.messageRange = (0, signaturesOffset) := by
      have hstart : frame.messageHeader.offset = 0 := by rw [hframe]
      have hstop : frame.signature.offset = signaturesOffset := by rw [hframe]
      rw [TransactionFrame.messageRange]
      rcases hv1 with hv | hv <;> simp only [show frame.version = _ from hv, hstart, hstop]
    rw [TransactionFrame.messageData, hrange]
    exact hmessage.eq_slice.symm

theorem laid_of_framed (h : TransactionFrame.tryNew bytes = .ok frame) : Laid bytes frame := by
  obtain ⟨u, -, h⟩ := bind_eq_ok.mp h
  obtain ⟨legacyOrV0, -, h⟩ := bind_eq_ok.mp h
  cases legacyOrV0 with
  | true => exact laid_of_legacyOrV0 h
  | false => exact laid_of_v1 h

end Laid

end View

end MagicEngine
