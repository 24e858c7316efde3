import MagicEngine.Lib.Regions
import MagicEngine.View.Layout

/-!
# Reads of a framed transaction

The accessors of a view read at offsets that the parser has stored, most of them without bounds checks. Here each of
them is run on checked reads, which fail outside of the buffer: on the frame of a parsed transaction none fails, and the
iterators give out what `TransactionFrame.content` says. The sections of the frame tile the buffer, and the message is
all of it but the section of the signatures.
-/

namespace MagicEngine

open Codec Regions

namespace View

/-! ### Checked reads -/

/-- `bytes[offset..offset + len]`, or the same without a check; `none` is a read outside of the buffer. -/
def readSliceData (bytes : Bytes) (offset len : Nat) : Option Bytes :=
  if offset + len ≤ bytes.length then some (slice bytes offset len) else none

inductive Outcome (ι α : Type) where
  | outOfBounds
  | exhausted
  | yielded (item : α) (rest : ι)
deriving DecidableEq, Repr

/-- The iterator gives out these items and ends, and no read on the way is out of bounds. -/
inductive Yields {ι α : Type} (next : ι → Outcome ι α) : ι → List α → Prop where
  | exhausted {iter : ι} : next iter = .exhausted → Yields next iter []
  | yielded {iter rest : ι} {item : α} {items : List α} :
      next iter = .yielded item rest → Yields next rest items → Yields next iter (item :: items)

/-- An item read at the cursor and the cursor behind it. -/
def Outcome.ofRead {ι α : Type} (read : Option (α × ι)) : Outcome ι α :=
  match read with
  | none => .outOfBounds
  | some (item, rest) => .yielded item rest

inductive InstructionsIterator where
  | legacyAndV0 (offset numInstructions index : Nat) (frames : List LegacyAndV0InstructionFrame)
  | v1 (index numInstructions headersOffset payloadsOffset : Nat)
deriving DecidableEq, Repr

def forLegacyAndV0 (bytes : Bytes) (offset : Nat) (frame : LegacyAndV0InstructionFrame) : Option (Instruction × Nat) := do
  let programIdIndex ← bytes[offset]?
  let accountsOffset := offset + 1 + frame.numAccountsLen
  let accounts ← readSliceData bytes accountsOffset frame.numAccounts
  let dataOffset := accountsOffset + frame.numAccounts + frame.dataLenLen
  let data ← readSliceData bytes dataOffset frame.dataLen
  pure ({ programIdIndex, accounts, data }, dataOffset + frame.dataLen)

/-- `read_v1_header` of an instruction and `for_v1`. -/
def forV1 (bytes : Bytes) (headersOffset payloadsOffset : Nat) : Option (Instruction × Nat) := do
  let _ ← readSliceData bytes headersOffset v1HeaderSize
  let header := readV1Header bytes headersOffset
  let accounts ← readSliceData bytes payloadsOffset header.numAccounts.toNat
  let dataOffset := payloadsOffset + header.numAccounts.toNat
  let data ← readSliceData bytes dataOffset header.dataLen
  pure ({ programIdIndex := header.programIdIndex, accounts, data }, dataOffset + header.dataLen)

def InstructionsIterator.next (bytes : Bytes) : InstructionsIterator → Outcome InstructionsIterator Instruction
  | .legacyAndV0 offset numInstructions index frames =>
    if numInstructions ≤ index then .exhausted
    else
      .ofRead do
        let frame ← frames[index]?
        let (instruction, offset) ← forLegacyAndV0 bytes offset frame
        pure (instruction, .legacyAndV0 offset numInstructions (index + 1) frames)
  | .v1 index numInstructions headersOffset payloadsOffset =>
    if numInstructions ≤ index then .exhausted
    else
      .ofRead do
        let (instruction, payloadsOffset) ← forV1 bytes headersOffset payloadsOffset
        pure (instruction, .v1 (index + 1) numInstructions (headersOffset + v1HeaderSize) payloadsOffset)

def InstructionsFrame.iterator : InstructionsFrame → InstructionsIterator
  | .legacyAndV0 numInstructions offset frames => .legacyAndV0 offset numInstructions 0 frames
  | .v1 numInstructions headersOffset payloadsOffset => .v1 0 numInstructions headersOffset payloadsOffset

structure AddressTableLookupIterator where
  offset : Nat
  numAddressTableLookups : Nat
  index : Nat
deriving DecidableEq, Repr

/-- The reads of a lookup are checked by the source itself, and a failed one ends the iteration. -/
def AddressTableLookupIterator.next (bytes : Bytes) (iter : AddressTableLookupIterator) :
    Outcome AddressTableLookupIterator AddressTableLookup :=
  if iter.index < iter.numAddressTableLookups then
    match readLookup bytes iter.offset with
    | .error _ => .exhausted
    | .ok (lookup, offset) => .yielded lookup { iter with offset, index := iter.index + 1 }
  else .exhausted

def readWord (bytes : Bytes) (width : Nat) : Option Nat → Option (Option Nat)
  | none => some none
  | some offset => (readSliceData bytes offset width).map fun word => some (ofLittleEndian word)

/-- `TransactionView::transaction_config` and the values of its view. -/
def TransactionConfigFrame.readConfig (frame : TransactionConfigFrame) (bytes : Bytes) :
    Option (Option TransactionConfig) :=
  if frame.maskOffset = 0 then some none
  else do
    let priorityFeeLamports ← readWord bytes 8 (frame.wordOffset 0)
    let computeUnitLimit ← readWord bytes 4 (frame.wordOffset 2)
    let loadedAccountsDataSizeLimit ← readWord bytes 4 (frame.wordOffset 3)
    let requestedHeapSize ← readWord bytes 4 (frame.wordOffset 4)
    pure (some { priorityFeeLamports, computeUnitLimit, loadedAccountsDataSizeLimit, requestedHeapSize })

namespace TransactionFrame

variable (frame : TransactionFrame) (bytes : Bytes)

def readSignatures : Option (List Bytes) :=
  (readSliceData bytes frame.signature.offset (frame.signature.numSignatures.toNat * signatureSize)).map
    (groups signatureSize frame.signature.numSignatures.toNat)

def readKeys : Option (List Bytes) :=
  (readSliceData bytes frame.staticAccountKeys.offset
    (frame.staticAccountKeys.numStaticAccounts.toNat * pubkeySize)).map
    (groups pubkeySize frame.staticAccountKeys.numStaticAccounts.toNat)

/-- `message_data`; a range that ends before it starts cannot be read. -/
def readMessageData : Option Bytes :=
  if frame.messageRange.1 ≤ frame.messageRange.2 then
    readSliceData bytes frame.messageRange.1 (frame.messageRange.2 - frame.messageRange.1)
  else none

end TransactionFrame

/-- The checked accessors succeed and give out what the unchecked ones do. -/
structure SafeReads (bytes : Bytes) (frame : TransactionFrame) : Prop where
  signatures : frame.readSignatures bytes = some (frame.signatures bytes)
  keys : frame.readKeys bytes = some (frame.keys bytes)
  recentBlockhash : readSliceData bytes frame.recentBlockhashOffset hashSize = some (frame.recentBlockhash bytes)
  config : frame.transactionConfigFrame.readConfig bytes = some (frame.transactionConfigFrame.config bytes)
  instructions : Yields (InstructionsIterator.next bytes) frame.instructions.iterator (frame.instructions.iter bytes)
  lookups : Yields (AddressTableLookupIterator.next bytes)
    ⟨frame.addressTableLookup.offset, frame.addressTableLookup.numAddressTableLookups.toNat, 0⟩ (frame.lookups bytes)
  messageData : frame.readMessageData bytes = some (frame.messageData bytes)

/-! ### Sections -/

def LegacyAndV0InstructionFrame.size (frame : LegacyAndV0InstructionFrame) : Nat :=
  1 + frame.numAccountsLen + frame.numAccounts + frame.dataLenLen + frame.dataLen

/-- Program index, count of accounts, accounts, length of the data, data. -/
def LegacyAndV0InstructionFrame.sections (frame : LegacyAndV0InstructionFrame) (offset : Nat) : List Region :=
  let accountsOffset := offset + 1 + frame.numAccountsLen
  let dataOffset := accountsOffset + frame.numAccounts + frame.dataLenLen
  [⟨offset, 1⟩, ⟨offset + 1, frame.numAccountsLen⟩, ⟨accountsOffset, frame.numAccounts⟩,
    ⟨accountsOffset + frame.numAccounts, frame.dataLenLen⟩, ⟨dataOffset, frame.dataLen⟩]

def legacyAndV0Sections : List LegacyAndV0InstructionFrame → Nat → List Region
  | [], _ => []
  | frame :: frames, offset => frame.sections offset ++ legacyAndV0Sections frames (offset + frame.size)

def v1HeaderSections : Nat → Nat → List Region
  | 0, _ => []
  | numInstructions + 1, offset => ⟨offset, v1HeaderSize⟩ :: v1HeaderSections numInstructions (offset + v1HeaderSize)

def v1PayloadSections (bytes : Bytes) : Nat → Nat → Nat → List Region
  | 0, _, _ => []
  | numInstructions + 1, headersOffset, payloadsOffset =>
    let header := readV1Header bytes headersOffset
    let dataOffset := payloadsOffset + header.numAccounts.toNat
    ⟨payloadsOffset, header.numAccounts.toNat⟩ :: ⟨dataOffset, header.dataLen⟩ ::
      v1PayloadSections bytes numInstructions (headersOffset + v1HeaderSize) (dataOffset + header.dataLen)

def InstructionsFrame.sections (frame : InstructionsFrame) (bytes : Bytes) : List Region :=
  match frame with
  | .legacyAndV0 _ offset frames => legacyAndV0Sections frames offset
  | .v1 numInstructions headersOffset payloadsOffset =>
    v1HeaderSections numInstructions headersOffset ++
      v1PayloadSections bytes numInstructions headersOffset payloadsOffset

def lookupSections : List AddressTableLookup → Nat → List Region
  | [], _ => []
  | lookup :: lookups, offset =>
    ⟨offset, lookup.encode.length⟩ :: lookupSections lookups (offset + lookup.encode.length)

namespace TransactionFrame

variable (frame : TransactionFrame) (bytes : Bytes)

/-- The signatures, with their count where they come first. -/
def signatureSection : Region :=
  match frame.version with
  | .legacy | .v0 => ⟨frame.signature.offset - 1, 1 + frame.signature.numSignatures.toNat * signatureSize⟩
  | .v1 | .magicblock => ⟨frame.signature.offset, frame.signature.numSignatures.toNat * signatureSize⟩

/-- The message header, with the version in front of it if there is one. -/
def headerSection : Region :=
  match frame.version with
  | .legacy => ⟨frame.messageHeader.offset, 3⟩
  | .v0 | .v1 | .magicblock => ⟨frame.messageHeader.offset, 4⟩

def lookupsSections : List Region :=
  match frame.version with
  | .v0 => ⟨frame.addressTableLookup.offset - 1, 1⟩ :: lookupSections (frame.lookups bytes) frame.addressTableLookup.offset
  | .legacy | .v1 | .magicblock => []

def sections : List Region :=
  match frame.version with
  | .legacy | .v0 =>
    [frame.signatureSection, frame.headerSection,
      ⟨frame.staticAccountKeys.offset - 1, 1⟩,
      ⟨frame.staticAccountKeys.offset, frame.staticAccountKeys.numStaticAccounts.toNat * pubkeySize⟩,
      ⟨frame.recentBlockhashOffset, hashSize⟩] ++
    (⟨frame.recentBlockhashOffset + hashSize, (encodeCompressedU16 frame.instructions.numInstructions).length⟩ ::
      frame.instructions.sections bytes) ++
    frame.lookupsSections bytes
  | .v1 | .magicblock =>
    [frame.headerSection, ⟨frame.transactionConfigFrame.maskOffset, 4⟩, ⟨frame.recentBlockhashOffset, hashSize⟩,
      -- the two counts
      ⟨frame.recentBlockhashOffset + hashSize, 2⟩,
      ⟨frame.staticAccountKeys.offset, frame.staticAccountKeys.numStaticAccounts.toNat * pubkeySize⟩,
      ⟨frame.transactionConfigFrame.valuesOffset, frame.transactionConfigFrame.numValues * 4⟩] ++
    frame.instructions.sections bytes ++ [frame.signatureSection]

end TransactionFrame

/-! ### Reads within what the parser has passed -/

section Reads

variable {bytes : Bytes} {o o' n : Nat}

theorem readSliceData_eq (h : o + n ≤ bytes.length) : readSliceData bytes o n = some (slice bytes o n) := if_pos h

theorem getElem?_eq_uncheckedReadByte (h : o < bytes.length) : bytes[o]? = some (uncheckedReadByte bytes o) := by
  rw [uncheckedReadByte, List.getD_eq_getElem?_getD, List.getElem?_eq_getElem h]
  rfl

theorem yields_legacyAndV0 (before frames : List LegacyAndV0InstructionFrame)
    (h : o + (frames.map (·.size)).sum ≤ bytes.length) :
    Yields (InstructionsIterator.next bytes)
      (.legacyAndV0 o (before.length + frames.length) before.length (before ++ frames))
      (legacyAndV0Instructions bytes frames o) := by
  induction frames generalizing before o with
  | nil => exact .exhausted (if_pos (by simp))
  | cons frame frames ih =>
    rw [List.map_cons, List.sum_cons] at h
    have hsize : frame.size = 1 + frame.numAccountsLen + frame.numAccounts + frame.dataLenLen + frame.dataLen := rfl
    have hframe : (before ++ frame :: frames)[before.length]? = some frame := by simp
    have hyields : Yields (InstructionsIterator.next bytes)
        (.legacyAndV0 (o + frame.size) (before.length + (frame :: frames).length) (before.length + 1)
          (before ++ frame :: frames)) (legacyAndV0Instructions bytes frames
            (o + 1 + frame.numAccountsLen + frame.numAccounts + frame.dataLenLen + frame.dataLen)) := by
      have hrest := ih (before ++ [frame]) (o := o + frame.size) (by omega)
      rw [List.length_append, List.append_assoc, List.length_singleton, List.singleton_append, Nat.add_assoc,
        Nat.add_comm 1] at hrest
      simpa only [List.length_cons, hsize, ← Nat.add_assoc] using hrest
    refine .yielded ?_ hyields
    have hread : forLegacyAndV0 bytes o frame = some (⟨uncheckedReadByte bytes o,
        slice bytes (o + 1 + frame.numAccountsLen) frame.numAccounts,
        slice bytes (o + 1 + frame.numAccountsLen + frame.numAccounts + frame.dataLenLen) frame.dataLen⟩,
        o + frame.size) := by
      simp only [forLegacyAndV0, getElem?_eq_uncheckedReadByte (show o < bytes.length by omega),
        readSliceData_eq (show o + 1 + frame.numAccountsLen + frame.numAccounts ≤ bytes.length by omega),
        readSliceData_eq (show o + 1 + frame.numAccountsLen + frame.numAccounts + frame.dataLenLen + frame.dataLen ≤
          bytes.length by omega), bind, Option.bind, pure, hsize, ← Nat.add_assoc]
    rw [InstructionsIterator.next, if_neg (by simp), hframe]
    simp only [bind, Option.bind, hread, pure, Outcome.ofRead]

theorem yields_v1 (index n : Nat) {p : Nat} (hheaders : o + v1HeaderSize * n ≤ bytes.length)
    (hpayloads : p + totalPayloadLen bytes n o ≤ bytes.length) :
    Yields (InstructionsIterator.next bytes) (.v1 index (index + n) o p) (v1Instructions bytes n o p) := by
  induction n generalizing index o p with
  | zero => exact .exhausted (if_pos (Nat.le_refl _))
  | succ n ih =>
    rw [Nat.mul_succ] at hheaders
    rw [totalPayloadLen] at hpayloads
    simp only [v1Instructions]
    have hread : forV1 bytes o p = some (⟨(readV1Header bytes o).programIdIndex,
        slice bytes p (readV1Header bytes o).numAccounts.toNat,
        slice bytes (p + (readV1Header bytes o).numAccounts.toNat) (readV1Header bytes o).dataLen⟩,
        p + (readV1Header bytes o).numAccounts.toNat + (readV1Header bytes o).dataLen) := by
      simp only [forV1, readSliceData_eq (show o + v1HeaderSize ≤ bytes.length by omega),
        readSliceData_eq (show p + (readV1Header bytes o).numAccounts.toNat ≤ bytes.length by omega),
        readSliceData_eq (show p + (readV1Header bytes o).numAccounts.toNat + (readV1Header bytes o).dataLen ≤
          bytes.length by omega), bind, Option.bind, pure]
    generalize readV1Header bytes o = header at *
    have hrest := ih (index + 1) (o := o + v1HeaderSize) (p := p + header.numAccounts.toNat + header.dataLen) (by omega)
      (by omega)
    rw [Nat.add_right_comm, Nat.add_assoc] at hrest
    refine .yielded ?_ hrest
    rw [InstructionsIterator.next, if_neg (by omega)]
    simp only [bind, Option.bind, hread, pure, Outcome.ofRead]

theorem yields_lookups (index n : Nat) {writable readonly : Nat} {totals : Nat × Nat}
    (h : lookupFrames bytes n writable readonly o = .ok (totals, o')) :
    Yields (AddressTableLookupIterator.next bytes) ⟨o, index + n, index⟩ (lookupsFrom bytes n o) := by
  induction n generalizing index o writable readonly with
  | zero => exact .exhausted (if_neg (Nat.lt_irrefl index))
  | succ n ih =>
    obtain ⟨lookup, o₁, writable', readonly', hlookup, -, hframes⟩ := lookupFrames_succ h
    have hrest := ih (index + 1) hframes
    rw [Nat.add_right_comm, Nat.add_assoc] at hrest
    simp only [lookupsFrom, hlookup]
    refine .yielded ?_ hrest
    simp only [AddressTableLookupIterator.next, hlookup]
    exact if_pos (by omega)

/-! ### Sections that follow each other -/

theorem consecutive_lookups {writable readonly : Nat} {totals : Nat × Nat}
    (h : lookupFrames bytes n writable readonly o = .ok (totals, o')) :
    Consecutive (lookupSections (lookupsFrom bytes n o) o) o o' := by
  induction n generalizing o writable readonly with
  | zero =>
    cases h
    rfl
  | succ n ih =>
    obtain ⟨lookup, o₁, writable', readonly', hlookup, hchunk, hframes⟩ := lookupFrames_succ h
    simp only [lookupsFrom, hlookup, lookupSections]
    have hstop := hchunk.stop
    exact ⟨rfl, hstop ▸ ih hframes⟩

theorem instructionFrames_extent {frames : List LegacyAndV0InstructionFrame}
    (h : instructionFrames bytes n o = .ok (frames, o')) (ho : o ≤ bytes.length) :
    frames.length = n ∧ o' = o + (frames.map (·.size)).sum ∧ o' ≤ bytes.length := by
  induction n generalizing o frames with
  | zero =>
    cases h
    exact ⟨rfl, rfl, ho⟩
  | succ n ih =>
    simp only [instructionFrames, bind_eq_ok, Prod.exists] at h
    obtain ⟨programIdIndex, o₁, hbyte, numAccounts, numAccountsLen, o₂, haccounts, dataLen, dataLenLen, o₃, hdata, rest,
      o₄, hrest, ⟨⟩⟩ := h
    obtain rfl : o₁ = o + 1 := (readByte_chunk hbyte).stop
    obtain ⟨rfl, -, -⟩ := skipCounted_chunk haccounts
    obtain ⟨rfl, hle, -⟩ := skipCounted_chunk hdata
    obtain ⟨hlength, hstop, hstopLe⟩ := ih hrest hle
    refine ⟨by rw [List.length_cons, hlength], ?_, hstopLe⟩
    simp only [hstop, List.map_cons, List.sum_cons, LegacyAndV0InstructionFrame.size]
    omega

theorem consecutive_legacyAndV0 (frames : List LegacyAndV0InstructionFrame) (o : Nat) :
    Consecutive (legacyAndV0Sections frames o) o (o + (frames.map (·.size)).sum) := by
  induction frames generalizing o with
  | nil => rfl
  | cons frame frames ih =>
    have hrest := ih (o + frame.size)
    rw [List.map_cons, List.sum_cons, ← Nat.add_assoc]
    refine Consecutive.append (j := o + frame.size) ?_ hrest
    simp only [LegacyAndV0InstructionFrame.sections, Consecutive, LegacyAndV0InstructionFrame.size, true_and]
    omega

theorem consecutive_v1Headers (n o : Nat) : Consecutive (v1HeaderSections n o) o (o + v1HeaderSize * n) := by
  induction n generalizing o with
  | zero => rfl
  | succ n ih =>
    have hrest := ih (o + v1HeaderSize)
    rw [Nat.add_assoc, Nat.add_comm v1HeaderSize, ← Nat.mul_succ] at hrest
    exact ⟨rfl, hrest⟩

theorem consecutive_v1Payloads (n o p : Nat) :
    Consecutive (v1PayloadSections bytes n o p) p (p + totalPayloadLen bytes n o) := by
  induction n generalizing o p with
  | zero => rfl
  | succ n ih =>
    have hrest := ih (o + v1HeaderSize) (p + (readV1Header bytes o).numAccounts.toNat + (readV1Header bytes o).dataLen)
    rw [totalPayloadLen, ← Nat.add_assoc, ← Nat.add_assoc]
    exact ⟨rfl, rfl, hrest⟩

/-! ### The parts of a frame -/

theorem mask_word_le : ∀ mask < 2 ^ 5, hasBit mask 0 = hasBit mask 1 →
    ∀ field ∈ [(0, 8), (2, 4), (3, 4), (4, 4)], hasBit mask field.1 = true →
      countOnes (mask % 2 ^ field.1) * 4 + field.2 ≤ countOnes mask * 4 := by
  decide

theorem readWord_eq {width : Nat} {word : Option Nat} (h : ∀ offset ∈ word, offset + width ≤ bytes.length) :
    readWord bytes width word = some (word.map fun offset => ofLittleEndian (slice bytes offset width)) := by
  cases word with
  | none => rfl
  | some offset => simp [readWord, readSliceData_eq (h offset rfl)]

theorem config_reads {maskOffset mask : Nat} {frame : TransactionConfigFrame}
    (h : TransactionConfigFrame.tryNew bytes maskOffset mask o = .ok (frame, o')) :
    frame.readConfig bytes = some (frame.config bytes) ∧ frame.maskOffset = maskOffset ∧ frame.valuesOffset = o ∧
      o' = o + frame.numValues * 4 := by
  simp only [TransactionConfigFrame.tryNew, bind_eq_ok] at h
  obtain ⟨u, hmask, maskOffset', hmaskOffset, valuesOffset, hvaluesOffset, stop, hadvance, ⟨⟩⟩ := h
  obtain rfl := tryU32Offset_eq hmaskOffset
  obtain rfl := tryU32Offset_eq hvaluesOffset
  obtain ⟨u, hlt, hbits⟩ := bind_eq_ok.mp hmask
  rw [require_eq_ok] at hlt hbits
  obtain ⟨rfl, hle, -⟩ := advance_chunk hadvance
  refine ⟨?_, rfl, rfl, rfl⟩
  have hword : ∀ field ∈ [(0, 8), (2, 4), (3, 4), (4, 4)], readWord bytes field.2
      (TransactionConfigFrame.wordOffset ⟨maskOffset', mask, valuesOffset, countOnes mask⟩ field.1) =
      some ((TransactionConfigFrame.wordOffset ⟨maskOffset', mask, valuesOffset, countOnes mask⟩ field.1).map
        fun offset => ofLittleEndian (slice bytes offset field.2)) := by
    intro field hfield
    refine readWord_eq fun offset hoffset => ?_
    obtain ⟨index, hindex, rfl⟩ := Option.map_eq_some_iff.mp hoffset
    unfold TransactionConfigFrame.wordIndexForBit at hindex
    split at hindex
    · cases hindex
    · next hbit =>
      cases hindex
      have hwords := mask_word_le mask hlt hbits field hfield (by simpa using (not_or.mp hbit).2)
      dsimp only
      omega
  unfold TransactionConfigFrame.readConfig TransactionConfigFrame.config
  split
  · rfl
  · rw [hword (0, 8) (by decide), hword (2, 4) (by decide), hword (3, 4) (by decide), hword (4, 4) (by decide)]
    rfl

/-- The instructions of a legacy or V0 message, with their count in front. -/
theorem instructions_reads {f : InstructionsFrame} (h : InstructionsFrame.tryNewForLegacyAndV0 bytes o = .ok (f, o')) :
    (f.iter bytes).length = f.numInstructions ∧ o' ≤ bytes.length ∧
      Yields (InstructionsIterator.next bytes) f.iterator (f.iter bytes) ∧
      Consecutive (⟨o, (encodeCompressedU16 f.numInstructions).length⟩ :: f.sections bytes) o o' := by
  simp only [InstructionsFrame.tryNewForLegacyAndV0, bind_eq_ok, Prod.exists] at h
  obtain ⟨numInstructions, o₁, hcount, u, hremaining, offset, hoffset, frames, o₂, hframes, ⟨⟩⟩ := h
  obtain rfl := tryU32Offset_eq hoffset
  rw [checkRemaining, require_eq_ok] at hremaining
  obtain ⟨-, hcountChunk⟩ := readCompressedU16_chunk hcount
  obtain ⟨hlength, hstop, hle⟩ := instructionFrames_extent hframes (by omega)
  obtain ⟨hiter, -⟩ := instructionFrames_chunk hframes
  refine ⟨hiter, hle, ?_, rfl, ?_⟩
  · have hyields := yields_legacyAndV0 [] frames (hstop ▸ hle)
    rw [List.length_nil, Nat.zero_add, hlength] at hyields
    exact hyields
  · show Consecutive (legacyAndV0Sections frames offset) (o + (encodeCompressedU16 numInstructions).length) o'
    rw [← hcountChunk.stop, hstop]
    exact consecutive_legacyAndV0 frames offset

theorem lookups_reads {version : TransactionVersion} {f : AddressTableLookupFrame}
    (h : AddressTableLookupFrame.tryNewFor version bytes o = .ok (f, o')) :
    Yields (AddressTableLookupIterator.next bytes) ⟨f.offset, f.numAddressTableLookups.toNat, 0⟩
      (lookupsFrom bytes f.numAddressTableLookups.toNat f.offset) ∧
    (version ≠ .v0 → o' = o) ∧
    (version = .v0 → Consecutive (⟨f.offset - 1, 1⟩ ::
      lookupSections (lookupsFrom bytes f.numAddressTableLookups.toNat f.offset) f.offset) o o') := by
  unfold AddressTableLookupFrame.tryNewFor at h
  split at h
  · next hv0 =>
    simp only [AddressTableLookupFrame.tryNew, bind_eq_ok, Prod.exists] at h
    obtain ⟨numLookups, o₁, hbyte, u, -, u, -, offset, hoffset, _, _, o₂, hframes, writable, -, readonly, -, ⟨⟩⟩ := h
    obtain rfl := tryU32Offset_eq hoffset
    obtain rfl : offset = o + 1 := (readByte_chunk hbyte).stop
    have hyields := yields_lookups 0 numLookups.toNat hframes
    rw [Nat.zero_add] at hyields
    exact ⟨hyields, fun hne => absurd hv0 hne, fun _ => ⟨rfl, consecutive_lookups hframes⟩⟩
  · next hv0 =>
    cases h
    exact ⟨.exhausted rfl, fun _ => rfl, fun heq => absurd heq hv0⟩

theorem v1Instructions_reads {f : InstructionsFrame} (h : InstructionsFrame.tryNewForV1 bytes o n = .ok (f, o')) :
    (f.iter bytes).length = f.numInstructions ∧ Yields (InstructionsIterator.next bytes) f.iterator (f.iter bytes) ∧
      Consecutive (f.sections bytes) o o' := by
  have hcount := (v1Frame_chunk h).1
  simp only [InstructionsFrame.tryNewForV1, bind_eq_ok] at h
  obtain ⟨headersOffset, hheadersOffset, u, hheaders, payloadsOffset, hpayloadsOffset, u, hpayloads, ⟨⟩⟩ := h
  obtain rfl := tryU32Offset_eq hheadersOffset
  obtain rfl := tryU32Offset_eq hpayloadsOffset
  rw [checkRemaining, require_eq_ok] at hheaders hpayloads
  have hyields := yields_v1 0 n hheaders hpayloads
  rw [Nat.zero_add] at hyields
  exact ⟨hcount, hyields, (consecutive_v1Headers n headersOffset).append (consecutive_v1Payloads n headersOffset _)⟩

end Reads

/-! ### The whole frame -/

structure Tiled (bytes : Bytes) (frame : TransactionFrame) : Prop where
  reads : SafeReads bytes frame
  count : (frame.instructions.iter bytes).length = frame.instructions.numInstructions
  consecutive : Consecutive (frame.sections bytes) 0 bytes.length
  /-- The signatures stand in front of the message or behind it. -/
  message : ∀ u, frame.messageRange.1 ≤ u ∧ u < frame.messageRange.2 ↔
    u < bytes.length ∧ ¬frame.signatureSection.Has u

section Tiled

variable {bytes : Bytes} {frame : TransactionFrame}

theorem readMessageData_eq (hle : frame.messageRange.1 ≤ frame.messageRange.2)
    (hend : frame.messageRange.2 ≤ bytes.length) : frame.readMessageData bytes = some (frame.messageData bytes) := by
  rw [TransactionFrame.readMessageData, if_pos hle]
  exact readSliceData_eq (by omega)

theorem tiled_of_legacyOrV0 (h : TransactionFrame.tryNewAsLegacyOrV0 bytes = .ok frame) : Tiled bytes frame := by
  simp only [TransactionFrame.tryNewAsLegacyOrV0, bind_eq_ok, Prod.exists] at h
  obtain ⟨signature, o₁, hsignature, header, o₂, hheader, keys, o₃, hkeys, blockhashOffset, hblockhashOffset, o₄,
    hblockhash, instructions, o₅, hinstructions, lookup, o₆, hlookup, u, hend, dataLen, hdataLen, h⟩ := h
  obtain rfl := Except.ok.inj h
  obtain rfl := tryU32Offset_eq hblockhashOffset
  obtain rfl := tryU32Offset_eq hdataLen
  rw [require_eq_ok] at hend
  obtain ⟨hsignatureOffset, hsignatureStop, hsignatureLe, -⟩ := signatures_chunk hsignature
  obtain ⟨hkeysOffset, hkeysStop, hkeysLe, -⟩ := keys_chunk hkeys
  obtain ⟨hblockhashStop, hblockhashLe, -⟩ := advance_chunk hblockhash
  rw [Nat.one_mul] at hblockhashStop
  obtain ⟨hcount, -, hyields, hinstructionsSections⟩ := instructions_reads hinstructions
  obtain ⟨hlookups, hnoLookups, hlookupSections⟩ := lookups_reads hlookup
  obtain ⟨hheaderOffset, hheaderVersion⟩ := header_chunk hheader
  have hversion : header.version = .legacy ∧ o₂ = o₁ + 3 ∨ header.version = .v0 ∧ o₂ = o₁ + 4 := by
    rcases hheaderVersion with ⟨hlegacy, -, hchunk⟩ | ⟨hv0, start, htag, hchunk⟩
    · exact .inl ⟨hlegacy, hchunk.stop⟩
    · exact .inr ⟨hv0, (htag.append hchunk).stop⟩
  have hrange : TransactionFrame.messageRange ⟨signature, header, keys, blockhashOffset, instructions, lookup, {},
      dataLen⟩ = (o₁, bytes.length) := by
    simp only [TransactionFrame.messageRange, TransactionFrame.version, hheaderOffset, hend]
    rcases hversion with ⟨hv, -⟩ | ⟨hv, -⟩ <;> rw [hv]
  have hsignatures : TransactionFrame.signatureSection ⟨signature, header, keys, blockhashOffset, instructions, lookup,
      {}, dataLen⟩ = ⟨0, o₁⟩ := by
    have hstop : o₁ = 1 + signature.numSignatures.toNat * signatureSize := by omega
    simp only [TransactionFrame.signatureSection, TransactionFrame.version, hsignatureOffset, hstop]
    rcases hversion with ⟨hv, -⟩ | ⟨hv, -⟩ <;> rw [hv]
  refine ⟨⟨?_, ?_, ?_, ?_, ?_, ?_, ?_⟩, hcount, ?_, ?_⟩
  · rw [TransactionFrame.readSignatures, readSliceData_eq (hsignatureStop ▸ hsignatureLe)]
    rfl
  · rw [TransactionFrame.readKeys, readSliceData_eq (hkeysStop ▸ hkeysLe)]
    rfl
  · exact readSliceData_eq (hblockhashStop ▸ hblockhashLe)
  · rfl
  · exact hyields
  · exact hlookups
  · exact readMessageData_eq (by rw [hrange]; exact hsignatureLe) (by rw [hrange])
  · have hfront (headerSize : Nat) (ho₂ : o₂ = o₁ + headerSize) :
        Consecutive [⟨0, o₁⟩, ⟨header.offset, headerSize⟩, ⟨keys.offset - 1, 1⟩,
          ⟨keys.offset, keys.numStaticAccounts.toNat * pubkeySize⟩, ⟨blockhashOffset, hashSize⟩] 0 o₄ := by
      simp only [Consecutive, hheaderOffset, true_and]
      omega
    rw [hblockhashStop] at hfront hinstructionsSections
    simp only [TransactionFrame.sections, TransactionFrame.lookupsSections, TransactionFrame.headerSection,
      hsignatures, TransactionFrame.version]
    rcases hversion with ⟨hv, ho₂⟩ | ⟨hv, ho₂⟩
    · rw [hv]
      have hstop : o₅ = bytes.length := (hnoLookups (by rw [hv]; decide)).symm.trans hend
      exact ((hfront 3 ho₂).append (hstop ▸ hinstructionsSections)).append rfl
    · rw [hv]
      exact ((hfront 4 ho₂).append hinstructionsSections).append (hend ▸ hlookupSections hv)
  · intro u
    rw [hrange, hsignatures, Region.Has]
    dsimp only
    omega

theorem tiled_of_v1 (h : TransactionFrame.tryNewAsV1 bytes = .ok frame) : Tiled bytes frame := by
  simp only [TransactionFrame.tryNewAsV1, bind_eq_ok, Prod.exists] at h
  obtain ⟨u, hfixed, version, hversion, o₁, hkeys, configFrame, o₂, hconfig, instructions, o₃, hinstructions,
    signaturesOffset, hsignaturesOffset, o₄, hsignatures, u, hend, dataLen, hdataLen, h⟩ := h
  have hframe := (Except.ok.inj h).symm
  obtain rfl := tryU32Offset_eq hsignaturesOffset
  rw [require_eq_ok] at hend
  rw [checkRemaining, require_eq_ok] at hfixed
  replace hfixed : 42 ≤ bytes.length := hfixed
  obtain ⟨hkeysStop, hkeysLe, -⟩ := advance_chunk hkeys
  obtain ⟨hconfigReads, hmaskOffset, hvaluesOffset, hvaluesStop⟩ := config_reads hconfig
  obtain ⟨hcount, hyields, hinstructionsSections⟩ := v1Instructions_reads hinstructions
  obtain ⟨hsignaturesStop, hsignaturesLe, -⟩ := advance_chunk hsignatures
  have hv1 : version = .v1 ∨ version = .magicblock := (versionOfPrefix_eq hversion).imp (·.1) (·.1)
  have hrange : frame.messageRange = (0, signaturesOffset) := by
    rw [hframe]
    rcases hv1 with rfl | rfl <;> rfl
  have hsection : frame.signatureSection = ⟨signaturesOffset, bytes.length - signaturesOffset⟩ := by
    have hsize : (uncheckedReadByte bytes 1).toNat * signatureSize = bytes.length - signaturesOffset := by omega
    rw [hframe]
    rcases hv1 with rfl | rfl <;> simp only [TransactionFrame.signatureSection, TransactionFrame.version, hsize]
  refine ⟨⟨?_, ?_, ?_, ?_, ?_, ?_, ?_⟩, ?_, ?_, ?_⟩
  · rw [hframe, TransactionFrame.readSignatures, readSliceData_eq (hsignaturesStop ▸ hsignaturesLe)]
    rfl
  · rw [hframe, TransactionFrame.readKeys, readSliceData_eq (hkeysStop ▸ hkeysLe)]
    rfl
  · rw [hframe]
    exact readSliceData_eq (show 8 + 32 ≤ bytes.length by omega)
  · rw [hframe]
    exact hconfigReads
  · rw [hframe]
    exact hyields
  · rw [hframe]
    exact .exhausted rfl
  · exact readMessageData_eq (by rw [hrange]; exact Nat.zero_le _) (by rw [hrange]; dsimp only; omega)
  · rw [hframe]
    exact hcount
  · have hfront : Consecutive [⟨0, 4⟩, ⟨4, 4⟩, ⟨8, hashSize⟩, ⟨8 + hashSize, 2⟩,
        ⟨42, (uncheckedReadByte bytes 41).toNat * pubkeySize⟩, ⟨o₁, configFrame.numValues * 4⟩] 0 o₂ := by
      simp only [Consecutive, hashSize, true_and]
      omega
    have hback : Consecutive [⟨signaturesOffset, bytes.length - signaturesOffset⟩] signaturesOffset bytes.length := by
      simp only [Consecutive, true_and]
      omega
    have hall := (hfront.append hinstructionsSections).append hback
    rw [← hsection] at hall
    rw [hframe] at hall ⊢
    rcases hv1 with rfl | rfl <;>
      simpa only [TransactionFrame.sections, TransactionFrame.version, TransactionFrame.headerSection, hmaskOffset,
        hvaluesOffset] using hall
  · intro u
    rw [hrange, hsection, Region.Has]
    dsimp only
    omega

/-- Every read of an accessor or iterator of a parsed transaction lies in the buffer, the instructions are as many as
their count and delimited as in the encoding, the sections are disjoint and cover the buffer, and the message is the
whole buffer without the section of the signatures. -/
theorem parsed_reads_safe (h : TransactionFrame.tryNew bytes = .ok frame) :
    SafeReads bytes frame ∧ (frame.instructions.iter bytes).length = frame.instructions.numInstructions ∧
      (frame.content bytes).encode = bytes ∧
      (frame.sections bytes).Pairwise Region.Apart ∧
      (∀ u, u < bytes.length ↔ ∃ r ∈ frame.sections bytes, r.Has u) ∧
      frame.signatureSection ∈ frame.sections bytes ∧
      ∀ u, frame.messageRange.1 ≤ u ∧ u < frame.messageRange.2 ↔
        u < bytes.length ∧ ¬frame.signatureSection.Has u := by
  have hlaid := laid_of_framed h
  have htiled : Tiled bytes frame := by
    obtain ⟨u, -, h⟩ := bind_eq_ok.mp h
    obtain ⟨legacyOrV0, -, h⟩ := bind_eq_ok.mp h
    cases legacyOrV0 with
    | true => exact tiled_of_legacyOrV0 h
    | false => exact tiled_of_v1 h
  refine ⟨htiled.reads, htiled.count, hlaid.encode, htiled.consecutive.pairwise_apart, fun u => ?_, ?_, htiled.message⟩
  · rw [htiled.consecutive.exists_has_iff]
    omega
  · unfold TransactionFrame.sections
    split <;> simp

end Tiled

def legacyTransaction : Bytes :=
  1 :: List.replicate 64 3 ++ [1, 0, 1] ++ 2 :: (List.replicate 32 1 ++ List.replicate 32 2) ++ List.replicate 32 7 ++
    [1] ++ [1, 1, 0, 2, 5, 6]

def legacyFrame : TransactionFrame where
  signature := { numSignatures := 1, offset := 1 }
  messageHeader :=
    { offset := 65, version := .legacy, numRequiredSignatures := 1, numReadonlySignedAccounts := 0
      numReadonlyUnsignedAccounts := 1 }
  staticAccountKeys := { numStaticAccounts := 2, offset := 69 }
  recentBlockhashOffset := 133
  instructions := .legacyAndV0 1 166 [{ numAccounts := 1, dataLen := 2, numAccountsLen := 1, dataLenLen := 1 }]
  addressTableLookup := {}
  transactionConfigFrame := {}
  dataLen := 172

theorem parsed_reads_safe_legacy :
    TransactionFrame.tryNew legacyTransaction = .ok legacyFrame ∧ SafeReads legacyTransaction legacyFrame := by
  have hframed : TransactionFrame.tryNew legacyTransaction = .ok legacyFrame := by decide +kernel
  exact ⟨hframed, (parsed_reads_safe hframed).1⟩

end View

end MagicEngine
