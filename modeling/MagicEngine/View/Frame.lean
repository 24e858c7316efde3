import MagicEngine.Base
import MagicEngine.Lib.Codec

/-!
# Framing of serialized transactions

`TransactionFrame::try_new` (`solana/transaction-view/src`): where the parts of a serialized transaction lie, for the
four framings. Legacy and V0 transactions start with their signatures and count with compressed integers; V1 and the
engine's private Magicblock transactions start with a version byte, keep the instruction headers apart from their
payloads and end with the signatures.

Offsets are natural numbers: a byte string is shorter than `2 ^ 32`, so that no offset overflows. Multi-byte integers
are read as on a little-endian host.
-/

namespace MagicEngine

open Codec

inductive TransactionViewError where
  | parseError
  | sanitizeError
  | addressLookupMismatch
deriving DecidableEq, Repr

inductive TransactionVersion where
  | legacy
  | v0
  | v1
  | magicblock
deriving DecidableEq, Repr

abbrev ViewResult (α : Type) : Type := Except TransactionViewError α

namespace View

def messageVersionPrefix : UInt8 := 0x80

def v1Prefix : UInt8 := 0x81

def magicblockPrefix : UInt8 := 0xff

def signatureSize : Nat := 64

def pubkeySize : Nat := 32

def hashSize : Nat := 32

def maxSignaturesPerPacket : UInt8 := 12

def legacyOrV0MaxStaticAccountsPerPacket : UInt8 := 38

def minSizedAtl : Nat := 35

def maxAtlsPerPacket : UInt8 := 31

/-! ### Reading bytes -/

def tryU32Offset (offset : Nat) : ViewResult Nat := do
  require (offset < 2 ^ 32) .parseError
  pure offset

def tryU8 (n : Nat) : ViewResult Nat := do
  require (n < 2 ^ 8) .parseError
  pure n

def tryU16 (n : Nat) : ViewResult Nat := do
  require (n < 2 ^ 16) .sanitizeError
  pure n

def checkRemaining (bytes : Bytes) (offset numBytes : Nat) : ViewResult Unit :=
  require (offset + numBytes ≤ bytes.length) .parseError

def readByte (bytes : Bytes) (offset : Nat) : ViewResult (UInt8 × Nat) :=
  match bytes[offset]? with
  | none => .error .parseError
  | some byte => .ok (byte, offset + 1)

/-- A byte whose bounds have been checked before. -/
def uncheckedReadByte (bytes : Bytes) (offset : Nat) : UInt8 := bytes.getD offset 0

/-- The rounds of `read_compressed_u16` from the byte at `offset + i` on. -/
def readCompressedU16From (bytes : Bytes) (offset : Nat) : Nat → Nat → Nat → ViewResult (Nat × Nat)
  | 0, _, result => .ok (result, offset + 3)
  | rounds + 1, i, result => do
    let (byte, next) ← readByte bytes (offset + i)
    -- non-minimal encoding or overflow
    require (¬(0 < i ∧ byte = 0 ∨ i = 2 ∧ 3 < byte)) .parseError
    let result := result + (byte &&& 0x7f).toNat * 2 ^ (7 * i)
    if byte &&& 0x80 = 0 then pure (result, next) else readCompressedU16From bytes offset rounds (i + 1) result

def readCompressedU16 (bytes : Bytes) (offset : Nat) : ViewResult (Nat × Nat) :=
  readCompressedU16From bytes offset 3 0 0

/-- `advance_offset_for_array` of elements of the given size. -/
def advanceOffsetForArray (size : Nat) (bytes : Bytes) (offset numElements : Nat) : ViewResult Nat := do
  checkRemaining bytes offset (numElements * size)
  pure (offset + numElements * size)

def advanceOffsetForType (size : Nat) (bytes : Bytes) (offset : Nat) : ViewResult Nat :=
  advanceOffsetForArray size bytes offset 1

/-! ### Frames -/

structure SignatureFrame where
  numSignatures : UInt8
  offset : Nat
deriving DecidableEq, Repr

structure MessageHeaderFrame where
  offset : Nat
  version : TransactionVersion
  numRequiredSignatures : UInt8
  numReadonlySignedAccounts : UInt8
  numReadonlyUnsignedAccounts : UInt8
deriving DecidableEq, Repr

structure StaticAccountKeysFrame where
  numStaticAccounts : UInt8
  offset : Nat
deriving DecidableEq, Repr

/-- Counts of one instruction and the lengths of the encoded counts. -/
structure LegacyAndV0InstructionFrame where
  numAccounts : Nat
  dataLen : Nat
  numAccountsLen : Nat
  dataLenLen : Nat
deriving DecidableEq, Repr

structure V1InstructionHeader where
  programIdIndex : UInt8
  numAccounts : UInt8
  dataLen : Nat
deriving DecidableEq, Repr

inductive InstructionsFrame where
  | legacyAndV0 (numInstructions offset : Nat) (frames : List LegacyAndV0InstructionFrame)
  | v1 (numInstructions headersOffset payloadsOffset : Nat)
deriving DecidableEq, Repr

structure AddressTableLookupFrame where
  numAddressTableLookups : UInt8 := 0
  offset : Nat := 0
  totalWritableLookupAccounts : Nat := 0
  totalReadonlyLookupAccounts : Nat := 0
deriving DecidableEq, Repr

/-- `maskOffset = 0` is the frame of a transaction without config. -/
structure TransactionConfigFrame where
  maskOffset : Nat := 0
  mask : Nat := 0
  valuesOffset : Nat := 0
  numValues : Nat := 0
deriving DecidableEq, Repr

structure TransactionFrame where
  signature : SignatureFrame
  messageHeader : MessageHeaderFrame
  staticAccountKeys : StaticAccountKeysFrame
  recentBlockhashOffset : Nat
  instructions : InstructionsFrame
  addressTableLookup : AddressTableLookupFrame
  transactionConfigFrame : TransactionConfigFrame
  dataLen : Nat
deriving DecidableEq, Repr

/-! ### Legacy and V0 -/

def SignatureFrame.tryNew (bytes : Bytes) (offset : Nat) : ViewResult (SignatureFrame × Nat) := do
  let (numSignatures, offset) ← readByte bytes offset
  require (¬(numSignatures = 0 ∨ maxSignaturesPerPacket < numSignatures)) .parseError
  let signatureOffset ← tryU32Offset offset
  let offset ← advanceOffsetForArray signatureSize bytes offset numSignatures.toNat
  pure ({ numSignatures, offset := signatureOffset }, offset)

/-- The version and the number of required signatures; the first byte is the latter in a legacy message. -/
def readVersion (bytes : Bytes) (offset : Nat) : ViewResult ((TransactionVersion × UInt8) × Nat) := do
  let (messagePrefix, offset) ← readByte bytes offset
  if messagePrefix &&& messageVersionPrefix ≠ 0 then
    require (messagePrefix &&& ~~~messageVersionPrefix = 0) .parseError
    let (numRequiredSignatures, offset) ← readByte bytes offset
    pure ((.v0, numRequiredSignatures), offset)
  else pure ((.legacy, messagePrefix), offset)

def MessageHeaderFrame.tryNewLegacyOrV0 (bytes : Bytes) (offset : Nat) : ViewResult (MessageHeaderFrame × Nat) := do
  let messageOffset ← tryU32Offset offset
  let ((version, numRequiredSignatures), offset) ← readVersion bytes offset
  let (numReadonlySignedAccounts, offset) ← readByte bytes offset
  let (numReadonlyUnsignedAccounts, offset) ← readByte bytes offset
  pure
    ({ offset := messageOffset, version, numRequiredSignatures, numReadonlySignedAccounts, numReadonlyUnsignedAccounts },
      offset)

def StaticAccountKeysFrame.tryNew (bytes : Bytes) (offset : Nat) : ViewResult (StaticAccountKeysFrame × Nat) := do
  let (numStaticAccounts, offset) ← readByte bytes offset
  require (¬(numStaticAccounts = 0 ∨ legacyOrV0MaxStaticAccountsPerPacket < numStaticAccounts)) .parseError
  let staticAccountsOffset ← tryU32Offset offset
  let offset ← advanceOffsetForArray pubkeySize bytes offset numStaticAccounts.toNat
  pure ({ numStaticAccounts, offset := staticAccountsOffset }, offset)

/-- A compressed count, the length of its encoding and the bytes it counts, which are passed over. -/
def skipCounted (bytes : Bytes) (offset : Nat) : ViewResult ((Nat × Nat) × Nat) := do
  let (count, next) ← readCompressedU16 bytes offset
  let len ← tryU8 (next - offset)
  let next ← advanceOffsetForArray 1 bytes next count
  pure ((count, len), next)

/-- The loop over the instructions of `try_new_for_legacy_and_v0`. -/
def instructionFrames (bytes : Bytes) : Nat → Nat → ViewResult (List LegacyAndV0InstructionFrame × Nat)
  | 0, offset => .ok ([], offset)
  | numInstructions + 1, offset => do
    let (_, offset) ← readByte bytes offset
    let ((numAccounts, numAccountsLen), offset) ← skipCounted bytes offset
    let ((dataLen, dataLenLen), offset) ← skipCounted bytes offset
    let (frames, offset) ← instructionFrames bytes numInstructions offset
    pure ({ numAccounts, dataLen, numAccountsLen, dataLenLen } :: frames, offset)

def InstructionsFrame.tryNewForLegacyAndV0 (bytes : Bytes) (offset : Nat) : ViewResult (InstructionsFrame × Nat) := do
  let (numInstructions, offset) ← readCompressedU16 bytes offset
  checkRemaining bytes offset (3 * numInstructions)
  let instructionsOffset ← tryU32Offset offset
  let (frames, offset) ← instructionFrames bytes numInstructions offset
  pure (.legacyAndV0 numInstructions instructionsOffset frames, offset)

/-- The loop over the lookups of `AddressTableLookupFrame::try_new`, with the writable and readonly counts. -/
def lookupFrames (bytes : Bytes) : Nat → Nat → Nat → Nat → ViewResult ((Nat × Nat) × Nat)
  | 0, writable, readonly, offset => .ok ((writable, readonly), offset)
  | numLookups + 1, writable, readonly, offset => do
    let offset ← advanceOffsetForType pubkeySize bytes offset
    let (numWriteAccounts, offset) ← readCompressedU16 bytes offset
    let offset ← advanceOffsetForArray 1 bytes offset numWriteAccounts
    let (numReadAccounts, offset) ← readCompressedU16 bytes offset
    let offset ← advanceOffsetForArray 1 bytes offset numReadAccounts
    lookupFrames bytes numLookups (writable + numWriteAccounts) (readonly + numReadAccounts) offset

def AddressTableLookupFrame.tryNew (bytes : Bytes) (offset : Nat) : ViewResult (AddressTableLookupFrame × Nat) := do
  let (numAddressTableLookups, offset) ← readByte bytes offset
  require (¬maxAtlsPerPacket < numAddressTableLookups) .parseError
  checkRemaining bytes offset (minSizedAtl * numAddressTableLookups.toNat)
  let lookupsOffset ← tryU32Offset offset
  let ((writable, readonly), offset) ← lookupFrames bytes numAddressTableLookups.toNat 0 0 offset
  let totalWritableLookupAccounts ← tryU16 writable
  let totalReadonlyLookupAccounts ← tryU16 readonly
  pure
    ({ numAddressTableLookups, offset := lookupsOffset, totalWritableLookupAccounts, totalReadonlyLookupAccounts }, offset)

def AddressTableLookupFrame.tryNewFor (version : TransactionVersion) (bytes : Bytes) (offset : Nat) :
    ViewResult (AddressTableLookupFrame × Nat) :=
  if version = .v0 then AddressTableLookupFrame.tryNew bytes offset else .ok ({}, offset)

def TransactionFrame.tryNewAsLegacyOrV0 (bytes : Bytes) : ViewResult TransactionFrame := do
  let (signature, offset) ← SignatureFrame.tryNew bytes 0
  let (messageHeader, offset) ← MessageHeaderFrame.tryNewLegacyOrV0 bytes offset
  let (staticAccountKeys, offset) ← StaticAccountKeysFrame.tryNew bytes offset
  let recentBlockhashOffset ← tryU32Offset offset
  let offset ← advanceOffsetForType hashSize bytes offset
  let (instructions, offset) ← InstructionsFrame.tryNewForLegacyAndV0 bytes offset
  let (addressTableLookup, offset) ← AddressTableLookupFrame.tryNewFor messageHeader.version bytes offset
  require (offset = bytes.length) .parseError
  let dataLen ← tryU32Offset offset
  pure
    { signature, messageHeader, staticAccountKeys, recentBlockhashOffset, instructions, addressTableLookup
      transactionConfigFrame := {}, dataLen }

/-! ### V1 and Magicblock -/

def hasBit (mask bit : Nat) : Bool := decide (bit < 32) && mask.testBit bit

def countOnes (mask : Nat) : Nat := (List.range 32).countP (mask.testBit ·)

/-- `sanitize_mask`: the first five bits only, and the two of the priority fee together. -/
def sanitizeMask (mask : Nat) : ViewResult Unit := do
  require (mask < 2 ^ 5) .sanitizeError
  require (hasBit mask 0 = hasBit mask 1) .sanitizeError

def TransactionConfigFrame.tryNew (bytes : Bytes) (maskOffset mask offset : Nat) :
    ViewResult (TransactionConfigFrame × Nat) := do
  sanitizeMask mask
  let numValues := countOnes mask
  let maskOffset ← tryU32Offset maskOffset
  let valuesOffset ← tryU32Offset offset
  let offset ← advanceOffsetForArray 4 bytes offset numValues
  pure ({ maskOffset, mask, valuesOffset, numValues }, offset)

def v1HeaderSize : Nat := 4

/-- `read_v1_header`, without bounds checks. -/
def readV1Header (bytes : Bytes) (offset : Nat) : V1InstructionHeader where
  programIdIndex := uncheckedReadByte bytes offset
  numAccounts := uncheckedReadByte bytes (offset + 1)
  dataLen := ofLittleEndian (slice bytes (offset + 2) 2)

def totalPayloadLen (bytes : Bytes) : Nat → Nat → Nat
  | 0, _ => 0
  | numInstructions + 1, headerOffset =>
    let header := readV1Header bytes headerOffset
    header.numAccounts.toNat + header.dataLen + totalPayloadLen bytes numInstructions (headerOffset + v1HeaderSize)

def InstructionsFrame.tryNewForV1 (bytes : Bytes) (offset numInstructions : Nat) :
    ViewResult (InstructionsFrame × Nat) := do
  let headersOffset ← tryU32Offset offset
  checkRemaining bytes offset (v1HeaderSize * numInstructions)
  let payloadsOffset ← tryU32Offset (offset + v1HeaderSize * numInstructions)
  let payloadLen := totalPayloadLen bytes numInstructions offset
  checkRemaining bytes payloadsOffset payloadLen
  pure (.v1 numInstructions headersOffset payloadsOffset, payloadsOffset + payloadLen)

/-- Version byte, header, config mask, lifetime specifier and the two counts. -/
def fixedV1PrefixLen : Nat := 1 + 3 + 4 + hashSize + 1 + 1

def versionOfPrefix (byte : UInt8) : ViewResult TransactionVersion :=
  if byte = v1Prefix then .ok .v1 else if byte = magicblockPrefix then .ok .magicblock else .error .parseError

def TransactionFrame.tryNewAsV1 (bytes : Bytes) : ViewResult TransactionFrame := do
  checkRemaining bytes 0 fixedV1PrefixLen
  let version ← versionOfPrefix (uncheckedReadByte bytes 0)
  let numRequiredSignatures := uncheckedReadByte bytes 1
  let numReadonlySignedAccounts := uncheckedReadByte bytes 2
  let numReadonlyUnsignedAccounts := uncheckedReadByte bytes 3
  let mask := ofLittleEndian (slice bytes 4 4)
  let recentBlockhashOffset := 8
  let numInstructions := uncheckedReadByte bytes 40
  let numAddresses := uncheckedReadByte bytes 41
  let addressesOffset := 42
  let offset ← advanceOffsetForArray pubkeySize bytes addressesOffset numAddresses.toNat
  let (transactionConfigFrame, offset) ← TransactionConfigFrame.tryNew bytes 4 mask offset
  let (instructions, offset) ← InstructionsFrame.tryNewForV1 bytes offset numInstructions.toNat
  let signaturesOffset ← tryU32Offset offset
  let offset ← advanceOffsetForArray signatureSize bytes offset numRequiredSignatures.toNat
  require (offset = bytes.length) .parseError
  let dataLen ← tryU32Offset offset
  pure
    { signature := { numSignatures := numRequiredSignatures, offset := signaturesOffset }
      messageHeader :=
        { offset := 0, version, numRequiredSignatures, numReadonlySignedAccounts, numReadonlyUnsignedAccounts }
      staticAccountKeys := { numStaticAccounts := numAddresses, offset := addressesOffset }
      recentBlockhashOffset, instructions, addressTableLookup := {}, transactionConfigFrame, dataLen }

def isLegacyOrV0 (bytes : Bytes) : ViewResult Bool :=
  match bytes.head? with
  | none => .error .parseError
  | some byte => .ok (byte &&& messageVersionPrefix = 0)

def TransactionFrame.tryNew (bytes : Bytes) : ViewResult TransactionFrame := do
  let _ ← tryU32Offset bytes.length
  if ← isLegacyOrV0 bytes then TransactionFrame.tryNewAsLegacyOrV0 bytes else TransactionFrame.tryNewAsV1 bytes

end View

end MagicEngine
