import MagicEngine.View.Frame

/-!
# What a serialized transaction says

The accessors of a transaction view (`transaction_frame.rs`, `instructions_frame.rs`, `transaction_config_frame.rs`),
which read the parts of a transaction at the offsets of its frame, and the checks of sanitization (`sanitize.rs`).
-/

namespace MagicEngine

open Codec

namespace View

structure Instruction where
  programIdIndex : UInt8
  accounts : Bytes
  data : Bytes
deriving DecidableEq, Repr

structure AddressTableLookup where
  accountKey : Bytes
  writableIndexes : Bytes
  readonlyIndexes : Bytes
deriving DecidableEq, Repr

structure TransactionConfig where
  priorityFeeLamports : Option Nat := none
  computeUnitLimit : Option Nat := none
  loadedAccountsDataSizeLimit : Option Nat := none
  requestedHeapSize : Option Nat := none
deriving DecidableEq, Repr

structure TransactionContent where
  version : TransactionVersion
  signatures : List Bytes
  numRequiredSignatures : UInt8
  numReadonlySignedAccounts : UInt8
  numReadonlyUnsignedAccounts : UInt8
  staticAccountKeys : List Bytes
  recentBlockhash : Bytes
  config : Option TransactionConfig
  instructions : List Instruction
  addressTableLookups : List AddressTableLookup
deriving DecidableEq, Repr

/-! ### Accessors -/

/-- `word_index_for_bit`: the set bits below. -/
def TransactionConfigFrame.wordIndexForBit (frame : TransactionConfigFrame) (bit : Nat) : Option Nat :=
  if frame.maskOffset = 0 ∨ hasBit frame.mask bit = false then none else some (countOnes (frame.mask % 2 ^ bit))

def TransactionConfigFrame.wordOffset (frame : TransactionConfigFrame) (bit : Nat) : Option Nat :=
  (frame.wordIndexForBit bit).map fun index => frame.valuesOffset + index * 4

def TransactionConfigFrame.config (frame : TransactionConfigFrame) (bytes : Bytes) : Option TransactionConfig :=
  if frame.maskOffset = 0 then none
  else
    some
      { priorityFeeLamports := (frame.wordOffset 0).map fun offset => ofLittleEndian (slice bytes offset 8)
        computeUnitLimit := (frame.wordOffset 2).map fun offset => ofLittleEndian (slice bytes offset 4)
        loadedAccountsDataSizeLimit := (frame.wordOffset 3).map fun offset => ofLittleEndian (slice bytes offset 4)
        requestedHeapSize := (frame.wordOffset 4).map fun offset => ofLittleEndian (slice bytes offset 4) }

/-- `InstructionsIterator` over legacy and V0 instructions; the counts come from the frames. -/
def legacyAndV0Instructions (bytes : Bytes) : List LegacyAndV0InstructionFrame → Nat → List Instruction
  | [], _ => []
  | frame :: frames, offset =>
    let accountsOffset := offset + 1 + frame.numAccountsLen
    let dataOffset := accountsOffset + frame.numAccounts + frame.dataLenLen
    { programIdIndex := uncheckedReadByte bytes offset
      accounts := slice bytes accountsOffset frame.numAccounts
      data := slice bytes dataOffset frame.dataLen } ::
      legacyAndV0Instructions bytes frames (dataOffset + frame.dataLen)

/-- `InstructionsIterator` over V1 instructions: headers and payloads side by side. -/
def v1Instructions (bytes : Bytes) : Nat → Nat → Nat → List Instruction
  | 0, _, _ => []
  | numInstructions + 1, headersOffset, payloadsOffset =>
    let header := readV1Header bytes headersOffset
    let dataOffset := payloadsOffset + header.numAccounts.toNat
    { programIdIndex := header.programIdIndex
      accounts := slice bytes payloadsOffset header.numAccounts.toNat
      data := slice bytes dataOffset header.dataLen } ::
      v1Instructions bytes numInstructions (headersOffset + v1HeaderSize) (dataOffset + header.dataLen)

def InstructionsFrame.iter (frame : InstructionsFrame) (bytes : Bytes) : List Instruction :=
  match frame with
  | .legacyAndV0 _ offset frames => legacyAndV0Instructions bytes frames offset
  | .v1 numInstructions headersOffset payloadsOffset =>
    v1Instructions bytes numInstructions headersOffset payloadsOffset

def InstructionsFrame.numInstructions : InstructionsFrame → Nat
  | .legacyAndV0 numInstructions _ _ => numInstructions
  | .v1 numInstructions _ _ => numInstructions

def readLookup (bytes : Bytes) (offset : Nat) : ViewResult (AddressTableLookup × Nat) := do
  let keyEnd ← advanceOffsetForType pubkeySize bytes offset
  let (numWriteAccounts, writeOffset) ← readCompressedU16 bytes keyEnd
  let writeEnd ← advanceOffsetForArray 1 bytes writeOffset numWriteAccounts
  let (numReadAccounts, readOffset) ← readCompressedU16 bytes writeEnd
  let readEnd ← advanceOffsetForArray 1 bytes readOffset numReadAccounts
  pure
    ({ accountKey := slice bytes offset pubkeySize, writableIndexes := slice bytes writeOffset numWriteAccounts
       readonlyIndexes := slice bytes readOffset numReadAccounts }, readEnd)

def lookupsFrom (bytes : Bytes) : Nat → Nat → List AddressTableLookup
  | 0, _ => []
  | numLookups + 1, offset =>
    match readLookup bytes offset with
    | .error _ => []
    | .ok (lookup, offset) => lookup :: lookupsFrom bytes numLookups offset

namespace TransactionFrame

variable (frame : TransactionFrame) (bytes : Bytes)

def version : TransactionVersion := frame.messageHeader.version

def signatures : List Bytes :=
  groups signatureSize frame.signature.numSignatures.toNat
    (slice bytes frame.signature.offset (frame.signature.numSignatures.toNat * signatureSize))

def keys : List Bytes :=
  groups pubkeySize frame.staticAccountKeys.numStaticAccounts.toNat
    (slice bytes frame.staticAccountKeys.offset (frame.staticAccountKeys.numStaticAccounts.toNat * pubkeySize))

def recentBlockhash : Bytes := slice bytes frame.recentBlockhashOffset hashSize

def lookups : List AddressTableLookup :=
  lookupsFrom bytes frame.addressTableLookup.numAddressTableLookups.toNat frame.addressTableLookup.offset

def content : TransactionContent where
  version := frame.version
  signatures := frame.signatures bytes
  numRequiredSignatures := frame.messageHeader.numRequiredSignatures
  numReadonlySignedAccounts := frame.messageHeader.numReadonlySignedAccounts
  numReadonlyUnsignedAccounts := frame.messageHeader.numReadonlyUnsignedAccounts
  staticAccountKeys := frame.keys bytes
  recentBlockhash := frame.recentBlockhash bytes
  config := frame.transactionConfigFrame.config bytes
  instructions := frame.instructions.iter bytes
  addressTableLookups := frame.lookups bytes

/-- `message_range`: the signatures of V1 and Magicblock follow the message. -/
def messageRange : Nat × Nat :=
  match frame.version with
  | .v1 | .magicblock => (frame.messageHeader.offset, frame.signature.offset)
  | .legacy | .v0 => (frame.messageHeader.offset, frame.dataLen)

def messageData : Bytes := slice bytes frame.messageRange.1 (frame.messageRange.2 - frame.messageRange.1)

end TransactionFrame

/-! ### Sanitization -/

def maxStandardTransactionSize : Nat := 65535

def maxMagicblockTransactionSize : Nat := 16 * 1024 * 1024

def maxMagicblockAccountLocks : Nat := 255

def magicblockInstructionTraceLength : Nat := 255

def maxInstructionTraceLength : Nat := 64

def maxAccountsPerInstruction : Nat := 255

def minHeapFrameBytes : Nat := 32 * 1024

def maxHeapFrameBytes : Nat := 256 * 1024

def useStaticAccountKeysSetSize : Nat := 32

/-- Some key is in the set already when it is inserted. -/
def insertsTwice : List Bytes → List Bytes → Bool
  | [], _ => false
  | key :: keys, set => set.contains key || insertsTwice keys (key :: set)

def occursLater : List Bytes → Bool
  | [] => false
  | key :: keys => keys.contains key || occursLater keys

/-- The duplicate check of `sanitize_account_access`: many keys go through a set, few are compared in pairs. -/
def hasDuplicates (keys : List Bytes) : Bool :=
  if useStaticAccountKeysSetSize ≤ keys.length then insertsTwice keys [] else occursLater keys

namespace TransactionFrame

variable (frame : TransactionFrame) (bytes : Bytes)

/-- `total_number_of_accounts`, saturating. -/
def totalNumberOfAccounts : Nat :=
  min (min (frame.staticAccountKeys.numStaticAccounts.toNat + frame.addressTableLookup.totalWritableLookupAccounts) 65535 +
    frame.addressTableLookup.totalReadonlyLookupAccounts) 65535

def sanitizeTransactionSize : ViewResult Unit :=
  match frame.version with
  | .legacy | .v0 | .v1 => require (bytes.length ≤ maxStandardTransactionSize) .sanitizeError
  | .magicblock => require (bytes.length ≤ maxMagicblockTransactionSize) .sanitizeError

def sanitizeMessageHeader : ViewResult Unit := do
  let header := frame.messageHeader
  require (1 ≤ header.numRequiredSignatures) .sanitizeError
  require (header.numReadonlySignedAccounts < header.numRequiredSignatures) .sanitizeError
  -- the subtraction wraps
  require (header.numReadonlyUnsignedAccounts ≤ frame.staticAccountKeys.numStaticAccounts - header.numRequiredSignatures)
    .sanitizeError

def sanitizeConfig : ViewResult Unit :=
  match (frame.transactionConfigFrame.config bytes).bind (·.requestedHeapSize) with
  | none => pure ()
  | some heap => require ((minHeapFrameBytes ≤ heap ∧ heap ≤ maxHeapFrameBytes) ∧ heap % 1024 = 0) .sanitizeError

def sanitizeSignatures : ViewResult Unit := do
  require (frame.signature.numSignatures = frame.messageHeader.numRequiredSignatures) .sanitizeError
  require (frame.signature.numSignatures ≤ maxSignaturesPerPacket) .sanitizeError
  require (frame.signature.numSignatures ≤ frame.staticAccountKeys.numStaticAccounts) .sanitizeError

def addressesLimit : TransactionVersion → Nat
  | .legacy | .v0 => 256
  | .v1 => 64
  | .magicblock => maxMagicblockAccountLocks

def sanitizeAccountAccess : ViewResult Unit := do
  require (frame.totalNumberOfAccounts ≤ addressesLimit frame.version) .sanitizeError
  require (hasDuplicates (frame.keys bytes) = false) .sanitizeError

def instructionsLimit : TransactionVersion → Nat
  | .magicblock => magicblockInstructionTraceLength
  | .v0 | .v1 | .legacy => maxInstructionTraceLength

def InstructionAllowed (enableInstructionAccountsLimit : Bool) (i : Instruction) : Prop :=
  i.programIdIndex ≤ frame.staticAccountKeys.numStaticAccounts - 1 ∧ i.programIdIndex ≠ 0 ∧
    (∀ index ∈ i.accounts, index ≤ UInt8.ofNat (frame.totalNumberOfAccounts + 65535)) ∧
    (enableInstructionAccountsLimit = true → i.accounts.length ≤ maxAccountsPerInstruction)

instance (enable : Bool) (i : Instruction) : Decidable (frame.InstructionAllowed enable i) :=
  inferInstanceAs (Decidable (_ ∧ _ ∧ _ ∧ _))

def sanitizeInstructions (enableInstructionAccountsLimit : Bool) : ViewResult Unit := do
  require (frame.instructions.numInstructions ≤ instructionsLimit frame.version) .sanitizeError
  require (∀ i ∈ frame.instructions.iter bytes, frame.InstructionAllowed enableInstructionAccountsLimit i)
    .sanitizeError

def sanitizeAddressTableLookups : ViewResult Unit :=
  require (frame.addressTableLookup.numAddressTableLookups = 0) .addressLookupMismatch

def sanitize (enableInstructionAccountsLimit : Bool) : ViewResult Unit := do
  frame.sanitizeTransactionSize bytes
  frame.sanitizeMessageHeader
  frame.sanitizeConfig bytes
  frame.sanitizeSignatures
  frame.sanitizeAccountAccess bytes
  frame.sanitizeInstructions bytes enableInstructionAccountsLimit
  frame.sanitizeAddressTableLookups

end TransactionFrame

/-- `TransactionView::try_new_sanitized` accepts the bytes. -/
structure Accepted (bytes : Bytes) (frame : TransactionFrame) : Prop where
  framed : TransactionFrame.tryNew bytes = .ok frame
  sanitized : ∃ enableInstructionAccountsLimit, frame.sanitize bytes enableInstructionAccountsLimit = .ok ()

end View

end MagicEngine
