import MagicEngine.Encoding
import MagicEngine.Transaction
import MagicEngine.View.Canonical

/-!
# Resolved transactions of a view

`ResolvedTransactionView::try_new` (`resolved_transaction_view.rs`): the writable accounts of a sanitized transaction,
kept as one bit per account index. The bits are set from the message header and the reserved keys in a loop over the
keys, and then cleared for the programs in a loop over the instructions. The header and the instructions are those that
passed sanitization, so that the counts of the header do not overlap and every index is one of a key.
-/

namespace MagicEngine

open Codec

namespace View

/-! ### Distinct keys -/

theorem insertsTwice_eq_false {keys set : List Bytes} :
    insertsTwice keys set = false ↔ keys.Nodup ∧ ∀ key ∈ keys, key ∉ set := by
  induction keys generalizing set with
  | nil => simp [insertsTwice]
  | cons key keys ih =>
    simp only [insertsTwice, Bool.or_eq_false_iff, ih, List.contains_eq_mem, decide_eq_false_iff_not, List.nodup_cons,
      List.mem_cons, not_or, forall_eq_or_imp, forall_and]
    constructor
    · rintro ⟨hset, hnodup, hne, hrest⟩
      exact ⟨⟨fun hmem => hne key hmem rfl, hnodup⟩, hset, hrest⟩
    · rintro ⟨⟨hmem, hnodup⟩, hset, hrest⟩
      exact ⟨hset, hnodup, fun _ hother heq => hmem (heq ▸ hother), hrest⟩

theorem occursLater_eq_false {keys : List Bytes} : occursLater keys = false ↔ keys.Nodup := by
  induction keys with
  | nil => simp [occursLater]
  | cons key keys ih => simp [occursLater, ih]

/-- Both checks find every duplicate. -/
theorem hasDuplicates_eq_false {keys : List Bytes} : hasDuplicates keys = false ↔ keys.Nodup := by
  unfold hasDuplicates
  split
  · simp [insertsTwice_eq_false]
  · exact occursLater_eq_false

/-! ### The cached bits -/

structure WritableCache where
  words : List (BitVec 64)
  length_words : words.length = 4
deriving DecidableEq, Repr

namespace WritableCache

def bit (index : Nat) : BitVec 64 := 1#64 <<< (index % 64)

def empty : WritableCache := ⟨List.replicate 4 0, rfl⟩

/-- Whether the bit is set; an index past the words is not in the cache. -/
def test (cache : WritableCache) (index : Nat) : Bool :=
  match cache.words[index / 64]? with
  | none => false
  | some word => word &&& bit index ≠ 0

def insert (cache : WritableCache) (index : Nat) : WritableCache :=
  ⟨cache.words.modify (index / 64) (· ||| bit index), by rw [List.length_modify, cache.length_words]⟩

def erase (cache : WritableCache) (index : Nat) : WritableCache :=
  ⟨cache.words.modify (index / 64) (· &&& ~~~bit index), by rw [List.length_modify, cache.length_words]⟩

theorem getLsbD_bit (index i : Nat) : (bit index).getLsbD i = decide (index % 64 = i) := by
  have hlt : index % 64 < 64 := Nat.mod_lt _ (by decide)
  rw [bit, ← BitVec.twoPow_eq, BitVec.getLsbD_twoPow, decide_eq_true hlt, Bool.true_and]

theorem and_bit_ne_zero (word : BitVec 64) (index : Nat) :
    decide (word &&& bit index ≠ 0) = word.getLsbD (index % 64) := by
  have hlt : index % 64 < 64 := Nat.mod_lt _ (by decide)
  have hne : BitVec.twoPow 64 (index % 64) ≠ 0#64 := by
    intro hzero
    have hbit := congrArg (·.getLsbD (index % 64)) hzero
    simp [hlt] at hbit
  rw [bit, ← BitVec.twoPow_eq, BitVec.and_twoPow]
  cases word.getLsbD (index % 64) <;> simp [hne]

theorem test_eq (cache : WritableCache) (i : Nat) :
    cache.test i = (cache.words[i / 64]?).any (·.getLsbD (i % 64)) := by
  unfold test
  cases cache.words[i / 64]? with
  | none => rfl
  | some word => exact and_bit_ne_zero word i

@[simp]
theorem test_empty (i : Nat) : empty.test i = false := by
  rw [test_eq, empty, List.getElem?_replicate]
  split <;> simp

theorem test_insert (cache : WritableCache) {index : Nat} (h : index < 256) (i : Nat) :
    (cache.insert index).test i = (cache.test i || decide (i = index)) := by
  have hword : index / 64 < cache.words.length := by
    rw [cache.length_words]
    omega
  simp only [test_eq, insert, List.getElem?_modify]
  by_cases hsame : index / 64 = i / 64
  · have hiff : index % 64 = i % 64 ↔ i = index := by omega
    rw [← hsame, List.getElem?_eq_getElem hword]
    simp [getLsbD_bit, hiff]
  · have hne : i ≠ index := fun heq => hsame (by rw [heq])
    simp [hsame, hne]

theorem test_erase (cache : WritableCache) (index i : Nat) :
    (cache.erase index).test i = (cache.test i && decide (index ≠ i)) := by
  simp only [test_eq, erase, List.getElem?_modify]
  by_cases hsame : index / 64 = i / 64
  · have hiff : index % 64 = i % 64 ↔ index = i := by omega
    have hlt : i % 64 < 64 := Nat.mod_lt _ (by decide)
    cases cache.words[i / 64]? with
    | none => rfl
    | some word =>
      simp only [hsame, if_true, Option.map_eq_map, Option.map_some, Option.any_some, BitVec.getLsbD_and,
        BitVec.getLsbD_not, decide_eq_true hlt, Bool.true_and, getLsbD_bit, hiff, decide_not]
  · have hne : index ≠ i := fun heq => hsame (by rw [heq])
    simp [hsame, hne]

end WritableCache

/-! ### Resolution -/

structure LoadedAddresses where
  writable : List Bytes
  readonly : List Bytes
deriving DecidableEq, Repr

structure ResolvedTransactionView where
  frame : TransactionFrame
  bytes : Bytes
  writableCache : WritableCache
deriving DecidableEq, Repr

namespace TransactionFrame

variable (frame : TransactionFrame) (bytes : Bytes)

/-- `num_writable_unsigned_static_accounts`; the subtractions wrap. -/
def numWritableUnsignedStaticAccounts : UInt8 :=
  frame.staticAccountKeys.numStaticAccounts - frame.messageHeader.numRequiredSignatures -
    frame.messageHeader.numReadonlyUnsignedAccounts

def numWritableSignedStaticAccounts : UInt8 :=
  frame.messageHeader.numRequiredSignatures - frame.messageHeader.numReadonlySignedAccounts

/-- `AccountKeys`: the static keys, then the loaded ones. -/
def accountKeys (resolvedAddresses : Option LoadedAddresses) : List Bytes :=
  match resolvedAddresses with
  | none => frame.keys bytes
  | some loaded => frame.keys bytes ++ loaded.writable ++ loaded.readonly

/-- `is_requested_write` of `cache_is_writable`. -/
def isRequestedWrite (index : Nat) : Bool :=
  let numStaticAccountKeys := frame.staticAccountKeys.numStaticAccounts.toNat
  let numSignedAccounts := frame.messageHeader.numRequiredSignatures.toNat
  if numStaticAccountKeys ≤ index then
    index - numStaticAccountKeys < frame.addressTableLookup.totalWritableLookupAccounts
  else if numSignedAccounts ≤ index then
    index - numSignedAccounts < frame.numWritableUnsignedStaticAccounts.toNat
  else index < frame.numWritableSignedStaticAccounts.toNat

def cacheRequested (reservedAccountKeys : Finset Bytes) : List Bytes → Nat → WritableCache → WritableCache
  | [], _, cache => cache
  | key :: keys, index, cache =>
    cacheRequested reservedAccountKeys keys (index + 1)
      (if frame.isRequestedWrite index ∧ key ∉ reservedAccountKeys then cache.insert index else cache)

end TransactionFrame

/-- The loop over the instructions. Whether the upgradeable loader is among the keys is found out for the first writable
program. -/
def clearPrograms (accountKeys : List Bytes) : List Instruction → Option Bool → WritableCache → WritableCache
  | [], _, cache => cache
  | instruction :: instructions, loaderPresent, cache =>
    let programIdIndex := instruction.programIdIndex.toNat
    if cache.test programIdIndex then
      let present := loaderPresent.getD (accountKeys.contains bpfLoaderUpgradeableId.toBytes)
      clearPrograms accountKeys instructions (some present) (if present then cache else cache.erase programIdIndex)
    else clearPrograms accountKeys instructions loaderPresent cache

namespace TransactionFrame

variable (frame : TransactionFrame) (bytes : Bytes)

def cacheIsWritable (resolvedAddresses : Option LoadedAddresses) (reservedAccountKeys : Finset Bytes) : WritableCache :=
  let accountKeys := frame.accountKeys bytes resolvedAddresses
  clearPrograms accountKeys (frame.instructions.iter bytes) none
    (frame.cacheRequested reservedAccountKeys accountKeys 0 .empty)

/-- The loaded addresses are as many as the lookups name. -/
def LookupsMatch : Option LoadedAddresses → Prop
  | some loaded => loaded.writable.length = frame.addressTableLookup.totalWritableLookupAccounts ∧
    loaded.readonly.length = frame.addressTableLookup.totalReadonlyLookupAccounts
  | none => frame.addressTableLookup.totalWritableLookupAccounts = 0 ∧
    frame.addressTableLookup.totalReadonlyLookupAccounts = 0

instance : ∀ resolvedAddresses, Decidable (frame.LookupsMatch resolvedAddresses)
  | some _ => inferInstanceAs (Decidable (_ ∧ _))
  | none => inferInstanceAs (Decidable (_ ∧ _))

end TransactionFrame

namespace ResolvedTransactionView

def tryNew (frame : TransactionFrame) (bytes : Bytes) (resolvedAddresses : Option LoadedAddresses)
    (reservedAccountKeys : Finset Bytes) : ViewResult ResolvedTransactionView := do
  require (frame.LookupsMatch resolvedAddresses) .addressLookupMismatch
  pure { frame, bytes, writableCache := frame.cacheIsWritable bytes resolvedAddresses reservedAccountKeys }

variable (view : ResolvedTransactionView)

def isWritable (index : Nat) : Bool := view.writableCache.test index

def isSigner (index : Nat) : Bool := index < view.frame.messageHeader.numRequiredSignatures.toNat

def isInvoked (keyIndex : Nat) : Bool :=
  decide (keyIndex < 2 ^ 8) && (view.frame.instructions.iter view.bytes).any fun instruction =>
    instruction.programIdIndex = UInt8.ofNat keyIndex

end ResolvedTransactionView

/-! ### The two loops -/

theorem test_cacheRequested (frame : TransactionFrame) (reserved : Finset Bytes) (keys : List Bytes) (index i : Nat)
    (cache : WritableCache) (h : index + keys.length ≤ 256) :
    (frame.cacheRequested reserved keys index cache).test i = true ↔
      cache.test i = true ∨ index ≤ i ∧ frame.isRequestedWrite i = true ∧
        ∃ key, keys[i - index]? = some key ∧ key ∉ reserved := by
  induction keys generalizing index cache with
  | nil => simp [TransactionFrame.cacheRequested]
  | cons key keys ih =>
    rw [List.length_cons] at h
    have hstep : (if frame.isRequestedWrite index ∧ key ∉ reserved then cache.insert index else cache).test i = true ↔
        cache.test i = true ∨ i = index ∧ frame.isRequestedWrite i = true ∧ key ∉ reserved := by
      split
      · next hrequested =>
        rw [WritableCache.test_insert cache (by omega), Bool.or_eq_true, decide_eq_true_iff]
        exact or_congr_right ⟨fun heq => ⟨heq, heq ▸ hrequested⟩, fun h => h.1⟩
      · next hrequested =>
        exact ⟨.inl, fun h => h.elim id fun ⟨heq, hother⟩ => absurd (heq ▸ hother) hrequested⟩
    rw [TransactionFrame.cacheRequested, ih _ _ (by omega), hstep, or_assoc]
    refine or_congr_right ?_
    rcases Nat.lt_trichotomy i index with hlt | rfl | hlt
    · simp [Nat.not_le.mpr hlt, Nat.not_le.mpr (Nat.lt_succ_of_lt hlt), Nat.ne_of_lt hlt]
    · simp
    · have hsub : i - index = i - (index + 1) + 1 := by omega
      simp [Nat.ne_of_gt hlt, Nat.succ_le_of_lt hlt, hlt.le, hsub]

theorem test_clearPrograms (keys : List Bytes) (instructions : List Instruction) (loaderPresent : Option Bool)
    (hpresent : ∀ present ∈ loaderPresent, present = keys.contains bpfLoaderUpgradeableId.toBytes)
    (cache : WritableCache) (i : Nat) :
    (clearPrograms keys instructions loaderPresent cache).test i = true ↔
      cache.test i = true ∧ ((∃ instruction ∈ instructions, instruction.programIdIndex.toNat = i) →
        bpfLoaderUpgradeableId.toBytes ∈ keys) := by
  induction instructions generalizing loaderPresent cache with
  | nil => simp [clearPrograms]
  | cons instruction instructions ih =>
    have hcons : (∃ other ∈ instruction :: instructions, other.programIdIndex.toNat = i) ↔
        instruction.programIdIndex.toNat = i ∨ ∃ other ∈ instructions, other.programIdIndex.toNat = i := by simp
    rw [clearPrograms, hcons]
    split
    · next htest =>
      have hvalue : loaderPresent.getD (keys.contains bpfLoaderUpgradeableId.toBytes) =
          keys.contains bpfLoaderUpgradeableId.toBytes := by
        cases loaderPresent with
        | none => rfl
        | some present => exact hpresent present rfl
      rw [ih _ fun present hsome => (Option.some.inj hsome).symm.trans hvalue, hvalue]
      by_cases hloader : bpfLoaderUpgradeableId.toBytes ∈ keys
      · simp [hloader]
      · simp only [hloader, imp_false, List.contains_eq_mem, decide_false, Bool.false_eq_true, if_false,
          WritableCache.test_erase, Bool.and_eq_true, decide_eq_true_iff, not_or, and_assoc, ne_eq]
    · next htest =>
      rw [ih _ hpresent]
      -- a bit that is not set needs no clearing
      have hother : cache.test i = true → instruction.programIdIndex.toNat ≠ i := fun hi heq => htest (heq ▸ hi)
      exact and_congr_right fun hi => by simp [hother hi]

/-! ### What sanitization leaves -/

/-- The header names a writable signer or a writable account behind the signers. -/
def TransactionFrame.RequestsWrite (frame : TransactionFrame) (index : Nat) : Prop :=
  index < frame.messageHeader.numRequiredSignatures.toNat - frame.messageHeader.numReadonlySignedAccounts.toNat ∨
    frame.messageHeader.numRequiredSignatures.toNat ≤ index ∧
      index < frame.staticAccountKeys.numStaticAccounts.toNat - frame.messageHeader.numReadonlyUnsignedAccounts.toNat

structure Sanitized (frame : TransactionFrame) (bytes : Bytes) : Prop where
  readonlySigned_lt :
    frame.messageHeader.numReadonlySignedAccounts.toNat < frame.messageHeader.numRequiredSignatures.toNat
  readonlyUnsigned_le : frame.messageHeader.numRequiredSignatures.toNat +
    frame.messageHeader.numReadonlyUnsignedAccounts.toNat ≤ frame.staticAccountKeys.numStaticAccounts.toNat
  signatures : frame.signature.numSignatures = frame.messageHeader.numRequiredSignatures
  keys_nodup : (frame.keys bytes).Nodup
  instructions : ∀ instruction ∈ frame.instructions.iter bytes,
    0 < instruction.programIdIndex.toNat ∧
    instruction.programIdIndex.toNat < frame.staticAccountKeys.numStaticAccounts.toNat ∧
    ∀ index ∈ instruction.accounts, index.toNat < frame.staticAccountKeys.numStaticAccounts.toNat
  writableLookups : frame.addressTableLookup.totalWritableLookupAccounts = 0
  readonlyLookups : frame.addressTableLookup.totalReadonlyLookupAccounts = 0

section Sanitized

variable {bytes : Bytes} {frame : TransactionFrame}

theorem lookups_totals {version : TransactionVersion} {f : AddressTableLookupFrame} {o o' : Nat}
    (h : AddressTableLookupFrame.tryNewFor version bytes o = .ok (f, o')) (hzero : f.numAddressTableLookups = 0) :
    f.totalWritableLookupAccounts = 0 ∧ f.totalReadonlyLookupAccounts = 0 := by
  unfold AddressTableLookupFrame.tryNewFor at h
  split at h
  · simp only [AddressTableLookupFrame.tryNew, bind_eq_ok, Prod.exists] at h
    obtain ⟨numLookups, o₁, -, u, -, u, -, offset, -, writable, readonly, o₂, hframes, writable', hwritable, readonly', hreadonly, ⟨⟩⟩ := h
    obtain rfl : numLookups = 0 := hzero
    cases hframes
    cases hwritable
    cases hreadonly
    exact ⟨rfl, rfl⟩
  · cases h
    exact ⟨rfl, rfl⟩

theorem lookupTotals_eq_zero (h : TransactionFrame.tryNew bytes = .ok frame)
    (hzero : frame.addressTableLookup.numAddressTableLookups = 0) :
    frame.addressTableLookup.totalWritableLookupAccounts = 0 ∧
      frame.addressTableLookup.totalReadonlyLookupAccounts = 0 := by
  obtain ⟨u, -, h⟩ := bind_eq_ok.mp h
  obtain ⟨legacyOrV0, -, h⟩ := bind_eq_ok.mp h
  cases legacyOrV0 with
  | true =>
    replace h : TransactionFrame.tryNewAsLegacyOrV0 bytes = .ok frame := h
    simp only [TransactionFrame.tryNewAsLegacyOrV0, bind_eq_ok, Prod.exists] at h
    obtain ⟨signature, o₁, -, header, o₂, -, keys, o₃, -, blockhashOffset, -, o₄, -, instructions, o₅, -, lookup, o₆,
      hlookup, u, -, dataLen, -, ⟨⟩⟩ := h
    exact lookups_totals hlookup hzero
  | false =>
    replace h : TransactionFrame.tryNewAsV1 bytes = .ok frame := h
    simp only [TransactionFrame.tryNewAsV1, bind_eq_ok, Prod.exists] at h
    obtain ⟨u, -, version, -, o₁, -, configFrame, o₂, -, instructions, o₃, -, signaturesOffset, -, o₄, -, u, -, dataLen,
      -, ⟨⟩⟩ := h
    exact ⟨rfl, rfl⟩

theorem Accepted.toSanitized (h : Accepted bytes frame) : Sanitized frame bytes := by
  obtain ⟨enable, hsanitize⟩ := h.sanitized
  obtain ⟨u, -, hsanitize⟩ := bind_eq_ok.mp hsanitize
  obtain ⟨u, hheader, hsanitize⟩ := bind_eq_ok.mp hsanitize
  obtain ⟨u, -, hsanitize⟩ := bind_eq_ok.mp hsanitize
  obtain ⟨u, hsignatures, hsanitize⟩ := bind_eq_ok.mp hsanitize
  obtain ⟨u, haccess, hsanitize⟩ := bind_eq_ok.mp hsanitize
  obtain ⟨u, hinstructions, hlookups⟩ := bind_eq_ok.mp hsanitize
  obtain ⟨u, hrequired, hheader⟩ := bind_eq_ok.mp hheader
  obtain ⟨u, hreadonlySigned, hreadonlyUnsigned⟩ := bind_eq_ok.mp hheader
  obtain ⟨u, hcount, hsignatures⟩ := bind_eq_ok.mp hsignatures
  obtain ⟨u, -, hkeys⟩ := bind_eq_ok.mp hsignatures
  obtain ⟨u, -, hduplicates⟩ := bind_eq_ok.mp haccess
  obtain ⟨u, -, hallowed⟩ := bind_eq_ok.mp hinstructions
  rw [TransactionFrame.sanitizeAddressTableLookups] at hlookups
  rw [require_eq_ok] at hrequired hreadonlySigned hreadonlyUnsigned hcount hkeys hduplicates hallowed hlookups
  obtain ⟨hwritable, hreadonly⟩ := lookupTotals_eq_zero h.framed hlookups
  have hpositive : 1 ≤ frame.messageHeader.numRequiredSignatures.toNat := UInt8.le_iff_toNat_le.mp hrequired
  have hle : frame.messageHeader.numRequiredSignatures ≤ frame.staticAccountKeys.numStaticAccounts := hcount ▸ hkeys
  have hleNat := UInt8.le_iff_toNat_le.mp hle
  have htotal : frame.totalNumberOfAccounts = frame.staticAccountKeys.numStaticAccounts.toNat := by
    have hlt := frame.staticAccountKeys.numStaticAccounts.toNat_lt
    rw [TransactionFrame.totalNumberOfAccounts, hwritable, hreadonly]
    omega
  refine ⟨UInt8.lt_iff_toNat_lt.mp hreadonlySigned, ?_, hcount, hasDuplicates_eq_false.mp hduplicates, ?_, hwritable,
    hreadonly⟩
  · have hunsigned := UInt8.le_iff_toNat_le.mp hreadonlyUnsigned
    rw [UInt8.toNat_sub_of_le _ _ hle] at hunsigned
    omega
  · intro instruction hmem
    obtain ⟨hprogram, hnonzero, haccounts, -⟩ := hallowed instruction hmem
    have hlt := frame.staticAccountKeys.numStaticAccounts.toNat_lt
    refine ⟨?_, ?_, fun index hindex => ?_⟩
    · exact Nat.pos_of_ne_zero fun hzero => hnonzero (UInt8.toNat_inj.mp hzero)
    · have hprogramNat := UInt8.le_iff_toNat_le.mp hprogram
      have hone : (1 : UInt8) ≤ frame.staticAccountKeys.numStaticAccounts :=
        UInt8.le_iff_toNat_le.mpr (hpositive.trans hleNat)
      rw [UInt8.toNat_sub_of_le _ _ hone, UInt8.toNat_one] at hprogramNat
      omega
    · have hindexNat := UInt8.le_iff_toNat_le.mp (haccounts index hindex)
      rw [htotal, UInt8.toNat_ofNat'] at hindexNat
      omega

theorem Sanitized.isRequestedWrite_iff (h : Sanitized frame bytes) (index : Nat) :
    frame.isRequestedWrite index = true ↔ frame.RequestsWrite index := by
  have hsigned := h.readonlySigned_lt
  have hunsigned := h.readonlyUnsigned_le
  have hrequired : frame.messageHeader.numRequiredSignatures ≤ frame.staticAccountKeys.numStaticAccounts :=
    UInt8.le_iff_toNat_le.mpr (by omega)
  have hwritableSigned : frame.numWritableSignedStaticAccounts.toNat =
      frame.messageHeader.numRequiredSignatures.toNat - frame.messageHeader.numReadonlySignedAccounts.toNat :=
    UInt8.toNat_sub_of_le _ _ (UInt8.le_iff_toNat_le.mpr hsigned.le)
  have hwritableUnsigned : frame.numWritableUnsignedStaticAccounts.toNat =
      frame.staticAccountKeys.numStaticAccounts.toNat - frame.messageHeader.numRequiredSignatures.toNat -
        frame.messageHeader.numReadonlyUnsignedAccounts.toNat := by
    rw [TransactionFrame.numWritableUnsignedStaticAccounts, UInt8.toNat_sub_of_le, UInt8.toNat_sub_of_le _ _ hrequired]
    rw [UInt8.le_iff_toNat_le, UInt8.toNat_sub_of_le _ _ hrequired]
    omega
  unfold TransactionFrame.isRequestedWrite TransactionFrame.RequestsWrite
  rw [hwritableSigned, hwritableUnsigned, h.writableLookups]
  dsimp only
  split_ifs <;> rw [decide_eq_true_iff] <;> omega

end Sanitized

theorem length_keys (frame : TransactionFrame) (bytes : Bytes) :
    (frame.keys bytes).length = frame.staticAccountKeys.numStaticAccounts.toNat := length_groups ..

theorem Sanitized.accountKeys_eq {bytes : Bytes} {frame : TransactionFrame} (h : Sanitized frame bytes)
    {resolvedAddresses : Option LoadedAddresses} (hlookups : frame.LookupsMatch resolvedAddresses) :
    frame.accountKeys bytes resolvedAddresses = frame.keys bytes := by
  cases resolvedAddresses with
  | none => rfl
  | some loaded =>
    obtain ⟨hwritable, hreadonly⟩ := hlookups
    rw [h.writableLookups, List.length_eq_zero_iff] at hwritable
    rw [h.readonlyLookups, List.length_eq_zero_iff] at hreadonly
    rw [TransactionFrame.accountKeys, hwritable, hreadonly, List.append_nil, List.append_nil]

theorem isInvoked_iff (view : ResolvedTransactionView) (i : Nat) : view.isInvoked i = true ↔
    ∃ instruction ∈ view.frame.instructions.iter view.bytes, instruction.programIdIndex.toNat = i := by
  simp only [ResolvedTransactionView.isInvoked, Bool.and_eq_true, decide_eq_true_iff, List.any_eq_true]
  constructor
  · rintro ⟨hlt, instruction, hmem, hindex⟩
    exact ⟨instruction, hmem, by rw [hindex, UInt8.toNat_ofNat_of_lt' hlt]⟩
  · rintro ⟨instruction, hmem, rfl⟩
    exact ⟨instruction.programIdIndex.toNat_lt, instruction, hmem, UInt8.ofNat_toNat.symm⟩

/-- A transaction that passes sanitization and resolution has distinct keys, indices in range and as many signatures as
signers, its fee payer is a writable signer, and an account is writable just if the header requests it, its key is not
reserved, and it is not invoked, unless the upgradeable loader is among the keys. -/
theorem resolved_write_set_exact {bytes : Bytes} {frame : TransactionFrame} {resolvedAddresses : Option LoadedAddresses}
    {reservedAccountKeys : Finset Bytes} {view : ResolvedTransactionView} (haccepted : Accepted bytes frame)
    (hresolved : ResolvedTransactionView.tryNew frame bytes resolvedAddresses reservedAccountKeys = .ok view) :
    (frame.keys bytes).Nodup ∧
    (∀ instruction ∈ frame.instructions.iter bytes, 0 < instruction.programIdIndex.toNat ∧
      instruction.programIdIndex.toNat < (frame.keys bytes).length ∧
      ∀ index ∈ instruction.accounts, index.toNat < (frame.keys bytes).length) ∧
    (frame.signatures bytes).length = frame.messageHeader.numRequiredSignatures.toNat ∧
    (0 < (frame.keys bytes).length ∧ view.isSigner 0 = true ∧ frame.RequestsWrite 0) ∧
    ∀ i, view.isWritable i = true ↔ frame.RequestsWrite i ∧
      (∃ key, (frame.keys bytes)[i]? = some key ∧ key ∉ reservedAccountKeys) ∧
      (view.isInvoked i = true → bpfLoaderUpgradeableId.toBytes ∈ frame.keys bytes) := by
  have hsanitized := haccepted.toSanitized
  obtain ⟨u, hlookups, hview⟩ := bind_eq_ok.mp hresolved
  rw [require_eq_ok] at hlookups
  cases hview
  have hsigned := hsanitized.readonlySigned_lt
  have hunsigned := hsanitized.readonlyUnsigned_le
  have hcount : (frame.keys bytes).length ≤ 256 := by
    rw [length_keys]
    exact (UInt8.toNat_lt _).le
  refine ⟨hsanitized.keys_nodup, ?_, ?_, ⟨?_, ?_, ?_⟩, fun i => ?_⟩
  · rw [length_keys]
    exact hsanitized.instructions
  · rw [TransactionFrame.signatures, length_groups, hsanitized.signatures]
  · rw [length_keys]
    omega
  · exact decide_eq_true (by dsimp only; omega)
  · exact .inl (by omega)
  · rw [isInvoked_iff, ResolvedTransactionView.isWritable, TransactionFrame.cacheIsWritable]
    simp only [hsanitized.accountKeys_eq hlookups]
    rw [test_clearPrograms _ _ none (by simp), test_cacheRequested _ _ _ _ _ _ (by omega),
      hsanitized.isRequestedWrite_iff]
    simp [and_assoc]

/-- The fee payer of the private transaction is writable. -/
theorem resolved_write_set_exact_private :
    ∃ view, ResolvedTransactionView.tryNew privateFrame (privateTransaction 3) none ∅ = .ok view ∧
      view.isSigner 0 = true ∧ view.isWritable 0 = true := by
  have haccepted : Accepted (privateTransaction 3) privateFrame := ⟨by decide +kernel, true, by decide +kernel⟩
  have hresolved : ResolvedTransactionView.tryNew privateFrame (privateTransaction 3) none ∅ = .ok _ := rfl
  obtain ⟨-, -, -, ⟨-, hsigner, hrequests⟩, hwritable⟩ := resolved_write_set_exact haccepted hresolved
  refine ⟨_, hresolved, hsigner, (hwritable 0).mpr ⟨hrequests, ⟨List.replicate 32 1, by decide +kernel, by simp⟩, fun hinvoked => ?_⟩⟩
  exact absurd hinvoked (by decide +kernel)

/-! ### Transactions of the engine -/

namespace WritableCache

theorem test_eq_false (cache : WritableCache) {i : Nat} (h : 256 ≤ i) : cache.test i = false := by
  rw [test_eq, List.getElem?_eq_none (by rw [cache.length_words]; omega)]
  rfl

def bits (cache : WritableCache) : BitVec 256 :=
  (BitVec.ofBoolListLE ((List.range 256).map cache.test)).cast (by simp)

theorem getLsbD_bits (cache : WritableCache) (i : Nat) : cache.bits.getLsbD i = cache.test i := by
  rw [bits, BitVec.getLsbD_cast, BitVec.getLsbD_ofBoolListLE, List.getD_eq_getElem?_getD, List.getElem?_map]
  by_cases h : i < 256
  · rw [List.getElem?_range h]
    rfl
  · rw [cache.test_eq_false (Nat.le_of_not_lt h), List.getElem?_eq_none (by simpa using h)]
    rfl

end WritableCache

namespace ResolvedTransactionView

/-- What the sequencer and the executors are handed. -/
def transaction (view : ResolvedTransactionView) (h : ((view.frame.keys view.bytes).map Pubkey.ofBytes).Nodup) :
    ResolvedTransaction where
  signatures := (view.frame.signatures view.bytes).map Signature.ofBytes
  numRequiredSignatures := view.frame.messageHeader.numRequiredSignatures.toNat
  staticAccountKeys := (view.frame.keys view.bytes).map Pubkey.ofBytes
  instructions := (view.frame.instructions.iter view.bytes).map fun instruction =>
    ⟨instruction.programIdIndex.toNat, instruction.accounts.map UInt8.toNat, instruction.data⟩
  writableCache := view.writableCache.bits
  keys_nodup := h

theorem isWritable_transaction (view : ResolvedTransactionView)
    (h : ((view.frame.keys view.bytes).map Pubkey.ofBytes).Nodup) (i : Nat) :
    (view.transaction h).isWritable i = view.isWritable i := view.writableCache.getLsbD_bits i

end ResolvedTransactionView

theorem Accepted.pubkeys_nodup {bytes : Bytes} {frame : TransactionFrame} (h : Accepted bytes frame) :
    ((frame.keys bytes).map Pubkey.ofBytes).Nodup := by
  have hlength := (laid_of_framed h.framed).wellFormed.keys
  refine h.toSanitized.keys_nodup.map_on fun key hkey other hother heq => ?_
  rw [← Pubkey.toBytes_ofBytes (hlength key hkey), heq, Pubkey.toBytes_ofBytes (hlength other hother)]

/-- What the sequencer and the executors get of an accepted transaction: the distinct addresses of the message, each with
its writability in the view, and instructions that refer to these addresses only. -/
theorem sequenced_accesses {bytes : Bytes} {frame : TransactionFrame} {resolvedAddresses : Option LoadedAddresses}
    {reservedAccountKeys : Finset Bytes} {view : ResolvedTransactionView} (haccepted : Accepted bytes frame)
    (hresolved : ResolvedTransactionView.tryNew frame bytes resolvedAddresses reservedAccountKeys = .ok view) :
    ∃ h, (view.transaction h).accesses =
        (frame.keys bytes).zipIdx.map (fun (key, i) => (Pubkey.ofBytes key, view.isWritable i)) ∧
      ∀ instruction ∈ (view.transaction h).instructions, ∀ i ∈ instruction.programIdIndex :: instruction.accounts,
        i < (view.transaction h).accesses.length := by
  obtain ⟨u, -, hview⟩ := bind_eq_ok.mp hresolved
  cases hview
  refine ⟨haccepted.pubkeys_nodup, ?_, fun instruction hmem i hi => ?_⟩
  · simp only [ResolvedTransaction.accesses, ResolvedTransactionView.isWritable_transaction]
    rw [ResolvedTransactionView.transaction, List.zipIdx_map, List.map_map]
    rfl
  · obtain ⟨raw, hraw, rfl⟩ := List.mem_map.mp hmem
    obtain ⟨-, hprogram, haccounts⟩ := haccepted.toSanitized.instructions raw hraw
    rw [← List.length_map Prod.fst, ResolvedTransaction.accesses_map_fst, ResolvedTransactionView.transaction,
      List.length_map, length_keys]
    rcases List.mem_cons.mp hi with rfl | hi
    · exact hprogram
    · obtain ⟨account, haccount, rfl⟩ := List.mem_map.mp hi
      exact haccounts account haccount

/-- The sequencer locks the fee payer of the private transaction exclusively. -/
theorem sequenced_accesses_private : ∃ view h,
    ResolvedTransactionView.tryNew privateFrame (privateTransaction 3) none ∅ = .ok view ∧
      (view.transaction h).accesses.head? = some (Pubkey.ofBytes (List.replicate 32 1), true) := by
  have hresolved : ResolvedTransactionView.tryNew privateFrame (privateTransaction 3) none ∅ = .ok _ := rfl
  obtain ⟨h, haccesses, -⟩ := sequenced_accesses ⟨by decide +kernel, true, by decide +kernel⟩ hresolved
  exact ⟨_, h, hresolved, haccesses ▸ by decide +kernel⟩

end View

end MagicEngine
