import MagicEngine.View.Layout

/-!
# Serialized transactions have one meaning

The signed part of a transaction (`TransactionContent.message`) determines everything but the signatures: its first byte
tells the version, and from there on every field is told from what follows it. With the layout of a framed byte string
this gives both directions of `accepted_bytes_canonical`.
-/

namespace MagicEngine

open Codec

namespace View

/-! ### Signed bytes determine what they say -/

theorem encodeCounted_code : PrefixCode (fun bytes : Bytes => bytes.length < 2 ^ 16) encodeCounted := by
  intro a b x y ha hb h
  simp only [encodeCounted, List.append_assoc] at h
  obtain ⟨hlength, hrest⟩ := encodeCompressedU16_code ha hb h
  exact List.append_inj hrest hlength

theorem Instruction.encode_code :
    PrefixCode (fun i : Instruction => i.accounts.length < 2 ^ 16 ∧ i.data.length < 2 ^ 16) Instruction.encode := by
  intro i j x y hi hj h
  simp only [Instruction.encode, List.cons_append, List.cons.injEq, List.append_assoc] at h
  obtain ⟨haccounts, hrest⟩ := encodeCounted_code hi.1 hj.1 h.2
  obtain ⟨hdata, hxy⟩ := encodeCounted_code hi.2 hj.2 hrest
  exact ⟨by cases i; cases j; simp_all, hxy⟩

def Instruction.shape (i : Instruction) : UInt8 × Nat × Nat := (i.programIdIndex, i.accounts.length, i.data.length)

theorem Instruction.headers_inj {l l' : List Instruction} {x y : Bytes} (hlength : l.length = l'.length)
    (hl : ∀ i ∈ l, i.accounts.length < 2 ^ 8 ∧ i.data.length < 2 ^ 16)
    (hl' : ∀ i ∈ l', i.accounts.length < 2 ^ 8 ∧ i.data.length < 2 ^ 16)
    (h : l.flatMap Instruction.header ++ x = l'.flatMap Instruction.header ++ y) :
    l.map Instruction.shape = l'.map Instruction.shape ∧ x = y := by
  induction l generalizing l' with
  | nil =>
    obtain rfl : l' = [] := List.length_eq_zero_iff.mp hlength.symm
    exact ⟨rfl, h⟩
  | cons i l ih =>
    cases l' with
    | nil => cases hlength
    | cons j l' =>
      obtain ⟨hi, hl⟩ := List.forall_mem_cons.mp hl
      obtain ⟨hj, hl'⟩ := List.forall_mem_cons.mp hl'
      simp only [List.flatMap_cons, Instruction.header, List.cons_append, List.cons.injEq, List.append_assoc] at h
      obtain ⟨hprogram, haccounts, h⟩ := h
      obtain ⟨hdata, hrest⟩ := PrefixCode.littleEndian 2 hi.2 hj.2 h
      obtain ⟨hshapes, hxy⟩ := ih (Nat.succ.inj hlength) hl hl' hrest
      have hcount : i.accounts.length = j.accounts.length := by
        have := congrArg UInt8.toNat haccounts
        simp only [UInt8.toNat_ofNat'] at this
        omega
      exact ⟨by simp [Instruction.shape, hprogram, hcount, hdata, hshapes], hxy⟩

theorem Instruction.payloads_inj {l l' : List Instruction} {x y : Bytes}
    (hshapes : l.map Instruction.shape = l'.map Instruction.shape)
    (h : l.flatMap Instruction.payload ++ x = l'.flatMap Instruction.payload ++ y) : l = l' ∧ x = y := by
  induction l generalizing l' with
  | nil =>
    obtain rfl : l' = [] := by simpa using hshapes.symm
    exact ⟨rfl, h⟩
  | cons i l ih =>
    cases l' with
    | nil => cases hshapes
    | cons j l' =>
      simp only [List.map_cons, List.cons.injEq, Instruction.shape, Prod.mk.injEq] at hshapes
      obtain ⟨⟨hprogram, haccounts, hdata⟩, hshapes⟩ := hshapes
      simp only [List.flatMap_cons, Instruction.payload, List.append_assoc] at h
      obtain ⟨haccounts, h⟩ := List.append_inj h haccounts
      obtain ⟨hdata, h⟩ := List.append_inj h hdata
      obtain ⟨rfl, hxy⟩ := ih hshapes h
      exact ⟨by cases i; cases j; simp_all, hxy⟩

namespace TransactionConfig

theorem isSome_of_mask_eq {c d : TransactionConfig} (h : c.mask = d.mask) :
    c.priorityFeeLamports.isSome = d.priorityFeeLamports.isSome ∧
      c.computeUnitLimit.isSome = d.computeUnitLimit.isSome ∧
      c.loadedAccountsDataSizeLimit.isSome = d.loadedAccountsDataSizeLimit.isSome ∧
      c.requestedHeapSize.isSome = d.requestedHeapSize.isSome := by
  unfold mask at h
  generalize c.priorityFeeLamports.isSome = c₀, c.computeUnitLimit.isSome = c₁,
    c.loadedAccountsDataSizeLimit.isSome = c₂, c.requestedHeapSize.isSome = c₃,
    d.priorityFeeLamports.isSome = d₀, d.computeUnitLimit.isSome = d₁,
    d.loadedAccountsDataSizeLimit.isSome = d₂, d.requestedHeapSize.isSome = d₃ at h ⊢
  revert c₀ c₁ c₂ c₃ d₀ d₁ d₂ d₃
  decide

theorem mask_lt (c : TransactionConfig) : c.mask < 256 ^ 4 := by
  unfold mask
  split_ifs <;> decide

theorem encodeValue_inj {width : Nat} {v w : Option Nat} {x y : Bytes} (hsome : v.isSome = w.isSome)
    (hv : ∀ value ∈ v, value < 256 ^ width) (hw : ∀ value ∈ w, value < 256 ^ width)
    (h : encodeValue width v ++ x = encodeValue width w ++ y) : v = w ∧ x = y := by
  cases v <;> cases w <;> simp_all [encodeValue]
  exact PrefixCode.littleEndian width hv hw h

theorem values_inj {c d : TransactionConfig} {x y : Bytes} (hc : c.Bounded) (hd : d.Bounded) (hmask : c.mask = d.mask)
    (h : c.values ++ x = d.values ++ y) : c = d ∧ x = y := by
  obtain ⟨hfee, hunits, hsize, hheap⟩ := isSome_of_mask_eq hmask
  simp only [values, List.append_assoc] at h
  obtain ⟨hfee, h⟩ := encodeValue_inj hfee hc.priorityFeeLamports hd.priorityFeeLamports h
  obtain ⟨hunits, h⟩ := encodeValue_inj hunits hc.computeUnitLimit hd.computeUnitLimit h
  obtain ⟨hsize, h⟩ := encodeValue_inj hsize hc.loadedAccountsDataSizeLimit hd.loadedAccountsDataSizeLimit h
  obtain ⟨hheap, h⟩ := encodeValue_inj hheap hc.requestedHeapSize hd.requestedHeapSize h
  exact ⟨by cases c; cases d; simp_all, h⟩

end TransactionConfig

namespace TransactionContent

variable {c d : TransactionContent} {x y : Bytes}

theorem keys_inj (hc : c.WellFormed) (hd : d.WellFormed)
    (hlength : UInt8.ofNat c.staticAccountKeys.length = UInt8.ofNat d.staticAccountKeys.length)
    (h : c.staticAccountKeys.flatten ++ x = d.staticAccountKeys.flatten ++ y) :
    c.staticAccountKeys = d.staticAccountKeys ∧ x = y := by
  have hcount := hc.keys_count
  have hcount' := hd.keys_count
  have hnat := congrArg UInt8.toNat hlength
  simp only [UInt8.toNat_ofNat'] at hnat
  refine (PrefixCode.fixed pubkeySize).list c.staticAccountKeys.length ⟨rfl, hc.keys⟩ ⟨by omega, hd.keys⟩ ?_
  simpa only [List.flatMap_id] using h

theorem legacyBody_inj (hc : c.WellFormed) (hd : d.WellFormed) (hcv : lengthBound c.version = 2 ^ 16)
    (hdv : lengthBound d.version = 2 ^ 16) (h : c.legacyBody ++ x = d.legacyBody ++ y) :
    c.header = d.header ∧ c.staticAccountKeys = d.staticAccountKeys ∧ c.recentBlockhash = d.recentBlockhash ∧
      c.instructions = d.instructions := by
  simp only [legacyBody, List.append_assoc] at h
  obtain ⟨hheader, h⟩ := List.append_inj h rfl
  simp only [List.cons_append, List.cons.injEq] at h
  obtain ⟨hkeys, h⟩ := keys_inj hc hd h.1 h.2
  obtain ⟨hblockhash, h⟩ := PrefixCode.fixed hashSize hc.blockhash hd.blockhash h
  obtain ⟨hcount, h⟩ := encodeCompressedU16_code (hcv ▸ hc.instructions_count) (hdv ▸ hd.instructions_count) h
  obtain ⟨hinstructions, -⟩ := Instruction.encode_code.list c.instructions.length ⟨rfl, hcv ▸ hc.instructions⟩
    ⟨hcount.symm, hdv ▸ hd.instructions⟩ h
  exact ⟨hheader, hkeys, hblockhash, hinstructions⟩

theorem v1Body_inj {config config' : TransactionConfig} (hc : c.WellFormed) (hd : d.WellFormed)
    (hcv : lengthBound c.version = 2 ^ 8) (hdv : lengthBound d.version = 2 ^ 8) (hcc : c.config = some config)
    (hdc : d.config = some config') (hbounded : config.Bounded) (hbounded' : config'.Bounded)
    (h : c.v1Body = d.v1Body) :
    c.header = d.header ∧ c.staticAccountKeys = d.staticAccountKeys ∧ c.recentBlockhash = d.recentBlockhash ∧
      c.config = d.config ∧ c.instructions = d.instructions := by
  simp only [v1Body, hcc, hdc, Option.getD_some] at h
  obtain ⟨hheader, h⟩ := List.append_inj h rfl
  obtain ⟨hmask, h⟩ := PrefixCode.littleEndian 4 config.mask_lt config'.mask_lt h
  obtain ⟨hblockhash, h⟩ := PrefixCode.fixed hashSize hc.blockhash hd.blockhash h
  simp only [List.cons_append, List.cons.injEq] at h
  obtain ⟨hcount, hkeysCount, h⟩ := h
  obtain ⟨hkeys, h⟩ := keys_inj hc hd hkeysCount h
  obtain ⟨hconfig, h⟩ := TransactionConfig.values_inj hbounded hbounded' hmask h
  have hlength : c.instructions.length = d.instructions.length := by
    have hlt := hc.instructions_count
    have hlt' := hd.instructions_count
    have hnat := congrArg UInt8.toNat hcount
    simp only [UInt8.toNat_ofNat'] at hnat
    omega
  obtain ⟨hshapes, h⟩ := Instruction.headers_inj hlength (hcv ▸ hc.instructions) (hdv ▸ hd.instructions) h
  rw [← List.append_nil (c.instructions.flatMap _), ← List.append_nil (d.instructions.flatMap _)] at h
  obtain ⟨hinstructions, -⟩ := Instruction.payloads_inj hshapes h
  exact ⟨hheader, hkeys, hblockhash, by rw [hcc, hdc, hconfig], hinstructions⟩

def leadByte (c : TransactionContent) : UInt8 :=
  match c.version with
  | .legacy => c.numRequiredSignatures
  | .v0 => messageVersionPrefix
  | .v1 => v1Prefix
  | .magicblock => magicblockPrefix

theorem message_head (c : TransactionContent) : c.message.head? = some c.leadByte := by
  cases hversion : c.version <;> simp [message, leadByte, hversion, legacyBody, header]

theorem version_eq (hc : c.WellFormed) (hd : d.WellFormed) (h : c.message = d.message) : c.version = d.version := by
  have hlead : c.leadByte = d.leadByte := by
    have := congrArg List.head? h
    rwa [message_head, message_head, Option.some.injEq] at this
  have hcl := hc.legacy
  have hdl := hd.legacy
  cases hcv : c.version <;> cases hdv : d.version <;> simp only [leadByte, hcv, hdv] at hlead hcl hdl ⊢
  all_goals first
    | (exfalso; revert hlead; decide)
    | (have hlt := hcl trivial; rw [hlead] at hlt; exact absurd hlt (by decide))
    | (have hlt := hdl trivial; rw [← hlead] at hlt; exact absurd hlt (by decide))

theorem message_inj (hc : c.WellFormed) (hd : d.WellFormed) (h : c.message = d.message) :
    c.version = d.version ∧ c.header = d.header ∧ c.staticAccountKeys = d.staticAccountKeys ∧
      c.recentBlockhash = d.recentBlockhash ∧ c.config = d.config ∧ c.instructions = d.instructions := by
  have hversion := version_eq hc hd h
  have hcc := hc.config
  have hdc := hd.config
  refine ⟨hversion, ?_⟩
  cases hv : c.version <;> rw [hv] at hversion <;> simp only [message, hv, ← hversion] at h hcc hdc
  case legacy =>
    rw [← List.append_nil c.legacyBody, ← List.append_nil d.legacyBody] at h
    obtain ⟨hheader, hkeys, hblockhash, hinstructions⟩ :=
      legacyBody_inj hc hd (by rw [hv]; rfl) (by rw [← hversion]; rfl) h
    exact ⟨hheader, hkeys, hblockhash, by rw [hcc, hdc], hinstructions⟩
  case v0 =>
    obtain ⟨hheader, hkeys, hblockhash, hinstructions⟩ :=
      legacyBody_inj hc hd (by rw [hv]; rfl) (by rw [← hversion]; rfl) (List.cons.inj h).2
    exact ⟨hheader, hkeys, hblockhash, by rw [hcc, hdc], hinstructions⟩
  all_goals
    obtain ⟨config, hcc, hbounded⟩ := hcc
    obtain ⟨config', hdc, hbounded'⟩ := hdc
    exact v1Body_inj hc hd (by rw [hv]; rfl) (by rw [← hversion]; rfl) hcc hdc hbounded hbounded' (List.cons.inj h).2

end TransactionContent

/-- Every accepted byte string is the layout of its own content, and the bytes that are signed determine everything but
the signatures. -/
theorem accepted_bytes_canonical {bytes : Bytes} {frame : TransactionFrame} (h : Accepted bytes frame) :
    (frame.content bytes).encode = bytes ∧
    ∀ (bytes' : Bytes) (frame' : TransactionFrame), Accepted bytes' frame' →
      frame.messageData bytes = frame'.messageData bytes' →
      (frame.content bytes).version = (frame'.content bytes').version ∧
      (frame.content bytes).header = (frame'.content bytes').header ∧
      (frame.content bytes).staticAccountKeys = (frame'.content bytes').staticAccountKeys ∧
      (frame.content bytes).recentBlockhash = (frame'.content bytes').recentBlockhash ∧
      (frame.content bytes).config = (frame'.content bytes').config ∧
      (frame.content bytes).instructions = (frame'.content bytes').instructions := by
  have hlaid := laid_of_framed h.framed
  refine ⟨hlaid.encode, fun bytes' frame' h' hmessage => ?_⟩
  have hlaid' := laid_of_framed h'.framed
  rw [hlaid.message, hlaid'.message] at hmessage
  exact TransactionContent.message_inj hlaid.wellFormed hlaid'.wellFormed hmessage

/-- A private transaction that names a heap size and has one instruction, with the given signature bytes. -/
def privateTransaction (signature : UInt8) : Bytes :=
  [0xff, 1, 0, 1] ++ littleEndian 4 16 ++ List.replicate 32 7 ++ [1, 2] ++
    (List.replicate 32 1 ++ List.replicate 32 2) ++ littleEndian 4 65536 ++
    [1, 1, 2, 0] ++ [0, 5, 6] ++ List.replicate 64 signature

def privateFrame : TransactionFrame where
  signature := { numSignatures := 1, offset := 117 }
  messageHeader :=
    { offset := 0, version := .magicblock, numRequiredSignatures := 1, numReadonlySignedAccounts := 0
      numReadonlyUnsignedAccounts := 1 }
  staticAccountKeys := { numStaticAccounts := 2, offset := 42 }
  recentBlockhashOffset := 8
  instructions := .v1 1 110 114
  addressTableLookup := {}
  transactionConfigFrame := { maskOffset := 4, mask := 16, valuesOffset := 106, numValues := 1 }
  dataLen := 181

/-- Two copies of a private transaction with different signatures say the same. -/
theorem accepted_bytes_canonical_private :
    (privateFrame.content (privateTransaction 3)).encode = privateTransaction 3 ∧
      (privateFrame.content (privateTransaction 3)).config = (privateFrame.content (privateTransaction 4)).config := by
  have haccepted : Accepted (privateTransaction 3) privateFrame := ⟨by decide +kernel, true, by decide +kernel⟩
  have haccepted' : Accepted (privateTransaction 4) privateFrame := ⟨by decide +kernel, true, by decide +kernel⟩
  obtain ⟨hencode, hsame⟩ := accepted_bytes_canonical haccepted
  exact ⟨hencode, (hsame _ _ haccepted' (by decide +kernel)).2.2.2.2.1⟩

end View

end MagicEngine
