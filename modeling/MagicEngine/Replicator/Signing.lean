import MagicEngine.Encoding
import MagicEngine.Ledger.Entry
import MagicEngine.View.Canonical

/-!
# What the engine signs

The byte strings under the engine's signatures: ledger records behind a domain (`Signed::message` in
`nucleus/src/ledger.rs`), the requests and responses of the replication handshake followed by a timestamp (`message` in
`replicator/src/protocol.rs`), and the messages of transactions. Records are encoded by wincode: little-endian integers
of fixed width, four bytes of tag for an enumeration and eight bytes of length for a sequence.

The first four bytes tell these messages apart, except for one pair: the version of a request and the tag of a `Stream`
response are both 1, so that a request is also the response that grants what it asks for (`message_eq_iff`).
-/

namespace MagicEngine

open Codec

namespace Signing

structure BlockstorePosition where
  superblock : Nat
  offset : Nat
deriving DecidableEq, Repr

structure HandshakeRequest where
  version : Nat
  position : BlockstorePosition
deriving DecidableEq, Repr

/-- A snapshot to stage, with the signed seal it restores. -/
structure SnapshotMetadata where
  len : Nat
  superblockSeal : SuperblockSeal Nat
  signature : Signature
deriving DecidableEq, Repr

inductive HandshakeResponse where
  | snapshot (metadata : SnapshotMetadata)
  | stream (position : BlockstorePosition)
  | err (message : String)
  | streamActive
deriving DecidableEq, Repr

inductive SignedMessage where
  | block (block : Block Hash)
  | superblockSeal (superblockSeal : SuperblockSeal Nat)
  | reset (reset : Reset)
  | checkpoint (checksum : Nat)
  | request (request : HandshakeRequest) (timestamp : Nat)
  | response (response : HandshakeResponse) (timestamp : Nat)
deriving DecidableEq, Repr

def protoVersion : Nat := 1

/-! ### Encodings -/

def encodeBlock (b : Block Hash) : Bytes :=
  encodeU64 b.slot ++ (b.hash.toBytes ++ (encodeI64 b.time ++ b.parent.toBytes))

def encodeSeal (s : SuperblockSeal Nat) : Bytes := encodeU64 s.id ++ (encodeU64 s.checksum ++ encodeU64 s.transactions)

def encodeReset (r : Reset) : Bytes :=
  encodeU64 r.slot ++ (encodeU64 r.rent ++ (encodeU64 r.features.length ++ r.features.flatMap Pubkey.toBytes))

def encodePosition (p : BlockstorePosition) : Bytes := encodeU64 p.superblock ++ encodeU64 p.offset

def encodeRequest (r : HandshakeRequest) : Bytes := encodeU32 r.version ++ encodePosition r.position

def encodeMetadata (m : SnapshotMetadata) : Bytes :=
  encodeU64 m.len ++ (encodeSeal m.superblockSeal ++ m.signature.toBytes)

def utf8Bytes (s : String) : Bytes := s.toByteArray.data.toList

def encodeString (s : String) : Bytes := encodeU64 (utf8Bytes s).length ++ utf8Bytes s

def HandshakeResponse.tag : HandshakeResponse → Nat
  | .snapshot _ => 0
  | .stream _ => 1
  | .err _ => 2
  | .streamActive => 3

def HandshakeResponse.body : HandshakeResponse → Bytes
  | .snapshot metadata => encodeMetadata metadata
  | .stream position => encodePosition position
  | .err message => encodeString message
  | .streamActive => []

def encodeResponse (r : HandshakeResponse) : Bytes := encodeU32 r.tag ++ r.body

/-- `MB:block`. -/
def blockDomain : Bytes := [0x4d, 0x42, 0x3a, 0x62, 0x6c, 0x6f, 0x63, 0x6b]

/-- `MB:seal` and a zero. -/
def sealDomain : Bytes := [0x4d, 0x42, 0x3a, 0x73, 0x65, 0x61, 0x6c, 0x00]

/-- `MB:reset`. -/
def resetDomain : Bytes := [0x4d, 0x42, 0x3a, 0x72, 0x65, 0x73, 0x65, 0x74]

/-- `MB:check`. -/
def checkpointDomain : Bytes := [0x4d, 0x42, 0x3a, 0x63, 0x68, 0x65, 0x63, 0x6b]

namespace SignedMessage

def message : SignedMessage → Bytes
  | block b => blockDomain ++ encodeBlock b
  | superblockSeal s => sealDomain ++ encodeSeal s
  | reset r => resetDomain ++ encodeReset r
  | checkpoint checksum => checkpointDomain ++ encodeU64 checksum
  | request r timestamp => encodeRequest r ++ encodeU64 timestamp
  | response r timestamp => encodeResponse r ++ encodeU64 timestamp

end SignedMessage

/-! ### What the protocol can produce -/

def BlockstorePosition.Fits (p : BlockstorePosition) : Prop := p.superblock < 2 ^ 64 ∧ p.offset < 2 ^ 64

def SealFits (s : SuperblockSeal Nat) : Prop := s.id < 2 ^ 64 ∧ s.checksum < 2 ^ 64 ∧ s.transactions < 2 ^ 64

def HandshakeResponse.Fits : HandshakeResponse → Prop
  | .snapshot metadata => metadata.len < 2 ^ 64 ∧ SealFits metadata.superblockSeal
  | .stream position => position.Fits
  | .err message => (utf8Bytes message).length < 2 ^ 64
  | .streamActive => True

/-- Fields fit their machine integers, and a request names the protocol version. -/
def SignedMessage.Producible : SignedMessage → Prop
  | block b => b.slot < 2 ^ 64 ∧ -2 ^ 63 ≤ b.time ∧ b.time < 2 ^ 63
  | superblockSeal s => SealFits s
  | reset r => r.slot < 2 ^ 64 ∧ r.rent < 2 ^ 64 ∧ r.features.length < 2 ^ 64
  | checkpoint checksum => checksum < 2 ^ 64
  | request r timestamp => r.version = protoVersion ∧ r.position.Fits ∧ timestamp < 2 ^ 64
  | response r timestamp => r.Fits ∧ timestamp < 2 ^ 64

/-! ### Encodings are prefix codes -/

theorem utf8Bytes_injective : Function.Injective utf8Bytes := by
  intro s s' h
  exact String.toByteArray_inj.mp (ByteArray.ext (Array.toList_inj.mp h))

theorem block_code :
    PrefixCode (fun b : Block Hash => b.slot < 2 ^ 64 ∧ -2 ^ 63 ≤ b.time ∧ b.time < 2 ^ 63) encodeBlock := by
  intro b b' x y hb hb' h
  simp only [encodeBlock, List.append_assoc] at h
  obtain ⟨hslot, h⟩ := u64_code hb.1 hb'.1 h
  obtain ⟨hhash, h⟩ := hash_code trivial trivial h
  obtain ⟨htime, h⟩ := i64_code hb.2 hb'.2 h
  obtain ⟨hparent, h⟩ := hash_code trivial trivial h
  exact ⟨by cases b; cases b'; simp_all, h⟩

theorem seal_code : PrefixCode SealFits encodeSeal := by
  intro s s' x y hs hs' h
  simp only [encodeSeal, List.append_assoc] at h
  obtain ⟨hid, h⟩ := u64_code hs.1 hs'.1 h
  obtain ⟨hchecksum, h⟩ := u64_code hs.2.1 hs'.2.1 h
  obtain ⟨htransactions, h⟩ := u64_code hs.2.2 hs'.2.2 h
  exact ⟨by cases s; cases s'; simp_all, h⟩

theorem reset_code :
    PrefixCode (fun r : Reset => r.slot < 2 ^ 64 ∧ r.rent < 2 ^ 64 ∧ r.features.length < 2 ^ 64) encodeReset := by
  intro r r' x y hr hr' h
  simp only [encodeReset, List.append_assoc] at h
  obtain ⟨hslot, h⟩ := u64_code hr.1 hr'.1 h
  obtain ⟨hrent, h⟩ := u64_code hr.2.1 hr'.2.1 h
  obtain ⟨hlength, h⟩ := u64_code hr.2.2 hr'.2.2 h
  obtain ⟨hfeatures, h⟩ := pubkey_code.list r.features.length ⟨rfl, fun _ _ => trivial⟩
    ⟨hlength.symm, fun _ _ => trivial⟩ h
  exact ⟨by cases r; cases r'; simp_all, h⟩

theorem position_code : PrefixCode BlockstorePosition.Fits encodePosition := by
  intro p p' x y hp hp' h
  simp only [encodePosition, List.append_assoc] at h
  obtain ⟨hsuperblock, h⟩ := u64_code hp.1 hp'.1 h
  obtain ⟨hoffset, h⟩ := u64_code hp.2 hp'.2 h
  exact ⟨by cases p; cases p'; simp_all, h⟩

theorem metadata_code :
    PrefixCode (fun m : SnapshotMetadata => m.len < 2 ^ 64 ∧ SealFits m.superblockSeal) encodeMetadata := by
  intro m m' x y hm hm' h
  simp only [encodeMetadata, List.append_assoc] at h
  obtain ⟨hlen, h⟩ := u64_code hm.1 hm'.1 h
  obtain ⟨hseal, h⟩ := seal_code hm.2 hm'.2 h
  obtain ⟨hsignature, h⟩ := signature_code trivial trivial h
  exact ⟨by cases m; cases m'; simp_all, h⟩

theorem string_code : PrefixCode (fun s : String => (utf8Bytes s).length < 2 ^ 64) encodeString := by
  intro s s' x y hs hs' h
  simp only [encodeString, List.append_assoc] at h
  obtain ⟨hlength, h⟩ := u64_code hs hs' h
  obtain ⟨hbytes, h⟩ := List.append_inj h hlength
  exact ⟨utf8Bytes_injective hbytes, h⟩

theorem request_code :
    PrefixCode (fun r : HandshakeRequest => r.version = protoVersion ∧ r.position.Fits) encodeRequest := by
  intro r r' x y hr hr' h
  simp only [encodeRequest, hr.1, hr'.1, List.append_assoc, List.append_cancel_left_eq] at h
  obtain ⟨hposition, h⟩ := position_code hr.2 hr'.2 h
  have hversion := hr.1.trans hr'.1.symm
  exact ⟨by cases r; cases r'; simp_all, h⟩

theorem HandshakeResponse.tag_lt (r : HandshakeResponse) : r.tag < 4 := by
  cases r <;> simp [tag]

theorem response_code : PrefixCode HandshakeResponse.Fits encodeResponse := by
  intro r r' x y hr hr' h
  simp only [encodeResponse, List.append_assoc] at h
  have hlt := r.tag_lt
  have hlt' := r'.tag_lt
  obtain ⟨htag, h⟩ := PrefixCode.littleEndian 4 (show r.tag < 256 ^ 4 by omega) (show r'.tag < 256 ^ 4 by omega) h
  cases r <;> cases r' <;> try cases htag
  case snapshot.snapshot metadata metadata' =>
    obtain ⟨rfl, hxy⟩ := metadata_code hr hr' h
    exact ⟨rfl, hxy⟩
  case stream.stream position position' =>
    obtain ⟨rfl, hxy⟩ := position_code hr hr' h
    exact ⟨rfl, hxy⟩
  case err.err message message' =>
    obtain ⟨rfl, hxy⟩ := string_code hr hr' h
    exact ⟨rfl, hxy⟩
  case streamActive.streamActive => exact ⟨rfl, h⟩

/-! ### The first four bytes -/

namespace SignedMessage

/-- What the first four bytes say: one of four domains, or the little-endian number a handshake starts with. -/
inductive Lead where
  | domain (letter : UInt8)
  | number (n : Nat)
deriving DecidableEq, Repr

def Lead.bytes : Lead → Bytes
  | domain letter => [0x4d, 0x42, 0x3a, letter]
  | number n => encodeU32 n

def lead : SignedMessage → Lead
  | block _ => .domain 0x62
  | superblockSeal _ => .domain 0x73
  | reset _ => .domain 0x72
  | checkpoint _ => .domain 0x63
  | request r _ => .number r.version
  | response r _ => .number r.tag

theorem lead_start (m : SignedMessage) : m.message.take 4 = m.lead.bytes := by
  cases m
  case request r t => simp [message, lead, Lead.bytes, encodeRequest, encodeU32]
  case response r t => simp [message, lead, Lead.bytes, encodeResponse, encodeU32]
  all_goals simp [message, lead, Lead.bytes, blockDomain, sealDomain, resetDomain, checkpointDomain]

variable {m : SignedMessage}

theorem lead_number (hm : m.Producible) (n : Nat) (h : m.lead = .number n) : n < 4 := by
  cases m <;> simp only [lead, Lead.number.injEq, reduceCtorEq] at h
  case request r t => rw [← h, hm.1]; decide
  case response r t => exact h ▸ r.tag_lt

theorem lead_eq {m' : SignedMessage} (hm : m.Producible) (hm' : m'.Producible) (h : m.message = m'.message) :
    m.lead = m'.lead := by
  have hbytes : m.lead.bytes = m'.lead.bytes := by rw [← lead_start, ← lead_start, h]
  have hn := lead_number hm
  have hn' := lead_number hm'
  generalize m.lead = l at hbytes hn
  generalize m'.lead = l' at hbytes hn'
  have hdomain (letter : UInt8) {n : Nat} (hlt : n < 4) : (Lead.domain letter).bytes ≠ (Lead.number n).bytes := by
    intro heq
    have hhead : (0x4d : UInt8) = UInt8.ofNat (n % 256) := (List.cons.inj heq).1
    have hnat : 77 = n % 256 % 256 := congrArg UInt8.toNat hhead
    omega
  cases l with
  | domain letter =>
    cases l' with
    | domain letter' => simpa [Lead.bytes] using hbytes
    | number n' => exact absurd hbytes (hdomain letter (hn' n' rfl))
  | number n =>
    cases l' with
    | domain letter' => exact absurd hbytes.symm (hdomain letter' (hn n rfl))
    | number n' =>
      have hlt := hn n rfl
      have hlt' := hn' n' rfl
      exact congrArg Lead.number (littleEndian_inj (show n < 256 ^ 4 by omega) (show n' < 256 ^ 4 by omega) hbytes)

/-! ### Which messages are equal -/

/-- A request, and the response that grants the position it asks for at the same time. -/
inductive Reflected : SignedMessage → SignedMessage → Prop
  | mk (position : BlockstorePosition) (timestamp : Nat) :
    Reflected (request { version := protoVersion, position } timestamp) (response (.stream position) timestamp)

theorem Reflected.message_eq {m' : SignedMessage} (h : Reflected m m') : m.message = m'.message := by
  cases h
  rfl

theorem request_response_eq {r : HandshakeRequest} {r' : HandshakeResponse} {t t' : Nat}
    (hm : (request r t).Producible) (hm' : (response r' t').Producible)
    (h : (request r t).message = (response r' t').message) : Reflected (request r t) (response r' t') := by
  have htag : r.version = r'.tag := Lead.number.inj (lead_eq hm hm' h)
  obtain ⟨hversion, hposition, ht⟩ := hm
  rw [hversion] at htag
  cases r' <;> try cases htag
  case stream position =>
    simp only [message, encodeRequest, encodeResponse, hversion, protoVersion, HandshakeResponse.tag,
      HandshakeResponse.body, List.append_assoc] at h
    obtain ⟨rfl, htime⟩ := position_code hposition hm'.1 (List.append_cancel_left h)
    obtain rfl := u64_code.inj ht hm'.2 htime
    cases r
    subst hversion
    exact .mk _ _

/-- The only two different messages with the same bytes are a request and its reflection. -/
theorem message_eq_iff {m' : SignedMessage} (hm : m.Producible) (hm' : m'.Producible) :
    m.message = m'.message ↔ m = m' ∨ Reflected m m' ∨ Reflected m' m := by
  constructor
  · intro h
    have hlead := lead_eq hm hm' h
    cases m <;> cases m' <;> first | (exfalso; revert hlead; simp [lead]; done) | skip
    case block.block b b' =>
      exact .inl (congrArg block (block_code.inj hm hm' (List.append_cancel_left h)))
    case superblockSeal.superblockSeal s s' =>
      exact .inl (congrArg superblockSeal (seal_code.inj hm hm' (List.append_cancel_left h)))
    case reset.reset r r' =>
      exact .inl (congrArg reset (reset_code.inj hm hm' (List.append_cancel_left h)))
    case checkpoint.checkpoint c c' =>
      exact .inl (congrArg checkpoint (u64_code.inj hm hm' (List.append_cancel_left h)))
    case request.request r t r' t' =>
      obtain ⟨rfl, htime⟩ := request_code ⟨hm.1, hm.2.1⟩ ⟨hm'.1, hm'.2.1⟩ h
      exact .inl (congrArg (request r) (u64_code.inj hm.2.2 hm'.2.2 htime))
    case response.response r t r' t' =>
      obtain ⟨rfl, htime⟩ := response_code hm.1 hm'.1 h
      exact .inl (congrArg (response r) (u64_code.inj hm.2 hm'.2 htime))
    case request.response r t r' t' => exact .inr (.inl (request_response_eq hm hm' h))
    case response.request r t r' t' => exact .inr (.inr (request_response_eq hm' hm h.symm))
  · rintro (rfl | h | h)
    · rfl
    · exact h.message_eq
    · exact h.message_eq.symm

/-! ### Transactions -/

theorem accepted_header {bytes : Bytes} {frame : View.TransactionFrame} (h : View.Accepted bytes frame) :
    frame.messageHeader.numRequiredSignatures ≤ 12 ∧ frame.staticAccountKeys.numStaticAccounts ≠ 0 := by
  obtain ⟨enable, hsanitized⟩ := h.sanitized
  obtain ⟨u, -, hsanitized⟩ := bind_eq_ok.mp hsanitized
  obtain ⟨u, hheader, hsanitized⟩ := bind_eq_ok.mp hsanitized
  obtain ⟨u, -, hsanitized⟩ := bind_eq_ok.mp hsanitized
  obtain ⟨u, hsignatures, hsanitized⟩ := bind_eq_ok.mp hsanitized
  obtain ⟨u, hrequired, hheader⟩ := bind_eq_ok.mp hheader
  obtain ⟨u, hcount, hsignatures⟩ := bind_eq_ok.mp hsignatures
  obtain ⟨u, hmax, hstatic⟩ := bind_eq_ok.mp hsignatures
  rw [require_eq_ok] at hrequired hcount hmax hstatic
  rw [hcount] at hmax hstatic
  refine ⟨hmax, fun hzero => ?_⟩
  rw [hzero] at hstatic
  exact absurd (UInt8.le_trans hrequired hstatic) (by decide)

/-- The fourth byte of a legacy message counts its accounts. -/
theorem message_ne_legacy (hm : m.Producible)
    {required readonlySigned readonlyUnsigned count : UInt8} {rest : Bytes} (hrequired : required ≤ 12) (hcount : count ≠ 0) :
    m.message ≠ required :: readonlySigned :: readonlyUnsigned :: count :: rest := by
  intro h
  have hlead := m.lead_start
  rw [h] at hlead
  have hlt := lead_number hm
  cases hm : m.lead with
  | domain letter =>
    rw [hm] at hlead
    obtain rfl : required = 0x4d := (List.cons.inj hlead).1
    exact absurd hrequired (by decide)
  | number n =>
    rw [hm] at hlead
    have hn := hlt n hm
    have hbyte : count = UInt8.ofNat (n / 256 / 256 / 256 % 256) :=
      Option.some.inj (congrArg (fun bytes : Bytes => bytes[3]?) hlead)
    rw [show n / 256 / 256 / 256 % 256 = 0 by omega] at hbyte
    exact hcount hbyte

/-- Other messages start with a version byte, which has the high bit. -/
theorem message_ne_versioned (hm : m.Producible) {version : UInt8} {rest : Bytes}
    (hversion : 0x80 ≤ version) : m.message ≠ version :: rest := by
  intro h
  have hlead := m.lead_start
  rw [h] at hlead
  have hlt := lead_number hm
  cases hm : m.lead with
  | domain letter =>
    rw [hm] at hlead
    obtain rfl : version = 0x4d := (List.cons.inj hlead).1
    exact absurd hversion (by decide)
  | number n =>
    rw [hm] at hlead
    have hn := hlt n hm
    obtain rfl : version = UInt8.ofNat (n % 256) := (List.cons.inj hlead).1
    rw [UInt8.le_iff_toNat_le, UInt8.toNat_ofNat'] at hversion
    have : (0x80 : UInt8).toNat = 128 := rfl
    omega

theorem message_ne_transaction (hm : m.Producible) {bytes : Bytes} {frame : View.TransactionFrame}
    (h : View.Accepted bytes frame) : m.message ≠ frame.messageData bytes := by
  obtain ⟨hrequired, hstatic⟩ := accepted_header h
  rw [(View.laid_of_framed h.framed).message]
  unfold View.TransactionContent.message
  split
  · have hcount :
        UInt8.ofNat (frame.content bytes).staticAccountKeys.length = frame.staticAccountKeys.numStaticAccounts := by
      simp [View.TransactionFrame.content, View.TransactionFrame.keys]
    rw [View.TransactionContent.legacyBody, hcount]
    exact message_ne_legacy hm hrequired hstatic
  all_goals exact message_ne_versioned hm (by decide)

/-- Two different records are signed as the same bytes exactly if one is a request and the other grants it, and no
record is signed as an accepted transaction is. -/
theorem signing_domains_separated {m m' : SignedMessage} (hm : m.Producible) (hm' : m'.Producible) :
    ((m.message = m'.message → m = m') ↔ ¬Reflected m m' ∧ ¬Reflected m' m) ∧
    ∀ (bytes : Bytes) (frame : View.TransactionFrame), View.Accepted bytes frame →
      m.message ≠ frame.messageData bytes := by
  refine ⟨?_, fun bytes frame h => message_ne_transaction hm h⟩
  rw [message_eq_iff hm hm']
  constructor
  · intro h
    refine ⟨fun hreflected => ?_, fun hreflected => ?_⟩
    · obtain rfl := h (.inr (.inl hreflected))
      cases hreflected
    · obtain rfl := h (.inr (.inr hreflected))
      cases hreflected
  · rintro ⟨hne, hne'⟩ (rfl | hreflected | hreflected)
    · rfl
    · exact absurd hreflected hne
    · exact absurd hreflected hne'

def exampleRequest : SignedMessage := request { version := 1, position := { superblock := 7, offset := 40 } } 1000

/-- A request is not a refusal of it, and not a private transaction. -/
theorem signing_domains_separated_refusal :
    exampleRequest.message ≠ (response .streamActive 1000).message ∧
      exampleRequest.message ≠ View.privateFrame.messageData (View.privateTransaction 3) := by
  have hrequest : exampleRequest.Producible := ⟨rfl, ⟨by decide, by decide⟩, by decide⟩
  have hrefusal : (response .streamActive 1000).Producible := ⟨trivial, by decide⟩
  obtain ⟨hseparated, htransaction⟩ := signing_domains_separated hrequest hrefusal
  refine ⟨fun h => ?_, htransaction _ _ ⟨by decide +kernel, true, by decide +kernel⟩⟩
  have heq := hseparated.mpr ⟨nofun, nofun⟩ h
  cases heq

/-- The server's signature under `Stream` verifies under the client's request, and the other way round. -/
theorem request_signed_as_stream :
    exampleRequest.Producible ∧ (response (.stream { superblock := 7, offset := 40 }) 1000).Producible ∧
      exampleRequest.message = (response (.stream { superblock := 7, offset := 40 }) 1000).message :=
  ⟨⟨rfl, ⟨by decide, by decide⟩, by decide⟩, ⟨⟨by decide, by decide⟩, by decide⟩, by decide⟩

end SignedMessage

end Signing

end MagicEngine
