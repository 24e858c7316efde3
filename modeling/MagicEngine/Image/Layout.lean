import MagicEngine.Encoding
import MagicEngine.Lib.Storage
import MagicEngine.Store.Span

/-!
# Account images, byte by byte

The bytes of a persisted account (`solana/account/src/cow/borrowed.rs` and `owned.rs`): a header with the sequence and
the size of an image, the pubkey, and two images. An image is an `AccountCore`, a `DataHeader` with length and capacity
of the data, and the data with spare room behind it. All lengths in storage are 32 bits wide.

Reads and writes outside the storage, copies between overlapping regions and mode bytes that encode no mode fail here.
`Parts` is a storage whose header and images have the sizes they should have; what its operations do to the bytes is
what they do to the parts.
-/

namespace MagicEngine

open Codec

/-! ### The bytes of a core -/

def AccountKind.code : AccountKind → Nat
  | .missing => 0
  | .regular => 1
  | .closed => 3

def DataFlow.code : DataFlow → Nat
  | .noSync => 0
  | .baseToEr => 1
  | .erToBase => 2

namespace AccountMode

/-- `encode`: the kind in bits 0 to 7, the access in 8 and 9, the flow in 10 and 11. -/
def discriminant (mode : AccountMode) : Nat :=
  mode.kind.code + 2 ^ 8 * mode.isWritable.toNat + 2 ^ 10 * mode.dataFlow.code

def all : List AccountMode := [.missing, .mirrored, .delegated, .undelegating, .magic, .runtime, .closed]

def ofDiscriminant (n : Nat) : Option AccountMode := all.find? fun mode => mode.discriminant == n

theorem ofDiscriminant_discriminant (mode : AccountMode) : ofDiscriminant mode.discriminant = some mode := by
  cases mode <;> rfl

theorem discriminant_lt (mode : AccountMode) : mode.discriminant < 256 ^ 2 := by
  cases mode <;> decide

end AccountMode

namespace AccountCore

def size : Nat := 56

/-- The bytes of the fields in the order of the source, and the reserved byte. -/
def segments (core : AccountCore) : List Bytes :=
  [encodeU64 core.lamports.toNat, core.owner.toBytes, encodeU64 core.slot, encodeU32 core.commitSeq.toNat,
    littleEndian 2 core.mode.discriminant, littleEndian 1 core.flags.bits.toNat, [0]]

def toBytes (core : AccountCore) : Bytes := core.segments.flatten

def ofBytes (bytes : Bytes) : Option AccountCore := do
  let mode ← AccountMode.ofDiscriminant (ofLittleEndian (slice bytes 52 2))
  return {
    lamports := UInt64.ofNat (ofLittleEndian (slice bytes 0 8))
    owner := Pubkey.ofBytes (slice bytes 8 32)
    slot := ofLittleEndian (slice bytes 40 8)
    commitSeq := UInt32.ofNat (ofLittleEndian (slice bytes 48 4))
    mode
    flags := ⟨BitVec.ofNat 8 (ofLittleEndian (slice bytes 54 1))⟩ }

@[simp]
theorem length_toBytes (core : AccountCore) : core.toBytes.length = size := by
  simp [toBytes, segments, encodeU64, encodeU32, Pubkey.toBytes, size]

end AccountCore

/-- A field of `AccountCore`, by its position and the offset of its bytes. -/
structure CoreField (α : Type) where
  index : Nat
  offset : Nat
  width : Nat
  encode : α → Bytes
  get : AccountCore → α
  set : α → AccountCore → AccountCore
  index_lt : ∀ core : AccountCore, index < core.segments.length
  length_before : ∀ core : AccountCore, (core.segments.take index).flatten.length = offset
  length_encode : ∀ value, (encode value).length = width
  segments_set : ∀ value core, (set value core).segments = core.segments.set index (encode value)
  set_get : ∀ core, set (get core) core = core

namespace CoreField

def lamports : CoreField UInt64 where
  index := 0
  offset := 0
  width := 8
  encode value := encodeU64 value.toNat
  get core := core.lamports
  set value core := { core with lamports := value }
  index_lt _ := by simp [AccountCore.segments]
  length_before _ := rfl
  length_encode _ := rfl
  segments_set _ _ := rfl
  set_get _ := rfl

def owner : CoreField Pubkey where
  index := 1
  offset := 8
  width := 32
  encode value := value.toBytes
  get core := core.owner
  set value core := { core with owner := value }
  index_lt _ := by simp [AccountCore.segments]
  length_before _ := rfl
  length_encode _ := length_bigEndian 32 _
  segments_set _ _ := rfl
  set_get _ := rfl

def slot : CoreField Nat where
  index := 2
  offset := 40
  width := 8
  encode value := encodeU64 value
  get core := core.slot
  set value core := { core with slot := value }
  index_lt _ := by simp [AccountCore.segments]
  length_before _ := by simp [AccountCore.segments, encodeU64, Pubkey.toBytes]
  length_encode _ := rfl
  segments_set _ _ := rfl
  set_get _ := rfl

def commitSeq : CoreField UInt32 where
  index := 3
  offset := 48
  width := 4
  encode value := encodeU32 value.toNat
  get core := core.commitSeq
  set value core := { core with commitSeq := value }
  index_lt _ := by simp [AccountCore.segments]
  length_before _ := by simp [AccountCore.segments, encodeU64, Pubkey.toBytes]
  length_encode _ := rfl
  segments_set _ _ := rfl
  set_get _ := rfl

def mode : CoreField AccountMode where
  index := 4
  offset := 52
  width := 2
  encode value := littleEndian 2 value.discriminant
  get core := core.mode
  set value core := { core with mode := value }
  index_lt _ := by simp [AccountCore.segments]
  length_before _ := by simp [AccountCore.segments, encodeU64, encodeU32, Pubkey.toBytes]
  length_encode _ := rfl
  segments_set _ _ := rfl
  set_get _ := rfl

def flags : CoreField StateFlags where
  index := 5
  offset := 54
  width := 1
  encode value := littleEndian 1 value.bits.toNat
  get core := core.flags
  set value core := { core with flags := value }
  index_lt _ := by simp [AccountCore.segments]
  length_before _ := by simp [AccountCore.segments, encodeU64, encodeU32, Pubkey.toBytes]
  length_encode _ := rfl
  segments_set _ _ := rfl
  set_get _ := rfl

variable {α : Type} (f : CoreField α)

theorem toBytes_set (value : α) (core : AccountCore) : (f.set value core).toBytes =
    (core.segments.take f.index).flatten ++ f.encode value ++ (core.segments.drop (f.index + 1)).flatten := by
  rw [AccountCore.toBytes, f.segments_set, List.set_eq_take_append_cons_drop, if_pos (f.index_lt core),
    List.flatten_append, List.flatten_cons, List.append_assoc]

theorem toBytes_eq (core : AccountCore) : core.toBytes =
    (core.segments.take f.index).flatten ++ f.encode (f.get core) ++ (core.segments.drop (f.index + 1)).flatten := by
  rw [← f.toBytes_set, f.set_get]

theorem slice_toBytes (core : AccountCore) : slice core.toBytes f.offset f.width = f.encode (f.get core) := by
  rw [f.toBytes_eq, ← f.length_before core, ← f.length_encode (f.get core), slice, List.append_assoc, List.drop_left,
    List.take_left]

end CoreField

theorem AccountCore.ofBytes_toBytes {core : AccountCore} (hslot : core.slot < 2 ^ 64) :
    AccountCore.ofBytes core.toBytes = some core := by
  have hlamports : slice core.toBytes 0 8 = _ := CoreField.lamports.slice_toBytes core
  have howner : slice core.toBytes 8 32 = core.owner.toBytes := CoreField.owner.slice_toBytes core
  have hslotBytes : slice core.toBytes 40 8 = _ := CoreField.slot.slice_toBytes core
  have hcommitSeq : slice core.toBytes 48 4 = _ := CoreField.commitSeq.slice_toBytes core
  have hmode : slice core.toBytes 52 2 = _ := CoreField.mode.slice_toBytes core
  have hflags : slice core.toBytes 54 1 = _ := CoreField.flags.slice_toBytes core
  unfold ofBytes
  rw [hlamports, howner, hslotBytes, hcommitSeq, hmode, hflags]
  simp only [CoreField.lamports, CoreField.slot, CoreField.commitSeq, CoreField.mode, CoreField.flags, encodeU64,
    encodeU32, ofLittleEndian_littleEndian, Nat.mod_eq_of_lt core.mode.discriminant_lt,
    AccountMode.ofDiscriminant_discriminant, Pubkey.ofBytes_toBytes]
  have hl : core.lamports.toNat < 256 ^ 8 := core.lamports.toNat_lt
  have hs : core.slot < 256 ^ 8 := hslot
  have hc : core.commitSeq.toNat < 256 ^ 4 := core.commitSeq.toNat_lt
  have hf : core.flags.bits.toNat < 256 ^ 1 := core.flags.bits.isLt
  rw [Nat.mod_eq_of_lt hl, Nat.mod_eq_of_lt hs, Nat.mod_eq_of_lt hc, Nat.mod_eq_of_lt hf]
  simp

/-! ### Storage -/

namespace Raw

/-- Storage units, as bytes. -/
abbrev Buffer := Bytes

namespace Buffer

def readU32 (buf : Buffer) (address : Nat) : Option Nat := (Storage.read buf address 4).map ofLittleEndian

def sequence (buf : Buffer) : Option UInt32 := (buf.readU32 0).map UInt32.ofNat

def space (buf : Buffer) : Option Nat := buf.readU32 4

def storeSequence (buf : Buffer) (sequence : UInt32) : Option Buffer := Storage.write buf 0 (encodeU32 sequence.toNat)

def span (buf : Buffer) : Option Nat := buf.space.map fun space => (space * 2 + imageOffset) % 2 ^ 32

def pubkey (buf : Buffer) : Option Pubkey := (Storage.read buf storageUnit 32).map Pubkey.ofBytes

def copyNonoverlapping (buf : Buffer) (src dst count : Nat) : Option Buffer :=
  if src + count ≤ dst ∨ dst + count ≤ src then (Storage.read buf src count).bind (Storage.write buf dst) else none

end Buffer

/-- `offset`: where the active or the shadow image starts, in units. -/
def offset (space : Nat) (sequence : UInt32) (active : Bool) : Nat :=
  let even := sequence % 2 == 0
  (active ^^ even).toNat * space + imageOffset

/-- A view: the address of its core and the sequence that selected the image. The data header is behind the core. -/
structure BorrowedAccount where
  core : Nat
  version : UInt32
deriving DecidableEq, Repr

namespace BorrowedAccount

def init (buf : Buffer) : Option BorrowedAccount := do
  let version ← buf.sequence
  let space ← buf.space
  return { core := storageUnit * offset space version true, version }

def shadow (b : BorrowedAccount) (space : Nat) : Nat := storageUnit * offset space b.version false

def translate (b : BorrowedAccount) (buf : Buffer) : Option (Buffer × BorrowedAccount) := do
  let space ← buf.space
  if b.core = b.shadow space then return (buf, b)
  let buf ← buf.copyNonoverlapping b.core (b.shadow space) (space * storageUnit)
  return (buf, { b with core := b.shadow space })

/-- `commit`: publishes the shadow if the view points to it and its sequence is still the current one. -/
def commit (b : BorrowedAccount) (buf : Buffer) : Option Buffer := do
  let space ← buf.space
  if b.core ≠ b.shadow space then return buf
  if (← buf.sequence) = b.version then buf.storeSequence (b.version + 1) else return buf

def reset (_ : BorrowedAccount) (buf : Buffer) : Option BorrowedAccount := init buf

def rollback (_ : BorrowedAccount) (buf : Buffer) : Option Buffer := do
  buf.storeSequence ((← buf.sequence) - 1)

/-! #### The core and the data of a view -/

def readCore (b : BorrowedAccount) (buf : Buffer) : Option AccountCore :=
  (Storage.read buf b.core AccountCore.size).bind AccountCore.ofBytes

def writeField {α : Type} (b : BorrowedAccount) (field : CoreField α) (value : α) (buf : Buffer) : Option Buffer :=
  Storage.write buf (b.core + field.offset) (field.encode value)

def headerLen (b : BorrowedAccount) (buf : Buffer) : Option Nat := buf.readU32 (b.core + AccountCore.size)

def capacity (b : BorrowedAccount) (buf : Buffer) : Option Nat := buf.readU32 (b.core + AccountCore.size + 4)

def len (b : BorrowedAccount) (buf : Buffer) : Option Nat := do
  return min (← b.headerLen buf) (← b.capacity buf)

def data (b : BorrowedAccount) (buf : Buffer) : Option Bytes := do
  Storage.read buf (b.core + staticSize) (← b.len buf)

def storeLen (b : BorrowedAccount) (len : Nat) (buf : Buffer) : Option Buffer :=
  Storage.write buf (b.core + AccountCore.size) (encodeU32 len)

/-- Writes into the data from `position` on. -/
def storeData (b : BorrowedAccount) (position : Nat) (bytes : Bytes) (buf : Buffer) : Option Buffer :=
  Storage.write buf (b.core + staticSize + position) bytes

def resize (b : BorrowedAccount) (len : Nat) (val : UInt8) (buf : Buffer) : Option Buffer := do
  let prev ← b.len buf
  let buf ← if prev < len then b.storeData prev (List.replicate (len - prev) val) buf else some buf
  b.storeLen len buf

def extend (b : BorrowedAccount) (bytes : Bytes) (buf : Buffer) : Option Buffer := do
  let buf ← b.storeData (← b.len buf) bytes buf
  b.storeLen ((← b.headerLen buf) + bytes.length) buf

def set (b : BorrowedAccount) (bytes : Bytes) (buf : Buffer) : Option Buffer := do
  let buf ← b.storeData 0 bytes buf
  b.storeLen bytes.length buf

def toOwned (b : BorrowedAccount) (buf : Buffer) : Option OwnedAccount := do
  return { core := ← b.readCore buf, data := ← b.data buf }

def storage (b : BorrowedAccount) (buf : Buffer) : Option Bytes := do
  Storage.read buf b.core (staticSize + (← b.len buf))

end BorrowedAccount

/-! ### Serialized accounts -/

def dataHeader (len allocation : Nat) : Bytes :=
  encodeU32 len ++ encodeU32 (allocation * storageUnit - staticSize)

def allocationOf (a : OwnedAccount) : Nat := allocation a.data.length % 2 ^ 32

def unitsOf (a : OwnedAccount) : Nat := (allocationOf a * 2 + imageOffset) % 2 ^ 32

/-- `OwnedAccount::serialize`: one write behind the other. -/
def serialize (a : OwnedAccount) (buf : Buffer) (pubkey : Pubkey) : Option Buffer :=
  Storage.writeAll buf 0
    [encodeU32 0 ++ encodeU32 (allocationOf a), pubkey.toBytes, a.core.toBytes,
      dataHeader a.data.length (allocationOf a), a.data]

/-! ### Parts of a storage -/

/-- A header and two images of the size it names, which leaves room for core and data header. -/
structure Parts where
  sequence : UInt32
  space : Nat
  pubkey : Pubkey
  image : Bool → Bytes
  length_image : ∀ side, (image side).length = space * storageUnit
  minimum : staticSize ≤ space * storageUnit
  maximum : space * storageUnit - staticSize < 2 ^ 32

namespace Parts

variable (p : Parts)

def header : Bytes := encodeU32 p.sequence.toNat ++ encodeU32 p.space ++ p.pubkey.toBytes

def bytes : Buffer := p.header ++ p.image false ++ p.image true

def capacity : Nat := p.space * storageUnit - staticSize

def start (side : Bool) : Nat := storageUnit * (side.toNat * p.space + imageOffset)

def active : Bool := activeSide p.sequence

def withImage (side : Bool) (bytes : Bytes) (h : bytes.length = p.space * storageUnit) : Parts :=
  { p with
    image := Function.update p.image side bytes
    length_image := fun side' => by
      by_cases heq : side' = side
      · rw [heq, Function.update_self, h]
      · rw [Function.update_of_ne heq, p.length_image side'] }

theorem withImage_self (side : Bool) : p.withImage side (p.image side) (p.length_image side) = p := by
  simp [withImage]

theorem withImage_withImage (side : Bool) {first second : Bytes} (hfirst : first.length = p.space * storageUnit)
    (hsecond : second.length = p.space * storageUnit) :
    (p.withImage side first hfirst).withImage side second hsecond = p.withImage side second hsecond := by
  simp [withImage]

theorem image_active {shadow : Bytes} (h : shadow.length = p.space * storageUnit) :
    (p.withImage (!p.active) shadow h).image p.active = p.image p.active :=
  Function.update_of_ne (by simp) _ _

def withSequence (sequence : UInt32) : Parts := { p with sequence }

theorem length_header : p.header.length = storageUnit * imageOffset := by
  simp [header, encodeU32, Pubkey.toBytes, storageUnit, imageOffset]

theorem space_lt : p.space < 2 ^ 32 := by
  have := p.maximum
  unfold storageUnit staticSize at this
  omega

def before (side : Bool) : Bytes := if side then p.header ++ p.image false else p.header

def after (side : Bool) : Bytes := if side then [] else p.image true

theorem bytes_eq (side : Bool) : p.bytes = p.before side ++ p.image side ++ p.after side := by
  cases side <;> simp [bytes, before, after]

theorem length_before (side : Bool) : (p.before side).length = p.start side := by
  have hlength := p.length_image false
  have hheader := p.length_header
  cases side
  · simpa [before, start] using hheader
  · simp only [before, start, if_true, List.length_append, hheader, hlength, Bool.toNat_true]
    rw [Nat.one_mul, Nat.mul_add, Nat.mul_comm p.space, Nat.add_comm]

theorem bytes_withImage (side : Bool) {bytes : Bytes} (h : bytes.length = p.space * storageUnit) :
    (p.withImage side bytes h).bytes = p.before side ++ bytes ++ p.after side := by
  cases side <;> simp [Parts.bytes, before, after, withImage, header]

theorem read_image {side : Bool} {x part y : Bytes} (h : p.image side = x ++ part ++ y) :
    Storage.read p.bytes (p.start side + x.length) part.length = some part := by
  rw [p.bytes_eq side, ← p.length_before side]
  exact Storage.read_within (h ▸ Storage.read_append x part y)

theorem write_image {side : Bool} {x old new y : Bytes} (h : p.image side = x ++ old ++ y)
    (hlength : new.length = old.length) :
    ∃ hsize : (x ++ new ++ y).length = p.space * storageUnit,
      Storage.write p.bytes (p.start side + x.length) new = some (p.withImage side (x ++ new ++ y) hsize).bytes := by
  have hsize : (x ++ new ++ y).length = p.space * storageUnit := by
    rw [← p.length_image side, h]
    simp [hlength]
  refine ⟨hsize, ?_⟩
  rw [p.bytes_withImage, p.bytes_eq side, ← p.length_before side]
  exact Storage.write_within (h ▸ Storage.write_append x old new y hlength)

theorem read_whole (side : Bool) : Storage.read p.bytes (p.start side) (p.space * storageUnit) = some (p.image side) := by
  have hread : Storage.read p.bytes (p.start side + ([] : Bytes).length) (p.image side).length = some (p.image side) :=
    p.read_image (List.append_nil _).symm
  rwa [List.length_nil, Nat.add_zero, p.length_image] at hread

theorem write_whole (side : Bool) {bytes : Bytes} (h : bytes.length = p.space * storageUnit) :
    Storage.write p.bytes (p.start side) bytes = some (p.withImage side bytes h).bytes := by
  have himage : p.image side = [] ++ p.image side ++ [] := (List.append_nil _).symm
  obtain ⟨hsize, hwrite⟩ := p.write_image himage (h.trans (p.length_image side).symm)
  rw [List.length_nil, Nat.add_zero] at hwrite
  rw [hwrite, p.bytes_withImage, p.bytes_withImage, List.nil_append, List.append_nil]

theorem sequence_bytes : Buffer.sequence p.bytes = some p.sequence := by
  have hread : Storage.read p.bytes 0 4 = some (encodeU32 p.sequence.toNat) := by
    have := Storage.read_append [] (encodeU32 p.sequence.toNat)
      (encodeU32 p.space ++ p.pubkey.toBytes ++ p.image false ++ p.image true)
    simpa [bytes, header, encodeU32] using this
  have hlt : p.sequence.toNat < 256 ^ 4 := p.sequence.toNat_lt
  rw [Buffer.sequence, Buffer.readU32, hread, Option.map_some, Option.map_some, encodeU32, ofLittleEndian_littleEndian,
    Nat.mod_eq_of_lt hlt, UInt32.ofNat_toNat]

theorem space_bytes : Buffer.space p.bytes = some p.space := by
  have hread : Storage.read p.bytes 4 4 = some (encodeU32 p.space) := by
    have := Storage.read_append (encodeU32 p.sequence.toNat) (encodeU32 p.space)
      (p.pubkey.toBytes ++ p.image false ++ p.image true)
    simpa [bytes, header, encodeU32] using this
  have hlt : p.space < 256 ^ 4 := p.space_lt
  rw [Buffer.space, Buffer.readU32, hread, Option.map_some, encodeU32, ofLittleEndian_littleEndian, Nat.mod_eq_of_lt hlt]

theorem pubkey_bytes : Buffer.pubkey p.bytes = some p.pubkey := by
  have hread : Storage.read p.bytes storageUnit 32 = some p.pubkey.toBytes := by
    have := Storage.read_append (encodeU32 p.sequence.toNat ++ encodeU32 p.space) p.pubkey.toBytes
      (p.image false ++ p.image true)
    simpa [bytes, header, encodeU32, Pubkey.toBytes, storageUnit] using this
  rw [Buffer.pubkey, hread, Option.map_some, Pubkey.ofBytes_toBytes]

theorem storeSequence_bytes (sequence : UInt32) :
    Buffer.storeSequence p.bytes sequence = some (p.withSequence sequence).bytes := by
  have hwrite := Storage.write_append [] (encodeU32 p.sequence.toNat) (encodeU32 sequence.toNat)
    (encodeU32 p.space ++ p.pubkey.toBytes ++ p.image false ++ p.image true) (by simp [encodeU32])
  simpa [Buffer.storeSequence, bytes, header, withSequence] using hwrite

theorem start_ne : p.start p.active ≠ p.start (!p.active) := by
  have hpos : 0 < p.space * storageUnit := Nat.lt_of_lt_of_le (by decide) p.minimum
  unfold start storageUnit at *
  cases p.active <;> simp <;> omega

theorem start_eq_offset (sequence : UInt32) (active : Bool) :
    storageUnit * offset p.space sequence active = p.start (active ^^ !activeSide sequence) := by
  have heven : (sequence % 2 == 0) = !activeSide sequence := by
    unfold activeSide
    have hcases : sequence % 2 = 0 ∨ sequence % 2 = 1 := by
      simp only [← UInt32.toNat_inj, UInt32.toNat_mod, UInt32.toNat_one, UInt32.toNat_zero, UInt32.reduceToNat]
      omega
    rcases hcases with h | h <;> rw [h] <;> decide
  rw [offset, heven, start]

end Parts

end Raw

end MagicEngine
