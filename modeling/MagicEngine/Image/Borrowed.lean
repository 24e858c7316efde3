import MagicEngine.Image.Layout

/-!
# Views of an image

What the operations of a borrowed view do to the image it points to. A filled storage (`Parts.filled`) holds a well-formed
image at one side; every operation of a view of that side reads the account of the image, or leaves a filled storage
again, with nothing else changed.
-/

namespace MagicEngine.Raw

open Codec

/-- A core, a length and the room for the data, of which the first `len` bytes are in use. -/
structure Image where
  core : AccountCore
  len : Nat
  room : Bytes
  len_le : len ≤ room.length
  slot_lt : core.slot < 2 ^ 64

namespace Image

def bytes (img : Image) : Bytes := img.core.toBytes ++ (encodeU32 img.len ++ encodeU32 img.room.length) ++ img.room

def account (img : Image) : OwnedAccount := { core := img.core, data := img.room.take img.len }

theorem length_data (img : Image) : img.account.data.length = img.len := by
  rw [account, List.length_take, Nat.min_eq_left img.len_le]

theorem length_bytes (img : Image) : img.bytes.length = staticSize + img.room.length := by
  simp only [bytes, encodeU32, List.length_append, AccountCore.length_toBytes, length_littleEndian, AccountCore.size,
    staticSize]

def withCore (img : Image) (core : AccountCore) (h : core.slot < 2 ^ 64) : Image := { img with core, slot_lt := h }

def withLen (img : Image) (len : Nat) (h : len ≤ img.room.length) : Image := { img with len, len_le := h }

def overwrite (img : Image) (position : Nat) (new : Bytes) (h : position + new.length ≤ img.room.length) : Image :=
  { img with
    room := img.room.take position ++ new ++ img.room.drop (position + new.length)
    len_le := by
      have := img.len_le
      simp only [List.length_append, List.length_take, List.length_drop]
      omega }

theorem length_room_overwrite (img : Image) (position : Nat) (new : Bytes)
    (h : position + new.length ≤ img.room.length) : (img.overwrite position new h).room.length = img.room.length := by
  simp only [overwrite, List.length_append, List.length_take, List.length_drop]
  omega

end Image

namespace Parts

variable {q : Parts} {side : Bool} {img : Image}

theorem capacity_lt (q : Parts) : q.capacity < 2 ^ 32 := q.maximum

theorem length_of_capacity (h : img.room.length = q.capacity) : img.bytes.length = q.space * storageUnit := by
  have := q.minimum
  rw [img.length_bytes, h, capacity]
  omega

def filled (q : Parts) (side : Bool) (img : Image) (h : img.room.length = q.capacity) : Parts :=
  q.withImage side img.bytes (length_of_capacity h)

theorem image_filled (h : img.room.length = q.capacity) : (q.filled side img h).image side = img.bytes :=
  Function.update_self _ _ _

theorem filled_eq_self (q : Parts) (h : img.room.length = q.capacity) (himage : q.image side = img.bytes) :
    q.filled side img h = q := by
  simp only [filled, ← himage]
  exact q.withImage_self side

end Parts

variable {address : Nat}

namespace BorrowedAccount

open Parts

variable {b : BorrowedAccount} {q : Parts} {side : Bool} {img : Image}

private theorem take_overwrite {room new : Bytes} {n : Nat} (h : n + new.length ≤ room.length) :
    (room.take n ++ new ++ room.drop (n + new.length)).take (n + new.length) = room.take n ++ new := by
  have hlength : (room.take n ++ new).length = n + new.length := by
    rw [List.length_append, List.length_take, Nat.min_eq_left (by omega)]
  rw [← hlength, List.take_left]

section Filled

variable (hb : b.core = q.start side) (h : img.room.length = q.capacity)
include hb

private theorem read_at (x part y : Bytes) {n : Nat} (himage : img.bytes = x ++ part ++ y)
    (haddress : address = b.core + x.length) (hn : n = part.length) :
    Storage.read (q.filled side img h).bytes address n = some part := by
  rw [haddress, hn, hb]
  exact (q.filled side img h).read_image ((image_filled h).trans himage)

private theorem write_at (img' : Image) (x old new y : Bytes) (h' : img'.room.length = q.capacity)
    (himage : img.bytes = x ++ old ++ y) (himage' : img'.bytes = x ++ new ++ y) (hlength : new.length = old.length)
    (haddress : address = b.core + x.length) :
    Storage.write (q.filled side img h).bytes address new = some (q.filled side img' h').bytes := by
  obtain ⟨hsize, hwrite⟩ := (q.filled side img h).write_image ((image_filled h).trans himage) hlength
  rw [haddress, hb]
  refine hwrite.trans (congrArg (fun p => some (Parts.bytes p)) ?_)
  refine (q.withImage_withImage side _ hsize).trans ?_
  unfold filled
  congr 1
  exact himage'.symm

theorem readCore_filled : b.readCore (q.filled side img h).bytes = some img.core := by
  have hread : Storage.read (q.filled side img h).bytes b.core AccountCore.size = some img.core.toBytes :=
    read_at hb h [] _ (encodeU32 img.len ++ encodeU32 img.room.length ++ img.room) (by simp [Image.bytes]) rfl
      (by simp)
  rw [readCore, hread, Option.bind_some, AccountCore.ofBytes_toBytes img.slot_lt]

private theorem readU32_at (x y : Bytes) {n : Nat} (hn : n < 2 ^ 32) (himage : img.bytes = x ++ encodeU32 n ++ y)
    (haddress : address = b.core + x.length) : Buffer.readU32 (q.filled side img h).bytes address = some n := by
  have hlt : n < 256 ^ 4 := hn
  rw [Buffer.readU32, read_at hb h x _ y himage haddress (length_littleEndian 4 n).symm, Option.map_some, encodeU32,
    ofLittleEndian_littleEndian, Nat.mod_eq_of_lt hlt]

theorem headerLen_filled : b.headerLen (q.filled side img h).bytes = some img.len := by
  have hlt : img.len < 2 ^ 32 := Nat.lt_of_le_of_lt (h ▸ img.len_le) q.capacity_lt
  exact readU32_at hb h img.core.toBytes (encodeU32 img.room.length ++ img.room) hlt (by simp [Image.bytes]) (by simp)

theorem capacity_filled : b.capacity (q.filled side img h).bytes = some q.capacity := by
  refine readU32_at hb h (img.core.toBytes ++ encodeU32 img.len) img.room q.capacity_lt ?_ ?_
  · simp [Image.bytes, h]
  · simp [encodeU32, Nat.add_assoc]

theorem len_filled : b.len (q.filled side img h).bytes = some img.len := by
  have hle : img.len ≤ q.capacity := h ▸ img.len_le
  simp [len, headerLen_filled hb h, capacity_filled hb h, Nat.min_eq_left hle]

theorem data_filled : b.data (q.filled side img h).bytes = some img.account.data := by
  have hread : Storage.read (q.filled side img h).bytes (b.core + staticSize) img.len = some img.account.data := by
    refine read_at hb h (img.core.toBytes ++ (encodeU32 img.len ++ encodeU32 img.room.length)) _ (img.room.drop img.len)
      ?_ ?_ img.length_data.symm
    · simp [Image.bytes, Image.account]
    · simp [encodeU32, AccountCore.size, staticSize]
  simp [data, len_filled hb h, hread]

theorem toOwned_filled : b.toOwned (q.filled side img h).bytes = some img.account := by
  simp [toOwned, readCore_filled hb h, data_filled hb h, Image.account]

theorem writeField_filled {α : Type} (field : CoreField α) (value : α)
    (hslot : (field.set value img.core).slot < 2 ^ 64) :
    b.writeField field value (q.filled side img h).bytes =
      some (q.filled side (img.withCore (field.set value img.core) hslot) h).bytes := by
  refine write_at hb h (img.withCore _ hslot) (img.core.segments.take field.index).flatten
    (field.encode (field.get img.core)) _ ((img.core.segments.drop (field.index + 1)).flatten ++
      (encodeU32 img.len ++ encodeU32 img.room.length) ++ img.room) h ?_ ?_ ?_ ?_
  · simp [Image.bytes, field.toBytes_eq img.core]
  · simp [Image.bytes, Image.withCore, field.toBytes_set]
  · rw [field.length_encode, field.length_encode]
  · rw [field.length_before]

theorem storeLen_filled {len : Nat} (hlen : len ≤ img.room.length) :
    b.storeLen len (q.filled side img h).bytes = some (q.filled side (img.withLen len hlen) h).bytes := by
  refine write_at hb h (img.withLen len hlen) img.core.toBytes (encodeU32 img.len) _
    (encodeU32 img.room.length ++ img.room) h ?_ ?_ ?_ ?_
  · simp [Image.bytes]
  · simp [Image.bytes, Image.withLen]
  · simp [encodeU32]
  · simp

variable {bytes : Bytes}

theorem storeData_filled {position : Nat} (hfits : position + bytes.length ≤ img.room.length) :
    b.storeData position bytes (q.filled side img h).bytes =
      some (q.filled side (img.overwrite position bytes hfits) ((img.length_room_overwrite _ _ hfits).trans h)).bytes := by
  have hroom : img.room = img.room.take position ++ slice img.room position bytes.length ++
      img.room.drop (position + bytes.length) := by
    rw [slice, ← List.drop_drop, List.append_assoc, List.take_append_drop, List.take_append_drop]
  refine write_at hb h (img.overwrite _ _ hfits)
    (img.core.toBytes ++ (encodeU32 img.len ++ encodeU32 img.room.length) ++ img.room.take position)
    (slice img.room position bytes.length) _ (img.room.drop (position + bytes.length)) _ ?_ ?_ ?_ ?_
  · rw [Image.bytes]
    conv_lhs => rw [hroom]
    simp [← hroom]
  · rw [Image.bytes, img.length_room_overwrite _ _ hfits]
    simp [Image.overwrite]
  · rw [length_slice hfits]
  · simp [encodeU32, AccountCore.size, staticSize, Nat.min_eq_left (Nat.le_trans (Nat.le_add_right _ _) hfits)]
    omega

/-! ### Data -/

theorem resize_filled {len : Nat} (val : UInt8) (hlen : len ≤ q.capacity) :
    ∃ img' h', b.resize len val (q.filled side img h).bytes = some (q.filled side img' h').bytes ∧
      img'.account = { img.account with
        data := img.account.data.take len ++ List.replicate (len - img.account.data.length) val } := by
  have hroom : len ≤ img.room.length := h ▸ hlen
  have hused := img.len_le
  rw [img.length_data]
  by_cases hgrows : img.len < len
  · have hfits : img.len + (List.replicate (len - img.len) val).length ≤ img.room.length := by
      rw [List.length_replicate]
      omega
    have hlen' : len ≤ (img.overwrite _ _ hfits).room.length := by
      rw [img.length_room_overwrite]
      exact hroom
    refine ⟨(img.overwrite _ _ hfits).withLen len hlen', (img.length_room_overwrite _ _ hfits).trans h, ?_, ?_⟩
    · simp only [resize, len_filled hb h, bind, Option.bind_some, if_pos hgrows, storeData_filled hb h hfits]
      exact storeLen_filled hb _ hlen'
    · have htake := take_overwrite hfits
      have hsum : img.len + (List.replicate (len - img.len) val).length = len := by
        rw [List.length_replicate]
        omega
      rw [hsum] at htake
      have hdata : (img.room.take img.len).take len = img.room.take img.len :=
        List.take_of_length_le (by rw [List.length_take]; omega)
      simp only [Image.account, Image.withLen, Image.overwrite, hsum, hdata, htake]
  · refine ⟨img.withLen len hroom, h, ?_, ?_⟩
    · simp only [resize, len_filled hb h, bind, Option.bind_some, if_neg hgrows]
      exact storeLen_filled hb h hroom
    · have hle : len ≤ img.len := Nat.le_of_not_lt hgrows
      simp only [Image.account, Image.withLen, List.take_take, Nat.min_eq_left hle, Nat.sub_eq_zero_of_le hle,
        List.replicate_zero, List.append_nil]

theorem extend_filled (hfits : img.account.data.length + bytes.length ≤ q.capacity) :
    ∃ img' h', b.extend bytes (q.filled side img h).bytes = some (q.filled side img' h').bytes ∧
      img'.account = { img.account with data := img.account.data ++ bytes } := by
  rw [img.length_data, ← h] at hfits
  have hlen : img.len + bytes.length ≤ (img.overwrite img.len bytes hfits).room.length := by
    rw [img.length_room_overwrite]
    exact hfits
  have h' := (img.length_room_overwrite _ _ hfits).trans h
  refine ⟨(img.overwrite img.len bytes hfits).withLen _ hlen, h', ?_, ?_⟩
  · simp only [extend, len_filled hb h, bind, Option.bind_some, storeData_filled hb h hfits, headerLen_filled hb h']
    exact storeLen_filled hb h' hlen
  · simp only [Image.account, Image.withLen, Image.overwrite, take_overwrite hfits]

theorem set_filled (hfits : bytes.length ≤ q.capacity) :
    ∃ img' h', b.set bytes (q.filled side img h).bytes = some (q.filled side img' h').bytes ∧
      img'.account = { img.account with data := bytes } := by
  have hfits' : 0 + bytes.length ≤ img.room.length := by
    rw [h]
    omega
  have hlen : bytes.length ≤ (img.overwrite 0 bytes hfits').room.length := by
    rw [img.length_room_overwrite]
    omega
  have h' := (img.length_room_overwrite _ _ hfits').trans h
  refine ⟨(img.overwrite 0 bytes hfits').withLen _ hlen, h', ?_, ?_⟩
  · simp only [set, bind, storeData_filled hb h hfits', Option.bind_some]
    exact storeLen_filled hb h' hlen
  · simp [Image.account, Image.withLen, Image.overwrite]

theorem storeData_account {position : Nat} (hfits : position + bytes.length ≤ img.account.data.length) :
    ∃ img' h', b.storeData position bytes (q.filled side img h).bytes = some (q.filled side img' h').bytes ∧
      img'.account = { img.account with
        data := img.account.data.take position ++ bytes ++ img.account.data.drop (position + bytes.length) } := by
  have hused := img.len_le
  rw [img.length_data] at hfits
  refine ⟨_, _, storeData_filled hb h (Nat.le_trans hfits hused), ?_⟩
  simp only [Image.account, Image.overwrite, OwnedAccount.mk.injEq, true_and]
  have hposition : (img.room.take position).length = position := by
    rw [List.length_take, Nat.min_eq_left (by omega)]
  have hfront : (img.room.take position ++ bytes).length ≤ img.len := by
    rwa [List.length_append, hposition]
  rw [List.take_take, Nat.min_eq_left (by omega), List.take_append, List.take_of_length_le hfront, List.length_append,
    hposition, List.drop_take]

end Filled

/-! ### Moving between the images -/

variable {p : Parts}

theorem init_bytes (p : Parts) : init p.bytes = some { core := p.start p.active, version := p.sequence } := by
  have hstart := p.start_eq_offset p.sequence true
  rw [Bool.true_xor, Bool.not_not] at hstart
  simp only [init, p.sequence_bytes, p.space_bytes, bind, Option.bind_some, pure, hstart]
  rfl

theorem shadow_eq (hversion : b.version = p.sequence) : b.shadow p.space = p.start (!p.active) := by
  rw [shadow, hversion, p.start_eq_offset, Bool.false_xor]
  rfl

theorem translate_bytes (hb : b.core = p.start p.active) (hversion : b.version = p.sequence) :
    b.translate p.bytes = some ((p.withImage (!p.active) (p.image p.active) (p.length_image _)).bytes,
      { b with core := p.start (!p.active) }) := by
  have happart : p.start p.active + p.space * storageUnit ≤ p.start (!p.active) ∨
      p.start (!p.active) + p.space * storageUnit ≤ p.start p.active := by
    cases p.active <;> simp [start, Nat.mul_add, Nat.mul_comm, Nat.add_comm]
  simp only [translate, p.space_bytes, bind, Option.bind_some, shadow_eq hversion, hb, if_neg p.start_ne,
    Buffer.copyNonoverlapping, if_pos happart, p.read_whole, p.write_whole _ (p.length_image _), pure]

theorem commit_shadow (hb : b.core = p.start (!p.active)) (hversion : b.version = p.sequence) :
    b.commit p.bytes = some (p.withSequence (p.sequence + 1)).bytes := by
  simp [commit, p.space_bytes, p.sequence_bytes, shadow_eq hversion, hb, hversion, p.storeSequence_bytes]

theorem commit_active (hb : b.core = p.start p.active) (hversion : b.version = p.sequence) :
    b.commit p.bytes = some p.bytes := by
  have hne : b.core ≠ p.start (!p.active) := hb ▸ p.start_ne
  simp [commit, p.space_bytes, shadow_eq hversion, hne]

theorem rollback_bytes (b : BorrowedAccount) (p : Parts) :
    b.rollback p.bytes = some (p.withSequence (p.sequence - 1)).bytes := by
  simp [rollback, p.sequence_bytes, p.storeSequence_bytes]

end BorrowedAccount

/-! ### A fresh storage -/

def Serializable (a : OwnedAccount) : Prop :=
  a.core.slot < 2 ^ 64 ∧ allocation a.data.length * storageUnit - staticSize < 2 ^ 32

instance (a : OwnedAccount) : Decidable (Serializable a) := inferInstanceAs (Decidable (_ ∧ _))

variable {a : OwnedAccount} {buf : Buffer} {pubkey : Pubkey}

theorem serialize_eq (h : storageUnit * imageOffset + staticSize + a.data.length ≤ buf.length) :
    serialize a buf pubkey = some ((encodeU32 0 ++ encodeU32 (allocationOf a)) ++ pubkey.toBytes ++ a.core.toBytes ++
      dataHeader a.data.length (allocationOf a) ++ a.data ++
      buf.drop (storageUnit * imageOffset + staticSize + a.data.length)) := by
  have hlength : [encodeU32 0 ++ encodeU32 (allocationOf a), pubkey.toBytes, a.core.toBytes,
      dataHeader a.data.length (allocationOf a), a.data].flatten.length =
      storageUnit * imageOffset + staticSize + a.data.length := by
    simp [encodeU32, Pubkey.toBytes, dataHeader, AccountCore.size, storageUnit, imageOffset, staticSize]
    omega
  have hwrite := Storage.writeAll_append [] buf (hlength ▸ h)
  rw [hlength] at hwrite
  simpa [serialize] using hwrite

private theorem readU32_part {stored : Bytes} (x y : Bytes) {n : Nat} (h : stored = x ++ encodeU32 n ++ y)
    (haddress : x.length = address) : Buffer.readU32 stored address = some (n % 2 ^ 32) := by
  have hread := Storage.read_append x (encodeU32 n) y
  rw [encodeU32, length_littleEndian, haddress] at hread
  rw [Buffer.readU32, h, encodeU32, hread, Option.map_some, ofLittleEndian_littleEndian]
  rfl

/-- A fresh view of a serialized account shows as much of its data as length and capacity say, 32 bits wide. -/
theorem data_serialized {stored : Buffer} (h : storageUnit * imageOffset + staticSize + a.data.length ≤ buf.length)
    (hserialize : serialize a buf pubkey = some stored) :
    ∃ view, BorrowedAccount.init stored = some view ∧
      view.data stored = some (a.data.take (min (a.data.length % 2 ^ 32)
        ((allocationOf a * storageUnit - staticSize) % 2 ^ 32))) := by
  have hstored := Option.some.inj (hserialize.symm.trans (serialize_eq h))
  generalize buf.drop (storageUnit * imageOffset + staticSize + a.data.length) = rest at hstored
  rw [dataHeader] at hstored
  simp only [List.append_assoc] at hstored
  have hpubkey : pubkey.toBytes.length = 32 := length_bigEndian 32 _
  have hcore : a.core.toBytes.length = 56 := a.core.length_toBytes
  let front := encodeU32 0 ++ encodeU32 (allocationOf a) ++ pubkey.toBytes ++ a.core.toBytes
  have hfront : front.length = storageUnit * imageOffset + AccountCore.size := by
    simp only [front, encodeU32, List.length_append, length_littleEndian, hpubkey, hcore, storageUnit, imageOffset,
      AccountCore.size]
  let capacity := allocationOf a * storageUnit - staticSize
  have hsequence : Buffer.readU32 stored 0 = some (0 % 2 ^ 32) := readU32_part [] _ hstored rfl
  have hspace : Buffer.readU32 stored 4 = some (allocationOf a % 2 ^ 32) :=
    readU32_part (encodeU32 0) (pubkey.toBytes ++ a.core.toBytes ++ encodeU32 a.data.length ++ encodeU32 capacity ++
      a.data ++ rest) (by rw [hstored]; simp only [List.append_assoc, capacity]) rfl
  have hlen : Buffer.readU32 stored (storageUnit * imageOffset + AccountCore.size) = some (a.data.length % 2 ^ 32) :=
    readU32_part front (encodeU32 capacity ++ a.data ++ rest)
      (by rw [hstored]; simp only [List.append_assoc, front, capacity]) hfront
  have hcapacity : Buffer.readU32 stored (storageUnit * imageOffset + AccountCore.size + 4) =
      some (capacity % 2 ^ 32) :=
    readU32_part (front ++ encodeU32 a.data.length) (a.data ++ rest)
      (by rw [hstored]; simp only [List.append_assoc, front, capacity]) (by rw [List.length_append, hfront]; rfl)
  refine ⟨{ core := storageUnit * imageOffset, version := 0 }, ?_, ?_⟩
  · have hoffset : ∀ space, offset space (UInt32.ofNat (0 % 2 ^ 32)) true = imageOffset := fun space => by simp [offset]
    simp only [BorrowedAccount.init, Buffer.sequence, Buffer.space, hsequence, hspace, Option.map_some, bind,
      Option.bind_some, pure, hoffset]
    rfl
  · let n := min (a.data.length % 2 ^ 32) (capacity % 2 ^ 32)
    have hn : n ≤ a.data.length := Nat.le_trans (Nat.min_le_left _ _) (Nat.mod_le _ _)
    have hread : Storage.read stored (storageUnit * imageOffset + staticSize) n = some (a.data.take n) := by
      have hread := Storage.read_append (front ++ encodeU32 a.data.length ++ encodeU32 capacity) (a.data.take n)
        (a.data.drop n ++ rest)
      have haddress : (front ++ encodeU32 a.data.length ++ encodeU32 capacity).length =
          storageUnit * imageOffset + staticSize := by
        rw [List.length_append, List.length_append, hfront]
        rfl
      rw [haddress, List.length_take, Nat.min_eq_left hn] at hread
      have hsplit : a.data.take n ++ (a.data.drop n ++ rest) = a.data ++ rest := by
        rw [← List.append_assoc, List.take_append_drop]
      rw [← hread, hstored]
      simp only [List.append_assoc, hsplit, front, capacity]
    simp only [BorrowedAccount.data, BorrowedAccount.len, BorrowedAccount.headerLen, BorrowedAccount.capacity, hlen,
      hcapacity, bind, Option.bind_some, pure]
    exact hread

theorem allocationOf_eq (ha : Serializable a) : allocationOf a = allocation a.data.length := by
  obtain ⟨-, hcapacity⟩ := ha
  unfold storageUnit staticSize at hcapacity
  exact Nat.mod_eq_of_lt (by omega)

theorem unitsOf_eq (ha : Serializable a) : unitsOf a = allocation a.data.length * 2 + imageOffset := by
  have hallocation := allocationOf_eq ha
  obtain ⟨-, hcapacity⟩ := ha
  unfold storageUnit staticSize at hcapacity
  rw [unitsOf, hallocation]
  exact Nat.mod_eq_of_lt (by unfold imageOffset; omega)

/-- A serializable account is laid out as the active image of a storage. -/
theorem serialize_parts (pubkey : Pubkey) (ha : Serializable a) (hbuf : buf.length = unitsOf a * storageUnit) :
    ∃ (p : Parts) (img : Image), serialize a buf pubkey = some p.bytes ∧ p.sequence = 0 ∧ p.pubkey = pubkey ∧
      p.space * 2 + imageOffset = unitsOf a ∧ p.image p.active = img.bytes ∧ img.account = a := by
  have hallocation := allocationOf_eq ha
  have hunits := unitsOf_eq ha
  obtain ⟨hslot, hcapacity⟩ := ha
  have hminimum : staticSize + a.data.length ≤ allocation a.data.length * storageUnit := by
    unfold allocation staticSize storageUnit
    omega
  rw [hunits, Nat.add_mul, Nat.mul_assoc] at hbuf
  generalize hspace : allocation a.data.length = space at *
  -- the room of image A ends where image B begins
  let rest := buf.drop (storageUnit * imageOffset + staticSize + a.data.length)
  let spare := space * storageUnit - staticSize - a.data.length
  have hrest : rest.length = spare + space * storageUnit := by
    simp only [rest, spare, List.length_drop, hbuf]
    unfold storageUnit staticSize imageOffset at *
    omega
  have hroom : (a.data ++ rest.take spare).length = space * storageUnit - staticSize := by
    rw [List.length_append, List.length_take, hrest, Nat.min_eq_left (Nat.le_add_right _ _)]
    simp only [spare]
    omega
  let img : Image := ⟨a.core, a.data.length, a.data ++ rest.take spare, by simp, hslot⟩
  have himg : img.bytes.length = space * storageUnit := by
    rw [img.length_bytes, hroom]
    omega
  let p : Parts :=
    { sequence := 0, space, pubkey, image := fun side => if side then rest.drop spare else img.bytes
      length_image := fun side => by
        cases side
        · exact himg
        · simp [hrest]
      minimum := by omega
      maximum := hcapacity }
  refine ⟨p, img, ?_, rfl, rfl, hunits.symm, rfl, ?_⟩
  · have hfits : storageUnit * imageOffset + staticSize + a.data.length ≤ buf.length := by
      rw [hbuf]
      unfold storageUnit staticSize imageOffset at *
      omega
    rw [serialize_eq hfits]
    simp [Parts.bytes, Parts.header, p, img, Image.bytes, dataHeader, hallocation, hroom, rest]
  · simp [Image.account, img]

end MagicEngine.Raw
